import Mathlib.Data.List.Perm.Subperm
import Scenario.Script.Basic

/-!
# Equality of scripts

Two scripts are equal, in the sense of `==`, exactly if they have the same sense. The sense of a
script says what can be looked up in it and leaves out all spans, and the order in which the authors
and branches of a scene are kept. Since senses are compared by `=`, equality of scripts is an
equivalence relation, and equal scripts share every property that is about their senses.
-/

namespace Scenario

/-- Looking for a key finds a value exactly if the key occurs, and the value is known if it depends
on the key only. -/
theorem map_find?_eq {α β : Type} {key : α → String} {view : α → β} {value : String → β}
    {l : List α} (h : ∀ a ∈ l, view a = value (key a)) (x : String) :
    (l.find? fun a => key a = x).map view = if x ∈ l.map key then some (value x) else none := by
  induction l with
  | nil => rfl
  | cons a l ih =>
    by_cases hx : key a = x
    · simp [hx, h a]
    · have hne : ¬ x = key a := fun h => hx h.symm
      simpa [hx, hne] using ih fun b hb => h b (List.mem_cons_of_mem _ hb)

namespace Registry

variable {α : Type} {r s : Registry α}

theorem mem_keys_iff {key : String} : key ∈ r.keys ↔ ∃ a, r.find? key = some a := by
  simp only [keys, List.mem_map, find?_eq_some_iff, Prod.exists]
  constructor
  · rintro ⟨k, a, h, rfl⟩
    exact ⟨a, h⟩
  · rintro ⟨a, h⟩
    exact ⟨key, a, h, rfl⟩

theorem mem_values_iff {a : α} : a ∈ r.values ↔ ∃ key, r.find? key = some a := by
  simp only [values, List.mem_map, find?_eq_some_iff, Prod.exists]
  constructor
  · rintro ⟨k, b, h, rfl⟩
    exact ⟨k, h⟩
  · rintro ⟨key, h⟩
    exact ⟨key, a, h, rfl⟩

/-- What is found under a key is known if it depends on the key only. -/
theorem map_find?_eq {β : Type} {view : α → β} {value : String → β}
    (h : ∀ x a, r.find? x = some a → view a = value x) (x : String) :
    (r.find? x).map view = if x ∈ r.keys then some (value x) else none := by
  cases hx : r.find? x with
  | some a => rw [if_pos (mem_keys_iff.2 ⟨a, hx⟩), Option.map_some, h x a hx]
  | none =>
    have hkey : x ∉ r.keys := by
      intro hkey
      obtain ⟨a, ha⟩ := mem_keys_iff.1 hkey
      rw [hx] at ha
      contradiction
    rw [if_neg hkey]
    rfl

/-- Values that are kept under their own keys are the keys. -/
theorem map_values_eq_keys {key : α → String} (h : ∀ x a, r.find? x = some a → key a = x) :
    r.values.map key = r.keys := by
  simp only [values, keys, List.map_map]
  apply List.map_congr_left
  intro entry hmem
  exact h entry.1 entry.2 ((find?_eq_some_iff r entry.1 entry.2).2 hmem)

/-- A value that is kept under its own key is found by that key, and nothing else is. -/
theorem find?_eq_some_iff_mem_values {key : α → String}
    (h : ∀ x a, r.find? x = some a → key a = x) (x : String) (a : α) :
    r.find? x = some a ↔ a ∈ r.values ∧ key a = x := by
  constructor
  · intro ha
    exact ⟨mem_values_iff.2 ⟨x, ha⟩, h x a ha⟩
  · rintro ⟨ha, rfl⟩
    obtain ⟨y, hy⟩ := mem_values_iff.1 ha
    rwa [h y a hy]

/-- Values that are kept under their own keys are kept once each. -/
theorem nodup_values {key : α → String} (h : ∀ x a, r.find? x = some a → key a = x) :
    r.values.Nodup := by
  have hkeys : (r.values.map key).Nodup := by
    rw [map_values_eq_keys h]
    exact r.nodup
  exact List.Pairwise.of_map key (fun _ _ hne he => hne (congrArg key he)) hkeys

/-- Registries of the same size, one of which has all keys of the other, have the same keys. -/
theorem keys_subset_of_size_eq (hsize : r.size = s.size) (h : r.keys ⊆ s.keys) :
    s.keys ⊆ r.keys := by
  have hle : s.keys.length ≤ r.keys.length := by
    simp only [keys, List.length_map]
    exact Nat.le_of_eq hsize.symm
  exact ((List.subperm_of_subset r.nodup h).perm_of_length_le hle).symm.subset

theorem size_le_of_keys_subset (h : r.keys ⊆ s.keys) : r.size ≤ s.size := by
  have hle := (List.subperm_of_subset r.nodup h).length_le
  simp only [keys, List.length_map] at hle
  exact hle

theorem size_eq_of_keys_subset (h : r.keys ⊆ s.keys) (h' : s.keys ⊆ r.keys) : r.size = s.size :=
  Nat.le_antisymm (size_le_of_keys_subset h) (size_le_of_keys_subset h')

/-- Registries are equal if all lookups agree. What counts of a value is its `sense`. -/
theorem beq_iff [BEq α] {β : Type} (sense : α → β)
    (hsense : ∀ a b : α, (a == b) = true ↔ sense a = sense b) :
    (r == s) = true ↔ ∀ key, (r.find? key).map sense = (s.find? key).map sense := by
  have hbeq : (r == s) = true ↔ r.size = s.size ∧
      ∀ key a, r.find? key = some a → ∃ b, s.find? key = some b ∧ sense a = sense b := by
    change (r.size == s.size && r.entries.all fun entry =>
      (s.find? entry.1).any (entry.2 == ·)) = true ↔ _
    simp only [Bool.and_eq_true, beq_iff_eq, List.all_eq_true, Prod.forall, Option.any_eq_true,
      hsense, find?_eq_some_iff]
  rw [hbeq]
  constructor
  · rintro ⟨hsize, h⟩ key
    cases hr : r.find? key with
    | some a =>
      obtain ⟨b, hs, hab⟩ := h key a hr
      simp [hs, hab]
    | none =>
      have hsub : r.keys ⊆ s.keys := by
        intro k hk
        obtain ⟨a, ha⟩ := mem_keys_iff.1 hk
        obtain ⟨b, hb, -⟩ := h k a ha
        exact mem_keys_iff.2 ⟨b, hb⟩
      cases hs : s.find? key with
      | none => rfl
      | some b =>
        have hkey : key ∈ s.keys := mem_keys_iff.2 ⟨b, hs⟩
        obtain ⟨a, ha⟩ := mem_keys_iff.1 (keys_subset_of_size_eq hsize hsub hkey)
        simp [hr] at ha
  · intro h
    have hiff : ∀ key, key ∈ r.keys ↔ key ∈ s.keys := by
      intro key
      have hk := congrArg Option.isSome (h key)
      simp only [Option.isSome_map] at hk
      rw [mem_keys_iff, mem_keys_iff, ← Option.isSome_iff_exists, ← Option.isSome_iff_exists, hk]
    refine ⟨size_eq_of_keys_subset (fun k => (hiff k).1) (fun k => (hiff k).2), ?_⟩
    intro key a ha
    have hk := h key
    rw [ha, Option.map_some, eq_comm, Option.map_eq_some_iff] at hk
    obtain ⟨b, hb, hab⟩ := hk
    exact ⟨b, hb, hab.symm⟩

end Registry

/-- What a branch says. -/
def Branch.sense (b : Branch) : String × Block := (b.id, b.block)

theorem Branch.beq_iff_sense_eq (a b : Branch) : (a == b) = true ↔ a.sense = b.sense := by
  rw [beq_iff]
  simp [sense]

namespace Scene

/-- What a scene says: its id, and the authors and branches that are found in it. -/
def sense (s : Scene) : String × (String → Option String) × (String → Option (String × Block)) :=
  (s.id, fun x => (s.author? x).map Author.id, fun x => (s.branch? x).map Branch.sense)

theorem beq_iff (s t : Scene) : (s == t) = true ↔ s.sense = t.sense := by
  change (s.id == t.id && s.authors == t.authors && s.branches == t.branches) = true ↔ _
  rw [Bool.and_eq_true, Bool.and_eq_true, beq_iff_eq, Registry.beq_iff Author.id Author.beq_iff,
    Registry.beq_iff Branch.sense Branch.beq_iff_sense_eq]
  simp only [sense, Prod.mk.injEq, funext_iff, and_assoc]
  rfl

end Scene

theorem list_beq_iff {α β : Type} [BEq α] (sense : α → β)
    (hsense : ∀ a b : α, (a == b) = true ↔ sense a = sense b) (left right : List α) :
    (left == right) = true ↔ left.map sense = right.map sense := by
  induction left generalizing right with
  | nil => cases right <;> simp
  | cons a left ih =>
    cases right with
    | nil => simp
    | cons b right => simp [hsense, ih]

namespace Document

/-- What a document says. -/
def sense (d : Document) : List (String × (String → Option String) ×
    (String → Option (String × Block))) × List String :=
  (d.scenes.map Scene.sense, d.authors.map Author.id)

theorem beq_iff (d e : Document) : (d == e) = true ↔ d.sense = e.sense := by
  change (d.scenes == e.scenes && d.authors == e.authors) = true ↔ _
  rw [Bool.and_eq_true, list_beq_iff Scene.sense Scene.beq_iff,
    list_beq_iff Author.id Author.beq_iff, sense, sense, Prod.mk.injEq]

end Document
end Scenario
