/-!
# Registries

A registry keeps at most one value under each key, in the order in which the keys were first used.
Two registries are equal when they hold equal values under the same keys: the order of the keys
does not count.
-/

namespace Scenario

structure Registry (α : Type) where
  entries : List (String × α)
  nodup : (entries.map Prod.fst).Nodup

namespace Registry

variable {α : Type}

def empty : Registry α := ⟨[], by simp⟩

instance : Inhabited (Registry α) := ⟨empty⟩

def keys (r : Registry α) : List String := r.entries.map Prod.fst

def values (r : Registry α) : List α := r.entries.map Prod.snd

def size (r : Registry α) : Nat := r.entries.length

def lookupIn (key : String) : List (String × α) → Option α
  | [] => none
  | (k, a) :: rest => if k = key then some a else lookupIn key rest

/-- The value under `key`. -/
def find? (r : Registry α) (key : String) : Option α := lookupIn key r.entries

def putIn (key : String) (a : α) : List (String × α) → List (String × α)
  | [] => [(key, a)]
  | (k, b) :: rest => if k = key then (key, a) :: rest else (k, b) :: putIn key a rest

theorem map_fst_putIn (key : String) (a : α) (entries : List (String × α)) :
    (putIn key a entries).map Prod.fst =
      if key ∈ entries.map Prod.fst then entries.map Prod.fst
      else entries.map Prod.fst ++ [key] := by
  induction entries with
  | nil => rfl
  | cons entry rest ih =>
    obtain ⟨k, b⟩ := entry
    by_cases h : k = key
    · simp [putIn, h]
    · have h' : ¬ key = k := fun e => h e.symm
      simp only [putIn, if_neg h, List.map_cons, ih, List.mem_cons, h', false_or]
      split <;> rfl

theorem nodup_putIn (key : String) (a : α) {entries : List (String × α)}
    (h : (entries.map Prod.fst).Nodup) : ((putIn key a entries).map Prod.fst).Nodup := by
  rw [map_fst_putIn]
  split
  · exact h
  · rename_i hk
    rw [List.nodup_append]
    refine ⟨h, by simp, ?_⟩
    intro k hk' l hl
    simp only [List.mem_singleton] at hl
    subst hl
    intro e
    exact hk (e ▸ hk')

/-- Puts `a` under `key`, in place of what was there. -/
def put (r : Registry α) (key : String) (a : α) : Registry α :=
  ⟨putIn key a r.entries, nodup_putIn key a r.nodup⟩

/-- Replaces each value by its image, under the same key. -/
def map (f : α → α) (r : Registry α) : Registry α :=
  ⟨r.entries.map fun entry => (entry.1, f entry.2), by
    simpa only [List.map_map, Function.comp_def] using r.nodup⟩

def traverseIn {m : Type → Type} [Monad m] (f : α → m α) : (entries : List (String × α)) →
    m { out : List (String × α) // out.map Prod.fst = entries.map Prod.fst }
  | [] => pure ⟨[], rfl⟩
  | (key, a) :: rest => do
    let b ← f a
    let ⟨out, h⟩ ← traverseIn f rest
    pure ⟨(key, b) :: out, by simp [h]⟩

/-- Replaces each value by what `f` makes of it, one after the other. -/
def traverse {m : Type → Type} [Monad m] (f : α → m α) (r : Registry α) : m (Registry α) := do
  let ⟨out, h⟩ ← traverseIn f r.entries
  pure ⟨out, h ▸ r.nodup⟩

/-- The registries have the same keys, with equal values under each. -/
def beq [BEq α] (r s : Registry α) : Bool :=
  r.size == s.size && r.entries.all fun (key, a) => (s.find? key).any (a == ·)

instance [BEq α] : BEq (Registry α) := ⟨beq⟩

@[simp] theorem find?_empty (key : String) : (empty : Registry α).find? key = none := rfl

theorem lookupIn_putIn (key k : String) (a : α) (entries : List (String × α)) :
    lookupIn k (putIn key a entries) = if key = k then some a else lookupIn k entries := by
  induction entries with
  | nil => simp [putIn, lookupIn]
  | cons entry rest ih =>
    obtain ⟨l, b⟩ := entry
    by_cases hl : l = key
    · subst hl
      by_cases hk : l = k <;> simp [putIn, lookupIn, hk]
    · simp only [putIn, if_neg hl, lookupIn, ih]
      by_cases hk : key = k
      · subst hk
        simp [hl]
      · simp [hk]

theorem find?_put (r : Registry α) (key k : String) (a : α) :
    (r.put key a).find? k = if key = k then some a else r.find? k :=
  lookupIn_putIn key k a r.entries

theorem keys_put (r : Registry α) (key : String) (a : α) :
    (r.put key a).keys = if key ∈ r.keys then r.keys else r.keys ++ [key] :=
  map_fst_putIn key a r.entries

theorem lookupIn_eq_some_iff {key : String} {a : α} {entries : List (String × α)}
    (h : (entries.map Prod.fst).Nodup) : lookupIn key entries = some a ↔ (key, a) ∈ entries := by
  induction entries with
  | nil => simp [lookupIn]
  | cons entry rest ih =>
    obtain ⟨k, b⟩ := entry
    simp only [List.map_cons, List.nodup_cons] at h
    by_cases hk : k = key
    · subst hk
      have hn : (k, a) ∉ rest := fun hm => h.1 (List.mem_map.2 ⟨_, hm, rfl⟩)
      simp [lookupIn, hn, eq_comm]
    · have hk' : ¬ key = k := fun e => hk e.symm
      simp [lookupIn, hk, hk', ih h.2]

theorem find?_eq_some_iff (r : Registry α) (key : String) (a : α) :
    r.find? key = some a ↔ (key, a) ∈ r.entries :=
  lookupIn_eq_some_iff r.nodup

@[simp] theorem keys_map (f : α → α) (r : Registry α) : (r.map f).keys = r.keys := by
  simp [map, keys, Function.comp_def]

end Registry
end Scenario
