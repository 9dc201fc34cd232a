import Scenario.Proofs.Coupling.Basic
import Scenario.Proofs.Equality
import Scenario.Script.Broadcast

/-!
# Coupled scripts

What two coupled runs make of their streams is coupled as well. Registries are coupled entry by
entry, so they keep their keys in the same order, and a lookup has coupled answers. Coupled scripts
say the same.

A document may also be coupled with one that has further scenes and authors in front of its own:
this is how a run goes on with a document in another run that has read something before.
-/

namespace Scenario

section Data

variable (R : Span → Span → Prop)

/-- The registries have the same keys in the same order, with values in the relation `S`. -/
def Registry.Coupled {α β : Type} (S : α → β → Prop) (r : Registry α) (s : Registry β) : Prop :=
  List.Forall₂ (fun entry entry' => entry.1 = entry'.1 ∧ S entry.2 entry'.2) r.entries s.entries

structure Author.Coupled (a a' : Author) : Prop where
  id_eq : a.id = a'.id
  span : R a.span a'.span

structure Branch.Coupled (b b' : Branch) : Prop where
  id_eq : b.id = b'.id
  block_eq : b.block = b'.block
  span : R b.span b'.span

structure Scene.Coupled (s s' : Scene) : Prop where
  id_eq : s.id = s'.id
  span : R s.span s'.span
  authors : s.authors.Coupled (Author.Coupled R) s'.authors
  branches : s.branches.Coupled (Branch.Coupled R) s'.branches

structure Document.Coupled (document document' : Document) : Prop where
  scenes : List.Forall₂ (Scene.Coupled R) document.scenes document'.scenes
  authors : List.Forall₂ (Author.Coupled R) document.authors document'.authors

/-- The scenes and authors of one document, and behind them those of another. -/
def Document.append (document more : Document) : Document :=
  ⟨document.scenes ++ more.scenes, document.authors ++ more.authors⟩

/-- The second document holds what the first one does, behind the scenes and authors of `before`. -/
def Document.CoupledBehind (before document document' : Document) : Prop :=
  ∃ own, document.Coupled R own ∧ document' = before.append own

end Data

variable {R : Span → Span → Prop}

namespace Registry

variable {α β : Type} {S : α → β → Prop}

theorem coupled_empty : (empty : Registry α).Coupled S (empty : Registry β) :=
  .nil

theorem Coupled.find? {r : Registry α} {s : Registry β} (h : r.Coupled S s) (key : String) :
    Option.Rel S (r.find? key) (s.find? key) := by
  obtain ⟨entries, hr⟩ := r
  obtain ⟨entries', hs⟩ := s
  change List.Forall₂ _ entries entries' at h
  change Option.Rel S (lookupIn key entries) (lookupIn key entries')
  clear hr hs
  induction h with
  | nil => exact .none
  | @cons entry entry' rest rest' hentry _ ih =>
    obtain ⟨k, a⟩ := entry
    obtain ⟨k', b⟩ := entry'
    obtain ⟨rfl, hab⟩ := hentry
    by_cases hk : k = key
    · simp only [lookupIn, if_pos hk]
      exact .some hab
    · simp only [lookupIn, if_neg hk]
      exact ih

theorem Coupled.map_find?_eq {γ : Type} {f : α → γ} {g : β → γ} {r : Registry α} {s : Registry β}
    (h : r.Coupled S s) (hfg : ∀ a b, S a b → f a = g b) (key : String) :
    (r.find? key).map f = (s.find? key).map g := by
  have hfind : Option.Rel S (r.find? key) (s.find? key) := h.find? key
  generalize r.find? key = found at hfind ⊢
  generalize s.find? key = found' at hfind ⊢
  cases hfind with
  | none => rfl
  | some hab => exact congrArg some (hfg _ _ hab)

theorem coupled_putIn {key : String} {a : α} {b : β} (hab : S a b) {entries : List (String × α)}
    {entries' : List (String × β)}
    (h : List.Forall₂ (fun entry entry' => entry.1 = entry'.1 ∧ S entry.2 entry'.2) entries
      entries') :
    List.Forall₂ (fun entry entry' => entry.1 = entry'.1 ∧ S entry.2 entry'.2)
      (putIn key a entries) (putIn key b entries') := by
  induction h with
  | nil => exact .cons ⟨rfl, hab⟩ .nil
  | @cons entry entry' rest rest' hentry hrest ih =>
    obtain ⟨k, a'⟩ := entry
    obtain ⟨k', b'⟩ := entry'
    obtain ⟨rfl, hab'⟩ := hentry
    by_cases hk : k = key
    · simp only [putIn, if_pos hk]
      exact .cons ⟨rfl, hab⟩ hrest
    · simp only [putIn, if_neg hk]
      exact .cons ⟨rfl, hab'⟩ ih

theorem Coupled.put {r : Registry α} {s : Registry β} (h : r.Coupled S s) {a : α} {b : β}
    (hab : S a b) (key : String) : (r.put key a).Coupled S (s.put key b) :=
  coupled_putIn hab h

end Registry

theorem Branch.coupled_ofSpan {span span' : Span} (id : String) (h : R span span') :
    (ofSpan id span).Coupled R (ofSpan id span') :=
  ⟨rfl, rfl, h⟩

namespace Scene

variable {s s' : Scene}

theorem Coupled.addAuthor (h : s.Coupled R s') {a a' : Author} (ha : a.Coupled R a') :
    (s.addAuthor a).2.Coupled R (s'.addAuthor a').2 := by
  have hfind : Option.Rel (Author.Coupled R) (s.author? a.id) (s'.author? a'.id) := by
    rw [← ha.id_eq]
    exact h.authors.find? a.id
  unfold Scene.addAuthor
  generalize s.author? a.id = found at hfind ⊢
  generalize s'.author? a'.id = found' at hfind ⊢
  cases hfind with
  | some _ => exact h
  | none =>
    refine ⟨h.id_eq, h.span, ?_, h.branches⟩
    rw [← ha.id_eq]
    exact h.authors.put ha a.id

theorem Coupled.addAuthors (h : s.Coupled R s') {authors authors' : List Author}
    (ha : List.Forall₂ (Author.Coupled R) authors authors') :
    (s.addAuthors authors).Coupled R (s'.addAuthors authors') := by
  induction ha generalizing s s' with
  | nil => exact h
  | cons ha _ ih => exact ih (h.addAuthor ha)

theorem Coupled.sense_eq (h : s.Coupled R s') : s.sense = s'.sense := by
  have hauthor : ∀ id, (s.author? id).map Author.id = (s'.author? id).map Author.id :=
    fun id => h.authors.map_find?_eq (fun _ _ ha => ha.id_eq) id
  have hbranch : ∀ id, (s.branch? id).map Branch.sense = (s'.branch? id).map Branch.sense :=
    fun id => h.branches.map_find?_eq (fun _ _ hb => Prod.ext hb.id_eq hb.block_eq) id
  simp only [sense, h.id_eq, hauthor, hbranch]

end Scene

namespace Document

theorem coupledBehind_empty (before : Document) : CoupledBehind R before empty before :=
  ⟨empty, ⟨.nil, .nil⟩, by simp [append, empty]⟩

variable {before document document' : Document}

theorem CoupledBehind.addScene (h : CoupledBehind R before document document') {s s' : Scene}
    (hs : s.Coupled R s') :
    CoupledBehind R before { document with scenes := document.scenes ++ [s] }
      { document' with scenes := document'.scenes ++ [s'] } := by
  obtain ⟨own, hown, rfl⟩ := h
  refine ⟨{ own with scenes := own.scenes ++ [s'] }, ⟨?_, hown.authors⟩, by simp [append]⟩
  exact List.rel_append hown.scenes (.cons hs .nil)

theorem CoupledBehind.addAuthor (h : CoupledBehind R before document document') {a a' : Author}
    (ha : a.Coupled R a') :
    CoupledBehind R before { document with authors := document.authors ++ [a] }
      { document' with authors := document'.authors ++ [a'] } := by
  obtain ⟨own, hown, rfl⟩ := h
  refine ⟨{ own with authors := own.authors ++ [a'] }, ⟨hown.scenes, ?_⟩, by simp [append]⟩
  exact List.rel_append hown.authors (.cons ha .nil)

theorem Coupled.broadcast (h : document.Coupled R document') :
    document.broadcast.Coupled R document'.broadcast := by
  refine ⟨?_, h.authors⟩
  simp only [Document.broadcast, List.forall₂_map_left_iff, List.forall₂_map_right_iff]
  exact h.scenes.imp fun _ _ hs => hs.addAuthors h.authors

/-- A document behind none at all is coupled as it is. -/
theorem CoupledBehind.coupled (h : CoupledBehind R empty document document') :
    document.Coupled R document' := by
  obtain ⟨own, hown, rfl⟩ := h
  exact hown

theorem Coupled.sense_eq (h : document.Coupled R document') : document.sense = document'.sense := by
  have hscenes : document.scenes.map Scene.sense = document'.scenes.map Scene.sense :=
    map_eq_map_of_forall₂ (fun _ _ hs => hs.sense_eq) h.scenes
  have hauthors : document.authors.map Author.id = document'.authors.map Author.id :=
    map_eq_map_of_forall₂ (fun _ _ ha => ha.id_eq) h.authors
  rw [sense, sense, hscenes, hauthors]

end Document
end Scenario
