import Scenario.Proofs.Equality
import Scenario.Proofs.Holdings
import Scenario.Script.Printer

/-!
# Documents that can be written down

A document can be written down if it is printable and its scenes keep their authors and branches
under their own ids. This depends only on what the document says, so it carries over to equal
documents.

Main statement: whatever is derivable from tokens whose names are identifiers can be written down
(`DocumentContent.writable_broadcast`). No rule of the grammar lets anything else through.
-/

namespace Scenario

/-- The authors and branches of the scene are kept under their own ids. -/
def Scene.Keyed (s : Scene) : Prop :=
  (∀ x a, s.author? x = some a → a.id = x) ∧ ∀ x b, s.branch? x = some b → b.id = x

/-- All scenes keep their authors and branches under their own ids. -/
def Document.Keyed (d : Document) : Prop := ∀ s ∈ d.scenes, s.Keyed

namespace Scene

variable {s : Scene}

theorem keyed_ofSpan (id : String) (span : Span) : (ofSpan id span).Keyed := by
  refine ⟨fun x a h => ?_, fun x b h => ?_⟩
  · exact absurd h (Option.some_ne_none a).symm
  · exact absurd h (Option.some_ne_none b).symm

theorem Keyed.addAuthor (h : s.Keyed) (a : Author) : (s.addAuthor a).2.Keyed := by
  refine ⟨fun x b hx => ?_, fun x b hx => ?_⟩
  · rw [author?_addAuthor, Option.or_eq_some_iff] at hx
    rcases hx with hx | ⟨-, hx⟩
    · exact h.1 x b hx
    · split at hx
      case isTrue hid => exact Option.some.inj hx ▸ hid
      case isFalse => contradiction
  · rw [addAuthor_eq] at hx
    exact h.2 x b hx

theorem Keyed.addBranch (h : s.Keyed) (b : Branch) : (s.addBranch b).2.Keyed := by
  refine ⟨h.1, fun x c hx => ?_⟩
  change (s.branches.put b.id b).find? x = some c at hx
  rw [Registry.find?_put] at hx
  split at hx
  case isTrue hid => exact Option.some.inj hx ▸ hid
  case isFalse => exact h.2 x c hx

/-- Steps do not change the id of the branch that they are added to. -/
theorem Keyed.pushStep (h : s.Keyed) (id : String) (step : Step) : (s.pushStep id step).Keyed := by
  refine ⟨h.1, fun x c hx => ?_⟩
  have hmem := (Registry.find?_eq_some_iff _ x c).1 hx
  obtain ⟨entry, hentry, heq⟩ := List.mem_map.1 hmem
  obtain ⟨hkey, hbranch⟩ := Prod.mk.inj heq
  have hid : entry.2.id = entry.1 :=
    h.2 entry.1 entry.2 ((Registry.find?_eq_some_iff _ _ _).2 hentry)
  rw [← hbranch, ← hkey, ← hid]
  dsimp only
  split <;> rfl

end Scene

/-- The scene is keyed, its ids are identifiers, and its blocks are empty. -/
structure Scene.Writable (s : Scene) : Prop where
  id : IsIdent s.id
  author : ∀ x a, s.author? x = some a → a.id = x ∧ IsIdent a.id
  branch : ∀ x b, s.branch? x = some b → b.id = x ∧ IsIdent b.id ∧ b.block.isEmpty = true

/-- The document is keyed and printable. -/
structure Document.Writable (d : Document) : Prop where
  author : ∀ a ∈ d.authors, IsIdent a.id
  scene : ∀ s ∈ d.scenes, s.Writable
  broadcast : ∀ s ∈ d.scenes, ∀ a ∈ d.authors, (s.author? a.id).isSome = true

section Sense

variable {s t : Scene} {d e : Document}

theorem Scene.author?_of_sense_eq (h : s.sense = t.sense) (x : String) :
    (s.author? x).map Author.id = (t.author? x).map Author.id :=
  congrFun (congrArg (·.2.1) h) x

theorem Scene.branch?_of_sense_eq (h : s.sense = t.sense) (x : String) :
    (s.branch? x).map Branch.sense = (t.branch? x).map Branch.sense :=
  congrFun (congrArg (·.2.2) h) x

theorem Scene.Writable.congr (hs : s.Writable) (h : s.sense = t.sense) : t.Writable where
  id := by
    have hid : s.id = t.id := congrArg (·.1) h
    rw [← hid]
    exact hs.id
  author x a ha := by
    have hx := author?_of_sense_eq h x
    rw [ha, Option.map_some, Option.map_eq_some_iff] at hx
    obtain ⟨b, hb, hab⟩ := hx
    rw [← hab]
    exact hs.author x b hb
  branch x b hb := by
    have hx := branch?_of_sense_eq h x
    rw [hb, Option.map_some, Option.map_eq_some_iff] at hx
    obtain ⟨c, hc, hbc⟩ := hx
    obtain ⟨hid, hblock⟩ := Prod.mk.inj hbc
    rw [← hid, ← hblock]
    exact hs.branch x c hc

theorem Document.Writable.congr (hd : d.Writable) (h : d.sense = e.sense) : e.Writable := by
  obtain ⟨hscenes, hauthors⟩ := Prod.mk.inj h
  have hauthor : ∀ a ∈ e.authors, ∃ b ∈ d.authors, b.id = a.id := by
    intro a ha
    have hmem : a.id ∈ d.authors.map Author.id := by
      rw [hauthors]
      exact List.mem_map_of_mem ha
    exact List.mem_map.1 hmem
  have hscene : ∀ t ∈ e.scenes, ∃ s ∈ d.scenes, s.sense = t.sense := by
    intro t ht
    have hmem : t.sense ∈ d.scenes.map Scene.sense := by
      rw [hscenes]
      exact List.mem_map_of_mem ht
    exact List.mem_map.1 hmem
  refine ⟨fun a ha => ?_, fun t ht => ?_, fun t ht a ha => ?_⟩
  · obtain ⟨b, hb, hba⟩ := hauthor a ha
    rw [← hba]
    exact hd.author b hb
  · obtain ⟨s, hs, hst⟩ := hscene t ht
    exact (hd.scene s hs).congr hst
  · obtain ⟨s, hs, hst⟩ := hscene t ht
    obtain ⟨b, hb, hba⟩ := hauthor a ha
    have hx := congrArg Option.isSome (Scene.author?_of_sense_eq hst b.id)
    simp only [Option.isSome_map] at hx
    rw [← hba, ← hx]
    exact hd.broadcast s hs b hb

end Sense

/-- The scene holds only authors and branches from the lists. -/
theorem Scene.Holds.writable {s : Scene} {id : String} {span : Span} {authors : List Author}
    {branches : List Branch} (h : s.Holds id span authors branches) (hid : IsIdent id)
    (ha : ∀ a ∈ authors, IsIdent a.id)
    (hb : ∀ b ∈ branches, IsIdent b.id ∧ b.block.isEmpty = true) : s.Writable where
  id := by
    rw [h.id_eq]
    exact hid
  author x a hx := by
    obtain ⟨hmem, hkey⟩ := h.of_author? hx
    exact ⟨hkey, ha a hmem⟩
  branch x b hx := by
    obtain ⟨hmem, hkey⟩ := h.of_branch? hx
    exact ⟨hkey, hb b hmem⟩

/-- The names among the tokens are identifiers. -/
def NamesIdents (text : List Token) : Prop := ∀ t ∈ text, t.kind = .ident → IsIdent t.value

section Forms

variable {d : Dialect} {text left right : List Token}

theorem NamesIdents.of_append (h : NamesIdents (left ++ right)) :
    NamesIdents left ∧ NamesIdents right :=
  ⟨fun t ht => h t (List.mem_append_left _ ht), fun t ht => h t (List.mem_append_right _ ht)⟩

theorem NamesIdents.of_cons {t : Token} (h : NamesIdents (t :: text)) : NamesIdents text :=
  fun u hu => h u (List.mem_cons_of_mem _ hu)

theorem BranchForm.isIdent {b : Branch} (h : BranchForm d text b) (ht : NamesIdents text) :
    IsIdent b.id ∧ b.block.isEmpty = true := by
  obtain ⟨-, hn, -, -, -, -⟩ := h
  exact ⟨ht _ (by simp) hn, rfl⟩

theorem AuthorContent.isIdent {inScene : Bool} {branches : List Branch}
    (h : AuthorContent d inScene text branches) (ht : NamesIdents text) :
    ∀ b ∈ branches, IsIdent b.id ∧ b.block.isEmpty = true := by
  induction h with
  | nil => simp
  | token _ _ _ ih => exact ih ht.of_cons
  | group _ _ _ _ _ ih => exact ih ht.of_cons.of_append.2.of_cons
  | branch _ hb _ ih =>
    intro c hc
    rcases List.mem_cons.1 hc with rfl | hc
    · exact hb.isIdent ht.of_append.1
    · exact ih ht.of_append.2 c hc

theorem AuthorForm.isIdent {inScene : Bool} {a : Author} {branches : List Branch}
    (h : AuthorForm d inScene text a branches) (ht : NamesIdents text) :
    IsIdent a.id ∧ ∀ b ∈ branches, IsIdent b.id ∧ b.block.isEmpty = true := by
  obtain ⟨-, hn, -, -, hc, -⟩ := h
  exact ⟨ht _ (by simp) hn, hc.isIdent ht.of_cons.of_cons.of_append.2.of_append.1⟩

theorem SceneContent.isIdent {authors : List Author} {branches : List Branch}
    (h : SceneContent d text authors branches) (ht : NamesIdents text) :
    (∀ a ∈ authors, IsIdent a.id) ∧ ∀ b ∈ branches, IsIdent b.id ∧ b.block.isEmpty = true := by
  induction h with
  | nil => simp
  | author ha _ ih =>
    obtain ⟨hid, hinner⟩ := ha.isIdent ht.of_append.1
    obtain ⟨hauthors, hbranches⟩ := ih ht.of_append.2
    refine ⟨List.forall_mem_cons.2 ⟨hid, hauthors⟩, fun b hb => ?_⟩
    rcases List.mem_append.1 hb with hb | hb
    · exact hinner b hb
    · exact hbranches b hb
  | branch hb _ ih =>
    obtain ⟨hauthors, hbranches⟩ := ih ht.of_append.2
    exact ⟨hauthors, List.forall_mem_cons.2 ⟨hb.isIdent ht.of_append.1, hbranches⟩⟩
  | stray _ _ _ ih => exact ih ht.of_cons

/-- A derivable scene can be written down, and so it can with further authors. -/
theorem SceneForm.writable_addAuthors {s : Scene} (h : SceneForm d text s)
    (ht : NamesIdents text) {authors : List Author} (ha : ∀ a ∈ authors, IsIdent a.id) :
    (s.addAuthors authors).Writable := by
  obtain @⟨_, name, _, _, content, own, branches, span, -, hn, -, -, hc, -⟩ := h
  obtain ⟨hown, hbranches⟩ := hc.isIdent ht.of_cons.of_cons.of_cons.of_append.1
  have hholds := (Scene.holds_ofDeclarations name.value span own branches).addAuthors authors
  refine hholds.writable (ht _ (by simp) hn) (fun a hmem => ?_) hbranches
  rcases List.mem_append.1 hmem with hmem | hmem
  · exact hown a hmem
  · exact ha a hmem

theorem DocumentContent.isIdent {scenes : List Scene} {authors : List Author}
    (h : DocumentContent d text scenes authors) (ht : NamesIdents text) :
    (∀ a ∈ authors, IsIdent a.id) ∧
      ∀ s ∈ scenes, ∀ more : List Author, (∀ a ∈ more, IsIdent a.id) →
        (s.addAuthors more).Writable := by
  induction h with
  | nil => simp
  | scene hs _ ih =>
    obtain ⟨hauthors, hscenes⟩ := ih ht.of_append.2
    refine ⟨hauthors, List.forall_mem_cons.2 ⟨fun more hmore => ?_, hscenes⟩⟩
    exact hs.writable_addAuthors ht.of_append.1 hmore
  | author ha _ ih =>
    obtain ⟨hauthors, hscenes⟩ := ih ht.of_append.2
    exact ⟨List.forall_mem_cons.2 ⟨(ha.isIdent ht.of_append.1).1, hauthors⟩, hscenes⟩

end Forms
end Scenario
