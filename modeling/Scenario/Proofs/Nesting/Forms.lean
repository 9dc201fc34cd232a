import Scenario.Proofs.Holdings
import Scenario.Proofs.Nesting.Spans

/-!
# Declarations inside declarations

The rules of the grammar cut a row of tokens into parts, so the declarations that are derived from
it are rows as well: the branches of an author stand strictly inside its span, and the authors and
branches of a scene strictly inside the span of the scene. There is one lemma for each rule of the
grammar that has declarations in it.
-/

namespace Scenario

section Rows

variable (source : List Char) (base : Nat)

/-- Branches that are declared in the source one after the other. -/
def BranchRow : Nat → Nat → List Branch → Prop :=
  Row Branch.span fun b => b.span.Declares source base .branch

/-- Authors that are declared in the source one after the other. -/
def AuthorRow : Nat → Nat → List Author → Prop :=
  Row Author.span fun a => a.span.Declares source base .author

/-- The authors and branches that are declared in one place, from `lo` to `hi`. A branch is declared
beside an author or inside it. -/
structure Parts (lo hi : Nat) (authors : List Author) (branches : List Branch) : Prop where
  authors_row : AuthorRow source base lo hi authors
  branches_row : BranchRow source base lo hi branches
  branch_place : ∀ a ∈ authors, ∀ b ∈ branches,
    a.span.Disjoint b.span ∨ b.span.StrictlyIn a.span

/-- The scene is declared in the source and holds what is declared strictly inside its span. -/
def Scene.IsDeclared (s : Scene) : Prop :=
  s.span.Declares source base .scene ∧ ∃ authors branches,
    s.Holds s.id s.span authors branches ∧
      Parts source base (s.span.base + 1) (s.span.base + s.span.len - 1) authors branches

/-- Scenes that are declared in the source one after the other. -/
def SceneRow : Nat → Nat → List Scene → Prop :=
  Row Scene.span (Scene.IsDeclared source base)

end Rows

section Forms

variable {d : Dialect} {collapse : Bool} {source : List Char} {base lo hi : Nat}
  {text : List Token}

theorem BranchForm.row {b : Branch} (h : BranchForm d text b)
    (ht : TokenRow collapse source base lo hi text) : BranchRow source base lo hi [b] := by
  obtain @⟨keyword, name, right, opening, content, span, hk, -, hr, -, -, hu⟩ := h
  have htext : keyword :: name :: (opening ++ (content ++ [right])) =
      keyword :: ((name :: (opening ++ content)) ++ [right]) := by simp
  rw [htext] at ht
  exact (ht.declaration hk hr hu).1

theorem AuthorContent.row {inScene : Bool} {branches : List Branch}
    (h : AuthorContent d inScene text branches) (ht : TokenRow collapse source base lo hi text) :
    BranchRow source base lo hi branches := by
  induction h generalizing lo with
  | nil => exact ht
  | token _ _ _ ih => exact ih (Row.tail ht)
  | @group left right inner rest branches _ _ _ _ _ ih =>
    have htext : left :: (inner ++ right :: rest) = (left :: (inner ++ [right])) ++ rest := by simp
    rw [htext] at ht
    exact ih (Row.of_append_right ht)
  | branch _ hb _ ih =>
    obtain ⟨mid, hfirst, hrest⟩ := Row.append_iff.1 ht
    exact Row.append (hb.row hfirst) (ih hrest)

/-- The branches that are declared in an author stand strictly inside its span. -/
theorem AuthorForm.row {inScene : Bool} {a : Author} {branches : List Branch}
    (h : AuthorForm d inScene text a branches) (ht : TokenRow collapse source base lo hi text) :
    AuthorRow source base lo hi [a] ∧
      BranchRow source base (a.span.base + 1) (a.span.base + a.span.len - 1) branches := by
  obtain @⟨keyword, name, right, opening, content, branches, span, hk, -, hr, -, hc, hu⟩ := h
  have htext : keyword :: name :: (opening ++ (content ++ [right])) =
      keyword :: ((name :: (opening ++ content)) ++ [right]) := by simp
  rw [htext] at ht
  obtain ⟨hrow, hinner⟩ := ht.declaration hk hr hu
  rw [← List.cons_append] at hinner
  exact ⟨hrow, hc.row (Row.of_append_right hinner)⟩

/-- An author stands in front of what is declared behind it, with its branches in it. -/
theorem Parts.author {mid : Nat} {a : Author} {inner : List Branch} {authors : List Author}
    {branches : List Branch} (ha : AuthorRow source base lo mid [a])
    (hinner : BranchRow source base (a.span.base + 1) (a.span.base + a.span.len - 1) inner)
    (h : Parts source base mid hi authors branches) :
    Parts source base lo hi (a :: authors) (inner ++ branches) := by
  obtain ⟨hlo, hlen, hmid, -⟩ := Row.of_mem ha List.mem_cons_self
  have hinner' : BranchRow source base lo mid inner := Row.mono hinner (by omega) (by omega)
  refine ⟨Row.append ha h.authors_row, Row.append hinner' h.branches_row, ?_⟩
  intro a' ha' b hb
  rcases List.mem_cons.1 ha' with rfl | ha' <;> rcases List.mem_append.1 hb with hb | hb
  · exact .inr (Row.strictlyIn_of_mem hinner hb)
  · exact .inl (.inl (Row.before_of_mem ha h.branches_row List.mem_cons_self hb))
  · exact .inl (.inr (Row.before_of_mem hinner' h.authors_row hb ha'))
  · exact h.branch_place a' ha' b hb

/-- A branch outside of all authors stands in front of what is declared behind it. -/
theorem Parts.branch {mid : Nat} {b : Branch} {authors : List Author} {branches : List Branch}
    (hb : BranchRow source base lo mid [b]) (h : Parts source base mid hi authors branches) :
    Parts source base lo hi authors (b :: branches) := by
  refine ⟨Row.mono h.authors_row (Row.le hb) (Nat.le_refl _), Row.append hb h.branches_row, ?_⟩
  intro a ha b' hb'
  rcases List.mem_cons.1 hb' with rfl | hb'
  · exact .inl (.inr (Row.before_of_mem hb h.authors_row List.mem_cons_self ha))
  · exact h.branch_place a ha b' hb'

theorem SceneContent.parts {authors : List Author} {branches : List Branch}
    (h : SceneContent d text authors branches) (ht : TokenRow collapse source base lo hi text) :
    Parts source base lo hi authors branches := by
  induction h generalizing lo with
  | nil => exact ⟨ht, ht, by simp⟩
  | author ha _ ih =>
    obtain ⟨mid, hfirst, hrest⟩ := Row.append_iff.1 ht
    obtain ⟨hrow, hinner⟩ := ha.row hfirst
    exact .author hrow hinner (ih hrest)
  | branch hb _ ih =>
    obtain ⟨mid, hfirst, hrest⟩ := Row.append_iff.1 ht
    exact .branch (hb.row hfirst) (ih hrest)
  | stray _ _ _ ih => exact ih (Row.tail ht)

theorem SceneForm.row {s : Scene} (h : SceneForm d text s)
    (ht : TokenRow collapse source base lo hi text) : SceneRow source base lo hi [s] := by
  obtain @⟨keyword, name, left, right, content, authors, branches, span, hk, -, -, hr, hc, hu⟩ := h
  have htext : keyword :: name :: left :: (content ++ [right]) =
      keyword :: (([name, left] ++ content) ++ [right]) := by simp
  rw [htext] at ht
  obtain ⟨⟨hlo, hlen, hdecl, hhi⟩, hinner⟩ := ht.declaration hk hr hu
  have hholds := Scene.holds_ofDeclarations name.value span authors branches
  have hparts := hc.parts (Row.of_append_right hinner)
  have hdeclared : (Scene.ofDeclarations name.value span authors branches).IsDeclared source
      base := by
    rw [Scene.IsDeclared, hholds.id_eq, hholds.span_eq]
    exact ⟨hdecl, authors, branches, hholds, hparts⟩
  refine ⟨?_, ?_, hdeclared, ?_⟩
  · rwa [hholds.span_eq]
  · rwa [hholds.span_eq]
  · rwa [hholds.span_eq]

/-- The scenes and the authors of a document are rows, and no scene meets an author. -/
theorem DocumentContent.rows {scenes : List Scene} {authors : List Author}
    (h : DocumentContent d text scenes authors) (ht : TokenRow collapse source base lo hi text) :
    SceneRow source base lo hi scenes ∧ AuthorRow source base lo hi authors ∧
      ∀ s ∈ scenes, ∀ a ∈ authors, s.span.Disjoint a.span := by
  induction h generalizing lo with
  | nil => exact ⟨ht, ht, by simp⟩
  | scene hs _ ih =>
    obtain ⟨mid, hfirst, hrest⟩ := Row.append_iff.1 ht
    have hrow := hs.row hfirst
    obtain ⟨hscenes, hauthors, hdisjoint⟩ := ih hrest
    refine ⟨Row.append hrow hscenes, Row.mono hauthors (Row.le hrow) (Nat.le_refl _),
      List.forall_mem_cons.2 ⟨?_, hdisjoint⟩⟩
    intro a ha
    exact .inl (Row.before_of_mem hrow hauthors List.mem_cons_self ha)
  | author ha _ ih =>
    obtain ⟨mid, hfirst, hrest⟩ := Row.append_iff.1 ht
    have hrow := (AuthorForm.row ha hfirst).1
    obtain ⟨hscenes, hauthors, hdisjoint⟩ := ih hrest
    refine ⟨Row.mono hscenes (Row.le hrow) (Nat.le_refl _), Row.append hrow hauthors, ?_⟩
    intro s hs a ha
    rcases List.mem_cons.1 ha with rfl | ha
    · exact .inr (Row.before_of_mem hrow hscenes List.mem_cons_self hs)
    · exact hdisjoint s hs a ha

end Forms
end Scenario
