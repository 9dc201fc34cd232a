import Scenario.Proofs.Equality
import Scenario.Proofs.Nesting.Forms
import Scenario.Proofs.Sources

/-!
# Spans nest

The spans in a document that is parsed from a source are properly nested, although a scene does not
hold all that is declared in it: an author that comes after another one with its id is dropped, a
branch is replaced by a later one with its id, and authors are broadcast to it from outside.

Main statement: `Target.parse_document_nested`.
-/

namespace Scenario

instance (s t : Span) : Decidable (s.StrictlyIn t) := inferInstanceAs (Decidable (_ ∧ _))

section Nested

variable (source : List Char) (base : Nat)

/-- The authors of the scene that stand inside its span. These are the ones that are declared in it,
since an author outside of scenes shares no text with a scene. -/
def Scene.ownAuthors (s : Scene) : List Author :=
  s.authors.values.filter fun a => a.span.StrictlyIn s.span

/-- The spans in the scene are properly nested. `outside` are the authors that are declared outside
of scenes. -/
structure Scene.Nested (outside : List Author) (s : Scene) : Prop where
  declares : s.span.Declares source base .scene
  author_declares : ∀ a ∈ s.authors.values, a.span.Declares source base .author
  branch_declares : ∀ b ∈ s.branches.values, b.span.Declares source base .branch
  /-- An author is declared in the scene, or it is the first one outside with its id. -/
  author_place : ∀ a ∈ s.authors.values,
    a.span.StrictlyIn s.span ∨ outside.find? (·.id = a.id) = some a
  authors_disjoint : s.ownAuthors.Pairwise fun a b => a.span.Disjoint b.span
  branch_strictlyIn : ∀ b ∈ s.branches.values, b.span.StrictlyIn s.span
  branches_disjoint : s.branches.values.Pairwise fun b c => b.span.Disjoint c.span
  /-- A branch is declared beside an author of the scene, or inside it. -/
  branch_place : ∀ a ∈ s.ownAuthors, ∀ b ∈ s.branches.values,
    a.span.Disjoint b.span ∨ b.span.StrictlyIn a.span

/-- The spans in the document are properly nested. -/
structure Document.Nested (document : Document) : Prop where
  scenes_ordered : document.scenes.Pairwise fun s t => s.span.Before t.span
  authors_ordered : document.authors.Pairwise fun a b => a.span.Before b.span
  disjoint : ∀ s ∈ document.scenes, ∀ a ∈ document.authors, s.span.Disjoint a.span
  author_declares : ∀ a ∈ document.authors, a.span.Declares source base .author
  scene_nested : ∀ s ∈ document.scenes, s.Nested source base document.authors

end Nested

namespace Scene

variable {source : List Char} {base lo hi : Nat} {s : Scene} {id : String} {span : Span}
  {authors outside : List Author} {branches : List Branch}

/-- An author of a scene that authors are broadcast to is one of its own, or the first of those that
are broadcast with its id. -/
theorem Holds.author_cases (h : s.Holds id span (authors ++ outside) branches) {a : Author}
    (ha : a ∈ s.authors.values) : a ∈ authors ∨ outside.find? (·.id = a.id) = some a := by
  obtain ⟨x, hx⟩ := Registry.mem_values_iff.1 ha
  obtain ⟨-, rfl⟩ := h.of_author? hx
  have hfind : (authors ++ outside).find? (·.id = a.id) = some a :=
    (h.author?_eq a.id).symm.trans hx
  rw [List.find?_append] at hfind
  rcases Option.or_eq_some_iff.1 hfind with hown | ⟨-, houtside⟩
  · exact .inl (List.mem_of_find?_eq_some hown)
  · exact .inr houtside

/-- A scene that is declared in the source is properly nested once the authors from outside are
broadcast to it. -/
theorem IsDeclared.nested (h : s.IsDeclared source base)
    (houtside : AuthorRow source base lo hi outside)
    (hdisjoint : ∀ a ∈ outside, s.span.Disjoint a.span) :
    (s.addAuthors outside).Nested source base outside := by
  obtain ⟨hdeclares, authors, branches, hs, hparts⟩ := h
  have hholds := hs.addAuthors outside
  -- An author that stands inside the scene is not one of those from outside.
  have hown : ∀ a ∈ (s.addAuthors outside).ownAuthors, a ∈ authors := by
    intro a ha
    obtain ⟨hmem, hin⟩ := List.mem_filter.1 ha
    rcases hholds.author_cases hmem with hmem | hfind
    · exact hmem
    · have hin' : a.span.StrictlyIn s.span := by simpa using hin
      have hapart := hdisjoint a (List.mem_of_find?_eq_some hfind)
      exact absurd hin' hapart.symm.not_strictlyIn
  have hbranch : ∀ b ∈ (s.addAuthors outside).branches.values, b ∈ branches := by
    intro b hb
    obtain ⟨x, hx⟩ := Registry.mem_values_iff.1 hb
    exact (hholds.of_branch? hx).1
  constructor
  case declares =>
    rwa [span_addAuthors]
  case author_declares =>
    intro a ha
    rcases hholds.author_cases ha with hmem | hfind
    · exact (Row.of_mem hparts.authors_row hmem).2.2.2
    · exact (Row.of_mem houtside (List.mem_of_find?_eq_some hfind)).2.2.2
  case branch_declares =>
    intro b hb
    exact (Row.of_mem hparts.branches_row (hbranch b hb)).2.2.2
  case author_place =>
    intro a ha
    rcases hholds.author_cases ha with hmem | hfind
    · rw [span_addAuthors]
      exact .inl (Row.strictlyIn_of_mem hparts.authors_row hmem)
    · exact .inr hfind
  case authors_disjoint =>
    have hnodup : (s.addAuthors outside).authors.values.Nodup :=
      Registry.nodup_values fun _ _ hx => (hholds.of_author? hx).2
    exact Row.pairwise_disjoint hparts.authors_row (hnodup.filter _) hown
  case branch_strictlyIn =>
    intro b hb
    rw [span_addAuthors]
    exact Row.strictlyIn_of_mem hparts.branches_row (hbranch b hb)
  case branches_disjoint =>
    have hnodup : (s.addAuthors outside).branches.values.Nodup :=
      Registry.nodup_values fun _ _ hx => (hholds.of_branch? hx).2
    exact Row.pairwise_disjoint hparts.branches_row hnodup hbranch
  case branch_place =>
    intro a ha b hb
    exact hparts.branch_place a (hown a ha) b (hbranch b hb)

end Scene

/-- A document that is made of declared scenes and authors is properly nested. -/
theorem DocumentContent.nested {d : Dialect} {collapse : Bool} {source : List Char}
    {base lo hi : Nat} {text : List Token} {scenes : List Scene} {authors : List Author}
    (h : DocumentContent d text scenes authors) (ht : TokenRow collapse source base lo hi text) :
    (Document.broadcast ⟨scenes, authors⟩).Nested source base := by
  obtain ⟨hscenes, hauthors, hdisjoint⟩ := h.rows ht
  constructor
  case scenes_ordered =>
    simpa [Document.broadcast, List.pairwise_map] using Row.pairwise hscenes
  case authors_ordered => exact Row.pairwise hauthors
  case disjoint =>
    simpa [Document.broadcast] using hdisjoint
  case author_declares =>
    intro a ha
    exact (Row.of_mem hauthors ha).2.2.2
  case scene_nested =>
    intro s hs
    obtain ⟨s, hmem, rfl⟩ := List.mem_map.1 hs
    exact ((Row.of_mem hscenes hmem).2.2.2).nested hauthors (hdisjoint s hmem)

namespace Target

/-- The spans in a document that is parsed from a source are properly nested, in every dialect. -/
theorem parse_document_nested {d : Dialect} {extent : Extent} {source : String} {base : Nat}
    {document : Document} {warnings : List Diagnostic}
    (hf : base + byteLength source.toList ≤ positionLimit)
    (h : Target.document.parse d extent source base = .ok (.ok ⟨document, warnings⟩)) :
    document.Nested source.toList base := by
  obtain ⟨tiles, ht⟩ := exists_tiling base source.toList
  obtain ⟨tokens, issues, scenes, authors, hi, hd, rfl, -⟩ := (parse_document_iff ht hf).1 h
  exact (documentContent_of_reads hd).nested (ht.tokenRow hi)

/-- A scene, at position 7, with an author from outside, and an author with a branch in it. -/
theorem parse_document_nested_scene :
    let source := "author a \x7b \x7d scene s \x7b author b \x7b branch c \x7b \x7d \x7d \x7d"
    let scene : Scene := ⟨"s", ⟨20, 37⟩,
      (Registry.empty.put "b" ⟨"b", ⟨30, 25⟩⟩).put "a" ⟨"a", ⟨7, 12⟩⟩,
      Registry.empty.put "c" (.ofSpan "c" ⟨41, 12⟩)⟩
    7 + byteLength source.toList ≤ positionLimit ∧
    Document.Nested source.toList 7 ⟨[scene], [⟨"a", ⟨7, 12⟩⟩]⟩ := by
  intro source scene
  have hf : 7 + byteLength source.toList ≤ positionLimit := by decide
  have hitems : (Lexer.ofString source 7 .strict).items =
      [.token ⟨.keyword .author, "author", ⟨7, 6⟩⟩, .token ⟨.ident, "a", ⟨14, 1⟩⟩,
        .token ⟨.openBrace, "\x7b", ⟨16, 1⟩⟩, .token ⟨.closeBrace, "\x7d", ⟨18, 1⟩⟩,
        .token ⟨.keyword .scene, "scene", ⟨20, 5⟩⟩, .token ⟨.ident, "s", ⟨26, 1⟩⟩,
        .token ⟨.openBrace, "\x7b", ⟨28, 1⟩⟩,
        .token ⟨.keyword .author, "author", ⟨30, 6⟩⟩, .token ⟨.ident, "b", ⟨37, 1⟩⟩,
        .token ⟨.openBrace, "\x7b", ⟨39, 1⟩⟩,
        .token ⟨.keyword .branch, "branch", ⟨41, 6⟩⟩, .token ⟨.ident, "c", ⟨48, 1⟩⟩,
        .token ⟨.openBrace, "\x7b", ⟨50, 1⟩⟩, .token ⟨.closeBrace, "\x7d", ⟨52, 1⟩⟩,
        .token ⟨.closeBrace, "\x7d", ⟨54, 1⟩⟩, .token ⟨.closeBrace, "\x7d", ⟨56, 1⟩⟩] := by
    decide +kernel
  have h : Target.document.parse .strict .whole source 7 =
      .ok (.ok ⟨⟨[scene], [⟨"a", ⟨7, 12⟩⟩]⟩, []⟩) := by
    rw [parse_eq_ok_iff hf, hitems]
    exact ⟨[], rfl, rfl⟩
  exact ⟨hf, parse_document_nested hf h⟩

end Target
end Scenario
