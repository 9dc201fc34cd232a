import Mathlib.Data.List.Forall2
import Scenario.Proofs.Lexing.Slices
import Scenario.Proofs.Sources

/-!
# Declarations are local

The span of a declaration reaches exactly from its keyword to the brace that ends it, and what is
read between the two depends on nothing else. So the slice that a declaration of a document covers
can be parsed alone, and gives the same declaration with the same warnings.
-/

namespace Scenario

/-- The span of an author ends with its last token. -/
theorem AuthorForm.exists_last {d : Dialect} {inScene : Bool} {keyword : Token}
    {text : List Token} {a : Author} {branches : List Branch}
    (h : AuthorForm d inScene (keyword :: text) a branches) :
    ∃ init right, text = init ++ [right] ∧ keyword.span.union right.span = .ok a.span := by
  generalize hwhole : keyword :: text = whole at h
  obtain @⟨keyword, name, right, opening, content, _, span, -, -, -, -, -, hu⟩ := h
  cases hwhole
  exact ⟨name :: (opening ++ content), right, by simp, hu⟩

/-- The span of a scene ends with its last token. -/
theorem SceneForm.exists_last {d : Dialect} {keyword : Token} {text : List Token} {s : Scene}
    (h : SceneForm d (keyword :: text) s) :
    ∃ init right, text = init ++ [right] ∧ keyword.span.union right.span = .ok s.span := by
  generalize hwhole : keyword :: text = whole at h
  obtain @⟨keyword, name, left, right, content, authors, branches, span, -, -, -, -, -, hu⟩ := h
  cases hwhole
  refine ⟨name :: left :: content, right, by simp, ?_⟩
  rw [(Scene.holds_ofDeclarations name.value span authors branches).span_eq, hu]

/-- Reading an author outside of scenes raises no issue. -/
theorem LoneAuthor.issues_eq_nil_of_reads {d : Dialect} {a : LoneAuthor} {text : List Token}
    {is : List Issue} {turn : Turn LoneAuthor Author} (h : Reads (step d) a text is turn) :
    is = [] := by
  induction h with
  | nil => rfl
  | done hs => exact (settle_eq_ok_iff.1 hs).1
  | more hs _ ih => rw [(settle_eq_ok_iff.1 hs).1, ih, List.append_nil]

/-- The scene is read, with the issues, from tokens that stand somewhere in the text. -/
def HoldsScene (d : Dialect) (text : List Token) (s : Scene) (issues : List Issue) : Prop :=
  ∃ keyword inner, keyword :: inner <:+: text ∧ keyword.kind = .keyword .scene ∧
    Reads (OpenScene.step d) (.opened keyword.span) inner issues (.done s)

/-- The author is read from tokens that stand somewhere in the text. -/
def HoldsAuthor (d : Dialect) (text : List Token) (a : Author) : Prop :=
  ∃ keyword inner, keyword :: inner <:+: text ∧ keyword.kind = .keyword .author ∧
    Reads (LoneAuthor.step d) (.start keyword.span) inner [] (.done a)

section Parts

variable {d : Dialect} {part text : List Token}

theorem HoldsScene.mono {s : Scene} {issues : List Issue} (h : HoldsScene d part s issues)
    (hpart : part <:+: text) : HoldsScene d text s issues := by
  obtain ⟨keyword, inner, hwithin, h⟩ := h
  exact ⟨keyword, inner, hwithin.trans hpart, h⟩

theorem HoldsAuthor.mono {a : Author} (h : HoldsAuthor d part a) (hpart : part <:+: text) :
    HoldsAuthor d text a := by
  obtain ⟨keyword, inner, hwithin, h⟩ := h
  exact ⟨keyword, inner, hwithin.trans hpart, h⟩

/-- The parts of a document stand one after the other, each with its own issues. -/
theorem DocumentReads.exists_parts {issues : List Issue} {scenes : List Scene}
    {authors : List Author} (h : DocumentReads d text issues scenes authors) :
    (∃ parts : List (Scene × List Issue), scenes = parts.map Prod.fst ∧
      issues = parts.flatMap Prod.snd ∧ ∀ part ∈ parts, HoldsScene d text part.1 part.2) ∧
    ∀ a ∈ authors, HoldsAuthor d text a := by
  induction h with
  | nil => exact ⟨⟨[], rfl, rfl, by simp⟩, by simp⟩
  | @scene keyword text rest is js s scenes authors hk hr _ ih =>
    obtain ⟨⟨parts, rfl, rfl, hparts⟩, hauthors⟩ := ih
    have hfirst : keyword :: text <:+: keyword :: (text ++ rest) := ⟨[], rest, by simp⟩
    have hrest : rest <:+: keyword :: (text ++ rest) := ⟨keyword :: text, [], by simp⟩
    refine ⟨⟨(s, is) :: parts, rfl, rfl, List.forall_mem_cons.2 ⟨?_, ?_⟩⟩, ?_⟩
    · exact ⟨keyword, text, hfirst, hk, hr⟩
    · intro part hpart
      exact (hparts part hpart).mono hrest
    · intro a ha
      exact (hauthors a ha).mono hrest
  | @author keyword text rest is js a scenes authors hk hr _ ih =>
    obtain ⟨⟨parts, rfl, rfl, hparts⟩, hauthors⟩ := ih
    obtain rfl := LoneAuthor.issues_eq_nil_of_reads hr
    have hfirst : keyword :: text <:+: keyword :: (text ++ rest) := ⟨[], rest, by simp⟩
    have hrest : rest <:+: keyword :: (text ++ rest) := ⟨keyword :: text, [], by simp⟩
    refine ⟨⟨parts, rfl, rfl, ?_⟩, List.forall_mem_cons.2 ⟨?_, ?_⟩⟩
    · intro part hpart
      exact (hparts part hpart).mono hrest
    · exact ⟨keyword, text, hfirst, hk, hr⟩
    · intro b hb
      exact (hauthors b hb).mono hrest

end Parts

section Slices

variable {base : Nat} {source : List Char} {tiles : List Tile} {d : Dialect} {tokens : List Token}

/-- The slice of a declaration among the tokens of a source has the tokens of the declaration. -/
theorem Tiling.exists_slice_of_inner (h : Tiling base source tiles)
    (hf : base + byteLength source ≤ positionLimit)
    (hi : Tile.items d.collapseStringWhitespace false tiles = tokens.map .token)
    {keyword : Token} {inner : List Token} (hwithin : keyword :: inner <:+: tokens)
    {init : List Token} {right : Token} {span : Span} (hinner : inner = init ++ [right])
    (hu : keyword.span.union right.span = .ok span) :
    ∃ slice sub, span.slice? source base = some slice ∧ Tiling span.base slice sub ∧
      Tile.items d.collapseStringWhitespace false sub = (keyword :: inner).map .token ∧
      span.base + byteLength slice ≤ positionLimit := by
  obtain ⟨before, after, rfl⟩ := hwithin
  subst hinner
  have hitems : Tile.items d.collapseStringWhitespace false tiles =
      before.map .token ++ .token keyword :: (init.map .token ++ .token right ::
        after.map .token) := by
    rw [hi]
    simp
  obtain ⟨slice, sub, hs, ht, hsub, hle⟩ := h.exists_slice_of_items hf hitems hu
  exact ⟨slice, sub, hs, ht, by simpa using hsub, Nat.le_trans hle hf⟩

theorem Tiling.exists_scene_slice (h : Tiling base source tiles)
    (hf : base + byteLength source ≤ positionLimit)
    (hi : Tile.items d.collapseStringWhitespace false tiles = tokens.map .token)
    {issues : List Issue} {scene : Scene} (hscene : HoldsScene d tokens scene issues) :
    ∃ slice, scene.span.slice? source base = some slice ∧
      Target.scene.parse d .whole (String.ofList slice) scene.span.base =
        .ok (.ok ⟨scene, issues.map Issue.diagnostic⟩) := by
  obtain ⟨keyword, inner, hwithin, hk, hr⟩ := hscene
  obtain ⟨init, right, hinner, hu⟩ := (OpenScene.form_of_reads hk hr).exists_last
  obtain ⟨slice, sub, hs, ht, hsub, hle⟩ := h.exists_slice_of_inner hf hi hwithin hinner hu
  rw [← @String.toList_ofList slice] at ht hle
  exact ⟨slice, hs, Target.parse_scene_of_reads ht hle hsub hk hr⟩

theorem Tiling.exists_author_slice (h : Tiling base source tiles)
    (hf : base + byteLength source ≤ positionLimit)
    (hi : Tile.items d.collapseStringWhitespace false tiles = tokens.map .token)
    {author : Author} (hauthor : HoldsAuthor d tokens author) :
    ∃ slice, author.span.slice? source base = some slice ∧
      Target.author.parse d .whole (String.ofList slice) author.span.base =
        .ok (.ok ⟨author, []⟩) := by
  obtain ⟨keyword, inner, hwithin, hk, hr⟩ := hauthor
  obtain ⟨init, right, hinner, hu⟩ := (LoneAuthor.form_of_reads hk hr).exists_last
  obtain ⟨slice, sub, hs, ht, hsub, hle⟩ := h.exists_slice_of_inner hf hi hwithin hinner hu
  rw [← @String.toList_ofList slice] at ht hle
  exact ⟨slice, hs, Target.parse_author_of_reads ht hle hsub hk hr⟩

end Slices

namespace Target

/-- The slices that the scenes and authors of a document cover can be parsed alone. This gives the
authors back, and the scenes as they were before the authors were broadcast. The warnings of the
document are those of its scenes. -/
theorem parse_document_local {d : Dialect} {extent : Extent} {source : String} {base : Nat}
    {document : Document} {warnings : List Diagnostic}
    (hf : base + byteLength source.toList ≤ positionLimit)
    (h : Target.document.parse d extent source base = .ok (.ok ⟨document, warnings⟩)) :
    (∃ parts : List (Parsed Scene),
      List.Forall₂ (fun scene part => ∃ slice, scene.span.slice? source.toList base = some slice ∧
        Target.scene.parse d .whole (String.ofList slice) scene.span.base = .ok (.ok part) ∧
        part.value.addAuthors document.authors = scene) document.scenes parts ∧
      warnings = parts.flatMap Parsed.warnings) ∧
    ∀ author ∈ document.authors, ∃ slice,
      author.span.slice? source.toList base = some slice ∧
      Target.author.parse d .whole (String.ofList slice) author.span.base =
        .ok (.ok ⟨author, []⟩) := by
  obtain ⟨tiles, ht⟩ := exists_tiling base source.toList
  obtain ⟨tokens, issues, scenes, authors, hi, hd, rfl, rfl⟩ := (parse_document_iff ht hf).1 h
  obtain ⟨⟨parts, rfl, rfl, hparts⟩, hauthors⟩ := hd.exists_parts
  constructor
  · refine ⟨parts.map fun part => ⟨part.1, part.2.map Issue.diagnostic⟩, ?_, ?_⟩
    · simp only [Document.broadcast, List.forall₂_map_left_iff, List.forall₂_map_right_iff,
        List.forall₂_same]
      intro part hpart
      obtain ⟨slice, hs, hp⟩ := ht.exists_scene_slice hf hi (hparts part hpart)
      have hspan : (part.1.addAuthors authors).span = part.1.span := by
        rw [Scene.addAuthors_eq]
      rw [hspan]
      exact ⟨slice, hs, hp, trivial⟩
    · rw [List.map_flatMap, List.flatMap_map]
  · intro author hmem
    exact ht.exists_author_slice hf hi (hauthors author hmem)

/-- A document with an author and a scene, at position 7. -/
theorem parse_document_local_author :
    7 + byteLength "author a \x7b \x7d scene s \x7b \x7d".toList ≤ positionLimit ∧
    ∃ slice, (⟨7, 12⟩ : Span).slice? "author a \x7b \x7d scene s \x7b \x7d".toList 7 = some slice ∧
      Target.author.parse .strict .whole (String.ofList slice) 7 =
        .ok (.ok ⟨⟨"a", ⟨7, 12⟩⟩, []⟩) := by
  have hf : 7 + byteLength "author a \x7b \x7d scene s \x7b \x7d".toList ≤ positionLimit := by
    decide
  have h : Target.document.parse .strict .whole "author a \x7b \x7d scene s \x7b \x7d" 7 =
      .ok (.ok ⟨⟨[⟨"s", ⟨20, 11⟩, Registry.empty.put "a" ⟨"a", ⟨7, 12⟩⟩, .empty⟩],
        [⟨"a", ⟨7, 12⟩⟩]⟩, []⟩) := by with_unfolding_all rfl
  exact ⟨hf, (parse_document_local hf h).2 ⟨"a", ⟨7, 12⟩⟩ List.mem_cons_self⟩

end Target
end Scenario
