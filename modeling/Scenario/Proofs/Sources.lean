import Scenario.Proofs.Grammar.Acceptance
import Scenario.Proofs.Reports

/-!
# Parsing sources

Parsing a source that fits comes down to its tiles: it succeeds if they all give tokens, apart from
comments, and the machine of the target accepts these tokens. The warnings are those of the machine.
-/

namespace Scenario

section Tokens

variable {base : Nat} {source : List Char} {tiles : List Tile} {collapse : Bool}

/-- The tokens of a source that fits are what machines take steps at, and their spans fit. -/
theorem Tiling.plain_of_mem (h : Tiling base source tiles)
    (hf : base + byteLength source ≤ positionLimit) {t : Token}
    (ht : .token t ∈ Tile.items collapse false tiles) : t.IsPlain ∧ t.span.Fits := by
  obtain ⟨hc, he, -, hle⟩ := h.token_of_mem_items ht
  exact ⟨⟨hc, he⟩, Nat.le_trans hle hf⟩

theorem Tiling.plain_of_items {tokens : List Token} (h : Tiling base source tiles)
    (hf : base + byteLength source ≤ positionLimit)
    (hi : Tile.items collapse false tiles = tokens.map .token) :
    ∀ t ∈ tokens, t.IsPlain ∧ t.span.Fits := by
  intro t ht
  apply h.plain_of_mem hf
  rw [hi]
  exact List.mem_map_of_mem ht

end Tokens

namespace Target

variable {target : Target} {d : Dialect} {base : Nat} {source : String} {tiles : List Tile}

theorem parse_whole_iff_accepts (ht : Tiling base source.toList tiles)
    (hf : base + byteLength source.toList ≤ positionLimit) {value : target.Node}
    {warnings : List Diagnostic} :
    target.parse d .whole source base = .ok (.ok ⟨value, warnings⟩) ↔
      ∃ (tokens : List Token) (issues : List Issue),
        Tile.items d.collapseStringWhitespace false tiles = tokens.map .token ∧
        (target.machine d .whole).Accepts ⟨base, 0⟩ (target.machine d .whole).start
          (tokens.map .token) issues value ∧ warnings = issues.map Issue.diagnostic := by
  have hitems : (Lexer.ofString source base d).items =
      Tile.items d.collapseStringWhitespace false tiles := ht.items_ofText hf d
  have hread := @read_eq_ok_iff d target base
    (Tile.items d.collapseStringWhitespace false tiles)
  rw [parse_eq_ok_iff hf, hitems]
  constructor
  · rintro ⟨issues, hr, rfl⟩
    obtain ⟨tokens, hc, ha⟩ := (hread (by omega) fun t h => (ht.plain_of_mem hf h).2).1 hr
    have hi := Item.eq_map_token_of_contents (fun t h => (ht.plain_of_mem hf h).1) hc
    exact ⟨tokens, issues, hi, ha, rfl⟩
  · rintro ⟨tokens, issues, hi, ha, rfl⟩
    have hc : Item.contents (Tile.items d.collapseStringWhitespace false tiles) = some tokens := by
      rw [hi, Item.contents_map_token fun t h => (ht.plain_of_items hf hi t h).1]
    exact ⟨issues, (hread (by omega) fun t h => (ht.plain_of_mem hf h).2).2 ⟨tokens, hc, ha⟩, rfl⟩

/-- A document is parsed by reading its scenes and authors. -/
theorem parse_document_iff (ht : Tiling base source.toList tiles)
    (hf : base + byteLength source.toList ≤ positionLimit) {document : Document}
    {warnings : List Diagnostic} :
    Target.document.parse d .whole source base = .ok (.ok ⟨document, warnings⟩) ↔
      ∃ (tokens : List Token) (issues : List Issue) (scenes : List Scene) (authors : List Author),
        Tile.items d.collapseStringWhitespace false tiles = tokens.map .token ∧
        DocumentReads d tokens issues scenes authors ∧
        document = Document.broadcast ⟨scenes, authors⟩ ∧
        warnings = issues.map Issue.diagnostic := by
  have hl : (⟨base, 0⟩ : Span).Fits := Nat.le_trans (Nat.le_add_right _ _) hf
  rw [parse_whole_iff_accepts ht hf]
  constructor
  · rintro ⟨tokens, issues, hi, ha, hw⟩
    obtain ⟨scenes, authors, hd, hdoc⟩ :=
      (OpenDocument.accepts_iff hl (ht.plain_of_items hf hi)).1 ha
    exact ⟨tokens, issues, scenes, authors, hi, hd, hdoc, hw⟩
  · rintro ⟨tokens, issues, scenes, authors, hi, hd, hdoc, hw⟩
    exact ⟨tokens, issues, hi,
      (OpenDocument.accepts_iff hl (ht.plain_of_items hf hi)).2 ⟨scenes, authors, hd, hdoc⟩, hw⟩

/-- A scene that is read from the tokens of a source is what parsing the source gives. -/
theorem parse_scene_of_reads (ht : Tiling base source.toList tiles)
    (hf : base + byteLength source.toList ≤ positionLimit) {keyword : Token} {text : List Token}
    {issues : List Issue} {scene : Scene}
    (hi : Tile.items d.collapseStringWhitespace false tiles = (keyword :: text).map .token)
    (hk : keyword.kind = .keyword .scene)
    (hr : Reads (OpenScene.step d) (.opened keyword.span) text issues (.done scene)) :
    Target.scene.parse d .whole source base =
      .ok (.ok ⟨scene, issues.map Issue.diagnostic⟩) := by
  refine (parse_whole_iff_accepts ht hf).2 ⟨_, issues, hi, ?_, rfl⟩
  exact (Sole.accepts_iff (ht.plain_of_items hf hi)).2 ⟨keyword, text, rfl, hk, hr⟩

/-- An author that is read from the tokens of a source is what parsing the source gives. -/
theorem parse_author_of_reads (ht : Tiling base source.toList tiles)
    (hf : base + byteLength source.toList ≤ positionLimit) {keyword : Token} {text : List Token}
    {issues : List Issue} {author : Author}
    (hi : Tile.items d.collapseStringWhitespace false tiles = (keyword :: text).map .token)
    (hk : keyword.kind = .keyword .author)
    (hr : Reads (LoneAuthor.step d) (.start keyword.span) text issues (.done author)) :
    Target.author.parse d .whole source base =
      .ok (.ok ⟨author, issues.map Issue.diagnostic⟩) := by
  refine (parse_whole_iff_accepts ht hf).2 ⟨_, issues, hi, ?_, rfl⟩
  exact (Sole.accepts_iff (ht.plain_of_items hf hi)).2 ⟨keyword, text, rfl, hk, hr⟩

end Target
end Scenario
