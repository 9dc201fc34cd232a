import Scenario.Proofs.Lexing.Collapse
import Scenario.Proofs.Relocation

/-!
# Parsing when blanks collapse

No parser looks at the contents of a literal. So whether blanks collapse there shows in the values
of tokens, and in no script and no diagnostic. The runs are coupled along the spans that are moved
by nothing, whichever way the literals are read.

Main statement: `Target.collapse_only_drops_blanks`.
-/

namespace Scenario

namespace Lexer

/-- A source has the same lexemes in both readings, in the same places. -/
theorem coupled_items_collapse (source : String) {base : Nat} (d : Dialect) (b : Bool)
    (hf : base + byteLength source.toList ≤ positionLimit) :
    List.Forall₂ (Item.Coupled (Span.Shifted 0)) (ofString source base d).items
      (ofString source base { d with collapseStringWhitespace := b }).items := by
  obtain ⟨tiles, ht⟩ := exists_tiling base source.toList
  have hitems : (ofString source base d).items =
      Tile.items d.collapseStringWhitespace false tiles := ht.items_ofText hf d
  have hcollapsed : (ofString source base { d with collapseStringWhitespace := b }).items =
      Tile.items b false tiles := ht.items_ofText hf _
  rw [hitems, hcollapsed]
  apply Tile.forall₂_items
  rw [List.forall₂_same]
  intro tile htile
  have hspan := ht.span_of_mem tile htile
  have hfits : tile.span.Fits := by
    unfold Span.Fits
    omega
  exact ⟨rfl, tile.lexeme.coupled_item _ b ⟨hfits, hfits, rfl⟩⟩

theorem collapsed_ofString (source : String) (base : Nat) (d : Dialect) (keep : Bool) :
    ({ ofString source base { d with collapseStringWhitespace := false } with
      keepComments := keep } : Lexer).Collapsed
    { ofString source base { d with collapseStringWhitespace := true } with
      keepComments := keep } :=
  ⟨rfl, ⟨rfl, rfl⟩, rfl, rfl⟩

end Lexer

namespace Target

/-- A parser does nothing about the blanks of literals. -/
theorem read_collapse (target : Target) (d : Dialect) (b : Bool) (extent : Extent) (base : Nat)
    (items : List Item) :
    target.read { d with collapseStringWhitespace := b } extent base items =
      target.read d extent base items := by
  cases target <;> rfl

/-- However the literals are read, the outcome is the same. -/
theorem parse_collapse_congr (target : Target) (d : Dialect) (extent : Extent) {source : String}
    {base : Nat} (hf : base + byteLength source.toList ≤ positionLimit) (b b' : Bool) :
    target.parse { d with collapseStringWhitespace := b } extent source base =
      target.parse { d with collapseStringWhitespace := b' } extent source base := by
  have hstart : Span.Shifted 0 ⟨base, 0⟩ ⟨base, 0⟩ := by
    have hfits : (⟨base, 0⟩ : Span).Fits := by
      simp only [Span.Fits]
      omega
    exact ⟨hfits, hfits, rfl⟩
  have hshift : ∀ c, ∃ outcome : target.Outcome, target.parse d extent source base = .ok outcome ∧
      target.parse { d with collapseStringWhitespace := c } extent source base =
        .ok (outcome.shift 0) := by
    intro c
    have hread := coupled_read (Span.coupling_shifted 0) hstart
      (Lexer.coupled_items_collapse source d c hf) target d extent
    rw [← target.read_collapse d c extent base
      (Lexer.ofString source base { d with collapseStringWhitespace := c }).items] at hread
    obtain ⟨outcome, _, hp, hp', hagree⟩ := exists_agree_of_read hf hf hread
    obtain rfl := hagree.eq_shift
    exact ⟨outcome, hp, hp'⟩
  obtain ⟨outcome, hp, hb⟩ := hshift b
  obtain ⟨outcome', hp', hb'⟩ := hshift b'
  obtain rfl : outcome = outcome' := Except.ok.inj (hp.symm.trans hp')
  rw [hb, hb']

/-- Whether blanks collapse affects the values of literals and nothing else.

Two lexers that differ in it stand at the same positions after each call. They yield the same items,
with the same kinds, spans and errors, and the same values, but for string literals: their values
lose some spaces and tabs. All parses come to the same. -/
theorem collapse_only_drops_blanks (d : Dialect) (source : String) (base : Nat) :
    (∀ keep,
      let kept : Lexer :=
        { Lexer.ofString source base { d with collapseStringWhitespace := false } with
          keepComments := keep }
      let collapsed : Lexer :=
        { Lexer.ofString source base { d with collapseStringWhitespace := true } with
          keepComments := keep }
      List.Forall₂ Item.Collapsed kept.items collapsed.items ∧
      ∀ n, (collapsed.after n).position = (kept.after n).position ∧
        Option.Rel Item.Collapsed (kept.after n).next.1 (collapsed.after n).next.1) ∧
    (base + byteLength source.toList ≤ positionLimit → ∀ (target : Target) (extent : Extent),
      target.parse { d with collapseStringWhitespace := true } extent source base =
        target.parse { d with collapseStringWhitespace := false } extent source base) := by
  constructor
  · intro keep kept collapsed
    have h : kept.Collapsed collapsed := Lexer.collapsed_ofString source base d keep
    exact ⟨h.items, fun n => ⟨(h.after n).position_eq, (h.after n).next.1⟩⟩
  · intro hf target extent
    exact target.parse_collapse_congr d extent hf true false

/-- A scene with a literal that is skipped, and in which a blank is dropped. -/
theorem collapse_only_drops_blanks_literal :
    0 + byteLength "scene s \x7b \"a  b\" \x7d".toList ≤ positionLimit ∧
    Target.scene.parse { Dialect.standard with collapseStringWhitespace := true } .whole
        "scene s \x7b \"a  b\" \x7d" 0 =
      Target.scene.parse { Dialect.standard with collapseStringWhitespace := false } .whole
        "scene s \x7b \"a  b\" \x7d" 0 := by
  have hf : 0 + byteLength "scene s \x7b \"a  b\" \x7d".toList ≤ positionLimit := by decide
  obtain ⟨-, hparse⟩ := collapse_only_drops_blanks .standard "scene s \x7b \"a  b\" \x7d" 0
  exact ⟨hf, hparse hf .scene .whole⟩

end Target
end Scenario
