import Scenario.Proofs.Lexing.Tiling
import Scenario.SourceMap

/-!
# Slices of a source

A span covers a part of the source that can be taken on its own. If it reaches from one token to
another, a lexer that starts on that part at the position of the span yields the same tokens, with
the same spans, as it did in the middle of the source.
-/

namespace Scenario

/-- The part of a source, whose first byte is at `base`, that the span covers. There is none if the
span leaves the source or begins or ends inside a character. -/
def Span.slice? (source : List Char) (base : Nat) (span : Span) : Option (List Char) :=
  if span.base < base then none
  else do
    let before ← charsBefore source (span.base - base)
    let chars ← charsBefore (source.drop before) span.len
    return (source.drop before).take chars

theorem Span.slice?_append (base : Nat) (pre slice post : List Char) :
    (⟨base + byteLength pre, byteLength slice⟩ : Span).slice? (pre ++ (slice ++ post)) base =
      some slice := by
  have hbase : base + byteLength pre - base = byteLength pre := by omega
  rw [slice?, if_neg (by simp), hbase, charsBefore_append]
  simp [charsBefore_append]

/-- The slice from a token to a later one has the items that stand there in the source. -/
theorem Tiling.exists_slice_of_items {base : Nat} {source : List Char} {tiles : List Tile}
    {collapse : Bool} {before between after : List Item} {first last : Token} {span : Span}
    (h : Tiling base source tiles) (hf : base + byteLength source ≤ positionLimit)
    (hi : Tile.items collapse false tiles =
      before ++ .token first :: (between ++ .token last :: after))
    (hu : first.span.union last.span = .ok span) :
    ∃ slice sub, span.slice? source base = some slice ∧ Tiling span.base slice sub ∧
      Tile.items collapse false sub = .token first :: (between ++ [.token last]) ∧
      span.base + byteLength slice ≤ base + byteLength source := by
  obtain ⟨left, _, rfl, -, h1⟩ := Tile.exists_append_of_items hi
  obtain ⟨skipped, tile, _, rfl, -, hfirst, hspan, h2⟩ := Tile.exists_cons_of_items h1
  obtain ⟨middle, _, rfl, hmiddle, h3⟩ := Tile.exists_append_of_items h2
  obtain ⟨skipped', tile', right, rfl, hskipped', hlast, hspan', -⟩ := Tile.exists_cons_of_items h3
  have hcut : left ++ (skipped ++ tile :: (middle ++ (skipped' ++ tile' :: right))) =
      (left ++ skipped) ++ (tile :: ((middle ++ (skipped' ++ [tile'])) ++ right)) := by simp
  rw [hcut] at h
  obtain ⟨pre, slice, post, rfl, hbase, hslice, hstop⟩ := h.exists_slice
  -- The last token ends where the slice does, and the first token lies within the slice.
  have hend : tile'.span.base + tile'.span.len = tile.span.base + byteLength slice := by
    rw [← hstop]
    have hlist : tile :: (middle ++ (skipped' ++ [tile'])) =
        (tile :: (middle ++ skipped')) ++ [tile'] := by simp
    rw [hlist, Tile.stop_append]
    rfl
  have htile := hslice.span_of_mem tile (by simp)
  have htile' := hslice.span_of_mem tile' (by simp)
  simp only [byteLength_append] at hf ⊢
  rw [Lexeme.span_of_item hspan, Lexeme.span_of_item hspan',
    Span.union_of_fits (by unfold Span.Fits; omega) (by unfold Span.Fits; omega)] at hu
  have heq : span = ⟨base + byteLength pre, byteLength slice⟩ := by
    cases hu
    congr 1 <;> omega
  rw [hbase] at hslice
  subst heq
  refine ⟨slice, _, Span.slice?_append base pre slice post, hslice, ?_, by dsimp only; omega⟩
  rw [← List.singleton_append, Tile.items_append, Tile.items_append, Tile.items_append, hfirst,
    hmiddle, hskipped', hlast]
  rfl

end Scenario
