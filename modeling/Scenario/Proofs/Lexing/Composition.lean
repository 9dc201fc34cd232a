import Scenario.Proofs.Lexing.Joining
import Scenario.Proofs.Relocation

/-!
# Lexing line by line

Where a line ends nothing is pending: a source can be lexed up to a line feed and then on from
there. So a line that holds a comment only moves what comes behind it.

Main statement: `Lexer.items_compose`.
-/

namespace Scenario

/-- A `#` and text without a line end is one lexeme, a comment. -/
theorem Lexeme.exists_comment {text : List Char} (h : ∀ c ∈ text, isBreak c = false) :
    ∃ l : Lexeme, l.source = '#' :: text ∧ l.isComment = true ∧ l.Stands [] := by
  refine ⟨.comment (text.takeWhile isHorizontal) (text.dropWhile isHorizontal), ?_, rfl, ?_⟩
  · rw [source, List.takeWhile_append_dropWhile]
  · refine ⟨fun c hc => List.mem_takeWhile_imp hc, ⟨fun c hc => ?_, head?_dropWhile _ _⟩, by simp⟩
    exact h c ((List.dropWhile_sublist _).subset hc)

namespace Lexer

/-- A lexer that leaves out comments yields nothing for a comment. -/
theorem items_comment {text : String} {base : Nat} (d : Dialect)
    (h : ∀ c ∈ text.toList, isBreak c = false)
    (hf : base + byteLength ("#" ++ text).toList ≤ positionLimit) :
    (ofString ("#" ++ text) base d).items = [] := by
  obtain ⟨l, hsource, hcomment, hstands⟩ := Lexeme.exists_comment h
  have htext : ("#" ++ text).toList = [] ++ (l.source ++ []) := by simp [hsource]
  have htiling : Tiling base ([] ++ (l.source ++ []))
      [⟨l, ⟨base + byteLength [], byteLength l.source⟩⟩] :=
    .cons (by simp) hstands (.nil (by simp))
  rw [← htext] at htiling
  have hitems := htiling.items_ofText hf d
  rwa [Tile.items_cons, if_neg (by simp [hcomment])] at hitems

/-- Lexing goes line by line.

If a lexer yields only tokens for a source, then for this source, a line feed and another source it
yields these tokens, and behind them whatever it yields for the other source at its place, tokens
and errors. So a line that is a comment has no effect on a lexer that leaves out comments, but for
the spans of what comes behind it. -/
theorem items_compose (d : Dialect) (base : Nat) (b : String) :
    (∀ (a : String) (keep : Bool) (tokens : List Token),
      base + (byteLength a.toList + 1) + byteLength b.toList ≤ positionLimit →
      ({ ofString a base d with keepComments := keep } : Lexer).items = tokens.map .token →
      ({ ofString (a ++ "\n" ++ b) base d with keepComments := keep } : Lexer).items =
        tokens.map .token ++
          ({ ofString b (base + (byteLength a.toList + 1)) d with
            keepComments := keep } : Lexer).items) ∧
    ∀ text : String, (∀ c ∈ text.toList, c ≠ '\r' ∧ c ≠ '\n') →
      base + (byteLength ("#" ++ text).toList + 1) + byteLength b.toList ≤ positionLimit →
      (ofString ("#" ++ text ++ "\n" ++ b) base d).items =
        (ofString b base d).items.map (Item.shift (byteLength ("#" ++ text).toList + 1)) := by
  refine ⟨fun a keep tokens hf hi => items_join_keeping hf hi, fun text htext hf => ?_⟩
  have hbreak : ∀ c ∈ text.toList, isBreak c = false := by
    intro c hc
    simpa [isBreak, and_comm] using htext c hc
  have hcomment : (ofString ("#" ++ text) base d).items = ([] : List Token).map .token :=
    items_comment d hbreak (by omega)
  rw [items_join hf hcomment, List.map_nil, List.nil_append]
  exact items_shift d false hf

/-- A source that ends in a comment, in front of a literal without an end, and a comment line in
front of the same literal. -/
theorem items_compose_unterminated :
    let left : List Token := [⟨.ident, "ツ", ⟨7, 3⟩⟩, ⟨.comment, "", ⟨11, 2⟩⟩]
    let broken : Item := .error ⟨.unterminatedLiteral, ⟨14, 3⟩⟩
    7 + (byteLength "ツ # ".toList + 1) + byteLength "\"\\\"".toList ≤ positionLimit ∧
    (ofString "ツ # " 7 .standard).withComments.items = left.map .token ∧
    (ofString ("ツ # " ++ "\n" ++ "\"\\\"") 7 .standard).withComments.items =
      left.map .token ++ [broken] ∧
    (∀ c ∈ "\tx \"".toList, c ≠ '\r' ∧ c ≠ '\n') ∧
    (ofString ("#" ++ "\tx \"" ++ "\n" ++ "\"\\\"") 8 .standard).items = [broken] := by
  intro left broken
  have hf : 7 + (byteLength "ツ # ".toList + 1) + byteLength "\"\\\"".toList ≤ positionLimit := by
    decide
  have hleft : (ofString "ツ # " 7 .standard).withComments.items = left.map .token := by
    decide +kernel
  have hright : (ofString "\"\\\"" 14 .standard).withComments.items = [broken] := by
    decide +kernel
  have hbroken : (ofString "\"\\\"" 8 .standard).items =
      [.error ⟨.unterminatedLiteral, ⟨8, 3⟩⟩] := by decide +kernel
  have htext : ∀ c ∈ "\tx \"".toList, c ≠ '\r' ∧ c ≠ '\n' := by simp
  refine ⟨hf, hleft, ?_, htext, ?_⟩
  · have hjoined := (items_compose .standard 7 "\"\\\"").1 "ツ # " true left hf hleft
    exact hjoined.trans (congrArg (left.map .token ++ ·) hright)
  · have hmoved := (items_compose .standard 8 "\"\\\"").2 "\tx \"" htext (by decide)
    rw [hbroken] at hmoved
    exact hmoved

end Lexer
end Scenario
