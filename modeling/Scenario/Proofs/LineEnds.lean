import Scenario.Proofs.Lexing.LineEnds

/-!
# The two forms of line ends

A line ends with LF, or with CR and LF. Which of the two a source uses has no effect on its tokens,
on what is parsed, or on how diagnostics look, unless it escapes a line feed in a string literal:
there the CR character would take the place of the line feed.

Main statement: `Target.parse_crlf`.
-/

namespace Scenario

/-- The source with a CR character in front of every line feed. -/
def crlf (source : String) : String := String.ofList (withReturns 1 source.toList)

theorem toList_crlf (source : String) : (crlf source).toList = withReturns 1 source.toList :=
  String.toList_ofList

namespace Target

variable {source : String} {base base' : Nat}

/-- Lexers yield the same kinds and values, or the same error, for either form of a source. The
parses agree: equal values or two rejections, and diagnostics of the same sense, which look the same
over the source that they are about. -/
theorem parse_crlf (target : Target) (d : Dialect) (extent : Extent)
    (hb : UnescapedBreaks source.toList) (hf : base + byteLength source.toList ≤ positionLimit)
    (hf' : base' + byteLength (crlf source).toList ≤ positionLimit) :
    (∀ keep, List.Forall₂ Item.Alike
      ({ Lexer.ofString source base d with keepComments := keep } : Lexer).items
      ({ Lexer.ofString (crlf source) base' d with keepComments := keep } : Lexer).items) ∧
    ∃ outcome outcome' : target.Outcome, target.parse d extent source base = .ok outcome ∧
      target.parse d extent (crlf source) base' = .ok outcome' ∧
      Outcome.Agree (fun value value' => (value == value') = true)
        (fun x x' => x.sense = x'.sense ∧ ∃ text,
          x.render (SourceMap.ofString source base) = .ok text ∧
          x'.render (SourceMap.ofString (crlf source) base') = .ok text) outcome outcome' := by
  have hitems := fun keep => Lexer.items_withReturns d keep (toList_crlf source) hb hf hf'
  refine ⟨fun keep => (hitems keep).imp fun _ _ h => h.1, ?_⟩
  exact parse_agree_of_places (toList_crlf source) hf hf' ((hitems false).imp fun _ _ h => h.2)
    target extent

/-- A literal without an end on the second line. Its error looks the same in either form. -/
theorem parse_crlf_unterminated :
    UnescapedBreaks "scene s \x7b\n  \"oops\n".toList ∧
    0 + byteLength (crlf "scene s \x7b\n  \"oops\n").toList ≤ positionLimit ∧
    ∃ x x' text,
      Target.document.parse .strict .whole "scene s \x7b\n  \"oops\n" 0 = .ok (.error [x]) ∧
      Target.document.parse .strict .whole (crlf "scene s \x7b\n  \"oops\n") 0 =
        .ok (.error [x']) ∧
      x.render (SourceMap.ofString "scene s \x7b\n  \"oops\n" 0) = .ok text ∧
      x'.render (SourceMap.ofString (crlf "scene s \x7b\n  \"oops\n") 0) = .ok text := by
  have hb : UnescapedBreaks "scene s \x7b\n  \"oops\n".toList := by decide +kernel
  have hf : 0 + byteLength "scene s \x7b\n  \"oops\n".toList ≤ positionLimit := by decide
  have hf' : 0 + byteLength (crlf "scene s \x7b\n  \"oops\n").toList ≤ positionLimit := by
    rw [toList_crlf]
    decide
  have hrejected : ∃ x, Target.document.parse .strict .whole "scene s \x7b\n  \"oops\n" 0 =
      .ok (.error [x]) :=
    ⟨_, by with_unfolding_all rfl⟩
  obtain ⟨x, hx⟩ := hrejected
  obtain ⟨-, outcome, outcome', hp, hp', hagree⟩ :=
    parse_crlf .document .strict .whole hb hf hf'
  obtain rfl : .error [x] = outcome := Except.ok.inj (hx.symm.trans hp)
  cases hagree with
  | error hpairs =>
    cases hpairs with
    | cons hxx' hrest =>
      cases hrest
      obtain ⟨-, text, hrender, hrender'⟩ := hxx'
      exact ⟨hb, hf', x, _, text, hx, hp', hrender, hrender'⟩

end Target
end Scenario
