import Scenario.Text

/-!
# Lines and columns

A source map turns byte positions back into lines and columns. It keeps the lines of the source,
without the LF characters that separate them, and the position of the first byte. A position is
located if it stands before a character of the source or right after the last one; a position
inside a character, or outside of the source, has no location.
-/

namespace Scenario

/-- A line and a column, both counted from 1. Columns count characters. -/
structure Location where
  line : Nat
  column : Nat
deriving DecidableEq, Repr

namespace Location

def describe (l : Location) : String := toString l.line ++ ":" ++ toString l.column

end Location

/-- The first line of a text, and the lines after it. -/
def splitLines : List Char → List Char × List (List Char)
  | [] => ([], [])
  | c :: text =>
    let (line, rest) := splitLines text
    if c = '\n' then ([], line :: rest) else (c :: line, rest)

/-- The lines and the breaks between them are the text. -/
theorem splitLines_join (text : List Char) :
    (splitLines text).1 ++ (splitLines text).2.flatMap ('\n' :: ·) = text := by
  induction text with
  | nil => rfl
  | cons c text ih =>
    by_cases h : c = '\n'
    · simpa [splitLines, h] using ih
    · simpa [splitLines, h] using ih

theorem not_mem_splitLines (text : List Char) :
    '\n' ∉ (splitLines text).1 ∧ ∀ line ∈ (splitLines text).2, '\n' ∉ line := by
  induction text with
  | nil => simp [splitLines]
  | cons c text ih =>
    by_cases h : c = '\n'
    · simpa [splitLines, h] using ih
    · have h' : ¬ '\n' = c := fun e => h e.symm
      simpa [splitLines, h, h'] using ih

/-- The number of characters in the first `offset` bytes, unless they end inside a character or
after the text. -/
def charsBefore : List Char → Nat → Option Nat
  | _, 0 => some 0
  | [], _ + 1 => none
  | c :: text, offset@(_ + 1) =>
    if c.utf8Size ≤ offset then (charsBefore text (offset - c.utf8Size)).map (· + 1) else none

/-- A count of characters is that of a part of the text with the given number of bytes. -/
theorem charsBefore_eq_some_iff {text : List Char} {offset chars : Nat} :
    charsBefore text offset = some chars ↔
      chars ≤ text.length ∧ byteLength (text.take chars) = offset := by
  induction text generalizing offset chars with
  | nil => cases offset <;> simp [charsBefore, eq_comm]
  | cons c text ih =>
    have hc := c.utf8Size_pos
    cases offset with
    | zero =>
      cases chars with
      | zero => simp [charsBefore]
      | succ chars => simp [charsBefore]; omega
    | succ offset =>
      simp only [charsBefore]
      cases chars with
      | zero => split <;> simp
      | succ chars =>
        split
        · simp only [Option.map_eq_some_iff, ih, Nat.add_right_cancel_iff, exists_eq_right,
            List.length_cons, List.take_succ_cons, byteLength_cons]
          omega
        · simp only [List.take_succ_cons, byteLength_cons]
          simp
          omega

theorem charsBefore_append (pre rest : List Char) :
    charsBefore (pre ++ rest) (byteLength pre) = some pre.length :=
  charsBefore_eq_some_iff.2 ⟨by simp, by simp⟩

/-- The text without the CR characters at its end. -/
def trimReturns (text : List Char) : List Char :=
  (text.reverse.dropWhile (· = '\r')).reverse

/-- The lines of a source, and the position of its first byte. -/
structure SourceMap where
  base : Nat
  lines : List (List Char)
deriving DecidableEq, Repr

namespace SourceMap

def ofText (source : List Char) (base : Nat) : SourceMap :=
  let (line, rest) := splitLines source
  ⟨base, line :: rest⟩

def ofString (source : String) (base : Nat) : SourceMap := ofText source.toList base

/-- The location of the byte `offset` of `lines`, the first of which has the number `number`. -/
def locateIn : List (List Char) → Nat → Nat → Option Location
  | [], _, _ => none
  | line :: rest, number, offset =>
    if offset ≤ byteLength line then
      (charsBefore line offset).map fun chars => ⟨number, chars + 1⟩
    else locateIn rest (number + 1) (offset - byteLength line - 1)

/-- The location of the byte at `position`. -/
def locate (m : SourceMap) (position : Nat) : Option Location :=
  if position < m.base then none else locateIn m.lines 1 (position - m.base)

/-- The text of a line, counted from 1, without its line break. -/
def line (m : SourceMap) : Nat → Option (List Char)
  | 0 => none
  | number + 1 => m.lines[number]?.map trimReturns

end SourceMap
end Scenario
