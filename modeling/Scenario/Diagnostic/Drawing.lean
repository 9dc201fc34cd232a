import Scenario.Diagnostic.Rendering
import Scenario.LineTable

/-!
# Drawing with a line table

A diagnostic can be drawn with a line table too. The text is that of the rendered diagnostic, but
all that a picture is made of is looked up in the table, and every sum and difference on the way is
checked: the end of the span, the blanks in front of the markers, and the number of markers.
-/

namespace Scenario

/-- A span to be shown, the character that marks it, and the note behind the markers. -/
structure Pointer where
  span : Span
  marker : Char
  note : Option String
deriving DecidableEq, Repr

/-- What a diagnostic points at, in the order in which it is shown. -/
def Diagnostic.pointers (x : Diagnostic) : List Pointer :=
  match x.spans with
  | none => []
  | some spans =>
    ⟨spans.main, '^', none⟩ ::
      spans.remarks.map fun remark => ⟨remark.span, '-', some remark.note⟩

/-- A line of the source, the location in it at which a span begins, and the row below it: some
blanks, and some markers behind them. -/
structure Sketch where
  start : Location
  text : List Char
  blanks : Nat
  markers : Nat
deriving DecidableEq, Repr

/-- The four lines of a picture. -/
def Sketch.lines (s : Sketch) (marker : Char) (note : Option String) : List String :=
  let number := toString s.start.line
  let gutter := String.ofList (List.replicate number.length ' ')
  [gutter ++ " --> " ++ s.start.describe,
    gutter ++ " |",
    number ++ " | " ++ String.ofList s.text,
    gutter ++ " | " ++
      String.ofList (List.replicate s.blanks ' ' ++ List.replicate s.markers marker) ++
      note.elim "" (" " ++ ·)]

namespace LineTable

/-- The number of characters to mark on the line of `start`, whose text is `text`, for a span that
ends at `finish`. -/
def markedWidth (m : LineTable) (start : Location) (text : List Char) (finish : Nat) :
    Except Failure Nat := do
  match ← m.locate finish with
  | some last =>
    if last.line = start.line then minus last.column start.column
    else return (← plus text.length 1) - start.column
  | none => return (← plus text.length 1) - start.column

/-- The lines that are shown for a pointer. -/
def picture (m : LineTable) (y : Pointer) : Except Failure (List String) := do
  match ← m.locate y.span.base with
  | none =>
    let finish ← plus y.span.base y.span.len
    return ["  --> " ++ toString y.span.base ++ ".." ++ toString finish]
  | some start =>
    let text := (← m.line start.line).getD []
    let width ← m.markedWidth start text (← plus y.span.base y.span.len)
    let blanks ← minus start.column 1
    return (⟨start, text, blanks, max width 1⟩ : Sketch).lines y.marker y.note

end LineTable

/-- The diagnostic with the lines of the source that it points at. -/
def Diagnostic.draw (x : Diagnostic) (m : LineTable) : Except LineTable.Failure String := do
  return "\n".intercalate (x.headline :: (← x.pointers.mapM m.picture).flatten)

end Scenario
