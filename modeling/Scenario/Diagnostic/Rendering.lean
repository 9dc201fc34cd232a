import Scenario.Diagnostic.Basic
import Scenario.SourceMap

/-!
# Rendering

A rendered diagnostic is its headline, followed by a picture of each of its spans: the main span
first, then those of its remarks in order. A picture shows the line on which the span starts, and
under it a row of markers below the characters of the span. A span that goes on beyond its first
line is marked up to one place behind the end of that line. A span that starts outside of the
source has no picture: its first position and its end are given instead, without its note.
-/

namespace Scenario

/-- The row below a line: `width` markers, the first of them in `column`. There is a marker even
below an empty span. -/
def markerRow (column width : Nat) (marker : Char) : String :=
  String.ofList (List.replicate (column - 1) ' ' ++ List.replicate (max width 1) marker)

namespace SourceMap

/-- The number of characters to mark on the line of `start`, whose text is `text`, for a span that
ends at `finish`. -/
def markedWidth (m : SourceMap) (start : Location) (text : List Char) (finish : Nat) : Nat :=
  match m.locate finish with
  | some last =>
    if last.line = start.line then last.column - start.column
    else text.length + 1 - start.column
  | none => text.length + 1 - start.column

/-- The lines of the picture of `span`. -/
def picture (m : SourceMap) (span : Span) (marker : Char) (note : Option String) :
    Except Fault (List String) := do
  let finish ← span.stop
  match m.locate span.base with
  | none => return ["  --> " ++ toString span.base ++ ".." ++ toString finish]
  | some start =>
    let text := (m.line start.line).getD []
    let number := toString start.line
    let gutter := String.ofList (List.replicate number.length ' ')
    return [
      gutter ++ " --> " ++ start.describe,
      gutter ++ " |",
      number ++ " | " ++ String.ofList text,
      gutter ++ " | " ++ markerRow start.column (m.markedWidth start text finish) marker ++
        note.elim "" (" " ++ ·)]

end SourceMap

namespace Diagnostic

/-- The lines of the rendered diagnostic. -/
def renderedLines (d : Diagnostic) (m : SourceMap) : Except Fault (List String) :=
  match d.spans with
  | none => .ok [d.headline]
  | some spans => do
    let main ← m.picture spans.main '^' none
    let remarks ← spans.remarks.mapM fun remark => m.picture remark.span '-' (some remark.note)
    return d.headline :: (main ++ remarks.flatten)

/-- The diagnostic with the lines of the source that it points at. -/
def render (d : Diagnostic) (m : SourceMap) : Except Fault String := do
  return "\n".intercalate (← d.renderedLines m)

end Diagnostic
end Scenario
