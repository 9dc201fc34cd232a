import Scenario.Fault
import Scenario.SourceMap

/-!
# Line tables

A line table answers as a source map does, but does not cut the source into lines. It keeps the
source as it is, and the offset at which each line starts, and finds the line of a position by
halving the part of the table that is left to search.

Lookups take entries of the table, parts of the source between two offsets, and sums and differences
that have to stay in the range of positions. Each of these can be asked for where there is none.
Such a lookup ends with a failure, which is not the answer that the position has no location.
-/

namespace Scenario

/-- A source, the position of its first byte, and the offsets at which its lines start. -/
structure LineTable where
  base : Nat
  source : List Char
  starts : List Nat
deriving DecidableEq, Repr

namespace LineTable

/-- The ways in which a lookup can end without an answer. -/
inductive Failure where
  /-- The entry `index` of a table of `length` entries was asked for. -/
  | entry (length index : Nat)
  /-- The source has no part between the two offsets. -/
  | slice (start stop : Nat)
  /-- The sum of the two numbers lies above `positionLimit`. -/
  | sum (n k : Nat)
  /-- The second number lies above the first, from which it is taken. -/
  | difference (n k : Nat)
deriving DecidableEq, Repr

/-- The offsets right behind the line feeds of a text that stands at `offset`. -/
def startsBehind : List Char → Nat → List Nat
  | [], _ => []
  | c :: text, offset =>
    if c = '\n' then (offset + 1) :: startsBehind text (offset + 1)
    else startsBehind text (offset + c.utf8Size)

def ofText (source : List Char) (base : Nat) : LineTable :=
  ⟨base, source, 0 :: startsBehind source 0⟩

@[simp] theorem base_ofText (source : List Char) (base : Nat) :
    (ofText source base).base = base := rfl

@[simp] theorem source_ofText (source : List Char) (base : Nat) :
    (ofText source base).source = source := rfl

/-- The index of an entry that is `offset`, among the entries from `lo` to `hi`. If there is none,
the index that such an entry would get. -/
def search (starts : List Nat) (offset lo hi : Nat) (hhi : hi ≤ starts.length) : Except Nat Nat :=
  if h : lo < hi then
    let mid := lo + (hi - lo) / 2
    match compare starts[mid] offset with
    | .lt => search starts offset (mid + 1) hi hhi
    | .eq => .ok mid
    | .gt => search starts offset lo mid (by omega)
  else .error lo
termination_by hi - lo

def entry (m : LineTable) (index : Nat) : Except Failure Nat :=
  match m.starts[index]? with
  | some start => .ok start
  | none => .error (.entry m.starts.length index)

/-- The part of the source between two offsets. -/
def slice (m : LineTable) (start stop : Nat) : Except Failure (List Char) :=
  match charsBefore m.source start, charsBefore m.source stop with
  | some first, some last =>
    if start ≤ stop then .ok ((m.source.take last).drop first) else .error (.slice start stop)
  | _, _ => .error (.slice start stop)

def plus (n k : Nat) : Except Failure Nat :=
  if n + k ≤ positionLimit then .ok (n + k) else .error (.sum n k)

def minus (n k : Nat) : Except Failure Nat :=
  if k ≤ n then .ok (n - k) else .error (.difference n k)

theorem plus_of_le {n k : Nat} (h : n + k ≤ positionLimit) : plus n k = .ok (n + k) := if_pos h

theorem minus_of_le {n k : Nat} (h : k ≤ n) : minus n k = .ok (n - k) := if_pos h

/-- The index of the last line that does not start behind `offset`. -/
def lineIndex (m : LineTable) (offset : Nat) : Except Failure Nat :=
  match search m.starts offset 0 m.starts.length (Nat.le_refl _) with
  | .ok index => .ok index
  | .error next => minus next 1

/-- The offset at which a line ends: that of its line feed, or the end of the source. -/
def lineEnd (m : LineTable) (index : Nat) : Except Failure Nat :=
  match m.starts[index + 1]? with
  | some next => minus next 1
  | none => .ok (byteLength m.source)

/-- The location of the byte at `position`. -/
def locate (m : LineTable) (position : Nat) : Except Failure (Option Location) :=
  if position < m.base then return none
  else
    let offset := position - m.base
    match charsBefore m.source offset with
    | none => return none
    | some _ => do
      let index ← m.lineIndex offset
      let text ← m.slice (← m.entry index) offset
      return some ⟨← plus index 1, ← plus text.length 1⟩

/-- The text of a line, counted from 1, without its line break. -/
def line (m : LineTable) : Nat → Except Failure (Option (List Char))
  | 0 => return none
  | index + 1 =>
    match m.starts[index]? with
    | none => return none
    | some start => do
      let text ← m.slice start (← m.lineEnd index)
      return some (trimReturns text)

end LineTable
end Scenario
