import Scenario.Cursor
import Scenario.SourceMap

/-!
# Cursors that count bytes

A byte cursor walks over a source as a cursor does, but keeps the whole source, and of its own place
only the number of bytes behind it. What is left of the source is cut off there whenever it is asked
for, and the bytes to move on by are found in three ways: `read` takes the size of the text that it
gives, `bump` that of a single character, and `skipWhile` goes from one character to the next.

Parts of a text can be cut off only between two characters. If the offset is not such a place, then
nothing is left; if a part that has to be given does not end at one, then the operation fails.

A predicate may remember which characters it was asked about in the course of one operation.
-/

namespace Scenario

/-- A source, the position of its first byte, and the number of bytes behind the cursor. -/
structure ByteCursor where
  source : List Char
  base : Nat
  offset : Nat
deriving DecidableEq, Repr

/-- A predicate on characters that may depend on those it was asked about before, which are the
first argument. -/
abbrev Scrutiny := List Char → Char → Bool

namespace Scrutiny

/-- The characters for which the predicate holds, up to the first for which it does not. -/
def admitted (p : Scrutiny) : List Char → List Char → List Char
  | _, [] => []
  | asked, head :: rest =>
    if p asked head then head :: p.admitted (asked ++ [head]) rest else []

theorem admitted_append_drop (p : Scrutiny) (asked text : List Char) :
    p.admitted asked text ++ text.drop (p.admitted asked text).length = text := by
  induction text generalizing asked with
  | nil => rfl
  | cons head rest ih =>
    rw [admitted]
    split
    · rw [List.cons_append, List.length_cons, List.drop_succ_cons, ih]
    · rfl

/-- A predicate that remembers nothing. -/
theorem admitted_const (p : Char → Bool) (asked text : List Char) :
    Scrutiny.admitted (fun _ => p) asked text = text.takeWhile p := by
  induction text generalizing asked with
  | nil => rfl
  | cons head rest ih =>
    rw [admitted, List.takeWhile_cons, ih]

end Scrutiny

namespace ByteCursor

/-- The ways in which an operation can end without an answer. -/
inductive Failure where
  | fault (fault : Fault)
  /-- A text has no part that consists of its first `stop` bytes. -/
  | slice (stop : Nat)
deriving DecidableEq, Repr

def ofText (source : List Char) (base : Nat) : ByteCursor := ⟨source, base, 0⟩

def ofString (source : String) (base : Nat) : ByteCursor := ofText source.toList base

def position (c : ByteCursor) : Except Failure Nat :=
  if c.offset ≤ positionLimit then
    if c.base + c.offset ≤ positionLimit then .ok (c.base + c.offset)
    else .error (.fault .position)
  else .error (.fault .position)

def atEnd (c : ByteCursor) : Bool := byteLength c.source ≤ c.offset

/-- What is left of the source. -/
def rest (c : ByteCursor) : List Char :=
  match charsBefore c.source c.offset with
  | some chars => c.source.drop chars
  | none => []

/-- The first `stop` bytes of a text. -/
def sliceTo (text : List Char) (stop : Nat) : Except Failure (List Char) :=
  match charsBefore text stop with
  | some chars => .ok (text.take chars)
  | none => .error (.slice stop)

/-- The characters of a text whose first byte has the given index, each with its own index. -/
def charIndices : Nat → List Char → List (Nat × Char)
  | _, [] => []
  | index, head :: rest => (index, head) :: charIndices (index + head.utf8Size) rest

/-- Moves on by the given number of bytes. -/
def moved (c : ByteCursor) (bytes : Nat) : ByteCursor := { c with offset := c.offset + bytes }

@[simp] theorem source_moved (c : ByteCursor) (bytes : Nat) :
    (c.moved bytes).source = c.source := rfl

@[simp] theorem base_moved (c : ByteCursor) (bytes : Nat) : (c.moved bytes).base = c.base := rfl

@[simp] theorem offset_moved (c : ByteCursor) (bytes : Nat) :
    (c.moved bytes).offset = c.offset + bytes := rfl

/-- The next `count` characters. If there are fewer, the refusal names the position. -/
def peek (c : ByteCursor) : Nat → Except Failure (Except OutOfRange (List Char))
  | 0 => do return .ok (← sliceTo c.rest 0)
  | count + 1 =>
    match (charIndices 0 c.rest)[count]? with
    | some (index, last) => do return .ok (← sliceTo c.rest (index + last.utf8Size))
    | none => do return .error ⟨← c.position, count + 1, c.rest.length⟩

/-- The next `count` characters, and the cursor behind them. A cursor that cannot read so many
characters stays where it is. -/
def read (c : ByteCursor) (count : Nat) :
    Except Failure (Except OutOfRange (List Char)) × ByteCursor :=
  match c.peek count with
  | .ok (.ok text) => (.ok (.ok text), c.moved (byteLength text))
  | refusal => (refusal, c)

/-- The next character. -/
def first (c : ByteCursor) : Option Char := c.rest.head?

/-- The next character, and the cursor behind it. -/
def bump (c : ByteCursor) : Option Char × ByteCursor :=
  match c.first with
  | some head => (some head, c.moved head.utf8Size)
  | none => (none, c)

/-- The number of characters in front of the cursor for which `p` holds. -/
def countWhile (c : ByteCursor) (p : Scrutiny) : Nat := (p.admitted [] c.rest).length

/-- A character in front of the cursor is a character of the source behind the offset. -/
theorem offset_lt_of_first {c : ByteCursor} {head : Char} (h : c.first = some head) :
    c.offset < byteLength c.source := by
  rw [first, rest] at h
  split at h
  · rename_i chars hchars
    obtain ⟨-, hoffset⟩ := charsBefore_eq_some_iff.1 hchars
    obtain ⟨left, hleft⟩ := List.head?_eq_some_iff.1 h
    have hsource := congrArg byteLength (List.take_append_drop chars c.source)
    have hsize := head.utf8Size_pos
    rw [byteLength_append, hleft, byteLength_cons] at hsource
    omega
  · cases h

/-- Moves over the characters for which `p` holds. Those in `asked` have been passed already. -/
def skipFrom (p : Scrutiny) (asked : List Char) (c : ByteCursor) : ByteCursor :=
  match _h : c.first with
  | some head =>
    if p asked head then skipFrom p (asked ++ [head]) (c.moved head.utf8Size) else c
  | none => c
termination_by byteLength c.source - c.offset
decreasing_by
  have hlt := offset_lt_of_first _h
  have hsize := head.utf8Size_pos
  simp only [source_moved, offset_moved]
  omega

/-- Moves over the characters for which `p` holds. -/
def skipWhile (c : ByteCursor) (p : Scrutiny) : ByteCursor := skipFrom p [] c

/-- The cursor in the same place that keeps what is left. -/
def toCursor (c : ByteCursor) : Cursor := ⟨c.base, c.offset, c.rest⟩

@[simp] theorem base_toCursor (c : ByteCursor) : c.toCursor.base = c.base := rfl

@[simp] theorem offset_toCursor (c : ByteCursor) : c.toCursor.offset = c.offset := rfl

@[simp] theorem rest_toCursor (c : ByteCursor) : c.toCursor.rest = c.rest := rfl

/-- A call of an operation. -/
inductive Call where
  | peek (count : Nat)
  | read (count : Nat)
  | first
  | bump
  | countWhile (p : Scrutiny)
  | skipWhile (p : Scrutiny)

/-- The cursor behind a call. -/
def after (c : ByteCursor) : Call → ByteCursor
  | .peek _ => c
  | .read count => (c.read count).2
  | .first => c
  | .bump => c.bump.2
  | .countWhile _ => c
  | .skipWhile p => c.skipWhile p

/-- The text that a call takes away: what it gives if it reads, and what it admits if it skips. -/
def taken (c : ByteCursor) : Call → List Char
  | .read count =>
    match (c.read count).1 with
    | .ok (.ok text) => text
    | _ => []
  | .bump => c.bump.1.toList
  | .skipWhile p => p.admitted [] c.rest
  | _ => []

/-- The cursor behind a sequence of calls. -/
def run (c : ByteCursor) (calls : List Call) : ByteCursor := calls.foldl after c

/-- All the text that a sequence of calls takes away. -/
def consumed : ByteCursor → List Call → List Char
  | _, [] => []
  | c, call :: calls => c.taken call ++ (c.after call).consumed calls

end ByteCursor
end Scenario
