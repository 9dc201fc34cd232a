import Scenario.Fault
import Scenario.Text

/-!
# Cursors

A cursor walks over a source text. Counts are in characters and the offset is in bytes, and the two
are kept in step: moving over some characters adds their byte length to the offset. Since only the
characters that are left are kept, a cursor stands between characters at all times.

The position of a cursor is its offset from the start of the text, moved by the position `base` of
the first byte. It is formed only when it is asked for, so a cursor may walk beyond
`positionLimit` as long as nobody asks.
-/

namespace Scenario

/-- More characters were asked for than are left. -/
structure OutOfRange where
  position : Nat
  requested : Nat
  available : Nat
deriving DecidableEq, Repr

namespace OutOfRange

def message (e : OutOfRange) : String :=
  "cannot read " ++ toString e.requested ++ " characters at position " ++ toString e.position ++
    ", only " ++ toString e.available ++ " left"

end OutOfRange

structure Cursor where
  /-- The position of the first byte of the text. -/
  base : Nat
  /-- The number of bytes behind the cursor. -/
  offset : Nat
  /-- The characters in front of the cursor. -/
  rest : List Char
deriving DecidableEq, Repr

namespace Cursor

def ofText (source : List Char) (base : Nat) : Cursor := ⟨base, 0, source⟩

def ofString (source : String) (base : Nat) : Cursor := ofText source.toList base

def position (c : Cursor) : Except Fault Nat :=
  if c.base + c.offset ≤ positionLimit then .ok (c.base + c.offset) else .error .position

def atEnd (c : Cursor) : Bool := c.rest.isEmpty

/-- Moves over the next `count` characters, or over all that are left if there are fewer. -/
def advance (c : Cursor) (count : Nat) : Cursor :=
  { c with
    offset := c.offset + byteLength (c.rest.take count)
    rest := c.rest.drop count }

/-- The next `count` characters. If there are fewer, the refusal names the position. -/
def peek (c : Cursor) (count : Nat) : Except Fault (Except OutOfRange (List Char)) :=
  if count ≤ c.rest.length then .ok (.ok (c.rest.take count))
  else do return .error ⟨← c.position, count, c.rest.length⟩

/-- The next `count` characters, and the cursor behind them. A cursor that cannot read so many
characters stays where it is. -/
def read (c : Cursor) (count : Nat) : Except Fault (Except OutOfRange (List Char)) × Cursor :=
  match c.peek count with
  | .ok (.ok text) => (.ok (.ok text), c.advance count)
  | refusal => (refusal, c)

/-- The next character. -/
def first (c : Cursor) : Option Char := c.rest.head?

/-- The next character, and the cursor behind it. -/
def bump (c : Cursor) : Option Char × Cursor :=
  match c.rest with
  | [] => (none, c)
  | head :: rest => (some head, { c with offset := c.offset + head.utf8Size, rest := rest })

/-- The number of characters in front of the cursor for which `p` holds. -/
def countWhile (c : Cursor) (p : Char → Bool) : Nat := (c.rest.takeWhile p).length

/-- Walks from `offset` over the characters of a text for which `p` holds. -/
def passOver (p : Char → Bool) : Nat → List Char → Nat × List Char
  | offset, [] => (offset, [])
  | offset, head :: rest =>
    if p head then passOver p (offset + head.utf8Size) rest else (offset, head :: rest)

/-- Moves over the characters for which `p` holds. -/
def skipWhile (c : Cursor) (p : Char → Bool) : Cursor :=
  let (offset, rest) := passOver p c.offset c.rest
  { c with offset := offset, rest := rest }

@[simp] theorem advance_base (c : Cursor) (count : Nat) : (c.advance count).base = c.base := rfl

@[simp] theorem advance_rest (c : Cursor) (count : Nat) :
    (c.advance count).rest = c.rest.drop count := rfl

@[simp] theorem advance_zero (c : Cursor) : c.advance 0 = c := by simp [advance]

theorem advance_add (c : Cursor) (m n : Nat) : c.advance (m + n) = (c.advance m).advance n := by
  simp [advance, List.take_add, Nat.add_assoc]

theorem bump_snd (c : Cursor) : c.bump.2 = c.advance 1 := by
  cases h : c.rest <;> simp [bump, advance, h]
  cases c; simp_all

theorem passOver_eq (p : Char → Bool) (offset : Nat) (text : List Char) :
    passOver p offset text =
      (offset + byteLength (text.takeWhile p), text.dropWhile p) := by
  induction text generalizing offset with
  | nil => rfl
  | cons head rest ih =>
    by_cases h : p head <;> simp [passOver, h, ih, Nat.add_assoc]

theorem drop_length_takeWhile (p : Char → Bool) (text : List Char) :
    text.drop (text.takeWhile p).length = text.dropWhile p := by
  induction text with
  | nil => rfl
  | cons head rest ih => by_cases h : p head <;> simp [h, ih]

theorem take_length_takeWhile (p : Char → Bool) (text : List Char) :
    text.take (text.takeWhile p).length = text.takeWhile p := by
  induction text with
  | nil => rfl
  | cons head rest ih => by_cases h : p head <;> simp [h, ih]

@[simp] theorem skipWhile_base (c : Cursor) (p : Char → Bool) : (c.skipWhile p).base = c.base := rfl

@[simp] theorem skipWhile_rest (c : Cursor) (p : Char → Bool) :
    (c.skipWhile p).rest = c.rest.dropWhile p := by
  simp [skipWhile, passOver_eq]

theorem skipWhile_eq_advance (c : Cursor) (p : Char → Bool) :
    c.skipWhile p = c.advance (c.countWhile p) := by
  simp [skipWhile, passOver_eq, advance, countWhile, drop_length_takeWhile, take_length_takeWhile]

end Cursor
end Scenario
