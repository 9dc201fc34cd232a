/-!
# Text

Source text is a list of characters, and positions in it count the bytes of its UTF-8 form. The
two blank classes hold ASCII characters only: a script knows no other white space, so a character
such as U+00A0 belongs to the word it stands in.
-/

namespace Scenario

/-- The number of bytes of `text` in UTF-8. -/
def byteLength : List Char → Nat
  | [] => 0
  | c :: text => c.utf8Size + byteLength text

@[simp] theorem byteLength_nil : byteLength [] = 0 := rfl

@[simp] theorem byteLength_cons (c : Char) (text : List Char) :
    byteLength (c :: text) = c.utf8Size + byteLength text := rfl

@[simp] theorem byteLength_append (left right : List Char) :
    byteLength (left ++ right) = byteLength left + byteLength right := by
  induction left with
  | nil => simp
  | cons c left ih => simp [ih, Nat.add_assoc]

theorem length_le_byteLength (text : List Char) : text.length ≤ byteLength text := by
  induction text with
  | nil => simp
  | cons c text ih => have := c.utf8Size_pos; simp; omega

theorem byteLength_eq_zero_iff (text : List Char) : byteLength text = 0 ↔ text = [] := by
  cases text with
  | nil => simp
  | cons c text => have := c.utf8Size_pos; simp; omega

/-- The characters that separate tokens. -/
def isBlank (c : Char) : Bool :=
  c = ' ' || c = '\t' || c = '\r' || c = '\n'

/-- The blank characters that do not break a line. -/
def isHorizontal (c : Char) : Bool :=
  c = ' ' || c = '\t'

/-- The characters that break a line. -/
def isBreak (c : Char) : Bool :=
  c = '\r' || c = '\n'

theorem isBlank_eq_or (c : Char) : isBlank c = (isHorizontal c || isBreak c) := by
  simp [isBlank, isHorizontal, isBreak, Bool.or_assoc]

end Scenario
