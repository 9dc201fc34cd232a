import Scenario.Dialect
import Scenario.Token.Lexeme

/-!
# Lexers

A lexer yields the items of a source one by one. Blanks separate tokens and are skipped; comments
are skipped as well, unless the lexer keeps them. After an error it yields nothing more.

The position of a lexer is asked for in front of every lexeme, also when none is left, and again
behind it. A source that reaches beyond `positionLimit` therefore ends in a fault, never in silence.
-/

namespace Scenario

structure Lexer where
  cursor : Cursor
  collapse : Bool
  keepComments : Bool
  /-- An error has been yielded. -/
  halted : Bool
deriving DecidableEq, Repr

namespace Lexer

def ofText (source : List Char) (base : Nat) (dialect : Dialect) : Lexer :=
  ⟨.ofText source base, dialect.collapseStringWhitespace, false, false⟩

def ofString (source : String) (base : Nat) (dialect : Dialect) : Lexer :=
  ofText source.toList base dialect

def withComments (l : Lexer) : Lexer := { l with keepComments := true }

def position (l : Lexer) : Except Fault Nat := l.cursor.position

/-- The item at the next lexeme, or `none` at the end of the source, and the cursor behind it. -/
def scan (collapse : Bool) (c : Cursor) : Option Item × Cursor :=
  let c := c.skipWhile isBlank
  match c.position with
  | .error fault => (some (.fault fault), c)
  | .ok start =>
    match Lexeme.split? c.rest with
    | none => (none, c)
    | some (lexeme, _) =>
      let behind := c.advance lexeme.source.length
      match behind.position with
      | .error fault => (some (.fault fault), behind)
      | .ok stop => (some (lexeme.item collapse ⟨start, stop - start⟩), behind)

theorem scan_length_lt {collapse : Bool} {c : Cursor} {t : Token}
    (h : (scan collapse c).1 = some (.token t)) :
    (scan collapse c).2.rest.length < c.rest.length := by
  revert h
  simp only [scan]
  split
  · simp
  split
  · simp
  rename_i hs
  have hlt := Lexeme.length_lt_of_split? hs
  have hd : (List.dropWhile isBlank c.rest).length ≤ c.rest.length := by
    exact (List.dropWhile_sublist _).length_le
  have ht := Lexeme.split?_eq_some hs
  simp only [Cursor.skipWhile_rest] at hlt ht
  split
  · simp
  · simp only [Cursor.advance_rest, Cursor.skipWhile_rest, ht, List.drop_left]
    intro
    omega

/-- The next item, or `none` once the lexer is done, and the lexer behind it. -/
def next (l : Lexer) : Option Item × Lexer :=
  if l.halted then (none, l)
  else
    match _h : scan l.collapse l.cursor with
    | (some (.token t), cursor) =>
      if t.kind = .comment && !l.keepComments then next { l with cursor := cursor }
      else (some (.token t), { l with cursor := cursor })
    | (some (.error e), cursor) => (some (.error e), { l with cursor := cursor, halted := true })
    | (outcome, cursor) => (outcome, { l with cursor := cursor })
termination_by l.cursor.rest.length
decreasing_by
  have := @scan_length_lt l.collapse l.cursor t (by rw [_h])
  simpa [_h] using this

theorem next_of_halted {l : Lexer} (h : l.halted = true) : l.next = (none, l) := by
  rw [next, if_pos h]

theorem next_of_scan_token {l : Lexer} {t : Token} {c : Cursor} (hl : l.halted = false)
    (h : scan l.collapse l.cursor = (some (.token t), c)) :
    l.next = if t.kind = .comment && !l.keepComments then next { l with cursor := c }
      else (some (.token t), { l with cursor := c }) := by
  rw [next, if_neg (by simp [hl])]
  split <;> simp_all

theorem next_of_scan_error {l : Lexer} {e : LexicalError} {c : Cursor} (hl : l.halted = false)
    (h : scan l.collapse l.cursor = (some (.error e), c)) :
    l.next = (some (.error e), { l with cursor := c, halted := true }) := by
  rw [next, if_neg (by simp [hl])]
  split <;> simp_all

theorem next_of_scan_fault {l : Lexer} {f : Fault} {c : Cursor} (hl : l.halted = false)
    (h : scan l.collapse l.cursor = (some (.fault f), c)) :
    l.next = (some (.fault f), { l with cursor := c }) := by
  rw [next, if_neg (by simp [hl])]
  split <;> simp_all

theorem next_of_scan_none {l : Lexer} {c : Cursor} (hl : l.halted = false)
    (h : scan l.collapse l.cursor = (none, c)) : l.next = (none, { l with cursor := c }) := by
  rw [next, if_neg (by simp [hl])]
  split <;> simp_all

theorem next_length_lt {l : Lexer} {t : Token} (h : l.next.1 = some (.token t)) :
    l.next.2.cursor.rest.length < l.cursor.rest.length := by
  fun_induction next l with
  | case1 => simp at h
  | case2 l hl t' c hs hc ih =>
    have := scan_length_lt (c := l.cursor) (by rw [hs])
    rw [hs] at this
    exact Nat.lt_trans (ih h) this
  | case3 l hl t' c hs hc =>
    have := scan_length_lt (c := l.cursor) (by rw [hs])
    rwa [hs] at this
  | case4 => simp at h
  | case5 l hl o c ht he hs => cases o <;> simp_all

/-- All items that the lexer still yields. A fault ends them. -/
def items (l : Lexer) : List Item :=
  match _h : l.next with
  | (some (.token t), behind) => .token t :: items behind
  | (some item, _) => [item]
  | (none, _) => []
termination_by l.cursor.rest.length
decreasing_by
  have := next_length_lt (l := l) (t := t) (by rw [_h])
  simpa [_h] using this

theorem items_of_next_token {l behind : Lexer} {t : Token}
    (h : l.next = (some (.token t), behind)) : l.items = .token t :: behind.items := by
  rw [items]
  split <;> simp_all

theorem items_of_next_error {l behind : Lexer} {e : LexicalError}
    (h : l.next = (some (.error e), behind)) : l.items = [.error e] := by
  rw [items]
  split <;> simp_all

theorem items_of_next_fault {l behind : Lexer} {f : Fault}
    (h : l.next = (some (.fault f), behind)) : l.items = [.fault f] := by
  rw [items]
  split <;> simp_all

theorem items_of_next_none {l behind : Lexer} (h : l.next = (none, behind)) : l.items = [] := by
  rw [items]
  split <;> simp_all

end Lexer
end Scenario
