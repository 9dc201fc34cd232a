import Mathlib.Data.List.Forall2
import Scenario.Token.Lexer

/-!
# Collapsing blanks

Whether blanks collapse in string literals is a matter of their contents only. Two lexers that
differ in it walk over the source in the same steps, since a literal ends where its elements end,
and these are the same. They yield the same items, but for the values of literals: where blanks
collapse, some of them are left out.

Main statements: a step of two such lexers (`Lexer.Collapsed.next`), and all of their items
(`Lexer.Collapsed.items`).
-/

namespace Scenario

/-- The second text is what is left of the first one when some spaces and tabs are left out. -/
inductive BlanksDropped : List Char → List Char → Prop
  | nil : BlanksDropped [] []
  | keep {c : Char} {text text' : List Char} :
      BlanksDropped text text' → BlanksDropped (c :: text) (c :: text')
  | drop {c : Char} {text text' : List Char} :
      c = ' ' ∨ c = '\t' → BlanksDropped text text' → BlanksDropped (c :: text) text'

/-- Blanks that do not collapse are all kept, so at each element there is at most a blank less. -/
theorem Element.blanksDropped_decodeFrom (inRun : Bool) (body : List Element) :
    BlanksDropped (decodeFrom false false body) (decodeFrom true inRun body) := by
  induction body generalizing inRun with
  | nil => exact .nil
  | cons e body ih =>
    cases e with
    | escaped c => exact .keep (ih false)
    | plain c =>
      by_cases hr : c = '\r'
      · simpa only [decodeFrom, if_pos hr] using ih false
      · simp only [decodeFrom, if_neg hr, Bool.false_and, Bool.true_and, Bool.false_eq_true,
          if_false]
        split
        · rename_i hblank
          have hc : c = ' ' ∨ c = '\t' := by
            simpa [isHorizontal] using (Bool.and_eq_true_iff.1 hblank).2
          exact .drop hc (ih true)
        · exact .keep (ih _)

/-- The second token is the first one when blanks collapse. -/
structure Token.Collapsed (t t' : Token) : Prop where
  kind_eq : t'.kind = t.kind
  span_eq : t'.span = t.span
  value_eq : t.kind ≠ .str → t'.value = t.value
  dropped : t.kind = .str → BlanksDropped t.value.toList t'.value.toList

/-- The second item is the first one when blanks collapse. -/
inductive Item.Collapsed : Item → Item → Prop
  | token {t t' : Token} : t.Collapsed t' → Collapsed (.token t) (.token t')
  | error (e : LexicalError) : Collapsed (.error e) (.error e)
  | fault (f : Fault) : Collapsed (.fault f) (.fault f)

theorem Token.collapsed_of_kind_ne {t : Token} (h : t.kind ≠ .str) : t.Collapsed t :=
  ⟨rfl, rfl, fun _ => rfl, fun hk => (h hk).elim⟩

theorem Lexeme.collapsed_item (l : Lexeme) (span : Span) :
    (l.item false span).Collapsed (l.item true span) := by
  cases l with
  | comment margin text => exact .token (Token.collapsed_of_kind_ne (by simp))
  | literal body =>
    refine .token ⟨rfl, rfl, fun hk => (hk rfl).elim, fun _ => ?_⟩
    simpa [Element.decode] using Element.blanksDropped_decodeFrom false body
  | unterminated text => exact .error _
  | openBrace => exact .token (Token.collapsed_of_kind_ne (by simp))
  | closeBrace => exact .token (Token.collapsed_of_kind_ne (by simp))
  | word text =>
    refine .token (Token.collapsed_of_kind_ne ?_)
    cases hk : Keyword.identify (String.ofList text) <;> simp

namespace Lexer

/-- The second lexer is the first one when blanks collapse. -/
structure Collapsed (l l' : Lexer) : Prop where
  cursor_eq : l'.cursor = l.cursor
  collapse : l.collapse = false ∧ l'.collapse = true
  keepComments_eq : l'.keepComments = l.keepComments
  halted_eq : l'.halted = l.halted

theorem scan_collapsed (c : Cursor) :
    Option.Rel Item.Collapsed (scan false c).1 (scan true c).1 ∧
      (scan true c).2 = (scan false c).2 := by
  unfold scan
  dsimp only
  split
  · exact ⟨.some (.fault _), rfl⟩
  split
  · exact ⟨.none, rfl⟩
  split
  · exact ⟨.some (.fault _), rfl⟩
  · exact ⟨.some (Lexeme.collapsed_item _ _), rfl⟩

variable {l l' : Lexer}

theorem Collapsed.move (h : l.Collapsed l') (c : Cursor) :
    ({ l with cursor := c } : Lexer).Collapsed { l' with cursor := c } :=
  ⟨rfl, h.collapse, h.keepComments_eq, h.halted_eq⟩

theorem Collapsed.halt (h : l.Collapsed l') (c : Cursor) :
    ({ l with cursor := c, halted := true } : Lexer).Collapsed
      { l' with cursor := c, halted := true } :=
  ⟨rfl, h.collapse, h.keepComments_eq, rfl⟩

/-- A step of each lexer. They meet again behind the item. -/
theorem Collapsed.next (h : l.Collapsed l') :
    Option.Rel Item.Collapsed l.next.1 l'.next.1 ∧ l.next.2.Collapsed l'.next.2 := by
  -- The induction is on the text, since comments that are not kept are passed over.
  induction hn : l.cursor.rest.length using Nat.strongRecOn generalizing l l' with
  | ind n ih =>
    by_cases hhalted : l.halted = true
    · rw [next_of_halted hhalted, next_of_halted (h.halted_eq.trans hhalted)]
      exact ⟨.none, h⟩
    have hl : l.halted = false := by simpa using hhalted
    have hl' : l'.halted = false := h.halted_eq.trans hl
    obtain ⟨hitem, hcursor⟩ := scan_collapsed l.cursor
    rcases hs : scan false l.cursor with ⟨found, c⟩
    rcases hs' : scan true l.cursor with ⟨found', c'⟩
    rw [hs, hs'] at hitem hcursor
    obtain rfl : c' = c := hcursor
    rw [← h.collapse.1] at hs
    rw [← h.collapse.2, ← h.cursor_eq] at hs'
    cases hitem with
    | none =>
      rw [next_of_scan_none hl hs, next_of_scan_none hl' hs']
      exact ⟨.none, h.move c'⟩
    | some hitem =>
      cases hitem with
      | error e =>
        rw [next_of_scan_error hl hs, next_of_scan_error hl' hs']
        exact ⟨.some (.error e), h.halt c'⟩
      | fault f =>
        rw [next_of_scan_fault hl hs, next_of_scan_fault hl' hs']
        exact ⟨.some (.fault f), h.move c'⟩
      | @token t t' ht =>
        have hlt : c'.rest.length < l.cursor.rest.length := by
          have := scan_length_lt (c := l.cursor) (by rw [hs])
          rwa [hs] at this
        have hskip : (t'.kind = .comment && !l'.keepComments) =
            (t.kind = .comment && !l.keepComments) := by
          rw [ht.kind_eq, h.keepComments_eq]
        rw [next_of_scan_token hl hs, next_of_scan_token hl' hs', hskip]
        split
        · exact ih _ (hn ▸ hlt) (h.move c') rfl
        · exact ⟨.some (.token ht), h.move c'⟩

/-- The lexer behind some calls. -/
def after (l : Lexer) : Nat → Lexer
  | 0 => l
  | n + 1 => l.next.2.after n

theorem Collapsed.after (h : l.Collapsed l') (n : Nat) : (l.after n).Collapsed (l'.after n) := by
  induction n generalizing l l' with
  | zero => exact h
  | succ n ih => exact ih h.next.2

theorem Collapsed.position_eq (h : l.Collapsed l') : l'.position = l.position := by
  rw [position, position, h.cursor_eq]

theorem Collapsed.items (h : l.Collapsed l') : List.Forall₂ Item.Collapsed l.items l'.items := by
  induction hn : l.cursor.rest.length using Nat.strongRecOn generalizing l l' with
  | ind n ih =>
    obtain ⟨hitem, hbehind⟩ := h.next
    rcases hs : l.next with ⟨found, behind⟩
    rcases hs' : l'.next with ⟨found', behind'⟩
    rw [hs, hs'] at hitem hbehind
    cases hitem with
    | none =>
      rw [items_of_next_none hs, items_of_next_none hs']
      exact .nil
    | some hitem =>
      cases hitem with
      | error e =>
        rw [items_of_next_error hs, items_of_next_error hs']
        exact .cons (.error e) .nil
      | fault f =>
        rw [items_of_next_fault hs, items_of_next_fault hs']
        exact .cons (.fault f) .nil
      | @token t t' ht =>
        have hlt : behind.cursor.rest.length < l.cursor.rest.length := by
          have := next_length_lt (l := l) (t := t) (by rw [hs])
          rwa [hs] at this
        rw [items_of_next_token hs, items_of_next_token hs']
        exact .cons (.token ht) (ih _ (hn ▸ hlt) hbehind rfl)

end Lexer
end Scenario
