import Scenario.Proofs.Lexing.Spacing

/-!
# Printing and lexing

Tokens are given by kind and value here. Which of them a script can hold is said by `Kind.Admits`;
a lexer yields no others, and all of these are read back from their printed form, in every dialect.
So printing what a lexer has yielded and lexing it again changes nothing but the spans.
-/

namespace Scenario
namespace Lexer

/-- A token that is scanned has a value of its kind. -/
theorem admits_of_scan {collapse : Bool} {c : Cursor} {t : Token}
    (h : (scan collapse c).1 = some (.token t)) : t.kind.Admits t.value := by
  revert h
  simp only [scan]
  split
  · simp
  split
  · simp
  rename_i l rest hs
  split
  · simp
  · intro h
    rw [Cursor.skipWhile_rest] at hs
    have hl := Lexeme.stands_of_split? hs (head?_dropWhile isBlank c.rest)
    exact Lexeme.admits_of_item hl (Option.some.inj h)

theorem admits_of_next {l : Lexer} {t : Token} (h : l.next.1 = some (.token t)) :
    t.kind.Admits t.value := by
  fun_induction next l with
  | case1 => simp at h
  | case2 l _ t' c hs _ ih => exact ih h
  | case3 l _ t' c hs _ =>
    cases h
    exact admits_of_scan (by rw [hs])
  | case4 => simp at h
  | case5 l hl o c ht he hs => cases o <;> simp_all

/-- Whatever state a lexer is in, the tokens that it still yields have values of their kinds. -/
theorem admits_of_mem_items {l : Lexer} {t : Token} (h : .token t ∈ l.items) :
    t.kind.Admits t.value := by
  fun_induction items l with
  | case1 l t' behind hn ih =>
    rcases List.mem_cons.1 h with ht | h
    · cases ht
      exact admits_of_next (by rw [hn])
    · exact ih h
  | case2 l item behind hitem hn =>
    obtain rfl := List.mem_singleton.1 h
    exact (hitem t rfl).elim
  | case3 => simp at h

/-- A lexer that keeps comments reads back what is printed. -/
theorem items_printAll {contents : List (Kind × String)}
    (ha : ∀ content ∈ contents, content.1.Admits content.2) {base : Nat} (d : Dialect)
    (hf : base + byteLength (Token.printAll contents) ≤ positionLimit) :
    ∃ tokens : List Token,
      (ofText (Token.printAll contents) base d).withComments.items = tokens.map .token ∧
      tokens.map Token.content = contents := by
  obtain ⟨tiles, tokens, ht, hi, hcontents⟩ := (Spaced.printAll contents).exists_tiling_keeping
    (fun content hmem => ⟨ha content hmem, .inl rfl⟩) base d.collapseStringWhitespace
  exact ⟨tokens, (@Tiling.items_eq base 0 _ tiles _ true ht hf).trans hi, hcontents⟩

end Lexer

namespace Token

/-- Contents of tokens are read back from their printed form. A lexer yields only such contents, so
what it makes of any source is read back from its printed form as well. -/
theorem lex_printAll (d : Dialect) (base : Nat) :
    (∀ contents : List (Kind × String), (∀ content ∈ contents, content.1.Admits content.2) →
      base + byteLength (printAll contents) ≤ positionLimit →
      ∃ tokens : List Token,
        (Lexer.ofText (printAll contents) base d).withComments.items = tokens.map .token ∧
        tokens.map content = contents) ∧
    (∀ (l : Lexer) (t : Token), .token t ∈ l.items → t.kind.Admits t.value) ∧
    ∀ (l : Lexer) (tokens : List Token), l.items = tokens.map .token →
      base + byteLength (printAll (tokens.map content)) ≤ positionLimit →
      ∃ again : List Token,
        (Lexer.ofText (printAll (tokens.map content)) base d).withComments.items =
          again.map .token ∧
        again.map content = tokens.map content := by
  refine ⟨fun contents ha hf => Lexer.items_printAll ha d hf,
    fun l t ht => Lexer.admits_of_mem_items ht, fun l tokens hl hf => ?_⟩
  refine Lexer.items_printAll (fun c hc => ?_) d hf
  obtain ⟨t, ht, rfl⟩ := List.mem_map.1 hc
  have hitem : .token t ∈ l.items := by
    rw [hl]
    exact List.mem_map_of_mem ht
  exact Lexer.admits_of_mem_items hitem

/-- A word with a brace in it, a comment, and a literal whose content needs every sort of escape;
and a source with a literal in which blanks collapse. -/
theorem lex_printAll_literal :
    let contents : List (Kind × String) :=
      [(.ident, "a\x7b"), (.comment, "b \""), (.str, "  \t\t\r\n \"\\")]
    (∀ content ∈ contents, content.1.Admits content.2) ∧
    3 + byteLength (printAll contents) ≤ positionLimit ∧
    (∃ tokens : List Token,
      (Lexer.ofText (printAll contents) 3 .standard).withComments.items = tokens.map .token ∧
      tokens.map content = contents) ∧
    ∃ again : List Token,
      (Lexer.ofText (printAll [(.str, "c d")]) 3 .standard).withComments.items =
        again.map .token ∧
      again.map content = [(.str, "c d")] := by
  intro contents
  have h := lex_printAll .standard 3
  have ha : ∀ content ∈ contents, content.1.Admits content.2 := by decide
  have hf : 3 + byteLength (printAll contents) ≤ positionLimit := by decide
  refine ⟨ha, hf, h.1 contents ha hf, ?_⟩
  exact h.2.2 (Lexer.ofString "\"c   d\"" 0 .standard) [⟨.str, "c d", ⟨0, 7⟩⟩]
    (by decide +kernel) (by decide)

end Token
end Scenario
