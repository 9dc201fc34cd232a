import Scenario.Proofs.Lexing.Collapse
import Scenario.Proofs.Lexing.Literals

/-!
# Progress of a lexer

A lexer may be called again and again. `Call` says what one call may come to, in terms of where the
lexer stands before and behind it: with every token and every error it has moved on, it is over only
where the source ends, and a position is refused only if it lies beyond the limit. Each call keeps
the lexer on its source (`Lexer.Walks.next`), so this holds of all calls.

Main statement: `Lexer.next_progress`. On a source that fits, the calls come to an end, at the end
of the source; on any other source there is no end, and no position is given beyond the limit.
-/

namespace Scenario
namespace Cursor

/-- The cursor stands on the source, whose first byte is at `base`. -/
structure WalksOver (source : List Char) (base : Nat) (c : Cursor) : Prop where
  base_eq : c.base = base
  exists_behind : ∃ behind, source = behind ++ c.rest ∧ c.offset = byteLength behind

variable {source : List Char} {base : Nat} {c : Cursor}

theorem walksOver_ofText (source : List Char) (base : Nat) :
    (ofText source base).WalksOver source base :=
  ⟨rfl, [], rfl, rfl⟩

theorem WalksOver.advance (h : c.WalksOver source base) (count : Nat) :
    (c.advance count).WalksOver source base := by
  obtain ⟨hbase, behind, hsource, hoffset⟩ := h
  refine ⟨hbase, behind ++ c.rest.take count, ?_, ?_⟩
  · rw [List.append_assoc, advance_rest, List.take_append_drop, hsource]
  · rw [byteLength_append, ← hoffset]
    rfl

theorem WalksOver.skipWhile (h : c.WalksOver source base) (p : Char → Bool) :
    (c.skipWhile p).WalksOver source base := by
  rw [skipWhile_eq_advance]
  exact h.advance _

theorem WalksOver.offset_add (h : c.WalksOver source base) :
    c.offset + byteLength c.rest = byteLength source := by
  obtain ⟨-, behind, rfl, hoffset⟩ := h
  rw [byteLength_append, hoffset]

theorem offset_advance (c : Cursor) (count : Nat) :
    (c.advance count).offset = c.offset + byteLength (c.rest.take count) := rfl

theorem offset_skipWhile_le (c : Cursor) (p : Char → Bool) :
    c.offset ≤ (c.skipWhile p).offset := by
  rw [skipWhile_eq_advance, offset_advance]
  omega

theorem position_eq_ok (h : c.base + c.offset ≤ positionLimit) :
    c.position = .ok (c.base + c.offset) := if_pos h

theorem position_eq_error (h : positionLimit < c.base + c.offset) :
    c.position = .error .position := if_neg (by omega)

end Cursor

/-- What a call may come to that moves the cursor from `c` to `c'`. -/
inductive Call (source : List Char) (base : Nat) (c c' : Cursor) : Option Item → Prop
  | token {t : Token} : c.offset < c'.offset → base + c'.offset ≤ positionLimit →
      Call source base c c' (some (.token t))
  /-- The source ends in a literal. -/
  | broken {before text : List Char} : c.offset < c'.offset → c'.rest = [] →
      base + c'.offset ≤ positionLimit → source = before ++ '"' :: text →
      Element.splitBody text = none →
      Call source base c c' (some (.error ⟨.unterminatedLiteral,
        ⟨base + byteLength before, byteLength ('"' :: text)⟩⟩))
  | ended : c'.rest = [] → base + c'.offset ≤ positionLimit → Call source base c c' none
  /-- A position is asked for that lies beyond the limit. -/
  | beyond : positionLimit < base + c'.offset →
      Call source base c c' (some (.fault .position))

theorem Call.mono {source : List Char} {base : Nat} {b c c' : Cursor} {item : Option Item}
    (hle : b.offset ≤ c.offset) (h : Call source base c c' item) : Call source base b c' item := by
  cases h with
  | token hlt hf => exact .token (by omega) hf
  | broken hlt hrest hf hsource hs => exact .broken (by omega) hrest hf hsource hs
  | ended hrest hf => exact .ended hrest hf
  | beyond hf => exact .beyond hf

namespace Lexer

variable {source : List Char} {base : Nat}

/-- What is found at the next lexeme, when its position has been given. -/
theorem call_lexeme {c : Cursor} {l : Lexeme} {rest : List Char} (h : c.WalksOver source base)
    (hs : Lexeme.split? c.rest = some (l, rest)) (hblank : ∀ a ∈ c.rest.head?, isBlank a = false)
    (hf : base + (c.advance l.source.length).offset ≤ positionLimit) (collapse : Bool) :
    Call source base c (c.advance l.source.length)
      (some (l.item collapse ⟨base + c.offset, byteLength l.source⟩)) := by
  have hrest := Lexeme.split?_eq_some hs
  have hstands := Lexeme.stands_of_split? hs hblank
  have hlt : c.offset < (c.advance l.source.length).offset := by
    have hne : byteLength l.source ≠ 0 := fun h0 =>
      Lexeme.source_ne_nil_of_split? hs ((byteLength_eq_zero_iff _).1 h0)
    rw [Cursor.offset_advance, hrest, List.take_left]
    omega
  rcases l.item_cases collapse ⟨base + c.offset, byteLength l.source⟩ with
    ⟨t, hitem, -⟩ | ⟨hitem, text, rfl⟩
  · rw [hitem]
    exact .token hlt hf
  · obtain ⟨hnone, rfl⟩ := hstands
    obtain ⟨-, behind, hsource, hoffset⟩ := h
    rw [hrest, List.append_nil] at hsource
    rw [hitem, hoffset]
    exact .broken hlt (by simp [hrest]) hf hsource hnone

theorem call_scan {c : Cursor} (h : c.WalksOver source base) (collapse : Bool) :
    (scan collapse c).2.WalksOver source base ∧ c.offset ≤ (scan collapse c).2.offset ∧
      Call source base c (scan collapse c).2 (scan collapse c).1 := by
  have hskip : (c.skipWhile isBlank).WalksOver source base := h.skipWhile isBlank
  have hle : c.offset ≤ (c.skipWhile isBlank).offset := c.offset_skipWhile_le isBlank
  have hblank : ∀ a ∈ (c.skipWhile isBlank).rest.head?, isBlank a = false := by
    rw [Cursor.skipWhile_rest]
    exact head?_dropWhile isBlank c.rest
  unfold scan
  generalize c.skipWhile isBlank = s at hskip hle hblank
  dsimp only
  by_cases hs : s.base + s.offset ≤ positionLimit
  · rw [Cursor.position_eq_ok hs, hskip.base_eq]
    dsimp only
    cases hsplit : Lexeme.split? s.rest with
    | none =>
      have hrest := (Lexeme.split?_eq_none_iff _).1 hsplit
      exact ⟨hskip, hle, .ended hrest (hskip.base_eq ▸ hs)⟩
    | some found =>
      obtain ⟨l, rest⟩ := found
      dsimp only
      have hbehind : (s.advance l.source.length).WalksOver source base := hskip.advance _
      have hadvance : (s.advance l.source.length).offset = s.offset + byteLength l.source := by
        rw [Cursor.offset_advance, Lexeme.split?_eq_some hsplit, List.take_left]
      by_cases hf : base + (s.advance l.source.length).offset ≤ positionLimit
      · have hcall := call_lexeme hskip hsplit hblank hf collapse
        have hlen : base + (s.advance l.source.length).offset - (base + s.offset) =
            byteLength l.source := by omega
        rw [Cursor.position_eq_ok (hbehind.base_eq.symm ▸ hf), hbehind.base_eq]
        dsimp only
        rw [hlen]
        exact ⟨hbehind, by omega, hcall.mono hle⟩
      · rw [Cursor.position_eq_error (hbehind.base_eq.symm ▸ Nat.lt_of_not_le hf)]
        exact ⟨hbehind, by dsimp only; omega, .beyond (Nat.lt_of_not_le hf)⟩
  · rw [Cursor.position_eq_error (Nat.lt_of_not_le hs)]
    exact ⟨hskip, hle, .beyond (hskip.base_eq ▸ Nat.lt_of_not_le hs)⟩

/-- The lexer stands on the source. Once it has yielded an error, nothing of the source is left. -/
structure Walks (source : List Char) (base : Nat) (l : Lexer) : Prop where
  cursor : l.cursor.WalksOver source base
  halted : l.halted = true → l.cursor.rest = [] ∧ base + l.cursor.offset ≤ positionLimit

variable {l : Lexer}

/-- A call keeps the lexer on its source, and comes to what a call may come to. -/
theorem Walks.next (h : l.Walks source base) :
    l.next.2.Walks source base ∧ l.cursor.offset ≤ l.next.2.cursor.offset ∧
      Call source base l.cursor l.next.2.cursor l.next.1 := by
  -- Comments that are not kept are passed over in one call, so the induction is on the calls of
  -- `next` to itself.
  fun_induction Lexer.next l with
  | case1 l hhalted =>
    obtain ⟨hrest, hf⟩ := h.halted hhalted
    exact ⟨h, Nat.le_refl _, .ended hrest hf⟩
  | case2 l hl t c hs hc ih =>
    obtain ⟨hwalks, hle, -⟩ := hs ▸ call_scan h.cursor l.collapse
    obtain ⟨hnext, hle', hcall⟩ := ih ⟨hwalks, fun hh => (hl hh).elim⟩
    exact ⟨hnext, Nat.le_trans hle hle', hcall.mono hle⟩
  | case3 l hl t c hs hc =>
    obtain ⟨hwalks, hle, hcall⟩ := hs ▸ call_scan h.cursor l.collapse
    exact ⟨⟨hwalks, fun hh => (hl hh).elim⟩, hle, hcall⟩
  | case4 l hl e c hs =>
    obtain ⟨hwalks, hle, hcall⟩ := hs ▸ call_scan h.cursor l.collapse
    refine ⟨⟨hwalks, fun _ => ?_⟩, hle, hcall⟩
    cases hcall with
    | broken _ hrest hf _ _ => exact ⟨hrest, hf⟩
  | case5 l hl item c ht he hs =>
    obtain ⟨hwalks, hle, hcall⟩ := hs ▸ call_scan h.cursor l.collapse
    exact ⟨⟨hwalks, fun hh => (hl hh).elim⟩, hle, hcall⟩

theorem after_succ (l : Lexer) (n : Nat) : l.after (n + 1) = (l.after n).next.2 := by
  induction n generalizing l with
  | zero => rfl
  | succ n ih => exact ih l.next.2

theorem Walks.after (h : l.Walks source base) (n : Nat) : (l.after n).Walks source base := by
  induction n with
  | zero => exact h
  | succ n ih =>
    rw [after_succ]
    exact ih.next.1

/-- There are no more tokens than characters, so some call yields none. -/
theorem exists_stop (l : Lexer) :
    ∃ k ≤ l.cursor.rest.length, (∀ i < k, ∃ t, (l.after i).next.1 = some (.token t)) ∧
      ∀ t, (l.after k).next.1 ≠ some (.token t) := by
  induction hn : l.cursor.rest.length using Nat.strongRecOn generalizing l with
  | ind n ih =>
    by_cases h : ∃ t, l.next.1 = some (.token t)
    · obtain ⟨t, ht⟩ := h
      have hlt := next_length_lt ht
      obtain ⟨k, hk, htokens, hstop⟩ := ih _ (hn ▸ hlt) l.next.2 rfl
      refine ⟨k + 1, by omega, fun i hi => ?_, hstop⟩
      cases i with
      | zero => exact ⟨t, ht⟩
      | succ i => exact htokens i (by omega)
    · exact ⟨0, Nat.zero_le _, by simp, fun t ht => h ⟨t, ht⟩⟩

theorem Walks.position_eq (h : l.Walks source base)
    (hf : base + byteLength source ≤ positionLimit) :
    l.position = .ok (base + l.cursor.offset) := by
  have hoffset := h.cursor.offset_add
  rw [← h.cursor.base_eq] at hf ⊢
  exact Cursor.position_eq_ok (by omega)

/-- Where nothing is left of a source that fits, nothing is yielded. -/
theorem Walks.next_of_rest_nil (h : l.Walks source base)
    (hf : base + byteLength source ≤ positionLimit) (hrest : l.cursor.rest = []) :
    l.next.1 = none ∧ l.next.2.cursor.rest = [] := by
  obtain ⟨hnext, -, hcall⟩ := h.next
  have hoffset := h.cursor.offset_add
  have hoffset' := hnext.cursor.offset_add
  rw [hrest, byteLength_nil] at hoffset
  generalize hitem : l.next.1 = item at hcall
  cases hcall with
  | token hlt _ => omega
  | broken hlt _ _ _ _ => omega
  | ended hrest' _ => exact ⟨rfl, hrest'⟩
  | beyond hb => omega

/-- Behind a call that yields no token nothing is left of a source that fits. -/
theorem Walks.rest_after_stop (h : l.Walks source base)
    (hf : base + byteLength source ≤ positionLimit) {k : Nat}
    (hk : ∀ t, (l.after k).next.1 ≠ some (.token t)) {n : Nat} (hn : k < n) :
    (l.after n).cursor.rest = [] := by
  induction n, hn using Nat.le_induction with
  | base =>
    obtain ⟨hnext, -, hcall⟩ := (h.after k).next
    have hoffset := hnext.cursor.offset_add
    rw [after_succ]
    generalize hitem : (l.after k).next.1 = item at hcall hk
    cases hcall with
    | @token t _ _ => exact (hk t rfl).elim
    | broken _ hrest _ _ _ => exact hrest
    | ended hrest _ => exact hrest
    | beyond hb => omega
  | succ n _ ih =>
    rw [after_succ]
    exact ((h.after n).next_of_rest_nil hf ih).2

/-- Beyond the limit all calls end in a fault. -/
theorem Walks.next_of_beyond (h : l.Walks source base)
    (hb : positionLimit < base + l.cursor.offset) :
    l.next.1 = some (.fault .position) ∧ positionLimit < base + l.next.2.cursor.offset := by
  obtain ⟨-, hle, hcall⟩ := h.next
  generalize hitem : l.next.1 = item at hcall
  cases hcall with
  | token _ hf => omega
  | broken _ _ hf _ _ => omega
  | ended _ hf => omega
  | beyond hb' => exact ⟨rfl, hb'⟩

/-- On a source that does not fit, a call that yields no token ends in a fault, beyond the limit. -/
theorem Walks.next_of_not_fits (h : l.Walks source base)
    (hf : positionLimit < base + byteLength source)
    (hk : ∀ t, l.next.1 ≠ some (.token t)) :
    l.next.1 = some (.fault .position) ∧ positionLimit < base + l.next.2.cursor.offset := by
  obtain ⟨hnext, -, hcall⟩ := h.next
  have hoffset := hnext.cursor.offset_add
  have hend : l.next.2.cursor.rest = [] → positionLimit < base + l.next.2.cursor.offset := by
    intro hrest
    rw [hrest, byteLength_nil] at hoffset
    omega
  generalize hitem : l.next.1 = item at hcall hk
  cases hcall with
  | @token t _ _ => exact (hk t rfl).elim
  | broken _ hrest hf' _ _ => exact absurd (hend hrest) (by omega)
  | ended hrest hf' => exact absurd (hend hrest) (by omega)
  | beyond hb => exact ⟨rfl, hb⟩

theorem Walks.next_after_fault (h : l.Walks source base)
    (hf : positionLimit < base + byteLength source) {k : Nat}
    (hk : ∀ t, (l.after k).next.1 ≠ some (.token t)) {n : Nat} (hn : k ≤ n) :
    (l.after n).next.1 = some (.fault .position) ∧
      positionLimit < base + (l.after n).next.2.cursor.offset := by
  induction n, hn using Nat.le_induction with
  | base => exact (h.after k).next_of_not_fits hf hk
  | succ n _ ih =>
    refine (h.after (n + 1)).next_of_beyond ?_
    rw [after_succ]
    exact ih.2

/-- A lexer makes progress with every call, and ends only where its source does.

On a source that fits no call ends in a fault, and each token moves the position on. There are at
most as many tokens as characters; then a call finds the end of the source, or a literal that goes
on to it. From there on the position is that of the end, and all calls yield nothing.

On a source that does not fit no call ever finds the end or an error. Behind at most as many tokens
as there are characters, all calls end in the fault of a position. -/
theorem next_progress (source : String) (base : Nat) (d : Dialect) (keep : Bool) :
    let l : Lexer := { ofString source base d with keepComments := keep }
    (base + byteLength source.toList ≤ positionLimit →
      (∀ n f, (l.after n).next.1 ≠ some (.fault f)) ∧
      (∀ n t, (l.after n).next.1 = some (.token t) →
        ∃ p q, (l.after n).position = .ok p ∧ (l.after (n + 1)).position = .ok q ∧ p < q) ∧
      ∃ k ≤ source.toList.length, (∀ i < k, ∃ t, (l.after i).next.1 = some (.token t)) ∧
        ((l.after k).next.1 = none ∨
          ∃ before text, source.toList = before ++ '"' :: text ∧
            .plain '"' ∉ Element.readAll text ∧
            (l.after k).next.1 = some (.error ⟨.unterminatedLiteral,
              ⟨base + byteLength before, byteLength ('"' :: text)⟩⟩)) ∧
        ∀ n, k < n → (l.after n).next.1 = none ∧
          (l.after n).position = .ok (base + byteLength source.toList)) ∧
    (positionLimit < base + byteLength source.toList →
      ∃ k ≤ source.toList.length, (∀ i < k, ∃ t, (l.after i).next.1 = some (.token t)) ∧
        ∀ n, k ≤ n → (l.after n).next.1 = some (.fault .position)) := by
  intro l
  have hl : l.Walks source.toList base :=
    ⟨Cursor.walksOver_ofText source.toList base, fun h => by cases h⟩
  obtain ⟨k, hk, htokens, hstop⟩ := l.exists_stop
  refine ⟨fun hf => ⟨fun n f hfault => ?_, fun n t ht => ?_, k, hk, htokens, ?_, fun n hn => ?_⟩,
    fun hf => ⟨k, hk, htokens, fun n hn => (hl.next_after_fault hf hstop hn).1⟩⟩
  · obtain ⟨hnext, -, hcall⟩ := (hl.after n).next
    have hoffset := hnext.cursor.offset_add
    rw [hfault] at hcall
    cases hcall with
    | beyond hb => omega
  · obtain ⟨hnext, -, hcall⟩ := (hl.after n).next
    have hpos := (hl.after n).position_eq hf
    have hpos' := hnext.position_eq hf
    rw [ht] at hcall
    rw [after_succ]
    cases hcall with
    | token hlt _ => exact ⟨_, _, hpos, hpos', by omega⟩
  · obtain ⟨hnext, -, hcall⟩ := (hl.after k).next
    have hoffset := hnext.cursor.offset_add
    generalize (l.after k).next.1 = item at hcall hstop
    cases hcall with
    | @token t _ _ => exact (hstop t rfl).elim
    | broken _ _ _ hsource hs =>
      exact .inr ⟨_, _, hsource, Element.not_mem_readAll_of_splitBody hs, rfl⟩
    | ended _ _ => exact .inl rfl
    | beyond hb => omega
  · have hrest := hl.rest_after_stop hf hstop hn
    have hoffset := (hl.after n).cursor.offset_add
    rw [hrest, byteLength_nil, Nat.add_zero] at hoffset
    refine ⟨((hl.after n).next_of_rest_nil hf hrest).1, ?_⟩
    rw [(hl.after n).position_eq hf, hoffset]

/-- A literal without an end that reaches up to the limit, with a character of three bytes in it;
and the same source one byte further, where it reaches beyond. -/
theorem next_progress_unterminated :
    (∃ k ≤ 4, (∀ i < k, ∃ t, ((ofString "a \"ツ" 0xfffffff9 .standard).after i).next.1 =
        some (.token t)) ∧
      ∀ n, k < n → ((ofString "a \"ツ" 0xfffffff9 .standard).after n).next.1 = none ∧
        ((ofString "a \"ツ" 0xfffffff9 .standard).after n).position = .ok 0xffffffff) ∧
    ∃ k ≤ 4, (∀ i < k, ∃ t, ((ofString "a \"ツ" 0xfffffffa .standard).after i).next.1 =
        some (.token t)) ∧
      ∀ n, k ≤ n → ((ofString "a \"ツ" 0xfffffffa .standard).after n).next.1 =
        some (.fault .position) := by
  constructor
  · obtain ⟨-, -, k, hk, htokens, -, hend⟩ :=
      (next_progress "a \"ツ" 0xfffffff9 .standard false).1 (by decide)
    exact ⟨k, hk, htokens, hend⟩
  · exact (next_progress "a \"ツ" 0xfffffffa .standard false).2 (by decide)

end Lexer
end Scenario
