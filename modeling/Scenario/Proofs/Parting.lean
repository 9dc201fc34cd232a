import Scenario.Proofs.Passing

/-!
# Where two runs part

Two machines over the same states run alike as long as they give the same answer to each token that
they find. So if their runs differ, they part somewhere: up to some place both have raised the same
issues and have come to the same state, and there they find a token to which they give different
answers (`Machine.run_eq_or_parts`). What comes out of each run is then known from its answer.

The end of the input counts as a token that is found.
-/

namespace Scenario

/-- The next token of a stream that a machine does anything about, when the stream is read behind a
token at `last`. It stands for the end of the input if that comes next. -/
inductive Item.Finds (last : Span) : List Item → Token → Prop
  | nil {stop : Span} : last.shrinkToEnd = .ok stop → Finds last [] (.eof stop)
  | comment {t found : Token} {rest : List Item} :
      t.kind = .comment → Finds last rest found → Finds last (.token t :: rest) found
  | eof {t : Token} {rest : List Item} :
      t.kind = .eof → Finds last (.token t :: rest) (.eof t.span)
  | plain {t : Token} {rest : List Item} : t.IsPlain → Finds last (.token t :: rest) t

theorem Item.Finds.eof_or_plain {last : Span} {items : List Item} {found : Token}
    (h : Finds last items found) : (∃ stop, found = .eof stop) ∨ found.IsPlain := by
  induction h with
  | nil _ => exact .inl ⟨_, rfl⟩
  | comment _ _ ih => exact ih
  | eof _ => exact .inl ⟨_, rfl⟩
  | plain ht => exact .inr ht

theorem Item.Finds.mem_of_ne_eof {last : Span} {items : List Item} {found : Token}
    (h : Finds last items found) (hk : found.kind ≠ .eof) : .token found ∈ items := by
  induction h with
  | nil _ => exact (hk rfl).elim
  | comment _ _ ih => exact List.mem_cons_of_mem _ (ih hk)
  | eof _ => exact (hk rfl).elim
  | plain _ => exact List.mem_cons_self

namespace Machine

variable {σ α : Type}

/-- What a machine does about a token that it finds, where the end of the input is one. -/
def answer (m : Machine σ α) (s : σ) (found : Token) : Verdict (Turn (Verdict σ) α) :=
  if found.kind = .eof then .done <$> m.finish s found.span else m.step s found

/-- Reading the items raises the issues, and leads to the state `s`, with the last token at
`last`. -/
def Arrives (m : Machine σ α) (w : Wait σ) (front : List Item) (issues : List Issue) (last : Span)
    (s : σ) : Prop :=
  ∃ is js, m.pass w front = ⟨is, .ok (.more ⟨last, ⟨js, .ok s⟩⟩)⟩ ∧ issues = is ++ js

/-- Reading the items leads to the state `s`, where the issues have been raised and the token is
found. -/
def Finds (m : Machine σ α) (w : Wait σ) (items : List Item) (issues : List Issue) (s : σ)
    (found : Token) : Prop :=
  ∃ front rest last, items = front ++ rest ∧ m.Arrives w front issues last s ∧
    Item.Finds last rest found

variable {m m' : Machine σ α} {w : Wait σ} {front rest items : List Item} {issues is : List Issue}
  {last : Span} {s : σ} {t found : Token}

@[simp] theorem answer_eof (stop : Span) : m.answer s (.eof stop) = .done <$> m.finish s stop := rfl

theorem answer_plain (h : t.IsPlain) : m.answer s t = m.step s t := if_neg h.2

theorem finish_eq_of_answer {stop : Span} (h : m.answer s (.eof stop) = m'.answer s (.eof stop)) :
    m.finish s stop = m'.finish s stop := by
  rw [answer_eof, answer_eof] at h
  rcases hv : m.finish s stop with ⟨is, e | value⟩
  · have hfail := Verdict.map_eq_error_iff.1 (h ▸ Verdict.map_eq_error_iff.2 hv)
    exact hfail.symm
  · have hdone : m'.finish s stop = ⟨is, .ok value⟩ := by
      obtain ⟨v, hv', hturn⟩ := Verdict.map_eq_ok_iff.1 (h ▸ Verdict.map_eq_ok_iff.2 ⟨_, hv, rfl⟩)
      cases hturn
      exact hv'
    exact hdone.symm

theorem finds_of_settled (h : Item.Finds last items found) :
    m.Finds ⟨last, ⟨is, .ok s⟩⟩ items is s found :=
  ⟨[], items, last, rfl, ⟨[], is, rfl, rfl⟩, h⟩

theorem Finds.comment (ht : t.kind = .comment) (h : m.Finds w items issues s found) :
    m.Finds w (.token t :: items) issues s found := by
  obtain ⟨front, rest, last, rfl, ⟨is, js, hpass, rfl⟩, hf⟩ := h
  refine ⟨.token t :: front, rest, last, rfl, ⟨is, js, ?_, rfl⟩, hf⟩
  simpa only [pass, receive, ht, pure_bind] using hpass

theorem Finds.plain {r : σ} {pending : Verdict σ} {js : List Issue} (ht : t.IsPlain)
    (hs : m.step r t = ⟨js, .ok (.more pending)⟩)
    (h : m.Finds ⟨t.span, pending⟩ items issues s found) :
    m.Finds ⟨last, ⟨is, .ok r⟩⟩ (.token t :: items) (is ++ (js ++ issues)) s found := by
  obtain ⟨front, rest, last, rfl, ⟨ks, ls, hpass, rfl⟩, hf⟩ := h
  exact ⟨.token t :: front, rest, last, rfl, ⟨_, ls, pass_cons ht hs hpass, by simp⟩, hf⟩

/-- What is pending as an error is told alike by all machines. -/
theorem run_congr_of_pending_error {stop : Stop} (h : w.pending = ⟨is, .error stop⟩)
    (items : List Item) : m.run w items = m'.run w items := by
  induction items with
  | nil => simp only [run, close, h, Verdict.mk_error_bind]
  | cons item rest ih =>
    cases item with
    | error e => rfl
    | fault f => rfl
    | token t =>
      by_cases hc : t.kind = .comment
      · rwa [run_comment hc, run_comment hc]
      by_cases he : t.kind = .eof
      · simp only [run_eof he, h, Verdict.mk_error_bind]
      · simp only [run_plain ⟨hc, he⟩, h, Verdict.mk_error_bind]

/-- Two runs are alike, or both machines come to a state in which they find a token to which they
give different answers. -/
theorem run_eq_or_parts (m m' : Machine σ α) (w : Wait σ) (items : List Item) :
    m.run w items = m'.run w items ∨
      ∃ issues s found, m.Finds w items issues s found ∧ m'.Finds w items issues s found ∧
        m.answer s found ≠ m'.answer s found := by
  -- While the answers are alike, so is what is pending when the next item comes.
  induction items generalizing w with
  | nil =>
    rcases w with ⟨last, is, stop | s⟩
    · exact .inl (run_congr_of_pending_error rfl [])
    rcases hstop : last.shrinkToEnd with f | stop
    · left
      simp only [run, close, hstop, Verdict.ofExcept_error, Verdict.fault_bind]
    have hf : Item.Finds last [] (.eof stop) := .nil hstop
    by_cases h : m.answer s (.eof stop) = m'.answer s (.eof stop)
    · left
      simp only [run, close, hstop, Verdict.ofExcept_ok, pure_bind, Verdict.mk_ok_bind,
        finish_eq_of_answer h]
    · exact .inr ⟨is, s, _, finds_of_settled hf, finds_of_settled hf, h⟩
  | cons item rest ih =>
    rcases w with ⟨last, is, stop | s⟩
    · exact .inl (run_congr_of_pending_error rfl _)
    cases item with
    | error e => exact .inl rfl
    | fault f => exact .inl rfl
    | token t =>
      by_cases hc : t.kind = .comment
      · rcases ih ⟨last, is, .ok s⟩ with h | ⟨issues, r, found, hm, hm', hne⟩
        · left
          rwa [run_comment hc, run_comment hc]
        · exact .inr ⟨issues, r, found, hm.comment hc, hm'.comment hc, hne⟩
      by_cases he : t.kind = .eof
      · have hf : Item.Finds last (.token t :: rest) (.eof t.span) := .eof he
        by_cases h : m.answer s (.eof t.span) = m'.answer s (.eof t.span)
        · left
          simp only [run_eof he, Verdict.mk_ok_bind, finish_eq_of_answer h]
        · exact .inr ⟨is, s, _, finds_of_settled hf, finds_of_settled hf, h⟩
      have ht : t.IsPlain := ⟨hc, he⟩
      have hf : Item.Finds last (.token t :: rest) t := .plain ht
      by_cases h : m.answer s t = m'.answer s t
      · have hstep : m.step s t = m'.step s t := by
          rwa [answer_plain ht, answer_plain ht] at h
        simp only [run_plain ht, Verdict.mk_ok_bind, ← hstep]
        rcases hs : m.step s t with ⟨js, stop | pending | value⟩
        · exact .inl rfl
        · rcases ih ⟨t.span, pending⟩ with h | ⟨issues, r, found, hm, hm', hne⟩
          · left
            simp only [Verdict.mk_ok_bind, h]
          · exact .inr ⟨_, r, found, hm.plain ht hs, hm'.plain ht (hstep ▸ hs), hne⟩
        · exact .inl rfl
      · exact .inr ⟨is, s, t, finds_of_settled hf, finds_of_settled hf, h⟩

theorem Finds.eof_or_plain (h : m.Finds w items issues s found) :
    (∃ stop, found = .eof stop) ∨ found.IsPlain := by
  obtain ⟨_, _, _, -, -, hf⟩ := h
  exact hf.eof_or_plain

/-- What comes of the answer to a token at `last`, when the items stand behind it. -/
def goOn (m : Machine σ α) (last : Span) (items : List Item) : Turn (Verdict σ) α → Verdict α
  | .done value => pure value
  | .more pending => m.run ⟨last, pending⟩ items

theorem answer_eof_bind_goOn (stop last : Span) (items : List Item) :
    m.answer s (.eof stop) >>= m.goOn last items = m.finish s stop := by
  rw [answer_eof, bind_map_left]
  exact bind_pure _

/-- In a state that has been settled, the answer to the next token comes into effect. -/
theorem exists_run_eq_of_finds (hf : Item.Finds last rest found) :
    ∃ behind, m.run ⟨last, ⟨is, .ok s⟩⟩ rest =
      ⟨is, .ok ()⟩ >>= fun _ => m.answer s found >>= m.goOn found.span behind := by
  induction hf with
  | nil hstop =>
    refine ⟨[], ?_⟩
    simp only [run, close, hstop, Verdict.ofExcept_ok, pure_bind, answer_eof_bind_goOn,
      Verdict.mk_ok_bind]
  | comment hc _ ih =>
    rw [run_comment hc]
    exact ih
  | eof he =>
    refine ⟨[], ?_⟩
    simp only [run_eof he, answer_eof_bind_goOn, Verdict.mk_ok_bind]
  | @plain t behind ht =>
    refine ⟨behind, ?_⟩
    rw [run_plain ht, answer_plain ht, Verdict.mk_ok_bind, Verdict.mk_ok_bind]
    rfl

/-- Where a token is found, the answer to it comes into effect. -/
theorem Finds.exists_run_eq (h : m.Finds w items issues s found) :
    ∃ behind, m.run w items =
      ⟨issues, .ok ()⟩ >>= fun _ => m.answer s found >>= m.goOn found.span behind := by
  obtain ⟨front, rest, last, rfl, ⟨is, js, hpass, rfl⟩, hf⟩ := h
  obtain ⟨behind, hrun⟩ := exists_run_eq_of_finds hf
  refine ⟨behind, ?_⟩
  rw [run_append_of_pass hpass, hrun]
  simp only [Verdict.mk_ok_bind, List.append_assoc]

/-- A run ends with the answer that refuses a token. -/
theorem Finds.run_of_refused {stop : Stop} (h : m.Finds w items issues s found)
    (ha : m.answer s found = ⟨is, .error stop⟩) : m.run w items = ⟨issues ++ is, .error stop⟩ := by
  obtain ⟨behind, hrun⟩ := h.exists_run_eq
  rw [hrun, ha, Verdict.mk_ok_bind, Verdict.mk_error_bind]

/-- What is raised by the answer to a token comes right behind what was raised before. -/
theorem Finds.exists_issues_run_eq {turn : Turn (Verdict σ) α}
    (h : m.Finds w items issues s found) (ha : m.answer s found = ⟨is, .ok turn⟩) :
    ∃ later, (m.run w items).issues = issues ++ (is ++ later) := by
  obtain ⟨behind, hrun⟩ := h.exists_run_eq
  rw [hrun, ha, Verdict.mk_ok_bind, Verdict.mk_ok_bind]
  exact ⟨_, rfl⟩

end Machine
end Scenario
