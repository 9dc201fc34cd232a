import Scenario.Parser.Machine
import Scenario.Proofs.Verdict

/-!
# Runs that end in a result

A run of a machine ends in a result only if every step on the way does, so that what is pending on
one item is always settled at the next. `Machine.Accepts` is this view of a run: the states follow
each other, and the issues line up in the order of the tokens.

A result does not depend on comments, nor on what stands behind a token of kind `eof`. What is left
of a stream without them are its contents. A stream that an error or a fault breaks off has none.
-/

namespace Scenario

/-- A token that a machine takes a step at. -/
def Token.IsPlain (t : Token) : Prop := t.kind ≠ .comment ∧ t.kind ≠ .eof

instance (t : Token) : Decidable t.IsPlain := inferInstanceAs (Decidable (_ ∧ _))

/-- The tokens of a stream up to its end, without comments. A stream that an error or a fault
breaks off has no contents. -/
def Item.contents : List Item → Option (List Token)
  | [] => some []
  | .token t :: rest =>
    match t.kind with
    | .comment => contents rest
    | .eof => some []
    | _ => (contents rest).map (t :: ·)
  | _ :: _ => none

namespace Item

theorem contents_comment {t : Token} (h : t.kind = .comment) (rest : List Item) :
    contents (.token t :: rest) = contents rest := by
  simp [contents, h]

theorem contents_eof {t : Token} (h : t.kind = .eof) (rest : List Item) :
    contents (.token t :: rest) = some [] := by
  simp [contents, h]

theorem contents_plain {t : Token} (h : t.IsPlain) (rest : List Item) :
    contents (.token t :: rest) = (contents rest).map (t :: ·) := by
  obtain ⟨hc, he⟩ := h
  rw [contents]
  split <;> simp_all

/-- The contents are tokens of the stream, and plain ones. -/
theorem mem_of_contents {items : List Item} {text : List Token} (h : contents items = some text) :
    ∀ t ∈ text, .token t ∈ items ∧ t.IsPlain := by
  induction items generalizing text with
  | nil => simp_all [contents]
  | cons item rest ih =>
    cases item with
    | error e => simp [contents] at h
    | fault f => simp [contents] at h
    | token t =>
      by_cases hc : t.kind = .comment
      · rw [contents_comment hc] at h
        intro u hu
        exact ⟨List.mem_cons_of_mem _ (ih h u hu).1, (ih h u hu).2⟩
      by_cases he : t.kind = .eof
      · rw [contents_eof he] at h
        simp_all
      rw [contents_plain ⟨hc, he⟩, Option.map_eq_some_iff] at h
      obtain ⟨text', h', rfl⟩ := h
      intro u hu
      rcases List.mem_cons.1 hu with rfl | hu
      · exact ⟨List.mem_cons_self, hc, he⟩
      · exact ⟨List.mem_cons_of_mem _ (ih h' u hu).1, (ih h' u hu).2⟩

theorem contents_map_token {text : List Token} (h : ∀ t ∈ text, t.IsPlain) :
    contents (text.map .token) = some text := by
  induction text with
  | nil => rfl
  | cons t text ih =>
    rw [List.map_cons, contents_plain (h t List.mem_cons_self),
      ih fun u hu => h u (List.mem_cons_of_mem _ hu)]
    rfl

/-- A stream of plain tokens is its own contents. -/
theorem eq_map_token_of_contents {items : List Item} {text : List Token}
    (hp : ∀ t, .token t ∈ items → t.IsPlain) (h : contents items = some text) :
    items = text.map .token := by
  induction items generalizing text with
  | nil => simp_all [contents]
  | cons item rest ih =>
    cases item with
    | error e => simp [contents] at h
    | fault f => simp [contents] at h
    | token t =>
      rw [contents_plain (hp t List.mem_cons_self), Option.map_eq_some_iff] at h
      obtain ⟨text', h', rfl⟩ := h
      rw [List.map_cons, ih (fun u hu => hp u (List.mem_cons_of_mem _ hu)) h']

end Item

namespace Machine

variable {σ α : Type} {m : Machine σ α}

/-- Reading the items from state `s`, with the last token at `last`, ends in the result `value`
and raises the issues. -/
def Accepts (m : Machine σ α) (last : Span) (s : σ) (items : List Item) (issues : List Issue)
    (value : α) : Prop :=
  m.run ⟨last, pure s⟩ items = ⟨issues, .ok value⟩

theorem receive_plain {t : Token} (h : t.IsPlain) (w : Wait σ) :
    m.receive w (.token t) = (do
      let state ← w.pending
      match ← m.step state t with
      | .done value => return .done value
      | .more pending => return .more ⟨t.span, pending⟩) := by
  obtain ⟨hc, he⟩ := h
  rw [receive]
  split
  · contradiction
  · contradiction
  · rfl

theorem run_comment {t : Token} (h : t.kind = .comment) (w : Wait σ) (rest : List Item) :
    m.run w (.token t :: rest) = m.run w rest := by
  simp only [run, receive, h, pure_bind]

theorem run_eof {t : Token} (h : t.kind = .eof) (w : Wait σ) (rest : List Item) :
    m.run w (.token t :: rest) = (do
      let state ← w.pending
      m.finish state t.span) := by
  simp only [run, receive, h, bind_assoc, pure_bind, bind_pure]

/-- At a plain token what is pending is settled, and a step follows. -/
theorem run_plain {t : Token} (h : t.IsPlain) (w : Wait σ) (rest : List Item) :
    m.run w (.token t :: rest) = (do
      let state ← w.pending
      match ← m.step state t with
      | .done value => return value
      | .more pending => m.run ⟨t.span, pending⟩ rest) := by
  simp only [run, receive_plain h, bind_assoc]
  refine congrArg _ (funext fun state => congrArg _ (funext fun turn => ?_))
  cases turn <;> simp

/-- What is pending must be settled with a state, from which the run goes on. -/
theorem run_eq_ok_iff {last : Span} {pending : Verdict σ} {items : List Item}
    {issues : List Issue} {value : α} :
    m.run ⟨last, pending⟩ items = ⟨issues, .ok value⟩ ↔
      ∃ is s js, pending = ⟨is, .ok s⟩ ∧ m.Accepts last s items js value ∧ issues = is ++ js := by
  unfold Accepts
  induction items generalizing issues with
  | nil =>
    simp only [run, close, Verdict.bind_eq_ok_iff, Verdict.ofExcept_eq_ok_iff, pure_bind]
    constructor
    · rintro ⟨_, stop, _, ⟨rfl, hl⟩, ⟨is, s, js, hp, hf, rfl⟩, rfl⟩
      exact ⟨is, s, js, hp, ⟨[], stop, js, ⟨rfl, hl⟩, hf, rfl⟩, rfl⟩
    · rintro ⟨is, s, js, hp, ⟨_, stop, ks, ⟨rfl, hl⟩, hf, hjs⟩, rfl⟩
      exact ⟨[], stop, is ++ js, ⟨rfl, hl⟩, ⟨is, s, ks, hp, hf, by rw [hjs]; rfl⟩, rfl⟩
  | cons item rest ih =>
    cases item with
    | error e => simp [run, receive]
    | fault f => simp [run, receive]
    | token t =>
      by_cases hc : t.kind = .comment
      · simpa only [run_comment hc] using ih
      by_cases he : t.kind = .eof
      · simp only [run_eof he, pure_bind, Verdict.bind_eq_ok_iff]
      · simp only [run_plain ⟨hc, he⟩, pure_bind, Verdict.bind_eq_ok_iff]

theorem accepts_nil_iff {last : Span} {s : σ} {issues : List Issue} {value : α} :
    m.Accepts last s [] issues value ↔
      ∃ stop, last.shrinkToEnd = .ok stop ∧ m.finish s stop = ⟨issues, .ok value⟩ := by
  simp only [Accepts, run, close, pure_bind, Verdict.bind_eq_ok_iff, Verdict.ofExcept_eq_ok_iff]
  constructor
  · rintro ⟨_, stop, js, ⟨rfl, hl⟩, hf, rfl⟩
    exact ⟨stop, hl, hf⟩
  · rintro ⟨stop, hl, hf⟩
    exact ⟨[], stop, issues, ⟨rfl, hl⟩, hf, rfl⟩

theorem accepts_comment_iff {last : Span} {s : σ} {t : Token} {rest : List Item}
    {issues : List Issue} {value : α} (h : t.kind = .comment) :
    m.Accepts last s (.token t :: rest) issues value ↔ m.Accepts last s rest issues value := by
  rw [Accepts, run_comment h, Accepts]

theorem accepts_eof_iff {last : Span} {s : σ} {t : Token} {rest : List Item}
    {issues : List Issue} {value : α} (h : t.kind = .eof) :
    m.Accepts last s (.token t :: rest) issues value ↔
      m.finish s t.span = ⟨issues, .ok value⟩ := by
  rw [Accepts, run_eof h, pure_bind]

/-- At a plain token the machine takes a step, and is done or goes on. -/
theorem accepts_plain_iff {last : Span} {s : σ} {t : Token} {rest : List Item}
    {issues : List Issue} {value : α} (h : t.IsPlain) :
    m.Accepts last s (.token t :: rest) issues value ↔
      m.step s t = ⟨issues, .ok (.done value)⟩ ∨
      ∃ is p js s' ks, m.step s t = ⟨is, .ok (.more p)⟩ ∧ p = ⟨js, .ok s'⟩ ∧
        m.Accepts t.span s' rest ks value ∧ issues = is ++ (js ++ ks) := by
  rw [Accepts, run_plain h, pure_bind, Verdict.bind_eq_ok_iff]
  constructor
  · rintro ⟨is, turn, js, hs, hr, rfl⟩
    cases turn with
    | done v =>
      obtain ⟨rfl, rfl⟩ := Verdict.pure_eq_ok_iff.1 hr
      exact .inl (by simpa using hs)
    | more p =>
      obtain ⟨js, s', ks, hp, ha, rfl⟩ := run_eq_ok_iff.1 hr
      exact .inr ⟨is, p, js, s', ks, hs, hp, ha, rfl⟩
  · rintro (hs | ⟨is, p, js, s', ks, hs, hp, ha, rfl⟩)
    · exact ⟨issues, .done value, [], hs, by simp, by simp⟩
    · exact ⟨is, .more p, js ++ ks, hs, run_eq_ok_iff.2 ⟨js, s', ks, hp, ha, rfl⟩, rfl⟩

theorem not_accepts_error {last : Span} {s : σ} {e : LexicalError} {rest : List Item}
    {issues : List Issue} {value : α} : ¬ m.Accepts last s (.error e :: rest) issues value := by
  simp [Accepts, run, receive]

theorem not_accepts_fault {last : Span} {s : σ} {f : Fault} {rest : List Item}
    {issues : List Issue} {value : α} : ¬ m.Accepts last s (.fault f :: rest) issues value := by
  simp [Accepts, run, receive]

/-- The machine reads its input up to the end, and its result does not depend on the span there. -/
structure ReadsOn (m : Machine σ α) : Prop where
  step_more : ∀ s t is value, m.step s t ≠ ⟨is, .ok (.done value)⟩
  finish_eq : ∀ s is value stop stop', m.finish s stop = ⟨is, .ok value⟩ →
    m.finish s stop' = ⟨is, .ok value⟩

/-- A machine that reads on has its result from the contents of the stream. -/
theorem ReadsOn.accepts_iff_contents (hm : m.ReadsOn) {last : Span} {s : σ} {items : List Item}
    {issues : List Issue} {value : α} (hl : last.Fits)
    (hi : ∀ t, Item.token t ∈ items → t.span.Fits) :
    m.Accepts last s items issues value ↔
      ∃ text, Item.contents items = some text ∧
        m.Accepts last s (text.map .token) issues value := by
  induction items generalizing last s issues with
  | nil => simp [Item.contents]
  | cons item rest ih =>
    have hrest : ∀ t, Item.token t ∈ rest → t.span.Fits :=
      fun t ht => hi t (List.mem_cons_of_mem _ ht)
    cases item with
    | error e => simp [Item.contents, not_accepts_error]
    | fault f => simp [Item.contents, not_accepts_fault]
    | token t =>
      by_cases hc : t.kind = .comment
      · rw [accepts_comment_iff hc, Item.contents_comment hc]
        exact ih hl hrest
      by_cases he : t.kind = .eof
      · rw [accepts_eof_iff he, Item.contents_eof he]
        simp only [Option.some.injEq, exists_eq_left', List.map_nil, accepts_nil_iff,
          Span.shrinkToEnd_of_fits hl, Except.ok.injEq]
        exact ⟨hm.finish_eq _ _ _ _ _, hm.finish_eq _ _ _ _ _⟩
      · rw [accepts_plain_iff ⟨hc, he⟩, Item.contents_plain ⟨hc, he⟩]
        simp only [Option.map_eq_some_iff]
        have ht := hi t List.mem_cons_self
        constructor
        · rintro (hs | ⟨is, p, js, s', ks, hs, hp, ha, rfl⟩)
          · exact (hm.step_more _ _ _ _ hs).elim
          · obtain ⟨text, hr, ha⟩ := (ih ht hrest).1 ha
            exact ⟨t :: text, ⟨text, hr, rfl⟩,
              (accepts_plain_iff ⟨hc, he⟩).2 (.inr ⟨is, p, js, s', ks, hs, hp, ha, rfl⟩)⟩
        · rintro ⟨_, ⟨text, hr, rfl⟩, ha⟩
          rcases (accepts_plain_iff ⟨hc, he⟩).1 ha with hs | ⟨is, p, js, s', ks, hs, hp, ha', rfl⟩
          · exact .inl hs
          · exact .inr ⟨is, p, js, s', ks, hs, hp, (ih ht hrest).2 ⟨text, hr, ha'⟩, rfl⟩

/-- A machine that reads on has its result from the end of the input. -/
theorem ReadsOn.exists_finish (hm : m.ReadsOn) {last : Span} {s : σ} {items : List Item}
    {issues : List Issue} {value : α} (h : m.Accepts last s items issues value) :
    ∃ s' stop is, m.finish s' stop = ⟨is, .ok value⟩ := by
  induction items generalizing last s issues with
  | nil =>
    obtain ⟨stop, -, hf⟩ := accepts_nil_iff.1 h
    exact ⟨s, stop, issues, hf⟩
  | cons item rest ih =>
    cases item with
    | error e => exact (not_accepts_error h).elim
    | fault f => exact (not_accepts_fault h).elim
    | token t =>
      by_cases hc : t.kind = .comment
      · exact ih ((accepts_comment_iff hc).1 h)
      by_cases he : t.kind = .eof
      · exact ⟨s, t.span, issues, (accepts_eof_iff he).1 h⟩
      rcases (accepts_plain_iff ⟨hc, he⟩).1 h with hs | ⟨is, p, js, s', ks, -, -, hrest, -⟩
      · exact (hm.step_more _ _ _ _ hs).elim
      · exact ih hrest

end Machine
end Scenario
