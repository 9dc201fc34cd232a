import Scenario.Proofs.Protocol

/-!
# Outcomes of runs

A run of a machine that heeds the protocol of diagnostics heeds it as well: there are warnings, and
then a result or a single error. The error is one of an item that is no token, or it is at a token,
or at the end of the input.
-/

namespace Scenario

/-- The input ends at `stop`, when the items are read behind a token at `last`. -/
inductive Item.EndsAt : Span → List Item → Span → Prop
  | nil {last : Span} : EndsAt last [] ⟨last.base + last.len, 0⟩
  | comment {last stop : Span} {t : Token} {rest : List Item} :
      t.kind = .comment → EndsAt last rest stop → EndsAt last (.token t :: rest) stop
  | eof {last : Span} {t : Token} {rest : List Item} :
      t.kind = .eof → EndsAt last (.token t :: rest) t.span
  | plain {last stop : Span} {t : Token} {rest : List Item} :
      t.IsPlain → EndsAt t.span rest stop → EndsAt last (.token t :: rest) stop

/-- An error with which a run over the items ends. -/
inductive Issue.EndsRun (good : Span → Prop) (last : Span) (items : List Item) : Issue → Prop
  | lexical {e : LexicalError} : .error e ∈ items → EndsRun good last items (.lexical e)
  | atToken {i : Issue} : i.IsError .malformed good → EndsRun good last items i
  | atEnd {i : Issue} {stop : Span} :
      Item.EndsAt last items stop → i.IsError .unexpectedEnd (· = stop) → EndsRun good last items i

theorem Issue.EndsRun.cons {good : Span → Prop} {last last' : Span} {item : Item}
    {rest : List Item} {i : Issue} (h : EndsRun good last' rest i)
    (hstop : ∀ stop, Item.EndsAt last' rest stop → Item.EndsAt last (item :: rest) stop) :
    EndsRun good last (item :: rest) i := by
  cases h with
  | lexical he => exact .lexical (List.mem_cons_of_mem _ he)
  | atToken hi => exact .atToken hi
  | atEnd he hi => exact .atEnd (hstop _ he) hi

theorem Issue.EndsRun.level_eq {good : Span → Prop} {last : Span} {items : List Item} {i : Issue}
    (h : EndsRun good last items i) : i.level = .error := by
  cases h with
  | lexical _ => rfl
  | atToken hi => exact hi.1
  | atEnd _ hi => exact hi.1

namespace Machine

variable {σ α : Type}

/-- The machine heeds the protocol of diagnostics in its states with `inv`. -/
structure Heeds (m : Machine σ α) (good : Span → Prop) (inv : σ → Prop) : Prop where
  start : inv m.start
  step : ∀ s t, inv s → t.IsPlain → good t.span →
    (m.step s t).Heeds good (Turn.Leads (·.Heeds good inv) fun _ => True)
  finish : ∀ s stop, inv s →
    (m.finish s stop).Meets Issue.IsWarning (Issue.IsError .unexpectedEnd (· = stop)) fun _ => True

variable {m : Machine σ α} {good : Span → Prop} {inv : σ → Prop}

/-- The errors at tokens are among those that may end a run. -/
theorem meets_pending {last : Span} {items : List Item} {pending : Verdict σ}
    (h : pending.Heeds good inv) :
    pending.Meets Issue.IsWarning (Issue.EndsRun good last items) inv :=
  h.mono (fun _ hi => hi) (fun _ => .atToken) fun _ hs => hs

theorem Heeds.meets_run (h : m.Heeds good inv) (hg : Span.Closed good) {last : Span}
    {pending : Verdict σ} {items : List Item} (hl : last.Fits) (hp : pending.Heeds good inv)
    (ht : ∀ t, Item.token t ∈ items → t.IsPlain → good t.span)
    (hf : ∀ f, Item.fault f ∉ items) :
    (m.run ⟨last, pending⟩ items).Meets Issue.IsWarning (Issue.EndsRun good last items)
      fun _ => True := by
  induction items generalizing last pending with
  | nil =>
    have hrun : m.run ⟨last, pending⟩ [] = (do
        let state ← pending
        m.finish state ⟨last.base + last.len, 0⟩) := by
      simp only [run, close, Span.shrinkToEnd_of_fits hl, Verdict.ofExcept_ok, pure_bind]
    rw [hrun]
    apply (meets_pending hp).bind
    intro s hs
    refine (h.finish s _ hs).mono (fun _ hi => hi) (fun i hi => ?_) fun _ hv => hv
    exact .atEnd .nil hi
  | cons item rest ih =>
    have ht' : ∀ t, Item.token t ∈ rest → t.IsPlain → good t.span :=
      fun t hmem => ht t (List.mem_cons_of_mem _ hmem)
    have hf' : ∀ f, Item.fault f ∉ rest := fun f hmem => hf f (List.mem_cons_of_mem _ hmem)
    cases item with
    | error e => exact Verdict.meets_reject (.lexical List.mem_cons_self)
    | fault f => exact (hf f List.mem_cons_self).elim
    | token t =>
      by_cases hc : t.kind = .comment
      · rw [run_comment hc]
        refine (ih hl hp ht' hf').mono (fun _ hi => hi) (fun i hi => ?_) fun _ hv => hv
        exact hi.cons fun stop hstop => .comment hc hstop
      by_cases he : t.kind = .eof
      · rw [run_eof he]
        apply (meets_pending hp).bind
        intro s hs
        refine (h.finish s t.span hs).mono (fun _ hi => hi) (fun i hi => ?_) fun _ hv => hv
        exact .atEnd (.eof he) hi
      · have hplain : t.IsPlain := ⟨hc, he⟩
        have hgood := ht t List.mem_cons_self hplain
        rw [run_plain hplain]
        apply (meets_pending hp).bind
        intro s hs
        apply (meets_pending (h.step s t hs hplain hgood)).bind
        intro turn hturn
        cases turn with
        | done value => exact Verdict.meets_pure trivial
        | more pending' =>
          refine (ih (hg.fits _ hgood) hturn ht' hf').mono (fun _ hi => hi) (fun i hi => ?_)
            fun _ hv => hv
          exact hi.cons fun stop hstop => .plain hplain hstop

end Machine

variable {good : Span → Prop} {d : Dialect}

namespace OpenDocument

/-- The spans that a document keeps of the part it is reading are good. -/
def Spans (good : Span → Prop) : OpenDocument → Prop
  | items _ => True
  | author _ rest => rest.Spans good
  | scene _ rest => rest.Spans good

theorem heeds_step (hg : Span.Closed good) {o : OpenDocument} {t : Token} (h : o.Spans good)
    (ht : t.IsPlain) (hs : good t.span) :
    (o.step d t).Heeds good fun turn => turn.Heeds good (Spans good) := by
  cases o with
  | items document =>
    simp only [step]
    split
    · exact Verdict.meets_pure (Verdict.meets_pure hs)
    · exact Verdict.meets_pure (Verdict.meets_pure hs)
    · exact Verdict.heeds_expected _ ht hs
  | author document rest =>
    refine (LoneAuthor.heeds_step hg h ht hs).bind fun turn hturn => Verdict.meets_pure ?_
    exact hturn.resume (fun _ h => h) fun _ _ => trivial
  | scene document rest =>
    refine (OpenScene.heeds_step hg h ht hs).bind fun turn hturn => Verdict.meets_pure ?_
    exact hturn.resume (fun _ h => h) fun _ _ => trivial

theorem heeds_machine (hg : Span.Closed good) : (machine d).Heeds good (Spans good) where
  start := trivial
  step _ _ h ht hs := (heeds_step hg h ht hs).bind fun _ hturn => Verdict.meets_pure hturn
  finish o stop h := by
    cases o with
    | items document => exact Verdict.meets_pure trivial
    | author document rest => exact Verdict.meets_reject (rest.isError_unfinished stop)
    | scene document rest => exact Verdict.meets_reject (rest.isError_unfinished stop)

end OpenDocument

namespace Sole

variable {ρ α : Type} {inv : ρ → Prop}

/-- The declaration that is being read has `inv`. -/
def Keeps (inv : ρ → Prop) : Sole ρ α → Prop
  | start => True
  | reading rest => inv rest
  | complete _ => True

theorem heeds_machine {keyword : Keyword} {first : Span → ρ}
    {step : ρ → Token → Verdict (Verdict (Turn ρ α))} {unfinished : ρ → Span → Issue}
    (extent : Extent) (hfirst : ∀ span, good span → inv (first span))
    (hstep : ∀ r t, inv r → t.IsPlain → good t.span →
      (step r t).Heeds good fun turn => turn.Heeds good (Turn.Leads inv fun _ => True))
    (hun : ∀ r stop, (unfinished r stop).IsError .unexpectedEnd (· = stop)) :
    (machine keyword first step unfinished extent).Heeds good (Keeps inv) where
  start := trivial
  step s t h ht hs := by
    cases s with
    | start =>
      simp only [machine]
      have hp : (pure (reading (first t.span)) : Verdict (Sole ρ α)).Heeds good (Keeps inv) :=
        Verdict.meets_pure (hfirst _ hs)
      split
      · exact Verdict.meets_pure hp
      · exact Verdict.heeds_expected _ ht hs
    | reading rest =>
      refine (hstep rest t h ht hs).bind fun turn hturn => Verdict.meets_pure ?_
      exact hturn.resume (fun _ h => h) fun _ _ => trivial
    | complete value =>
      cases extent with
      | whole => exact Verdict.heeds_expected _ ht hs
      | leading => exact Verdict.meets_pure trivial
  finish s stop h := by
    cases s with
    | start => exact Verdict.meets_reject (Issue.isError_expected_eof _ _)
    | reading rest => exact Verdict.meets_reject (hun rest stop)
    | complete value => exact Verdict.meets_pure trivial

end Sole

namespace Target

/-- The spans that the state of a target keeps are good. -/
def Spans (good : Span → Prop) : (target : Target) → target.State → Prop
  | document => OpenDocument.Spans good
  | scene => Sole.Keeps (OpenScene.Spans good)
  | author => Sole.Keeps (LoneAuthor.Spans good)

theorem heeds_machine (hg : Span.Closed good) (target : Target) (extent : Extent) :
    (target.machine d extent).Heeds good (target.Spans good) := by
  cases target with
  | document => exact OpenDocument.heeds_machine hg
  | scene =>
    exact Sole.heeds_machine extent (fun _ h => h)
      (fun _ _ h ht hs => OpenScene.heeds_step hg h ht hs) OpenScene.isError_unfinished
  | author =>
    exact Sole.heeds_machine extent (fun _ h => h)
      (fun _ _ h ht hs => LoneAuthor.heeds_step hg h ht hs) LoneAuthor.isError_unfinished

/-- Parsing a stream without faults raises warnings, and ends in a result or with an error. -/
theorem meets_read (hg : Span.Closed good) {target : Target} {extent : Extent} {base : Nat}
    {items : List Item} (hb : base ≤ positionLimit)
    (ht : ∀ t, Item.token t ∈ items → t.IsPlain → good t.span) (hf : ∀ f, Item.fault f ∉ items) :
    (target.read d extent base items).Meets Issue.IsWarning (Issue.EndsRun good ⟨base, 0⟩ items)
      fun _ => True := by
  have hm := @heeds_machine good d hg target extent
  have hl : (⟨base, 0⟩ : Span).Fits := hb
  exact hm.meets_run hg hl (Verdict.meets_pure hm.start) ht hf

end Target
end Scenario
