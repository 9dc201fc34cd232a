import Scenario.Proofs.Outcome

/-!
# What runs raise

Which issues a run may raise can be told without looking at the stream: an error that asks for
tokens asks for at least one kind of them, and only a lenient dialect skips tokens. This holds of
every stream, also of one with faults or with spans that do not fit.

Main statement: `Target.arises_of_mem_read`.
-/

namespace Scenario

/-- The issues that may arise in a dialect. -/
inductive Issue.Arises (d : Dialect) : Issue → Prop
  | lexical (e : LexicalError) : Arises d (.lexical e)
  | expected {kinds : List Kind} (found : Token) : kinds ≠ [] → Arises d (.expected kinds found)
  | unclosed (header : Header) (stop : Span) : Arises d (.unclosed header stop)
  | strayBranch (id : String) (span : Option Span) (author : Header) :
      Arises d (.strayBranch id span author)
  | skipped (found : Token) (scene : String) :
      d.lenientSceneItems = true → Arises d (.skipped found scene)
  | redefined (id : String) (span : Span) (scene : String) (previous : Span) :
      Arises d (.redefined id span scene previous)

namespace Machine

variable {σ α : Type} {m : Machine σ α} {may : Issue → Prop}

/-- In all states of the machine only issues with `may` are raised. -/
structure Raises (m : Machine σ α) (may : Issue → Prop) : Prop where
  step : ∀ s t, (m.step s t).Raises may fun turn =>
    ∀ pending, turn = .more pending → pending.Raises may fun _ => True
  finish : ∀ s stop, (m.finish s stop).Raises may fun _ => True

theorem Raises.run (h : m.Raises may) (hlexical : ∀ e, may (.lexical e)) {w : Wait σ}
    (hw : w.pending.Raises may fun _ => True) (items : List Item) :
    (m.run w items).Raises may fun _ => True := by
  induction items generalizing w with
  | nil => exact Verdict.raises_ofExcept.bind fun _ _ => hw.bind fun s _ => h.finish s _
  | cons item rest ih =>
    cases item with
    | error e => exact Verdict.raises_reject (hlexical e)
    | fault f => exact Verdict.raises_fault
    | token t =>
      by_cases hc : t.kind = .comment
      · rw [run_comment hc]
        exact ih hw
      by_cases he : t.kind = .eof
      · rw [run_eof he]
        exact hw.bind fun s _ => h.finish s _
      rw [run_plain ⟨hc, he⟩]
      refine hw.bind fun s _ => (h.step s t).bind fun turn hturn => ?_
      cases turn with
      | done value => exact Verdict.raises_pure trivial
      | more pending => exact ih (hturn pending rfl)

end Machine

section Steps

variable {d : Dialect} {t : Token}

theorem Verdict.raises_expected {α : Type} {post : α → Prop} {kinds : List Kind} (h : kinds ≠ [])
    (t : Token) : (reject (.expected kinds t) : Verdict α).Raises (Issue.Arises d) post :=
  raises_reject (.expected t h)

theorem Declaration.raises_step (decl : Declaration) :
    (decl.step d t).Raises (Issue.Arises d) fun _ => True := by
  unfold step
  generalize decl.enter d t = entered
  cases entered with
  | opened keyword span =>
    dsimp only
    split
    · exact Verdict.raises_pure trivial
    · exact Verdict.raises_expected (by simp) t
  | named header =>
    dsimp only
    split
    · exact Verdict.raises_pure trivial
    · exact Verdict.raises_expected (by simp) t
  | inside header depth =>
    dsimp only
    split
    · split <;> exact Verdict.raises_pure trivial
    · exact Verdict.raises_pure trivial
    · exact Verdict.raises_pure trivial

theorem Declaration.arises_unfinished (decl : Declaration) (stop : Span) :
    (decl.unfinished d stop).Arises d := by
  unfold unfinished
  split
  · exact .expected _ (by simp)
  · exact .expected _ (by simp)
  · exact .unclosed _ _

theorem SceneDraft.raises_addBranch (s : SceneDraft) (b : Branch) :
    (s.addBranch b).Raises (Issue.Arises d) fun _ => True := by
  unfold addBranch
  split
  · exact (Verdict.raises_note (.redefined _ _ _ _)).bind fun _ _ => Verdict.raises_pure trivial
  · exact Verdict.raises_pure trivial

theorem LoneAuthor.raises_step (a : LoneAuthor) : (a.step d t).RaisesTwice (Issue.Arises d) := by
  cases a with
  | reading decl =>
    unfold step
    dsimp only
    split
    · exact Verdict.raises_pure (Verdict.raises_pure trivial)
    · refine decl.raises_step.bind fun turn _ => ?_
      cases turn with
      | more decl' => exact Verdict.raises_pure (Verdict.raises_pure trivial)
      | done last =>
        exact Verdict.raises_pure
          (Verdict.raises_ofExcept.bind fun _ _ => Verdict.raises_pure trivial)
  | stray author opened =>
    unfold step
    dsimp only
    split
    · refine Verdict.raises_pure ?_
      unfold rejectBranch
      split
      · exact Verdict.raises_reject (.strayBranch _ _ _)
      · exact ⟨List.forall_mem_singleton.2 (.strayBranch _ _ _), fun _ ha => by cases ha⟩
    · exact Verdict.raises_expected (by simp) t

theorem LoneAuthor.arises_unfinished (a : LoneAuthor) (stop : Span) :
    (a.unfinished d stop).Arises d := by
  cases a with
  | reading decl => exact decl.arises_unfinished stop
  | stray author opened => exact .expected _ (by simp)

namespace OpenScene

theorem raises_stepItem (draft : SceneDraft) :
    (stepItem d draft t).RaisesTwice (Issue.Arises d) := by
  unfold stepItem
  split
  · exact Verdict.raises_pure (Verdict.raises_pure trivial)
  · exact Verdict.raises_pure (Verdict.raises_pure trivial)
  · exact Verdict.raises_pure (Verdict.raises_ofExcept.bind fun _ _ => Verdict.raises_pure trivial)
  · split
    · rename_i hd
      exact (Verdict.raises_note (.skipped t _ hd)).bind fun _ _ =>
        Verdict.raises_pure (Verdict.raises_pure trivial)
    · exact Verdict.raises_expected (by simp) t

theorem raises_step (s : OpenScene) : (s.step d t).RaisesTwice (Issue.Arises d) := by
  cases s with
  | opened span =>
    unfold step
    dsimp only
    split
    · exact Verdict.raises_pure (Verdict.raises_pure trivial)
    · exact Verdict.raises_expected (by simp) t
  | named header =>
    unfold step
    dsimp only
    split
    · exact Verdict.raises_pure (Verdict.raises_pure trivial)
    · exact Verdict.raises_expected (by simp) t
  | inside draft place =>
    cases place with
    | items => exact raises_stepItem draft
    | author decl =>
      unfold step stepAuthor
      dsimp only
      split
      · exact Verdict.raises_pure (Verdict.raises_pure trivial)
      · refine decl.raises_step.bind fun turn _ => ?_
        cases turn with
        | more decl' => exact Verdict.raises_pure (Verdict.raises_pure trivial)
        | done last =>
          exact Verdict.raises_pure
            (Verdict.raises_ofExcept.bind fun _ _ => Verdict.raises_pure trivial)
    | branch host decl =>
      unfold step stepBranch
      dsimp only
      refine decl.raises_step.bind fun turn _ => ?_
      cases turn with
      | more decl' => exact Verdict.raises_pure (Verdict.raises_pure trivial)
      | done last =>
        exact Verdict.raises_pure (Verdict.raises_ofExcept.bind fun _ _ =>
          (draft.raises_addBranch _).bind fun _ _ => Verdict.raises_pure trivial)

theorem arises_unfinished (s : OpenScene) (stop : Span) : (s.unfinished d stop).Arises d := by
  match s with
  | opened span => exact .expected _ (by simp)
  | named header => exact .expected _ (by simp)
  | inside s .items => exact .unclosed _ _
  | inside s (.author decl) => exact decl.arises_unfinished stop
  | inside s (.branch host decl) => exact decl.arises_unfinished stop

end OpenScene

theorem OpenDocument.raises_step (o : OpenDocument) :
    (o.step d t).RaisesTwice (Issue.Arises d) := by
  cases o with
  | items document =>
    unfold step
    dsimp only
    split
    · exact Verdict.raises_pure (Verdict.raises_pure trivial)
    · exact Verdict.raises_pure (Verdict.raises_pure trivial)
    · exact Verdict.raises_expected (by simp) t
  | author document a =>
    exact a.raises_step.bind fun _ h => Verdict.raises_pure (h.map fun _ _ => trivial)
  | scene document s =>
    exact s.raises_step.bind fun _ h => Verdict.raises_pure (h.map fun _ _ => trivial)

theorem OpenDocument.raises_machine : (machine d).Raises (Issue.Arises d) where
  step o t := o.raises_step.bind fun _ h => Verdict.raises_pure (by
    rintro _ ⟨⟩
    exact h)
  finish o stop := by
    cases o with
    | items document => exact Verdict.raises_pure trivial
    | author document a => exact Verdict.raises_reject (a.arises_unfinished stop)
    | scene document s => exact Verdict.raises_reject (s.arises_unfinished stop)

theorem Sole.raises_machine {ρ α : Type} {keyword : Keyword} {first : Span → ρ}
    {step : ρ → Token → Verdict (Verdict (Turn ρ α))} {unfinished : ρ → Span → Issue}
    (extent : Extent) (hstep : ∀ r t, (step r t).RaisesTwice (Issue.Arises d))
    (hun : ∀ r stop, (unfinished r stop).Arises d) :
    (machine keyword first step unfinished extent).Raises (Issue.Arises d) where
  step s t := by
    cases s with
    | start =>
      simp only [machine]
      split
      · refine Verdict.raises_pure ?_
        rintro _ ⟨⟩
        exact Verdict.raises_pure trivial
      · exact Verdict.raises_expected (by simp) t
    | reading r =>
      refine (hstep r t).bind fun _ h => Verdict.raises_pure ?_
      rintro _ ⟨⟩
      exact h.map fun _ _ => trivial
    | complete value =>
      cases extent with
      | leading =>
        refine Verdict.raises_pure ?_
        rintro _ ⟨⟩
      | whole => exact Verdict.raises_expected (by simp) t
  finish s stop := by
    cases s with
    | start => exact Verdict.raises_expected (by simp) _
    | reading r => exact Verdict.raises_reject (hun r stop)
    | complete value => exact Verdict.raises_pure trivial

namespace Target

/-- Every issue that a run raises may arise in its dialect. -/
theorem arises_of_mem_read (target : Target) (d : Dialect) (extent : Extent) (base : Nat)
    (items : List Item) : ∀ i ∈ (target.read d extent base items).issues, i.Arises d := by
  have hm : (target.machine d extent).Raises (Issue.Arises d) := by
    cases target with
    | document => exact OpenDocument.raises_machine
    | scene =>
      exact Sole.raises_machine extent (fun s _ => s.raises_step) fun s => s.arises_unfinished
    | author =>
      exact Sole.raises_machine extent (fun a _ => a.raises_step) fun a => a.arises_unfinished
  exact (hm.run .lexical (Verdict.raises_pure trivial) items).1

end Target
end Steps
end Scenario
