import Scenario.Proofs.Expectation.Demands
import Scenario.Proofs.Truncation.Astray

/-!
# What a target demands of the next token

A document demands a declaration between two others, and what the part demands that is being read. A
declaration on its own has to begin with its keyword, and demands the end of the input behind it.

Main statements: the steps of a target obey what is demanded (`Target.obeys_step`), and a token that
is demanded leads on (`Target.exists_step_of_demands`).
-/

namespace Scenario

variable {d : Dialect} {t : Token} {kinds : List Kind}

namespace OpenDocument

def demands (d : Dialect) : OpenDocument → Option (List Kind)
  | items _ => some [.keyword .author, .keyword .scene]
  | author _ a => a.demands d
  | scene _ o => o.demands d

variable {o : OpenDocument}

theorem obeys_step : (o.step d t).Obeys (o.demands d) t Verdict.RejectsStrayOnly := by
  cases o with
  | items document =>
    unfold step
    dsimp only
    split
    · rename_i hk
      exact Verdict.obeys_pure (by simp [demands, hk]) (Verdict.rejectsStrayOnly_pure _)
    · rename_i hk
      exact Verdict.obeys_pure (by simp [demands, hk]) (Verdict.rejectsStrayOnly_pure _)
    · rename_i ha hs
      refine .refused rfl ?_
      simp only [List.mem_cons, List.not_mem_nil, or_false, not_or]
      exact ⟨ha, hs⟩
  | author document a =>
    apply LoneAuthor.obeys_step.bind
    intro turn hturn
    exact ⟨[], _, rfl, hturn.map _⟩
  | scene document o =>
    apply OpenScene.obeys_step.bind
    intro turn hturn
    exact ⟨[], _, rfl, hturn.map _⟩

theorem exists_step_of_demands (ho : o.Spans Span.Fits) (hs : ¬ o.IsStray) (ht : t.span.Fits)
    (hd : o.demands d = some kinds) (hk : t.kind ∈ kinds) :
    ∃ o', (machine d).step o t = pure (.more (pure o')) ∧ ¬ o'.IsStray := by
  cases o with
  | items document =>
    cases hd
    simp only [List.mem_cons, List.not_mem_nil, or_false] at hk
    rcases hk with hk | hk
    · exact ⟨_, step_items_author hk, not_false⟩
    · exact ⟨_, step_items_scene hk, not_false⟩
  | author document a =>
    obtain ⟨decl, hstep⟩ := LoneAuthor.exists_step_of_demands hs hd hk
    refine ⟨author document (.reading decl), ?_, not_false⟩
    simp only [machine, step, hstep, pure_bind, map_pure, resumeAuthor]
  | scene document o =>
    obtain ⟨turn, hstep⟩ := OpenScene.exists_step_of_demands ho ht hd hk
    refine ⟨resumeScene document turn, ?_, ?_⟩
    · simp only [machine, step, hstep, pure_bind, map_pure]
    · cases turn <;> exact not_false

end OpenDocument

namespace Sole

variable {ρ α : Type}

/-- A declaration on its own has to begin with its keyword, and nothing may stand behind it. -/
def demands (keyword : Keyword) (part : ρ → Option (List Kind)) : Sole ρ α → Option (List Kind)
  | start => some [.keyword keyword]
  | reading r => part r
  | complete _ => some [.eof]

variable {keyword : Keyword} {first : Span → ρ}
  {step : ρ → Token → Verdict (Verdict (Turn ρ α))} {unfinished : ρ → Span → Issue}
  {part : ρ → Option (List Kind)} {s : Sole ρ α}

theorem obeys_step (hp : t.IsPlain)
    (hpart : ∀ r, (step r t).Obeys (part r) t Verdict.RejectsStrayOnly) :
    ((machine keyword first step unfinished .whole).step s t).Obeys (s.demands keyword part) t
      fun turn => ∀ pending, turn = .more pending → pending.RejectsStrayOnly := by
  cases s with
  | start =>
    simp only [machine]
    split
    · rename_i hk
      refine Verdict.obeys_pure (by simp [demands, hk]) ?_
      rintro _ ⟨⟩
      exact Verdict.rejectsStrayOnly_pure _
    · rename_i hk
      exact .refused rfl (by simpa using hk)
  | reading r =>
    apply (hpart r).bind
    intro turn hturn
    refine ⟨[], _, rfl, ?_⟩
    rintro _ ⟨⟩
    exact hturn.map _
  | complete value => exact .refused rfl (by simpa using hp.2)

end Sole

namespace Target

/-- The kinds of token one of which the next token must have, or none if any token may stand. -/
def demands (d : Dialect) : (target : Target) → target.State → Option (List Kind)
  | document => OpenDocument.demands d
  | scene => Sole.demands .scene (OpenScene.demands d)
  | author => Sole.demands .author (LoneAuthor.demands d)

variable {target : Target} {s : target.State}

/-- The steps of a target obey what is demanded. -/
theorem obeys_step (hp : t.IsPlain) :
    ((target.machine d .whole).step s t).Obeys (target.demands d s) t
      fun turn => ∀ pending, turn = .more pending → pending.RejectsStrayOnly := by
  cases target with
  | document =>
    apply OpenDocument.obeys_step.bind
    intro turn hturn
    refine ⟨[], _, rfl, ?_⟩
    rintro _ ⟨⟩
    exact hturn
  | scene => exact Sole.obeys_step hp fun _ => OpenScene.obeys_step
  | author => exact Sole.obeys_step hp fun _ => LoneAuthor.obeys_step

/-- A token that is demanded leads on, and not to a branch outside of scenes. -/
theorem exists_step_of_demands (hs : target.Spans Span.Fits s) (hstray : ¬ target.IsStray s)
    (hp : t.IsPlain) (ht : t.span.Fits) (hd : target.demands d s = some kinds)
    (hk : t.kind ∈ kinds) :
    ∃ s', (target.machine d .whole).step s t = pure (.more (pure s')) ∧ ¬ target.IsStray s' := by
  cases target with
  | document => exact OpenDocument.exists_step_of_demands hs hstray ht hd hk
  | scene =>
    refine (?_ : ∃ s', _ = _).imp fun _ h => ⟨h, not_false⟩
    cases s with
    | start =>
      cases hd
      exact ⟨_, Sole.step_start (by simpa using hk)⟩
    | reading o =>
      obtain ⟨turn, hstep⟩ := OpenScene.exists_step_of_demands hs ht hd hk
      refine ⟨Sole.resume turn, ?_⟩
      simp only [machine, OpenScene.machine, Sole.machine, hstep, pure_bind, map_pure]
    | complete value =>
      cases hd
      exact (hp.2 (by simpa using hk)).elim
  | author =>
    cases s with
    | start =>
      cases hd
      exact ⟨_, Sole.step_start (by simpa using hk), not_false⟩
    | reading a =>
      obtain ⟨decl, hstep⟩ := LoneAuthor.exists_step_of_demands hstray hd hk
      refine ⟨.reading (.reading decl), ?_, not_false⟩
      simp only [machine, LoneAuthor.machine, Sole.machine, hstep, pure_bind, map_pure, Sole.resume]
    | complete value =>
      cases hd
      exact (hp.2 (by simpa using hk)).elim

/-- Where a branch has begun outside of scenes, its name is demanded. -/
theorem demands_of_isStray (hs : target.IsStray s) : target.demands d s = some [.ident] := by
  cases target with
  | document =>
    match s, hs with
    | .author _ (.stray _ _), _ => rfl
  | scene => exact hs.elim
  | author =>
    match s, hs with
    | .reading (.stray _ _), _ => rfl

/-- At the end of the input there is a single issue. If it lists kinds, they are those that are
demanded. -/
theorem demands_of_finish {stop : Span} {issues : List Issue}
    (h : (target.machine d .whole).finish s stop = ⟨issues, .error .rejected⟩) :
    ∃ i, issues = [i] ∧ ∀ kinds found, i = .expected kinds found →
      found = .eof stop ∧ target.demands d s = some kinds := by
  have hreject : ∀ {β : Type} {i : Issue}, (Verdict.reject i : Verdict β) =
      ⟨issues, .error .rejected⟩ → issues = [i] := fun h => (congrArg Verdict.issues h).symm
  cases target with
  | document =>
    cases s with
    | items document => cases h
    | author document a => exact ⟨_, hreject h, fun _ _ => LoneAuthor.demands_of_unfinished⟩
    | scene document o => exact ⟨_, hreject h, fun _ _ => OpenScene.demands_of_unfinished⟩
  | scene =>
    cases s with
    | start =>
      refine ⟨_, hreject h, ?_⟩
      rintro _ _ ⟨⟩
      exact ⟨rfl, rfl⟩
    | reading o => exact ⟨_, hreject h, fun _ _ => OpenScene.demands_of_unfinished⟩
    | complete value => cases h
  | author =>
    cases s with
    | start =>
      refine ⟨_, hreject h, ?_⟩
      rintro _ _ ⟨⟩
      exact ⟨rfl, rfl⟩
    | reading a => exact ⟨_, hreject h, fun _ _ => LoneAuthor.demands_of_unfinished⟩
    | complete value => cases h

end Target
end Scenario
