import Scenario.Proofs.Truncation.Completion

/-!
# What a state demands of the next token

In most places of a script any token may stand. In the others only tokens of a few kinds may: a name
behind a keyword, a brace behind a name, a declaration between two others. A state demands such
kinds, or nothing.

A step obeys what its state demands: a token of another kind is refused at once, with an issue that
lists just these kinds, and every other token is taken. A token that is taken can still lead to a
rejection later, but only to that of a branch outside of scenes, which lists no kinds.

Main statements: `OpenScene.obeys_step` and `LoneAuthor.obeys_step`, and for the tokens that are
demanded `OpenScene.exists_step_of_demands` and `LoneAuthor.exists_step_of_demands`.
-/

namespace Scenario

namespace Verdict

variable {α β : Type}

/-- If the verdict is a rejection, it is that of a branch outside of scenes. -/
def RejectsStrayOnly (v : Verdict α) : Prop :=
  v.result = .error .rejected → ∃ id span author, v.issues = [.strayBranch id span author]

theorem rejectsStrayOnly_pure (a : α) : (pure a : Verdict α).RejectsStrayOnly := by
  intro h
  cases h

theorem RejectsStrayOnly.map {v : Verdict α} (h : v.RejectsStrayOnly) (f : α → β) :
    (f <$> v).RejectsStrayOnly := by
  obtain ⟨issues, result⟩ := v
  rw [map_eq_pure_bind]
  cases result with
  | error stop =>
    rw [bind_of_error rfl]
    intro hr
    cases hr
    exact h rfl
  | ok a =>
    rw [bind_of_ok rfl]
    intro hr
    cases hr

/-- A span that is formed first is no reason for a rejection. -/
theorem rejectsStrayOnly_ofExcept_bind {r : Except Fault α} {f : α → Verdict β}
    (hf : ∀ a, (f a).RejectsStrayOnly) : (ofExcept r >>= f).RejectsStrayOnly := by
  cases r with
  | error fault =>
    intro h
    cases h
  | ok a => exact hf a

/-- The verdict on the token `t`, where one of the kinds in `demand` is demanded, or anything may
stand. What comes of a token that may stand there has `post`. -/
inductive Obeys (demand : Option (List Kind)) (t : Token) (post : α → Prop) : Verdict α → Prop
  | refused {kinds : List Kind} : demand = some kinds → t.kind ∉ kinds →
      Obeys demand t post (.reject (.expected kinds t))
  | taken {issues : List Issue} {a : α} : (∀ kinds, demand = some kinds → t.kind ∈ kinds) →
      post a → Obeys demand t post ⟨issues, .ok a⟩

variable {demand : Option (List Kind)} {t : Token} {post : α → Prop} {after : β → Prop}

theorem obeys_pure {a : α} (h : ∀ kinds, demand = some kinds → t.kind ∈ kinds) (ha : post a) :
    (pure a : Verdict α).Obeys demand t post :=
  .taken h ha

/-- What follows on a token that is taken has to come to a result. -/
theorem Obeys.bind {v : Verdict α} {f : α → Verdict β} (hv : v.Obeys demand t post)
    (hf : ∀ a, post a → ∃ issues b, f a = ⟨issues, .ok b⟩ ∧ after b) :
    (v >>= f).Obeys demand t after := by
  cases hv with
  | refused hd hk =>
    rw [reject_bind]
    exact .refused hd hk
  | taken hd ha =>
    obtain ⟨issues, b, hb, hafter⟩ := hf _ ha
    rw [bind_of_ok rfl, hb]
    exact .taken hd hafter

/-- A token that is not demanded is refused. -/
theorem Obeys.eq_reject {v : Verdict α} {kinds : List Kind} (hv : v.Obeys demand t post)
    (hd : demand = some kinds) (hk : t.kind ∉ kinds) : v = .reject (.expected kinds t) := by
  cases hv with
  | refused hd' _ =>
    rw [hd, Option.some.injEq] at hd'
    rw [hd']
  | taken htaken _ => exact (hk (htaken kinds hd)).elim

end Verdict

variable {d : Dialect} {t : Token} {kinds : List Kind}

namespace Declaration

/-- The kinds of token that a declaration demands. Nothing is demanded in a body, nor where one
begins if its brace may be missing. -/
def demands (d : Dialect) : Declaration → Option (List Kind)
  | opened _ _ => some [.ident]
  | named _ => if d.optionalBodyBrace then none else some [.openBrace]
  | inside _ _ => none

variable {decl : Declaration}

theorem enter_named (header : Header) :
    (named header).enter d t =
      if d.optionalBodyBrace && t.kind ≠ .openBrace then inside header 0 else named header :=
  rfl

theorem demands_named (header : Header) :
    (named header).demands d = if d.optionalBodyBrace then none else some [.openBrace] :=
  rfl

/-- Nothing is demanded where a token enters the body. -/
theorem demands_of_enter_inside {header : Header} {depth : Nat}
    (h : decl.enter d t = inside header depth) : decl.demands d = none := by
  cases decl with
  | opened keyword span => cases h
  | inside header depth => rfl
  | named header =>
    by_cases ho : d.optionalBodyBrace = true
    · exact if_pos ho
    · rw [enter_named, if_neg (by simp [ho])] at h
      cases h

theorem obeys_step : (decl.step d t).Obeys (decl.demands d) t fun _ => True := by
  unfold step
  cases he : decl.enter d t with
  | inside header depth =>
    rw [demands_of_enter_inside he]
    dsimp only
    split
    · split <;> exact Verdict.obeys_pure (by simp) trivial
    · exact Verdict.obeys_pure (by simp) trivial
    · exact Verdict.obeys_pure (by simp) trivial
  | opened keyword span =>
    have hd : decl.demands d = some [.ident] := by
      cases decl with
      | opened keyword span => rfl
      | named header =>
        rw [enter_named] at he
        split at he <;> contradiction
      | inside header depth => cases he
    rw [hd]
    dsimp only
    split
    · rename_i hk
      exact Verdict.obeys_pure (by simp [hk]) trivial
    · rename_i hk
      exact .refused rfl (by simpa using hk)
  | named header =>
    dsimp only
    split
    · rename_i hk
      refine Verdict.obeys_pure (fun kinds hd => ?_) trivial
      cases decl with
      | opened keyword span => cases he
      | inside header depth => cases he
      | named header' =>
        rw [demands_named] at hd
        split at hd
        · contradiction
        · cases hd
          simp [hk]
    · rename_i hk
      have hd : decl.demands d = some [.openBrace] := by
        cases decl with
        | opened keyword span => cases he
        | inside header depth => cases he
        | named header' =>
          rw [demands_named]
          refine if_neg fun ho => ?_
          have hmissing : (d.optionalBodyBrace && t.kind ≠ .openBrace) = true := by
            simp only [ho, Bool.true_and, decide_eq_true_eq]
            exact hk
          rw [enter_named, if_pos hmissing] at he
          cases he
      exact .refused hd (by simpa using hk)

/-- A token that is demanded brings the declaration further. -/
theorem exists_step_of_demands (hd : decl.demands d = some kinds) (hk : t.kind ∈ kinds) :
    ∃ decl', decl.step d t = pure (.more decl') := by
  cases decl with
  | inside header depth => cases hd
  | opened keyword span =>
    cases hd
    have hident : t.kind = .ident := by simpa using hk
    refine ⟨named ⟨keyword, span, t.value⟩, ?_⟩
    simp only [step, enter, hident]
  | named header =>
    rw [demands_named] at hd
    split at hd
    · contradiction
    · cases hd
      have hbrace : t.kind = .openBrace := by simpa using hk
      refine ⟨inside header 0, ?_⟩
      simp [step, enter_named, hbrace]

/-- What is listed at the end of the input is what the declaration demands. -/
theorem demands_of_unfinished {stop : Span} {found : Token}
    (h : decl.unfinished d stop = .expected kinds found) :
    found = .eof stop ∧ decl.demands d = some kinds := by
  cases decl with
  | inside header depth => cases h
  | opened keyword span =>
    cases h
    exact ⟨rfl, rfl⟩
  | named header =>
    rw [demands_named]
    simp only [unfinished, enter_named, Token.kind_eof, ne_eq, reduceCtorEq, not_false_eq_true,
      decide_true, Bool.and_true] at h
    by_cases ho : d.optionalBodyBrace = true
    · rw [if_pos ho] at h
      cases h
    · rw [if_neg ho] at h ⊢
      cases h
      exact ⟨rfl, rfl⟩

theorem branchPlace?_of_demands (hd : decl.demands d = some kinds) (t : Token) :
    decl.branchPlace? d t = none := by
  refine branchPlace?_eq_none_iff.2 fun header he _ => ?_
  rw [demands_of_enter_inside he] at hd
  cases hd

end Declaration

namespace LoneAuthor

/-- Behind the keyword of a branch its name is demanded, though no author comes of it. -/
def demands (d : Dialect) : LoneAuthor → Option (List Kind)
  | reading decl => decl.demands d
  | stray _ _ => some [.ident]

variable {a : LoneAuthor}

theorem obeys_step : (a.step d t).Obeys (a.demands d) t Verdict.RejectsStrayOnly := by
  cases a with
  | stray author opened =>
    unfold step
    dsimp only
    split
    · rename_i hk
      refine Verdict.obeys_pure (by simp [demands, hk]) ?_
      unfold rejectBranch
      split
      · exact fun _ => ⟨_, _, _, rfl⟩
      · intro h
        cases h
    · rename_i hk
      exact .refused rfl (by simpa using hk)
  | reading decl =>
    unfold step
    dsimp only
    split
    · rename_i author hb
      refine Verdict.obeys_pure (fun kinds hd => ?_) (Verdict.rejectsStrayOnly_pure _)
      simp [decl.branchPlace?_of_demands hd] at hb
    · apply Declaration.obeys_step.bind
      intro turn _
      cases turn with
      | more decl' => exact ⟨[], _, rfl, Verdict.rejectsStrayOnly_pure _⟩
      | done last =>
        exact ⟨[], _, rfl, Verdict.rejectsStrayOnly_ofExcept_bind fun _ =>
          Verdict.rejectsStrayOnly_pure _⟩

theorem exists_step_of_demands (ha : ¬ a.IsStray) (hd : a.demands d = some kinds)
    (hk : t.kind ∈ kinds) : ∃ decl, a.step d t = pure (pure (.more (reading decl))) := by
  cases a with
  | stray author opened => exact (ha trivial).elim
  | reading decl =>
    obtain ⟨decl', hs⟩ := Declaration.exists_step_of_demands hd hk
    refine ⟨decl', ?_⟩
    simp only [step, decl.branchPlace?_of_demands hd, hs, pure_bind]

theorem demands_of_unfinished {stop : Span} {found : Token}
    (h : a.unfinished d stop = .expected kinds found) :
    found = .eof stop ∧ a.demands d = some kinds := by
  cases a with
  | reading decl => exact Declaration.demands_of_unfinished h
  | stray author opened =>
    cases h
    exact ⟨rfl, rfl⟩

end LoneAuthor

namespace OpenScene

/-- Between the items of a scene declarations and the end are demanded, unless the dialect skips
what else stands there. -/
def demands (d : Dialect) : OpenScene → Option (List Kind)
  | opened _ => some [.ident]
  | named _ => some [.openBrace]
  | inside _ .items =>
    if d.lenientSceneItems then none
    else some [.keyword .author, .keyword .branch, .closeBrace]
  | inside _ (.author decl) => decl.demands d
  | inside _ (.branch _ decl) => decl.demands d

variable {s : SceneDraft} {decl : Declaration}

theorem demands_items : (inside s .items).demands d =
    if d.lenientSceneItems then none
    else some [.keyword .author, .keyword .branch, .closeBrace] :=
  rfl

theorem obeys_stepItem :
    (stepItem d s t).Obeys ((inside s .items).demands d) t Verdict.RejectsStrayOnly := by
  have hdemand : ∀ kinds, (inside s .items).demands d = some kinds →
      kinds = [.keyword .author, .keyword .branch, .closeBrace] := by
    intro kinds hd
    rw [demands_items] at hd
    split at hd
    · contradiction
    · exact (Option.some.inj hd).symm
  unfold stepItem
  split
  · rename_i hk
    refine Verdict.obeys_pure (fun kinds hd => ?_) (Verdict.rejectsStrayOnly_pure _)
    simp [hdemand kinds hd, hk]
  · rename_i hk
    refine Verdict.obeys_pure (fun kinds hd => ?_) (Verdict.rejectsStrayOnly_pure _)
    simp [hdemand kinds hd, hk]
  · rename_i hk
    refine Verdict.obeys_pure (fun kinds hd => ?_)
      (Verdict.rejectsStrayOnly_ofExcept_bind fun _ => Verdict.rejectsStrayOnly_pure _)
    simp [hdemand kinds hd, hk]
  · rename_i ha hb hc
    by_cases hl : d.lenientSceneItems = true
    · rw [if_pos hl]
      refine Verdict.Obeys.taken (fun kinds hd => ?_) (Verdict.rejectsStrayOnly_pure _)
      simp [demands, hl] at hd
    · rw [if_neg hl]
      refine .refused (if_neg hl) ?_
      simp only [List.mem_cons, List.not_mem_nil, or_false, not_or]
      exact ⟨ha, hb, hc⟩

theorem obeys_stepAuthor :
    (stepAuthor d s decl t).Obeys (decl.demands d) t Verdict.RejectsStrayOnly := by
  unfold stepAuthor
  split
  · rename_i host hb
    refine Verdict.obeys_pure (fun kinds hd => ?_) (Verdict.rejectsStrayOnly_pure _)
    simp [decl.branchPlace?_of_demands hd] at hb
  · apply Declaration.obeys_step.bind
    intro turn _
    cases turn with
    | more decl' => exact ⟨[], _, rfl, Verdict.rejectsStrayOnly_pure _⟩
    | done last =>
      exact ⟨[], _, rfl, Verdict.rejectsStrayOnly_ofExcept_bind fun _ =>
        Verdict.rejectsStrayOnly_pure _⟩

theorem obeys_stepBranch {host : Option Header} :
    (stepBranch d s host decl t).Obeys (decl.demands d) t Verdict.RejectsStrayOnly := by
  unfold stepBranch
  apply Declaration.obeys_step.bind
  intro turn _
  cases turn with
  | more decl' => exact ⟨[], _, rfl, Verdict.rejectsStrayOnly_pure _⟩
  | done last =>
    refine ⟨[], _, rfl, Verdict.rejectsStrayOnly_ofExcept_bind fun span => ?_⟩
    obtain ⟨issues, hadd⟩ := s.exists_addBranch_eq (.ofSpan last.1.id span)
    rw [hadd, Verdict.bind_of_ok rfl]
    intro h
    cases h

variable {o : OpenScene}

theorem obeys_step : (o.step d t).Obeys (o.demands d) t Verdict.RejectsStrayOnly := by
  match o with
  | opened span =>
    unfold step
    dsimp only
    split
    · rename_i hk
      exact Verdict.obeys_pure (by simp [demands, hk]) (Verdict.rejectsStrayOnly_pure _)
    · rename_i hk
      exact .refused rfl (by simpa using hk)
  | named header =>
    unfold step
    dsimp only
    split
    · rename_i hk
      exact Verdict.obeys_pure (by simp [demands, hk]) (Verdict.rejectsStrayOnly_pure _)
    · rename_i hk
      exact .refused rfl (by simpa using hk)
  | inside s .items => exact obeys_stepItem
  | inside s (.author decl) => exact obeys_stepAuthor
  | inside s (.branch host decl) => exact obeys_stepBranch

theorem exists_step_of_demands (ho : o.Spans Span.Fits) (ht : t.span.Fits)
    (hd : o.demands d = some kinds) (hk : t.kind ∈ kinds) :
    ∃ turn, o.step d t = pure (pure turn) := by
  match o with
  | opened span =>
    cases hd
    have hident : t.kind = .ident := by simpa using hk
    refine ⟨.more (named ⟨.scene, span, t.value⟩), ?_⟩
    simp only [step, hident]
  | named header =>
    cases hd
    have hbrace : t.kind = .openBrace := by simpa using hk
    refine ⟨.more (inside (.start header) .items), ?_⟩
    simp only [step, hbrace]
  | inside s .items =>
    rw [demands_items] at hd
    split at hd
    · contradiction
    · cases hd
      simp only [List.mem_cons, List.not_mem_nil, or_false] at hk
      rcases hk with hk | hk | hk
      · refine ⟨.more (inside s (.author (.opened .author t.span))), ?_⟩
        simp only [step, stepItem, hk]
      · refine ⟨.more (inside s (.branch none (.opened .branch t.span))), ?_⟩
        simp only [step, stepItem, hk]
      · obtain ⟨span, hu⟩ := Span.exists_union ho ht
        refine ⟨.done (s.close span), ?_⟩
        simp only [step, stepItem, hk, hu, Verdict.ofExcept_ok, pure_bind]
  | inside s (.author decl) =>
    obtain ⟨decl', hs⟩ := Declaration.exists_step_of_demands hd hk
    refine ⟨.more (inside s (.author decl')), ?_⟩
    simp only [step, stepAuthor, decl.branchPlace?_of_demands hd, hs, pure_bind]
  | inside s (.branch host decl) =>
    obtain ⟨decl', hs⟩ := Declaration.exists_step_of_demands hd hk
    refine ⟨.more (inside s (.branch host decl')), ?_⟩
    simp only [step, stepBranch, hs, pure_bind]

theorem demands_of_unfinished {stop : Span} {found : Token}
    (h : o.unfinished d stop = .expected kinds found) :
    found = .eof stop ∧ o.demands d = some kinds := by
  match o with
  | opened span =>
    cases h
    exact ⟨rfl, rfl⟩
  | named header =>
    cases h
    exact ⟨rfl, rfl⟩
  | inside s .items => cases h
  | inside s (.author decl) => exact Declaration.demands_of_unfinished h
  | inside s (.branch host decl) => exact Declaration.demands_of_unfinished h

end OpenScene

end Scenario
