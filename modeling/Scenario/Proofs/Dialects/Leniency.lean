import Scenario.Proofs.Agreement
import Scenario.Proofs.Dialects.Focus
import Scenario.Proofs.Raising

/-!
# Lenient scenes

Leniency about the items of a scene turns errors into warnings and does nothing else. If no token is
skipped, the lenient and the strict run are the same. Otherwise the strict run goes along with the
lenient one up to the first token that is skipped, and is rejected there.

That the runs part at the *first* skip follows from one side alone: a strict run never raises a
warning of this kind, so the issues that both runs share have none.

Main statement: `Target.lenient_items_only_skip`.
-/

namespace Scenario

namespace Issue

/-- The warning about a token that was left out. -/
def IsSkip (i : Issue) : Prop := ∃ t scene, i = skipped t scene

end Issue

/-- The diagnostic of a warning about a token that was left out. -/
def Diagnostic.IsSkip (x : Diagnostic) : Prop := ∃ t scene, x = (Issue.skipped t scene).diagnostic

/-- What is left of a report if the first skip in it is an error: everything before it, and an
error at the token that was skipped. -/
def Diagnostic.StopsAtSkip (lenient strict : List Diagnostic) : Prop :=
  ∃ before skip after e, lenient = before ++ skip :: after ∧ (∀ x ∈ before, ¬ x.IsSkip) ∧
    skip.IsSkip ∧ strict = before ++ [e] ∧ e.level = .error ∧ e.category = .malformed ∧
    e.spans = skip.spans

/-- The messages about a skip and about a redefinition begin differently. -/
theorem Issue.diagnostic_isSkip_iff {i : Issue} : i.diagnostic.IsSkip ↔ i.IsSkip := by
  constructor
  · rintro ⟨t, scene, h⟩
    cases i with
    | skipped t' scene' => exact ⟨t', scene', rfl⟩
    | redefined id span scene' previous =>
      have hmessage := congrArg (fun x => x.message.toList.head?) h
      simp [diagnostic, message] at hmessage
    | lexical e => cases congrArg Diagnostic.level h
    | expected kinds found => cases congrArg Diagnostic.level h
    | unclosed header stop => cases congrArg Diagnostic.level h
    | strayBranch id span author => cases congrArg Diagnostic.level h
  · rintro ⟨t, scene, rfl⟩
    exact ⟨t, scene, rfl⟩

/-- A strict parse skips nothing. -/
theorem Target.not_isSkip_of_mem_read {d : Dialect} (hd : d.lenientSceneItems = false)
    (target : Target) (extent : Extent) (base : Nat) (items : List Item) :
    ∀ i ∈ (target.read d extent base items).issues, ¬ i.IsSkip := by
  intro i hi
  have harises := target.arises_of_mem_read d extent base items i hi
  rintro ⟨t, scene, rfl⟩
  cases harises with
  | skipped _ _ hlenient => simp [hd] at hlenient

theorem OpenScene.stepItem_of_stray {d : Dialect} {draft : SceneDraft} {t : Token}
    (h : t.IsStray) :
    stepItem d draft t = if d.lenientSceneItems = true
      then ⟨[.skipped t draft.header.id], .ok (pure (.more (inside draft .items)))⟩
      else .reject (.expected [.keyword .author, .keyword .branch, .closeBrace] t) := by
  obtain ⟨ha, hb, hc⟩ := h
  unfold stepItem
  split
  · exact (ha ‹_›).elim
  · exact (hb ‹_›).elim
  · exact (hc ‹_›).elim
  · rfl

/-- Dialects that differ in their leniency disagree on stray tokens only. -/
theorem Focus.exists_items_of_not_agrees {d : Dialect} {b b' : Bool} {t : Token} {f : Focus}
    (h : ¬ f.Agrees { d with lenientSceneItems := b } { d with lenientSceneItems := b' } t) :
    ∃ draft, f = .items draft ∧ t.IsStray ∧ t.kind ≠ .eof := by
  cases f with
  | fixed => exact (h trivial).elim
  | declaration decl => exact (h ⟨rfl, rfl⟩).elim
  | items draft =>
    obtain ⟨ht, hne⟩ := Classical.not_imp.1 h
    refine ⟨draft, rfl, ⟨?_, ?_, ?_⟩, ht⟩ <;>
    · intro hk
      simp [OpenScene.stepItem, hk] at hne

namespace Diagnostic

theorem forall_not_isSkip {issues : List Issue} (h : ∀ i ∈ issues, ¬ i.IsSkip) :
    ∀ x ∈ issues.map Issue.diagnostic, ¬ x.IsSkip := by
  intro x hx
  obtain ⟨i, hi, rfl⟩ := List.mem_map.1 hx
  rw [Issue.diagnostic_isSkip_iff]
  exact h i hi

theorem stopsAtSkip_of_issues {issues : List Issue} {t : Token} (scene : String)
    (later : List Issue) (kinds : List Kind) (ht : t.IsPlain) (h : ∀ i ∈ issues, ¬ i.IsSkip) :
    StopsAtSkip ((issues ++ .skipped t scene :: later).map Issue.diagnostic)
      ((issues ++ [Issue.expected kinds t]).map Issue.diagnostic) :=
  ⟨issues.map Issue.diagnostic, (Issue.skipped t scene).diagnostic, later.map Issue.diagnostic,
    (Issue.expected kinds t).diagnostic, by simp, forall_not_isSkip h, ⟨t, scene, rfl⟩, by simp,
    rfl, if_neg ht.2, rfl⟩

theorem StopsAtSkip.exists_isSkip {lenient strict : List Diagnostic}
    (h : StopsAtSkip lenient strict) : ∃ x ∈ lenient, x.IsSkip := by
  obtain ⟨before, skip, after, e, rfl, -, hskip, -⟩ := h
  exact ⟨skip, by simp, hskip⟩

end Diagnostic

namespace Target

variable (target : Target) (d : Dialect) (extent : Extent) (base : Nat)

/-- A lenient and a strict run are the same and skip nothing, or the strict run is rejected at the
first token that the lenient one skips. -/
theorem read_lenient_cases (items : List Item) :
    (target.read { d with lenientSceneItems := true } extent base items =
        target.read { d with lenientSceneItems := false } extent base items ∧
      ∀ i ∈ (target.read { d with lenientSceneItems := true } extent base items).issues,
        ¬ i.IsSkip) ∨
    ∃ rejected,
      target.read { d with lenientSceneItems := false } extent base items =
        ⟨rejected, .error .rejected⟩ ∧
      Diagnostic.StopsAtSkip
        ((target.read { d with lenientSceneItems := true } extent base items).issues.map
          Issue.diagnostic) (rejected.map Issue.diagnostic) := by
  have hstrict : ∀ i ∈
      (target.read { d with lenientSceneItems := false } extent base items).issues, ¬ i.IsSkip :=
    not_isSkip_of_mem_read rfl target extent base items
  rcases read_eq_or_parts target { d with lenientSceneItems := true }
    { d with lenientSceneItems := false } extent base items with
    heq | ⟨issues, s, found, hm, hm', hfound, hne⟩
  · exact .inl ⟨heq, heq ▸ hstrict⟩
  · right
    obtain ⟨draft, hfocus, hstray, heof⟩ := Focus.exists_items_of_not_agrees hne
    have hplain : found.IsPlain := hfound.resolve_left fun ⟨stop, h⟩ => heof (h ▸ rfl)
    obtain ⟨resume, hstep⟩ := @exists_step_eq_of_items target extent s draft hfocus
    have hlenient : ((target.machine { d with lenientSceneItems := true } extent).answer s found) =
        ⟨[.skipped found draft.header.id],
          .ok (.more (resume <$> pure (.more (.inside draft .items))))⟩ := by
      rw [Machine.answer_plain hplain, hstep, OpenScene.stepItem_of_stray hstray, if_pos rfl,
        Verdict.mk_ok_bind]
      rfl
    have hrefused : ((target.machine { d with lenientSceneItems := false } extent).answer s found) =
        ⟨[.expected [.keyword .author, .keyword .branch, .closeBrace] found],
          .error .rejected⟩ := by
      rw [Machine.answer_plain hplain, hstep, OpenScene.stepItem_of_stray hstray,
        if_neg Bool.false_ne_true, Verdict.reject_bind]
      rfl
    obtain ⟨later, hissues⟩ := hm.exists_issues_run_eq hlenient
    have hread : target.read { d with lenientSceneItems := false } extent base items = _ :=
      hm'.run_of_refused hrefused
    refine ⟨_, hread, ?_⟩
    rw [hread] at hstrict
    have hbefore : ∀ i ∈ issues, ¬ i.IsSkip := fun i hi => hstrict i (List.mem_append_left _ hi)
    have hstops := Diagnostic.stopsAtSkip_of_issues draft.header.id later
      [.keyword .author, .keyword .branch, .closeBrace] hplain hbefore
    unfold read Machine.read
    rw [hissues]
    exact hstops

/-- The outcomes of a lenient and of a strict parse of a source. -/
theorem outcome_lenient_cases {source : String}
    (hf : base + byteLength source.toList ≤ positionLimit) :
    ∃ lenient strict : target.Outcome,
      target.parse { d with lenientSceneItems := true } extent source base = .ok lenient ∧
      target.parse { d with lenientSceneItems := false } extent source base = .ok strict ∧
      ((∀ x ∈ lenient.diagnostics, ¬ x.IsSkip) ∧ strict = lenient ∨
        ∃ rejected, Diagnostic.StopsAtSkip lenient.diagnostics rejected ∧
          strict = .error rejected) := by
  obtain ⟨lenient, hp, hx⟩ := target.exists_outcome { d with lenientSceneItems := true } extent hf
  rcases target.read_lenient_cases d extent base (Lexer.ofString source base d).items with
    ⟨heq, hnone⟩ | ⟨rejected, hstrict, hstops⟩
  · refine ⟨lenient, lenient, hp, ?_, .inl ⟨hx ▸ Diagnostic.forall_not_isSkip hnone, rfl⟩⟩
    rw [← hp]
    exact parse_congr heq.symm
  · exact ⟨lenient, _, hp, (parse_eq_rejected_iff hf).2 ⟨rejected, hstrict, rfl⟩,
      .inr ⟨_, hx ▸ hstops, rfl⟩⟩

/-- A strict dialect accepts what the standard one accepts without a skip. -/
theorem parse_strict_iff {source : String} {parsed : Parsed target.Node}
    (hf : base + byteLength source.toList ≤ positionLimit) :
    target.parse .strict extent source base = .ok (.ok parsed) ↔
      target.parse .standard extent source base = .ok (.ok parsed) ∧
        ∀ x ∈ parsed.warnings, ¬ x.IsSkip := by
  obtain ⟨lenient, strict, hp, hp', hcases⟩ := target.outcome_lenient_cases .standard extent base hf
  have hstandard : target.parse .standard extent source base = .ok lenient := hp
  have hstrict : target.parse .strict extent source base = .ok strict := hp'
  rw [hstandard, hstrict, Except.ok.injEq, Except.ok.injEq]
  rcases hcases with ⟨hnone, rfl⟩ | ⟨rejected, hstops, rfl⟩
  · constructor
    · rintro rfl
      exact ⟨rfl, hnone⟩
    · exact And.left
  · constructor
    · intro h
      cases h
    · rintro ⟨rfl, hnone⟩
      obtain ⟨x, hx, hskip⟩ := hstops.exists_isSkip
      exact (hnone x hx hskip).elim

/-- Leniency about the items of a scene only turns the errors about stray tokens into warnings. If a
lenient parse skips nothing, the strict one comes to the same. Otherwise the strict one is rejected:
it reports what the lenient one reports before its first skip, and an error at the token that is
skipped there. So a strict dialect accepts the sources that the standard one accepts without a
skip. -/
theorem lenient_items_only_skip :
    (∀ items, ∃ result emitted,
      (∀ journal, target.readInto { d with lenientSceneItems := true } extent base items journal =
        (result, journal.recordAll emitted)) ∧
      ((∀ x ∈ emitted, ¬ x.IsSkip) ∧
        (∀ journal,
          target.readInto { d with lenientSceneItems := false } extent base items journal =
            (result, journal.recordAll emitted)) ∨
      ∃ rejected, Diagnostic.StopsAtSkip emitted rejected ∧
        ∀ journal, target.readInto { d with lenientSceneItems := false } extent base items journal =
          (.error .rejected, journal.recordAll rejected))) ∧
    ∀ source : String, base + byteLength source.toList ≤ positionLimit →
      (∃ lenient strict : target.Outcome,
        target.parse { d with lenientSceneItems := true } extent source base = .ok lenient ∧
        target.parse { d with lenientSceneItems := false } extent source base = .ok strict ∧
        ((∀ x ∈ lenient.diagnostics, ¬ x.IsSkip) ∧ strict = lenient ∨
          ∃ rejected, Diagnostic.StopsAtSkip lenient.diagnostics rejected ∧
            strict = .error rejected)) ∧
      ∀ parsed, target.parse .strict extent source base = .ok (.ok parsed) ↔
        target.parse .standard extent source base = .ok (.ok parsed) ∧
          ∀ x ∈ parsed.warnings, ¬ x.IsSkip := by
  constructor
  · intro items
    rcases target.read_lenient_cases d extent base items with
      ⟨heq, hnone⟩ | ⟨rejected, hstrict, hstops⟩
    · refine ⟨_, _, fun _ => rfl, .inl ⟨Diagnostic.forall_not_isSkip hnone, fun journal => ?_⟩⟩
      unfold readInto
      rw [heq]
    · refine ⟨_, _, fun _ => rfl, .inr ⟨_, hstops, fun journal => ?_⟩⟩
      unfold readInto
      rw [hstrict]
  · intro source hf
    exact ⟨target.outcome_lenient_cases d extent base hf,
      fun parsed => target.parse_strict_iff extent base hf⟩

/-- A scene with an identifier that is skipped, and at which the strict parse is rejected. -/
theorem lenient_items_only_skip_identifier :
    0 + byteLength "scene s \x7b x \x7d".toList ≤ positionLimit ∧
    ∃ s skip e,
      Target.scene.parse .standard .whole "scene s \x7b x \x7d" 0 = .ok (.ok ⟨s, [skip]⟩) ∧
      Target.scene.parse .strict .whole "scene s \x7b x \x7d" 0 = .ok (.error [e]) ∧
      skip.IsSkip ∧ e.level = .error ∧ e.spans = skip.spans := by
  have hf : 0 + byteLength "scene s \x7b x \x7d".toList ≤ positionLimit := by decide
  have hstandard : ∃ s, Target.scene.parse .standard .whole "scene s \x7b x \x7d" 0 =
      .ok (.ok ⟨s, [(Issue.skipped ⟨.ident, "x", ⟨10, 1⟩⟩ "s").diagnostic]⟩) :=
    ⟨_, by with_unfolding_all rfl⟩
  obtain ⟨s, hs⟩ := hstandard
  obtain ⟨⟨lenient, strict, hp, hp', hcases⟩, -⟩ :=
    (lenient_items_only_skip .scene .standard .whole 0).2 "scene s \x7b x \x7d" hf
  obtain rfl := Except.ok.inj (hs.symm.trans hp)
  rcases hcases with ⟨hnone, -⟩ | ⟨rejected, hstops, rfl⟩
  · exact (hnone _ List.mem_cons_self ⟨_, _, rfl⟩).elim
  · obtain ⟨before, skip, after, e, hlenient, -, hskip, rfl, he, -, hspans⟩ := hstops
    cases before with
    | cons x before => simp [Outcome.diagnostics] at hlenient
    | nil =>
      obtain ⟨rfl, -⟩ := List.cons.inj hlenient
      exact ⟨hf, s, _, e, hs, hp', hskip, he, hspans⟩

end Target
end Scenario
