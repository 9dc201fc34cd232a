import Scenario.Proofs.Expectation.Targets
import Scenario.Proofs.Truncation.Rejection
import Mathlib.Data.List.Basic

/-!
# What an error lists is what may stand

An error that lists kinds of token lists all kinds that the tokens read so far can be continued
with, and no others. A listed token leads on to a state from which there is a way to a result, and
any other token is refused there and then. The one place in which the list promises too much is a
branch outside of scenes: its name is asked for, and no author comes of it.

Main statement: `Target.read_expected`.
-/

namespace Scenario

variable {d : Dialect} {kinds : List Kind}

/-- The kinds are listed in their order and none of them twice, and there is at least one. -/
def Kind.Listed (kinds : List Kind) : Prop := kinds ≠ [] ∧ kinds.Pairwise (· < ·)

instance (kinds : List Kind) : Decidable (Kind.Listed kinds) :=
  inferInstanceAs (Decidable (_ ∧ _))

section Listed

theorem Declaration.listed_of_demands {decl : Declaration} (h : decl.demands d = some kinds) :
    Kind.Listed kinds := by
  cases decl with
  | opened keyword span =>
    cases h
    decide
  | named header =>
    rw [demands_named] at h
    split at h
    · contradiction
    · cases h
      decide
  | inside header depth => cases h

theorem LoneAuthor.listed_of_demands {a : LoneAuthor} (h : a.demands d = some kinds) :
    Kind.Listed kinds := by
  cases a with
  | reading decl => exact Declaration.listed_of_demands h
  | stray author opened =>
    cases h
    decide

theorem OpenScene.listed_of_demands {o : OpenScene} (h : o.demands d = some kinds) :
    Kind.Listed kinds := by
  match o with
  | opened span =>
    cases h
    decide
  | named header =>
    cases h
    decide
  | inside s .items =>
    rw [demands_items] at h
    split at h
    · contradiction
    · cases h
      decide
  | inside s (.author decl) => exact Declaration.listed_of_demands h
  | inside s (.branch host decl) => exact Declaration.listed_of_demands h

theorem Sole.listed_of_demands {ρ α : Type} {keyword : Keyword} {part : ρ → Option (List Kind)}
    (hpart : ∀ r, part r = some kinds → Kind.Listed kinds) {s : Sole ρ α}
    (h : s.demands keyword part = some kinds) : Kind.Listed kinds := by
  cases s with
  | start =>
    cases h
    exact ⟨by simp, List.pairwise_singleton _ _⟩
  | reading r => exact hpart r h
  | complete value =>
    cases h
    decide

theorem Target.listed_of_demands {target : Target} {s : target.State}
    (h : target.demands d s = some kinds) : Kind.Listed kinds := by
  cases target with
  | document =>
    cases s with
    | items document =>
      cases h
      decide
    | author document a => exact LoneAuthor.listed_of_demands h
    | scene document o => exact OpenScene.listed_of_demands h
  | scene => exact Sole.listed_of_demands (fun _ => OpenScene.listed_of_demands) h
  | author => exact Sole.listed_of_demands (fun _ => LoneAuthor.listed_of_demands) h

end Listed

/-- The issue of such a rejection lists no kinds. -/
theorem Verdict.RejectsStrayOnly.exists_last {α : Type} {v : Verdict α} {issues : List Issue}
    (h : v.RejectsStrayOnly) (hv : v = ⟨issues, .error .rejected⟩) :
    ∃ ws i, issues = ws ++ [i] ∧ ∀ kinds found, i ≠ .expected kinds found := by
  subst hv
  obtain ⟨id, span, author, hstray⟩ := h rfl
  exact ⟨[], _, hstray, by simp⟩

namespace Machine

variable {σ α : Type} {m : Machine σ α} {demands : σ → Option (List Kind)}

/-- Behind `before` the machine waits in the state `s`. -/
def WaitsIn (m : Machine σ α) (w : Wait σ) (before : List Token) (s : σ) : Prop :=
  ∃ is last js, last.Fits ∧ m.pass w (before.map .token) = ⟨is, .ok (.more ⟨last, ⟨js, .ok s⟩⟩)⟩

theorem WaitsIn.cons {w : Wait σ} {t : Token} {before : List Token} {s r : σ} {js ks : List Issue}
    {pending : Verdict σ} (h : m.WaitsIn ⟨t.span, pending⟩ before s) (ht : t.IsPlain)
    (hw : w.pending = ⟨js, .ok r⟩) (hs : m.step r t = ⟨ks, .ok (.more pending)⟩) :
    m.WaitsIn w (t :: before) s := by
  obtain ⟨is, last, ls, hl, hpass⟩ := h
  obtain ⟨last', pending'⟩ := w
  dsimp only at hw
  subst hw
  exact ⟨_, last, ls, hl, pass_cons ht hs hpass⟩

/-- A rejection at tokens has an issue that comes last. If it lists kinds, they are demanded in the
state in which the machine waits for the token that is found. -/
theorem exists_of_rejected
    (hstep : ∀ s t, t.IsPlain → (m.step s t).Obeys (demands s) t
      fun turn => ∀ pending, turn = .more pending → pending.RejectsStrayOnly)
    (hfinish : ∀ s stop issues, m.finish s stop = ⟨issues, .error .rejected⟩ →
      ∃ i, issues = [i] ∧ ∀ kinds found, i = .expected kinds found →
        found = .eof stop ∧ demands s = some kinds)
    {w : Wait σ} {text : List Token} {issues : List Issue} (hl : w.last.Fits)
    (hw : w.pending.RejectsStrayOnly) (ht : ∀ t ∈ text, t.IsPlain ∧ t.span.Fits)
    (hr : m.run w (text.map .token) = ⟨issues, .error .rejected⟩) :
    ∃ ws i, issues = ws ++ [i] ∧ ∀ kinds found, i = .expected kinds found →
      ∃ before after s, text = before ++ after ∧ m.WaitsIn w before s ∧ demands s = some kinds ∧
        ((∃ rest, after = found :: rest ∧ found.kind ∉ kinds) ∨
          after = [] ∧ ∃ stop, found = .eof stop) := by
  obtain ⟨last, pending⟩ := w
  induction text generalizing last pending issues with
  | nil =>
    simp only [List.map_nil, run, close, Span.shrinkToEnd_of_fits hl, Verdict.ofExcept_ok,
      pure_bind] at hr
    rcases Verdict.bind_eq_error_iff.1 hr with hp | ⟨is, s, js, rfl, hf, rfl⟩
    · obtain ⟨ws, i, hi, hne⟩ := hw.exists_last hp
      exact ⟨ws, i, hi, fun kinds found h => (hne kinds found h).elim⟩
    · obtain ⟨i, rfl, hdemands⟩ := hfinish s _ js hf
      refine ⟨is, i, rfl, fun kinds found h => ?_⟩
      obtain ⟨rfl, hd⟩ := hdemands kinds found h
      exact ⟨[], [], s, rfl, ⟨[], last, is, hl, rfl⟩, hd, .inr ⟨rfl, _, rfl⟩⟩
  | cons t text ih =>
    obtain ⟨hplain, hfits⟩ := ht t List.mem_cons_self
    rw [List.map_cons, run_plain hplain] at hr
    rcases Verdict.bind_eq_error_iff.1 hr with hp | ⟨is, s, js, rfl, hs, rfl⟩
    · obtain ⟨ws, i, hi, hne⟩ := hw.exists_last hp
      exact ⟨ws, i, hi, fun kinds found h => (hne kinds found h).elim⟩
    have hobeys := hstep s t hplain
    generalize hv : m.step s t = v at hs hobeys
    cases hobeys with
    | @refused kinds hd hk =>
      rw [Verdict.reject_bind] at hs
      cases hs
      refine ⟨is, _, rfl, ?_⟩
      rintro _ _ ⟨⟩
      exact ⟨[], t :: text, s, rfl, ⟨[], last, is, hl, rfl⟩, hd, .inl ⟨text, rfl, hk⟩⟩
    | @taken ks turn htaken hturn =>
      rw [Verdict.bind_of_ok rfl] at hs
      cases turn with
      | done value => cases hs
      | more pending =>
        rw [Verdict.mk.injEq] at hs
        obtain ⟨rfl, hresult⟩ := hs
        have hrest : m.run ⟨t.span, pending⟩ (text.map .token) =
            ⟨(m.run ⟨t.span, pending⟩ (text.map .token)).issues, .error .rejected⟩ := by
          rw [← hresult]
        obtain ⟨ws, i, hi, hlisted⟩ := ih (fun u hu => ht u (List.mem_cons_of_mem _ hu)) t.span
          pending hfits (hturn pending rfl) hrest
        refine ⟨is ++ (ks ++ ws), i, by simp [hi], fun kinds found h => ?_⟩
        obtain ⟨before, after, r, rfl, hr, hd, hafter⟩ := hlisted kinds found h
        have hwait : m.WaitsIn ⟨last, ⟨is, .ok s⟩⟩ (t :: before) r := hr.cons hplain rfl hv
        exact ⟨t :: before, after, r, rfl, hwait, hd, hafter⟩

/-- What the states keep holds of the one in which the machine waits. -/
theorem WaitsIn.keeps {good : Span → Prop} {inv : σ → Prop} {w : Wait σ} {before : List Token}
    {s : σ} (h : m.WaitsIn w before s) (hm : m.Heeds good inv) (hg : Span.Closed good)
    (hl : w.last.Fits) (hp : w.pending.Heeds good inv)
    (ht : ∀ t ∈ before, t.IsPlain ∧ good t.span) : inv s := by
  obtain ⟨is, last, js, -, hpass⟩ := h
  have hheeds := hm.heeds_pass hg hl hp ht
  rw [hpass] at hheeds
  exact hheeds.2.2.2

end Machine

namespace Target

variable {target : Target} {base : Nat} {text before : List Token} {t : Token}

/-- The tokens are the front of some that are parsed. -/
def Viable (target : Target) (d : Dialect) (base : Nat) (text : List Token) : Prop :=
  ∃ more value, Token.AllSound more ∧
    (target.read d .whole base ((text ++ more).map .token)).result = .ok value

/-- Where the machine waits for a token of certain kinds, those are the kinds that can be parsed
there, but for the name of a branch outside of scenes. -/
theorem mem_demands_iff {s : target.State} (hb : base ≤ positionLimit)
    (hbefore : Token.AllSound before) (ht : t.IsPlain) (hf : t.span.Fits)
    (hw : (target.machine d .whole).WaitsIn ((target.machine d .whole).initial base) before s)
    (hd : target.demands d s = some kinds) :
    t.kind ∈ kinds ↔
      target.Viable d base (before ++ [t]) ∨ target.Astray d before ∧ t.kind = .ident := by
  have hm := @heeds_machine Span.Fits d Span.closed_fits target .whole
  have hl : ((target.machine d .whole).initial base).last.Fits := hb
  have hspans := hw.keeps hm Span.closed_fits hl (Verdict.meets_pure hm.start) hbefore
  obtain ⟨is, last, js, hlast, hpass⟩ := hw
  have hstray := isStray_iff_of_pass hbefore hpass
  constructor
  · intro hk
    by_cases hs : target.IsStray s
    · rw [demands_of_isStray hs, Option.some.injEq] at hd
      subst hd
      exact .inr ⟨hstray.1 hs, List.mem_singleton.1 hk⟩
    · obtain ⟨s', hstep, hs'⟩ := exists_step_of_demands hspans hs ht hf hd hk
      have hpass' : (target.machine d .whole).pass ((target.machine d .whole).initial base)
          ((before ++ [t]).map .token) =
            ⟨is ++ (js ++ ([] ++ [])), .ok (.more ⟨t.span, pure s'⟩)⟩ := by
        rw [List.map_append]
        exact Machine.pass_append_of_pass hpass (Machine.pass_cons ht hstep rfl)
      have hheeds := hm.step s t hspans ht hf
      rw [hstep] at hheeds
      exact .inl ((Machine.exists_run_ok_iff hpass').2 ((completes_iff hf hheeds.2.2).2 hs'))
  · rintro (⟨more, value, hmore, hv⟩ | ⟨hastray, hk⟩)
    · by_contra hk
      have hreject := (obeys_step (d := d) (s := s) ht).eq_reject hd hk
      have hrun : ((target.machine d .whole).run ⟨last, ⟨js, .ok s⟩⟩
          ((t :: more).map .token)).result = .ok value := by
        rw [← hv, List.append_assoc, List.map_append, read, Machine.read,
          Machine.run_append_of_pass hpass]
        rfl
      rw [List.map_cons, Machine.run_plain ht, Verdict.bind_of_ok rfl, hreject,
        Verdict.reject_bind] at hrun
      cases hrun
    · rw [demands_of_isStray (hstray.2 hastray), Option.some.injEq] at hd
      subst hd
      exact List.mem_singleton.2 hk

/-- An error that lists kinds lists the kinds of just those tokens that lead on from the tokens
before, in their order and each of them once. Only where a branch has begun outside of scenes its
name is listed though no author comes of it. -/
theorem read_expected {issues : List Issue} {found : Token} (hb : base ≤ positionLimit)
    (ht : Token.AllSound text)
    (hr : target.read d .whole base (text.map .token) = ⟨issues, .error .rejected⟩)
    (he : .expected kinds found ∈ issues) :
    (∃ warnings x, (∀ journal, target.readInto d .whole base (text.map .token) journal =
        (.error .rejected, journal.recordAll (warnings ++ [x]))) ∧
      x.message = (if kinds.length = 1 then "expected " else "expected one of ") ++
        ", ".intercalate (kinds.map Kind.describe) ++ ", found " ++ found.describe) ∧
    Kind.Listed kinds ∧
    ∃ before after, text = before ++ after ∧
      ((∃ rest, after = found :: rest ∧ found.kind ∉ kinds) ∨
        after = [] ∧ ∃ stop, found = .eof stop) ∧
      ∀ t : Token, t.IsPlain → t.span.Fits →
        (t.kind ∈ kinds ↔
          target.Viable d base (before ++ [t]) ∨ target.Astray d before ∧ t.kind = .ident) := by
  have hm := @heeds_machine Span.Fits d Span.closed_fits target .whole
  have hl : ((target.machine d .whole).initial base).last.Fits := hb
  -- Before the error there are only warnings, so it is the error that lists the kinds.
  obtain ⟨ws, i, hi, hlisted⟩ := Machine.exists_of_rejected (fun _ _ hp => obeys_step hp)
    (fun _ _ _ => demands_of_finish) hl (Verdict.rejectsStrayOnly_pure _) ht hr
  obtain ⟨ws', e, hrun, hw, -⟩ := hm.rejected_cases Span.closed_fits hl
    (Verdict.meets_pure hm.start) ht (congrArg Verdict.result hr)
  obtain rfl : issues = ws' ++ [e] := congrArg Verdict.issues (hr.symm.trans hrun)
  obtain ⟨rfl, hlast⟩ := List.append_inj' hi rfl
  obtain rfl : e = i := List.singleton_inj.1 hlast
  obtain rfl : .expected kinds found = e := by
    rcases List.mem_append.1 he with he | he
    · cases (hw _ he).1
    · exact List.mem_singleton.1 he
  have hinto : ∀ journal, target.readInto d .whole base (text.map .token) journal =
      (.error .rejected, journal.recordAll (ws'.map Issue.diagnostic ++
        [(Issue.expected kinds found).diagnostic])) := by
    intro journal
    simp [readInto, hr]
  obtain ⟨before, after, s, rfl, hwait, hd, hafter⟩ := hlisted kinds found rfl
  have hbefore := (List.forall_mem_append.1 ht).1
  refine ⟨⟨_, _, hinto, ?_⟩, listed_of_demands hd, before, after, rfl, hafter, ?_⟩
  · simp only [Issue.diagnostic, Issue.message, Issue.describeExpected]
    split <;> rfl
  · exact fun t hp hf => mem_demands_iff hb hbefore hp hf hwait hd

/-- Behind the brace of a scene that is read strictly, declarations and the closing brace are what
leads on. This is what the error at a stray identifier says. -/
theorem read_expected_scene :
    let opened : List Token := [⟨.keyword .scene, "scene", ⟨0, 5⟩⟩, ⟨.ident, "a", ⟨6, 1⟩⟩,
      ⟨.openBrace, "\x7b", ⟨8, 1⟩⟩]
    ∀ t : Token, t.IsPlain → t.span.Fits →
      (t.kind ∈ [.keyword .author, .keyword .branch, .closeBrace] ↔
        Target.scene.Viable .strict 0 (opened ++ [t])) := by
  intro opened t hp hf
  have hsound : Token.AllSound (opened ++ [⟨.ident, "x", ⟨10, 1⟩⟩]) := by
    unfold Token.AllSound
    decide
  obtain ⟨-, -, before, after, htext, hafter, hlisted⟩ :=
    @read_expected .strict [.keyword .author, .keyword .branch, .closeBrace] .scene 0 _ _ _
      (by decide) hsound rfl List.mem_cons_self
  have hbefore : opened = before := by
    rcases hafter with ⟨rest, rfl, -⟩ | ⟨-, stop, heof⟩
    · exact ((List.append_cons_inj_of_notMem (by decide) (by decide)).1 htext).1
    · cases congrArg Token.kind heof
  subst hbefore
  simpa [Astray] using hlisted t hp hf

end Target
end Scenario
