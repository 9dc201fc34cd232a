import Scenario.Proofs.Reports
import Scenario.Proofs.Truncation.Astray

/-!
# What the category of a rejection tells

A rejection at a token is final: whatever tokens stand behind, the diagnostics stay as they are. A
rejection at the end of the input is not, since the machine still waits for a token, and whether it
can come to a result depends on its state alone.

Main statement: `Target.readInto_rejected`.
-/

namespace Scenario
namespace Machine

variable {σ α : Type} {m : Machine σ α} {good : Span → Prop} {inv : σ → Prop} {w : Wait σ}
  {text : List Token}

/-- Passing tokens raises warnings, and ends with an error at a token or leaves something pending
that heeds the protocol. -/
theorem Heeds.heeds_pass (h : m.Heeds good inv) (hg : Span.Closed good) (hl : w.last.Fits)
    (hp : w.pending.Heeds good inv) (ht : ∀ t ∈ text, t.IsPlain ∧ good t.span) :
    (m.pass w (text.map .token)).Heeds good
      (Turn.Leads (fun w => w.last.Fits ∧ w.pending.Heeds good inv) fun _ => True) := by
  induction text generalizing w with
  | nil => exact Verdict.meets_pure ⟨hl, hp⟩
  | cons t text ih =>
    obtain ⟨hplain, hgood⟩ := ht t List.mem_cons_self
    rw [List.map_cons, pass, receive_plain hplain, bind_assoc]
    apply hp.bind
    intro s hs
    rw [bind_assoc]
    apply (h.step s t hs hplain hgood).bind
    intro turn hturn
    cases turn with
    | done value => exact Verdict.meets_pure trivial
    | more pending =>
      exact ih (hg.fits _ hgood) hturn fun u hu => ht u (List.mem_cons_of_mem _ hu)

/-- Behind some tokens a run has come to its end, with an error or a result that no further token
changes, or the machine waits for a token in some state. -/
theorem Heeds.pass_cases (h : m.Heeds good inv) (hg : Span.Closed good) (hl : w.last.Fits)
    (hp : w.pending.Heeds good inv) (ht : ∀ t ∈ text, t.IsPlain ∧ good t.span) :
    (∃ ws e, (∀ i ∈ ws, i.IsWarning) ∧ e.IsError .malformed good ∧ ∀ more : List Token,
      m.run w ((text ++ more).map .token) = ⟨ws ++ [e], .error .rejected⟩) ∨
    (∃ is value, ∀ more : List Token, m.run w ((text ++ more).map .token) = ⟨is, .ok value⟩) ∨
    ∃ is last js s, (∀ i ∈ is ++ js, i.IsWarning) ∧ last.Fits ∧ inv s ∧
      m.pass w (text.map .token) = ⟨is, .ok (.more ⟨last, ⟨js, .ok s⟩⟩)⟩ := by
  have hpass := h.heeds_pass hg hl hp ht
  rcases hv : m.pass w (text.map .token) with ⟨is, result⟩
  rw [hv] at hpass
  match result with
  | .error (.fault f) => exact hpass.elim
  | .error .rejected =>
    obtain ⟨ws, e, rfl, hw, he⟩ := hpass
    refine .inl ⟨ws, e, hw, he, fun more => ?_⟩
    rw [List.map_append]
    exact run_append_of_pass_error hv
  | .ok (.done value) =>
    refine .inr (.inl ⟨is, value, fun more => ?_⟩)
    rw [List.map_append]
    exact run_append_of_pass_done hv
  | .ok (.more ⟨last, ⟨js, .error (.fault f)⟩⟩) => exact hpass.2.2.elim
  | .ok (.more ⟨last, ⟨js, .error .rejected⟩⟩) =>
    obtain ⟨hw, hlast, ws, e, rfl, hws, he⟩ := hpass
    refine .inl ⟨is ++ ws, e, List.forall_mem_append.2 ⟨hw, hws⟩, he, fun more => ?_⟩
    rw [List.map_append, run_append_of_pass hv, run_of_pending_error hlast rfl, List.append_assoc]
  | .ok (.more ⟨last, ⟨js, .ok s⟩⟩) =>
    obtain ⟨hw, hlast, hws, hs⟩ := hpass
    exact .inr (.inr ⟨is, last, js, s, List.forall_mem_append.2 ⟨hw, hws⟩, hlast, hs, rfl⟩)

/-- A run is rejected at a token, and then so is every longer one, or it is rejected at the end, in
a state in which the machine waits for a token. -/
theorem Heeds.rejected_cases (h : m.Heeds good inv) (hg : Span.Closed good) (hl : w.last.Fits)
    (hp : w.pending.Heeds good inv) (ht : ∀ t ∈ text, t.IsPlain ∧ good t.span)
    (hr : (m.run w (text.map .token)).result = .error .rejected) :
    ∃ ws e, m.run w (text.map .token) = ⟨ws ++ [e], .error .rejected⟩ ∧ (∀ i ∈ ws, i.IsWarning) ∧
      (e.IsError .malformed good ∧ (∀ more : List Token,
        m.run w ((text ++ more).map .token) = ⟨ws ++ [e], .error .rejected⟩) ∨
      ∃ stop is last js s, e.IsError .unexpectedEnd (· = stop) ∧ last.Fits ∧ inv s ∧
        m.pass w (text.map .token) = ⟨is, .ok (.more ⟨last, ⟨js, .ok s⟩⟩)⟩) := by
  rcases h.pass_cases hg hl hp ht with ⟨ws, e, hw, he, hall⟩ | ⟨is, value, hall⟩ |
    ⟨is, last, js, s, hw, hlast, hs, hpass⟩
  · have hrun := hall []
    rw [List.append_nil] at hrun
    exact ⟨ws, e, hrun, hw, .inl ⟨he, hall⟩⟩
  · have hrun := hall []
    rw [List.append_nil] at hrun
    rw [hrun] at hr
    cases hr
  · -- Only the end of the input is left that the error can be about.
    obtain ⟨stop, hrun⟩ := run_nil_of_pass hlast hpass
    have hfinish := h.finish s stop hs
    rcases hf : m.finish s stop with ⟨ks, result⟩
    rw [hf] at hrun hfinish
    rw [hrun] at hr
    dsimp only at hr
    subst hr
    obtain ⟨ws, e, rfl, hws, he⟩ := hfinish
    refine ⟨is ++ js ++ ws, e, ?_, List.forall_mem_append.2 ⟨hw, hws⟩, .inr ?_⟩
    · simpa using hrun
    · exact ⟨stop, is, last, js, s, he, hlast, hs, hpass⟩

/-- Behind some tokens, others lead to a result exactly if they do so from the state there. -/
theorem exists_run_ok_iff {is js : List Issue} {last : Span} {s : σ}
    (h : m.pass w (text.map .token) = ⟨is, .ok (.more ⟨last, ⟨js, .ok s⟩⟩)⟩) :
    (∃ more value, Token.AllSound more ∧
      (m.run w ((text ++ more).map .token)).result = .ok value) ↔ m.Completes last s := by
  have hrun : ∀ more : List Token, (m.run w ((text ++ more).map .token)).result =
      (m.run ⟨last, ⟨js, .ok s⟩⟩ (more.map .token)).result := by
    intro more
    rw [List.map_append, run_append_of_pass h]
  constructor
  · rintro ⟨more, value, hmore, hv⟩
    rw [hrun, Verdict.result_eq_ok_iff] at hv
    obtain ⟨issues, hv⟩ := hv
    obtain ⟨_, _, ks, hs, ha, -⟩ := run_eq_ok_iff.1 hv
    cases hs
    exact ⟨more, ks, value, hmore, ha⟩
  · rintro ⟨more, ks, value, hmore, ha⟩
    have hv := run_eq_ok_iff.2 ⟨js, s, ks, rfl, ha, rfl⟩
    refine ⟨more, value, hmore, ?_⟩
    rw [hrun, hv]

end Machine

theorem AuthorAstray.exists_last {d : Dialect} {text : List Token} (h : AuthorAstray d text) :
    ∃ init t, text = init ++ [t] ∧ t.kind = .keyword .branch := by
  obtain @⟨keyword, name, branch, opening, content, -, -, hb, -, -⟩ := h
  exact ⟨keyword :: name :: (opening ++ content), branch, by simp, hb⟩

namespace Target

variable {target : Target} {d : Dialect} {base : Nat} {text : List Token}

/-- The category of the error with which tokens are rejected tells whether they are wrong or cut
off. If it is `malformed`, nothing that follows them changes the diagnostics. If it is
`unexpectedEnd`, the tokens can be continued so that they are parsed, unless they end with the
keyword of a branch in an author outside of scenes. -/
theorem readInto_rejected (hb : base ≤ positionLimit) (ht : ∀ t ∈ text, t.IsPlain ∧ t.span.Fits)
    (hr : (target.read d .whole base (text.map .token)).result = .error .rejected) :
    ∃ warnings e, (∀ x ∈ warnings, x.level = .warning) ∧ e.level = .error ∧
      (∀ journal, target.readInto d .whole base (text.map .token) journal =
        (.error .rejected, journal.recordAll (warnings ++ [e]))) ∧
      (e.category = .malformed ∧ (∀ (more : List Token) (journal : Journal),
        target.readInto d .whole base ((text ++ more).map .token) journal =
          (.error .rejected, journal.recordAll (warnings ++ [e]))) ∨
      e.category = .unexpectedEnd ∧
        ((∃ more value, (∀ t ∈ more, t.IsPlain ∧ t.span.Fits) ∧
          (target.read d .whole base ((text ++ more).map .token)).result = .ok value) ↔
            ¬ target.Astray d text)) := by
  have hm := @heeds_machine Span.Fits d Span.closed_fits target .whole
  have hl : ((target.machine d .whole).initial base).last.Fits := hb
  obtain ⟨ws, e, hrun, hw, hcases⟩ :=
    hm.rejected_cases Span.closed_fits hl (Verdict.meets_pure hm.start) ht hr
  have hwarn : ∀ x ∈ ws.map Issue.diagnostic, x.level = .warning :=
    fun x hx => (Issue.warning_of_mem_diagnostics hw x hx).1
  have hinto : ∀ items journal,
      (target.machine d .whole).read base items = ⟨ws ++ [e], .error .rejected⟩ →
        target.readInto d .whole base items journal =
          (.error .rejected, journal.recordAll (ws.map Issue.diagnostic ++ [e.diagnostic])) := by
    intro items journal h
    simp [readInto, read, h]
  refine ⟨ws.map Issue.diagnostic, e.diagnostic, hwarn, ?_, fun journal => hinto _ journal hrun, ?_⟩
  · rcases hcases with ⟨he, -⟩ | ⟨_, _, _, _, _, he, -⟩
    · exact he.1
    · exact he.1
  · rcases hcases with ⟨he, hmore⟩ | ⟨stop, is, last, js, s, he, hlast, hs, hpass⟩
    · exact .inl ⟨he.2.1, fun more journal => hinto _ journal (hmore more)⟩
    · have hcompletes : (target.machine d .whole).Completes last s ↔ ¬ target.Astray d text :=
        (completes_iff hlast hs).trans (not_congr (isStray_iff_of_pass ht hpass))
      exact .inr ⟨he.2.1, (Machine.exists_run_ok_iff hpass).trans hcompletes⟩

/-- An author that has just been opened is cut off and can be continued. With the keyword of a
branch behind it, it is still cut off, and cannot be continued any more. -/
theorem readInto_rejected_author :
    let opened : List Token := [⟨.keyword .author, "author", ⟨0, 6⟩⟩, ⟨.ident, "a", ⟨7, 1⟩⟩,
      ⟨.openBrace, "\x7b", ⟨9, 1⟩⟩]
    let stray : List Token := opened ++ [⟨.keyword .branch, "branch", ⟨11, 6⟩⟩]
    let Continues (text : List Token) : Prop :=
      ∃ more value, (∀ t ∈ more, t.IsPlain ∧ t.span.Fits) ∧
        (Target.author.read .strict .whole 0 ((text ++ more).map .token)).result = .ok value
    Continues opened ∧ ¬ Continues stray := by
  intro opened stray Continues
  have hlast : ∀ (text : List Token) (warnings : List Diagnostic) (e : Diagnostic),
      (Target.author.readInto .strict .whole 0 (text.map .token) .empty).2 =
        Journal.empty.recordAll (warnings ++ [e]) →
      (Target.author.readInto .strict .whole 0 (text.map .token) .empty).2.entries.getLast? =
        some e := by
    intro text warnings e h
    rw [h]
    simp
  constructor
  · obtain ⟨warnings, e, -, -, hj, hcases⟩ :=
      @readInto_rejected .author .strict 0 opened (by decide) (by decide) rfl
    have he := hlast opened warnings e (congrArg Prod.snd (hj .empty))
    cases he
    rcases hcases with ⟨hc, -⟩ | ⟨-, h⟩
    · cases hc
    · refine h.2 fun hastray => ?_
      obtain ⟨init, t, hopened, ht⟩ := AuthorAstray.exists_last hastray
      have hbrace := congrArg List.getLast? hopened
      rw [List.getLast?_concat] at hbrace
      cases hbrace
      cases ht
  · obtain ⟨warnings, e, -, -, hj, hcases⟩ :=
      @readInto_rejected .author .strict 0 stray (by decide) (by decide) rfl
    have he := hlast stray warnings e (congrArg Prod.snd (hj .empty))
    cases he
    rcases hcases with ⟨hc, -⟩ | ⟨-, h⟩
    · cases hc
    · have hastray : Target.author.Astray .strict stray :=
        @AuthorAstray.intro .strict _ _ _ _ [] rfl rfl rfl (.brace rfl) .nil
      exact fun hcontinues => h.1 hcontinues hastray

end Target
end Scenario
