import Scenario.Parser.Target
import Scenario.Proofs.Reading

/-!
# The protocol of diagnostics

Parsing raises warnings as it goes, and ends either with a result or with a single error, which is
the last thing it raises. This holds of every step, whatever token it is given, and carries over to
runs.

The main span of an error is formed from spans of tokens, or is the end of the input. Which property
the spans of tokens have does not matter, as long as it is kept when spans are united: `Span.Closed`
says so, and the proofs are about all such properties at once.
-/

namespace Scenario

/-- A property of spans that fit, kept when two of them are united. -/
structure Span.Closed (good : Span → Prop) : Prop where
  fits : ∀ s, good s → s.Fits
  union : ∀ s t u, good s → good t → s.union t = .ok u → good u

theorem Span.closed_fits : Closed Fits where
  fits _ h := h
  union s t u hs ht h := by
    rw [union_of_fits hs ht] at h
    cases h
    simp only [Fits] at *
    omega

theorem Span.closed_nonempty : Closed fun s => s.Fits ∧ s.len ≠ 0 where
  fits _ h := h.1
  union s t u hs ht h := by
    refine ⟨closed_fits.union s t u hs.1 ht.1 h, ?_⟩
    rw [union_of_fits hs.1 ht.1] at h
    cases h
    have := hs.2
    dsimp only
    omega

namespace Issue

/-- A complaint that does not make a parse fail. -/
def IsWarning (i : Issue) : Prop := i.level = .warning ∧ i.category = .other

/-- An error of the category, whose main span is one of `spans`. -/
def IsError (category : Category) (spans : Span → Prop) (i : Issue) : Prop :=
  i.level = .error ∧ i.category = category ∧ ∃ a, i.spans = some a ∧ spans a.main

theorem isWarning_skipped (t : Token) (scene : String) : (skipped t scene).IsWarning := ⟨rfl, rfl⟩

theorem isWarning_redefined (id : String) (span : Span) (scene : String) (previous : Span) :
    (redefined id span scene previous).IsWarning := ⟨rfl, rfl⟩

theorem isError_expected {good : Span → Prop} {t : Token} (kinds : List Kind) (ht : t.IsPlain)
    (hs : good t.span) : (expected kinds t).IsError .malformed good :=
  ⟨rfl, if_neg ht.2, _, rfl, hs⟩

theorem isError_expected_eof (kinds : List Kind) (stop : Span) :
    (expected kinds (.eof stop)).IsError .unexpectedEnd (· = stop) :=
  ⟨rfl, rfl, _, rfl, rfl⟩

theorem isError_unclosed (header : Header) (stop : Span) :
    (unclosed header stop).IsError .unexpectedEnd (· = stop) :=
  ⟨rfl, rfl, _, rfl, rfl⟩

theorem isError_strayBranch {good : Span → Prop} {span : Span} (id : String) (author : Header)
    (hs : good span) : (strayBranch id (some span) author).IsError .malformed good :=
  ⟨rfl, rfl, _, rfl, hs⟩

end Issue

namespace Verdict

variable {α β : Type} {good : Span → Prop}

/-- The verdict has warnings, and then a result with `post` or an error at a token. -/
def Heeds (good : Span → Prop) (post : α → Prop) (v : Verdict α) : Prop :=
  v.Meets Issue.IsWarning (Issue.IsError .malformed good) post

theorem heeds_union (hg : Span.Closed good) {s t : Span} (hs : good s) (ht : good t) :
    (ofExcept (s.union t)).Heeds good good := by
  have hu := Span.union_of_fits (hg.fits s hs) (hg.fits t ht)
  exact meets_ofExcept hu (hg.union _ _ _ hs ht hu)

theorem heeds_expected {post : α → Prop} {t : Token} (kinds : List Kind) (ht : t.IsPlain)
    (hs : good t.span) : (reject (.expected kinds t) : Verdict α).Heeds good post :=
  meets_reject (Issue.isError_expected kinds ht hs)

theorem Heeds.bind {post : α → Prop} {after : β → Prop} {v : Verdict α} {f : α → Verdict β}
    (hv : v.Heeds good post) (hf : ∀ a, post a → (f a).Heeds good after) :
    (v >>= f).Heeds good after :=
  Meets.bind hv hf

theorem Heeds.map {post : α → Prop} {after : β → Prop} {v : Verdict α} {f : α → β}
    (hv : v.Heeds good post) (hf : ∀ a, post a → after (f a)) : (f <$> v).Heeds good after := by
  rw [map_eq_pure_bind]
  exact hv.bind fun a ha => meets_pure (hf a ha)

end Verdict

section Steps

variable {good : Span → Prop} {d : Dialect} {t : Token}

/-- What a turn leads to. -/
def Turn.Leads {ρ α : Type} (inv : ρ → Prop) (post : α → Prop) : Turn ρ α → Prop
  | .more r => inv r
  | .done a => post a

/-- A part that heeds the protocol does so in the states that are made of it. -/
theorem Verdict.Heeds.resume {ρ α σ : Type} {inv : ρ → Prop} {post : α → Prop}
    {after : σ → Prop} {v : Verdict (Turn ρ α)} {state : Turn ρ α → σ}
    (h : v.Heeds good (Turn.Leads inv post)) (hmore : ∀ r, inv r → after (state (.more r)))
    (hdone : ∀ a, post a → after (state (.done a))) : (state <$> v).Heeds good after := by
  apply h.map
  intro turn hturn
  cases turn with
  | more r => exact hmore r hturn
  | done a => exact hdone a hturn

namespace Declaration

/-- The spans that a declaration keeps are good. -/
def Spans (good : Span → Prop) : Declaration → Prop
  | opened _ span => good span
  | named header => good header.opened
  | inside header _ => good header.opened

variable {decl : Declaration}

theorem spans_enter (h : decl.Spans good) : (decl.enter d t).Spans good := by
  cases decl with
  | named header =>
    simp only [enter]
    split <;> exact h
  | _ => exact h

theorem heeds_step (h : decl.Spans good) (ht : t.IsPlain) (hs : good t.span) :
    (decl.step d t).Heeds good
      (Turn.Leads (Spans good) fun last => good last.1.opened ∧ good last.2) := by
  have hd : (decl.enter d t).Spans good := spans_enter h
  unfold step
  split
  · rename_i he
    rw [he] at hd
    split
    · exact Verdict.meets_pure hd
    · exact Verdict.heeds_expected _ ht hs
  · rename_i he
    rw [he] at hd
    split
    · exact Verdict.meets_pure hd
    · exact Verdict.heeds_expected _ ht hs
  · rename_i he
    rw [he] at hd
    split
    · split
      · exact Verdict.meets_pure ⟨hd, hs⟩
      · exact Verdict.meets_pure hd
    · exact Verdict.meets_pure hd
    · exact Verdict.meets_pure hd

theorem spans_of_branchPlace? {header : Header} (h : decl.Spans good)
    (hb : decl.branchPlace? d t = some header) : good header.opened := by
  have hd : (decl.enter d t).Spans good := spans_enter h
  unfold branchPlace? at hb
  split at hb
  · rename_i he _
    rw [he] at hd
    cases hb
    exact hd
  · cases hb

theorem isError_unfinished (stop : Span) :
    (decl.unfinished d stop).IsError .unexpectedEnd (· = stop) := by
  unfold unfinished
  split
  · exact Issue.isError_expected_eof _ _
  · exact Issue.isError_expected_eof _ _
  · exact Issue.isError_unclosed _ _

end Declaration

namespace LoneAuthor

def Spans (good : Span → Prop) : LoneAuthor → Prop
  | reading decl => decl.Spans good
  | stray _ opened => good opened

theorem heeds_step (hg : Span.Closed good) {a : LoneAuthor} (h : a.Spans good) (ht : t.IsPlain)
    (hs : good t.span) :
    (a.step d t).Heeds good fun turn =>
      turn.Heeds good (Turn.Leads (Spans good) fun _ => True) := by
  cases a with
  | stray author opened =>
    simp only [step]
    split
    · apply Verdict.meets_pure
      have hu := Span.union_of_fits (hg.fits _ h) (hg.fits _ hs)
      simp only [rejectBranch, hu]
      exact Verdict.meets_reject
        (Issue.isError_strayBranch _ _ (hg.union _ _ _ h hs hu))
    · exact Verdict.heeds_expected _ ht hs
  | reading decl =>
    simp only [step]
    split
    · exact Verdict.meets_pure (Verdict.meets_pure hs)
    · apply (Declaration.heeds_step h ht hs).bind
      intro turn hturn
      cases turn with
      | more decl' => exact Verdict.meets_pure (Verdict.meets_pure hturn)
      | done last =>
        refine Verdict.meets_pure ((Verdict.heeds_union hg hturn.1 hturn.2).bind ?_)
        intro span _
        exact Verdict.meets_pure trivial

theorem isError_unfinished (a : LoneAuthor) (stop : Span) :
    (a.unfinished d stop).IsError .unexpectedEnd (· = stop) := by
  cases a with
  | reading decl => exact Declaration.isError_unfinished stop
  | stray author opened => exact Issue.isError_expected_eof _ _

end LoneAuthor

namespace OpenScene

def Spans (good : Span → Prop) : OpenScene → Prop
  | opened span => good span
  | named header => good header.opened
  | inside s .items => good s.header.opened
  | inside s (.author decl) => good s.header.opened ∧ decl.Spans good
  | inside s (.branch host decl) =>
    good s.header.opened ∧ (∀ header ∈ host, good header.opened) ∧ decl.Spans good

theorem heeds_addBranch (s : SceneDraft) (b : Branch) :
    (s.addBranch b).Heeds good fun s' => s'.header = s.header := by
  unfold SceneDraft.addBranch
  split
  · apply Verdict.Heeds.bind (Verdict.meets_note (Issue.isWarning_redefined _ _ _ _))
    intro _ _
    exact Verdict.meets_pure rfl
  · exact Verdict.meets_pure rfl

theorem heeds_stepItem (hg : Span.Closed good) {s : SceneDraft} (h : good s.header.opened)
    (ht : t.IsPlain) (hs : good t.span) :
    (stepItem d s t).Heeds good fun turn =>
      turn.Heeds good (Turn.Leads (Spans good) fun _ => True) := by
  unfold stepItem
  split
  · exact Verdict.meets_pure (Verdict.meets_pure ⟨h, hs⟩)
  · exact Verdict.meets_pure (Verdict.meets_pure ⟨h, by simp, hs⟩)
  · refine Verdict.meets_pure ((Verdict.heeds_union hg h hs).bind ?_)
    intro span _
    exact Verdict.meets_pure trivial
  · split
    · apply Verdict.Heeds.bind (Verdict.meets_note (Issue.isWarning_skipped _ _))
      intro _ _
      exact Verdict.meets_pure (Verdict.meets_pure h)
    · exact Verdict.heeds_expected _ ht hs

theorem heeds_stepAuthor (hg : Span.Closed good) {s : SceneDraft} {decl : Declaration}
    (h : good s.header.opened) (hd : decl.Spans good) (ht : t.IsPlain) (hs : good t.span) :
    (stepAuthor d s decl t).Heeds good fun turn =>
      turn.Heeds good (Turn.Leads (Spans good) fun _ => True) := by
  unfold stepAuthor
  split
  · rename_i host hb
    refine Verdict.meets_pure (Verdict.meets_pure ⟨h, ?_, hs⟩)
    rintro _ ⟨rfl⟩
    exact Declaration.spans_of_branchPlace? hd hb
  · apply (Declaration.heeds_step hd ht hs).bind
    intro turn hturn
    cases turn with
    | more decl' => exact Verdict.meets_pure (Verdict.meets_pure ⟨h, hturn⟩)
    | done last =>
      refine Verdict.meets_pure ((Verdict.heeds_union hg hturn.1 hturn.2).bind ?_)
      intro span _
      exact Verdict.meets_pure h

theorem spans_behindBranch {s : SceneDraft} {host : Option Header} (h : good s.header.opened)
    (hh : ∀ header ∈ host, good header.opened) :
    (inside s (.behindBranch host)).Spans good := by
  cases host with
  | none => exact h
  | some host => exact ⟨h, hh host rfl⟩

theorem heeds_stepBranch (hg : Span.Closed good) {s : SceneDraft} {host : Option Header}
    {decl : Declaration} (h : good s.header.opened) (hh : ∀ header ∈ host, good header.opened)
    (hd : decl.Spans good) (ht : t.IsPlain) (hs : good t.span) :
    (stepBranch d s host decl t).Heeds good fun turn =>
      turn.Heeds good (Turn.Leads (Spans good) fun _ => True) := by
  unfold stepBranch
  apply (Declaration.heeds_step hd ht hs).bind
  intro turn hturn
  cases turn with
  | more decl' => exact Verdict.meets_pure (Verdict.meets_pure ⟨h, hh, hturn⟩)
  | done last =>
    refine Verdict.meets_pure ((Verdict.heeds_union hg hturn.1 hturn.2).bind ?_)
    intro span _
    refine (heeds_addBranch s _).bind fun s' hs' => Verdict.meets_pure ?_
    exact spans_behindBranch (by rw [hs']; exact h) hh

theorem heeds_step (hg : Span.Closed good) {s : OpenScene} (h : s.Spans good) (ht : t.IsPlain)
    (hs : good t.span) :
    (s.step d t).Heeds good fun turn =>
      turn.Heeds good (Turn.Leads (Spans good) fun _ => True) := by
  match s with
  | opened span =>
    simp only [step]
    split
    · exact Verdict.meets_pure (Verdict.meets_pure h)
    · exact Verdict.heeds_expected _ ht hs
  | named header =>
    simp only [step]
    split
    · exact Verdict.meets_pure (Verdict.meets_pure h)
    · exact Verdict.heeds_expected _ ht hs
  | inside s .items => exact heeds_stepItem hg h ht hs
  | inside s (.author decl) => exact heeds_stepAuthor hg h.1 h.2 ht hs
  | inside s (.branch host decl) => exact heeds_stepBranch hg h.1 h.2.1 h.2.2 ht hs

theorem isError_unfinished (s : OpenScene) (stop : Span) :
    (s.unfinished d stop).IsError .unexpectedEnd (· = stop) := by
  match s with
  | opened span => exact Issue.isError_expected_eof _ _
  | named header => exact Issue.isError_expected_eof _ _
  | inside s .items => exact Issue.isError_unclosed _ _
  | inside s (.author decl) => exact Declaration.isError_unfinished stop
  | inside s (.branch host decl) => exact Declaration.isError_unfinished stop

end OpenScene

end Steps
end Scenario
