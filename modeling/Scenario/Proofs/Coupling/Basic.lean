import Mathlib.Data.List.Forall2
import Scenario.Parser.Verdict

/-!
# Coupled runs

Two runs of a parser over streams that show the same tokens in different places go through the same
motions. Their spans are in some relation all the way, and nothing else is different, apart from the
contents of string literals, which no parser looks at. Which relation that is does not matter, as
long as it is kept when spans are united or shrunk to their ends: `Span.Coupling` says so.

What holds such spans is coupled when it agrees in everything else. Coupled verdicts raise coupled
issues, and end in coupled results or for the same reason.
-/

namespace Scenario

/-- A relation between the spans of two runs. Neither run meets a span that does not fit. -/
structure Span.Coupling (R : Span → Span → Prop) : Prop where
  union : ∀ s s' t t', R s s' → R t t' →
    ∃ u u', s.union t = .ok u ∧ s'.union t' = .ok u' ∧ R u u'
  shrinkToEnd : ∀ s s', R s s' →
    ∃ u u', s.shrinkToEnd = .ok u ∧ s'.shrinkToEnd = .ok u' ∧ R u u'

section Data

variable (R : Span → Span → Prop)

structure Token.Coupled (t t' : Token) : Prop where
  kind_eq : t.kind = t'.kind
  value_eq : t.kind ≠ .str → t.value = t'.value
  span : R t.span t'.span

structure LexicalError.Coupled (e e' : LexicalError) : Prop where
  cause_eq : e.cause = e'.cause
  span : R e.span e'.span

inductive Item.Coupled : Item → Item → Prop
  | token {t t' : Token} : t.Coupled R t' → Coupled (.token t) (.token t')
  | error {e e' : LexicalError} : e.Coupled R e' → Coupled (.error e) (.error e')
  | fault (f : Fault) : Coupled (.fault f) (.fault f)

structure Header.Coupled (h h' : Header) : Prop where
  keyword_eq : h.keyword = h'.keyword
  opened : R h.opened h'.opened
  id_eq : h.id = h'.id

inductive Issue.Coupled : Issue → Issue → Prop
  | lexical {e e' : LexicalError} : e.Coupled R e' → Coupled (.lexical e) (.lexical e')
  | expected {t t' : Token} (kinds : List Kind) :
      t.Coupled R t' → Coupled (.expected kinds t) (.expected kinds t')
  | unclosed {h h' : Header} {stop stop' : Span} :
      h.Coupled R h' → R stop stop' → Coupled (.unclosed h stop) (.unclosed h' stop')
  | strayBranch {span span' : Span} {author author' : Header} (id : String) :
      R span span' → author.Coupled R author' →
      Coupled (.strayBranch id (some span) author) (.strayBranch id (some span') author')
  | skipped {t t' : Token} (scene : String) :
      t.Coupled R t' → Coupled (.skipped t scene) (.skipped t' scene)
  | redefined {span span' previous previous' : Span} (id scene : String) :
      R span span' → R previous previous' →
      Coupled (.redefined id span scene previous) (.redefined id span' scene previous')

structure Remark.Coupled (r r' : Remark) : Prop where
  span : R r.span r'.span
  note_eq : r.note = r'.note

structure AnnotatedSpan.Coupled (a a' : AnnotatedSpan) : Prop where
  main : R a.main a'.main
  remarks : List.Forall₂ (Remark.Coupled R) a.remarks a'.remarks

structure Diagnostic.Coupled (x x' : Diagnostic) : Prop where
  level_eq : x.level = x'.level
  category_eq : x.category = x'.category
  message_eq : x.message = x'.message
  spans : Option.Rel (AnnotatedSpan.Coupled R) x.spans x'.spans

/-- Coupled verdicts have coupled issues, and results in the relation `S`. -/
inductive Verdict.Coupled {α β : Type} (S : α → β → Prop) : Verdict α → Verdict β → Prop
  | ok {is js : List Issue} {a : α} {b : β} :
      List.Forall₂ (Issue.Coupled R) is js → S a b → Coupled S ⟨is, .ok a⟩ ⟨js, .ok b⟩
  | error {is js : List Issue} (stop : Stop) :
      List.Forall₂ (Issue.Coupled R) is js → Coupled S ⟨is, .error stop⟩ ⟨js, .error stop⟩

end Data

/-- Lists of related elements have the same image if related elements have. -/
theorem map_eq_map_of_forall₂ {α β γ : Type} {S : α → β → Prop} {f : α → γ} {g : β → γ}
    (h : ∀ a b, S a b → f a = g b) {left : List α} {right : List β}
    (hl : List.Forall₂ S left right) : left.map f = right.map g := by
  induction hl with
  | nil => rfl
  | cons hab _ ih => rw [List.map_cons, List.map_cons, h _ _ hab, ih]

variable {R : Span → Span → Prop}

theorem Token.coupled_eof {stop stop' : Span} (h : R stop stop') :
    (eof stop).Coupled R (eof stop') :=
  ⟨rfl, fun _ => rfl, h⟩

theorem Token.Coupled.describe_eq {t t' : Token} (h : t.Coupled R t') :
    t.describe = t'.describe := by
  obtain ⟨kind, value, span⟩ := t
  obtain ⟨kind', value', span'⟩ := t'
  obtain ⟨rfl, hvalue, -⟩ := h
  cases kind with
  | ident =>
    obtain rfl : value = value' := hvalue (by simp)
    rfl
  | _ => rfl

namespace Issue

/-- The diagnostics of coupled issues differ in their spans only. -/
theorem Coupled.diagnostic {i i' : Issue} (h : i.Coupled R i') :
    i.diagnostic.Coupled R i'.diagnostic := by
  cases h with
  | lexical he =>
    refine ⟨rfl, ?_, ?_, .some ⟨he.span, .nil⟩⟩
    · exact congrArg LexicalCause.category he.cause_eq
    · exact congrArg LexicalCause.message he.cause_eq
  | expected kinds ht =>
    refine ⟨rfl, ?_, ?_, .some ⟨ht.span, .nil⟩⟩
    · simp only [Issue.diagnostic, category, ht.kind_eq]
    · simp only [Issue.diagnostic, message, ht.describe_eq]
  | unclosed hh hs =>
    refine ⟨rfl, rfl, ?_, .some ⟨hs, .cons ⟨hh.opened, ?_⟩ .nil⟩⟩
    · simp only [Issue.diagnostic, message, hh.keyword_eq, hh.id_eq]
    · simp only [hh.keyword_eq]
  | strayBranch id hs hh =>
    refine ⟨rfl, rfl, rfl, .some ⟨hs, .cons ⟨hh.opened, ?_⟩ .nil⟩⟩
    simp only [hh.keyword_eq, hh.id_eq]
  | skipped scene ht =>
    refine ⟨rfl, rfl, ?_, .some ⟨ht.span, .nil⟩⟩
    simp only [Issue.diagnostic, message, ht.describe_eq]
  | redefined id scene hs hp =>
    exact ⟨rfl, rfl, rfl, .some ⟨hs, .cons ⟨hp, rfl⟩ .nil⟩⟩

theorem coupled_diagnostics {is js : List Issue} (h : List.Forall₂ (Coupled R) is js) :
    List.Forall₂ (Diagnostic.Coupled R) (is.map diagnostic) (js.map diagnostic) :=
  List.rel_map (fun _ _ hi => hi.diagnostic) h

end Issue

namespace Verdict

variable {α β γ δ : Type} {S : α → β → Prop} {T : γ → δ → Prop}

theorem coupled_pure {a : α} {b : β} (h : S a b) : (pure a : Verdict α).Coupled R S (pure b) :=
  .ok .nil h

theorem coupled_note {i i' : Issue} (h : i.Coupled R i') :
    (note i).Coupled R (fun _ _ => True) (note i') :=
  .ok (.cons h .nil) trivial

theorem coupled_reject {i i' : Issue} (h : i.Coupled R i') :
    (reject i : Verdict α).Coupled R S (reject i' : Verdict β) :=
  .error .rejected (.cons h .nil)

theorem coupled_fault (f : Fault) : (fault f : Verdict α).Coupled R S (fault f : Verdict β) :=
  .error (.fault f) .nil

theorem coupled_union (hR : Span.Coupling R) {s s' t t' : Span} (hs : R s s') (ht : R t t') :
    (ofExcept (s.union t)).Coupled R R (ofExcept (s'.union t')) := by
  obtain ⟨u, u', hu, hu', h⟩ := hR.union s s' t t' hs ht
  rw [hu, hu']
  exact coupled_pure h

theorem coupled_shrinkToEnd (hR : Span.Coupling R) {s s' : Span} (hs : R s s') :
    (ofExcept s.shrinkToEnd).Coupled R R (ofExcept s'.shrinkToEnd) := by
  obtain ⟨u, u', hu, hu', h⟩ := hR.shrinkToEnd s s' hs
  rw [hu, hu']
  exact coupled_pure h

/-- Chains are coupled if their links are. -/
theorem Coupled.bind {v : Verdict α} {w : Verdict β} {f : α → Verdict γ} {g : β → Verdict δ}
    (hv : v.Coupled R S w) (hf : ∀ a b, S a b → (f a).Coupled R T (g b)) :
    (v >>= f).Coupled R T (w >>= g) := by
  cases hv with
  | error stop hi =>
    rw [bind_of_error rfl, bind_of_error rfl]
    exact .error stop hi
  | @ok is js a b hi hab =>
    rw [bind_of_ok rfl, bind_of_ok rfl]
    have hfg := hf a b hab
    generalize f a = v' at hfg ⊢
    generalize g b = w' at hfg ⊢
    cases hfg with
    | ok hi' hcd => exact .ok (List.rel_append hi hi') hcd
    | error stop hi' => exact .error stop (List.rel_append hi hi')

theorem Coupled.map {v : Verdict α} {w : Verdict β} {f : α → γ} {g : β → δ}
    (hv : v.Coupled R S w) (hf : ∀ a b, S a b → T (f a) (g b)) :
    (f <$> v).Coupled R T (g <$> w) := by
  rw [map_eq_pure_bind, map_eq_pure_bind]
  exact hv.bind fun a b hab => coupled_pure (hf a b hab)

theorem Coupled.mono {S' : α → β → Prop} {v : Verdict α} {w : Verdict β} (hv : v.Coupled R S w)
    (h : ∀ a b, S a b → S' a b) : v.Coupled R S' w := by
  cases hv with
  | ok hi hab => exact .ok hi (h _ _ hab)
  | error stop hi => exact .error stop hi

end Verdict
end Scenario
