import Scenario.Parser.Target
import Scenario.Proofs.Coupling.Steps

/-!
# Coupled targets

The machine of every target respects a coupling: it comes to coupled results on coupled streams,
whichever part of a script is read, and however much of the input is taken in.

Main statement: `Target.coupled_read`. Coupled results are equal in the sense of `==`
(`Target.Coupled.beq`).
-/

namespace Scenario

section Data

variable (R : Span → Span → Prop)

inductive Sole.Coupled {ρ α : Type} (S : ρ → ρ → Prop) (T : α → α → Prop) :
    Sole ρ α → Sole ρ α → Prop
  | start : Coupled S T start start
  | reading {r r' : ρ} : S r r' → Coupled S T (reading r) (reading r')
  | complete {a a' : α} : T a a' → Coupled S T (complete a) (complete a')

/-- The parts of two scripts are coupled. -/
def Target.Coupled : (target : Target) → target.Node → target.Node → Prop
  | document => Document.Coupled R
  | scene => Scene.Coupled R
  | author => Author.Coupled R

end Data

/-- Parts of scripts are compared as `==` compares documents, scenes and authors. -/
instance : (target : Target) → BEq target.Node
  | .document => inferInstanceAs (BEq Document)
  | .scene => inferInstanceAs (BEq Scene)
  | .author => inferInstanceAs (BEq Author)

variable {R : Span → Span → Prop} {d : Dialect}

namespace Sole

variable {ρ α : Type} {S : ρ → ρ → Prop} {T : α → α → Prop} {keyword : Keyword} {first : Span → ρ}
  {step : ρ → Token → Verdict (Verdict (Turn ρ α))} {unfinished : ρ → Span → Issue}

theorem respects_machine (extent : Extent) (hfirst : ∀ s s', R s s' → S (first s) (first s'))
    (hstep : ∀ r r' t t', S r r' → t.Coupled R t' →
      (step r t).Coupled R (Verdict.Coupled R (Turn.Coupled S T)) (step r' t'))
    (hunfinished : ∀ r r' stop stop', S r r' → R stop stop' →
      (unfinished r stop).Coupled R (unfinished r' stop')) :
    (machine keyword first step unfinished extent).Respects
      (machine keyword first step unfinished extent) R (Coupled S T) T where
  step s s' t t' hs ht := by
    cases hs with
    | start =>
      simp only [machine, ← ht.kind_eq]
      split
      · exact Verdict.coupled_pure (.more (Verdict.coupled_pure (.reading (hfirst _ _ ht.span))))
      · exact Verdict.coupled_expected _ ht
    | reading hr =>
      apply (hstep _ _ t t' hr ht).bind
      intro inner inner' hinner
      refine Verdict.coupled_pure (.more (hinner.map ?_))
      intro turn turn' hturn
      cases hturn with
      | more hr => exact .reading hr
      | done ha => exact .complete ha
    | complete ha =>
      cases extent with
      | leading => exact Verdict.coupled_pure (.done ha)
      | whole => exact Verdict.coupled_expected _ ht
  finish s s' stop stop' hs hstop := by
    cases hs with
    | start => exact Verdict.coupled_expected _ (Token.coupled_eof hstop)
    | reading hr => exact Verdict.coupled_reject (hunfinished _ _ stop stop' hr hstop)
    | complete ha => exact Verdict.coupled_pure ha

end Sole

theorem OpenScene.respects_machine (hR : Span.Coupling R) (extent : Extent) :
    (machine d extent).Respects (machine d extent) R
      (Sole.Coupled (OpenScene.Coupled R) (Scene.Coupled R)) (Scene.Coupled R) :=
  Sole.respects_machine extent (fun _ _ => .opened) (fun _ _ _ _ hs ht => hs.step hR ht)
    fun _ _ _ _ hs hstop => hs.unfinished hstop

theorem LoneAuthor.respects_machine (hR : Span.Coupling R) (extent : Extent) :
    (machine d extent).Respects (machine d extent) R
      (Sole.Coupled (LoneAuthor.Coupled R) (Author.Coupled R)) (Author.Coupled R) :=
  Sole.respects_machine extent (fun _ _ hs => .reading (.opened .author hs))
    (fun _ _ _ _ ha ht => ha.step hR ht) fun _ _ _ _ ha hstop => ha.unfinished hstop

namespace Target

variable {target : Target}

theorem Coupled.beq {a b : target.Node} (h : target.Coupled R a b) : (a == b) = true := by
  cases target with
  | document => exact (Document.beq_iff a b).2 (Document.Coupled.sense_eq h)
  | scene => exact (Scene.beq_iff a b).2 (Scene.Coupled.sense_eq h)
  | author => exact (Author.beq_iff a b).2 (Author.Coupled.id_eq h)

/-- On coupled streams a target is read with coupled outcomes. -/
theorem coupled_read (hR : Span.Coupling R) {base base' : Nat} (hb : R ⟨base, 0⟩ ⟨base', 0⟩)
    {items items' : List Item} (hi : List.Forall₂ (Item.Coupled R) items items')
    (target : Target) (d : Dialect) (extent : Extent) :
    (target.read d extent base items).Coupled R (target.Coupled R)
      (target.read d extent base' items') := by
  cases target with
  | document =>
    have hstart : (OpenDocument.items .empty).Coupled R .empty (.items .empty) :=
      .items (Document.coupledBehind_empty .empty)
    apply ((OpenDocument.respects_machine hR .empty).run hR
      ⟨hb, Verdict.coupled_pure hstart⟩ hi).mono
    rintro _ _ ⟨document, document', hdoc, rfl, rfl⟩
    exact hdoc.coupled.broadcast
  | scene =>
    exact (OpenScene.respects_machine hR extent).run hR ⟨hb, Verdict.coupled_pure .start⟩ hi
  | author =>
    exact (LoneAuthor.respects_machine hR extent).run hR ⟨hb, Verdict.coupled_pure .start⟩ hi

end Target
end Scenario
