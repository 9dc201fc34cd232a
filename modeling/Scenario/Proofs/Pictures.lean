import Scenario.Diagnostic.Rendering
import Scenario.Proofs.Coupling.Basic

/-!
# Pictures of coupled diagnostics

A diagnostic is rendered from the locations of its spans and the lines they start on. Two source
maps with the same lines may hold the same places at different positions. Then spans from one place
to another are pictured alike over either map, and coupled diagnostics are rendered to the same
text. In particular no picture falls back on positions, since every place has a location.

Main statement: `Diagnostic.Coupled.exists_render`.
-/

namespace Scenario

/-- The spans begin, and end, at positions in the relation `P`. -/
structure Span.Along (P : Nat → Nat → Prop) (s s' : Span) : Prop where
  base : P s.base s'.base
  stop : P (s.base + s.len) (s'.base + s'.len)

/-- Positions of the same places: they have the same order in either source. -/
structure Aligned (P : Nat → Nat → Prop) : Prop where
  fits : ∀ p p', P p p' → p ≤ positionLimit ∧ p' ≤ positionLimit
  le_iff : ∀ p p' q q', P p p' → P q q' → (p ≤ q ↔ p' ≤ q')

namespace Aligned

variable {P : Nat → Nat → Prop} {p p' q q' : Nat}

theorem rel_min (h : Aligned P) (hp : P p p') (hq : P q q') : P (min p q) (min p' q') := by
  have hle := h.le_iff p p' q q' hp hq
  by_cases hpq : p ≤ q
  · rwa [Nat.min_eq_left hpq, Nat.min_eq_left (hle.1 hpq)]
  · rwa [Nat.min_eq_right (by omega), Nat.min_eq_right (by omega)]

theorem rel_max (h : Aligned P) (hp : P p p') (hq : P q q') : P (max p q) (max p' q') := by
  have hle := h.le_iff p p' q q' hp hq
  by_cases hpq : p ≤ q
  · rwa [Nat.max_eq_right hpq, Nat.max_eq_right (hle.1 hpq)]
  · rwa [Nat.max_eq_left (by omega), Nat.max_eq_left (by omega)]

/-- Spans between the same places are kept by the operations on spans. -/
theorem coupling (h : Aligned P) : Span.Coupling (Span.Along P) where
  union s s' t t' hs ht := by
    obtain ⟨hfs, hfs'⟩ := h.fits _ _ hs.stop
    obtain ⟨hft, hft'⟩ := h.fits _ _ ht.stop
    refine ⟨_, _, Span.union_of_fits hfs hft, Span.union_of_fits hfs' hft',
      h.rel_min hs.base ht.base, ?_⟩
    have hcover : ∀ a b m n : Nat,
        min a b + (max (a + m) (b + n) - min a b) = max (a + m) (b + n) := by
      intro a b m n
      omega
    rw [hcover, hcover]
    exact h.rel_max hs.stop ht.stop
  shrinkToEnd s s' hs := by
    obtain ⟨hf, hf'⟩ := h.fits _ _ hs.stop
    exact ⟨_, _, Span.shrinkToEnd_of_fits hf, Span.shrinkToEnd_of_fits hf', hs.stop, hs.stop⟩

end Aligned

/-- Two source maps show the same: their lines have the same texts, and positions in the relation
`P` have the same location. -/
structure SourceMap.Similar (m m' : SourceMap) (P : Nat → Nat → Prop) : Prop where
  line_eq : ∀ number, m.line number = m'.line number
  locate_eq : ∀ p p', P p p' → ∃ l, m.locate p = some l ∧ m'.locate p' = some l

namespace SourceMap

variable {m m' : SourceMap} {P : Nat → Nat → Prop}

theorem Similar.exists_picture (h : m.Similar m' P) (hP : Aligned P) {s s' : Span}
    (hs : s.Along P s') (marker : Char) (note : Option String) :
    ∃ lines, m.picture s marker note = .ok lines ∧ m'.picture s' marker note = .ok lines := by
  obtain ⟨hf, hf'⟩ := hP.fits _ _ hs.stop
  obtain ⟨start, hstart, hstart'⟩ := h.locate_eq _ _ hs.base
  obtain ⟨finish, hfinish, hfinish'⟩ := h.locate_eq _ _ hs.stop
  have hwidth : ∀ text, m.markedWidth start text (s.base + s.len) =
      m'.markedWidth start text (s'.base + s'.len) := by
    intro text
    simp only [markedWidth, hfinish, hfinish']
  have heq : m.picture s marker note = m'.picture s' marker note := by
    simp only [picture, Span.stop_of_fits hf, Span.stop_of_fits hf', bind, Except.bind, hstart,
      hstart', h.line_eq, hwidth]
  have hok : ∃ lines, m'.picture s' marker note = .ok lines := by
    simp only [picture, Span.stop_of_fits hf', bind, Except.bind, hstart']
    exact ⟨_, rfl⟩
  obtain ⟨lines, hlines⟩ := hok
  exact ⟨lines, heq.trans hlines, hlines⟩

end SourceMap

/-- If elements in a relation have the same results, so have lists of them. -/
theorem exists_mapM_of_forall₂ {α β γ ε : Type} {S : α → β → Prop} {f : α → Except ε γ}
    {g : β → Except ε γ} (hfg : ∀ a b, S a b → ∃ c, f a = .ok c ∧ g b = .ok c) {left : List α}
    {right : List β} (h : List.Forall₂ S left right) :
    ∃ results, left.mapM f = .ok results ∧ right.mapM g = .ok results := by
  induction h with
  | nil => exact ⟨[], rfl, rfl⟩
  | cons hab _ ih =>
    obtain ⟨c, hf, hg⟩ := hfg _ _ hab
    obtain ⟨results, hleft, hright⟩ := ih
    refine ⟨c :: results, ?_, ?_⟩
    · rw [List.mapM_cons, hf, hleft]
      rfl
    · rw [List.mapM_cons, hg, hright]
      rfl

/-- Diagnostics that point at the same places are rendered to the same text. -/
theorem Diagnostic.Coupled.exists_render {m m' : SourceMap} {P : Nat → Nat → Prop}
    {x x' : Diagnostic} (hx : x.Coupled (Span.Along P) x') (h : m.Similar m' P) (hP : Aligned P) :
    ∃ text, x.render m = .ok text ∧ x'.render m' = .ok text := by
  obtain ⟨level, category, message, spans⟩ := x
  obtain ⟨level', category', message', spans'⟩ := x'
  obtain ⟨rfl, rfl, rfl, hspans⟩ := hx
  cases hspans with
  | none => exact ⟨_, rfl, rfl⟩
  | some ha =>
    obtain ⟨main, hmain, hmain'⟩ := h.exists_picture hP ha.main '^' none
    have hpicture : ∀ r r' : Remark, r.Coupled (Span.Along P) r' →
        ∃ lines, m.picture r.span '-' (some r.note) = .ok lines ∧
          m'.picture r'.span '-' (some r'.note) = .ok lines := by
      intro r r' hr
      rw [← hr.note_eq]
      exact h.exists_picture hP hr.span '-' (some r.note)
    obtain ⟨remarks, hremarks, hremarks'⟩ := exists_mapM_of_forall₂ hpicture ha.remarks
    let headline := Diagnostic.headline ⟨level, category, message, none⟩
    refine ⟨"\n".intercalate (headline :: (main ++ remarks.flatten)), ?_, ?_⟩
    · simp only [render, renderedLines, hmain, hremarks, bind, Except.bind]
      rfl
    · simp only [render, renderedLines, hmain', hremarks', bind, Except.bind]
      rfl

end Scenario
