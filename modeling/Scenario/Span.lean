import Scenario.Fault

/-!
# Spans

A span is a range of bytes, kept as its first position and its length. Its end has to stay within
`positionLimit`; every operation that forms an end is refused with a fault otherwise, so a span
that no operation touches may reach beyond the limit and still be carried along.
-/

namespace Scenario

/-- The `len` bytes from position `base` on. -/
structure Span where
  base : Nat
  len : Nat
deriving DecidableEq, Repr, Inhabited

namespace Span

/-- The end of the span is a position. -/
def Fits (s : Span) : Prop := s.base + s.len ≤ positionLimit

instance (s : Span) : Decidable s.Fits := inferInstanceAs (Decidable (_ ≤ _))

/-- The position right after the last byte. -/
def stop (s : Span) : Except Fault Nat :=
  if s.base + s.len ≤ positionLimit then .ok (s.base + s.len) else .error .spanEnd

/-- The smallest span that covers both spans. -/
def union (s t : Span) : Except Fault Span := do
  let sEnd ← s.stop
  let tEnd ← t.stop
  let base := min s.base t.base
  return ⟨base, max sEnd tEnd - base⟩

/-- The empty span right after `s`. -/
def shrinkToEnd (s : Span) : Except Fault Span := do
  return ⟨← s.stop, 0⟩

/-- The span as a record of its two numbers. -/
def describe (s : Span) : String :=
  "Span \x7b base: " ++ toString s.base ++ ", len: " ++ toString s.len ++ " \x7d"

theorem stop_of_fits {s : Span} (h : s.Fits) : s.stop = .ok (s.base + s.len) := if_pos h

theorem stop_of_not_fits {s : Span} (h : ¬ s.Fits) : s.stop = .error .spanEnd := if_neg h

theorem union_of_fits {s t : Span} (hs : s.Fits) (ht : t.Fits) :
    s.union t = .ok ⟨min s.base t.base,
      max (s.base + s.len) (t.base + t.len) - min s.base t.base⟩ := by
  simp [union, stop_of_fits hs, stop_of_fits ht, bind, Except.bind, pure, Except.pure]

/-- Spans that fit can be united. -/
theorem exists_union {s t : Span} (hs : s.Fits) (ht : t.Fits) : ∃ u, s.union t = .ok u :=
  ⟨_, union_of_fits hs ht⟩

theorem shrinkToEnd_of_fits {s : Span} (h : s.Fits) :
    s.shrinkToEnd = .ok ⟨s.base + s.len, 0⟩ := by
  simp [shrinkToEnd, stop_of_fits h, bind, Except.bind, pure, Except.pure]

end Span

/-- A span with a remark on it. -/
structure Remark where
  span : Span
  note : String
deriving DecidableEq, Repr

/-- A main span together with remarks on further spans, in the order in which they were made. -/
structure AnnotatedSpan where
  main : Span
  remarks : List Remark
deriving DecidableEq, Repr

namespace AnnotatedSpan

def ofSpan (s : Span) : AnnotatedSpan := ⟨s, []⟩

def annotate (a : AnnotatedSpan) (span : Span) (note : String) : AnnotatedSpan :=
  { a with remarks := a.remarks ++ [⟨span, note⟩] }

end AnnotatedSpan
end Scenario
