import Scenario.Span

/-!
# Spans in words

The two numbers of a span are kept in 32-bit words. Sums and differences of words are checked: one
that is no word is a failure, and does not wrap around.
-/

namespace Scenario

/-- The `len` bytes from position `base` on, as 32-bit numbers. -/
structure WordSpan where
  base : UInt32
  len : UInt32
deriving DecidableEq, Repr

namespace WordSpan

/-- The ways in which an operation can end without an answer. -/
inductive Failure where
  /-- The sum of the two numbers is too great. -/
  | sum (n k : UInt32)
  /-- The second number is greater than the first, from which it is taken. -/
  | difference (n k : UInt32)
deriving DecidableEq, Repr

def plus (n k : UInt32) : Except Failure UInt32 :=
  if n.toNat + k.toNat < UInt32.size then .ok (n + k) else .error (.sum n k)

def minus (n k : UInt32) : Except Failure UInt32 :=
  if k ≤ n then .ok (n - k) else .error (.difference n k)

/-- The position right after the last byte. -/
def stop (s : WordSpan) : Except Failure UInt32 := plus s.base s.len

/-- The smallest span that covers both spans. -/
def union (s t : WordSpan) : Except Failure WordSpan := do
  let base := min s.base t.base
  let stop := max (← s.stop) (← t.stop)
  return ⟨base, ← minus stop base⟩

/-- The empty span right after `s`. -/
def shrinkToEnd (s : WordSpan) : Except Failure WordSpan := do
  return ⟨← s.stop, 0⟩

/-- The span of the numbers that the words stand for. -/
def toSpan (s : WordSpan) : Span := ⟨s.base.toNat, s.len.toNat⟩

end WordSpan
end Scenario
