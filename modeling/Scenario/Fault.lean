/-!
# Faults

A fault ends an operation without an answer. It is not a complaint about a script: it says that a
number left the range in which positions are kept, or that a list was asked for an element it does
not have. Operations that can end this way live in `Except Fault`.
-/

namespace Scenario

/-- The greatest byte position, and the greatest end of a span. -/
def positionLimit : Nat := 0xffffffff

/-- The ways in which an operation can end without an answer. -/
inductive Fault where
  /-- The byte position of a cursor lies above `positionLimit`. -/
  | position
  /-- The end of a span lies above `positionLimit`. -/
  | spanEnd
  /-- The element `index` of a list of `length` elements was asked for. -/
  | outOfBounds (length index : Nat)
deriving DecidableEq, Repr

namespace Fault

def message : Fault → String
  | position => "source position should fit in a u32"
  | spanEnd => "attempt to add with overflow"
  | outOfBounds length index =>
    "index out of bounds: the len is " ++ toString length ++ " but the index is " ++ toString index

end Fault
end Scenario
