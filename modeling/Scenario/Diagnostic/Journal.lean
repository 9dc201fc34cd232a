import Scenario.Diagnostic.Basic

/-!
# Journals

Several parses may share one journal. Diagnostics are only ever added to its end, so it holds them
in the order in which they arose.
-/

namespace Scenario

structure Journal where
  entries : List Diagnostic
deriving DecidableEq, Repr

namespace Journal

def empty : Journal := ⟨[]⟩

def isEmpty (j : Journal) : Bool := j.entries.isEmpty

def record (j : Journal) (d : Diagnostic) : Journal := ⟨j.entries ++ [d]⟩

def recordAll (j : Journal) (ds : List Diagnostic) : Journal := ⟨j.entries ++ ds⟩

def hasFatal (j : Journal) : Bool := j.entries.any Diagnostic.isFatal

/-- The level of the gravest entry. -/
def maxLevel? (j : Journal) : Option Level :=
  j.entries.foldl (fun gravest d => some (gravest.elim d.level d.level.max)) none

@[simp] theorem entries_record (j : Journal) (d : Diagnostic) :
    (j.record d).entries = j.entries ++ [d] := rfl

@[simp] theorem entries_recordAll (j : Journal) (ds : List Diagnostic) :
    (j.recordAll ds).entries = j.entries ++ ds := rfl

theorem recordAll_append (j : Journal) (ds es : List Diagnostic) :
    j.recordAll (ds ++ es) = (j.recordAll ds).recordAll es := by
  simp [recordAll]

theorem isEmpty_record (j : Journal) (d : Diagnostic) : (j.record d).isEmpty = false := by
  simp [isEmpty]

end Journal
end Scenario
