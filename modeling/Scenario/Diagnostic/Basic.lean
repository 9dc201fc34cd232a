import Scenario.Span

/-!
# Diagnostics

A diagnostic is a complaint about a script: how grave it is, what sort of complaint it is, its
message, and the spans it points at. Diagnostics of level `error` and above make a parse fail.
-/

namespace Scenario

/-- How grave a diagnostic is. -/
inductive Level where
  /-- Does not prevent parsing. -/
  | warning
  /-- The script is at fault, and is rejected. -/
  | error
  /-- The library is at fault, and the script is rejected. -/
  | bug
deriving DecidableEq, Repr

namespace Level

def rank : Level → Nat
  | warning => 0
  | error => 1
  | bug => 2

instance : LE Level := ⟨fun l m => l.rank ≤ m.rank⟩

instance (l m : Level) : Decidable (l ≤ m) := inferInstanceAs (Decidable (l.rank ≤ m.rank))

def describe : Level → String
  | warning => "warning"
  | error => "error"
  | bug => "bug"

/-- Diagnostics of this level make a parse fail. -/
def isFatal (l : Level) : Bool := error ≤ l

@[simp] theorem isFatal_warning : warning.isFatal = false := rfl

@[simp] theorem isFatal_error : error.isFatal = true := rfl

@[simp] theorem isFatal_bug : bug.isFatal = true := rfl

/-- The graver of two levels. -/
def max (l m : Level) : Level := if l ≤ m then m else l

theorem rank_max (l m : Level) : (l.max m).rank = Nat.max l.rank m.rank := by
  cases l <;> cases m <;> rfl

end Level

/-- What sort of complaint a diagnostic is. -/
inductive Category where
  /-- More characters were asked for than the source has. -/
  | bounds
  /-- A literal without an end, or a token in a place where it does not belong. -/
  | malformed
  /-- The source ended too early. -/
  | unexpectedEnd
  /-- Warnings and bugs. -/
  | other
deriving DecidableEq, Repr, Inhabited

namespace Category

def describe : Category → String
  | bounds => "bounds"
  | malformed => "syntax"
  | unexpectedEnd => "unexpected-eof"
  | other => "other"

end Category

structure Diagnostic where
  level : Level
  category : Category
  message : String
  spans : Option AnnotatedSpan
deriving DecidableEq, Repr

namespace Diagnostic

/-- A diagnostic that points nowhere yet. -/
def ofMessage (level : Level) (message : String) : Diagnostic := ⟨level, .other, message, none⟩

def withCategory (d : Diagnostic) (category : Category) : Diagnostic :=
  { d with category := category }

/-- Points `d` at `spans`, and nowhere else. -/
def pointAt (d : Diagnostic) (spans : AnnotatedSpan) : Diagnostic :=
  { d with spans := some spans }

def pointAtSpan (d : Diagnostic) (span : Span) : Diagnostic := d.pointAt (.ofSpan span)

/-- Adds a remark. A diagnostic that points nowhere is pointed at the span of the remark first. -/
def annotate (d : Diagnostic) (span : Span) (note : String) : Diagnostic :=
  d.pointAt ((d.spans.getD (.ofSpan span)).annotate span note)

def span (d : Diagnostic) : Option Span := d.spans.map AnnotatedSpan.main

def remarks (d : Diagnostic) : List Remark := (d.spans.map AnnotatedSpan.remarks).getD []

def isFatal (d : Diagnostic) : Bool := d.level.isFatal

/-- The diagnostic on one line. -/
def headline (d : Diagnostic) : String :=
  d.level.describe ++ "[" ++ d.category.describe ++ "]: " ++ d.message

/-- The head of the long form: level, category and message, and the main span in bytes. -/
def rawForm (d : Diagnostic) : String :=
  "Error \x7b\n    [" ++ d.level.describe ++ "/" ++ d.category.describe ++ "] " ++ d.message ++
    "\n" ++ match d.span with
    | some span => "        at raw position: " ++ span.describe ++ "\n"
    | none => ""

end Diagnostic
end Scenario
