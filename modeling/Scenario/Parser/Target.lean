import Scenario.Diagnostic.Journal
import Scenario.Parser.OpenDocument
import Scenario.Parser.Sole
import Scenario.Token.Lexer

/-!
# Parsing

What is to be parsed is a target: a document, or a scene or an author on its own. Parsing a stream
of items gives a verdict; parsing a source gives a script with the warnings on it, or the
diagnostics for which it was rejected, in the order in which they arose.
-/

namespace Scenario

/-- What is to be parsed. -/
inductive Target where
  | document
  | scene
  | author
deriving DecidableEq, Repr

/-- A part of a script, with the warnings on it. -/
structure Parsed (α : Type) where
  value : α
  warnings : List Diagnostic

namespace Target

/-- The part of a script that is parsed. -/
abbrev Node : Target → Type
  | document => Document
  | scene => Scene
  | author => Author

abbrev State : Target → Type
  | document => OpenDocument
  | scene => Sole OpenScene Scene
  | author => Sole LoneAuthor Author

/-- The machine that reads a target. A document always takes in the whole input. -/
def machine (d : Dialect) (extent : Extent) : (target : Target) → Machine target.State target.Node
  | document => OpenDocument.machine d
  | scene => OpenScene.machine d extent
  | author => LoneAuthor.machine d extent

/-- Parses a stream of items, whose source starts at position `base`. -/
def read (target : Target) (d : Dialect) (extent : Extent) (base : Nat) (items : List Item) :
    Verdict target.Node :=
  (target.machine d extent).read base items

/-- Parses a stream of items, and records the diagnostics in a journal. -/
def readInto (target : Target) (d : Dialect) (extent : Extent) (base : Nat) (items : List Item)
    (journal : Journal) : Except Stop target.Node × Journal :=
  let verdict := target.read d extent base items
  (verdict.result, journal.recordAll (verdict.issues.map Issue.diagnostic))

/-- A parse that gave no result must have told why. -/
def silentFailure : Diagnostic := .ofMessage .bug "parsing failed without an error"

/-- Parses a source whose first byte is at position `base`. -/
def parse (target : Target) (d : Dialect) (extent : Extent) (source : String) (base : Nat) :
    Except Fault (Except (List Diagnostic) (Parsed target.Node)) :=
  let (result, journal) :=
    target.readInto d extent base (Lexer.ofString source base d).items .empty
  match result with
  | .error (.fault fault) => .error fault
  | .error .rejected =>
    if journal.hasFatal then .ok (.error journal.entries)
    else .ok (.error (journal.record silentFailure).entries)
  | .ok value =>
    if journal.hasFatal then .ok (.error journal.entries)
    else .ok (.ok ⟨value, journal.entries⟩)

end Target

/-- Parses a whole source as a document. -/
def Document.parse (source : String) (d : Dialect) :
    Except Fault (Except (List Diagnostic) (Parsed Document)) :=
  Target.document.parse d .whole source 0

end Scenario
