import Scenario.ByteCursor
import Scenario.Cursor
import Scenario.Diagnostic.Basic
import Scenario.Diagnostic.Drawing
import Scenario.Diagnostic.Journal
import Scenario.Diagnostic.Rendering
import Scenario.Dialect
import Scenario.Fault
import Scenario.LineTable
import Scenario.Parser.Declaration
import Scenario.Parser.Grammar
import Scenario.Parser.Issue
import Scenario.Parser.LoneAuthor
import Scenario.Parser.Machine
import Scenario.Parser.OpenDocument
import Scenario.Parser.OpenScene
import Scenario.Parser.Sole
import Scenario.Parser.Target
import Scenario.Parser.Verdict
import Scenario.Proofs.Agreement
import Scenario.Proofs.Bodies.Balance
import Scenario.Proofs.Bodies.Basic
import Scenario.Proofs.Bodies.Ends
import Scenario.Proofs.Bodies.Matching
import Scenario.Proofs.Broadcasting
import Scenario.Proofs.Concatenation
import Scenario.Proofs.Coupling.Basic
import Scenario.Proofs.Coupling.Script
import Scenario.Proofs.Coupling.Steps
import Scenario.Proofs.Coupling.Targets
import Scenario.Proofs.Dialects.BodyBraces
import Scenario.Proofs.Dialects.Collapse
import Scenario.Proofs.Dialects.Focus
import Scenario.Proofs.Dialects.Leniency
import Scenario.Proofs.Drawing
import Scenario.Proofs.Equality
import Scenario.Proofs.Expectation.Demands
import Scenario.Proofs.Expectation.Exactness
import Scenario.Proofs.Expectation.Targets
import Scenario.Proofs.Grammar.Acceptance
import Scenario.Proofs.Grammar.Completeness
import Scenario.Proofs.Grammar.Fronts
import Scenario.Proofs.Grammar.Printed
import Scenario.Proofs.Grammar.Records
import Scenario.Proofs.Grammar.Soundness
import Scenario.Proofs.Holdings
import Scenario.Proofs.Layout
import Scenario.Proofs.Leading
import Scenario.Proofs.Lexing.Collapse
import Scenario.Proofs.Lexing.Composition
import Scenario.Proofs.Lexing.Cursors
import Scenario.Proofs.Lexing.Decomposition
import Scenario.Proofs.Lexing.Joining
import Scenario.Proofs.Lexing.Lexemes
import Scenario.Proofs.Lexing.LineEnds
import Scenario.Proofs.Lexing.Literals
import Scenario.Proofs.Lexing.Printing
import Scenario.Proofs.Lexing.Progress
import Scenario.Proofs.Lexing.Slices
import Scenario.Proofs.Lexing.Spacing
import Scenario.Proofs.Lexing.Tiling
import Scenario.Proofs.LineEnds
import Scenario.Proofs.Locality
import Scenario.Proofs.Locating.Inverse
import Scenario.Proofs.Locating.Lines
import Scenario.Proofs.Locating.Positions
import Scenario.Proofs.Locating.Tables
import Scenario.Proofs.Locations
import Scenario.Proofs.Moves
import Scenario.Proofs.Nesting.Documents
import Scenario.Proofs.Nesting.Forms
import Scenario.Proofs.Nesting.Spans
import Scenario.Proofs.Outcome
import Scenario.Proofs.Parting
import Scenario.Proofs.Passing
import Scenario.Proofs.Pictures
import Scenario.Proofs.Polling
import Scenario.Proofs.Protocol
import Scenario.Proofs.Raising
import Scenario.Proofs.Reading
import Scenario.Proofs.Relocation
import Scenario.Proofs.Reports
import Scenario.Proofs.Returns
import Scenario.Proofs.RoundTrip
import Scenario.Proofs.Run
import Scenario.Proofs.Safety
import Scenario.Proofs.Scenes.Changes
import Scenario.Proofs.Scenes.Sameness
import Scenario.Proofs.Shifting
import Scenario.Proofs.Sources
import Scenario.Proofs.Spans.Declarations
import Scenario.Proofs.Spans.Declared
import Scenario.Proofs.Spans.Union
import Scenario.Proofs.Trails.Basic
import Scenario.Proofs.Trails.Rendering
import Scenario.Proofs.Trails.Runs
import Scenario.Proofs.Trails.Steps
import Scenario.Proofs.Traversals.Edits
import Scenario.Proofs.Traversals.Entries
import Scenario.Proofs.Traversals.Visits
import Scenario.Proofs.Truncation.Astray
import Scenario.Proofs.Truncation.Completion
import Scenario.Proofs.Truncation.Rejection
import Scenario.Proofs.Verdict
import Scenario.Proofs.Warnings
import Scenario.Proofs.Writable
import Scenario.Script.Basic
import Scenario.Script.Broadcast
import Scenario.Script.Printer
import Scenario.Script.Registry
import Scenario.Script.Traversal
import Scenario.SourceMap
import Scenario.Span
import Scenario.Text
import Scenario.Token.Basic
import Scenario.Token.Item
import Scenario.Token.Lexeme
import Scenario.Token.Lexer
import Scenario.Token.Literal
import Scenario.Token.Printer
import Scenario.Token.WellFormed
import Scenario.WordSpan
