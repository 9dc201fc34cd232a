import Scenario.Cursor
import Scenario.Diagnostic.Basic
import Scenario.Token.Basic

/-!
# Items of a token stream

A parser is fed with items. Most are tokens; the others tell that no token could be formed at some
place of the source, or that forming one ran into a fault.
-/

namespace Scenario

/-- Why no token could be formed. -/
inductive LexicalCause where
  | unterminatedLiteral
  | outOfRange (refusal : OutOfRange)
deriving DecidableEq, Repr

namespace LexicalCause

def message : LexicalCause → String
  | unterminatedLiteral => "unterminated string literal"
  | outOfRange refusal => refusal.message

def category : LexicalCause → Category
  | unterminatedLiteral => .malformed
  | outOfRange _ => .bounds

end LexicalCause

/-- The part of the source that forms no token. -/
structure LexicalError where
  cause : LexicalCause
  span : Span
deriving DecidableEq, Repr

namespace LexicalError

def message (e : LexicalError) : String := e.cause.message ++ " at " ++ e.span.describe

end LexicalError

inductive Item where
  | token (token : Token)
  | error (error : LexicalError)
  | fault (fault : Fault)
deriving DecidableEq, Repr

end Scenario
