/-!
# Dialects

The language has a few lenient corners. A dialect says, for each of them, whether the lenient or
the strict reading applies.
-/

namespace Scenario

structure Dialect where
  /-- Tokens with no place in a scene are skipped with a warning; otherwise they are errors. -/
  lenientSceneItems : Bool
  /-- The `{` in front of the body of an author or a branch may be missing. -/
  optionalBodyBrace : Bool
  /-- Braces nest in the body of an author or a branch; otherwise its first `}` ends it. -/
  balancedBodyBraces : Bool
  /-- Spaces and tabs right after a space or a line feed in a string literal are dropped. -/
  collapseStringWhitespace : Bool
deriving DecidableEq, Repr

namespace Dialect

/-- Bodies need their brace, and stray tokens in a scene only cause warnings. -/
def standard : Dialect := ⟨true, false, true, true⟩

/-- The most permissive reading: the brace in front of a body may be missing, and its first `}` ends
it. -/
def compatible : Dialect := ⟨true, true, false, true⟩

/-- Stray tokens are errors. -/
def strict : Dialect := ⟨false, false, true, true⟩

instance : Inhabited Dialect := ⟨standard⟩

end Dialect
end Scenario
