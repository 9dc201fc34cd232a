import Scenario.Token.Item

/-!
# Issues

The complaints that parsing can give rise to, as causes. `Issue.diagnostic` says how each of them
is put to the user. An issue at the end of the input tells that the script is not finished; an
issue at any other token tells that it went wrong there.
-/

namespace Scenario

/-- The keyword that opens a declaration, where it stands, and the name of what is declared. -/
structure Header where
  keyword : Keyword
  opened : Span
  id : String
deriving DecidableEq, Repr

inductive Issue where
  /-- The source holds no token in some place. -/
  | lexical (error : LexicalError)
  /-- A token of one of the kinds had to stand where `found` does. -/
  | expected (kinds : List Kind) (found : Token)
  /-- The input ended, at `stop`, inside the braces of a declaration. -/
  | unclosed (header : Header) (stop : Span)
  /-- A branch is declared in an author that belongs to no scene. -/
  | strayBranch (id : String) (span : Option Span) (author : Header)
  /-- A token that has no place in a scene was left out. -/
  | skipped (found : Token) (scene : String)
  /-- A branch took the place of the one declared at `previous`. -/
  | redefined (id : String) (span : Span) (scene : String) (previous : Span)
deriving DecidableEq, Repr

namespace Issue

def level : Issue → Level
  | lexical _ | expected _ _ | unclosed _ _ | strayBranch _ _ _ => .error
  | skipped _ _ | redefined _ _ _ _ => .warning

def category : Issue → Category
  | lexical e => e.cause.category
  | expected _ found => if found.kind = .eof then .unexpectedEnd else .malformed
  | unclosed _ _ => .unexpectedEnd
  | strayBranch _ _ _ => .malformed
  | skipped _ _ | redefined _ _ _ _ => .other

/-- The kinds that had to stand somewhere, as an error message lists them. -/
def describeExpected (kinds : List Kind) : String :=
  let list := ", ".intercalate (kinds.map Kind.describe)
  if kinds.length = 1 then "expected " ++ list else "expected one of " ++ list

def message : Issue → String
  | lexical e => e.cause.message
  | expected kinds found => describeExpected kinds ++ ", found " ++ found.describe
  | unclosed header _ =>
    "unclosed " ++ header.keyword.text ++ " `" ++ header.id ++ "`: expected `\x7d`, found " ++
      Kind.eof.describe
  | strayBranch id _ _ => "branch `" ++ id ++ "` declared outside of a scene"
  | skipped found scene =>
    "unexpected " ++ found.describe ++ " in scene `" ++ scene ++ "`, skipping it"
  | redefined id _ scene _ =>
    "branch `" ++ id ++ "` is defined more than once in scene `" ++ scene ++
      "`, the last definition is used"

def spans : Issue → Option AnnotatedSpan
  | lexical e => some (.ofSpan e.span)
  | expected _ found => some (.ofSpan found.span)
  | unclosed header stop =>
    some ⟨stop, [⟨header.opened, header.keyword.text ++ " opened here"⟩]⟩
  | strayBranch _ span author =>
    span.map fun span =>
      ⟨span, [⟨author.opened, "in " ++ author.keyword.text ++ " `" ++ author.id ++ "`"⟩]⟩
  | skipped found _ => some (.ofSpan found.span)
  | redefined _ span _ previous => some ⟨span, [⟨previous, "previously defined here"⟩]⟩

def diagnostic (i : Issue) : Diagnostic := ⟨i.level, i.category, i.message, i.spans⟩

def isFatal (i : Issue) : Bool := i.level.isFatal

/-- Every issue but the two kinds of warning makes a parse fail. -/
theorem isFatal_eq_false_iff (i : Issue) :
    i.isFatal = false ↔ (∃ found scene, i = skipped found scene) ∨
      ∃ id span scene previous, i = redefined id span scene previous := by
  cases i <;> simp [isFatal, level]

@[simp] theorem isFatal_diagnostic (i : Issue) : i.diagnostic.isFatal = i.isFatal := rfl

end Issue
end Scenario
