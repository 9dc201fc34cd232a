import Scenario.Dialect
import Scenario.Parser.Verdict

/-!
# Declarations of authors and branches

The declarations of an author and of a branch have one form: a keyword, a name, and a body in
braces. The body may hold any tokens. In most dialects its braces nest; in the others its first `}`
ends it, and a dialect may let the `{` in front of the body be missing.

A declaration that has been read in part is a `Declaration`. Reading a token leads to the
declaration that has been read a little further, or to the `}` that closes it.
-/

namespace Scenario

/-- A declaration of an author or a branch that has been read in part. -/
inductive Declaration where
  /-- The keyword has been read. -/
  | opened (keyword : Keyword) (span : Span)
  /-- The keyword and the name have been read. -/
  | named (header : Header)
  /-- The body is being read, and `depth` braces are open in it. -/
  | inside (header : Header) (depth : Nat)
deriving DecidableEq, Repr

namespace Declaration

/-- A declaration whose body starts with `t`, because its brace is missing, is inside its body. -/
def enter (d : Dialect) (t : Token) : Declaration → Declaration
  | named header =>
    if d.optionalBodyBrace && t.kind ≠ .openBrace then inside header 0 else named header
  | decl => decl

/-- Reads a token. -/
def step (d : Dialect) (decl : Declaration) (t : Token) :
    Verdict (Turn Declaration (Header × Span)) :=
  match decl.enter d t with
  | opened keyword span =>
    match t.kind with
    | .ident => pure (.more (named ⟨keyword, span, t.value⟩))
    | _ => .reject (.expected [.ident] t)
  | named header =>
    match t.kind with
    | .openBrace => pure (.more (inside header 0))
    | _ => .reject (.expected [.openBrace] t)
  | inside header depth =>
    match t.kind with
    | .closeBrace =>
      match depth with
      | 0 => pure (.done (header, t.span))
      | depth + 1 => pure (.more (inside header depth))
    | .openBrace => pure (.more (inside header (if d.balancedBodyBraces then depth + 1 else depth)))
    | _ => pure (.more (inside header depth))

/-- The header of a declaration in whose body `t` stands, outside of all braces there, if `t` is a
keyword that declares a branch. In the body of an author this is where a branch begins. -/
def branchPlace? (d : Dialect) (decl : Declaration) (t : Token) : Option Header :=
  match decl.enter d t, t.kind with
  | inside header 0, .keyword .branch => some header
  | _, _ => none

/-- The issue with a declaration that is still being read when the input ends at `stop`. -/
def unfinished (d : Dialect) (decl : Declaration) (stop : Span) : Issue :=
  match decl.enter d (.eof stop) with
  | opened _ _ => .expected [.ident] (.eof stop)
  | named _ => .expected [.openBrace] (.eof stop)
  | inside header _ => .unclosed header stop

end Declaration
end Scenario
