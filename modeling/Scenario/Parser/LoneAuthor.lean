import Scenario.Parser.Declaration
import Scenario.Script.Basic

/-!
# Authors outside of scenes

An author that is declared outside of any scene must not declare a branch in its body, outside of
braces there: the branch would belong to no scene. The name of such a branch is read before it is
complained about.
-/

namespace Scenario

/-- An author outside of any scene that has been read in part. -/
inductive LoneAuthor where
  | reading (decl : Declaration)
  /-- The keyword of a branch, at `opened`, has been read in the body of `author`. -/
  | stray (author : Header) (opened : Span)
deriving DecidableEq, Repr

namespace LoneAuthor

/-- The author whose keyword stands at `opened`. -/
def start (opened : Span) : LoneAuthor := reading (.opened .author opened)

/-- The complaint about a branch of the given name. It points at the branch, if that has a span. -/
def rejectBranch (author : Header) (opened : Span) (name : Token) :
    Verdict (Turn LoneAuthor Author) :=
  match opened.union name.span with
  | .ok span => .reject (.strayBranch name.value (some span) author)
  | .error fault => ⟨[.strayBranch name.value none author], .error (.fault fault)⟩

/-- Reads a token. The outer verdict is what comes out at once, the inner one what comes out as
soon as the next item is there. -/
def step (d : Dialect) (a : LoneAuthor) (t : Token) :
    Verdict (Verdict (Turn LoneAuthor Author)) :=
  match a with
  | reading decl =>
    match decl.branchPlace? d t with
    | some author => pure (pure (.more (stray author t.span)))
    | none => do
      match ← decl.step d t with
      | .more decl => pure (pure (.more (reading decl)))
      | .done (header, close) => pure do
        let span ← .ofExcept (header.opened.union close)
        return .done ⟨header.id, span⟩
  | stray author opened =>
    match t.kind with
    | .ident => pure (rejectBranch author opened t)
    | _ => .reject (.expected [.ident] t)

/-- The issue with an author that is still being read when the input ends at `stop`. -/
def unfinished (d : Dialect) (a : LoneAuthor) (stop : Span) : Issue :=
  match a with
  | reading decl => decl.unfinished d stop
  | stray _ _ => .expected [.ident] (.eof stop)

end LoneAuthor
end Scenario
