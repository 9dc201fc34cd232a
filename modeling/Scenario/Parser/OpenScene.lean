import Scenario.Parser.Declaration
import Scenario.Script.Basic

/-!
# Scenes

A scene is a keyword, a name, and braces with authors and branches between them. Branches may also
stand in the body of an author, outside of braces there; they belong to the scene all the same.
Other tokens are skipped with a warning, or refused, as the dialect has it.

Branches are registered as they are read, and a later one replaces an earlier one of the same name.
The authors of a scene are registered when it is closed, and the first of each name counts.
-/

namespace Scenario

/-- What has been read of a scene between its braces: its authors in their order, and its
branches. -/
structure SceneDraft where
  header : Header
  authors : List Author
  branches : Registry Branch

namespace SceneDraft

def start (header : Header) : SceneDraft := ⟨header, [], .empty⟩

def addAuthor (s : SceneDraft) (a : Author) : SceneDraft := { s with authors := s.authors ++ [a] }

/-- Registers a branch. Taking the place of another branch is worth a warning. -/
def addBranch (s : SceneDraft) (b : Branch) : Verdict SceneDraft := do
  match s.branches.find? b.id with
  | some replaced => .note (.redefined b.id b.span s.header.id replaced.span)
  | none => pure ()
  return { s with branches := s.branches.put b.id b }

/-- The scene, once it has been read to its end. -/
def close (s : SceneDraft) (span : Span) : Scene :=
  Scene.addAuthors ⟨s.header.id, span, .empty, s.branches⟩ s.authors

end SceneDraft

/-- What is being read between the braces of a scene. -/
inductive Place where
  /-- Nothing: the next author or branch may begin. -/
  | items
  | author (decl : Declaration)
  /-- A branch, which may stand in the body of the author `host`. -/
  | branch (host : Option Header) (decl : Declaration)
deriving DecidableEq, Repr

namespace Place

/-- The place behind a branch. -/
def behindBranch : Option Header → Place
  | none => items
  | some host => author (.inside host 0)

end Place

/-- A scene that has been read in part. -/
inductive OpenScene where
  /-- The keyword has been read. -/
  | opened (span : Span)
  /-- The keyword and the name have been read. -/
  | named (header : Header)
  | inside (draft : SceneDraft) (place : Place)

namespace OpenScene

/-- Reads a token where an author or a branch may begin. -/
def stepItem (d : Dialect) (s : SceneDraft) (t : Token) :
    Verdict (Verdict (Turn OpenScene Scene)) :=
  match t.kind with
  | .keyword .author => pure (pure (.more (inside s (.author (.opened .author t.span)))))
  | .keyword .branch => pure (pure (.more (inside s (.branch none (.opened .branch t.span)))))
  | .closeBrace => pure do
    let span ← .ofExcept (s.header.opened.union t.span)
    return .done (s.close span)
  | _ =>
    if d.lenientSceneItems then do
      .note (.skipped t s.header.id)
      return pure (.more (inside s .items))
    else .reject (.expected [.keyword .author, .keyword .branch, .closeBrace] t)

/-- Reads a token in the declaration of an author. -/
def stepAuthor (d : Dialect) (s : SceneDraft) (decl : Declaration) (t : Token) :
    Verdict (Verdict (Turn OpenScene Scene)) :=
  match decl.branchPlace? d t with
  | some host => pure (pure (.more (inside s (.branch (some host) (.opened .branch t.span)))))
  | none => do
    match ← decl.step d t with
    | .more decl => pure (pure (.more (inside s (.author decl))))
    | .done (header, close) => pure do
      let span ← .ofExcept (header.opened.union close)
      return .more (inside (s.addAuthor ⟨header.id, span⟩) .items)

/-- Reads a token in the declaration of a branch. -/
def stepBranch (d : Dialect) (s : SceneDraft) (host : Option Header) (decl : Declaration)
    (t : Token) : Verdict (Verdict (Turn OpenScene Scene)) := do
  match ← decl.step d t with
  | .more decl => pure (pure (.more (inside s (.branch host decl))))
  | .done (header, close) => pure do
    let span ← .ofExcept (header.opened.union close)
    let s ← s.addBranch (.ofSpan header.id span)
    return .more (inside s (.behindBranch host))

/-- Reads a token. The outer verdict is what comes out at once, the inner one what comes out as
soon as the next item is there. -/
def step (d : Dialect) (s : OpenScene) (t : Token) : Verdict (Verdict (Turn OpenScene Scene)) :=
  match s with
  | opened span =>
    match t.kind with
    | .ident => pure (pure (.more (named ⟨.scene, span, t.value⟩)))
    | _ => .reject (.expected [.ident] t)
  | named header =>
    match t.kind with
    | .openBrace => pure (pure (.more (inside (.start header) .items)))
    | _ => .reject (.expected [.openBrace] t)
  | inside s .items => stepItem d s t
  | inside s (.author decl) => stepAuthor d s decl t
  | inside s (.branch host decl) => stepBranch d s host decl t

/-- The issue with a scene that is still being read when the input ends at `stop`. -/
def unfinished (d : Dialect) (s : OpenScene) (stop : Span) : Issue :=
  match s with
  | opened _ => .expected [.ident] (.eof stop)
  | named _ => .expected [.openBrace] (.eof stop)
  | inside s .items => .unclosed s.header stop
  | inside _ (.author decl) => decl.unfinished d stop
  | inside _ (.branch _ decl) => decl.unfinished d stop

end OpenScene
end Scenario
