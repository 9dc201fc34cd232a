import Scenario.Parser.LoneAuthor
import Scenario.Parser.Machine
import Scenario.Parser.OpenScene
import Scenario.Script.Broadcast

/-!
# Documents

A document is a sequence of scenes and authors, and ends with the input. Once it has been read, its
authors are broadcast to its scenes.
-/

namespace Scenario

/-- A document that has been read in part. -/
inductive OpenDocument where
  /-- The next scene or author may begin. -/
  | items (document : Document)
  | author (document : Document) (author : LoneAuthor)
  | scene (document : Document) (scene : OpenScene)

namespace OpenDocument

/-- The document once the author has been read further. -/
def resumeAuthor (document : Document) : Turn LoneAuthor Author → OpenDocument
  | .more rest => author document rest
  | .done value => items { document with authors := document.authors ++ [value] }

/-- The document once the scene has been read further. -/
def resumeScene (document : Document) : Turn OpenScene Scene → OpenDocument
  | .more rest => scene document rest
  | .done value => items { document with scenes := document.scenes ++ [value] }

/-- Reads a token. -/
def step (d : Dialect) (o : OpenDocument) (t : Token) : Verdict (Verdict OpenDocument) :=
  match o with
  | items document =>
    match t.kind with
    | .keyword .author => pure (pure (author document (.start t.span)))
    | .keyword .scene => pure (pure (scene document (.opened t.span)))
    | _ => .reject (.expected [.keyword .author, .keyword .scene] t)
  | author document rest => do
    let turn ← rest.step d t
    return resumeAuthor document <$> turn
  | scene document rest => do
    let turn ← rest.step d t
    return resumeScene document <$> turn

/-- Comes to an end with the input. -/
def finish (d : Dialect) (o : OpenDocument) (stop : Span) : Verdict Document :=
  match o with
  | items document => pure document.broadcast
  | author _ rest => .reject (rest.unfinished d stop)
  | scene _ rest => .reject (rest.unfinished d stop)

/-- The machine that reads documents. -/
def machine (d : Dialect) : Machine OpenDocument Document where
  start := items .empty
  step o t := do return .more (← o.step d t)
  finish o stop := o.finish d stop

end OpenDocument
end Scenario
