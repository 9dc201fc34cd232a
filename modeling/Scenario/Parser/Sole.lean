import Scenario.Parser.LoneAuthor
import Scenario.Parser.Machine
import Scenario.Parser.OpenScene

/-!
# Single declarations

A scene or an author may also be read on its own. Then the input has to start with it, and either
to end with it or to go on in any way.
-/

namespace Scenario

/-- How much of the input a parse takes in. -/
inductive Extent where
  /-- All of it: nothing may follow. -/
  | whole
  /-- Only its beginning: anything may follow. -/
  | leading
deriving DecidableEq, Repr

/-- The state of reading a single declaration. -/
inductive Sole (ρ α : Type) where
  /-- Nothing has been read. -/
  | start
  | reading (rest : ρ)
  /-- The declaration has been read to its end. -/
  | complete (value : α)

namespace Sole

variable {ρ α : Type}

def resume : Turn ρ α → Sole ρ α
  | .more rest => reading rest
  | .done value => complete value

/-- The machine that reads a declaration with the given keyword. `start` is the declaration once its
keyword has been read, `step` reads a token of it, and `unfinished` is the issue with a declaration
that the input breaks off. -/
def machine (keyword : Keyword) (start : Span → ρ) (step : ρ → Token → Verdict (Verdict (Turn ρ α)))
    (unfinished : ρ → Span → Issue) (extent : Extent) : Machine (Sole ρ α) α where
  start := .start
  step state t :=
    match state with
    | .start =>
      if t.kind = .keyword keyword then pure (.more (pure (reading (start t.span))))
      else .reject (.expected [.keyword keyword] t)
    | .reading rest => do
      let turn ← step rest t
      return .more (resume <$> turn)
    | .complete value =>
      match extent with
      | .leading => pure (.done value)
      | .whole => .reject (.expected [.eof] t)
  finish state stop :=
    match state with
    | .start => .reject (.expected [.keyword keyword] (.eof stop))
    | .reading rest => .reject (unfinished rest stop)
    | .complete value => pure value

end Sole

/-- The machine that reads a scene on its own. -/
def OpenScene.machine (d : Dialect) (extent : Extent) : Machine (Sole OpenScene Scene) Scene :=
  Sole.machine .scene .opened (OpenScene.step d) (OpenScene.unfinished d) extent

/-- The machine that reads an author on its own. -/
def LoneAuthor.machine (d : Dialect) (extent : Extent) : Machine (Sole LoneAuthor Author) Author :=
  Sole.machine .author .start (LoneAuthor.step d) (LoneAuthor.unfinished d) extent

end Scenario
