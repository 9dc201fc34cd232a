import Scenario.Script.Traversal

/-!
# Broadcasting authors

An author that is declared outside of any scene takes part in every scene. Broadcasting gives each
scene of a document the authors it lacks; an author that the scene declares itself stays as it is.
-/

namespace Scenario

/-- Gives every scene the authors declared outside of scenes. -/
def Document.broadcast (d : Document) : Document :=
  { d with scenes := d.scenes.map fun s => s.addAuthors d.authors }

/-- The editor that broadcasts authors. It has work to do on whole documents only. -/
def Editor.broadcasting {m : Type → Type} [Monad m] : Editor m :=
  { (Editor.idle : Editor m) with onDocument := some fun d => pure d.broadcast }

namespace Document

@[simp] theorem authors_broadcast (d : Document) : d.broadcast.authors = d.authors := rfl

@[simp] theorem length_scenes_broadcast (d : Document) :
    d.broadcast.scenes.length = d.scenes.length := by
  simp [broadcast]

end Document
end Scenario
