import Scenario.Script.Basic

/-!
# Traversals

A visitor looks at the parts of a script, an editor replaces them. Both say only what is to be done
with the parts they care about. A part about which nothing is said is entered, and its own parts are
visited in turn; a part about which something is said is not entered.

Documents are entered authors first and then scenes; scenes authors first and then branches. An
editor cannot reach the authors of a scene, since they are kept under their ids.
-/

namespace Scenario

structure Visitor (m : Type → Type) where
  onDocument : Option (Document → m Unit)
  onScene : Option (Scene → m Unit)
  onAuthor : Option (Author → m Unit)
  onBranch : Option (Branch → m Unit)
  onBlock : Option (Block → m Unit)
  onStep : Option (Step → m Unit)

namespace Visitor

variable {m : Type → Type} [Monad m]

/-- Looks at nothing. -/
def idle : Visitor m := ⟨none, none, none, none, none, none⟩

def visitStep (v : Visitor m) (step : Step) : m Unit :=
  match v.onStep with
  | some visit => visit step
  | none => pure ()

def visitBlock (v : Visitor m) (block : Block) : m Unit :=
  match v.onBlock with
  | some visit => visit block
  | none => block.steps.forM v.visitStep

def visitBranch (v : Visitor m) (branch : Branch) : m Unit :=
  match v.onBranch with
  | some visit => visit branch
  | none => v.visitBlock branch.block

def visitAuthor (v : Visitor m) (author : Author) : m Unit :=
  match v.onAuthor with
  | some visit => visit author
  | none => pure ()

def visitScene (v : Visitor m) (scene : Scene) : m Unit :=
  match v.onScene with
  | some visit => visit scene
  | none => do
    scene.authors.values.forM v.visitAuthor
    scene.branches.values.forM v.visitBranch

def visitDocument (v : Visitor m) (document : Document) : m Unit :=
  match v.onDocument with
  | some visit => visit document
  | none => do
    document.authors.forM v.visitAuthor
    document.scenes.forM v.visitScene

end Visitor

structure Editor (m : Type → Type) where
  onDocument : Option (Document → m Document)
  onScene : Option (Scene → m Scene)
  onAuthor : Option (Author → m Author)
  onBranch : Option (Branch → m Branch)
  onBlock : Option (Block → m Block)

namespace Editor

variable {m : Type → Type} [Monad m]

/-- Changes nothing. -/
def idle : Editor m := ⟨none, none, none, none, none⟩

def editBlock (e : Editor m) (block : Block) : m Block :=
  match e.onBlock with
  | some edit => edit block
  | none => pure block

def editBranch (e : Editor m) (branch : Branch) : m Branch :=
  match e.onBranch with
  | some edit => edit branch
  | none => do return { branch with block := ← e.editBlock branch.block }

def editAuthor (e : Editor m) (author : Author) : m Author :=
  match e.onAuthor with
  | some edit => edit author
  | none => pure author

def editScene (e : Editor m) (scene : Scene) : m Scene :=
  match e.onScene with
  | some edit => edit scene
  | none => do return { scene with branches := ← scene.branches.traverse e.editBranch }

def editDocument (e : Editor m) (document : Document) : m Document :=
  match e.onDocument with
  | some edit => edit document
  | none => do
    let authors ← document.authors.mapM e.editAuthor
    let scenes ← document.scenes.mapM e.editScene
    return ⟨scenes, authors⟩

end Editor
end Scenario
