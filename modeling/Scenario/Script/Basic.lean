import Scenario.Script.Registry
import Scenario.Span

/-!
# Scripts

A script is a document: scenes in the order of the source, and the authors that are declared
outside of any scene. A scene holds its authors and its branches by id, and a branch is a named
block of steps.

Equality, written `==`, is about what a script says and not about where it says it: spans are left
out. Authors are equal when their ids are, branches when their ids and blocks are, and scenes when
their ids, authors and branches are.
-/

namespace Scenario

inductive Action where
  /-- Shows a line of text. -/
  | text (text : String)
  /-- Goes on with the branch of the given id. -/
  | jump (target : String)
deriving DecidableEq, Repr

inductive Step where
  | action (action : Action)
  /-- The end of the branch. -/
  | finish
deriving DecidableEq, Repr

instance : Coe Action Step := ⟨.action⟩

/-- Steps in the order in which they are taken. Steps are only ever added at the end. -/
structure Block where
  steps : List Step
deriving DecidableEq, Repr

namespace Block

def empty : Block := ⟨[]⟩

instance : Inhabited Block := ⟨empty⟩

def push (b : Block) (step : Step) : Block := ⟨b.steps ++ [step]⟩

def get? (b : Block) (index : Nat) : Option Step := b.steps[index]?

def length (b : Block) : Nat := b.steps.length

def isEmpty (b : Block) : Bool := b.steps.isEmpty

/-- The step with the given index, which has to exist. -/
def step (b : Block) (index : Nat) : Except Fault Step :=
  match b.get? index with
  | some step => .ok step
  | none => .error (.outOfBounds b.length index)

@[simp] theorem length_push (b : Block) (step : Step) : (b.push step).length = b.length + 1 := by
  simp [push, length]

end Block

structure Author where
  id : String
  span : Span
deriving Repr

namespace Author

instance : BEq Author := ⟨fun a b => a.id == b.id⟩

theorem beq_iff (a b : Author) : (a == b) = true ↔ a.id = b.id := by
  change (a.id == b.id) = true ↔ _
  simp

end Author

structure Branch where
  id : String
  block : Block
  span : Span
deriving Repr

namespace Branch

def ofSpan (id : String) (span : Span) : Branch := ⟨id, .empty, span⟩

instance : BEq Branch := ⟨fun a b => a.id == b.id && a.block == b.block⟩

theorem beq_iff (a b : Branch) : (a == b) = true ↔ a.id = b.id ∧ a.block = b.block := by
  change (a.id == b.id && a.block == b.block) = true ↔ _
  simp

end Branch

structure Scene where
  id : String
  span : Span
  authors : Registry Author
  branches : Registry Branch

namespace Scene

def ofSpan (id : String) (span : Span) : Scene := ⟨id, span, .empty, .empty⟩

def author? (s : Scene) (id : String) : Option Author := s.authors.find? id

def branch? (s : Scene) (id : String) : Option Branch := s.branches.find? id

/-- Adds an author, unless the scene has one with the same id. Tells whether it was added. -/
def addAuthor (s : Scene) (a : Author) : Bool × Scene :=
  match s.author? a.id with
  | some _ => (false, s)
  | none => (true, { s with authors := s.authors.put a.id a })

/-- Adds authors one after the other. -/
def addAuthors (s : Scene) (authors : List Author) : Scene :=
  authors.foldl (fun s a => (s.addAuthor a).2) s

/-- Adds a branch, in place of the one with the same id, which is returned. -/
def addBranch (s : Scene) (b : Branch) : Option Branch × Scene :=
  (s.branch? b.id, { s with branches := s.branches.put b.id b })

/-- Adds a step to the end of the branches with the given id. -/
def pushStep (s : Scene) (id : String) (step : Step) : Scene :=
  let extend (b : Branch) : Branch :=
    if b.id = id then { b with block := b.block.push step } else b
  { s with branches := s.branches.map extend }

instance : BEq Scene :=
  ⟨fun s t => s.id == t.id && s.authors == t.authors && s.branches == t.branches⟩

end Scene

structure Document where
  scenes : List Scene
  authors : List Author

namespace Document

def empty : Document := ⟨[], []⟩

/-- The first scene with the given id. -/
def scene? (d : Document) (id : String) : Option Scene := d.scenes.find? fun s => s.id = id

instance : BEq Document := ⟨fun d e => d.scenes == e.scenes && d.authors == e.authors⟩

end Document
end Scenario
