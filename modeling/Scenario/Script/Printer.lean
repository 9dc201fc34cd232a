import Scenario.Script.Basic
import Scenario.Token.Printer

/-!
# Printing scripts

The printed form of a document names what is in it and nothing else: first the authors declared
outside of scenes, then the scenes, each with its authors and then its branches. Every body is
printed empty, so the steps of a branch are not kept. A document can be read back from its printed
form if its ids are identifiers, its blocks are empty, and its authors take part in every scene.
-/

namespace Scenario

/-- The contents of the tokens of `KEYWORD ID { }`, with `inner` between the braces. -/
def declarationContents (keyword : Keyword) (id : String) (inner : List (Kind × String)) :
    List (Kind × String) :=
  (.keyword keyword, keyword.text) :: (.ident, id) :: (.openBrace, "\x7b") ::
    (inner ++ [(.closeBrace, "\x7d")])

def Author.contents (a : Author) : List (Kind × String) := declarationContents .author a.id []

def Branch.contents (b : Branch) : List (Kind × String) := declarationContents .branch b.id []

def Scene.contents (s : Scene) : List (Kind × String) :=
  declarationContents .scene s.id
    (s.authors.values.flatMap Author.contents ++ s.branches.values.flatMap Branch.contents)

namespace Document

def contents (d : Document) : List (Kind × String) :=
  d.authors.flatMap Author.contents ++ d.scenes.flatMap Scene.contents

/-- The text of a document. -/
def print (d : Document) : String := String.ofList (Token.printAll d.contents)

end Document
end Scenario
