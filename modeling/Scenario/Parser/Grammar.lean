import Scenario.Dialect
import Scenario.Script.Broadcast
import Scenario.Token.Basic

/-!
# The grammar

The language, as rules that say which token lists are which parts of a script. Comments and the
end of the input are no tokens of the grammar.

The rules do not say how to find the parts. They leave no choice all the same: a body ends at the
brace that matches its first one, or at the first closing brace if braces do not nest.
-/

namespace Scenario

/-- A token that may stand alone in a body: no closing brace, and no opening one if braces nest. -/
def Token.IsFiller (d : Dialect) (t : Token) : Prop :=
  t.kind ≠ .closeBrace ∧ (d.balancedBodyBraces = true → t.kind ≠ .openBrace)

/-- What may stand between the braces of a body without having a meaning: single tokens, and, if
braces nest, groups in braces. -/
inductive Filler (d : Dialect) : List Token → Prop
  | nil : Filler d []
  | token {t : Token} {rest : List Token} :
      t.IsFiller d → Filler d rest → Filler d (t :: rest)
  | group {left right : Token} {inner rest : List Token} :
      d.balancedBodyBraces = true → left.kind = .openBrace → right.kind = .closeBrace →
      Filler d inner → Filler d rest → Filler d (left :: (inner ++ right :: rest))

/-- The tokens in front of the rest of a body: a brace, or nothing, if the brace may be missing and
the body does not go on with one. -/
inductive Opening (d : Dialect) : List Token → List Token → Prop
  | brace {left : Token} {body : List Token} : left.kind = .openBrace → Opening d [left] body
  | missing {body : List Token} :
      d.optionalBodyBrace = true → (∀ t ∈ body.head?, t.kind ≠ .openBrace) → Opening d [] body

/-- The declaration of a branch. -/
inductive BranchForm (d : Dialect) : List Token → Branch → Prop
  | intro {keyword name right : Token} {opening content : List Token} {span : Span} :
      keyword.kind = .keyword .branch → name.kind = .ident → right.kind = .closeBrace →
      Opening d opening (content ++ [right]) → Filler d content →
      keyword.span.union right.span = .ok span →
      BranchForm d (keyword :: name :: (opening ++ (content ++ [right]))) (.ofSpan name.value span)

/-- What may stand between the braces of an author, and the branches declared there. Branches may
be declared in a scene only, and outside of all braces. -/
inductive AuthorContent (d : Dialect) (inScene : Bool) : List Token → List Branch → Prop
  | nil : AuthorContent d inScene [] []
  | token {t : Token} {rest : List Token} {branches : List Branch} :
      t.IsFiller d → t.kind ≠ .keyword .branch → AuthorContent d inScene rest branches →
      AuthorContent d inScene (t :: rest) branches
  | group {left right : Token} {inner rest : List Token} {branches : List Branch} :
      d.balancedBodyBraces = true → left.kind = .openBrace → right.kind = .closeBrace →
      Filler d inner → AuthorContent d inScene rest branches →
      AuthorContent d inScene (left :: (inner ++ right :: rest)) branches
  | branch {text rest : List Token} {b : Branch} {branches : List Branch} :
      inScene = true → BranchForm d text b → AuthorContent d inScene rest branches →
      AuthorContent d inScene (text ++ rest) (b :: branches)

/-- The declaration of an author, with the branches declared in it. -/
inductive AuthorForm (d : Dialect) (inScene : Bool) : List Token → Author → List Branch → Prop
  | intro {keyword name right : Token} {opening content : List Token} {branches : List Branch}
      {span : Span} :
      keyword.kind = .keyword .author → name.kind = .ident → right.kind = .closeBrace →
      Opening d opening (content ++ [right]) → AuthorContent d inScene content branches →
      keyword.span.union right.span = .ok span →
      AuthorForm d inScene (keyword :: name :: (opening ++ (content ++ [right])))
        ⟨name.value, span⟩ branches

/-- A token that a lenient dialect skips in a scene. -/
def Token.IsStray (t : Token) : Prop :=
  t.kind ≠ .keyword .author ∧ t.kind ≠ .keyword .branch ∧ t.kind ≠ .closeBrace

/-- What may stand between the braces of a scene, with the authors and branches declared there. -/
inductive SceneContent (d : Dialect) : List Token → List Author → List Branch → Prop
  | nil : SceneContent d [] [] []
  | author {text rest : List Token} {a : Author} {inner : List Branch} {authors : List Author}
      {branches : List Branch} :
      AuthorForm d true text a inner → SceneContent d rest authors branches →
      SceneContent d (text ++ rest) (a :: authors) (inner ++ branches)
  | branch {text rest : List Token} {b : Branch} {authors : List Author} {branches : List Branch} :
      BranchForm d text b → SceneContent d rest authors branches →
      SceneContent d (text ++ rest) authors (b :: branches)
  | stray {t : Token} {rest : List Token} {authors : List Author} {branches : List Branch} :
      d.lenientSceneItems = true → t.IsStray → SceneContent d rest authors branches →
      SceneContent d (t :: rest) authors branches

/-- A scene made of the branches and the authors declared in it, in their order. -/
def Scene.ofDeclarations (id : String) (span : Span) (authors : List Author)
    (branches : List Branch) : Scene :=
  (branches.foldl (fun s b => (s.addBranch b).2) (Scene.ofSpan id span)).addAuthors authors

/-- The declaration of a scene. -/
inductive SceneForm (d : Dialect) : List Token → Scene → Prop
  | intro {keyword name left right : Token} {content : List Token} {authors : List Author}
      {branches : List Branch} {span : Span} :
      keyword.kind = .keyword .scene → name.kind = .ident → left.kind = .openBrace →
      right.kind = .closeBrace → SceneContent d content authors branches →
      keyword.span.union right.span = .ok span →
      SceneForm d (keyword :: name :: left :: (content ++ [right]))
        (.ofDeclarations name.value span authors branches)

/-- The declaration of an author outside of any scene. -/
def LoneAuthorForm (d : Dialect) (text : List Token) (a : Author) : Prop :=
  AuthorForm d false text a []

/-- A sequence of scenes and authors. -/
inductive DocumentContent (d : Dialect) : List Token → List Scene → List Author → Prop
  | nil : DocumentContent d [] [] []
  | scene {text rest : List Token} {s : Scene} {scenes : List Scene} {authors : List Author} :
      SceneForm d text s → DocumentContent d rest scenes authors →
      DocumentContent d (text ++ rest) (s :: scenes) authors
  | author {text rest : List Token} {a : Author} {scenes : List Scene} {authors : List Author} :
      LoneAuthorForm d text a → DocumentContent d rest scenes authors →
      DocumentContent d (text ++ rest) scenes (a :: authors)

/-- A document: its scenes take part in its authors. -/
inductive DocumentForm (d : Dialect) : List Token → Document → Prop
  | intro {text : List Token} {scenes : List Scene} {authors : List Author} :
      DocumentContent d text scenes authors →
      DocumentForm d text (Document.broadcast ⟨scenes, authors⟩)

end Scenario
