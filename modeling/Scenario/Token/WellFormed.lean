import Scenario.Text
import Scenario.Token.Basic

/-!
# Well-formed tokens

Not every pair of a kind and a value is a token of some script. Keywords and braces are written in
one way only, an identifier must not be read as anything else, and a comment ends with its line.
Every text is the content of a string literal.
-/

namespace Scenario

/-- The characters that start something other than a word. -/
def startsNoWord (c : Char) : Bool := c = '#' || c = '"' || c = '{' || c = '}'

/-- A text that is read as one word: it holds no blank, and does not start like another token. -/
def IsWord (text : List Char) : Prop :=
  text ≠ [] ∧ (∀ c ∈ text, isBlank c = false) ∧ ∀ c ∈ text.head?, startsNoWord c = false

-- The decision looks at the characters of the text, not at all characters there are.
instance (text : List Char) : Decidable (IsWord text) :=
  @instDecidableAnd _ _ inferInstance
    (@instDecidableAnd _ _ (List.decidableBAll _ _) (Option.decidableForallMem _))

/-- A word that is no keyword. Scenes, authors and branches are named by identifiers. -/
def IsIdent (word : String) : Prop := IsWord word.toList ∧ Keyword.identify word = none

instance (word : String) : Decidable (IsIdent word) := inferInstanceAs (Decidable (_ ∧ _))

/-- A text that can stand behind the `#` of a comment and the blanks after it. -/
def IsCommentText (text : List Char) : Prop :=
  (∀ c ∈ text, isBreak c = false) ∧ ∀ c ∈ text.head?, isHorizontal c = false

instance (text : List Char) : Decidable (IsCommentText text) :=
  @instDecidableAnd _ _ (List.decidableBAll _ _) (Option.decidableForallMem _)

/-- The value belongs to a token of the given kind. -/
def Kind.Admits (kind : Kind) (value : String) : Prop :=
  match kind with
  | .keyword k => value = k.text
  | .ident => IsIdent value
  | .str => True
  | .openBrace => value = "\x7b"
  | .closeBrace => value = "\x7d"
  | .comment => IsCommentText value.toList
  | .eof => False

instance : (kind : Kind) → (value : String) → Decidable (kind.Admits value)
  | .keyword k, value => inferInstanceAs (Decidable (value = k.text))
  | .ident, value => inferInstanceAs (Decidable (IsIdent value))
  | .str, _ => .isTrue trivial
  | .openBrace, value => inferInstanceAs (Decidable (value = "\x7b"))
  | .closeBrace, value => inferInstanceAs (Decidable (value = "\x7d"))
  | .comment, value => inferInstanceAs (Decidable (IsCommentText value.toList))
  | .eof, _ => .isFalse id

end Scenario
