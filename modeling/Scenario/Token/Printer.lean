import Scenario.Token.Literal
import Scenario.Token.WellFormed

/-!
# Printing tokens

A list of tokens is printed with one space between two tokens. Keywords, identifiers and braces are
printed as they are, a comment takes the rest of its line with it, and a string literal escapes
what would end it or get lost. The tokens are given by kind and value: where they stood does not
matter.
-/

namespace Scenario

/-- The text of a token. -/
def Kind.print (kind : Kind) (value : String) : List Char :=
  match kind with
  | .str => '"' :: (Element.sourceAll (Element.encode value.toList) ++ ['"'])
  | .comment => '#' :: (value.toList ++ ['\n'])
  | .eof => []
  | _ => value.toList

namespace Token

/-- What the token says, apart from where it stands. -/
def content (t : Token) : Kind × String := (t.kind, t.value)

/-- The text of tokens with the given contents. -/
def printAll (contents : List (Kind × String)) : List Char :=
  [' '].intercalate (contents.map fun (kind, value) => kind.print value)

end Token
end Scenario
