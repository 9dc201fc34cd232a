import Scenario.Span

/-!
# Tokens

The kinds of token come in a fixed order, in which diagnostics list them: the keywords in the order
`author`, `scene`, `branch`, `jump`, then identifiers, string literals, the two braces, comments and
the end of the input.
-/

namespace Scenario

/-- The reserved words of the language. -/
inductive Keyword where
  | author
  | scene
  | branch
  | jump
deriving DecidableEq, Repr

namespace Keyword

def all : List Keyword := [author, scene, branch, jump]

def text : Keyword → String
  | author => "author"
  | scene => "scene"
  | branch => "branch"
  | jump => "jump"

/-- The keyword that is written as `word`. -/
def identify (word : String) : Option Keyword := all.find? fun keyword => keyword.text = word

def rank : Keyword → Nat
  | author => 0
  | scene => 1
  | branch => 2
  | jump => 3

theorem mem_all (keyword : Keyword) : keyword ∈ all := by
  cases keyword <;> simp [all]

theorem identify_eq_some_iff (word : String) (keyword : Keyword) :
    identify word = some keyword ↔ keyword.text = word := by
  constructor
  · intro h
    simpa using List.find?_some h
  · rintro rfl
    cases keyword <;> rfl

end Keyword

inductive Kind where
  | keyword (keyword : Keyword)
  /-- A word that is not reserved. -/
  | ident
  /-- A string literal. -/
  | str
  | openBrace
  | closeBrace
  /-- A `#`, and what follows it on its line. -/
  | comment
  /-- The end of the input, standing in for the token that is missing there. -/
  | eof
deriving DecidableEq, Repr

namespace Kind

def rank : Kind → Nat
  | keyword k => k.rank
  | ident => 4
  | str => 5
  | openBrace => 6
  | closeBrace => 7
  | comment => 8
  | eof => 9

theorem rank_injective {k l : Kind} (h : k.rank = l.rank) : k = l := by
  cases k with
  | keyword k => cases k <;> cases l with
    | keyword l => cases l <;> simp_all [rank, Keyword.rank]
    | _ => simp_all [rank, Keyword.rank]
  | _ => cases l with
    | keyword l => cases l <;> simp_all [rank, Keyword.rank]
    | _ => simp_all [rank]

instance : LE Kind := ⟨fun k l => k.rank ≤ l.rank⟩

instance : LT Kind := ⟨fun k l => k.rank < l.rank⟩

instance (k l : Kind) : Decidable (k ≤ l) := inferInstanceAs (Decidable (k.rank ≤ l.rank))

instance (k l : Kind) : Decidable (k < l) := inferInstanceAs (Decidable (k.rank < l.rank))

/-- The kinds in their order, each as often as it is given. -/
def sort (kinds : List Kind) : List Kind := kinds.mergeSort (· ≤ ·)

/-- The kind as diagnostics name it. -/
def describe : Kind → String
  | keyword k => "`" ++ k.text ++ "`"
  | ident => "identifier"
  | str => "string literal"
  | openBrace => "`\x7b`"
  | closeBrace => "`\x7d`"
  | comment => "comment"
  | eof => "end of file"

end Kind

/-- A token of the source. Its value is its text for words and braces, the text of a comment
without the `#` and the blanks after it, and the content of a string literal. -/
structure Token where
  kind : Kind
  value : String
  span : Span
deriving DecidableEq, Repr

namespace Token

/-- The end of the input at `span`. -/
def eof (span : Span) : Token := ⟨.eof, "", span⟩

/-- The token as diagnostics name it: by its kind, and an identifier with its text. -/
def describe (t : Token) : String :=
  match t.kind with
  | .ident => "identifier `" ++ t.value ++ "`"
  | kind => kind.describe

@[simp] theorem kind_eof (span : Span) : (eof span).kind = .eof := rfl

@[simp] theorem span_eof (span : Span) : (eof span).span = span := rfl

end Token
end Scenario
