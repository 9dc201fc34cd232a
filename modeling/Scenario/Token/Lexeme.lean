import Scenario.Token.Item
import Scenario.Token.Literal

/-!
# Lexemes

A lexeme is the text of one token, taken apart. It is found by its first character: a `#` starts a
comment, a double quote a string literal, a brace stands alone, and every other character starts a
word, which goes on up to the next blank. A string literal without an end takes all the text.

Main statement: `Lexeme.split?_eq_some` says that a lexeme and the text behind it are the text that
was split, so nothing is lost and nothing is read twice.
-/

namespace Scenario

inductive Lexeme where
  /-- A `#`, the blanks after it, and the rest of the line. -/
  | comment (margin text : List Char)
  | literal (body : List Element)
  /-- A double quote, and all the text after it, none of which ends the literal. -/
  | unterminated (text : List Char)
  | openBrace
  | closeBrace
  | word (text : List Char)
deriving DecidableEq, Repr

namespace Lexeme

/-- The text of the lexeme in the source. -/
def source : Lexeme → List Char
  | comment margin text => '#' :: (margin ++ text)
  | literal body => '"' :: (Element.sourceAll body ++ ['"'])
  | unterminated text => '"' :: text
  | openBrace => ['{']
  | closeBrace => ['}']
  | word text => text

/-- The first lexeme of a text that does not start with a blank, and the text behind it. -/
def split? : List Char → Option (Lexeme × List Char)
  | [] => none
  | c :: text =>
    if c = '#' then
      let body := text.dropWhile isHorizontal
      some (comment (text.takeWhile isHorizontal) (body.takeWhile (!isBreak ·)),
        body.dropWhile (!isBreak ·))
    else if c = '"' then
      match Element.splitBody text with
      | some (body, rest) => some (literal body, rest)
      | none => some (unterminated text, [])
    else if c = '{' then some (openBrace, text)
    else if c = '}' then some (closeBrace, text)
    else some (word (c :: text.takeWhile (!isBlank ·)), text.dropWhile (!isBlank ·))

/-- The token that the lexeme makes at `span`, or the error. -/
def item (collapse : Bool) (span : Span) : Lexeme → Item
  | comment _ text => .token ⟨.comment, String.ofList text, span⟩
  | literal body => .token ⟨.str, String.ofList (Element.decode collapse body), span⟩
  | unterminated _ => .error ⟨.unterminatedLiteral, span⟩
  | openBrace => .token ⟨.openBrace, "\x7b", span⟩
  | closeBrace => .token ⟨.closeBrace, "\x7d", span⟩
  | word text =>
    let value := String.ofList text
    .token ⟨(Keyword.identify value).elim .ident .keyword, value, span⟩

theorem split?_eq_none_iff (text : List Char) : split? text = none ↔ text = [] := by
  cases text with
  | nil => simp [split?]
  | cons c text =>
    simp only [split?]
    repeat' split
    all_goals simp

theorem split?_eq_some {text rest : List Char} {l : Lexeme} (h : split? text = some (l, rest)) :
    text = l.source ++ rest := by
  cases text with
  | nil => simp [split?] at h
  | cons c text =>
    simp only [split?] at h
    split at h
    · obtain ⟨rfl, rfl⟩ := by simpa using h
      simp_all [source]
    split at h
    · split at h
      · rename_i hb
        obtain ⟨rfl, rfl⟩ := by simpa using h
        simp_all [source, (Element.splitBody_eq_some hb).1]
      · obtain ⟨rfl, rfl⟩ := by simpa using h
        simp_all [source]
    split at h
    · obtain ⟨rfl, rfl⟩ := by simpa using h
      simp_all [source]
    split at h
    · obtain ⟨rfl, rfl⟩ := by simpa using h
      simp_all [source]
    · obtain ⟨rfl, rfl⟩ := by simpa using h
      simp [source]

theorem source_ne_nil_of_split? {text rest : List Char} {l : Lexeme}
    (h : split? text = some (l, rest)) : l.source ≠ [] := by
  cases text with
  | nil => simp [split?] at h
  | cons c text =>
    simp only [split?] at h
    repeat' split at h
    all_goals
      obtain ⟨rfl, rfl⟩ := by simpa using h
      simp [source]

/-- Each lexeme is a character long at least. -/
theorem length_lt_of_split? {text rest : List Char} {l : Lexeme}
    (h : split? text = some (l, rest)) : rest.length < text.length := by
  have hs := List.length_pos_iff.2 (source_ne_nil_of_split? h)
  rw [split?_eq_some h, List.length_append]
  omega

end Lexeme
end Scenario
