import Mathlib.Data.List.Infix
import Scenario.Proofs.Lexing.Tiling

/-!
# What a literal says

The content of a string literal is made while its elements are read, with a state that tells whether
a run of blanks is going on. Here it is said without a state: the elements of a text are read off
from left to right, the first quote among them ends the literal, and each element in front of it
adds to the content what it means there. What it means depends on the elements before it only.

Main statement: `Lexer.scan_literal`.
-/

namespace Scenario
namespace Element

/-- The elements of a text, quotes included. A backslash at the end of the text escapes nothing and
belongs to no element. -/
def readAll : List Char → List Element
  | [] => []
  | ['\\'] => []
  | '\\' :: c :: text => escaped c :: readAll text
  | c :: text => plain c :: readAll text

/-- A run of blanks goes on behind the elements: a space or a line feed stands among them, and
nothing but spaces and tabs behind it. None of these is escaped. -/
def InRun (before : List Element) : Prop :=
  ∃ front start between, before = front ++ plain start :: between ∧ (start = '\n' ∨ start = ' ') ∧
    ∀ e ∈ between, e = plain ' ' ∨ e = plain '\t'

theorem not_inRun_nil : ¬ InRun [] := by
  rintro ⟨front, start, between, h, -⟩
  simp at h

/-- A space or a line feed starts a run, and a tab does not end one. -/
theorem inRun_concat_iff (before : List Element) (e : Element) :
    InRun (before ++ [e]) ↔
      e = plain '\n' ∨ e = plain ' ' ∨ e = plain '\t' ∧ InRun before := by
  constructor
  · rintro ⟨front, start, between, h, hstart, hbetween⟩
    rcases List.eq_nil_or_concat between with rfl | ⟨between, last, rfl⟩
    · obtain ⟨-, he⟩ := List.append_inj' h rfl
      cases he
      rcases hstart with rfl | rfl
      · exact .inl rfl
      · exact .inr (.inl rfl)
    · rw [List.concat_eq_append, ← List.cons_append, ← List.append_assoc] at h
      obtain ⟨rfl, he⟩ := List.append_inj' h rfl
      cases he
      rcases hbetween e (by simp) with rfl | rfl
      · exact .inr (.inl rfl)
      · exact .inr (.inr ⟨rfl, front, start, between, rfl, hstart,
          fun x hx => hbetween x (by simp [hx])⟩)
  · rintro (rfl | rfl | ⟨rfl, front, start, between, rfl, hstart, hbetween⟩)
    · exact ⟨before, '\n', [], rfl, .inl rfl, by simp⟩
    · exact ⟨before, ' ', [], rfl, .inr rfl, by simp⟩
    · refine ⟨front, start, between ++ [plain '\t'], by simp, hstart, ?_⟩
      simp only [List.mem_append, List.mem_singleton]
      rintro x (hx | rfl)
      · exact hbetween x hx
      · exact .inr rfl

/-- Whether a run goes on behind an element, given whether one goes on in front of it. -/
def goesOn (run : Bool) : Element → Bool
  | escaped _ => false
  | plain c => c = '\n' || c = ' ' || (c = '\t' && run)

theorem inRun_concat_iff_goesOn {before : List Element} {run : Bool}
    (h : InRun before ↔ run = true) (e : Element) :
    InRun (before ++ [e]) ↔ goesOn run e = true := by
  rw [inRun_concat_iff, h]
  cases e <;> simp [goesOn, or_assoc]

theorem inRun_iff_foldl (before : List Element) :
    InRun before ↔ before.foldl goesOn false = true := by
  induction before using List.reverseRecOn with
  | nil => simpa using not_inRun_nil
  | append_singleton before e ih => rw [List.foldl_concat, inRun_concat_iff_goesOn ih]

instance : DecidablePred InRun := fun before => decidable_of_iff _ (inRun_iff_foldl before).symm

/-- What an element adds to the content of a literal behind the elements `before`. A CR that is not
escaped adds nothing, and where blanks collapse, nor does a space or tab in a run of blanks. -/
def meaning (collapse : Bool) (before : List Element) : Element → List Char
  | escaped c => [c]
  | plain c =>
    if c = '\r' ∨ collapse = true ∧ (c = ' ' ∨ c = '\t') ∧ InRun before then [] else [c]

/-- The content of a literal: what its elements mean where they stand. -/
def content (collapse : Bool) (body : List Element) : List Char :=
  (body.inits.zip body).flatMap fun (before, e) => meaning collapse before e

theorem decodeFrom_cons {before : List Element} {run : Bool} (collapse : Bool)
    (h : InRun before ↔ run = true) (e : Element) (body : List Element) :
    decodeFrom collapse (collapse && run) (e :: body) =
      meaning collapse before e ++ decodeFrom collapse (collapse && goesOn run e) body := by
  cases e with
  | escaped c => simp [decodeFrom, meaning, goesOn]
  | plain c =>
    by_cases hr : c = '\r'
    · subst hr
      simp [decodeFrom, meaning, goesOn]
    by_cases hdrop : collapse = true ∧ (c = ' ' ∨ c = '\t') ∧ run = true
    · obtain ⟨rfl, hc, rfl⟩ := hdrop
      rcases hc with rfl | rfl <;> simp [decodeFrom, meaning, goesOn, isHorizontal, h.2 rfl]
    · have hkeep : ¬ (collapse && run && isHorizontal c) = true := by
        simp only [isHorizontal, Bool.and_eq_true, Bool.or_eq_true, decide_eq_true_eq]
        tauto
      have hmeaning : meaning collapse before (plain c) = [c] :=
        if_neg (by rw [h]; tauto)
      have hnext : (collapse && goesOn run (plain c)) = (collapse && (c = '\n' || c = ' ')) := by
        rw [Bool.eq_iff_iff]
        simp only [goesOn, Bool.and_eq_true, Bool.or_eq_true, decide_eq_true_eq]
        tauto
      rw [decodeFrom, if_neg hr, if_neg hkeep, hmeaning, hnext, List.singleton_append]

/-- The content is what decoding makes of the elements. -/
theorem decode_eq_content (collapse : Bool) (body : List Element) :
    decode collapse body = content collapse body := by
  have hfrom : ∀ before run, (InRun before ↔ run = true) →
      decodeFrom collapse (collapse && run) body =
        (body.inits.zip body).flatMap fun p => meaning collapse (before ++ p.1) p.2 := by
    induction body with
    | nil => simp [decodeFrom]
    | cons e body ih =>
      intro before run h
      rw [decodeFrom_cons collapse h, ih (before ++ [e]) _ (inRun_concat_iff_goesOn h e)]
      simp [List.zip_map_left, List.flatMap_map]
  simpa [decode, content] using hfrom [] false (by simpa using not_inRun_nil)

theorem readAll_of_splitBody {text rest : List Char} {body : List Element}
    (h : splitBody text = some (body, rest)) :
    readAll text = body ++ plain '"' :: readAll rest ∧ plain '"' ∉ body := by
  fun_induction splitBody text generalizing body rest with
  | case1 => simp at h
  | case2 => simp at h
  | case3 text =>
    obtain ⟨rfl, rfl⟩ := by simpa using h
    simp [readAll]
  | case4 c text ih =>
    simp only [Option.map_eq_some_iff, Prod.mk.injEq, Prod.exists] at h
    obtain ⟨body, rest, hs, rfl, rfl⟩ := h
    obtain ⟨hread, hmem⟩ := ih hs
    simp [readAll, hread, hmem]
  | case5 c text hend hq hb ih =>
    simp only [Option.map_eq_some_iff, Prod.mk.injEq, Prod.exists] at h
    obtain ⟨body, rest, hs, rfl, rfl⟩ := h
    obtain ⟨hread, hmem⟩ := ih hs
    simp [readAll.eq_4 c text hend hb, hread, hmem, Ne.symm hq]

theorem not_mem_readAll_of_splitBody {text : List Char} (h : splitBody text = none) :
    plain '"' ∉ readAll text := by
  fun_induction splitBody text with
  | case1 => simp [readAll]
  | case2 => simp [readAll]
  | case3 text => simp at h
  | case4 c text ih =>
    have hmem := ih (by simpa using h)
    simp [readAll, hmem]
  | case5 c text hend hq hb ih =>
    have hmem := ih (by simpa using h)
    simp [readAll.eq_4 c text hend hb, hmem, Ne.symm hq]

end Element

namespace Lexeme

variable {text rest : List Char} {body : List Element}

theorem split?_eq_literal_iff :
    split? ('"' :: text) = some (literal body, rest) ↔
      Element.splitBody text = some (body, rest) := by
  rcases hs : Element.splitBody text with _ | ⟨body', rest'⟩ <;> simp [split?, hs]

/-- A literal that starts here is found exactly if there is a quote among the elements. -/
theorem exists_split?_eq_literal_iff :
    (∃ body rest, split? ('"' :: text) = some (literal body, rest)) ↔
      .plain '"' ∈ Element.readAll text := by
  simp only [split?_eq_literal_iff]
  constructor
  · rintro ⟨body, rest, h⟩
    simp [(Element.readAll_of_splitBody h).1]
  · intro h
    rcases hs : Element.splitBody text with _ | ⟨body, rest⟩
    · exact (Element.not_mem_readAll_of_splitBody hs h).elim
    · exact ⟨body, rest, rfl⟩

theorem split?_eq_unterminated (h : .plain '"' ∉ Element.readAll text) :
    split? ('"' :: text) = some (unterminated text, []) := by
  rcases hs : Element.splitBody text with _ | ⟨body, rest⟩
  · simp [split?, hs]
  · exact (h (by simp [(Element.readAll_of_splitBody hs).1])).elim

end Lexeme

namespace Lexer

/-- A literal is read as it is written. The first quote among the elements behind the opening quote
ends it, and it is taken in up to this quote. Its content is what the elements in front of this
quote mean where they stand. Without such a quote the literal has no end, and takes in all of the
source. -/
theorem scan_literal (collapse : Bool) (base offset : Nat) (text : List Char) :
    ((∃ body rest, Lexeme.split? ('"' :: text) = some (.literal body, rest)) ↔
      .plain '"' ∈ Element.readAll text) ∧
    (∀ body rest, Lexeme.split? ('"' :: text) = some (.literal body, rest) →
      text = Element.sourceAll body ++ '"' :: rest ∧
      Element.readAll text = body ++ .plain '"' :: Element.readAll rest ∧ .plain '"' ∉ body ∧
      (∀ span, (Lexeme.literal body).item collapse span =
        .token ⟨.str, String.ofList (Element.content collapse body), span⟩) ∧
      (base + offset + byteLength (Lexeme.literal body).source ≤ positionLimit →
        scan collapse ⟨base, offset, '"' :: text⟩ =
          (some (.token ⟨.str, String.ofList (Element.content collapse body),
              ⟨base + offset, byteLength (Lexeme.literal body).source⟩⟩),
            ⟨base, offset + byteLength (Lexeme.literal body).source, rest⟩))) ∧
    (.plain '"' ∉ Element.readAll text →
      Lexeme.split? ('"' :: text) = some (.unterminated text, []) ∧
      (base + offset + byteLength ('"' :: text) ≤ positionLimit →
        scan collapse ⟨base, offset, '"' :: text⟩ =
          (some (.error ⟨.unterminatedLiteral, ⟨base + offset, byteLength ('"' :: text)⟩⟩),
            ⟨base, offset + byteLength ('"' :: text), []⟩))) := by
  have hquote : ∀ c ∈ ('"' :: text).head?, isBlank c = false := by
    rintro _ ⟨rfl⟩
    decide
  refine ⟨Lexeme.exists_split?_eq_literal_iff, fun body rest hsplit => ?_, fun hnone => ?_⟩
  · have hbody := Lexeme.split?_eq_literal_iff.1 hsplit
    have htext := (Element.splitBody_eq_some hbody).1
    obtain ⟨hread, hfirst⟩ := Element.readAll_of_splitBody hbody
    have hitem : ∀ span, (Lexeme.literal body).item collapse span =
        .token ⟨.str, String.ofList (Element.content collapse body), span⟩ := fun span => by
      rw [← Element.decode_eq_content]
      rfl
    refine ⟨htext, hread, hfirst, hitem, fun hf => ?_⟩
    have hscan := @scan_lexeme collapse base offset [] rest (.literal body) (by simp)
      (Lexeme.stands_of_split? hsplit hquote) (by simpa using hf)
    rw [hitem, List.nil_append, ← Lexeme.split?_eq_some hsplit] at hscan
    simpa using hscan
  · have hsplit := Lexeme.split?_eq_unterminated hnone
    refine ⟨hsplit, fun hf => ?_⟩
    have hscan := @scan_lexeme collapse base offset [] [] (.unterminated text) (by simp)
      (Lexeme.stands_of_split? hsplit hquote) (by simpa [Lexeme.source] using hf)
    simpa [Lexeme.source, Lexeme.item] using hscan

/-- A literal with a tab that starts no run, blanks in a run, a CR that ends one, and an escaped
space, behind which no run goes on; and a backslash that takes the last quote away, just in front of
the limit of positions. -/
theorem scan_literal_runs :
    scan true ⟨2, 3, "\"\t a \t \r b\\ \t\\\"c\" d".toList⟩ =
        (some (.token ⟨.str, "\t a  b \t\"c", ⟨5, 17⟩⟩), ⟨2, 20, [' ', 'd']⟩) ∧
      scan true ⟨0xfffffffa, 2, "\"\\\"".toList⟩ =
        (some (.error ⟨.unterminatedLiteral, ⟨0xfffffffc, 3⟩⟩), ⟨0xfffffffa, 5, []⟩) := by
  constructor
  · obtain ⟨-, hfound, -⟩ := scan_literal true 2 3 "\t a \t \r b\\ \t\\\"c\" d".toList
    obtain ⟨-, -, -, -, hscan⟩ := hfound [.plain '\t', .plain ' ', .plain 'a', .plain ' ',
      .plain '\t', .plain ' ', .plain '\r', .plain ' ', .plain 'b', .escaped ' ', .plain '\t',
      .escaped '"', .plain 'c'] [' ', 'd'] (by decide +kernel)
    exact hscan (by decide)
  · obtain ⟨-, -, hnone⟩ := scan_literal true 0xfffffffa 2 "\\\"".toList
    exact (hnone (by decide)).2 (by decide)

end Lexer
end Scenario
