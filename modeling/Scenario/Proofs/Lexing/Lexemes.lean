import Mathlib.Data.List.TakeWhile
import Scenario.Token.Lexeme
import Scenario.Token.Printer

/-!
# Where lexemes end

A lexeme takes as much of the text as it can, so whether a text is a lexeme depends on what stands
behind it. `Lexeme.Stands` says when this is so, without splitting anything: a word ends before a
blank or with the text, a comment before a line break or with the text.

Main statement: splitting finds a lexeme exactly if it stands there (`Lexeme.split?_eq_some_iff`).
What stands behind a lexeme may be cut short without any effect on it (`Lexeme.Stands.of_prefix`).
-/

namespace Scenario

section Spans

variable {p : Char → Bool} {body rest : List Char}

/-- A run of characters ends before the first one that does not belong to it. -/
theorem takeWhile_of_run (hb : ∀ c ∈ body, p c = true) (hr : ∀ c ∈ rest.head?, p c = false) :
    (body ++ rest).takeWhile p = body := by
  rw [List.takeWhile_append_of_pos hb]
  cases rest with
  | nil => simp
  | cons c rest => simp [hr c rfl]

theorem dropWhile_of_run (hb : ∀ c ∈ body, p c = true) (hr : ∀ c ∈ rest.head?, p c = false) :
    (body ++ rest).dropWhile p = rest := by
  rw [List.dropWhile_append_of_pos hb]
  cases rest with
  | nil => rfl
  | cons c rest => simp [hr c rfl]

theorem head?_dropWhile (p : Char → Bool) (text : List Char) :
    ∀ c ∈ (text.dropWhile p).head?, p c = false := by
  intro c hc
  have h := List.head?_dropWhile_not p text
  rw [Option.mem_def.1 hc] at h
  simpa using h

end Spans

namespace Lexeme

def isComment : Lexeme → Bool
  | comment _ _ => true
  | _ => false

/-- The lexeme may stand in front of `rest`: it is well-formed, and could not take more. -/
def Stands : Lexeme → List Char → Prop
  | comment margin text, rest =>
    (∀ c ∈ margin, isHorizontal c = true) ∧ IsCommentText text ∧
      ∀ c ∈ rest.head?, isBreak c = true
  | literal body, _ => ∀ e ∈ body, e.WellFormed
  | unterminated text, rest => Element.splitBody text = none ∧ rest = []
  | openBrace, _ => True
  | closeBrace, _ => True
  | word text, rest => IsWord text ∧ ∀ c ∈ rest.head?, isBlank c = true

variable {l : Lexeme} {rest rest' text : List Char}

/-- No lexeme is empty, and none starts with a blank. -/
theorem Stands.exists_source_eq_cons (h : l.Stands rest) :
    ∃ c tail, l.source = c :: tail ∧ isBlank c = false := by
  cases l with
  | word text =>
    obtain ⟨⟨hne, hblank, _⟩, _⟩ := h
    obtain ⟨c, tail, rfl⟩ := List.exists_cons_of_ne_nil hne
    exact ⟨c, tail, rfl, hblank c List.mem_cons_self⟩
  | _ => exact ⟨_, _, rfl, by decide⟩

/-- What stands behind a lexeme may be cut short. -/
theorem Stands.of_prefix (h : l.Stands rest) (hp : rest' <+: rest) : l.Stands rest' := by
  have hhead : ∀ c ∈ rest'.head?, c ∈ rest.head? := by
    obtain ⟨tail, rfl⟩ := hp
    intro c hc
    cases rest' with
    | nil => simp at hc
    | cons d rest' => simpa using hc
  cases l with
  | comment margin text => exact ⟨h.1, h.2.1, fun c hc => h.2.2 c (hhead c hc)⟩
  | literal body => exact h
  | unterminated text =>
    obtain ⟨hs, rfl⟩ := h
    exact ⟨hs, List.prefix_nil.1 hp⟩
  | openBrace => trivial
  | closeBrace => trivial
  | word text => exact ⟨h.1, fun c hc => h.2 c (hhead c hc)⟩

theorem split?_of_stands (h : l.Stands rest) : split? (l.source ++ rest) = some (l, rest) := by
  cases l with
  | comment margin text =>
    obtain ⟨hm, ⟨ht, hh⟩, hr⟩ := h
    have hstop : ∀ c ∈ (text ++ rest).head?, isHorizontal c = false := by
      cases text with
      | nil =>
        intro c hc
        have hb := hr c hc
        simp only [isBreak, Bool.or_eq_true, decide_eq_true_eq] at hb
        rcases hb with rfl | rfl <;> decide
      | cons d text => simpa using hh
    have hend : ∀ c ∈ rest.head?, (!isBreak c) = false := fun c hc => by simp [hr c hc]
    have htext : ∀ c ∈ text, (!isBreak c) = true := fun c hc => by simp [ht c hc]
    simp only [source, List.cons_append, List.append_assoc, split?, if_true,
      takeWhile_of_run hm hstop, dropWhile_of_run hm hstop, takeWhile_of_run htext hend,
      dropWhile_of_run htext hend]
  | literal body =>
    have hs := Element.splitBody_source h rest
    simp [source, split?, hs]
  | unterminated text =>
    obtain ⟨hs, rfl⟩ := h
    simp [source, split?, hs]
  | openBrace => simp [source, split?]
  | closeBrace => simp [source, split?]
  | word text =>
    obtain ⟨⟨hne, hblank, hstart⟩, hr⟩ := h
    obtain ⟨c, tail, rfl⟩ := List.exists_cons_of_ne_nil hne
    have hc : startsNoWord c = false := hstart c rfl
    simp only [startsNoWord, Bool.or_eq_false_iff, decide_eq_false_iff_not] at hc
    obtain ⟨⟨⟨hc1, hc2⟩, hc3⟩, hc4⟩ := hc
    have hend : ∀ c ∈ rest.head?, (!isBlank c) = false := fun c hc => by simp [hr c hc]
    have htail : ∀ d ∈ tail, (!isBlank d) = true := fun d hd => by
      simp [hblank d (List.mem_cons_of_mem _ hd)]
    simp only [source, List.cons_append, split?, if_neg hc1, if_neg hc2, if_neg hc3, if_neg hc4,
      takeWhile_of_run htail hend, dropWhile_of_run htail hend]

theorem stands_of_split? (h : split? text = some (l, rest))
    (hb : ∀ c ∈ text.head?, isBlank c = false) : l.Stands rest := by
  cases text with
  | nil => simp [split?] at h
  | cons c text =>
    simp only [split?] at h
    split at h
    · obtain ⟨rfl, rfl⟩ := by simpa using h
      refine ⟨fun d hd => List.mem_takeWhile_imp hd, ⟨?_, ?_⟩, ?_⟩
      · intro d hd
        simpa using List.mem_takeWhile_imp hd
      · intro d hd
        apply head?_dropWhile isHorizontal text d
        revert hd
        cases text.dropWhile isHorizontal with
        | nil => simp
        | cons e text =>
          by_cases he : isBreak e = true <;> simp [he]
      · intro d hd
        simpa using head?_dropWhile _ _ d hd
    split at h
    · split at h
      · rename_i hs
        obtain ⟨rfl, rfl⟩ := by simpa using h
        exact (Element.splitBody_eq_some hs).2
      · rename_i hs
        obtain ⟨rfl, rfl⟩ := by simpa using h
        exact ⟨hs, rfl⟩
    split at h
    · obtain ⟨rfl, rfl⟩ := by simpa using h
      trivial
    split at h
    · obtain ⟨rfl, rfl⟩ := by simpa using h
      trivial
    · rename_i h1 h2 h3 h4
      obtain ⟨rfl, rfl⟩ := by simpa using h
      refine ⟨⟨by simp, ?_, ?_⟩, ?_⟩
      · intro d hd
        rcases List.mem_cons.1 hd with rfl | hd
        · exact hb d rfl
        · simpa using List.mem_takeWhile_imp hd
      · rintro _ ⟨rfl⟩
        simp [startsNoWord, h1, h2, h3, h4]
      · intro d hd
        simpa using head?_dropWhile _ _ d hd

/-- A text that starts with no blank splits exactly into the lexeme that stands there and the text
behind it. -/
theorem split?_eq_some_iff (hb : ∀ c ∈ text.head?, isBlank c = false) :
    split? text = some (l, rest) ↔ text = l.source ++ rest ∧ l.Stands rest := by
  constructor
  · intro h
    exact ⟨split?_eq_some h, stands_of_split? h hb⟩
  · rintro ⟨rfl, h⟩
    exact split?_of_stands h

/-- The token of a lexeme has a value of its kind. -/
theorem admits_of_item {collapse : Bool} {span : Span} {t : Token} (h : l.Stands rest)
    (hi : l.item collapse span = .token t) : t.kind.Admits t.value := by
  cases l with
  | comment margin text =>
    cases hi
    simpa [Kind.Admits] using h.2.1
  | literal body =>
    cases hi
    trivial
  | unterminated text => cases hi
  | openBrace =>
    cases hi
    rfl
  | closeBrace =>
    cases hi
    rfl
  | word text =>
    cases hi
    dsimp only
    cases hk : Keyword.identify (String.ofList text) with
    | some k => exact ((Keyword.identify_eq_some_iff _ _).1 hk).symm
    | none => exact ⟨by simpa using h.1, hk⟩

theorem isWord_text (k : Keyword) : IsWord k.text.toList := by
  cases k <;> decide

/-- Apart from comments, a value of a kind is printed as a lexeme that stands before any blank and
gives the kind and the value back. -/
theorem exists_of_admits {kind : Kind} {value : String} (h : kind.Admits value)
    (hk : kind ≠ .comment) :
    ∃ l : Lexeme, l.source = kind.print value ∧
      (∀ rest : List Char, (∀ c ∈ rest.head?, isBlank c = true) → l.Stands rest) ∧
      l.isComment = false ∧ ∀ collapse span, l.item collapse span = .token ⟨kind, value, span⟩ := by
  cases kind with
  | keyword k =>
    obtain rfl : value = k.text := h
    refine ⟨word k.text.toList, rfl, fun rest hr => ⟨isWord_text k, hr⟩, rfl, ?_⟩
    intro collapse span
    simp [item, (Keyword.identify_eq_some_iff k.text k).2 rfl]
  | ident =>
    obtain ⟨hw, hn⟩ := h
    refine ⟨word value.toList, rfl, fun rest hr => ⟨hw, hr⟩, rfl, ?_⟩
    intro collapse span
    simp [item, hn]
  | str =>
    refine ⟨literal (Element.encode value.toList), rfl, ?_, rfl, ?_⟩
    · intro rest _
      exact Element.wellFormed_encodeFrom false value.toList
    · intro collapse span
      simp [item, Element.decode_encode]
  | openBrace =>
    obtain rfl : value = "\x7b" := h
    exact ⟨openBrace, rfl, fun _ _ => trivial, rfl, fun _ _ => rfl⟩
  | closeBrace =>
    obtain rfl : value = "\x7d" := h
    exact ⟨closeBrace, rfl, fun _ _ => trivial, rfl, fun _ _ => rfl⟩
  | comment => exact (hk rfl).elim
  | eof => exact h.elim

/-- Any value of a kind is printed as a lexeme, with blanks behind it, that stands before any blank
and gives the kind and the value back. The blank behind a comment is the line feed that ends it. -/
theorem exists_print_eq {kind : Kind} {value : String} (h : kind.Admits value) :
    ∃ (l : Lexeme) (tail : List Char), kind.print value = l.source ++ tail ∧
      (∀ c ∈ tail, isBlank c = true) ∧
      (∀ rest : List Char, (∀ c ∈ rest.head?, isBlank c = true) → l.Stands (tail ++ rest)) ∧
      (l.isComment = true ↔ kind = .comment) ∧
      ∀ collapse span, l.item collapse span = .token ⟨kind, value, span⟩ := by
  by_cases hk : kind = .comment
  · subst hk
    have hbreak : ∀ c ∈ ['\n'], isBlank c = true := List.forall_mem_singleton.2 rfl
    refine ⟨comment [] value.toList, ['\n'], rfl, hbreak, fun rest _ => ⟨by simp, h, ?_⟩,
      iff_of_true rfl rfl, fun collapse span => ?_⟩
    · rintro _ ⟨rfl⟩
      decide
    · simp [item]
  · obtain ⟨l, hsource, hstands, hc, hitem⟩ := exists_of_admits h hk
    exact ⟨l, [], by simp [hsource], by simp, hstands, by simp [hc, hk], hitem⟩

end Lexeme
end Scenario
