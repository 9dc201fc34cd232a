import Scenario.Proofs.Agreement
import Scenario.Proofs.Lexing.Slices
import Scenario.Proofs.Pictures

/-!
# Line feeds with returns

A source may end its lines with line feeds alone, or with CR characters in front of them. Putting CR
characters there moves whatever stands on the later lines, but changes neither the line nor the
column of any place: the new characters stand at the end of their line, and they are left out where
the line is shown.

Main statements: the places of a source with and without the CR characters are aligned
(`aligned_samePlace`), and its source maps show the same at them (`SourceMap.similar_withReturns`).
So if the items of both stand at the same places, their parses agree, with diagnostics that look the
same (`Target.parse_agree_of_places`). With no CR characters at all this says that a source looks
the same wherever it begins.
-/

namespace Scenario

/-- The text with `n` CR characters in front of every line feed. -/
def withReturns (n : Nat) (text : List Char) : List Char :=
  text.flatMap fun c => if c = '\n' then List.replicate n '\r' ++ ['\n'] else [c]

section Text

variable {n : Nat} {text : List Char} {c : Char}

@[simp] theorem withReturns_nil (n : Nat) : withReturns n [] = [] := rfl

theorem withReturns_break (n : Nat) (text : List Char) :
    withReturns n ('\n' :: text) = List.replicate n '\r' ++ '\n' :: withReturns n text := by
  simp [withReturns]

theorem withReturns_cons (h : c ≠ '\n') (text : List Char) :
    withReturns n (c :: text) = c :: withReturns n text := by
  simp [withReturns, h]

@[simp] theorem withReturns_append (n : Nat) (left right : List Char) :
    withReturns n (left ++ right) = withReturns n left ++ withReturns n right := by
  simp [withReturns]

@[simp] theorem withReturns_zero (text : List Char) : withReturns 0 text = text := by
  induction text with
  | nil => rfl
  | cons c text ih =>
    by_cases h : c = '\n'
    · rw [h, withReturns_break, ih]
      rfl
    · rw [withReturns_cons h, ih]

theorem withReturns_of_not_mem (h : '\n' ∉ text) : withReturns n text = text := by
  induction text with
  | nil => rfl
  | cons c text ih =>
    rw [List.mem_cons, not_or] at h
    rw [withReturns_cons (fun hc => h.1 hc.symm), ih h.2]

theorem withReturns_eq_nil_iff : withReturns n text = [] ↔ text = [] := by
  cases text with
  | nil => simp
  | cons c text =>
    by_cases h : c = '\n'
    · simp [h, withReturns_break]
    · simp [withReturns_cons h]

end Text

namespace Location

/-- The location behind a character at `l`. -/
def next (l : Location) (c : Char) : Location :=
  if c = '\n' then ⟨l.line + 1, 1⟩ else ⟨l.line, l.column + 1⟩

/-- The location behind a text that begins at `l`. -/
def behind (l : Location) (text : List Char) : Location := text.foldl next l

theorem line_behind_returns (l : Location) (n : Nat) :
    (l.behind (List.replicate n '\r')).line = l.line := by
  induction n generalizing l with
  | zero => rfl
  | succ n ih => exact ih (l.next '\r')

/-- CR characters before line feeds do not change any location behind them. -/
theorem behind_withReturns (l : Location) (n : Nat) (text : List Char) :
    l.behind (withReturns n text) = l.behind text := by
  induction text generalizing l with
  | nil => rfl
  | cons c text ih =>
    by_cases h : c = '\n'
    · have hreturns := l.line_behind_returns n
      have hfold : (withReturns n ('\n' :: text)).foldl next l =
          (withReturns n text).foldl next ((l.behind (List.replicate n '\r')).next '\n') := by
        rw [withReturns_break, List.foldl_append]
        rfl
      have hnext : (l.behind (List.replicate n '\r')).next '\n' = l.next '\n' := by
        simp only [next, if_true, hreturns]
      subst h
      rw [behind, hfold, hnext]
      exact ih (l.next '\n')
    · rw [withReturns_cons h]
      exact ih (l.next c)

end Location

namespace SourceMap

/-- Some characters of the current line have been walked over already. -/
theorem locateIn_splitLines (walked pre post : List Char) (number : Nat) :
    locateIn ((walked ++ (splitLines (pre ++ post)).1) :: (splitLines (pre ++ post)).2) number
        (byteLength walked + byteLength pre) =
      some (Location.behind ⟨number, walked.length + 1⟩ pre) := by
  induction pre generalizing walked number with
  | nil =>
    simp only [List.nil_append, byteLength_nil, Nat.add_zero, locateIn, byteLength_append,
      Nat.le_add_right, if_true, charsBefore_append]
    rfl
  | cons c pre ih =>
    by_cases h : c = '\n'
    · subst h
      have hbyte : ('\n' : Char).utf8Size = 1 := rfl
      have hover : ¬ byteLength walked + (1 + byteLength pre) ≤ byteLength walked := by omega
      have hrest : byteLength walked + (1 + byteLength pre) - byteLength walked - 1 =
          byteLength pre := by omega
      have hnext := ih [] (number + 1)
      simp only [List.nil_append, byteLength_nil, Nat.zero_add] at hnext
      simp only [List.cons_append, splitLines, if_true, List.append_nil, byteLength_cons, hbyte,
        locateIn, hover, if_false, hrest]
      exact hnext
    · have hline := ih (walked ++ [c]) number
      simp only [List.append_assoc, List.cons_append, List.nil_append, byteLength_append,
        byteLength_cons, byteLength_nil, Nat.add_zero, List.length_append, List.length_cons,
        List.length_nil, Nat.zero_add] at hline
      simp only [List.cons_append, splitLines, if_neg h, byteLength_cons, ← Nat.add_assoc, hline,
        Location.behind, List.foldl_cons, Location.next]

/-- Each place of a source has the location that its text leads to. -/
theorem locate_append (base : Nat) (pre post : List Char) :
    (ofText (pre ++ post) base).locate (base + byteLength pre) =
      some (Location.behind ⟨1, 1⟩ pre) := by
  have hin := locateIn_splitLines [] pre post 1
  simp only [List.nil_append, byteLength_nil, Nat.zero_add, List.length_nil] at hin
  simp only [ofText, locate, Nat.add_sub_cancel_left, hin]
  exact if_neg (by omega)

theorem trimReturns_cons (c : Char) (text : List Char) :
    trimReturns (c :: text) =
      if c = '\r' ∧ trimReturns text = [] then [] else c :: trimReturns text := by
  unfold trimReturns
  rw [List.reverse_cons, List.dropWhile_append]
  generalize text.reverse.dropWhile (· = '\r') = trimmed
  cases trimmed with
  | nil => by_cases hc : c = '\r' <;> simp [hc]
  | cons e trimmed => simp

theorem trimReturns_replicate (n : Nat) : trimReturns (List.replicate n '\r') = [] := by
  induction n with
  | zero => rfl
  | succ n ih => rw [List.replicate_succ, trimReturns_cons, if_pos ⟨rfl, ih⟩]

/-- The lines of a text with CR characters show what those of the text do. -/
theorem trimReturns_splitLines (n : Nat) (text : List Char) :
    trimReturns (splitLines (withReturns n text)).1 = trimReturns (splitLines text).1 ∧
      (splitLines (withReturns n text)).2.map trimReturns =
        (splitLines text).2.map trimReturns := by
  have hreturns : ∀ rest : List Char, splitLines (List.replicate n '\r' ++ '\n' :: rest) =
      (List.replicate n '\r', (splitLines rest).1 :: (splitLines rest).2) := by
    intro rest
    induction n with
    | zero => rfl
    | succ n ih => simp [List.replicate_succ, splitLines, ih]
  induction text with
  | nil => simp
  | cons c text ih =>
    by_cases h : c = '\n'
    · subst h
      rw [withReturns_break, hreturns]
      simp only [splitLines, if_true, List.map_cons, ih, trimReturns_replicate]
      simp [trimReturns]
    · simp only [withReturns_cons h, splitLines, if_neg h, trimReturns_cons, ih, and_self]

theorem line_withReturns (n : Nat) (source : List Char) (base base' number : Nat) :
    (ofText (withReturns n source) base').line number = (ofText source base).line number := by
  obtain ⟨hfirst, hrest⟩ := trimReturns_splitLines n source
  cases number with
  | zero => rfl
  | succ number =>
    simp only [line, ofText, ← List.getElem?_map, List.map_cons, hfirst, hrest]

end SourceMap

/-- The positions of a place in a source at `base`, and in the source with CR characters at
`base'`. -/
def SamePlace (n : Nat) (source : List Char) (base base' p p' : Nat) : Prop :=
  ∃ pre post, source = pre ++ post ∧ p = base + byteLength pre ∧
    p' = base' + byteLength (withReturns n pre)

section Places

variable {n : Nat} {source : List Char} {base base' : Nat}

theorem aligned_samePlace (hf : base + byteLength source ≤ positionLimit)
    (hf' : base' + byteLength (withReturns n source) ≤ positionLimit) :
    Aligned (SamePlace n source base base') where
  fits := by
    rintro p p' ⟨pre, post, rfl, rfl, rfl⟩
    simp only [withReturns_append, byteLength_append] at hf hf'
    omega
  le_iff := by
    -- One of the places stands behind some text after the other.
    rintro p p' q q' ⟨pre, post, rfl, rfl, rfl⟩ ⟨pre', post', heq, rfl, rfl⟩
    have hnil : ∀ mid : List Char,
        byteLength mid = 0 ↔ byteLength (withReturns n mid) = 0 := by
      intro mid
      rw [byteLength_eq_zero_iff, byteLength_eq_zero_iff, withReturns_eq_nil_iff]
    rcases List.append_eq_append_iff.1 heq with ⟨mid, rfl, -⟩ | ⟨mid, rfl, -⟩
    · simp only [withReturns_append, byteLength_append]
      omega
    · have hmid := hnil mid
      simp only [withReturns_append, byteLength_append]
      omega

theorem SourceMap.similar_withReturns :
    (ofText source base).Similar (ofText (withReturns n source) base')
      (SamePlace n source base base') where
  line_eq number := (line_withReturns n source base base' number).symm
  locate_eq := by
    rintro p p' ⟨pre, post, rfl, rfl, rfl⟩
    have hreturns := locate_append base' (withReturns n pre) (withReturns n post)
    rw [← withReturns_append, Location.behind_withReturns] at hreturns
    exact ⟨_, locate_append base pre post, hreturns⟩

end Places

/-- If the items of a source, with and without CR characters, stand at the same places, the parses
agree. Diagnostics have the same sense, and look the same over the source that they are about. -/
theorem Target.parse_agree_of_places {n : Nat} {source source' : String} {base base' : Nat}
    {d : Dialect} (hs : source'.toList = withReturns n source.toList)
    (hf : base + byteLength source.toList ≤ positionLimit)
    (hf' : base' + byteLength source'.toList ≤ positionLimit)
    (hi : List.Forall₂ (Item.Coupled (Span.Along (SamePlace n source.toList base base')))
      (Lexer.ofString source base d).items (Lexer.ofString source' base' d).items)
    (target : Target) (extent : Extent) :
    ∃ outcome outcome' : target.Outcome, target.parse d extent source base = .ok outcome ∧
      target.parse d extent source' base' = .ok outcome' ∧
      Outcome.Agree (fun value value' => (value == value') = true)
        (fun x x' => x.sense = x'.sense ∧ ∃ text,
          x.render (SourceMap.ofString source base) = .ok text ∧
          x'.render (SourceMap.ofString source' base') = .ok text) outcome outcome' := by
  have haligned : Aligned (SamePlace n source.toList base base') :=
    aligned_samePlace hf (by rwa [← hs])
  have hstart : (⟨base, 0⟩ : Span).Along (SamePlace n source.toList base base') ⟨base', 0⟩ :=
    ⟨⟨[], _, rfl, rfl, rfl⟩, ⟨[], _, rfl, rfl, rfl⟩⟩
  have hsimilar : (SourceMap.ofString source base).Similar (SourceMap.ofString source' base')
      (SamePlace n source.toList base base') := by
    unfold SourceMap.ofString
    rw [hs]
    exact SourceMap.similar_withReturns
  obtain ⟨outcome, outcome', hp, hp', hagree⟩ :=
    parse_agree haligned.coupling hf hf' hstart hi target extent
  refine ⟨outcome, outcome', hp, hp', hagree.mono (fun _ _ hv => hv.beq) fun x x' hx => ?_⟩
  exact ⟨hx.sense_eq, hx.exists_render hsimilar haligned⟩

end Scenario
