import Scenario.Proofs.Returns

/-!
# Places and their locations

A place of a source is a position between two of its characters, or at either end. Every place has a
location: its line is found by counting line feeds, and its column by counting the characters behind
the last of them. A later place is on a later line, or further to the right on the same line, and no
line or column exceeds the size of the source by more than one.
-/

namespace Scenario

/-- A position between two characters of a source whose first byte is at `base`, or at either end of
it. -/
def IsPlace (base : Nat) (source : List Char) (p : Nat) : Prop :=
  ∃ pre post, source = pre ++ post ∧ p = base + byteLength pre

/-- Behind the front of a text there are the places of its rest. -/
theorem IsPlace.append {base p : Nat} {front rest : List Char}
    (h : IsPlace (base + byteLength front) rest p) : IsPlace base (front ++ rest) p := by
  obtain ⟨pre, post, rfl, rfl⟩ := h
  exact ⟨front ++ pre, post, by simp, by simp [Nat.add_assoc]⟩

theorem IsPlace.le {base p : Nat} {source : List Char} (h : IsPlace base source p) :
    p ≤ base + byteLength source := by
  obtain ⟨pre, post, rfl, rfl⟩ := h
  simp

/-- Behind a place, a later one is reached over some text. -/
theorem IsPlace.exists_between {base p q : Nat} {source : List Char} (hp : IsPlace base source p)
    (hq : IsPlace base source q) (hle : p ≤ q) :
    ∃ pre mid post, source = pre ++ (mid ++ post) ∧ p = base + byteLength pre ∧
      q = base + byteLength (pre ++ mid) := by
  obtain ⟨pre, post, hpre, rfl⟩ := hp
  obtain ⟨pre', post', hpre', rfl⟩ := hq
  rcases List.append_eq_append_iff.1 (hpre.symm.trans hpre') with ⟨mid, rfl, -⟩ | ⟨mid, rfl, -⟩
  · exact ⟨pre, mid, post', by rw [hpre', List.append_assoc], rfl, rfl⟩
  · rw [byteLength_append] at hle
    obtain rfl : mid = [] := (byteLength_eq_zero_iff mid).1 (by omega)
    exact ⟨pre', [], post', by simpa using hpre', by simp, by simp⟩

namespace Location

theorem behind_append (l : Location) (left right : List Char) :
    l.behind (left ++ right) = (l.behind left).behind right := List.foldl_append

theorem line_behind (l : Location) (text : List Char) :
    (l.behind text).line = l.line + text.count '\n' := by
  induction text generalizing l with
  | nil => rfl
  | cons c text ih =>
    have hcons : l.behind (c :: text) = (l.next c).behind text := rfl
    rw [hcons, ih]
    by_cases h : c = '\n'
    · subst h
      simp only [next, if_true, List.count_cons_self]
      omega
    · simp only [next, if_neg h, List.count_cons_of_ne h]

theorem column_behind_le (l : Location) (text : List Char) (hl : 1 ≤ l.column) :
    1 ≤ (l.behind text).column ∧ (l.behind text).column ≤ l.column + text.length := by
  induction text generalizing l with
  | nil => exact ⟨hl, Nat.le_refl _⟩
  | cons c text ih =>
    have hcons : l.behind (c :: text) = (l.next c).behind text := rfl
    have hnext : 1 ≤ (l.next c).column ∧ (l.next c).column ≤ l.column + 1 := by
      unfold next
      split
      · exact ⟨Nat.le_refl 1, by dsimp only; omega⟩
      · exact ⟨by dsimp only; omega, Nat.le_refl _⟩
    obtain ⟨hpos, hle⟩ := ih (l.next c) hnext.1
    rw [hcons, List.length_cons]
    exact ⟨hpos, by omega⟩

/-- Within a line the column goes up. -/
theorem column_le_behind (l : Location) {text : List Char} (h : (l.behind text).line = l.line) :
    l.column ≤ (l.behind text).column := by
  rw [line_behind] at h
  have hcount : text.count '\n' = 0 := by omega
  have hmem : '\n' ∉ text := List.count_eq_zero.1 hcount
  clear h hcount
  induction text generalizing l with
  | nil => exact Nat.le_refl _
  | cons c text ih =>
    rw [List.mem_cons, not_or] at hmem
    have hnext : l.next c = ⟨l.line, l.column + 1⟩ := if_neg fun hc => hmem.1 hc.symm
    have hrest := ih (l.next c) hmem.2
    rw [hnext] at hrest
    have hcons : l.behind (c :: text) = (⟨l.line, l.column + 1⟩ : Location).behind text := by
      rw [← hnext]
      rfl
    rw [hcons]
    exact Nat.le_trans (Nat.le_succ _) hrest

end Location

section Lines

theorem length_splitLines (text : List Char) :
    (splitLines text).2.length = text.count '\n' := by
  induction text with
  | nil => rfl
  | cons c text ih =>
    by_cases h : c = '\n'
    · subst h
      simp [splitLines, ih]
    · simp [splitLines, h, ih, List.count_cons_of_ne h]

theorem length_le_of_mem_splitLines (text : List Char) :
    ∀ line ∈ (splitLines text).1 :: (splitLines text).2, line.length ≤ text.length := by
  induction text with
  | nil => simp [splitLines]
  | cons c text ih =>
    obtain ⟨hfirst, hrest⟩ := List.forall_mem_cons.1 ih
    have hrest' : ∀ line ∈ (splitLines text).2, line.length ≤ text.length + 1 :=
      fun line hl => Nat.le_succ_of_le (hrest line hl)
    by_cases h : c = '\n'
    · simpa [splitLines, h] using ⟨Nat.le_succ_of_le hfirst, hrest'⟩
    · simpa [splitLines, h] using ⟨hfirst, hrest'⟩

theorem length_trimReturns_le (text : List Char) : (trimReturns text).length ≤ text.length := by
  have hle : (text.reverse.dropWhile (· = '\r')).length ≤ text.reverse.length :=
    (List.dropWhile_sublist _).length_le
  rw [List.length_reverse] at hle
  rwa [trimReturns, List.length_reverse]

end Lines

namespace SourceMap

variable {base : Nat} {source : List Char}

/-- The lines that a map shows hold no line feed, and are not longer than the source. -/
theorem line_ofText {number : Nat} {text : List Char}
    (h : (ofText source base).line number = some text) :
    '\n' ∉ text ∧ text.length ≤ source.length := by
  cases number with
  | zero => cases h
  | succ number =>
    obtain ⟨line, hline, rfl⟩ := Option.map_eq_some_iff.1 h
    have hmem : line ∈ (splitLines source).1 :: (splitLines source).2 :=
      List.mem_of_getElem? hline
    have hfeed : '\n' ∉ line := by
      rcases List.mem_cons.1 hmem with rfl | hmem
      · exact (not_mem_splitLines source).1
      · exact (not_mem_splitLines source).2 line hmem
    refine ⟨?_, ?_⟩
    · intro htrim
      have hreverse : '\n' ∈ line.reverse.dropWhile (· = '\r') := List.mem_reverse.1 htrim
      exact hfeed (List.mem_reverse.1 ((List.dropWhile_sublist _).mem hreverse))
    · exact Nat.le_trans (length_trimReturns_le line) (length_le_of_mem_splitLines source line hmem)

/-- A place has a location, and its line can be shown. -/
theorem exists_locate {p : Nat} (h : IsPlace base source p) :
    ∃ l text, (ofText source base).locate p = some l ∧
      (ofText source base).line l.line = some text ∧ 1 ≤ l.column ∧
      l.line ≤ source.length + 1 ∧ l.column ≤ source.length + 1 := by
  obtain ⟨pre, post, rfl, rfl⟩ := h
  have hline := Location.line_behind ⟨1, 1⟩ pre
  have hcolumn := Location.column_behind_le ⟨1, 1⟩ pre (Nat.le_refl 1)
  have hcount : pre.count '\n' ≤ pre.length := List.count_le_length
  have hlines : pre.count '\n' <
      ((splitLines (pre ++ post)).1 :: (splitLines (pre ++ post)).2).length := by
    rw [List.length_cons, length_splitLines, List.count_append]
    omega
  have hshown : (ofText (pre ++ post) base).line (Location.behind ⟨1, 1⟩ pre).line =
      some (trimReturns (((splitLines (pre ++ post)).1 :: (splitLines (pre ++ post)).2)[
        pre.count '\n'])) := by
    rw [hline, Nat.add_comm]
    simp only [line, ofText, List.getElem?_eq_getElem hlines, Option.map_some]
  refine ⟨_, _, locate_append base pre post, hshown, hcolumn.1, ?_, ?_⟩
  · rw [hline, List.length_append]
    dsimp only
    omega
  · rw [List.length_append]
    have hle := hcolumn.2
    dsimp only at hle
    omega

/-- Later places have later locations. -/
theorem locate_le {p q : Nat} {l l' : Location} (hp : IsPlace base source p)
    (hq : IsPlace base source q) (hle : p ≤ q) (hl : (ofText source base).locate p = some l)
    (hl' : (ofText source base).locate q = some l') :
    l.line ≤ l'.line ∧ (l'.line = l.line → l.column ≤ l'.column) := by
  obtain ⟨pre, mid, post, hsource, rfl, rfl⟩ := hp.exists_between hq hle
  rw [hsource, locate_append] at hl
  rw [hsource, ← List.append_assoc, locate_append] at hl'
  cases hl
  cases hl'
  rw [Location.behind_append]
  refine ⟨?_, Location.column_le_behind _⟩
  rw [Location.line_behind _ mid]
  exact Nat.le_add_right _ _

end SourceMap
end Scenario
