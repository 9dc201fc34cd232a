import Scenario.LineTable
import Scenario.Proofs.Locating.Lines

/-!
# Lookups in line tables

The entries of a line table are the ends of the fronts of the source that end with a line feed, in
front of them that of the empty one, and they go up. A search for a place comes to the last entry
that does not lie behind it, so what stands between this entry and the place is the part of its line
on the left of the place. All that a lookup asks for exists then, and its answer is that of the
source map.

Main statement: `SourceMap.locate_counts`.
-/

namespace Scenario
namespace LineTable

section Starts

theorem startsBehind_append (left right : List Char) (offset : Nat) :
    startsBehind (left ++ right) offset =
      startsBehind left offset ++ startsBehind right (offset + byteLength left) := by
  induction left generalizing offset with
  | nil => rfl
  | cons c left ih =>
    rw [List.cons_append, startsBehind, startsBehind]
    by_cases h : c = '\n'
    · have hsize : ('\n' : Char).utf8Size = 1 := rfl
      rw [if_pos h, if_pos h, ih, List.cons_append, byteLength_cons, h, hsize, Nat.add_assoc]
    · rw [if_neg h, if_neg h, ih, byteLength_cons, Nat.add_assoc]

theorem length_startsBehind (text : List Char) (offset : Nat) :
    (startsBehind text offset).length = text.count '\n' := by
  induction text generalizing offset with
  | nil => rfl
  | cons c text ih =>
    rw [startsBehind]
    by_cases h : c = '\n'
    · rw [if_pos h, List.length_cons, ih, h, List.count_cons_self]
    · rw [if_neg h, ih, List.count_cons_of_ne h]

theorem lt_of_mem_startsBehind {text : List Char} {offset start : Nat}
    (h : start ∈ startsBehind text offset) : offset < start ∧ start ≤ offset + byteLength text := by
  induction text generalizing offset with
  | nil => cases h
  | cons c text ih =>
    have hsize := c.utf8Size_pos
    rw [byteLength_cons]
    rw [startsBehind] at h
    split at h
    · rcases List.mem_cons.1 h with rfl | h
      · omega
      · have hrest := ih h
        omega
    · have hrest := ih h
      omega

theorem pairwise_startsBehind (text : List Char) (offset : Nat) :
    (startsBehind text offset).Pairwise (· < ·) := by
  induction text generalizing offset with
  | nil => exact .nil
  | cons c text ih =>
    rw [startsBehind]
    split
    · exact .cons (fun start h => (lt_of_mem_startsBehind h).1) (ih _)
    · exact ih _

/-- Right behind a line feed, and at the begin of the source, a line starts. -/
theorem getElem?_starts {front : List Char} (rest : List Char) (base : Nat)
    (h : front.rtakeWhile (· != '\n') = []) :
    (ofText (front ++ rest) base).starts[front.count '\n']? = some (byteLength front) := by
  rcases rtakeWhile_cases front with hfront | ⟨head, hfront⟩
  · rw [h] at hfront
    rw [← hfront]
    rfl
  · rw [h] at hfront
    have hsize : ('\n' : Char).utf8Size = 1 := rfl
    have hnext : startsBehind ('\n' :: rest) (byteLength head) =
        byteLength front :: startsBehind rest (byteLength front) := by
      rw [startsBehind, if_pos rfl, hfront, byteLength_append, byteLength_cons, hsize,
        byteLength_nil]
    have hstarts : (ofText (front ++ rest) base).starts =
        (0 :: startsBehind head 0) ++ byteLength front ::
          startsBehind rest (byteLength front) := by
      rw [← hnext]
      simp [ofText, hfront, startsBehind_append]
    have hcount : front.count '\n' = (0 :: startsBehind head 0).length + 0 := by
      rw [hfront, List.count_append, List.length_cons, length_startsBehind]
      rfl
    rw [hstarts, hcount, List.getElem?_append_right (Nat.le_add_right _ _),
      Nat.add_sub_cancel_left, List.getElem?_cons_zero]

end Starts

section Search

variable {early late : List Nat} {offset : Nat}

theorem getElem_le_iff (hearly : ∀ start ∈ early, start ≤ offset)
    (hlate : ∀ start ∈ late, offset < start) {i : Nat} (hi : i < (early ++ late).length) :
    (early ++ late)[i] ≤ offset ↔ i < early.length := by
  by_cases h : i < early.length
  · rw [List.getElem_append_left h]
    exact iff_of_true (hearly _ (List.getElem_mem _)) h
  · rw [List.getElem_append_right (Nat.le_of_not_lt h)]
    exact iff_of_false (Nat.not_le_of_lt (hlate _ (List.getElem_mem _))) h

/-- The search comes to the border between the entries up to the offset and those above it. An entry
that is found stands right in front of the border. -/
theorem search_cases {lo hi : Nat} (hhi : hi ≤ (early ++ late).length)
    (hsorted : (early ++ late).Pairwise (· < ·)) (hearly : ∀ start ∈ early, start ≤ offset)
    (hlate : ∀ start ∈ late, offset < start) (hlo : lo ≤ early.length) (hle : early.length ≤ hi) :
    search (early ++ late) offset lo hi hhi = .error early.length ∨
      ∃ index, search (early ++ late) offset lo hi hhi = .ok index ∧ early.length = index + 1 := by
  -- The border stays between the two ends of the part that is left to search.
  induction lo, hi, hhi using search.induct (early ++ late) offset with
  | case1 lo hi hhi h mid hcompare ih =>
    rw [search, dif_pos h]
    simp only [mid, hcompare]
    apply ih _ hle
    rw [Nat.compare_eq_lt] at hcompare
    exact (getElem_le_iff hearly hlate _).1 (Nat.le_of_lt hcompare)
  | case2 lo hi hhi h mid hcompare =>
    rw [search, dif_pos h]
    simp only [mid, hcompare]
    refine .inr ⟨_, rfl, ?_⟩
    rw [Nat.compare_eq_eq] at hcompare
    have hmid : mid < early.length := (getElem_le_iff hearly hlate _).1 (Nat.le_of_eq hcompare)
    apply Nat.le_antisymm _ hmid
    by_contra hlt
    rw [Nat.not_le] at hlt
    have hnext : mid + 1 < (early ++ late).length := by
      rw [List.length_append]
      exact Nat.lt_add_right _ hlt
    have hup := List.pairwise_iff_getElem.1 hsorted mid (mid + 1) (Nat.lt_of_succ_lt hnext) hnext
      (Nat.lt_succ_self mid)
    have hbound := (getElem_le_iff hearly hlate hnext).2 hlt
    omega
  | case3 lo hi hhi h mid hcompare ih =>
    rw [search, dif_pos h]
    simp only [mid, hcompare]
    apply ih hlo
    rw [Nat.compare_eq_gt] at hcompare
    by_contra hmid
    rw [Nat.not_le] at hmid
    exact Nat.not_le_of_lt hcompare ((getElem_le_iff hearly hlate _).2 hmid)
  | case4 lo hi hhi h =>
    rw [search, dif_neg h]
    exact .inl (congrArg _ (by omega))

end Search

section Lookups

variable {base : Nat} {source : List Char}

theorem length_starts (source : List Char) (base : Nat) :
    (ofText source base).starts.length = 1 + source.count '\n' := by
  rw [ofText, List.length_cons, length_startsBehind, Nat.add_comm]

theorem slice_append (base : Nat) (front text rest : List Char) :
    (ofText (front ++ (text ++ rest)) base).slice (byteLength front) (byteLength (front ++ text)) =
      .ok text := by
  have hlast := charsBefore_append (front ++ text) rest
  rw [List.append_assoc] at hlast
  have hle : byteLength front ≤ byteLength (front ++ text) := by
    rw [byteLength_append]
    exact Nat.le_add_right _ _
  simp only [slice, ofText, charsBefore_append, hlast, if_pos hle]
  rw [← List.append_assoc, List.take_left, List.drop_left]

/-- The search for a place comes to the line on which the place stands. -/
theorem lineIndex_append (base : Nat) (pre post : List Char) :
    (ofText (pre ++ post) base).lineIndex (byteLength pre) = .ok (pre.count '\n') := by
  have hstarts : 0 :: startsBehind (pre ++ post) 0 =
      (0 :: startsBehind pre 0) ++ startsBehind post (byteLength pre) := by
    rw [startsBehind_append, Nat.zero_add, List.cons_append]
  have hlength : (0 :: startsBehind pre 0).length = pre.count '\n' + 1 := by
    rw [List.length_cons, length_startsBehind]
  have hearly : ∀ start ∈ 0 :: startsBehind pre 0, start ≤ byteLength pre := by
    refine List.forall_mem_cons.2 ⟨Nat.zero_le _, fun start h => ?_⟩
    have hbound := (lt_of_mem_startsBehind h).2
    rwa [Nat.zero_add] at hbound
  have hlate : ∀ start ∈ startsBehind post (byteLength pre), byteLength pre < start :=
    fun start h => (lt_of_mem_startsBehind h).1
  have hsorted : (0 :: startsBehind (pre ++ post) 0).Pairwise (· < ·) :=
    .cons (fun start h => (lt_of_mem_startsBehind h).1) (pairwise_startsBehind _ 0)
  simp only [lineIndex, ofText]
  rw [hstarts] at hsorted
  simp only [hstarts]
  have hle : (0 :: startsBehind pre 0).length ≤
      ((0 :: startsBehind pre 0) ++ startsBehind post (byteLength pre)).length := by
    rw [List.length_append]
    exact Nat.le_add_right _ _
  rcases search_cases (Nat.le_refl _) hsorted hearly hlate (Nat.zero_le _) hle with
    h | ⟨index, h, hindex⟩
  · simp only [h, hlength]
    exact minus_of_le (Nat.le_add_left 1 _)
  · simp only [h]
    rw [hlength] at hindex
    rw [Nat.add_right_cancel hindex]

/-- The lookup of a place answers with the number of its line, and with that of its column. -/
theorem locate_append (base : Nat) (pre post : List Char)
    (h : byteLength (pre ++ post) < positionLimit) :
    (ofText (pre ++ post) base).locate (base + byteLength pre) =
      .ok (some ⟨1 + pre.count '\n', 1 + (pre.rtakeWhile (· != '\n')).length⟩) := by
  have hchars := charsBefore_append pre post
  have hindex := lineIndex_append base pre post
  have hcount : pre.count '\n' ≤ pre.length := List.count_le_length
  have hsize := length_le_byteLength pre
  rw [byteLength_append] at h
  obtain ⟨front, hpre, hstart, hfeeds⟩ := exists_start pre
  have hentry := getElem?_starts (pre.rtakeWhile (· != '\n') ++ post) base hstart
  have hslice := slice_append base front (pre.rtakeWhile (· != '\n')) post
  have hlength := length_le_byteLength (pre.rtakeWhile (· != '\n'))
  have hbytes : byteLength (pre.rtakeWhile (· != '\n')) ≤ byteLength pre := by
    rw [congrArg byteLength hpre, byteLength_append]
    exact Nat.le_add_left _ _
  rw [← List.append_assoc, ← hpre, hfeeds] at hentry
  rw [← List.append_assoc, ← hpre] at hslice
  have hbase : ¬ base + byteLength pre < base := by omega
  have hline : plus (pre.count '\n') 1 = .ok (1 + pre.count '\n') := by
    rw [plus_of_le (by omega), Nat.add_comm]
  have hcolumn : plus (pre.rtakeWhile (· != '\n')).length 1 =
      .ok (1 + (pre.rtakeWhile (· != '\n')).length) := by
    rw [plus_of_le (by omega), Nat.add_comm]
  simp only [locate, base_ofText, source_ofText, if_neg hbase, Nat.add_sub_cancel_left, hchars,
    hindex, entry, hentry, hslice, hline, hcolumn, bind, Except.bind]
  rfl

/-- A table answers as the map does. -/
theorem locate_eq (h : byteLength source < positionLimit) (p : Nat) :
    (ofText source base).locate p = .ok ((SourceMap.ofText source base).locate p) := by
  by_cases hplace : IsPlace base source p
  · obtain ⟨pre, post, rfl, rfl⟩ := hplace
    rw [locate_append base pre post h, SourceMap.locate_append, Location.behind_eq]
  · have hnone : (SourceMap.ofText source base).locate p = none := by
      rwa [← Option.not_isSome_iff_eq_none, SourceMap.isSome_locate_iff]
    rw [hnone]
    by_cases hlt : p < base
    · exact if_pos hlt
    · have hchars : charsBefore source (p - base) = none := by
        rw [Option.eq_none_iff_forall_ne_some]
        intro chars hchars
        have hbytes := (charsBefore_eq_some_iff.1 hchars).2
        exact hplace ⟨source.take chars, source.drop chars,
          (List.take_append_drop chars source).symm, by omega⟩
      simp only [locate, ofText, if_neg hlt, hchars]
      rfl

/-- A line ends in front of the next line feed, or with the source. -/
theorem lineEnd_append (base : Nat) (front : List Char) {piece rest : List Char}
    (hnot : '\n' ∉ piece) (hrest : rest = [] ∨ ∃ next, rest = '\n' :: next) :
    (ofText (front ++ (piece ++ rest)) base).lineEnd (front.count '\n') =
      .ok (byteLength (front ++ piece)) := by
  have hcount := List.count_eq_zero_of_not_mem hnot
  rcases hrest with rfl | ⟨next, rfl⟩
  · have hnone : (ofText (front ++ piece) base).starts[front.count '\n' + 1]? = none := by
      rw [List.getElem?_eq_none_iff, length_starts, List.count_append, hcount]
      omega
    simp only [List.append_nil, lineEnd, hnone, source_ofText]
  · have hstart : (front ++ piece ++ ['\n']).rtakeWhile (· != '\n') = [] :=
      List.rtakeWhile_concat_neg _ _ _ (by simp)
    have hentry := getElem?_starts next base hstart
    have hsource : front ++ piece ++ ['\n'] ++ next = front ++ (piece ++ '\n' :: next) := by simp
    have hfeeds : (front ++ piece ++ ['\n']).count '\n' = front.count '\n' + 1 := by
      rw [List.count_append, List.count_append, hcount]
      rfl
    have hbytes : byteLength (front ++ piece ++ ['\n']) = byteLength (front ++ piece) + 1 := by
      rw [byteLength_append]
      rfl
    rw [hsource, hfeeds, hbytes] at hentry
    simp only [lineEnd, hentry]
    exact minus_of_le (Nat.le_add_left 1 _)

/-- A table shows the lines that the map shows. -/
theorem line_eq (source : List Char) (base n : Nat) :
    (ofText source base).line n = .ok ((SourceMap.ofText source base).line n) := by
  cases n with
  | zero => rfl
  | succ n =>
    rw [SourceMap.line_ofText_succ]
    cases hpiece : (source.splitOn '\n')[n]? with
    | none =>
      have hnone : (ofText source base).starts[n]? = none := by
        rw [List.getElem?_eq_none_iff, length_splitOn] at hpiece
        rwa [List.getElem?_eq_none_iff, length_starts]
      simp only [line, hnone]
      rfl
    | some piece =>
      obtain ⟨front, rest, rfl, rfl, hstart, hrest⟩ := exists_front_of_getElem?_splitOn hpiece
      have hentry := getElem?_starts (piece ++ rest) base hstart
      have hslice := slice_append base front piece rest
      have hnot := not_mem_of_mem_splitOn (List.mem_of_getElem? hpiece)
      have hend := lineEnd_append base front hnot hrest
      simp only [line, hentry, hend, hslice, bind, Except.bind]
      rfl

end Lookups

end LineTable

namespace SourceMap

/-- Locating a position counts.

Of a source that is shorter than the limit, exactly the positions between its characters, and at its
ends, have a location. Its line is one more than the number of line feeds in front of the position,
and its column one more than the number of characters behind the last of them; neither exceeds the
limit. The lookup in a table, which searches for the line and takes the part of the source in front
of the position, never fails and gives the same answer. Positions are in the order of their
locations, which is that of lines and columns, so no two positions share one. -/
theorem locate_counts (source : String) (base : Nat) (h : source.utf8ByteSize < positionLimit) :
    (∀ p, ((ofString source base).locate p).isSome = true ↔
      base ≤ p ∧ p - base ≤ source.utf8ByteSize ∧
        (⟨p - base⟩ : String.Pos.Raw).IsValid source) ∧
    (∀ p l, (ofString source base).locate p = some l ↔
      ∃ front rest : String, source = front ++ rest ∧ p = base + front.utf8ByteSize ∧
        l = ⟨1 + front.toList.count '\n',
          1 + (front.toList.rtakeWhile (· != '\n')).length⟩) ∧
    (∀ p l, (ofString source base).locate p = some l →
      l.line ≤ positionLimit ∧ l.column ≤ positionLimit) ∧
    (∀ p, (LineTable.ofText source.toList base).locate p = .ok ((ofString source base).locate p)) ∧
    ∀ p q l l', (ofString source base).locate p = some l →
      (ofString source base).locate q = some l' → (p < q ↔ l < l') ∧ (p = q ↔ l = l') := by
  have hsize : byteLength source.toList < positionLimit := by rwa [byteLength_toList]
  have hlength := length_le_byteLength source.toList
  refine ⟨fun p => ?_, fun p l => ?_, fun p l hl => ?_, fun p => ?_, fun p q l l' hl hl' => ?_⟩
  · rw [ofString, isSome_locate_iff]
    constructor
    · intro hplace
      have hle := hplace.le
      rw [byteLength_toList] at hle
      obtain ⟨hbase, hvalid⟩ := isPlace_iff_isValid.1 hplace
      exact ⟨hbase, by omega, hvalid⟩
    · rintro ⟨hbase, -, hvalid⟩
      exact isPlace_iff_isValid.2 ⟨hbase, hvalid⟩
  · rw [ofString, locate_eq_some_iff]
    constructor
    · rintro ⟨pre, post, hsource, rfl, rfl⟩
      obtain ⟨front, rest, hsplit, rfl, rfl⟩ := exists_append_of_toList hsource
      exact ⟨front, rest, hsplit, by rw [byteLength_toList], rfl⟩
    · rintro ⟨front, rest, rfl, rfl, rfl⟩
      exact ⟨front.toList, rest.toList, String.toList_append, by rw [byteLength_toList], rfl⟩
  · obtain ⟨l', -, hl', -, -, hline, hcolumn⟩ := exists_locate (isPlace_of_locate hl)
    obtain rfl : l = l' := Option.some_inj.1 (hl.symm.trans hl')
    exact ⟨by omega, by omega⟩
  · exact LineTable.locate_eq hsize p
  · exact locate_lt_iff hl hl'

/-- A line feed and a character of three bytes, the first of them at position 7. -/
theorem locate_counts_wide :
    "\nツ".utf8ByteSize < positionLimit ∧
    (LineTable.ofText "\nツ".toList 7).locate 11 = .ok (some ⟨2, 2⟩) ∧
    (LineTable.ofText "\nツ".toList 7).locate 9 = .ok none := by
  have hsize : "\nツ".utf8ByteSize < positionLimit := by decide
  obtain ⟨-, hcounts, -, htable, -⟩ := locate_counts "\nツ" 7 hsize
  refine ⟨hsize, ?_, ?_⟩
  · rw [htable, (hcounts 11 ⟨2, 2⟩).2 ⟨"\nツ", "", rfl, rfl, by decide⟩]
  · rw [htable]
    rfl

end SourceMap
end Scenario
