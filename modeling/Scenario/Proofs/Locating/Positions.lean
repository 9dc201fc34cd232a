import Mathlib.Data.List.DropRight
import Scenario.Proofs.Locations

/-!
# Locations count

The location of a place counts: its line the line feeds in front of it, its column the characters
behind the last of them. Only places have locations, and they are the positions at which the UTF-8
bytes of the source fall into two texts. Since a character in between adds to the line or to the
column, later places have later locations, in the lexicographic order of lines and columns.
-/

namespace Scenario

/-- Bytes are counted as they are in strings. -/
theorem byteLength_toList (text : String) : byteLength text.toList = text.utf8ByteSize := by
  obtain ⟨chars, rfl⟩ := text.exists_eq_ofList
  rw [String.toList_ofList]
  induction chars with
  | nil => rfl
  | cons c chars ih =>
    have hcons : String.ofList (c :: chars) = String.singleton c ++ String.ofList chars := by
      rw [String.singleton_eq_ofList, ← String.ofList_append]
      rfl
    rw [hcons, String.utf8ByteSize_append, String.utf8ByteSize_singleton, byteLength_cons, ih]

/-- What the characters of a text are cut into are those of two texts. -/
theorem exists_append_of_toList {source : String} {pre post : List Char}
    (h : source.toList = pre ++ post) :
    ∃ front rest : String, source = front ++ rest ∧ front.toList = pre ∧ rest.toList = post := by
  refine ⟨String.ofList pre, String.ofList post, ?_, String.toList_ofList, String.toList_ofList⟩
  rw [← String.ofList_append, ← h, String.ofList_toList]

/-- A place cuts its source into two texts. -/
theorem isPlace_toList_iff {source : String} {base p : Nat} :
    IsPlace base source.toList p ↔
      ∃ front rest : String, source = front ++ rest ∧ p = base + front.utf8ByteSize := by
  constructor
  · rintro ⟨pre, post, hsource, rfl⟩
    obtain ⟨front, rest, hsplit, rfl, rfl⟩ := exists_append_of_toList hsource
    exact ⟨front, rest, hsplit, by rw [byteLength_toList]⟩
  · rintro ⟨front, rest, rfl, rfl⟩
    exact ⟨front.toList, rest.toList, String.toList_append, by rw [byteLength_toList]⟩

/-- The places of a source are the positions between its characters, and at its ends. -/
theorem isPlace_iff_isValid {source : String} {base p : Nat} :
    IsPlace base source.toList p ↔ base ≤ p ∧ (⟨p - base⟩ : String.Pos.Raw).IsValid source := by
  rw [isPlace_toList_iff, String.Pos.Raw.isValid_iff_exists_append]
  constructor
  · rintro ⟨front, rest, rfl, rfl⟩
    exact ⟨Nat.le_add_right _ _, front, rest, rfl, by simp [String.Pos.Raw.ext_iff]⟩
  · rintro ⟨hle, front, rest, rfl, hp⟩
    have hsize : p - base = front.utf8ByteSize := congrArg String.Pos.Raw.byteIdx hp
    exact ⟨front, rest, rfl, by omega⟩

namespace Location

/-- Locations are in the order of their lines, and on one line in that of their columns. -/
instance : LT Location := ⟨fun l l' => l.line < l'.line ∨ l.line = l'.line ∧ l.column < l'.column⟩

theorem lt_iff {l l' : Location} :
    l < l' ↔ l.line < l'.line ∨ l.line = l'.line ∧ l.column < l'.column := Iff.rfl

instance (l l' : Location) : Decidable (l < l') := inferInstanceAs (Decidable (_ ∨ _))

/-- Within a line every character counts. -/
theorem behind_of_not_mem (l : Location) {text : List Char} (h : '\n' ∉ text) :
    l.behind text = ⟨l.line, l.column + text.length⟩ := by
  induction text generalizing l with
  | nil => rfl
  | cons c text ih =>
    rw [List.mem_cons, not_or] at h
    have hnext : l.next c = ⟨l.line, l.column + 1⟩ := if_neg fun hc => h.1 hc.symm
    have hcons : l.behind (c :: text) = (l.next c).behind text := rfl
    rw [hcons, ih _ h.2, hnext, List.length_cons, Nat.add_assoc, Nat.add_comm 1]

/-- The location behind a text counts its line feeds, and the characters behind the last of them. -/
theorem behind_eq (text : List Char) :
    behind ⟨1, 1⟩ text = ⟨1 + text.count '\n', 1 + (text.rtakeWhile (· != '\n')).length⟩ := by
  induction text using List.reverseRecOn with
  | nil => rfl
  | append_singleton text c ih =>
    have hlast : behind ⟨1, 1⟩ (text ++ [c]) = (behind ⟨1, 1⟩ text).next c := by
      rw [behind_append]
      rfl
    rw [hlast, ih, List.count_append]
    by_cases h : c = '\n'
    · subst h
      rw [List.rtakeWhile_concat_neg _ _ _ (by simp)]
      simp [next, Nat.add_assoc]
    · rw [List.rtakeWhile_concat_pos _ _ _ (by simpa using h)]
      simp [next, h, Nat.add_assoc]

/-- A text that is not empty leads to a later location. -/
theorem lt_behind (l : Location) {text : List Char} (h : text ≠ []) : l < l.behind text := by
  by_cases hfeed : '\n' ∈ text
  · have hcount := List.count_pos_iff.2 hfeed
    have hline := l.line_behind text
    exact .inl (by omega)
  · have hlength := List.length_pos_of_ne_nil h
    rw [l.behind_of_not_mem hfeed]
    exact .inr ⟨rfl, by dsimp only; omega⟩

end Location

namespace SourceMap

variable {base p q : Nat} {source : List Char} {l l' : Location}

/-- Only the ends of fronts of the text have a location. -/
theorem exists_front_of_locateIn {line : List Char} {rest : List (List Char)} {number offset : Nat}
    (h : locateIn (line :: rest) number offset = some l) :
    ∃ pre post, line ++ rest.flatMap ('\n' :: ·) = pre ++ post ∧ offset = byteLength pre := by
  induction rest generalizing line number offset with
  | nil =>
    simp only [locateIn] at h
    split at h
    case isFalse => cases h
    case isTrue =>
      obtain ⟨chars, hchars, -⟩ := Option.map_eq_some_iff.1 h
      obtain ⟨-, hbytes⟩ := charsBefore_eq_some_iff.1 hchars
      exact ⟨line.take chars, line.drop chars, by simp, hbytes.symm⟩
  | cons next rest ih =>
    rw [locateIn] at h
    split at h
    case isTrue =>
      obtain ⟨chars, hchars, -⟩ := Option.map_eq_some_iff.1 h
      obtain ⟨-, hbytes⟩ := charsBefore_eq_some_iff.1 hchars
      refine ⟨line.take chars, line.drop chars ++ (next :: rest).flatMap ('\n' :: ·), ?_,
        hbytes.symm⟩
      rw [← List.append_assoc, List.take_append_drop]
    case isFalse hlt =>
      obtain ⟨pre, post, htext, hoffset⟩ := ih h
      have hfeed : ('\n' : Char).utf8Size = 1 := rfl
      refine ⟨line ++ '\n' :: pre, post, ?_, ?_⟩
      · rw [List.flatMap_cons, List.cons_append, htext, List.append_assoc, List.cons_append]
      · rw [byteLength_append, byteLength_cons, hfeed]
        omega

theorem isPlace_of_locate (h : (ofText source base).locate p = some l) :
    IsPlace base source p := by
  have hbase : (ofText source base).base = base := rfl
  rw [locate] at h
  by_cases hlt : p < (ofText source base).base
  · rw [if_pos hlt] at h
    cases h
  · rw [if_neg hlt] at h
    obtain ⟨pre, post, htext, hoffset⟩ := exists_front_of_locateIn h
    rw [splitLines_join] at htext
    exact ⟨pre, post, htext, by omega⟩

/-- Locations count the line feeds in front of a place, and the characters behind the last one. -/
theorem locate_eq_some_iff : (ofText source base).locate p = some l ↔
    ∃ pre post, source = pre ++ post ∧ p = base + byteLength pre ∧
      l = ⟨1 + pre.count '\n', 1 + (pre.rtakeWhile (· != '\n')).length⟩ := by
  constructor
  · intro h
    obtain ⟨pre, post, rfl, rfl⟩ := isPlace_of_locate h
    rw [locate_append, Location.behind_eq, Option.some_inj] at h
    exact ⟨pre, post, rfl, rfl, h.symm⟩
  · rintro ⟨pre, post, rfl, rfl, rfl⟩
    rw [locate_append, Location.behind_eq]

theorem isSome_locate_iff : ((ofText source base).locate p).isSome = true ↔
    IsPlace base source p := by
  rw [Option.isSome_iff_exists]
  constructor
  · rintro ⟨l, h⟩
    exact isPlace_of_locate h
  · intro h
    obtain ⟨l, -, hl, -⟩ := exists_locate h
    exact ⟨l, hl⟩

/-- A later place has a later location. -/
theorem locate_lt (hl : (ofText source base).locate p = some l)
    (hl' : (ofText source base).locate q = some l') (hlt : p < q) : l < l' := by
  obtain ⟨pre, mid, post, hsource, rfl, rfl⟩ :=
    (isPlace_of_locate hl).exists_between (isPlace_of_locate hl') (Nat.le_of_lt hlt)
  have hmid : mid ≠ [] := by
    rintro rfl
    simp at hlt
  rw [hsource, locate_append] at hl
  rw [hsource, ← List.append_assoc, locate_append, Location.behind_append] at hl'
  cases hl
  cases hl'
  exact Location.lt_behind _ hmid

/-- Locations are in the order of the places, and no two places have the same. -/
theorem locate_lt_iff (hl : (ofText source base).locate p = some l)
    (hl' : (ofText source base).locate q = some l') : (p < q ↔ l < l') ∧ (p = q ↔ l = l') := by
  rcases Nat.lt_trichotomy p q with hlt | rfl | hlt
  · have h := locate_lt hl hl' hlt
    refine ⟨iff_of_true hlt h, iff_of_false (Nat.ne_of_lt hlt) ?_⟩
    rintro rfl
    exact absurd h (by rw [Location.lt_iff]; omega)
  · obtain rfl : l = l' := Option.some_inj.1 (hl.symm.trans hl')
    exact ⟨iff_of_false (Nat.lt_irrefl p) (by rw [Location.lt_iff]; omega), iff_of_true rfl rfl⟩
  · have h := locate_lt hl' hl hlt
    refine ⟨iff_of_false (Nat.lt_asymm hlt) ?_, iff_of_false (Nat.ne_of_gt hlt) ?_⟩
    · rw [Location.lt_iff] at h ⊢
      omega
    · rintro rfl
      exact absurd h (by rw [Location.lt_iff]; omega)

end SourceMap
end Scenario
