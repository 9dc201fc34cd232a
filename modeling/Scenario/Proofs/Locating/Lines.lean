import Scenario.Proofs.Locating.Positions

/-!
# Lines are pieces

The lines of a source map are the pieces into which the line feeds cut the source. A place stands in
one of these pieces: the line feeds in front of the place tell in which, and the characters between
the last of them and the place tell how far in it. So the places inside one piece are as many as the
columns of its line, and the piece is what stands around the place up to the next line feeds.
-/

namespace Scenario

section Pieces

variable {text line : List Char}

theorem not_mem_rtakeWhile (text : List Char) : '\n' ∉ text.rtakeWhile (· != '\n') := by
  intro h
  simpa using List.mem_rtakeWhile_imp h

/-- The last line goes on with characters that do not break it. -/
theorem rtakeWhile_append_of_not_mem (text : List Char) (h : '\n' ∉ line) :
    (text ++ line).rtakeWhile (· != '\n') = text.rtakeWhile (· != '\n') ++ line := by
  have hpos : ∀ c ∈ line.reverse, (c != '\n') = true := by
    intro c hc
    rw [bne_iff_ne]
    rintro rfl
    exact h (List.mem_reverse.1 hc)
  rw [List.rtakeWhile, List.reverse_append, List.takeWhile_append_of_pos hpos,
    List.reverse_append, List.reverse_reverse, List.rtakeWhile]

/-- A text is a single line, or a line behind a line feed. -/
theorem rtakeWhile_cases (text : List Char) : text.rtakeWhile (· != '\n') = text ∨
    ∃ head, text = head ++ '\n' :: text.rtakeWhile (· != '\n') := by
  have hsplit : text.rdropWhile (· != '\n') ++ text.rtakeWhile (· != '\n') = text :=
    List.rdropWhile_append_rtakeWhile
  rcases List.eq_nil_or_concat (text.rdropWhile (· != '\n')) with h | ⟨head, c, h⟩
  · rw [h, List.nil_append] at hsplit
    exact .inl hsplit
  · rw [List.concat_eq_append] at h
    have hlast := List.rdropWhile_last_not (· != '\n') text (by simp [h])
    simp only [h, List.getLast_append_singleton, bne_iff_ne, ne_eq, Decidable.not_not] at hlast
    rw [h, hlast] at hsplit
    exact .inr ⟨head, by simpa using hsplit.symm⟩

/-- A text is the front up to which its last line starts, and that line. -/
theorem exists_start (text : List Char) : ∃ front, text = front ++ text.rtakeWhile (· != '\n') ∧
    front.rtakeWhile (· != '\n') = [] ∧ front.count '\n' = text.count '\n' := by
  have hcount := List.count_eq_zero_of_not_mem (not_mem_rtakeWhile text)
  rcases rtakeWhile_cases text with h | ⟨head, h⟩
  · rw [h] at hcount
    exact ⟨[], h.symm, rfl, hcount.symm⟩
  · refine ⟨head ++ ['\n'], by simpa using h, List.rtakeWhile_concat_neg _ _ _ (by simp), ?_⟩
    generalize text.rtakeWhile (· != '\n') = line at h hcount
    subst h
    simp [hcount]

/-- The lines that a map keeps are the pieces between the line feeds. -/
theorem cons_splitLines_eq_splitOn (text : List Char) :
    (splitLines text).1 :: (splitLines text).2 = text.splitOn '\n' := by
  induction text with
  | nil => rfl
  | cons c text ih =>
    rw [List.splitOn_cons_eq_if_modifyHead, ← ih]
    by_cases h : c = '\n' <;> simp [splitLines, h]

theorem length_splitOn (text : List Char) :
    (text.splitOn '\n').length = 1 + text.count '\n' := by
  rw [← cons_splitLines_eq_splitOn, List.length_cons, length_splitLines, Nat.add_comm]

theorem not_mem_of_mem_splitOn {piece : List Char} (h : piece ∈ text.splitOn '\n') :
    '\n' ∉ piece := by
  rw [← cons_splitLines_eq_splitOn, List.mem_cons] at h
  rcases h with rfl | h
  · exact (not_mem_splitLines text).1
  · exact (not_mem_splitLines text).2 piece h

theorem splitLines_fst (text : List Char) : (splitLines text).1 = text.takeWhile (· != '\n') := by
  induction text with
  | nil => rfl
  | cons c text ih => by_cases h : c = '\n' <;> simp [splitLines, h, ih]

theorem head?_splitOn (text : List Char) :
    (text.splitOn '\n')[0]? = some (text.takeWhile (· != '\n')) := by
  rw [← cons_splitLines_eq_splitOn, splitLines_fst, List.getElem?_cons_zero]

/-- The piece in which a place stands reaches from the line feed in front of it to the one
behind. -/
theorem getElem?_splitOn (pre post : List Char) :
    ((pre ++ post).splitOn '\n')[pre.count '\n']? =
      some (pre.rtakeWhile (· != '\n') ++ post.takeWhile (· != '\n')) := by
  have hfirst : ∀ line : List Char, '\n' ∉ line →
      ((line ++ post).splitOn '\n')[0]? = some (line ++ post.takeWhile (· != '\n')) := by
    intro line hline
    rw [head?_splitOn, List.takeWhile_append_of_pos]
    intro c hc
    rw [bne_iff_ne]
    rintro rfl
    exact hline hc
  have hnot := not_mem_rtakeWhile pre
  rcases rtakeWhile_cases pre with h | ⟨head, h⟩
  · rw [h] at hnot ⊢
    rw [List.count_eq_zero_of_not_mem hnot, hfirst pre hnot]
  · generalize pre.rtakeWhile (· != '\n') = line at h hnot ⊢
    subst h
    have hcount : (head ++ '\n' :: line).count '\n' = (head.splitOn '\n').length + 0 := by
      simp [length_splitOn, List.count_eq_zero_of_not_mem hnot, Nat.add_comm]
    rw [List.append_assoc, List.cons_append, List.splitOn_append_cons_self, hcount,
      List.getElem?_append_right (Nat.le_add_right _ _), Nat.add_sub_cancel_left,
      hfirst line hnot]

/-- Every piece stands behind as many line feeds as its number says, the last of them right in front
of it, and reaches to the next one. -/
theorem exists_front_of_getElem?_splitOn {k : Nat} {piece : List Char}
    (h : (text.splitOn '\n')[k]? = some piece) :
    ∃ pre rest, text = pre ++ (piece ++ rest) ∧ pre.count '\n' = k ∧
      pre.rtakeWhile (· != '\n') = [] ∧ (rest = [] ∨ ∃ next, rest = '\n' :: next) := by
  have hfront : ∀ k, k ≤ text.count '\n' → ∃ pre post, text = pre ++ post ∧
      pre.count '\n' = k ∧ pre.rtakeWhile (· != '\n') = [] := by
    intro k
    induction k with
    | zero => exact fun _ => ⟨[], text, rfl, rfl, rfl⟩
    | succ k ih =>
      intro hk
      obtain ⟨pre, post, rfl, hcount, -⟩ := ih (Nat.le_of_succ_le hk)
      have hmem : '\n' ∈ post := by
        rw [List.count_append] at hk
        exact List.count_pos_iff.1 (by omega)
      obtain ⟨line, rest, rfl, hline⟩ := List.eq_append_cons_of_mem hmem
      refine ⟨pre ++ line ++ ['\n'], rest, by simp, ?_, ?_⟩
      · rw [List.count_append, List.count_append, hcount, List.count_eq_zero_of_not_mem hline]
        rfl
      · exact List.rtakeWhile_concat_neg _ _ _ (by simp)
  have hk : k < (text.splitOn '\n').length := (List.getElem?_eq_some_iff.1 h).1
  rw [length_splitOn] at hk
  obtain ⟨pre, post, rfl, rfl, hstart⟩ := hfront k (by omega)
  rw [getElem?_splitOn, hstart, List.nil_append, Option.some_inj] at h
  refine ⟨pre, post.dropWhile (· != '\n'), by rw [← h, List.takeWhile_append_dropWhile], rfl,
    hstart, ?_⟩
  rcases hrest : post.dropWhile (· != '\n') with _ | ⟨c, next⟩
  · exact .inl rfl
  · have hne : post.dropWhile (· != '\n') ≠ [] := by simp [hrest]
    have hfeed := List.head_dropWhile_not (· != '\n') hne
    simp only [hrest, List.head_cons, bne_eq_false_iff_eq] at hfeed
    exact .inr ⟨next, by rw [hfeed]⟩

end Pieces

namespace SourceMap

variable {base : Nat} {source : List Char}

/-- A line is shown as its piece, without the CR characters at the end. -/
theorem line_ofText_succ (source : List Char) (base n : Nat) :
    (ofText source base).line (n + 1) =
      (source.splitOn '\n')[n]?.map (List.rdropWhile (· == '\r')) := by
  rw [← cons_splitLines_eq_splitOn]
  rfl

/-- Each column of a piece, and the one behind it, is the location of a place. -/
theorem exists_locate_of_column {n c : Nat} {piece : List Char}
    (h : (source.splitOn '\n')[n]? = some piece) (hc : c ≤ piece.length) :
    ∃ p, (ofText source base).locate p = some ⟨1 + n, 1 + c⟩ := by
  have hnot := not_mem_of_mem_splitOn (List.mem_of_getElem? h)
  obtain ⟨pre, rest, rfl, rfl, hstart, -⟩ := exists_front_of_getElem?_splitOn h
  have htake : '\n' ∉ piece.take c := fun hmem => hnot (List.mem_of_mem_take hmem)
  refine ⟨base + byteLength (pre ++ piece.take c), locate_eq_some_iff.2
    ⟨pre ++ piece.take c, piece.drop c ++ rest, ?_, rfl, ?_⟩⟩
  · rw [List.append_assoc, ← List.append_assoc (piece.take c), List.take_append_drop]
  · rw [rtakeWhile_append_of_not_mem pre htake, hstart, List.nil_append, List.count_append,
      List.count_eq_zero_of_not_mem htake, List.length_take, Nat.min_eq_left hc, Nat.add_zero]

/-- A place stands in the piece of its line. -/
theorem exists_piece_of_locate {p : Nat} {l : Location}
    (h : (ofText source base).locate p = some l) :
    ∃ pre post, source = pre ++ post ∧ p = base + byteLength pre ∧
      l.line = 1 + pre.count '\n' ∧ l.column = 1 + (pre.rtakeWhile (· != '\n')).length ∧
      (source.splitOn '\n')[pre.count '\n']? =
        some (pre.rtakeWhile (· != '\n') ++ post.takeWhile (· != '\n')) := by
  obtain ⟨pre, post, rfl, rfl, rfl⟩ := locate_eq_some_iff.1 h
  exact ⟨pre, post, rfl, rfl, rfl, rfl, getElem?_splitOn pre post⟩

/-- What a line shows behind some characters of it stands behind them in the source too. -/
theorem exists_of_lt_length_shown {front post : List Char}
    (h : front.length < ((front ++ post.takeWhile (· != '\n')).rdropWhile (· == '\r')).length) :
    ∃ c rest, post = c :: rest ∧
      ((front ++ post.takeWhile (· != '\n')).rdropWhile (· == '\r'))[front.length]? = some c := by
  have hprefix := List.rdropWhile_prefix (· == '\r') (l := front ++ post.takeWhile (· != '\n'))
  cases post with
  | nil =>
    have hle := hprefix.length_le
    rw [List.takeWhile_nil, List.append_nil] at h hle
    omega
  | cons c rest =>
    refine ⟨c, rest, rfl, ?_⟩
    have hlt := Nat.lt_of_lt_of_le h hprefix.length_le
    by_cases hc : c = '\n'
    · simp [hc] at hlt
    · rw [List.getElem?_eq_getElem h, hprefix.getElem h]
      simp [hc]

end SourceMap
end Scenario
