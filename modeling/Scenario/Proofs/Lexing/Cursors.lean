import Scenario.ByteCursor
import Scenario.Proofs.Locating.Positions

/-!
# Cursors lose nothing

A byte cursor starts in front of its source. Every call moves it over the text that the call takes
away, and no further, so that the cursor stays between two parts of the source, the one consumed and
the other left. What its operations give is then a matter of the characters that are left, although
they count bytes: all of them agree with those of the cursor that keeps these characters.

Main statement: `ByteCursor.run_lossless`.
-/

namespace Scenario
namespace ByteCursor

section Texts

theorem sliceTo_append (front rest : List Char) :
    sliceTo (front ++ rest) (byteLength front) = .ok front := by
  simp only [sliceTo, charsBefore_append, List.take_left]

theorem getElem?_charIndices (index : Nat) (text : List Char) (k : Nat) :
    (charIndices index text)[k]? =
      text[k]?.map fun c => (index + byteLength (text.take k), c) := by
  induction text generalizing index k with
  | nil => rfl
  | cons head rest ih =>
    cases k with
    | zero => rfl
    | succ k =>
      rw [charIndices, List.getElem?_cons_succ, ih, List.getElem?_cons_succ, List.take_succ_cons,
        byteLength_cons, Nat.add_assoc]

end Texts

section Answers

variable (c : ByteCursor) {k : Nat}

theorem peek_of_le (h : k ≤ c.rest.length) : c.peek k = .ok (.ok (c.rest.take k)) := by
  cases k with
  | zero =>
    have hslice := sliceTo_append [] c.rest
    rw [List.nil_append, byteLength_nil] at hslice
    rw [peek, hslice]
    rfl
  | succ k =>
    have htake : c.rest.take (k + 1) = c.rest.take k ++ [c.rest[k]] :=
      List.take_succ_eq_append_getElem h
    have hsize : 0 + byteLength (c.rest.take k) + c.rest[k].utf8Size =
        byteLength (c.rest.take (k + 1)) := by
      rw [htake, byteLength_append, byteLength_cons, byteLength_nil, Nat.zero_add, Nat.add_zero]
    have hslice := sliceTo_append (c.rest.take (k + 1)) (c.rest.drop (k + 1))
    rw [List.take_append_drop] at hslice
    simp only [peek, getElem?_charIndices, List.getElem?_eq_getElem h, Option.map_some, hsize,
      hslice]
    rfl

theorem peek_of_lt (h : c.rest.length < k) :
    c.peek k = do return .error ⟨← c.position, k, c.rest.length⟩ := by
  cases k with
  | zero => cases h
  | succ k =>
    have hnone : c.rest[k]? = none := List.getElem?_eq_none (Nat.le_of_lt_succ h)
    simp only [peek, getElem?_charIndices, hnone, Option.map_none]

/-- Reading gives what peeking shows. -/
theorem fst_read (k : Nat) : (c.read k).1 = c.peek k := by
  rw [read]
  split
  · rename_i h
    exact h.symm
  · rfl

theorem read_of_le (h : k ≤ c.rest.length) :
    c.read k = (.ok (.ok (c.rest.take k)), c.moved (byteLength (c.rest.take k))) := by
  rw [read, c.peek_of_le h]

/-- A cursor that cannot read so much stays where it is. -/
theorem snd_read_of_lt (h : c.rest.length < k) : (c.read k).2 = c := by
  rw [read, c.peek_of_lt h]
  cases c.position <;> rfl

theorem bump_of_cons {head : Char} {left : List Char} (h : c.rest = head :: left) :
    c.bump = (some head, c.moved head.utf8Size) := by
  rw [bump, first, h]
  rfl

theorem bump_of_nil (h : c.rest = []) : c.bump = (none, c) := by
  rw [bump, first, h]
  rfl

end Answers

/-- The cursor stands between the two parts of its source. -/
structure Between (c : ByteCursor) (front left : List Char) : Prop where
  source_eq : c.source = front ++ left
  offset_eq : c.offset = byteLength front

namespace Between

variable {c : ByteCursor} {front text left : List Char}

theorem ofText (source : List Char) (base : Nat) :
    (ByteCursor.ofText source base).Between [] source := ⟨rfl, rfl⟩

theorem rest_eq (h : c.Between front left) : c.rest = left := by
  rw [rest, h.source_eq, h.offset_eq, charsBefore_append]
  exact List.drop_left

/-- To move on by the size of a text that is next is to move over it. -/
theorem moved (h : c.Between front (text ++ left)) :
    (c.moved (byteLength text)).Between (front ++ text) left where
  source_eq := by rw [source_moved, h.source_eq, List.append_assoc]
  offset_eq := by rw [offset_moved, h.offset_eq, byteLength_append]

/-- Going from character to character adds up to the size of all that is admitted. -/
theorem skipFrom_eq (h : c.Between front left) (p : Scrutiny) (asked : List Char) :
    skipFrom p asked c = c.moved (byteLength (p.admitted asked left)) := by
  induction left generalizing c front asked with
  | nil =>
    have hfirst : c.first = none := by
      rw [first, h.rest_eq]
      rfl
    rw [skipFrom]
    split
    · simp_all
    · rfl
  | cons head left ih =>
    have hfirst : c.first = some head := by
      rw [first, h.rest_eq]
      rfl
    have hnext : c.Between front ([head] ++ left) := h
    have hmoved := hnext.moved
    rw [skipFrom]
    split
    · rename_i other hother
      obtain rfl : other = head := Option.some_inj.1 (hother.symm.trans hfirst)
      rw [Scrutiny.admitted]
      split
      · rw [byteLength_cons, byteLength_nil, Nat.add_zero] at hmoved
        rw [ih hmoved, byteLength_cons]
        simp [ByteCursor.moved, Nat.add_assoc]
      · rfl
    · rename_i hnone
      cases hnone.symm.trans hfirst

theorem skipWhile_eq (h : c.Between front left) (p : Scrutiny) :
    c.skipWhile p = c.moved (byteLength (p.admitted [] left)) := h.skipFrom_eq p []

/-- What a call takes away is next. -/
theorem exists_taken_append (h : c.Between front left) (call : Call) :
    ∃ left', left = c.taken call ++ left' := by
  cases call with
  | peek count => exact ⟨left, rfl⟩
  | first => exact ⟨left, rfl⟩
  | countWhile p => exact ⟨left, rfl⟩
  | read count =>
    rw [taken, c.fst_read]
    rcases Nat.lt_or_ge c.rest.length count with hlt | hle
    · rw [c.peek_of_lt hlt]
      cases c.position <;> exact ⟨left, rfl⟩
    · rw [c.peek_of_le hle, h.rest_eq]
      exact ⟨left.drop count, (List.take_append_drop count left).symm⟩
  | bump =>
    cases left with
    | nil =>
      rw [taken, c.bump_of_nil h.rest_eq]
      exact ⟨[], rfl⟩
    | cons head left =>
      rw [taken, c.bump_of_cons h.rest_eq]
      exact ⟨left, rfl⟩
  | skipWhile p =>
    rw [taken, h.rest_eq]
    exact ⟨_, (p.admitted_append_drop [] left).symm⟩

/-- A call moves the cursor on by the size of the text that it takes away. -/
theorem after_eq (h : c.Between front left) (call : Call) :
    c.after call = c.moved (byteLength (c.taken call)) := by
  cases call with
  | peek count => rfl
  | first => rfl
  | countWhile p => rfl
  | read count =>
    rcases Nat.lt_or_ge c.rest.length count with hlt | hle
    · rw [ByteCursor.after, c.snd_read_of_lt hlt, taken, c.fst_read, c.peek_of_lt hlt]
      cases c.position <;> rfl
    · simp only [taken, ByteCursor.after, c.read_of_le hle]
  | bump =>
    cases left with
    | nil =>
      simp only [taken, ByteCursor.after, c.bump_of_nil h.rest_eq]
      rfl
    | cons head left =>
      simp only [taken, ByteCursor.after, c.bump_of_cons h.rest_eq]
      rfl
  | skipWhile p =>
    rw [ByteCursor.after, h.skipWhile_eq, taken, h.rest_eq]

theorem after (h : c.Between front left) (call : Call) :
    ∃ left', left = c.taken call ++ left' ∧
      (c.after call).Between (front ++ c.taken call) left' := by
  obtain ⟨left', hleft⟩ := h.exists_taken_append call
  rw [hleft] at h
  exact ⟨left', hleft, h.after_eq call ▸ h.moved⟩

/-- A sequence of calls moves the cursor over all the text that it takes away. -/
theorem run (h : c.Between front left) (calls : List Call) :
    c.run calls = c.moved (byteLength (c.consumed calls)) ∧
      ∃ left', left = c.consumed calls ++ left' ∧
        (c.run calls).Between (front ++ c.consumed calls) left' := by
  induction calls generalizing c front left with
  | nil => exact ⟨rfl, left, rfl, by rwa [consumed, List.append_nil]⟩
  | cons call calls ih =>
    obtain ⟨mid, rfl, hafter⟩ := h.after call
    obtain ⟨heq, left', rfl, hrun⟩ := ih hafter
    have hcons : c.run (call :: calls) = (c.after call).run calls := rfl
    rw [hcons, consumed]
    refine ⟨?_, left', by rw [List.append_assoc], by rwa [← List.append_assoc]⟩
    rw [heq, h.after_eq, byteLength_append]
    simp only [ByteCursor.moved, Nat.add_assoc]

end Between

/-- What the operations give, and where they lead. -/
structure Answers (c : ByteCursor) : Prop where
  /-- The first characters that are left are shown if there are so many. -/
  peek_eq_ok_iff : ∀ k text, c.peek k = .ok (.ok text) ↔ k ≤ c.rest.length ∧ text = c.rest.take k
  /-- Otherwise the refusal names the position, and how many were asked for and are left. -/
  peek_of_lt : ∀ k, c.rest.length < k →
    c.peek k = .ok (.error ⟨c.base + c.offset, k, c.rest.length⟩)
  position_eq : c.position = .ok (c.base + c.offset)
  fst_read : ∀ k, (c.read k).1 = c.peek k
  /-- Reading moves just over the text that it gives. -/
  snd_read_of_ok : ∀ k text, c.peek k = .ok (.ok text) →
    (c.read k).2 = c.moved (byteLength text) ∧ text ++ (c.read k).2.rest = c.rest
  snd_read_of_refused : ∀ k e, c.peek k = .ok (.error e) → (c.read k).2 = c
  after_peek : ∀ k, c.after (.peek k) = c
  after_first : c.after .first = c
  after_countWhile : ∀ p, c.after (.countWhile p) = c
  /-- If a character is left, to bump is to read one character. -/
  bump_eq : ∀ head left, c.rest = head :: left →
    c.bump = (some head, (c.read 1).2) ∧ (c.read 1).1 = .ok (.ok [head])
  /-- What is counted can be read, and to read it is to skip it. -/
  read_countWhile : ∀ p, c.read (c.countWhile p) = (.ok (.ok (p.admitted [] c.rest)), c.skipWhile p)

/-- The cursor that keeps what is left answers in the same way, and a call leads it to the same
place. -/
structure Agrees (c : ByteCursor) : Prop where
  position : c.position = c.toCursor.position.mapError .fault
  atEnd : c.atEnd = c.toCursor.atEnd
  peek : ∀ k, c.peek k = (c.toCursor.peek k).mapError .fault
  read : ∀ k, (c.read k).1 = (c.toCursor.read k).1.mapError .fault ∧
    (c.read k).2.toCursor = (c.toCursor.read k).2
  first : c.first = c.toCursor.first
  bump : c.bump.1 = c.toCursor.bump.1 ∧ c.bump.2.toCursor = c.toCursor.bump.2
  countWhile : ∀ p : Char → Bool, c.countWhile (fun _ => p) = c.toCursor.countWhile p
  skipWhile : ∀ p : Char → Bool, (c.skipWhile fun _ => p).toCursor = c.toCursor.skipWhile p

namespace Between

variable {c : ByteCursor} {front left : List Char}

/-- What is left behind a text that is moved over. -/
theorem rest_moved {text : List Char} (h : c.Between front (text ++ left)) :
    (c.moved (byteLength text)).rest = left := h.moved.rest_eq

theorem read_rest (h : c.Between front left) {k : Nat} (hk : k ≤ c.rest.length) :
    (c.read k).2.rest = left.drop k := by
  rw [h.rest_eq] at hk
  have hsplit : c.Between front (left.take k ++ left.drop k) := by
    rwa [List.take_append_drop]
  rw [c.read_of_le (h.rest_eq ▸ hk), h.rest_eq]
  exact hsplit.rest_moved

theorem read_countWhile (h : c.Between front left) (p : Scrutiny) :
    c.read (c.countWhile p) = (.ok (.ok (p.admitted [] c.rest)), c.skipWhile p) := by
  have hsplit := p.admitted_append_drop [] c.rest
  have hle : c.countWhile p ≤ c.rest.length := by
    have hlength := congrArg List.length hsplit
    rw [List.length_append] at hlength
    exact Nat.le.intro hlength
  have htake : c.rest.take (c.countWhile p) = p.admitted [] c.rest := by
    rw [countWhile]
    nth_rewrite 2 [← hsplit]
    exact List.take_left
  rw [c.read_of_le hle, htake, h.skipWhile_eq, h.rest_eq]

theorem answers (h : c.Between front left)
    (hf : c.base + byteLength c.source ≤ positionLimit) : c.Answers := by
  have hoffset : c.offset ≤ byteLength c.source := by
    rw [h.source_eq, h.offset_eq, byteLength_append]
    exact Nat.le_add_right _ _
  have hposition : c.position = .ok (c.base + c.offset) := by
    rw [position, if_pos (by omega), if_pos (by omega)]
  have hrefused : ∀ k, c.rest.length < k →
      c.peek k = .ok (.error ⟨c.base + c.offset, k, c.rest.length⟩) := by
    intro k hk
    rw [c.peek_of_lt hk, hposition]
    rfl
  have hpeek : ∀ k text, c.peek k = .ok (.ok text) ↔
      k ≤ c.rest.length ∧ text = c.rest.take k := by
    intro k text
    rcases Nat.lt_or_ge c.rest.length k with hlt | hle
    · rw [hrefused k hlt]
      simp [Nat.not_le_of_lt hlt]
    · rw [c.peek_of_le hle]
      simp [hle, eq_comm]
  constructor
  case peek_eq_ok_iff => exact hpeek
  case peek_of_lt => exact hrefused
  case position_eq => exact hposition
  case fst_read => exact c.fst_read
  case snd_read_of_ok =>
    intro k text htext
    obtain ⟨hle, rfl⟩ := (hpeek k text).1 htext
    refine ⟨by rw [c.read_of_le hle], ?_⟩
    rw [h.read_rest hle, ← h.rest_eq, List.take_append_drop]
  case snd_read_of_refused =>
    intro k e he
    apply c.snd_read_of_lt
    by_contra hle
    rw [c.peek_of_le (Nat.le_of_not_lt hle)] at he
    cases he
  case after_peek => exact fun _ => rfl
  case after_first => rfl
  case after_countWhile => exact fun _ => rfl
  case bump_eq =>
    intro head left' hrest
    have hle : 1 ≤ c.rest.length := by
      rw [hrest]
      exact Nat.succ_le_succ (Nat.zero_le _)
    have htake : c.rest.take 1 = [head] := by rw [hrest]; rfl
    rw [c.read_of_le hle, c.bump_of_cons hrest, htake]
    exact ⟨rfl, rfl⟩
  case read_countWhile => exact h.read_countWhile

end Between

section Agreement

variable (c : ByteCursor) {front left : List Char} (k : Nat)

theorem position_eq_mapError : c.position = c.toCursor.position.mapError .fault := by
  rw [position, Cursor.position, base_toCursor, offset_toCursor]
  split <;> split
  · rfl
  · rfl
  · omega
  · rfl

theorem peek_eq_mapError : c.peek k = (c.toCursor.peek k).mapError .fault := by
  rw [Cursor.peek, rest_toCursor]
  split
  · rename_i hle
    rw [c.peek_of_le hle]
    rfl
  · rename_i hlt
    rw [c.peek_of_lt (Nat.lt_of_not_le hlt), c.position_eq_mapError]
    cases c.toCursor.position <;> rfl

theorem atEnd_toCursor (h : c.Between front left) : c.atEnd = c.toCursor.atEnd := by
  rw [atEnd, Cursor.atEnd, rest_toCursor, h.rest_eq, h.source_eq, h.offset_eq, byteLength_append,
    Bool.eq_iff_iff, decide_eq_true_iff, List.isEmpty_iff, ← byteLength_eq_zero_iff]
  omega

/-- To move over a text is to advance by its characters. -/
theorem toCursor_moved {text : List Char} (h : c.Between front (text ++ left)) :
    (c.moved (byteLength text)).toCursor = c.toCursor.advance text.length := by
  simp only [toCursor, Cursor.advance, h.rest_moved, h.rest_eq, base_moved, offset_moved,
    List.take_left, List.drop_left]

theorem toCursor_read (h : c.Between front left) :
    (c.read k).1 = (c.toCursor.read k).1.mapError .fault ∧
      (c.read k).2.toCursor = (c.toCursor.read k).2 := by
  rw [c.fst_read, c.peek_eq_mapError, Cursor.read, Cursor.peek, rest_toCursor]
  split
  · rename_i hle
    have hsplit : c.Between front (left.take k ++ left.drop k) := by
      rwa [List.take_append_drop]
    have hlength : (left.take k).length = k := by
      rw [List.length_take, Nat.min_eq_left (h.rest_eq ▸ hle)]
    rw [c.read_of_le hle, h.rest_eq, c.toCursor_moved hsplit, hlength]
    exact ⟨rfl, rfl⟩
  · rename_i hlt
    rw [c.snd_read_of_lt (Nat.lt_of_not_le hlt)]
    cases c.toCursor.position <;> exact ⟨rfl, rfl⟩

theorem toCursor_bump (h : c.Between front left) :
    c.bump.1 = c.toCursor.bump.1 ∧ c.bump.2.toCursor = c.toCursor.bump.2 := by
  rw [Cursor.bump_snd]
  cases left with
  | nil =>
    rw [c.bump_of_nil h.rest_eq, Cursor.bump, rest_toCursor, h.rest_eq]
    refine ⟨rfl, ?_⟩
    simp only [Cursor.advance, rest_toCursor, h.rest_eq, List.take_nil, List.drop_nil]
    rw [toCursor, h.rest_eq]
    rfl
  | cons head left =>
    have hnext : c.Between front ([head] ++ left) := h
    have hmoved := c.toCursor_moved hnext
    rw [c.bump_of_cons h.rest_eq, Cursor.bump, rest_toCursor, h.rest_eq]
    exact ⟨rfl, hmoved⟩

theorem toCursor_skipWhile (h : c.Between front left) (p : Char → Bool) :
    (c.skipWhile fun _ => p).toCursor = c.toCursor.skipWhile p := by
  have hsplit : c.Between front (left.takeWhile p ++ left.dropWhile p) := by
    rwa [List.takeWhile_append_dropWhile]
  rw [h.skipWhile_eq, Scrutiny.admitted_const, c.toCursor_moved hsplit,
    Cursor.skipWhile_eq_advance, Cursor.countWhile, rest_toCursor, h.rest_eq]

variable {c} in
theorem Between.agrees (h : c.Between front left) : c.Agrees where
  position := c.position_eq_mapError
  atEnd := c.atEnd_toCursor h
  peek k := c.peek_eq_mapError k
  read k := c.toCursor_read k h
  first := rfl
  bump := c.toCursor_bump h
  countWhile p := by
    rw [countWhile, Scrutiny.admitted_const]
    rfl
  skipWhile p := c.toCursor_skipWhile h p

end Agreement

/-- A cursor loses nothing and is always in step with its source.

Behind any sequence of calls on a source whose positions fit, the offset lies between two characters,
and no further call takes it back. What has been taken away and what is left are the source. Peeking,
reading, bumping, counting and skipping go by the characters that are left, whatever predicates they
are given, and are those of the cursor that keeps just these characters. -/
theorem run_lossless (source : String) (base : Nat) (calls : List Call)
    (h : base + source.utf8ByteSize ≤ positionLimit) :
    let start := ofString source base
    let c := start.run calls
    ((⟨c.offset⟩ : String.Pos.Raw).IsValid source ∧ c.offset ≤ source.utf8ByteSize ∧
      (∀ more, c.offset ≤ (c.run more).offset) ∧ c.source = source.toList ∧ c.base = base ∧
      start.consumed calls ++ c.rest = source.toList ∧
      c.offset = byteLength (start.consumed calls)) ∧
    c.Answers ∧ c.Agrees := by
  intro start c
  obtain ⟨heq, left, hleft, hc⟩ := (Between.ofText source.toList base).run calls
  have hsource : c.source = source.toList := congrArg ByteCursor.source heq
  have hbase : c.base = base := congrArg ByteCursor.base heq
  have hoffset : c.offset = byteLength (start.consumed calls) := hc.offset_eq
  have hrest : c.rest = left := hc.rest_eq
  have hsize := byteLength_toList source
  have hplace : IsPlace 0 source.toList c.offset :=
    ⟨start.consumed calls, left, hleft, by rw [hoffset, Nat.zero_add]⟩
  have hle := hplace.le
  refine ⟨⟨(isPlace_iff_isValid.1 hplace).2, by omega, ?_, hsource, hbase, ?_, hoffset⟩, ?_, ?_⟩
  · intro more
    have hmore : (c.run more).offset = c.offset + byteLength (c.consumed more) :=
      congrArg ByteCursor.offset (hc.run more).1
    rw [hmore]
    exact Nat.le_add_right _ _
  · rw [hrest]
    exact hleft.symm
  · apply hc.answers
    change c.base + byteLength c.source ≤ positionLimit
    rw [hbase, hsource, hsize]
    exact h
  · exact hc.agrees

/-- Over two characters of three bytes each, and a blank, of a source at position 5. Two are too many
to read then. -/
theorem run_lossless_wide :
    let c := (ofString "すま x" 5).run [.peek 3, .read 2, .bump]
    5 + "すま x".utf8ByteSize ≤ positionLimit ∧ c.rest = ['x'] ∧
      c.peek 2 = .ok (.error ⟨12, 2, 1⟩) ∧ (c.read 2).2 = c := by
  intro c
  have hsize : 5 + "すま x".utf8ByteSize ≤ positionLimit := by decide
  obtain ⟨-, hanswers, -⟩ := run_lossless "すま x" 5 [.peek 3, .read 2, .bump] hsize
  have hrest : c.rest = ['x'] := by decide
  have hpeek := hanswers.peek_of_lt 2 (by decide)
  exact ⟨hsize, hrest, hpeek, hanswers.snd_read_of_refused 2 _ hpeek⟩

end ByteCursor
end Scenario
