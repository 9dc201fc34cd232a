import Scenario.Proofs.Locating.Tables

/-!
# Lines and locations are two views of a source

A line is shown by its number, and a position is located by lines and columns. Both look at the same
pieces of the source: the columns of a line are those of its piece, one more than the piece has
characters, each of them is the location of exactly one position, and where the line still shows a
character, it is the one at this position.

Main statement: `SourceMap.line_locate_inverse`.
-/

namespace Scenario
namespace SourceMap

variable {base : Nat} {source : List Char}

theorem isSome_line_iff {n : Nat} : ((ofText source base).line n).isSome = true ↔
    1 ≤ n ∧ n ≤ 1 + source.count '\n' := by
  cases n with
  | zero => exact iff_of_false Bool.false_ne_true (by omega)
  | succ n =>
    rw [line_ofText_succ, Option.isSome_map, isSome_getElem?, length_splitOn]
    omega

/-- A line and a column in it are the location of one position only. -/
theorem existsUnique_locate {n c : Nat} {piece : List Char}
    (hpiece : (source.splitOn '\n')[n - 1]? = some piece) (hn : 1 ≤ n) (hpos : 1 ≤ c)
    (hle : c ≤ 1 + piece.length) : ∃! p, (ofText source base).locate p = some ⟨n, c⟩ := by
  have hline : 1 + (n - 1) = n := by omega
  have hcolumn : 1 + (c - 1) = c := by omega
  obtain ⟨p, hp⟩ := @exists_locate_of_column base source (n - 1) (c - 1) piece hpiece (by omega)
  rw [hline, hcolumn] at hp
  exact ⟨p, hp, fun q hq => (locate_lt_iff hq hp).2.2 rfl⟩

/-- Where a line shows a character, the source has it at the position located there. -/
theorem exists_char_of_locate {p : Nat} {l : Location} {text : List Char}
    (hl : (ofText source base).locate p = some l)
    (htext : (ofText source base).line l.line = some text) (hle : l.column ≤ text.length) :
    ∃ front c rest, source = front ++ c :: rest ∧ p = base + byteLength front ∧
      text[l.column - 1]? = some c := by
  obtain ⟨pre, post, rfl, rfl, hline, hcolumn, hpiece⟩ := exists_piece_of_locate hl
  rw [hline, Nat.add_comm, line_ofText_succ, hpiece, Option.map_some, Option.some_inj] at htext
  subst htext
  rw [hcolumn, Nat.add_comm] at hle
  obtain ⟨c, rest, rfl, hchar⟩ := exists_of_lt_length_shown hle
  refine ⟨pre, c, rest, rfl, rfl, ?_⟩
  rw [hcolumn, Nat.add_sub_cancel_left]
  exact hchar

/-- The lines of a source and the locations in it are inverse to each other.

Of a source that is shorter than the limit and ends in front of it, the lines are numbered from 1 up
to one more than its line feeds. Each shows the piece of the source between two of them without the
CR characters at its end, and each column of the piece, up to the one behind it, is the location of
exactly one position. There are no other locations. As far as a line shows the characters of its
piece, they are those of the source at the positions located there. No lookup of a line or of a
position in a table fails. -/
theorem line_locate_inverse (source : String) (base : Nat) (h : source.utf8ByteSize < positionLimit)
    (hf : base + source.utf8ByteSize ≤ positionLimit) :
    (∀ n, ((ofString source base).line n).isSome = true ↔
      1 ≤ n ∧ n ≤ 1 + source.toList.count '\n') ∧
    (∀ n, 1 ≤ n → n ≤ 1 + source.toList.count '\n' →
      ∃ piece, (source.toList.splitOn '\n')[n - 1]? = some piece ∧
        (ofString source base).line n = some (piece.rdropWhile (· == '\r')) ∧
        ∀ c, 1 ≤ c → c ≤ 1 + piece.length →
          ∃! p, (ofString source base).locate p = some ⟨n, c⟩) ∧
    (∀ p l, (ofString source base).locate p = some l →
      p ≤ positionLimit ∧ 1 ≤ l.line ∧ 1 ≤ l.column ∧
        ∃ piece, (source.toList.splitOn '\n')[l.line - 1]? = some piece ∧
          l.column ≤ 1 + piece.length) ∧
    (∀ p l text, (ofString source base).locate p = some l →
      (ofString source base).line l.line = some text → l.column ≤ text.length →
        ∃ front c rest, source.toList = front ++ c :: rest ∧ p = base + byteLength front ∧
          text[l.column - 1]? = some c) ∧
    (∀ n, (LineTable.ofText source.toList base).line n = .ok ((ofString source base).line n)) ∧
    ∀ p, (LineTable.ofText source.toList base).locate p =
      .ok ((ofString source base).locate p) := by
  rw [← byteLength_toList] at h hf
  refine ⟨fun n => isSome_line_iff, fun n hn hle => ?_, fun p l hl => ?_,
    fun p l text hl htext hle => exists_char_of_locate hl htext hle,
    fun n => LineTable.line_eq _ _ n, fun p => LineTable.locate_eq h p⟩
  · have hlt : n - 1 < (source.toList.splitOn '\n').length := by
      rw [length_splitOn]
      omega
    have hpiece := List.getElem?_eq_getElem hlt
    refine ⟨_, hpiece, ?_, fun c => existsUnique_locate hpiece hn⟩
    have hshown := line_ofText_succ source.toList base (n - 1)
    rwa [Nat.sub_add_cancel hn, hpiece, Option.map_some] at hshown
  · have hplace := isPlace_of_locate hl
    obtain ⟨pre, post, -, -, hline, hcolumn, hpiece⟩ := exists_piece_of_locate hl
    have hindex : l.line - 1 = pre.count '\n' := by omega
    rw [← hindex] at hpiece
    refine ⟨Nat.le_trans hplace.le hf, by omega, by omega, _, hpiece, ?_⟩
    rw [hcolumn, List.length_append]
    omega

/-- A line with a CR character at its end, which is not shown but has columns. -/
theorem line_locate_inverse_return :
    "é\r\n".utf8ByteSize < positionLimit ∧ 5 + "é\r\n".utf8ByteSize ≤ positionLimit ∧
    (ofString "é\r\n" 5).line 1 = some ['é'] ∧
    (∃! p, (ofString "é\r\n" 5).locate p = some ⟨1, 3⟩) ∧
    ∃! p, (ofString "é\r\n" 5).locate p = some ⟨2, 1⟩ := by
  have h : "é\r\n".utf8ByteSize < positionLimit := by decide
  have hf : 5 + "é\r\n".utf8ByteSize ≤ positionLimit := by decide
  obtain ⟨-, hlines, -⟩ := line_locate_inverse "é\r\n" 5 h hf
  obtain ⟨first, hfirst, hshown, hcolumns⟩ := hlines 1 (by decide) (by decide)
  obtain ⟨second, hsecond, -, hcolumns'⟩ := hlines 2 (by decide) (by decide)
  obtain rfl : first = ['é', '\r'] := (Option.some_inj.1 hfirst).symm
  obtain rfl : second = [] := (Option.some_inj.1 hsecond).symm
  exact ⟨h, hf, hshown, hcolumns 3 (by decide) (by decide), hcolumns' 1 (by decide) (by decide)⟩

end SourceMap
end Scenario
