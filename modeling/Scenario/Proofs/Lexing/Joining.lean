import Scenario.Proofs.Lexing.Tiling

/-!
# Sources that are joined

A line feed keeps the two sources on its sides apart: whatever the left one ends with, a word, a
comment or a literal, goes no further. Only a literal without an end would, so there must be none.

Main statement: a lexer on the joined source yields the tokens of the left source and then the items
of the right one, which begins behind the line feed (`Lexer.items_join_keeping`).
-/

namespace Scenario

/-- A lexeme that stands in front of a text also does if a line feed and more text come behind. -/
theorem Lexeme.Stands.append_break {l : Lexeme} {rest : List Char} (h : l.Stands rest)
    (hend : ∀ text, l ≠ unterminated text) (more : List Char) :
    l.Stands (rest ++ '\n' :: more) := by
  have hhead : ∀ p : Char → Bool, p '\n' = true → (∀ c ∈ rest.head?, p c = true) →
      ∀ c ∈ (rest ++ '\n' :: more).head?, p c = true := by
    intro p hp hrest c hc
    cases rest with
    | nil =>
      obtain rfl : '\n' = c := by simpa using hc
      exact hp
    | cons d rest => exact hrest c (by simpa using hc)
  cases l with
  | comment margin text => exact ⟨h.1, h.2.1, hhead isBreak (by decide) h.2.2⟩
  | literal body => exact h
  | unterminated text => exact (hend text rfl).elim
  | openBrace => trivial
  | closeBrace => trivial
  | word text => exact ⟨h.1, hhead isBlank (by decide) h.2⟩

/-- Where every item is a token, each literal has an end. -/
theorem Tile.ne_unterminated_of_items {collapse keep : Bool} {tiles : List Tile}
    {tokens : List Token} (hi : Tile.items collapse keep tiles = tokens.map .token) :
    ∀ tile ∈ tiles, ∀ text, tile.lexeme ≠ .unterminated text := by
  intro tile htile text hl
  have hitem : tile.lexeme.item collapse tile.span ∈ Tile.items collapse keep tiles := by
    refine List.mem_map_of_mem (List.mem_filter.2 ⟨htile, ?_⟩)
    simp [hl, Lexeme.isComment]
  rw [hi, hl] at hitem
  obtain ⟨t, -, ht⟩ := List.mem_map.1 hitem
  cases ht

namespace Tiling

variable {base : Nat} {left right : List Char} {tiles more : List Tile}

theorem join (h : Tiling base left tiles)
    (hend : ∀ tile ∈ tiles, ∀ text, tile.lexeme ≠ .unterminated text)
    (hr : Tiling (base + byteLength left + 1) right more) :
    Tiling base (left ++ '\n' :: right) (tiles ++ more) := by
  induction h with
  | @nil base gap hgap =>
    have hbreak : ∀ c ∈ gap ++ ['\n'], isBlank c = true :=
      List.forall_mem_append.2 ⟨hgap, List.forall_mem_singleton.2 rfl⟩
    have hbytes : base + byteLength gap + 1 = base + byteLength (gap ++ ['\n']) := by
      simp only [byteLength_append, byteLength_cons, byteLength_nil]
      rfl
    rw [hbytes] at hr
    simpa using hr.append_gap hbreak
  | @cons base gap rest l tiles hgap hl _ ih =>
    have hbytes : base + byteLength (gap ++ (l.source ++ rest)) + 1 =
        base + byteLength gap + byteLength l.source + byteLength rest + 1 := by
      simp only [byteLength_append]
      omega
    rw [hbytes] at hr
    have hrest := ih (fun tile htile => hend tile (List.mem_cons_of_mem _ htile)) hr
    have hstands := hl.append_break (hend _ List.mem_cons_self) right
    simpa using cons hgap hstands hrest

end Tiling

namespace Lexer

variable {a b : String} {base : Nat} {d : Dialect} {tokens : List Token}

/-- A lexer on a joined source yields the tokens of the left source, and then what a lexer yields
that starts behind the line feed. It may keep comments or leave them out. -/
theorem items_join_keeping {keep : Bool}
    (hf : base + (byteLength a.toList + 1) + byteLength b.toList ≤ positionLimit)
    (hi : ({ ofString a base d with keepComments := keep } : Lexer).items = tokens.map .token) :
    ({ ofString (a ++ "\n" ++ b) base d with keepComments := keep } : Lexer).items =
      tokens.map .token ++
        ({ ofString b (base + (byteLength a.toList + 1)) d with
          keepComments := keep } : Lexer).items := by
  obtain ⟨tiles, ht⟩ := exists_tiling base a.toList
  obtain ⟨more, hm⟩ := exists_tiling (base + byteLength a.toList + 1) b.toList
  have hleft : Tile.items d.collapseStringWhitespace keep tiles = tokens.map .token :=
    (@Tiling.items_eq base 0 _ _ _ keep ht (by omega)).symm.trans hi
  have hright := @Tiling.items_eq (base + (byteLength a.toList + 1)) 0 _ _
    d.collapseStringWhitespace keep hm (by omega)
  have hjoin := ht.join (Tile.ne_unterminated_of_items hleft) hm
  have htext : (a ++ "\n" ++ b).toList = a.toList ++ '\n' :: b.toList := by simp
  have hbytes : base + byteLength (a.toList ++ '\n' :: b.toList) ≤ positionLimit := by
    have hbreak : Char.utf8Size '\n' = 1 := rfl
    rw [byteLength_append, byteLength_cons]
    omega
  have hwhole := @Tiling.items_eq base 0 _ _ d.collapseStringWhitespace keep hjoin hbytes
  rw [Tile.items_append, hleft, ← hright, ← htext] at hwhole
  exact hwhole

theorem items_join
    (hf : base + (byteLength a.toList + 1) + byteLength b.toList ≤ positionLimit)
    (hi : (ofString a base d).items = tokens.map .token) :
    (ofString (a ++ "\n" ++ b) base d).items =
      tokens.map .token ++ (ofString b (base + (byteLength a.toList + 1)) d).items :=
  items_join_keeping hf hi

end Lexer
end Scenario
