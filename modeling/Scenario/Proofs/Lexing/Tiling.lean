import Scenario.Proofs.Lexing.Lexemes
import Scenario.Token.Lexer

/-!
# Tilings

A source falls into lexemes with blanks between them, and does so without any help of a lexer. A
tiling lists the lexemes with their spans.

Main statements: every text has a tiling (`exists_tiling`), and a lexer on a source that fits yields
the items of its tiles, except for comments that it does not keep (`Tiling.items_eq`). A tiling may
be cut between any two tiles, and what is in front of the cut is tiled as before
(`Tiling.exists_append`): a lexeme does not change when the text behind it is taken away.
-/

namespace Scenario

/-- A lexeme of a source, and its span. -/
structure Tile where
  lexeme : Lexeme
  span : Span
deriving DecidableEq, Repr

/-- The text, whose first byte is at `base`, falls into the tiles. -/
inductive Tiling : Nat → List Char → List Tile → Prop
  | nil {base : Nat} {gap : List Char} : (∀ c ∈ gap, isBlank c = true) → Tiling base gap []
  | cons {base : Nat} {gap rest : List Char} {l : Lexeme} {tiles : List Tile} :
      (∀ c ∈ gap, isBlank c = true) → l.Stands rest →
      Tiling (base + byteLength gap + byteLength l.source) rest tiles →
      Tiling base (gap ++ (l.source ++ rest))
        (⟨l, ⟨base + byteLength gap, byteLength l.source⟩⟩ :: tiles)

/-- Every text falls into tiles. -/
theorem exists_tiling (base : Nat) (text : List Char) : ∃ tiles, Tiling base text tiles := by
  induction hn : text.length using Nat.strongRecOn generalizing base text with
  | ind n ih =>
    have hgap : ∀ c ∈ text.takeWhile isBlank, isBlank c = true :=
      fun c hc => List.mem_takeWhile_imp hc
    have htext : text.takeWhile isBlank ++ text.dropWhile isBlank = text :=
      List.takeWhile_append_dropWhile
    cases hs : Lexeme.split? (text.dropWhile isBlank) with
    | none =>
      rw [(Lexeme.split?_eq_none_iff _).1 hs, List.append_nil] at htext
      exact ⟨[], .nil (by rwa [htext] at hgap)⟩
    | some split =>
      obtain ⟨l, rest⟩ := split
      obtain ⟨hrest, hl⟩ := (Lexeme.split?_eq_some_iff (head?_dropWhile _ _)).1 hs
      have hlt := Lexeme.length_lt_of_split? hs
      have hle : (text.dropWhile isBlank).length ≤ text.length :=
        (List.dropWhile_sublist _).length_le
      obtain ⟨tiles, ht⟩ := ih rest.length (by omega)
        (base + byteLength (text.takeWhile isBlank) + byteLength l.source) rest rfl
      rw [← htext, hrest]
      exact ⟨_, .cons hgap hl ht⟩

namespace Tiling

variable {base : Nat} {text : List Char} {tiles : List Tile}

theorem eq_nil_of_nil (h : Tiling base [] tiles) : tiles = [] := by
  generalize htext : ([] : List Char) = text at h
  cases h with
  | nil _ => rfl
  | cons _ hl _ =>
    obtain ⟨c, tail, hs, _⟩ := hl.exists_source_eq_cons
    simp [hs] at htext

/-- Blanks in front of a text have no effect on its tiles. -/
theorem append_gap {gap : List Char} (hg : ∀ c ∈ gap, isBlank c = true)
    (h : Tiling (base + byteLength gap) text tiles) : Tiling base (gap ++ text) tiles := by
  generalize hpos : base + byteLength gap = pos at h
  have happend : ∀ gap' : List Char, (∀ c ∈ gap', isBlank c = true) →
      ∀ c ∈ gap ++ gap', isBlank c = true :=
    fun gap' hg' => List.forall_mem_append.2 ⟨hg, hg'⟩
  cases h with
  | nil hg' => exact .nil (happend _ hg')
  | @cons _ gap' rest l tiles hg' hl ht =>
    subst hpos
    rw [← List.append_assoc]
    have hbytes : base + byteLength (gap ++ gap') = base + byteLength gap + byteLength gap' := by
      rw [byteLength_append, Nat.add_assoc]
    rw [← hbytes] at ht ⊢
    exact .cons (happend gap' hg') hl ht

/-- The tiles lie within the text, and none is empty. -/
theorem span_of_mem (h : Tiling base text tiles) : ∀ tile ∈ tiles,
    base ≤ tile.span.base ∧ tile.span.len ≠ 0 ∧
      tile.span.base + tile.span.len ≤ base + byteLength text := by
  induction h with
  | nil _ => simp
  | @cons base gap rest l tiles _ hl _ ih =>
    intro tile htile
    obtain ⟨c, tail, hs, _⟩ := hl.exists_source_eq_cons
    have hpos : 0 < byteLength l.source := by
      rw [hs, byteLength_cons]
      have := c.utf8Size_pos
      omega
    simp only [byteLength_append]
    rcases List.mem_cons.1 htile with rfl | htile
    · dsimp only
      omega
    · have := ih tile htile
      omega

end Tiling

namespace Tile

/-- The end of the last tile, or `base` if there is none. -/
def stop (base : Nat) : List Tile → Nat
  | [] => base
  | tile :: tiles => stop (tile.span.base + tile.span.len) tiles

theorem stop_append (base : Nat) (left right : List Tile) :
    stop base (left ++ right) = stop (stop base left) right := by
  induction left generalizing base with
  | nil => rfl
  | cons tile left ih => exact ih _

end Tile

namespace Tiling

variable {base : Nat} {text : List Char} {left right tiles : List Tile}

/-- A tiling may be cut behind any of its tiles. -/
theorem exists_append (h : Tiling base text (left ++ right)) :
    ∃ pre post, text = pre ++ post ∧ Tiling base pre left ∧
      Tiling (base + byteLength pre) post right ∧ Tile.stop base left = base + byteLength pre := by
  induction left generalizing base text with
  | nil => exact ⟨[], text, rfl, .nil (by simp), h, rfl⟩
  | cons tile left ih =>
    generalize htiles : tile :: left ++ right = tiles at h
    cases h with
    | nil _ => simp at htiles
    | @cons _ gap rest l tiles hgap hl ht =>
      cases htiles
      obtain ⟨pre, post, rfl, hpre, hpost, hstop⟩ := ih ht
      have hbytes : base + byteLength gap + byteLength l.source + byteLength pre =
          base + byteLength (gap ++ (l.source ++ pre)) := by
        simp only [byteLength_append]
        omega
      refine ⟨gap ++ (l.source ++ pre), post, by simp, ?_, ?_, ?_⟩
      · exact .cons hgap (hl.of_prefix (List.prefix_append _ _)) hpre
      · rwa [← hbytes]
      · rw [← hbytes]
        exact hstop

/-- The blanks in front of the first tile may be taken away. -/
theorem exists_gap {tile : Tile} (h : Tiling base text (tile :: tiles)) :
    ∃ gap rest, text = gap ++ rest ∧ tile.span.base = base + byteLength gap ∧
      Tiling tile.span.base rest (tile :: tiles) := by
  cases h with
  | @cons _ gap rest l _ hgap hl ht =>
    refine ⟨gap, l.source ++ rest, rfl, rfl, ?_⟩
    have hnil : Tiling (base + byteLength gap) ([] ++ (l.source ++ rest))
        (⟨l, ⟨base + byteLength gap + byteLength [], byteLength l.source⟩⟩ :: tiles) :=
      .cons (by simp) hl ht
    exact hnil

/-- The text from the beginning of a tile to the end of another is tiled as it is in the source. -/
theorem exists_slice {tile : Tile} (h : Tiling base text (left ++ (tile :: (tiles ++ right)))) :
    ∃ pre slice post, text = pre ++ (slice ++ post) ∧ tile.span.base = base + byteLength pre ∧
      Tiling tile.span.base slice (tile :: tiles) ∧
      Tile.stop base (tile :: tiles) = tile.span.base + byteLength slice := by
  obtain ⟨pre, rest, rfl, -, hrest, -⟩ := h.exists_append
  obtain ⟨gap, rest, rfl, hbase, hslice⟩ := hrest.exists_gap
  rw [← List.cons_append] at hslice
  obtain ⟨slice, post, rfl, hs, -, hstop⟩ := hslice.exists_append
  refine ⟨pre ++ gap, slice, post, by simp, ?_, hs, hstop⟩
  rw [hbase, byteLength_append]
  omega

end Tiling

namespace Lexeme

theorem span_of_item {l : Lexeme} {collapse : Bool} {span : Span} {t : Token}
    (h : l.item collapse span = .token t) : t.span = span := by
  cases l with
  | unterminated text => cases h
  | _ => cases h; rfl

/-- A lexeme gives a token, unless it is a literal without an end. -/
theorem item_cases (l : Lexeme) (collapse : Bool) (span : Span) :
    (∃ t, l.item collapse span = .token t ∧ t.span = span ∧ t.kind ≠ .eof ∧
      (t.kind = .comment ↔ l.isComment = true)) ∨
    l.item collapse span = .error ⟨.unterminatedLiteral, span⟩ ∧ ∃ text, l = unterminated text := by
  cases l with
  | unterminated text => exact .inr ⟨rfl, text, rfl⟩
  | word text =>
    refine .inl ⟨_, rfl, rfl, ?_⟩
    cases Keyword.identify (String.ofList text) <;> simp [isComment]
  | _ => exact .inl ⟨_, rfl, rfl, by simp [isComment]⟩

end Lexeme

namespace Tile

/-- The items that a lexer yields for the tiles. -/
def items (collapse keep : Bool) (tiles : List Tile) : List Item :=
  (tiles.filter fun tile => keep || !tile.lexeme.isComment).map fun tile =>
    tile.lexeme.item collapse tile.span

theorem items_cons (collapse keep : Bool) (tile : Tile) (tiles : List Tile) :
    items collapse keep (tile :: tiles) =
      if keep || !tile.lexeme.isComment then
        tile.lexeme.item collapse tile.span :: items collapse keep tiles
      else items collapse keep tiles := by
  simp only [items, List.filter_cons]
  split <;> simp

/-- Items come from tiles in the same order, so they may be cut together. -/
theorem exists_append_of_items {collapse keep : Bool} {tiles : List Tile} {before after : List Item}
    (h : items collapse keep tiles = before ++ after) :
    ∃ left right, tiles = left ++ right ∧ items collapse keep left = before ∧
      items collapse keep right = after := by
  obtain ⟨_, _, hfilter, rfl, rfl⟩ := List.map_eq_append_iff.1 h
  obtain ⟨left, right, rfl, rfl, rfl⟩ := List.filter_eq_append_iff.1 hfilter
  exact ⟨left, right, rfl, rfl, rfl⟩

/-- In front of the tile of the first item there may be comments. -/
theorem exists_cons_of_items {collapse keep : Bool} {tiles : List Tile} {item : Item}
    {after : List Item} (h : items collapse keep tiles = item :: after) :
    ∃ skipped tile right, tiles = skipped ++ tile :: right ∧ items collapse keep skipped = [] ∧
      items collapse keep [tile] = [item] ∧ tile.lexeme.item collapse tile.span = item ∧
      items collapse keep right = after := by
  obtain ⟨tile, _, hfilter, hitem, rfl⟩ := List.map_eq_cons_iff.1 h
  obtain ⟨skipped, right, rfl, hskipped, hkept, rfl⟩ := List.filter_eq_cons_iff.1 hfilter
  refine ⟨skipped, tile, right, rfl, ?_, ?_, hitem, rfl⟩
  · rw [items, List.filter_eq_nil_iff.2 hskipped]
    rfl
  · rw [items_cons, if_pos hkept, hitem]
    rfl

theorem items_append (collapse keep : Bool) (left right : List Tile) :
    items collapse keep (left ++ right) =
      items collapse keep left ++ items collapse keep right := by
  simp [items]

end Tile

namespace Lexer

variable {collapse : Bool} {base offset : Nat} {gap rest : List Char} {l : Lexeme}

theorem scan_gap (hgap : ∀ c ∈ gap, isBlank c = true)
    (hf : base + offset + byteLength gap ≤ positionLimit) :
    scan collapse ⟨base, offset, gap⟩ = (none, ⟨base, offset + byteLength gap, []⟩) := by
  have hskip : (⟨base, offset, gap⟩ : Cursor).skipWhile isBlank =
      ⟨base, offset + byteLength gap, []⟩ := by
    have hend : ∀ c ∈ ([] : List Char).head?, isBlank c = false := by simp
    have htake := takeWhile_of_run hgap hend
    have hdrop := dropWhile_of_run hgap hend
    rw [List.append_nil] at htake hdrop
    simp [Cursor.skipWhile, Cursor.passOver_eq, htake, hdrop]
  simp only [scan, hskip, Cursor.position]
  rw [if_pos (by omega)]
  rfl

theorem scan_lexeme (hgap : ∀ c ∈ gap, isBlank c = true) (hl : l.Stands rest)
    (hf : base + offset + byteLength (gap ++ l.source) ≤ positionLimit) :
    scan collapse ⟨base, offset, gap ++ (l.source ++ rest)⟩ =
      (some (l.item collapse ⟨base + offset + byteLength gap, byteLength l.source⟩),
        ⟨base, offset + byteLength gap + byteLength l.source, rest⟩) := by
  have hhead : ∀ c ∈ (l.source ++ rest).head?, isBlank c = false := by
    obtain ⟨c, tail, hs, hc⟩ := hl.exists_source_eq_cons
    rw [hs]
    rintro _ ⟨rfl⟩
    exact hc
  have hskip : (⟨base, offset, gap ++ (l.source ++ rest)⟩ : Cursor).skipWhile isBlank =
      ⟨base, offset + byteLength gap, l.source ++ rest⟩ := by
    simp [Cursor.skipWhile, Cursor.passOver_eq, takeWhile_of_run hgap hhead,
      dropWhile_of_run hgap hhead]
  simp only [byteLength_append] at hf
  simp only [scan, hskip, Cursor.position, Lexeme.split?_of_stands hl, Cursor.advance,
    List.take_left, List.drop_left]
  rw [if_pos (by omega)]
  dsimp only
  rw [if_pos (by omega)]
  have hlen : base + (offset + byteLength gap + byteLength l.source) -
      (base + (offset + byteLength gap)) = byteLength l.source := by omega
  dsimp only
  rw [hlen, Nat.add_assoc base offset]

theorem items_congr {l l' : Lexer} (h : l.next = l'.next) : l.items = l'.items := by
  rcases hn : l'.next with ⟨_ | item, behind⟩
  · rw [items_of_next_none hn, items_of_next_none (h.trans hn)]
  · cases item with
    | token t => rw [items_of_next_token hn, items_of_next_token (h.trans hn)]
    | error e => rw [items_of_next_error hn, items_of_next_error (h.trans hn)]
    | fault f => rw [items_of_next_fault hn, items_of_next_fault (h.trans hn)]

end Lexer

/-- A lexer on a source that fits yields the items of the tiles. -/
theorem Tiling.items_eq {base offset : Nat} {text : List Char} {tiles : List Tile}
    {collapse keep : Bool} (h : Tiling (base + offset) text tiles)
    (hf : base + offset + byteLength text ≤ positionLimit) :
    Lexer.items ⟨⟨base, offset, text⟩, collapse, keep, false⟩ = Tile.items collapse keep tiles := by
  generalize hpos : base + offset = pos at h
  induction h generalizing offset with
  | nil hgap =>
    have hscan := @Lexer.scan_gap collapse base offset _ hgap (by omega)
    exact Lexer.items_of_next_none (Lexer.next_of_scan_none rfl hscan)
  | @cons _ gap rest l tiles hgap hl ht ih =>
    subst hpos
    simp only [byteLength_append] at hf
    have hscan := @Lexer.scan_lexeme collapse base offset gap rest l hgap hl
      (by rw [byteLength_append]; omega)
    have hrest := @ih (offset + byteLength gap + byteLength l.source) (by omega) (by omega)
    rw [Tile.items_cons]
    rcases l.item_cases collapse ⟨base + offset + byteLength gap, byteLength l.source⟩ with
      ⟨t, hitem, -, -, hc⟩ | ⟨hitem, text, rfl⟩
    · dsimp only
      rw [hitem] at hscan ⊢
      have hnext := @Lexer.next_of_scan_token ⟨⟨base, offset, gap ++ (l.source ++ rest)⟩, collapse,
        keep, false⟩ _ _ rfl hscan
      have hkeep : (t.kind = .comment && !keep) = !(keep || !l.isComment) := by
        cases keep <;> cases hl : l.isComment <;> simp_all
      rw [hkeep] at hnext
      by_cases hk : (keep || !l.isComment) = true
      · rw [if_neg (by simp [hk])] at hnext
        rw [if_pos hk, Lexer.items_of_next_token hnext, hrest]
      · rw [if_pos (by simpa using hk)] at hnext
        rw [if_neg hk, Lexer.items_congr hnext, hrest]
    · obtain rfl : rest = [] := hl.2
      rw [hitem] at hscan
      rw [Lexer.items_of_next_error (Lexer.next_of_scan_error rfl hscan), ht.eq_nil_of_nil]
      cases keep <;> exact congrArg (· :: []) hitem.symm

namespace Tiling

variable {base : Nat} {text : List Char} {tiles : List Tile} {d : Dialect}

theorem stands_of_mem (h : Tiling base text tiles) :
    ∀ tile ∈ tiles, ∃ rest, tile.lexeme.Stands rest := by
  induction h with
  | nil _ => simp
  | cons _ hl _ ih =>
    intro tile htile
    rcases List.mem_cons.1 htile with rfl | htile
    · exact ⟨_, hl⟩
    · exact ih tile htile

theorem items_ofText (h : Tiling base text tiles) (hf : base + byteLength text ≤ positionLimit)
    (d : Dialect) :
    (Lexer.ofText text base d).items = Tile.items d.collapseStringWhitespace false tiles :=
  items_eq h hf

/-- The tokens of a source are no comments, and none is empty. -/
theorem token_of_mem_items {collapse : Bool} (h : Tiling base text tiles) {t : Token}
    (ht : .token t ∈ Tile.items collapse false tiles) :
    t.kind ≠ .comment ∧ t.kind ≠ .eof ∧ t.span.len ≠ 0 ∧
      t.span.base + t.span.len ≤ base + byteLength text := by
  simp only [Tile.items, List.mem_map, List.mem_filter, Bool.false_or, Bool.not_eq_true'] at ht
  obtain ⟨tile, ⟨hmem, hc⟩, hitem⟩ := ht
  have hspan := h.span_of_mem tile hmem
  rcases tile.lexeme.item_cases collapse tile.span with ⟨u, hu, hs, he, hk⟩ | ⟨hu, _⟩
  · rw [hu] at hitem
    cases hitem
    rw [hs]
    exact ⟨fun hcomment => by simp [hk.1 hcomment] at hc, he, hspan.2⟩
  · rw [hu] at hitem
    cases hitem

theorem admits_of_mem_items {collapse : Bool} (h : Tiling base text tiles) {t : Token}
    (ht : .token t ∈ Tile.items collapse false tiles) : t.kind.Admits t.value := by
  simp only [Tile.items, List.mem_map, List.mem_filter] at ht
  obtain ⟨tile, ⟨hmem, _⟩, hitem⟩ := ht
  obtain ⟨rest, hl⟩ := h.stands_of_mem tile hmem
  exact Lexeme.admits_of_item hl hitem

/-- What keeps a source from being split into tokens is a literal without an end. -/
theorem error_of_mem_items {collapse : Bool} (h : Tiling base text tiles) {e : LexicalError}
    (he : .error e ∈ Tile.items collapse false tiles) :
    e.cause = .unterminatedLiteral ∧ e.span.len ≠ 0 := by
  simp only [Tile.items, List.mem_map, List.mem_filter] at he
  obtain ⟨tile, ⟨hmem, _⟩, hitem⟩ := he
  have hspan := h.span_of_mem tile hmem
  rcases tile.lexeme.item_cases collapse tile.span with ⟨u, hu, _⟩ | ⟨hu, _⟩
  · rw [hu] at hitem
    cases hitem
  · rw [hu] at hitem
    cases hitem
    exact ⟨rfl, hspan.2.1⟩

theorem fault_not_mem_items {collapse : Bool} (tiles : List Tile) (f : Fault) :
    .fault f ∉ Tile.items collapse false tiles := by
  simp only [Tile.items, List.mem_map, not_exists, not_and]
  intro tile _ hitem
  rcases tile.lexeme.item_cases collapse tile.span with ⟨u, hu, _⟩ | ⟨hu, _⟩
  · rw [hu] at hitem
    cases hitem
  · rw [hu] at hitem
    cases hitem

end Tiling
end Scenario
