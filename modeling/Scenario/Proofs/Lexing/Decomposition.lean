import Scenario.Proofs.Lexing.Tiling

/-!
# What a lexer makes of a source

A lexer that keeps comments cuts its source into tokens with blanks between them, and stops early
only at a literal without an end. `Token.IsWritten` says how a token of each kind is written, in
terms of the text of the token and the text behind it.

Main statement: `Lexer.items_decompose`. Nothing is lost, since every character outside of the spans
is a blank, and nothing is read twice, since the spans are in order and do not overlap.
-/

namespace Scenario

namespace Element

/-- A literal has no end exactly if no elements with a quote behind them stand at its beginning. -/
theorem splitBody_eq_none_iff (text : List Char) :
    splitBody text = none ↔
      ∀ body rest, (∀ e ∈ body, e.WellFormed) → text ≠ sourceAll body ++ '"' :: rest := by
  constructor
  · rintro h body rest hw rfl
    rw [splitBody_source hw] at h
    contradiction
  · intro h
    rw [Option.eq_none_iff_forall_ne_some]
    rintro ⟨body, rest⟩ hs
    obtain ⟨ht, hw⟩ := splitBody_eq_some hs
    exact h body rest hw ht

end Element

/-- The token is written as `slice`, in front of `rest`. A word and a comment go on as far as they
can; the elements of a literal hold no quote but those that are escaped. -/
def Token.IsWritten (collapse : Bool) (t : Token) (slice rest : List Char) : Prop :=
  match t.kind with
  | .keyword _ | .ident =>
    slice = t.value.toList ∧ IsWord slice ∧ (∀ c ∈ rest.head?, isBlank c = true) ∧
      ∀ k : Keyword, t.kind = .keyword k ↔ t.value = k.text
  | .str =>
    ∃ body, (∀ e ∈ body, e.WellFormed) ∧ slice = '"' :: (Element.sourceAll body ++ ['"']) ∧
      t.value = String.ofList (Element.decode collapse body)
  | .openBrace => slice = ['{'] ∧ t.value = "\x7b"
  | .closeBrace => slice = ['}'] ∧ t.value = "\x7d"
  | .comment =>
    ∃ margin, (∀ c ∈ margin, isHorizontal c = true) ∧ slice = '#' :: (margin ++ t.value.toList) ∧
      IsCommentText t.value.toList ∧ ∀ c ∈ rest.head?, isBreak c = true
  | .eof => False

/-- The error is about `slice`, a literal that goes on to the end of the source and has no end. -/
def LexicalError.IsWritten (e : LexicalError) (slice rest : List Char) : Prop :=
  e.cause = .unterminatedLiteral ∧ rest = [] ∧ ∃ text, slice = '"' :: text ∧
    ∀ body behind, (∀ x ∈ body, x.WellFormed) → text ≠ Element.sourceAll body ++ '"' :: behind

namespace Lexeme

variable {l : Lexeme} {rest : List Char} {collapse : Bool} {span : Span}

/-- The token of a lexeme is written as the lexeme is. -/
theorem isWritten_of_item_token {t : Token} (h : l.Stands rest)
    (hi : l.item collapse span = .token t) : t.IsWritten collapse l.source rest := by
  cases l with
  | comment margin text =>
    cases hi
    exact ⟨margin, h.1, by simp [source], by simpa using h.2.1, h.2.2⟩
  | literal body =>
    cases hi
    exact ⟨body, h, rfl, rfl⟩
  | unterminated text => cases hi
  | openBrace =>
    cases hi
    exact ⟨rfl, rfl⟩
  | closeBrace =>
    cases hi
    exact ⟨rfl, rfl⟩
  | word text =>
    cases hi
    have hvalue : source (word text) = (String.ofList text).toList := by simp [source]
    have hword : IsWord (String.ofList text).toList := by simpa using h.1
    cases hk : Keyword.identify (String.ofList text) with
    | some k =>
      refine ⟨hvalue, hvalue ▸ hword, h.2, fun k' => ?_⟩
      rw [@eq_comm _ _ k'.text, ← Keyword.identify_eq_some_iff, hk]
      simp
    | none =>
      refine ⟨hvalue, hvalue ▸ hword, h.2, fun k' => ?_⟩
      rw [@eq_comm _ _ k'.text, ← Keyword.identify_eq_some_iff, hk]
      simp

theorem isWritten_of_item_error {e : LexicalError} (h : l.Stands rest)
    (hi : l.item collapse span = .error e) : e.IsWritten l.source rest := by
  cases l with
  | unterminated text =>
    cases hi
    exact ⟨rfl, h.2, text, rfl, (Element.splitBody_eq_none_iff text).1 h.1⟩
  | _ => cases hi

end Lexeme

/-- The span covers a part of the source, whose first byte is at `base`. The part is not empty, and
it has the property together with the text behind it. -/
def Span.Covers (source : List Char) (base : Nat) (span : Span)
    (property : List Char → List Char → Prop) : Prop :=
  span.len ≠ 0 ∧ ∃ before slice behind, source = before ++ (slice ++ behind) ∧
    span = ⟨base + byteLength before, byteLength slice⟩ ∧ property slice behind

/-- An element of a concatenation stands in its left part or in its right part. -/
theorem exists_of_append_eq_append_cons {α : Type} {left right before behind : List α} {a : α}
    (h : left ++ right = before ++ a :: behind) :
    (∃ tail, left = before ++ a :: tail ∧ behind = tail ++ right) ∨
      ∃ middle, before = left ++ middle ∧ right = middle ++ a :: behind := by
  rcases List.append_eq_append_iff.1 h with ⟨middle, hbefore, hright⟩ | ⟨tail, hleft, hbehind⟩
  · exact .inr ⟨middle, hbefore, hright⟩
  · cases tail with
    | nil => exact .inr ⟨[], by simpa using hleft.symm, by simpa using hbehind.symm⟩
    | cons b tail =>
      obtain ⟨rfl, rfl⟩ := List.cons.inj hbehind
      exact .inl ⟨tail, hleft, rfl⟩

namespace Tiling

variable {base : Nat} {text : List Char} {tiles : List Tile}

theorem exists_of_mem (h : Tiling base text tiles) : ∀ tile ∈ tiles,
    ∃ before behind, text = before ++ (tile.lexeme.source ++ behind) ∧
      tile.span = ⟨base + byteLength before, byteLength tile.lexeme.source⟩ ∧
      tile.lexeme.Stands behind := by
  induction h with
  | nil _ => simp
  | @cons base gap rest l tiles _ hl _ ih =>
    intro tile htile
    rcases List.mem_cons.1 htile with rfl | htile
    · exact ⟨gap, rest, rfl, rfl, hl⟩
    · obtain ⟨before, behind, rfl, hspan, hstands⟩ := ih tile htile
      refine ⟨gap ++ (l.source ++ before), behind, by simp, ?_, hstands⟩
      simp only [hspan, byteLength_append, Nat.add_assoc]

/-- The tiles are in order and do not overlap. -/
theorem pairwise_span (h : Tiling base text tiles) :
    (tiles.map Tile.span).Pairwise fun s t => s.base < t.base ∧ s.base + s.len ≤ t.base := by
  induction h with
  | nil _ => exact .nil
  | @cons base gap rest l tiles hgap hl ht ih =>
    rw [List.map_cons]
    refine List.pairwise_cons.2 ⟨?_, ih⟩
    intro s hs
    obtain ⟨tile, htile, rfl⟩ := List.mem_map.1 hs
    have hbehind := (ht.span_of_mem tile htile).1
    have hfirst := ((Tiling.cons hgap hl ht).span_of_mem _ List.mem_cons_self).2.1
    dsimp only at hfirst ⊢
    omega

/-- A character that is no blank lies in one of the tiles. -/
theorem exists_of_not_blank (h : Tiling base text tiles) {before behind : List Char} {c : Char}
    (htext : text = before ++ c :: behind) (hc : isBlank c = false) :
    ∃ tile ∈ tiles, tile.span.base ≤ base + byteLength before ∧
      base + byteLength before + c.utf8Size ≤ tile.span.base + tile.span.len := by
  have hgap : ∀ gap : List Char, (∀ x ∈ gap, isBlank x = true) → c ∉ gap := by
    intro gap hgap hmem
    simp [hgap c hmem] at hc
  induction h generalizing before with
  | nil hblank => exact (hgap _ hblank (by simp [htext])).elim
  | @cons base gap rest l tiles hblank _ _ ih =>
    rcases exists_of_append_eq_append_cons htext with ⟨tail, rfl, -⟩ | ⟨_, rfl, hbehind⟩
    · exact (hgap _ hblank (by simp)).elim
    rcases exists_of_append_eq_append_cons hbehind with ⟨tail, hsource, -⟩ | ⟨_, rfl, hrest⟩
    · refine ⟨_, List.mem_cons_self, ?_⟩
      simp only [byteLength_append, hsource, byteLength_cons]
      omega
    · obtain ⟨tile, htile, hle, hge⟩ := ih hrest
      refine ⟨tile, List.mem_cons_of_mem _ htile, ?_⟩
      simp only [byteLength_append]
      omega

end Tiling

namespace Tile

theorem items_keep (collapse : Bool) (tiles : List Tile) :
    items collapse true tiles = tiles.map fun tile => tile.lexeme.item collapse tile.span := by
  rw [items, List.filter_eq_self.2 fun tile _ => Bool.true_or _]

end Tile

namespace Tiling

variable {base : Nat} {text : List Char} {tiles : List Tile}

/-- The tiles give tokens, and behind them an error if the last of them is a literal without an
end. -/
theorem exists_tokens (h : Tiling base text tiles) (collapse : Bool) :
    ∃ (tokens : List Token) (broken : Option LexicalError),
      Tile.items collapse true tiles = tokens.map .token ++ broken.toList.map .error ∧
      tokens.map Token.span ++ broken.toList.map LexicalError.span = tiles.map Tile.span := by
  induction h with
  | nil _ => exact ⟨[], none, rfl, rfl⟩
  | @cons base gap rest l tiles _ hl ht ih =>
    rw [Tile.items_cons, if_pos (Bool.true_or _)]
    rcases l.item_cases collapse ⟨base + byteLength gap, byteLength l.source⟩ with
      ⟨t, hitem, hspan, -⟩ | ⟨hitem, text, rfl⟩
    · obtain ⟨tokens, broken, hitems, hspans⟩ := ih
      exact ⟨t :: tokens, broken, by simp [hitem, hitems], by simp [hspan, hspans]⟩
    · obtain rfl : rest = [] := hl.2
      obtain rfl := ht.eq_nil_of_nil
      exact ⟨[], some _, by rw [hitem]; rfl, rfl⟩

/-- What an item of the tiles is about is covered by a tile. -/
theorem covers_of_mem (h : Tiling base text tiles) {tile : Tile} (htile : tile ∈ tiles)
    {property : List Char → List Char → Prop}
    (hp : ∀ behind, tile.lexeme.Stands behind → property tile.lexeme.source behind) :
    tile.span.Covers text base property := by
  obtain ⟨before, behind, htext, hspan, hstands⟩ := h.exists_of_mem tile htile
  exact ⟨(h.span_of_mem tile htile).2.1, before, _, behind, htext, hspan, hp behind hstands⟩

/-- A token is written where it stands in the text. -/
theorem covers_of_mem_items {collapse keep : Bool} (h : Tiling base text tiles) {t : Token}
    (ht : .token t ∈ Tile.items collapse keep tiles) :
    t.span.Covers text base (t.IsWritten collapse) := by
  simp only [Tile.items, List.mem_map, List.mem_filter] at ht
  obtain ⟨tile, ⟨hmem, -⟩, hitem⟩ := ht
  rw [Lexeme.span_of_item hitem]
  exact h.covers_of_mem hmem fun behind hl => Lexeme.isWritten_of_item_token hl hitem

end Tiling

namespace Lexer

/-- A lexer that keeps comments cuts a source that fits into tokens, with an error behind them if a
literal has no end. Their spans cover what they are written as, in order and without an overlap, and
every character outside of the spans is a blank. -/
theorem items_decompose {source : String} {base : Nat} (d : Dialect)
    (hf : base + byteLength source.toList ≤ positionLimit) :
    ∃ (tokens : List Token) (broken : Option LexicalError),
      (ofString source base d).withComments.items =
        tokens.map .token ++ broken.toList.map .error ∧
      (∀ t ∈ tokens,
        t.span.Covers source.toList base (t.IsWritten d.collapseStringWhitespace)) ∧
      (∀ e ∈ broken, e.span.Covers source.toList base e.IsWritten) ∧
      ((tokens.map Token.span ++ broken.toList.map LexicalError.span).Pairwise fun s t =>
        s.base < t.base ∧ s.base + s.len ≤ t.base) ∧
      ∀ before c behind, source.toList = before ++ c :: behind → isBlank c = false →
        ∃ s ∈ tokens.map Token.span ++ broken.toList.map LexicalError.span,
          s.base ≤ base + byteLength before ∧
            base + byteLength before + c.utf8Size ≤ s.base + s.len := by
  obtain ⟨tiles, h⟩ := exists_tiling base source.toList
  obtain ⟨tokens, broken, hitems, hspans⟩ := h.exists_tokens d.collapseStringWhitespace
  have hlex : (ofString source base d).withComments.items =
      Tile.items d.collapseStringWhitespace true tiles :=
    @Tiling.items_eq base 0 _ tiles _ true h hf
  have htile : ∀ item, item ∈ tokens.map Item.token ++ broken.toList.map Item.error →
      ∃ tile ∈ tiles, tile.lexeme.item d.collapseStringWhitespace tile.span = item := by
    intro item hmem
    rwa [← hitems, Tile.items_keep, List.mem_map] at hmem
  refine ⟨tokens, broken, hlex.trans hitems, ?_, ?_, ?_, ?_⟩
  · intro t ht
    obtain ⟨tile, hmem, hitem⟩ := htile (.token t) (by simp [ht])
    rw [Lexeme.span_of_item hitem]
    exact h.covers_of_mem hmem fun behind hl => Lexeme.isWritten_of_item_token hl hitem
  · intro e he
    obtain ⟨tile, hmem, hitem⟩ := htile (.error e) (by simp [Option.mem_def.1 he])
    have hspan : e.span = tile.span := by
      rcases tile.lexeme.item_cases d.collapseStringWhitespace tile.span with ⟨t, ht, -⟩ | ⟨he', -⟩
      · rw [ht] at hitem
        cases hitem
      · rw [he'] at hitem
        cases hitem
        rfl
    rw [hspan]
    exact h.covers_of_mem hmem fun behind hl => Lexeme.isWritten_of_item_error hl hitem
  · rw [hspans]
    exact h.pairwise_span
  · intro before c behind htext hc
    obtain ⟨tile, hmem, hle, hge⟩ := h.exists_of_not_blank htext hc
    rw [hspans]
    exact ⟨tile.span, List.mem_map_of_mem hmem, hle, hge⟩

/-- A word with a character of three bytes, a comment that a CR ends, and a literal whose last quote
is escaped. -/
theorem items_decompose_unterminated :
    let source := "xツ #\t y\r\"\\\""
    7 + byteLength source.toList ≤ positionLimit ∧
    (⟨7, 4⟩ : Span).Covers source.toList 7 (Token.IsWritten true ⟨.ident, "xツ", ⟨7, 4⟩⟩) ∧
    (⟨12, 4⟩ : Span).Covers source.toList 7 (Token.IsWritten true ⟨.comment, "y", ⟨12, 4⟩⟩) ∧
    (⟨17, 3⟩ : Span).Covers source.toList 7
      (LexicalError.IsWritten ⟨.unterminatedLiteral, ⟨17, 3⟩⟩) := by
  intro source
  have hf : 7 + byteLength source.toList ≤ positionLimit := by decide
  obtain ⟨tokens, broken, hitems, htokens, hbroken, -⟩ := items_decompose .standard hf
  have hlex : (ofString source 7 .standard).withComments.items =
      [.token ⟨.ident, "xツ", ⟨7, 4⟩⟩, .token ⟨.comment, "y", ⟨12, 4⟩⟩,
        .error ⟨.unterminatedLiteral, ⟨17, 3⟩⟩] := by decide +kernel
  have hmem : ∀ item, item ∈ tokens.map Item.token ++ broken.toList.map Item.error ↔
      item ∈ [Item.token ⟨.ident, "xツ", ⟨7, 4⟩⟩, .token ⟨.comment, "y", ⟨12, 4⟩⟩,
        .error ⟨.unterminatedLiteral, ⟨17, 3⟩⟩] := by
    intro item
    rw [← hlex, hitems]
  refine ⟨hf, htokens ⟨.ident, "xツ", ⟨7, 4⟩⟩ ?_, htokens ⟨.comment, "y", ⟨12, 4⟩⟩ ?_,
    hbroken ⟨.unterminatedLiteral, ⟨17, 3⟩⟩ ?_⟩
  · simpa using hmem (.token ⟨.ident, "xツ", ⟨7, 4⟩⟩)
  · simpa using hmem (.token ⟨.comment, "y", ⟨12, 4⟩⟩)
  · simpa using hmem (.error ⟨.unterminatedLiteral, ⟨17, 3⟩⟩)

end Lexer
end Scenario
