import Scenario.Proofs.Layout
import Scenario.Proofs.Returns
import Scenario.Proofs.Shifting

/-!
# Lexemes and line ends

CR characters in front of line feeds do not show in the tokens of a source. Between lexemes they are
blanks, a comment ends before them, and a string literal leaves them out. Only an escape would keep
one: so no line feed may stand right behind a backslash.

Each lexeme of a source has its counterpart in the source with CR characters, at the same place and
with the same item. This is shown by induction on the tiling of the source.

Main statement: `Lexer.items_withReturns`.
-/

namespace Scenario

/-- No line feed stands right behind a backslash. -/
def UnescapedBreaks (text : List Char) : Prop := ¬ ['\\', '\n'] <:+: text

instance (text : List Char) : Decidable (UnescapedBreaks text) :=
  inferInstanceAs (Decidable (¬ _))

theorem UnescapedBreaks.of_infix {text part : List Char} (h : UnescapedBreaks text)
    (hp : part <:+: text) : UnescapedBreaks part :=
  fun hbreak => h (hbreak.trans hp)

/-- An escape stays as it is, unless it is that of a line feed. -/
theorem withReturns_escape {n : Nat} {c : Char} (h : c ≠ '\n') (text : List Char) :
    withReturns n ('\\' :: c :: text) = '\\' :: c :: withReturns n text := by
  rw [withReturns_cons (by decide), withReturns_cons h]

theorem UnescapedBreaks.ne_break {c : Char} {text : List Char}
    (h : UnescapedBreaks ('\\' :: c :: text)) : c ≠ '\n' := by
  rintro rfl
  exact h ⟨[], text, rfl⟩

namespace Element

/-- The elements with `n` CR characters in front of every plain line feed. -/
def withReturns (n : Nat) (body : List Element) : List Element :=
  body.flatMap fun e =>
    if e = plain '\n' then List.replicate n (plain '\r') ++ [plain '\n'] else [e]

variable {n : Nat} {body : List Element}

theorem withReturns_break (n : Nat) (body : List Element) :
    withReturns n (plain '\n' :: body) =
      List.replicate n (plain '\r') ++ plain '\n' :: withReturns n body := by
  simp [withReturns]

theorem withReturns_cons {e : Element} (h : e ≠ plain '\n') (body : List Element) :
    withReturns n (e :: body) = e :: withReturns n body := by
  simp [withReturns, h]

theorem sourceAll_returns (n : Nat) :
    sourceAll (List.replicate n (plain '\r')) = List.replicate n '\r' := by
  induction n with
  | zero => rfl
  | succ n ih => rw [List.replicate_succ, sourceAll_cons, ih]; rfl

theorem sourceAll_withReturns (h : UnescapedBreaks (sourceAll body)) :
    sourceAll (withReturns n body) = Scenario.withReturns n (sourceAll body) := by
  induction body with
  | nil => rfl
  | cons e body ih =>
    rw [sourceAll_cons] at h
    have hbody := ih (h.of_infix (List.suffix_append _ _).isInfix)
    cases e with
    | escaped c =>
      have hc : c ≠ '\n' := h.ne_break
      rw [withReturns_cons (by simp), sourceAll_cons, hbody]
      exact (withReturns_escape hc _).symm
    | plain c =>
      by_cases hc : c = '\n'
      · subst hc
        rw [withReturns_break, sourceAll_cons, source, List.singleton_append,
          Scenario.withReturns_break, ← hbody, ← sourceAll_returns]
        simp [sourceAll, source]
      · rw [withReturns_cons (by simpa using hc), sourceAll_cons, sourceAll_cons, hbody, source,
          List.singleton_append, List.singleton_append, Scenario.withReturns_cons hc]

theorem wellFormed_withReturns (h : ∀ e ∈ body, e.WellFormed) :
    ∀ e ∈ withReturns n body, e.WellFormed := by
  intro e he
  obtain ⟨e', he', hmem⟩ := List.mem_flatMap.1 he
  split at hmem
  · rcases List.mem_append.1 hmem with hmem | hmem
    · rw [List.eq_of_mem_replicate hmem]
      simp [WellFormed]
    · rw [List.mem_singleton.1 hmem]
      simp [WellFormed]
  · rw [List.mem_singleton.1 hmem]
    exact h e' he'

/-- CR characters are left out, and a line feed begins a run of blanks anew. -/
theorem decodeFrom_returns (collapse inRun : Bool) (n : Nat) (body : List Element) :
    decodeFrom collapse inRun (List.replicate n (plain '\r') ++ plain '\n' :: body) =
      '\n' :: decodeFrom collapse collapse body := by
  induction n generalizing inRun with
  | zero =>
    have hrun : (inRun && isHorizontal '\n') = false := Bool.and_false inRun
    simp [decodeFrom, hrun]
  | succ n ih =>
    rw [List.replicate_succ, List.cons_append, decodeFrom, if_pos rfl]
    exact ih false

theorem decodeFrom_withReturns (collapse inRun : Bool) (n : Nat) (body : List Element) :
    decodeFrom collapse inRun (withReturns n body) = decodeFrom collapse inRun body := by
  induction body generalizing inRun with
  | nil => rfl
  | cons e body ih =>
    by_cases he : e = plain '\n'
    · have hplain := decodeFrom_returns collapse inRun 0 body
      rw [he, withReturns_break, decodeFrom_returns, ih]
      exact hplain.symm
    · rw [withReturns_cons he]
      cases e with
      | escaped c => simp only [decodeFrom, ih]
      | plain c => simp only [decodeFrom, ih]

/-- Elements in front of a text belong to the literal, whatever the text is. -/
theorem splitBody_append (h : ∀ e ∈ body, e.WellFormed) (text : List Char) :
    splitBody (sourceAll body ++ text) =
      (splitBody text).map fun (rest, behind) => (body ++ rest, behind) := by
  induction body with
  | nil => simp
  | cons e body ih =>
    have ih := ih fun e he => h e (List.mem_cons_of_mem _ he)
    cases e with
    | escaped c => simp [source, splitBody, ih, Function.comp_def]
    | plain c =>
      have hc := h (plain c) List.mem_cons_self
      simp_all [source, splitBody, WellFormed, Function.comp_def]

/-- A literal without an end has none either with CR characters in it. -/
theorem splitBody_withReturns {text : List Char} (hb : UnescapedBreaks text)
    (h : splitBody text = none) : splitBody (Scenario.withReturns n text) = none := by
  fun_induction splitBody text with
  | case1 => rfl
  | case2 => rfl
  | case3 => simp at h
  | case4 c text ih =>
    have hc := hb.ne_break
    have htext := ih (hb.of_infix (List.suffix_append ['\\', c] text).isInfix)
      (Option.map_eq_none_iff.1 h)
    rw [withReturns_escape hc, splitBody, htext]
    rfl
  | case5 c text hend hq hbackslash ih =>
    have hc : c ≠ '\\' := by
      rintro rfl
      cases text with
      | nil => exact hend rfl rfl
      | cons d text => exact hbackslash d text rfl rfl
    have hplain : ∀ e ∈ withReturns n [plain c], e.WellFormed :=
      wellFormed_withReturns (List.forall_mem_singleton.2 ⟨hq, hc⟩)
    have hone : UnescapedBreaks (sourceAll [plain c]) :=
      hb.of_infix (List.prefix_append [c] text).isInfix
    have hsource : Scenario.withReturns n [c] = sourceAll (withReturns n [plain c]) :=
      (sourceAll_withReturns hone).symm
    have htext := ih (hb.of_infix (List.suffix_cons c text).isInfix) (Option.map_eq_none_iff.1 h)
    rw [← List.singleton_append, withReturns_append, hsource, splitBody_append hplain, htext]
    rfl

end Element

/-- CR characters stand where line feeds do, so the text still begins with a character of the
class. -/
theorem head?_withReturns {p : Char → Bool} {text : List Char} {n : Nat} (hr : p '\r' = true)
    (h : ∀ c ∈ text.head?, p c = true) : ∀ c ∈ (withReturns n text).head?, p c = true := by
  cases text with
  | nil => exact h
  | cons c text =>
    by_cases hc : c = '\n'
    · rw [hc, withReturns_break]
      cases n with
      | zero => simpa [hc] using h
      | succ n => simpa [List.replicate_succ] using hr
    · rw [withReturns_cons hc]
      exact h

namespace Lexeme

/-- The counterpart of a lexeme in a source with CR characters. -/
def withReturns (n : Nat) : Lexeme → Lexeme
  | literal body => literal (Element.withReturns n body)
  | unterminated text => unterminated (Scenario.withReturns n text)
  | l => l

variable {l : Lexeme} {n : Nat} {rest : List Char}

theorem isComment_withReturns (l : Lexeme) (n : Nat) :
    (l.withReturns n).isComment = l.isComment := by
  cases l <;> rfl

theorem item_withReturns (l : Lexeme) (n : Nat) (collapse : Bool) (span : Span) :
    (l.withReturns n).item collapse span = l.item collapse span := by
  cases l with
  | literal body =>
    have hdecode := Element.decodeFrom_withReturns collapse false n body
    simp only [withReturns, item, Element.decode, hdecode]
  | _ => rfl

/-- A lexeme shows the same wherever it stands. -/
theorem alike_item (l : Lexeme) (collapse : Bool) (span span' : Span) :
    (l.item collapse span).Alike (l.item collapse span') := by
  cases l with
  | unterminated text => exact .error rfl
  | _ => exact .token rfl rfl

theorem source_withReturns (h : l.Stands rest) (hb : UnescapedBreaks l.source) :
    (l.withReturns n).source = Scenario.withReturns n l.source := by
  cases l with
  | comment margin text =>
    obtain ⟨hm, ⟨ht, -⟩, -⟩ := h
    have hbreak : '\n' ∉ (comment margin text).source := by
      simp only [source, List.mem_cons, List.mem_append, not_or]
      exact ⟨by decide, fun hmem => absurd (hm _ hmem) (by decide),
        fun hmem => absurd (ht _ hmem) (by decide)⟩
    exact (withReturns_of_not_mem hbreak).symm
  | literal body =>
    have hbody : UnescapedBreaks (Element.sourceAll body) := hb.of_infix ⟨['"'], ['"'], rfl⟩
    have hquote : Scenario.withReturns n ['"'] = ['"'] := withReturns_of_not_mem (by decide)
    rw [source, withReturns_cons (by decide), withReturns_append, hquote,
      ← Element.sourceAll_withReturns hbody]
    rfl
  | unterminated text =>
    rw [source, withReturns_cons (by decide)]
    rfl
  | openBrace =>
    have hbreak : '\n' ∉ ['{'] := by decide
    exact (withReturns_of_not_mem hbreak).symm
  | closeBrace =>
    have hbreak : '\n' ∉ ['}'] := by decide
    exact (withReturns_of_not_mem hbreak).symm
  | word text =>
    have hbreak : '\n' ∉ text := fun hmem => absurd (h.1.2.1 _ hmem) (by decide)
    exact (withReturns_of_not_mem hbreak).symm

theorem Stands.withReturns (h : l.Stands rest) (hb : UnescapedBreaks l.source) (n : Nat) :
    (l.withReturns n).Stands (Scenario.withReturns n rest) := by
  cases l with
  | comment margin text => exact ⟨h.1, h.2.1, head?_withReturns rfl h.2.2⟩
  | literal body => exact Element.wellFormed_withReturns h
  | unterminated text =>
    obtain ⟨hsplit, rfl⟩ := h
    have htext : UnescapedBreaks text := hb.of_infix (List.suffix_cons '"' text).isInfix
    exact ⟨Element.splitBody_withReturns htext hsplit, rfl⟩
  | openBrace => trivial
  | closeBrace => trivial
  | word text => exact ⟨h.1, head?_withReturns rfl h.2⟩

end Lexeme

theorem isBlank_withReturns {gap : List Char} (h : ∀ c ∈ gap, isBlank c = true) (n : Nat) :
    ∀ c ∈ withReturns n gap, isBlank c = true := by
  intro c hc
  obtain ⟨c', hmem, hc⟩ := List.mem_flatMap.1 hc
  split at hc
  · rcases List.mem_append.1 hc with hc | hc
    · rw [List.eq_of_mem_replicate hc]
      rfl
    · rw [List.mem_singleton.1 hc]
      rfl
  · rw [List.mem_singleton.1 hc]
    exact h c' hmem

/-- A tile of a source, and that of the same lexeme in the source with CR characters. -/
structure Tile.Counterpart (n : Nat) (source : List Char) (base base' : Nat) (tile tile' : Tile) :
    Prop where
  lexeme_eq : tile'.lexeme = tile.lexeme.withReturns n
  span : tile.span.Along (SamePlace n source base base') tile'.span

/-- The part of a source behind `pre` is tiled alike with CR characters in it. -/
theorem Tiling.exists_withReturns (n : Nat) (base base' : Nat) {pre text : List Char}
    {tiles : List Tile} (h : Tiling (base + byteLength pre) text tiles)
    (hb : UnescapedBreaks text) :
    ∃ tiles', Tiling (base' + byteLength (withReturns n pre)) (withReturns n text) tiles' ∧
      List.Forall₂ (Tile.Counterpart n (pre ++ text) base base') tiles tiles' := by
  generalize hpos : base + byteLength pre = pos at h
  induction h generalizing pre with
  | nil hgap => exact ⟨[], .nil (isBlank_withReturns hgap n), .nil⟩
  | @cons _ gap rest l tiles hgap hl _ ih =>
    subst hpos
    have hsource : UnescapedBreaks l.source := hb.of_infix ⟨gap, rest, by simp⟩
    have hrest : UnescapedBreaks rest := hb.of_infix ⟨gap ++ l.source, [], by simp⟩
    obtain ⟨tiles', htiles, hpairs⟩ := @ih (pre ++ (gap ++ l.source)) hrest (by
      simp only [byteLength_append]
      omega)
    have hbytes : base' + byteLength (withReturns n (pre ++ (gap ++ l.source))) =
        base' + byteLength (withReturns n pre) + byteLength (withReturns n gap) +
          byteLength (l.withReturns n).source := by
      rw [l.source_withReturns hl hsource]
      simp only [withReturns_append, byteLength_append]
      omega
    have htext : withReturns n (gap ++ (l.source ++ rest)) =
        withReturns n gap ++ ((l.withReturns n).source ++ withReturns n rest) := by
      rw [l.source_withReturns hl hsource]
      simp only [withReturns_append]
    rw [hbytes] at htiles
    rw [htext]
    refine ⟨_, .cons (isBlank_withReturns hgap n) (hl.withReturns hsource n) htiles, .cons ?_ ?_⟩
    · refine ⟨rfl, ⟨pre ++ gap, l.source ++ rest, by simp, ?_, ?_⟩,
        ⟨pre ++ (gap ++ l.source), rest, by simp, ?_, hbytes.symm⟩⟩
      · simp only [byteLength_append, Nat.add_assoc]
      · simp only [withReturns_append, byteLength_append, Nat.add_assoc]
      · simp only [byteLength_append, Nat.add_assoc]
    · simpa only [List.append_assoc] using hpairs

/-- Lexers on a source and on the source with CR characters yield the same items at the same
places. -/
theorem Lexer.items_withReturns {n : Nat} {source source' : String} {base base' : Nat}
    (d : Dialect) (keep : Bool) (hs : source'.toList = withReturns n source.toList)
    (hb : UnescapedBreaks source.toList) (hf : base + byteLength source.toList ≤ positionLimit)
    (hf' : base' + byteLength source'.toList ≤ positionLimit) :
    List.Forall₂ (fun item item' => item.Alike item' ∧
        item.Coupled (Span.Along (SamePlace n source.toList base base')) item')
      ({ ofString source base d with keepComments := keep } : Lexer).items
      ({ ofString source' base' d with keepComments := keep } : Lexer).items := by
  obtain ⟨tiles, ht⟩ := exists_tiling base source.toList
  obtain ⟨tiles', ht', hpairs⟩ := @Tiling.exists_withReturns n base base' [] _ tiles ht hb
  rw [← hs] at ht'
  have hitems := @Tiling.items_eq base 0 _ _ d.collapseStringWhitespace keep ht hf
  have hitems' := @Tiling.items_eq base' 0 _ _ d.collapseStringWhitespace keep ht' hf'
  unfold ofString ofText Cursor.ofText
  rw [hitems, hitems']
  apply Tile.forall₂_items keep
  apply hpairs.imp
  intro tile tile' htile
  rw [htile.lexeme_eq, Lexeme.isComment_withReturns, Lexeme.item_withReturns]
  exact ⟨rfl, tile.lexeme.alike_item _ _ _, tile.lexeme.coupled_item _ _ htile.span⟩

end Scenario
