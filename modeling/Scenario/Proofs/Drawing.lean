import Scenario.Diagnostic.Drawing
import Scenario.Proofs.Locating.Inverse

/-!
# What a rendered diagnostic shows

A rendered diagnostic is its headline and what is shown for each pointer. What is shown is stated
here by counting in the source: a pointer whose span begins outside of it is shown as a range of
bytes, and any other by the line on which its span begins, with markers below it that begin where
the span does and reach to its end, or to that of the line.

Nothing else can go wrong than that the end of a span is no position. Otherwise all numbers that a
picture is made of are in their range: a line is not longer than the source, and a span that ends on
the line on which it begins does not end at a lower column.

Main statement: `Diagnostic.render_shows`.
-/

namespace Scenario

/-- From the begin of the span there are `n` characters to its end, if this is located on the line
of `start`, and otherwise to the end of `text`, which is shown of that line. -/
inductive Span.Marks (source : List Char) (base : Nat) (s : Span) (start : Location)
    (text : List Char) : Nat → Prop
  | within {last : Location} {front mid rest : List Char} :
      (SourceMap.ofText source base).locate (s.base + s.len) = some last →
      last.line = start.line → source = front ++ (mid ++ rest) →
      s.base = base + byteLength front → s.len = byteLength mid →
      Marks source base s start text mid.length
  | beyond :
      (∀ last, (SourceMap.ofText source base).locate (s.base + s.len) = some last →
        last.line ≠ start.line) →
      Marks source base s start text (text.drop (start.column - 1)).length

/-- The lines that are shown for a pointer: a range of bytes, or a header, a bar, the line on which
the span begins, and the row of markers below it. The margin is one wider than the number of the
line. -/
inductive Pointer.Shows (source : List Char) (base : Nat) (y : Pointer) : List String → Prop
  | outside : (SourceMap.ofText source base).locate y.span.base = none →
      Shows source base y
        ["  --> " ++ toString y.span.base ++ ".." ++ toString (y.span.base + y.span.len)]
  | inside {start : Location} {text number margin : List Char} {n : Nat}
      {header bar shown row : String} :
      (SourceMap.ofText source base).locate y.span.base = some start →
      (SourceMap.ofText source base).line start.line = some text →
      y.span.Marks source base start text n →
      number = (toString start.line).toList →
      margin = List.replicate (number.length + 1) ' ' →
      header.toList = margin ++ "--> ".toList ++ start.describe.toList →
      bar.toList = margin ++ ['|'] →
      shown.toList = number ++ " | ".toList ++ text →
      row.toList = margin ++ "| ".toList ++ List.replicate (start.column - 1) ' ' ++
        List.replicate (max n 1) y.marker ++ (y.note.elim "" (" " ++ ·)).toList →
      Shows source base y [header, bar, shown, row]

section Layout

variable {source : List Char} {base n : Nat} {y : Pointer} {lines : List String} {start : Location}
  {text : List Char}

theorem Sketch.shows (hstart : (SourceMap.ofText source base).locate y.span.base = some start)
    (htext : (SourceMap.ofText source base).line start.line = some text)
    (hmarks : y.span.Marks source base start text n) :
    y.Shows source base
      (Sketch.lines ⟨start, text, start.column - 1, max n 1⟩ y.marker y.note) := by
  apply Pointer.Shows.inside hstart htext hmarks rfl rfl
  all_goals
    generalize y.note.elim "" (" " ++ ·) = behind
    generalize toString start.line = number
    simp [List.replicate_succ', String.length_toList]

/-- The first marker stands below the character of the line at which the span begins. -/
theorem Pointer.Shows.exists_below (h : y.Shows source base lines)
    (hstart : (SourceMap.ofText source base).locate y.span.base = some start)
    (htext : (SourceMap.ofText source base).line start.line = some text) :
    ∃ (header bar shown row : String) (i : Nat), lines = [header, bar, shown, row] ∧
      row.toList[i]? = some y.marker ∧ (∀ c ∈ row.toList.take i, c = ' ' ∨ c = '|') ∧
      shown.toList[i]? = text[start.column - 1]? := by
  cases h with
  | outside hnone => cases hnone.symm.trans hstart
  | @inside _ _ number margin n _ _ shown row hstart' htext' _ _ hmargin _ _ hshown hrow =>
    cases hstart'.symm.trans hstart
    cases htext'.symm.trans htext
    let left := margin ++ "| ".toList ++ List.replicate (start.column - 1) ' '
    let front := number ++ " | ".toList
    have hleft : left.length = front.length + (start.column - 1) := by
      simp [left, front, hmargin]
      omega
    refine ⟨_, _, shown, row, left.length, rfl, ?_, ?_, ?_⟩
    · obtain ⟨k, hk⟩ : ∃ k, max n 1 = k + 1 := ⟨max n 1 - 1, by omega⟩
      rw [hrow, hk, List.append_assoc, List.getElem?_append_right (Nat.le_refl _), Nat.sub_self,
        List.replicate_succ, List.cons_append, List.getElem?_cons_zero]
    · have htake : row.toList.take left.length = left := by
        rw [hrow, List.append_assoc, List.take_left]
      rw [htake]
      intro c hc
      simp only [left, hmargin, List.mem_append] at hc
      rcases hc with (hc | hc) | hc
      · exact .inl (List.eq_of_mem_replicate hc)
      · simpa [or_comm] using hc
      · exact .inl (List.eq_of_mem_replicate hc)
    · rw [hshown, hleft, List.getElem?_append_right (Nat.le_add_right _ _), Nat.add_sub_cancel_left]

end Layout

section Traversal

variable {α β ε : Type} {f : α → Except ε β} {items : List α}

/-- A list of results has an error if an element has. -/
theorem exists_mapM_error_iff :
    (∃ e, items.mapM f = .error e) ↔ ∃ a ∈ items, ∃ e, f a = .error e := by
  induction items with
  | nil => simp [pure, Except.pure]
  | cons a items ih =>
    rw [List.mapM_cons, List.exists_mem_cons_iff, ← ih]
    cases hfirst : f a with
    | error e => simp [bind, Except.bind]
    | ok b =>
      cases hrest : items.mapM f with
      | error e => simp [bind, Except.bind]
      | ok bs => simp [bind, Except.bind, pure, Except.pure]

theorem exists_map_error_iff {γ : Type} {result : Except ε β} {g : β → γ} :
    (∃ e, result.map g = .error e) ↔ ∃ e, result = .error e := by
  cases result with
  | error e => exact iff_of_true ⟨e, rfl⟩ ⟨e, rfl⟩
  | ok b => exact iff_of_false nofun nofun

theorem mapM_eq_ok {results : List β} (h : List.Forall₂ (fun a b => f a = .ok b) items results) :
    items.mapM f = .ok results := by
  induction h with
  | nil => rfl
  | cons hfirst _ ih =>
    rw [List.mapM_cons, hfirst, ih]
    rfl

theorem exists_forall₂ {R : α → β → Prop} (h : ∀ a ∈ items, ∃ b, R a b) :
    ∃ results, List.Forall₂ R items results := by
  induction items with
  | nil => exact ⟨[], .nil⟩
  | cons a items ih =>
    obtain ⟨⟨b, hb⟩, hrest⟩ := List.forall_mem_cons.1 h
    obtain ⟨results, hresults⟩ := ih hrest
    exact ⟨b :: results, .cons hb hresults⟩

end Traversal

section Numbers

variable {source : List Char} {base : Nat} {s : Span} {start : Location} {text : List Char}

/-- On a line the columns count the characters in between. -/
theorem SourceMap.column_of_line_eq {front mid rest : List Char} {l l' : Location}
    (hl : (ofText (front ++ (mid ++ rest)) base).locate (base + byteLength front) = some l)
    (hl' : (ofText (front ++ (mid ++ rest)) base).locate (base + byteLength (front ++ mid)) =
      some l') (hline : l'.line = l.line) : l'.column = l.column + mid.length := by
  rw [locate_append, Option.some_inj] at hl
  rw [← List.append_assoc, locate_append, Location.behind_append, hl, Option.some_inj] at hl'
  subst hl'
  rw [Location.line_behind] at hline
  have hnot : '\n' ∉ mid := List.count_eq_zero.1 (by omega)
  rw [Location.behind_of_not_mem l hnot]

/-- The characters to mark are counted right. -/
theorem SourceMap.marks_markedWidth (hstart : (ofText source base).locate s.base = some start)
    (text : List Char) : s.Marks source base start text
      ((ofText source base).markedWidth start text (s.base + s.len)) := by
  obtain ⟨pre, post, -, -, -, hcolumn, -⟩ := exists_piece_of_locate hstart
  have hdrop : text.length + 1 - start.column = (text.drop (start.column - 1)).length := by
    rw [List.length_drop]
    omega
  rw [markedWidth]
  cases hlast : (ofText source base).locate (s.base + s.len) with
  | none =>
    dsimp only
    rw [hdrop]
    apply Span.Marks.beyond
    intro last h
    cases hlast.symm.trans h
  | some last =>
    dsimp only
    split
    case isTrue hline =>
      obtain ⟨front, mid, rest, hsource, hbase, hstop⟩ :=
        (isPlace_of_locate hstart).exists_between (isPlace_of_locate hlast) (Nat.le_add_right _ _)
      have hlen : s.len = byteLength mid := by
        rw [byteLength_append] at hstop
        omega
      have hwidth : last.column = start.column + mid.length := by
        rw [hsource, hbase] at hstart
        rw [hsource, hstop] at hlast
        exact column_of_line_eq hstart hlast hline
      rw [hwidth, Nat.add_sub_cancel_left]
      exact .within hlast hline hsource hbase hlen
    case isFalse hline =>
      rw [hdrop]
      apply Span.Marks.beyond
      intro l h
      cases hlast.symm.trans h
      exact hline

/-- A table comes to the same width. On the line on which a span begins it does not end at a lower
column, and the length of a line is in the range of positions. -/
theorem LineTable.markedWidth_eq (h : byteLength source < positionLimit)
    (hlength : text.length ≤ source.length) {p q : Nat} (hle : p ≤ q)
    (hstart : (SourceMap.ofText source base).locate p = some start) :
    (ofText source base).markedWidth start text q =
      .ok ((SourceMap.ofText source base).markedWidth start text q) := by
  have hsize := length_le_byteLength source
  have hplus : plus text.length 1 = .ok (text.length + 1) := plus_of_le (by omega)
  rw [markedWidth, locate_eq h, SourceMap.markedWidth]
  cases hlast : (SourceMap.ofText source base).locate q with
  | none => simp only [hplus, bind, Except.bind, pure, Except.pure]
  | some last =>
    have horder := SourceMap.locate_le (SourceMap.isPlace_of_locate hstart)
      (SourceMap.isPlace_of_locate hlast) hle hstart hlast
    by_cases hline : last.line = start.line
    · have hminus := minus_of_le (horder.2 hline)
      simp only [if_pos hline, hminus, bind, Except.bind]
    · simp only [if_neg hline, hplus, bind, Except.bind, pure, Except.pure]

/-- A pointer whose span fits is shown, by the map and by the table alike. -/
theorem Pointer.exists_shows (h : byteLength source < positionLimit) {y : Pointer}
    (hf : y.span.Fits) : ∃ lines, y.Shows source base lines ∧
      (SourceMap.ofText source base).picture y.span y.marker y.note = .ok lines ∧
      (LineTable.ofText source base).picture y = .ok lines := by
  have hstop := Span.stop_of_fits hf
  have hplus : LineTable.plus y.span.base y.span.len = .ok (y.span.base + y.span.len) :=
    LineTable.plus_of_le hf
  cases hstart : (SourceMap.ofText source base).locate y.span.base with
  | none =>
    refine ⟨_, .outside hstart, ?_, ?_⟩
    · simp only [SourceMap.picture, hstop, hstart, bind, Except.bind]
      rfl
    · simp only [LineTable.picture, LineTable.locate_eq h, hstart, hplus, bind, Except.bind]
      rfl
  | some start =>
    obtain ⟨l, text, hl, htext, hpos, -⟩ :=
      SourceMap.exists_locate (SourceMap.isPlace_of_locate hstart)
    obtain rfl : l = start := Option.some_inj.1 (hl.symm.trans hstart)
    refine ⟨_, Sketch.shows hstart htext (SourceMap.marks_markedWidth hstart text), ?_, ?_⟩
    · simp only [SourceMap.picture, hstop, hstart, htext, Option.getD_some, bind, Except.bind]
      rfl
    · have hwidth := LineTable.markedWidth_eq h (SourceMap.line_ofText htext).2
        (Nat.le_add_right _ y.span.len) hstart
      have hblanks := LineTable.minus_of_le hpos
      simp only [LineTable.picture, LineTable.locate_eq h, LineTable.line_eq, hstart, htext, hplus,
        hwidth, hblanks, Option.getD_some, bind, Except.bind]
      rfl

/-- A pointer whose span does not fit is not shown, wherever it begins, and any other is. -/
theorem Pointer.exists_error_iff (h : byteLength source < positionLimit) (y : Pointer) :
    ((∃ f, (SourceMap.ofText source base).picture y.span y.marker y.note = .error f) ↔
      ¬ y.span.Fits) ∧
    ((∃ f, (LineTable.ofText source base).picture y = .error f) ↔ ¬ y.span.Fits) := by
  by_cases hf : y.span.Fits
  · obtain ⟨lines, -, hmap, htable⟩ := @exists_shows source base h y hf
    rw [hmap, htable]
    exact ⟨iff_of_false nofun (not_not_intro hf), iff_of_false nofun (not_not_intro hf)⟩
  · have hplus : LineTable.plus y.span.base y.span.len = .error (.sum y.span.base y.span.len) :=
      if_neg hf
    refine ⟨iff_of_true ?_ hf, iff_of_true ?_ hf⟩
    · simp only [SourceMap.picture, Span.stop_of_not_fits hf, bind, Except.bind]
      exact ⟨_, rfl⟩
    · cases hstart : (SourceMap.ofText source base).locate y.span.base with
      | none =>
        simp only [LineTable.picture, LineTable.locate_eq h, hstart, hplus, bind, Except.bind]
        exact ⟨_, rfl⟩
      | some start =>
        simp only [LineTable.picture, LineTable.locate_eq h, LineTable.line_eq, hstart, hplus, bind,
          Except.bind]
        exact ⟨_, rfl⟩

end Numbers

namespace Diagnostic

/-- The pointers are shown one after the other. -/
theorem render_eq (x : Diagnostic) (m : SourceMap) :
    x.render m = (x.pointers.mapM fun y => m.picture y.span y.marker y.note).map
      fun pictures => "\n".intercalate (x.headline :: pictures.flatten) := by
  obtain ⟨level, category, message, spans⟩ := x
  cases spans with
  | none => rfl
  | some spans =>
    rw [pointers, List.mapM_cons, List.mapM_map]
    simp only [render, renderedLines, Function.comp_def, bind, Except.bind]
    cases m.picture spans.main '^' none with
    | error f => rfl
    | ok main =>
      cases spans.remarks.mapM fun remark => m.picture remark.span '-' (some remark.note) <;> rfl

theorem draw_eq (x : Diagnostic) (m : LineTable) :
    x.draw m = (x.pointers.mapM m.picture).map
      fun pictures => "\n".intercalate (x.headline :: pictures.flatten) := by
  simp only [draw, bind, Except.bind]
  cases x.pointers.mapM m.picture <;> rfl

/-- Rendering fails just for spans that do not fit, and otherwise shows each pointer.

For every diagnostic and every source that is shorter than the limit, there is no text if and only
if the end of some span is no position. This is also all that can fail when the diagnostic is drawn
with a table, where every lookup, sum and difference is checked. Otherwise both texts are the
headline and the lines that are shown for the pointers in order.

In the picture of a span that begins in the source, the first marker stands below the character of
the shown line in whose column the span begins. As far as the line is shown, it is the character of
the source at this position. -/
theorem render_shows (x : Diagnostic) (source : String) (base : Nat)
    (h : source.utf8ByteSize < positionLimit) :
    ((∃ f, x.render (SourceMap.ofString source base) = .error f) ↔
      ∃ y ∈ x.pointers, ¬ y.span.Fits) ∧
    ((∃ f, x.draw (LineTable.ofText source.toList base) = .error f) ↔
      ∃ y ∈ x.pointers, ¬ y.span.Fits) ∧
    ((∀ y ∈ x.pointers, y.span.Fits) →
      ∃ pictures, List.Forall₂ (Pointer.Shows source.toList base) x.pointers pictures ∧
        x.render (SourceMap.ofString source base) =
          .ok ("\n".intercalate (x.headline :: pictures.flatten)) ∧
        x.draw (LineTable.ofText source.toList base) =
          .ok ("\n".intercalate (x.headline :: pictures.flatten))) ∧
    ∀ (y : Pointer) lines start text, y.Shows source.toList base lines →
      (SourceMap.ofString source base).locate y.span.base = some start →
      (SourceMap.ofString source base).line start.line = some text →
      ∃ (header bar shown row : String) (i : Nat), lines = [header, bar, shown, row] ∧
        row.toList[i]? = some y.marker ∧ (∀ c ∈ row.toList.take i, c = ' ' ∨ c = '|') ∧
        shown.toList[i]? = text[start.column - 1]? ∧
        (start.column ≤ text.length → ∃ front c rest, source.toList = front ++ c :: rest ∧
          y.span.base = base + byteLength front ∧ shown.toList[i]? = some c) := by
  rw [← byteLength_toList] at h
  have hmap : SourceMap.ofString source base = SourceMap.ofText source.toList base := rfl
  rw [hmap, render_eq, draw_eq]
  refine ⟨?_, ?_, ?_, ?_⟩
  · rw [exists_map_error_iff, exists_mapM_error_iff]
    simp only [(Pointer.exists_error_iff h _).1]
  · rw [exists_map_error_iff, exists_mapM_error_iff]
    simp only [(Pointer.exists_error_iff h _).2]
  · intro hfits
    obtain ⟨pictures, hpictures⟩ := exists_forall₂ fun y hy => Pointer.exists_shows h (hfits y hy)
    refine ⟨pictures, hpictures.imp fun y lines hy => hy.1, ?_, ?_⟩
    · rw [mapM_eq_ok (hpictures.imp fun y lines hy => hy.2.1)]
      rfl
    · rw [mapM_eq_ok (hpictures.imp fun y lines hy => hy.2.2)]
      rfl
  · intro y lines start text hshows hstart htext
    obtain ⟨header, bar, shown, row, i, hlines, hmarker, hblank, hbelow⟩ :=
      hshows.exists_below hstart htext
    refine ⟨header, bar, shown, row, i, hlines, hmarker, hblank, hbelow, fun hle => ?_⟩
    obtain ⟨front, c, rest, hsource, hbase, hchar⟩ :=
      SourceMap.exists_char_of_locate hstart htext hle
    exact ⟨front, c, rest, hsource, hbase, hbelow.trans hchar⟩

/-- A span on the second line of a source at position 5, and a remark on what stands in front of the
source. -/
theorem render_shows_remark :
    let source := "a\nbc d"
    let x : Diagnostic :=
      ⟨.error, .other, "message", some ⟨⟨8, 3⟩, [⟨⟨3, 1⟩, "note"⟩]⟩⟩
    source.utf8ByteSize < positionLimit ∧ (∀ y ∈ x.pointers, y.span.Fits) ∧
    x.draw (LineTable.ofText source.toList 5) =
      .ok "error[other]: message\n  --> 2:2\n  |\n2 | bc d\n  |  ^^^\n  --> 3..4" := by
  intro source x
  have h : source.utf8ByteSize < positionLimit := by decide
  have hfits : ∀ y ∈ x.pointers, y.span.Fits := by decide
  have hrendered : x.render (SourceMap.ofString source 5) =
      .ok "error[other]: message\n  --> 2:2\n  |\n2 | bc d\n  |  ^^^\n  --> 3..4" := by
    decide +kernel
  obtain ⟨-, -, hshows, -⟩ := render_shows x source 5 h
  obtain ⟨pictures, -, hrender, hdraw⟩ := hshows hfits
  have htext := Except.ok.inj (hrender.symm.trans hrendered)
  exact ⟨h, hfits, hdraw.trans (congrArg _ htext)⟩

end Diagnostic
end Scenario
