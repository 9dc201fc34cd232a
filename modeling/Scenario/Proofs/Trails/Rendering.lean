import Scenario.Proofs.Trails.Runs

/-!
# Rendered trails

The diagnostics of a parse point at places of its source, so each of their spans has a picture of
four lines. Nothing that is shown beside the source breaks a line: a message shows identifiers,
numbers and fixed texts only. So the number of lines of a rendered diagnostic is known from the
number of its spans.

Main statement: `Target.parse_trail`.
-/

namespace Scenario

/-- The text stands on one line. -/
def IsLine (text : String) : Prop := '\n' ∉ text.toList

instance (text : String) : Decidable (IsLine text) := inferInstanceAs (Decidable (¬ _))

@[simp] theorem isLine_append_iff {left right : String} :
    IsLine (left ++ right) ↔ IsLine left ∧ IsLine right := by
  simp [IsLine]

@[simp] theorem isLine_ofList_iff {text : List Char} :
    IsLine (String.ofList text) ↔ '\n' ∉ text := by
  simp [IsLine]

@[simp] theorem isLine_toString (n : Nat) : IsLine (toString n) := by
  rw [Nat.toString_eq_repr, Nat.repr_eq_ofList_toDigits, isLine_ofList_iff]
  intro hmem
  have hdigit : '\n'.isDigit = true :=
    Nat.isDigit_of_mem_toDigits (by decide) (by decide) hmem
  revert hdigit
  decide

theorem isLine_intercalate {separator : String} {texts : List String} (hs : IsLine separator)
    (h : ∀ text ∈ texts, IsLine text) : IsLine (separator.intercalate texts) := by
  induction texts with
  | nil => exact List.not_mem_nil
  | cons text texts ih =>
    obtain ⟨htext, hrest⟩ := List.forall_mem_cons.1 h
    cases texts with
    | nil => simpa using htext
    | cons next texts =>
      rw [String.intercalate_cons_cons]
      simpa using ⟨⟨htext, hs⟩, ih hrest⟩

theorem isLine_of_isIdent {name : String} (h : IsIdent name) : IsLine name := by
  intro hmem
  have hblank := h.1.2.1 '\n' hmem
  revert hblank
  decide

theorem Keyword.isLine_text (keyword : Keyword) : IsLine keyword.text := by
  cases keyword <;> decide

theorem Kind.isLine_describe (kind : Kind) : IsLine kind.describe := by
  cases kind with
  | keyword k => cases k <;> decide
  | _ => decide

theorem Token.isLine_describe {t : Token} (h : ∀ name ∈ t.names, IsLine name) :
    IsLine t.describe := by
  unfold describe
  split
  · rename_i hk
    have hvalue : IsLine t.value := h t.value (by simp [names, hk])
    simpa using ⟨⟨by decide, hvalue⟩, by decide⟩
  · exact Kind.isLine_describe _

theorem LexicalCause.isLine_message (cause : LexicalCause) : IsLine cause.message := by
  cases cause with
  | unterminatedLiteral => decide
  | outOfRange refusal =>
    change IsLine ("cannot read " ++ toString refusal.requested ++ " characters at position " ++
      toString refusal.position ++ ", only " ++ toString refusal.available ++ " left")
    simp only [isLine_append_iff, isLine_toString]
    decide

namespace Issue

/-- A message stands on one line if the names in it do. -/
theorem isLine_message {i : Issue} (h : ∀ name ∈ i.names, IsLine name) : IsLine i.message := by
  cases i with
  | lexical e => exact e.cause.isLine_message
  | expected kinds found =>
    have hlist : IsLine (", ".intercalate (kinds.map Kind.describe)) :=
      isLine_intercalate (by decide) (List.forall_mem_map.2 fun kind _ => kind.isLine_describe)
    have hfound : IsLine found.describe := Token.isLine_describe h
    simp only [message, describeExpected]
    split
    · simp only [isLine_append_iff, hlist, hfound]
      decide
    · simp only [isLine_append_iff, hlist, hfound]
      decide
  | unclosed header stop =>
    have hid : IsLine header.id := h _ (by simp [names])
    simp only [message, isLine_append_iff, hid, Keyword.isLine_text, Kind.isLine_describe]
    decide
  | strayBranch id span author =>
    have hid : IsLine id := h _ (by simp [names])
    simp only [message, isLine_append_iff, hid]
    decide
  | skipped found scene =>
    obtain ⟨hscene, hfound⟩ := List.forall_mem_cons.1 h
    simp only [message, isLine_append_iff, hscene, Token.isLine_describe hfound]
    decide
  | redefined id span scene previous =>
    have hid : IsLine id := h _ (by simp [names])
    have hscene : IsLine scene := h _ (by simp [names])
    simp only [message, isLine_append_iff, hid, hscene]
    decide

/-- The notes on the remarks stand on one line if the names in them do. -/
theorem isLine_note {i : Issue} {a : AnnotatedSpan} (h : ∀ name ∈ i.names, IsLine name)
    (ha : i.spans = some a) : ∀ remark ∈ a.remarks, IsLine remark.note := by
  cases i with
  | lexical e =>
    cases ha
    simp [AnnotatedSpan.ofSpan]
  | expected kinds found =>
    cases ha
    simp [AnnotatedSpan.ofSpan]
  | unclosed header stop =>
    cases ha
    simp only [List.forall_mem_singleton, isLine_append_iff, Keyword.isLine_text]
    decide
  | strayBranch id span author =>
    obtain ⟨s, -, rfl⟩ := Option.map_eq_some_iff.1 ha
    have hauthor : IsLine author.id := h _ (by simp [names])
    simp only [List.forall_mem_singleton, isLine_append_iff, Keyword.isLine_text, hauthor]
    decide
  | skipped found scene =>
    cases ha
    simp [AnnotatedSpan.ofSpan]
  | redefined id span scene previous =>
    cases ha
    have hnote : IsLine "previously defined here" := by decide
    simpa using hnote

theorem isLine_headline {i : Issue} (h : ∀ name ∈ i.names, IsLine name) :
    IsLine i.diagnostic.headline := by
  have hlevel : ∀ level : Level, IsLine level.describe := by
    intro level
    cases level <;> decide
  have hcategory : ∀ category : Category, IsLine category.describe := by
    intro category
    cases category <;> decide
  have hmessage : IsLine i.diagnostic.message := isLine_message h
  simp only [Diagnostic.headline, isLine_append_iff, hlevel, hcategory, hmessage]
  decide

end Issue

section Counting

theorem splitLines_append {line : List Char} (h : '\n' ∉ line) (rest : List Char) :
    splitLines (line ++ '\n' :: rest) = (line, (splitLines rest).1 :: (splitLines rest).2) := by
  induction line with
  | nil => simp [splitLines]
  | cons c line ih =>
    rw [List.mem_cons, not_or] at h
    have hc : ¬ c = '\n' := fun hc => h.1 hc.symm
    simp [splitLines, hc, ih h.2]

theorem splitLines_of_not_mem {line : List Char} (h : '\n' ∉ line) :
    splitLines line = (line, []) := by
  induction line with
  | nil => rfl
  | cons c line ih =>
    rw [List.mem_cons, not_or] at h
    have hc : ¬ c = '\n' := fun hc => h.1 hc.symm
    simp [splitLines, hc, ih h.2]

/-- Lines that are joined by line feeds are found again. -/
theorem lines_intercalate {line : String} {rest : List String}
    (h : ∀ text ∈ line :: rest, IsLine text) (base : Nat) :
    (SourceMap.ofString ("\n".intercalate (line :: rest)) base).lines =
      (line :: rest).map String.toList := by
  induction rest generalizing line with
  | nil =>
    have hline : '\n' ∉ line.toList := h line List.mem_cons_self
    simp [SourceMap.ofString, SourceMap.ofText, splitLines_of_not_mem hline]
  | cons next rest ih =>
    obtain ⟨hline, hrest⟩ := List.forall_mem_cons.1 h
    have hjoin : ("\n".intercalate (line :: next :: rest)).toList =
        line.toList ++ '\n' :: ("\n".intercalate (next :: rest)).toList := by
      simp [String.intercalate_cons_cons]
    have hnext := ih hrest
    simp only [SourceMap.ofString, SourceMap.ofText] at hnext ⊢
    rw [hjoin, splitLines_append hline]
    simp only [List.map_cons, List.cons.injEq, true_and]
    simpa using hnext

end Counting

/-- The span ends at a position, and the map has locations for its begin and its end. -/
def SourceMap.Locates (m : SourceMap) (s : Span) : Prop :=
  ∃ finish, s.stop = .ok finish ∧ (m.locate s.base).isSome ∧ (m.locate finish).isSome

section Pictures

variable {base : Nat} {source : List Char}

theorem Span.StandsIn.locates {s : Span} {lo hi : Nat}
    (hf : base + byteLength source ≤ positionLimit) (h : s.StandsIn (IsPlace base source) lo hi) :
    (SourceMap.ofText source base).Locates s := by
  obtain ⟨l, -, hl, -⟩ := SourceMap.exists_locate h.base_place
  obtain ⟨l', -, hl', -⟩ := SourceMap.exists_locate h.stop_place
  exact ⟨_, Span.stop_of_fits (Nat.le_trans h.stop_place.le hf), Option.isSome_iff_exists.2 ⟨l, hl⟩,
    Option.isSome_iff_exists.2 ⟨l', hl'⟩⟩

/-- A span that is located has a picture of four lines. -/
theorem SourceMap.Locates.exists_picture {s : Span} {marker : Char} {note : Option String}
    (h : (ofText source base).Locates s) (hmarker : marker ≠ '\n')
    (hnote : ∀ text ∈ note, IsLine text) :
    ∃ lines, (ofText source base).picture s marker note = .ok lines ∧ lines.length = 4 ∧
      ∀ line ∈ lines, IsLine line := by
  obtain ⟨finish, hstop, hbase, -⟩ := h
  obtain ⟨start, hstart⟩ := Option.isSome_iff_exists.1 hbase
  have hshown : '\n' ∉ ((ofText source base).line start.line).getD [] := by
    cases hline : (ofText source base).line start.line with
    | none => exact List.not_mem_nil
    | some text => exact (line_ofText hline).1
  have hblank : ∀ n, '\n' ∉ List.replicate n ' ' := by
    intro n hmem
    exact absurd (List.eq_of_mem_replicate hmem) (by decide)
  have hmarks : ∀ n, '\n' ∉ List.replicate n marker := by
    intro n hmem
    exact hmarker (List.eq_of_mem_replicate hmem).symm
  have hbehind : IsLine (note.elim "" (" " ++ ·)) := by
    cases note with
    | none => exact List.not_mem_nil
    | some text => exact isLine_append_iff.2 ⟨by decide, hnote text rfl⟩
  refine ⟨_, by simp only [picture, hstop, hstart, bind, Except.bind]; rfl, rfl, ?_⟩
  have hgutter : IsLine (String.ofList (List.replicate (toString start.line).length ' ')) :=
    isLine_ofList_iff.2 (hblank _)
  have hrow : ∀ width, IsLine (markerRow start.column width marker) := by
    intro width
    rw [markerRow, isLine_ofList_iff, List.mem_append, not_or]
    exact ⟨hblank _, hmarks _⟩
  simp only [List.forall_mem_cons, Location.describe, isLine_append_iff, isLine_toString,
    isLine_ofList_iff.2 hshown, hgutter, hrow, hbehind]
  decide

/-- If every element has a result of `k` lines, so many lines come of a list of them. -/
theorem exists_mapM_lines {α ε : Type} {f : α → Except ε (List String)} {k : Nat} {items : List α}
    (h : ∀ a ∈ items, ∃ lines, f a = .ok lines ∧ lines.length = k ∧ ∀ line ∈ lines, IsLine line) :
    ∃ results, items.mapM f = .ok results ∧ results.flatten.length = k * items.length ∧
      ∀ line ∈ results.flatten, IsLine line := by
  induction items with
  | nil => exact ⟨[], rfl, rfl, by simp⟩
  | cons a items ih =>
    obtain ⟨hfirst, hrest⟩ := List.forall_mem_cons.1 h
    obtain ⟨lines, hlines, hk, hall⟩ := hfirst
    obtain ⟨results, hresults, hlen, hall'⟩ := ih hrest
    refine ⟨lines :: results, ?_, ?_, ?_⟩
    · rw [List.mapM_cons, hlines, hresults]
      rfl
    · rw [List.flatten_cons, List.length_append, hk, hlen, List.length_cons, Nat.mul_succ,
        Nat.add_comm]
    · rw [List.flatten_cons]
      exact List.forall_mem_append.2 ⟨hall, hall'⟩

theorem Diagnostic.span_of_spans {x : Diagnostic} {a : AnnotatedSpan} (h : x.spans = some a) :
    x.span = some a.main := by
  rw [span, h]
  rfl

theorem Diagnostic.remarks_of_spans {x : Diagnostic} {a : AnnotatedSpan} (h : x.spans = some a) :
    x.remarks = a.remarks := by
  rw [remarks, h]
  rfl

/-- A diagnostic whose spans are located is rendered to its headline and four lines for each of
them. -/
theorem Diagnostic.exists_render {x : Diagnostic} {a : AnnotatedSpan} (ha : x.spans = some a)
    (hmain : (SourceMap.ofText source base).Locates a.main)
    (hremarks : ∀ remark ∈ a.remarks,
      (SourceMap.ofText source base).Locates remark.span ∧ IsLine remark.note)
    (hheadline : IsLine x.headline) :
    ∃ text, x.render (SourceMap.ofText source base) = .ok text ∧
      (SourceMap.ofString text 0).lines.length = 1 + 4 * (1 + a.remarks.length) := by
  have hnone : ∀ text ∈ (none : Option String), IsLine text := fun _ h => by cases h
  obtain ⟨main, hpicture, hlength, hlines⟩ :=
    @SourceMap.Locates.exists_picture base source a.main '^' none hmain (by decide) hnone
  have hremark : ∀ remark ∈ a.remarks, ∃ lines,
      (SourceMap.ofText source base).picture remark.span '-' (some remark.note) = .ok lines ∧
        lines.length = 4 ∧ ∀ line ∈ lines, IsLine line := by
    intro remark hmem
    obtain ⟨hlocates, hnote⟩ := hremarks remark hmem
    refine hlocates.exists_picture (by decide) ?_
    rintro _ ⟨rfl⟩
    exact hnote
  obtain ⟨results, hresults, hlength', hlines'⟩ := exists_mapM_lines hremark
  refine ⟨"\n".intercalate (x.headline :: (main ++ results.flatten)), ?_, ?_⟩
  · simp only [render, renderedLines, ha, hpicture, hresults, bind, Except.bind]
    rfl
  · rw [lines_intercalate (List.forall_mem_cons.2 ⟨hheadline,
      List.forall_mem_append.2 ⟨hlines, hlines'⟩⟩)]
    simp only [List.length_map, List.length_cons, List.length_append, hlength, hlength']
    omega

/-- The diagnostic of an issue that points at places of the source is rendered, with four lines for
each of its spans. -/
theorem Issue.PointsIn.exists_render {i : Issue} {lo hi : Nat}
    (h : i.PointsIn (IsPlace base source) IsIdent lo hi)
    (hf : base + byteLength source ≤ positionLimit) :
    ∃ text, i.diagnostic.render (SourceMap.ofText source base) = .ok text ∧
      (SourceMap.ofString text 0).lines.length = 1 + 4 * (1 + i.diagnostic.remarks.length) := by
  obtain ⟨a, ha, hmain, hremarks⟩ := h.exists_spans
  have hnames : ∀ name ∈ i.names, IsLine name :=
    fun name hname => isLine_of_isIdent (h.names_word name hname)
  have hspans : i.diagnostic.spans = some a := ha
  rw [Diagnostic.remarks_of_spans hspans]
  refine Diagnostic.exists_render hspans (hmain.locates hf) ?_ (isLine_headline hnames)
  exact fun remark hmem => ⟨(hremarks remark hmem).locates hf, isLine_note hnames ha _ hmem⟩

end Pictures

namespace Target

variable {base : Nat} {source : String}

/-- The diagnostics of a parse point into the source one after the other: each has a main span,
which begins where that of the one before has ended, or later, and what it remarks on stands in
front of its main span. All these spans begin and end at locations of the source. So the rendered
text is the headline and a picture of four lines for each of them. -/
theorem parse_trail (target : Target) (d : Dialect) (extent : Extent)
    (hf : base + byteLength source.toList ≤ positionLimit) :
    ∃ outcome : target.Outcome, target.parse d extent source base = .ok outcome ∧
      (outcome.diagnostics.Pairwise fun x y => ∀ s t, x.span = some s → y.span = some t →
        s.base + s.len ≤ t.base) ∧
      ∀ x ∈ outcome.diagnostics, ∃ main, x.span = some main ∧
        (SourceMap.ofString source base).Locates main ∧
        (∀ remark ∈ x.remarks, (SourceMap.ofString source base).Locates remark.span ∧
          remark.span.base + remark.span.len ≤ main.base) ∧
        ∃ text, x.render (SourceMap.ofString source base) = .ok text ∧
          (SourceMap.ofString text 0).lines.length = 1 + 4 * (1 + x.remarks.length) := by
  obtain ⟨outcome, hp, hdiagnostics⟩ := target.exists_outcome d extent hf
  obtain ⟨stop, htrail⟩ := target.exists_trail_source d extent hf
  refine ⟨outcome, hp, ?_, ?_⟩
  · rw [hdiagnostics, List.pairwise_map]
    refine htrail.pairwise.imp ?_
    intro i j h s t hs ht
    obtain ⟨a, ha, rfl⟩ := Option.map_eq_some_iff.1 hs
    obtain ⟨b, hb, rfl⟩ := Option.map_eq_some_iff.1 ht
    exact h a b ha hb
  · rw [hdiagnostics]
    intro x hx
    obtain ⟨i, hi, rfl⟩ := List.mem_map.1 hx
    obtain ⟨lo, hi, -, hpoints⟩ := htrail.of_mem hi
    obtain ⟨a, ha, hmain, hremarks⟩ := hpoints.exists_spans
    have hspans : i.diagnostic.spans = some a := ha
    refine ⟨a.main, Diagnostic.span_of_spans hspans, hmain.locates hf, ?_,
      hpoints.exists_render hf⟩
    rw [Diagnostic.remarks_of_spans hspans]
    exact fun remark hmem => ⟨(hremarks remark hmem).locates hf, (hremarks remark hmem).le_hi⟩

/-- A scene, at position 7, with a token to skip, a branch that is declared twice, and no end. -/
theorem parse_trail_scene :
    let source := "scene s \x7b x branch b \x7b\x7d branch b \x7b\x7d"
    let diagnostics := [Issue.skipped ⟨.ident, "x", ⟨17, 1⟩⟩ "s",
      Issue.redefined "b" ⟨31, 11⟩ "s" ⟨19, 11⟩,
      Issue.unclosed ⟨.scene, ⟨7, 5⟩, "s"⟩ ⟨42, 0⟩].map Issue.diagnostic
    7 + byteLength source.toList ≤ positionLimit ∧
    Target.scene.parse .standard .whole source 7 = .ok (.error diagnostics) ∧
    (diagnostics.Pairwise fun x y => ∀ s t, x.span = some s → y.span = some t →
      s.base + s.len ≤ t.base) ∧
    ∀ x ∈ diagnostics, ∃ text, x.render (SourceMap.ofString source 7) = .ok text ∧
      (SourceMap.ofString text 0).lines.length = 1 + 4 * (1 + x.remarks.length) := by
  intro source diagnostics
  have hf : 7 + byteLength source.toList ≤ positionLimit := by decide
  have hitems : (Lexer.ofString source 7 .standard).items =
      [.token ⟨.keyword .scene, "scene", ⟨7, 5⟩⟩, .token ⟨.ident, "s", ⟨13, 1⟩⟩,
        .token ⟨.openBrace, "\x7b", ⟨15, 1⟩⟩, .token ⟨.ident, "x", ⟨17, 1⟩⟩,
        .token ⟨.keyword .branch, "branch", ⟨19, 6⟩⟩, .token ⟨.ident, "b", ⟨26, 1⟩⟩,
        .token ⟨.openBrace, "\x7b", ⟨28, 1⟩⟩, .token ⟨.closeBrace, "\x7d", ⟨29, 1⟩⟩,
        .token ⟨.keyword .branch, "branch", ⟨31, 6⟩⟩, .token ⟨.ident, "b", ⟨38, 1⟩⟩,
        .token ⟨.openBrace, "\x7b", ⟨40, 1⟩⟩, .token ⟨.closeBrace, "\x7d", ⟨41, 1⟩⟩] := by
    decide +kernel
  have hparse : Target.scene.parse .standard .whole source 7 = .ok (.error diagnostics) := by
    rw [parse_eq_rejected_iff hf, hitems]
    exact ⟨_, rfl, rfl⟩
  obtain ⟨outcome, hp, hpairwise, hall⟩ := parse_trail .scene .standard .whole hf
  cases hparse.symm.trans hp
  refine ⟨hf, hparse, hpairwise, fun x hx => ?_⟩
  obtain ⟨-, -, -, -, hrender⟩ := hall x hx
  exact hrender

end Target
end Scenario
