import Scenario.Proofs.Lexing.Tiling
import Scenario.Proofs.Outcome

/-!
# What parsing reports

The diagnostics of a parse are warnings, and behind them one error if there is no result. They do
not depend on the journal in which they are recorded.

The sources considered here have positions for all of their bytes. Such a source gives no fault, its
tokens are not empty, and the only thing wrong with it before it is parsed may be a literal without
an end. So an error about it either points at some of its text, or at the end of its last token.
-/

namespace Scenario

/-- A stream without tokens of kind `eof` ends behind its last token. -/
theorem Item.EndsAt.exists_contents {last stop : Span} {items : List Item}
    (h : EndsAt last items stop) (he : ∀ t, .token t ∈ items → t.kind ≠ .eof) :
    ∃ text, contents items = some text ∧
      stop = ⟨(Token.lastSpan last text).base + (Token.lastSpan last text).len, 0⟩ := by
  induction h with
  | nil => exact ⟨[], rfl, rfl⟩
  | comment hc _ ih =>
    rw [contents_comment hc]
    exact ih fun t ht => he t (List.mem_cons_of_mem _ ht)
  | eof hk => exact (he _ List.mem_cons_self hk).elim
  | @plain _ _ t rest hp _ ih =>
    obtain ⟨text, htext, hstop⟩ := ih fun t ht => he t (List.mem_cons_of_mem _ ht)
    exact ⟨t :: text, by rw [contents_plain hp, htext]; rfl, hstop⟩

namespace Issue

/-- The diagnostic of a warning is one. -/
theorem warning_of_mem_diagnostics {issues : List Issue} (h : ∀ i ∈ issues, i.IsWarning) :
    ∀ x ∈ issues.map diagnostic, x.level = .warning ∧ x.category = .other := by
  intro x hx
  obtain ⟨i, hi, rfl⟩ := List.mem_map.1 hx
  exact h i hi

/-- The diagnostic of an error has its category and its main span. -/
theorem IsError.diagnostic {category : Category} {spans : Span → Prop} {i : Issue}
    (h : i.IsError category spans) :
    i.diagnostic.category = category ∧ ∃ s, i.diagnostic.span = some s ∧ spans s := by
  obtain ⟨-, hc, a, ha, hs⟩ := h
  refine ⟨hc, a.main, ?_, hs⟩
  change i.spans.map AnnotatedSpan.main = some a.main
  rw [ha]
  rfl

/-- An error about the items of a tiling points at some of the text, or at the end of the last
token. -/
theorem EndsRun.diagnostic_of_tiling {base : Nat} {text : List Char} {tiles : List Tile}
    {collapse : Bool} {e : Issue} (ht : Tiling base text tiles)
    (h : EndsRun (fun s => s.Fits ∧ s.len ≠ 0) ⟨base, 0⟩ (Tile.items collapse false tiles) e) :
    (e.diagnostic.category = .malformed ∧ ∃ span, e.diagnostic.span = some span ∧ span.len ≠ 0) ∨
      e.diagnostic.category = .unexpectedEnd ∧
        ∃ tokens, Item.contents (Tile.items collapse false tiles) = some tokens ∧
          e.diagnostic.span = some ⟨(Token.lastSpan ⟨base, 0⟩ tokens).base +
            (Token.lastSpan ⟨base, 0⟩ tokens).len, 0⟩ := by
  cases h with
  | @lexical le hmem =>
    obtain ⟨hc, hlen⟩ := ht.error_of_mem_items hmem
    refine .inl ⟨?_, le.span, rfl, hlen⟩
    change le.cause.category = .malformed
    rw [hc]
    rfl
  | atToken hi =>
    obtain ⟨hc, span, hs, hgood⟩ := hi.diagnostic
    exact .inl ⟨hc, span, hs, hgood.2⟩
  | atEnd hend hi =>
    obtain ⟨hc, span, hs, rfl⟩ := hi.diagnostic
    obtain ⟨tokens, htokens, rfl⟩ :=
      hend.exists_contents fun t hmem => (ht.token_of_mem_items hmem).2.1
    exact .inr ⟨hc, tokens, htokens, hs⟩

end Issue

theorem Journal.hasFatal_recordAll_warnings {issues : List Issue}
    (h : ∀ i ∈ issues, i.IsWarning) :
    (Journal.empty.recordAll (issues.map Issue.diagnostic)).hasFatal = false := by
  simp only [hasFatal, entries_recordAll, empty, List.nil_append, List.any_eq_false, List.mem_map]
  rintro _ ⟨i, hi, rfl⟩
  rw [Issue.isFatal_diagnostic, Issue.isFatal, (h i hi).1]
  decide

theorem Journal.hasFatal_recordAll_error {issues : List Issue} {e : Issue} (h : e.level = .error) :
    (Journal.empty.recordAll ((issues ++ [e]).map Issue.diagnostic)).hasFatal = true := by
  have he : e.diagnostic.isFatal = true := by
    rw [Issue.isFatal_diagnostic, Issue.isFatal, h]
    rfl
  simp [hasFatal, empty, he]

namespace Target

variable {target : Target} {d : Dialect} {extent : Extent} {base : Nat} {source : String}

/-- Parsing a source that fits raises warnings, and ends in a result or with an error. -/
theorem meets_read_source (hf : base + byteLength source.toList ≤ positionLimit) :
    (target.read d extent base (Lexer.ofString source base d).items).Meets Issue.IsWarning
      (Issue.EndsRun (fun s => s.Fits ∧ s.len ≠ 0) ⟨base, 0⟩ (Lexer.ofString source base d).items)
      fun _ => True := by
  obtain ⟨tiles, ht⟩ := exists_tiling base source.toList
  have hitems : (Lexer.ofString source base d).items =
      Tile.items d.collapseStringWhitespace false tiles := ht.items_ofText hf d
  rw [hitems]
  refine meets_read Span.closed_nonempty (by omega) (fun t hmem _ => ?_)
    (Tiling.fault_not_mem_items tiles)
  obtain ⟨-, -, hlen, hle⟩ := ht.token_of_mem_items hmem
  exact ⟨Nat.le_trans hle hf, hlen⟩

/-- A parse of a source that fits either succeeds or is rejected, and reports what it raised. -/
theorem parse_cases (hf : base + byteLength source.toList ≤ positionLimit) :
    (∃ issues value, (∀ i ∈ issues, i.IsWarning) ∧
      target.read d extent base (Lexer.ofString source base d).items = ⟨issues, .ok value⟩ ∧
      target.parse d extent source base = .ok (.ok ⟨value, issues.map Issue.diagnostic⟩)) ∨
    (∃ ws e, (∀ i ∈ ws, i.IsWarning) ∧
      Issue.EndsRun (fun s => s.Fits ∧ s.len ≠ 0) ⟨base, 0⟩ (Lexer.ofString source base d).items e ∧
      target.read d extent base (Lexer.ofString source base d).items =
        ⟨ws ++ [e], .error .rejected⟩ ∧
      target.parse d extent source base = .ok (.error ((ws ++ [e]).map Issue.diagnostic))) := by
  have hm := @meets_read_source target d extent base source hf
  unfold parse readInto
  generalize target.read d extent base (Lexer.ofString source base d).items = verdict at hm ⊢
  obtain ⟨issues, result⟩ := verdict
  match result with
  | .error (.fault f) => exact hm.elim
  | .error .rejected =>
    obtain ⟨ws, e, rfl, hw, he⟩ := hm
    refine .inr ⟨ws, e, hw, he, rfl, ?_⟩
    dsimp only
    rw [if_pos (Journal.hasFatal_recordAll_error he.level_eq)]
    rfl
  | .ok value =>
    refine .inl ⟨issues, value, hm.1, rfl, ?_⟩
    dsimp only
    rw [if_neg (by simp [Journal.hasFatal_recordAll_warnings hm.1])]
    rfl

/-- Parsing a source succeeds with the result of its items and the issues raised on the way. -/
theorem parse_eq_ok_iff (hf : base + byteLength source.toList ≤ positionLimit)
    {value : target.Node} {warnings : List Diagnostic} :
    target.parse d extent source base = .ok (.ok ⟨value, warnings⟩) ↔
      ∃ issues, target.read d extent base (Lexer.ofString source base d).items =
        ⟨issues, .ok value⟩ ∧ warnings = issues.map Issue.diagnostic := by
  rcases @parse_cases target d extent base source hf with
    ⟨issues, v, -, hr, hp⟩ | ⟨ws, e, -, -, hr, hp⟩
  · rw [hr, hp]
    constructor
    · intro h
      cases h
      exact ⟨issues, rfl, rfl⟩
    · rintro ⟨_, h, rfl⟩
      cases h
      rfl
  · rw [hr, hp]
    constructor
    · intro h
      cases h
    · rintro ⟨_, h, rfl⟩
      cases h

/-- Parsing a source is rejected with the diagnostics of the run over its items. -/
theorem parse_eq_rejected_iff (hf : base + byteLength source.toList ≤ positionLimit)
    {diagnostics : List Diagnostic} :
    target.parse d extent source base = .ok (.error diagnostics) ↔
      ∃ issues, target.read d extent base (Lexer.ofString source base d).items =
        ⟨issues, .error .rejected⟩ ∧ diagnostics = issues.map Issue.diagnostic := by
  rcases @parse_cases target d extent base source hf with
    ⟨issues, v, -, hr, hp⟩ | ⟨ws, e, -, -, hr, hp⟩
  · rw [hr, hp]
    constructor
    · intro h
      cases h
    · rintro ⟨_, h, rfl⟩
      cases h
  · rw [hr, hp]
    constructor
    · intro h
      cases h
      exact ⟨ws ++ [e], rfl, rfl⟩
    · rintro ⟨_, h, rfl⟩
      cases h
      rfl

/-- Recording the diagnostics of a stream adds them to the journal, whatever it holds: warnings, and
an error behind them exactly if there is no result. For a source there is always an answer: a result
with warnings, or warnings and an error. That error is about a part of the source that is not empty,
or it stands at the end of the last token. -/
theorem parse_protocol (target : Target) (d : Dialect) (extent : Extent) (base : Nat) :
    (∀ items, base ≤ positionLimit → (∀ t, Item.token t ∈ items → t.span.Fits) →
      (∀ f, Item.fault f ∉ items) →
      ∃ result appended,
        (∀ journal, target.readInto d extent base items journal =
          (result, journal.recordAll appended)) ∧
        ((∃ value, result = .ok value ∧ ∀ x ∈ appended, x.level = .warning) ∨
          result = .error .rejected ∧ ∃ warnings e, appended = warnings ++ [e] ∧
            (∀ x ∈ warnings, x.level = .warning) ∧ e.level = .error)) ∧
    (∀ source : String, base + byteLength source.toList ≤ positionLimit →
      (∃ parsed, target.parse d extent source base = .ok (.ok parsed) ∧
        ∀ x ∈ parsed.warnings, x.level = .warning ∧ x.category = .other) ∨
      (∃ warnings e, target.parse d extent source base = .ok (.error (warnings ++ [e])) ∧
        (∀ x ∈ warnings, x.level = .warning ∧ x.category = .other) ∧ e.level = .error ∧
        ((e.category = .malformed ∧ ∃ span, e.span = some span ∧ span.len ≠ 0) ∨
          e.category = .unexpectedEnd ∧
            ∃ text, Item.contents (Lexer.ofString source base d).items = some text ∧
              e.span = some ⟨(Token.lastSpan ⟨base, 0⟩ text).base +
                (Token.lastSpan ⟨base, 0⟩ text).len, 0⟩))) := by
  constructor
  · intro items hb ht hf
    have hm := @meets_read _ d Span.closed_fits target extent base items hb (fun t h _ => ht t h) hf
    refine ⟨_, _, fun journal => rfl, ?_⟩
    generalize target.read d extent base items = verdict at hm ⊢
    obtain ⟨issues, result⟩ := verdict
    match result with
    | .error (.fault f) => exact hm.elim
    | .error .rejected =>
      obtain ⟨ws, e, rfl, hw, he⟩ := hm
      refine .inr ⟨rfl, ws.map Issue.diagnostic, e.diagnostic, by simp, ?_, he.level_eq⟩
      exact fun x hx => (Issue.warning_of_mem_diagnostics hw x hx).1
    | .ok value =>
      exact .inl ⟨value, rfl, fun x hx => (Issue.warning_of_mem_diagnostics hm.1 x hx).1⟩
  · intro source hf
    obtain ⟨tiles, ht⟩ := exists_tiling base source.toList
    have hitems : (Lexer.ofString source base d).items =
        Tile.items d.collapseStringWhitespace false tiles := ht.items_ofText hf d
    rcases @parse_cases target d extent base source hf with
      ⟨issues, value, hw, -, hp⟩ | ⟨ws, e, hw, he, -, hp⟩
    · exact .inl ⟨_, hp, Issue.warning_of_mem_diagnostics hw⟩
    · rw [hitems] at he ⊢
      exact .inr ⟨ws.map Issue.diagnostic, e.diagnostic, by simpa using hp,
        Issue.warning_of_mem_diagnostics hw, he.level_eq, he.diagnostic_of_tiling ht⟩

/-- A scene of which there is only the keyword is rejected, as a stream and as a source. -/
theorem parse_protocol_unfinished :
    (∃ e, Target.scene.readInto .strict .whole 0 [.token ⟨.keyword .scene, "scene", ⟨0, 5⟩⟩]
      .empty = (.error .rejected, ⟨[e]⟩) ∧ e.level = .error) ∧
    ((∃ parsed, Target.scene.parse .strict .whole "scene" 0 = .ok (.ok parsed)) ∨
      ∃ warnings e, Target.scene.parse .strict .whole "scene" 0 = .ok (.error (warnings ++ [e])) ∧
        e.level = .error) := by
  have h := parse_protocol .scene .strict .whole 0
  constructor
  · obtain ⟨result, appended, hj, hcases⟩ :=
      h.1 [.token ⟨.keyword .scene, "scene", ⟨0, 5⟩⟩] (by decide) (by simp; decide) (by simp)
    have hempty := hj .empty
    rcases hcases with ⟨value, rfl, -⟩ | ⟨rfl, warnings, e, rfl, -, he⟩
    · cases congrArg Prod.fst hempty
    · have hlen : 1 = (warnings ++ [e]).length :=
        congrArg (fun r => r.2.entries.length) hempty
      obtain rfl : warnings = [] := List.length_eq_zero_iff.1 (by simpa using hlen.symm)
      exact ⟨e, hempty, he⟩
  · rcases h.2 "scene" (by decide) with ⟨parsed, hp, -⟩ | ⟨warnings, e, hp, -, he, -⟩
    · exact .inl ⟨parsed, hp⟩
    · exact .inr ⟨warnings, e, hp, he⟩

end Target
end Scenario
