import Scenario.Proofs.Coupling.Targets
import Scenario.Proofs.Reports

/-!
# Parses that agree

Two parses agree if both succeed, or both are rejected, with values and diagnostics that are in some
relation one by one. Parses of sources whose items are coupled agree: their values are coupled, and
so are their diagnostics.

What a diagnostic says, apart from the places it points at, is its sense.
-/

namespace Scenario

/-- What a diagnostic says: its level, category and message, and the notes on its spans, if it
points at any. -/
def Diagnostic.sense (x : Diagnostic) : Level × Category × String × Option (List String) :=
  (x.level, x.category, x.message, x.spans.map fun a => a.remarks.map Remark.note)

theorem Diagnostic.Coupled.sense_eq {R : Span → Span → Prop} {x x' : Diagnostic}
    (h : x.Coupled R x') : x.sense = x'.sense := by
  obtain ⟨level, category, message, spans⟩ := x
  obtain ⟨level', category', message', spans'⟩ := x'
  obtain ⟨rfl, rfl, rfl, hspans⟩ := h
  cases hspans with
  | none => rfl
  | @some a a' ha =>
    have hnotes : a.remarks.map Remark.note = a'.remarks.map Remark.note :=
      map_eq_map_of_forall₂ (fun _ _ hr => hr.note_eq) ha.remarks
    simp only [sense, Option.map_some, hnotes]

theorem Issue.senses_eq {R : Span → Span → Prop} {is js : List Issue}
    (h : List.Forall₂ (Coupled R) is js) :
    (is.map diagnostic).map Diagnostic.sense = (js.map diagnostic).map Diagnostic.sense :=
  map_eq_map_of_forall₂ (fun _ _ hx => hx.sense_eq) (coupled_diagnostics h)

namespace Target

/-- What comes of a parse: a value with warnings on it, or the diagnostics with which it was
rejected. -/
abbrev Outcome (target : Target) : Type := Except (List Diagnostic) (Parsed target.Node)

variable {target : Target}

/-- The diagnostics that come of a parse. -/
def Outcome.diagnostics : target.Outcome → List Diagnostic
  | .ok parsed => parsed.warnings
  | .error diagnostics => diagnostics

/-- Parses whose items are read to the same verdict are the same. -/
theorem parse_congr {d d' : Dialect} {extent extent' : Extent} {source source' : String}
    {base base' : Nat}
    (h : target.read d extent base (Lexer.ofString source base d).items =
      target.read d' extent' base' (Lexer.ofString source' base' d').items) :
    target.parse d extent source base = target.parse d' extent' source' base' := by
  unfold parse readInto
  rw [h]

/-- A run that is rejected with an error makes the parse of the source be rejected with it. -/
theorem parse_of_rejected {d : Dialect} {extent : Extent} {source : String} {base : Nat}
    {issues : List Issue} {e : Issue}
    (h : target.read d extent base (Lexer.ofString source base d).items =
      ⟨issues ++ [e], .error .rejected⟩) (he : e.level = .error) :
    target.parse d extent source base =
      .ok (.error (issues.map Issue.diagnostic ++ [e.diagnostic])) := by
  unfold parse readInto
  rw [h]
  dsimp only
  rw [if_pos (Journal.hasFatal_recordAll_error he), List.map_append]
  rfl

/-- Parsing a source that fits has an outcome, whose diagnostics are those of the run over the
items. -/
theorem exists_outcome (target : Target) (d : Dialect) (extent : Extent) {source : String}
    {base : Nat} (hf : base + byteLength source.toList ≤ positionLimit) :
    ∃ outcome : target.Outcome, target.parse d extent source base = .ok outcome ∧
      outcome.diagnostics =
        (target.read d extent base (Lexer.ofString source base d).items).issues.map
          Issue.diagnostic := by
  rcases @parse_cases target d extent base source hf with
    ⟨issues, value, -, hr, hp⟩ | ⟨ws, e, -, -, hr, hp⟩
  · exact ⟨_, hp, by rw [hr]; rfl⟩
  · exact ⟨_, hp, by rw [hr]; rfl⟩

/-- The outcomes are of one sort. Their values are in the relation `S`, and their diagnostics are in
the relation `T` one by one. -/
inductive Outcome.Agree (S : target.Node → target.Node → Prop)
    (T : Diagnostic → Diagnostic → Prop) : target.Outcome → target.Outcome → Prop
  | ok {value value' : target.Node} {warnings warnings' : List Diagnostic} :
      S value value' → List.Forall₂ T warnings warnings' →
      Agree S T (.ok ⟨value, warnings⟩) (.ok ⟨value', warnings'⟩)
  | error {diagnostics diagnostics' : List Diagnostic} :
      List.Forall₂ T diagnostics diagnostics' →
      Agree S T (.error diagnostics) (.error diagnostics')

theorem Outcome.Agree.mono {S S' : target.Node → target.Node → Prop}
    {T T' : Diagnostic → Diagnostic → Prop} {outcome outcome' : target.Outcome}
    (h : Agree S T outcome outcome') (hS : ∀ a b, S a b → S' a b) (hT : ∀ x y, T x y → T' x y) :
    Agree S' T' outcome outcome' := by
  cases h with
  | ok hv hx => exact .ok (hS _ _ hv) (hx.imp hT)
  | error hx => exact .error (hx.imp hT)

/-- Sources that fit are parsed with outcomes that agree if their items are read to verdicts that
are coupled. -/
theorem exists_agree_of_read {R : Span → Span → Prop} {source source' : String} {base base' : Nat}
    {d d' : Dialect} {extent : Extent} (hf : base + byteLength source.toList ≤ positionLimit)
    (hf' : base' + byteLength source'.toList ≤ positionLimit)
    (hread : (target.read d extent base (Lexer.ofString source base d).items).Coupled R
      (target.Coupled R) (target.read d' extent base' (Lexer.ofString source' base' d').items)) :
    ∃ outcome outcome' : target.Outcome, target.parse d extent source base = .ok outcome ∧
      target.parse d' extent source' base' = .ok outcome' ∧
      Outcome.Agree (target.Coupled R) (Diagnostic.Coupled R) outcome outcome' := by
  generalize hv : target.read d' extent base' _ = verdict at hread
  rcases @parse_cases target d extent base source hf with
    ⟨issues, value, -, hr, hp⟩ | ⟨ws, e, -, -, hr, hp⟩
  · rw [hr] at hread
    cases hread with
    | ok hissues hvalue =>
      exact ⟨_, _, hp, (parse_eq_ok_iff hf').2 ⟨_, hv, rfl⟩,
        .ok hvalue (Issue.coupled_diagnostics hissues)⟩
  · rw [hr] at hread
    cases hread with
    | error _ hissues =>
      exact ⟨_, _, hp, (parse_eq_rejected_iff hf').2 ⟨_, hv, rfl⟩,
        .error (Issue.coupled_diagnostics hissues)⟩

/-- Sources that fit and have coupled items are parsed with outcomes that agree. -/
theorem parse_agree {R : Span → Span → Prop} (hR : Span.Coupling R) {source source' : String}
    {base base' : Nat} {d : Dialect} (hf : base + byteLength source.toList ≤ positionLimit)
    (hf' : base' + byteLength source'.toList ≤ positionLimit) (hb : R ⟨base, 0⟩ ⟨base', 0⟩)
    (hi : List.Forall₂ (Item.Coupled R) (Lexer.ofString source base d).items
      (Lexer.ofString source' base' d).items) (target : Target) (extent : Extent) :
    ∃ outcome outcome' : target.Outcome, target.parse d extent source base = .ok outcome ∧
      target.parse d extent source' base' = .ok outcome' ∧
      Outcome.Agree (target.Coupled R) (Diagnostic.Coupled R) outcome outcome' :=
  exists_agree_of_read hf hf' (coupled_read hR hb hi target d extent)

end Target
end Scenario
