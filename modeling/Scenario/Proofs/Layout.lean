import Scenario.Proofs.Agreement

/-!
# Layout is invisible

How a script is laid out, and what its comments say, does not matter to a parser. Streams that show
the same items, once comments are left out, are parsed alike wherever their tokens stand: all that
differs between the results are spans.

The runs are coupled along the relation between any two spans that fit. That the results are equal
and the diagnostics have the same sense is what is left of the coupling then.

Main statement: `Target.readInto_of_alike`.
-/

namespace Scenario

namespace Item

/-- The items show the same, in whatever places. -/
inductive Alike : Item → Item → Prop
  | token {t t' : Token} :
      t.kind = t'.kind → t.value = t'.value → Alike (.token t) (.token t')
  | error {e e' : LexicalError} : e.cause = e'.cause → Alike (.error e) (.error e')

/-- The place of the item does not reach beyond the last position. -/
def Fits : Item → Prop
  | token t => t.span.Fits
  | error e => e.span.Fits
  | fault _ => True

def isComment : Item → Bool
  | token t => t.kind = .comment
  | _ => false

/-- The items of a stream but for its comments. -/
def uncommented (items : List Item) : List Item := items.filter (!·.isComment)

theorem coupled_of_alike {items items' : List Item} (h : List.Forall₂ Alike items items')
    (hf : ∀ item ∈ items, item.Fits) (hf' : ∀ item ∈ items', item.Fits) :
    List.Forall₂ (Coupled fun s s' => s.Fits ∧ s'.Fits) items items' := by
  induction h with
  | nil => exact .nil
  | @cons item item' rest rest' hitem _ ih =>
    obtain ⟨hitemFits, hrest⟩ := List.forall_mem_cons.1 hf
    obtain ⟨hitemFits', hrest'⟩ := List.forall_mem_cons.1 hf'
    refine .cons ?_ (ih hrest hrest')
    cases hitem with
    | token hkind hvalue => exact .token ⟨hkind, fun _ => hvalue, hitemFits, hitemFits'⟩
    | error hcause => exact .error ⟨hcause, hitemFits, hitemFits'⟩

theorem fault_not_mem_of_alike {items items' : List Item} (h : List.Forall₂ Alike items items')
    (f : Fault) : .fault f ∉ items := by
  induction h with
  | nil => exact List.not_mem_nil
  | cons hitem _ ih =>
    rw [List.mem_cons, not_or]
    refine ⟨?_, ih⟩
    rintro rfl
    cases hitem

end Item

theorem Span.coupling_fits : Coupling fun s s' => s.Fits ∧ s'.Fits where
  union s s' t t' hs ht := by
    refine ⟨_, _, union_of_fits hs.1 ht.1, union_of_fits hs.2 ht.2, ?_⟩
    simp only [Fits] at *
    omega
  shrinkToEnd s s' hs := by
    refine ⟨_, _, shrinkToEnd_of_fits hs.1, shrinkToEnd_of_fits hs.2, ?_⟩
    simpa only [Fits, Nat.add_zero] using hs

/-- A run passes over comments. -/
theorem Machine.run_uncommented {σ α : Type} (m : Machine σ α) (w : Wait σ) (items : List Item) :
    m.run w (Item.uncommented items) = m.run w items := by
  induction items generalizing w with
  | nil => rfl
  | cons item items ih =>
    by_cases hc : item.isComment = true
    · rw [Item.uncommented, List.filter_cons_of_neg (by simp [hc])]
      cases item with
      | token t =>
        have hkind : t.kind = .comment := by simpa [Item.isComment] using hc
        rw [run_comment hkind]
        exact ih w
      | error e => cases hc
      | fault f => cases hc
    · rw [Item.uncommented, List.filter_cons_of_pos (by simpa using hc), run, run]
      refine congrArg _ (funext fun turn => ?_)
      cases turn with
      | done value => rfl
      | more w => exact ih w

namespace Target

variable {items items' : List Item} {base base' : Nat}

/-- Streams that are alike, comments aside, are parsed alike: both parses succeed with equal values,
or both are rejected, and the diagnostics have the same senses. -/
theorem readInto_of_alike (target : Target) (d : Dialect) (extent : Extent)
    (hb : base ≤ positionLimit) (hb' : base' ≤ positionLimit)
    (h : List.Forall₂ Item.Alike (Item.uncommented items) (Item.uncommented items'))
    (hf : ∀ item ∈ Item.uncommented items, item.Fits)
    (hf' : ∀ item ∈ Item.uncommented items', item.Fits) :
    ∃ result result' diagnostics diagnostics',
      (∀ journal, target.readInto d extent base items journal =
        (result, journal.recordAll diagnostics)) ∧
      (∀ journal, target.readInto d extent base' items' journal =
        (result', journal.recordAll diagnostics')) ∧
      ((∃ value value', result = .ok value ∧ result' = .ok value' ∧ (value == value') = true) ∨
        result = .error .rejected ∧ result' = .error .rejected) ∧
      diagnostics.map Diagnostic.sense = diagnostics'.map Diagnostic.sense := by
  have hread := coupled_read Span.coupling_fits ⟨hb, hb'⟩ (Item.coupled_of_alike h hf hf') target d
    extent
  have hmeets := @meets_read _ d Span.closed_fits target extent base _ hb
    (fun t ht _ => hf (.token t) ht) (Item.fault_not_mem_of_alike h)
  simp only [read, Machine.read, Machine.run_uncommented] at hread hmeets
  refine ⟨_, _, _, _, fun _ => rfl, fun _ => rfl, ?_⟩
  simp only [read, Machine.read]
  generalize (target.machine d extent).run _ items = verdict at hread hmeets ⊢
  generalize (target.machine d extent).run _ items' = verdict' at hread ⊢
  cases hread with
  | ok hissues hvalue => exact ⟨.inl ⟨_, _, rfl, rfl, hvalue.beq⟩, Issue.senses_eq hissues⟩
  | error stop hissues =>
    cases stop with
    | rejected => exact ⟨.inr ⟨rfl, rfl⟩, Issue.senses_eq hissues⟩
    | fault f => exact hmeets.elim

/-- An author in a source with a comment, and the same author as tokens that all stand in one
place. -/
theorem readInto_of_alike_author :
    let commented : List Item :=
      (Lexer.ofString "# first\nauthor a \x7b \"x\" \x7d" 7 .standard).withComments.items
    let bare : List Item := [.token ⟨.keyword .author, "author", ⟨0, 0⟩⟩,
      .token ⟨.ident, "a", ⟨0, 0⟩⟩, .token ⟨.openBrace, "\x7b", ⟨0, 0⟩⟩,
      .token ⟨.str, "x", ⟨0, 0⟩⟩, .token ⟨.closeBrace, "\x7d", ⟨0, 0⟩⟩]
    ∃ value value',
      (Target.author.readInto .standard .whole 7 commented .empty).1 = .ok value ∧
      (Target.author.readInto .standard .whole 0 bare .empty).1 = .ok value' ∧
      (value == value') = true := by
  intro commented bare
  have hcommented : Item.uncommented commented = [.token ⟨.keyword .author, "author", ⟨15, 6⟩⟩,
      .token ⟨.ident, "a", ⟨22, 1⟩⟩, .token ⟨.openBrace, "\x7b", ⟨24, 1⟩⟩,
      .token ⟨.str, "x", ⟨26, 3⟩⟩, .token ⟨.closeBrace, "\x7d", ⟨30, 1⟩⟩] := by
    decide +kernel
  have halike : List.Forall₂ Item.Alike (Item.uncommented commented) (Item.uncommented bare) := by
    rw [hcommented]
    exact .cons (.token rfl rfl) (.cons (.token rfl rfl) (.cons (.token rfl rfl)
      (.cons (.token rfl rfl) (.cons (.token rfl rfl) .nil))))
  have hfits : ∀ item ∈ Item.uncommented commented, item.Fits := by
    rw [hcommented]
    simp [Item.Fits, Span.Fits, positionLimit]
  have hfits' : ∀ item ∈ Item.uncommented bare, item.Fits := by
    simp [bare, Item.uncommented, Item.isComment, Item.Fits, Span.Fits]
  have hbase : 7 ≤ positionLimit := by decide
  have hbase' : 0 ≤ positionLimit := by decide
  obtain ⟨result, result', _, _, hread, hread', hcases, -⟩ :=
    readInto_of_alike .author .standard .whole hbase hbase' halike hfits hfits'
  have hbare : (Target.author.readInto .standard .whole 0 bare .empty).1 = .ok ⟨"a", ⟨0, 0⟩⟩ := rfl
  rw [hread, hread']
  rw [hread'] at hbare
  rcases hcases with h | ⟨-, rfl⟩
  · exact h
  · cases hbare

end Target
end Scenario
