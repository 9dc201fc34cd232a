import Scenario.Parser.OpenDocument
import Scenario.Proofs.Coupling.Script
import Scenario.Proofs.Run

/-!
# Coupled steps

Coupled states take coupled steps at coupled tokens. This is shown for a part of a script after the
other, from declarations up to documents, and carries over to whole runs: on coupled streams a
machine comes to coupled results, and raises coupled issues on the way.

Main statement: `Machine.Respects.run`.
-/

namespace Scenario

section Data

variable (R : Span → Span → Prop)

inductive Turn.Coupled {ρ ρ' α β : Type} (S : ρ → ρ' → Prop) (T : α → β → Prop) :
    Turn ρ α → Turn ρ' β → Prop
  | more {r : ρ} {r' : ρ'} : S r r' → Coupled S T (.more r) (.more r')
  | done {a : α} {b : β} : T a b → Coupled S T (.done a) (.done b)

inductive Declaration.Coupled : Declaration → Declaration → Prop
  | opened {span span' : Span} (keyword : Keyword) :
      R span span' → Coupled (opened keyword span) (opened keyword span')
  | named {header header' : Header} :
      header.Coupled R header' → Coupled (named header) (named header')
  | inside {header header' : Header} (depth : Nat) :
      header.Coupled R header' → Coupled (inside header depth) (inside header' depth)

inductive LoneAuthor.Coupled : LoneAuthor → LoneAuthor → Prop
  | reading {decl decl' : Declaration} :
      decl.Coupled R decl' → Coupled (reading decl) (reading decl')
  | stray {author author' : Header} {opened opened' : Span} :
      author.Coupled R author' → R opened opened' →
      Coupled (stray author opened) (stray author' opened')

structure SceneDraft.Coupled (s s' : SceneDraft) : Prop where
  header : s.header.Coupled R s'.header
  authors : List.Forall₂ (Author.Coupled R) s.authors s'.authors
  branches : s.branches.Coupled (Branch.Coupled R) s'.branches

inductive Place.Coupled : Place → Place → Prop
  | items : Coupled items items
  | author {decl decl' : Declaration} :
      decl.Coupled R decl' → Coupled (author decl) (author decl')
  | branch {host host' : Option Header} {decl decl' : Declaration} :
      Option.Rel (Header.Coupled R) host host' → decl.Coupled R decl' →
      Coupled (branch host decl) (branch host' decl')

inductive OpenScene.Coupled : OpenScene → OpenScene → Prop
  | opened {span span' : Span} : R span span' → Coupled (opened span) (opened span')
  | named {header header' : Header} :
      header.Coupled R header' → Coupled (named header) (named header')
  | inside {s s' : SceneDraft} {place place' : Place} :
      s.Coupled R s' → place.Coupled R place' → Coupled (inside s place) (inside s' place')

/-- The second run has read the scenes and authors of `before` first. -/
inductive OpenDocument.Coupled (before : Document) : OpenDocument → OpenDocument → Prop
  | items {document document' : Document} :
      Document.CoupledBehind R before document document' →
      Coupled before (items document) (items document')
  | author {document document' : Document} {a a' : LoneAuthor} :
      Document.CoupledBehind R before document document' → a.Coupled R a' →
      Coupled before (author document a) (author document' a')
  | scene {document document' : Document} {s s' : OpenScene} :
      Document.CoupledBehind R before document document' → s.Coupled R s' →
      Coupled before (scene document s) (scene document' s')

end Data

variable {R : Span → Span → Prop} {d : Dialect} {t t' : Token}

namespace Verdict

theorem coupled_expected {α β : Type} {S : α → β → Prop} (kinds : List Kind)
    (ht : t.Coupled R t') :
    (reject (.expected kinds t) : Verdict α).Coupled R S
      (reject (.expected kinds t') : Verdict β) :=
  coupled_reject (.expected kinds ht)

end Verdict

namespace Declaration

variable {decl decl' : Declaration}

theorem Coupled.enter (h : decl.Coupled R decl') (ht : t.Coupled R t') :
    (decl.enter d t).Coupled R (decl'.enter d t') := by
  cases h with
  | opened keyword hs => exact .opened keyword hs
  | inside depth hh => exact .inside depth hh
  | named hh =>
    simp only [Declaration.enter, ht.kind_eq]
    split
    · exact .inside 0 hh
    · exact .named hh

theorem Coupled.step (h : decl.Coupled R decl') (ht : t.Coupled R t') :
    (decl.step d t).Coupled R
      (Turn.Coupled (Coupled R) fun last last' => last.1.Coupled R last'.1 ∧ R last.2 last'.2)
      (decl'.step d t') := by
  have he : (decl.enter d t).Coupled R (decl'.enter d t') := h.enter ht
  unfold Declaration.step
  generalize decl.enter d t = entered at he ⊢
  generalize decl'.enter d t' = entered' at he ⊢
  obtain ⟨kind, value, span⟩ := t
  obtain ⟨kind', value', span'⟩ := t'
  obtain rfl : kind = kind' := ht.kind_eq
  cases he with
  | opened keyword hs =>
    cases kind with
    | ident =>
      obtain rfl : value = value' := ht.value_eq (by simp)
      exact Verdict.coupled_pure (.more (.named ⟨rfl, hs, rfl⟩))
    | _ => exact Verdict.coupled_expected _ ht
  | named hh =>
    cases kind with
    | openBrace => exact Verdict.coupled_pure (.more (.inside 0 hh))
    | _ => exact Verdict.coupled_expected _ ht
  | inside depth hh =>
    cases kind with
    | closeBrace =>
      cases depth with
      | zero => exact Verdict.coupled_pure (.done ⟨hh, ht.span⟩)
      | succ depth => exact Verdict.coupled_pure (.more (.inside depth hh))
    | openBrace => exact Verdict.coupled_pure (.more (.inside _ hh))
    | _ => exact Verdict.coupled_pure (.more (.inside depth hh))

theorem Coupled.branchPlace? (h : decl.Coupled R decl') (ht : t.Coupled R t') :
    Option.Rel (Header.Coupled R) (decl.branchPlace? d t) (decl'.branchPlace? d t') := by
  have he : (decl.enter d t).Coupled R (decl'.enter d t') := h.enter ht
  unfold Declaration.branchPlace?
  generalize decl.enter d t = entered at he ⊢
  generalize decl'.enter d t' = entered' at he ⊢
  obtain ⟨kind, value, span⟩ := t
  obtain ⟨kind', value', span'⟩ := t'
  obtain rfl : kind = kind' := ht.kind_eq
  cases he with
  | opened keyword hs => exact .none
  | named hh => exact .none
  | inside depth hh =>
    cases depth with
    | succ depth => exact .none
    | zero =>
      cases kind with
      | keyword keyword =>
        cases keyword with
        | branch => exact .some hh
        | _ => exact .none
      | _ => exact .none

theorem Coupled.unfinished {stop stop' : Span} (h : decl.Coupled R decl') (hs : R stop stop') :
    (decl.unfinished d stop).Coupled R (decl'.unfinished d stop') := by
  have heof := Token.coupled_eof hs
  have he : (decl.enter d (.eof stop)).Coupled R (decl'.enter d (.eof stop')) := h.enter heof
  unfold Declaration.unfinished
  generalize decl.enter d (.eof stop) = entered at he ⊢
  generalize decl'.enter d (.eof stop') = entered' at he ⊢
  cases he with
  | opened keyword _ => exact .expected _ heof
  | named _ => exact .expected _ heof
  | inside depth hh => exact .unclosed hh hs

end Declaration

namespace LoneAuthor

variable {a a' : LoneAuthor}

theorem Coupled.step (hR : Span.Coupling R) (h : a.Coupled R a') (ht : t.Coupled R t') :
    (a.step d t).Coupled R
      (Verdict.Coupled R (Turn.Coupled (Coupled R) (Author.Coupled R))) (a'.step d t') := by
  cases h with
  | @stray author author' opened opened' hh hs =>
    obtain ⟨kind, value, span⟩ := t
    obtain ⟨kind', value', span'⟩ := t'
    obtain rfl : kind = kind' := ht.kind_eq
    cases kind with
    | ident =>
      obtain rfl : value = value' := ht.value_eq (by simp)
      obtain ⟨u, u', hu, hu', huu⟩ := hR.union _ _ _ _ hs ht.span
      simp only [LoneAuthor.step, rejectBranch, hu, hu']
      exact Verdict.coupled_pure (Verdict.coupled_reject (.strayBranch value huu hh))
    | _ => exact Verdict.coupled_expected _ ht
  | @reading decl decl' hd =>
    have hb : Option.Rel (Header.Coupled R) (decl.branchPlace? d t) (decl'.branchPlace? d t') :=
      hd.branchPlace? ht
    simp only [LoneAuthor.step]
    generalize decl.branchPlace? d t = place at hb ⊢
    generalize decl'.branchPlace? d t' = place' at hb ⊢
    cases hb with
    | some hh => exact Verdict.coupled_pure (Verdict.coupled_pure (.more (.stray hh ht.span)))
    | none =>
      apply (hd.step ht).bind
      intro turn turn' hturn
      cases hturn with
      | more hd => exact Verdict.coupled_pure (Verdict.coupled_pure (.more (.reading hd)))
      | done hlast =>
        refine Verdict.coupled_pure ((Verdict.coupled_union hR hlast.1.opened hlast.2).bind ?_)
        intro span span' hs
        exact Verdict.coupled_pure (.done ⟨hlast.1.id_eq, hs⟩)

theorem Coupled.unfinished {stop stop' : Span} (h : a.Coupled R a') (hs : R stop stop') :
    (a.unfinished d stop).Coupled R (a'.unfinished d stop') := by
  cases h with
  | reading hd => exact hd.unfinished hs
  | stray _ _ => exact .expected _ (Token.coupled_eof hs)

end LoneAuthor

namespace SceneDraft

variable {s s' : SceneDraft}

theorem Coupled.addAuthor (h : s.Coupled R s') {a a' : Author} (ha : a.Coupled R a') :
    (s.addAuthor a).Coupled R (s'.addAuthor a') :=
  ⟨h.header, List.rel_append h.authors (.cons ha .nil), h.branches⟩

theorem Coupled.addBranch (h : s.Coupled R s') {b b' : Branch} (hb : b.Coupled R b') :
    (s.addBranch b).Coupled R (Coupled R) (s'.addBranch b') := by
  have hfind : Option.Rel (Branch.Coupled R) (s.branches.find? b.id) (s'.branches.find? b.id) :=
    h.branches.find? b.id
  have hput : ({ s with branches := s.branches.put b.id b } : SceneDraft).Coupled R
      { s' with branches := s'.branches.put b.id b' } :=
    ⟨h.header, h.authors, h.branches.put hb b.id⟩
  unfold SceneDraft.addBranch
  rw [← hb.id_eq, ← h.header.id_eq]
  generalize s.branches.find? b.id = found at hfind ⊢
  generalize s'.branches.find? b.id = found' at hfind ⊢
  cases hfind with
  | none => exact Verdict.coupled_pure hput
  | some hprevious =>
    apply (Verdict.coupled_note (.redefined _ _ hb.span hprevious.span)).bind
    intro _ _ _
    exact Verdict.coupled_pure hput

theorem Coupled.close (h : s.Coupled R s') {span span' : Span} (hs : R span span') :
    (s.close span).Coupled R (s'.close span') :=
  Scene.Coupled.addAuthors ⟨h.header.id_eq, hs, Registry.coupled_empty, h.branches⟩ h.authors

end SceneDraft

namespace OpenScene

variable {s s' : SceneDraft} {decl decl' : Declaration}

theorem coupled_stepItem (hR : Span.Coupling R) (h : s.Coupled R s') (ht : t.Coupled R t') :
    (stepItem d s t).Coupled R
      (Verdict.Coupled R (Turn.Coupled (Coupled R) (Scene.Coupled R))) (stepItem d s' t') := by
  have hother : (if d.lenientSceneItems then do
        Verdict.note (.skipped t s.header.id)
        return pure (.more (inside s .items))
      else Verdict.reject (.expected [.keyword .author, .keyword .branch, .closeBrace] t) :
      Verdict (Verdict (Turn OpenScene Scene))).Coupled R
        (Verdict.Coupled R (Turn.Coupled (Coupled R) (Scene.Coupled R)))
      (if d.lenientSceneItems then do
        Verdict.note (.skipped t' s'.header.id)
        return pure (.more (inside s' .items))
      else Verdict.reject (.expected [.keyword .author, .keyword .branch, .closeBrace] t')) := by
    split
    · rw [← h.header.id_eq]
      apply (Verdict.coupled_note (.skipped _ ht)).bind
      intro _ _ _
      exact Verdict.coupled_pure (Verdict.coupled_pure (.more (.inside h .items)))
    · exact Verdict.coupled_expected _ ht
  obtain ⟨kind, value, span⟩ := t
  obtain ⟨kind', value', span'⟩ := t'
  obtain rfl : kind = kind' := ht.kind_eq
  cases kind with
  | keyword keyword =>
    cases keyword with
    | author =>
      exact Verdict.coupled_pure (Verdict.coupled_pure
        (.more (.inside h (.author (.opened .author ht.span)))))
    | branch =>
      exact Verdict.coupled_pure (Verdict.coupled_pure
        (.more (.inside h (.branch .none (.opened .branch ht.span)))))
    | _ => exact hother
  | closeBrace =>
    refine Verdict.coupled_pure ((Verdict.coupled_union hR h.header.opened ht.span).bind ?_)
    intro span span' hs
    exact Verdict.coupled_pure (.done (h.close hs))
  | _ => exact hother

theorem coupled_stepAuthor (hR : Span.Coupling R) (h : s.Coupled R s') (hd : decl.Coupled R decl')
    (ht : t.Coupled R t') :
    (stepAuthor d s decl t).Coupled R
      (Verdict.Coupled R (Turn.Coupled (Coupled R) (Scene.Coupled R)))
      (stepAuthor d s' decl' t') := by
  have hb : Option.Rel (Header.Coupled R) (decl.branchPlace? d t) (decl'.branchPlace? d t') :=
    hd.branchPlace? ht
  unfold stepAuthor
  generalize decl.branchPlace? d t = place at hb ⊢
  generalize decl'.branchPlace? d t' = place' at hb ⊢
  cases hb with
  | some hh =>
    exact Verdict.coupled_pure (Verdict.coupled_pure
      (.more (.inside h (.branch (.some hh) (.opened .branch ht.span)))))
  | none =>
    apply (hd.step ht).bind
    intro turn turn' hturn
    cases hturn with
    | more hd => exact Verdict.coupled_pure (Verdict.coupled_pure (.more (.inside h (.author hd))))
    | done hlast =>
      refine Verdict.coupled_pure ((Verdict.coupled_union hR hlast.1.opened hlast.2).bind ?_)
      intro span span' hs
      exact Verdict.coupled_pure (.more (.inside (h.addAuthor ⟨hlast.1.id_eq, hs⟩) .items))

theorem coupled_behindBranch {host host' : Option Header}
    (hh : Option.Rel (Header.Coupled R) host host') :
    (Place.behindBranch host).Coupled R (.behindBranch host') := by
  cases hh with
  | none => exact .items
  | some hh => exact .author (.inside 0 hh)

theorem coupled_stepBranch (hR : Span.Coupling R) (h : s.Coupled R s')
    {host host' : Option Header} (hh : Option.Rel (Header.Coupled R) host host')
    (hd : decl.Coupled R decl') (ht : t.Coupled R t') :
    (stepBranch d s host decl t).Coupled R
      (Verdict.Coupled R (Turn.Coupled (Coupled R) (Scene.Coupled R)))
      (stepBranch d s' host' decl' t') := by
  unfold stepBranch
  apply (hd.step ht).bind
  intro turn turn' hturn
  cases hturn with
  | more hd =>
    exact Verdict.coupled_pure (Verdict.coupled_pure (.more (.inside h (.branch hh hd))))
  | @done last last' hlast =>
    refine Verdict.coupled_pure ((Verdict.coupled_union hR hlast.1.opened hlast.2).bind ?_)
    intro span span' hs
    rw [← hlast.1.id_eq]
    apply (h.addBranch (Branch.coupled_ofSpan last.1.id hs)).bind
    intro draft draft' hdraft
    exact Verdict.coupled_pure (.more (.inside hdraft (coupled_behindBranch hh)))

variable {o o' : OpenScene}

theorem Coupled.step (hR : Span.Coupling R) (h : o.Coupled R o') (ht : t.Coupled R t') :
    (o.step d t).Coupled R
      (Verdict.Coupled R (Turn.Coupled (Coupled R) (Scene.Coupled R))) (o'.step d t') := by
  cases h with
  | opened hs =>
    obtain ⟨kind, value, span⟩ := t
    obtain ⟨kind', value', span'⟩ := t'
    obtain rfl : kind = kind' := ht.kind_eq
    cases kind with
    | ident =>
      obtain rfl : value = value' := ht.value_eq (by simp)
      exact Verdict.coupled_pure (Verdict.coupled_pure (.more (.named ⟨rfl, hs, rfl⟩)))
    | _ => exact Verdict.coupled_expected _ ht
  | named hh =>
    obtain ⟨kind, value, span⟩ := t
    obtain ⟨kind', value', span'⟩ := t'
    obtain rfl : kind = kind' := ht.kind_eq
    cases kind with
    | openBrace =>
      exact Verdict.coupled_pure (Verdict.coupled_pure
        (.more (.inside ⟨hh, .nil, Registry.coupled_empty⟩ .items)))
    | _ => exact Verdict.coupled_expected _ ht
  | inside hs hp =>
    cases hp with
    | items => exact coupled_stepItem hR hs ht
    | author hd => exact coupled_stepAuthor hR hs hd ht
    | branch hh hd => exact coupled_stepBranch hR hs hh hd ht

theorem Coupled.unfinished {stop stop' : Span} (h : o.Coupled R o') (hs : R stop stop') :
    (o.unfinished d stop).Coupled R (o'.unfinished d stop') := by
  cases h with
  | opened _ => exact .expected _ (Token.coupled_eof hs)
  | named _ => exact .expected _ (Token.coupled_eof hs)
  | inside hdraft hp =>
    cases hp with
    | items => exact .unclosed hdraft.header hs
    | author hd => exact hd.unfinished hs
    | branch _ hd => exact hd.unfinished hs

end OpenScene

structure Wait.Coupled {σ σ' : Type} (R : Span → Span → Prop) (S : σ → σ' → Prop) (w : Wait σ)
    (w' : Wait σ') : Prop where
  last : R w.last w'.last
  pending : w.pending.Coupled R S w'.pending

namespace Machine

variable {σ σ' α α' : Type}

/-- In states in the relation `S` both machines take coupled steps, and their results are in the
relation `T`. -/
structure Respects (m : Machine σ α) (m' : Machine σ' α') (R : Span → Span → Prop)
    (S : σ → σ' → Prop) (T : α → α' → Prop) : Prop where
  step : ∀ s s' t t', S s s' → t.Coupled R t' →
    (m.step s t).Coupled R (Turn.Coupled (Verdict.Coupled R S) T) (m'.step s' t')
  finish : ∀ s s' stop stop', S s s' → R stop stop' →
    (m.finish s stop).Coupled R T (m'.finish s' stop')

variable {m : Machine σ α} {m' : Machine σ' α'} {S : σ → σ' → Prop} {T : α → α' → Prop}

theorem Respects.receive (h : m.Respects m' R S T) {w : Wait σ} {w' : Wait σ'}
    (hw : w.Coupled R S w') {item item' : Item} (hi : item.Coupled R item') :
    (m.receive w item).Coupled R (Turn.Coupled (Wait.Coupled R S) T) (m'.receive w' item') := by
  cases hi with
  | error he => exact Verdict.coupled_reject (.lexical he)
  | fault f => exact Verdict.coupled_fault f
  | @token t t' ht =>
    have hkind := ht.kind_eq
    by_cases hc : t.kind = .comment
    · have hc' : t'.kind = .comment := hkind.symm.trans hc
      simp only [Machine.receive, hc, hc']
      exact Verdict.coupled_pure (.more hw)
    by_cases he : t.kind = .eof
    · have he' : t'.kind = .eof := hkind.symm.trans he
      simp only [Machine.receive, he, he']
      apply hw.pending.bind
      intro s s' hs
      apply (h.finish s s' t.span t'.span hs ht.span).bind
      intro value value' hv
      exact Verdict.coupled_pure (.done hv)
    · rw [receive_plain ⟨hc, he⟩, receive_plain ⟨hkind ▸ hc, hkind ▸ he⟩]
      apply hw.pending.bind
      intro s s' hs
      apply (h.step s s' t t' hs ht).bind
      intro turn turn' hturn
      cases hturn with
      | more hp => exact Verdict.coupled_pure (.more ⟨ht.span, hp⟩)
      | done hv => exact Verdict.coupled_pure (.done hv)

/-- On coupled streams the runs have coupled outcomes. -/
theorem Respects.run (hR : Span.Coupling R) (h : m.Respects m' R S T) {w : Wait σ} {w' : Wait σ'}
    (hw : w.Coupled R S w') {items items' : List Item}
    (hi : List.Forall₂ (Item.Coupled R) items items') :
    (m.run w items).Coupled R T (m'.run w' items') := by
  induction hi generalizing w w' with
  | nil =>
    apply (Verdict.coupled_shrinkToEnd hR hw.last).bind
    intro stop stop' hstop
    exact hw.pending.bind fun s s' hs => h.finish s s' stop stop' hs hstop
  | cons hitem _ ih =>
    apply (h.receive hw hitem).bind
    intro turn turn' hturn
    cases hturn with
    | more hw => exact ih hw
    | done hv => exact Verdict.coupled_pure hv

end Machine

namespace OpenDocument

variable {before : Document} {o o' : OpenDocument}

theorem Coupled.step (hR : Span.Coupling R) (h : o.Coupled R before o') (ht : t.Coupled R t') :
    (o.step d t).Coupled R (Verdict.Coupled R (Coupled R before)) (o'.step d t') := by
  cases h with
  | items hdoc =>
    obtain ⟨kind, value, span⟩ := t
    obtain ⟨kind', value', span'⟩ := t'
    obtain rfl : kind = kind' := ht.kind_eq
    cases kind with
    | keyword keyword =>
      cases keyword with
      | author =>
        exact Verdict.coupled_pure (Verdict.coupled_pure
          (.author hdoc (.reading (.opened .author ht.span))))
      | scene => exact Verdict.coupled_pure (Verdict.coupled_pure (.scene hdoc (.opened ht.span)))
      | _ => exact Verdict.coupled_expected _ ht
    | _ => exact Verdict.coupled_expected _ ht
  | author hdoc ha =>
    apply (ha.step hR ht).bind
    intro inner inner' hinner
    refine Verdict.coupled_pure (hinner.map ?_)
    intro turn turn' hturn
    cases hturn with
    | more ha => exact .author hdoc ha
    | done ha => exact .items (hdoc.addAuthor ha)
  | scene hdoc hs =>
    apply (hs.step hR ht).bind
    intro inner inner' hinner
    refine Verdict.coupled_pure (hinner.map ?_)
    intro turn turn' hturn
    cases hturn with
    | more hs => exact .scene hdoc hs
    | done hs => exact .items (hdoc.addScene hs)

/-- The document that is read behind `before` is coupled with one that is read alone, before the
authors of either are broadcast. -/
theorem respects_machine (hR : Span.Coupling R) (before : Document) :
    (machine d).Respects (machine d) R (Coupled R before) fun value value' =>
      ∃ document document', Document.CoupledBehind R before document document' ∧
        value = document.broadcast ∧ value' = document'.broadcast where
  step o o' t t' h ht := by
    apply (h.step hR ht).bind
    intro turn turn' hturn
    exact Verdict.coupled_pure (.more hturn)
  finish o o' stop stop' h hs := by
    cases h with
    | items hdoc => exact Verdict.coupled_pure ⟨_, _, hdoc, rfl, rfl⟩
    | author _ ha => exact Verdict.coupled_reject (ha.unfinished hs)
    | scene _ hscene => exact Verdict.coupled_reject (hscene.unfinished hs)

end OpenDocument
end Scenario
