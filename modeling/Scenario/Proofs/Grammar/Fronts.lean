import Scenario.Proofs.Grammar.Acceptance
import Scenario.Proofs.Layout
import Scenario.Proofs.Passing

/-!
# Results come of derivable tokens

A parse that has a result has read tokens that are derivable as its target. They stand at the
beginning of the stream, once comments are left out. This holds wherever the tokens stand, also if
the spans of some of them have no end: spans count only where they are united.

Main statement: `Target.exists_derives_of_read`.
-/

namespace Scenario
namespace Machine

variable {σ α : Type} {m : Machine σ α} {last : Span} {s : σ} {items : List Item}
  {issues : List Issue} {value : α}

/-- Without comments, a run comes to its end at once or takes a step at the first token. -/
theorem accepts_cases (hi : ∀ item ∈ items, item.isComment = false)
    (h : m.Accepts last s items issues value) :
    (∃ stop, m.finish s stop = ⟨issues, .ok value⟩) ∨
    ∃ t rest, items = .token t :: rest ∧
      (m.step s t = ⟨issues, .ok (.done value)⟩ ∨
        ∃ is js s' ks, m.step s t = ⟨is, .ok (.more ⟨js, .ok s'⟩)⟩ ∧
          m.Accepts t.span s' rest ks value) := by
  cases items with
  | nil =>
    obtain ⟨stop, -, hf⟩ := accepts_nil_iff.1 h
    exact .inl ⟨stop, hf⟩
  | cons item rest =>
    cases item with
    | error e => exact (not_accepts_error h).elim
    | fault f => exact (not_accepts_fault h).elim
    | token t =>
      have hc : t.kind ≠ .comment := by simpa [Item.isComment] using hi _ List.mem_cons_self
      by_cases he : t.kind = .eof
      · exact .inl ⟨t.span, (accepts_eof_iff he).1 h⟩
      rcases (accepts_plain_iff ⟨hc, he⟩).1 h with hs | ⟨is, _, js, s', ks, hs, rfl, hrest, -⟩
      · exact .inr ⟨t, rest, rfl, .inl hs⟩
      · exact .inr ⟨t, rest, rfl, .inr ⟨is, js, s', ks, hs, hrest⟩⟩

variable {ρ β : Type} {step : ρ → Token → Verdict (Verdict (Turn ρ β))} {resume : Turn ρ β → σ}

/-- A machine that has a result has read the part to its end, and goes on behind it. -/
theorem Hosts.exists_front (h : m.Hosts step resume) {r : ρ}
    (hi : ∀ item ∈ items, item.isComment = false)
    (ha : m.Accepts last (resume (.more r)) items issues value) :
    ∃ text rest is v stop js, items = text.map .token ++ rest ∧
      Reads step r text is (.done v) ∧ m.Accepts stop (resume (.done v)) rest js value := by
  induction items generalizing last r issues with
  | nil =>
    obtain ⟨stop, -, hf⟩ := accepts_nil_iff.1 ha
    exact (h.finish_ne _ _ _ _ hf).elim
  | cons item items ih =>
    rcases accepts_cases hi ha with ⟨stop, hf⟩ | ⟨t, rest, hcons, hstep⟩
    · exact (h.finish_ne _ _ _ _ hf).elim
    obtain ⟨rfl, rfl⟩ := List.cons.inj hcons
    rcases hstep with hs | ⟨is, js, s', ks, hs, hrest⟩
    · obtain ⟨_, -, hturn⟩ := h.step_eq_ok_iff.1 hs
      cases hturn
    obtain ⟨turn, hsettle, rfl⟩ := h.exists_settle hs
    cases turn with
    | done v => exact ⟨[t], items, _, v, t.span, ks, rfl, .done hsettle, hrest⟩
    | more r' =>
      obtain ⟨text, rest, ls, v, stop, ms, rfl, hr, hv⟩ := ih (List.forall_mem_cons.1 hi).2 hrest
      exact ⟨t :: text, rest, _, v, stop, ms, rfl, .more hsettle hr, hv⟩

end Machine

namespace Sole

variable {ρ α : Type} {keyword : Keyword} {first : Span → ρ}
  {step : ρ → Token → Verdict (Verdict (Turn ρ α))} {unfinished : ρ → Span → Issue}
  {extent : Extent} {last : Span} {items : List Item} {issues : List Issue} {v value : α}

/-- A declaration that is complete is the only result that is left. -/
theorem eq_of_accepts_complete (hi : ∀ item ∈ items, item.isComment = false)
    (h : (machine keyword first step unfinished extent).Accepts last (complete v) items issues
      value) : v = value := by
  rcases Machine.accepts_cases hi h with ⟨stop, hf⟩ | ⟨t, rest, -, hs | ⟨_, _, _, _, hs, -⟩⟩
  · exact (Verdict.pure_eq_ok_iff.1 hf).2
  · cases extent with
    | whole => exact (Verdict.reject_ne_ok hs).elim
    | leading => exact Turn.done.inj (Verdict.pure_eq_ok_iff.1 hs).2
  · cases extent with
    | whole => exact (Verdict.reject_ne_ok hs).elim
    | leading => cases (Verdict.pure_eq_ok_iff.1 hs).2

/-- A result comes of a declaration that is read to its end. -/
theorem exists_front (hi : ∀ item ∈ items, item.isComment = false)
    (h : (machine keyword first step unfinished extent).Accepts last start items issues value) :
    ∃ t text rest is, items = (t :: text).map .token ++ rest ∧ t.kind = .keyword keyword ∧
      Reads step (first t.span) text is (.done value) := by
  rcases Machine.accepts_cases hi h with ⟨stop, hf⟩ | ⟨t, rest, rfl, hstep⟩
  · exact (Verdict.reject_ne_ok hf).elim
  by_cases hk : t.kind = .keyword keyword
  · have hs : (machine keyword first step unfinished extent).step start t =
        pure (.more (pure (resume (.more (first t.span))))) := if_pos hk
    rw [hs] at hstep
    rcases hstep with hdone | ⟨_, _, _, _, hmore, ha⟩
    · cases hdone
    cases hmore
    have hrest := (List.forall_mem_cons.1 hi).2
    obtain ⟨text, behind, is, v, stop, js, rfl, hr, hv⟩ :=
      (hosts_machine extent).exists_front hrest ha
    obtain rfl := eq_of_accepts_complete (List.forall_mem_append.1 hrest).2 hv
    exact ⟨t, text, behind, is, rfl, hk, hr⟩
  · have hs : (machine keyword first step unfinished extent).step start t =
        .reject (.expected [.keyword keyword] t) := if_neg hk
    rw [hs] at hstep
    rcases hstep with hdone | ⟨_, _, _, _, hmore, -⟩
    · exact (Verdict.reject_ne_ok hdone).elim
    · exact (Verdict.reject_ne_ok hmore).elim

end Sole

namespace OpenDocument

variable {d : Dialect} {last : Span} {document value : Document} {items : List Item}
  {issues : List Issue}

/-- A document comes of the scenes and authors that are read one after the other. -/
theorem exists_front (hi : ∀ item ∈ items, item.isComment = false)
    (h : (machine d).Accepts last (.items document) items issues value) :
    ∃ text rest is scenes authors, items = text.map .token ++ rest ∧
      DocumentReads d text is scenes authors ∧
      value = Document.broadcast ⟨document.scenes ++ scenes, document.authors ++ authors⟩ := by
  -- The parts are read off the front one by one, so the induction is on what is left of the items.
  induction hn : items.length using Nat.strongRecOn generalizing items last document issues with
  | ind n ih =>
    rcases Machine.accepts_cases hi h with ⟨stop, hf⟩ | ⟨keyword, rest, rfl, hstep⟩
    · obtain ⟨-, rfl⟩ := Verdict.pure_eq_ok_iff.1 hf
      exact ⟨[], items, [], [], [], rfl, .nil, by simp⟩
    rcases hstep with hs | ⟨_, js, state, ks, hs, ha⟩
    · exact (readsOn_machine.step_more _ _ _ _ hs).elim
    have hrest := (List.forall_mem_cons.1 hi).2
    obtain ⟨rfl, ⟨hk, hturn⟩ | ⟨hk, hturn⟩⟩ := step_items_cases hs
    · cases hturn
      obtain ⟨text, behind, is, a, stop, ls, rfl, hr, hv⟩ :=
        (hosts_author document).exists_front hrest ha
      obtain ⟨text', rest, is', scenes, authors, rfl, hd, rfl⟩ :=
        ih behind.length (by simp at hn; omega) (List.forall_mem_append.1 hrest).2 hv rfl
      exact ⟨_, rest, _, scenes, a :: authors, by simp, .author hk hr hd, by simp⟩
    · cases hturn
      obtain ⟨text, behind, is, s, stop, ls, rfl, hr, hv⟩ :=
        (hosts_scene document).exists_front hrest ha
      obtain ⟨text', rest, is', scenes, authors, rfl, hd, rfl⟩ :=
        ih behind.length (by simp at hn; omega) (List.forall_mem_append.1 hrest).2 hv rfl
      exact ⟨_, rest, _, s :: scenes, authors, by simp, .scene hk hr hd, by simp⟩

end OpenDocument

namespace Target

/-- The result of a parse is what a derivation makes of the tokens at the beginning of the stream,
without its comments. -/
theorem exists_derives_of_read {target : Target} {d : Dialect} {extent : Extent} {base : Nat}
    {items : List Item} {value : target.Node}
    (h : (target.read d extent base items).result = .ok value) :
    ∃ text rest, Item.uncommented items = text.map .token ++ rest ∧
      target.Derives d text value := by
  obtain ⟨issues, h⟩ := Verdict.result_eq_ok_iff.1 h
  rw [read, Machine.read, ← Machine.run_uncommented] at h
  have hi : ∀ item ∈ Item.uncommented items, item.isComment = false := by
    intro item hmem
    simpa using (List.mem_filter.1 hmem).2
  cases target with
  | document =>
    obtain ⟨text, rest, is, scenes, authors, hitems, hd, rfl⟩ := OpenDocument.exists_front hi h
    exact ⟨text, rest, hitems, .intro (documentContent_of_reads hd)⟩
  | scene =>
    obtain ⟨t, text, rest, is, hitems, hk, hr⟩ := Sole.exists_front hi h
    exact ⟨t :: text, rest, hitems, OpenScene.form_of_reads hk hr⟩
  | author =>
    obtain ⟨t, text, rest, is, hitems, hk, hr⟩ := Sole.exists_front hi h
    exact ⟨t :: text, rest, hitems, LoneAuthor.form_of_reads hk hr⟩

end Target
end Scenario
