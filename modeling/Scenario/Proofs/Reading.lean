import Scenario.Parser.OpenDocument
import Scenario.Parser.Sole
import Scenario.Proofs.Run

/-!
# Reading parts of a script

A scene or an author is read in the same way whether it stands alone or in a document. `Reads` says
what reading some tokens of such a part leads to, without the machine around it.

Main statements: a document is accepted if its tokens fall into scenes and authors, each read to its
end (`OpenDocument.accepts_iff`); a scene or an author on its own is accepted if it is read to its
end just at the end of the tokens (`Sole.accepts_iff`). Issues are told exactly.
-/

namespace Scenario

/-- The span of the last token of the text, or `last` if there is none. -/
def Token.lastSpan (last : Span) : List Token → Span
  | [] => last
  | t :: text => lastSpan t.span text

theorem Token.fits_lastSpan {last : Span} {text : List Token} (hl : last.Fits)
    (ht : ∀ t ∈ text, t.span.Fits) : (lastSpan last text).Fits := by
  induction text generalizing last with
  | nil => exact hl
  | cons t text ih =>
    exact ih (ht t List.mem_cons_self) fun u hu => ht u (List.mem_cons_of_mem _ hu)

variable {ρ α : Type}

/-- What a token comes to in a part, as soon as the next item is there. -/
def settle (step : ρ → Token → Verdict (Verdict (Turn ρ α))) (r : ρ) (t : Token) :
    Verdict (Turn ρ α) := do
  (← step r t)

theorem settle_eq_ok_iff {step : ρ → Token → Verdict (Verdict (Turn ρ α))} {r : ρ} {t : Token}
    {issues : List Issue} {turn : Turn ρ α} :
    settle step r t = ⟨issues, .ok turn⟩ ↔
      ∃ is js, step r t = ⟨is, .ok ⟨js, .ok turn⟩⟩ ∧ issues = is ++ js := by
  rw [settle, Verdict.bind_eq_ok_iff]
  constructor
  · rintro ⟨is, _, js, hs, rfl, h⟩
    exact ⟨is, js, hs, h⟩
  · rintro ⟨is, js, hs, h⟩
    exact ⟨is, _, js, hs, rfl, h⟩

/-- Reading the tokens of a part, one step after the other, leads to the turn and raises the
issues. A part that is done reads no more. -/
inductive Reads (step : ρ → Token → Verdict (Verdict (Turn ρ α))) :
    ρ → List Token → List Issue → Turn ρ α → Prop
  | nil (r : ρ) : Reads step r [] [] (.more r)
  | done {r : ρ} {t : Token} {is : List Issue} {value : α} :
      settle step r t = ⟨is, .ok (.done value)⟩ → Reads step r [t] is (.done value)
  | more {r r' : ρ} {t : Token} {rest : List Token} {is js : List Issue} {turn : Turn ρ α} :
      settle step r t = ⟨is, .ok (.more r')⟩ → Reads step r' rest js turn →
      Reads step r (t :: rest) (is ++ js) turn

namespace Reads

variable {step : ρ → Token → Verdict (Verdict (Turn ρ α))}

theorem append {r r' : ρ} {left right : List Token} {is js : List Issue} {turn : Turn ρ α}
    (hl : Reads step r left is (.more r')) (hr : Reads step r' right js turn) :
    Reads step r (left ++ right) (is ++ js) turn := by
  generalize hturn : Turn.more r' = middle at hl
  induction hl with
  | nil r =>
    cases hturn
    exact hr
  | done h => cases hturn
  | more h _ ih => simpa using Reads.more h (ih hturn)

theorem single {r r' : ρ} {t : Token} {is : List Issue}
    (h : settle step r t = ⟨is, .ok (.more r')⟩) : Reads step r [t] is (.more r') := by
  simpa using Reads.more h (.nil r')

/-- A step that raises no issue, and reading on. -/
theorem cons {r r' : ρ} {t : Token} {rest : List Token} {is : List Issue} {turn : Turn ρ α}
    (h : settle step r t = pure (.more r')) (hr : Reads step r' rest is turn) :
    Reads step r (t :: rest) is turn :=
  Reads.more h hr

end Reads

namespace Machine

variable {σ β : Type}

/-- The machine reads a part: in the states that `resume` makes of it, it takes the steps of the
part, and it does not come to an end before the part does. -/
structure Hosts (m : Machine σ β) (step : ρ → Token → Verdict (Verdict (Turn ρ α)))
    (resume : Turn ρ α → σ) : Prop where
  step_eq : ∀ r t, m.step (resume (.more r)) t = do
    let turn ← step r t
    return .more (resume <$> turn)
  finish_ne : ∀ r stop is value, m.finish (resume (.more r)) stop ≠ ⟨is, .ok value⟩

variable {m : Machine σ β} {step : ρ → Token → Verdict (Verdict (Turn ρ α))}
  {resume : Turn ρ α → σ}

theorem Hosts.step_eq_ok_iff (h : m.Hosts step resume) {r : ρ} {t : Token} {is : List Issue}
    {turn : Turn (Verdict σ) β} :
    m.step (resume (.more r)) t = ⟨is, .ok turn⟩ ↔
      ∃ inner, step r t = ⟨is, .ok inner⟩ ∧ turn = .more (resume <$> inner) := by
  rw [h.step_eq, Verdict.bind_eq_ok_iff]
  constructor
  · rintro ⟨is, inner, js, hs, hp, rfl⟩
    obtain ⟨rfl, rfl⟩ := Verdict.pure_eq_ok_iff.1 hp
    exact ⟨inner, by simpa using hs, rfl⟩
  · rintro ⟨inner, hs, rfl⟩
    exact ⟨is, inner, [], hs, by simp, by simp⟩

/-- Reading a part moves the machine along. -/
theorem Hosts.accepts_append (h : m.Hosts step resume) {last : Span} {r : ρ}
    {text rest : List Token} {is js : List Issue} {turn : Turn ρ α} {value : β}
    (hp : ∀ t ∈ text, t.IsPlain) (hr : Reads step r text is turn)
    (ha : m.Accepts (Token.lastSpan last text) (resume turn) (rest.map .token) js value) :
    m.Accepts last (resume (.more r)) ((text ++ rest).map .token) (is ++ js) value := by
  induction hr generalizing last with
  | nil r => exact ha
  | @done r t _ v hs =>
    obtain ⟨is, is', hstep, rfl⟩ := settle_eq_ok_iff.1 hs
    refine (accepts_plain_iff (hp t List.mem_cons_self)).2 (.inr ?_)
    exact ⟨is, _, is', resume (.done v), js, h.step_eq_ok_iff.2 ⟨_, hstep, rfl⟩,
      Verdict.map_eq_ok_iff.2 ⟨_, rfl, rfl⟩, ha, by simp⟩
  | @more r r' t text _ ks turn hs hr ih =>
    obtain ⟨is, is', hstep, rfl⟩ := settle_eq_ok_iff.1 hs
    refine (accepts_plain_iff (hp t List.mem_cons_self)).2 (.inr ?_)
    exact ⟨is, _, is', resume (.more r'), ks ++ js, h.step_eq_ok_iff.2 ⟨_, hstep, rfl⟩,
      Verdict.map_eq_ok_iff.2 ⟨_, rfl, rfl⟩,
      ih (fun u hu => hp u (List.mem_cons_of_mem _ hu)) ha, by simp⟩

/-- A token at which a part begins moves the machine to the end of the part. -/
theorem Hosts.accepts_cons (h : m.Hosts step resume) {last : Span} {s : σ} {first : Token} {r : ρ}
    {text rest : List Token} {is js : List Issue} {turn : Turn ρ α} {value : β}
    (hs : m.step s first = pure (.more (pure (resume (.more r)))))
    (ht : ∀ t ∈ first :: (text ++ rest), t.IsPlain ∧ t.span.Fits) (hr : Reads step r text is turn)
    (ha : ∀ stop : Span, stop.Fits → m.Accepts stop (resume turn) (rest.map .token) js value) :
    m.Accepts last s ((first :: (text ++ rest)).map .token) (is ++ js) value := by
  have hfirst := ht first List.mem_cons_self
  have htext : ∀ t ∈ text, t.IsPlain ∧ t.span.Fits := fun t h => ht t (by simp [h])
  have hlast := Token.fits_lastSpan hfirst.2 fun t h => (htext t h).2
  have happend := h.accepts_append (fun t h => (htext t h).1) hr (ha _ hlast)
  exact (accepts_plain_iff hfirst.1).2 (.inr ⟨[], _, [], _, is ++ js, hs, rfl, happend, rfl⟩)

/-- A machine that has a result has read the part to its end. -/
theorem Hosts.exists_reads (h : m.Hosts step resume) {last : Span} {r : ρ} {text : List Token}
    {issues : List Issue} {value : β} (hp : ∀ t ∈ text, t.IsPlain)
    (ha : m.Accepts last (resume (.more r)) (text.map .token) issues value) :
    ∃ left right is js v, text = left ++ right ∧ left ≠ [] ∧
      Reads step r left is (.done v) ∧
      m.Accepts (Token.lastSpan last left) (resume (.done v)) (right.map .token) js value ∧
      issues = is ++ js := by
  induction text generalizing last r issues with
  | nil =>
    obtain ⟨stop, _, hf⟩ := accepts_nil_iff.1 ha
    exact (h.finish_ne _ _ _ _ hf).elim
  | cons t text ih =>
    rcases (accepts_plain_iff (hp t List.mem_cons_self)).1 ha with
      hs | ⟨is, p, js, s', ks, hs, hq, ha', rfl⟩
    · obtain ⟨inner, _, hturn⟩ := h.step_eq_ok_iff.1 hs
      cases hturn
    · obtain ⟨inner, hstep, hturn⟩ := h.step_eq_ok_iff.1 hs
      cases hturn
      obtain ⟨turn, rfl, rfl⟩ := Verdict.map_eq_ok_iff.1 hq
      have hsettle := settle_eq_ok_iff.2 ⟨is, js, hstep, rfl⟩
      cases turn with
      | done v => exact ⟨[t], text, is ++ js, ks, v, rfl, by simp, .done hsettle, ha', by simp⟩
      | more r' =>
        obtain ⟨left, right, ls, ms, v, rfl, -, hr, ha'', rfl⟩ :=
          ih (fun u hu => hp u (List.mem_cons_of_mem _ hu)) ha'
        exact ⟨t :: left, right, is ++ js ++ ls, ms, v, rfl, by simp, .more hsettle hr, ha'',
          by simp⟩

end Machine

/-- Tokens that fall into scenes and authors, each of them read to its end. -/
inductive DocumentReads (d : Dialect) :
    List Token → List Issue → List Scene → List Author → Prop
  | nil : DocumentReads d [] [] [] []
  | scene {keyword : Token} {text rest : List Token} {is js : List Issue} {s : Scene}
      {scenes : List Scene} {authors : List Author} :
      keyword.kind = .keyword .scene →
      Reads (OpenScene.step d) (.opened keyword.span) text is (.done s) →
      DocumentReads d rest js scenes authors →
      DocumentReads d (keyword :: (text ++ rest)) (is ++ js) (s :: scenes) authors
  | author {keyword : Token} {text rest : List Token} {is js : List Issue} {a : Author}
      {scenes : List Scene} {authors : List Author} :
      keyword.kind = .keyword .author →
      Reads (LoneAuthor.step d) (.start keyword.span) text is (.done a) →
      DocumentReads d rest js scenes authors →
      DocumentReads d (keyword :: (text ++ rest)) (is ++ js) scenes (a :: authors)

namespace OpenDocument

variable {d : Dialect}

theorem hosts_author (document : Document) :
    (machine d).Hosts (LoneAuthor.step d) (resumeAuthor document) where
  step_eq r t := by simp [machine, step, resumeAuthor]
  finish_ne r stop is value := by simp [machine, finish, resumeAuthor]

theorem hosts_scene (document : Document) :
    (machine d).Hosts (OpenScene.step d) (resumeScene document) where
  step_eq r t := by simp [machine, step, resumeScene]
  finish_ne r stop is value := by simp [machine, finish, resumeScene]

theorem readsOn_machine : (machine d).ReadsOn where
  step_more s t is value h := by
    obtain ⟨_, _, _, _, h, _⟩ := Verdict.bind_eq_ok_iff.1 h
    simp at h
  finish_eq s is value stop stop' h := by
    cases s with
    | items document => exact h
    | author document rest => simp [machine, finish] at h
    | scene document rest => simp [machine, finish] at h

theorem step_items_author {document : Document} {t : Token} (h : t.kind = .keyword .author) :
    (machine d).step (items document) t =
      pure (.more (pure (author document (.start t.span)))) := by
  simp [machine, step, h]

theorem step_items_scene {document : Document} {t : Token} (h : t.kind = .keyword .scene) :
    (machine d).step (items document) t =
      pure (.more (pure (scene document (.opened t.span)))) := by
  simp [machine, step, h]

/-- The parts that are still to come are added to those that have been read. -/
theorem accepts_items_of_reads {last : Span} {document : Document} {text : List Token}
    {issues : List Issue} {scenes : List Scene} {authors : List Author} (hl : last.Fits)
    (ht : ∀ t ∈ text, t.IsPlain ∧ t.span.Fits)
    (h : DocumentReads d text issues scenes authors) :
    (machine d).Accepts last (items document) (text.map .token) issues
      (Document.broadcast ⟨document.scenes ++ scenes, document.authors ++ authors⟩) := by
  induction h generalizing last document with
  | nil =>
    refine Machine.accepts_nil_iff.2 ⟨_, Span.shrinkToEnd_of_fits hl, ?_⟩
    simp [machine, finish]
  | @scene keyword text rest is js s scenes authors hk hr _ ih =>
    apply (hosts_scene document).accepts_cons (step_items_scene hk) ht hr
    intro stop hstop
    have hrest : ∀ t ∈ rest, t.IsPlain ∧ t.span.Fits := fun t h => ht t (by simp [h])
    have hv := @ih stop { document with scenes := document.scenes ++ [s] } hstop hrest
    simpa [resumeScene] using hv
  | @author keyword text rest is js a scenes authors hk hr _ ih =>
    apply (hosts_author document).accepts_cons (step_items_author hk) ht hr
    intro stop hstop
    have hrest : ∀ t ∈ rest, t.IsPlain ∧ t.span.Fits := fun t h => ht t (by simp [h])
    have hv := @ih stop { document with authors := document.authors ++ [a] } hstop hrest
    simpa [resumeAuthor] using hv

theorem step_items_cases {document : Document} {t : Token} {is : List Issue}
    {turn : Turn (Verdict OpenDocument) Document}
    (h : (machine d).step (items document) t = ⟨is, .ok turn⟩) :
    is = [] ∧
      (t.kind = .keyword .author ∧ turn = .more (pure (author document (.start t.span))) ∨
        t.kind = .keyword .scene ∧ turn = .more (pure (scene document (.opened t.span)))) := by
  by_cases ha : t.kind = .keyword .author
  · rw [step_items_author ha] at h
    obtain ⟨rfl, rfl⟩ := Verdict.pure_eq_ok_iff.1 h
    exact ⟨rfl, .inl ⟨ha, rfl⟩⟩
  by_cases hs : t.kind = .keyword .scene
  · rw [step_items_scene hs] at h
    obtain ⟨rfl, rfl⟩ := Verdict.pure_eq_ok_iff.1 h
    exact ⟨rfl, .inr ⟨hs, rfl⟩⟩
  · have hr : (machine d).step (items document) t =
        .reject (.expected [.keyword .author, .keyword .scene] t) := by
      simp only [machine, step]
      exact Verdict.reject_bind _ _
    rw [hr] at h
    exact (Verdict.reject_ne_ok h).elim

theorem reads_of_accepts_items {last : Span} {document value : Document} {text : List Token}
    {issues : List Issue} (ht : ∀ t ∈ text, t.IsPlain)
    (h : (machine d).Accepts last (items document) (text.map .token) issues value) :
    ∃ scenes authors, DocumentReads d text issues scenes authors ∧
      value = Document.broadcast ⟨document.scenes ++ scenes, document.authors ++ authors⟩ := by
  -- The parts are read off the front one by one, so the induction is on what is left of the text.
  induction hn : text.length using Nat.strongRecOn
    generalizing text last document issues with
  | ind n ih =>
    cases text with
    | nil =>
      obtain ⟨stop, _, hf⟩ := Machine.accepts_nil_iff.1 h
      obtain ⟨rfl, rfl⟩ := Verdict.pure_eq_ok_iff.1 hf
      exact ⟨[], [], .nil, by simp⟩
    | cons keyword text =>
      have htext : ∀ t ∈ text, t.IsPlain := fun t h => ht t (List.mem_cons_of_mem _ h)
      rcases (Machine.accepts_plain_iff (ht keyword List.mem_cons_self)).1 h with
        hs | ⟨is, p, js, state, ks, hs, hp, ha, rfl⟩
      · exact (readsOn_machine.step_more _ _ _ _ hs).elim
      obtain ⟨rfl, ⟨hk, hturn⟩ | ⟨hk, hturn⟩⟩ := step_items_cases hs
      · cases hturn
        obtain ⟨rfl, rfl⟩ := Verdict.pure_eq_ok_iff.1 hp
        obtain ⟨left, right, is, js, a, rfl, -, hr, hv, rfl⟩ :=
          (hosts_author document).exists_reads htext ha
        obtain ⟨scenes, authors, hd, rfl⟩ := ih right.length (by simp at hn; omega)
          (fun t h => htext t (by simp [h])) hv rfl
        exact ⟨scenes, a :: authors, by simpa using DocumentReads.author hk hr hd, by simp⟩
      · cases hturn
        obtain ⟨rfl, rfl⟩ := Verdict.pure_eq_ok_iff.1 hp
        obtain ⟨left, right, is, js, s, rfl, -, hr, hv, rfl⟩ :=
          (hosts_scene document).exists_reads htext ha
        obtain ⟨scenes, authors, hd, rfl⟩ := ih right.length (by simp at hn; omega)
          (fun t h => htext t (by simp [h])) hv rfl
        exact ⟨s :: scenes, authors, by simpa using DocumentReads.scene hk hr hd, by simp⟩

/-- A document is accepted if its tokens fall into scenes and authors. -/
theorem accepts_iff {last : Span} {text : List Token} {issues : List Issue} {value : Document}
    (hl : last.Fits) (ht : ∀ t ∈ text, t.IsPlain ∧ t.span.Fits) :
    (machine d).Accepts last (machine d).start (text.map .token) issues value ↔
      ∃ scenes authors, DocumentReads d text issues scenes authors ∧
        value = Document.broadcast ⟨scenes, authors⟩ := by
  constructor
  · intro h
    simpa [Document.empty] using reads_of_accepts_items (fun t h => (ht t h).1) h
  · rintro ⟨scenes, authors, h, rfl⟩
    have ha := @accepts_items_of_reads d last .empty text issues scenes authors hl ht h
    exact ha

end OpenDocument

namespace Sole

variable {keyword : Keyword} {start : Span → ρ}
  {step : ρ → Token → Verdict (Verdict (Turn ρ α))} {unfinished : ρ → Span → Issue}

theorem hosts_machine (extent : Extent) :
    (machine keyword start step unfinished extent).Hosts step resume where
  step_eq r t := rfl
  finish_ne r stop is value := by simp [machine, resume]

theorem readsOn_machine : (machine keyword start step unfinished .whole).ReadsOn where
  step_more s t is value h := by
    cases s with
    | start =>
      simp only [machine] at h
      split at h <;> simp at h
    | reading rest =>
      obtain ⟨_, _, _, _, h, _⟩ := Verdict.bind_eq_ok_iff.1 h
      simp at h
    | complete v => simp [machine] at h
  finish_eq s is value stop stop' h := by
    cases s with
    | start => simp [machine] at h
    | reading rest => simp [machine] at h
    | complete v => exact h

/-- Nothing may follow a declaration that is complete. -/
theorem eq_nil_of_accepts_complete {last : Span} {v value : α} {text : List Token}
    {issues : List Issue} (hp : ∀ t ∈ text, t.IsPlain)
    (h : (machine keyword start step unfinished .whole).Accepts last (complete v)
      (text.map .token) issues value) : text = [] ∧ issues = [] ∧ v = value := by
  cases text with
  | nil =>
    obtain ⟨stop, -, hf⟩ := Machine.accepts_nil_iff.1 h
    exact ⟨rfl, Verdict.pure_eq_ok_iff.1 hf⟩
  | cons t text =>
    rcases (Machine.accepts_plain_iff (hp t List.mem_cons_self)).1 h with
      hs | ⟨is, p, js, state, ks, hs, -, -, -⟩
    · exact (readsOn_machine.step_more _ _ _ _ hs).elim
    · simp [machine] at hs

/-- A single declaration is accepted if it is read to its end at the end of the tokens. -/
theorem accepts_iff {last : Span} {text : List Token} {issues : List Issue} {value : α}
    (ht : ∀ t ∈ text, t.IsPlain ∧ t.span.Fits) :
    (machine keyword start step unfinished .whole).Accepts last Sole.start (text.map .token)
        issues value ↔
      ∃ t rest, text = t :: rest ∧ t.kind = .keyword keyword ∧
        Reads step (start t.span) rest issues (.done value) := by
  cases text with
  | nil => simp [Machine.accepts_nil_iff, machine]
  | cons t text =>
    have hh : (machine keyword start step unfinished .whole).Hosts step resume :=
      hosts_machine .whole
    have hp : ∀ u ∈ text, u.IsPlain := fun u h => (ht u (List.mem_cons_of_mem _ h)).1
    have hkeyword := ht t List.mem_cons_self
    constructor
    · intro h
      rcases (Machine.accepts_plain_iff hkeyword.1).1 h with
        hs | ⟨is, p, js, state, ks, hs, hq, ha, rfl⟩
      · exact (readsOn_machine.step_more _ _ _ _ hs).elim
      simp only [machine] at hs
      split at hs
      · rename_i hk
        obtain ⟨rfl, hturn⟩ := Verdict.pure_eq_ok_iff.1 hs
        cases hturn
        obtain ⟨rfl, rfl⟩ := Verdict.pure_eq_ok_iff.1 hq
        obtain ⟨left, right, is, js, v, rfl, -, hr, hv, rfl⟩ := hh.exists_reads hp ha
        obtain ⟨rfl, rfl, rfl⟩ := eq_nil_of_accepts_complete (fun u h => hp u (by simp [h])) hv
        exact ⟨t, left, by simp, hk, by simpa using hr⟩
      · exact (Verdict.reject_ne_ok hs).elim
    · rintro ⟨_, _, htext, hk, hr⟩
      cases htext
      have hs : (machine keyword start step unfinished .whole).step Sole.start t =
          pure (.more (pure (resume (.more (start t.span))))) := by
        simp [machine, hk, resume]
      have hend : ∀ stop : Span, stop.Fits → (machine keyword start step unfinished .whole).Accepts
          stop (resume (.done value)) (List.map .token []) [] value := by
        intro stop hstop
        exact Machine.accepts_nil_iff.2 ⟨_, Span.shrinkToEnd_of_fits hstop, rfl⟩
      have hcons : ∀ u ∈ t :: (text ++ []), u.IsPlain ∧ u.span.Fits := by
        rwa [List.append_nil]
      simpa using hh.accepts_cons hs hcons hr hend

end Sole
end Scenario
