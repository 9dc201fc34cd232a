import Scenario.Proofs.Moves

/-!
# Runs over the front of a stream

What a machine does with the front of a stream does not depend on the items behind it. It comes to
an end there, or waits for the next item, and the rest of the run starts from what it then holds
(`Machine.run_append`).

Main statement: a document that has been read up to the end of a declaration has nothing pending,
and goes on with the scenes and authors that it has (`OpenDocument.pass_of_reads`).
-/

namespace Scenario

theorem Token.lastSpan_append (last : Span) (left right : List Token) :
    lastSpan last (left ++ right) = lastSpan (lastSpan last left) right := by
  induction left generalizing last with
  | nil => rfl
  | cons t left ih => exact ih t.span

/-- What has been read ends with a step at the last token. -/
theorem Reads.exists_last {ρ β : Type} {step : ρ → Token → Verdict (Verdict (Turn ρ β))} {r : ρ}
    {text : List Token} {is : List Issue} {turn : Turn ρ β} (h : Reads step r text is turn)
    (ht : text ≠ []) :
    ∃ init t r' js ks, text = init ++ [t] ∧ is = js ++ ks ∧ Reads step r init js (.more r') ∧
      settle step r' t = ⟨ks, .ok turn⟩ := by
  induction h with
  | nil r => exact (ht rfl).elim
  | @done r t is v hs => exact ⟨[], t, r, [], is, rfl, rfl, .nil r, hs⟩
  | @more r r' t text is js turn hs hr ih =>
    cases text with
    | nil =>
      cases hr
      exact ⟨[], t, r, [], is, rfl, by simp, .nil r, hs⟩
    | cons u text =>
      obtain ⟨init, v, r'', ks, ls, htext, rfl, hinit, hlast⟩ := ih (by simp)
      exact ⟨t :: init, v, r'', is ++ ks, ls, by simp [htext], by simp, .more hs hinit, hlast⟩

namespace Machine

variable {σ α : Type}

/-- Reads the items, and waits for what comes behind them, or has a result already. -/
def pass (m : Machine σ α) (w : Wait σ) : List Item → Verdict (Turn (Wait σ) α)
  | [] => pure (.more w)
  | item :: rest => do
    match ← m.receive w item with
    | .done value => return .done value
    | .more w => m.pass w rest

theorem run_append (m : Machine σ α) (w : Wait σ) (front rest : List Item) :
    m.run w (front ++ rest) = (do
      match ← m.pass w front with
      | .done value => return value
      | .more w => m.run w rest) := by
  induction front generalizing w with
  | nil => rfl
  | cons item front ih =>
    simp only [List.cons_append, run, pass, bind_assoc]
    refine congrArg _ (funext fun turn => ?_)
    cases turn with
    | done value => rfl
    | more w => exact ih w

theorem pass_append (m : Machine σ α) (w : Wait σ) (front rest : List Item) :
    m.pass w (front ++ rest) = (do
      match ← m.pass w front with
      | .done value => return .done value
      | .more w => m.pass w rest) := by
  induction front generalizing w with
  | nil => rfl
  | cons item front ih =>
    simp only [List.cons_append, pass, bind_assoc]
    refine congrArg _ (funext fun turn => ?_)
    cases turn with
    | done value => rfl
    | more w => exact ih w

variable {m : Machine σ α} {w w' : Wait σ} {front rest : List Item} {is : List Issue}

/-- The issues with the front of a stream are followed by those with the rest. -/
theorem run_append_of_pass (h : m.pass w front = ⟨is, .ok (.more w')⟩) :
    m.run w (front ++ rest) = ⟨is ++ (m.run w' rest).issues, (m.run w' rest).result⟩ := by
  rw [run_append, h, Verdict.bind_of_ok rfl]

/-- At the end of the input the machine comes to an end in the state that it has then. -/
theorem run_nil_of_pass {js : List Issue} {last : Span} {s : σ}
    (hl : last.Fits) (h : m.pass w front = ⟨is, .ok (.more ⟨last, ⟨js, .ok s⟩⟩)⟩) :
    ∃ stop, m.run w front =
      ⟨is ++ (js ++ (m.finish s stop).issues), (m.finish s stop).result⟩ := by
  refine ⟨⟨last.base + last.len, 0⟩, ?_⟩
  have hrun := @run_append_of_pass σ α m w _ front [] is h
  rw [List.append_nil] at hrun
  rw [hrun, run, close, Span.shrinkToEnd_of_fits hl, Verdict.ofExcept_ok, pure_bind,
    Verdict.bind_of_ok rfl]

/-- Once what is pending is an error, no token changes it. -/
theorem run_of_pending_error {is : List Issue} {stop : Stop} (hl : w.last.Fits)
    (hp : w.pending = ⟨is, .error stop⟩) (text : List Token) :
    m.run w (text.map .token) = ⟨is, .error stop⟩ := by
  induction text with
  | nil =>
    simp only [List.map_nil, run, close, Span.shrinkToEnd_of_fits hl, Verdict.ofExcept_ok,
      pure_bind, hp]
    exact Verdict.bind_of_error rfl _
  | cons t text ih =>
    by_cases hc : t.kind = .comment
    · rw [List.map_cons, run_comment hc]
      exact ih
    by_cases he : t.kind = .eof
    · rw [List.map_cons, run_eof he, hp]
      exact Verdict.bind_of_error rfl _
    · rw [List.map_cons, run_plain ⟨hc, he⟩, hp]
      exact Verdict.bind_of_error rfl _

theorem pass_append_of_pass {js : List Issue} {turn : Turn (Wait σ) α}
    (h : m.pass w front = ⟨is, .ok (.more w')⟩) (hr : m.pass w' rest = ⟨js, .ok turn⟩) :
    m.pass w (front ++ rest) = ⟨is ++ js, .ok turn⟩ := by
  rw [pass_append, h, Verdict.bind_of_ok rfl]
  dsimp only
  rw [hr]

theorem run_append_of_pass_error {stop : Stop}
    (h : m.pass w front = ⟨is, .error stop⟩) : m.run w (front ++ rest) = ⟨is, .error stop⟩ := by
  rw [run_append, h]
  exact Verdict.bind_of_error rfl _

theorem run_append_of_pass_done {value : α}
    (h : m.pass w front = ⟨is, .ok (.done value)⟩) : m.run w (front ++ rest) = ⟨is, .ok value⟩ := by
  rw [run_append, h, Verdict.bind_of_ok rfl]
  simp

/-- What is pending is settled at a plain token, and its step is the next to be pending. -/
theorem pass_cons {last : Span} {s : σ} {t : Token} {pending : Verdict σ} {js ks : List Issue}
    {turn : Turn (Wait σ) α} (ht : t.IsPlain) (hs : m.step s t = ⟨js, .ok (.more pending)⟩)
    (hr : m.pass ⟨t.span, pending⟩ rest = ⟨ks, .ok turn⟩) :
    m.pass ⟨last, ⟨is, .ok s⟩⟩ (.token t :: rest) = ⟨is ++ (js ++ ks), .ok turn⟩ := by
  have hreceive : m.receive ⟨last, ⟨is, .ok s⟩⟩ (.token t) =
      ⟨is ++ js, .ok (.more ⟨t.span, pending⟩)⟩ := by
    rw [receive_plain ht, Verdict.bind_of_ok rfl, hs, Verdict.bind_of_ok rfl]
    simp
  rw [pass, hreceive, Verdict.bind_of_ok rfl]
  dsimp only
  rw [hr, List.append_assoc]

/-- What a machine holds when it has passed some items is backed by their contents, if each step
keeps it so. The last of them is the last token. -/
theorem exists_backed_of_pass {Backed : List Token → σ → Prop} {good : Token → Prop}
    (hstep : ∀ before s t is js s', Backed before s → good t →
      m.step s t = ⟨is, .ok (.more ⟨js, .ok s'⟩)⟩ → Backed (before ++ [t]) s')
    {before : List Token} {last : Span} {js : List Issue} {s : σ}
    (ht : ∀ t, .token t ∈ front → good t) (hw : ∀ ks r, w.pending = ⟨ks, .ok r⟩ → Backed before r)
    (h : m.pass w front = ⟨is, .ok (.more ⟨last, ⟨js, .ok s⟩⟩)⟩) :
    ∃ text, Item.contents front = some text ∧ last = Token.lastSpan w.last text ∧
      Backed (before ++ text) s := by
  -- What is pending is a state only once the next token is there, so the state comes from `hw`.
  induction front generalizing before w is with
  | nil =>
    obtain ⟨-, hturn⟩ := Verdict.pure_eq_ok_iff.1 h
    cases hturn
    refine ⟨[], rfl, rfl, ?_⟩
    rw [List.append_nil]
    exact hw js s rfl
  | cons item front ih =>
    have hfront : ∀ t, .token t ∈ front → good t := fun t hmem => ht t (List.mem_cons_of_mem _ hmem)
    cases item with
    | error e => cases h
    | fault f => cases h
    | token t =>
      by_cases hc : t.kind = .comment
      · rw [Item.contents_comment hc]
        simp only [pass, receive, hc, pure_bind] at h
        exact ih hfront hw h
      by_cases he : t.kind = .eof
      · simp only [pass, receive, he, bind_assoc, pure_bind] at h
        obtain ⟨_, _, _, -, h, -⟩ := Verdict.bind_eq_ok_iff.1 h
        obtain ⟨_, _, _, -, h, -⟩ := Verdict.bind_eq_ok_iff.1 h
        cases h
      rw [pass, receive_plain ⟨hc, he⟩, bind_assoc] at h
      obtain ⟨ks, r, _, hr, h, -⟩ := Verdict.bind_eq_ok_iff.1 h
      rw [bind_assoc] at h
      obtain ⟨ks', turn, _, hturn, h, -⟩ := Verdict.bind_eq_ok_iff.1 h
      cases turn with
      | done value => cases h
      | more pending =>
        have hpending : ∀ js s', pending = ⟨js, .ok s'⟩ → Backed (before ++ [t]) s' := by
          rintro js s' rfl
          exact hstep before r t _ js s' (hw _ r hr) (ht t List.mem_cons_self) hturn
        obtain ⟨text, htext, hlast, hbacked⟩ := ih hfront hpending h
        refine ⟨t :: text, ?_, hlast, by simpa using hbacked⟩
        rw [Item.contents_plain ⟨hc, he⟩, htext]
        rfl

variable {ρ β : Type} {step : ρ → Token → Verdict (Verdict (Turn ρ β))} {resume : Turn ρ β → σ}

theorem Hosts.step_of_settled (h : m.Hosts step resume) {r : ρ} {t : Token} {is js : List Issue}
    {turn : Turn ρ β} (hs : step r t = ⟨is, .ok ⟨js, .ok turn⟩⟩) :
    m.step (resume (.more r)) t = ⟨is, .ok (.more ⟨js, .ok (resume turn)⟩)⟩ := by
  have hmap : resume <$> (⟨js, .ok turn⟩ : Verdict (Turn ρ β)) = ⟨js, .ok (resume turn)⟩ :=
    Verdict.map_eq_ok_iff.2 ⟨_, rfl, rfl⟩
  rw [← hmap]
  exact h.step_eq_ok_iff.2 ⟨_, hs, rfl⟩

/-- A step of the machine is one of the part that it reads. -/
theorem Hosts.exists_settle (h : m.Hosts step resume) {r : ρ} {t : Token} {is js : List Issue}
    {s : σ} (hs : m.step (resume (.more r)) t = ⟨is, .ok (.more ⟨js, .ok s⟩)⟩) :
    ∃ turn, settle step r t = ⟨is ++ js, .ok turn⟩ ∧ s = resume turn := by
  obtain ⟨inner, hinner, hturn⟩ := h.step_eq_ok_iff.1 hs
  obtain ⟨turn, rfl, rfl⟩ := Verdict.map_eq_ok_iff.1 (Turn.more.inj hturn).symm
  exact ⟨turn, settle_eq_ok_iff.2 ⟨is, js, hinner, rfl⟩, rfl⟩

/-- A part that has been read is passed. Some of its issues may be pending. -/
theorem Hosts.exists_pass (h : m.Hosts step resume) {last : Span} {r : ρ} {text : List Token}
    {is js : List Issue} {turn : Turn ρ β} (hp : ∀ t ∈ text, t.IsPlain)
    (hr : Reads step r text js turn) :
    ∃ ks ls, is ++ js = ks ++ ls ∧
      m.pass ⟨last, ⟨is, .ok (resume (.more r))⟩⟩ (text.map .token) =
        ⟨ks, .ok (.more ⟨Token.lastSpan last text, ⟨ls, .ok (resume turn)⟩⟩)⟩ := by
  induction hr generalizing last is with
  | nil r => exact ⟨[], is, by simp, rfl⟩
  | @done r t js v hs =>
    obtain ⟨js, ls, hstep, rfl⟩ := settle_eq_ok_iff.1 hs
    exact ⟨is ++ (js ++ []), ls, by simp,
      pass_cons (hp t List.mem_cons_self) (h.step_of_settled hstep) rfl⟩
  | @more r r' t text _ js turn hs _ ih =>
    obtain ⟨is', ls, hstep, rfl⟩ := settle_eq_ok_iff.1 hs
    obtain ⟨ks, ls', hissues, hpass⟩ :=
      @ih t.span ls fun u hu => hp u (List.mem_cons_of_mem _ hu)
    have hall := @pass_cons σ α m (text.map .token) is last _ t _ is' _ _
      (hp t List.mem_cons_self) (h.step_of_settled hstep) hpass
    exact ⟨is ++ (is' ++ ks), ls', by simp only [List.append_assoc, hissues], hall⟩

/-- A token at which a part begins is passed together with the front of the part. -/
theorem Hosts.exists_pass_cons (h : m.Hosts step resume) {last : Span} {s : σ} {first : Token}
    {r : ρ} {text : List Token} {is : List Issue} {turn : Turn ρ β}
    (hs : m.step s first = pure (.more (pure (resume (.more r)))))
    (hp : ∀ t ∈ first :: text, t.IsPlain) (hr : Reads step r text is turn) :
    ∃ ks l ls, m.pass ⟨last, pure s⟩ ((first :: text).map .token) =
      ⟨ks, .ok (.more ⟨l, ⟨ls, .ok (resume turn)⟩⟩)⟩ := by
  have htext : ∀ t ∈ text, t.IsPlain := fun t hmem => hp t (List.mem_cons_of_mem _ hmem)
  obtain ⟨ks, ls, -, hpass⟩ :=
    @Hosts.exists_pass σ α m ρ β step resume h first.span r text [] is turn htext hr
  exact ⟨_, _, ls, pass_cons (hp first List.mem_cons_self) hs hpass⟩

/-- A part that is read to its end is passed, and nothing is pending behind it if the end of a part
raises no issue. -/
theorem Hosts.pass_of_reads (h : m.Hosts step resume)
    (hdone : ∀ r t is v, settle step r t = ⟨is, .ok (.done v)⟩ → is = [])
    {last : Span} {r : ρ} {text : List Token} {js : List Issue} {v : β}
    (hp : ∀ t ∈ text, t.IsPlain) (hr : Reads step r text js (.done v)) :
    m.pass ⟨last, pure (resume (.more r))⟩ (text.map .token) =
      ⟨js, .ok (.more ⟨Token.lastSpan last text, pure (resume (.done v))⟩)⟩ := by
  obtain ⟨init, t, r', is, ls, rfl, rfl, hinit, hlast⟩ := hr.exists_last fun htext => by
    subst htext
    cases hr
  obtain rfl := hdone r' t ls v hlast
  obtain ⟨is', ls, hstep, hnil⟩ := settle_eq_ok_iff.1 hlast
  obtain ⟨rfl, rfl⟩ := List.append_eq_nil_iff.1 hnil.symm
  obtain ⟨ks, ls, hissues, hpass⟩ := @Hosts.exists_pass σ α m ρ β step resume h last r init [] is
    _ (fun u hu => hp u (by simp [hu])) hinit
  have hend : m.pass ⟨Token.lastSpan last init, ⟨ls, .ok (resume (.more r'))⟩⟩ [.token t] =
      ⟨ls ++ ([] ++ []), .ok (.more ⟨t.span, pure (resume (.done v))⟩)⟩ :=
    pass_cons (hp t (by simp)) (h.step_of_settled hstep) rfl
  have hall : m.pass ⟨last, pure (resume (.more r))⟩ (init.map .token ++ [.token t]) =
      ⟨ks ++ (ls ++ ([] ++ [])), .ok (.more ⟨t.span, pure (resume (.done v))⟩)⟩ :=
    pass_append_of_pass hpass hend
  have hjs : is ++ [] = ks ++ (ls ++ ([] ++ [])) := by simpa using hissues
  rw [List.map_append, Token.lastSpan_append, hjs]
  exact hall

/-- A token at which a part begins is passed together with the part. -/
theorem Hosts.pass_cons_of_reads (h : m.Hosts step resume)
    (hdone : ∀ r t is v, settle step r t = ⟨is, .ok (.done v)⟩ → is = [])
    {last : Span} {s : σ} {first : Token} {r : ρ} {text rest : List Token} {is js : List Issue}
    {v : β} {turn : Turn (Wait σ) α}
    (hs : m.step s first = pure (.more (pure (resume (.more r)))))
    (hp : ∀ t ∈ first :: (text ++ rest), t.IsPlain) (hr : Reads step r text is (.done v))
    (hrest : m.pass ⟨Token.lastSpan first.span text, pure (resume (.done v))⟩ (rest.map .token) =
      ⟨js, .ok turn⟩) :
    m.pass ⟨last, pure s⟩ ((first :: (text ++ rest)).map .token) = ⟨is ++ js, .ok turn⟩ := by
  have htext : m.pass ⟨first.span, pure (resume (.more r))⟩ (text.map .token) =
      ⟨is, .ok (.more ⟨Token.lastSpan first.span text, pure (resume (.done v))⟩)⟩ :=
    h.pass_of_reads hdone (fun t ht => hp t (by simp [ht])) hr
  have hpart := pass_append_of_pass htext hrest
  rw [← List.map_append] at hpart
  have hall : m.pass ⟨last, ⟨[], .ok s⟩⟩ ((first :: (text ++ rest)).map .token) =
      ⟨[] ++ ([] ++ (is ++ js)), .ok turn⟩ :=
    pass_cons (hp first List.mem_cons_self) hs hpart
  exact hall

end Machine

namespace OpenDocument

variable {d : Dialect}

/-- The end of a scene raises no issue. -/
theorem issues_eq_nil_of_scene_done (s : OpenScene) (t : Token) (is : List Issue) (v : Scene)
    (h : settle (OpenScene.step d) s t = ⟨is, .ok (.done v)⟩) : is = [] := by
  cases OpenScene.settle_eq_ok_iff.1 h with
  | close _ _ => rfl

theorem issues_eq_nil_of_author_done (a : LoneAuthor) (t : Token) (is : List Issue) (v : Author)
    (h : settle (LoneAuthor.step d) a t = ⟨is, .ok (.done v)⟩) : is = [] :=
  (LoneAuthor.settle_eq_ok_iff.1 h).1

/-- A document goes on behind its scenes and authors with nothing pending. -/
theorem pass_of_reads {last : Span} {document : Document} {text : List Token}
    {issues : List Issue} {scenes : List Scene} {authors : List Author}
    (ht : ∀ t ∈ text, t.IsPlain) (h : DocumentReads d text issues scenes authors) :
    (machine d).pass ⟨last, pure (items document)⟩ (text.map .token) =
      ⟨issues, .ok (.more ⟨Token.lastSpan last text,
        pure (items ⟨document.scenes ++ scenes, document.authors ++ authors⟩)⟩)⟩ := by
  induction h generalizing last document with
  | nil =>
    rw [List.append_nil, List.append_nil]
    rfl
  | @scene keyword text rest is js s scenes authors hk hr _ ih =>
    apply (hosts_scene document).pass_cons_of_reads issues_eq_nil_of_scene_done
      (step_items_scene hk) ht hr
    have hrest : ∀ t ∈ rest, t.IsPlain := fun t h => ht t (by simp [h])
    have hpass := @ih (Token.lastSpan keyword.span text)
      { document with scenes := document.scenes ++ [s] } hrest
    simpa [resumeScene, Token.lastSpan, Token.lastSpan_append] using hpass
  | @author keyword text rest is js a scenes authors hk hr _ ih =>
    apply (hosts_author document).pass_cons_of_reads issues_eq_nil_of_author_done
      (step_items_author hk) ht hr
    have hrest : ∀ t ∈ rest, t.IsPlain := fun t h => ht t (by simp [h])
    have hpass := @ih (Token.lastSpan keyword.span text)
      { document with authors := document.authors ++ [a] } hrest
    simpa [resumeAuthor, Token.lastSpan, Token.lastSpan_append] using hpass

end OpenDocument
end Scenario
