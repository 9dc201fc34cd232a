import Scenario.Proofs.Grammar.Acceptance
import Scenario.Proofs.Layout
import Scenario.Proofs.Passing

/-!
# Reading only the beginning

A scene or an author may be read from the beginning of a stream, with anything behind it. Then the
part of the stream that is read is one that is accepted as a whole, with the same result and the
same warnings. There is only one such part: a declaration that has been read to its end reads no
further token, so nothing that is accepted begins anything else that is.

The item behind that part is looked at, but only to see whether it is a token. If it is an error,
this error is reported and there is no result.

Main statement: `Target.leading_reads_front`.
-/

namespace Scenario

namespace Item

def isEof : Item → Bool
  | token t => t.kind = .eof
  | _ => false

/-- The items of a stream up to its end, without comments. -/
def trimmed (items : List Item) : List Item := (uncommented items).takeWhile (!·.isEof)

/-- A stream may go on with the items behind a declaration: there is no item, or a token. -/
def MayFollow (rest : List Item) : Prop := ∀ item ∈ rest.head?, ∃ t, item = .token t

variable {t : Token} {rest : List Item}

theorem trimmed_comment (h : t.kind = .comment) : trimmed (.token t :: rest) = trimmed rest := by
  simp [trimmed, uncommented, isComment, h]

theorem trimmed_eof (h : t.kind = .eof) : trimmed (.token t :: rest) = [] := by
  simp [trimmed, uncommented, isComment, isEof, h]

theorem trimmed_plain (h : t.IsPlain) : trimmed (.token t :: rest) = .token t :: trimmed rest := by
  simp [trimmed, uncommented, isComment, isEof, h.1, h.2]

theorem trimmed_error (e : LexicalError) :
    trimmed (.error e :: rest) = .error e :: trimmed rest := by
  simp [trimmed, uncommented, isComment, isEof]

theorem trimmed_fault (f : Fault) : trimmed (.fault f :: rest) = .fault f :: trimmed rest := by
  simp [trimmed, uncommented, isComment, isEof]

/-- What is cut off begins with a token of kind `eof`. -/
theorem exists_uncommented_eq (items : List Item) :
    ∃ cut, uncommented items = trimmed items ++ cut ∧
      ∀ item ∈ cut.head?, ∃ t, item = .token t ∧ t.kind = .eof := by
  refine ⟨(uncommented items).dropWhile (!·.isEof), List.takeWhile_append_dropWhile.symm, ?_⟩
  intro item hitem
  have heof := List.head?_dropWhile_not (!·.isEof) (uncommented items)
  rw [Option.mem_def.1 hitem] at heof
  cases item with
  | token t => exact ⟨t, rfl, by simpa [isEof] using heof⟩
  | error e => simp [isEof] at heof
  | fault f => simp [isEof] at heof

/-- The tokens of what is left of a stream are plain tokens of it. -/
theorem plain_of_mem_trimmed {items : List Item} (h : .token t ∈ trimmed items) :
    .token t ∈ items ∧ t.IsPlain := by
  have heof := List.mem_takeWhile_imp h
  have hmem := List.mem_filter.1 ((List.takeWhile_sublist _).mem h)
  refine ⟨hmem.1, ?_, ?_⟩
  · simpa [isComment] using hmem.2
  · simpa [isEof] using heof

theorem plain_of_trimmed_eq {items : List Item} {text : List Token}
    (hi : ∀ t, .token t ∈ items → t.span.Fits)
    (h : trimmed items = text.map .token ++ rest) : ∀ t ∈ text, t.IsPlain ∧ t.span.Fits := by
  intro t ht
  have hmem : .token t ∈ trimmed items := by simp [h, ht]
  obtain ⟨hitem, hplain⟩ := plain_of_mem_trimmed hmem
  exact ⟨hplain, hi t hitem⟩

/-- What is cut off behind the items does not matter to whether a stream may go on with them. -/
theorem MayFollow.trimmed_append {cut : List Item} (h : MayFollow rest)
    (hp : ∀ t, .token t ∈ rest → t.IsPlain)
    (hcut : ∀ item ∈ cut.head?, ∃ t, item = .token t ∧ t.kind = .eof) :
    MayFollow (trimmed (rest ++ cut)) := by
  cases rest with
  | nil =>
    cases cut with
    | nil => simp [MayFollow, trimmed, uncommented]
    | cons item cut =>
      obtain ⟨t, rfl, he⟩ := hcut item rfl
      rw [List.nil_append, trimmed_eof he]
      simp [MayFollow]
  | cons item rest =>
    obtain ⟨t, rfl⟩ := h item rfl
    rw [List.cons_append, trimmed_plain (hp t List.mem_cons_self)]
    simp [MayFollow]

end Item

/-- A part that is read to its end reads nothing more, so it does not begin any other. -/
theorem Reads.eq_of_isPrefix {ρ α : Type} {step : ρ → Token → Verdict (Verdict (Turn ρ α))} {r : ρ}
    {text text' : List Token} {is js : List Issue} {v w : α} (h : Reads step r text is (.done v))
    (h' : Reads step r text' js (.done w)) (hp : text <+: text') : text = text' := by
  generalize hturn : Turn.done v = turn at h
  induction h generalizing text' js with
  | nil r => cases hturn
  | done hs =>
    cases h' with
    | done _ => exact hp.eq_of_length rfl
    | more hs' _ =>
      obtain ⟨rfl, -⟩ := List.cons_prefix_cons.1 hp
      rw [hs] at hs'
      cases hs'
  | more hs _ ih =>
    cases h' with
    | done hs' =>
      obtain ⟨rfl, -⟩ := List.cons_prefix_cons.1 hp
      rw [hs] at hs'
      cases hs'
    | more hs' hr' =>
      obtain ⟨rfl, hrest⟩ := List.cons_prefix_cons.1 hp
      rw [hs] at hs'
      cases hs'
      rw [ih hr' hrest hturn]

namespace Sole

variable {ρ α : Type} {keyword : Keyword} {first : Span → ρ}
  {step : ρ → Token → Verdict (Verdict (Turn ρ α))} {unfinished : ρ → Span → Issue}
  {last : Span} {items rest : List Item} {text more : List Token} {issues : List Issue}
  {v value : α}

/-- A declaration that is complete is the result, if the stream may go on as it does. -/
theorem accepts_complete_iff (hl : last.Fits) :
    (machine keyword first step unfinished .leading).Accepts last (complete v) items issues value ↔
      Item.MayFollow (Item.trimmed items) ∧ issues = [] ∧ v = value := by
  induction items with
  | nil =>
    simp [Machine.accepts_nil_iff, Span.shrinkToEnd_of_fits hl, machine, Item.MayFollow,
      Item.trimmed, Item.uncommented]
  | cons item items ih =>
    cases item with
    | error e => simp [Machine.not_accepts_error, Item.trimmed_error, Item.MayFollow]
    | fault f => simp [Machine.not_accepts_fault, Item.trimmed_fault, Item.MayFollow]
    | token t =>
      by_cases hc : t.kind = .comment
      · rw [Machine.accepts_comment_iff hc, Item.trimmed_comment hc, ih]
      by_cases he : t.kind = .eof
      · simp [Machine.accepts_eof_iff he, Item.trimmed_eof he, machine, Item.MayFollow]
      · rw [Machine.accepts_plain_iff ⟨hc, he⟩, Item.trimmed_plain ⟨hc, he⟩]
        simp [machine, Item.MayFollow]

/-- A result comes of a declaration that is read to its end, at the beginning of the stream. -/
theorem exists_front_of_accepts {r : ρ} (hi : ∀ t, Item.token t ∈ items → t.span.Fits)
    (h : (machine keyword first step unfinished .leading).Accepts last (reading r) items issues
      value) :
    ∃ text rest, Item.trimmed items = text.map .token ++ rest ∧ Item.MayFollow rest ∧
      Reads step r text issues (.done value) := by
  have hh : (machine keyword first step unfinished .leading).Hosts step resume :=
    hosts_machine .leading
  induction items generalizing last r issues with
  | nil =>
    obtain ⟨stop, -, hf⟩ := Machine.accepts_nil_iff.1 h
    exact (hh.finish_ne _ _ _ _ hf).elim
  | cons item items ih =>
    have hitems : ∀ t, Item.token t ∈ items → t.span.Fits :=
      fun t ht => hi t (List.mem_cons_of_mem _ ht)
    cases item with
    | error e => exact (Machine.not_accepts_error h).elim
    | fault f => exact (Machine.not_accepts_fault h).elim
    | token t =>
      by_cases hc : t.kind = .comment
      · rw [Item.trimmed_comment hc]
        exact ih hitems ((Machine.accepts_comment_iff hc).1 h)
      by_cases he : t.kind = .eof
      · exact (hh.finish_ne _ _ _ _ ((Machine.accepts_eof_iff he).1 h)).elim
      rw [Item.trimmed_plain ⟨hc, he⟩]
      rcases (Machine.accepts_plain_iff ⟨hc, he⟩).1 h with
        hs | ⟨is, p, js, state, ks, hs, rfl, ha, rfl⟩
      · obtain ⟨inner, -, hturn⟩ := hh.step_eq_ok_iff.1 hs
        cases hturn
      obtain ⟨turn, hsettle, rfl⟩ := hh.exists_settle hs
      cases turn with
      | more r' =>
        obtain ⟨text, rest, htext, hrest, hr⟩ := ih hitems ha
        refine ⟨t :: text, rest, by rw [htext]; rfl, hrest, ?_⟩
        rw [← List.append_assoc]
        exact .more hsettle hr
      | done v =>
        obtain ⟨hrest, rfl, rfl⟩ := (accepts_complete_iff (hi t List.mem_cons_self)).1 ha
        exact ⟨[t], Item.trimmed items, rfl, hrest, .done (by simpa using hsettle)⟩

theorem exists_front_of_accepts_start (hi : ∀ t, Item.token t ∈ items → t.span.Fits)
    (h : (machine keyword first step unfinished .leading).Accepts last start items issues value) :
    ∃ t text rest, Item.trimmed items = (t :: text).map .token ++ rest ∧ Item.MayFollow rest ∧
      t.kind = .keyword keyword ∧ Reads step (first t.span) text issues (.done value) := by
  induction items with
  | nil => simp [Machine.accepts_nil_iff, machine] at h
  | cons item items ih =>
    have hitems : ∀ t, Item.token t ∈ items → t.span.Fits :=
      fun t ht => hi t (List.mem_cons_of_mem _ ht)
    cases item with
    | error e => exact (Machine.not_accepts_error h).elim
    | fault f => exact (Machine.not_accepts_fault h).elim
    | token t =>
      by_cases hc : t.kind = .comment
      · rw [Item.trimmed_comment hc]
        exact ih hitems ((Machine.accepts_comment_iff hc).1 h)
      by_cases he : t.kind = .eof
      · simp [Machine.accepts_eof_iff he, machine] at h
      by_cases hk : t.kind = .keyword keyword
      · have hs : (machine keyword first step unfinished .leading).step start t =
            pure (.more (pure (reading (first t.span)))) := by
          simp [machine, hk]
        rw [Item.trimmed_plain ⟨hc, he⟩]
        rcases (Machine.accepts_plain_iff ⟨hc, he⟩).1 h with
          hdone | ⟨is, p, js, state, ks, hmore, hp, ha, rfl⟩
        · rw [hs] at hdone
          cases hdone
        rw [hs] at hmore
        cases hmore
        cases hp
        obtain ⟨text, rest, htext, hrest, hr⟩ := exists_front_of_accepts hitems ha
        exact ⟨t, text, rest, by rw [htext]; rfl, hrest, hk, hr⟩
      · simp [Machine.accepts_plain_iff ⟨hc, he⟩, machine, hk] at h

/-- A declaration that is accepted as a whole is passed, and nothing is pending behind it. -/
theorem pass_of_accepts {extent : Extent}
    (hdone : ∀ r t is v, settle step r t = ⟨is, .ok (.done v)⟩ → is = [])
    (ht : ∀ t ∈ text, t.IsPlain ∧ t.span.Fits)
    (h : (machine keyword first step unfinished .whole).Accepts last start (text.map .token) issues
      value) :
    (machine keyword first step unfinished extent).pass ⟨last, pure start⟩ (text.map .token) =
      ⟨issues, .ok (.more ⟨Token.lastSpan last text, pure (complete value)⟩)⟩ := by
  obtain ⟨t, text, rfl, hk, hr⟩ := (accepts_iff ht).1 h
  have hs : (machine keyword first step unfinished extent).step start t =
      pure (.more (pure (resume (.more (first t.span))))) := by
    simp [machine, hk, resume]
  have hplain : ∀ u ∈ t :: (text ++ []), u.IsPlain := fun u hu => (ht u (by simpa using hu)).1
  have hend : (machine keyword first step unfinished extent).pass
      ⟨Token.lastSpan t.span text, pure (resume (.done value))⟩ (List.map .token []) =
      ⟨[], .ok (.more ⟨Token.lastSpan t.span text, pure (complete value)⟩)⟩ := rfl
  have hpass : (machine keyword first step unfinished extent).pass ⟨last, pure start⟩
      ((t :: (text ++ [])).map .token) =
      ⟨issues ++ [], .ok (.more ⟨Token.lastSpan t.span text, pure (complete value)⟩)⟩ :=
    (hosts_machine extent).pass_cons_of_reads hdone hs hplain hr hend
  simpa [Token.lastSpan] using hpass

/-- Behind a declaration that is accepted as a whole, the run goes on with the rest of the stream,
and with what has been cut off. -/
theorem exists_run_eq_of_accepts
    (hdone : ∀ r t is v, settle step r t = ⟨is, .ok (.done v)⟩ → is = [])
    (hi : ∀ t, Item.token t ∈ items → t.span.Fits)
    (htext : Item.trimmed items = text.map .token ++ rest)
    (h : (machine keyword first step unfinished .whole).Accepts last start (text.map .token) issues
      value) :
    ∃ cut verdict, (∀ item ∈ cut.head?, ∃ t, item = .token t ∧ t.kind = .eof) ∧
      (machine keyword first step unfinished .leading).run
        ⟨Token.lastSpan last text, pure (complete value)⟩ (rest ++ cut) = verdict ∧
      (machine keyword first step unfinished .leading).run ⟨last, pure start⟩ items =
        ⟨issues ++ verdict.issues, verdict.result⟩ := by
  obtain ⟨cut, hitems, hcut⟩ := Item.exists_uncommented_eq items
  refine ⟨cut, _, hcut, rfl, ?_⟩
  rw [← Machine.run_uncommented _ _ items, hitems, htext, List.append_assoc]
  exact Machine.run_append_of_pass (pass_of_accepts hdone (Item.plain_of_trimmed_eq hi htext) h)

/-- Just the streams that start with a declaration, and may go on as they do, give a result. -/
theorem accepts_leading_iff (hl : last.Fits)
    (hdone : ∀ r t is v, settle step r t = ⟨is, .ok (.done v)⟩ → is = [])
    (hi : ∀ t, Item.token t ∈ items → t.span.Fits) :
    (machine keyword first step unfinished .leading).Accepts last start items issues value ↔
      ∃ text rest, Item.trimmed items = List.map .token text ++ rest ∧ Item.MayFollow rest ∧
        (machine keyword first step unfinished .whole).Accepts last start (text.map .token) issues
          value := by
  constructor
  · intro h
    obtain ⟨t, text, rest, htext, hrest, hk, hr⟩ := exists_front_of_accepts_start hi h
    exact ⟨t :: text, rest, htext, hrest,
      (accepts_iff (Item.plain_of_trimmed_eq hi htext)).2 ⟨t, text, rfl, hk, hr⟩⟩
  · rintro ⟨text, rest, htext, hrest, h⟩
    obtain ⟨cut, verdict, hcut, hverdict, hrun⟩ := exists_run_eq_of_accepts hdone hi htext h
    have hlast : (Token.lastSpan last text).Fits :=
      Token.fits_lastSpan hl fun t ht => (Item.plain_of_trimmed_eq hi htext t ht).2
    have hplain : ∀ t, .token t ∈ rest → t.IsPlain := by
      intro t ht
      have hmem : .token t ∈ Item.trimmed items := by simp [htext, ht]
      exact (Item.plain_of_mem_trimmed hmem).2
    have hcomplete : (machine keyword first step unfinished .leading).Accepts
        (Token.lastSpan last text) (complete value) (rest ++ cut) [] value :=
      (accepts_complete_iff hlast).2 ⟨hrest.trimmed_append hplain hcut, rfl, rfl⟩
    rw [Machine.Accepts] at hcomplete ⊢
    rw [hrun, ← hverdict, hcomplete, List.append_nil]

/-- An error right behind a declaration is all that is added to what the declaration raises. -/
theorem run_eq_of_error (hdone : ∀ r t is v, settle step r t = ⟨is, .ok (.done v)⟩ → is = [])
    (hi : ∀ t, Item.token t ∈ items → t.span.Fits) {e : LexicalError}
    (htext : Item.trimmed items = text.map .token ++ .error e :: rest)
    (h : (machine keyword first step unfinished .whole).Accepts last start (text.map .token) issues
      value) :
    (machine keyword first step unfinished .leading).run ⟨last, pure start⟩ items =
      ⟨issues ++ [.lexical e], .error .rejected⟩ := by
  obtain ⟨cut, verdict, -, rfl, hrun⟩ := exists_run_eq_of_accepts hdone hi htext h
  rw [hrun]
  rfl

/-- No declaration that is accepted as a whole begins another. -/
theorem eq_of_isPrefix_of_accepts {text' : List Token} {js : List Issue} {w : α}
    (ht : ∀ t ∈ text', t.IsPlain ∧ t.span.Fits) (hp : text <+: text')
    (h : (machine keyword first step unfinished .whole).Accepts last start (text.map .token) issues
      v)
    (h' : (machine keyword first step unfinished .whole).Accepts last start (text'.map .token) js
      w) : text = text' := by
  obtain ⟨t, rest, rfl, -, hr⟩ := (accepts_iff fun t hmem => ht t (hp.mem hmem)).1 h
  obtain ⟨t', rest', rfl, -, hr'⟩ := (accepts_iff ht).1 h'
  obtain ⟨rfl, hrest⟩ := List.cons_prefix_cons.1 hp
  rw [hr.eq_of_isPrefix hr' hrest]

end Sole

namespace Target

variable {target : Target} {d : Dialect} {extent : Extent} {base : Nat} {items : List Item}

/-- Parsing the stream gives the value, and records the warnings behind what is recorded already. -/
def Gives (target : Target) (d : Dialect) (extent : Extent) (base : Nat) (items : List Item)
    (value : target.Node) (warnings : List Diagnostic) : Prop :=
  ∀ journal : Journal, target.readInto d extent base items journal =
    (.ok value, journal.recordAll warnings)

theorem gives_iff {value : target.Node} {warnings : List Diagnostic} :
    target.Gives d extent base items value warnings ↔
      ∃ issues, (target.machine d extent).Accepts ⟨base, 0⟩ (target.machine d extent).start items
        issues value ∧ warnings = issues.map Issue.diagnostic := by
  constructor
  · intro h
    obtain ⟨hvalue, hjournal⟩ := Prod.mk.inj (h .empty)
    refine ⟨(target.read d extent base items).issues, ?_, ?_⟩
    · have hread : target.read d extent base items =
          ⟨(target.read d extent base items).issues, .ok value⟩ := by
        rw [← hvalue]
      exact hread
    · simpa [Journal.recordAll, Journal.empty] using hjournal.symm
  · rintro ⟨issues, h, rfl⟩ journal
    have hread : target.read d extent base items = ⟨issues, .ok value⟩ := h
    rw [readInto, hread]

/-- A scene or an author is read from the beginning of a stream just if some tokens there are one as
a whole, and the stream may go on behind them. -/
theorem gives_leading_iff (htarget : target ≠ .document) (hb : base ≤ positionLimit)
    (hi : ∀ t, .token t ∈ items → t.span.Fits) {value : target.Node} {warnings : List Diagnostic} :
    target.Gives d .leading base items value warnings ↔
      ∃ text rest, Item.trimmed items = List.map .token text ++ rest ∧ Item.MayFollow rest ∧
        target.Gives d .whole base (text.map .token) value warnings := by
  have haccepts : ∀ issues, (target.machine d .leading).Accepts ⟨base, 0⟩
      (target.machine d .leading).start items issues value ↔
        ∃ text rest, Item.trimmed items = List.map .token text ++ rest ∧ Item.MayFollow rest ∧
          (target.machine d .whole).Accepts ⟨base, 0⟩ (target.machine d .whole).start
            (text.map .token) issues value := by
    intro issues
    cases target with
    | document => exact (htarget rfl).elim
    | scene => exact Sole.accepts_leading_iff hb OpenDocument.issues_eq_nil_of_scene_done hi
    | author => exact Sole.accepts_leading_iff hb OpenDocument.issues_eq_nil_of_author_done hi
  simp only [gives_iff, haccepts]
  constructor
  · rintro ⟨issues, ⟨text, rest, htext, hrest, h⟩, hwarnings⟩
    exact ⟨text, rest, htext, hrest, issues, h, hwarnings⟩
  · rintro ⟨text, rest, htext, hrest, issues, h, hwarnings⟩
    exact ⟨issues, ⟨text, rest, htext, hrest, h⟩, hwarnings⟩

/-- No scene begins another scene, and no author another author. -/
theorem eq_of_isPrefix_of_gives (htarget : target ≠ .document) {text text' : List Token}
    {v w : target.Node} {ws ws' : List Diagnostic} (ht : ∀ t ∈ text', t.IsPlain ∧ t.span.Fits)
    (hp : text <+: text') (h : target.Gives d .whole base (text.map .token) v ws)
    (h' : target.Gives d .whole base (text'.map .token) w ws') : text = text' := by
  obtain ⟨issues, ha, -⟩ := gives_iff.1 h
  obtain ⟨issues', ha', -⟩ := gives_iff.1 h'
  cases target with
  | document => exact (htarget rfl).elim
  | scene => exact Sole.eq_of_isPrefix_of_accepts ht hp ha ha'
  | author => exact Sole.eq_of_isPrefix_of_accepts ht hp ha ha'

/-- There is at most one part to read at the beginning of a stream. -/
theorem eq_of_trimmed_eq_of_gives (htarget : target ≠ .document)
    (hi : ∀ t, .token t ∈ items → t.span.Fits) {text text' : List Token} {rest rest' : List Item}
    {v w : target.Node} {ws ws' : List Diagnostic}
    (htext : Item.trimmed items = text.map .token ++ rest)
    (htext' : Item.trimmed items = text'.map .token ++ rest')
    (h : target.Gives d .whole base (text.map .token) v ws)
    (h' : target.Gives d .whole base (text'.map .token) w ws') : text = text' := by
  have hinj : Function.Injective Item.token := fun _ _ => Item.token.inj
  have hfront : text.map .token <+: Item.trimmed items := ⟨rest, htext.symm⟩
  have hfront' : text'.map .token <+: Item.trimmed items := ⟨rest', htext'.symm⟩
  rcases List.prefix_or_prefix_of_prefix hfront hfront' with hp | hp
  · exact eq_of_isPrefix_of_gives htarget (Item.plain_of_trimmed_eq hi htext')
      ((List.prefix_map_iff_of_injective hinj).1 hp) h h'
  · exact (eq_of_isPrefix_of_gives htarget (Item.plain_of_trimmed_eq hi htext)
      ((List.prefix_map_iff_of_injective hinj).1 hp) h' h).symm

/-- An error right behind a scene or an author is recorded alone, behind the warnings there. -/
theorem readInto_leading_of_error (htarget : target ≠ .document)
    (hi : ∀ t, .token t ∈ items → t.span.Fits) {text : List Token} {rest : List Item}
    {e : LexicalError} {value : target.Node} {warnings : List Diagnostic}
    (htext : Item.trimmed items = text.map .token ++ .error e :: rest)
    (h : target.Gives d .whole base (text.map .token) value warnings) (journal : Journal) :
    target.readInto d .leading base items journal =
      (.error .rejected, journal.recordAll (warnings ++ [(Issue.lexical e).diagnostic])) := by
  obtain ⟨issues, ha, rfl⟩ := gives_iff.1 h
  have hread : target.read d .leading base items = ⟨issues ++ [.lexical e], .error .rejected⟩ := by
    cases target with
    | document => exact (htarget rfl).elim
    | scene => exact Sole.run_eq_of_error OpenDocument.issues_eq_nil_of_scene_done hi htext ha
    | author => exact Sole.run_eq_of_error OpenDocument.issues_eq_nil_of_author_done hi htext ha
  rw [readInto, hread]
  simp

/-- Reading a scene or an author from the beginning of a stream is reading the one part there that
is accepted as a whole. For documents it makes no difference how much is to be read. -/
theorem leading_reads_front (target : Target) (d : Dialect) (hb : base ≤ positionLimit)
    (hi : ∀ t, .token t ∈ items → t.span.Fits) :
    (target ≠ .document →
      (∀ value warnings, target.Gives d .leading base items value warnings ↔
        ∃ text rest, Item.trimmed items = List.map .token text ++ rest ∧ Item.MayFollow rest ∧
          target.Gives d .whole base (text.map .token) value warnings) ∧
      (∀ text text' rest rest' v w ws ws', Item.trimmed items = List.map .token text ++ rest →
        Item.trimmed items = List.map .token text' ++ rest' →
        target.Gives d .whole base (text.map .token) v ws →
        target.Gives d .whole base (text'.map .token) w ws' → text = text') ∧
      (∀ text text' v w ws ws', (∀ t ∈ text', t.IsPlain ∧ t.span.Fits) → text <+: text' →
        target.Gives d .whole base (text.map .token) v ws →
        target.Gives d .whole base (text'.map .token) w ws' → text = text') ∧
      ∀ text rest e value warnings,
        Item.trimmed items = List.map .token text ++ .error e :: rest →
        target.Gives d .whole base (text.map .token) value warnings → ∀ journal,
          target.readInto d .leading base items journal = (.error .rejected,
            journal.recordAll (warnings ++ [(Issue.lexical e).diagnostic]))) ∧
    ∀ journal, Target.document.readInto d .leading base items journal =
      Target.document.readInto d .whole base items journal := by
  refine ⟨fun htarget => ⟨?_, ?_, ?_, ?_⟩, fun _ => rfl⟩
  · exact fun value warnings => gives_leading_iff htarget hb hi
  · exact fun _ _ _ _ _ _ _ _ => eq_of_trimmed_eq_of_gives htarget hi
  · exact fun _ _ _ _ _ _ => eq_of_isPrefix_of_gives htarget
  · exact fun _ _ _ _ _ => readInto_leading_of_error htarget hi

/-- A scene with a token to skip in it, and the start of a string literal behind it: the literal is
an error that is reported, unless there is a token in front of it. -/
theorem leading_reads_front_scene :
    let text : List Token := [⟨.keyword .scene, "scene", ⟨2, 5⟩⟩, ⟨.ident, "s", ⟨8, 1⟩⟩,
      ⟨.openBrace, "\x7b", ⟨10, 1⟩⟩, ⟨.str, "x", ⟨12, 3⟩⟩, ⟨.closeBrace, "\x7d", ⟨16, 1⟩⟩]
    let front : List Item := .token ⟨.comment, "#", ⟨0, 1⟩⟩ :: text.map .token
    let literal : LexicalError := ⟨.unterminatedLiteral, ⟨20, 1⟩⟩
    let skipped : Issue := .skipped ⟨.str, "x", ⟨12, 3⟩⟩ "s"
    Target.scene.Gives .standard .leading 0
        (front ++ [.token ⟨.ident, "t", ⟨18, 1⟩⟩, .error literal]) (.ofSpan "s" ⟨2, 15⟩)
        [skipped.diagnostic] ∧
      ∀ journal, Target.scene.readInto .standard .leading 0 (front ++ [.error literal]) journal =
        (.error .rejected,
          journal.recordAll [skipped.diagnostic, (Issue.lexical literal).diagnostic]) := by
  intro text front literal skipped
  have hwhole : Target.scene.Gives .standard .whole 0 (text.map .token) (.ofSpan "s" ⟨2, 15⟩)
      [skipped.diagnostic] := fun _ => rfl
  have hfront : ∀ rest, (∀ t, .token t ∈ rest → t.span.Fits) →
      ∀ t, .token t ∈ front ++ rest → t.span.Fits := by
    intro rest hrest t ht
    rcases List.mem_append.1 ht with h | h
    · have hall : ∀ t ∈ (⟨.comment, "#", ⟨0, 1⟩⟩ :: text : List Token), t.span.Fits := by decide
      exact hall t (by simpa [front] using h)
    · exact hrest t h
  constructor
  · have hi := hfront [.token ⟨.ident, "t", ⟨18, 1⟩⟩, .error literal]
      (by simp [Span.Fits, positionLimit])
    exact (((leading_reads_front .scene .standard (Nat.zero_le _) hi).1 (by decide)).1 _ _).2
      ⟨text, [.token ⟨.ident, "t", ⟨18, 1⟩⟩, .error literal], rfl, by simp [Item.MayFollow], hwhole⟩
  · have hi := hfront [.error literal] (by simp)
    exact ((leading_reads_front .scene .standard (Nat.zero_le _) hi).1 (by decide)).2.2.2 text []
      literal _ _ rfl hwhole

end Target
end Scenario
