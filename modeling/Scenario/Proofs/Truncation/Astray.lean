import Scenario.Proofs.Grammar.Completeness
import Scenario.Proofs.Grammar.Soundness
import Scenario.Proofs.Passing
import Scenario.Proofs.Truncation.Completion

/-!
# Branches outside of scenes

Which tokens end with the keyword of a branch in an author that belongs to no scene is told by the
grammar: they are a document, behind it the front of an author up to some place in its body outside
of all braces there, and the keyword.

The machine is in a state of such a branch exactly behind such tokens. In one direction the tokens
are passed like those of a script. In the other, what the machine holds is backed by the tokens that
it has passed, and each step keeps it so. At the keyword of the branch a closing brace would have
ended the author, so what is known about authors that are read to their ends applies.

Main statement: `Target.isStray_iff_of_pass`.
-/

namespace Scenario

/-- The front of an author outside of scenes that ends with the keyword of a branch, where there
should be none. -/
inductive AuthorAstray (d : Dialect) : List Token → Prop
  | intro {keyword name branch : Token} {opening content : List Token} :
      keyword.kind = .keyword .author → name.kind = .ident → branch.kind = .keyword .branch →
      Opening d opening (content ++ [branch]) → AuthorContent d false content [] →
      AuthorAstray d (keyword :: name :: (opening ++ (content ++ [branch])))

/-- The tokens that are read as the target end with the keyword of a branch in the body of an author
that is not inside a scene. -/
def Target.Astray (d : Dialect) : Target → List Token → Prop
  | document => fun text => ∃ before scenes authors rest, text = before ++ rest ∧
      DocumentContent d before scenes authors ∧ AuthorAstray d rest
  | scene => fun _ => False
  | author => AuthorAstray d

variable {d : Dialect}

theorem Opening.congr_last {opening content : List Token} {t u : Token} (hu : u.kind ≠ .openBrace)
    (h : Opening d opening (content ++ [t])) : Opening d opening (content ++ [u]) := by
  cases h with
  | brace hk => exact .brace hk
  | missing hb hhead =>
    apply Opening.missing hb
    cases content with
    | nil => simpa using hu
    | cons v content => simpa using hhead

theorem DocumentContent.append {left right : List Token} {scenes scenes' : List Scene}
    {authors authors' : List Author} (hl : DocumentContent d left scenes authors)
    (hr : DocumentContent d right scenes' authors') :
    DocumentContent d (left ++ right) (scenes ++ scenes') (authors ++ authors') := by
  induction hl with
  | nil => exact hr
  | scene hs _ ih =>
    rw [List.append_assoc]
    exact .scene hs ih
  | author ha _ ih =>
    rw [List.append_assoc]
    exact .author ha ih

theorem Declaration.spans_of_moves {good : Span → Prop} {decl decl' : Declaration} {t : Token}
    (h : Moves d t decl (.more decl')) (hd : decl.Spans good) : decl'.Spans good := by
  cases h <;> exact hd

namespace LoneAuthor

/-- A declaration that is being read keeps the span at which it was opened. -/
theorem spans_of_reads {good : Span → Prop} {decl decl' : Declaration} {text : List Token}
    {is : List Issue} (hd : decl.Spans good)
    (h : Reads (step d) (reading decl) text is (.more (reading decl'))) : decl'.Spans good := by
  induction text generalizing decl is with
  | nil =>
    cases h
    exact hd
  | cons t text ih =>
    cases h with
    | more hs hr =>
      cases (settle_eq_ok_iff.1 hs).2 with
      | decl hb hm => exact ih (Declaration.spans_of_moves hm (Declaration.spans_enter hd)) hr
      | stray hb =>
        cases hr with
        | more hs _ => cases (settle_eq_ok_iff.1 hs).2

/-- Where a branch begins outside of scenes, a closing brace would end the author. -/
theorem moves_closeBrace {decl : Declaration} {t : Token} {author : Header}
    (hb : decl.branchPlace? d t = some author) :
    Declaration.Moves d .closeBrace (decl.enter d .closeBrace) (.done (author, ⟨0, 0⟩)) := by
  obtain ⟨he, hk⟩ := Declaration.branchPlace?_eq_some_iff.1 hb
  have henter : decl.enter d .closeBrace = decl.enter d t := by
    have hclose : Token.closeBrace.kind = .closeBrace := rfl
    cases decl <;> simp [Declaration.enter, hk, hclose]
  rw [henter, he]
  exact .close rfl

/-- An author outside of scenes ends with the token behind its content. -/
theorem exists_content_of_form {keyword last : Token} {init : List Token} {a : Author}
    (h : LoneAuthorForm d (keyword :: (init ++ [last])) a) :
    ∃ name opening content, init = name :: (opening ++ content) ∧ name.kind = .ident ∧
      Opening d opening (content ++ [last]) ∧ AuthorContent d false content [] := by
  unfold LoneAuthorForm at h
  generalize hall : keyword :: (init ++ [last]) = all at h
  obtain @⟨_, name, right, opening, content, _, _, -, hn, -, ho, hc, -⟩ := h
  have htail := (List.cons.inj hall).2
  rw [← List.append_assoc, ← List.cons_append] at htail
  obtain ⟨hinit, hlast⟩ := List.append_inj' htail rfl
  cases hlast
  exact ⟨name, opening, content, hinit, hn, ho, hc⟩

theorem astray_iff {keyword : Token} {rest : List Token} (hk : keyword.kind = .keyword .author)
    (hf : keyword.span.Fits) :
    AuthorAstray d (keyword :: rest) ↔
      ∃ is author opened, Reads (step d) (start keyword.span) rest is
        (.more (stray author opened)) := by
  constructor
  · intro h
    obtain @⟨_, name, branch, opening, content, -, hn, hb, ho, hc⟩ := h
    have hstray : Moves d branch (reading (.inside ⟨.author, keyword.span, name.value⟩ 0))
        (.more (stray ⟨.author, keyword.span, name.value⟩ branch.span)) :=
      .stray (Declaration.branchPlace?_eq_some_iff.2 ⟨rfl, hb⟩)
    have hbody := reads_content hc (.single (settle_eq_ok_iff.2 ⟨rfl, hstray⟩))
    exact ⟨[], _, _, carries.reads_header hn ho (by simp) hbody⟩
  · rintro ⟨is, author, opened, h⟩
    obtain ⟨init, t, a, js, ks, rfl, -, hinit, hlast⟩ := h.exists_last fun hrest => by
      subst hrest
      cases h
    cases (settle_eq_ok_iff.1 hlast).2 with
    | @stray decl _ hb =>
      -- With a closing brace in place of the keyword, the author would be read to its end.
      have hstart : (Declaration.opened .author keyword.span).Spans Span.Fits := hf
      have hd := spans_of_reads hstart hinit
      obtain ⟨span, hu⟩ := Span.exists_union (Declaration.spans_of_branchPlace? hd hb)
        (by decide : (⟨0, 0⟩ : Span).Fits)
      have hclose : Moves d .closeBrace (reading decl) (.done ⟨author.id, span⟩) :=
        .close (Declaration.branchPlace?_of_ne (by decide)) (moves_closeBrace hb) hu
      have hform := form_of_reads hk
        (hinit.append (.done (settle_eq_ok_iff.2 ⟨rfl, hclose⟩)))
      obtain ⟨name, opening, content, rfl, hn, ho, hc⟩ := exists_content_of_form hform
      have hbranch := (Declaration.branchPlace?_eq_some_iff.1 hb).2
      have hastray := AuthorAstray.intro hk hn hbranch (ho.congr_last (by simp [hbranch])) hc
      simpa using hastray

end LoneAuthor

namespace Machine

variable {σ α : Type} {m : Machine σ α}

/-- What a machine holds when it has passed some tokens is backed by them, if each step keeps it
so. -/
theorem backed_of_pass {Backed : List Token → σ → Prop}
    (hstep : ∀ before s t is js s', Backed before s → t.span.Fits →
      m.step s t = ⟨is, .ok (.more ⟨js, .ok s'⟩)⟩ → Backed (before ++ [t]) s')
    {before text : List Token} {w : Wait σ} {last : Span} {is js : List Issue} {s : σ}
    (ht : Token.AllSound text) (hw : ∀ ks r, w.pending = ⟨ks, .ok r⟩ → Backed before r)
    (h : m.pass w (text.map .token) = ⟨is, .ok (.more ⟨last, ⟨js, .ok s⟩⟩)⟩) :
    Backed (before ++ text) s := by
  have hfits : ∀ t, .token t ∈ text.map Item.token → t.span.Fits := by
    intro t hmem
    obtain ⟨u, hu, htoken⟩ := List.mem_map.1 hmem
    obtain rfl := Item.token.inj htoken
    exact (ht u hu).2
  obtain ⟨text', htext, -, hbacked⟩ := exists_backed_of_pass hstep hfits hw h
  rw [Item.contents_map_token fun u hu => (ht u hu).1] at htext
  cases htext
  exact hbacked

end Machine

/-- The tokens are the front of a part that begins with the keyword, and lead to `r`. -/
def IsFront {ρ α : Type} (step : ρ → Token → Verdict (Verdict (Turn ρ α))) (keyword : Keyword)
    (first : Span → ρ) (text : List Token) (r : ρ) : Prop :=
  ∃ t rest is, text = t :: rest ∧ t.kind = .keyword keyword ∧ t.span.Fits ∧
    Reads step (first t.span) rest is (.more r)

section Fronts

variable {ρ α : Type} {step : ρ → Token → Verdict (Verdict (Turn ρ α))} {keyword : Keyword}
  {first : Span → ρ} {text : List Token} {r r' : ρ} {t : Token} {is : List Issue}

theorem isFront_single (hk : t.kind = .keyword keyword) (hf : t.span.Fits) :
    IsFront step keyword first [t] (first t.span) :=
  ⟨t, [], [], rfl, hk, hf, .nil _⟩

theorem IsFront.more (h : IsFront step keyword first text r)
    (hs : settle step r t = ⟨is, .ok (.more r')⟩) :
    IsFront step keyword first (text ++ [t]) r' := by
  obtain ⟨u, rest, js, rfl, hk, hf, hr⟩ := h
  exact ⟨u, rest ++ [t], js ++ is, rfl, hk, hf, hr.append (.single hs)⟩

/-- A part that is at its end with the next token has been read from its keyword on. -/
theorem IsFront.exists_reads_done {value : α} (h : IsFront step keyword first text r)
    (hs : settle step r t = ⟨is, .ok (.done value)⟩) :
    ∃ u rest js, text ++ [t] = u :: rest ∧ u.kind = .keyword keyword ∧
      Reads step (first u.span) rest js (.done value) := by
  obtain ⟨u, rest, js, rfl, hk, -, hr⟩ := h
  exact ⟨u, rest ++ [t], js ++ is, rfl, hk, hr.append (.done hs)⟩

end Fronts

theorem LoneAuthor.astray_of_isFront {text : List Token} {a : LoneAuthor} (ha : a.IsStray)
    (h : IsFront (step d) .author start text a) : AuthorAstray d text := by
  obtain ⟨t, rest, is, rfl, hk, hf, hr⟩ := h
  cases a with
  | reading decl => exact ha.elim
  | stray author opened => exact (astray_iff hk hf).2 ⟨is, author, opened, hr⟩

theorem AuthorAstray.exists_reads {text : List Token} (h : AuthorAstray d text)
    (ht : Token.AllSound text) :
    ∃ t rest is author opened, text = t :: rest ∧ t.kind = .keyword .author ∧
      Reads (LoneAuthor.step d) (.start t.span) rest is (.more (.stray author opened)) := by
  obtain ⟨t, rest, rfl, hk⟩ : ∃ t rest, text = t :: rest ∧ t.kind = .keyword .author := by
    cases h with
    | intro hk _ _ _ _ => exact ⟨_, _, rfl, hk⟩
  obtain ⟨is, author, opened, hr⟩ :=
    (LoneAuthor.astray_iff hk (ht t List.mem_cons_self).2).1 h
  exact ⟨t, rest, is, author, opened, rfl, hk, hr⟩

/-- An author that is at its end with the next token is a document on its own. -/
theorem LoneAuthor.content_of_done {text : List Token} {a : LoneAuthor} {t : Token}
    {is : List Issue} {value : Author} (h : IsFront (step d) .author start text a)
    (hs : settle (step d) a t = ⟨is, .ok (.done value)⟩) :
    DocumentContent d (text ++ [t]) [] [value] := by
  obtain ⟨u, rest, js, htext, hk, hr⟩ := h.exists_reads_done hs
  have hcontent := DocumentContent.author (form_of_reads hk hr) .nil
  rwa [List.append_nil, ← htext] at hcontent

theorem OpenScene.content_of_done {text : List Token} {o : OpenScene} {t : Token}
    {is : List Issue} {value : Scene} (h : IsFront (step d) .scene opened text o)
    (hs : settle (step d) o t = ⟨is, .ok (.done value)⟩) :
    DocumentContent d (text ++ [t]) [value] [] := by
  obtain ⟨u, rest, js, htext, hk, hr⟩ := h.exists_reads_done hs
  have hcontent := DocumentContent.scene (form_of_reads hk hr) .nil
  rwa [List.append_nil, ← htext] at hcontent

namespace OpenDocument

/-- The tokens that have been read are what the document holds: scenes and authors, and behind them
the front of the part that is being read. -/
def Backed (d : Dialect) (text : List Token) : OpenDocument → Prop
  | items _ => ∃ scenes authors, DocumentContent d text scenes authors
  | author _ a => ∃ before scenes authors rest, text = before ++ rest ∧
      DocumentContent d before scenes authors ∧ IsFront (LoneAuthor.step d) .author .start rest a
  | scene _ o => ∃ before scenes authors rest, text = before ++ rest ∧
      DocumentContent d before scenes authors ∧ IsFront (OpenScene.step d) .scene .opened rest o

theorem backed_step (before : List Token) (o : OpenDocument) (t : Token) (is js : List Issue)
    (o' : OpenDocument) (h : o.Backed d before) (hf : t.span.Fits)
    (hs : (machine d).step o t = ⟨is, .ok (.more ⟨js, .ok o'⟩)⟩) :
    o'.Backed d (before ++ [t]) := by
  cases o with
  | items document =>
    obtain ⟨scenes, authors, hd⟩ := h
    obtain ⟨-, ⟨hk, hturn⟩ | ⟨hk, hturn⟩⟩ := step_items_cases hs
    · cases hturn
      exact ⟨before, scenes, authors, [t], rfl, hd, isFront_single hk hf⟩
    · cases hturn
      exact ⟨before, scenes, authors, [t], rfl, hd, isFront_single hk hf⟩
  | author document a =>
    obtain ⟨before, scenes, authors, rest, rfl, hd, hfront⟩ := h
    obtain ⟨turn, hsettle, rfl⟩ := (hosts_author document).exists_settle hs
    rw [List.append_assoc]
    cases turn with
    | more a' => exact ⟨before, scenes, authors, rest ++ [t], rfl, hd, hfront.more hsettle⟩
    | done value => exact ⟨_, _, hd.append (LoneAuthor.content_of_done hfront hsettle)⟩
  | scene document o =>
    obtain ⟨before, scenes, authors, rest, rfl, hd, hfront⟩ := h
    obtain ⟨turn, hsettle, rfl⟩ := (hosts_scene document).exists_settle hs
    rw [List.append_assoc]
    cases turn with
    | more o' => exact ⟨before, scenes, authors, rest ++ [t], rfl, hd, hfront.more hsettle⟩
    | done value => exact ⟨_, _, hd.append (OpenScene.content_of_done hfront hsettle)⟩

theorem astray_of_backed {text : List Token} {o : OpenDocument} (ho : o.IsStray)
    (h : o.Backed d text) : Target.document.Astray d text := by
  cases o with
  | items document => exact ho.elim
  | scene document o => exact ho.elim
  | author document a =>
    obtain ⟨before, scenes, authors, rest, rfl, hd, hfront⟩ := h
    exact ⟨before, scenes, authors, rest, rfl, hd, LoneAuthor.astray_of_isFront ho hfront⟩

theorem exists_pass_of_astray {base : Nat} {text : List Token} (ht : Token.AllSound text)
    (h : Target.document.Astray d text) :
    ∃ is last js o, o.IsStray ∧ (machine d).pass ((machine d).initial base) (text.map .token) =
      ⟨is, .ok (.more ⟨last, ⟨js, .ok o⟩⟩)⟩ := by
  obtain ⟨before, scenes, authors, rest, rfl, hd, hastray⟩ := h
  obtain ⟨hbefore, hrest⟩ := List.forall_mem_append.1 ht
  obtain ⟨is, hreads⟩ := documentReads_of_content hd
  obtain ⟨t, rest, js, author, opened, rfl, hk, hr⟩ := hastray.exists_reads hrest
  have hfront := @pass_of_reads d ⟨base, 0⟩ .empty before is scenes authors
    (fun u hu => (hbefore u hu).1) hreads
  obtain ⟨ks, l, ls, hpart⟩ := (hosts_author _).exists_pass_cons (step_items_author hk)
    (fun u hu => (hrest u hu).1) hr
  rw [List.map_append]
  have hpass := Machine.pass_append_of_pass hfront hpart
  exact ⟨_, l, ls, .author _ (.stray author opened), trivial, hpass⟩

end OpenDocument

namespace Sole

variable {ρ α : Type} {step : ρ → Token → Verdict (Verdict (Turn ρ α))} {keyword : Keyword}
  {first : Span → ρ} {unfinished : ρ → Span → Issue}

/-- The tokens that have been read are what the state holds of a declaration that is being read. -/
def Backed (step : ρ → Token → Verdict (Verdict (Turn ρ α))) (keyword : Keyword)
    (first : Span → ρ) (text : List Token) : Sole ρ α → Prop
  | start => text = []
  | reading r => IsFront step keyword first text r
  | complete _ => True

theorem step_start {t : Token} (hk : t.kind = .keyword keyword) :
    (machine keyword first step unfinished .whole).step start t =
      pure (.more (pure (reading (first t.span)))) := by
  simp only [machine, hk, if_true]

theorem backed_step (before : List Token) (s : Sole ρ α) (t : Token) (is js : List Issue)
    (s' : Sole ρ α) (h : s.Backed step keyword first before) (hf : t.span.Fits)
    (hs : (machine keyword first step unfinished .whole).step s t =
      ⟨is, .ok (.more ⟨js, .ok s'⟩)⟩) :
    s'.Backed step keyword first (before ++ [t]) := by
  cases s with
  | start =>
    subst h
    by_cases hk : t.kind = .keyword keyword
    · rw [step_start hk] at hs
      cases hs
      exact isFront_single hk hf
    · simp [machine, hk] at hs
  | reading r =>
    obtain ⟨turn, hsettle, rfl⟩ := (hosts_machine .whole).exists_settle hs
    cases turn with
    | more r' => exact h.more hsettle
    | done value => trivial
  | complete v => simp [machine] at hs

end Sole

namespace Target

variable {target : Target} {base : Nat} {text : List Token} {is js : List Issue} {last : Span}
  {s : target.State}

/-- The state that some tokens lead to is one of a branch outside of scenes exactly if the tokens
end with the keyword of one. -/
theorem isStray_iff_of_pass (ht : Token.AllSound text)
    (h : (target.machine d .whole).pass ((target.machine d .whole).initial base)
      (text.map .token) = ⟨is, .ok (.more ⟨last, ⟨js, .ok s⟩⟩)⟩) :
    target.IsStray s ↔ target.Astray d text := by
  cases target with
  | document =>
    have hstart : ∀ ks o, ((OpenDocument.machine d).initial base).pending = ⟨ks, .ok o⟩ →
        o.Backed d [] := by
      rintro _ _ ⟨⟩
      exact ⟨[], [], .nil⟩
    have hbacked := Machine.backed_of_pass OpenDocument.backed_step ht hstart h
    constructor
    · intro hs
      exact OpenDocument.astray_of_backed hs hbacked
    · intro hastray
      obtain ⟨_, _, _, o, ho, hpass⟩ := @OpenDocument.exists_pass_of_astray d base text ht hastray
      cases h.symm.trans hpass
      exact ho
  | scene => exact iff_of_false not_false not_false
  | author =>
    have hstart : ∀ ks a, ((LoneAuthor.machine d .whole).initial base).pending = ⟨ks, .ok a⟩ →
        a.Backed (LoneAuthor.step d) .author .start [] := by
      rintro _ _ ⟨⟩
      rfl
    have hbacked := Machine.backed_of_pass Sole.backed_step ht hstart h
    constructor
    · intro hs
      cases s with
      | start => exact hs.elim
      | complete v => exact hs.elim
      | reading a => exact LoneAuthor.astray_of_isFront hs hbacked
    · intro hastray
      obtain ⟨t, rest, ks, author, opened, rfl, hk, hr⟩ := AuthorAstray.exists_reads hastray ht
      obtain ⟨_, _, _, hpass⟩ := (Sole.hosts_machine .whole).exists_pass_cons
        (Sole.step_start hk) (fun u hu => (ht u hu).1) hr
      cases h.symm.trans hpass
      trivial

end Target
end Scenario
