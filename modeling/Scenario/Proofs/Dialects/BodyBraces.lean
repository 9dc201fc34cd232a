import Scenario.Proofs.Agreement
import Scenario.Proofs.Dialects.Focus

/-!
# The braces of bodies

Two flags of a dialect are about the braces of the bodies of authors and branches. Whether the first
one may be missing makes a difference only where it is missing: without this leniency the parse is
rejected there. Whether braces nest makes a difference only where one is opened inside a body.

To tell where a missing brace is noticed, the focus of a state is tied to the tokens that have been
read: a declaration whose name has been read stands right behind a keyword and the name.

Main statement: `Target.body_braces_local`.
-/

namespace Scenario

variable {d : Dialect} {t : Token} {text : List Token}

/-- The keyword of a declaration that has a body. -/
def Token.OpensBody (t : Token) : Prop :=
  t.kind = .keyword .author ∨ t.kind = .keyword .branch

/-- A declaration that is being read in so far as the text tells: its header is the end of the text,
and if its body has been entered, a brace has been read, unless it may be missing. -/
def Declaration.Backed (d : Dialect) (text : List Token) : Declaration → Prop
  | opened _ _ => ∃ before keyword, text = before ++ [keyword] ∧ keyword.OpensBody
  | named _ => ∃ before keyword name, text = before ++ [keyword, name] ∧ keyword.OpensBody ∧
      name.kind = .ident
  | inside _ _ => d.optionalBodyBrace = false → ∃ brace ∈ text, brace.kind = .openBrace

def Focus.Backed (d : Dialect) (text : List Token) : Focus → Prop
  | fixed => True
  | items _ => True
  | declaration decl => decl.Backed d text

theorem Declaration.eq_opened_of_enter {decl : Declaration} {keyword : Keyword} {span : Span}
    (h : decl.enter d t = opened keyword span) : decl = opened keyword span := by
  cases decl with
  | named header =>
    simp only [enter] at h
    split at h <;> simp at h
  | _ => exact h

/-- The body that a token is read in has been entered, with a brace. -/
theorem Declaration.exists_brace_of_enter {decl : Declaration} {header : Header} {depth : Nat}
    (h : decl.enter d t = inside header depth) (hd : decl.Backed d text)
    (hb : d.optionalBodyBrace = false) : ∃ brace ∈ text, brace.kind = .openBrace := by
  cases decl with
  | opened keyword span => cases h
  | named header' => simp [enter, hb] at h
  | inside header' depth' => exact hd hb

theorem Declaration.backed_of_moves {decl decl' : Declaration}
    (h : Moves d t (decl.enter d t) (.more decl')) (hd : decl.Backed d text) :
    decl'.Backed d (text ++ [t]) := by
  generalize hentered : decl.enter d t = entered at h
  cases h with
  | name hk =>
    obtain rfl := eq_opened_of_enter hentered
    obtain ⟨before, keyword, rfl, hkeyword⟩ := hd
    exact ⟨before, keyword, t, by simp, hkeyword, hk⟩
  | brace hk => exact fun _ => ⟨t, by simp, hk⟩
  | _ =>
    intro hb
    obtain ⟨brace, hmem, hk⟩ := exists_brace_of_enter hentered hd hb
    exact ⟨brace, List.mem_append_left _ hmem, hk⟩

/-- Behind a branch its brace has been read. -/
theorem Place.backed_behindBranch {draft : SceneDraft} {decl : Declaration} {header : Header}
    {close : Span} (host : Option Header)
    (h : Declaration.Moves d t (decl.enter d t) (.done (header, close)))
    (hd : decl.Backed d text) :
    (OpenScene.inside draft (behindBranch host)).focus.Backed d (text ++ [t]) := by
  generalize hentered : decl.enter d t = entered at h
  cases h with
  | close _ =>
    cases host with
    | none => trivial
    | some host =>
      intro hb
      obtain ⟨brace, hmem, hk⟩ := Declaration.exists_brace_of_enter hentered hd hb
      exact ⟨brace, List.mem_append_left _ hmem, hk⟩

theorem OpenScene.backed_of_moves {s s' : OpenScene} {is : List Issue}
    (h : Moves d t s is (.more s')) (hs : s.focus.Backed d text) :
    s'.focus.Backed d (text ++ [t]) := by
  cases h with
  | name _ => trivial
  | brace _ => trivial
  | author hk => exact ⟨text, t, rfl, .inl hk⟩
  | branch hk => exact ⟨text, t, rfl, .inr hk⟩
  | stray _ _ => trivial
  | inAuthor _ hm => exact Declaration.backed_of_moves hm hs
  | authorEnd _ _ _ => trivial
  | nested hb =>
    exact ⟨text, t, rfl, .inr (Declaration.branchPlace?_eq_some_iff.1 hb).2⟩
  | inBranch hm => exact Declaration.backed_of_moves hm hs
  | @branchEnd _ _ host _ _ _ _ _ hm _ _ => exact Place.backed_behindBranch host hm hs

theorem LoneAuthor.backed_of_moves {a a' : LoneAuthor} (h : Moves d t a (.more a'))
    (ha : a.focus.Backed d text) : a'.focus.Backed d (text ++ [t]) := by
  cases h with
  | decl _ hm => exact Declaration.backed_of_moves hm ha
  | stray _ => trivial

theorem OpenDocument.backed_focus_step {o o' : OpenDocument} {is js : List Issue}
    (ho : o.focus.Backed d text)
    (hs : (machine d).step o t = ⟨is, .ok (.more ⟨js, .ok o'⟩)⟩) :
    o'.focus.Backed d (text ++ [t]) := by
  cases o with
  | items document =>
    obtain ⟨-, ⟨hk, hturn⟩ | ⟨hk, hturn⟩⟩ := step_items_cases hs
    · cases hturn
      exact ⟨text, t, rfl, .inl hk⟩
    · cases hturn
      trivial
  | author document a =>
    obtain ⟨turn, hsettle, rfl⟩ := (hosts_author document).exists_settle hs
    cases turn with
    | more a' => exact LoneAuthor.backed_of_moves (LoneAuthor.settle_eq_ok_iff.1 hsettle).2 ho
    | done value => trivial
  | scene document s =>
    obtain ⟨turn, hsettle, rfl⟩ := (hosts_scene document).exists_settle hs
    cases turn with
    | more s' => exact OpenScene.backed_of_moves (OpenScene.settle_eq_ok_iff.1 hsettle) ho
    | done value => trivial

theorem Sole.backed_focus_step {ρ α : Type} {keyword : Keyword} {first : Span → ρ}
    {step : ρ → Token → Verdict (Verdict (Turn ρ α))} {unfinished : ρ → Span → Issue}
    {extent : Extent} {part : ρ → Focus} {s s' : Sole ρ α} {is js : List Issue}
    (hfirst : t.kind = .keyword keyword → (part (first t.span)).Backed d (text ++ [t]))
    (hmore : ∀ r r' is, settle step r t = ⟨is, .ok (.more r')⟩ → (part r).Backed d text →
      (part r').Backed d (text ++ [t]))
    (h : (s.focus part).Backed d text)
    (hs : (machine keyword first step unfinished extent).step s t =
      ⟨is, .ok (.more ⟨js, .ok s'⟩)⟩) :
    (s'.focus part).Backed d (text ++ [t]) := by
  cases s with
  | start =>
    by_cases hk : t.kind = .keyword keyword
    · simp only [machine, hk, if_true] at hs
      cases hs
      exact hfirst hk
    · simp [machine, hk] at hs
  | reading r =>
    obtain ⟨turn, hsettle, rfl⟩ := (hosts_machine extent).exists_settle hs
    cases turn with
    | more r' => exact hmore r r' _ hsettle h
    | done value => trivial
  | complete v => cases extent <;> simp [machine] at hs

namespace Target

/-- Each step keeps the focus tied to what has been read. -/
theorem backed_focus_step {target : Target} {extent : Extent} {s s' : target.State}
    {is js : List Issue} (h : (target.focus s).Backed d text)
    (hs : (target.machine d extent).step s t = ⟨is, .ok (.more ⟨js, .ok s'⟩)⟩) :
    (target.focus s').Backed d (text ++ [t]) := by
  cases target with
  | document => exact OpenDocument.backed_focus_step h hs
  | scene =>
    have hfirst : (OpenScene.opened t.span).focus.Backed d (text ++ [t]) := trivial
    refine Sole.backed_focus_step (fun _ => hfirst) (fun _ _ _ hm hr => ?_) h hs
    exact OpenScene.backed_of_moves (OpenScene.settle_eq_ok_iff.1 hm) hr
  | author =>
    have hfirst : t.kind = .keyword .author →
        (LoneAuthor.start t.span).focus.Backed d (text ++ [t]) := fun hk => ⟨text, t, rfl, .inl hk⟩
    refine Sole.backed_focus_step hfirst (fun _ _ _ hm hr => ?_) h hs
    exact LoneAuthor.backed_of_moves (LoneAuthor.settle_eq_ok_iff.1 hm).2 hr

end Target

/-- In the items the token is found right behind the header of an author or a branch, which is a
keyword and a name. -/
def Item.BehindHeader (items : List Item) (found : Token) : Prop :=
  ∃ front rest before keyword name, items = front ++ rest ∧
    contents front = some (before ++ [keyword, name]) ∧ keyword.OpensBody ∧ name.kind = .ident ∧
    Finds name.span rest found

/-- The item is a brace that opens. -/
def Item.opensBrace : Item → Bool
  | token t => t.kind = .openBrace
  | _ => false

namespace Focus

variable {f : Focus}

/-- Dialects that differ in whether the first brace may be missing disagree where it is. -/
theorem exists_named_of_not_agrees {b b' : Bool}
    (h : ¬ f.Agrees { d with optionalBodyBrace := b } { d with optionalBodyBrace := b' } t) :
    ∃ header, f = .declaration (.named header) ∧ t.kind ≠ .openBrace := by
  cases f with
  | fixed => exact (h trivial).elim
  | items draft => exact (h fun _ => rfl).elim
  | declaration decl =>
    cases decl with
    | opened keyword span => exact (h ⟨rfl, rfl⟩).elim
    | inside header depth => exact (h ⟨rfl, rfl⟩).elim
    | named header =>
      refine ⟨header, rfl, fun hk => h ?_⟩
      simp [Agrees, Declaration.step, Declaration.enter, hk]

/-- Dialects that differ in whether braces nest disagree where one is opened inside a body. -/
theorem exists_inside_of_not_agrees {b : Bool}
    (h : ¬ f.Agrees d { d with balancedBodyBraces := b } t) :
    ∃ header depth, f = .declaration (.inside header depth) ∧ t.kind = .openBrace := by
  cases f with
  | fixed => exact (h trivial).elim
  | items draft => exact (h fun _ => rfl).elim
  | declaration decl =>
    have henter : decl.enter d t = decl.enter { d with balancedBodyBraces := b } t := rfl
    by_cases hk : t.kind = .openBrace
    · cases decl with
      | opened keyword span => exact (h ⟨rfl, rfl⟩).elim
      | inside header depth => exact ⟨header, depth, rfl, hk⟩
      | named header =>
        refine (h ⟨henter, ?_⟩).elim
        simp [Declaration.step, Declaration.enter, hk]
    · refine (h ⟨henter, ?_⟩).elim
      unfold Declaration.step
      rw [← henter]
      generalize decl.enter d t = entered
      cases entered with
      | opened keyword span => rfl
      | named header => rfl
      | inside header depth =>
        dsimp only
        split <;> simp_all

end Focus

namespace Target

variable {target : Target} {extent : Extent} {base : Nat} {items : List Item}
  {issues : List Issue} {s : target.State} {found : Token}

/-- What is found in a state stands behind items that back the focus of the state. -/
theorem Finds.exists_backed (h : target.Finds d extent base items issues s found) :
    ∃ front rest text, items = front ++ rest ∧ Item.contents front = some text ∧
      Item.Finds (Token.lastSpan ⟨base, 0⟩ text) rest found ∧
      (target.focus s).Backed d text := by
  obtain ⟨front, rest, last, rfl, ⟨is, js, hpass, rfl⟩, hf⟩ := h
  have hstep : ∀ before r t is js r', (target.focus r).Backed d before → True →
      (target.machine d extent).step r t = ⟨is, .ok (.more ⟨js, .ok r'⟩)⟩ →
      (target.focus r').Backed d (before ++ [t]) :=
    fun _ _ _ _ _ _ hr _ hmore => backed_focus_step hr hmore
  have hstart : ∀ ks r, ((target.machine d extent).initial base).pending = ⟨ks, .ok r⟩ →
      (target.focus r).Backed d [] := by
    rintro _ _ ⟨⟩
    cases target <;> trivial
  obtain ⟨text, htext, rfl, hbacked⟩ :=
    Machine.exists_backed_of_pass hstep (fun _ _ => trivial) hstart hpass
  exact ⟨front, rest, text, rfl, htext, hf, hbacked⟩

/-- What is found when the name of a declaration has been read stands behind its header. -/
theorem Finds.behindHeader {header : Header} (h : target.Finds d extent base items issues s found)
    (hs : target.focus s = .declaration (.named header)) : Item.BehindHeader items found := by
  obtain ⟨front, rest, text, hitems, htext, hf, hbacked⟩ := h.exists_backed
  rw [hs] at hbacked
  obtain ⟨before, keyword, name, rfl, hkeyword, hname⟩ := hbacked
  rw [Token.lastSpan_append] at hf
  exact ⟨front, rest, before, keyword, name, hitems, htext, hkeyword, hname, hf⟩

/-- In a dialect that needs the brace of a body, any other token is refused in its place. -/
theorem answer_of_named {header : Header} (hd : d.optionalBodyBrace = false)
    (hs : target.focus s = .declaration (.named header)) (hk : found.kind ≠ .openBrace)
    (hfound : (∃ stop, found = .eof stop) ∨ found.IsPlain) :
    (target.machine d extent).answer s found =
      ⟨[.expected [.openBrace] found], .error .rejected⟩ := by
  have henter : ∀ t, (Declaration.named header).enter d t = .named header := by
    intro t
    simp [Declaration.enter, hd]
  rcases hfound with ⟨stop, rfl⟩ | hplain
  · rw [Machine.answer_eof, finish_of_declaration hs, Declaration.unfinished, henter]
    rfl
  · have hstep : (Declaration.named header).step d found =
        .reject (.expected [.openBrace] found) := by
      unfold Declaration.step
      rw [henter]
      dsimp only
      split
      · exact (hk ‹_›).elim
      · rfl
    have hplace : (Declaration.named header).branchPlace? d found = none := by
      unfold Declaration.branchPlace?
      rw [henter]
    rw [Machine.answer_plain hplain, step_of_declaration hs hplace hstep]
    rfl

/-- The run finds an opening brace inside the body of an author or a branch, and not in the place of
the first brace of the body. -/
def MeetsInnerBrace (target : Target) (d : Dialect) (extent : Extent) (base : Nat)
    (items : List Item) : Prop :=
  ∃ issues s found header depth, target.Finds d extent base items issues s found ∧
    target.focus s = .declaration (.inside header depth) ∧ found.kind = .openBrace

/-- Where the first brace of a body is needed, one that is opened inside a body stands behind
another. -/
theorem MeetsInnerBrace.two_le_countP (hd : d.optionalBodyBrace = false)
    (h : target.MeetsInnerBrace d extent base items) : 2 ≤ items.countP Item.opensBrace := by
  obtain ⟨issues, s, found, header, depth, hfinds, hs, hk⟩ := h
  obtain ⟨front, rest, text, rfl, htext, hf, hbacked⟩ := Finds.exists_backed hfinds
  rw [hs] at hbacked
  obtain ⟨brace, hmem, hbrace⟩ := hbacked hd
  have hfront : 0 < front.countP Item.opensBrace :=
    List.countP_pos_iff.2
      ⟨_, (Item.mem_of_contents htext brace hmem).1, by simp [Item.opensBrace, hbrace]⟩
  have hrest : 0 < rest.countP Item.opensBrace :=
    List.countP_pos_iff.2 ⟨_, hf.mem_of_ne_eof (by simp [hk]), by simp [Item.opensBrace, hk]⟩
  rw [List.countP_append]
  omega

variable (target d extent base items)

/-- Whether the brace of a body may be missing makes no difference, or one is missing, and the run
that needs it is rejected there. -/
theorem read_missing_brace_cases :
    target.read { d with optionalBodyBrace := true } extent base items =
        target.read { d with optionalBodyBrace := false } extent base items ∨
      ∃ issues found,
        target.read { d with optionalBodyBrace := false } extent base items =
          ⟨issues ++ [.expected [.openBrace] found], .error .rejected⟩ ∧
        Item.BehindHeader items found ∧ found.kind ≠ .openBrace := by
  rcases read_eq_or_parts target { d with optionalBodyBrace := true }
    { d with optionalBodyBrace := false } extent base items with
    heq | ⟨issues, s, found, -, hm, hfound, hne⟩
  · exact .inl heq
  · obtain ⟨header, hs, hk⟩ := Focus.exists_named_of_not_agrees hne
    exact .inr ⟨issues, found, hm.run_of_refused (answer_of_named rfl hs hk hfound),
      Finds.behindHeader hm hs, hk⟩

variable {target d extent base items} in
/-- Whether braces nest makes no difference to a run that meets none inside a body. -/
theorem read_congr_of_no_inner_brace (h : ¬ target.MeetsInnerBrace d extent base items) (b : Bool) :
    target.read { d with balancedBodyBraces := b } extent base items =
      target.read d extent base items := by
  rcases read_eq_or_parts target d { d with balancedBodyBraces := b } extent base items with
    heq | ⟨issues, s, found, hm, -, -, hne⟩
  · exact heq.symm
  · obtain ⟨header, depth, hs, hk⟩ := Focus.exists_inside_of_not_agrees hne
    exact (h ⟨issues, s, found, header, depth, hm, hs, hk⟩).elim

theorem parse_missing_brace_cases (source : String) :
    target.parse { d with optionalBodyBrace := true } extent source base =
        target.parse { d with optionalBodyBrace := false } extent source base ∨
      ∃ before found,
        target.parse { d with optionalBodyBrace := false } extent source base =
          .ok (.error (before ++ [(Issue.expected [.openBrace] found).diagnostic])) ∧
        Item.BehindHeader (Lexer.ofString source base d).items found ∧
        found.kind ≠ .openBrace := by
  rcases target.read_missing_brace_cases d extent base (Lexer.ofString source base d).items with
    heq | ⟨issues, found, hread, hbehind, hk⟩
  · exact .inl (parse_congr heq)
  · exact .inr ⟨issues.map Issue.diagnostic, found, parse_of_rejected hread rfl, hbehind, hk⟩

/-- A source without braces inside its bodies that the standard dialect accepts is accepted by the
most permissive one. -/
theorem parse_compatible_of_standard {source : String} {parsed : Parsed target.Node}
    (h : target.parse .standard extent source base = .ok (.ok parsed))
    (hi : ¬ target.MeetsInnerBrace .standard extent base
      (Lexer.ofString source base .standard).items) :
    target.parse .compatible extent source base = .ok (.ok parsed) := by
  have hflat : target.parse { Dialect.standard with balancedBodyBraces := false } extent source
      base = .ok (.ok parsed) := by
    rw [← h]
    exact parse_congr (read_congr_of_no_inner_brace hi false)
  rcases target.parse_missing_brace_cases { Dialect.standard with balancedBodyBraces := false }
    extent base source with heq | ⟨before, found, hrejected, -⟩
  · exact heq.trans hflat
  · cases hflat.symm.trans hrejected

/-- The flags about the braces of bodies make a difference only where they say.

A first brace that may be missing is one that is: without this leniency the parse is rejected for
want of the brace, right behind the header of an author or a branch. Nesting matters only to a run
that meets an opening brace inside a body, be it behind the first brace of the body or in a body
without one. So what the standard dialect accepts without such a brace, the most permissive one
accepts as the same script, with the same warnings. -/
theorem body_braces_local :
    (∀ items,
      ((∀ journal, target.readInto { d with optionalBodyBrace := true } extent base items journal =
          target.readInto { d with optionalBodyBrace := false } extent base items journal) ∨
        ∃ before found,
          (∀ journal,
            target.readInto { d with optionalBodyBrace := false } extent base items journal =
              (.error .rejected, journal.recordAll
                (before ++ [(Issue.expected [.openBrace] found).diagnostic]))) ∧
          Item.BehindHeader items found ∧ found.kind ≠ .openBrace) ∧
      (¬ target.MeetsInnerBrace d extent base items → ∀ b journal,
        target.readInto { d with balancedBodyBraces := b } extent base items journal =
          target.readInto d extent base items journal)) ∧
    ∀ source : String,
      (target.parse { d with optionalBodyBrace := true } extent source base =
          target.parse { d with optionalBodyBrace := false } extent source base ∨
        ∃ before found,
          target.parse { d with optionalBodyBrace := false } extent source base =
            .ok (.error (before ++ [(Issue.expected [.openBrace] found).diagnostic])) ∧
          Item.BehindHeader (Lexer.ofString source base d).items found ∧
          found.kind ≠ .openBrace) ∧
      (¬ target.MeetsInnerBrace d extent base (Lexer.ofString source base d).items → ∀ b,
        target.parse { d with balancedBodyBraces := b } extent source base =
          target.parse d extent source base) ∧
      ∀ parsed, target.parse .standard extent source base = .ok (.ok parsed) →
        ¬ target.MeetsInnerBrace .standard extent base
          (Lexer.ofString source base .standard).items →
        target.parse .compatible extent source base = .ok (.ok parsed) := by
  refine ⟨fun items => ⟨?_, fun hi b journal => ?_⟩, fun source => ⟨?_, fun hi b => ?_, ?_⟩⟩
  · rcases target.read_missing_brace_cases d extent base items with
      heq | ⟨issues, found, hread, hbehind, hk⟩
    · left
      intro journal
      unfold readInto
      rw [heq]
    · refine .inr ⟨issues.map Issue.diagnostic, found, fun journal => ?_, hbehind, hk⟩
      simp only [readInto, hread, List.map_append, List.map_cons, List.map_nil]
  · unfold readInto
    rw [read_congr_of_no_inner_brace hi]
  · exact target.parse_missing_brace_cases d extent base source
  · exact parse_congr (read_congr_of_no_inner_brace hi b)
  · exact fun parsed h hi => parse_compatible_of_standard target extent base h hi

/-- A body whose first brace is missing, and in which a brace is opened. It is the only one in the
source, so none stands behind the first brace of a body, and yet it matters whether braces nest. -/
theorem nesting_matters_behind_missing_brace :
    (Lexer.ofString "author a x \x7b \x7d" 0 .compatible).items.countP Item.opensBrace = 1 ∧
    Target.author.parse { Dialect.compatible with balancedBodyBraces := true } .whole
        "author a x \x7b \x7d" 0 ≠
      Target.author.parse { Dialect.compatible with balancedBodyBraces := false } .whole
        "author a x \x7b \x7d" 0 := by
  constructor
  · with_unfolding_all rfl
  · have hnested : ∃ diagnostics, Target.author.parse
        { Dialect.compatible with balancedBodyBraces := true } .whole "author a x \x7b \x7d" 0 =
        .ok (.error diagnostics) := ⟨_, by with_unfolding_all rfl⟩
    have hflat : ∃ parsed, Target.author.parse
        { Dialect.compatible with balancedBodyBraces := false } .whole "author a x \x7b \x7d" 0 =
        .ok (.ok parsed) := ⟨_, by with_unfolding_all rfl⟩
    obtain ⟨diagnostics, hnested⟩ := hnested
    obtain ⟨parsed, hflat⟩ := hflat
    rw [hnested, hflat]
    intro h
    cases h

/-- An author in whose body no brace is opened is read alike by the most permissive dialect. -/
theorem body_braces_local_author :
    ∃ parsed, Target.author.parse .standard .whole "author a \x7b x \x7d" 0 = .ok (.ok parsed) ∧
      ¬ Target.author.MeetsInnerBrace .standard .whole 0
        (Lexer.ofString "author a \x7b x \x7d" 0 .standard).items ∧
      Target.author.parse .compatible .whole "author a \x7b x \x7d" 0 = .ok (.ok parsed) := by
  have hparse : ∃ parsed, Target.author.parse .standard .whole "author a \x7b x \x7d" 0 =
      .ok (.ok parsed) := ⟨_, by with_unfolding_all rfl⟩
  have hnone : ¬ Target.author.MeetsInnerBrace .standard .whole 0
      (Lexer.ofString "author a \x7b x \x7d" 0 .standard).items := by
    intro h
    have htwo := h.two_le_countP rfl
    have hone : (Lexer.ofString "author a \x7b x \x7d" 0 .standard).items.countP
        Item.opensBrace = 1 := by
      with_unfolding_all rfl
    omega
  obtain ⟨parsed, hparse⟩ := hparse
  obtain ⟨-, hsource⟩ := body_braces_local .standard .author .whole 0
  exact ⟨parsed, hparse, hnone, (hsource _).2.2 parsed hparse hnone⟩

end Target
end Scenario
