import Scenario.Proofs.Moves

/-!
# What is read is derivable

A part that has been read up to some token still demands something of the tokens that follow: braces
that are open have to be closed, and the part has to go on as the grammar has it. The demand of each
state is written down in terms of the grammar, and every move turns the demand of the state it leads
to into that of the state it starts from. So whatever is read to its end has a derivation.

The bodies of authors and of branches differ in what they may hold and agree in how they end. The
demand of a declaration therefore has the content of its body as a parameter.
-/

namespace Scenario

/-- The rest of a body in which `depth` groups are open: they are closed one by one, and the body
goes on with `Rest` behind them. -/
inductive Within (d : Dialect) (Rest : List Token → Prop) : Nat → List Token → Prop
  | here {text : List Token} : Rest text → Within d Rest 0 text
  | group {depth : Nat} {inner rest : List Token} {right : Token} :
      Filler d inner → right.kind = .closeBrace → Within d Rest depth rest →
      Within d Rest (depth + 1) (inner ++ right :: rest)

/-- The content of a branch, which declares nothing. -/
def FillerContent (d : Dialect) (text : List Token) (branches : List Branch) : Prop :=
  Filler d text ∧ branches = []

/-- Single tokens and groups may be put in front of the content of a body, but for those tokens at
which something else begins. -/
structure IsContent (d : Dialect) (Content : List Token → List Branch → Prop)
    (starts : Token → Prop) : Prop where
  nil : Content [] []
  token : ∀ t text branches, t.IsFiller d → ¬ starts t → Content text branches →
    Content (t :: text) branches
  group : ∀ left right inner text branches, d.balancedBodyBraces = true →
    left.kind = .openBrace → right.kind = .closeBrace → Filler d inner → Content text branches →
    Content (left :: (inner ++ right :: text)) branches

theorem isContent_filler (d : Dialect) : IsContent d (FillerContent d) fun _ => False where
  nil := ⟨.nil, rfl⟩
  token _ _ _ ht _ h := ⟨.token ht h.1, h.2⟩
  group _ _ _ _ _ hb hl hr hi h := ⟨.group hb hl hr hi h.1, h.2⟩

theorem isContent_author (d : Dialect) (inScene : Bool) :
    IsContent d (AuthorContent d inScene) fun t => t.kind = .keyword .branch where
  nil := .nil
  token _ _ _ ht hn h := .token ht hn h
  group _ _ _ _ _ hb hl hr hi h := .group hb hl hr hi h

section Declarations

variable {d : Dialect} {Content : List Token → List Branch → Prop} {starts : Token → Prop}
  {t : Token} {depth : Nat} {text : List Token} {branches : List Branch}

theorem Within.token (hC : IsContent d Content starts) (ht : t.IsFiller d)
    (hs : depth = 0 → ¬ starts t) (h : Within d (Content · branches) depth text) :
    Within d (Content · branches) depth (t :: text) := by
  cases h with
  | here h => exact .here (hC.token _ _ _ ht (hs rfl) h)
  | group hi hr h => exact .group (.token ht hi) hr h

theorem Within.deepen (hC : IsContent d Content starts) (hb : d.balancedBodyBraces = true)
    (ht : t.kind = .openBrace) (h : Within d (Content · branches) (depth + 1) text) :
    Within d (Content · branches) depth (t :: text) := by
  obtain _ | @⟨_, inner, rest, right, hi, hr, h⟩ := h
  cases h with
  | here h => exact .here (hC.group _ _ _ _ _ hb ht hr hi h)
  | @group depth inner' rest right' hi' hr' h =>
    have hg : Filler d (t :: (inner ++ right :: inner')) := .group hb ht hr hi hi'
    simpa using Within.group hg hr' h

/-- What a body with open groups demands: its content, and a brace, which ends at `close`. -/
def BodyEnds (d : Dialect) (Content : List Token → List Branch → Prop) (depth : Nat)
    (text : List Token) (close : Span) (branches : List Branch) : Prop :=
  ∃ content right, text = content ++ [right] ∧ right.kind = .closeBrace ∧ close = right.span ∧
    Within d (Content · branches) depth content

/-- What a declaration demands whose name has been read. -/
def NamedEnds (d : Dialect) (Content : List Token → List Branch → Prop) (text : List Token)
    (close : Span) (branches : List Branch) : Prop :=
  ∃ opening body, text = opening ++ body ∧ Opening d opening body ∧
    BodyEnds d Content 0 body close branches

namespace Declaration

/-- What a declaration demands. Its header gets known with its name. -/
def Ends (d : Dialect) (Content : List Token → List Branch → Prop) :
    Declaration → List Token → Header → Span → List Branch → Prop
  | opened keyword span, text, header, close, branches =>
    ∃ name rest, text = name :: rest ∧ name.kind = .ident ∧
      header = ⟨keyword, span, name.value⟩ ∧ NamedEnds d Content rest close branches
  | named owner, text, header, close, branches =>
    header = owner ∧ NamedEnds d Content text close branches
  | inside owner depth, text, header, close, branches =>
    header = owner ∧ BodyEnds d Content depth text close branches

variable {decl decl' : Declaration} {header : Header} {close : Span}

/-- A declaration that is not at its end demands at least a token. -/
theorem not_ends_nil : ¬ decl.Ends d Content [] header close branches := by
  intro h
  cases decl with
  | opened keyword span =>
    obtain ⟨_, _, h, _⟩ := h
    simp at h
  | named owner =>
    obtain ⟨_, _, _, h, _, _, _, rfl, _⟩ := h
    simp at h
  | inside owner depth =>
    obtain ⟨_, _, _, h, _⟩ := h
    simp at h

theorem ends_of_enter (h : (decl.enter d t).Ends d Content (t :: text) header close branches) :
    decl.Ends d Content (t :: text) header close branches := by
  cases decl with
  | opened keyword span => exact h
  | inside owner depth => exact h
  | named owner =>
    simp only [enter] at h
    split at h
    · rename_i hm
      simp only [Bool.and_eq_true, decide_eq_true_eq] at hm
      obtain ⟨rfl, hbody⟩ := h
      exact ⟨rfl, [], t :: text, rfl, .missing hm.1 (by simpa using hm.2), hbody⟩
    · exact h

theorem ends_of_moves (hC : IsContent d Content starts) (hm : Moves d t decl (.more decl'))
    (hs : ∀ owner, decl = inside owner 0 → ¬ starts t)
    (h : decl'.Ends d Content text header close branches) :
    decl.Ends d Content (t :: text) header close branches := by
  cases hm with
  | name hk =>
    obtain ⟨rfl, h⟩ := h
    exact ⟨t, text, rfl, hk, rfl, h⟩
  | brace hk =>
    obtain ⟨rfl, h⟩ := h
    exact ⟨rfl, [t], text, rfl, .brace hk, h⟩
  | leave hk =>
    obtain ⟨rfl, content, right, rfl, hr, hc, h⟩ := h
    exact ⟨rfl, t :: content, right, rfl, hr, hc, .group .nil hk h⟩
  | deepen hb hk =>
    obtain ⟨rfl, content, right, rfl, hr, hc, h⟩ := h
    exact ⟨rfl, t :: content, right, rfl, hr, hc, .deepen hC hb hk h⟩
  | filler hf =>
    obtain ⟨rfl, content, right, rfl, hr, hc, h⟩ := h
    refine ⟨rfl, t :: content, right, rfl, hr, hc, .token hC hf ?_ h⟩
    rintro rfl
    exact hs _ rfl

theorem ends_of_close (hC : IsContent d Content starts)
    (hm : Moves d t decl (.done (header, close))) :
    decl.Ends d Content [t] header close [] := by
  cases hm with
  | close hk => exact ⟨rfl, [], t, rfl, hk, rfl, .here hC.nil⟩

/-- What a declaration demands of which only the keyword has been read is all the rest of it. -/
theorem ends_opened {keyword : Keyword} {span : Span}
    (h : (opened keyword span).Ends d Content text header close branches) :
    ∃ name opening content right, text = name :: (opening ++ (content ++ [right])) ∧
      name.kind = .ident ∧ right.kind = .closeBrace ∧ header = ⟨keyword, span, name.value⟩ ∧
      close = right.span ∧ Opening d opening (content ++ [right]) ∧ Content content branches := by
  obtain ⟨name, _, rfl, hn, rfl, opening, _, rfl, ho, content, right, rfl, hr, rfl, hw⟩ := h
  cases hw with
  | here hc => exact ⟨name, opening, content, right, rfl, hn, hr, rfl, rfl, ho, hc⟩

end Declaration

theorem branchForm_of_ends {keyword : Token} {header : Header} {close span : Span}
    (hk : keyword.kind = .keyword .branch)
    (h : (Declaration.opened .branch keyword.span).Ends d (FillerContent d) text header close
      branches)
    (hu : header.opened.union close = .ok span) :
    BranchForm d (keyword :: text) (.ofSpan header.id span) := by
  obtain ⟨name, opening, content, right, rfl, hn, hr, rfl, rfl, ho, hc, -⟩ :=
    Declaration.ends_opened h
  exact .intro hk hn hr ho hc hu

theorem authorForm_of_ends {inScene : Bool} {keyword : Token} {header : Header}
    {close span : Span} (hk : keyword.kind = .keyword .author)
    (h : (Declaration.opened .author keyword.span).Ends d (AuthorContent d inScene) text header
      close branches)
    (hu : header.opened.union close = .ok span) :
    AuthorForm d inScene (keyword :: text) ⟨header.id, span⟩ branches := by
  obtain ⟨name, opening, content, right, rfl, hn, hr, rfl, rfl, ho, hc⟩ :=
    Declaration.ends_opened h
  exact .intro hk hn hr ho hc hu

end Declarations

namespace LoneAuthor

/-- What an author outside of scenes demands. -/
def Ends (d : Dialect) : LoneAuthor → List Token → Author → Prop
  | reading decl, text, a =>
    ∃ header close span, decl.Ends d (AuthorContent d false) text header close [] ∧
      header.opened.union close = .ok span ∧ a = ⟨header.id, span⟩
  | stray _ _, _, _ => False

variable {d : Dialect}

theorem ends_of_moves {a a' : LoneAuthor} {t : Token} {text : List Token} {value : Author}
    (hm : Moves d t a (.more a')) (h : a'.Ends d text value) : a.Ends d (t :: text) value := by
  cases hm with
  | decl hb hm =>
    obtain ⟨header, close, span, h, hu, rfl⟩ := h
    refine ⟨header, close, span, Declaration.ends_of_enter ?_, hu, rfl⟩
    exact Declaration.ends_of_moves (isContent_author d false) hm
      (Declaration.branchPlace?_eq_none_iff.1 hb) h
  | stray hb => exact h.elim

theorem ends_of_reads {a : LoneAuthor} {text : List Token} {is : List Issue} {value : Author}
    (h : Reads (step d) a text is (.done value)) : a.Ends d text value := by
  generalize hturn : Turn.done value = turn at h
  induction h with
  | nil => cases hturn
  | done hs =>
    cases hturn
    cases (settle_eq_ok_iff.1 hs).2 with
    | close hb hm hu =>
      exact ⟨_, _, _, Declaration.ends_of_enter (Declaration.ends_of_close
        (isContent_author d false) hm), hu, rfl⟩
  | more hs _ ih => exact ends_of_moves (settle_eq_ok_iff.1 hs).2 (ih hturn)

/-- An author outside of scenes that is read to its end is derivable. -/
theorem form_of_reads {keyword : Token} {text : List Token} {is : List Issue} {a : Author}
    (hk : keyword.kind = .keyword .author)
    (h : Reads (step d) (start keyword.span) text is (.done a)) :
    LoneAuthorForm d (keyword :: text) a := by
  obtain ⟨header, close, span, he, hu, rfl⟩ := ends_of_reads h
  exact authorForm_of_ends hk he hu

end LoneAuthor

/-- What a scene demands while an author is read in it: the rest of that author, and items. -/
inductive AuthorEnds (d : Dialect) (decl : Declaration) :
    List Token → List Author → List Branch → Prop
  | intro {left right : List Token} {header : Header} {close span : Span}
      {inner branches : List Branch} {authors : List Author} :
      decl.Ends d (AuthorContent d true) left header close inner →
      header.opened.union close = .ok span → SceneContent d right authors branches →
      AuthorEnds d decl (left ++ right) (⟨header.id, span⟩ :: authors) (inner ++ branches)

/-- What a scene demands while a branch is read in it: the rest of that branch, and what the place
behind it demands. -/
inductive BranchEnds (d : Dialect) (Behind : List Token → List Author → List Branch → Prop)
    (decl : Declaration) : List Token → List Author → List Branch → Prop
  | intro {left right : List Token} {header : Header} {close span : Span}
      {branches : List Branch} {authors : List Author} :
      decl.Ends d (FillerContent d) left header close [] →
      header.opened.union close = .ok span → Behind right authors branches →
      BranchEnds d Behind decl (left ++ right) authors (.ofSpan header.id span :: branches)

/-- What a place between the braces of a scene demands, up to the brace that ends the scene. -/
def Place.Ends (d : Dialect) : Place → List Token → List Author → List Branch → Prop
  | items => SceneContent d
  | author decl => AuthorEnds d decl
  | branch none decl => BranchEnds d (SceneContent d) decl
  | branch (some host) decl => BranchEnds d (AuthorEnds d (.inside host 0)) decl

namespace OpenScene

variable {d : Dialect} {t : Token} {text : List Token} {authors : List Author}
  {branches : List Branch}

theorem ends_branch_iff {host : Option Header} {decl : Declaration} :
    (Place.branch host decl).Ends d text authors branches ↔
      BranchEnds d ((Place.behindBranch host).Ends d) decl text authors branches := by
  cases host <;> rfl

theorem authorEnds_of_enter {decl : Declaration}
    (h : AuthorEnds d (decl.enter d t) (t :: text) authors branches) :
    AuthorEnds d decl (t :: text) authors branches := by
  generalize htext : t :: text = whole at h
  obtain @⟨left, right, header, close, span, inner, branches, authors, h, hu, hr⟩ := h
  cases left with
  | nil => exact (Declaration.not_ends_nil h).elim
  | cons u left =>
    cases htext
    exact .intro (Declaration.ends_of_enter h) hu hr

theorem branchEnds_of_enter {Behind : List Token → List Author → List Branch → Prop}
    {decl : Declaration} (h : BranchEnds d Behind (decl.enter d t) (t :: text) authors branches) :
    BranchEnds d Behind decl (t :: text) authors branches := by
  generalize htext : t :: text = whole at h
  obtain @⟨left, right, header, close, span, branches, authors, h, hu, hr⟩ := h
  cases left with
  | nil => exact (Declaration.not_ends_nil h).elim
  | cons u left =>
    cases htext
    exact .intro (Declaration.ends_of_enter h) hu hr

/-- A branch in the body of an author belongs to the content of that body. -/
theorem authorEnds_of_branch {host : Header}
    (ht : t.kind = .keyword .branch)
    (h : BranchEnds d (AuthorEnds d (.inside host 0)) (.opened .branch t.span) text authors
      branches) :
    AuthorEnds d (.inside host 0) (t :: text) authors branches := by
  obtain @⟨left, right, header, close, span, branches, authors, he, hu, hr⟩ := h
  have hb : BranchForm d (t :: left) (.ofSpan header.id span) := branchForm_of_ends ht he hu
  obtain @⟨left', right, header', close', span', inner, branches, authors, ha, hu', hr⟩ := hr
  obtain ⟨hh, content, brace, rfl, hk, hc, hw⟩ := ha
  cases hw with
  | here hw =>
    have hends : (Declaration.inside host 0).Ends d (AuthorContent d true)
        ((t :: left) ++ content ++ [brace]) header' close' (.ofSpan header.id span :: inner) :=
      ⟨hh, t :: left ++ content, brace, rfl, hk, hc, .here (.branch rfl hb hw)⟩
    simpa using AuthorEnds.intro hends hu' hr

/-- What the inside of a scene demands: what the place in it demands, and a brace. -/
def InsideEnds (d : Dialect) (s : SceneDraft) (place : Place) (text : List Token)
    (scene : Scene) : Prop :=
  ∃ content right authors branches span, text = content ++ [right] ∧ right.kind = .closeBrace ∧
    place.Ends d content authors branches ∧ s.header.opened.union right.span = .ok span ∧
    scene = (s.extend authors branches).close span

/-- What a scene demands. -/
def Ends (d : Dialect) : OpenScene → List Token → Scene → Prop
  | opened span, text, scene =>
    ∃ name left rest, text = name :: left :: rest ∧ name.kind = .ident ∧ left.kind = .openBrace ∧
      InsideEnds d (.start ⟨.scene, span, name.value⟩) .items rest scene
  | named header, text, scene =>
    ∃ left rest, text = left :: rest ∧ left.kind = .openBrace ∧
      InsideEnds d (.start header) .items rest scene
  | inside s place, text, scene => InsideEnds d s place text scene

/-- The demand of an inside follows from that of the draft and the place that a token leads to. -/
theorem insideEnds_cons {s s' : SceneDraft} {place place' : Place} {scene : Scene}
    (as : List Author) (bs : List Branch) (hs : s' = s.extend as bs)
    (hp : ∀ content authors branches, place'.Ends d content authors branches →
      place.Ends d (t :: content) (as ++ authors) (bs ++ branches))
    (h : InsideEnds d s' place' text scene) : InsideEnds d s place (t :: text) scene := by
  obtain ⟨content, right, authors, branches, span, rfl, hr, he, hu, rfl⟩ := h
  refine ⟨t :: content, right, as ++ authors, bs ++ branches, span, rfl, hr, hp _ _ _ he, ?_, ?_⟩
  · simpa [hs] using hu
  · rw [hs, SceneDraft.extend_extend]

theorem insideEnds_of_place {s : SceneDraft} {place place' : Place} {scene : Scene}
    (hp : ∀ content authors branches, place'.Ends d content authors branches →
      place.Ends d (t :: content) authors branches)
    (h : InsideEnds d s place' text scene) : InsideEnds d s place (t :: text) scene :=
  insideEnds_cons [] [] (SceneDraft.extend_nil s).symm hp h

theorem ends_of_moves {s s' : OpenScene} {is : List Issue} {scene : Scene}
    (hm : Moves d t s is (.more s')) (h : s'.Ends d text scene) : s.Ends d (t :: text) scene := by
  cases hm with
  | name hk =>
    obtain ⟨left, rest, rfl, hl, h⟩ := h
    exact ⟨t, left, rest, rfl, hk, hl, h⟩
  | brace hk => exact ⟨t, text, rfl, hk, h⟩
  | author hk =>
    refine insideEnds_of_place ?_ h
    rintro _ _ _ @⟨left, right, header, close, span, inner, branches, authors, he, hu, hr⟩
    exact .author (authorForm_of_ends hk he hu) hr
  | branch hk =>
    refine insideEnds_of_place ?_ h
    rintro _ _ _ @⟨left, right, header, close, span, branches, authors, he, hu, hr⟩
    exact .branch (branchForm_of_ends hk he hu) hr
  | stray hl hs =>
    refine insideEnds_of_place ?_ h
    intro content authors branches hc
    exact .stray hl hs hc
  | inAuthor hb hm =>
    refine insideEnds_of_place ?_ h
    rintro _ _ _ @⟨left, right, header, close, span, inner, branches, authors, he, hu, hr⟩
    have hends := Declaration.ends_of_moves (isContent_author d true) hm
      (Declaration.branchPlace?_eq_none_iff.1 hb) he
    exact authorEnds_of_enter (.intro hends hu hr)
  | authorEnd hb hm hu =>
    refine insideEnds_cons [_] [] rfl ?_ h
    intro content authors branches hc
    have hends := Declaration.ends_of_close (isContent_author d true) hm
    exact authorEnds_of_enter (.intro hends hu hc)
  | @nested _ decl host hb =>
    refine insideEnds_of_place ?_ h
    intro content authors branches hc
    obtain ⟨he, hk⟩ := Declaration.branchPlace?_eq_some_iff.1 hb
    have hends : AuthorEnds d (decl.enter d t) (t :: content) authors branches := by
      rw [he]
      exact authorEnds_of_branch hk hc
    exact authorEnds_of_enter hends
  | inBranch hm =>
    refine insideEnds_of_place ?_ h
    intro content authors branches hc
    rw [ends_branch_iff] at hc
    obtain @⟨left, right, header, close, span, branches, authors, he, hu, hr⟩ := hc
    have hends := Declaration.ends_of_moves (isContent_filler d) hm (fun _ _ => not_false) he
    exact ends_branch_iff.2 (branchEnds_of_enter (.intro hends hu hr))
  | branchEnd hm hu ha =>
    refine insideEnds_cons [] [_] (SceneDraft.eq_extend_of_addBranch ha) ?_ h
    intro content authors branches hc
    have hends := Declaration.ends_of_close (isContent_filler d) hm
    exact ends_branch_iff.2 (branchEnds_of_enter (.intro hends hu hc))

theorem ends_of_reads {s : OpenScene} {is : List Issue} {scene : Scene}
    (h : Reads (step d) s text is (.done scene)) : s.Ends d text scene := by
  generalize hturn : Turn.done scene = turn at h
  induction h with
  | nil => cases hturn
  | done hs =>
    cases hturn
    cases settle_eq_ok_iff.1 hs with
    | close hk hu =>
      exact ⟨[], _, [], [], _, rfl, hk, .nil, hu, by rw [SceneDraft.extend_nil]⟩
  | more hs _ ih => exact ends_of_moves (settle_eq_ok_iff.1 hs) (ih hturn)

/-- A scene that is read to its end is derivable. -/
theorem form_of_reads {keyword : Token} {is : List Issue} {scene : Scene}
    (hk : keyword.kind = .keyword .scene)
    (h : Reads (step d) (.opened keyword.span) text is (.done scene)) :
    SceneForm d (keyword :: text) scene := by
  obtain ⟨name, left, _, rfl, hn, hl, content, right, authors, branches, span, rfl, hr, hc, hu,
    rfl⟩ := ends_of_reads h
  rw [SceneDraft.close_extend_start]
  exact .intro hk hn hl hr hc hu

end OpenScene

/-- The scenes and authors of a document that are read to their ends are derivable. -/
theorem documentContent_of_reads {d : Dialect} {text : List Token} {is : List Issue}
    {scenes : List Scene} {authors : List Author} (h : DocumentReads d text is scenes authors) :
    DocumentContent d text scenes authors := by
  induction h with
  | nil => exact .nil
  | scene hk hr _ ih => exact .scene (OpenScene.form_of_reads hk hr) ih
  | author hk hr _ ih => exact .author (LoneAuthor.form_of_reads hk hr) ih

end Scenario
