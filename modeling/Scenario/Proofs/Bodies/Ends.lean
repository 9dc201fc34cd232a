import Scenario.Proofs.Bodies.Matching
import Scenario.Proofs.Grammar.Completeness

/-!
# Where bodies end

Where no branch is read on the way, the tokens of a body alone decide where it ends. `Confines` says
what these places have in common: the states in which the body is read are those of the declaration.
If braces nest, they are left at the brace that matches the first one. If not, no brace is ever open
in the body, and they are left at the first closing brace, whatever stands in front.

Main statement: `Declaration.body_braces`, on the bodies of all dialects but those in which braces
nest and may be missing.
-/

namespace Scenario

variable {ρ α : Type} {d : Dialect}

namespace Declaration

variable {header closed : Header} {t : Token} {decl' : Declaration} {close : Span}

/-- If braces nest, the braces that are open are counted as the token has it. -/
theorem moves_of_lifts (hb : d.balancedBodyBraces = true) {depth depth' : Nat}
    (h : t.Lifts (depth + 1) (depth' + 1)) :
    Moves d t (inside header depth) (.more (inside header depth')) := by
  unfold Token.Lifts at h
  split at h
  · rename_i hk
    obtain rfl : depth' = depth + 1 := by omega
    exact .deepen hb hk
  · rename_i hk
    obtain rfl : depth = depth' + 1 := by omega
    exact .leave hk
  · rename_i ho hc
    obtain rfl : depth' = depth := by omega
    exact .filler ⟨hc, fun _ => ho⟩

/-- If braces do not nest, no brace is ever open in a body. -/
theorem moves_inside_iff (hb : d.balancedBodyBraces = false) :
    Moves d t (inside header 0) (.more decl') ↔
      decl' = inside header 0 ∧ t.kind ≠ .closeBrace := by
  constructor
  · intro h
    cases h with
    | deepen hb' _ => simp [hb] at hb'
    | filler hf => exact ⟨rfl, hf.1⟩
  · rintro ⟨rfl, hk⟩
    exact .filler ⟨hk, by simp [hb]⟩

theorem moves_named_iff (hb : d.balancedBodyBraces = false) :
    Moves d t ((named header).enter d t) (.more decl') ↔
      decl' = inside header 0 ∧ t.kind ≠ .closeBrace ∧
        (d.optionalBodyBrace = false → t.kind = .openBrace) := by
  by_cases h : (d.optionalBodyBrace && t.kind ≠ .openBrace) = true
  · have he : (named header).enter d t = inside header 0 := if_pos h
    rw [he, moves_inside_iff hb]
    simp_all
  · have he : (named header).enter d t = named header := if_neg h
    rw [he]
    constructor
    · intro h
      cases h with
      | brace hk => simp [hk]
    · rintro ⟨rfl, -, hk⟩
      cases ho : d.optionalBodyBrace with
      | true => exact .brace (by simpa [ho] using h)
      | false => exact .brace (hk ho)

theorem closes_inside_iff :
    Moves d t (inside header 0) (.done (closed, close)) ↔
      closed = header ∧ close = t.span ∧ t.kind = .closeBrace := by
  constructor
  · intro h
    cases h with
    | close hk => exact ⟨rfl, rfl, hk⟩
  · rintro ⟨rfl, rfl, hk⟩
    exact .close hk

theorem closes_named_iff :
    Moves d t ((named header).enter d t) (.done (closed, close)) ↔
      closed = header ∧ close = t.span ∧ t.kind = .closeBrace ∧ d.optionalBodyBrace = true := by
  by_cases h : (d.optionalBodyBrace && t.kind ≠ .openBrace) = true
  · have he : (named header).enter d t = inside header 0 := if_pos h
    rw [he, closes_inside_iff]
    simp_all
  · have he : (named header).enter d t = named header := if_neg h
    rw [he]
    constructor
    · intro h
      cases h
    · rintro ⟨-, -, hk, ho⟩
      simp [hk, ho] at h

end Declaration

/-- The reader stays in the states that `place` makes of a declaration as long as the declaration is
the one that is read. If declarations may be nested there, it leaves them at a branch. -/
structure Confines (d : Dialect) (step : ρ → Token → Verdict (Verdict (Turn ρ α)))
    (place : Declaration → ρ) (decl? : ρ → Option Declaration) (nested : Bool) : Prop
    extends Carries d step place nested where
  decl?_place : ∀ decl, decl? (place decl) = some decl
  moves_of_settle : ∀ decl t is r', settle step (place decl) t = ⟨is, .ok (.more r')⟩ →
    (decl? r').isSome → ∃ decl', r' = place decl' ∧
      Declaration.Moves d t (decl.enter d t) (.more decl') ∧
      (nested = true → decl.branchPlace? d t = none)

namespace Confines

variable {step : ρ → Token → Verdict (Verdict (Turn ρ α))} {place : Declaration → ρ}
  {decl? : ρ → Option Declaration} {nested : Bool} {header : Header} {front : List Token} {last : ρ}

theorem settle_of_moves (hc : Confines d step place decl? nested) {decl decl' : Declaration}
    {t : Token} (hn : nested = true → decl.branchPlace? d t = none)
    (hm : Declaration.Moves d t (decl.enter d t) (.more decl')) :
    settle step (place decl) t = pure (.more (place decl')) := by
  rw [← hc.settle_enter]
  refine hc.settle_more _ _ _ (fun h => ?_) hm
  rw [Declaration.branchPlace?_enter]
  exact hn h

/-- If braces nest, a body in which no branch can stand goes on with any tokens that do not close
it. -/
theorem stays_of_climbs (hc : Confines d step place decl? false)
    (hb : d.balancedBodyBraces = true) {depth depth' : Nat}
    (h : Token.Climbs 1 front (depth + 1) (depth' + 1)) :
    Stays step (fun r => (decl? r).isSome) (place (.inside header depth)) front
      (place (.inside header depth')) := by
  have hsome : ∀ depth, (decl? (place (.inside header depth))).isSome := by
    simp [hc.decl?_place]
  induction front generalizing depth with
  | nil =>
    cases h
    exact .nil (hsome _)
  | cons t front ih =>
    cases h with
    | @cons _ _ _ mid _ _ hlifts hrest =>
      obtain ⟨mid, rfl⟩ := Nat.exists_eq_add_of_le' hrest.low_le_before
      have hm : Declaration.Moves d t ((Declaration.inside header depth).enter d t)
          (.more (.inside header mid)) := Declaration.moves_of_lifts hb hlifts
      exact .cons (hsome _) (hc.settle_of_moves (fun h => by cases h) hm) (ih hrest)

/-- If braces do not nest, a body goes on with any tokens but a closing brace, and but a branch
where one would be nested. -/
theorem stays_inside_iff (hc : Confines d step place decl? nested)
    (hb : d.balancedBodyBraces = false) :
    Stays step (fun r => (decl? r).isSome) (place (.inside header 0)) front last ↔
      last = place (.inside header 0) ∧
        ∀ t ∈ front, t.kind ≠ .closeBrace ∧ (nested = true → t.kind ≠ .keyword .branch) := by
  have hsome : (decl? (place (.inside header 0))).isSome := by simp [hc.decl?_place]
  constructor
  · intro h
    generalize hfirst : place (.inside header 0) = first at h
    induction h with
    | nil _ => exact ⟨rfl, by simp⟩
    | @cons r r' last t text is _ hs hrest ih =>
      subst hfirst
      obtain ⟨decl', rfl, hm, hn⟩ := hc.moves_of_settle _ _ _ _ hs hrest.first
      obtain ⟨rfl, hk⟩ := (Declaration.moves_inside_iff hb).1 hm
      obtain ⟨hlast, hall⟩ := ih rfl
      refine ⟨hlast, List.forall_mem_cons.2 ⟨⟨hk, fun h => ?_⟩, hall⟩⟩
      exact Declaration.branchPlace?_eq_none_iff.1 (hn h) header rfl
  · rintro ⟨rfl, hall⟩
    induction front with
    | nil => exact .nil hsome
    | cons t front ih =>
      obtain ⟨⟨hk, hn⟩, hall⟩ := List.forall_mem_cons.1 hall
      refine .cons hsome (hc.settle_of_moves (fun h => ?_) ?_) (ih hall)
      · exact Declaration.branchPlace?_of_ne (hn h)
      · exact (Declaration.moves_inside_iff hb).2 ⟨rfl, hk⟩

/-- The first closing brace ends a body. -/
theorem exists_ends_iff (hc : Confines d step place decl? nested)
    (hb : d.balancedBodyBraces = false) {t : Token} {close : Span} :
    (∃ last decl closed, Stays step (fun r => (decl? r).isSome) (place (.named header)) front last ∧
      decl? last = some decl ∧ decl.step d t = pure (.done (closed, close))) ↔
    t.kind = .closeBrace ∧ close = t.span ∧
      (∀ u ∈ front, u.kind ≠ .closeBrace ∧ (nested = true → u.kind ≠ .keyword .branch)) ∧
      (d.optionalBodyBrace = false →
        ∃ left rest, front = left :: rest ∧ left.kind = .openBrace) := by
  have hsome : (decl? (place (.named header))).isSome := by simp [hc.decl?_place]
  cases front with
  | nil =>
    constructor
    · rintro ⟨last, decl, closed, hstays, hlast, hdone⟩
      cases hstays
      rw [hc.decl?_place] at hlast
      cases hlast
      obtain ⟨-, hspan, hk, ho⟩ := Declaration.closes_named_iff.1 (Declaration.done_iff.1 hdone)
      exact ⟨hk, hspan, by simp, by simp [ho]⟩
    · rintro ⟨hk, hspan, -, ho⟩
      have ho : d.optionalBodyBrace = true := by
        cases hopt : d.optionalBodyBrace with
        | true => rfl
        | false =>
          obtain ⟨_, _, h, -⟩ := ho hopt
          cases h
      exact ⟨_, _, header, .nil hsome, hc.decl?_place _,
        Declaration.done_iff.2 (Declaration.closes_named_iff.2 ⟨rfl, hspan, hk, ho⟩)⟩
  | cons left rest =>
    constructor
    · rintro ⟨last, decl, closed, hstays, hlast, hdone⟩
      cases hstays with
      | @cons _ r' _ _ _ is _ hs hrest =>
        obtain ⟨decl', rfl, hm, hn⟩ := hc.moves_of_settle _ _ _ _ hs hrest.first
        obtain ⟨rfl, hk, ho⟩ := (Declaration.moves_named_iff hb).1 hm
        obtain ⟨rfl, hall⟩ := (hc.stays_inside_iff hb).1 hrest
        rw [hc.decl?_place] at hlast
        cases hlast
        obtain ⟨-, hspan, hclose⟩ := Declaration.closes_inside_iff.1 (Declaration.done_iff.1 hdone)
        refine ⟨hclose, hspan, List.forall_mem_cons.2 ⟨⟨hk, fun h hbranch => ?_⟩, hall⟩,
          fun h => ⟨left, rest, rfl, ho h⟩⟩
        -- In front of a keyword the brace is missing, so the keyword stands in the body.
        cases hopt : d.optionalBodyBrace with
        | true =>
          have he : (Declaration.named header).enter d left = .inside header 0 :=
            if_pos (by simp [hopt, hbranch])
          exact Declaration.branchPlace?_eq_none_iff.1 (hn h) header he hbranch
        | false => simp [ho hopt] at hbranch
    · rintro ⟨hclose, hspan, hall, ho⟩
      obtain ⟨⟨hk, hn⟩, hall⟩ := List.forall_mem_cons.1 hall
      have hbrace : d.optionalBodyBrace = false → left.kind = .openBrace := by
        intro h
        obtain ⟨_, _, heq, hopen⟩ := ho h
        cases heq
        exact hopen
      have hs : settle step (place (.named header)) left =
          pure (.more (place (.inside header 0))) :=
        hc.settle_of_moves (fun h => Declaration.branchPlace?_of_ne (hn h))
          ((Declaration.moves_named_iff hb).2 ⟨rfl, hk, hbrace⟩)
      exact ⟨_, _, header, .cons hsome hs ((hc.stays_inside_iff hb).2 ⟨rfl, hall⟩),
        hc.decl?_place _,
        Declaration.done_iff.2 (Declaration.closes_inside_iff.2 ⟨rfl, hspan, hclose⟩)⟩

end Confines

theorem LoneAuthor.confines : Confines d (step d) reading decl? true where
  toCarries := carries
  decl?_place _ := rfl
  moves_of_settle decl t is a' h hsome := by
    cases (settle_eq_ok_iff.1 h).2 with
    | @decl _ decl' hp hm => exact ⟨decl', rfl, hm, fun _ => hp⟩
    | stray _ => cases hsome

theorem OpenScene.confines_branch (draft : SceneDraft) (host : Option Header) :
    Confines d (step d) (fun decl => inside draft (.branch host decl)) (branch? host) false where
  toCarries := carries_branch draft host
  decl?_place _ := if_pos rfl
  moves_of_settle decl t is s' h hsome := by
    cases settle_eq_ok_iff.1 h with
    | @inBranch _ _ _ decl' hm => exact ⟨decl', rfl, hm, fun h => by cases h⟩
    | branchEnd _ _ _ => cases host <;> cases hsome

/-- If braces nest, a brace, balanced tokens and a closing brace are the body of a branch. -/
theorem OpenScene.readsBranchBody_of_balanced (hb : d.balancedBodyBraces = true)
    (host : Option Header) (header : Header) {left right : Token} {inner : List Token}
    (hl : left.kind = .openBrace) (hr : right.kind = .closeBrace) (h : Token.Balanced inner) :
    ReadsBranchBody d host header (left :: (inner ++ [right])) right.span := by
  have hc := confines_branch (d := d) (.start header) host
  have hm : Declaration.Moves d left ((Declaration.named header).enter d left)
      (.more (.inside header 0)) := by
    rw [show (Declaration.named header).enter d left = .named header by
      simp [Declaration.enter, hl]]
    exact .brace hl
  have hs := hc.settle_of_moves (fun h => by cases h) hm
  have hstays := Stays.cons (by simp [hc.decl?_place]) hs (hc.stays_of_climbs hb (h.climbs 1))
  exact .intro (hc.decl?_place _) hstays (hc.decl?_place _)
    (Declaration.done_iff.2 (Declaration.closes_inside_iff.2 ⟨rfl, rfl, hr⟩))

theorem LoneAuthor.readsBody_iff (hb : d.balancedBodyBraces = false) {header : Header}
    {text : List Token} {close : Span} :
    ReadsBody d header text close ↔ ∃ front t, text = front ++ [t] ∧ t.kind = .closeBrace ∧
      close = t.span ∧
      (∀ u ∈ front, u.kind ≠ .closeBrace ∧ u.kind ≠ .keyword .branch) ∧
      (d.optionalBodyBrace = false →
        ∃ left rest, front = left :: rest ∧ left.kind = .openBrace) := by
  constructor
  · rintro @⟨first, last, front, decl, t, closed, close, hfirst, hstays, hlast, hdone⟩
    obtain rfl := decl?_eq_some_iff.1 hfirst
    have hends := (confines.exists_ends_iff hb).1 ⟨last, decl, closed, hstays, hlast, hdone⟩
    exact ⟨front, t, rfl, by simpa using hends⟩
  · rintro ⟨front, t, rfl, hends⟩
    obtain ⟨last, decl, closed, hstays, hlast, hdone⟩ :=
      (confines.exists_ends_iff hb).2 (by simpa using hends)
    exact .intro rfl hstays hlast hdone

theorem OpenScene.readsBranchBody_iff (hb : d.balancedBodyBraces = false) {host : Option Header}
    {header : Header} {text : List Token} {close : Span} :
    ReadsBranchBody d host header text close ↔ ∃ front t, text = front ++ [t] ∧
      t.kind = .closeBrace ∧ close = t.span ∧ (∀ u ∈ front, u.kind ≠ .closeBrace) ∧
      (d.optionalBodyBrace = false →
        ∃ left rest, front = left :: rest ∧ left.kind = .openBrace) := by
  constructor
  · rintro @⟨first, last, front, decl, t, closed, close, hfirst, hstays, hlast, hdone⟩
    obtain ⟨draft, rfl⟩ := branch?_eq_some_iff.1 hfirst
    have hends := ((confines_branch draft host).exists_ends_iff hb).1
      ⟨last, decl, closed, hstays, hlast, hdone⟩
    exact ⟨front, t, rfl, by simpa using hends⟩
  · rintro ⟨front, t, rfl, hends⟩
    obtain ⟨last, decl, closed, hstays, hlast, hdone⟩ :=
      ((confines_branch (.start header) host).exists_ends_iff hb).2 (by simpa using hends)
    exact .intro (branch?_eq_some_iff.2 ⟨_, rfl⟩) hstays hlast hdone

/-- Bodies end at the right brace.

If braces nest and none may be missing, then each body that is read to its end, that of an author on
its own, of an author of a scene with branches in it, or of a branch, begins with a brace and ends
with the one that matches it. That of a branch may be any balanced tokens in braces. If moreover no
brace is skipped, then the braces of everything that is accepted are balanced.

If braces do not nest, then the body of a branch or of an author on its own ends at the first
closing brace, however many are opened in front. In the body of such an author no branch may be
declared. -/
theorem Declaration.body_braces (d : Dialect) :
    (d.balancedBodyBraces = true → d.optionalBodyBrace = false →
      (∀ header text close,
        LoneAuthor.ReadsBody d header text close ∨ OpenScene.ReadsAuthorBody d header text close ∨
          (∃ host, OpenScene.ReadsBranchBody d host header text close) →
        ∃ left inner right, text = left :: (inner ++ [right]) ∧ left.kind = .openBrace ∧
          right.kind = .closeBrace ∧ Token.Balanced inner ∧ close = right.span) ∧
      (∀ host header left inner right, left.kind = .openBrace → right.kind = .closeBrace →
        Token.Balanced inner →
        OpenScene.ReadsBranchBody d host header (left :: (inner ++ [right])) right.span) ∧
      (d.lenientSceneItems = false → ∀ (target : Target) extent base items value,
        target = .document ∨ extent = .whole →
        (target.read d extent base items).result = .ok value →
        ∃ text, Item.contents items = some text ∧ Token.Balanced text)) ∧
    (d.balancedBodyBraces = false → ∀ header text close,
      (∀ host, OpenScene.ReadsBranchBody d host header text close ↔
        ∃ front t, text = front ++ [t] ∧ t.kind = .closeBrace ∧ close = t.span ∧
          (∀ u ∈ front, u.kind ≠ .closeBrace) ∧
          (d.optionalBodyBrace = false →
            ∃ left rest, front = left :: rest ∧ left.kind = .openBrace)) ∧
      (LoneAuthor.ReadsBody d header text close ↔
        ∃ front t, text = front ++ [t] ∧ t.kind = .closeBrace ∧ close = t.span ∧
          (∀ u ∈ front, u.kind ≠ .closeBrace ∧ u.kind ≠ .keyword .branch) ∧
          (d.optionalBodyBrace = false →
            ∃ left rest, front = left :: rest ∧ left.kind = .openBrace))) := by
  refine ⟨fun hb ho => ⟨fun header text close h => ?_,
    fun host header left inner right hl hr h => ?_,
    fun hl target extent base items value he h => ?_⟩, fun hb header text close =>
      ⟨fun host => OpenScene.readsBranchBody_iff hb, LoneAuthor.readsBody_iff hb⟩⟩
  · rcases h with h | h | ⟨host, h⟩
    · exact (LoneAuthor.houses hb ho).exists_braces ho h
    · exact (OpenScene.houses_author hb ho).exists_braces ho h
    · exact (OpenScene.houses_branch hb ho host).exists_braces ho h
  · exact OpenScene.readsBranchBody_of_balanced hb host header hl hr h
  · have hwhole : (target.read d .whole base items).result = .ok value := by
      rcases he with rfl | rfl
      · exact h
      · exact h
    exact Target.exists_balanced hb ho hl hwhole

/-- The body of an author with a branch in it that has braces of its own; and the body of an author
on its own that ends in front of a second brace. -/
theorem Declaration.body_braces_nested :
    let header : Header := ⟨.author, ⟨0, 6⟩, "a"⟩
    let left : Token := ⟨.openBrace, "\x7b", ⟨9, 1⟩⟩
    let right : Token := ⟨.closeBrace, "\x7d", ⟨12, 1⟩⟩
    let last : Token := ⟨.closeBrace, "\x7d", ⟨15, 1⟩⟩
    let text := [left, ⟨.keyword .branch, "branch", ⟨10, 6⟩⟩, ⟨.ident, "b", ⟨17, 1⟩⟩, left, left,
      right, right, last]
    (OpenScene.ReadsAuthorBody .standard header text last.span ∧
      ∃ first inner final, text = first :: (inner ++ [final]) ∧ first.kind = .openBrace ∧
        final.kind = .closeBrace ∧ Token.Balanced inner ∧ last.span = final.span) ∧
    LoneAuthor.ReadsBody .compatible header [left, left, right] right.span := by
  intro header left right last text
  have hstays : ∃ s, Stays (OpenScene.step .standard) OpenScene.InAuthor
      (.inside (.start header) (.author (.named header))) text.dropLast s ∧
        s.author? = some (.inside header 0) :=
    ⟨_, .cons trivial rfl <| .cons trivial rfl <| .cons trivial rfl <| .cons trivial rfl <|
      .cons trivial rfl <| .cons trivial rfl <| .cons trivial rfl <| .nil trivial, rfl⟩
  obtain ⟨s, hstays, hdecl⟩ := hstays
  have hdone : (inside header 0).step .standard last = pure (.done (header, last.span)) := rfl
  have hbody : OpenScene.ReadsAuthorBody .standard header text last.span :=
    .intro (OpenScene.author?_eq_some_iff.2 ⟨_, rfl⟩) hstays hdecl hdone
  refine ⟨⟨hbody, ((body_braces .standard).1 rfl rfl).1 _ _ _ (.inr (.inl hbody))⟩, ?_⟩
  refine ((body_braces .compatible).2 rfl header _ _).2.2
    ⟨[left, left], right, rfl, rfl, rfl, ?_, ?_⟩
  · simp [left]
  · simp [Dialect.compatible]

end Scenario
