import Scenario.Proofs.Bodies.Balance
import Scenario.Proofs.Bodies.Basic

/-!
# Bodies in which braces nest

If braces nest and none may be missing, a body ends at the brace that matches its first one. Behind
that first brace the height is above that of the place where the declaration stands, and stays there
until the declaration is closed, also while a branch is read in the body of an author. `Houses` is
this for all places at once.

Main statement: `Houses.exists_braces`.
-/

namespace Scenario

variable {ρ α : Type} {d : Dialect}

/-- Where the body of a declaration is read, with the height of each state. The states behind the
brace of the body have a height above `base`, until the body is left. -/
structure Houses (d : Dialect) (step : ρ → Token → Verdict (Verdict (Turn ρ α)))
    (decl? : ρ → Option Declaration) (within behind : ρ → Prop) (height : ρ → Nat) (base : Nat) :
    Prop where
  height_eq : ∀ r decl, decl? r = some decl → height r = base + decl.height
  lt_of_behind : ∀ r, behind r → base < height r
  brace : ∀ r header t is r', decl? r = some (.named header) →
    settle step r t = ⟨is, .ok (.more r')⟩ →
    t.kind = .openBrace ∧ decl? r' = some (.inside header 0) ∧ behind r'
  lifts : ∀ r t is r', behind r → settle step r t = ⟨is, .ok (.more r')⟩ → within r' →
    behind r' ∧ t.Lifts (height r) (height r')

namespace Houses

variable {step : ρ → Token → Verdict (Verdict (Turn ρ α))} {decl? : ρ → Option Declaration}
  {within behind : ρ → Prop} {height : ρ → Nat} {base : Nat}

/-- Behind the brace of the body, the height changes as the tokens have it, and stays above that of
the place. -/
theorem climbs (hh : Houses d step decl? within behind height base) {r last : ρ}
    {text : List Token} (hr : behind r) (h : Stays step within r text last) :
    Token.Climbs (base + 1) text (height r) (height last) := by
  induction h with
  | @nil r _ => exact .nil (hh.lt_of_behind r hr)
  | @cons r r' last t text is _ hs hrest ih =>
    obtain ⟨hr', hlifts⟩ := hh.lifts r t is r' hr hs hrest.first
    exact .cons (hh.lt_of_behind r hr) hlifts (ih hr')

/-- A body ends at the brace that matches its first one. -/
theorem exists_braces (hh : Houses d step decl? within behind height base)
    (ho : d.optionalBodyBrace = false) {header : Header} {text : List Token} {close : Span}
    (h : ReadsBody d step decl? within header text close) :
    ∃ left inner right, text = left :: (inner ++ [right]) ∧ left.kind = .openBrace ∧
      right.kind = .closeBrace ∧ Token.Balanced inner ∧ close = right.span := by
  obtain @⟨first, last, front, decl, right, closed, close, hfirst, hstays, hlast, hdone⟩ := h
  have hmoves := Declaration.done_iff.1 hdone
  rw [Declaration.enter_eq_self ho] at hmoves
  cases hmoves with
  | @close closed hk =>
    cases hstays with
    | nil _ =>
      rw [hfirst] at hlast
      cases hlast
    | @cons _ r' _ left inner _ _ hs hrest =>
      obtain ⟨hopen, hdecl, hbehind⟩ := hh.brace _ _ _ _ _ hfirst hs
      have hclimbs := hh.climbs hbehind hrest
      rw [hh.height_eq _ _ hdecl, hh.height_eq _ _ hlast] at hclimbs
      exact ⟨left, inner, right, rfl, hopen, hk, hclimbs.balanced, rfl⟩

end Houses

/-- A declaration whose header has been read only goes on with the brace of its body. -/
theorem Declaration.brace_of_moves (ho : d.optionalBodyBrace = false) {header : Header} {t : Token}
    {turn : Turn Declaration (Header × Span)}
    (h : Moves d t ((named header).enter d t) turn) :
    t.kind = .openBrace ∧ turn = .more (inside header 0) := by
  rw [enter_eq_self ho] at h
  cases h with
  | brace hk => exact ⟨hk, rfl⟩

theorem Declaration.inside_of_moves {header : Header} {depth : Nat} {t : Token}
    {decl' : Declaration} (h : Moves d t ((inside header depth).enter d t) (.more decl')) :
    ∃ depth', decl' = inside header depth' := by
  rw [enter_inside] at h
  cases h <;> exact ⟨_, rfl⟩

theorem Declaration.branchPlace?_named (ho : d.optionalBodyBrace = false) (header : Header)
    (t : Token) : (named header).branchPlace? d t = none := by
  rw [branchPlace?_eq_none_iff, enter_eq_self ho]
  simp

theorem LoneAuthor.houses (hb : d.balancedBodyBraces = true) (ho : d.optionalBodyBrace = false) :
    Houses d (step d) decl? (fun a => a.decl?.isSome)
      (fun a => ∃ header depth, a = reading (.inside header depth)) height 0 where
  height_eq a decl h := by
    rw [decl?_eq_some_iff.1 h, Nat.zero_add]
    rfl
  lt_of_behind := by
    rintro _ ⟨header, depth, rfl⟩
    exact Nat.succ_pos depth
  brace a header t is a' h hs := by
    rw [decl?_eq_some_iff.1 h] at hs
    cases (settle_eq_ok_iff.1 hs).2 with
    | decl _ hm =>
      obtain ⟨hk, hturn⟩ := Declaration.brace_of_moves ho hm
      cases hturn
      exact ⟨hk, rfl, header, 0, rfl⟩
    | stray hp => simp [Declaration.branchPlace?_named ho] at hp
  lifts := by
    rintro _ t is a' ⟨header, depth, rfl⟩ hs hw
    have hm := (settle_eq_ok_iff.1 hs).2
    refine ⟨?_, lifts_of_moves hb ho hm⟩
    cases hm with
    | decl _ hm =>
      obtain ⟨depth', rfl⟩ := Declaration.inside_of_moves hm
      exact ⟨header, depth', rfl⟩
    | stray _ => cases hw

namespace OpenScene

/-- The scene is behind the brace of the body of an author, and the author is not closed. -/
def BehindAuthorBrace : OpenScene → Prop
  | inside _ (.author (.inside _ _)) => True
  | inside _ (.branch (some _) _) => True
  | _ => False

theorem houses_author (hb : d.balancedBodyBraces = true) (ho : d.optionalBodyBrace = false) :
    Houses d (step d) author? InAuthor BehindAuthorBrace height 1 where
  height_eq s decl h := by
    obtain ⟨draft, rfl⟩ := author?_eq_some_iff.1 h
    exact Nat.add_comm _ 1
  lt_of_behind s h := by
    unfold BehindAuthorBrace at h
    split at h
    · simp [height, Place.height, Declaration.height]
    · simp [height, Place.height]
    · exact h.elim
  brace s header t is s' h hs := by
    obtain ⟨draft, rfl⟩ := author?_eq_some_iff.1 h
    cases settle_eq_ok_iff.1 hs with
    | inAuthor _ hm =>
      obtain ⟨hk, hturn⟩ := Declaration.brace_of_moves ho hm
      cases hturn
      exact ⟨hk, rfl, trivial⟩
    | authorEnd _ hm _ => cases (Declaration.brace_of_moves ho hm).2
    | nested hp => simp [Declaration.branchPlace?_named ho] at hp
  lifts s t is s' h hs hw := by
    have hm := settle_eq_ok_iff.1 hs
    have hne : ∀ draft, s ≠ inside draft .items := by
      rintro draft rfl
      exact h
    refine ⟨?_, lifts_of_moves hb ho (fun _ => hne) hm⟩
    unfold BehindAuthorBrace at h
    split at h
    · cases hm with
      | inAuthor _ hm =>
        obtain ⟨depth', rfl⟩ := Declaration.inside_of_moves hm
        trivial
      | authorEnd _ _ _ => exact hw
      | nested _ => trivial
    · cases hm with
      | inBranch _ => trivial
      | branchEnd _ _ _ => trivial
    · exact h.elim

theorem houses_branch (hb : d.balancedBodyBraces = true) (ho : d.optionalBodyBrace = false)
    (host : Option Header) :
    Houses d (step d) (branch? host) (fun s => (s.branch? host).isSome)
      (fun s => ∃ draft header depth, s = inside draft (.branch host (.inside header depth)))
      height ((Place.behindBranch host).height + 1) where
  height_eq s decl h := by
    obtain ⟨draft, rfl⟩ := branch?_eq_some_iff.1 h
    cases host with
    | none => exact Nat.add_comm _ 1
    | some header =>
      simp only [height, Place.height, Place.behindBranch, Declaration.height]
      omega
  lt_of_behind := by
    rintro _ ⟨draft, header, depth, rfl⟩
    cases host <;> simp [height, Place.height, Place.behindBranch, Declaration.height]
  brace s header t is s' h hs := by
    obtain ⟨draft, rfl⟩ := branch?_eq_some_iff.1 h
    cases settle_eq_ok_iff.1 hs with
    | inBranch hm =>
      obtain ⟨hk, hturn⟩ := Declaration.brace_of_moves ho hm
      cases hturn
      exact ⟨hk, if_pos rfl, draft, header, 0, rfl⟩
    | branchEnd hm _ _ => cases (Declaration.brace_of_moves ho hm).2
  lifts := by
    rintro _ t is s' ⟨draft, header, depth, rfl⟩ hs hw
    have hm := settle_eq_ok_iff.1 hs
    refine ⟨?_, lifts_of_moves hb ho (fun _ draft' h => by cases h) hm⟩
    cases hm with
    | inBranch hm =>
      obtain ⟨depth', rfl⟩ := Declaration.inside_of_moves hm
      exact ⟨draft, header, depth', rfl⟩
    | branchEnd _ _ _ => cases host <;> cases hw

end OpenScene

end Scenario
