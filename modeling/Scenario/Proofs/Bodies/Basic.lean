import Scenario.Proofs.Moves

/-!
# The bodies of declarations

The body of an author or a branch is read from behind the header of its declaration up to the brace
that closes it. It is read in one of three places: in an author on its own, in an author of a scene,
where branches may be declared on the way, and in a branch of a scene. `ReadsBody` says what this is
in terms of the steps of the part of the script that is being read; nothing is said about what goes
before the body or behind it.

Main statements: what is read to its end has read the bodies in it to their ends
(`LoneAuthor.exists_body_of_reads`, `OpenScene.exists_body_of_reads`).
-/

namespace Scenario

variable {ρ α : Type}

/-- The tokens lead from one state to another, and each state on the way has the property. -/
inductive Stays (step : ρ → Token → Verdict (Verdict (Turn ρ α))) (property : ρ → Prop) :
    ρ → List Token → ρ → Prop
  | nil {r : ρ} : property r → Stays step property r [] r
  | cons {r r' last : ρ} {t : Token} {text : List Token} {is : List Issue} :
      property r → settle step r t = ⟨is, .ok (.more r')⟩ → Stays step property r' text last →
      Stays step property r (t :: text) last

/-- The body of the declaration with the given header is read to its end. In the state `r` the
declaration has been read as far as `decl? r` says, and the states within the body are those with
the property. The last token is the one that closes the declaration, at the given span. -/
inductive ReadsBody (d : Dialect) (step : ρ → Token → Verdict (Verdict (Turn ρ α)))
    (decl? : ρ → Option Declaration) (within : ρ → Prop) (header : Header) :
    List Token → Span → Prop
  | intro {first last : ρ} {front : List Token} {decl : Declaration} {t : Token}
      {closed : Header} {close : Span} :
      decl? first = some (.named header) → Stays step within first front last →
      decl? last = some decl → decl.step d t = pure (.done (closed, close)) →
      ReadsBody d step decl? within header (front ++ [t]) close

namespace LoneAuthor

def decl? : LoneAuthor → Option Declaration
  | reading decl => some decl
  | stray _ _ => none

/-- The body of an author outside of scenes is read to its end. -/
def ReadsBody (d : Dialect) : Header → List Token → Span → Prop :=
  Scenario.ReadsBody d (step d) decl? fun a => a.decl?.isSome

end LoneAuthor

namespace OpenScene

/-- The author that is being read, if the scene is not in a branch. -/
def author? : OpenScene → Option Declaration
  | inside _ (.author decl) => some decl
  | _ => none

/-- The branch that is being read in the given host. -/
def branch? (host : Option Header) : OpenScene → Option Declaration
  | inside _ (.branch host' decl) => if host' = host then some decl else none
  | _ => none

/-- An author is being read, or a branch in the body of an author. -/
def InAuthor : OpenScene → Prop
  | inside _ (.author _) => True
  | inside _ (.branch (some _) _) => True
  | _ => False

/-- The body of an author of a scene is read to its end, with the branches that stand in it. -/
def ReadsAuthorBody (d : Dialect) : Header → List Token → Span → Prop :=
  Scenario.ReadsBody d (step d) author? InAuthor

/-- The body of a branch is read to its end. -/
def ReadsBranchBody (d : Dialect) (host : Option Header) : Header → List Token → Span → Prop :=
  Scenario.ReadsBody d (step d) (branch? host) fun s => (s.branch? host).isSome

theorem branch?_eq_some_iff {s : OpenScene} {host : Option Header} {decl : Declaration} :
    s.branch? host = some decl ↔ ∃ draft, s = inside draft (.branch host decl) := by
  unfold branch?
  split
  · rename_i draft host' decl'
    by_cases h : host' = host
    · simp [h]
    · simp [h]
  · rename_i hne
    simp only [reduceCtorEq, false_iff, not_exists]
    rintro draft rfl
    exact hne _ _ _ rfl

theorem author?_eq_some_iff {s : OpenScene} {decl : Declaration} :
    s.author? = some decl ↔ ∃ draft, s = inside draft (.author decl) := by
  unfold author?
  split
  · simp
  · rename_i hne
    simp only [reduceCtorEq, false_iff, not_exists]
    rintro draft rfl
    exact hne _ _ rfl

end OpenScene

theorem LoneAuthor.decl?_eq_some_iff {a : LoneAuthor} {decl : Declaration} :
    a.decl? = some decl ↔ a = reading decl := by
  cases a <;> simp [decl?]

theorem Stays.first {step : ρ → Token → Verdict (Verdict (Turn ρ α))} {property : ρ → Prop}
    {r last : ρ} {text : List Token} (h : Stays step property r text last) : property r := by
  cases h <;> assumption

theorem Stays.last {step : ρ → Token → Verdict (Verdict (Turn ρ α))} {property : ρ → Prop}
    {r last : ρ} {text : List Token} (h : Stays step property r text last) : property last := by
  induction h with
  | nil hr => exact hr
  | cons _ _ _ ih => exact ih

variable {d : Dialect}

theorem Declaration.done_iff {decl : Declaration} {t : Token} {header : Header} {close : Span} :
    decl.step d t = pure (.done (header, close)) ↔
      Moves d t (decl.enter d t) (.done (header, close)) := by
  change decl.step d t = ⟨[], .ok (.done (header, close))⟩ ↔ _
  rw [step_eq_ok_iff]
  exact and_iff_right rfl

/-- A part that is read to its end from a state with the property leaves the states that have it at
some token. -/
theorem Reads.exists_leaves {step : ρ → Token → Verdict (Verdict (Turn ρ α))} {r : ρ}
    {text : List Token} {is : List Issue} {value : α} (h : Reads step r text is (.done value))
    (property : ρ → Prop) (hr : property r) :
    ∃ front t rest last js turn, text = front ++ [t] ++ rest ∧ Stays step property r front last ∧
      settle step last t = ⟨js, .ok turn⟩ ∧
      ∀ r', turn = .more r' → ¬ property r' ∧ ∃ ks, Reads step r' rest ks (.done value) := by
  generalize hturn : Turn.done value = turn at h
  induction h with
  | nil r => cases hturn
  | @done r t is v hs =>
    exact ⟨[], t, [], r, is, .done v, rfl, .nil hr, hs, fun r' hmore => by cases hmore⟩
  | @more r r' t text is js turn hs hrest ih =>
    subst hturn
    by_cases hr' : property r'
    · obtain ⟨front, u, rest, last, ks, turn, rfl, hstays, hlast, hleaves⟩ := ih hr' rfl
      exact ⟨t :: front, u, rest, last, ks, turn, rfl, .cons hr hs hstays, hlast, hleaves⟩
    · refine ⟨[], t, text, r, is, .more r', rfl, .nil hr, hs, ?_⟩
      rintro _ ⟨⟩
      exact ⟨hr', js, hrest⟩

/-- An author on its own that is read to its end has a body that is. -/
theorem LoneAuthor.exists_body_of_reads {header : Header} {text : List Token} {is : List Issue}
    {a : Author} (h : Reads (step d) (reading (.named header)) text is (.done a)) :
    ∃ body rest close, text = body ++ rest ∧ ReadsBody d header body close := by
  obtain ⟨front, t, rest, last, js, turn, rfl, hstays, hs, hleaves⟩ :=
    h.exists_leaves (fun a => a.decl?.isSome) rfl
  obtain ⟨decl, hdecl⟩ := Option.isSome_iff_exists.1 hstays.last
  refine ⟨front ++ [t], rest, ?_⟩
  rw [decl?_eq_some_iff] at hdecl
  subst hdecl
  cases (settle_eq_ok_iff.1 hs).2 with
  | decl _ _ => exact ((hleaves _ rfl).1 rfl).elim
  | close _ hm _ => exact ⟨_, rfl, .intro rfl hstays rfl (Declaration.done_iff.2 hm)⟩
  | stray _ =>
    obtain ⟨-, ks, hrest⟩ := hleaves _ rfl
    cases hrest with
    | done hs => cases (settle_eq_ok_iff.1 hs).2
    | more hs _ => cases (settle_eq_ok_iff.1 hs).2

/-- In a scene that is read to its end, the bodies of authors and branches are. -/
theorem OpenScene.exists_body_of_reads {draft : SceneDraft} {header : Header} {text : List Token}
    {is : List Issue} {scene : Scene} :
    (Reads (step d) (inside draft (.author (.named header))) text is (.done scene) →
      ∃ body rest close, text = body ++ rest ∧ ReadsAuthorBody d header body close) ∧
    ∀ host, Reads (step d) (inside draft (.branch host (.named header))) text is (.done scene) →
      ∃ body rest close, text = body ++ rest ∧ ReadsBranchBody d host header body close := by
  constructor
  · intro h
    obtain ⟨front, t, rest, last, js, turn, rfl, hstays, hs, hleaves⟩ :=
      h.exists_leaves InAuthor trivial
    have hlast := hstays.last
    unfold InAuthor at hlast
    refine ⟨front ++ [t], rest, ?_⟩
    split at hlast
    · cases settle_eq_ok_iff.1 hs with
      | inAuthor _ _ => exact ((hleaves _ rfl).1 trivial).elim
      | authorEnd _ hm _ => exact ⟨_, rfl, .intro rfl hstays rfl (Declaration.done_iff.2 hm)⟩
      | nested _ => exact ((hleaves _ rfl).1 trivial).elim
    · cases settle_eq_ok_iff.1 hs with
      | inBranch _ => exact ((hleaves _ rfl).1 trivial).elim
      | branchEnd _ _ _ => exact ((hleaves _ rfl).1 trivial).elim
    · exact hlast.elim
  · intro host h
    have hfirst : (inside draft (.branch host (.named header))).branch? host =
        some (.named header) := branch?_eq_some_iff.2 ⟨draft, rfl⟩
    obtain ⟨front, t, rest, last, js, turn, rfl, hstays, hs, hleaves⟩ :=
      h.exists_leaves (fun s => (s.branch? host).isSome) (by simp [hfirst])
    obtain ⟨decl, hdecl⟩ := Option.isSome_iff_exists.1 hstays.last
    refine ⟨front ++ [t], rest, ?_⟩
    obtain ⟨draft', rfl⟩ := branch?_eq_some_iff.1 hdecl
    cases settle_eq_ok_iff.1 hs with
    | inBranch _ =>
      exact ((hleaves _ rfl).1 (by simp [branch?])).elim
    | branchEnd hm _ _ =>
      exact ⟨_, rfl, .intro hfirst hstays hdecl (Declaration.done_iff.2 hm)⟩

end Scenario
