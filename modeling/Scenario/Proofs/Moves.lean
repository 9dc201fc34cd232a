import Scenario.Proofs.Holdings
import Scenario.Proofs.Reading

/-!
# Moves

The steps of a declaration, of an author outside of scenes and of a scene as relations, with a
constructor for each thing that a token can do. A step that comes to nothing, because the token is
refused or a span does not fit, is no move. Each relation is equivalent to the step it describes, so
proofs about results split into moves and do not open the steps.

What a token does to a declaration depends only on what it enters: a token in front of which the
brace of a body is missing acts on the body.
-/

namespace Scenario

instance (d : Dialect) (t : Token) : Decidable (t.IsFiller d) :=
  inferInstanceAs (Decidable (_ ∧ (_ → _)))

instance (t : Token) : Decidable t.IsStray := inferInstanceAs (Decidable (_ ∧ _ ∧ _))

namespace Declaration

/-- What the token `t` does to a declaration that it has entered. -/
inductive Moves (d : Dialect) (t : Token) :
    Declaration → Turn Declaration (Header × Span) → Prop
  | name {keyword : Keyword} {span : Span} : t.kind = .ident →
      Moves d t (opened keyword span) (.more (named ⟨keyword, span, t.value⟩))
  | brace {header : Header} : t.kind = .openBrace →
      Moves d t (named header) (.more (inside header 0))
  | close {header : Header} : t.kind = .closeBrace →
      Moves d t (inside header 0) (.done (header, t.span))
  | leave {header : Header} {depth : Nat} : t.kind = .closeBrace →
      Moves d t (inside header (depth + 1)) (.more (inside header depth))
  | deepen {header : Header} {depth : Nat} : d.balancedBodyBraces = true → t.kind = .openBrace →
      Moves d t (inside header depth) (.more (inside header (depth + 1)))
  | filler {header : Header} {depth : Nat} : t.IsFiller d →
      Moves d t (inside header depth) (.more (inside header depth))

variable {d : Dialect} {decl : Declaration} {t : Token}

@[simp] theorem enter_inside (header : Header) (depth : Nat) :
    (inside header depth).enter d t = inside header depth := rfl

@[simp] theorem enter_enter : (decl.enter d t).enter d t = decl.enter d t := by
  cases decl with
  | named header =>
    by_cases h : (d.optionalBodyBrace && t.kind ≠ .openBrace) = true
    · have he : (named header).enter d t = inside header 0 := if_pos h
      rw [he, enter_inside]
    · have he : (named header).enter d t = named header := if_neg h
      rw [he, he]
  | _ => rfl

theorem step_enter : (decl.enter d t).step d t = decl.step d t := by
  simp only [step, enter_enter]

theorem branchPlace?_enter : (decl.enter d t).branchPlace? d t = decl.branchPlace? d t := by
  simp only [branchPlace?, enter_enter]

/-- The step of a declaration has a result exactly if there is a move, and raises no issue then. -/
theorem step_eq_ok_iff {is : List Issue} {turn : Turn Declaration (Header × Span)} :
    decl.step d t = ⟨is, .ok turn⟩ ↔ is = [] ∧ Moves d t (decl.enter d t) turn := by
  rw [← step_enter]
  generalize hentered : decl.enter d t = entered
  have hid : entered.enter d t = entered := by rw [← hentered, enter_enter]
  unfold step
  rw [hid]
  constructor
  · intro h
    cases entered with
    | opened keyword span =>
      dsimp only at h
      split at h
      · rename_i hk
        obtain ⟨rfl, rfl⟩ := Verdict.pure_eq_ok_iff.1 h
        exact ⟨rfl, .name hk⟩
      · exact (Verdict.reject_ne_ok h).elim
    | named header =>
      dsimp only at h
      split at h
      · rename_i hk
        obtain ⟨rfl, rfl⟩ := Verdict.pure_eq_ok_iff.1 h
        exact ⟨rfl, .brace hk⟩
      · exact (Verdict.reject_ne_ok h).elim
    | inside header depth =>
      dsimp only at h
      split at h
      · rename_i hk
        split at h
        · obtain ⟨rfl, rfl⟩ := Verdict.pure_eq_ok_iff.1 h
          exact ⟨rfl, .close hk⟩
        · obtain ⟨rfl, rfl⟩ := Verdict.pure_eq_ok_iff.1 h
          exact ⟨rfl, .leave hk⟩
      · rename_i hk
        obtain ⟨rfl, rfl⟩ := Verdict.pure_eq_ok_iff.1 h
        by_cases hb : d.balancedBodyBraces = true
        · rw [if_pos hb]
          exact ⟨rfl, .deepen hb hk⟩
        · rw [if_neg hb]
          exact ⟨rfl, .filler ⟨by simp [hk], fun h => (hb h).elim⟩⟩
      · rename_i hc ho
        obtain ⟨rfl, rfl⟩ := Verdict.pure_eq_ok_iff.1 h
        exact ⟨rfl, .filler ⟨hc, fun _ => ho⟩⟩
  · rintro ⟨rfl, h⟩
    cases h with
    | name hk => simp [hk]
    | brace hk => simp [hk]
    | close hk => simp [hk]
    | leave hk => simp [hk]
    | deepen hb hk => simp [hb, hk]
    | @filler header depth hf =>
      dsimp only
      split
      · exact (hf.1 ‹_›).elim
      · have hb : ¬ d.balancedBodyBraces = true := fun hb => hf.2 hb ‹_›
        rw [if_neg hb]
        rfl
      · rfl

theorem branchPlace?_eq_some_iff {header : Header} :
    decl.branchPlace? d t = some header ↔
      decl.enter d t = inside header 0 ∧ t.kind = .keyword .branch := by
  unfold branchPlace?
  split
  · simp_all
  · rename_i h
    simp only [reduceCtorEq, false_iff, not_and]
    intro he hk
    exact h _ he hk

theorem branchPlace?_eq_none_iff :
    decl.branchPlace? d t = none ↔
      ∀ header, decl.enter d t = inside header 0 → t.kind ≠ .keyword .branch := by
  rw [Option.eq_none_iff_forall_ne_some]
  apply forall_congr'
  intro header
  rw [Ne, branchPlace?_eq_some_iff, not_and]

end Declaration

namespace LoneAuthor

/-- What the token `t` does to an author outside of scenes. A branch in its body leads nowhere, so
nothing moves behind it. -/
inductive Moves (d : Dialect) (t : Token) : LoneAuthor → Turn LoneAuthor Author → Prop
  | decl {decl decl' : Declaration} : decl.branchPlace? d t = none →
      Declaration.Moves d t (decl.enter d t) (.more decl') →
      Moves d t (reading decl) (.more (reading decl'))
  | close {decl : Declaration} {header : Header} {close span : Span} :
      decl.branchPlace? d t = none →
      Declaration.Moves d t (decl.enter d t) (.done (header, close)) →
      header.opened.union close = .ok span →
      Moves d t (reading decl) (.done ⟨header.id, span⟩)
  | stray {decl : Declaration} {author : Header} : decl.branchPlace? d t = some author →
      Moves d t (reading decl) (.more (stray author t.span))

variable {d : Dialect} {a : LoneAuthor} {t : Token}

theorem settle_eq_ok_iff {is : List Issue} {turn : Turn LoneAuthor Author} :
    settle (step d) a t = ⟨is, .ok turn⟩ ↔ is = [] ∧ Moves d t a turn := by
  constructor
  · intro h
    cases a with
    | stray author opened =>
      simp only [settle, step] at h
      split at h
      · simp only [pure_bind, rejectBranch] at h
        split at h
        · exact (Verdict.reject_ne_ok h).elim
        · simp at h
      · simp at h
    | reading decl =>
      simp only [settle, step] at h
      split at h
      · rename_i author hb
        obtain ⟨rfl, rfl⟩ := Verdict.pure_eq_ok_iff.1 h
        exact ⟨rfl, .stray hb⟩
      · rename_i hb
        rw [bind_assoc] at h
        obtain ⟨is, turn', js, hs, h, rfl⟩ := Verdict.bind_eq_ok_iff.1 h
        obtain ⟨rfl, hm⟩ := Declaration.step_eq_ok_iff.1 hs
        cases turn' with
        | more decl' =>
          obtain ⟨rfl, rfl⟩ := Verdict.pure_eq_ok_iff.1 h
          exact ⟨rfl, .decl hb hm⟩
        | done last =>
          simp only [pure_bind] at h
          obtain ⟨span, hu, hdone⟩ := Verdict.ofExcept_bind_eq_ok_iff.1 h
          obtain ⟨rfl, rfl⟩ := Verdict.pure_eq_ok_iff.1 hdone
          exact ⟨rfl, .close hb hm hu⟩
  · rintro ⟨rfl, h⟩
    cases h with
    | decl hb hm =>
      have hs := Declaration.step_eq_ok_iff.2 ⟨rfl, hm⟩
      simp only [settle, step, hb, hs]
      rfl
    | close hb hm hu =>
      have hs := Declaration.step_eq_ok_iff.2 ⟨rfl, hm⟩
      simp only [settle, step, hb, hs]
      simp [Verdict.bind_of_ok, hu]
    | stray hb =>
      simp only [settle, step, hb]
      rfl

end LoneAuthor

/-- The draft with further authors and branches. -/
def SceneDraft.extend (s : SceneDraft) (authors : List Author) (branches : List Branch) :
    SceneDraft :=
  ⟨s.header, s.authors ++ authors, branches.foldl (fun r b => r.put b.id b) s.branches⟩

namespace SceneDraft

variable (s : SceneDraft) (authors authors' : List Author) (branches branches' : List Branch)

@[simp] theorem header_extend : (s.extend authors branches).header = s.header := rfl

@[simp] theorem extend_nil : s.extend [] [] = s := by
  simp [extend]

@[simp] theorem extend_extend :
    (s.extend authors branches).extend authors' branches' =
      s.extend (authors ++ authors') (branches ++ branches') := by
  simp [extend]

theorem addAuthor_eq_extend (a : Author) : s.addAuthor a = s.extend [a] [] := rfl

/-- A branch can always be added, with a warning or without. -/
theorem exists_addBranch_eq (b : Branch) :
    ∃ is, s.addBranch b = ⟨is, .ok (s.extend [] [b])⟩ := by
  unfold addBranch
  split
  · exact ⟨_, by simp [extend]; rfl⟩
  · exact ⟨_, by simp [extend]; rfl⟩

variable {s} in
theorem eq_extend_of_addBranch {b : Branch} {is : List Issue} {s' : SceneDraft}
    (h : s.addBranch b = ⟨is, .ok s'⟩) : s' = s.extend [] [b] := by
  obtain ⟨js, h'⟩ := s.exists_addBranch_eq b
  rw [h'] at h
  cases h
  rfl

/-- A draft that starts empty is closed with what was declared in it. -/
theorem close_extend_start (header : Header) (span : Span) :
    ((start header).extend authors branches).close span =
      Scene.ofDeclarations header.id span authors branches := by
  rw [Scene.ofDeclarations, Scene.foldl_addBranch_eq]
  rfl

end SceneDraft

namespace OpenScene

/-- What the token `t` does to a scene, with the issues that it raises. -/
inductive Moves (d : Dialect) (t : Token) :
    OpenScene → List Issue → Turn OpenScene Scene → Prop
  | name {span : Span} : t.kind = .ident →
      Moves d t (opened span) [] (.more (named ⟨.scene, span, t.value⟩))
  | brace {header : Header} : t.kind = .openBrace →
      Moves d t (named header) [] (.more (inside (.start header) .items))
  | author {s : SceneDraft} : t.kind = .keyword .author →
      Moves d t (inside s .items) [] (.more (inside s (.author (.opened .author t.span))))
  | branch {s : SceneDraft} : t.kind = .keyword .branch →
      Moves d t (inside s .items) [] (.more (inside s (.branch none (.opened .branch t.span))))
  | close {s : SceneDraft} {span : Span} : t.kind = .closeBrace →
      s.header.opened.union t.span = .ok span →
      Moves d t (inside s .items) [] (.done (s.close span))
  | stray {s : SceneDraft} : d.lenientSceneItems = true → t.IsStray →
      Moves d t (inside s .items) [.skipped t s.header.id] (.more (inside s .items))
  | inAuthor {s : SceneDraft} {decl decl' : Declaration} : decl.branchPlace? d t = none →
      Declaration.Moves d t (decl.enter d t) (.more decl') →
      Moves d t (inside s (.author decl)) [] (.more (inside s (.author decl')))
  | authorEnd {s : SceneDraft} {decl : Declaration} {header : Header} {close span : Span} :
      decl.branchPlace? d t = none →
      Declaration.Moves d t (decl.enter d t) (.done (header, close)) →
      header.opened.union close = .ok span →
      Moves d t (inside s (.author decl)) []
        (.more (inside (s.addAuthor ⟨header.id, span⟩) .items))
  | nested {s : SceneDraft} {decl : Declaration} {host : Header} :
      decl.branchPlace? d t = some host →
      Moves d t (inside s (.author decl)) []
        (.more (inside s (.branch (some host) (.opened .branch t.span))))
  | inBranch {s : SceneDraft} {host : Option Header} {decl decl' : Declaration} :
      Declaration.Moves d t (decl.enter d t) (.more decl') →
      Moves d t (inside s (.branch host decl)) [] (.more (inside s (.branch host decl')))
  | branchEnd {s s' : SceneDraft} {host : Option Header} {decl : Declaration} {header : Header}
      {close span : Span} {is : List Issue} :
      Declaration.Moves d t (decl.enter d t) (.done (header, close)) →
      header.opened.union close = .ok span →
      s.addBranch (.ofSpan header.id span) = ⟨is, .ok s'⟩ →
      Moves d t (inside s (.branch host decl)) is (.more (inside s' (.behindBranch host)))

variable {d : Dialect} {t : Token} {is : List Issue} {turn : Turn OpenScene Scene}

theorem moves_of_settle_items {s : SceneDraft}
    (h : settle (step d) (inside s .items) t = ⟨is, .ok turn⟩) :
    Moves d t (inside s .items) is turn := by
  simp only [settle, step, stepItem] at h
  split at h
  · rename_i hk
    obtain ⟨rfl, rfl⟩ := Verdict.pure_eq_ok_iff.1 h
    exact .author hk
  · rename_i hk
    obtain ⟨rfl, rfl⟩ := Verdict.pure_eq_ok_iff.1 h
    exact .branch hk
  · rename_i hk
    simp only [pure_bind] at h
    obtain ⟨span, hu, h⟩ := Verdict.ofExcept_bind_eq_ok_iff.1 h
    obtain ⟨rfl, rfl⟩ := Verdict.pure_eq_ok_iff.1 h
    exact .close hk hu
  · rename_i ha hb hc
    split at h
    · rename_i hl
      rw [bind_assoc] at h
      obtain ⟨is, u, js, hn, hmore, rfl⟩ := Verdict.bind_eq_ok_iff.1 h
      obtain rfl := Verdict.note_eq_ok_iff.1 hn
      obtain ⟨rfl, rfl⟩ := Verdict.pure_eq_ok_iff.1 hmore
      exact .stray hl ⟨ha, hb, hc⟩
    · simp at h

theorem moves_of_settle_author {s : SceneDraft} {decl : Declaration}
    (h : settle (step d) (inside s (.author decl)) t = ⟨is, .ok turn⟩) :
    Moves d t (inside s (.author decl)) is turn := by
  simp only [settle, step, stepAuthor] at h
  split at h
  · rename_i host hb
    obtain ⟨rfl, rfl⟩ := Verdict.pure_eq_ok_iff.1 h
    exact .nested hb
  · rename_i hb
    rw [bind_assoc] at h
    obtain ⟨is, turn', js, hs, h, rfl⟩ := Verdict.bind_eq_ok_iff.1 h
    obtain ⟨rfl, hm⟩ := Declaration.step_eq_ok_iff.1 hs
    cases turn' with
    | more decl' =>
      obtain ⟨rfl, rfl⟩ := Verdict.pure_eq_ok_iff.1 h
      exact .inAuthor hb hm
    | done last =>
      simp only [pure_bind] at h
      obtain ⟨span, hu, hdone⟩ := Verdict.ofExcept_bind_eq_ok_iff.1 h
      obtain ⟨rfl, rfl⟩ := Verdict.pure_eq_ok_iff.1 hdone
      exact .authorEnd hb hm hu

theorem moves_of_settle_branch {s : SceneDraft} {host : Option Header} {decl : Declaration}
    (h : settle (step d) (inside s (.branch host decl)) t = ⟨is, .ok turn⟩) :
    Moves d t (inside s (.branch host decl)) is turn := by
  simp only [settle, step, stepBranch, bind_assoc] at h
  obtain ⟨is, turn', js, hs, h, rfl⟩ := Verdict.bind_eq_ok_iff.1 h
  obtain ⟨rfl, hm⟩ := Declaration.step_eq_ok_iff.1 hs
  cases turn' with
  | more decl' =>
    obtain ⟨rfl, rfl⟩ := Verdict.pure_eq_ok_iff.1 h
    exact .inBranch hm
  | done last =>
    simp only [pure_bind] at h
    obtain ⟨span, hu, hadd⟩ := Verdict.ofExcept_bind_eq_ok_iff.1 h
    obtain ⟨is, s', js, ha, hdone, rfl⟩ := Verdict.bind_eq_ok_iff.1 hadd
    obtain ⟨rfl, rfl⟩ := Verdict.pure_eq_ok_iff.1 hdone
    simpa using Moves.branchEnd hm hu ha

theorem settle_eq_ok_iff {s : OpenScene} :
    settle (step d) s t = ⟨is, .ok turn⟩ ↔ Moves d t s is turn := by
  constructor
  · intro h
    cases s with
    | opened span =>
      simp only [settle, step] at h
      split at h
      · rename_i hk
        obtain ⟨rfl, rfl⟩ := Verdict.pure_eq_ok_iff.1 h
        exact .name hk
      · simp at h
    | named header =>
      simp only [settle, step] at h
      split at h
      · rename_i hk
        obtain ⟨rfl, rfl⟩ := Verdict.pure_eq_ok_iff.1 h
        exact .brace hk
      · simp at h
    | inside draft place =>
      cases place with
      | items => exact moves_of_settle_items h
      | author decl => exact moves_of_settle_author h
      | branch host decl => exact moves_of_settle_branch h
  · intro h
    cases h with
    | name hk => simp [settle, step, hk]
    | brace hk => simp [settle, step, hk]
    | author hk => simp [settle, step, stepItem, hk]
    | branch hk => simp [settle, step, stepItem, hk]
    | close hk hu => simp [settle, step, stepItem, hk, hu]
    | stray hl hs =>
      obtain ⟨ha, hb, hc⟩ := hs
      simp only [settle, step, stepItem]
      rw [if_pos hl]
      rfl
    | inAuthor hb hm =>
      have hs := Declaration.step_eq_ok_iff.2 ⟨rfl, hm⟩
      simp only [settle, step, stepAuthor, hb, hs]
      rfl
    | authorEnd hb hm hu =>
      have hs := Declaration.step_eq_ok_iff.2 ⟨rfl, hm⟩
      simp only [settle, step, stepAuthor, hb, hs]
      simp [Verdict.bind_of_ok, hu]
    | nested hb =>
      simp only [settle, step, stepAuthor, hb]
      rfl
    | inBranch hm =>
      have hs := Declaration.step_eq_ok_iff.2 ⟨rfl, hm⟩
      simp only [settle, step, stepBranch, hs]
      rfl
    | branchEnd hm hu ha =>
      have hs := Declaration.step_eq_ok_iff.2 ⟨rfl, hm⟩
      simp only [settle, step, stepBranch, hs]
      simp [Verdict.bind_of_ok, hu, ha, -bind_pure_comp]

end OpenScene
end Scenario
