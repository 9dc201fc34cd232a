import Scenario.Parser.Target
import Scenario.Proofs.Parting

/-!
# What a dialect has a say in

A dialect has a say in two places only: between the declarations of a scene, and in the declaration
of an author or a branch. The focus of a state tells which of these places the state is at, and what
has been read there. Dialects that agree on a token at the focus of a state read it alike in that
state, whatever the focus is a part of (`Target.answer_congr`).

So if runs in two dialects differ, they part at a token on which the dialects do not agree
(`Target.read_eq_or_parts`).
-/

namespace Scenario

/-- A place that a dialect may have a say in. -/
inductive Focus where
  /-- A place that is the same in all dialects. -/
  | fixed
  /-- An author or a branch of a scene may begin. -/
  | items (draft : SceneDraft)
  /-- An author or a branch is being read. -/
  | declaration (decl : Declaration)

/-- The dialects read the token alike at the focus. -/
def Focus.Agrees (d d' : Dialect) (t : Token) : Focus → Prop
  | fixed => True
  | items draft => t.kind ≠ .eof → OpenScene.stepItem d draft t = OpenScene.stepItem d' draft t
  | declaration decl => decl.enter d t = decl.enter d' t ∧ decl.step d t = decl.step d' t

variable {d d' : Dialect} {t : Token}

namespace Declaration

variable {decl : Declaration}

theorem branchPlace?_congr (h : decl.enter d t = decl.enter d' t) :
    decl.branchPlace? d t = decl.branchPlace? d' t := by
  simp only [branchPlace?, h]

theorem unfinished_congr {stop : Span} (h : decl.enter d (.eof stop) = decl.enter d' (.eof stop)) :
    decl.unfinished d stop = decl.unfinished d' stop := by
  simp only [unfinished, h]

end Declaration

namespace LoneAuthor

def focus : LoneAuthor → Focus
  | reading decl => .declaration decl
  | stray _ _ => .fixed

variable {a : LoneAuthor}

theorem step_congr (h : a.focus.Agrees d d' t) : a.step d t = a.step d' t := by
  cases a with
  | reading decl => simp only [step, Declaration.branchPlace?_congr h.1, h.2]
  | stray author opened => rfl

theorem unfinished_congr {stop : Span} (h : a.focus.Agrees d d' (.eof stop)) :
    a.unfinished d stop = a.unfinished d' stop := by
  cases a with
  | reading decl => exact Declaration.unfinished_congr h.1
  | stray author opened => rfl

theorem step_of_declaration {decl : Declaration} {issue : Issue} (h : a.focus = .declaration decl)
    (hb : decl.branchPlace? d t = none) (hr : decl.step d t = .reject issue) :
    a.step d t = .reject issue := by
  cases a <;> cases h
  simp only [step, hb, hr, Verdict.reject_bind]

theorem unfinished_of_declaration {decl : Declaration} {stop : Span}
    (h : a.focus = .declaration decl) : a.unfinished d stop = decl.unfinished d stop := by
  cases a <;> cases h
  rfl

end LoneAuthor

namespace OpenScene

def focus : OpenScene → Focus
  | opened _ => .fixed
  | named _ => .fixed
  | inside draft .items => .items draft
  | inside _ (.author decl) => .declaration decl
  | inside _ (.branch _ decl) => .declaration decl

variable {s : OpenScene}

theorem step_congr (ht : t.kind ≠ .eof) (h : s.focus.Agrees d d' t) :
    s.step d t = s.step d' t := by
  cases s with
  | opened span => rfl
  | named header => rfl
  | inside draft place =>
    cases place with
    | items => exact h ht
    | author decl => simp only [step, stepAuthor, Declaration.branchPlace?_congr h.1, h.2]
    | branch host decl => simp only [step, stepBranch, h.2]

theorem unfinished_congr {stop : Span} (h : s.focus.Agrees d d' (.eof stop)) :
    s.unfinished d stop = s.unfinished d' stop := by
  cases s with
  | opened span => rfl
  | named header => rfl
  | inside draft place =>
    cases place with
    | items => rfl
    | author decl => exact Declaration.unfinished_congr h.1
    | branch host decl => exact Declaration.unfinished_congr h.1

theorem eq_of_focus_items {draft : SceneDraft} (h : s.focus = .items draft) :
    s = inside draft .items := by
  cases s with
  | opened span => cases h
  | named header => cases h
  | inside draft' place =>
    cases place <;> cases h
    rfl

/-- A declaration that is being read in a scene is that of an author or of a branch. -/
theorem eq_of_focus_declaration {decl : Declaration} (h : s.focus = .declaration decl) :
    ∃ draft, s = inside draft (.author decl) ∨ ∃ host, s = inside draft (.branch host decl) := by
  cases s with
  | opened span => cases h
  | named header => cases h
  | inside draft place =>
    cases place <;> cases h
    · exact ⟨draft, .inl rfl⟩
    · exact ⟨draft, .inr ⟨_, rfl⟩⟩

theorem step_of_declaration {decl : Declaration} {issue : Issue} (h : s.focus = .declaration decl)
    (hb : decl.branchPlace? d t = none) (hr : decl.step d t = .reject issue) :
    s.step d t = .reject issue := by
  obtain ⟨draft, rfl | ⟨host, rfl⟩⟩ := eq_of_focus_declaration h
  · simp only [step, stepAuthor, hb, hr, Verdict.reject_bind]
  · simp only [step, stepBranch, hr, Verdict.reject_bind]

theorem unfinished_of_declaration {decl : Declaration} {stop : Span}
    (h : s.focus = .declaration decl) : s.unfinished d stop = decl.unfinished d stop := by
  obtain ⟨draft, rfl | ⟨host, rfl⟩⟩ := eq_of_focus_declaration h <;> rfl

end OpenScene

def OpenDocument.focus : OpenDocument → Focus
  | items _ => .fixed
  | author _ a => a.focus
  | scene _ s => s.focus

def Sole.focus {ρ α : Type} (part : ρ → Focus) : Sole ρ α → Focus
  | start => .fixed
  | reading r => part r
  | complete _ => .fixed

namespace Target

/-- The place that a dialect may have a say in, when a token is read in the state. -/
def focus : (target : Target) → target.State → Focus
  | document => OpenDocument.focus
  | scene => Sole.focus OpenScene.focus
  | author => Sole.focus LoneAuthor.focus

/-- In the state `s` the target reads the part `r`, by its steps and to its end. -/
def ReadsPart {ρ β : Type} (target : Target) (extent : Extent)
    (step : Dialect → ρ → Token → Verdict (Verdict (Turn ρ β)))
    (unfinished : Dialect → ρ → Span → Issue) (s : target.State) (r : ρ) : Prop :=
  ∃ resume : Turn ρ β → target.State, ∀ d,
    (∀ t, (target.machine d extent).step s t = do
      let turn ← step d r t
      return .more (resume <$> turn)) ∧
    ∀ stop, (target.machine d extent).finish s stop = .reject (unfinished d r stop)

variable {target : Target} {extent : Extent}

/-- A state is the same in all dialects, or a scene or an author is being read in it, which has the
focus. -/
theorem part_cases (extent : Extent) (s : target.State) :
    (target.focus s = .fixed ∧ ∀ d d',
      (target.machine d extent).step s = (target.machine d' extent).step s ∧
      (target.machine d extent).finish s = (target.machine d' extent).finish s) ∨
    (∃ o : OpenScene, target.focus s = o.focus ∧
      target.ReadsPart extent OpenScene.step OpenScene.unfinished s o) ∨
    ∃ a : LoneAuthor, target.focus s = a.focus ∧
      target.ReadsPart extent LoneAuthor.step LoneAuthor.unfinished s a := by
  cases target with
  | document =>
    cases s with
    | items document => exact .inl ⟨rfl, fun _ _ => ⟨rfl, rfl⟩⟩
    | author document a =>
      exact .inr (.inr ⟨a, rfl, OpenDocument.resumeAuthor document, fun d =>
        ⟨fun t => (OpenDocument.hosts_author document).step_eq a t, fun _ => rfl⟩⟩)
    | scene document o =>
      exact .inr (.inl ⟨o, rfl, OpenDocument.resumeScene document, fun d =>
        ⟨fun t => (OpenDocument.hosts_scene document).step_eq o t, fun _ => rfl⟩⟩)
  | scene =>
    cases s with
    | start => exact .inl ⟨rfl, fun _ _ => ⟨rfl, rfl⟩⟩
    | reading o => exact .inr (.inl ⟨o, rfl, Sole.resume, fun _ => ⟨fun _ => rfl, fun _ => rfl⟩⟩)
    | complete value => exact .inl ⟨rfl, fun _ _ => ⟨rfl, rfl⟩⟩
  | author =>
    cases s with
    | start => exact .inl ⟨rfl, fun _ _ => ⟨rfl, rfl⟩⟩
    | reading a => exact .inr (.inr ⟨a, rfl, Sole.resume, fun _ => ⟨fun _ => rfl, fun _ => rfl⟩⟩)
    | complete value => exact .inl ⟨rfl, fun _ _ => ⟨rfl, rfl⟩⟩

variable {s : target.State}

theorem step_congr (ht : t.kind ≠ .eof) (h : (target.focus s).Agrees d d' t) :
    (target.machine d extent).step s t = (target.machine d' extent).step s t := by
  rcases part_cases extent s with
    ⟨-, hfixed⟩ | ⟨o, hfocus, resume, hpart⟩ | ⟨a, hfocus, resume, hpart⟩
  · exact congrFun (hfixed d d').1 t
  · rw [(hpart d).1, (hpart d').1, OpenScene.step_congr ht (hfocus ▸ h)]
  · rw [(hpart d).1, (hpart d').1, LoneAuthor.step_congr (hfocus ▸ h)]

theorem finish_congr {stop : Span} (h : (target.focus s).Agrees d d' (.eof stop)) :
    (target.machine d extent).finish s stop = (target.machine d' extent).finish s stop := by
  rcases part_cases extent s with
    ⟨-, hfixed⟩ | ⟨o, hfocus, resume, hpart⟩ | ⟨a, hfocus, resume, hpart⟩
  · exact congrFun (hfixed d d').2 stop
  · rw [(hpart d).2, (hpart d').2, OpenScene.unfinished_congr (hfocus ▸ h)]
  · rw [(hpart d).2, (hpart d').2, LoneAuthor.unfinished_congr (hfocus ▸ h)]

/-- Dialects that agree on a token at the focus of a state give the same answer to it. -/
theorem answer_congr {found : Token} (hfound : (∃ stop, found = .eof stop) ∨ found.IsPlain)
    (h : (target.focus s).Agrees d d' found) :
    (target.machine d extent).answer s found = (target.machine d' extent).answer s found := by
  rcases hfound with ⟨stop, rfl⟩ | hplain
  · rw [Machine.answer_eof, Machine.answer_eof, finish_congr h]
  · rw [Machine.answer_plain hplain, Machine.answer_plain hplain, step_congr hplain.2 h]

/-- Reading the items leads to the state `s`, where the issues have been raised and the token is
found. -/
def Finds (target : Target) (d : Dialect) (extent : Extent) (base : Nat) (items : List Item)
    (issues : List Issue) (s : target.State) (found : Token) : Prop :=
  (target.machine d extent).Finds ((target.machine d extent).initial base) items issues s found

theorem initial_eq (target : Target) (d d' : Dialect) (extent : Extent) (base : Nat) :
    (target.machine d extent).initial base = (target.machine d' extent).initial base := by
  cases target <;> rfl

/-- Reading the items comes to the same in both dialects, or leads in both to a token on which they
do not agree. -/
theorem read_eq_or_parts (target : Target) (d d' : Dialect) (extent : Extent) (base : Nat)
    (items : List Item) :
    target.read d extent base items = target.read d' extent base items ∨
      ∃ issues s found, target.Finds d extent base items issues s found ∧
        target.Finds d' extent base items issues s found ∧
        ((∃ stop, found = .eof stop) ∨ found.IsPlain) ∧
        ¬ (target.focus s).Agrees d d' found := by
  unfold read Machine.read Finds
  rw [initial_eq target d' d]
  rcases (target.machine d extent).run_eq_or_parts (target.machine d' extent)
    ((target.machine d extent).initial base) items with h | ⟨issues, s, found, hm, hm', hne⟩
  · exact .inl h
  · have hfound := hm.eof_or_plain
    exact .inr ⟨issues, s, found, hm, hm', hfound, fun h => hne (answer_congr hfound h)⟩

/-- Between the declarations of a scene, what comes out at once is what the dialect says. -/
theorem exists_step_eq_of_items {draft : SceneDraft} (h : target.focus s = .items draft) :
    ∃ resume : Turn OpenScene Scene → target.State, ∀ d t,
      (target.machine d extent).step s t = (do
        let turn ← OpenScene.stepItem d draft t
        return .more (resume <$> turn)) := by
  rcases part_cases extent s with ⟨hfixed, -⟩ | ⟨o, hfocus, resume, hpart⟩ | ⟨a, hfocus, -⟩
  · cases h.symm.trans hfixed
  · obtain rfl := OpenScene.eq_of_focus_items (hfocus.symm.trans h)
    exact ⟨resume, fun d => (hpart d).1⟩
  · cases a <;> cases h.symm.trans hfocus

/-- In a declaration, a token that the declaration refuses is refused, if no branch begins
with it. -/
theorem step_of_declaration {decl : Declaration} {issue : Issue}
    (h : target.focus s = .declaration decl) (hb : decl.branchPlace? d t = none)
    (hr : decl.step d t = .reject issue) :
    (target.machine d extent).step s t = .reject issue := by
  rcases part_cases extent s with
    ⟨hfixed, -⟩ | ⟨o, hfocus, resume, hpart⟩ | ⟨a, hfocus, resume, hpart⟩
  · cases h.symm.trans hfixed
  · rw [(hpart d).1, OpenScene.step_of_declaration (hfocus.symm.trans h) hb hr,
      Verdict.reject_bind]
  · rw [(hpart d).1, LoneAuthor.step_of_declaration (hfocus.symm.trans h) hb hr,
      Verdict.reject_bind]

/-- The end of the input in a declaration is told by the declaration. -/
theorem finish_of_declaration {decl : Declaration} {stop : Span}
    (h : target.focus s = .declaration decl) :
    (target.machine d extent).finish s stop = .reject (decl.unfinished d stop) := by
  rcases part_cases extent s with
    ⟨hfixed, -⟩ | ⟨o, hfocus, resume, hpart⟩ | ⟨a, hfocus, resume, hpart⟩
  · cases h.symm.trans hfixed
  · rw [(hpart d).2, OpenScene.unfinished_of_declaration (hfocus.symm.trans h)]
  · rw [(hpart d).2, LoneAuthor.unfinished_of_declaration (hfocus.symm.trans h)]

end Target
end Scenario
