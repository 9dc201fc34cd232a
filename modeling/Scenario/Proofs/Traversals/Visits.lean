import Mathlib.Data.List.Basic
import Scenario.Proofs.Scenes.Changes

/-!
# What a visitor comes to

A script is a tree of parts: documents, scenes, branches, blocks, steps and authors. A visitor that
is sent to a part comes to the outermost of the parts in it that it has something to say about, one
after the other, and to nothing that is inside of these. If it has something to say about one kind
of parts only, it comes to all parts of this kind.

Main statement: `Visitor.visit_eq_forM_outermost`, from which the rest follows.
-/

namespace Scenario

/-- A part of a script, which a visitor can be sent to. -/
inductive Part where
  | document (document : Document)
  | scene (scene : Scene)
  | author (author : Author)
  | branch (branch : Branch)
  | block (block : Block)
  | step (step : Step)

namespace Part

/-- What there is right below a part, in the order in which it is entered. -/
def children : Part → List Part
  | document d => d.authors.map author ++ d.scenes.map scene
  | scene s => s.authors.values.map author ++ s.branches.values.map branch
  | branch b => [block b.block]
  | block b => b.steps.map step
  | author _ => []
  | step _ => []

/-- The parts of one kind are all of one height. -/
def height : Part → Nat
  | document _ => 4
  | scene _ => 3
  | branch _ => 2
  | block _ => 1
  | author _ => 0
  | step _ => 0

theorem height_of_mem_children {p q : Part} (h : q ∈ p.children) :
    q.height + 1 = p.height ∨ (∃ a, q = author a) ∧ 0 < p.height := by
  cases p <;> simp only [children, List.mem_append, List.mem_map, List.mem_singleton,
    List.not_mem_nil] at h
  case document => obtain ⟨a, -, rfl⟩ | ⟨_, -, rfl⟩ := h <;> simp [height]
  case scene => obtain ⟨a, -, rfl⟩ | ⟨_, -, rfl⟩ := h <;> simp [height]
  case branch => simp [h, height]
  case block => obtain ⟨_, -, rfl⟩ := h; simp [height]

theorem height_lt_of_mem_children {p q : Part} (h : q ∈ p.children) : q.height < p.height := by
  obtain hq | ⟨⟨a, rfl⟩, hp⟩ := height_of_mem_children h
  · exact Nat.lt_of_succ_le (Nat.le_of_eq hq)
  · exact hp

/-- Induction along the tree of parts. -/
theorem induct {motive : Part → Prop} (below : ∀ p, (∀ q ∈ p.children, motive q) → motive p)
    (p : Part) : motive p :=
  below p fun q _ => induct below q
termination_by p.height
decreasing_by exact height_lt_of_mem_children ‹_›

/-- The part and whatever there is in it, as often as it is there. -/
def parts (p : Part) : List Part := p :: p.children.attach.flatMap fun q => q.1.parts
termination_by p.height
decreasing_by exact height_lt_of_mem_children q.2

theorem parts_eq (p : Part) : p.parts = p :: p.children.flatMap parts := by
  rw [parts, List.flatMap_subtype fun _ _ => rfl, List.unattach_attach]

theorem height_le_of_mem_parts {p q : Part} (h : q ∈ p.parts) : q.height ≤ p.height := by
  induction p using induct with
  | below p ih =>
    rw [parts_eq, List.mem_cons, List.mem_flatMap] at h
    obtain rfl | ⟨c, hc, hq⟩ := h
    · exact Nat.le_refl _
    · exact Nat.le_of_lt (Nat.lt_of_le_of_lt (ih c hc hq) (height_lt_of_mem_children hc))

section Parts

variable (d : Document) (s : Scene) (a : Author) (b : Branch) (k : Block) (x : Step)

@[simp] theorem parts_step : (step x).parts = [step x] := parts_eq _

@[simp] theorem parts_author : (author a).parts = [author a] := parts_eq _

@[simp] theorem parts_block : (block k).parts = block k :: k.steps.map step := by
  rw [parts_eq, children, List.flatMap_map]
  simp [List.map_eq_flatMap]

@[simp] theorem parts_branch : (branch b).parts = branch b :: (block b.block).parts := by
  rw [parts_eq, children, List.flatMap_singleton]

@[simp] theorem parts_scene : (scene s).parts = scene s ::
    (s.authors.values.map author ++ s.branches.values.flatMap fun b => (branch b).parts) := by
  rw [parts_eq, children, List.flatMap_append, List.flatMap_map, List.flatMap_map]
  simp [List.map_eq_flatMap]

@[simp] theorem parts_document : (document d).parts = document d ::
    (d.authors.map author ++ d.scenes.flatMap fun s => (scene s).parts) := by
  rw [parts_eq, children, List.flatMap_append, List.flatMap_map, List.flatMap_map]
  simp [List.map_eq_flatMap]

end Parts

def scene? : Part → Option Scene
  | scene s => some s
  | _ => none

def branch? : Part → Option Branch
  | branch b => some b
  | _ => none

def block? : Part → Option Block
  | block k => some k
  | _ => none

/-- Authors and steps have nothing below them. -/
def leaf? : Part → Option (Author ⊕ Step)
  | author a => some (.inl a)
  | step x => some (.inr x)
  | _ => none

section Heights

variable {p : Part}

theorem height_scene? (h : (scene? p).isSome = true) : p.height = 3 := by
  cases p <;> first | rfl | cases h

theorem height_branch? (h : (branch? p).isSome = true) : p.height = 2 := by
  cases p <;> first | rfl | cases h

theorem height_block? (h : (block? p).isSome = true) : p.height = 1 := by
  cases p <;> first | rfl | cases h

theorem height_leaf? (h : (leaf? p).isSome = true) : p.height = 0 := by
  cases p <;> first | rfl | cases h

end Heights

section Documents

variable (d : Document)

theorem filterMap_scene?_parts : (document d).parts.filterMap scene? = d.scenes := by
  have hnil (l : List Branch) : (l.flatMap fun _ => []) = ([] : List Scene) :=
    List.flatMap_eq_nil_iff.2 fun _ _ => rfl
  simp [scene?, List.filterMap_cons, List.filterMap_flatMap, Function.comp_def, hnil]

theorem filterMap_branch?_parts :
    (document d).parts.filterMap branch? = d.scenes.flatMap fun s => s.branches.values := by
  simp [branch?, List.filterMap_cons, List.filterMap_flatMap, Function.comp_def]

theorem filterMap_block?_parts : (document d).parts.filterMap block? =
    d.scenes.flatMap fun s => s.branches.values.map Branch.block := by
  have hmap (l : List Branch) : (l.flatMap fun b => [b.block]) = l.map Branch.block :=
    List.map_eq_flatMap.symm
  simp [block?, List.filterMap_cons, List.filterMap_flatMap, Function.comp_def, hmap]

theorem filterMap_leaf?_parts : (document d).parts.filterMap leaf? =
    d.authors.map .inl ++ d.scenes.flatMap fun s => s.authors.values.map .inl ++
      s.branches.values.flatMap fun b => b.block.steps.map .inr := by
  simp [leaf?, List.filterMap_cons, List.filterMap_flatMap, Function.comp_def]

end Documents
end Part

/-- The same document, but for the order in which scenes keep authors and branches. -/
structure Document.Rearranged (d e : Document) : Prop where
  authors_eq : e.authors = d.authors
  scenes : List.Forall₂ Scene.Rearranged d.scenes e.scenes

theorem perm_flatMap {α β : Type} {R : α → α → Prop} {f : α → List β}
    (hf : ∀ a b, R a b → (f a).Perm (f b)) {as bs : List α} (h : List.Forall₂ R as bs) :
    (as.flatMap f).Perm (bs.flatMap f) := by
  induction h with
  | nil => exact .nil
  | cons hab _ ih =>
    rw [List.flatMap_cons, List.flatMap_cons]
    exact (hf _ _ hab).append ih

section Rearranging

variable {α : Type} {pick : Part → Option α}

theorem Scene.Rearranged.perm_filterMap_parts {s t : Scene} (h : s.Rearranged t)
    (hpick : ∀ s, pick (.scene s) = none) :
    ((Part.scene s).parts.filterMap pick).Perm ((Part.scene t).parts.filterMap pick) := by
  have hauthors : s.authors.values.Perm t.authors.values := h.authors.map Prod.snd
  have hbranches : s.branches.values.Perm t.branches.values := h.branches.map Prod.snd
  rw [Part.parts_scene, Part.parts_scene, List.filterMap_cons_none (hpick s),
    List.filterMap_cons_none (hpick t)]
  exact ((hauthors.map _).append (hbranches.flatMap_right _)).filterMap pick

/-- Rearranging has an effect on scenes and documents as a whole. Of everything else there is as
much as before. -/
theorem Document.Rearranged.perm_filterMap_parts {d e : Document} (h : d.Rearranged e)
    (hdocument : ∀ d, pick (.document d) = none) (hscene : ∀ s, pick (.scene s) = none) :
    ((Part.document d).parts.filterMap pick).Perm ((Part.document e).parts.filterMap pick) := by
  rw [Part.parts_document, Part.parts_document, List.filterMap_cons_none (hdocument d),
    List.filterMap_cons_none (hdocument e), h.authors_eq, List.filterMap_append,
    List.filterMap_append, List.filterMap_flatMap, List.filterMap_flatMap]
  exact (perm_flatMap (fun _ _ hst => hst.perm_filterMap_parts hscene) h.scenes).append_left _

end Rearranging

section Lists

variable {m : Type → Type} [Monad m] {α β : Type}

theorem forM_congr {f g : α → m Unit} {as : List α} (h : ∀ a ∈ as, f a = g a) :
    as.forM f = as.forM g := by
  induction as with
  | nil => rfl
  | cons a as ih =>
    obtain ⟨ha, hrest⟩ := List.forall_mem_cons.1 h
    simp only [List.forM_eq_forM, List.forM_cons] at ih ⊢
    rw [ha, ih hrest]

variable [LawfulMonad m]

theorem forM_flatMap (below : α → List β) (g : β → m Unit) (as : List α) :
    (as.flatMap below).forM g = as.forM fun a => (below a).forM g := by
  induction as with
  | nil => rfl
  | cons a as ih =>
    simp only [List.forM_eq_forM] at ih ⊢
    rw [List.flatMap_cons, List.forM_append, List.forM_cons, ih]

theorem forM_filter {f : α → m Unit} {keep : α → Bool} {as : List α}
    (h : ∀ a ∈ as, keep a = false → f a = pure ()) : (as.filter keep).forM f = as.forM f := by
  induction as with
  | nil => rfl
  | cons a as ih =>
    obtain ⟨ha, hrest⟩ := List.forall_mem_cons.1 h
    simp only [List.forM_eq_forM, List.forM_cons] at ih ⊢
    cases hkeep : keep a with
    | true => rw [List.filter_cons_of_pos hkeep, List.forM_cons, ih hrest]
    | false => rw [List.filter_cons_of_neg (by simp [hkeep]), ih hrest, ha hkeep, pure_bind]

theorem forM_filterMap {f : β → m Unit} {pick : α → Option β} (as : List α) :
    (as.filterMap pick).forM f = as.forM fun a => ((pick a).map f).getD (pure ()) := by
  induction as with
  | nil => rfl
  | cons a as ih =>
    simp only [List.forM_eq_forM, List.forM_cons] at ih ⊢
    cases hpick : pick a with
    | some b => rw [List.filterMap_cons_some hpick, List.forM_cons, ih]; rfl
    | none => rw [List.filterMap_cons_none hpick, ih]; simp

end Lists

namespace Visitor

variable {m : Type → Type}

/-- What the visitor has to say about the part itself. -/
def own (v : Visitor m) : Part → Option (m Unit)
  | .document d => v.onDocument.map (· d)
  | .scene s => v.onScene.map (· s)
  | .author a => v.onAuthor.map (· a)
  | .branch b => v.onBranch.map (· b)
  | .block k => v.onBlock.map (· k)
  | .step x => v.onStep.map (· x)

/-- The parts that the visitor has something to say about, but for those inside of others. -/
def outermost (v : Visitor m) (p : Part) : List Part :=
  if (v.own p).isSome then [p] else p.children.attach.flatMap fun q => v.outermost q.1
termination_by p.height
decreasing_by exact Part.height_lt_of_mem_children q.2

variable (v : Visitor m)

theorem outermost_eq (p : Part) :
    v.outermost p = if (v.own p).isSome then [p] else p.children.flatMap v.outermost := by
  rw [outermost, List.flatMap_subtype fun _ _ => rfl, List.unattach_attach]

/-- Parts of one height are not inside of each other. -/
theorem outermost_eq_filter {height : Nat} (h : ∀ q, (v.own q).isSome = true → q.height = height)
    (p : Part) : v.outermost p = p.parts.filter fun q => (v.own q).isSome := by
  induction p using Part.induct with
  | below p ih =>
    rw [outermost_eq, Part.parts_eq, List.filter_cons]
    by_cases hp : (v.own p).isSome = true
    · have hbelow : ∀ q ∈ p.children.flatMap Part.parts, ¬ (v.own q).isSome = true := by
        intro q hq hown
        obtain ⟨c, hc, hq⟩ := List.mem_flatMap.1 hq
        have hle := Part.height_le_of_mem_parts hq
        have hlt := Part.height_lt_of_mem_children hc
        have hheight := (h q hown).trans (h p hp).symm
        omega
      rw [if_pos hp, if_pos hp, List.filter_eq_nil_iff.2 hbelow]
    · rw [if_neg hp, if_neg hp, List.filter_flatMap]
      exact List.flatMap_congr ih

variable [Monad m]

/-- Sends the visitor to a part. -/
def visit (v : Visitor m) : Part → m Unit
  | .document d => v.visitDocument d
  | .scene s => v.visitScene s
  | .author a => v.visitAuthor a
  | .branch b => v.visitBranch b
  | .block k => v.visitBlock k
  | .step x => v.visitStep x

def call (v : Visitor m) (p : Part) : m Unit := (v.own p).getD (pure ())

variable [LawfulMonad m]

/-- A part about which the visitor has nothing to say is entered. -/
theorem visit_eq (p : Part) : v.visit p = (v.own p).getD (p.children.forM v.visit) := by
  cases p with
  | document d =>
    cases h : v.onDocument <;> simp [visit, visitDocument, own, h, Part.children]
  | scene s => cases h : v.onScene <;> simp [visit, visitScene, own, h, Part.children]
  | author a => cases h : v.onAuthor <;> simp [visit, visitAuthor, own, h, Part.children]
  | branch b => cases h : v.onBranch <;> simp [visit, visitBranch, own, h, Part.children]
  | block k => cases h : v.onBlock <;> simp [visit, visitBlock, own, h, Part.children]
  | step x => cases h : v.onStep <;> simp [visit, visitStep, own, h, Part.children]

/-- The visitor comes to the outermost of the parts it has something to say about, to each of them
once, and to no other. -/
theorem visit_eq_forM_outermost (p : Part) : v.visit p = (v.outermost p).forM v.call := by
  induction p using Part.induct with
  | below p ih =>
    rw [visit_eq, outermost_eq]
    cases hown : v.own p with
    | some act => simp [call, hown]
    | none => exact (forM_congr ih).trans (forM_flatMap _ _ _).symm

variable {v}

/-- What is inside of parts that the visitor has something to say about makes no difference. -/
theorem visit_congr {w : Visitor m} {height : Nat}
    (hsome : ∀ q : Part, q.height = height → (v.own q).isSome = true)
    (hown : ∀ q : Part, height ≤ q.height → w.own q = v.own q) (hauthor : w.onAuthor = v.onAuthor)
    {p : Part} (hp : height ≤ p.height) : w.visit p = v.visit p := by
  induction p using Part.induct with
  | below p ih =>
    rw [visit_eq, visit_eq v, hown p hp]
    cases hv : v.own p with
    | some act => rfl
    | none =>
      refine forM_congr fun q hq => ?_
      obtain hq' | ⟨⟨a, rfl⟩, -⟩ := Part.height_of_mem_children hq
      · have hne : p.height ≠ height := by
          intro h
          have hp' := hsome p h
          rw [hv] at hp'
          cases hp'
        exact ih q hq (by omega)
      · simp only [visit, visitAuthor, hauthor]

variable {p : Part} (onBranch : Option (Branch → m Unit)) (onBlock : Option (Block → m Unit))
  (onStep : Option (Step → m Unit))

theorem visit_of_onScene (hv : v.onScene.isSome = true) (hp : 3 ≤ p.height) :
    visit { v with onBranch := onBranch, onBlock := onBlock, onStep := onStep } p = v.visit p := by
  refine visit_congr (v := v) (fun q hq => ?_) (fun q hq => ?_) ?_ hp
  · cases q <;> cases hq
    exact Option.isSome_map.trans hv
  · cases q <;> first | rfl | simp [Part.height] at hq
  · rfl

theorem visit_of_onBranch (hv : v.onBranch.isSome = true) (hp : 2 ≤ p.height) :
    visit { v with onBlock := onBlock, onStep := onStep } p = v.visit p := by
  refine visit_congr (v := v) (fun q hq => ?_) (fun q hq => ?_) ?_ hp
  · cases q <;> cases hq
    exact Option.isSome_map.trans hv
  · cases q <;> first | rfl | simp [Part.height] at hq
  · rfl

theorem visit_of_onBlock (hv : v.onBlock.isSome = true) (hp : 1 ≤ p.height) :
    visit { v with onStep := onStep } p = v.visit p := by
  refine visit_congr (v := v) (fun q hq => ?_) (fun q hq => ?_) ?_ hp
  · cases q <;> cases hq
    exact Option.isSome_map.trans hv
  · cases q <;> first | rfl | simp [Part.height] at hq
  · rfl

/-- A visitor that has something to say about parts of one kind only comes to all of these. -/
theorem visit_eq_forM_filterMap {α : Type} {pick : Part → Option α} {look : α → m Unit}
    {height : Nat} (hheight : ∀ {q}, (pick q).isSome = true → q.height = height)
    (hown : ∀ q, v.own q = (pick q).map look) (p : Part) :
    v.visit p = (p.parts.filterMap pick).forM look := by
  have houtermost : ∀ q, (v.own q).isSome = true → q.height = height := by
    intro q hq
    rw [hown, Option.isSome_map] at hq
    exact hheight hq
  have hcall : v.call = fun q => ((pick q).map look).getD (pure ()) := by
    funext q
    rw [call, hown]
  rw [visit_eq_forM_outermost, outermost_eq_filter v houtermost, forM_filterMap, ← hcall]
  apply forM_filter
  intro q _ hq
  rw [call, Option.isNone_iff_eq_none.1 (Option.isSome_eq_false_iff.1 hq), Option.getD_none]

end Visitor
end Scenario
