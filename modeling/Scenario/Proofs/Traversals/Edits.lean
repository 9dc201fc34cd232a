import Scenario.Proofs.Broadcasting
import Scenario.Proofs.Traversals.Entries
import Scenario.Proofs.Traversals.Visits

/-!
# What an editor changes

An editor of authors and blocks replaces each author outside of scenes, and then the block of each
branch of each scene. Around the blocks, scenes and branches stay as they are: this is their frame.
A document consists of its authors, its blocks, and the frames of its scenes, so that nothing else
is left that could change.

Main statement: `Document.traversals_reach_once`, on visitors and on editors.
-/

namespace Scenario

/-- Where two views tell elements apart, they tell lists apart. -/
theorem eq_of_map_eq {α β γ : Type} {f : α → β} {g : α → γ}
    (h : ∀ a b, f a = f b → g a = g b → a = b) {as bs : List α} (hf : as.map f = bs.map f)
    (hg : as.map g = bs.map g) : as = bs := by
  induction as generalizing bs with
  | nil => exact (List.map_eq_nil_iff.1 hf.symm).symm
  | cons a as ih =>
    cases bs with
    | nil => cases hf
    | cons b bs =>
      obtain ⟨hfa, hf⟩ := List.cons.inj hf
      obtain ⟨hga, hg⟩ := List.cons.inj hg
      rw [h a b hfa hga, ih hf hg]

/-- A scene without what is in the blocks of its branches. -/
structure Scene.Frame where
  id : String
  span : Span
  authors : Registry Author
  /-- The key, the id and the span of each branch. -/
  branches : List (String × String × Span)

namespace Scene

def frame (s : Scene) : Frame :=
  ⟨s.id, s.span, s.authors, s.branches.entries.map fun entry =>
    (entry.1, entry.2.id, entry.2.span)⟩

def blocks (s : Scene) : List Block := s.branches.values.map Branch.block

theorem eq_of_frame_eq {s t : Scene} (hframe : s.frame = t.frame) (hblocks : s.blocks = t.blocks) :
    s = t := by
  obtain ⟨id, span, authors, ⟨entries, hentries⟩⟩ := s
  obtain ⟨id', span', authors', ⟨entries', hentries'⟩⟩ := t
  obtain ⟨rfl, rfl, rfl, hkeys⟩ := Frame.mk.inj hframe
  simp only [blocks, Registry.values, List.map_map] at hblocks
  obtain rfl : entries = entries' := by
    refine eq_of_map_eq (fun entry entry' hkey hblock => ?_) hkeys hblocks
    obtain ⟨key, ⟨id, block, span⟩⟩ := entry
    obtain ⟨key', ⟨id', block', span'⟩⟩ := entry'
    simp only [Prod.mk.injEq] at hkey
    obtain ⟨rfl, rfl, rfl⟩ := hkey
    obtain rfl : block = block' := hblock
    rfl
  rfl

end Scene

/-- The frames of the scenes, the authors outside, and the blocks of each scene. -/
def Document.anatomy (d : Document) : List Scene.Frame × List Author × List (List Block) :=
  (d.scenes.map Scene.frame, d.authors, d.scenes.map Scene.blocks)

theorem Document.anatomy_injective : Function.Injective Document.anatomy := by
  rintro ⟨scenes, authors⟩ ⟨scenes', authors'⟩ h
  obtain ⟨hframes, hrest⟩ := Prod.mk.inj h
  obtain ⟨rfl, hblocks⟩ := Prod.mk.inj hrest
  obtain rfl : scenes = scenes' :=
    eq_of_map_eq (fun _ _ => Scene.eq_of_frame_eq) hframes hblocks
  rfl

namespace Editor

variable {m : Type → Type} [Monad m] [LawfulMonad m] {e : Editor m} {g : Block → m Block}

theorem editsPart_editBranch (hbranch : e.onBranch = none) (hblock : e.onBlock = some g) :
    EditsPart (fun b => (b.id, b.span)) Branch.block e.editBranch g := by
  intro b
  simp [editBranch, editBlock, hbranch, hblock]

theorem editsPart_editScene (hscene : e.onScene = none) (hbranch : e.onBranch = none)
    (hblock : e.onBlock = some g) :
    EditsPart Scene.frame Scene.blocks e.editScene (List.mapM g) := by
  have hedit : e.editScene =
      fun s => (fun branches => { s with branches := branches }) <$>
        s.branches.traverse e.editBranch := by
    funext s
    simp [editScene, hscene]
  rw [hedit]
  exact (editsPart_editBranch hbranch hblock).traverse.within Scene.branches _
    (fun s branches => ⟨s.id, s.span, s.authors, branches⟩) (fun _ _ => ⟨rfl, rfl⟩)
    (fun _ => ⟨rfl, rfl⟩)

theorem anatomy_editDocument {f : Author → m Author} (hdocument : e.onDocument = none)
    (hscene : e.onScene = none) (hauthor : e.onAuthor = some f) (hbranch : e.onBranch = none)
    (hblock : e.onBlock = some g) (d : Document) :
    Document.anatomy <$> e.editDocument d = do
      let authors ← d.authors.mapM f
      let blocks ← d.scenes.mapM fun s => s.blocks.mapM g
      return (d.scenes.map Scene.frame, authors, blocks) := by
  have hauthors : e.editAuthor = f := by
    funext a
    simp [editAuthor, hauthor]
  have hscenes (authors : List Author) := congrArg ((fun p => (p.1, authors, p.2)) <$> ·)
    ((editsPart_editScene hscene hbranch hblock).mapM d.scenes)
  simp only [Functor.map_map, List.mapM_map] at hscenes
  simp only [editDocument, hdocument, hauthors, map_bind, bind_pure_comp, Functor.map_map]
  exact bind_congr fun authors => hscenes authors

theorem editDocument_idle (d : Document) : (idle : Editor m).editDocument d = pure d := by
  have hauthors : (idle : Editor m).editAuthor = fun a => pure (id a) :=
    funext (editAuthor_of_none rfl)
  have hscenes : (idle : Editor m).editScene = fun s => pure (id s) :=
    funext (editScene_of_none rfl rfl rfl)
  change (do
    let authors ← d.authors.mapM (idle : Editor m).editAuthor
    let scenes ← d.scenes.mapM (idle : Editor m).editScene
    return (⟨scenes, authors⟩ : Document)) = pure d
  rw [hauthors, hscenes, List.mapM_pure, List.mapM_pure, pure_bind, pure_bind, List.map_id,
    List.map_id]

end Editor

/-- Traversals reach everything once, and touch nothing else.

A visitor that is sent to a part comes to the outermost of the parts in it that it has something to
say about; what it would say about others, inside of these, makes no difference. If it is about
authors and steps, then it comes to all of them, and so it does if it is about branches, blocks, or
scenes. In a document they are where one expects them, and they are the same however the authors and
branches of scenes are arranged.

An editor of authors and blocks makes of the authors outside and of the blocks of each scene what it
is said to make of each of them, once. It leaves the frames of scenes as they are, and nothing else
is left in a document. An editor that has nothing to say makes no change. -/
theorem Document.traversals_reach_once {m : Type → Type} [Monad m] [LawfulMonad m]
    (d : Document) :
    (∀ (v : Visitor m) (p : Part), v.visit p = (v.outermost p).forM v.call) ∧
    (∀ (v : Visitor m) (p : Part) onBranch onBlock onStep,
      (v.onScene.isSome = true → 3 ≤ p.height → Visitor.visit
        { v with onBranch := onBranch, onBlock := onBlock, onStep := onStep } p = v.visit p) ∧
      (v.onBranch.isSome = true → 2 ≤ p.height →
        Visitor.visit { v with onBlock := onBlock, onStep := onStep } p = v.visit p) ∧
      (v.onBlock.isSome = true → 1 ≤ p.height →
        Visitor.visit { v with onStep := onStep } p = v.visit p)) ∧
    ((∀ (f : Author → m Unit) (g : Step → m Unit) (p : Part),
        Visitor.visit { (.idle : Visitor m) with onAuthor := some f, onStep := some g } p =
          (p.parts.filterMap Part.leaf?).forM (Sum.elim f g)) ∧
      (∀ (f : Branch → m Unit) (p : Part),
        Visitor.visit { (.idle : Visitor m) with onBranch := some f } p =
          (p.parts.filterMap Part.branch?).forM f) ∧
      (∀ (f : Block → m Unit) (p : Part),
        Visitor.visit { (.idle : Visitor m) with onBlock := some f } p =
          (p.parts.filterMap Part.block?).forM f) ∧
      ∀ (f : Scene → m Unit) (p : Part),
        Visitor.visit { (.idle : Visitor m) with onScene := some f } p =
          (p.parts.filterMap Part.scene?).forM f) ∧
    ((Part.document d).parts.filterMap Part.leaf? =
        d.authors.map .inl ++ d.scenes.flatMap (fun s => s.authors.values.map .inl ++
          s.branches.values.flatMap fun b => b.block.steps.map .inr) ∧
      (Part.document d).parts.filterMap Part.branch? =
        d.scenes.flatMap (fun s => s.branches.values) ∧
      (Part.document d).parts.filterMap Part.block? =
        d.scenes.flatMap (fun s => s.branches.values.map Branch.block) ∧
      (Part.document d).parts.filterMap Part.scene? = d.scenes) ∧
    (∀ e, d.Rearranged e →
      ((Part.document d).parts.filterMap Part.leaf?).Perm
        ((Part.document e).parts.filterMap Part.leaf?) ∧
      ((Part.document d).parts.filterMap Part.branch?).Perm
        ((Part.document e).parts.filterMap Part.branch?) ∧
      ((Part.document d).parts.filterMap Part.block?).Perm
        ((Part.document e).parts.filterMap Part.block?)) ∧
    (∀ (f : Author → m Author) (g : Block → m Block),
      anatomy <$> Editor.editDocument
          { (.idle : Editor m) with onAuthor := some f, onBlock := some g } d = do
        let authors ← d.authors.mapM f
        let blocks ← d.scenes.mapM fun s => s.blocks.mapM g
        return (d.scenes.map Scene.frame, authors, blocks)) ∧
    Function.Injective anatomy ∧
    (Editor.idle : Editor m).editDocument d = pure d := by
  refine ⟨fun v p => v.visit_eq_forM_outermost p,
    fun v p onBranch onBlock onStep => ⟨Visitor.visit_of_onScene onBranch onBlock onStep,
      Visitor.visit_of_onBranch onBlock onStep, Visitor.visit_of_onBlock onStep⟩,
    ⟨fun f g => ?_, fun f => ?_, fun f => ?_, fun f => ?_⟩,
    ⟨Part.filterMap_leaf?_parts d, Part.filterMap_branch?_parts d, Part.filterMap_block?_parts d,
      Part.filterMap_scene?_parts d⟩, fun e h => ⟨?_, ?_, ?_⟩,
    fun f g => Editor.anatomy_editDocument rfl rfl rfl rfl rfl d, anatomy_injective,
    Editor.editDocument_idle d⟩
  · exact Visitor.visit_eq_forM_filterMap Part.height_leaf? fun q => by cases q <;> rfl
  · exact Visitor.visit_eq_forM_filterMap Part.height_branch? fun q => by cases q <;> rfl
  · exact Visitor.visit_eq_forM_filterMap Part.height_block? fun q => by cases q <;> rfl
  · exact Visitor.visit_eq_forM_filterMap Part.height_scene? fun q => by cases q <;> rfl
  · exact h.perm_filterMap_parts (fun _ => rfl) (fun _ => rfl)
  · exact h.perm_filterMap_parts (fun _ => rfl) (fun _ => rfl)
  · exact h.perm_filterMap_parts (fun _ => rfl) (fun _ => rfl)

/-- A document is visited that has an author, and a scene with an author and two branches. The same
branches are there if the scene is rearranged, and what is in them is not visited. Then authors are
renamed and steps are counted. -/
theorem Document.traversals_reach_once_named :
    let authors := Registry.empty.put "a" (⟨"a", ⟨1, 1⟩⟩ : Author)
    let b : Branch := ⟨"b", ⟨[.finish]⟩, ⟨3, 1⟩⟩
    let c : Branch := ⟨"c", ⟨[]⟩, ⟨5, 1⟩⟩
    let d : Document :=
      ⟨[⟨"s", ⟨0, 9⟩, authors, (Registry.empty.put "b" b).put "c" c⟩], [⟨"t", ⟨9, 1⟩⟩]⟩
    let e : Document :=
      ⟨[⟨"s", ⟨0, 9⟩, authors, (Registry.empty.put "c" c).put "b" b⟩], [⟨"t", ⟨9, 1⟩⟩]⟩
    let naming : Visitor (StateM (List String)) :=
      { Visitor.idle with onBranch := some fun b => modify (· ++ [b.id]) }
    let f (a : Author) : StateM (List String) Author := do
      modify (· ++ [a.id])
      return { a with id := "u" }
    let g (block : Block) : StateM (List String) Block := do
      modify (· ++ [toString block.length])
      return block.push .finish
    d.Rearranged e ∧
    ((Part.document d).parts.filterMap Part.branch?).Perm
      ((Part.document e).parts.filterMap Part.branch?) ∧
    naming.onBranch.isSome = true ∧ 2 ≤ (Part.document d).height ∧
    ((Visitor.visit { naming with onStep := some fun _ => modify (· ++ ["step"]) }
      (.document d)).run []).2 = ["b", "c"] ∧
    (anatomy <$> Editor.editDocument { (.idle : Editor (StateM (List String))) with
        onAuthor := some f, onBlock := some g } d).run [] =
      ((d.scenes.map Scene.frame, [⟨"u", ⟨9, 1⟩⟩], [[⟨[.finish, .finish]⟩, ⟨[.finish]⟩]]),
        ["t", "1", "0"]) := by
  intro authors b c d e naming f g
  have hde : d.Rearranged e := ⟨rfl, .cons ⟨rfl, rfl, .refl _, .swap _ _ _⟩ .nil⟩
  have hheight : 2 ≤ (Part.document d).height := by simp [Part.height]
  obtain ⟨-, hinside, ⟨-, hvisit, -⟩, ⟨-, hbranches, -⟩, hperm, hedit, -⟩ :=
    @traversals_reach_once (StateM (List String)) _ _ d
  refine ⟨hde, (hperm e hde).2.1, rfl, hheight, ?_, ?_⟩
  · obtain ⟨-, hnone, -⟩ := hinside naming (.document d) none none
      (some fun _ => modify (· ++ ["step"]))
    have hvisited := (hnone rfl hheight).trans (hvisit _ (.document d))
    rw [hbranches] at hvisited
    exact congrArg (fun action => (StateT.run action []).2) hvisited
  · rw [hedit f g]
    with_unfolding_all rfl

end Scenario
