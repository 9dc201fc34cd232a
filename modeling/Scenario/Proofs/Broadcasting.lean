import Mathlib.Data.List.Forall2
import Scenario.Parser.Target
import Scenario.Proofs.Holdings
import Scenario.Proofs.Reading

/-!
# Broadcasting supplies what is missing

Broadcasting gives a scene, for each id that it has no author for, the first of the authors outside
with that id. Its own authors stay, and so does everything else. A scene that lacks nobody stays as
it is, hence broadcasting a second time changes nothing, and neither does broadcasting the authors
of a document that has been read: this is what reading ends with.

The editor that broadcasts has work to do on whole documents only. It enters scenes and branches,
but has nothing to say about what it finds there.

Main statement: `Document.broadcast_supplies`.
-/

namespace Scenario

namespace Registry

variable {α : Type} {m : Type → Type} [Monad m] [LawfulMonad m] {f : α → m α}

theorem traverseIn_eq_pure (h : ∀ a, f a = pure a) (entries : List (String × α)) :
    traverseIn f entries = pure ⟨entries, rfl⟩ := by
  induction entries with
  | nil => rfl
  | cons entry rest ih => simp [traverseIn, h, ih]

/-- Replacing each value by itself changes nothing. -/
theorem traverse_eq_pure (h : ∀ a, f a = pure a) (r : Registry α) : r.traverse f = pure r := by
  simp [traverse, traverseIn_eq_pure h]

end Registry

namespace Editor

variable {m : Type → Type} [Monad m] {e : Editor m}

theorem editBlock_of_none (h : e.onBlock = none) (block : Block) :
    e.editBlock block = pure block := by
  simp [editBlock, h]

theorem editAuthor_of_none (h : e.onAuthor = none) (author : Author) :
    e.editAuthor author = pure author := by
  simp [editAuthor, h]

variable [LawfulMonad m]

/-- Branches are entered, but there is nothing to do with their blocks. -/
theorem editBranch_of_none (hbranch : e.onBranch = none) (hblock : e.onBlock = none)
    (branch : Branch) : e.editBranch branch = pure branch := by
  simp [editBranch, hbranch, editBlock_of_none hblock]

theorem editScene_of_none (hscene : e.onScene = none) (hbranch : e.onBranch = none)
    (hblock : e.onBlock = none) (scene : Scene) : e.editScene scene = pure scene := by
  have hbranches := Registry.traverse_eq_pure (editBranch_of_none hbranch hblock) scene.branches
  simp [editScene, hscene, hbranches]

end Editor

/-- The scene after it has been given the authors it lacks. -/
structure Scene.Supplied (outside : List Author) (before after : Scene) : Prop where
  id_eq : after.id = before.id
  span_eq : after.span = before.span
  branches_eq : after.branches = before.branches
  /-- An author of the scene itself stays. An id that has none gets the first author outside. -/
  author?_eq : ∀ x, after.author? x = (before.author? x).or (outside.find? (·.id = x))

namespace Scene

variable {s : Scene} {authors : List Author}

theorem supplied_addAuthors (s : Scene) (authors : List Author) :
    Supplied authors s (s.addAuthors authors) where
  id_eq := id_addAuthors s authors
  span_eq := span_addAuthors s authors
  branches_eq := branches_addAuthors s authors
  author?_eq x := author?_addAuthors s x authors

/-- A scene that has all of the authors stays as it is. -/
theorem addAuthors_of_isSome (h : ∀ a ∈ authors, (s.author? a.id).isSome = true) :
    s.addAuthors authors = s := by
  induction authors with
  | nil => rfl
  | cons a authors ih =>
    obtain ⟨ha, hrest⟩ := List.forall_mem_cons.1 h
    obtain ⟨b, hb⟩ := Option.isSome_iff_exists.1 ha
    have hcons : s.addAuthors (a :: authors) = (s.addAuthor a).2.addAuthors authors := rfl
    rw [hcons, addAuthor_of_some s hb]
    exact ih hrest

/-- An id is found in a supplied scene if it was found before, or is that of an author outside. -/
theorem Supplied.isSome_author?_iff {outside : List Author} {before after : Scene}
    (h : Supplied outside before after) (x : String) :
    (after.author? x).isSome = true ↔
      (before.author? x).isSome = true ∨ ∃ a ∈ outside, a.id = x := by
  simp [h.author?_eq, Option.isSome_or, List.find?_isSome]

end Scene

namespace Document

/-- Every author outside of scenes is found in every scene. -/
def Complete (d : Document) : Prop :=
  ∀ s ∈ d.scenes, ∀ a ∈ d.authors, (s.author? a.id).isSome = true

variable {d : Document}

theorem supplied_broadcast (d : Document) :
    List.Forall₂ (Scene.Supplied d.authors) d.scenes d.broadcast.scenes := by
  simp only [broadcast, List.forall₂_map_right_iff, List.forall₂_same]
  intro s _
  exact s.supplied_addAuthors d.authors

theorem complete_broadcast (d : Document) : d.broadcast.Complete := by
  intro s hs a ha
  obtain ⟨own, -, rfl⟩ := List.mem_map.1 hs
  exact ((own.supplied_addAuthors d.authors).isSome_author?_iff a.id).2 (.inr ⟨a, ha, rfl⟩)

/-- Broadcasting changes nothing where nobody is missing. -/
theorem Complete.broadcast_eq (h : d.Complete) : d.broadcast = d := by
  have hscenes : d.scenes.map (fun s => s.addAuthors d.authors) = d.scenes := by
    rw [List.map_congr_left fun s hs => Scene.addAuthors_of_isSome (h s hs)]
    exact List.map_id' d.scenes
  rw [broadcast, hscenes]

end Document

namespace Target

variable {d : Dialect} {extent : Extent} {base : Nat}

/-- The authors of a document that has been read are broadcast to its scenes. -/
theorem exists_broadcast_of_read {items : List Item} {document : Document}
    (h : (Target.document.read d extent base items).result = .ok document) :
    ∃ own : Document, document = own.broadcast := by
  obtain ⟨issues, hread⟩ := Verdict.result_eq_ok_iff.1 h
  obtain ⟨o, stop, is, hf⟩ := OpenDocument.readsOn_machine.exists_finish hread
  cases o with
  | items own => exact ⟨own, (Verdict.pure_eq_ok_iff.1 hf).2.symm⟩
  | author own rest => exact (Verdict.reject_ne_ok hf).elim
  | scene own rest => exact (Verdict.reject_ne_ok hf).elim

theorem complete_of_read {items : List Item} {document : Document}
    (h : (Target.document.read d extent base items).result = .ok document) :
    document.Complete := by
  obtain ⟨own, rfl⟩ := exists_broadcast_of_read h
  exact own.complete_broadcast

/-- What a source is parsed as is what its items are read as. -/
theorem result_read_of_parse {target : Target} {source : String} {parsed : Parsed target.Node}
    (h : target.parse d extent source base = .ok (.ok parsed)) :
    (target.read d extent base (Lexer.ofString source base d).items).result = .ok parsed.value := by
  unfold parse readInto at h
  generalize target.read d extent base (Lexer.ofString source base d).items = verdict at h ⊢
  obtain ⟨issues, result⟩ := verdict
  match result with
  | .error (.fault f) => cases h
  | .error .rejected =>
    dsimp only at h
    split at h <;> cases h
  | .ok value =>
    dsimp only at h
    split at h <;> cases h
    rfl

end Target

namespace Document

/-- Broadcasting supplies exactly what is missing.

On a document the broadcasting editor does what `broadcast` says, and on all other parts of a script
nothing. Broadcasting leaves the authors outside and the sequence of scenes as they are, and each
scene is supplied with the authors it lacks. So a second time it changes nothing; a document that
has been read, from a stream or a source, is complete and stays as it is; and which ids a scene has
authors for does not depend on the order of the authors outside. -/
theorem broadcast_supplies {m : Type → Type} [Monad m] [LawfulMonad m] (document : Document) :
    ((Editor.broadcasting : Editor m).editDocument document = pure document.broadcast ∧
      (∀ s, (Editor.broadcasting : Editor m).editScene s = pure s) ∧
      (∀ a, (Editor.broadcasting : Editor m).editAuthor a = pure a) ∧
      (∀ b, (Editor.broadcasting : Editor m).editBranch b = pure b) ∧
      ∀ b, (Editor.broadcasting : Editor m).editBlock b = pure b) ∧
    document.broadcast.authors = document.authors ∧
    List.Forall₂ (Scene.Supplied document.authors) document.scenes document.broadcast.scenes ∧
    document.broadcast.broadcast = document.broadcast ∧
    (∀ (d : Dialect) (extent : Extent) (base : Nat) (items : List Item) (journal : Journal)
      (value : Document), (Target.document.readInto d extent base items journal).1 = .ok value →
      value.broadcast = value ∧ value.Complete) ∧
    (∀ (d : Dialect) (extent : Extent) (source : String) (base : Nat) (parsed : Parsed Document),
      Target.document.parse d extent source base = .ok (.ok parsed) →
      parsed.value.broadcast = parsed.value ∧ parsed.value.Complete) ∧
    ∀ authors : List Author, authors.Perm document.authors →
      List.Forall₂ (fun s t => ∀ x, (s.author? x).isSome = true ↔ (t.author? x).isSome = true)
        (broadcast ⟨document.scenes, authors⟩).scenes document.broadcast.scenes := by
  refine ⟨⟨rfl, ?_, ?_, ?_, ?_⟩, rfl, document.supplied_broadcast,
    document.complete_broadcast.broadcast_eq, ?_, ?_, ?_⟩
  · exact Editor.editScene_of_none rfl rfl rfl
  · exact Editor.editAuthor_of_none rfl
  · exact Editor.editBranch_of_none rfl rfl
  · exact Editor.editBlock_of_none rfl
  · intro d extent base items journal value h
    have hcomplete : value.Complete := Target.complete_of_read h
    exact ⟨hcomplete.broadcast_eq, hcomplete⟩
  · intro d extent source base parsed h
    have hcomplete : parsed.value.Complete :=
      Target.complete_of_read (Target.result_read_of_parse h)
    exact ⟨hcomplete.broadcast_eq, hcomplete⟩
  · intro authors hperm
    simp only [broadcast, List.forall₂_map_left_iff, List.forall₂_map_right_iff, List.forall₂_same]
    intro s _ x
    rw [(s.supplied_addAuthors authors).isSome_author?_iff,
      (s.supplied_addAuthors document.authors).isSome_author?_iff]
    simp only [hperm.mem_iff]

/-- A scene with an author of its own, and two authors outside, the first of which it has. -/
theorem broadcast_supplies_scene :
    let source := "author a \x7b \x7d author b \x7b \x7d scene s \x7b author a \x7b \x7d \x7d"
    let outside : List Author := [⟨"a", ⟨0, 12⟩⟩, ⟨"b", ⟨13, 12⟩⟩]
    let scene : Scene := ⟨"s", ⟨26, 24⟩,
      (Registry.empty.put "a" ⟨"a", ⟨36, 12⟩⟩).put "b" ⟨"b", ⟨13, 12⟩⟩, .empty⟩
    Target.document.parse .strict .whole source 0 = .ok (.ok ⟨⟨[scene], outside⟩, []⟩) ∧
    broadcast ⟨[scene], outside⟩ = ⟨[scene], outside⟩ ∧ Complete ⟨[scene], outside⟩ ∧
    outside.reverse.Perm outside ∧
    List.Forall₂ (fun s t => ∀ x, (s.author? x).isSome = true ↔ (t.author? x).isSome = true)
      (broadcast ⟨[scene], outside.reverse⟩).scenes (broadcast ⟨[scene], outside⟩).scenes := by
  intro source outside scene
  have hitems : (Lexer.ofString source 0 .strict).items =
      [.token ⟨.keyword .author, "author", ⟨0, 6⟩⟩, .token ⟨.ident, "a", ⟨7, 1⟩⟩,
        .token ⟨.openBrace, "\x7b", ⟨9, 1⟩⟩, .token ⟨.closeBrace, "\x7d", ⟨11, 1⟩⟩,
        .token ⟨.keyword .author, "author", ⟨13, 6⟩⟩, .token ⟨.ident, "b", ⟨20, 1⟩⟩,
        .token ⟨.openBrace, "\x7b", ⟨22, 1⟩⟩, .token ⟨.closeBrace, "\x7d", ⟨24, 1⟩⟩,
        .token ⟨.keyword .scene, "scene", ⟨26, 5⟩⟩, .token ⟨.ident, "s", ⟨32, 1⟩⟩,
        .token ⟨.openBrace, "\x7b", ⟨34, 1⟩⟩,
        .token ⟨.keyword .author, "author", ⟨36, 6⟩⟩, .token ⟨.ident, "a", ⟨43, 1⟩⟩,
        .token ⟨.openBrace, "\x7b", ⟨45, 1⟩⟩, .token ⟨.closeBrace, "\x7d", ⟨47, 1⟩⟩,
        .token ⟨.closeBrace, "\x7d", ⟨49, 1⟩⟩] := by
    decide +kernel
  have hparse : Target.document.parse .strict .whole source 0 =
      .ok (.ok ⟨⟨[scene], outside⟩, []⟩) := by
    unfold Target.parse Target.readInto
    rw [hitems]
    rfl
  have hperm : outside.reverse.Perm outside := List.reverse_perm outside
  obtain ⟨-, -, -, -, -, hread, horder⟩ := @broadcast_supplies Id _ _ ⟨[scene], outside⟩
  obtain ⟨hfixed, hcomplete⟩ := hread .strict .whole source 0 _ hparse
  exact ⟨hparse, hfixed, hcomplete, hperm, horder outside.reverse hperm⟩

end Document
end Scenario
