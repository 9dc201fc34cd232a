import Mathlib.Logic.Relation
import Scenario.Proofs.Traversals.Entries
import Scenario.Proofs.Writable

/-!
# Scenes that change

A scene starts out empty and is changed step by step: authors and branches are added, steps are
pushed, authors are broadcast, editors pass over it. `Scene.Change` lists what a step may be. No
step takes an author away or replaces it, and none puts an author or a branch under another id than
its own (`Scene.Change.later`), so this holds of every scene that can be reached.

Main statement: `Scene.Reached.stays_keyed`.
-/

namespace Scenario

namespace Registry

variable {α : Type} {r s : Registry α}

/-- The same values under the same keys, perhaps in another order. -/
def Rearranged (r s : Registry α) : Prop := r.entries.Perm s.entries

theorem Rearranged.find?_eq (h : r.Rearranged s) (key : String) : s.find? key = r.find? key := by
  ext a
  rw [find?_eq_some_iff, find?_eq_some_iff]
  exact h.symm.mem_iff

/-- An editor that leaves the keys of the values alone leaves them under their own keys. -/
theorem keyed_run_traverse {σ : Type} {key : α → String} {edit : α → StateM σ α}
    (hedit : ∀ a state, key ((edit a).run state).1 = key a) (state : σ)
    (h : ∀ x a, r.find? x = some a → key a = x) :
    ∀ x a, ((r.traverse edit).run state).1.find? x = some a → key a = x := by
  have hentries : ((r.traverse edit).run state).1.entries =
      ((r.entries.mapM fun entry => (entry.1, ·) <$> edit entry.2).run state).1 := by
    rw [← map_entries_traverse]
    rfl
  intro x a ha
  rw [find?_eq_some_iff, hentries] at ha
  obtain ⟨⟨y, b⟩, hb, between, heq⟩ := exists_of_mem_run_mapM ha
  obtain ⟨rfl, rfl⟩ : y = x ∧ ((edit b).run between).1 = a := Prod.mk.inj heq
  rw [hedit]
  exact h y b ((find?_eq_some_iff r y b).2 hb)

end Registry

/-- The editor has nothing to say about documents and scenes as a whole, and leaves the ids of
branches alone. Its state may be anything; an editor that gives up is one that makes no more changes
from some state on. -/
structure Editor.KeepsIds {σ : Type} (e : Editor (StateM σ)) : Prop where
  onDocument_eq : e.onDocument = none
  onScene_eq : e.onScene = none
  id_eq : ∀ edit, e.onBranch = some edit → ∀ b state, ((edit b).run state).1.id = b.id

theorem Editor.KeepsIds.id_editBranch {σ : Type} {e : Editor (StateM σ)} (h : e.KeepsIds)
    (b : Branch) (state : σ) : ((e.editBranch b).run state).1.id = b.id := by
  cases hb : e.onBranch with
  | some edit =>
    simp only [editBranch, hb]
    exact h.id_eq edit hb b state
  | none =>
    simp only [editBranch, hb]
    rfl

namespace Scene

/-- The same scene, but for the order in which authors and branches are kept. -/
structure Rearranged (s t : Scene) : Prop where
  id_eq : t.id = s.id
  span_eq : t.span = s.span
  authors : s.authors.Rearranged t.authors
  branches : s.branches.Rearranged t.branches

/-- What may happen to a scene in one step. A clone is the scene itself, perhaps rearranged. -/
inductive Change : Scene → Scene → Prop
  | addAuthor (s : Scene) (a : Author) : Change s (s.addAuthor a).2
  | addBranch (s : Scene) (b : Branch) : Change s (s.addBranch b).2
  | pushStep (s : Scene) (id : String) (step : Step) : Change s (s.pushStep id step)
  /-- A single branch is handed out to be changed, and keeps its id. -/
  | revise {s : Scene} {x : String} {b b' : Branch} : s.branch? x = some b → b'.id = b.id →
      Change s { s with branches := s.branches.put x b' }
  | edit {σ : Type} {e : Editor (StateM σ)} (s : Scene) (state : σ) : e.KeepsIds →
      Change s ((e.editScene s).run state).1
  /-- An editor passes over a document that holds the scene. -/
  | editWithin {σ : Type} {e : Editor (StateM σ)} {d : Document} {i : Nat} {s t : Scene}
      (state : σ) : e.KeepsIds → d.scenes[i]? = some s →
      ((e.editDocument d).run state).1.scenes[i]? = some t → Change s t
  /-- The authors of a document that holds the scene are broadcast. -/
  | broadcastWithin {d : Document} {i : Nat} {s t : Scene} : d.scenes[i]? = some s →
      d.broadcast.scenes[i]? = some t → Change s t
  | rearrange {s t : Scene} : s.Rearranged t → Change s t

/-- The scene has been made from an empty one. -/
def Reached (s : Scene) : Prop := ∃ id span, Relation.ReflTransGen Change (ofSpan id span) s

/-- The second scene has all authors that the first one has, as they are there, and is keyed if the
first one is. -/
structure Later (s t : Scene) : Prop where
  keyed : s.Keyed → t.Keyed
  author?_eq : ∀ x a, s.author? x = some a → t.author? x = some a

variable {s t u : Scene}

theorem Later.refl (s : Scene) : s.Later s := ⟨fun h => h, fun _ _ h => h⟩

theorem Later.trans (h : s.Later t) (h' : t.Later u) : s.Later u :=
  ⟨fun hs => h'.keyed (h.keyed hs), fun x a ha => h'.author?_eq x a (h.author?_eq x a ha)⟩

/-- There is a key for each author, so there are no fewer of them later. -/
theorem Later.size_authors_le (h : s.Later t) : s.authors.size ≤ t.authors.size := by
  apply Registry.size_le_of_keys_subset
  intro x hx
  obtain ⟨a, ha⟩ := Registry.mem_keys_iff.1 hx
  exact Registry.mem_keys_iff.2 ⟨a, h.author?_eq x a ha⟩

/-- Where only branches change, and keep their ids, authors stay. -/
theorem later_withBranches {branches : Registry Branch}
    (h : s.Keyed → ∀ x b, branches.find? x = some b → b.id = x) :
    s.Later { s with branches := branches } :=
  ⟨fun hs => ⟨hs.1, h hs⟩, fun _ _ ha => ha⟩

theorem later_addAuthor (s : Scene) (a : Author) : s.Later (s.addAuthor a).2 where
  keyed hs := hs.addAuthor a
  author?_eq x b hb := by rw [author?_addAuthor, hb, Option.some_or]

theorem later_addAuthors (s : Scene) (authors : List Author) : s.Later (s.addAuthors authors) := by
  induction authors generalizing s with
  | nil => exact .refl s
  | cons a authors ih => exact (s.later_addAuthor a).trans (ih _)

theorem later_revise {x : String} {b b' : Branch} (hb : s.branch? x = some b)
    (hid : b'.id = b.id) : s.Later { s with branches := s.branches.put x b' } := by
  refine later_withBranches fun hs y c hc => ?_
  rw [Registry.find?_put] at hc
  split at hc
  case isTrue hxy =>
    obtain rfl := Option.some.inj hc
    rw [hid, hs.2 x b hb, hxy]
  case isFalse => exact hs.2 y c hc

theorem later_edit {σ : Type} {e : Editor (StateM σ)} (he : e.KeepsIds) (s : Scene) (state : σ) :
    s.Later ((e.editScene s).run state).1 := by
  have hrun : ((e.editScene s).run state).1 =
      { s with branches := ((s.branches.traverse e.editBranch).run state).1 } := by
    simp only [Editor.editScene, he.onScene_eq]
    rfl
  rw [hrun]
  exact later_withBranches fun hs => Registry.keyed_run_traverse he.id_editBranch state hs.2

theorem Rearranged.later (h : s.Rearranged t) : s.Later t where
  keyed hs := ⟨fun x a ha => hs.1 x a ((h.authors.find?_eq x).symm.trans ha),
    fun x b hb => hs.2 x b ((h.branches.find?_eq x).symm.trans hb)⟩
  author?_eq x _ ha := (h.authors.find?_eq x).trans ha

/-- What one step does to a scene. -/
theorem Change.later (h : Change s t) : s.Later t := by
  cases h with
  | addAuthor _ a => exact s.later_addAuthor a
  | addBranch _ b => exact ⟨fun hs => hs.addBranch b, fun _ _ ha => ha⟩
  | pushStep _ id step => exact ⟨fun hs => hs.pushStep id step, fun _ _ ha => ha⟩
  | revise hb hid => exact later_revise hb hid
  | edit _ state he => exact later_edit he s state
  | @editWithin σ e d i _ _ state he hs ht =>
    have hscenes : ((e.editDocument d).run state).1.scenes =
        ((d.scenes.mapM e.editScene).run ((d.authors.mapM e.editAuthor).run state).2).1 := by
      simp only [Editor.editDocument, he.onDocument_eq]
      rfl
    rw [hscenes] at ht
    obtain ⟨between, rfl⟩ := exists_of_getElem?_run_mapM hs ht
    exact later_edit he s between
  | @broadcastWithin d i _ _ hs ht =>
    rw [Document.broadcast, List.getElem?_map, hs] at ht
    obtain rfl := Option.some.inj ht
    exact s.later_addAuthors d.authors
  | rearrange h => exact h.later

/-- What any number of steps does to a scene. -/
theorem later_of_reflTransGen (h : Relation.ReflTransGen Change s t) : s.Later t := by
  induction h with
  | refl => exact .refl s
  | tail _ hstep ih => exact ih.trans hstep.later

theorem Reached.keyed (h : s.Reached) : s.Keyed := by
  obtain ⟨id, span, h⟩ := h
  exact (later_of_reflTransGen h).keyed (keyed_ofSpan id span)

theorem Keyed.author?_eq_some_iff (h : s.Keyed) (x : String) (a : Author) :
    s.author? x = some a ↔ a ∈ s.authors.values ∧ a.id = x :=
  Registry.find?_eq_some_iff_mem_values h.1 x a

theorem Keyed.branch?_eq_some_iff (h : s.Keyed) (x : String) (b : Branch) :
    s.branch? x = some b ↔ b ∈ s.branches.values ∧ b.id = x :=
  Registry.find?_eq_some_iff_mem_values h.2 x b

/-- An id is found in a keyed scene exactly if one of its authors has it. -/
theorem Keyed.isSome_author?_iff (h : s.Keyed) (x : String) :
    (s.author? x).isSome = true ↔ ∃ a ∈ s.authors.values, a.id = x := by
  simp only [Option.isSome_iff_exists, h.author?_eq_some_iff]

theorem addAuthor_fst_eq_false_iff (s : Scene) (a : Author) :
    (s.addAuthor a).1 = false ↔ (s.author? a.id).isSome = true := by
  unfold addAuthor
  cases s.author? a.id <;> simp

/-- An author that is not refused is found afterwards, so the scene has changed. -/
theorem addAuthor_snd_eq_self_iff (s : Scene) (a : Author) :
    (s.addAuthor a).2 = s ↔ (s.author? a.id).isSome = true := by
  constructor
  · intro h
    have hfound := s.author?_addAuthor a.id a
    rw [h, if_pos rfl] at hfound
    rw [hfound, Option.isSome_or, Option.isSome_some, Bool.or_true]
  · intro h
    obtain ⟨b, hb⟩ := Option.isSome_iff_exists.1 h
    exact addAuthor_of_some s hb

/-- However a scene has been made, its authors and branches are kept under their own ids.

So there is one of each id at most, and looking up an id finds what going through all of them does.
An author is refused, and the scene left as it is, exactly if its id is taken. A branch takes the
place of the one with its id, which is returned, and of no other. Whatever happens to the scene
afterwards, it does not lose authors, and those it has stay as they are. -/
theorem Reached.stays_keyed (h : s.Reached) :
    ((∀ entry ∈ s.authors.entries, entry.2.id = entry.1) ∧
      ∀ entry ∈ s.branches.entries, entry.2.id = entry.1) ∧
    ((s.authors.values.map Author.id).Nodup ∧ (s.branches.values.map Branch.id).Nodup) ∧
    ((∀ x a, s.author? x = some a ↔ a ∈ s.authors.values ∧ a.id = x) ∧
      ∀ x b, s.branch? x = some b ↔ b ∈ s.branches.values ∧ b.id = x) ∧
    (∀ a, ((s.addAuthor a).1 = false ↔ ∃ b ∈ s.authors.values, b.id = a.id) ∧
      ((s.addAuthor a).2 = s ↔ ∃ b ∈ s.authors.values, b.id = a.id)) ∧
    (∀ b, (∀ old, (s.addBranch b).1 = some old ↔ old ∈ s.branches.values ∧ old.id = b.id) ∧
      (s.addBranch b).2.authors = s.authors ∧
      ∀ x, (s.addBranch b).2.branch? x = if b.id = x then some b else s.branch? x) ∧
    ∀ t, Relation.ReflTransGen Change s t →
      s.authors.size ≤ t.authors.size ∧ ∀ x a, s.author? x = some a → t.author? x = some a := by
  have hs : s.Keyed := h.keyed
  refine ⟨⟨fun entry hentry => ?_, fun entry hentry => ?_⟩, ⟨?_, ?_⟩,
    ⟨hs.author?_eq_some_iff, hs.branch?_eq_some_iff⟩, fun a => ⟨?_, ?_⟩, fun b => ⟨?_, rfl, ?_⟩,
    fun t ht => ?_⟩
  · exact hs.1 entry.1 entry.2 ((Registry.find?_eq_some_iff _ _ _).2 hentry)
  · exact hs.2 entry.1 entry.2 ((Registry.find?_eq_some_iff _ _ _).2 hentry)
  · rw [Registry.map_values_eq_keys hs.1]
    exact s.authors.nodup
  · rw [Registry.map_values_eq_keys hs.2]
    exact s.branches.nodup
  · rw [addAuthor_fst_eq_false_iff, hs.isSome_author?_iff]
  · rw [addAuthor_snd_eq_self_iff, hs.isSome_author?_iff]
  · exact fun old => hs.branch?_eq_some_iff b.id old
  · exact fun x => Registry.find?_put s.branches b.id x b
  · have hlater := later_of_reflTransGen ht
    exact ⟨hlater.size_authors_le, hlater.author?_eq⟩

/-- A scene is given an author and a branch; a step is pushed, an editor counts the steps, and the
authors of a document are broadcast. -/
theorem Reached.stays_keyed_broadcast :
    let scene : Scene := ⟨"s", ⟨0, 9⟩,
      (Registry.empty.put "a" ⟨"a", ⟨1, 1⟩⟩).put "c" ⟨"c", ⟨30, 1⟩⟩,
      Registry.empty.put "b" ⟨"b", ⟨[.finish, .action (.text "1")]⟩, ⟨3, 1⟩⟩⟩
    scene.Reached ∧
    scene.author? "a" = some ⟨"a", ⟨1, 1⟩⟩ ∧
    (scene.addAuthor ⟨"a", ⟨20, 1⟩⟩).2 = scene ∧
    (scene.authors.values.map Author.id).Nodup ∧
    Relation.ReflTransGen Change scene (scene.pushStep "b" .finish) ∧
    (scene.pushStep "b" .finish).author? "a" = some ⟨"a", ⟨1, 1⟩⟩ := by
  intro scene
  let counting : Editor (StateM Nat) := { (Editor.idle : Editor (StateM Nat)) with
    onBlock := some fun block => do
      modify (· + block.length)
      return block.push (.action (.text (toString (← get)))) }
  have hcounting : counting.KeepsIds := ⟨rfl, rfl, fun edit h => nomatch h⟩
  have hreached : scene.Reached := by
    refine ⟨"s", ⟨0, 9⟩, ?_⟩
    have hauthor := Relation.ReflTransGen.single
      (Change.addAuthor (ofSpan "s" ⟨0, 9⟩) ⟨"a", ⟨1, 1⟩⟩)
    have hbranch := hauthor.tail (.addBranch _ (.ofSpan "b" ⟨3, 1⟩))
    have hstep := hbranch.tail (.pushStep _ "b" .finish)
    have hedit := hstep.tail (.edit _ 0 hcounting)
    refine hedit.tail (.broadcastWithin (d := ⟨[_], [⟨"a", ⟨20, 1⟩⟩, ⟨"c", ⟨30, 1⟩⟩]⟩) (i := 0)
      rfl ?_)
    with_unfolding_all rfl
  obtain ⟨-, ⟨hnodup, -⟩, ⟨hfound, -⟩, hadd, -, hlater⟩ := hreached.stays_keyed
  have ha : scene.author? "a" = some ⟨"a", ⟨1, 1⟩⟩ := by with_unfolding_all rfl
  have hpush := Relation.ReflTransGen.single (Change.pushStep scene "b" .finish)
  obtain ⟨-, hstays⟩ := hlater _ hpush
  refine ⟨hreached, ha, (hadd ⟨"a", ⟨20, 1⟩⟩).2.2 ⟨_, (hfound "a" _).1 ha⟩, hnodup, hpush,
    hstays "a" _ ha⟩

end Scene
end Scenario
