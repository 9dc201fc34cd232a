import Mathlib.Data.List.Forall2
import Scenario.Script.Traversal

/-!
# Editing one element after the other

To edit the values of a registry is to edit its entries, each of which keeps its key. If editing a
whole comes to editing one part of it, then this is so for lists and for registries of such wholes
as well: the parts are edited in order, and what else there is stays.
-/

namespace Scenario

section States

variable {σ α β : Type}

/-- What an editor with a state makes of each element, it makes of it in some state. -/
theorem forall₂_run_mapM (edit : α → StateM σ β) (as : List α) (state : σ) :
    List.Forall₂ (fun a b => ∃ between, ((edit a).run between).1 = b) as
      ((as.mapM edit).run state).1 := by
  induction as generalizing state with
  | nil => exact .nil
  | cons a as ih =>
    rw [List.mapM_cons]
    exact .cons ⟨state, rfl⟩ (ih _)

theorem exists_of_mem_run_mapM {edit : α → StateM σ β} {as : List α} {state : σ} {b : β}
    (hb : b ∈ ((as.mapM edit).run state).1) :
    ∃ a ∈ as, ∃ between, ((edit a).run between).1 = b := by
  have hrun := forall₂_run_mapM edit as state
  obtain ⟨i, hi, rfl⟩ := List.getElem_of_mem hb
  have hi' : i < as.length := hrun.length_eq ▸ hi
  exact ⟨as[i], List.getElem_mem hi', hrun.get hi' hi⟩

theorem exists_of_getElem?_run_mapM {edit : α → StateM σ β} {as : List α} {state : σ} {i : Nat}
    {a : α} {b : β} (ha : as[i]? = some a) (hb : ((as.mapM edit).run state).1[i]? = some b) :
    ∃ between, ((edit a).run between).1 = b := by
  obtain ⟨hi, rfl⟩ := List.getElem?_eq_some_iff.1 ha
  obtain ⟨hi', rfl⟩ := List.getElem?_eq_some_iff.1 hb
  exact (forall₂_run_mapM edit as state).get hi hi'

end States

variable {m : Type → Type} [Monad m] {α β φ : Type}

/-- Editing a whole comes to editing one part of it. The rest of it, its frame, stays. -/
def EditsPart (frame : α → φ) (part : α → β) (edit : α → m α) (editPart : β → m β) : Prop :=
  ∀ a, (fun x => (frame x, part x)) <$> edit a = (fun b => (frame a, b)) <$> editPart (part a)

variable [LawfulMonad m] {frame : α → φ} {part : α → β} {edit : α → m α} {editPart : β → m β}

theorem EditsPart.mapM (h : EditsPart frame part edit editPart) :
    EditsPart (List.map frame) (List.map part) (List.mapM edit) (List.mapM editPart) := by
  intro as
  induction as with
  | nil => simp
  | cons a as ih =>
    have hrest (x : α) := congrArg (· >>= fun p => pure (frame x :: p.1, part x :: p.2)) ih
    have hfirst := congrArg (· >>= fun p => (as.map part).mapM editPart >>= fun bs =>
      pure (p.1 :: as.map frame, p.2 :: bs)) (h a)
    simp only [bind_map_left] at hrest hfirst
    simp only [List.mapM_cons, List.map_cons, map_bind, map_pure, hrest, hfirst]

/-- The whole may itself be a part of something larger, in the place where `put` puts it. -/
theorem EditsPart.within {ω ψ : Type} {frame' : ω → ψ} {part' : ω → β} (inner : ω → α)
    (put : ω → α → ω) (outer : ω → φ → ψ) (h : EditsPart frame part edit editPart)
    (hput : ∀ w a, frame' (put w a) = outer w (frame a) ∧ part' (put w a) = part a)
    (hinner : ∀ w, frame' w = outer w (frame (inner w)) ∧ part' w = part (inner w)) :
    EditsPart frame' part' (fun w => put w <$> edit (inner w)) editPart := by
  intro w
  have houter := congrArg (Prod.map (outer w) id <$> ·) (h (inner w))
  simp only [Functor.map_map, Prod.map, id_eq] at houter
  simp only [Functor.map_map, hput, (hinner w).1, (hinner w).2, houter]

namespace Registry

theorem map_val_traverseIn (edit : α → m α) (entries : List (String × α)) :
    Subtype.val <$> traverseIn edit entries =
      entries.mapM fun entry => (entry.1, ·) <$> edit entry.2 := by
  induction entries with
  | nil => simp [traverseIn]
  | cons entry rest ih => simp [traverseIn, ← ih]

/-- Editing the values of a registry is editing its entries. -/
theorem map_entries_traverse (edit : α → m α) (r : Registry α) :
    entries <$> r.traverse edit = r.entries.mapM fun entry => (entry.1, ·) <$> edit entry.2 := by
  simp [traverse, ← map_val_traverseIn]

end Registry

theorem EditsPart.traverse (h : EditsPart frame part edit editPart) :
    EditsPart (fun r => r.entries.map fun entry => (entry.1, frame entry.2))
      (fun r => r.values.map part) (Registry.traverse edit) (List.mapM editPart) := by
  have hentry : EditsPart (fun entry : String × α => (entry.1, frame entry.2))
      (fun entry => part entry.2) (fun entry => (entry.1, ·) <$> edit entry.2) editPart :=
    h.within Prod.snd (fun entry a => (entry.1, a)) (fun entry f => (entry.1, f))
      (fun _ _ => ⟨rfl, rfl⟩) (fun _ => ⟨rfl, rfl⟩)
  intro r
  have hentries := hentry.mapM r.entries
  rw [← Registry.map_entries_traverse] at hentries
  simpa only [Functor.map_map, Registry.values, List.map_map, Function.comp_def] using hentries

end Scenario
