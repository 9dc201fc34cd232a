import Scenario.Parser.Verdict

/-!
# Reasoning about verdicts

Two views of a verdict serve the proofs about parsing. The first takes a verdict apart that has a
result: a chain of verdicts has one exactly if each link has one, and the issues of the chain are
those of its links. The second, `Verdict.Meets`, is a postcondition for all outcomes at once. It
says which issues may go before a result, that a rejection ends with its only fatal issue, and that
no fault occurs.
-/

namespace Scenario
namespace Verdict

variable {α β : Type}

@[simp] theorem pure_eq_ok_iff {a b : α} {issues : List Issue} :
    (pure a : Verdict α) = ⟨issues, .ok b⟩ ↔ issues = [] ∧ a = b := by
  change (⟨[], .ok a⟩ : Verdict α) = _ ↔ _
  simp [eq_comm]

@[simp] theorem note_eq_ok_iff {issue : Issue} {issues : List Issue} {u : Unit} :
    note issue = ⟨issues, .ok u⟩ ↔ issues = [issue] := by
  simp [note, eq_comm]

@[simp] theorem reject_ne_ok {issue : Issue} {issues : List Issue} {a : α} :
    (reject issue : Verdict α) ≠ ⟨issues, .ok a⟩ := by
  simp [reject]

@[simp] theorem fault_ne_ok {f : Fault} {issues : List Issue} {a : α} :
    (fault f : Verdict α) ≠ ⟨issues, .ok a⟩ := by
  simp [fault]

theorem ofExcept_eq_ok_iff {r : Except Fault α} {issues : List Issue} {a : α} :
    ofExcept r = ⟨issues, .ok a⟩ ↔ issues = [] ∧ r = .ok a := by
  cases r <;> simp

theorem mk_ok_bind (is : List Issue) (a : α) (f : α → Verdict β) :
    (⟨is, .ok a⟩ : Verdict α) >>= f = ⟨is ++ (f a).issues, (f a).result⟩ :=
  bind_of_ok rfl f

theorem mk_error_bind (is : List Issue) (stop : Stop) (f : α → Verdict β) :
    (⟨is, .error stop⟩ : Verdict α) >>= f = ⟨is, .error stop⟩ :=
  bind_of_error rfl f

/-- A chain has a result if each link has one, and raises the issues of its links. -/
theorem bind_eq_ok_iff {v : Verdict α} {f : α → Verdict β} {issues : List Issue} {b : β} :
    v >>= f = ⟨issues, .ok b⟩ ↔
      ∃ is a js, v = ⟨is, .ok a⟩ ∧ f a = ⟨js, .ok b⟩ ∧ issues = is ++ js := by
  constructor
  · intro h
    obtain ⟨is, result⟩ := v
    cases result with
    | error stop =>
      rw [bind_of_error rfl] at h
      simp at h
    | ok a =>
      rw [bind_of_ok rfl] at h
      simp only [mk.injEq] at h
      exact ⟨is, a, (f a).issues, rfl, by rw [← h.2], h.1.symm⟩
  · rintro ⟨is, a, js, rfl, hf, rfl⟩
    rw [bind_of_ok rfl, hf]

/-- A chain comes to an end early if one of its links does, behind links that have results. -/
theorem bind_eq_error_iff {v : Verdict α} {f : α → Verdict β} {issues : List Issue} {stop : Stop} :
    v >>= f = ⟨issues, .error stop⟩ ↔ v = ⟨issues, .error stop⟩ ∨
      ∃ is a js, v = ⟨is, .ok a⟩ ∧ f a = ⟨js, .error stop⟩ ∧ issues = is ++ js := by
  obtain ⟨is, result⟩ := v
  cases result with
  | error stop' =>
    rw [bind_of_error rfl]
    simp
  | ok a =>
    rw [bind_of_ok rfl]
    constructor
    · intro h
      rw [mk.injEq] at h
      exact .inr ⟨is, a, (f a).issues, rfl, by rw [← h.2], h.1.symm⟩
    · rintro (h | ⟨is', a', js, hv, hf, rfl⟩)
      · cases h
      · cases hv
        rw [hf]

theorem result_eq_ok_iff {v : Verdict α} {a : α} :
    v.result = .ok a ↔ ∃ issues, v = ⟨issues, .ok a⟩ := by
  constructor
  · intro h
    exact ⟨v.issues, by rw [← h]⟩
  · rintro ⟨issues, rfl⟩
    rfl

theorem ofExcept_bind_eq_ok_iff {r : Except Fault α} {f : α → Verdict β} {issues : List Issue}
    {b : β} : ofExcept r >>= f = ⟨issues, .ok b⟩ ↔ ∃ a, r = .ok a ∧ f a = ⟨issues, .ok b⟩ := by
  cases r <;> simp

theorem map_eq_ok_iff {v : Verdict α} {f : α → β} {issues : List Issue} {b : β} :
    f <$> v = ⟨issues, .ok b⟩ ↔ ∃ a, v = ⟨issues, .ok a⟩ ∧ f a = b := by
  rw [map_eq_pure_bind, bind_eq_ok_iff]
  constructor
  · rintro ⟨is, a, js, hv, hp, rfl⟩
    obtain ⟨rfl, rfl⟩ := pure_eq_ok_iff.1 hp
    exact ⟨a, by simpa using hv, rfl⟩
  · rintro ⟨a, hv, rfl⟩
    exact ⟨issues, a, [], hv, by simp, by simp⟩

theorem map_eq_error_iff {v : Verdict α} {f : α → β} {issues : List Issue} {stop : Stop} :
    f <$> v = ⟨issues, .error stop⟩ ↔ v = ⟨issues, .error stop⟩ := by
  rw [map_eq_pure_bind, bind_eq_error_iff]
  constructor
  · rintro (h | ⟨is, a, js, -, hp, -⟩)
    · exact h
    · cases hp
  · exact .inl

/-- The outcome of `v` is a result with `post`, after issues with `warn`, or a rejection whose last
issue has `fatal`, after issues with `warn`. -/
def Meets (warn fatal : Issue → Prop) (post : α → Prop) (v : Verdict α) : Prop :=
  match v.result with
  | .ok a => (∀ i ∈ v.issues, warn i) ∧ post a
  | .error .rejected => ∃ ws e, v.issues = ws ++ [e] ∧ (∀ i ∈ ws, warn i) ∧ fatal e
  | .error (.fault _) => False

variable {warn fatal : Issue → Prop} {post : α → Prop} {after : β → Prop}

theorem meets_pure {a : α} (h : post a) : (pure a : Verdict α).Meets warn fatal post :=
  ⟨by simp, h⟩

theorem meets_note {issue : Issue} (h : warn issue) :
    (note issue).Meets warn fatal fun _ => True :=
  ⟨by simpa [note] using h, trivial⟩

theorem meets_reject {issue : Issue} (h : fatal issue) :
    (reject issue : Verdict α).Meets warn fatal post :=
  ⟨[], issue, rfl, by simp, h⟩

theorem meets_ofExcept {r : Except Fault α} {a : α} (hr : r = .ok a) (h : post a) :
    (ofExcept r).Meets warn fatal post := by
  subst hr
  exact meets_pure h

theorem Meets.bind {v : Verdict α} {f : α → Verdict β} (hv : v.Meets warn fatal post)
    (hf : ∀ a, post a → (f a).Meets warn fatal after) : (v >>= f).Meets warn fatal after := by
  obtain ⟨is, result⟩ := v
  match result with
  | .error .rejected =>
    rw [bind_of_error rfl]
    exact hv
  | .ok a =>
    obtain ⟨hw, ha⟩ := hv
    have hfa := hf a ha
    rw [bind_of_ok rfl]
    unfold Meets at hfa ⊢
    dsimp only
    split at hfa
    · exact ⟨by
        intro i hi
        rcases List.mem_append.1 hi with hi | hi
        · exact hw i hi
        · exact hfa.1 i hi, hfa.2⟩
    · obtain ⟨ws, e, he, hws, hfe⟩ := hfa
      refine ⟨is ++ ws, e, by simp [he], ?_, hfe⟩
      intro i hi
      rcases List.mem_append.1 hi with hi | hi
      · exact hw i hi
      · exact hws i hi
    · exact hfa

theorem Meets.mono {v : Verdict α} {warn' fatal' : Issue → Prop} {post' : α → Prop}
    (h : v.Meets warn fatal post) (hw : ∀ i, warn i → warn' i) (hf : ∀ i, fatal i → fatal' i)
    (hp : ∀ a, post a → post' a) : v.Meets warn' fatal' post' := by
  unfold Meets at h ⊢
  split at h
  · exact ⟨fun i hi => hw i (h.1 i hi), hp _ h.2⟩
  · obtain ⟨ws, e, he, hws, hfe⟩ := h
    exact ⟨ws, e, he, fun i hi => hw i (hws i hi), hf e hfe⟩
  · exact h

section Raises

variable {may : Issue → Prop}

/-- Only issues with `may` are raised, and a result has `post`. There may be faults. -/
def Raises (may : Issue → Prop) (post : α → Prop) (v : Verdict α) : Prop :=
  (∀ i ∈ v.issues, may i) ∧ ∀ a, v.result = .ok a → post a

theorem raises_pure {a : α} (h : post a) : (pure a : Verdict α).Raises may post :=
  ⟨by simp, fun _ ha => Except.ok.inj ha ▸ h⟩

theorem raises_note {issue : Issue} (h : may issue) :
    (note issue).Raises may fun _ => True :=
  ⟨by simpa [note] using h, fun _ _ => trivial⟩

theorem raises_reject {issue : Issue} (h : may issue) :
    (reject issue : Verdict α).Raises may post :=
  ⟨by simpa [reject] using h, fun _ ha => by cases ha⟩

theorem raises_fault {f : Fault} : (fault f : Verdict α).Raises may post :=
  ⟨by simp [fault], fun _ ha => by cases ha⟩

theorem raises_ofExcept {r : Except Fault α} : (ofExcept r).Raises may fun _ => True := by
  cases r with
  | ok a => exact raises_pure trivial
  | error f => exact raises_fault

theorem Raises.bind {v : Verdict α} {f : α → Verdict β} (hv : v.Raises may post)
    (hf : ∀ a, post a → (f a).Raises may after) : (v >>= f).Raises may after := by
  obtain ⟨is, stop | a⟩ := v
  · rw [mk_error_bind]
    exact ⟨hv.1, fun _ ha => by cases ha⟩
  · rw [mk_ok_bind]
    have hfa := hf a (hv.2 a rfl)
    exact ⟨List.forall_mem_append.2 ⟨hv.1, hfa.1⟩, hfa.2⟩

theorem Raises.map {v : Verdict α} {f : α → β} (hv : v.Raises may post)
    (hf : ∀ a, post a → after (f a)) : (f <$> v).Raises may after := by
  rw [map_eq_pure_bind]
  exact hv.bind fun a ha => raises_pure (hf a ha)

/-- What is raised at once has `may`, and so has what comes out when the next item is there. -/
abbrev RaisesTwice (may : Issue → Prop) (v : Verdict (Verdict α)) : Prop :=
  v.Raises may fun inner => inner.Raises may fun _ => True

end Raises

end Verdict
end Scenario
