import Scenario.Parser.Issue

/-!
# Verdicts

A verdict is what comes out of reading a part of a script: the issues that arose, in their order,
and a result, unless reading came to an end before there was one. Verdicts are chained as the parts
of the script are: the issues of one part are followed by those of the next.
-/

namespace Scenario

/-- Why reading came to an end before there was a result. -/
inductive Stop where
  /-- The script is at fault; the last issue tells how. -/
  | rejected
  | fault (fault : Fault)
deriving DecidableEq, Repr

/-- Reading goes on with what is left to do, or is done. -/
inductive Turn (ρ α : Type) where
  | more (rest : ρ)
  | done (value : α)
deriving DecidableEq, Repr

structure Verdict (α : Type) where
  issues : List Issue
  result : Except Stop α

namespace Verdict

variable {α β : Type}

/-- Goes on with `f` if there is a result. -/
def andThen (v : Verdict α) (f : α → Verdict β) : Verdict β :=
  match v.result with
  | .ok a => ⟨v.issues ++ (f a).issues, (f a).result⟩
  | .error stop => ⟨v.issues, .error stop⟩

instance : Monad Verdict where
  pure a := ⟨[], .ok a⟩
  bind := andThen

/-- Raises an issue, and goes on. -/
def note (issue : Issue) : Verdict Unit := ⟨[issue], .ok ()⟩

/-- Raises an issue, and comes to an end with it. -/
def reject (issue : Issue) : Verdict α := ⟨[issue], .error .rejected⟩

def fault (f : Fault) : Verdict α := ⟨[], .error (.fault f)⟩

/-- A computation that raises no issue. -/
def ofExcept : Except Fault α → Verdict α
  | .ok a => pure a
  | .error f => fault f

@[simp] theorem ofExcept_ok (a : α) : ofExcept (.ok a) = pure a := rfl

@[simp] theorem ofExcept_error (f : Fault) : (ofExcept (.error f) : Verdict α) = fault f := rfl

@[simp] theorem issues_pure (a : α) : (pure a : Verdict α).issues = [] := rfl

@[simp] theorem result_pure (a : α) : (pure a : Verdict α).result = .ok a := rfl

@[simp] theorem reject_bind (issue : Issue) (f : α → Verdict β) :
    (reject issue : Verdict α) >>= f = reject issue := rfl

@[simp] theorem fault_bind (fault : Fault) (f : α → Verdict β) :
    (Verdict.fault fault : Verdict α) >>= f = Verdict.fault fault := rfl

theorem bind_of_ok {v : Verdict α} {a : α} (h : v.result = .ok a) (f : α → Verdict β) :
    v >>= f = ⟨v.issues ++ (f a).issues, (f a).result⟩ := by
  change andThen v f = _
  simp [andThen, h]

theorem bind_of_error {v : Verdict α} {stop : Stop} (h : v.result = .error stop)
    (f : α → Verdict β) : v >>= f = ⟨v.issues, .error stop⟩ := by
  change andThen v f = _
  simp [andThen, h]

instance : LawfulMonad Verdict := LawfulMonad.mk' Verdict
  (fun {α} v => by
    change andThen v (fun a => (⟨[], .ok a⟩ : Verdict α)) = v
    obtain ⟨issues, result⟩ := v
    cases result <;> simp [andThen])
  (fun _ _ => rfl)
  (fun u v w => by
    change andThen (andThen u v) w = andThen u fun a => andThen (v a) w
    obtain ⟨issues, result⟩ := u
    cases result with
    | error stop => rfl
    | ok a => cases h : (v a).result <;> simp [andThen, h])

end Verdict
end Scenario
