import Mathlib
import WireSchema.Message.Failure

/-!
# Running actions

An action is applied to a state and gives a result and a state.  The lemmas below run each of the
operations that actions are put together from; all are equations, so that an action can be run by
rewriting.
-/

namespace WireSchema.Message

/-- A place does not change the cause. -/
@[simp] theorem Failure.cause_within (place : String) (f : Failure) :
    (f.within place).cause = f.cause := by
  unfold Failure.within
  split <;> rfl

namespace Action

variable {σ α β : Type}

@[simp] theorem run_pure (a : α) (s : σ) : (pure a : Action σ α) s = (.ok a, s) := rfl

@[simp] theorem run_throw (e : Failure) (s : σ) :
    (throw e : Action σ α) s = (.error e, s) := rfl

@[simp] theorem run_get (s : σ) : (get : Action σ σ) s = (.ok s, s) := rfl

@[simp] theorem run_set (t s : σ) : (set t : Action σ PUnit) s = (.ok ⟨⟩, t) := rfl

@[simp] theorem run_modify (f : σ → σ) (s : σ) :
    (modify f : Action σ PUnit) s = (.ok ⟨⟩, f s) := rfl

@[simp] theorem run_lift (x : Except Failure α) (s : σ) :
    (liftM x : Action σ α) s = (x, s) := by
  cases x with
  | ok a => rfl
  | error e => rfl

theorem run_bind (x : Action σ α) (f : α → Action σ β) (s : σ) :
    (x >>= f) s = match x s with
      | (.ok a, t) => f a t
      | (.error e, t) => (.error e, t) := by
  rcases h : x s with ⟨e | a, t⟩
  · simp only [Bind.bind, ExceptT.bind, ExceptT.mk, StateT.bind, ExceptT.bindCont, h]
    rfl
  · simp only [Bind.bind, ExceptT.bind, ExceptT.mk, StateT.bind, ExceptT.bindCont, h]

theorem run_bind_ok {x : Action σ α} {f : α → Action σ β} {s t : σ} {a : α}
    (h : x s = (.ok a, t)) : (x >>= f) s = f a t := by
  rw [run_bind, h]

theorem run_bind_error {x : Action σ α} {f : α → Action σ β} {s t : σ} {e : Failure}
    (h : x s = (.error e, t)) : (x >>= f) s = (.error e, t) := by
  rw [run_bind, h]

/-- An action that succeeded did so in both of its halves. -/
theorem bind_eq_ok {x : Action σ α} {f : α → Action σ β} {s u : σ} {b : β} :
    (x >>= f) s = (.ok b, u) ↔ ∃ a t, x s = (.ok a, t) ∧ f a t = (.ok b, u) := by
  constructor
  · intro hrun
    rw [run_bind] at hrun
    rcases h : x s with ⟨e | a, t⟩
    · rw [h] at hrun
      cases hrun
    · rw [h] at hrun
      exact ⟨a, t, rfl, hrun⟩
  · rintro ⟨a, t, hx, hf⟩
    rw [run_bind_ok hx, hf]

@[simp] theorem within_eq_ok {place : String} {x : Action σ α} {s t : σ} {a : α} :
    within place x s = (.ok a, t) ↔ x s = (.ok a, t) := by
  unfold within
  rcases h : x s with ⟨e | a', t'⟩
  · constructor
    · intro hrun
      cases hrun
    · intro hrun
      cases hrun
  · rfl

theorem within_eq_error {place : String} {x : Action σ α} {s t : σ} {e : Failure}
    (h : x s = (.error e, t)) : within place x s = (.error (e.within place), t) := by
  simp [within, h]

end Action

end WireSchema.Message
