import Mathlib

/-!
# Outcomes of state-passing runs

A run of an `EStateM ε σ α` program from a state returns a value or fails, and in
both cases leaves a state. `Outcome Q E` says what holds of a run: `Q` of the
value and state of a successful one, `E` of the error and state of a failed
one. `outcome_of_wp` reads a weakest precondition, as `mvcgen` proves it, as an
outcome of the run.
-/

namespace AptosCore

open Std.Do

variable {ε σ α : Type}

/-- `Q` holds of the value and state a successful run leaves, `E` of the error and
state a failed run leaves. -/
def Outcome (Q : α → σ → Prop) (E : ε → σ → Prop) : EStateM.Result ε σ α → Prop
  | .ok a s => Q a s
  | .error e s => E e s

/-- The state a run leaves, whether it returned or failed. -/
def finalState : EStateM.Result ε σ α → σ
  | .ok _ s => s
  | .error _ s => s

/-- The weakest precondition of a program at a state, for a postcondition that is
a pure proposition, is an outcome of its run from that state. -/
theorem outcome_of_wp {x : EStateM ε σ α} {s : σ} {Q : α → σ → Prop} {E : ε → σ → Prop}
    (h : ⊢ₛ wp⟦x⟧ (fun a s' => ⌜Q a s'⌝, fun e s' => ⌜E e s'⌝, PUnit.unit) s) : Outcome Q E (x s) :=
  EStateM.of_wp_run_eq rfl (Outcome Q E) h

theorem Outcome.imp {Q Q' : α → σ → Prop} {E E' : ε → σ → Prop} {r : EStateM.Result ε σ α}
    (h : Outcome Q E r) (hQ : ∀ a s, Q a s → Q' a s) (hE : ∀ e s, E e s → E' e s) : Outcome Q' E' r := by
  cases r with
  | ok a s => exact hQ a s h
  | error e s => exact hE e s h

theorem Outcome.of_error {Q : α → σ → Prop} {E : ε → σ → Prop} {r : EStateM.Result ε σ α} {e : ε} {s : σ}
    (h : Outcome Q E r) (hr : r = .error e s) : E e s := by
  subst hr
  exact h

theorem Outcome.of_ok {Q : α → σ → Prop} {E : ε → σ → Prop} {r : EStateM.Result ε σ α} {a : α} {s : σ}
    (h : Outcome Q E r) (hr : r = .ok a s) : Q a s := by
  subst hr
  exact h

/-- Mapping the value of a run maps what its outcome says of it. -/
theorem Outcome.map {β : Type} {f : α → β} {x : EStateM ε σ α} {s : σ} {Q : β → σ → Prop}
    {E : ε → σ → Prop} (h : Outcome (fun a s' => Q (f a) s') E (x s)) : Outcome Q E ((f <$> x) s) := by
  show Outcome Q E (EStateM.map f x s)
  unfold EStateM.map
  cases hx : x s with
  | ok a s' =>
    rw [hx] at h
    exact h
  | error e s' =>
    rw [hx] at h
    exact h

theorem map_eq_error {β : Type} {f : α → β} {x : EStateM ε σ α} {s s' : σ} {e : ε}
    (h : (f <$> x) s = .error e s') : x s = .error e s' := by
  change EStateM.map f x s = .error e s' at h
  unfold EStateM.map at h
  cases hx : x s with
  | ok a s'' =>
    rw [hx] at h
    cases h
  | error e' s'' =>
    rw [hx] at h
    cases h
    rfl

theorem map_eq_ok {β : Type} {f : α → β} {x : EStateM ε σ α} {s s' : σ} {b : β}
    (h : (f <$> x) s = .ok b s') : ∃ a, x s = .ok a s' ∧ f a = b := by
  change EStateM.map f x s = .ok b s' at h
  unfold EStateM.map at h
  cases hx : x s with
  | ok a s'' =>
    rw [hx] at h
    cases h
    exact ⟨a, rfl, rfl⟩
  | error e s'' =>
    rw [hx] at h
    cases h

@[simp] theorem finalState_map {β : Type} (f : α → β) (x : EStateM ε σ α) (s : σ) :
    finalState ((f <$> x) s) = finalState (x s) := by
  change finalState (EStateM.map f x s) = finalState (x s)
  unfold EStateM.map
  cases x s <;> rfl

@[simp] theorem finalState_bind_pure {β : Type} (x : EStateM ε σ α) (b : β) (s : σ) :
    finalState ((x >>= fun _ => pure b) s) = finalState (x s) := by
  change finalState (EStateM.bind x (fun _ => pure b) s) = finalState (x s)
  unfold EStateM.bind
  cases x s <;> rfl

/-- A run of `x >>= f` whose first part returns goes on with `f`. -/
theorem bind_of_ok {β : Type} {x : EStateM ε σ α} {f : α → EStateM ε σ β} {s s₁ : σ} {a : α}
    (h : x s = .ok a s₁) : (x >>= f) s = f a s₁ := by
  change EStateM.bind x f s = f a s₁
  simp only [EStateM.bind, h]

/-- A run of `x >>= f` whose first part fails fails with it. -/
theorem bind_of_error {β : Type} {x : EStateM ε σ α} {f : α → EStateM ε σ β} {s s₁ : σ} {e : ε}
    (h : x s = .error e s₁) : (x >>= f) s = .error e s₁ := by
  change EStateM.bind x f s = .error e s₁
  simp only [EStateM.bind, h]

/-- A run of `x >>= f` that returns went through a return of `x`. -/
theorem bind_eq_ok {β : Type} {x : EStateM ε σ α} {f : α → EStateM ε σ β} {s s' : σ} {b : β}
    (h : (x >>= f) s = .ok b s') : ∃ a s₁, x s = .ok a s₁ ∧ f a s₁ = .ok b s' := by
  cases hx : x s with
  | ok a s₁ =>
    rw [bind_of_ok hx] at h
    exact ⟨a, s₁, rfl, h⟩
  | error e s₁ =>
    rw [bind_of_error hx] at h
    cases h

/-- Sequencing: if every return of `x` satisfies `P` and `f` has outcome `Q` from each
value and state that satisfies `P`, then `x >>= f` has outcome `Q`. The failures
of both parts have to satisfy the same `E`. -/
theorem Outcome.bind {β : Type} {x : EStateM ε σ α} {f : α → EStateM ε σ β} {s : σ} {P : α → σ → Prop}
    {Q : β → σ → Prop} {E : ε → σ → Prop} (hx : Outcome P E (x s))
    (hf : ∀ a s₁, P a s₁ → Outcome Q E (f a s₁)) : Outcome Q E ((x >>= f) s) := by
  cases h : x s with
  | ok a s₁ =>
    rw [h] at hx
    rw [bind_of_ok h]
    exact hf a s₁ hx
  | error e s₁ =>
    rw [h] at hx
    rw [bind_of_error h]
    exact hx

/-- An outcome that holds of every final state, whether the run returned or failed. -/
theorem Outcome.finalState {R : σ → Prop} {r : EStateM.Result ε σ α}
    (h : Outcome (fun _ s => R s) (fun _ s => R s) r) : R (finalState r) := by
  cases r with
  | ok a s => exact h
  | error e s => exact h

end AptosCore
