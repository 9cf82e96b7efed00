import Mathlib.Order.Basic
import Mathlib.Data.List.Basic

/-!
# Checks in `Except`

A validation written in `Except` is a sequence of guards (`unless c do throw e`),
checks whose error is renamed (`mapError`) and checks run on each element of a
list (`forM`), or a fold that checks each element as it accumulates (`foldlM`).
The simp lemmas here read a passing validation as the conjunction of what its
guards test; the loop lemmas give a loop's result when every check passes. A
running maximum folded over a list ends at a bound of its values that one of
them reaches.
-/

namespace AptosCore.ExceptCheck

variable {ε β γ : Type}

/-- A sequence returns when its first part returns and the rest returns from there. -/
@[simp] theorem bind_eq_ok {x : Except ε β} {f : β → Except ε γ} {c : γ} :
    (x >>= f) = .ok c ↔ ∃ b, x = .ok b ∧ f b = .ok c := by
  cases x <;> simp [bind, Except.bind]

/-- A sequence fails where its first part fails, or where the rest fails. -/
theorem bind_eq_error {x : Except ε β} {f : β → Except ε γ} {e : ε} :
    (x >>= f) = .error e ↔ x = .error e ∨ ∃ b, x = .ok b ∧ f b = .error e := by
  cases x <;> simp [bind, Except.bind]

theorem ok_bind {b : β} {f : β → Except ε γ} : (.ok b >>= f : Except ε γ) = f b := rfl

theorem error_bind {e : ε} {f : β → Except ε γ} : (.error e >>= f : Except ε γ) = .error e := rfl

/-- A thrown error ends a sequence. -/
@[simp] theorem throw_bind {e : ε} {f : β → Except ε γ} : (throw e >>= f : Except ε γ) = throw e := rfl

/-- A guard passes exactly when its condition holds. -/
@[simp] theorem ite_throw_eq_ok {p : Prop} [Decidable p] {x : Except ε β} {e : ε} {b : β} :
    (if p then x else throw e) = .ok b ↔ p ∧ x = .ok b := by
  by_cases hp : p <;> simp [hp, throw, throwThe, MonadExceptOf.throw]

/-- A guard that throws when its condition holds passes exactly when it fails. -/
@[simp] theorem ite_throw_else_eq_ok {p : Prop} [Decidable p] {x : Except ε β} {e : ε} {b : β} :
    (if p then throw e else x) = .ok b ↔ ¬p ∧ x = .ok b := by
  by_cases hp : p <;> simp [hp, throw, throwThe, MonadExceptOf.throw]

/-- A step mapped over a result returns when the result does. -/
theorem map_eq_ok {f : β → γ} {x : Except ε β} {c : γ} :
    x.map f = .ok c ↔ ∃ b, x = .ok b ∧ f b = c := by
  cases x <;> simp [Except.map]

/-- A step mapped over a result fails when the result does. -/
theorem map_eq_error {f : β → γ} {x : Except ε β} {e : ε} : x.map f = .error e ↔ x = .error e := by
  cases x <;> simp [Except.map]

/-- Renaming the error changes no success. -/
@[simp] theorem mapError_eq_ok {ε' : Type} {x : Except ε β} {f : ε → ε'} {b : β} :
    x.mapError f = .ok b ↔ x = .ok b := by
  cases x <;> simp [Except.mapError]

@[simp] theorem pure_eq_ok {b c : β} : (pure b : Except ε β) = .ok c ↔ b = c := by
  simp [pure, Except.pure]

@[simp] theorem exists_unit_eq_ok {x : Except ε Unit} : (∃ u, x = .ok u) ↔ x = .ok () :=
  ⟨fun ⟨(), h⟩ => h, fun h => ⟨(), h⟩⟩

/-- A check that passes on every element passes as a loop. -/
theorem forM_eq_ok {f : β → Except ε Unit} :
    ∀ {l : List β}, (∀ x ∈ l, f x = .ok ()) → l.forM f = .ok ()
  | [], _ => rfl
  | x :: l, h => by
    rw [show (x :: l).forM f = (f x >>= fun _ => l.forM f) from rfl, h x List.mem_cons_self]
    exact forM_eq_ok fun y hy => h y (List.mem_cons_of_mem x hy)

/-- A map whose every call returns keeps the length of the list. -/
theorem length_of_mapM_eq_ok {f : β → Except ε γ} :
    ∀ {l : List β} {l' : List γ}, l.mapM f = .ok l' → l'.length = l.length
  | [], l', h => by
    rw [List.mapM_nil, pure_eq_ok] at h
    subst h
    rfl
  | x :: l, l', h => by
    rw [List.mapM_cons] at h
    simp only [ExceptCheck.bind_eq_ok, pure_eq_ok] at h
    obtain ⟨y, -, ys, hys, rfl⟩ := h
    rw [List.length_cons, List.length_cons, length_of_mapM_eq_ok hys]

/-- A fold whose every step returns is the pure fold of what the steps return. -/
theorem foldlM_eq_ok {f : γ → β → Except ε γ} {g : γ → β → γ} :
    ∀ {l : List β} (acc : γ), (∀ x ∈ l, ∀ c, f c x = .ok (g c x)) → l.foldlM f acc = .ok (l.foldl g acc)
  | [], _, _ => rfl
  | x :: l, acc, h => by
    rw [List.foldlM_cons, h x List.mem_cons_self acc]
    exact foldlM_eq_ok (g acc x) fun y hy => h y (List.mem_cons_of_mem x hy)

/-- A fold fails at one of its steps. -/
theorem foldlM_eq_error {f : γ → β → Except ε γ} {e : ε} :
    ∀ {l : List β} {acc : γ}, l.foldlM f acc = .error e → ∃ x ∈ l, ∃ c, f c x = .error e
  | [], _, h => by cases h
  | x :: l, acc, h => by
    rw [List.foldlM_cons] at h
    rcases bind_eq_error.mp h with h | ⟨c, -, h⟩
    · exact ⟨x, List.mem_cons_self, acc, h⟩
    · obtain ⟨y, hy, c', h⟩ := foldlM_eq_error h
      exact ⟨y, List.mem_cons_of_mem x hy, c', h⟩

/-- A running maximum started below a bound of the values ends at the bound when
the start or one of the values reaches it. -/
theorem foldl_max_eq (q : β → Nat) {M : Nat} :
    ∀ {l : List β} {acc : Nat}, acc ≤ M → (∀ x ∈ l, q x ≤ M) → (acc = M ∨ ∃ x ∈ l, q x = M) →
      l.foldl (fun m x => max m (q x)) acc = M
  | [], _, _, _, hreach => by
    rcases hreach with rfl | ⟨x, hx, -⟩
    · rfl
    · cases hx
  | x :: l, acc, hacc, hle, hreach => by
    have hx := hle x List.mem_cons_self
    rw [List.foldl_cons]
    refine foldl_max_eq q (Nat.max_le.mpr ⟨hacc, hx⟩) (fun y hy => hle y (List.mem_cons_of_mem x hy)) ?_
    -- the bound is reached by the start, by `x`, or by a later value
    rcases hreach with rfl | ⟨y, hy, hyM⟩
    · exact Or.inl (Nat.max_eq_left hx)
    · rcases List.mem_cons.mp hy with rfl | hy
      · exact Or.inl (by omega)
      · exact Or.inr ⟨y, hy, hyM⟩

end AptosCore.ExceptCheck
