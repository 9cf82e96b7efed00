import Mathlib

/-!
# Unsigned 64-bit arithmetic

Values of type `u64` as natural numbers below `2 ^ 64`. The checked operations
(`checked_add`, `checked_sub`, `checked_mul`) return `none` where the result does
not fit; the plain operators, in a build with overflow checks, panic there with
the message the compiler inserts. A panic is an `Except String` error.
-/

namespace AptosCore.U64

/-- `u64::MAX + 1`. -/
def size : Nat := 2 ^ 64

/-- `u64::checked_add`. -/
def checkedAdd (a b : Nat) : Option Nat := if a + b < size then some (a + b) else none

/-- `u64::checked_sub`. -/
def checkedSub (a b : Nat) : Option Nat := if b ≤ a then some (a - b) else none

/-- `u64::checked_mul`. -/
def checkedMul (a b : Nat) : Option Nat := if a * b < size then some (a * b) else none

/-- `a + b` with overflow checks. -/
def add (a b : Nat) : Except String Nat :=
  match checkedAdd a b with
  | some c => .ok c
  | none => .error "attempt to add with overflow"

/-- `a - b` with overflow checks. -/
def sub (a b : Nat) : Except String Nat :=
  match checkedSub a b with
  | some c => .ok c
  | none => .error "attempt to subtract with overflow"

/-- `a * b` with overflow checks. -/
def mul (a b : Nat) : Except String Nat :=
  match checkedMul a b with
  | some c => .ok c
  | none => .error "attempt to multiply with overflow"

theorem checkedAdd_of_lt {a b : Nat} (h : a + b < size) : checkedAdd a b = some (a + b) := if_pos h

theorem checkedAdd_of_le {a b : Nat} (h : size ≤ a + b) : checkedAdd a b = none :=
  if_neg (Nat.not_lt.mpr h)

theorem checkedSub_of_le {a b : Nat} (h : b ≤ a) : checkedSub a b = some (a - b) := if_pos h

theorem checkedSub_of_lt {a b : Nat} (h : a < b) : checkedSub a b = none := if_neg (Nat.not_le.mpr h)

theorem checkedMul_of_lt {a b : Nat} (h : a * b < size) : checkedMul a b = some (a * b) := if_pos h

theorem checkedMul_of_le {a b : Nat} (h : size ≤ a * b) : checkedMul a b = none :=
  if_neg (Nat.not_lt.mpr h)

theorem add_of_lt {a b : Nat} (h : a + b < size) : add a b = .ok (a + b) := by
  rw [add, checkedAdd_of_lt h]

theorem add_of_le {a b : Nat} (h : size ≤ a + b) : add a b = .error "attempt to add with overflow" := by
  rw [add, checkedAdd_of_le h]

theorem sub_of_le {a b : Nat} (h : b ≤ a) : sub a b = .ok (a - b) := by
  rw [sub, checkedSub_of_le h]

theorem sub_of_lt {a b : Nat} (h : a < b) : sub a b = .error "attempt to subtract with overflow" := by
  rw [sub, checkedSub_of_lt h]

theorem mul_of_lt {a b : Nat} (h : a * b < size) : mul a b = .ok (a * b) := by
  rw [mul, checkedMul_of_lt h]

theorem mul_of_le {a b : Nat} (h : size ≤ a * b) : mul a b = .error "attempt to multiply with overflow" := by
  rw [mul, checkedMul_of_le h]

/-- An overflow-checked operation fails only with its own panic. -/
theorem add_eq_ok_or (a b : Nat) :
    add a b = .ok (a + b) ∨ add a b = .error "attempt to add with overflow" := by
  by_cases h : a + b < size
  · exact Or.inl (add_of_lt h)
  · exact Or.inr (add_of_le (Nat.not_lt.mp h))

end AptosCore.U64
