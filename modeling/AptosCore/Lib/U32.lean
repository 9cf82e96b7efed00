import Mathlib

/-!
# Unsigned 32-bit arithmetic

Values of type `u32` as natural numbers below `2 ^ 32`. In a build with overflow
checks the operators panic where the result does not fit, with the message the
compiler inserts; a panic is an `Except String` error. `sum` is `Iterator::sum`,
which adds with the same checks.
-/

namespace AptosCore.U32

/-- `u32::MAX + 1`. -/
def size : Nat := 2 ^ 32

/-- `a + b` with overflow checks. -/
def add (a b : Nat) : Except String Nat :=
  if a + b < size then .ok (a + b) else .error "attempt to add with overflow"

/-- `a * b` with overflow checks. -/
def mul (a b : Nat) : Except String Nat :=
  if a * b < size then .ok (a * b) else .error "attempt to multiply with overflow"

/-- `Iterator::sum` of `u32` values. -/
def sum (xs : List Nat) : Except String Nat := xs.foldlM add 0

theorem add_of_lt {a b : Nat} (h : a + b < size) : add a b = .ok (a + b) := if_pos h

theorem mul_of_le {a b : Nat} (h : size ≤ a * b) : mul a b = .error "attempt to multiply with overflow" :=
  if_neg (Nat.not_lt.mpr h)

end AptosCore.U32
