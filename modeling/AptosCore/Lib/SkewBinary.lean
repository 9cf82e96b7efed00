import Mathlib.Tactic.Ring
import AptosCore.Lib.Word

/-!
# Sums of perfect-tree sizes

A perfect binary tree whose leaves lie `i` levels below its root has
`2 ^ (i + 1) - 1` nodes. Let each set bit `i` of a word stand for one such
tree: `skewSum b w` counts the nodes of the trees of the bits of `b` below `w`,
which is twice the word less its number of set bits (`skewSum_add_countOnes`).
The sum of the trees below a bit never reaches the size of the tree of the bit
itself less what its position needs (`skewSum_add_le`), which is what lets a
decoder read the bits back greedily from the largest tree down.

The `count_ones` lemmas here split a word into a block of high bits and a
block of low ones.
-/

namespace AptosCore.Word

/-- The number of nodes in the perfect trees that the set bits of `b` below `w` stand for. -/
def skewSum (b : Nat) : Nat → Nat
  | 0 => 0
  | i + 1 => skewSum b i + if b.testBit i then 2 ^ (i + 1) - 1 else 0

@[simp] theorem skewSum_zero (b : Nat) : skewSum b 0 = 0 := rfl

/-! ## Counting ones in blocks -/

@[simp] theorem countOnes_zero_right : ∀ w, countOnes w 0 = 0
  | 0 => rfl
  | w + 1 => by simp [countOnes, countOnes_zero_right w]

/-- `count_ones` of a wider word adds the bit at the old width. -/
theorem countOnes_succ (w b : Nat) : countOnes (w + 1) b = countOnes w b + (b.testBit w).toNat := by
  rw [countOnes_eq_length_filter, countOnes_eq_length_filter, List.range_succ, List.filter_append,
    List.length_append]
  cases h : b.testBit w <;> simp [h]

theorem countOnes_succ_of_lt {w b : Nat} (hb : b < 2 ^ w) : countOnes (w + 1) b = countOnes w b := by
  rw [countOnes_succ, Nat.testBit_lt_two_pow hb, Bool.toNat_false, Nat.add_zero]

theorem countOnes_le : ∀ (w b : Nat), countOnes w b ≤ b
  | 0, _ => Nat.zero_le _
  | w + 1, b => by
    have := countOnes_le w (b / 2)
    rw [countOnes]
    omega

/-- The ones of a word made of a high block `m` over `s` low bits `r`. -/
theorem countOnes_two_pow_mul_add (w : Nat) : ∀ {s m r : Nat}, r < 2 ^ s →
    countOnes (w + s) (2 ^ s * m + r) = countOnes w m + countOnes s r
  | 0, m, r, hr => by
    rw [Nat.pow_zero] at hr
    simp [show r = 0 by omega, countOnes]
  | s + 1, m, r, hr => by
    have hdouble : 2 ^ (s + 1) * m = 2 * (2 ^ s * m) := by rw [Nat.pow_succ]; ring
    have hdiv : (2 ^ (s + 1) * m + r) / 2 = 2 ^ s * m + r / 2 := by rw [hdouble]; omega
    have hmod : (2 ^ (s + 1) * m + r) % 2 = r % 2 := by rw [hdouble]; omega
    have hr' : r / 2 < 2 ^ s := by rw [Nat.pow_succ] at hr; omega
    rw [show w + (s + 1) = w + s + 1 by omega, countOnes, countOnes, hdiv, hmod,
      countOnes_two_pow_mul_add w hr']
    omega

@[simp] theorem countOnes_two_pow_sub_one : ∀ s, countOnes s (2 ^ s - 1) = s
  | 0 => rfl
  | s + 1 => by
    have hpos := Nat.two_pow_pos s
    have hdiv : (2 ^ (s + 1) - 1) / 2 = 2 ^ s - 1 := by rw [Nat.pow_succ]; omega
    have hmod : (2 ^ (s + 1) - 1) % 2 = 1 := by rw [Nat.pow_succ]; omega
    rw [countOnes, hdiv, hmod, countOnes_two_pow_sub_one s]
    omega

/-! ## The sum of the trees -/

/-- Each set bit adds twice its value less one. -/
theorem skewSum_add_countOnes (b : Nat) : ∀ w, skewSum b w + countOnes w b = 2 * (b % 2 ^ w)
  | 0 => by simp [countOnes, Nat.mod_one]
  | w + 1 => by
    have ih := skewSum_add_countOnes b w
    have hpos := Nat.two_pow_pos w
    have hmod : b % 2 ^ (w + 1) = b % 2 ^ w + 2 ^ w * (b.testBit w).toNat := by
      rw [Nat.mod_pow_succ, Nat.toNat_testBit]
    rw [skewSum, countOnes_succ, hmod, Nat.pow_succ]
    cases b.testBit w <;> simp <;> omega

/-- The trees below bit `j` hold fewer than `2 ^ (j + 1) - 1 - j` nodes. -/
theorem skewSum_add_le (b : Nat) : ∀ j, skewSum b j + j + 2 ≤ 2 ^ (j + 1)
  | 0 => by simp
  | j + 1 => by
    have ih := skewSum_add_le b j
    have hpow : 2 ^ (j + 1 + 1) = 2 * 2 ^ (j + 1) := by rw [Nat.pow_succ, Nat.mul_comm]
    rw [skewSum, hpow]
    split <;> omega

end AptosCore.Word
