import Mathlib.Tactic.Ring
import Mathlib.Tactic.ByContra
import AptosCore.Lib.Word

/-!
# In-order numbering of a perfect binary tree

The nodes of a perfect binary tree with leaves on level 0 are numbered by an
in-order traversal: the node with `index` among the nodes of `level` gets
`2 ^ (level + 1) * index + 2 ^ level - 1`. In binary, that is `index`
followed by a zero and `level` ones, so the level and the index of a node are
read off its number bit by bit. These lemmas are the bit profile of a number
and the arithmetic between a node, its parent and its leaves.
-/

namespace AptosCore

/-- In-order number of the node with `index` on `level` (leaves on level 0). -/
def inorderIndex (level index : Nat) : Nat := 2 ^ (level + 1) * index + (2 ^ level - 1)

/-- The index of a node's sibling among the nodes of its level. -/
def siblingIndex (k : Nat) : Nat := if k % 2 = 0 then k + 1 else k - 1

theorem siblingIndex_div_two (k : Nat) : siblingIndex k / 2 = k / 2 := by
  unfold siblingIndex
  split <;> omega

@[simp] theorem inorderIndex_zero (k : Nat) : inorderIndex 0 k = 2 * k := by
  simp [inorderIndex]

private theorem two_pow_sub_one_lt (l : Nat) : 2 ^ l - 1 < 2 ^ (l + 1) := by
  have := Nat.two_pow_pos l
  rw [Nat.pow_succ]
  omega

/-- The bits of a node number: `level` ones, a zero, then the bits of `index`. -/
theorem testBit_inorderIndex (l k i : Nat) :
    (inorderIndex l k).testBit i = if i ≤ l then decide (i < l) else k.testBit (i - (l + 1)) := by
  rw [inorderIndex, Nat.testBit_two_pow_mul_add k (two_pow_sub_one_lt l)]
  by_cases hi : i ≤ l
  · simp [show i < l + 1 by omega, hi]
  · simp [show ¬ i < l + 1 by omega, hi]

theorem testBit_inorderIndex_of_lt {l k i : Nat} (h : i < l) : (inorderIndex l k).testBit i = true := by
  simp [testBit_inorderIndex, h, Nat.le_of_lt h]

@[simp] theorem testBit_inorderIndex_self (l k : Nat) : (inorderIndex l k).testBit l = false := by
  simp [testBit_inorderIndex]

theorem testBit_inorderIndex_of_gt {l k i : Nat} (h : l < i) :
    (inorderIndex l k).testBit i = k.testBit (i - (l + 1)) := by
  simp [testBit_inorderIndex, show ¬ i ≤ l by omega]

/-- The successor of a node number has the bits of `index` above a single one at `level`. -/
theorem testBit_inorderIndex_add_one (l k i : Nat) :
    (inorderIndex l k + 1).testBit i = if i ≤ l then decide (i = l) else k.testBit (i - (l + 1)) := by
  have he : inorderIndex l k + 1 = 2 ^ (l + 1) * k + 2 ^ l := by
    have := Nat.two_pow_pos l
    unfold inorderIndex
    omega
  have hlt : 2 ^ l < 2 ^ (l + 1) := Nat.pow_lt_pow_right (by decide) (by omega)
  rw [he, Nat.testBit_two_pow_mul_add k hlt, Nat.testBit_two_pow]
  by_cases hi : i ≤ l
  · simp only [show i < l + 1 by omega, hi, ite_true]
    exact decide_eq_decide.mpr eq_comm
  · simp [show ¬ i < l + 1 by omega, hi]

/-- A number whose lowest zero bit is at `l` is the node of level `l` with the index above it. -/
theorem eq_inorderIndex_of_testBit {x l : Nat} (hlow : ∀ i, i < l → x.testBit i = true)
    (hl : x.testBit l = false) : x = inorderIndex l (x >>> (l + 1)) := by
  apply Nat.eq_of_testBit_eq
  intro i
  rw [testBit_inorderIndex, Nat.testBit_shiftRight]
  by_cases hi : i < l
  · simp [hlow i hi, show i ≤ l by omega, hi]
  · by_cases hil : i = l
    · subst hil
      simp [hl]
    · simp [show ¬ i ≤ l by omega, show l + 1 + (i - (l + 1)) = i by omega]

/-- The index of a node is its number without the low `level + 1` bits. -/
theorem inorderIndex_shiftRight (l k : Nat) : inorderIndex l k >>> (l + 1) = k := by
  rw [Nat.shiftRight_eq_div_pow, inorderIndex, Nat.mul_add_div (Nat.two_pow_pos _),
    Nat.div_eq_of_lt (two_pow_sub_one_lt l), Nat.add_zero]

/-- Level and index are determined by the node number. -/
theorem inorderIndex_inj {l k l' k' : Nat} (h : inorderIndex l k = inorderIndex l' k') :
    l = l' ∧ k = k' := by
  have hl : l = l' := by
    by_contra hne
    rcases Nat.lt_or_gt_of_ne hne with hlt | hlt
    · have := congrArg (fun x => x.testBit l) h
      simp [testBit_inorderIndex, hlt, Nat.le_of_lt hlt] at this
    · have := congrArg (fun x => x.testBit l') h
      simp [testBit_inorderIndex, hlt, Nat.le_of_lt hlt] at this
  subst hl
  refine ⟨rfl, ?_⟩
  have hpos := Nat.two_pow_pos (l + 1)
  unfold inorderIndex at h
  exact Nat.eq_of_mul_eq_mul_left hpos (by omega)

/-- Leaves `(k + 1) * 2 ^ l ≤ 2 ^ m` of a node, counted in nodes of its own level. -/
theorem fits_iff {l k m : Nat} (hl : l ≤ m) : (k + 1) * 2 ^ l ≤ 2 ^ m ↔ k + 1 ≤ 2 ^ (m - l) := by
  have hsplit : 2 ^ m = 2 ^ (m - l) * 2 ^ l := by rw [← Nat.pow_add]; congr 1; omega
  rw [hsplit]
  exact Nat.mul_le_mul_right_iff (Nat.two_pow_pos l)

/-- A node that starts within the first `2 ^ m` leaves, on a level up to `m`, ends within them. -/
theorem succ_mul_le_of_mul_lt {x j m : Nat} (hj : j ≤ m) (h : x * 2 ^ j < 2 ^ m) :
    (x + 1) * 2 ^ j ≤ 2 ^ m := by
  have hsplit : 2 ^ m = 2 ^ (m - j) * 2 ^ j := by rw [← Nat.pow_add]; congr 1; omega
  rw [hsplit] at h ⊢
  have := Nat.lt_of_mul_lt_mul_right h
  exact Nat.mul_le_mul_right _ this

/-- A node whose leaves lie within the first `2 ^ m` has a level of at most `m`. -/
theorem level_le_of_fits {l k m : Nat} (h : (k + 1) * 2 ^ l ≤ 2 ^ m) : l ≤ m := by
  have h1 : 2 ^ l ≤ (k + 1) * 2 ^ l := Nat.le_mul_of_pos_left _ (by omega)
  exact (Nat.pow_le_pow_iff_right (by decide)).mp (h1.trans h)

/-- The parent of a node whose leaves lie within the first `2 ^ m` (below level `m`)
has its leaves there too. -/
theorem parent_fits {l k m : Nat} (h : (k + 1) * 2 ^ l ≤ 2 ^ m) (hl : l < m) :
    (k / 2 + 1) * 2 ^ (l + 1) ≤ 2 ^ m := by
  rw [fits_iff (by omega)] at h ⊢
  have he : 2 ^ (m - l) = 2 * 2 ^ (m - (l + 1)) := by
    rw [← Nat.pow_succ']; congr 1; omega
  omega

/-- The sibling of a node whose leaves lie within the first `2 ^ m` (below level `m`)
has its leaves there too. -/
theorem sibling_fits {l k m : Nat} (h : (k + 1) * 2 ^ l ≤ 2 ^ m) (hl : l < m) :
    (siblingIndex k + 1) * 2 ^ l ≤ 2 ^ m := by
  rw [fits_iff (by omega)] at h ⊢
  have he : 2 ^ (m - l) = 2 * 2 ^ (m - (l + 1)) := by
    rw [← Nat.pow_succ']; congr 1; omega
  unfold siblingIndex
  split <;> omega

/-- A node whose leaves end within the first `2 ^ m` has a number below `2 ^ (m + 1) - 2 ^ l`. -/
theorem inorderIndex_add_two_pow_lt {l k m : Nat} (h : (k + 1) * 2 ^ l ≤ 2 ^ m) :
    inorderIndex l k + 2 ^ l < 2 ^ (m + 1) := by
  have hpos := Nat.two_pow_pos l
  have he : 2 ^ (l + 1) * k = 2 * (k * 2 ^ l) := by rw [Nat.pow_succ]; ring
  rw [inorderIndex, he, Nat.pow_succ]
  rw [Nat.add_mul, Nat.one_mul] at h
  omega

/-- A node's bits above position `m` vanish when its leaves end within the first `2 ^ m`. -/
theorem testBit_index_eq_false {l k m j : Nat} (h : (k + 1) * 2 ^ l ≤ 2 ^ m) (hj : m ≤ j + l) :
    k.testBit j = false := by
  apply Nat.testBit_lt_two_pow
  have hpos := Nat.two_pow_pos l
  have hk : k * 2 ^ l < 2 ^ m := by rw [Nat.add_mul, Nat.one_mul] at h; omega
  by_cases hlm : l ≤ m
  · have hsplit : 2 ^ m = 2 ^ (m - l) * 2 ^ l := by rw [← Nat.pow_add]; congr 1; omega
    rw [hsplit] at hk
    calc k < 2 ^ (m - l) := Nat.lt_of_mul_lt_mul_right hk
      _ ≤ 2 ^ j := Nat.pow_le_pow_right (by decide) (by omega)
  · have hle : 2 ^ m ≤ 2 ^ l := Nat.pow_le_pow_right (by decide) (by omega)
    have hk0 : k = 0 := by
      by_contra hne
      have : 2 ^ l ≤ k * 2 ^ l := Nat.le_mul_of_pos_left _ (by omega)
      omega
    rw [hk0]
    exact Nat.two_pow_pos j

end AptosCore
