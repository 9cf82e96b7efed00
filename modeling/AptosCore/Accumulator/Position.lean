import AptosCore.Lib.InorderTree

/-!
# Positions of accumulator nodes

`types/src/proof/position/mod.rs`. A `Position` is the in-order number of a
node of the accumulator's binary tree, kept in a `u64`, and every navigation
(level, parent, children, sibling, the root over a number of leaves) is a bit
trick on that number. The definitions follow the source operation by
operation on `64`-bit words; the theorems after them say what each trick
computes on the node with a given level and index, for every node whose
leaves lie within `MAX_ACCUMULATOR_LEAVES`.
-/

namespace AptosCore

open Word

/-- `MAX_ACCUMULATOR_PROOF_DEPTH`. -/
def maxAccumulatorProofDepth : Nat := 63

/-- `MAX_ACCUMULATOR_LEAVES`, `1 << MAX_ACCUMULATOR_PROOF_DEPTH`. -/
def maxAccumulatorLeaves : Nat := 2 ^ maxAccumulatorProofDepth

theorem maxAccumulatorLeaves_eq : maxAccumulatorLeaves = 2 ^ 63 := rfl

/-- `struct Position(u64)`, the in-order index of a node. -/
@[ext] structure Position where
  /-- The `u64` in-order index. -/
  val : Nat
  deriving DecidableEq, Repr

/-- `NodeDirection`. -/
inductive NodeDirection where
  | left
  | right
  deriving DecidableEq, Repr

/-- `isolate_rightmost_zero_bit`: `!v & v.overflowing_add(1).0`. -/
def isolateRightmostZeroBit (v : Nat) : Nat := complement 64 v &&& wrappingAdd 64 v 1

/-- `smear_ones_for_u64`: every bit below the most significant one is set. -/
def smearOnesForU64 (v : Nat) : Nat :=
  let n := v ||| v >>> 1
  let n := n ||| n >>> 2
  let n := n ||| n >>> 4
  let n := n ||| n >>> 8
  let n := n ||| n >>> 16
  n ||| n >>> 32

/-- `turn_off_right_most_n_bits`: `(v >> n) << n`. -/
def turnOffRightMostNBits (v n : Nat) : Nat := shiftLeft 64 (v >>> n) n

namespace Position

/-- `Position::level`: the trailing zeros of `!self.0`. -/
def level (p : Position) : Nat := trailingZeros 64 (complement 64 p.val)

/-- `Position::is_leaf`. -/
def isLeaf (p : Position) : Bool := p.val &&& 1 == 0

/-- `Position::from_level_and_pos`. -/
def fromLevelAndPos (level pos : Nat) : Position :=
  let levelOneBits := shiftLeft 64 1 level - 1
  let shiftedPos := if level = 63 then 0 else shiftLeft 64 pos (level + 1)
  ⟨shiftedPos ||| levelOneBits⟩

/-- `Position::from_inorder_index`. -/
def fromInorderIndex (index : Nat) : Position := ⟨index⟩

/-- `Position::to_inorder_index`. -/
def toInorderIndex (p : Position) : Nat := p.val

/-- `Position::parent`. -/
def parent (p : Position) : Position :=
  ⟨(p.val ||| isolateRightmostZeroBit p.val) &&&
    complement 64 (shiftLeft 64 (isolateRightmostZeroBit p.val) 1)⟩

/-- `Position::child`. -/
def child (p : Position) (dir : NodeDirection) : Position :=
  let directionBit := match dir with
    | .left => 0
    | .right => isolateRightmostZeroBit p.val
  ⟨(p.val ||| directionBit) &&& complement 64 (isolateRightmostZeroBit p.val >>> 1)⟩

/-- `Position::left_child`. -/
def leftChild (p : Position) : Position := p.child .left

/-- `Position::right_child`. -/
def rightChild (p : Position) : Position := p.child .right

/-- `Position::is_left_child`. -/
def isLeftChild (p : Position) : Bool :=
  p.val &&& shiftLeft 64 (isolateRightmostZeroBit p.val) 1 == 0

/-- `Position::is_right_child`. -/
def isRightChild (p : Position) : Bool := !p.isLeftChild

/-- `Position::from_leaf_index`. -/
def fromLeafIndex (leafIndex : Nat) : Position := fromLevelAndPos 0 leafIndex

/-- `Position::sibling`. -/
def sibling (p : Position) : Position :=
  ⟨p.val ^^^ shiftLeft 64 (isolateRightmostZeroBit p.val) 1⟩

/-- `Position::root_from_leaf_index`. -/
def rootFromLeafIndex (leafIndex : Nat) : Position :=
  ⟨smearOnesForU64 (fromLeafIndex leafIndex).val >>> 1⟩

/-- `Position::root_from_leaf_count`; `none` where its `assert!(leaf_count > 0)` panics. -/
def rootFromLeafCount (leafCount : Nat) : Option Position :=
  if 0 < leafCount then some (rootFromLeafIndex (leafCount - 1)) else none

/-- `Position::root_level_from_leaf_count`; `none` where its `assert!` panics. -/
def rootLevelFromLeafCount (leafCount : Nat) : Option Nat :=
  if 0 < leafCount then
    some (maxAccumulatorProofDepth + 1 - leadingZeros 64 (leafCount - 1))
  else none

/-- `Position::right_most_child`. -/
def rightMostChild (p : Position) : Position := ⟨p.val + shiftLeft 64 1 p.level - 1⟩

/-- `Position::left_most_child`. -/
def leftMostChild (p : Position) : Position := ⟨turnOffRightMostNBits p.val p.level⟩

/-- `Position::is_freezable`: the subtree at `p` has no placeholder leaf once
`leafIndex` is the rightmost leaf. -/
def isFreezable (p : Position) (leafIndex : Nat) : Bool :=
  p.rightMostChild.val ≤ (fromLeafIndex leafIndex).val

/-- `Position::is_placeholder`: the subtree at `p` has no leaf at all once
`leafIndex` is the rightmost leaf. -/
def isPlaceholder (p : Position) (leafIndex : Nat) : Bool :=
  let leaf := fromLeafIndex leafIndex
  if p.val ≤ leaf.val then false
  else if p.leftMostChild.val ≤ leaf.val then false
  else true

/-- `p.iter_ancestor_sibling().take(n)`: the siblings of `p` and of its first
`n - 1` ancestors, bottom up. -/
def iterAncestorSibling (p : Position) : Nat → List Position
  | 0 => []
  | n + 1 => p.sibling :: iterAncestorSibling p.parent n

@[simp] theorem rightMostChild_val (p : Position) :
    p.rightMostChild.val = p.val + shiftLeft 64 1 p.level - 1 := rfl

@[simp] theorem leftMostChild_val (p : Position) :
    p.leftMostChild.val = turnOffRightMostNBits p.val p.level := rfl

@[simp] theorem rootFromLeafIndex_val (i : Nat) :
    (rootFromLeafIndex i).val = smearOnesForU64 (fromLeafIndex i).val >>> 1 := rfl

@[simp] theorem iterAncestorSibling_zero (p : Position) : p.iterAncestorSibling 0 = [] := rfl

@[simp] theorem iterAncestorSibling_succ (p : Position) (n : Nat) :
    p.iterAncestorSibling (n + 1) = p.sibling :: p.parent.iterAncestorSibling n := rfl

/-! ## What the bit tricks compute

Every lemma below is about the node with index `k` on level `l` whose leaves
lie within `MAX_ACCUMULATOR_LEAVES`, `(k + 1) * 2 ^ l ≤ 2 ^ 63`: its number
`inorderIndex l k` then fits a `u64` with room to spare, and no shift or
increment of the source wraps. -/

section Coordinates

variable {l k : Nat}

private theorem fits_lt (hb : (k + 1) * 2 ^ l ≤ 2 ^ 63) :
    0 < 2 ^ l ∧ inorderIndex l k + 2 ^ l < 2 ^ 64 :=
  ⟨Nat.two_pow_pos l, inorderIndex_add_two_pow_lt hb⟩

/-- `from_level_and_pos` builds the in-order number of the node. -/
theorem fromLevelAndPos_val (hb : (k + 1) * 2 ^ l ≤ 2 ^ 63) :
    (fromLevelAndPos l k).val = inorderIndex l k := by
  have hl := level_le_of_fits hb
  obtain ⟨hpos, hx⟩ := fits_lt hb
  simp only [fromLevelAndPos, shiftLeft_one_eq_two_pow (show l < 64 by omega)]
  by_cases h63 : l = 63
  · subst h63
    have hk : k = 0 := by
      rw [fits_iff (by omega)] at hb
      simpa using hb
    simp [hk, inorderIndex]
  · have hshift : k * 2 ^ (l + 1) < 2 ^ 64 := by
      rw [Nat.mul_comm]
      unfold inorderIndex at hx
      omega
    rw [if_neg h63, shiftLeft_of_lt (by omega) hshift, Nat.mul_comm, inorderIndex,
      Nat.two_pow_add_eq_or_of_lt (by have := Nat.two_pow_pos l; rw [Nat.pow_succ]; omega)]

/-- Two nodes within `MAX_ACCUMULATOR_LEAVES` are the same position only if
they have the same level and index. -/
theorem fromLevelAndPos_inj {l' k' : Nat} (hb : (k + 1) * 2 ^ l ≤ 2 ^ 63)
    (hb' : (k' + 1) * 2 ^ l' ≤ 2 ^ 63) (h : fromLevelAndPos l k = fromLevelAndPos l' k') :
    l = l' ∧ k = k' := by
  have hval := congrArg Position.val h
  rw [fromLevelAndPos_val hb, fromLevelAndPos_val hb'] at hval
  exact inorderIndex_inj hval

/-- The lowest zero bit of a node number marks its level. -/
theorem isolateRightmostZeroBit_inorderIndex (hb : (k + 1) * 2 ^ l ≤ 2 ^ 63) :
    isolateRightmostZeroBit (inorderIndex l k) = 2 ^ l := by
  have hl := level_le_of_fits hb
  obtain ⟨hpos, hx⟩ := fits_lt hb
  rw [isolateRightmostZeroBit, wrappingAdd_of_lt (by omega)]
  apply Nat.eq_of_testBit_eq
  intro i
  rw [Nat.testBit_and, testBit_complement (by omega), testBit_inorderIndex,
    testBit_inorderIndex_add_one, Nat.testBit_two_pow]
  by_cases hi : i ≤ l
  · by_cases hil : i = l
    · subst hil
      simp
      omega
    · simp [hi, hil, show i < l by omega, Ne.symm hil]
  · simp [hi, show l ≠ i by omega]

theorem level_fromLevelAndPos (hb : (k + 1) * 2 ^ l ≤ 2 ^ 63) :
    (fromLevelAndPos l k).level = l := by
  have hl := level_le_of_fits hb
  obtain ⟨hpos, hx⟩ := fits_lt hb
  rw [level, fromLevelAndPos_val hb]
  apply trailingZeros_eq (by omega)
  · intro i hi
    rw [testBit_complement (by omega), testBit_inorderIndex_of_lt hi]
    simp
  · rw [testBit_complement (by omega), testBit_inorderIndex_self]
    simp
    omega

theorem parent_fromLevelAndPos (hb : (k + 1) * 2 ^ l ≤ 2 ^ 63) (hl : l < 63) :
    (fromLevelAndPos l k).parent = fromLevelAndPos (l + 1) (k / 2) := by
  have hb' := parent_fits hb hl
  obtain ⟨hpos, hx⟩ := fits_lt hb
  have hshift := shiftLeft_two_pow_one (show l + 1 < 64 by omega)
  ext
  rw [parent, fromLevelAndPos_val hb, fromLevelAndPos_val hb',
    isolateRightmostZeroBit_inorderIndex hb, hshift]
  apply Nat.eq_of_testBit_eq
  intro i
  rw [Nat.testBit_and, Nat.testBit_or, testBit_complement (Nat.pow_lt_pow_right (by decide) (by omega)),
    testBit_inorderIndex, testBit_inorderIndex, Nat.testBit_two_pow, Nat.testBit_two_pow,
    Nat.testBit_div_two]
  by_cases hi : i ≤ l + 1
  · by_cases hil : i = l + 1
    · subst hil
      simp
    · have hle : i ≤ l := by omega
      by_cases hil' : i = l
      · subst hil'
        simp
        omega
      · simp [hi, hle, show i < 64 by omega, show l + 1 ≠ i by omega, show i < l + 1 by omega,
          show i < l by omega]
  · have hhigh : 64 ≤ i → k.testBit (i - (l + 1)) = false := fun h =>
      testBit_index_eq_false hb (by omega)
    by_cases h64 : i < 64
    · simp [hi, h64, show l + 1 ≠ i by omega, show ¬ i ≤ l by omega, show l ≠ i by omega,
        show i - (l + 1 + 1) + 1 = i - (l + 1) by omega]
    · simp [hi, h64, show ¬ i ≤ l by omega, show l ≠ i by omega, hhigh (by omega),
        show i - (l + 1 + 1) + 1 = i - (l + 1) by omega]

/-- Two numbers with the same half agree on every bit but the lowest. -/
private theorem testBit_eq_of_div_two_eq {a b j : Nat} (h : a / 2 = b / 2) (hj : 0 < j) :
    a.testBit j = b.testBit j := by
  obtain ⟨j, rfl⟩ : ∃ i, j = i + 1 := ⟨j - 1, by omega⟩
  rw [Nat.testBit_add_one, Nat.testBit_add_one, h]

theorem isLeftChild_fromLevelAndPos (hb : (k + 1) * 2 ^ l ≤ 2 ^ 63) :
    (fromLevelAndPos l k).isLeftChild = decide (k % 2 = 0) := by
  have hl := level_le_of_fits hb
  rw [isLeftChild, fromLevelAndPos_val hb, isolateRightmostZeroBit_inorderIndex hb]
  by_cases h63 : l = 63
  · subst h63
    have hk : k = 0 := by
      rw [fits_iff (by omega)] at hb
      simpa using hb
    rw [show shiftLeft 64 (2 ^ 63) 1 = 0 by decide]
    simp [hk]
  · rw [shiftLeft_two_pow_one (show l + 1 < 64 by omega), Nat.and_comm, Nat.two_pow_and, testBit_inorderIndex_of_gt (by omega),
      Nat.sub_self, Nat.testBit_zero]
    rcases Nat.mod_two_eq_zero_or_one k with h | h <;> simp [h]

theorem isRightChild_fromLevelAndPos (hb : (k + 1) * 2 ^ l ≤ 2 ^ 63) :
    (fromLevelAndPos l k).isRightChild = decide (k % 2 = 1) := by
  rw [isRightChild, isLeftChild_fromLevelAndPos hb]
  rcases Nat.mod_two_eq_zero_or_one k with h | h <;> simp [h]

theorem sibling_fromLevelAndPos (hb : (k + 1) * 2 ^ l ≤ 2 ^ 63) (hl : l < 63) :
    (fromLevelAndPos l k).sibling =
      fromLevelAndPos l (siblingIndex k) := by
  have hb' := sibling_fits hb hl
  obtain ⟨hpos, hx⟩ := fits_lt hb
  have hshift := shiftLeft_two_pow_one (show l + 1 < 64 by omega)
  ext
  rw [sibling, fromLevelAndPos_val hb, fromLevelAndPos_val hb',
    isolateRightmostZeroBit_inorderIndex hb, hshift]
  apply Nat.eq_of_testBit_eq
  intro i
  rw [Nat.testBit_xor, Nat.testBit_two_pow, testBit_inorderIndex, testBit_inorderIndex]
  by_cases hi : i ≤ l
  · simp [hi, show l + 1 ≠ i by omega]
  · by_cases hil : i = l + 1
    · subst hil
      rcases Nat.mod_two_eq_zero_or_one k with h | h
      · simp [h, siblingIndex, Nat.testBit_zero, Nat.add_mod]
      · simp [h, siblingIndex, Nat.testBit_zero]
        omega
    · have hsame := testBit_eq_of_div_two_eq (a := siblingIndex k) (b := k)
        (siblingIndex_div_two k) (show 0 < i - (l + 1) by omega)
      simp [hi, show l + 1 ≠ i by omega, hsame]

theorem leftChild_fromLevelAndPos (hb : (k + 1) * 2 ^ (l + 1) ≤ 2 ^ 63) :
    (fromLevelAndPos (l + 1) k).leftChild = fromLevelAndPos l (2 * k) := by
  have hb' : (2 * k + 1) * 2 ^ l ≤ 2 ^ 63 :=
    calc (2 * k + 1) * 2 ^ l ≤ (2 * k + 2) * 2 ^ l := Nat.mul_le_mul_right _ (by omega)
      _ = (k + 1) * 2 ^ (l + 1) := by rw [Nat.pow_succ]; ring
      _ ≤ 2 ^ 63 := hb
  have hl := level_le_of_fits hb
  obtain ⟨hpos, hx⟩ := fits_lt hb
  ext
  rw [leftChild, child, fromLevelAndPos_val hb, fromLevelAndPos_val hb',
    isolateRightmostZeroBit_inorderIndex hb]
  simp only [Nat.or_zero]
  rw [show 2 ^ (l + 1) >>> 1 = 2 ^ l by rw [Nat.shiftRight_eq_div_pow, Nat.pow_succ]; simp]
  apply Nat.eq_of_testBit_eq
  intro i
  rw [Nat.testBit_and, testBit_complement (Nat.pow_lt_pow_right (by decide) (by omega)),
    Nat.testBit_two_pow, testBit_inorderIndex, testBit_inorderIndex]
  by_cases hi : i ≤ l
  · by_cases hil : i = l
    · subst hil
      simp
    · simp [hi, show i ≤ l + 1 by omega, show i < l by omega, show i < l + 1 by omega,
        show l ≠ i by omega, show i < 64 by omega]
  · by_cases hil : i = l + 1
    · subst hil
      simp [Nat.testBit_zero]
    · have hhigh : 64 ≤ i → k.testBit (i - (l + 1 + 1)) = false := fun h =>
        testBit_index_eq_false hb (by omega)
      have htwo : (2 * k).testBit (i - (l + 1)) = k.testBit (i - (l + 1 + 1)) := by
        rw [show i - (l + 1) = i - (l + 1 + 1) + 1 by omega, Nat.testBit_add_one]
        simp
      by_cases h64 : i < 64
      · simp [hi, show ¬ i ≤ l + 1 by omega, show l ≠ i by omega, h64, htwo]
      · simp [hi, show ¬ i ≤ l + 1 by omega, show l ≠ i by omega, h64, htwo, hhigh (by omega)]

theorem rightChild_fromLevelAndPos (hb : (k + 1) * 2 ^ (l + 1) ≤ 2 ^ 63) :
    (fromLevelAndPos (l + 1) k).rightChild = fromLevelAndPos l (2 * k + 1) := by
  have hb' : (2 * k + 1 + 1) * 2 ^ l ≤ 2 ^ 63 :=
    calc (2 * k + 1 + 1) * 2 ^ l = (k + 1) * 2 ^ (l + 1) := by rw [Nat.pow_succ]; ring
      _ ≤ 2 ^ 63 := hb
  have hl := level_le_of_fits hb
  obtain ⟨hpos, hx⟩ := fits_lt hb
  ext
  rw [rightChild, child, fromLevelAndPos_val hb, fromLevelAndPos_val hb',
    isolateRightmostZeroBit_inorderIndex hb]
  simp only
  rw [show 2 ^ (l + 1) >>> 1 = 2 ^ l by rw [Nat.shiftRight_eq_div_pow, Nat.pow_succ]; simp]
  apply Nat.eq_of_testBit_eq
  intro i
  rw [Nat.testBit_and, Nat.testBit_or, testBit_complement (Nat.pow_lt_pow_right (by decide) (by omega)),
    Nat.testBit_two_pow, Nat.testBit_two_pow, testBit_inorderIndex, testBit_inorderIndex]
  by_cases hi : i ≤ l
  · by_cases hil : i = l
    · subst hil
      simp
    · simp [hi, show i ≤ l + 1 by omega, show i < l by omega, show i < l + 1 by omega,
        show l ≠ i by omega, show l + 1 ≠ i by omega, show i < 64 by omega]
  · by_cases hil : i = l + 1
    · subst hil
      simp [Nat.testBit_zero]
      omega
    · have hhigh : 64 ≤ i → k.testBit (i - (l + 1 + 1)) = false := fun h =>
        testBit_index_eq_false hb (by omega)
      have htwo : (2 * k + 1).testBit (i - (l + 1)) = k.testBit (i - (l + 1 + 1)) := by
        rw [show i - (l + 1) = i - (l + 1 + 1) + 1 by omega, Nat.testBit_add_one]
        congr 1
        omega
      by_cases h64 : i < 64
      · simp [hi, show ¬ i ≤ l + 1 by omega, show l ≠ i by omega, show l + 1 ≠ i by omega,
          h64, htwo]
      · simp [hi, show ¬ i ≤ l + 1 by omega, show l ≠ i by omega, show l + 1 ≠ i by omega,
          h64, htwo, hhigh (by omega)]

theorem fromLeafIndex_val {i : Nat} (hi : i < 2 ^ 63) : (fromLeafIndex i).val = 2 * i := by
  rw [fromLeafIndex, fromLevelAndPos_val (by rw [Nat.pow_zero, Nat.mul_one]; omega),
    inorderIndex_zero]

theorem rightMostChild_fromLevelAndPos (hb : (k + 1) * 2 ^ l ≤ 2 ^ 63) :
    (fromLevelAndPos l k).rightMostChild = fromLevelAndPos 0 ((k + 1) * 2 ^ l - 1) := by
  obtain ⟨hpos, -⟩ := fits_lt hb
  have hl := level_le_of_fits hb
  have hsplit : (k + 1) * 2 ^ l = k * 2 ^ l + 2 ^ l := by ring
  have hb' : ((k + 1) * 2 ^ l - 1 + 1) * 2 ^ 0 ≤ 2 ^ 63 := by rw [Nat.pow_zero]; omega
  have hdouble : 2 ^ (l + 1) * k = 2 * (k * 2 ^ l) := by rw [Nat.pow_succ]; ring
  ext
  rw [rightMostChild_val, level_fromLevelAndPos hb, fromLevelAndPos_val hb,
    fromLevelAndPos_val hb', shiftLeft_one_eq_two_pow (by omega), inorderIndex_zero, inorderIndex, hdouble]
  omega

theorem leftMostChild_fromLevelAndPos (hb : (k + 1) * 2 ^ l ≤ 2 ^ 63) :
    (fromLevelAndPos l k).leftMostChild = fromLevelAndPos 0 (k * 2 ^ l) := by
  obtain ⟨hpos, hx⟩ := fits_lt hb
  have hl := level_le_of_fits hb
  have hsplit : (k + 1) * 2 ^ l = k * 2 ^ l + 2 ^ l := by ring
  have hb' : (k * 2 ^ l + 1) * 2 ^ 0 ≤ 2 ^ 63 := by rw [Nat.pow_zero]; omega
  have hform : inorderIndex l k = 2 ^ l * (2 * k) + (2 ^ l - 1) := by
    rw [inorderIndex, Nat.pow_succ]; ring
  have hhalf : inorderIndex l k >>> l = 2 * k := by
    rw [Nat.shiftRight_eq_div_pow, hform, Nat.mul_add_div hpos,
      Nat.div_eq_of_lt (by omega), Nat.add_zero]
  have hfit : 2 * k * 2 ^ l < 2 ^ 64 := by rw [Nat.mul_comm]; omega
  ext
  rw [leftMostChild_val, level_fromLevelAndPos hb, fromLevelAndPos_val hb,
    fromLevelAndPos_val hb', turnOffRightMostNBits, hhalf, shiftLeft_of_lt (by omega) hfit,
    inorderIndex_zero]
  ring

/-- `is_freezable`: all leaves of the node are at or left of the rightmost leaf. -/
theorem isFreezable_fromLevelAndPos (hb : (k + 1) * 2 ^ l ≤ 2 ^ 63) {i : Nat} (hi : i < 2 ^ 63) :
    (fromLevelAndPos l k).isFreezable i = decide ((k + 1) * 2 ^ l ≤ i + 1) := by
  have hpos := Nat.two_pow_pos l
  have hone : 1 ≤ (k + 1) * 2 ^ l := Nat.mul_pos (by omega) hpos
  rw [isFreezable, rightMostChild_fromLevelAndPos hb, fromLeafIndex_val hi,
    fromLevelAndPos_val (l := 0) (by rw [Nat.pow_zero]; omega), inorderIndex_zero]
  apply decide_eq_decide.mpr
  omega

/-- `is_placeholder`: no leaf of the node is at or left of the rightmost leaf. -/
theorem isPlaceholder_fromLevelAndPos (hb : (k + 1) * 2 ^ l ≤ 2 ^ 63) {i : Nat} (hi : i < 2 ^ 63) :
    (fromLevelAndPos l k).isPlaceholder i = decide (i < k * 2 ^ l) := by
  have hsplit : (k + 1) * 2 ^ l = k * 2 ^ l + 2 ^ l := by ring
  have hpos := Nat.two_pow_pos l
  have hval : (fromLevelAndPos l k).val = 2 * (k * 2 ^ l) + (2 ^ l - 1) := by
    rw [fromLevelAndPos_val hb, inorderIndex, Nat.pow_succ]; ring
  rw [isPlaceholder, leftMostChild_fromLevelAndPos hb, fromLeafIndex_val hi, hval,
    fromLevelAndPos_val (l := 0) (by rw [Nat.pow_zero]; omega), inorderIndex_zero]
  by_cases h : i < k * 2 ^ l
  · simp only [show ¬ 2 * (k * 2 ^ l) + (2 ^ l - 1) ≤ 2 * i by omega,
      show ¬ 2 * (k * 2 ^ l) ≤ 2 * i by omega, h]
    rfl
  · simp only [show 2 * (k * 2 ^ l) ≤ 2 * i by omega, h]
    split <;> rfl

end Coordinates

/-! ## Roots and arbitrary positions -/

/-- `root_from_leaf_index`: the smallest perfect subtree holding leaf `i` is
the leftmost node on the level of `i`'s bit length. -/
theorem rootFromLeafIndex_eq {i : Nat} (hi : i < 2 ^ 63) :
    rootFromLeafIndex i = fromLevelAndPos i.size 0 := by
  have hsize : i.size ≤ 63 := Nat.size_le.mpr hi
  have hb : (0 + 1) * 2 ^ i.size ≤ 2 ^ 63 := by
    rw [Nat.zero_add, Nat.one_mul]; exact Nat.pow_le_pow_right (by decide) hsize
  ext
  rw [rootFromLeafIndex_val, fromLevelAndPos_val hb, fromLeafIndex_val hi, smearOnesForU64,
    smear_eq (by omega)]
  by_cases h0 : i = 0
  · subst h0
    simp [inorderIndex]
  · have hs : (2 * i).size = i.size + 1 := by
      rw [show 2 * i = i <<< 1 by rw [Nat.shiftLeft_eq]; ring, Nat.size_shiftLeft h0]
    have hpow := Nat.two_pow_pos i.size
    rw [hs, Nat.shiftRight_eq_div_pow, inorderIndex, Nat.pow_succ, Nat.pow_one]
    omega

theorem rootFromLeafCount_eq {n : Nat} (h0 : 0 < n) (hn : n ≤ 2 ^ 63) :
    rootFromLeafCount n = some (fromLevelAndPos (n - 1).size 0) := by
  rw [rootFromLeafCount, if_pos h0, rootFromLeafIndex_eq (by omega)]

theorem rootLevelFromLeafCount_eq {n : Nat} (h0 : 0 < n) (hn : n ≤ 2 ^ 63) :
    rootLevelFromLeafCount n = some (n - 1).size := by
  have := leadingZeros_add_size (w := 64) (x := n - 1) (by omega)
  rw [rootLevelFromLeafCount, if_pos h0, maxAccumulatorProofDepth]
  congr 1
  omega

/-- Every position below `u64::MAX` is the node of its level and index. -/
theorem exists_eq_fromLevelAndPos {p : Position} (hp : p.val < 2 ^ 64 - 1) :
    ∃ l k, (k + 1) * 2 ^ l ≤ 2 ^ 63 ∧ p = fromLevelAndPos l k := by
  have hc : complement 64 p.val < 2 ^ 64 := complement_lt 64 p.val
  have hc0 : complement 64 p.val ≠ 0 := by unfold complement; omega
  obtain ⟨hlt, hbit⟩ := testBit_trailingZeros hc hc0
  set l := trailingZeros 64 (complement 64 p.val) with hl
  have hlow : ∀ i, i < l → p.val.testBit i = true := by
    intro i hi
    have h := testBit_of_lt_trailingZeros hi
    rw [testBit_complement (by omega)] at h
    simpa [show i < 64 by omega] using h
  have hzero : p.val.testBit l = false := by
    rw [testBit_complement (by omega)] at hbit
    simp only [Bool.and_eq_true, decide_eq_true_eq, Bool.not_eq_true'] at hbit
    exact hbit.2
  have heq := eq_inorderIndex_of_testBit hlow hzero
  set k := p.val >>> (l + 1)
  have hb : (k + 1) * 2 ^ l ≤ 2 ^ 63 := by
    rw [fits_iff (by omega)]
    have hsplit : 2 ^ 64 = 2 ^ (64 - l) * 2 ^ l := by rw [← Nat.pow_add]; congr 1; omega
    have heven : 2 ^ (64 - l) = 2 * 2 ^ (63 - l) := by
      rw [← Nat.pow_succ']; congr 1; omega
    have hform : inorderIndex l k + 1 = (2 * k + 1) * 2 ^ l := by
      have := Nat.two_pow_pos l
      have h1 : 2 ^ (l + 1) * k = 2 * k * 2 ^ l := by rw [Nat.pow_succ]; ring
      have h2 : (2 * k + 1) * 2 ^ l = 2 * k * 2 ^ l + 2 ^ l := by ring
      rw [inorderIndex, h1, h2]
      omega
    have hlt' : (2 * k + 1) * 2 ^ l < 2 ^ (64 - l) * 2 ^ l := by rw [← hform, ← hsplit]; omega
    have := Nat.lt_of_mul_lt_mul_right hlt'
    omega
  exact ⟨l, k, hb, Position.ext (by rw [fromLevelAndPos_val hb]; exact heq)⟩

/-- `u64::MAX` has no zero bit: `level` counts all 64 bits. -/
theorem level_of_le {p : Position} (hge : 2 ^ 64 - 1 ≤ p.val) : p.level = 64 := by
  have hc : complement 64 p.val = 0 := by unfold complement; omega
  rw [level, hc]
  exact trailingZeros_of_testBit_false (fun _ _ => Nat.zero_testBit _)

/-- A position with a level is a node, below `u64::MAX`. -/
theorem val_lt_of_level_lt {p : Position} (hl : p.level < 64) : p.val < 2 ^ 64 - 1 := by
  by_contra hge
  have := level_of_le (p := p) (by omega)
  omega

/-- A freezable position is a node, below `u64::MAX`. -/
theorem val_lt_of_isFreezable {p : Position} {i : Nat} (hi : i < 2 ^ 63)
    (h : p.isFreezable i = true) : p.val < 2 ^ 64 - 1 := by
  by_contra hge
  have hlevel : p.level = 64 := level_of_le (by omega)
  have hone : shiftLeft 64 1 64 = 1 := by decide
  rw [isFreezable, rightMostChild, hlevel, hone, fromLeafIndex_val hi] at h
  simp at h
  omega

/-- Over `n` leaves the freezable positions are exactly the nodes whose leaves
are all among them. -/
theorem isFreezable_iff {p : Position} {n : Nat} (h0 : 0 < n) (hn : n ≤ 2 ^ 63) :
    p.isFreezable (n - 1) = true ↔ ∃ l k, p = fromLevelAndPos l k ∧ (k + 1) * 2 ^ l ≤ n := by
  constructor
  · intro hf
    obtain ⟨l, k, hb, rfl⟩ := exists_eq_fromLevelAndPos (val_lt_of_isFreezable (by omega) hf)
    rw [isFreezable_fromLevelAndPos hb (by omega)] at hf
    exact ⟨l, k, rfl, by simp at hf; omega⟩
  · rintro ⟨l, k, rfl, hle⟩
    rw [isFreezable_fromLevelAndPos (by omega) (by omega)]
    simp only [decide_eq_true_eq]
    omega

end Position

end AptosCore
