import AptosCore.Accumulator.Position
import AptosCore.Lib.SkewBinary

/-!
# Post-order numbers and the laws of positions

`inorder_to_postorder` and `postorder_to_inorder` (types/src/proof/position/mod.rs)
convert between the in-order number of a node, which `Position` keeps, and its
number in a post-order traversal of the same tree. Before the node with index
`k` on level `l` a post-order traversal visits the `2 ^ (l + 1) - 2` nodes below
it and, for each set bit `j` of `k`, a perfect tree of `2 ^ (l + j + 1) - 1`
nodes on its left. With `B = 2 ^ l * k + (2 ^ l - 1)`, the bits of `k` over `l`
ones, that is `skewSum B 64 + l` (`inorderToPostorder_eq`); `postorder_to_inorder`
walks past the trees of the set bits of `B` greedily, the largest first, and is
left with `l` (`postorderToInorderLoop_skewSum`).

The second half states the navigation laws of `Position` for every position
below level 63, by way of its level and index.
-/

namespace AptosCore

open Word

namespace Position

/-- `children_of_node`: the nodes below `node`. -/
def childrenOfNode (node : Nat) : Nat := shiftLeft 64 (isolateRightmostZeroBit node) 1 - 2

/-- `nodes_to_left_of`: the nodes a post-order traversal visits before `node`
and outside its subtree. -/
def nodesToLeftOf (node : Nat) : Nat :=
  let onesUpToLevel := isolateRightmostZeroBit node - 1
  let unsetLevelZeros := node ^^^ onesUpToLevel
  unsetLevelZeros - countOnes 64 unsetLevelZeros

/-- `inorder_to_postorder`. -/
def inorderToPostorder (node : Nat) : Nat := childrenOfNode node + nodesToLeftOf node

/-- The `for i in (0..64).rev()` loop of `postorder_to_inorder` with `i` rounds
left: where the number reaches the size of a perfect tree of height `i`, the
traversal walked past such a tree, and bit `i - 1` of the bitmap is set. -/
def postorderToInorderLoop : Nat → Nat → Nat → Nat → Nat × Nat
  | 0, node, _, bitmap => (node, bitmap)
  | i + 1, node, fullBinarySize, bitmap =>
    if fullBinarySize ≤ node then
      postorderToInorderLoop i (node - fullBinarySize) (fullBinarySize >>> 1)
        (bitmap ||| shiftLeft 64 1 i)
    else postorderToInorderLoop i node (fullBinarySize >>> 1) bitmap

/-- `postorder_to_inorder`. `node as u32` keeps the low 32 bits, and the shift
amount is taken modulo 64, as release builds do. -/
def postorderToInorder (node : Nat) : Nat :=
  let (node, bitmap) := postorderToInorderLoop 64 node (complement 64 0) 0
  let level := node % 2 ^ 32
  let pos := bitmap >>> (level % 64)
  (fromLevelAndPos level pos).toInorderIndex

/-- `Position::to_postorder_index`. -/
def toPostorderIndex (p : Position) : Nat := inorderToPostorder p.toInorderIndex

/-- `Position::from_postorder_index`, with the message of its `ensure!`. -/
def fromPostorderIndex (index : Nat) : Except String Position :=
  if index < complement 64 0 then .ok ⟨postorderToInorder index⟩
  else .error ("node index " ++ toString index ++ " is invalid (equal to 2^64 - 1)")

/-! ## From in-order to post-order -/

section Coordinates

variable {l k : Nat}

theorem childrenOfNode_inorderIndex (hb : (k + 1) * 2 ^ l ≤ 2 ^ 63) (hl : l < 63) :
    childrenOfNode (inorderIndex l k) = 2 ^ (l + 1) - 2 := by
  rw [childrenOfNode, isolateRightmostZeroBit_inorderIndex hb,
    shiftLeft_two_pow_one (by omega)]

/-- Clearing the level's ones leaves the index, shifted past them and the zero. -/
theorem inorderIndex_xor (l k : Nat) : inorderIndex l k ^^^ (2 ^ l - 1) = 2 ^ (l + 1) * k := by
  apply Nat.eq_of_testBit_eq
  intro i
  rw [Nat.testBit_xor, testBit_inorderIndex, Nat.testBit_two_pow_sub_one,
    (Nat.add_zero (2 ^ (l + 1) * k)).symm,
    Nat.testBit_two_pow_mul_add k (Nat.two_pow_pos _)]
  by_cases hi : i ≤ l
  · simp [hi, show i < l + 1 by omega]
  · simp [hi, show ¬ i < l + 1 by omega, show ¬ i < l by omega]

theorem nodesToLeftOf_inorderIndex (hb : (k + 1) * 2 ^ l ≤ 2 ^ 63) :
    nodesToLeftOf (inorderIndex l k) = 2 ^ (l + 1) * k - countOnes (63 - l) k := by
  have hl := level_le_of_fits hb
  have hcount := countOnes_two_pow_mul_add (63 - l) (s := l + 1) (m := k) (Nat.two_pow_pos _)
  simp only [show 63 - l + (l + 1) = 64 by omega, countOnes_zero_right, Nat.add_zero] at hcount
  simp only [nodesToLeftOf, isolateRightmostZeroBit_inorderIndex hb, inorderIndex_xor, hcount]

/-- The post-order number of a node: the trees of the bits of its index over
`l` ones, and `l`. -/
theorem inorderToPostorder_eq (hb : (k + 1) * 2 ^ l ≤ 2 ^ 63) (hl : l < 63) :
    inorderToPostorder (inorderIndex l k) = skewSum (2 ^ l * k + (2 ^ l - 1)) 64 + l := by
  have hpos := Nat.two_pow_pos l
  have hk : k < 2 ^ (63 - l) := by rw [fits_iff (by omega)] at hb; omega
  have hB : 2 ^ l * k + (2 ^ l - 1) < 2 ^ 64 := by
    have := Nat.pow_le_pow_right (show 0 < 2 by decide) (show 63 ≤ 64 by omega)
    rw [Nat.mul_comm]
    rw [Nat.add_mul, Nat.one_mul] at hb
    omega
  -- the ones of `B` are those of `k` and the `l` below them
  have hcount : countOnes 64 (2 ^ l * k + (2 ^ l - 1)) = countOnes (63 - l) k + l := by
    have h := countOnes_two_pow_mul_add (64 - l) (s := l) (m := k) (Nat.sub_lt hpos Nat.one_pos)
    rw [show 64 - l + l = 64 by omega, countOnes_two_pow_sub_one,
      show 64 - l = 63 - l + 1 by omega, countOnes_succ_of_lt hk] at h
    exact h
  have hsum := skewSum_add_countOnes (2 ^ l * k + (2 ^ l - 1)) 64
  have hle := countOnes_le (63 - l) k
  have hk' : k ≤ 2 ^ l * k := Nat.le_mul_of_pos_left k hpos
  rw [Nat.mod_eq_of_lt hB, hcount] at hsum
  have hdouble : 2 ^ (l + 1) * k = 2 * (2 ^ l * k) := by rw [Nat.pow_succ]; ring
  have hpow : 2 ^ (l + 1) = 2 * 2 ^ l := by rw [Nat.pow_succ, Nat.mul_comm]
  rw [inorderToPostorder, childrenOfNode_inorderIndex hb hl, nodesToLeftOf_inorderIndex hb,
    hdouble, hpow]
  omega

/-- The right child of a node comes just before it in post-order. -/
theorem inorderToPostorder_rightChild (hb : (k + 1) * 2 ^ (l + 1) ≤ 2 ^ 63) (hl : l + 1 < 63) :
    inorderToPostorder (inorderIndex l (2 * k + 1)) + 1 =
      inorderToPostorder (inorderIndex (l + 1) k) := by
  have hb' : (2 * k + 1 + 1) * 2 ^ l ≤ 2 ^ 63 :=
    calc (2 * k + 1 + 1) * 2 ^ l = (k + 1) * 2 ^ (l + 1) := by rw [Nat.pow_succ]; ring
      _ ≤ 2 ^ 63 := hb
  have hpos := Nat.two_pow_pos l
  -- both have the bits of `k` over `l + 1` ones
  have hsame : 2 ^ l * (2 * k + 1) + (2 ^ l - 1) = 2 ^ (l + 1) * k + (2 ^ (l + 1) - 1) := by
    rw [Nat.pow_succ]
    have : 2 ^ l * (2 * k + 1) = 2 ^ l * 2 * k + 2 ^ l := by ring
    omega
  rw [inorderToPostorder_eq hb' (by omega), inorderToPostorder_eq hb hl, hsame]
  omega

/-- Post-order numbers of nodes stay below `u64::MAX`. -/
theorem inorderToPostorder_lt (hb : (k + 1) * 2 ^ l ≤ 2 ^ 63) (hl : l < 63) :
    inorderToPostorder (inorderIndex l k) < 2 ^ 64 - 1 := by
  have hpos := Nat.two_pow_pos l
  have hle := countOnes_le (63 - l) k
  have hk : k ≤ 2 ^ (l + 1) * k := Nat.le_mul_of_pos_left k (Nat.two_pow_pos _)
  have hfit : 2 ^ (l + 1) * k + 2 ^ (l + 1) ≤ 2 ^ 64 := by
    have h : 2 ^ (l + 1) * k + 2 ^ (l + 1) = 2 * ((k + 1) * 2 ^ l) := by rw [Nat.pow_succ]; ring
    rw [h, show (2 : Nat) ^ 64 = 2 * 2 ^ 63 from rfl]
    omega
  rw [inorderToPostorder, childrenOfNode_inorderIndex hb hl, nodesToLeftOf_inorderIndex hb]
  omega

end Coordinates

/-! ## From post-order back to in-order -/

/-- The low `i + 1` bits of a number: bit `i` over the low `i`. -/
theorem mod_two_pow_succ_eq (b i : Nat) :
    b % 2 ^ (i + 1) = (if b.testBit i then 2 ^ i else 0) ||| b % 2 ^ i := by
  rw [Nat.mod_pow_succ, ← Nat.toNat_testBit]
  cases b.testBit i
  · simp
  · have h := Nat.two_pow_add_eq_or_of_lt (Nat.mod_lt b (Nat.two_pow_pos i)) 1
    rw [Nat.mul_one] at h
    rw [Bool.toNat_true, Nat.mul_one, Nat.add_comm, if_pos rfl, h]

/-- The greedy loop decodes a sum of trees: started on the trees of the bits of
`b` below `i` and a rest `r` that stays below the tree of every clear bit above
what it walks past, it sets the bits of `b` and leaves `r`. -/
theorem postorderToInorderLoop_skewSum {b r : Nat} :
    ∀ {i : Nat}, i ≤ 64 → (∀ j, j < i → b.testBit j = false → skewSum b j + r < 2 ^ (j + 1) - 1) →
      ∀ acc, postorderToInorderLoop i (skewSum b i + r) (2 ^ i - 1) acc = (r, acc ||| b % 2 ^ i)
  | 0, _, _, acc => by simp [postorderToInorderLoop, Nat.mod_one]
  | i + 1, hi, hgood, acc => by
    have hpos := Nat.two_pow_pos i
    have hhalf : (2 ^ (i + 1) - 1) >>> 1 = 2 ^ i - 1 := by
      rw [Nat.shiftRight_one, Nat.pow_succ]
      omega
    have ih := @postorderToInorderLoop_skewSum b r i (by omega) (fun j hj => hgood j (by omega))
    cases hbit : b.testBit i with
    | true =>
      -- the tree of bit `i` is walked past
      have hsum : skewSum b (i + 1) + r = skewSum b i + r + (2 ^ (i + 1) - 1) := by
        rw [skewSum, if_pos hbit]
        omega
      rw [postorderToInorderLoop, if_pos (by omega), hsum, Nat.add_sub_cancel, hhalf,
        shiftLeft_one_eq_two_pow (by omega), ih, mod_two_pow_succ_eq, if_pos hbit, Nat.or_assoc]
    | false =>
      have hlt := hgood i (by omega) hbit
      have hsum : skewSum b (i + 1) + r = skewSum b i + r := by
        rw [skewSum, if_neg (by simp [hbit])]
        omega
      rw [postorderToInorderLoop, if_neg (by omega), hsum, hhalf, ih, mod_two_pow_succ_eq,
        if_neg (by simp [hbit]), Nat.zero_or]

/-- `postorder_to_inorder` inverts `inorder_to_postorder` on every node below level 63. -/
theorem postorderToInorder_inorderToPostorder {l k : Nat} (hb : (k + 1) * 2 ^ l ≤ 2 ^ 63)
    (hl : l < 63) : postorderToInorder (inorderToPostorder (inorderIndex l k)) = inorderIndex l k := by
  have hpos := Nat.two_pow_pos l
  have hB : 2 ^ l * k + (2 ^ l - 1) < 2 ^ 64 := by
    have := Nat.pow_le_pow_right (show 0 < 2 by decide) (show 63 ≤ 64 by omega)
    rw [Nat.mul_comm]
    rw [Nat.add_mul, Nat.one_mul] at hb
    omega
  have hlow : ∀ j, j < l → (2 ^ l * k + (2 ^ l - 1)).testBit j = true := by
    intro j hj
    rw [Nat.testBit_two_pow_mul_add k (Nat.sub_lt hpos Nat.one_pos), if_pos hj,
      Nat.testBit_two_pow_sub_one]
    simpa using hj
  -- a clear bit of `B` lies above the `l` ones, where the rest `l` is small enough
  have hgood : ∀ j, j < 64 → (2 ^ l * k + (2 ^ l - 1)).testBit j = false →
      skewSum (2 ^ l * k + (2 ^ l - 1)) j + l < 2 ^ (j + 1) - 1 := by
    intro j _ hbit
    have hlj : l ≤ j := by
      by_contra hjl
      rw [hlow j (by omega)] at hbit
      cases hbit
    have := skewSum_add_le (2 ^ l * k + (2 ^ l - 1)) j
    omega
  have hloop := postorderToInorderLoop_skewSum (le_refl 64) hgood 0
  have hpos' : (2 ^ l * k + (2 ^ l - 1)) >>> l = k := by
    rw [Nat.shiftRight_eq_div_pow, Nat.mul_add_div hpos, Nat.div_eq_of_lt (by omega), Nat.add_zero]
  rw [inorderToPostorder_eq hb hl, postorderToInorder, show complement 64 0 = 2 ^ 64 - 1 from rfl,
    hloop]
  simp only [Nat.zero_or, Nat.mod_eq_of_lt hB, Nat.mod_eq_of_lt (show l < 2 ^ 32 by
    have := Nat.pow_le_pow_right (show 0 < 2 by decide) (show 6 ≤ 32 by omega)
    have : l < 2 ^ 6 := by rw [show (2 : Nat) ^ 6 = 64 from rfl]; omega
    omega), Nat.mod_eq_of_lt (show l < 64 by omega), hpos', toInorderIndex, fromLevelAndPos_val hb]

/-! ## The laws of positions -/

section Coordinates

variable {l k : Nat}

/-- A node's children lie `2 ^ l` before and after it in in-order. -/
theorem inorderIndex_succ (l k : Nat) : inorderIndex (l + 1) k = inorderIndex l (2 * k) + 2 ^ l := by
  have hpos := Nat.two_pow_pos l
  have h : 2 ^ (l + 1 + 1) * k = 2 ^ (l + 1) * (2 * k) := by rw [Nat.pow_succ]; ring
  rw [inorderIndex, inorderIndex, h, Nat.pow_succ]
  omega

theorem inorderIndex_two_mul_add_one (l k : Nat) :
    inorderIndex l (2 * k + 1) = inorderIndex (l + 1) k + 2 ^ l := by
  have hpos := Nat.two_pow_pos l
  rw [inorderIndex_succ, inorderIndex, inorderIndex, Nat.mul_add, Nat.pow_succ]
  omega

theorem fits_two_mul_add_one (hb : (k + 1) * 2 ^ (l + 1) ≤ 2 ^ 63) :
    (2 * k + 1 + 1) * 2 ^ l ≤ 2 ^ 63 :=
  calc (2 * k + 1 + 1) * 2 ^ l = (k + 1) * 2 ^ (l + 1) := by rw [Nat.pow_succ]; ring
    _ ≤ 2 ^ 63 := hb

theorem fits_two_mul (hb : (k + 1) * 2 ^ (l + 1) ≤ 2 ^ 63) : (2 * k + 1) * 2 ^ l ≤ 2 ^ 63 :=
  le_trans (Nat.mul_le_mul_right _ (by omega)) (fits_two_mul_add_one hb)

theorem isLeaf_fromLevelAndPos (hb : (k + 1) * 2 ^ l ≤ 2 ^ 63) :
    (fromLevelAndPos l k).isLeaf = decide (l = 0) := by
  rw [isLeaf, fromLevelAndPos_val hb, Nat.and_one_is_mod]
  cases l with
  | zero => simp
  | succ l =>
    have hpos := Nat.two_pow_pos l
    have hodd : inorderIndex (l + 1) k % 2 = 1 := by
      have h : 2 ^ (l + 1 + 1) * k = 2 * (2 * 2 ^ l * k) := by rw [Nat.pow_succ, Nat.pow_succ]; ring
      rw [inorderIndex, h, Nat.pow_succ]
      omega
    simp [hodd]

/-- `l` parents up from a node is the node of level `l + j` above it. -/
theorem parent_iterate_fromLevelAndPos (hb : (k + 1) * 2 ^ l ≤ 2 ^ 63) :
    ∀ j, l + j ≤ 63 → (k / 2 ^ j + 1) * 2 ^ (l + j) ≤ 2 ^ 63 ∧
      parent^[j] (fromLevelAndPos l k) = fromLevelAndPos (l + j) (k / 2 ^ j)
  | 0, _ => by simpa using hb
  | j + 1, hj => by
    obtain ⟨hfit, heq⟩ := parent_iterate_fromLevelAndPos hb j (by omega)
    have hdiv : k / 2 ^ j / 2 = k / 2 ^ (j + 1) := by rw [Nat.div_div_eq_div_mul, Nat.pow_succ]
    have hfit' := parent_fits hfit (by omega)
    rw [hdiv, show l + j + 1 = l + (j + 1) by omega] at hfit'
    refine ⟨hfit', ?_⟩
    rw [Function.iterate_succ_apply', heq, parent_fromLevelAndPos hfit (by omega), hdiv,
      show l + j + 1 = l + (j + 1) by omega]

end Coordinates

section Laws

variable {x : Position}

/-- Every position below level 63 is the node of its level and index. -/
theorem exists_of_level_lt (hl : x.level < 63) :
    ∃ l k, l < 63 ∧ (k + 1) * 2 ^ l ≤ 2 ^ 63 ∧ x = fromLevelAndPos l k := by
  obtain ⟨l, k, hb, rfl⟩ := exists_eq_fromLevelAndPos (val_lt_of_level_lt (p := x) (by omega))
  rw [level_fromLevelAndPos hb] at hl
  exact ⟨l, k, hl, hb, rfl⟩

/-- A position below level 63 that is not a leaf is a node one level above its children. -/
theorem exists_of_isLeaf_eq_false (hl : x.level < 63) (hleaf : x.isLeaf = false) :
    ∃ l k, l + 1 < 63 ∧ (k + 1) * 2 ^ (l + 1) ≤ 2 ^ 63 ∧ x = fromLevelAndPos (l + 1) k := by
  obtain ⟨l, k, hl', hb, rfl⟩ := exists_of_level_lt hl
  rw [isLeaf_fromLevelAndPos hb] at hleaf
  obtain ⟨l, rfl⟩ : ∃ l', l = l' + 1 := ⟨l - 1, by simp at hleaf; omega⟩
  exact ⟨l, k, hl', hb, rfl⟩

theorem parent_leftChild (hl : x.level < 63) (hleaf : x.isLeaf = false) :
    x.leftChild.parent = x := by
  obtain ⟨l, k, hl', hb, rfl⟩ := exists_of_isLeaf_eq_false hl hleaf
  rw [leftChild_fromLevelAndPos hb, parent_fromLevelAndPos (fits_two_mul hb) (by omega),
    Nat.mul_div_cancel_left k (by decide)]

theorem parent_rightChild (hl : x.level < 63) (hleaf : x.isLeaf = false) :
    x.rightChild.parent = x := by
  obtain ⟨l, k, hl', hb, rfl⟩ := exists_of_isLeaf_eq_false hl hleaf
  rw [rightChild_fromLevelAndPos hb, parent_fromLevelAndPos (fits_two_mul_add_one hb) (by omega),
    show (2 * k + 1) / 2 = k by omega]

theorem sibling_leftChild (hl : x.level < 63) (hleaf : x.isLeaf = false) :
    x.leftChild.sibling = x.rightChild := by
  obtain ⟨l, k, hl', hb, rfl⟩ := exists_of_isLeaf_eq_false hl hleaf
  rw [leftChild_fromLevelAndPos hb, rightChild_fromLevelAndPos hb,
    sibling_fromLevelAndPos (fits_two_mul hb) (by omega)]
  simp [siblingIndex]

/-- In in-order a node lies between its two children. -/
theorem leftChild_lt_lt_rightChild (hl : x.level < 63) (hleaf : x.isLeaf = false) :
    x.leftChild.val < x.val ∧ x.val < x.rightChild.val := by
  obtain ⟨l, k, hl', hb, rfl⟩ := exists_of_isLeaf_eq_false hl hleaf
  have hpos := Nat.two_pow_pos l
  rw [leftChild_fromLevelAndPos hb, rightChild_fromLevelAndPos hb, fromLevelAndPos_val hb,
    fromLevelAndPos_val (fits_two_mul hb), fromLevelAndPos_val (fits_two_mul_add_one hb),
    inorderIndex_succ, inorderIndex_two_mul_add_one, inorderIndex_succ]
  omega

theorem sibling_sibling (hl : x.level < 63) : x.sibling.sibling = x := by
  obtain ⟨l, k, hl', hb, rfl⟩ := exists_of_level_lt hl
  rw [sibling_fromLevelAndPos hb hl', sibling_fromLevelAndPos (sibling_fits hb hl') hl']
  congr 1
  unfold siblingIndex
  split_ifs <;> omega

theorem level_parent (hl : x.level < 63) : x.parent.level = x.level + 1 := by
  obtain ⟨l, k, hl', hb, rfl⟩ := exists_of_level_lt hl
  rw [parent_fromLevelAndPos hb hl', level_fromLevelAndPos (parent_fits hb hl'),
    level_fromLevelAndPos hb]

/-- `is_left_child` holds exactly of the left child of the parent. -/
theorem isLeftChild_iff (hl : x.level < 63) : x.isLeftChild = true ↔ x.parent.leftChild = x := by
  obtain ⟨l, k, hl', hb, rfl⟩ := exists_of_level_lt hl
  have hb' : (2 * (k / 2) + 1) * 2 ^ l ≤ 2 ^ 63 :=
    le_trans (Nat.mul_le_mul_right _ (by omega)) hb
  rw [isLeftChild_fromLevelAndPos hb, parent_fromLevelAndPos hb hl',
    leftChild_fromLevelAndPos (parent_fits hb hl'), decide_eq_true_iff]
  constructor
  · intro h
    rw [show 2 * (k / 2) = k by omega]
  · intro h
    have := (fromLevelAndPos_inj hb' hb h).2
    omega

theorem fromLevelAndPos_level_shiftRight (hl : x.level < 63) :
    fromLevelAndPos x.level (x.val >>> (x.level + 1)) = x := by
  obtain ⟨l, k, -, hb, rfl⟩ := exists_of_level_lt hl
  rw [level_fromLevelAndPos hb, fromLevelAndPos_val hb, inorderIndex_shiftRight]

theorem level_leftMostChild (hl : x.level < 63) : x.leftMostChild.level = 0 := by
  obtain ⟨l, k, -, hb, rfl⟩ := exists_of_level_lt hl
  have hpos := Nat.two_pow_pos l
  rw [leftMostChild_fromLevelAndPos hb, level_fromLevelAndPos (by rw [Nat.pow_zero]; rw [Nat.add_mul] at hb; omega)]

theorem level_rightMostChild (hl : x.level < 63) : x.rightMostChild.level = 0 := by
  obtain ⟨l, k, -, hb, rfl⟩ := exists_of_level_lt hl
  have hpos : 0 < (k + 1) * 2 ^ l := Nat.mul_pos (by omega) (Nat.two_pow_pos l)
  rw [rightMostChild_fromLevelAndPos hb, level_fromLevelAndPos (by rw [Nat.pow_zero]; omega)]

/-- The leaves below a node, `level` parents down, are those from its leftmost
child to its rightmost one in in-order. -/
theorem parent_iterate_eq_iff (hl : x.level < 63) {y : Position} (hy : y.level = 0) :
    parent^[x.level] y = x ↔ x.leftMostChild.val ≤ y.val ∧ y.val ≤ x.rightMostChild.val := by
  obtain ⟨l, k, hl', hb, rfl⟩ := exists_of_level_lt hl
  obtain ⟨l', j, -, hbj, rfl⟩ := exists_of_level_lt (x := y) (by omega)
  rw [level_fromLevelAndPos hbj] at hy
  subst hy
  have hpos := Nat.two_pow_pos l
  have hsplit : (k + 1) * 2 ^ l = k * 2 ^ l + 2 ^ l := by ring
  obtain ⟨hfit, heq⟩ := parent_iterate_fromLevelAndPos hbj l (by omega)
  rw [Nat.zero_add] at hfit heq
  rw [level_fromLevelAndPos hb, heq, leftMostChild_fromLevelAndPos hb,
    rightMostChild_fromLevelAndPos hb, fromLevelAndPos_val hbj,
    fromLevelAndPos_val (l := 0) (by rw [Nat.pow_zero]; omega),
    fromLevelAndPos_val (l := 0) (by rw [Nat.pow_zero]; omega)]
  simp only [inorderIndex_zero]
  constructor
  · intro h
    have hj := (fromLevelAndPos_inj hfit hb h).2
    have := (Nat.div_eq_iff hpos).mp hj
    omega
  · intro h
    have hj : j / 2 ^ l = k := (Nat.div_eq_iff hpos).mpr (by omega)
    rw [hj]

theorem postorderToInorder_inorderToPostorder_val (hl : x.level < 63) :
    postorderToInorder (inorderToPostorder x.val) = x.val := by
  obtain ⟨l, k, hl', hb, rfl⟩ := exists_of_level_lt hl
  rw [fromLevelAndPos_val hb, postorderToInorder_inorderToPostorder hb hl']

theorem inorderToPostorder_rightChild_val (hl : x.level < 63) (hleaf : x.isLeaf = false) :
    inorderToPostorder x.rightChild.val + 1 = inorderToPostorder x.val := by
  obtain ⟨l, k, hl', hb, rfl⟩ := exists_of_isLeaf_eq_false hl hleaf
  rw [rightChild_fromLevelAndPos hb, fromLevelAndPos_val hb,
    fromLevelAndPos_val (fits_two_mul_add_one hb), inorderToPostorder_rightChild hb hl']

theorem fromPostorderIndex_toPostorderIndex (hl : x.level < 63) :
    fromPostorderIndex x.toPostorderIndex = .ok x := by
  obtain ⟨l, k, hl', hb, rfl⟩ := exists_of_level_lt hl
  have hlt := inorderToPostorder_lt hb hl'
  rw [toPostorderIndex, toInorderIndex, fromPostorderIndex, fromLevelAndPos_val hb,
    if_pos (by rw [show complement 64 0 = 2 ^ 64 - 1 from rfl]; exact hlt),
    postorderToInorder_inorderToPostorder hb hl', ← fromLevelAndPos_val hb]

end Laws

/-- The laws of navigation hold on every position below level 63: a node's
children have it as parent and each other as sibling and lie on either side of
it, the parent is one level up and has it as left child exactly when
`is_left_child` says so, the level and index rebuild it, the leftmost and
rightmost children bound the leaves below it, and the post-order numbering
round-trips, with a right child just before its parent. -/
theorem position_tree_laws (x : Position) (hl : x.level < 63) :
    (x.isLeaf = false →
      x.leftChild.parent = x ∧ x.rightChild.parent = x ∧ x.leftChild.sibling = x.rightChild ∧
        x.leftChild.val < x.val ∧ x.val < x.rightChild.val ∧
        inorderToPostorder x.rightChild.val + 1 = inorderToPostorder x.val) ∧
    x.sibling.sibling = x ∧
    x.parent.level = x.level + 1 ∧
    (x.isLeftChild = true ↔ x.parent.leftChild = x) ∧
    fromLevelAndPos x.level (x.val >>> (x.level + 1)) = x ∧
    x.leftMostChild.level = 0 ∧ x.rightMostChild.level = 0 ∧
    (∀ y : Position, y.level = 0 →
      (parent^[x.level] y = x ↔ x.leftMostChild.val ≤ y.val ∧ y.val ≤ x.rightMostChild.val)) ∧
    postorderToInorder (inorderToPostorder x.val) = x.val := by
  refine ⟨fun hleaf => ⟨parent_leftChild hl hleaf, parent_rightChild hl hleaf,
      sibling_leftChild hl hleaf, (leftChild_lt_lt_rightChild hl hleaf).1,
      (leftChild_lt_lt_rightChild hl hleaf).2, inorderToPostorder_rightChild_val hl hleaf⟩,
    sibling_sibling hl, level_parent hl, isLeftChild_iff hl, fromLevelAndPos_level_shiftRight hl,
    level_leftMostChild hl, level_rightMostChild hl, fun y hy => parent_iterate_eq_iff hl hy,
    postorderToInorder_inorderToPostorder_val hl⟩

theorem position_tree_laws_five :
    (⟨5⟩ : Position).level < 63 ∧ (⟨5⟩ : Position).rightChild.parent = ⟨5⟩ ∧
      postorderToInorder (inorderToPostorder 5) = 5 :=
  ⟨by decide, ((position_tree_laws ⟨5⟩ (by decide)).1 (by decide)).2.1,
    (position_tree_laws ⟨5⟩ (by decide)).2.2.2.2.2.2.2.2⟩

end Position

end AptosCore
