import AptosCore.Accumulator.Postorder
import AptosCore.Lib.Frontier

/-!
# The frozen subtrees of an accumulator

`FrozenSubTreeIterator` (types/src/proof/position/mod.rs) lists the roots of
the maximal perfect subtrees over the first `num_leaves` leaves, left to right,
without walking the tree: the most significant bit of the leaves left is the
size of the next subtree (found by smearing it downwards), and its root lies
that size less one past its leftmost leaf. The position tests compare it with
a recursive decomposition from the root of the whole tree
(`slow_get_frozen_subtree_roots`): a freezable node is a frozen subtree, a
placeholder holds none, and any other node splits into its children.

Both yield the positions of `MerkleTree.frozenSubtrees`
(`toList_new_eq_frozenSubtrees`, `slowGetFrozenSubtreeRoots_eq`), so there are
`count_ones` of them. Each step of the iterator is the largest subtree first,
then the frozen subtrees of the leaves left, placed after it
(`map_frozenSubtrees_two_pow_add`).
-/

namespace AptosCore

open Word MerkleTree

namespace Position

/-! ## Placing the frozen subtrees of a block of leaves -/

/-- The frozen subtrees of `2 ^ p + r` leaves placed after `c` aligned leaves:
the perfect subtree over the first `2 ^ p`, then those of the other `r`, placed
after `c + 2 ^ p`. -/
theorem map_frozenSubtrees_two_pow_add {p r c : Nat} (hr : r < 2 ^ p) (hc : 2 ^ p ∣ c) :
    (frozenSubtrees (2 ^ p + r)).map (fun q => fromLevelAndPos q.1 (q.2 + c / 2 ^ q.1)) =
      fromLevelAndPos p (c / 2 ^ p) ::
        (frozenSubtrees r).map (fun q => fromLevelAndPos q.1 (q.2 + (c + 2 ^ p) / 2 ^ q.1)) := by
  have hsplit := frozenSubtrees_add (Nat.dvd_refl (2 ^ p)) hr
  rw [frozenSubtrees_two_pow] at hsplit
  rw [hsplit]
  simp only [List.singleton_append, List.map_cons, List.map_map, Nat.zero_add]
  congr 1
  apply List.map_congr_left
  rintro ⟨l, k⟩ hmem
  -- a subtree of the rest sits on a level below `p`, so `2 ^ l` divides `c`
  have hfit := fits_of_mem_frozenSubtrees hmem
  have hl : l < p := by
    have : 2 ^ l < 2 ^ p := by
      have := Nat.le_mul_of_pos_left (2 ^ l) (show 0 < k + 1 by omega)
      omega
    exact (Nat.pow_lt_pow_iff_right (by decide)).mp this
  obtain ⟨q, hq⟩ : 2 ^ l ∣ c := (Nat.pow_dvd_pow 2 (by omega)).trans hc
  simp only [Function.comp_apply]
  rw [hq, Nat.mul_add_div (Nat.two_pow_pos l), Nat.mul_div_cancel_left _ (Nat.two_pow_pos l),
    Nat.add_assoc, Nat.add_comm (2 ^ p / 2 ^ l)]

/-- A count `0 < r` is its most significant bit `2 ^ (r.size - 1)` and a rest below it. -/
theorem two_pow_size_sub_one_le_lt {r : Nat} (h0 : 0 < r) :
    2 ^ (r.size - 1) ≤ r ∧ r - 2 ^ (r.size - 1) < 2 ^ (r.size - 1) := by
  have hpos := Nat.size_pos.mpr h0
  have hle : 2 ^ (r.size - 1) ≤ r := Nat.lt_size.mp (by omega)
  have hlt : r < 2 ^ (r.size - 1 + 1) := by
    rw [show r.size - 1 + 1 = r.size by omega]
    exact Nat.lt_size_self r
  rw [Nat.pow_succ] at hlt
  exact ⟨hle, by omega⟩

/-! ## `FrozenSubTreeIterator` -/

/-- `FrozenSubTreeIterator`: the leaves still to cover as a bitmap, and the
leaves covered. -/
structure FrozenSubTreeIterator where
  bitmap : Nat
  seenLeaves : Nat
  deriving DecidableEq, Repr

namespace FrozenSubTreeIterator

/-- `FrozenSubTreeIterator::new`. -/
def new (numLeaves : Nat) : FrozenSubTreeIterator := ⟨numLeaves, 0⟩

/-- `Iterator::next`: the root of the largest perfect subtree of the leaves
left, whose leaves are then seen. -/
def next (it : FrozenSubTreeIterator) : Option (Position × FrozenSubTreeIterator) :=
  if it.bitmap = 0 then none
  else
    let rootOffset := smearOnesForU64 it.bitmap >>> 1
    let numLeaves := rootOffset + 1
    let leftmostLeaf := fromLeafIndex it.seenLeaves
    let root := fromInorderIndex (leftmostLeaf.toInorderIndex + rootOffset)
    some (root, ⟨it.bitmap &&& complement 64 numLeaves, it.seenLeaves + numLeaves⟩)

/-- Clearing the most significant bit `2 ^ i` of a word leaves the bits below it. -/
theorem two_pow_add_and_complement {i r : Nat} (hi : i < 64) (hr : r < 2 ^ i) :
    (2 ^ i + r) &&& complement 64 (2 ^ i) = r := by
  apply Nat.eq_of_testBit_eq
  intro j
  have hform : 2 ^ i + r = 2 ^ i * 1 + r := by rw [Nat.mul_one]
  rw [Nat.testBit_and, hform, Nat.testBit_two_pow_mul_add 1 hr,
    testBit_complement (Nat.pow_lt_pow_right (by decide) hi), Nat.testBit_two_pow]
  by_cases hj : j < i
  · simp [hj, show j < 64 by omega, show i ≠ j by omega]
  · have hr' : r.testBit j = false :=
      Nat.testBit_lt_two_pow (lt_of_lt_of_le hr (Nat.pow_le_pow_right (by decide) (by omega)))
    by_cases hij : i = j
    · subst hij
      simp [hr']
    · simp [hj, hij, hr', Nat.testBit_one_eq_true_iff_self_eq_zero, show j - i ≠ 0 by omega]

/-- One step on a word bitmap: the subtree of its most significant bit, `2 ^ p`
leaves after the `c` seen. -/
theorem next_eq {r c : Nat} (h0 : 0 < r) (hr : r < 2 ^ 64) (hc : c < 2 ^ 63) :
    next ⟨r, c⟩ = some (⟨2 * c + (2 ^ (r.size - 1) - 1)⟩,
      ⟨r - 2 ^ (r.size - 1), c + 2 ^ (r.size - 1)⟩) := by
  obtain ⟨hle, hlt⟩ := two_pow_size_sub_one_le_lt h0
  have hsize : r.size ≤ 64 := Nat.size_le.mpr hr
  have hpos := Nat.size_pos.mpr h0
  have hoffset : smearOnesForU64 r >>> 1 = 2 ^ (r.size - 1) - 1 := by
    rw [smearOnesForU64, smear_eq hr, Nat.shiftRight_one]
    have : 2 ^ r.size = 2 * 2 ^ (r.size - 1) := by rw [← Nat.pow_succ']; congr 1; omega
    omega
  have hmask : r &&& complement 64 (2 ^ (r.size - 1)) = r - 2 ^ (r.size - 1) := by
    have h := two_pow_add_and_complement (i := r.size - 1) (by omega) hlt
    rwa [Nat.add_sub_cancel' hle] at h
  have hone := Nat.one_le_two_pow (n := r.size - 1)
  simp only [next, show r ≠ 0 by omega, if_false, hoffset, Nat.sub_add_cancel hone, hmask,
    toInorderIndex, fromLeafIndex_val hc, fromInorderIndex]

/-- Every step clears a bit of the bitmap. -/
theorem bitmap_lt_of_next {it it' : FrozenSubTreeIterator} {p : Position}
    (h : it.next = some (p, it')) : it'.bitmap < it.bitmap := by
  unfold next at h
  split at h
  · cases h
  · rename_i h0
    simp only [Option.some.injEq, Prod.mk.injEq] at h
    obtain ⟨-, rfl⟩ := h
    by_cases hr : it.bitmap < 2 ^ 64
    · -- the most significant bit is cleared
      obtain ⟨hle, hlt⟩ := two_pow_size_sub_one_le_lt (show 0 < it.bitmap by omega)
      have hsize : it.bitmap.size ≤ 64 := Nat.size_le.mpr hr
      have hpos := Nat.size_pos.mpr (show 0 < it.bitmap by omega)
      have hoffset : smearOnesForU64 it.bitmap >>> 1 + 1 = 2 ^ (it.bitmap.size - 1) := by
        rw [smearOnesForU64, smear_eq hr, Nat.shiftRight_one]
        have : 2 ^ it.bitmap.size = 2 * 2 ^ (it.bitmap.size - 1) := by
          rw [← Nat.pow_succ']; congr 1; omega
        omega
      have h := two_pow_add_and_complement (i := it.bitmap.size - 1) (by omega) hlt
      rw [Nat.add_sub_cancel' hle] at h
      dsimp only
      rw [hoffset, h]
      have := Nat.one_le_two_pow (n := it.bitmap.size - 1)
      omega
    · -- a bitmap past the word keeps only bits of the word
      have := complement_lt 64 (smearOnesForU64 it.bitmap >>> 1 + 1)
      have := Nat.and_le_right (n := it.bitmap) (m := complement 64 (smearOnesForU64 it.bitmap >>> 1 + 1))
      dsimp only
      omega

set_option linter.unusedVariables false in
/-- The positions the iterator yields, until `next` returns `None`. -/
def toList (it : FrozenSubTreeIterator) : List Position :=
  match h : it.next with
  | none => []
  | some (root, it') => root :: toList it'
termination_by it.bitmap
decreasing_by exact bitmap_lt_of_next h

theorem toList_of_next_none {it : FrozenSubTreeIterator} (h : it.next = none) : it.toList = [] := by
  rw [toList]
  split <;> simp_all

theorem toList_of_next_some {it it' : FrozenSubTreeIterator} {root : Position}
    (h : it.next = some (root, it')) : it.toList = root :: it'.toList := by
  rw [toList]
  split <;> simp_all

/-- From `c` leaves aligned to the size of every subtree left, the iterator
yields the frozen subtrees of the `r` leaves left, placed after the `c`. -/
theorem toList_eq_frozenSubtrees :
    ∀ r c, 2 ^ r.size ∣ c → c + r ≤ 2 ^ 63 →
      (⟨r, c⟩ : FrozenSubTreeIterator).toList =
        (frozenSubtrees r).map fun p => fromLevelAndPos p.1 (p.2 + c / 2 ^ p.1) := by
  intro r
  induction r using Nat.strongRecOn with
  | ind r ih =>
    intro c hdvd hcr
    by_cases hr : r = 0
    · subst hr
      rw [toList_of_next_none (by simp [next]), frozenSubtrees_zero, List.map_nil]
    · -- the subtree of the most significant bit, `2 ^ p` leaves, then the rest
      obtain ⟨p, hp⟩ : ∃ p, r.size - 1 = p := ⟨_, rfl⟩
      obtain ⟨hle, hlt⟩ := two_pow_size_sub_one_le_lt (show 0 < r by omega)
      rw [hp] at hle hlt
      have hpc : 2 ^ p ∣ c := (Nat.pow_dvd_pow 2 (by omega)).trans hdvd
      obtain ⟨q, hq⟩ := hpc
      have hroot : (⟨2 * c + (2 ^ p - 1)⟩ : Position) = fromLevelAndPos p (c / 2 ^ p) := by
        have hb : (c / 2 ^ p + 1) * 2 ^ p ≤ 2 ^ 63 := by
          rw [hq, Nat.mul_div_cancel_left _ (Nat.two_pow_pos p), Nat.add_mul, Nat.one_mul,
            Nat.mul_comm]
          omega
        ext
        rw [fromLevelAndPos_val hb, inorderIndex, hq, Nat.mul_div_cancel_left _ (Nat.two_pow_pos p),
          Nat.pow_succ]
        ring_nf
      have hrest : (r - 2 ^ p).size ≤ p := Nat.size_le.mpr hlt
      have hnext := next_eq (show 0 < r by omega) (by omega) (by omega) (c := c)
      rw [hp, hroot] at hnext
      have hsplit := map_frozenSubtrees_two_pow_add hlt ⟨q, hq⟩ (c := c)
      rw [Nat.add_sub_cancel' hle] at hsplit
      rw [toList_of_next_some hnext, ih (r - 2 ^ p) (by omega) (c + 2 ^ p)
          ((Nat.pow_dvd_pow 2 hrest).trans (Nat.dvd_add ⟨q, hq⟩ (Nat.dvd_refl _))) (by omega),
        hsplit]

/-- `FrozenSubTreeIterator::new(n)` yields the frozen subtrees of `n` leaves. -/
theorem toList_new_eq_frozenSubtrees {n : Nat} (hn : n ≤ 2 ^ 63) :
    (new n).toList = (frozenSubtrees n).map fun p => fromLevelAndPos p.1 p.2 := by
  rw [new, toList_eq_frozenSubtrees n 0 (Nat.dvd_zero _) (by omega)]
  simp

/-- It yields one position per set bit of the leaf count. -/
theorem length_toList_new {n : Nat} (hn : n ≤ 2 ^ 63) : (new n).toList.length = countOnes 64 n := by
  rw [toList_new_eq_frozenSubtrees hn, List.length_map, length_frozenSubtrees (w := 64) (by omega)]

end FrozenSubTreeIterator

/-! ## The recursive decomposition of the tests -/

/-- `slow_get_frozen_subtree_roots_impl`: the node when it is freezable,
nothing when it is a placeholder, and otherwise the roots below its left child
then those below its right child. The recursion goes one level down a call, so
the level of the node bounds it; at a leaf one of the first two cases holds. -/
def slowGetFrozenSubtreeRootsImpl (fuel : Nat) (root : Position) (maxLeafIndex : Nat) :
    List Position :=
  if root.isFreezable maxLeafIndex then [root]
  else if root.isPlaceholder maxLeafIndex then []
  else match fuel with
    | 0 => []
    | fuel + 1 =>
      slowGetFrozenSubtreeRootsImpl fuel root.leftChild maxLeafIndex ++
        slowGetFrozenSubtreeRootsImpl fuel root.rightChild maxLeafIndex

/-- `slow_get_frozen_subtree_roots`: the decomposition from the root over
`num_leaves`, with the root's level as the bound of the recursion. -/
def slowGetFrozenSubtreeRoots (numLeaves : Nat) : List Position :=
  if numLeaves = 0 then []
  else
    match rootFromLeafCount numLeaves with
    | some root => slowGetFrozenSubtreeRootsImpl root.level root (numLeaves - 1)
    | none => []

section Slow

variable {n l k : Nat}

/-- A node whose leaves are all among the `n` is a frozen subtree. -/
theorem slowGetFrozenSubtreeRootsImpl_of_le (fuel : Nat) (hb : (k + 1) * 2 ^ l ≤ 2 ^ 63)
    (hn : n ≤ 2 ^ 63) (h : (k + 1) * 2 ^ l ≤ n) :
    slowGetFrozenSubtreeRootsImpl fuel (fromLevelAndPos l k) (n - 1) = [fromLevelAndPos l k] := by
  have hpos : 0 < (k + 1) * 2 ^ l := Nat.mul_pos (by omega) (Nat.two_pow_pos l)
  have hf : (fromLevelAndPos l k).isFreezable (n - 1) = true := by
    rw [isFreezable_fromLevelAndPos hb (by omega), decide_eq_true_eq]
    omega
  unfold slowGetFrozenSubtreeRootsImpl
  rw [if_pos hf]

/-- A node without any of the `n` leaves holds no frozen subtree. -/
theorem slowGetFrozenSubtreeRootsImpl_of_ge (fuel : Nat) (hb : (k + 1) * 2 ^ l ≤ 2 ^ 63)
    (h0 : 0 < n) (h : n ≤ k * 2 ^ l) :
    slowGetFrozenSubtreeRootsImpl fuel (fromLevelAndPos l k) (n - 1) = [] := by
  have hsplit : (k + 1) * 2 ^ l = k * 2 ^ l + 2 ^ l := by ring
  have hpos := Nat.two_pow_pos l
  have hf : (fromLevelAndPos l k).isFreezable (n - 1) = false := by
    rw [isFreezable_fromLevelAndPos hb (by omega), decide_eq_false_iff_not]
    omega
  have hp : (fromLevelAndPos l k).isPlaceholder (n - 1) = true := by
    rw [isPlaceholder_fromLevelAndPos hb (by omega), decide_eq_true_eq]
    omega
  unfold slowGetFrozenSubtreeRootsImpl
  rw [if_neg (by simp [hf]), if_pos hp]

/-- A node with some but not all of the `n` leaves splits into its children. -/
theorem slowGetFrozenSubtreeRootsImpl_succ (fuel : Nat) (hb : (k + 1) * 2 ^ (l + 1) ≤ 2 ^ 63)
    (h₁ : k * 2 ^ (l + 1) < n) (h₂ : n < (k + 1) * 2 ^ (l + 1)) :
    slowGetFrozenSubtreeRootsImpl (fuel + 1) (fromLevelAndPos (l + 1) k) (n - 1) =
      slowGetFrozenSubtreeRootsImpl fuel (fromLevelAndPos l (2 * k)) (n - 1) ++
        slowGetFrozenSubtreeRootsImpl fuel (fromLevelAndPos l (2 * k + 1)) (n - 1) := by
  have hf : (fromLevelAndPos (l + 1) k).isFreezable (n - 1) = false := by
    rw [isFreezable_fromLevelAndPos hb (by omega), decide_eq_false_iff_not]
    omega
  have hp : (fromLevelAndPos (l + 1) k).isPlaceholder (n - 1) = false := by
    rw [isPlaceholder_fromLevelAndPos hb (by omega), decide_eq_false_iff_not]
    omega
  conv_lhs => unfold slowGetFrozenSubtreeRootsImpl
  rw [if_neg (by simp [hf]), if_neg (by simp [hp]), leftChild_fromLevelAndPos hb,
    rightChild_fromLevelAndPos hb]

/-- Below a node `(l, k)` that holds some but not all of the `n` leaves, the
decomposition yields the frozen subtrees of the leaves past its leftmost leaf,
placed there. -/
theorem slowGetFrozenSubtreeRootsImpl_eq (hn : n ≤ 2 ^ 63) :
    ∀ l k, (k + 1) * 2 ^ l ≤ 2 ^ 63 → k * 2 ^ l < n → n < (k + 1) * 2 ^ l →
      slowGetFrozenSubtreeRootsImpl l (fromLevelAndPos l k) (n - 1) =
        (frozenSubtrees (n - k * 2 ^ l)).map
          fun p => fromLevelAndPos p.1 (p.2 + k * 2 ^ l / 2 ^ p.1)
  | 0, k, _, h₁, h₂ => by omega
  | l + 1, k, hb, h₁, h₂ => by
    have hleft : k * 2 ^ (l + 1) = 2 * k * 2 ^ l := by rw [Nat.pow_succ]; ring
    have hright : (2 * k + 1) * 2 ^ l = 2 * k * 2 ^ l + 2 ^ l := by ring
    have hend : (2 * k + 1 + 1) * 2 ^ l = (2 * k + 1) * 2 ^ l + 2 ^ l := by ring
    have hsplit : (k + 1) * 2 ^ (l + 1) = (2 * k + 1) * 2 ^ l + 2 ^ l := by rw [Nat.pow_succ]; ring
    have hpos := Nat.two_pow_pos l
    rw [slowGetFrozenSubtreeRootsImpl_succ l hb h₁ h₂, hleft]
    by_cases hmid : n ≤ (2 * k + 1) * 2 ^ l
    · -- the right child is a placeholder
      rw [slowGetFrozenSubtreeRootsImpl_of_ge l (fits_two_mul_add_one hb) (by omega) hmid,
        List.append_nil]
      by_cases hfull : n = (2 * k + 1) * 2 ^ l
      · -- and the left child is frozen whole
        rw [slowGetFrozenSubtreeRootsImpl_of_le l (fits_two_mul hb) hn (by omega),
          show n - 2 * k * 2 ^ l = 2 ^ l by omega, frozenSubtrees_two_pow]
        simp [Nat.mul_div_cancel _ hpos]
      · rw [slowGetFrozenSubtreeRootsImpl_eq hn l (2 * k) (fits_two_mul hb) (by omega) (by omega)]
    · -- the left child is frozen whole and the right one holds the rest
      rw [slowGetFrozenSubtreeRootsImpl_of_le l (fits_two_mul hb) hn (by omega),
        slowGetFrozenSubtreeRootsImpl_eq hn l (2 * k + 1) (fits_two_mul_add_one hb) (by omega)
          (by omega),
        show n - 2 * k * 2 ^ l = 2 ^ l + (n - (2 * k + 1) * 2 ^ l) by omega,
        map_frozenSubtrees_two_pow_add (by omega) (Dvd.intro_left _ rfl), Nat.mul_div_cancel _ hpos,
        ← hright]
      rfl

end Slow

/-- The decomposition of the tests yields the frozen subtrees of the leaves. -/
theorem slowGetFrozenSubtreeRoots_eq {n : Nat} (hn : n ≤ 2 ^ 63) :
    slowGetFrozenSubtreeRoots n = (frozenSubtrees n).map fun p => fromLevelAndPos p.1 p.2 := by
  by_cases h0 : n = 0
  · subst h0
    simp [slowGetFrozenSubtreeRoots]
  · have hsize : (n - 1).size ≤ 63 := Nat.size_le.mpr (by omega)
    have hb : (0 + 1) * 2 ^ (n - 1).size ≤ 2 ^ 63 := by
      rw [Nat.zero_add, Nat.one_mul]; exact Nat.pow_le_pow_right (by decide) hsize
    have hlt : n - 1 < 2 ^ (n - 1).size := Nat.lt_size_self _
    rw [slowGetFrozenSubtreeRoots, if_neg h0, rootFromLeafCount_eq (by omega) hn]
    dsimp only
    rw [level_fromLevelAndPos hb]
    by_cases hfull : n = 2 ^ (n - 1).size
    · -- the root is frozen whole
      rw [slowGetFrozenSubtreeRootsImpl_of_le _ hb hn (by omega)]
      conv_rhs => rw [hfull, frozenSubtrees_two_pow]
      rfl
    · rw [slowGetFrozenSubtreeRootsImpl_eq hn _ 0 hb (by simp; omega) (by omega)]
      simp

end Position

end AptosCore
