import Mathlib.Tactic.Ring
import AptosCore.Lib.MerkleTree

/-!
# The frontier of a growing Merkle tree

Over the first `n` leaves the complete part of the tree is a row of maximal
perfect subtrees, one for each set bit of `n`, the largest on the left
(`frozenSubtrees`); their roots are the frontier (`frontier`), all that an
append-only tree needs to keep. Appending a leaf adds one to `n`: the leaf
becomes a subtree of level 0 and, for each trailing one of `n`, the two
rightmost subtrees merge into their parent (`frozenSubtrees_carry`,
`frozenSubtrees_succ`). Appending an aligned perfect subtree is the same carry
one level up (`frozenSubtrees_two_pow_mul`), and a block of leaves smaller than
the rightmost subtree adds its own frontier to the right (`frozenSubtrees_add`).
-/

namespace AptosCore.MerkleTree

open Word

variable {α : Type*} {hash : α → α → α}

/-- The maximal perfect subtrees over the first `n` leaves, left to right, as
`(level, index)`: those over the `n / 2` pairs of leaves one level up, then the
last leaf when `n` is odd. -/
def frozenSubtrees (n : Nat) : List (Nat × Nat) :=
  if h : n = 0 then []
  else (frozenSubtrees (n / 2)).map (fun p => (p.1 + 1, p.2)) ++
    if n % 2 = 1 then [(0, n - 1)] else []
decreasing_by omega

variable (hash) in
/-- The roots of the maximal perfect subtrees over the first `n` leaves, left to right. -/
def frontier (leaf : Nat → α) (n : Nat) : List α :=
  (frozenSubtrees n).map fun p => perfectRoot hash leaf p.1 p.2

theorem frozenSubtrees_eq (n : Nat) :
    frozenSubtrees n = (frozenSubtrees (n / 2)).map (fun p => (p.1 + 1, p.2)) ++
      if n % 2 = 1 then [(0, n - 1)] else [] := by
  rw [frozenSubtrees]
  by_cases h : n = 0
  · subst h
    simp [frozenSubtrees]
  · simp [h]

@[simp] theorem frozenSubtrees_zero : frozenSubtrees 0 = [] := by
  rw [frozenSubtrees]
  simp

/-- Appending `2 ^ j` leaves at a multiple of `2 ^ (j + 1)` adds one perfect subtree on level `j`. -/
theorem frozenSubtrees_add_two_pow {n j : Nat} (hn : 2 ^ (j + 1) ∣ n) :
    frozenSubtrees (n + 2 ^ j) = frozenSubtrees n ++ [(j, n / 2 ^ j)] := by
  induction j generalizing n with
  | zero =>
    obtain ⟨m, rfl⟩ := hn
    rw [frozenSubtrees_eq (2 ^ (0 + 1) * m + 2 ^ 0), frozenSubtrees_eq (2 ^ (0 + 1) * m)]
    simp only [Nat.zero_add, Nat.pow_one, Nat.pow_zero, Nat.div_one]
    rw [show (2 * m + 1) / 2 = 2 * m / 2 by omega]
    simp [show (2 * m + 1) % 2 = 1 by omega, Nat.mul_mod_right]
  | succ j ih =>
    obtain ⟨m, rfl⟩ := hn
    have he : 2 ^ (j + 1 + 1) * m = 2 * (2 ^ (j + 1) * m) := by ring
    have hhalf : (2 ^ (j + 1 + 1) * m + 2 ^ (j + 1)) / 2 = 2 ^ (j + 1) * m + 2 ^ j := by
      rw [he, Nat.pow_succ]; omega
    rw [frozenSubtrees_eq (2 ^ (j + 1 + 1) * m + 2 ^ (j + 1)), frozenSubtrees_eq (2 ^ (j + 1 + 1) * m),
      hhalf, ih (Dvd.intro m rfl), he, Nat.mul_div_cancel_left _ (by decide : 0 < 2)]
    have hodd : (2 * (2 ^ (j + 1) * m) + 2 ^ (j + 1)) % 2 = 0 := by
      rw [Nat.pow_succ]; omega
    simp only [List.map_append, List.map_cons, List.map_nil, hodd, Nat.mul_mod_right]
    simp only [Nat.zero_ne_one, ite_false, List.append_nil]
    congr 3
    rw [Nat.pow_succ, Nat.mul_comm (2 ^ j) 2, ← Nat.div_div_eq_div_mul,
      Nat.mul_div_cancel_left _ (by decide : 0 < 2)]

theorem two_pow_succ_mul_div (j q : Nat) : 2 ^ (j + 1) * q / 2 ^ j = 2 * q := by
  have he : 2 ^ (j + 1) * q = 2 ^ j * (2 * q) := by ring
  rw [he, Nat.mul_div_cancel_left _ (Nat.two_pow_pos j)]

/-- The pending root of an append: merging the rightmost roots while the
position's bits are ones. Before the leaf at `c` is merged with its `j`-th
left neighbour, the roots left of that neighbour are those of `c + 1 - 2 ^ (j + 1)` leaves. -/
theorem frozenSubtrees_carry {c j : Nat} (hj : j < trailingOnes c) :
    frozenSubtrees (c + 1 - 2 ^ j) =
      frozenSubtrees (c + 1 - 2 ^ (j + 1)) ++ [(j, c / 2 ^ j - 1)] := by
  have hmod := mod_two_pow_of_le_trailingOnes (show j + 1 ≤ trailingOnes c by omega)
  have hdm := Nat.div_add_mod c (2 ^ (j + 1))
  have hpow : 2 ^ (j + 1) = 2 * 2 ^ j := Nat.pow_succ'
  have hbase : c + 1 - 2 ^ (j + 1) = 2 ^ (j + 1) * (c / 2 ^ (j + 1)) := by omega
  have hsum : c + 1 - 2 ^ j = 2 ^ (j + 1) * (c / 2 ^ (j + 1)) + 2 ^ j := by omega
  -- bit `j` of `c` is one, so its left neighbour on level `j` has the even index
  have hq := div_two_pow_of_lt_trailingOnes hj
  rw [hsum, frozenSubtrees_add_two_pow (Dvd.intro _ rfl), hbase, two_pow_succ_mul_div]
  congr 3
  omega

/-- The pending root lands on the level of the lowest zero bit of `c`. -/
theorem frozenSubtrees_succ (c : Nat) :
    frozenSubtrees (c + 1) =
      frozenSubtrees (c + 1 - 2 ^ trailingOnes c) ++ [(trailingOnes c, c / 2 ^ trailingOnes c)] := by
  have hmod := mod_two_pow_trailingOnes_succ c
  have hdm := Nat.div_add_mod c (2 ^ (trailingOnes c + 1))
  have hpow : 2 ^ (trailingOnes c + 1) = 2 * 2 ^ trailingOnes c := Nat.pow_succ'
  have hbase : c + 1 - 2 ^ trailingOnes c =
      2 ^ (trailingOnes c + 1) * (c / 2 ^ (trailingOnes c + 1)) := by omega
  have hsum : c + 1 =
      2 ^ (trailingOnes c + 1) * (c / 2 ^ (trailingOnes c + 1)) + 2 ^ trailingOnes c := by omega
  conv_lhs => rw [hsum]
  rw [frozenSubtrees_add_two_pow (Dvd.intro _ rfl), hbase, two_pow_succ_mul_div,
    ← div_two_pow_trailingOnes]

/-- One subtree per set bit. -/
theorem length_frozenSubtrees {w n : Nat} (hn : n < 2 ^ w) :
    (frozenSubtrees n).length = countOnes w n := by
  induction w generalizing n with
  | zero =>
    obtain rfl : n = 0 := by simpa using hn
    simp [countOnes]
  | succ w ih =>
    rw [frozenSubtrees_eq, countOnes, List.length_append, List.length_map,
      ih (by rw [Nat.pow_succ] at hn; omega)]
    rcases Nat.mod_two_eq_zero_or_one n with h | h
    · simp [h]
    · simp [h]
      omega

/-- The tree over `2 ^ z * x` leaves is the tree over `x` leaves of level `z` subtrees. -/
theorem frozenSubtrees_two_pow_mul (z x : Nat) :
    frozenSubtrees (2 ^ z * x) = (frozenSubtrees x).map fun p => (p.1 + z, p.2) := by
  induction z with
  | zero => simp
  | succ z ih =>
    have he : 2 ^ (z + 1) * x = 2 * (2 ^ z * x) := by ring
    rw [frozenSubtrees_eq, he, Nat.mul_div_cancel_left _ (by decide : 0 < 2), ih,
      Nat.mul_mod_right]
    simp only [List.map_map, Nat.zero_ne_one, ite_false, List.append_nil]
    apply List.map_congr_left
    intro p _
    simp only [Function.comp_apply, Prod.mk.injEq, and_true]
    omega

/-- Leaves appended after `c` in a block smaller than `c`'s alignment form their
own subtrees, shifted to start at `c`. -/
theorem frozenSubtrees_add {c r z : Nat} (hc : 2 ^ z ∣ c) (hr : r < 2 ^ z) :
    frozenSubtrees (c + r) =
      frozenSubtrees c ++ (frozenSubtrees r).map fun p => (p.1, p.2 + c / 2 ^ p.1) := by
  induction z generalizing c r with
  | zero =>
    obtain rfl : r = 0 := by simpa using hr
    simp
  | succ z ih =>
    obtain ⟨m, rfl⟩ := hc
    have he : 2 ^ (z + 1) * m = 2 * (2 ^ z * m) := by ring
    have hhalf : (2 * (2 ^ z * m) + r) / 2 = 2 ^ z * m + r / 2 := by omega
    have hmod : (2 * (2 ^ z * m) + r) % 2 = r % 2 := by omega
    rw [he, frozenSubtrees_eq (2 * (2 ^ z * m) + r), frozenSubtrees_eq (2 * (2 ^ z * m)),
      frozenSubtrees_eq r, hhalf, hmod, Nat.mul_mod_right, Nat.mul_div_cancel_left _ (by decide),
      ih (Dvd.intro m rfl) (by rw [Nat.pow_succ] at hr; omega)]
    simp only [List.map_append, List.map_map, Nat.zero_ne_one, ite_false, List.append_nil,
      List.append_assoc]
    congr 2
    · apply List.map_congr_left
      intro p _
      simp only [Function.comp_apply, Prod.mk.injEq, true_and]
      rw [Nat.pow_succ', ← Nat.div_div_eq_div_mul, Nat.mul_div_cancel_left _ (by decide : 0 < 2)]
    · split <;> simp
      omega

theorem frozenSubtrees_eq_nil_iff {n : Nat} : frozenSubtrees n = [] ↔ n = 0 := by
  induction n using Nat.strongRecOn with
  | ind n ih =>
    constructor
    · intro h
      by_contra hn
      rw [frozenSubtrees_eq] at h
      rcases Nat.mod_two_eq_zero_or_one n with hm | hm
      · -- an even count: the tree one level up is empty too
        have hhalf : frozenSubtrees (n / 2) = [] := by simpa [hm] using h
        have := (ih (n / 2) (by omega)).mp hhalf
        omega
      · simp [hm] at h
    · rintro rfl
      exact frozenSubtrees_zero

/-- A single maximal subtree covers `2 ^ l` leaves from the first one. -/
theorem frozenSubtrees_eq_singleton {n l k : Nat} (h : frozenSubtrees n = [(l, k)]) :
    n = 2 ^ l ∧ k = 0 := by
  induction n using Nat.strongRecOn generalizing l with
  | ind n ih =>
    rw [frozenSubtrees_eq] at h
    rcases Nat.mod_two_eq_zero_or_one n with hm | hm
    · -- even: one subtree one level up
      simp only [hm, Nat.zero_ne_one, ite_false, List.append_nil, List.map_eq_singleton_iff] at h
      obtain ⟨⟨l', k'⟩, hsingle, hlk⟩ := h
      simp only [Prod.mk.injEq] at hlk
      obtain ⟨rfl, rfl⟩ := hlk
      have hpos : n ≠ 0 := by
        rintro rfl
        simp at hsingle
      obtain ⟨hn, hk⟩ := ih (n / 2) (by omega) hsingle
      refine ⟨?_, hk⟩
      rw [Nat.pow_succ]
      omega
    · -- odd: the last leaf alone, with nothing before it
      simp only [hm, ite_true, List.append_eq_singleton_iff] at h
      rcases h with ⟨hnil, hl⟩ | ⟨_, hnil⟩
      · rw [List.map_eq_nil_iff, frozenSubtrees_eq_nil_iff] at hnil
        simp only [List.cons.injEq, Prod.mk.injEq, and_true] at hl
        obtain ⟨rfl, rfl⟩ := hl
        omega
      · simp at hnil

theorem frozenSubtrees_two_pow (l : Nat) : frozenSubtrees (2 ^ l) = [(l, 0)] := by
  have h := frozenSubtrees_two_pow_mul l 1
  rw [Nat.mul_one] at h
  rw [h, frozenSubtrees_eq 1]
  simp

/-- Every maximal subtree is complete. -/
theorem fits_of_mem_frozenSubtrees {n l k : Nat} (h : (l, k) ∈ frozenSubtrees n) :
    (k + 1) * 2 ^ l ≤ n := by
  induction n using Nat.strongRecOn generalizing l k with
  | ind n ih =>
    rw [frozenSubtrees_eq, List.mem_append, List.mem_map] at h
    rcases h with ⟨⟨l', k'⟩, hmem, hlk⟩ | hlast
    · simp only [Prod.mk.injEq] at hlk
      obtain ⟨rfl, rfl⟩ := hlk
      have hpos : n ≠ 0 := by
        rintro rfl
        simp at hmem
      have := ih (n / 2) (by omega) hmem
      rw [Nat.pow_succ, ← Nat.mul_assoc]
      omega
    · split at hlast
      · simp only [List.mem_singleton, Prod.mk.injEq] at hlast
        obtain ⟨rfl, rfl⟩ := hlast
        omega
      · simp at hlast

/-- The frozen subtrees of `i < 2 ^ L` leaves, one for each set bit of `i`, the
highest first: on the level `lv` of the bit, the node just left of the ancestor
of leaf `i`. -/
theorem frozenSubtrees_eq_bits : ∀ (L i : Nat), i < 2 ^ L →
    frozenSubtrees i = (((List.range' 0 L).filter fun lv => i / 2 ^ lv % 2 = 1).map
      fun lv => (lv, i / 2 ^ lv - 1)).reverse
  | 0, i, hi => by
    obtain rfl : i = 0 := by simpa using hi
    simp
  | L + 1, i, hi => by
    have hhalf : i / 2 < 2 ^ L := by rw [Nat.pow_succ] at hi; omega
    -- bit `lv + 1` of `i` is bit `lv` of `i / 2`
    have hshift : (List.range' 1 L).filter (fun lv => i / 2 ^ lv % 2 = 1) =
        ((List.range' 0 L).filter fun lv => i / 2 / 2 ^ lv % 2 = 1).map (1 + ·) := by
      rw [show List.range' 1 L = (List.range' 0 L).map (1 + ·) by rw [List.map_add_range'],
        List.filter_map]
      congr 1
      apply List.filter_congr
      intro lv _
      simp only [Function.comp_apply, Nat.div_div_eq_div_mul, ← Nat.pow_succ', Nat.add_comm 1 lv]
    rw [frozenSubtrees_eq i, frozenSubtrees_eq_bits L (i / 2) hhalf, List.range'_succ,
      List.filter_cons, Nat.zero_add, hshift]
    simp only [Nat.pow_zero, Nat.div_one]
    generalize (List.range' 0 L).filter (fun lv => i / 2 / 2 ^ lv % 2 = 1) = S
    have hmid : (S.map fun lv => (lv, i / 2 / 2 ^ lv - 1)).map (fun p => (p.1 + 1, p.2)) =
        (S.map (1 + ·)).map fun lv => (lv, i / 2 ^ lv - 1) := by
      rw [List.map_map, List.map_map]
      apply List.map_congr_left
      intro lv _
      simp [Nat.div_div_eq_div_mul, ← Nat.pow_succ', Nat.add_comm 1 lv]
    rw [List.map_reverse, hmid]
    by_cases hodd : i % 2 = 1
    · simp [hodd]
    · simp [hodd]

/-- Bottom up, the nodes left of the path of leaf `i < 2 ^ L` are the frozen
subtrees of the first `i` leaves, smallest first. -/
theorem leftRangeSiblings_eq_reverse (node : Nat → Nat → α) {i L : Nat} (hi : i < 2 ^ L) :
    leftRangeSiblings node i 0 L = ((frozenSubtrees i).map fun p => node p.1 p.2).reverse := by
  rw [frozenSubtrees_eq_bits L i hi, List.map_reverse, List.reverse_reverse, List.map_map,
    leftRangeSiblings]
  rfl

/-! ## Tiling a range of leaves -/

/-- The perfect subtrees `s`, as `(level, index)`, cover the leaves `m, …, n - 1`
left to right, each beginning where the one before it ends. -/
def Tiles : List (Nat × Nat) → Nat → Nat → Prop
  | [], m, n => m = n
  | (l, k) :: s, m, n => k * 2 ^ l = m ∧ Tiles s ((k + 1) * 2 ^ l) n

/-- Every subtree of a tiling lies within the range it tiles. -/
theorem Tiles.bounds : ∀ {s : List (Nat × Nat)} {m n : Nat}, Tiles s m n →
    m ≤ n ∧ ∀ p ∈ s, m ≤ p.2 * 2 ^ p.1 ∧ (p.2 + 1) * 2 ^ p.1 ≤ n
  | [], m, n, h => ⟨le_of_eq h, by simp⟩
  | (l, k) :: s, m, n, ⟨hstart, hrest⟩ => by
    obtain ⟨hle, hmem⟩ := Tiles.bounds hrest
    have hstep : k * 2 ^ l ≤ (k + 1) * 2 ^ l := Nat.mul_le_mul_right _ (Nat.le_succ k)
    refine ⟨by omega, ?_⟩
    rintro p (_ | ⟨_, hp⟩)
    · exact ⟨le_of_eq hstart.symm, hle⟩
    · obtain ⟨h₁, h₂⟩ := hmem p hp
      exact ⟨by omega, h₂⟩

/-! ## The frontier's roots -/

theorem frontier_eq_map (leaf : Nat → α) (n : Nat) :
    frontier hash leaf n = (frozenSubtrees n).map fun p => perfectRoot hash leaf p.1 p.2 := rfl

theorem length_frontier {leaf : Nat → α} {w n : Nat} (hn : n < 2 ^ w) :
    (frontier hash leaf n).length = countOnes w n := by
  rw [frontier, List.length_map, length_frozenSubtrees hn]

/-- The frontier only reads the leaves below `n`. -/
theorem frontier_congr {leaf leaf' : Nat → α} {n : Nat} (h : ∀ i, i < n → leaf i = leaf' i) :
    frontier hash leaf n = frontier hash leaf' n := by
  apply List.map_congr_left
  rintro ⟨l, k⟩ hmem
  have hfit := fits_of_mem_frozenSubtrees hmem
  apply perfectRoot_congr
  intro i _ hi
  dsimp only at hi
  exact h i (by omega)

theorem frontier_add_two_pow (leaf : Nat → α) {n j : Nat} (hn : 2 ^ (j + 1) ∣ n) :
    frontier hash leaf (n + 2 ^ j) = frontier hash leaf n ++ [perfectRoot hash leaf j (n / 2 ^ j)] := by
  simp [frontier, frozenSubtrees_add_two_pow hn]

theorem frontier_carry (leaf : Nat → α) {c j : Nat} (hj : j < trailingOnes c) :
    frontier hash leaf (c + 1 - 2 ^ j) =
      frontier hash leaf (c + 1 - 2 ^ (j + 1)) ++ [perfectRoot hash leaf j (c / 2 ^ j - 1)] := by
  simp [frontier, frozenSubtrees_carry hj]

/-- A carry at bit `j` of `c`: the rightmost root and the pending root are the
two children of the pending root one level up. -/
theorem perfectRoot_carry (leaf : Nat → α) {c j : Nat} (hj : j < trailingOnes c) :
    hash (perfectRoot hash leaf j (c / 2 ^ j - 1)) (perfectRoot hash leaf j (c / 2 ^ j)) =
      perfectRoot hash leaf (j + 1) (c / 2 ^ (j + 1)) := by
  have hq := div_two_pow_of_lt_trailingOnes hj
  rw [hq, show 2 * (c / 2 ^ (j + 1)) + 1 - 1 = 2 * (c / 2 ^ (j + 1)) by omega, perfectRoot]

theorem frontier_succ (leaf : Nat → α) (c : Nat) :
    frontier hash leaf (c + 1) = frontier hash leaf (c + 1 - 2 ^ trailingOnes c) ++
      [perfectRoot hash leaf (trailingOnes c) (c / 2 ^ trailingOnes c)] := by
  simp [frontier, frozenSubtrees_succ c]

/-- The frontier of `2 ^ z * x` leaves is that of `x` leaves of the level `z` subtrees. -/
theorem frontier_two_pow_mul (leaf : Nat → α) (z x : Nat) :
    frontier hash leaf (2 ^ z * x) = frontier hash ((pairUp hash)^[z] leaf) x := by
  simp only [frontier, frozenSubtrees_two_pow_mul, List.map_map]
  apply List.map_congr_left
  intro p _
  simp only [Function.comp_apply, perfectRoot_eq_iterate_pairUp, Function.iterate_add_apply]

end AptosCore.MerkleTree
