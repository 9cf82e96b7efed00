import Mathlib.Tactic.Ring
import AptosCore.Lib.InorderTree

/-!
# Merkle trees over a growing list of leaves

The tree over the first `n` leaves of `leaf : Nat → α` is the perfect binary
tree with leaves on level 0 in which every subtree without a leaf is replaced
by a fixed `empty` hash (`paddedRoot`). A subtree all of whose leaves are
present is perfect (`perfectRoot`) and keeps its hash as leaves are added.
The maximal perfect subtrees, one per set bit of `n`, form the frontier
(`frozenSubtrees`, `frontier`); appending a leaf, or an aligned perfect
subtree, merges the rightmost roots like a binary carry (`frontier_append`).
The node on each level whose range holds position `n` lies on the right
edge of the tree, and the root is reached from the frontier by hashing up
that edge (`paddedRoot_edge_succ`). A leaf's path to the root is checked by
folding the hashes of the siblings along it (`foldl_pathStep`), and a run of
consecutive nodes of one level by hashing it pairwise (`pairRow_row`).

Nothing here depends on the hash function or on a machine word.
-/

namespace AptosCore.MerkleTree

open Word

variable {α : Type*} (hash : α → α → α) (empty : α)

/-! ## Perfect and padded subtrees -/

/-- The root of the perfect subtree on `level` with `index`. -/
def perfectRoot (leaf : Nat → α) : Nat → Nat → α
  | 0, k => leaf k
  | l + 1, k => hash (perfectRoot leaf l (2 * k)) (perfectRoot leaf l (2 * k + 1))

/-- The leaves one level up: the hashes of the pairs of sibling leaves. -/
def pairUp (leaf : Nat → α) : Nat → α := fun i => hash (leaf (2 * i)) (leaf (2 * i + 1))

/-- The root of the node on `level` with `index` in the tree over the first `n`
leaves, a subtree without a leaf hashing to `empty`. -/
def paddedRoot (leaf : Nat → α) (n : Nat) : Nat → Nat → α
  | 0, k => if k < n then leaf k else empty
  | l + 1, k => if n ≤ k * 2 ^ (l + 1) then empty
      else hash (paddedRoot leaf n l (2 * k)) (paddedRoot leaf n l (2 * k + 1))

/-- The level of the root of the tree over `n ≥ 1` leaves: the least `L` with `n ≤ 2 ^ L`. -/
def rootLevel (n : Nat) : Nat := (n - 1).size

/-- The root hash of the tree over the first `n` leaves, `empty` for no leaf. -/
def treeRoot (leaf : Nat → α) (n : Nat) : α :=
  if n = 0 then empty else paddedRoot hash empty leaf n (rootLevel n) 0

variable {hash empty}

/-- The leaf ranges of the two children of node `k` on level `l + 1`, in units of
`2 ^ l` leaves: `[2k, 2k + 1)` and `[2k + 1, 2k + 2)`. -/
theorem child_ranges (k l : Nat) :
    k * 2 ^ (l + 1) = 2 * k * 2 ^ l ∧ (k + 1) * 2 ^ (l + 1) = 2 * k * 2 ^ l + 2 * 2 ^ l ∧
      (2 * k + 1) * 2 ^ l = 2 * k * 2 ^ l + 2 ^ l ∧
      (2 * k + 1 + 1) * 2 ^ l = 2 * k * 2 ^ l + 2 * 2 ^ l := by
  refine ⟨?_, ?_, ?_, ?_⟩ <;> ring

/-- A perfect subtree one level up is a perfect subtree over the paired leaves. -/
theorem perfectRoot_succ_eq_pairUp (leaf : Nat → α) (l k : Nat) :
    perfectRoot hash leaf (l + 1) k = perfectRoot hash (pairUp hash leaf) l k := by
  induction l generalizing k with
  | zero => rfl
  | succ l ih =>
    rw [perfectRoot, ih, ih]
    rfl

theorem perfectRoot_eq_iterate_pairUp (leaf : Nat → α) (h k : Nat) :
    perfectRoot hash leaf h k = (pairUp hash)^[h] leaf k := by
  induction h generalizing leaf with
  | zero => rfl
  | succ h ih =>
    rw [perfectRoot_succ_eq_pairUp, ih, Function.iterate_succ_apply]

/-- A perfect subtree only reads its own leaves. -/
theorem perfectRoot_congr {leaf leaf' : Nat → α} {l k : Nat}
    (h : ∀ i, k * 2 ^ l ≤ i → i < (k + 1) * 2 ^ l → leaf i = leaf' i) :
    perfectRoot hash leaf l k = perfectRoot hash leaf' l k := by
  induction l generalizing k with
  | zero =>
    simpa [perfectRoot] using h k (by simp) (by simp)
  | succ l ih =>
    obtain ⟨e1, e2, e3, e4⟩ := child_ranges k l
    simp only [perfectRoot]
    rw [ih (k := 2 * k), ih (k := 2 * k + 1)]
    · intro i h1 h2
      exact h i (by omega) (by omega)
    · intro i h1 h2
      exact h i (by omega) (by omega)

/-- A subtree with no leaf below `n` is `empty`. -/
theorem paddedRoot_of_le {leaf : Nat → α} {n l k : Nat} (h : n ≤ k * 2 ^ l) :
    paddedRoot hash empty leaf n l k = empty := by
  cases l with
  | zero => simp [paddedRoot, show ¬ k < n by simpa using h]
  | succ l => simp [paddedRoot, h]

/-- A node holding a leaf below `n` hashes its two children. -/
theorem paddedRoot_succ_of_lt {leaf : Nat → α} {n l k : Nat} (h : k * 2 ^ (l + 1) < n) :
    paddedRoot hash empty leaf n (l + 1) k =
      hash (paddedRoot hash empty leaf n l (2 * k)) (paddedRoot hash empty leaf n l (2 * k + 1)) := by
  simp [paddedRoot, show ¬ n ≤ k * 2 ^ (l + 1) by omega]

/-- A subtree all of whose leaves are below `n` is perfect. -/
theorem paddedRoot_eq_perfectRoot {leaf : Nat → α} {n l k : Nat} (h : (k + 1) * 2 ^ l ≤ n) :
    paddedRoot hash empty leaf n l k = perfectRoot hash leaf l k := by
  induction l generalizing k with
  | zero =>
    simp only [Nat.pow_zero, Nat.mul_one] at h
    simp [paddedRoot, perfectRoot, show k < n by omega]
  | succ l ih =>
    obtain ⟨e1, e2, e3, e4⟩ := child_ranges k l
    have hpos := Nat.two_pow_pos l
    rw [paddedRoot_succ_of_lt (by omega), ih (by omega), ih (by omega), perfectRoot]

/-- The padded tree only reads the leaves below `n`. -/
theorem paddedRoot_congr {leaf leaf' : Nat → α} {n : Nat} (h : ∀ i, i < n → leaf i = leaf' i)
    (l k : Nat) : paddedRoot hash empty leaf n l k = paddedRoot hash empty leaf' n l k := by
  induction l generalizing k with
  | zero =>
    by_cases hk : k < n
    · simp [paddedRoot, hk, h k hk]
    · simp [paddedRoot, hk]
  | succ l ih => simp only [paddedRoot, ih]

theorem rootLevel_two_pow (l : Nat) : rootLevel (2 ^ l) = l := by
  apply Nat.le_antisymm
  · exact Nat.size_le.mpr (by have := Nat.two_pow_pos l; omega)
  · cases l with
    | zero => exact Nat.zero_le _
    | succ l =>
      apply Nat.lt_size.mpr
      rw [Nat.pow_succ]
      have := Nat.two_pow_pos l
      omega

/-- Off the powers of two, the root sits just above the highest bit of `n`. -/
theorem rootLevel_eq_size {n : Nat} (h0 : 0 < n) (hpow : ∀ l, n ≠ 2 ^ l) :
    rootLevel n = n.size := by
  have hlt := Nat.lt_size_self n
  have hpos : 0 < n.size := Nat.size_pos.mpr h0
  have hlow : 2 ^ (n.size - 1) ≤ n := Nat.lt_size.mp (by omega)
  have hne := hpow (n.size - 1)
  rw [rootLevel]
  apply Nat.le_antisymm (Nat.size_le_size (by omega))
  have : n.size - 1 < (n - 1).size := Nat.lt_size.mpr (by omega)
  omega

/-- The padded tree only reads the leaves below `n`. -/
theorem treeRoot_congr {leaf leaf' : Nat → α} {n : Nat} (h : ∀ i, i < n → leaf i = leaf' i) :
    treeRoot hash empty leaf n = treeRoot hash empty leaf' n := by
  simp only [treeRoot, paddedRoot_congr h]

/-! ## The right edge -/

/-- Climbing the right edge: the node on level `j + 1` that holds position `n`
hashes the perfect subtree on its left when bit `j` of `n` is set, and `empty`
on its right otherwise. -/
theorem paddedRoot_edge_succ {leaf : Nat → α} {n j : Nat} (h : n % 2 ^ (j + 1) ≠ 0) :
    paddedRoot hash empty leaf n (j + 1) (n / 2 ^ (j + 1)) =
      if n / 2 ^ j % 2 = 1 then
        hash (perfectRoot hash leaf j (n / 2 ^ j - 1)) (paddedRoot hash empty leaf n j (n / 2 ^ j))
      else hash (paddedRoot hash empty leaf n j (n / 2 ^ j)) empty := by
  have hdm := Nat.div_add_mod n (2 ^ (j + 1))
  have hlt : n / 2 ^ (j + 1) * 2 ^ (j + 1) < n := by
    rw [Nat.mul_comm]; omega
  have hq := Nat.div_add_mod (n / 2 ^ j) 2
  have hlow := Nat.div_mul_le_self n (2 ^ j)
  have hhigh := Nat.lt_div_mul_add (a := n) (Nat.two_pow_pos j)
  rw [paddedRoot_succ_of_lt hlt, div_two_pow_succ]
  split
  case isTrue hodd =>
    -- the left child is complete, the right one holds position `n`
    have hl : n / 2 ^ j - 1 = 2 * (n / 2 ^ j / 2) := by omega
    have hr : n / 2 ^ j = 2 * (n / 2 ^ j / 2) + 1 := by omega
    rw [hl, paddedRoot_eq_perfectRoot (by rw [← hr]; exact hlow), ← hr]
  case isFalse heven =>
    -- the left child holds position `n`, the right one is past it
    have hl : n / 2 ^ j = 2 * (n / 2 ^ j / 2) := by omega
    rw [← hl, paddedRoot_of_le (k := n / 2 ^ j + 1) (by rw [Nat.add_mul, Nat.one_mul]; omega)]

/-- Climbing the path of the last leaf `n - 1`: the node on level `j` is hashed
with the perfect subtree on its left when it is a right child, and with `empty`
on its right otherwise. -/
theorem paddedRoot_last_succ {leaf : Nat → α} {n j : Nat} (hn : 0 < n) :
    paddedRoot hash empty leaf n (j + 1) ((n - 1) / 2 ^ (j + 1)) =
      if (n - 1) / 2 ^ j % 2 = 1 then
        hash (perfectRoot hash leaf j ((n - 1) / 2 ^ j - 1))
          (paddedRoot hash empty leaf n j ((n - 1) / 2 ^ j))
      else hash (paddedRoot hash empty leaf n j ((n - 1) / 2 ^ j)) empty := by
  have hlow := Nat.div_mul_le_self (n - 1) (2 ^ j)
  have hhigh := Nat.lt_div_mul_add (a := n - 1) (Nat.two_pow_pos j)
  have hq := Nat.div_add_mod ((n - 1) / 2 ^ j) 2
  rw [div_two_pow_succ]
  generalize (n - 1) / 2 ^ j = x at hlow hhigh hq ⊢
  have hlt : x / 2 * 2 ^ (j + 1) < n := by
    have : x / 2 * 2 ^ (j + 1) ≤ x * 2 ^ j := by
      rw [show x / 2 * 2 ^ (j + 1) = 2 * (x / 2) * 2 ^ j by rw [Nat.pow_succ]; ring]
      exact Nat.mul_le_mul_right _ (by omega)
    omega
  rw [paddedRoot_succ_of_lt hlt]
  split
  case isTrue hodd =>
    -- the left sibling ends before the last leaf
    rw [show 2 * (x / 2) = x - 1 by omega, show x - 1 + 1 = x by omega,
      paddedRoot_eq_perfectRoot (by rw [show x - 1 + 1 = x by omega]; omega)]
  case isFalse heven =>
    -- the right sibling starts past the last leaf
    rw [show 2 * (x / 2) = x by omega,
      paddedRoot_of_le (k := x + 1) (by rw [Nat.add_mul, Nat.one_mul]; omega)]

/-! ## Checking a path -/

variable (hash) in
/-- One step up a Merkle path: the hash and index of a node and the hash of its
sibling give the hash and index of the parent. -/
def pathStep (acc : α × Nat) (sibling : α) : α × Nat :=
  (if acc.2 % 2 = 0 then hash acc.1 sibling else hash sibling acc.1, acc.2 / 2)

/-- The siblings of the path from leaf `i` up `L` levels, bottom up. -/
def pathSiblings (node : Nat → Nat → α) (i L : Nat) : List α :=
  (List.range L).map fun l => node l (siblingIndex (i / 2 ^ l))

/-- Folding the siblings of a path from leaf `i` reaches its ancestor `L` levels up,
provided the tree hashes its children at every node of the path. -/
theorem foldl_pathStep (node : Nat → Nat → α) (i L : Nat)
    (hnode : ∀ l < L, node (l + 1) (i / 2 ^ (l + 1)) =
      hash (node l (2 * (i / 2 ^ (l + 1)))) (node l (2 * (i / 2 ^ (l + 1)) + 1))) :
    (pathSiblings node i L).foldl (pathStep hash) (node 0 i, i) =
      (node L (i / 2 ^ L), i / 2 ^ L) := by
  induction L with
  | zero => simp [pathSiblings]
  | succ L ih =>
    rw [pathSiblings, List.range_succ, List.map_append, List.foldl_append, ← pathSiblings,
      ih (fun l hl => hnode l (by omega))]
    have hstep := hnode L (by omega)
    rw [div_two_pow_succ] at hstep ⊢
    simp only [List.map_cons, List.map_nil, List.foldl_cons, List.foldl_nil, pathStep, siblingIndex]
    generalize i / 2 ^ L = x at hstep ⊢
    rcases Nat.even_or_odd' x with ⟨q, rfl | rfl⟩
    · -- the path runs through a left child
      rw [show 2 * q / 2 = q by omega] at hstep ⊢
      simp [hstep]
    · -- the path runs through a right child
      rw [show (2 * q + 1) / 2 = q by omega] at hstep ⊢
      simp [hstep, show (2 * q + 1) % 2 = 1 by omega]

/-- The honest path of a leaf `i < n` of the padded tree folds up to its
ancestor `L` levels up. -/
theorem foldl_pathStep_paddedRoot (leaf : Nat → α) {n i : Nat} (hi : i < n) (L : Nat) :
    (pathSiblings (paddedRoot hash empty leaf n) i L).foldl (pathStep hash) (leaf i, i) =
      (paddedRoot hash empty leaf n L (i / 2 ^ L), i / 2 ^ L) := by
  have h0 : paddedRoot hash empty leaf n 0 i = leaf i := by simp [paddedRoot, hi]
  rw [← h0]
  apply foldl_pathStep
  intro l _
  apply paddedRoot_succ_of_lt
  calc i / 2 ^ (l + 1) * 2 ^ (l + 1) ≤ i := Nat.div_mul_le_self _ _
    _ < n := hi

/-- Up to the root level, the path of any leaf below `n` folds to the tree's root. -/
theorem foldl_pathStep_treeRoot (leaf : Nat → α) {n i : Nat} (hi : i < n) :
    (pathSiblings (paddedRoot hash empty leaf n) i (rootLevel n)).foldl (pathStep hash)
      (leaf i, i) = (treeRoot hash empty leaf n, 0) := by
  have hlt : i < 2 ^ rootLevel n := by
    have := Nat.lt_size_self (n - 1)
    rw [rootLevel]
    omega
  rw [foldl_pathStep_paddedRoot leaf hi, Nat.div_eq_of_lt hlt, treeRoot, if_neg (by omega)]

/-! ## Hashing a row pairwise -/

variable (hash) in
/-- Hash a row of nodes two at a time, left to right; an odd node out is
returned unpaired. -/
def pairRow : List α → List α × List α
  | a :: b :: rest => (hash a b :: (pairRow rest).1, (pairRow rest).2)
  | rest => ([], rest)

/-- The nodes of `level` with indices `a, a + 1, …, a + len - 1`. -/
def row (node : Nat → Nat → α) (level a len : Nat) : List α :=
  (List.range len).map fun i => node level (a + i)

@[simp] theorem length_row (node : Nat → Nat → α) (level a len : Nat) :
    (row node level a len).length = len := by
  simp [row]

theorem row_succ (node : Nat → Nat → α) (level a len : Nat) :
    row node level a (len + 1) = node level a :: row node level (a + 1) len := by
  simp only [row, List.range_succ_eq_map, List.map_cons, List.map_map, Nat.add_zero]
  congr 1
  apply List.map_congr_left
  intro i _
  simp only [Function.comp_apply]
  congr 1
  omega

/-- Pairing a row that starts at an even index yields the row one level up, and
the last node when the row has odd length. -/
theorem pairRow_row (node : Nat → Nat → α) (level a len : Nat)
    (hnode : ∀ x, a ≤ x → 2 * x + 1 < 2 * a + len →
      node (level + 1) x = hash (node level (2 * x)) (node level (2 * x + 1))) :
    pairRow hash (row node level (2 * a) len) =
      (row node (level + 1) a (len / 2),
        if len % 2 = 1 then [node level (2 * a + len - 1)] else []) := by
  induction len using Nat.strongRecOn generalizing a with
  | ind len ih =>
    match len with
    | 0 => simp [row, pairRow]
    | 1 => simp [row, pairRow]
    | len + 2 =>
      have hrest := ih len (by omega) (a + 1)
        (fun x hx hlt => hnode x (by omega) (by omega))
      rw [row_succ, row_succ, show 2 * a + 1 + 1 = 2 * (a + 1) by omega, pairRow, hrest,
        show (len + 2) / 2 = len / 2 + 1 by omega, row_succ, hnode a (le_refl a) (by omega),
        show (len + 2) % 2 = len % 2 by omega,
        show 2 * (a + 1) + len - 1 = 2 * a + (len + 2) - 1 by omega]

theorem row_concat (node : Nat → Nat → α) (level a len : Nat) :
    row node level a len ++ [node level (a + len)] = row node level a (len + 1) := by
  simp [row, List.range_succ]

/-! ## The siblings of a range -/

/-- The nodes left of the path of leaf `i` on the `d` levels from `l` up: on each
level where the ancestor of `i` is a right child, its left neighbour. -/
def leftRangeSiblings (node : Nat → Nat → α) (i l d : Nat) : List α :=
  ((List.range' l d).filter fun lv => i / 2 ^ lv % 2 = 1).map fun lv => node lv (i / 2 ^ lv - 1)

/-- The nodes right of the path of leaf `j` on the `d` levels from `l` up: on each
level where the ancestor of `j` is a left child, its right neighbour. -/
def rightRangeSiblings (node : Nat → Nat → α) (j l d : Nat) : List α :=
  ((List.range' l d).filter fun lv => j / 2 ^ lv % 2 = 0).map fun lv => node lv (j / 2 ^ lv + 1)

@[simp] theorem leftRangeSiblings_zero (node : Nat → Nat → α) (i l : Nat) :
    leftRangeSiblings node i l 0 = [] := rfl

@[simp] theorem rightRangeSiblings_zero (node : Nat → Nat → α) (j l : Nat) :
    rightRangeSiblings node j l 0 = [] := rfl

theorem leftRangeSiblings_succ (node : Nat → Nat → α) (i l d : Nat) :
    leftRangeSiblings node i l (d + 1) =
      (if i / 2 ^ l % 2 = 1 then [node l (i / 2 ^ l - 1)] else []) ++
        leftRangeSiblings node i (l + 1) d := by
  rw [leftRangeSiblings, List.range'_succ, List.filter_cons]
  by_cases h : i / 2 ^ l % 2 = 1 <;> simp [h, leftRangeSiblings]

theorem rightRangeSiblings_succ (node : Nat → Nat → α) (j l d : Nat) :
    rightRangeSiblings node j l (d + 1) =
      (if j / 2 ^ l % 2 = 0 then [node l (j / 2 ^ l + 1)] else []) ++
        rightRangeSiblings node j (l + 1) d := by
  rw [rightRangeSiblings, List.range'_succ, List.filter_cons]
  by_cases h : j / 2 ^ l % 2 = 0 <;> simp [h, rightRangeSiblings]

end AptosCore.MerkleTree
