import AptosCore.Accumulator.InMemory

/-!
# The accumulator in storage

`MerkleAccumulatorView` (storage/accumulator/src/lib.rs) reads the frozen
nodes of an accumulator through a `HashReader` and computes the rest. `append`
returns the new root hash and the nodes the new leaves freeze, in post-order;
`get_hash` reads a frozen node, returns the placeholder for a node without a
leaf and hashes the children of any other node. The reader is a parameter, as
the view is generic over `R: HashReader`; the tests' `MockHashStore` is one.

The second half proves that `append` is the in-memory accumulator's append
over a store holding the frozen nodes: the stack of left siblings is the part
of the frontier that is not yet in the store (`pendingNodes`), each new leaf
writes the nodes it completes (`completedNodes`), and the root is reached
along the path of the last leaf. Batch after batch, the store then holds
exactly the frozen nodes (`appendMany_refines_fromLeaves`).
-/

namespace AptosCore

open Word MerkleTree Position

/-- `MockHashStore`: the tests' hash map from positions to hashes. -/
structure MockHashStore (α : Type) where
  store : Position → Option α

namespace MockHashStore

variable {α : Type}

/-- `MockHashStore::new`. -/
def empty : MockHashStore α := ⟨fun _ => none⟩

/-- `HashReader::get` of the mock store. -/
def get (s : MockHashStore α) (position : Position) : Except (AccumulatorError α) α :=
  match s.store position with
  | some h => .ok h
  | none => .error (.absent position)

/-- `HashMap::insert`. -/
def insert (s : MockHashStore α) (position : Position) (h : α) : MockHashStore α :=
  ⟨fun p => if p = position then some h else s.store p⟩

/-- `MockHashStore::put_many`: `HashMap::extend`, inserting the writes in order. -/
def putMany (s : MockHashStore α) (writes : List (Position × α)) : MockHashStore α :=
  writes.foldl (fun s w => s.insert w.1 w.2) s

theorem get_eq_ok {s : MockHashStore α} {p : Position} {h : α} (hp : s.store p = some h) :
    s.get p = .ok h := by
  simp [get, hp]

/-- Writes that each carry the hash `f` gives their position: afterwards the store
has `f p` at every written position and is unchanged elsewhere. -/
theorem putMany_store {s : MockHashStore α} {writes : List (Position × α)} {f : Position → α}
    (hw : ∀ w ∈ writes, w.2 = f w.1) (p : Position) :
    (s.putMany writes).store p = if p ∈ writes.map Prod.fst then some (f p) else s.store p := by
  induction writes generalizing s with
  | nil => simp [putMany]
  | cons w writes ih =>
    have hrest := ih (s := s.insert w.1 w.2) (fun v hv => hw v (List.mem_cons_of_mem _ hv))
    rw [putMany, List.foldl_cons, ← putMany, hrest]
    have hw0 := hw w List.mem_cons_self
    by_cases hp : p = w.1
    · subst hp
      simp [insert, hw0]
    · have hmem : p ∈ (w :: writes).map Prod.fst ↔ p ∈ writes.map Prod.fst := by simp [hp]
      by_cases hm : p ∈ writes.map Prod.fst
      · rw [if_pos hm, if_pos (hmem.mpr hm)]
      · rw [if_neg hm, if_neg (fun h => hm (hmem.mp h))]
        simp [insert, hp]

end MockHashStore

namespace MerkleAccumulatorView

section Model

variable {α : Type} (hash : α → α → α) (placeholder : α)
  (reader : Position → Except (AccumulatorError α) α)

/-- The left sibling's hash where `append` pairs a right child: the top of
`left_siblings`, which must be the sibling (`assert_eq!(x, sibling)`), or, when
the stack is empty, the sibling read from storage. -/
def leftSiblingHash (sibling : Position) (leftSiblings : List (Position × α)) :
    Except (AccumulatorError α) (α × List (Position × α)) :=
  match leftSiblings.getLast? with
  | some (x, leftHash) =>
    if x = sibling then .ok (leftHash, leftSiblings.dropLast)
    else .error (.panic "assertion failed: left == right")
  | none => do
    let leftHash ← reader sibling
    .ok (leftHash, leftSiblings)

/-- The `while pos.is_right_child()` loop of `append` for one leaf: climb while
the node is a right child, freezing each parent. `fuel` bounds the rounds; each
round climbs a level, and a position has at most 64 levels above it. -/
def appendClimb : Nat → Position → α → List (Position × α) → List (Position × α) →
    Except (AccumulatorError α) (Position × α × List (Position × α) × List (Position × α))
  | 0, pos, h, toFreeze, leftSiblings => .ok (pos, h, toFreeze, leftSiblings)
  | fuel + 1, pos, h, toFreeze, leftSiblings =>
    if pos.isRightChild then do
      let (leftHash, leftSiblings) ← leftSiblingHash reader pos.sibling leftSiblings
      let h := hash leftHash h
      appendClimb fuel pos.parent h (toFreeze ++ [(pos.parent, h)]) leftSiblings
    else .ok (pos, h, toFreeze, leftSiblings)

/-- The `for (leaf_offset, leaf) in new_leaves.iter().enumerate()` loop of `append`. -/
def appendLeafLoop (numLeaves : Nat) : Nat → List α → List (Position × α) →
    List (Position × α) → Except (AccumulatorError α) (List (Position × α) × List (Position × α))
  | _, [], toFreeze, leftSiblings => .ok (toFreeze, leftSiblings)
  | leafOffset, leaf :: rest, toFreeze, leftSiblings => do
    let leafPos := fromLeafIndex (numLeaves + leafOffset)
    let (pos, h, toFreeze, leftSiblings) ←
      appendClimb hash reader 64 leafPos leaf (toFreeze ++ [(leafPos, leaf)]) leftSiblings
    -- the node remaining is a left child, possibly the root of a complete tree
    appendLeafLoop numLeaves (leafOffset + 1) rest toFreeze (leftSiblings ++ [(pos, h)])

/-- The `for _ in pos.level()..root_level` loop of `append`: placeholders on the
right, left siblings from the stack or from storage on the left. -/
def appendRootLoop : Nat → Position → α → List (Position × α) →
    Except (AccumulatorError α) (α × List (Position × α))
  | 0, _, h, leftSiblings => .ok (h, leftSiblings)
  | n + 1, pos, h, leftSiblings =>
    if pos.isLeftChild then appendRootLoop n pos.parent (hash h placeholder) leftSiblings
    else do
      let (leftHash, leftSiblings) ← leftSiblingHash reader pos.sibling leftSiblings
      appendRootLoop n pos.parent (hash leftHash h) leftSiblings

/-- The recursion of `get_hash`, one level a call; `fuel` runs out only where
the source recurses without end. -/
def getHashAux (numLeaves : Nat) : Nat → Position → Except (AccumulatorError α) α
  | 0, _ => .error (.panic "stack overflow")
  | fuel + 1, position =>
    -- `rightmost_leaf_index`: `(self.num_leaves - 1) as u64`
    if numLeaves = 0 then .error (.panic "attempt to subtract with overflow")
    else
      let idx := numLeaves - 1
      if position.isPlaceholder idx then .ok placeholder
      else if position.isFreezable idx then reader position
      else do
        -- a node that is neither frozen nor a placeholder
        let left ← getHashAux numLeaves fuel position.leftChild
        let right ← getHashAux numLeaves fuel position.rightChild
        .ok (hash left right)

/-- `MerkleAccumulatorView::get_hash`. -/
def getHash (numLeaves : Nat) (position : Position) : Except (AccumulatorError α) α :=
  getHashAux hash placeholder reader numLeaves (position.level + 1) position

/-- `MerkleAccumulatorView::get_root_hash`. -/
def getRootHash (numLeaves : Nat) : Except (AccumulatorError α) α :=
  match rootFromLeafCount numLeaves with
  | some root => getHash hash placeholder reader numLeaves root
  | none => .error (.panic "assertion failed: leaf_count > 0")

/-- `MerkleAccumulatorView::append`: the new root hash and the frozen nodes to write. -/
def append (numLeaves : Nat) (newLeaves : List α) :
    Except (AccumulatorError α) (α × List (Position × α)) :=
  if newLeaves.isEmpty then
    if numLeaves = 0 then .ok (placeholder, [])
    else do
      -- `self.get_hash(Position::root_from_leaf_count(self.num_leaves))`
      let rootHash ← getRootHash hash placeholder reader numLeaves
      .ok (rootHash, [])
  else
    match rootLevelFromLeafCount (numLeaves + newLeaves.length) with
    | none => .error (.panic "assertion failed: leaf_count > 0")
    | some rootLevel => do
      let (toFreeze, leftSiblings) ← appendLeafLoop hash reader numLeaves 0 newLeaves [] []
      let (leftSiblings, (pos, h)) ← popExpect leftSiblings "Must have at least one node"
      let (h, leftSiblings) ←
        appendRootLoop hash placeholder reader (rootLevel - pos.level) pos h leftSiblings
      if leftSiblings.isEmpty then .ok (h, toFreeze)
      else .error (.panic "assertion failed: left_siblings.is_empty()")

end Model

end MerkleAccumulatorView

section Batches

variable {α : Type} (hash : α → α → α) (placeholder : α)

/-- The loop of `test_append_many_impl`: append each batch to the store at the
current number of leaves and write the nodes it returns. Each batch gives the
root hash `append` returned and the store after the writes. -/
def appendMany (store : MockHashStore α) (numLeaves : Nat) :
    List (List α) → Except (AccumulatorError α) (List (α × MockHashStore α))
  | [] => .ok []
  | hashes :: rest => do
    let (rootHash, writes) ←
      MerkleAccumulatorView.append hash placeholder store.get numLeaves hashes
    let store := store.putMany writes
    let results ← appendMany store (numLeaves + hashes.length) rest
    .ok ((rootHash, store) :: results)

end Batches

/-! ## The stack of `append` and the nodes it writes -/

namespace MerkleAccumulatorView

section Refinement

variable {α : Type} {hash : α → α → α} {placeholder : α}

variable (hash) in
/-- The hash of the node at `p` in the tree over `leaf`: the perfect subtree of
its level and index. -/
def nodeHash (leaf : Nat → α) (p : Position) : α :=
  perfectRoot hash leaf p.level (p.val >>> (p.level + 1))

theorem nodeHash_fromLevelAndPos (leaf : Nat → α) {l k : Nat} (hb : (k + 1) * 2 ^ l ≤ 2 ^ 63) :
    nodeHash hash leaf (fromLevelAndPos l k) = perfectRoot hash leaf l k := by
  rw [nodeHash, level_fromLevelAndPos hb, fromLevelAndPos_val hb, inorderIndex_shiftRight]

variable (hash) in
/-- The frozen subtrees over the first `m` leaves that are not complete over the
first `c₀`, as positions with their hashes: the stack of left siblings of
`append` on a store that holds the first `c₀` leaves. -/
def pendingNodes (leaf : Nat → α) (c₀ m : Nat) : List (Position × α) :=
  ((frozenSubtrees m).filter fun p => c₀ < (p.2 + 1) * 2 ^ p.1).map
    fun p => (fromLevelAndPos p.1 p.2, perfectRoot hash leaf p.1 p.2)

variable (hash) in
/-- The node on level `i` above leaf `c`, with its hash. -/
def pathNode (leaf : Nat → α) (c i : Nat) : Position × α :=
  (fromLevelAndPos i (c / 2 ^ i), perfectRoot hash leaf i (c / 2 ^ i))

variable (hash) in
/-- The nodes leaf `c` completes: the leaf and its first `trailingOnes c` ancestors. -/
def completedNodes (leaf : Nat → α) (c : Nat) : List (Position × α) :=
  (List.range (trailingOnes c + 1)).map (pathNode hash leaf c)

variable (hash) in
/-- The nodes the leaves `c₀, …, c₀ + m - 1` complete, in the order `append` writes them. -/
def writesFrom (leaf : Nat → α) (c₀ : Nat) : Nat → List (Position × α)
  | 0 => []
  | m + 1 => writesFrom leaf c₀ m ++ completedNodes hash leaf (c₀ + m)

variable (hash) in
/-- The reader returns every node complete over the first `n` leaves. -/
def Stored (reader : Position → Except (AccumulatorError α) α) (leaf : Nat → α) (n : Nat) :
    Prop :=
  ∀ l k, (k + 1) * 2 ^ l ≤ n → reader (fromLevelAndPos l k) = .ok (perfectRoot hash leaf l k)

theorem pendingNodes_of_le (leaf : Nat → α) {c₀ m : Nat} (h : m ≤ c₀) :
    pendingNodes hash leaf c₀ m = [] := by
  rw [pendingNodes, List.map_eq_nil_iff, List.filter_eq_nil_iff]
  rintro ⟨l, k⟩ hmem
  have := fits_of_mem_frozenSubtrees hmem
  simp only [decide_eq_true_eq, not_lt]
  omega

/-- An aligned block of `2 ^ j` more leaves adds its root to the stack unless
the store already holds it. -/
theorem pendingNodes_add_two_pow (leaf : Nat → α) {c₀ n j : Nat} (hn : 2 ^ (j + 1) ∣ n) :
    pendingNodes hash leaf c₀ (n + 2 ^ j) = pendingNodes hash leaf c₀ n ++
      if c₀ < (n / 2 ^ j + 1) * 2 ^ j then
        [(fromLevelAndPos j (n / 2 ^ j), perfectRoot hash leaf j (n / 2 ^ j))]
      else [] := by
  rw [pendingNodes, frozenSubtrees_add_two_pow hn, List.filter_append, List.map_append,
    ← pendingNodes]
  split
  case isTrue hc => simp [hc]
  case isFalse hc => simp [hc]

/-- After leaf `c` the stack ends with the node that leaf `c` completes last. -/
theorem pendingNodes_succ (leaf : Nat → α) {c₀ c : Nat} (hc : c₀ ≤ c) :
    pendingNodes hash leaf c₀ (c + 1) =
      pendingNodes hash leaf c₀ (2 ^ trailingOnes c * (c / 2 ^ trailingOnes c)) ++
        [pathNode hash leaf c (trailingOnes c)] := by
  have hsum := two_pow_mul_div_of_le_trailingOnes (le_refl (trailingOnes c))
  have heven := div_two_pow_trailingOnes c
  have hdvd : 2 ^ (trailingOnes c + 1) ∣ 2 ^ trailingOnes c * (c / 2 ^ trailingOnes c) :=
    ⟨c / 2 ^ (trailingOnes c + 1), by rw [heven, Nat.pow_succ]; ring⟩
  have hstep := @pendingNodes_add_two_pow α hash leaf c₀ _ _ hdvd
  rw [hsum, Nat.mul_div_cancel_left _ (Nat.two_pow_pos _)] at hstep
  rw [hstep, if_pos (by rw [Nat.add_mul, Nat.one_mul, Nat.mul_comm]; omega), pathNode]

/-- The left sibling of a right child on the path: the stack's top when the
store does not hold it yet, and otherwise read from the store, the stack
then being empty. -/
theorem leftSiblingHash_pending {reader : Position → Except (AccumulatorError α) α}
    {leaf : Nat → α} {c₀ : Nat} (hS : Stored hash reader leaf c₀) {j x : Nat} (hx : x % 2 = 1) :
    leftSiblingHash reader (fromLevelAndPos j (x - 1)) (pendingNodes hash leaf c₀ (2 ^ j * x)) =
      .ok (perfectRoot hash leaf j (x - 1), pendingNodes hash leaf c₀ (2 ^ (j + 1) * (x / 2))) := by
  have hsplit : 2 ^ j * x = 2 ^ (j + 1) * (x / 2) + 2 ^ j := by
    obtain ⟨q, rfl⟩ : ∃ q, x = 2 * q + 1 := ⟨x / 2, by omega⟩
    rw [show (2 * q + 1) / 2 = q by omega, Nat.pow_succ]
    ring
  have hidx : 2 ^ (j + 1) * (x / 2) / 2 ^ j = x - 1 := by
    rw [two_pow_succ_mul_div]; omega
  rw [hsplit, pendingNodes_add_two_pow leaf (Dvd.intro _ rfl), hidx,
    show x - 1 + 1 = x by omega]
  split
  case isTrue hc =>
    -- the sibling was completed by this batch: it is the top of the stack
    simp [leftSiblingHash]
  case isFalse hc =>
    -- the sibling is in the store, and so is everything left of it
    have hnil := @pendingNodes_of_le α hash leaf c₀ (2 ^ (j + 1) * (x / 2))
      (by rw [show 2 ^ (j + 1) * (x / 2) = (x - 1) * 2 ^ j by rw [Nat.pow_succ]; rw [show x - 1 = 2 * (x / 2) by omega]; ring]
          have := Nat.mul_le_mul_right (2 ^ j) (show x - 1 ≤ x by omega)
          omega)
    rw [hnil, List.append_nil]
    simp [leftSiblingHash, hS j (x - 1) (by rw [show x - 1 + 1 = x by omega]; omega), bind,
      Except.bind]

/-- The climb of `append` for leaf `c`, from level `j` on: while `j` is below
the trailing ones of `c` the node above `c` is a right child, and each round
takes its left sibling, freezes the parent and pops the sibling off the stack. -/
theorem appendClimb_run {reader : Position → Except (AccumulatorError α) α} {leaf : Nat → α}
    {c₀ c : Nat} (hS : Stored hash reader leaf c₀) (hc : c + 1 ≤ 2 ^ 63) :
    ∀ d j fuel (W : List (Position × α)), trailingOnes c = j + d → d < fuel →
      appendClimb hash reader fuel (fromLevelAndPos j (c / 2 ^ j))
          (perfectRoot hash leaf j (c / 2 ^ j)) (W ++ (List.range (j + 1)).map (pathNode hash leaf c))
          (pendingNodes hash leaf c₀ (2 ^ j * (c / 2 ^ j))) =
        .ok (fromLevelAndPos (trailingOnes c) (c / 2 ^ trailingOnes c),
          perfectRoot hash leaf (trailingOnes c) (c / 2 ^ trailingOnes c),
          W ++ completedNodes hash leaf c,
          pendingNodes hash leaf c₀ (2 ^ trailingOnes c * (c / 2 ^ trailingOnes c))) := by
  intro d
  induction d with
  | zero =>
    intro j fuel W hj hfuel
    obtain rfl : j = trailingOnes c := by omega
    obtain ⟨f, rfl⟩ : ∃ f, fuel = f + 1 := ⟨fuel - 1, by omega⟩
    have hsum := two_pow_mul_div_of_le_trailingOnes (le_refl (trailingOnes c))
    have hb : (c / 2 ^ trailingOnes c + 1) * 2 ^ trailingOnes c ≤ 2 ^ 63 := by
      rw [Nat.add_mul, Nat.one_mul, Nat.mul_comm]; omega
    -- the node on the level of the lowest zero bit of `c` is a left child
    have heven := div_two_pow_trailingOnes c
    rw [appendClimb, isRightChild_fromLevelAndPos hb, if_neg (by simp; omega)]
    rfl
  | succ d ih =>
    intro j fuel W hj hfuel
    obtain ⟨f, rfl⟩ : ∃ f, fuel = f + 1 := ⟨fuel - 1, by omega⟩
    have hlt : j < trailingOnes c := by omega
    have hq := div_two_pow_of_lt_trailingOnes hlt
    have hsum := two_pow_mul_div_of_le_trailingOnes (Nat.le_of_lt hlt)
    have hb : (c / 2 ^ j + 1) * 2 ^ j ≤ 2 ^ 63 := by
      rw [Nat.add_mul, Nat.one_mul, Nat.mul_comm]; omega
    have h63 : j < 63 := by
      have := trailingOnes_lt (w := 64) (n := c) (by omega)
      omega
    have hodd : c / 2 ^ j % 2 = 1 := by omega
    -- the left sibling `2q` and the node `2q + 1` hash to their parent `q`
    have hpair : hash (perfectRoot hash leaf j (c / 2 ^ j - 1)) (perfectRoot hash leaf j (c / 2 ^ j)) =
        perfectRoot hash leaf (j + 1) (c / 2 ^ (j + 1)) := by
      rw [hq, show 2 * (c / 2 ^ (j + 1)) + 1 - 1 = 2 * (c / 2 ^ (j + 1)) by omega, perfectRoot]
    have hnext := ih (j + 1) f W (by omega) (by omega)
    rw [List.range_succ, List.map_append, ← List.append_assoc] at hnext
    rw [appendClimb, isRightChild_fromLevelAndPos hb, if_pos (by simp [hodd]),
      sibling_fromLevelAndPos hb h63, parent_fromLevelAndPos hb h63,
      show siblingIndex (c / 2 ^ j) = c / 2 ^ j - 1 by simp [siblingIndex, hodd],
      ← div_two_pow_succ]
    simp only [leftSiblingHash_pending hS hodd, bind, Except.bind, hpair, ← div_two_pow_succ]
    exact hnext

/-- The leaf loop of `append`: each leaf writes the nodes it completes and
leaves the stack as the pending part of the new frontier. -/
theorem appendLeafLoop_run {reader : Position → Except (AccumulatorError α) α} {leaf : Nat → α}
    {c₀ : Nat} (hS : Stored hash reader leaf c₀) :
    ∀ (rest : List α) (off : Nat), c₀ + off + rest.length ≤ 2 ^ 63 →
      (∀ i (hi : i < rest.length), leaf (c₀ + off + i) = rest[i]) →
      appendLeafLoop hash reader c₀ off rest (writesFrom hash leaf c₀ off)
          (pendingNodes hash leaf c₀ (c₀ + off)) =
        .ok (writesFrom hash leaf c₀ (off + rest.length),
          pendingNodes hash leaf c₀ (c₀ + off + rest.length)) := by
  intro rest
  induction rest with
  | nil => intro off _ _; rfl
  | cons x rest ih =>
    intro off hlen hleaf
    simp only [List.length_cons] at hlen
    have hx : leaf (c₀ + off) = x := by
      have h0 := hleaf 0 (by simp)
      rw [Nat.add_zero] at h0
      exact h0
    -- the leaf is the node on level 0 above itself, and starts the climb
    have hclimb := appendClimb_run hS (c := c₀ + off) (by omega) (trailingOnes (c₀ + off)) 0 64
      (writesFrom hash leaf c₀ off) (by omega)
      (by have := trailingOnes_lt (w := 64) (n := c₀ + off) (by omega); omega)
    simp only [Nat.zero_add, List.range_one, List.map_cons, List.map_nil, pathNode, Nat.pow_zero,
      Nat.div_one, Nat.one_mul, perfectRoot, hx] at hclimb
    have hrest := ih (off + 1) (by omega) (fun i hi => by
      have hi' := hleaf (i + 1) (by simp; omega)
      rw [show c₀ + off + (i + 1) = c₀ + (off + 1) + i by omega] at hi'
      exact hi')
    -- the node the climb stops at goes on the stack
    have hpend := @pendingNodes_succ α hash leaf c₀ (c₀ + off) (by omega)
    rw [show c₀ + (off + 1) = c₀ + off + 1 by omega, hpend,
      show writesFrom hash leaf c₀ (off + 1) =
        writesFrom hash leaf c₀ off ++ completedNodes hash leaf (c₀ + off) from rfl] at hrest
    simp only [pathNode] at hrest
    simp only [appendLeafLoop, fromLeafIndex, hclimb, bind, Except.bind, List.length_cons]
    rw [show off + (rest.length + 1) = off + 1 + rest.length by omega,
      show c₀ + off + (rest.length + 1) = c₀ + off + 1 + rest.length by omega]
    exact hrest

/-- The root loop of `append`, from level `j` on: it climbs the path of the
last leaf `N - 1`, with the placeholder on the right of a left child and the
left sibling, from the stack or from the store, on the left of a right child. -/
theorem appendRootLoop_run {reader : Position → Except (AccumulatorError α) α} {leaf : Nat → α}
    {c₀ N : Nat} (hS : Stored hash reader leaf c₀) (hN : 0 < N) (hN63 : N ≤ 2 ^ 63) :
    ∀ d j, rootLevel N = j + d →
      appendRootLoop hash placeholder reader d (fromLevelAndPos j ((N - 1) / 2 ^ j))
          (paddedRoot hash placeholder leaf N j ((N - 1) / 2 ^ j))
          (pendingNodes hash leaf c₀ (2 ^ j * ((N - 1) / 2 ^ j))) =
        .ok (treeRoot hash placeholder leaf N, []) := by
  intro d
  induction d with
  | zero =>
    intro j hj
    -- on the root level the path has reached node 0 and the stack is empty
    have hlt : N - 1 < 2 ^ j := by
      rw [Nat.add_zero, rootLevel] at hj
      rw [← hj]
      exact Nat.lt_size_self _
    rw [Nat.div_eq_of_lt hlt, Nat.mul_zero, pendingNodes_of_le leaf (Nat.zero_le _), appendRootLoop,
      treeRoot, if_neg (by omega), hj, Nat.add_zero]
  | succ d ih =>
    intro j hj
    have hR : rootLevel N ≤ 63 := Nat.size_le.mpr (by omega)
    have hxlow := Nat.div_mul_le_self (N - 1) (2 ^ j)
    have hb : ((N - 1) / 2 ^ j + 1) * 2 ^ j ≤ 2 ^ 63 := succ_mul_le_of_mul_lt (by omega) (by omega)
    have h63 : j < 63 := by omega
    have hstep := @paddedRoot_last_succ α hash placeholder leaf _ j hN
    have hnext := ih (j + 1) (by omega)
    rw [div_two_pow_succ] at hstep hnext
    rw [appendRootLoop, isLeftChild_fromLevelAndPos hb, parent_fromLevelAndPos hb h63]
    rcases Nat.mod_two_eq_zero_or_one ((N - 1) / 2 ^ j) with heven | hodd
    · -- a left child: the placeholder is its right sibling
      rw [if_neg (by omega)] at hstep
      rw [if_pos (by simp [heven]), ← hstep, two_pow_mul_of_even heven]
      exact hnext
    · -- a right child: its left sibling is complete
      rw [if_pos hodd] at hstep
      rw [if_neg (by simp [hodd]), sibling_fromLevelAndPos hb h63,
        show siblingIndex ((N - 1) / 2 ^ j) = (N - 1) / 2 ^ j - 1 by simp [siblingIndex, hodd]]
      simp only [leftSiblingHash_pending hS hodd, bind, Except.bind, ← hstep]
      exact hnext

/-- `get_hash` of a node within `MAX_ACCUMULATOR_LEAVES` is its padded root:
the placeholder past the leaves, a read for a complete node, and the hash of
the children for any other. -/
theorem getHashAux_eq {reader : Position → Except (AccumulatorError α) α} {leaf : Nat → α}
    {n : Nat} (hS : Stored hash reader leaf n) (h0 : 0 < n) (hn : n ≤ 2 ^ 63) :
    ∀ l k, (k + 1) * 2 ^ l ≤ 2 ^ 63 →
      getHashAux hash placeholder reader n (l + 1) (fromLevelAndPos l k) =
        .ok (paddedRoot hash placeholder leaf n l k) := by
  intro l
  induction l with
  | zero =>
    intro k hb
    rw [getHashAux, if_neg (by omega)]
    dsimp only
    rw [isPlaceholder_fromLevelAndPos hb (i := n - 1) (by omega),
      isFreezable_fromLevelAndPos hb (i := n - 1) (by omega)]
    by_cases hk : k < n
    · -- a leaf: frozen
      have hread := hS 0 k (by simp; omega)
      simp [show ¬ n - 1 < k by omega, show k + 1 ≤ n - 1 + 1 by omega, hread, paddedRoot, hk,
        perfectRoot]
    · -- past the leaves: a placeholder
      simp [show n - 1 < k by omega, paddedRoot, hk]
  | succ l ih =>
    intro k hb
    obtain ⟨e1, e2, e3, e4⟩ := child_ranges k l
    rw [getHashAux, if_neg (by omega)]
    dsimp only
    rw [isPlaceholder_fromLevelAndPos hb (i := n - 1) (by omega),
      isFreezable_fromLevelAndPos hb (i := n - 1) (by omega)]
    by_cases hp : n ≤ k * 2 ^ (l + 1)
    · -- no leaf below: a placeholder
      rw [if_pos (by simp; omega), paddedRoot_of_le hp]
    · by_cases hf : (k + 1) * 2 ^ (l + 1) ≤ n
      · -- all leaves below: frozen
        rw [if_neg (by simp; omega), if_pos (by simp; omega), hS (l + 1) k hf,
          paddedRoot_eq_perfectRoot hf]
      · -- some leaves below: the hash of the children
        rw [if_neg (by simp; omega), if_neg (by simp; omega), leftChild_fromLevelAndPos hb,
          rightChild_fromLevelAndPos hb, ih (2 * k) (by omega), ih (2 * k + 1) (by omega),
          paddedRoot_succ_of_lt (by omega)]
        rfl

theorem getHash_eq {reader : Position → Except (AccumulatorError α) α} {leaf : Nat → α}
    {n l k : Nat} (hS : Stored hash reader leaf n) (h0 : 0 < n) (hn : n ≤ 2 ^ 63)
    (hb : (k + 1) * 2 ^ l ≤ 2 ^ 63) :
    getHash hash placeholder reader n (fromLevelAndPos l k) =
      .ok (paddedRoot hash placeholder leaf n l k) := by
  rw [getHash, level_fromLevelAndPos hb, getHashAux_eq hS h0 hn l k hb]

/-- `get_root_hash` of a store holding the frozen nodes is the padded tree's root. -/
theorem getRootHash_eq {reader : Position → Except (AccumulatorError α) α} {leaf : Nat → α}
    {n : Nat} (hS : Stored hash reader leaf n) (h0 : 0 < n) (hn : n ≤ 2 ^ 63) :
    getRootHash hash placeholder reader n = .ok (treeRoot hash placeholder leaf n) := by
  have hsize : (n - 1).size ≤ 63 := Nat.size_le.mpr (by omega)
  have hb : (0 + 1) * 2 ^ (n - 1).size ≤ 2 ^ 63 := by
    rw [Nat.zero_add, Nat.one_mul]; exact Nat.pow_le_pow_right (by decide) hsize
  rw [getRootHash, rootFromLeafCount_eq h0 hn]
  dsimp only
  rw [getHash_eq hS h0 hn hb, treeRoot, if_neg (by omega), rootLevel]

/-- `append` of a non-empty batch to a store holding the frozen nodes over
`c₀` leaves: the new root hash and the nodes the batch completes. -/
theorem append_run {reader : Position → Except (AccumulatorError α) α} {leaf : Nat → α}
    {c₀ : Nat} (hS : Stored hash reader leaf c₀) {B : List α} (hB : B ≠ [])
    (hN : c₀ + B.length ≤ 2 ^ 63) (hleaf : ∀ i (hi : i < B.length), leaf (c₀ + i) = B[i]) :
    append hash placeholder reader c₀ B =
      .ok (treeRoot hash placeholder leaf (c₀ + B.length), writesFrom hash leaf c₀ B.length) := by
  have hpos : 0 < B.length := List.length_pos_iff.mpr hB
  have hloop := appendLeafLoop_run hS B 0 (by simpa using hN) (by simpa using hleaf)
  rw [Nat.add_zero, pendingNodes_of_le leaf (le_refl c₀), Nat.zero_add,
    show writesFrom hash leaf c₀ 0 = [] from rfl] at hloop
  -- the stack ends with the last frozen subtree, on the level of the lowest set bit
  have hpend := @pendingNodes_succ α hash leaf c₀ (c₀ + B.length - 1) (by omega)
  rw [show c₀ + B.length - 1 + 1 = c₀ + B.length by omega] at hpend
  have hsum := two_pow_mul_div_of_le_trailingOnes (le_refl (trailingOnes (c₀ + B.length - 1)))
  have hb : ((c₀ + B.length - 1) / 2 ^ trailingOnes (c₀ + B.length - 1) + 1) *
      2 ^ trailingOnes (c₀ + B.length - 1) ≤ 2 ^ 63 := by
    rw [Nat.add_mul, Nat.one_mul, Nat.mul_comm]; omega
  have hcomplete : ((c₀ + B.length - 1) / 2 ^ trailingOnes (c₀ + B.length - 1) + 1) *
      2 ^ trailingOnes (c₀ + B.length - 1) ≤ c₀ + B.length := by
    rw [Nat.add_mul, Nat.one_mul, Nat.mul_comm]; omega
  have hlevel : trailingOnes (c₀ + B.length - 1) ≤ rootLevel (c₀ + B.length) := by
    have hle : 2 ^ trailingOnes (c₀ + B.length - 1) - 1 ≤ c₀ + B.length - 1 := by omega
    have := Nat.size_le_size hle
    rwa [← rootLevel, rootLevel_two_pow] at this
  have hroot := @appendRootLoop_run α hash placeholder _ _ _ (c₀ + B.length) hS (by omega)
    hN (rootLevel (c₀ + B.length) - trailingOnes (c₀ + B.length - 1))
    (trailingOnes (c₀ + B.length - 1)) (by omega)
  rw [paddedRoot_eq_perfectRoot hcomplete, rootLevel] at hroot
  simp only [pathNode] at hpend
  rw [append, if_neg (by simpa using hB),
    rootLevelFromLeafCount_eq (by omega) hN]
  simp only [hloop, hpend, popExpect_concat, bind, Except.bind, level_fromLevelAndPos hb, hroot,
    List.isEmpty_nil, ite_true]

/-- `append` of no leaf returns the root hash and writes nothing. -/
theorem append_nil {reader : Position → Except (AccumulatorError α) α} {leaf : Nat → α}
    {c₀ : Nat} (hS : Stored hash reader leaf c₀) (hN : c₀ ≤ 2 ^ 63) :
    append hash placeholder reader c₀ [] = .ok (treeRoot hash placeholder leaf c₀, []) := by
  by_cases h0 : c₀ = 0
  · subst h0
    simp [append, treeRoot]
  · simp [append, h0, getRootHash_eq hS (by omega) hN, bind, Except.bind]

/-! ## The store over a run of batches -/

theorem mem_completedNodes {leaf : Nat → α} {c : Nat} {p : Position} :
    p ∈ (completedNodes hash leaf c).map Prod.fst ↔
      ∃ l k, p = fromLevelAndPos l k ∧ (k + 1) * 2 ^ l = c + 1 := by
  simp only [completedNodes, List.map_map, List.mem_map, List.mem_range, Function.comp_apply,
    pathNode]
  constructor
  · rintro ⟨i, hi, rfl⟩
    have hsum := two_pow_mul_div_of_le_trailingOnes (show i ≤ trailingOnes c by omega)
    exact ⟨i, c / 2 ^ i, rfl, by rw [Nat.add_mul, Nat.one_mul, Nat.mul_comm]; omega⟩
  · rintro ⟨l, k, rfl, hlk⟩
    obtain ⟨hl, hk⟩ := le_trailingOnes_of_mul_eq hlk
    exact ⟨l, by omega, by rw [hk]⟩

/-- The positions `append` writes for the leaves `c₀, …, c₀ + m - 1` are the
nodes complete over `c₀ + m` leaves but not over `c₀`. -/
theorem mem_writesFrom {leaf : Nat → α} {c₀ : Nat} {p : Position} (m : Nat) :
    p ∈ (writesFrom hash leaf c₀ m).map Prod.fst ↔
      ∃ l k, p = fromLevelAndPos l k ∧ c₀ < (k + 1) * 2 ^ l ∧ (k + 1) * 2 ^ l ≤ c₀ + m := by
  induction m with
  | zero =>
    simp only [writesFrom, List.map_nil, List.not_mem_nil, false_iff, not_exists, not_and]
    intro l k _ hlt
    omega
  | succ m ih =>
    rw [writesFrom, List.map_append, List.mem_append, ih, mem_completedNodes]
    constructor
    · rintro (⟨l, k, rfl, h1, h2⟩ | ⟨l, k, rfl, h⟩)
      · exact ⟨l, k, rfl, h1, by omega⟩
      · exact ⟨l, k, rfl, by omega, by omega⟩
    · rintro ⟨l, k, rfl, h1, h2⟩
      by_cases hlast : (k + 1) * 2 ^ l = c₀ + m + 1
      · exact Or.inr ⟨l, k, rfl, hlast⟩
      · exact Or.inl ⟨l, k, rfl, h1, by omega⟩

/-- Every node `append` writes carries its hash. -/
theorem writesFrom_hash {leaf : Nat → α} {c₀ m : Nat} (hN : c₀ + m ≤ 2 ^ 63) :
    ∀ w ∈ writesFrom hash leaf c₀ m, w.2 = nodeHash hash leaf w.1 := by
  induction m with
  | zero => simp [writesFrom]
  | succ m ih =>
    intro w hw
    rw [writesFrom, List.mem_append] at hw
    rcases hw with hw | hw
    · exact ih (by omega) w hw
    · simp only [completedNodes, List.mem_map, List.mem_range] at hw
      obtain ⟨i, hi, rfl⟩ := hw
      have hsum := two_pow_mul_div_of_le_trailingOnes (show i ≤ trailingOnes (c₀ + m) by omega)
      rw [pathNode, nodeHash_fromLevelAndPos leaf (by rw [Nat.add_mul, Nat.one_mul, Nat.mul_comm]; omega)]

variable (hash) in
/-- The store holds exactly the nodes complete over the first `n` leaves, each
with its hash. -/
def StoresFrozen (s : MockHashStore α) (leaf : Nat → α) (n : Nat) : Prop :=
  ∀ p, s.store p =
    if 0 < n ∧ p.isFreezable (n - 1) = true then some (nodeHash hash leaf p) else none

theorem storesFrozen_empty (leaf : Nat → α) : StoresFrozen hash MockHashStore.empty leaf 0 := by
  intro p
  simp [MockHashStore.empty]

theorem stored_of_storesFrozen {s : MockHashStore α} {leaf : Nat → α} {n : Nat}
    (h : StoresFrozen hash s leaf n) (hn : n ≤ 2 ^ 63) : Stored hash s.get leaf n := by
  intro l k hle
  have hpos : 0 < (k + 1) * 2 ^ l := Nat.mul_pos (by omega) (Nat.two_pow_pos l)
  have hfz : (fromLevelAndPos l k).isFreezable (n - 1) = true :=
    (isFreezable_iff (by omega) hn).mpr ⟨l, k, rfl, hle⟩
  apply MockHashStore.get_eq_ok
  rw [h, if_pos ⟨by omega, hfz⟩, nodeHash_fromLevelAndPos leaf (by omega)]

/-- Which leaf function the store is read against matters only below `n`. -/
theorem StoresFrozen.congr {s : MockHashStore α} {leaf leaf' : Nat → α} {n : Nat}
    (h : StoresFrozen hash s leaf n) (hn : n ≤ 2 ^ 63) (hl : ∀ i, i < n → leaf i = leaf' i) :
    StoresFrozen hash s leaf' n := by
  intro p
  rw [h p]
  by_cases hfz : 0 < n ∧ p.isFreezable (n - 1) = true
  · obtain ⟨l, k, rfl, hle⟩ := (isFreezable_iff hfz.1 hn).mp hfz.2
    rw [if_pos hfz, if_pos hfz, nodeHash_fromLevelAndPos leaf (by omega),
      nodeHash_fromLevelAndPos leaf' (by omega),
      perfectRoot_congr (fun i _ hi => hl i (by omega))]
  · rw [if_neg hfz, if_neg hfz]

/-- Writing what `append` returns keeps the store exactly the frozen nodes. -/
theorem storesFrozen_putMany {s : MockHashStore α} {leaf : Nat → α} {c₀ m : Nat}
    (h : StoresFrozen hash s leaf c₀) (hN : c₀ + m ≤ 2 ^ 63) :
    StoresFrozen hash (s.putMany (writesFrom hash leaf c₀ m)) leaf (c₀ + m) := by
  intro p
  rw [MockHashStore.putMany_store (writesFrom_hash hN) p, h p]
  by_cases hfz : 0 < c₀ + m ∧ p.isFreezable (c₀ + m - 1) = true
  · -- a frozen node: written by this batch, or frozen already
    obtain ⟨l, k, rfl, hle⟩ := (isFreezable_iff hfz.1 hN).mp hfz.2
    rw [if_pos hfz]
    by_cases hold : (k + 1) * 2 ^ l ≤ c₀
    · have hpos : 0 < (k + 1) * 2 ^ l := Nat.mul_pos (by omega) (Nat.two_pow_pos l)
      have hfz0 : 0 < c₀ ∧ (fromLevelAndPos l k).isFreezable (c₀ - 1) = true :=
        ⟨by omega, (isFreezable_iff (by omega) (by omega)).mpr ⟨l, k, rfl, hold⟩⟩
      split <;> simp
    · rw [if_pos ((mem_writesFrom m).mpr ⟨l, k, rfl, by omega, hle⟩)]
  · -- not frozen: neither written nor there before
    rw [if_neg hfz]
    have hnew : p ∉ (writesFrom hash leaf c₀ m).map Prod.fst := by
      intro hmem
      obtain ⟨l, k, rfl, h1, h2⟩ := (mem_writesFrom m).mp hmem
      exact hfz ⟨by omega, (isFreezable_iff (by omega) hN).mpr ⟨l, k, rfl, h2⟩⟩
    have hold : ¬ (0 < c₀ ∧ p.isFreezable (c₀ - 1) = true) := by
      rintro ⟨h0, hf⟩
      obtain ⟨l, k, rfl, hle⟩ := (isFreezable_iff h0 (by omega)).mp hf
      exact hfz ⟨by omega, (isFreezable_iff (by omega) hN).mpr ⟨l, k, rfl, by omega⟩⟩
    rw [if_neg hnew, if_neg hold]

end Refinement

end MerkleAccumulatorView


/-! ## Batch after batch -/

section Run

variable {α : Type} {hash : α → α → α} {placeholder : α}

open MerkleAccumulatorView

/-- One batch appended to a store holding exactly the frozen nodes of `F`
returns the root of `F ++ B` and the nodes `B` completes. -/
theorem append_batch {s : MockHashStore α} {F : List α} (B : List α)
    (h : StoresFrozen hash s (leafOf placeholder F) F.length) (hN : (F ++ B).length ≤ 2 ^ 63) :
    append hash placeholder s.get F.length B =
      .ok (treeRoot hash placeholder (leafOf placeholder (F ++ B)) (F.length + B.length),
        writesFrom hash (leafOf placeholder (F ++ B)) F.length B.length) := by
  rw [List.length_append] at hN
  have hS : Stored hash s.get (leafOf placeholder (F ++ B)) F.length :=
    stored_of_storesFrozen (h.congr (by omega) fun i hi => (leafOf_append_of_lt hi).symm) (by omega)
  by_cases hB : B = []
  · subst hB
    rw [append_nil hS (by omega)]
    rfl
  · exact append_run hS hB hN fun i hi => leafOf_append_add hi

/-- The run of `test_append_many_impl` from a store holding exactly the frozen
nodes of `F`: after each batch the returned root is the padded tree's root over
all leaves so far, and the store holds exactly their frozen nodes. -/
theorem appendMany_run (batches : List (List α)) :
    ∀ (F : List α) (s : MockHashStore α), StoresFrozen hash s (leafOf placeholder F) F.length →
      (F ++ batches.flatten).length ≤ 2 ^ 63 →
      ∃ results, appendMany hash placeholder s F.length batches = .ok results ∧
        results.length = batches.length ∧
        ∀ i (hi : i < results.length),
          results[i].1 = treeRoot hash placeholder
            (leafOf placeholder (F ++ (batches.take (i + 1)).flatten))
            (F ++ (batches.take (i + 1)).flatten).length ∧
          StoresFrozen hash results[i].2 (leafOf placeholder (F ++ (batches.take (i + 1)).flatten))
            (F ++ (batches.take (i + 1)).flatten).length := by
  induction batches with
  | nil =>
    intro F s _ _
    exact ⟨[], rfl, rfl, fun i hi => absurd hi (by simp)⟩
  | cons B rest ih =>
    intro F s h hN
    simp only [List.flatten_cons, ← List.append_assoc] at hN
    have hB : (F ++ B).length ≤ 2 ^ 63 := by simp at hN ⊢; omega
    have hstore := storesFrozen_putMany (h.congr (by simp at hB; omega)
      (fun i hi => (leafOf_append_of_lt (L := B) hi).symm)) (m := B.length) (by simpa using hB)
    rw [← List.length_append] at hstore
    obtain ⟨results, hrun, hlen, hres⟩ := ih (F ++ B) _ hstore hN
    refine ⟨(treeRoot hash placeholder (leafOf placeholder (F ++ B)) (F ++ B).length,
      s.putMany (writesFrom hash (leafOf placeholder (F ++ B)) F.length B.length)) :: results,
      ?_, by simp [hlen], ?_⟩
    · rw [appendMany, append_batch B h hB]
      simp only [bind, Except.bind]
      rw [← List.length_append, hrun]
    · intro i hi
      cases i with
      | zero =>
        simp only [List.getElem_cons_zero, List.take_succ_cons, List.take_zero, List.flatten_cons,
          List.flatten_nil, List.append_nil]
        exact ⟨trivial, hstore⟩
      | succ i =>
        simp only [List.getElem_cons_succ, List.take_succ_cons, List.flatten_cons,
          ← List.append_assoc]
        exact hres i (by simpa using hi)

theorem length_flatten_take_le (batches : List (List α)) (k : Nat) :
    (batches.take k).flatten.length ≤ batches.flatten.length := by
  calc (batches.take k).flatten.length
      ≤ (batches.take k).flatten.length + (batches.drop k).flatten.length := Nat.le_add_right _ _
    _ = batches.flatten.length := by
      rw [← List.length_append, ← List.flatten_append, List.take_append_drop]

variable (hash placeholder) in
/-- Appending batches of leaves to an empty store, writing what `append`
returns after each, agrees with the in-memory accumulator of the same leaves:
after every batch, `append` returned `from_leaves(..).root_hash()`,
`get_root_hash` returns it too once there is a leaf, and the store holds exactly
the freezable positions, each with its node's hash; every `append` returned
`Ok`, so none read an absent position or failed an assertion. -/
theorem appendMany_refines_fromLeaves (batches : List (List α))
    (hmax : batches.flatten.length ≤ maxAccumulatorLeaves) :
    ∃ results, appendMany hash placeholder MockHashStore.empty 0 batches = .ok results ∧
      results.length = batches.length ∧
      ∀ i (hi : i < results.length),
        (∃ acc, InMemoryAccumulator.fromLeaves hash placeholder (batches.take (i + 1)).flatten =
            .ok acc ∧ acc.rootHash = results[i].1) ∧
        (0 < (batches.take (i + 1)).flatten.length →
          getRootHash hash placeholder results[i].2.get (batches.take (i + 1)).flatten.length =
            .ok results[i].1) ∧
        StoresFrozen hash results[i].2 (leafOf placeholder (batches.take (i + 1)).flatten)
          (batches.take (i + 1)).flatten.length := by
  rw [maxAccumulatorLeaves_eq] at hmax
  obtain ⟨results, hrun, hlen, hres⟩ :=
    appendMany_run batches [] MockHashStore.empty (storesFrozen_empty _) (by simpa using hmax)
  refine ⟨results, hrun, hlen, fun i hi => ?_⟩
  obtain ⟨hroot, hstore⟩ := hres i hi
  simp only [List.nil_append] at hroot hstore
  have hP := length_flatten_take_le batches (i + 1)
  refine ⟨⟨_, InMemoryAccumulator.fromLeaves_eq_ofTree _ (by omega), hroot.symm⟩,
    fun h0 => ?_, hstore⟩
  rw [getRootHash_eq (stored_of_storesFrozen hstore (by omega)) h0 (by omega), hroot]

theorem appendMany_refines_fromLeaves_three :
    ([[1, 2], [3]] : List (List Nat)).flatten.length ≤ maxAccumulatorLeaves ∧
    ∃ results, appendMany Nat.add 0 MockHashStore.empty 0 [[1, 2], [3]] = .ok results ∧
      results.length = 2 ∧
      ∀ i (hi : i < results.length),
        (∃ acc, InMemoryAccumulator.fromLeaves Nat.add 0 (([[1, 2], [3]] : List (List Nat)).take (i + 1)).flatten =
            .ok acc ∧ acc.rootHash = results[i].1) ∧
        (0 < (([[1, 2], [3]] : List (List Nat)).take (i + 1)).flatten.length →
          getRootHash Nat.add 0 results[i].2.get (([[1, 2], [3]] : List (List Nat)).take (i + 1)).flatten.length =
            .ok results[i].1) ∧
        StoresFrozen Nat.add results[i].2 (leafOf 0 (([[1, 2], [3]] : List (List Nat)).take (i + 1)).flatten)
          (([[1, 2], [3]] : List (List Nat)).take (i + 1)).flatten.length :=
  ⟨by decide, appendMany_refines_fromLeaves Nat.add 0 [[1, 2], [3]] (by decide)⟩

/-- An empty batch on an empty store: `append` returns the placeholder, as
`from_leaves(&[])` does, but `get_root_hash` of zero leaves fails the
`assert!(leaf_count > 0)` of `root_from_leaf_count`. -/
theorem appendMany_empty_batch_getRootHash :
    appendMany Nat.add 0 MockHashStore.empty 0 [[]] = .ok [(0, MockHashStore.empty.putMany [])] ∧
      getRootHash Nat.add 0 (MockHashStore.empty.putMany []).get 0 =
        .error (.panic "assertion failed: leaf_count > 0") :=
  ⟨rfl, rfl⟩

end Run

end AptosCore
