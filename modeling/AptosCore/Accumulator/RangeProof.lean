import AptosCore.Accumulator.Proof

/-!
# Range proofs

`MerkleAccumulatorView::get_range_proof` (storage/accumulator/src/lib.rs)
proves a run of consecutive leaves with the left siblings of the path of its
first leaf and the right siblings of the path of its last leaf.
`AccumulatorRangeProof::verify` (types/src/proof/definition.rs) rebuilds the
tree level by level from the leaves: a first node that is a right child takes
the next left sibling, the others pair up, and a last one left over takes the
next right sibling, until one hash and no sibling remain.

Over the padded tree a round of that loop turns the row of nodes above the
range on one level into the row on the next (`verifyLevel_row`), and the
prover's siblings are exactly those the rounds take
(`MerkleTree.leftRangeSiblings`, `MerkleTree.rightRangeSiblings`).
-/

namespace AptosCore

open Word MerkleTree Position

/-- `AccumulatorRangeProof`: the left siblings of the first leaf's path and the
right siblings of the last leaf's path, each from the bottom level up. -/
structure AccumulatorRangeProof (α : Type) where
  leftSiblings : List α
  rightSiblings : List α
  deriving DecidableEq, Repr

namespace AccumulatorRangeProof

section Model

variable {α : Type} (hash : α → α → α)

/-- The start of a round of the loop of `verify`: a first position that is a
right child is hashed with the next left sibling. Returns the parents so far,
the children left and the left siblings left. -/
def pairFirst (firstPos : Position) (currentHashes leftSiblings : List α) :
    Except (AccumulatorError α) (List α × List α × List α) :=
  if firstPos.isRightChild then
    match leftSiblings with
    | [] => .error .missingLeftSibling
    | leftHash :: leftSiblings =>
      match currentHashes with
      | [] => .error (.panic "The first leaf must exist.")
      | rightHash :: children => .ok ([hash leftHash rightHash], children, leftSiblings)
  else .ok ([], currentHashes, leftSiblings)

/-- The rest of a round: the children two at a time (`chunks_exact(2)`), and a
last one left over hashed with the next right sibling. -/
def pairRest (children rightSiblings : List α) :
    Except (AccumulatorError α) (List α × List α) :=
  match pairRow hash children with
  | (pairHashes, []) => .ok (pairHashes, rightSiblings)
  | (pairHashes, [leftHash]) =>
    match rightSiblings with
    | [] => .error .missingRightSibling
    | rightHash :: rightSiblings => .ok (pairHashes ++ [hash leftHash rightHash], rightSiblings)
  | _ => .error (.panic "assertion failed: remainder.len() <= 1")

/-- One round of the loop of `verify`: the hashes one level up, and the
siblings not yet used. -/
def verifyLevel (firstPos : Position) (currentHashes leftSiblings rightSiblings : List α) :
    Except (AccumulatorError α) (List α × List α × List α) := do
  let (parentHashes, children, leftSiblings) ← pairFirst hash firstPos currentHashes leftSiblings
  let (pairHashes, rightSiblings) ← pairRest hash children rightSiblings
  .ok (parentHashes ++ pairHashes, leftSiblings, rightSiblings)

/-- The `while` loop of `verify`. Every round on a non-empty row shortens the
row or uses a sibling, so `fuel` runs out only where the source loops without
end, on an empty row. -/
def verifyLoop : Nat → Position → List α → List α → List α →
    Except (AccumulatorError α) (List α)
  | 0, _, _, _, _ => .error (.panic "loop did not terminate")
  | fuel + 1, firstPos, currentHashes, leftSiblings, rightSiblings =>
    if 1 < currentHashes.length ∨ leftSiblings ≠ [] ∨ rightSiblings ≠ [] then do
      let (parentHashes, leftSiblings, rightSiblings) ←
        verifyLevel hash firstPos currentHashes leftSiblings rightSiblings
      verifyLoop fuel firstPos.parent parentHashes leftSiblings rightSiblings
    else .ok currentHashes

variable [DecidableEq α]

/-- `AccumulatorRangeProof::verify`. The loop is given as many rounds as it has
hashes and siblings. -/
def verify (proof : AccumulatorRangeProof α) (expectedRootHash : α)
    (firstLeafIndex : Option Nat) (leafHashes : List α) : Except (AccumulatorError α) Unit :=
  match firstLeafIndex with
  | none =>
    if leafHashes.isEmpty then
      if proof.leftSiblings.isEmpty && proof.rightSiblings.isEmpty then .ok ()
      else .error .siblingsNotNeeded
    else .error .leafHashesNotEmpty
  | some firstLeafIndex =>
    if proof.leftSiblings.length ≤ maxAccumulatorProofDepth then
      if proof.rightSiblings.length ≤ maxAccumulatorProofDepth then
        if !leafHashes.isEmpty then do
          let currentHashes ←
            verifyLoop hash (leafHashes.length + proof.leftSiblings.length +
                proof.rightSiblings.length)
              (fromLeafIndex firstLeafIndex) leafHashes proof.leftSiblings proof.rightSiblings
          -- `current_hashes[0]`
          match currentHashes with
          | [] => .error (.panic "index out of bounds: the len is 0 but the index is 0")
          | actualRootHash :: _ =>
            if actualRootHash = expectedRootHash then .ok ()
            else .error (.rootHashMismatch actualRootHash expectedRootHash)
        else .error .leafHashesEmpty
      else .error (.tooManyRightSiblings proof.rightSiblings.length)
    else .error (.tooManyLeftSiblings proof.leftSiblings.length)

end Model

/-! ## A round over the rows of a tree -/

section Rows

variable {α : Type} {hash : α → α → α} {node : Nat → Nat → α} {l : Nat}

/-- The first half of a round over the row of level `l` from index `a`: a right
child `a` is hashed with its left sibling into node `a / 2` one level up. -/
theorem pairFirst_row {a len : Nat} (hb : (a + 1) * 2 ^ l ≤ 2 ^ 63) (hlen : 0 < len)
    (hnode : a % 2 = 1 → node (l + 1) (a / 2) = hash (node l (a - 1)) (node l a))
    (rest : List α) :
    pairFirst hash (fromLevelAndPos l a) (row node l a len)
        ((if a % 2 = 1 then [node l (a - 1)] else []) ++ rest) =
      .ok (if a % 2 = 1 then [node (l + 1) (a / 2)] else [],
        row node l (2 * ((a + 1) / 2)) (len - a % 2), rest) := by
  unfold pairFirst
  rw [isRightChild_fromLevelAndPos hb]
  rcases Nat.mod_two_eq_zero_or_one a with ha | ha
  case inl =>
    -- a left child: the row is untouched
    rw [show 2 * ((a + 1) / 2) = a by omega]
    simp [ha]
  case inr =>
    -- a right child: it pairs with the left sibling
    obtain ⟨len, rfl⟩ : ∃ m, len = m + 1 := ⟨len - 1, by omega⟩
    rw [row_succ, show 2 * ((a + 1) / 2) = a + 1 by omega, hnode ha]
    simp [ha]

/-- The rest of a round over the row of level `l` from the even index `2 * c`
to `b`: the pairs, and a last left child `b` hashed with its right sibling, give
the row one level up from `c` to `b / 2`. -/
theorem pairRest_row {b c : Nat} (hcb : 2 * c ≤ b + 1)
    (hnode : ∀ x, 2 * x ≤ b → node (l + 1) x = hash (node l (2 * x)) (node l (2 * x + 1)))
    (rest : List α) :
    pairRest hash (row node l (2 * c) (b + 1 - 2 * c))
        ((if b % 2 = 0 then [node l (b + 1)] else []) ++ rest) =
      .ok (row node (l + 1) c (b / 2 + 1 - c), rest) := by
  have hpair := pairRow_row node l c (b + 1 - 2 * c)
    (fun x _ hx => hnode x (by omega))
  rw [pairRest, hpair]
  rcases Nat.mod_two_eq_zero_or_one b with hb | hb
  case inl =>
    -- the row ends with a left child
    have hodd : (b + 1 - 2 * c) % 2 = 1 := by omega
    have hlast : 2 * c + (b + 1 - 2 * c) - 1 = 2 * (b / 2) := by omega
    simp only [hodd, if_true, hb, List.singleton_append, hlast]
    rw [show node l (b + 1) = node l (2 * (b / 2) + 1) by congr 1; omega,
      ← hnode (b / 2) (by omega), show b / 2 + 1 - c = (b + 1 - 2 * c) / 2 + 1 by omega, ← row_concat,
      show c + (b + 1 - 2 * c) / 2 = b / 2 by omega]
  case inr =>
    -- the row ends with a right child: nothing is left over
    have heven : (b + 1 - 2 * c) % 2 = 0 := by omega
    simp only [heven, hb]
    rw [show b / 2 + 1 - c = (b + 1 - 2 * c) / 2 by omega]
    rfl

/-- A round of `verify` over the row of level `l` from `a` to `b`, given the
siblings it needs on that level, is the row of level `l + 1` from `a / 2` to
`b / 2`. -/
theorem verifyLevel_row {a b : Nat} (hab : a ≤ b) (hb : (a + 1) * 2 ^ l ≤ 2 ^ 63)
    (hnode : ∀ x, 2 * x ≤ b → node (l + 1) x = hash (node l (2 * x)) (node l (2 * x + 1)))
    (left right : List α) :
    verifyLevel hash (fromLevelAndPos l a) (row node l a (b - a + 1))
        ((if a % 2 = 1 then [node l (a - 1)] else []) ++ left)
        ((if b % 2 = 0 then [node l (b + 1)] else []) ++ right) =
      .ok (row node (l + 1) (a / 2) (b / 2 - a / 2 + 1), left, right) := by
  have hfirst := @pairFirst_row α hash node l a (b - a + 1) hb (by omega)
    (fun ha => by rw [hnode (a / 2) (by omega), show 2 * (a / 2) = a - 1 by omega,
      show a - 1 + 1 = a by omega]) left
  have hrest := @pairRest_row α hash node l b ((a + 1) / 2) (by omega) hnode right
  rw [show b - a + 1 - a % 2 = b + 1 - 2 * ((a + 1) / 2) by omega] at hfirst
  simp only [verifyLevel, hfirst, hrest, bind, Except.bind]
  rcases Nat.mod_two_eq_zero_or_one a with ha | ha
  case inl =>
    -- the row starts with a left child
    rw [show (a + 1) / 2 = a / 2 by omega, show b / 2 + 1 - a / 2 = b / 2 - a / 2 + 1 by omega]
    simp [ha]
  case inr =>
    -- the row starts with a right child, paired in the first half
    rw [show (a + 1) / 2 = a / 2 + 1 by omega,
      show b / 2 - a / 2 + 1 = b / 2 + 1 - (a / 2 + 1) + 1 by omega, row_succ]
    simp [ha]

theorem length_ite_odd {a : Nat} (x : α) :
    (if a % 2 = 1 then [x] else []).length = a % 2 := by
  rcases Nat.mod_two_eq_zero_or_one a with ha | ha <;> simp [ha]

theorem length_ite_even {b : Nat} (x : α) :
    (if b % 2 = 0 then [x] else []).length = 1 - b % 2 := by
  rcases Nat.mod_two_eq_zero_or_one b with hb | hb <;> simp [hb]

/-- The loop of `verify` from level `l`, on the row above the leaves `i..j` and
with the siblings the rounds take on the `d` levels above it, ends with the node
on level `l + d` that holds them all. Each round is `verifyLevel_row`; the fuel
is the loop's own bound, as every round shortens the row or uses a sibling. -/
theorem verifyLoop_row {i j : Nat} (hij : i ≤ j) :
    ∀ d l fuel, j < 2 ^ (l + d) → l + d ≤ 63 →
      (∀ lv x, l ≤ lv → lv < l + d → 2 * x ≤ j / 2 ^ lv →
        node (lv + 1) x = hash (node lv (2 * x)) (node lv (2 * x + 1))) →
      (j / 2 ^ l - i / 2 ^ l + 1) + (leftRangeSiblings node i l d).length +
          (rightRangeSiblings node j l d).length ≤ fuel →
      verifyLoop hash fuel (fromLevelAndPos l (i / 2 ^ l))
          (row node l (i / 2 ^ l) (j / 2 ^ l - i / 2 ^ l + 1))
          (leftRangeSiblings node i l d) (rightRangeSiblings node j l d) =
        .ok [node (l + d) 0] := by
  intro d
  induction d with
  | zero =>
    intro l fuel hj _ _ hfuel
    -- one node and no sibling left: the loop stops
    have hj0 : j / 2 ^ l = 0 := Nat.div_eq_of_lt (by simpa using hj)
    have hi0 : i / 2 ^ l = 0 := Nat.div_eq_of_lt (by simp at hj; omega)
    obtain ⟨fuel, rfl⟩ : ∃ f, fuel = f + 1 := ⟨fuel - 1, by simp at hfuel; omega⟩
    simp [verifyLoop, hj0, hi0, row]
  | succ d ih =>
    intro l fuel hj hl hnode hfuel
    have hij' : i / 2 ^ l ≤ j / 2 ^ l := Nat.div_le_div_right hij
    have hb : (i / 2 ^ l + 1) * 2 ^ l ≤ 2 ^ 63 := by
      have hlt : i / 2 ^ l * 2 ^ l < 2 ^ 63 :=
        calc i / 2 ^ l * 2 ^ l ≤ i := Nat.div_mul_le_self _ _
          _ < 2 ^ (l + (d + 1)) := by omega
          _ ≤ 2 ^ 63 := Nat.pow_le_pow_right (by decide) hl
      exact succ_mul_le_of_mul_lt (by omega) hlt
    rw [leftRangeSiblings_succ, rightRangeSiblings_succ] at hfuel ⊢
    simp only [List.length_append, length_ite_odd, length_ite_even] at hfuel
    obtain ⟨fuel, rfl⟩ : ∃ f, fuel = f + 1 := ⟨fuel - 1, by omega⟩
    -- the loop goes on: the row has two nodes, or its one node needs a sibling
    have hcond : 1 < (row node l (i / 2 ^ l) (j / 2 ^ l - i / 2 ^ l + 1)).length ∨
        (if i / 2 ^ l % 2 = 1 then [node l (i / 2 ^ l - 1)] else []) ++
          leftRangeSiblings node i (l + 1) d ≠ [] ∨
        (if j / 2 ^ l % 2 = 0 then [node l (j / 2 ^ l + 1)] else []) ++
          rightRangeSiblings node j (l + 1) d ≠ [] := by
      rw [length_row]
      by_cases hlt : i / 2 ^ l < j / 2 ^ l
      · exact Or.inl (by omega)
      · rcases Nat.mod_two_eq_zero_or_one (i / 2 ^ l) with ha | ha
        · exact Or.inr (Or.inr (by simp [show j / 2 ^ l % 2 = 0 by omega]))
        · exact Or.inr (Or.inl (by simp [ha]))
    have hstep := @verifyLevel_row α hash node l _ _ hij' hb
      (fun x hx => hnode l x (le_refl l) (by omega) hx)
      (leftRangeSiblings node i (l + 1) d) (rightRangeSiblings node j (l + 1) d)
    rw [verifyLoop, if_pos hcond, hstep, parent_fromLevelAndPos hb (by omega),
      ← div_two_pow_succ, ← div_two_pow_succ, show l + (d + 1) = l + 1 + d by omega]
    apply ih (l + 1) fuel (by rwa [show l + 1 + d = l + (d + 1) by omega]) (by omega)
      (fun lv x h1 h2 hx => hnode lv x (by omega) (by omega) hx)
    rw [div_two_pow_succ, div_two_pow_succ]
    omega

/-- `verify` accepts the leaves `i..i + k - 1` of a tree of root level `L`, with
the left siblings of the path of `i` and the right siblings of the path of
`i + k - 1`, against the tree's root. -/
theorem verify_row [DecidableEq α] {i k L : Nat} (hk : 0 < k) (hiL : i + k ≤ 2 ^ L) (hL : L ≤ 63)
    (hnode : ∀ lv x, lv < L → 2 * x ≤ (i + k - 1) / 2 ^ lv →
      node (lv + 1) x = hash (node lv (2 * x)) (node lv (2 * x + 1))) :
    verify hash ⟨leftRangeSiblings node i 0 L, rightRangeSiblings node (i + k - 1) 0 L⟩
      (node L 0) (some i) (row node 0 i k) = .ok () := by
  have hleft : (leftRangeSiblings node i 0 L).length ≤ L := by
    simpa [leftRangeSiblings] using List.length_filter_le _ (List.range' 0 L)
  have hright : (rightRangeSiblings node (i + k - 1) 0 L).length ≤ L := by
    simpa [rightRangeSiblings] using List.length_filter_le _ (List.range' 0 L)
  have hloop := @verifyLoop_row α hash node i (i + k - 1) (by omega) L 0
    (k + (leftRangeSiblings node i 0 L).length + (rightRangeSiblings node (i + k - 1) 0 L).length)
    (by rw [Nat.zero_add]; omega) (by omega) (fun lv x _ hlv hx => hnode lv x (by omega) hx)
    (by simp only [Nat.pow_zero, Nat.div_one]; omega)
  simp only [Nat.pow_zero, Nat.div_one, Nat.zero_add,
    show i + k - 1 - i + 1 = k by omega] at hloop
  have hne : (row node 0 i k).isEmpty = false := by
    obtain ⟨k, rfl⟩ : ∃ m, k = m + 1 := ⟨k - 1, by omega⟩
    simp [row_succ]
  simp only [verify, maxAccumulatorProofDepth, show (leftRangeSiblings node i 0 L).length ≤ 63 by omega,
    show (rightRangeSiblings node (i + k - 1) 0 L).length ≤ 63 by omega, if_true, hne,
    Bool.not_false, length_row, fromLeafIndex, hloop, bind, Except.bind]

end Rows

end AccumulatorRangeProof

namespace MerkleAccumulatorView

section Model

variable {α : Type} (hash : α → α → α) (placeholder : α)
  (reader : Position → Except (AccumulatorError α) α)

/-- `get_range_proof_positions` of the view of `fullAccLeaves` leaves: the left
siblings of the path of the first leaf and the right siblings of the path of
the last one. -/
def getRangeProofPositions (fullAccLeaves : Nat) (firstLeafIndex : Option Nat)
    (numLeaves : Nat) : Except (AccumulatorError α) (List Position × List Position) :=
  match firstLeafIndex with
  | none => if numLeaves = 0 then .ok ([], []) else .error .numLeavesNotZero
  | some firstLeafIndex =>
    if 0 < numLeaves then
      -- `first_leaf_index.checked_add(num_leaves - 1)` on `u64`
      if firstLeafIndex + (numLeaves - 1) < 2 ^ 64 then
        let lastLeafIndex := firstLeafIndex + (numLeaves - 1)
        if lastLeafIndex < fullAccLeaves then do
          let leftSiblings ← getSiblingPositions fullAccLeaves firstLeafIndex (·.isLeftChild)
          let rightSiblings ← getSiblingPositions fullAccLeaves lastLeafIndex (·.isRightChild)
          .ok (leftSiblings, rightSiblings)
        else .error (.invalidLastLeafIndex lastLeafIndex fullAccLeaves)
      else .error .tooManyLeaves
    else .error .numLeavesZero

/-- `MerkleAccumulatorView::get_range_proof`. -/
def getRangeProof (fullAccLeaves : Nat) (firstLeafIndex : Option Nat) (numLeaves : Nat) :
    Except (AccumulatorError α) (AccumulatorRangeProof α) := do
  let (leftSiblings, rightSiblings) ←
    getRangeProofPositions fullAccLeaves firstLeafIndex numLeaves
  let leftSiblings ← getHashes hash placeholder reader fullAccLeaves leftSiblings
  let rightSiblings ← getHashes hash placeholder reader fullAccLeaves rightSiblings
  .ok ⟨leftSiblings, rightSiblings⟩

end Model

/-! ## The siblings of a range -/

/-- The left children among the siblings of the path of leaf `i`: beside each
ancestor that is a right child. -/
theorem filter_isLeftChild_pathSiblings {i L : Nat} (hi : i < 2 ^ 63) (hL : L ≤ 63) :
    (pathSiblings fromLevelAndPos i L).filter (·.isLeftChild) =
      ((List.range' 0 L).filter fun lv => i / 2 ^ lv % 2 = 1).map
        fun lv => fromLevelAndPos lv (i / 2 ^ lv - 1) := by
  rw [pathSiblings, List.filter_map, ← List.range_eq_range']
  have hfilter : (List.range L).filter ((·.isLeftChild) ∘
      fun lv => fromLevelAndPos lv (siblingIndex (i / 2 ^ lv))) =
      (List.range L).filter fun lv => i / 2 ^ lv % 2 = 1 := by
    apply List.filter_congr
    intro lv hlv
    rw [Function.comp_apply,
      isLeftChild_fromLevelAndPos (sibling_fits_of_lt hi (by simp at hlv; omega)), siblingIndex]
    split <;> simp <;> omega
  rw [hfilter]
  apply List.map_congr_left
  intro lv hlv
  have hodd : i / 2 ^ lv % 2 = 1 := by simpa using (List.mem_filter.mp hlv).2
  simp [siblingIndex, hodd]

/-- The right children among the siblings of the path of leaf `j`: beside each
ancestor that is a left child. -/
theorem filter_isRightChild_pathSiblings {j L : Nat} (hj : j < 2 ^ 63) (hL : L ≤ 63) :
    (pathSiblings fromLevelAndPos j L).filter (·.isRightChild) =
      ((List.range' 0 L).filter fun lv => j / 2 ^ lv % 2 = 0).map
        fun lv => fromLevelAndPos lv (j / 2 ^ lv + 1) := by
  rw [pathSiblings, List.filter_map, ← List.range_eq_range']
  have hfilter : (List.range L).filter ((·.isRightChild) ∘
      fun lv => fromLevelAndPos lv (siblingIndex (j / 2 ^ lv))) =
      (List.range L).filter fun lv => j / 2 ^ lv % 2 = 0 := by
    apply List.filter_congr
    intro lv hlv
    rw [Function.comp_apply,
      isRightChild_fromLevelAndPos (sibling_fits_of_lt hj (by simp at hlv; omega)), siblingIndex]
    split <;> simp <;> omega
  rw [hfilter]
  apply List.map_congr_left
  intro lv hlv
  have heven : j / 2 ^ lv % 2 = 0 := by simpa using (List.mem_filter.mp hlv).2
  simp [siblingIndex, heven]

section Reading

variable {α : Type} {hash : α → α → α} {placeholder : α}

/-- `get_range_proof` of leaves `i..i + k - 1` over a reader holding the nodes
complete over `n` leaves: the padded tree's nodes beside the two paths. -/
theorem getRangeProof_eq {reader : Position → Except (AccumulatorError α) α} {leaf : Nat → α}
    {n i k : Nat} (hS : Stored hash reader leaf n) (hn : n ≤ 2 ^ 63) (hk : 0 < k)
    (hik : i + k ≤ n) :
    getRangeProof hash placeholder reader n (some i) k =
      .ok ⟨leftRangeSiblings (paddedRoot hash placeholder leaf n) i 0 (rootLevel n),
        rightRangeSiblings (paddedRoot hash placeholder leaf n) (i + k - 1) 0 (rootLevel n)⟩ := by
  have hL : rootLevel n ≤ 63 := Nat.size_le.mpr (by omega)
  have hleft := @getHashes_map α hash placeholder reader leaf n hS (by omega) hn _
    ((List.range' 0 (rootLevel n)).filter fun lv => i / 2 ^ lv % 2 = 1) id
    (fun lv => i / 2 ^ lv - 1) (fun lv hlv => by
      have hodd : i / 2 ^ lv % 2 = 1 := by simpa using (List.mem_filter.mp hlv).2
      have hlv' : lv < rootLevel n := by simpa using (List.mem_filter.mp hlv).1
      have hfit := sibling_fits_of_lt (show i < 2 ^ 63 by omega) (show lv < 63 by omega)
      simpa [siblingIndex, hodd] using hfit)
  have hright := @getHashes_map α hash placeholder reader leaf n hS (by omega) hn _
    ((List.range' 0 (rootLevel n)).filter fun lv => (i + k - 1) / 2 ^ lv % 2 = 0) id
    (fun lv => (i + k - 1) / 2 ^ lv + 1) (fun lv hlv => by
      have heven : (i + k - 1) / 2 ^ lv % 2 = 0 := by simpa using (List.mem_filter.mp hlv).2
      have hlv' : lv < rootLevel n := by simpa using (List.mem_filter.mp hlv).1
      have hfit := sibling_fits_of_lt (show i + k - 1 < 2 ^ 63 by omega) (show lv < 63 by omega)
      simpa [siblingIndex, heven] using hfit)
  simp only [id] at hleft hright
  have hlast : i + (k - 1) = i + k - 1 := by omega
  simp only [getRangeProof, getRangeProofPositions, if_pos hk, hlast,
    if_pos (show i + k - 1 < 2 ^ 64 by omega), if_pos (show i + k - 1 < n by omega),
    getSiblingPositions_eq (by omega) hn (show i < n by omega),
    getSiblingPositions_eq (by omega) hn (show i + k - 1 < n by omega),
    filter_isLeftChild_pathSiblings (show i < 2 ^ 63 by omega) hL,
    filter_isRightChild_pathSiblings (show i + k - 1 < 2 ^ 63 by omega) hL,
    hleft, hright, bind, Except.bind]
  rfl

/-- `get_range_proof` fails before reading anything on a count of zero with a
first leaf, a count without one, a last index past `u64::MAX`, and a range past
the last leaf. -/
theorem getRangeProof_error (reader : Position → Except (AccumulatorError α) α)
    (fullAccLeaves : Nat) (firstLeafIndex : Option Nat) (numLeaves : Nat)
    (h : (∃ i, firstLeafIndex = some i ∧ 0 < numLeaves ∧
        (2 ^ 64 ≤ i + (numLeaves - 1) ∨ fullAccLeaves < i + numLeaves)) ∨
      (firstLeafIndex = none ∧ numLeaves ≠ 0) ∨ (firstLeafIndex ≠ none ∧ numLeaves = 0)) :
    ∃ e, getRangeProof hash placeholder reader fullAccLeaves firstLeafIndex numLeaves =
      .error e := by
  rcases h with ⟨i, rfl, hk, hbad⟩ | ⟨rfl, hk⟩ | ⟨hsome, rfl⟩
  · -- the last index overflows, or is past the last leaf
    by_cases hov : i + (numLeaves - 1) < 2 ^ 64
    · have hpast : ¬ i + (numLeaves - 1) < fullAccLeaves := by omega
      rw [getRangeProof, getRangeProofPositions, if_pos hk, if_pos hov, if_neg hpast]
      exact ⟨_, rfl⟩
    · rw [getRangeProof, getRangeProofPositions, if_pos hk, if_neg hov]
      exact ⟨_, rfl⟩
  · simp [getRangeProof, getRangeProofPositions, hk, bind, Except.bind]
  · obtain ⟨i, rfl⟩ := Option.ne_none_iff_exists'.mp hsome
    simp [getRangeProof, getRangeProofPositions, bind, Except.bind]

/-- The leaves `i..i + k - 1` of a list are the bottom row of its padded tree. -/
theorem take_drop_eq_row {F : List α} {i k : Nat} (h : i + k ≤ F.length) :
    (F.drop i).take k =
      row (paddedRoot hash placeholder (leafOf placeholder F) F.length) 0 i k := by
  apply List.ext_getElem
  · simp only [List.length_take, List.length_drop, length_row]
    omega
  · intro t h1 _
    have ht : i + t < F.length := by simp at h1; omega
    simp [row, paddedRoot, leafOf, ht]

end Reading

/-! ## Range proofs of a stored accumulator -/

section Stored

open AccumulatorRangeProof

variable {α : Type} [DecidableEq α] {hash : α → α → α} {placeholder : α}

variable (hash placeholder) in
/-- Over a store holding the frozen nodes of the leaves `F`, as `append` leaves
it, the proof `get_range_proof` returns for any non-empty run of leaves verifies
against `get_root_hash`; so does the empty proof of no leaf; and
`get_range_proof` fails when the last index overflows, when the run goes past
the last leaf, and when exactly one of "no first leaf" and "no leaf" holds. -/
theorem getRangeProof_verify {s : MockHashStore α} {F : List α}
    (hs : StoresFrozen hash s (leafOf placeholder F) F.length)
    (hF : F.length ≤ maxAccumulatorLeaves) (hn : 0 < F.length) :
    (∀ i k, 0 < k → i + k ≤ F.length → ∃ proof rootHash,
      getRangeProof hash placeholder s.get F.length (some i) k = .ok proof ∧
      getRootHash hash placeholder s.get F.length = .ok rootHash ∧
      proof.verify hash rootHash (some i) ((F.drop i).take k) = .ok ()) ∧
    (∃ proof rootHash,
      getRangeProof hash placeholder s.get F.length none 0 = .ok proof ∧
      getRootHash hash placeholder s.get F.length = .ok rootHash ∧
      proof.verify hash rootHash none [] = .ok ()) ∧
    ∀ firstLeafIndex numLeaves,
      (∃ i, firstLeafIndex = some i ∧ 0 < numLeaves ∧
          (2 ^ 64 ≤ i + (numLeaves - 1) ∨ F.length < i + numLeaves)) ∨
        (firstLeafIndex = none ∧ numLeaves ≠ 0) ∨ (firstLeafIndex ≠ none ∧ numLeaves = 0) →
      ∃ e, getRangeProof hash placeholder s.get F.length firstLeafIndex numLeaves = .error e := by
  rw [maxAccumulatorLeaves_eq] at hF
  have hS := stored_of_storesFrozen hs hF
  have hL : rootLevel F.length ≤ 63 := Nat.size_le.mpr (by omega)
  refine ⟨fun i k hk hik => ?_, ⟨⟨[], []⟩, _, rfl, getRootHash_eq hS hn hF, rfl⟩,
    fun first k h => getRangeProof_error _ _ _ _ h⟩
  refine ⟨_, _, getRangeProof_eq hS hF hk hik, getRootHash_eq hS hn hF, ?_⟩
  have hiL : i + k ≤ 2 ^ rootLevel F.length := by
    have := Nat.lt_size_self (F.length - 1)
    rw [rootLevel]
    omega
  rw [take_drop_eq_row hik, treeRoot, if_neg (by omega)]
  apply verify_row hk hiL hL
  -- every node above the run hashes its two children
  intro lv x _ hx
  apply paddedRoot_succ_of_lt
  calc x * 2 ^ (lv + 1) = 2 * x * 2 ^ lv := by rw [Nat.pow_succ]; ring
    _ ≤ (i + k - 1) / 2 ^ lv * 2 ^ lv := Nat.mul_le_mul_right _ hx
    _ ≤ i + k - 1 := Nat.div_mul_le_self _ _
    _ < F.length := by omega

theorem getRangeProof_verify_five :
    StoresFrozen Nat.add ((MockHashStore.empty : MockHashStore Nat).putMany
        (writesFrom Nat.add (leafOf 0 [1, 2, 3, 4, 5]) 0 5)) (leafOf 0 [1, 2, 3, 4, 5])
        [1, 2, 3, 4, 5].length ∧
      [1, 2, 3, 4, 5].length ≤ maxAccumulatorLeaves ∧ 0 < [1, 2, 3, 4, 5].length ∧
    ((∀ i k, 0 < k → i + k ≤ [1, 2, 3, 4, 5].length → ∃ proof rootHash,
      getRangeProof Nat.add 0 ((MockHashStore.empty : MockHashStore Nat).putMany
        (writesFrom Nat.add (leafOf 0 [1, 2, 3, 4, 5]) 0 5)).get [1, 2, 3, 4, 5].length
          (some i) k = .ok proof ∧
      getRootHash Nat.add 0 ((MockHashStore.empty : MockHashStore Nat).putMany
        (writesFrom Nat.add (leafOf 0 [1, 2, 3, 4, 5]) 0 5)).get [1, 2, 3, 4, 5].length =
          .ok rootHash ∧
      proof.verify Nat.add rootHash (some i) (([1, 2, 3, 4, 5].drop i).take k) = .ok ()) ∧
    (∃ proof rootHash,
      getRangeProof Nat.add 0 ((MockHashStore.empty : MockHashStore Nat).putMany
        (writesFrom Nat.add (leafOf 0 [1, 2, 3, 4, 5]) 0 5)).get [1, 2, 3, 4, 5].length
          none 0 = .ok proof ∧
      getRootHash Nat.add 0 ((MockHashStore.empty : MockHashStore Nat).putMany
        (writesFrom Nat.add (leafOf 0 [1, 2, 3, 4, 5]) 0 5)).get [1, 2, 3, 4, 5].length =
          .ok rootHash ∧
      proof.verify Nat.add rootHash none [] = .ok ()) ∧
    ∀ firstLeafIndex numLeaves,
      (∃ i, firstLeafIndex = some i ∧ 0 < numLeaves ∧
          (2 ^ 64 ≤ i + (numLeaves - 1) ∨ [1, 2, 3, 4, 5].length < i + numLeaves)) ∨
        (firstLeafIndex = none ∧ numLeaves ≠ 0) ∨ (firstLeafIndex ≠ none ∧ numLeaves = 0) →
      ∃ e, getRangeProof Nat.add 0 ((MockHashStore.empty : MockHashStore Nat).putMany
        (writesFrom Nat.add (leafOf 0 [1, 2, 3, 4, 5]) 0 5)).get [1, 2, 3, 4, 5].length
          firstLeafIndex numLeaves = .error e) := by
  have hs : StoresFrozen Nat.add ((MockHashStore.empty : MockHashStore Nat).putMany
      (writesFrom Nat.add (leafOf 0 [1, 2, 3, 4, 5]) 0 5)) (leafOf 0 [1, 2, 3, 4, 5]) (0 + 5) :=
    storesFrozen_putMany (storesFrozen_empty _) (by decide)
  exact ⟨hs, by decide, by decide, getRangeProof_verify Nat.add 0 hs (by decide) (by decide)⟩

end Stored

end MerkleAccumulatorView

end AptosCore
