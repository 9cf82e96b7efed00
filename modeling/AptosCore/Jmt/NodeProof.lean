import AptosCore.Jmt.NodeHash

/-!
# The proof siblings of an internal node

`InternalNode::get_child_with_siblings` walks the node's four-level binary tree
from the top towards nibble `n`: at each height it takes the root of the part
beside the way (`merkle_hash`), and it stops at the first part on the way that
is empty, holds a single leaf, or is one nibble wide. Climbing back from the
hash of what it returns (the child it names, or the placeholder) with the
siblings it collected, each on the side that bit `3 - i` of `n` gives, rebuilds
`InternalNode::hash` (`getChildWithSiblings_climb`), as long as the node is one
that `InternalNode::new` accepts.

The step is `merkle_hash` of a part on the way: it is the node over the part's
two halves, one of them the sibling (`merkleHash_succ_of_split`).
-/

namespace AptosCore

open Word SparseMerkle

namespace Word

/-- Flipping the lowest bit. -/
theorem xor_one_eq (q : Nat) : q ^^^ 1 = if q % 2 = 1 then q - 1 else q + 1 := by
  have hdiv : (q ^^^ 1) / 2 = q / 2 := by rw [Nat.xor_div_two]; simp
  have hmod : (q ^^^ 1) % 2 = 1 ↔ ¬q % 2 = 1 := by rw [Nat.xor_mod_two_eq_one]; omega
  have h₁ := Nat.div_add_mod (q ^^^ 1) 2
  have h₂ := Nat.div_add_mod q 2
  split <;> omega

end Word

namespace InternalNode

variable {α : Type}

/-! ## The parts around a nibble -/

/-- The part of width `2 ^ h` that holds `n` starts at `n` rounded down to a
multiple of `2 ^ h`. -/
theorem getChildAndSiblingHalfStart_fst (n : Nibble) {h : Nat} (hh : h ≤ 8) :
    (getChildAndSiblingHalfStart n h).1 = n.val / 2 ^ h * 2 ^ h := by
  apply Nat.eq_of_testBit_eq
  intro i
  have hn := n.isLt
  rw [getChildAndSiblingHalfStart, ← Nat.shiftRight_eq_div_pow, ← Nat.shiftLeft_eq]
  simp only [Nat.testBit_and, Nat.testBit_shiftLeft, Nat.testBit_shiftRight]
  rw [show (256 : Nat) = 2 ^ 8 by rfl, Nat.testBit_mod_two_pow, Nat.testBit_shiftLeft,
    show (0xff : Nat) = 2 ^ 8 - 1 by rfl, Nat.testBit_two_pow_sub_one]
  by_cases hi : i < 8
  · by_cases hhi : h ≤ i
    · simp [hi, hhi, show i - h < 8 by omega]
    · simp [hhi]
  · -- a nibble has no bit from the eighth on
    have hbit : n.val.testBit i = false := Nat.testBit_lt_two_pow (by
      calc n.val < 2 ^ 4 := hn
        _ ≤ 2 ^ i := Nat.pow_le_pow_right (by omega) (by omega))
    have hhi : h ≤ i := by omega
    simp [hi, hhi, Nat.add_sub_cancel' hhi, hbit]

theorem getChildAndSiblingHalfStart_snd (n : Nibble) (h : Nat) :
    (getChildAndSiblingHalfStart n h).2 = (getChildAndSiblingHalfStart n h).1 ^^^ 2 ^ h := by
  simp only [getChildAndSiblingHalfStart, Nat.one_shiftLeft]

/-- The part of width `2 ^ h` that holds `n` is the upper half of the one of width
`2 ^ (h + 1)` when bit `h` of `n` is set, and its lower half otherwise; the part
beside it is the other half. -/
theorem getChildAndSiblingHalfStart_succ (n : Nibble) {h : Nat} (hh : h < 8) :
    getChildAndSiblingHalfStart n h =
      if n.val.testBit h then
        ((getChildAndSiblingHalfStart n (h + 1)).1 + 2 ^ h, (getChildAndSiblingHalfStart n (h + 1)).1)
      else
        ((getChildAndSiblingHalfStart n (h + 1)).1, (getChildAndSiblingHalfStart n (h + 1)).1 + 2 ^ h) := by
  have hfst := getChildAndSiblingHalfStart_fst n (show h ≤ 8 by omega)
  have hsnd := getChildAndSiblingHalfStart_snd n h
  rw [hfst] at hsnd
  rw [getChildAndSiblingHalfStart_fst n (show h + 1 ≤ 8 by omega), Nat.pow_succ,
    ← Nat.div_div_eq_div_mul, Nat.testBit_eq_decide_div_mod_eq]
  -- the two halves as multiples of `2 ^ h`, by the parity of `n / 2 ^ h`
  generalize n.val / 2 ^ h = q at hfst hsnd ⊢
  have hxor : q * 2 ^ h ^^^ 2 ^ h = (q ^^^ 1) * 2 ^ h := by
    have hshift := (Nat.shiftLeft_xor_distrib (a := q) (b := 1) (i := h)).symm
    rwa [Nat.shiftLeft_eq, Nat.shiftLeft_eq, Nat.shiftLeft_eq, Nat.one_mul] at hshift
  rw [hxor, xor_one_eq] at hsnd
  obtain ⟨m, hm⟩ : ∃ m, q = 2 * m + q % 2 := ⟨q / 2, (Nat.div_add_mod q 2).symm⟩
  rcases Nat.mod_two_eq_zero_or_one q with h0 | h1
  · rw [if_neg (by omega)] at hsnd
    rw [if_neg (by simp [h0])]
    rw [h0, Nat.add_zero] at hm
    subst hm
    ext <;> simp only [hfst, hsnd, Nat.mul_div_cancel_left m (show 0 < 2 by omega)] <;> ring
  · rw [if_pos h1] at hsnd
    rw [if_pos (by simp [h1])]
    rw [h1] at hm
    subst hm
    ext <;> simp only [hfst, hsnd, show (2 * m + 1) / 2 = m by omega, Nat.add_sub_cancel] <;> ring

/-- At height 0 the part is the nibble itself. -/
theorem getChildAndSiblingHalfStart_zero (n : Nibble) : (getChildAndSiblingHalfStart n 0).1 = n.val := by
  rw [getChildAndSiblingHalfStart_fst n (by omega), Nat.pow_zero, Nat.div_one, Nat.mul_one]

/-- At height 4 the part is the whole node. -/
theorem getChildAndSiblingHalfStart_four (n : Nibble) : (getChildAndSiblingHalfStart n 4).1 = 0 := by
  rw [getChildAndSiblingHalfStart_fst n (by omega), Nat.div_eq_of_lt (show n.val < 2 ^ 4 from n.isLt),
    Nat.zero_mul]

/-! ## `merkle_hash` of a part -/

variable (H : SmtHasher α)

/-- `merkle_hash` reads only the bits of its part. -/
theorem merkleHash_congr (node : InternalNode α) {start width : Nat} {bitmaps bitmaps' : Nat × Nat}
    (h : rangeBitmaps start width bitmaps = rangeBitmaps start width bitmaps') :
    node.merkleHash H start width bitmaps = node.merkleHash H start width bitmaps' := by
  rw [merkleHash.eq_def H node start width bitmaps, merkleHash.eq_def H node start width bitmaps']
  dsimp only
  rw [h]

theorem merkleHash_of_eq_zero (node : InternalNode α) {start width : Nat} {bitmaps : Nat × Nat}
    (h0 : (rangeBitmaps start width bitmaps).1 = 0) :
    node.merkleHash H start width bitmaps = .ok H.placeholder := by
  rw [merkleHash]
  dsimp only
  rw [dif_pos h0]

/-- A part with a single leaf child, or of one nibble, hashes as its only child. -/
theorem merkleHash_of_onlyChild {node : InternalNode α} {start width : Nat} {n : Nibble}
    {c : Child α} (h0 : (rangeBitmaps start width node.generateBitmaps).1 ≠ 0)
    (hone : width = 1 ∨ (countOnes 16 (rangeBitmaps start width node.generateBitmaps).1 = 1 ∧
      (rangeBitmaps start width node.generateBitmaps).2 ≠ 0))
    (hc : node.onlyChild (rangeBitmaps start width node.generateBitmaps).1 = .ok (n, c)) :
    node.merkleHash H start width node.generateBitmaps = .ok c.hash := by
  rw [merkleHash]
  dsimp only
  rw [dif_neg h0, if_pos hone, hc]
  rfl

/-- A part that holds two children, or one internal child, is the node over its halves. -/
theorem merkleHash_of_split (node : InternalNode α) {start j : Nat} {bitmaps : Nat × Nat}
    (h0 : (rangeBitmaps start (2 ^ (j + 1)) bitmaps).1 ≠ 0)
    (hone : ¬(countOnes 16 (rangeBitmaps start (2 ^ (j + 1)) bitmaps).1 = 1 ∧
      (rangeBitmaps start (2 ^ (j + 1)) bitmaps).2 ≠ 0)) :
    node.merkleHash H start (2 ^ (j + 1)) bitmaps = (do
      let leftChild ← node.merkleHash H start (2 ^ j) bitmaps
      let rightChild ← node.merkleHash H (start + 2 ^ j) (2 ^ j) bitmaps
      .ok (H.internal leftChild rightChild)) := by
  have hpow : 2 ^ (j + 1) = 2 ^ j + 2 ^ j := by rw [Nat.pow_succ]; omega
  have hpos := Nat.two_pow_pos j
  have hwidth : 2 ^ (j + 1) ≠ 1 := (Nat.one_lt_two_pow (Nat.succ_ne_zero j)).ne'
  rw [merkleHash]
  dsimp only
  rw [dif_neg h0, if_neg (not_or.mpr ⟨hwidth, hone⟩), show 2 ^ (j + 1) / 2 = 2 ^ j by omega,
    merkleHash_congr H node
      (@rangeBitmaps_rangeBitmaps start (2 ^ (j + 1)) start (2 ^ j) (Nat.le_refl _) (by omega) bitmaps),
    merkleHash_congr H node (@rangeBitmaps_rangeBitmaps start (2 ^ (j + 1)) (start + 2 ^ j) (2 ^ j)
      (by omega) (by omega) bitmaps)]

/-- `merkle_hash` of a part of a node never fails on the node's own bitmaps. -/
theorem merkleHash_ok (node : InternalNode α) :
    ∀ (j start : Nat), ∃ a, node.merkleHash H start (2 ^ j) node.generateBitmaps = .ok a := by
  intro j
  induction j with
  | zero =>
    intro start
    by_cases h0 : (rangeBitmaps start (2 ^ 0) node.generateBitmaps).1 = 0
    · exact ⟨_, merkleHash_of_eq_zero H node h0⟩
    · obtain ⟨n, rest, hocc⟩ := List.exists_cons_of_ne_nil
        fun h => h0 ((rangeBitmaps_generateBitmaps_fst_eq_zero _ _ _).mpr h)
      obtain ⟨c, hc⟩ := exists_child_of_occupied_eq_cons hocc
      exact ⟨_, merkleHash_of_onlyChild H h0 (Or.inl rfl) (onlyChild_rangeBitmaps hocc hc)⟩
  | succ j ih =>
    intro start
    by_cases h0 : (rangeBitmaps start (2 ^ (j + 1)) node.generateBitmaps).1 = 0
    · exact ⟨_, merkleHash_of_eq_zero H node h0⟩
    by_cases hone : countOnes 16 (rangeBitmaps start (2 ^ (j + 1)) node.generateBitmaps).1 = 1 ∧
        (rangeBitmaps start (2 ^ (j + 1)) node.generateBitmaps).2 ≠ 0
    · obtain ⟨n, rest, hocc⟩ := List.exists_cons_of_ne_nil
        fun h => h0 ((rangeBitmaps_generateBitmaps_fst_eq_zero _ _ _).mpr h)
      obtain ⟨c, hc⟩ := exists_child_of_occupied_eq_cons hocc
      exact ⟨_, merkleHash_of_onlyChild H h0 (Or.inr hone) (onlyChild_rangeBitmaps hocc hc)⟩
    · obtain ⟨l, hl⟩ := ih start
      obtain ⟨r, hr⟩ := ih (start + 2 ^ j)
      refine ⟨H.internal l r, ?_⟩
      rw [merkleHash_of_split H node h0 hone, hl, hr]
      rfl

/-- The part of `[start, start + width)` is one `merkle_hash` splits in two: it has
a child and is not a single leaf. -/
def IsSplit (node : InternalNode α) (start width : Nat) : Prop :=
  (rangeBitmaps start width node.generateBitmaps).1 ≠ 0 ∧
    ¬(countOnes 16 (rangeBitmaps start width node.generateBitmaps).1 = 1 ∧
      (rangeBitmaps start width node.generateBitmaps).2 ≠ 0)

/-- `merkle_hash` of a split part of width `2 ^ (h + 1)` on the way to `n` is the
node over the part of width `2 ^ h` on the way and the sibling beside it, on the
side bit `h` of `n` gives. -/
theorem merkleHash_succ_of_split {node : InternalNode α} {n : Nibble} {h : Nat} (hh : h < 8)
    (hsplit : node.IsSplit (getChildAndSiblingHalfStart n (h + 1)).1 (2 ^ (h + 1))) {sibling below : α}
    (hsibling : node.merkleHash H (getChildAndSiblingHalfStart n h).2 (2 ^ h) node.generateBitmaps =
      .ok sibling)
    (hbelow : node.merkleHash H (getChildAndSiblingHalfStart n h).1 (2 ^ h) node.generateBitmaps =
      .ok below) :
    node.merkleHash H (getChildAndSiblingHalfStart n (h + 1)).1 (2 ^ (h + 1)) node.generateBitmaps =
      .ok (if n.val.testBit h then H.internal sibling below else H.internal below sibling) := by
  rw [merkleHash_of_split H node hsplit.1 hsplit.2]
  rw [getChildAndSiblingHalfStart_succ n hh] at hsibling hbelow
  cases hbit : n.val.testBit h
  · rw [hbit, if_neg Bool.false_ne_true] at hsibling hbelow
    rw [if_neg Bool.false_ne_true, hbelow, hsibling]
    rfl
  · rw [hbit, if_pos rfl] at hsibling hbelow
    rw [if_pos rfl, hbelow, hsibling]
    rfl

/-! ## The way down to a nibble -/

/-- The bit of `n` that the way down takes at depth `i` below the node, the
highest bit first. -/
def nibbleBit (n : Nibble) (i : Nat) : Bool := n.val.testBit (3 - i)

/-- One level of the climb back from height `h`. -/
theorem climb_nibbleBit_cons {n : Nibble} {h : Nat} (hh : h < 4) (sibling : α) (siblings : List α)
    (below : α) :
    climb H.internal nibbleBit n (3 - h) (sibling :: siblings) below =
      if n.val.testBit h then H.internal sibling (climb H.internal nibbleBit n (3 - h + 1) siblings below)
      else H.internal (climb H.internal nibbleBit n (3 - h + 1) siblings below) sibling := by
  rw [climb, nibbleBit, show 3 - (3 - h) = h by omega]

/-- What `get_child_with_siblings` returns where it stops, at the part of width
`2 ^ h` that holds `n`, and the hash a proof climbs from: no child and the
placeholder when the part is empty; otherwise a child of the part with its hash,
the `n`-th child or the part's only child, a leaf. -/
def ProofChild (node : InternalNode α) (nodeKey : NodeKey) (n : Nibble) (h : Nat)
    (c : Option NodeKey) (below : α) : Prop :=
  (c = none ∧ node.occupied (getChildAndSiblingHalfStart n h).1 (2 ^ h) = [] ∧ below = H.placeholder) ∨
    ∃ i ch, node.children i = some ch ∧ c = some (nodeKey.genChildNodeKey ch.version i) ∧
      i ∈ node.occupied (getChildAndSiblingHalfStart n h).1 (2 ^ h) ∧
      (i = n ∨ node.occupied (getChildAndSiblingHalfStart n h).1 (2 ^ h) = [i] ∧ ch.isLeaf = true) ∧
      below = ch.hash

/-- The child is missing exactly when the part where the way stops is empty. -/
theorem ProofChild.eq_none_iff {node : InternalNode α} {nodeKey : NodeKey} {n : Nibble} {h : Nat}
    {c : Option NodeKey} {below : α} (hchild : ProofChild H node nodeKey n h c below) :
    c = none ↔ node.occupied (getChildAndSiblingHalfStart n h).1 (2 ^ h) = [] := by
  rcases hchild with ⟨hc, hocc, -⟩ | ⟨i, ch, -, hc, hi, -, -⟩
  · exact ⟨fun _ => hocc, fun _ => hc⟩
  · refine ⟨fun hnone => ?_, fun hocc => ?_⟩
    · rw [hc] at hnone
      cases hnone
    · rw [hocc] at hi
      cases hi

/-- One round of the loop at height `h`: it stops with what the part of `n` holds
and that part's hash, or it goes on below a split part. -/
theorem getChildWithSiblingsLoop_cons (node : InternalNode α) (nodeKey : NodeKey) (n : Nibble)
    {h : Nat} (hs : List Nat) (siblings : List α) {sibling : α}
    (hsibling : node.merkleHash H (getChildAndSiblingHalfStart n h).2 (2 ^ h) node.generateBitmaps =
      .ok sibling) :
    (∃ c below, node.getChildWithSiblingsLoop H nodeKey n node.generateBitmaps (h :: hs) siblings =
        .ok (c, siblings ++ [sibling]) ∧ ProofChild H node nodeKey n h c below ∧
        node.merkleHash H (getChildAndSiblingHalfStart n h).1 (2 ^ h) node.generateBitmaps = .ok below) ∨
      (h ≠ 0 ∧ node.getChildWithSiblingsLoop H nodeKey n node.generateBitmaps (h :: hs) siblings =
        node.getChildWithSiblingsLoop H nodeKey n node.generateBitmaps hs (siblings ++ [sibling]) ∧
        node.IsSplit (getChildAndSiblingHalfStart n h).1 (2 ^ h)) := by
  rw [getChildWithSiblingsLoop]
  simp only [Nat.one_shiftLeft, hsibling, bind, Except.bind]
  by_cases h0 : (rangeBitmaps (getChildAndSiblingHalfStart n h).1 (2 ^ h) node.generateBitmaps).1 = 0
  · -- an empty part: no child, and the placeholder
    left
    refine ⟨none, H.placeholder, by rw [if_pos h0], Or.inl ⟨rfl, ?_, rfl⟩, merkleHash_of_eq_zero H node h0⟩
    exact (rangeBitmaps_generateBitmaps_fst_eq_zero _ _ _).mp h0
  rw [if_neg h0]
  obtain ⟨i, rest, hocc⟩ := List.exists_cons_of_ne_nil
    fun hnil => h0 ((rangeBitmaps_generateBitmaps_fst_eq_zero _ _ _).mpr hnil)
  obtain ⟨ch, hch⟩ := exists_child_of_occupied_eq_cons hocc
  by_cases hone : 2 ^ h = 1 ∨
      (countOnes 16 (rangeBitmaps (getChildAndSiblingHalfStart n h).1 (2 ^ h) node.generateBitmaps).1 = 1 ∧
        (rangeBitmaps (getChildAndSiblingHalfStart n h).1 (2 ^ h) node.generateBitmaps).2 ≠ 0)
  · -- the first child of the part, which is the `n`-th at height 0 and a lone leaf above
    left
    have hi : i ∈ node.occupied (getChildAndSiblingHalfStart n h).1 (2 ^ h) := hocc ▸ List.mem_cons_self
    rw [if_pos hone, onlyChild_rangeBitmaps hocc hch]
    refine ⟨_, ch.hash, rfl, Or.inr ⟨i, ch, hch, rfl, hi, ?_, rfl⟩,
      merkleHash_of_onlyChild H h0 hone (onlyChild_rangeBitmaps hocc hch)⟩
    rcases hone with hwidth | ⟨hcount, hleaf⟩
    · left
      obtain rfl : h = 0 := by simpa using hwidth
      have hrange := (mem_occupied.mp hi).1
      rw [getChildAndSiblingHalfStart_zero] at hrange
      exact Fin.ext (by omega)
    · right
      rw [countOnes_rangeBitmaps_generateBitmaps, hocc, List.length_cons, Nat.add_eq_right,
        List.length_eq_zero_iff] at hcount
      subst hcount
      obtain ⟨m, hm, hmleaf⟩ := (rangeBitmaps_generateBitmaps_snd_ne_zero _ _ _).mp hleaf
      rw [hocc, List.mem_singleton] at hm
      subst hm
      rw [hch] at hmleaf
      exact ⟨hocc, hmleaf⟩
  · -- a split part: the loop goes on one level down
    right
    rw [if_neg hone]
    refine ⟨fun hzero => hone (Or.inl (by rw [hzero]; rfl)), rfl, h0, fun h => hone (Or.inr h)⟩

/-- The loop from height `h` down, below a split part of width `2 ^ (h + 1)` on the
way to `n`: it collects one sibling a level down to where it stops, and climbing
back from what it stops at rebuilds `merkle_hash` of the part. The induction is
on the height. -/
theorem getChildWithSiblingsLoop_climb (node : InternalNode α) (nodeKey : NodeKey) (n : Nibble) :
    ∀ h, h < 4 → ∀ siblings : List α,
      node.IsSplit (getChildAndSiblingHalfStart n (h + 1)).1 (2 ^ (h + 1)) →
      ∃ c sibs below,
        node.getChildWithSiblingsLoop H nodeKey n node.generateBitmaps (List.range (h + 1)).reverse
            siblings = .ok (c, siblings ++ sibs) ∧
          0 < sibs.length ∧ sibs.length ≤ h + 1 ∧
          ProofChild H node nodeKey n (h + 1 - sibs.length) c below ∧
          node.merkleHash H (getChildAndSiblingHalfStart n (h + 1)).1 (2 ^ (h + 1)) node.generateBitmaps =
            .ok (climb H.internal nibbleBit n (3 - h) sibs below) := by
  intro h
  induction h with
  | zero =>
    intro _ siblings hsplit
    obtain ⟨sibling, hsibling⟩ := merkleHash_ok H node 0 (getChildAndSiblingHalfStart n 0).2
    rcases getChildWithSiblingsLoop_cons H node nodeKey n [] siblings hsibling with
      ⟨c, below, hloop, hchild, hbelow⟩ | ⟨hne, -⟩
    · refine ⟨c, [sibling], below, hloop, by simp, by simp, hchild, ?_⟩
      rw [merkleHash_succ_of_split H (by omega) hsplit hsibling hbelow, climb_nibbleBit_cons H (by omega)]
      rfl
    · exact absurd rfl hne
  | succ h ih =>
    intro hh siblings hsplit
    obtain ⟨sibling, hsibling⟩ := merkleHash_ok H node (h + 1) (getChildAndSiblingHalfStart n (h + 1)).2
    have hrange : (List.range (h + 1 + 1)).reverse = (h + 1) :: (List.range (h + 1)).reverse := by
      rw [List.range_succ, List.reverse_append, List.reverse_singleton, List.singleton_append]
    rw [hrange]
    rcases getChildWithSiblingsLoop_cons H node nodeKey n _ siblings hsibling with
      ⟨c, below, hloop, hchild, hbelow⟩ | ⟨-, hloop, hsplit'⟩
    · -- the loop stops at height `h + 1`
      refine ⟨c, [sibling], below, hloop, by simp, by simp, hchild, ?_⟩
      rw [merkleHash_succ_of_split H (by omega) hsplit hsibling hbelow, climb_nibbleBit_cons H (by omega)]
      rfl
    · -- the loop goes on below the split part of height `h + 1`
      obtain ⟨c, sibs, below, hrest, hpos, hlen, hchild, hclimb⟩ :=
        ih (by omega) (siblings ++ [sibling]) hsplit'
      refine ⟨c, sibling :: sibs, below, ?_, by simp, by simp; omega, ?_, ?_⟩
      · rw [hloop, hrest, List.append_assoc, List.singleton_append]
      · rwa [List.length_cons, show h + 1 + 1 - (sibs.length + 1) = h + 1 - sibs.length by omega]
      · rw [merkleHash_succ_of_split H (by omega) hsplit hsibling hclimb, climb_nibbleBit_cons H (by omega),
          show 3 - (h + 1) + 1 = 3 - h by omega]

/-- One round of the loop at height `h`, as far as the child it names: it stops
with no child, with the part's first child, which at a height above 0 is the
part's only child and a leaf, or it goes on below. -/
theorem getChildWithSiblingsLoop_cons_isLeaf (node : InternalNode α) (nodeKey : NodeKey) (n : Nibble)
    {h : Nat} (hs : List Nat) (siblings : List α) {sibling : α}
    (hsibling : node.merkleHash H (getChildAndSiblingHalfStart n h).2 (2 ^ h) node.generateBitmaps =
      .ok sibling) :
    (∃ c, node.getChildWithSiblingsLoop H nodeKey n node.generateBitmaps (h :: hs) siblings =
        .ok (c, siblings ++ [sibling]) ∧
        ∀ k, c = some k → h = 0 ∨
          ∃ i ch, node.children i = some ch ∧ k = nodeKey.genChildNodeKey ch.version i ∧ ch.isLeaf = true) ∨
      node.getChildWithSiblingsLoop H nodeKey n node.generateBitmaps (h :: hs) siblings =
        node.getChildWithSiblingsLoop H nodeKey n node.generateBitmaps hs (siblings ++ [sibling]) := by
  rw [getChildWithSiblingsLoop]
  simp only [Nat.one_shiftLeft, hsibling, bind, Except.bind]
  by_cases h0 : (rangeBitmaps (getChildAndSiblingHalfStart n h).1 (2 ^ h) node.generateBitmaps).1 = 0
  · left
    exact ⟨none, by rw [if_pos h0], fun k hk => by cases hk⟩
  rw [if_neg h0]
  by_cases hone : 2 ^ h = 1 ∨
      (countOnes 16 (rangeBitmaps (getChildAndSiblingHalfStart n h).1 (2 ^ h) node.generateBitmaps).1 = 1 ∧
        (rangeBitmaps (getChildAndSiblingHalfStart n h).1 (2 ^ h) node.generateBitmaps).2 ≠ 0)
  · left
    obtain ⟨i, rest, hocc⟩ := List.exists_cons_of_ne_nil
      fun hnil => h0 ((rangeBitmaps_generateBitmaps_fst_eq_zero _ _ _).mpr hnil)
    obtain ⟨ch, hch⟩ := exists_child_of_occupied_eq_cons hocc
    rw [if_pos hone, onlyChild_rangeBitmaps hocc hch]
    refine ⟨_, rfl, fun k hk => ?_⟩
    cases hk
    rcases hone with hwidth | ⟨hcount, hleaf⟩
    · exact .inl (by simpa using hwidth)
    · -- the part counts one child and has a leaf child, so its one child is a leaf
      right
      rw [countOnes_rangeBitmaps_generateBitmaps, hocc, List.length_cons, Nat.add_eq_right,
        List.length_eq_zero_iff] at hcount
      subst hcount
      obtain ⟨m, hm, hmleaf⟩ := (rangeBitmaps_generateBitmaps_snd_ne_zero _ _ _).mp hleaf
      rw [hocc, List.mem_singleton] at hm
      subst hm
      rw [hch] at hmleaf
      exact ⟨m, ch, hch, rfl, hmleaf⟩
  · right
    rw [if_neg hone]

/-- Where the loop from height `h` down stops above the lowest level with a child,
having collected fewer than `h + 1` siblings, that child is a leaf. The
induction is on the height. -/
theorem getChildWithSiblingsLoop_isLeaf (node : InternalNode α) (nodeKey : NodeKey) (n : Nibble) :
    ∀ h, ∀ (siblings sibs : List α) (k : NodeKey),
      node.getChildWithSiblingsLoop H nodeKey n node.generateBitmaps (List.range (h + 1)).reverse siblings =
          .ok (some k, sibs) → sibs.length < siblings.length + (h + 1) →
        ∃ i ch, node.children i = some ch ∧ k = nodeKey.genChildNodeKey ch.version i ∧ ch.isLeaf = true := by
  intro h
  induction h with
  | zero =>
    intro siblings sibs k hloop hlen
    obtain ⟨sibling, hsibling⟩ := merkleHash_ok H node 0 (getChildAndSiblingHalfStart n 0).2
    rcases getChildWithSiblingsLoop_cons_isLeaf H node nodeKey n [] siblings hsibling with
      ⟨c, hstop, -⟩ | hgo
    · -- the round at height 0 adds its sibling, so the count is reached
      have hsibs : sibs = siblings ++ [sibling] := by
        rw [show (List.range (0 + 1)).reverse = [0] from rfl, hstop] at hloop
        cases hloop
        rfl
      rw [hsibs, List.length_append, List.length_singleton] at hlen
      omega
    · rw [show (List.range (0 + 1)).reverse = [0] from rfl, hgo, getChildWithSiblingsLoop] at hloop
      cases hloop
  | succ h ih =>
    intro siblings sibs k hloop hlen
    obtain ⟨sibling, hsibling⟩ := merkleHash_ok H node (h + 1) (getChildAndSiblingHalfStart n (h + 1)).2
    have hrange : (List.range (h + 1 + 1)).reverse = (h + 1) :: (List.range (h + 1)).reverse := by
      rw [List.range_succ, List.reverse_append, List.reverse_singleton, List.singleton_append]
    rw [hrange] at hloop
    rcases getChildWithSiblingsLoop_cons_isLeaf H node nodeKey n _ siblings hsibling with
      ⟨c, hstop, hleaf⟩ | hgo
    · rw [hstop] at hloop
      cases hloop
      exact (hleaf k rfl).resolve_left (Nat.succ_ne_zero h)
    · rw [hgo] at hloop
      exact ih (siblings ++ [sibling]) sibs k hloop (by rw [List.length_append, List.length_singleton]; omega)

/-! ## A node that `InternalNode::new` accepts -/

theorem occupied_zero_sixteen (node : InternalNode α) :
    node.occupied 0 16 = (List.finRange 16).filter fun i => (node.children i).isSome := by
  apply List.filter_congr
  intro i _
  simp [i.isLt]

theorem length_values (node : InternalNode α) :
    node.children.values.length = (node.occupied 0 16).length := by
  rw [Children.values, List.length_filterMap_eq_countP, List.countP_eq_length_filter,
    occupied_zero_sixteen]

/-- The whole of a node with a child that is not a single leaf is split. -/
theorem isSplit_zero_sixteen {node : InternalNode α} (hne : node.children.values ≠ [])
    (hlone : ¬(node.children.values.length = 1 ∧ node.children.values.any Child.isLeaf = true)) :
    node.IsSplit 0 16 := by
  refine ⟨fun h0 => hne ?_, fun ⟨hcount, hleaf⟩ => hlone ⟨?_, ?_⟩⟩
  · rw [← List.length_eq_zero_iff, length_values, (rangeBitmaps_generateBitmaps_fst_eq_zero _ _ _).mp h0]
    rfl
  · rwa [length_values, ← countOnes_rangeBitmaps_generateBitmaps]
  · -- a leaf child is among the values
    obtain ⟨m, -, hmleaf⟩ := (rangeBitmaps_generateBitmaps_snd_ne_zero _ _ _).mp hleaf
    cases hm : node.children m with
    | none => rw [hm] at hmleaf; cases hmleaf
    | some c =>
      rw [hm] at hmleaf
      exact List.any_eq_true.mpr ⟨c, List.mem_filterMap.mpr ⟨m, List.mem_finRange m, hm⟩, hmleaf⟩

/-- For a node that `InternalNode::new` accepts, `get_child_with_siblings` of any
node key and nibble `n` returns a child key and one to four siblings; the way
stops at the part of width `2 ^ (4 - siblings.length)` that holds `n`, the child
is missing exactly when that part is empty, and otherwise it is the `n`-th child
or the part's only child, a leaf. Climbing from the child's hash (the
placeholder when it is missing) with the siblings, the last first and sibling `i`
on the side bit `3 - i` of `n` gives, yields `InternalNode::hash`. -/
theorem getChildWithSiblings_rebuilds_hash (node : InternalNode α) (hne : node.children.values ≠ [])
    (hlone : ¬(node.children.values.length = 1 ∧ node.children.values.any Child.isLeaf = true))
    (nodeKey : NodeKey) (n : Nibble) :
    ∃ c siblings below, node.getChildWithSiblings H nodeKey n = .ok (c, siblings) ∧
      0 < siblings.length ∧ siblings.length ≤ 4 ∧
      (c = none ↔ node.occupied (getChildAndSiblingHalfStart n (4 - siblings.length)).1
        (2 ^ (4 - siblings.length)) = []) ∧
      ProofChild H node nodeKey n (4 - siblings.length) c below ∧
      node.hash H = .ok (climb H.internal nibbleBit n 0 siblings below) := by
  have hsplit : node.IsSplit (getChildAndSiblingHalfStart n (3 + 1)).1 (2 ^ (3 + 1)) := by
    rw [getChildAndSiblingHalfStart_four]
    exact isSplit_zero_sixteen hne hlone
  obtain ⟨c, sibs, below, hloop, hpos, hlen, hchild, hclimb⟩ :=
    getChildWithSiblingsLoop_climb H node nodeKey n 3 (by omega) [] hsplit
  rw [getChildAndSiblingHalfStart_four] at hclimb
  refine ⟨c, sibs, below, hloop, hpos, hlen, ProofChild.eq_none_iff H hchild, hchild, hclimb⟩

theorem getChildWithSiblings_rebuilds_hash_two_leaves :
    let node : InternalNode Nat :=
      ⟨fun i => if i = 1 then some ⟨5, 0, .leaf⟩ else if i = 11 then some ⟨7, 0, .leaf⟩ else none, 2⟩
    node.children.values ≠ [] ∧
      ¬(node.children.values.length = 1 ∧ node.children.values.any Child.isLeaf = true) ∧
      ∃ c siblings below,
        node.getChildWithSiblings ⟨fun a b => a + 2 * b, fun _ v => v, 0⟩ (NodeKey.newEmptyPath 0) 11 =
          .ok (c, siblings) ∧
        node.hash ⟨fun a b => a + 2 * b, fun _ v => v, 0⟩ =
          .ok (climb (fun a b => a + 2 * b) nibbleBit 11 0 siblings below) := by
  intro node
  obtain ⟨c, siblings, below, hget, -, -, -, -, hhash⟩ :=
    getChildWithSiblings_rebuilds_hash ⟨fun a b => a + 2 * b, fun _ v => v, 0⟩ node (by decide) (by decide)
      (NodeKey.newEmptyPath 0) 11
  exact ⟨by decide, by decide, c, siblings, below, hget, hhash⟩

/-! ## The child a walk goes on to -/

/-- A child of `n`'s node lies in every part that holds `n`. -/
theorem mem_occupied_self {node : InternalNode α} {n : Nibble} {h : Nat} (hh : h ≤ 8)
    (hn : (node.children n).isSome) : n ∈ node.occupied (getChildAndSiblingHalfStart n h).1 (2 ^ h) := by
  rw [mem_occupied, getChildAndSiblingHalfStart_fst n hh]
  exact ⟨⟨Nat.div_mul_le_self _ _, Nat.lt_div_mul_add (Nat.two_pow_pos h)⟩, hn⟩

/-- A child in the part of width `2 ^ h` that holds `n` has the bits of `n` from
bit `h` up. -/
theorem testBit_eq_of_mem_occupied {node : InternalNode α} {n i : Nibble} {h b : Nat} (hh : h ≤ 8)
    (hi : i ∈ node.occupied (getChildAndSiblingHalfStart n h).1 (2 ^ h)) (hb : h ≤ b) :
    i.val.testBit b = n.val.testBit b := by
  obtain ⟨⟨hlo, hhi⟩, -⟩ := mem_occupied.mp hi
  rw [getChildAndSiblingHalfStart_fst n hh] at hlo hhi
  have hdiv : i.val / 2 ^ h = n.val / 2 ^ h :=
    Nat.div_eq_of_lt_le hlo (by rw [Nat.add_mul, Nat.one_mul]; exact hhi)
  rw [show b = (b - h) + h by omega, ← Nat.testBit_div_two_pow, ← Nat.testBit_div_two_pow, hdiv]

/-- The child where the way to `n` stops is the `n`-th as soon as the node has an
`n`-th child: a part's only child is the `n`-th one if `n` is in the part. -/
theorem eq_of_mem_occupied_of_isSome {node : InternalNode α} {n i : Nibble} {h : Nat} {p : Prop} (hh : h ≤ 8)
    (hin : i = n ∨ node.occupied (getChildAndSiblingHalfStart n h).1 (2 ^ h) = [i] ∧ p)
    (hn : (node.children n).isSome) : i = n := by
  rcases hin with rfl | ⟨hocc, -⟩
  · rfl
  · have hself := mem_occupied_self (h := h) hh hn
    rw [hocc, List.mem_singleton] at hself
    exact hself.symm

/-- `new_impl` accepts only children that are not empty and not a single leaf. -/
theorem values_of_newImpl {children : Children α} {node : InternalNode α} (h : newImpl children = .ok node) :
    children.values ≠ [] ∧ ¬(children.values.length = 1 ∧ children.values.any Child.isLeaf = true) := by
  unfold newImpl at h
  split at h
  · cases h
  · split at h
    · cases h
    · rename_i hempty hlone
      exact ⟨fun hnil => hempty (by simp [hnil]), hlone⟩

/-- For a node that `new_impl` accepts, `get_child_with_siblings` of nibble `n`
stops where `ProofChild` says and its siblings rebuild the node's hash; and a
child it names above the lowest level, with fewer than four siblings, is a leaf,
so that a walk which goes on to an internal child has passed all four levels. -/
theorem getChildWithSiblings_of_newImpl {node : InternalNode α} (hnode : newImpl node.children = .ok node)
    (nodeKey : NodeKey) (n : Nibble) :
    ∃ c siblings below, node.getChildWithSiblings H nodeKey n = .ok (c, siblings) ∧
      0 < siblings.length ∧ siblings.length ≤ 4 ∧ ProofChild H node nodeKey n (4 - siblings.length) c below ∧
      (∀ k, c = some k → siblings.length = 4 ∨
        ∃ i ch, node.children i = some ch ∧ k = nodeKey.genChildNodeKey ch.version i ∧ ch.isLeaf = true) ∧
      node.hash H = .ok (climb H.internal nibbleBit n 0 siblings below) := by
  obtain ⟨hne, hlone⟩ := values_of_newImpl hnode
  have hsplit : node.IsSplit (getChildAndSiblingHalfStart n (3 + 1)).1 (2 ^ (3 + 1)) := by
    rw [getChildAndSiblingHalfStart_four]
    exact isSplit_zero_sixteen hne hlone
  obtain ⟨c, sibs, below, hloop, hpos, hlen, hchild, hclimb⟩ :=
    getChildWithSiblingsLoop_climb H node nodeKey n 3 (by omega) [] hsplit
  rw [getChildAndSiblingHalfStart_four] at hclimb
  refine ⟨c, sibs, below, hloop, hpos, hlen, hchild, fun k hk => ?_, hclimb⟩
  by_cases hfour : sibs.length = 4
  · exact .inl hfour
  · subst hk
    exact .inr (getChildWithSiblingsLoop_isLeaf H node nodeKey n 3 [] sibs k hloop (by simp; omega))

end InternalNode

end AptosCore
