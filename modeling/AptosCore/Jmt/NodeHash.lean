import AptosCore.Jmt.Node
import AptosCore.Lib.SparseMerkle
import Mathlib.Data.List.FinRange

/-!
# An internal node hashes as a part of the sparse Merkle tree

An internal node at nibble depth `d` over the leaves `ls` (`(key, leaf hash)`,
every key with the node's path as its first `d` nibbles) hashes as the root of
the sparse Merkle tree over `ls` at bit depth `4 d` (`InternalNode.hash_eq_root`),
provided each child agrees with the leaves under its nibble: an absent child has
none, a leaf child exactly one, an internal child two or more, and the child's
hash is the root over them one nibble down (`InternalNode.Agrees`).

The part `[start, start + 2 ^ j)` of the children is the subtree at bit depth
`4 d + 4 - j` whose leaves have their nibble `d` in that part (`inPart`); the
bitmaps of `merkle_hash` find which children it holds (`occupied`).
-/

namespace AptosCore

open Word SparseMerkle

namespace InternalNode

variable {α : Type}

/-! ## The bitmaps -/

theorem testBit_foldl_addToBitmaps (node : InternalNode α) (i : Nat) :
    ∀ (xs : List Nibble) (acc : Nat × Nat),
      (xs.foldl node.addToBitmaps acc).1.testBit i =
          (acc.1.testBit i || xs.any fun n => n.val == i && (node.children n).isSome) ∧
        (xs.foldl node.addToBitmaps acc).2.testBit i =
          (acc.2.testBit i || xs.any fun n => n.val == i && (node.children n).any Child.isLeaf)
  | [], acc => by simp
  | n :: xs, acc => by
    obtain ⟨ih₁, ih₂⟩ := testBit_foldl_addToBitmaps node i xs (node.addToBitmaps acc n)
    rw [List.foldl_cons, ih₁, ih₂]
    simp only [addToBitmaps, List.any_cons]
    cases hc : node.children n with
    | none => simp
    | some c =>
      have hbit : (1 <<< n.val).testBit i = (n.val == i) := by
        rw [Nat.shiftLeft_eq, Nat.one_mul, Nat.testBit_two_pow]
        by_cases h : n.val = i <;> simp [h]
      by_cases hl : c.isLeaf <;> simp [hl, Nat.testBit_or, hbit, Bool.or_assoc]

/-- Bit `i` of the existence bitmap says whether child `i` exists. -/
theorem testBit_generateBitmaps_fst (node : InternalNode α) (i : Nibble) :
    node.generateBitmaps.1.testBit i.val = (node.children i).isSome := by
  rw [generateBitmaps, (testBit_foldl_addToBitmaps node i.val _ _).1, Nat.zero_testBit,
    Bool.false_or, Bool.eq_iff_iff, List.any_eq_true]
  constructor
  · rintro ⟨n, -, hn⟩
    simp only [Bool.and_eq_true, beq_iff_eq] at hn
    rw [← Fin.ext hn.1]
    exact hn.2
  · intro hi
    exact ⟨i, List.mem_finRange i, by simp [hi]⟩

/-- Bit `i` of the leaf bitmap says whether child `i` is a leaf. -/
theorem testBit_generateBitmaps_snd (node : InternalNode α) (i : Nibble) :
    node.generateBitmaps.2.testBit i.val = (node.children i).any Child.isLeaf := by
  rw [generateBitmaps, (testBit_foldl_addToBitmaps node i.val _ _).2, Nat.zero_testBit,
    Bool.false_or, Bool.eq_iff_iff, List.any_eq_true]
  constructor
  · rintro ⟨n, -, hn⟩
    simp only [Bool.and_eq_true, beq_iff_eq] at hn
    rw [← Fin.ext hn.1]
    exact hn.2
  · intro hi
    exact ⟨i, List.mem_finRange i, by simp [hi]⟩

/-- The bitmaps have no bit past the sixteenth. -/
theorem testBit_generateBitmaps_of_le (node : InternalNode α) {i : Nat} (hi : 16 ≤ i) :
    node.generateBitmaps.1.testBit i = false ∧ node.generateBitmaps.2.testBit i = false := by
  have hne : ∀ n : Nibble, (n.val == i) = false := fun n => by
    have := n.isLt
    simp only [beq_eq_false_iff_ne]
    omega
  rw [generateBitmaps, (testBit_foldl_addToBitmaps node i _ _).1,
    (testBit_foldl_addToBitmaps node i _ _).2]
  simp [hne]

/-- The mask of `range_bitmaps` is the bits of the range, within sixteen. -/
theorem testBit_rangeMask (start width i : Nat) :
    ((((1 <<< width) - 1) <<< start) % 2 ^ 16).testBit i =
      decide (i < 16 ∧ start ≤ i ∧ i < start + width) := by
  rw [Nat.testBit_mod_two_pow, Nat.testBit_shiftLeft, Nat.shiftLeft_eq, Nat.one_mul,
    Nat.testBit_two_pow_sub_one]
  by_cases h1 : i < 16 <;> by_cases h2 : start ≤ i <;> by_cases h3 : i < start + width <;>
    simp [h1, h2, h3] <;> omega

theorem testBit_rangeBitmaps (start width : Nat) (bitmaps : Nat × Nat) (i : Nat) :
    (rangeBitmaps start width bitmaps).1.testBit i =
        (decide (i < 16 ∧ start ≤ i ∧ i < start + width) && bitmaps.1.testBit i) ∧
      (rangeBitmaps start width bitmaps).2.testBit i =
        (decide (i < 16 ∧ start ≤ i ∧ i < start + width) && bitmaps.2.testBit i) := by
  simp only [rangeBitmaps]
  rw [Nat.testBit_and, Nat.testBit_and, testBit_rangeMask]
  exact ⟨Bool.and_comm .., Bool.and_comm ..⟩

/-- Bitmaps masked to a range, masked again to a range within it. -/
theorem rangeBitmaps_rangeBitmaps {start width start' width' : Nat} (h₁ : start ≤ start')
    (h₂ : start' + width' ≤ start + width) (bitmaps : Nat × Nat) :
    rangeBitmaps start' width' (rangeBitmaps start width bitmaps) = rangeBitmaps start' width' bitmaps := by
  apply Prod.ext <;> apply Nat.eq_of_testBit_eq <;> intro i
  · rw [(testBit_rangeBitmaps _ _ _ i).1, (testBit_rangeBitmaps _ _ _ i).1,
      (testBit_rangeBitmaps _ _ _ i).1]
    by_cases h : i < 16 ∧ start' ≤ i ∧ i < start' + width'
    · rw [decide_eq_true h, decide_eq_true (by omega : i < 16 ∧ start ≤ i ∧ i < start + width)]
      simp
    · simp [h]
  · rw [(testBit_rangeBitmaps _ _ _ i).2, (testBit_rangeBitmaps _ _ _ i).2,
      (testBit_rangeBitmaps _ _ _ i).2]
    by_cases h : i < 16 ∧ start' ≤ i ∧ i < start' + width'
    · rw [decide_eq_true h, decide_eq_true (by omega : i < 16 ∧ start ≤ i ∧ i < start + width)]
      simp
    · simp [h]

/-! ## The children of a part -/

/-- The nibbles in `[start, start + width)` with a child, in order. -/
def occupied (node : InternalNode α) (start width : Nat) : List Nibble :=
  (List.finRange 16).filter fun n =>
    decide (start ≤ n.val ∧ n.val < start + width) && (node.children n).isSome

theorem mem_occupied {node : InternalNode α} {start width : Nat} {n : Nibble} :
    n ∈ node.occupied start width ↔
      (start ≤ n.val ∧ n.val < start + width) ∧ (node.children n).isSome := by
  simp [occupied, List.mem_filter, List.mem_finRange]

/-- The existence bitmap of a part marks exactly its children. -/
theorem testBit_rangeBitmaps_generateBitmaps_fst (node : InternalNode α) (start width i : Nat) :
    (rangeBitmaps start width node.generateBitmaps).1.testBit i =
      (node.occupied start width).any fun n => n.val == i := by
  rw [(testBit_rangeBitmaps _ _ _ i).1, Bool.eq_iff_iff, List.any_eq_true]
  by_cases hi : i < 16
  · rw [testBit_generateBitmaps_fst node ⟨i, hi⟩]
    constructor
    · intro h
      simp only [Bool.and_eq_true, decide_eq_true_eq] at h
      exact ⟨⟨i, hi⟩, mem_occupied.mpr ⟨⟨h.1.2.1, h.1.2.2⟩, h.2⟩, by simp⟩
    · rintro ⟨n, hn, hni⟩
      obtain ⟨hrange, hsome⟩ := mem_occupied.mp hn
      obtain rfl : n = ⟨i, hi⟩ := Fin.ext (by simpa using hni)
      simp [hrange, hsome, hi]
  · rw [(testBit_generateBitmaps_of_le node (by omega)).1, Bool.and_false]
    simp only [Bool.false_eq_true, false_iff, not_exists, not_and, beq_iff_eq]
    intro n _ hn
    exact hi (hn ▸ n.isLt)

/-- The leaf bitmap of a part is not zero exactly when one of its children is a leaf. -/
theorem rangeBitmaps_generateBitmaps_snd_ne_zero (node : InternalNode α) (start width : Nat) :
    (rangeBitmaps start width node.generateBitmaps).2 ≠ 0 ↔
      ∃ n ∈ node.occupied start width, (node.children n).any Child.isLeaf := by
  constructor
  · intro h
    obtain ⟨i, hi⟩ : ∃ i, (rangeBitmaps start width node.generateBitmaps).2.testBit i = true :=
      Nat.exists_testBit_of_ne_zero h
    rw [(testBit_rangeBitmaps _ _ _ i).2] at hi
    simp only [Bool.and_eq_true, decide_eq_true_eq] at hi
    obtain ⟨⟨hi16, hrange⟩, hbit⟩ := hi
    rw [testBit_generateBitmaps_snd node ⟨i, hi16⟩] at hbit
    have hsome : (node.children ⟨i, hi16⟩).isSome := by
      cases hc : node.children ⟨i, hi16⟩ <;> simp_all
    exact ⟨⟨i, hi16⟩, mem_occupied.mpr ⟨hrange, hsome⟩, hbit⟩
  · rintro ⟨n, hn, hleaf⟩ h0
    have hbit := (testBit_rangeBitmaps start width node.generateBitmaps n.val).2
    rw [h0, Nat.zero_testBit, testBit_generateBitmaps_snd node n, hleaf,
      decide_eq_true ⟨n.isLt, (mem_occupied.mp hn).1⟩] at hbit
    exact Bool.false_ne_true hbit

/-- A part's existence bitmap is zero exactly when the part has no child. -/
theorem rangeBitmaps_generateBitmaps_fst_eq_zero (node : InternalNode α) (start width : Nat) :
    (rangeBitmaps start width node.generateBitmaps).1 = 0 ↔ node.occupied start width = [] := by
  constructor
  · intro h
    apply List.eq_nil_iff_forall_not_mem.mpr
    intro n hn
    have hbit := testBit_rangeBitmaps_generateBitmaps_fst node start width n.val
    rw [h, Nat.zero_testBit] at hbit
    exact Bool.false_ne_true (hbit.trans (List.any_eq_true.mpr ⟨n, hn, by simp⟩))
  · intro h
    apply Nat.eq_of_testBit_eq
    intro i
    rw [testBit_rangeBitmaps_generateBitmaps_fst, h, Nat.zero_testBit]
    rfl

/-- `count_ones` of a part's existence bitmap is its number of children. -/
theorem countOnes_rangeBitmaps_generateBitmaps (node : InternalNode α) (start width : Nat) :
    countOnes 16 (rangeBitmaps start width node.generateBitmaps).1 =
      (node.occupied start width).length := by
  rw [countOnes_eq_length_filter]
  have hmap : (List.range 16).filter (rangeBitmaps start width node.generateBitmaps).1.testBit =
      (node.occupied start width).map Fin.val := by
    rw [occupied, ← List.map_coe_finRange_eq_range, List.filter_map]
    congr 1
    apply List.filter_congr
    intro n _
    rw [Function.comp_apply, (testBit_rangeBitmaps _ _ _ _).1, testBit_generateBitmaps_fst]
    simp [n.isLt]
  rw [hmap, List.length_map]

/-- The first child of a part is where its existence bitmap has its trailing zeros. -/
theorem trailingZeros_rangeBitmaps_generateBitmaps {node : InternalNode α} {start width : Nat}
    {n : Nibble} {rest : List Nibble} (h : node.occupied start width = n :: rest) :
    trailingZeros 16 (rangeBitmaps start width node.generateBitmaps).1 = n.val := by
  have hsorted : (n :: rest).Pairwise (· < ·) := h ▸ (List.pairwise_lt_finRange 16).filter _
  apply trailingZeros_eq n.isLt
  · -- every child of the part is at `n` or after it
    intro i hi
    rw [testBit_rangeBitmaps_generateBitmaps_fst, h, Bool.eq_false_iff]
    intro hany
    obtain ⟨m, hm, hmi⟩ := List.any_eq_true.mp hany
    have hnm : n ≤ m := by
      rcases List.mem_cons.mp hm with rfl | hm'
      · exact le_refl _
      · exact (List.rel_of_pairwise_cons hsorted hm').le
    have := Fin.le_def.mp hnm
    simp only [beq_iff_eq] at hmi
    omega
  · rw [testBit_rangeBitmaps_generateBitmaps_fst, h]
    simp

end InternalNode

/-! ## The leaves of a part -/

/-- The root of the sparse Merkle tree over 256-bit keys, of the subtree at
`depth` over the leaves in it. -/
def smtRoot {α : Type} (H : SmtHasher α) (depth : Nat) (ls : List (HashValue × α)) : α :=
  root H.internal H.placeholder HashValue.getBit (256 - depth) depth ls

/-- The leaves whose nibble `d` is `n`. -/
def under {α : Type} (d : Nat) (n : Nibble) (ls : List (HashValue × α)) : List (HashValue × α) :=
  ls.filter fun l => l.1.getNibble d == n

/-- The leaves whose nibble `d` is in `[start, start + width)`. -/
def inPart {α : Type} (d start width : Nat) (ls : List (HashValue × α)) : List (HashValue × α) :=
  ls.filter fun l => decide (start ≤ (l.1.getNibble d).val ∧ (l.1.getNibble d).val < start + width)

theorem two_le_length_of_mem_of_ne {β : Type} {l : List β} {a b : β} (ha : a ∈ l) (hb : b ∈ l)
    (hab : a ≠ b) : 2 ≤ l.length := by
  match l, ha, hb with
  | [_], ha, hb => exact absurd ((List.mem_singleton.mp ha).trans (List.mem_singleton.mp hb).symm) hab
  | _ :: _ :: _, _, _ => simp

namespace InternalNode

variable {α : Type} (H : SmtHasher α)

/-- Child `n` of a node at nibble depth `d` agrees with the leaves under it. -/
def ChildAgrees (d : Nat) (ls : List (HashValue × α)) (n : Nibble) : Option (Child α) → Prop
  | none => under d n ls = []
  | some c => c.hash = smtRoot H (4 * (d + 1)) (under d n ls) ∧
      (c.isLeaf = true → (under d n ls).length = 1) ∧ (c.isLeaf = false → 2 ≤ (under d n ls).length)

/-- Every child of the node agrees with the leaves under its nibble. -/
def Agrees (d : Nat) (ls : List (HashValue × α)) (node : InternalNode α) : Prop :=
  ∀ n, ChildAgrees H d ls n (node.children n)

variable {H}

theorem under_ne_nil {d : Nat} {ls : List (HashValue × α)} {node : InternalNode α}
    (hagree : node.Agrees H d ls) {n : Nibble} (hn : (node.children n).isSome) : under d n ls ≠ [] := by
  obtain ⟨c, hc⟩ := Option.isSome_iff_exists.mp hn
  have hch := hagree n
  rw [hc] at hch
  obtain ⟨-, hleaf, hinternal⟩ := hch
  intro hnil
  cases hl : c.isLeaf
  · have := hinternal hl
    rw [hnil] at this
    simp at this
  · have := hleaf hl
    rw [hnil] at this
    simp at this

/-- A leaf of a part lies under one of the part's children. -/
theorem getNibble_mem_occupied {d start width : Nat} {ls : List (HashValue × α)}
    {node : InternalNode α} (hagree : node.Agrees H d ls) {l : HashValue × α}
    (hl : l ∈ inPart d start width ls) : l.1.getNibble d ∈ node.occupied start width := by
  simp only [inPart, List.mem_filter, decide_eq_true_eq] at hl
  refine mem_occupied.mpr ⟨hl.2, ?_⟩
  -- an absent child has no leaf under it, and `l` is under child `l.1.getNibble d`
  cases hc : node.children (l.1.getNibble d) with
  | some c => rfl
  | none =>
    have hch := hagree (l.1.getNibble d)
    rw [hc] at hch
    have hmem : l ∈ under d (l.1.getNibble d) ls := by simp [under, hl.1]
    rw [show under d (l.1.getNibble d) ls = [] from hch] at hmem
    cases hmem

theorem inPart_eq_nil {d start width : Nat} {ls : List (HashValue × α)} {node : InternalNode α}
    (hagree : node.Agrees H d ls) (h : node.occupied start width = []) : inPart d start width ls = [] := by
  apply List.eq_nil_iff_forall_not_mem.mpr
  intro l hl
  have := getNibble_mem_occupied hagree hl
  rw [h] at this
  cases this

/-- A part with a single child holds the leaves under it. -/
theorem inPart_eq_under {d start width : Nat} {ls : List (HashValue × α)} {node : InternalNode α}
    (hagree : node.Agrees H d ls) {n : Nibble} (h : node.occupied start width = [n]) :
    inPart d start width ls = under d n ls := by
  have hn := (mem_occupied.mp (h ▸ List.mem_singleton_self n)).1
  apply List.filter_congr
  intro l hl
  by_cases hnib : l.1.getNibble d = n
  · simp [hnib, hn]
  · have hnot : ¬(start ≤ (l.1.getNibble d).val ∧ (l.1.getNibble d).val < start + width) := by
      intro hrange
      have hmem : l.1.getNibble d ∈ node.occupied start width :=
        getNibble_mem_occupied hagree (by simp [inPart, hl, hrange])
      rw [h] at hmem
      exact hnib (List.mem_singleton.mp hmem)
    simp [hnib, hnot]

/-- A part with two children, or with one internal child, holds two leaves or more. -/
theorem two_le_length_inPart {d start width : Nat} {ls : List (HashValue × α)}
    {node : InternalNode α} (hagree : node.Agrees H d ls)
    (h : 2 ≤ (node.occupied start width).length ∨
      ∃ n c, node.occupied start width = [n] ∧ node.children n = some c ∧ c.isLeaf = false) :
    2 ≤ (inPart d start width ls).length := by
  rcases h with htwo | ⟨n, c, hocc, hc, hleaf⟩
  · -- a leaf under each of two different children
    obtain ⟨n₁, n₂, rest, hocc⟩ : ∃ n₁ n₂ rest, node.occupied start width = n₁ :: n₂ :: rest := by
      match hl : node.occupied start width, htwo with
      | n₁ :: n₂ :: rest, _ => exact ⟨n₁, n₂, rest, rfl⟩
    have hlt : n₁ < n₂ := by
      have hsorted : (n₁ :: n₂ :: rest).Pairwise (· < ·) := hocc ▸ (List.pairwise_lt_finRange 16).filter _
      exact List.rel_of_pairwise_cons hsorted List.mem_cons_self
    have hmem₁ := mem_occupied.mp (hocc ▸ List.mem_cons_self : n₁ ∈ node.occupied start width)
    have hmem₂ := mem_occupied.mp
      (hocc ▸ List.mem_cons_of_mem _ List.mem_cons_self : n₂ ∈ node.occupied start width)
    obtain ⟨l₁, hl₁⟩ := List.exists_mem_of_ne_nil _ (under_ne_nil hagree hmem₁.2)
    obtain ⟨l₂, hl₂⟩ := List.exists_mem_of_ne_nil _ (under_ne_nil hagree hmem₂.2)
    simp only [under, List.mem_filter, beq_iff_eq] at hl₁ hl₂
    apply two_le_length_of_mem_of_ne (a := l₁) (b := l₂)
    · simp [inPart, hl₁.1, hl₁.2, hmem₁.1]
    · simp [inPart, hl₂.1, hl₂.2, hmem₂.1]
    · intro heq
      rw [heq, hl₂.2] at hl₁
      exact absurd hl₁.2 (ne_of_gt hlt)
  · -- the one child is internal
    have hch := hagree n
    rw [hc] at hch
    rw [inPart_eq_under hagree hocc]
    exact hch.2.2 hleaf

/-- The bit below nibble `d`'s part `[start, start + 2 ^ (j + 1))` splits it in two halves. -/
theorem inPart_filter_getBit {d start j : Nat} (hd : d < 64) (hj : j < 4)
    (hdvd : 2 ^ (j + 1) ∣ start) (ls : List (HashValue × α)) :
    (inPart d start (2 ^ (j + 1)) ls).filter (fun l => !HashValue.getBit l.1 (4 * d + (3 - j))) =
        inPart d start (2 ^ j) ls ∧
      (inPart d start (2 ^ (j + 1)) ls).filter (fun l => HashValue.getBit l.1 (4 * d + (3 - j))) =
        inPart d (start + 2 ^ j) (2 ^ j) ls := by
  have hpow : 2 ^ (j + 1) = 2 ^ j + 2 ^ j := by rw [Nat.pow_succ]; omega
  -- the bit is bit `j` of the nibble, which tells the upper half from the lower
  have hbit : ∀ l : HashValue × α, start ≤ (l.1.getNibble d).val →
      (l.1.getNibble d).val < start + 2 ^ (j + 1) →
      HashValue.getBit l.1 (4 * d + (3 - j)) = decide (start + 2 ^ j ≤ (l.1.getNibble d).val) := by
    intro l h₁ h₂
    rw [HashValue.getBit_four_mul_add hd (by omega), show 3 - (3 - j) = j by omega,
      testBit_of_mem_block hdvd h₁ h₂]
  constructor <;> rw [inPart, List.filter_filter, inPart] <;> apply List.filter_congr <;> intro l _
  · by_cases hr : start ≤ (l.1.getNibble d).val ∧ (l.1.getNibble d).val < start + 2 ^ (j + 1)
    · rw [hbit l hr.1 hr.2, ← decide_not, ← Bool.decide_and]
      exact decide_eq_decide.mpr (by omega)
    · rw [decide_eq_false hr, Bool.and_false]
      exact (decide_eq_false (by omega)).symm
  · by_cases hr : start ≤ (l.1.getNibble d).val ∧ (l.1.getNibble d).val < start + 2 ^ (j + 1)
    · rw [hbit l hr.1 hr.2, ← Bool.decide_and]
      exact decide_eq_decide.mpr (by omega)
    · rw [decide_eq_false hr, Bool.and_false]
      exact (decide_eq_false (by omega)).symm

/-- A part with two leaves or more is the node over its two halves. -/
theorem smtRoot_inPart_succ {d start j : Nat} (hd : d < 64) (hj : j < 4) (hdvd : 2 ^ (j + 1) ∣ start)
    {ls : List (HashValue × α)} (htwo : 2 ≤ (inPart d start (2 ^ (j + 1)) ls).length) :
    smtRoot H (4 * d + (4 - (j + 1))) (inPart d start (2 ^ (j + 1)) ls) =
      H.internal (smtRoot H (4 * d + (4 - j)) (inPart d start (2 ^ j) ls))
        (smtRoot H (4 * d + (4 - j)) (inPart d (start + 2 ^ j) (2 ^ j) ls)) := by
  obtain ⟨hleft, hright⟩ := inPart_filter_getBit hd hj hdvd ls
  have hdepth : 4 * d + (4 - (j + 1)) = 4 * d + (3 - j) := by omega
  have hlev : 256 - (4 * d + (3 - j)) = 256 - (4 * d + (4 - j)) + 1 := by omega
  rw [smtRoot, smtRoot, smtRoot, hdepth, hlev, root_succ_of_two_le htwo, hleft, hright,
    show 4 * d + (3 - j) + 1 = 4 * d + (4 - j) by omega]

theorem exists_child_of_occupied_eq_cons {node : InternalNode α} {start width : Nat} {n : Nibble}
    {rest : List Nibble} (h : node.occupied start width = n :: rest) : ∃ c, node.children n = some c :=
  Option.isSome_iff_exists.mp (mem_occupied.mp (h ▸ List.mem_cons_self : n ∈ node.occupied start width)).2

/-- The only child of a part is the first one of its existence bitmap. -/
theorem onlyChild_rangeBitmaps {node : InternalNode α} {start width : Nat} {n : Nibble}
    {rest : List Nibble} (h : node.occupied start width = n :: rest) {c : Child α}
    (hc : node.children n = some c) :
    node.onlyChild (rangeBitmaps start width node.generateBitmaps).1 = .ok (n, c) := by
  rw [onlyChild, trailingZeros_rangeBitmaps_generateBitmaps h, nibbleFrom, dif_pos n.isLt]
  simp only [bind, Except.bind, child, hc]

/-- A part of a single nibble has one child at most. -/
theorem length_occupied_one_le (node : InternalNode α) (start : Nat) :
    (node.occupied start 1).length ≤ 1 := by
  have hsorted : (node.occupied start 1).Pairwise (· < ·) := (List.pairwise_lt_finRange 16).filter _
  rcases hocc : node.occupied start 1 with _ | ⟨n, _ | ⟨m, rest⟩⟩
  · simp
  · simp
  · -- two children of one nibble would be equal
    rw [hocc] at hsorted
    have hlt := Fin.lt_def.mp (List.rel_of_pairwise_cons hsorted List.mem_cons_self)
    have hn := (mem_occupied.mp (hocc ▸ List.mem_cons_self : n ∈ node.occupied start 1)).1
    have hm := (mem_occupied.mp
      (hocc ▸ List.mem_cons_of_mem _ List.mem_cons_self : m ∈ node.occupied start 1)).1
    omega

/-- A part whose bitmaps do not say "one leaf child" and that has a child holds two
children, or one that is internal. -/
theorem two_le_length_occupied_or_internal {node : InternalNode α} {start width : Nat}
    (hne : node.occupied start width ≠ [])
    (hone : ¬(countOnes 16 (rangeBitmaps start width node.generateBitmaps).1 = 1 ∧
      (rangeBitmaps start width node.generateBitmaps).2 ≠ 0)) :
    2 ≤ (node.occupied start width).length ∨
      ∃ n c, node.occupied start width = [n] ∧ node.children n = some c ∧ c.isLeaf = false := by
  rw [countOnes_rangeBitmaps_generateBitmaps, rangeBitmaps_generateBitmaps_snd_ne_zero] at hone
  rcases hocc : node.occupied start width with _ | ⟨n, _ | ⟨m, rest⟩⟩
  · exact absurd hocc hne
  · right
    obtain ⟨c, hc⟩ := exists_child_of_occupied_eq_cons hocc
    refine ⟨n, c, rfl, hc, ?_⟩
    cases hl : c.isLeaf
    · rfl
    · exact absurd ⟨by rw [hocc]; rfl, n, by rw [hocc]; exact List.mem_singleton_self n,
        by rw [hc]; exact hl⟩ hone
  · left
    simp

/-- A part with one child has the child's hash as its root, when the part is the
child's nibble or the child is a leaf. -/
theorem hash_eq_smtRoot_inPart {d start width depth : Nat} {ls : List (HashValue × α)}
    {node : InternalNode α} (hagree : node.Agrees H d ls) {n : Nibble} {c : Child α}
    (hocc : node.occupied start width = [n]) (hc : node.children n = some c)
    (h : depth = 4 * (d + 1) ∨ c.isLeaf = true) :
    c.hash = smtRoot H depth (inPart d start width ls) := by
  have hch := hagree n
  rw [hc] at hch
  obtain ⟨hhash, hleaf, -⟩ := hch
  rw [inPart_eq_under hagree hocc]
  rcases h with rfl | hl
  · exact hhash
  · -- a leaf alone is its own root at every depth
    obtain ⟨x, hx⟩ := List.length_eq_one_iff.mp (hleaf hl)
    rw [hhash, hx, smtRoot, smtRoot, root_singleton, root_singleton]

/-- `merkle_hash` of the part `[start, start + 2 ^ j)` is the root over the leaves in
it at the part's bit depth; the bitmaps it is given need only agree with the
node's on the part. -/
theorem merkleHash_eq_smtRoot {d : Nat} {ls : List (HashValue × α)} {node : InternalNode α}
    (hagree : node.Agrees H d ls) (hd : d < 64) :
    ∀ (j start : Nat) (bitmaps : Nat × Nat), j ≤ 4 → 2 ^ j ∣ start → start + 2 ^ j ≤ 16 →
      rangeBitmaps start (2 ^ j) bitmaps = rangeBitmaps start (2 ^ j) node.generateBitmaps →
      node.merkleHash H start (2 ^ j) bitmaps =
        .ok (smtRoot H (4 * d + (4 - j)) (inPart d start (2 ^ j) ls)) := by
  intro j
  induction j with
  | zero =>
    intro start bitmaps _ _ _ hrange
    rw [merkleHash]
    dsimp only
    rw [hrange, Nat.pow_zero]
    by_cases h0 : (rangeBitmaps start 1 node.generateBitmaps).1 = 0
    · rw [dif_pos h0, inPart_eq_nil hagree ((rangeBitmaps_generateBitmaps_fst_eq_zero _ _ _).mp h0),
        smtRoot, root_nil]
    · -- a part of one nibble: the child at that nibble
      rw [dif_neg h0, if_pos (Or.inl rfl)]
      have hne : node.occupied start 1 ≠ [] :=
        fun h => h0 ((rangeBitmaps_generateBitmaps_fst_eq_zero _ _ _).mpr h)
      obtain ⟨n, hocc⟩ : ∃ n, node.occupied start 1 = [n] := List.length_eq_one_iff.mp
        (Nat.le_antisymm (length_occupied_one_le node start) (List.length_pos_iff.mpr hne))
      obtain ⟨c, hc⟩ := exists_child_of_occupied_eq_cons hocc
      rw [onlyChild_rangeBitmaps hocc hc, ← hash_eq_smtRoot_inPart hagree hocc hc (Or.inl (by omega))]
      rfl
  | succ j ih =>
    intro start bitmaps hj hdvd hfit hrange
    rw [merkleHash]
    dsimp only
    rw [hrange]
    by_cases h0 : (rangeBitmaps start (2 ^ (j + 1)) node.generateBitmaps).1 = 0
    · rw [dif_pos h0, inPart_eq_nil hagree ((rangeBitmaps_generateBitmaps_fst_eq_zero _ _ _).mp h0),
        smtRoot, root_nil]
    · rw [dif_neg h0]
      have hne : node.occupied start (2 ^ (j + 1)) ≠ [] :=
        fun h => h0 ((rangeBitmaps_generateBitmaps_fst_eq_zero _ _ _).mpr h)
      by_cases hone : countOnes 16 (rangeBitmaps start (2 ^ (j + 1)) node.generateBitmaps).1 = 1 ∧
          (rangeBitmaps start (2 ^ (j + 1)) node.generateBitmaps).2 ≠ 0
      · -- a single child that is a leaf
        rw [if_pos (Or.inr hone)]
        rw [countOnes_rangeBitmaps_generateBitmaps] at hone
        obtain ⟨n, hocc⟩ := List.length_eq_one_iff.mp hone.1
        obtain ⟨m, hm, hleaf⟩ := (rangeBitmaps_generateBitmaps_snd_ne_zero _ _ _).mp hone.2
        rw [hocc, List.mem_singleton] at hm
        subst hm
        obtain ⟨c, hc⟩ := exists_child_of_occupied_eq_cons hocc
        rw [hc] at hleaf
        rw [onlyChild_rangeBitmaps hocc hc, ← hash_eq_smtRoot_inPart hagree hocc hc (Or.inr hleaf)]
        rfl
      · -- the two halves, each a part of the range's bitmaps
        have hwidth : 2 ^ (j + 1) ≠ 1 := (Nat.one_lt_two_pow (Nat.succ_ne_zero j)).ne'
        rw [if_neg (not_or.mpr ⟨hwidth, hone⟩)]
        have hpow : 2 ^ (j + 1) = 2 ^ j + 2 ^ j := by rw [Nat.pow_succ]; omega
        have hhalf : 2 ^ (j + 1) / 2 = 2 ^ j := by omega
        have hdvd' : 2 ^ j ∣ start := Nat.dvd_trans (Nat.pow_dvd_pow 2 (Nat.le_succ j)) hdvd
        rw [hhalf, ih start _ (by omega) hdvd' (by omega)
            (rangeBitmaps_rangeBitmaps (Nat.le_refl _) (by omega) _),
          ih (start + 2 ^ j) _ (by omega) (Nat.dvd_add hdvd' (Nat.dvd_refl _)) (by omega)
            (rangeBitmaps_rangeBitmaps (by omega) (by omega) _),
          smtRoot_inPart_succ hd (by omega) hdvd
            (two_le_length_inPart hagree (two_le_length_occupied_or_internal hne hone))]
        rfl

/-- Every nibble is in `[0, 16)`. -/
theorem inPart_zero_sixteen (d : Nat) (ls : List (HashValue × α)) : inPart d 0 16 ls = ls :=
  List.filter_eq_self.mpr fun l _ => by simp [(l.1.getNibble d).isLt]

/-- `InternalNode::hash` of a node at nibble depth `d` that agrees with the leaves
under it is their root at bit depth `4 d`. -/
theorem hash_eq_smtRoot {d : Nat} {ls : List (HashValue × α)} {node : InternalNode α}
    (hagree : node.Agrees H d ls) (hd : d < 64) : node.hash H = .ok (smtRoot H (4 * d) ls) := by
  have hall := merkleHash_eq_smtRoot hagree hd 4 0 node.generateBitmaps (Nat.le_refl 4)
    (Nat.dvd_zero _) (by decide) rfl
  rw [show (2 : Nat) ^ 4 = 16 by rfl, inPart_zero_sixteen, Nat.sub_self, Nat.add_zero] at hall
  exact hall

end InternalNode

end AptosCore
