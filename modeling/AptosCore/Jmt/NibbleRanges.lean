import AptosCore.Jmt.Node
import AptosCore.Lib.BinarySearch

/-!
# Splitting sorted keys

`NibbleRangeIterator` (`storage/jellyfish-merkle/src/lib.rs`) walks key-value
pairs sorted by key and yields, for each nibble at `nibble_idx`, the inclusive
range of the pairs with that nibble; the end of a range is found by a binary
search for the last index whose nibble is not above the first one's
(`lastFalseLoop`). `partition` (`storage/scratchpad/src/sparse_merkle/utils.rs`)
finds by a binary search the first update whose key has the bit at `depth` set
(`partitionPointLoop`).

Both searches are right when the nibble or the bit grows along the slice, which
it does when the keys are sorted and share the nibbles or bits above
(`getNibble_mono`, `getBit_mono`). Then the iterator's ranges tile the slice in
order, each the whole run of one nibble (`toList_spec`), and `partition` is
`List.findIdx` (`partition_eq_findIdx`). Keys that do not share the nibbles
above can make a range hold two nibbles.
-/

namespace AptosCore

open BinarySearch

namespace HashValue

/-- `HashValue::bit`: bit `7 - index % 8` of byte `index / 8`. -/
def bit (h : HashValue) (index : Nat) : Bool :=
  let pos := index / 8
  let bit := 7 - index % 8
  (byte h pos >>> bit) &&& 1 != 0

theorem bit_eq_getBit (h : HashValue) (index : Nat) : h.bit index = getBit h index := rfl

/-- The bits of a key above `s`, the bit at `255 - s` the last of them. -/
theorem div_two_pow_eq_of_getBit_eq {h h' : HashValue} {d : Nat} (hd : d ≤ 256)
    (heq : ∀ i, i < d → getBit h i = getBit h' i) :
    h.val / 2 ^ (256 - d) = h'.val / 2 ^ (256 - d) := by
  apply Nat.eq_of_testBit_eq
  intro t
  rw [Nat.testBit_div_two_pow, Nat.testBit_div_two_pow]
  by_cases ht : t + (256 - d) < 256
  · -- bit `t + (256 - d)` of the value is the key's bit `255 - t - (256 - d)`, above `d`
    have hbit := heq (255 - (t + (256 - d))) (by omega)
    rwa [getBit_eq (by omega), getBit_eq (by omega), show 255 - (255 - (t + (256 - d))) = t + (256 - d) by omega]
      at hbit
  · have hle : 2 ^ 256 ≤ 2 ^ (t + (256 - d)) := Nat.pow_le_pow_right (by omega) (by omega)
    rw [Nat.testBit_lt_two_pow (lt_of_lt_of_le h.isLt hle), Nat.testBit_lt_two_pow (lt_of_lt_of_le h'.isLt hle)]

/-- Among keys that agree on their first `d` bits, bit `d` grows with the key. -/
theorem getBit_mono {h h' : HashValue} {d : Nat} (hd : d < 256) (hle : h ≤ h')
    (heq : ∀ i, i < d → getBit h i = getBit h' i) (hbit : getBit h d = true) : getBit h' d = true := by
  have hpre := div_two_pow_eq_of_getBit_eq (by omega) heq
  have hsplit : 2 ^ (256 - d) = 2 ^ (255 - d) * 2 := by
    rw [← Nat.pow_succ]
    congr 1
    omega
  rw [hsplit, ← Nat.div_div_eq_div_mul, ← Nat.div_div_eq_div_mul] at hpre
  have hmono : h.val / 2 ^ (255 - d) ≤ h'.val / 2 ^ (255 - d) := Nat.div_le_div_right (Fin.le_def.mp hle)
  rw [getBit_eq hd, Nat.testBit_eq_decide_div_mod_eq, decide_eq_true_eq] at hbit ⊢
  omega

end HashValue

/-! ## `NibbleRangeIterator` -/

/-- `NibbleRangeIterator`: the pairs, sorted by key, the nibble it splits them by,
and where the next range starts. -/
structure NibbleRangeIterator (κ : Type) where
  sortedKvs : List (HashValue × κ)
  nibbleIdx : Nat
  pos : Nat
  deriving DecidableEq, Repr

namespace NibbleRangeIterator

variable {κ : Type}

/-- `NibbleRangeIterator::new`, which asserts that the nibble is one of the key's. -/
def new {α : Type} (sortedKvs : List (HashValue × κ)) (nibbleIdx : Nat) :
    Except (JmtError α) (NibbleRangeIterator κ) :=
  if nibbleIdx < rootNibbleHeight then .ok ⟨sortedKvs, nibbleIdx, 0⟩
  else .error (.panic "assertion failed: nibble_idx < ROOT_NIBBLE_HEIGHT")

/-- `Iterator::next`: the range from `pos` to the last index of the nibble at `pos`. -/
def next (it : NibbleRangeIterator κ) : Option ((Nat × Nat) × NibbleRangeIterator κ) :=
  let left := it.pos
  if h : it.pos < it.sortedKvs.length then
    let curNibble := (it.sortedKvs.get ⟨left, h⟩).1.nibble it.nibbleIdx
    -- the last index of `cur_nibble`
    let i := lastFalseLoop (fun kv => decide (kv.1.nibble it.nibbleIdx > curNibble)) it.sortedKvs left
      (it.sortedKvs.length - 1) (by omega)
    some ((left, i), { it with pos := i + 1 })
  else none

theorem next_eq_none {it : NibbleRangeIterator κ} (h : it.sortedKvs.length ≤ it.pos) : it.next = none := by
  rw [next, dif_neg (by omega)]

/-- A range starts at `pos`, ends within the pairs, and the iterator goes on after it. -/
theorem next_eq_some {it it' : NibbleRangeIterator κ} {range : Nat × Nat}
    (h : it.next = some (range, it')) :
    range.1 = it.pos ∧ it.pos ≤ range.2 ∧ range.2 < it.sortedKvs.length ∧
      it' = { it with pos := range.2 + 1 } := by
  unfold next at h
  dsimp only at h
  split at h
  · rename_i hpos
    simp only [Option.some.injEq, Prod.mk.injEq] at h
    obtain ⟨rfl, rfl⟩ := h
    refine ⟨rfl, ?_, ?_, rfl⟩
    · exact (lastFalseLoop_mem _ _ _ _ (Nat.le_refl _) (by omega)).1
    · exact lt_of_le_of_lt (lastFalseLoop_mem _ _ _ _ (Nat.le_refl _) (by omega)).2 (by omega)
  · cases h

set_option linter.unusedVariables false in
/-- The ranges the iterator yields, until `next` returns `None`. -/
def toList (it : NibbleRangeIterator κ) : List (Nat × Nat) :=
  match h : it.next with
  | none => []
  | some (range, it') => range :: toList it'
termination_by it.sortedKvs.length - it.pos
decreasing_by
  obtain ⟨-, hle, hlt, rfl⟩ := next_eq_some h
  dsimp only
  omega

theorem toList_of_next_none {it : NibbleRangeIterator κ} (h : it.next = none) : it.toList = [] := by
  rw [toList]
  split <;> simp_all

theorem toList_of_next_some {it it' : NibbleRangeIterator κ} {range : Nat × Nat}
    (h : it.next = some (range, it')) : it.toList = range :: it'.toList := by
  rw [toList]
  split <;> simp_all

/-! ## The runs of a nibble -/

/-- The nibble at `d` of the `k`-th pair, if there is one. -/
def nibbleAt (kvs : List (HashValue × κ)) (d k : Nat) : Option Nat := kvs[k]?.map fun kv => kv.1.nibble d

/-- Inclusive ranges that cover `[m, n)` one after the other. -/
def Contiguous : List (Nat × Nat) → Nat → Nat → Prop
  | [], m, n => m = n
  | range :: ranges, m, n => range.1 = m ∧ range.1 ≤ range.2 ∧ Contiguous ranges (range.2 + 1) n

/-- The inclusive range is a whole run of one nibble at `d`: the pairs in it have
the nibble of its first, and the pair after it, if any, another. -/
def IsNibbleRun (kvs : List (HashValue × κ)) (d : Nat) (range : Nat × Nat) : Prop :=
  (∀ k, range.1 ≤ k → k ≤ range.2 → nibbleAt kvs d k = nibbleAt kvs d range.1) ∧
    nibbleAt kvs d (range.2 + 1) ≠ nibbleAt kvs d range.1

theorem le_of_contiguous : ∀ {ranges : List (Nat × Nat)} {m n : Nat}, Contiguous ranges m n → m ≤ n
  | [], _, _, h => Nat.le_of_eq h
  | _ :: _, _, _, ⟨hstart, hle, hrest⟩ => by
    have := le_of_contiguous hrest
    omega

/-- Each of contiguous ranges lies within what they cover. -/
theorem bounds_of_contiguous : ∀ {ranges : List (Nat × Nat)} {m n : Nat}, Contiguous ranges m n →
    ∀ range ∈ ranges, m ≤ range.1 ∧ range.1 ≤ range.2 ∧ range.2 < n
  | [], _, _, _, _, hmem => absurd hmem List.not_mem_nil
  | _ :: _, _, _, ⟨hstart, hle, hrest⟩, range, hmem => by
    have hn := le_of_contiguous hrest
    rcases List.mem_cons.mp hmem with rfl | hmem
    · omega
    · have := bounds_of_contiguous hrest range hmem
      omega

/-- Contiguous ranges that cover something are not none, and one range covers it all. -/
theorem eq_singleton_of_contiguous {range : Nat × Nat} {m n : Nat} (h : Contiguous [range] m n) :
    range = (m, n - 1) := by
  obtain ⟨hstart, hle, hend⟩ := h
  simp only [Contiguous] at hend
  ext <;> simp <;> omega

section Sorted

variable {kvs : List (HashValue × κ)} {d : Nat}

/-- Along sorted keys that share their first `d` nibbles, nibble `d` grows. -/
theorem getNibble_mono (hsorted : kvs.Pairwise fun a b => a.1 ≤ b.1) (hd : d < 64)
    (hshared : ∀ a ∈ kvs, ∀ b ∈ kvs, ∀ i, i < d → a.1.getNibble i = b.1.getNibble i)
    {k k' : Nat} (hk : k < kvs.length) (hk' : k' < kvs.length) (hkk' : k ≤ k') :
    (kvs.get ⟨k, hk⟩).1.nibble d ≤ (kvs.get ⟨k', hk'⟩).1.nibble d := by
  have hle : (kvs.get ⟨k, hk⟩).1 ≤ (kvs.get ⟨k', hk'⟩).1 := by
    rcases Nat.eq_or_lt_of_le hkk' with rfl | hlt
    · exact Fin.le_refl _
    · exact List.pairwise_iff_getElem.mp hsorted k k' hk hk' hlt
  rw [← HashValue.getNibble_eq_nibble, ← HashValue.getNibble_eq_nibble]
  exact Fin.le_def.mp (HashValue.getNibble_le_of_le hd hle
    fun i hi => hshared _ (List.get_mem _ _) _ (List.get_mem _ _) i hi)

/-- One step of the iterator from a pair of the slice: the range up to the last
pair of its nibble. -/
theorem next_spec (hsorted : kvs.Pairwise fun a b => a.1 ≤ b.1) (hd : d < 64)
    (hshared : ∀ a ∈ kvs, ∀ b ∈ kvs, ∀ i, i < d → a.1.getNibble i = b.1.getNibble i)
    {pos : Nat} (hpos : pos < kvs.length) :
    ∃ r, (⟨kvs, d, pos⟩ : NibbleRangeIterator κ).next = some ((pos, r), ⟨kvs, d, r + 1⟩) ∧
      pos ≤ r ∧ r < kvs.length ∧ IsNibbleRun kvs d (pos, r) := by
  have hmono : UpwardClosed (fun kv => decide (kv.1.nibble d > (kvs.get ⟨pos, hpos⟩).1.nibble d)) kvs := by
    intro k k' hk hk' hkk' h
    simp only [decide_eq_true_eq] at h ⊢
    exact lt_of_lt_of_le h (getNibble_mono hsorted hd hshared hk hk' hkk')
  obtain ⟨hle, hlt, hbelow, habove⟩ := lastFalseLoop_spec hmono _ pos (kvs.length - 1) (by omega)
    (Nat.le_refl _) (by omega) (by simp) (fun k hk hkj => absurd hk (by omega))
  refine ⟨_, by rw [next, dif_pos hpos], hle, by omega, fun k hk hkr => ?_, ?_⟩
  · -- between `pos` and the end, the nibble is at least and at most the first one's
    have hk' : k < kvs.length := by omega
    have hup := getNibble_mono hsorted hd hshared hpos hk' hk
    have hdown := hbelow k hk' hkr
    simp only [decide_eq_false_iff_not, not_lt] at hdown
    simp only [nibbleAt, List.getElem?_eq_getElem hk', List.getElem?_eq_getElem hpos, Option.map_some,
      Option.some.injEq]
    exact Nat.le_antisymm hdown hup
  · -- after the end there is no pair, or one with a greater nibble
    dsimp only
    rw [nibbleAt, nibbleAt, List.getElem?_eq_getElem hpos]
    by_cases hr : lastFalseLoop (fun kv => decide (kv.1.nibble d > (kvs.get ⟨pos, hpos⟩).1.nibble d)) kvs pos
        (kvs.length - 1) (by omega) + 1 < kvs.length
    · have hgt := habove _ hr (by omega)
      simp only [decide_eq_true_eq] at hgt
      rw [List.getElem?_eq_getElem hr, Option.map_some, Option.map_some, Ne, Option.some.injEq]
      exact ne_of_gt hgt
    · rw [List.getElem?_eq_none (by omega)]
      simp

/-- From any position within sorted keys that share their first `d` nibbles, the
ranges the iterator yields cover the rest of the slice in order, each a whole run
of one nibble. The induction is on the number of pairs left. -/
theorem toList_spec (hsorted : kvs.Pairwise fun a b => a.1 ≤ b.1) (hd : d < 64)
    (hshared : ∀ a ∈ kvs, ∀ b ∈ kvs, ∀ i, i < d → a.1.getNibble i = b.1.getNibble i) :
    ∀ n pos, kvs.length - pos ≤ n → pos ≤ kvs.length →
      Contiguous (⟨kvs, d, pos⟩ : NibbleRangeIterator κ).toList pos kvs.length ∧
        ∀ range ∈ (⟨kvs, d, pos⟩ : NibbleRangeIterator κ).toList, IsNibbleRun kvs d range := by
  intro n
  induction n with
  | zero =>
    intro pos hn hpos
    rw [toList_of_next_none (next_eq_none (by dsimp only; omega))]
    exact ⟨by dsimp only [Contiguous]; omega, fun _ h => absurd h List.not_mem_nil⟩
  | succ n ih =>
    intro pos hn hpos
    rcases Nat.lt_or_ge pos kvs.length with hlt | hge
    · obtain ⟨r, hnext, hle, hr, hrun⟩ := next_spec hsorted hd hshared hlt
      obtain ⟨hcont, hruns⟩ := ih (r + 1) (by omega) (by omega)
      rw [toList_of_next_some hnext]
      refine ⟨⟨rfl, hle, hcont⟩, fun range hmem => ?_⟩
      rcases List.mem_cons.mp hmem with rfl | hmem
      · exact hrun
      · exact hruns range hmem
    · rw [toList_of_next_none (next_eq_none (by dsimp only; omega))]
      exact ⟨by dsimp only [Contiguous]; omega, fun _ h => absurd h List.not_mem_nil⟩

/-- Runs of one nibble that follow each other along sorted keys sharing their
first `d` nibbles have different nibbles. The induction is on the ranges. -/
theorem pairwise_ne_of_contiguous (hsorted : kvs.Pairwise fun a b => a.1 ≤ b.1) (hd : d < 64)
    (hshared : ∀ a ∈ kvs, ∀ b ∈ kvs, ∀ i, i < d → a.1.getNibble i = b.1.getNibble i) :
    ∀ {ranges : List (Nat × Nat)} {m : Nat}, Contiguous ranges m kvs.length →
      (∀ range ∈ ranges, IsNibbleRun kvs d range) →
      ranges.Pairwise fun a b => nibbleAt kvs d a.1 ≠ nibbleAt kvs d b.1
  | [], _, _, _ => List.Pairwise.nil
  | (l, r) :: ranges, m, ⟨hstart, hle, hrest⟩, hruns => by
    refine List.Pairwise.cons (fun b hb => ?_) (pairwise_ne_of_contiguous hsorted hd hshared hrest
      fun range hmem => hruns range (List.mem_cons_of_mem _ hmem))
    obtain ⟨hb₁, hb₁₂, hb₂⟩ := bounds_of_contiguous hrest b hb
    have hnext : nibbleAt kvs d (r + 1) ≠ nibbleAt kvs d l := (hruns (l, r) List.mem_cons_self).2
    have hl : l < kvs.length := by omega
    have hr : r + 1 < kvs.length := by omega
    have hb : b.1 < kvs.length := by omega
    -- the nibble grows from `l` to `r + 1`, strictly, and on to `b`
    have hup := getNibble_mono hsorted hd hshared hl hr (by omega)
    have hup' := getNibble_mono hsorted hd hshared hr hb hb₁
    simp only [nibbleAt, List.getElem?_eq_getElem hl, List.getElem?_eq_getElem hr,
      List.getElem?_eq_getElem hb, Option.map_some, ne_eq, Option.some.injEq] at hnext ⊢
    simp only [List.get_eq_getElem] at hup hup'
    omega

/-- The ranges of a whole slice of sorted keys sharing their first `d` nibbles:
each a run of one nibble within the slice, their nibbles all different, none for
no keys, and one range for all of them when there is one. -/
theorem toList_new_spec (hsorted : kvs.Pairwise fun a b => a.1 ≤ b.1) (hd : d < 64)
    (hshared : ∀ a ∈ kvs, ∀ b ∈ kvs, ∀ i, i < d → a.1.getNibble i = b.1.getNibble i) :
    (∀ range ∈ (⟨kvs, d, 0⟩ : NibbleRangeIterator κ).toList,
        range.1 ≤ range.2 ∧ range.2 < kvs.length ∧ IsNibbleRun kvs d range) ∧
      (⟨kvs, d, 0⟩ : NibbleRangeIterator κ).toList.Pairwise
        (fun a b => nibbleAt kvs d a.1 ≠ nibbleAt kvs d b.1) ∧
      (kvs ≠ [] → (⟨kvs, d, 0⟩ : NibbleRangeIterator κ).toList ≠ []) ∧
      ∀ range, (⟨kvs, d, 0⟩ : NibbleRangeIterator κ).toList = [range] → range = (0, kvs.length - 1) := by
  obtain ⟨hcont, hruns⟩ := toList_spec hsorted hd hshared kvs.length 0 (by omega) (Nat.zero_le _)
  refine ⟨fun range hmem => ?_, pairwise_ne_of_contiguous hsorted hd hshared hcont hruns, fun hne h => ?_,
    fun range h => eq_singleton_of_contiguous (h ▸ hcont)⟩
  · obtain ⟨-, hle, hlt⟩ := bounds_of_contiguous hcont range hmem
    exact ⟨hle, hlt, hruns range hmem⟩
  · rw [h] at hcont
    exact hne (List.eq_nil_of_length_eq_zero hcont.symm)

end Sorted

end NibbleRangeIterator

/-! ## `partition` -/

namespace Scratchpad

variable {τ : Type}

/-- `partition`: the first update whose key has the bit at `depth` set, by a binary
search over `[0, updates.len())`. -/
def partition (updates : List (HashValue × τ)) (depth : Nat) : Nat :=
  partitionPointLoop (fun u => u.1.bit depth) updates 0 updates.length (Nat.le_refl _)

/-- Along sorted keys that share their first `depth` bits, once the bit at `depth`
is set it stays set. -/
theorem upwardClosed_bit {updates : List (HashValue × τ)} {depth : Nat}
    (hsorted : updates.Pairwise fun a b => a.1 ≤ b.1) (hd : depth < 256)
    (hshared : ∀ a ∈ updates, ∀ b ∈ updates, ∀ i, i < depth → a.1.bit i = b.1.bit i) :
    UpwardClosed (fun u => u.1.bit depth) updates := by
  intro k k' hk hk' hkk' h
  have hle : (updates.get ⟨k, hk⟩).1 ≤ (updates.get ⟨k', hk'⟩).1 := by
    rcases Nat.eq_or_lt_of_le hkk' with rfl | hlt
    · exact Fin.le_refl _
    · exact List.pairwise_iff_getElem.mp hsorted k k' hk hk' hlt
  exact HashValue.getBit_mono hd hle (fun i hi => hshared _ (List.get_mem _ _) _ (List.get_mem _ _) i hi) h

/-- Over sorted keys that share their first `depth` bits, `partition` is the first
update whose bit at `depth` is set, the length when there is none. -/
theorem partition_eq_findIdx {updates : List (HashValue × τ)} {depth : Nat}
    (hsorted : updates.Pairwise fun a b => a.1 ≤ b.1) (hd : depth < 256)
    (hshared : ∀ a ∈ updates, ∀ b ∈ updates, ∀ i, i < depth → a.1.bit i = b.1.bit i) :
    partition updates depth = updates.findIdx fun u => u.1.bit depth :=
  partitionPointLoop_eq_findIdx (upwardClosed_bit hsorted hd hshared)

end Scratchpad

open NibbleRangeIterator in
/-- Over sorted keys that share the nibbles (bits) above the one they are split
by: `NibbleRangeIterator::new(kvs, d)` for `d < 64` yields inclusive ranges that
cover `[0, kvs.len())` one after the other, each a whole run of one nibble at
`d`, and then stops; `partition(updates, d)` for `d < 256` is the first index
whose key has bit `d` set, the length when there is none. -/
theorem sorted_key_splitting_exact {κ τ α : Type} :
    (∀ (kvs : List (HashValue × κ)) (d : Nat), kvs.Pairwise (fun a b => a.1 ≤ b.1) → d < 64 →
      (∀ a ∈ kvs, ∀ b ∈ kvs, ∀ i, i < d → a.1.getNibble i = b.1.getNibble i) →
      ∃ it, (NibbleRangeIterator.new kvs d : Except (JmtError α) _) = .ok it ∧
        Contiguous it.toList 0 kvs.length ∧ ∀ range ∈ it.toList, IsNibbleRun kvs d range) ∧
    (∀ (updates : List (HashValue × τ)) (d : Nat), updates.Pairwise (fun a b => a.1 ≤ b.1) → d < 256 →
      (∀ a ∈ updates, ∀ b ∈ updates, ∀ i, i < d → a.1.bit i = b.1.bit i) →
      Scratchpad.partition updates d = updates.findIdx fun u => u.1.bit d) := by
  refine ⟨fun kvs d hsorted hd hshared => ?_, fun updates d hsorted hd hshared =>
    Scratchpad.partition_eq_findIdx hsorted hd hshared⟩
  refine ⟨⟨kvs, d, 0⟩, by rw [NibbleRangeIterator.new, if_pos (show d < rootNibbleHeight from hd)], ?_⟩
  exact toList_spec hsorted hd hshared _ 0 (Nat.le_refl _) (Nat.zero_le _)

theorem sorted_key_splitting_exact_two_keys :
    let kvs : List (HashValue × Unit) := [(⟨0x05 * 2 ^ 248, by decide⟩, ()), (⟨0x13 * 2 ^ 248, by decide⟩, ())]
    kvs.Pairwise (fun a b => a.1 ≤ b.1) ∧ (0 : Nat) < 64 ∧
      (∀ a ∈ kvs, ∀ b ∈ kvs, ∀ i, i < 0 → a.1.getNibble i = b.1.getNibble i) ∧
      (∃ it, (NibbleRangeIterator.new kvs 0 : Except (JmtError Unit) _) = .ok it ∧
        NibbleRangeIterator.Contiguous it.toList 0 kvs.length ∧
        ∀ range ∈ it.toList, NibbleRangeIterator.IsNibbleRun kvs 0 range) ∧
      (0 : Nat) < 256 ∧ (∀ a ∈ kvs, ∀ b ∈ kvs, ∀ i, i < 0 → a.1.bit i = b.1.bit i) ∧
      Scratchpad.partition kvs 0 = kvs.findIdx fun u => u.1.bit 0 := by
  intro kvs
  have hsorted : kvs.Pairwise (fun a b => a.1 ≤ b.1) := by decide
  have hnib : ∀ a ∈ kvs, ∀ b ∈ kvs, ∀ i, i < 0 → a.1.getNibble i = b.1.getNibble i :=
    fun _ _ _ _ i hi => absurd hi (Nat.not_lt_zero i)
  have hbit : ∀ a ∈ kvs, ∀ b ∈ kvs, ∀ i, i < 0 → a.1.bit i = b.1.bit i :=
    fun _ _ _ _ i hi => absurd hi (Nat.not_lt_zero i)
  exact ⟨hsorted, by decide, hnib, (@sorted_key_splitting_exact Unit Unit Unit).1 kvs 0 hsorted (by decide) hnib,
    by decide, hbit, (@sorted_key_splitting_exact Unit Unit Unit).2 kvs 0 hsorted (by decide) hbit⟩

/-- Sorted keys that differ in nibble 0 need not have nibble 1 in order: over
`0x05..` and `0x13..` the iterator at nibble 1 yields the one range `[0, 1]`,
which holds the nibbles 5 and 3. -/
theorem nibbleRange_without_shared_prefix :
    let kvs : List (HashValue × Unit) := [(⟨0x05 * 2 ^ 248, by decide⟩, ()), (⟨0x13 * 2 ^ 248, by decide⟩, ())]
    kvs.Pairwise (fun a b => a.1 < b.1) ∧
      (NibbleRangeIterator.new kvs 1 : Except (JmtError Unit) _) = .ok ⟨kvs, 1, 0⟩ ∧
      (⟨kvs, 1, 0⟩ : NibbleRangeIterator Unit).toList = [(0, 1)] ∧
      ¬NibbleRangeIterator.IsNibbleRun kvs 1 (0, 1) := by
  intro kvs
  have hnext : (⟨kvs, 1, 0⟩ : NibbleRangeIterator Unit).next = some ((0, 1), ⟨kvs, 1, 2⟩) := by
    rw [NibbleRangeIterator.next, dif_pos (by decide)]
    dsimp only
    -- the middle of `[0, 1]` is `1`, whose nibble 3 is not above 5
    rw [BinarySearch.lastFalseLoop, dif_pos (by decide), if_neg (by decide), BinarySearch.lastFalseLoop,
      dif_neg (by decide)]
    decide
  refine ⟨by decide, by rw [NibbleRangeIterator.new, if_pos (by decide)], ?_,
    fun hrun => absurd (hrun.1 1 (by decide) (by decide)) (by decide)⟩
  rw [NibbleRangeIterator.toList_of_next_some hnext,
    NibbleRangeIterator.toList_of_next_none (NibbleRangeIterator.next_eq_none (by decide))]

end AptosCore
