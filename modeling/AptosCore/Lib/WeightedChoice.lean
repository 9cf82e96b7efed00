import Mathlib
import AptosCore.Lib.BinarySearch

/-!
# Choosing by cumulative weights

A value `r` below the total of a list of weights picks the index whose interval
`[w₀ + ... + wᵢ₋₁, w₀ + ... + wᵢ)` holds it (`pick`). A binary search of the
running sums of the weights for the first sum above `r`, with a comparator that
never says `Equal`, ends at that index (`binarySearchBy_runningSums`). The picked
index is the only one whose interval holds `r` (`pick_eq_of_mem_interval`), so an
index is picked by exactly as many values below the total as its weight
(`card_pick_eq`), and never when its weight is zero.
-/

namespace AptosCore.WeightedChoice

/-- The running sums of the weights, from `total`. -/
def runningSums : List Nat → Nat → List Nat
  | [], _ => []
  | w :: ws, total => (total + w) :: runningSums ws (total + w)

/-- The index whose interval of the weights holds `r`; the length when `r` is past them all. -/
def pick : List Nat → Nat → Nat
  | [], _ => 0
  | w :: ws, r => if r < w then 0 else pick ws (r - w) + 1

@[simp] theorem length_runningSums :
    ∀ (ws : List Nat) (total : Nat), (runningSums ws total).length = ws.length
  | [], _ => rfl
  | _ :: ws, _ => congrArg (· + 1) (length_runningSums ws _)

theorem getElem_runningSums :
    ∀ (ws : List Nat) (total i : Nat) (h : i < (runningSums ws total).length),
      (runningSums ws total)[i] = total + (ws.take (i + 1)).sum
  | [], _, _, h => absurd h (by simp)
  | w :: ws, total, 0, _ => by simp [runningSums]
  | w :: ws, total, i + 1, h => by
    simp only [runningSums, List.getElem_cons_succ]
    rw [getElem_runningSums ws, List.take_succ_cons, List.sum_cons]
    omega

theorem sum_take_le (ws : List Nat) (n : Nat) : (ws.take n).sum ≤ ws.sum := by
  have hsplit := List.sum_take_add_sum_drop ws n
  omega

/-- An index is before the picked one exactly when the weights up to it stay at or below `r`. -/
theorem lt_pick_iff : ∀ {ws : List Nat} {i : Nat}, i < ws.length →
    ∀ r, (i < pick ws r ↔ (ws.take (i + 1)).sum ≤ r)
  | w :: ws, 0, _, r => by
    simp only [pick, List.take_succ_cons, List.take_zero, List.sum_cons, List.sum_nil, add_zero]
    split_ifs <;> omega
  | w :: ws, i + 1, hi, r => by
    have hi' : i < ws.length := by simpa using hi
    have ih := lt_pick_iff hi' (r - w)
    rw [pick, List.take_succ_cons, List.sum_cons]
    split_ifs with hfirst
    · -- `r` falls in the first interval, before every later index
      constructor <;> intro h <;> omega
    · rw [Nat.add_lt_add_iff_right, ih]
      omega

theorem pick_le_length : ∀ (ws : List Nat) (r : Nat), pick ws r ≤ ws.length
  | [], _ => Nat.le_refl _
  | w :: ws, r => by
    rw [pick]
    split_ifs
    · exact Nat.zero_le _
    · exact Nat.succ_le_succ (pick_le_length ws _)

theorem pick_lt_length : ∀ {ws : List Nat} {r : Nat}, r < ws.sum → pick ws r < ws.length
  | [], _, hr => absurd hr (Nat.not_lt_zero _)
  | w :: ws, r, hr => by
    rw [List.sum_cons] at hr
    rw [pick]
    split_ifs with hfirst
    · exact Nat.succ_pos _
    · exact Nat.succ_lt_succ (pick_lt_length (by omega))

/-- The picked index's interval holds `r`. -/
theorem pick_mem_interval {ws : List Nat} {r : Nat} (hr : r < ws.sum) :
    (ws.take (pick ws r)).sum ≤ r ∧ r < (ws.take (pick ws r + 1)).sum := by
  have hlt := pick_lt_length hr
  refine ⟨?_, Nat.lt_of_not_le fun hle => Nat.lt_irrefl _ ((lt_pick_iff hlt r).mpr hle)⟩
  cases h : pick ws r with
  | zero => simp
  | succ i => exact (lt_pick_iff (by omega) r).mp (by omega)

/-- Only the picked index's interval holds `r`. -/
theorem pick_eq_of_mem_interval {ws : List Nat} {i r : Nat} (hi : i < ws.length)
    (hlo : (ws.take i).sum ≤ r) (hhi : r < (ws.take (i + 1)).sum) : pick ws r = i := by
  apply Nat.le_antisymm
  · exact Nat.le_of_not_lt fun h => absurd ((lt_pick_iff hi r).mp h) (Nat.not_le.mpr hhi)
  · cases i with
    | zero => exact Nat.zero_le _
    | succ j => exact (lt_pick_iff (by omega) r).mpr hlo

/-- An index is picked by as many values below the total as its weight. -/
theorem card_pick_eq {ws : List Nat} {i : Nat} (hi : i < ws.length) :
    ((Finset.range ws.sum).filter fun r => pick ws r = i).card = ws[i] := by
  have hinterval : ((Finset.range ws.sum).filter fun r => pick ws r = i) =
      Finset.Ico (ws.take i).sum (ws.take (i + 1)).sum := by
    ext r
    simp only [Finset.mem_filter, Finset.mem_range, Finset.mem_Ico]
    constructor
    · rintro ⟨hr, rfl⟩
      exact pick_mem_interval hr
    · rintro ⟨hlo, hhi⟩
      have hle := sum_take_le ws (i + 1)
      exact ⟨by omega, pick_eq_of_mem_interval hi hlo hhi⟩
  rw [hinterval, Nat.card_Ico, List.sum_take_succ ws i hi]
  omega

/-- Searching the running sums for the first one above `r`, with a comparator that never
says `Equal`, ends at the picked index. -/
theorem binarySearchBy_runningSums (ws : List Nat) (r : Nat) :
    BinarySearch.binarySearchBy (fun w => if w ≤ r then Ordering.lt else Ordering.gt)
      (runningSums ws 0) = .error (pick ws r) := by
  apply BinarySearch.binarySearchBy_eq_error
  · simpa using pick_le_length ws r
  · intro i h hi
    rw [List.get_eq_getElem, getElem_runningSums, zero_add,
      if_pos ((lt_pick_iff (by simpa using h) r).mp hi)]
  · intro i h hi
    have hnot : ¬(ws.take (i + 1)).sum ≤ r := fun hle =>
      Nat.not_le.mpr ((lt_pick_iff (by simpa using h) r).mpr hle) hi
    rw [List.get_eq_getElem, getElem_runningSums, zero_add, if_neg hnot]

end AptosCore.WeightedChoice
