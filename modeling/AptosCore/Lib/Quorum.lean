import Mathlib

/-!
# Weighted quorums

Members of a finite set `V` carry weights `w`. Two subsets of `V` together weigh
at most their common part plus all of `V` (`sum_add_sum_le_sum_inter_add`), so
two subsets that each reach a threshold above two thirds of the total share more
than the total minus the threshold (`le_sharedWeight_of_quorum`). The subsets are
given as lists without repetition, the way a program lists the members that
signed.
-/

namespace AptosCore.Quorum

open Finset

variable {ι : Type*} [DecidableEq ι] (w : ι → Nat)

/-- The weight of the members of `A` that are also in `B`. -/
def sharedWeight (A B : List ι) : Nat := ((A.filter (· ∈ B)).map w).sum

theorem sum_add_sum_le_sum_inter_add {V A B : Finset ι} (hA : A ⊆ V) (hB : B ⊆ V) :
    ∑ i ∈ A, w i + ∑ i ∈ B, w i ≤ ∑ i ∈ A ∩ B, w i + ∑ i ∈ V, w i := by
  rw [← sum_union_inter, Nat.add_comm (∑ i ∈ A ∪ B, w i)]
  exact Nat.add_le_add_left (sum_le_sum_of_subset (union_subset hA hB)) _

/-- The list form: two repetition-free lists of members of `V`. -/
theorem sum_map_add_sum_map_le {V A B : List ι} (hV : V.Nodup) (hA : A.Nodup) (hB : B.Nodup)
    (hAV : ∀ a ∈ A, a ∈ V) (hBV : ∀ b ∈ B, b ∈ V) :
    (A.map w).sum + (B.map w).sum ≤ sharedWeight w A B + (V.map w).sum := by
  have hinter : (A.filter (· ∈ B)).toFinset = A.toFinset ∩ B.toFinset := by
    ext a
    simp
  rw [sharedWeight, ← List.sum_toFinset w hA, ← List.sum_toFinset w hB, ← List.sum_toFinset w hV,
    ← List.sum_toFinset w (hA.filter _), hinter]
  exact sum_add_sum_le_sum_inter_add w (fun a ha => List.mem_toFinset.mpr (hAV a (List.mem_toFinset.mp ha)))
    (fun b hb => List.mem_toFinset.mpr (hBV b (List.mem_toFinset.mp hb)))

/-- When everything outside `V` weighs nothing, a repetition-free list weighs at
most all of `V`. -/
theorem sum_map_le_of_eq_zero {V A : List ι} (hV : V.Nodup) (hA : A.Nodup)
    (h0 : ∀ a, a ∉ V → w a = 0) : (A.map w).sum ≤ (V.map w).sum := by
  rw [← List.sum_toFinset w hA, ← List.sum_toFinset w hV]
  exact sum_le_sum_of_ne_zero fun a _ ha => List.mem_toFinset.mpr (not_not.mp fun h => ha (h0 a h))

/-- Quorum intersection: with a threshold `q` above two thirds of the total
weight, two subsets reaching `q` share at least the total minus `q`, plus one. -/
theorem le_sharedWeight_of_quorum {V A B : List ι} (hV : V.Nodup) (hA : A.Nodup) (hB : B.Nodup)
    (hAV : ∀ a ∈ A, a ∈ V) (hBV : ∀ b ∈ B, b ∈ V) {q : Nat} (hq : 2 * (V.map w).sum < 3 * q)
    (hqA : q ≤ (A.map w).sum) (hqB : q ≤ (B.map w).sum) :
    (V.map w).sum - q + 1 ≤ sharedWeight w A B := by
  have := sum_map_add_sum_map_le w hV hA hB hAV hBV
  omega

end AptosCore.Quorum
