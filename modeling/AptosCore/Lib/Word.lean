import Mathlib.Data.Nat.Size
import Mathlib.Data.Nat.Bitwise

/-!
# Fixed-width machine words as natural numbers

A `w`-bit unsigned word is a natural number below `2 ^ w`. The bitwise
operators `&&&`, `|||`, `^^^` and the right shift agree with the machine
ones on such numbers; the complement and the counting functions of Rust's
integer types are defined here, with the characterisations by `testBit`
that bit-level proofs need. Nothing here is specific to any program.
-/

namespace AptosCore.Word

/-- Bitwise complement `!x` of a `w`-bit word. -/
def complement (w x : Nat) : Nat := 2 ^ w - 1 - x

/-- `x << s` on a `w`-bit word: the bits shifted past the word are lost, and an
amount of `w` or more is taken modulo `w`, as release builds do. -/
def shiftLeft (w x s : Nat) : Nat := (x <<< (s % w)) % 2 ^ w

/-- `x.overflowing_add(y).0`, the wrapping sum of two `w`-bit words. -/
def wrappingAdd (w x y : Nat) : Nat := (x + y) % 2 ^ w

/-- `trailing_zeros` of a `w`-bit word: the index of its lowest set bit, and
`w` for the zero word. -/
def trailingZeros : Nat → Nat → Nat
  | 0, _ => 0
  | w + 1, x => if x % 2 = 1 then 0 else trailingZeros w (x / 2) + 1

/-- The number of trailing one bits of a natural number. -/
def trailingOnes (n : Nat) : Nat := if n % 2 = 1 then trailingOnes (n / 2) + 1 else 0
decreasing_by omega

/-- `leading_zeros` of a `w`-bit word. -/
def leadingZeros (w x : Nat) : Nat := w - x.size

/-- `count_ones` of a `w`-bit word. -/
def countOnes : Nat → Nat → Nat
  | 0, _ => 0
  | w + 1, x => x % 2 + countOnes w (x / 2)

/-! ## Complement -/

theorem complement_lt (w x : Nat) : complement w x < 2 ^ w := by
  have := Nat.two_pow_pos w
  unfold complement
  omega

theorem testBit_complement {w x : Nat} (hx : x < 2 ^ w) (i : Nat) :
    (complement w x).testBit i = (decide (i < w) && !x.testBit i) := by
  have he : complement w x = 2 ^ w - (x + 1) := by unfold complement; omega
  rw [he, Nat.testBit_two_pow_sub_succ hx]

theorem complement_complement {w x : Nat} (hx : x < 2 ^ w) :
    complement w (complement w x) = x := by
  unfold complement
  omega

/-! ## Shifts and wrapping sums that stay in the word -/

theorem shiftLeft_of_lt {w x s : Nat} (hs : s < w) (h : x * 2 ^ s < 2 ^ w) :
    shiftLeft w x s = x * 2 ^ s := by
  rw [shiftLeft, Nat.mod_eq_of_lt hs, Nat.shiftLeft_eq, Nat.mod_eq_of_lt h]

theorem shiftLeft_one_eq_two_pow {w l : Nat} (hl : l < w) : shiftLeft w 1 l = 2 ^ l := by
  rw [shiftLeft_of_lt hl (by rw [Nat.one_mul]; exact Nat.pow_lt_pow_right (by decide) hl),
    Nat.one_mul]

theorem shiftLeft_two_pow_one {w l : Nat} (hl : l + 1 < w) :
    shiftLeft w (2 ^ l) 1 = 2 ^ (l + 1) := by
  have he : 2 ^ l * 2 ^ 1 = 2 ^ (l + 1) := by rw [Nat.pow_one, Nat.pow_succ]
  have hlt : 2 ^ (l + 1) < 2 ^ w := Nat.pow_lt_pow_right (by decide) hl
  rw [shiftLeft_of_lt (by omega) (he ▸ hlt), he]

/-- `1 << s` is never zero: the amount is taken modulo the width. -/
theorem shiftLeft_one_pos {w : Nat} (hw : 0 < w) (s : Nat) : 0 < shiftLeft w 1 s := by
  rw [shiftLeft, Nat.shiftLeft_eq, Nat.one_mul,
    Nat.mod_eq_of_lt (Nat.pow_lt_pow_right (by decide) (Nat.mod_lt s hw))]
  exact Nat.two_pow_pos _

theorem wrappingAdd_of_lt {w x y : Nat} (h : x + y < 2 ^ w) : wrappingAdd w x y = x + y := by
  rw [wrappingAdd, Nat.mod_eq_of_lt h]

/-! ## Trailing zeros -/

/-- No bit below the trailing zeros is set. -/
theorem testBit_of_lt_trailingZeros {w x i : Nat} (hi : i < trailingZeros w x) :
    x.testBit i = false := by
  induction w generalizing x i with
  | zero => simp [trailingZeros] at hi
  | succ w ih =>
    by_cases hodd : x % 2 = 1
    · simp [trailingZeros, hodd] at hi
    · simp only [trailingZeros, hodd, ite_false] at hi
      cases i with
      | zero => simpa [Nat.testBit_zero] using hodd
      | succ j =>
        rw [Nat.testBit_add_one]
        exact ih (by omega)

/-- A nonzero word has its lowest set bit, inside the word, at its trailing zeros. -/
theorem testBit_trailingZeros {w x : Nat} (hx : x < 2 ^ w) (h0 : x ≠ 0) :
    trailingZeros w x < w ∧ x.testBit (trailingZeros w x) = true := by
  induction w generalizing x with
  | zero => simp at hx; omega
  | succ w ih =>
    by_cases hodd : x % 2 = 1
    · simp [trailingZeros, hodd, Nat.testBit_zero]
    · have hhalf : x / 2 < 2 ^ w := by rw [Nat.pow_succ] at hx; omega
      obtain ⟨hlt, hbit⟩ := ih hhalf (by omega)
      simp only [trailingZeros, hodd, ite_false, Nat.testBit_add_one]
      exact ⟨by omega, hbit⟩

/-- The trailing zeros of a word are those below its lowest set bit. -/
theorem trailingZeros_eq {w x l : Nat} (hl : l < w)
    (hlow : ∀ i, i < l → x.testBit i = false) (hbit : x.testBit l = true) :
    trailingZeros w x = l := by
  induction l generalizing w x with
  | zero =>
    obtain ⟨w, rfl⟩ : ∃ v, w = v + 1 := ⟨w - 1, by omega⟩
    have hodd : x % 2 = 1 := by simpa [Nat.testBit_zero] using hbit
    simp [trailingZeros, hodd]
  | succ l ih =>
    obtain ⟨w, rfl⟩ : ∃ v, w = v + 1 := ⟨w - 1, by omega⟩
    have h0 : x % 2 ≠ 1 := by simpa [Nat.testBit_zero] using hlow 0 (by omega)
    have hrest : trailingZeros w (x / 2) = l := by
      apply ih (by omega)
      · intro i hi
        rw [Nat.testBit_div_two]
        exact hlow (i + 1) (by omega)
      · rwa [Nat.testBit_div_two]
    simp [trailingZeros, h0, hrest]

/-- A word with its lowest `w` bits clear has `w` trailing zeros. -/
theorem trailingZeros_of_testBit_false {w x : Nat}
    (hlow : ∀ i, i < w → x.testBit i = false) : trailingZeros w x = w := by
  induction w generalizing x with
  | zero => rfl
  | succ w ih =>
    have h0 : x % 2 ≠ 1 := by simpa [Nat.testBit_zero] using hlow 0 (by omega)
    have hrest : trailingZeros w (x / 2) = w := by
      apply ih
      intro i hi
      rw [Nat.testBit_div_two]
      exact hlow (i + 1) (by omega)
    simp [trailingZeros, h0, hrest]

/-- A word is a multiple of the power of two of its trailing zeros. -/
theorem mod_two_pow_trailingZeros {w n : Nat} : n % 2 ^ trailingZeros w n = 0 := by
  apply Nat.eq_of_testBit_eq
  intro i
  rw [Nat.testBit_mod_two_pow, Nat.zero_testBit]
  by_cases hi : i < trailingZeros w n
  · simp [hi, testBit_of_lt_trailingZeros hi]
  · simp [hi]

theorem two_pow_trailingZeros_dvd {w : Nat} (n : Nat) : 2 ^ trailingZeros w n ∣ n :=
  Nat.dvd_of_mod_eq_zero mod_two_pow_trailingZeros

/-- A non-zero multiple of `2 ^ s` has at least `s` trailing zeros. -/
theorem le_trailingZeros_of_dvd {w n s : Nat} (hn : n < 2 ^ w) (h0 : n ≠ 0)
    (hdvd : 2 ^ s ∣ n) : s ≤ trailingZeros w n := by
  obtain ⟨_, hbit⟩ := testBit_trailingZeros hn h0
  obtain ⟨q, rfl⟩ := hdvd
  by_contra hlt
  rw [Nat.testBit_two_pow_mul] at hbit
  simp at hbit
  omega

/-- The mask test of a loop over the bits of `n`. -/
theorem and_two_pow_ne_zero_iff (n i : Nat) : n &&& 2 ^ i ≠ 0 ↔ n.testBit i = true := by
  rw [Nat.and_two_pow]
  cases n.testBit i <;> simp

theorem two_pow_mul_and_two_pow_ne_zero_iff (z x t : Nat) :
    2 ^ z * x &&& 2 ^ (z + t) ≠ 0 ↔ x.testBit t = true := by
  rw [and_two_pow_ne_zero_iff, Nat.testBit_two_pow_mul]
  simp

/-- The trailing zeros of `2 ^ l * (2 * m + 1)`. -/
theorem trailingZeros_two_pow_mul_odd {w l : Nat} (hl : l < w) (m : Nat) :
    trailingZeros w (2 ^ l * (2 * m + 1)) = l := by
  apply trailingZeros_eq hl
  · intro i hi
    rw [Nat.testBit_two_pow_mul]
    simp only [Bool.and_eq_false_iff, decide_eq_false_iff_not]
    omega
  · rw [Nat.testBit_two_pow_mul]
    simp [Nat.testBit_zero, Nat.add_mod]

/-! ## Trailing ones -/

theorem trailingOnes_two_mul (m : Nat) : trailingOnes (2 * m) = 0 := by
  rw [trailingOnes]
  simp

theorem trailingOnes_two_mul_add_one (m : Nat) :
    trailingOnes (2 * m + 1) = trailingOnes m + 1 := by
  rw [trailingOnes]
  simp [show (2 * m + 1) / 2 = m by omega]

theorem testBit_of_lt_trailingOnes {n i : Nat} (hi : i < trailingOnes n) : n.testBit i = true := by
  induction i generalizing n with
  | zero =>
    rw [trailingOnes] at hi
    by_cases h : n % 2 = 1
    · simp [Nat.testBit_zero, h]
    · simp [h] at hi
  | succ i ih =>
    rw [trailingOnes] at hi
    by_cases h : n % 2 = 1
    · rw [Nat.testBit_add_one]
      simp only [h, ite_true] at hi
      exact ih (by omega)
    · simp [h] at hi

theorem testBit_trailingOnes (n : Nat) : n.testBit (trailingOnes n) = false := by
  induction n using Nat.strongRecOn with
  | ind n ih =>
    rw [trailingOnes]
    by_cases h : n % 2 = 1
    · simp only [h, ite_true, Nat.testBit_add_one]
      exact ih (n / 2) (by omega)
    · simp [h, Nat.testBit_zero]

/-- Below its trailing ones a number is all ones. -/
theorem mod_two_pow_of_le_trailingOnes {n j : Nat} (hj : j ≤ trailingOnes n) :
    n % 2 ^ j = 2 ^ j - 1 := by
  apply Nat.eq_of_testBit_eq
  intro i
  rw [Nat.testBit_mod_two_pow, Nat.testBit_two_pow_sub_one]
  by_cases hi : i < j
  · simp [hi, testBit_of_lt_trailingOnes (show i < trailingOnes n by omega)]
  · simp [hi]

/-- Up to and including its lowest zero bit a number is `2 ^ trailingOnes n - 1`. -/
theorem mod_two_pow_trailingOnes_succ (n : Nat) :
    n % 2 ^ (trailingOnes n + 1) = 2 ^ trailingOnes n - 1 := by
  apply Nat.eq_of_testBit_eq
  intro i
  rw [Nat.testBit_mod_two_pow, Nat.testBit_two_pow_sub_one]
  by_cases hi : i < trailingOnes n
  · simp [hi, show i < trailingOnes n + 1 by omega, testBit_of_lt_trailingOnes hi]
  · by_cases he : i = trailingOnes n
    · subst he
      simp [testBit_trailingOnes]
    · simp [hi, show ¬ i < trailingOnes n + 1 by omega]

theorem div_two_pow_succ (n j : Nat) : n / 2 ^ (j + 1) = n / 2 ^ j / 2 := by
  rw [Nat.pow_succ, Nat.div_div_eq_div_mul]

theorem two_pow_mul_of_even {j x : Nat} (h : x % 2 = 0) : 2 ^ j * x = 2 ^ (j + 1) * (x / 2) := by
  obtain ⟨q, rfl⟩ : ∃ q, x = 2 * q := ⟨x / 2, by omega⟩
  rw [show 2 * q / 2 = q by omega, Nat.pow_succ, Nat.mul_assoc, Nat.mul_comm 2 q]

/-- Dropping `j` bits below the trailing ones leaves an odd number. -/
theorem div_two_pow_of_lt_trailingOnes {n j : Nat} (hj : j < trailingOnes n) :
    n / 2 ^ j = 2 * (n / 2 ^ (j + 1)) + 1 := by
  have hbit : n / 2 ^ j % 2 = 1 := by
    simpa [Nat.testBit_eq_decide_div_mod_eq] using testBit_of_lt_trailingOnes hj
  have := Nat.div_add_mod (n / 2 ^ j) 2
  rw [div_two_pow_succ]
  omega

/-- Dropping all trailing ones leaves an even number. -/
theorem div_two_pow_trailingOnes (n : Nat) :
    n / 2 ^ trailingOnes n = 2 * (n / 2 ^ (trailingOnes n + 1)) := by
  have hbit : n / 2 ^ trailingOnes n % 2 = 0 := by
    simpa [Nat.testBit_eq_decide_div_mod_eq] using testBit_trailingOnes n
  have := Nat.div_add_mod (n / 2 ^ trailingOnes n) 2
  rw [div_two_pow_succ]
  omega

/-- The block of `2 ^ j` positions ending at `n` starts at `2 ^ j * (n / 2 ^ j)`
when `n` ends in at least `j` ones. -/
theorem two_pow_mul_div_of_le_trailingOnes {n j : Nat} (hj : j ≤ trailingOnes n) :
    2 ^ j * (n / 2 ^ j) + 2 ^ j = n + 1 := by
  have hmod := mod_two_pow_of_le_trailingOnes hj
  have hdm := Nat.div_add_mod n (2 ^ j)
  have hpos := Nat.two_pow_pos j
  omega

/-- A block of `2 ^ l` positions ending at `n` means `n` ends in `l` ones. -/
theorem le_trailingOnes_of_mul_eq {n l k : Nat} (h : (k + 1) * 2 ^ l = n + 1) :
    l ≤ trailingOnes n ∧ n / 2 ^ l = k := by
  have hpos := Nat.two_pow_pos l
  have hform : n = 2 ^ l * k + (2 ^ l - 1) := by
    rw [Nat.add_mul, Nat.one_mul, Nat.mul_comm] at h; omega
  have hmod : n % 2 ^ l = 2 ^ l - 1 := by
    rw [hform, Nat.mul_add_mod, Nat.mod_eq_of_lt (by omega)]
  refine ⟨?_, ?_⟩
  · by_contra hlt
    have hbit := testBit_trailingOnes n
    have hlow := Nat.testBit_mod_two_pow n l (trailingOnes n)
    rw [hmod, Nat.testBit_two_pow_sub_one, hbit] at hlow
    simp at hlow
    omega
  · rw [hform, Nat.mul_add_div hpos, Nat.div_eq_of_lt (by omega), Nat.add_zero]

/-- Adding its lowest set bit to `n` carries through the ones above it. -/
theorem trailingZeros_add_two_pow_trailingZeros {w n : Nat} (hn : n + 2 ^ trailingZeros w n < 2 ^ w) :
    trailingZeros w (n + 2 ^ trailingZeros w n) =
      trailingZeros w n + trailingOnes (n / 2 ^ trailingZeros w n) := by
  obtain ⟨x, hx⟩ := two_pow_trailingZeros_dvd (w := w) n
  have hdiv : n / 2 ^ trailingZeros w n = x := Nat.div_eq_of_eq_mul_right (Nat.two_pow_pos _) hx
  rw [hdiv]
  -- `x + 1` is `2 ^ t` times an odd number, for `t` the trailing ones of `x`
  have hsucc := two_pow_mul_div_of_le_trailingOnes (Nat.le_refl (trailingOnes x))
  rw [div_two_pow_trailingOnes] at hsucc
  have hodd : n + 2 ^ trailingZeros w n =
      2 ^ (trailingZeros w n + trailingOnes x) * (2 * (x / 2 ^ (trailingOnes x + 1)) + 1) := by
    calc n + 2 ^ trailingZeros w n = 2 ^ trailingZeros w n * (x + 1) := by
          rw [Nat.mul_add_one, ← hx]
      _ = 2 ^ trailingZeros w n * (2 ^ trailingOnes x * (2 * (x / 2 ^ (trailingOnes x + 1))) +
            2 ^ trailingOnes x) := by rw [hsucc]
      _ = _ := by rw [Nat.pow_add 2 (trailingZeros w n) (trailingOnes x), Nat.mul_assoc,
            Nat.mul_add_one]
  have hlt : trailingZeros w n + trailingOnes x < w := by
    have hle := Nat.le_mul_of_pos_right (2 ^ (trailingZeros w n + trailingOnes x))
      (show 0 < 2 * (x / 2 ^ (trailingOnes x + 1)) + 1 by omega)
    exact (Nat.pow_lt_pow_iff_right (show 1 < 2 by decide)).mp (by omega)
  rw [hodd, trailingZeros_two_pow_mul_odd hlt]

/-- The complement's trailing zeros are the word's trailing ones. -/
theorem trailingZeros_complement {w n : Nat} (hn : n < 2 ^ w) (ht : trailingOnes n < w) :
    trailingZeros w (complement w n) = trailingOnes n := by
  apply trailingZeros_eq ht
  · intro i hi
    rw [testBit_complement hn, testBit_of_lt_trailingOnes hi]
    simp
  · rw [testBit_complement hn, testBit_trailingOnes]
    simp [ht]

/-- A number below `2 ^ w - 1` has fewer than `w` trailing ones. -/
theorem trailingOnes_lt {w n : Nat} (hn : n < 2 ^ w - 1) : trailingOnes n < w := by
  by_contra hge
  have hall : ∀ i, i < w → n.testBit i = true := fun i hi =>
    testBit_of_lt_trailingOnes (by omega)
  have hle : 2 ^ w - 1 ≤ n := by
    have h := Nat.and_two_pow_sub_one_of_lt_two_pow (n := w) (x := n) (by omega)
    have h' : n &&& 2 ^ w - 1 = 2 ^ w - 1 := by
      apply Nat.eq_of_testBit_eq
      intro i
      rw [Nat.testBit_and, Nat.testBit_two_pow_sub_one]
      by_cases hi : i < w
      · simp [hi, hall i hi]
      · simp [hi]
    omega
  omega

/-! ## Leading zeros and bit length -/

theorem leadingZeros_add_size {w x : Nat} (hx : x < 2 ^ w) :
    leadingZeros w x + x.size = w := by
  have := Nat.size_le.mpr hx
  unfold leadingZeros
  omega

/-! ## Counting ones -/

theorem countOnes_two_mul (w m : Nat) : countOnes (w + 1) (2 * m) = countOnes w m := by
  simp [countOnes]

theorem countOnes_two_mul_add_one (w m : Nat) :
    countOnes (w + 1) (2 * m + 1) = countOnes w m + 1 := by
  have h : (2 * m + 1) / 2 = m := by omega
  simp only [countOnes, h]
  omega

/-- `count_ones` counts the set bits below the width. -/
theorem countOnes_eq_length_filter : ∀ (w x : Nat),
    countOnes w x = ((List.range w).filter x.testBit).length
  | 0, _ => rfl
  | w + 1, x => by
    -- bit `i + 1` of `x` is bit `i` of `x / 2`
    have hshift : ((List.range w).map Nat.succ).filter x.testBit =
        ((List.range w).filter (x / 2).testBit).map Nat.succ := by
      rw [List.filter_map]
      congr 1
      apply List.filter_congr
      intro i _
      rw [Function.comp_apply, Nat.testBit_div_two]
    rw [countOnes, countOnes_eq_length_filter w (x / 2), List.range_succ_eq_map, List.filter_cons,
      hshift]
    rcases Nat.mod_two_eq_zero_or_one x with h | h
    · simp [Nat.testBit_zero, h]
    · simp [Nat.testBit_zero, h, Nat.add_comm]

/-- Clearing the lowest set bit, `x &= !(1 << x.trailing_zeros())`, keeps the
other bits of the word. -/
theorem testBit_clearLowest {w x : Nat} (ht : trailingZeros w x < w) {i : Nat} (hi : i < w) :
    (x &&& complement w (1 <<< trailingZeros w x)).testBit i = (x.testBit i && i != trailingZeros w x) := by
  have hmask : 1 <<< trailingZeros w x < 2 ^ w := by
    rw [Nat.shiftLeft_eq, Nat.one_mul]
    exact Nat.pow_lt_pow_right (by decide) ht
  rw [Nat.testBit_and, testBit_complement hmask, Nat.shiftLeft_eq, Nat.one_mul, Nat.testBit_two_pow]
  by_cases h : i = trailingZeros w x
  · simp [h]
  · simp [hi, h, Ne.symm h]

/-- A loop that takes the trailing zeros of a word and then clears that bit
visits the set bits in increasing order. -/
theorem filter_testBit_eq_cons {w x : Nat} (hx : x < 2 ^ w) (h0 : x ≠ 0) :
    (List.range w).filter x.testBit =
      trailingZeros w x :: (List.range w).filter (x &&& complement w (1 <<< trailingZeros w x)).testBit := by
  obtain ⟨ht, hbit⟩ := testBit_trailingZeros hx h0
  -- split the bits at the lowest set one
  have hrange : List.range w = List.range (trailingZeros w x) ++ trailingZeros w x ::
      (List.range (w - (trailingZeros w x + 1))).map (trailingZeros w x + 1 + ·) := by
    conv_lhs => rw [show w = trailingZeros w x + 1 + (w - (trailingZeros w x + 1)) by omega, List.range_add,
      List.range_succ, List.append_assoc, List.singleton_append]
  have hbelow : ∀ y : Nat, (∀ i, i < trailingZeros w x → y.testBit i = false) →
      (List.range (trailingZeros w x)).filter y.testBit = [] := by
    intro y hy
    exact List.filter_eq_nil_iff.mpr fun i hi => by simp [hy i (List.mem_range.mp hi)]
  have habove : ((List.range (w - (trailingZeros w x + 1))).map (trailingZeros w x + 1 + ·)).filter
      (x &&& complement w (1 <<< trailingZeros w x)).testBit =
      ((List.range (w - (trailingZeros w x + 1))).map (trailingZeros w x + 1 + ·)).filter x.testBit := by
    apply List.filter_congr
    intro i hi
    obtain ⟨j, hj, rfl⟩ := List.mem_map.mp hi
    rw [testBit_clearLowest ht (by simp at hj; omega)]
    rw [bne_iff_ne.mpr (show trailingZeros w x + 1 + j ≠ trailingZeros w x by omega), Bool.and_true]
  rw [hrange, List.filter_append, List.filter_append, List.filter_cons, List.filter_cons, hbit,
    testBit_clearLowest ht ht, hbelow x fun i hi => testBit_of_lt_trailingZeros hi, habove,
    hbelow _ fun i hi => by rw [testBit_clearLowest ht (by omega), testBit_of_lt_trailingZeros hi, Bool.false_and]]
  simp

/-- In a block `[start, start + 2 ^ (j + 1))` aligned to its size, bit `j` tells
the upper half from the lower. -/
theorem testBit_of_mem_block {x start j : Nat} (hdvd : 2 ^ (j + 1) ∣ start) (h₁ : start ≤ x)
    (h₂ : x < start + 2 ^ (j + 1)) : x.testBit j = decide (start + 2 ^ j ≤ x) := by
  obtain ⟨q, rfl⟩ := hdvd
  have hpow : 2 ^ (j + 1) = 2 * 2 ^ j := by rw [Nat.pow_succ, Nat.mul_comm]
  have hpos := Nat.two_pow_pos j
  -- `x` is the block's start plus an offset below `2 ^ (j + 1)`
  obtain ⟨r, rfl⟩ : ∃ r, x = 2 ^ (j + 1) * q + r := ⟨x - 2 ^ (j + 1) * q, by omega⟩
  have hmod : (2 ^ (j + 1) * q + r) % 2 ^ (j + 1) = r := by
    rw [Nat.mul_add_mod, Nat.mod_eq_of_lt (by omega)]
  have hbit : (2 ^ (j + 1) * q + r).testBit j = r.testBit j := by
    have := Nat.testBit_mod_two_pow (2 ^ (j + 1) * q + r) (j + 1) j
    rw [hmod, decide_eq_true (Nat.lt_succ_self j), Bool.true_and] at this
    exact this.symm
  rw [hbit, Nat.testBit_eq_decide_div_mod_eq]
  have hdiv : r / 2 ^ j < 2 := Nat.div_lt_of_lt_mul (by omega)
  by_cases hr : 2 ^ j ≤ r
  · have : 1 ≤ r / 2 ^ j := (Nat.le_div_iff_mul_le hpos).mpr (by omega)
    simp only [decide_eq_decide]
    omega
  · have : r / 2 ^ j = 0 := Nat.div_eq_of_lt (by omega)
    simp only [decide_eq_decide]
    omega

/-! ## Smearing the most significant bit downwards -/

/-- One smearing step `x | x >> m` doubles the window of bits that a bit of the
result summarises. -/
theorem testBit_or_shiftRight_self {x v m : Nat}
    (h : ∀ i, x.testBit i = true ↔ ∃ d, d < m ∧ v.testBit (i + d) = true) (i : Nat) :
    (x ||| x >>> m).testBit i = true ↔ ∃ d, d < 2 * m ∧ v.testBit (i + d) = true := by
  rw [Nat.testBit_or, Nat.testBit_shiftRight, Bool.or_eq_true, h, h]
  constructor
  · rintro (⟨d, hd, hv⟩ | ⟨d, hd, hv⟩)
    · exact ⟨d, by omega, hv⟩
    · exact ⟨m + d, by omega, by rwa [show i + (m + d) = m + i + d by omega]⟩
  · rintro ⟨d, hd, hv⟩
    by_cases hdm : d < m
    · exact Or.inl ⟨d, hdm, hv⟩
    · exact Or.inr ⟨d - m, by omega, by rwa [show m + i + (d - m) = i + d by omega]⟩

/-- A word has a set bit at or `d < w` above position `i` exactly below its bit length. -/
theorem exists_testBit_iff_lt_size {w v i : Nat} (hv : v < 2 ^ w) :
    (∃ d, d < w ∧ v.testBit (i + d) = true) ↔ i < v.size := by
  constructor
  · rintro ⟨d, -, hd⟩
    have := Nat.lt_size.mpr (Nat.ge_two_pow_of_testBit hd)
    omega
  · intro hi
    have hw : v.size ≤ w := Nat.size_le.mpr hv
    refine ⟨v.size - 1 - i, by omega, ?_⟩
    rw [show i + (v.size - 1 - i) = v.size - 1 by omega]
    apply Nat.testBit_of_two_pow_le_and_two_pow_add_one_gt
    · exact Nat.lt_size.mp (by omega)
    · rw [show v.size - 1 + 1 = v.size by omega]
      exact Nat.lt_size_self v

/-- The six smearing steps of a `64`-bit word leave every bit below its most
significant one set. -/
theorem smear_eq {v : Nat} (hv : v < 2 ^ 64) :
    (let n := v ||| v >>> 1
     let n := n ||| n >>> 2
     let n := n ||| n >>> 4
     let n := n ||| n >>> 8
     let n := n ||| n >>> 16
     n ||| n >>> 32) = 2 ^ v.size - 1 := by
  have h1 : ∀ i, v.testBit i = true ↔ ∃ d, d < 1 ∧ v.testBit (i + d) = true := fun i =>
    ⟨fun h => ⟨0, by omega, h⟩, fun ⟨d, hd, h⟩ => by rwa [show d = 0 by omega] at h⟩
  have h2 := fun i => testBit_or_shiftRight_self h1 i
  have h4 := fun i => testBit_or_shiftRight_self h2 i
  have h8 := fun i => testBit_or_shiftRight_self h4 i
  have h16 := fun i => testBit_or_shiftRight_self h8 i
  have h32 := fun i => testBit_or_shiftRight_self h16 i
  have h64 := fun i => testBit_or_shiftRight_self h32 i
  apply Nat.eq_of_testBit_eq
  intro i
  rw [Nat.testBit_two_pow_sub_one]
  have hi := (h64 i).trans (exists_testBit_iff_lt_size (i := i) hv)
  by_cases hlt : i < v.size
  · simpa [hlt] using hi
  · simpa [hlt] using hi

end AptosCore.Word
