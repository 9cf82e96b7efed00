import Mathlib.Tactic.Ring

/-!
# Byte strings

Fixed-width integers as byte strings: `toBigEndian w x`, the most significant
byte first, and `toLittleEndian w x`, the least significant first; the readers
`ofBigEndian` and `ofLittleEndian` take them back modulo `256 ^ w`
(`ofBigEndian_toBigEndian`, `ofLittleEndian_toLittleEndian`).

Byte strings are ordered lexicographically (`List.lt`). Big-endian strings of
one width compare as their values do (`toBigEndian_lt_toBigEndian_iff`), and two
strings whose prefixes have one length compare by the prefixes first
(`append_lt_append_iff`), so a record of fixed-width big-endian fields sorts by
its fields in order.

A byte with a flag in its top bit: the low seven bits and the flag
(`toNat_and_low`, `toNat_or_high`, `and_high_eq_zero_iff`).
-/

namespace AptosCore.Bytes

/-- The `w` bytes of `x`, the most significant first. -/
def toBigEndian : Nat → Nat → List UInt8
  | 0, _ => []
  | w + 1, x => UInt8.ofNat (x / 256 ^ w) :: toBigEndian w x

/-- The value of a big-endian byte string. -/
def ofBigEndian : List UInt8 → Nat
  | [] => 0
  | b :: bs => b.toNat * 256 ^ bs.length + ofBigEndian bs

/-- The `w` bytes of `x`, the least significant first. -/
def toLittleEndian : Nat → Nat → List UInt8
  | 0, _ => []
  | w + 1, x => UInt8.ofNat x :: toLittleEndian w (x / 256)

/-- The value of a little-endian byte string. -/
def ofLittleEndian : List UInt8 → Nat
  | [] => 0
  | b :: bs => b.toNat + 256 * ofLittleEndian bs

@[simp] theorem length_toBigEndian : ∀ w x, (toBigEndian w x).length = w
  | 0, _ => rfl
  | w + 1, x => by rw [toBigEndian, List.length_cons, length_toBigEndian w x]

@[simp] theorem length_toLittleEndian : ∀ w x, (toLittleEndian w x).length = w
  | 0, _ => rfl
  | w + 1, x => by rw [toLittleEndian, List.length_cons, length_toLittleEndian w (x / 256)]

theorem ofBigEndian_toBigEndian : ∀ w x, ofBigEndian (toBigEndian w x) = x % 256 ^ w
  | 0, x => by simp [toBigEndian, ofBigEndian, Nat.mod_one]
  | w + 1, x => by
    rw [toBigEndian, ofBigEndian, length_toBigEndian, ofBigEndian_toBigEndian w x, UInt8.toNat_ofNat',
      show (2 : Nat) ^ 8 = 256 from rfl, Nat.mod_pow_succ]
    ring

theorem ofLittleEndian_toLittleEndian : ∀ w x, ofLittleEndian (toLittleEndian w x) = x % 256 ^ w
  | 0, x => by simp [toLittleEndian, ofLittleEndian, Nat.mod_one]
  | w + 1, x => by
    rw [toLittleEndian, ofLittleEndian, ofLittleEndian_toLittleEndian w (x / 256), UInt8.toNat_ofNat',
      show (2 : Nat) ^ 8 = 256 from rfl, Nat.pow_succ', Nat.mod_mul]

/-- A big-endian string is read below the top: byte `pos` holds `x / 256 ^ (w - 1 - pos)`. -/
theorem toBigEndian_eq_map : ∀ w x,
    toBigEndian w x = (List.range w).map fun pos => UInt8.ofNat (x / 256 ^ (w - 1 - pos))
  | 0, _ => rfl
  | w + 1, x => by
    rw [toBigEndian, toBigEndian_eq_map w x, List.range_succ_eq_map, List.map_cons, List.map_map]
    congr 1
    apply List.map_congr_left
    intro pos _
    rw [Function.comp_apply, show w + 1 - 1 - (pos + 1) = w - 1 - pos by omega]

theorem ofBigEndian_lt : ∀ bs : List UInt8, ofBigEndian bs < 256 ^ bs.length
  | [] => by simp [ofBigEndian]
  | b :: bs => by
    have hb := UInt8.toNat_lt b
    have ih := ofBigEndian_lt bs
    have hmul : b.toNat * 256 ^ bs.length + 256 ^ bs.length ≤ 256 * 256 ^ bs.length := by
      rw [← Nat.succ_mul]
      exact Nat.mul_le_mul_right _ (by omega)
    rw [ofBigEndian, List.length_cons, Nat.pow_succ']
    omega

/-- The bytes below the top depend only on the value below them. -/
theorem toBigEndian_mod : ∀ w x, toBigEndian w (x % 256 ^ w) = toBigEndian w x
  | 0, _ => rfl
  | w + 1, x => by
    have hmod : x % 256 ^ (w + 1) % 256 ^ w = x % 256 ^ w := by
      rw [Nat.mod_mod_of_dvd _ (Nat.pow_dvd_pow 256 (Nat.le_succ w))]
    have hbyte : UInt8.ofNat (x % 256 ^ (w + 1) / 256 ^ w) = UInt8.ofNat (x / 256 ^ w) := by
      apply UInt8.toNat_inj.mp
      rw [UInt8.toNat_ofNat', UInt8.toNat_ofNat', show (2 : Nat) ^ 8 = 256 from rfl, Nat.pow_succ,
        Nat.mod_mul_right_div_self, Nat.mod_mod]
    rw [toBigEndian, toBigEndian, hbyte, ← toBigEndian_mod w (x % 256 ^ (w + 1)), hmod,
      toBigEndian_mod w x]

/-- Values below `P * Q` compare by their quotients by `P` first. -/
theorem lt_iff_div_lt_or {x y P : Nat} (hP : 0 < P) :
    x < y ↔ x / P < y / P ∨ x / P = y / P ∧ x % P < y % P := by
  have hx := Nat.div_add_mod x P
  have hy := Nat.div_add_mod y P
  have hxP := Nat.mod_lt x hP
  have hyP := Nat.mod_lt y hP
  constructor
  · intro hlt
    rcases Nat.lt_or_ge (x / P) (y / P) with hq | hq
    · exact Or.inl hq
    · have hle : x / P ≤ y / P := Nat.div_le_div_right hlt.le
      have heq : x / P = y / P := Nat.le_antisymm hle hq
      rw [heq] at hx
      exact Or.inr ⟨heq, by omega⟩
  · rintro (hq | ⟨heq, hr⟩)
    · have hmul : P * (x / P + 1) ≤ P * (y / P) := Nat.mul_le_mul_left P hq
      rw [Nat.mul_succ] at hmul
      omega
    · rw [heq] at hx
      omega

/-- Big-endian strings of one width compare as their values. -/
theorem toBigEndian_lt_toBigEndian_iff : ∀ (w : Nat) {x y : Nat}, x < 256 ^ w → y < 256 ^ w →
    (toBigEndian w x < toBigEndian w y ↔ x < y)
  | 0, x, y, hx, hy => by
    rw [Nat.pow_zero] at hx hy
    simp only [toBigEndian, List.lt_irrefl, false_iff]
    omega
  | w + 1, x, y, hx, hy => by
    have hP : 0 < 256 ^ w := Nat.pow_pos (by omega)
    have hqx : x / 256 ^ w < 256 := Nat.div_lt_of_lt_mul (by rw [← Nat.pow_succ]; exact hx)
    have hqy : y / 256 ^ w < 256 := Nat.div_lt_of_lt_mul (by rw [← Nat.pow_succ]; exact hy)
    -- the top bytes are the quotients by `256 ^ w`, the rest the remainders
    rw [toBigEndian, toBigEndian, List.cons_lt_cons_iff, ← toBigEndian_mod w x, ← toBigEndian_mod w y,
      toBigEndian_lt_toBigEndian_iff w (Nat.mod_lt x hP) (Nat.mod_lt y hP)]
    simp only [UInt8.lt_iff_toNat_lt, ← UInt8.toNat_inj, UInt8.toNat_ofNat',
      show (2 : Nat) ^ 8 = 256 from rfl, Nat.mod_eq_of_lt hqx, Nat.mod_eq_of_lt hqy]
    exact (lt_iff_div_lt_or hP).symm

/-- Big-endian strings of one width are equal exactly when their values are. -/
theorem toBigEndian_inj {w x y : Nat} (hx : x < 256 ^ w) (hy : y < 256 ^ w) :
    toBigEndian w x = toBigEndian w y ↔ x = y := by
  constructor
  · intro h
    have hval := congrArg ofBigEndian h
    rwa [ofBigEndian_toBigEndian, ofBigEndian_toBigEndian, Nat.mod_eq_of_lt hx, Nat.mod_eq_of_lt hy] at hval
  · rintro rfl
    rfl

/-- Strings whose prefixes have one length compare by the prefixes first. -/
theorem append_lt_append_iff : ∀ {l₁ l₂ r₁ r₂ : List UInt8}, l₁.length = l₂.length →
    (l₁ ++ r₁ < l₂ ++ r₂ ↔ l₁ < l₂ ∨ l₁ = l₂ ∧ r₁ < r₂)
  | [], [], _, _, _ => by simp [List.not_lt_nil]
  | a :: l₁, b :: l₂, r₁, r₂, hlen => by
    rw [List.cons_append, List.cons_append, List.cons_lt_cons_iff, List.cons_lt_cons_iff,
      append_lt_append_iff (by simpa using hlen), List.cons_eq_cons]
    constructor
    · rintro (h | ⟨rfl, h | ⟨rfl, h⟩⟩)
      · exact Or.inl (Or.inl h)
      · exact Or.inl (Or.inr ⟨rfl, h⟩)
      · exact Or.inr ⟨⟨rfl, rfl⟩, h⟩
    · rintro ((h | ⟨rfl, h⟩) | ⟨⟨rfl, rfl⟩, h⟩)
      · exact Or.inl h
      · exact Or.inr ⟨rfl, Or.inl h⟩
      · exact Or.inr ⟨rfl, Or.inr ⟨rfl, h⟩⟩

/-! ## A flag in the top bit -/

/-- The low seven bits of a byte. -/
theorem toNat_and_low (n : Nat) : (UInt8.ofNat n &&& 0x7f).toNat = n % 128 := by
  rw [UInt8.toNat_and, UInt8.toNat_ofNat', show (0x7f : UInt8).toNat = 2 ^ 7 - 1 from rfl,
    Nat.and_two_pow_sub_one_eq_mod]
  omega

/-- Setting the top bit of a byte below it. -/
theorem toNat_or_high {b : UInt8} (h : b.toNat < 128) : (b ||| 0x80).toNat = b.toNat + 128 := by
  rw [UInt8.toNat_or, show (0x80 : UInt8).toNat = 2 ^ 7 * 1 from rfl, Nat.or_comm,
    ← Nat.two_pow_add_eq_or_of_lt h]
  omega

/-- A byte has its top bit clear exactly when it is below `128`. -/
theorem and_high_eq_zero_iff (b : UInt8) : b &&& 0x80 = 0 ↔ b.toNat < 128 := by
  have hb := UInt8.toNat_lt b
  rw [← UInt8.toNat_inj, UInt8.toNat_and, show (0x80 : UInt8).toNat = 2 ^ 7 from rfl,
    show (0 : UInt8).toNat = 0 from rfl]
  constructor
  · -- bit 7 is clear
    intro h
    have hbit := congrArg (fun n => n.testBit 7) h
    simp only [Nat.testBit_and, Nat.testBit_two_pow_self, Bool.and_true, Nat.zero_testBit] at hbit
    rw [Nat.testBit_eq_decide_div_mod_eq, decide_eq_false_iff_not] at hbit
    omega
  · intro h
    apply Nat.eq_of_testBit_eq
    intro i
    rw [Nat.testBit_and, Nat.testBit_two_pow, Nat.zero_testBit]
    by_cases hi : 7 = i
    · subst hi
      rw [Nat.testBit_lt_two_pow (show b.toNat < 2 ^ 7 from h), Bool.false_and]
    · rw [decide_eq_false hi, Bool.and_false]

/-! ## Halves and bits of a byte -/

/-- Masking a byte with `0xf0` keeps its high half. -/
theorem toNat_and_high_half (b : UInt8) : (b &&& 0xf0).toNat = b.toNat / 16 * 16 := by
  have hb := UInt8.toNat_lt b
  rw [UInt8.toNat_and, show (0xf0 : UInt8).toNat = (2 ^ 4 - 1) <<< 4 from rfl,
    show b.toNat / 16 * 16 = b.toNat >>> 4 <<< 4 by rw [Nat.shiftLeft_eq, Nat.shiftRight_eq_div_pow]]
  apply Nat.eq_of_testBit_eq
  intro i
  rw [Nat.testBit_and, Nat.testBit_shiftLeft, Nat.testBit_shiftLeft, Nat.testBit_shiftRight,
    Nat.testBit_two_pow_sub_one]
  by_cases hi : i ≥ 4
  · rw [decide_eq_true hi, Bool.true_and, Bool.true_and, Nat.add_sub_cancel' hi]
    by_cases hi8 : i - 4 < 4
    · rw [decide_eq_true hi8, Bool.and_true]
    · -- above the byte both sides are zero
      rw [decide_eq_false hi8, Bool.and_false,
        Nat.testBit_lt_two_pow (lt_of_lt_of_le hb (Nat.pow_le_pow_right (by omega) (by omega)))]
  · rw [decide_eq_false hi, Bool.false_and, Bool.and_false, Bool.false_and]

/-- A byte masked with `1` is nonzero exactly when its low bit is set. -/
theorem and_one_bne_zero (x : UInt8) : (x &&& 1 != 0) = x.toNat.testBit 0 := by
  have hx : (x &&& 1).toNat = x.toNat % 2 := by
    rw [UInt8.toNat_and, show (1 : UInt8).toNat = 1 from rfl, Nat.and_one_is_mod]
  rw [Nat.testBit_zero, Bool.eq_iff_iff, bne_iff_ne, ne_eq, ← UInt8.toNat_inj, hx, decide_eq_true_iff]
  show ¬x.toNat % 2 = 0 ↔ x.toNat % 2 = 1
  omega

end AptosCore.Bytes
