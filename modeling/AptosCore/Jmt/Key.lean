import Mathlib.Data.Nat.Bitwise

/-!
# Keys, nibbles and node keys

`HashValue` (crates/aptos-crypto/src/hash.rs) is 32 bytes; its derived order
compares them byte by byte, so it is the order of the 256-bit number they spell
big-endian, and that number is how it is modelled here. The jellyfish Merkle
tree (storage/jellyfish-merkle) reads a key four bits at a time, as the 64
nibbles of `NibblePath` (types/src/nibble), and a proof reads it a bit at a time
with `iter_bits`. Both read the same number from its top: nibble `i` is the bits
`4 i, …, 4 i + 3` (`getBit_four_mul_add`), and the first `d` nibbles of a key
are the number above its last `256 - 4 d` bits (`keyPrefix`).
-/

namespace AptosCore

/-- `HashValue`: 32 bytes read big-endian as a number below `2 ^ 256`. -/
abbrev HashValue := Fin (2 ^ 256)

/-- `2 ^ 256` is not zero, so `HashValue` has numerals. -/
instance neZero_two_pow_256 : NeZero (2 ^ 256 : Nat) := ⟨Nat.pos_iff_ne_zero.mp (Nat.two_pow_pos 256)⟩

/-- `Nibble`: a number below 16. -/
abbrev Nibble := Fin 16

/-- `ROOT_NIBBLE_HEIGHT`, `HashValue::LENGTH * 2`. -/
def rootNibbleHeight : Nat := 64

namespace HashValue

/-- `HashValue::LENGTH_IN_BITS`. -/
def lengthInBits : Nat := 256

/-- `self.hash[pos]`, byte `0` the most significant. -/
def byte (h : HashValue) (pos : Nat) : Nat := (h.val >>> (8 * (31 - pos))) % 256

/-- `HashValue::nibble`: `(self.hash[index / 2] >> shift) & 0x0f`, the high half of
the byte for an even index. -/
def nibble (h : HashValue) (index : Nat) : Nat :=
  let pos := index / 2
  let shift := if index % 2 = 0 then 4 else 0
  (byte h pos >>> shift) &&& 0x0f

theorem byte_lt (h : HashValue) (pos : Nat) : byte h pos < 256 := Nat.mod_lt _ (by decide)

/-- `NibbleExt::get_nibble` (storage/jellyfish-merkle/src/lib.rs). -/
def getNibble (h : HashValue) (index : Nat) : Nibble :=
  ⟨if index % 2 = 0 then byte h (index / 2) >>> 4 else byte h (index / 2) &&& 0x0F, by
    split
    · rw [Nat.shiftRight_eq_div_pow]
      have := byte_lt h (index / 2)
      omega
    · exact lt_of_le_of_lt Nat.and_le_right (by decide)⟩

/-- `HashValueBitIterator::get_bit`: bit `7 - index % 8` of byte `index / 8`. -/
def getBit (h : HashValue) (index : Nat) : Bool :=
  let pos := index / 8
  let bit := 7 - index % 8
  (byte h pos >>> bit) &&& 1 != 0

/-- `HashValue::iter_bits`, the most significant bit first. -/
def iterBits (h : HashValue) : List Bool := (List.range lengthInBits).map (getBit h)

/-- `HashValue::common_prefix_bits_len`: the bits the two keys agree on, from the top. -/
def commonPrefixBitsLen (h other : HashValue) : Nat :=
  (((iterBits h).zip (iterBits other)).takeWhile fun p => p.1 == p.2).length

/-- The first `d` nibbles of a key, as the number above its last `256 - 4 d` bits. -/
def keyPrefix (h : HashValue) (d : Nat) : Nat := h.val / 2 ^ (256 - 4 * d)

/-! ## Nibbles and bits as arithmetic on the key -/

/-- Byte `pos` is the key shifted down past the bytes after it. -/
theorem byte_eq (h : HashValue) (pos : Nat) : byte h pos = h.val / 2 ^ (8 * (31 - pos)) % 256 := by
  rw [byte, Nat.shiftRight_eq_div_pow]

/-- The bits of a byte are bits of the key. -/
theorem testBit_byte (h : HashValue) (pos b : Nat) :
    (byte h pos).testBit b = (decide (b < 8) && h.val.testBit (8 * (31 - pos) + b)) := by
  rw [byte_eq, show ∀ x : Nat, x % 256 = x % 2 ^ 8 from fun _ => rfl, Nat.testBit_mod_two_pow,
    Nat.testBit_div_two_pow, Nat.add_comm b]

theorem getNibble_val {h : HashValue} {i : Nat} (hi : i < 64) :
    (getNibble h i).val = h.val / 2 ^ (252 - 4 * i) % 16 := by
  apply Nat.eq_of_testBit_eq
  intro b
  rw [show ∀ x : Nat, x % 16 = x % 2 ^ 4 from fun _ => rfl, Nat.testBit_mod_two_pow,
    Nat.testBit_div_two_pow]
  simp only [getNibble]
  split
  · -- the high half of byte `i / 2`
    rw [Nat.testBit_shiftRight, testBit_byte]
    by_cases hb : b < 4
    · simp only [hb, decide_true, Bool.true_and]
      rw [decide_eq_true (by omega : 4 + b < 8), Bool.true_and]
      congr 1
      omega
    · simp only [hb, decide_false, Bool.false_and, decide_eq_false (by omega : ¬4 + b < 8)]
  · -- the low half of byte `i / 2`
    rw [show (0x0F : Nat) = 2 ^ 4 - 1 by decide, Nat.and_two_pow_sub_one_eq_mod,
      Nat.testBit_mod_two_pow, testBit_byte]
    by_cases hb : b < 4
    · simp only [hb, decide_true, Bool.true_and]
      rw [decide_eq_true (by omega : b < 8), Bool.true_and]
      congr 1
      omega
    · simp only [hb, decide_false, Bool.false_and]

theorem getNibble_eq_nibble (h : HashValue) (i : Nat) : (getNibble h i).val = nibble h i := by
  have hlt := byte_lt h (i / 2)
  simp only [getNibble, nibble]
  split
  · rw [show (0x0f : Nat) = 2 ^ 4 - 1 by decide, Nat.and_two_pow_sub_one_eq_mod,
      Nat.mod_eq_of_lt (by rw [Nat.shiftRight_eq_div_pow]; omega)]
  · rw [Nat.shiftRight_zero]

theorem testBit_getNibble {h : HashValue} {i : Nat} (hi : i < 64) (b : Nat) :
    (getNibble h i).val.testBit b = (decide (b < 4) && h.val.testBit (252 - 4 * i + b)) := by
  rw [getNibble_val hi, show ∀ x : Nat, x % 16 = x % 2 ^ 4 from fun _ => rfl,
    Nat.testBit_mod_two_pow, Nat.testBit_div_two_pow, Nat.add_comm b]

theorem getBit_eq {h : HashValue} {i : Nat} (hi : i < 256) : getBit h i = h.val.testBit (255 - i) := by
  simp only [getBit]
  rw [Nat.land_comm, ← Nat.testBit, testBit_byte, decide_eq_true (by omega : 7 - i % 8 < 8),
    Bool.true_and]
  congr 1
  omega

/-- Nibble `i` is bits `4 i, …, 4 i + 3`, the top one first. -/
theorem getBit_four_mul_add {h : HashValue} {i j : Nat} (hi : i < 64) (hj : j < 4) :
    getBit h (4 * i + j) = (getNibble h i).val.testBit (3 - j) := by
  rw [getBit_eq (by omega), testBit_getNibble hi, decide_eq_true (by omega : 3 - j < 4), Bool.true_and]
  congr 1
  omega

/-! ## Prefixes -/

theorem keyPrefix_succ (h : HashValue) {d : Nat} (hd : d < 64) :
    keyPrefix h (d + 1) = keyPrefix h d * 16 + (getNibble h d).val := by
  rw [getNibble_val hd, keyPrefix, keyPrefix]
  have hsplit : 256 - 4 * d = (252 - 4 * d) + 4 := by omega
  rw [show 256 - 4 * (d + 1) = 252 - 4 * d by omega, hsplit, Nat.pow_add, ← Nat.div_div_eq_div_mul]
  have := Nat.div_add_mod (h.val / 2 ^ (252 - 4 * d)) (2 ^ 4)
  rw [show (2 : Nat) ^ 4 = 16 by decide] at this ⊢
  omega

/-- Keys that agree on their first `d` nibbles have the same prefix. -/
theorem keyPrefix_eq_of_getNibble_eq {h h' : HashValue} :
    ∀ {d : Nat}, d ≤ 64 → (∀ i, i < d → getNibble h i = getNibble h' i) →
      keyPrefix h d = keyPrefix h' d
  | 0, _, _ => by
    simp only [keyPrefix, Nat.mul_zero, Nat.sub_zero]
    rw [Nat.div_eq_of_lt h.isLt, Nat.div_eq_of_lt h'.isLt]
  | d + 1, hd, heq => by
    rw [keyPrefix_succ h (by omega), keyPrefix_succ h' (by omega),
      keyPrefix_eq_of_getNibble_eq (by omega) fun i hi => heq i (by omega), heq d (by omega)]

/-- A key is its 64 nibbles. -/
theorem eq_of_getNibble_eq {h h' : HashValue} (heq : ∀ i, i < 64 → getNibble h i = getNibble h' i) :
    h = h' := by
  have := keyPrefix_eq_of_getNibble_eq (Nat.le_refl 64) heq
  simp only [keyPrefix, Nat.mul_comm 4 64, Nat.sub_self, Nat.pow_zero, Nat.div_one] at this
  exact Fin.ext this

/-- Among keys that agree on their first `d` nibbles, nibble `d` grows with the key. -/
theorem getNibble_le_of_le {h h' : HashValue} {d : Nat} (hd : d < 64) (hle : h ≤ h')
    (heq : ∀ i, i < d → getNibble h i = getNibble h' i) : getNibble h d ≤ getNibble h' d := by
  have hpre := keyPrefix_eq_of_getNibble_eq (by omega) heq
  have hmono : keyPrefix h (d + 1) ≤ keyPrefix h' (d + 1) :=
    Nat.div_le_div_right (Fin.le_def.mp hle)
  rw [keyPrefix_succ h hd, keyPrefix_succ h' hd, hpre] at hmono
  exact Fin.le_def.mpr (by omega)

end HashValue

/-- `NibblePath`, as its list of nibbles: the packed bytes and the nibble count of
the source hold exactly these. -/
abbrev NibblePath := List Nibble

/-- `NibblePath::push`. -/
def NibblePath.push (p : NibblePath) (nibble : Nibble) : NibblePath := p ++ [nibble]

/-- `NibblePath::new_even(key.to_vec()).nibbles()`: the 64 nibbles of a key. -/
def HashValue.nibblePath (h : HashValue) : NibblePath :=
  (List.range rootNibbleHeight).map (HashValue.getNibble h)

/-- `NodeKey`: the version that created a node and its path from the root. -/
structure NodeKey where
  version : Nat
  nibblePath : NibblePath
  deriving DecidableEq, Repr

namespace NodeKey

/-- `NodeKey::new_empty_path`. -/
def newEmptyPath (version : Nat) : NodeKey := ⟨version, []⟩

/-- `NodeKey::gen_child_node_key`. -/
def genChildNodeKey (nodeKey : NodeKey) (version : Nat) (n : Nibble) : NodeKey :=
  ⟨version, nodeKey.nibblePath.push n⟩

/-- `NodeKey::set_version`. -/
def setVersion (nodeKey : NodeKey) (version : Nat) : NodeKey := { nodeKey with version }

@[simp] theorem genChildNodeKey_version (nodeKey : NodeKey) (version : Nat) (n : Nibble) :
    (nodeKey.genChildNodeKey version n).version = version := rfl

@[simp] theorem genChildNodeKey_nibblePath (nodeKey : NodeKey) (version : Nat) (n : Nibble) :
    (nodeKey.genChildNodeKey version n).nibblePath = nodeKey.nibblePath ++ [n] := rfl

@[simp] theorem setVersion_version (nodeKey : NodeKey) (version : Nat) :
    (nodeKey.setVersion version).version = version := rfl

@[simp] theorem setVersion_nibblePath (nodeKey : NodeKey) (version : Nat) :
    (nodeKey.setVersion version).nibblePath = nodeKey.nibblePath := rfl

end NodeKey

end AptosCore
