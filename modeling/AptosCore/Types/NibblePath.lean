import AptosCore.Jmt.Codec

/-!
# The packed nibble path

`NibblePath` (types/src/nibble/nibble_path) keeps its nibbles two a byte, the
first in the high half, beside their count `num_nibbles`; a path of an odd
number of nibbles ends in a byte whose low half is zero. Its derived `Eq` and
`Ord` compare the count and then the raw bytes, so that padding has to stay zero
for equal paths to compare equal.

`WellFormed` is this representation invariant. The well-formed paths are exactly
the packings `ofNibbles l` of the lists of at most 64 nibbles
(`wellFormed_iff`), and `toNibbles` reads a path back as the list of nibbles that
the tree's model (`AptosCore.NibblePath`) works with. On a packing, `push`,
`pop`, `truncate`, `last` and `get_nibble` are the list operations
(`push_ofNibbles`, `pop_ofNibbles`, ...); every constructor and mutator keeps the
invariant (`wellFormed_of_produced`); and the derived order is the order of the
count and then of the nibbles (`lt_iff_toNibbles`). The 32 bytes of a key, read
as a path, hold the key's nibbles (`HashValue.getNibble_toVec`).

`checked_precondition!` and `assert!` panic, as do an index out of range and
`num_nibbles -= 1` below zero (release builds check overflow); a panic is `none`.
-/

namespace AptosCore

open Bytes

/-! ## Halves of a byte -/

/-- `Nibble::from(byte >> 4)`: the high half of a byte, below 16 as the
assertion of `Nibble::from` requires. -/
def highNibble (byte : UInt8) : Nibble :=
  ⟨(byte >>> 4).toNat, by
    rw [UInt8.toNat_shiftRight, Nat.shiftRight_eq_div_pow]
    have := UInt8.toNat_lt byte
    show byte.toNat / 2 ^ 4 < 16
    omega⟩

/-- `Nibble::from(byte & 0x0f)`: the low half of a byte. -/
def lowNibble (byte : UInt8) : Nibble :=
  ⟨(byte &&& 0x0f).toNat, by
    rw [UInt8.toNat_and]
    exact lt_of_le_of_lt Nat.and_le_right (by decide)⟩

theorem val_highNibble (byte : UInt8) : (highNibble byte).val = byte.toNat / 16 := by
  show (byte >>> 4).toNat = byte.toNat / 16
  rw [UInt8.toNat_shiftRight, Nat.shiftRight_eq_div_pow]
  rfl

theorem val_lowNibble (byte : UInt8) : (lowNibble byte).val = byte.toNat % 16 := by
  show (byte &&& 0x0f).toNat = byte.toNat % 16
  rw [UInt8.toNat_and, show (0x0f : UInt8).toNat = 2 ^ 4 - 1 from rfl, Nat.and_two_pow_sub_one_eq_mod]

/-- A nibble alone in the high half of a byte, as `push` writes it. -/
theorem toNat_single (a : Nibble) : (UInt8.ofNat (a.val <<< 4)).toNat = 16 * a.val := by
  have := a.isLt
  rw [UInt8.toNat_ofNat', Nat.shiftLeft_eq]
  show a.val * 2 ^ 4 % 2 ^ 8 = 16 * a.val
  omega

@[simp] theorem highNibble_single (a : Nibble) : highNibble (UInt8.ofNat (a.val <<< 4)) = a :=
  Fin.ext (by rw [val_highNibble, toNat_single]; omega)

@[simp] theorem highNibble_pair (a b : Nibble) : highNibble (UInt8.ofNat (a.val <<< 4 ||| b.val)) = a := by
  have := b.isLt
  exact Fin.ext (by rw [val_highNibble, NibblePath.toNat_pair]; omega)

@[simp] theorem lowNibble_pair (a b : Nibble) : lowNibble (UInt8.ofNat (a.val <<< 4 ||| b.val)) = b := by
  have := b.isLt
  exact Fin.ext (by rw [val_lowNibble, NibblePath.toNat_pair]; omega)

/-- A byte is its two halves. -/
theorem pair_highNibble_lowNibble (c : UInt8) :
    UInt8.ofNat ((highNibble c).val <<< 4 ||| (lowNibble c).val) = c :=
  UInt8.toNat_inj.mp (by rw [NibblePath.toNat_pair, val_highNibble, val_lowNibble]; omega)

/-- Masking with `0xf0` leaves the high half alone in the byte. -/
theorem and_high_eq_single (c : UInt8) : c &&& (0xf0 : UInt8) = UInt8.ofNat ((highNibble c).val <<< 4) :=
  UInt8.toNat_inj.mp (by rw [toNat_and_high_half, toNat_single, val_highNibble]; omega)

/-- A byte with a zero low half is its high nibble alone. -/
theorem single_highNibble {c : UInt8} (h : c &&& 0x0f = 0) : UInt8.ofNat ((highNibble c).val <<< 4) = c := by
  have hlow : (lowNibble c).val = 0 := by
    show (c &&& 0x0f).toNat = 0
    rw [h]
    rfl
  apply UInt8.toNat_inj.mp
  rw [toNat_single, val_highNibble]
  rw [val_lowNibble] at hlow
  omega

theorem single_and_low (a : Nibble) : UInt8.ofNat (a.val <<< 4) &&& 0x0f = 0 := by
  apply UInt8.toNat_inj.mp
  rw [UInt8.toNat_and, show (0x0f : UInt8).toNat = 2 ^ 4 - 1 from rfl, Nat.and_two_pow_sub_one_eq_mod,
    toNat_single]
  show 16 * a.val % 2 ^ 4 = 0
  omega

/-- `u8::from(nibble) << 4`, shifted as a byte, is the nibble in the high half. -/
theorem ofNat_shiftLeft_four (a : Nibble) : UInt8.ofNat a.val <<< 4 = UInt8.ofNat (a.val <<< 4) := by
  have := a.isLt
  apply UInt8.toNat_inj.mp
  rw [UInt8.toNat_shiftLeft, toNat_single, UInt8.toNat_ofNat']
  show (a.val % 2 ^ 8) <<< 4 % 2 ^ 8 = 16 * a.val
  rw [Nat.shiftLeft_eq]
  omega

/-- `|=` of a nibble into a byte whose low half is zero. -/
theorem single_or (a b : Nibble) :
    UInt8.ofNat (a.val <<< 4) ||| UInt8.ofNat b.val = UInt8.ofNat (a.val <<< 4 ||| b.val) := by
  have hb := b.isLt
  apply UInt8.toNat_inj.mp
  rw [UInt8.toNat_or, NibblePath.toNat_pair, toNat_single, UInt8.toNat_ofNat',
    Nat.mod_eq_of_lt (by omega : b.val < 2 ^ 8), ← Nat.two_pow_add_eq_or_of_lt (show b.val < 2 ^ 4 from hb)]

/-! ## The packing of a list of nibbles -/

namespace NibblePath

/-- The packing of a path of an even length is followed by that of the rest. -/
theorem bytes_append : ∀ (l r : NibblePath), l.length % 2 = 0 → bytes (l ++ r) = bytes l ++ bytes r
  | [], _, _ => rfl
  | [_], _, h => by simp at h
  | a :: b :: l, r, h => by
    rw [List.cons_append, List.cons_append, bytes, bytes, bytes_append l r (by simp at h; omega),
      List.cons_append]

theorem bytes_append_single {l : NibblePath} (h : l.length % 2 = 0) (a : Nibble) :
    bytes (l ++ [a]) = bytes l ++ [UInt8.ofNat (a.val <<< 4)] := by
  rw [bytes_append l [a] h]
  rfl

theorem bytes_append_pair {l : NibblePath} (h : l.length % 2 = 0) (a b : Nibble) :
    bytes (l ++ [a, b]) = bytes l ++ [UInt8.ofNat (a.val <<< 4 ||| b.val)] := by
  rw [bytes_append l [a, b] h]
  rfl

/-- The first byte of a packing holds the first nibble in its high half. -/
theorem exists_bytes_cons (a : Nibble) (rest : NibblePath) :
    ∃ x tail, bytes (a :: rest) = x :: tail ∧ highNibble x = a := by
  cases rest with
  | nil => exact ⟨_, [], rfl, highNibble_single a⟩
  | cons b rest => exact ⟨_, bytes rest, rfl, highNibble_pair a b⟩

/-- A path of an odd length is a path of an even length and one nibble. -/
theorem exists_append_of_odd {l : NibblePath} (h : l.length % 2 = 1) :
    ∃ l' a, l = l' ++ [a] ∧ l'.length % 2 = 0 := by
  rcases List.eq_nil_or_concat' l with rfl | ⟨l', a, rfl⟩
  · exact absurd h (by decide)
  · exact ⟨l', a, rfl, by simp at h; omega⟩

theorem getNibble_cons_zero (c : UInt8) (rest : List UInt8) : getNibble (c :: rest) 0 = highNibble c := by
  have hc := UInt8.toNat_lt c
  apply Fin.ext
  show (c.toNat >>> 4) &&& 0xf = (highNibble c).val
  rw [val_highNibble, Nat.shiftRight_eq_div_pow, show (0xf : Nat) = 2 ^ 4 - 1 from rfl,
    Nat.and_two_pow_sub_one_eq_mod]
  show c.toNat / 16 % 16 = c.toNat / 16
  omega

theorem getNibble_cons_one (c : UInt8) (rest : List UInt8) : getNibble (c :: rest) 1 = lowNibble c := by
  apply Fin.ext
  show (c.toNat >>> 0) &&& 0xf = (lowNibble c).val
  rw [val_lowNibble, Nat.shiftRight_zero, show (0xf : Nat) = 2 ^ 4 - 1 from rfl,
    Nat.and_two_pow_sub_one_eq_mod]

theorem ofBytes_add_two (n : Nat) (c : UInt8) (rest : List UInt8) :
    ofBytes (n + 2) (c :: rest) = highNibble c :: lowNibble c :: ofBytes n rest := by
  rw [ofBytes, List.range_succ_eq_map, List.range_succ_eq_map, List.map_cons, List.map_map, List.map_cons,
    List.map_map, getNibble_cons_zero, Function.comp_apply, getNibble_cons_one, ofBytes]
  congr 2
  apply List.map_congr_left
  intro i _
  simp only [Function.comp_apply, Nat.succ_eq_add_one, show i + 1 + 1 = i + 2 by omega, getNibble_cons_add_two]

theorem ofBytes_one (c : UInt8) (rest : List UInt8) : ofBytes 1 (c :: rest) = [highNibble c] := by
  rw [ofBytes, List.range_one, List.map_singleton, getNibble_cons_zero]

/-- Bytes of the right length, with a zero low half under an odd last nibble,
are the packing of the nibbles they hold. -/
theorem bytes_ofBytes : ∀ (bs : List UInt8) (n : Nat), bs.length = (n + 1) / 2 →
    (n % 2 = 1 → bs.getLastD 0 &&& 0x0f = 0) → bytes (ofBytes n bs) = bs
  | [], n, hlen, _ => by
    obtain rfl : n = 0 := by simp at hlen; omega
    rfl
  | [c], n, hlen, hpad => by
    simp only [List.length_singleton] at hlen
    rcases (show n = 1 ∨ n = 2 by omega) with rfl | rfl
    · -- one nibble over a zero low half
      rw [ofBytes_one]
      exact congrArg (· :: []) (single_highNibble (hpad rfl))
    · rw [ofBytes_add_two]
      exact congrArg (· :: []) (pair_highNibble_lowNibble c)
  | c :: d :: rest, n, hlen, hpad => by
    simp only [List.length_cons] at hlen
    obtain ⟨m, rfl⟩ : ∃ m, n = m + 2 := ⟨n - 2, by omega⟩
    have hpad' : m % 2 = 1 → (d :: rest).getLastD 0 &&& 0x0f = 0 := fun hm => by
      have h := hpad (by omega)
      simpa only [List.getLastD_cons] using h
    rw [ofBytes_add_two, bytes, pair_highNibble_lowNibble,
      bytes_ofBytes (d :: rest) m (by simp only [List.length_cons]; omega) hpad']

/-- Packings of one length compare as the nibbles they hold. -/
theorem bytes_lt_bytes_iff : ∀ {l m : NibblePath}, l.length = m.length → (bytes l < bytes m ↔ l < m)
  | [], [], _ => ⟨fun h => absurd h (List.lt_irrefl _), fun h => absurd h (List.lt_irrefl _)⟩
  | [a], [b], _ => by
    have key : 16 * a.val < 16 * b.val ↔ a.val < b.val := by omega
    have hnil₁ : ¬([] : List UInt8) < [] := List.lt_irrefl _
    have hnil₂ : ¬([] : NibblePath) < [] := List.lt_irrefl _
    rw [bytes, bytes, List.cons_lt_cons_iff, List.cons_lt_cons_iff, UInt8.lt_iff_toNat_lt, ← UInt8.toNat_inj,
      toNat_single, toNat_single, key, ← Fin.lt_def, Nat.mul_left_cancel_iff (by decide), ← Fin.ext_iff]
    simp only [hnil₁, hnil₂, and_false, or_false]
  | a :: a' :: l, b :: b' :: m, h => by
    have ha := a'.isLt
    have hb := b'.isLt
    have key : 16 * a.val + a'.val < 16 * b.val + b'.val ↔ a < b ∨ a = b ∧ a' < b' := by
      rw [Fin.lt_def, Fin.lt_def, Fin.ext_iff]
      omega
    have keq : 16 * a.val + a'.val = 16 * b.val + b'.val ↔ a = b ∧ a' = b' := by
      rw [Fin.ext_iff, Fin.ext_iff]
      omega
    rw [bytes, bytes, List.cons_lt_cons_iff, bytes_lt_bytes_iff (by simpa using h), UInt8.lt_iff_toNat_lt,
      ← UInt8.toNat_inj, toNat_pair, toNat_pair, key, keq, List.cons_lt_cons_iff, List.cons_lt_cons_iff]
    tauto
  | [], _ :: _, h | _ :: _, [], h | [_], _ :: _ :: _, h | _ :: _ :: _, [_], h => by simp at h

/-- The last byte of the packing of `l ++ [a]`: the nibble alone after an even
path, or beside the nibble before it after an odd one. -/
theorem bytes_concat (l : NibblePath) (a : Nibble) :
    (l.length % 2 = 0 ∧ bytes (l ++ [a]) = bytes l ++ [UInt8.ofNat (a.val <<< 4)]) ∨
    ∃ l' b, l = l' ++ [b] ∧ l'.length % 2 = 0 ∧
      bytes (l ++ [a]) = bytes l' ++ [UInt8.ofNat (b.val <<< 4 ||| a.val)] := by
  by_cases heven : l.length % 2 = 0
  · exact Or.inl ⟨heven, bytes_append_single heven a⟩
  · obtain ⟨l', b, rfl, heven'⟩ := exists_append_of_odd (by omega : l.length % 2 = 1)
    refine Or.inr ⟨l', b, rfl, heven', ?_⟩
    rw [List.append_assoc, List.singleton_append, bytes_append_pair heven']

/-- `get_nibble` reads the nibble of the packing out of byte `i / 2`. -/
theorem lowNibble_shiftRight {bs : List UInt8} {i : Nat} (h : i / 2 < bs.length) :
    lowNibble (bs[i / 2] >>> (if i % 2 = 1 then (0 : UInt8) else 4)) = getNibble bs i := by
  apply Fin.ext
  show ((bs[i / 2] >>> (if i % 2 = 1 then (0 : UInt8) else 4)) &&& 0x0f).toNat =
    (bs.getD (i / 2) 0).toNat >>> (if i % 2 = 1 then 0 else 4) &&& 0xf
  rw [UInt8.toNat_and, UInt8.toNat_shiftRight, List.getD_eq_getElem _ _ h]
  by_cases hi : i % 2 = 1
  · rw [if_pos hi, if_pos hi]
    rfl
  · rw [if_neg hi, if_neg hi]
    rfl

end NibblePath

namespace Types

/-- `NibblePath`: `num_nibbles` and the bytes that hold them, two a byte. -/
structure NibblePath where
  numNibbles : Nat
  bytes : List UInt8
  deriving DecidableEq, Repr

namespace NibblePath

/-- `NibblePath::new_even`. -/
def newEven (bytes : List UInt8) : Option NibblePath :=
  if bytes.length ≤ rootNibbleHeight / 2 then some ⟨bytes.length * 2, bytes⟩ else none

/-- `NibblePath::new_odd`: the last byte must exist and have a zero low half. -/
def newOdd (bytes : List UInt8) : Option NibblePath :=
  if bytes.length ≤ rootNibbleHeight / 2 then
    match bytes.getLast? with
    | none => none
    | some last => if last &&& 0x0f = 0 then some ⟨bytes.length * 2 - 1, bytes⟩ else none
  else none

/-- `NibblePath::new_from_byte_array`: the first `num_nibbles` nibbles of
`bytes`, an odd last one with the low half of its byte cleared. -/
def newFromByteArray (bytes : List UInt8) (numNibbles : Nat) : Option NibblePath :=
  if numNibbles ≤ rootNibbleHeight then
    if numNibbles % 2 = 1 then
      let numBytes := (numNibbles + 1) / 2
      if bytes.length ≥ numBytes then
        let nibbleBytes := bytes.take numBytes
        match bytes[numBytes - 1]? with
        | none => none
        | some lastByte => newOdd (nibbleBytes.set (numBytes - 1) (lastByte &&& 0xF0))
      else none
    else if bytes.length ≥ numNibbles / 2 then newEven (bytes.take (numNibbles / 2)) else none
  else none

/-- `NibblePath::push`: a new byte for an even path, the low half of the last
byte for an odd one. -/
def push (p : NibblePath) (nibble : Nibble) : Option NibblePath :=
  if rootNibbleHeight > p.numNibbles then
    if p.numNibbles % 2 = 0 then
      some ⟨p.numNibbles + 1, p.bytes ++ [UInt8.ofNat nibble.val <<< 4]⟩
    else
      match p.bytes[p.numNibbles / 2]? with
      | none => none
      | some byte => some ⟨p.numNibbles + 1, p.bytes.set (p.numNibbles / 2) (byte ||| UInt8.ofNat nibble.val)⟩
  else none

/-- `NibblePath::pop`: the path without its last nibble, and that nibble. -/
def pop (p : NibblePath) : Option (NibblePath × Option Nibble) :=
  let popped : Option (List UInt8 × Nibble) :=
    if p.numNibbles % 2 = 0 then
      p.bytes.getLast?.map fun lastByte => (p.bytes.dropLast ++ [lastByte &&& 0xf0], lowNibble lastByte)
    else
      p.bytes.getLast?.map fun byte => (p.bytes.dropLast, highNibble byte)
  match popped with
  | none => some (p, none)
  | some (bytes, nibble) =>
    -- `self.num_nibbles -= 1` overflows below zero
    if p.numNibbles = 0 then none else some (⟨p.numNibbles - 1, bytes⟩, some nibble)

/-- `NibblePath::last`. -/
def last (p : NibblePath) : Option (Option Nibble) :=
  if p.numNibbles % 2 = 0 then
    some (p.bytes.getLast?.map lowNibble)
  else
    p.bytes.getLast?.map fun lastByte => some (highNibble lastByte)

/-- `NibblePath::get_bit`: bit `7 - i % 8` of byte `i / 8`. -/
def getBit (p : NibblePath) (i : Nat) : Option Bool :=
  if i < p.numNibbles * 4 then
    let pos := i / 8
    let bit := 7 - i % 8
    p.bytes[pos]?.map fun byte => (byte >>> UInt8.ofNat bit) &&& 1 != 0
  else none

/-- `NibblePath::get_nibble`: the high half of byte `i / 2` for an even `i`, the
low half for an odd one. -/
def getNibble (p : NibblePath) (i : Nat) : Option Nibble :=
  if i < p.numNibbles then
    p.bytes[i / 2]?.map fun (byte : UInt8) => lowNibble (byte >>> (if i % 2 = 1 then (0 : UInt8) else 4))
  else none

/-- `NibblePath::truncate`: the first `len` nibbles, an odd last one with the low
half of its byte cleared. -/
def truncate (p : NibblePath) (len : Nat) : Option NibblePath :=
  if len ≤ p.numNibbles then
    let bytes := p.bytes.take ((len + 1) / 2)
    if len % 2 ≠ 0 then
      match bytes.getLast? with
      | none => none
      | some lastByte => some ⟨len, bytes.dropLast ++ [lastByte &&& 0xf0]⟩
    else some ⟨len, bytes⟩
  else none

/-- `FromIterator<Nibble> for NibblePath`: the nibbles pushed one by one onto
`new_even(vec![])`. -/
def fromIter (nibbles : List Nibble) : Option NibblePath := do
  let nibblePath ← newEven []
  nibbles.foldlM push nibblePath

/-! ## The representation invariant -/

/-- The invariant of `NibblePath`: `bytes.len()` is `num_nibbles` halved up, there
are at most `ROOT_NIBBLE_HEIGHT` nibbles, and an odd path's last byte has a zero
low half. -/
structure WellFormed (p : NibblePath) : Prop where
  length_bytes : p.bytes.length = (p.numNibbles + 1) / 2
  numNibbles_le : p.numNibbles ≤ rootNibbleHeight
  padding : p.numNibbles % 2 = 1 → p.bytes.getLastD 0 &&& 0x0f = 0

instance (p : NibblePath) : Decidable (WellFormed p) :=
  decidable_of_iff (p.bytes.length = (p.numNibbles + 1) / 2 ∧ p.numNibbles ≤ rootNibbleHeight ∧
      (p.numNibbles % 2 = 1 → p.bytes.getLastD 0 &&& 0x0f = 0))
    ⟨fun ⟨h₁, h₂, h₃⟩ => ⟨h₁, h₂, h₃⟩, fun ⟨h₁, h₂, h₃⟩ => ⟨h₁, h₂, h₃⟩⟩

example : WellFormed ⟨3, [0x12, 0xa0]⟩ ∧ ¬WellFormed ⟨3, [0x12, 0xa5]⟩ := by decide

/-- The nibbles of a path, read with `get_nibble`: the path of the tree's model. -/
def toNibbles (p : NibblePath) : AptosCore.NibblePath :=
  AptosCore.NibblePath.ofBytes p.numNibbles p.bytes

/-- The packing of a list of nibbles, as `push` lays them out. -/
def ofNibbles (l : AptosCore.NibblePath) : NibblePath :=
  ⟨l.length, AptosCore.NibblePath.bytes l⟩

@[simp] theorem numNibbles_ofNibbles (l : AptosCore.NibblePath) : (ofNibbles l).numNibbles = l.length := rfl

@[simp] theorem bytes_ofNibbles (l : AptosCore.NibblePath) :
    (ofNibbles l).bytes = AptosCore.NibblePath.bytes l := rfl

@[simp] theorem length_toNibbles (p : NibblePath) : (toNibbles p).length = p.numNibbles := by
  simp [toNibbles, AptosCore.NibblePath.ofBytes]

@[simp] theorem toNibbles_ofNibbles (l : AptosCore.NibblePath) : toNibbles (ofNibbles l) = l :=
  AptosCore.NibblePath.ofBytes_bytes l

theorem wellFormed_ofNibbles {l : AptosCore.NibblePath} (hl : l.length ≤ rootNibbleHeight) :
    WellFormed (ofNibbles l) where
  length_bytes := AptosCore.NibblePath.length_bytes l
  numNibbles_le := hl
  padding h := by
    obtain ⟨last, hlast, hzero⟩ := AptosCore.NibblePath.getLast_bytes_of_odd l h
    rw [bytes_ofNibbles, List.getLastD_eq_getLast?, hlast]
    exact hzero

theorem ofNibbles_toNibbles {p : NibblePath} (hp : WellFormed p) : ofNibbles (toNibbles p) = p := by
  obtain ⟨numNibbles, bytes⟩ := p
  rw [ofNibbles, length_toNibbles, toNibbles,
    AptosCore.NibblePath.bytes_ofBytes bytes numNibbles hp.length_bytes hp.padding]

/-- The well-formed paths are exactly the packings of at most 64 nibbles. -/
theorem wellFormed_iff (p : NibblePath) :
    WellFormed p ↔ ∃ l : AptosCore.NibblePath, l.length ≤ rootNibbleHeight ∧ p = ofNibbles l := by
  constructor
  · intro hp
    exact ⟨toNibbles p, by rw [length_toNibbles]; exact hp.numNibbles_le, (ofNibbles_toNibbles hp).symm⟩
  · rintro ⟨l, hl, rfl⟩
    exact wellFormed_ofNibbles hl

/-- Well-formed paths are equal exactly when their nibbles are. -/
theorem eq_iff_toNibbles {p q : NibblePath} (hp : WellFormed p) (hq : WellFormed q) :
    p = q ↔ toNibbles p = toNibbles q := by
  constructor
  · rintro rfl
    rfl
  · intro h
    rw [← ofNibbles_toNibbles hp, ← ofNibbles_toNibbles hq, h]

/-! ## The operations on a packing -/

/-- On a packing, `push` appends the nibble, and panics on a full path. -/
theorem push_ofNibbles (l : AptosCore.NibblePath) (nibble : Nibble) :
    push (ofNibbles l) nibble =
      if l.length < rootNibbleHeight then some (ofNibbles (l ++ [nibble])) else none := by
  by_cases hlt : l.length < rootNibbleHeight
  · rw [if_pos hlt, push, if_pos (show rootNibbleHeight > (ofNibbles l).numNibbles from hlt)]
    rcases AptosCore.NibblePath.bytes_concat l nibble with ⟨heven, hbytes⟩ | ⟨l', a, rfl, heven, hbytes⟩
    · -- a new byte with the nibble in its high half
      rw [if_pos (show (ofNibbles l).numNibbles % 2 = 0 from heven), ofNat_shiftLeft_four, ofNibbles, ofNibbles,
        hbytes, List.length_append, List.length_singleton]
    · -- the nibble goes into the low half of the last byte
      have hlen : (AptosCore.NibblePath.bytes l').length = (l' ++ [a]).length / 2 := by
        rw [AptosCore.NibblePath.length_bytes, List.length_append, List.length_singleton]
      have hset : (AptosCore.NibblePath.bytes l' ++ [UInt8.ofNat (a.val <<< 4)]).set
          (AptosCore.NibblePath.bytes l').length (UInt8.ofNat (a.val <<< 4) ||| UInt8.ofNat nibble.val) =
          AptosCore.NibblePath.bytes (l' ++ [a] ++ [nibble]) := by
        rw [List.set_append_right _ _ le_rfl, Nat.sub_self, List.set_cons_zero, single_or, hbytes]
      rw [if_neg (show ¬(ofNibbles (l' ++ [a])).numNibbles % 2 = 0 by simp; omega), numNibbles_ofNibbles,
        bytes_ofNibbles, AptosCore.NibblePath.bytes_append_single heven, ← hlen,
        List.getElem?_append_right le_rfl, Nat.sub_self, List.getElem?_cons_zero]
      dsimp only
      rw [hset, ofNibbles]
      simp only [List.length_append, List.length_singleton]
  · rw [if_neg hlt, push, if_neg (show ¬rootNibbleHeight > (ofNibbles l).numNibbles from hlt)]

/-- On a packing, `pop` removes the last nibble and returns it. -/
theorem pop_ofNibbles (l : AptosCore.NibblePath) : pop (ofNibbles l) = some (ofNibbles l.dropLast, l.getLast?) := by
  rcases List.eq_nil_or_concat' l with rfl | ⟨l', a, rfl⟩
  · rfl
  · rw [List.dropLast_concat, List.getLast?_concat]
    rcases AptosCore.NibblePath.bytes_concat l' a with ⟨heven, hbytes⟩ | ⟨l'', b, rfl, heven, hbytes⟩
    · -- an odd path: the last byte holds the nibble alone and goes
      have hodd : ¬(l'.length + 1) % 2 = 0 := by omega
      simp only [pop, numNibbles_ofNibbles, List.length_append, List.length_singleton, hodd, if_false,
        bytes_ofNibbles, hbytes, List.getLast?_concat, Option.map_some, List.dropLast_concat, highNibble_single,
        Nat.add_one_ne_zero, Nat.add_sub_cancel]
      rfl
    · -- an even path: the last byte keeps the nibble before it
      have heven' : (l''.length + 1 + 1) % 2 = 0 := by omega
      simp only [pop, numNibbles_ofNibbles, List.length_append, List.length_singleton, heven', if_true,
        bytes_ofNibbles, hbytes, List.getLast?_concat, Option.map_some, List.dropLast_concat, lowNibble_pair,
        and_high_eq_single, highNibble_pair, Nat.add_one_ne_zero, if_false, Nat.add_sub_cancel]
      rw [← AptosCore.NibblePath.bytes_append_single heven b, ofNibbles, List.length_append, List.length_singleton]

/-- On a packing, `last` is the last nibble. -/
theorem last_ofNibbles (l : AptosCore.NibblePath) : last (ofNibbles l) = some l.getLast? := by
  rcases List.eq_nil_or_concat' l with rfl | ⟨l', a, rfl⟩
  · rfl
  · rw [List.getLast?_concat]
    rcases AptosCore.NibblePath.bytes_concat l' a with ⟨heven, hbytes⟩ | ⟨l'', b, rfl, heven, hbytes⟩
    · have hodd : ¬(l'.length + 1) % 2 = 0 := by omega
      simp only [last, numNibbles_ofNibbles, List.length_append, List.length_singleton, hodd, if_false,
        bytes_ofNibbles, hbytes, List.getLast?_concat, Option.map_some, highNibble_single]
    · have heven' : (l''.length + 1 + 1) % 2 = 0 := by omega
      simp only [last, numNibbles_ofNibbles, List.length_append, List.length_singleton, heven', if_true,
        bytes_ofNibbles, hbytes, List.getLast?_concat, Option.map_some, lowNibble_pair]

/-- On a packing, `truncate` keeps the first `len` nibbles. -/
theorem truncate_ofNibbles (l : AptosCore.NibblePath) (len : Nat) :
    truncate (ofNibbles l) len = if len ≤ l.length then some (ofNibbles (l.take len)) else none := by
  by_cases hlen : len ≤ l.length
  · rw [if_pos hlen]
    have htake : (l.take len).length = len := List.length_take_of_le hlen
    by_cases heven : len % 2 = 0
    · -- whole bytes
      have hbytes : (AptosCore.NibblePath.bytes l).take ((len + 1) / 2) = AptosCore.NibblePath.bytes (l.take len) := by
        conv_lhs => rw [← List.take_append_drop len l]
        rw [AptosCore.NibblePath.bytes_append _ _ (by rw [htake]; exact heven),
          List.take_left' (by rw [AptosCore.NibblePath.length_bytes, htake])]
      simp only [truncate, if_pos hlen, hbytes, heven, ne_eq, not_true_eq_false, if_false, ofNibbles, htake]
    · -- the last byte keeps its high half
      obtain ⟨t, a, ht, heven'⟩ := AptosCore.NibblePath.exists_append_of_odd (l := l.take len) (by omega)
      obtain ⟨x, tail, hx, hhigh⟩ := AptosCore.NibblePath.exists_bytes_cons a (l.drop len)
      have hl : l = t ++ a :: l.drop len := by
        calc l = l.take len ++ l.drop len := (List.take_append_drop len l).symm
          _ = t ++ a :: l.drop len := by rw [ht, List.append_assoc, List.singleton_append]
      have hlent : (AptosCore.NibblePath.bytes t).length + 1 = (len + 1) / 2 := by
        have := congrArg List.length ht
        rw [htake, List.length_append, List.length_singleton] at this
        rw [AptosCore.NibblePath.length_bytes]
        omega
      have hbytes : (AptosCore.NibblePath.bytes l).take ((len + 1) / 2) = AptosCore.NibblePath.bytes t ++ [x] := by
        rw [hl, AptosCore.NibblePath.bytes_append _ _ heven', hx, ← hlent, List.take_length_add_append]
        rfl
      have hlast : x &&& (0xf0 : UInt8) = UInt8.ofNat (a.val <<< 4) := by rw [and_high_eq_single, hhigh]
      simp only [truncate, if_pos hlen, hbytes, ne_eq, heven, not_false_eq_true, if_true, List.getLast?_concat, List.dropLast_concat, hlast, ht, ofNibbles,
        AptosCore.NibblePath.bytes_append_single heven']
      rw [← htake, ht]
  · rw [if_neg hlen, truncate, if_neg (show ¬len ≤ (ofNibbles l).numNibbles from hlen)]

/-- On a packing, `get_nibble` indexes the list, and panics past its end. -/
theorem getNibble_ofNibbles (l : AptosCore.NibblePath) (i : Nat) : getNibble (ofNibbles l) i = l[i]? := by
  by_cases hi : i < l.length
  · have hbyte : i / 2 < (AptosCore.NibblePath.bytes l).length := by
      rw [AptosCore.NibblePath.length_bytes]
      omega
    rw [getNibble, if_pos (show i < (ofNibbles l).numNibbles from hi), bytes_ofNibbles,
      List.getElem?_eq_getElem hbyte, Option.map_some, List.getElem?_eq_getElem hi,
      AptosCore.NibblePath.lowNibble_shiftRight hbyte,
      AptosCore.NibblePath.getNibble_bytes l i hi, List.get_eq_getElem]
  · rw [getNibble, if_neg (show ¬i < (ofNibbles l).numNibbles from hi), List.getElem?_eq_none (by omega)]

/-- `get_bit` reads bit `i` out of the byte where `get_nibble` reads nibble `i / 4`. -/
theorem testBit_byte (byte : UInt8) (i : Nat) :
    ((byte >>> UInt8.ofNat (7 - i % 8)) &&& 1 != 0) =
      (lowNibble (byte >>> (if i / 4 % 2 = 1 then (0 : UInt8) else 4))).val.testBit (3 - i % 4) := by
  have hbit : (UInt8.ofNat (7 - i % 8)).toNat % 8 = 7 - i % 8 := by
    rw [UInt8.toNat_ofNat']
    omega
  show _ = ((byte >>> _) &&& 0x0f).toNat.testBit _
  rw [and_one_bne_zero, UInt8.toNat_shiftRight, Nat.testBit_shiftRight, Nat.add_zero, hbit, UInt8.toNat_and,
    UInt8.toNat_shiftRight, Nat.testBit_and, Nat.testBit_shiftRight,
    show (0x0f : UInt8).toNat = 2 ^ 4 - 1 from rfl, Nat.testBit_two_pow_sub_one,
    decide_eq_true (by omega : 3 - i % 4 < 4), Bool.and_true]
  -- bits `4 i'`, ..., `4 i' + 3` of the path are the bits of nibble `i'`, the top one first
  by_cases h : i / 4 % 2 = 1
  · rw [if_pos h]
    congr 1
    show 7 - i % 8 = 0 % 8 + (3 - i % 4)
    omega
  · rw [if_neg h]
    congr 1
    show 7 - i % 8 = 4 % 8 + (3 - i % 4)
    omega

/-- Bit `i` of any path is bit `3 - i % 4` of nibble `i / 4`; both panic alike. -/
theorem getBit_eq_getNibble (p : NibblePath) (i : Nat) :
    getBit p i = (getNibble p (i / 4)).map fun nibble => nibble.val.testBit (3 - i % 4) := by
  by_cases hi : i < p.numNibbles * 4
  · simp only [getBit, getNibble, if_pos hi, if_pos (show i / 4 < p.numNibbles by omega),
      show i / 4 / 2 = i / 8 by omega, Option.map_map]
    cases p.bytes[i / 8]? with
    | none => rfl
    | some byte => rw [Option.map_some, Option.map_some, Function.comp_apply, testBit_byte]
  · simp only [getBit, getNibble, if_neg hi, if_neg (show ¬i / 4 < p.numNibbles by omega), Option.map_none]

/-- The bits of a list of nibbles, each nibble's top bit first: what `bits`
walks through. -/
def bitsOf (l : AptosCore.NibblePath) : List Bool :=
  l.flatMap fun nibble => [nibble.val.testBit 3, nibble.val.testBit 2, nibble.val.testBit 1, nibble.val.testBit 0]

@[simp] theorem length_bitsOf (l : AptosCore.NibblePath) : (bitsOf l).length = 4 * l.length := by
  induction l with
  | nil => rfl
  | cons nibble l ih =>
    rw [bitsOf, List.flatMap_cons, ← bitsOf, List.length_append, ih]
    simp only [List.length_cons, List.length_nil]
    omega

theorem getElem?_bitsOf : ∀ (l : AptosCore.NibblePath) (i : Nat),
    (bitsOf l)[i]? = l[i / 4]?.map fun nibble => nibble.val.testBit (3 - i % 4)
  | [], _ => rfl
  | nibble :: l, i => by
    rw [bitsOf, List.flatMap_cons, ← bitsOf]
    by_cases hi : i < 4
    · rw [List.getElem?_append_left (by simp only [List.length_cons, List.length_nil]; omega),
        show i / 4 = 0 by omega, List.getElem?_cons_zero, Option.map_some]
      match i, hi with
      | 0, _ | 1, _ | 2, _ | 3, _ => rfl
    · have hlen : ∀ b₃ b₂ b₁ b₀ : Bool, [b₃, b₂, b₁, b₀].length = 4 := fun _ _ _ _ => rfl
      rw [List.getElem?_append_right (by rw [hlen]; omega), hlen, getElem?_bitsOf l,
        show i / 4 = (i - 4) / 4 + 1 by omega, List.getElem?_cons_succ, show (i - 4) % 4 = i % 4 by omega]

/-- On a packing, `get_bit` indexes the bits of its nibbles. -/
theorem getBit_ofNibbles (l : AptosCore.NibblePath) (i : Nat) : getBit (ofNibbles l) i = (bitsOf l)[i]? := by
  rw [getBit_eq_getNibble, getNibble_ofNibbles, getElem?_bitsOf]

/-! ## The operations on a well-formed path -/

section WellFormed

variable {p : NibblePath} (hp : WellFormed p)
include hp

/-- `push` appends the nibble to the nibbles of the path. -/
theorem toNibbles_push (nibble : Nibble) :
    (push p nibble).map toNibbles =
      if (toNibbles p).length < rootNibbleHeight then some (toNibbles p ++ [nibble]) else none := by
  obtain ⟨l, -, rfl⟩ := (wellFormed_iff p).mp hp
  rw [push_ofNibbles, toNibbles_ofNibbles]
  split
  · rw [Option.map_some, toNibbles_ofNibbles]
  · rfl

/-- `pop` removes the last nibble and returns it. -/
theorem toNibbles_pop :
    (pop p).map (fun r => (toNibbles r.1, r.2)) = some ((toNibbles p).dropLast, (toNibbles p).getLast?) := by
  obtain ⟨l, -, rfl⟩ := (wellFormed_iff p).mp hp
  rw [pop_ofNibbles, Option.map_some, toNibbles_ofNibbles, toNibbles_ofNibbles]

/-- `truncate` keeps a prefix of the nibbles. -/
theorem toNibbles_truncate (len : Nat) :
    (truncate p len).map toNibbles =
      if len ≤ (toNibbles p).length then some ((toNibbles p).take len) else none := by
  obtain ⟨l, -, rfl⟩ := (wellFormed_iff p).mp hp
  rw [truncate_ofNibbles, toNibbles_ofNibbles]
  split
  · rw [Option.map_some, toNibbles_ofNibbles]
  · rfl

theorem last_eq : last p = some (toNibbles p).getLast? := by
  obtain ⟨l, -, rfl⟩ := (wellFormed_iff p).mp hp
  rw [last_ofNibbles, toNibbles_ofNibbles]

theorem getNibble_eq (i : Nat) : getNibble p i = (toNibbles p)[i]? := by
  obtain ⟨l, -, rfl⟩ := (wellFormed_iff p).mp hp
  rw [getNibble_ofNibbles, toNibbles_ofNibbles]

theorem getBit_eq (i : Nat) : getBit p i = (bitsOf (toNibbles p))[i]? := by
  obtain ⟨l, -, rfl⟩ := (wellFormed_iff p).mp hp
  rw [getBit_ofNibbles, toNibbles_ofNibbles]

end WellFormed

/-! ## Every path the operations build is well formed -/

theorem wellFormed_of_newEven {bytes : List UInt8} {p : NibblePath} (h : newEven bytes = some p) :
    WellFormed p := by
  rw [newEven] at h
  split at h
  · rename_i hlen
    cases h
    have hlen' : bytes.length ≤ 32 := hlen
    refine ⟨?_, ?_, ?_⟩
    · show bytes.length = (bytes.length * 2 + 1) / 2
      omega
    · show bytes.length * 2 ≤ 64
      omega
    · intro hodd
      exact absurd hodd (by show ¬bytes.length * 2 % 2 = 1; omega)
  · cases h

theorem wellFormed_of_newOdd {bytes : List UInt8} {p : NibblePath} (h : newOdd bytes = some p) :
    WellFormed p := by
  rw [newOdd] at h
  split at h
  · rename_i hlen
    split at h
    · cases h
    · rename_i last hlast
      split at h
      · rename_i hpad
        cases h
        have hlen' : bytes.length ≤ 32 := hlen
        -- the last byte exists, so the path has at least one nibble
        have hpos : 0 < bytes.length := by
          cases bytes with
          | nil => cases hlast
          | cons _ _ => simp
        refine ⟨?_, ?_, ?_⟩
        · show bytes.length = (bytes.length * 2 - 1 + 1) / 2
          omega
        · show bytes.length * 2 - 1 ≤ 64
          omega
        · intro _
          rw [List.getLastD_eq_getLast?, hlast]
          exact hpad
      · cases h
  · cases h

/-- `new_from_byte_array` builds its path with `new_odd` or `new_even`. -/
theorem wellFormed_of_newFromByteArray {bytes : List UInt8} {numNibbles : Nat} {p : NibblePath}
    (h : newFromByteArray bytes numNibbles = some p) : WellFormed p := by
  rw [newFromByteArray] at h
  split at h
  · split at h
    · dsimp only at h
      split at h
      · split at h
        · cases h
        · exact wellFormed_of_newOdd h
      · cases h
    · split at h
      · exact wellFormed_of_newEven h
      · cases h
  · cases h

/-- A result that is either a packing of at most 64 nibbles or a panic keeps the
invariant: the shape of `push`, `truncate` and `FromIterator` on packings. -/
theorem wellFormed_of_ite {c : Prop} [Decidable c] {l : AptosCore.NibblePath} {p : NibblePath}
    (hl : c → l.length ≤ rootNibbleHeight) (h : (if c then some (ofNibbles l) else none) = some p) :
    WellFormed p := by
  split at h
  · rename_i hc
    cases h
    exact wellFormed_ofNibbles (hl hc)
  · cases h

/-- Pushing nibbles onto a packing packs them all, until a push panics. -/
theorem foldlM_push_ofNibbles (l : AptosCore.NibblePath) :
    ∀ acc : AptosCore.NibblePath, acc.length ≤ rootNibbleHeight →
      l.foldlM push (ofNibbles acc) =
        if acc.length + l.length ≤ rootNibbleHeight then some (ofNibbles (acc ++ l)) else none := by
  induction l with
  | nil =>
    intro acc hacc
    rw [List.foldlM_nil, List.length_nil, Nat.add_zero, if_pos hacc, List.append_nil]
    rfl
  | cons a l ih =>
    intro acc hacc
    rw [List.foldlM_cons, push_ofNibbles]
    by_cases hlt : acc.length < rootNibbleHeight
    · rw [if_pos hlt]
      change l.foldlM push (ofNibbles (acc ++ [a])) = _
      rw [ih (acc ++ [a]) (by simp only [List.length_append, List.length_singleton]; omega)]
      by_cases hfit : acc.length + (a :: l).length ≤ rootNibbleHeight
      · rw [if_pos hfit, if_pos (by simp only [List.length_append, List.length_cons, List.length_nil] at hfit ⊢; omega),
          List.append_assoc, List.singleton_append]
      · rw [if_neg hfit, if_neg (by simp only [List.length_append, List.length_cons, List.length_nil] at hfit ⊢; omega)]
    · rw [if_neg hlt, if_neg (by simp only [List.length_cons]; omega)]
      rfl

/-- `FromIterator` packs at most 64 nibbles, and panics on more. -/
theorem fromIter_eq (l : AptosCore.NibblePath) :
    fromIter l = if l.length ≤ rootNibbleHeight then some (ofNibbles l) else none := by
  change l.foldlM push (ofNibbles []) = _
  rw [foldlM_push_ofNibbles l [] (Nat.zero_le _), List.nil_append, List.length_nil, Nat.zero_add]

theorem wellFormed_of_fromIter {nibbles : List Nibble} {p : NibblePath} (h : fromIter nibbles = some p) :
    WellFormed p := by
  rw [fromIter_eq] at h
  exact wellFormed_of_ite id h

theorem push_wellFormed {p p' : NibblePath} {nibble : Nibble} (hp : WellFormed p) (h : push p nibble = some p') :
    WellFormed p' := by
  obtain ⟨l, -, rfl⟩ := (wellFormed_iff p).mp hp
  rw [push_ofNibbles] at h
  exact wellFormed_of_ite (fun hlt => by simp only [List.length_append, List.length_singleton]; omega) h

theorem pop_wellFormed {p p' : NibblePath} {popped : Option Nibble} (hp : WellFormed p)
    (h : pop p = some (p', popped)) : WellFormed p' := by
  obtain ⟨l, hl, rfl⟩ := (wellFormed_iff p).mp hp
  rw [pop_ofNibbles] at h
  cases h
  exact wellFormed_ofNibbles (by rw [List.length_dropLast]; omega)

theorem truncate_wellFormed {p p' : NibblePath} {len : Nat} (hp : WellFormed p) (h : truncate p len = some p') :
    WellFormed p' := by
  obtain ⟨l, hl, rfl⟩ := (wellFormed_iff p).mp hp
  rw [truncate_ofNibbles] at h
  exact wellFormed_of_ite (fun _ => by rw [List.length_take]; omega) h

/-- The paths the operations of `NibblePath` build: those of its constructors and
of `FromIterator`, and what `push`, `pop` and `truncate` make of them. -/
inductive Produced : NibblePath → Prop
  | newEven {bytes : List UInt8} {p : NibblePath} : newEven bytes = some p → Produced p
  | newOdd {bytes : List UInt8} {p : NibblePath} : newOdd bytes = some p → Produced p
  | newFromByteArray {bytes : List UInt8} {numNibbles : Nat} {p : NibblePath} :
      newFromByteArray bytes numNibbles = some p → Produced p
  | fromIter {nibbles : List Nibble} {p : NibblePath} : fromIter nibbles = some p → Produced p
  | push {p p' : NibblePath} {nibble : Nibble} : Produced p → push p nibble = some p' → Produced p'
  | pop {p p' : NibblePath} {popped : Option Nibble} : Produced p → pop p = some (p', popped) → Produced p'
  | truncate {p p' : NibblePath} {len : Nat} : Produced p → truncate p len = some p' → Produced p'

/-- Every path the operations build keeps the invariant; the induction is on how
it was built. -/
theorem wellFormed_of_produced {p : NibblePath} (h : Produced p) : WellFormed p := by
  induction h with
  | newEven h => exact wellFormed_of_newEven h
  | newOdd h => exact wellFormed_of_newOdd h
  | newFromByteArray h => exact wellFormed_of_newFromByteArray h
  | fromIter h => exact wellFormed_of_fromIter h
  | push _ h ih => exact push_wellFormed ih h
  | pop _ h ih => exact pop_wellFormed ih h
  | truncate _ h ih => exact truncate_wellFormed ih h

/-! ## The derived order -/

/-- The derived order of `NibblePath`: `num_nibbles` first, then the bytes. -/
def Lt (p q : NibblePath) : Prop :=
  p.numNibbles < q.numNibbles ∨ p.numNibbles = q.numNibbles ∧ p.bytes < q.bytes

instance : LT NibblePath := ⟨Lt⟩

instance (p q : NibblePath) : Decidable (p < q) :=
  inferInstanceAs (Decidable (p.numNibbles < q.numNibbles ∨ p.numNibbles = q.numNibbles ∧ p.bytes < q.bytes))

example : (⟨3, [0x12, 0xa0]⟩ : NibblePath) < ⟨3, [0x12, 0xb0]⟩ := by decide

/-- On well-formed paths the derived order is the order of the number of nibbles
and then of the nibbles. -/
theorem lt_iff_toNibbles {p q : NibblePath} (hp : WellFormed p) (hq : WellFormed q) :
    p < q ↔ (toNibbles p).length < (toNibbles q).length ∨
      (toNibbles p).length = (toNibbles q).length ∧ toNibbles p < toNibbles q := by
  obtain ⟨l, -, rfl⟩ := (wellFormed_iff p).mp hp
  obtain ⟨m, -, rfl⟩ := (wellFormed_iff q).mp hq
  rw [toNibbles_ofNibbles, toNibbles_ofNibbles]
  exact or_congr_right (and_congr_right AptosCore.NibblePath.bytes_lt_bytes_iff)

end NibblePath

end Types

/-! ## The path of a key -/

/-- The bytes of a key, read as a nibble path, hold the key's nibbles. -/
theorem HashValue.getNibble_toVec (h : HashValue) {i : Nat} (hi : i < rootNibbleHeight) :
    NibblePath.getNibble h.toVec i = h.getNibble i := by
  have hi' : i < 64 := hi
  have hbyte : (h.toVec.getD (i / 2) 0).toNat = HashValue.byte h (i / 2) := by
    have := HashValue.byte_lt h (i / 2)
    rw [HashValue.toVec, List.getD_eq_getElem?_getD, List.getElem?_map, List.getElem?_range (by omega),
      Option.map_some, Option.getD_some, UInt8.toNat_ofNat']
    omega
  apply Fin.ext
  show (h.toVec.getD (i / 2) 0).toNat >>> (if i % 2 = 1 then 0 else 4) &&& 0xf =
    if i % 2 = 0 then HashValue.byte h (i / 2) >>> 4 else HashValue.byte h (i / 2) &&& 0x0F
  rw [hbyte]
  by_cases hodd : i % 2 = 1
  · rw [if_pos hodd, if_neg (by omega), Nat.shiftRight_zero]
  · -- the high half is below 16, so the mask keeps it
    have := HashValue.byte_lt h (i / 2)
    rw [if_neg hodd, if_pos (by omega), Nat.shiftRight_eq_div_pow, show (0xf : Nat) = 2 ^ 4 - 1 from rfl,
      Nat.and_two_pow_sub_one_eq_mod]
    omega

end AptosCore
