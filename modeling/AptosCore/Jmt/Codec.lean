import AptosCore.Jmt.NodeHash
import AptosCore.Lib.Bytes

/-!
# The storage codecs of the tree

`storage/jellyfish-merkle/src/node_type/mod.rs` writes the tree to the database
as bytes. A node key is its version in eight big-endian bytes, its number of
nibbles in one byte and the bytes of its nibble path (`NodeKey::encode`). A node
is a tag byte and either the internal node's two sixteen-bit bitmaps followed by
its children in nibble order, each a varint version, the 32 bytes of its hash
and, for an internal child, a varint leaf count (`InternalNode::serialize`), or
the BCS bytes of the leaf (`Node::encode`). The varint takes seven bits a byte
with a continuation flag for eight bytes and a raw ninth
(`serialize_u64_varint`).

Each reader takes back what its writer wrote: the varint from any trailing bytes
(`deserializeU64Varint_serializeU64Varint`), the node key
(`NodeKey.decode_encode`), the internal node built by `InternalNode::new_impl`
(`InternalNode.deserialize_serialize`) and the node (`Node.decode_encode`), the
leaf through a BCS codec that reads it back (`Bcs.RoundTrips`). Node keys sort as their
encodings (`NodeKey.lt_iff_encode_lt`).

Bytes are `UInt8`; versions and leaf counts are `u64` and `usize` in the source
and natural numbers below `2 ^ 64` here.
-/

namespace AptosCore

open Word Bytes

/-- `NodeDecodeError`. -/
inductive NodeDecodeError where
  | emptyInput
  | unknownTag (unknownTag : UInt8)
  | noChildren
  | extraLeaves (existing leaves : Nat)
  deriving DecidableEq, Repr

/-- The errors of the codecs: a read past the end of the input
(`io::ErrorKind::UnexpectedEof`), a `NodeDecodeError`, another error with its
message (`ensure!`, a failed parse), and a failed assertion. -/
inductive CodecError where
  | unexpectedEof
  | nodeDecode (e : NodeDecodeError)
  | invalid (msg : String)
  | panic (msg : String)
  deriving DecidableEq, Repr

/-! ## Reading from a cursor -/

/-- `Read::read_u8`: the next byte and the bytes after it. -/
def readU8 : List UInt8 → Except CodecError (UInt8 × List UInt8)
  | [] => .error .unexpectedEof
  | b :: bytes => .ok (b, bytes)

/-- `Read::read_exact` of `n` bytes. -/
def readExact (n : Nat) (bytes : List UInt8) : Except CodecError (List UInt8 × List UInt8) :=
  if n ≤ bytes.length then .ok (bytes.take n, bytes.drop n) else .error .unexpectedEof

/-- `ReadBytesExt::read_u16::<LittleEndian>`. -/
def readU16LE (bytes : List UInt8) : Except CodecError (Nat × List UInt8) := do
  let (buf, bytes) ← readExact 2 bytes
  .ok (ofLittleEndian buf, bytes)

/-- `ReadBytesExt::read_u64::<BigEndian>`. -/
def readU64BE (bytes : List UInt8) : Except CodecError (Nat × List UInt8) := do
  let (buf, bytes) ← readExact 8 bytes
  .ok (ofBigEndian buf, bytes)

theorem readU8_cons (b : UInt8) (bytes : List UInt8) : readU8 (b :: bytes) = .ok (b, bytes) := rfl

theorem readExact_append {n : Nat} {buf : List UInt8} (hn : buf.length = n) (bytes : List UInt8) :
    readExact n (buf ++ bytes) = .ok (buf, bytes) := by
  rw [readExact, if_pos (by simp [hn]), List.take_left' hn, List.drop_left' hn]

theorem readU16LE_toLittleEndian {x : Nat} (hx : x < 2 ^ 16) (bytes : List UInt8) :
    readU16LE (toLittleEndian 2 x ++ bytes) = .ok (x, bytes) := by
  rw [readU16LE, readExact_append (length_toLittleEndian 2 x)]
  show Except.ok (ofLittleEndian (toLittleEndian 2 x), bytes) = _
  rw [ofLittleEndian_toLittleEndian, Nat.mod_eq_of_lt (by simpa using hx)]

theorem readU64BE_toBigEndian {x : Nat} (hx : x < 2 ^ 64) (bytes : List UInt8) :
    readU64BE (toBigEndian 8 x ++ bytes) = .ok (x, bytes) := by
  rw [readU64BE, readExact_append (length_toBigEndian 8 x)]
  show Except.ok (ofBigEndian (toBigEndian 8 x), bytes) = _
  rw [ofBigEndian_toBigEndian, Nat.mod_eq_of_lt (by simpa using hx)]

/-! ## Hash values -/

namespace HashValue

/-- `HashValue::to_vec`: its 32 bytes, the most significant first. -/
def toVec (h : HashValue) : List UInt8 := (List.range 32).map fun pos => UInt8.ofNat (byte h pos)

/-- `HashValue::from_slice`, which takes exactly 32 bytes. -/
def fromSlice (bytes : List UInt8) : Except CodecError HashValue :=
  if h : bytes.length = 32 then
    .ok ⟨ofBigEndian bytes, by simpa [h] using ofBigEndian_lt bytes⟩
  else .error (.invalid "unable to parse HashValue")

theorem toVec_eq (h : HashValue) : h.toVec = toBigEndian 32 h.val := by
  rw [toVec, toBigEndian_eq_map]
  apply List.map_congr_left
  intro pos hpos
  rw [List.mem_range] at hpos
  apply UInt8.toNat_inj.mp
  rw [UInt8.toNat_ofNat', UInt8.toNat_ofNat', byte, Nat.shiftRight_eq_div_pow, Nat.pow_mul,
    show (2 : Nat) ^ 8 = 256 from rfl, Nat.mod_mod_of_dvd _ (by decide : 256 ∣ 256),
    show 32 - 1 - pos = 31 - pos by omega]

@[simp] theorem length_toVec (h : HashValue) : h.toVec.length = 32 := by simp [toVec]

theorem fromSlice_toVec (h : HashValue) : fromSlice h.toVec = .ok h := by
  rw [fromSlice, dif_pos (length_toVec h)]
  refine congrArg Except.ok (Fin.ext ?_)
  show ofBigEndian h.toVec = h.val
  rw [toVec_eq, ofBigEndian_toBigEndian, Nat.mod_eq_of_lt (show h.val < 256 ^ 32 from h.isLt)]

end HashValue

/-! ## Varints -/

/-- The rounds of `serialize_u64_varint` left: seven bits a byte with the flag
`0x80` when more follow, and after eight such bytes the rest raw. -/
def serializeU64VarintLoop : Nat → Nat → Except CodecError (List UInt8)
  | 0, num =>
    -- the last byte is encoded raw
    if num = 0 then .error (.panic "assertion failed: num != 0")
    else if num ≤ 0xff then .ok [UInt8.ofNat num]
    else .error (.panic "assertion failed: num <= 0xff")
  | rounds + 1, num =>
    let lowBits := UInt8.ofNat num &&& 0x7f
    let num := num >>> 7
    let more : UInt8 := if num = 0 then 0 else 0x80
    if more = 0 then .ok [lowBits ||| more]
    else (fun bytes => (lowBits ||| more) :: bytes) <$> serializeU64VarintLoop rounds num

/-- `serialize_u64_varint`: the bytes it pushes. -/
def serializeU64Varint (num : Nat) : Except CodecError (List UInt8) := serializeU64VarintLoop 8 num

/-- The rounds of `deserialize_u64_varint` left, from round `i` with the value read so far. -/
def deserializeU64VarintLoop : Nat → Nat → Nat → List UInt8 → Except CodecError (Nat × List UInt8)
  | 0, _, num, reader => do
    -- the last byte is encoded as is
    let (byte, reader) ← readU8 reader
    .ok (num ||| byte.toNat <<< 56, reader)
  | rounds + 1, i, num, reader => do
    let (byte, reader) ← readU8 reader
    let num := num ||| (byte &&& 0x7f).toNat <<< (i * 7)
    if byte &&& 0x80 = 0 then .ok (num, reader)
    else deserializeU64VarintLoop rounds (i + 1) num reader

/-- `deserialize_u64_varint`: the value and the bytes after it. -/
def deserializeU64Varint (reader : List UInt8) : Except CodecError (Nat × List UInt8) :=
  deserializeU64VarintLoop 8 0 0 reader

/-- Setting bits above those of `num`. -/
theorem or_shiftLeft_eq_add {num s : Nat} (hnum : num < 2 ^ s) (c : Nat) :
    num ||| c <<< s = num + c * 2 ^ s := by
  rw [Nat.lor_comm, Nat.shiftLeft_eq, Nat.mul_comm c, ← Nat.two_pow_add_eq_or_of_lt hnum]
  omega

/-- From round `i` of eight with the bits below `i * 7` read, the loops write and
read back the rest `y` of the value. The induction is on the rounds left. -/
theorem varintLoop_roundTrip : ∀ (rounds i num y : Nat), i + rounds = 8 → num < 2 ^ (i * 7) →
    y < 2 ^ (7 * rounds + 8) → (rounds = 0 → y ≠ 0) →
    ∃ bytes, serializeU64VarintLoop rounds y = .ok bytes ∧ bytes.length ≤ rounds + 1 ∧
      ∀ rest, deserializeU64VarintLoop rounds i num (bytes ++ rest) = .ok (num + y * 2 ^ (i * 7), rest)
  | 0, i, num, y, hi, hnum, hy, hy0 => by
    -- the raw ninth byte: what is left is one byte at bit 56
    have hi8 : i = 8 := by omega
    subst hi8
    have hy' : y ≤ 0xff := by simp at hy; omega
    refine ⟨[UInt8.ofNat y], ?_, by simp, fun rest => ?_⟩
    · rw [serializeU64VarintLoop, if_neg (hy0 rfl), if_pos hy']
    · simp only [deserializeU64VarintLoop, List.singleton_append, readU8_cons, bind, Except.bind]
      rw [UInt8.toNat_ofNat', Nat.mod_eq_of_lt (by omega), or_shiftLeft_eq_add (show num < 2 ^ 56 from hnum)]
  | rounds + 1, i, num, y, hi, hnum, hy, _ => by
    have hlow : (UInt8.ofNat y &&& 0x7f).toNat = y % 128 := toNat_and_low y
    have hshift : y >>> 7 = y / 128 := Nat.shiftRight_eq_div_pow y 7
    have hpow : 2 ^ ((i + 1) * 7) = 2 ^ (i * 7) * 128 := by rw [Nat.succ_mul, Nat.pow_add]
    by_cases hlast : y / 128 = 0
    · -- a single byte without the flag
      refine ⟨[UInt8.ofNat y &&& 0x7f ||| 0], ?_, by simp, fun rest => ?_⟩
      · simp only [serializeU64VarintLoop, hshift, hlast, if_true]
      · have hbyte : (UInt8.ofNat y &&& 0x7f ||| 0) = UInt8.ofNat y &&& 0x7f := UInt8.or_zero
        have hflag : (UInt8.ofNat y &&& 0x7f) &&& 0x80 = 0 := (and_high_eq_zero_iff _).mpr (by omega)
        simp only [deserializeU64VarintLoop, List.singleton_append, readU8_cons, bind, Except.bind, hbyte,
          hflag, if_true]
        rw [UInt8.and_assoc, show (0x7f : UInt8) &&& 0x7f = 0x7f from rfl, hlow,
          or_shiftLeft_eq_add hnum, Nat.mod_eq_of_lt (by omega)]
    · -- seven bits with the flag, then the rest one round on
      have hy' : y / 128 < 2 ^ (7 * rounds + 8) := by
        rw [Nat.div_lt_iff_lt_mul (by omega)]
        calc y < 2 ^ (7 * (rounds + 1) + 8) := hy
          _ = 2 ^ (7 * rounds + 8) * 128 := by rw [show 7 * (rounds + 1) + 8 = 7 * rounds + 8 + 7 by omega,
              Nat.pow_add]
      have hnum' : num + y % 128 * 2 ^ (i * 7) < 2 ^ ((i + 1) * 7) := by
        have hmul : y % 128 * 2 ^ (i * 7) + 2 ^ (i * 7) ≤ 128 * 2 ^ (i * 7) := by
          rw [← Nat.succ_mul]
          exact Nat.mul_le_mul_right _ (by omega)
        omega
      obtain ⟨bytes, hser, hlen, hdeser⟩ :=
        varintLoop_roundTrip rounds (i + 1) (num + y % 128 * 2 ^ (i * 7)) (y / 128) (by omega) hnum' hy'
          (fun _ => hlast)
      have hbyte : ((UInt8.ofNat y &&& 0x7f ||| 0x80) &&& 0x7f).toNat = y % 128 := by
        rw [UInt8.toNat_and, toNat_or_high (by omega), hlow, show (0x7f : UInt8).toNat = 2 ^ 7 - 1 from rfl,
          Nat.and_two_pow_sub_one_eq_mod]
        omega
      have hflag : ¬((UInt8.ofNat y &&& 0x7f ||| 0x80) &&& 0x80 = 0) := by
        rw [and_high_eq_zero_iff, toNat_or_high (by omega)]
        omega
      refine ⟨(UInt8.ofNat y &&& 0x7f ||| 0x80) :: bytes, ?_, by simp; omega, fun rest => ?_⟩
      · simp only [serializeU64VarintLoop, hshift, hlast, if_false, hser]
        rfl
      · simp only [deserializeU64VarintLoop, List.cons_append, readU8_cons, bind, Except.bind, hflag,
          if_false]
        rw [hbyte, or_shiftLeft_eq_add hnum, hdeser rest]
        congr 2
        -- the value is its low seven bits and the rest above them
        have hy := Nat.div_add_mod y 128
        rw [hpow]
        calc num + y % 128 * 2 ^ (i * 7) + y / 128 * (2 ^ (i * 7) * 128)
            = num + (128 * (y / 128) + y % 128) * 2 ^ (i * 7) := by ring
          _ = num + y * 2 ^ (i * 7) := by rw [hy]

/-- `deserialize_u64_varint` reads back what `serialize_u64_varint` wrote for
every `u64`, from any bytes that follow, consuming at most nine bytes. -/
theorem deserializeU64Varint_serializeU64Varint {x : Nat} (hx : x < 2 ^ 64) :
    ∃ bytes, serializeU64Varint x = .ok bytes ∧ bytes.length ≤ 9 ∧
      ∀ rest, deserializeU64Varint (bytes ++ rest) = .ok (x, rest) := by
  obtain ⟨bytes, hser, hlen, hdeser⟩ := varintLoop_roundTrip 8 0 0 x rfl (by decide) hx (by omega)
  refine ⟨bytes, hser, hlen, fun rest => ?_⟩
  rw [deserializeU64Varint, hdeser rest]
  simp

/-! ## Node keys -/

namespace NibblePath

/-- `NibblePath::bytes`: two nibbles a byte, the first in the high half, and an
odd last nibble over a zero low half, as `push` lays them out. -/
def bytes : NibblePath → List UInt8
  | [] => []
  | [a] => [UInt8.ofNat (a.val <<< 4)]
  | a :: b :: rest => UInt8.ofNat (a.val <<< 4 ||| b.val) :: bytes rest

/-- `NibblePath::get_nibble` of the path stored as `bytes`. -/
def getNibble (bytes : List UInt8) (i : Nat) : Nibble :=
  ⟨((bytes.getD (i / 2) 0).toNat >>> (if i % 2 = 1 then 0 else 4)) &&& 0xf,
    lt_of_le_of_lt Nat.and_le_right (by decide)⟩

/-- The path of `num_nibbles` nibbles stored as `bytes`, read nibble by nibble. -/
def ofBytes (numNibbles : Nat) (bytes : List UInt8) : NibblePath :=
  (List.range numNibbles).map (getNibble bytes)

/-- A byte of two nibbles. -/
theorem toNat_pair (a b : Nibble) : (UInt8.ofNat (a.val <<< 4 ||| b.val)).toNat = 16 * a.val + b.val := by
  have ha := a.isLt
  have hb := b.isLt
  rw [UInt8.toNat_ofNat', Nat.shiftLeft_eq, Nat.mul_comm, ← Nat.two_pow_add_eq_or_of_lt hb]
  show (2 ^ 4 * a.val + b.val) % 256 = 16 * a.val + b.val
  omega

theorem getNibble_pair_zero (a b : Nibble) (bytes : List UInt8) :
    getNibble (UInt8.ofNat (a.val <<< 4 ||| b.val) :: bytes) 0 = a := by
  apply Fin.ext
  simp only [getNibble, Nat.zero_div, List.getD_cons_zero, Nat.zero_mod, toNat_pair]
  rw [Nat.shiftRight_eq_div_pow, show (0xf : Nat) = 2 ^ 4 - 1 from rfl, Nat.and_two_pow_sub_one_eq_mod]
  have := b.isLt
  have := a.isLt
  show (16 * a.val + b.val) / 16 % 16 = a.val
  omega

theorem getNibble_pair_one (a b : Nibble) (bytes : List UInt8) :
    getNibble (UInt8.ofNat (a.val <<< 4 ||| b.val) :: bytes) 1 = b := by
  apply Fin.ext
  show (UInt8.ofNat (a.val <<< 4 ||| b.val)).toNat >>> 0 &&& 0xf = b.val
  rw [toNat_pair, Nat.shiftRight_zero, show (0xf : Nat) = 2 ^ 4 - 1 from rfl, Nat.and_two_pow_sub_one_eq_mod]
  have := b.isLt
  omega

theorem getNibble_cons_add_two (c : UInt8) (bytes : List UInt8) (i : Nat) :
    getNibble (c :: bytes) (i + 2) = getNibble bytes i := by
  simp only [getNibble, show (i + 2) / 2 = i / 2 + 1 by omega, List.getD_cons_succ,
    show (i + 2) % 2 = i % 2 by omega]

theorem getNibble_bytes : ∀ (p : NibblePath) (i : Nat) (hi : i < p.length), getNibble (bytes p) i = p.get ⟨i, hi⟩
  | [], _, hi => absurd hi (Nat.not_lt_zero _)
  | [a], i, hi => by
    obtain rfl : i = 0 := by simpa using hi
    apply Fin.ext
    have := a.isLt
    simp only [bytes, getNibble, Nat.zero_div, List.getD_cons_zero, Nat.zero_mod, UInt8.toNat_ofNat',
      Nat.shiftLeft_eq, Nat.shiftRight_eq_div_pow, show (0xf : Nat) = 2 ^ 4 - 1 from rfl,
      Nat.and_two_pow_sub_one_eq_mod, List.get_eq_getElem, List.getElem_cons_zero]
    show a.val * 2 ^ 4 % 2 ^ 8 / 2 ^ 4 % 2 ^ 4 = a.val
    omega
  | a :: b :: rest, i, hi => by
    match i, hi with
    | 0, _ => exact getNibble_pair_zero a b _
    | 1, _ => exact getNibble_pair_one a b _
    | i + 2, hi => rw [bytes, getNibble_cons_add_two, getNibble_bytes rest i (by simpa using hi)]; rfl

/-- The bytes of a path give the path back. -/
theorem ofBytes_bytes (p : NibblePath) : ofBytes p.length (bytes p) = p := by
  apply List.ext_get (by simp [ofBytes])
  intro i h₁ h₂
  simp only [ofBytes, List.get_eq_getElem, List.getElem_map, List.getElem_range]
  rw [getNibble_bytes p i h₂]
  rfl

theorem length_bytes : ∀ p : NibblePath, (bytes p).length = (p.length + 1) / 2
  | [] => rfl
  | [_] => by simp [bytes]
  | _ :: _ :: rest => by
    rw [bytes, List.length_cons, length_bytes rest, List.length_cons, List.length_cons]
    omega

/-- A path of an odd number of nibbles ends in a byte whose low half is zero. -/
theorem getLast_bytes_of_odd : ∀ p : NibblePath, p.length % 2 = 1 →
    ∃ last, (bytes p).getLast? = some last ∧ last &&& 0x0f = 0
  | [], h => absurd h (by decide)
  | [a], _ => by
    refine ⟨UInt8.ofNat (a.val <<< 4), by rw [bytes]; rfl, ?_⟩
    apply UInt8.toNat_inj.mp
    have := a.isLt
    rw [UInt8.toNat_and, UInt8.toNat_ofNat', show (0x0f : UInt8).toNat = 2 ^ 4 - 1 from rfl,
      Nat.and_two_pow_sub_one_eq_mod, Nat.shiftLeft_eq]
    show a.val * 2 ^ 4 % 2 ^ 8 % 2 ^ 4 = 0
    omega
  | a :: b :: rest, h => by
    obtain ⟨last, hlast, hzero⟩ := getLast_bytes_of_odd rest (by simp only [List.length_cons] at h; omega)
    refine ⟨last, ?_, hzero⟩
    rw [bytes, List.getLast?_cons, hlast]
    rfl

end NibblePath

namespace NodeKey

/-- `NodeKey::encode`: the version in eight big-endian bytes, the number of
nibbles in one byte, and the bytes of the path. Writing to a vector cannot fail. -/
def encode (k : NodeKey) : List UInt8 :=
  toBigEndian 8 k.version ++ UInt8.ofNat k.nibblePath.length :: NibblePath.bytes k.nibblePath

/-- `NodeKey::decode`. -/
def decode (val : List UInt8) : Except CodecError NodeKey := do
  let (version, reader) ← readU64BE val
  let (numNibbles, reader) ← readU8 reader
  let numNibbles := numNibbles.toNat
  if numNibbles > rootNibbleHeight then
    throw (.invalid ("Invalid number of nibbles: " ++ toString numNibbles))
  let nibbleBytes := reader
  if (numNibbles + 1) / 2 ≠ nibbleBytes.length then
    throw (.invalid ("encoded num_nibbles " ++ toString numNibbles ++ " mismatches nibble path bytes"))
  if numNibbles % 2 = 0 then .ok ⟨version, NibblePath.ofBytes numNibbles nibbleBytes⟩
  else
    match nibbleBytes.getLast? with
    | none => .error (.panic "called Option::unwrap() on a None value")
    | some last =>
      let padding := last &&& 0x0f
      if padding ≠ 0 then throw (.invalid ("Padding nibble expected to be 0, got: " ++ toString padding))
      else .ok ⟨version, NibblePath.ofBytes numNibbles nibbleBytes⟩

/-- `NodeKey::decode` takes back the encoding of a key of at most 64 nibbles with a
`u64` version. -/
theorem decode_encode {k : NodeKey} (hversion : k.version < 2 ^ 64) (hlen : k.nibblePath.length ≤ 64) :
    decode k.encode = .ok k := by
  have hlen' : (UInt8.ofNat k.nibblePath.length).toNat = k.nibblePath.length := by
    rw [UInt8.toNat_ofNat', Nat.mod_eq_of_lt (by omega)]
  simp only [decode, encode, readU64BE_toBigEndian hversion, readU8_cons, bind, Except.bind, hlen',
    NibblePath.length_bytes, NibblePath.ofBytes_bytes]
  rw [if_neg (show ¬k.nibblePath.length > rootNibbleHeight from Nat.not_lt.mpr hlen)]
  simp only [ne_eq, not_true_eq_false, if_false]
  by_cases heven : k.nibblePath.length % 2 = 0
  · rw [if_pos heven]
  · obtain ⟨last, hlast, hzero⟩ := NibblePath.getLast_bytes_of_odd k.nibblePath (by omega)
    rw [if_neg heven, hlast]
    simp only [hzero, not_true_eq_false, if_false]

/-- The derived order of `NodeKey`: the version, then the nibble path in its
derived order, the number of nibbles and then the bytes. -/
def Lt (k₁ k₂ : NodeKey) : Prop :=
  k₁.version < k₂.version ∨ k₁.version = k₂.version ∧
    (k₁.nibblePath.length < k₂.nibblePath.length ∨ k₁.nibblePath.length = k₂.nibblePath.length ∧
      NibblePath.bytes k₁.nibblePath < NibblePath.bytes k₂.nibblePath)

instance : LT NodeKey := ⟨Lt⟩

instance (k₁ k₂ : NodeKey) : Decidable (k₁ < k₂) := by
  show Decidable (Lt k₁ k₂)
  unfold Lt
  infer_instance

example : (⟨1, [3]⟩ : NodeKey) < ⟨1, [0, 2]⟩ := by decide

/-- Node keys with a `u64` version and at most 64 nibbles sort as their encodings,
which is the order of the database's keys. -/
theorem lt_iff_encode_lt {k₁ k₂ : NodeKey} (hv₁ : k₁.version < 2 ^ 64) (hv₂ : k₂.version < 2 ^ 64)
    (hl₁ : k₁.nibblePath.length ≤ 64) (hl₂ : k₂.nibblePath.length ≤ 64) :
    k₁ < k₂ ↔ k₁.encode < k₂.encode := by
  have h64 : (2 : Nat) ^ 64 = 256 ^ 8 := by norm_num
  -- the number of nibbles is one byte
  have hbyte : ∀ n : Nat, n ≤ 64 → (UInt8.ofNat n).toNat = n := fun n hn => by
    rw [UInt8.toNat_ofNat', Nat.mod_eq_of_lt (by omega)]
  have hlt : UInt8.ofNat k₁.nibblePath.length < UInt8.ofNat k₂.nibblePath.length ↔
      k₁.nibblePath.length < k₂.nibblePath.length := by
    rw [UInt8.lt_iff_toNat_lt, hbyte _ hl₁, hbyte _ hl₂]
  have heq : UInt8.ofNat k₁.nibblePath.length = UInt8.ofNat k₂.nibblePath.length ↔
      k₁.nibblePath.length = k₂.nibblePath.length := by
    rw [← UInt8.toNat_inj, hbyte _ hl₁, hbyte _ hl₂]
  rw [encode, encode, append_lt_append_iff (by simp), toBigEndian_lt_toBigEndian_iff 8 (h64 ▸ hv₁) (h64 ▸ hv₂),
    toBigEndian_inj (h64 ▸ hv₁) (h64 ▸ hv₂), List.cons_lt_cons_iff, hlt, heq]
  exact Iff.rfl

end NodeKey

/-! ## Internal nodes -/

/-- `Nibble::from`, which asserts its argument is below 16. -/
def nibbleOf (n : Nat) : Except CodecError Nibble :=
  if h : n < 16 then .ok ⟨n, h⟩ else .error (.panic ("Nibble out of range: " ++ toString n))

namespace Child

/-- The bytes of a child in `InternalNode::serialize`: its version, its hash
and, for an internal child, its leaf count. -/
def serialize (child : Child HashValue) : Except CodecError (List UInt8) := do
  let versionBytes ← serializeU64Varint child.version
  let leafCountBytes ← match child.nodeType with
    | .leaf => .ok []
    | .internal leafCount => serializeU64Varint leafCount
  .ok (versionBytes ++ HashValue.toVec child.hash ++ leafCountBytes)

/-- A child in `InternalNode::deserialize`, a leaf when the leaf bitmap says so;
`childrenLeft` is for the message. -/
def deserialize (isLeaf : Bool) (childrenLeft : Nat) (reader : List UInt8) :
    Except CodecError (Child HashValue × List UInt8) := do
  let (version, reader) ← deserializeU64Varint reader
  let remaining := reader.length
  if remaining < 32 then
    throw (.invalid ("not enough bytes left, children: " ++ toString childrenLeft ++ ", bytes: " ++
      toString remaining))
  let hash ← HashValue.fromSlice (reader.take 32)
  let reader := reader.drop 32
  let (nodeType, reader) ←
    if isLeaf then pure (NodeType.leaf, reader)
    else do
      let (leafCount, reader) ← deserializeU64Varint reader
      pure (NodeType.internal leafCount, reader)
  pure (⟨hash, version, nodeType⟩, reader)

/-- A child whose version and leaf count are `u64`s is read back from its bytes. -/
theorem deserialize_serialize {c : Child HashValue} (hv : c.version < 2 ^ 64) (hl : c.leafCount < 2 ^ 64)
    (childrenLeft : Nat) :
    ∃ bytes, c.serialize = .ok bytes ∧
      ∀ rest, deserialize c.isLeaf childrenLeft (bytes ++ rest) = .ok (c, rest) := by
  obtain ⟨hash, version, nodeType⟩ := c
  obtain ⟨vb, hvser, -, hvdeser⟩ := deserializeU64Varint_serializeU64Varint hv
  -- the hash follows the version
  have hhash : ∀ rest, deserialize (isLeaf ⟨hash, version, nodeType⟩) childrenLeft
      (vb ++ (HashValue.toVec hash ++ rest)) =
      (do
        let (nodeType, reader) ←
          if isLeaf ⟨hash, version, nodeType⟩ then pure (NodeType.leaf, rest)
          else do
            let (leafCount, reader) ← deserializeU64Varint rest
            pure (NodeType.internal leafCount, reader)
        pure (⟨hash, version, nodeType⟩, reader)) := by
    intro rest
    have hlen : ¬(HashValue.toVec hash ++ rest).length < 32 := by simp
    simp only [deserialize, hvdeser, bind, Except.bind, hlen, if_false,
      List.take_left' (HashValue.length_toVec hash), List.drop_left' (HashValue.length_toVec hash),
      HashValue.fromSlice_toVec]
  cases nodeType with
  | leaf =>
    refine ⟨vb ++ HashValue.toVec hash ++ [], by simp [serialize, hvser, bind, Except.bind], fun rest => ?_⟩
    rw [List.append_nil, List.append_assoc, hhash]
    rfl
  | internal leafCount =>
    obtain ⟨lb, hlser, -, hldeser⟩ := deserializeU64Varint_serializeU64Varint (show leafCount < 2 ^ 64 from hl)
    refine ⟨vb ++ HashValue.toVec hash ++ lb, by simp [serialize, hvser, hlser, bind, Except.bind],
      fun rest => ?_⟩
    rw [List.append_assoc, List.append_assoc, hhash]
    simp only [isLeaf, hldeser, bind, Except.bind]
    rfl

end Child

namespace InternalNode

/-- `self.children[&Nibble::from(next_child)]`; indexing the map panics on a
missing key. -/
def childAt (node : InternalNode HashValue) (nextChild : Nat) : Except CodecError (Child HashValue) := do
  let n ← nibbleOf nextChild
  match node.children n with
  | some child => .ok child
  | none => .error (.panic "no entry found for key")

/-- The loop of `InternalNode::serialize` over the children left in the
existence bitmap, the lowest first. -/
def serializeLoop (node : InternalNode HashValue) : Nat → Nat → Except CodecError (List UInt8)
  | 0, _ => .ok []
  | rounds + 1, existenceBitmap => do
    let nextChild := trailingZeros 16 existenceBitmap
    let child ← node.childAt nextChild
    let bytes ← child.serialize
    let rest ← node.serializeLoop rounds (existenceBitmap &&& complement 16 (1 <<< nextChild))
    .ok (bytes ++ rest)

/-- `InternalNode::serialize`: the two bitmaps, little-endian, then the children. -/
def serialize (node : InternalNode HashValue) : Except CodecError (List UInt8) := do
  let (existenceBitmap, leafBitmap) := node.generateBitmaps
  let children ← node.serializeLoop (countOnes 16 existenceBitmap) existenceBitmap
  .ok (toLittleEndian 2 existenceBitmap ++ toLittleEndian 2 leafBitmap ++ children)

/-- The loop of `InternalNode::deserialize`: the existence bitmap of the
children left, the children read and the rest of the input. -/
def deserializeLoop (leafBitmap : Nat) :
    Nat → Nat → Children HashValue → List UInt8 →
      Except CodecError (Nat × Children HashValue × List UInt8)
  | 0, existenceBitmap, children, reader => .ok (existenceBitmap, children, reader)
  | rounds + 1, existenceBitmap, children, reader => do
    let nextChild := trailingZeros 16 existenceBitmap
    let childBit := 1 <<< nextChild
    let (child, reader) ←
      Child.deserialize (leafBitmap &&& childBit != 0) (countOnes 16 existenceBitmap) reader
    let n ← nibbleOf nextChild
    deserializeLoop leafBitmap rounds (existenceBitmap &&& complement 16 childBit)
      (Function.update children n (some child)) reader

/-- `InternalNode::deserialize`; the bytes after the children are left unread. -/
def deserialize (data : List UInt8) : Except CodecError (InternalNode HashValue) := do
  let (existenceBitmap, reader) ← readU16LE data
  let (leafBitmap, reader) ← readU16LE reader
  if existenceBitmap = 0 then throw (.nodeDecode .noChildren)
  if existenceBitmap &&& leafBitmap ≠ leafBitmap then
    throw (.nodeDecode (.extraLeaves existenceBitmap leafBitmap))
  let (existenceBitmap, children, _) ←
    deserializeLoop leafBitmap (countOnes 16 existenceBitmap) existenceBitmap (fun _ => none) reader
  if existenceBitmap ≠ 0 then throw (.panic "assertion failed: existence_bitmap == 0")
  match newImpl children with
  | .ok node => .ok node
  | .error msg => .error (.invalid msg)

/-- The versions and leaf counts of the children fit their `u64` fields. -/
def ChildrenFit (node : InternalNode HashValue) : Prop :=
  ∀ n c, node.children n = some c → c.version < 2 ^ 64 ∧ c.leafCount < 2 ^ 64

theorem generateBitmaps_fst_lt (node : InternalNode HashValue) : node.generateBitmaps.1 < 2 ^ 16 :=
  Nat.lt_pow_two_of_testBit _ fun _ hi => (testBit_generateBitmaps_of_le node hi).1

theorem generateBitmaps_snd_lt (node : InternalNode HashValue) : node.generateBitmaps.2 < 2 ^ 16 :=
  Nat.lt_pow_two_of_testBit _ fun _ hi => (testBit_generateBitmaps_of_le node hi).2

/-- The loops over the children left in `e`, given as its set bits: `serialize`
writes them and `deserialize` reads them back over the children read so far.
The induction is on the set bits, the lowest first. -/
theorem deserializeLoop_serializeLoop {node : InternalNode HashValue} (hfit : node.ChildrenFit) :
    ∀ (bits : List Nat) (e : Nat) (acc : Children HashValue),
      (List.range 16).filter e.testBit = bits → e < 2 ^ 16 →
      (∀ n : Nibble, e.testBit n.val = true → (node.children n).isSome) →
      ∃ bytes, node.serializeLoop bits.length e = .ok bytes ∧
        ∀ rest, deserializeLoop node.generateBitmaps.2 bits.length e acc (bytes ++ rest) =
          .ok (0, fun n => if e.testBit n.val then node.children n else acc n, rest)
  | [], e, acc, hbits, he, _ => by
    -- no bit is left
    have hzero : e = 0 := by
      apply Nat.eq_of_testBit_eq
      intro i
      rw [Nat.zero_testBit]
      by_cases hi : i < 16
      · have hnot := List.filter_eq_nil_iff.mp hbits i (List.mem_range.mpr hi)
        simpa using hnot
      · exact Nat.testBit_lt_two_pow (lt_of_lt_of_le he (Nat.pow_le_pow_right (by decide) (by omega)))
    subst hzero
    exact ⟨[], rfl, fun rest => by simp [deserializeLoop]⟩
  | t :: bits, e, acc, hbits, he, hsome => by
    have he0 : e ≠ 0 := by
      rintro rfl
      rw [List.filter_eq_nil_iff.mpr fun i _ => by simp] at hbits
      cases hbits
    rw [filter_testBit_eq_cons he he0, List.cons.injEq] at hbits
    obtain ⟨rfl, hbits⟩ := hbits
    obtain ⟨ht, hbit⟩ := testBit_trailingZeros he he0
    obtain ⟨c, hc⟩ := Option.isSome_iff_exists.mp (hsome ⟨_, ht⟩ hbit)
    obtain ⟨hv, hl⟩ := hfit _ c hc
    obtain ⟨cb, hcser, hcdeser⟩ := Child.deserialize_serialize hv hl (countOnes 16 e)
    obtain ⟨rb, hrser, hrdeser⟩ := deserializeLoop_serializeLoop hfit bits
      (e &&& complement 16 (1 <<< trailingZeros 16 e)) (Function.update acc ⟨_, ht⟩ (some c)) hbits
      (lt_of_le_of_lt Nat.and_le_left he)
      (fun n hn => hsome n (by rw [testBit_clearLowest ht n.isLt] at hn; exact ((Bool.and_eq_true _ _).mp hn).1))
    have hchild : node.childAt (trailingZeros 16 e) = .ok c := by
      simp [childAt, nibbleOf, ht, bind, Except.bind, hc]
    -- the leaf bitmap marks the child as the child is
    have hleaf : (node.generateBitmaps.2 &&& 1 <<< trailingZeros 16 e != 0) = c.isLeaf := by
      have hsnd := testBit_generateBitmaps_snd node ⟨_, ht⟩
      rw [hc] at hsnd
      rw [Nat.shiftLeft_eq, Nat.one_mul]
      by_cases hleaf : c.isLeaf
      · simpa [hleaf] using (and_two_pow_ne_zero_iff _ _).mpr (by simpa [hleaf] using hsnd)
      · have : ¬(node.generateBitmaps.2 &&& 2 ^ trailingZeros 16 e ≠ 0) := by
          rw [and_two_pow_ne_zero_iff]
          simpa [hleaf] using hsnd
        simpa [hleaf] using this
    refine ⟨cb ++ rb, ?_, fun rest => ?_⟩
    · simp only [List.length_cons, serializeLoop, hchild, hcser, hrser, bind, Except.bind]
    · simp only [List.length_cons, deserializeLoop, hleaf, List.append_assoc, hcdeser, nibbleOf, dif_pos ht,
        bind, Except.bind, hrdeser]
      -- the child read fills its own place
      congr 3
      funext n
      rw [testBit_clearLowest ht n.isLt]
      by_cases hn : n = ⟨_, ht⟩
      · subst hn
        simp [hbit, hc]
      · have hval : n.val ≠ trailingZeros 16 e := fun h => hn (Fin.ext h)
        simp [hn, hval]

/-- A node built by `new_impl` has a child. -/
theorem generateBitmaps_fst_ne_zero {node : InternalNode HashValue} (hnode : newImpl node.children = .ok node) :
    node.generateBitmaps.1 ≠ 0 := by
  have hvalues : node.children.values ≠ [] := by
    intro h
    rw [newImpl, if_pos (by simp [h])] at hnode
    cases hnode
  obtain ⟨c, hc⟩ := List.exists_mem_of_ne_nil _ hvalues
  obtain ⟨n, -, hn⟩ := List.mem_filterMap.mp hc
  intro hzero
  have hbit := testBit_generateBitmaps_fst node n
  rw [hzero, Nat.zero_testBit, hn] at hbit
  cases hbit

/-- The leaf bitmap is within the existence bitmap. -/
theorem generateBitmaps_fst_and_snd (node : InternalNode HashValue) :
    node.generateBitmaps.1 &&& node.generateBitmaps.2 = node.generateBitmaps.2 := by
  apply Nat.eq_of_testBit_eq
  intro i
  rw [Nat.testBit_and]
  by_cases hi : i < 16
  · rw [testBit_generateBitmaps_fst node ⟨i, hi⟩, testBit_generateBitmaps_snd node ⟨i, hi⟩]
    cases node.children ⟨i, hi⟩ <;> rfl
  · rw [(testBit_generateBitmaps_of_le node (by omega)).2, Bool.and_false]

/-- The children the existence bitmap marks are the node's children. -/
theorem children_of_generateBitmaps (node : InternalNode HashValue) :
    (fun n => if node.generateBitmaps.1.testBit n.val then node.children n else none) = node.children := by
  funext n
  rw [testBit_generateBitmaps_fst]
  cases node.children n <;> rfl

/-- `InternalNode::deserialize` reads back, whatever bytes follow, what
`InternalNode::serialize` wrote for a node built by `new_impl` whose children's
versions and leaf counts are `u64`s. -/
theorem deserialize_serialize {node : InternalNode HashValue} (hnode : newImpl node.children = .ok node)
    (hfit : node.ChildrenFit) :
    ∃ bytes, node.serialize = .ok bytes ∧ ∀ rest, deserialize (bytes ++ rest) = .ok node := by
  have hE := node.generateBitmaps_fst_lt
  have hL := node.generateBitmaps_snd_lt
  have hsome : ∀ n : Nibble, node.generateBitmaps.1.testBit n.val = true → (node.children n).isSome :=
    fun n hn => by rwa [testBit_generateBitmaps_fst] at hn
  obtain ⟨bytes, hser, hdeser⟩ :=
    deserializeLoop_serializeLoop hfit _ node.generateBitmaps.1 (fun _ => none) rfl hE hsome
  rw [← countOnes_eq_length_filter] at hser hdeser
  refine ⟨toLittleEndian 2 node.generateBitmaps.1 ++ toLittleEndian 2 node.generateBitmaps.2 ++ bytes, ?_,
    fun rest => ?_⟩
  · simp only [serialize, hser, bind, Except.bind]
  · simp only [deserialize, List.append_assoc, readU16LE_toLittleEndian hE, readU16LE_toLittleEndian hL,
      bind, Except.bind, generateBitmaps_fst_ne_zero hnode, generateBitmaps_fst_and_snd, hdeser,
      children_of_generateBitmaps, hnode, ne_eq, not_true_eq_false, if_false]

end InternalNode

/-! ## Nodes -/

/-- The `bcs` crate's encoding of a type: `bcs::to_bytes` and `bcs::from_bytes`. -/
structure Bcs (τ : Type) where
  toBytes : τ → Except CodecError (List UInt8)
  fromBytes : List UInt8 → Except CodecError τ

/-- BCS reads back what it writes for `x`. -/
def Bcs.RoundTrips {τ : Type} (bcs : Bcs τ) (x : τ) : Prop :=
  ∃ bytes, bcs.toBytes x = .ok bytes ∧ bcs.fromBytes bytes = .ok x

namespace Node

variable {κ : Type} (bcs : Bcs (LeafNode κ HashValue))

/-- `Node::encode`: the tag `NodeTag::Internal = 2` and the internal node, or the
tag `NodeTag::Leaf = 1` and the leaf's BCS bytes. -/
def encode : Node κ HashValue → Except CodecError (List UInt8)
  | .internal node => (2 :: ·) <$> node.serialize
  | .leaf leafNode => (1 :: ·) <$> bcs.toBytes leafNode

/-- `Node::decode`. -/
def decode (val : List UInt8) : Except CodecError (Node κ HashValue) :=
  match val with
  | [] => .error (.nodeDecode .emptyInput)
  | tag :: rest =>
    -- `NodeTag::from_u8`
    if tag = 2 then .internal <$> InternalNode.deserialize rest
    else if tag = 1 then .leaf <$> bcs.fromBytes rest
    else .error (.nodeDecode (.unknownTag tag))

/-- A node the store holds: an internal node built by `new_impl` whose children's
versions and leaf counts are `u64`s, or a leaf that BCS reads back. -/
def Encodable : Node κ HashValue → Prop
  | .internal node => InternalNode.newImpl node.children = .ok node ∧ node.ChildrenFit
  | .leaf leafNode => bcs.RoundTrips leafNode

/-- `Node::decode` reads back what `Node::encode` writes. -/
theorem decode_encode {n : Node κ HashValue} (hn : n.Encodable bcs) :
    ∃ bytes, n.encode bcs = .ok bytes ∧ decode bcs bytes = .ok n := by
  cases n with
  | internal node =>
    obtain ⟨hnode, hfit⟩ := hn
    obtain ⟨bytes, hser, hdeser⟩ := InternalNode.deserialize_serialize hnode hfit
    have hbytes := hdeser []
    rw [List.append_nil] at hbytes
    exact ⟨2 :: bytes, by simp [encode, hser], by simp [decode, hbytes]⟩
  | leaf leafNode =>
    obtain ⟨bytes, hto, hfrom⟩ := hn
    exact ⟨1 :: bytes, by simp [encode, hto], by simp [decode, hfrom]⟩

end Node

/-- The storage codecs read back what they write, and node keys sort as their
encodings. -/
theorem storage_codecs_round_trip {κ : Type} (bcs : Bcs (LeafNode κ HashValue)) :
    (∀ n : Node κ HashValue, n.Encodable bcs →
      ∃ bytes, n.encode bcs = .ok bytes ∧ Node.decode bcs bytes = .ok n) ∧
    (∀ x, x < 2 ^ 64 →
      ∃ bytes, serializeU64Varint x = .ok bytes ∧ ∀ rest, deserializeU64Varint (bytes ++ rest) = .ok (x, rest)) ∧
    (∀ k : NodeKey, k.version < 2 ^ 64 → k.nibblePath.length ≤ 64 → NodeKey.decode k.encode = .ok k) ∧
    (∀ k₁ k₂ : NodeKey, k₁.version < 2 ^ 64 → k₂.version < 2 ^ 64 → k₁.nibblePath.length ≤ 64 →
      k₂.nibblePath.length ≤ 64 → (k₁ < k₂ ↔ k₁.encode < k₂.encode)) := by
  refine ⟨fun _ hn => Node.decode_encode bcs hn, fun _ hx => ?_, fun _ hv hl => NodeKey.decode_encode hv hl,
    fun _ _ hv₁ hv₂ hl₁ hl₂ => NodeKey.lt_iff_encode_lt hv₁ hv₂ hl₁ hl₂⟩
  obtain ⟨bytes, hser, -, hdeser⟩ := deserializeU64Varint_serializeU64Varint hx
  exact ⟨bytes, hser, hdeser⟩

/-- An internal node with one internal child at nibble 1 goes through the codec. -/
theorem storage_codecs_round_trip_one_child :
    let node : InternalNode HashValue :=
      ⟨fun n => if n = 1 then some ⟨5, 3, .internal 2⟩ else none, 2⟩
    ∃ bytes, (Node.internal node : Node Unit HashValue).encode ⟨fun _ => .ok [], fun _ => .ok ⟨0, 0, ((), 0)⟩⟩ =
        .ok bytes ∧
      Node.decode ⟨fun _ => .ok [], fun _ => .ok ⟨0, 0, ((), 0)⟩⟩ bytes = .ok (Node.internal node) := by
  intro node
  have hfit : node.ChildrenFit := by
    intro n c hc
    by_cases hn : n = 1
    · simp only [node, hn, if_true, Option.some.injEq] at hc
      subst hc
      exact ⟨by decide, by decide⟩
    · simp [node, hn] at hc
  exact (storage_codecs_round_trip _).1 (Node.internal node) ⟨rfl, hfit⟩

end AptosCore
