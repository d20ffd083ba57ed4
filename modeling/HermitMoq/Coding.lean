import HermitMoq.BigEndian
import HermitMoq.Path
import HermitMoq.Runs

/-!
# The Coding of Integers, Strings and Namespaces

The parts of `moq-net/src/coding` and `ietf/namespace.rs` that the control messages of drafts
14 to 16 start with. These drafts use the variable-length integers of QUIC: two bits of the
first byte tell the width. A string is its UTF-8 length and bytes, a namespace the number of
its components and each of them as a string. Decoders return what they leave unread.
-/

namespace HermitMoq

open BigEndian Nat

/-- A failed encoding. -/
inductive EncodeError
  /-- A value is out of range. -/
  | boundsExceeded
  /-- A message does not fit its size field. -/
  | tooLarge
  | tooMany
  | invalidState
  /-- The message does not exist in this version. -/
  | version
  /-- An `expect` or `assert!` of the encoder does not hold: no error, but a panic. -/
  | panics
  deriving DecidableEq, Repr

/-- A failed decoding. -/
inductive DecodeError
  /-- The buffer ends too early. -/
  | short
  /-- Bytes are left over at the end of a message. -/
  | long
  /-- A string is not valid UTF-8. -/
  | invalidString
  /-- There is no message of this type. -/
  | invalidMessage (type : ℕ)
  | invalidSubscribeLocation
  | invalidValue
  | tooMany
  /-- A value is out of range. -/
  | boundsExceeded
  | expectedEnd
  | expectedData
  | duplicate
  | missing
  | unsupported
  | trailingBytes
  /-- The message does not exist in this version. -/
  | version
  deriving DecidableEq, Repr

/-- Read a value from the front of a buffer. -/
abbrev Decoder (α : Type) := List UInt8 → Except DecodeError (α × List UInt8)

/-! ### Integers -/

/-- `VarInt::encode_quic`. -/
def encodeVarInt (x : ℕ) : Except EncodeError (List UInt8) :=
  if x < 2 ^ 6 then .ok (toBytes 1 x)
  else if x < 2 ^ 14 then .ok (toBytes 2 (1 <<< 14 ||| x))
  else if x < 2 ^ 30 then .ok (toBytes 4 (2 <<< 30 ||| x))
  else if x < 2 ^ 62 then .ok (toBytes 8 (3 <<< 62 ||| x))
  else .error .boundsExceeded

/-- The rest of a variable-length integer, after its first byte. -/
def decodeTail (b : UInt8) (n : ℕ) : Decoder ℕ := fun rest =>
  if rest.length < n then .error .short
  else .ok (ofBytes ((b &&& 0x3f) :: rest.take n), rest.drop n)

/-- `VarInt::decode_quic`. -/
def decodeVarInt : Decoder ℕ
  | [] => .error .short
  | b :: rest =>
    match b >>> 6 with
    | 0 => decodeTail b 0 rest
    | 1 => decodeTail b 1 rest
    | 2 => decodeTail b 3 rest
    | _ => decodeTail b 7 rest

/-- The first byte of an integer carries the tag and the top six bits. -/
theorem head_byte {tag top : ℕ} (htag : tag < 4) (htop : top < 64) :
    UInt8.ofNat (tag * 64 + top) >>> 6 = UInt8.ofNat tag ∧
      (UInt8.ofNat (tag * 64 + top) &&& 0x3f).toNat = top := by
  have hbyte : (UInt8.ofNat (tag * 64 + top)).toNat = tag * 64 + top := by
    rw [UInt8.toNat_ofNat']
    omega
  constructor
  · apply UInt8.toNat_inj.mp
    rw [UInt8.toNat_shiftRight, hbyte, UInt8.toNat_ofNat', shiftRight_eq_div_pow]
    show (tag * 64 + top) / 2 ^ 6 = tag % 2 ^ 8
    omega
  · rw [UInt8.toNat_and, hbyte]
    have hmask : (0x3f : UInt8).toNat = 2 ^ 6 - 1 := rfl
    rw [hmask, and_two_pow_sub_one_eq_mod]
    omega

/-- An integer of `n + 1` bytes, split into its first byte and the others. -/
theorem toBytes_tagged (tag n x : ℕ) :
    toBytes (n + 1) (tag * (64 * 256 ^ n) + x) =
      UInt8.ofNat (tag * 64 + x / 256 ^ n) :: toBytes n x := by
  have hpos : 0 < 256 ^ n := Nat.pow_pos (by decide)
  have hassoc : tag * (64 * 256 ^ n) + x = tag * 64 * 256 ^ n + x := by ring
  rw [toBytes, hassoc, toBytes_add_mul, add_comm, add_mul_div_right _ _ hpos,
    add_comm]

/-- A number is read back from its tag and its tail. -/
theorem decodeTail_tagged {tag n x : ℕ} (htag : tag < 4) (hx : x < 64 * 256 ^ n)
    (rest : List UInt8) :
    decodeTail (UInt8.ofNat (tag * 64 + x / 256 ^ n)) n (toBytes n x ++ rest) = .ok (x, rest) := by
  have htop : x / 256 ^ n < 64 := Nat.div_lt_of_lt_mul (by rwa [Nat.mul_comm])
  have hlen : ¬ (toBytes n x ++ rest).length < n := by
    rw [List.length_append, length_toBytes]
    omega
  have hvalue : ofBytes ((UInt8.ofNat (tag * 64 + x / 256 ^ n) &&& 0x3f) :: toBytes n x) = x := by
    rw [ofBytes, (head_byte htag htop).2, length_toBytes, ofBytes_toBytes]
    exact div_add_mod' x (256 ^ n)
  rw [decodeTail, if_neg hlen, List.take_left' (length_toBytes n x),
    List.drop_left' (length_toBytes n x), hvalue]

theorem decodeVarInt_tagged {tag n x : ℕ} (hx : x < 64 * 256 ^ n)
    (hwidth : tag = 0 ∧ n = 0 ∨ tag = 1 ∧ n = 1 ∨ tag = 2 ∧ n = 3 ∨ tag = 3 ∧ n = 7)
    (rest : List UInt8) :
    decodeVarInt (toBytes (n + 1) (tag * (64 * 256 ^ n) + x) ++ rest) = .ok (x, rest) := by
  have htag : tag < 4 := by omega
  have htop : x / 256 ^ n < 64 := Nat.div_lt_of_lt_mul (by rwa [Nat.mul_comm])
  have htail := decodeTail_tagged htag hx rest
  rw [toBytes_tagged, List.cons_append, decodeVarInt, (head_byte htag htop).1]
  rcases hwidth with ⟨rfl, rfl⟩ | ⟨rfl, rfl⟩ | ⟨rfl, rfl⟩ | ⟨rfl, rfl⟩ <;> exact htail

variable {bytes : List UInt8}

/-- What was encoded is read back. -/
theorem decodeVarInt_encode {x : ℕ} (h : encodeVarInt x = .ok bytes)
    (rest : List UInt8) : decodeVarInt (bytes ++ rest) = .ok (x, rest) := by
  rw [encodeVarInt] at h
  split_ifs at h with h6 h14 h30 h62
  · cases h
    simpa using decodeVarInt_tagged (x := x) (by omega) (.inl ⟨rfl, rfl⟩) rest
  · cases h
    rw [← shiftLeft_add_eq_or_of_lt h14]
    exact decodeVarInt_tagged (x := x) (by omega) (.inr (.inl ⟨rfl, rfl⟩)) rest
  · cases h
    rw [← shiftLeft_add_eq_or_of_lt h30]
    exact decodeVarInt_tagged (x := x) (by omega) (.inr (.inr (.inl ⟨rfl, rfl⟩))) rest
  · cases h
    rw [← shiftLeft_add_eq_or_of_lt h62]
    exact decodeVarInt_tagged (x := x) (by omega) (.inr (.inr (.inr ⟨rfl, rfl⟩))) rest

/-! ### Strings -/

/-- The UTF-8 bytes of a string. -/
def utf8 (cs : List Char) : List UInt8 := cs.flatMap String.utf8EncodeChar

/-- `String::from_utf8`. -/
def fromUtf8 (bytes : List UInt8) : Option (List Char) :=
  bytes.toByteArray.utf8Decode?.map Array.toList

theorem fromUtf8_utf8 (cs : List Char) : fromUtf8 (utf8 cs) = some cs := by
  have hbytes : (utf8 cs).toByteArray = cs.utf8Encode := rfl
  rw [fromUtf8, hbytes, List.utf8Decode?_utf8Encode]
  rfl

/-- `encode` of a string. -/
def encodeString (cs : List Char) : Except EncodeError (List UInt8) :=
  (encodeVarInt (utf8 cs).length).map (· ++ utf8 cs)

/-- `decode` of a vector of bytes. -/
def decodeBytes : Decoder (List UInt8) := fun buf => do
  let (size, rest) ← decodeVarInt buf
  if rest.length < size then .error .short else .ok (rest.take size, rest.drop size)

/-- `decode` of a string. -/
def decodeString : Decoder (List Char) := fun buf => do
  let (bytes, rest) ← decodeBytes buf
  match fromUtf8 bytes with
  | some cs => .ok (cs, rest)
  | none => .error .invalidString

/-- A string is read back. -/
theorem decodeString_encode {cs : List Char} (h : encodeString cs = .ok bytes) (rest : List UInt8) :
    decodeString (bytes ++ rest) = .ok (cs, rest) := by
  rw [encodeString] at h
  cases hlen : encodeVarInt (utf8 cs).length with
  | error e =>
    rw [hlen] at h
    cases h
  | ok size =>
    rw [hlen] at h
    cases h
    have hsize := decodeVarInt_encode hlen (utf8 cs ++ rest)
    have hbytes : decodeBytes (size ++ utf8 cs ++ rest) = .ok (utf8 cs, rest) := by
      simp [decodeBytes, hsize, bind, Except.bind]
    rw [decodeString, hbytes]
    simp [bind, Except.bind, fromUtf8_utf8]

/-! ### Namespaces -/

/-- Encode strings one after another. -/
def encodeStrings : List (List Char) → Except EncodeError (List UInt8)
  | [] => .ok []
  | part :: parts => do
    let bytes ← encodeString part
    let rest ← encodeStrings parts
    .ok (bytes ++ rest)

/-- Decode a number of strings. -/
def decodeStrings : ℕ → Decoder (List (List Char))
  | 0, buf => .ok ([], buf)
  | n + 1, buf => do
    let (part, buf) ← decodeString buf
    let (parts, buf) ← decodeStrings n buf
    .ok (part :: parts, buf)

/-- `encode_namespace`. -/
def encodeNamespace (ns : Path) : Except EncodeError (List UInt8) :=
  if ns.isEmpty then encodeVarInt 0
  else if ns.parts.length > 32 then .error .boundsExceeded
  else do
    let count ← encodeVarInt ns.parts.length
    let parts ← encodeStrings ns.parts
    .ok (count ++ parts)

/-- `decode_namespace`. -/
def decodeNamespace : Decoder Path := fun buf => do
  let (count, buf) ← decodeVarInt buf
  if count = 0 then .ok (Path.new [], buf)
  else if count > 32 then .error .boundsExceeded
  else do
    let (parts, buf) ← decodeStrings count buf
    .ok (Path.new (['/'].intercalate parts), buf)

/-- Strings are read back, one after the other. -/
theorem decodeStrings_encode {parts : List (List Char)}
    (h : encodeStrings parts = .ok bytes) (rest : List UInt8) :
    decodeStrings parts.length (bytes ++ rest) = .ok (parts, rest) := by
  induction parts generalizing bytes with
  | nil =>
    cases h
    rfl
  | cons part parts ih =>
    obtain ⟨_, hpart, h⟩ := bind_eq_ok.mp h
    obtain ⟨_, hparts, h⟩ := bind_eq_ok.mp h
    cases h
    rw [List.length_cons, decodeStrings, List.append_assoc, decodeString_encode hpart]
    simp [bind, Except.bind, ih hparts]

/-- A namespace is read back. -/
theorem decodeNamespace_encode {ns : Path}
    (h : encodeNamespace ns = .ok bytes) (rest : List UInt8) :
    decodeNamespace (bytes ++ rest) = .ok (ns, rest) := by
  rw [encodeNamespace] at h
  split_ifs at h with hempty hmany
  · have hns : ns = Path.new [] := by
      rw [Path.isEmpty_iff, Path.parts_eq_nil_iff] at hempty
      rw [hempty, ← Path.new_chars Path.empty]
      rfl
    rw [decodeNamespace, decodeVarInt_encode h, hns]
    rfl
  · have hcount : ns.parts.length ≠ 0 := by
      rw [Path.isEmpty_iff] at hempty
      simpa using hempty
    obtain ⟨_, hsize, h⟩ := bind_eq_ok.mp h
    obtain ⟨_, hparts, h⟩ := bind_eq_ok.mp h
    cases h
    rw [decodeNamespace, List.append_assoc, decodeVarInt_encode hsize]
    simp only [bind, Except.bind, if_neg hcount, if_neg hmany, decodeStrings_encode hparts]
    rw [Path.intercalate_parts, Path.new_chars]

end HermitMoq
