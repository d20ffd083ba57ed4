import HermitMoq.Decode
import HermitMoq.Output

/-!
# The Coding of Variable-Length Integers

`moq-net/src/coding/varint.rs`: integers as in QUIC, where two bits of the first byte tell the
width, and as from draft 17 on, where the first byte has as many leading ones as bytes follow.
The encoders of integers of 64 bits refuse what does not fit 62 bits, under every version; the
decoder of leading ones accepts all 64.
-/

namespace HermitMoq

open List Nat Decode

open BigEndian

/-- An encoder of a value. -/
abbrev Encode := Output EncodeError

namespace Encode

/-- `VarInt::encode_quic`. -/
def quic (x : ℕ) : Encode :=
  if x < 2 ^ 6 then .ok [.uint 1 x]
  else if x < 2 ^ 14 then .ok [.uint 2 (1 <<< 14 ||| x)]
  else if x < 2 ^ 30 then .ok [.uint 4 (2 <<< 30 ||| x)]
  else if x < 2 ^ 62 then .ok [.uint 8 (3 <<< 62 ||| x)]
  else .error .boundsExceeded

/-- `VarInt::encode_leading_ones`. -/
def leadingOnes (x : ℕ) : Encode :=
  if x < 2 ^ 7 then .ok [.uint 1 x]
  else if x < 2 ^ 14 then .ok [.uint 1 (0x80 ||| x >>> 8), .uint 1 x]
  else if x < 2 ^ 21 then .ok [.uint 1 (0xc0 ||| x >>> 16), .uint 2 x]
  else if x < 2 ^ 28 then .ok [.uint 1 (0xe0 ||| x >>> 24), .uint 1 (x >>> 16), .uint 2 x]
  else if x < 2 ^ 35 then .ok [.uint 1 (0xf0 ||| x >>> 32), .uint 4 x]
  else if x < 2 ^ 42 then .ok [.uint 1 (0xf8 ||| x >>> 40), .uint 1 (x >>> 32), .uint 4 x]
  else if x < 2 ^ 56 then
    .ok [.uint 1 0xfe, .uint 1 (x >>> 48), .uint 2 (x >>> 32), .uint 4 x]
  else .ok [.uint 1 0xff, .uint 8 x]

end Encode

/-! ### QUIC -/

/-- The encoder of `HermitMoq.Coding` writes the same. -/
theorem written_quic (x : ℕ) : (Encode.quic x).map Put.written = encodeVarInt x := by
  rw [Encode.quic, encodeVarInt]
  split_ifs <;> simp [Except.map, Put.bytes]

variable {x : ℕ} {n : ℕ}

/-- An integer that fits 62 bits is read back. -/
theorem transfers_quic (hx : x < 2 ^ 62) : Transfers (Encode.quic x) Decode.quic x := by
  have hwritten := written_quic x
  cases hputs : Encode.quic x with
  | error e =>
    rw [Encode.quic] at hputs
    split_ifs at hputs
  | ok puts =>
    rw [hputs] at hwritten
    refine ⟨puts, rfl, fun rest => ?_⟩
    rw [run_quic]
    exact decodeVarInt_encode hwritten.symm rest

/-! ### Leading ones -/

namespace Decode

theorem reads_u8 (b : UInt8) : u8.Reads [b] b := Parser.reads_read_pure (·.headD 0) rfl

variable {hi : UInt8}

/-- The bytes after the first are read together with its low bits. -/
theorem reads_tail (hhi : hi.toNat = x / 256 ^ n) :
    (tail hi n).Reads (toBytes n x) x := by
  have hvalue : ofBytes (hi :: toBytes n x) = x := by
    rw [ofBytes, hhi, length_toBytes, ofBytes_toBytes]
    exact div_add_mod' x (256 ^ n)
  have hread : (tail hi n).Reads (toBytes n x) (ofBytes (hi :: toBytes n x)) :=
    Parser.reads_read_pure (fun bytes => ofBytes (hi :: bytes)) (length_toBytes n x)
  rwa [hvalue] at hread

/-- The markers of one to five leading ones, with any bits after them. -/
theorem leadingOnes_marked :
    (∀ top < 0x80, leadingOnes (UInt8.ofNat (0 ||| top)) = 0 ∧
      (UInt8.ofNat (0 ||| top)).toNat = top) ∧
    (∀ top < 0x40, leadingOnes (UInt8.ofNat (0x80 ||| top)) = 1 ∧
      (UInt8.ofNat (0x80 ||| top) &&& 0x3f).toNat = top) ∧
    (∀ top < 0x20, leadingOnes (UInt8.ofNat (0xc0 ||| top)) = 2 ∧
      (UInt8.ofNat (0xc0 ||| top) &&& 0x1f).toNat = top) ∧
    (∀ top < 0x10, leadingOnes (UInt8.ofNat (0xe0 ||| top)) = 3 ∧
      (UInt8.ofNat (0xe0 ||| top) &&& 0x0f).toNat = top) ∧
    (∀ top < 0x08, leadingOnes (UInt8.ofNat (0xf0 ||| top)) = 4 ∧
      (UInt8.ofNat (0xf0 ||| top) &&& 0x07).toNat = top) ∧
    ∀ top < 0x04, leadingOnes (UInt8.ofNat (0xf8 ||| top)) = 5 ∧
      (UInt8.ofNat (0xf8 ||| top) &&& 0x03).toNat = top := by
  refine ⟨?_, ?_, ?_, ?_, ?_, ?_⟩ <;> decide

variable {b : UInt8} {buf rest : List UInt8}

/-- An integer is read, if its first byte tells the number of other bytes and ends in the top
bits. -/
theorem reads_bind_tail {f : UInt8 → Decode ℕ} (hhi : hi.toNat = x / 256 ^ n)
    (hf : f b = tail hi n) : (u8 >>= f).Reads (b :: toBytes n x) x := by
  have hrest : (f b).Reads (toBytes n x) x := by
    rw [hf]
    exact reads_tail hhi
  exact (reads_u8 b).bind hrest

/-- An integer of 64 bits is read back. -/
theorem transfers_leadingOnes (version : Ietf.Version) (hx : x < 2 ^ 64) :
    Transfers (Encode.leadingOnes x) (leadingOnesVarInt version) x := by
  obtain ⟨h0, h1, h2, h3, h4, h5⟩ := leadingOnes_marked
  have hbytes : ∀ {puts : List Put} {b : UInt8} {n : ℕ},
      Put.written puts = b :: toBytes n x →
      (leadingOnesVarInt version).Reads (b :: toBytes n x) x →
      Transfers (.ok puts : Encode) (leadingOnesVarInt version) x := fun {puts b n} heq hreads =>
    ⟨puts, rfl, heq ▸ hreads⟩
  rw [Encode.leadingOnes]
  split_ifs with h7 h14 h21 h28 h35 h42 h56
  · obtain ⟨hones, htop⟩ := h0 x h7
    have hwritten : Put.written [.uint 1 x] = [UInt8.ofNat (0 ||| x)] ++ [] := by
      simp [Put.bytes, toBytes]
    refine ⟨_, rfl, hwritten ▸ (reads_u8 _).bind ?_⟩
    rw [hones, htop]
    exact Parser.reads_pure x
  · obtain ⟨hones, htop⟩ := h1 (x / 256 ^ 1) (by omega)
    refine hbytes (b := .ofNat (0x80 ||| x / 256 ^ 1)) ?_ (reads_bind_tail htop ?_)
    · simp [Put.bytes, toBytes, Nat.shiftRight_eq_div_pow]
    · rw [hones]
      rfl
  · obtain ⟨hones, htop⟩ := h2 (x / 256 ^ 2) (by omega)
    refine hbytes (b := .ofNat (0xc0 ||| x / 256 ^ 2)) ?_ (reads_bind_tail htop ?_)
    · simp [Put.bytes, toBytes, Nat.shiftRight_eq_div_pow]
    · rw [hones]
      rfl
  · obtain ⟨hones, htop⟩ := h3 (x / 256 ^ 3) (by omega)
    refine hbytes (b := .ofNat (0xe0 ||| x / 256 ^ 3)) ?_ (reads_bind_tail htop ?_)
    · simp [Put.bytes, toBytes, Nat.shiftRight_eq_div_pow]
    · rw [hones]
      rfl
  · obtain ⟨hones, htop⟩ := h4 (x / 256 ^ 4) (by omega)
    refine hbytes (b := .ofNat (0xf0 ||| x / 256 ^ 4)) ?_ (reads_bind_tail htop ?_)
    · simp [Put.bytes, toBytes, Nat.shiftRight_eq_div_pow]
    · rw [hones]
      rfl
  · obtain ⟨hones, htop⟩ := h5 (x / 256 ^ 5) (by omega)
    refine hbytes (b := .ofNat (0xf8 ||| x / 256 ^ 5)) ?_ (reads_bind_tail htop ?_)
    · simp [Put.bytes, toBytes, Nat.shiftRight_eq_div_pow]
    · rw [hones]
      rfl
  · have htop : (0 : UInt8).toNat = x / 256 ^ 7 := (Nat.div_eq_of_lt h56).symm
    refine hbytes (b := 0xfe) ?_ (reads_bind_tail htop rfl)
    simp [Put.bytes, toBytes, Nat.shiftRight_eq_div_pow, Nat.div_div_eq_div_mul]
  · have htop : (0 : UInt8).toNat = x / 256 ^ 8 := (Nat.div_eq_of_lt hx).symm
    refine hbytes (b := 0xff) ?_ (reads_bind_tail htop rfl)
    simp [Put.bytes, toBytes]

/-! ### What is accepted -/

theorem blind_leadingOnesVarInt (version : Ietf.Version) : (leadingOnesVarInt version).Blind := by
  refine Parser.Blind.bind (fun _ => trivial) fun b => ?_
  split
  all_goals first
    | trivial
    | exact blind_tail _ _
    | (split <;> first | trivial | exact blind_tail _ _)

/-- The tail of a number has so many bytes and bounds it. -/
theorem tail_ok (h : (tail hi n).run buf = .ok (x, rest)) :
    buf.length = n + rest.length ∧ x = ofBytes (hi :: buf.take n) ∧
      x < (hi.toNat + 1) * 256 ^ n := by
  rw [tail, Parser.run] at h
  split_ifs at h with hlen
  cases h
  refine ⟨by rw [length_drop]; omega, rfl, ?_⟩
  have hlt := ofBytes_lt (buf.take n)
  have htake : (buf.take n).length = n := by rw [length_take]; omega
  rw [htake] at hlt
  rw [ofBytes, htake, add_mul, one_mul]
  exact Nat.add_lt_add_left hlt _

/-- The low bits of a byte. -/
theorem toNat_and_lt (b : UInt8) :
    (b &&& 0x3f).toNat < 64 ∧ (b &&& 0x1f).toNat < 32 ∧ (b &&& 0x0f).toNat < 16 ∧
      (b &&& 0x07).toNat < 8 ∧ (b &&& 0x03).toNat < 4 ∧ (b &&& 0x01).toNat < 2 := by
  refine ⟨?_, ?_, ?_, ?_, ?_, ?_⟩ <;> exact lt_succ_of_le and_le_right

theorem run_u8_bind {α : Type} (f : UInt8 → Decode α) (b : UInt8) (buf : List UInt8) :
    (u8 >>= f).run (b :: buf) = (f b).run buf := by
  rfl

/-- An integer as in QUIC has 1, 2, 4 or 8 bytes, two bits of which are not its own. -/
theorem quic_ok (h : quic.run buf = .ok (x, rest)) :
    ∃ n, (n = 0 ∨ n = 1 ∨ n = 3 ∨ n = 7) ∧ buf.length = n + 1 + rest.length ∧
      x < 64 * 256 ^ n := by
  cases buf with
  | nil => cases h
  | cons b buf =>
    have htail : ∃ n, (n = 0 ∨ n = 1 ∨ n = 3 ∨ n = 7) ∧
        (tail (b &&& 0x3f) n).run buf = .ok (x, rest) := by
      rw [quic, run_u8_bind] at h
      split at h
      · exact ⟨0, by decide, h⟩
      · exact ⟨1, by decide, h⟩
      · exact ⟨3, by decide, h⟩
      · exact ⟨7, by decide, h⟩
    obtain ⟨n, hn, htail⟩ := htail
    obtain ⟨_, -, hlt⟩ := tail_ok htail
    refine ⟨n, hn, by rw [length_cons]; omega, lt_of_lt_of_le hlt ?_⟩
    exact mul_le_mul_right _ (toNat_and_lt b).1

/-- The leading ones of all bytes. -/
theorem leadingOnes_bounds : ∀ n < 256, leadingOnes (.ofNat n) ≤ 8 ∧
    (leadingOnes (.ofNat n) = 0 → n < 128) ∧ (leadingOnes (.ofNat n) = 8 → n = 255) := by
  decide +kernel

theorem leadingOnes_le (b : UInt8) : leadingOnes b ≤ 8 := by
  have h := (leadingOnes_bounds b.toNat b.toNat_lt).1
  rwa [UInt8.ofNat_toNat] at h

theorem leadingOnes_eq_eight (h : leadingOnes b = 8) : b = 0xff := by
  have h' := (leadingOnes_bounds b.toNat b.toNat_lt).2.2
  rw [UInt8.ofNat_toNat] at h'
  exact UInt8.toNat_inj.mp (h' h)

theorem lt_of_leadingOnes_eq_zero (h : leadingOnes b = 0) : b.toNat < 128 := by
  have h' := (leadingOnes_bounds b.toNat b.toNat_lt).2.1
  rw [UInt8.ofNat_toNat] at h'
  exact h' h

/-- The number of further bytes is that of the leading ones, and of the first byte as many bits
are left. -/
theorem leadingOnesVarInt_tail {version : Ietf.Version}
    (h : (leadingOnesVarInt version).run (b :: buf) = .ok (x, rest)) :
    ∃ hi : UInt8, (tail hi (leadingOnes b)).run buf = .ok (x, rest) ∧
      hi.toNat + 1 ≤ 2 ^ (7 - leadingOnes b) ∧ (leadingOnes b = 8 → hi = 0) := by
  have hsmall : ∀ {n : ℕ} {hi : UInt8}, n < 8 → (tail hi n).run buf = .ok (x, rest) →
      hi.toNat < 2 ^ (7 - n) → ∃ hi : UInt8, (tail hi n).run buf = .ok (x, rest) ∧
        hi.toNat + 1 ≤ 2 ^ (7 - n) ∧ (n = 8 → hi = 0) := fun hn htail hlt =>
    ⟨_, htail, hlt, fun heq => absurd heq hn.ne⟩
  obtain ⟨h1, h2, h3, h4, h5, h6⟩ := toNat_and_lt b
  rw [leadingOnesVarInt, run_u8_bind] at h
  split at h <;> rename_i hones
  · rw [hones]
    have htail : (tail b 0).run buf = .ok (x, rest) := by
      rw [tail, Parser.run, if_neg (not_lt_zero _)]
      simpa [ofBytes] using h
    exact hsmall (by decide) htail (lt_of_leadingOnes_eq_zero hones)
  · rw [hones]
    exact hsmall (by decide) h h1
  · rw [hones]
    exact hsmall (by decide) h h2
  · rw [hones]
    exact hsmall (by decide) h h3
  · rw [hones]
    exact hsmall (by decide) h h4
  · rw [hones]
    exact hsmall (by decide) h h5
  · rw [hones]
    split_ifs at h
    · cases h
    · exact hsmall (by decide) h h6
  · rw [hones]
    exact hsmall (by decide) h (by decide)
  · have hle := leadingOnes_le b
    have heq : leadingOnes b = 8 := by grind
    rw [heq]
    exact ⟨0, h, by decide, fun _ => rfl⟩

/-- An integer behind leading ones has seven bits for each byte, and eight in the longest
form. -/
theorem leadingOnesVarInt_ok {version : Ietf.Version}
    (h : (leadingOnesVarInt version).run buf = .ok (x, rest)) :
    ∃ n ≤ 8, buf.length = n + 1 + rest.length ∧ x < 2 ^ (7 - n) * 256 ^ n := by
  cases buf with
  | nil => cases h
  | cons b buf =>
    obtain ⟨_, htail, hhi, -⟩ := leadingOnesVarInt_tail h
    obtain ⟨_, -, hlt⟩ := tail_ok htail
    refine ⟨leadingOnes b, leadingOnes_le b, by rw [length_cons]; omega, ?_⟩
    exact lt_of_lt_of_le hlt (mul_le_mul_right _ hhi)

end Decode

/-! ### Versions -/

/-- `Version`. -/
inductive Version
  | lite (version : Lite.Version)
  | ietf (version : Ietf.Version)
  deriving DecidableEq, Repr

/-- The versions under which integers can be encoded and decoded; what fits 62 bits is read
back. -/
class VarIntCode (V : Type) extends VarIntDecode V where
  /-- `VarInt::encode`. -/
  varInt : V → ℕ → Encode
  transfers_varInt : ∀ {version : V} {x : ℕ}, x < 2 ^ 62 →
    Transfers (varInt version x) (VarIntDecode.u64 version) x

/-- `VarInt::encode` under the lite versions. -/
def Lite.Version.varInt (_ : Lite.Version) : ℕ → Encode := Encode.quic

/-- `VarInt::encode` under the drafts. -/
def Ietf.Version.varInt (version : Ietf.Version) : ℕ → Encode :=
  match version with
  | .draft14 | .draft15 | .draft16 => Encode.quic
  | _ => Encode.leadingOnes

instance : VarIntCode Lite.Version where
  varInt := Lite.Version.varInt
  transfers_varInt := transfers_quic

theorem Ietf.Version.transfers_varInt {version : Ietf.Version} (hx : x < 2 ^ 62) :
    Transfers (version.varInt x) (VarIntDecode.u64 version) x := by
  have hx64 : x < 2 ^ 64 := lt_trans hx (by decide)
  cases version with
  | draft14 | draft15 | draft16 => exact transfers_quic hx
  | draft17 => exact transfers_leadingOnes .draft17 hx64
  | draft18 => exact transfers_leadingOnes .draft18 hx64

instance : VarIntCode Ietf.Version where
  varInt := Ietf.Version.varInt
  transfers_varInt := Ietf.Version.transfers_varInt

/-- `VarInt::decode` under any version. -/
def Version.u64 : Version → Decode ℕ
  | .lite version => VarIntDecode.u64 version
  | .ietf version => VarIntDecode.u64 version

/-- `VarInt::encode` under any version. -/
def Version.varInt : Version → ℕ → Encode
  | .lite version => version.varInt
  | .ietf version => version.varInt

variable {version : Version}

theorem Version.transfers_varInt (hx : x < 2 ^ 62) :
    Transfers (version.varInt x) version.u64 x := by
  cases version with
  | lite version => exact transfers_quic hx
  | ietf version => exact Ietf.Version.transfers_varInt hx

instance : VarIntCode Version where
  u64 := Version.u64
  varInt := Version.varInt
  transfers_varInt := Version.transfers_varInt

namespace Encode

variable {V : Type} [VarIntCode V] {version : V}

/-- `encode` of an integer of 64 bits; the bound is that of `VarInt::try_from`. -/
def u64 (version : V) (x : ℕ) : Encode :=
  if x < 2 ^ 62 then VarIntCode.varInt version x else .error .boundsExceeded

/-- `encode` of an integer of 32 bits. -/
def u32 (version : V) (x : ℕ) : Encode := VarIntCode.varInt version x

theorem transfers_u64 {x : ℕ} (hx : x < 2 ^ 62) :
    Transfers (u64 version x) (VarIntDecode.u64 version) x := by
  rw [u64, if_pos hx]
  exact VarIntCode.transfers_varInt hx

/-- Integers that fit 62 bits are those that can be encoded. -/
theorem u64_eq_ok_iff {x : ℕ} : (∃ puts, u64 version x = .ok puts) ↔ x < 2 ^ 62 := by
  constructor
  · rintro ⟨puts, h⟩
    rw [u64] at h
    split_ifs at h with hx
    exact hx
  · intro hx
    have htransfers : Transfers (u64 version x) (Decode.u64 version) x := transfers_u64 hx
    obtain ⟨puts, hputs, -⟩ := htransfers
    exact ⟨puts, hputs⟩

end Encode

/-- `decode` of an integer of 32 bits. -/
def Decode.u32 {V : Type} [VarIntDecode V] (version : V) : Decode ℕ := do
  let x ← VarIntDecode.u64 version
  if x < 2 ^ 32 then pure x else Decode.fail .boundsExceeded

/-- The draft has leading ones. -/
def Ietf.Version.usesLeadingOnes : Ietf.Version → Bool
  | .draft14 | .draft15 | .draft16 => false
  | _ => true

/-- The version has leading ones. -/
def Version.usesLeadingOnes : Version → Bool
  | .lite _ => false
  | .ietf version => version.usesLeadingOnes

/-- The coders of a version are those of QUIC or those of leading ones. -/
theorem Version.coders (version : Version) :
    version.usesLeadingOnes = false ∧ version.u64 = Decode.quic ∧ version.varInt = Encode.quic ∨
      ∃ draft, version.usesLeadingOnes = true ∧ version.u64 = Decode.leadingOnesVarInt draft ∧
        version.varInt = Encode.leadingOnes := by
  cases version with
  | lite version => exact .inl ⟨rfl, rfl, rfl⟩
  | ietf version =>
    cases version with
    | draft14 | draft15 | draft16 => exact .inl ⟨rfl, rfl, rfl⟩
    | draft17 => exact .inr ⟨.draft17, rfl, rfl, rfl⟩
    | draft18 => exact .inr ⟨.draft18, rfl, rfl, rfl⟩

theorem Version.blind_u64 (version : Version) : version.u64.Blind := by
  rcases version.coders with ⟨-, h, -⟩ | ⟨draft, -, h, -⟩ <;> rw [h]
  · exact blind_quic
  · exact blind_leadingOnesVarInt draft

/-! ### The shortest form -/

variable {puts : List Put}

theorem Encode.counted_quic (h : Encode.quic x = .ok puts)
    (hn : n = 0 ∨ n = 1 ∨ n = 3 ∨ n = 7) (hx : x < 64 * 256 ^ n) :
    Put.counted puts ≤ n + 1 ∧ Put.counted puts ≠ 7 := by
  rw [Encode.quic] at h
  split_ifs at h <;> cases h <;> simp only [Put.counted, map, Put.size, sum_cons,
    sum_nil] <;> rcases hn with rfl | rfl | rfl | rfl <;> omega

theorem Encode.counted_leadingOnes (h : Encode.leadingOnes x = .ok puts) (hn : n ≤ 8)
    (hx : x < 2 ^ (7 - n) * 256 ^ n) :
    (n = 6 ∨ Put.counted puts ≤ n + 1) ∧ Put.counted puts ≠ 7 := by
  have hn : n = 0 ∨ n = 1 ∨ n = 2 ∨ n = 3 ∨ n = 4 ∨ n = 5 ∨ n = 6 ∨ n = 7 ∨ n = 8 := by omega
  rw [Encode.leadingOnes] at h
  split_ifs at h <;> cases h <;> simp only [Put.counted, map, Put.size, sum_cons,
    sum_nil] <;> rcases hn with rfl | rfl | rfl | rfl | rfl | rfl | rfl | rfl | rfl <;> omega

variable {buf : List UInt8} {rest : List UInt8}

/-- Nothing that is read as the same integer is shorter than its encoding, except in seven bytes
behind leading ones. -/
theorem Version.counted_le (h : version.varInt x = .ok puts)
    (hrun : version.u64.run buf = .ok (x, rest)) :
    (Put.counted puts + rest.length ≤ buf.length ∨
      version.usesLeadingOnes = true ∧ buf.length = 7 + rest.length) ∧ Put.counted puts ≠ 7 := by
  rcases version.coders with ⟨-, hdecode, hencode⟩ | ⟨_, hones, hdecode, hencode⟩
  · rw [hdecode] at hrun
    rw [hencode] at h
    obtain ⟨n, hn, hlen, hx⟩ := quic_ok hrun
    obtain ⟨hle, hne⟩ := Encode.counted_quic h hn hx
    exact ⟨.inl (by omega), hne⟩
  · rw [hdecode] at hrun
    rw [hencode] at h
    obtain ⟨_, hn, hlen, hx⟩ := leadingOnesVarInt_ok hrun
    obtain ⟨hle, hne⟩ := Encode.counted_leadingOnes h hn hx
    refine ⟨?_, hne⟩
    rcases hle with rfl | hle
    · exact .inr ⟨hones, hlen⟩
    · exact .inl (by omega)

/-! ### More than 62 bits -/

/-- The longest form, with one of the two top bits. -/
def oversized : List UInt8 → Bool
  | b :: top :: buf => b == 0xff && 0x40 ≤ top && 7 ≤ buf.length
  | _ => false

/-- In eight bytes, an integer fits 62 bits exactly if the first is small. -/
theorem ofBytes_lt_iff {top : UInt8} (hlen : buf.length = 7) :
    ofBytes (0 :: top :: buf) < 2 ^ 62 ↔ top < 0x40 := by
  have hlt := ofBytes_lt buf
  rw [hlen] at hlt
  rw [ofBytes, ofBytes, hlen, UInt8.toNat_zero, zero_mul, zero_add, UInt8.lt_iff_toNat_lt,
    show (0x40 : UInt8).toNat = 64 from rfl]
  omega

/-- Behind leading ones, an integer fits 62 bits unless it is in the longest form with one of the
top bits. -/
theorem Decode.leadingOnesVarInt_lt_iff {version : Ietf.Version}
    (h : (leadingOnesVarInt version).run buf = .ok (x, rest)) :
    x < 2 ^ 62 ↔ ¬ oversized buf = true := by
  cases buf with
  | nil => cases h
  | cons b buf =>
    obtain ⟨_, htail, hhi, hzero⟩ := leadingOnesVarInt_tail h
    obtain ⟨hlen, hx, hlt⟩ := tail_ok htail
    by_cases h8 : leadingOnes b = 8
    · rw [h8] at hlen hx
      obtain rfl := hzero h8
      obtain rfl := leadingOnes_eq_eight h8
      cases buf with
      | nil => exact absurd hlen (by rw [length_nil]; omega)
      | cons top buf =>
        rw [length_cons] at hlen
        have htake : (buf.take 7).length = 7 := by rw [length_take]; omega
        have hlong : 7 ≤ buf.length := by omega
        rw [hx, take_succ_cons, ofBytes_lt_iff htake]
        simp [oversized, hlong]
    · have hle := leadingOnes_le b
      have hne : b ≠ 0xff := by
        rintro rfl
        exact h8 rfl
      have hsmall : x < 2 ^ 62 := by
        refine lt_of_lt_of_le hlt (le_trans (mul_le_mul_right _ hhi) ?_)
        generalize leadingOnes b = n at hle h8
        have hn : n = 0 ∨ n = 1 ∨ n = 2 ∨ n = 3 ∨ n = 4 ∨ n = 5 ∨ n = 6 ∨ n = 7 := by omega
        rcases hn with rfl | rfl | rfl | rfl | rfl | rfl | rfl | rfl <;> decide
      refine iff_of_true hsmall ?_
      cases buf <;> simp [oversized, hne]

theorem Version.lt_iff (h : version.u64.run buf = .ok (x, rest)) :
    x < 2 ^ 62 ↔ ¬ (version.usesLeadingOnes = true ∧ oversized buf = true) := by
  rcases version.coders with ⟨hones, hdecode, -⟩ | ⟨_, hones, hdecode, -⟩
  · rw [hdecode] at h
    obtain ⟨_, hn, -, _⟩ := quic_ok h
    refine iff_of_true ?_ (by simp [hones])
    rcases hn with rfl | rfl | rfl | rfl <;> omega
  · rw [hdecode] at h
    rw [leadingOnesVarInt_lt_iff h, hones, eq_self_iff_true, true_and]

/-- The longest form is always accepted. -/
theorem Decode.run_oversized (version : Ietf.Version) (h : oversized buf = true) :
    ∃ x rest, (leadingOnesVarInt version).run buf = .ok (x, rest) := by
  rcases buf with _ | ⟨_, _ | ⟨top, buf⟩⟩
  · cases h
  · cases h
  · simp only [oversized, Bool.and_eq_true, beq_iff_eq, decide_eq_true_eq] at h
    obtain ⟨⟨rfl, -⟩, _⟩ := h
    refine ⟨ofBytes (0 :: (top :: buf).take 8), (top :: buf).drop 8, ?_⟩
    rw [leadingOnesVarInt, run_u8_bind]
    exact if_neg (by simp; omega)

/-- **The coding of integers** under any version: what fits 62 bits is encoded, and read back
whatever follows; a part of an encoding is too short; no form of the same integer is shorter, except
that of seven bytes, which is never written. What is decoded can be encoded again exactly if it is
not in the longest form with one of the two top bits. -/
theorem varInt_codec (version : Version) :
    (∀ x < 2 ^ 62, ∃ puts, Encode.u64 version x = .ok puts ∧
      (∀ rest, version.u64.run (Put.written puts ++ rest) = .ok (x, rest)) ∧
      (∀ part extra, part ++ extra = Put.written puts → extra ≠ [] →
        version.u64.run part = .error .short) ∧
      (Put.written puts).length ≠ 7 ∧
      ∀ buf rest, version.u64.run buf = .ok (x, rest) →
        (Put.written puts).length + rest.length ≤ buf.length ∨
          version.usesLeadingOnes = true ∧ buf.length = 7 + rest.length) ∧
    (∀ x < 2 ^ 32, Transfers (Encode.u32 version x) (Decode.u32 version) x) ∧
    ∀ buf,
      (∀ x rest, version.u64.run buf = .ok (x, rest) →
        Transfers (Encode.u64 version x) version.u64 x) ↔
      ¬ (version.usesLeadingOnes = true ∧ oversized buf = true) := by
  refine ⟨fun x hx => ?_, fun x hx => ?_, fun buf => ⟨?_, ?_⟩⟩
  · have htransfers : Transfers (Encode.u64 version x) version.u64 x := Encode.transfers_u64 hx
    obtain ⟨puts, hputs, hreads⟩ := htransfers
    have hvarInt : version.varInt x = .ok puts := by rwa [Encode.u64, if_pos hx] at hputs
    refine ⟨puts, hputs, hreads, fun part extra heq hextra =>
      hreads.run_part version.blind_u64 heq hextra, ?_, fun buf rest hrun => ?_⟩
    · rw [← Put.counted_eq]
      exact (Version.counted_le hvarInt hreads.run).2
    · rw [← Put.counted_eq]
      exact (Version.counted_le hvarInt hrun).1
  · have hvarInt := version.transfers_varInt (lt_trans hx (by decide))
    exact hvarInt.then_pure (if_pos hx)
  · rintro hall ⟨hones, hbuf⟩
    rcases version.coders with ⟨hnone, -, -⟩ | ⟨draft, -, hdecode, -⟩
    · rw [hnone] at hones
      cases hones
    · obtain ⟨x, rest, hrun⟩ := run_oversized draft hbuf
      rw [← hdecode] at hrun
      obtain ⟨puts, hputs, -⟩ := hall x rest hrun
      exact (Version.lt_iff hrun).mp (Encode.u64_eq_ok_iff.mp ⟨puts, hputs⟩) ⟨hones, hbuf⟩
  · intro hbuf x rest hrun
    exact Encode.transfers_u64 ((Version.lt_iff hrun).mpr hbuf)

/-- An integer that draft 18 decodes and cannot encode. -/
theorem decoded_not_encodable :
    (Version.ietf .draft18).u64.run [0xff, 0x40, 0, 0, 0, 0, 0, 0, 0] = .ok (2 ^ 62, []) ∧
      Encode.u64 (Version.ietf .draft18) (2 ^ 62) = .error .boundsExceeded :=
  ⟨rfl, rfl⟩

end HermitMoq
