import HermitMoq.Coding
import HermitMoq.Parser
import HermitMoq.Route

/-!
# Decoders of Fields

The `Decode` implementations of `moq-net/src/coding` and of the values that messages consist
of, as parsers. A version tells how variable-length integers are written: as in QUIC, with two
bits for the width, or from draft 17 on with as many leading ones as further bytes. Everything
else is generic in the version.
-/

namespace HermitMoq

open BigEndian

/-- The error that asks for more data. -/
def DecodeError.isShort : DecodeError → Bool
  | .short => true
  | _ => false

theorem DecodeError.long_ne_short : DecodeError.long ≠ .short := by decide

/-- A decoder of a value. -/
abbrev Decode := Parser DecodeError.short

namespace Lite

/-- A version of the lite protocol. -/
inductive Version
  | lite01
  | lite02
  | lite03
  | lite04
  | lite05Wip
  deriving DecidableEq, Repr

end Lite

namespace Ietf

/-- An IETF draft. -/
inductive Version
  | draft14
  | draft15
  | draft16
  | draft17
  | draft18
  deriving DecidableEq, Repr

end Ietf

namespace Decode

variable {α : Type}

/-- Fail with an error other than `short`. -/
def fail (e : DecodeError) (h : e.isShort = false := by exact Eq.refl false) : Decode α :=
  Parser.fail e fun hshort => by cases hshort; cases h

/-- The number of bytes left. -/
def remaining : Decode ℕ := Parser.remaining pure

/-- `decode` of a byte. -/
def u8 : Decode UInt8 := Parser.read 1 fun bytes => pure (bytes.headD 0)

/-- `decode` of a 16-bit integer. -/
def u16 : Decode ℕ := Parser.read 2 fun bytes => pure (ofBytes bytes)

/-- `decode` of a Boolean. -/
def bool : Decode Bool := do
  match ← u8 with
  | 0 => pure false
  | 1 => pure true
  | _ => fail .invalidValue

/-! ### Integers -/

/-- `n` further bytes of an integer that starts with the bits `hi`. -/
def tail (hi : UInt8) (n : ℕ) : Decode ℕ := Parser.read n fun bytes => pure (ofBytes (hi :: bytes))

/-- `VarInt::decode_quic`. -/
def quic : Decode ℕ := do
  let b ← u8
  match b >>> 6 with
  | 0 => tail (b &&& 0x3f) 0
  | 1 => tail (b &&& 0x3f) 1
  | 2 => tail (b &&& 0x3f) 3
  | _ => tail (b &&& 0x3f) 7

/-- `u8::leading_ones`. -/
def leadingOnes (b : UInt8) : ℕ :=
  if b < 0x80 then 0
  else if b < 0xc0 then 1
  else if b < 0xe0 then 2
  else if b < 0xf0 then 3
  else if b < 0xf8 then 4
  else if b < 0xfc then 5
  else if b < 0xfe then 6
  else if b < 0xff then 7
  else 8

/-- `VarInt::decode_leading_ones`. -/
def leadingOnesVarInt (version : Ietf.Version) : Decode ℕ := do
  let b ← u8
  match leadingOnes b with
  | 0 => pure b.toNat
  | 1 => tail (b &&& 0x3f) 1
  | 2 => tail (b &&& 0x1f) 2
  | 3 => tail (b &&& 0x0f) 3
  | 4 => tail (b &&& 0x07) 4
  | 5 => tail (b &&& 0x03) 5
  | 6 => if version = .draft17 then fail .invalidValue else tail (b &&& 0x01) 6
  | 7 => tail 0 7
  | _ => tail 0 8

end Decode

/-- The versions under which integers can be decoded. -/
class VarIntDecode (V : Type) where
  /-- `VarInt::decode`, and so `u64::decode` and `usize::decode`. -/
  u64 : V → Decode ℕ

instance : VarIntDecode Lite.Version where
  u64 _ := Decode.quic

instance : VarIntDecode Ietf.Version where
  u64 version :=
    match version with
    | .draft14 | .draft15 | .draft16 => Decode.quic
    | _ => Decode.leadingOnesVarInt version

namespace Decode

variable {α V : Type} [VarIntDecode V]

export VarIntDecode (u64)

/-! ### Strings, options and lists -/

/-- `decode` of a vector of bytes. -/
def bytes (version : V) : Decode (List UInt8) := do
  let size ← u64 version
  Parser.read size pure

/-- `decode` of a string. -/
def string (version : V) : Decode (List Char) := do
  match fromUtf8 (← bytes version) with
  | some cs => pure cs
  | none => fail .invalidString

/-- `decode` of an optional integer: zero stands for none. -/
def optionU64 (version : V) : Decode (Option ℕ) := do
  match ← u64 version with
  | 0 => pure none
  | value + 1 => pure (some value)

/-- `decode` of a duration, in milliseconds. -/
def duration (version : V) : Decode ℕ := u64 version

/-- `decode` of a path. -/
def path (version : V) : Decode Path := Path.new <$> string version

/-- A number of values, one after another. -/
def times (p : Decode α) : (n : ℕ) → Decode {l : List α // l.length = n}
  | 0 => pure ⟨[], rfl⟩
  | n + 1 => do
    let a ← p
    let ⟨l, hl⟩ ← times p n
    pure ⟨a :: l, by rw [List.length_cons, hl]⟩

/-- `decode` of an origin. -/
def origin (version : V) : Decode Origin := do
  let id ← u64 version
  if id ≥ 2 ^ 62 then fail .invalidValue else pure ⟨.ofNat id⟩

/-- `decode` of a hop chain. -/
def originList (version : V) : Decode OriginList := do
  let count ← u64 version
  if h : count > maxHops then fail .boundsExceeded
  else do
    let ⟨list, hlist⟩ ← times (origin version) count
    pure ⟨list, by omega⟩

/-! ### The sizes of messages -/

omit [VarIntDecode V] in
theorem blind_tail (hi : UInt8) (n : ℕ) : (tail hi n).Blind := fun _ => trivial

theorem blind_quic : quic.Blind := by
  refine Parser.Blind.bind (fun _ => trivial) fun b => ?_
  split <;> exact blind_tail _ _

/-- The parser of QUIC integers is their decoder. -/
theorem run_quic (buf : List UInt8) : quic.run buf = decodeVarInt buf := by
  cases buf with
  | nil => rfl
  | cons b rest =>
    have hu8 : u8.run (b :: rest) = .ok (b, rest) := rfl
    rw [quic, show (u8 >>= _) = Parser.bind u8 _ from rfl, Parser.run_bind, hu8, decodeVarInt]
    have htail : ∀ n, (tail (b &&& 0x3f) n).run rest = decodeTail b n rest := fun _ => rfl
    dsimp only
    generalize b >>> 6 = tag
    split <;> simp_all

end Decode

end HermitMoq
