import HermitMoq.VarInt

/-!
# Encoders of Fields

The `Encode` implementations of `moq-net/src/coding` and of the values that messages consist of,
each with the condition under which the decoder of `HermitMoq.Decode` reads it back.
-/

namespace HermitMoq

namespace Encode

variable {V : Type} [VarIntCode V] {version : V} {bs : List UInt8} {cs : List Char}

/-- `encode` of a byte. -/
def u8 (b : UInt8) : Encode := .ok [.uint 1 b.toNat]

/-- `encode` of a Boolean. -/
def bool (b : Bool) : Encode := .ok [.uint 1 b.toNat]

/-- `encode` of a vector of bytes. -/
def bytes (version : V) (bs : List UInt8) : Encode :=
  .seq [u64 version bs.length, .ok [.slice bs]]

/-- `encode` of a string. -/
def string (version : V) (cs : List Char) : Encode := bytes version (utf8 cs)

/-- `encode` of an optional integer: zero stands for none. -/
def optionU64 (version : V) : Option ℕ → Encode
  | some value => if value + 1 < 2 ^ 64 then u64 version (value + 1) else .error .tooLarge
  | none => u64 version 0

/-- `encode` of a duration, given by its milliseconds and the nanoseconds beyond them: they are
dropped by `as_millis`. -/
def duration (version : V) (millis : ℕ) (nanos : Fin 1000000) : Encode :=
  u64 version ((millis * 1000000 + nanos) / 1000000)

/-- `encode` of a path. -/
def path (version : V) (p : Path) : Encode := string version p.chars

/-- `encode` of an origin. -/
def origin (version : V) (o : Origin) : Encode := u64 version o.id.toNat

/-- `encode` of a hop chain. -/
def originList (version : V) (hops : OriginList) : Encode :=
  .seq (u64 version hops.list.length :: hops.list.map (origin version))

/-! ### Round trips -/

/-- A byte is read back. -/
theorem transfers_u8 (b : UInt8) : Transfers (u8 b) Decode.u8 b := by
  refine ⟨_, rfl, ?_⟩
  have hbytes : Put.written [.uint 1 b.toNat] = [b] := by simp [Put.bytes, BigEndian.toBytes]
  rw [hbytes]
  exact Decode.reads_u8 b

/-- A small byte is written as the integer. -/
theorem u8_eq_u64 (version : Ietf.Version) {b : UInt8} (hb : b.toNat < 2 ^ 6) :
    u8 b = u64 version b.toNat := by
  rw [u64, if_pos (Nat.lt_trans hb (by decide))]
  cases version with
  | draft14 | draft15 | draft16 => exact (if_pos hb).symm
  | draft17 | draft18 => exact (if_pos (Nat.lt_trans hb (by decide))).symm

/-- A flag is read back. -/
theorem transfers_bool (b : Bool) : Transfers (bool b) Decode.bool b := by
  cases b with
  | false => exact (transfers_u8 0).then_pure rfl
  | true => exact (transfers_u8 1).then_pure rfl

/-- Bytes are read back, if their number can be written. -/
theorem transfers_bytes (hlen : bs.length < 2 ^ 62) :
    Transfers (bytes version bs) (Decode.bytes version) bs := by
  have hslice : Transfers (.ok [.slice bs] : Encode) (Parser.read bs.length pure : Decode _) bs :=
    ⟨_, rfl, by simpa [Put.bytes] using Parser.reads_read rfl (Parser.reads_pure bs)⟩
  exact (transfers_u64 hlen).cons hslice.single

/-- A string is read back, if its size can be written. -/
theorem transfers_string (hlen : (utf8 cs).length < 2 ^ 62) :
    Transfers (string version cs) (Decode.string version) cs :=
  (transfers_bytes hlen).then_pure (by rw [fromUtf8_utf8])

/-- An optional number is read back, if it can be written plus one. -/
theorem transfers_optionU64 {value : Option ℕ} (hvalue : ∀ v ∈ value, v + 1 < 2 ^ 62) :
    Transfers (optionU64 version value) (Decode.optionU64 version) value := by
  cases value with
  | none => exact (transfers_u64 (by decide)).then_pure rfl
  | some v =>
    have hlt := hvalue v rfl
    rw [optionU64, if_pos (Nat.lt_trans hlt (by decide))]
    exact (transfers_u64 hlt).then_pure rfl

/-- A duration is read back in whole milliseconds. -/
theorem transfers_duration {millis : ℕ} (hlt : millis < 2 ^ 62) (nanos : Fin 1000000) :
    Transfers (duration version millis nanos) (Decode.duration version) millis := by
  have hmillis : (millis * 1000000 + nanos) / 1000000 = millis := by omega
  rw [duration, hmillis]
  exact transfers_u64 hlt

/-- A path is read back as it is, since it is normal. -/
theorem transfers_path {p : Path} (hlen : (utf8 p.chars).length < 2 ^ 62) :
    Transfers (path version p) (Decode.path version) p := by
  have hstring : Transfers (path version p) (Decode.string version) p.chars :=
    transfers_string hlen
  have := hstring.map Path.new
  rwa [Path.new_chars] at this

/-- A list of values, one after another. -/
theorem transfers_times {α : Type} {encode : α → Encode} {decode : Decode α} {l : List α}
    (hl : ∀ a ∈ l, Transfers (encode a) decode a) :
    Transfers (.seq (l.map encode)) (Decode.times decode l.length) ⟨l, rfl⟩ := by
  induction l with
  | nil => exact .nil _
  | cons a l ih =>
    have hothers := ih fun b hb => hl b (List.mem_cons_of_mem a hb)
    exact (hl a List.mem_cons_self).cons (hothers.then_pure rfl)

/-- An origin is read back, if its id can be written. -/
theorem transfers_origin {o : Origin} (hid : o.id.toNat < 2 ^ 62) :
    Transfers (origin version o) (Decode.origin version) o := by
  refine (transfers_u64 hid).then_pure ?_
  rw [if_neg (Nat.not_le.mpr hid)]
  simp

/-- A list of hops is read back, if the ids can be written. -/
theorem transfers_originList {hops : OriginList} (hids : ∀ o ∈ hops.list, o.id.toNat < 2 ^ 62) :
    Transfers (originList version hops) (Decode.originList version) hops := by
  have hbound := hops.bound
  have horigin : ∀ o ∈ hops.list, Transfers (origin version o) (Decode.origin version) o :=
    fun o ho => transfers_origin (hids o ho)
  have hlen : hops.list.length < 2 ^ 62 := Nat.lt_of_le_of_lt hbound (by decide)
  refine (transfers_u64 hlen).cons ?_
  rw [dif_neg (Nat.not_lt.mpr hbound)]
  exact (transfers_times horigin).then_pure rfl

/-! ### Fields that need not fit -/

open Output

/-- Numbers of 62 bits can be written, and no others. -/
theorem succeeds_u64 {x : ℕ} : Succeeds (u64 version x) ↔ x < 2 ^ 62 := u64_eq_ok_iff

/-- Bytes can be written if and only if their number can. -/
theorem succeeds_bytes :
    Succeeds (bytes version bs) ↔ bs.length < 2 ^ 62 := by
  rw [bytes, succeeds_seq]
  simp [succeeds_u64, succeeds_ok]

section Codes

variable {fit : Prop}

/-- A number is read back, and written if it fits. -/
theorem codes_u64 {x : ℕ} (hx : fit → x < 2 ^ 62) (rest : List UInt8) :
    Codes fit (u64 version x) (Decode.u64 version) x rest :=
  .of_iff succeeds_u64 transfers_u64 hx rest

/-- A byte is written and read back. -/
theorem codes_u8 (b : UInt8) (rest : List UInt8) : Codes fit (u8 b) Decode.u8 b rest :=
  (transfers_u8 b).codes rest

/-- A flag is written and read back. -/
theorem codes_bool (b : Bool) (rest : List UInt8) : Codes fit (bool b) Decode.bool b rest :=
  (transfers_bool b).codes rest

/-- Bytes are read back, and written if they fit. -/
theorem codes_bytes (hlen : fit → bs.length < 2 ^ 62) (rest : List UInt8) :
    Codes fit (bytes version bs) (Decode.bytes version) bs rest :=
  .of_iff succeeds_bytes transfers_bytes hlen rest

/-- A string is read back, and written if it fits. -/
theorem codes_string (hlen : fit → (utf8 cs).length < 2 ^ 62)
    (rest : List UInt8) : Codes fit (string version cs) (Decode.string version) cs rest :=
  .of_iff succeeds_bytes transfers_string hlen rest

/-- A list of values, one after another. -/
theorem codes_times {α : Type} {encode : α → Encode} {decode : Decode α} (l : List α)
    (hall : ∀ a ∈ l, ∀ rest, Codes fit (encode a) decode a rest) (rest : List UInt8) :
    Codes fit (.seq (l.map encode)) (Decode.times decode l.length) ⟨l, rfl⟩ rest := by
  induction l with
  | nil => exact .nil _ rest
  | cons a l ih =>
    have hothers := ih fun b hb => hall b (List.mem_cons_of_mem a hb)
    exact .cons (hall a List.mem_cons_self) (hothers.then_pure rfl)

end Codes

end Encode

end HermitMoq
