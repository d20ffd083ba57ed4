import HermitMoq.Numerals
import HermitMoq.BigEndian

/-!
# Codec Strings

`hang/src/catalog/video/{h265,av1,vp9}.rs`: how a catalog names the video codecs it uses. Each
codec is printed as fields between dots and parsed again by whoever reads the catalog. Texts are
lists of characters.

The pattern that AV1 strings are matched against comes from a library; its classes of digits and
word characters are Unicode's, of which only the ASCII part is fixed here (`CharClasses`).
-/

namespace HermitMoq

open Numeral

/-- The errors of `hang::Error` that parsing a codec can end with. -/
inductive CodecError where
  | invalidCodec
  | expectedInt
deriving DecidableEq, Repr

/-- `{:02}` and the like: a byte in decimal, with zeros before it up to a width. -/
def decimal (width : ℕ) (b : UInt8) : List Char :=
  (text 10 b.toNat).leftpad width '0'

/-- `{:X}`: a byte in hexadecimal. -/
def hex (b : UInt8) : List Char :=
  text 16 b.toNat

/-- `u8::from_str_radix`. -/
def parseU8 (radix : ℕ) (s : List Char) : Except CodecError UInt8 :=
  match parse radix (2 ^ 8) s with
  | some n => .ok (UInt8.ofNat n)
  | none => .error .expectedInt

/-- `u32::from_str_radix` and the little-endian bytes of the result. -/
def parseU32LE (radix : ℕ) (s : List Char) : Except CodecError (Vector UInt8 4) :=
  match parse radix (2 ^ 32) s with
  | some n => .ok ⟨(BigEndian.toBytes 4 n).reverse.toArray, by simp⟩
  | none => .error .expectedInt

/-- The rest of a text after a fixed beginning. -/
def literal (l s : List Char) : Option (List Char) :=
  if l <+: s then some (s.drop l.length) else none

/-! ### H265 -/

/-- `H265`. -/
structure H265 where
  inBand : Bool
  profileSpace : UInt8
  profileIdc : UInt8
  profileCompatibilityFlags : Vector UInt8 4
  tierFlag : Bool
  levelIdc : UInt8
  constraintFlags : Vector UInt8 6
deriving DecidableEq, Repr

namespace H265

/-- The flags as one hexadecimal number, without the zero bytes before it. -/
def compatibility (flags : Vector UInt8 4) : List Char :=
  (flags.toList.reverse.dropWhile (· = 0)).flatMap hex

/-- How many bytes are left when the zero bytes at the end are not counted. -/
def significant (flags : List UInt8) : ℕ :=
  (flags.reverse.dropWhile (· = 0)).length

/-- The constraint bytes up to the last that is not zero, each after a dot. -/
def constraints (flags : Vector UInt8 6) : List Char :=
  if significant flags.toList = 0 then []
  else '.' :: ['.'].intercalate ((flags.toList.take (significant flags.toList)).map hex)

/-- The letter of a profile space: none for the first, `A` for the next. -/
def spaceText (n : UInt8) : List Char :=
  if n = 0 then [] else [Char.ofNat (min (65 + n.toNat) 255 - 1)]

/-- `Display for H265`. -/
def display (h : H265) : List Char :=
  (if h.inBand then ['h', 'e', 'v', '1'] else ['h', 'v', 'c', '1']) ++ '.' ::
    (spaceText h.profileSpace ++ decimal 0 h.profileIdc ++ '.' ::
      (compatibility h.profileCompatibilityFlags ++ '.' ::
        ((if h.tierFlag then 'H' else 'L') :: decimal 0 h.levelIdc ++
          constraints h.constraintFlags)))

/-- `parts.next().ok_or(Error::InvalidCodec)`. -/
def next : List (List Char) → Except CodecError (List Char × List (List Char))
  | [] => .error .invalidCodec
  | part :: parts => .ok (part, parts)

/-- Whether the first part names the codec with parameters in band. -/
def parseInBand (s : List Char) : Except CodecError Bool :=
  if s = ['h', 'e', 'v', '1'] then .ok true
  else if s = ['h', 'v', 'c', '1'] then .ok false
  else .error .invalidCodec

/-- The profile space is a letter before the profile, if there is one. -/
def parseSpace : List Char → Except CodecError UInt8
  | [] => .error .invalidCodec
  | c :: _ => .ok (if 'A' ≤ c ∧ c ≤ 'Z' then UInt8.ofNat (1 + c.toNat - 65) else 0)

/-- The tier is the letter before the level. -/
def parseTier (s : List Char) : Except CodecError Bool :=
  if s.head? = some 'H' then .ok true
  else if s.head? = some 'L' then .ok false
  else .error .invalidCodec

/-- The loop over the parts from the fifth on: empty ones count, but leave their byte alone. -/
def parseConstraints : ℕ → List (List Char) → Vector UInt8 6 → Except CodecError (Vector UInt8 6)
  | _, [], flags => .ok flags
  | i, part :: parts, flags =>
    if part = [] then parseConstraints (i + 1) parts flags
    else if h : i < 6 then do
      let b ← parseU8 16 part
      parseConstraints (i + 1) parts (flags.set i b h)
    else .error .invalidCodec

/-- `FromStr for H265`. -/
def fromStr (s : List Char) : Except CodecError H265 := do
  let (fourcc, parts) ← next (s.splitOn '.')
  let inBand ← parseInBand fourcc
  let (profile, parts) ← next parts
  let profileSpace ← parseSpace profile
  let profileIdc ← parseU8 10 (if 0 < profileSpace then profile.drop 1 else profile)
  let (compatibility, parts) ← next parts
  let profileCompatibilityFlags ← parseU32LE 16 compatibility
  let (level, parts) ← next parts
  let tierFlag ← parseTier level
  let levelIdc ← parseU8 10 (level.drop 1)
  let constraintFlags ← parseConstraints 0 parts (Vector.replicate 6 0)
  return { inBand, profileSpace, profileIdc, profileCompatibilityFlags, tierFlag, levelIdc,
           constraintFlags }

end H265

/-! ### AV1 -/

/-- `AV1`. -/
structure AV1 where
  profile : UInt8
  level : UInt8
  tier : Char
  bitdepth : UInt8
  monoChrome : Bool
  chromaSubsamplingX : Bool
  chromaSubsamplingY : Bool
  chromaSamplePosition : UInt8
  colorPrimaries : UInt8
  transferCharacteristics : UInt8
  matrixCoefficients : UInt8
  fullRange : Bool
deriving DecidableEq, Repr

/-- The classes `\d` and `\w` of regular expressions, as far as ASCII fixes them. -/
structure CharClasses where
  digit : Char → Bool
  word : Char → Bool
  digit_digitChar : ∀ d < 10, digit (digitChar d) = true
  word_upper : ∀ c : Char, 'A' ≤ c → c ≤ 'Z' → word c = true

/-- The classes when only ASCII counts. -/
def CharClasses.ascii : CharClasses where
  digit c := c.isDigit
  word c := decide ('A' ≤ c ∧ c ≤ 'Z') || decide ('a' ≤ c ∧ c ≤ 'z') || c.isDigit || c == '_'
  digit_digitChar := by decide
  word_upper c hA hZ := by simp [hA, hZ]

namespace AV1

/-- `AV1::default`. -/
def default : AV1 where
  profile := 0
  level := 0
  tier := 'M'
  bitdepth := 8
  monoChrome := false
  chromaSubsamplingX := true
  chromaSubsamplingY := true
  chromaSamplePosition := 0
  colorPrimaries := 1
  transferCharacteristics := 1
  matrixCoefficients := 1
  fullRange := false

/-- The value with the fields that are not always printed as they are by default. -/
def short (a : AV1) : AV1 :=
  { default with profile := a.profile, level := a.level, tier := a.tier, bitdepth := a.bitdepth }

/-- The fields that are not always printed. -/
def extraText (a : AV1) : List Char :=
  '.' :: decimal 1 a.monoChrome.toUInt8 ++ '.' ::
    (decimal 0 a.chromaSubsamplingX.toUInt8 ++ decimal 0 a.chromaSubsamplingY.toUInt8 ++
      decimal 0 a.chromaSamplePosition ++ '.' ::
    (decimal 2 a.colorPrimaries ++ '.' ::
    (decimal 2 a.transferCharacteristics ++ '.' ::
    (decimal 2 a.matrixCoefficients ++ '.' :: decimal 1 a.fullRange.toUInt8))))

/-- `Display for AV1`. -/
def display (a : AV1) : List Char :=
  ['a', 'v', '0', '1', '.'] ++ (decimal 1 a.profile ++ '.' ::
    (decimal 2 a.level ++ a.tier :: '.' ::
      (decimal 2 a.bitdepth ++ if a = a.short then [] else a.extraText)))

/-- The group `extra` of `AV1_REGEX`. -/
structure Extra where
  mono : List Char
  chromaSubsamplingX : List Char
  chromaSubsamplingY : List Char
  chromaSamplePosition : List Char
  color : List Char
  transfer : List Char
  matrix : List Char
  full : List Char

/-- The groups of `AV1_REGEX`. -/
structure Captures where
  profile : List Char
  level : List Char
  tier : List Char
  bitdepth : List Char
  extra : Option Extra

/-- A group of fixed width at the beginning of a text: one character of each class. -/
def group : List (Char → Bool) → List Char → Option (List Char × List Char)
  | [], s => some ([], s)
  | _ :: _, [] => none
  | p :: ps, c :: s => if p c then (group ps s).map (Prod.map (c :: ·) id) else none

/-- The class of the characters from one to another. -/
def range (lo hi c : Char) : Bool :=
  decide (lo ≤ c ∧ c ≤ hi)

/-- The group `extra` of `AV1_REGEX`, up to the end of the text. -/
def captureExtra (k : CharClasses) (s : List Char) : Option Extra := do
  let (mono, s) ← group [k.digit] (← literal ['.'] s)
  let (chromaSubsamplingX, s) ← group [range '0' '1'] (← literal ['.'] s)
  let (chromaSubsamplingY, s) ← group [range '0' '1'] s
  let (chromaSamplePosition, s) ← group [range '0' '3'] s
  let (color, s) ← group [k.digit, k.digit] (← literal ['.'] s)
  let (transfer, s) ← group [k.digit, k.digit] (← literal ['.'] s)
  let (matrix, s) ← group [k.digit, k.digit] (← literal ['.'] s)
  let (full, s) ← group [range '0' '1'] (← literal ['.'] s)
  if s = [] then
    return { mono, chromaSubsamplingX, chromaSubsamplingY, chromaSamplePosition, color, transfer,
             matrix, full }
  else none

/-- `AV1_REGEX.captures`. -/
def captures (k : CharClasses) (s : List Char) : Option Captures := do
  let (profile, s) ← group [range '0' '1'] (← literal ['a', 'v', '0', '1', '.'] s)
  let (level, s) ← group [k.digit, k.digit] (← literal ['.'] s)
  let (tier, s) ← group [k.word] s
  let (bitdepth, s) ← group [k.digit, k.digit] (← literal ['.'] s)
  if s = [] then return { profile, level, tier, bitdepth, extra := none }
  else return { profile, level, tier, bitdepth, extra := some (← captureExtra k s) }

/-- The fields that are not always printed, from their captures. -/
def withExtra (a : AV1) (e : Extra) : Except CodecError AV1 := do
  let chromaSamplePosition ← parseU8 10 e.chromaSamplePosition
  let colorPrimaries ← parseU8 10 e.color
  let transferCharacteristics ← parseU8 10 e.transfer
  let matrixCoefficients ← parseU8 10 e.matrix
  return { a with
    monoChrome := e.mono = ['1'],
    chromaSubsamplingX := e.chromaSubsamplingX = ['1'],
    chromaSubsamplingY := e.chromaSubsamplingY = ['1'],
    chromaSamplePosition, colorPrimaries, transferCharacteristics, matrixCoefficients,
    fullRange := e.full = ['1'] }

/-- `FromStr for AV1`. -/
def fromStr (k : CharClasses) (s : List Char) : Except CodecError AV1 :=
  match captures k s with
  | none => .error .invalidCodec
  | some c => do
    let profile ← parseU8 10 c.profile
    let level ← parseU8 10 c.level
    let bitdepth ← parseU8 10 c.bitdepth
    let av1 := { default with profile, level, tier := c.tier.headD 'M', bitdepth }
    match c.extra with
    | none => return av1
    | some e => av1.withExtra e

end AV1

/-! ### VP9 -/

/-- `VP9`. -/
structure VP9 where
  profile : UInt8
  level : UInt8
  bitDepth : UInt8
  chromaSubsampling : UInt8
  colorPrimaries : UInt8
  transferCharacteristics : UInt8
  matrixCoefficients : UInt8
  fullRange : Bool
deriving DecidableEq, Repr

namespace VP9

/-- `VP9::default`. -/
def default : VP9 where
  profile := 0
  level := 0
  bitDepth := 0
  chromaSubsampling := 1
  colorPrimaries := 1
  transferCharacteristics := 1
  matrixCoefficients := 1
  fullRange := false

/-- The value with the fields that are not always printed as they are by default. -/
def short (v : VP9) : VP9 :=
  { default with profile := v.profile, level := v.level, bitDepth := v.bitDepth }

/-- The fields that are not always printed. -/
def extraText (v : VP9) : List Char :=
  '.' :: decimal 2 v.chromaSubsampling ++ '.' ::
    (decimal 2 v.colorPrimaries ++ '.' ::
    (decimal 2 v.transferCharacteristics ++ '.' ::
    (decimal 2 v.matrixCoefficients ++ '.' :: decimal 2 v.fullRange.toUInt8)))

/-- `Display for VP9`. -/
def display (v : VP9) : List Char :=
  ['v', 'p', '0', '9', '.'] ++ (decimal 2 v.profile ++ '.' ::
    (decimal 2 v.level ++ '.' ::
      (decimal 2 v.bitDepth ++ if v = v.short then [] else v.extraText)))

/-- The value of the numbers between the dots. -/
def ofParts : List UInt8 → Except CodecError VP9
  | [profile, level, bitDepth] => .ok { default with profile, level, bitDepth }
  | [profile, level, bitDepth, chromaSubsampling, colorPrimaries, transferCharacteristics,
      matrixCoefficients, fullRange] =>
    .ok { profile, level, bitDepth, chromaSubsampling, colorPrimaries, transferCharacteristics,
          matrixCoefficients, fullRange := fullRange = 1 }
  | _ => .error .invalidCodec

/-- `FromStr for VP9`. -/
def fromStr (s : List Char) : Except CodecError VP9 :=
  match literal ['v', 'p', '0', '9', '.'] s with
  | none => .error .invalidCodec
  | some rest => do ofParts (← (rest.splitOn '.').mapM (parseU8 10))

end VP9

end HermitMoq
