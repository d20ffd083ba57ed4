import HermitMoq.VideoCodec

/-!
# Codec Strings Read Back

What parsing a printed VP9 or AV1 codec gives: the fields between the dots are read back one by
one, but the pattern for AV1 has no profile 2.
-/

namespace HermitMoq

open List UInt8

open Numeral BigEndian

/-! ### Bytes -/

variable (width : ℕ)

theorem parseU8_decimal (b : UInt8) : parseU8 10 (decimal width b) = .ok b := by
  rw [parseU8, decimal, parse_leftpad_text (by decide) (by decide) b.toNat_lt width]
  simp

variable (b : UInt8)

theorem hex_eq_leftpad : hex b = (text 16 b.toNat).leftpad 0 '0' := by
  rw [hex, leftpad, Nat.zero_sub, replicate_zero, nil_append]

theorem parseU8_hex : parseU8 16 (hex b) = .ok b := by
  rw [parseU8, hex_eq_leftpad, parse_leftpad_text (by decide) (by decide) b.toNat_lt 0]
  simp

theorem hex_ne_nil : hex b ≠ [] := by
  simp [hex, text, digitList_ne_nil]

theorem dot_notMem_decimal (b : UInt8) : '.' ∉ decimal width b := by
  intro hdot
  obtain ⟨_, hd, hchar⟩ := mem_leftpad_text (by decide) hdot
  exact (digitChar_ne (Nat.lt_trans hd (by decide))).1 hchar

theorem dot_notMem_hex : '.' ∉ hex b := by
  intro hdot
  rw [hex_eq_leftpad] at hdot
  obtain ⟨_, hd, hchar⟩ := mem_leftpad_text (by decide) hdot
  exact (digitChar_ne (Nat.lt_trans hd (by decide))).1 hchar

theorem literal_append (l s : List Char) : literal l (l ++ s) = some s := by
  rw [literal, if_pos (prefix_append l s), drop_left]

/-- Bytes between dots are read back. -/
theorem mapM_parseU8_decimal {bs : List UInt8} (hne : bs ≠ []) :
    ((['.'].intercalate (bs.map (decimal width))).splitOn '.').mapM (parseU8 10) = .ok bs := by
  have hdots : ∀ l ∈ bs.map (decimal width), '.' ∉ l := by
    intro l hl
    obtain ⟨b, _, rfl⟩ := mem_map.mp hl
    exact dot_notMem_decimal width b
  rw [splitOn_intercalate '.' hdots (by simpa using hne), mapM_map]
  clear hne hdots
  induction bs with
  | nil => rfl
  | cons b bs ih =>
    rw [mapM_cons, Function.comp_apply, parseU8_decimal, ih]
    rfl

/-! ### VP9 -/

namespace VP9

/-- The bytes that are not always printed. -/
def extraBytes (v : VP9) : List UInt8 :=
  [v.chromaSubsampling, v.colorPrimaries, v.transferCharacteristics, v.matrixCoefficients,
    v.fullRange.toUInt8]

/-- All fields, or all but those of the default, between dots. -/
theorem display_eq (v : VP9) :
    v.display = ['v', 'p', '0', '9', '.'] ++ ['.'].intercalate
      (([v.profile, v.level, v.bitDepth] ++ if v = v.short then [] else v.extraBytes).map
        (decimal 2)) := by
  rw [display]
  split_ifs with hshort
  · simp [intercalate]
  · simp [intercalate, extraText, extraBytes]

/-- Every value is read back. -/
theorem fromStr_display (v : VP9) : fromStr v.display = .ok v := by
  rw [fromStr, display_eq, literal_append]
  simp only [mapM_parseU8_decimal 2 (append_ne_nil_of_left_ne_nil (cons_ne_nil _ _) _)]
  split_ifs with hshort
  · exact congrArg Except.ok hshort.symm
  · obtain ⟨_, _, _, _, _, _, _, fullRange⟩ := v
    cases fullRange <;> rfl

end VP9

/-! ### AV1 -/

namespace AV1

/-- The values AV1 bitstreams can have, as far as they concern the codec string. -/
structure InRange (a : AV1) : Prop where
  profile : a.profile ≤ 2
  level : a.level < 32
  tier : a.tier = 'M' ∨ a.tier = 'H'
  bitdepth : a.bitdepth = 8 ∨ a.bitdepth = 10 ∨ a.bitdepth = 12
  chromaSamplePosition : a.chromaSamplePosition ≤ 3
  colorPrimaries : a.colorPrimaries < 100
  transferCharacteristics : a.transferCharacteristics < 100
  matrixCoefficients : a.matrixCoefficients < 100

variable (k : CharClasses)

/-- Characters of the right classes are a group. -/
theorem group_append {ps : List (Char → Bool)} {m : List Char}
    (h : List.Forall₂ (fun p c => p c = true) ps m) (s : List Char) :
    group ps (m ++ s) = some (m, s) := by
  induction h with
  | nil => rfl
  | cons hc _ ih => rw [cons_append, group, if_pos hc, ih, Option.map_some, Prod.map, id]

variable {width} {b}

theorem digit_decimal {c : Char} (hc : c ∈ decimal width b) : k.digit c = true := by
  obtain ⟨d, hd, rfl⟩ := mem_leftpad_text (by decide) hc
  exact k.digit_digitChar d hd

/-- A number below 100 fills a group of two digits. -/
theorem group_decimal_two (hb : b < 100) (s : List Char) :
    group [k.digit, k.digit] (decimal 2 b ++ s) = some (decimal 2 b, s) := by
  have hlength : (decimal 2 b).length = 2 :=
    length_leftpad_text (by decide) (by decide) (lt_iff_toNat_lt.mp hb)
  obtain ⟨c, d, heq⟩ := length_eq_two.mp hlength
  have hc : k.digit c = true := digit_decimal k (heq ▸ mem_cons_self)
  have hd : k.digit d = true := digit_decimal k (heq ▸ mem_cons_of_mem c mem_cons_self)
  rw [heq]
  exact group_append (.cons hc (.cons hd .nil)) s

section

variable (hwidth : width ≤ 1)

include hwidth

/-- A number below 10 is one digit. -/
theorem decimal_of_lt (hb : b < 10) :
    decimal width b = [digitChar b.toNat] := by
  have hlt : b.toNat < 10 := lt_iff_toNat_lt.mp hb
  rw [decimal, text, digitList_of_lt hlt, map_singleton, leftpad,
    length_singleton, Nat.sub_eq_zero_of_le hwidth]
  rfl

/-- One digit fills a group of one character that accepts it. -/
theorem group_decimal_one {p : Char → Bool} (hb : b < 10)
    (hp : p (digitChar b.toNat) = true) (s : List Char) :
    group [p] (decimal width b ++ s) = some (decimal width b, s) := by
  rw [decimal_of_lt hwidth hb]
  exact group_append (.cons hp .nil) s

theorem group_bit (b : Bool) (s : List Char) :
    group [range '0' '1'] (decimal width b.toUInt8 ++ s) = some (decimal width b.toUInt8, s) := by
  cases b with
  | false | true => exact group_decimal_one hwidth (by decide) (by decide) s

/-- A flag is read back from its digit. -/
theorem decimal_bit (b : Bool) :
    decide (decimal width b.toUInt8 = ['1']) = b := by
  cases b with
  | false | true => rw [decimal_of_lt hwidth (by decide)]; decide

end

/-- Go on with the result of a first step. -/
theorem bind_eq_some_of {α β : Type} {x : Option α} {a : α} {f : α → Option β} {b : β}
    (hx : x = some a) (hf : f a = some b) : (x >>= f) = some b :=
  Option.bind_eq_some_iff.mpr ⟨a, hx, hf⟩

theorem literal_dot (s : List Char) : literal ['.'] ('.' :: s) = some s :=
  literal_append ['.'] s

/-- The captures of the fields that are not always printed. -/
def extraCaptures (a : AV1) : Extra where
  mono := decimal 1 a.monoChrome.toUInt8
  chromaSubsamplingX := decimal 0 a.chromaSubsamplingX.toUInt8
  chromaSubsamplingY := decimal 0 a.chromaSubsamplingY.toUInt8
  chromaSamplePosition := decimal 0 a.chromaSamplePosition
  color := decimal 2 a.colorPrimaries
  transfer := decimal 2 a.transferCharacteristics
  matrix := decimal 2 a.matrixCoefficients
  full := decimal 1 a.fullRange.toUInt8

variable {a : AV1}

/-- The optional part of an AV1 string is captured as it was written. -/
theorem captureExtra_extraText (ha : a.InRange) :
    captureExtra k a.extraText = some a.extraCaptures := by
  have hmono (s : List Char) : group [k.digit] (decimal 1 a.monoChrome.toUInt8 ++ s) =
      some (decimal 1 a.monoChrome.toUInt8, s) := by
    have hlt : a.monoChrome.toUInt8 < 10 := by cases a.monoChrome <;> decide
    exact group_decimal_one Nat.le.refl hlt
      (k.digit_digitChar _ (lt_iff_toNat_lt.mp hlt)) s
  have hposition (s : List Char) :
      group [range '0' '3'] (decimal 0 a.chromaSamplePosition ++ s) =
        some (decimal 0 a.chromaSamplePosition, s) := by
    have hlt : a.chromaSamplePosition.toNat < 4 :=
      Nat.lt_succ_of_le (le_iff_toNat_le.mp ha.chromaSamplePosition)
    have hall : ∀ n < 4, range '0' '3' (digitChar n) = true := by decide
    exact group_decimal_one (Nat.zero_le 1)
      (lt_iff_toNat_lt.mpr (Nat.lt_trans hlt (by decide))) (hall _ hlt) s
  have hfull := group_bit Nat.le.refl a.fullRange []
  rw [append_nil] at hfull
  rw [extraText, cons_append, append_assoc, append_assoc]
  refine bind_eq_some_of (literal_dot _) (bind_eq_some_of (hmono _) ?_)
  refine bind_eq_some_of (literal_dot _) (bind_eq_some_of (group_bit (Nat.zero_le 1) _ _) ?_)
  refine bind_eq_some_of (group_bit (Nat.zero_le 1) _ _) (bind_eq_some_of (hposition _) ?_)
  refine bind_eq_some_of (literal_dot _)
    (bind_eq_some_of (group_decimal_two k ha.colorPrimaries _) ?_)
  refine bind_eq_some_of (literal_dot _)
    (bind_eq_some_of (group_decimal_two k ha.transferCharacteristics _) ?_)
  refine bind_eq_some_of (literal_dot _)
    (bind_eq_some_of (group_decimal_two k ha.matrixCoefficients _) ?_)
  exact bind_eq_some_of (literal_dot _) (bind_eq_some_of hfull rfl)

/-- The fields that are not always printed are read back from their captures. -/
theorem withExtra_extraCaptures (a : AV1) : a.short.withExtra a.extraCaptures = .ok a := by
  have hmono : decide (a.extraCaptures.mono = ['1']) = a.monoChrome :=
    decimal_bit Nat.le.refl a.monoChrome
  have hx : decide (a.extraCaptures.chromaSubsamplingX = ['1']) = a.chromaSubsamplingX :=
    decimal_bit (Nat.zero_le 1) a.chromaSubsamplingX
  have hy : decide (a.extraCaptures.chromaSubsamplingY = ['1']) = a.chromaSubsamplingY :=
    decimal_bit (Nat.zero_le 1) a.chromaSubsamplingY
  have hfull : decide (a.extraCaptures.full = ['1']) = a.fullRange :=
    decimal_bit Nat.le.refl a.fullRange
  rw [withExtra, hmono, hx, hy, hfull]
  simp only [extraCaptures, parseU8_decimal]
  rfl

/-- The captures of a value. -/
def allCaptures (a : AV1) : Captures where
  profile := decimal 1 a.profile
  level := decimal 2 a.level
  tier := [a.tier]
  bitdepth := decimal 2 a.bitdepth
  extra := if a = a.short then none else some a.extraCaptures

/-- A displayed AV1 string is captured in all its parts. -/
theorem captures_display (ha : a.InRange) (hprofile : a.profile ≠ 2) :
    captures k a.display = some a.allCaptures := by
  have hfirst (s : List Char) : group [range '0' '1'] (decimal 1 a.profile ++ s) =
      some (decimal 1 a.profile, s) := by
    have hle : a.profile.toNat ≤ 2 := le_iff_toNat_le.mp ha.profile
    have hne : a.profile.toNat ≠ 2 := fun h => hprofile (UInt8.toNat_inj.mp h)
    have hlt : a.profile.toNat < 2 := Nat.lt_of_le_of_ne hle hne
    have hall : ∀ n < 2, range '0' '1' (digitChar n) = true := by decide
    exact group_decimal_one Nat.le.refl
      (lt_iff_toNat_lt.mpr (Nat.lt_trans hlt (by decide))) (hall _ hlt) s
  have hlevel : a.level < 100 :=
    lt_iff_toNat_lt.mpr (Nat.lt_trans (lt_iff_toNat_lt.mp ha.level) (by decide))
  have htier (s : List Char) : group [k.word] (a.tier :: s) = some ([a.tier], s) := by
    have hword : k.word a.tier = true := by
      rcases ha.tier with htier | htier
      · exact htier ▸ k.word_upper 'M' (by decide) (by decide)
      · exact htier ▸ k.word_upper 'H' (by decide) (by decide)
    exact group_append (.cons hword .nil) s
  have hbitdepth : a.bitdepth < 100 := by
    rcases ha.bitdepth with h | h | h <;> rw [h] <;> decide
  refine bind_eq_some_of (literal_append _ _) (bind_eq_some_of (hfirst _) ?_)
  refine bind_eq_some_of (literal_dot _) (bind_eq_some_of (group_decimal_two k hlevel _) ?_)
  refine bind_eq_some_of (htier _) (bind_eq_some_of (literal_dot _) ?_)
  refine bind_eq_some_of (group_decimal_two k hbitdepth _) ?_
  rw [allCaptures]
  split_ifs with hshort
  · rfl
  · exact bind_eq_some_of (captureExtra_extraText k ha) rfl

/-- A value with a profile below 2 is read back. -/
theorem fromStr_display (ha : a.InRange) (hprofile : a.profile ≠ 2) :
    fromStr k a.display = .ok a := by
  rw [fromStr, captures_display k ha hprofile]
  simp only [allCaptures, parseU8_decimal]
  split_ifs with hshort
  · exact congrArg Except.ok hshort.symm
  · exact withExtra_extraCaptures a

/-- There is no profile 2 in the pattern. -/
theorem fromStr_display_profile_two (hprofile : a.profile = 2) :
    fromStr k a.display = .error .invalidCodec := by
  have hnone (s : List Char) : group [range '0' '1'] (decimal 1 2 ++ s) = none := by
    rfl
  have hcaptures : captures k a.display = none := by
    rw [captures, display, literal_append, hprofile]
    simp only [Option.bind_eq_bind, Option.bind_some, hnone, Option.bind_none]
  rw [fromStr, hcaptures]

/-- The round trip holds exactly for the profiles of the pattern. -/
theorem fromStr_display_iff (ha : a.InRange) : fromStr k a.display = .ok a ↔ a.profile ≠ 2 := by
  constructor
  · intro hok hprofile
    rw [fromStr_display_profile_two k hprofile] at hok
    cases hok
  · exact fromStr_display k ha

end AV1

end HermitMoq
