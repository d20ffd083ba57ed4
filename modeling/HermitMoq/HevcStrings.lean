import HermitMoq.CodecStrings

/-!
# H265 Codec Strings Read Back

The compatibility flags of H265 are four bytes, printed from the last on, each without the zero
that would make it two digits, and read as one number. A byte with one digit therefore moves
those before it, unless it is the first that is printed; and if all bytes are zero nothing is
printed, which is not a number.
-/

namespace HermitMoq

open Numeral BigEndian Vector

/-! ### Bytes printed next to each other -/

/-- The digits of bytes printed next to each other. -/
def packedDigits (bs : List UInt8) : List ℕ :=
  bs.flatMap fun b => digitList 16 b.toNat

/-- The number they are read as, after another one. -/
def packed (acc : ℕ) (bs : List UInt8) : ℕ :=
  extend 16 acc (packedDigits bs)

variable (acc : ℕ)

theorem packed_cons (b : UInt8) (bs : List UInt8) :
    packed acc (b :: bs) =
      packed (acc * 16 ^ (digitList 16 b.toNat).length + b.toNat) bs := by
  rw [packed, packedDigits, List.flatMap_cons, extend_append, extend_digitList]
  rfl

/-- One digit shifts less than two. -/
theorem shift_le (b : UInt8) :
    acc * 16 ^ (digitList 16 b.toNat).length + b.toNat ≤ acc * 256 + b.toNat := by
  have hlength : (digitList 16 b.toNat).length ≤ 2 :=
    length_digitList_le (by decide) (by decide) b.toNat_lt
  have hpow : 16 ^ (digitList 16 b.toNat).length ≤ 16 ^ 2 :=
    Nat.pow_le_pow_right (by decide) hlength
  exact Nat.add_le_add_right (Nat.mul_le_mul_left acc hpow) _

theorem shift_eq {b : UInt8} (hb : 16 ≤ b.toNat) (acc : ℕ) :
    acc * 16 ^ (digitList 16 b.toNat).length + b.toNat = acc * 256 + b.toNat := by
  have hle : (digitList 16 b.toNat).length ≤ 2 :=
    length_digitList_le (by decide) (by decide) b.toNat_lt
  have hlt : 1 < (digitList 16 b.toNat).length :=
    lt_length_digitList (by decide) hb
  have hpow : 16 ^ (digitList 16 b.toNat).length = 256 := by
    rw [Nat.le_antisymm hle hlt]
    rfl
  rw [hpow]

theorem shift_lt {acc : ℕ} (hacc : 0 < acc) {b : UInt8} (hb : b.toNat < 16) :
    acc * 16 ^ (digitList 16 b.toNat).length + b.toNat < acc * 256 + b.toNat := by
  rw [digitList_of_lt hb, List.length_singleton, Nat.pow_one]
  exact Nat.add_lt_add_right (Nat.mul_lt_mul_of_pos_left (by decide) hacc) _

/-- Digits that are missing make a number smaller. -/
theorem packed_le (bs : List UInt8) :
    packed acc bs ≤ acc * 256 ^ bs.length + ofBytes bs := by
  induction bs generalizing acc with
  | nil => exact Nat.le_of_eq (by simp [packed, packedDigits, extend, ofBytes])
  | cons b bs ih =>
    rw [packed_cons]
    calc packed (acc * 16 ^ (digitList 16 b.toNat).length + b.toNat) bs
        ≤ (acc * 16 ^ (digitList 16 b.toNat).length + b.toNat) * 256 ^ bs.length +
            ofBytes bs := ih _
      _ ≤ (acc * 256 + b.toNat) * 256 ^ bs.length + ofBytes bs :=
          Nat.add_le_add_right (Nat.mul_le_mul_right _ (shift_le acc b)) _
      _ = acc * 256 ^ (b :: bs).length + ofBytes (b :: bs) := by
          rw [List.length_cons, ofBytes]
          ring

/-- After a number that is not zero, bytes are read as their number exactly when each has two
digits. -/
theorem packed_eq_iff {acc : ℕ} (hacc : 0 < acc) (bs : List UInt8) :
    packed acc bs = acc * 256 ^ bs.length + ofBytes bs ↔ ∀ b ∈ bs, 16 ≤ b.toNat := by
  induction bs generalizing acc with
  | nil => simp [packed, packedDigits, extend, ofBytes]
  | cons b bs ih =>
    have htarget : acc * 256 ^ (b :: bs).length + ofBytes (b :: bs) =
        (acc * 256 + b.toNat) * 256 ^ bs.length + ofBytes bs := by
      rw [List.length_cons, ofBytes]
      ring
    rw [packed_cons, htarget, List.forall_mem_cons]
    by_cases hb : 16 ≤ b.toNat
    · have hpos : 0 < acc * 256 + b.toNat :=
        Nat.add_pos_right _ (Nat.lt_of_lt_of_le (by decide) hb)
      rw [shift_eq hb, ih hpos]
      exact (and_iff_right hb).symm
    · have hlt := shift_lt hacc (Nat.lt_of_not_le hb)
      have hsmaller : packed (acc * 16 ^ (digitList 16 b.toNat).length + b.toNat) bs <
          (acc * 256 + b.toNat) * 256 ^ bs.length + ofBytes bs :=
        calc packed (acc * 16 ^ (digitList 16 b.toNat).length + b.toNat) bs
            ≤ (acc * 16 ^ (digitList 16 b.toNat).length + b.toNat) * 256 ^ bs.length +
                ofBytes bs := packed_le _ bs
          _ < (acc * 256 + b.toNat) * 256 ^ bs.length + ofBytes bs :=
              Nat.add_lt_add_right
                (Nat.mul_lt_mul_of_pos_right hlt (Nat.pow_pos (by decide))) _
      exact ⟨fun heq => absurd heq (Nat.ne_of_lt hsmaller), fun hall => absurd hall.1 hb⟩

variable (bs : List UInt8)

/-- Zero bytes in front do not count. -/
theorem ofBytes_dropWhile : ofBytes (bs.dropWhile (· = 0)) = ofBytes bs := by
  induction bs with
  | nil => rfl
  | cons b bs ih =>
    by_cases hb : b = 0
    · rw [List.dropWhile_cons_of_pos (by simpa using hb), ih, hb, ofBytes, UInt8.toNat_zero,
        Nat.zero_mul, Nat.zero_add]
    · rw [List.dropWhile_cons_of_neg (by simpa using hb)]

namespace H265

/-! ### The compatibility flags -/

/-- The flags whose bytes are read back: some byte is not zero, and each byte before one that is
not zero has two digits. -/
def Printable (flags : List UInt8) : Prop :=
  (∃ b ∈ flags, b ≠ 0) ∧ flags.Pairwise fun low high => high ≠ 0 → 16 ≤ low.toNat

/-- The same, said of the bytes that are printed. -/
theorem printable_iff :
    Printable bs.reverse ↔
      ∃ b rest, bs.dropWhile (· = 0) = b :: rest ∧ ∀ c ∈ rest, 16 ≤ c.toNat := by
  rw [Printable, List.pairwise_reverse]
  induction bs with
  | nil => simp
  | cons b bs ih =>
    by_cases hb : b = 0
    · rw [List.dropWhile_cons_of_pos (by simpa using hb), ← ih]
      simp [hb, List.pairwise_cons]
    · rw [List.dropWhile_cons_of_neg (by simpa using hb)]
      constructor
      · rintro ⟨_, hpairwise⟩
        exact ⟨b, bs, rfl, fun c hc => (List.pairwise_cons.mp hpairwise).1 c hc hb⟩
      · rintro ⟨_, _, heq, hall⟩
        obtain ⟨rfl, rfl⟩ := List.cons.inj heq
        refine ⟨⟨b, by simp, hb⟩, List.pairwise_cons.mpr ⟨fun c hc _ => hall c hc, ?_⟩⟩
        exact List.pairwise_of_forall_mem_list fun _ _ c hc _ => hall c hc

theorem compatibility_eq (flags : Vector UInt8 4) :
    compatibility flags =
      (packedDigits (flags.toList.reverse.dropWhile (· = 0))).map digitChar := by
  rw [compatibility, packedDigits, List.map_flatMap]
  rfl

/-- What is read as a number fits it. -/
theorem packed_lt (flags : Vector UInt8 4) :
    packed 0 (flags.toList.reverse.dropWhile (· = 0)) < 256 ^ 4 :=
  calc packed 0 (flags.toList.reverse.dropWhile (· = 0))
      ≤ 0 * 256 ^ (flags.toList.reverse.dropWhile (· = 0)).length +
          ofBytes (flags.toList.reverse.dropWhile (· = 0)) := packed_le 0 _
    _ = ofBytes flags.toList.reverse := by rw [Nat.zero_mul, Nat.zero_add, ofBytes_dropWhile]
    _ < 256 ^ flags.toList.reverse.length := ofBytes_lt _
    _ = 256 ^ 4 := by rw [List.length_reverse, length_toList]

variable {flags : Vector UInt8 4} {h : H265}

/-- The number the flags are read as, if any are printed. -/
theorem parse_compatibility (hne : flags.toList.reverse.dropWhile (· = 0) ≠ []) :
    parse 16 (2 ^ 32) (compatibility flags) =
      some (packed 0 (flags.toList.reverse.dropWhile (· = 0))) := by
  rw [compatibility_eq]
  refine parse_map_digitChar (by decide) (by decide) ?_ ?_ (packed_lt flags)
  · obtain ⟨b, _, heq⟩ := List.exists_cons_of_ne_nil hne
    simp [heq, packedDigits, digitList_ne_nil]
  · intro d hd
    obtain ⟨_, _, hd⟩ := List.mem_flatMap.mp hd
    exact digitList_lt (by decide) hd

/-- The little-endian bytes of a number are the flags exactly when it is theirs. -/
theorem toBytes_reverse_eq_iff {n : ℕ} (hn : n < 256 ^ 4) :
    (toBytes 4 n).reverse = flags.toList ↔ n = ofBytes flags.toList.reverse := by
  rw [List.reverse_eq_iff]
  constructor
  · intro heq
    have hmod := ofBytes_toBytes 4 n
    rw [heq, Nat.mod_eq_of_lt hn] at hmod
    exact hmod.symm
  · intro heq
    have hbytes := toBytes_ofBytes flags.toList.reverse
    rwa [List.length_reverse, length_toList, ← heq] at hbytes

/-- The flags are read back exactly when the number they are printed as is theirs. -/
theorem parseU32LE_compatibility (hne : flags.toList.reverse.dropWhile (· = 0) ≠ []) :
    parseU32LE 16 (compatibility flags) = .ok flags ↔
      packed 0 (flags.toList.reverse.dropWhile (· = 0)) =
        ofBytes (flags.toList.reverse.dropWhile (· = 0)) := by
  rw [parseU32LE, parse_compatibility hne, ofBytes_dropWhile,
    ← toBytes_reverse_eq_iff (packed_lt flags)]
  simp only [Except.ok.injEq, ← toList_inj, toList_mk]

/-- When the compatibility flags are read back. -/
theorem parseU32LE_compatibility_iff (flags : Vector UInt8 4) :
    parseU32LE 16 (compatibility flags) = .ok flags ↔ Printable flags.toList := by
  have hprintable := printable_iff flags.toList.reverse
  rw [List.reverse_reverse] at hprintable
  rw [hprintable]
  by_cases hne : flags.toList.reverse.dropWhile (· = 0) = []
  · have hnone : parse 16 (2 ^ 32) (compatibility flags) = none := by
      rw [compatibility_eq, hne]
      rfl
    rw [parseU32LE, hnone, hne]
    constructor
    · intro heq
      cases heq
    · rintro ⟨_, _, heq, _⟩
      cases heq
  · rw [parseU32LE_compatibility hne]
    obtain ⟨b, rest, heq⟩ := List.exists_cons_of_ne_nil hne
    have hb : 0 < b.toNat := by
      have hhead := List.head_dropWhile_not (fun x : UInt8 => decide (x = 0)) hne
      simp only [heq, List.head_cons, decide_eq_false_iff_not] at hhead
      exact Nat.pos_of_ne_zero fun h => hhead (UInt8.toNat_inj.mp h)
    have hfirst : packed 0 (b :: rest) = packed b.toNat rest := by
      rw [packed_cons, Nat.zero_mul, Nat.zero_add]
    rw [heq, hfirst, ofBytes, packed_eq_iff hb]
    constructor
    · intro hall
      exact ⟨b, rest, rfl, hall⟩
    · rintro ⟨_, _, hcons, hall⟩
      obtain ⟨rfl, rfl⟩ := List.cons.inj hcons
      exact hall

/-! ### The constraint flags -/

/-- The loop over the constraint bytes: those read stand before zeros. -/
theorem parseConstraints_map_hex (read bs : List UInt8) {n : ℕ} {flags : Vector UInt8 6}
    (hflags : flags.toList = read ++ List.replicate (bs.length + n) 0) :
    ∃ flags', parseConstraints read.length (bs.map hex) flags = .ok flags' ∧
      flags'.toList = read ++ bs ++ List.replicate n 0 := by
  induction bs generalizing read flags with
  | nil => exact ⟨flags, rfl, by simpa using hflags⟩
  | cons b bs ih =>
    have hlt : read.length < 6 := by
      have hlength := congrArg List.length hflags
      rw [length_toList, List.length_append, List.length_replicate,
        List.length_cons] at hlength
      omega
    have hset : (flags.set read.length b hlt).toList =
        (read ++ [b]) ++ List.replicate (bs.length + n) 0 := by
      rw [toList_set, hflags, List.set_append_right _ _ (Nat.le_refl _), Nat.sub_self,
        List.length_cons, Nat.add_right_comm, List.replicate_succ, List.set_cons_zero,
        List.append_assoc, List.singleton_append]
    obtain ⟨flags', hok, hlist⟩ := ih (read ++ [b]) hset
    refine ⟨flags', ?_, ?_⟩
    · rw [List.map_cons, parseConstraints, if_neg (hex_ne_nil b), dif_pos hlt, parseU8_hex]
      rwa [List.length_append, List.length_singleton] at hok
    · rw [hlist, List.append_assoc read, List.singleton_append]

/-- Bytes are their significant part and zeros. -/
theorem take_significant :
    ∃ n, bs = bs.take (significant bs) ++ List.replicate n 0 := by
  have hsplit := List.takeWhile_append_dropWhile (p := fun b : UInt8 => decide (b = 0))
    (l := bs.reverse)
  have hzeros : bs.reverse.takeWhile (· = 0) =
      List.replicate (bs.reverse.takeWhile (· = 0)).length 0 := by
    refine List.eq_replicate_iff.mpr ⟨rfl, fun b hb => ?_⟩
    simpa using List.all_eq_true.mp List.all_takeWhile b hb
  have hbs : bs = (bs.reverse.dropWhile (· = 0)).reverse ++
      List.replicate (bs.reverse.takeWhile (· = 0)).length 0 := by
    rw [← List.reverse_replicate, ← hzeros, ← List.reverse_append, hsplit, List.reverse_reverse]
  refine ⟨(bs.reverse.takeWhile (· = 0)).length, ?_⟩
  have hlength : (bs.reverse.dropWhile (· = 0)).reverse.length = significant bs :=
    List.length_reverse
  have htake : bs.take (significant bs) = (bs.reverse.dropWhile (· = 0)).reverse :=
    calc bs.take (significant bs)
        = ((bs.reverse.dropWhile (· = 0)).reverse ++
            List.replicate (bs.reverse.takeWhile (· = 0)).length 0).take (significant bs) := by
          rw [← hbs]
      _ = (bs.reverse.dropWhile (· = 0)).reverse := List.take_left' hlength
  rwa [htake]

/-- The constraint flags are read back. -/
theorem parseConstraints_take_significant (flags : Vector UInt8 6) :
    parseConstraints 0 ((flags.toList.take (significant flags.toList)).map hex)
      (Vector.replicate 6 0) = .ok flags := by
  obtain ⟨n, hn⟩ := take_significant flags.toList
  have hlength := congrArg List.length hn
  rw [length_toList, List.length_append, List.length_replicate] at hlength
  have hzeros : (replicate 6 (0 : UInt8)).toList = [] ++
      List.replicate ((flags.toList.take (significant flags.toList)).length + n) 0 := by
    rw [← hlength, toList_replicate, List.nil_append]
  obtain ⟨_, hok, hlist⟩ := parseConstraints_map_hex [] _ hzeros
  rw [List.nil_append, ← hn] at hlist
  rwa [toList_inj.mp hlist] at hok

/-! ### The whole string -/

/-- The parts of the constraint flags. -/
def constraintParts (flags : Vector UInt8 6) : List (List Char) :=
  (flags.toList.take (significant flags.toList)).map hex

/-- The part with the level and those after it. -/
theorem splitOn_constraints {level : List Char} (hlevel : '.' ∉ level) (flags : Vector UInt8 6) :
    (level ++ constraints flags).splitOn '.' = level :: constraintParts flags := by
  rw [constraints]
  split_ifs with hzero
  · rw [List.append_nil, List.splitOn_eq_singleton hlevel, constraintParts, hzero,
      List.take_zero, List.map_nil]
  · have hne : constraintParts flags ≠ [] := by simp [constraintParts, hzero]
    have hdots : ∀ part ∈ constraintParts flags, '.' ∉ part := by
      intro part hpart
      obtain ⟨b, _, rfl⟩ := List.mem_map.mp hpart
      exact dot_notMem_hex b
    rw [List.splitOn_append_cons_self_of_not_mem hlevel]
    exact congrArg (level :: ·) (List.splitOn_intercalate '.' hdots hne)

theorem dot_notMem_compatibility (flags : Vector UInt8 4) : '.' ∉ compatibility flags := by
  rw [compatibility, List.mem_flatMap]
  rintro ⟨b, _, hdot⟩
  exact dot_notMem_hex b hdot

/-- The letter of a profile space is read back. -/
theorem spaceText_eq {n : UInt8} (hn : n ≤ 3) (h0 : n ≠ 0) :
    ∃ c, spaceText n = [c] ∧ 'A' ≤ c ∧ c ≤ 'Z' ∧ UInt8.ofNat (1 + c.toNat - 65) = n := by
  have hle : n.toNat ≤ 3 := UInt8.le_iff_toNat_le.mp hn
  have hne : n.toNat ≠ 0 := fun h => h0 (UInt8.toNat_inj.mp h)
  have hcases : n.toNat = 1 ∨ n.toNat = 2 ∨ n.toNat = 3 := by omega
  rcases hcases with h | h | h
  · obtain rfl : n = 1 := UInt8.toNat_inj.mp h
    exact ⟨'A', by decide⟩
  · obtain rfl : n = 2 := UInt8.toNat_inj.mp h
    exact ⟨'B', by decide⟩
  · obtain rfl : n = 3 := UInt8.toNat_inj.mp h
    exact ⟨'C', by decide⟩

/-- A number does not begin with a letter. -/
theorem parseSpace_decimal (idc : UInt8) : parseSpace (decimal 0 idc) = .ok 0 := by
  have hne : decimal 0 idc ≠ [] := by simp [decimal, List.leftpad, text, digitList_ne_nil]
  obtain ⟨c, _, heq⟩ := List.exists_cons_of_ne_nil hne
  obtain ⟨d, hd, rfl⟩ := mem_leftpad_text (by decide)
    (heq ▸ List.mem_cons_self : c ∈ decimal 0 idc)
  have hall : ∀ d < 10, ¬ ('A' ≤ digitChar d ∧ digitChar d ≤ 'Z') := by decide
  rw [heq, parseSpace, if_neg (hall d hd)]

/-- The part with the profile: it has no dot, and space and profile are read back. -/
theorem profile_part {n : UInt8} (hn : n ≤ 3) (idc : UInt8) :
    '.' ∉ spaceText n ++ decimal 0 idc ∧
      parseSpace (spaceText n ++ decimal 0 idc) = .ok n ∧
      (if 0 < n then (spaceText n ++ decimal 0 idc).drop 1 else spaceText n ++ decimal 0 idc) =
        decimal 0 idc := by
  by_cases h0 : n = 0
  · rw [h0, spaceText, if_pos rfl, List.nil_append]
    exact ⟨dot_notMem_decimal 0 idc, parseSpace_decimal idc, rfl⟩
  · obtain ⟨c, hspace, hA, hZ, hback⟩ := spaceText_eq hn h0
    have hdot : '.' ≠ c := fun h => absurd (h ▸ hA) (by decide)
    have hpos : 0 < n := UInt8.pos_iff_ne_zero.mpr h0
    rw [hspace, List.singleton_append, if_pos hpos, parseSpace, if_pos ⟨hA, hZ⟩, hback]
    exact ⟨fun h => (List.mem_cons.mp h).elim hdot (dot_notMem_decimal 0 idc), rfl, rfl⟩

/-- The parts of a printed value. -/
theorem splitOn_display (hspace : h.profileSpace ≤ 3) :
    h.display.splitOn '.' =
      (if h.inBand then ['h', 'e', 'v', '1'] else ['h', 'v', 'c', '1']) ::
        (spaceText h.profileSpace ++ decimal 0 h.profileIdc) ::
        compatibility h.profileCompatibilityFlags ::
        ((if h.tierFlag then 'H' else 'L') :: decimal 0 h.levelIdc) ::
        constraintParts h.constraintFlags := by
  have hfourcc : '.' ∉ if h.inBand then ['h', 'e', 'v', '1'] else ['h', 'v', 'c', '1'] := by
    cases h.inBand <;> decide
  have hlevel : '.' ∉ (if h.tierFlag then 'H' else 'L') :: decimal 0 h.levelIdc := by
    have htier : '.' ≠ if h.tierFlag then 'H' else 'L' := by cases h.tierFlag <;> decide
    exact fun hdot => (List.mem_cons.mp hdot).elim htier (dot_notMem_decimal 0 h.levelIdc)
  rw [display, List.splitOn_append_cons_self_of_not_mem hfourcc,
    List.splitOn_append_cons_self_of_not_mem (profile_part hspace h.profileIdc).1,
    List.splitOn_append_cons_self_of_not_mem (dot_notMem_compatibility _),
    splitOn_constraints hlevel]

/-- Everything but the compatibility flags is read back. -/
theorem fromStr_display (hspace : h.profileSpace ≤ 3) :
    fromStr h.display = (parseU32LE 16 (compatibility h.profileCompatibilityFlags)).map
      fun flags => { h with profileCompatibilityFlags := flags } := by
  obtain ⟨_, hparseSpace, hprofile⟩ := profile_part hspace h.profileIdc
  have hinBand : parseInBand (if h.inBand then ['h', 'e', 'v', '1'] else ['h', 'v', 'c', '1']) =
      .ok h.inBand := by
    cases h.inBand <;> rfl
  have htier (s : List Char) : parseTier ((if h.tierFlag then 'H' else 'L') :: s) =
      .ok h.tierFlag := by
    cases h.tierFlag <;> rfl
  have hconstraints := parseConstraints_take_significant h.constraintFlags
  have hbind {α β : Type} (a : α) (f : α → Except CodecError β) : (.ok a >>= f) = f a := rfl
  rw [fromStr, splitOn_display hspace]
  simp only [next, hbind, hinBand, hparseSpace, hprofile, parseU8_decimal]
  cases hcompat : parseU32LE 16 (compatibility h.profileCompatibilityFlags) with
  | error e => rfl
  | ok flags =>
    simp only [hbind, htier, List.drop_succ_cons, List.drop_zero, parseU8_decimal]
    rw [constraintParts, hconstraints]
    rfl

/-- A value is read back exactly when its compatibility flags are. -/
theorem fromStr_display_iff (hspace : h.profileSpace ≤ 3) :
    fromStr h.display = .ok h ↔ Printable h.profileCompatibilityFlags.toList := by
  rw [fromStr_display hspace, ← parseU32LE_compatibility_iff]
  cases parseU32LE 16 (compatibility h.profileCompatibilityFlags) with
  | error e =>
    constructor
    · intro heq
      cases heq
    · intro heq
      cases heq
  | ok flags =>
    rw [Except.map, Except.ok.injEq, Except.ok.injEq]
    constructor
    · intro heq
      exact congrArg profileCompatibilityFlags heq
    · rintro rfl
      rfl

end H265

/-! ### Which values are read back -/

/-- **Which values of the three codecs are read back** from the catalog: of H265 those with
compatibility flags that are printable, of AV1 those with a profile of the pattern, of VP9 all. -/
theorem codec_strings (k : CharClasses) :
    (∀ h : H265, h.profileSpace ≤ 3 →
      (H265.fromStr h.display = .ok h ↔ H265.Printable h.profileCompatibilityFlags.toList)) ∧
    (∀ a : AV1, a.InRange → (AV1.fromStr k a.display = .ok a ↔ a.profile ≠ 2)) ∧
    ∀ v : VP9, VP9.fromStr v.display = .ok v := by
  refine ⟨?_, ?_, VP9.fromStr_display⟩
  · intro h hspace
    exact H265.fromStr_display_iff hspace
  · intro a ha
    exact AV1.fromStr_display_iff k ha

/-- A main-tier H265 stream with the flags of two profiles. -/
def twoProfiles : H265 where
  inBand := true
  profileSpace := 0
  profileIdc := 1
  profileCompatibilityFlags := #v[6, 1, 0, 0]
  tierFlag := false
  levelIdc := 93
  constraintFlags := #v[0xb0, 0, 0, 0, 0, 0]

/-- The values of which codecs are read back, on one of each. -/
theorem codec_strings_plain :
    H265.fromStr (H265.display { twoProfiles with profileCompatibilityFlags := #v[6, 0, 0, 0] }) =
        .ok { twoProfiles with profileCompatibilityFlags := #v[6, 0, 0, 0] } ∧
      AV1.fromStr .ascii AV1.default.display = .ok AV1.default ∧
      VP9.fromStr VP9.default.display = .ok VP9.default := by
  obtain ⟨hh265, hav1, hvp9⟩ := codec_strings .ascii
  refine ⟨(hh265 _ (by decide)).mpr ⟨⟨6, by decide⟩, by decide⟩, (hav1 _ ?_).mpr (by decide),
    hvp9 _⟩
  exact ⟨by decide, by decide, by decide, by decide, by decide, by decide, by decide, by decide⟩

/-- A byte of flags with one digit moves the one before it, flags that are all zero are not a
number, and profile 2 of AV1 is refused. -/
theorem codec_strings_lost :
    H265.fromStr twoProfiles.display =
        .ok { twoProfiles with profileCompatibilityFlags := #v[0x16, 0, 0, 0] } ∧
      H265.fromStr (H265.display
        { twoProfiles with profileCompatibilityFlags := #v[0, 0, 0, 0] }) = .error .expectedInt ∧
      AV1.fromStr .ascii { AV1.default with profile := 2 }.display = .error .invalidCodec := by
  decide +kernel

end HermitMoq
