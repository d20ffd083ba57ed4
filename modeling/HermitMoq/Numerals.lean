import Mathlib.Data.Nat.Digits.Lemmas

/-!
# Numerals

Numbers as text in a radix: printing without superfluous digits, with upper-case letters for the
digits from ten on, and parsing with a bound that no intermediate value may reach, an optional
plus sign, and letters of both cases.
-/

namespace HermitMoq

open List Nat

namespace Numeral

/-! ### Digits -/

/-- The character of a digit. -/
def digitChar (d : ℕ) : Char :=
  if d < 10 then Char.ofNat (48 + d) else Char.ofNat (55 + d)

/-- The digit a character stands for in the largest radix. -/
def charVal (c : Char) : Option ℕ :=
  if '0' ≤ c ∧ c ≤ '9' then some (c.toNat - 48)
  else if 'a' ≤ c ∧ c ≤ 'z' then some (c.toNat - 87)
  else if 'A' ≤ c ∧ c ≤ 'Z' then some (c.toNat - 55)
  else none

/-- The digit of a character, if it is one of the radix. -/
def digitVal (radix : ℕ) (c : Char) : Option ℕ :=
  (charVal c).filter (· < radix)

/-- The digits of a number, most significant first; zero has one digit. -/
def digitList (radix n : ℕ) : List ℕ :=
  if n = 0 then [0] else (Nat.digits radix n).reverse

/-- A number as text. -/
def text (radix n : ℕ) : List Char :=
  (digitList radix n).map digitChar

/-- The number a list of digits continues another one to. -/
def extend (radix : ℕ) (acc : ℕ) (ds : List ℕ) : ℕ :=
  ds.foldl (fun acc d => acc * radix + d) acc

variable {radix : ℕ} {ds : List ℕ} {width n : ℕ}

theorem digitVal_digitChar {d : ℕ} (hradix : radix ≤ 36) (hd : d < radix) :
    digitVal radix (digitChar d) = some d := by
  have hall : ∀ d < 36, charVal (digitChar d) = some d := by decide
  rw [digitVal, hall d (lt_of_lt_of_le hd hradix)]
  simpa using hd

/-- A digit is neither a dot nor a sign. -/
theorem digitChar_ne {d : ℕ} (hd : d < 36) :
    digitChar d ≠ '.' ∧ digitChar d ≠ '+' ∧ digitChar d ≠ '-' := by
  have hall : ∀ d < 36, digitChar d ≠ '.' ∧ digitChar d ≠ '+' ∧ digitChar d ≠ '-' := by decide
  exact hall d hd

theorem digitList_lt {n d : ℕ} (hradix : 1 < radix) (hd : d ∈ digitList radix n) : d < radix := by
  rw [digitList] at hd
  split_ifs at hd with hn
  · rw [mem_singleton.mp hd]
    exact zero_lt_of_lt hradix
  · exact digits_lt_base hradix (mem_reverse.mp hd)

theorem digitList_ne_nil (radix n : ℕ) : digitList radix n ≠ [] := by
  rw [digitList]
  split_ifs with hn
  · exact cons_ne_nil 0 []
  · rw [Ne, reverse_eq_nil_iff]
    exact digits_ne_nil_iff_ne_zero.mpr hn

/-- A number below the radix is its only digit. -/
theorem digitList_of_lt {n : ℕ} (hn : n < radix) : digitList radix n = [n] := by
  rw [digitList]
  split_ifs with h0
  · rw [h0]
  · rw [digits_of_lt radix n h0 hn, reverse_singleton]

/-- A number below the `k`-th power has at most `k` digits. -/
theorem length_digitList_le {n k : ℕ} (hradix : 1 < radix) (hk : 0 < k) (hn : n < radix ^ k) :
    (digitList radix n).length ≤ k := by
  rw [digitList]
  split_ifs with h0
  · exact hk
  · rw [length_reverse]
    exact (digits_length_le_iff hradix n).mpr hn

/-- A number from the `k`-th power on has more than `k` digits. -/
theorem lt_length_digitList {n k : ℕ} (hradix : 1 < radix) (hn : radix ^ k ≤ n) :
    k < (digitList radix n).length := by
  have h0 : n ≠ 0 := Nat.ne_of_gt (Nat.lt_of_lt_of_le (Nat.pow_pos (Nat.zero_lt_of_lt hradix)) hn)
  rw [digitList, if_neg h0, length_reverse]
  exact (lt_digits_length_iff hradix n).mpr hn

/-! ### The value of digits -/

theorem extend_append (radix acc : ℕ) (ds es : List ℕ) :
    extend radix acc (ds ++ es) = extend radix (extend radix acc ds) es :=
  foldl_append

/-- More digits never make a number smaller. -/
theorem le_extend (hradix : 0 < radix) (acc : ℕ) (ds : List ℕ) : acc ≤ extend radix acc ds := by
  induction ds generalizing acc with
  | nil => exact le_refl acc
  | cons d ds ih =>
    calc acc ≤ acc * radix + d := Nat.le_add_right_of_le (Nat.le_mul_of_pos_right acc hradix)
      _ ≤ extend radix (acc * radix + d) ds := ih _

/-- Digits shift what stands before them and add their own value. -/
theorem extend_eq (radix acc : ℕ) (ds : List ℕ) :
    extend radix acc ds = acc * radix ^ ds.length + Nat.ofDigits radix ds.reverse := by
  induction ds generalizing acc with
  | nil => simp [extend]
  | cons d ds ih =>
    have hstep : extend radix acc (d :: ds) = extend radix (acc * radix + d) ds := rfl
    rw [hstep, ih, length_cons, ofDigits_reverse_cons]
    ring

/-- The digits of a number have its value. -/
theorem extend_digitList (radix acc n : ℕ) :
    extend radix acc (digitList radix n) = acc * radix ^ (digitList radix n).length + n := by
  rw [extend_eq]
  congr 1
  rw [digitList]
  split_ifs with hn
  · simp [hn]
  · rw [reverse_reverse, ofDigits_digits]

/-! ### Parsing -/

/-- Read digits after a number, as long as the value stays below the bound. -/
def value (radix bound : ℕ) : List Char → ℕ → Option ℕ
  | [], acc => some acc
  | c :: cs, acc => do
    let d ← digitVal radix c
    if acc * radix + d < bound then value radix bound cs (acc * radix + d) else none

/-- Read an unsigned number: a plus sign may stand before its digits, and there is at least one
digit. -/
def parse (radix bound : ℕ) (s : List Char) : Option ℕ :=
  if s = [] ∨ s = ['+'] ∨ s = ['-'] then none
  else if s.head? = some '+' then value radix bound s.tail 0
  else value radix bound s 0

theorem value_map_digitChar {bound acc : ℕ} (hradix : radix ≤ 36) (hpos : 0 < radix)
    (hds : ∀ d ∈ ds, d < radix) (hbound : extend radix acc ds < bound) :
    value radix bound (ds.map digitChar) acc = some (extend radix acc ds) := by
  induction ds generalizing acc with
  | nil => rfl
  | cons d ds ih =>
    have hd := digitVal_digitChar hradix (hds d mem_cons_self)
    have hrest : extend radix (acc * radix + d) ds < bound := hbound
    have hlt : acc * radix + d < bound := lt_of_le_of_lt (le_extend hpos _ ds) hrest
    rw [map_cons, value, hd, Option.bind_eq_bind, Option.bind_some, if_pos hlt]
    exact ih (fun e he => hds e (mem_cons_of_mem d he)) hrest

/-- What a list of digits is read as. -/
theorem parse_map_digitChar {bound : ℕ} (hradix : radix ≤ 36) (hpos : 0 < radix)
    (hne : ds ≠ []) (hds : ∀ d ∈ ds, d < radix) (hbound : extend radix 0 ds < bound) :
    parse radix bound (ds.map digitChar) = some (extend radix 0 ds) := by
  obtain ⟨d, _, rfl⟩ := exists_cons_of_ne_nil hne
  have hd := digitChar_ne (lt_of_lt_of_le (hds d mem_cons_self) hradix)
  rw [parse, if_neg (by simp [hd]), if_neg (by simp [hd])]
  exact value_map_digitChar hradix hpos hds hbound

/-- The digits of a number with zeros before them up to a width. -/
def paddedList (radix width n : ℕ) : List ℕ :=
  List.replicate (width - (digitList radix n).length) 0 ++ digitList radix n

theorem leftpad_text (radix width n : ℕ) :
    (text radix n).leftpad width '0' = (paddedList radix width n).map digitChar := by
  rw [leftpad, text, length_map, paddedList, map_append, map_replicate]
  rfl

theorem paddedList_lt {width n d : ℕ} (hradix : 1 < radix) (hd : d ∈ paddedList radix width n) :
    d < radix := by
  rcases mem_append.mp hd with hd | hd
  · rw [eq_of_mem_replicate hd]
    exact zero_lt_of_lt hradix
  · exact digitList_lt hradix hd

theorem extend_paddedList (radix width n : ℕ) : extend radix 0 (paddedList radix width n) = n := by
  have hzero : extend radix 0 (replicate (width - (digitList radix n).length) 0) = 0 := by
    rw [extend_eq, reverse_replicate, ofDigits_replicate_zero, zero_mul]
  rw [paddedList, extend_append, hzero, extend_digitList, zero_mul, zero_add]

/-- A number below the bound is read back, whatever zeros stand before it. -/
theorem parse_leftpad_text {bound n : ℕ} (hradix : 1 < radix) (hle : radix ≤ 36) (hn : n < bound)
    (width : ℕ) : parse radix bound ((text radix n).leftpad width '0') = some n := by
  have hvalue := extend_paddedList radix width n
  rw [leftpad_text, parse_map_digitChar hle (zero_lt_of_lt hradix), hvalue]
  case hne => simp [paddedList, digitList_ne_nil]
  case hds =>
    intro d hd
    exact paddedList_lt hradix hd
  case hbound => rwa [hvalue]

/-- The characters of a number are digits. -/
theorem mem_leftpad_text {c : Char} (hradix : 1 < radix)
    (hc : c ∈ (text radix n).leftpad width '0') : ∃ d < radix, digitChar d = c := by
  rw [leftpad_text] at hc
  obtain ⟨d, hd, hchar⟩ := mem_map.mp hc
  exact ⟨d, paddedList_lt hradix hd, hchar⟩

/-- A number that fits the width is printed with it. -/
theorem length_leftpad_text (hradix : 1 < radix) (hwidth : 0 < width)
    (hn : n < radix ^ width) : ((text radix n).leftpad width '0').length = width := by
  rw [length_leftpad, text, length_map]
  exact max_eq_left (length_digitList_le hradix hwidth hn)

end Numeral

end HermitMoq
