import HermitMoq.KeyedList
import Mathlib.Algebra.GroupWithZero.Nat
import Mathlib.Data.Char
import Mathlib.Data.List.Lex
import Mathlib.Data.Rat.Defs

/-!
# JSON Values and Merge Patches

JSON values as `serde_json` has them, and the merge patches of RFC 7396. An object is the list
of its entries, sorted by key as in a `BTreeMap`. A merge patch that is an object is applied
entry by entry: null removes a key, anything else is merged into what is there. Any other patch
replaces the value.
-/

namespace HermitMoq

/-- A number; the order of constructors is that of `serde_json`, and a float is its value. -/
inductive JsonNumber
  | posInt (n : ℕ)
  | negInt (n : ℤ)
  | float (q : ℚ)
  deriving DecidableEq, Repr

/-- `serde_json::Value`. -/
inductive Json
  | null
  | bool (b : Bool)
  | number (n : JsonNumber)
  | string (s : List Char)
  | array (items : List Json)
  | object (entries : List (List Char × Json))
  deriving Repr

namespace Json

/-- Induction over values, with the values inside arrays and objects. -/
@[elab_as_elim, induction_eliminator]
theorem induction {P : Json → Prop} (null : P null) (bool : ∀ b, P (bool b))
    (number : ∀ n, P (number n)) (string : ∀ s, P (string s))
    (array : ∀ items, (∀ x ∈ items, P x) → P (array items))
    (object : ∀ entries, (∀ e ∈ entries, P e.2) → P (object entries)) (j : Json) : P j :=
  @Json.rec P (fun items => ∀ x ∈ items, P x) (fun entries => ∀ e ∈ entries, P e.2) (fun e => P e.2)
    null bool number string array object nofun
    (fun _ _ hx hl => List.forall_mem_cons.mpr ⟨hx, hl⟩) nofun
    (fun _ _ hx hl => List.forall_mem_cons.mpr ⟨hx, hl⟩) (fun _ _ h => h) j

/-! ### Equality -/

mutual

/-- Equality of values is decidable. -/
def decEq : (a b : Json) → Decidable (a = b)
  | null, null => isTrue rfl
  | bool a, bool b => decidable_of_iff (a = b) (by rw [bool.injEq])
  | number a, number b => decidable_of_iff (a = b) (by rw [number.injEq])
  | string a, string b => decidable_of_iff (a = b) (by rw [string.injEq])
  | array a, array b =>
    have := decEqItems a b
    decidable_of_iff (a = b) (by rw [array.injEq])
  | object a, object b =>
    have := decEqEntries a b
    decidable_of_iff (a = b) (by rw [object.injEq])
  | null, bool _ | null, number _ | null, string _ | null, array _ | null, object _
  | bool _, null | bool _, number _ | bool _, string _ | bool _, array _ | bool _, object _
  | number _, null | number _, bool _ | number _, string _ | number _, array _
  | number _, object _ | string _, null | string _, bool _ | string _, number _
  | string _, array _ | string _, object _ | array _, null | array _, bool _
  | array _, number _ | array _, string _ | array _, object _ | object _, null
  | object _, bool _ | object _, number _ | object _, string _ | object _, array _ =>
    isFalse nofun

def decEqItems : (a b : List Json) → Decidable (a = b)
  | [], [] => isTrue rfl
  | [], _ :: _ | _ :: _, [] => isFalse nofun
  | x :: a, y :: b =>
    have := decEq x y
    have := decEqItems a b
    decidable_of_iff (x = y ∧ a = b) (by rw [List.cons.injEq])

def decEqEntries : (a b : List (List Char × Json)) → Decidable (a = b)
  | [], [] => isTrue rfl
  | [], _ :: _ | _ :: _, [] => isFalse nofun
  | (k, x) :: a, (j, y) :: b =>
    have := decEq x y
    have := decEqEntries a b
    decidable_of_iff (k = j ∧ x = y ∧ a = b) (by rw [List.cons.injEq, Prod.mk.injEq, and_assoc])

end

instance : DecidableEq Json := decEq

/-! ### Objects -/

/-- `Value::is_object`. -/
def isObject : Json → Bool
  | object _ => true
  | _ => false

/-- The entries of an object; no entries for any other value. -/
def entries : Json → List (List Char × Json)
  | object entries => entries
  | _ => []

/-- Only objects have entries. -/
theorem entries_of_not_object {j : Json} (h : j.isObject = false) : j.entries = [] := by
  cases j with
  | object entries => cases h
  | _ => rfl

/-- `Value::get` with a key. -/
def get (j : Json) (key : List Char) : Option Json := Keyed.get key j.entries

/-- The keys of every object increase. -/
inductive Valid : Json → Prop
  | null : Valid null
  | bool (b : Bool) : Valid (bool b)
  | number (n : JsonNumber) : Valid (number n)
  | string (s : List Char) : Valid (string s)
  | array {items : List Json} (h : ∀ x ∈ items, Valid x) : Valid (array items)
  | object {entries : List (List Char × Json)} (hs : Keyed.Sorted entries)
      (h : ∀ e ∈ entries, Valid e.2) : Valid (object entries)

/-- The entries of a valid value are sorted. -/
theorem Valid.sorted {j : Json} (h : j.Valid) : Keyed.Sorted j.entries := by
  cases h with
  | object hs _ => exact hs
  | _ => exact List.Pairwise.nil

/-- What a valid value has at a key is valid. -/
theorem Valid.get {j v : Json} (h : j.Valid) {key : List Char} (hget : j.get key = some v) :
    v.Valid := by
  cases h with
  | object hs hv => exact hv (key, v) (Keyed.mem_of_get hget)
  | _ => cases hget

/-! ### Text -/

/-- The length of a character in a string. -/
def charLength (c : Char) : ℕ :=
  if c ∈ ['"', '\\', '\n', '\r', '\t', '\x08', '\x0c'] then 2
  else if c.toNat < 0x20 then 6
  else c.utf8Size

/-- The length of a string with its quotes. -/
def stringLength (s : List Char) : ℕ := 2 + (s.map charLength).sum

/-- The length of a number; that of a float is at most 24. -/
def numberLength : JsonNumber → ℕ
  | .posInt n => n.repr.length
  | .negInt n => 1 + n.natAbs.repr.length
  | .float _ => 24

mutual

/-- The length of the compact text of a value. -/
def textLength : Json → ℕ
  | null => 4
  | bool b => if b then 4 else 5
  | number n => numberLength n
  | string s => stringLength s
  | array items => 1 + max 1 (itemsLength items)
  | object entries => 1 + max 1 (entriesLength entries)

/-- The length of items, each with the comma or the bracket after it. -/
def itemsLength : List Json → ℕ
  | [] => 0
  | item :: items => textLength item + 1 + itemsLength items

/-- The length of entries, each with its colon and the comma or the brace after it. -/
def entriesLength : List (List Char × Json) → ℕ
  | [] => 0
  | (key, value) :: entries =>
    stringLength key + 1 + textLength value + 1 + entriesLength entries

end

/-! ### Merge patches -/

mutual

/-- `MergePatch(target, patch)` of RFC 7396. -/
def mergePatch : Json → Json → Json
  | target, object patches => object (mergeEntries target.entries patches)
  | _, null => null
  | _, bool b => bool b
  | _, number n => number n
  | _, string s => string s
  | _, array items => array items

/-- Apply the entries of a patch one after another. -/
def mergeEntries : List (List Char × Json) → List (List Char × Json) → List (List Char × Json)
  | target, [] => target
  | target, (key, patch) :: patches =>
    if patch = null then mergeEntries (Keyed.erase key target) patches
    else
      mergeEntries
        (Keyed.insert key (mergePatch ((Keyed.get key target).getD null) patch) target) patches

end

/-- A merge keeps the entries sorted. -/
theorem sorted_mergeEntries {target : List (List Char × Json)} (h : Keyed.Sorted target)
    (patches : List (List Char × Json)) : Keyed.Sorted (mergeEntries target patches) := by
  induction patches generalizing target with
  | nil => exact h
  | cons e patches ih =>
    obtain ⟨key, _⟩ := e
    rw [mergeEntries]
    split_ifs
    · exact ih (h.erase key)
    · exact ih (h.insert key _)

/-- What a merge does at a key. -/
theorem get_mergeEntries {target patches : List (List Char × Json)} (h : Keyed.Sorted target)
    (hp : (patches.map Prod.fst).Nodup) (k : List Char) :
    Keyed.get k (mergeEntries target patches) =
      match Keyed.get k patches with
      | none => Keyed.get k target
      | some patch =>
        if patch = null then none
        else some (mergePatch ((Keyed.get k target).getD null) patch) := by
  induction patches generalizing target with
  | nil => rfl
  | cons e patches ih =>
    obtain ⟨key, patch⟩ := e
    obtain ⟨hkey, hp⟩ := List.nodup_cons.mp hp
    have hnone : Keyed.get key patches = none := Keyed.get_eq_none_iff.mpr hkey
    rw [mergeEntries, Keyed.get]
    by_cases hnull : patch = null
    · rw [if_pos hnull, ih (h.erase key) hp, h.get_erase]
      by_cases hk : k = key
      · simp [hk, hnone, hnull]
      · simp [hk]
    · rw [if_neg hnull, ih (h.insert key _) hp, Keyed.get_insert]
      by_cases hk : k = key
      · simp [hk, hnone, hnull]
      · simp [hk]

end Json

end HermitMoq
