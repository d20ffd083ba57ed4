import HermitMoq.Json

/-!
# The Diffing Serializer

The model of `moq-json/src/diff.rs` for values of type `serde_json::Value`. The new value is
walked along with the old one, and a node is the same or comes with its part of the patch. A
child that the old value does not have is compared with null.
-/

namespace HermitMoq

open Keyed

/-- One node's verdict. -/
inductive Node
  | same
  | diff (value : Json)
  deriving DecidableEq, Repr

/-- What a node adds to the patch. -/
def Node.patch : Node → Option Json
  | same => none
  | diff value => some value

/-- `MapDiff`, without the differ and the pending key. -/
structure MapDiff where
  patch : List (List Char × Json) := []
  seen : List (List Char) := []
  addedKey : Bool := false
  deriving DecidableEq, Repr

namespace MapDiff

/-- `MapDiff::entry`. -/
def entry (d : MapDiff) (key : List Char) (existed : Bool) (node : Node) : MapDiff where
  addedKey := d.addedKey || !existed
  patch :=
    match node with
    | .diff value => Keyed.insert key value d.patch
    | .same => d.patch
  seen := d.seen ++ [key]

/-- Insert a null for every key of the baseline that was not seen. -/
def insertDeletions (seen : List (List Char)) :
    List (List Char × Json) → List (List Char × Json) → List (List Char × Json)
  | [], patch => patch
  | (key, _) :: base, patch =>
    insertDeletions seen base (if key ∈ seen then patch else Keyed.insert key .null patch)

/-- The patch at the end of `MapDiff::finish`. -/
def finalPatch (d : MapDiff) (baseline : Json) : List (List Char × Json) :=
  match baseline with
  | .object base =>
    if d.addedKey || d.seen.length != base.length then insertDeletions d.seen base d.patch
    else d.patch
  | _ => d.patch

/-- `MapDiff::finish`. -/
def finish (d : MapDiff) (baseline : Json) : Node :=
  if d.finalPatch baseline = [] then .same else .diff (.object (d.finalPatch baseline))

end MapDiff

namespace Differ

/-- `Differ::child`. -/
def child (baseline : Json) (key : List Char) : Json × Bool :=
  match baseline.get key with
  | some value => (value, true)
  | none => (.null, false)

/-- `Differ::scalar`; the second part tells whether it sets `forced`. -/
def scalar (baseline value : Json) : Node × Bool :=
  if baseline = value then (.same, false) else (.diff value, decide (value = .null))

mutual

/-- The new value is serialized against a baseline. -/
def serialize : Json → Json → Node × Bool
  | baseline, .object entries =>
    let (d, forced) := serializeEntries baseline entries {} false
    (d.finish baseline, forced)
  | baseline, .null => scalar baseline .null
  | baseline, .bool b => scalar baseline (.bool b)
  | baseline, .number n => scalar baseline (.number n)
  | baseline, .string s => scalar baseline (.string s)
  | baseline, .array items => scalar baseline (.array items)

/-- The entries of an object are serialized one after another. -/
def serializeEntries :
    Json → List (List Char × Json) → MapDiff → Bool → MapDiff × Bool
  | _, [], d, forced => (d, forced)
  | baseline, (key, value) :: entries, d, forced =>
    let (node, forced') := serialize (child baseline key).1 value
    serializeEntries baseline entries (d.entry key (child baseline key).2 node)
      (forced || forced')

end

end Differ

/-- `Diff`. -/
structure Diff where
  patch : Json
  forcedSnapshot : Bool
  deriving DecidableEq, Repr

/-- `diff`. -/
def diff (old new : Json) : Diff :=
  match Differ.serialize old new with
  | (.same, forced) => ⟨.object [], forced⟩
  | (.diff patch, forced) => ⟨patch, forced || (!patch.isObject || !old.isObject)⟩

/-! ### The patch of an object -/

namespace MapDiff

variable {d : MapDiff} (seen : List (List Char))

theorem sorted_entry (h : Keyed.Sorted d.patch) (key : List Char) (existed : Bool)
    (node : Node) : Keyed.Sorted (d.entry key existed node).patch := by
  cases node with
  | same => exact h
  | diff value => exact h.insert key value

theorem get_entry (d : MapDiff) (key : List Char) (existed : Bool) (node : Node) (k : List Char) :
    Keyed.get k (d.entry key existed node).patch =
      if k = key then node.patch.or (Keyed.get k d.patch) else Keyed.get k d.patch := by
  cases node with
  | same => simp [entry, Node.patch]
  | diff value => simp [entry, Node.patch, get_insert]

theorem sorted_insertDeletions (base : List (List Char × Json))
    {patch : List (List Char × Json)} (h : Keyed.Sorted patch) :
    Keyed.Sorted (insertDeletions seen base patch) := by
  induction base generalizing patch with
  | nil => exact h
  | cons e base ih =>
    rw [insertDeletions]
    split_ifs
    · exact ih h
    · exact ih (h.insert e.1 .null)

/-- The deletions are the keys of the base that were not seen. -/
theorem get_insertDeletions (base patch : List (List Char × Json)) (k : List Char) :
    Keyed.get k (insertDeletions seen base patch) =
      if k ∈ base.map Prod.fst ∧ k ∉ seen then some .null else Keyed.get k patch := by
  induction base generalizing patch with
  | nil => simp [insertDeletions]
  | cons e base ih =>
    have hmem : k ∈ (e :: base).map Prod.fst ↔ k = e.1 ∨ k ∈ base.map Prod.fst := by
      rw [List.map_cons, List.mem_cons]
    rw [insertDeletions, ih]
    by_cases hseen : e.1 ∈ seen
    · rw [if_pos hseen]
      refine if_congr ?_ rfl rfl
      rw [hmem, or_and_right]
      exact (or_iff_right fun h => h.2 (h.1 ▸ hseen)).symm
    · rw [if_neg hseen, get_insert]
      by_cases hk : k = e.1
      · rw [if_pos hk, ite_self, if_pos ⟨hmem.mpr (.inl hk), hk ▸ hseen⟩]
      · rw [if_neg hk]
        refine if_congr ?_ rfl rfl
        rw [hmem, or_iff_right hk]

/-- If every new key is an old one and there are as many, no key was removed. -/
theorem mem_of_all_mem {new base : List (List Char)} (hnew : new.Nodup)
    (hsub : ∀ k ∈ new, k ∈ base) (hlen : new.length = base.length) {k : List Char}
    (hk : k ∈ base) : k ∈ new :=
  ((List.subperm_of_subset hnew hsub).perm_of_length_le hlen.ge).symm.subset hk

theorem sorted_finalPatch (h : Keyed.Sorted d.patch) (baseline : Json) :
    Keyed.Sorted (d.finalPatch baseline) := by
  cases baseline with
  | object base =>
    rw [finalPatch]
    split_ifs
    · exact sorted_insertDeletions _ _ h
    · exact h
  | _ => exact h

/-- The scan for removed keys is skipped only where there are none. -/
theorem get_finalPatch {baseline : Json} (hnodup : d.seen.Nodup)
    (hadded : d.addedKey = false → ∀ key ∈ d.seen, (baseline.get key).isSome) (k : List Char) :
    Keyed.get k (d.finalPatch baseline) =
      if (baseline.get k).isSome ∧ k ∉ d.seen then some .null else Keyed.get k d.patch := by
  cases baseline with
  | object base =>
    have hbase : ∀ key, (Json.get (.object base) key).isSome ↔ key ∈ base.map Prod.fst :=
      fun _ => isSome_get_iff
    rw [finalPatch]
    split_ifs with hscan hgone
    · rw [get_insertDeletions, if_pos ⟨(hbase k).mp hgone.1, hgone.2⟩]
    · rw [get_insertDeletions, if_neg fun h => hgone ⟨(hbase k).mpr h.1, h.2⟩]
    · rename_i hgone
      simp only [Bool.or_eq_true, not_or, Bool.not_eq_true, bne_iff_ne, ne_eq,
        Decidable.not_not] at hscan
      have hsub := fun key hkey => (hbase key).mp (hadded hscan.1 key hkey)
      have hlen : d.seen.length = (base.map Prod.fst).length := by
        rw [hscan.2, List.length_map]
      exact absurd (mem_of_all_mem hnodup hsub hlen ((hbase k).mp hgone.1)) hgone.2
    · rfl
  | _ => exact (if_neg fun h => absurd h.1 (by simp [Json.get, Json.entries, Keyed.get])).symm

end MapDiff

namespace Differ

variable (baseline : Json)

theorem child_eq (key : List Char) :
    child baseline key = ((baseline.get key).getD .null, (baseline.get key).isSome) := by
  rw [child]
  cases baseline.get key <;> rfl

/-- What the entries of an object have added up to. -/
theorem serializeEntries_spec (entries : List (List Char × Json))
    (hnodup : (entries.map Prod.fst).Nodup) (d : MapDiff) (forced : Bool)
    (hsorted : Keyed.Sorted d.patch) :
    let r := serializeEntries baseline entries d forced
    r.1.seen = d.seen ++ entries.map Prod.fst ∧
      r.1.addedKey = (d.addedKey || entries.any fun e => !(baseline.get e.1).isSome) ∧
      r.2 = (forced || entries.any fun e =>
        (serialize ((baseline.get e.1).getD .null) e.2).2) ∧
      Keyed.Sorted r.1.patch ∧
      ∀ k, get k r.1.patch =
        match get k entries with
        | none => get k d.patch
        | some value =>
          (serialize ((baseline.get k).getD .null) value).1.patch.or (get k d.patch) := by
  induction entries generalizing d forced with
  | nil => simp [serializeEntries, Keyed.get, hsorted]
  | cons e entries ih =>
    obtain ⟨key, value⟩ := e
    obtain ⟨hkey, hnodup⟩ := List.nodup_cons.mp hnodup
    have hnone : get key entries = none := get_eq_none_iff.mpr hkey
    rw [serializeEntries, child_eq]
    obtain ⟨hseen, hadded, hforced, hsort, hget⟩ := ih hnodup
      (d.entry key (baseline.get key).isSome
        (serialize ((baseline.get key).getD .null) value).1)
      (forced || (serialize ((baseline.get key).getD .null) value).2)
      (MapDiff.sorted_entry hsorted _ _ _)
    refine ⟨?_, ?_, ?_, hsort, fun k => ?_⟩
    · rw [hseen]
      simp [MapDiff.entry]
    · rw [hadded]
      simp [MapDiff.entry, Bool.or_assoc]
    · rw [hforced]
      simp [Bool.or_assoc]
    · rw [hget, MapDiff.get_entry, Keyed.get]
      by_cases hk : k = key
      · subst hk
        simp [hnone]
      · simp [hk]

/-- The patch of an object, key by key: a changed value as its own patch, a removed key as a
null, and nothing for what is the same. -/
theorem serialize_object {entries : List (List Char × Json)} (hs : Keyed.Sorted entries) :
    ∃ patch, Keyed.Sorted patch ∧
      serialize baseline (.object entries) =
        (if patch = [] then .same else .diff (.object patch),
          entries.any fun e => (serialize ((baseline.get e.1).getD .null) e.2).2) ∧
      ∀ k, Keyed.get k patch =
        match Keyed.get k entries with
        | some value => (serialize ((baseline.get k).getD .null) value).1.patch
        | none => if (baseline.get k).isSome then some .null else none := by
  obtain ⟨r, hr⟩ : ∃ r, serializeEntries baseline entries {} false = r := ⟨_, rfl⟩
  have hspec := serializeEntries_spec baseline entries hs.nodup {} false List.Pairwise.nil
  rw [hr] at hspec
  obtain ⟨hseen, hadded, hforced, hsorted, hget⟩ := hspec
  refine ⟨r.1.finalPatch baseline, MapDiff.sorted_finalPatch hsorted baseline, ?_, fun k => ?_⟩
  · rw [serialize, hr]
    exact Prod.ext rfl hforced
  · have hadded' : r.1.addedKey = false → ∀ key ∈ r.1.seen, (baseline.get key).isSome := by
      intro hnone key hkey
      rw [hadded] at hnone
      simp only [hseen, List.nil_append, List.mem_map] at hkey
      obtain ⟨e, he, rfl⟩ := hkey
      have hold := List.any_eq_false.mp (Bool.or_eq_false_iff.mp hnone).2 e he
      rwa [Bool.not_eq_true, Bool.not_eq_false'] at hold
    have hin : k ∈ r.1.seen ↔ (get k entries).isSome := by
      rw [hseen, isSome_get_iff]
      rfl
    rw [MapDiff.get_finalPatch (by simpa [hseen] using hs.nodup) hadded', hget k,
      if_congr (and_congr_right fun _ => not_congr hin) rfl rfl]
    cases Keyed.get k entries <;> simp [Keyed.get]

end Differ

end HermitMoq
