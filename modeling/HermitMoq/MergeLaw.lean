import HermitMoq.JsonDiff

/-!
# When a Patch Gives Back the New Value

A patch is meant to turn the old value into the new one. It does not if the new value puts a
null, or an empty object, where the old value has nothing: the serializer compares both with the
null that stands for a missing value and takes them for the same. `lossy` finds such places.
A null that replaces something else is found by `nulled`; it forces a snapshot.
-/

namespace HermitMoq

open Json Differ Node Keyed List Bool

/-! ### Nulls and empty objects -/

mutual

/-- The value consists of nulls and objects only. -/
def Json.hollow : Json → Bool
  | .null => true
  | .object entries => hollowEntries entries
  | .bool _ | .number _ | .string _ | .array _ => false

def hollowEntries : List (List Char × Json) → Bool
  | [] => true
  | (_, value) :: entries => value.hollow && hollowEntries entries

end

mutual

/-- Somewhere in the new value, a null takes the place of another value of the old one. -/
def nulled : Option Json → Json → Bool
  | old, .null => decide (∃ value ∈ old, value ≠ .null)
  | old, .object entries => nulledEntries (old.getD .null) entries
  | _, .bool _ | _, .number _ | _, .string _ | _, .array _ => false

def nulledEntries : Json → List (List Char × Json) → Bool
  | _, [] => false
  | old, (key, value) :: entries => nulled (old.get key) value || nulledEntries old entries

end

mutual

/-- Somewhere in the new value, there is a null where the old one has nothing, or an empty
object where the old one has no object. -/
def lossy : Option Json → Json → Bool
  | old, .null => old.isNone
  | old, .object entries =>
    (!(old.getD .null).isObject && entries.isEmpty) || lossyEntries (old.getD .null) entries
  | _, .bool _ | _, .number _ | _, .string _ | _, .array _ => false

def lossyEntries : Json → List (List Char × Json) → Bool
  | _, [] => false
  | old, (key, value) :: entries => lossy (old.get key) value || lossyEntries old entries

end

theorem hollowEntries_eq (entries : List (List Char × Json)) :
    hollowEntries entries = entries.all fun e => e.2.hollow := by
  induction entries with
  | nil => rfl
  | cons e entries ih => rw [hollowEntries, ih, all_cons]

theorem nulledEntries_eq (old : Json) (entries : List (List Char × Json)) :
    nulledEntries old entries = entries.any fun e => nulled (old.get e.1) e.2 := by
  induction entries with
  | nil => rfl
  | cons e entries ih => rw [nulledEntries, ih, any_cons]

theorem lossyEntries_eq (old : Json) (entries : List (List Char × Json)) :
    lossyEntries old entries = entries.any fun e => lossy (old.get e.1) e.2 := by
  induction entries with
  | nil => rfl
  | cons e entries ih => rw [lossyEntries, ih, any_cons]

theorem exists_object {j : Json} (h : j.isObject = true) : ∃ entries, j = .object entries := by
  cases j with
  | object entries => exact ⟨entries, rfl⟩
  | _ => cases h

/-! ### Nodes -/

/-- What a node makes of the old value. -/
def Node.apply (old : Option Json) : Node → Option Json
  | same => old
  | diff patch => some (Json.mergePatch (old.getD .null) patch)

namespace Differ

variable {new : Json}

/-- The serializer sets `forced` exactly for a null that takes the place of another value. -/
theorem serialize_snd (old : Option Json) (hnew : new.Valid) :
    (serialize (old.getD .null) new).2 = nulled old new := by
  induction new generalizing old with
  | null =>
    rw [serialize, scalar, nulled]
    cases old with
    | none => simp
    | some value =>
      by_cases h : value = .null <;> simp [h]
  | object entries ih =>
    cases hnew with
    | object hs hv =>
      obtain ⟨_, -, hser, -⟩ := serialize_object (old.getD .null) hs
      rw [hser, nulled, nulledEntries_eq, Bool.eq_iff_iff, List.any_eq_true, List.any_eq_true]
      exact exists_congr fun e => and_congr_right fun he => by rw [ih e he _ (hv e he)]
  | _ =>
    rw [serialize, scalar, nulled]
    split_ifs <;> simp

variable {old : Option Json}

/-- A patch is null only if it was forced. -/
theorem patch_ne_null {patch : Json} (hnew : new.Valid) (hnull : nulled old new = false)
    (hpatch : (serialize (old.getD .null) new).1.patch = some patch) : patch ≠ .null := by
  have hforced := (serialize_snd old hnew).trans hnull
  rintro rfl
  cases hnew with
  | object hs hv =>
    obtain ⟨_, -, hser, -⟩ := serialize_object (old.getD .null) hs
    rw [hser] at hpatch
    split_ifs at hpatch <;> cases hpatch
  | _ =>
    rw [serialize, scalar] at hpatch hforced
    split_ifs at hpatch hforced <;> simp_all [patch]

/-- The patch of a value is a value. -/
theorem valid_patch (baseline : Json) (hnew : new.Valid) {patch : Json}
    (hpatch : (serialize baseline new).1.patch = some patch) : patch.Valid := by
  induction new generalizing baseline patch with
  | object entries ih =>
    cases hnew with
    | object hs hv =>
      obtain ⟨patches, hsorted, hser, hget⟩ := serialize_object baseline hs
      rw [hser] at hpatch
      split_ifs at hpatch
      · cases hpatch
      · obtain rfl := Option.some.inj hpatch
        refine .object hsorted fun e he => ?_
        -- an entry of the patch comes from the new value, or is a null for a removed key
        have hentry := (hget e.1).symm.trans (hsorted.get_of_mem he)
        cases hfound : Keyed.get e.1 entries with
        | some value =>
          rw [hfound] at hentry
          have hmem := mem_of_get hfound
          exact ih _ hmem _ (hv _ hmem) hentry
        | none =>
          rw [hfound] at hentry
          dsimp only at hentry
          split_ifs at hentry
          exact Option.some.inj hentry ▸ .null
  | _ =>
    rw [serialize, scalar] at hpatch
    split_ifs at hpatch
    · cases hpatch
    · exact Option.some.inj hpatch ▸ hnew

/-- So is that of a diff. -/
theorem valid_diff (old : Json) (hnew : new.Valid) : (HermitMoq.diff old new).patch.Valid := by
  have hvalid : ∀ patch, (serialize old new).1.patch = some patch → patch.Valid :=
    fun _ => valid_patch old hnew
  rw [HermitMoq.diff]
  rcases hser : serialize old new with ⟨_ | patch, forced⟩
  · exact .object List.Pairwise.nil nofun
  · exact hvalid patch (by rw [hser]; rfl)

variable {entries : List (List Char × Json)} {patch : List (List Char × Json)}

/-- Merging the patch of an object, key by key: what the nodes make of the old values. -/
theorem get_merge_patch {old : Json} (hold : old.Valid) (hv : ∀ e ∈ entries, e.2.Valid)
    (hnull : nulledEntries old entries = false) (hp : Keyed.Sorted patch)
    (hget : ∀ k, Keyed.get k patch =
      match Keyed.get k entries with
      | some value => (serialize ((old.get k).getD .null) value).1.patch
      | none => if (old.get k).isSome then some .null else none) (k : List Char) :
    Keyed.get k (Json.mergeEntries old.entries patch) =
      match Keyed.get k entries with
      | some value => (serialize ((old.get k).getD .null) value).1.apply (old.get k)
      | none => none := by
  rw [get_mergeEntries hold.sorted hp.nodup, hget k]
  rw [nulledEntries_eq, any_eq_false] at hnull
  cases hk : get k entries with
  | none =>
    cases hget' : old.get k with
    | none => exact hget'
    | some value => rfl
  | some value =>
    have hmem := mem_of_get hk
    cases hnode : (serialize ((old.get k).getD .null) value).1 with
    | same =>
      simp only [hnode, Node.patch]
      rfl
    | diff p =>
      simp only [hnode, Node.patch]
      exact if_neg (patch_ne_null (hv _ hmem) (eq_false_iff.mpr (hnull _ hmem))
        (by rw [hnode]; rfl))

theorem eq_nil_of_get {l : List (List Char × Json)} (h : ∀ k, Keyed.get k l = none) : l = [] := by
  cases l with
  | nil => rfl
  | cons e l =>
    have := h e.1
    rw [Keyed.get, if_pos rfl] at this
    cases this

/-- The merged object is the new one exactly if every node gives back its value. -/
theorem mergeEntries_eq_iff {old : Json} (hold : old.Valid) (hs : Keyed.Sorted entries)
    (hmerge : ∀ k, Keyed.get k (Json.mergeEntries old.entries patch) =
      match Keyed.get k entries with
      | some value => (serialize ((old.get k).getD .null) value).1.apply (old.get k)
      | none => none)
    (hnode : ∀ e ∈ entries, (serialize ((old.get e.1).getD .null) e.2).1.apply (old.get e.1) =
      some e.2 ↔ lossy (old.get e.1) e.2 = false) :
    Json.mergeEntries old.entries patch = entries ↔ lossyEntries old entries = false := by
  rw [lossyEntries_eq, any_eq_false]
  constructor
  · intro heq e he
    have hget := hmerge e.1
    rw [heq, hs.get_of_mem (k := e.1) (a := e.2) he] at hget
    exact eq_false_iff.mp ((hnode e he).mp hget.symm)
  · intro hall
    refine (sorted_mergeEntries hold.sorted patch).ext hs fun k => ?_
    rw [hmerge k]
    cases hk : get k entries with
    | none => rfl
    | some value =>
      have hmem := mem_of_get hk
      exact (hnode _ hmem).mpr (eq_false_iff.mpr (hall _ hmem))

/-- An object of which nothing is left is taken for the value that was there. -/
theorem apply_object_iff (hempty : (old.getD .null).isObject = false → entries = [] → patch = []) :
    (if patch = [] then Node.same else .diff (.object patch)).apply old = some (.object entries) ↔
      (!(old.getD .null).isObject && entries.isEmpty) = false ∧
        Json.mergeEntries (old.getD .null).entries patch = entries := by
  cases hobj : (old.getD .null).isObject with
  | true =>
    obtain ⟨base, rfl⟩ : ∃ base, old = some (.object base) := by
      cases old with
      | none => cases hobj
      | some value =>
        obtain ⟨base, rfl⟩ := exists_object hobj
        exact ⟨base, rfl⟩
    by_cases hpatch : patch = []
    · simp [hpatch, Node.apply, Json.mergeEntries, Json.entries]
    · simp [hpatch, apply, mergePatch]
  | false =>
    have hold : old ≠ some (.object entries) := by
      rintro rfl
      cases hobj
    by_cases hpatch : patch = []
    · rw [if_pos hpatch, hpatch, entries_of_not_object hobj, mergeEntries]
      refine iff_of_false hold ?_
      rintro ⟨hne, rfl⟩
      cases hne
    · have hne : entries ≠ [] := fun hnil => hpatch (hempty hobj hnil)
      simp [hpatch, hne, apply, mergePatch]

/-- A node's verdict gives back the new value exactly if nothing is lost. -/
theorem apply_serialize_iff (hold : ∀ value ∈ old, value.Valid) (hnew : new.Valid)
    (hnull : nulled old new = false) :
    (serialize (old.getD .null) new).1.apply old = some new ↔ lossy old new = false := by
  induction new generalizing old with
  | null =>
    rw [serialize, scalar, lossy]
    rw [nulled] at hnull
    cases old with
    | none => simp [apply]
    | some value =>
      obtain rfl : value = .null := by simpa using hnull
      simp [apply]
  | object entries ih =>
    cases hnew with
    | object hs hv =>
      have hbase : (old.getD .null).Valid := by
        cases old with
        | none => exact .null
        | some value => exact hold value rfl
      obtain ⟨patch, hp, hser, hget⟩ := serialize_object (old.getD .null) hs
      rw [nulled] at hnull
      have hmerge := get_merge_patch hbase hv hnull hp hget
      rw [nulledEntries_eq, any_eq_false] at hnull
      have hiff := mergeEntries_eq_iff hbase hs hmerge fun e he =>
        ih e he (fun value hvalue => hbase.get hvalue) (hv e he)
          (eq_false_iff.mpr (hnull e he))
      have hempty : (old.getD .null).isObject = false → entries = [] → patch = [] := by
        rintro hobj rfl
        refine eq_nil_of_get fun k => ?_
        rw [hget k, Json.get, Json.entries_of_not_object hobj]
        rfl
      rw [hser, apply_object_iff hempty, hiff, lossy, or_eq_false_iff]
  | _ =>
    rw [serialize, scalar, lossy]
    cases old with
    | none => simp [apply, mergePatch]
    | some value => split_ifs with h <;> simp_all [apply, mergePatch]

/-! ### Nothing to do -/

/-- A value is the same as itself. -/
theorem serialize_self {value : Json} (h : value.Valid) : (serialize value value).1 = .same := by
  induction value with
  | object entries ih =>
    cases h with
    | object hs hv =>
      obtain ⟨patch, -, hser, hget⟩ := serialize_object (.object entries) hs
      have hempty : patch = [] := eq_nil_of_get fun k => by
        rw [hget k]
        cases hk : get k entries with
        | none => simp [Json.get, Json.entries, hk]
        | some w =>
          have hmem := mem_of_get hk
          have hself := ih _ hmem (hv _ hmem)
          simp [Json.get, Json.entries, hk, hself, Node.patch]
      rw [hser, if_pos hempty]
  | _ => rw [serialize, scalar, if_pos rfl]

/-- Compared with something that is not an object, an object is the same exactly if it is
hollow. -/
theorem serialize_hollow {baseline : Json} (hbase : baseline.isObject = false)
    (hs : Keyed.Sorted entries)
    (ih : ∀ e ∈ entries, (serialize .null e.2).1 = .same ↔ e.2.hollow = true) :
    (serialize baseline (.object entries)).1 = .same ↔ hollowEntries entries = true := by
  have hnone : ∀ k, baseline.get k = none := fun k => by
    rw [Json.get, Json.entries_of_not_object hbase]
    rfl
  obtain ⟨patch, -, hser, hget⟩ := serialize_object baseline hs
  rw [hser, hollowEntries_eq, all_eq_true]
  constructor
  · intro hsame e he
    have hempty : patch = [] := by
      by_contra hne
      simp [hne] at hsame
    have hk := hget e.1
    rw [hempty, hs.get_of_mem (k := e.1) (a := e.2) he, hnone] at hk
    refine (ih e he).mp ?_
    cases hnode : (serialize .null e.2).1 with
    | same => rfl
    | diff p =>
      simp [Keyed.get, hnode, Node.patch] at hk
  · intro hall
    have hempty : patch = [] := eq_nil_of_get fun k => by
      rw [hget k, hnone]
      cases hk : get k entries with
      | none => rfl
      | some w =>
        have hmem := mem_of_get hk
        have hsame := (ih _ hmem).mpr (hall _ hmem)
        simp [hsame, Node.patch]
    simp [hempty]

/-- Compared with what is missing, a value is the same exactly if it is hollow. -/
theorem serialize_null_iff (h : new.Valid) :
    (serialize .null new).1 = .same ↔ new.hollow = true := by
  induction new with
  | null => simp [serialize, scalar, hollow]
  | object entries ih =>
    cases h with
    | object hs hv =>
      exact serialize_hollow rfl hs fun e he => ih e he (hv e he)
  | _ => simp [serialize, scalar, hollow]

end Differ

/-- A null that takes the place of nothing is not noticed. -/
theorem nulled_none (new : Json) : nulled none new = false := by
  induction new with
  | object entries ih =>
    rw [nulled, nulledEntries_eq, any_eq_false]
    exact fun e he => by simp [Json.get, Json.entries, Keyed.get, ih e he]
  | _ => simp [nulled]

/-! ### The law -/

/-- Unless a snapshot is forced, the patch turns the old value into the new one, and it is empty
exactly if they are equal. -/
def Diff.Lawful (d : Diff) (old new : Json) : Prop :=
  d.forcedSnapshot = false →
    Json.mergePatch old d.patch = new ∧ (d.patch = .object [] ↔ old = new)

/-- The values between which the law holds. -/
def faithful (old new : Json) : Bool :=
  match old.isObject, new.isObject with
  | true, true => nulled (some old) new || !lossy (some old) new
  | true, false => true
  | false, true => !new.hollow
  | false, false => decide (old ≠ new)

/-- A value that is not an object is compared as a whole. -/
theorem serialize_of_not_object {new : Json} (h : new.isObject = false) (baseline : Json) :
    Differ.serialize baseline new = Differ.scalar baseline new := by
  cases new with
  | object entries => cases h
  | _ => rfl

theorem lawful_of_forced {d : Diff} (h : d.forcedSnapshot = true) (old new : Json) :
    d.Lawful old new := fun hno => by
  rw [h] at hno
  cases hno

/-- Between objects. -/
theorem lawful_objects {base entries : List (List Char × Json)} (hold : (Json.object base).Valid)
    (hnew : (Json.object entries).Valid) :
    (diff (.object base) (.object entries)).Lawful (.object base) (.object entries) ↔
      (nulled (some (.object base)) (.object entries) ||
        !lossy (some (.object base)) (.object entries)) = true := by
  have hforced := serialize_snd (some (.object base)) hnew
  rw [Option.getD_some] at hforced
  cases hnull : nulled (some (.object base)) (.object entries) with
  | true =>
    refine iff_of_true (lawful_of_forced ?_ _ _) rfl
    rw [diff]
    split <;> rename_i heq <;> rw [heq] at hforced <;> simp_all
  | false =>
    have hbase : ∀ value ∈ some (object base), value.Valid :=
      fun value hv => Option.some.inj hv ▸ hold
    have hiff := apply_serialize_iff hbase hnew hnull
    rw [hnull] at hforced
    rw [Bool.false_or, Bool.not_eq_true', ← hiff]
    cases hnew with
    | object hs hv =>
      obtain ⟨patch, -, hser, -⟩ := serialize_object (.object base) hs
      by_cases hempty : patch = []
      · have hnode : Differ.serialize (.object base) (.object entries) = (.same, false) :=
          Prod.ext (by rw [hser, if_pos hempty]) hforced
        simp [diff, hnode, Diff.Lawful, apply, mergePatch, mergeEntries,
          Json.entries]
      · have hnode : serialize (.object base) (.object entries) =
            (.diff (.object patch), false) :=
          Prod.ext (by rw [hser, if_neg hempty]) hforced
        have hne : base ≠ entries := by
          rintro rfl
          have := serialize_self hold
          rw [hnode] at this
          cases this
        simp [diff, hnode, Diff.Lawful, apply, isObject, hempty, hne]

/-- Between something else and an object. -/
theorem lawful_to_object {old : Json} (hobj : old.isObject = false)
    {entries : List (List Char × Json)} (hnew : (Json.object entries).Valid) :
    (diff old (.object entries)).Lawful old (.object entries) ↔
      (!(Json.object entries).hollow) = true := by
  have hforced := serialize_snd (some old) hnew
  cases hnew with
  | object hs hv =>
    have hnull : nulled (some old) (.object entries) = false := by
      rw [nulled, nulledEntries_eq, any_eq_false]
      intro e he
      simp [Json.get, Json.entries_of_not_object hobj, Keyed.get, nulled_none]
    have hsame := serialize_hollow hobj hs fun e he =>
      serialize_null_iff (hv e he)
    rw [hnull, Option.getD_some] at hforced
    rw [hollow, not_eq_true']
    cases hnode : (serialize old (.object entries)).1 with
    | same =>
      have hser : serialize old (.object entries) = (.same, false) :=
        Prod.ext hnode hforced
      rw [hsame.mp hnode]
      refine iff_of_false (fun hlaw => ?_) (by simp)
      rw [diff, hser] at hlaw
      have heq := (hlaw rfl).2.mp rfl
      rw [heq] at hobj
      cases hobj
    | diff patch =>
      have hser : serialize old (.object entries) = (.diff patch, false) :=
        Prod.ext hnode hforced
      have hnot : hollowEntries entries = false := by
        rw [eq_false_iff]
        intro hh
        rw [hsame.mpr hh] at hnode
        cases hnode
      refine iff_of_true (lawful_of_forced ?_ _ _) hnot
      simp [diff, hser, hobj]

/-- To something that is not an object. -/
theorem lawful_of_not_object {old new : Json} (hnew : new.isObject = false) :
    (diff old new).Lawful old new ↔ old ≠ new := by
  have hser := serialize_of_not_object hnew old
  rw [scalar] at hser
  by_cases heq : old = new
  · rw [if_pos heq] at hser
    refine iff_of_false (fun hlaw => ?_) (not_not.mpr heq)
    rw [diff, hser] at hlaw
    have := (hlaw rfl).1
    rw [← this] at hnew
    cases hnew
  · rw [if_neg heq] at hser
    refine iff_of_true (lawful_of_forced ?_ _ _) heq
    simp [diff, hser, hnew]

/-- The law holds exactly between faithful values. -/
theorem diff_lawful_iff {old new : Json} (hold : old.Valid) (hnew : new.Valid) :
    (diff old new).Lawful old new ↔ faithful old new = true := by
  rw [faithful]
  cases hobj : new.isObject with
  | false =>
    rw [lawful_of_not_object hobj]
    cases hobj' : old.isObject with
    | false => simp
    | true =>
      refine iff_of_true ?_ rfl
      rintro rfl
      rw [hobj] at hobj'
      cases hobj'
  | true =>
    obtain ⟨_, rfl⟩ := exists_object hobj
    cases hobj' : old.isObject with
    | false => exact lawful_to_object hobj' hnew
    | true =>
      obtain ⟨_, rfl⟩ := exists_object hobj'
      exact lawful_objects hold hnew

end HermitMoq
