import HermitMoq.Encode
import HermitMoq.IetfFields

/-!
# Setup Parameters

The encoder of `Parameters` in `ietf/parameters.rs` against its decoder. Drafts 14 and 15 write
the number of parameters and each under its own key, draft 16 writes them in the order of their
keys and the differences of these, and later drafts leave out the number and read up to the end.
The parity of a key tells whether it has an integer or a byte string. `Block` says which entries
a piece of input consists of, with no restriction on them.
-/

namespace HermitMoq

open List Nat Encode

namespace Ietf

/-- `ParamRef`. -/
inductive ParamRef
  | var (value : ℕ)
  | bytes (value : List UInt8)
  deriving DecidableEq, Repr

/-- The value of a parameter in a block. -/
def ParamRef.encode (version : Version) : ParamRef → Encode
  | var value => Encode.u64 version value
  | bytes value =>
    if value.length > maxKvpValueLen then .error .boundsExceeded
    else Encode.bytes version value

namespace Parameters

/-- The entries of both maps. -/
def all (params : Parameters) : List (ℕ × ParamRef) :=
  params.vars.map (fun entry => (entry.1, .var entry.2)) ++
    params.bytes.map (fun entry => (entry.1, .bytes entry.2))

/-- The entries of both maps in the order of their keys. -/
def sorted (params : Parameters) : List (ℕ × ParamRef) :=
  params.all.mergeSort fun a b => a.1 ≤ b.1

/-- The difference of a key to the one before it. -/
def delta (previous : Option ℕ) (kind : ℕ) : ℕ :=
  match previous with
  | none => kind
  | some previous => kind - previous

/-- The loop over the sorted entries. -/
def encodeDeltas (version : Version) : Option ℕ → List (ℕ × ParamRef) → List Encode
  | _, [] => []
  | previous, (kind, value) :: all =>
    Encode.u64 version (delta previous kind) :: value.encode version ::
      encodeDeltas version (some kind) all

/-- `Parameters::encode`. -/
def encode (version : Version) (params : Parameters) : Encode :=
  if params.all.length > maxParams then .error .tooMany
  else
    match version with
    | .draft14 | .draft15 =>
      .seq (Encode.u64 version params.all.length ::
        params.vars.map (fun (kind, value) =>
          .seq [Encode.u64 version kind, Encode.u64 version value]) ++
        params.bytes.map (fun (kind, value) =>
          if value.length > maxKvpValueLen then .error .boundsExceeded
          else .seq [Encode.u64 version kind, Encode.bytes version value]))
    | .draft16 =>
      .seq (Encode.u64 version params.all.length :: encodeDeltas version none params.sorted)
    | _ => .seq (encodeDeltas version none params.sorted)

end Parameters

/-! ### Blocks -/

/-- The value of a key, with no regard to other keys. -/
def decodeRef (version : Version) (kind : ℕ) : Decode ParamRef :=
  if kind % 2 = 0 then ParamRef.var <$> Decode.u64 version
  else do
    let value ← Decode.bytes version
    if value.length > maxKvpValueLen then Decode.fail .boundsExceeded else pure (.bytes value)

/-- The input from `buf` up to `rest` is these entries, after the key `previous`. -/
inductive Block (version : Version) :
    Option ℕ → List (ℕ × ParamRef) → List UInt8 → List UInt8 → Prop
  | nil {previous : Option ℕ} {buf : List UInt8} : Block version previous [] buf buf
  | cons {previous : Option ℕ} {kind : ℕ} {value : ParamRef} {all : List (ℕ × ParamRef)}
      {buf buf₁ buf₂ rest : List UInt8}
      (hkey : (decodeKey version previous).run buf = .ok (kind, buf₁))
      (hvalue : (decodeRef version kind).run buf₁ = .ok (value, buf₂))
      (htail : Block version (some kind) all buf₂ rest) :
      Block version previous ((kind, value) :: all) buf rest

/-- The draft writes the number of parameters. -/
def Version.counted : Version → Bool
  | .draft14 | .draft15 | .draft16 => true
  | _ => false

/-- The draft writes the differences of keys. -/
def Version.usesDeltas : Version → Bool
  | .draft14 | .draft15 => false
  | _ => true

/-- The input from `buf` up to `rest` is a block of parameters, with its number if there is
one. -/
def IsBlock (version : Version) (all : List (ℕ × ParamRef)) (buf rest : List UInt8) : Prop :=
  if version.counted then
    ∃ buf₁, (Decode.u64 version).run buf = .ok (all.length, buf₁) ∧ Block version none all buf₁ rest
  else Block version none all buf rest ∧ rest = []

namespace Parameters

/-- The keys. -/
def keys (params : Parameters) : List ℕ := params.vars.map Prod.fst ++ params.bytes.map Prod.fst

/-- Even keys have integers and odd keys have byte strings. -/
def Tagged (params : Parameters) : Prop :=
  (∀ entry ∈ params.vars, entry.1 % 2 = 0) ∧ ∀ entry ∈ params.bytes, entry.1 % 2 = 1

/-- One more entry. -/
def add (params : Parameters) (entry : ℕ × ParamRef) : Parameters :=
  match entry with
  | (kind, .var value) => { params with vars := params.vars ++ [(kind, value)] }
  | (kind, .bytes value) => { params with bytes := params.bytes ++ [(kind, value)] }

variable {version : Version} {params : Parameters} {kind : ℕ} {value : ParamRef}
  {buf rest : List UInt8}

/-- The value of a key has the type that the key has. -/
theorem decodeRef_ok (h : (decodeRef version kind).run buf = .ok (value, rest)) :
    (∃ v, value = .var v ∧ kind % 2 = 0) ∨ ∃ v, value = .bytes v ∧ kind % 2 = 1 := by
  rw [decodeRef] at h
  split_ifs at h with hparity
  · obtain ⟨v, hv, rfl⟩ := Parser.run_map_eq_ok.mp h
    exact .inl ⟨v, rfl, hparity⟩
  · obtain ⟨v, _, -, hok⟩ := Parser.run_bind_eq_ok.mp h
    split_ifs at hok
    · cases hok
    · cases hok
      exact .inr ⟨v, rfl, by omega⟩

/-- A parameter that was read keeps the keys in their maps. -/
theorem Tagged.add (hparams : params.Tagged)
    (h : (decodeRef version kind).run buf = .ok (value, rest)) :
    (params.add (kind, value)).Tagged := by
  rcases decodeRef_ok h with ⟨v, rfl, hparity⟩ | ⟨_, rfl, hparity⟩
  · refine ⟨fun entry hmem => ?_, hparams.2⟩
    rcases mem_append.mp hmem with hmem | hmem
    · exact hparams.1 entry hmem
    · exact mem_singleton.mp hmem ▸ hparity
  · refine ⟨hparams.1, fun entry hmem => ?_⟩
    rcases mem_append.mp hmem with hmem | hmem
    · exact hparams.2 entry hmem
    · exact mem_singleton.mp hmem ▸ hparity

theorem keys_add_perm (params : Parameters) (entry : ℕ × ParamRef) :
    (params.add entry).keys.Perm (entry.1 :: params.keys) := by
  obtain ⟨_, value⟩ := entry
  cases value with
  | var v =>
    simp only [keys, add, map_append, map_cons, map_nil, append_assoc]
    exact perm_middle
  | bytes v =>
    simp only [keys, add, map_append, map_cons, map_nil, ← append_assoc]
    exact perm_append_singleton _ _

variable {params' : Parameters}

/-- An entry is accepted if its key is new. -/
theorem decodeEntry_eq_ok_iff (hparams : params.Tagged) :
    (decodeEntry version params kind).run buf = .ok (params', rest) ↔
      ∃ value, (decodeRef version kind).run buf = .ok (value, rest) ∧ kind ∉ params.keys ∧
        params' = params.add (kind, value) := by
  rw [decodeEntry, decodeRef]
  by_cases hparity : kind % 2 = 0
  · have hbytes : kind ∉ params.bytes.map Prod.fst := by
      rintro hmem
      obtain ⟨entry, hentry, rfl⟩ := mem_map.mp hmem
      have := hparams.2 entry hentry
      omega
    have hkeys : kind ∈ params.keys ↔ kind ∈ params.vars.map Prod.fst := by
      rw [keys, mem_append, or_iff_left hbytes]
    rw [if_pos hparity, if_pos hparity, hkeys]
    split_ifs with hdup
    · refine iff_of_false (by rintro ⟨⟩) ?_
      rintro ⟨_, _, hnew, _⟩
      exact hnew hdup
    · rw [Parser.run_bind_eq_ok]
      constructor
      · rintro ⟨v, buf₁, hv, ⟨⟩⟩
        exact ⟨.var v, Parser.run_map_eq_ok.mpr ⟨v, hv, rfl⟩, hdup, rfl⟩
      · rintro ⟨value, hvalue, -, rfl⟩
        obtain ⟨v, hv, rfl⟩ := Parser.run_map_eq_ok.mp hvalue
        exact ⟨v, rest, hv, rfl⟩
  · have hvars : kind ∉ params.vars.map Prod.fst := by
      rintro hmem
      obtain ⟨entry, hentry, rfl⟩ := mem_map.mp hmem
      exact hparity (hparams.1 entry hentry)
    have hkeys : kind ∈ params.keys ↔ kind ∈ params.bytes.map Prod.fst := by
      rw [keys, mem_append, or_iff_right hvars]
    rw [if_neg hparity, if_neg hparity, hkeys, Parser.run_bind_eq_ok]
    constructor
    · rintro ⟨v, buf₁, hv, hok⟩
      split_ifs at hok with hlong hdup
      · cases hok
      · cases hok
      · cases hok
        refine ⟨.bytes v, Parser.run_bind_eq_ok.mpr ⟨v, rest, hv, ?_⟩, hdup, rfl⟩
        rw [if_neg hlong]
        rfl
    · rintro ⟨_, hvalue, hdup, rfl⟩
      obtain ⟨v, _, hv, hok⟩ := Parser.run_bind_eq_ok.mp hvalue
      split_ifs at hok with hlong
      · cases hok
      · cases hok
        refine ⟨v, rest, hv, ?_⟩
        rw [if_neg hlong, if_neg hdup]
        rfl

/-- The entries of a block, added one after another. -/
def addAll (params : Parameters) (all : List (ℕ × ParamRef)) : Parameters := all.foldl add params

/-- Entries whose keys are new and different. -/
def Fresh (params : Parameters) (all : List (ℕ × ParamRef)) : Prop :=
  (all.map Prod.fst).Nodup ∧ ∀ kind ∈ all.map Prod.fst, kind ∉ params.keys

theorem fresh_cons (params : Parameters) (entry : ℕ × ParamRef) (all : List (ℕ × ParamRef)) :
    params.Fresh (entry :: all) ↔ entry.1 ∉ params.keys ∧ (params.add entry).Fresh all := by
  have hkeys : ∀ {kind}, kind ∈ (params.add entry).keys ↔ kind = entry.1 ∨ kind ∈ params.keys :=
    fun {kind} => (keys_add_perm params entry).mem_iff.trans mem_cons
  rw [Fresh, Fresh, map_cons, nodup_cons, forall_mem_cons]
  grind

variable {previous : Option ℕ}

/-- What is read by number is a block of so many new keys. -/
theorem decodeCounted_eq_ok_iff {count : ℕ} (hparams : params.Tagged) :
    (decodeCounted version count previous params).run buf = .ok (params', rest) ↔
      ∃ all, all.length = count ∧ Block version previous all buf rest ∧ params.Fresh all ∧
        params' = params.addAll all := by
  induction count generalizing params previous buf with
  | zero =>
    constructor
    · rintro ⟨⟩
      exact ⟨[], rfl, .nil, ⟨nodup_nil, by simp⟩, rfl⟩
    · rintro ⟨all, hlen, hblock, -, rfl⟩
      obtain rfl := length_eq_zero_iff.mp hlen
      cases hblock
      rfl
  | succ count ih =>
    rw [decodeCounted, Parser.run_bind_eq_ok]
    constructor
    · rintro ⟨kind, _, hkey, hok⟩
      obtain ⟨_, _, hentry, hok⟩ := Parser.run_bind_eq_ok.mp hok
      obtain ⟨value, hvalue, hnew, rfl⟩ := (decodeEntry_eq_ok_iff hparams).mp hentry
      obtain ⟨all, rfl, hblock, hfresh, rfl⟩ := (ih (hparams.add hvalue)).mp hok
      exact ⟨(kind, value) :: all, rfl, .cons hkey hvalue hblock,
        (fresh_cons _ _ _).mpr ⟨hnew, hfresh⟩, rfl⟩
    · rintro ⟨_, hlen, hblock, hfresh, rfl⟩
      cases hblock with
      | nil => cases hlen
      | cons hkey hvalue htail =>
        obtain ⟨hnew, hfresh⟩ := (fresh_cons _ _ _).mp hfresh
        refine ⟨_, _, hkey, Parser.run_bind_eq_ok.mpr ⟨_, _,
          (decodeEntry_eq_ok_iff hparams).mpr ⟨_, hvalue, hnew, rfl⟩, ?_⟩⟩
        exact (ih (hparams.add hvalue)).mpr ⟨_, succ.inj hlen, htail, hfresh, rfl⟩

theorem run_u64_nil (version : Version) : ∃ e, (Decode.u64 version).run [] = .error e := by
  cases version <;> exact ⟨_, rfl⟩

/-- There is no key at the end. -/
theorem decodeKey_nil {buf₁ : List UInt8}
    (h : (decodeKey version previous).run [] = .ok (kind, buf₁)) : False := by
  obtain ⟨_, he⟩ := run_u64_nil version
  obtain ⟨_, _, hkey, -⟩ := Parser.run_bind_eq_ok.mp h
  rw [he] at hkey
  cases hkey

variable {all : List (ℕ × ParamRef)}

theorem block_nil (h : Block version previous all [] rest) : all = [] ∧ rest = [] := by
  cases h with
  | nil => exact ⟨rfl, rfl⟩
  | cons hkey _ _ => exact (decodeKey_nil hkey).elim

theorem decodeAll_nil (room : ℕ) (previous : Option ℕ) (params : Parameters) :
    (decodeAll version room previous params).run [] = .ok (params, []) := by
  unfold decodeAll
  rfl

theorem decodeAll_end {room : ℕ} :
    (decodeAll version room previous params).run [] = .ok (params', rest) ↔
      ∃ all, all.length ≤ room ∧ Block version previous all [] rest ∧ rest = [] ∧
        params.Fresh all ∧ params' = params.addAll all := by
  rw [decodeAll_nil]
  constructor
  · rintro ⟨⟩
    exact ⟨[], zero_le _, .nil, rfl, ⟨nodup_nil, by simp⟩, rfl⟩
  · rintro ⟨_, -, hblock, rfl, -, rfl⟩
    obtain ⟨rfl, -⟩ := block_nil hblock
    rfl

theorem decodeAll_succ (room : ℕ) (previous : Option ℕ) (params : Parameters) (b : UInt8) :
    (decodeAll version (room + 1) previous params).run (b :: buf) =
      Parser.run (do
        let kind ← decodeKey version previous
        let params ← decodeEntry version params kind
        decodeAll version room (some kind) params) (b :: buf) := by
  conv_lhs => unfold decodeAll
  rfl

/-- What is read to the end is a block of new keys with room. -/
theorem decodeAll_eq_ok_iff {room : ℕ} (hparams : params.Tagged) :
    (decodeAll version room previous params).run buf = .ok (params', rest) ↔
      ∃ all, all.length ≤ room ∧ Block version previous all buf rest ∧ rest = [] ∧
        params.Fresh all ∧ params' = params.addAll all := by
  induction room generalizing params previous buf with
  | zero =>
    cases buf with
    | nil => exact decodeAll_end
    | cons b buf =>
      refine iff_of_false (by rintro ⟨⟩) ?_
      rintro ⟨all, hlen, hblock, hend, -⟩
      obtain rfl := length_eq_zero_iff.mp (le_zero.mp hlen)
      cases hblock
      cases hend
  | succ room ih =>
    cases buf with
    | nil => exact decodeAll_end
    | cons b buf =>
      rw [decodeAll_succ, Parser.run_bind_eq_ok]
      constructor
      · rintro ⟨kind, _, hkey, hok⟩
        obtain ⟨_, _, hentry, hok⟩ := Parser.run_bind_eq_ok.mp hok
        obtain ⟨value, hvalue, hnew, rfl⟩ := (decodeEntry_eq_ok_iff hparams).mp hentry
        obtain ⟨all, hlen, hblock, hend, hfresh, rfl⟩ := (ih (hparams.add hvalue)).mp hok
        exact ⟨(kind, value) :: all, succ_le_succ hlen, .cons hkey hvalue hblock, hend,
          (fresh_cons _ _ _).mpr ⟨hnew, hfresh⟩, rfl⟩
      · rintro ⟨_, hlen, hblock, hend, hfresh, rfl⟩
        cases hblock with
        | nil => cases hend
        | cons hkey hvalue htail =>
          obtain ⟨hnew, hfresh⟩ := (fresh_cons _ _ _).mp hfresh
          refine ⟨_, _, hkey, Parser.run_bind_eq_ok.mpr ⟨_, _,
            (decodeEntry_eq_ok_iff hparams).mpr ⟨_, hvalue, hnew, rfl⟩, ?_⟩⟩
          exact (ih (hparams.add hvalue)).mpr
            ⟨_, le_of_succ_le_succ hlen, htail, hend, hfresh, rfl⟩

theorem decode_of_counted (h : version.counted = true) :
    decode version = (do
      let count ← Decode.u64 version
      if count > maxParams then Decode.fail .tooMany
      else decodeCounted version count none {}) := by
  cases version <;> first | rfl | cases h

theorem decode_of_not_counted (h : version.counted = false) :
    decode version = decodeAll version maxParams none {} := by
  cases version <;> first | rfl | cases h

theorem tagged_empty : Tagged {} := ⟨by simp, by simp⟩

theorem fresh_empty : Fresh {} all ↔ (all.map Prod.fst).Nodup :=
  and_iff_left fun _ _ => not_mem_nil

/-- Exactly the blocks of at most 64 entries with different keys are accepted. -/
theorem decode_eq_ok_iff :
    (decode version).run buf = .ok (params, rest) ↔
      ∃ all, IsBlock version all buf rest ∧ all.length ≤ maxParams ∧ (all.map Prod.fst).Nodup ∧
        params = addAll {} all := by
  cases hcounted : version.counted with
  | true =>
    simp only [IsBlock, hcounted, if_true]
    rw [decode_of_counted hcounted, Parser.run_bind_eq_ok]
    constructor
    · rintro ⟨_, buf₁, hcount, hok⟩
      split_ifs at hok with hmany
      · cases hok
      · obtain ⟨all, rfl, hblock, hfresh, rfl⟩ := (decodeCounted_eq_ok_iff tagged_empty).mp hok
        exact ⟨all, ⟨buf₁, hcount, hblock⟩, Nat.le_of_not_lt hmany, fresh_empty.mp hfresh, rfl⟩
    · rintro ⟨all, ⟨buf₁, hcount, hblock⟩, hle, hnodup, rfl⟩
      refine ⟨all.length, buf₁, hcount, ?_⟩
      rw [if_neg (not_lt.mpr hle)]
      exact (decodeCounted_eq_ok_iff tagged_empty).mpr
        ⟨all, rfl, hblock, fresh_empty.mpr hnodup, rfl⟩
  | false =>
    simp only [IsBlock, hcounted, Bool.false_eq_true, if_false]
    rw [decode_of_not_counted hcounted, decodeAll_eq_ok_iff tagged_empty]
    refine exists_congr fun all => ?_
    rw [fresh_empty]
    constructor
    · rintro ⟨hle, hblock, hend, h⟩
      exact ⟨⟨hblock, hend⟩, hle, h⟩
    · rintro ⟨⟨hblock, hend⟩, hle, h⟩
      exact ⟨hle, hblock, hend, h⟩

end Parameters

variable {version : Version} {all all' : List (ℕ × ParamRef)} {previous : Option ℕ}
  {buf rest rest' : List UInt8}

/-- Input is a block of a given length in one way. -/
theorem Block.unique (h : Block version previous all buf rest)
    (h' : Block version previous all' buf rest') (hlen : all.length = all'.length) :
    all = all' ∧ rest = rest' := by
  induction h generalizing all' with
  | nil =>
    obtain rfl := length_eq_zero_iff.mp hlen.symm
    cases h'
    exact ⟨rfl, rfl⟩
  | cons hkey hvalue htail ih =>
    cases h' with
    | nil => cases hlen
    | cons hkey' hvalue' htail' =>
      cases hkey.symm.trans hkey'
      cases hvalue.symm.trans hvalue'
      obtain ⟨rfl, rfl⟩ := ih htail' (succ.inj hlen)
      exact ⟨rfl, rfl⟩

/-- Input that is a block up to its end is one in one way. -/
theorem Block.unique_to_end (h : Block version previous all buf [])
    (h' : Block version previous all' buf []) : all = all' := by
  generalize hend : ([] : List UInt8) = rest at h
  induction h generalizing all' with
  | nil =>
    subst hend
    exact (Parameters.block_nil h').1.symm
  | cons hkey hvalue htail ih =>
    cases h' with
    | nil => exact (Parameters.decodeKey_nil hkey).elim
    | cons hkey' hvalue' htail' =>
      cases hkey.symm.trans hkey'
      cases hvalue.symm.trans hvalue'
      rw [ih htail' hend]

/-- Bytes are a block of one list of parameters at most. -/
theorem IsBlock.unique (h : IsBlock version all buf rest) (h' : IsBlock version all' buf rest') :
    all = all' := by
  rw [IsBlock] at h h'
  split_ifs at h h'
  · obtain ⟨buf₁, hcount, hblock⟩ := h
    obtain ⟨buf₂, hcount', hblock'⟩ := h'
    have heq := Except.ok.inj (hcount.symm.trans hcount')
    obtain rfl : buf₁ = buf₂ := congrArg Prod.snd heq
    exact (hblock.unique hblock' (congrArg Prod.fst heq)).1
  · obtain ⟨hblock, rfl⟩ := h
    obtain ⟨hblock', rfl⟩ := h'
    exact hblock.unique_to_end hblock'

variable {kind : ℕ} {entry : ℕ × ParamRef}

/-- Behind differences, a key is not below the one before it. -/
theorem decodeKey_le (hdeltas : version.usesDeltas = true) {p : ℕ} {buf₁ : List UInt8}
    (h : (decodeKey version (some p)).run buf = .ok (kind, buf₁)) : p ≤ kind := by
  obtain ⟨_, _, -, hok⟩ := Parser.run_bind_eq_ok.mp h
  cases version with
  | draft14 | draft15 => cases hdeltas
  | draft16 | draft17 | draft18 =>
    dsimp only at hok
    split_ifs at hok
    · cases hok
      exact le_add_right _ _
    · cases hok

/-- Behind differences, keys do not decrease. -/
theorem Block.pairwise_le (hdeltas : version.usesDeltas = true)
    (h : Block version previous all buf rest) :
    (all.map Prod.fst).Pairwise (· ≤ ·) ∧ ∀ p ∈ previous, ∀ kind ∈ all.map Prod.fst, p ≤ kind := by
  induction h with
  | nil => exact ⟨.nil, by simp⟩
  | cons hkey hvalue htail ih =>
    rename_i previous kind value all buf buf₁ buf₂ rest
    obtain ⟨hpairwise, hle⟩ := ih
    refine ⟨pairwise_cons.mpr ⟨hle kind rfl, hpairwise⟩, ?_⟩
    rintro p rfl k hk
    have hp := decodeKey_le hdeltas hkey
    rcases mem_cons.mp hk with rfl | hk
    · exact hp
    · exact hp.trans (hle kind rfl k hk)

theorem IsBlock.block (h : IsBlock version all buf rest) :
    ∃ buf₁, Block version none all buf₁ rest := by
  rw [IsBlock] at h
  split_ifs at h
  · obtain ⟨buf₁, -, hblock⟩ := h
    exact ⟨buf₁, hblock⟩
  · exact ⟨buf, h.1⟩

/-! ### Round trips -/

/-- An entry that can be written: its key and its value fit 62 bits, and a byte string is not too
long. -/
def Writable (entry : ℕ × ParamRef) : Prop :=
  entry.1 < 2 ^ 62 ∧
    match entry.2 with
    | .var value => entry.1 % 2 = 0 ∧ value < 2 ^ 62
    | .bytes value => entry.1 % 2 = 1 ∧ value.length ≤ maxKvpValueLen

/-- The value of a parameter is read back. -/
theorem Writable.transfers (h : Writable entry) :
    Transfers (entry.2.encode version) (decodeRef version entry.1) entry.2 := by
  obtain ⟨_, value⟩ := entry
  obtain ⟨-, hvalue⟩ := h
  cases value with
  | var value =>
    obtain ⟨hparity, hlt⟩ := hvalue
    rw [decodeRef, if_pos hparity]
    exact (transfers_u64 hlt).map _
  | bytes value =>
    obtain ⟨hparity, hle⟩ := hvalue
    have hlong := not_lt.mpr hle
    have hlt : value.length < 2 ^ 62 := lt_of_le_of_lt hle (by decide)
    rw [decodeRef, if_neg (by dsimp only at hparity ⊢; omega), ParamRef.encode, if_neg hlong]
    exact (transfers_bytes hlt).then_pure (if_neg hlong)

/-- What is written is a block of these entries, whatever follows. -/
def WritesBlock (version : Version) (previous : Option ℕ) (all : List (ℕ × ParamRef))
    (w : Encode) : Prop :=
  ∃ puts, w = .ok puts ∧ ∀ rest, Block version previous all (Put.written puts ++ rest) rest

theorem WritesBlock.cons {value : ParamRef} {key ref : Encode} {ws : List Encode}
    (hkey : Transfers key (decodeKey version previous) kind)
    (hvalue : Transfers ref (decodeRef version kind) value)
    (htail : WritesBlock version (some kind) all (.seq ws)) :
    WritesBlock version previous ((kind, value) :: all) (.seq (key :: ref :: ws)) := by
  obtain ⟨a, rfl, ha⟩ := hkey
  obtain ⟨b, rfl, hb⟩ := hvalue
  obtain ⟨c, hc, hblock⟩ := htail
  refine ⟨a ++ (b ++ c), by rw [Output.seq, Output.seq, hc]; rfl, fun rest => ?_⟩
  rw [Put.written_append, Put.written_append, append_assoc, append_assoc]
  exact .cons (ha _) (hb _) (hblock rest)

/-- The difference of keys is read as the key. -/
theorem transfers_delta (hdeltas : version.usesDeltas = true) (hkind : kind < 2 ^ 62)
    (hle : ∀ p ∈ previous, p ≤ kind) :
    Transfers (Encode.u64 version (Parameters.delta previous kind)) (decodeKey version previous)
      kind := by
  have hlt : Parameters.delta previous kind < 2 ^ 62 := by
    cases previous with
    | none => exact hkind
    | some p => exact lt_of_le_of_lt (sub_le _ _) hkind
  refine (transfers_u64 hlt).then_pure ?_
  cases previous with
  | none => cases version <;> rfl
  | some p =>
    have heq : p + Parameters.delta (some p) kind = kind := add_sub_of_le (hle p rfl)
    have hfits : kind < 2 ^ 64 := lt_trans hkind (by decide)
    cases version with
    | draft14 | draft15 => cases hdeltas
    | draft16 | draft17 | draft18 =>
      dsimp only
      rw [heq, if_pos hfits]

/-- In the order of the keys, deltas write a block. -/
theorem writesBlock_deltas (hdeltas : version.usesDeltas = true)
    (hsorted : (all.map Prod.fst).Pairwise (· ≤ ·))
    (hle : ∀ p ∈ previous, ∀ kind ∈ all.map Prod.fst, p ≤ kind)
    (hall : ∀ entry ∈ all, Writable entry) :
    WritesBlock version previous all (.seq (Parameters.encodeDeltas version previous all)) := by
  induction all generalizing previous with
  | nil => exact ⟨[], rfl, fun rest => .nil⟩
  | cons entry all ih =>
    have hentry := hall entry mem_cons_self
    obtain ⟨hfirst, hsorted⟩ := pairwise_cons.mp hsorted
    refine .cons (transfers_delta hdeltas hentry.1 fun p hp =>
      hle p hp _ mem_cons_self) hentry.transfers (ih hsorted ?_ ?_)
    · rintro p ⟨⟩ kind hkind
      exact hfirst kind hkind
    · exact fun other hother => hall other (mem_cons_of_mem _ hother)

/-- A key of its own is read. -/
theorem transfers_key (hdeltas : version.usesDeltas = false) (hkind : kind < 2 ^ 62) :
    Transfers (Encode.u64 version kind) (decodeKey version previous) kind := by
  refine (transfers_u64 hkind).then_pure ?_
  cases version with
  | draft14 | draft15 => cases previous <;> rfl
  | draft16 | draft17 | draft18 => cases hdeltas

/-- An entry of drafts 14 and 15. -/
def encodeEntry (version : Version) : ℕ × ParamRef → Encode
  | (kind, .var value) => .seq [Encode.u64 version kind, Encode.u64 version value]
  | (kind, .bytes value) =>
    if value.length > maxKvpValueLen then .error .boundsExceeded
    else .seq [Encode.u64 version kind, Encode.bytes version value]

theorem Writable.encodeEntry_eq (h : Writable entry) :
    encodeEntry version entry =
      .seq [Encode.u64 version entry.1, entry.2.encode version] := by
  obtain ⟨_, value⟩ := entry
  cases value with
  | var value => rfl
  | bytes value =>
    have hlong : ¬ value.length > maxKvpValueLen := not_lt.mpr h.2.2
    rw [encodeEntry, ParamRef.encode, if_neg hlong, if_neg hlong]

theorem seq_pair_cons (a b : Encode) (ws : List Encode) :
    Output.seq (.seq [a, b] :: ws) = Output.seq (a :: b :: ws) := by
  cases a <;> cases b <;> cases h : Output.seq ws <;>
    simp [Output.seq, h, bind, Except.bind]

theorem writesBlock_entries (hdeltas : version.usesDeltas = false)
    (hall : ∀ entry ∈ all, Writable entry) :
    WritesBlock version previous all (.seq (all.map (encodeEntry version))) := by
  induction all generalizing previous with
  | nil => exact ⟨[], rfl, fun rest => .nil⟩
  | cons entry all ih =>
    have hentry := hall entry mem_cons_self
    rw [map_cons, hentry.encodeEntry_eq, seq_pair_cons]
    exact .cons (transfers_key hdeltas hentry.1) hentry.transfers
      (ih fun other hother => hall other (mem_cons_of_mem _ hother))

namespace Parameters

/-- The integer of an entry. -/
def asVar : ℕ × ParamRef → Option (ℕ × ℕ)
  | (kind, .var value) => some (kind, value)
  | _ => none

/-- The byte string of an entry. -/
def asBytes : ℕ × ParamRef → Option (ℕ × List UInt8)
  | (kind, .bytes value) => some (kind, value)
  | _ => none

theorem addAll_eq (params : Parameters) (all : List (ℕ × ParamRef)) :
    (params.addAll all).vars = params.vars ++ all.filterMap asVar ∧
      (params.addAll all).bytes = params.bytes ++ all.filterMap asBytes := by
  induction all generalizing params with
  | nil => simp [addAll]
  | cons entry all ih =>
    obtain ⟨kind, value⟩ := entry
    obtain ⟨hvars, hbytes⟩ := ih (params.add (kind, value))
    rw [addAll, foldl_cons, ← addAll, hvars, hbytes]
    cases value <;> simp [add, filterMap_cons, asVar, asBytes]

/-- The two maps are found in the list of all parameters. -/
theorem filterMap_all (params : Parameters) :
    params.all.filterMap asVar = params.vars ∧ params.all.filterMap asBytes = params.bytes := by
  have hvar : ∀ l : List (ℕ × ℕ), (l.map fun e => (e.1, ParamRef.var e.2)).filterMap asVar = l ∧
      (l.map fun e => (e.1, ParamRef.var e.2)).filterMap asBytes = [] := fun l => by
    rw [filterMap_map, filterMap_map]
    exact ⟨filterMap_some, filterMap_eq_nil_iff.mpr fun _ _ => rfl⟩
  have hbytes : ∀ l : List (ℕ × List UInt8),
      (l.map fun e => (e.1, ParamRef.bytes e.2)).filterMap asVar = [] ∧
      (l.map fun e => (e.1, ParamRef.bytes e.2)).filterMap asBytes = l := fun l => by
    rw [filterMap_map, filterMap_map]
    exact ⟨filterMap_eq_nil_iff.mpr fun _ _ => rfl, filterMap_some⟩
  rw [all, filterMap_append, filterMap_append, (hvar _).1, (hvar _).2, (hbytes _).1,
    (hbytes _).2]
  exact ⟨append_nil _, nil_append _⟩

variable {params : Parameters}

/-- The same entries in another order make the same maps. -/
theorem addAll_perm {all : List (ℕ × ParamRef)} (h : all.Perm params.all) :
    (addAll {} all).vars.Perm params.vars ∧ (addAll {} all).bytes.Perm params.bytes := by
  obtain ⟨hvars, hbytes⟩ := addAll_eq {} all
  obtain ⟨hvars', hbytes'⟩ := filterMap_all params
  rw [hvars, hbytes]
  constructor
  · simpa [hvars'] using h.filterMap asVar
  · simpa [hbytes'] using h.filterMap asBytes

/-- The key before is subtracted from one that is not smaller. -/
theorem sorted_pairwise (params : Parameters) : params.sorted.Pairwise (·.1 ≤ ·.1) := by
  have htrans : ∀ a b c : ℕ × ParamRef, decide (a.1 ≤ b.1) → decide (b.1 ≤ c.1) →
      decide (a.1 ≤ c.1) := by
    intro a b c hab hbc
    simp only [decide_eq_true_eq] at *
    omega
  have htotal : ∀ a b : ℕ × ParamRef, decide (a.1 ≤ b.1) || decide (b.1 ≤ a.1) := by
    intro a b
    simp only [Bool.or_eq_true, decide_eq_true_eq]
    omega
  have hsorted := pairwise_mergeSort htrans htotal params.all
  simp only [decide_eq_true_eq] at hsorted
  exact hsorted

/-- The entries are written as a block, behind their number if the draft has it. -/
theorem exists_writesBlock (version : Version) (hcount : params.all.length ≤ maxParams)
    (hall : ∀ entry ∈ params.all, Writable entry) :
    ∃ all ws, all.Perm params.all ∧ WritesBlock version none all (.seq ws) ∧
      encode version params =
        .seq (if version.counted then Encode.u64 version params.all.length :: ws else ws) := by
  have hmany : ¬ params.all.length > maxParams := not_lt.mpr hcount
  have hdeltas : version.usesDeltas = true → WritesBlock version none params.sorted
      (.seq (encodeDeltas version none params.sorted)) := by
    intro hdeltas
    refine writesBlock_deltas hdeltas ?_ (by simp) fun entry hentry => ?_
    · exact pairwise_map.mpr params.sorted_pairwise
    · exact hall entry ((mergeSort_perm _ _).mem_iff.mp hentry)
  have hentries : params.all.map (encodeEntry version) =
      params.vars.map (fun (kind, value) =>
        .seq [u64 version kind, u64 version value]) ++
      params.bytes.map (fun (kind, value) =>
        if value.length > maxKvpValueLen then .error .boundsExceeded
        else .seq [Encode.u64 version kind, Encode.bytes version value]) := by
    rw [all, map_append, map_map, map_map]
    rfl
  cases version with
  | draft14 | draft15 =>
    refine ⟨_, _, .refl _, writesBlock_entries rfl hall, ?_⟩
    rw [encode, if_neg hmany, hentries]
    rfl
  | draft16 | draft17 | draft18 =>
    exact ⟨_, _, mergeSort_perm _ _, hdeltas rfl, if_neg hmany⟩

/-- Parameters are read back, if nothing follows them or their number is written. -/
theorem encode_isBlock (version : Version) (hcount : params.all.length ≤ maxParams)
    (hall : ∀ entry ∈ params.all, Writable entry) {rest : List UInt8}
    (hrest : version.counted = true ∨ rest = []) :
    ∃ puts all, encode version params = .ok puts ∧ all.Perm params.all ∧
      IsBlock version all (Put.written puts ++ rest) rest := by
  obtain ⟨all, _, hperm, ⟨puts, hputs, hblock⟩, hencode⟩ :=
    exists_writesBlock version hcount hall
  cases hcounted : version.counted with
  | true =>
    have hlt : params.all.length < 2 ^ 62 := lt_of_le_of_lt hcount (by decide)
    have htransfers : Transfers (u64 version params.all.length) (Decode.u64 version)
        params.all.length := transfers_u64 hlt
    obtain ⟨head, hhead, hreads⟩ := htransfers
    rw [hcounted, if_pos rfl, Output.seq, hhead, hputs] at hencode
    refine ⟨head ++ puts, all, hencode, hperm, ?_⟩
    rw [IsBlock, hcounted, if_pos rfl, Put.written_append, append_assoc, hperm.length_eq]
    exact ⟨_, hreads _, hblock rest⟩
  | false =>
    obtain rfl := hrest.resolve_left (by simp [hcounted])
    rw [hcounted, if_neg Bool.false_ne_true, hputs] at hencode
    refine ⟨puts, all, hencode, hperm, ?_⟩
    rw [IsBlock, hcounted, if_neg Bool.false_ne_true]
    exact ⟨hblock [], rfl⟩

theorem map_fst_all (params : Parameters) : params.all.map Prod.fst = params.keys := by
  rw [all, keys, map_append, map_map, map_map]
  rfl

/-- **The coding of parameters.** Parameters whose keys are different, fit 62 bits and have the
parity of their values, which fit 62 bits or are not too long, are read back as the same maps,
whatever follows if their number is written, and up to the end otherwise. A block with a key twice
or more than 64 entries is refused. From draft 16 on, a key is subtracted from one that is not
smaller, and the keys of what is accepted increase. -/
theorem parameters_codec (version : Version) :
    (∀ params rest, params.all.length ≤ maxParams → params.keys.Nodup →
      (∀ entry ∈ params.all, Writable entry) → (version.counted = true ∨ rest = []) →
      ∃ puts params', encode version params = .ok puts ∧
        (decode version).run (Put.written puts ++ rest) = .ok (params', rest) ∧
        params'.vars.Perm params.vars ∧ params'.bytes.Perm params.bytes) ∧
    (∀ all buf rest, IsBlock version all buf rest →
      ¬ (all.map Prod.fst).Nodup ∨ maxParams < all.length →
      ∃ e, (decode version).run buf = .error e) ∧
    (∀ params : Parameters, params.sorted.Pairwise (·.1 ≤ ·.1)) ∧
    ∀ buf params rest, (decode version).run buf = .ok (params, rest) →
      ∃ all, IsBlock version all buf rest ∧ params = addAll {} all ∧
        (version.usesDeltas = true → (all.map Prod.fst).Pairwise (· < ·)) := by
  refine ⟨fun params rest hcount hnodup hall hrest => ?_, fun all buf rest hblock hbad => ?_,
    sorted_pairwise, fun buf params rest hok => ?_⟩
  · obtain ⟨puts, all, hputs, hperm, hblock⟩ := encode_isBlock version hcount hall hrest
    refine ⟨puts, addAll {} all, hputs, decode_eq_ok_iff.mpr ⟨all, hblock, ?_, ?_, rfl⟩,
      addAll_perm hperm⟩
    · rwa [hperm.length_eq]
    · rw [(hperm.map Prod.fst).nodup_iff, map_fst_all]
      exact hnodup
  · cases hok : (decode version).run buf with
    | error e => exact ⟨e, rfl⟩
    | ok r =>
      obtain ⟨_, hblock', hle, hnodup, -⟩ := decode_eq_ok_iff.mp hok
      obtain rfl := hblock.unique hblock'
      exact absurd hbad (not_or.mpr ⟨not_not.mpr hnodup, not_lt.mpr hle⟩)
  · obtain ⟨all, hblock, -, hnodup, rfl⟩ := decode_eq_ok_iff.mp hok
    refine ⟨all, hblock, rfl, fun hdeltas => ?_⟩
    obtain ⟨_, hentries⟩ := hblock.block
    exact (hentries.pairwise_le hdeltas).1.imp₂ (fun a b hle hne => lt_of_le_of_ne hle hne) hnodup

/-- Parameters that are written in the order of their keys, and bytes behind them. -/
theorem parameters_codec_reordered :
    ∃ puts params',
      encode .draft16 { vars := [(4, 9), (2, 7)], bytes := [(1, [0x2f])] } = .ok puts ∧
      (decode .draft16).run (Put.written puts ++ [0xaa]) = .ok (params', [0xaa]) ∧
      params'.vars.Perm [(4, 9), (2, 7)] ∧ params'.bytes.Perm [(1, [0x2f])] :=
  (parameters_codec .draft16).1 { vars := [(4, 9), (2, 7)], bytes := [(1, [0x2f])] } [0xaa]
    (by decide) (by decide) (by simp [all, Writable, maxKvpValueLen]) (.inl rfl)

/-- Bytes behind the parameters of draft 17 are read as further parameters, and a value of 65536
bytes is not written. -/
theorem trailing_bytes_read :
    encode .draft17 {} = .ok [] ∧
      (decode .draft17).run (Put.written [] ++ [2, 5]) = .ok ({ vars := [(2, 5)] }, []) ∧
      encode .draft14 { bytes := [(1, replicate 65536 0)] } = .error .boundsExceeded := by
  refine ⟨by simp [encode, sorted, all, encodeDeltas, Output.seq], rfl, ?_⟩
  have hlong : (replicate 65536 (0 : UInt8)).length > maxKvpValueLen := by
    rw [length_replicate]
    decide
  simp only [encode, all, map_cons, map_nil, nil_append, cons_append, if_pos hlong]
  rfl

end Parameters

end Ietf

end HermitMoq
