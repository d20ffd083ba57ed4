import HermitMoq.AnnexB
import HermitMoq.Runs

/-!
# H.264 Between Annex B and avc1

`Avc1::transform` of `moq-mux/src/codec/h264/mod.rs` takes the parameter sets out of the frames and
packs them into an avcC record. `video_es_payload` of `moq-mux/src/container/ts/export.rs` puts them
back in front of the keyframes.
-/

namespace HermitMoq

open List

open AnnexB

/-- `Avc1`. -/
structure Avc1 where
  avcc : Option (List UInt8)
  sps : List Nal
  pps : List Nal
  deriving DecidableEq, Repr

namespace Avc1

/-- The errors of `moq-mux/src/codec/h264`. -/
inductive Error
  | annexB (e : AnnexB.Error)
  | missingSps
  | spsTooShort
  | tooManySps (count : ℕ)
  | tooManyPps (count : ℕ)
  | spsTooLarge (size : ℕ)
  | ppsTooLarge (size : ℕ)
  | nalTooLarge
  deriving DecidableEq, Repr

/-! ### The avcC record -/

/-- `build_avcc`. -/
def buildAvcc (spsNals ppsNals : List Nal) : Except Error (List UInt8) :=
  match spsNals.head? with
  | none => .error .missingSps
  | some firstSps =>
    if firstSps.length < 4 then .error .spsTooShort
    else if 0x1f < spsNals.length then .error (.tooManySps spsNals.length)
    else if 255 < ppsNals.length then .error (.tooManyPps ppsNals.length)
    else
      match spsNals.find? (65535 < ·.length), ppsNals.find? (65535 < ·.length) with
      | some sps, _ => .error (.spsTooLarge sps.length)
      | none, some pps => .error (.ppsTooLarge pps.length)
      | none, none =>
        .ok ([1, firstSps.getD 1 0, firstSps.getD 2 0, firstSps.getD 3 0, 0xff,
          0xe0 ||| .ofNat spsNals.length] ++ lengthPrefixed 2 spsNals ++
          .ofNat ppsNals.length :: lengthPrefixed 2 ppsNals)

/-- The errors of `avcc_params`. -/
inductive ParamsError
  | tooShort
  | missingPpsCount
  | truncatedLength
  | exceedsBuffer
  deriving DecidableEq, Repr

/-- `read_param_set_array`: the parameter sets, and the bytes after the last one. -/
def readParamSetArray (params : List Nal) (buf : List UInt8) :
    ℕ → Except ParamsError (List Nal × List UInt8)
  | 0 => .ok (params, buf)
  | count + 1 =>
    if buf.length < 2 then .error .truncatedLength
    else if (buf.drop 2).length < BigEndian.ofBytes (buf.take 2) then .error .exceedsBuffer
    else
      readParamSetArray (params ++ [(buf.drop 2).take (BigEndian.ofBytes (buf.take 2))])
        ((buf.drop 2).drop (BigEndian.ofBytes (buf.take 2))) count

/-- `avcc_params`. -/
def avccParams (avcc : List UInt8) : Except ParamsError (ℕ × List Nal) :=
  match avcc with
  | _ :: _ :: _ :: _ :: size :: numSps :: rest => do
    let (params, rest) ← readParamSetArray [] rest (numSps &&& 0x1f).toNat
    match rest with
    | [] => .error .missingPpsCount
    | numPps :: rest =>
      let (params, _) ← readParamSetArray params rest numPps.toNat
      return ((size &&& 3).toNat + 1, params)
  | _ => .error .tooShort

/-- Parameter sets are read back from their length-prefixed form. -/
theorem readParamSetArray_lengthPrefixed {nals : List Nal}
    (h : ∀ nal ∈ nals, nal.length < 256 ^ 2) (params : List Nal) (rest : List UInt8) :
    readParamSetArray params (lengthPrefixed 2 nals ++ rest) nals.length =
      .ok (params ++ nals, rest) := by
  induction nals generalizing params with
  | nil => simp [readParamSetArray, lengthPrefixed]
  | cons nal nals ih =>
    have hlen := BigEndian.ofBytes_toBytes 2 nal.length
    rw [Nat.mod_eq_of_lt (h nal (by simp))] at hlen
    have hsize := BigEndian.length_toBytes 2 nal.length
    have hbuf : lengthPrefixed 2 (nal :: nals) ++ rest =
        BigEndian.toBytes 2 nal.length ++ (nal ++ (lengthPrefixed 2 nals ++ rest)) := by
      simp [lengthPrefixed]
    rw [hbuf, length_cons, readParamSetArray, take_left' hsize, drop_left' hsize,
      hlen, take_left, drop_left, ih fun n hn => h n (mem_cons_of_mem _ hn),
      if_neg (by rw [length_append, hsize]; omega), if_neg (by simp)]
    simp

/-- If no set is too long, the length of each fits 16 bits. -/
theorem fits_of_find? {nals : List Nal} (h : nals.find? (65535 < ·.length) = none) :
    ∀ nal ∈ nals, nal.length < 256 ^ 2 := by
  intro nal hnal
  simpa [Nat.lt_succ_iff] using find?_eq_none.mp h nal hnal

/-- A record gives back the parameter sets it was built from. -/
theorem avccParams_of_buildAvcc {spsNals ppsNals : List Nal} {avcc : List UInt8}
    (h : buildAvcc spsNals ppsNals = .ok avcc) :
    avccParams avcc = .ok (4, spsNals ++ ppsNals) := by
  rw [buildAvcc] at h
  split at h
  · cases h
  split_ifs at h with _ hsps hpps
  split at h
  · cases h
  · cases h
  next hlarge hlarge' =>
  cases h
  have hnum : ∀ n < 32, ((0xe0 ||| UInt8.ofNat n) &&& 0x1f).toNat = n := by decide
  have hsps' := hnum spsNals.length (by omega)
  have hpps' : (UInt8.ofNat ppsNals.length).toNat = ppsNals.length :=
    UInt8.toNat_ofNat_of_lt' (by simp [UInt8.size]; omega)
  have hread := fun rest => readParamSetArray_lengthPrefixed (fits_of_find? hlarge) [] rest
  have hread' := readParamSetArray_lengthPrefixed (fits_of_find? hlarge') spsNals []
  rw [append_nil] at hread'
  simp only [avccParams, cons_append, nil_append, hsps', hread, Except.bind, bind, hpps',
    hread']
  rfl

/-! ### From Annex B -/

/-- `push_distinct`. -/
def pushDistinct (set : List Nal) (nal : Nal) : List Nal :=
  if nal ∈ set then set else set ++ [nal]

/-- What `Avc1::transform` collects of a frame. -/
structure Frame where
  out : List UInt8 := []
  sps : List Nal := []
  pps : List Nal := []
  emittedAnySlice : Bool := false

/-- `process_nal`. -/
def Frame.processNal (frame : Frame) (nal : Nal) : Except Error Frame :=
  match nal.head? with
  | none => .ok frame
  | some header =>
    if header &&& 0x1f = 7 then .ok { frame with sps := pushDistinct frame.sps nal }
    else if header &&& 0x1f = 8 then .ok { frame with pps := pushDistinct frame.pps nal }
    else if nal.length < 2 ^ 32 then
      .ok { frame with
        out := frame.out ++ (BigEndian.toBytes 4 nal.length ++ nal), emittedAnySlice := true }
    else .error .nalTooLarge

/-- `Avc1::new`. -/
def new : Avc1 where
  avcc := none
  sps := []
  pps := []

/-- `Avc1::rebuild_avcc`. -/
def rebuildAvcc (s : Avc1) : Except Error Avc1 :=
  if s.sps = [] ∨ s.pps = [] then .ok s
  else do
    let avcc ← buildAvcc s.sps s.pps
    return { s with avcc := some avcc }

/-- The parameter sets of a type after a frame that carries `sets`, and whether they changed. -/
def adopt (sets old : List Nal) : List Nal × Bool :=
  if sets ≠ [] ∧ sets ≠ old then (sets, true) else (old, false)

/-- The part of `Avc1::transform` after the loop. -/
def adoptFrame (s : Avc1) (frame : Frame) : Except Error Avc1 :=
  let sps := adopt frame.sps s.sps
  let pps := adopt frame.pps s.pps
  if sps.2 || pps.2 then rebuildAvcc ⟨s.avcc, sps.1, pps.1⟩ else .ok ⟨s.avcc, sps.1, pps.1⟩

/-- `Avc1::transform`. -/
def transform (s : Avc1) (payload : List UInt8) : Except Error (Option (List UInt8) × Avc1) := do
  let frame ← (NalIterator.new payload).each .annexB Frame.processNal {}
  let s ← s.adoptFrame frame
  return (if frame.emittedAnySlice then some frame.out else none, s)

/-- The errors of `video_es_payload`. -/
inductive EsError
  | notResolved
  | params (e : ParamsError)
  | length (e : LengthError)
  deriving DecidableEq, Repr

/-- `video_es_payload` for H.264. -/
def videoEsPayload (description : Option (List UInt8)) (payload : List UInt8) (keyframe : Bool) :
    Except EsError (List UInt8) :=
  match description with
  | none => .error .notResolved
  | some description => do
    let (lengthSize, params) ← (avccParams description).mapError .params
    (lengthPrefixedToAnnexb payload lengthSize
      (if keyframe then buildPrefix params else [])).mapError .length

/-! ### The round trip -/

/-- Is it a unit of this type? -/
def ofType (type : UInt8) (nal : Nal) : Bool :=
  nal.head?.any (· &&& 0x1f == type)

/-- The units of a frame other than its parameter sets. -/
def others (nals : List Nal) : List Nal :=
  nals.filter fun nal => !ofType 7 nal && !ofType 8 nal

/-- The parameter sets of a type in force after some frames: the distinct ones of the latest frame
that has some. -/
def active (type : UInt8) (units : List (List Nal)) : List Nal :=
  match units.reverse.find? (·.any (ofType type)) with
  | none => []
  | some nals => (nals.filter (ofType type)).eraseDups

variable {nals sets old : List Nal} {units : List (List Nal)} {s s' : Avc1}

/-- Pushing the sets one by one keeps the first of each. -/
theorem foldl_pushDistinct (nals : List Nal) :
    nals.foldl pushDistinct [] = nals.eraseDups := by
  induction nals using reverseRecOn with
  | nil => rfl
  | append_singleton nals nal ih =>
    rw [foldl_append, ih, eraseDups_append, foldl_cons, foldl_nil, pushDistinct]
    by_cases h : nal ∈ nals <;> simp [h, removeAll, eraseDups_cons]

/-- Sets in the frame replace the old ones. -/
theorem adopt_cons (nal : Nal) (sets old : List Nal) :
    (adopt (nal :: sets) old).1 = nal :: sets := by
  rw [adopt]
  split_ifs with h
  · rfl
  · simpa using Eq.symm (by simpa using h)

/-- Once there are sets, there are always some. -/
theorem adopt_ne_nil (h : old ≠ []) : (adopt sets old).1 ≠ [] := by
  rw [adopt]
  split_ifs with hsets
  · exact hsets.1
  · exact h

/-- Sets that are not new are the old ones. -/
theorem adopt_old (h : ¬(adopt sets old).2 = true) :
    (adopt sets old).1 = old := by
  rw [adopt] at *
  split_ifs at *
  · exact absurd rfl h
  · rfl

/-- The sets in force after a frame are those it adopts. -/
theorem active_append (type : UInt8) (units : List (List Nal)) (nals : List Nal) :
    active type (units ++ [nals]) =
      (adopt (nals.filter (ofType type)).eraseDups (active type units)).1 := by
  rw [active, reverse_append, reverse_singleton, singleton_append, find?_cons]
  cases h : nals.filter (ofType type) with
  | nil =>
    rw [any_eq_false.mpr (by simpa using h)]
    rfl
  | cons nal sets =>
    have hany : nals.any (ofType type) = true :=
      any_eq_true.mpr ⟨nal, mem_filter.mp (by simp [h])⟩
    rw [hany, eraseDups_cons, adopt_cons]
    simp only [h, eraseDups_cons]

/-- The units of a frame go to the payload or to the sets, by their type. -/
theorem foldlM_processNal {frame frame' : Frame} (hne : ∀ nal ∈ nals, nal ≠ [])
    (h : nals.foldlM Frame.processNal frame = .ok frame') :
    frame'.out = frame.out ++ lengthPrefixed 4 (others nals) ∧
      frame'.sps = (nals.filter (ofType 7)).foldl pushDistinct frame.sps ∧
      frame'.pps = (nals.filter (ofType 8)).foldl pushDistinct frame.pps ∧
      ∀ nal ∈ others nals, nal.length < 256 ^ 4 := by
  induction nals generalizing frame with
  | nil =>
    cases h
    simp [others, lengthPrefixed]
  | cons nal nals ih =>
    have ih := fun frame => @ih frame fun nal hnal => hne nal (mem_cons_of_mem _ hnal)
    cases nal with
    | nil => exact absurd rfl (hne [] mem_cons_self)
    | cons header body =>
      rw [foldlM_cons, Frame.processNal, head?_cons] at h
      dsimp only at h
      split_ifs at h with h7 h8 hlen
      · simpa [others, ofType, h7] using ih _ h
      · simpa [others, ofType, h7, h8] using ih _ h
      · obtain ⟨hout, hsps, hpps, hfit⟩ := ih _ h
        have h7' : ofType 7 (header :: body) = false := by simp [ofType, h7]
        have h8' : ofType 8 (header :: body) = false := by simp [ofType, h8]
        have hothers : others ((header :: body) :: nals) = (header :: body) :: others nals := by
          simp [others, h7', h8']
        rw [hothers]
        refine ⟨?_, ?_, ?_, forall_mem_cons.mpr ⟨hlen, hfit⟩⟩
        · simp [hout, lengthPrefixed]
        · simpa [h7'] using hsps
        · simpa [h8'] using hpps
      · cases h

/-- What holds after some frames. -/
structure After (units : List (List Nal)) (s : Avc1) : Prop where
  sps : s.sps = active 7 units
  pps : s.pps = active 8 units
  avcc : ∀ avcc, s.avcc = some avcc →
    s.sps ≠ [] ∧ s.pps ≠ [] ∧ buildAvcc s.sps s.pps = .ok avcc

/-- A frame keeps this, and its other units come out after their lengths. -/
theorem After.transform {r : Option (List UInt8)} (hs : After units s) (hnals : nals ≠ [])
    (hne : ∀ nal ∈ nals, nal ≠ [] ∧ ¬[0, 0, 1] <:+: nal)
    (h : s.transform (buildPrefix nals) = .ok (r, s')) :
    After (units ++ [nals]) s' ∧ (∀ nal ∈ others nals, nal.length < 256 ^ 4) ∧
      ∀ payload, r = some payload → payload = lengthPrefixed 4 (others nals) := by
  obtain ⟨nal, nals, rfl⟩ := exists_cons_of_ne_nil hnals
  rw [Avc1.transform, NalIterator.each_of_at _ _ (fun nal hnal => (hne nal hnal).2) rfl rfl] at h
  obtain ⟨_, hframe, h⟩ := bind_eq_ok.mp h
  obtain ⟨hout, hsps, hpps, hfit⟩ := foldlM_processNal (fun nal hnal => (hne nal hnal).1) hframe
  rw [foldl_pushDistinct] at hsps hpps
  have hsps' := active_append 7 units (nal :: nals)
  have hpps' := active_append 8 units (nal :: nals)
  rw [← hsps, ← hs.sps] at hsps'
  rw [← hpps, ← hs.pps] at hpps'
  obtain ⟨_, hs₁, h⟩ := bind_eq_ok.mp h
  cases h
  refine ⟨?_, hfit, ?_⟩
  · rw [adoptFrame] at hs₁
    split_ifs at hs₁ with hchanged
    · rw [rebuildAvcc] at hs₁
      split_ifs at hs₁ with hnil
      · cases hs₁
        refine ⟨hsps'.symm, hpps'.symm, fun avcc h => ?_⟩
        obtain ⟨h7, h8, -⟩ := hs.avcc avcc h
        exact absurd hnil (by simp [adopt_ne_nil h7, adopt_ne_nil h8])
      · obtain ⟨avcc, hbuild, h⟩ := bind_eq_ok.mp hs₁
        cases h
        refine ⟨hsps'.symm, hpps'.symm, fun _ h => ?_⟩
        cases h
        exact ⟨(not_or.mp hnil).1, (not_or.mp hnil).2, hbuild⟩
    · cases hs₁
      rw [Bool.or_eq_true, not_or] at hchanged
      have hkeep := adopt_old hchanged.1
      have hkeep' := adopt_old hchanged.2
      exact ⟨hsps'.symm, hpps'.symm, by simpa only [hkeep, hkeep'] using hs.avcc⟩
  · intro payload hpayload
    split_ifs at hpayload
    cases hpayload
    exact hout

/-- The state after some frames, each built from its units. -/
def run (units : List (List Nal)) : Except Error Avc1 :=
  units.foldlM (fun s nals => (·.2) <$> s.transform (buildPrefix nals)) new

/-- The state after a run holds the parameter sets in force. -/
theorem after_run
    (hunits : ∀ nals ∈ units, nals ≠ [] ∧ ∀ nal ∈ nals, nal ≠ [] ∧ ¬[0, 0, 1] <:+: nal)
    (h : run units = .ok s) : After units s := by
  induction units using reverseRecOn generalizing s with
  | nil =>
    cases h
    exact ⟨rfl, rfl, nofun⟩
  | append_singleton units nals ih =>
    rw [run, foldlM_append] at h
    obtain ⟨s₀, hs₀, h⟩ := bind_eq_ok.mp h
    have hs := ih (fun nals hn => hunits nals (mem_append_left _ hn)) hs₀
    have hnals := hunits nals (by simp)
    cases ht : s₀.transform (buildPrefix nals) with
    | error e => simp [ht] at h
    | ok r =>
      obtain rfl : r.2 = s := by simpa [ht] using h
      exact (hs.transform hnals.1 hnals.2 ht).1

/-- **Parameter sets survive the way through avc1**: for a frame that is built from its units, in a
run over such frames, the elementary stream has the same units again, with the parameter sets in
force in front of them if it is a keyframe and nowhere else. -/
theorem transmux_round_trip :
    (∀ (units : List (List Nal)) (nals : List Nal) (s s' : Avc1)
        (payload avcc : List UInt8) (keyframe : Bool),
      (∀ unit ∈ units ++ [nals], unit ≠ [] ∧ ∀ nal ∈ unit, nal ≠ [] ∧ ¬[0, 0, 1] <:+: nal) →
      run units = .ok s → s.transform (buildPrefix nals) = .ok (some payload, s') →
      s'.avcc = some avcc →
      videoEsPayload (some avcc) payload keyframe =
        .ok (buildPrefix ((if keyframe then active 7 (units ++ [nals]) ++ active 8 (units ++ [nals])
          else []) ++ others nals))) ∧
    ∀ (spsNals ppsNals : List Nal) (avcc : List UInt8),
      buildAvcc spsNals ppsNals = .ok avcc → avccParams avcc = .ok (4, spsNals ++ ppsNals) := by
  refine ⟨?_, fun spsNals ppsNals avcc => avccParams_of_buildAvcc⟩
  intro units nals s s' payload avcc keyframe hunits hrun htransform havcc
  have hnals := hunits nals (by simp)
  have hs := after_run (fun nals h => hunits nals (mem_append_left _ h)) hrun
  obtain ⟨hs', hfit, hpayload⟩ := hs.transform hnals.1 hnals.2 htransform
  obtain ⟨-, -, hbuild⟩ := hs'.avcc avcc havcc
  have hrewrite := fun out => (rewrite_eq_ok_iff LengthError.truncatedPrefix
    LengthError.exceedsRemaining (by decide : 0 < 4) out _ _).mpr ⟨others nals, hfit, rfl, rfl⟩
  rw [hpayload payload rfl, videoEsPayload, avccParams_of_buildAvcc hbuild, hs'.sps, hs'.pps]
  cases keyframe <;>
    simp [lengthPrefixedToAnnexb, hrewrite, Except.mapError, buildPrefix, bind, Except.bind]

/-- A keyframe gets the parameter sets back that an earlier frame has carried. -/
theorem transmux_round_trip_keyframe :
    videoEsPayload (some [1, 1, 2, 3, 0xff, 0xe1, 0, 4, 0x67, 1, 2, 3, 1, 0, 2, 0x68, 7])
      [0, 0, 0, 2, 0x65, 9] true =
        .ok (buildPrefix [[0x67, 1, 2, 3], [0x68, 7], [0x65, 9]]) :=
  let described : Avc1 :=
    ⟨some [1, 1, 2, 3, 0xff, 0xe1, 0, 4, 0x67, 1, 2, 3, 1, 0, 2, 0x68, 7], [[0x67, 1, 2, 3]],
      [[0x68, 7]]⟩
  transmux_round_trip.1 [[[0x68, 7], [0x67, 1, 2, 3], [0x61, 5]]] [[0x65, 9]] described described
    _ _ true (by decide) (by decide +kernel) (by decide +kernel) rfl

end Avc1

end HermitMoq
