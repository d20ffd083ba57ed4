import HermitMoq.IetfEncoding

/-!
# Round Trips of IETF Messages

What the encoder of a message accepts, the decoder reads back, up to the end of the body: in every
draft, with the fields that the draft does not have replaced by their defaults. From draft 17 on
some messages end in track properties that are read up to the end of the body, so nothing may
follow them there.
-/

namespace HermitMoq

open List HermitMoq.Path Option

namespace Ietf

open Encode Output

variable {version : Version} {fit : Prop} {l : Location} (filter : FilterType) (rest : List UInt8)

/-! ### Fields -/

/-- A namespace is read back part by part. -/
theorem codes_namespace {ns : Path} (hns : fit → FitsNamespace ns) (rest : List UInt8) :
    Codes fit (encodeNamespace version ns) (decodeNamespace version) ns rest := by
  rw [encodeNamespace]
  split_ifs with hempty hmany
  · have hns : new [] = ns := by
      rw [Path.isEmpty_iff, Path.parts_eq_nil_iff] at hempty
      rw [hempty, ← new_chars empty]
      rfl
    exact (codes_u64 (fun _ => by decide) rest).then_pure (congrArg pure hns)
  · exact .error (fun hfit => absurd (hns hfit).1 (Nat.not_le.mpr hmany)) _ _ _ _
  · have hcount : ns.parts.length ≠ 0 := by
      rw [Path.isEmpty_iff] at hempty
      simpa using hempty
    refine .cons (codes_u64 fun hfit => Nat.lt_of_le_of_lt (hns hfit).1 (by decide)) ?_
    rw [if_neg hcount, if_neg hmany]
    have hparts : Codes fit (.seq (ns.parts.map (string version)))
        (Decode.times (Decode.string version) ns.parts.length) ⟨ns.parts, rfl⟩ rest :=
      codes_times ns.parts
        (fun part hpart => codes_string fun hfit => (hns hfit).2 part hpart) rest
    refine hparts.then_pure ?_
    rw [intercalate_parts, new_chars]

/-- A location is read back. -/
theorem Location.codes (hl : fit → ∀ n ∈ l.numbers, n < 2 ^ 62)
    (rest : List UInt8) : Codes fit (l.encode version) (Location.decode version) l rest := by
  have hgroup := fun hfit => hl hfit l.group mem_cons_self
  have hobject := fun hfit => hl hfit l.object (mem_cons_of_mem _ mem_cons_self)
  exact .cons (codes_u64 hgroup) (.last (codes_u64 hobject _) rfl)

/-- A group order is read back. -/
theorem GroupOrder.codes (order : GroupOrder) (rest : List UInt8) :
    Codes fit order.encode GroupOrder.decode order rest := by
  refine (codes_u8 _ rest).then_pure ?_
  cases order <;> rfl

theorem FilterType.toU64_lt : filter.toU64 < 2 ^ 62 := by
  cases filter <;> decide

/-- A filter type is read back. -/
theorem FilterType.codes :
    Codes fit (filter.encode version) (FilterType.decode version) filter rest := by
  refine (codes_u64 (fun _ => filter.toU64_lt) rest).then_pure ?_
  cases filter <;> rfl

variable {requestId : Option RequestId} {α : Type} {previous : Option ℕ} {a : α} {puts : List Put}
  {p : Decode α}

/-- The id in a reply is read back in the drafts that have it. -/
theorem codes_replyId (hid : fit → FitsReply version requestId) (rest : List UInt8) :
    Codes fit (encodeReplyId version requestId) (decodeReplyId version) requestId rest := by
  have hnot : requestId.isSome ≠ version.repliesNameRequest → ¬ fit :=
    fun hne hfit => hne (hid hfit).1
  unfold encodeReplyId decodeReplyId
  cases hversion : version.repliesNameRequest with
  | true =>
    cases requestId with
    | none => exact .error (hnot (by simp [hversion])) _ _ _ _
    | some requestId => exact (codes_u64 (fun hfit => (hid hfit).2 requestId rfl) _).map some
  | false =>
    cases requestId with
    | none => exact .nil _ _
    | some requestId => exact .error (hnot (by simp [hversion])) _ _ _ _

/-- A request id is read back. -/
theorem codes_requestId {requestId : RequestId} (hid : fit → requestId < 2 ^ 62)
    (rest : List UInt8) :
    Codes fit (encodeRequestId version requestId) (decodeRequestId version) requestId rest := by
  refine .cons (codes_u64 hid) ?_
  split_ifs with hversion
  · exact .last (codes_u64 (fun _ => by decide) _) rfl
  · exact .nil _ _

/-! ### Message parameters -/

/-- A value in bytes of their own is read back if it fills them. -/
theorem codes_inner {w : Encode} (hw : Codes fit w p a [])
    (hsize : ∀ puts, w = .ok puts → Put.counted puts < 2 ^ 62) (rest : List UInt8) :
    Codes fit (encodeInner version w) (decodeInner version p) a rest := by
  constructor
  · intro puts hputs
    obtain ⟨inner, hinner, hbytes⟩ := bind_eq_ok.mp hputs
    have hdata : (Decode.bytes version).run (Put.written puts ++ rest) =
        .ok (Put.written inner, rest) :=
      (codes_bytes (fun h => h) rest).carries puts hbytes
    refine Parser.run_bind_eq_ok.mpr ⟨_, _, hdata, ?_⟩
    have hrun := hw.carries inner hinner
    rw [append_nil] at hrun
    rw [Parser.run, hrun]
    rfl
  · intro hfit
    obtain ⟨puts, rfl⟩ := hw.succeeds hfit
    have hcounted := hsize puts rfl
    rw [Put.counted_eq] at hcounted
    exact succeeds_bytes.mpr hcounted

/-- A byte is read back as the value of a parameter. -/
theorem codes_paramU8 (b : UInt8) (rest : List UInt8) :
    Codes fit (encodeParamU8 version b) (paramU8 version) b rest := by
  have hlt : b.toNat < 2 ^ 62 := Nat.lt_trans b.toNat_lt (by decide)
  have hvarInt : (if b.toNat < 2 ^ 8 then pure (.ofNat b.toNat) else
      Decode.fail .invalidValue : Decode UInt8) = pure b := by
    rw [if_pos b.toNat_lt]
    simp
  cases version with
  | draft14 | draft15 | draft16 => exact (codes_u64 (fun _ => hlt) rest).then_pure hvarInt
  | draft17 | draft18 => exact codes_u8 b rest

/-- A flag is read back as the value of a parameter. -/
theorem codes_paramBool (b : Bool) (rest : List UInt8) :
    Codes fit (encodeParamBool version b) (paramBool version) b rest := by
  have hlt : b.toNat < 2 ^ 62 := Nat.lt_of_le_of_lt b.toNat_le (by decide)
  cases version with
  | draft14 | draft15 | draft16 =>
    exact (codes_u64 (fun _ => hlt) rest).then_pure (by cases b <;> rfl)
  | draft17 | draft18 => exact codes_bool b rest

/-- An integer takes at most eight bytes in QUIC. -/
theorem counted_u64_le {x : ℕ} (h : u64 Version.draft15 x = .ok puts) :
    Put.counted puts ≤ 8 := by
  rw [u64] at h
  split at h
  · replace h : Encode.quic x = .ok puts := h
    rw [Encode.quic] at h
    split_ifs at h <;> cases h <;> simp [Put.counted, Put.size]
  · cases h

/-- The size of a location can be written. -/
theorem counted_location_lt (h : l.encode .draft15 = .ok puts) : Put.counted puts < 2 ^ 62 := by
  obtain ⟨_, hgroup, hputs⟩ := bind_eq_ok.mp h
  obtain ⟨_, hothers, ⟨⟩⟩ := bind_eq_ok.mp hputs
  obtain ⟨_, hobject, ⟨⟩⟩ := bind_eq_ok.mp hothers
  have hgroup := counted_u64_le hgroup
  have hobject := counted_u64_le hobject
  rw [append_nil, Put.counted, map_append, sum_append, ← Put.counted,
    ← Put.counted]
  omega

/-- A location is read back as the value of a parameter. -/
theorem codes_paramLocation (hl : fit → ∀ n ∈ l.numbers, n < 2 ^ 62) (rest : List UInt8) :
    Codes fit (encodeParamLocation version l) (paramLocation version) l rest := by
  cases version with
  | draft14 | draft15 | draft16 =>
    exact codes_inner (Location.codes hl []) (fun _ => counted_location_lt) rest
  | draft17 | draft18 => exact Location.codes hl rest

theorem codes_paramFilterType :
    Codes fit (encodeParamFilterType version filter) (paramFilterType version) filter rest := by
  refine codes_inner (filter.codes []) (fun puts hputs => ?_) rest
  cases version <;> cases filter <;> cases hputs <;> decide

/-- An order is read back, unless it is any. -/
theorem codes_paramGroupOrder {order : GroupOrder} (horder : order ≠ .any) (rest : List UInt8) :
    Codes fit (encodeParamGroupOrder version order) (paramGroupOrder version) order rest := by
  refine (codes_paramU8 _ rest).then_pure (congrArg pure ?_)
  cases order with
  | any => exact absurd rfl horder
  | ascending => rfl
  | descending => rfl

/-- The key is read back if it is not less than the one before. -/
theorem transfers_encodeKey {key : ℕ} (hkey : key < 2 ^ 62) (hle : ∀ p ∈ previous, p ≤ key) :
    Transfers (encodeKey version previous key) (decodeKey version previous) key := by
  rw [encodeKey]
  split_ifs with hdeltas
  · exact transfers_delta hdeltas hkey hle
  · exact transfers_key (Bool.eq_false_iff.mpr hdeltas) hkey

theorem Param.key_lt (param : Param) : param.key < 2 ^ 62 := by cases param <;> decide

namespace Params

/-- The parameter is not none. -/
def has (params : Params) : Param → Bool
  | .largestLocation => params.largestLocation.isSome
  | .forward => params.forward.isSome
  | .subscriberPriority => params.subscriberPriority.isSome
  | .filterType => params.filterType.isSome
  | .groupOrder => params.groupOrder.isSome

/-- One parameter of others. -/
def copy (others params : Params) : Param → Params
  | .largestLocation => { params with largestLocation := others.largestLocation }
  | .forward => { params with forward := others.forward }
  | .subscriberPriority => { params with subscriberPriority := others.subscriberPriority }
  | .filterType => { params with filterType := others.filterType }
  | .groupOrder => { params with groupOrder := others.groupOrder }

/-- The parameters of a list. -/
def copyAll (others params : Params) (all : List Param) : Params := all.foldl others.copy params

theorem isSome_encodeValue (params : Params) (param : Param) :
    (params.encodeValue version param).isSome = params.has param := by
  cases param <;> exact isSome_map

variable {param : Param} {others params : Params}

theorem copy_of_not_has (hothers : others.has param = false)
    (hparams : params.has param = false) : others.copy params param = params := by
  cases others
  cases params
  cases param <;> simp_all [has, copy]

theorem has_copy_of_ne {param' : Param} (hne : param' ≠ param) :
    (others.copy params param).has param' = params.has param' := by
  cases param <;> cases param' <;> first | rfl | exact absurd rfl hne

/-- A parameter is read back if it was not there before. -/
theorem codes_once {old : Option α} {w : Encode}
    {rest : List UInt8} (hold : old.isSome = false) (hw : Codes fit w p a rest) :
    Codes fit w (once old p) (some a) rest := by
  rw [once, hold, if_neg Bool.false_ne_true]
  exact hw.map some

/-- A parameter is read back if it is read for the first time. -/
theorem codes_value {value : Encode} (horder : ∀ order ∈ others.groupOrder, order ≠ .any)
    (hlocation : fit → ∀ l ∈ others.largestLocation, ∀ n ∈ l.numbers, n < 2 ^ 62)
    (hvalue : others.encodeValue version param = some value) (hnew : params.has param = false)
    (rest : List UInt8) :
    Codes fit value (params.decodeValue version param) (others.copy params param) rest := by
  cases param with
  | largestLocation =>
    obtain ⟨l, hl, rfl⟩ := map_eq_some_iff.mp hvalue
    rw [copy, hl]
    refine (codes_once hnew (codes_paramLocation (fun hfit => ?_) rest)).then_pure rfl
    exact hlocation hfit l hl
  | forward =>
    obtain ⟨b, hb, rfl⟩ := map_eq_some_iff.mp hvalue
    rw [copy, hb]
    exact (codes_once hnew (codes_paramBool b rest)).then_pure rfl
  | subscriberPriority =>
    obtain ⟨b, hb, rfl⟩ := map_eq_some_iff.mp hvalue
    rw [copy, hb]
    exact (codes_once hnew (codes_paramU8 b rest)).then_pure rfl
  | filterType =>
    obtain ⟨filter, hfilter, rfl⟩ := map_eq_some_iff.mp hvalue
    rw [copy, hfilter]
    exact (codes_once hnew (codes_paramFilterType filter rest)).then_pure rfl
  | groupOrder =>
    obtain ⟨order, ho, rfl⟩ := map_eq_some_iff.mp hvalue
    rw [copy, ho]
    exact (codes_once hnew (codes_paramGroupOrder (horder order ho) rest)).then_pure rfl

/-- Keys that ascend are found under their parameters. -/
theorem find?_key {known : List Param} (hknown : known.Pairwise (·.key < ·.key))
    (hmem : param ∈ known) : known.find? (·.key = param.key) = some param := by
  induction known with
  | nil => cases hmem
  | cons first known ih =>
    obtain ⟨hfirst, hknown⟩ := pairwise_cons.mp hknown
    rcases mem_cons.mp hmem with rfl | hmem
    · exact find?_cons_of_pos (by simp)
    · rw [find?_cons_of_neg (by simpa using (hfirst param hmem).ne)]
      exact ih hknown hmem

/-- The rest of the parameters is read back, after those before them. -/
theorem codes_all {known todo : List Param} (horder : ∀ order ∈ others.groupOrder, order ≠ .any)
    (hlocation : fit → ∀ l ∈ others.largestLocation, ∀ n ∈ l.numbers, n < 2 ^ 62)
    (hfind : ∀ param ∈ todo, known.find? (·.key = param.key) = some param)
    (htodo : todo.Pairwise (·.key < ·.key))
    (hprevious : ∀ p ∈ previous, ∀ param ∈ todo, p ≤ param.key)
    (hnew : ∀ param ∈ todo, params.has param = false) (rest : List UInt8) :
    Codes fit (.seq (others.encodeAll version previous todo))
      (decodeCounted version known
        (todo.countP fun param => (others.encodeValue version param).isSome) previous params)
      (others.copyAll params todo) rest := by
  induction todo generalizing previous params with
  | nil => exact .nil _ _
  | cons param todo ih =>
    have hparam := hnew param mem_cons_self
    obtain ⟨hfirst, hsorted⟩ := pairwise_cons.mp htodo
    have htail := fun other (hother : other ∈ todo) => mem_cons_of_mem param hother
    rw [encodeAll, copyAll, foldl_cons, countP_cons]
    cases hvalue : others.encodeValue version param with
    | none =>
      have hothers : others.has param = false := by
        rw [← isSome_encodeValue, hvalue]
        rfl
      rw [copy_of_not_has hothers hparam]
      exact ih (fun other hother => hfind other (htail other hother)) hsorted
        (fun p hp other hother => hprevious p hp other (htail other hother))
        (fun other hother => hnew other (htail other hother))
    | some value =>
      have hkey : Transfers (encodeKey version previous param.key) (decodeKey version previous)
          param.key := transfers_encodeKey param.key_lt fun p hp =>
        hprevious p hp param mem_cons_self
      refine .cons hkey.codes ?_
      rw [hfind param mem_cons_self]
      refine .cons (codes_value horder hlocation hvalue hparam) ?_
      refine ih (fun other hother => hfind other (htail other hother)) hsorted ?_ ?_
      · rintro p ⟨⟩ other hother
        exact (hfirst other hother).le
      · intro other hother
        rw [has_copy_of_ne]
        · exact hnew other (htail other hother)
        · rintro rfl
          exact (hfirst _ hother).false

end Params

variable {known : List Param} {params : Params} (m : SubscribeUpdate)

/-- Message parameters are read back: those that the list names. They can be written if the location
can. -/
theorem codes_params (hknown : known.Pairwise (·.key < ·.key)) (hlen : known.length ≤ maxParams)
    (horder : ∀ order ∈ params.groupOrder, order ≠ .any)
    (hlocation : fit → ∀ l ∈ params.largestLocation, ∀ n ∈ l.numbers, n < 2 ^ 62)
    (rest : List UInt8) :
    Codes fit (encodeParams version known params) (decodeParams version known)
      (params.copyAll {} known) rest := by
  have hcount := (countP_le_length (p := fun param =>
    (params.encodeValue version param).isSome)).trans hlen
  refine .cons (codes_u64 fun _ => Nat.lt_of_le_of_lt hcount (by decide)) ?_
  rw [if_neg (Nat.not_lt.mpr hcount)]
  refine Params.codes_all horder hlocation (fun param hmem => Params.find?_key hknown hmem) hknown
    ?_ ?_ rest
  · rintro p ⟨⟩
  · rintro param -
    cases param <;> rfl

/-- Parameters without a location can always be written. -/
theorem codes_params_of_none (hknown : known.Pairwise (·.key < ·.key))
    (hlen : known.length ≤ maxParams) (horder : ∀ order ∈ params.groupOrder, order ≠ .any)
    (hnone : params.largestLocation = none) (rest : List UInt8) :
    Codes fit (encodeParams version known params) (decodeParams version known)
      (params.copyAll {} known) rest := by
  refine codes_params hknown hlen horder (fun _ => ?_) rest
  rw [hnone]
  rintro l ⟨⟩

/-- No parameters are written as their number. -/
theorem codes_noParameters :
    Codes fit (u8 0) (Parameters.decode .draft14) {} rest := by
  rw [show u8 0 = u64 Version.draft14 0 from rfl]
  exact (codes_u64 (fun _ => by decide) rest).then_pure rfl

/-- No parameters are written and read. -/
theorem codes_noParams :
    Codes fit (encodeParams version [] {}) (decodeParams version []) {} rest :=
  codes_params_of_none .nil (by decide) (by rintro order ⟨⟩) rfl rest

/-- Parameters, and then properties up to the end. -/
theorem codes_params_skip {f : Params → Decode α}
    (hcodes : Codes fit (encodeParams version known params)
      (decodeParams version known) (params.copyAll {} known) [])
    (hf : f (params.copyAll {} known) = skipProperties version >>= fun _ => pure a) :
    Codes fit (encodeParams version known params) (decodeParams version known >>= f) a [] := by
  refine ⟨fun puts hputs => ?_, hcodes.succeeds⟩
  refine Parser.run_bind_eq_ok.mpr ⟨_, _, hcodes.carries puts hputs, ?_⟩
  rw [hf]
  cases version <;> rfl

/-! The fields of a message are what its encoder writes. -/

section Fields

variable {fields : Fields}

/-- A number of the message is read back. -/
theorem codes_number {n : ℕ} (hn : n ∈ fields.numbers) (rest : List UInt8) :
    Codes (fields.Fit version) (u64 version n) (Decode.u64 version) n rest :=
  codes_u64 (fun h => h.numbers n hn) rest

theorem codes_request {n : ℕ} (hn : n ∈ fields.numbers) (rest : List UInt8) :
    Codes (fields.Fit version) (encodeRequestId version n) (decodeRequestId version) n rest :=
  codes_requestId (fun h => h.numbers n hn) rest

/-- A string of the message is read back. -/
theorem codes_text {cs : List Char} (hcs : cs ∈ fields.strings) (rest : List UInt8) :
    Codes (fields.Fit version) (Encode.string version cs) (Decode.string version) cs rest :=
  codes_string (fun h => h.strings cs hcs) rest

/-- A namespace of the message is read back. -/
theorem codes_name {ns : Path} (hns : ns ∈ fields.namespaces) (rest : List UInt8) :
    Codes (fields.Fit version) (encodeNamespace version ns) (decodeNamespace version) ns rest :=
  codes_namespace (fun h => h.namespaces ns hns) rest

/-- The reply id of the message is read back. -/
theorem codes_reply {requestId : Option RequestId} (hid : requestId ∈ fields.replyIds)
    (rest : List UInt8) :
    Codes (fields.Fit version) (encodeReplyId version requestId) (decodeReplyId version) requestId
      rest :=
  codes_replyId (fun h => h.replyIds requestId hid) rest

theorem codes_location (hl : l.numbers ⊆ fields.numbers) (rest : List UInt8) :
    Codes (fields.Fit version) (l.encode version) (Location.decode version) l rest :=
  Location.codes (fun h n hn => h.numbers n (hl hn)) rest

end Fields

/-! ### Messages -/

/-- A message of a request id is read back. -/
theorem Named.codes (m : Named) (rest : List UInt8) :
    Codes (Fields.Fit version { numbers := [m.requestId] }) (m.encodeMsg version)
      (Named.decodeMsg version) m rest :=
  .then_pure (codes_number mem_cons_self rest) rfl

/-- A refusal is read back. -/
theorem Refusal.codes (m : Refusal) (rest : List UInt8) :
    Codes (m.fields.Fit version) (m.encodeMsg version) (Refusal.decodeMsg version) m rest :=
  .cons (codes_number (by simp [fields])) <| .cons (codes_number (by simp [fields])) <|
    .last (codes_text mem_cons_self _) rfl

/-- `REQUEST_OK` is read back. -/
theorem RequestOk.codes (m : RequestOk) (rest : List UInt8) :
    Codes ((Kind.fields .requestOk m).Fit version) (m.encodeMsg version)
      (RequestOk.decodeMsg version) m rest :=
  .cons (codes_reply mem_cons_self) <| .last (codes_noParams _) rfl

/-- `REQUEST_ERROR` is read back. -/
theorem RequestError.codes (m : RequestError) (rest : List UInt8) :
    Codes ((Kind.fields .requestError m).Fit version) (m.encodeMsg version)
      (RequestError.decodeMsg version) (Kind.carried version .requestError m) rest := by
  refine .cons (codes_reply mem_cons_self) ?_
  refine .cons (codes_number mem_cons_self) ?_
  cases version with
  | draft14 | draft15 => exact .cons (.nil _) <| .last (codes_text mem_cons_self _) rfl
  | draft16 | draft17 | draft18 =>
    exact .cons (codes_number (by simp [Kind.fields])) <|
      .last (codes_text mem_cons_self _) rfl

/-- `GOAWAY` is read back. -/
theorem GoAway.codes (m : GoAway) :
    Codes ((Kind.fields .goAway m).Fit version) (m.encodeMsg version) (GoAway.decodeMsg version)
      (Kind.carried version .goAway m) [] := by
  refine .cons (codes_text mem_cons_self) ?_
  cases version with
  | draft14 | draft15 | draft16 => exact .nil _ _
  | draft17 => exact .last (codes_number mem_cons_self _) rfl
  | draft18 =>
    refine .single ?_
    have htimeout : Codes ((Kind.fields .goAway m).Fit .draft18) (u64 Version.draft18 m.timeout)
      (Decode.u64 Version.draft18) m.timeout [] := codes_number mem_cons_self []
    refine ⟨fun puts hputs => ?_, htimeout.succeeds⟩
    exact Parser.run_bind_eq_ok.mpr ⟨_, _, htimeout.carries puts hputs, rfl⟩

/-- `TRACK_STATUS` is read back. -/
theorem TrackStatus.codes (m : TrackStatus) (rest : List UInt8) :
    Codes ((Kind.fields .trackStatus m).Fit version) (m.encodeMsg version)
      (TrackStatus.decodeMsg version) m rest := by
  refine .cons (codes_request mem_cons_self) ?_
  refine .cons (codes_name mem_cons_self) ?_
  refine .cons (codes_text mem_cons_self) ?_
  refine .single ?_
  cases version with
  | draft14 =>
    exact .cons (codes_u8 _) <| .cons (GroupOrder.codes _) <| .cons (codes_bool _) <|
      .cons (codes_u64 fun _ => by decide) <| .last (codes_noParameters _) rfl
  | draft15 | draft16 | draft17 | draft18 => exact (codes_noParams rest).then_pure rfl

/-- `PUBLISH_NAMESPACE` is read back. -/
theorem PublishNamespace.codes (m : PublishNamespace) (rest : List UInt8) :
    Codes ((Kind.fields .publishNamespace m).Fit version) (m.encodeMsg version)
      (PublishNamespace.decodeMsg version) m rest :=
  .cons (codes_request mem_cons_self) <| .cons (codes_name mem_cons_self) <|
    .last (codes_noParams _) rfl

/-- `PUBLISH_NAMESPACE_DONE` is read back. -/
theorem PublishNamespaceDone.codes (m : PublishNamespaceDone) (hid : fit → m.requestId < 2 ^ 62)
    (hns : fit → FitsNamespace m.trackNamespace)
    (hsent : fit → Kind.sentIn .publishNamespaceDone version = true) (rest : List UInt8) :
    Codes fit (m.encodeMsg version) (PublishNamespaceDone.decodeMsg version) (m.carried version)
      rest := by
  cases version with
  | draft14 | draft15 => exact (codes_namespace hns rest).then_pure rfl
  | draft16 => exact (codes_u64 hid rest).then_pure rfl
  | draft17 | draft18 => exact .error (fun hfit => Bool.false_ne_true (hsent hfit)) _ _ _ _

/-- `SUBSCRIBE_NAMESPACE` is read back. -/
theorem SubscribeNamespace.codes (m : SubscribeNamespace) (rest : List UInt8) :
    Codes (Kind.sentIn .subscribeNamespace version = true ∧
      (Kind.fields .subscribeNamespace m).Fit version) (m.encodeMsg version)
      (SubscribeNamespace.decodeMsg version) m rest := by
  rw [encodeMsg, decodeMsg]
  split_ifs with hlegacy
  · exact .error (by simp [Kind.sentIn, hlegacy]) _ _ _ _
  · refine Codes.mono ?_ And.right
    exact .cons (codes_number mem_cons_self) <| .cons (codes_name mem_cons_self) <|
      .last (codes_noParams _) rfl

/-- The older `SUBSCRIBE_NAMESPACE` is read back. -/
theorem SubscribeNamespaceLegacy.codes (m : SubscribeNamespaceLegacy) (rest : List UInt8) :
    Codes (Kind.sentIn .subscribeNamespaceLegacy version = true ∧
      (Kind.fields .subscribeNamespaceLegacy m).Fit version) (m.encodeMsg version)
      (SubscribeNamespaceLegacy.decodeMsg version)
      (Kind.carried version .subscribeNamespaceLegacy m) rest := by
  unfold encodeMsg decodeMsg
  split_ifs with hlegacy
  · exact .error (by simpa [Kind.sentIn] using fun h => absurd h (by simpa using hlegacy)) _ _ _ _
  · refine Codes.mono ?_ And.right
    refine .cons (codes_request mem_cons_self) ?_
    refine .cons (codes_name mem_cons_self) ?_
    cases version with
    | draft14 | draft15 | draft18 => exact .cons (.nil _) <| .last (codes_noParams _) rfl
    | draft16 | draft17 =>
      exact .cons (codes_number (by simp [Kind.fields])) <| .last (codes_noParams _) rfl

/-- `NAMESPACE` is read back. -/
theorem Namespace.codes (m : Namespace) (rest : List UInt8) :
    Codes (Fields.Fit version { namespaces := [m.suffix] }) (m.encodeMsg version)
      (Namespace.decodeMsg version) m rest :=
  .then_pure (codes_name mem_cons_self rest) rfl

/-- `PUBLISH_BLOCKED` is read back. -/
theorem PublishBlocked.codes (m : PublishBlocked) (rest : List UInt8) :
    Codes (Kind.sentIn .publishBlocked version = true ∧
      (Kind.fields .publishBlocked m).Fit version) (m.encodeMsg version)
      (PublishBlocked.decodeMsg version) m rest := by
  rw [encodeMsg, decodeMsg]
  split_ifs with hversion
  · exact .error (by simp [Kind.sentIn, hversion]) _ _ _ _
  · refine Codes.mono ?_ And.right
    exact .cons (codes_name mem_cons_self) <| .last (codes_text mem_cons_self _) rfl

/-- A filter that goes with nothing is read back. -/
theorem codes_filter {filter : FilterType} (hfilter : filter.isAbsolute = false)
    (rest : List UInt8) :
    Codes fit (filter.encode version) (decodeFilter version) filter rest := by
  refine (filter.codes rest).then_pure ?_
  cases filter with
  | nextGroup => rfl
  | largestObject => rfl
  | absoluteStart => cases hfilter
  | absoluteRange => cases hfilter

/-- `SUBSCRIBE` is read back. -/
theorem Subscribe.codes (m : Subscribe) (hm : (Kind.fields .subscribe m).Supported version)
    (rest : List UInt8) :
    Codes ((Kind.fields .subscribe m).Fit version) (m.encodeMsg version)
      (Subscribe.decodeMsg version) m rest := by
  have horder : m.groupOrder ≠ .any := hm.orders _ mem_cons_self
  refine .cons (codes_request mem_cons_self) ?_
  refine .cons (codes_name mem_cons_self) ?_
  refine .cons (codes_text mem_cons_self) ?_
  refine .single ?_
  cases version with
  | draft14 =>
    have hfilter := hm.filters _ mem_cons_self rfl
    exact .cons (codes_u8 _) <| .cons (GroupOrder.codes _) <| .cons (codes_bool _) <|
      .cons (codes_filter hfilter) <| .last (codes_noParameters _) rfl
  | draft15 | draft16 | draft17 | draft18 =>
    refine (codes_params_of_none (by decide) (by decide) ?_ rfl rest).then_pure rfl
    rintro order ⟨⟩
    exact horder

/-- `SUBSCRIBE_OK` is read back. -/
theorem SubscribeOk.codes (m : SubscribeOk) :
    Codes ((Kind.fields .subscribeOk m).Fit version) (m.encodeMsg version)
      (SubscribeOk.decodeMsg version) m [] := by
  refine .cons (codes_reply mem_cons_self) ?_
  refine .cons (codes_number mem_cons_self) ?_
  refine .single ?_
  cases version with
  | draft14 =>
    exact .cons (codes_u64 fun _ => by decide) <| .cons (codes_u8 _) <| .cons (codes_bool _) <|
      .last (codes_noParameters _) rfl
  | draft15 | draft16 | draft17 | draft18 =>
    refine codes_params_skip (codes_params_of_none (by decide) (by decide) ?_ rfl []) rfl
    rintro order ⟨⟩
    decide

/-- An id that has to be there is read back. -/
theorem codes_expectedId (hsome : fit → requestId.isSome = true)
    (hid : fit → ∀ n ∈ requestId, n < 2 ^ 62) (rest : List UInt8) :
    Codes fit (encodeExpectedId version requestId) (some <$> Decode.u64 version) requestId
      rest := by
  cases requestId with
  | none => exact .error (fun hfit => Bool.false_ne_true (hsome hfit)) _ _ _ _
  | some requestId => exact (codes_u64 (fun hfit => hid hfit requestId rfl) rest).map some

theorem SubscribeUpdate.codes_params (rest : List UInt8) :
    Codes fit (m.encodeParams version) (decodeUpdate version m.requestId m.subscriptionRequestId)
      { m with startLocation := ⟨0, 0⟩, endGroup := 0 } rest :=
  (codes_params_of_none (by decide) (by decide) (by rintro order ⟨⟩) rfl rest).then_pure rfl

/-- `SUBSCRIBE_UPDATE` is read back. -/
theorem SubscribeUpdate.codes (rest : List UInt8) :
    Codes ((Kind.fields .subscribeUpdate m).Fit version) (m.encodeMsg version)
      (SubscribeUpdate.decodeMsg version) (Kind.carried version .subscribeUpdate m) rest := by
  have hreply := fun h : (Kind.fields .subscribeUpdate m).Fit version =>
    h.replyIds m.subscriptionRequestId mem_cons_self
  cases version with
  | draft14 =>
    refine .cons (codes_number mem_cons_self) ?_
    refine .cons (codes_expectedId (fun h => (hreply h).1) fun h => (hreply h).2) ?_
    refine .cons (codes_location fun n hn => ?_) ?_
    · exact mem_cons_of_mem _ (mem_cons_of_mem _ hn)
    · exact .cons (codes_number (mem_cons_of_mem _ mem_cons_self)) <|
        .cons (codes_u8 _) <| .cons (codes_bool _) <| .last (codes_noParameters _) rfl
  | draft15 | draft16 =>
    exact .cons (codes_number mem_cons_self) <|
      .cons (codes_expectedId (fun h => (hreply h).1) fun h => (hreply h).2) <|
      (m.codes_params rest).single
  | draft17 | draft18 =>
    obtain ⟨_, subscriptionRequestId, _, _, _, _⟩ := m
    cases subscriptionRequestId with
    | none =>
      exact .cons (codes_request mem_cons_self)
        (SubscribeUpdate.codes_params _ rest).single
    | some subscriptionRequestId =>
      exact .error (fun h => Bool.false_ne_true (hreply h).1.symm) _ _ _ _

/-- `PUBLISH_DONE` is read back. -/
theorem PublishDone.codes (m : PublishDone) (rest : List UInt8) :
    Codes ((Kind.fields .publishDone m).Fit version) (m.encodeMsg version)
      (PublishDone.decodeMsg version) m rest :=
  .cons (codes_reply mem_cons_self) <| .cons (codes_number mem_cons_self) <|
    .cons (codes_number (by simp [Kind.fields])) <| .last (codes_text mem_cons_self _) rfl

/-- `PUBLISH` is read back. -/
theorem Publish.codes (m : Publish) (hm : (Kind.fields .publish m).Supported version) :
    Codes ((Kind.fields .publish m).Fit version) (m.encodeMsg version)
      (Publish.decodeMsg version) m [] := by
  have horder : m.groupOrder ≠ .any := hm.orders _ mem_cons_self
  have hlocation : (Kind.fields .publish m).Fit version →
      ∀ l ∈ m.largestLocation, ∀ n ∈ l.numbers, n < 2 ^ 62 := by
    intro h l hl n hn
    refine h.numbers n (mem_cons_of_mem _ (mem_cons_of_mem _ ?_))
    exact mem_flatMap.mpr ⟨l, mem_toList.mpr hl, hn⟩
  refine .cons (codes_request mem_cons_self) ?_
  refine .cons (codes_name mem_cons_self) ?_
  refine .cons (codes_text mem_cons_self) ?_
  refine .cons (codes_number (mem_cons_of_mem _ mem_cons_self)) ?_
  refine .single ?_
  cases version with
  | draft14 =>
    refine .cons (GroupOrder.codes _) ?_
    refine .cons (codes_bool _) ?_
    obtain ⟨_, _, _, _, order, location, _⟩ := m
    cases location with
    | none =>
      exact .cons (.nil _) <| .cons (codes_bool _) <| .last (codes_noParameters _) rfl
    | some location =>
      refine .cons (fun rest => .map (Location.codes (fun h => ?_) rest) some) <|
        .cons (codes_bool _) <| .last (codes_noParameters _) rfl
      exact hlocation h location rfl
  | draft15 | draft16 | draft17 | draft18 =>
    refine codes_params_skip (Ietf.codes_params (by decide) (by decide) ?_ hlocation []) rfl
    rintro order ⟨⟩
    exact horder

/-- `PUBLISH_OK` is read back. -/
theorem PublishOk.codes (m : PublishOk) (hm : (Kind.fields .publishOk m).Supported version)
    (rest : List UInt8) :
    Codes ((Kind.fields .publishOk m).Fit version) (m.encodeMsg version)
      (PublishOk.decodeMsg version) m rest := by
  have horder : m.groupOrder ≠ .any := hm.orders _ mem_cons_self
  refine .cons (codes_reply mem_cons_self) ?_
  refine .single ?_
  cases version with
  | draft14 =>
    have hfilter := hm.filters _ mem_cons_self rfl
    exact .cons (codes_bool _) <| .cons (codes_u8 _) <| .cons (GroupOrder.codes _) <|
      .cons (codes_filter hfilter) <| .last (codes_noParameters _) rfl
  | draft15 | draft16 | draft17 | draft18 =>
    refine (codes_params_of_none (by decide) (by decide) ?_ rfl rest).then_pure rfl
    rintro order ⟨⟩
    exact horder

/-- A small byte can be read as an integer. -/
theorem codes_small {b : UInt8} (hb : b.toNat < 2 ^ 6) (rest : List UInt8) :
    Codes fit (u8 b) (Decode.u64 version) b.toNat rest := by
  rw [u8_eq_u64 version hb]
  exact codes_u64 (fun _ => Nat.lt_trans hb (by decide)) rest

/-- The kind of a fetch is read back. -/
theorem FetchType.codes (fetchType : FetchType) {numbers : List ℕ} {orders : List GroupOrder}
    (hnumbers : fetchType.fields.numbers ⊆ numbers) (rest : List UInt8) :
    Codes (Fields.Fit version { fetchType.fields with numbers, orders })
      (fetchType.encode version) (FetchType.decode version) fetchType rest := by
  cases fetchType with
  | standalone ns track start last =>
    refine .cons (codes_small (by decide)) ?_
    refine .cons (codes_name mem_cons_self) ?_
    refine .cons (codes_text mem_cons_self) ?_
    refine .cons (codes_location (List.Subset.trans (subset_append_left _ _) hnumbers)) ?_
    exact .last (codes_location (List.Subset.trans (subset_append_right _ _) hnumbers) _) rfl
  | relativeJoining subscriberRequestId groupOffset | absoluteJoining subscriberRequestId groupId =>
    exact .cons (codes_small (by decide)) <|
      .cons (codes_number (hnumbers (by simp [fields]))) <|
      .last (codes_number (hnumbers (by simp [fields])) _) rfl

/-- `FETCH` is read back. -/
theorem Fetch.codes (m : Fetch) (hm : (Kind.fields .fetch m).Supported version)
    (rest : List UInt8) :
    Codes ((Kind.fields .fetch m).Fit version) (m.encodeMsg version) (Fetch.decodeMsg version) m
      rest := by
  have horder : m.groupOrder ≠ .any := hm.orders _ mem_cons_self
  have hfetch : ∀ rest, Codes ((Kind.fields .fetch m).Fit version) (m.fetchType.encode version)
      (FetchType.decode version) m.fetchType rest :=
    m.fetchType.codes (subset_cons_self _ _)
  refine .cons (codes_request mem_cons_self) ?_
  refine .single ?_
  cases version with
  | draft14 =>
    exact .cons (codes_u8 _) <| .cons (GroupOrder.codes _) <| .cons hfetch <|
      .last (codes_noParameters _) rfl
  | draft15 | draft16 | draft17 | draft18 =>
    refine .cons hfetch ?_
    refine .last (codes_params_of_none (by decide) (by decide) ?_ rfl rest) rfl
    rintro order ⟨⟩
    exact horder

/-- `FETCH_OK` is read back. -/
theorem FetchOk.codes (m : FetchOk) (hm : (Kind.fields .fetchOk m).Supported version) :
    Codes ((Kind.fields .fetchOk m).Fit version) (m.encodeMsg version)
      (FetchOk.decodeMsg version) m [] := by
  have horder : m.groupOrder ≠ .any := hm.orders _ mem_cons_self
  refine .cons (codes_reply mem_cons_self) ?_
  refine .single ?_
  cases version with
  | draft14 =>
    exact .cons (GroupOrder.codes _) <| .cons (codes_bool _) <|
      .cons (codes_location fun n hn => hn) <| .last (codes_noParameters _) rfl
  | draft15 | draft16 | draft17 | draft18 =>
    refine .cons (codes_bool _) ?_
    refine .cons (codes_location fun n hn => hn) ?_
    refine .single ?_
    refine codes_params_skip (codes_params_of_none (by decide) (by decide) ?_ rfl []) rfl
    rintro order ⟨⟩
    exact horder

/-- What the encoder accepts is read back up to the end, as what the draft carries of it; and it
accepts every value that fits, in the drafts that have the message. -/
theorem Kind.codes {kind : Kind} {value : kind.Value}
    (hsupported : (kind.fields value).Supported version) :
    Codes (kind.sentIn version = true ∧ (kind.fields value).Fit version)
      (kind.encodeMsg version value) (kind.decodeMsg version) (kind.carried version value) [] := by
  cases kind with
  | publishNamespaceDone =>
    exact PublishNamespaceDone.codes _ (fun h => h.2.numbers _ mem_cons_self)
      (fun h => h.2.namespaces _ mem_cons_self) And.left _
  | publishNamespaceCancel =>
    refine .cons (PublishNamespaceDone.codes _ (fun h => h.2.numbers _ mem_cons_self)
      (fun h => h.2.namespaces _ mem_cons_self) And.left) <| Codes.mono ?_ And.right
    exact .cons (codes_number (mem_cons_of_mem _ mem_cons_self)) <|
      .last (codes_text mem_cons_self _) rfl
  | subscribeNamespace => exact SubscribeNamespace.codes _ _
  | subscribeNamespaceLegacy => exact SubscribeNamespaceLegacy.codes _ _
  | publishBlocked => exact PublishBlocked.codes _ _
  | maxRequestId | requestsBlocked | publishNamespaceOk | subscribeNamespaceOk
  | unsubscribeNamespace | unsubscribe | fetchCancel => exact (Named.codes _ _).mono And.right
  | publishNamespaceError | subscribeNamespaceError | subscribeError | publishError
  | fetchError => exact (Refusal.codes _ _).mono And.right
  | namespaceMsg | namespaceDone => exact (Namespace.codes _ _).mono And.right
  | requestOk => exact (RequestOk.codes _ _).mono And.right
  | requestError => exact (RequestError.codes _ _).mono And.right
  | goAway => exact (GoAway.codes _).mono And.right
  | trackStatus => exact (TrackStatus.codes _ _).mono And.right
  | publishNamespace => exact (PublishNamespace.codes _ _).mono And.right
  | subscribe => exact (Subscribe.codes _ hsupported _).mono And.right
  | subscribeOk => exact (SubscribeOk.codes _).mono And.right
  | subscribeUpdate => exact (SubscribeUpdate.codes _ _).mono And.right
  | publishDone => exact (PublishDone.codes _ _).mono And.right
  | publish => exact (Publish.codes _ hsupported).mono And.right
  | publishOk => exact (PublishOk.codes _ hsupported _).mono And.right
  | fetch => exact (Fetch.codes _ hsupported _).mono And.right
  | fetchOk => exact (FetchOk.codes _ hsupported).mono And.right

/-- **Every control message that the encoder of a draft accepts is read back**, up to the end of the
body, as what the draft carries of it; and every value that fits is accepted. -/
theorem ietf_roundTrip (version : Version) (kind : Kind) (value : kind.Value)
    (hsupported : (kind.fields value).Supported version) :
    (∀ puts, kind.encodeMsg version value = .ok puts →
      (kind.decodeMsg version).run (Put.written puts) = .ok (kind.carried version value, [])) ∧
    (kind.sentIn version = true → (kind.fields value).Fit version →
      ∃ puts, kind.encodeMsg version value = .ok puts) := by
  have hcodes := Kind.codes hsupported
  refine ⟨fun puts hputs => ?_, fun hsent hfit => hcodes.succeeds ⟨hsent, hfit⟩⟩
  have hrun := hcodes.carries puts hputs
  rwa [append_nil] at hrun

/-- A publication in the namespace `live/a`, with a location. -/
def published : Publish := ⟨4, Path.new ['l', 'i', 'v', 'e', '/', 'a'], ['v'], 9, .ascending,
  some ⟨7, 2⟩, true⟩

/-- The publication is written in draft 16 and read back as it is. -/
theorem ietf_roundTrip_publish :
    (Kind.fields .publish published).Fit .draft16 ∧
    ∃ puts, Publish.encodeMsg .draft16 published = .ok puts ∧
      (Publish.decodeMsg .draft16).run (Put.written puts) = .ok (published, []) := by
  have hfit : (Kind.fields .publish published).Fit .draft16 :=
    { numbers := by simp [Kind.fields, Location.numbers, published]
      strings := by simp [Kind.fields, published]; decide
      namespaces := by simp [Kind.fields, FitsNamespace, published]; decide
      replyIds := by simp [Kind.fields] }
  obtain ⟨hcarries, hsucceeds⟩ := ietf_roundTrip .draft16 .publish published
    { orders := by simp [Kind.fields, published], filters := by simp [Kind.fields] }
  obtain ⟨puts, hputs⟩ := hsucceeds rfl hfit
  exact ⟨hfit, puts, hputs, hcarries puts hputs⟩

end Ietf

end HermitMoq
