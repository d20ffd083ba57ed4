import HermitMoq.Encode
import HermitMoq.LiteMessages

/-!
# The Encoding of Lite Messages

The encoders of the messages of `moq-net/src/lite`, `encode_msg`, and of their frames: a first
pass over the body counts its bytes, and a second writes them behind their number. Not every
version carries every field; `carried` is the message that the receiver sees.
-/

namespace HermitMoq

open Bool List

namespace Lite

open Encode

/-! ### Announcements -/

/-- `AnnounceStatus::encode`. -/
def AnnounceStatus.encode : AnnounceStatus → Encode
  | ended => u8 0
  | active => u8 1

/-- `encode_hops`. -/
def encodeHops (version : Version) (hops : OriginList) : Encode :=
  match version with
  | .lite01 | .lite02 => .ok []
  | .lite03 => u64 version hops.list.length
  | _ => originList version hops

/-- `Announce::encode_msg`. -/
def Announce.encodeMsg (version : Version) (m : Announce) : Encode :=
  .seq [m.status.encode, path version m.suffix, encodeHops version m.hops]

/-- `AnnounceInterest::encode_msg`. -/
def AnnounceInterest.encodeMsg (version : Version) (m : AnnounceInterest) : Encode :=
  .seq [path version m.pathPrefix,
    match version with
    | .lite01 | .lite02 | .lite03 => .ok []
    | _ => u64 version m.excludeHop]

/-- `AnnounceInit::encode_msg`. -/
def AnnounceInit.encodeMsg (version : Version) (m : AnnounceInit) : Encode :=
  match version with
  | .lite01 | .lite02 =>
    .seq (u64 version m.suffixes.length :: m.suffixes.map (path version))
  | _ => .error .version

/-! ### Sessions and groups -/

/-- `SessionInfo::encode_msg`. -/
def SessionInfo.encodeMsg (version : Version) (m : SessionInfo) : Encode :=
  match version with
  | .lite01 | .lite02 => u64 version (m.bitrate.getD 0)
  | _ => .error .version

/-- `Group::encode_msg`. -/
def Group.encodeMsg (version : Version) (m : Group) : Encode :=
  .seq [u64 version m.subscribe, u64 version m.sequence]

/-- `Goaway::encode_msg`. -/
def Goaway.encodeMsg (version : Version) (m : Goaway) : Encode :=
  match version with
  | .lite01 | .lite02 | .lite03 => .error .version
  | _ => string version m.uri

/-- `Fetch::encode_msg`. -/
def Fetch.encodeMsg (version : Version) (m : Fetch) : Encode :=
  match version with
  | .lite01 | .lite02 => .error .version
  | _ => .seq [path version m.broadcast, string version m.track, u8 m.priority,
      u64 version m.group]

/-- `Probe::encode_msg`: zero stands for none, and is rounded up. -/
def Probe.encodeMsg (version : Version) (m : Probe) : Encode :=
  match version with
  | .lite01 | .lite02 => .error .version
  | .lite03 => u64 version m.bitrate
  | _ => .seq [u64 version m.bitrate, u64 version ((m.rtt.map (max · 1)).getD 0)]

/-! ### Subscriptions -/

/-- The fields of a subscription from its priority on, as lite-03 and later have them. -/
def SubscribeOk.encodeFields (version : Version) (nanos : Fin 1000000) (m : SubscribeOk) : Encode :=
  .seq [u8 m.priority, u8 (if m.ordered then 1 else 0), duration version m.maxLatency nanos,
    optionU64 version m.startGroup, optionU64 version m.endGroup]

/-- `SubscribeOk::encode_msg`. -/
def SubscribeOk.encodeMsg (version : Version) (nanos : Fin 1000000) (m : SubscribeOk) : Encode :=
  match version with
  | .lite01 => u8 m.priority
  | .lite02 => .ok []
  | _ => m.encodeFields version nanos

/-- `Subscribe::encode_msg`. -/
def Subscribe.encodeMsg (version : Version) (nanos : Fin 1000000) (m : Subscribe) : Encode :=
  .seq [u64 version m.id, path version m.broadcast, string version m.track,
    match version with
    | .lite01 | .lite02 => u8 m.priority
    | _ => m.toSubscribeOk.encodeFields version nanos]

/-- `SubscribeUpdate::encode_msg`. -/
def SubscribeUpdate.encodeMsg (version : Version) (nanos : Fin 1000000) (m : SubscribeUpdate) :
    Encode :=
  match version with
  | .lite01 | .lite02 => .error .version
  | _ => m.toSubscribeOk.encodeFields version nanos

/-- `SubscribeDrop::encode_msg`. -/
def SubscribeDrop.encodeMsg (version : Version) (m : SubscribeDrop) : Encode :=
  match version with
  | .lite01 | .lite02 => .error .version
  | _ => .seq [u64 version m.start, u64 version m.end, u64 version m.error]

/-! ### All of them -/

/-- `Message::encode_msg`. A duration is in milliseconds; `nanos` is what it has beyond them. -/
def Kind.encodeMsg (version : Version) (nanos : Fin 1000000) : (kind : Kind) → kind.Value → Encode
  | announce => Announce.encodeMsg version
  | announceInterest => AnnounceInterest.encodeMsg version
  | announceInit => AnnounceInit.encodeMsg version
  | sessionInfo => SessionInfo.encodeMsg version
  | group => Group.encodeMsg version
  | goaway => Goaway.encodeMsg version
  | fetch => Fetch.encodeMsg version
  | probe => Probe.encodeMsg version
  | subscribe => Subscribe.encodeMsg version nanos
  | subscribeOk => SubscribeOk.encodeMsg version nanos
  | subscribeUpdate => SubscribeUpdate.encodeMsg version nanos
  | subscribeDrop => SubscribeDrop.encodeMsg version

/-- `encode` of a message: its size, counted in a first pass, and its body. -/
def Kind.encode (version : Version) (nanos : Fin 1000000) (kind : Kind) (value : kind.Value) :
    Encode :=
  Output.framed (u64 version) (kind.encodeMsg version nanos value)

/-! ### Responses and parameters -/

/-- `SubscribeResponse`. -/
inductive SubscribeResponse
  | ok (ok : SubscribeOk)
  | drop (drop : SubscribeDrop)
  deriving DecidableEq

/-- The message of a response. -/
def SubscribeResponse.message : SubscribeResponse → (kind : Kind) × kind.Value
  | ok m => ⟨.subscribeOk, m⟩
  | drop m => ⟨.subscribeDrop, m⟩

/-- `encode` of a response: from lite-03 on, its type comes first. -/
def SubscribeResponse.encode (version : Version) (nanos : Fin 1000000) (r : SubscribeResponse) :
    Encode :=
  match version with
  | .lite01 | .lite02 =>
    match r with
    | ok m => Kind.encode version nanos .subscribeOk m
    | drop _ => .error .version
  | _ =>
    match r with
    | ok m => .seq [u64 version 0, Kind.encode version nanos .subscribeOk m]
    | drop m => .seq [u64 version 1, Kind.encode version nanos .subscribeDrop m]

/-- `decode` of a response. -/
def SubscribeResponse.decode (version : Version) : Decode SubscribeResponse :=
  match version with
  | .lite01 | .lite02 => ok <$> Kind.decode .subscribeOk version
  | _ => do
    let typ ← Decode.u64 version
    match typ with
    | 0 => ok <$> Kind.decode .subscribeOk version
    | 1 => drop <$> Kind.decode .subscribeDrop version
    | _ => Decode.fail (.invalidMessage typ)

/-- `Parameters`: a map, in some order. -/
structure Parameters where
  entries : List (ℕ × List UInt8)
  nodup : (entries.map Prod.fst).Nodup
  deriving DecidableEq

/-- `MAX_PARAMS`. -/
def Parameters.maxParams : ℕ := 64

/-- `encode` of parameters. -/
def Parameters.encode (version : Version) (params : Parameters) : Encode :=
  if params.entries.length > maxParams then .error .tooMany
  else .seq (u64 version params.entries.length ::
    params.entries.map fun entry => .seq [u64 version entry.1, bytes version entry.2])

/-- A new key can be added. -/
theorem Parameters.nodup_snoc (params : Parameters) {kind : ℕ}
    (hnew : kind ∉ params.entries.map Prod.fst) (data : List UInt8) :
    ((params.entries ++ [(kind, data)]).map Prod.fst).Nodup := by
  rw [map_append]
  exact params.nodup.append (nodup_singleton kind) (disjoint_singleton.mpr hnew)

/-- One round of the loop of `decode`. -/
def Parameters.decodeEntry (version : Version) (params : Parameters) : Decode Parameters := do
  let kind ← Decode.u64 version
  if hnew : kind ∈ params.entries.map Prod.fst then Decode.fail .duplicate
  else do
    let data ← Decode.bytes version
    pure { entries := params.entries ++ [(kind, data)], nodup := nodup_snoc params hnew data }

/-- The loop of `decode`. -/
def Parameters.decodeEntries (version : Version) : ℕ → Parameters → Decode Parameters
  | 0, params => pure params
  | count + 1, params => decodeEntry version params >>= decodeEntries version count

/-- `decode` of parameters. -/
def Parameters.decode (version : Version) : Decode Parameters := do
  let count ← Decode.u64 version
  if count > maxParams then Decode.fail .tooMany
  else decodeEntries version count ⟨[], List.nodup_nil⟩

/-! ### What a version carries -/

/-- The hops of a version that sends their number only. -/
def OriginList.unknown (hops : OriginList) : OriginList where
  list := List.replicate hops.list.length ⟨0⟩
  bound := by rw [List.length_replicate]; exact hops.bound

/-- The hops that a version carries. -/
def carriedHops (version : Version) (hops : OriginList) : OriginList :=
  match version with
  | .lite01 | .lite02 => OriginList.new
  | .lite03 => OriginList.unknown hops
  | _ => hops

/-- What a version carries of a message. A field that it does not have is its default; a bitrate
of zero is unknown, and a round-trip time of zero is rounded up. -/
def Kind.carried (version : Version) : (kind : Kind) → kind.Value → kind.Value
  | announce, (m : Announce) => { m with hops := carriedHops version m.hops : Announce }
  | announceInterest, (m : AnnounceInterest) =>
    match version with
    | .lite01 | .lite02 | .lite03 => { m with excludeHop := 0 : AnnounceInterest }
    | _ => m
  | sessionInfo, (m : SessionInfo) => ({ bitrate := m.bitrate.filter (· ≠ 0) } : SessionInfo)
  | probe, (m : Probe) =>
    match version with
    | .lite03 => { m with rtt := none : Probe }
    | _ => { m with rtt := m.rtt.map (max · 1) : Probe }
  | subscribe, (m : Subscribe) =>
    match version with
    | .lite01 | .lite02 =>
      { subscribeDefault m.priority with id := m.id, broadcast := m.broadcast, track := m.track
        : Subscribe }
    | _ => m
  | subscribeOk, (m : SubscribeOk) =>
    match version with
    | .lite01 => subscribeDefault m.priority
    | .lite02 => subscribeDefault 0
    | _ => m
  | announceInit, m => m
  | group, m => m
  | goaway, m => m
  | fetch, m => m
  | subscribeUpdate, m => m
  | subscribeDrop, m => m

/-- The versions that have a message. -/
def Kind.sentIn : Kind → Version → Bool
  | announceInit, version | sessionInfo, version =>
    match version with
    | .lite01 | .lite02 => true
    | _ => false
  | goaway, version =>
    match version with
    | .lite01 | .lite02 | .lite03 => false
    | _ => true
  | fetch, version | probe, version | subscribeUpdate, version | subscribeDrop, version =>
    match version with
    | .lite01 | .lite02 => false
    | _ => true
  | announce, _ | announceInterest, _ | group, _ | subscribe, _ | subscribeOk, _ => true

/-- A string whose length fits 62 bits. -/
def FitsString (cs : List Char) : Prop := (utf8 cs).length < 2 ^ 62

/-- The numbers of a subscription fit 62 bits, and so do the groups plus one. -/
structure SubscribeOk.Fits (m : SubscribeOk) : Prop where
  maxLatency : m.maxLatency < 2 ^ 62
  startGroup : ∀ g ∈ m.startGroup, g + 1 < 2 ^ 62
  endGroup : ∀ g ∈ m.endGroup, g + 1 < 2 ^ 62

/-- The numbers of a message and the lengths of its strings fit 62 bits. -/
def Kind.Fits : (kind : Kind) → kind.Value → Prop
  | announce, (m : Announce) => FitsString m.suffix.chars ∧ ∀ o ∈ m.hops.list, o.id.toNat < 2 ^ 62
  | announceInterest, (m : AnnounceInterest) =>
    FitsString m.pathPrefix.chars ∧ m.excludeHop < 2 ^ 62
  | announceInit, (m : AnnounceInit) =>
    m.suffixes.length < 2 ^ 62 ∧ ∀ p ∈ m.suffixes, FitsString p.chars
  | sessionInfo, (m : SessionInfo) => ∀ b ∈ m.bitrate, b < 2 ^ 62
  | group, (m : Group) => m.subscribe < 2 ^ 62 ∧ m.sequence < 2 ^ 62
  | goaway, (m : Goaway) => FitsString m.uri
  | fetch, (m : Fetch) => FitsString m.broadcast.chars ∧ FitsString m.track ∧ m.group < 2 ^ 62
  | probe, (m : Probe) => m.bitrate < 2 ^ 62 ∧ ∀ r ∈ m.rtt, r < 2 ^ 62
  | subscribe, (m : Subscribe) =>
    m.id < 2 ^ 62 ∧ FitsString m.broadcast.chars ∧ FitsString m.track ∧ m.toSubscribeOk.Fits
  | subscribeOk, (m : SubscribeOk) => m.Fits
  | subscribeUpdate, (m : SubscribeUpdate) => m.toSubscribeOk.Fits
  | subscribeDrop, (m : SubscribeDrop) => m.start < 2 ^ 62 ∧ m.end < 2 ^ 62 ∧ m.error < 2 ^ 62

/-! ### Round trips of bodies -/

/-- A status is read back. -/
theorem AnnounceStatus.transfers (status : AnnounceStatus) :
    Transfers status.encode AnnounceStatus.decode status := by
  cases status with
  | ended => exact (transfers_u8 0).then_pure rfl
  | active => exact (transfers_u8 1).then_pure rfl

/-- Placeholders are pushed as long as the list has room. -/
theorem unknownHops_eq (count : ℕ) (hops : OriginList)
    (hroom : hops.list.length + count ≤ maxHops) : unknownHops count hops =
      pure { list := hops.list ++ replicate count ⟨0⟩, bound := by simpa using hroom } := by
  induction count generalizing hops with
  | zero => simp [unknownHops]
  | succ count ih =>
    have hlt : hops.list.length < maxHops := by omega
    have hpush : hops.push ⟨0⟩ = some ⟨hops.list ++ [⟨0⟩], by simp; omega⟩ :=
      dif_neg (Nat.not_le.mpr hlt)
    rw [unknownHops, hpush]
    dsimp only
    rw [ih _ (by simp; omega)]
    simp [replicate_succ]

variable {version : Version} {m : SubscribeOk}

/-- Hops are read back as the version carries them. -/
theorem transfers_hops {hops : OriginList} (hids : ∀ o ∈ hops.list, o.id.toNat < 2 ^ 62) :
    Transfers (encodeHops version hops) (decodeHops version) (carriedHops version hops) := by
  cases version with
  | lite01 => exact .nil _
  | lite02 => exact .nil _
  | lite03 =>
    have hlen : hops.list.length < 2 ^ 62 := Nat.lt_of_le_of_lt hops.bound (by decide)
    refine (transfers_u64 hlen).then_pure ?_
    rw [unknownHops_eq _ _ (by simpa [OriginList.new] using hops.bound)]
    rfl
  | lite04 | lite05Wip => exact transfers_originList hids

/-- `Announce` is read back. -/
theorem Announce.transfers {m : Announce} (hm : Kind.Fits .announce m) :
    Transfers (m.encodeMsg version) (Announce.decodeMsg version)
      (Kind.carried version .announce m) :=
  (AnnounceStatus.transfers m.status).cons <| (transfers_path hm.1).cons <|
    (transfers_hops hm.2).single.then_pure rfl

/-- `AnnounceInterest` is read back. -/
theorem AnnounceInterest.transfers {m : AnnounceInterest} (hm : Kind.Fits .announceInterest m) :
    Transfers (m.encodeMsg version) (AnnounceInterest.decodeMsg version)
      (Kind.carried version .announceInterest m) := by
  refine (transfers_path hm.1).cons ?_
  cases version with
  | lite01 => exact .nil _
  | lite02 => exact .nil _
  | lite03 => exact .nil _
  | lite04 | lite05Wip => exact (transfers_u64 hm.2).single.then_pure rfl

/-- `AnnounceInit` is read back. -/
theorem AnnounceInit.transfers {m : AnnounceInit} (hm : Kind.Fits .announceInit m)
    (hsent : Kind.sentIn .announceInit version = true) :
    Transfers (m.encodeMsg version) (AnnounceInit.decodeMsg version) m := by
  have hpath : ∀ p ∈ m.suffixes, Transfers (path version p) (Decode.path version) p :=
    fun p hp => transfers_path (hm.2 p hp)
  cases version with
  | lite01 | lite02 => exact (transfers_u64 hm.1).cons ((transfers_times hpath).then_pure rfl)
  | lite03 | lite04 | lite05Wip => exact absurd hsent false_ne_true

/-- Zero is read as none. -/
theorem transfers_nonzero {value : Option ℕ} (hvalue : ∀ v ∈ value, v < 2 ^ 62) :
    Transfers (u64 version (value.getD 0)) (nonzero version) (value.filter (· ≠ 0)) := by
  have hlt : value.getD 0 < 2 ^ 62 := by
    cases value with
    | none => decide
    | some v => exact hvalue v rfl
  refine (transfers_u64 hlt).then_pure (congrArg pure ?_)
  cases value with
  | none => rfl
  | some v => by_cases hv : v = 0 <;> simp [hv, Option.filter]

/-- `SessionInfo` is read back. -/
theorem SessionInfo.transfers {m : SessionInfo} (hm : Kind.Fits .sessionInfo m)
    (hsent : Kind.sentIn .sessionInfo version = true) :
    Transfers (m.encodeMsg version) (SessionInfo.decodeMsg version)
      (Kind.carried version .sessionInfo m) := by
  cases version with
  | lite01 | lite02 => exact (transfers_nonzero hm).then_pure rfl
  | lite03 => exact absurd hsent false_ne_true
  | lite04 => exact absurd hsent false_ne_true
  | lite05Wip => exact absurd hsent false_ne_true

/-- `Group` is read back. -/
theorem Group.transfers {m : Group} (hm : Kind.Fits .group m) :
    Transfers (m.encodeMsg version) (Group.decodeMsg version) m :=
  (transfers_u64 hm.1).cons <| (transfers_u64 hm.2).single.then_pure rfl

/-- `Goaway` is read back. -/
theorem Goaway.transfers {m : Goaway} (hm : Kind.Fits .goaway m)
    (hsent : Kind.sentIn .goaway version = true) :
    Transfers (m.encodeMsg version) (Goaway.decodeMsg version) m := by
  cases version with
  | lite01 | lite02 | lite03 => exact absurd hsent false_ne_true
  | lite04 | lite05Wip => exact (transfers_string hm).then_pure rfl

/-- `Fetch` is read back. -/
theorem Fetch.transfers {m : Fetch} (hm : Kind.Fits .fetch m)
    (hsent : Kind.sentIn .fetch version = true) :
    Transfers (m.encodeMsg version) (Fetch.decodeMsg version) m := by
  obtain ⟨hbroadcast, htrack, hgroup⟩ := hm
  cases version with
  | lite01 | lite02 => exact absurd hsent false_ne_true
  | lite03 | lite04 | lite05Wip =>
    exact (transfers_path hbroadcast).cons <| (transfers_string htrack).cons <|
      (transfers_u8 m.priority).cons <| (transfers_u64 hgroup).single.then_pure rfl

/-- `Probe` is read back. -/
theorem Probe.transfers {m : Probe} (hm : Kind.Fits .probe m)
    (hsent : Kind.sentIn .probe version = true) :
    Transfers (m.encodeMsg version) (Probe.decodeMsg version) (Kind.carried version .probe m) := by
  obtain ⟨hbitrate, hrtt⟩ := hm
  have hpositive : ∀ r ∈ m.rtt.map (max · 1), r < 2 ^ 62 := by
    intro r hr
    obtain ⟨r', hr', rfl⟩ := Option.mem_map.mp hr
    exact Nat.max_lt.mpr ⟨hrtt r' hr', by decide⟩
  have hcarried : (m.rtt.map (max · 1)).filter (· ≠ 0) = m.rtt.map (max · 1) := by
    cases m.rtt <;> simp
  cases version with
  | lite01 => exact absurd hsent false_ne_true
  | lite02 => exact absurd hsent false_ne_true
  | lite03 => exact (transfers_u64 hbitrate).then_pure rfl
  | lite04 | lite05Wip =>
    refine (transfers_u64 hbitrate).cons ?_
    refine (transfers_nonzero hpositive).single.then_pure ?_
    rw [hcarried]
    rfl

theorem SubscribeOk.transfers_fields (hm : m.Fits) (nanos : Fin 1000000) :
    Transfers (m.encodeFields version nanos) (Decode.u8 >>= subscribeFields version) m := by
  have hordered : Transfers (u8 (if m.ordered then 1 else 0)) ((· != 0) <$> Decode.u8)
      m.ordered := by
    have := (transfers_u8 (if m.ordered then 1 else 0)).map (· != 0)
    cases h : m.ordered <;> rwa [h] at this
  refine (transfers_u8 m.priority).cons ?_
  refine hordered.cons ?_
  exact (transfers_duration hm.maxLatency nanos).cons <| (transfers_optionU64 hm.startGroup).cons <|
    (transfers_optionU64 hm.endGroup).single.then_pure rfl

/-- `SubscribeOk` is read back. -/
theorem SubscribeOk.transfers (hm : m.Fits) (nanos : Fin 1000000) :
    Transfers (m.encodeMsg version nanos) (SubscribeOk.decodeMsg version)
      (Kind.carried version .subscribeOk m) := by
  cases version with
  | lite01 => exact (transfers_u8 m.priority).map subscribeDefault
  | lite02 => exact .nil _
  | lite03 | lite04 | lite05Wip => exact m.transfers_fields hm nanos

/-- `Subscribe` is read back. -/
theorem Subscribe.transfers {m : Subscribe} (hm : Kind.Fits .subscribe m) (nanos : Fin 1000000) :
    Transfers (m.encodeMsg version nanos) (Subscribe.decodeMsg version)
      (Kind.carried version .subscribe m) := by
  obtain ⟨hid, hbroadcast, htrack, hfields⟩ := hm
  refine (transfers_u64 hid).cons ?_
  refine (transfers_path hbroadcast).cons ?_
  refine (transfers_string htrack).cons ?_
  cases version with
  | lite01 | lite02 => exact (transfers_u8 m.priority).single.then_pure rfl
  | lite03 | lite04 | lite05Wip =>
    exact (SubscribeOk.transfers_fields hfields nanos).single.then_pure rfl

/-- `SubscribeUpdate` is read back. -/
theorem SubscribeUpdate.transfers {m : SubscribeUpdate} (hm : Kind.Fits .subscribeUpdate m)
    (hsent : Kind.sentIn .subscribeUpdate version = true) (nanos : Fin 1000000) :
    Transfers (m.encodeMsg version nanos) (SubscribeUpdate.decodeMsg version) m := by
  cases version with
  | lite01 => exact absurd hsent false_ne_true
  | lite02 => exact absurd hsent false_ne_true
  | lite03 | lite04 | lite05Wip =>
    exact (SubscribeOk.transfers_fields hm nanos).then_pure rfl

/-- `SubscribeDrop` is read back. -/
theorem SubscribeDrop.transfers {m : SubscribeDrop} (hm : Kind.Fits .subscribeDrop m)
    (hsent : Kind.sentIn .subscribeDrop version = true) :
    Transfers (m.encodeMsg version) (SubscribeDrop.decodeMsg version) m := by
  obtain ⟨hstart, hend, herror⟩ := hm
  cases version with
  | lite01 => exact absurd hsent false_ne_true
  | lite02 => exact absurd hsent false_ne_true
  | lite03 | lite04 | lite05Wip =>
    exact (transfers_u64 hstart).cons <| (transfers_u64 hend).cons <|
      (transfers_u64 herror).single.then_pure rfl

variable {kind : Kind} {value : kind.Value}

/-- The body of a message is read back as what the version carries of it. -/
theorem Kind.transfers (hfits : kind.Fits value) (hsent : kind.sentIn version = true)
    (nanos : Fin 1000000) :
    Transfers (kind.encodeMsg version nanos value) (kind.decodeMsg version)
      (kind.carried version value) := by
  cases kind with
  | announce => exact Announce.transfers hfits
  | announceInterest => exact AnnounceInterest.transfers hfits
  | announceInit => exact AnnounceInit.transfers hfits hsent
  | sessionInfo => exact SessionInfo.transfers hfits hsent
  | group => exact Group.transfers hfits
  | goaway => exact Goaway.transfers hfits hsent
  | fetch => exact Fetch.transfers hfits hsent
  | probe => exact Probe.transfers hfits hsent
  | subscribe => exact Subscribe.transfers hfits nanos
  | subscribeOk => exact SubscribeOk.transfers hfits nanos
  | subscribeUpdate => exact SubscribeUpdate.transfers hfits hsent nanos
  | subscribeDrop => exact SubscribeDrop.transfers hfits hsent

/-- A message that the version does not have is refused. -/
theorem Kind.encodeMsg_of_not_sentIn (hsent : kind.sentIn version = false) (nanos : Fin 1000000)
    (value : kind.Value) : kind.encodeMsg version nanos value = .error .version := by
  cases kind <;> cases version <;> first | rfl | exact absurd hsent.symm false_ne_true

/-! ### Round trips -/

/-- The body is written behind its size, and what is written is read back as this message,
whatever follows. -/
def Kind.Delivered (version : Version) (nanos : Fin 1000000) (kind : Kind) (value : kind.Value)
    (body : List Put) : Prop :=
  ∃ head, u64 version (Put.written body).length = .ok head ∧
    kind.encode version nanos value = .ok (head ++ body) ∧
    (kind.decode version).Reads (Put.written (head ++ body)) (kind.carried version value)

variable {nanos : Fin 1000000} {body : List Put} {r : SubscribeResponse}

/-- A body with a size that can be written is delivered. -/
theorem Kind.delivered (hfits : kind.Fits value) (hsent : kind.sentIn version = true)
    (hbody : kind.encodeMsg version nanos value = .ok body)
    (hsize : (Put.written body).length < 2 ^ 62) : kind.Delivered version nanos value body := by
  obtain ⟨body', hbody', hreads⟩ := Kind.transfers hfits hsent nanos
  obtain rfl : body = body' := Except.ok.inj (hbody.symm.trans hbody')
  exact Transfers.framed hbody hreads (transfers_u64 hsize)

theorem Kind.Delivered.transfers (h : kind.Delivered version nanos value body) :
    Transfers (kind.encode version nanos value) (kind.decode version)
      (kind.carried version value) := by
  obtain ⟨head, -, hencode, hreads⟩ := h
  exact ⟨head ++ body, hencode, hreads⟩

/-- The fields of a response fit. -/
def SubscribeResponse.Fits (r : SubscribeResponse) : Prop := r.message.1.Fits r.message.2

/-- What a version carries of a response. -/
def SubscribeResponse.carried (version : Version) : SubscribeResponse → SubscribeResponse
  | ok m => ok (Kind.carried version .subscribeOk m)
  | drop m => drop (Kind.carried version .subscribeDrop m)

/-- A response is read back with its type. -/
theorem SubscribeResponse.transfers (hfits : r.Fits) (hsent : r.message.1.sentIn version = true)
    (hbody : r.message.1.encodeMsg version nanos r.message.2 = .ok body)
    (hsize : (Put.written body).length < 2 ^ 62) :
    Transfers (r.encode version nanos) (decode version) (r.carried version) := by
  cases r with
  | ok m =>
    have hframe := (Kind.delivered hfits hsent hbody hsize).transfers.map ok
    cases version with
    | lite01 | lite02 => exact hframe
    | lite03 | lite04 | lite05Wip => exact (transfers_u64 (by decide)).cons hframe.single
  | drop m =>
    have hframe := (Kind.delivered hfits hsent hbody hsize).transfers.map drop
    cases version with
    | lite01 | lite02 => exact absurd hsent false_ne_true
    | lite03 | lite04 | lite05Wip => exact (transfers_u64 (by decide)).cons hframe.single

/-- A response that the version does not have is refused. -/
theorem SubscribeResponse.encode_of_not_sentIn
    (hsent : r.message.1.sentIn version = false) (nanos : Fin 1000000) :
    r.encode version nanos = .error .version := by
  cases r with
  | ok m => exact absurd hsent.symm false_ne_true
  | drop m =>
    cases version with
    | lite01 | lite02 => rfl
    | lite03 | lite04 | lite05Wip => exact absurd hsent.symm false_ne_true

/-- The keys of parameters and the lengths of their values fit 62 bits, and there are not too
many. -/
structure Parameters.Fits (params : Parameters) : Prop where
  count : params.entries.length ≤ maxParams
  kind : ∀ entry ∈ params.entries, entry.1 < 2 ^ 62
  value : ∀ entry ∈ params.entries, entry.2.length < 2 ^ 62

/-- Parameters are read back one by one, after those read before. -/
theorem Parameters.transfers_entries (params : Parameters) (entries : List (ℕ × List UInt8))
    (hkind : ∀ entry ∈ entries, entry.1 < 2 ^ 62)
    (hvalue : ∀ entry ∈ entries, entry.2.length < 2 ^ 62)
    (hnodup : ((params.entries ++ entries).map Prod.fst).Nodup) :
    Transfers (.seq (entries.map fun entry => .seq [u64 version entry.1, bytes version entry.2]))
      (decodeEntries version entries.length params) ⟨params.entries ++ entries, hnodup⟩ := by
  induction entries generalizing params with
  | nil =>
    have heq : (⟨params.entries ++ [], hnodup⟩ : Parameters) = params := by
      cases params
      simp
    rw [heq]
    exact .nil params
  | cons entry entries ih =>
    have hnew : entry.1 ∉ params.entries.map Prod.fst := by
      rw [map_append] at hnodup
      exact fun hmem => disjoint_of_nodup_append hnodup hmem mem_cons_self
    have hentry : Transfers (.seq [u64 version entry.1, bytes version entry.2])
        (decodeEntry version params)
        ⟨params.entries ++ [entry], nodup_snoc params hnew entry.2⟩ := by
      refine (transfers_u64 (hkind entry mem_cons_self)).cons ?_
      rw [dif_neg hnew]
      exact (transfers_bytes (hvalue entry mem_cons_self)).single.then_pure rfl
    refine hentry.cons ?_
    have hothers := ih ⟨params.entries ++ [entry], nodup_snoc params hnew entry.2⟩
      (fun e he => hkind e (mem_cons_of_mem _ he))
      (fun e he => hvalue e (mem_cons_of_mem _ he)) (by simpa using hnodup)
    simpa using hothers

/-- Parameters are read back. -/
theorem Parameters.transfers {params : Parameters} (hfits : params.Fits) :
    Transfers (params.encode version) (decode version) params := by
  have hcount := Nat.not_lt.mpr hfits.count
  rw [encode, if_neg hcount]
  refine (transfers_u64 (Nat.lt_of_le_of_lt hfits.count (by decide))).cons ?_
  rw [if_neg hcount]
  exact transfers_entries ⟨[], nodup_nil⟩ params.entries hfits.kind hfits.value params.nodup

/-- **Every message that a version has is written and read back**, if its numbers fit 62 bits, the
groups of a subscription with one added, and so does the size of its body. Parameters have no size.
-/
theorem lite_roundTrip (version : Version) :
    (∀ (kind : Kind) (value : kind.Value) (nanos : Fin 1000000), kind.Fits value →
      if kind.sentIn version then
        ∃ body, kind.encodeMsg version nanos value = .ok body ∧
          ((Put.written body).length < 2 ^ 62 → kind.Delivered version nanos value body)
      else kind.encodeMsg version nanos value = .error .version) ∧
    (∀ (r : SubscribeResponse) (nanos : Fin 1000000), r.Fits →
      if r.message.1.sentIn version then
        ∃ body, r.message.1.encodeMsg version nanos r.message.2 = .ok body ∧
          ((Put.written body).length < 2 ^ 62 →
            r.message.1.Delivered version nanos r.message.2 body ∧
            Transfers (r.encode version nanos) (SubscribeResponse.decode version)
              (r.carried version))
      else r.encode version nanos = .error .version) ∧
    ∀ params : Parameters, params.Fits →
      Transfers (params.encode version) (Parameters.decode version) params := by
  refine ⟨?_, ?_, ?_⟩
  · intro kind value nanos hfits
    split_ifs with hsent
    · obtain ⟨body, hbody, -⟩ := Kind.transfers hfits hsent nanos
      exact ⟨body, hbody, Kind.delivered hfits hsent hbody⟩
    · exact Kind.encodeMsg_of_not_sentIn (eq_false_iff.mpr hsent) nanos value
  · intro r nanos hfits
    split_ifs with hsent
    · obtain ⟨body, hbody, -⟩ := Kind.transfers hfits hsent nanos
      exact ⟨body, hbody, fun hsize => ⟨Kind.delivered hfits hsent hbody hsize,
        SubscribeResponse.transfers hfits hsent hbody hsize⟩⟩
    · exact SubscribeResponse.encode_of_not_sentIn (eq_false_iff.mpr hsent) nanos
  · intro params hfits
    exact Parameters.transfers hfits

/-- A subscription to a group, with a latency that is not in milliseconds, in lite-04. -/
theorem lite_roundTrip_subscribeOk :
    ∃ body, SubscribeOk.encodeMsg .lite04 999999 ⟨7, true, 250, some 12, none⟩ = .ok body ∧
      (Put.written body).length < 2 ^ 62 ∧
      Kind.Delivered .lite04 999999 .subscribeOk
        (⟨7, true, 250, some 12, none⟩ : SubscribeOk) body := by
  obtain ⟨body, hbody, hdelivered⟩ := (lite_roundTrip .lite04).1 .subscribeOk
    (⟨7, true, 250, some 12, none⟩ : SubscribeOk) 999999
    { maxLatency := by decide, startGroup := by simp, endGroup := by simp }
  have hlen : (SubscribeOk.encodeMsg .lite04 999999 ⟨7, true, 250, some 12, none⟩).map
      (fun body => (Put.written body).length) = .ok 6 := rfl
  have hsize : (Put.written body).length < 2 ^ 62 := by
    rw [show SubscribeOk.encodeMsg .lite04 999999 ⟨7, true, 250, some 12, none⟩ = .ok body
      from hbody] at hlen
    exact (Except.ok.inj hlen).trans_lt (by decide)
  exact ⟨body, hbody, hsize, hdelivered hsize⟩

/-- The last group is not written, and zero is not read back. -/
theorem last_group_not_written :
    SubscribeOk.encodeMsg .lite04 0 ⟨0, false, 0, some (2 ^ 62 - 1), none⟩ =
      .error .boundsExceeded ∧
    (Kind.encode .lite01 0 .sessionInfo (⟨some 0⟩ : SessionInfo)).map Put.written = .ok [1, 0] ∧
    (Kind.decode .sessionInfo .lite01).run [1, 0] = .ok ((⟨none⟩ : SessionInfo), []) ∧
    (Kind.encode .lite04 0 .probe (⟨5, some 0⟩ : Probe)).map Put.written = .ok [2, 5, 1] ∧
    (Kind.decode .probe .lite04).run [2, 5, 1] = .ok ((⟨5, some 1⟩ : Probe), []) :=
  ⟨rfl, rfl, rfl, rfl, rfl⟩

end Lite

end HermitMoq
