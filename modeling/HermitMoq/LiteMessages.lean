import HermitMoq.Decode

/-!
# The Messages of the Lite Protocol

Every message of `moq-net/src/lite` that is sent with its size, as its value and the decoder of
its body, `decode_msg`. A message that a version does not have is refused, and a field that it
does not have gets its default. `Kind` lists the messages.
-/

namespace HermitMoq

namespace Lite

open Decode

/-! ### Announcements -/

/-- `AnnounceStatus`. -/
inductive AnnounceStatus
  | ended
  | active
  deriving DecidableEq, Repr

/-- `Announce`. -/
structure Announce where
  status : AnnounceStatus
  suffix : Path
  hops : OriginList
  deriving DecidableEq

/-- `AnnounceInterest`. -/
structure AnnounceInterest where
  pathPrefix : Path
  excludeHop : ℕ
  deriving DecidableEq

/-- `AnnounceInit`. -/
structure AnnounceInit where
  suffixes : List Path
  deriving DecidableEq

/-- `AnnounceStatus::decode`. -/
def AnnounceStatus.decode : Decode AnnounceStatus := do
  match ← u8 with
  | 0 => pure .ended
  | 1 => pure .active
  | _ => fail .invalidValue

/-- The hops of a version that sends their number only: `push` the placeholder that often. -/
def unknownHops : ℕ → OriginList → Decode OriginList
  | 0, list => pure list
  | count + 1, list =>
    match list.push ⟨0⟩ with
    | some list => unknownHops count list
    | none => fail .boundsExceeded

/-- The hops of an announcement. -/
def decodeHops (version : Version) : Decode OriginList :=
  match version with
  | .lite01 | .lite02 => pure OriginList.new
  | .lite03 => do unknownHops (← u64 version) OriginList.new
  | _ => originList version

/-- `Announce::decode_msg`. -/
def Announce.decodeMsg (version : Version) : Decode Announce := do
  let status ← AnnounceStatus.decode
  let suffix ← path version
  let hops ← decodeHops version
  pure { status, suffix, hops }

/-- `AnnounceInterest::decode_msg`. -/
def AnnounceInterest.decodeMsg (version : Version) : Decode AnnounceInterest := do
  let pathPrefix ← path version
  let excludeHop ← match version with
    | .lite01 | .lite02 | .lite03 => pure 0
    | _ => u64 version
  pure { pathPrefix, excludeHop }

/-- `AnnounceInit::decode_msg`. -/
def AnnounceInit.decodeMsg (version : Version) : Decode AnnounceInit :=
  match version with
  | .lite01 | .lite02 => do
    let count ← u64 version
    let paths ← times (path version) count
    pure { suffixes := paths }
  | _ => fail .version

/-! ### Sessions and groups -/

/-- `SessionInfo`. -/
structure SessionInfo where
  bitrate : Option ℕ
  deriving DecidableEq

/-- `Group`. -/
structure Group where
  subscribe : ℕ
  sequence : ℕ
  deriving DecidableEq

/-- `Goaway`. -/
structure Goaway where
  uri : List Char
  deriving DecidableEq

/-- `Fetch`. -/
structure Fetch where
  broadcast : Path
  track : List Char
  priority : UInt8
  group : ℕ
  deriving DecidableEq

/-- `Probe`. -/
structure Probe where
  bitrate : ℕ
  rtt : Option ℕ
  deriving DecidableEq

/-- A value for which zero stands for none. -/
def nonzero (version : Version) : Decode (Option ℕ) := do
  let value ← u64 version
  pure (if value = 0 then none else some value)

/-- `SessionInfo::decode_msg`. -/
def SessionInfo.decodeMsg (version : Version) : Decode SessionInfo :=
  match version with
  | .lite01 | .lite02 => do
    let bitrate ← nonzero version
    pure { bitrate }
  | _ => fail .version

/-- `Group::decode_msg`. -/
def Group.decodeMsg (version : Version) : Decode Group := do
  let subscribe ← u64 version
  let sequence ← u64 version
  pure { subscribe, sequence }

/-- `Goaway::decode_msg`. -/
def Goaway.decodeMsg (version : Version) : Decode Goaway :=
  match version with
  | .lite01 | .lite02 | .lite03 => fail .version
  | _ => do
    let uri ← string version
    pure { uri }

/-- `Fetch::decode_msg`. -/
def Fetch.decodeMsg (version : Version) : Decode Fetch :=
  match version with
  | .lite01 | .lite02 => fail .version
  | _ => do
    let broadcast ← path version
    let track ← string version
    let priority ← u8
    let group ← u64 version
    pure { broadcast, track, priority, group }

/-- `Probe::decode_msg`. -/
def Probe.decodeMsg (version : Version) : Decode Probe :=
  match version with
  | .lite01 | .lite02 => fail .version
  | _ => do
    let bitrate ← u64 version
    let rtt ← match version with
      | .lite03 => pure none
      | _ => nonzero version
    pure { bitrate, rtt }

/-! ### Subscriptions -/

/-- What a subscription can be changed to; the fields of `SubscribeOk` and `SubscribeUpdate`. -/
structure SubscribeOk where
  priority : UInt8
  ordered : Bool
  maxLatency : ℕ
  startGroup : Option ℕ
  endGroup : Option ℕ
  deriving DecidableEq

/-- `SubscribeUpdate`. -/
structure SubscribeUpdate extends SubscribeOk
  deriving DecidableEq

/-- `Subscribe`. -/
structure Subscribe extends SubscribeOk where
  id : ℕ
  broadcast : Path
  track : List Char
  deriving DecidableEq

/-- `SubscribeDrop`. -/
structure SubscribeDrop where
  start : ℕ
  «end» : ℕ
  error : ℕ
  deriving DecidableEq

/-- The fields of a subscription after its priority, from lite-03 on. -/
def subscribeFields (version : Version) (priority : UInt8) : Decode SubscribeOk := do
  let ordered ← (· != 0) <$> u8
  let maxLatency ← duration version
  let startGroup ← optionU64 version
  let endGroup ← optionU64 version
  pure { priority, ordered, maxLatency, startGroup, endGroup }

/-- The fields of a subscription in the versions that do not send them. -/
def subscribeDefault (priority : UInt8) : SubscribeOk where
  priority := priority
  ordered := false
  maxLatency := 0
  startGroup := none
  endGroup := none

/-- `Subscribe::decode_msg`. -/
def Subscribe.decodeMsg (version : Version) : Decode Subscribe := do
  let id ← u64 version
  let broadcast ← path version
  let track ← string version
  let priority ← u8
  let fields ← match version with
    | .lite01 | .lite02 => pure (subscribeDefault priority)
    | _ => subscribeFields version priority
  pure { fields with id, broadcast, track }

/-- `SubscribeOk::decode_msg`. -/
def SubscribeOk.decodeMsg (version : Version) : Decode SubscribeOk :=
  match version with
  | .lite01 => subscribeDefault <$> u8
  | .lite02 => pure (subscribeDefault 0)
  | _ => do subscribeFields version (← u8)

/-- `SubscribeUpdate::decode_msg`. -/
def SubscribeUpdate.decodeMsg (version : Version) : Decode SubscribeUpdate :=
  match version with
  | .lite01 | .lite02 => fail .version
  | _ => do
    let fields ← subscribeFields version (← u8)
    pure { fields with }

/-- `SubscribeDrop::decode_msg`. -/
def SubscribeDrop.decodeMsg (version : Version) : Decode SubscribeDrop :=
  match version with
  | .lite01 | .lite02 => fail .version
  | _ => do
    let start ← u64 version
    let «end» ← u64 version
    let error ← u64 version
    pure { start, «end», error }

/-! ### All of them -/

/-- The messages. -/
inductive Kind
  | announce
  | announceInterest
  | announceInit
  | sessionInfo
  | group
  | goaway
  | fetch
  | probe
  | subscribe
  | subscribeOk
  | subscribeUpdate
  | subscribeDrop
  deriving DecidableEq, Repr

/-- The values of a message. -/
def Kind.Value : Kind → Type
  | announce => Announce
  | announceInterest => AnnounceInterest
  | announceInit => AnnounceInit
  | sessionInfo => SessionInfo
  | group => Group
  | goaway => Goaway
  | fetch => Fetch
  | probe => Probe
  | subscribe => Subscribe
  | subscribeOk => SubscribeOk
  | subscribeUpdate => SubscribeUpdate
  | subscribeDrop => SubscribeDrop

/-- `Message::decode_msg`. -/
def Kind.decodeMsg : (kind : Kind) → Version → Decode kind.Value
  | announce => Announce.decodeMsg
  | announceInterest => AnnounceInterest.decodeMsg
  | announceInit => AnnounceInit.decodeMsg
  | sessionInfo => SessionInfo.decodeMsg
  | group => Group.decodeMsg
  | goaway => Goaway.decodeMsg
  | fetch => Fetch.decodeMsg
  | probe => Probe.decodeMsg
  | subscribe => Subscribe.decodeMsg
  | subscribeOk => SubscribeOk.decodeMsg
  | subscribeUpdate => SubscribeUpdate.decodeMsg
  | subscribeDrop => SubscribeDrop.decodeMsg

/-- `decode` of a message: its size as an integer, and then exactly its body. -/
def Kind.decode (kind : Kind) (version : Version) : Decode kind.Value :=
  Parser.framed (u64 version) (kind.decodeMsg version) .long DecodeError.long_ne_short

end Lite

end HermitMoq
