import HermitMoq.IetfFields

/-!
# The Messages of the IETF Drafts

Every message of `moq-net/src/ietf` that is sent with its size, as its value and the decoder of
its body, `decode_msg`. Draft 14 has most fields at fixed places, later drafts move them into
message parameters, and from draft 17 on replies travel on the stream of their request and
leave out its id. `Kind` lists the messages.
-/

namespace HermitMoq

namespace Ietf

open Decode

/-! ### Common parts -/

/-- The drafts in which a reply names its request. -/
def Version.repliesNameRequest : Version → Bool
  | .draft14 | .draft15 | .draft16 => true
  | _ => false

/-- The id of the request that a reply answers, in the drafts that send it. -/
def decodeReplyId (version : Version) : Decode (Option RequestId) :=
  if version.repliesNameRequest then some <$> u64 version else pure none

/-- The id of a new request; draft 17 adds the difference to a request it depends on. -/
def decodeRequestId (version : Version) : Decode RequestId := do
  let requestId ← u64 version
  if version = .draft17 then do
    let _requiredRequestIdDelta ← u64 version
    pure requestId
  else pure requestId

/-- A message that only names a request. -/
structure Named where
  requestId : RequestId
  deriving DecidableEq

/-- A message that refuses a request. -/
structure Refusal where
  requestId : RequestId
  errorCode : ℕ
  reasonPhrase : List Char
  deriving DecidableEq

def Named.decodeMsg (version : Version) : Decode Named := do
  let requestId ← u64 version
  pure { requestId }

def Refusal.decodeMsg (version : Version) : Decode Refusal := do
  let requestId ← u64 version
  let errorCode ← u64 version
  let reasonPhrase ← string version
  pure { requestId, errorCode, reasonPhrase }

/-! ### Requests in general -/

/-- `MaxRequestId::decode_msg`. -/
def MaxRequestId.decodeMsg : Version → Decode Named := Named.decodeMsg

/-- `RequestsBlocked::decode_msg`. -/
def RequestsBlocked.decodeMsg : Version → Decode Named := Named.decodeMsg

/-- `RequestOk`. -/
structure RequestOk where
  requestId : Option RequestId
  deriving DecidableEq

/-- `RequestError`. -/
structure RequestError where
  requestId : Option RequestId
  errorCode : ℕ
  reasonPhrase : List Char
  retryInterval : ℕ
  deriving DecidableEq

/-- `GoAway`. -/
structure GoAway where
  newSessionUri : List Char
  timeout : ℕ
  deriving DecidableEq

/-- `TrackStatus`. -/
structure TrackStatus where
  requestId : RequestId
  trackNamespace : Path
  trackName : List Char
  deriving DecidableEq

/-- `RequestOk::decode_msg`. -/
def RequestOk.decodeMsg (version : Version) : Decode RequestOk := do
  let requestId ← decodeReplyId version
  let _ ← decodeParams version []
  pure { requestId }

/-- `RequestError::decode_msg`. -/
def RequestError.decodeMsg (version : Version) : Decode RequestError := do
  let requestId ← decodeReplyId version
  let errorCode ← u64 version
  let retryInterval ← match version with
    | .draft14 | .draft15 => pure 0
    | _ => u64 version
  let reasonPhrase ← string version
  pure { requestId, errorCode, reasonPhrase, retryInterval }

/-- `GoAway::decode_msg`. -/
def GoAway.decodeMsg (version : Version) : Decode GoAway := do
  let newSessionUri ← string version
  match version with
  | .draft14 | .draft15 | .draft16 => pure { newSessionUri, timeout := 0 }
  | .draft17 => do
    let timeout ← u64 version
    pure { newSessionUri, timeout }
  | _ => do
    let timeout ← u64 version
    if (← remaining) = 0 then pure { newSessionUri, timeout }
    else do
      let _ ← u64 version
      pure { newSessionUri, timeout }

/-- `TrackStatus::decode_msg`. -/
def TrackStatus.decodeMsg (version : Version) : Decode TrackStatus := do
  let requestId ← decodeRequestId version
  let trackNamespace ← decodeNamespace version
  let trackName ← string version
  match version with
  | .draft14 => do
    let _subscriberPriority ← u8
    let _groupOrder ← GroupOrder.decode
    let _forward ← bool
    let _filterType ← u64 version
    let _params ← Parameters.decode version
    pure { requestId, trackNamespace, trackName }
  | _ => do
    let _ ← decodeParams version []
    pure { requestId, trackNamespace, trackName }

/-! ### Namespaces -/

/-- `PublishNamespace`. -/
structure PublishNamespace where
  requestId : RequestId
  trackNamespace : Path
  deriving DecidableEq

/-- `PublishNamespaceDone`. -/
structure PublishNamespaceDone where
  trackNamespace : Path
  requestId : RequestId
  deriving DecidableEq

/-- `PublishNamespaceCancel`. -/
structure PublishNamespaceCancel extends PublishNamespaceDone where
  errorCode : ℕ
  reasonPhrase : List Char
  deriving DecidableEq

/-- `SubscribeNamespace`. -/
structure SubscribeNamespace where
  requestId : RequestId
  «namespace» : Path
  deriving DecidableEq

/-- `SubscribeNamespaceLegacy`. -/
structure SubscribeNamespaceLegacy extends SubscribeNamespace where
  subscribeOptions : ℕ
  deriving DecidableEq

/-- `Namespace` and `NamespaceDone`. -/
structure Namespace where
  suffix : Path
  deriving DecidableEq

/-- `PublishBlocked`. -/
structure PublishBlocked where
  suffix : Path
  trackName : List Char
  deriving DecidableEq

/-- `PublishNamespace::decode_msg`. -/
def PublishNamespace.decodeMsg (version : Version) : Decode PublishNamespace := do
  let requestId ← decodeRequestId version
  let trackNamespace ← decodeNamespace version
  let _ ← decodeParams version []
  pure { requestId, trackNamespace }

/-- `PublishNamespaceOk::decode_msg`. -/
def PublishNamespaceOk.decodeMsg : Version → Decode Named := Named.decodeMsg

/-- `PublishNamespaceError::decode_msg`. -/
def PublishNamespaceError.decodeMsg : Version → Decode Refusal := Refusal.decodeMsg

/-- `PublishNamespaceDone::decode_msg`. -/
def PublishNamespaceDone.decodeMsg (version : Version) : Decode PublishNamespaceDone :=
  match version with
  | .draft14 | .draft15 => do
    let trackNamespace ← decodeNamespace version
    pure { trackNamespace, requestId := 0 }
  | .draft16 => do
    let requestId ← u64 version
    pure { trackNamespace := Path.empty, requestId }
  | _ => fail .version

/-- `PublishNamespaceCancel::decode_msg`. -/
def PublishNamespaceCancel.decodeMsg (version : Version) : Decode PublishNamespaceCancel := do
  let done ← PublishNamespaceDone.decodeMsg version
  let errorCode ← u64 version
  let reasonPhrase ← string version
  pure { done with errorCode, reasonPhrase }

/-- `is_legacy_version`. -/
def isLegacyVersion (version : Version) : Bool := version != .draft18

/-- `SubscribeNamespace::decode_msg`. -/
def SubscribeNamespace.decodeMsg (version : Version) : Decode SubscribeNamespace :=
  if isLegacyVersion version then fail .version
  else do
    let requestId ← u64 version
    let «namespace» ← decodeNamespace version
    let _ ← decodeParams version []
    pure { requestId, «namespace» }

/-- `SubscribeNamespaceLegacy::decode_msg`. -/
def SubscribeNamespaceLegacy.decodeMsg (version : Version) : Decode SubscribeNamespaceLegacy :=
  if !isLegacyVersion version then fail .version
  else do
    let requestId ← decodeRequestId version
    let «namespace» ← decodeNamespace version
    let subscribeOptions ← match version with
      | .draft16 | .draft17 => u64 version
      | _ => pure 0x01
    let _ ← decodeParams version []
    pure { requestId, «namespace», subscribeOptions }

/-- `SubscribeNamespaceOk::decode_msg`. -/
def SubscribeNamespaceOk.decodeMsg : Version → Decode Named := Named.decodeMsg

/-- `SubscribeNamespaceError::decode_msg`. -/
def SubscribeNamespaceError.decodeMsg : Version → Decode Refusal := Refusal.decodeMsg

/-- `UnsubscribeNamespace::decode_msg`. -/
def UnsubscribeNamespace.decodeMsg : Version → Decode Named := Named.decodeMsg

/-- `Namespace::decode_msg`. -/
def Namespace.decodeMsg (version : Version) : Decode Namespace := do
  let suffix ← decodeNamespace version
  pure { suffix }

/-- `NamespaceDone::decode_msg`. -/
def NamespaceDone.decodeMsg : Version → Decode Namespace := Namespace.decodeMsg

/-- `PublishBlocked::decode_msg`. -/
def PublishBlocked.decodeMsg (version : Version) : Decode PublishBlocked :=
  if version ≠ .draft17 then fail .unsupported
  else do
    let suffix ← decodeNamespace version
    let trackName ← string version
    pure { suffix, trackName }

/-! ### Subscriptions -/

/-- `Subscribe`. -/
structure Subscribe where
  requestId : RequestId
  trackNamespace : Path
  trackName : List Char
  subscriberPriority : UInt8
  groupOrder : GroupOrder
  filterType : FilterType
  deriving DecidableEq

/-- `SubscribeOk`. -/
structure SubscribeOk where
  requestId : Option RequestId
  trackAlias : ℕ
  deriving DecidableEq

/-- `SubscribeUpdate`. -/
structure SubscribeUpdate where
  requestId : RequestId
  subscriptionRequestId : Option RequestId
  startLocation : Location
  endGroup : ℕ
  subscriberPriority : UInt8
  forward : Bool
  deriving DecidableEq

/-- `Subscribe::decode_msg`. -/
def Subscribe.decodeMsg (version : Version) : Decode Subscribe := do
  let requestId ← decodeRequestId version
  let trackNamespace ← decodeNamespace version
  let trackName ← string version
  match version with
  | .draft14 => do
    let subscriberPriority ← u8
    let groupOrder ← GroupOrder.decode
    let forward ← bool
    if !forward then fail .unsupported
    else do
      let filterType ← decodeFilter version
      let _params ← Parameters.decode version
      pure { requestId, trackNamespace, trackName, subscriberPriority, groupOrder, filterType }
  | _ => do
    let params ← decodeParams version [.forward, .subscriberPriority, .filterType, .groupOrder]
    if params.forward = some false then fail .unsupported
    else
      pure {
        requestId, trackNamespace, trackName
        subscriberPriority := params.subscriberPriority.getD 128
        groupOrder := params.groupOrder.getD .descending
        filterType := params.filterType.getD .largestObject }

/-- `SubscribeOk::decode_msg`. -/
def SubscribeOk.decodeMsg (version : Version) : Decode SubscribeOk := do
  let requestId ← decodeReplyId version
  let trackAlias ← u64 version
  match version with
  | .draft14 => do
    let expires ← u64 version
    if expires ≠ 0 then fail .unsupported
    else do
      let _groupOrder ← u8
      if ← bool then do
        let _group ← u64 version
        let _object ← u64 version
        let _params ← Parameters.decode version
        pure { requestId, trackAlias }
      else do
        let _params ← Parameters.decode version
        pure { requestId, trackAlias }
  | _ => do
    let _params ← decodeParams version [.groupOrder]
    skipProperties version
    pure { requestId, trackAlias }

/-- `SubscribeError::decode_msg`. -/
def SubscribeError.decodeMsg : Version → Decode Refusal := Refusal.decodeMsg

/-- `Unsubscribe::decode_msg`. -/
def Unsubscribe.decodeMsg : Version → Decode Named := Named.decodeMsg

/-- The part of `SubscribeUpdate::decode_msg` after the ids, from draft 15 on. -/
def decodeUpdate (version : Version) (requestId : RequestId)
    (subscriptionRequestId : Option RequestId) : Decode SubscribeUpdate := do
  let params ← decodeParams version [.forward, .subscriberPriority, .filterType]
  pure {
    requestId, subscriptionRequestId
    startLocation := ⟨0, 0⟩
    endGroup := 0
    subscriberPriority := params.subscriberPriority.getD 128
    forward := params.forward.getD true }

/-- `SubscribeUpdate::decode_msg`. -/
def SubscribeUpdate.decodeMsg (version : Version) : Decode SubscribeUpdate :=
  match version with
  | .draft14 => do
    let requestId ← u64 version
    let subscriptionRequestId ← some <$> u64 version
    let startLocation ← Location.decode version
    let endGroup ← u64 version
    let subscriberPriority ← u8
    let forward ← bool
    let _parameters ← Parameters.decode version
    pure {
      requestId, subscriptionRequestId, startLocation, endGroup, subscriberPriority, forward }
  | .draft15 | .draft16 => do
    let requestId ← u64 version
    let subscriptionRequestId ← some <$> u64 version
    decodeUpdate version requestId subscriptionRequestId
  | _ => do
    let requestId ← decodeRequestId version
    decodeUpdate version requestId none

/-! ### Publications -/

/-- `PublishDone`. -/
structure PublishDone where
  requestId : Option RequestId
  statusCode : ℕ
  streamCount : ℕ
  reasonPhrase : List Char
  deriving DecidableEq

/-- `Publish`. -/
structure Publish where
  requestId : RequestId
  trackNamespace : Path
  trackName : List Char
  trackAlias : ℕ
  groupOrder : GroupOrder
  largestLocation : Option Location
  forward : Bool
  deriving DecidableEq

/-- `PublishOk`. -/
structure PublishOk where
  requestId : Option RequestId
  forward : Bool
  subscriberPriority : UInt8
  groupOrder : GroupOrder
  filterType : FilterType
  deriving DecidableEq

/-- `PublishDone::decode_msg`. -/
def PublishDone.decodeMsg (version : Version) : Decode PublishDone := do
  let requestId ← decodeReplyId version
  let statusCode ← u64 version
  let streamCount ← u64 version
  let reasonPhrase ← string version
  pure { requestId, statusCode, streamCount, reasonPhrase }

/-- `Publish::decode_msg`. -/
def Publish.decodeMsg (version : Version) : Decode Publish := do
  let requestId ← decodeRequestId version
  let trackNamespace ← decodeNamespace version
  let trackName ← string version
  let trackAlias ← u64 version
  match version with
  | .draft14 => do
    let groupOrder ← GroupOrder.decode
    let contentExists ← bool
    let largestLocation ← if contentExists then some <$> Location.decode version else pure none
    let forward ← bool
    let _params ← Parameters.decode version
    pure {
      requestId, trackNamespace, trackName, trackAlias, groupOrder, largestLocation, forward }
  | _ => do
    let params ← decodeParams version [.largestLocation, .forward, .groupOrder]
    skipProperties version
    pure {
      requestId, trackNamespace, trackName, trackAlias
      groupOrder := params.groupOrder.getD .descending
      largestLocation := params.largestLocation
      forward := params.forward.getD true }

/-- `PublishOk::decode_msg`. -/
def PublishOk.decodeMsg (version : Version) : Decode PublishOk := do
  let requestId ← decodeReplyId version
  match version with
  | .draft14 => do
    let forward ← bool
    let subscriberPriority ← u8
    let groupOrder ← GroupOrder.decode
    let filterType ← decodeFilter version
    let _params ← Parameters.decode version
    pure { requestId, forward, subscriberPriority, groupOrder, filterType }
  | _ => do
    let params ← decodeParams version [.forward, .subscriberPriority, .filterType, .groupOrder]
    pure {
      requestId
      forward := params.forward.getD true
      subscriberPriority := params.subscriberPriority.getD 128
      groupOrder := params.groupOrder.getD .descending
      filterType := params.filterType.getD .largestObject }

/-- `PublishError::decode_msg`. -/
def PublishError.decodeMsg : Version → Decode Refusal := Refusal.decodeMsg

/-! ### Fetches -/

/-- `FetchType`. -/
inductive FetchType
  | standalone (trackNamespace : Path) (track : List Char) (start last : Location)
  | relativeJoining (subscriberRequestId : RequestId) (groupOffset : ℕ)
  | absoluteJoining (subscriberRequestId : RequestId) (groupId : ℕ)
  deriving DecidableEq

/-- `Fetch`. -/
structure Fetch where
  requestId : RequestId
  subscriberPriority : UInt8
  groupOrder : GroupOrder
  fetchType : FetchType
  deriving DecidableEq

/-- `FetchOk`. -/
structure FetchOk where
  requestId : Option RequestId
  groupOrder : GroupOrder
  endOfTrack : Bool
  endLocation : Location
  deriving DecidableEq

/-- `FetchType::decode`. -/
def FetchType.decode (version : Version) : Decode FetchType := do
  match ← u64 version with
  | 1 => do
    let trackNamespace ← decodeNamespace version
    let track ← string version
    let start ← Location.decode version
    let last ← Location.decode version
    pure (.standalone trackNamespace track start last)
  | 2 => do
    let subscriberRequestId ← u64 version
    let groupOffset ← u64 version
    pure (.relativeJoining subscriberRequestId groupOffset)
  | 3 => do
    let subscriberRequestId ← u64 version
    let groupId ← u64 version
    pure (.absoluteJoining subscriberRequestId groupId)
  | _ => fail .invalidValue

/-- `Fetch::decode_msg`. -/
def Fetch.decodeMsg (version : Version) : Decode Fetch := do
  let requestId ← decodeRequestId version
  match version with
  | .draft14 => do
    let subscriberPriority ← u8
    let groupOrder ← GroupOrder.decode
    let fetchType ← FetchType.decode version
    let _params ← Parameters.decode version
    pure { requestId, subscriberPriority, groupOrder, fetchType }
  | _ => do
    let fetchType ← FetchType.decode version
    let params ← decodeParams version [.subscriberPriority, .groupOrder]
    pure {
      requestId
      subscriberPriority := params.subscriberPriority.getD 128
      groupOrder := params.groupOrder.getD .descending
      fetchType }

/-- `FetchOk::decode_msg`. -/
def FetchOk.decodeMsg (version : Version) : Decode FetchOk := do
  let requestId ← decodeReplyId version
  match version with
  | .draft14 => do
    let groupOrder ← GroupOrder.decode
    let endOfTrack ← bool
    let endLocation ← Location.decode version
    let _params ← Parameters.decode version
    pure { requestId, groupOrder, endOfTrack, endLocation }
  | _ => do
    let endOfTrack ← bool
    let endLocation ← Location.decode version
    let params ← decodeParams version [.groupOrder]
    skipProperties version
    pure {
      requestId, endOfTrack, endLocation
      groupOrder := params.groupOrder.getD .descending }

/-- `FetchError::decode_msg`. -/
def FetchError.decodeMsg : Version → Decode Refusal := Refusal.decodeMsg

/-- `FetchCancel::decode_msg`. -/
def FetchCancel.decodeMsg : Version → Decode Named := Named.decodeMsg

/-! ### All of them -/

/-- The messages. -/
inductive Kind
  | maxRequestId
  | requestsBlocked
  | requestOk
  | requestError
  | goAway
  | trackStatus
  | publishNamespace
  | publishNamespaceOk
  | publishNamespaceError
  | publishNamespaceDone
  | publishNamespaceCancel
  | subscribeNamespace
  | subscribeNamespaceLegacy
  | subscribeNamespaceOk
  | subscribeNamespaceError
  | unsubscribeNamespace
  | namespaceMsg
  | namespaceDone
  | publishBlocked
  | subscribe
  | subscribeOk
  | subscribeError
  | unsubscribe
  | subscribeUpdate
  | publishDone
  | publish
  | publishOk
  | publishError
  | fetch
  | fetchOk
  | fetchError
  | fetchCancel
  deriving DecidableEq, Repr

/-- The values of a message. -/
def Kind.Value : Kind → Type
  | maxRequestId => Named
  | requestsBlocked => Named
  | requestOk => RequestOk
  | requestError => RequestError
  | goAway => GoAway
  | trackStatus => TrackStatus
  | publishNamespace => PublishNamespace
  | publishNamespaceOk => Named
  | publishNamespaceError => Refusal
  | publishNamespaceDone => PublishNamespaceDone
  | publishNamespaceCancel => PublishNamespaceCancel
  | subscribeNamespace => SubscribeNamespace
  | subscribeNamespaceLegacy => SubscribeNamespaceLegacy
  | subscribeNamespaceOk => Named
  | subscribeNamespaceError => Refusal
  | unsubscribeNamespace => Named
  | namespaceMsg => Namespace
  | namespaceDone => Namespace
  | publishBlocked => PublishBlocked
  | subscribe => Subscribe
  | subscribeOk => SubscribeOk
  | subscribeError => Refusal
  | unsubscribe => Named
  | subscribeUpdate => SubscribeUpdate
  | publishDone => PublishDone
  | publish => Publish
  | publishOk => PublishOk
  | publishError => Refusal
  | fetch => Fetch
  | fetchOk => FetchOk
  | fetchError => Refusal
  | fetchCancel => Named

/-- `Message::decode_msg`. -/
def Kind.decodeMsg : (kind : Kind) → Version → Decode kind.Value
  | maxRequestId => MaxRequestId.decodeMsg
  | requestsBlocked => RequestsBlocked.decodeMsg
  | requestOk => RequestOk.decodeMsg
  | requestError => RequestError.decodeMsg
  | goAway => GoAway.decodeMsg
  | trackStatus => TrackStatus.decodeMsg
  | publishNamespace => PublishNamespace.decodeMsg
  | publishNamespaceOk => PublishNamespaceOk.decodeMsg
  | publishNamespaceError => PublishNamespaceError.decodeMsg
  | publishNamespaceDone => PublishNamespaceDone.decodeMsg
  | publishNamespaceCancel => PublishNamespaceCancel.decodeMsg
  | subscribeNamespace => SubscribeNamespace.decodeMsg
  | subscribeNamespaceLegacy => SubscribeNamespaceLegacy.decodeMsg
  | subscribeNamespaceOk => SubscribeNamespaceOk.decodeMsg
  | subscribeNamespaceError => SubscribeNamespaceError.decodeMsg
  | unsubscribeNamespace => UnsubscribeNamespace.decodeMsg
  | namespaceMsg => Namespace.decodeMsg
  | namespaceDone => NamespaceDone.decodeMsg
  | publishBlocked => PublishBlocked.decodeMsg
  | subscribe => Subscribe.decodeMsg
  | subscribeOk => SubscribeOk.decodeMsg
  | subscribeError => SubscribeError.decodeMsg
  | unsubscribe => Unsubscribe.decodeMsg
  | subscribeUpdate => SubscribeUpdate.decodeMsg
  | publishDone => PublishDone.decodeMsg
  | publish => Publish.decodeMsg
  | publishOk => PublishOk.decodeMsg
  | publishError => PublishError.decodeMsg
  | fetch => Fetch.decodeMsg
  | fetchOk => FetchOk.decodeMsg
  | fetchError => FetchError.decodeMsg
  | fetchCancel => FetchCancel.decodeMsg

/-- `decode` of a message: its size as a 16-bit integer, and then exactly its body. -/
def Kind.decode (kind : Kind) (version : Version) : Decode kind.Value :=
  Parser.framed u16 (kind.decodeMsg version) .long DecodeError.long_ne_short

end Ietf

end HermitMoq
