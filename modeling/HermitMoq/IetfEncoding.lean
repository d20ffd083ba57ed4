import HermitMoq.IetfMessages
import HermitMoq.IetfParameters

/-!
# The Encoding of IETF Messages

The encoders of the messages of `moq-net/src/ietf`, `encode_msg`, beside their decoders in
`HermitMoq.IetfMessages`. The message parameters of `encode_params!` are written under their keys
in drafts 14 and 15 and as differences of keys later; a parameter that is none is left out.
-/

namespace HermitMoq

namespace Ietf

open Encode

/-! ### Fields -/

/-- `encode_namespace`. -/
def encodeNamespace (version : Version) (ns : Path) : Encode :=
  if ns.isEmpty then u64 version 0
  else if ns.parts.length > 32 then .error .boundsExceeded
  else .seq (u64 version ns.parts.length :: ns.parts.map (string version))

/-- `Location::encode`. -/
def Location.encode (version : Version) (l : Location) : Encode :=
  .seq [u64 version l.group, u64 version l.object]

/-- `u8::from` a group order. -/
def GroupOrder.toU8 : GroupOrder → UInt8
  | any => 0
  | ascending => 1
  | descending => 2

/-- `GroupOrder::encode`. -/
def GroupOrder.encode (order : GroupOrder) : Encode := u8 order.toU8

/-- `u64::from` a filter. -/
def FilterType.toU64 : FilterType → ℕ
  | nextGroup => 1
  | largestObject => 2
  | absoluteStart => 3
  | absoluteRange => 4

/-- `FilterType::encode`. -/
def FilterType.encode (version : Version) (filter : FilterType) : Encode :=
  u64 version filter.toU64

/-- The id of the request that a reply answers: required in the drafts that send it, and none in
the others. -/
def encodeReplyId (version : Version) (requestId : Option RequestId) : Encode :=
  match version.repliesNameRequest, requestId with
  | true, some requestId => u64 version requestId
  | false, none => .ok []
  | _, _ => .error .panics

/-- The id of a new request; draft 17 adds the difference to a request it depends on. -/
def encodeRequestId (version : Version) (requestId : RequestId) : Encode :=
  .seq (u64 version requestId :: if version = .draft17 then [u64 version 0] else [])

/-! ### Message parameters -/

/-- A value that is written to a buffer of its own first. -/
def encodeInner (version : Version) (value : Encode) : Except EncodeError (List Put) := do
  let puts ← value
  bytes version (Put.written puts)

/-- `param_encode` of a byte. -/
def encodeParamU8 (version : Version) (b : UInt8) : Encode :=
  match version with
  | .draft14 | .draft15 | .draft16 => u64 version b.toNat
  | _ => u8 b

/-- `param_encode` of a Boolean. -/
def encodeParamBool (version : Version) (b : Bool) : Encode :=
  match version with
  | .draft14 | .draft15 | .draft16 => u64 version b.toNat
  | _ => bool b

/-- `param_encode` of a location. -/
def encodeParamLocation (version : Version) (l : Location) : Encode :=
  match version with
  | .draft14 | .draft15 | .draft16 => encodeInner version (l.encode .draft15)
  | _ => l.encode version

/-- `param_encode` of a filter. -/
def encodeParamFilterType (version : Version) (filter : FilterType) : Encode :=
  encodeInner version (filter.encode (innerVersion version))

/-- `param_encode` of an order. -/
def encodeParamGroupOrder (version : Version) (order : GroupOrder) : Encode :=
  encodeParamU8 version order.toU8

/-- The value of a parameter, unless it is none. -/
def Params.encodeValue (version : Version) (params : Params) : Param → Option Encode
  | .largestLocation => params.largestLocation.map (encodeParamLocation version)
  | .forward => params.forward.map (encodeParamBool version)
  | .subscriberPriority => params.subscriberPriority.map (encodeParamU8 version)
  | .filterType => params.filterType.map (encodeParamFilterType version)
  | .groupOrder => params.groupOrder.map (encodeParamGroupOrder version)

/-- A key, after the key `previous`. -/
def encodeKey (version : Version) (previous : Option ℕ) (key : ℕ) : Encode :=
  u64 version (if version.usesDeltas then Parameters.delta previous key else key)

/-- The loop over the parameters. -/
def Params.encodeAll (version : Version) (params : Params) : Option ℕ → List Param → List Encode
  | _, [] => []
  | previous, param :: all =>
    match params.encodeValue version param with
    | none => params.encodeAll version previous all
    | some value =>
      encodeKey version previous param.key :: value ::
        params.encodeAll version (some param.key) all

/-- `encode_params!`. -/
def encodeParams (version : Version) (all : List Param) (params : Params) : Encode :=
  .seq (u64 version (all.countP fun param => (params.encodeValue version param).isSome) ::
    params.encodeAll version none all)

/-! ### Requests in general -/

/-- A message that only names a request. -/
def Named.encodeMsg (version : Version) (m : Named) : Encode := u64 version m.requestId

/-- A message that refuses a request. -/
def Refusal.encodeMsg (version : Version) (m : Refusal) : Encode :=
  .seq [u64 version m.requestId, u64 version m.errorCode, string version m.reasonPhrase]

/-- `MaxRequestId::encode_msg`. -/
def MaxRequestId.encodeMsg : Version → Named → Encode := Named.encodeMsg

/-- `RequestsBlocked::encode_msg`. -/
def RequestsBlocked.encodeMsg : Version → Named → Encode := Named.encodeMsg

/-- `RequestOk::encode_msg`. -/
def RequestOk.encodeMsg (version : Version) (m : RequestOk) : Encode :=
  .seq [encodeReplyId version m.requestId, encodeParams version [] {}]

/-- `RequestError::encode_msg`. -/
def RequestError.encodeMsg (version : Version) (m : RequestError) : Encode :=
  .seq [encodeReplyId version m.requestId, u64 version m.errorCode,
    match version with
    | .draft14 | .draft15 => .ok []
    | _ => u64 version m.retryInterval,
    string version m.reasonPhrase]

/-- `GoAway::encode_msg`. -/
def GoAway.encodeMsg (version : Version) (m : GoAway) : Encode :=
  .seq [string version m.newSessionUri,
    match version with
    | .draft14 | .draft15 | .draft16 => .ok []
    | _ => u64 version m.timeout]

/-- `TrackStatus::encode_msg`. -/
def TrackStatus.encodeMsg (version : Version) (m : TrackStatus) : Encode :=
  .seq [encodeRequestId version m.requestId, encodeNamespace version m.trackNamespace,
    string version m.trackName,
    match version with
    | .draft14 => .seq [u8 0, GroupOrder.descending.encode, bool false,
        FilterType.largestObject.encode version, u8 0]
    | _ => encodeParams version [] {}]

/-! ### Namespaces -/

/-- `PublishNamespace::encode_msg`. -/
def PublishNamespace.encodeMsg (version : Version) (m : PublishNamespace) : Encode :=
  .seq [encodeRequestId version m.requestId, encodeNamespace version m.trackNamespace,
    encodeParams version [] {}]

/-- `PublishNamespaceOk::encode_msg`. -/
def PublishNamespaceOk.encodeMsg : Version → Named → Encode := Named.encodeMsg

/-- `PublishNamespaceError::encode_msg`. -/
def PublishNamespaceError.encodeMsg : Version → Refusal → Encode := Refusal.encodeMsg

/-- `PublishNamespaceDone::encode_msg`. -/
def PublishNamespaceDone.encodeMsg (version : Version) (m : PublishNamespaceDone) : Encode :=
  match version with
  | .draft14 | .draft15 => encodeNamespace version m.trackNamespace
  | .draft16 => u64 version m.requestId
  | _ => .error .version

/-- `PublishNamespaceCancel::encode_msg`. -/
def PublishNamespaceCancel.encodeMsg (version : Version) (m : PublishNamespaceCancel) : Encode :=
  .seq [m.toPublishNamespaceDone.encodeMsg version, u64 version m.errorCode,
    string version m.reasonPhrase]

/-- `SubscribeNamespace::encode_msg`. -/
def SubscribeNamespace.encodeMsg (version : Version) (m : SubscribeNamespace) : Encode :=
  if isLegacyVersion version then .error .version
  else .seq [u64 version m.requestId, encodeNamespace version m.namespace,
    encodeParams version [] {}]

/-- `SubscribeNamespaceLegacy::encode_msg`. -/
def SubscribeNamespaceLegacy.encodeMsg (version : Version) (m : SubscribeNamespaceLegacy) :
    Encode :=
  if !isLegacyVersion version then .error .version
  else .seq [encodeRequestId version m.requestId, encodeNamespace version m.namespace,
    match version with
    | .draft16 | .draft17 => u64 version m.subscribeOptions
    | _ => .ok [],
    encodeParams version [] {}]

/-- `SubscribeNamespaceOk::encode_msg`. -/
def SubscribeNamespaceOk.encodeMsg : Version → Named → Encode := Named.encodeMsg

/-- `SubscribeNamespaceError::encode_msg`. -/
def SubscribeNamespaceError.encodeMsg : Version → Refusal → Encode := Refusal.encodeMsg

/-- `UnsubscribeNamespace::encode_msg`. -/
def UnsubscribeNamespace.encodeMsg : Version → Named → Encode := Named.encodeMsg

/-- `Namespace::encode_msg`. -/
def Namespace.encodeMsg (version : Version) (m : Namespace) : Encode :=
  encodeNamespace version m.suffix

/-- `NamespaceDone::encode_msg`. -/
def NamespaceDone.encodeMsg : Version → Namespace → Encode := Namespace.encodeMsg

/-- `PublishBlocked::encode_msg`. -/
def PublishBlocked.encodeMsg (version : Version) (m : PublishBlocked) : Encode :=
  if version ≠ .draft17 then .error .panics
  else .seq [encodeNamespace version m.suffix, string version m.trackName]

/-! ### Subscriptions -/

/-- `Subscribe::encode_msg`. That draft 14 has no absolute filters is a `debug_assert!`. -/
def Subscribe.encodeMsg (version : Version) (m : Subscribe) : Encode :=
  .seq [encodeRequestId version m.requestId, encodeNamespace version m.trackNamespace,
    string version m.trackName,
    match version with
    | .draft14 => .seq [u8 m.subscriberPriority, m.groupOrder.encode, bool true,
        m.filterType.encode version, u8 0]
    | _ => encodeParams version [.forward, .subscriberPriority, .filterType, .groupOrder] {
        forward := some true
        subscriberPriority := some m.subscriberPriority
        filterType := some m.filterType
        groupOrder := some m.groupOrder }]

/-- `SubscribeOk::encode_msg`. -/
def SubscribeOk.encodeMsg (version : Version) (m : SubscribeOk) : Encode :=
  .seq [encodeReplyId version m.requestId, u64 version m.trackAlias,
    match version with
    | .draft14 => .seq [u64 version 0, GroupOrder.descending.encode, bool false, u8 0]
    | _ => encodeParams version [.groupOrder] { groupOrder := some .descending }]

/-- `SubscribeError::encode_msg`. -/
def SubscribeError.encodeMsg : Version → Refusal → Encode := Refusal.encodeMsg

/-- `Unsubscribe::encode_msg`. -/
def Unsubscribe.encodeMsg : Version → Named → Encode := Named.encodeMsg

/-- The parameters of an update. -/
def SubscribeUpdate.encodeParams (version : Version) (m : SubscribeUpdate) : Encode :=
  Ietf.encodeParams version [.forward, .subscriberPriority, .filterType] {
    forward := some m.forward
    subscriberPriority := some m.subscriberPriority
    filterType := some .largestObject }

/-- The id that `expect` requires. -/
def encodeExpectedId (version : Version) : Option RequestId → Encode
  | some requestId => u64 version requestId
  | none => .error .panics

/-- `SubscribeUpdate::encode_msg`. -/
def SubscribeUpdate.encodeMsg (version : Version) (m : SubscribeUpdate) : Encode :=
  match version with
  | .draft14 => .seq [u64 version m.requestId, encodeExpectedId version m.subscriptionRequestId,
      m.startLocation.encode version, u64 version m.endGroup, u8 m.subscriberPriority,
      bool m.forward, u8 0]
  | .draft15 | .draft16 => .seq [u64 version m.requestId,
      encodeExpectedId version m.subscriptionRequestId, m.encodeParams version]
  | _ =>
    if m.subscriptionRequestId.isSome then .error .panics
    else .seq [encodeRequestId version m.requestId, m.encodeParams version]

/-! ### Publications -/

/-- `PublishDone::encode_msg`. -/
def PublishDone.encodeMsg (version : Version) (m : PublishDone) : Encode :=
  .seq [encodeReplyId version m.requestId, u64 version m.statusCode, u64 version m.streamCount,
    string version m.reasonPhrase]

/-- `Publish::encode_msg`. -/
def Publish.encodeMsg (version : Version) (m : Publish) : Encode :=
  .seq [encodeRequestId version m.requestId, encodeNamespace version m.trackNamespace,
    string version m.trackName, u64 version m.trackAlias,
    match version with
    | .draft14 => .seq [m.groupOrder.encode, bool m.largestLocation.isSome,
        match m.largestLocation with
        | some location => location.encode version
        | none => .ok [],
        bool m.forward, u8 0]
    | _ => encodeParams version [.largestLocation, .forward, .groupOrder] {
        largestLocation := m.largestLocation
        forward := some m.forward
        groupOrder := some m.groupOrder }]

/-- `PublishOk::encode_msg`. That draft 14 has no absolute filters is a `debug_assert!`. -/
def PublishOk.encodeMsg (version : Version) (m : PublishOk) : Encode :=
  .seq [encodeReplyId version m.requestId,
    match version with
    | .draft14 => .seq [bool m.forward, u8 m.subscriberPriority, m.groupOrder.encode,
        m.filterType.encode version, u8 0]
    | _ => encodeParams version [.forward, .subscriberPriority, .filterType, .groupOrder] {
        forward := some m.forward
        subscriberPriority := some m.subscriberPriority
        filterType := some m.filterType
        groupOrder := some m.groupOrder }]

/-- `PublishError::encode_msg`. -/
def PublishError.encodeMsg : Version → Refusal → Encode := Refusal.encodeMsg

/-! ### Fetches -/

/-- `FetchType::encode`. -/
def FetchType.encode (version : Version) : FetchType → Encode
  | standalone ns track start last => .seq [u8 1, encodeNamespace version ns, string version track,
      start.encode version, last.encode version]
  | relativeJoining subscriberRequestId groupOffset =>
    .seq [u8 2, u64 version subscriberRequestId, u64 version groupOffset]
  | absoluteJoining subscriberRequestId groupId =>
    .seq [u8 3, u64 version subscriberRequestId, u64 version groupId]

/-- `Fetch::encode_msg`. -/
def Fetch.encodeMsg (version : Version) (m : Fetch) : Encode :=
  .seq [encodeRequestId version m.requestId,
    match version with
    | .draft14 => .seq [u8 m.subscriberPriority, m.groupOrder.encode, m.fetchType.encode version,
        u8 0]
    | _ => .seq [m.fetchType.encode version,
        encodeParams version [.subscriberPriority, .groupOrder] {
          subscriberPriority := some m.subscriberPriority
          groupOrder := some m.groupOrder }]]

/-- `FetchOk::encode_msg`. -/
def FetchOk.encodeMsg (version : Version) (m : FetchOk) : Encode :=
  .seq [encodeReplyId version m.requestId,
    match version with
    | .draft14 => .seq [m.groupOrder.encode, bool m.endOfTrack, m.endLocation.encode version, u8 0]
    | _ => .seq [bool m.endOfTrack, m.endLocation.encode version,
        encodeParams version [.groupOrder] { groupOrder := some m.groupOrder }]]

/-- `FetchError::encode_msg`. -/
def FetchError.encodeMsg : Version → Refusal → Encode := Refusal.encodeMsg

/-- `FetchCancel::encode_msg`. -/
def FetchCancel.encodeMsg : Version → Named → Encode := Named.encodeMsg

/-! ### All of them -/

/-- `Message::encode_msg`. -/
def Kind.encodeMsg (version : Version) : (kind : Kind) → kind.Value → Encode
  | maxRequestId => MaxRequestId.encodeMsg version
  | requestsBlocked => RequestsBlocked.encodeMsg version
  | requestOk => RequestOk.encodeMsg version
  | requestError => RequestError.encodeMsg version
  | goAway => GoAway.encodeMsg version
  | trackStatus => TrackStatus.encodeMsg version
  | publishNamespace => PublishNamespace.encodeMsg version
  | publishNamespaceOk => PublishNamespaceOk.encodeMsg version
  | publishNamespaceError => PublishNamespaceError.encodeMsg version
  | publishNamespaceDone => PublishNamespaceDone.encodeMsg version
  | publishNamespaceCancel => PublishNamespaceCancel.encodeMsg version
  | subscribeNamespace => SubscribeNamespace.encodeMsg version
  | subscribeNamespaceLegacy => SubscribeNamespaceLegacy.encodeMsg version
  | subscribeNamespaceOk => SubscribeNamespaceOk.encodeMsg version
  | subscribeNamespaceError => SubscribeNamespaceError.encodeMsg version
  | unsubscribeNamespace => UnsubscribeNamespace.encodeMsg version
  | namespaceMsg => Namespace.encodeMsg version
  | namespaceDone => NamespaceDone.encodeMsg version
  | publishBlocked => PublishBlocked.encodeMsg version
  | subscribe => Subscribe.encodeMsg version
  | subscribeOk => SubscribeOk.encodeMsg version
  | subscribeError => SubscribeError.encodeMsg version
  | unsubscribe => Unsubscribe.encodeMsg version
  | subscribeUpdate => SubscribeUpdate.encodeMsg version
  | publishDone => PublishDone.encodeMsg version
  | publish => Publish.encodeMsg version
  | publishOk => PublishOk.encodeMsg version
  | publishError => PublishError.encodeMsg version
  | fetch => Fetch.encodeMsg version
  | fetchOk => FetchOk.encodeMsg version
  | fetchError => FetchError.encodeMsg version
  | fetchCancel => FetchCancel.encodeMsg version

/-- The drafts that have a message, of those whose encoder refuses some. -/
def Kind.sentIn : Kind → Version → Bool
  | publishNamespaceDone, version | publishNamespaceCancel, version => version.repliesNameRequest
  | subscribeNamespace, version => !isLegacyVersion version
  | subscribeNamespaceLegacy, version => isLegacyVersion version
  | publishBlocked, version => version == .draft17
  | _, _ => true

/-- What a draft carries of the namespace or request that is ended. -/
def PublishNamespaceDone.carried (version : Version) (m : PublishNamespaceDone) :
    PublishNamespaceDone :=
  match version with
  | .draft14 | .draft15 => { m with requestId := 0 }
  | _ => { m with trackNamespace := Path.empty }

/-- What a draft carries of a message; a field that it does not have is its default. -/
def Kind.carried (version : Version) : (kind : Kind) → kind.Value → kind.Value
  | requestError, (m : RequestError) =>
    match version with
    | .draft14 | .draft15 => { m with retryInterval := 0 : RequestError }
    | _ => m
  | goAway, (m : GoAway) =>
    match version with
    | .draft14 | .draft15 | .draft16 => { m with timeout := 0 : GoAway }
    | _ => m
  | publishNamespaceDone, (m : PublishNamespaceDone) => m.carried version
  | publishNamespaceCancel, (m : PublishNamespaceCancel) =>
    { m with toPublishNamespaceDone := m.toPublishNamespaceDone.carried version
      : PublishNamespaceCancel }
  | subscribeNamespaceLegacy, (m : SubscribeNamespaceLegacy) =>
    match version with
    | .draft16 | .draft17 => m
    | _ => { m with subscribeOptions := 0x01 : SubscribeNamespaceLegacy }
  | subscribeUpdate, (m : SubscribeUpdate) =>
    match version with
    | .draft14 => m
    | _ => { m with startLocation := ⟨0, 0⟩, endGroup := 0 : SubscribeUpdate }
  | _, m => m

/-- The fields of a message by what can be said of them. -/
structure Fields where
  numbers : List ℕ := []
  strings : List (List Char) := []
  namespaces : List Path := []
  orders : List GroupOrder := []
  filters : List FilterType := []
  /-- The ids of the requests that replies answer. -/
  replyIds : List (Option RequestId) := []

/-- The numbers of a location. -/
def Location.numbers (l : Location) : List ℕ := [l.group, l.object]

/-- The fields of what is fetched. -/
def FetchType.fields : FetchType → Fields
  | standalone ns track start last =>
    { numbers := start.numbers ++ last.numbers, strings := [track], namespaces := [ns] }
  | relativeJoining subscriberRequestId groupOffset =>
    { numbers := [subscriberRequestId, groupOffset] }
  | absoluteJoining subscriberRequestId groupId => { numbers := [subscriberRequestId, groupId] }

/-- The fields of a refusal. -/
def Refusal.fields (m : Refusal) : Fields :=
  { numbers := [m.requestId, m.errorCode], strings := [m.reasonPhrase] }

/-- The fields of a message. -/
def Kind.fields : (kind : Kind) → kind.Value → Fields
  | maxRequestId, (m : Named) => { numbers := [m.requestId] }
  | requestsBlocked, (m : Named) => { numbers := [m.requestId] }
  | requestOk, (m : RequestOk) => { replyIds := [m.requestId] }
  | requestError, (m : RequestError) =>
    { numbers := [m.errorCode, m.retryInterval], strings := [m.reasonPhrase],
      replyIds := [m.requestId] }
  | goAway, (m : GoAway) => { numbers := [m.timeout], strings := [m.newSessionUri] }
  | trackStatus, (m : TrackStatus) =>
    { numbers := [m.requestId], strings := [m.trackName], namespaces := [m.trackNamespace] }
  | publishNamespace, (m : PublishNamespace) =>
    { numbers := [m.requestId], namespaces := [m.trackNamespace] }
  | publishNamespaceOk, (m : Named) => { numbers := [m.requestId] }
  | publishNamespaceError, m => Refusal.fields m
  | publishNamespaceDone, (m : PublishNamespaceDone) =>
    { numbers := [m.requestId], namespaces := [m.trackNamespace] }
  | publishNamespaceCancel, (m : PublishNamespaceCancel) =>
    { numbers := [m.requestId, m.errorCode], strings := [m.reasonPhrase],
      namespaces := [m.trackNamespace] }
  | subscribeNamespace, (m : SubscribeNamespace) =>
    { numbers := [m.requestId], namespaces := [m.namespace] }
  | subscribeNamespaceLegacy, (m : SubscribeNamespaceLegacy) =>
    { numbers := [m.requestId, m.subscribeOptions], namespaces := [m.namespace] }
  | subscribeNamespaceOk, (m : Named) => { numbers := [m.requestId] }
  | subscribeNamespaceError, m => Refusal.fields m
  | unsubscribeNamespace, (m : Named) => { numbers := [m.requestId] }
  | namespaceMsg, (m : Namespace) => { namespaces := [m.suffix] }
  | namespaceDone, (m : Namespace) => { namespaces := [m.suffix] }
  | publishBlocked, (m : PublishBlocked) =>
    { strings := [m.trackName], namespaces := [m.suffix] }
  | subscribe, (m : Subscribe) =>
    { numbers := [m.requestId], strings := [m.trackName], namespaces := [m.trackNamespace],
      orders := [m.groupOrder], filters := [m.filterType] }
  | subscribeOk, (m : SubscribeOk) => { numbers := [m.trackAlias], replyIds := [m.requestId] }
  | subscribeError, m => Refusal.fields m
  | unsubscribe, (m : Named) => { numbers := [m.requestId] }
  | subscribeUpdate, (m : SubscribeUpdate) =>
    { numbers := m.requestId :: m.endGroup :: m.startLocation.numbers,
      replyIds := [m.subscriptionRequestId] }
  | publishDone, (m : PublishDone) =>
    { numbers := [m.statusCode, m.streamCount], strings := [m.reasonPhrase],
      replyIds := [m.requestId] }
  | publish, (m : Publish) =>
    { numbers := m.requestId :: m.trackAlias :: m.largestLocation.toList.flatMap Location.numbers,
      strings := [m.trackName], namespaces := [m.trackNamespace], orders := [m.groupOrder] }
  | publishOk, (m : PublishOk) =>
    { orders := [m.groupOrder], filters := [m.filterType], replyIds := [m.requestId] }
  | publishError, m => Refusal.fields m
  | fetch, (m : Fetch) =>
    { m.fetchType.fields with
      numbers := m.requestId :: m.fetchType.fields.numbers, orders := [m.groupOrder] }
  | fetchOk, (m : FetchOk) =>
    { numbers := m.endLocation.numbers, orders := [m.groupOrder], replyIds := [m.requestId] }
  | fetchError, m => Refusal.fields m
  | fetchCancel, (m : Named) => { numbers := [m.requestId] }

/-- A filter that goes with a location, which draft 14 does not write. -/
def FilterType.isAbsolute : FilterType → Bool
  | absoluteStart | absoluteRange => true
  | _ => false

/-- The group orders are concrete, and the filters those that the encoder supports. -/
structure Fields.Supported (version : Version) (fields : Fields) : Prop where
  orders : ∀ order ∈ fields.orders, order ≠ .any
  filters : ∀ filter ∈ fields.filters, version = .draft14 → filter.isAbsolute = false

/-- A namespace of at most 32 parts, whose lengths fit 62 bits. -/
def FitsNamespace (ns : Path) : Prop :=
  ns.parts.length ≤ 32 ∧ ∀ part ∈ ns.parts, (utf8 part).length < 2 ^ 62

/-- A reply names its request in the drafts in which it has to. -/
def FitsReply (version : Version) (requestId : Option RequestId) : Prop :=
  requestId.isSome = version.repliesNameRequest ∧ ∀ n ∈ requestId, n < 2 ^ 62

/-- The numbers and the lengths of strings fit 62 bits, a namespace has at most 32 parts, and a
reply names its request in the drafts in which it has to. -/
structure Fields.Fit (version : Version) (fields : Fields) : Prop where
  numbers : ∀ n ∈ fields.numbers, n < 2 ^ 62
  strings : ∀ s ∈ fields.strings, (utf8 s).length < 2 ^ 62
  namespaces : ∀ ns ∈ fields.namespaces, FitsNamespace ns
  replyIds : ∀ requestId ∈ fields.replyIds, FitsReply version requestId

end Ietf

end HermitMoq
