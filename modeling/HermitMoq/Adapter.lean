import HermitMoq.ControlMessage

/-!
# The Control Stream Adapter

Drafts 14 to 16 send every request over one control stream. The adapter gives each request a
virtual stream: requests of the peer when they arrive, our own when the first message written
to a new stream is complete. It keeps a map from request ids to streams, and a map from
namespaces to request ids for the messages that only name a namespace. One step of the reader
is one message of the control stream.

`AdapterSystem` adds the requests that are being written, and two logs that no operation
reads: the requests of both endpoints, and the requests that a received message has ended.
-/

namespace HermitMoq

/-- The identity of a virtual stream. -/
abbrev StreamId := ℕ

/-- Why the reader stops. -/
inductive AdapterError
  /-- A message is malformed. -/
  | decode (e : DecodeError)
  /-- `Error::UnexpectedMessage`. -/
  | unexpectedMessage
  /-- `Error::Unsupported`. -/
  | unsupported
  /-- `Error::NotFound`. -/
  | notFound
  deriving DecidableEq, Repr

/-- `Route`. -/
inductive RouteTo
  | newRequest (id : RequestId)
  | response (id : RequestId)
  | followUp (id : RequestId)
  | closeStream (id : RequestId)
  | maxRequestId (id : RequestId)
  | goAway
  deriving DecidableEq, Repr

/-- The shared state of an adapter. -/
structure Adapter where
  /-- The draft of the session. -/
  version : Draft
  /-- The open virtual streams. -/
  streams : RequestId → Option StreamId
  /-- The last request for each namespace. -/
  namespaces : Path → Option RequestId
  /-- The bytes collected for streams that are not registered yet. -/
  pending : StreamId → Option (List UInt8)
  /-- The identity of the next virtual stream. -/
  nextStream : StreamId
  /-- Whether the reader is still running. -/
  running : Bool

/-- What a step of an adapter does. -/
inductive AdapterOutput
  /-- Nothing. -/
  | none
  /-- Bytes go to the peer. -/
  | sent (bytes : List UInt8)
  /-- A message opens a virtual stream. -/
  | accepted (stream : StreamId) (raw : List UInt8)
  /-- A message goes to a virtual stream. -/
  | delivered (stream : StreamId) (raw : List UInt8)
  /-- A message goes nowhere. -/
  | dropped
  /-- The peer allows more requests. -/
  | allowed (id : RequestId)
  /-- An error. -/
  | failed (e : AdapterError)
  deriving DecidableEq, Repr

namespace Adapter

/-- `ControlStreamAdapter::new`. -/
def new (version : Draft) : Adapter :=
  ⟨version, fun _ => none, fun _ => none, fun _ => none, 0, true⟩

/-! ### Writing -/

/-- `open_bi`. -/
def openBi (a : Adapter) : Adapter :=
  { a with
    pending := Function.update a.pending a.nextStream (some [])
    nextStream := a.nextStream + 1 }

/-- The part of `try_parse` behind the header. -/
def parseRequest (typeId : ℕ) (buf : List UInt8) :
    Except DecodeError (RequestId × Option Path) := do
  let (requestId, buf) ← decodeVarInt buf
  if typeId = 0x06 then
    match decodeNamespace buf with
    | .ok (ns, _) => .ok (requestId, some ns)
    | .error _ => .ok (requestId, none)
  else .ok (requestId, none)

/-- `OutgoingRegistration::try_parse`: the request id and the namespace of a message, once
all of it is there. -/
def tryParse (buf : List UInt8) : Except DecodeError (Option (RequestId × Option Path)) :=
  match readHeader buf with
  | .error _ => .ok none
  | .ok ((typeId, size), rest) =>
    if rest.length < size then .ok none else (parseRequest typeId rest).map some

/-- Remember the last request for a namespace. -/
def insertNamespace (a : Adapter) (ns : Option Path) (id : RequestId) : Adapter :=
  match ns with
  | some ns => { a with namespaces := Function.update a.namespaces ns (some id) }
  | none => a

/-- `VirtualSendStream::write`. -/
def write (a : Adapter) (stream : StreamId) (buf : List UInt8) : Adapter × AdapterOutput :=
  match a.pending stream with
  | none => (a, .sent buf)
  | some acc =>
    let acc := acc ++ buf
    match tryParse acc with
    | .error e =>
      ({ a with pending := Function.update a.pending stream (some acc) }, .failed (.decode e))
    | .ok none => ({ a with pending := Function.update a.pending stream (some acc) }, .none)
    | .ok (some (id, ns)) =>
      let a := a.insertNamespace ns id
      ({ a with
        pending := Function.update a.pending stream none
        streams := Function.update a.streams id (some stream) }, .sent acc)

/-! ### Reading -/

/-- `decode_request_id`; `decode_response_request_id` is the same in these drafts. -/
def decodeRequestId (body : List UInt8) : Except AdapterError RequestId :=
  match decodeVarInt body with
  | .ok (id, _) => .ok id
  | .error e => .error (.decode e)

/-- `decode_publish_namespace_body`. -/
def decodePublishNamespaceBody (body : List UInt8) : Except DecodeError Path := do
  let (_, body) ← decodeVarInt body
  let (ns, _) ← decodeNamespace body
  .ok ns

/-- `lookup_namespace_request_id`. -/
def lookupNamespaceRequestId (a : Adapter) (body : List UInt8) : Except AdapterError RequestId :=
  match decodeNamespace body with
  | .error e => .error (.decode e)
  | .ok (ns, _) =>
    match a.namespaces ns with
    | some id => .ok id
    | none => .error .notFound

/-- `classify`. -/
def classify (a : Adapter) (typeId : ℕ) (body : List UInt8) : Except AdapterError RouteTo :=
  match typeId with
  -- new requests
  | 0x03 => (decodeRequestId body).map .newRequest
  | 0x16 => (decodeRequestId body).map .newRequest
  | 0x1D => (decodeRequestId body).map .newRequest
  | 0x06 => (decodeRequestId body).map .newRequest
  | 0x0d => (decodeRequestId body).map .newRequest
  | 0x11 =>
    match a.version with
    | .draft14 | .draft15 => (decodeRequestId body).map .newRequest
    | .draft16 => .error .unexpectedMessage
  | 0x51 => .error .unsupported
  -- responses
  | 0x04 => (decodeRequestId body).map .response
  | 0x05 => (decodeRequestId body).map .closeStream
  | 0x18 => (decodeRequestId body).map .response
  | 0x19 =>
    match a.version with
    | .draft14 => (decodeRequestId body).map .closeStream
    | .draft15 | .draft16 => .error .unexpectedMessage
  | 0x1E => (decodeRequestId body).map .response
  | 0x1F => (decodeRequestId body).map .closeStream
  | 0x07 => (decodeRequestId body).map .response
  | 0x08 =>
    match a.version with
    | .draft14 => (decodeRequestId body).map .closeStream
    | .draft15 | .draft16 => .error .unexpectedMessage
  | 0x12 =>
    match a.version with
    | .draft14 => (decodeRequestId body).map .response
    | .draft15 | .draft16 => .error .unexpectedMessage
  | 0x13 =>
    match a.version with
    | .draft14 => (decodeRequestId body).map .closeStream
    | .draft15 | .draft16 => .error .unexpectedMessage
  -- follow-up messages
  | 0x02 => (decodeRequestId body).map .followUp
  -- messages that close a stream
  | 0x0a => (decodeRequestId body).map .closeStream
  | 0x0b => (decodeRequestId body).map .closeStream
  | 0x17 => (decodeRequestId body).map .closeStream
  | 0x09 =>
    match a.version with
    | .draft16 => (decodeRequestId body).map .closeStream
    | .draft14 | .draft15 => (a.lookupNamespaceRequestId body).map .closeStream
  | 0x0c =>
    match a.version with
    | .draft16 => (decodeRequestId body).map .closeStream
    | .draft14 | .draft15 => (a.lookupNamespaceRequestId body).map .closeStream
  | 0x14 =>
    match a.version with
    | .draft14 | .draft15 => (decodeRequestId body).map .closeStream
    | .draft16 => .error .unexpectedMessage
  -- utility
  | 0x15 => (decodeRequestId body).map .maxRequestId
  | 0x1a => .error .unexpectedMessage
  | 0x10 => .ok .goAway
  | _ => .error .unexpectedMessage

/-- What `classify` stores: the namespace of a request to publish it. -/
def classified (a : Adapter) (typeId : ℕ) (body : List UInt8) : Adapter :=
  if typeId = 0x06 then
    match decodeRequestId body, decodePublishNamespaceBody body with
    | .ok id, .ok ns => a.insertNamespace (some ns) id
    | _, _ => a
  else a

/-- Send a message to the stream of a request. -/
def deliver (a : Adapter) (id : RequestId) (raw : List UInt8) : AdapterOutput :=
  match a.streams id with
  | some stream => .delivered stream raw
  | none => .dropped

/-- The routing of a message. -/
def route (a : Adapter) (raw : List UInt8) : RouteTo → Adapter × AdapterOutput
  | .newRequest id =>
    ({ a with
      streams := Function.update a.streams id (some a.nextStream)
      nextStream := a.nextStream + 1 }, .accepted a.nextStream raw)
  | .response id => (a, a.deliver id raw)
  | .followUp id => (a, a.deliver id raw)
  | .closeStream id => ({ a with streams := Function.update a.streams id none }, a.deliver id raw)
  | .maxRequestId id => (a, .allowed id)
  | .goAway => ({ a with running := false }, .failed .unsupported)

/-- The reader stops with an error. -/
def stop (a : Adapter) (e : AdapterError) : Adapter × AdapterOutput :=
  ({ a with running := false }, .failed e)

/-- Classify and route a message. -/
def dispatch (a : Adapter) (typeId : ℕ) (body raw : List UInt8) : Adapter × AdapterOutput :=
  match a.classify typeId body with
  | .error e => a.stop e
  | .ok target => (a.classified typeId body).route raw target

/-- One turn of the loop of `run_read`. -/
def read (a : Adapter) (bytes : List UInt8) : Adapter × AdapterOutput :=
  if a.running then
    match readMessage bytes with
    | .error e => a.stop (.decode e)
    | .ok ((typeId, body), _) =>
      match encodeRaw typeId body with
      | .error _ => a.stop .unexpectedMessage
      | .ok raw => a.dispatch typeId body raw
  else (a, .none)

end Adapter

/-! ### The system -/

namespace ControlMessage

/-- The id and the namespace of a message that opens a request. -/
def request : ControlMessage → Option (RequestId × Option Path)
  | keyed kind id _ =>
    match kind with
    | .subscribe | .fetch | .publish | .trackStatus | .subscribeNamespace => some (id, none)
    | _ => none
  | publishNamespace id ns _ => some (id, some ns)
  | _ => none

/-- The messages of a draft that belong to an earlier request. -/
def routed (v : Draft) : ControlMessage → Bool
  | keyed kind _ _ =>
    match kind with
    | .subscribe | .fetch | .publish | .trackStatus | .subscribeNamespace => false
    | .maxRequestId | .requestsBlocked => false
    | .fetchError | .publishNamespaceError | .subscribeNamespaceOk | .subscribeNamespaceError =>
      v = .draft14
    | .unsubscribeNamespace => v ≠ .draft16
    | _ => true
  | publishNamespace _ _ _ => false
  | subscribeUpdate _ _ _ => true
  | publishNamespaceDone _ _ => true
  | publishNamespaceCancel _ _ _ => true
  | goAway _ => false

/-- Whether a message ends the request it refers to. -/
def ends : ControlMessage → Bool
  | keyed kind _ _ =>
    match kind with
    | .subscribeError | .fetchError | .publishError | .publishNamespaceError
    | .subscribeNamespaceError | .unsubscribe | .publishDone | .fetchCancel
    | .unsubscribeNamespace => true
    | _ => false
  | publishNamespaceDone _ _ => true
  | publishNamespaceCancel _ _ _ => true
  | _ => false

end ControlMessage

/-- The two endpoints of a session. -/
inductive Endpoint
  | ours
  | peer
  deriving DecidableEq, Repr

/-- A request in the log. -/
structure Request where
  /-- Who made the request. -/
  endpoint : Endpoint
  /-- Its id. -/
  id : RequestId
  /-- The namespace it publishes. -/
  ns : Option Path
  /-- Its virtual stream. -/
  stream : StreamId
  deriving DecidableEq

/-- A request while it is written to its virtual stream. -/
structure Outgoing where
  /-- The virtual stream. -/
  stream : StreamId
  /-- The id of the request. -/
  id : RequestId
  /-- The namespace it publishes. -/
  ns : Option Path
  /-- The bytes that are not written yet. -/
  rest : List UInt8

/-- An adapter with the requests that are being written and the logs. -/
structure AdapterSystem where
  /-- The adapter. -/
  adapter : Adapter
  /-- The requests that are being written. -/
  outgoing : List Outgoing
  /-- The requests of both endpoints, the latest first. -/
  requests : List Request
  /-- The requests that were ended by a received message. -/
  ended : List RequestId

/-- The steps of the system. -/
inductive AdapterOp
  /-- We open a virtual stream for a request. -/
  | openBi (message : ControlMessage)
  /-- The next bytes of a request are written. -/
  | write (i n : ℕ)
  /-- A message arrives. -/
  | receive (message : ControlMessage)

namespace AdapterSystem

/-- Nothing has been sent. -/
def new (version : Draft) : AdapterSystem := ⟨Adapter.new version, [], [], []⟩

/-- The last request for a namespace, of one endpoint. -/
def lastRequest (s : AdapterSystem) (endpoint : Endpoint) (ns : Path) : Option RequestId :=
  (s.requests.find? fun r => r.endpoint = endpoint ∧ r.ns = some ns).map Request.id

/-- The request a message refers to. -/
def refersTo (s : AdapterSystem) : ControlMessage → Option RequestId
  | .keyed _ id _ => some id
  | .publishNamespace id _ _ => some id
  | .subscribeUpdate _ subscription _ => some subscription
  | .publishNamespaceDone ns id =>
    match s.adapter.version with
    | .draft14 | .draft15 => s.lastRequest .peer ns
    | .draft16 => some id
  | .publishNamespaceCancel ns id _ =>
    match s.adapter.version with
    | .draft14 | .draft15 => s.lastRequest .ours ns
    | .draft16 => some id
  | .goAway _ => none

/-- The virtual stream of a request that has not ended. -/
def streamOf (s : AdapterSystem) (id : RequestId) : Option StreamId :=
  if id ∈ s.ended then none else (s.requests.find? fun r => r.id = id).map Request.stream

/-- Log the end of the request that a message refers to. -/
def logEnd (s : AdapterSystem) (message : ControlMessage) : AdapterSystem :=
  match s.refersTo message with
  | some id =>
    if message.ends ∧ s.requests.any (fun r => r.id = id) then { s with ended := id :: s.ended }
    else s
  | none => s

/-- Log a request of the peer. -/
def logRequest (s : AdapterSystem) (message : ControlMessage) (stream : StreamId) :
    AdapterSystem :=
  match message.request with
  | some (id, ns) => { s with requests := ⟨.peer, id, ns, stream⟩ :: s.requests }
  | none => s

/-- Log a received message, according to what was done with it. -/
def log (s : AdapterSystem) (message : ControlMessage) : AdapterOutput → AdapterSystem
  | .accepted stream _ => s.logRequest message stream
  | .delivered _ _ => s.logEnd message
  | .dropped => s.logEnd message
  | _ => s

/-- We open a virtual stream for a request. -/
def openBi (s : AdapterSystem) (id : RequestId) (ns : Option Path) (raw : List UInt8) :
    AdapterSystem :=
  { s with
    adapter := s.adapter.openBi
    outgoing := ⟨s.adapter.nextStream, id, ns, raw⟩ :: s.outgoing }

/-- The next `n` bytes of a request are written. -/
def write (s : AdapterSystem) (i n : ℕ) (o : Outgoing) : AdapterSystem × AdapterOutput :=
  let (adapter, output) := s.adapter.write o.stream (o.rest.take n)
  if o.rest.length ≤ n then
    ({ s with
      adapter := adapter
      outgoing := s.outgoing.eraseIdx i
      requests := ⟨.ours, o.id, o.ns, o.stream⟩ :: s.requests }, output)
  else
    ({ s with
      adapter := adapter
      outgoing := { o with rest := o.rest.drop n } :: s.outgoing.eraseIdx i }, output)

/-- One step and what it does. -/
def step (s : AdapterSystem) : AdapterOp → AdapterSystem × AdapterOutput
  | .openBi message =>
    match message.request, message.encode s.adapter.version with
    | some (id, ns), .ok raw => (s.openBi id ns raw, .none)
    | _, _ => (s, .none)
  | .write i n =>
    match s.outgoing[i]? with
    | some o => s.write i n o
    | none => (s, .none)
  | .receive message =>
    match message.encode s.adapter.version with
    | .ok raw =>
      let (adapter, output) := s.adapter.read raw
      ({ s.log message output with adapter := adapter }, output)
    | .error _ => (s, .none)

end AdapterSystem

end HermitMoq
