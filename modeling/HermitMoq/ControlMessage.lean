import HermitMoq.Coding

/-!
# Control Messages

The messages on the control stream of drafts 14 to 16: a type, a size and a body. What the
adapter reads of a body are its first fields, so a message of this model consists of its type,
those fields, and the encoding of the others. Nearly every body starts with a request id. The
two messages that end a namespace start with the namespace instead, before draft 16.
-/

namespace HermitMoq

open BigEndian

/-- The drafts that multiplex requests over a control stream. -/
inductive Draft
  | draft14
  | draft15
  | draft16
  deriving DecidableEq, Repr

/-- `RequestId`. -/
abbrev RequestId := ℕ

/-- The messages that start with their request id, in every draft. -/
inductive Kind
  | subscribe
  | fetch
  | publish
  | trackStatus
  | subscribeNamespace
  | subscribeOk
  /-- `SubscribeError`, or `RequestError` from draft 15 on. -/
  | subscribeError
  | fetchOk
  | fetchError
  | publishOk
  | publishError
  /-- `PublishNamespaceOk`, or `RequestOk` from draft 15 on. -/
  | publishNamespaceOk
  | publishNamespaceError
  | subscribeNamespaceOk
  | subscribeNamespaceError
  | unsubscribe
  | publishDone
  | fetchCancel
  | unsubscribeNamespace
  | maxRequestId
  | requestsBlocked
  deriving DecidableEq, Repr

/-- The type numbers. -/
def Kind.typeId : Kind → ℕ
  | subscribe => 0x03
  | fetch => 0x16
  | publish => 0x1D
  | trackStatus => 0x0d
  | subscribeNamespace => 0x11
  | subscribeOk => 0x04
  | subscribeError => 0x05
  | fetchOk => 0x18
  | fetchError => 0x19
  | publishOk => 0x1E
  | publishError => 0x1F
  | publishNamespaceOk => 0x07
  | publishNamespaceError => 0x08
  | subscribeNamespaceOk => 0x12
  | subscribeNamespaceError => 0x13
  | unsubscribe => 0x0a
  | publishDone => 0x0b
  | fetchCancel => 0x17
  | unsubscribeNamespace => 0x14
  | maxRequestId => 0x15
  | requestsBlocked => 0x1a

/-- A control message; `fields` is the encoding of what the adapter does not read. -/
inductive ControlMessage
  /-- A message that starts with its request id. -/
  | keyed (kind : Kind) (requestId : RequestId) (fields : List UInt8)
  /-- `PublishNamespace`. -/
  | publishNamespace (requestId : RequestId) (trackNamespace : Path) (fields : List UInt8)
  /-- `SubscribeUpdate`. -/
  | subscribeUpdate (requestId subscriptionRequestId : RequestId) (fields : List UInt8)
  /-- `PublishNamespaceDone`. -/
  | publishNamespaceDone (trackNamespace : Path) (requestId : RequestId)
  /-- `PublishNamespaceCancel`. -/
  | publishNamespaceCancel (trackNamespace : Path) (requestId : RequestId) (fields : List UInt8)
  /-- `GoAway`. -/
  | goAway (fields : List UInt8)

namespace ControlMessage

/-- `Message::ID`. -/
def typeId : ControlMessage → ℕ
  | keyed kind _ _ => kind.typeId
  | publishNamespace _ _ _ => 0x06
  | subscribeUpdate _ _ _ => 0x02
  | publishNamespaceDone _ _ => 0x09
  | publishNamespaceCancel _ _ _ => 0x0c
  | goAway _ => 0x10

/-- The field that tells which namespace or request is ended. -/
def encodeKey (v : Draft) (ns : Path) (requestId : RequestId) :
    Except EncodeError (List UInt8) :=
  match v with
  | .draft14 | .draft15 => encodeNamespace ns
  | .draft16 => encodeVarInt requestId

/-- `Message::encode_msg`. -/
def encodeMsg (v : Draft) : ControlMessage → Except EncodeError (List UInt8)
  | keyed _ requestId fields => do
    let id ← encodeVarInt requestId
    .ok (id ++ fields)
  | publishNamespace requestId ns fields => do
    let id ← encodeVarInt requestId
    let ns ← encodeNamespace ns
    .ok (id ++ (ns ++ fields))
  | subscribeUpdate requestId subscriptionRequestId fields => do
    let id ← encodeVarInt requestId
    let subscription ← encodeVarInt subscriptionRequestId
    .ok (id ++ (subscription ++ fields))
  | publishNamespaceDone ns requestId => do
    let key ← encodeKey v ns requestId
    .ok (key ++ [])
  | publishNamespaceCancel ns requestId fields => do
    let key ← encodeKey v ns requestId
    .ok (key ++ fields)
  | goAway fields => .ok fields

end ControlMessage

/-- `encode_raw`: type, size and body. -/
def encodeRaw (typeId : ℕ) (body : List UInt8) : Except EncodeError (List UInt8) := do
  let id ← encodeVarInt typeId
  .ok (id ++ (toBytes 2 body.length ++ body))

/-- A message with its type and size. -/
def ControlMessage.encode (v : Draft) (m : ControlMessage) : Except EncodeError (List UInt8) := do
  let body ← m.encodeMsg v
  if body.length < 2 ^ 16 then encodeRaw m.typeId body else .error .tooLarge

/-- `decode` of a 16-bit number. -/
def decodeU16 : Decoder ℕ := fun buf =>
  if buf.length < 2 then .error .short else .ok (ofBytes (buf.take 2), buf.drop 2)

/-- Read the type and the size of a message. -/
def readHeader : Decoder (ℕ × ℕ) := fun buf => do
  let (typeId, buf) ← decodeVarInt buf
  let (size, buf) ← decodeU16 buf
  .ok ((typeId, size), buf)

/-- Read the type and the body of a message. -/
def readMessage : Decoder (ℕ × List UInt8) := fun buf => do
  let ((typeId, size), buf) ← readHeader buf
  if buf.length < size then .error .short else .ok ((typeId, buf.take size), buf.drop size)

/-! ### Reading messages back -/

variable {m : ControlMessage} {raw : List UInt8} {v : Draft}

/-- An encoded message consists of a header and a body. -/
theorem ControlMessage.encode_eq_ok (h : m.encode v = .ok raw) :
    ∃ body id, m.encodeMsg v = .ok body ∧ body.length < 2 ^ 16 ∧
      encodeVarInt m.typeId = .ok id ∧ raw = id ++ (toBytes 2 body.length ++ body) := by
  obtain ⟨body, hbody, h⟩ := bind_eq_ok.mp h
  split_ifs at h with hsize
  obtain ⟨id, hid, h⟩ := bind_eq_ok.mp h
  cases h
  exact ⟨body, id, hbody, hsize, hid, rfl⟩

theorem ControlMessage.encode_ne_nil (h : m.encode v = .ok raw) : raw ≠ [] := by
  obtain ⟨_, _, -, -, -, rfl⟩ := encode_eq_ok h
  intro hnil
  have hlen := congrArg List.length hnil
  rw [List.length_append, List.length_append, length_toBytes, List.length_nil] at hlen
  omega

/-- The header of a message is read back. -/
theorem readHeader_encode {typeId size : ℕ} {id : List UInt8}
    (hid : encodeVarInt typeId = .ok id) (hsize : size < 2 ^ 16) (rest : List UInt8) :
    readHeader (id ++ (toBytes 2 size ++ rest)) = .ok ((typeId, size), rest) := by
  have hvalue : ofBytes (toBytes 2 size) = size := by
    rw [ofBytes_toBytes]
    exact Nat.mod_eq_of_lt hsize
  have hu16 : decodeU16 (toBytes 2 size ++ rest) = .ok (size, rest) := by
    have hlen : ¬ (toBytes 2 size ++ rest).length < 2 := by
      rw [List.length_append, length_toBytes]
      omega
    rw [decodeU16, if_neg hlen, List.take_left' (length_toBytes 2 size),
      List.drop_left' (length_toBytes 2 size), hvalue]
  rw [readHeader, decodeVarInt_encode hid]
  simp [bind, Except.bind, hu16]

/-- A message is read back as its type and its body. -/
theorem readMessage_encode (h : m.encode v = .ok raw) :
    ∃ body, m.encodeMsg v = .ok body ∧
      readMessage raw = .ok ((m.typeId, body), []) ∧ encodeRaw m.typeId body = .ok raw := by
  obtain ⟨body, _, hbody, hsize, hid, rfl⟩ := ControlMessage.encode_eq_ok h
  refine ⟨body, hbody, ?_, ?_⟩
  · rw [readMessage, readHeader_encode hid hsize]
    simp [bind, Except.bind]
  · simp [encodeRaw, hid, bind, Except.bind]

end HermitMoq
