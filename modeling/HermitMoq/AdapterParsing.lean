import HermitMoq.Adapter

/-!
# What the Adapter Reads of a Message

The adapter decodes the first fields of messages twice: of our requests, to register their
stream once they are complete, and of received messages, to find the stream they belong to.
-/

namespace HermitMoq

open BigEndian Adapter ControlMessage List

/-! ### Reading a part of a buffer -/

variable {buf rest : List UInt8}

theorem decodeTail_append {b : UInt8} {n x : ℕ}
    (h : decodeTail b n buf = .ok (x, rest)) (more : List UInt8) :
    decodeTail b n (buf ++ more) = .ok (x, rest ++ more) := by
  rw [decodeTail] at h ⊢
  split_ifs at h with hlen
  cases h
  have hlen' : ¬ (buf ++ more).length < n := by
    rw [length_append]
    omega
  rw [if_neg hlen', take_append_of_le_length (by omega),
    drop_append_of_le_length (by omega)]

/-- An integer that was read stays the same if more bytes arrive. -/
theorem decodeVarInt_append {x : ℕ} (h : decodeVarInt buf = .ok (x, rest)) (more : List UInt8) :
    decodeVarInt (buf ++ more) = .ok (x, rest ++ more) := by
  cases buf with
  | nil => cases h
  | cons b buf =>
    rw [decodeVarInt] at h
    rw [cons_append, decodeVarInt]
    split at h <;> exact decodeTail_append h more

theorem decodeU16_append {x : ℕ} (h : decodeU16 buf = .ok (x, rest))
    (more : List UInt8) : decodeU16 (buf ++ more) = .ok (x, rest ++ more) := by
  rw [decodeU16] at h ⊢
  split_ifs at h with hlen
  cases h
  have hlen' : ¬ (buf ++ more).length < 2 := by
    rw [length_append]
    omega
  rw [if_neg hlen', take_append_of_le_length (by omega),
    drop_append_of_le_length (by omega)]

theorem readHeader_append {header : ℕ × ℕ}
    (h : readHeader buf = .ok (header, rest)) (more : List UInt8) :
    readHeader (buf ++ more) = .ok (header, rest ++ more) := by
  obtain ⟨⟨_, _⟩, htype, h⟩ := bind_eq_ok.mp h
  obtain ⟨⟨_, _⟩, hsize, h⟩ := bind_eq_ok.mp h
  cases h
  rw [readHeader, decodeVarInt_append htype]
  simp [bind, Except.bind, decodeU16_append hsize]

/-! ### Our requests -/

section Encoded

variable {v : Draft} {m : ControlMessage} {body raw : List UInt8} {id : RequestId}
  {ns : Option Path} (a : Adapter)

/-- The first fields of a request. -/
theorem parseRequest_encode (hreq : m.request = some (id, ns))
    (hbody : m.encodeMsg v = .ok body) :
    Adapter.parseRequest m.typeId body = .ok (id, ns) := by
  cases m with
  | keyed kind requestId fields =>
    obtain ⟨first, hid, hbody⟩ := bind_eq_ok.mp hbody
    cases hbody
    cases kind <;> cases hreq <;>
      simp [parseRequest, decodeVarInt_encode hid, bind, Except.bind,
        typeId, Kind.typeId]
  | publishNamespace requestId trackNamespace fields =>
    obtain ⟨_, hid, hbody⟩ := bind_eq_ok.mp hbody
    obtain ⟨_, hns, hbody⟩ := bind_eq_ok.mp hbody
    cases hbody
    cases hreq
    simp [parseRequest, decodeVarInt_encode hid, decodeNamespace_encode hns, bind,
      Except.bind, typeId]
  | _ => cases hreq

/-- A complete request is parsed. -/
theorem tryParse_encode (hreq : m.request = some (id, ns)) (h : m.encode v = .ok raw) :
    Adapter.tryParse raw = .ok (some (id, ns)) := by
  obtain ⟨_, _, hbody, hsize, hid, rfl⟩ := encode_eq_ok h
  rw [tryParse, readHeader_encode hid hsize]
  simp [parseRequest_encode hreq hbody, Except.map]

/-- A request that is not complete is not parsed. -/
theorem tryParse_of_append {written rest : List UInt8} (h : m.encode v = .ok (written ++ rest))
    (hrest : rest ≠ []) : Adapter.tryParse written = .ok none := by
  obtain ⟨body, _, -, hsize, hid, hraw⟩ := encode_eq_ok h
  rw [tryParse]
  cases hheader : readHeader written with
  | error e => rfl
  | ok r =>
    obtain ⟨⟨_, _⟩, tail⟩ := r
    -- the rest of the message only makes the body longer
    have hall := readHeader_append hheader rest
    rw [hraw, readHeader_encode hid hsize] at hall
    cases hall
    have hshort : tail.length < (tail ++ rest).length := by
      have hpos := length_pos_iff.mpr hrest
      rw [length_append]
      omega
    dsimp only
    rw [if_pos hshort]

/-! ### Received messages -/

theorem decodeRequestId_encode {first : List UInt8} (hid : encodeVarInt id = .ok first)
    (rest : List UInt8) : Adapter.decodeRequestId (first ++ rest) = .ok id := by
  rw [decodeRequestId, decodeVarInt_encode hid]

/-- Classifying a request to publish a namespace stores the namespace. -/
theorem classified_encode (hreq : m.request = some (id, ns))
    (hbody : m.encodeMsg v = .ok body) : a.classified m.typeId body = a.insertNamespace ns id := by
  cases m with
  | keyed kind requestId fields =>
    cases kind <;> cases hreq <;> rfl
  | publishNamespace requestId trackNamespace fields =>
    obtain ⟨first, hid, hbody⟩ := bind_eq_ok.mp hbody
    obtain ⟨second, hns, hbody⟩ := bind_eq_ok.mp hbody
    cases hbody
    cases hreq
    have hname : decodePublishNamespaceBody (first ++ (second ++ fields)) =
        .ok trackNamespace := by
      rw [decodePublishNamespaceBody, decodeVarInt_encode hid]
      simp [bind, Except.bind, decodeNamespace_encode hns]
    rw [classified, typeId, if_pos rfl, decodeRequestId_encode hid, hname]
  | _ => cases hreq

/-- Other messages store nothing. -/
theorem classified_of_none (hreq : m.request = none) (body : List UInt8) :
    a.classified m.typeId body = a := by
  cases m with
  | keyed kind requestId fields =>
    cases kind <;> rfl
  | publishNamespace requestId trackNamespace fields => cases hreq
  | _ => rfl

/-- Reading an encoded message is classifying and routing it. -/
theorem Adapter.read_encode {a : Adapter} (h : m.encode a.version = .ok raw)
    (hrun : a.running = true) : ∃ body, m.encodeMsg a.version = .ok body ∧
      a.read raw = a.dispatch m.typeId body raw := by
  obtain ⟨body, hbody, hread, hraw⟩ := readMessage_encode h
  refine ⟨body, hbody, ?_⟩
  rw [read, if_pos hrun, hread]
  simp only [hraw]

end Encoded

end HermitMoq
