import HermitMoq.AdapterParsing

/-!
# Routing on the Control Stream

A received message belongs to the virtual stream of the request it refers to. The adapter
finds that stream through the first field of the message. This is the request itself, but for
two kinds of messages: a `SUBSCRIBE_UPDATE` starts with an id of its own and names its
subscription after it, and up to draft 15 the messages that end a namespace are looked up in a
map that holds the last request for a namespace of either endpoint.
-/

namespace HermitMoq

open List Adapter ControlMessage Function

namespace AdapterSystem

/-- The last request for a namespace, of either endpoint. -/
def lastPublish (s : AdapterSystem) (ns : Path) : Option Request :=
  s.requests.find? fun r => r.ns = some ns

/-- The first field of a message leads to the request it refers to. -/
def Routable (s : AdapterSystem) : ControlMessage → Prop
  | .subscribeUpdate id subscription _ => id = subscription
  | .publishNamespaceDone ns _ =>
    s.adapter.version = .draft16 ∨ (s.lastPublish ns).map Request.endpoint = some .peer
  | .publishNamespaceCancel ns _ _ =>
    s.adapter.version = .draft16 ∨ (s.lastPublish ns).map Request.endpoint = some .ours
  | _ => True

/-- No request has used an id. -/
def Unused (s : AdapterSystem) (id : RequestId) : Prop :=
  (∀ r ∈ s.requests, r.id ≠ id) ∧ ∀ o ∈ s.outgoing, o.id ≠ id

/-- The ids of our requests have one parity, those of the peer the other one, and none is
used twice. -/
def Honest (parity : ℕ) (s : AdapterSystem) : AdapterOp → Prop
  | .openBi m => ∀ r ∈ m.request, r.1 % 2 = parity ∧ s.Unused r.1
  | .write _ _ => True
  | .receive m => ∀ r ∈ m.request, r.1 % 2 ≠ parity ∧ ∀ r' ∈ s.requests, r'.id ≠ r.1

/-- The endpoints are honest, and received messages are routable. -/
def Allowed (parity : ℕ) (s : AdapterSystem) (op : AdapterOp) : Prop :=
  s.Honest parity op ∧ ∀ m, op = .receive m → s.Routable m

/-- A step as an action that cannot fail. -/
def tick (s : AdapterSystem) (op : AdapterOp) : Except Empty AdapterSystem := .ok (s.step op).1

/-! ### The invariant -/

/-- A request is being written: its stream has collected what is written. -/
structure Writing (parity : ℕ) (s : AdapterSystem) (o : Outgoing) : Prop where
  parity : o.id % 2 = parity
  below : o.stream < s.adapter.nextStream
  unused : ∀ r ∈ s.requests, r.id ≠ o.id
  unfinished : o.rest ≠ []
  encoded : ∃ m written, ControlMessage.request m = some (o.id, o.ns) ∧
    m.encode s.adapter.version = .ok (written ++ o.rest) ∧
    s.adapter.pending o.stream = some written

/-- Two requests that are being written have nothing in common. -/
def Apart (o o' : Outgoing) : Prop := o.id ≠ o'.id ∧ o.stream ≠ o'.stream

/-- The **invariant**: the maps of the adapter agree with the log. -/
structure Ok (parity : ℕ) (s : AdapterSystem) : Prop where
  streams : ∀ id, s.adapter.streams id = s.streamOf id
  namespaces : ∀ ns, s.adapter.namespaces ns = (s.lastPublish ns).map Request.id
  ended : ∀ id ∈ s.ended, ∃ r ∈ s.requests, r.id = id
  writing : ∀ o ∈ s.outgoing, s.Writing parity o
  apart : s.outgoing.Pairwise Apart

variable {parity : ℕ} {s : AdapterSystem} {m : ControlMessage} {o : Outgoing} {r : Request}
  {a : Adapter}

instance : Decidable (s.Routable m) :=
  match m with
  | .subscribeUpdate id subscription _ => inferInstanceAs (Decidable (id = subscription))
  | .publishNamespaceDone _ _ => inferInstanceAs (Decidable (_ ∨ _))
  | .publishNamespaceCancel _ _ _ => inferInstanceAs (Decidable (_ ∨ _))
  | .keyed _ _ _ => isTrue trivial
  | .publishNamespace _ _ _ => isTrue trivial
  | .goAway _ => isTrue trivial

instance {id : RequestId} : Decidable (s.Unused id) := inferInstanceAs (Decidable (_ ∧ _))

instance {op : AdapterOp} : Decidable (s.Honest parity op) :=
  match op with
  | .openBi m => inferInstanceAs (Decidable (∀ r ∈ m.request, r.1 % 2 = parity ∧ s.Unused r.1))
  | .write _ _ => isTrue trivial
  | .receive m => inferInstanceAs
      (Decidable (∀ r ∈ m.request, r.1 % 2 ≠ parity ∧ ∀ r' ∈ s.requests, r'.id ≠ r.1))

instance {op : AdapterOp} : Decidable (s.Allowed parity op) :=
  match op with
  | .receive m => decidable_of_iff (s.Honest parity (.receive m) ∧ s.Routable m) (by
      simp [Allowed])
  | .openBi m => decidable_of_iff (s.Honest parity (.openBi m)) (by simp [Allowed])
  | .write i n => decidable_of_iff (s.Honest parity (.write i n)) (by simp [Allowed])

theorem Ok.new (version : Draft) : (new version).Ok parity where
  streams _ := rfl
  namespaces _ := rfl
  ended _ h := absurd h not_mem_nil
  writing _ h := absurd h not_mem_nil
  apart := List.Pairwise.nil

/-- The stream of a request that was just made. -/
theorem streamOf_cons (hs : s.Ok parity) (hr : ∀ r' ∈ s.requests, r'.id ≠ r.id)
    (id : RequestId) : streamOf { s with requests := r :: s.requests } id =
      update s.streamOf r.id (some r.stream) id := by
  rw [update_apply, streamOf, streamOf]
  split_ifs with hended hid hid
  · obtain ⟨r', hmem, heq⟩ := hs.ended id hended
    exact absurd (heq.trans hid) (hr r' hmem)
  · rfl
  · rw [find?_cons_of_pos (by simp [hid])]
    rfl
  · rw [find?_cons_of_neg (by simp [Ne.symm hid])]

/-- The last request for a namespace, after one more request. -/
theorem lastPublish_cons (r : Request) (ns : Path) :
    lastPublish { s with requests := r :: s.requests } ns =
      if r.ns = some ns then some r else s.lastPublish ns := by
  rw [lastPublish, lastPublish]
  split_ifs with h
  · rw [find?_cons_of_pos (by simp [h])]
  · rw [find?_cons_of_neg (by simp [h])]

/-- A request that is being written does not notice what other streams do. -/
theorem Writing.mono {t : AdapterSystem} (hw : s.Writing parity o)
    (hversion : t.adapter.version = s.adapter.version)
    (hnext : s.adapter.nextStream ≤ t.adapter.nextStream)
    (hunused : ∀ r ∈ t.requests, r.id ≠ o.id)
    (hpending : t.adapter.pending o.stream = s.adapter.pending o.stream) :
    t.Writing parity o where
  parity := hw.parity
  below := lt_of_lt_of_le hw.below hnext
  unused := hunused
  unfinished := hw.unfinished
  encoded := by
    rw [hversion, hpending]
    exact hw.encoded

theorem insertNamespace_namespaces (a : Adapter) (ns : Option Path) (id : RequestId) (p : Path) :
    (a.insertNamespace ns id).namespaces p = if ns = some p then some id else a.namespaces p := by
  cases ns with
  | none => rfl
  | some q =>
    simp only [insertNamespace, update_apply, Option.some.injEq,
      eq_comm (a := p)]

/-- The rest of an adapter does not notice a namespace. -/
theorem insertNamespace_frame (a : Adapter) (ns : Option Path) (id : RequestId) :
    (a.insertNamespace ns id).version = a.version ∧
    (a.insertNamespace ns id).streams = a.streams ∧
    (a.insertNamespace ns id).pending = a.pending ∧
    (a.insertNamespace ns id).nextStream = a.nextStream := by
  cases ns <;> exact ⟨rfl, rfl, rfl, rfl⟩

/-- A request is registered. -/
theorem Ok.register (hs : s.Ok parity) {os : List Outgoing}
    (hfresh : ∀ r' ∈ s.requests, r'.id ≠ r.id)
    (hstreams : a.streams = Function.update s.adapter.streams r.id (some r.stream))
    (hnamespaces : a.namespaces = (s.adapter.insertNamespace r.ns r.id).namespaces)
    (hwriting : ∀ o ∈ os, Writing parity ⟨a, os, r :: s.requests, s.ended⟩ o)
    (hapart : os.Pairwise Apart) : Ok parity ⟨a, os, r :: s.requests, s.ended⟩ where
  streams id := by
    have hof := streamOf_cons hs hfresh id
    rw [hstreams, funext hs.streams]
    exact hof.symm
  namespaces ns := by
    have hlast := lastPublish_cons (s := s) r ns
    rw [hnamespaces, insertNamespace_namespaces, hs.namespaces]
    refine Eq.trans ?_ (congrArg (Option.map Request.id) hlast).symm
    split_ifs <;> rfl
  ended id h := by
    obtain ⟨r', hmem, heq⟩ := hs.ended id h
    exact ⟨r', mem_cons_of_mem _ hmem, heq⟩
  writing := hwriting
  apart := hapart

/-! ### Writing requests -/

variable {id : RequestId} {endpoint : Endpoint} {raw : List UInt8}

/-- Opening a stream for a request keeps the maps right. -/
theorem Ok.openBi (hs : s.Ok parity) {ns : Option Path}
    (hreq : m.request = some (id, ns)) (hraw : m.encode s.adapter.version = .ok raw)
    (hparity : id % 2 = parity) (hunused : s.Unused id) : (s.openBi id ns raw).Ok parity where
  streams := hs.streams
  namespaces := hs.namespaces
  ended := hs.ended
  writing o ho := by
    rcases mem_cons.mp ho with rfl | ho
    · exact ⟨hparity, Nat.lt_succ_self _, hunused.1, encode_ne_nil hraw, m, [],
        hreq, hraw, update_self _ _ _⟩
    · have hw := hs.writing o ho
      refine hw.mono rfl (Nat.le_succ _) hw.unused ?_
      exact update_of_ne (Nat.ne_of_lt hw.below) _ _
  apart := by
    refine List.Pairwise.cons (fun o ho => ⟨?_, ?_⟩) hs.apart
    · exact (hunused.2 o ho).symm
    · exact (Nat.ne_of_lt (hs.writing o ho).below).symm

/-- The others are apart from a request that is being written. -/
theorem Ok.apart_eraseIdx (hs : s.Ok parity) {i : ℕ} (ho : s.outgoing[i]? = some o) :
    (∀ o' ∈ s.outgoing.eraseIdx i, Apart o o') ∧ (s.outgoing.eraseIdx i).Pairwise Apart := by
  have hperm := perm_cons_eraseIdx ho
  have hsymm : ∀ {o o' : Outgoing}, Apart o o' → Apart o' o := fun h => ⟨h.1.symm, h.2.symm⟩
  exact pairwise_cons.mp ((hperm.pairwise_iff hsymm).mp hs.apart)

/-- Writing a part of a request keeps the maps right. -/
theorem Ok.write (hs : s.Ok parity) {i : ℕ} (ho : s.outgoing[i]? = some o)
    (n : ℕ) : (s.write i n o).1.Ok parity := by
  obtain ⟨hothers, hapart⟩ := hs.apart_eraseIdx ho
  have hw := hs.writing o (mem_of_getElem? ho)
  obtain ⟨m, written, hreq, hraw, hpending⟩ := hw.encoded
  have herase : ∀ {o'}, o' ∈ s.outgoing.eraseIdx i → o' ∈ s.outgoing :=
    fun h => mem_of_mem_eraseIdx h
  rw [AdapterSystem.write, Adapter.write, hpending]
  split_ifs with hlen
  · -- the request is complete
    rw [take_of_length_le hlen]
    simp only [tryParse_encode hreq hraw]
    obtain ⟨hversion, hstreams, hpend, hnext⟩ := insertNamespace_frame s.adapter o.ns o.id
    refine hs.register (r := ⟨.ours, o.id, o.ns, o.stream⟩) hw.unused ?_ rfl
      (fun o' ho' => ?_) hapart
    · rw [hstreams]
    · have hw' := hs.writing o' (herase ho')
      refine hw'.mono hversion (le_of_eq hnext.symm) (fun r hr => ?_) ?_
      · rcases mem_cons.mp hr with rfl | hr
        · exact (hothers o' ho').1
        · exact hw'.unused r hr
      · rw [hpend]
        exact update_of_ne (hothers o' ho').2.symm _ _
  · have hdrop : o.rest.drop n ≠ [] := by
      rw [ne_eq, drop_eq_nil_iff]
      omega
    have hsplit : written ++ o.rest = written ++ o.rest.take n ++ o.rest.drop n := by
      rw [append_assoc, take_append_drop]
    rw [hsplit] at hraw
    simp only [tryParse_of_append hraw hdrop]
    refine ⟨hs.streams, hs.namespaces, hs.ended, fun o' ho' => ?_, ?_⟩
    · rcases mem_cons.mp ho' with rfl | ho'
      · exact ⟨hw.parity, hw.below, hw.unused, hdrop, m, _, hreq, hraw, update_self _ _ _⟩
      · have hw' := hs.writing o' (herase ho')
        refine hw'.mono rfl le_rfl hw'.unused ?_
        exact update_of_ne (hothers o' ho').2.symm _ _
    · exact List.Pairwise.cons hothers hapart

/-! ### Receiving messages -/

/-- What `classify` makes of a message. -/
inductive Handled (s : AdapterSystem) (m : ControlMessage) : Except AdapterError RouteTo → Prop
  /-- The reader stops. -/
  | stop (e : AdapterError) (hrouted : m.routed s.adapter.version = false) : Handled s m (.error e)
  | goAway (hrouted : m.routed s.adapter.version = false) (hreq : m.request = none) :
      Handled s m (.ok .goAway)
  | allow (id : RequestId) (hrouted : m.routed s.adapter.version = false)
      (hreq : m.request = none) :
      Handled s m (.ok (.maxRequestId id))
  /-- A new request. -/
  | accept (id : RequestId) (ns : Option Path) (hrouted : m.routed s.adapter.version = false)
      (hreq : m.request = some (id, ns)) : Handled s m (.ok (.newRequest id))
  /-- A message goes to the stream of the request it refers to. -/
  | respond (id : RequestId) (hreq : m.request = none) (hends : m.ends = false)
      (hto : s.refersTo m = some id) : Handled s m (.ok (.response id))
  | follow (id : RequestId) (hreq : m.request = none) (hends : m.ends = false)
      (hto : s.refersTo m = some id) : Handled s m (.ok (.followUp id))
  /-- And closes it. -/
  | close (id : RequestId) (hreq : m.request = none) (hends : m.ends = true)
      (hto : s.refersTo m = some id) : Handled s m (.ok (.closeStream id))

/-- If the last request for a namespace is of one endpoint, it is the last one of that
endpoint. -/
theorem lastRequest_of_lastPublish {ns : Path}
    (h : (s.lastPublish ns).map Request.endpoint = some endpoint) :
    s.lastRequest endpoint ns = (s.lastPublish ns).map Request.id := by
  obtain ⟨_, hr, rfl⟩ := Option.map_eq_some_iff.mp h
  rw [lastRequest, hr]
  rw [lastPublish] at hr
  congr 1
  generalize s.requests = rs at hr
  induction rs with
  | nil => cases hr
  | cons r' rs ih =>
    by_cases hns : r'.ns = some ns
    · rw [find?_cons_of_pos (by simp [hns])] at hr
      cases hr
      rw [find?_cons_of_pos (by simp [hns])]
    · rw [find?_cons_of_neg (by simp [hns])] at hr
      rw [find?_cons_of_neg (by simp [hns])]
      exact ih hr

/-- A message that names its request in front is handled by its kind. -/
theorem handled_keyed (s : AdapterSystem) {kind : Kind} {first : List UInt8}
    (hid : encodeVarInt id = .ok first) (fields : List UInt8) :
    s.Handled (.keyed kind id fields)
      (s.adapter.classify kind.typeId (first ++ fields)) := by
  have hdecode := decodeRequestId_encode hid fields
  cases kind with
  | subscribe | fetch | publish | trackStatus =>
    rw [Kind.typeId, classify, hdecode]
    exact .accept id none rfl rfl
  | subscribeOk | fetchOk | publishOk | publishNamespaceOk =>
    rw [Kind.typeId, classify, hdecode]
    exact .respond id rfl rfl rfl
  | subscribeError | publishError | unsubscribe | publishDone | fetchCancel =>
    rw [Kind.typeId, classify, hdecode]
    exact .close id rfl rfl rfl
  | maxRequestId =>
    rw [Kind.typeId, classify, hdecode]
    exact .allow id rfl rfl
  | requestsBlocked => exact .stop _ rfl
  | subscribeNamespace =>
    rw [Kind.typeId, classify, hdecode]
    cases hv : s.adapter.version with
    | draft14 | draft15 => exact .accept id none rfl rfl
    | draft16 => exact .stop _ rfl
  | subscribeNamespaceOk =>
    rw [Kind.typeId, classify, hdecode]
    cases hv : s.adapter.version with
    | draft14 => exact .respond id rfl rfl rfl
    | draft15 | draft16 => exact .stop _ (by rw [hv]; rfl)
  | fetchError | publishNamespaceError | subscribeNamespaceError =>
    rw [Kind.typeId, classify, hdecode]
    cases hv : s.adapter.version with
    | draft14 => exact .close id rfl rfl rfl
    | draft15 | draft16 => exact .stop _ (by rw [hv]; rfl)
  | unsubscribeNamespace =>
    rw [Kind.typeId, classify, hdecode]
    cases hv : s.adapter.version with
    | draft14 | draft15 => exact .close id rfl rfl rfl
    | draft16 => exact .stop _ (by rw [hv]; rfl)

/-- The key of a message that ends a namespace leads to the request it refers to. -/
theorem classify_key (hs : s.Ok parity) {ns : Path} {key : List UInt8}
    (hkey : ControlMessage.encodeKey s.adapter.version ns id = .ok key)
    (hlast : s.adapter.version = .draft16 ∨ (s.lastPublish ns).map Request.endpoint = some endpoint)
    (rest : List UInt8) :
    ∃ id', (match s.adapter.version with
        | .draft14 | .draft15 => s.lastRequest endpoint ns
        | .draft16 => some id) = some id' ∧
      s.adapter.classify 0x09 (key ++ rest) = .ok (.closeStream id') ∧
      s.adapter.classify 0x0c (key ++ rest) = .ok (.closeStream id') := by
  rw [classify, classify]
  cases hv : s.adapter.version with
  | draft16 =>
    rw [hv, encodeKey] at hkey
    exact ⟨id, rfl, by rw [decodeRequestId_encode hkey]; exact ⟨rfl, rfl⟩⟩
  | draft14 | draft15 =>
    rw [hv, encodeKey] at hkey
    have hlast := hlast.resolve_left (by rw [hv]; decide)
    obtain ⟨r, hr, -⟩ := Option.map_eq_some_iff.mp hlast
    refine ⟨r.id, ?_, ?_⟩
    · rw [lastRequest_of_lastPublish hlast, hr]
      rfl
    · rw [lookupNamespaceRequestId, decodeNamespace_encode hkey]
      simp only [hs.namespaces, hr]
      exact ⟨rfl, rfl⟩

/-- What `classify` makes of every message. -/
theorem handled (hs : s.Ok parity) (hm : s.Routable m) {body : List UInt8}
    (hbody : m.encodeMsg s.adapter.version = .ok body) :
    s.Handled m (s.adapter.classify m.typeId body) := by
  cases m with
  | keyed kind id fields =>
    obtain ⟨first, hid, hbody⟩ := bind_eq_ok.mp hbody
    cases hbody
    exact handled_keyed s hid fields
  | publishNamespace id ns fields =>
    obtain ⟨first, hid, hbody⟩ := bind_eq_ok.mp hbody
    obtain ⟨second, -, hbody⟩ := bind_eq_ok.mp hbody
    cases hbody
    rw [typeId, classify, decodeRequestId_encode hid]
    exact .accept id (some ns) rfl rfl
  | subscribeUpdate id subscription fields =>
    obtain ⟨_, hid, hbody⟩ := bind_eq_ok.mp hbody
    obtain ⟨_, -, hbody⟩ := bind_eq_ok.mp hbody
    cases hbody
    rw [typeId, classify, decodeRequestId_encode hid]
    exact .follow id rfl rfl (congrArg some hm.symm)
  | publishNamespaceDone ns id =>
    obtain ⟨key, hkey, hbody⟩ := bind_eq_ok.mp hbody
    cases hbody
    obtain ⟨id', hto, hclassify, -⟩ := classify_key hs hkey hm []
    rw [typeId, hclassify]
    exact .close id' rfl rfl hto
  | publishNamespaceCancel ns id fields =>
    obtain ⟨_, hkey, hbody⟩ := bind_eq_ok.mp hbody
    cases hbody
    obtain ⟨id', hto, -, hclassify⟩ := classify_key hs hkey hm fields
    rw [typeId, hclassify]
    exact .close id' rfl rfl hto
  | goAway fields => exact .goAway rfl rfl

/-- A change of the adapter that concerns neither the maps nor the streams. -/
theorem Ok.of_adapter (hs : s.Ok parity) (hversion : a.version = s.adapter.version)
    (hstreams : a.streams = s.adapter.streams) (hnamespaces : a.namespaces = s.adapter.namespaces)
    (hpending : a.pending = s.adapter.pending) (hnext : s.adapter.nextStream = a.nextStream) :
    Ok parity ⟨a, s.outgoing, s.requests, s.ended⟩ where
  streams id := by
    rw [hstreams]
    exact hs.streams id
  namespaces ns := by
    rw [hnamespaces]
    exact hs.namespaces ns
  ended := hs.ended
  writing o ho := by
    have hw := hs.writing o ho
    exact hw.mono hversion (le_of_eq hnext) hw.unused (by rw [hpending])
  apart := hs.apart

/-- A message ends a request. -/
theorem Ok.close (hs : s.Ok parity) (hends : m.ends = true) (hto : s.refersTo m = some id) :
    Ok parity { s.logEnd m with
      adapter := { s.adapter with streams := update s.adapter.streams id none } } := by
  rw [logEnd, hto]
  dsimp only
  split_ifs with hknown
  · have hmem : ∃ r ∈ s.requests, r.id = id := by
      simpa using hknown.2
    refine ⟨fun id' => ?_, hs.namespaces, fun id' h => ?_, fun o ho => ?_, hs.apart⟩
    · dsimp only
      rw [update_apply, hs.streams, streamOf, streamOf]
      by_cases hid : id' = id
      · rw [if_pos hid, if_pos (mem_cons.mpr (.inl hid))]
      · simp only [mem_cons, hid, false_or, if_false]
    · rcases mem_cons.mp h with rfl | h
      · exact hmem
      · exact hs.ended id' h
    · exact (hs.writing o ho).mono rfl le_rfl (hs.writing o ho).unused rfl
  · -- no such request was made, so there is no stream to close
    have hnone : s.streamOf id = none := by
      have hunknown : ∀ r ∈ s.requests, r.id ≠ id := by
        simpa [hends] using hknown
      rw [streamOf, find?_eq_none.mpr (by simpa using hunknown)]
      split_ifs <;> rfl
    refine ⟨fun id' => ?_, hs.namespaces, hs.ended, fun o ho => ?_, hs.apart⟩
    · dsimp only
      rw [update_apply, hs.streams]
      split_ifs with hid
      · rw [hid]
        exact hnone.symm
      · rfl
    · exact (hs.writing o ho).mono rfl le_rfl (hs.writing o ho).unused rfl

theorem log_deliver (a : Adapter) (id : RequestId) (raw : List UInt8) :
    s.log m (a.deliver id raw) = s.logEnd m := by
  rw [deliver]
  cases a.streams id <;> rfl

theorem logEnd_of_not_ends (hends : m.ends = false) : s.logEnd m = s := by
  rw [logEnd]
  cases s.refersTo m with
  | none => rfl
  | some id => simp [hends]

/-- The stream a message is delivered to, if it is still there. -/
def delivery (s : AdapterSystem) (m : ControlMessage) (raw : List UInt8) : AdapterOutput :=
  match (s.refersTo m).bind s.streamOf with
  | some stream => .delivered stream raw
  | none => .dropped

theorem deliver_eq (hs : s.Ok parity) (hto : s.refersTo m = some id) (raw : List UInt8) :
    s.adapter.deliver id raw = s.delivery m raw := by
  rw [deliver, delivery, hs.streams, hto]
  rfl

/-- A received message. -/
theorem Ok.receive (hs : s.Ok parity) (hm : s.Allowed parity (.receive m))
    (hraw : m.encode s.adapter.version = .ok raw) (hrun : s.adapter.running = true) :
    (s.step (.receive m)).1.Ok parity ∧
      (m.routed s.adapter.version = true → (s.step (.receive m)).2 = s.delivery m raw) := by
  obtain ⟨body, hbody, hread⟩ := read_encode hraw hrun
  have hhandled := handled hs (hm.2 m rfl) hbody
  rw [step, hraw]
  simp only [hread, dispatch]
  generalize s.adapter.classify m.typeId body = c at hhandled
  cases hhandled with
  | stop e hrouted =>
    exact ⟨hs.of_adapter rfl rfl rfl rfl rfl, fun h => by rw [hrouted] at h; cases h⟩
  | goAway hrouted hreq =>
    refine ⟨?_, fun h => by rw [hrouted] at h; cases h⟩
    rw [classified_of_none _ hreq]
    exact hs.of_adapter rfl rfl rfl rfl rfl
  | allow id hrouted hreq =>
    refine ⟨?_, fun h => by rw [hrouted] at h; cases h⟩
    rw [classified_of_none _ hreq]
    exact hs
  | accept id ns hrouted hreq =>
    refine ⟨?_, fun h => by rw [hrouted] at h; cases h⟩
    rw [classified_encode _ hreq hbody]
    obtain ⟨hversion, hstreams, hpending, hnext⟩ := insertNamespace_frame s.adapter ns id
    have hhonest := hm.1 (id, ns) hreq
    simp only [route, log, logRequest, hreq]
    refine hs.register hhonest.2 (by rw [hstreams, hnext]) rfl (fun o ho => ?_) hs.apart
    have hw := hs.writing o ho
    refine hw.mono hversion (by rw [hnext]; exact Nat.le_succ _) (fun r hr => ?_)
      (by rw [hpending])
    rcases mem_cons.mp hr with rfl | hr
    · -- the ids of the peer have the other parity
      intro heq
      dsimp only at heq
      exact hhonest.1 (heq ▸ hw.parity)
    · exact hw.unused r hr
  | respond id hreq hends hto | follow id hreq hends hto =>
    rw [classified_of_none _ hreq]
    simp only [route, log_deliver, logEnd_of_not_ends hends]
    exact ⟨hs, fun _ => deliver_eq hs hto raw⟩
  | close id hreq hends hto =>
    rw [classified_of_none _ hreq]
    simp only [route, log_deliver]
    exact ⟨hs.close hends hto, fun _ => deliver_eq hs hto raw⟩

/-- Every step keeps the invariant. -/
theorem Ok.step (hs : s.Ok parity) {op : AdapterOp} (hop : s.Allowed parity op) :
    (s.step op).1.Ok parity := by
  cases op with
  | openBi m =>
    rw [AdapterSystem.step]
    cases hreq : m.request with
    | none => exact hs
    | some r =>
      obtain ⟨id, ns⟩ := r
      cases hraw : m.encode s.adapter.version with
      | error e => exact hs
      | ok raw =>
        have hhonest := hop.1 (id, ns) hreq
        exact hs.openBi hreq hraw hhonest.1 hhonest.2
  | write i n =>
    rw [AdapterSystem.step]
    cases ho : s.outgoing[i]? with
    | none => exact hs
    | some o => exact hs.write ho n
  | receive m =>
    cases hraw : m.encode s.adapter.version with
    | error e =>
      rw [AdapterSystem.step, hraw]
      exact hs
    | ok raw =>
      cases hrun : s.adapter.running with
      | true => exact (hs.receive hop hraw hrun).1
      | false =>
        rw [AdapterSystem.step, hraw]
        simp only [Adapter.read, hrun]
        exact hs

/-- **Routing on the control stream.** In every run in which the endpoints never reuse an id
and every received message is routable, each message that belongs to an earlier request is
delivered to the stream of the request it refers to, and to no stream if that request has
ended. -/
theorem control_routing (parity : ℕ) (version : Draft) (ops : List AdapterOp)
    (m : ControlMessage) (raw : List UInt8)
    (hm : Meets tick (Allowed parity) (new version) ops) :
    ∃ s, run tick (new version) ops = .ok s ∧
      (s.Allowed parity (.receive m) → s.adapter.running = true →
        m.routed s.adapter.version = true → m.encode s.adapter.version = .ok raw →
        (s.step (.receive m)).2 = s.delivery m raw) := by
  obtain ⟨s, hrun, hs⟩ := hm.invariant (I := Ok parity)
    (fun {s op} hs hop => ⟨(s.step op).1, rfl, hs.step hop⟩) (Ok.new version)
  exact ⟨s, hrun, fun hallowed hrunning hrouted hraw =>
    (hs.receive hallowed hraw hrunning).2 hrouted⟩

/-- The peer publishes a namespace after we have published another one, and ends it. -/
theorem control_routing_done :
    let a := Path.new ['a']
    let b := Path.new ['b']
    let ops := [AdapterOp.openBi (.publishNamespace 0 a []), .write 0 3, .write 0 100,
      .receive (.publishNamespace 1 b [])]
    ∃ s, run tick (new .draft14) ops = .ok s ∧
      (s.step (.receive (.publishNamespaceDone b 0))).2 = .delivered 1 [9, 0, 3, 1, 1, 98] := by
  intro a b ops
  obtain ⟨s, hrun, h⟩ := control_routing 0 .draft14 ops (.publishNamespaceDone b 0)
    [9, 0, 3, 1, 1, 98] (by decide)
  refine ⟨s, hrun, ?_⟩
  cases hrun
  exact (h (by decide) (by decide) (by decide) (by decide)).trans (by decide)

/-- Both endpoints publish a namespace, and the peer subscribes. When the peer ends its
namespace the message goes to the stream of our request, and an update of the subscription
goes nowhere. -/
theorem shared_namespace_misroutes :
    let a := Path.new ['a']
    let ops := [AdapterOp.receive (.publishNamespace 1 a []), .openBi (.publishNamespace 0 a []),
      .write 0 100, .receive (.keyed .subscribe 3 [])]
    let done := publishNamespaceDone a 0
    let update := subscribeUpdate 5 3 []
    Meets tick (Honest 0) (new .draft14) ops ∧
      ∃ s, run tick (new .draft14) ops = .ok s ∧ s.adapter.running = true ∧
        s.delivery done [9, 0, 3, 1, 1, 97] = .delivered 0 [9, 0, 3, 1, 1, 97] ∧
        (s.step (.receive done)).2 = .delivered 1 [9, 0, 3, 1, 1, 97] ∧
        s.delivery update [2, 0, 2, 5, 3] = .delivered 2 [2, 0, 2, 5, 3] ∧
        (s.step (.receive update)).2 = .dropped := by
  intro a ops done update
  refine ⟨by decide, _, rfl, by decide, by decide, by decide, by decide, by decide⟩

end AdapterSystem

end HermitMoq
