import HermitMoq.DynamicRequests

/-!
# The Outcome of Requested Broadcasts

The history of the request queue of an origin. Requests are numbered in the order in which they are
registered; beside the queue the history keeps what became of each of them, the requests that
handlers received, and the requesters. The number of a request is the identity of its result
channel.
-/

namespace HermitMoq

open List DynamicOrigin

/-- What became of a request. -/
inductive RequestFate
  | queued
  /-- A handler holds the request. -/
  | serving
  | accepted (broadcast : BroadcastConsumer)
  | rejected (code : ℕ)
  /-- The handler dropped the request. -/
  | dropped
  /-- The request was queued when the last handler went away. -/
  | abandoned
  deriving DecidableEq

variable {fate : RequestFate}

namespace RequestFate

/-- What a requester gets. -/
def answer : RequestFate → Option (Except RequestError BroadcastConsumer)
  | queued => none
  | serving => none
  | accepted broadcast => some (.ok broadcast)
  | rejected code => some (.error (.rejected code))
  | dropped => some (.error .unroutable)
  | abandoned => some (.error .unroutable)

/-- What is written to the result channel. -/
def written : RequestFate → Option (Except RequestError BroadcastConsumer)
  | accepted broadcast => some (.ok broadcast)
  | rejected code => some (.error (.rejected code))
  | _ => none

/-- The last handler goes away. -/
def abandon : RequestFate → RequestFate
  | queued => abandoned
  | fate => fate

theorem abandon_ne_queued (fate : RequestFate) : fate.abandon ≠ queued := by
  cases fate <;> simp [abandon]

theorem abandon_eq_serving : fate.abandon = serving ↔ fate = serving := by
  cases fate <;> simp [abandon]

theorem written_abandon (fate : RequestFate) : fate.abandon.written = fate.written := by
  cases fate <;> rfl

end RequestFate

/-- An origin with the history of its requests. -/
structure RequestHistory where
  system : DynamicOrigin
  /-- The number of live handlers. -/
  handlers : ℕ
  /-- The absolute paths of all requests with what became of them, in the order of
  registration. -/
  requests : List (Path × RequestFate)
  /-- The numbers of the requests that handlers received, in order. -/
  received : List ℕ
  /-- The absolute paths that were asked for, with what the calls returned. -/
  requesters : List (Path × BroadcastRequested)

namespace RequestHistory

/-- A new origin. -/
def init (info : Origin) : RequestHistory := ⟨.init info, 0, [], [], []⟩

/-- Record what became of a request. -/
def settle (h : RequestHistory) (number : ℕ) (fate : RequestFate) : RequestHistory :=
  { h with requests := h.requests.modify number fun r => (r.1, fate) }

/-- A handler is done with the request at this place among those that are served. -/
def conclude (h : RequestHistory) (request : ℕ) (fate : RequestFate) : RequestHistory :=
  match h.system.serving[request]? with
  | some (_, number) => h.settle number fate
  | none => h

/-- The call of a requester. -/
def ask (h : RequestHistory) (c : OriginConsumer) (path : Path) : RequestHistory :=
  let answer := (h.system.request c path).2
  { h with
    requests :=
      if answer = .pending h.requests.length then h.requests ++ [(c.root.join path, .queued)]
      else h.requests
    requesters := h.requesters ++ [(c.root.join path, answer)] }

/-- A handler receives a request, if the system hands one out. -/
def receive (h : RequestHistory) (system : DynamicOrigin) : RequestHistory :=
  match system.serving[h.system.serving.length]? with
  | some (_, number) => { h.settle number .serving with received := h.received ++ [number] }
  | none => h

/-- Keep the record of an operation that leads to the state `system`. -/
def record (h : RequestHistory) (system : DynamicOrigin) : DynamicOp → RequestHistory
  | .origin _ => h
  | .dynamic => { h with handlers := if h.system.gone then h.handlers else h.handlers + 1 }
  | .dropDynamic =>
    { h with
      handlers := h.handlers - 1
      requests :=
        if h.handlers - 1 = 0 then h.requests.map fun r => (r.1, r.2.abandon) else h.requests }
  | .dropOrigin => h
  | .request consumer path =>
    match h.system.origin.live consumer with
    | some c => h.ask c path
    | none => h
  | .requestedBroadcast => h.receive system
  | .accept request broadcast => h.conclude request (.accepted broadcast)
  | .reject request code => h.conclude request (.rejected code)
  | .dropRequest request => h.conclude request .dropped

/-- One operation. -/
def step (h : RequestHistory) (op : DynamicOp) : Except DynamicPanic RequestHistory :=
  match h.system.step op with
  | .ok system => .ok { h.record system op with system }
  | .error e => .error e

end RequestHistory

variable {path : Path} {n : ℕ} {c : OriginConsumer} {order : List Path}

namespace DynamicOrigin

variable {s : DynamicOrigin} {channel : ChannelId}

/-- A request is answered at once, joins a queued one, or is registered. -/
theorem request_cases (s : DynamicOrigin) (c : OriginConsumer) (path : Path) :
    (∃ broadcast, s.request c path = (s, .ready broadcast)) ∨
    (∃ e, s.request c path = (s, .failed e)) ∨
    (∃ channel, s.state.requests.lookup (c.root.join path) = some channel ∧
      s.request c path = (s, .pending channel)) ∨
    s.state.requests.lookup (c.root.join path) = none ∧ s.state.dynamic ≠ 0 ∧
      s.request c path =
        ({ s with
            state := { s.state with
              requests := s.state.requests.insert (c.root.join path) s.channels
              requestOrder := s.state.requestOrder ++ [c.root.join path] }
            channels := s.channels + 1 },
          .pending s.channels) := by
  unfold request
  cases c.getBroadcast s.origin path with
  | some broadcast => exact .inl ⟨broadcast, rfl⟩
  | none =>
    by_cases hgone : s.gone = true
    · simp only [if_pos hgone]
      exact .inr (.inl ⟨_, rfl⟩)
    simp only [if_neg hgone]
    cases hlookup : s.state.requests.lookup (c.root.join path) with
    | some channel => exact .inr (.inr (.inl ⟨channel, rfl, rfl⟩))
    | none =>
      by_cases hzero : s.state.dynamic = 0
      · simp only [if_pos hzero]
        exact .inr (.inl ⟨_, rfl⟩)
      · simp only [if_neg hzero]
        exact .inr (.inr (.inr ⟨trivial, hzero, trivial⟩))

/-- A requester that waits does so for the request that is queued for its path. -/
theorem lookup_of_pending (s : DynamicOrigin) (hpending : (s.request c path).2 = .pending channel) :
    (s.request c path).1.state.requests.lookup (c.root.join path) = some channel := by
  rcases s.request_cases c path with ⟨_, heq⟩ | ⟨_, heq⟩ | ⟨_, hlookup, heq⟩ | ⟨-, -, heq⟩
  · rw [heq] at hpending
    cases hpending
  · rw [heq] at hpending
    cases hpending
  · rw [heq] at hpending ⊢
    exact BroadcastRequested.pending.inj hpending ▸ hlookup
  · rw [heq] at hpending ⊢
    exact BroadcastRequested.pending.inj hpending ▸ AList.lookup_insert _

theorem requestedBroadcast_of_nil (hnil : s.state.requestOrder = []) :
    s.requestedBroadcast = .ok s := by
  rw [requestedBroadcast, hnil]

theorem requestedBroadcast_of_cons (hcons : s.state.requestOrder = path :: order)
    (hlookup : s.state.requests.lookup path = some channel) :
    s.requestedBroadcast = .ok { s with
      state := ⟨s.state.requests.erase path, order, s.state.dynamic⟩
      serving := s.serving ++ [(path, channel)] } := by
  simp only [requestedBroadcast, hcons, hlookup]

end DynamicOrigin

namespace RequestHistory

/-- The number is that of a queued request for the path. -/
def IsQueued (h : RequestHistory) (number : ℕ) (path : Path) : Prop :=
  h.requests[number]? = some (path, .queued)

/-- The system is in the state that the history tells. -/
structure Sound (h : RequestHistory) : Prop where
  queued : h.system.Queued
  handlers : h.system.state.dynamic = h.handlers
  channels : h.system.channels = h.requests.length
  lookup_iff {path : Path} {number : ℕ} :
    h.system.state.requests.lookup path = some number ↔ h.IsQueued number path
  order_nodup : h.system.state.requestOrder.Nodup
  order_iff {path : Path} :
    path ∈ h.system.state.requestOrder ↔ ∃ number, h.IsQueued number path
  /-- The queue is in the order of registration. -/
  order_sorted : h.system.state.requestOrder.Pairwise fun p q =>
    ∀ m n, h.IsQueued m p → h.IsQueued n q → m < n
  serving_nodup : h.system.serving.Nodup
  serving_iff {path : Path} {number : ℕ} :
    (path, number) ∈ h.system.serving ↔ h.requests[number]? = some (path, .serving)
  resolved_eq {path : Path} {number : ℕ} {fate : RequestFate} :
    h.requests[number]? = some (path, fate) → h.system.resolved number = fate.written
  unresolved {number : ℕ} : h.requests.length ≤ number → h.system.resolved number = none
  received_sorted : h.received.Pairwise (· < ·)
  received_lt {number : ℕ} : number ∈ h.received → number < h.requests.length
  /-- No request is overtaken. -/
  received_first {number : ℕ} : number ∈ h.received →
    ∀ {other path}, h.IsQueued other path → number < other
  requester {path : Path} {number : ℕ} : (path, .pending number) ∈ h.requesters →
    ∃ fate, h.requests[number]? = some (path, fate)

/-- There are no requests at first. -/
theorem sound_init (info : Origin) : (init info).Sound where
  queued := queued_init info
  handlers := rfl
  channels := rfl
  lookup_iff := by simp [init, DynamicOrigin.init, OriginDynamicState.default, IsQueued]
  order_nodup := nodup_nil
  order_iff := by simp [init, DynamicOrigin.init, OriginDynamicState.default, IsQueued]
  order_sorted := List.Pairwise.nil
  serving_nodup := nodup_nil
  serving_iff := by simp [init, DynamicOrigin.init]
  resolved_eq := nofun
  unresolved := fun _ => rfl
  received_sorted := List.Pairwise.nil
  received_lt := nofun
  received_first := nofun
  requester := nofun

section Settle

variable {h : RequestHistory} {number : ℕ}

theorem getElem?_settle (n : ℕ) :
    (h.settle number fate).requests[n]? =
      if number = n then (h.requests[n]?).map fun r => (r.1, fate) else h.requests[n]? := by
  rw [settle, getElem?_modify]
  split_ifs <;> simp

theorem length_settle : (h.settle number fate).requests.length = h.requests.length :=
  length_modify _ _ _

theorem isQueued_settle (hfate : fate ≠ .queued) :
    (h.settle number fate).IsQueued n path ↔ number ≠ n ∧ h.IsQueued n path := by
  rw [IsQueued, getElem?_settle]
  by_cases hn : number = n
  · simp [hn, hfate]
  · simp [hn, IsQueued]

/-- Every other request keeps its fate. -/
theorem settle_at {fate' : RequestFate}
    (hat : (h.settle number fate).requests[n]? = some (path, fate')) :
    number = n ∧ fate' = fate ∧ (∃ before, h.requests[n]? = some (path, before)) ∨
      number ≠ n ∧ h.requests[n]? = some (path, fate') := by
  rw [getElem?_settle] at hat
  split_ifs at hat with hn
  · obtain ⟨⟨_, before⟩, hbefore, heq⟩ := Option.map_eq_some_iff.mp hat
    cases heq
    exact .inl ⟨hn, rfl, before, hbefore⟩
  · exact .inr ⟨hn, hat⟩

/-- A request keeps its path. -/
theorem exists_settle {before : RequestFate} (hat : h.requests[n]? = some (path, before)) :
    ∃ fate', (h.settle number fate).requests[n]? = some (path, fate') := by
  rw [getElem?_settle, hat]
  split_ifs
  · exact ⟨fate, rfl⟩
  · exact ⟨before, rfl⟩

end Settle

section Step

variable {h : RequestHistory} {number : ℕ} {op : DynamicOp}

theorem IsQueued.lt (hqueued : h.IsQueued number path) : number < h.requests.length :=
  (List.getElem?_eq_some_iff.mp hqueued).1

theorem IsQueued.path_eq {p q : Path} (hp : h.IsQueued number p) (hq : h.IsQueued number q) :
    p = q := by
  cases hp.symm.trans hq
  rfl

theorem Sound.isQueued_unique (hs : h.Sound) {m n : ℕ} (hm : h.IsQueued m path)
    (hn : h.IsQueued n path) : m = n :=
  Option.some.inj ((hs.lookup_iff.mpr hm).symm.trans (hs.lookup_iff.mpr hn))

/-- A new request is registered in the history. -/
def register (h : RequestHistory) (path : Path) : RequestHistory :=
  { h with requests := h.requests ++ [(path, .queued)] }

/-- A registration adds one queued request. -/
theorem register_at {p : Path} :
    (h.register path).requests[n]? = some (p, fate) ↔
      h.requests[n]? = some (p, fate) ∨ n = h.requests.length ∧ path = p ∧ fate = .queued := by
  rcases lt_trichotomy n h.requests.length with hlt | rfl | hlt
  · rw [register, getElem?_append_left hlt]
    simp [hlt.ne]
  · simp [register, eq_comm]
  · have hnone : (h.register path).requests[n]? = none := by
      rw [register, getElem?_eq_none_iff, length_append, length_singleton]
      exact hlt
    rw [hnone, getElem?_eq_none hlt.le]
    simp [hlt.ne']

theorem isQueued_register {p : Path} :
    (h.register path).IsQueued n p ↔ h.IsQueued n p ∨ n = h.requests.length ∧ path = p := by
  rw [IsQueued, register_at]
  simp [IsQueued]

section

variable (hs : h.Sound)

include hs

/-- A new request goes to the end of the queue. -/
theorem Sound.register (hzero : h.system.state.dynamic ≠ 0)
    (hlookup : h.system.state.requests.lookup path = none) :
    ({ h.register path with
      system := { h.system with
        state := { h.system.state with
          requests := h.system.state.requests.insert path h.system.channels
          requestOrder := h.system.state.requestOrder ++ [path] }
        channels := h.system.channels + 1 } } : RequestHistory).Sound := by
  have hnew : ∀ n, ¬ h.IsQueued n path := by
    intro n hqueued
    rw [hs.lookup_iff.mpr hqueued] at hlookup
    cases hlookup
  have hfresh : path ∉ h.system.state.requestOrder := fun hmem =>
    (hs.order_iff.mp hmem).elim hnew
  refine
    { queued := ⟨fun hdynamic => absurd hdynamic hzero, hs.queued.gone⟩
      handlers := hs.handlers
      channels := by simp [RequestHistory.register, hs.channels]
      lookup_iff := fun {p n} => ?lookup
      order_nodup := ?nodup
      order_iff := fun {p} => ?order
      order_sorted := ?sorted
      serving_nodup := hs.serving_nodup
      serving_iff := fun {p n} => ?serving
      resolved_eq := fun {p n fate} hat => ?resolved
      unresolved := fun {n} hle => ?unresolved
      received_sorted := hs.received_sorted
      received_lt := fun {n} hmem => ?received
      received_first := fun {n} hmem {other p} hqueued => ?first
      requester := fun {p n} hmem => ?requester }
  case lookup =>
    change (h.system.state.requests.insert path h.system.channels).lookup p = some n ↔
      (h.register path).IsQueued n p
    rw [isQueued_register]
    by_cases hp : p = path
    · subst hp
      rw [AList.lookup_insert, hs.channels]
      simp [hnew, eq_comm]
    · rw [AList.lookup_insert_ne hp, hs.lookup_iff]
      simp [Ne.symm hp]
  case nodup =>
    exact hs.order_nodup.append (nodup_singleton _)
      (disjoint_singleton.mpr hfresh)
  case order =>
    change p ∈ _ ++ [path] ↔ ∃ n, (h.register path).IsQueued n p
    simp only [isQueued_register, mem_append, mem_singleton, hs.order_iff, exists_or,
      exists_eq_left, eq_comm]
  case sorted =>
    change List.Pairwise (fun p q => ∀ m n, (h.register path).IsQueued m p →
      (h.register path).IsQueued n q → m < n) _
    refine pairwise_append.mpr ⟨?_, pairwise_singleton _ _, ?_⟩
    · refine hs.order_sorted.imp_of_mem fun hp hq hlt m n hm hn => ?_
      rcases isQueued_register.mp hm with hm | ⟨-, rfl⟩
      · rcases isQueued_register.mp hn with hn | ⟨-, rfl⟩
        · exact hlt m n hm hn
        · exact absurd hq hfresh
      · exact absurd hp hfresh
    · intro p hp q hq m n hm hn
      rw [mem_singleton] at hq
      subst hq
      rcases isQueued_register.mp hm with hm | ⟨-, rfl⟩
      · rcases isQueued_register.mp hn with hn | ⟨rfl, -⟩
        · exact absurd hn (hnew n)
        · exact hm.lt
      · exact absurd hp hfresh
  case serving =>
    change _ ↔ (h.register path).requests[n]? = some (p, .serving)
    rw [register_at]
    simp [hs.serving_iff]
  case resolved =>
    rcases register_at.mp hat with hat | ⟨rfl, -, rfl⟩
    · exact hs.resolved_eq hat
    · exact hs.unresolved le_rfl
  case unresolved =>
    simp only [RequestHistory.register, length_append] at hle
    exact hs.unresolved (by omega)
  case received =>
    have := hs.received_lt hmem
    simp only [RequestHistory.register, length_append]
    omega
  case first =>
    rcases isQueued_register.mp hqueued with hqueued | ⟨rfl, -⟩
    · exact hs.received_first hmem hqueued
    · exact hs.received_lt hmem
  case requester =>
    obtain ⟨fate, hat⟩ := hs.requester hmem
    exact ⟨fate, register_at.mpr (.inl hat)⟩

/-- The answer of a requester that waits names a request for its path. -/
theorem Sound.asked {answer : BroadcastRequested}
    (hanswer : ∀ {n}, answer = .pending n → ∃ fate, h.requests[n]? = some (path, fate)) :
    ({ h with requesters := h.requesters ++ [(path, answer)] } : RequestHistory).Sound := by
  refine { hs with requester := fun {p n} hmem => ?_ }
  rcases mem_append.mp hmem with hmem | hmem
  · exact hs.requester hmem
  · obtain ⟨rfl, heq⟩ := Prod.mk.inj (mem_singleton.mp hmem)
    exact hanswer heq.symm

/-- A request of a consumer is registered, joined or refused. -/
theorem Sound.ask (c : OriginConsumer) (path : Path) :
    ({ h.ask c path with system := (h.system.request c path).1 } : RequestHistory).Sound := by
  unfold RequestHistory.ask
  rcases h.system.request_cases c path with ⟨_, heq⟩ | ⟨_, heq⟩ | ⟨n, hlookup, heq⟩ |
    ⟨hlookup, hzero, heq⟩
  · rw [heq]
    exact hs.asked nofun
  · rw [heq]
    exact hs.asked nofun
  · rw [heq]
    have hqueued : h.IsQueued n (c.root.join path) := hs.lookup_iff.mp hlookup
    dsimp only
    rw [if_neg fun hnew => hqueued.lt.ne (BroadcastRequested.pending.inj hnew)]
    refine hs.asked fun hpending => ?_
    cases hpending
    exact ⟨_, hqueued⟩
  · rw [heq, hs.channels]
    dsimp only
    rw [if_pos rfl]
    have hregister := hs.register hzero hlookup
    rw [hs.channels] at hregister
    refine hregister.asked fun hpending => ?_
    cases hpending
    exact ⟨.queued, register_at.mpr (.inr ⟨rfl, rfl, rfl⟩)⟩

/-- The oldest request of the queue is handed to a handler. -/
theorem Sound.receive
    (hcons : h.system.state.requestOrder = path :: order) (hqueued : h.IsQueued number path) :
    ({ h.settle number .serving with
      received := h.received ++ [number]
      system := { h.system with
        state := ⟨h.system.state.requests.erase path, order, h.system.state.dynamic⟩
        serving := h.system.serving ++ [(path, number)] } } : RequestHistory).Sound := by
  have hnodup := hs.order_nodup
  have hsorted := hs.order_sorted
  rw [hcons] at hnodup hsorted
  have hother : ∀ {n p}, number ≠ n → h.IsQueued n p → p ≠ path := by
    rintro n p hne hn rfl
    exact hne (hs.isQueued_unique hqueued hn)
  have hq : ∀ {n p}, (h.settle number .serving).IsQueued n p ↔ number ≠ n ∧ h.IsQueued n p :=
    isQueued_settle (show RequestFate.serving ≠ .queued by decide)
  refine
    { queued := ⟨fun hzero => ?empty, hs.queued.gone⟩
      handlers := hs.handlers
      channels := hs.channels.trans length_settle.symm
      lookup_iff := fun {p n} => ?lookup
      order_nodup := hnodup.of_cons
      order_iff := fun {p} => ?order
      order_sorted := hsorted.of_cons.imp fun hlt m n hm hn => hlt m n (hq.mp hm).2 (hq.mp hn).2
      serving_nodup := ?nodup
      serving_iff := fun {p n} => ?serving
      resolved_eq := fun {p n fate} hat => ?resolved
      unresolved := fun {n} hle => hs.unresolved (length_settle ▸ hle)
      received_sorted := ?sorted
      received_lt := fun {n} hmem => ?received
      received_first := fun {n} hmem {other p} hlater => ?first
      requester := fun {p n} hmem => (hs.requester hmem).elim fun fate hat => exists_settle hat }
  case empty =>
    have hnone := hs.lookup_iff.mpr hqueued
    rw [hs.queued.empty hzero] at hnone
    cases hnone
  case lookup =>
    change (h.system.state.requests.erase path).lookup p = some n ↔
      (h.settle number .serving).IsQueued n p
    rw [hq]
    by_cases hp : p = path
    · subst hp
      exact ⟨by simp, fun hn => absurd rfl (hother hn.1 hn.2)⟩
    · rw [AList.lookup_erase_ne hp, hs.lookup_iff]
      refine ⟨fun hn => ⟨?_, hn⟩, fun hn => hn.2⟩
      rintro rfl
      exact hp (hn.path_eq hqueued)
  case order =>
    change p ∈ order ↔ ∃ n, (h.settle number .serving).IsQueued n p
    constructor
    · intro hp
      obtain ⟨n, hn⟩ := hs.order_iff.mp (hcons ▸ mem_cons_of_mem path hp)
      refine ⟨n, hq.mpr ⟨?_, hn⟩⟩
      rintro rfl
      exact (nodup_cons.mp hnodup).1 (hn.path_eq hqueued ▸ hp)
    · rintro ⟨n, hn⟩
      obtain ⟨hne, hn⟩ := hq.mp hn
      have hmem := hs.order_iff.mpr ⟨n, hn⟩
      rw [hcons] at hmem
      exact (mem_cons.mp hmem).resolve_left (hother hne hn)
  case nodup =>
    refine hs.serving_nodup.append (nodup_singleton _) (disjoint_singleton.mpr ?_)
    intro hmem
    cases hqueued.symm.trans (hs.serving_iff.mp hmem)
  case serving =>
    change (p, n) ∈ _ ++ [(path, number)] ↔ (h.settle number .serving).requests[n]? = _
    rw [mem_append, mem_singleton, hs.serving_iff, getElem?_settle]
    by_cases hn : number = n
    · subst hn
      rw [show h.requests[number]? = _ from hqueued]
      simp [eq_comm]
    · simp [hn, Ne.symm hn]
  case resolved =>
    rcases settle_at hat with ⟨rfl, rfl, -⟩ | ⟨-, hat⟩
    · have hnone : _ = RequestFate.queued.written := hs.resolved_eq hqueued
      exact hnone
    · exact hs.resolved_eq hat
  case sorted =>
    refine pairwise_append.mpr ⟨hs.received_sorted, pairwise_singleton _ _, ?_⟩
    intro m hm n hn
    rw [mem_singleton] at hn
    exact hn ▸ hs.received_first hm hqueued
  case received =>
    rw [show _ = h.requests.length from length_settle]
    rcases mem_append.mp hmem with hmem | hmem
    · exact hs.received_lt hmem
    · exact mem_singleton.mp hmem ▸ hqueued.lt
  case first =>
    obtain ⟨hne, hwaits⟩ := hq.mp hlater
    rcases mem_append.mp hmem with hmem | hmem
    · exact hs.received_first hmem hwaits
    · rw [mem_singleton] at hmem
      subst hmem
      have hp : p ∈ path :: order := hcons ▸ hs.order_iff.mpr ⟨other, hwaits⟩
      have hp := (mem_cons.mp hp).resolve_left (hother hne hwaits)
      exact (pairwise_cons.mp hsorted).1 p hp n other hqueued hwaits

/-- A handler is done with a request. -/
theorem Sound.conclude (request : ℕ) (fate : RequestFate)
    (hqueued : fate ≠ .queued) (hserving : fate ≠ .serving) :
    ({ h.conclude request fate with
      system := h.system.resolve request fate.written } : RequestHistory).Sound := by
  unfold RequestHistory.conclude resolve
  cases hat : h.system.serving[request]? with
  | none => exact hs
  | some served =>
    obtain ⟨path, number⟩ := served
    have hserved : h.requests[number]? = some (path, .serving) :=
      hs.serving_iff.mp (mem_of_getElem? hat)
    have hq : ∀ {n p}, (h.settle number fate).IsQueued n p ↔ h.IsQueued n p := by
      intro n p
      rw [isQueued_settle hqueued]
      refine ⟨fun hn => hn.2, fun hn => ⟨?_, hn⟩⟩
      rintro rfl
      cases hserved.symm.trans hn
    have hupdate : ∀ n, number ≠ n →
        Function.update h.system.resolved number fate.written n = h.system.resolved n :=
      fun n hne => Function.update_of_ne (Ne.symm hne) _ _
    refine
      { hs with
        channels := hs.channels.trans length_settle.symm
        lookup_iff := hs.lookup_iff.trans hq.symm
        order_iff := hs.order_iff.trans (exists_congr fun n => hq.symm)
        order_sorted :=
          hs.order_sorted.imp fun hlt m n hm hn => hlt m n (hq.mp hm) (hq.mp hn)
        serving_nodup := hs.serving_nodup.eraseIdx request
        serving_iff := fun {p n} => ?serving
        resolved_eq := fun {p n fate'} hfate => ?resolved
        unresolved := fun {n} hle => ?unresolved
        received_lt := fun hmem => length_settle.symm ▸ hs.received_lt hmem
        received_first := fun hmem _ _ hlater => hs.received_first hmem (hq.mp hlater)
        requester := fun {p n} hmem =>
          (hs.requester hmem).elim fun fate' hat => exists_settle hat
        queued := ⟨hs.queued.empty, hs.queued.gone⟩ }
    case serving =>
      change (p, n) ∈ h.system.serving.eraseIdx request ↔ (h.settle number fate).requests[n]? = _
      obtain ⟨hlt, hget⟩ := List.getElem?_eq_some_iff.mp hat
      rw [← hs.serving_nodup.erase_getElem request hlt, hs.serving_nodup.mem_erase_iff, hget,
        hs.serving_iff, getElem?_settle]
      by_cases hn : number = n
      · subst hn
        simp [hserved, hserving, eq_comm]
      · simp [hn, Ne.symm hn]
    case resolved =>
      rcases settle_at hfate with ⟨rfl, rfl, -⟩ | ⟨hne, hfate⟩
      · exact Function.update_self _ _ _
      · exact (hupdate n hne).trans (hs.resolved_eq hfate)
    case unresolved =>
      have hle : h.requests.length ≤ n := length_settle ▸ hle
      have hlt := (List.getElem?_eq_some_iff.mp hserved).1
      exact (hupdate n (hlt.trans_le hle).ne).trans (hs.unresolved hle)

/-- The last handler takes the queue with it. -/
theorem Sound.dropDynamic :
    ({ h with
      system := { h.system with state := h.system.state.dropHandler }
      handlers := h.handlers - 1
      requests :=
        if h.handlers - 1 = 0 then h.requests.map fun r => (r.1, r.2.abandon)
        else h.requests } : RequestHistory).Sound := by
  have hdynamic : h.system.state.dynamic - 1 = h.handlers - 1 := by rw [hs.handlers]
  by_cases hzero : h.handlers - 1 = 0
  · rw [if_pos hzero, show h.system.state.dropHandler = ⟨∅, [], h.system.state.dynamic - 1⟩ from
      if_pos (hdynamic.trans hzero)]
    have hat : ∀ {n : ℕ} {p : Path} {fate : RequestFate},
        (h.requests.map fun r => (r.1, r.2.abandon))[n]? = some (p, fate) ↔
          ∃ before : RequestFate, h.requests[n]? = some (p, before) ∧ before.abandon = fate := by
      intro n p fate
      simp [getElem?_map]
    have hnone : ∀ {n : ℕ} {p : Path}, ¬ (h.requests.map fun r => (r.1, r.2.abandon))[n]? =
        some (p, .queued) := by
      intro n p hn
      obtain ⟨before, -, heq⟩ := hat.mp hn
      exact before.abandon_ne_queued heq
    refine
      { hs with
        queued := ⟨fun _ => rfl, fun _ => hdynamic.trans hzero⟩
        handlers := hdynamic
        channels := hs.channels.trans (length_map _).symm
        lookup_iff := ⟨nofun, fun hn => absurd hn hnone⟩
        order_nodup := nodup_nil
        order_iff := ⟨nofun, fun ⟨n, hn⟩ => absurd hn hnone⟩
        order_sorted := List.Pairwise.nil
        serving_iff := fun {p n} => ?serving
        resolved_eq := fun {p n fate} hfate => ?resolved
        unresolved := fun hle => hs.unresolved ((length_map _).symm.trans_le hle)
        received_lt := fun hmem => (length_map _).symm ▸ hs.received_lt hmem
        received_first := fun _ _ _ hlater => absurd hlater hnone
        requester := fun {p n} hmem => ?requester }
    case serving =>
      rw [hs.serving_iff]
      exact ⟨fun hn => hat.mpr ⟨_, hn, rfl⟩, fun hn => by
        obtain ⟨before, hbefore, heq⟩ := hat.mp hn
        rwa [RequestFate.abandon_eq_serving.mp heq] at hbefore⟩
    case resolved =>
      obtain ⟨before, hbefore, rfl⟩ := hat.mp hfate
      rw [RequestFate.written_abandon]
      exact hs.resolved_eq hbefore
    case requester =>
      obtain ⟨before, hbefore⟩ := hs.requester hmem
      exact ⟨_, hat.mpr ⟨before, hbefore, rfl⟩⟩
  · rw [if_neg hzero, show h.system.state.dropHandler =
      { h.system.state with dynamic := h.system.state.dynamic - 1 } from
        if_neg fun h => hzero (hdynamic ▸ h)]
    refine
      { hs with
        queued := ⟨fun hnil => absurd (hdynamic ▸ hnil) hzero, fun hgone => ?_⟩
        handlers := hdynamic }
    exact absurd (by rw [← hs.handlers, hs.queued.gone hgone]) hzero

end

theorem step_of_ok {system : DynamicOrigin} (hop : h.system.step op = .ok system) :
    h.step op = .ok { h.record system op with system } := by
  rw [step, hop]

section

variable (hs : h.Sound)

include hs

/-- Every operation keeps the history sound; only the announcements of the origin may panic. -/
theorem Sound.step (op : DynamicOp) :
    (∃ h', h.step op = .ok h' ∧ h'.Sound) ∨ ∃ e, h.step op = .error (.origin e) := by
  cases op with
  | origin op =>
    cases horigin : h.system.origin.step op with
    | error e =>
      refine .inr ⟨e, ?_⟩
      rw [RequestHistory.step, DynamicOrigin.step, horigin]
    | ok origin =>
      have hop : h.system.step (.origin op) = .ok { h.system with origin } := by
        rw [DynamicOrigin.step, horigin]
      exact .inl ⟨_, step_of_ok hop,
        { hs with queued := ⟨hs.queued.empty, hs.queued.gone⟩ }⟩
  | dynamic =>
    by_cases hgone : h.system.gone = true
    · have hop : h.system.step .dynamic = .ok h.system := if_pos hgone
      exact .inl ⟨_, step_of_ok hop,
        { hs with handlers := hs.handlers.trans (if_pos hgone).symm }⟩
    · have hop : h.system.step .dynamic = .ok { h.system with
          state := { h.system.state with dynamic := h.system.state.dynamic + 1 } } :=
        if_neg hgone
      exact .inl ⟨_, step_of_ok hop, { hs with
        queued := ⟨fun hzero => absurd hzero (Nat.succ_ne_zero _), fun h => absurd h hgone⟩
        handlers := (congrArg (· + 1) hs.handlers).trans (if_neg hgone).symm }⟩
  | dropDynamic => exact .inl ⟨_, step_of_ok rfl, hs.dropDynamic⟩
  | dropOrigin =>
    by_cases hzero : h.system.state.dynamic = 0
    · have hop : h.system.step .dropOrigin = .ok { h.system with gone := true } := if_pos hzero
      exact .inl ⟨_, step_of_ok hop, { hs with queued := ⟨hs.queued.empty, fun _ => hzero⟩ }⟩
    · have hop : h.system.step .dropOrigin = .ok h.system := if_neg hzero
      exact .inl ⟨_, step_of_ok hop, hs⟩
  | request consumer path =>
    refine .inl ?_
    cases hlive : h.system.origin.live consumer with
    | none =>
      have hop : h.system.step (.request consumer path) = .ok h.system := by
        rw [DynamicOrigin.step, hlive]
      refine ⟨_, step_of_ok hop, ?_⟩
      rw [record, hlive]
      exact hs
    | some c =>
      have hop : h.system.step (.request consumer path) =
          .ok (h.system.request c path).1 := by
        rw [DynamicOrigin.step, hlive]
      refine ⟨_, step_of_ok hop, ?_⟩
      rw [record, hlive]
      exact hs.ask c path
  | requestedBroadcast =>
    refine .inl ?_
    cases horder : h.system.state.requestOrder with
    | nil =>
      refine ⟨_, step_of_ok (h.system.requestedBroadcast_of_nil horder), ?_⟩
      have hreceive : h.receive h.system = h := by
        rw [RequestHistory.receive, getElem?_eq_none le_rfl]
      rw [record, hreceive]
      exact hs
    | cons path order =>
      obtain ⟨_, hqueued⟩ := hs.order_iff.mp (horder ▸ mem_cons_self)
      have hop := requestedBroadcast_of_cons horder (hs.lookup_iff.mpr hqueued)
      refine ⟨_, step_of_ok hop, ?_⟩
      rw [record, RequestHistory.receive, getElem?_concat_length]
      exact hs.receive horder hqueued
  | accept request broadcast =>
    exact .inl ⟨_, step_of_ok rfl, hs.conclude request (.accepted broadcast) (by simp) (by simp)⟩
  | reject request code =>
    exact .inl ⟨_, step_of_ok rfl, hs.conclude request (.rejected code) (by simp) (by simp)⟩
  | dropRequest request =>
    exact .inl ⟨_, step_of_ok rfl, hs.conclude request .dropped (by simp) (by simp)⟩

theorem Sound.preserved {h' : RequestHistory} (hop : h.step op = .ok h') : h'.Sound := by
  rcases hs.step op with ⟨_, hok, hsound⟩ | ⟨_, herror⟩
  · exact Except.ok.inj (hok.symm.trans hop) ▸ hsound
  · cases herror.symm.trans hop

theorem Sound.step_ne_outOfSync (op : DynamicOp) :
    h.step op ≠ .error .outOfSync := by
  intro hpanic
  rcases hs.step op with ⟨_, hok, -⟩ | ⟨_, herror⟩
  · cases hok.symm.trans hpanic
  · cases herror.symm.trans hpanic

theorem Sound.queue_of_no_handler (hzero : h.handlers = 0) :
    h.system.state.requests = ∅ ∧ h.system.state.requestOrder = [] := by
  have hempty := hs.queued.empty (hs.handlers.trans hzero)
  refine ⟨hempty, eq_nil_iff_forall_not_mem.mpr fun path hmem => ?_⟩
  obtain ⟨_, hqueued⟩ := hs.order_iff.mp hmem
  have hnone := hs.lookup_iff.mpr hqueued
  rw [hempty] at hnone
  cases hnone

theorem Sound.mem_order_iff (path : Path) :
    path ∈ h.system.state.requestOrder ↔ path ∈ h.system.state.requests := by
  rw [hs.order_iff, ← AList.lookup_isSome, Option.isSome_iff_exists]
  exact exists_congr fun number => hs.lookup_iff.symm

/-- A handler that asks for a request is given the oldest one that is queued. -/
theorem Sound.receive_oldest (hqueued : h.IsQueued number path)
    (holdest : ∀ {other p}, h.IsQueued other p → number ≤ other) :
    ∃ h', h.step .requestedBroadcast = .ok h' ∧ h'.received = h.received ++ [number] := by
  have hmem := hs.order_iff.mpr ⟨number, hqueued⟩
  cases horder : h.system.state.requestOrder with
  | nil =>
    rw [horder] at hmem
    cases hmem
  | cons first order =>
    obtain ⟨m, hm⟩ := hs.order_iff.mp (horder ▸ mem_cons_self)
    have hle : m ≤ number := by
      rw [horder] at hmem
      rcases mem_cons.mp hmem with rfl | hlater
      · exact (hs.isQueued_unique hm hqueued).le
      · have hsorted := hs.order_sorted
        rw [horder] at hsorted
        exact ((pairwise_cons.mp hsorted).1 path hlater m number hm hqueued).le
    obtain rfl := hle.antisymm (holdest hm)
    refine ⟨_, step_of_ok (requestedBroadcast_of_cons horder (hs.lookup_iff.mpr hm)), ?_⟩
    rw [record, RequestHistory.receive, getElem?_concat_length]

/-- The call of a requester returns a request that is queued for its path. -/
theorem Sound.isQueued_of_pending {consumer : ConsumerId}
    (hlive : h.system.origin.live consumer = some c)
    (hpending : (h.system.request c path).2 = .pending number) :
    ∃ h', h.step (.request consumer path) = .ok h' ∧
      (c.root.join path, .pending number) ∈ h'.requesters ∧
      h'.IsQueued number (c.root.join path) := by
  have hop : h.system.step (.request consumer path) = .ok (h.system.request c path).1 := by
    rw [DynamicOrigin.step, hlive]
  have hstep := step_of_ok hop
  refine ⟨_, hstep, ?_,
    (hs.preserved hstep).lookup_iff.mp (h.system.lookup_of_pending hpending)⟩
  rw [record, hlive]
  exact hpending ▸ mem_append_right _ mem_cons_self

/-- The result channel of a request gives what became of it. -/
theorem Sound.poll_eq (hat : h.requests[number]? = some (path, fate)) :
    h.system.poll (.pending number) = fate.answer := by
  have hresolved := hs.resolved_eq hat
  have hqueue : number ∈ h.system.state.requests.entries.map Sigma.snd ↔ fate = .queued := by
    constructor
    · intro hmem
      obtain ⟨⟨p, n⟩, hentry, rfl⟩ := mem_map.mp hmem
      have hqueued : h.IsQueued n p := hs.lookup_iff.mp (AList.mem_lookup_iff.mpr hentry)
      cases hat.symm.trans hqueued
      rfl
    · rintro rfl
      have hentry := AList.mem_lookup_iff.mp (hs.lookup_iff.mpr hat)
      exact mem_map.mpr ⟨_, hentry, rfl⟩
  have hserving : number ∈ h.system.serving.map Prod.snd ↔ fate = .serving := by
    constructor
    · intro hmem
      obtain ⟨⟨_, _⟩, hserved, rfl⟩ := mem_map.mp hmem
      cases hat.symm.trans (hs.serving_iff.mp hserved)
      rfl
    · rintro rfl
      exact mem_map.mpr ⟨_, hs.serving_iff.mpr hat, rfl⟩
  rw [poll, hresolved]
  simp only [hqueue, hserving]
  cases fate <;> rfl

end

end Step

/-- **Requests are settled.** In every state that an origin reaches, for all calls of its requesters
and handlers: the queue lists each key of the map once, so that taking a request out never panics;
both are empty when no handler is alive; one request at most is queued for a path, whatever the
roots of the requesters. Handlers receive the requests in the order of their registration, none
before one that is still queued, and one that asks while requests are queued gets the oldest of
them. A requester that waits is joined to the request that is queued for its absolute path, and
gets what becomes of this request, and nothing else. -/
theorem requests_settled (info : Origin) (ops : List DynamicOp) {h : RequestHistory}
    (hrun : run step (init info) ops = .ok h) :
    (h.system.state.requestOrder.Nodup ∧
      ∀ path, path ∈ h.system.state.requestOrder ↔ path ∈ h.system.state.requests) ∧
    (∀ op, h.step op ≠ .error .outOfSync) ∧
    (h.handlers = 0 → h.system.state.requests = ∅ ∧ h.system.state.requestOrder = []) ∧
    (∀ path number, h.system.state.requests.lookup path = some number ↔
      h.IsQueued number path) ∧
    (∀ m n path, h.IsQueued m path → h.IsQueued n path → m = n) ∧
    (h.received.Pairwise (· < ·) ∧
      ∀ number ∈ h.received, ∀ other path, h.IsQueued other path → number < other) ∧
    (∀ number path, h.IsQueued number path →
      (∀ other p, h.IsQueued other p → number ≤ other) →
      ∃ h', h.step .requestedBroadcast = .ok h' ∧ h'.received = h.received ++ [number]) ∧
    (∀ consumer c path number, h.system.origin.live consumer = some c →
      (h.system.request c path).2 = .pending number →
      ∃ h', h.step (.request consumer path) = .ok h' ∧
        (c.root.join path, .pending number) ∈ h'.requesters ∧
        h'.IsQueued number (c.root.join path)) ∧
    ∀ path number, (path, .pending number) ∈ h.requesters →
      ∃ fate, h.requests[number]? = some (path, fate) ∧
        h.system.poll (.pending number) = fate.answer := by
  have hs : h.Sound := run_preserves (fun hs hop => hs.preserved hop) (sound_init info) hrun
  refine ⟨⟨hs.order_nodup, hs.mem_order_iff⟩, hs.step_ne_outOfSync, hs.queue_of_no_handler,
    fun path number => hs.lookup_iff, fun m n path => hs.isQueued_unique,
    ⟨hs.received_sorted, fun number hmem other path => hs.received_first hmem⟩,
    fun number path hqueued holdest => hs.receive_oldest hqueued fun {_ _} => holdest _ _,
    fun consumer c path number => hs.isQueued_of_pending, fun path number hmem => ?_⟩
  obtain ⟨fate, hat⟩ := hs.requester hmem
  exact ⟨fate, hat, hs.poll_eq hat⟩

/-- A consumer asks for a broadcast, and a handler receives the request and accepts it. -/
def served : List DynamicOp :=
  [.origin (.consume 0), .dynamic, .request 0 (Path.new ['b']), .requestedBroadcast,
    .accept 0 OriginSystem.remote₁]

/-- The consumer gets the broadcast that the handler has accepted with. -/
theorem requests_settled_accepted :
    ∃ h, run step (init ⟨1⟩) served = .ok h ∧
      h.requesters = [(Path.new ['b'], .pending 0)] ∧ h.received = [0] ∧
      h.requests[0]? = some (Path.new ['b'], .accepted OriginSystem.remote₁) ∧
      h.system.poll (.pending 0) = some (.ok OriginSystem.remote₁) := by
  have hsettled := requests_settled ⟨1⟩ served rfl
  obtain ⟨fate, hfate, hpoll⟩ := hsettled.2.2.2.2.2.2.2.2 (Path.new ['b']) 0 mem_cons_self
  cases hfate
  exact ⟨_, rfl, rfl, rfl, rfl, hpoll⟩

end RequestHistory

end HermitMoq
