import HermitMoq.Confinement

/-!
# Broadcasts Requested on Demand

The model of `OriginDynamicState`, `OriginDynamic`, `BroadcastRequest` and
`OriginConsumer::request_broadcast` in `moq-net/src/model/origin.rs`, over the model of the
origin. A request for a path that is not announced waits in a queue that all handles of the
origin share, keyed by the absolute path, until a handler picks it up and resolves it.

The lookup of announced broadcasts goes through the nodes of the consumer and so respects its
scope; the queue does not look at them.
-/

namespace HermitMoq

/-- The identity of the result channel of a request. -/
abbrev ChannelId := ℕ

/-- The errors a request resolves to. -/
inductive RequestError
  /-- `Error::Unroutable`. -/
  | unroutable
  /-- `Error::Dropped`. -/
  | dropped
  /-- The error given to `BroadcastRequest::reject`. -/
  | rejected (code : ℕ)
  deriving DecidableEq

/-- `OriginDynamicState`. -/
structure OriginDynamicState where
  /-- The result channels of the queued requests, by absolute path. -/
  requests : AList fun _ : Path => ChannelId
  /-- The requested paths, oldest first. -/
  requestOrder : List Path
  /-- The number of live handlers. -/
  dynamic : ℕ

namespace OriginDynamicState

/-- `OriginDynamicState::default`. -/
def default : OriginDynamicState := ⟨∅, [], 0⟩

/-- `OriginDynamicState::reject_requests`. -/
def rejectRequests (s : OriginDynamicState) : OriginDynamicState := ⟨∅, [], s.dynamic⟩

/-- The effect of `OriginDynamic::drop`. -/
def dropHandler (s : OriginDynamicState) : OriginDynamicState :=
  let s := { s with dynamic := s.dynamic - 1 }
  if s.dynamic = 0 then s.rejectRequests else s

end OriginDynamicState

/-- `BroadcastRequested`: what `request_broadcast` returns. -/
inductive BroadcastRequested
  | ready (broadcast : BroadcastConsumer)
  | failed (error : RequestError)
  | pending (channel : ChannelId)
  deriving DecidableEq

/-- An origin with its request queue. -/
structure DynamicOrigin where
  origin : OriginSystem
  state : OriginDynamicState
  /-- Whether every producer and handler was dropped. -/
  gone : Bool
  /-- The requests that handlers have picked up: their paths and channels. -/
  serving : List (Path × ChannelId)
  /-- The results that were written. -/
  resolved : ChannelId → Option (Except RequestError BroadcastConsumer)
  /-- The number of channels created so far. -/
  channels : ℕ

/-- The operations on the queue. -/
inductive DynamicOp
  /-- An operation on the origin. -/
  | origin (op : OriginOp)
  /-- `OriginProducer::dynamic` or `OriginDynamic::clone`. -/
  | dynamic
  /-- `OriginDynamic::drop`. -/
  | dropDynamic
  /-- The last producer is dropped while no handler is alive. -/
  | dropOrigin
  /-- `OriginConsumer::request_broadcast`. -/
  | request (consumer : ConsumerId) (path : Path)
  /-- `OriginDynamic::requested_broadcast`. -/
  | requestedBroadcast
  /-- `BroadcastRequest::accept`. -/
  | accept (request : ℕ) (broadcast : BroadcastConsumer)
  /-- `BroadcastRequest::reject`. -/
  | reject (request : ℕ) (code : ℕ)
  /-- A `BroadcastRequest` is dropped. -/
  | dropRequest (request : ℕ)

/-- Why an operation panics. -/
inductive DynamicPanic
  /-- An operation on the origin panics. -/
  | origin (e : Panic)
  /-- `expect("request_order out of sync")`. -/
  | outOfSync
  deriving DecidableEq

namespace DynamicOrigin

/-- A new origin. -/
def init (info : Origin) : DynamicOrigin :=
  ⟨.init info, .default, false, [], fun _ => none, 0⟩

/-- `OriginConsumer::request_broadcast`. -/
def request (s : DynamicOrigin) (c : OriginConsumer) (path : Path) :
    DynamicOrigin × BroadcastRequested :=
  match c.getBroadcast s.origin path with
  | some broadcast => (s, .ready broadcast)
  | none =>
    if s.gone then (s, .failed .dropped)
    else
      match s.state.requests.lookup (c.root.join path) with
      | some channel => (s, .pending channel)
      | none =>
        if s.state.dynamic = 0 then (s, .failed .unroutable)
        else
          ({ s with
              state := { s.state with
                requests := s.state.requests.insert (c.root.join path) s.channels
                requestOrder := s.state.requestOrder ++ [c.root.join path] }
              channels := s.channels + 1 },
            .pending s.channels)

/-- `BroadcastRequested::poll_ok`; `none` stands for `Poll::Pending`. A channel closes without a
result when its producer is dropped, in the queue or by the handler. -/
def poll (s : DynamicOrigin) :
    BroadcastRequested → Option (Except RequestError BroadcastConsumer)
  | .ready broadcast => some (.ok broadcast)
  | .failed error => some (.error error)
  | .pending channel =>
    match s.resolved channel with
    | some result => some result
    | none =>
      if channel ∈ s.state.requests.entries.map Sigma.snd ∨ channel ∈ s.serving.map Prod.snd
      then none
      else some (.error .unroutable)

/-- `OriginDynamic::poll_requested_broadcast`. -/
def requestedBroadcast (s : DynamicOrigin) : Except DynamicPanic DynamicOrigin :=
  match s.state.requestOrder with
  | [] => .ok s
  | path :: order =>
    match s.state.requests.lookup path with
    | none => .error .outOfSync
    | some channel =>
      .ok { s with
        state := ⟨s.state.requests.erase path, order, s.state.dynamic⟩
        serving := s.serving ++ [(path, channel)] }

/-- A handler resolves a request and drops it. -/
def resolve (s : DynamicOrigin) (i : ℕ)
    (result : Option (Except RequestError BroadcastConsumer)) : DynamicOrigin :=
  match s.serving[i]? with
  | none => s
  | some (_, channel) =>
    { s with
      serving := s.serving.eraseIdx i
      resolved := Function.update s.resolved channel result }

/-- One operation. -/
def step (s : DynamicOrigin) : DynamicOp → Except DynamicPanic DynamicOrigin
  | .origin op =>
    match s.origin.step op with
    | .ok origin => .ok { s with origin }
    | .error e => .error (.origin e)
  | .dynamic =>
    if s.gone then .ok s
    else .ok { s with state := { s.state with dynamic := s.state.dynamic + 1 } }
  | .dropDynamic => .ok { s with state := s.state.dropHandler }
  | .dropOrigin => if s.state.dynamic = 0 then .ok { s with gone := true } else .ok s
  | .request consumer path =>
    match s.origin.live consumer with
    | some c => .ok (s.request c path).1
    | none => .ok s
  | .requestedBroadcast => s.requestedBroadcast
  | .accept request broadcast => .ok (s.resolve request (some (.ok broadcast)))
  | .reject request code => .ok (s.resolve request (some (.error (.rejected code))))
  | .dropRequest request => .ok (s.resolve request none)

/-! ### Without a handler nothing is queued -/

/-- Without a handler nothing is queued, and an origin that is gone has no handler. -/
structure Queued (s : DynamicOrigin) : Prop where
  empty : s.state.dynamic = 0 → s.state.requests = ∅
  gone : s.gone = true → s.state.dynamic = 0

theorem queued_init (info : Origin) : (init info).Queued := ⟨fun _ => rfl, nofun⟩

section Queued

variable {s s' : DynamicOrigin}

section

variable (hs : s.Queued)

include hs

/-- A request is queued only if there is a handler. -/
theorem Queued.request (c : OriginConsumer) (path : Path) :
    (s.request c path).1.Queued := by
  unfold DynamicOrigin.request
  cases c.getBroadcast s.origin path with
  | some broadcast => exact hs
  | none =>
    by_cases hgone : s.gone = true
    · simpa only [if_pos hgone] using hs
    · simp only [if_neg hgone]
      cases s.state.requests.lookup (c.root.join path) with
      | some channel => exact hs
      | none =>
        by_cases hzero : s.state.dynamic = 0
        · simpa only [if_pos hzero] using hs
        · simp only [if_neg hzero]
          exact ⟨fun h => absurd h hzero, hs.gone⟩

/-- Taking a request queues none. -/
theorem Queued.requestedBroadcast (h : s.requestedBroadcast = .ok s') :
    s'.Queued := by
  unfold DynamicOrigin.requestedBroadcast at h
  split at h
  · cases h
    exact hs
  · split at h
    · cases h
    · rename_i hlook
      cases h
      refine ⟨fun hzero => ?_, hs.gone⟩
      rw [hs.empty hzero] at hlook
      cases hlook

theorem Queued.resolve (i : ℕ)
    (result : Option (Except RequestError BroadcastConsumer)) : (s.resolve i result).Queued := by
  unfold DynamicOrigin.resolve
  split
  · exact hs
  · exact ⟨hs.empty, hs.gone⟩

/-- The last handler takes the queue with it. -/
theorem Queued.dropHandler :
    ({ s with state := s.state.dropHandler } : DynamicOrigin).Queued := by
  by_cases hzero : s.state.dynamic - 1 = 0
  · have hdrop : s.state.dropHandler = ⟨∅, [], s.state.dynamic - 1⟩ := if_pos hzero
    rw [hdrop]
    exact ⟨fun _ => rfl, fun _ => hzero⟩
  · have hdrop : s.state.dropHandler = { s.state with dynamic := s.state.dynamic - 1 } :=
      if_neg hzero
    rw [hdrop]
    exact ⟨fun h => absurd h hzero, fun hgone => absurd (by rw [hs.gone hgone]) hzero⟩

/-- No step queues a request without a handler. -/
theorem Queued.step {op : DynamicOp} (h : s.step op = .ok s') : s'.Queued := by
  cases op with
  | origin op =>
    simp only [DynamicOrigin.step] at h
    split at h
    · cases h
      exact ⟨hs.empty, hs.gone⟩
    · cases h
  | dynamic =>
    simp only [DynamicOrigin.step] at h
    split_ifs at h with hgone
    · cases h
      exact hs
    · cases h
      exact ⟨fun hzero => absurd hzero (Nat.succ_ne_zero _), fun hg => absurd hg hgone⟩
  | dropDynamic =>
    cases h
    exact hs.dropHandler
  | dropOrigin =>
    simp only [DynamicOrigin.step] at h
    split_ifs at h with hzero
    · cases h
      exact ⟨hs.empty, fun _ => hzero⟩
    · cases h
      exact hs
  | request consumer path =>
    simp only [DynamicOrigin.step] at h
    split at h
    · cases h
      exact hs.request _ _
    · cases h
      exact hs
  | requestedBroadcast => exact hs.requestedBroadcast h
  | accept request broadcast | reject request code | dropRequest request =>
    cases h
    exact hs.resolve _ _

end

end Queued

/-! ### Requests outside of the scope -/

/-- **Scopes bound requests.** In every state of an origin, a request of a path that its consumer
may not read leaves the queue alone, joins no request, and never resolves to a broadcast, if and
only if no handler is alive. -/
theorem scope_bounds_requests_iff (info : Origin) (ops : List DynamicOp) {s : DynamicOrigin}
    (hrun : run DynamicOrigin.step (init info) ops = .ok s) (consumer : ConsumerId)
    {c : OriginConsumer} (hc : s.origin.live consumer = some c) (path : Path)
    (hpath : ¬ c.nodes.Permits path) :
    s.step (.request consumer path) = .ok (s.request c path).1 ∧
      (((s.request c path).1.state = s.state ∧
          (∀ channel, (s.request c path).2 ≠ .pending channel) ∧
          ∀ later s', run DynamicOrigin.step (s.request c path).1 later = .ok s' →
            ∀ b, s'.poll (s.request c path).2 ≠ some (.ok b)) ↔
        s.state.dynamic = 0) := by
  refine ⟨by rw [step, hc], ?_⟩
  have hs : s.Queued := run_preserves (fun hs h => hs.step h) (queued_init info) hrun
  have hget := c.getBroadcast_eq_none hpath s.origin
  constructor
  · rintro ⟨-, hpending, -⟩
    by_contra hzero
    have hgone : ¬ s.gone = true := fun h => hzero (hs.gone h)
    cases hlook : s.state.requests.lookup (c.root.join path) with
    | some channel =>
      refine hpending channel ?_
      simp only [request, hget, if_neg hgone, hlook]
    | none =>
      refine hpending s.channels ?_
      simp only [request, hget, if_neg hgone, hlook, if_neg hzero]
  · intro hzero
    obtain ⟨e, he⟩ : ∃ e, s.request c path = (s, .failed e) := by
      by_cases hgone : s.gone = true
      · exact ⟨.dropped, by simp only [request, hget, if_pos hgone]⟩
      · refine ⟨.unroutable, ?_⟩
        simp only [request, hget, if_neg hgone, hs.empty hzero, AList.lookup_empty, if_pos hzero]
    rw [he]
    exact ⟨rfl, nofun, nofun⟩

/-- A consumer scoped to `a` on an origin without handlers. -/
theorem scope_bounds_requests_without_handler :
    ∃ s c, run DynamicOrigin.step (init ⟨1⟩)
        [.origin (.consume 0), .origin (.consumerScope 0 [OriginSystem.pathA])] = .ok s ∧
      s.origin.live 1 = some c ∧
      ∀ later s', run DynamicOrigin.step (s.request c (Path.new ['b'])).1 later = .ok s' →
        ∀ b, s'.poll (s.request c (Path.new ['b'])).2 ≠ some (.ok b) := by
  have h := scope_bounds_requests_iff ⟨1⟩
    [.origin (.consume 0), .origin (.consumerScope 0 [OriginSystem.pathA])] rfl 1 rfl
    (Path.new ['b']) (by decide)
  exact ⟨_, _, rfl, rfl, (h.2.mpr rfl).2.2⟩

/-- With a handler, a consumer scoped to `a` requests `b`. The request is queued, and a handler
that serves it hands the broadcast to the consumer. -/
theorem scoped_consumer_is_served :
    ∃ s s' c, run DynamicOrigin.step (init ⟨1⟩)
        [.origin (.consume 0), .origin (.consumerScope 0 [OriginSystem.pathA]), .dynamic] = .ok s ∧
      s.origin.live 1 = some c ∧ ¬ c.nodes.Permits (Path.new ['b']) ∧
      (s.request c (Path.new ['b'])).1.state.requestOrder = [Path.new ['b']] ∧
      run DynamicOrigin.step (s.request c (Path.new ['b'])).1
        [.requestedBroadcast, .accept 0 OriginSystem.remote₁] = .ok s' ∧
      s'.poll (s.request c (Path.new ['b'])).2 = some (.ok OriginSystem.remote₁) :=
  ⟨_, _, _, rfl, rfl, by decide, rfl, rfl, rfl⟩

end DynamicOrigin

end HermitMoq
