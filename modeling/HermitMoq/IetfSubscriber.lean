import HermitMoq.Broadcast
import HermitMoq.ControlMessage

/-!
# The Subscriber of an IETF Session

The model of `moq-net/src/ietf/subscriber.rs`. A subscriber keeps four maps: the tracks it
receives by request id, request ids by track alias, announced broadcasts by path, and paths by
the id of the `PUBLISH` that announced them. A track is received because we sent a `SUBSCRIBE`
for it, or because the peer sent a `PUBLISH`. A broadcast is announced as long as one of the
messages that announce it is in effect.

A message of the peer is one step, and so is the end of a stream. A subscription of ours is a
task of several steps: it takes a request id, registers its track once its stream is open, waits
for the response, and in the end removes its track and its alias under two separate locks.

Tracks are identities here. Of a broadcast the model has the names in its lookup, which decide
whether a track can be inserted, and of the announcements that are in effect it has a record.
-/

namespace HermitMoq

open List

open Broadcast (TrackId)

/-- A track alias. -/
abbrev TrackAlias := ℕ

/-- `TrackState`. -/
structure TrackState where
  /-- The track that groups are created in. -/
  producer : TrackId
  /-- The alias of the track, once it is known. -/
  trackAlias : Option TrackAlias
  deriving DecidableEq, Repr

/-- `BroadcastState`. -/
structure BroadcastState where
  /-- The names in the lookup of the broadcast. -/
  tracks : List String
  /-- The active number of messages that announce it. -/
  count : ℕ
  deriving DecidableEq, Repr

/-- The announced broadcasts. -/
abbrev Broadcasts := Path → Option BroadcastState

/-- `Publish`. -/
structure PublishMessage where
  requestId : RequestId
  trackNamespace : Path
  trackName : String
  trackAlias : TrackAlias
  deriving DecidableEq

/-- The errors of the subscriber. -/
inductive SubscriberError
  | invalidRole
  | duplicate
  | notFound
  deriving DecidableEq, Repr

/-- A subscriber with its tasks. -/
structure IetfSubscriber where
  /-- Whether there is an origin to publish into. -/
  origin : Bool
  subscribes : RequestId → Option TrackState
  aliases : TrackAlias → Option RequestId
  broadcasts : Broadcasts
  publishes : RequestId → Option Path
  /-- The request id that `Control` gives out next. -/
  requestIdNext : RequestId
  /-- The identity of the next track. -/
  nextTrack : TrackId
  /-- The ids of our subscriptions that open their stream. -/
  opening : List RequestId
  /-- Our registered subscriptions; the alias is the one of `SUBSCRIBE_OK`. -/
  subscribing : List (RequestId × TrackState)
  /-- Our subscriptions that have removed their track but not yet their alias. -/
  releasing : List (RequestId × TrackAlias)
  /-- The accepted `PUBLISH` messages whose stream is open. -/
  publishing : List (RequestId × Path)
  /-- The accepted `PUBLISH_NAMESPACE` messages whose stream is open. -/
  announcing : List Path
  /-- The `NAMESPACE` messages that are not done. -/
  namespaces : List Path

/-- The steps of a subscriber. -/
inductive SubscriberOp
  /-- `PUBLISH` arrives. -/
  | recvPublish (msg : PublishMessage)
  /-- The stream of an accepted `PUBLISH` ends. -/
  | endPublish (i : ℕ)
  /-- `PUBLISH_NAMESPACE` arrives. -/
  | recvPublishNamespace (path : Path)
  /-- The stream of an accepted `PUBLISH_NAMESPACE` ends. -/
  | endPublishNamespace (i : ℕ)
  /-- `NAMESPACE` arrives. -/
  | recvNamespace (path : Path)
  /-- `NAMESPACE_DONE` arrives. -/
  | recvNamespaceDone (path : Path)
  /-- A consumer asks a broadcast for a track, which enters the lookup. -/
  | subscribeTrack (path : Path) (name : String)
  /-- A track leaves the lookup of a broadcast. -/
  | evictTrack (path : Path) (name : String)
  /-- A subscription of ours takes a request id. -/
  | nextRequestId
  /-- It fails to open its stream. -/
  | openFailed (i : ℕ)
  /-- It registers its track. -/
  | subscribe (i : ℕ)
  /-- `SUBSCRIBE_OK` arrives. -/
  | subscribeOk (i : ℕ) (trackAlias : TrackAlias)
  /-- `SUBSCRIBE` cannot be written, or is answered with an error. -/
  | subscribeError (i : ℕ)
  /-- A confirmed subscription ends and removes its track. -/
  | unsubscribe (i : ℕ)
  /-- It removes its alias. -/
  | release (i : ℕ)

/-- The answer to a message. -/
inductive SubscriberReply
  | none
  | ok
  | error (e : SubscriberError)
  deriving DecidableEq, Repr

namespace IetfSubscriber

/-- `Subscriber::new`, with the first request id of its `Control`. -/
def new (origin : Bool) (requestIdNext : RequestId) : IetfSubscriber :=
  ⟨origin, fun _ => none, fun _ => none, fun _ => none, fun _ => none, requestIdNext, 0,
    [], [], [], [], [], []⟩

/-! ### Announcements -/

/-- `start_announce`: the broadcasts after it. -/
def startAnnounce (s : IetfSubscriber) (path : Path) : Except SubscriberError Broadcasts :=
  if s.origin then
    match s.broadcasts path with
    | some b => .ok (Function.update s.broadcasts path (some ⟨b.tracks, b.count + 1⟩))
    | none => .ok (Function.update s.broadcasts path (some ⟨[], 1⟩))
  else .error .invalidRole

/-- `stop_announce`: the broadcasts after it. -/
def stopAnnounce (s : IetfSubscriber) (path : Path) : Except SubscriberError Broadcasts :=
  if s.origin then
    match s.broadcasts path with
    | some b =>
      .ok (Function.update s.broadcasts path
        (if b.count - 1 = 0 then none else some ⟨b.tracks, b.count - 1⟩))
    | none => .error .notFound
  else .error .invalidRole

/-- The broadcasts after a `stop_announce` whose error is ignored. -/
def unannounced (s : IetfSubscriber) (path : Path) : Broadcasts :=
  match s.stopAnnounce path with
  | .ok broadcasts => broadcasts
  | .error _ => s.broadcasts

/-- `insert_track` on the broadcast of a path: the broadcasts after it. -/
def insertTrack (broadcasts : Broadcasts) (path : Path) (name : String) :
    Except SubscriberError Broadcasts :=
  match broadcasts path with
  | some b =>
    if name ∈ b.tracks then .error .duplicate
    else .ok (Function.update broadcasts path (some ⟨name :: b.tracks, b.count⟩))
  | none => .error .notFound

/-- The entries that `start_publish` makes under the lock. -/
def addPublish (s : IetfSubscriber) (msg : PublishMessage) : IetfSubscriber :=
  { s with
    subscribes := Function.update s.subscribes msg.requestId
      (some ⟨s.nextTrack, some msg.trackAlias⟩)
    aliases := Function.update s.aliases msg.trackAlias (some msg.requestId)
    publishes := Function.update s.publishes msg.requestId (some msg.trackNamespace)
    nextTrack := s.nextTrack + 1 }

/-- `start_publish`. A taken alias undoes the insertion of the track; the later errors undo
nothing. -/
def startPublish (s : IetfSubscriber) (msg : PublishMessage) :
    IetfSubscriber × Option SubscriberError :=
  if (s.subscribes msg.requestId).isSome then (s, some .duplicate)
  else if (s.aliases msg.trackAlias).isSome then (s, some .duplicate)
  else
    match (s.addPublish msg).startAnnounce msg.trackNamespace with
    | .error e => (s.addPublish msg, some e)
    | .ok announced =>
      match insertTrack announced msg.trackNamespace msg.trackName with
      | .error e => ({ s.addPublish msg with broadcasts := announced }, some e)
      | .ok inserted => ({ s.addPublish msg with broadcasts := inserted }, none)

/-- Remove a track and its alias. -/
def removeTrack (s : IetfSubscriber) (id : RequestId) : IetfSubscriber :=
  { s with
    subscribes := Function.update s.subscribes id none
    aliases :=
      match (s.subscribes id).bind TrackState.trackAlias with
      | some trackAlias => Function.update s.aliases trackAlias none
      | none => s.aliases }

/-- The clean up of `run_publish_stream`. -/
def cleanUpPublish (s : IetfSubscriber) (id : RequestId) : IetfSubscriber :=
  { s.removeTrack id with
    publishes := Function.update s.publishes id none
    broadcasts :=
      match s.publishes id with
      | some path => s.unannounced path
      | none => s.broadcasts }

/-! ### Groups -/

/-- The track in which `recv_group` creates a group, with its request id. -/
def recvGroup (s : IetfSubscriber) (trackAlias : TrackAlias) :
    Except SubscriberError (RequestId × TrackId) :=
  match s.subscribes ((s.aliases trackAlias).getD trackAlias) with
  | some t => .ok ((s.aliases trackAlias).getD trackAlias, t.producer)
  | none => .error .notFound

/-! ### Steps -/

/-- Change the lookup of a broadcast. -/
def updateTracks (s : IetfSubscriber) (path : Path) (f : List String → List String) :
    IetfSubscriber :=
  { s with
    broadcasts := Function.update s.broadcasts path
      ((s.broadcasts path).map fun b => ⟨f b.tracks, b.count⟩) }

/-- One step, with the answer to a message. -/
def step (s : IetfSubscriber) : SubscriberOp → IetfSubscriber × SubscriberReply
  | .recvPublish msg =>
    match s.startPublish msg with
    | (s', none) =>
      ({ s' with publishing := (msg.requestId, msg.trackNamespace) :: s'.publishing }, .ok)
    | (s', some e) => (s', .error e)
  | .endPublish i =>
    match s.publishing[i]? with
    | some (id, _) =>
      ({ s.cleanUpPublish id with publishing := s.publishing.eraseIdx i }, .none)
    | none => (s, .none)
  | .recvPublishNamespace path =>
    match s.startAnnounce path with
    | .ok bs => ({ s with broadcasts := bs, announcing := path :: s.announcing }, .ok)
    | .error e => (s, .error e)
  | .endPublishNamespace i =>
    match s.announcing[i]? with
    | some path =>
      ({ s with
        broadcasts := s.unannounced path
        announcing := s.announcing.eraseIdx i }, .none)
    | none => (s, .none)
  | .recvNamespace path =>
    match s.startAnnounce path with
    | .ok bs => ({ s with broadcasts := bs, namespaces := path :: s.namespaces }, .none)
    | .error _ => (s, .none)
  | .recvNamespaceDone path =>
    ({ s with
      broadcasts := s.unannounced path
      namespaces := s.namespaces.erase path }, .none)
  | .subscribeTrack path name =>
    (s.updateTracks path fun names => if name ∈ names then names else name :: names, .none)
  | .evictTrack path name => (s.updateTracks path fun names => names.erase name, .none)
  | .nextRequestId =>
    ({ s with
      requestIdNext := s.requestIdNext + 2
      opening := s.requestIdNext :: s.opening }, .none)
  | .openFailed i => ({ s with opening := s.opening.eraseIdx i }, .none)
  | .subscribe i =>
    match s.opening[i]? with
    | some id =>
      ({ s with
        subscribes := Function.update s.subscribes id (some ⟨s.nextTrack, none⟩)
        nextTrack := s.nextTrack + 1
        opening := s.opening.eraseIdx i
        subscribing := (id, ⟨s.nextTrack, none⟩) :: s.subscribing }, .none)
    | none => (s, .none)
  | .subscribeOk i trackAlias =>
    match s.subscribing[i]? with
    | some (id, ⟨track, none⟩) =>
      ({ s with
        aliases := Function.update s.aliases trackAlias (some id)
        subscribes := Function.update s.subscribes id
          ((s.subscribes id).map fun t => ⟨t.producer, some trackAlias⟩)
        subscribing := (id, ⟨track, some trackAlias⟩) :: s.subscribing.eraseIdx i }, .none)
    | _ => (s, .none)
  | .subscribeError i =>
    match s.subscribing[i]? with
    | some (id, ⟨_, none⟩) =>
      ({ s with
        subscribes := Function.update s.subscribes id none
        subscribing := s.subscribing.eraseIdx i }, .none)
    | _ => (s, .none)
  | .unsubscribe i =>
    match s.subscribing[i]? with
    | some (id, ⟨_, some trackAlias⟩) =>
      ({ s with
        subscribes := Function.update s.subscribes id none
        subscribing := s.subscribing.eraseIdx i
        releasing := (id, trackAlias) :: s.releasing }, .none)
    | _ => (s, .none)
  | .release i =>
    match s.releasing[i]? with
    | some (_, trackAlias) =>
      ({ s with
        aliases := Function.update s.aliases trackAlias none
        releasing := s.releasing.eraseIdx i }, .none)
    | none => (s, .none)

/-- A step as an action that cannot fail. -/
def tick (s : IetfSubscriber) (op : SubscriberOp) : Except Empty IetfSubscriber :=
  .ok (s.step op).1

/-! ### What a publish changes -/

/-- The names in the lookup of the broadcast at a path. -/
def lookup (s : IetfSubscriber) (path : Path) : List String :=
  match s.broadcasts path with
  | some b => b.tracks
  | none => []

/-- With an origin an announcement succeeds, and keeps the lookup. -/
theorem startAnnounce_of_origin {s : IetfSubscriber} (ho : s.origin = true) (path : Path) :
    ∃ count, s.startAnnounce path =
      .ok (Function.update s.broadcasts path (some ⟨s.lookup path, count⟩)) := by
  rw [startAnnounce, if_pos ho, lookup]
  cases s.broadcasts path with
  | some b => exact ⟨b.count + 1, rfl⟩
  | none => exact ⟨1, rfl⟩

theorem insertTrack_of_free {bs : Broadcasts} {path : Path} {b : BroadcastState}
    (hb : bs path = some b) {name : String} (hname : name ∉ b.tracks) :
    insertTrack bs path name =
      .ok (Function.update bs path (some ⟨name :: b.tracks, b.count⟩)) := by
  simp only [insertTrack, hb, if_neg hname]

/-- A publish with a taken id or alias changes nothing. Any other one makes its entries, and is
accepted if there is an origin and the name of its track is free. -/
theorem startPublish_cases (s : IetfSubscriber) (msg : PublishMessage) :
    (s.subscribes msg.requestId ≠ none ∨ s.aliases msg.trackAlias ≠ none) ∧
        s.startPublish msg = (s, some .duplicate) ∨
      (s.subscribes msg.requestId = none ∧ s.aliases msg.trackAlias = none) ∧
        ((s.origin = true ∧ msg.trackName ∉ s.lookup msg.trackNamespace) ∧
            (∃ announced bs, s.startAnnounce msg.trackNamespace = .ok announced ∧
              insertTrack announced msg.trackNamespace msg.trackName = .ok bs ∧
              s.startPublish msg = ({ s.addPublish msg with broadcasts := bs }, none)) ∨
          ¬ (s.origin = true ∧ msg.trackName ∉ s.lookup msg.trackNamespace) ∧
            ∃ bs e, s.startPublish msg = ({ s.addPublish msg with broadcasts := bs }, some e)) := by
  rw [startPublish]
  split_ifs with hid halias
  · exact .inl ⟨.inl (Option.isSome_iff_ne_none.mp hid), rfl⟩
  · exact .inl ⟨.inr (Option.isSome_iff_ne_none.mp halias), rfl⟩
  · rw [Option.not_isSome_iff_eq_none] at hid halias
    refine .inr ⟨⟨hid, halias⟩, ?_⟩
    -- the announcement does not depend on the entries made before it
    have hann : (s.addPublish msg).startAnnounce msg.trackNamespace =
      s.startAnnounce msg.trackNamespace := rfl
    by_cases ho : s.origin = true
    · obtain ⟨count, hok⟩ := startAnnounce_of_origin ho msg.trackNamespace
      rw [hann, hok]
      by_cases hname : msg.trackName ∈ s.lookup msg.trackNamespace
      · refine .inr ⟨fun h => h.2 hname, ?_⟩
        simp only [insertTrack, Function.update_self, if_pos hname]
        exact ⟨_, _, rfl⟩
      · have hinsert := insertTrack_of_free
          (Function.update_self msg.trackNamespace
            (some ⟨s.lookup msg.trackNamespace, count⟩) s.broadcasts) hname
        refine .inl ⟨⟨ho, hname⟩, _, _, rfl, hinsert, ?_⟩
        simp only [hinsert]
    · refine .inr ⟨fun h => ho h.1, s.broadcasts, .invalidRole, ?_⟩
      rw [hann, startAnnounce, if_neg ho]
      rfl

/-- The state after a `PUBLISH`. -/
theorem step_recvPublish (s : IetfSubscriber) (msg : PublishMessage) :
    (s.step (.recvPublish msg)).1 = s ∨
      s.subscribes msg.requestId = none ∧ s.aliases msg.trackAlias = none ∧
        ∃ bs pubs, (s.step (.recvPublish msg)).1 =
            { s.addPublish msg with broadcasts := bs, publishing := pubs } ∧
          (pubs = s.publishing ∨ pubs = (msg.requestId, msg.trackNamespace) :: s.publishing) := by
  rcases s.startPublish_cases msg with ⟨-, h⟩ | ⟨⟨hid, halias⟩, h⟩
  · exact .inl (by rw [step, h])
  · refine .inr ⟨hid, halias, ?_⟩
    rcases h with ⟨-, _, bs, -, -, h⟩ | ⟨-, bs, _, h⟩
    · refine ⟨bs, _, ?_, .inr rfl⟩
      rw [step, h]
      rfl
    · refine ⟨bs, _, ?_, .inl rfl⟩
      rw [step, h]
      rfl

/-! ### The entries of tasks -/

/-- The entries of tasks: each registered subscription finds its own track in the map, each
accepted publish finds some track, and no two of them share a request id. -/
structure Held (entries : RequestId → Option TrackState) (subs : List (RequestId × TrackState))
    (pubs : List (RequestId × Path)) : Prop where
  subscribing : ∀ x ∈ subs, entries x.1 = some x.2
  publishing : ∀ x ∈ pubs, entries x.1 ≠ none
  distinct : (subs.map Prod.fst ++ pubs.map Prod.fst).Nodup

/-- Tasks find the entries that they have made. -/
def Owned (s : IetfSubscriber) : Prop :=
  Held s.subscribes s.subscribing s.publishing

variable {s : IetfSubscriber} {entries : RequestId → Option TrackState} {id : RequestId}
  {subs : List (RequestId × TrackState)} {pubs : List (RequestId × Path)}

section

variable (h : Held entries subs pubs)

include h

/-- A vacant entry belongs to no task. -/
theorem Held.notMem (hid : entries id = none) :
    id ∉ subs.map Prod.fst ++ pubs.map Prod.fst := by
  rw [mem_append, mem_map, mem_map]
  rintro (⟨x, hx, rfl⟩ | ⟨x, hx, rfl⟩)
  · rw [h.subscribing x hx] at hid
    cases hid
  · exact h.publishing x hx hid

section

variable (hid : id ∉ subs.map Prod.fst ++ pubs.map Prod.fst) (t : TrackState)

include hid

/-- Entries of other ids may change. -/
theorem Held.update (e : Option TrackState) :
    Held (Function.update entries id e) subs pubs := by
  rw [mem_append, mem_map, mem_map, not_or] at hid
  refine ⟨fun x hx => ?_, fun x hx => ?_, h.distinct⟩
  · rw [Function.update_of_ne fun heq => hid.1 ⟨x, hx, heq⟩]
    exact h.subscribing x hx
  · rw [Function.update_of_ne fun heq => hid.2 ⟨x, hx, heq⟩]
    exact h.publishing x hx

theorem Held.addSubscription :
    Held (Function.update entries id (some t)) ((id, t) :: subs) pubs := by
  have hrest := h.update hid (some t)
  refine ⟨fun x hx => ?_, hrest.publishing, nodup_cons.mpr ⟨hid, h.distinct⟩⟩
  rcases mem_cons.mp hx with rfl | hx
  · exact Function.update_self ..
  · exact hrest.subscribing x hx

theorem Held.addPublish (path : Path) :
    Held (Function.update entries id (some t)) subs ((id, path) :: pubs) := by
  have hrest := h.update hid (some t)
  refine ⟨hrest.subscribing, fun x hx => ?_, ?_⟩
  · rcases mem_cons.mp hx with rfl | hx
    · simp
    · exact hrest.publishing x hx
  · exact perm_middle.nodup_iff.mpr (nodup_cons.mpr ⟨hid, h.distinct⟩)

end

/-- A task that is gone no longer owns its id. -/
theorem Held.eraseSubscription {i : ℕ} {t : TrackState}
    (hi : subs[i]? = some (id, t)) : Held entries (subs.eraseIdx i) pubs ∧
      id ∉ (subs.eraseIdx i).map Prod.fst ++ pubs.map Prod.fst := by
  have hperm : ((id :: (subs.eraseIdx i).map Prod.fst) ++ pubs.map Prod.fst).Nodup := by
    refine (List.Perm.nodup_iff (List.Perm.append_right _ ?_)).mp h.distinct
    exact (perm_cons_eraseIdx hi).map Prod.fst
  obtain ⟨hid, hdistinct⟩ := nodup_cons.mp hperm
  exact ⟨⟨fun x hx => h.subscribing x (mem_of_mem_eraseIdx hx), h.publishing, hdistinct⟩,
    hid⟩

theorem Held.erasePublish {i : ℕ} {path : Path}
    (hi : pubs[i]? = some (id, path)) : Held entries subs (pubs.eraseIdx i) ∧
      id ∉ subs.map Prod.fst ++ (pubs.eraseIdx i).map Prod.fst := by
  have hperm : (id :: (subs.map Prod.fst ++ (pubs.eraseIdx i).map Prod.fst)).Nodup := by
    refine (List.Perm.nodup_iff ?_).mp h.distinct
    refine List.Perm.trans (List.Perm.append_left _ ?_) perm_middle
    exact (perm_cons_eraseIdx hi).map Prod.fst
  obtain ⟨hid, hdistinct⟩ := nodup_cons.mp hperm
  exact ⟨⟨h.subscribing, fun x hx => h.publishing x (mem_of_mem_eraseIdx hx), hdistinct⟩,
    hid⟩

end

/-- The id under which a subscription of ours registers. -/
def registers (s : IetfSubscriber) : SubscriberOp → Option RequestId
  | .subscribe i => s.opening[i]?
  | _ => none

/-- A subscription of ours registers under an id that has no track: the peer does not publish
under ids of ours. -/
def Vacant (s : IetfSubscriber) (op : SubscriberOp) : Prop :=
  ∀ id ∈ s.registers op, s.subscribes id = none

instance Vacant.decidable (s : IetfSubscriber) (op : SubscriberOp) : Decidable (s.Vacant op) :=
  inferInstanceAs (Decidable (∀ id ∈ s.registers op, s.subscribes id = none))

/-- A step keeps the entries of the tasks. -/
theorem Owned.step (hs : s.Owned) {op : SubscriberOp} (hop : s.Vacant op) :
    (s.step op).1.Owned := by
  cases op with
  | recvPublish msg =>
    rcases s.step_recvPublish msg with h | ⟨hid, -, _, _, h, rfl | rfl⟩ <;> rw [h]
    · exact hs
    · exact Held.update hs (Held.notMem hs hid) _
    · exact Held.addPublish hs (Held.notMem hs hid) _ _
  | endPublish i =>
    rw [IetfSubscriber.step]
    split
    next id path hi =>
      obtain ⟨hrest, hid⟩ := Held.erasePublish hs hi
      exact hrest.update hid none
    next => exact hs
  | subscribe i =>
    rw [IetfSubscriber.step]
    split
    next id hi => exact Held.addSubscription hs (Held.notMem hs (hop id hi)) _
    next => exact hs
  | subscribeOk i trackAlias =>
    rw [IetfSubscriber.step]
    split
    next id track hi =>
      obtain ⟨hrest, hid⟩ := Held.eraseSubscription hs hi
      have hentry := Held.subscribing hs _ (mem_of_getElem? hi)
      simp only [Owned, hentry, Option.map_some]
      exact hrest.addSubscription hid _
    next => exact hs
  | subscribeError i =>
    rw [IetfSubscriber.step]
    split
    next id track hi =>
      obtain ⟨hrest, hid⟩ := Held.eraseSubscription hs hi
      exact hrest.update hid none
    next => exact hs
  | unsubscribe i =>
    rw [IetfSubscriber.step]
    split
    next id track trackAlias hi =>
      obtain ⟨hrest, hid⟩ := Held.eraseSubscription hs hi
      exact hrest.update hid none
    next => exact hs
  | recvPublishNamespace path | recvNamespace path | endPublishNamespace i | release i =>
    rw [IetfSubscriber.step]
    split <;> exact hs
  | recvNamespaceDone path | subscribeTrack path name | evictTrack path name | nextRequestId
  | openFailed i => exact hs

end IetfSubscriber

end HermitMoq
