import HermitMoq.KioHandles
import Mathlib.Data.List.AList

/-!
# The Tracks of a Broadcast

The model of `moq-net/src/model/broadcast.rs`. A broadcast is a kio channel whose value is the
lookup of its tracks, the tracks that were requested on demand and the number of their handlers.
The lookup holds weak handles: a track closes when it is aborted or when its last producer is
dropped, whether the lookup has it or not.

Each step is one lock section. A call of `subscribe_track` upgrades its consumer first, which is a
step of the channel of its own, and drops the temporary producer afterwards (`release`). The same
holds for the task that removes an unused track. Whether a handle is the last producer is read
before the lock is taken and may be out of date by then, so it is an argument of the steps that
drop one.
-/

namespace HermitMoq

namespace Broadcast

/-- The identity of a track. -/
abbrev TrackId := ℕ

/-- The errors of a broadcast. -/
inductive Error
  /-- `Error::Duplicate`. -/
  | duplicate
  /-- `Error::NotFound`. -/
  | notFound
  /-- `Error::Dropped`. -/
  | dropped
  /-- Any error that `abort` was called with. -/
  | aborted (code : ℕ)
  deriving DecidableEq, Repr

/-- `State`, the value of the channel. -/
structure State where
  /-- The lookup, by name. -/
  tracks : AList fun _ : String => TrackId
  /-- The tracks that were requested and not picked up. -/
  requests : List TrackId
  /-- The number of dynamic producers. -/
  dynamic : ℕ
  /-- The error that aborted the broadcast. -/
  abort : Option Error

namespace State

/-- `State::default`. -/
def default : State := ⟨∅, [], 0, none⟩

/-- `State::insert_track`. -/
def insertTrack (s : State) (name : String) (t : TrackId) : Except Error State :=
  match s.tracks.lookup name with
  | some _ => .error .duplicate
  | none => .ok { s with tracks := s.tracks.insert name t }

/-- The lock section of `remove_track`. -/
def removeTrack (s : State) (name : String) : Except Error State :=
  match s.tracks.lookup name with
  | some _ => .ok { s with tracks := s.tracks.erase name }
  | none => .error .notFound

/-- The end of `subscribe_track`, when no open track has the name. -/
def requestTrack (s : State) (name : String) (fresh : TrackId) : State × Except Error TrackId :=
  if s.dynamic = 0 then (s, .error .notFound)
  else
    ({ s with
        tracks := s.tracks.insert name fresh
        requests := s.requests ++ [fresh] },
      .ok fresh)

/-- The lock section of `subscribe_track`; `fresh` is the track that it creates if need be. -/
def subscribeTrack (s : State) (isClosed : TrackId → Bool) (name : String) (fresh : TrackId) :
    State × Except Error TrackId :=
  match s.tracks.lookup name with
  | some t =>
    if isClosed t = false then (s, .ok t)
    else { s with tracks := s.tracks.erase name }.requestTrack name fresh
  | none => s.requestTrack name fresh

/-- The lock section of the task that removes an unused track. -/
def removeUnused (s : State) (nameOf : TrackId → String) (t : TrackId) : State :=
  match s.tracks.lookup (nameOf t) with
  | some current =>
    let tracks := s.tracks.erase (nameOf t)
    { s with tracks := if current = t then tracks else tracks.insert (nameOf current) current }
  | none => s

/-- The lock section of `BroadcastProducer::drop`. -/
def dropProducer (s : State) : State := { s with tracks := ∅, requests := [] }

/-- The lock section of `BroadcastDynamic::drop`. -/
def dropDynamic (s : State) (last : Bool) : State :=
  let s := if last then { s with tracks := ∅ } else s
  let s := { s with dynamic := s.dynamic - 1 }
  if s.dynamic ≠ 0 then s else { s with requests := [] }

/-- The lock section of `abort`. -/
def abortWith (s : State) (err : Error) : State :=
  { s with requests := [], tracks := ∅, abort := some err }

end State

/-- A track, as far as the broadcast looks at it. -/
structure TrackState where
  name : String
  /-- The number of its producers. -/
  producers : ℕ
  closed : Bool
  deriving DecidableEq

namespace TrackState

/-- `TrackProducer::new`. -/
def new (name : String) : TrackState := ⟨name, 1, false⟩

/-- `TrackProducer::clone`. -/
def clone (t : TrackState) : TrackState :=
  if t.producers = 0 then t else { t with producers := t.producers + 1 }

/-- `TrackProducer::drop`. -/
def drop (t : TrackState) : TrackState :=
  { t with producers := t.producers - 1, closed := t.closed || decide (t.producers ≤ 1) }

/-- `TrackProducer::abort`. -/
def abort (t : TrackState) : TrackState := { t with closed := true }

end TrackState

/-- A broadcast with its tracks and handles. -/
structure System where
  channel : Channel State
  /-- All tracks there have been. -/
  tracks : List TrackState
  /-- The number of `BroadcastProducer` handles. -/
  owners : ℕ
  /-- The number of `BroadcastDynamic` handles. -/
  handlers : ℕ
  /-- The tracks with a task that removes them when they are unused. -/
  watched : List TrackId
  /-- The requests so far, and what became of them. -/
  requested : List TrackId
  popped : List TrackId
  aborted : List TrackId

/-- The steps. -/
inductive Op
  /-- A step of the channel that belongs to consumers and their upgrades. -/
  | channel (op : KioOp State)
  /-- `BroadcastProducer::clone`. -/
  | cloneProducer
  /-- `BroadcastProducer::drop`. -/
  | dropProducer (last : Bool)
  /-- A temporary producer is dropped, or one whose `drop` has run. -/
  | release
  /-- `BroadcastProducer::dynamic` or `BroadcastDynamic::clone`. -/
  | dynamic
  /-- `BroadcastDynamic::drop`. -/
  | dropDynamic (last : Bool)
  /-- `BroadcastDynamic::poll_requested_track`. -/
  | requestedTrack
  /-- `abort` of a producer or a handler. -/
  | abort (err : Error)
  /-- `TrackProducer::new`, outside of the broadcast. -/
  | newTrack (name : String)
  /-- `BroadcastProducer::create_track`. -/
  | createTrack (name : String)
  /-- `BroadcastProducer::insert_track`. -/
  | insertTrack (t : TrackId)
  /-- `BroadcastProducer::remove_track`. -/
  | removeTrack (name : String)
  /-- `BroadcastConsumer::subscribe_track`, by a call that has its temporary producer. -/
  | subscribeTrack (name : String)
  /-- The task of a track has found it unused, and has its temporary producer. -/
  | removeUnused (t : TrackId)
  /-- `TrackProducer::clone`. -/
  | cloneTrack (t : TrackId)
  /-- `TrackProducer::drop`. -/
  | dropTrack (t : TrackId)
  /-- `TrackProducer::abort`. -/
  | abortTrack (t : TrackId)

/-- What a step returns. -/
inductive Reply
  | ok
  | track (t : TrackId)
  | err (e : Error)
  | pending
  /-- The step was not possible. -/
  | none
  deriving DecidableEq, Repr

/-- The track that a step returns. -/
def Reply.tracks : Reply → List TrackId
  | .track t => [t]
  | _ => []

namespace System

/-- A new broadcast. -/
def init : System := ⟨.new .default, [], 1, 0, [], [], [], []⟩

/-- The state behind the lock. -/
def value (s : System) : State := s.channel.state.value

/-- Whether the broadcast is closed. -/
def isClosed (s : System) : Bool := s.channel.state.closed

/-- The error of a closed broadcast. -/
def closedReply (s : System) : Reply := .err (s.value.abort.getD .dropped)

/-- The name of a track. -/
def nameOf (s : System) (t : TrackId) : String := (s.tracks[t]?).elim "" TrackState.name

/-- `TrackWeak::is_closed`. -/
def trackClosed (s : System) (t : TrackId) : Bool := (s.tracks[t]?).elim true TrackState.closed

/-- The use of a guard that leaves the value `v`. -/
def put (s : System) (v : State) (close : Bool) : System :=
  { s with channel := (s.channel.step (.write ⟨some fun _ => v, close⟩)).next }

/-- Tracks that were requested are aborted, and their producers dropped. -/
def abortRequests (s : System) (ts : List TrackId) : System :=
  { s with
    tracks := ts.foldl (fun tracks t => tracks.modify t fun track => track.abort.drop) s.tracks
    aborted := s.aborted ++ ts }

/-- Some call holds a temporary producer. -/
def Upgraded (s : System) : Prop := s.owners + s.handlers < s.channel.producerHandles

instance (s : System) : Decidable s.Upgraded := Nat.decLt _ _

/-- `BroadcastProducer::drop`. -/
def dropProducer (s : System) (last : Bool) : System :=
  let s := { s with owners := s.owners - 1 }
  if last = false ∨ s.isClosed then s
  else (s.put s.value.dropProducer false).abortRequests s.value.requests

/-- `BroadcastDynamic::drop`. -/
def dropDynamic (s : System) (last : Bool) : System :=
  let s := { s with handlers := s.handlers - 1 }
  if s.isClosed then s
  else
    let v := s.value.dropDynamic last
    if v.dynamic ≠ 0 then s.put v false
    else (s.put v false).abortRequests s.value.requests

/-- `BroadcastDynamic::poll_requested_track`. -/
def requestedTrack (s : System) : System × Reply :=
  if s.isClosed then (s, s.closedReply)
  else
    match s.value.requests.getLast? with
    | none => (s, .pending)
    | some t =>
      ({ s.put { s.value with requests := s.value.requests.dropLast } false with
          popped := s.popped ++ [t] },
        .track t)

/-- `BroadcastProducer::create_track`. -/
def createTrack (s : System) (name : String) : System × Reply :=
  let t := s.tracks.length
  -- the new track is dropped if it is not inserted
  let failed := { s with tracks := s.tracks ++ [(TrackState.new name).drop] }
  if s.isClosed then (failed, s.closedReply)
  else
    match s.value.insertTrack name t with
    | .ok v => ({ s.put v false with tracks := s.tracks ++ [TrackState.new name] }, .track t)
    | .error e => (failed, .err e)

/-- `BroadcastProducer::insert_track`. -/
def insertTrack (s : System) (t : TrackId) : System × Reply :=
  if s.isClosed then (s, s.closedReply)
  else
    match s.value.insertTrack (s.nameOf t) t with
    | .ok v => (s.put v false, .ok)
    | .error e => (s, .err e)

/-- `BroadcastProducer::remove_track`. -/
def removeTrack (s : System) (name : String) : System × Reply :=
  if s.isClosed then (s, s.closedReply)
  else
    match s.value.removeTrack name with
    | .ok v => (s.put v false, .ok)
    | .error e => (s, .err e)

/-- `BroadcastConsumer::subscribe_track`. A track that is created is queued, and watched by a
task. -/
def subscribeTrack (s : System) (name : String) : System × Reply :=
  let fresh := s.tracks.length
  if s.isClosed then (s, s.closedReply)
  else
    match s.value.subscribeTrack s.trackClosed name fresh with
    | (v, .error e) => (s.put v false, .err e)
    | (v, .ok t) =>
      if t = fresh then
        ({ s.put v false with
            tracks := s.tracks ++ [TrackState.new name]
            watched := s.watched ++ [t]
            requested := s.requested ++ [t] },
          .track t)
      else (s.put v false, .track t)

/-- One step. -/
def step (s : System) : Op → System × Reply
  | .channel op =>
    if op.passive then ({ s with channel := (s.channel.step op).next }, .ok) else (s, .none)
  | .cloneProducer =>
    if s.owners = 0 then (s, .none)
    else
      ({ s with
          channel := (s.channel.step .cloneProducer).next
          owners := s.owners + 1 },
        .ok)
  | .dropProducer last => if s.owners = 0 then (s, .none) else (s.dropProducer last, .ok)
  | .release =>
    if s.Upgraded then ({ s with channel := (s.channel.step .dropProducer).next }, .ok)
    else (s, .none)
  | .dynamic =>
    if s.owners + s.handlers = 0 then (s, .none)
    else
      ({ s.put { s.value with dynamic := s.value.dynamic + 1 } false with
          channel := ((s.put { s.value with dynamic := s.value.dynamic + 1 } false).channel.step
            .cloneProducer).next
          handlers := s.handlers + 1 },
        .ok)
  | .dropDynamic last => if s.handlers = 0 then (s, .none) else (s.dropDynamic last, .ok)
  | .requestedTrack => if s.handlers = 0 then (s, .none) else s.requestedTrack
  | .abort err =>
    if s.owners + s.handlers = 0 then (s, .none)
    else if s.isClosed then (s, s.closedReply)
    else ((s.put (s.value.abortWith err) true).abortRequests s.value.requests, .ok)
  | .newTrack name => ({ s with tracks := s.tracks ++ [TrackState.new name] }, .ok)
  | .createTrack name => if s.owners = 0 then (s, .none) else s.createTrack name
  | .insertTrack t =>
    if s.owners = 0 ∨ s.tracks.length ≤ t then (s, .none) else s.insertTrack t
  | .removeTrack name => if s.owners = 0 then (s, .none) else s.removeTrack name
  | .subscribeTrack name => if s.Upgraded then s.subscribeTrack name else (s, .none)
  | .removeUnused t =>
    if s.Upgraded ∧ t ∈ s.watched then
      ({ s.put (s.value.removeUnused s.nameOf t) false with
          watched := s.watched.erase t },
        .ok)
    else (s, .none)
  | .cloneTrack t =>
    -- nobody has the producer of a request that is queued
    if t ∈ s.value.requests then (s, .none)
    else ({ s with tracks := s.tracks.modify t TrackState.clone }, .ok)
  | .dropTrack t =>
    if t ∈ s.value.requests then (s, .none)
    else ({ s with tracks := s.tracks.modify t TrackState.drop }, .ok)
  | .abortTrack t =>
    if t ∈ s.value.requests then (s, .none)
    else ({ s with tracks := s.tracks.modify t TrackState.abort }, .ok)

/-- Take steps one after another. -/
def exec (s : System) (ops : List Op) : System := ops.foldl (fun s op => (s.step op).1) s

/-- The request that a step hands to a handler. -/
def pickedBy (s : System) : Op → List TrackId
  | .requestedTrack => (s.step .requestedTrack).2.tracks
  | _ => []

/-- The track that a step creates for a subscription. -/
def createdBy (s : System) : Op → List TrackId
  | .subscribeTrack name =>
    (s.step (.subscribeTrack name)).2.tracks.filter (· = s.tracks.length)
  | _ => []

/-- What the steps of a run give, one after another. -/
def collect (f : System → Op → List TrackId) (s : System) : List Op → List TrackId
  | [] => []
  | op :: ops => f s op ++ collect f (s.step op).1 ops

end System

end Broadcast

end HermitMoq
