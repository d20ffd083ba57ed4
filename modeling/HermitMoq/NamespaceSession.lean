import HermitMoq.Visibility

/-!
# Announcements of an IETF Session in an Origin

The model of how `moq-net/src/ietf/subscriber.rs` places what a peer announces. The session
publishes through one producer of an origin. It subscribes to the namespaces under the root of
this producer, and the suffix of a `NAMESPACE` is joined to that prefix. A `PUBLISH_NAMESPACE`
carries the whole namespace. Both end up in `start_announce`, which publishes a new broadcast
at the path, or counts one more announcement of it.

A broadcast closes when the last producer of its channel is dropped. `start_announce` makes two
that stay: one in the entry of the path, one in the dynamic handler of the task
`run_broadcast`. This task ends when the session or the broadcast has closed.
-/

namespace HermitMoq

open List Function OriginSystem OriginSystem.Effect

/-- An IETF session that publishes into an origin. -/
structure NamespaceSession where
  origin : OriginSystem
  /-- The producer of the origin that the session publishes through. -/
  producer : ℕ
  sessionOrigin : Origin
  /-- The announced broadcasts with the number of their announcements. -/
  broadcasts : Path → Option (BroadcastConsumer × ℕ)
  /-- The number of producers of each channel. -/
  handles : ℕ → ℕ
  /-- The broadcasts served by a `run_broadcast` task. -/
  running : List BroadcastConsumer
  /-- Whether the session has closed. -/
  closed : Bool

/-- The steps of a session. Messages that may create a broadcast carry the identity of its
channel. -/
inductive NamespaceOp
  /-- `NAMESPACE` arrives. -/
  | recvNamespace (suffix : Path) (state : ℕ)
  /-- `NAMESPACE_DONE` arrives. -/
  | recvNamespaceDone (suffix : Path)
  /-- `PUBLISH_NAMESPACE` arrives. -/
  | recvPublishNamespace (trackNamespace : Path) (state : ℕ)
  /-- The stream of a `PUBLISH_NAMESPACE` ends. -/
  | endPublishNamespace (trackNamespace : Path)
  /-- The session closes. -/
  | closeSession
  /-- A `run_broadcast` task finds the session or its broadcast closed and ends. -/
  | exitBroadcast (i : ℕ)
  /-- An operation on the origin by others. -/
  | other (op : OriginOp)

namespace NamespaceSession

/-- A session that starts to publish through a producer. -/
def new (origin : OriginSystem) (producer : ℕ) (sessionOrigin : Origin) : NamespaceSession :=
  ⟨origin, producer, sessionOrigin, fun _ => none, fun _ => 0, [], false⟩

/-- The root of the producer. -/
def root (s : NamespaceSession) : Path :=
  match s.origin.producers[s.producer]? with
  | some p => p.root
  | none => Path.empty

/-- The namespace of our `SUBSCRIBE_NAMESPACE`. -/
def subscribedNamespace (s : NamespaceSession) : Path := s.root

/-- The broadcast that `start_announce` creates. -/
def create (s : NamespaceSession) (state : ℕ) : BroadcastConsumer :=
  ⟨state, ⟨[s.sessionOrigin], (by decide : 1 ≤ maxHops)⟩⟩

/-- `start_announce`. -/
def startAnnounce (s : NamespaceSession) (path : Path) (state : ℕ) :
    Except Panic NamespaceSession :=
  match s.broadcasts path with
  | some (b, count) =>
    .ok { s with broadcasts := Function.update s.broadcasts path (some (b, count + 1)) }
  | none =>
    match s.origin.step (.publish s.producer path (s.create state)) with
    | .ok origin =>
      .ok { s with
        origin
        broadcasts := Function.update s.broadcasts path (some (s.create state, 1))
        handles := Function.update s.handles state 2
        running := s.create state :: s.running }
    | .error e => .error e

/-- A producer of a channel is dropped; the last one closes it. -/
def dropHandle (s : NamespaceSession) (state : ℕ) : Except Panic NamespaceSession :=
  if s.handles state = 1 then
    match s.origin.step (.close state) with
    | .ok origin => .ok { s with origin, handles := Function.update s.handles state 0 }
    | .error e => .error e
  else .ok { s with handles := Function.update s.handles state (s.handles state - 1) }

/-- `stop_announce`. -/
def stopAnnounce (s : NamespaceSession) (path : Path) : Except Panic NamespaceSession :=
  match s.broadcasts path with
  | some (b, count) =>
    if count - 1 = 0 then
      { s with broadcasts := Function.update s.broadcasts path none }.dropHandle b.state
    else .ok { s with broadcasts := Function.update s.broadcasts path (some (b, count - 1)) }
  | none => .ok s

/-- One step. -/
def step (s : NamespaceSession) : NamespaceOp → Except Panic NamespaceSession
  | .recvNamespace suffix state => s.startAnnounce (s.subscribedNamespace.join suffix) state
  | .recvNamespaceDone suffix => s.stopAnnounce (s.subscribedNamespace.join suffix)
  | .recvPublishNamespace trackNamespace state => s.startAnnounce trackNamespace state
  | .endPublishNamespace trackNamespace => s.stopAnnounce trackNamespace
  | .closeSession => .ok { s with closed := true }
  | .exitBroadcast i =>
    match s.running[i]? with
    | some b =>
      if s.closed = true ∨ b.state ∈ s.origin.closed then
        { s with running := s.running.eraseIdx i }.dropHandle b.state
      else .ok s
    | none => .ok s
  | .other op =>
    match s.origin.step op with
    | .ok origin => .ok { s with origin }
    | .error e => .error e

/-! ### Sessions that stay open -/

/-- A channel that nobody has used. -/
def Unused (s : NamespaceSession) (state : ℕ) : Prop :=
  state ∉ s.origin.closed ∧ (∀ t ∈ s.origin.cleanups, t.broadcast.state ≠ state) ∧
    ∀ b ∈ s.running, b.state ≠ state

instance (s : NamespaceSession) (state : ℕ) : Decidable (s.Unused state) :=
  inferInstanceAs (Decidable (_ ∧ _ ∧ _))

/-- Others do not publish a broadcast where it is stored already, and cannot close those of the
session. -/
def Foreign (s : NamespaceSession) (op : OriginOp) : Prop :=
  OriginSystem.Fresh s.origin op ∧ ∀ b ∈ s.running, op ≠ .close b.state

/-- New broadcasts have new channels, and the session stays open. -/
def Open (s : NamespaceSession) : NamespaceOp → Prop
  | .recvNamespace _ state => s.Unused state
  | .recvPublishNamespace _ state => s.Unused state
  | .closeSession => False
  | .other op => s.Foreign op
  | _ => True

/-- Every announced broadcast has a task and both its producers, and no two entries share a
channel. -/
structure Backed (broadcasts : Path → Option (BroadcastConsumer × ℕ)) (handles : ℕ → ℕ)
    (running : List BroadcastConsumer) : Prop where
  entry : ∀ {path b n}, broadcasts path = some (b, n) → b ∈ running ∧ handles b.state = 2
  distinct : ∀ {path path' b b' n n'}, broadcasts path = some (b, n) →
    broadcasts path' = some (b', n') → b.state = b'.state → path = path'

/-- The **invariant** of an open session: announced broadcasts have their producers, and no
broadcast with a task has closed. -/
structure Held (s : NamespaceSession) : Prop where
  accounted : s.origin.Accounted
  isOpen : s.closed = false
  backed : Backed s.broadcasts s.handles s.running
  running : ∀ b ∈ s.running, b.state ∉ s.origin.closed ∧ 0 < s.handles b.state

section Backed

variable {broadcasts : Path → Option (BroadcastConsumer × ℕ)} {handles : ℕ → ℕ}
  {running : List BroadcastConsumer} {path : Path} {b : BroadcastConsumer} {n : ℕ}

section

variable (h : Backed broadcasts handles running)

include h

/-- Another count keeps the entries backed. -/
theorem Backed.recount (hpath : broadcasts path = some (b, n)) (m : ℕ) :
    Backed (Function.update broadcasts path (some (b, m))) handles running := by
  -- the broadcasts of the entries are those from before
  have hsame : ∀ {q b' k}, update broadcasts path (some (b, m)) q = some (b', k) →
      ∃ k', broadcasts q = some (b', k') := by
    intro q b' k hq
    rcases eq_or_ne q path with rfl | hne
    · rw [update_self, Option.some_inj, Prod.mk.injEq] at hq
      exact ⟨n, hq.1 ▸ hpath⟩
    · rw [update_of_ne hne] at hq
      exact ⟨k, hq⟩
  refine ⟨fun hq => ?_, fun hq hq' hstate => ?_⟩
  · obtain ⟨k', hq⟩ := hsame hq
    exact h.entry hq
  · obtain ⟨_, hq⟩ := hsame hq
    obtain ⟨_, hq'⟩ := hsame hq'
    exact h.distinct hq hq' hstate

/-- A new entry comes with its task and both its producers. -/
theorem Backed.insert (hnew : ∀ b' ∈ running, b'.state ≠ b.state) :
    Backed (Function.update broadcasts path (some (b, n))) (Function.update handles b.state 2)
      (b :: running) := by
  -- the new channel is in no other entry
  have hcases : ∀ {q b' k}, update broadcasts path (some (b, n)) q = some (b', k) →
      q = path ∧ b' = b ∨ broadcasts q = some (b', k) ∧ b'.state ≠ b.state := by
    intro q b' k hq
    rcases eq_or_ne q path with rfl | hne
    · rw [update_self, Option.some_inj, Prod.mk.injEq] at hq
      exact .inl ⟨rfl, hq.1.symm⟩
    · rw [update_of_ne hne] at hq
      exact .inr ⟨hq, hnew b' (h.entry hq).1⟩
  refine ⟨fun hq => ?_, fun hq hq' hstate => ?_⟩
  · rcases hcases hq with ⟨-, rfl⟩ | ⟨hq, hne⟩
    · exact ⟨mem_cons_self, update_self ..⟩
    · obtain ⟨hb, htwo⟩ := h.entry hq
      exact ⟨mem_cons_of_mem _ hb, (update_of_ne hne ..).trans htwo⟩
  · rcases hcases hq with ⟨rfl, rfl⟩ | ⟨hq, hne⟩ <;>
      rcases hcases hq' with ⟨rfl, rfl⟩ | ⟨hq', hne'⟩
    · rfl
    · exact absurd hstate.symm hne'
    · exact absurd hstate hne
    · exact h.distinct hq hq' hstate

/-- The other entries stay backed when one is removed. -/
theorem Backed.remove (hpath : broadcasts path = some (b, n)) (m : ℕ) :
    Backed (Function.update broadcasts path none) (Function.update handles b.state m) running := by
  have hrest : ∀ {q b' k}, update broadcasts path none q = some (b', k) →
      q ≠ path ∧ broadcasts q = some (b', k) := by
    intro q b' k hq
    rcases eq_or_ne q path with rfl | hne
    · rw [update_self] at hq
      cases hq
    · rw [update_of_ne hne] at hq
      exact ⟨hne, hq⟩
  refine ⟨fun hq => ?_, fun hq hq' hstate => h.distinct (hrest hq).2 (hrest hq').2 hstate⟩
  obtain ⟨hne, hq⟩ := hrest hq
  obtain ⟨hb, htwo⟩ := h.entry hq
  have hstate := fun heq => hne (h.distinct hq hpath heq)
  exact ⟨hb, (update_of_ne hstate ..).trans htwo⟩

end

end Backed

variable {s s' : NamespaceSession} {path : Path} {state : ℕ}

/-- A broadcast with a new channel is stored nowhere. -/
theorem fresh_of_unused (ha : s.origin.Accounted) (hu : s.Unused state) (path : Path) :
    OriginSystem.Fresh s.origin (.publish s.producer path (s.create state)) := by
  intro t ht hstored
  obtain ⟨r, -, rfl⟩ := Option.map_eq_some_iff.mp ht
  obtain ⟨_, hb, hstate⟩ := mem_map.mp hstored
  have hne : s.origin.tree.valueFrom r.1 r.2.1.parts ≠ default := by
    intro hdefault
    rw [hdefault] at hb
    exact not_mem_nil hb
  obtain ⟨x, -, hx⟩ := TrieHeap.exists_find_of_valueFrom hne
  rw [← hx, (ha.perm x).mem_iff] at hb
  obtain ⟨t, ht, rfl⟩ := mem_map.mp hb
  exact hu.2.1 t (mem_filter.mp ht).1 hstate

variable {op : OriginOp} {o o' : OriginSystem}

/-- What an accepted or refused publish leaves of the closed channels. -/
theorem closed_of_effect (he : OriginSystem.Effect o op o') :
    o'.closed = o.closed ∨ ∃ state, op = .close state ∧ o'.closed = state :: o.closed := by
  cases he with
  | closes state => exact .inr ⟨state, rfl, rfl⟩
  | _ => exact .inl rfl

/-- The operations of others keep what the session holds. -/
theorem Held.other (hs : s.Held) (hop : s.Foreign op) :
    ∃ o, s.origin.step op = .ok o ∧ OriginSystem.Effect s.origin op o ∧
      ({ s with origin := o } : NamespaceSession).Held := by
  obtain ⟨o, hrun, heff, ha⟩ := hs.accounted.step hop.1
  refine ⟨o, hrun, heff, ha, hs.isOpen, hs.backed, fun b hb => ⟨?_, (hs.running b hb).2⟩⟩
  rcases closed_of_effect heff with h | ⟨state, rfl, h⟩
  · exact h ▸ (hs.running b hb).1
  · rw [show ({ s with origin := o } : NamespaceSession).origin.closed = state :: s.origin.closed
      from h, mem_cons, not_or]
    exact ⟨fun heq => hop.2 b hb (heq ▸ rfl), (hs.running b hb).1⟩

/-- What stays while a session is open: its tasks, the announcements of their broadcasts, and
its producer. -/
structure Keeps (s s' : NamespaceSession) : Prop where
  running : ∀ b ∈ s.running, b ∈ s'.running
  cleanups : ∀ t ∈ s.origin.cleanups, t.broadcast ∈ s.running → t ∈ s'.origin.cleanups
  producer : s'.producer = s.producer
  producers : ∀ {i : ℕ} {p : OriginProducer},
    s.origin.producers[i]? = some p → s'.origin.producers[i]? = some p

theorem Keeps.refl (s : NamespaceSession) : s.Keeps s :=
  ⟨fun _ h => h, fun _ h _ => h, rfl, fun h => h⟩

theorem Keeps.trans {s'' : NamespaceSession} (h : s.Keeps s') (h' : s'.Keeps s'') :
    s.Keeps s'' where
  running b hb := h'.running b (h.running b hb)
  cleanups t ht hb := h'.cleanups t (h.cleanups t ht hb) (h.running _ hb)
  producer := h'.producer.trans h.producer
  producers hp := h'.producers (h.producers hp)

/-- Announcements of open broadcasts stay in the origin. -/
theorem Held.cleanups_effect (hs : s.Held) (he : OriginSystem.Effect s.origin op o) :
    ∀ t ∈ s.origin.cleanups, t.broadcast ∈ s.running → t ∈ o.cleanups := by
  intro t ht hb
  rcases (cleanups he).2 t ht with h | h
  · exact h
  · exact absurd h (hs.running _ hb).1

/-- An announcement succeeds and keeps the invariant. -/
theorem Held.startAnnounce (hs : s.Held) (hu : s.Unused state) (path : Path) :
    ∃ s', s.startAnnounce path state = .ok s' ∧ s'.Held ∧ s.Keeps s' := by
  rw [NamespaceSession.startAnnounce]
  cases hpath : s.broadcasts path with
  | some e =>
    exact ⟨_, rfl, ⟨hs.accounted, hs.isOpen, hs.backed.recount hpath _, hs.running⟩,
      fun _ h => h, fun _ h _ => h, rfl, fun h => h⟩
  | none =>
    obtain ⟨o, hrun, heff, ha⟩ := hs.accounted.step (fresh_of_unused hs.accounted hu path)
    have hclosed : o.closed = s.origin.closed := by
      rcases closed_of_effect heff with h | ⟨_, h, -⟩
      · exact h
      · cases h
    simp only [hrun]
    refine ⟨_, rfl, ⟨ha, hs.isOpen, hs.backed.insert hu.2.2, fun b hb => ?_⟩,
      fun b hb => mem_cons_of_mem _ hb, hs.cleanups_effect heff, rfl,
      fun hp => producers heff hp⟩
    rcases mem_cons.mp hb with rfl | hb
    · refine ⟨hclosed ▸ hu.1, ?_⟩
      exact lt_of_lt_of_eq Nat.two_pos (update_self (f := s.handles) ..).symm
    · obtain ⟨hopen, hpos⟩ := hs.running b hb
      refine ⟨hclosed ▸ hopen, ?_⟩
      exact lt_of_lt_of_eq hpos (update_of_ne (hu.2.2 b hb) ..).symm

/-- The end of an announcement succeeds and keeps the invariant. -/
theorem Held.stopAnnounce (hs : s.Held) (path : Path) :
    ∃ s', s.stopAnnounce path = .ok s' ∧ s'.Held ∧ s.Keeps s' := by
  rw [NamespaceSession.stopAnnounce]
  cases hpath : s.broadcasts path with
  | none => exact ⟨s, rfl, hs, Keeps.refl s⟩
  | some e =>
    obtain ⟨b, _⟩ := e
    obtain ⟨-, htwo⟩ := hs.backed.entry hpath
    simp only
    split_ifs
    · -- the dynamic handler is left
      rw [dropHandle, if_neg (by rw [htwo]; decide)]
      refine ⟨_, rfl, ⟨hs.accounted, hs.isOpen, hs.backed.remove hpath _, fun b' hb' => ?_⟩,
        fun _ h => h, fun _ h _ => h, rfl, fun h => h⟩
      refine ⟨(hs.running b' hb').1, ?_⟩
      rcases eq_or_ne b'.state b.state with heq | hne
      · rw [heq, htwo]
        exact lt_of_lt_of_eq Nat.one_pos (update_self (f := s.handles) ..).symm
      · exact lt_of_lt_of_eq (hs.running b' hb').2 (update_of_ne hne ..).symm
    · exact ⟨_, rfl, ⟨hs.accounted, hs.isOpen, hs.backed.recount hpath _, hs.running⟩,
        fun _ h => h, fun _ h _ => h, rfl, fun h => h⟩

/-- A step of an open session keeps its broadcasts announced. -/
theorem Held.step (hs : s.Held) {op : NamespaceOp} (hop : s.Open op) :
    ∃ s', s.step op = .ok s' ∧ s'.Held ∧ s.Keeps s' := by
  cases op with
  | recvNamespace suffix state | recvPublishNamespace trackNamespace state =>
    exact hs.startAnnounce hop _
  | recvNamespaceDone suffix => exact hs.stopAnnounce _
  | endPublishNamespace trackNamespace => exact hs.stopAnnounce _
  | closeSession => exact hop.elim
  | exitBroadcast i =>
    rw [NamespaceSession.step]
    cases hi : s.running[i]? with
    | none => exact ⟨s, rfl, hs, Keeps.refl s⟩
    | some b =>
      -- neither the session nor the broadcast has closed
      have hstays : ¬ (s.closed = true ∨ b.state ∈ s.origin.closed) := by
        rw [hs.isOpen]
        rintro (h | h)
        · cases h
        · exact (hs.running b (mem_of_getElem? hi)).1 h
      simp only [if_neg hstays]
      exact ⟨s, rfl, hs, Keeps.refl s⟩
  | other op =>
    obtain ⟨o, hrun, heff, hs'⟩ := hs.other hop
    refine ⟨{ s with origin := o }, by rw [NamespaceSession.step, hrun], hs', fun _ h => h,
      hs.cleanups_effect heff, rfl, fun hp => producers heff hp⟩

/-- A run of an open session keeps its broadcasts announced. -/
theorem Held.run (hs : s.Held) {ops : List NamespaceOp}
    (hm : Meets NamespaceSession.step Open s ops) :
    ∃ s', HermitMoq.run NamespaceSession.step s ops = .ok s' ∧ s'.Held ∧ s.Keeps s' := by
  refine hm.invariant (I := fun s' => s'.Held ∧ s.Keeps s') (fun {s₁ op} h hop => ?_)
    ⟨hs, Keeps.refl s⟩
  obtain ⟨s₂, hrun, hs₂, hk⟩ := h.1.step hop
  exact ⟨s₂, hrun, hs₂, h.2.trans hk⟩

/-! ### What one announcement publishes -/

/-- A new announcement of the path is published: it has no entry, the producer serves the path,
and the origin of the session is not the one published to. -/
def Publishes (s : NamespaceSession) (path : Path) : Prop :=
  s.broadcasts path = none ∧ s.sessionOrigin ≠ s.origin.info ∧
    (s.origin.absolute s.producer path).isSome = true

instance (s : NamespaceSession) (path : Path) : Decidable (s.Publishes path) :=
  inferInstanceAs (Decidable (_ ∧ _ ∧ _))

theorem root_eq {p : OriginProducer} (hp : s.origin.producers[s.producer]? = some p) :
    s.root = p.root := by
  rw [root, hp]

/-- What an accepted publish spawns stays as a task. -/
theorem spawned_mem (h : o.step op = .ok o') {t : Cleanup}
    (ht : t ∈ o.spawns op) : t ∈ o'.cleanups := by
  cases op with
  | publish producer path b =>
    obtain ⟨⟨_, _, _⟩, htarget, rfl⟩ := Option.map_eq_some_iff.mp ht
    simp only [OriginSystem.step, htarget, OriginSystem.publishAt] at h
    split at h
    · cases h
      exact mem_append_right _ (mem_singleton_self _)
    · cases h
  | _ => cases ht

/-- A created broadcast is spawned at the absolute path, unless it is refused. -/
theorem spawns_create (s : NamespaceSession) (path : Path) (state : ℕ) :
    (∀ t ∈ s.origin.spawns (.publish s.producer path (s.create state)),
        t.broadcast = s.create state ∧ t.full = s.root.join path) ∧
      ((∃ t, t ∈ s.origin.spawns (.publish s.producer path (s.create state))) ↔
        s.sessionOrigin ≠ s.origin.info ∧
          (s.origin.absolute s.producer path).isSome = true) := by
  rw [spawns, target, absolute, root]
  cases s.origin.producers[s.producer]? with
  | none => simp
  | some p =>
    by_cases heq : s.sessionOrigin = s.origin.info
    · simp [create, OriginList.contains, heq]
    · cases hget : OriginNodes.get p.nodes path with
      | none | some r => simp [create, OriginList.contains, heq, Ne.symm heq, hget]

/-- The tasks that an announcement adds to the origin. -/
theorem Held.announced (hs : s.Held) (hu : s.Unused state)
    (h : s.startAnnounce path state = .ok s') :
    (∀ t ∈ s'.origin.cleanups, t ∉ s.origin.cleanups →
        t.full = s.root.join path ∧ t.broadcast ∈ s'.running) ∧
      ((∃ t ∈ s'.origin.cleanups, t ∉ s.origin.cleanups) ↔ s.Publishes path) := by
  rw [NamespaceSession.startAnnounce] at h
  cases hpath : s.broadcasts path with
  | some e =>
    simp only [hpath] at h
    cases h
    refine ⟨fun t ht hnew => absurd ht hnew, fun ⟨t, ht, hnew⟩ => absurd ht hnew, fun hp => ?_⟩
    rw [Publishes, hpath] at hp
    cases hp.1
  | none =>
    obtain ⟨o, hrun, heff, -⟩ := hs.accounted.step (fresh_of_unused hs.accounted hu path)
    simp only [hpath, hrun] at h
    cases h
    obtain ⟨hspec, hiff⟩ := s.spawns_create path state
    have hspawned : ∀ t ∈ o.cleanups, t ∉ s.origin.cleanups →
        t ∈ s.origin.spawns (.publish s.producer path (s.create state)) :=
      fun t ht hnew => ((cleanups heff).1 t ht).resolve_left hnew
    refine ⟨fun t ht hnew => ?_, fun ⟨t, ht, hnew⟩ => ?_, fun hp => ?_⟩
    · obtain ⟨hb, hfull⟩ := hspec t (hspawned t ht hnew)
      exact ⟨hfull, hb ▸ mem_cons_self⟩
    · exact ⟨hpath, hiff.mp ⟨t, hspawned t ht hnew⟩⟩
    · obtain ⟨t, ht⟩ := hiff.mpr hp.2
      refine ⟨t, spawned_mem hrun ht, fun hold => hu.2.1 t hold ?_⟩
      rw [(hspec t ht).1, create]

/-- A path joined to itself below a root is the path below the root only for the empty root. -/
theorem join_twice (root suffix : Path) :
    root.join (root.join suffix) = root.join suffix ↔ root = Path.empty := by
  refine ⟨fun h => ?_, fun h => by rw [h, Path.empty_join, Path.empty_join]⟩
  have hparts := congrArg Path.parts (Path.join_left_cancel h)
  rw [Path.parts_join] at hparts
  exact Path.parts_eq_nil_iff.mp (append_left_eq_self.mp hparts)

theorem held_new (ha : o.Accounted) (producer : ℕ) (sessionOrigin : Origin) :
    (new o producer sessionOrigin).Held :=
  ⟨ha, rfl, ⟨nofun, nofun⟩, nofun⟩

/-! ### Placement -/

/-- **Placement of namespaces.** In every state of an open session, `NAMESPACE` does what
`PUBLISH_NAMESPACE` does with the suffix joined to the root. What it publishes is the suffix below
the root, with the root once, only if the root is empty; and `NAMESPACE_DONE` leads to the removal
of what was published only if nothing was: the broadcast stays in the origin as long as the session
is open. -/
theorem namespace_placement (info sessionOrigin : Origin) (ops : List OriginOp)
    (hfresh : Meets OriginSystem.step OriginSystem.Fresh (OriginSystem.init info) ops)
    (producer : ℕ) {o : OriginSystem}
    (ho : HermitMoq.run OriginSystem.step (OriginSystem.init info) ops = .ok o)
    {p : OriginProducer} (hp : o.producers[producer]? = some p) (received : List NamespaceOp)
    (hopen : Meets NamespaceSession.step Open (new o producer sessionOrigin) received) :
    ∃ s, HermitMoq.run NamespaceSession.step (new o producer sessionOrigin) received = .ok s ∧
      ∀ suffix state, s.Unused state →
        ∃ s' s'', s.step (.recvNamespace suffix state) = .ok s' ∧
          s.step (.recvPublishNamespace (p.root.join suffix) state) = .ok s' ∧
          s'.step (.recvNamespaceDone suffix) = .ok s'' ∧
          ((∀ t ∈ s'.origin.cleanups, t ∉ s.origin.cleanups → t.full = p.root.join suffix) ↔
            ¬ s.Publishes (p.root.join suffix) ∨ p.root = Path.empty) ∧
          ((∀ t ∈ s'.origin.cleanups, t ∉ s.origin.cleanups →
              ∃ later s₁, Meets NamespaceSession.step Open s'' later ∧
                HermitMoq.run NamespaceSession.step s'' later = .ok s₁ ∧
                t ∉ s₁.origin.cleanups) ↔
            ¬ s.Publishes (p.root.join suffix)) := by
  obtain ⟨o', ho', ha⟩ := OriginSystem.Accounted.run info hfresh
  obtain rfl : o' = o := Except.ok.inj (ho'.symm.trans ho)
  obtain ⟨s, hrun, hs, hk⟩ := (held_new ha producer sessionOrigin).run hopen
  refine ⟨s, hrun, fun suffix state hu => ?_⟩
  have hroot : s.root = p.root := root_eq (hk.producer ▸ hk.producers hp)
  obtain ⟨s', hstep, hs', -⟩ := hs.startAnnounce hu (p.root.join suffix)
  have hop : s'.Open (.recvNamespaceDone suffix) := trivial
  obtain ⟨s'', hdone, hs'', hk''⟩ := hs'.step hop
  obtain ⟨hnew, hiff⟩ := hs.announced hu hstep
  simp only [hroot] at hnew
  have hnamespace : s.step (.recvNamespace suffix state) = .ok s' := by
    rw [NamespaceSession.step, subscribedNamespace, hroot, hstep]
  refine ⟨s', s'', hnamespace, hstep, hdone, ⟨fun h => ?_, fun h t ht ht' => ?_⟩,
    fun h hpub => ?_, fun hpub t ht ht' => absurd (hiff.mp ⟨t, ht, ht'⟩) hpub⟩
  · by_cases hpub : s.Publishes (p.root.join suffix)
    · obtain ⟨t, ht, ht'⟩ := hiff.mpr hpub
      refine .inr ((join_twice p.root suffix).mp ?_)
      exact (hnew t ht ht').1.symm.trans (h t ht ht')
    · exact .inl hpub
  · rcases h with hpub | hempty
    · exact absurd (hiff.mp ⟨t, ht, ht'⟩) hpub
    · rw [(hnew t ht ht').1, (join_twice p.root suffix).mpr hempty]
  · -- the broadcast has its task, so no later step removes it
    obtain ⟨t, ht, ht'⟩ := hiff.mpr hpub
    obtain ⟨_, s₁, hm, hlater, hgone⟩ := h t ht ht'
    obtain ⟨s₂, hlater', -, hk₂⟩ := hs''.run hm
    obtain rfl : s₂ = s₁ := Except.ok.inj (hlater'.symm.trans hlater)
    exact hgone ((hk''.trans hk₂).cleanups t ht (hnew t ht ht').2)

/-- The path `x`. -/
def pathX : Path := Path.new ['x']

/-- The origin of a producer with the root `a`. -/
def rooted : Except Panic OriginSystem :=
  run OriginSystem.step (OriginSystem.init ⟨1⟩) [.withRoot 0 OriginSystem.pathA]

/-- A session below the root `a` received a `PUBLISH_NAMESPACE` and now a `NAMESPACE`. -/
theorem namespace_placement_rooted :
    ∃ o s s' s'', rooted = .ok o ∧
      HermitMoq.run NamespaceSession.step (new o 1 ⟨7⟩) [.recvPublishNamespace pathX 0] = .ok s ∧
      s.step (.recvNamespace pathX 1) = .ok s' ∧ s'.step (.recvNamespaceDone pathX) = .ok s'' ∧
      s.Publishes (OriginSystem.pathA.join pathX) := by
  obtain ⟨_, hrun, h⟩ := namespace_placement ⟨1⟩ ⟨7⟩ [.withRoot 0 pathA] (by decide) 1
    rfl rfl [.recvPublishNamespace pathX 0] ⟨(by decide : Unused _ 0), trivial⟩
  cases hrun
  obtain ⟨s', s'', hs', -, hs'', -⟩ := h pathX 1 (by decide)
  exact ⟨_, _, s', s'', rfl, rfl, hs', hs'', by decide⟩

/-- A session below the root `a` receives `NAMESPACE` and `NAMESPACE_DONE` of `x`. The broadcast
is published at `a/a/x`, not at `a/x`, and is still found there after the tasks have run. -/
theorem namespace_is_misplaced :
    ∃ o s, rooted = .ok o ∧
      HermitMoq.run NamespaceSession.step (new o 1 ⟨7⟩)
        [.recvNamespace pathX 0, .recvNamespaceDone pathX, .exitBroadcast 0,
          .other (.cleanup 0)] = .ok s ∧
      s.broadcasts (OriginSystem.pathA.join pathX) = none ∧
      s.origin.getBroadcast 0 OriginSystem.pathAX = none ∧
      s.origin.getBroadcast 0 (OriginSystem.pathA.join OriginSystem.pathAX) =
        some (s.create 0) :=
  ⟨_, _, rfl, rfl, rfl, rfl, rfl⟩

end NamespaceSession

end HermitMoq
