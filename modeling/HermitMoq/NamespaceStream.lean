import HermitMoq.Confinement
import Mathlib.Data.Finset.Basic

/-!
# The Stream of a SUBSCRIBE_NAMESPACE

The model of `Publisher::run_subscribe_namespace_stream` in `moq-net/src/ietf/publisher.rs`, from
draft 16 on. The task owns a consumer of the origin that is scoped to the subscribed prefix. It
first writes a `NAMESPACE` for every pending announcement, then follows the updates. Between two
updates it waits for the stream, and everybody else may act on the origin meanwhile.

The loop over what is pending at first ignores unannouncements. It is not over before the
consumer is drained, so it may take the unannouncement of a namespace that it has written.
-/

namespace HermitMoq

open Option OriginSystem OriginSystem.Effect

/-- The messages on the stream. -/
inductive NamespaceMessage
  /-- `NAMESPACE`. -/
  | active (suffix : Path)
  /-- `NAMESPACE_DONE`. -/
  | done (suffix : Path)
  deriving DecidableEq

/-- The namespaces that a peer holds active after these messages. -/
def replay (messages : List NamespaceMessage) : Finset Path :=
  messages.foldl (fun peer message =>
    match message with
    | .active suffix => insert suffix peer
    | .done suffix => peer.erase suffix) ∅

/-- Where the task is. -/
inductive StreamPhase
  /-- The loop over `try_announced`. -/
  | initial
  /-- The loop over `announced`. -/
  | updates
  /-- The task has returned. -/
  | ended
  deriving DecidableEq

/-- The task of a `SUBSCRIBE_NAMESPACE` stream. -/
structure NamespaceStream where
  origin : OriginSystem
  /-- The scoped consumer of the task. -/
  consumer : ConsumerId
  /-- The subscribed prefix. -/
  pre : Path
  phase : StreamPhase
  /-- The message that is being written. -/
  writing : Option NamespaceMessage
  /-- The messages on the stream, oldest first. -/
  written : List NamespaceMessage

/-- The steps of the task and of the others. -/
inductive StreamOp
  /-- The task asks the consumer for the next update. -/
  | take
  /-- The message is written. -/
  | write
  /-- The stream fails or is closed, and the task returns. -/
  | finish
  /-- An operation on the origin by others. -/
  | other (op : OriginOp)

/-- Why a step fails. -/
inductive StreamPanic
  /-- An operation on the origin panics. -/
  | origin (e : Panic)
  /-- `expect("origin returned invalid path")`. -/
  | invalidPath
  deriving DecidableEq

namespace NamespaceStream

/-- A stream for a scoped consumer. -/
def new (origin : OriginSystem) (consumer : ConsumerId) (pre : Path) : NamespaceStream :=
  ⟨origin, consumer, pre, .initial, none, []⟩

/-- The message for an update. -/
def message (s : NamespaceStream) (suffix : Path) (active : Option BroadcastConsumer) :
    Option NamespaceMessage :=
  if active.isSome then some (.active suffix)
  else if s.phase = .initial then none
  else some (.done suffix)

/-- Whether the task asks for the next update. -/
def Ready (s : NamespaceStream) : Prop := s.phase ≠ .ended ∧ s.writing = none

instance (s : NamespaceStream) : Decidable s.Ready := inferInstanceAs (Decidable (_ ∧ _))

/-- The update that the consumer delivers next. -/
def next (s : NamespaceStream) : Option OriginAnnounce :=
  (s.origin.live s.consumer).bind fun c => c.pending.take.map Prod.fst

/-- The operations on the consumer that only its owner can do. -/
def Owns (s : NamespaceStream) (op : OriginOp) : Prop :=
  match op with
  | .poll consumer => consumer = s.consumer
  | .dropConsumer consumer => consumer = s.consumer
  | _ => False

instance (s : NamespaceStream) : DecidablePred s.Owns
  | .poll consumer => inferInstanceAs (Decidable (consumer = s.consumer))
  | .dropConsumer consumer => inferInstanceAs (Decidable (consumer = s.consumer))
  | .publish _ _ _ => isFalse id
  | .scope _ _ => isFalse id
  | .withRoot _ _ => isFalse id
  | .close _ => isFalse id
  | .cleanup _ => isFalse id
  | .consume _ => isFalse id
  | .consumerScope _ _ => isFalse id
  | .consumerWithRoot _ _ => isFalse id

/-- An operation on the origin. -/
def act (s : NamespaceStream) (op : OriginOp) : Except StreamPanic NamespaceStream :=
  match s.origin.step op with
  | .ok origin => .ok { s with origin }
  | .error e => .error (.origin e)

/-- Take the next update. A drained consumer ends the first loop. -/
def take (s : NamespaceStream) : Except StreamPanic NamespaceStream :=
  match s.next with
  | none => .ok { s with phase := .updates }
  | some (path, active) =>
    match s.act (.poll s.consumer) with
    | .error e => .error e
    | .ok s =>
      match path.stripPrefix s.pre with
      | none => .error .invalidPath
      | some suffix => .ok { s with writing := s.message suffix active }

/-- One step. -/
def step (s : NamespaceStream) : StreamOp → Except StreamPanic NamespaceStream
  | .take => if s.Ready then s.take else .ok s
  | .write => .ok { s with writing := none, written := s.written ++ s.writing.toList }
  | .finish => { s with phase := .ended }.act (.dropConsumer s.consumer)
  | .other op => if s.Owns op then .ok s else s.act op

/-! ### What the peer is told and what was taken -/

/-- What the peer holds active once the current message is written. -/
def peer (s : NamespaceStream) : Finset Path := replay (s.written ++ s.writing.toList)

/-- The last update taken for a suffix was an announcement. -/
def lastTaken (s : NamespaceStream) (suffix : Path) : Bool :=
  match s.origin.consumers[s.consumer]? with
  | some c => (shown (c.log (s.pre.join suffix))).isSome
  | none => false

/-- The peer is told what was taken. -/
def Consistent (s : NamespaceStream) : Prop :=
  ∀ suffix, suffix ∈ s.peer ↔ s.lastTaken suffix = true

/-- The first loop does not take the unannouncement of a namespace that the peer was told. -/
def NothingIgnored (s : NamespaceStream) : StreamOp → Prop
  | .take => s.Ready → s.phase = .initial → ∀ u ∈ s.next, u.2 = none →
      ∀ suffix ∈ u.1.stripPrefix s.pre, suffix ∉ s.peer
  | _ => True

instance (s : NamespaceStream) : DecidablePred s.NothingIgnored
  | .take => inferInstanceAs (Decidable (s.Ready → s.phase = .initial → ∀ u ∈ s.next, u.2 = none →
      ∀ suffix ∈ u.1.stripPrefix s.pre, suffix ∉ s.peer))
  | .write => isTrue trivial
  | .finish => isTrue trivial
  | .other _ => isTrue trivial

/-! ### The steps -/

section Steps

variable {s s' : NamespaceStream} {op : OriginOp} {path suffix : Path}
  {active : Option BroadcastConsumer} {o : OriginSystem}

/-- The task has a consumer, and its nodes serve nothing but paths below the prefix. -/
structure Serving (s : NamespaceStream) : Prop where
  confined : s.origin.Confined
  consumer : ∃ c, s.origin.consumers[s.consumer]? = some c ∧
    ∀ path, c.nodes.Permits path → s.pre.parts <+: path.parts

theorem Serving.of_effect (hs : s.Serving) (he : OriginSystem.Effect s.origin op o) :
    ({ s with origin := o } : NamespaceStream).Serving := by
  obtain ⟨_, hc, hpre⟩ := hs.consumer
  obtain ⟨c', hc', -, hnodes, -, -⟩ := handle he hc
  exact ⟨hs.confined.effect he, c', hc', hnodes ▸ hpre⟩

/-- Operations other than the own poll take nothing. -/
theorem Serving.lastTaken_effect (hs : s.Serving)
    (he : OriginSystem.Effect s.origin op o) (hop : op ≠ .poll s.consumer) (suffix : Path) :
    ({ s with origin := o } : NamespaceStream).lastTaken suffix = s.lastTaken suffix := by
  obtain ⟨_, hc, -⟩ := hs.consumer
  obtain ⟨_, hc', -, -, hreceived, -⟩ := handle he hc
  simp only [lastTaken, hc, hc', OriginConsumer.log, hreceived hop]

/-- What the consumer delivers lies below the prefix, and is logged. -/
theorem Serving.take (hs : s.Serving) (hnext : s.next = some (path, active)) :
    ∃ suffix o, path.stripPrefix s.pre = some suffix ∧
      s.take = .ok { s with origin := o, writing := s.message suffix active } ∧
      OriginSystem.Effect s.origin (.poll s.consumer) o ∧
      ∀ q, ({ s with origin := o } : NamespaceStream).lastTaken q =
        if q = suffix then active.isSome else s.lastTaken q := by
  obtain ⟨c, hc, hpre⟩ := hs.consumer
  obtain ⟨c', hlive, htake⟩ := bind_eq_some_iff.mp hnext
  obtain rfl : c' = c := some.inj ((live_eq_some_iff.mp hlive).1.symm.trans hc)
  obtain ⟨⟨_, pending⟩, htake, rfl⟩ := map_eq_some_iff.mp htake
  obtain ⟨_, hlook, -⟩ := OriginConsumerState.lookup_take htake
  obtain ⟨suffix, hsuffix⟩ : ∃ suffix, path.stripPrefix s.pre = some suffix := by
    rw [← isSome_iff_exists, ← Path.hasPrefix_eq_isSome, Path.hasPrefix_iff]
    exact hpre path ((hs.confined.consumers hc).pending hlook)
  have hstep : s.origin.step (.poll s.consumer) = .ok { s.origin with
      consumers := s.origin.consumers.modify s.consumer (.deliver (path, active) pending) } := by
    simp only [OriginSystem.step, hlive, htake]
  refine ⟨suffix, _, hsuffix, ?_, polled hlive htake, fun q => ?_⟩
  · simp only [NamespaceStream.take, hnext, act, hstep, hsuffix]
    rfl
  · have hjoin := Path.join_of_stripPrefix hsuffix
    have hmod :
        (s.origin.consumers.modify s.consumer (.deliver (path, active) pending))[s.consumer]? =
          some (c'.deliver (path, active) pending) := by
      rw [List.getElem?_modify_eq, hc, map_eq_map, map_some]
    simp only [lastTaken, hmod, hc, log_deliver]
    rw [← hjoin]
    split_ifs with h₁ h₂ h₂
    · rw [shown_concat]
    · exact absurd (Path.join_left_cancel h₁).symm h₂
    · exact absurd (h₂ ▸ rfl) h₁
    · rfl

/-- A message that is added changes what the peer holds of its own suffix. -/
theorem mem_replay_concat {messages : List NamespaceMessage} {m : NamespaceMessage} {q : Path} :
    q ∈ replay (messages ++ [m]) ↔
      match m with
      | .active suffix => q = suffix ∨ q ∈ replay messages
      | .done suffix => q ≠ suffix ∧ q ∈ replay messages := by
  rw [replay, List.foldl_append, List.foldl_cons, List.foldl_nil]
  cases m with
  | active suffix => exact Finset.mem_insert
  | done suffix => exact Finset.mem_erase

/-- An operation other than the own poll. -/
theorem Serving.act (hs : s.Serving) (h : s.act op = .ok s') (hop : op ≠ .poll s.consumer) :
    s'.Serving ∧ s'.peer = s.peer ∧ ∀ q, s'.lastTaken q = s.lastTaken q := by
  rcases hs.confined.step op with ⟨_, hrun, he, -⟩ | ⟨-, _, -, hrun⟩
  · simp only [NamespaceStream.act, hrun, Except.ok.injEq] at h
    subst h
    exact ⟨hs.of_effect he, rfl, hs.lastTaken_effect he hop⟩
  · simp only [NamespaceStream.act, hrun] at h
    cases h

variable {a : StreamOp}

/-- **What one step does**: either nothing is taken, and the peer is told nothing new, or the
task takes an update. -/
theorem Serving.step_cases (hs : s.Serving) (h : s.step a = .ok s') :
    (s'.Serving ∧ s'.peer = s.peer ∧ (∀ q, s'.lastTaken q = s.lastTaken q) ∧
        s.NothingIgnored a) ∨
      ∃ path active suffix, a = .take ∧ s.Ready ∧ s.next = some (path, active) ∧
        path.stripPrefix s.pre = some suffix ∧ s'.Serving ∧
        s'.peer = replay (s.written ++ (s.message suffix active).toList) ∧
        ∀ q, s'.lastTaken q = if q = suffix then active.isSome else s.lastTaken q := by
  cases a with
  | take =>
    rw [step] at h
    split_ifs at h with hready
    · cases hnext : s.next with
      | none =>
        rw [NamespaceStream.take, hnext] at h
        cases h
        exact .inl ⟨⟨hs.confined, hs.consumer⟩, rfl, fun _ => rfl,
          fun _ _ u hu => nomatch hnext.symm.trans hu⟩
      | some u =>
        obtain ⟨path, active⟩ := u
        obtain ⟨suffix, _, hsuffix, htake, he, hlast⟩ := hs.take hnext
        cases htake.symm.trans h
        have hs' := hs.of_effect he
        exact .inr ⟨path, active, suffix, rfl, hready, rfl, hsuffix,
          ⟨hs'.confined, hs'.consumer⟩, rfl, hlast⟩
    · cases h
      exact .inl ⟨hs, rfl, fun _ => rfl, fun hr => absurd hr hready⟩
  | write =>
    cases h
    refine .inl ⟨⟨hs.confined, hs.consumer⟩, ?_, fun _ => rfl, trivial⟩
    simp [peer]
  | finish =>
    have hended : ({ s with phase := .ended } : NamespaceStream).Serving :=
      ⟨hs.confined, hs.consumer⟩
    obtain ⟨hs', hpeer, hlast⟩ := hended.act h nofun
    exact .inl ⟨hs', hpeer, hlast, trivial⟩
  | other op =>
    rw [step] at h
    split_ifs at h with hown
    · cases h
      exact .inl ⟨hs, rfl, fun _ => rfl, trivial⟩
    · have hop : op ≠ .poll s.consumer := by
        rintro rfl
        exact hown rfl
      obtain ⟨hs', hpeer, hlast⟩ := hs.act h hop
      exact .inl ⟨hs', hpeer, hlast, trivial⟩

/-- A step keeps the view of the peer exactly if it ignores nothing the peer was told. -/
theorem Serving.consistent_iff (hs : s.Serving) (hq : s.Consistent) (h : s.step a = .ok s') :
    s'.Consistent ↔ s.NothingIgnored a := by
  rcases hs.step_cases h with ⟨-, hpeer, hlast, hp⟩ | ⟨_, active, suffix, rfl, hready, hnext,
    hsuffix, -, hpeer, hlast⟩
  · refine iff_of_true (fun q => ?_) hp
    rw [hpeer, hlast]
    exact hq q
  · have hpeer₀ : s.peer = replay s.written := by
      rw [peer, hready.2, toList_none, List.append_nil]
    rw [Consistent, hpeer₀] at hq
    rw [Consistent, hpeer, NothingIgnored, hpeer₀]
    simp only [hlast, hnext, hsuffix, mem_def, some.injEq, forall_eq']
    cases active with
    | some b =>
      refine iff_of_true (fun q => ?_) nofun
      rw [message, if_pos isSome_some, toList_some, mem_replay_concat, hq]
      split_ifs with heq
      · exact iff_of_true (.inl heq) rfl
      · exact or_iff_right heq
    | none =>
      by_cases hphase : s.phase = .initial
      · -- the unannouncement is ignored
        rw [message, if_neg (by simp), if_pos hphase, toList_none, List.append_nil]
        constructor
        · intro h _ _ _ hmem
          have := (h suffix).mp hmem
          rw [if_pos rfl] at this
          cases this
        · intro h q
          split_ifs with heq
          · exact iff_of_false (heq ▸ h hready hphase rfl) (by simp)
          · exact hq q
      · refine iff_of_true (fun q => ?_) (fun _ hinitial => absurd hinitial hphase)
        rw [message, if_neg (by simp), if_neg hphase, toList_some, mem_replay_concat, hq]
        split_ifs with heq
        · exact iff_of_false (fun h => h.1 heq) (by simp)
        · exact and_iff_right heq

theorem Serving.of_step (hs : s.Serving) (h : s.step a = .ok s') : s'.Serving := by
  rcases hs.step_cases h with ⟨hs', -⟩ | ⟨-, -, -, -, -, -, -, hs', -⟩
  · exact hs'
  · exact hs'

/-- Only the operations of others fail. -/
theorem Serving.of_error (hs : s.Serving) {e : StreamPanic} (h : s.step a = .error e) :
    a ≠ .take ∧ e ≠ .invalidPath := by
  have hact : ∀ {s₀ : NamespaceStream} {op : OriginOp}, s₀.act op = .error e →
      e ≠ .invalidPath := by
    intro s₀ op h
    rw [NamespaceStream.act] at h
    split at h
    · cases h
    · cases h
      exact nofun
  cases a with
  | take =>
    rw [step] at h
    split_ifs at h
    cases hnext : s.next with
    | none =>
      rw [NamespaceStream.take, hnext] at h
      cases h
    | some u =>
      obtain ⟨_, _, -, htake, -⟩ := hs.take hnext
      cases htake.symm.trans h
  | write => cases h
  | finish => exact ⟨nofun, hact h⟩
  | other op =>
    rw [step] at h
    split_ifs at h
    exact ⟨nofun, hact h⟩

theorem nothingIgnored_of_ne_take (h : a ≠ .take) : s.NothingIgnored a := by
  cases a with
  | take => exact absurd rfl h
  | _ => trivial

end Steps

/-! ### Whole runs -/

theorem serving_new {o o' : OriginSystem} (ho : o.Confined) {consumer : ConsumerId} {pre : Path}
    (hscope : o.step (.consumerScope consumer [pre]) = .ok o')
    (hsome : o'.consumers.length = o.consumers.length + 1) :
    (new o' o.consumers.length pre).Serving ∧ (new o' o.consumers.length pre).Consistent := by
  obtain ⟨_, c, -, hc, hreceived, hpermits⟩ := ho.consumerScope hscope hsome
  refine ⟨⟨ho.of_step hscope, c, hc, fun path hpath => ?_⟩, fun suffix => ?_⟩
  · obtain ⟨_, hp, hpre⟩ := ((hpermits path).mp hpath).2
    exact List.mem_singleton.mp hp ▸ hpre
  · refine iff_of_false (fun h => absurd h (Finset.notMem_empty _)) ?_
    simp [lastTaken, new, hc, OriginConsumer.log, hreceived]

/-- **What the peer is told.** The task of a `SUBSCRIBE_NAMESPACE` on any consumer of an origin, in
any interleaving with the operations on the origin, does not panic, and the peer is told at all
times exactly what was taken if and only if the first loop ignores nothing the peer was told. -/
theorem namespace_view (info : Origin) (ops : List OriginOp) {o o' : OriginSystem}
    (ho : run OriginSystem.step (OriginSystem.init info) ops = .ok o) (consumer : ConsumerId)
    (pre : Path) (hscope : o.step (.consumerScope consumer [pre]) = .ok o')
    (hsome : o'.consumers.length = o.consumers.length + 1) (later : List StreamOp) :
    run NamespaceStream.step (new o' o.consumers.length pre) later ≠ .error .invalidPath ∧
      ((∀ n s, run NamespaceStream.step (new o' o.consumers.length pre) (later.take n) = .ok s →
          s.Consistent) ↔
        Meets NamespaceStream.step NothingIgnored (new o' o.consumers.length pre) later) := by
  obtain ⟨hserving, hconsistent⟩ := serving_new (OriginSystem.Confined.run info ho) hscope hsome
  refine ⟨run_ne_error (I := Serving) (fun hs h => hs.of_step h)
    (fun hs h => (hs.of_error h).2 rfl)
    hserving later,
    forall_take_iff_meets (I := Serving) (fun hs h => hs.of_step h)
      (fun hs hq h => hs.consistent_iff hq h)
      (fun hs h => nothingIgnored_of_ne_take (hs.of_error h).1) hserving hconsistent later⟩

/-- An origin with a consumer and a broadcast at `a/x`. -/
def published : Except Panic OriginSystem :=
  run OriginSystem.step (OriginSystem.init ⟨1⟩)
    [.consume 0, .publish 0 OriginSystem.pathAX OriginSystem.local₀]

/-- The broadcast ends after the first loop, and is unannounced to the peer. -/
theorem namespace_view_later :
    ∃ o o', published = .ok o ∧ o.step (.consumerScope 0 [OriginSystem.pathA]) = .ok o' ∧
      (∀ n s, run NamespaceStream.step (new o' 1 OriginSystem.pathA)
          (([.take, .write, .take, .other (.close 0), .other (.cleanup 0), .take,
            .write] : List StreamOp).take n) = .ok s → s.Consistent) := by
  have h := namespace_view ⟨1⟩ [.consume 0, .publish 0 pathAX local₀] rfl
    0 pathA rfl rfl [.take, .write, .take, .other (.close 0), .other (.cleanup 0),
      .take, .write]
  exact ⟨_, _, rfl, rfl, h.2.mpr (by decide)⟩

/-- The broadcast ends while its `NAMESPACE` is being written. The first loop takes the
unannouncement, and the peer keeps the namespace. -/
theorem ended_namespace_stays_active :
    ∃ o o' s, published = .ok o ∧ o.step (.consumerScope 0 [OriginSystem.pathA]) = .ok o' ∧
      run NamespaceStream.step (new o' 1 OriginSystem.pathA)
        [.take, .other (.close 0), .other (.cleanup 0), .write, .take, .take] = .ok s ∧
      s.phase = .updates ∧ s.writing = none ∧ s.next = none ∧
      Path.new ['x'] ∈ replay s.written ∧ s.lastTaken (Path.new ['x']) = false :=
  ⟨_, _, _, rfl, rfl, rfl, rfl, rfl, rfl, by decide, rfl⟩

end NamespaceStream

end HermitMoq
