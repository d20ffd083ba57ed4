import HermitMoq.ToggleContract

/-!
# An Origin Used Through Its Unscoped Handles

A relay publishes into its origin through the unscoped producer and reads it through
unscoped consumers, whose only node is the root. The root is always linked, so every such
use is attached, and the operations of a relay never panic as long as no broadcast is
published twice. The lemmas say for each operation what it does to the tasks of the origin,
to its closed broadcasts and to what its consumers have received.
-/

namespace HermitMoq

open HermitMoq.Path

/-- A consumer of the root. -/
structure OriginConsumer.Unscoped (c : OriginConsumer) : Prop where
  root : c.root = Path.empty
  nodes : c.nodes = [(Path.empty, 0)]

theorem OriginConsumer.Unscoped.covers {c : OriginConsumer} (hc : c.Unscoped) (q : Path) :
    c.Covers q := by
  refine ⟨(empty, 0), ?_, ?_⟩
  · rw [hc.nodes]
    exact List.mem_singleton.mpr rfl
  · exact List.nil_prefix

namespace OriginSystem

/-- A step keeps the identity of the origin and its consumers with what they received. -/
structure Frame (s s' : OriginSystem) : Prop where
  info : s'.info = s.info
  consumers : ∀ {i c}, s.live i = some c →
    ∃ c', s'.live i = some c' ∧ c.SameHandle c'

section Unscoped

variable {s s' : OriginSystem} {op : OriginOp} {c₀ : OriginConsumer}

theorem Frame.refl (s : OriginSystem) : Frame s s :=
  ⟨rfl, fun hc => ⟨_, hc, rfl, rfl, rfl, rfl⟩⟩

theorem frame_of_consumers (hi : s'.info = s.info) (hc : s'.consumers = s.consumers) :
    Frame s s' := by
  refine ⟨hi, fun {i c} hlive => ⟨c, ?_, rfl, rfl, rfl, rfl⟩⟩
  rwa [live, hc]

theorem frame_told {tree : OriginTree} {leaf : ℕ} {notice : Option Notice}
    (hi : s'.info = s.info) (hc : s'.consumers = told tree leaf notice s.consumers) :
    Frame s s' := by
  refine ⟨hi, fun {i c} hlive => ?_⟩
  obtain ⟨hc₀, hd⟩ := live_eq_some_iff.mp hlive
  obtain ⟨c', hc', hsame⟩ := told_of_some tree leaf notice hc₀
  exact ⟨c', live_eq_some_iff.mpr ⟨hc ▸ hc', hsame.dropped.trans hd⟩, hsame⟩

theorem frame_append (hi : s'.info = s.info)
    (hc : s'.consumers = s.consumers ++ [c₀]) : Frame s s' := by
  refine ⟨hi, fun {i c} hlive => ⟨c, ?_, rfl, rfl, rfl, rfl⟩⟩
  obtain ⟨hi, hd⟩ := live_eq_some_iff.mp hlive
  refine live_eq_some_iff.mpr ⟨?_, hd⟩
  rw [hc, List.getElem?_append_left (List.getElem?_eq_some_iff.mp hi).1, hi]

/-- Everything but a poll or the drop of a consumer keeps what the consumers received. -/
theorem Effect.frame (he : Effect s op s') (hpoll : ∀ i, op ≠ .poll i)
    (hdrop : ∀ i, op ≠ .dropConsumer i) : Frame s s' := by
  cases he with
  | published ht hrw hfind | cleaned ht hclosed hrem hrw => exact frame_told rfl rfl
  | joined hsrc hg hok hsame hrep hreg => exact frame_append rfl rfl
  | left hc hsame hreg => exact absurd rfl (hdrop _)
  | polled hc htake => exact absurd rfl (hpoll _)
  | _ => exact frame_of_consumers rfl rfl

/-- An operation that publishes nothing is attached if it joins at linked nodes. -/
theorem allAttached_of_spawns (h : s.spawns op = none) (hj : JoinsLinked s op) :
    AllAttached s op := by
  refine ⟨⟨fun t ht => ?_, fun t ht => ?_⟩, hj⟩
  · rw [h] at ht
    cases ht
  · rw [h] at ht
    cases ht

/-! ### Publishing and closing -/

variable {b : BroadcastConsumer} {i : ConsumerId} {path : Path}

theorem target_unscoped (hr : s.Rooted) (path : Path) (hb : b.hops.contains s.info = false) :
    s.target 0 path b = some (0, path, path) := by
  have hstrip : path.stripPrefix empty = some path := by
    rw [stripPrefix_eq_some_iff, parts_empty, List.nil_append]
  simp [target, hr.unscoped, hb, OriginNodes.get, hstrip, empty_join]

/-- A broadcast is fresh at a path at which it does not wait for its cleanup. -/
theorem fresh_unscoped (hr : s.Rooted) (hb : b.hops.contains s.info = false)
    (hnew : ∀ t ∈ s.cleanups, t.full = path → t.broadcast.state ≠ b.state) :
    Fresh s (.publish 0 path b) := by
  intro t ht
  rw [spawns, target_unscoped hr path hb, Option.map_some, Option.mem_some_iff] at ht
  subst ht
  intro hstored
  obtain ⟨_, hb', hstate⟩ := List.mem_map.mp hstored
  obtain ⟨t, ht, hfull, rfl⟩ := hr.mem_stored_iff.mp hb'
  exact hnew t ht hfull hstate

/-- Publishing through the unscoped producer. -/
theorem publish_spec (ht : s.Toggles) (hb : b.hops.contains s.info = false)
    (hf : Fresh s (.publish 0 path b)) :
    ∃ s', s.step (.publish 0 path b) = .ok s' ∧ s'.Toggles ∧ Frame s s' ∧
      s'.cleanups = s.cleanups ++ [⟨0, path, b, path⟩] ∧ s'.closed = s.closed := by
  have htarget := target_unscoped ht.rooted path hb
  have hattached : AllAttached s (.publish 0 path b) := by
    refine ⟨⟨hf, fun t hmem => ?_⟩, trivial⟩
    rw [spawns, htarget, Option.map_some, Option.mem_some_iff] at hmem
    rw [← hmem]
    exact TrieHeap.linked_zero ht.rooted.accounted.wf.tree
  obtain ⟨s', hrun, heff, -⟩ := ht.rooted.accounted.step hf
  refine ⟨s', hrun, ht.effect hattached heff, heff.frame (by simp) (by simp), ?_⟩
  simp only [step, htarget, publishAt] at hrun
  split at hrun
  · obtain rfl := Except.ok.inj hrun
    exact ⟨rfl, rfl⟩
  · cases hrun

/-- Closing a broadcast. -/
theorem close_spec (ht : s.Toggles) (state : ℕ) :
    ∃ s', s.step (.close state) = .ok s' ∧ s'.Toggles ∧ Frame s s' ∧
      s'.cleanups = s.cleanups ∧ s'.closed = state :: s.closed := by
  have hattached : AllAttached s (.close state) := allAttached_of_spawns rfl trivial
  exact ⟨_, rfl, ht.effect hattached (Effect.closes state), frame_of_consumers rfl rfl, rfl, rfl⟩

/-- Running a cleanup. -/
theorem cleanup_spec (ht : s.Toggles) (task : ℕ) :
    ∃ s', s.step (.cleanup task) = .ok s' ∧ s'.Toggles ∧ Frame s s' ∧ s'.closed = s.closed ∧
      (∀ t ∈ s'.cleanups, t ∈ s.cleanups) ∧
      ∀ t ∈ s.cleanups, t ∈ s'.cleanups ∨ t.broadcast.state ∈ s.closed := by
  have hattached : AllAttached s (.cleanup task) := allAttached_of_spawns rfl trivial
  obtain ⟨s', hrun, heff, -⟩ := ht.rooted.accounted.step hattached.1.1
  obtain ⟨hsub, hkeep⟩ := heff.cleanups
  refine ⟨s', hrun, ht.effect hattached heff, heff.frame (by simp) (by simp), ?_, fun t hmem => ?_,
    hkeep⟩
  · cases heff with
    | _ => rfl
  · rcases hsub t hmem with hmem | hmem
    · exact hmem
    · cases hmem

/-! ### Consumers -/

/-- An operation that creates an unscoped consumer. -/
theorem join_spec (ht : s.Toggles) (ha : AllAttached s op) (hpoll : ∀ i, op ≠ .poll i)
    (hdrop : ∀ i, op ≠ .dropConsumer i)
    (hstep : s.step op = s.newConsumer Path.empty [(Path.empty, 0)]) :
    ∃ s' c, s.step op = .ok s' ∧ s'.Toggles ∧ Frame s s' ∧
      s'.cleanups = s.cleanups ∧ s'.closed = s.closed ∧
      s'.consumers = s.consumers ++ [c] ∧ c.Unscoped ∧ c.received = [] ∧ c.dropped = false := by
  have hwf := ht.rooted.accounted.wf
  obtain ⟨s', hrun, heff, -⟩ := ht.rooted.accounted.step ha.1.1
  have ho := hwf.producers _ (List.mem_of_getElem? ht.rooted.unscoped)
  obtain ⟨tree, pending, hnew, -, -, -⟩ := newConsumer_spec hwf ho
  have hs' : s' = { s with
      tree, consumers := s.consumers ++ [.fresh empty [(empty, 0)] pending] } := by
    rw [hstep, hnew] at hrun
    exact (Except.ok.inj hrun).symm
  refine ⟨s', .fresh empty [(empty, 0)] pending, hrun, ht.effect ha heff,
    heff.frame hpoll hdrop, ?_⟩
  rw [hs']
  exact ⟨rfl, rfl, rfl, ⟨rfl, rfl⟩, rfl, rfl⟩

/-- Creating a consumer of the unscoped producer. -/
theorem consume_spec (ht : s.Toggles) :
    ∃ s' c, s.step (.consume 0) = .ok s' ∧ s'.Toggles ∧ Frame s s' ∧
      s'.cleanups = s.cleanups ∧ s'.closed = s.closed ∧
      s'.consumers = s.consumers ++ [c] ∧ c.Unscoped ∧ c.received = [] ∧ c.dropped = false := by
  have hattached : AllAttached s (.consume 0) := by
    refine allAttached_of_spawns rfl fun p hp e he => ?_
    rw [ht.rooted.unscoped, Option.mem_some_iff] at hp
    subst hp
    obtain rfl := List.mem_singleton.mp he
    exact TrieHeap.linked_zero ht.rooted.accounted.wf.tree
  refine join_spec ht hattached (by simp) (by simp) ?_
  simp only [step, ht.rooted.unscoped]

/-- Scoping an unscoped consumer to everything. -/
theorem consumerScope_spec (ht : s.Toggles) (hi : s.live i = some c₀) (hc₀ : c₀.Unscoped) :
    ∃ s' c, s.step (.consumerScope i [Path.empty]) = .ok s' ∧ s'.Toggles ∧ Frame s s' ∧
      s'.cleanups = s.cleanups ∧ s'.closed = s.closed ∧
      s'.consumers = s.consumers ++ [c] ∧ c.Unscoped ∧ c.received = [] ∧ c.dropped = false := by
  have hattached : AllAttached s (.consumerScope i [empty]) :=
    allAttached_of_spawns rfl trivial
  have hselect : OriginNodes.select s.tree c₀.nodes (PathPrefixes.new [empty]) =
      .ok (s.tree, some [(empty, 0)]) := by
    rw [hc₀.nodes]
    rfl
  refine join_spec ht hattached (by simp) (by simp) ?_
  simp only [step, hi, hselect, addConsumer, hc₀.root]

/-- Taking an update from an unscoped consumer. An announced broadcast is the active one,
and announcements and unannouncements take turns. -/
theorem poll_spec (ht : s.Toggles) {c : OriginConsumer}
    (hi : s.live i = some c) (hc : c.Unscoped) {u : OriginAnnounce}
    {pending : OriginConsumerState} (htake : c.pending.take = some (u, pending)) :
    ∃ s', s.step (.poll i) = .ok s' ∧ s'.Toggles ∧ s'.info = s.info ∧
      s'.cleanups = s.cleanups ∧ s'.closed = s.closed ∧
      (∀ {j c'}, s.live j = some c' → j ≠ i → s'.live j = some c') ∧
      s'.live i = some (c.deliver u pending) ∧
      (shown (c.log u.1)).isSome ≠ u.2.isSome ∧
      ∀ b, u.2 = some b → s.activeAt u.1 = some b := by
  have hattached : AllAttached s (.poll i) := allAttached_of_spawns rfl trivial
  have ht' := ht.effect hattached (Effect.polled hi htake)
  obtain ⟨hci, hd⟩ := live_eq_some_iff.mp hi
  have hlive : { s with consumers := s.consumers.modify i (.deliver u pending) }.live i =
      some (c.deliver u pending) := by
    refine live_eq_some_iff.mpr ⟨getElem?_modify_eq_some.mpr ⟨c, hci, if_pos rfl⟩, hd⟩
  refine ⟨_, by simp only [step, hi, htake], ht', rfl, rfl, rfl, ?_, hlive, ?_, ?_⟩
  · intro j c' hj hne
    obtain ⟨hcj, hdj⟩ := live_eq_some_iff.mp hj
    exact live_eq_some_iff.mpr ⟨getElem?_modify_eq_some.mpr ⟨c', hcj, if_neg (Ne.symm hne)⟩, hdj⟩
  · have halt := ht'.alternates (live_eq_some_iff.mp hlive).1 u.1
    rw [log_deliver, if_pos rfl] at halt
    exact (alternates_concat.mp halt).2
  · intro b hb
    obtain ⟨update, hlook, hu, -⟩ := OriginConsumerState.lookup_take htake
    have hco := (ht.inStep hi).coherent (hc.covers u.1)
    rw [hc.root, empty_join, hlook] at hco
    cases update with
    | announce b' =>
      obtain rfl : b' = b := Option.some.inj (hu.symm.trans hb)
      exact hco.2
    | unannounce => cases hu.symm.trans hb
    | unannounceAnnounce b' => cases hu.symm.trans hb

end Unscoped

end OriginSystem

end HermitMoq
