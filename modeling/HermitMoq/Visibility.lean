import HermitMoq.Convergence

/-!
# Visibility Through the Unscoped Producer

A scoped or re-rooted producer holds on to the node it publishes below. A cleanup that ran
from another handle can have pruned that node from the tree in the meantime, because
nothing was published or consumed below it: the holder of the node is not counted. What
is published through such a detached node is announced to the consumers above it, along
the notification links, but cannot be found from the root
(`detached_publish_is_invisible`).

As long as every publish goes through a node that is still linked to the root, the unscoped
producer sees exactly what was published and not cleaned up. Once it holds a broadcast, a
node is never pruned, so the condition is only about the moment of the publish.
-/

namespace HermitMoq

open List HermitMoq.Path

namespace OriginSystem

/-- An accepted publish goes through a node that is linked to the root. -/
def Attached (s : OriginSystem) (op : OriginOp) : Prop :=
  ∀ t ∈ s.spawns op, s.tree.Linked t.node

instance (s : OriginSystem) (op : OriginOp) : Decidable (Attached s op) :=
  inferInstanceAs (Decidable (∀ t ∈ s.spawns op, s.tree.Linked t.node))

/-- An accepted publish goes through a linked node and is no duplicate at its leaf. -/
def AttachedFresh (s : OriginSystem) (op : OriginOp) : Prop := Fresh s op ∧ Attached s op

instance (s : OriginSystem) (op : OriginOp) : Decidable (AttachedFresh s op) :=
  inferInstanceAs (Decidable (_ ∧ _))

/-- The accounting, with all pending cleanups starting from linked nodes and the unscoped
producer in its place. -/
structure Rooted (s : OriginSystem) : Prop where
  accounted : s.Accounted
  linked : ∀ t ∈ s.cleanups, s.tree.Linked t.node
  unscoped : s.producers[0]? = some ⟨Path.empty, [(Path.empty, 0)]⟩

theorem Rooted.init (info : Origin) : (init info).Rooted :=
  ⟨Accounted.init info, nofun, rfl⟩

section Rooted

variable {s s' : OriginSystem} {op : OriginOp}

section

variable (hr : s.Rooted) (path : Path)

include hr

/-- A rewritten leaf leaves the nodes linked from which a task leads to a stored
broadcast. -/
theorem Rooted.linked_rewrites (ha' : s'.Accounted) {n m : ℕ} {ds : List Dir}
    {o : Option OriginBroadcast} (hrw : OriginTree.Rewrites s.tree n ds m o s'.tree)
    {t : Cleanup} (ht : t ∈ s.cleanups) (ht' : t ∈ s'.cleanups) : s'.tree.Linked t.node := by
  obtain ⟨_, hx⟩ := hr.accounted.leads t ht
  obtain ⟨_, hy⟩ := ha'.leads t ht'
  obtain rfl := hrw.find_back hx hy
  exact hrw.linked (hr.linked t ht) hx (vacant_of_mem_stored (ha'.mem_stored ht' hy))

/-- The starting nodes of the pending cleanups stay linked. -/
theorem Rooted.effect (hf : AttachedFresh s op) (he : Effect s op s') :
    s'.Rooted := by
  have ha' := hr.accounted.effect hf.1 he
  refine ⟨ha', ?_, he.producers hr.unscoped⟩
  cases he with
  | published ht hrw hfind =>
    intro t' ht'
    rcases mem_append.mp ht' with hold | hnew
    · exact hr.linked_rewrites ha' hrw hold ht'
    · obtain rfl := mem_singleton.mp hnew
      have hv := vacant_of_mem_stored (ha'.mem_stored ht' hfind)
      exact hrw.linked_start (hf.2 _ (spawns_of_target ht)) hv
  | cleaned ht hclosed hrem hrw =>
    intro t' ht'
    exact hr.linked_rewrites ha' hrw (mem_of_mem_eraseIdx ht') ht'
  | grown op hg | derived hsrc hg hok =>
    intro t ht
    exact (hr.linked t ht).grows hg ((hr.linked t ht).lt hr.accounted.wf.tree)
  | joined hsrc hg hok hsame hrep hreg =>
    intro t ht
    refine hsame.linked.mpr ?_
    exact (hr.linked t ht).grows hg ((hr.linked t ht).lt hr.accounted.wf.tree)
  | left hc hsame hreg =>
    intro t ht
    exact hsame.linked.mpr (hr.linked t ht)
  | _ => exact hr.linked

/-- One step keeps the starting nodes of all pending cleanups linked. -/
theorem Rooted.step (hf : AttachedFresh s op) :
    ∃ s', s.step op = .ok s' ∧ s'.Rooted := by
  obtain ⟨s', hrun, heff, -⟩ := hr.accounted.step hf.1
  exact ⟨s', hrun, hr.effect hf heff⟩

/-- What the unscoped producer finds. -/
theorem Rooted.getBroadcast :
    s.getBroadcast 0 path = active (s.tree.valueFrom 0 path.parts).broadcast := by
  refine getBroadcast_eq hr.unscoped ?_
  have hstrip : path.stripPrefix empty = some path := by
    rw [stripPrefix_eq_some_iff, parts_empty, nil_append]
  rw [OriginNodes.get, findSome?_cons, hstrip, Option.map_some]

/-- What is stored at a path is what waits there for its cleanup. -/
theorem Rooted.mem_stored_iff {path : Path} {b : BroadcastConsumer} :
    b ∈ stored (s.tree.valueFrom 0 path.parts).broadcast ↔
      ∃ t ∈ s.cleanups, t.full = path ∧ t.broadcast = b := by
  have ha := hr.accounted
  constructor
  · intro hb
    have hne : s.tree.valueFrom 0 path.parts ≠ default := by
      intro heq
      rw [heq] at hb
      exact absurd hb not_mem_nil
    obtain ⟨x, hx, hv⟩ := TrieHeap.exists_find_of_valueFrom hne
    rw [← hv] at hb
    obtain ⟨t, ht, hbt⟩ := mem_map.mp ((ha.perm x).mem_iff.mp hb)
    obtain ⟨ht, hlead⟩ := mem_filter.mp ht
    refine ⟨t, ht, parts_injective ?_, hbt⟩
    rw [(ha.wf.cleanups t ht).2, ← (ha.wf.tree.find_label (leadsTo_iff.mp hlead)).1,
      ha.wf.tree.label_of_find hx]
  · rintro ⟨t, ht, rfl, rfl⟩
    obtain ⟨_, hx⟩ := ha.leads t ht
    rw [(ha.wf.cleanups t ht).2, (hr.linked t ht).valueFrom_append,
      TrieHeap.valueFrom_of_find hx]
    exact ha.mem_stored ht hx

/-- The unscoped producer finds a broadcast exactly where one waits for its cleanup. -/
theorem Rooted.isSome_getBroadcast :
    (s.getBroadcast 0 path).isSome = true ↔ ∃ t ∈ s.cleanups, t.full = path := by
  rw [hr.getBroadcast]
  constructor
  · intro hsome
    obtain ⟨_, hb⟩ := Option.isSome_iff_exists.mp hsome
    obtain ⟨t, ht, hfull, -⟩ := hr.mem_stored_iff.mp (mem_stored_of_active hb)
    exact ⟨t, ht, hfull⟩
  · rintro ⟨t, ht, hfull⟩
    rw [Option.isSome_iff_ne_none, Ne, active_eq_none_iff, ← stored_eq_nil_iff]
    exact ne_nil_of_mem (hr.mem_stored_iff.mpr ⟨t, ht, hfull, rfl⟩)

/-- A consumer of the unscoped producer starts with exactly what the producer finds. -/
theorem Rooted.consume :
    ∃ s' c, s.step (.consume 0) = .ok s' ∧ s'.consumers = s.consumers ++ [c] ∧
      ∀ path u, c.pending.lookup path = some u ↔
        ∃ b, u = .announce b ∧ s.getBroadcast 0 path = some b := by
  have hwf := hr.accounted.wf
  have ho := hwf.producers _ (mem_of_getElem? hr.unscoped)
  obtain ⟨tree, pending, hrun, -, hrep, -⟩ := newConsumer_spec hwf ho
  refine ⟨{ s with
      tree
      consumers := s.consumers ++ [OriginConsumer.fresh empty [(empty, 0)] pending] },
    OriginConsumer.fresh empty [(empty, 0)] pending, ?_, rfl, fun path u => ?_⟩
  · simp only [OriginSystem.step, hr.unscoped]
    exact hrun
  · refine (hrep path u).trans (exists_congr fun b => and_congr_right fun _ => ?_)
    rw [empty_join, mem_snapshot hwf ho, hr.getBroadcast]
    constructor
    · rintro ⟨_, he, _, m, hf, hparts, hact⟩
      obtain rfl := mem_singleton.mp he
      rw [hwf.tree.root_label, nil_append] at hparts
      rw [hparts, TrieHeap.valueFrom_of_find hf, hact]
    · intro hact
      have hne : s.tree.valueFrom 0 path.parts ≠ default := by
        intro heq
        rw [heq] at hact
        cases hact
      obtain ⟨m, hf, hv⟩ := TrieHeap.exists_find_of_valueFrom hne
      refine ⟨_, mem_singleton.mpr rfl, path.parts, m, hf, ?_, hv ▸ hact⟩
      rw [hwf.tree.root_label, nil_append]

end

end Rooted

/-! ### Whole runs -/

/-- **What is published is visible.** In a run whose publishes all go through nodes that are still
linked to the root, and are no duplicates at their leaf, the unscoped producer finds a broadcast at
a path exactly if one was published there, through any handle, and not cleaned up; and a consumer
created now starts with an announcement for exactly these paths. -/
theorem attached_run_is_visible (info : Origin) (ops : List OriginOp)
    (hm : Meets OriginSystem.step AttachedFresh (init info) ops) :
    ∃ s, run OriginSystem.step (init info) ops = .ok s ∧
      (∀ path, (s.getBroadcast 0 path).isSome = true ↔ ∃ t ∈ s.cleanups, t.full = path) ∧
      ∃ s' c, s.step (.consume 0) = .ok s' ∧ s'.consumers = s.consumers ++ [c] ∧
        ∀ path u, c.pending.lookup path = some u ↔
          ∃ b, u = .announce b ∧ s.getBroadcast 0 path = some b := by
  obtain ⟨s, hrun, hr⟩ := hm.invariant (I := Rooted) (fun hr hf => hr.step hf)
    (Rooted.init info)
  exact ⟨s, hrun, hr.isSome_getBroadcast, hr.consume⟩

/-- The path `a/x`. -/
def pathAX : Path := Path.new ['a', '/', 'x']

/-- The path `a/y`. -/
def pathAY : Path := Path.new ['a', '/', 'y']

/-- A scoped producer publishes while its node is linked. -/
theorem attached_run_is_visible_scoped :
    ∃ s, run OriginSystem.step (init ⟨1⟩)
        [.scope 0 [pathA], .publish 1 pathAX local₀, .publish 0 pathAY remote₁] = .ok s ∧
      (∀ path, (s.getBroadcast 0 path).isSome = true ↔ ∃ t ∈ s.cleanups, t.full = path) ∧
      ∃ s' c, s.step (.consume 0) = .ok s' ∧ s'.consumers = s.consumers ++ [c] ∧
        ∀ path u, c.pending.lookup path = some u ↔
          ∃ b, u = .announce b ∧ s.getBroadcast 0 path = some b :=
  attached_run_is_visible ⟨1⟩ _ (by decide)

/-- A producer is scoped to `a`. A broadcast published at `a/x` through the unscoped
producer closes, and its cleanup prunes the node of `a`. What the scoped producer publishes
at `a/y` from then on waits for its cleanup but cannot be found. -/
theorem detached_publish_is_invisible :
    ∃ s, run OriginSystem.step (init ⟨1⟩)
        [.scope 0 [pathA], .publish 0 pathAX local₀, .close 0, .cleanup 0,
          .publish 1 pathAY remote₁] = .ok s ∧
      (∃ t ∈ s.cleanups, t.full = pathAY) ∧ s.getBroadcast 0 pathAY = none :=
  ⟨_, rfl, ⟨_, mem_singleton.mpr rfl, rfl⟩, rfl⟩

end OriginSystem

end HermitMoq
