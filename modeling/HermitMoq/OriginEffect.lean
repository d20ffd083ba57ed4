import HermitMoq.OriginNotify
import HermitMoq.OriginJoin

/-!
# What One Step of an Origin Does

Every later argument about an origin goes through the relation `Effect`, which says once
what each operation can do to the state, and through the shape invariant
`OriginSystem.WF`. In a well-formed state no operation panics, with one exception: a
cleanup panics exactly if the leaf branch of `OriginNode::remove` does.
-/

namespace HermitMoq

open List OriginConsumer OriginTree TrieHeap Nat

/-! ### The shape invariant -/

namespace OriginSystem

/-- The **shape invariant** of an origin: the handles are well placed, exactly the
consumers that were not dropped are registered, each at its nodes and under its root, and
entries and tasks carry the paths that the labels spell. -/
structure WF (s : OriginSystem) : Prop where
  tree : s.tree.WF
  producers : ∀ p ∈ s.producers, HandleOk s.tree p.root False p.nodes
  consumers : ∀ {i : ConsumerId} {c : OriginConsumer}, s.consumers[i]? = some c →
    HandleOk s.tree c.root False c.nodes
  registered : ∀ {x i root}, (s.tree.cell x).value.consumers.lookup i = some root ↔
    ∃ c, s.live i = some c ∧ c.root = root ∧ x ∈ c.nodes.map Prod.snd
  entry_path : ∀ {x e}, (s.tree.cell x).value.broadcast = some e →
    e.path.parts = (s.tree.cell x).label
  cleanups : ∀ t ∈ s.cleanups, t.node < s.tree.next ∧
    t.full.parts = (s.tree.cell t.node).label ++ t.rest.parts

variable {s : OriginSystem} {b : BroadcastConsumer} {path rest full : Path} {producer node : ℕ}
  {root : Path} {i : ConsumerId} {notice : Option Notice} {e : OriginBroadcast}

theorem live_eq_some_iff {c : OriginConsumer} :
    s.live i = some c ↔ s.consumers[i]? = some c ∧ c.dropped = false := by
  rw [live, Option.filter_eq_some_iff]
  simp

/-- An origin starts well formed. -/
theorem WF.init (info : Origin) : (init info).WF where
  tree := TrieHeap.WF.empty
  producers p hp := by
    obtain rfl := mem_singleton.mp hp
    refine ⟨fun e he => ?_, pairwise_singleton _ _⟩
    obtain rfl := mem_singleton.mp he
    exact ⟨one_pos, rfl, False.elim⟩
  consumers hc := by simp [OriginSystem.init] at hc
  registered {x i root} := by
    simp [OriginSystem.init, empty, blank, live, default]
  entry_path he := by simp [OriginSystem.init, empty, blank] at he
  cleanups t ht := absurd ht not_mem_nil

theorem target_eq_some (ht : s.target producer path b = some (node, rest, full)) :
    ∃ p, s.producers[producer]? = some p ∧ OriginNodes.get p.nodes path = some (node, rest) ∧
      full = p.root.join path := by
  simp only [target, bind, Option.bind_eq_some_iff] at ht
  obtain ⟨p, hp, ht⟩ := ht
  split_ifs at ht
  obtain ⟨⟨n, r⟩, hget, ht⟩ := Option.bind_eq_some_iff.mp ht
  obtain ⟨rfl, rfl, rfl⟩ : n = node ∧ r = rest ∧ p.root.join path = full := by
    simpa using ht
  exact ⟨p, hp, hget, rfl⟩

/-- An entry is at a node that is there. -/
theorem WF.lt_next (hs : s.WF) {x : ℕ}
    (he : (s.tree.cell x).value.broadcast = some e) : x < s.tree.next := by
  by_contra hge
  rw [(hs.tree.unallocated (not_lt.mp hge)).1] at he
  cases he

/-- Where a publish goes: through a node of the producer, whose label starts the path. -/
theorem target_spec (hs : s.WF) (ht : s.target producer path b = some (node, rest, full)) :
    node < s.tree.next ∧ full.parts = (s.tree.cell node).label ++ rest.parts := by
  obtain ⟨p, hp, hget, rfl⟩ := target_eq_some ht
  have ho := hs.producers p (mem_of_getElem? hp)
  obtain ⟨_, hmem, hlab⟩ := ho.get_label hget
  exact ⟨(ho.placed _ hmem).lt, hlab⟩

/-! ### Notifications in a well-formed state -/

section Notify

variable {n m : ℕ} {ds : List Dir} {o : Option OriginBroadcast} {h' : OriginTree}

/-- The listeners of a leaf are registered above it, under their own roots. -/
theorem mem_listeners (hs : s.WF) (hrw : OriginTree.Rewrites s.tree n ds m o h')
    (hl : (i, root) ∈ h'.listeners m) :
    ∃ c, s.live i = some c ∧ c.root = root ∧
      ∃ e ∈ c.nodes, e.2 ∈ h'.ancestors (m + 1) m ∧
        (s.tree.cell e.2).label <+: (s.tree.cell n).label ++ ds := by
  obtain ⟨_, hx, hreg⟩ := mem_listeners_iff.mp hl
  rw [hrw.consumers, hs.registered] at hreg
  obtain ⟨c, hc, hroot, hmem⟩ := hreg
  obtain ⟨e, he, rfl⟩ := mem_map.mp hmem
  have ho := hs.consumers (live_eq_some_iff.mp hc).1
  refine ⟨c, hc, hroot, e, he, hx, ?_⟩
  rw [← hrw.leaf_label, ← hrw.label (ho.placed e he).lt]
  exact (hrw.wf.label_of_mem_ancestors hx).1

/-- No consumer listens twice to one leaf. -/
theorem nodup_listeners (hs : s.WF) (hrw : OriginTree.Rewrites s.tree n ds m o h') :
    ((h'.listeners m).map Prod.fst).Nodup := by
  rw [listeners, map_flatMap, nodup_flatMap]
  refine ⟨fun x _ => ?_, ?_⟩
  · rw [map_map]
    exact (h'.cell x).value.consumers.keys_nodup
  · refine List.Pairwise.imp_of_mem ?_ hrw.wf.nodup_ancestors
    intro x y hx hy hne i hi hi'
    have hreg : ∀ z ∈ h'.ancestors (m + 1) m,
        i ∈ ((h'.cell z).value.consumers.entries.map fun e => (e.1, e.2)).map Prod.fst →
        ∃ c, s.live i = some c ∧ z ∈ c.nodes.map Prod.snd ∧
          (s.tree.cell z).label <+: (h'.cell m).label := by
      intro z hz hmem
      rw [map_map] at hmem
      obtain ⟨e, he, rfl⟩ := mem_map.mp hmem
      have hlook := AList.mem_lookup_iff.mpr he
      rw [hrw.consumers] at hlook
      obtain ⟨c, hc, -, hzc⟩ := hs.registered.mp hlook
      obtain ⟨e', he', rfl⟩ := mem_map.mp hzc
      have hlt := ((hs.consumers (live_eq_some_iff.mp hc).1).placed e' he').lt
      refine ⟨c, hc, hzc, ?_⟩
      rw [← hrw.label hlt]
      exact (hrw.wf.label_of_mem_ancestors hz).1
    obtain ⟨c, hc, hxc, hxl⟩ := hreg x hx hi
    obtain ⟨c', hc', hyc, hyl⟩ := hreg y hy hi'
    obtain rfl : c = c' := by
      rw [hc] at hc'
      exact Option.some.inj hc'
    obtain ⟨_, he, rfl⟩ := mem_map.mp hxc
    obtain ⟨_, he', rfl⟩ := mem_map.mp hyc
    have ho := hs.consumers (live_eq_some_iff.mp hc).1
    exact hne (by rw [ho.eq_of_prefix he he' hxl hyl])

/-- A notification in a well-formed state does not panic. -/
theorem notify_eq (hs : s.WF) (hrw : OriginTree.Rewrites s.tree n ds m o h') {full : Path}
    (hfull : full.parts = (s.tree.cell n).label ++ ds)
    (hpath : ∀ a, notice = some a → a.path = full) :
    notify h' m s.consumers notice = .ok (told h' m notice s.consumers) := by
  cases notice with
  | none => rfl
  | some a =>
    refine notifyAll_eq (nodup_listeners hs hrw) ?_ ?_
    · rintro ⟨i, root⟩ hl c hc
      obtain ⟨_, hc', hroot, -⟩ := mem_listeners hs hrw hl
      have heq := (live_eq_some_iff.mp hc').1.symm.trans hc
      rw [← Option.some.inj heq, hroot]
    · rintro ⟨_, _⟩ hl
      obtain ⟨_, hc, rfl, e, he, -, hpre⟩ := mem_listeners hs hrw hl
      have ho := hs.consumers (live_eq_some_iff.mp hc).1
      rw [hpath a rfl, hfull]
      refine List.IsPrefix.trans ?_ hpre
      rw [(ho.placed e he).label]
      exact prefix_append _ _

end Notify

/-! ### Joining and leaving -/

section Join

variable {linked : Prop} {nodes : OriginNodes} {h : OriginTree}

/-- What a snapshot holds: the active routes below the nodes, each under the path that
the label of its node spells. -/
theorem mem_snapshot (hs : s.WF) (ho : HandleOk s.tree root linked nodes) {path : Path}
    : (path, b) ∈ snapshot s.tree nodes ↔
      ∃ e ∈ nodes, ∃ ks m, s.tree.find e.2 ks = some m ∧
        path.parts = (s.tree.cell e.2).label ++ ks ∧
        active (s.tree.cell m).value.broadcast = some b := by
  rw [snapshot, mem_flatMap]
  constructor
  · rintro ⟨e, he, hmem⟩
    obtain ⟨ks, m, a, hf, ha, rfl, rfl⟩ :=
      (mem_consumeInitial hs.tree (ho.placed e he).lt).mp hmem
    refine ⟨e, he, ks, m, hf, ?_, by rw [ha, active_some]⟩
    rw [hs.entry_path ha, (hs.tree.find_label hf).1]
  · rintro ⟨e, he, ks, m, hf, hparts, hact⟩
    obtain ⟨a, ha, hb⟩ := Option.map_eq_some_iff.mp hact
    refine ⟨e, he, (mem_consumeInitial hs.tree (ho.placed e he).lt).mpr
      ⟨ks, m, a, hf, ha, Path.parts_injective ?_, hb⟩⟩
    rw [hs.entry_path ha, (hs.tree.find_label hf).1, hparts]

/-- A snapshot holds at most one route for a path. -/
theorem snapshot_functional (hs : s.WF) (ho : HandleOk s.tree root linked nodes)
    {a a' : Path × BroadcastConsumer} (ha : a ∈ snapshot s.tree nodes)
    (ha' : a' ∈ snapshot s.tree nodes) (heq : a.1 = a'.1) : a.2 = a'.2 := by
  obtain ⟨e, he, ks, _, hf, hparts, hb⟩ := (mem_snapshot hs ho).mp ha
  obtain ⟨e', he', ks', _, hf', hparts', hb'⟩ := (mem_snapshot hs ho).mp ha'
  rw [heq] at hparts
  obtain rfl : e = e' := ho.eq_of_prefix he he' ⟨ks, hparts.symm⟩ ⟨ks', hparts'.symm⟩
  rw [hparts, append_cancel_left_eq] at hparts'
  rw [hparts', hf'] at hf
  rw [Option.some.inj hf, hb] at hb'
  exact Option.some.inj hb'

theorem snapshot_prefix (hs : s.WF) (ho : HandleOk s.tree root linked nodes)
    {a : Path × BroadcastConsumer} (ha : a ∈ snapshot s.tree nodes) :
    root.parts <+: a.1.parts := by
  obtain ⟨e, he, _, _, -, hparts, -⟩ := (mem_snapshot hs ho).mp ha
  rw [hparts, (ho.placed e he).label, append_assoc]
  exact prefix_append _ _

/-- A new consumer is registered at its nodes and starts with a snapshot. -/
theorem newConsumer_spec (hs : s.WF) (ho : HandleOk s.tree root linked nodes) :
    ∃ tree pending, s.newConsumer root nodes = .ok { s with
        tree, consumers := s.consumers ++ [fresh root nodes pending] } ∧
      SameEntries s.tree tree ∧ Represents root pending (snapshot s.tree nodes) ∧
      ∀ x i, (tree.cell x).value.consumers.lookup i =
        if i = s.consumers.length ∧ x ∈ nodes.map Prod.snd then some root
        else (s.tree.cell x).value.consumers.lookup i := by
  obtain ⟨tree, pending, hrun, hsame, hrep, hreg⟩ :=
    consumeNodes_spec s.consumers.length hs.tree (represents_nil root)
      (fun e he => (ho.placed e he).lt) (fun a ha => snapshot_prefix hs ho ha)
      (fun a ha a' ha' heq => snapshot_functional hs ho ha ha' heq)
  exact ⟨tree, pending, by simp only [newConsumer, hrun], hsame, hrep, hreg⟩

/-- The nodes of a handle are distinct. -/
theorem nodup_nodes (ho : HandleOk h root linked nodes) :
    (nodes.map Prod.snd).Nodup := by
  rw [List.Nodup, pairwise_map]
  refine ho.apart.imp_of_mem fun {e e'} he he' hap heq => hap.1 ?_
  have hlab := (ho.placed e he).label
  rw [heq, (ho.placed e' he').label, append_cancel_left_eq] at hlab
  rw [hlab]

/-- Leaving succeeds if the consumer is registered at all the nodes. -/
theorem unconsumeNodes_spec (wf : h.WF) {id : ConsumerId}
    (hnd : (nodes.map Prod.snd).Nodup) (hlt : ∀ e ∈ nodes, e.2 < h.next)
    (hreg : ∀ x ∈ nodes.map Prod.snd, id ∈ (h.cell x).value.consumers) :
    ∃ tree, unconsumeNodes id h nodes = .ok tree ∧ SameEntries h tree ∧
      ∀ x i, (tree.cell x).value.consumers.lookup i =
        if i = id ∧ x ∈ nodes.map Prod.snd then none
        else (h.cell x).value.consumers.lookup i := by
  induction nodes generalizing h with
  | nil => exact ⟨h, rfl, SameEntries.refl wf, fun x i => by simp⟩
  | cons e nodes ih =>
    obtain ⟨key, n⟩ := e
    obtain ⟨hn, hnd⟩ := nodup_cons.mp hnd
    have hlook : ∀ x i, ((h.setValue n ⟨(h.cell n).value.broadcast,
        (h.cell n).value.consumers.erase id⟩).cell x).value.consumers.lookup i =
        if i = id ∧ x = n then none else (h.cell x).value.consumers.lookup i := by
      intro x i
      rw [value_setValue]
      by_cases hx : x = n
      · subst hx
        by_cases hi : i = id
        · subst hi
          simp
        · simp [hi, AList.lookup_erase_ne]
      · simp [hx]
    have hsame := sameEntries_setValue wf (hlt (key, n) mem_cons_self)
      ((h.cell n).value.consumers.erase id)
    obtain ⟨tree, hrun, hsame', hlook'⟩ := ih hsame.wf hnd
      (fun e he => hlt e (mem_cons_of_mem _ he)) (fun x hx => by
        have hne : x ≠ n := fun heq => hn (heq ▸ hx)
        rw [value_setValue, if_neg hne]
        exact hreg x (mem_cons_of_mem _ hx))
    refine ⟨tree, ?_, hsame.trans hsame', fun x i => ?_⟩
    · have hmem := hreg n mem_cons_self
      simp only [unconsumeNodes, unconsume, hmem, if_true, hrun]
    · rw [hlook', hlook]
      by_cases hi : i = id
      · by_cases hx : x ∈ nodes.map Prod.snd
        · simp [hi, hx]
        · by_cases hxn : x = n <;> simp [hi, hx, hxn]
      · simp [hi]

end Join

/-! ### The step lemma -/

/-- The nodes an operation derives a new producer from. -/
def producerSource (s : OriginSystem) : OriginOp → Option OriginNodes
  | .scope producer _ => s.producers[producer]?.map (·.nodes)
  | .withRoot producer _ => s.producers[producer]?.map (·.nodes)
  | _ => none

/-- The nodes an operation creates a new consumer from. -/
def consumerSource (s : OriginSystem) : OriginOp → Option OriginNodes
  | .consume producer => s.producers[producer]?.map (·.nodes)
  | .consumerScope consumer _ => (s.live consumer).map (·.nodes)
  | .consumerWithRoot consumer _ => (s.live consumer).map (·.nodes)
  | _ => none

/-- **What one operation can do.** Handles are derived from the nodes of their source,
and their own nodes are linked if those are. -/
inductive Effect (s : OriginSystem) : OriginOp → OriginSystem → Prop
  | idle (op : OriginOp) : Effect s op s
  | published {producer node leaf : ℕ} {path rest full : Path} {b : BroadcastConsumer}
      {tree : OriginTree} :
      s.target producer path b = some (node, rest, full) →
      OriginTree.Rewrites s.tree node rest.parts leaf
        (publishLeaf full b (s.tree.valueFrom node rest.parts).broadcast).1 tree →
      tree.find node rest.parts = some leaf →
      Effect s (.publish producer path b) { s with
        tree
        consumers := told tree leaf
          (publishLeaf full b (s.tree.valueFrom node rest.parts).broadcast).2 s.consumers
        cleanups := s.cleanups ++ [⟨node, full, b, rest⟩]
        sent := s.sent ++
          (publishLeaf full b (s.tree.valueFrom node rest.parts).broadcast).2.toList }
  | cleaned {task leaf : ℕ} {t : Cleanup} {o : Option OriginBroadcast}
      {notice : Option Notice} {tree : OriginTree} :
      s.cleanups[task]? = some t → t.broadcast.state ∈ s.closed →
      removeLeaf t.full t.broadcast (s.tree.valueFrom t.node t.rest.parts).broadcast =
        .ok (o, notice) →
      OriginTree.Rewrites s.tree t.node t.rest.parts leaf o tree →
      Effect s (.cleanup task) { s with
        tree
        consumers := told tree leaf notice s.consumers
        cleanups := s.cleanups.eraseIdx task
        sent := s.sent ++ notice.toList }
  | closes (state : ℕ) : Effect s (.close state) { s with closed := state :: s.closed }
  | grown {tree : OriginTree} (op : OriginOp) : s.tree.Grows tree → Effect s op { s with tree }
  | derived {op : OriginOp} {root : Path} {nodes₀ nodes : OriginNodes} {tree : OriginTree} :
      s.producerSource op = some nodes₀ → s.tree.Grows tree →
      HandleOk tree root (AllLinked s.tree nodes₀) nodes →
      Effect s op { s with tree, producers := s.producers ++ [⟨root, nodes⟩] }
  | joined {op : OriginOp} {root : Path} {nodes₀ nodes : OriginNodes}
      {tree₁ tree : OriginTree} {pending : OriginConsumerState} :
      s.consumerSource op = some nodes₀ → s.tree.Grows tree₁ →
      HandleOk tree₁ root (AllLinked s.tree nodes₀) nodes → SameEntries tree₁ tree →
      Represents root pending (snapshot tree₁ nodes) →
      (∀ x i, (tree.cell x).value.consumers.lookup i =
        if i = s.consumers.length ∧ x ∈ nodes.map Prod.snd then some root
        else (tree₁.cell x).value.consumers.lookup i) →
      Effect s op { s with
        tree, consumers := s.consumers ++ [OriginConsumer.fresh root nodes pending] }
  | left {id : ConsumerId} {c : OriginConsumer} {tree : OriginTree} :
      s.live id = some c → SameEntries s.tree tree →
      (∀ x i, (tree.cell x).value.consumers.lookup i =
        if i = id ∧ x ∈ c.nodes.map Prod.snd then none
        else (s.tree.cell x).value.consumers.lookup i) →
      Effect s (.dropConsumer id) { s with
        tree, consumers := s.consumers.modify id .drop }
  | polled {id : ConsumerId} {c : OriginConsumer} {update : OriginAnnounce}
      {pending : OriginConsumerState} :
      s.live id = some c → c.pending.take = some (update, pending) →
      Effect s (.poll id) { s with consumers := s.consumers.modify id (.deliver update pending) }

section Step

variable {s' : OriginSystem} {op : OriginOp} {tree : OriginTree}

/-- A creation of nodes keeps the shape. -/
theorem WF.grows (hs : s.WF) (hg : s.tree.Grows tree) :
    { s with tree }.WF where
  tree := hg.wf
  producers p hp := (hs.producers p hp).grows hg
  consumers hc := (hs.consumers hc).grows hg
  registered := by
    intro x i root
    rw [hg.value]
    exact hs.registered
  entry_path {x e} he := by
    rw [hg.value] at he
    rw [hg.label (hs.lt_next he)]
    exact hs.entry_path he
  cleanups t ht := by
    obtain ⟨hlt, hfull⟩ := hs.cleanups t ht
    exact ⟨lt_of_lt_of_le hlt hg.next_le, by rw [hg.label hlt, hfull]⟩

/-- A publish does not panic. -/
theorem publishAt_effect (hs : s.WF) (ht : s.target producer path b = some (node, rest, full)) :
    ∃ s', s.publishAt node rest full b = .ok s' ∧ Effect s (.publish producer path b) s' := by
  obtain ⟨hlt, hfull⟩ := target_spec hs ht
  obtain ⟨_, tree, hpub, hrw, hfind⟩ :=
    publish_rewrites rest.parts full b hs.tree hlt
  have hnotice : ∀ a, (publishLeaf full b (s.tree.valueFrom node rest.parts).broadcast).2 =
      some a → a.path = full := by
    intro a ha
    rw [publishLeaf_notice] at ha
    exact path_of_noticeFor ha
  refine ⟨_, ?_, Effect.published ht hrw hfind⟩
  simp only [publishAt, hpub, notify_eq hs hrw hfull hnotice]

/-- A cleanup panics only if its leaf does. -/
theorem removeAt_effect (hs : s.WF) {task : ℕ} {t : Cleanup}
    (ht : s.cleanups[task]? = some t) (hclosed : t.broadcast.state ∈ s.closed) :
    (∃ s', { s with cleanups := s.cleanups.eraseIdx task }.removeAt t = .ok s' ∧
      Effect s (.cleanup task) s') ∨
    ∃ e, removeLeaf t.full t.broadcast (s.tree.valueFrom t.node t.rest.parts).broadcast =
      .error e ∧ { s with cleanups := s.cleanups.eraseIdx task }.removeAt t = .error e := by
  obtain ⟨hlt, hfull⟩ := hs.cleanups t (mem_of_getElem? ht)
  cases hr : removeLeaf t.full t.broadcast
      (s.tree.valueFrom t.node t.rest.parts).broadcast with
  | error e =>
    refine .inr ⟨e, rfl, ?_⟩
    simp only [removeAt, remove_of_error hs.tree hlt hr]
  | ok r =>
    obtain ⟨_, notice⟩ := r
    obtain ⟨_, tree, hrem, hrw⟩ := remove_rewrites hs.tree hlt hr
    have hnotice : ∀ a, notice = some a → a.path = t.full := fun a ha =>
      (path_removeLeaf hr).2 a ha
    refine .inl ⟨_, ?_, Effect.cleaned ht hclosed hr hrw⟩
    simp only [removeAt, hrem, notify_eq hs hrw hfull hnotice]

variable {r : Except Panic (OriginTree × Option OriginNodes)} {nodes₀ : OriginNodes}

/-- Deriving a producer does not panic. -/
theorem addProducer_effect (hsrc : s.producerSource op = some nodes₀)
    (hr : ∃ h' found, r = .ok (h', found) ∧ s.tree.Grows h' ∧
      ∀ nodes, found = some nodes → HandleOk h' root (AllLinked s.tree nodes₀) nodes) :
    ∃ s', s.addProducer root r = .ok s' ∧ Effect s op s' := by
  obtain ⟨_, found, rfl, hg, hok⟩ := hr
  cases found with
  | none => exact ⟨_, rfl, Effect.grown op hg⟩
  | some nodes => exact ⟨_, rfl, Effect.derived hsrc hg (hok nodes rfl)⟩

/-- Deriving a consumer does not panic. -/
theorem addConsumer_effect (hs : s.WF) (hsrc : s.consumerSource op = some nodes₀)
    (hr : ∃ h' found, r = .ok (h', found) ∧ s.tree.Grows h' ∧
      ∀ nodes, found = some nodes → HandleOk h' root (AllLinked s.tree nodes₀) nodes) :
    ∃ s', s.addConsumer root r = .ok s' ∧ Effect s op s' := by
  obtain ⟨_, found, rfl, hg, hok⟩ := hr
  cases found with
  | none => exact ⟨_, rfl, Effect.grown op hg⟩
  | some nodes =>
    obtain ⟨_, _, hrun, hsame, hrep, hreg⟩ :=
      newConsumer_spec (hs.grows hg) (hok nodes rfl)
    exact ⟨_, hrun, Effect.joined hsrc hg (hok nodes rfl) hsame hrep hreg⟩

variable {id : ConsumerId} {c : OriginConsumer} {ds : List Dir}

/-- Dropping a consumer does not panic. -/
theorem dropConsumer_effect (hs : s.WF) (hc : s.live id = some c) :
    ∃ s', s.step (.dropConsumer id) = .ok s' ∧ Effect s (.dropConsumer id) s' := by
  have ho := hs.consumers (live_eq_some_iff.mp hc).1
  have hreg : ∀ x ∈ c.nodes.map Prod.snd, id ∈ (s.tree.cell x).value.consumers := by
    intro x hx
    have hlook := hs.registered.mpr ⟨c, hc, rfl, hx⟩
    exact AList.lookup_isSome.mp (Option.isSome_of_eq_some hlook)
  obtain ⟨tree, hrun, hsame, hlook⟩ :=
    unconsumeNodes_spec hs.tree (nodup_nodes ho) (fun e he => (ho.placed e he).lt) hreg
  refine ⟨_, ?_, Effect.left hc hsame hlook⟩
  simp only [step, hc, hrun]

/-- **The step lemma.** In a well-formed state every operation has one of the effects of
`Effect`, except a cleanup whose leaf panics. -/
theorem step_effect (hs : s.WF) (op : OriginOp) :
    (∃ s', s.step op = .ok s' ∧ Effect s op s') ∨
    ∃ task t e, op = .cleanup task ∧ s.cleanups[task]? = some t ∧
      t.broadcast.state ∈ s.closed ∧
      removeLeaf t.full t.broadcast (s.tree.valueFrom t.node t.rest.parts).broadcast =
        .error e ∧ s.step op = .error e := by
  cases op with
  | publish producer path b =>
    refine .inl ?_
    cases ht : s.target producer path b with
    | none => exact ⟨s, by simp only [step, ht], Effect.idle _⟩
    | some r =>
      simpa only [step, ht] using publishAt_effect hs ht
  | scope producer prefixes =>
    refine .inl ?_
    cases hp : s.producers[producer]? with
    | none => exact ⟨s, by simp only [step, hp], Effect.idle _⟩
    | some p =>
      have ho := (hs.producers p (mem_of_getElem? hp)).linked
      have hsrc : s.producerSource (.scope producer prefixes) = some p.nodes := by
        simp only [producerSource, hp, Option.map_some]
      simpa only [step, hp] using
        addProducer_effect hsrc (OriginNodes.select_spec hs.tree ho _)
  | withRoot producer path =>
    refine .inl ?_
    cases hp : s.producers[producer]? with
    | none => exact ⟨s, by simp only [step, hp], Effect.idle _⟩
    | some p =>
      have ho := (hs.producers p (mem_of_getElem? hp)).linked
      have hsrc : s.producerSource (.withRoot producer path) = some p.nodes := by
        simp only [producerSource, hp, Option.map_some]
      simpa only [step, hp] using
        addProducer_effect hsrc (OriginNodes.root_spec hs.tree ho path)
  | close state => exact .inl ⟨_, rfl, Effect.closes state⟩
  | cleanup task =>
    cases ht : s.cleanups[task]? with
    | none => exact .inl ⟨s, by simp only [step, ht], Effect.idle _⟩
    | some t =>
      by_cases hclosed : t.broadcast.state ∈ s.closed
      · rcases removeAt_effect hs ht hclosed with ⟨s', hrun, heff⟩ | ⟨e, hr, hrun⟩
        · exact .inl ⟨s', by simp only [step, ht, hclosed, if_true, hrun], heff⟩
        · exact .inr ⟨task, t, e, rfl, ht, hclosed, hr,
            by simp only [step, ht, hclosed, if_true, hrun]⟩
      · exact .inl ⟨s, by simp only [step, ht, hclosed, if_false], Effect.idle _⟩
  | consume producer =>
    refine .inl ?_
    cases hp : s.producers[producer]? with
    | none => exact ⟨s, by simp only [step, hp], Effect.idle _⟩
    | some p =>
      have ho := (hs.producers p (mem_of_getElem? hp)).linked
      have hsrc : s.consumerSource (.consume producer) = some p.nodes := by
        simp only [consumerSource, hp, Option.map_some]
      obtain ⟨tree, pending, hrun, hsame, hrep, hreg⟩ := newConsumer_spec hs ho
      refine ⟨_, by simpa only [step, hp] using hrun, ?_⟩
      exact Effect.joined hsrc (TrieHeap.Grows.refl hs.tree) ho hsame hrep hreg
  | consumerScope consumer prefixes =>
    refine .inl ?_
    cases hc : s.live consumer with
    | none => exact ⟨s, by simp only [step, hc], Effect.idle _⟩
    | some c =>
      have ho := (hs.consumers (live_eq_some_iff.mp hc).1).linked
      have hsrc : s.consumerSource (.consumerScope consumer prefixes) = some c.nodes := by
        simp only [consumerSource, hc, Option.map_some]
      simpa only [step, hc] using
        addConsumer_effect hs hsrc (OriginNodes.select_spec hs.tree ho _)
  | consumerWithRoot consumer path =>
    refine .inl ?_
    cases hc : s.live consumer with
    | none => exact ⟨s, by simp only [step, hc], Effect.idle _⟩
    | some c =>
      have ho := (hs.consumers (live_eq_some_iff.mp hc).1).linked
      have hsrc : s.consumerSource (.consumerWithRoot consumer path) = some c.nodes := by
        simp only [consumerSource, hc, Option.map_some]
      simpa only [step, hc] using
        addConsumer_effect hs hsrc (OriginNodes.root_spec hs.tree ho path)
  | dropConsumer consumer =>
    refine .inl ?_
    cases hc : s.live consumer with
    | none => exact ⟨s, by simp only [step, hc], Effect.idle _⟩
    | some c => exact dropConsumer_effect hs hc
  | poll consumer =>
    refine .inl ?_
    cases hc : s.live consumer with
    | none => exact ⟨s, by simp only [step, hc], Effect.idle _⟩
    | some c =>
      cases htake : c.pending.take with
      | none => exact ⟨s, by simp only [step, hc, htake], Effect.idle _⟩
      | some r =>
        exact ⟨_, by simp only [step, hc, htake], Effect.polled hc htake⟩

/-- A state whose consumers were at most told something and whose tree was rewritten at
one leaf keeps the shape, if the new entry of the leaf carries the path of its label. -/
theorem WF.rewrites (hs : s.WF) {n m : ℕ} {o : Option OriginBroadcast}
    (hrw : OriginTree.Rewrites s.tree n ds m o tree)
    (hpath : ∀ e, o = some e → e.path.parts = (s.tree.cell n).label ++ ds)
    {cleanups : List Cleanup} {sent : List Notice}
    (hclean : ∀ t ∈ cleanups, t.node < s.tree.next ∧
      t.full.parts = (s.tree.cell t.node).label ++ t.rest.parts) :
    { s with tree, consumers := told tree m notice s.consumers, cleanups, sent }.WF where
  tree := hrw.wf
  producers p hp := (hs.producers p hp).mono hrw.next_le hrw.label
  consumers {i c} hc := by
    obtain ⟨c₀, hc₀, heq⟩ := told_some hc
    rw [heq.root, heq.nodes]
    exact (hs.consumers hc₀).mono hrw.next_le hrw.label
  registered {x i root} := by
    rw [hrw.consumers, hs.registered]
    constructor
    · rintro ⟨c, hc, rfl, hx⟩
      obtain ⟨hc, hd⟩ := live_eq_some_iff.mp hc
      obtain ⟨c', hc', heq⟩ := told_of_some tree m notice hc
      refine ⟨c', live_eq_some_iff.mpr ⟨hc', heq.dropped.trans hd⟩, heq.root, ?_⟩
      rwa [heq.nodes]
    · rintro ⟨_, hc, rfl, hx⟩
      obtain ⟨hc, hd⟩ := live_eq_some_iff.mp hc
      obtain ⟨c₀, hc₀, heq⟩ := told_some hc
      refine ⟨c₀, live_eq_some_iff.mpr ⟨hc₀, heq.dropped.symm.trans hd⟩, heq.root.symm, ?_⟩
      rwa [← heq.nodes]
  entry_path {x e} he := by
    rw [hrw.broadcast] at he
    split_ifs at he with hx
    · rw [hx, hrw.leaf_label, hpath e he]
    · rw [hrw.label (hs.lt_next he)]
      exact hs.entry_path he
  cleanups t ht := by
    obtain ⟨hlt, hfull⟩ := hclean t ht
    exact ⟨lt_of_lt_of_le hlt hrw.next_le, by rw [hrw.label hlt, hfull]⟩

/-- The path of the entry that a handle or task finds. -/
theorem WF.path_valueFrom (hs : s.WF) {n : ℕ} (he : (s.tree.valueFrom n ds).broadcast = some e) :
    e.path.parts = (s.tree.cell n).label ++ ds := by
  have hne : s.tree.valueFrom n ds ≠ default := by
    intro heq
    rw [heq] at he
    cases he
  obtain ⟨_, hf, hv⟩ := exists_find_of_valueFrom hne
  rw [← hv] at he
  rw [hs.entry_path he, (hs.tree.find_label hf).1]

variable {pending : OriginConsumerState}

/-- A registration keeps the shape. -/
theorem WF.joined (hs : s.WF) {linked : Prop} {nodes : OriginNodes}
    (hok : HandleOk s.tree root linked nodes) (hsame : SameEntries s.tree tree)
    (hreg : ∀ x i, (tree.cell x).value.consumers.lookup i =
      if i = s.consumers.length ∧ x ∈ nodes.map Prod.snd then some root
      else (s.tree.cell x).value.consumers.lookup i) :
    { s with tree, consumers := s.consumers ++ [fresh root nodes pending] }.WF where
  tree := hsame.wf
  producers p hp := (hs.producers p hp).sameEntries hsame
  consumers {i c} hc := by
    rw [getElem?_append] at hc
    split_ifs at hc with hi
    · exact (hs.consumers hc).sameEntries hsame
    · obtain rfl := mem_singleton.mp (mem_of_getElem? hc)
      exact (hok.mono (le_refl _) fun _ => rfl).sameEntries hsame
  registered {x i r} := by
    have hnone : s.live s.consumers.length = none := by
      rw [live, getElem?_eq_none (le_refl _), Option.filter_none]
    have hold : (s.tree.cell x).value.consumers.lookup s.consumers.length = none := by
      rw [Option.eq_none_iff_forall_ne_some]
      intro r hr
      obtain ⟨c, hc, -⟩ := hs.registered.mp hr
      rw [hnone] at hc
      cases hc
    rw [hreg]
    by_cases hi : i = s.consumers.length
    · subst hi
      have hlive : { s with tree, consumers := s.consumers ++
          [fresh root nodes pending] }.live s.consumers.length =
          some (.fresh root nodes pending) := by
        simp [live, fresh]
      rw [hlive, hold]
      by_cases hx : x ∈ nodes.map Prod.snd
      · simp only [hx, and_self, if_true]
        exact ⟨fun h => ⟨_, rfl, Option.some.inj h, hx⟩, fun ⟨c, hc, hr, _⟩ => by
          rw [← hr, ← Option.some.inj hc]
          rfl⟩
      · rw [if_neg fun h => hx h.2]
        refine ⟨fun h => (by cases h), fun ⟨c, hc, _, hx'⟩ => absurd ?_ hx⟩
        rw [← Option.some.inj hc] at hx'
        exact hx'
    · have hlive : { s with tree, consumers := s.consumers ++
          [fresh root nodes pending] }.live i = s.live i := by
        simp only [live, getElem?_append]
        split_ifs with hlt
        · rfl
        · have hgt := lt_of_le_of_ne (not_lt.mp hlt) (Ne.symm hi)
          rw [getElem?_eq_none (Nat.sub_pos_of_lt hgt),
            getElem?_eq_none (le_of_lt hgt)]
      rw [hlive, if_neg fun h => hi h.1, hs.registered]
  entry_path he := by
    rw [hsame.broadcast] at he
    rw [hsame.label]
    exact hs.entry_path he
  cleanups t ht := by
    rw [hsame.next, hsame.label]
    exact hs.cleanups t ht

theorem getElem?_modify_eq_some {consumers : List OriginConsumer}
    {f : OriginConsumer → OriginConsumer} :
    (consumers.modify id f)[i]? = some c ↔
      ∃ c₀, consumers[i]? = some c₀ ∧ (if id = i then f c₀ else c₀) = c := by
  rw [getElem?_modify, Option.map_eq_map, Option.map_eq_some_iff]

/-- A departure keeps the shape. -/
theorem WF.left (hs : s.WF) (hc : s.live id = some c) (hsame : SameEntries s.tree tree)
    (hreg : ∀ x i, (tree.cell x).value.consumers.lookup i =
      if i = id ∧ x ∈ c.nodes.map Prod.snd then none
      else (s.tree.cell x).value.consumers.lookup i) :
    { s with tree, consumers := s.consumers.modify id .drop }.WF where
  tree := hsame.wf
  producers p hp := (hs.producers p hp).sameEntries hsame
  consumers {i c'} hc' := by
    obtain ⟨c₀, hc₀, rfl⟩ := getElem?_modify_eq_some.mp hc'
    split_ifs <;> exact (hs.consumers hc₀).sameEntries hsame
  registered {x i r} := by
    rw [hreg]
    by_cases hi : i = id
    · subst hi
      have hgone : ∀ c', { s with tree, consumers := s.consumers.modify i .drop }.live i =
          some c' → False := by
        intro c' hc'
        obtain ⟨hc', hd⟩ := live_eq_some_iff.mp hc'
        obtain ⟨_, -, rfl⟩ := getElem?_modify_eq_some.mp hc'
        simp [OriginConsumer.drop] at hd
      by_cases hx : x ∈ c.nodes.map Prod.snd
      · simp only [hx, and_self, if_true]
        exact ⟨fun h => (by cases h), fun ⟨c', hc', _⟩ => (hgone c' hc').elim⟩
      · rw [if_neg fun h => hx h.2, hs.registered]
        refine ⟨fun ⟨c', hc', _, hx'⟩ => ?_, fun ⟨c', hc', _⟩ => (hgone c' hc').elim⟩
        rw [hc] at hc'
        exact absurd (Option.some.inj hc' ▸ hx') hx
    · have hlive : { s with tree, consumers := s.consumers.modify id .drop }.live i =
          s.live i := by
        simp only [live, getElem?_modify, Option.map_eq_map, Ne.symm hi, if_false,
          Option.map_id']
      rw [if_neg fun h => hi h.1, hlive, hs.registered]
  entry_path he := by
    rw [hsame.broadcast] at he
    rw [hsame.label]
    exact hs.entry_path he
  cleanups t ht := by
    rw [hsame.next, hsame.label]
    exact hs.cleanups t ht

/-- Delivering an update keeps the shape. -/
theorem WF.polled (hs : s.WF) {update : OriginAnnounce} :
    { s with consumers := s.consumers.modify id (.deliver update pending) }.WF where
  tree := hs.tree
  producers := hs.producers
  consumers {i c'} hc' := by
    obtain ⟨c₀, hc₀, rfl⟩ := getElem?_modify_eq_some.mp hc'
    have ho := hs.consumers hc₀
    split_ifs <;> exact ho
  registered {x i r} := by
    have hkeep : ∀ c : OriginConsumer, ∀ c', (if id = i then c.deliver update pending else c) = c' →
        c'.root = c.root ∧ c'.nodes = c.nodes ∧ c'.dropped = c.dropped := by
      rintro c c' rfl
      split_ifs <;> exact ⟨rfl, rfl, rfl⟩
    rw [hs.registered]
    constructor
    · rintro ⟨c, hc, rfl, hx⟩
      obtain ⟨hc, hd⟩ := live_eq_some_iff.mp hc
      obtain ⟨hr, hn, hd'⟩ := hkeep c _ rfl
      refine ⟨_, live_eq_some_iff.mpr ⟨getElem?_modify_eq_some.mpr ⟨c, hc, rfl⟩, ?_⟩, hr, ?_⟩
      · rw [hd', hd]
      · rwa [hn]
    · rintro ⟨c, hc, rfl, hx⟩
      obtain ⟨hc, hd⟩ := live_eq_some_iff.mp hc
      obtain ⟨c₀, hc₀, heq⟩ := getElem?_modify_eq_some.mp hc
      obtain ⟨hr, hn, hd'⟩ := hkeep c₀ c heq
      exact ⟨c₀, live_eq_some_iff.mpr ⟨hc₀, hd' ▸ hd⟩, hr.symm, hn ▸ hx⟩
  entry_path := hs.entry_path
  cleanups := hs.cleanups

/-- The shape invariant is kept by every step. -/
theorem WF.effect (hs : s.WF) (he : Effect s op s') : s'.WF := by
  cases he with
  | idle op => exact hs
  | published ht hrw hfind =>
    obtain ⟨hlt, hfull⟩ := target_spec hs ht
    refine hs.rewrites hrw (fun e he => ?_) fun t ht => ?_
    · rcases path_publishLeaf he with hp | ⟨e₀, he₀, hp⟩
      · rw [hp, hfull]
      · rw [hp, hs.path_valueFrom he₀]
    · rcases mem_append.mp ht with ht | ht
      · exact hs.cleanups t ht
      · obtain rfl := mem_singleton.mp ht
        exact ⟨hlt, hfull⟩
  | cleaned ht hclosed hr hrw =>
    refine hs.rewrites hrw (fun e he => ?_) fun t ht =>
      hs.cleanups t (mem_of_mem_eraseIdx ht)
    obtain ⟨_, he₀, hp⟩ := (path_removeLeaf hr).1 e he
    rw [hp, hs.path_valueFrom he₀]
  | closes state =>
    exact ⟨hs.tree, hs.producers, hs.consumers, hs.registered, hs.entry_path, hs.cleanups⟩
  | grown op hg => exact hs.grows hg
  | derived hsrc hg hok =>
    have hs' := hs.grows hg
    refine ⟨hs'.tree, fun p hp => ?_, hs'.consumers, hs'.registered, hs'.entry_path, hs'.cleanups⟩
    rcases mem_append.mp hp with hp | hp
    · exact hs'.producers p hp
    · obtain rfl := mem_singleton.mp hp
      exact hok.mono (le_refl _) fun _ => rfl
  | joined hsrc hg hok hsame hrep hreg => exact (hs.grows hg).joined hok hsame hreg
  | left hc hsame hreg => exact hs.left hc hsame hreg
  | polled hc htake => exact hs.polled

end Step

end OriginSystem

end HermitMoq
