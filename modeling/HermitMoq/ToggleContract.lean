import HermitMoq.Visibility

/-!
# The Toggle Contract of Consumers

A consumer is shown, for every path, an update `some b` when the path gets a route and
`none` when it loses it, and the two take turns. Updates are coalesced while they wait, so
what is delivered is not what was sent; the invariant `InStep` says that what the consumer
was shown, what waits for it and the active route of the path are coherent
(`HermitMoq.Pending`) for every path below its nodes.

The contract needs what visibility needs. A detached node still notifies the consumers
above it, so a publish through it, followed by one at the same path through the tree,
announces the path twice in a row (`detached_publish_announces_twice`). A consumer has to
join at linked nodes for the same reason; its registration then keeps them linked.
-/

namespace HermitMoq

open List OriginSystem OriginConsumer Option OriginConsumerState

/-- The updates a consumer received for one path. -/
def OriginConsumer.log (c : OriginConsumer) (path : Path) : List (Option BroadcastConsumer) :=
  c.received.filterMap fun u => if u.1 = path then some u.2 else none

/-- A path lies below one of the nodes of a consumer. -/
def OriginConsumer.Covers (c : OriginConsumer) (path : Path) : Prop :=
  ∃ e ∈ c.nodes, e.1.parts <+: path.parts

instance (c : OriginConsumer) (path : Path) : Decidable (c.Covers path) :=
  inferInstanceAs (Decidable (∃ e ∈ c.nodes, _))

namespace OriginSystem

/-- The active route at an absolute path, found from the root. -/
def activeAt (s : OriginSystem) (full : Path) : Option BroadcastConsumer :=
  active (s.tree.valueFrom 0 full.parts).broadcast

/-- A consumer is created from nodes that are linked to the root. -/
def JoinsLinked (s : OriginSystem) : OriginOp → Prop
  | .consume producer => ∀ p ∈ s.producers[producer]?, AllLinked s.tree p.nodes
  | _ => True

instance (s : OriginSystem) : DecidablePred (JoinsLinked s)
  | .publish _ _ _ => isTrue trivial
  | .scope _ _ => isTrue trivial
  | .withRoot _ _ => isTrue trivial
  | .close _ => isTrue trivial
  | .cleanup _ => isTrue trivial
  | .consume producer =>
    inferInstanceAs (Decidable (∀ p ∈ s.producers[producer]?, AllLinked s.tree p.nodes))
  | .consumerScope _ _ => isTrue trivial
  | .consumerWithRoot _ _ => isTrue trivial
  | .dropConsumer _ => isTrue trivial
  | .poll _ => isTrue trivial

/-- Publishes and new consumers go through linked nodes, and no publish is a duplicate at
its leaf. -/
def AllAttached (s : OriginSystem) (op : OriginOp) : Prop :=
  AttachedFresh s op ∧ JoinsLinked s op

instance (s : OriginSystem) (op : OriginOp) : Decidable (AllAttached s op) :=
  inferInstanceAs (Decidable (_ ∧ _))

/-- A consumer is **in step** with the origin: its nodes are linked, every path below them
is coherent, and no other path was ever mentioned to it. -/
structure InStep (s : OriginSystem) (c : OriginConsumer) : Prop where
  linked : AllLinked s.tree c.nodes
  coherent : ∀ {q}, c.Covers q →
    Coherent (shown (c.log q)) (s.activeAt (c.root.join q)) (c.pending.lookup q)
  silent : ∀ {q}, ¬ c.Covers q → c.pending.lookup q = none ∧ c.log q = []

/-- The invariant of the toggle contract. -/
structure Toggles (s : OriginSystem) : Prop where
  rooted : s.Rooted
  inStep : ∀ {i c}, s.live i = some c → s.InStep c
  alternates : ∀ {i : ConsumerId} {c : OriginConsumer}, s.consumers[i]? = some c →
    ∀ q, Alternates (c.log q)

theorem Toggles.init (info : Origin) : (init info).Toggles where
  rooted := Rooted.init info
  inStep hc := by simp [OriginSystem.init, live] at hc
  alternates hc := by simp [OriginSystem.init] at hc

variable {n m : ℕ} {full : Path} {nodes : OriginNodes}

section InStep

variable {s s' : OriginSystem} {c c' : OriginConsumer} {linked : Prop}

/-- A step that changes neither the consumer nor the active routes keeps it in step. -/
theorem InStep.of_same (hc : s.InStep c) (hl : AllLinked s'.tree c.nodes)
    (ha : ∀ full, s'.activeAt full = s.activeAt full) : s'.InStep c := by
  refine ⟨hl, fun hq => ?_, hc.silent⟩
  rw [ha]
  exact hc.coherent hq

/-- Covering in terms of the labels. -/
theorem covers_iff {h : OriginTree} (ho : HandleOk h c.root linked c.nodes) {q : Path} :
    c.Covers q ↔ ∃ e ∈ c.nodes, (h.cell e.2).label <+: (c.root.join q).parts := by
  refine exists_congr fun e => and_congr_right fun he => ?_
  rw [(ho.placed e he).label, Path.parts_join, prefix_append_right_inj]

/-! ### Notifications -/

variable {o : Option OriginBroadcast} {ds : List Dir} {i : ConsumerId} {tree : OriginTree}

/-- The listeners of a leaf below a linked node are the live consumers that cover it. -/
theorem mem_listeners_iff (hs : s.WF)
    (hrw : OriginTree.Rewrites s.tree n ds m o tree) (hn : s.tree.Linked n) (hi : s.live i = some c)
    (hl : AllLinked s.tree c.nodes) :
    i ∈ (tree.listeners m).map Prod.fst ↔
      ∃ e ∈ c.nodes, (s.tree.cell e.2).label <+: (s.tree.cell n).label ++ ds := by
  constructor
  · intro hmem
    obtain ⟨⟨_, root⟩, hj, rfl⟩ := mem_map.mp hmem
    obtain ⟨c', hc', -, e, he, -, hpre⟩ := mem_listeners hs hrw hj
    obtain rfl : c = c' := some.inj (hi.symm.trans hc')
    exact ⟨e, he, hpre⟩
  · rintro ⟨e, he, hpre⟩
    refine mem_map.mpr ⟨(i, c.root), OriginTree.mem_listeners_iff.mpr ⟨e.2, ?_, ?_⟩, rfl⟩
    · exact hrw.mem_ancestors hn (hl e he) hpre
    · rw [hrw.consumers]
      exact hs.registered.mpr ⟨c, hi, rfl, mem_map_of_mem he⟩

/-- The nodes of a live consumer stay linked. -/
theorem allLinked_rewrites (hs : s.WF)
    (hrw : OriginTree.Rewrites s.tree n ds m o tree) (hi : s.live i = some c)
    (hl : AllLinked s.tree c.nodes) : AllLinked tree c.nodes := by
  intro e he
  refine hrw.linked (hl e he) (TrieHeap.find_nil _ _) ?_
  refine OriginNode.vacant_eq_false_iff.mpr (.inr fun hempty => ?_)
  have hreg := hs.registered.mpr ⟨c, hi, rfl, mem_map_of_mem he⟩
  rw [← hrw.consumers, hempty] at hreg
  simp at hreg

/-- A rewritten leaf changes the active route of its own path only. -/
theorem activeAt_rewrites (hs : s.WF) (hrw : OriginTree.Rewrites s.tree n ds m o s'.tree)
    (hn : s.tree.Linked n) (hfull : full.parts = (s.tree.cell n).label ++ ds) :
    s.activeAt full = active (s.tree.valueFrom n ds).broadcast ∧
      s'.activeAt full = active o ∧
      ∀ path, path ≠ full → s'.activeAt path = s.activeAt path := by
  refine ⟨?_, ?_, fun path hne => ?_⟩
  · rw [activeAt, hfull, hn.valueFrom_append]
  · rw [activeAt, hfull, hrw.content_root hn]
  · rw [activeAt, hrw.content_ne hs.tree.next_pos, activeAt]
    rw [hs.tree.root_label, nil_append, ← hfull]
    exact fun heq => hne (Path.parts_injective heq)

/-- The update of a rewritten leaf keeps every consumer in step. -/
theorem InStep.told (hs : s.WF) (hrw : OriginTree.Rewrites s.tree n ds m o s'.tree)
    (hn : s.tree.Linked n) (hfull : full.parts = (s.tree.cell n).label ++ ds)
    (hi : s.live i = some c) (hc : s.InStep c)
    (hc' : (HermitMoq.told s'.tree m (noticeFor full
      (active (s.tree.valueFrom n ds).broadcast) (active o)) s.consumers)[i]? = some c') :
    s'.InStep c' := by
  obtain ⟨hci, -⟩ := live_eq_some_iff.mp hi
  have ho := hs.consumers hci
  have hl' := allLinked_rewrites hs hrw hi hc.linked
  obtain ⟨hold, hnew, hother⟩ := activeAt_rewrites hs hrw hn hfull
  rw [← hold, ← hnew] at hc'
  cases hnotice : noticeFor full (s.activeAt full) (s'.activeAt full) with
  | none =>
    rw [hnotice, HermitMoq.told, hci] at hc'
    obtain rfl := some.inj hc'
    refine hc.of_same hl' fun path => ?_
    by_cases hp : path = full
    · rw [hp, eq_of_noticeFor_none hnotice]
    · exact hother path hp
  | some notice =>
    rw [hnotice, HermitMoq.told, getElem?_tellAll, hci, map_some] at hc'
    have hcover := mem_listeners_iff hs hrw hn hi hc.linked
    rw [← hfull] at hcover
    by_cases htold : i ∈ (s'.tree.listeners m).map Prod.fst
    · -- the path is covered, and its entry follows the active route
      obtain ⟨e, he, hpre⟩ := hcover.mp htold
      have hroot : c.root.parts <+: full.parts := by
        refine List.IsPrefix.trans ?_ hpre
        rw [(ho.placed e he).label]
        exact prefix_append _ _
      obtain ⟨q₀, hq₀⟩ : ∃ q₀, full.stripPrefix c.root = some q₀ := by
        rw [← isSome_iff_exists, ← Path.hasPrefix_eq_isSome, Path.hasPrefix_iff]
        exact hroot
      have hjoin : c.root.join q₀ = full := Path.join_of_stripPrefix hq₀
      have htell : c' = { c with pending := c.pending.apply q₀ notice } := by
        rw [if_pos htold] at hc'
        rw [← some.inj hc', OriginConsumer.tell, path_of_noticeFor hnotice, hq₀]
      subst htell
      have hcov₀ : c.Covers q₀ := (covers_iff ho).mpr ⟨e, he, hjoin ▸ hpre⟩
      refine ⟨hl', fun {q} hq => ?_, fun {q} hq => ?_⟩
      · have hco := hc.coherent hq
        rw [lookup_apply]
        split_ifs with hqq
        · subst hqq
          rw [hjoin] at hco ⊢
          exact hco.notice hnotice
        · rw [hother _ fun heq => hqq (Path.join_left_cancel (heq.trans hjoin.symm))]
          exact hco
      · rw [lookup_apply, if_neg fun heq : q = q₀ => hq (heq ▸ hcov₀)]
        exact hc.silent hq
    · rw [if_neg htold] at hc'
      obtain rfl := some.inj hc'
      refine ⟨hl', fun {q} hq => ?_, hc.silent⟩
      have hne : c.root.join q ≠ full := fun heq =>
        htold (hcover.mpr (heq ▸ (covers_iff ho).mp hq))
      rw [hother _ hne]
      exact hc.coherent hq

/-! ### Joining and receiving -/

variable {pending : OriginConsumerState} {u : OriginAnnounce}

/-- A consumer that joins at linked nodes is in step. -/
theorem InStep.joined (hs : s.WF) {root : Path}
    (ho : HandleOk s.tree root linked nodes) (hl : AllLinked s.tree nodes)
    (hrep : Represents root pending (snapshot s.tree nodes)) :
    s.InStep (.fresh root nodes pending) := by
  have hsnap : ∀ {q b}, (root.join q, b) ∈ snapshot s.tree nodes ↔
      (fresh root nodes pending).Covers q ∧
        s.activeAt (root.join q) = some b := by
    intro q b
    rw [mem_snapshot hs ho, covers_iff (c := .fresh root nodes pending) ho]
    constructor
    · rintro ⟨e, he, ks, m, hf, hparts, hact⟩
      refine ⟨⟨e, he, ⟨ks, hparts.symm⟩⟩, ?_⟩
      rw [activeAt, hparts, (hl e he).valueFrom_append, TrieHeap.valueFrom_of_find hf, hact]
    · rintro ⟨⟨e, he, ks, hparts⟩, hact⟩
      have hparts' : (root.join q).parts = (s.tree.cell e.2).label ++ ks := hparts.symm
      rw [activeAt, hparts', (hl e he).valueFrom_append] at hact
      have hne : s.tree.valueFrom e.2 ks ≠ default := by
        intro heq
        rw [heq] at hact
        cases hact
      obtain ⟨m, hf, hv⟩ := TrieHeap.exists_find_of_valueFrom hne
      exact ⟨e, he, ks, m, hf, hparts', hv ▸ hact⟩
  refine ⟨hl, fun {q} hq => ?_, fun {q} hq => ⟨?_, rfl⟩⟩
  · show Coherent none (s.activeAt (root.join q)) (pending.lookup q)
    cases hact : s.activeAt (root.join q) with
    | none =>
      have hnone : pending.lookup q = none := by
        rw [eq_none_iff_forall_ne_some]
        intro u hu
        obtain ⟨b, -, hb⟩ := (hrep q u).mp hu
        rw [(hsnap.mp hb).2] at hact
        cases hact
      rw [hnone]
      rfl
    | some b =>
      rw [(hrep q (.announce b)).mpr ⟨b, rfl, hsnap.mpr ⟨hq, hact⟩⟩]
      exact ⟨rfl, rfl⟩
  · show pending.lookup q = none
    rw [eq_none_iff_forall_ne_some]
    intro u hu
    obtain ⟨_, -, hb⟩ := (hrep q u).mp hu
    exact hq (hsnap.mp hb).1

theorem log_deliver (q : Path) :
    (c.deliver u pending).log q = if u.1 = q then c.log q ++ [u.2] else c.log q := by
  rw [log, deliver, filterMap_append]
  split_ifs with hq
  · simp [log, hq]
  · simp [log, hq]

/-- Delivering an update keeps a consumer in step and its logs alternating. -/
theorem InStep.delivered (hc : s.InStep c) (htake : c.pending.take = some (u, pending)) :
    s.InStep (c.deliver u pending) ∧
      ∀ q, Alternates (c.log q) → Alternates ((c.deliver u pending).log q) := by
  obtain ⟨_, hlook, hu, hrest⟩ := lookup_take htake
  have hcov : c.Covers u.1 := by
    by_contra hnot
    rw [(hc.silent hnot).1] at hlook
    cases hlook
  have hco := hc.coherent hcov
  rw [hlook] at hco
  obtain ⟨hco', hkind⟩ := hco.take
  refine ⟨⟨hc.linked, fun {q} hq => ?_, fun {q} hq => ?_⟩, fun q hq => ?_⟩
  · rw [log_deliver]
    show Coherent _ _ (pending.lookup q)
    rw [hrest]
    by_cases hqu : q = u.1
    · subst hqu
      rw [if_pos rfl, if_pos rfl, shown_concat, hu]
      exact hco'
    · rw [if_neg (Ne.symm hqu), if_neg hqu]
      exact hc.coherent hq
  · have hqu : q ≠ u.1 := fun heq => hq (heq ▸ hcov)
    rw [log_deliver, if_neg (Ne.symm hqu)]
    show pending.lookup q = none ∧ _
    rw [hrest, if_neg hqu]
    exact hc.silent hq
  · rw [log_deliver]
    split_ifs with hqu
    · subst hqu
      exact alternates_concat.mpr ⟨hq, hu ▸ hkind⟩
    · exact hq

end InStep

/-! ### The step lemma -/

section Toggles

variable {s s' : OriginSystem} {op : OriginOp} {c : OriginConsumer}

/-- A step **keeps the routes** if it unlinks no node and changes no active route. -/
structure KeepsRoutes (s s' : OriginSystem) : Prop where
  linked : ∀ {x}, s.tree.Linked x → s'.tree.Linked x
  activeAt : ∀ full, s'.activeAt full = s.activeAt full

theorem InStep.keepsRoutes (hc : s.InStep c) (hk : KeepsRoutes s s') :
    s'.InStep c :=
  hc.of_same (fun e he => hk.linked (hc.linked e he)) hk.activeAt

theorem keepsRoutes_of_tree_eq (h : s'.tree = s.tree) : KeepsRoutes s s' where
  linked hx := h ▸ hx
  activeAt full := by rw [activeAt, h, activeAt]

theorem keepsRoutes_grows (hs : s.WF) (hg : s.tree.Grows s'.tree) : KeepsRoutes s s' where
  linked hx := hx.grows hg (hx.lt hs.tree)
  activeAt full := by
    rw [activeAt, hg.valueFrom, activeAt]

theorem KeepsRoutes.sameEntries {s₁ : OriginSystem} (hk : KeepsRoutes s s₁)
    (hsame : SameEntries s₁.tree s'.tree) : KeepsRoutes s s' where
  linked hx := hsame.linked.mpr (hk.linked hx)
  activeAt full := by
    rw [← hk.activeAt, OriginSystem.activeAt, hsame.valueFrom, OriginSystem.activeAt]

section

variable (ht : s.Toggles)

include ht

/-- The contract after a step that concerns no consumer. -/
theorem Toggles.keepsRoutes (hr' : s'.Rooted) (hk : KeepsRoutes s s')
    (hc : s'.consumers = s.consumers) : s'.Toggles where
  rooted := hr'
  inStep {i c} hi := by
    refine (ht.inStep (i := i) ?_).keepsRoutes hk
    rwa [live, ← hc]
  alternates hi := ht.alternates (hc ▸ hi)

/-- The contract after a rewritten leaf. -/
theorem Toggles.told (hr' : s'.Rooted) {ds : List Dir}
    {o : Option OriginBroadcast} (hrw : OriginTree.Rewrites s.tree n ds m o s'.tree)
    (hn : s.tree.Linked n) (hfull : full.parts = (s.tree.cell n).label ++ ds)
    (hc : s'.consumers = HermitMoq.told s'.tree m (noticeFor full
      (active (s.tree.valueFrom n ds).broadcast) (active o)) s.consumers) : s'.Toggles where
  rooted := hr'
  inStep {i c'} hi := by
    obtain ⟨hc', hd⟩ := live_eq_some_iff.mp hi
    rw [hc] at hc'
    obtain ⟨c, hci, heq⟩ := told_some hc'
    have hlive := live_eq_some_iff.mpr ⟨hci, heq.dropped.symm.trans hd⟩
    exact (ht.inStep hlive).told ht.rooted.accounted.wf hrw hn hfull hlive hc'
  alternates {i c'} hc' q := by
    rw [hc] at hc'
    obtain ⟨_, hci, heq⟩ := told_some hc'
    rw [log, heq.received]
    exact ht.alternates hci q

/-- The nodes a consumer is created from are linked. -/
theorem Toggles.consumerSource_linked (hj : JoinsLinked s op)
    (hsrc : s.consumerSource op = some nodes) :
    AllLinked s.tree nodes := by
  cases op with
  | consume producer =>
    obtain ⟨p, hp, rfl⟩ := map_eq_some_iff.mp hsrc
    exact hj p hp
  | consumerScope consumer prefixes =>
    obtain ⟨c, hc, rfl⟩ := map_eq_some_iff.mp hsrc
    exact (ht.inStep hc).linked
  | consumerWithRoot consumer path =>
    obtain ⟨_, hc, rfl⟩ := map_eq_some_iff.mp hsrc
    exact (ht.inStep hc).linked
  | _ => cases hsrc

/-- The toggle contract is kept by every operation. -/
theorem Toggles.effect (ha : AllAttached s op) (he : Effect s op s') :
    s'.Toggles := by
  have hwf := ht.rooted.accounted.wf
  have hr' := ht.rooted.effect ha.1 he
  cases he with
  | idle op => exact ht
  | published htarget hrw hfind =>
    refine ht.told hr' hrw (ha.1.2 _ (spawns_of_target htarget)) (target_spec hwf htarget).2 ?_
    rw [← publishLeaf_notice]
  | cleaned htask hclosed hrem hrw =>
    have hmem := mem_of_getElem? htask
    obtain ⟨_, hrem', -⟩ := ht.rooted.accounted.removeLeaf_ok hmem
    rw [hrem, Except.ok.injEq, Prod.mk.injEq] at hrem'
    obtain ⟨rfl, rfl⟩ := hrem'
    exact ht.told hr' hrw (ht.rooted.linked _ hmem) (hwf.cleanups _ hmem).2 rfl
  | closes state => exact ht.keepsRoutes hr' (keepsRoutes_of_tree_eq rfl) rfl
  | grown op hg | derived hsrc hg hok => exact ht.keepsRoutes hr' (keepsRoutes_grows hwf hg) rfl
  | @joined op root nodes₀ nodes tree₁ tree pending hsrc hg hok hsame hrep hreg =>
    have hl : AllLinked tree₁ nodes := fun e he =>
      (hok.placed e he).link (ht.consumerSource_linked ha.2 hsrc)
    have hk : KeepsRoutes s { s with tree := tree₁ } := keepsRoutes_grows hwf hg
    refine ⟨hr', fun {i c} hi => ?_, fun {i c} hc q => ?_⟩
    · obtain ⟨hc, hd⟩ := live_eq_some_iff.mp hi
      rw [getElem?_append] at hc
      split_ifs at hc with hlt
      · have hlive := live_eq_some_iff.mpr ⟨hc, hd⟩
        exact (ht.inStep hlive).keepsRoutes (hk.sameEntries hsame)
      · obtain rfl := mem_singleton.mp (mem_of_getElem? hc)
        refine (InStep.joined (hwf.grows hg) hok hl hrep).keepsRoutes ?_
        exact (keepsRoutes_of_tree_eq rfl).sameEntries hsame
    · rw [getElem?_append] at hc
      split_ifs at hc with hlt
      · exact ht.alternates hc q
      · obtain rfl := mem_singleton.mp (mem_of_getElem? hc)
        exact isChain_singleton _
  | @left id c tree hlive hsame hreg =>
    have hsame₀ : KeepsRoutes s s := keepsRoutes_of_tree_eq rfl
    refine ⟨hr', fun {i c'} hi => ?_, fun {i c'} hc' q => ?_⟩
    · obtain ⟨hc', hd⟩ := live_eq_some_iff.mp hi
      obtain ⟨c₀, hc₀, rfl⟩ := getElem?_modify_eq_some.mp hc'
      split_ifs at hd with hid
      · cases hd
      · rw [if_neg hid]
        exact (ht.inStep (live_eq_some_iff.mpr ⟨hc₀, hd⟩)).keepsRoutes (hsame₀.sameEntries hsame)
    · obtain ⟨c₀, hc₀, rfl⟩ := getElem?_modify_eq_some.mp hc'
      split_ifs with hid
      · exact ht.alternates hc₀ q
      · exact ht.alternates hc₀ q
  | @polled id c u pending hlive htake =>
    have hk : KeepsRoutes s { s with consumers := s.consumers.modify id (.deliver u pending) } :=
      keepsRoutes_of_tree_eq rfl
    obtain ⟨hstep, halt⟩ := (ht.inStep hlive).delivered htake
    have hid := (live_eq_some_iff.mp hlive).1
    refine ⟨hr', fun {i c'} hi => ?_, fun {i c'} hc' q => ?_⟩
    · obtain ⟨hc', hd⟩ := live_eq_some_iff.mp hi
      obtain ⟨c₀, hc₀, rfl⟩ := getElem?_modify_eq_some.mp hc'
      split_ifs at hd ⊢ with heq
      · subst heq
        obtain rfl := some.inj (hid.symm.trans hc₀)
        exact hstep.keepsRoutes hk
      · exact (ht.inStep (live_eq_some_iff.mpr ⟨hc₀, hd⟩)).keepsRoutes hk
    · obtain ⟨_, hc₀, rfl⟩ := getElem?_modify_eq_some.mp hc'
      split_ifs with heq
      · subst heq
        obtain rfl := some.inj (hid.symm.trans hc₀)
        exact halt q (ht.alternates hid q)
      · exact ht.alternates hc₀ q

theorem Toggles.step (ha : AllAttached s op) :
    ∃ s', s.step op = .ok s' ∧ s'.Toggles := by
  obtain ⟨s', hrun, heff, -⟩ := ht.rooted.accounted.step ha.1.1
  exact ⟨s', hrun, ht.effect ha heff⟩

/-- A drained consumer was shown the active routes below its nodes. -/
theorem Toggles.shown_eq {i : ConsumerId}
    (hi : s.live i = some c) (hdrained : c.pending.take = none) (q : Path) :
    shown (c.log q) = if c.Covers q then s.getBroadcast 0 (c.root.join q) else none := by
  have hnone : c.pending.lookup q = none := take_eq_none_iff.mp hdrained q
  split_ifs with hq
  · have hco := (ht.inStep hi).coherent hq
    rw [hnone] at hco
    rw [ht.rooted.getBroadcast]
    exact hco
  · rw [((ht.inStep hi).silent hq).2, shown_nil]

end

end Toggles

/-! ### Whole runs -/

/-- **Announcements toggle.** In a run whose publishes and consumers go through linked nodes, with
no duplicate publish, every consumer receives for every path an announcement first, then
announcements and unannouncements in turn. A live consumer with nothing left to receive was last
shown, below its nodes, what the unscoped producer finds there, and nothing elsewhere. -/
theorem toggle_contract (info : Origin) (ops : List OriginOp)
    (hm : Meets OriginSystem.step AllAttached (init info) ops) :
    ∃ s, run OriginSystem.step (init info) ops = .ok s ∧
      ∀ (i : ConsumerId) (c : OriginConsumer), s.consumers[i]? = some c →
        (∀ q, Alternates (c.log q)) ∧
        (c.dropped = false → c.pending.take = none → ∀ q, shown (c.log q) =
          if c.Covers q then s.getBroadcast 0 (c.root.join q) else none) := by
  obtain ⟨s, hrun, ht⟩ := hm.invariant (I := Toggles) (fun ht ha => ht.step ha)
    (Toggles.init info)
  refine ⟨s, hrun, fun i c hc => ⟨ht.alternates hc, fun hd hdrained q => ?_⟩⟩
  exact ht.shown_eq (live_eq_some_iff.mpr ⟨hc, hd⟩) hdrained q

/-- A consumer that joins between two publishes sees the route change and the end. -/
theorem toggle_contract_failover :
    ∃ s, run OriginSystem.step (init ⟨1⟩)
        [.publish 0 pathAX remote₁, .consume 0, .poll 0, .publish 0 pathAX local₀, .poll 0,
          .poll 0, .close 0, .cleanup 1, .close 1, .cleanup 0, .poll 0] = .ok s ∧
      ∀ (i : ConsumerId) (c : OriginConsumer), s.consumers[i]? = some c →
        (∀ q, Alternates (c.log q)) ∧
        (c.dropped = false → c.pending.take = none → ∀ q, shown (c.log q) =
          if c.Covers q then s.getBroadcast 0 (c.root.join q) else none) :=
  toggle_contract ⟨1⟩ _ (by decide)

/-- The node of `a` is pruned while a producer scoped to it lives on. A publish at `a/y`
through the detached node is announced to a consumer of the root, and the next one there,
through the unscoped producer, is announced again. -/
theorem detached_publish_announces_twice :
    ∃ s c, run OriginSystem.step (init ⟨1⟩)
        [.scope 0 [pathA], .publish 0 pathAX local₀, .close 0, .cleanup 0, .consume 0,
          .publish 1 pathAY remote₁, .poll 0, .publish 0 pathAY ⟨2, OriginList.new⟩,
          .poll 0] = .ok s ∧
      s.consumers[0]? = some c ∧ ¬ Alternates (c.log pathAY) :=
  ⟨_, _, rfl, rfl, by decide⟩

end OriginSystem

end HermitMoq
