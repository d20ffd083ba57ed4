import HermitMoq.Confinement

/-!
# What the Handles of an Origin Permit

Handles are derived from each other by chains of `scope` and `with_root`, while others publish,
consume and clean up. Beside the origin a delegation keeps for each handle the grants of its chain:
the prefixes that were asked for, and the root they were relative to. A handle permits exactly the
paths that every grant covers.
-/

namespace HermitMoq

open List OriginNodes OriginSystem Except PathPrefixes

/-- The prefixes a handle was restricted to, relative to the root it had. -/
structure Grant where
  root : Path
  prefixes : List Path
  deriving DecidableEq

/-- An absolute path is under one of the prefixes. -/
def Grant.Covers (g : Grant) (path : Path) : Prop :=
  ∃ p ∈ g.prefixes, path.hasPrefix (g.root.join p) = true

/-- An absolute path is covered by every grant. -/
def Permitted (grants : List Grant) (path : Path) : Prop := ∀ g ∈ grants, g.Covers path

/-! ### One link of a chain -/

/-- Relative to its own root, a grant covers what is below its prefixes. -/
theorem Grant.covers_join {root path : Path} {prefixes : List Path} :
    Grant.Covers ⟨root, prefixes⟩ (root.join path) ↔ path.Under prefixes := by
  simp only [Grant.Covers, Path.Under, Path.hasPrefix_iff, Path.parts_join,
    prefix_append_right_inj]

theorem permitted_concat {grants : List Grant} {g : Grant} {path : Path} :
    Permitted (grants ++ [g]) path ↔ Permitted grants path ∧ g.Covers path := by
  simp only [Permitted, forall_mem_append, forall_mem_singleton]

/-- A handle permits some path, and exactly what its grants cover. -/
structure Exact (root : Path) (nodes : OriginNodes) (grants : List Grant) : Prop where
  ne_nil : nodes ≠ []
  permits : ∀ path, nodes.Permits path ↔ Permitted grants (root.join path)

section Links

variable {h h' : OriginTree} {root : Path} {linked : Prop} {nodes : OriginNodes}
  {found : Option OriginNodes} {grants : List Grant}

theorem ne_nil_of_permits {path : Path} (hp : nodes.Permits path) : nodes ≠ [] := by
  rintro rfl
  obtain ⟨_, he, -⟩ := permits_iff.mp hp
  exact absurd he not_mem_nil

/-- A derivation returns `None` exactly if its result would permit nothing. -/
theorem eq_none_iff {P : Path → Prop}
    (hpermits : ∀ path, (∃ nodes' ∈ found, OriginNodes.Permits nodes' path) ↔ P path)
    (hsome : ∀ nodes' ∈ found, ∃ path, OriginNodes.Permits nodes' path) :
    found = none ↔ ∀ path, ¬ P path := by
  cases found with
  | none =>
    refine iff_of_true rfl fun path hpath => ?_
    obtain ⟨nodes', hnone, -⟩ := (hpermits path).mpr hpath
    cases hnone
  | some nodes' =>
    obtain ⟨path, hpath⟩ := hsome nodes' rfl
    exact iff_of_false (by simp) fun hnot => hnot path ((hpermits path).mp ⟨nodes', rfl, hpath⟩)

/-- `scope` adds a grant. -/
theorem Exact.select (hexact : Exact root nodes grants) (wf : h.WF)
    (ho : HandleOk h root linked nodes) {prefixes : List Path}
    (hrun : OriginNodes.select h nodes (PathPrefixes.new prefixes) = .ok (h', found)) :
    (found = none ↔ ∀ path, ¬ Permitted (grants ++ [⟨root, prefixes⟩]) (root.join path)) ∧
      ∀ nodes' ∈ found, Exact root nodes' (grants ++ [⟨root, prefixes⟩]) := by
  obtain ⟨hpermits, hsome⟩ := select_permits wf ho hrun
  have hgrants (path : Path) : (∃ nodes' ∈ found, OriginNodes.Permits nodes' path) ↔
      Permitted (grants ++ [⟨root, prefixes⟩]) (root.join path) := by
    rw [hpermits, hexact.permits, under_new, permitted_concat, Grant.covers_join]
  refine ⟨eq_none_iff hgrants hsome, fun nodes' hnodes => ?_⟩
  obtain ⟨path, hpath⟩ := hsome nodes' hnodes
  refine ⟨ne_nil_of_permits hpath, fun path => ?_⟩
  rw [← hgrants]
  cases hnodes
  simp

/-- `with_root` keeps the grants and changes what paths are relative to. -/
theorem Exact.reroot (hexact : Exact root nodes grants) (wf : h.WF)
    (ho : HandleOk h root linked nodes) {newRoot : Path}
    (hrun : OriginNodes.root h nodes newRoot = .ok (h', found)) :
    (found = none ↔ ∀ path, ¬ Permitted grants ((root.join newRoot).join path)) ∧
      ∀ nodes' ∈ found, Exact (root.join newRoot) nodes' grants := by
  obtain ⟨hpermits, hsome⟩ := root_permits wf ho hrun
  have hassoc (path : Path) : (root.join newRoot).join path = root.join (newRoot.join path) := by
    refine Path.parts_injective ?_
    simp only [Path.parts_join, append_assoc]
  have hgrants (path : Path) : (∃ nodes' ∈ found, OriginNodes.Permits nodes' path) ↔
      Permitted grants ((root.join newRoot).join path) := by
    rw [hpermits, hexact.permits, hassoc]
  refine ⟨eq_none_iff hgrants (hsome hexact.ne_nil), fun nodes' hnodes => ?_⟩
  obtain ⟨path, hpath⟩ := hsome hexact.ne_nil nodes' hnodes
  refine ⟨ne_nil_of_permits hpath, fun path => ?_⟩
  rw [← hgrants]
  cases hnodes
  simp

end Links

/-! ### Delegations -/

/-- An origin, with the grants of its handles. No operation reads them. -/
structure Delegation where
  origin : OriginSystem
  producers : List (List Grant)
  consumers : List (List Grant)

variable {root : Path} {tree : OriginTree} {linked : Prop} {nodes : OriginNodes}

namespace Delegation

/-- The grants of a handle that an operation derives. -/
def grants (d : Delegation) : OriginOp → List Grant
  | .scope i prefixes =>
    d.producers.getD i [] ++ (d.origin.producers[i]?.map fun p => ⟨p.root, prefixes⟩).toList
  | .withRoot i _ => d.producers.getD i []
  | .consume i => d.producers.getD i []
  | .consumerScope i prefixes =>
    d.consumers.getD i [] ++ (d.origin.consumers[i]?.map fun c => ⟨c.root, prefixes⟩).toList
  | .consumerWithRoot i _ => d.consumers.getD i []
  | _ => []

/-- The unscoped producer has no grants to respect. -/
def init (info : Origin) : Delegation := ⟨OriginSystem.init info, [[]], []⟩

/-- One operation; a handle that is new has the grants of its chain. -/
def step (d : Delegation) (op : OriginOp) : Except Panic Delegation := do
  let origin ← d.origin.step op
  .ok {
    origin
    producers := d.producers ++
      List.replicate (origin.producers.length - d.origin.producers.length) (d.grants op)
    consumers := d.consumers ++
      List.replicate (origin.consumers.length - d.origin.consumers.length) (d.grants op) }

/-- The handles of an origin are exact. -/
structure Sound (d : Delegation) : Prop where
  confined : d.origin.Confined
  producers : List.Forall₂ (fun p grants => Exact p.root p.nodes grants) d.origin.producers
    d.producers
  consumers : List.Forall₂ (fun c grants => Exact c.root c.nodes grants) d.origin.consumers
    d.consumers

theorem Sound.init (info : Origin) : (init info).Sound where
  confined := .init info
  producers := by
    refine .cons ⟨cons_ne_nil _ _, fun path => ?_⟩ .nil
    refine iff_of_true (permits_iff.mpr ⟨_, mem_singleton.mpr rfl, ?_⟩) ?_
    · exact nil_prefix
    · exact nofun
  consumers := .nil

section Step

variable {d : Delegation} {s' : OriginSystem} {op : OriginOp} {found : Option OriginNodes}

theorem forall₂_getElem? {α β : Type} {R : α → β → Prop} {l : List α} {m : List β}
    (h : List.Forall₂ R l m) {i : ℕ} {a : α} (ha : l[i]? = some a) :
    ∃ b, m[i]? = some b ∧ R a b := by
  obtain ⟨hi, rfl⟩ := List.getElem?_eq_some_iff.mp ha
  have hi' : i < m.length := h.length_eq ▸ hi
  exact ⟨m[i], getElem?_eq_getElem hi', h.get hi hi'⟩

/-- The grants of a producer. -/
theorem Sound.producer (hd : d.Sound) {i : ℕ} {p : OriginProducer}
    (hp : d.origin.producers[i]? = some p) :
    HandleOk d.origin.tree p.root False p.nodes ∧
      Exact p.root p.nodes (d.producers.getD i []) := by
  obtain ⟨_, hgrants, _⟩ := forall₂_getElem? hd.producers hp
  refine ⟨hd.confined.wf.producers p (mem_of_getElem? hp), ?_⟩
  rwa [getD_eq_getElem?_getD, hgrants, Option.getD_some]

/-- The grants of a consumer. -/
theorem Sound.consumer (hd : d.Sound) {i : ConsumerId} {c : OriginConsumer}
    (hc : d.origin.consumers[i]? = some c) :
    HandleOk d.origin.tree c.root False c.nodes ∧
      Exact c.root c.nodes (d.consumers.getD i []) := by
  obtain ⟨_, hgrants, _⟩ := forall₂_getElem? hd.consumers hc
  refine ⟨hd.confined.wf.consumers hc, ?_⟩
  rwa [getD_eq_getElem?_getD, hgrants, Option.getD_some]

/-- What an operation does to the handles: nothing, or it derives one that is exact. -/
inductive Derives (d : Delegation) (grants : List Grant) (s' : OriginSystem) : Prop
  | none : s'.producers = d.origin.producers → s'.consumers.length = d.origin.consumers.length →
      Derives d grants s'
  | producer {root : Path} {nodes : OriginNodes} : Exact root nodes grants →
      s'.producers = d.origin.producers ++ [⟨root, nodes⟩] →
      s'.consumers = d.origin.consumers → Derives d grants s'
  | consumer {root : Path} {nodes : OriginNodes} {pending : OriginConsumerState} :
      Exact root nodes grants → s'.producers = d.origin.producers →
      s'.consumers = d.origin.consumers ++ [.fresh root nodes pending] → Derives d grants s'

/-- A producer from a derived list of nodes. -/
theorem derives_addProducer {grants : List Grant}
    (hfound : ∀ nodes ∈ found, Exact root nodes grants)
    (h : d.origin.addProducer root (.ok (tree, found)) = .ok s') : Derives d grants s' := by
  cases found with
  | none =>
    obtain rfl := ok.inj h
    exact .none rfl rfl
  | some nodes =>
    obtain rfl := ok.inj h
    exact .producer (hfound nodes rfl) rfl rfl

/-- A consumer from a list of nodes. -/
theorem derives_newConsumer {s : OriginSystem}
    {grants : List Grant} (hs : s.WF) (ho : HandleOk s.tree root linked nodes)
    (hproducers : s.producers = d.origin.producers) (hconsumers : s.consumers = d.origin.consumers)
    (hexact : Exact root nodes grants) (h : s.newConsumer root nodes = .ok s') :
    Derives d grants s' := by
  obtain ⟨_, _, hnew, -⟩ := newConsumer_spec hs ho
  rw [hnew] at h
  obtain rfl := ok.inj h
  exact .consumer hexact hproducers (by rw [hconsumers])

/-- A consumer from a derived list of nodes. -/
theorem derives_addConsumer {grants : List Grant} (hs : d.origin.WF)
    (hg : d.origin.tree.Grows tree) (hok : ∀ nodes, found = some nodes →
      HandleOk tree root linked nodes) (hfound : ∀ nodes ∈ found, Exact root nodes grants)
    (h : d.origin.addConsumer root (.ok (tree, found)) = .ok s') : Derives d grants s' := by
  cases found with
  | none =>
    obtain rfl := ok.inj h
    exact .none rfl rfl
  | some nodes =>
    exact derives_newConsumer (hs.grows hg) (hok nodes rfl) rfl rfl (hfound nodes rfl) h

/-- An operation without a source derives nothing. -/
theorem derives_of_effect {grants : List Grant} (he : OriginSystem.Effect d.origin op s')
    (hproducer : d.origin.producerSource op = none)
    (hconsumer : d.origin.consumerSource op = none) : Derives d grants s' := by
  have htold (tree : OriginTree) (leaf : ℕ) (notice : Option Notice) :
      (told tree leaf notice d.origin.consumers).length = d.origin.consumers.length := by
    cases notice with
    | none => rfl
    | some a => exact length_mapIdx
  cases he with
  | published ht hrw hfind | cleaned ht hclosed hr hrw => exact .none rfl (htold _ _ _)
  | derived hsrc => cases hproducer.symm.trans hsrc
  | joined hsrc => cases hconsumer.symm.trans hsrc
  | left | polled => exact .none rfl (length_modify _ _ _)
  | _ => exact .none rfl rfl

/-- What an operation derives has the grants that are written down for it. -/
theorem Sound.derives (hd : d.Sound) (h : d.origin.step op = .ok s') :
    Derives d (d.grants op) s' := by
  have hwf := hd.confined.wf
  have hother (hproducer : d.origin.producerSource op = none)
      (hconsumer : d.origin.consumerSource op = none) : Derives d (d.grants op) s' := by
    rcases hd.confined.step op with ⟨_, h₁, he, -⟩ | ⟨_, _, -, h₁⟩
    · exact derives_of_effect (ok.inj (h₁.symm.trans h) ▸ he) hproducer hconsumer
    · cases h₁.symm.trans h
  cases op with
  | scope i prefixes =>
    rw [OriginSystem.step] at h
    split at h
    · rename_i p hp
      obtain ⟨hok, hexact⟩ := hd.producer hp
      obtain ⟨tree, found, hselect, -⟩ :=
        select_spec hwf.tree hok (new prefixes)
      rw [hselect] at h
      refine derives_addProducer (fun nodes hnodes => ?_) h
      rw [grants, hp]
      exact (hexact.select hwf.tree hok hselect).2 nodes hnodes
    · obtain rfl := ok.inj h
      exact .none rfl rfl
  | withRoot i path =>
    rw [OriginSystem.step] at h
    split at h
    · rename_i p hp
      obtain ⟨hok, hexact⟩ := hd.producer hp
      obtain ⟨tree, found, hroot, -⟩ := root_spec hwf.tree hok path
      rw [hroot] at h
      exact derives_addProducer (hexact.reroot hwf.tree hok hroot).2 h
    · obtain rfl := ok.inj h
      exact .none rfl rfl
  | consume i =>
    rw [OriginSystem.step] at h
    split at h
    · rename_i p hp
      obtain ⟨hok, hexact⟩ := hd.producer hp
      exact derives_newConsumer hwf hok rfl rfl hexact h
    · obtain rfl := ok.inj h
      exact .none rfl rfl
  | consumerScope i prefixes =>
    rw [OriginSystem.step] at h
    split at h
    · rename_i c hlive
      have hc := (live_eq_some_iff.mp hlive).1
      obtain ⟨hok, hexact⟩ := hd.consumer hc
      obtain ⟨tree, found, hselect, hg, hoks⟩ :=
        select_spec hwf.tree hok (new prefixes)
      rw [hselect] at h
      refine derives_addConsumer hwf hg hoks (fun nodes hnodes => ?_) h
      rw [grants, hc]
      exact (hexact.select hwf.tree hok hselect).2 nodes hnodes
    · obtain rfl := ok.inj h
      exact .none rfl rfl
  | consumerWithRoot i path =>
    rw [OriginSystem.step] at h
    split at h
    · rename_i c hlive
      have hc := (live_eq_some_iff.mp hlive).1
      obtain ⟨hok, hexact⟩ := hd.consumer hc
      obtain ⟨tree, _, hroot, hg, hoks⟩ := root_spec hwf.tree hok path
      rw [hroot] at h
      exact derives_addConsumer hwf hg hoks (hexact.reroot hwf.tree hok hroot).2 h
    · obtain rfl := ok.inj h
      exact .none rfl rfl
  | publish | close | cleanup | dropConsumer | poll => exact hother rfl rfl

/-- A step leaves the roots and nodes of the consumers there are. -/
theorem exact_consumers (hd : d.Sound) (h : d.origin.step op = .ok s')
    (hlength : s'.consumers.length = d.origin.consumers.length) :
    List.Forall₂ (fun c grants => Exact c.root c.nodes grants) s'.consumers d.consumers := by
  rw [forall₂_iff_get]
  refine ⟨hlength.trans hd.consumers.length_eq, fun i hi hi' => ?_⟩
  have hi₀ : i < d.origin.consumers.length := hlength ▸ hi
  rcases hd.confined.step op with ⟨s₁, h₁, he, -⟩ | ⟨_, _, -, h₁⟩
  · obtain rfl := ok.inj (h₁.symm.trans h)
    obtain ⟨c', hc', hroot, hnodes, -⟩ := he.handle (getElem?_eq_getElem hi₀)
    obtain rfl : c' = s₁.consumers[i] := by
      rw [getElem?_eq_getElem hi] at hc'
      exact (Option.some.inj hc').symm
    have hexact := hd.consumers.get hi₀ hi'
    rw [get_eq_getElem, hroot, hnodes]
    exact hexact
  · cases h₁.symm.trans h

/-- The handles stay exact. -/
theorem Sound.step (hd : d.Sound) {d' : Delegation} (h : d.step op = .ok d') : d'.Sound := by
  obtain ⟨_, hs', h⟩ := bind_eq_ok.mp h
  obtain rfl := ok.inj h
  have hconfined := hd.confined.of_step hs'
  rcases hd.derives hs' with ⟨hproducers, hlength⟩ | ⟨hexact, hproducers, hconsumers⟩ |
    ⟨hexact, hproducers, hconsumers⟩
  · refine ⟨hconfined, ?_, ?_⟩
    · simpa [hproducers] using hd.producers
    · simpa [hlength] using exact_consumers hd hs' hlength
  · refine ⟨hconfined, ?_, ?_⟩
    · simpa [hproducers] using rel_append hd.producers (.cons hexact .nil)
    · simpa [hconsumers] using hd.consumers
  · refine ⟨hconfined, ?_, ?_⟩
    · simpa [hproducers] using hd.producers
    · simpa [hconsumers] using rel_append hd.consumers (.cons hexact .nil)

/-- Removing a broadcast notifies of its own path only. -/
theorem removeLeaf_ne_stripPrefixUnwrap {full : Path} {b : BroadcastConsumer}
    {o : Option OriginBroadcast} : removeLeaf full b o ≠ .error .stripPrefixUnwrap := by
  rw [removeLeaf.eq_def]
  repeat' split
  all_goals simp

theorem Sound.step_ne_error (hd : d.Sound) (op : OriginOp) :
    d.step op ≠ .error .stripPrefixUnwrap := by
  intro h
  rcases step_effect hd.confined.wf op with ⟨_, hrun, -⟩ |
    ⟨task, t, e, -, -, -, hremove, hrun⟩
  · rw [Delegation.step, hrun] at h
    cases h
  · rw [Delegation.step, hrun] at h
    obtain rfl : e = .stripPrefixUnwrap := error.inj h
    exact removeLeaf_ne_stripPrefixUnwrap hremove

end Step

end Delegation

/-! ### Exact scoping -/

/-- What a handle permits and what can be derived from it. -/
structure Scoped (tree : OriginTree) (root : Path) (nodes : OriginNodes) (grants : List Grant) :
    Prop where
  /-- No prefix of the handle covers another. -/
  apart : nodes.Pairwise fun e e' => e.1.Apart e'.1
  /-- A node is found for the paths that are permitted. -/
  permits : ∀ path, (OriginNodes.get nodes path).isSome = true ↔ Permitted grants (root.join path)
  /-- `scope` returns `None` if no path would be permitted. -/
  scope : ∀ prefixes, ∃ tree' found,
    OriginNodes.select tree nodes (PathPrefixes.new prefixes) = .ok (tree', found) ∧
      (found = none ↔ ∀ path, ¬ Permitted (grants ++ [⟨root, prefixes⟩]) (root.join path))
  /-- `with_root` returns `None` if no path would be permitted. -/
  withRoot : ∀ newRoot, ∃ tree' found,
    OriginNodes.root tree nodes newRoot = .ok (tree', found) ∧
      (found = none ↔ ∀ path, ¬ Permitted grants ((root.join newRoot).join path))

theorem Exact.scoped {grants : List Grant} (hexact : Exact root nodes grants) (wf : tree.WF)
    (ho : HandleOk tree root linked nodes) : Scoped tree root nodes grants where
  apart := ho.apart
  permits path := by rw [isSome_get, hexact.permits]
  scope prefixes := by
    obtain ⟨tree', found, hselect, -⟩ := select_spec wf ho (new prefixes)
    exact ⟨tree', found, hselect, (hexact.select wf ho hselect).1⟩
  withRoot newRoot := by
    obtain ⟨tree', found, hroot, -⟩ := root_spec wf ho newRoot
    exact ⟨tree', found, hroot, (hexact.reroot wf ho hroot).1⟩

/-- **Scoping is exact and never widens.** Whatever handles are derived from an origin and whatever
else happens to it, a handle permits exactly the paths that every grant of its chain covers, for
publishing and for reading. Consumers hear of such paths only, and no notification panics because
its path is not under the root of a consumer. -/
theorem scoping_exact (info : Origin) (ops : List OriginOp) :
    run Delegation.step (Delegation.init info) ops ≠ .error .stripPrefixUnwrap ∧
    ∀ d, run Delegation.step (Delegation.init info) ops = .ok d →
      (∀ (i : ℕ) (p : OriginProducer), d.origin.producers[i]? = some p →
        ∃ grants, d.producers[i]? = some grants ∧ Scoped d.origin.tree p.root p.nodes grants ∧
          ∀ path broadcast, (d.origin.target i path broadcast).isSome = true ↔
            broadcast.hops.contains d.origin.info = false ∧
              Permitted grants (p.root.join path)) ∧
      ∀ (i : ConsumerId) (c : OriginConsumer), d.origin.consumers[i]? = some c →
        ∃ grants, d.consumers[i]? = some grants ∧ Scoped d.origin.tree c.root c.nodes grants ∧
          ∀ u ∈ c.received, Permitted grants (c.root.join u.1) := by
  refine ⟨?_, fun d hrun => ?_⟩
  · exact run_ne_error (I := Delegation.Sound) (fun hd h => hd.step h)
      (fun hd => hd.step_ne_error _) (Delegation.Sound.init info) ops
  have hd : d.Sound :=
    run_preserves (fun hd h => Delegation.Sound.step hd h) (Delegation.Sound.init info) hrun
  refine ⟨fun i p hp => ?_, fun i c hc => ?_⟩
  · obtain ⟨grants, hgrants, hexact⟩ := Delegation.forall₂_getElem? hd.producers hp
    have hscoped := hexact.scoped hd.confined.wf.tree (hd.producer hp).1
    refine ⟨grants, hgrants, hscoped, fun path broadcast => ?_⟩
    rw [← hscoped.permits, target, hp]
    cases hloop : broadcast.hops.contains d.origin.info with
    | true => simp
    | false => simp [Option.isSome_bind]
  · obtain ⟨grants, hgrants, hexact⟩ := Delegation.forall₂_getElem? hd.consumers hc
    refine ⟨grants, hgrants, hexact.scoped hd.confined.wf.tree (hd.consumer hc).1, fun u hu => ?_⟩
    exact (hexact.permits u.1).mp ((hd.confined.consumers hc).received u hu)

end HermitMoq
