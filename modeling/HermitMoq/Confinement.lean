import HermitMoq.Scoping
import HermitMoq.ToggleContract

/-!
# Consumers Only Hear about What They May Read

Whatever happens to an origin, a consumer is never told about a path that none of its nodes
serves. Unlike the toggle contract this needs no condition on the run: it holds for nodes that
were unlinked, and for broadcasts that were published twice.
-/

namespace HermitMoq

open List OriginNodes

/-- `OriginConsumer::get_broadcast`. -/
def OriginConsumer.getBroadcast (c : OriginConsumer) (s : OriginSystem) (path : Path) :
    Option BroadcastConsumer := do
  let (node, rest) ← OriginNodes.get c.nodes path
  s.tree.consumeBroadcast node rest

/-- Nothing outside of the nodes of a consumer is found. -/
theorem OriginConsumer.getBroadcast_eq_none {c : OriginConsumer} {path : Path}
    (hpath : ¬ c.nodes.Permits path) (s : OriginSystem) : c.getBroadcast s path = none := by
  have hget : get c.nodes path = none := by
    rw [← Option.not_isSome_iff_eq_none, isSome_get]
    exact hpath
  rw [getBroadcast, hget]
  rfl

/-- Nothing outside of the nodes of a consumer is pending or was received. -/
structure OriginConsumer.Confined (c : OriginConsumer) : Prop where
  pending : ∀ {path update}, c.pending.lookup path = some update → c.nodes.Permits path
  received : ∀ u ∈ c.received, c.nodes.Permits u.1

namespace OriginSystem

/-- All consumers of an origin are confined. -/
structure Confined (s : OriginSystem) : Prop where
  wf : s.WF
  consumers : ∀ {i : ConsumerId} {c : OriginConsumer}, s.consumers[i]? = some c → c.Confined

theorem Confined.init (info : Origin) : (init info).Confined :=
  ⟨WF.init info, fun hc => by simp [OriginSystem.init] at hc⟩

section Confined

variable {s s' : OriginSystem} {op : OriginOp} {c : OriginConsumer} {i : ConsumerId}
  {pending : OriginConsumerState} {o : Option OriginBroadcast} {tree : OriginTree} {ds : List Dir}
  {full : Path}

/-- A consumer that is told about a leaf serves its path. -/
theorem confined_tell (hs : s.WF) {n m : ℕ} (hrw : OriginTree.Rewrites s.tree n ds m o tree)
    (hfull : full.parts = (s.tree.cell n).label ++ ds) {notice : Notice}
    (hpath : notice.path = full) (hi : s.consumers[i]? = some c) (hc : c.Confined)
    (htold : i ∈ (tree.listeners m).map Prod.fst) : (c.tell notice).Confined := by
  obtain ⟨⟨_, root⟩, hj, rfl⟩ := mem_map.mp htold
  obtain ⟨c', hc', -, e, he, -, hpre⟩ := mem_listeners hs hrw hj
  obtain rfl : c' = c := Option.some.inj ((live_eq_some_iff.mp hc').1.symm.trans hi)
  have hlabel := ((hs.consumers hi).placed e he).label
  rw [OriginConsumer.tell, hpath]
  cases hstrip : full.stripPrefix c'.root with
  | none => exact hc
  | some path =>
    refine ⟨fun {q update} hq => ?_, hc.received⟩
    change (c'.pending.apply path notice).lookup q = some update at hq
    rw [OriginConsumerState.lookup_apply] at hq
    split_ifs at hq with heq
    · refine permits_iff.mpr ⟨e, he, ?_⟩
      rw [hlabel, ← hfull, Path.stripPrefix_eq_some_iff.mp hstrip,
        prefix_append_right_inj] at hpre
      exact heq ▸ hpre
    · exact hc.pending hq

/-- The consumers after the update of a leaf. -/
theorem Confined.told (hs : s.Confined) {n m : ℕ} (hrw : OriginTree.Rewrites s.tree n ds m o tree)
    (hfull : full.parts = (s.tree.cell n).label ++ ds) {notice : Option Notice}
    (hpath : ∀ a, notice = some a → a.path = full)
    (hc : (HermitMoq.told tree m notice s.consumers)[i]? = some c) : c.Confined := by
  cases notice with
  | none => exact hs.consumers hc
  | some a =>
    rw [HermitMoq.told, getElem?_tellAll] at hc
    obtain ⟨_, hc₀, rfl⟩ := Option.map_eq_some_iff.mp hc
    split_ifs with htold
    · exact confined_tell hs.wf hrw hfull (hpath a rfl) hc₀ (hs.consumers hc₀) htold
    · exact hs.consumers hc₀

/-- A new consumer is told about what its nodes serve. -/
theorem confined_fresh (hs : s.WF) {root : Path} {linked : Prop} {nodes : OriginNodes}
    (ho : HandleOk s.tree root linked nodes)
    (hrep : Represents root pending (snapshot s.tree nodes)) :
    (OriginConsumer.fresh root nodes pending).Confined := by
  refine ⟨fun {path update} h => ?_, nofun⟩
  obtain ⟨_, -, hb⟩ := (hrep path update).mp h
  obtain ⟨e, he, _, _, -, hparts, -⟩ := (mem_snapshot hs ho).mp hb
  rw [(ho.placed e he).label, Path.parts_join, append_assoc,
    append_cancel_left_eq] at hparts
  exact permits_iff.mpr ⟨e, he, hparts ▸ prefix_append _ _⟩

/-- A received update was pending. -/
theorem confined_deliver (hc : c.Confined) {u : OriginAnnounce}
    (htake : c.pending.take = some (u, pending)) :
    (c.deliver u pending).Confined := by
  obtain ⟨_, hlook, -, hrest⟩ := OriginConsumerState.lookup_take htake
  refine ⟨fun {path update'} h => ?_, fun v hv => ?_⟩
  · change pending.lookup path = some update' at h
    rw [hrest] at h
    split_ifs at h with heq
    · exact heq ▸ hc.pending hlook
    · exact hc.pending h
  · rcases mem_append.mp hv with hv | hv
    · exact hc.received v hv
    · rw [mem_singleton.mp hv]
      exact hc.pending hlook

/-- **Confinement** is kept by every operation. -/
theorem Confined.effect (hs : s.Confined) (he : Effect s op s') : s'.Confined := by
  refine ⟨hs.wf.effect he, fun {i c} hc => ?_⟩
  cases he with
  | published ht hrw hfind =>
    refine hs.told hrw (target_spec hs.wf ht).2 (fun a ha => ?_) hc
    rw [publishLeaf_notice] at ha
    exact path_of_noticeFor ha
  | cleaned ht hclosed hr hrw =>
    refine hs.told hrw (hs.wf.cleanups _ (mem_of_getElem? ht)).2 (fun a ha => ?_) hc
    exact (path_removeLeaf hr).2 a ha
  | joined hsrc hg hok hsame hrep hreg =>
    rw [getElem?_append] at hc
    split_ifs at hc
    · exact hs.consumers hc
    · obtain rfl := mem_singleton.mp (mem_of_getElem? hc)
      exact confined_fresh (hs.wf.grows hg) hok hrep
  | left hlive hsame hreg =>
    obtain ⟨c₀, hc₀, rfl⟩ := getElem?_modify_eq_some.mp hc
    have hc₀ := hs.consumers hc₀
    split_ifs
    · exact ⟨hc₀.pending, hc₀.received⟩
    · exact hc₀
  | polled hlive htake =>
    obtain ⟨_, hc₀, rfl⟩ := getElem?_modify_eq_some.mp hc
    split_ifs with hid
    · obtain rfl := Option.some.inj ((live_eq_some_iff.mp hlive).1.symm.trans (hid ▸ hc₀))
      exact confined_deliver (hs.consumers hc₀) htake
    · exact hs.consumers hc₀
  | _ => exact hs.consumers hc

/-- The root and the nodes of a consumer stay, it receives only when it is polled, and it is
dropped only by its own drop. -/
theorem Effect.handle (he : Effect s op s') (hc : s.consumers[i]? = some c) :
    ∃ c', s'.consumers[i]? = some c' ∧ c'.root = c.root ∧ c'.nodes = c.nodes ∧
      (op ≠ .poll i → c'.received = c.received) ∧
      (op ≠ .dropConsumer i → c'.dropped = c.dropped) := by
  have hsame : ∀ {l : List OriginConsumer}, (∃ c', l[i]? = some c' ∧ c.SameHandle c') →
      ∃ c', l[i]? = some c' ∧ c'.root = c.root ∧ c'.nodes = c.nodes ∧
        (op ≠ .poll i → c'.received = c.received) ∧
        (op ≠ .dropConsumer i → c'.dropped = c.dropped) :=
    fun ⟨c', hc', h⟩ => ⟨c', hc', h.root, h.nodes, fun _ => h.received, fun _ => h.dropped⟩
  cases he with
  | published ht hrw hfind | cleaned ht hclosed hr hrw => exact hsame (told_of_some _ _ _ hc)
  | joined hsrc hg hok hs hrep hreg =>
    refine ⟨c, ?_, rfl, rfl, fun _ => rfl, fun _ => rfl⟩
    rw [List.getElem?_append_left (List.getElem?_eq_some_iff.mp hc).1, hc]
  | @left id c₀ tree hlive hs hreg =>
    refine ⟨_, getElem?_modify_eq_some.mpr ⟨c, hc, rfl⟩, ?_⟩
    split_ifs with hid
    · exact ⟨rfl, rfl, fun _ => rfl, fun h => absurd (hid ▸ rfl) h⟩
    · exact ⟨rfl, rfl, fun _ => rfl, fun _ => rfl⟩
  | @polled id c₀ update pending hlive htake =>
    refine ⟨_, getElem?_modify_eq_some.mpr ⟨c, hc, rfl⟩, ?_⟩
    split_ifs with hid
    · exact ⟨rfl, rfl, fun h => absurd (hid ▸ rfl) h, fun _ => rfl⟩
    · exact ⟨rfl, rfl, fun _ => rfl, fun _ => rfl⟩
  | _ => exact ⟨c, hc, rfl, rfl, fun _ => rfl, fun _ => rfl⟩

/-- An operation that succeeds keeps confinement, and only cleanups fail. -/
theorem Confined.step (hs : s.Confined) (op : OriginOp) :
    (∃ s', s.step op = .ok s' ∧ Effect s op s' ∧ s'.Confined) ∨
      ∃ task e, op = .cleanup task ∧ s.step op = .error e := by
  rcases step_effect hs.wf op with ⟨s', hrun, he⟩ | ⟨task, -, e, rfl, -, -, -, hrun⟩
  · exact .inl ⟨s', hrun, he, hs.effect he⟩
  · exact .inr ⟨task, e, rfl, hrun⟩

theorem Confined.of_step (hs : s.Confined) (h : s.step op = .ok s') : s'.Confined := by
  rcases hs.step op with ⟨_, h₁, -, hs₁⟩ | ⟨_, _, -, h₁⟩
  · exact Except.ok.inj (h₁.symm.trans h) ▸ hs₁
  · cases h₁.symm.trans h

/-- Every state that an origin reaches is confined. -/
theorem Confined.run (info : Origin) {ops : List OriginOp}
    (hrun : HermitMoq.run OriginSystem.step (OriginSystem.init info) ops = .ok s) :
    s.Confined :=
  run_preserves (fun hs h => hs.of_step h) (Confined.init info) hrun

/-- A consumer that `scope` creates has received nothing, and serves what its source serves
below the prefixes. -/
theorem Confined.consumerScope (hs : s.Confined) {prefixes : List Path}
    (h : s.step (.consumerScope i prefixes) = .ok s')
    (hsome : s'.consumers.length = s.consumers.length + 1) :
    ∃ c₀ c, s.live i = some c₀ ∧ s'.consumers[s.consumers.length]? = some c ∧ c.received = [] ∧
      ∀ path, c.nodes.Permits path ↔ c₀.nodes.Permits path ∧ path.Under prefixes := by
  have hsame : s'.consumers ≠ s.consumers := fun heq => by simp [heq] at hsome
  cases hc₀ : s.live i with
  | none =>
    simp only [OriginSystem.step, hc₀, Except.ok.injEq] at h
    exact absurd (h ▸ rfl) hsame
  | some c₀ =>
    have ho := hs.wf.consumers (live_eq_some_iff.mp hc₀).1
    obtain ⟨tree, found, hselect, hg, hok⟩ :=
      select_spec hs.wf.tree ho (PathPrefixes.new prefixes)
    have hpermits := (select_permits hs.wf.tree ho hselect).1
    simp only [OriginSystem.step, hc₀, hselect, addConsumer] at h
    cases found with
    | none =>
      simp only [Except.ok.injEq] at h
      exact absurd (h ▸ rfl) hsame
    | some nodes =>
      obtain ⟨_, pending, hnew, -⟩ := newConsumer_spec (hs.wf.grows hg) (hok nodes rfl)
      simp only [hnew, Except.ok.injEq] at h
      subst h
      refine ⟨c₀, .fresh c₀.root nodes pending, rfl, ?_, rfl, fun path => ?_⟩
      · rw [getElem?_append_right le_rfl, Nat.sub_self, getElem?_cons_zero]
      · rw [← PathPrefixes.under_new, ← hpermits]
        refine ⟨fun hp => ⟨nodes, rfl, hp⟩, ?_⟩
        rintro ⟨_, ⟨⟩, hp⟩
        exact hp

end Confined

end OriginSystem

end HermitMoq
