import HermitMoq.Accounting

/-!
# Convergence of the Active Route

All publishes of one producer at one path compete, and the selection is made step by step:
a publish compares with the active route, a removal picks the best of the backup queue.
The accounting of `HermitMoq.Accounting` turns this into a statement about the set of live
broadcasts alone. A broadcast is live at a path from its publish until its cleanup has
run; it stops being live only after it has closed.
-/

namespace HermitMoq

open List Option

namespace OriginSystem

/-- Publishes go through one producer. -/
def Through (producer : ℕ) : OriginOp → Prop
  | .publish p _ _ => p = producer
  | _ => True

instance (producer : ℕ) : DecidablePred (Through producer)
  | .publish p _ _ => inferInstanceAs (Decidable (p = producer))
  | .scope _ _ => isTrue trivial
  | .withRoot _ _ => isTrue trivial
  | .close _ => isTrue trivial
  | .cleanup _ => isTrue trivial
  | .consume _ => isTrue trivial
  | .consumerScope _ _ => isTrue trivial
  | .consumerWithRoot _ _ => isTrue trivial
  | .dropConsumer _ => isTrue trivial
  | .poll _ => isTrue trivial

/-- Publishes go through one producer, and no broadcast is published to a leaf that
already stores it. -/
def OnePublisher (producer : ℕ) (s : OriginSystem) (op : OriginOp) : Prop :=
  Fresh s op ∧ Through producer op

instance (producer : ℕ) (s : OriginSystem) (op : OriginOp) :
    Decidable (OnePublisher producer s op) :=
  inferInstanceAs (Decidable (_ ∧ _))

/-- The broadcasts that were published at an absolute path and not cleaned up yet. -/
def liveAt (s : OriginSystem) (full : Path) : List BroadcastConsumer :=
  (s.cleanups.filter fun t => t.full = full).map (·.broadcast)

/-- The absolute path of a path that a producer serves. -/
def absolute (s : OriginSystem) (producer : ℕ) (path : Path) : Option Path := do
  let handle ← s.producers[producer]?
  let _ ← OriginNodes.get handle.nodes path
  some (handle.root.join path)

/-- No two of the broadcasts have the same key. -/
def KeysDistinct (full : Path) (l : List BroadcastConsumer) : Prop :=
  ∀ b ∈ l, ∀ c ∈ l, routeKey full b.hops = routeKey full c.hops → b = c

instance (full : Path) (l : List BroadcastConsumer) : Decidable (KeysDistinct full l) :=
  inferInstanceAs (Decidable (∀ b ∈ l, _))

variable {producer : ℕ} {t : Cleanup} {p : OriginProducer} {s : OriginSystem} {path full : Path}

theorem absolute_eq_some (h : s.absolute producer path = some full) :
    ∃ p n rest, s.producers[producer]? = some p ∧
      OriginNodes.get p.nodes path = some (n, rest) ∧ full = p.root.join path := by
  simp only [absolute, bind, bind_eq_some_iff] at h
  obtain ⟨p, hp, ⟨n, rest⟩, hget, hfull⟩ := h
  exact ⟨p, n, rest, hp, hget, (some.inj hfull).symm⟩

theorem getBroadcast_eq {producer n : ℕ} {path rest : Path} (hp : s.producers[producer]? = some p)
    (hget : OriginNodes.get p.nodes path = some (n, rest)) :
    s.getBroadcast producer path = active (s.tree.valueFrom n rest.parts).broadcast := by
  simp only [getBroadcast, hp, hget, bind, bind_some, OriginTree.consumeBroadcast_eq]

/-! ### Producers stay what they are -/

section Producers

variable {s' : OriginSystem} {op : OriginOp}

/-- Producers are only ever added. -/
theorem Effect.producers (he : Effect s op s')
    (hp : s.producers[producer]? = some p) : s'.producers[producer]? = some p := by
  cases he with
  | derived hsrc hg hok =>
    rw [List.getElem?_append_left (List.getElem?_eq_some_iff.mp hp).1, hp]
  | _ => exact hp

/-- Tasks are added by accepted publishes and leave after their broadcast has closed. -/
theorem Effect.cleanups (he : Effect s op s') :
    (∀ t ∈ s'.cleanups, t ∈ s.cleanups ∨ t ∈ s.spawns op) ∧
      ∀ t ∈ s.cleanups, t ∈ s'.cleanups ∨ t.broadcast.state ∈ s.closed := by
  cases he with
  | published ht hrw hfind =>
    refine ⟨fun t hmem => ?_, fun t hmem => .inl (mem_append_left _ hmem)⟩
    rcases mem_append.mp hmem with hmem | hmem
    · exact .inl hmem
    · rw [mem_singleton.mp hmem]
      exact .inr (spawns_of_target ht)
  | cleaned ht hclosed hr hrw =>
    refine ⟨fun t hmem => .inl (mem_of_mem_eraseIdx hmem), fun t hmem => ?_⟩
    rw [(perm_cons_eraseIdx ht).mem_iff, mem_cons] at hmem
    rcases hmem with rfl | hmem
    · exact .inr hclosed
    · exact .inl hmem
  | _ => exact ⟨fun t ht => .inl ht, fun t ht => .inl ht⟩

/-- The tasks come from publishes of one producer. -/
def Via (producer : ℕ) (s : OriginSystem) : Prop :=
  ∀ t ∈ s.cleanups, ∃ p path, s.producers[producer]? = some p ∧
    OriginNodes.get p.nodes path = some (t.node, t.rest) ∧ t.full = p.root.join path

theorem spawns_spec (h : t ∈ s.spawns op) (hthrough : Through producer op) :
    ∃ p path, s.producers[producer]? = some p ∧
      OriginNodes.get p.nodes path = some (t.node, t.rest) ∧ t.full = p.root.join path := by
  cases op with
  | publish q path b =>
    obtain rfl : q = producer := hthrough
    obtain ⟨⟨_, _, _⟩, ht, rfl⟩ := map_eq_some_iff.mp h
    obtain ⟨p, hp, hget, hfull⟩ := target_eq_some ht
    exact ⟨p, path, hp, hget, hfull⟩
  | _ => cases h

theorem Via.effect (hv : Via producer s) (hthrough : Through producer op)
    (he : Effect s op s') : Via producer s' := by
  intro t ht
  have hsrc : ∃ p path, s.producers[producer]? = some p ∧
      OriginNodes.get p.nodes path = some (t.node, t.rest) ∧ t.full = p.root.join path := by
    rcases he.cleanups.1 t ht with ht | ht
    · exact hv t ht
    · exact spawns_spec ht hthrough
  obtain ⟨p, path, hp, hget, hfull⟩ := hsrc
  exact ⟨p, path, he.producers hp, hget, hfull⟩

end Producers

/-! ### The leaf of a path -/

section Leaf

variable {s' : OriginSystem} {op : OriginOp} {n : ℕ} {rest : Path}

/-- A task with the absolute path of a served path starts where the producer starts. -/
theorem same_start (hp : s.producers[producer]? = some p)
    (hget : OriginNodes.get p.nodes path = some (n, rest))
    (ht : ∃ p path, s.producers[producer]? = some p ∧
      OriginNodes.get p.nodes path = some (t.node, t.rest) ∧ t.full = p.root.join path)
    (hfull : t.full = p.root.join path) : t.node = n ∧ t.rest = rest := by
  obtain ⟨p', _, hp', hget', hfull'⟩ := ht
  obtain rfl : p = p' := some.inj (hp.symm.trans hp')
  rw [Path.join_left_cancel (hfull.symm.trans hfull'), hget'] at hget
  exact Prod.mk.inj (some.inj hget)

/-- The leaf of a path stores exactly the live broadcasts. -/
theorem stored_perm_liveAt (ha : s.Accounted) (hv : Via producer s)
    (hp : s.producers[producer]? = some p)
    (hget : OriginNodes.get p.nodes path = some (n, rest)) :
    (stored (s.tree.valueFrom n rest.parts).broadcast).Perm (s.liveAt (p.root.join path)) := by
  have hsame : ∀ t ∈ s.cleanups, t.full = p.root.join path → t.node = n ∧ t.rest = rest :=
    fun t ht => same_start hp hget (hv t ht)
  cases hx : s.tree.find n rest.parts with
  | none =>
    have hlive : s.liveAt (p.root.join path) = [] := by
      rw [liveAt, map_eq_nil_iff, filter_eq_nil_iff]
      intro t ht hfull
      obtain ⟨hn, hr⟩ := hsame t ht (of_decide_eq_true hfull)
      obtain ⟨_, hy⟩ := ha.leads t ht
      rw [hn, hr, hx] at hy
      cases hy
    have hnone : s.tree.valueFrom n rest.parts = default := by
      rw [TrieHeap.valueFrom, hx]
      rfl
    rw [hlive, hnone]
    exact List.Perm.refl _
  | some x =>
    rw [TrieHeap.valueFrom_of_find hx, liveAt]
    refine (ha.perm x).trans (List.Perm.of_eq (congrArg _ ?_))
    refine filter_congr fun t ht => ?_
    refine decide_eq_decide.mpr ⟨?_, ?_⟩
    · intro hy
      refine Path.parts_injective ?_
      obtain ⟨_, -, hlab⟩ :=
        (ha.wf.producers p (mem_of_getElem? hp)).get_label hget
      rw [(ha.wf.cleanups t ht).2, ← (ha.wf.tree.find_label hy).1,
        (ha.wf.tree.find_label hx).1, hlab]
    · intro hfull
      obtain ⟨hn, hr⟩ := hsame t ht hfull
      rw [hn, hr, hx]

/-- The update of a rewritten leaf, seen from a path that a producer serves. -/
theorem filter_notice (hs : s.WF) (hp : s.producers[producer]? = some p)
    (hget : OriginNodes.get p.nodes path = some (n, rest)) {m : ℕ}
    {o : Option OriginBroadcast} {tree : OriginTree}
    (hfull : t.full.parts = (s.tree.cell t.node).label ++ t.rest.parts)
    (hsame : t.full = p.root.join path → t.node = n ∧ t.rest = rest)
    (hrw : OriginTree.Rewrites s.tree t.node t.rest.parts m o tree) :
    (noticeFor t.full (active (s.tree.valueFrom t.node t.rest.parts).broadcast)
        (active o)).toList.filter (fun a => a.path = p.root.join path) =
      (noticeFor (p.root.join path) (active (s.tree.valueFrom n rest.parts).broadcast)
        (active (tree.valueFrom n rest.parts).broadcast)).toList := by
  by_cases heq : t.full = p.root.join path
  · obtain ⟨hn, hr⟩ := hsame heq
    rw [← heq, ← hn, ← hr, hrw.content_self]
    refine filter_eq_self.mpr fun a ha => ?_
    rw [path_of_noticeFor (mem_toList.mp ha), decide_eq_true_iff]
  · obtain ⟨_, hmem, hlab⟩ := (hs.producers p (mem_of_getElem? hp)).get_label hget
    have hlt := ((hs.producers p (mem_of_getElem? hp)).placed _ hmem).lt
    rw [hrw.content_ne hlt, noticeFor_self]
    · refine filter_eq_nil_iff.mpr fun a ha => ?_
      rw [path_of_noticeFor (mem_toList.mp ha), decide_eq_true_iff]
      exact heq
    · rw [← hlab, ← hfull]
      exact fun hne => heq (Path.parts_injective hne.symm)

/-- An operation tells the consumers about a path exactly the change of its active
route. -/
theorem Effect.sent (ha : s.Accounted) (hv : Via producer s) (hthrough : Through producer op)
    (he : Effect s op s') (hp : s.producers[producer]? = some p)
    (hget : OriginNodes.get p.nodes path = some (n, rest)) :
    ∃ new, s'.sent = s.sent ++ new ∧
      new.filter (fun a => a.path = p.root.join path) =
        (noticeFor (p.root.join path) (active (s.tree.valueFrom n rest.parts).broadcast)
          (active (s'.tree.valueFrom n rest.parts).broadcast)).toList := by
  have hquiet : ∀ {o o' : Option OriginBroadcast}, o' = o →
      [].filter (fun a : Notice => a.path = p.root.join path) =
        (noticeFor (p.root.join path) (active o) (active o')).toList := by
    rintro o o' rfl
    rw [noticeFor_self]
    rfl
  cases he with
  | published ht hrw hfind =>
    refine ⟨_, rfl, ?_⟩
    rw [publishLeaf_notice]
    have hspawn := spawns_spec (spawns_of_target ht) hthrough
    exact filter_notice ha.wf hp hget (target_spec ha.wf ht).2 (same_start hp hget hspawn) hrw
  | cleaned ht hclosed hr hrw =>
    have hmem := mem_of_getElem? ht
    obtain ⟨_, hr', -⟩ := ha.removeLeaf_ok hmem
    rw [hr, Except.ok.injEq, Prod.mk.injEq] at hr'
    obtain ⟨rfl, rfl⟩ := hr'
    exact ⟨_, rfl, filter_notice ha.wf hp hget (ha.wf.cleanups _ hmem).2
      (same_start hp hget (hv _ hmem)) hrw⟩
  | grown op hg | derived hsrc hg hok =>
    exact ⟨[], (append_nil _).symm, hquiet (by rw [hg.valueFrom])⟩
  | joined hsrc hg hok hsame hrep hreg =>
    refine ⟨[], (append_nil _).symm, hquiet ?_⟩
    rw [hsame.valueFrom, hg.valueFrom]
  | left hc hsame hreg => exact ⟨[], (append_nil _).symm, hquiet (hsame.valueFrom _ _)⟩
  | _ => exact ⟨[], (append_nil _).symm, hquiet rfl⟩

end Leaf

/-! ### Whole runs -/

section Runs

variable {info : Origin}

/-- A state that publishes through one producer can reach. -/
theorem OnePublisher.run (info : Origin) {ops : List OriginOp}
    (hm : Meets OriginSystem.step (OnePublisher producer) (init info) ops) :
    ∃ s, HermitMoq.run OriginSystem.step (init info) ops = .ok s ∧
      s.Accounted ∧ Via producer s :=
  hm.invariant (I := fun s => s.Accounted ∧ Via producer s)
    (fun ⟨ha, hv⟩ ⟨hf, hthrough⟩ => by
      obtain ⟨s', hrun, heff, ha'⟩ := ha.step hf
      exact ⟨s', hrun, ha', hv.effect hthrough heff⟩)
    ⟨Accounted.init info, nofun⟩

/-- The active route has the lowest key of the live broadcasts. -/
theorem getBroadcast_eq_some_iff (ha : s.Accounted) (hv : Via producer s)
    (habs : s.absolute producer path = some full) (hk : KeysDistinct full (s.liveAt full))
    (b : BroadcastConsumer) :
    s.getBroadcast producer path = some b ↔
      b ∈ s.liveAt full ∧
        ∀ c ∈ s.liveAt full, c ≠ b → routeKey full b.hops < routeKey full c.hops := by
  obtain ⟨p, n, rest, hp, hget, rfl⟩ := absolute_eq_some habs
  obtain ⟨_, -, hlab⟩ := (ha.wf.producers p (mem_of_getElem? hp)).get_label hget
  have hperm := stored_perm_liveAt ha hv hp hget
  have hbest := ha.best_valueFrom hlab
  rw [getBroadcast_eq hp hget]
  constructor
  · intro hb
    have hmem := hperm.mem_iff.mp (mem_stored_of_active hb)
    refine ⟨hmem, fun c hc hne => lt_of_le_of_ne ?_ fun heq => ?_⟩
    · exact hbest.le_of_mem hb (hperm.mem_iff.mpr hc)
    · exact hne (hk b hmem c hc heq).symm
  · rintro ⟨hmem, hlow⟩
    cases hact : active (s.tree.valueFrom n rest.parts).broadcast with
    | none =>
      rw [stored_eq_nil_iff.mpr (active_eq_none_iff.mp hact)] at hperm
      exact absurd (hperm.mem_iff.mpr hmem) not_mem_nil
    | some c =>
      by_contra hne
      have hc := hperm.mem_iff.mp (mem_stored_of_active hact)
      have hlt := hlow c hc fun heq => hne (heq ▸ rfl)
      exact absurd (hbest.le_of_mem hact (hperm.mem_iff.mpr hmem)) (not_le.mpr hlt)

/-- **Route convergence.** Publishes through one producer, of broadcasts that are not
stored at the path already, are interleaved with closures, cleanups and everything the
other handles do except publishing. The run does not panic, and in the state it reaches:
the active route of a path is the live broadcast with the lowest key; another such run
with the same live broadcasts has the same active route; a broadcast that stops being live
has closed; and every further operation tells the consumers of a path exactly the change
of its active route. -/
theorem active_route_converges (info : Origin) (producer : ℕ) (ops : List OriginOp)
    (hm : Meets OriginSystem.step (OnePublisher producer) (init info) ops) :
    ∃ s, HermitMoq.run OriginSystem.step (init info) ops = .ok s ∧
      ∀ path full, s.absolute producer path = some full →
        (KeysDistinct full (s.liveAt full) → ∀ b, s.getBroadcast producer path = some b ↔
          b ∈ s.liveAt full ∧
            ∀ c ∈ s.liveAt full, c ≠ b → routeKey full b.hops < routeKey full c.hops) ∧
        (KeysDistinct full (s.liveAt full) → ∀ ops' s' path',
          Meets OriginSystem.step (OnePublisher producer) (init info) ops' →
          HermitMoq.run OriginSystem.step (init info) ops' = .ok s' →
          s'.absolute producer path' = some full →
          (∀ b, b ∈ s'.liveAt full ↔ b ∈ s.liveAt full) →
          s'.getBroadcast producer path' = s.getBroadcast producer path) ∧
        ∀ op s', OnePublisher producer s op → s.step op = .ok s' →
          (∀ b ∈ s.liveAt full, b ∈ s'.liveAt full ∨ b.state ∈ s.closed) ∧
          ∃ new, s'.sent = s.sent ++ new ∧
            new.filter (fun a => a.path = full) =
              (noticeFor full (s.getBroadcast producer path)
                (s'.getBroadcast producer path)).toList := by
  obtain ⟨s, hrun, ha, hv⟩ := OnePublisher.run info hm
  refine ⟨s, hrun, fun path full habs => ⟨?_, ?_, ?_⟩⟩
  · exact getBroadcast_eq_some_iff ha hv habs
  · intro hk ops' s' path' hm' hrun' habs' hlive
    obtain ⟨s₁, hrun₁, ha', hv'⟩ := OnePublisher.run info hm'
    obtain rfl : s' = s₁ := by
      rw [hrun'] at hrun₁
      exact Except.ok.inj hrun₁
    have hk' : KeysDistinct full (s'.liveAt full) := fun b hb c hc heq =>
      hk b ((hlive b).mp hb) c ((hlive c).mp hc) heq
    refine ext fun b => ?_
    rw [getBroadcast_eq_some_iff ha' hv' habs' hk', getBroadcast_eq_some_iff ha hv habs hk,
      hlive]
    simp only [hlive]
  · rintro op s' ⟨hf, hthrough⟩ hstep
    obtain ⟨s₁, hrun₁, heff, -⟩ := ha.step hf
    obtain rfl : s' = s₁ := by
      rw [hstep] at hrun₁
      exact Except.ok.inj hrun₁
    refine ⟨fun b hb => ?_, ?_⟩
    · obtain ⟨t, ht, rfl⟩ := mem_map.mp hb
      obtain ⟨ht, hfull⟩ := mem_filter.mp ht
      rcases heff.cleanups.2 t ht with ht' | hclosed
      · exact .inl (mem_map_of_mem (mem_filter.mpr ⟨ht', hfull⟩))
      · exact .inr hclosed
    · obtain ⟨_, _, _, hp, hget, rfl⟩ := absolute_eq_some habs
      rw [getBroadcast_eq hp hget, getBroadcast_eq (heff.producers hp) hget]
      exact heff.sent ha hv hthrough hp hget

/-- Two routes for one path, published in both orders: the route without hops is active
each time. -/
theorem active_route_converges_two_orders :
    ∃ s, HermitMoq.run OriginSystem.step (init ⟨1⟩)
        [.publish 0 pathA local₀, .publish 0 pathA remote₁] = .ok s ∧
      s.getBroadcast 0 pathA = some local₀ ∧
      ∀ s', HermitMoq.run OriginSystem.step (init ⟨1⟩)
          [.publish 0 pathA remote₁, .publish 0 pathA local₀] = .ok s' →
        s'.getBroadcast 0 pathA = some local₀ := by
  obtain ⟨_, hrun, hall⟩ := active_route_converges ⟨1⟩ 0
    [.publish 0 pathA local₀, .publish 0 pathA remote₁] (by decide)
  cases hrun
  obtain ⟨hmin, hsame, -⟩ := hall pathA pathA rfl
  have hk : KeysDistinct pathA [local₀, remote₁] := by decide
  have hact := (hmin hk local₀).mpr (by decide)
  refine ⟨_, rfl, hact, fun s' hrun' => ?_⟩
  refine hsame hk _ s' pathA (by decide) hrun' ?_ ?_
  · cases hrun'
    rfl
  · cases hrun'
    intro b
    exact List.Perm.mem_iff (List.Perm.swap ..)

end Runs

end OriginSystem

end HermitMoq
