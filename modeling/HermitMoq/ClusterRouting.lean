import HermitMoq.ClusterInvariant

/-!
# Routing in a Cluster

The invariant of a cluster holds whatever the order of its steps. In a quiescent state it
leaves one picture: every consumer was last shown the active route of its relay, every
subscriber holds the offer that belongs to it, and every relay stores exactly what its
applications published and its sessions hold. The active routes are then a stable choice of
routes in the sense of `HermitMoq.PathVector`, and so they are shortest paths.
-/

namespace HermitMoq

open Option

namespace Cluster

variable {V : Type*} {T : Topology V} {c : Cluster V}

/-- The active broadcast of a relay. -/
def getBroadcast (c : Cluster V) (path : Path) (x : V) : Option BroadcastConsumer :=
  (c.relays x).origin.getBroadcast 0 path

/-- The hop chain of the active broadcast of a relay. -/
def route (c : Cluster V) (path : Path) (x : V) : Option (List Origin) :=
  (c.getBroadcast path x).map (·.hops.list)

/-- What a relay stores at a path is no shorter than its active route. -/
theorem Ok.route_le (hc : c.Ok T) {x : V} {t : Cleanup} (ht : t ∈ (c.relays x).origin.cleanups) :
    ∃ l, c.route t.full x = some l ∧ l.length ≤ t.broadcast.hops.len := by
  have hr := (hc.relay x).toggles.rooted
  have hsome := (hr.isSome_getBroadcast t.full).mpr ⟨t, ht, rfl⟩
  obtain ⟨b, hb⟩ := isSome_iff_exists.mp hsome
  refine ⟨b.hops.list, by rw [route, getBroadcast, hb, map_some], ?_⟩
  have hmem := hr.mem_stored_iff.mpr ⟨t, ht, rfl, rfl⟩
  rw [hr.getBroadcast] at hb
  have hbest : Best t.full ((c.relays x).origin.tree.valueFrom 0 t.full.parts).broadcast := by
    refine hr.accounted.best_valueFrom ?_
    rw [hr.accounted.wf.tree.root_label, List.nil_append]
  exact len_le_of_routeKey_le (hbest.le_of_mem hb hmem)

/-- In a quiescent cluster a subscriber holds what its publisher offers. -/
theorem Ok.held_eq_offer (hc : c.Ok T) (hq : c.Quiescent T) {y x : V} (hadj : T.graph.Adj y x)
    (path : Path) :
    (c.held x y path).map (·.hops.list) =
      PathVector.offer T.info maxHops y x (c.route path y) := by
  obtain ⟨_, k, ht, hk, hdrained⟩ := hq.task hadj
  obtain ⟨-, -, -, k', hk', hun, hfeed⟩ := (hc.session y x).task ht
  obtain rfl : k = k' := some.inj (hk.symm.trans hk')
  have hshown := (hc.relay y).toggles.shown_eq hk hdrained path
  rw [if_pos (hun.covers path), hun.root, Path.empty_join] at hshown
  have hoffer := hfeed path
  rw [Session.feed, hq.stream hadj, hshown] at hoffer
  exact hoffer

/-- The active routes of a quiescent cluster are a stable choice of routes. -/
theorem Ok.stable (hc : c.Ok T) (hq : c.Quiescent T) (path : Path) :
    PathVector.Stable T.graph T.info maxHops (c.LocalAt path) (c.route path) where
  isOpen {x l} hl := by
    obtain ⟨b, hb, rfl⟩ := map_eq_some_iff.mp hl
    have hr := (hc.relay x).toggles.rooted
    rw [getBroadcast, hr.getBroadcast] at hb
    obtain ⟨t, ht, rfl, rfl⟩ := hr.mem_stored_iff.mp (mem_stored_of_active hb)
    rcases (hc.relay x).stems t ht with ⟨hlocal, hnew⟩ | ⟨y, hadj, -, -, -, hheld⟩
    · refine .inl ⟨⟨t, ht, rfl, hlocal, hq.cleanups ht⟩, ?_⟩
      rw [hnew]
      rfl
    · have hheld := hheld.resolve_left (hq.cleanups ht)
      refine .inr ⟨y, hadj, ?_⟩
      rw [← hc.held_eq_offer hq hadj, hheld, map_some]
  shortest {x l} hl := by
    rcases hl with ⟨⟨t, ht, rfl, hlocal, -⟩, rfl⟩ | ⟨y, hadj, hoffer⟩
    · obtain ⟨l, hl, hle⟩ := hc.route_le ht
      refine ⟨l, hl, ?_⟩
      rcases (hc.relay x).stems t ht with ⟨-, hnew⟩ | ⟨_, -, hup, -⟩
      · rw [hnew] at hle
        exact hle
      · exact absurd hlocal ((hc.relay x).upstream_lt hup).2
    · rw [← hc.held_eq_offer hq hadj] at hoffer
      obtain ⟨_, hb, rfl⟩ := map_eq_some_iff.mp hoffer
      obtain ⟨-, -, _, ht, rfl, rfl⟩ := (hc.relay x).held hb
      exact hc.route_le ht

variable [DecidableEq V]

/-- **Routing in a cluster.** Let no application publish a broadcast where its relay already stores
it. Then nothing fails, and in every state a broadcast that a relay stores has a hop chain of
pairwise distinct ids, at most 32 and not the relay's own, that follows the links and ends with the
neighbour it came from. In every quiescent state the hop count of an active route is the distance to
the nearest relay with a live local broadcast, and a relay has no route exactly if this distance
exceeds 32. A broadcast is live at a path once it is published there, until it is closed. -/
theorem cluster_routing (T : Topology V) [DecidableRel T.graph.Adj] (ops : List (ClusterOp V))
    (hfresh : Meets (step T) Fresh (init T) ops) :
    ∃ c, run (step T) (init T) ops = .ok c ∧
      (∀ x n, ∀ b ∈ stored ((c.relays x).origin.tree.cell n).value.broadcast,
        b.hops.list.Nodup ∧ T.info x ∉ b.hops.list ∧ b.hops.len ≤ 32 ∧
        b.hops.list.IsChain (fun i j => ∃ u v, T.graph.Adj u v ∧ T.info u = i ∧ T.info v = j) ∧
        ((b.state ∈ (c.relays x).locals ∧ b.hops = OriginList.new) ∨
          ∃ y path, T.graph.Adj y x ∧ (c.relays x).upstream.lookup b.state = some (y, path) ∧
            b.hops.list.getLast? = some (T.info y))) ∧
      (c.Quiescent T → ∀ path x,
        (∀ b, c.getBroadcast path x = some b →
          (b.hops.len : ℕ∞) = PathVector.distance T.graph (c.LocalAt path) x) ∧
        (c.getBroadcast path x = none ↔
          32 < PathVector.distance T.graph (c.LocalAt path) x)) ∧
      ∀ x, ∀ state ∈ (c.relays x).locals,
        (∀ path, c.Fresh (.publish x path state) → state ∉ (c.relays x).origin.closed →
          ∃ c', c.step T (.publish x path state) = .ok c' ∧ c'.LocalAt path x) ∧
        ∃ c', c.step T (.close x state) = .ok c' ∧ state ∈ (c'.relays x).origin.closed := by
  obtain ⟨c, hrun, hc⟩ := hfresh.invariant (fun hc hf => hc.step hf) (Ok.init (T := T))
  refine ⟨c, hrun, fun x n b hb => ?_, fun hq path x => ⟨fun b hb => ?_, ?_⟩,
    fun x state hlocal => ⟨fun path hf hopen => ?_, ?_⟩⟩
  · have hr := hc.relay x
    obtain ⟨t, ht, rfl⟩ :=
      List.mem_map.mp ((hr.toggles.rooted.accounted.perm n).mem_iff.mp hb)
    have ht := (List.mem_filter.mp ht).1
    have hgood := hr.goodRoute ht
    refine ⟨hgood.nodup, hgood.notMem, t.broadcast.hops.bound, hgood.isChain, ?_⟩
    rcases hr.stems t ht with hlocal | ⟨y, hadj, hup, -, hlast, -⟩
    · exact .inl hlocal
    · exact .inr ⟨y, t.full, hadj, hup, hlast⟩
  · have hl : c.route path x = some b.hops.list := by rw [route, hb, map_some]
    exact (hc.stable hq path).length_eq_distance T.info_injective hl
  · have hnone := (hc.stable hq path).eq_none_iff T.info_injective (x := x)
    rwa [route, map_eq_none_iff] at hnone
  · obtain ⟨c', hstep, -, hlive⟩ := hc.publish_local hlocal hf
    exact ⟨c', hstep, hlive hopen⟩
  · obtain ⟨c', hstep, -, hclosed⟩ := hc.close_local hlocal
    exact ⟨c', hstep, hclosed⟩

/-- Three relays in a row. -/
def line : Topology (Fin 3) where
  graph := SimpleGraph.fromRel fun x y => x.val + 1 = y.val
  info x := ⟨x.val.toUInt64 + 1⟩
  sessionOrigin _ _ := ⟨9⟩
  info_injective := by decide
  info_ne_zero := by decide

instance : DecidableRel line.graph.Adj := fun x y =>
  inferInstanceAs (Decidable (x ≠ y ∧ (x.val + 1 = y.val ∨ y.val + 1 = x.val)))

/-- A broadcast of the first relay reaches the last one. -/
def relayed : List (ClusterOp (Fin 3)) :=
  [.connect 0 1, .connect 1 0, .connect 1 2, .connect 2 1, .recvAnnounce 0 1, .recvAnnounce 1 0,
    .recvAnnounce 1 2, .produce 0, .publish 0 OriginSystem.pathA 0, .announce 0 1, .receive 0 1,
    .announce 1 0, .announce 1 2, .receive 1 2, .recvAnnounce 2 1, .announce 2 1]

/-- It is two hops away, and this is the distance. -/
theorem cluster_routing_line :
    ∃ c, run (step line) (init line) relayed = .ok c ∧ c.Quiescent line ∧
      c.route OriginSystem.pathA 2 = some [⟨1⟩, ⟨2⟩] ∧
      PathVector.distance line.graph (c.LocalAt OriginSystem.pathA) 2 = 2 := by
  obtain ⟨c, hrun, -, hquiescent, -⟩ := cluster_routing line relayed (by decide +kernel)
  have hend : (run (step line) (init line) relayed).toOption.any (fun c =>
      decide (c.Quiescent line) && c.route OriginSystem.pathA 2 == some [⟨1⟩, ⟨2⟩]) = true := by
    decide +kernel
  rw [hrun] at hend
  obtain ⟨hq, hroute⟩ : c.Quiescent line ∧ c.route OriginSystem.pathA 2 = some [⟨1⟩, ⟨2⟩] := by
    simpa [Except.toOption] using hend
  obtain ⟨b, hb, hlist⟩ := map_eq_some_iff.mp hroute
  have hlen := (hquiescent hq OriginSystem.pathA 2).1 b hb
  rw [OriginList.len, hlist] at hlen
  exact ⟨c, hrun, hq, hroute, hlen.symm⟩

/-- The first relay has a broadcast from the second as a backup of its own. It publishes its own
once more, and after it is closed the second of its two cleanups panics. -/
theorem double_publish_breaks_cluster :
    run (step line) (init line)
      [.connect 1 0, .recvAnnounce 1 0, .produce 1, .publish 1 OriginSystem.pathA 0, .announce 1 0,
        .receive 1 0, .produce 0, .publish 0 OriginSystem.pathA 1, .publish 0 OriginSystem.pathA 1,
        .close 0 1, .cleanup 0 1, .cleanup 0 1] = .error (.panic .activeIsClone) := by
  rfl

end Cluster

end HermitMoq
