import HermitMoq.OriginEffect

/-!
# Cleanups and Stored Broadcasts

`publish_broadcast` stores a broadcast at a leaf and spawns the task that will take it
out again, and the removal asserts that it finds the broadcast it was asked to remove.
The assertion rests on an accounting: the broadcasts stored at a leaf are exactly those
of the pending cleanup tasks that lead there, and no two of them are clones. Every
operation keeps it (`Accounted.step`), with nodes being pruned and detached on the way,
provided no broadcast is published to a leaf that already stores it.

That proviso is needed. A duplicate is dropped by `OriginNode::publish`, but its cleanup
is spawned all the same; once the first of the two cleanups has run, the second may find
another broadcast in place of its own (`double_publish_panics`).
-/

namespace HermitMoq

open List TrieHeap

namespace OriginSystem

/-- The task an operation spawns: that of an accepted publish. -/
def spawns (s : OriginSystem) : OriginOp → Option Cleanup
  | .publish producer path broadcast =>
    (s.target producer path broadcast).map fun r => ⟨r.1, r.2.2, broadcast, r.2.1⟩
  | _ => none

variable {b : BroadcastConsumer} {s : OriginSystem} (info : Origin)

theorem spawns_of_target {producer node : ℕ} {path rest full : Path}
    (h : s.target producer path b = some (node, rest, full)) :
    ⟨node, full, b, rest⟩ ∈ s.spawns (.publish producer path b) := by
  rw [spawns, h, Option.map_some, Option.mem_def]

/-- No operation publishes a broadcast to a leaf that already stores it. -/
def Fresh (s : OriginSystem) (op : OriginOp) : Prop :=
  ∀ t ∈ s.spawns op, ¬ IsStored t.broadcast (s.tree.valueFrom t.node t.rest.parts).broadcast

instance (s : OriginSystem) (op : OriginOp) : Decidable (Fresh s op) :=
  inferInstanceAs (Decidable (∀ t ∈ s.spawns op, _))

/-- A task leads to a cell. -/
def leadsTo (s : OriginSystem) (x : ℕ) (t : Cleanup) : Bool :=
  decide (s.tree.find t.node t.rest.parts = some x)

theorem leadsTo_iff {x : ℕ} {t : Cleanup} :
    s.leadsTo x t = true ↔ s.tree.find t.node t.rest.parts = some x := decide_eq_true_iff

/-- The **accounting** of an origin: the tasks lead to cells, each cell stores exactly the
broadcasts of the tasks that lead to it, all of them different, and the active one has
the lowest key. -/
structure Accounted (s : OriginSystem) : Prop where
  wf : s.WF
  leads : ∀ t ∈ s.cleanups, ∃ x, s.tree.find t.node t.rest.parts = some x
  perm : ∀ x, (stored (s.tree.cell x).value.broadcast).Perm
    ((s.cleanups.filter (s.leadsTo x)).map (·.broadcast))
  nodup : ∀ x, ((stored (s.tree.cell x).value.broadcast).map (·.state)).Nodup
  best : ∀ {x e}, (s.tree.cell x).value.broadcast = some e → Best e.path (some e)

theorem Accounted.init : (init info).Accounted where
  wf := WF.init info
  leads t ht := absurd ht not_mem_nil
  perm x := List.Perm.refl _
  nodup x := nodup_nil
  best he := by cases he

section Accounted

variable {s' : OriginSystem} {op : OriginOp} {t : Cleanup}

/-- The broadcast of a task is stored where the task leads. -/
theorem Accounted.mem_stored (ha : s.Accounted) {x : ℕ} (ht : t ∈ s.cleanups)
    (hx : s.tree.find t.node t.rest.parts = some x) :
    t.broadcast ∈ stored (s.tree.cell x).value.broadcast := by
  rw [(ha.perm x).mem_iff]
  exact mem_map_of_mem (mem_filter.mpr ⟨ht, leadsTo_iff.mpr hx⟩)

theorem vacant_of_mem_stored {v : OriginNode} (hb : b ∈ stored v.broadcast) : v.vacant = false := by
  refine OriginNode.vacant_eq_false_iff.mpr (.inl fun hnone => ?_)
  rw [hnone] at hb
  exact not_mem_nil hb

section

variable (ha : s.Accounted) {o : Option OriginBroadcast} {ds : List Dir}

include ha

/-- A step that touches no entry and no task, and that keeps the paths to all entries,
keeps the accounting. -/
theorem Accounted.of_same (hs' : s'.WF) (hc : s'.cleanups = s.cleanups)
    (hb : ∀ x, (s'.tree.cell x).value.broadcast = (s.tree.cell x).value.broadcast)
    (hf : ∀ {n ks y}, s.tree.find n ks = some y → s'.tree.find n ks = some y) :
    s'.Accounted := by
  have hleads : ∀ x, ∀ t ∈ s.cleanups, s'.leadsTo x t = s.leadsTo x t := by
    intro x t ht
    obtain ⟨y, hy⟩ := ha.leads t ht
    rw [leadsTo, leadsTo, hf hy, hy]
  refine ⟨hs', ?_, ?_, ?_, ?_⟩
  · intro t ht
    obtain ⟨y, hy⟩ := ha.leads t (hc ▸ ht)
    exact ⟨y, hf hy⟩
  · intro x
    rw [hb, hc, filter_congr (hleads x)]
    exact ha.perm x
  · intro x
    rw [hb]
    exact ha.nodup x
  · intro x e he
    rw [hb] at he
    exact ha.best he

/-- The entry that a path leads to has the lowest key active, under the path it spells. -/
theorem Accounted.best_valueFrom {n : ℕ} {full : Path}
    (hfull : full.parts = (s.tree.cell n).label ++ ds) :
    Best full (s.tree.valueFrom n ds).broadcast := by
  intro e he
  have hpath : e.path = full := by
    refine Path.parts_injective ?_
    rw [hfull, ha.wf.path_valueFrom he]
  have hne : s.tree.valueFrom n ds ≠ default := by
    intro heq
    rw [heq] at he
    cases he
  obtain ⟨_, -, hv⟩ := exists_find_of_valueFrom hne
  rw [← hv] at he
  subst hpath
  exact ha.best he e rfl

/-- An entry written at one leaf leaves the other tasks where they lead. -/
theorem Accounted.find_rewrites {n m : ℕ} {tree : OriginTree}
    (hrw : OriginTree.Rewrites s.tree n ds m o tree) {y : ℕ} (ht : t ∈ s.cleanups)
    (hy : s.tree.find t.node t.rest.parts = some y) (ho : y = m → o ≠ none) :
    tree.find t.node t.rest.parts = some y := by
  refine hrw.find hy (OriginNode.vacant_eq_false_iff.mpr (.inl ?_))
  rw [hrw.broadcast]
  split_ifs with hym
  · exact ho hym
  · intro hnone
    have hmem := ha.mem_stored ht hy
    rw [hnone] at hmem
    exact not_mem_nil hmem

/-- Publishing a broadcast that the leaf does not store keeps the accounting. -/
theorem Accounted.published (hs' : s'.WF) {m : ℕ}
    (hfull : t.full.parts = (s.tree.cell t.node).label ++ t.rest.parts)
    (hrw : OriginTree.Rewrites s.tree t.node t.rest.parts m
      (publishLeaf t.full t.broadcast
        (s.tree.valueFrom t.node t.rest.parts).broadcast).1 s'.tree)
    (hfind : s'.tree.find t.node t.rest.parts = some m)
    (hfresh : ¬ IsStored t.broadcast (s.tree.valueFrom t.node t.rest.parts).broadcast)
    (hc : s'.cleanups = s.cleanups ++ [t]) : s'.Accounted := by
  have hne : (publishLeaf t.full t.broadcast
      (s.tree.valueFrom t.node t.rest.parts).broadcast).1 ≠ none := fun hnone =>
    stored_publishLeaf_ne_nil (stored_eq_nil_iff.mpr hnone)
  have hkeep : ∀ t' ∈ s.cleanups, ∀ y, s.tree.find t'.node t'.rest.parts = some y →
      s'.tree.find t'.node t'.rest.parts = some y := fun t' ht' y hy =>
    ha.find_rewrites hrw ht' hy fun _ => hne
  have hfilter : ∀ x, s'.cleanups.filter (s'.leadsTo x) =
      s.cleanups.filter (s.leadsTo x) ++ if x = m then [t] else [] := by
    intro x
    rw [hc, filter_append]
    congr 1
    · refine filter_congr fun t' ht' => ?_
      obtain ⟨y, hy⟩ := ha.leads t' ht'
      rw [leadsTo, leadsTo, hkeep t' ht' y hy, hy]
    · by_cases hx : x = m
      · simp [leadsTo, hfind, hx]
      · simp [leadsTo, hfind, hx, Ne.symm hx]
  have hperm := publishLeaf_perm t.full hfresh
  refine ⟨hs', ?_, ?_, ?_, ?_⟩
  · intro t' ht'
    rcases mem_append.mp (hc ▸ ht') with ht' | ht'
    · obtain ⟨y, hy⟩ := ha.leads t' ht'
      exact ⟨y, hkeep t' ht' y hy⟩
    · obtain rfl := mem_singleton.mp ht'
      exact ⟨m, hfind⟩
  · intro x
    rw [hfilter, hrw.broadcast]
    split_ifs with hx
    · subst hx
      rw [map_append]
      refine hperm.trans ?_
      rw [← hrw.content]
      exact ((ha.perm x).cons _).trans (perm_append_singleton _ _).symm
    · rw [append_nil]
      exact ha.perm x
  · intro x
    rw [hrw.broadcast]
    split_ifs with hx
    · rw [(hperm.map _).nodup_iff, map_cons, nodup_cons]
      refine ⟨hfresh, ?_⟩
      rw [← hrw.content]
      exact ha.nodup m
    · exact ha.nodup x
  · intro x e he
    rw [hrw.broadcast] at he
    split_ifs at he with hx
    · have hbest : Best t.full (some e) := he ▸ (ha.best_valueFrom hfull).publishLeaf
      rwa [(hbest e rfl).1]
    · exact ha.best he

/-- What the leaf of a pending cleanup looks like: it stores the broadcast of the task. -/
theorem Accounted.removeLeaf_ok (ht : t ∈ s.cleanups) :
    ∃ o, removeLeaf t.full t.broadcast (s.tree.valueFrom t.node t.rest.parts).broadcast =
        .ok (o, noticeFor t.full (active (s.tree.valueFrom t.node t.rest.parts).broadcast)
          (active o)) ∧
      (stored (s.tree.valueFrom t.node t.rest.parts).broadcast).Perm (t.broadcast :: stored o) ∧
      Best t.full o := by
  obtain ⟨x, hx⟩ := ha.leads t ht
  refine removeLeaf_spec ?_ ?_ (ha.best_valueFrom (ha.wf.cleanups t ht).2)
  · rw [valueFrom_of_find hx]
    exact ha.nodup x
  · rw [valueFrom_of_find hx]
    exact ha.mem_stored ht hx

/-- Running a cleanup keeps the accounting. -/
theorem Accounted.cleaned (hs' : s'.WF) {task m : ℕ} (ht : s.cleanups[task]? = some t)
    (hrw : OriginTree.Rewrites s.tree t.node t.rest.parts m o s'.tree)
    (hperm : (stored (s.tree.valueFrom t.node t.rest.parts).broadcast).Perm
      (t.broadcast :: stored o)) (hbest : Best t.full o)
    (hc : s'.cleanups = s.cleanups.eraseIdx task) : s'.Accounted := by
  obtain ⟨y, hy⟩ := ha.leads t (mem_of_getElem? ht)
  obtain rfl := hrw.leaf_of_find hy
  have hsplit : s.cleanups.Perm (t :: s'.cleanups) := hc ▸ perm_cons_eraseIdx ht
  have hsub : ∀ t' ∈ s'.cleanups, t' ∈ s.cleanups := fun t' ht' =>
    mem_of_mem_eraseIdx (hc ▸ ht')
  -- the broadcasts left at the leaf are those of the other tasks that lead there
  have hleft : (stored o).Perm ((s'.cleanups.filter (s.leadsTo y)).map (·.broadcast)) := by
    have hold := ha.perm y
    rw [← valueFrom_of_find hy] at hold
    have hnew := (hsplit.filter (s.leadsTo y)).map (·.broadcast)
    rw [filter_cons_of_pos (leadsTo_iff.mpr hy), map_cons] at hnew
    exact (hperm.symm.trans (hold.trans hnew)).cons_inv
  have hkeep : ∀ t' ∈ s'.cleanups, ∀ z, s.tree.find t'.node t'.rest.parts = some z →
      s'.tree.find t'.node t'.rest.parts = some z := by
    intro t' ht' z hz
    refine ha.find_rewrites hrw (hsub t' ht') hz ?_
    rintro rfl hnone
    have hmem : t'.broadcast ∈ stored o := by
      rw [hleft.mem_iff]
      exact mem_map_of_mem (mem_filter.mpr ⟨ht', leadsTo_iff.mpr hz⟩)
    rw [hnone] at hmem
    exact not_mem_nil hmem
  have hfilter : ∀ x, s'.cleanups.filter (s'.leadsTo x) = s'.cleanups.filter (s.leadsTo x) := by
    intro x
    refine filter_congr fun t' ht' => ?_
    obtain ⟨z, hz⟩ := ha.leads t' (hsub t' ht')
    rw [leadsTo, leadsTo, hkeep t' ht' z hz, hz]
  refine ⟨hs', ?_, ?_, ?_, ?_⟩
  · intro t' ht'
    obtain ⟨z, hz⟩ := ha.leads t' (hsub t' ht')
    exact ⟨z, hkeep t' ht' z hz⟩
  · intro x
    rw [hfilter, hrw.broadcast]
    split_ifs with hx
    · rw [hx]
      exact hleft
    · refine (ha.perm x).trans ?_
      have hnew := (hsplit.filter (s.leadsTo x)).map (·.broadcast)
      rwa [filter_cons_of_neg] at hnew
      rw [leadsTo_iff, hy]
      exact fun heq => hx (Option.some.inj heq).symm
  · intro x
    rw [hrw.broadcast]
    split_ifs with hx
    · have hnd := ha.nodup y
      rw [← valueFrom_of_find hy, (hperm.map _).nodup_iff, map_cons] at hnd
      exact hnd.of_cons
    · exact ha.nodup x
  · intro x e he
    rw [hrw.broadcast] at he
    split_ifs at he with hx
    · have hb : Best t.full (some e) := he ▸ hbest
      rwa [(hb e rfl).1]
    · exact ha.best he

/-- Every effect of an operation that publishes no duplicate keeps the accounting. -/
theorem Accounted.effect (hf : Fresh s op) (he : Effect s op s') :
    s'.Accounted := by
  have hs' := ha.wf.effect he
  cases he with
  | idle op => exact ha
  | published ht hrw hfind =>
    exact ha.published hs' (target_spec ha.wf ht).2 hrw hfind (hf _ (spawns_of_target ht)) rfl
  | cleaned ht hclosed hr hrw =>
    obtain ⟨_, hr', hperm, hbest⟩ := ha.removeLeaf_ok (mem_of_getElem? ht)
    rw [hr, Except.ok.injEq, Prod.mk.injEq] at hr'
    obtain ⟨rfl, -⟩ := hr'
    exact ha.cleaned hs' ht hrw hperm hbest rfl
  | closes state | polled hc htake => exact ha.of_same hs' rfl (fun _ => rfl) fun hf => hf
  | grown op hg | derived hsrc hg hok =>
    exact ha.of_same hs' rfl (fun x => by rw [hg.value]) hg.find
  | joined hsrc hg hok hsame hrep hreg =>
    refine ha.of_same hs' rfl (fun x => ?_) fun hf => ?_
    · rw [hsame.broadcast, hg.value]
    · rw [hsame.find, hg.find hf]
  | left hc hsame hreg =>
    exact ha.of_same hs' rfl (fun x => hsame.broadcast x) fun hf => by rw [hsame.find, hf]

/-- One operation that publishes no duplicate does not panic and keeps the accounting. -/
theorem Accounted.step (hf : Fresh s op) :
    ∃ s', s.step op = .ok s' ∧ Effect s op s' ∧ s'.Accounted := by
  rcases step_effect ha.wf op with ⟨s', hrun, heff⟩ | ⟨_, _, _, rfl, ht, -, hr, -⟩
  · exact ⟨s', hrun, heff, ha.effect hf heff⟩
  · obtain ⟨_, hok, -⟩ := ha.removeLeaf_ok (mem_of_getElem? ht)
    rw [hr] at hok
    cases hok

end

end Accounted

/-! ### Whole runs -/

/-- A run that publishes no duplicate does not panic and keeps the accounting. -/
theorem Accounted.run {ops : List OriginOp}
    (hm : Meets OriginSystem.step Fresh (OriginSystem.init info) ops) :
    ∃ s, HermitMoq.run OriginSystem.step (OriginSystem.init info) ops = .ok s ∧ s.Accounted :=
  hm.invariant (I := Accounted)
    (fun ha hf => by
      obtain ⟨s', hrun, -, ha'⟩ := ha.step hf
      exact ⟨s', hrun, ha'⟩) (Accounted.init info)

/-- **Nothing panics.** In a run that publishes no broadcast to a leaf already storing it, through
any handles and with cleanups in any order, nothing panics, and every pending cleanup will find its
broadcast at its leaf, as the active route or in the backup queue. -/
theorem fresh_run_never_panics (info : Origin) (ops : List OriginOp)
    (hm : Meets OriginSystem.step Fresh (init info) ops) :
    ∃ s, run OriginSystem.step (init info) ops = .ok s ∧
      ∀ t ∈ s.cleanups, ∃ e, (s.tree.valueFrom t.node t.rest.parts).broadcast = some e ∧
        (e.active = t.broadcast ∨ t.broadcast ∈ e.backup) := by
  obtain ⟨s, hrun, ha⟩ := Accounted.run info hm
  refine ⟨s, hrun, fun t ht => ?_⟩
  obtain ⟨_, hx⟩ := ha.leads t ht
  have hmem := ha.mem_stored ht hx
  rw [← valueFrom_of_find hx] at hmem
  cases he : (s.tree.valueFrom t.node t.rest.parts).broadcast with
  | none =>
    rw [he] at hmem
    exact absurd hmem not_mem_nil
  | some e =>
    rw [he] at hmem
    refine ⟨e, rfl, ?_⟩
    rcases mem_cons.mp hmem with heq | hmem
    · exact .inl heq.symm
    · exact .inr hmem

/-- The path `a`. -/
def pathA : Path := Path.new ['a']

/-- A broadcast with an empty hop chain. -/
def local₀ : BroadcastConsumer := ⟨0, OriginList.new⟩

/-- A broadcast that came over one hop. -/
def remote₁ : BroadcastConsumer := ⟨1, ⟨[⟨7⟩], by decide⟩⟩

/-- Two routes are published at one path, the active one closes and is cleaned up, and the
other one stays in its place. -/
theorem fresh_run_never_panics_failover :
    ∃ s, run OriginSystem.step (init ⟨1⟩)
        [.publish 0 pathA local₀, .publish 0 pathA remote₁, .close 0, .cleanup 0] = .ok s ∧
      ∀ t ∈ s.cleanups, ∃ e, (s.tree.valueFrom t.node t.rest.parts).broadcast = some e ∧
        (e.active = t.broadcast ∨ t.broadcast ∈ e.backup) :=
  fresh_run_never_panics ⟨1⟩ _ (by decide)

/-- A broadcast published twice at a path is stored once and cleaned up twice. With a
backup route in place, the second cleanup finds the backup active and the assertion of
`OriginNode::remove` fails. -/
theorem double_publish_panics :
    run OriginSystem.step (init ⟨1⟩)
      [.publish 0 pathA local₀, .publish 0 pathA local₀, .publish 0 pathA remote₁,
        .close 0, .cleanup 0, .cleanup 0] = .error .activeIsClone := rfl

end OriginSystem

end HermitMoq
