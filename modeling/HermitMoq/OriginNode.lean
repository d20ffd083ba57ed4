import HermitMoq.TrieHeap
import HermitMoq.Route

/-!
# The Tree of an Origin

The model of `OriginNode` and `NotifyNode` in `moq-net/src/model/origin.rs`. The nodes
are shared locks: the tree, the handles and the cleanup tasks all hold on to them, and a
node can be unlinked from its parent while it is still held. They are therefore cells of
a `TrieHeap`, whose payload is the published entry of the node and its registered
consumers. The notification list of a node (`NotifyNode`) links to its parent's for ever,
also after the node itself has been unlinked.

The recursions over `next_part` become recursions over the components of the relative
path (`Path.nextPart_of_parts`). `publish` and `remove` return the update of the leaf and
the leaf itself instead of sending the update on the spot; nothing that happens between
the leaf and the return reads or changes what the notification reads.
-/

namespace HermitMoq

open TrieHeap

/-- The identity of a consumer and of its pending updates. -/
abbrev ConsumerId := ℕ

/-- The payload of a node: the published entry, and the registered consumers with the
root each of them strips from the paths it is told. -/
structure OriginNode where
  /-- The broadcasts published to this node. -/
  broadcast : Option OriginBroadcast
  /-- The consumers subscribed to this node. -/
  consumers : AList fun _ : ConsumerId => Path

instance : Inhabited OriginNode := ⟨⟨none, ∅⟩⟩

/-- The nodes of one origin. -/
abbrev OriginTree := TrieHeap Dir OriginNode

namespace OriginNode

/-- The part of `OriginNode::is_empty` that concerns the payload. -/
def vacant (v : OriginNode) : Bool := v.broadcast.isNone && v.consumers.entries.isEmpty

theorem eq_default_of_vacant (v : OriginNode) (h : v.vacant = true) : v = default := by
  obtain ⟨_, _⟩ := v
  simp only [vacant, Bool.and_eq_true, Option.isNone_iff_eq_none, List.isEmpty_iff] at h
  obtain ⟨rfl, hc⟩ := h
  exact congrArg (OriginNode.mk none) (AList.ext hc)

theorem vacant_eq_false_iff {v : OriginNode} :
    v.vacant = false ↔ v.broadcast ≠ none ∨ v.consumers ≠ ∅ := by
  rw [← Bool.not_eq_true, vacant, Bool.and_eq_true, not_and_or, Option.isNone_iff_eq_none,
    List.isEmpty_iff]
  exact or_congr Iff.rfl (not_congr ⟨fun h => AList.ext h, fun h => by rw [h]; rfl⟩)

end OriginNode

namespace OriginTree

/-! ### The operations -/

/-- `OriginNode::is_empty`. -/
def isEmpty (h : OriginTree) (n : ℕ) : Bool := h.isVacant OriginNode.vacant n

/-- `OriginNode::leaf`: the node at a path below `n`, created if needed. -/
def leaf (h : OriginTree) (n : ℕ) (path : Path) : Except Panic (ℕ × OriginTree) :=
  if path.parts = [] then .error .leafCalledWithEmptyPath else .ok (h.walk n path.parts)

/-- Replace the published entry of a node. -/
def setBroadcast (h : OriginTree) (n : ℕ) (o : Option OriginBroadcast) : OriginTree :=
  h.setValue n ⟨o, (h.cell n).value.consumers⟩

/-- `OriginNode::publish`: the tree, the leaf and the update it sends. -/
def publish (full : Path) (broadcast : BroadcastConsumer) (h : OriginTree) (n : ℕ) :
    List Dir → OriginTree × ℕ × Option Notice
  | dir :: relative => publish full broadcast (h.entry n dir).2 (h.entry n dir).1 relative
  | [] =>
    let result := publishLeaf full broadcast (h.cell n).value.broadcast
    (setBroadcast h n result.1, n, result.2)

/-- `OriginNode::remove`: the tree, the leaf and the update it sends. Children that are
empty afterwards are unlinked on the way back. -/
def remove (full : Path) (broadcast : BroadcastConsumer) (h : OriginTree) (n : ℕ) :
    List Dir → Except Panic (OriginTree × ℕ × Option Notice)
  | dir :: relative =>
    let nested := (h.entry n dir).1
    (remove full broadcast (h.entry n dir).2 nested relative).map fun result =>
      (if isEmpty result.1 nested then result.1.unlink n dir else result.1, result.2)
  | [] =>
    (removeLeaf full broadcast (h.cell n).value.broadcast).map fun result =>
      (setBroadcast h n result.1, n, result.2)

/-- `OriginNode::consume_broadcast`: the active route at a path below `n`. -/
def consumeBroadcast (h : OriginTree) (n : ℕ) (rest : Path) : Option BroadcastConsumer :=
  (h.find n rest.parts).bind fun m => active (h.cell m).value.broadcast

/-- `OriginNode::consume_initial`: the announcements for everything below `n`. -/
def consumeInitial (h : OriginTree) (n : ℕ) : List (Path × BroadcastConsumer) :=
  -- every level goes to younger cells, so `next` levels reach the whole subtree
  (h.preorder h.next n).filterMap fun m =>
    (h.cell m).value.broadcast.map fun entry => (entry.path, entry.active)

/-- The registration in `OriginNode::consume`. -/
def register (h : OriginTree) (n : ℕ) (id : ConsumerId) (root : Path) : OriginTree :=
  h.setValue n ⟨(h.cell n).value.broadcast, (h.cell n).value.consumers.insert id root⟩

/-- `OriginNode::unconsume`. -/
def unconsume (h : OriginTree) (n : ℕ) (id : ConsumerId) : Except Panic OriginTree :=
  if id ∈ (h.cell n).value.consumers then
    .ok (h.setValue n ⟨(h.cell n).value.broadcast, (h.cell n).value.consumers.erase id⟩)
  else .error .consumerNotFound

/-- The consumers that `NotifyNode` tells about an update of the leaf `n`: those of the
node and of everything above it. -/
def listeners (h : OriginTree) (n : ℕ) : List (ConsumerId × Path) :=
  (h.ancestors (n + 1) n).flatMap fun m =>
    (h.cell m).value.consumers.entries.map fun e => (e.1, e.2)

theorem mem_listeners_iff {h : OriginTree} {n : ℕ} {id : ConsumerId} {root : Path} :
    (id, root) ∈ listeners h n ↔
      ∃ m ∈ h.ancestors (n + 1) n, (h.cell m).value.consumers.lookup id = some root := by
  simp only [listeners, List.mem_flatMap, List.mem_map, Prod.mk.injEq]
  constructor
  · rintro ⟨m, hm, ⟨_, _⟩, he, rfl, rfl⟩
    exact ⟨m, hm, AList.mem_lookup_iff.mpr he⟩
  · rintro ⟨m, hm, hl⟩
    exact ⟨m, hm, ⟨id, root⟩, AList.mem_lookup_iff.mp hl, rfl, rfl⟩

theorem consumeBroadcast_eq (h : OriginTree) (n : ℕ) (rest : Path) :
    h.consumeBroadcast n rest = active (h.valueFrom n rest.parts).broadcast := by
  rw [consumeBroadcast, valueFrom]
  cases h.find n rest.parts <;> rfl

/-! ### Publish and remove rewrite one leaf -/

/-- The effect of rewriting the entry of the leaf at `ds` below `n` to `o`. Nodes may be
created on the way down and vacant ones unlinked on the way back; nothing else changes. -/
structure Rewrites (h : OriginTree) (n : ℕ) (ds : List Dir) (m : ℕ)
    (o : Option OriginBroadcast) (h' : OriginTree) : Prop where
  wf : h'.WF
  next_le : h.next ≤ h'.next
  leaf_lt : m < h'.next
  leaf_label : (h'.cell m).label = (h.cell n).label ++ ds
  leaf_of_find : ∀ {y}, h.find n ds = some y → y = m
  content : (h.cell m).value.broadcast = (h.valueFrom n ds).broadcast
  content_self : (h'.valueFrom n ds).broadcast = o
  content_ne : ∀ {x ks}, x < h.next → (h.cell x).label ++ ks ≠ (h.cell n).label ++ ds →
    (h'.valueFrom x ks).broadcast = (h.valueFrom x ks).broadcast
  find_leaf : (h'.cell m).value.vacant = false → h'.find n ds = some m
  broadcast : ∀ x, (h'.cell x).value.broadcast =
    if x = m then o else (h.cell x).value.broadcast
  consumers : ∀ x, (h'.cell x).value.consumers = (h.cell x).value.consumers
  label : ∀ {x}, x < h.next → (h'.cell x).label = (h.cell x).label
  find : ∀ {x ks y}, h.find x ks = some y → (h'.cell y).value.vacant = false →
    h'.find x ks = some y
  find_back : ∀ {x ks y z}, h.find x ks = some y → h'.find x ks = some z → z = y
  content_root : h.Linked n → (h'.valueFrom 0 ((h.cell n).label ++ ds)).broadcast = o
  linked : ∀ {x ks y}, h.Linked x → h.find x ks = some y →
    (h'.cell y).value.vacant = false → h'.Linked x
  linked_start : h.Linked n → (h'.cell m).value.vacant = false → h'.Linked n
  mem_ancestors : ∀ {x}, h.Linked n → h.Linked x →
    (h.cell x).label <+: (h.cell n).label ++ ds → x ∈ h'.ancestors (m + 1) m

section Rewrites

variable {h h' : OriginTree} {n : ℕ} {ds : List Dir} {o : Option OriginBroadcast}

/-- Rewriting the end of a walk and pruning. -/
theorem rewrites_of_prunes (wf : h.WF) (hn : n < h.next)
    (hp : (setBroadcast (h.walk n ds).2 (h.walk n ds).1 o).Prunes OriginNode.vacant h') :
    Rewrites h n ds (h.walk n ds).1 o h' := by
  have hg := grows_walk wf hn ds
  have hfw := find_walk wf hn ds
  have hlt := walk_lt wf hn ds
  have hlab := label_walk wf hn ds
  have hex : ∀ {y}, h.find n ds = some y → y = (h.walk n ds).1 := fun hf => by
    rw [walk_of_find hf]
  generalize h.walk n ds = w at *
  obtain ⟨m, h₁⟩ := w
  have wf₂ : (setBroadcast h₁ m o).WF := hg.wf.setValue hlt
  have hval : ∀ x, (h'.cell x).value =
      if x = m then ⟨o, (h.cell m).value.consumers⟩ else (h.cell x).value := by
    intro x
    rw [hp.value, setBroadcast, value_setValue, hg.value, hg.value]
  have hlink : ∀ {x}, h.Linked x → (setBroadcast h₁ m o).Linked x := fun hlx =>
    linked_setValue.mpr (hlx.grows hg (hlx.lt wf))
  exact
    { wf := hp.wf wf₂
      next_le := by rw [hp.next]; exact hg.next_le
      leaf_lt := by rw [hp.next]; exact hlt
      leaf_label := by rw [hp.label, setBroadcast, label_setValue, hlab]
      leaf_of_find := hex
      content := by rw [← hg.value, ← hg.valueFrom, valueFrom_of_find hfw]
      content_self := by
        rw [hp.valueFrom OriginNode.eq_default_of_vacant wf₂, setBroadcast,
          valueFrom_setValue, if_pos hfw]
      content_ne := by
        intro x ks hx hne
        have hother : ¬ h₁.find x ks = some m := by
          intro hf
          have hl := (hg.wf.find_label hf).1
          rw [hlab, hg.label hx] at hl
          exact hne hl.symm
        rw [hp.valueFrom OriginNode.eq_default_of_vacant wf₂, setBroadcast,
          valueFrom_setValue, if_neg hother, hg.valueFrom]
      find_leaf := by
        intro hv
        rw [hp.value] at hv
        refine hp.find_of_occupied wf₂ ?_ hv
        rw [setBroadcast, find_setValue, hfw]
      broadcast := by
        intro x
        rw [hval]
        split_ifs <;> rfl
      consumers := by
        intro x
        rw [hval]
        split_ifs with hx
        · rw [hx]
        · rfl
      label := by
        intro x hx
        rw [hp.label, setBroadcast, label_setValue, hg.label hx]
      find := by
        intro x ks y hf hv
        rw [hp.value] at hv
        refine hp.find_of_occupied wf₂ ?_ hv
        rw [setBroadcast, find_setValue, hg.find hf]
      find_back := by
        intro x ks y z hf hf'
        have hf₂ := hp.find_of_some wf₂ hf'
        rw [setBroadcast, find_setValue, hg.find hf] at hf₂
        exact (Option.some.inj hf₂).symm
      content_root := by
        intro hln
        have hln₁ := hln.grows hg hn
        rw [hp.valueFrom OriginNode.eq_default_of_vacant wf₂, setBroadcast,
          valueFrom_setValue, if_pos]
        rw [← hg.label hn, hln₁.find_append, hfw]
      linked := by
        intro x ks y hlx hf hv
        rw [hp.value] at hv
        have hf₂ : (setBroadcast h₁ m o).find x ks = some y := by
          rw [setBroadcast, find_setValue, hg.find hf]
        exact (hlink hlx).prunes hp wf₂ hf₂ hv
      linked_start := by
        intro hln hv
        rw [hp.value] at hv
        have hf₂ : (setBroadcast h₁ m o).find n ds = some m := by
          rw [setBroadcast, find_setValue, hfw]
        exact (hlink hln).prunes hp wf₂ hf₂ hv
      mem_ancestors := by
        intro x hln hlx hpre
        -- the way up is read before the pruning, when the leaf is linked
        have hlx₂ := hlink hlx
        have hlm : (setBroadcast h₁ m o).Linked m :=
          linked_setValue.mpr ((hln.grows hg hn).find hg.wf hfw)
        rw [ancestors_congr wf₂ fun y _ => hp.parent y,
          mem_ancestors_iff wf₂ hlm (Nat.lt_succ_self m)]
        refine ⟨(h.cell x).label, ?_, ?_⟩
        · rw [setBroadcast, label_setValue, hlab]
          exact hpre
        · rw [TrieHeap.Linked, setBroadcast, label_setValue, hg.label (hlx.lt wf)] at hlx₂
          exact hlx₂ }

variable {full : Path} {b : BroadcastConsumer}

theorem publish_eq (full : Path) (b : BroadcastConsumer) (h : OriginTree) (n : ℕ)
    (ds : List Dir) :
    publish full b h n ds =
      (setBroadcast (h.walk n ds).2 (h.walk n ds).1
        (publishLeaf full b ((h.walk n ds).2.cell (h.walk n ds).1).value.broadcast).1,
      (h.walk n ds).1,
      (publishLeaf full b ((h.walk n ds).2.cell (h.walk n ds).1).value.broadcast).2) := by
  induction ds generalizing h n with
  | nil => rfl
  | cons d ds ih =>
    rw [publish, ih, walk_cons]

/-- The payload at the end of a walk is the content of the path before it. -/
theorem broadcast_walk (wf : h.WF) (hn : n < h.next) :
    ((h.walk n ds).2.cell (h.walk n ds).1).value.broadcast = (h.valueFrom n ds).broadcast := by
  rw [← (grows_walk wf hn ds).valueFrom,
    valueFrom_of_find (find_walk wf hn ds)]

variable (full b ds) in
/-- A publish rewrites the entry of the leaf of its path. -/
theorem publish_rewrites (wf : h.WF) (hn : n < h.next) :
    ∃ m h', publish full b h n ds =
        (h', m, (publishLeaf full b (h.valueFrom n ds).broadcast).2) ∧
      Rewrites h n ds m (publishLeaf full b (h.valueFrom n ds).broadcast).1 h' ∧
      h'.find n ds = some m := by
  refine ⟨_, _, ?_, rewrites_of_prunes wf hn TrieHeap.Prunes.refl, ?_⟩
  · rw [publish_eq, broadcast_walk wf hn]
  · rw [setBroadcast, find_setValue, find_walk wf hn]

variable (full b) in
/-- The recursion of `remove`: the outcome at the leaf decides, and what follows it only
unlinks vacant nodes. -/
theorem remove_eq (wf : h.WF) (hn : n < h.next) (ds : List Dir) :
    match removeLeaf full b ((h.walk n ds).2.cell (h.walk n ds).1).value.broadcast with
    | .error e => remove full b h n ds = .error e
    | .ok (o, notice) => ∃ h', remove full b h n ds = .ok (h', (h.walk n ds).1, notice) ∧
        (setBroadcast (h.walk n ds).2 (h.walk n ds).1 o).Prunes OriginNode.vacant h' ∧
        ∀ x < n, (h'.cell x).nested = (h.cell x).nested := by
  induction ds generalizing h n with
  | nil =>
    rw [walk_nil]
    cases hr : removeLeaf full b (h.cell n).value.broadcast with
    | error e => simp only [remove, hr, Except.map]
    | ok r =>
      refine ⟨setBroadcast h n r.1, ?_, TrieHeap.Prunes.refl, fun x _ => ?_⟩
      · simp only [remove, hr, Except.map]
      · rw [setBroadcast, nested_setValue]
  | cons d ds ih =>
    obtain ⟨hnc, hclt, -, -⟩ := entry_child wf hn (k := d)
    have ih := ih (wf.entry hn) hclt
    rw [walk_cons]
    cases hr : removeLeaf full b (((h.entry n d).2.walk (h.entry n d).1 ds).2.cell
        ((h.entry n d).2.walk (h.entry n d).1 ds).1).value.broadcast with
    | error e =>
      rw [hr] at ih
      simp only [remove, ih, Except.map]
    | ok r =>
      rw [hr] at ih
      obtain ⟨h', hrem, hprunes, hnested⟩ := ih
      have hlink : (h'.cell n).nested.lookup d = some (h.entry n d).1 := by
        rw [hnested n hnc, lookup_entry wf hn, if_pos ⟨rfl, rfl⟩]
      have hold : ∀ x < n, (h'.cell x).nested = (h.cell x).nested := by
        intro x hx
        rw [hnested x (by omega), cell_entry_ne (by omega) (by omega)]
      by_cases he : isEmpty h' (h.entry n d).1 = true
      · refine ⟨h'.unlink n d, ?_, hprunes.unlink hlink he, fun x hx => ?_⟩
        · simp only [remove, hrem, Except.map, he, if_true]
        · rw [← hold x hx, cell_unlink_ne (Nat.ne_of_lt hx)]
      · refine ⟨h', ?_, hprunes, hold⟩
        simp only [remove, hrem, Except.map, he, if_false, Bool.false_eq_true]

/-- A removal that does not panic at its leaf rewrites the entry of the leaf. -/
theorem remove_rewrites (wf : h.WF) (hn : n < h.next) {notice : Option Notice}
    (hr : removeLeaf full b (h.valueFrom n ds).broadcast = .ok (o, notice)) :
    ∃ m h', remove full b h n ds = .ok (h', m, notice) ∧ Rewrites h n ds m o h' := by
  have heq := remove_eq full b wf hn ds
  rw [broadcast_walk wf hn, hr] at heq
  obtain ⟨h', hrem, hprunes, -⟩ := heq
  exact ⟨_, h', hrem, rewrites_of_prunes wf hn hprunes⟩

/-- A removal that panics at its leaf panics. -/
theorem remove_of_error (wf : h.WF) (hn : n < h.next) {e : Panic}
    (hr : removeLeaf full b (h.valueFrom n ds).broadcast = .error e) :
    remove full b h n ds = .error e := by
  have heq := remove_eq full b wf hn ds
  rwa [broadcast_walk wf hn, hr] at heq

end Rewrites

end OriginTree

end HermitMoq
