import HermitMoq.OriginNode

/-!
# The Nodes Behind a Handle

The model of `OriginNodes` in `moq-net/src/model/origin.rs`: the list of nodes a producer
or consumer may reach, each with the prefix of the paths it serves. Scoping (`select`) and
re-rooting (`root`) derive one list from another and create the nodes they name.

The lists of real handles satisfy `HandleOk`: every node carries the label that the root
and its prefix spell, and no prefix covers another. Both are kept by the two derivations,
which also never reach the panic of `leaf`.
-/

namespace HermitMoq

open List HermitMoq.Path Option TrieHeap TrieHeap.Grows

/-- The nodes of a handle, with the prefixes they serve. -/
abbrev OriginNodes := List (Path × ℕ)

namespace OriginNodes

/-- A loop that visits a list and collects nodes, creating some on the way. -/
def collect {α : Type*} (f : OriginTree → α → Except Panic (OriginTree × Option (Path × ℕ)))
    (h : OriginTree) : List α → Except Panic (OriginTree × OriginNodes)
  | [] => .ok (h, [])
  | a :: as => do
    let (h, found) ← f h a
    let (h, rest) ← collect f h as
    .ok (h, found.toList ++ rest)

/-- The body of the loops of `OriginNodes::select`. -/
def selectOne (h : OriginTree) : (Path × ℕ) × Path →
    Except Panic (OriginTree × Option (Path × ℕ))
  | ((root, state), pre) =>
    if root.hasPrefix pre then .ok (h, some (root, state))
    else
      match pre.stripPrefix root with
      | some suffix => do
        let (nested, h) ← OriginTree.leaf h state suffix
        .ok (h, some (pre, nested))
      | none => .ok (h, none)

/-- `OriginNodes::select`: restrict the nodes to the prefixes. -/
def select (h : OriginTree) (nodes : OriginNodes) (prefixes : PathPrefixes) :
    Except Panic (OriginTree × Option OriginNodes) := do
  let (h, roots) ← collect selectOne h (nodes ×ˢ prefixes.paths)
  .ok (h, if roots.isEmpty then none else some roots)

/-- The body of the loop of `OriginNodes::root`. -/
def rootOne (newRoot : Path) (h : OriginTree) : Path × ℕ →
    Except Panic (OriginTree × Option (Path × ℕ))
  | (root, state) =>
    match root.stripPrefix newRoot with
    | some suffix => .ok (h, some (suffix, state))
    | none =>
      match newRoot.stripPrefix root with
      | some suffix => do
        let (nested, h) ← OriginTree.leaf h state suffix
        .ok (h, some (Path.empty, nested))
      | none => .ok (h, none)

/-- `OriginNodes::root`: make the prefixes relative to a new root. -/
def root (h : OriginTree) (nodes : OriginNodes) (newRoot : Path) :
    Except Panic (OriginTree × Option OriginNodes) :=
  if newRoot.isEmpty then .ok (h, some nodes)
  else do
    let (h, roots) ← collect (rootOne newRoot) h nodes
    .ok (h, if roots.isEmpty then none else some roots)

/-- `OriginNodes::get`: the node that serves a path, and the path below it. -/
def get (nodes : OriginNodes) (path : Path) : Option (ℕ × Path) :=
  nodes.findSome? fun e => (path.stripPrefix e.1).map fun suffix => (e.2, suffix)

theorem get_spec {nodes : OriginNodes} {path rest : Path} {n : ℕ}
    (h : get nodes path = some (n, rest)) :
    ∃ key, (key, n) ∈ nodes ∧ path.parts = key.parts ++ rest.parts := by
  obtain ⟨⟨key, _⟩, hmem, hkey⟩ := exists_of_findSome?_eq_some h
  obtain ⟨_, hsuffix, heq⟩ := map_eq_some_iff.mp hkey
  obtain ⟨rfl, rfl⟩ := Prod.mk.inj heq
  exact ⟨key, hmem, stripPrefix_eq_some_iff.mp hsuffix⟩

end OriginNodes

/-! ### The shape of a handle -/

/-- A node of a handle with the given root: its label spells the root and the prefix, and
it is linked to the tree if `linked` is asked for. -/
structure Placed (h : OriginTree) (root : Path) (linked : Prop) (e : Path × ℕ) : Prop where
  lt : e.2 < h.next
  label : (h.cell e.2).label = root.parts ++ e.1.parts
  link : linked → h.Linked e.2

/-- The **shape of a handle**: its nodes are in their place and no prefix covers another. -/
structure HandleOk (h : OriginTree) (root : Path) (linked : Prop) (nodes : OriginNodes) :
    Prop where
  placed : ∀ e ∈ nodes, Placed h root linked e
  apart : nodes.Pairwise fun e e' => e.1.Apart e'.1

section Shape

variable {h h' : OriginTree} {root : Path} {linked : Prop} {nodes : OriginNodes}
  {e : Path × ℕ}

theorem Placed.grows (g : h.Grows h') (hp : Placed h root linked e) :
    Placed h' root linked e where
  lt := Nat.lt_of_lt_of_le hp.lt g.next_le
  label := (g.label hp.lt).trans hp.label
  link hl := (hp.link hl).grows g hp.lt

/-- The node at a path below a node of a handle. -/
theorem Placed.walk (wf : h.WF) (hp : Placed h root linked e) {p rest : Path}
    (hparts : p.parts = e.1.parts ++ rest.parts) :
    Placed (h.walk e.2 rest.parts).2 root linked (p, (h.walk e.2 rest.parts).1) where
  lt := walk_lt wf hp.lt _
  label := by rw [label_walk wf hp.lt, hp.label, hparts, append_assoc]
  link hl := by
    have hg := grows_walk wf hp.lt rest.parts
    exact ((hp.link hl).grows hg hp.lt).find hg.wf (find_walk wf hp.lt _)

theorem HandleOk.grows (g : h.Grows h') (ho : HandleOk h root linked nodes) :
    HandleOk h' root linked nodes :=
  ⟨fun e he => (ho.placed e he).grows g, ho.apart⟩

section

variable (ho : HandleOk h root linked nodes)

include ho

/-- The shape of a handle, apart from its links, depends on the labels only. -/
theorem HandleOk.mono (hle : h.next ≤ h'.next)
    (hlab : ∀ {x}, x < h.next → (h'.cell x).label = (h.cell x).label) :
    HandleOk h' root False nodes := by
  refine ⟨fun e he => ?_, ho.apart⟩
  have hp := ho.placed e he
  exact ⟨Nat.lt_of_lt_of_le hp.lt hle, (hlab hp.lt).trans hp.label, False.elim⟩

/-- Two nodes of a handle that lie on one path are the same. -/
theorem HandleOk.eq_of_prefix {e e' : Path × ℕ} (he : e ∈ nodes) (he' : e' ∈ nodes) {ds : List Dir}
    (hp : (h.cell e.2).label <+: ds) (hp' : (h.cell e'.2).label <+: ds) : e = e' := by
  have hor := prefix_or_prefix_of_prefix hp hp'
  rw [(ho.placed e he).label, (ho.placed e' he').label, prefix_append_right_inj,
    prefix_append_right_inj] at hor
  by_contra hne
  have : Std.Symm fun e e' : Path × ℕ => e.1.Apart e'.1 := ⟨fun _ _ hx => hx.symm⟩
  have hap : e.1.Apart e'.1 := ho.apart.forall he he' hne
  rcases hor with hor | hor
  · exact hap.1 hor
  · exact hap.2 hor

/-- The path a handle resolves goes through the label of the node it finds. -/
theorem HandleOk.get_label {path rest : Path} {n : ℕ}
    (hg : OriginNodes.get nodes path = some (n, rest)) :
    ∃ key, (key, n) ∈ nodes ∧ (root.join path).parts = (h.cell n).label ++ rest.parts := by
  obtain ⟨key, hmem, hparts⟩ := OriginNodes.get_spec hg
  refine ⟨key, hmem, ?_⟩
  rw [parts_join, hparts, (ho.placed _ hmem).label, append_assoc]

end

end Shape

/-- All nodes of a handle are linked to the tree. -/
def AllLinked (h : OriginTree) (nodes : OriginNodes) : Prop := ∀ e ∈ nodes, h.Linked e.2

instance (h : OriginTree) (nodes : OriginNodes) : Decidable (AllLinked h nodes) :=
  inferInstanceAs (Decidable (∀ e ∈ nodes, _))

/-- The shape of a handle with the links spelled out. -/
theorem HandleOk.linked {h : OriginTree} {root : Path} {nodes : OriginNodes}
    (ho : HandleOk h root False nodes) : HandleOk h root (AllLinked h nodes) nodes :=
  ⟨fun e he => ⟨(ho.placed e he).lt, (ho.placed e he).label, fun hl => hl e he⟩, ho.apart⟩

namespace OriginNodes

section Collect

variable {α : Type*} {f : OriginTree → α → Except Panic (OriginTree × Option (Path × ℕ))}
  {key : α → Option Path} {I : OriginTree → α → Prop} {root : Path} {linked : Prop}

/-- The rule for `collect`: if the body succeeds whenever `I` holds, only creates nodes,
and finds a well-placed node under a key that depends on the visited element only, then
so does the loop. -/
theorem collect_spec (hmono : ∀ {h h' a}, h.Grows h' → I h a → I h' a)
    (hf : ∀ {h a}, h.WF → I h a → ∃ h' found, f h a = .ok (h', found) ∧ h.Grows h' ∧
      found.map Prod.fst = key a ∧ ∀ e, found = some e → Placed h' root linked e)
    {h : OriginTree} (wf : h.WF) {as : List α} (hI : ∀ a ∈ as, I h a) :
    ∃ h' roots, collect f h as = .ok (h', roots) ∧ h.Grows h' ∧
      roots.map Prod.fst = as.filterMap key ∧ ∀ e ∈ roots, Placed h' root linked e := by
  induction as generalizing h with
  | nil =>
    exact ⟨h, [], rfl, refl wf, rfl, nofun⟩
  | cons a as ih =>
    obtain ⟨_, found, hrun, hg, hkey, hplaced⟩ := hf wf (hI a mem_cons_self)
    obtain ⟨h₂, roots, hrun', hg', hkeys, hrest⟩ :=
      ih hg.wf fun a' ha' => hmono hg (hI a' (mem_cons_of_mem _ ha'))
    refine ⟨h₂, found.toList ++ roots, ?_, hg.trans hg', ?_, ?_⟩
    · simp only [collect, hrun, hrun', bind, Except.bind]
    · rw [map_append, hkeys]
      cases found with
      | none => simp [← hkey]
      | some e => simp [← hkey]
    · intro e he
      rcases mem_append.mp he with he | he
      · exact (hplaced e (mem_toList.mp he)).grows hg'
      · exact hrest e he

end Collect

/-! ### Scoping -/

section Select

variable {h : OriginTree} {root : Path} {linked : Prop} {nodes : OriginNodes}
  {a : (Path × ℕ) × Path}

/-- The key under which `selectOne` finds a node: the longer of the two paths. -/
def selectKey : (Path × ℕ) × Path → Option Path
  | ((root, _), pre) =>
    if root.hasPrefix pre then some root
    else if pre.hasPrefix root then some pre
    else none

/-- Both paths are prefixes of the key. -/
theorem prefix_of_selectKey {k : Path} (hk : selectKey a = some k) :
    a.1.1.parts <+: k.parts ∧ a.2.parts <+: k.parts := by
  simp only [selectKey] at hk
  split_ifs at hk with h₁ h₂
  · obtain rfl := some.inj hk
    exact ⟨prefix_rfl, hasPrefix_iff.mp h₁⟩
  · obtain rfl := some.inj hk
    exact ⟨hasPrefix_iff.mp h₂, prefix_rfl⟩

/-- A selected node is placed, in a tree that may have grown. -/
theorem selectOne_spec (wf : h.WF) (ha : Placed h root linked a.1) :
    ∃ h' found, selectOne h a = .ok (h', found) ∧ h.Grows h' ∧
      found.map Prod.fst = selectKey a ∧ ∀ e, found = some e → Placed h' root linked e := by
  obtain ⟨⟨key, n⟩, pre⟩ := a
  have hrefl := refl wf
  by_cases hk : key.hasPrefix pre = true
  · refine ⟨h, some (key, n), ?_, hrefl, ?_, ?_⟩
    · simp only [selectOne, hk, if_true]
    · simp only [selectKey, hk, if_true, map_some]
    · rintro e ⟨⟩
      exact ha
  · cases hs : pre.stripPrefix key with
    | none =>
      refine ⟨h, none, ?_, hrefl, ?_, nofun⟩
      · simp only [selectOne, hk, if_false, hs, Bool.false_eq_true]
      · simp [selectKey, hk, hasPrefix_eq_isSome pre key, hs]
    | some suffix =>
      have hparts := stripPrefix_eq_some_iff.mp hs
      -- an empty rest would make the prefix cover the node
      have hne : ¬ suffix.parts = [] := by
        intro hnil
        rw [hnil, append_nil] at hparts
        exact hk (hasPrefix_iff.mpr (hparts ▸ prefix_rfl))
      refine ⟨(h.walk n suffix.parts).2, some (pre, (h.walk n suffix.parts).1), ?_,
        grows_walk wf ha.lt _, ?_, ?_⟩
      · simp only [selectOne, hk, if_false, hs, OriginTree.leaf, hne, bind, Except.bind,
          Bool.false_eq_true]
      · simp [selectKey, hk, hasPrefix_eq_isSome pre key, hs]
      · rintro e ⟨⟩
        exact ha.walk wf hparts

/-- Keys that extend paths apart are apart. -/
theorem apart_of_prefix {p q k l : Path} (h : p.Apart q) (hp : p.parts <+: k.parts)
    (hq : q.parts <+: l.parts) : k.Apart l := by
  refine ⟨fun hkl => ?_, fun hlk => ?_⟩
  · rcases prefix_or_prefix_of_prefix (hp.trans hkl) hq with hor | hor
    · exact h.1 hor
    · exact h.2 hor
  · rcases prefix_or_prefix_of_prefix hp (hq.trans hlk) with hor | hor
    · exact h.1 hor
    · exact h.2 hor

/-- Selected nodes stay apart. -/
theorem pairwise_selectKey (ha : nodes.Pairwise fun e e' => e.1.Apart e'.1)
    (prefixes : PathPrefixes) :
    ((nodes ×ˢ prefixes.paths).filterMap selectKey).Pairwise Path.Apart := by
  rw [pairwise_filterMap]
  refine pairwise_flatMap.mpr ⟨fun e _ => ?_, ha.imp fun hne => ?_⟩
  · rw [pairwise_map]
    refine prefixes.apart.imp fun hne k hk l hl => ?_
    exact apart_of_prefix hne (prefix_of_selectKey hk).2 (prefix_of_selectKey hl).2
  · rintro ⟨_, _⟩ hx ⟨_, _⟩ hy k hk l hl
    obtain ⟨_, _, ⟨⟩⟩ := mem_map.mp hx
    obtain ⟨_, _, ⟨⟩⟩ := mem_map.mp hy
    exact apart_of_prefix hne (prefix_of_selectKey hk).1 (prefix_of_selectKey hl).1

/-- Scoping succeeds, only creates nodes, and gives a handle of the right shape. -/
theorem select_spec (wf : h.WF) (ho : HandleOk h root linked nodes) (prefixes : PathPrefixes) :
    ∃ h' found, select h nodes prefixes = .ok (h', found) ∧ h.Grows h' ∧
      ∀ nodes', found = some nodes' → HandleOk h' root linked nodes' := by
  have hall : ∀ a ∈ nodes ×ˢ prefixes.paths, Placed h root linked a.1 :=
    fun a ha => ho.placed a.1 (pair_mem_product.mp ha).1
  obtain ⟨h', roots, hrun, hg, hkeys, hplaced⟩ :=
    collect_spec (f := selectOne) (I := fun h a => Placed h root linked a.1)
      (fun g ha => ha.grows g) (fun wf ha => selectOne_spec wf ha) wf hall
  refine ⟨h', if roots.isEmpty then none else some roots, ?_, hg, ?_⟩
  · simp only [select, hrun, bind, Except.bind]
  · intro nodes' hn
    split_ifs at hn
    obtain rfl := some.inj hn
    refine ⟨hplaced, pairwise_map.mp ?_⟩
    rw [hkeys]
    exact pairwise_selectKey ho.apart prefixes

end Select

/-! ### Re-rooting -/

section Root

variable {h : OriginTree} {root newRoot : Path} {linked : Prop} {nodes : OriginNodes} {e : Path × ℕ}

/-- The key under which `rootOne` finds a node. -/
def rootKey (newRoot : Path) (e : Path × ℕ) : Option Path :=
  match e.1.stripPrefix newRoot with
  | some suffix => some suffix
  | none => if newRoot.hasPrefix e.1 then some Path.empty else none

/-- Behind the new root, the key extends the old prefix. -/
theorem prefix_of_rootKey {k : Path} (hk : rootKey newRoot e = some k) :
    e.1.parts <+: (newRoot.join k).parts := by
  rw [parts_join]
  unfold rootKey at hk
  cases hs : e.1.stripPrefix newRoot with
  | some suffix =>
    rw [hs] at hk
    obtain rfl := some.inj hk
    rw [stripPrefix_eq_some_iff.mp hs]
  | none =>
    simp only [hs] at hk
    split_ifs at hk with hp
    obtain rfl := some.inj hk
    rw [parts_empty, append_nil]
    exact hasPrefix_iff.mp hp

/-- A node under a root is placed, in a tree that may have grown. -/
theorem rootOne_spec (wf : h.WF) (he : Placed h root linked e) :
    ∃ h' found, rootOne newRoot h e = .ok (h', found) ∧ h.Grows h' ∧
      found.map Prod.fst = rootKey newRoot e ∧
      ∀ e', found = some e' → Placed h' (root.join newRoot) linked e' := by
  obtain ⟨key, n⟩ := e
  have hrefl := refl wf
  cases hs : key.stripPrefix newRoot with
  | some suffix =>
    have hparts := stripPrefix_eq_some_iff.mp hs
    refine ⟨h, some (suffix, n), ?_, hrefl, ?_, ?_⟩
    · simp only [rootOne, hs]
    · simp only [rootKey, hs, map_some]
    · rintro e' ⟨⟩
      refine ⟨he.lt, ?_, he.link⟩
      rw [he.label, parts_join, hparts, append_assoc]
  | none =>
    cases hs' : newRoot.stripPrefix key with
    | none =>
      refine ⟨h, none, ?_, hrefl, ?_, nofun⟩
      · simp only [rootOne, hs, hs']
      · simp [rootKey, hs, hasPrefix_eq_isSome newRoot key, hs']
    | some suffix =>
      have hparts := stripPrefix_eq_some_iff.mp hs'
      -- an empty rest would make the new root a prefix of the node's
      have hne : ¬ suffix.parts = [] := by
        intro hnil
        rw [hnil, append_nil] at hparts
        exact stripPrefix_eq_none_iff.mp hs (hparts ▸ prefix_rfl)
      refine ⟨(h.walk n suffix.parts).2, some (empty, (h.walk n suffix.parts).1), ?_,
        grows_walk wf he.lt _, ?_, ?_⟩
      · simp only [rootOne, hs, hs', OriginTree.leaf, hne, if_false, bind, Except.bind]
      · simp [rootKey, hs, hasPrefix_eq_isSome newRoot key, hs']
      · rintro e' ⟨⟩
        have hw := he.walk wf hparts
        exact ⟨hw.lt, by simpa using hw.label, hw.link⟩

/-- Re-rooting succeeds, only creates nodes, and gives a handle of the right shape. -/
theorem root_spec (wf : h.WF) (ho : HandleOk h root linked nodes) (newRoot : Path) :
    ∃ h' found, OriginNodes.root h nodes newRoot = .ok (h', found) ∧ h.Grows h' ∧
      ∀ nodes', found = some nodes' → HandleOk h' (root.join newRoot) linked nodes' := by
  by_cases hempty : newRoot.isEmpty = true
  · refine ⟨h, some nodes, by rw [OriginNodes.root, if_pos hempty], refl wf, ?_⟩
    rintro nodes' ⟨⟩
    refine ⟨fun e he => ⟨(ho.placed e he).lt, ?_, (ho.placed e he).link⟩, ho.apart⟩
    rw [(ho.placed e he).label, Path.parts_join, Path.isEmpty_iff.mp hempty, append_nil]
  · obtain ⟨h', roots, hrun, hg, hkeys, hplaced⟩ :=
      collect_spec (f := rootOne newRoot) (I := fun h e => Placed h root linked e)
        (fun g he => he.grows g) (fun wf he => rootOne_spec wf he) wf ho.placed
    refine ⟨h', if roots.isEmpty then none else some roots, ?_, hg, ?_⟩
    · simp only [OriginNodes.root, hempty, hrun, bind, Except.bind, Bool.false_eq_true, if_false]
    · intro nodes' hn
      split_ifs at hn
      obtain rfl := some.inj hn
      refine ⟨hplaced, pairwise_map.mp ?_⟩
      rw [hkeys, pairwise_filterMap]
      refine ho.apart.imp fun hne k hk l hl => ?_
      have hap := apart_of_prefix hne (prefix_of_rootKey hk) (prefix_of_rootKey hl)
      rw [Path.Apart, parts_join, parts_join, prefix_append_right_inj,
        prefix_append_right_inj] at hap
      exact hap

end Root

end OriginNodes

end HermitMoq
