import HermitMoq.OriginNodes

/-!
# The Paths a Handle Serves

A handle serves the paths below the prefixes of its nodes. In terms of these sets of paths the
derivations of `OriginNodes` are simple: `select` intersects with the paths below the given
prefixes, and `root` takes the preimage under joining the new root. Both return `None` exactly
if nothing is left.
-/

namespace HermitMoq

open List HermitMoq.Path

/-- A path lies below one of the given ones. -/
def Path.Under (prefixes : List Path) (path : Path) : Prop :=
  ∃ p ∈ prefixes, p.parts <+: path.parts

instance (prefixes : List Path) (path : Path) : Decidable (path.Under prefixes) :=
  inferInstanceAs (Decidable (∃ p ∈ prefixes, _))

section Under

variable {prefixes ps qs : List Path} {path : Path}

theorem Path.under_append : path.Under (ps ++ qs) ↔ path.Under ps ∨ path.Under qs := by
  simp only [Path.Under, mem_append, or_and_right, exists_or]

theorem Path.under_cons {p : Path} :
    path.Under (p :: ps) ↔ p.parts <+: path.parts ∨ path.Under ps := by
  simp only [Path.Under, exists_mem_cons_iff]

theorem Path.under_congr (h : ∀ p, p ∈ ps ↔ p ∈ qs) : path.Under ps ↔ path.Under qs := by
  simp only [Path.Under, h]

/-! ### Prefix lists -/

/-- Leaving covered paths out does not change what lies below. -/
theorem PathPrefixes.under_uncovered {result paths : List Path} :
    path.Under (uncovered result paths) ↔ path.Under result ∨ path.Under paths := by
  induction paths generalizing result with
  | nil => simp [uncovered, Path.Under]
  | cons p paths ih =>
    rw [uncovered, under_cons]
    split_ifs with hany
    · obtain ⟨q, hq, hpre⟩ := any_eq_true.mp hany
      have hcovered : p.parts <+: path.parts → path.Under result := fun h =>
        ⟨q, hq, (hasPrefix_iff.mp hpre).trans h⟩
      rw [ih]
      tauto
    · rw [ih, under_append, under_cons, or_assoc]
      simp [Path.Under]

/-- Removing repetitions removes no element. -/
theorem mem_destutter_ne {α : Type*} [DecidableEq α] {l : List α} {x : α} :
    x ∈ l.destutter (· ≠ ·) ↔ x ∈ l := by
  cases l with
  | nil => rfl
  | cons a l =>
    rw [destutter_cons']
    induction l generalizing a with
    | nil => rfl
    | cons b l ih =>
      rw [destutter'_cons]
      split_ifs with hne
      · rw [mem_cons, ih, mem_cons (a := x) (b := a)]
      · rw [ih, of_not_not hne]
        simp

/-- `PathPrefixes::new` keeps the paths below the prefixes. -/
theorem PathPrefixes.under_new : path.Under (new prefixes).paths ↔ path.Under prefixes := by
  rw [new]
  split_ifs with h
  · rfl
  · have hnil : ¬ path.Under [] := fun ⟨_, hp, _⟩ => not_mem_nil hp
    rw [under_uncovered, or_iff_right hnil]
    refine under_congr fun p => ?_
    rw [mem_destutter_ne, mem_insertionSort]

end Under

namespace OriginNodes

/-- The paths that a handle with these nodes serves. -/
def Permits (nodes : OriginNodes) (path : Path) : Prop := path.Under (nodes.map Prod.fst)

instance (nodes : OriginNodes) (path : Path) : Decidable (nodes.Permits path) :=
  inferInstanceAs (Decidable (path.Under _))

variable {nodes : OriginNodes} {path : Path}

theorem permits_iff : nodes.Permits path ↔ ∃ e ∈ nodes, e.1.parts <+: path.parts := by
  simp [Permits, Path.Under]

/-- `get` finds a node for exactly the paths that are served. -/
theorem isSome_get : (get nodes path).isSome = true ↔ nodes.Permits path := by
  rw [permits_iff, get, findSome?_isSome_iff]
  refine exists_congr fun e => and_congr_right fun _ => ?_
  rw [Option.isSome_map, ← hasPrefix_eq_isSome, hasPrefix_iff]

/-- A handle with nodes serves some path. -/
theorem exists_permits (h : nodes ≠ []) : ∃ path, nodes.Permits path := by
  obtain ⟨e, he⟩ := exists_mem_of_ne_nil nodes h
  exact ⟨e.1, permits_iff.mpr ⟨e, he, prefix_rfl⟩⟩

/-- The result of a derivation that found these nodes. -/
theorem permits_found (roots : OriginNodes) :
    (∀ path, (∃ nodes' ∈ if roots.isEmpty then none else some roots, Permits nodes' path) ↔
        roots.Permits path) ∧
      ∀ nodes' ∈ if roots.isEmpty then none else some roots, ∃ path, Permits nodes' path := by
  cases roots with
  | nil =>
    refine ⟨fun path => ⟨nofun, fun ⟨_, h, _⟩ => ?_⟩, fun _ h => ?_⟩
    · exact absurd h not_mem_nil
    · cases h
  | cons e roots =>
    refine ⟨fun path => ⟨fun ⟨_, h, hp⟩ => Option.some.inj h ▸ hp, fun h => ⟨_, rfl, h⟩⟩, ?_⟩
    rintro _ ⟨⟩
    exact exists_permits (cons_ne_nil _ _)

/-! ### Scoping -/

/-- Below one of the selected keys lies what is below a node and below a prefix. -/
theorem under_selectKey {prefixes : List Path} :
    path.Under ((nodes ×ˢ prefixes).filterMap selectKey) ↔
      nodes.Permits path ∧ path.Under prefixes := by
  rw [permits_iff]
  constructor
  · rintro ⟨k, hk, hpre⟩
    obtain ⟨⟨e, p⟩, hmem, hkey⟩ := mem_filterMap.mp hk
    obtain ⟨he, hp⟩ := pair_mem_product.mp hmem
    obtain ⟨hek, hpk⟩ := prefix_of_selectKey hkey
    exact ⟨⟨e, he, hek.trans hpre⟩, p, hp, hpk.trans hpre⟩
  · rintro ⟨⟨e, he, hpre⟩, p, hp, hpre'⟩
    -- two paths above one path are comparable, and the longer one is selected
    have hkey : ∃ k, selectKey (e, p) = some k ∧ k.parts <+: path.parts := by
      obtain ⟨key, _⟩ := e
      rw [selectKey]
      split_ifs with h₁ h₂
      · exact ⟨key, rfl, hpre⟩
      · exact ⟨p, rfl, hpre'⟩
      · rw [hasPrefix_iff] at h₁ h₂
        rcases prefix_or_prefix_of_prefix hpre hpre' with h | h
        · exact absurd h h₂
        · exact absurd h h₁
    obtain ⟨k, hk, hkpre⟩ := hkey
    exact ⟨k, mem_filterMap.mpr ⟨(e, p), pair_mem_product.mpr ⟨he, hp⟩, hk⟩, hkpre⟩

section Derived

variable {h h' : OriginTree} {root : Path} {linked : Prop} {found : Option OriginNodes}
  {newRoot : Path}

/-- **Scoping** serves what was served before and lies below a prefix; it returns `None` if
there is no such path. -/
theorem select_permits (wf : h.WF) (ho : HandleOk h root linked nodes) {prefixes : PathPrefixes}
    (hrun : select h nodes prefixes = .ok (h', found)) :
    (∀ path, (∃ nodes' ∈ found, Permits nodes' path) ↔
        nodes.Permits path ∧ path.Under prefixes.paths) ∧
      ∀ nodes' ∈ found, ∃ path, Permits nodes' path := by
  have hall : ∀ a ∈ nodes ×ˢ prefixes.paths, Placed h root linked a.1 :=
    fun a ha => ho.placed a.1 (pair_mem_product.mp ha).1
  obtain ⟨_, roots, hcollect, -, hkeys, -⟩ :=
    collect_spec (f := selectOne) (I := fun h a => Placed h root linked a.1)
      (fun g ha => ha.grows g) (fun wf ha => selectOne_spec wf ha) wf hall
  simp only [select, hcollect, bind, Except.bind, Except.ok.injEq, Prod.mk.injEq] at hrun
  obtain ⟨-, rfl⟩ := hrun
  obtain ⟨hpermits, hne⟩ := permits_found roots
  refine ⟨fun path => ?_, hne⟩
  rw [hpermits, Permits, hkeys, under_selectKey]

/-- Behind the new root, below the keys lies what was served before. -/
theorem under_rootKey :
    path.Under (nodes.filterMap (rootKey newRoot)) ↔ nodes.Permits (newRoot.join path) := by
  rw [permits_iff]
  constructor
  · rintro ⟨k, hk, hpre⟩
    obtain ⟨e, he, hkey⟩ := mem_filterMap.mp hk
    refine ⟨e, he, (prefix_of_rootKey hkey).trans ?_⟩
    rw [parts_join, parts_join, prefix_append_right_inj]
    exact hpre
  · rintro ⟨e, he, hpre⟩
    rw [parts_join] at hpre
    have hkey : ∃ k, rootKey newRoot e = some k ∧ k.parts <+: path.parts := by
      rw [rootKey]
      cases hs : e.1.stripPrefix newRoot with
      | some suffix =>
        rw [stripPrefix_eq_some_iff.mp hs, prefix_append_right_inj] at hpre
        exact ⟨suffix, rfl, hpre⟩
      | none =>
        -- the node is not below the new root, so it is above
        have hnot := stripPrefix_eq_none_iff.mp hs
        have habove : newRoot.hasPrefix e.1 = true := by
          rw [hasPrefix_iff]
          have hor := prefix_or_prefix_of_prefix hpre (prefix_append _ _)
          exact hor.resolve_right hnot
        exact ⟨empty, if_pos habove, by simp⟩
    obtain ⟨k, hk, hkpre⟩ := hkey
    exact ⟨k, mem_filterMap.mpr ⟨e, he, hk⟩, hkpre⟩

/-- **Re-rooting** serves a path if it was served behind the new root; it returns `None` if
there is no such path. -/
theorem root_permits (wf : h.WF) (ho : HandleOk h root linked nodes)
    (hrun : OriginNodes.root h nodes newRoot = .ok (h', found)) :
    (∀ path, (∃ nodes' ∈ found, Permits nodes' path) ↔ nodes.Permits (newRoot.join path)) ∧
      (nodes ≠ [] → ∀ nodes' ∈ found, ∃ path, Permits nodes' path) := by
  by_cases hempty : newRoot.isEmpty = true
  · rw [OriginNodes.root, if_pos hempty] at hrun
    obtain ⟨-, rfl⟩ := Prod.mk.inj (Except.ok.inj hrun)
    have hroot : newRoot = empty := parts_eq_nil_iff.mp (isEmpty_iff.mp hempty)
    refine ⟨fun path => ?_, fun hne nodes' h => ?_⟩
    · rw [hroot, empty_join]
      refine ⟨?_, fun h => ⟨_, rfl, h⟩⟩
      rintro ⟨_, ⟨⟩, hp⟩
      exact hp
    · obtain rfl := Option.some.inj h
      exact exists_permits hne
  · obtain ⟨_, roots, hcollect, -, hkeys, -⟩ :=
      collect_spec (f := rootOne newRoot) (I := fun h e => Placed h root linked e)
        (fun g he => he.grows g) (fun wf he => rootOne_spec wf he) wf ho.placed
    simp only [OriginNodes.root, hempty, hcollect, bind, Except.bind, Bool.false_eq_true, if_false,
      Except.ok.injEq, Prod.mk.injEq] at hrun
    obtain ⟨-, rfl⟩ := hrun
    obtain ⟨hpermits, hne⟩ := permits_found roots
    refine ⟨fun path => ?_, fun _ => hne⟩
    rw [hpermits, Permits, hkeys, under_rootKey]

end Derived

end OriginNodes

end HermitMoq
