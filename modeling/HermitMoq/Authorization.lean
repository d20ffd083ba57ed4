import HermitMoq.Confinement

/-!
# From Claims to Handles

The model of `Auth::finalize` in `moq-relay/src/auth.rs` and of `Cluster::publisher` and
`Cluster::subscriber` in `moq-relay/src/cluster.rs`. The claims of a token grant prefixes below a
root. `finalize` rebases them onto the path of the connection; the cluster then derives a handle
of its origin by `with_root` and `scope`. In terms of absolute paths the composition is an
intersection: what lies below the connection path and below a granted prefix.
-/

namespace HermitMoq

open List HermitMoq.Path OriginNodes Option

/-- `moq_token::Claims`, as far as `finalize` reads them. -/
structure Claims where
  root : List Char
  publish : List (List Char)
  subscribe : List (List Char)
  expires : Option ℕ

/-- `AuthToken`. -/
structure AuthToken where
  root : Path
  subscribe : PathPrefixes
  publish : PathPrefixes
  internal : Bool
  expires : Option ℕ

/-- `AuthError`, as far as `finalize` returns it. -/
inductive AuthError
  | incorrectRoot
  deriving DecidableEq

namespace Auth

/-- The body of the closure `scope` of `finalize`. -/
def scopeOne (pre suffix : Path) (p : List Char) : Option Path :=
  let p := pre.join (Path.new p)
  if p.isEmpty then some p
  else
    match p.stripPrefix suffix with
    | some remaining => some remaining
    | none => if suffix.hasPrefix p then some Path.empty else none

/-- The closure `scope` of `finalize`. -/
def scope (pre suffix : Path) (paths : List (List Char)) : PathPrefixes :=
  PathPrefixes.new (paths.filterMap (scopeOne pre suffix))

/-- The overlap of the connection path and the root of the claims: a suffix that narrows the
permissions and a prefix that widens their paths. -/
def overlap (root claimsRoot : Path) : Option (Path × Path) :=
  match root.stripPrefix claimsRoot with
  | some suffix => some (suffix, Path.empty)
  | none => (claimsRoot.stripPrefix root).map fun pre => (Path.empty, pre)

/-- `Auth::finalize`. -/
def finalize (rootStr : List Char) (claims : Claims) : Except AuthError AuthToken :=
  match overlap (Path.new rootStr) (Path.new claims.root) with
  | none => .error .incorrectRoot
  | some (suffix, pre) =>
    let subscribe := scope pre suffix claims.subscribe
    let publish := scope pre suffix claims.publish
    if subscribe.paths.isEmpty ∧ publish.paths.isEmpty then .error .incorrectRoot
    else .ok ⟨Path.new rootStr, subscribe, publish, false, claims.expires⟩

/-- The absolute paths that a session may use: below the connection path, and below a granted
prefix. -/
def Granted (rootStr : List Char) (claims : Claims) (prefixes : List (List Char)) (path : Path) :
    Prop :=
  (Path.new rootStr).parts <+: path.parts ∧
    ∃ p ∈ prefixes, ((Path.new claims.root).join (Path.new p)).parts <+: path.parts

instance (rootStr : List Char) (claims : Claims) (prefixes : List (List Char)) (path : Path) :
    Decidable (Granted rootStr claims prefixes path) :=
  inferInstanceAs (Decidable (_ ∧ _))

/-! ### What is left of a prefix -/

section Scope

variable {root claimsRoot pre suffix path : Path}

/-- With an overlap, lying below the claims below the connection is the same without the parts
that both share. -/
theorem prefix_of_overlap (h : overlap root claimsRoot = some (suffix, pre)) {p : Path} :
    (claimsRoot.join p).parts <+: (root.join path).parts ↔
      (pre.join p).parts <+: (suffix.join path).parts := by
  simp only [parts_join]
  unfold overlap at h
  cases hs : root.stripPrefix claimsRoot with
  | some s =>
    rw [hs] at h
    cases h
    rw [stripPrefix_eq_some_iff.mp hs, append_assoc, prefix_append_right_inj]
    rfl
  | none =>
    rw [hs] at h
    obtain ⟨_, hf, h⟩ := map_eq_some_iff.mp h
    cases h
    rw [stripPrefix_eq_some_iff.mp hf, append_assoc, prefix_append_right_inj]
    rfl

/-- Paths that lie below both roots exist only if these overlap. -/
theorem overlap_ne_none (hroot : root.parts <+: path.parts)
    (hclaims : claimsRoot.parts <+: path.parts) : overlap root claimsRoot ≠ none := by
  unfold overlap
  cases hs : root.stripPrefix claimsRoot with
  | some s => exact nofun
  | none =>
    -- the connection path is not below the root of the claims, so it is above
    have hnot := stripPrefix_eq_none_iff.mp hs
    have hor := prefix_or_prefix_of_prefix hroot hclaims
    have habove := hor.resolve_right hnot
    have hsome : (claimsRoot.stripPrefix root).isSome = true := by
      rw [← hasPrefix_eq_isSome, hasPrefix_iff]
      exact habove
    obtain ⟨_, hf⟩ := isSome_iff_exists.mp hsome
    rw [hf]
    exact nofun

/-- What the closure leaves of one prefix. -/
theorem scopeOne_spec {p : List Char} :
    (∃ k ∈ scopeOne pre suffix p, k.parts <+: path.parts) ↔
      (pre.join (Path.new p)).parts <+: (suffix.join path).parts := by
  rw [scopeOne, parts_join suffix path]
  generalize pre.join (new p) = q
  by_cases hempty : q.isEmpty = true
  · rw [if_pos hempty]
    rw [Path.isEmpty_iff] at hempty
    simp [hempty]
  · rw [if_neg hempty]
    cases hs : q.stripPrefix suffix with
    | some k =>
      rw [stripPrefix_eq_some_iff.mp hs, prefix_append_right_inj]
      simp
    | none =>
      have hnot := stripPrefix_eq_none_iff.mp hs
      split_ifs with hcovers
      · rw [hasPrefix_iff] at hcovers
        simp [hcovers.trans (prefix_append _ _)]
      · rw [hasPrefix_iff] at hcovers
        refine iff_of_false nofun fun hpre => ?_
        rcases prefix_or_prefix_of_prefix hpre (prefix_append _ _) with h | h
        · exact hcovers h
        · exact hnot h

/-- What the closure leaves of a list of prefixes. -/
theorem under_scope (h : overlap root claimsRoot = some (suffix, pre)) {ps : List (List Char)} :
    path.Under (scope pre suffix ps).paths ↔
      ∃ p ∈ ps, (claimsRoot.join (Path.new p)).parts <+: (root.join path).parts := by
  rw [scope, PathPrefixes.under_new]
  simp only [prefix_of_overlap h, ← scopeOne_spec]
  constructor
  · rintro ⟨k, hk, hpre⟩
    obtain ⟨p, hp, hkey⟩ := mem_filterMap.mp hk
    exact ⟨p, hp, k, hkey, hpre⟩
  · rintro ⟨p, hp, k, hkey, hpre⟩
    exact ⟨k, mem_filterMap.mpr ⟨p, hp, hkey⟩, hpre⟩

end Scope

/-! ### The result of finalize -/

section Finalize

variable {rootStr : List Char} {claims : Claims} {token : AuthToken} {prefixes : List (List Char)}
  {path : Path}

/-- The granted paths, relative to the connection path. -/
theorem granted_iff {suffix pre : Path}
    (h : overlap (Path.new rootStr) (Path.new claims.root) = some (suffix, pre)) :
    Granted rootStr claims prefixes path ↔
      ∃ rest, path = (Path.new rootStr).join rest ∧
        rest.Under (scope pre suffix prefixes).paths := by
  constructor
  · rintro ⟨hroot, hp⟩
    rw [← hasPrefix_iff, hasPrefix_eq_isSome] at hroot
    obtain ⟨rest, hrest⟩ := isSome_iff_exists.mp hroot
    have hjoin := join_of_stripPrefix hrest
    exact ⟨rest, hjoin.symm, (under_scope h).mpr (hjoin ▸ hp)⟩
  · rintro ⟨_, rfl, hrest⟩
    refine ⟨?_, (under_scope h).mp hrest⟩
    rw [parts_join]
    exact prefix_append _ _

/-- Nothing is granted if the roots do not overlap. -/
theorem not_granted (h : overlap (Path.new rootStr) (Path.new claims.root) = none) :
    ¬ Granted rootStr claims prefixes path := by
  rintro ⟨hroot, _, -, hpre⟩
  rw [parts_join] at hpre
  exact overlap_ne_none hroot ((prefix_append _ _).trans hpre) h

/-- A prefix list is empty exactly if no path lies below it. -/
theorem isEmpty_iff_not_under {ps : List Path} : ps.isEmpty = true ↔
    ∀ path : Path, ¬ path.Under ps := by
  cases ps with
  | nil => exact iff_of_true rfl fun path ⟨_, hp, _⟩ => not_mem_nil hp
  | cons p ps =>
    exact iff_of_false nofun fun h => h p ⟨p, mem_cons_self, prefix_rfl⟩

/-- `finalize` refuses exactly the claims that grant nothing below the connection path. -/
theorem finalize_eq_error_iff :
    finalize rootStr claims = .error .incorrectRoot ↔
      (∀ path, ¬ Granted rootStr claims claims.publish path) ∧
        ∀ path, ¬ Granted rootStr claims claims.subscribe path := by
  rw [finalize]
  cases h : overlap (new rootStr) (new claims.root) with
  | none => exact iff_of_true rfl ⟨fun _ => not_granted h, fun _ => not_granted h⟩
  | some r =>
    obtain ⟨suffix, pre⟩ := r
    have hgranted : ∀ prefixes, (scope pre suffix prefixes).paths.isEmpty = true ↔
        ∀ path, ¬ Granted rootStr claims prefixes path := by
      intro prefixes
      rw [isEmpty_iff_not_under]
      simp only [granted_iff h]
      exact ⟨fun hnot path ⟨rest, _, hrest⟩ => hnot rest hrest,
        fun hnot rest hrest => hnot _ ⟨rest, rfl, hrest⟩⟩
    rw [← hgranted, ← hgranted]
    simp only
    split_ifs with hempty
    · exact iff_of_true rfl hempty.symm
    · exact iff_of_false nofun fun hnot => hempty hnot.symm

/-- The token of `finalize`: its prefixes, behind the connection path, are what is granted. -/
theorem finalize_eq_ok (h : finalize rootStr claims = .ok token) :
    token.root = Path.new rootStr ∧
      (∀ path, Granted rootStr claims claims.publish path ↔
        ∃ rest, path = token.root.join rest ∧ rest.Under token.publish.paths) ∧
      ∀ path, Granted rootStr claims claims.subscribe path ↔
        ∃ rest, path = token.root.join rest ∧ rest.Under token.subscribe.paths := by
  rw [finalize] at h
  cases ho : overlap (new rootStr) (new claims.root) with
  | none =>
    rw [ho] at h
    cases h
  | some r =>
    simp only [ho] at h
    split_ifs at h
    cases h
    exact ⟨rfl, fun _ => granted_iff ho, fun _ => granted_iff ho⟩

end Finalize

end Auth

/-! ### The handles of a session -/

namespace OriginSystem

/-- A derivation of a producer: the state after it, and the position of the new producer if
there is one. -/
def derive (s : OriginSystem) (op : OriginOp) : Except Panic (OriginSystem × Option ℕ) :=
  match s.step op with
  | .ok s' =>
    .ok (s', if s'.producers.length = s.producers.length then none else some s.producers.length)
  | .error e => .error e

/-- `with_root` and then `scope` on the unscoped producer of the cluster. -/
def restricted (s : OriginSystem) (root : Path) (prefixes : PathPrefixes) :
    Except Panic (OriginSystem × Option ℕ) :=
  match s.derive (.withRoot 0 root) with
  | .ok (s, some producer) => s.derive (.scope producer prefixes.paths)
  | .ok (s, none) => .ok (s, none)
  | .error e => .error e

/-- `Cluster::publisher`: the position of the producer. -/
def publisher (s : OriginSystem) (token : AuthToken) : Except Panic (OriginSystem × Option ℕ) :=
  s.restricted token.root token.publish

/-- `Cluster::subscriber`: the id of the consumer. -/
def subscriber (s : OriginSystem) (token : AuthToken) :
    Except Panic (OriginSystem × Option ConsumerId) :=
  match s.restricted token.root token.subscribe with
  | .ok (s, some producer) =>
    match s.step (.consume producer) with
    | .ok s' => .ok (s', some s.consumers.length)
    | .error e => .error e
  | .ok (s, none) => .ok (s, none)
  | .error e => .error e

section Handles

variable {s s' : OriginSystem} {op : OriginOp} {p : OriginProducer} {k : ℕ}

/-- A state that keeps the handles of another one. -/
structure Extends (s s' : OriginSystem) : Prop where
  producers : ∀ {i : ℕ} {p : OriginProducer},
    s.producers[i]? = some p → s'.producers[i]? = some p
  consumers : ∀ {i : ConsumerId} {c : OriginConsumer}, s.consumers[i]? = some c →
    ∃ c', s'.consumers[i]? = some c' ∧ c'.root = c.root ∧ c'.nodes = c.nodes

theorem Extends.trans {s'' : OriginSystem} (h : s.Extends s') (h' : s'.Extends s'') :
    s.Extends s'' where
  producers hp := h'.producers (h.producers hp)
  consumers hc := by
    obtain ⟨_, hc', hroot, hnodes⟩ := h.consumers hc
    obtain ⟨c'', hc'', hroot', hnodes'⟩ := h'.consumers hc'
    exact ⟨c'', hc'', hroot'.trans hroot, hnodes'.trans hnodes⟩

theorem Effect.extended (he : Effect s op s') : s.Extends s' where
  producers hp := he.producers hp
  consumers hc := by
    obtain ⟨c', hc', hroot, hnodes, -⟩ := he.handle hc
    exact ⟨c', hc', hroot, hnodes⟩

section

variable (ht : s.Toggles) (root : Path)

include ht

/-- An attached operation keeps the contract and the handles. -/
theorem Toggles.extended (ha : AllAttached s op) :
    ∃ s', s.step op = .ok s' ∧ s'.Toggles ∧ s.Extends s' := by
  obtain ⟨s', hrun, heff, -⟩ := ht.rooted.accounted.step ha.1.1
  exact ⟨s', hrun, ht.effect ha heff, heff.extended⟩

/-- A derivation by `addProducer`. -/
theorem Toggles.derive {root : Path} {tree : OriginTree}
    {found : Option OriginNodes} (hstep : s.step op = s.addProducer root (.ok (tree, found)))
    (ha : AllAttached s op) :
    ∃ s' i, s.derive op = .ok (s', i) ∧ s'.Toggles ∧ s.Extends s' ∧ s'.tree = tree ∧
      (i = none ↔ found = none) ∧
      ∀ j ∈ i, ∃ nodes, found = some nodes ∧ s'.producers[j]? = some ⟨root, nodes⟩ := by
  obtain ⟨s', hrun, ht', hext⟩ := ht.extended ha
  cases found with
  | none =>
    cases hrun.symm.trans hstep
    refine ⟨_, none, ?_, ht', hext, rfl, iff_of_true rfl rfl, by simp⟩
    rw [OriginSystem.derive, hstep]
    simp [addProducer]
  | some nodes =>
    cases hrun.symm.trans hstep
    refine ⟨_, some s.producers.length, ?_, ht', hext, rfl, by simp, ?_⟩
    · rw [OriginSystem.derive, hstep]
      simp [addProducer]
    · rintro j ⟨⟩
      refine ⟨nodes, rfl, ?_⟩
      simp

/-- `with_root` on the unscoped producer serves everything below the root. -/
theorem Toggles.withRoot :
    ∃ s' j p, s.derive (.withRoot 0 root) = .ok (s', some j) ∧ s'.Toggles ∧ s.Extends s' ∧
      s'.producers[j]? = some p ∧ p.root = root ∧ (∀ path, p.nodes.Permits path) ∧
      AllLinked s'.tree p.nodes := by
  have hwf := ht.rooted.accounted.wf
  have hp := ht.rooted.unscoped
  have ho := (hwf.producers _ (mem_of_getElem? hp)).linked
  obtain ⟨tree, found, hroot, -, hok⟩ := root_spec hwf.tree ho root
  have hpermits := (root_permits hwf.tree ho hroot).1
  have hstep : s.step (.withRoot 0 root) =
      s.addProducer (empty.join root) (.ok (tree, found)) := by
    simp only [OriginSystem.step, hp, hroot]
  obtain ⟨s', i, hderive, ht', hext, htree, hnone, hsome⟩ :=
    ht.derive hstep ⟨⟨by rintro _ ⟨⟩, by rintro _ ⟨⟩⟩, trivial⟩
  -- everything is served behind any root
  have hall : ∀ path, ∃ nodes ∈ found, OriginNodes.Permits nodes path := fun path =>
    (hpermits path).mpr
      (permits_iff.mpr ⟨_, mem_singleton.mpr rfl, nil_prefix⟩)
  obtain ⟨_, hfound, -⟩ := hall empty
  cases i with
  | none =>
    rw [hnone.mp rfl] at hfound
    cases hfound
  | some j =>
    obtain ⟨nodes', hfound', hj⟩ := hsome j rfl
    refine ⟨s', j, _, hderive, ht', hext, hj, empty_join root, fun path => ?_,
      fun e he => ?_⟩
    · obtain ⟨_, hfound'', hpath⟩ := hall path
      obtain rfl := some.inj (hfound''.symm.trans hfound')
      exact hpath
    · rw [htree]
      refine ((hok nodes' hfound').placed e he).link fun e' he' => ?_
      rw [mem_singleton.mp he']
      exact TrieHeap.linked_zero hwf.tree

/-- What the handle of a session serves. -/
theorem Toggles.restricted (prefixes : PathPrefixes) :
    ∃ s' i, s.restricted root prefixes = .ok (s', i) ∧ s'.Toggles ∧ s.Extends s' ∧
      (i = none ↔ ∀ path : Path, ¬ path.Under prefixes.paths) ∧
      ∀ j ∈ i, ∃ p, s'.producers[j]? = some p ∧ p.root = root ∧
        (∀ path, p.nodes.Permits path ↔ path.Under prefixes.paths) ∧
        AllLinked s'.tree p.nodes := by
  obtain ⟨s₁, k, p, hderive₁, ht₁, hext₁, hp, hroot, hall, hlinked⟩ := ht.withRoot root
  have hwf := ht₁.rooted.accounted.wf
  have ho := (hwf.producers _ (mem_of_getElem? hp)).linked
  obtain ⟨tree, found, hselect, -, hok⟩ :=
    select_spec hwf.tree ho (PathPrefixes.new prefixes.paths)
  obtain ⟨hpermits, hne⟩ := select_permits hwf.tree ho hselect
  simp only [PathPrefixes.under_new, hall, true_and] at hpermits
  have hstep : s₁.step (.scope k prefixes.paths) = s₁.addProducer p.root (.ok (tree, found)) := by
    simp only [OriginSystem.step, hp, hselect]
  obtain ⟨s', i, hderive, ht', hext, htree, hnone, hsome⟩ :=
    ht₁.derive hstep ⟨⟨by rintro _ ⟨⟩, by rintro _ ⟨⟩⟩, trivial⟩
  refine ⟨s', i, ?_, ht', hext₁.trans hext, ?_, fun j hj => ?_⟩
  · simp only [OriginSystem.restricted, hderive₁, hderive]
  · rw [hnone]
    constructor
    · rintro rfl path hpath
      obtain ⟨_, h, -⟩ := (hpermits path).mpr hpath
      cases h
    · intro hnot
      cases found with
      | none => rfl
      | some nodes =>
        obtain ⟨path, hpath⟩ := hne nodes rfl
        exact absurd ((hpermits path).mp ⟨nodes, rfl, hpath⟩) (hnot path)
  · obtain ⟨nodes, rfl, hj⟩ := hsome j hj
    refine ⟨_, hj, hroot, fun path => ?_, fun e he => ?_⟩
    · rw [← hpermits]
      refine ⟨fun h => ⟨nodes, rfl, h⟩, ?_⟩
      rintro ⟨_, ⟨⟩, hp⟩
      exact hp
    · rw [htree]
      exact ((hok nodes rfl).placed e he).link hlinked

/-- What `Cluster::subscriber` returns. -/
theorem Toggles.subscriber (token : AuthToken) :
    ∃ s' i, s.subscriber token = .ok (s', i) ∧ s'.Toggles ∧ s.Extends s' ∧
      (i = none ↔ ∀ path : Path, ¬ path.Under token.subscribe.paths) ∧
      ∀ j ∈ i, ∃ c, s'.consumers[j]? = some c ∧ c.root = token.root ∧
        ∀ path, c.nodes.Permits path ↔ path.Under token.subscribe.paths := by
  obtain ⟨s₁, i, hrestricted, ht₁, hext₁, hnone, hsome⟩ := ht.restricted token.root token.subscribe
  cases i with
  | none =>
    refine ⟨s₁, none, ?_, ht₁, hext₁, hnone, nofun⟩
    simp only [OriginSystem.subscriber, hrestricted]
  | some k =>
    obtain ⟨p, hp, hroot, hpermits, hlinked⟩ := hsome k rfl
    have hattached : AllAttached s₁ (.consume k) := by
      refine ⟨⟨nofun, nofun⟩, fun p' hp' => ?_⟩
      exact some.inj (hp.symm.trans hp') ▸ hlinked
    obtain ⟨s₂, hrun, ht₂, hext₂⟩ := ht₁.extended hattached
    have hwf := ht₁.rooted.accounted.wf
    obtain ⟨_, pending, hnew, -⟩ :=
      newConsumer_spec hwf (hwf.producers _ (mem_of_getElem? hp))
    have hs₂ := hrun
    simp only [OriginSystem.step, hp, hnew, Except.ok.injEq] at hs₂
    refine ⟨s₂, some s₁.consumers.length, ?_, ht₂, hext₁.trans hext₂, ?_, ?_⟩
    · simp only [OriginSystem.subscriber, hrestricted, hrun]
    · rw [← hnone]
      simp
    · rintro j ⟨⟩
      refine ⟨.fresh p.root p.nodes pending, ?_, hroot, hpermits⟩
      rw [← hs₂]
      simp

/-- A consumer in step finds what the unscoped producer finds, at the paths it serves. -/
theorem Toggles.consumer_getBroadcast {i : ConsumerId} {c : OriginConsumer}
    (hc : s.live i = some c) (path : Path) :
    c.getBroadcast s path =
      if c.nodes.Permits path then s.getBroadcast 0 (c.root.join path) else none := by
  split_ifs with hpath
  · obtain ⟨⟨_, _⟩, hget⟩ := isSome_iff_exists.mp (isSome_get.mpr hpath)
    have ho := ht.rooted.accounted.wf.consumers (live_eq_some_iff.mp hc).1
    obtain ⟨_, hmem, hlabel⟩ := ho.get_label hget
    have hlinked := (ht.inStep hc).linked _ hmem
    rw [OriginConsumer.getBroadcast, hget, ht.rooted.getBroadcast, hlabel, hlinked.valueFrom_append]
    exact OriginTree.consumeBroadcast_eq _ _ _
  · exact c.getBroadcast_eq_none hpath s

/-- A run of attached operations keeps the contract and the handles. -/
theorem Toggles.run {ops : List OriginOp} (hm : Meets OriginSystem.step AllAttached s ops) :
    ∃ s', HermitMoq.run OriginSystem.step s ops = .ok s' ∧ s'.Toggles ∧ s.Extends s' :=
  hm.invariant (I := fun s' => s'.Toggles ∧ s.Extends s')
    (fun ⟨ht, hext⟩ ha => by
      obtain ⟨s', hrun, ht', hext'⟩ := ht.extended ha
      exact ⟨s', hrun, ht', hext.trans hext'⟩)
    ⟨ht, fun h => h, fun h => ⟨_, h, rfl, rfl⟩⟩

end

/-- Where a producer publishes a broadcast that has not passed the origin. -/
theorem target_iff (hp : s.producers[k]? = some p) {b : BroadcastConsumer}
    (hb : b.hops.contains s.info = false) {full : Path} :
    (∃ path node rest, s.target k path b = some (node, rest, full)) ↔
      ∃ path, full = p.root.join path ∧ p.nodes.Permits path := by
  simp only [target, hp, hb, Bool.false_eq_true, if_false, bind, bind_some,
    ← isSome_get]
  refine exists_congr fun path => ?_
  cases get p.nodes path with
  | none => simp
  | some r => simp [eq_comm]

end Handles

end OriginSystem

/-! ### End to end -/

namespace Auth

open OriginSystem

/-- No path lies below a prefix of the token exactly if no path is granted. -/
theorem not_under_iff {rootStr : List Char} {claims : Claims} {grants : List (List Char)}
    {root : Path} {prefixes : PathPrefixes}
    (h : ∀ path, Granted rootStr claims grants path ↔
      ∃ rest, path = root.join rest ∧ rest.Under prefixes.paths) :
    (∀ path : Path, ¬ path.Under prefixes.paths) ↔
      ∀ path, ¬ Granted rootStr claims grants path := by
  simp only [h]
  constructor
  · rintro hnot path ⟨rest, -, hrest⟩
    exact hnot rest hrest
  · intro hnot path hpath
    exact hnot _ ⟨path, rfl, hpath⟩

/-- **Authorization is exact.** `finalize` refuses exactly the claims that grant nothing. The
handles that the cluster derives for a token in any state of an attached run exist exactly if
something is granted, and in every later state of it the session can publish at exactly the
absolute paths granted for publishing; of the paths behind its root it finds exactly those that
hold a broadcast and are granted for subscribing, and a drained consumer was shown the same. -/
theorem authorization_exact (info : Origin) (ops : List OriginOp)
    (hattached : Meets OriginSystem.step AllAttached (OriginSystem.init info) ops)
    (rootStr : List Char) (claims : Claims) :
    (finalize rootStr claims = .error .incorrectRoot ↔
        (∀ path, ¬ Granted rootStr claims claims.publish path) ∧
          ∀ path, ¬ Granted rootStr claims claims.subscribe path) ∧
      ∀ token, finalize rootStr claims = .ok token →
        ∃ s s₁ pub s₂ sub, run OriginSystem.step (OriginSystem.init info) ops = .ok s ∧
          s.publisher token = .ok (s₁, pub) ∧ s₁.subscriber token = .ok (s₂, sub) ∧
          (pub = none ↔ ∀ path, ¬ Granted rootStr claims claims.publish path) ∧
          (sub = none ↔ ∀ path, ¬ Granted rootStr claims claims.subscribe path) ∧
          ∀ later, Meets OriginSystem.step AllAttached s₂ later →
            ∃ s₃, run OriginSystem.step s₂ later = .ok s₃ ∧
              (∀ producer ∈ pub, ∀ b : BroadcastConsumer, b.hops.contains s₃.info = false →
                ∀ full, (∃ path node rest, s₃.target producer path b = some (node, rest, full)) ↔
                  Granted rootStr claims claims.publish full) ∧
              ∀ consumer ∈ sub, ∀ c, s₃.live consumer = some c →
                c.root = Path.new rootStr ∧
                ∀ path, ((c.getBroadcast s₃ path).isSome = true ↔
                    (∃ t ∈ s₃.cleanups, t.full = c.root.join path) ∧
                      Granted rootStr claims claims.subscribe (c.root.join path)) ∧
                  (c.pending.take = none → shown (c.log path) = c.getBroadcast s₃ path) := by
  refine ⟨finalize_eq_error_iff, fun token htoken => ?_⟩
  obtain ⟨hroot, hpublish, hsubscribe⟩ := finalize_eq_ok htoken
  obtain ⟨s, hrun, ht⟩ := hattached.invariant (I := Toggles) (fun ht ha => ht.step ha)
    (Toggles.init info)
  obtain ⟨s₁, pub, hpub, ht₁, -, hpubnone, hpubsome⟩ := ht.restricted token.root token.publish
  obtain ⟨s₂, sub, hsub, ht₂, hext₂, hsubnone, hsubsome⟩ := ht₁.subscriber token
  refine ⟨s, s₁, pub, s₂, sub, hrun, hpub, hsub, hpubnone.trans (not_under_iff hpublish),
    hsubnone.trans (not_under_iff hsubscribe), fun later hlater => ?_⟩
  obtain ⟨s₃, hrun₃, ht₃, hext₃⟩ := ht₂.run hlater
  refine ⟨s₃, hrun₃, fun producer hproducer b hb full => ?_, fun consumer hconsumer c hc => ?_⟩
  · obtain ⟨_, hp, hproot, hpermits, -⟩ := hpubsome producer hproducer
    rw [target_iff (hext₃.producers (hext₂.producers hp)) hb, hpublish, hproot]
    simp only [hpermits]
  · obtain ⟨_, hc₂, hcroot, hpermits⟩ := hsubsome consumer hconsumer
    obtain ⟨c₃, hc₃, hroot₃, hnodes₃⟩ := hext₃.consumers hc₂
    obtain rfl : c₃ = c := some.inj (hc₃.symm.trans (live_eq_some_iff.mp hc).1)
    have hcroot : c₃.root = token.root := hroot₃.trans hcroot
    have hgranted : ∀ path, c₃.nodes.Permits path ↔
        Granted rootStr claims claims.subscribe (c₃.root.join path) := by
      intro path
      rw [hnodes₃, hpermits, hsubscribe, hcroot]
      refine ⟨fun h => ⟨path, rfl, h⟩, fun ⟨rest, heq, h⟩ => ?_⟩
      exact join_left_cancel heq ▸ h
    refine ⟨hcroot.trans hroot, fun path => ⟨?_, fun hdrained => ?_⟩⟩
    · rw [ht₃.consumer_getBroadcast hc, ← ht₃.rooted.isSome_getBroadcast, ← hgranted]
      split_ifs with hpath
      · simp [hpath]
      · simp [hpath]
    · rw [ht₃.consumer_getBroadcast hc, ht₃.shown_eq hc hdrained]
      exact if_congr permits_iff.symm rfl rfl

/-- Claims for everything below a root. -/
def everything (root : List Char) : Claims := ⟨root, [[]], [[]], none⟩

/-- A connection to `a/b` with claims for `a`, made while `a/x` and `a/b/c` are published: both
handles exist and serve what is below `a/b`, and after the session has published `a/b/d` its
consumer finds that one and the earlier one. -/
theorem authorization_exact_nested :
    ∃ token s s₁ pub s₂ sub s₃ c, finalize ['a', '/', 'b'] (everything ['a']) = .ok token ∧
      run OriginSystem.step (OriginSystem.init ⟨1⟩)
        [.publish 0 pathAX local₀, .publish 0 (Path.new ['a', '/', 'b', '/', 'c']) remote₁] =
          .ok s ∧
      s.publisher token = .ok (s₁, some pub) ∧ s₁.subscriber token = .ok (s₂, some sub) ∧
      run OriginSystem.step s₂ [.publish pub (Path.new ['d']) local₀] = .ok s₃ ∧
      (∀ b : BroadcastConsumer, b.hops.contains s₃.info = false → ∀ full,
        (∃ path node rest, s₃.target pub path b = some (node, rest, full)) ↔
          Granted ['a', '/', 'b'] (everything ['a']) (everything ['a']).publish full) ∧
      s₃.live sub = some c ∧ (c.getBroadcast s₃ (Path.new ['c'])).isSome = true ∧
      (c.getBroadcast s₃ (Path.new ['d'])).isSome = true := by
  obtain ⟨-, h⟩ := authorization_exact ⟨1⟩
    [.publish 0 pathAX local₀, .publish 0 (Path.new ['a', '/', 'b', '/', 'c']) remote₁]
    (by decide) ['a', '/', 'b'] (everything ['a'])
  obtain ⟨_, _, _, _, _, hrun, hpub, hsub, -, -, hlater⟩ := h _ rfl
  cases hrun
  cases hpub
  cases hsub
  obtain ⟨_, hrun, hpublish, hsubscribe⟩ :=
    hlater [.publish 1 (Path.new ['d']) local₀] (by decide)
  cases hrun
  obtain ⟨-, hfound⟩ := hsubscribe _ rfl _ rfl
  exact ⟨_, _, _, _, _, _, _, _, rfl, rfl, rfl, rfl, rfl,
    fun b hb full => hpublish _ rfl b hb full, rfl,
    (hfound _).1.mpr ⟨by decide, by decide⟩, (hfound _).1.mpr ⟨by decide, by decide⟩⟩

/-- The node of a session with the root `a` is pruned when a broadcast below it ends. What the
session publishes from then on is accepted, but a session with the same token that connects
later does not find it. -/
theorem granted_broadcast_is_not_found :
    ∃ token s₁ producer s₂ s₃ consumer s₄ c,
      finalize ['a'] (everything []) = .ok token ∧
      (OriginSystem.init ⟨1⟩).publisher token = .ok (s₁, some producer) ∧
      run OriginSystem.step s₁ [.publish 0 pathAX local₀, .close 0, .cleanup 0] = .ok s₂ ∧
      s₂.subscriber token = .ok (s₃, some consumer) ∧
      run OriginSystem.step s₃ [.publish producer (Path.new ['y']) remote₁] = .ok s₄ ∧
      s₄.live consumer = some c ∧ c.root.join (Path.new ['y']) = pathAY ∧
      (∃ t ∈ s₄.cleanups, t.full = pathAY) ∧
      Granted ['a'] (everything []) (everything []).subscribe pathAY ∧
      c.getBroadcast s₄ (Path.new ['y']) = none :=
  ⟨_, _, _, _, _, _, _, _, rfl, rfl, rfl, rfl, rfl, rfl, rfl, ⟨_, mem_singleton.mpr rfl, rfl⟩,
    by decide, rfl⟩

end Auth

end HermitMoq
