import Mathlib.Data.Prod.Lex
import Mathlib.Data.List.Perm.Basic
import HermitMoq.Path

/-!
# Routes and Their Selection at One Path

The model of the hop chains, the ordering key `route_key`, and the leaf branches of
`OriginNode::publish` and `OriginNode::remove` in `moq-net/src/model/origin.rs`. All
broadcasts published at one path compete: one of them is active, the others wait in the
backup queue, and the selection is incremental. A publish compares the newcomer with the
active route only; a removal promotes the backup with the lowest key.

A broadcast is named by the identity of its channel (`state`), which is what `is_clone`
compares; its hop chain is fixed when it is produced.
-/

namespace HermitMoq

open List

/-- The panics of the origin tree. -/
inductive Panic
  /-- `expect("leaf called with empty path")` in `OriginNode::leaf`. -/
  | leafCalledWithEmptyPath
  /-- `strip_prefix(&self.root).unwrap()` in `OriginConsumerNotify`. -/
  | stripPrefixUnwrap
  /-- `expect("consumer not found")` in `OriginNode::unconsume`. -/
  | consumerNotFound
  /-- `expect("index in range")` in `OriginNode::remove`. -/
  | indexInRange
  /-- `assert!(entry.active.is_clone(&broadcast))` in `OriginNode::remove`. -/
  | activeIsClone
  deriving DecidableEq, Repr

/-! ### Hop chains -/

/-- A relay origin. -/
@[ext]
structure Origin where
  /-- The identifier on the wire. -/
  id : UInt64
  deriving DecidableEq

/-- `MAX_HOPS`. -/
def maxHops : ℕ := 32

/-- A bounded list of origins, the hop chain of a broadcast. -/
structure OriginList where
  /-- The hops, oldest first. -/
  list : List Origin
  /-- The bound kept by `OriginList::push`. -/
  bound : list.length ≤ maxHops
  deriving DecidableEq

namespace OriginList

/-- `OriginList::new`. -/
def new : OriginList := ⟨[], Nat.zero_le _⟩

/-- `OriginList::len`. -/
def len (l : OriginList) : ℕ := l.list.length

/-- `OriginList::contains`. -/
def contains (l : OriginList) (o : Origin) : Bool := decide (o ∈ l.list)

/-- `OriginList::push`; `none` stands for `TooManyOrigins`. -/
def push (l : OriginList) (o : Origin) : Option OriginList :=
  if h : l.list.length ≥ maxHops then none
  else some ⟨l.list ++ [o], by simp only [List.length_append, List.length_singleton]; omega⟩

theorem list_push {l l' : OriginList} {o : Origin} (h : l.push o = some l') :
    l'.list = l.list ++ [o] := by
  unfold push at h
  split_ifs at h with hfull
  rw [← Option.some.inj h]

theorem push_eq_none_iff {l : OriginList} {o : Origin} : l.push o = none ↔ l.len = maxHops := by
  have hb := l.bound
  unfold push len
  split_ifs with hfull
  · simp only [true_iff]
    omega
  · simp only [false_iff]
    omega

end OriginList

/-- A handle on a broadcast. -/
structure BroadcastConsumer where
  /-- The identity of the broadcast's channel. -/
  state : ℕ
  /-- The hop chain, oldest first. -/
  hops : OriginList
  deriving DecidableEq

/-- `BroadcastConsumer::is_clone`. -/
def BroadcastConsumer.isClone (b c : BroadcastConsumer) : Bool := b.state == c.state

variable {b c : BroadcastConsumer} (e : OriginBroadcast)

theorem BroadcastConsumer.isClone_iff :
    b.isClone c = true ↔ b.state = c.state := beq_iff_eq

/-! ### The ordering key -/

/-- The custom FNV basis of `route_key`. -/
def seed : UInt64 := 0x420C0DECB00B

/-- The FNV-64 prime. -/
def fnvPrime : UInt64 := 0x00000100000001b3

/-- The FNV-1a loop. -/
def fnv (hash : UInt64) (bytes : List UInt8) : UInt64 :=
  bytes.foldl (fun hash byte => (hash ^^^ byte.toUInt64) * fnvPrime) hash

/-- `u64::to_le_bytes`. -/
def toLeBytes (n : UInt64) : List UInt8 :=
  (List.range 8).map fun i => UInt8.ofNat (n.toNat / 256 ^ i)

/-- `route_key`: the hop count, then the hash of the name and the hop chain. -/
def routeKey (name : Path) (hops : OriginList) : ℕ ×ₗ ℕ :=
  let hash := fnv seed (name.chars.flatMap String.utf8EncodeChar)
  let hash := fnv hash (hops.list.flatMap fun hop => toLeBytes hop.id)
  toLex (hops.len, hash.toNat)

/-- A lower key has no more hops. -/
theorem len_le_of_routeKey_le {name : Path} {l l' : OriginList}
    (h : routeKey name l ≤ routeKey name l') : l.len ≤ l'.len := by
  rcases Prod.Lex.le_iff.mp h with h | ⟨h, -⟩
  · exact Nat.le_of_lt h
  · exact Nat.le_of_eq h

/-! ### The routes at one path -/

/-- The broadcasts published at one path. -/
structure OriginBroadcast where
  /-- The absolute path. -/
  path : Path
  /-- The route in use. -/
  active : BroadcastConsumer
  /-- The other routes, in order of arrival. -/
  backup : List BroadcastConsumer
  deriving DecidableEq

/-- An update for the consumers above a node. -/
inductive Notice
  | announce (path : Path) (broadcast : BroadcastConsumer)
  | reannounce (path : Path) (broadcast : BroadcastConsumer)
  | unannounce (path : Path)
  deriving DecidableEq

/-- The path of an update. -/
def Notice.path : Notice → Path
  | announce path _ => path
  | reannounce path _ => path
  | unannounce path => path

/-- The leaf branch of `OriginNode::publish`: the new content of the node and the update
it sends. -/
def publishLeaf (full : Path) (broadcast : BroadcastConsumer) :
    Option OriginBroadcast → Option OriginBroadcast × Option Notice
  | some existing =>
    if existing.active.isClone broadcast || existing.backup.any (·.isClone broadcast) then
      (some existing, none)
    else if routeKey full broadcast.hops < routeKey full existing.active.hops then
      (some { existing with active := broadcast, backup := existing.backup ++ [existing.active] },
        some (.reannounce full broadcast))
    else
      (some { existing with backup := existing.backup ++ [broadcast] }, none)
  | none => (some ⟨full, broadcast, []⟩, some (.announce full broadcast))

/-- The leaf branch of `OriginNode::remove`. -/
def removeLeaf (full : Path) (broadcast : BroadcastConsumer) :
    Option OriginBroadcast → Except Panic (Option OriginBroadcast × Option Notice)
  | none => .ok (none, none)
  | some entry =>
    match entry.backup.findIdx? (·.isClone broadcast) with
    | some pos => .ok (some { entry with backup := entry.backup.eraseIdx pos }, none)
    | none =>
      if !entry.active.isClone broadcast then .error .activeIsClone
      else
        match entry.backup.minIdxOn? fun b => routeKey full b.hops with
        | some idx =>
          match entry.backup[idx]? with
          | some active =>
            .ok (some { entry with active, backup := entry.backup.eraseIdx idx },
              some (.reannounce full active))
          | none => .error .indexInRange
        | none => .ok (none, some (.unannounce full))

/-- All broadcasts stored at a path, the active one first. -/
def stored (o : Option OriginBroadcast) : List BroadcastConsumer :=
  o.elim [] fun e => e.active :: e.backup

/-- The active route. -/
def active (o : Option OriginBroadcast) : Option BroadcastConsumer := o.map (·.active)

@[simp] theorem stored_none : stored none = [] := rfl

@[simp] theorem stored_some : stored (some e) = e.active :: e.backup := rfl

@[simp] theorem active_none : active none = none := rfl

@[simp] theorem active_some : active (some e) = some e.active := rfl

variable {o : Option OriginBroadcast} {old new : Option BroadcastConsumer} {full : Path}

theorem stored_eq_nil_iff : stored o = [] ↔ o = none := by
  cases o <;> simp

theorem active_eq_none_iff : active o = none ↔ o = none :=
  Option.map_eq_none_iff

/-- The update owed to the consumers when the active route changes. -/
def noticeFor (full : Path) (old new : Option BroadcastConsumer) : Option Notice :=
  match old, new with
  | none, none => none
  | none, some b => some (.announce full b)
  | some _, none => some (.unannounce full)
  | some a, some b => if a = b then none else some (.reannounce full b)

theorem noticeFor_self (full : Path) (o : Option BroadcastConsumer) :
    noticeFor full o o = none := by
  cases o <;> simp [noticeFor]

theorem eq_of_noticeFor_none (h : noticeFor full old new = none) : new = old := by
  unfold noticeFor at h
  split at h
  · rfl
  · cases h
  · cases h
  · split_ifs at h with heq
    rw [heq]

/-- A notice names the path of the change. -/
theorem path_of_noticeFor {notice : Notice}
    (h : noticeFor full old new = some notice) : notice.path = full := by
  unfold noticeFor at h
  split at h
  · cases h
  · cases h
    rfl
  · cases h
    rfl
  · split_ifs at h
    cases h
    rfl

/-- The active route has the **lowest key** of the stored ones, and the entry carries
the path it is stored at. -/
def Best (full : Path) (o : Option OriginBroadcast) : Prop :=
  ∀ e, o = some e → e.path = full ∧
    ∀ c ∈ e.backup, routeKey full e.active.hops ≤ routeKey full c.hops

theorem best_none (full : Path) : Best full none := nofun

theorem Best.le_of_mem (h : Best full o)
    (hb : active o = some b) (hc : c ∈ stored o) : routeKey full b.hops ≤ routeKey full c.hops := by
  obtain ⟨e, rfl, rfl⟩ := Option.map_eq_some_iff.mp hb
  rcases mem_cons.mp hc with rfl | hc
  · exact le_rfl
  · exact (h e rfl).2 c hc

theorem mem_stored_of_active {b : BroadcastConsumer} (hb : active o = some b) : b ∈ stored o := by
  obtain ⟨_, rfl, rfl⟩ := Option.map_eq_some_iff.mp hb
  exact mem_cons_self

/-! ### Publishing -/

section Publish

variable {e}

/-- A broadcast is **stored** if one with the same channel is. -/
def IsStored (b : BroadcastConsumer) (o : Option OriginBroadcast) : Prop :=
  b.state ∈ (stored o).map (·.state)

instance (b : BroadcastConsumer) (o : Option OriginBroadcast) : Decidable (IsStored b o) :=
  inferInstanceAs (Decidable (_ ∈ _))

theorem isStored_of_mem (h : b ∈ stored o) : IsStored b o :=
  mem_map_of_mem h

/-- The duplicate test of `OriginNode::publish`. -/
theorem isStored_some_iff : IsStored b (some e) ↔
    (e.active.isClone b || e.backup.any (·.isClone b)) = true := by
  simp only [IsStored, stored_some, map_cons, mem_cons, mem_map,
    Bool.or_eq_true, any_eq_true, BroadcastConsumer.isClone_iff]
  rw [eq_comm]

/-- The four outcomes of a publish at a leaf. -/
theorem publishLeaf_cases (full : Path) (b : BroadcastConsumer) (o : Option OriginBroadcast) :
    (o = none ∧ publishLeaf full b o = (some ⟨full, b, []⟩, some (.announce full b))) ∨
    ∃ e, o = some e ∧
      ((IsStored b o ∧ publishLeaf full b o = (o, none)) ∨
      (¬ IsStored b o ∧ routeKey full b.hops < routeKey full e.active.hops ∧
        publishLeaf full b o = (some { e with active := b, backup := e.backup ++ [e.active] },
          some (.reannounce full b))) ∨
      (¬ IsStored b o ∧ routeKey full e.active.hops ≤ routeKey full b.hops ∧
        publishLeaf full b o = (some { e with backup := e.backup ++ [b] }, none))) := by
  cases o with
  | none => exact Or.inl ⟨rfl, rfl⟩
  | some e =>
    refine Or.inr ⟨e, rfl, ?_⟩
    by_cases hs : IsStored b (some e)
    · exact Or.inl ⟨hs, by rw [publishLeaf, if_pos (isStored_some_iff.mp hs)]⟩
    · have hd := fun h => hs (isStored_some_iff.mpr h)
      rcases lt_or_ge (routeKey full b.hops) (routeKey full e.active.hops) with hk | hk
      · refine Or.inr (Or.inl ⟨hs, hk, ?_⟩)
        rw [publishLeaf, if_neg hd, if_pos hk]
      · refine Or.inr (Or.inr ⟨hs, hk, ?_⟩)
        rw [publishLeaf, if_neg hd, if_neg (not_lt.mpr hk)]

variable (full) in
/-- A publish of a broadcast that is not stored yet stores it. -/
theorem publishLeaf_perm (hb : ¬ IsStored b o) :
    (stored (publishLeaf full b o).1).Perm (b :: stored o) := by
  rcases publishLeaf_cases full b o with ⟨rfl, hp⟩ | ⟨_, rfl, ⟨hs, -⟩ | ⟨-, -, hp⟩ | ⟨-, -, hp⟩⟩
  · exact List.Perm.refl _
  · exact absurd hs hb
  · rw [hp]
    exact (perm_append_singleton _ _).cons _
  · rw [hp]
    exact ((perm_append_singleton _ _).cons _).trans (List.Perm.swap ..)

theorem stored_publishLeaf_ne_nil : stored (publishLeaf full b o).1 ≠ [] := by
  rcases publishLeaf_cases full b o with ⟨rfl, hp⟩ | ⟨_, rfl, ⟨-, hp⟩ | ⟨-, -, hp⟩ | ⟨-, -, hp⟩⟩ <;>
    simp [hp]

/-- A publish keeps the lowest key active. -/
theorem Best.publishLeaf (h : Best full o) : Best full (publishLeaf full b o).1 := by
  rcases publishLeaf_cases full b o with
    ⟨rfl, hp⟩ | ⟨e, rfl, ⟨-, hp⟩ | ⟨-, hk, hp⟩ | ⟨-, hk, hp⟩⟩
  · rintro e ⟨⟩
    exact ⟨rfl, nofun⟩
  · rw [hp]
    exact h
  · rw [hp]
    rintro e' ⟨⟩
    refine ⟨(h e rfl).1, fun c hc => ?_⟩
    rcases mem_append.mp hc with hc | hc
    · exact hk.le.trans ((h e rfl).2 c hc)
    · rw [mem_singleton.mp hc]
      exact hk.le
  · rw [hp]
    rintro e' ⟨⟩
    refine ⟨(h e rfl).1, fun c hc => ?_⟩
    rcases mem_append.mp hc with hc | hc
    · exact (h e rfl).2 c hc
    · rw [mem_singleton.mp hc]
      exact hk

/-- The path of an entry is the one of its first publish. -/
theorem path_publishLeaf (h : (publishLeaf full b o).1 = some e) :
    e.path = full ∨ ∃ e₀, o = some e₀ ∧ e.path = e₀.path := by
  rcases publishLeaf_cases full b o with
    ⟨rfl, hp⟩ | ⟨e₀, rfl, ⟨-, hp⟩ | ⟨-, -, hp⟩ | ⟨-, -, hp⟩⟩
  · exact Or.inl (by rw [← Option.some.inj h])
  all_goals
    rw [hp] at h
    exact Or.inr ⟨e₀, rfl, by rw [← Option.some.inj h]⟩

/-- A publish sends the update owed for the change of the active route. -/
theorem publishLeaf_notice :
    (publishLeaf full b o).2 = noticeFor full (active o) (active (publishLeaf full b o).1) := by
  rcases publishLeaf_cases full b o with
    ⟨rfl, hp⟩ | ⟨e, rfl, ⟨-, hp⟩ | ⟨hs, -, hp⟩ | ⟨-, -, hp⟩⟩
  · simp [hp, noticeFor]
  · simp [hp, noticeFor]
  · have hne : e.active ≠ b := fun heq => hs (isStored_of_mem (heq ▸ mem_cons_self))
    simp [hp, noticeFor, hne]
  · simp [hp, noticeFor]

end Publish

/-! ### Removing -/

section Remove

/-- In a list of distinct channels, two broadcasts with one channel are the same. -/
theorem eq_of_state_eq {l : List BroadcastConsumer} (hn : (l.map (·.state)).Nodup)
    (hb : b ∈ l) (hc : c ∈ l) (h : b.state = c.state) : b = c :=
  inj_on_of_nodup_map hn hb hc h

/-- A removal that does not panic keeps the path of the entry and sends an update for
its own path, if any. -/
theorem path_removeLeaf {o' : Option OriginBroadcast} {notice : Option Notice}
    (h : removeLeaf full b o = .ok (o', notice)) :
    (∀ e, o' = some e → ∃ e₀, o = some e₀ ∧ e.path = e₀.path) ∧
      ∀ a, notice = some a → a.path = full := by
  cases o with
  | none =>
    cases h
    exact ⟨fun e he => (by cases he), nofun⟩
  | some e₀ =>
    simp only [removeLeaf] at h
    cases hpos : e₀.backup.findIdx? (·.isClone b) with
    | some pos =>
      simp only [hpos] at h
      cases h
      exact ⟨fun e he => ⟨e₀, rfl, by rw [← Option.some.inj he]⟩, nofun⟩
    | none =>
      simp only [hpos] at h
      split_ifs at h
      split at h
      · split at h
        · cases h
          exact ⟨fun e he => ⟨e₀, rfl, by rw [← Option.some.inj he]⟩,
            fun a ha => by rw [← Option.some.inj ha]; rfl⟩
        · cases h
      · cases h
        exact ⟨fun e he => (by cases he), fun a ha => by rw [← Option.some.inj ha]; rfl⟩

/-- The index of `min_by_key` on a list that is not empty. -/
theorem exists_minIdxOn? {α β : Type*} [LinearOrder β] (f : α → β) {l : List α} (hl : l ≠ []) :
    ∃ (idx : ℕ) (hlt : idx < l.length), l.minIdxOn? f = some idx ∧ ∀ c ∈ l, f l[idx] ≤ f c := by
  refine ⟨l.minIdxOn f hl, List.minIdxOn_lt_length hl, List.minIdxOn?_eq_some_minIdxOn hl, ?_⟩
  intro c hc
  rw [List.getElem_minIdxOn]
  exact List.apply_minOn_le_of_mem hc

/-- Removing a stored broadcast never panics, takes out exactly that broadcast, keeps the
lowest key active and sends the update owed for the change of the active route. -/
theorem removeLeaf_spec (hn : ((stored o).map (·.state)).Nodup) (hb : b ∈ stored o)
    (hbest : Best full o) :
    ∃ o', removeLeaf full b o = .ok (o', noticeFor full (active o) (active o')) ∧
      (stored o).Perm (b :: stored o') ∧ Best full o' := by
  cases o with
  | none => exact absurd hb not_mem_nil
  | some e =>
    obtain ⟨hpath, hle⟩ := hbest e rfl
    cases hpos : e.backup.findIdx? (·.isClone b) with
    | some pos =>
      -- a backup is dropped silently
      obtain ⟨hlt, hclone, -⟩ := findIdx?_eq_some_iff_getElem.mp hpos
      have hmem : e.backup[pos] ∈ e.backup := getElem_mem hlt
      have heq : e.backup[pos] = b := eq_of_state_eq hn (mem_cons_of_mem _ hmem) hb
        (BroadcastConsumer.isClone_iff.mp hclone)
      refine ⟨some { e with backup := e.backup.eraseIdx pos }, ?_, ?_, ?_⟩
      · simp only [removeLeaf, hpos, active_some, noticeFor, if_true]
      · have hperm := getElem_cons_eraseIdx_perm hlt
        rw [heq] at hperm
        exact (hperm.symm.cons _).trans (List.Perm.swap ..)
      · rintro e' ⟨⟩
        exact ⟨hpath, fun c hc => hle c (mem_of_mem_eraseIdx hc)⟩
    | none =>
      have hnone := findIdx?_eq_none_iff.mp hpos
      have hact : b = e.active := by
        rcases mem_cons.mp hb with hb | hb
        · exact hb
        · have hc := hnone b hb
          simp [BroadcastConsumer.isClone] at hc
      subst hact
      have hclone : e.active.isClone e.active = true := BroadcastConsumer.isClone_iff.mpr rfl
      by_cases hnil : e.backup = []
      · refine ⟨none, ?_, ?_, best_none full⟩
        · simp [removeLeaf, hnil, hclone, noticeFor]
        · simp [hnil]
      · -- the backup with the lowest key is promoted
        obtain ⟨idx, hlt, hmin, hlow⟩ := exists_minIdxOn? (fun b => routeKey full b.hops) hnil
        have hmem : e.backup[idx] ∈ e.backup := getElem_mem hlt
        have hne : e.active ≠ e.backup[idx] := by
          intro heq
          rw [stored_some, map_cons, nodup_cons] at hn
          exact hn.1 (mem_map.mpr ⟨_, hmem, by rw [← heq]⟩)
        refine ⟨some { e with active := e.backup[idx], backup := e.backup.eraseIdx idx },
          ?_, ?_, ?_⟩
        · simp [removeLeaf, hpos, hclone, hmin, getElem?_eq_getElem hlt, noticeFor, hne]
        · exact (getElem_cons_eraseIdx_perm hlt).symm.cons _
        · rintro e' ⟨⟩
          exact ⟨hpath, fun c hc => hlow c (mem_of_mem_eraseIdx hc)⟩

end Remove

end HermitMoq
