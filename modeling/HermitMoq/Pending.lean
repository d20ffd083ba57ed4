import HermitMoq.Route
import HermitMoq.Toggle
import Mathlib.Data.List.AList

/-!
# Coalesced Updates for One Consumer

The model of `PendingUpdate`, `OriginConsumerState` and `OriginConsumerNotify` in
`moq-net/src/model/origin.rs`. Every consumer owns a map from paths to at most one
coalesced update. The invariant `Coherent` ties the three views of one path together:
what the consumer has been shown, the pending update, and the active route. A notice for
a change of the active route keeps it (`Coherent.notice`), and taking an update keeps it
while the update differs in kind from what was shown before (`Coherent.take`).
-/

namespace HermitMoq

open Option

/-- One coalesced update. -/
inductive PendingUpdate
  | announce (broadcast : BroadcastConsumer)
  | unannounce
  | unannounceAnnounce (broadcast : BroadcastConsumer)
  deriving DecidableEq

/-- An update as it is delivered: `none` stands for an unannounce. -/
abbrev OriginAnnounce := Path × Option BroadcastConsumer

/-- The pending updates of a consumer, by path. -/
abbrev OriginConsumerState := AList fun _ : Path => PendingUpdate

namespace OriginConsumerState

/-- The entry that `apply_announce` leaves in place of the one it removes. -/
def announced (broadcast : BroadcastConsumer) : Option PendingUpdate → PendingUpdate
  | none => .announce broadcast
  | some (.announce _) => .announce broadcast
  | some .unannounce => .unannounceAnnounce broadcast
  | some (.unannounceAnnounce _) => .unannounceAnnounce broadcast

/-- `OriginConsumerState::apply_announce`. -/
def applyAnnounce (s : OriginConsumerState) (path : Path) (broadcast : BroadcastConsumer) :
    OriginConsumerState :=
  s.insert path (announced broadcast (s.lookup path))

/-- `OriginConsumerState::apply_unannounce`. -/
def applyUnannounce (s : OriginConsumerState) (path : Path) : OriginConsumerState :=
  match s.lookup path with
  | some (.announce _) => s.erase path
  | none => s.insert path .unannounce
  | some .unannounce => s.insert path .unannounce
  | some (.unannounceAnnounce _) => s.insert path .unannounce

/-- `OriginConsumerState::take`: the update with the lowest path. -/
def take (s : OriginConsumerState) : Option (OriginAnnounce × OriginConsumerState) :=
  s.keys.min?.bind fun path =>
    match s.lookup path with
    | none => none
    | some (.announce broadcast) => some ((path, some broadcast), s.erase path)
    | some .unannounce => some ((path, none), s.erase path)
    | some (.unannounceAnnounce broadcast) =>
      some ((path, none), s.insert path (.announce broadcast))

/-- The three methods of `OriginConsumerNotify` behind the stripped path. -/
def apply (s : OriginConsumerState) (path : Path) : Notice → OriginConsumerState
  | .announce _ broadcast => s.applyAnnounce path broadcast
  | .reannounce _ broadcast => (s.applyUnannounce path).applyAnnounce path broadcast
  | .unannounce _ => s.applyUnannounce path

end OriginConsumerState

/-! ### The effect of a notice on one path -/

/-- The entry that `apply_unannounce` leaves. -/
def unannounced : Option PendingUpdate → Option PendingUpdate
  | some (.announce _) => none
  | none => some .unannounce
  | some .unannounce => some .unannounce
  | some (.unannounceAnnounce _) => some .unannounce

/-- The entry that a notice leaves. -/
def Notice.update (slot : Option PendingUpdate) : Notice → Option PendingUpdate
  | .announce _ b => some (OriginConsumerState.announced b slot)
  | .reannounce _ b => some (OriginConsumerState.announced b (unannounced slot))
  | .unannounce _ => unannounced slot

/-- What an entry delivers first. -/
def PendingUpdate.first : PendingUpdate → Option BroadcastConsumer
  | announce b => some b
  | unannounce => none
  | unannounceAnnounce _ => none

/-- What an entry leaves pending. -/
def PendingUpdate.rest : PendingUpdate → Option PendingUpdate
  | announce _ => none
  | unannounce => none
  | unannounceAnnounce b => some (announce b)

variable {b : BroadcastConsumer}

namespace OriginConsumerState

variable {s : OriginConsumerState} {path p : Path}

theorem lookup_applyAnnounce : (s.applyAnnounce path b).lookup p =
    if p = path then some (announced b (s.lookup path)) else s.lookup p := by
  by_cases hp : p = path
  · rw [hp, if_pos rfl, applyAnnounce, AList.lookup_insert]
  · rw [if_neg hp, applyAnnounce, AList.lookup_insert_ne hp]

theorem lookup_applyUnannounce : (s.applyUnannounce path).lookup p =
    if p = path then unannounced (s.lookup path) else s.lookup p := by
  unfold applyUnannounce
  by_cases hp : p = path
  · subst hp
    split <;> rename_i hl <;> simp [hl, unannounced]
  · split <;> simp [hp]

/-- A notice changes the entry of its own path only. -/
theorem lookup_apply (notice : Notice) : (s.apply path notice).lookup p =
    if p = path then notice.update (s.lookup path) else s.lookup p := by
  by_cases hp : p = path
  · subst hp
    cases notice <;>
      simp [apply, Notice.update, lookup_applyAnnounce, lookup_applyUnannounce]
  · cases notice <;>
      simp [apply, lookup_applyAnnounce, lookup_applyUnannounce, hp]

/-- The lowest path is pending. -/
theorem lookup_of_min? (h : s.keys.min? = some path) : ∃ update, s.lookup path = some update :=
  isSome_iff_exists.mp (AList.lookup_isSome.mpr (List.min?_mem h))

/-- Nothing is taken exactly when nothing is pending. -/
theorem take_eq_none_iff : s.take = none ↔ ∀ p, s.lookup p = none := by
  constructor
  · intro h p
    cases hmin : s.keys.min? with
    | none =>
      have hnil : s.keys = [] := List.min?_eq_none_iff.mp hmin
      exact AList.lookup_eq_none.mpr (fun hp => List.not_mem_nil (hnil ▸ AList.mem_keys.mp hp))
    | some path =>
      obtain ⟨update, hu⟩ := lookup_of_min? hmin
      rw [take, hmin, bind_some, hu] at h
      cases update <;> cases h
  · intro h
    cases hmin : s.keys.min? with
    | none => rw [take, hmin, bind_none]
    | some path => rw [take, hmin, bind_some, h path]

/-- Taking an update delivers the first half of the entry of its path and leaves the
second. -/
theorem lookup_take {u : OriginAnnounce} {s' : OriginConsumerState}
    (h : s.take = some (u, s')) :
    ∃ update, s.lookup u.1 = some update ∧ u.2 = update.first ∧
      ∀ p, s'.lookup p = if p = u.1 then update.rest else s.lookup p := by
  obtain ⟨path, hmin, h⟩ := bind_eq_some_iff.mp h
  obtain ⟨update, hu⟩ := lookup_of_min? hmin
  rw [hu] at h
  cases update <;> obtain ⟨rfl, rfl⟩ := Prod.mk.inj (some.inj h) <;>
    refine ⟨_, hu, rfl, fun p => ?_⟩ <;> rcases eq_or_ne p path with rfl | hp <;>
    simp_all [PendingUpdate.rest]

end OriginConsumerState

/-! ### Coherence of one path -/

/-- What a consumer was shown, the pending update and the active route agree. -/
def Coherent (seen current : Option BroadcastConsumer) : Option PendingUpdate → Prop
  | none => seen = current
  | some (.announce b) => seen = none ∧ current = some b
  | some .unannounce => seen.isSome ∧ current = none
  | some (.unannounceAnnounce b) => seen.isSome ∧ current = some b

section Coherent

variable {seen current new : Option BroadcastConsumer} {slot : Option PendingUpdate}

theorem Coherent.announced (h : Coherent seen none slot) :
    Coherent seen (some b) (some (OriginConsumerState.announced b slot)) := by
  match slot, h with
  | none, h => exact ⟨h, rfl⟩
  | some (.announce _), ⟨h, _⟩ => exact ⟨h, rfl⟩
  | some .unannounce, ⟨h, _⟩ => exact ⟨h, rfl⟩
  | some (.unannounceAnnounce _), ⟨h, _⟩ => exact ⟨h, rfl⟩

theorem Coherent.unannounced (h : Coherent seen (some b) slot) :
    Coherent seen none (unannounced slot) := by
  match slot, h with
  | none, h => exact ⟨by rw [h, isSome_some], rfl⟩
  | some (.announce _), ⟨h, _⟩ => exact h
  | some (.unannounceAnnounce _), ⟨h, _⟩ => exact ⟨h, rfl⟩

/-- The update owed for a change of the active route keeps coherence. -/
theorem Coherent.notice {full : Path} {notice : Notice} (h : Coherent seen current slot)
    (hn : noticeFor full current new = some notice) :
    Coherent seen new (notice.update slot) := by
  match current, new with
  | none, none => simp [noticeFor] at hn
  | none, some b =>
    obtain rfl := some.inj hn
    exact h.announced
  | some a, none =>
    obtain rfl := some.inj hn
    exact h.unannounced
  | some a, some b =>
    simp only [noticeFor] at hn
    split_ifs at hn
    obtain rfl := some.inj hn
    exact h.unannounced.announced

/-- Delivering an update keeps coherence, and the update differs in kind from what was
shown before. -/
theorem Coherent.take {update : PendingUpdate} (h : Coherent seen current (some update)) :
    Coherent update.first current update.rest ∧ seen.isSome ≠ update.first.isSome := by
  cases update with
  | announce b =>
    obtain ⟨rfl, rfl⟩ := h
    exact ⟨rfl, by simp [PendingUpdate.first]⟩
  | unannounce =>
    obtain ⟨hs, rfl⟩ := h
    exact ⟨rfl, by simp [PendingUpdate.first, hs]⟩
  | unannounceAnnounce b =>
    obtain ⟨hs, rfl⟩ := h
    exact ⟨⟨rfl, rfl⟩, by simp [PendingUpdate.first, hs]⟩

end Coherent

end HermitMoq
