import HermitMoq.OriginSystem

/-!
# Telling the Listeners of a Leaf

An update of a leaf goes to the consumers registered at the leaf and above it. Under their
own roots, with every consumer listed once, the notification tells each of them exactly
once and does not panic.
-/

namespace HermitMoq

open List OriginConsumer

/-! ### Telling the listeners -/

/-- A consumer after a notification. -/
def OriginConsumer.tell (notice : Notice) (c : OriginConsumer) : OriginConsumer :=
  match notice.path.stripPrefix c.root with
  | some path => { c with pending := c.pending.apply path notice }
  | none => c

variable {c : OriginConsumer} {notice : Notice}

@[simp] theorem OriginConsumer.root_tell : (c.tell notice).root = c.root := by
  unfold tell
  split <;> rfl

@[simp] theorem OriginConsumer.nodes_tell : (c.tell notice).nodes = c.nodes := by
  unfold tell
  split <;> rfl

@[simp] theorem OriginConsumer.dropped_tell :
    (c.tell notice).dropped = c.dropped := by
  unfold tell
  split <;> rfl

@[simp] theorem OriginConsumer.received_tell :
    (c.tell notice).received = c.received := by
  unfold tell
  split <;> rfl

/-- The consumers after the ones named by `ids` were told. -/
def tellAll (notice : Notice) (ids : List ConsumerId) (consumers : List OriginConsumer) :
    List OriginConsumer :=
  consumers.mapIdx fun i c => if i ∈ ids then c.tell notice else c

variable {consumers : List OriginConsumer}

/-- Exactly the consumers of the list are told. -/
theorem getElem?_tellAll {ids : List ConsumerId} {i : ConsumerId} :
    (tellAll notice ids consumers)[i]? =
      consumers[i]?.map fun c => if i ∈ ids then c.tell notice else c :=
  getElem?_mapIdx

/-- A notification of listeners under their own roots, all of them above the path, tells
each of them once. -/
theorem notifyAll_eq {ls : List (ConsumerId × Path)}
    (hnd : (ls.map Prod.fst).Nodup) (hroot : ∀ l ∈ ls, ∀ c, consumers[l.1]? = some c → c.root = l.2)
    (hpre : ∀ l ∈ ls, l.2.parts <+: notice.path.parts) :
    notifyAll notice consumers ls = .ok (tellAll notice (ls.map Prod.fst) consumers) := by
  induction ls generalizing consumers with
  | nil =>
    have hid : tellAll notice [] consumers = consumers := by
      refine ext_getElem? fun i => ?_
      rw [getElem?_tellAll]
      simp
    rw [notifyAll, map_nil, hid]
  | cons l ls ih =>
    obtain ⟨id, root⟩ := l
    obtain ⟨hid, hnd⟩ := nodup_cons.mp hnd
    obtain ⟨path, hpath⟩ : ∃ path, notice.path.stripPrefix root = some path := by
      rw [← Option.isSome_iff_exists, ← Path.hasPrefix_eq_isSome, Path.hasPrefix_iff]
      exact hpre (id, root) mem_cons_self
    have hone : notifyOne notice consumers (id, root) =
        .ok (consumers.modify id (·.tell notice)) := by
      simp only [notifyOne, hpath]
      refine congrArg Except.ok (ext_getElem? fun i => ?_)
      simp only [getElem?_modify, Option.map_eq_map]
      cases hc : consumers[i]? with
      | none => rfl
      | some c =>
        by_cases hi : id = i
        · have hr := hroot (id, root) mem_cons_self c (hi ▸ hc)
          simp [hi, OriginConsumer.tell, hr, hpath]
        · simp [hi]
    have hrest : ∀ l ∈ ls, ∀ c, (consumers.modify id (·.tell notice))[l.1]? = some c →
        c.root = l.2 := by
      intro l hl c hc
      simp only [getElem?_modify, Option.map_eq_map, Option.map_eq_some_iff] at hc
      obtain ⟨c₀, hc₀, rfl⟩ := hc
      have hr := hroot l (mem_cons_of_mem _ hl) c₀ hc₀
      split_ifs
      · rw [root_tell, hr]
      · exact hr
    rw [notifyAll, hone]
    simp only []
    rw [ih hnd hrest fun l hl => hpre l (mem_cons_of_mem _ hl)]
    refine congrArg Except.ok (ext_getElem? fun i => ?_)
    simp only [getElem?_tellAll, getElem?_modify, Option.map_eq_map, Option.map_map,
      map_cons, mem_cons]
    cases hc : consumers[i]? with
    | none => rfl
    | some c =>
      by_cases hi : i = id
      · subst hi
        simp [hid]
      · by_cases hm : i ∈ ls.map Prod.fst
        · simp [hm, Ne.symm hi]
        · simp [hm, hi, Ne.symm hi]

/-! ### The consumers after an update -/

/-- The consumers after the update of a leaf, if there is one. -/
def told (tree : OriginTree) (leaf : ℕ) (notice : Option Notice)
    (consumers : List OriginConsumer) : List OriginConsumer :=
  match notice with
  | none => consumers
  | some notice => tellAll notice ((tree.listeners leaf).map Prod.fst) consumers

/-- Two consumers with the same registration and the same log. -/
structure OriginConsumer.SameHandle (c c' : OriginConsumer) : Prop where
  root : c'.root = c.root
  nodes : c'.nodes = c.nodes
  dropped : c'.dropped = c.dropped
  received : c'.received = c.received

section Told

variable (tree : OriginTree) (leaf : ℕ) (notice : Option Notice) {i : ConsumerId}

/-- A consumer that is told keeps its handle. -/
theorem told_of_some (hc : consumers[i]? = some c) :
    ∃ c', (told tree leaf notice consumers)[i]? = some c' ∧ c.SameHandle c' := by
  cases notice with
  | none => exact ⟨c, hc, rfl, rfl, rfl, rfl⟩
  | some a =>
    rw [told, getElem?_tellAll, hc, Option.map_some]
    refine ⟨_, rfl, ?_⟩
    split_ifs
    · exact ⟨c.root_tell, c.nodes_tell, c.dropped_tell, c.received_tell⟩
    · exact ⟨rfl, rfl, rfl, rfl⟩

variable {tree leaf notice} in
/-- No consumer comes from being told. -/
theorem told_some (hc : (told tree leaf notice consumers)[i]? = some c) :
    ∃ c₀, consumers[i]? = some c₀ ∧ c₀.SameHandle c := by
  have hlen : (told tree leaf notice consumers).length = consumers.length := by
    cases notice with
    | none => rfl
    | some a => exact length_mapIdx
  obtain ⟨hlt, -⟩ := List.getElem?_eq_some_iff.mp hc
  have hc₀ : consumers[i]? = some consumers[i] := getElem?_eq_getElem (hlen ▸ hlt)
  obtain ⟨_, hc', heq⟩ := told_of_some tree leaf notice hc₀
  rw [hc] at hc'
  exact ⟨_, hc₀, Option.some.inj hc' ▸ heq⟩

end Told

end HermitMoq
