import HermitMoq.IetfSubscriber

/-!
# Routing of Groups by Alias

A group names its track by the alias that the peer has assigned to it. The subscriber learns an
alias from `SUBSCRIBE_OK`, which a group can overtake. `recv_group` then takes the alias for a
request id, because our own publisher uses the request id as the alias.

The peer's assignment is a parameter of the run. Once a subscription is confirmed, its alias
leads to its track until it ends. An alias that is not mapped leads to the track that is
registered under this number, if there is one, and this is the only way to a wrong track.
-/

namespace HermitMoq

open List IetfSubscriber Function Option

namespace IetfSubscriber

/-- The aliases that the peer assigns, pairwise distinct. -/
def Distinct (assign : RequestId → Option TrackAlias) : Prop :=
  ∀ {r r' a}, assign r = some a → assign r' = some a → r = r'

/-- The alias that a message gives to a track, with the request id of the track. -/
def names (s : IetfSubscriber) : SubscriberOp → Option (RequestId × TrackAlias)
  | .recvPublish msg => some (msg.requestId, msg.trackAlias)
  | .subscribeOk i trackAlias => s.subscribing[i]?.map fun x => (x.1, trackAlias)
  | _ => none

/-- The peer confirms subscriptions and publishes tracks with the aliases it assigns. -/
def Honest (assign : RequestId → Option TrackAlias) (s : IetfSubscriber) (op : SubscriberOp) :
    Prop :=
  s.Vacant op ∧ ∀ x ∈ s.names op, assign x.1 = some x.2

instance Honest.decidable (assign : RequestId → Option TrackAlias) (s : IetfSubscriber)
    (op : SubscriberOp) : Decidable (s.Honest assign op) :=
  inferInstanceAs (Decidable (s.Vacant op ∧ ∀ x ∈ s.names op, assign x.1 = some x.2))

/-! ### The ids of tasks -/

/-- The ids of our subscriptions, from `next_request_id` to the removal of the alias. -/
def taskIds (s : IetfSubscriber) : List RequestId :=
  s.opening ++ (s.subscribing.map Prod.fst ++ s.releasing.map Prod.fst)

/-- The ids of our subscriptions are distinct, and smaller than the next one. -/
structure Numbered (s : IetfSubscriber) : Prop where
  nodup : s.taskIds.Nodup
  below : ∀ id ∈ s.taskIds, id < s.requestIdNext

variable {s s' : IetfSubscriber}

theorem Numbered.of_subperm (hs : s.Numbered) (hids : s'.taskIds.Subperm s.taskIds)
    (hnext : s'.requestIdNext = s.requestIdNext) : s'.Numbered := by
  refine ⟨?_, fun id hid => hnext ▸ hs.below id (hids.subset hid)⟩
  obtain ⟨_, hperm, hsub⟩ := hids
  exact hperm.nodup_iff.mp (hs.nodup.sublist hsub)

/-- Every step keeps our ids distinct. -/
theorem Numbered.step (hs : s.Numbered) (op : SubscriberOp) : (s.step op).1.Numbered := by
  cases op with
  | recvPublish msg =>
    rcases s.step_recvPublish msg with h | ⟨-, -, _, _, h, -⟩ <;> rw [h]
    · exact hs
    · exact ⟨hs.nodup, hs.below⟩
  | nextRequestId =>
    refine ⟨nodup_cons.mpr ⟨fun hmem => ?_, hs.nodup⟩, fun id hid => ?_⟩
    · exact absurd (hs.below _ hmem) (lt_irrefl _)
    · rcases mem_cons.mp hid with rfl | hid
      · exact Nat.lt_add_of_pos_right two_pos
      · exact Nat.lt_add_right 2 (hs.below id hid)
  | openFailed i =>
    refine hs.of_subperm (List.Sublist.subperm ?_) rfl
    exact List.Sublist.append_right (eraseIdx_sublist ..) _
  | subscribe i =>
    rw [IetfSubscriber.step]
    split
    next id hi =>
      refine hs.of_subperm (List.Perm.subperm ?_) rfl
      refine perm_middle.trans ?_
      exact (perm_cons_eraseIdx hi).symm.append_right _
    next => exact hs
  | subscribeOk i trackAlias =>
    rw [IetfSubscriber.step]
    split
    next id track hi =>
      refine hs.of_subperm (List.Perm.subperm ?_) rfl
      refine List.Perm.append_left _ (List.Perm.append_right _ ?_)
      exact ((perm_cons_eraseIdx hi).map Prod.fst).symm
    next => exact hs
  | subscribeError i =>
    rw [IetfSubscriber.step]
    split
    next id track hi =>
      refine hs.of_subperm (List.Sublist.subperm ?_) rfl
      refine List.Sublist.append_left (List.Sublist.append_right ?_ _) _
      exact (eraseIdx_sublist ..).map Prod.fst
    next => exact hs
  | unsubscribe i =>
    rw [IetfSubscriber.step]
    split
    next id track trackAlias hi =>
      refine hs.of_subperm (List.Perm.subperm (List.Perm.append_left _ ?_)) rfl
      refine perm_middle.trans ?_
      exact ((perm_cons_eraseIdx hi).map Prod.fst).symm.append_right _
    next => exact hs
  | release i =>
    rw [IetfSubscriber.step]
    split
    next id trackAlias hi =>
      refine hs.of_subperm (List.Sublist.subperm ?_) rfl
      refine List.Sublist.append_left (List.Sublist.append_left ?_ _) _
      exact (eraseIdx_sublist ..).map Prod.fst
    next => exact hs
  | endPublish i | recvPublishNamespace path | recvNamespace path | endPublishNamespace i =>
    rw [IetfSubscriber.step]
    split <;> exact ⟨hs.nodup, hs.below⟩
  | recvNamespaceDone path | subscribeTrack path name | evictTrack path name =>
    exact ⟨hs.nodup, hs.below⟩

/-! ### The ids of the peer -/

/-- A `PUBLISH` has an id of the peer, that is not of the parity of ours. -/
def PeerId (first : RequestId) : SubscriberOp → Prop
  | .recvPublish msg => msg.requestId % 2 ≠ first % 2
  | _ => True

/-- Our ids have the parity of the first one, and of this parity only our subscriptions have
tracks. -/
structure Parity (first : RequestId) (s : IetfSubscriber) : Prop where
  next : s.requestIdNext % 2 = first % 2
  opening : ∀ id ∈ s.opening, id % 2 = first % 2
  entry : ∀ id, s.subscribes id ≠ none → id % 2 = first % 2 → id ∈ s.subscribing.map Prod.fst

variable {first : RequestId}

section

variable (hp : s.Parity first)

include hp

/-- A subscription of ours that opens its stream has no track. -/
theorem Parity.vacant (hn : s.Numbered) (op : SubscriberOp) : s.Vacant op := by
  intro id hid
  cases op with
  | subscribe i =>
    have hmem : id ∈ s.opening := mem_of_getElem? hid
    by_contra hentry
    have hours := hp.entry id hentry (hp.opening id hmem)
    exact (nodup_append'.mp hn.nodup).2.2 hmem (mem_append_left _ hours)
  | _ => cases hid

/-- A change of one entry changes nothing for the others. -/
theorem Parity.entry_update {id id' : RequestId} {e : Option TrackState}
    (hid : update s.subscribes id e id' ≠ none) (hne : id' ≠ id) (hparity : id' % 2 = first % 2) :
    id' ∈ s.subscribing.map Prod.fst := by
  rw [update_of_ne hne] at hid
  exact hp.entry id' hid hparity

/-- A track of ours leaves together with its task. -/
theorem Parity.entry_erase {i : ℕ} {x : RequestId × TrackState} (hi : s.subscribing[i]? = some x)
    {id : RequestId} (hid : update s.subscribes x.1 none id ≠ none)
    (hparity : id % 2 = first % 2) : id ∈ (s.subscribing.eraseIdx i).map Prod.fst := by
  have hne : id ≠ x.1 := fun heq => hid (heq ▸ update_self ..)
  have hmem := ((perm_cons_eraseIdx hi).map Prod.fst).subset (hp.entry_update hid hne hparity)
  exact (mem_cons.mp hmem).resolve_left hne

/-- Every step keeps the parity of our ids. -/
theorem Parity.step {op : SubscriberOp} (hop : PeerId first op) : (s.step op).1.Parity first := by
  cases op with
  | recvPublish msg =>
    rcases s.step_recvPublish msg with h | ⟨-, -, _, _, h, -⟩ <;> rw [h]
    · exact hp
    · refine ⟨hp.next, hp.opening, fun id hid hparity => ?_⟩
      have hne : id ≠ msg.requestId := fun heq => hop (heq ▸ hparity)
      exact hp.entry_update hid hne hparity
  | endPublish i =>
    rw [IetfSubscriber.step]
    split
    next id _ hi =>
      refine ⟨hp.next, hp.opening, fun id' hid => hp.entry id' fun hnone => hid ?_⟩
      exact (update_apply ..).trans (by rw [hnone, ite_self])
    next => exact hp
  | nextRequestId =>
    refine ⟨(Nat.add_mod_right _ 2).trans hp.next, fun id hid => ?_, hp.entry⟩
    rcases mem_cons.mp hid with rfl | hid
    · exact hp.next
    · exact hp.opening id hid
  | openFailed i => exact ⟨hp.next, fun id hid => hp.opening id (mem_of_mem_eraseIdx hid), hp.entry⟩
  | subscribe i =>
    rw [IetfSubscriber.step]
    split
    next id hi =>
      refine ⟨hp.next, fun id' hid => hp.opening id' (mem_of_mem_eraseIdx hid),
        fun id' hid hparity => mem_cons.mpr ?_⟩
      rcases eq_or_ne id' id with rfl | hne
      · exact .inl rfl
      · exact .inr (hp.entry_update hid hne hparity)
    next => exact hp
  | subscribeOk i trackAlias =>
    rw [IetfSubscriber.step]
    split
    next id track hi =>
      refine ⟨hp.next, hp.opening, fun id' hid hparity => ?_⟩
      have hperm := (perm_cons_eraseIdx hi).map Prod.fst
      rcases eq_or_ne id' id with rfl | hne
      · exact mem_cons_self
      · exact hperm.subset (hp.entry_update hid hne hparity)
    next => exact hp
  | subscribeError i | unsubscribe i =>
    rw [IetfSubscriber.step]
    split
    next hi => exact ⟨hp.next, hp.opening, fun _ hid hparity => hp.entry_erase hi hid hparity⟩
    next => exact hp
  | release i | recvPublishNamespace path | recvNamespace path | endPublishNamespace i =>
    rw [IetfSubscriber.step]
    split <;> exact ⟨hp.next, hp.opening, hp.entry⟩
  | recvNamespaceDone path | subscribeTrack path name | evictTrack path name =>
    exact ⟨hp.next, hp.opening, hp.entry⟩

end

/-- **Our ids are vacant** in a run in which the peer publishes, if at all, under ids of its own. -/
theorem meets_vacant (origin : Bool) {ops : List SubscriberOp}
    (hops : ∀ op ∈ ops, PeerId first op) : Meets tick Vacant (new origin first) ops := by
  have hrun : ∀ {s : IetfSubscriber}, s.Parity first → s.Numbered → Meets tick Vacant s ops := by
    induction ops with
    | nil => exact fun _ _ => trivial
    | cons op ops ih =>
      intro s hp hn
      exact ⟨hp.vacant hn op, ih (fun op hop => hops op (mem_cons_of_mem _ hop))
        (hp.step (hops op mem_cons_self)) (hn.step op)⟩
  exact hrun ⟨rfl, nofun, fun _ h => absurd rfl h⟩ ⟨nodup_nil, nofun⟩

/-! ### The map of aliases -/

/-- The map of aliases agrees with the assignment. The alias of a registered track, or of a
track that is being released, is mapped, and a track that is being released has left. -/
structure Mapped (assign : RequestId → Option TrackAlias)
    (entries : RequestId → Option TrackState) (aliases : TrackAlias → Option RequestId)
    (rel : List (RequestId × TrackAlias)) : Prop where
  assigned : ∀ {a r}, aliases a = some r → assign r = some a
  mapped : ∀ {r t a}, entries r = some t → t.trackAlias = some a → aliases a = some r
  releasing : ∀ x ∈ rel, aliases x.2 = some x.1
  left : ∀ x ∈ rel, ∀ t, entries x.1 = some t → t.trackAlias ≠ some x.2

variable {assign : RequestId → Option TrackAlias} {entries : RequestId → Option TrackState}
  {aliases : TrackAlias → Option RequestId} {rel : List (RequestId × TrackAlias)}
  {id : RequestId} {a : TrackAlias} {op : SubscriberOp}

section

variable (h : Mapped assign entries aliases rel)

include h

/-- An entry without an alias takes the place of another one. -/
theorem Mapped.update {e : Option TrackState} (he : ∀ t ∈ e, t.trackAlias = none) :
    Mapped assign (Function.update entries id e) aliases rel := by
  have hentry : ∀ {r t a}, Function.update entries id e r = some t → t.trackAlias = some a →
      entries r = some t := by
    intro r t a hr ha
    rcases eq_or_ne r id with rfl | hne
    · rw [update_self] at hr
      rw [he t hr] at ha
      cases ha
    · rwa [update_of_ne hne] at hr
  exact ⟨h.assigned, fun hr ha => h.mapped (hentry hr ha) ha, h.releasing,
    fun x hx t hr ha => h.left x hx t (hentry hr ha) ha⟩

/-- An alias that is in use no more is removed. -/
theorem Mapped.unmap
    (hentries : ∀ r t, entries r = some t → t.trackAlias ≠ some a) (hrel : ∀ x ∈ rel, x.2 ≠ a) :
    Mapped assign entries (Function.update aliases a none) rel where
  assigned {a' r} hr := by
    rcases eq_or_ne a' a with rfl | hne
    · rw [update_self] at hr
      cases hr
    · rw [update_of_ne hne] at hr
      exact h.assigned hr
  mapped {r t a'} hr ha := by
    have hne : a' ≠ a := fun heq => hentries r t hr (heq ▸ ha)
    rw [update_of_ne hne]
    exact h.mapped hr ha
  releasing x hx := by
    rw [update_of_ne (hrel x hx)]
    exact h.releasing x hx
  left := h.left

/-- A track gets the alias that the peer has assigned to it. -/
theorem Mapped.setAlias (hd : Distinct assign)
    (ha : assign id = some a) (hrel : ∀ x ∈ rel, x.1 ≠ id) (track : Broadcast.TrackId) :
    Mapped assign (Function.update entries id (some ⟨track, some a⟩))
      (Function.update aliases a (some id)) rel where
  assigned {a' r} hr := by
    rcases eq_or_ne a' a with rfl | hne
    · rw [update_self] at hr
      exact some.inj hr ▸ ha
    · rw [update_of_ne hne] at hr
      exact h.assigned hr
  mapped {r t a'} hr ha' := by
    rcases eq_or_ne r id with rfl | hne
    · rw [update_self] at hr
      obtain rfl := some.inj hr
      obtain rfl := some.inj ha'
      exact update_self ..
    · rw [update_of_ne hne] at hr
      have hr' := h.mapped hr ha'
      -- another track cannot have this alias, as the peer assigns it only once
      have hne' : a' ≠ a := fun heq => hne (hd (h.assigned hr') (heq ▸ ha))
      rwa [update_of_ne hne']
  releasing x hx := by
    have hx' := h.releasing x hx
    have hne : x.2 ≠ a := fun heq => hrel x hx (hd (h.assigned hx') (heq ▸ ha))
    rwa [update_of_ne hne]
  left x hx t ht := by
    rw [update_of_ne (hrel x hx)] at ht
    exact h.left x hx t ht

/-- A confirmed track leaves, and its alias is to be released. -/
theorem Mapped.leave {t : TrackState} (hid : entries id = some t) (ha : t.trackAlias = some a) :
    Mapped assign (Function.update entries id none) aliases ((id, a) :: rel) := by
  have hrest : Mapped assign (Function.update entries id none) aliases rel :=
    h.update (by simp)
  refine ⟨h.assigned, hrest.mapped, fun x hx => ?_, fun x hx t' ht' => ?_⟩
  · rcases mem_cons.mp hx with rfl | hx
    · exact h.mapped hid ha
    · exact h.releasing x hx
  · rcases mem_cons.mp hx with rfl | hx
    · rw [update_self] at ht'
      cases ht'
    · exact hrest.left x hx t' ht'

end

/-- A track is removed with its alias. -/
theorem Mapped.remove (h : Mapped assign s.subscribes s.aliases rel) (id : RequestId) :
    Mapped assign (s.removeTrack id).subscribes (s.removeTrack id).aliases rel := by
  have hrest : Mapped assign (Function.update s.subscribes id none) s.aliases rel :=
    h.update (by simp)
  rw [removeTrack]
  split
  next a hbind =>
    obtain ⟨t, ht, ha⟩ := bind_eq_some_iff.mp hbind
    have hid := h.mapped ht ha
    refine hrest.unmap (fun r t' ht' ha' => ?_) fun x hx heq => ?_
    · -- the alias leads to the removed track alone
      obtain rfl : id = r := some.inj (hid.symm.trans (hrest.mapped ht' ha'))
      rw [update_self] at ht'
      cases ht'
    · subst heq
      obtain rfl : id = x.1 := some.inj (hid.symm.trans (h.releasing x hx))
      exact h.left x hx t ht ha
  next => exact hrest

/-- An alias is released. -/
theorem Mapped.release (h : Mapped assign entries aliases rel) (hrel : (rel.map Prod.fst).Nodup)
    {i : ℕ} (hi : rel[i]? = some (id, a)) :
    Mapped assign entries (Function.update aliases a none) (rel.eraseIdx i) := by
  have hmem : (id, a) ∈ rel := mem_of_getElem? hi
  have hid : aliases a = some id := h.releasing _ hmem
  have hrest : Mapped assign entries aliases (rel.eraseIdx i) :=
    ⟨h.assigned, h.mapped, fun x hx => h.releasing x (mem_of_mem_eraseIdx hx),
      fun x hx => h.left x (mem_of_mem_eraseIdx hx)⟩
  refine hrest.unmap (fun r t ht ha => ?_) fun x hx heq => ?_
  · obtain rfl : id = r := some.inj (hid.symm.trans (h.mapped ht ha))
    exact h.left _ hmem t ht ha
  · subst heq
    obtain rfl : id = x.1 := some.inj (hid.symm.trans (hrest.releasing x hx))
    -- two tasks that release share no id
    have hnodup := ((perm_cons_eraseIdx hi).map Prod.fst).nodup_iff.mp hrel
    exact (nodup_cons.mp hnodup).1 (mem_map_of_mem hx)

/-! ### Runs -/

/-- The **invariant** of the maps and the tasks. -/
structure Routed (assign : RequestId → Option TrackAlias) (s : IetfSubscriber) : Prop where
  owned : s.Owned
  numbered : s.Numbered
  mapped : Mapped assign s.subscribes s.aliases s.releasing

/-- A registered subscription is not releasing. -/
theorem Numbered.not_releasing (hs : s.Numbered) {x : RequestId × TrackState}
    (hx : x ∈ s.subscribing) : ∀ y ∈ s.releasing, y.1 ≠ x.1 := by
  intro y hy heq
  have hnodup := (nodup_append'.mp hs.nodup).2.1
  exact (nodup_append'.mp hnodup).2.2 (mem_map_of_mem hx)
    (heq ▸ mem_map_of_mem hy)

/-- A step keeps the map of aliases. -/
theorem Routed.mapped_step (hs : s.Routed assign) (hd : Distinct assign)
    (hop : s.Honest assign op) :
    Mapped assign (s.step op).1.subscribes (s.step op).1.aliases (s.step op).1.releasing := by
  have hm := hs.mapped
  cases op with
  | recvPublish msg =>
    rcases s.step_recvPublish msg with h | ⟨-, halias, _, _, h, -⟩ <;> rw [h]
    · exact hm
    · have ha : assign msg.requestId = some msg.trackAlias := hop.2 _ rfl
      refine hm.setAlias hd ha (fun x hx heq => ?_) _
      -- an alias that is not yet released is taken
      have hx' := hm.releasing x hx
      rw [← heq, hm.assigned hx'] at ha
      rw [some.inj ha, halias] at hx'
      cases hx'
  | endPublish i =>
    rw [step]
    split
    next id path hi => exact hm.remove id
    next => exact hm
  | subscribe i =>
    rw [step]
    split
    next id hi => exact hm.update (by simp)
    next => exact hm
  | subscribeOk i trackAlias =>
    rw [step]
    split
    next id track hi =>
      have hmem := mem_of_getElem? hi
      have ha : assign id = some trackAlias := hop.2 (id, trackAlias) (by simp [names, hi])
      simp only [Held.subscribing hs.owned _ hmem, map_some]
      exact hm.setAlias hd ha (hs.numbered.not_releasing hmem) track
    next => exact hm
  | subscribeError i =>
    rw [step]
    split
    next id track hi => exact hm.update (by simp)
    next => exact hm
  | unsubscribe i =>
    rw [step]
    split
    next id track trackAlias hi =>
      exact hm.leave (Held.subscribing hs.owned _ (mem_of_getElem? hi)) rfl
    next => exact hm
  | release i =>
    rw [step]
    split
    next id trackAlias hi =>
      have hnodup := (nodup_append'.mp hs.numbered.nodup).2.1
      exact hm.release (nodup_append'.mp hnodup).2.1 hi
    next => exact hm
  | recvPublishNamespace path | recvNamespace path | endPublishNamespace i =>
    rw [step]
    split <;> exact hm
  | recvNamespaceDone path | subscribeTrack path name | evictTrack path name | nextRequestId
  | openFailed i => exact hm

theorem Routed.step (hs : s.Routed assign) (hd : Distinct assign)
    (hop : s.Honest assign op) : (s.step op).1.Routed assign :=
  ⟨hs.owned.step hop.1, hs.numbered.step op, hs.mapped_step hd hop⟩

theorem routed_new (assign : RequestId → Option TrackAlias) (origin : Bool) (first : RequestId) :
    (new origin first).Routed assign where
  owned := ⟨by simp [new], by simp [new], nodup_nil⟩
  numbered := ⟨nodup_nil, by simp [taskIds, new]⟩
  mapped := ⟨by simp [new], by simp [new], by simp [new], by simp [new]⟩

/-! ### Groups -/

/-- The alias of another track is taken for the request id of a registered one. -/
def Misread (s : IetfSubscriber) (owner : RequestId) (a : TrackAlias) : Prop :=
  s.aliases a = none ∧ a ≠ owner ∧ s.subscribes a ≠ none

/-- A group is created in the track that is registered under an id. -/
def Reaches (s : IetfSubscriber) (a : TrackAlias) (id : RequestId) : Prop :=
  ∃ t, s.subscribes id = some t ∧ s.recvGroup a = .ok (id, t.producer)

/-- A group reaches the track whose id the alias leads to, if there is one. -/
theorem recvGroup_cases (s : IetfSubscriber) (a : TrackAlias) :
    s.Reaches a ((s.aliases a).getD a) ∨
      s.subscribes ((s.aliases a).getD a) = none ∧ s.recvGroup a = .error .notFound := by
  cases h : s.subscribes ((s.aliases a).getD a) with
  | none => exact .inr ⟨rfl, by rw [recvGroup, h]⟩
  | some t => exact .inl ⟨t, h, by rw [recvGroup, h]⟩

/-- **Groups are routed by alias.** In every run of a peer that assigns distinct aliases, a
group reaches the track that its alias is assigned to, or none, unless the alias is misread. A
misread alias reaches the track of the request with its number. Aliases of confirmed
subscriptions are never misread. -/
theorem group_routing (origin : Bool) (first : RequestId)
    (assign : RequestId → Option TrackAlias) (hd : Distinct assign) (ops : List SubscriberOp)
    (hm : Meets tick (Honest assign) (new origin first) ops) :
    ∃ s, run tick (new origin first) ops = .ok s ∧
      (∀ owner a, assign owner = some a →
        (¬ s.Misread owner a → s.Reaches a owner ∨ s.recvGroup a = .error .notFound) ∧
        (s.Misread owner a → s.Reaches a a)) ∧
      ∀ x ∈ s.subscribing, s.subscribes x.1 = some x.2 ∧
        ∀ a, x.2.trackAlias = some a →
          assign x.1 = some a ∧ s.recvGroup a = .ok (x.1, x.2.producer) := by
  obtain ⟨s, hrun, hs⟩ := hm.invariant (I := Routed assign)
    (fun {s op} hs hop => ⟨(s.step op).1, rfl, hs.step hd hop⟩) (routed_new assign origin first)
  refine ⟨s, hrun, fun owner a howner => ⟨fun hmis => ?_, fun hmis => ?_⟩, fun x hx => ?_⟩
  · rcases s.recvGroup_cases a with h | ⟨-, h⟩
    · refine .inl ?_
      cases ha : s.aliases a with
      | some r =>
        rw [ha] at h
        obtain rfl : r = owner := hd (hs.mapped.assigned ha) howner
        exact h
      | none =>
        rw [ha] at h
        obtain ⟨t, ht, hgroup⟩ := h
        -- the alias is taken for an id, which here is the right one
        have heq : a = owner := by
          by_contra hne
          refine hmis ⟨ha, hne, fun hnone => ?_⟩
          rw [getD_none, hnone] at ht
          cases ht
        subst heq
        exact ⟨t, ht, hgroup⟩
    · exact .inr h
  · obtain ⟨ha, -, hentry⟩ := hmis
    rcases s.recvGroup_cases a with h | ⟨hnone, -⟩
    · rwa [ha] at h
    · rw [ha] at hnone
      exact absurd hnone hentry
  · have hentry := Held.subscribing hs.owned x hx
    refine ⟨hentry, fun a ha => ?_⟩
    have hmap := hs.mapped.mapped hentry ha
    refine ⟨hs.mapped.assigned hmap, ?_⟩
    rw [recvGroup, hmap, getD_some, hentry]

/-- A peer that assigns the alias 2 to request 0 and the alias 5 to request 2. -/
def crossed : RequestId → Option TrackAlias
  | 0 => some 2
  | 2 => some 5
  | _ => none

theorem distinct_crossed : Distinct crossed := by
  intro r r' a h h'
  unfold crossed at h h'
  split at h <;> cases h <;> split at h' <;> first | rfl | exact absurd h' (by decide)

/-- We subscribe to two tracks, both are confirmed, and a group of each arrives. -/
theorem group_routing_confirmed :
    ∃ s, run tick (new true 0) [.nextRequestId, .nextRequestId, .subscribe 1, .subscribe 0,
        .subscribeOk 1 2, .subscribeOk 1 5] = .ok s ∧
      s.recvGroup 2 = .ok (0, 0) ∧ s.recvGroup 5 = .ok (2, 1) := by
  obtain ⟨s, hrun, -, hconfirmed⟩ := group_routing true 0 crossed distinct_crossed
    [.nextRequestId, .nextRequestId, .subscribe 1, .subscribe 0, .subscribeOk 1 2,
      .subscribeOk 1 5] (by decide)
  refine ⟨s, hrun, ?_⟩
  cases hrun
  exact ⟨((hconfirmed (0, ⟨0, some 2⟩) (by decide)).2 2 rfl).2,
    ((hconfirmed (2, ⟨1, some 5⟩) (by decide)).2 5 rfl).2⟩

/-- A group with the alias 2 overtakes the `SUBSCRIBE_OK` that assigns it to request 0, and
reaches the track of request 2. -/
theorem overtaking_group_is_misrouted :
    Distinct crossed ∧
    Meets tick (Honest crossed) (new true 0) ([.nextRequestId, .nextRequestId, .subscribe 1,
      .subscribe 0] ++ [.subscribeOk 1 2, .subscribeOk 1 5]) ∧
    crossed 0 = some 2 ∧
    ∃ s, run tick (new true 0) [.nextRequestId, .nextRequestId, .subscribe 1, .subscribe 0] =
        .ok s ∧
      s.recvGroup 2 = .ok (2, 1) := by
  refine ⟨distinct_crossed, by decide, rfl, _, rfl, ?_⟩
  decide

end IetfSubscriber

end HermitMoq
