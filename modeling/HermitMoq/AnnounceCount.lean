import HermitMoq.IetfSubscriber

/-!
# Reference Counts of Announcements

A broadcast is announced while a `PUBLISH`, a `PUBLISH_NAMESPACE` or a `NAMESPACE` for its path
is in effect, and its entry counts them. `start_publish` makes its other entries before it
announces the broadcast and inserts the track. When one of these two fails, the message is
answered with an error, and the clean up that would remove the entries does not run.
-/

namespace HermitMoq

open List IetfSubscriber Function Option

namespace IetfSubscriber

/-- The paths of the announcements that are in effect: accepted publishes, open
`PUBLISH_NAMESPACE` messages, and `NAMESPACE` messages that are not done. -/
def announcements (s : IetfSubscriber) : List Path :=
  s.publishing.map Prod.snd ++ (s.announcing ++ s.namespaces)

/-- The number of announcements of a path that are in effect. -/
def live (s : IetfSubscriber) (path : Path) : ℕ :=
  s.announcements.count path

/-- A publish is refused for its id or its alias, or it is accepted: there is an origin, and
the name of the track is free. -/
def CleanPublish (s : IetfSubscriber) (msg : PublishMessage) : Prop :=
  (s.subscribes msg.requestId ≠ none ∨ s.aliases msg.trackAlias ≠ none) ∨
    s.origin = true ∧ msg.trackName ∉ s.lookup msg.trackNamespace

/-- Publishes are clean, and `NAMESPACE_DONE` ends a `NAMESPACE`. -/
def CleanMessage (s : IetfSubscriber) : SubscriberOp → Prop
  | .recvPublish msg => s.CleanPublish msg
  | .recvNamespaceDone path => path ∈ s.namespaces
  | _ => True

/-- Messages are clean, and our subscriptions register under ids of their own. -/
def Clean (s : IetfSubscriber) (op : SubscriberOp) : Prop :=
  s.Vacant op ∧ s.CleanMessage op

instance CleanPublish.decidable (s : IetfSubscriber) (msg : PublishMessage) :
    Decidable (s.CleanPublish msg) :=
  inferInstanceAs (Decidable (_ ∨ _))

instance CleanMessage.decidable (s : IetfSubscriber) :
    (op : SubscriberOp) → Decidable (s.CleanMessage op)
  | .recvPublish msg => inferInstanceAs (Decidable (s.CleanPublish msg))
  | .recvNamespaceDone path => inferInstanceAs (Decidable (path ∈ s.namespaces))
  | .endPublish _ | .recvPublishNamespace _ | .endPublishNamespace _ | .recvNamespace _
  | .subscribeTrack _ _ | .evictTrack _ _ | .nextRequestId | .openFailed _ | .subscribe _
  | .subscribeOk _ _ | .subscribeError _ | .unsubscribe _ | .release _ => isTrue trivial

instance Clean.decidable (s : IetfSubscriber) (op : SubscriberOp) : Decidable (s.Clean op) :=
  inferInstanceAs (Decidable (_ ∧ _))

/-! ### Counts -/

/-- The entry that counts a number of announcements. -/
def counted (n : ℕ) : Option ℕ :=
  if n = 0 then none else some n

theorem counted_succ (n : ℕ) : counted (n + 1) = some (n + 1) := by
  rw [counted, if_neg n.succ_ne_zero]

theorem counted_ne_none {n : ℕ} : counted n ≠ none ↔ 0 < n := by
  cases n with
  | zero => simp [counted]
  | succ n => simp [counted_succ]

/-- The counts of broadcasts are these numbers. -/
def Counts (bs : Broadcasts) (n : Path → ℕ) : Prop :=
  ∀ path, (bs path).map BroadcastState.count = counted (n path)

variable {s : IetfSubscriber} {bs bs' : Broadcasts} {n : Path → ℕ} {path : Path} {name : String}

/-- The numbers with one more at a path. -/
def more (n : Path → ℕ) (path : Path) : Path → ℕ :=
  fun q => n q + if path = q then 1 else 0

theorem Counts.update (h : Counts bs n) {e : Option BroadcastState} {n' : Path → ℕ}
    (he : e.map BroadcastState.count = counted (n' path)) (hn : ∀ q, q ≠ path → n' q = n q) :
    Counts (Function.update bs path e) n' := by
  intro q
  rcases eq_or_ne q path with rfl | hne
  · rw [update_self, he]
  · rw [update_of_ne hne, hn q hne, h q]

/-- A started announcement is counted. -/
theorem Counts.startAnnounce (h : Counts s.broadcasts n) (hok : s.startAnnounce path = .ok bs) :
    Counts bs (more n path) := by
  have hcount := h path
  have hother : ∀ q, q ≠ path → more n path q = n q :=
    fun q hne => by rw [more, if_neg hne.symm, Nat.add_zero]
  have hself : more n path path = n path + 1 := by rw [more, if_pos rfl]
  rw [IetfSubscriber.startAnnounce] at hok
  split_ifs at hok
  split at hok
  next b hb =>
    cases hok
    rw [hb, map_some, counted] at hcount
    split_ifs at hcount
    refine h.update ?_ hother
    rw [hself, counted_succ, map_some, ← some.inj hcount]
  next hb =>
    cases hok
    rw [hb, map_none, counted] at hcount
    split_ifs at hcount with hzero
    refine h.update ?_ hother
    rw [hself, hzero, counted_succ, map_some]

/-- A stopped announcement is no longer counted. -/
theorem Counts.unannounced (h : Counts s.broadcasts (more n path)) (ho : s.origin = true) :
    Counts (s.unannounced path) n := by
  have hcount := h path
  have hother : ∀ q, q ≠ path → n q = more n path q :=
    fun q hne => by rw [more, if_neg hne.symm, Nat.add_zero]
  rw [more, if_pos rfl, counted_succ] at hcount
  obtain ⟨_, hb, hn⟩ := map_eq_some_iff.mp hcount
  rw [IetfSubscriber.unannounced, stopAnnounce, if_pos ho, hb]
  refine h.update ?_ hother
  rw [hn, Nat.add_sub_cancel, counted]
  split_ifs <;> rfl

/-- The names in the lookup do not count. -/
theorem Counts.setTracks (h : Counts bs n) {b : BroadcastState} (hb : bs path = some b)
    (names : List String) : Counts (Function.update bs path (some ⟨names, b.count⟩)) n := by
  refine h.update ?_ fun _ _ => rfl
  rw [← h path, hb]
  rfl

theorem Counts.insertTrack (h : Counts bs n) (hok : insertTrack bs path name = .ok bs') :
    Counts bs' n := by
  rw [IetfSubscriber.insertTrack] at hok
  split at hok
  next b hb =>
    split_ifs at hok
    cases hok
    exact h.setTracks hb _
  next => cases hok

theorem Counts.updateTracks (h : Counts s.broadcasts n) (path : Path)
    (f : List String → List String) : Counts (s.updateTracks path f).broadcasts n := by
  refine h.update ?_ fun _ _ => rfl
  rw [← h path, Option.map_map]
  rfl

/-! ### Failed publishes -/

/-- If a publish is answered with an error, the maps are as they were. -/
def KeepsOnError (s : IetfSubscriber) (msg : PublishMessage) : Prop :=
  ∀ e, (s.step (.recvPublish msg)).2 = .error e →
    (s.step (.recvPublish msg)).1.subscribes = s.subscribes ∧
    (s.step (.recvPublish msg)).1.aliases = s.aliases ∧
    (s.step (.recvPublish msg)).1.publishes = s.publishes ∧
    (s.step (.recvPublish msg)).1.broadcasts = s.broadcasts

/-- Exactly the clean publishes leave the maps as they were when they fail. -/
theorem keepsOnError_iff (s : IetfSubscriber) (msg : PublishMessage) :
    s.KeepsOnError msg ↔ s.CleanPublish msg := by
  rcases s.startPublish_cases msg with ⟨hoccupied, h⟩ | ⟨⟨hid, halias⟩, h⟩
  · refine iff_of_true (fun e _ => ?_) (.inl hoccupied)
    rw [step, h]
    exact ⟨rfl, rfl, rfl, rfl⟩
  · have hfree : ¬ (s.subscribes msg.requestId ≠ none ∨ s.aliases msg.trackAlias ≠ none) := by
      rintro (h | h)
      · exact h hid
      · exact h halias
    rcases h with ⟨hclean, _, bs, -, -, h⟩ | ⟨hclean, _, e, h⟩
    · refine iff_of_true (fun e he => ?_) (.inr hclean)
      rw [step, h] at he
      cases he
    · refine iff_of_false (fun hkeeps => ?_) fun hc => hc.elim hfree hclean
      -- the track is still registered
      have hentry := congrFun (hkeeps e (by rw [step, h])).1 msg.requestId
      rw [step, h, hid] at hentry
      have hself : (s.addPublish msg).subscribes msg.requestId =
          some ⟨s.nextTrack, some msg.trackAlias⟩ := update_self ..
      cases hself.symm.trans hentry

/-! ### The invariant -/

variable {s' : IetfSubscriber} {op : SubscriberOp}

theorem live_eq_more (h : s'.announcements.Perm (path :: s.announcements)) :
    s'.live = more s.live path := by
  funext q
  rw [live, h.count_eq, count_cons, more, live]
  simp only [beq_iff_eq]

/-- The entries count the announcements, and there are none without an origin. -/
def Balanced (s : IetfSubscriber) : Prop :=
  Counts s.broadcasts s.live ∧ ∀ path, 0 < s.live path → s.origin = true

theorem Balanced.startAnnounce (hs : s.Balanced) (hok : s.startAnnounce path = .ok bs)
    (hann : s'.announcements.Perm (path :: s.announcements)) (ho : s'.origin = s.origin)
    (hbs : Counts bs (more s.live path) → Counts s'.broadcasts (more s.live path)) :
    s'.Balanced := by
  refine ⟨live_eq_more hann ▸ hbs (hs.1.startAnnounce hok), fun _ _ => ho.trans ?_⟩
  rw [IetfSubscriber.startAnnounce] at hok
  split_ifs at hok with horigin
  exact horigin

theorem Balanced.unannounced (hs : s.Balanced)
    (hann : s.announcements.Perm (path :: s'.announcements)) (ho : s'.origin = s.origin)
    (hbs : s'.broadcasts = s.unannounced path) : s'.Balanced := by
  have hlive := live_eq_more hann
  have horigin : s.origin = true := by
    refine hs.2 path ?_
    rw [hlive, more, if_pos rfl]
    exact Nat.succ_pos _
  refine ⟨?_, fun _ _ => ho.trans horigin⟩
  rw [hbs]
  exact Counts.unannounced (hlive ▸ hs.1) horigin

/-- The **invariant**: tasks have their entries, every accepted publish has its path in the
map, and broadcasts are counted. -/
structure Counted (s : IetfSubscriber) : Prop where
  owned : s.Owned
  published : ∀ x ∈ s.publishing, s.publishes x.1 = some x.2
  balanced : s.Balanced

/-- A step keeps the paths of accepted publishes. -/
theorem Counted.published_step (hs : s.Counted) :
    ∀ x ∈ (s.step op).1.publishing, (s.step op).1.publishes x.1 = some x.2 := by
  have hp := hs.published
  cases op with
  | recvPublish msg =>
    rcases s.step_recvPublish msg with h | ⟨hid, -, _, _, h, hpubs⟩ <;> rw [h]
    · exact hp
    · intro x hx
      have hother : x ∈ s.publishing →
          update s.publishes msg.requestId (some msg.trackNamespace) x.1 = some x.2 := by
        intro hx
        have hne : x.1 ≠ msg.requestId := fun heq => Held.publishing hs.owned x hx (heq ▸ hid)
        rw [update_of_ne hne]
        exact hp x hx
      rcases hpubs with rfl | rfl
      · exact hother hx
      · rcases mem_cons.mp hx with rfl | hx
        · exact update_self ..
        · exact hother hx
  | endPublish i =>
    rw [step]
    split
    next id path hi =>
      obtain ⟨-, hid⟩ := Held.erasePublish hs.owned hi
      intro x hx
      have hne : x.1 ≠ id := fun heq =>
        hid (mem_append_right _ (heq ▸ mem_map_of_mem hx))
      refine (update_of_ne hne ..).trans ?_
      exact hp x (mem_of_mem_eraseIdx hx)
    next => exact hp
  | recvPublishNamespace path | recvNamespace path | endPublishNamespace i | subscribe i
  | subscribeOk i trackAlias | subscribeError i | unsubscribe i | release i =>
    rw [step]
    split <;> exact hp
  | recvNamespaceDone path | subscribeTrack path name | evictTrack path name | nextRequestId
  | openFailed i => exact hp

/-- A clean step keeps the counts. -/
theorem Counted.balanced_step (hs : s.Counted) (hop : s.CleanMessage op) :
    (s.step op).1.Balanced := by
  have hb := hs.balanced
  cases op with
  | recvPublish msg =>
    rw [step]
    rcases s.startPublish_cases msg with ⟨-, h⟩ | ⟨⟨hid, halias⟩, h⟩
    · rw [h]
      exact hb
    rcases h with ⟨-, _, bs, hok, hinsert, h⟩ | ⟨hclean, -⟩
    · rw [h]
      exact hb.startAnnounce hok (List.Perm.refl _) rfl fun hc => hc.insertTrack hinsert
    · rcases hop with (hne | hne) | hclean'
      · exact absurd hid hne
      · exact absurd halias hne
      · exact absurd hclean' hclean
  | endPublish i =>
    rw [step]
    split
    next id path hi =>
      have hpath := hs.published _ (mem_of_getElem? hi)
      refine hb.unannounced (((perm_cons_eraseIdx hi).map Prod.snd).append_right _) rfl ?_
      simp only [cleanUpPublish, hpath]
    next => exact hb
  | recvPublishNamespace path =>
    rw [step]
    split
    next bs hok => exact hb.startAnnounce hok perm_middle rfl id
    next => exact hb
  | endPublishNamespace i =>
    rw [step]
    split
    next path hi =>
      refine hb.unannounced ?_ rfl rfl
      refine List.Perm.trans (List.Perm.append_left _ ?_) perm_middle
      exact (perm_cons_eraseIdx hi).append_right _
    next => exact hb
  | recvNamespace path =>
    rw [step]
    split
    next bs hok =>
      refine hb.startAnnounce hok ?_ rfl id
      exact (List.Perm.append_left _ perm_middle).trans perm_middle
    next => exact hb
  | recvNamespaceDone path =>
    refine hb.unannounced ?_ rfl rfl
    refine List.Perm.trans (List.Perm.append_left _ ?_) perm_middle
    refine List.Perm.trans (List.Perm.append_left _ ?_) perm_middle
    exact perm_cons_erase hop
  | subscribeTrack path name | evictTrack path name => exact ⟨hb.1.updateTracks path _, hb.2⟩
  | subscribe i | subscribeOk i trackAlias | subscribeError i | unsubscribe i | release i =>
    rw [step]
    split <;> exact hb
  | nextRequestId | openFailed i => exact hb

theorem counted_new (origin : Bool) (first : RequestId) : (new origin first).Counted where
  owned := ⟨by simp [new], by simp [new], nodup_nil⟩
  published := by simp [new]
  balanced := ⟨fun _ => rfl, fun _ h => absurd h (lt_irrefl 0)⟩

/-- **Announcements are counted.** In every run of clean messages a path has an entry exactly if
an announcement of it is in effect, and the publishes that leave the maps unchanged when they
fail are the clean ones. -/
theorem announce_count (origin : Bool) (first : RequestId) (ops : List SubscriberOp)
    (hm : Meets tick Clean (new origin first) ops) :
    ∃ s, run tick (new origin first) ops = .ok s ∧
      (∀ path, s.broadcasts path ≠ none ↔ 0 < s.live path) ∧
      ∀ msg, s.KeepsOnError msg ↔ s.CleanPublish msg := by
  obtain ⟨s, hrun, hs⟩ := hm.invariant (I := Counted)
    (fun hs hop => ⟨_, rfl, hs.owned.step hop.1, hs.published_step, hs.balanced_step hop.2⟩)
    (counted_new origin first)
  refine ⟨s, hrun, fun path => ?_, s.keepsOnError_iff⟩
  rw [← counted_ne_none, ← hs.balanced.1 path, Ne, Ne, map_eq_none_iff]

/-- A broadcast is announced by a publish and by a namespace, and the publish ends. -/
theorem announce_count_namespace :
    let a := Path.new ['a']
    ∃ s, run tick (new true 0) [.recvNamespace a, .recvPublish ⟨1, a, "x", 10⟩,
        .recvPublish ⟨1, a, "y", 11⟩, .endPublish 0] = .ok s ∧
      s.live a = 1 ∧ s.broadcasts a ≠ none := by
  intro a
  obtain ⟨s, hrun, h, -⟩ := announce_count true 0 [.recvNamespace a, .recvPublish ⟨1, a, "x", 10⟩,
    .recvPublish ⟨1, a, "y", 11⟩, .endPublish 0] (by decide)
  refine ⟨s, hrun, ?_⟩
  cases hrun
  exact ⟨by decide, (h a).mpr (by decide)⟩

/-- A publish of a track that the broadcast has is answered with an error and leaves its
entries. After the other publish has ended, the broadcast is still announced. -/
theorem duplicate_track_leaks :
    let a := Path.new ['a']
    ∃ s, run tick (new true 0) [.recvPublish ⟨1, a, "x", 10⟩] = .ok s ∧
      (s.step (.recvPublish ⟨3, a, "x", 11⟩)).2 = .error .duplicate ∧
      (s.subscribes 3 = none ∧ s.aliases 11 = none ∧ s.publishes 3 = none ∧
        s.broadcasts a = some ⟨["x"], 1⟩) ∧
      ∃ s', (s.step (.recvPublish ⟨3, a, "x", 11⟩)).1 = s' ∧
        (s'.subscribes 3 = some ⟨1, some 11⟩ ∧ s'.aliases 11 = some 3 ∧
          s'.publishes 3 = some a ∧ s'.broadcasts a = some ⟨["x"], 2⟩) ∧
        (s'.step (.endPublish 0)).1.live a = 0 ∧
        (s'.step (.endPublish 0)).1.broadcasts a = some ⟨["x"], 1⟩ := by
  intro a
  refine ⟨_, rfl, by decide, by decide, _, rfl, by decide, by decide, by decide⟩

end IetfSubscriber

end HermitMoq
