import HermitMoq.Kio
import HermitMoq.Runs

/-!
# The Invariant of a Channel

A poll that answered `Pending` has left its waiter in a list. It stays there until it is
dropped or woken, however the slots around it are reused, and as long as it is there its
question is still open, or the step that answered it belongs to an operation that is about
to wake it (`Sound`). The second case only occurs for the consumer counter, which is not
behind the mutex.
-/

namespace HermitMoq

open List Channel Bool

namespace Channel

variable {α : Type*}

/-- Whether the answer to a question is there, while the channel is open. -/
def answered (c : Channel α) : Question α → Bool
  | .value ready => ready c.state.value
  | .closed => false
  | .used => c.counted .used
  | .unused => c.counted .unused

/-- A poll with this question would answer `Pending`. -/
def IsPending (c : Channel α) (question : Question α) : Prop :=
  c.state.closed = false ∧ c.answered question = false

/-- An operation that changed whether there are consumers is about to wake their waiters. -/
def WakeDue (c : Channel α) : Prop :=
  KioTask.consume ∈ c.tasks ∨ KioTask.dropConsumer ∈ c.tasks

/-- A question is open, or the operation that answered it is about to wake its waiter. -/
def Unanswered (c : Channel α) (question : Question α) : Prop :=
  c.IsPending question ∨
    (question.topic = .consumer ∧ c.state.closed = false ∧ c.WakeDue)

/-- The bookkeeping of a channel: the counter counts the handles and those about to come,
unfinished polls borrow live waiters, and live registrations are in their lists. -/
structure Kept (c : Channel α) : Prop where
  counts : c.consumers = c.consumerHandles + c.tasks.count .consume
  borrowed : ∀ {w}, KioTask.pollUsed w ∈ c.tasks ∨ KioTask.pollUnused w ∈ c.tasks → w ∈ c.alive
  alive : ∀ r ∈ c.waiting, r.1 ∈ c.alive
  listed : ∀ r ∈ c.waiting, r.1 ∈ (c.state.waiters r.2.topic).entries

/-- The **invariant**. -/
structure Sound (c : Channel α) : Prop extends Kept c where
  unanswered : ∀ r ∈ c.waiting, c.Unanswered r.2

variable {c c' : Channel α} {w : WaiterId} {topic : Topic} {question : Question α}

theorem Sound.new (value : α) : (new value).Sound where
  counts := rfl
  borrowed h := by simp [Channel.new] at h
  alive r h := absurd h not_mem_nil
  listed r h := absurd h not_mem_nil
  unanswered r h := absurd h not_mem_nil

/-! ### Registering and draining -/

theorem waiters_register (t : Topic) : (c.register w topic).state.waiters t =
    if t = topic then (c.state.waiters topic).register (fun e => decide (e ∈ c.alive)) w
    else c.state.waiters t :=
  Function.update_apply _ _ _ _

theorem Kept.register (hk : c.Kept) (w : WaiterId) (topic : Topic) :
    (c.register w topic).Kept where
  counts := hk.counts
  borrowed := hk.borrowed
  alive := hk.alive
  listed r hr := by
    have hlisted := hk.listed r hr
    rw [waiters_register]
    split_ifs with ht
    · exact WaiterList.mem_probe _ (ht ▸ hlisted) (decide_eq_true (hk.alive r hr))
    · exact hlisted

theorem Sound.register (hs : c.Sound) (w : WaiterId) (topic : Topic) :
    (c.register w topic).Sound :=
  ⟨hs.toKept.register w topic, hs.unanswered⟩

theorem mem_register : w ∈ ((c.register w topic).state.waiters topic).entries := by
  rw [waiters_register, if_pos rfl]
  exact WaiterList.mem_probe_self _

/-- A poll answers `Pending`. -/
theorem Sound.pending (hs : c.Sound) (hw : w ∈ c.alive)
    (hl : w ∈ (c.state.waiters question.topic).entries) (hq : c.IsPending question) :
    (c.pending w question).next.Sound where
  counts := hs.counts
  borrowed := hs.borrowed
  alive r hr := by
    rcases mem_cons.mp hr with rfl | hr
    · exact hw
    · exact hs.alive r hr
  listed r hr := by
    rcases mem_cons.mp hr with rfl | hr
    · exact hl
    · exact hs.listed r hr
  unanswered r hr := by
    rcases mem_cons.mp hr with rfl | hr
    · exact .inl hq
    · exact hs.unanswered r hr

variable {topics : Topic → Bool} {reply : Reply} {o : Outcome α}

/-- Draining lists after a change: the questions of the other lists must still be open. -/
theorem Kept.drain (hk : c.Kept)
    (hu : ∀ r ∈ c.waiting, topics r.2.topic = false → c.Unanswered r.2) :
    (c.drain topics reply).next.Sound where
  counts := hk.counts
  borrowed := hk.borrowed
  alive r hr := hk.alive r (mem_filter.mp hr).1
  listed r hr := by
    obtain ⟨hr, ht⟩ := mem_filter.mp hr
    rw [not_eq_true'] at ht
    rw [Channel.drain]
    simp only [ht]
    exact hk.listed r hr
  unanswered r hr := by
    obtain ⟨hr, ht⟩ := mem_filter.mp hr
    rw [not_eq_true'] at ht
    exact hu r hr ht

/-- Draining a list wakes everyone alive in it. -/
theorem mem_woken_drain {t : Topic} (hl : w ∈ (c.state.waiters t).entries)
    (ha : w ∈ c.alive) (ht : topics t = true) : w ∈ (c.drain topics reply).woken := by
  refine mem_flatMap.mpr ⟨t, mem_filter.mpr ⟨?_, ht⟩, ?_⟩
  · cases t <;> simp
  · exact mem_filter.mpr ⟨hl, decide_eq_true ha⟩

theorem Kept.mem_woken (hk : c.Kept) {r : WaiterId × Question α}
    (hr : r ∈ c.waiting) (ht : topics r.2.topic = true) : r.1 ∈ (c.drain topics reply).woken :=
  mem_woken_drain (hk.listed r hr) (hk.alive r hr) ht

/-! ### One step -/

/-- What a step owes to those who wait: they are woken or wait on, and a closing or a change
of the consumers between some and none has its wake-ups. -/
structure Faithful (c : Channel α) (o : Outcome α) : Prop where
  sound : o.next.Sound
  stays : ∀ r ∈ c.waiting, r ∈ o.next.waiting ∨ r.1 ∈ o.woken ∨ r.1 ∉ o.next.alive
  closing : c.state.closed = false → o.next.state.closed = true → ∀ r ∈ c.waiting, r.1 ∈ o.woken
  transition : ¬ (o.next.consumers = 0 ↔ c.consumers = 0) → o.next.WakeDue

/-- A step that drains nothing. -/
theorem faithful_of_next (hs : o.next.Sound) (hclosed : o.next.state.closed = c.state.closed)
    (hw : ∀ r ∈ c.waiting, r ∈ o.next.waiting ∨ r.1 ∉ o.next.alive)
    (ht : (o.next.consumers = 0 ↔ c.consumers = 0) ∨ o.next.WakeDue) : Faithful c o where
  sound := hs
  stays r hr := (hw r hr).imp_right .inr
  closing h h' := by
    rw [hclosed, h] at h'
    cases h'
  transition h := ht.resolve_left h

theorem faithful_done (hs : c.Sound) (reply : Reply) : Faithful c (c.done reply) :=
  faithful_of_next hs rfl (fun _ hr => Or.inl hr) (Or.inl Iff.rfl)

/-- A step that drains some lists, after a change of the value, the counters or the flag. -/
theorem faithful_drain (hk : c'.Kept) (hwaiting : c'.waiting = c.waiting)
    (hu : ∀ r ∈ c.waiting, topics r.2.topic = false → c'.Unanswered r.2)
    (hclose : c.state.closed = false → c'.state.closed = true → ∀ t, topics t = true)
    (hcons : c'.consumers = c.consumers) : Faithful c (c'.drain topics reply) where
  sound := hk.drain (hwaiting ▸ hu)
  stays r hr := by
    rw [← hwaiting] at hr
    cases ht : topics r.2.topic with
    | false =>
      refine .inl (mem_filter.mpr ⟨hr, ?_⟩)
      rw [ht]
      rfl
    | true => exact .inr (.inl (hk.mem_woken hr ht))
  closing h h' r hr := hk.mem_woken (hwaiting ▸ hr) (hclose h h' _)
  transition h := absurd (by rw [drain, hcons]) h

/-- A poll registers and answers `Pending`. -/
theorem faithful_pending (question : Question α) (hs : c.Sound) (hw : w ∈ c.alive)
    (hq : c.IsPending question) :
    Faithful c ((c.register w question.topic).pending w question) :=
  faithful_of_next ((hs.register w _).pending hw mem_register hq) rfl
    (fun _ hr => Or.inl (mem_cons_of_mem _ hr)) (Or.inl Iff.rfl)

theorem apply_of_unmodified {guard : Guard α} (hm : guard.modified = false) :
    c.apply guard = c := by
  obtain ⟨hmodify, hclose⟩ := or_eq_false_iff.mp hm
  rw [Option.isSome_eq_false_iff, Option.isNone_iff_eq_none] at hmodify
  rw [Channel.apply, hmodify, hclose, Option.elim_none, Bool.or_false]

/-- The use of a guard. -/
theorem faithful_release (hs : c.Sound) (guard : Guard α) :
    Faithful c (c.release guard) := by
  cases hm : guard.modified with
  | true =>
    rw [release, if_pos hm]
    have hk : (c.apply guard).Kept := ⟨hs.counts, hs.borrowed, hs.alive, hs.listed⟩
    refine faithful_drain hk rfl (fun r hr ht => ?_) (fun _ hclosed t => ?_) rfl
    · -- a question of another list does not depend on the value
      rw [or_eq_false_iff, beq_eq_false_iff_ne] at ht
      obtain ⟨htopic, hclosed⟩ := ht
      rcases hs.unanswered r hr with ⟨-, hanswered⟩ | ⟨hcons, -, hdue⟩
      · refine .inl ⟨hclosed, ?_⟩
        cases hq : r.2 with
        | value ready => exact absurd (by rw [hq]; rfl) htopic
        | closed => rfl
        | used => rwa [hq] at hanswered
        | unused => rwa [hq] at hanswered
      · exact .inr ⟨hcons, hclosed, hdue⟩
    · exact or_eq_true_iff.mpr (.inr hclosed)
  | false =>
    rw [release, if_neg (by simp [hm]), apply_of_unmodified hm]
    exact faithful_done hs .ready

/-- The polls for consumers. -/
theorem faithful_registerCounted (hs : c.Sound) (hw : w ∈ c.alive) (hopen : c.state.closed = false)
    (hq : question = .used ∨ question = .unused) :
    Faithful c (c.registerCounted w question) := by
  have htopic : question.topic = .consumer := by
    rcases hq with rfl | rfl <;> rfl
  rw [registerCounted]
  cases hcount : (c.register w .consumer).counted question with
  | true =>
    exact faithful_of_next (hs.register w _) rfl (fun _ hr => Or.inl hr) (Or.inl Iff.rfl)
  | false =>
    rw [if_neg Bool.false_ne_true, ← htopic]
    refine faithful_pending question hs hw ⟨hopen, ?_⟩
    rcases hq with rfl | rfl <;> exact hcount

theorem faithful_pollCounted (hs : c.Sound) (hw : w ∈ c.alive)
    (hq : question = .used ∨ question = .unused) : Faithful c (c.pollCounted w question) := by
  rw [pollCounted]
  split_ifs with hclosed
  · exact faithful_done hs .closed
  · exact faithful_done hs .ready
  · exact faithful_registerCounted hs hw (eq_false_iff.mpr hclosed) hq

theorem faithful_weakPollCounted (hs : c.Sound) (hw : w ∈ c.alive)
    (hq : question = .used ∨ question = .unused) : Faithful c (c.weakPollCounted w question) := by
  rw [weakPollCounted]
  split_ifs with hclosed
  · exact faithful_done hs .closed
  · exact faithful_registerCounted hs hw (eq_false_iff.mpr hclosed) hq

/-! ### Counters and unfinished operations -/

theorem counted_used_eq_false : c.counted .used = false ↔ c.consumers = 0 := by
  simp [counted]

theorem counted_unused_eq_false : c.counted .unused = false ↔ c.consumers ≠ 0 := by
  simp [counted]

/-- A step that changes counters, handles and tasks only. -/
theorem faithful_counts (hs : c.Sound)
    (hsame : o.next.state = c.state ∧ o.next.alive = c.alive ∧ o.next.waiting = c.waiting)
    (hcounts : o.next.consumers = o.next.consumerHandles + o.next.tasks.count .consume)
    (hborrowed : ∀ {w}, KioTask.pollUsed w ∈ o.next.tasks ∨ KioTask.pollUnused w ∈ o.next.tasks →
      w ∈ c.alive)
    (hdue : o.next.WakeDue ∨
      (o.next.consumers = 0 ↔ c.consumers = 0) ∧ (c.WakeDue → o.next.WakeDue)) :
    Faithful c o := by
  obtain ⟨hstate, halive, hwaiting⟩ := hsame
  refine faithful_of_next ⟨⟨hcounts, fun h => halive ▸ hborrowed h, ?_, ?_⟩, ?_⟩
    (by rw [hstate]) (fun r hr => .inl (hwaiting ▸ hr)) ?_
  · rw [halive, hwaiting]
    exact hs.alive
  · rw [hstate, hwaiting]
    exact hs.listed
  · rw [hwaiting]
    intro r hr
    rcases hs.unanswered r hr with ⟨hopen, hanswered⟩ | ⟨htopic, hopen, hwake⟩
    · rw [← hstate] at hopen
      cases hq : r.2 with
      | value ready =>
        rw [hq, answered, ← hstate] at hanswered
        exact .inl ⟨hopen, hanswered⟩
      | closed => exact .inl ⟨hopen, rfl⟩
      | used =>
        rw [hq, answered, counted_used_eq_false] at hanswered
        rcases hdue with hdue | ⟨hiff, -⟩
        · exact .inr ⟨rfl, hopen, hdue⟩
        · exact .inl ⟨hopen, counted_used_eq_false.mpr (hiff.mpr hanswered)⟩
      | unused =>
        rw [hq, answered, counted_unused_eq_false] at hanswered
        rcases hdue with hdue | ⟨hiff, -⟩
        · exact .inr ⟨rfl, hopen, hdue⟩
        · exact .inl ⟨hopen, counted_unused_eq_false.mpr fun h => hanswered (hiff.mp h)⟩
    · refine .inr ⟨htopic, hstate ▸ hopen, ?_⟩
      rcases hdue with hdue | ⟨-, hdue⟩
      · exact hdue
      · exact hdue hwake
  · rcases hdue with hdue | ⟨hiff, -⟩
    · exact .inr hdue
    · exact .inl hiff

/-- An operation suspends itself. -/
theorem faithful_suspend (hs : c.Sound) {task : KioTask}
    (hsame : c'.state = c.state ∧ c'.alive = c.alive ∧ c'.waiting = c.waiting)
    (htasks : c'.tasks = c.tasks)
    (hcounts : c'.consumers = c'.consumerHandles + (c.tasks ++ [task]).count .consume)
    (hborrowed : ∀ {w}, task = .pollUsed w ∨ task = .pollUnused w → w ∈ c.alive)
    (hdue : (c'.consumers = 0 ↔ c.consumers = 0) ∨ task = .consume ∨ task = .dropConsumer) :
    Faithful c (c'.suspend task) := by
  have hnext : (c'.suspend task).next.tasks = c.tasks ++ [task] := by
    rw [suspend, done, htasks]
  refine faithful_counts hs hsame ?_ ?_ ?_
  · rw [hnext]
    exact hcounts
  · intro w hw
    simp only [hnext, mem_append, mem_singleton] at hw
    rcases hw with (hw | rfl) | (hw | rfl)
    · exact hs.borrowed (.inl hw)
    · exact hborrowed (.inl rfl)
    · exact hs.borrowed (.inr hw)
    · exact hborrowed (.inr rfl)
  · rw [WakeDue, hnext]
    rcases hdue with hiff | rfl | rfl
    · refine .inr ⟨hiff, fun hwake => ?_⟩
      exact hwake.imp (mem_append_left _) (mem_append_left _)
    · exact .inl (.inl (by simp))
    · exact .inl (.inr (by simp))

section Finish

variable {i : ℕ} {task : KioTask}

/-- Taking up an operation that has not touched the consumers. -/
theorem Sound.take (hs : c.Sound) (ht : c.tasks[i]? = some task) (hc : task ≠ .consume)
    (hd : task ≠ .dropConsumer) : ({ c with tasks := c.tasks.eraseIdx i } : Channel α).Sound := by
  have hperm := perm_cons_eraseIdx ht
  refine (faithful_counts (o := ⟨{ c with tasks := c.tasks.eraseIdx i }, .none, []⟩) hs
    ⟨rfl, rfl, rfl⟩ ?_ (fun hw => ?_) (Or.inr ⟨Iff.rfl, fun hwake => ?_⟩)).sound
  · rw [hs.counts, hperm.count_eq, count_cons_of_ne hc]
  · exact hs.borrowed (hw.imp mem_of_mem_eraseIdx mem_of_mem_eraseIdx)
  · rw [WakeDue, hperm.mem_iff, hperm.mem_iff, mem_cons, mem_cons] at hwake
    exact hwake.imp (fun h => h.resolve_left hc.symm) fun h => h.resolve_left hd.symm

/-- Waking the waiters for consumers. -/
theorem faithful_notify (hs : c.Sound) (handles : ℕ)
    (hcounts : c.consumers = handles + (c.tasks.eraseIdx i).count .consume) (reply : Reply) :
    Faithful c (({ c with
      tasks := c.tasks.eraseIdx i, consumerHandles := handles } : Channel α).drain
        (fun t => t == .consumer) reply) := by
  have hk : ({ c with
      tasks := c.tasks.eraseIdx i, consumerHandles := handles } : Channel α).Kept := by
    refine ⟨hcounts, fun hw => ?_, hs.alive, hs.listed⟩
    exact hs.borrowed (hw.imp mem_of_mem_eraseIdx mem_of_mem_eraseIdx)
  refine faithful_drain hk rfl (fun r hr htopic => ?_) (fun hopen hclosed => ?_) rfl
  · rw [beq_eq_false_iff_ne] at htopic
    rcases hs.unanswered r hr with hpending | ⟨hcons, -⟩
    · refine .inl ⟨hpending.1, ?_⟩
      have hanswered := hpending.2
      cases hq : r.2 with
      | value ready => rwa [hq] at hanswered
      | closed => rfl
      | used | unused => exact absurd (by rw [hq]; rfl) htopic
    · exact absurd hcons htopic
  · rw [hopen] at hclosed
    cases hclosed

/-- Finishing an operation. -/
theorem faithful_finish (hs : c.Sound) (ht : c.tasks[i]? = some task) :
    Faithful c (({ c with tasks := c.tasks.eraseIdx i } : Channel α).finish task) := by
  have hperm := perm_cons_eraseIdx ht
  have hmem : task ∈ c.tasks := hperm.mem_iff.mpr mem_cons_self
  cases task with
  | pollUsed w =>
    have hf := faithful_weakPollCounted (hs.take ht (by simp) (by simp))
      (hs.borrowed (.inl hmem)) (.inl rfl)
    exact ⟨hf.sound, hf.stays, hf.closing, hf.transition⟩
  | pollUnused w =>
    have hf := faithful_weakPollCounted (hs.take ht (by simp) (by simp))
      (hs.borrowed (.inr hmem)) (.inr rfl)
    exact ⟨hf.sound, hf.stays, hf.closing, hf.transition⟩
  | consume =>
    refine faithful_notify hs (c.consumerHandles + 1) ?_ .ready
    have hcounts := hs.counts
    rw [hperm.count_eq, count_cons_self] at hcounts
    omega
  | dropConsumer =>
    refine faithful_notify hs c.consumerHandles ?_ .ready
    rw [hs.counts, hperm.count_eq, count_cons_of_ne (by simp)]
  | dropProducer =>
    have hs' := hs.take ht (by simp) (by simp)
    rw [finish]
    split_ifs
    · exact faithful_of_next hs' rfl (fun _ hr => Or.inl hr) (Or.inl Iff.rfl)
    · have hk : ({ c with
          tasks := c.tasks.eraseIdx i
          state := ⟨c.state.value, c.state.waiters, true⟩ } : Channel α).Kept :=
        ⟨hs'.counts, hs'.borrowed, hs'.alive, hs'.listed⟩
      refine faithful_drain hk rfl (fun r hr htopic => ?_) (fun _ _ _ => rfl) rfl
      cases htopic
  | produce =>
    have hs' := hs.take ht (by simp) (by simp)
    rw [finish]
    split_ifs
    · exact faithful_of_next ⟨⟨hs'.counts, hs'.borrowed, hs'.alive, hs'.listed⟩, hs'.unanswered⟩
        rfl (fun _ hr => Or.inl hr) (Or.inl Iff.rfl)
    · exact faithful_of_next ⟨⟨hs'.counts, hs'.borrowed, hs'.alive, hs'.listed⟩, hs'.unanswered⟩
        rfl (fun _ hr => Or.inl hr) (Or.inl Iff.rfl)

end Finish

/-- A waiter that no poll borrows is dropped. -/
theorem faithful_dropWaiter (hs : c.Sound)
    (hfree : ¬ (KioTask.pollUsed w ∈ c.tasks ∨ KioTask.pollUnused w ∈ c.tasks)) :
    Faithful c (({ c with
      alive := c.alive.filter fun e => e ≠ w
      waiting := c.waiting.filter fun r => r.1 ≠ w } : Channel α).done .ready) := by
  refine faithful_of_next ⟨⟨hs.counts, fun {w'} hw => ?_, fun r hr => ?_, fun r hr => ?_⟩,
    fun r hr => ?_⟩ rfl (fun r hr => ?_) (Or.inl Iff.rfl)
  · have hne : w' ≠ w := by
      rintro rfl
      exact hfree hw
    exact mem_filter.mpr ⟨hs.borrowed hw, decide_eq_true hne⟩
  · obtain ⟨hr, hne⟩ := mem_filter.mp hr
    exact mem_filter.mpr ⟨hs.alive r hr, hne⟩
  · exact hs.listed r (mem_filter.mp hr).1
  · exact hs.unanswered r (mem_filter.mp hr).1
  · by_cases hne : r.1 = w
    · refine .inr fun hmem => ?_
      exact of_decide_eq_true (mem_filter.mp hmem).2 hne
    · exact .inl (mem_filter.mpr ⟨hr, decide_eq_true hne⟩)

/-- Every step keeps the invariant and what it owes to those who wait. -/
theorem Sound.step (hs : c.Sound) (op : KioOp α) : Faithful c (c.step op) := by
  cases op with
  | newWaiter =>
    refine faithful_of_next ⟨⟨hs.counts, fun hw => ?_, fun r hr => ?_, hs.listed⟩, hs.unanswered⟩
      rfl (fun _ hr => Or.inl hr) (Or.inl Iff.rfl)
    · exact mem_cons_of_mem _ (hs.borrowed hw)
    · exact mem_cons_of_mem _ (hs.alive r hr)
  | dropWaiter w =>
    rw [Channel.step]
    split_ifs with hborrowed
    · exact faithful_done hs .none
    · exact faithful_dropWaiter hs hborrowed
  | producerPoll w ready guard =>
    rw [Channel.step]
    split_ifs with hw
    · rw [producerPoll]
      split_ifs with hclosed hready
      · exact faithful_done hs .closed
      · exact faithful_release hs guard
      · exact faithful_pending (.value ready) hs hw
          ⟨eq_false_iff.mpr hclosed, eq_false_iff.mpr hready⟩
    · exact faithful_done hs .none
  | consumerPoll w ready =>
    rw [Channel.step]
    split_ifs with hw
    · rw [consumerPoll]
      split_ifs with hready hclosed
      · exact faithful_done hs .ready
      · exact faithful_done hs .closed
      · exact faithful_pending (.value ready) hs hw
          ⟨eq_false_iff.mpr hclosed, eq_false_iff.mpr hready⟩
    · exact faithful_done hs .none
  | pollClosed w =>
    rw [Channel.step]
    split_ifs with hw
    · rw [pollClosed]
      split_ifs with hclosed
      · exact faithful_done hs .ready
      · exact faithful_pending .closed hs hw
          ⟨eq_false_iff.mpr hclosed, rfl⟩
    · exact faithful_done hs .none
  | pollUsed w =>
    rw [Channel.step]
    split_ifs with hw
    · exact faithful_pollCounted hs hw (.inl rfl)
    · exact faithful_done hs .none
  | pollUnused w =>
    rw [Channel.step]
    split_ifs with hw
    · exact faithful_pollCounted hs hw (.inr rfl)
    · exact faithful_done hs .none
  | weakPollUsed w | weakPollUnused w =>
    rw [Channel.step]
    split_ifs with hw
    · exact faithful_done hs .ready
    · refine faithful_suspend hs ⟨rfl, rfl, rfl⟩ rfl ?_ ?_ (Or.inl Iff.rfl)
      · simpa using hs.counts
      · simpa using hw
    · exact faithful_done hs .none
  | write guard =>
    rw [Channel.step]
    split_ifs with hclosed
    · exact faithful_done hs .closed
    · exact faithful_release hs guard
  | consume =>
    have hcounts := hs.counts
    rw [Channel.step]
    split_ifs with hprev
    · refine faithful_suspend hs ⟨rfl, rfl, rfl⟩ rfl ?_ (by simp) (.inr (.inl rfl))
      simp only [count_append, count_singleton_self]
      omega
    · refine faithful_counts hs ⟨rfl, rfl, rfl⟩ ?_ hs.borrowed (.inr ⟨?_, id⟩)
      · simp only [done]
        omega
      · simp [done, hprev]
  | cloneConsumer =>
    have hcounts := hs.counts
    rw [Channel.step]
    split_ifs with hzero
    · exact faithful_done hs .none
    · refine faithful_counts hs ⟨rfl, rfl, rfl⟩ ?_ hs.borrowed (.inr ⟨?_, id⟩)
      · simp only [done]
        omega
      · -- the cloned handle has been counted
        simp only [done]
        omega
  | dropConsumer =>
    have hcounts := hs.counts
    rw [Channel.step]
    split_ifs with hzero hprev
    · exact faithful_done hs .none
    · refine faithful_counts hs ⟨rfl, rfl, rfl⟩ ?_ hs.borrowed (.inr ⟨?_, id⟩)
      · simp only [done]
        omega
      · simp only [done]
        omega
    · refine faithful_suspend hs ⟨rfl, rfl, rfl⟩ rfl ?_ (by simp) (.inr (.inr rfl))
      simp
      omega
  | cloneProducer =>
    rw [Channel.step]
    split_ifs
    · exact faithful_done hs .none
    · exact faithful_counts hs ⟨rfl, rfl, rfl⟩ hs.counts hs.borrowed (Or.inr ⟨Iff.rfl, id⟩)
  | dropProducer =>
    rw [Channel.step]
    split_ifs
    · exact faithful_done hs .none
    · exact faithful_counts hs ⟨rfl, rfl, rfl⟩ hs.counts hs.borrowed (Or.inr ⟨Iff.rfl, id⟩)
    · refine faithful_suspend hs ⟨rfl, rfl, rfl⟩ rfl ?_ (by simp) (Or.inl Iff.rfl)
      simpa using hs.counts
  | produce =>
    refine faithful_suspend hs ⟨rfl, rfl, rfl⟩ rfl ?_ (by simp) (Or.inl Iff.rfl)
    simpa using hs.counts
  | resume i =>
    rw [Channel.step]
    cases ht : c.tasks[i]? with
    | none => exact faithful_done hs .none
    | some task => exact faithful_finish hs ht

end Channel

end HermitMoq
