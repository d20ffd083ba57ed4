import HermitMoq.KioInvariant

/-!
# No Wake-Up Is Lost

What the steps of a channel wake. A mutable access to the value wakes everyone who waits for
the value, closing wakes everyone, and the operation that counts the first consumer in or the
last one out wakes those who wait for consumers once it gets the lock. A waiter that none of
this has reached is still in its list.
-/

namespace HermitMoq

open List Channel

namespace Channel

variable {α : Type*} {c : Channel α} {w : WaiterId}

/-- A step gets mutable access to the value or closes the channel through a guard. -/
def Modifies (c : Channel α) : KioOp α → Prop
  | .write guard => c.state.closed = false ∧ guard.modified = true
  | .producerPoll w ready guard =>
    w ∈ c.alive ∧ c.state.closed = false ∧ ready c.state.value = true ∧ guard.modified = true
  | _ => False

/-- A step finishes an operation that has changed whether there are consumers. -/
def Notifies (c : Channel α) : KioOp α → Prop
  | .resume i => c.tasks[i]? = some .consume ∨ c.tasks[i]? = some .dropConsumer
  | _ => False

/-! ### Waiters, tasks and wake-ups of a step -/

/-- An outcome that creates and drops no waiter, and wakes only those that are alive. -/
structure Keeps (c : Channel α) (o : Outcome α) : Prop where
  alive : o.next.alive = c.alive
  nextWaiter : o.next.nextWaiter = c.nextWaiter
  woken : ∀ w ∈ o.woken, w ∈ c.alive

/-- An outcome that also leaves all tasks. -/
structure Frames (c : Channel α) (o : Outcome α) : Prop extends Keeps c o where
  tasks : c.tasks ⊆ o.next.tasks

variable {c' : Channel α} {reply : Reply} (question : Question α) (guard : Guard α) (task : KioTask)

theorem frames_done (halive : c'.alive = c.alive)
    (hnext : c'.nextWaiter = c.nextWaiter) (htasks : c'.tasks = c.tasks) :
    Frames c (c'.done reply) :=
  ⟨⟨halive, hnext, nofun⟩, fun _ ht => htasks ▸ ht⟩

theorem frames_suspend (halive : c'.alive = c.alive)
    (hnext : c'.nextWaiter = c.nextWaiter) (htasks : c'.tasks = c.tasks) :
    Frames c (c'.suspend task) :=
  ⟨⟨halive, hnext, nofun⟩,
    fun _ ht => mem_append_left _ (htasks ▸ ht)⟩

theorem frames_drain {topics : Topic → Bool} (halive : c'.alive = c.alive)
    (hnext : c'.nextWaiter = c.nextWaiter) (htasks : c'.tasks = c.tasks) :
    Frames c (c'.drain topics reply) where
  alive := halive
  nextWaiter := hnext
  woken w hw := by
    obtain ⟨_, -, hmem⟩ := mem_flatMap.mp hw
    have hw' := (mem_filter.mp hmem).2
    rw [halive] at hw'
    exact of_decide_eq_true hw'
  tasks _ ht := htasks ▸ ht

theorem frames_release : Frames c (c.release guard) := by
  rw [release]
  split_ifs
  · exact frames_drain rfl rfl rfl
  · exact frames_done rfl rfl rfl

theorem frames_pending {topic : Topic} :
    Frames c ((c.register w topic).pending w question) :=
  ⟨⟨rfl, rfl, nofun⟩, List.Subset.refl _⟩

theorem frames_registerCounted :
    Frames c (c.registerCounted w question) := by
  rw [registerCounted]
  split_ifs
  · exact frames_done rfl rfl rfl
  · exact frames_pending question

theorem frames_pollCounted : Frames c (c.pollCounted w question) := by
  rw [pollCounted]
  split_ifs
  · exact frames_done rfl rfl rfl
  · exact frames_done rfl rfl rfl
  · exact frames_registerCounted question

/-- The last part of a task creates and drops no waiter. -/
theorem frames_finish : Frames c (c.finish task) := by
  cases task with
  | pollUsed w | pollUnused w =>
    rw [finish, weakPollCounted]
    split_ifs
    · exact frames_done rfl rfl rfl
    · exact frames_registerCounted _
  | consume | dropConsumer => exact frames_drain rfl rfl rfl
  | dropProducer =>
    rw [finish]
    split_ifs
    · exact frames_done rfl rfl rfl
    · exact frames_drain rfl rfl rfl
  | produce =>
    rw [finish]
    split_ifs <;> exact frames_done rfl rfl rfl

variable {op : KioOp α}

/-- Only `Waiter::new` and the drop of a waiter change which waiters there are, and only its lock
section ends a task. -/
theorem frames_step (hnew : op ≠ .newWaiter) (hdrop : ∀ w, op ≠ .dropWaiter w)
    (hresume : ∀ i, op ≠ .resume i) : Frames c (c.step op) := by
  cases op with
  | newWaiter => exact absurd rfl hnew
  | dropWaiter w => exact absurd rfl (hdrop w)
  | resume i => exact absurd rfl (hresume i)
  | producerPoll w ready guard =>
    rw [step, producerPoll]
    split_ifs
    · exact frames_done rfl rfl rfl
    · exact frames_release guard
    · exact frames_pending _
    · exact frames_done rfl rfl rfl
  | consumerPoll w ready =>
    rw [step, consumerPoll]
    split_ifs
    · exact frames_done rfl rfl rfl
    · exact frames_done rfl rfl rfl
    · exact frames_pending _
    · exact frames_done rfl rfl rfl
  | pollClosed w =>
    rw [step, pollClosed]
    split_ifs
    · exact frames_done rfl rfl rfl
    · exact frames_pending _
    · exact frames_done rfl rfl rfl
  | pollUsed w | pollUnused w =>
    rw [step]
    split_ifs
    · exact frames_pollCounted _
    · exact frames_done rfl rfl rfl
  | write guard =>
    rw [step]
    split_ifs
    · exact frames_done rfl rfl rfl
    · exact frames_release guard
  | produce => exact frames_suspend _ rfl rfl rfl
  | _ =>
    rw [step]
    split_ifs <;> first | exact frames_done rfl rfl rfl | exact frames_suspend _ rfl rfl rfl

theorem keeps_step (hnew : op ≠ .newWaiter) (hdrop : ∀ w, op ≠ .dropWaiter w) :
    Keeps c (c.step op) := by
  cases op with
  | resume i =>
    rw [step]
    cases c.tasks[i]? with
    | none => exact (frames_done rfl rfl rfl).toKeeps
    | some task =>
      have h := frames_finish (c := { c with tasks := c.tasks.eraseIdx i }) task
      exact ⟨h.alive, h.nextWaiter, h.woken⟩
  | _ => exact (frames_step hnew hdrop (by rintro i ⟨⟩)).toKeeps

/-- Only its drop ends a waiter. -/
theorem mem_alive_step (hw : w ∈ c.alive) (hop : op ≠ .dropWaiter w) :
    w ∈ (c.step op).next.alive := by
  cases op with
  | newWaiter => exact mem_cons_of_mem _ hw
  | dropWaiter w' =>
    rw [step]
    split_ifs
    · exact hw
    · refine mem_filter.mpr ⟨hw, decide_eq_true ?_⟩
      rintro rfl
      exact hop rfl
  | _ =>
    rw [(keeps_step (by rintro ⟨⟩) (by rintro w ⟨⟩)).alive]
    exact hw

/-- Only its lock section ends a task. -/
theorem tasks_subset_step (hop : ∀ i, op ≠ .resume i) : c.tasks ⊆ (c.step op).next.tasks := by
  cases op with
  | newWaiter => exact List.Subset.refl _
  | dropWaiter w =>
    rw [step]
    split_ifs <;> exact List.Subset.refl _
  | _ => exact (frames_step (by rintro ⟨⟩) (by rintro w ⟨⟩) hop).tasks

/-- A modification drains the list of the value, and the others if the channel is closed. -/
theorem Modifies.eq_drain (hm : c.Modifies op) : ∃ guard : Guard α,
    c.step op = (c.apply guard).drain
      (fun t => t == .value || (c.apply guard).state.closed) .ready := by
  cases op with
  | write guard =>
    obtain ⟨hopen, hmod⟩ := hm
    refine ⟨guard, ?_⟩
    rw [step, if_neg (by simp [hopen]), release, if_pos hmod]
  | producerPoll w ready guard =>
    obtain ⟨hw, hopen, hready, hmod⟩ := hm
    refine ⟨guard, ?_⟩
    rw [step, if_pos hw, producerPoll, if_neg (by simp [hopen]), if_pos hready, release,
      if_pos hmod]
  | _ => exact hm.elim

/-- An operation that counted the first consumer in or the last one out drains the list of
those who wait for consumers. -/
theorem Notifies.eq_drain (hn : c.Notifies op) : ∃ c' : Channel α,
    c.step op = c'.drain (fun t => t == .consumer) .ready ∧
      c'.state = c.state ∧ c'.alive = c.alive := by
  cases op with
  | resume i =>
    rcases hn with ht | ht
    · rw [step, ht]
      exact ⟨_, rfl, rfl, rfl⟩
    · rw [step, ht]
      exact ⟨_, rfl, rfl, rfl⟩
  | _ => exact hn.elim

/-- A wake-up that is due stays due until it happens. -/
theorem WakeDue.step (hdue : c.WakeDue) (hn : ¬ c.Notifies op) : (c.step op).next.WakeDue := by
  by_cases hop : ∀ i, op ≠ .resume i
  · have hsub := tasks_subset_step (c := c) hop
    exact hdue.imp (fun h => hsub h) fun h => hsub h
  · push Not at hop
    obtain ⟨i, rfl⟩ := hop
    rw [step]
    cases ht : c.tasks[i]? with
    | none => exact hdue
    | some task =>
      have hperm := perm_cons_eraseIdx ht
      have hc : task ≠ .consume := fun h => hn (.inl (h ▸ ht))
      have hd : task ≠ .dropConsumer := fun h => hn (.inr (h ▸ ht))
      have hsub := (frames_finish (c := { c with tasks := c.tasks.eraseIdx i }) task).tasks
      rw [WakeDue, hperm.mem_iff, hperm.mem_iff, mem_cons, mem_cons] at hdue
      exact hdue.imp (fun h => hsub (h.resolve_left hc.symm))
        fun h => hsub (h.resolve_left hd.symm)

/-! ### Runs -/

/-- The waiter and the question of a poll. -/
def asks (c : Channel α) : KioOp α → Option (WaiterId × Question α)
  | .producerPoll w ready _ => some (w, .value ready)
  | .consumerPoll w ready => some (w, .value ready)
  | .pollClosed w => some (w, .closed)
  | .pollUsed w => some (w, .used)
  | .pollUnused w => some (w, .unused)
  | .resume i =>
    match c.tasks[i]? with
    | some (.pollUsed w) => some (w, .used)
    | some (.pollUnused w) => some (w, .unused)
    | _ => none
  | _ => none

theorem release_reply : (c.release guard).reply = .ready := by
  rw [release]
  split_ifs <;> rfl

variable {question} {r : WaiterId × Question α}

theorem registerCounted_waiting (hp : (c.registerCounted w question).reply = .pending) :
    (c.registerCounted w question).next.waiting = (w, question) :: c.waiting := by
  rw [registerCounted] at hp ⊢
  split_ifs at hp ⊢
  · cases hp
  · rfl

theorem weakPollCounted_waiting (hp : (c.weakPollCounted w question).reply = .pending) :
    (c.weakPollCounted w question).next.waiting = (w, question) :: c.waiting := by
  rw [weakPollCounted] at hp ⊢
  split_ifs at hp ⊢
  · cases hp
  · exact registerCounted_waiting hp

theorem pollCounted_waiting (hp : (c.pollCounted w question).reply = .pending) :
    (c.pollCounted w question).next.waiting = (w, question) :: c.waiting := by
  rw [pollCounted] at hp ⊢
  split_ifs at hp ⊢
  · cases hp
  · cases hp
  · exact registerCounted_waiting hp

/-- A step that answers `Pending` is a poll, and its registration is on record. -/
theorem waiting_of_pending (hp : (c.step op).reply = .pending) :
    ∃ r, c.asks op = some r ∧ (c.step op).next.waiting = r :: c.waiting := by
  cases op with
  | producerPoll w ready guard =>
    refine ⟨_, rfl, ?_⟩
    rw [step, producerPoll] at hp ⊢
    split_ifs at hp ⊢
    · cases hp
    · rw [release_reply] at hp
      cases hp
    · rfl
    · cases hp
  | consumerPoll w ready =>
    refine ⟨_, rfl, ?_⟩
    rw [step, consumerPoll] at hp ⊢
    split_ifs at hp ⊢ <;> first | rfl | cases hp
  | pollClosed w =>
    refine ⟨_, rfl, ?_⟩
    rw [step, pollClosed] at hp ⊢
    split_ifs at hp ⊢ <;> first | rfl | cases hp
  | pollUsed w | pollUnused w =>
    refine ⟨_, rfl, ?_⟩
    rw [step] at hp ⊢
    split_ifs at hp ⊢
    · exact pollCounted_waiting hp
    · cases hp
  | write guard =>
    rw [step] at hp
    split_ifs at hp
    · cases hp
    · rw [release_reply] at hp
      cases hp
  | resume i =>
    rw [step] at hp ⊢
    cases ht : c.tasks[i]? with
    | none =>
      rw [ht] at hp
      cases hp
    | some task =>
      rw [ht] at hp
      cases task with
      | pollUsed w | pollUnused w => exact ⟨_, by rw [asks, ht], weakPollCounted_waiting hp⟩
      | consume => cases hp
      | dropConsumer => cases hp
      | dropProducer | produce =>
        simp only [finish] at hp
        split_ifs at hp <;> cases hp
  | newWaiter | produce => cases hp
  | _ =>
    rw [step] at hp
    split_ifs at hp <;> cases hp

/-- The waiters that a run wakes. -/
def wokenIn (c : Channel α) : List (KioOp α) → List WaiterId
  | [] => []
  | op :: ops => (c.step op).woken ++ (c.step op).next.wokenIn ops

theorem Sound.exec (hs : c.Sound) (ops : List (KioOp α)) : (c.exec ops).Sound := by
  induction ops generalizing c with
  | nil => exact hs
  | cons op ops ih => exact ih (hs.step op).sound

/-- Over a run, a waiter is woken, dropped or still registered. -/
theorem mem_waiting_exec {ops : List (KioOp α)} (hs : c.Sound)
    (hr : r ∈ c.waiting) (hwoken : r.1 ∉ c.wokenIn ops) (hdrop : KioOp.dropWaiter r.1 ∉ ops) :
    r ∈ (c.exec ops).waiting := by
  induction ops generalizing c with
  | nil => exact hr
  | cons op ops ih =>
    rw [wokenIn, mem_append, not_or] at hwoken
    rw [mem_cons, not_or] at hdrop
    refine ih (hs.step op).sound ?_ hwoken.2 hdrop.2
    have halive := mem_alive_step (hs.alive r hr) (Ne.symm hdrop.1)
    rcases (hs.step op).stays r hr with hstay | hnow | hgone
    · exact hstay
    · exact absurd hnow hwoken.1
    · exact absurd halive hgone

/-- What a step owes to a registered waiter. Closing wakes it, a mutable access wakes it if it
waits for the value, and if it waits for consumers then their coming or going makes a
wake-up due, which stays due until it happens. -/
structure Owed (c : Channel α) (r : WaiterId × Question α) (op : KioOp α) : Prop where
  listed : r.1 ∈ (c.state.waiters r.2.topic).entries
  unanswered : c.Unanswered r.2
  closed : (c.step op).next.state.closed = true → r.1 ∈ (c.step op).woken
  modified : r.2.topic = .value → c.Modifies op → r.1 ∈ (c.step op).woken
  transition : ¬ ((c.step op).next.consumers = 0 ↔ c.consumers = 0) → (c.step op).next.WakeDue
  due : c.WakeDue → ¬ c.Notifies op → (c.step op).next.WakeDue
  notified : r.2.topic = .consumer → c.Notifies op → r.1 ∈ (c.step op).woken

/-- Every step gives a registered waiter what it owes. -/
theorem Sound.owed (hs : c.Sound) (hr : r ∈ c.waiting) (op : KioOp α) : c.Owed r op where
  listed := hs.listed r hr
  unanswered := hs.unanswered r hr
  closed hclosed := by
    have hopen : c.state.closed = false := by
      rcases hs.unanswered r hr with ⟨hopen, -⟩ | ⟨-, hopen, -⟩
      · exact hopen
      · exact hopen
    exact (hs.step op).closing hopen hclosed r hr
  modified htopic hm := by
    obtain ⟨_, heq⟩ := hm.eq_drain
    rw [heq]
    exact mem_woken_drain (hs.listed r hr) (hs.alive r hr) (by rw [htopic]; rfl)
  transition := (hs.step op).transition
  due hdue hn := hdue.step hn
  notified htopic hn := by
    obtain ⟨_, heq, hstate, halive⟩ := hn.eq_drain
    rw [heq]
    exact mem_woken_drain (hstate ▸ hs.listed r hr) (halive ▸ hs.alive r hr) (by rw [htopic]; rfl)

/-- A modification that does not close the channel drains the list of the value only. -/
theorem Modifies.woken_eq (hm : c.Modifies op) (hopen : (c.step op).next.state.closed = false) :
    (c.step op).woken =
        (c.state.waiters .value).entries.filter (fun e => decide (e ∈ c.alive)) ∧
      ∀ t, t ≠ .value → (c.step op).next.state.waiters t = c.state.waiters t := by
  obtain ⟨guard, heq⟩ := hm.eq_drain
  rw [heq] at hopen ⊢
  have hclosed : (c.apply guard).state.closed = false := hopen
  simp only [drain, hclosed, Bool.or_false]
  refine ⟨?_, fun t ht => ?_⟩
  · have htopics : [Topic.value, Topic.closed, Topic.consumer].filter (fun t => t == Topic.value)
        = [Topic.value] := rfl
    rw [htopics, flatMap_singleton]
    rfl
  · rw [if_neg (by simpa using ht)]
    rfl

/-- **kio loses no wake-up.** In every run, a poll that answers `Pending` has registered its
waiter; as long as that waiter is neither woken nor dropped it is in its list, its question is
open or its wake-up due, and the next step wakes it if it closes the channel, modifies the
value it waits for, or belongs to the first consumer to come or the last one to go. A
modification that leaves the channel open wakes nobody else. -/
theorem no_lost_wakeups (value : α) (ops : List (KioOp α)) (op : KioOp α) :
    let c := (new value).exec ops
    ((c.step op).reply = .pending → ∃ r, c.asks op = some r ∧
      ∀ (later : List (KioOp α)) (op' : KioOp α),
        r.1 ∉ (c.step op).next.wokenIn later → KioOp.dropWaiter r.1 ∉ later →
        ((c.step op).next.exec later).Owed r op') ∧
    (c.Modifies op → (c.step op).next.state.closed = false →
      (c.step op).woken =
          (c.state.waiters .value).entries.filter (fun e => decide (e ∈ c.alive)) ∧
        ∀ t, t ≠ .value → (c.step op).next.state.waiters t = c.state.waiters t) := by
  intro c
  have hs : c.Sound := (Sound.new value).exec ops
  refine ⟨fun hp => ?_, fun hm hopen => hm.woken_eq hopen⟩
  obtain ⟨r, hasks, hwaiting⟩ := waiting_of_pending hp
  refine ⟨r, hasks, fun later op' hwoken hdrop => ?_⟩
  have hnext := (hs.step op).sound
  have hr : r ∈ (c.step op).next.waiting := by
    rw [hwaiting]
    exact mem_cons_self
  exact (hnext.exec later).owed (mem_waiting_exec hnext hr hwoken hdrop) op'

/-- A consumer waits for a positive number, and the producer writes one. -/
theorem no_lost_wakeups_positive :
    let ready : ℕ → Bool := fun n => decide (0 < n)
    let c := (new 0).exec [.newWaiter]
    (c.step (.consumerPoll 0 ready)).reply = .pending ∧
      0 ∈ ((c.step (.consumerPoll 0 ready)).next.step (.write ⟨some (· + 1), false⟩)).woken := by
  intro ready c
  obtain ⟨_, hr, hlater⟩ := (no_lost_wakeups 0 [.newWaiter] (.consumerPoll 0 ready)).1 rfl
  cases hr
  exact ⟨rfl, (hlater [] (.write ⟨some (· + 1), false⟩) not_mem_nil not_mem_nil).modified
    rfl ⟨rfl, rfl⟩⟩

/-! ### Dropped waiters -/

/-- A waiter that was created and is dropped. -/
structure Dropped (c : Channel α) (w : WaiterId) : Prop where
  created : w < c.nextWaiter
  gone : w ∉ c.alive

/-- A step wakes only waiters that there are. It creates the next one, or none. -/
theorem waiters_step (c : Channel α) (op : KioOp α) :
    (c.step op).woken ⊆ c.alive ∧
      ((c.step op).next.alive = c.nextWaiter :: c.alive ∧
          (c.step op).next.nextWaiter = c.nextWaiter + 1 ∨
        (c.step op).next.alive ⊆ c.alive ∧ (c.step op).next.nextWaiter = c.nextWaiter) := by
  have of_keeps {o : Outcome α} (h : Keeps c o) : o.woken ⊆ c.alive ∧
      (o.next.alive = c.nextWaiter :: c.alive ∧ o.next.nextWaiter = c.nextWaiter + 1 ∨
        o.next.alive ⊆ c.alive ∧ o.next.nextWaiter = c.nextWaiter) :=
    ⟨h.woken, .inr ⟨h.alive ▸ List.Subset.refl _, h.nextWaiter⟩⟩
  cases op with
  | newWaiter => exact ⟨nil_subset _, .inl ⟨rfl, rfl⟩⟩
  | dropWaiter w =>
    rw [step]
    split_ifs
    · exact ⟨nil_subset _, .inr ⟨List.Subset.refl _, rfl⟩⟩
    · exact ⟨nil_subset _, .inr ⟨filter_subset_self _, rfl⟩⟩
  | _ => exact of_keeps (keeps_step (by rintro ⟨⟩) (by rintro w ⟨⟩))

/-- A dropped waiter stays so, and is not woken. -/
theorem Dropped.step (h : c.Dropped w) (op : KioOp α) :
    (c.step op).next.Dropped w ∧ w ∉ (c.step op).woken := by
  obtain ⟨hwoken, ⟨halive, hnext⟩ | ⟨halive, hnext⟩⟩ := c.waiters_step op
  · refine ⟨⟨hnext ▸ Nat.lt_succ_of_lt h.created, fun hmem => ?_⟩, fun hw => h.gone (hwoken hw)⟩
    rcases mem_cons.mp (halive ▸ hmem) with rfl | hmem
    · exact Nat.lt_irrefl _ h.created
    · exact h.gone hmem
  · exact ⟨⟨hnext ▸ h.created, fun hmem => h.gone (halive hmem)⟩, fun hw => h.gone (hwoken hw)⟩

/-- A dropped waiter stays so over a run, and the run does not wake it. -/
theorem Dropped.exec (h : c.Dropped w) (ops : List (KioOp α)) :
    (c.exec ops).Dropped w ∧ w ∉ c.wokenIn ops := by
  induction ops generalizing c with
  | nil => exact ⟨h, not_mem_nil⟩
  | cons op ops ih =>
    obtain ⟨hnext, hwoken⟩ := h.step op
    obtain ⟨hexec, hlater⟩ := ih hnext
    exact ⟨hexec, fun hmem => (mem_append.mp hmem).elim hwoken hlater⟩

/-- Waiters are numbered in the order of their creation. -/
def Fresh (c : Channel α) : Prop := ∀ w ∈ c.alive, w < c.nextWaiter

/-- A new channel has no waiters. -/
theorem Fresh.new (value : α) : (new value).Fresh := nofun

/-- A step keeps the numbering. -/
theorem Fresh.step (h : c.Fresh) (op : KioOp α) : (c.step op).next.Fresh := by
  intro w hw
  obtain ⟨-, ⟨halive, hnext⟩ | ⟨halive, hnext⟩⟩ := c.waiters_step op
  · rw [hnext]
    rcases mem_cons.mp (halive ▸ hw) with rfl | hw
    · exact Nat.lt_succ_self _
    · exact Nat.lt_succ_of_lt (h w hw)
  · exact hnext ▸ h w (halive hw)

/-- A run keeps the numbering. -/
theorem Fresh.exec (h : c.Fresh) (ops : List (KioOp α)) : (c.exec ops).Fresh := by
  induction ops generalizing c with
  | nil => exact h
  | cons op ops ih => exact ih (h.step op)

/-- A poll of a consumer leaves the tasks. -/
theorem tasks_consumerPoll (w : WaiterId) (ready : α → Bool) :
    (c.step (.consumerPoll w ready)).next.tasks = c.tasks := by
  rw [step, consumerPoll]
  split_ifs <;> rfl

/-- The waiter of a poll is dropped right after it. -/
theorem dropped_of_poll (hs : c.Sound) (hfresh : c.Fresh) (ready : α → Bool) :
    ((((c.step .newWaiter).next.step (.consumerPoll c.nextWaiter ready)).next.step
      (.dropWaiter c.nextWaiter)).next).Dropped c.nextWaiter := by
  have hkeeps : Keeps (c.step .newWaiter).next
      ((c.step .newWaiter).next.step (.consumerPoll c.nextWaiter ready)) :=
    keeps_step (by rintro ⟨⟩) (by rintro w ⟨⟩)
  have htasks : ((c.step .newWaiter).next.step (.consumerPoll c.nextWaiter ready)).next.tasks =
      c.tasks := tasks_consumerPoll c.nextWaiter ready
  -- a waiter that did not exist is borrowed by no other poll
  have hfree : ¬ (KioTask.pollUsed c.nextWaiter ∈ c.tasks ∨
      KioTask.pollUnused c.nextWaiter ∈ c.tasks) :=
    fun h => Nat.lt_irrefl _ (hfresh _ (hs.borrowed h))
  generalize (c.step .newWaiter).next.step (.consumerPoll c.nextWaiter ready) = o at *
  rw [step, htasks, if_neg hfree]
  refine ⟨?_, fun hmem => ?_⟩
  · show c.nextWaiter < o.next.nextWaiter
    rw [hkeeps.nextWaiter]
    exact Nat.lt_succ_self _
  · exact of_decide_eq_true (mem_filter.mp hmem).2 rfl

/-! ### Closed channels -/

/-- No poll of a closed channel is answered `Pending`. -/
theorem reply_of_closed (hclosed : c.state.closed = true) (op : KioOp α) :
    (c.step op).reply ≠ .pending := by
  intro hp
  cases op with
  | producerPoll | consumerPoll | pollClosed | pollUsed | pollUnused =>
    simp only [step, producerPoll, consumerPoll, pollClosed, pollCounted, hclosed, if_true] at hp
    split_ifs at hp <;> cases hp
  | resume i =>
    rw [step] at hp
    rcases ht : c.tasks[i]? with _ | task <;> rw [ht] at hp
    · cases hp
    · cases task <;> simp only [finish, weakPollCounted, hclosed, if_true] at hp <;> cases hp
  | _ =>
    obtain ⟨_, h, -⟩ := waiting_of_pending hp
    cases h

/-- Over a run, a registered waiter stays registered, is woken or ends up dropped. -/
theorem waiting_or_woken_or_dropped (hs : c.Sound) (hfresh : c.Fresh) (hr : r ∈ c.waiting)
    (ops : List (KioOp α)) :
    r ∈ (c.exec ops).waiting ∨ r.1 ∈ c.wokenIn ops ∨ r.1 ∉ (c.exec ops).alive := by
  induction ops generalizing c with
  | nil => exact .inl hr
  | cons op ops ih =>
    rcases (hs.step op).stays r hr with hstay | hnow | hgone
    · exact (ih (hs.step op).sound (hfresh.step op) hstay).imp_right
        (Or.imp_left (mem_append_right _))
    · exact .inr (.inl (mem_append_left _ hnow))
    · have hcreated : r.1 < (c.step op).next.nextWaiter :=
        Nat.lt_of_lt_of_le (hfresh r.1 (hs.alive r hr))
          ((c.waiters_step op).2.elim (fun h => h.2 ▸ Nat.le_succ _) fun h => Nat.le_of_eq h.2.symm)
      exact .inr (.inr (Dropped.exec ⟨hcreated, hgone⟩ ops).1.gone)

/-- **Nobody waits on a closed channel.** If a run leaves the channel closed, in whatever way, then
the waiter of every poll in it that was answered `Pending` has since been woken or is dropped, and
no operation is answered `Pending` any more. -/
theorem nobody_waits_on_closed (value : α) (ops : List (KioOp α)) (op : KioOp α)
    (later : List (KioOp α))
    (hclosed : (((new value).exec ops).step op |>.next.exec later).state.closed = true) :
    let c := (new value).exec ops
    ((c.step op).reply = .pending → ∃ r, c.asks op = some r ∧
      (r.1 ∈ (c.step op).next.wokenIn later ∨ r.1 ∉ ((c.step op).next.exec later).alive)) ∧
      ∀ op', (((c.step op).next.exec later).step op').reply ≠ .pending := by
  intro c
  refine ⟨fun hp => ?_, reply_of_closed hclosed⟩
  have hs : (c.step op).next.Sound := (((Sound.new value).exec ops).step op).sound
  have hfresh : (c.step op).next.Fresh := ((Fresh.new value).exec ops).step op
  obtain ⟨r, hasks, hwaiting⟩ := waiting_of_pending hp
  have hr : r ∈ (c.step op).next.waiting := by
    rw [hwaiting]
    exact mem_cons_self
  refine ⟨r, hasks, (waiting_or_woken_or_dropped hs hfresh hr later).resolve_left fun hend => ?_⟩
  -- who still waits has an open question, and all questions are answered by closing
  rcases (hs.exec later).unanswered r hend with ⟨hopen, -⟩ | ⟨-, hopen, -⟩ <;>
    exact Bool.false_ne_true (hopen.symm.trans hclosed)

/-- Somebody waits for the channel to be closed and is woken when the producer closes it. -/
theorem nobody_waits_on_closed_write :
    let c := (new 0).exec [.newWaiter]
    (c.step (.pollClosed 0)).reply = .pending ∧
      0 ∈ (c.step (.pollClosed 0)).next.wokenIn [.write ⟨none, true⟩] := by
  intro c
  obtain ⟨_, hr, hlater⟩ :=
    (nobody_waits_on_closed 0 [.newWaiter] (.pollClosed 0) [.write ⟨none, true⟩] rfl).1 rfl
  cases hr
  exact ⟨rfl, hlater.resolve_right fun hgone => hgone (by decide)⟩

end Channel

end HermitMoq
