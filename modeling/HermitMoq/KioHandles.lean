import HermitMoq.Kio
import HermitMoq.Runs

/-!
# The Value and the Producers of a Channel

What a step of a channel does to its value, to the producers and to the flag that closes it. The
counter of producers counts the handles and the upgrades under way. A channel closes through a
guard, or in the lock section of the drop of its last producer.
-/

namespace HermitMoq

/-- Whether an operation may use a guard. -/
def KioOp.guarded {α : Type*} : KioOp α → Bool
  | .write _ => true
  | .producerPoll _ _ _ => true
  | _ => false

/-- The operations of consumers, weak handles and waiters. -/
def KioOp.passive {α : Type*} : KioOp α → Bool
  | .write _ => false
  | .producerPoll _ _ _ => false
  | .cloneProducer => false
  | .dropProducer => false
  | _ => true

namespace Channel

variable {α : Type*} (c : Channel α) (guard : Guard α)

/-- A guard changes the value as its holder does, unless the channel is closed. -/
theorem value_write :
    (c.step (.write guard)).next.state.value = c.state.value ∨
      (c.step (.write guard)).next.state.value =
        guard.modify.elim c.state.value fun f => f c.state.value := by
  rw [step]
  split_ifs
  · exact .inl rfl
  · refine .inr ?_
    rw [release]
    split_ifs <;> rfl

/-! ### The producers -/

/-- The counter of producers counts the handles and the upgrades under way. -/
def Counted (c : Channel α) : Prop := c.producers = c.producerHandles + c.tasks.count .produce

/-- What a step that belongs to no producer may do. It ends no producer, and closes the channel
only for a last producer that was dropped before. -/
structure Passive (c c' : Channel α) : Prop where
  value : c'.state.value = c.state.value
  counted : c.Counted → c'.Counted
  handles : c.producerHandles ≤ c'.producerHandles
  drops : .dropProducer ∈ c'.tasks → .dropProducer ∈ c.tasks
  stays : c.state.closed = true → c'.state.closed = true
  closes : c'.state.closed = true → c.state.closed = true ∨ .dropProducer ∈ c.tasks

variable {c} {c' : Channel α} {op : KioOp α}

/-- A step that changes nothing of interest here. -/
theorem passive_of_eq (hvalue : c'.state.value = c.state.value)
    (hclosed : c'.state.closed = c.state.closed) (hproducers : c'.producers = c.producers)
    (hhandles : c'.producerHandles = c.producerHandles) (htasks : c'.tasks = c.tasks) :
    Passive c c' where
  value := hvalue
  counted hc := by rw [Counted, hproducers, hhandles, htasks, hc]
  handles := Nat.le_of_eq hhandles.symm
  drops := by rw [htasks]; exact id
  stays := by rw [hclosed]; exact id
  closes := by rw [hclosed]; exact .inl

theorem Passive.trans {c'' : Channel α} (h : Passive c c') (h' : Passive c' c'') :
    Passive c c'' where
  value := h'.value.trans h.value
  counted := h'.counted ∘ h.counted
  handles := Nat.le_trans h.handles h'.handles
  drops := h.drops ∘ h'.drops
  stays := h'.stays ∘ h.stays
  closes hclosed := (h'.closes hclosed).elim h.closes fun hdrop => .inr (h.drops hdrop)

/-- A step that suspends a task is passive. -/
theorem passive_suspend (task : KioTask) (hdrop : task ≠ .dropProducer)
    (hvalue : c'.state.value = c.state.value) (hclosed : c'.state.closed = c.state.closed)
    (hproducers : c'.producers = c.producers + [task].count .produce)
    (hhandles : c'.producerHandles = c.producerHandles) (htasks : c'.tasks = c.tasks) :
    Passive c (c'.suspend task).next where
  value := hvalue
  counted hc := by
    change c'.producers = c'.producerHandles + (c'.tasks ++ [task]).count .produce
    rw [hproducers, hhandles, htasks, List.count_append, hc, Nat.add_assoc]
  handles := Nat.le_of_eq hhandles.symm
  drops hmem := by
    rcases List.mem_append.mp hmem with hmem | hmem
    · exact htasks ▸ hmem
    · exact absurd (List.mem_singleton.mp hmem).symm hdrop
  stays := by rw [← hclosed]; exact id
  closes h := .inl (hclosed ▸ h)

theorem passive_registerCounted (w : WaiterId) (question : Question α) :
    Passive c (c.registerCounted w question).next := by
  rw [registerCounted]
  split_ifs <;> exact passive_of_eq rfl rfl rfl rfl rfl

/-- An operation takes the lock. -/
theorem passive_finish {i : ℕ} {task : KioTask} (htask : c.tasks[i]? = some task) :
    Passive c (({ c with tasks := c.tasks.eraseIdx i } : Channel α).finish task).next := by
  have hperm := perm_cons_eraseIdx htask
  have hdrops : KioTask.dropProducer ∈ c.tasks.eraseIdx i → KioTask.dropProducer ∈ c.tasks :=
    List.mem_of_mem_eraseIdx
  have hcount : task ≠ .produce → (c.tasks.eraseIdx i).count .produce = c.tasks.count .produce :=
    fun hne => by rw [hperm.count_eq, List.count_cons_of_ne hne]
  have htake : task ≠ .produce → Passive c { c with tasks := c.tasks.eraseIdx i } := fun hne =>
    ⟨rfl, fun hc => by rw [Counted, hcount hne]; exact hc, Nat.le_refl _, hdrops, id, .inl⟩
  cases task with
  | pollUsed w | pollUnused w =>
    rw [finish, weakPollCounted]
    split_ifs
    · exact htake (by simp)
    · exact (htake (by simp)).trans (passive_registerCounted w _)
  | consume | dropConsumer => exact (htake (by simp)).trans (passive_of_eq rfl rfl rfl rfl rfl)
  | dropProducer =>
    rw [finish]
    split_ifs
    · exact htake (by simp)
    · have hkeep := htake (by simp)
      exact ⟨rfl, hkeep.counted, hkeep.handles, hkeep.drops, fun _ => rfl,
        fun _ => .inr (List.mem_of_getElem? htask)⟩
  | produce =>
    have hsucc : c.tasks.count .produce = (c.tasks.eraseIdx i).count .produce + 1 := by
      rw [hperm.count_eq, List.count_cons_self]
    rw [finish]
    split_ifs
    · refine ⟨rfl, fun hc => ?_, Nat.le_refl _, hdrops, id, .inl⟩
      change c.producers - 1 = c.producerHandles + (c.tasks.eraseIdx i).count .produce
      rw [Counted, hsucc] at hc
      omega
    · refine ⟨rfl, fun hc => ?_, Nat.le_succ _, hdrops, id, .inl⟩
      change c.producers = c.producerHandles + 1 + (c.tasks.eraseIdx i).count .produce
      rw [Counted, hsucc] at hc
      omega

/-- Passive operations take passive steps. -/
theorem passive_step (hop : op.passive = true) : Passive c (c.step op).next := by
  cases op with
  | write guard | producerPoll w ready guard | cloneProducer | dropProducer => cases hop
  | newWaiter => exact passive_of_eq rfl rfl rfl rfl rfl
  | dropWaiter w | cloneConsumer =>
    rw [step]
    split_ifs <;> exact passive_of_eq rfl rfl rfl rfl rfl
  | consumerPoll w ready =>
    rw [step, consumerPoll]
    split_ifs <;> exact passive_of_eq rfl rfl rfl rfl rfl
  | pollClosed w =>
    rw [step, pollClosed]
    split_ifs <;> exact passive_of_eq rfl rfl rfl rfl rfl
  | pollUsed w | pollUnused w =>
    rw [step, pollCounted]
    split_ifs
    · exact passive_of_eq rfl rfl rfl rfl rfl
    · exact passive_of_eq rfl rfl rfl rfl rfl
    · exact passive_registerCounted w _
    · exact passive_of_eq rfl rfl rfl rfl rfl
  | weakPollUsed w | weakPollUnused w =>
    rw [step]
    split_ifs
    · exact passive_of_eq rfl rfl rfl rfl rfl
    · exact passive_suspend _ (by simp) rfl rfl rfl rfl rfl
    · exact passive_of_eq rfl rfl rfl rfl rfl
  | consume =>
    rw [step]
    split_ifs
    · exact passive_suspend _ (by simp) rfl rfl rfl rfl rfl
    · exact passive_of_eq rfl rfl rfl rfl rfl
  | dropConsumer =>
    rw [step]
    split_ifs
    · exact passive_of_eq rfl rfl rfl rfl rfl
    · exact passive_of_eq rfl rfl rfl rfl rfl
    · exact passive_suspend _ (by simp) rfl rfl rfl rfl rfl
  | produce => exact passive_suspend _ (by simp) rfl rfl rfl rfl rfl
  | resume i =>
    rw [step]
    cases htask : c.tasks[i]? with
    | some task => exact passive_finish htask
    | none => exact passive_of_eq rfl rfl rfl rfl rfl

/-- A guard leaves the producers alone. -/
theorem step_write (hopen : c.state.closed = false) :
    (c.step (.write guard)).next.state.value =
        guard.modify.elim c.state.value (fun f => f c.state.value) ∧
      (c.step (.write guard)).next.state.closed = guard.close ∧
      (c.step (.write guard)).next.producers = c.producers ∧
      (c.step (.write guard)).next.producerHandles = c.producerHandles ∧
      (c.step (.write guard)).next.tasks = c.tasks := by
  rw [step, hopen, if_neg Bool.false_ne_true, release]
  split_ifs <;> simp [apply, drain, done, hopen]

theorem step_write_of_closed (hclosed : c.state.closed = true) :
    (c.step (.write guard)).next = c := by
  rw [step, if_pos hclosed]
  rfl

variable (c)

theorem state_cloneProducer : (c.step .cloneProducer).next.state = c.state := by
  rw [step]
  split_ifs <;> rfl

/-- The channel is closed later, in a lock section. -/
theorem state_dropProducer : (c.step .dropProducer).next.state = c.state := by
  rw [step]
  split_ifs <;> rfl

/-- Without a guard the value stays. -/
theorem value_step (hop : op.guarded = false) :
    (c.step op).next.state.value = c.state.value := by
  cases op with
  | write guard | producerPoll w ready guard => cases hop
  | cloneProducer => rw [state_cloneProducer]
  | dropProducer => rw [state_dropProducer]
  | _ => exact (passive_step rfl).value

end Channel

end HermitMoq
