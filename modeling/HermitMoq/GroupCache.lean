import HermitMoq.TrackCache
import Mathlib.Algebra.BigOperators.Group.List.Basic
import Mathlib.Algebra.GroupWithZero.Nat
import Mathlib.Data.List.Infix

/-!
# The Cache of a Group

The state behind a group (`moq-net/src/model/group.rs`) over its whole life: frames are appended,
the group is finished, aborted, or dropped by its last producer. A group drops its oldest frames
when it holds too many bytes or too many frames. A history keeps beside the group all frames that
were appended to it.
-/

namespace HermitMoq

open List GroupState

/-- The errors of a group. -/
inductive GroupError
  | cacheFull
  | frameTooLarge
  | closed
  | dropped
  | app (code : ℕ)
  deriving DecidableEq, Repr

/-- `GroupState` of `group.rs`, and whether its channel is closed. -/
structure GroupCell (β : Type) where
  cached : GroupState β := {}
  abort : Option GroupError := none
  closed : Bool := false
  deriving DecidableEq, Repr

namespace GroupCell

variable {β : Type} (len : β → ℕ)

/-- `modify`: the group, unless its channel is closed. -/
def modify (g : GroupCell β) : Except GroupError (GroupCell β) :=
  if g.closed then .error (g.abort.getD .dropped) else .ok g

/-- `GroupProducer::append_frame`. -/
def appendFrame (g : GroupCell β) (frame : β) : Except GroupError (GroupCell β) :=
  if len frame > maxFrameSize then .error .frameTooLarge
  else do
    let g ← g.modify
    if g.cached.fin then .error .closed
    else
      .ok { g with cached := GroupState.evict len { g.cached with
        cache := g.cached.cache + len frame
        frames := g.cached.frames ++ [frame] } }

/-- `GroupProducer::create_frame`: the size is checked before the frame is made. -/
def createFrame (g : GroupCell β) (frame : β) : Except GroupError (GroupCell β) :=
  if len frame > maxFrameSize then .error .frameTooLarge else g.appendFrame len frame

/-- `GroupProducer::finish`. -/
def finish (g : GroupCell β) : Except GroupError (GroupCell β) := do
  let g ← g.modify
  .ok { g with cached := g.cached.finish }

/-- The cached frames are released. -/
def clear (g : GroupCell β) : GroupCell β :=
  { g with cached := { g.cached with frames := [], cache := 0 } }

/-- `GroupProducer::abort`. -/
def abortWith (g : GroupCell β) (e : GroupError) : Except GroupError (GroupCell β) := do
  let g ← g.modify
  .ok { g.clear with abort := some e, closed := true }

/-- The last `GroupProducer` is dropped: an unfinished group releases its frames. -/
def drop (g : GroupCell β) : GroupCell β :=
  if g.closed = false ∧ g.cached.fin = false then { g.clear with closed := true }
  else { g with closed := true }

/-- The end of `GroupConsumer::poll`, when the frames do not answer. -/
def pollClosed {α : Type} (g : GroupCell β) : Poll (Except GroupError α) :=
  match g.abort with
  | some e => .ready (.error e)
  | none => if g.closed then .ready (.error .dropped) else .pending

/-- `GroupConsumer::poll_get_frame`. -/
def pollGetFrame (g : GroupCell β) (index : ℕ) : Poll (Except GroupError (Option β)) :=
  if index < g.cached.offset then .ready (.error .cacheFull)
  else
    match g.cached.frames[index - g.cached.offset]? with
    | some frame => .ready (.ok (some frame))
    | none => if g.cached.fin then .ready (.ok none) else g.pollClosed

/-- `GroupConsumer::poll_next_frame`, with the index afterwards. -/
def pollNextFrame (g : GroupCell β) (index : ℕ) :
    Poll (Except GroupError (Option β)) × ℕ :=
  match g.pollGetFrame index with
  | .ready (.ok (some frame)) => (.ready (.ok (some frame)), index + 1)
  | polled => (polled, index)

/-- `GroupConsumer::poll_finished`: the number of frames. -/
def pollFinished (g : GroupCell β) : Poll (Except GroupError ℕ) :=
  if g.cached.fin then .ready (.ok (g.cached.offset + g.cached.frames.length)) else g.pollClosed

end GroupCell

/-! ### Eviction -/

namespace GroupState

variable {β : Type} (len : β → ℕ)

/-- The condition of the loop of `evict`. -/
def Exceeds (frames : List β) : Prop :=
  (frames.map len).sum > maxGroupCache ∨ frames.length > maxGroupFrames

/-- The loop of `evict` with a subtraction that fails if it would be negative. -/
def evictChecked (fin : Bool) : List β → List β → ℕ → Option (GroupState β)
  | evicted, [], cache => some { evicted, cache, fin }
  | evicted, frame :: frames, cache =>
    if cache > maxGroupCache ∨ (frame :: frames).length > maxGroupFrames then
      if len frame ≤ cache then
        evictChecked fin (evicted ++ [frame]) frames (cache - len frame)
      else none
    else some { evicted, frames := frame :: frames, cache, fin }

variable {len}

/-- More frames exceed the limits if fewer do. -/
theorem Exceeds.of_suffix {frames frames' : List β} (h : Exceeds len frames)
    (hsuffix : frames <:+ frames') : Exceeds len frames' := by
  obtain ⟨_, rfl⟩ := hsuffix
  rcases h with hsum | hlength
  · left
    rw [map_append, sum_append]
    omega
  · right
    rw [length_append]
    omega

variable (len) in
/-- The byte count is right, and one frame more would exceed the limits. -/
structure Tight (evicted frames : List β) (cache : ℕ) : Prop where
  cache_eq : cache = (frames.map len).sum
  exceeds : ∀ frame ∈ evicted.getLast?, Exceeds len (frame :: frames)

variable {evicted frames : List β} {cache : ℕ}

/-- Eviction ends within both limits, keeps the newest frame, and drops no frame too many. -/
theorem Tight.evictLoop (h : Tight len evicted frames cache)
    (hlast : ∀ frame ∈ frames.getLast?, len frame ≤ maxGroupCache) (fin : Bool) :
    let g := evictLoop len fin evicted frames cache
    Tight len g.evicted g.frames g.cache ∧ ¬ Exceeds len g.frames ∧
      g.frames.getLast? = frames.getLast? := by
  induction frames generalizing evicted cache with
  | nil =>
    refine ⟨h, ?_, rfl⟩
    simp [GroupState.evictLoop, Exceeds]
  | cons frame frames ih =>
    have hcache := h.cache_eq
    rw [GroupState.evictLoop]
    split_ifs with hfull
    · have hexceeds : Exceeds len (frame :: frames) := by rwa [Exceeds, ← hcache]
      have hne : frames ≠ [] := by
        -- the newest frame alone is within the limits
        rintro rfl
        have := hlast frame rfl
        rcases hexceeds with hsum | hlength
        · rw [map_singleton, sum_singleton] at hsum
          omega
        · simp [maxGroupFrames] at hlength
      have hnext : Tight len (evicted ++ [frame]) frames (cache - len frame) := by
        refine ⟨?_, fun last hmem => ?_⟩
        · rw [hcache, map_cons, sum_cons]
          omega
        · rw [getLast?_concat] at hmem
          exact Option.some.inj hmem ▸ hexceeds
      have hget : (frame :: frames).getLast? = frames.getLast? := by
        obtain ⟨_, _, rfl⟩ := exists_cons_of_ne_nil hne
        rw [getLast?_cons_cons]
      rw [hget] at hlast ⊢
      exact ih hnext hlast
    · refine ⟨h, ?_, rfl⟩
      rwa [Exceeds, ← hcache]

/-- The subtraction in `evict` does not underflow. -/
theorem evictChecked_eq (h : cache = (frames.map len).sum) (fin : Bool) :
    GroupState.evictChecked len fin evicted frames cache =
      some (GroupState.evictLoop len fin evicted frames cache) := by
  induction frames generalizing evicted cache with
  | nil => rfl
  | cons frame frames ih =>
    rw [map_cons, sum_cons] at h
    rw [evictChecked, evictLoop]
    split_ifs with hfull hle
    · exact ih (by omega)
    · omega
    · rfl

end GroupState

/-! ### Histories -/

/-- What is done to a group. -/
inductive GroupCall (β : Type)
  | appendFrame (frame : β)
  | createFrame (frame : β)
  | finish
  | abort (e : GroupError)
  | drop
  deriving DecidableEq, Repr

/-- A group and all frames that were appended to it. -/
structure GroupHistory (β : Type) where
  group : GroupCell β := {}
  appended : List β := []
  deriving DecidableEq, Repr

namespace GroupHistory

variable {β : Type} (len : β → ℕ)

/-- The frame is appended if the call succeeds. -/
def append (h : GroupHistory β) (frame : β) :
    Except GroupError (GroupCell β) → GroupHistory β
  | .ok group => { group, appended := h.appended ++ [frame] }
  | .error _ => h

/-- A call that changes only the group, if it succeeds. -/
def update (h : GroupHistory β) : Except GroupError (GroupCell β) → GroupHistory β
  | .ok group => { h with group }
  | .error _ => h

/-- The effect of a call. -/
def step (h : GroupHistory β) : GroupCall β → GroupHistory β
  | .appendFrame frame => h.append frame (h.group.appendFrame len frame)
  | .createFrame frame => h.append frame (h.group.createFrame len frame)
  | .finish => h.update h.group.finish
  | .abort e => h.update (h.group.abortWith e)
  | .drop => { h with group := h.group.drop }

/-- A new group after some calls. -/
def run (calls : List (GroupCall β)) : GroupHistory β := calls.foldl (step len) {}

/-- The frames of the group were released: it was aborted, or dropped before it was finished. -/
def Released (h : GroupHistory β) : Prop :=
  h.group.abort.isSome ∨ h.group.closed = true ∧ h.group.cached.fin = false

instance (h : GroupHistory β) : Decidable h.Released := inferInstanceAs (Decidable (_ ∨ _))

/-- What the cache holds, told by the frames that were appended. -/
structure Cached (h : GroupHistory β) : Prop where
  tight : GroupState.Tight len h.group.cached.evicted h.group.cached.frames h.group.cached.cache
  within : ¬ GroupState.Exceeds len h.group.cached.frames
  written : h.group.cached.written = h.appended
  newest : h.group.cached.frames.getLast? = h.appended.getLast?

variable {len} {h : GroupHistory β} {g g' : GroupCell β}

theorem cached_new : Cached len ({} : GroupHistory β) where
  tight := ⟨rfl, nofun⟩
  within := by simp [GroupState.Exceeds]
  written := rfl
  newest := rfl

theorem modify_ok (hok : g.modify = .ok g') :
    g.closed = false ∧ g' = g := by
  rw [GroupCell.modify] at hok
  split_ifs at hok with hclosed
  cases hok
  exact ⟨by simpa using hclosed, rfl⟩

/-- `create_frame` makes the first check of `append_frame` once more. -/
theorem createFrame_eq (g : GroupCell β) (frame : β) :
    g.createFrame len frame = g.appendFrame len frame := by
  rw [GroupCell.createFrame, GroupCell.appendFrame]
  split_ifs <;> rfl

/-- A frame that is appended is within the limits, the group is open, and it is evicted after. -/
theorem appendFrame_ok {frame : β} (hok : g.appendFrame len frame = .ok g') :
    len frame ≤ maxFrameSize ∧ g.closed = false ∧ g.cached.fin = false ∧
      g' = { g with
        cached := evictLoop len g.cached.fin g.cached.evicted
          (g.cached.frames ++ [frame]) (g.cached.cache + len frame) } := by
  rw [GroupCell.appendFrame] at hok
  split_ifs at hok with hlen
  obtain ⟨_, hmodify, happend⟩ := bind_eq_ok.mp hok
  obtain ⟨hclosed, rfl⟩ := modify_ok hmodify
  split_ifs at happend with hfin
  cases happend
  exact ⟨Nat.le_of_not_lt hlen, hclosed, by simpa using hfin, rfl⟩

/-- A frame is appended. -/
theorem Cached.append (hc : Cached len h) {frame : β} {g : GroupCell β}
    (hok : h.group.appendFrame len frame = .ok g) :
    Cached len { group := g, appended := h.appended ++ [frame] } := by
  obtain ⟨hlen, -, -, rfl⟩ := appendFrame_ok hok
  have htight : GroupState.Tight len h.group.cached.evicted (h.group.cached.frames ++ [frame])
      (h.group.cached.cache + len frame) := by
    refine ⟨?_, fun last hlast => (hc.tight.exceeds last hlast).imp ?_ ?_⟩
    · rw [hc.tight.cache_eq, map_append, sum_append, map_singleton,
        sum_singleton]
    · intro hsum
      simp only [map_cons, sum_cons, map_append, sum_append] at hsum ⊢
      omega
    · intro hlength
      simp only [length_cons, length_append] at hlength ⊢
      omega
  have hlast : ∀ last ∈ (h.group.cached.frames ++ [frame]).getLast?,
      len last ≤ maxGroupCache := by
    intro last hmem
    rw [getLast?_concat] at hmem
    exact Option.some.inj hmem ▸ hlen
  obtain ⟨htight', hwithin, hnewest⟩ := htight.evictLoop hlast h.group.cached.fin
  have hspec := GroupState.evictLoop_spec len h.group.cached.fin h.group.cached.evicted
    (h.group.cached.frames ++ [frame]) (h.group.cached.cache + len frame)
  refine ⟨htight', hwithin, ?_, ?_⟩
  · refine hspec.1.trans ?_
    rw [← append_assoc, ← hc.written, GroupState.written]
  · rw [getLast?_concat]
    exact hnewest.trans getLast?_concat

/-- What a call can do. -/
inductive Moves (len : β → ℕ) (h : GroupHistory β) : GroupHistory β → Prop
  | same : Moves len h h
  | append {frame : β} {g : GroupCell β} (hok : h.group.appendFrame len frame = .ok g) :
      Moves len h { group := g, appended := h.appended ++ [frame] }
  | finish (hopen : h.group.closed = false) :
      Moves len h { h with group := { h.group with cached := h.group.cached.finish } }
  | abort (hopen : h.group.closed = false) (e : GroupError) :
      Moves len h { h with group := { h.group.clear with abort := some e, closed := true } }
  | drop (hopen : h.group.closed = false) (hfin : h.group.cached.fin = false) :
      Moves len h { h with group := { h.group.clear with closed := true } }
  | dropFinished (hopen : h.group.closed = false) (hfin : h.group.cached.fin = true) :
      Moves len h { h with group := { h.group with closed := true } }

/-- Every call is one of the moves. -/
theorem moves_step (h : GroupHistory β) (call : GroupCall β) :
    Moves len h (h.step len call) := by
  have happend : ∀ frame, Moves len h (h.append frame (h.group.appendFrame len frame)) := by
    intro frame
    cases hok : h.group.appendFrame len frame with
    | error e => exact .same
    | ok g => exact .append hok
  cases call with
  | appendFrame frame => exact happend frame
  | createFrame frame =>
    rw [GroupHistory.step, createFrame_eq]
    exact happend frame
  | finish =>
    rw [GroupHistory.step]
    cases hok : h.group.finish with
    | error e => exact .same
    | ok g =>
      obtain ⟨g₁, hmodify, hfin⟩ := bind_eq_ok.mp hok
      obtain ⟨hopen, rfl⟩ := modify_ok hmodify
      cases hfin
      exact .finish hopen
  | abort e =>
    rw [GroupHistory.step]
    cases hok : h.group.abortWith e with
    | error e => exact .same
    | ok g =>
      obtain ⟨_, hmodify, habort⟩ := bind_eq_ok.mp hok
      obtain ⟨hopen, rfl⟩ := modify_ok hmodify
      cases habort
      exact .abort hopen e
  | drop =>
    rw [GroupHistory.step, GroupCell.drop]
    cases hclosed : h.group.closed with
    | true =>
      rw [if_neg fun hopen => Bool.noConfusion hopen.1]
      convert Moves.same
      exact hclosed.symm
    | false =>
      split_ifs with hfin
      · exact .drop hclosed hfin.2
      · exact .dropFinished hclosed (by simpa using hfin)

/-- The group after a call, if its frames are still there. -/
theorem Cached.step {h' : GroupHistory β} (hc : ¬ Released h → Cached len h)
    (hmoves : Moves len h h') (hkept : ¬ Released h') : Cached len h' := by
  have hopen : h.group.closed = false → ¬ h.group.abort.isSome → Cached len h :=
    fun hopen habort => hc fun hreleased => hreleased.elim habort fun hclosed => by
      rw [hopen] at hclosed
      cases hclosed.1
  cases hmoves with
  | same => exact hc hkept
  | append hok =>
    obtain ⟨-, hclosed, -, heq⟩ := appendFrame_ok hok
    refine (hopen hclosed fun habort => hkept (.inl ?_)).append hok
    rwa [heq]
  | finish hclosed | dropFinished hclosed hfin =>
    have hprev := hopen hclosed fun habort => hkept (.inl habort)
    exact ⟨hprev.tight, hprev.within, hprev.written, hprev.newest⟩
  | abort hclosed e => exact absurd (.inl rfl) hkept
  | drop hclosed hfin => exact absurd (.inr ⟨rfl, hfin⟩) hkept

theorem cached_after (calls : List (GroupCall β)) (hkept : ¬ Released (run len calls)) :
    Cached len (run len calls) := by
  induction calls using reverseRecOn with
  | nil => exact cached_new
  | append_singleton calls call ih =>
    rw [run, foldl_append] at hkept ⊢
    exact Cached.step ih (moves_step _ call) hkept

/-- The number of evicted frames and those in the cache are all. -/
theorem Cached.length_eq (hc : Cached len h) :
    h.group.cached.offset + h.group.cached.frames.length = h.appended.length := by
  rw [← hc.written, GroupState.written, length_append, GroupState.offset]

/-- A longer part of the appended frames exceeds the limits. -/
theorem Cached.longest (hc : Cached len h) {frames : List β} (hsuffix : frames <:+ h.appended)
    (hlonger : h.group.cached.frames.length < frames.length) : GroupState.Exceeds len frames := by
  have hle := hsuffix.length_le
  rw [← hc.length_eq, offset] at hle
  obtain ⟨older, last, hevicted⟩ : ∃ older last, h.group.cached.evicted = older ++ [last] :=
    eq_nil_or_concat' h.group.cached.evicted |>.resolve_left fun hnil => by
      rw [hnil, length_nil] at hle
      omega
  refine (hc.tight.exceeds last (by rw [hevicted, getLast?_concat]; rfl)).of_suffix ?_
  refine suffix_of_suffix_length_le ?_ hsuffix hlonger
  rw [← hc.written, GroupState.written, hevicted, append_assoc]
  exact suffix_append _ _

/-- What a consumer gets. -/
theorem Cached.pollGetFrame (hc : Cached len h) {i : ℕ} (hi : h.group.cached.offset ≤ i) :
    h.group.pollGetFrame i =
      (h.appended[i]?).elim (if h.group.cached.fin then .ready (.ok none) else h.group.pollClosed)
        fun frame => .ready (.ok (some frame)) := by
  have hget : h.group.cached.frames[i - h.group.cached.offset]? = h.appended[i]? := by
    rw [← hc.written, GroupState.written, getElem?_append_right hi, GroupState.offset]
  rw [GroupCell.pollGetFrame, if_neg (Nat.not_lt.mpr hi), hget]
  cases h.appended[i]? <;> rfl

theorem pollClosed_eq {α : Type} (hkept : ¬ Released h) (hfin : h.group.cached.fin = false) :
    h.group.pollClosed (α := α) = .pending := by
  rw [Released, not_or, Option.not_isSome_iff_eq_none] at hkept
  obtain ⟨habort, hclosed⟩ := hkept
  rw [GroupCell.pollClosed, habort]
  exact if_neg fun hclosed' => hclosed ⟨hclosed', hfin⟩

end GroupHistory

/-- **The cache of a group.** After any calls the cache of a group that was not aborted, nor dropped
before it was finished, is the longest part of the appended frames, up to the newest one, within
both limits. Its count of bytes is right and does not underflow when a further frame is appended. A
consumer gets the frame at an index, an error if the frame was evicted, and waits for it otherwise,
or gets the end of a finished group. -/
theorem group_cache {β : Type} (len : β → ℕ) (calls : List (GroupCall β))
    (hkept : ¬ (GroupHistory.run len calls).Released) :
    let h := GroupHistory.run len calls
    let g := h.group.cached
    g.cache = (g.frames.map len).sum ∧ g.cache ≤ maxGroupCache ∧
      g.frames.length ≤ maxGroupFrames ∧
      g.frames <:+ h.appended ∧ g.frames.getLast? = h.appended.getLast? ∧
      (∀ frames, frames <:+ h.appended → g.frames.length < frames.length →
        (frames.map len).sum > maxGroupCache ∨ frames.length > maxGroupFrames) ∧
      g.offset + g.frames.length = h.appended.length ∧
      (∀ i < g.offset, h.group.pollGetFrame i = .ready (.error .cacheFull)) ∧
      (∀ i frame, g.offset ≤ i → h.appended[i]? = some frame →
        h.group.pollGetFrame i = .ready (.ok (some frame))) ∧
      (∀ i ≥ h.appended.length,
        h.group.pollGetFrame i = if g.fin then .ready (.ok none) else .pending) ∧
      ∀ frame, evictChecked len g.fin g.evicted (g.frames ++ [frame])
        (g.cache + len frame) =
          some (evict len
            { g with cache := g.cache + len frame, frames := g.frames ++ [frame] }) := by
  intro h g
  have hc : h.Cached len := GroupHistory.cached_after calls hkept
  have hwithin := hc.within
  rw [GroupState.Exceeds, ← hc.tight.cache_eq, not_or, Nat.not_lt, Nat.not_lt] at hwithin
  refine ⟨hc.tight.cache_eq, hwithin.1, hwithin.2, ?_, hc.newest, fun frames => hc.longest,
    hc.length_eq, fun i hi => ?_, fun i frame hi hframe => ?_, fun i hi => ?_, fun frame => ?_⟩
  · rw [← hc.written]
    exact suffix_append _ _
  · rw [GroupCell.pollGetFrame, if_pos hi]
  · rw [hc.pollGetFrame hi, hframe]
    rfl
  · have hle : g.offset ≤ i := by
      have hlength : g.offset + g.frames.length = h.appended.length := hc.length_eq
      omega
    rw [hc.pollGetFrame hle, getElem?_eq_none hi, Option.elim_none]
    split_ifs with hfin
    · rfl
    · exact GroupHistory.pollClosed_eq hkept (by simpa using hfin)
  · refine evictChecked_eq ?_ g.fin
    rw [hc.tight.cache_eq, map_append, sum_append, map_singleton, sum_singleton]

/-- Of two frames of 20 MiB the first is evicted. -/
theorem group_cache_two :
    ¬ (GroupHistory.run id [.createFrame 20971520, .appendFrame 20971520, .finish]).Released ∧
      (GroupHistory.run id [.createFrame 20971520, .appendFrame 20971520,
        .finish]).group.pollGetFrame 0 = .ready (.error .cacheFull) :=
  ⟨by decide, (group_cache id [.createFrame 20971520, .appendFrame 20971520, .finish]
    (by decide)).2.2.2.2.2.2.2.1 0 (by decide)⟩

end HermitMoq
