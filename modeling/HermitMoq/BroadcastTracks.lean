import HermitMoq.Broadcast

/-!
# Requested Tracks and Reusable Names

The invariant of a broadcast: the counter of handlers is right while the broadcast is open, nothing
is requested without a handler or after the end, every request is queued, picked up or aborted, and
the lookup has tracks under their own names.
-/

namespace HermitMoq

open List System AList Nat Bool Channel

namespace Broadcast

/-! ### Handles -/

/-- The channel has a producer for each of the holders, and its last one is not being dropped
before they are gone. -/
structure Held (c : Channel State) (holders : ℕ) : Prop where
  counted : c.Counted
  le : holders ≤ c.producerHandles
  dropping : .dropProducer ∈ c.tasks → holders = 0

namespace Held

variable {c : Channel State} {holders : ℕ}

section

variable (hs : Held c holders)

include hs

theorem give {fewer : ℕ} (hle : fewer ≤ holders) : Held c fewer :=
  ⟨hs.counted, le_trans hle hs.le, fun hdrop => le_zero.mp (hs.dropping hdrop ▸ hle)⟩

theorem passive {op : KioOp State} (hop : op.passive = true) :
    Held (c.step op).next holders := by
  have hpassive := passive_step (c := c) hop
  exact ⟨hpassive.counted hs.counted, le_trans hs.le hpassive.handles,
    fun hdrop => hs.dropping (hpassive.drops hdrop)⟩

theorem write (guard : Guard State) :
    Held (c.step (.write guard)).next holders := by
  cases hopen : c.state.closed with
  | true =>
    rw [step_write_of_closed guard hopen]
    exact hs
  | false =>
    obtain ⟨-, -, hproducers, hhandles, htasks⟩ := step_write guard hopen
    refine ⟨?_, hhandles ▸ hs.le, htasks ▸ hs.dropping⟩
    rw [Channel.Counted, hproducers, hhandles, htasks]
    exact hs.counted

/-- A holder makes another one. -/
theorem clone (hne : holders ≠ 0) :
    Held (c.step .cloneProducer).next (holders + 1) := by
  have hle := hs.le
  have hhandles : c.producerHandles ≠ 0 := by omega
  rw [step, if_neg hhandles]
  refine ⟨?_, succ_le_succ hs.le, fun hdrop => absurd (hs.dropping hdrop) hne⟩
  have hcounted : c.producers = c.producerHandles + c.tasks.count .produce := hs.counted
  change c.producers + 1 = c.producerHandles + 1 + c.tasks.count .produce
  omega

/-- A producer is dropped that is none of the holders. -/
theorem release (hlt : holders < c.producerHandles) :
    Held (c.step .dropProducer).next holders := by
  have hcounted : c.producers = c.producerHandles + c.tasks.count .produce := hs.counted
  rw [step, if_neg (ne_of_gt (zero_lt_of_lt hlt))]
  split_ifs with hmany
  · refine ⟨?_, le_sub_one_of_lt hlt, hs.dropping⟩
    change c.producers - 1 = c.producerHandles - 1 + c.tasks.count .produce
    omega
  · refine ⟨?_, le_sub_one_of_lt hlt, fun _ => by omega⟩
    have hcount : (c.tasks ++ [KioTask.dropProducer]).count .produce = c.tasks.count .produce :=
      count_append
    change c.producers - 1 = c.producerHandles - 1 +
      (c.tasks ++ [KioTask.dropProducer]).count .produce
    rw [hcount]
    omega

end

end Held

/-! ### Tracks -/

/-- Every track is still there, with its name, and closed if it was closed. -/
def Grows (before after : List TrackState) : Prop :=
  ∀ (t : TrackId) (track : TrackState), before[t]? = some track →
    ∃ track', after[t]? = some track' ∧ track'.name = track.name ∧
      (track.closed = true → track'.closed = true)

namespace Grows

variable {a b c : List TrackState}

theorem refl (a : List TrackState) : Grows a a := fun _ _ hat => ⟨_, hat, rfl, id⟩

theorem trans (hab : Grows a b) (hbc : Grows b c) : Grows a c := by
  intro t track hat
  obtain ⟨track', hat', hname, hclosed⟩ := hab t track hat
  obtain ⟨track'', hat'', hname', hclosed'⟩ := hbc t track' hat'
  exact ⟨track'', hat'', hname'.trans hname, hclosed' ∘ hclosed⟩

theorem append (a : List TrackState) (track : TrackState) : Grows a (a ++ [track]) := by
  intro t track hat
  refine ⟨track, ?_, rfl, id⟩
  rw [List.getElem?_append_left (List.getElem?_eq_some_iff.mp hat).1, hat]

variable {f : TrackState → TrackState}

theorem modify (a : List TrackState) (i : TrackId) (hname : ∀ track, (f track).name = track.name)
    (hclosed : ∀ track, track.closed = true → (f track).closed = true) :
    Grows a (a.modify i f) := by
  intro t track hat
  rw [getElem?_modify, hat]
  by_cases hi : i = t
  · exact ⟨f track, by simp [hi], hname track, hclosed track⟩
  · exact ⟨track, by simp [hi], rfl, id⟩

theorem foldl_modify (ts : List TrackId) (a : List TrackState)
    (hname : ∀ track, (f track).name = track.name)
    (hclosed : ∀ track, track.closed = true → (f track).closed = true) :
    Grows a (ts.foldl (fun tracks t => tracks.modify t f) a) := by
  induction ts generalizing a with
  | nil => exact refl a
  | cons t ts ih => exact (modify a t hname hclosed).trans (ih _)

/-- Of the tracks that are aborted and dropped one after another, each ends up closed. -/
theorem closed_foldl {ts : List TrackId} {t : TrackId} (hmem : t ∈ ts) (hlt : t < a.length) :
    ∃ track, (ts.foldl (fun tracks t => tracks.modify t fun track => track.abort.drop) a)[t]? =
      some track ∧ track.closed = true := by
  induction ts generalizing a with
  | nil => cases hmem
  | cons u ts ih =>
    rcases mem_cons.mp hmem with rfl | hmem
    · have hat : (a.modify t fun track => track.abort.drop)[t]? = some a[t].abort.drop := by
        rw [getElem?_modify_eq, getElem?_eq_getElem hlt]
        rfl
      obtain ⟨track, hat', -, hclosed⟩ :=
        foldl_modify (f := fun track => track.abort.drop) ts _ (fun _ => rfl) (fun _ _ => rfl)
          t _ hat
      exact ⟨track, hat', hclosed rfl⟩
    · exact ih hmem (by rwa [length_modify])

/-- No track is forgotten. -/
theorem length_le (h : Grows a b) : a.length ≤ b.length := by
  by_contra hlt
  obtain ⟨_, hat, -⟩ := h _ _ (getElem?_eq_getElem (Nat.lt_of_not_le hlt))
  exact absurd (List.getElem?_eq_some_iff.mp hat).1 (lt_irrefl _)

end Grows

variable {track : TrackState} (v : State) (last : Bool)

theorem closed_clone (h : track.closed = true) :
    track.clone.closed = true := by
  rw [TrackState.clone]
  split_ifs <;> exact h

theorem name_clone (track : TrackState) : track.clone.name = track.name := by
  rw [TrackState.clone]
  split_ifs <;> rfl

theorem closed_drop (h : track.closed = true) : track.drop.closed = true := by
  rw [TrackState.drop, h]
  rfl

theorem State.dropDynamic_eq :
    v.dropDynamic last =
      ⟨if last then ∅ else v.tracks, if v.dynamic - 1 ≠ 0 then v.requests else [], v.dynamic - 1,
        v.abort⟩ := by
  cases last <;> by_cases hzero : v.dynamic - 1 = 0 <;> simp [State.dropDynamic, hzero]

theorem State.insertTrack_cases (name : String) (t : TrackId) :
    (∃ u, v.tracks.lookup name = some u) ∧ v.insertTrack name t = .error .duplicate ∨
      v.tracks.lookup name = none ∧
        v.insertTrack name t = .ok { v with tracks := v.tracks.insert name t } := by
  rw [State.insertTrack]
  cases v.tracks.lookup name with
  | some u => exact .inl ⟨⟨u, rfl⟩, rfl⟩
  | none => exact .inr ⟨rfl, rfl⟩

/-- A subscription finds an open track, or drops a closed one from the lookup and requests a new
track, if there is a handler. -/
theorem State.subscribeTrack_cases (isClosed : TrackId → Bool) (name : String) (fresh : TrackId) :
    (∃ t, v.tracks.lookup name = some t ∧ isClosed t = false ∧
      v.subscribeTrack isClosed name fresh = (v, .ok t)) ∨
    ∃ entries : AList fun _ : String => TrackId,
      (∀ n, entries.lookup n = if n = name then none else v.tracks.lookup n) ∧
      (∀ t, v.tracks.lookup name = some t → isClosed t = true) ∧
      (v.dynamic = 0 ∧ v.subscribeTrack isClosed name fresh =
          ({ v with tracks := entries }, .error .notFound) ∨
        v.dynamic ≠ 0 ∧ v.subscribeTrack isClosed name fresh =
          ({ v with
              tracks := entries.insert name fresh
              requests := v.requests ++ [fresh] },
            .ok fresh)) := by
  have hrequest : ∀ entries : AList fun _ : String => TrackId,
      v.dynamic = 0 ∧ { v with tracks := entries }.requestTrack name fresh =
          ({ v with tracks := entries }, .error .notFound) ∨
        v.dynamic ≠ 0 ∧ { v with tracks := entries }.requestTrack name fresh =
          ({ v with
              tracks := entries.insert name fresh
              requests := v.requests ++ [fresh] },
            .ok fresh) := by
    intro entries
    by_cases hzero : v.dynamic = 0
    · exact .inl ⟨hzero, if_pos hzero⟩
    · exact .inr ⟨hzero, if_neg hzero⟩
  rw [State.subscribeTrack]
  cases hlookup : v.tracks.lookup name with
  | none =>
    refine .inr ⟨v.tracks, fun n => ?_, nofun, hrequest v.tracks⟩
    split_ifs with hn
    · exact hn ▸ hlookup
    · rfl
  | some t =>
    cases hclosed : isClosed t with
    | false => exact .inl ⟨t, rfl, hclosed, if_pos hclosed⟩
    | true =>
      dsimp only
      rw [if_neg (by simp [hclosed])]
      refine .inr ⟨v.tracks.erase name, fun n => ?_,
        fun t' h => Option.some.inj h ▸ hclosed, hrequest _⟩
      split_ifs with hn
      · exact hn ▸ lookup_erase _ _
      · exact lookup_erase_ne hn

/-- The task of an unused track removes its own entry and no other. -/
theorem State.lookup_removeUnused {nameOf : TrackId → String}
    (hnamed : ∀ {name t}, v.tracks.lookup name = some t → nameOf t = name) (t : TrackId)
    (name : String) :
    (v.removeUnused nameOf t).tracks.lookup name =
      if v.tracks.lookup name = some t then none else v.tracks.lookup name := by
  have hother : name ≠ nameOf t → v.tracks.lookup name ≠ some t :=
    fun hname hlookup => hname (hnamed hlookup).symm
  rw [State.removeUnused]
  cases hlookup : v.tracks.lookup (nameOf t) with
  | none =>
    have hne : v.tracks.lookup name ≠ some t := by
      intro h
      rw [hnamed h, h] at hlookup
      cases hlookup
    rw [if_neg hne]
  | some current =>
    by_cases hcurrent : current = t
    · subst hcurrent
      dsimp only
      rw [if_pos rfl]
      by_cases hname : name = nameOf current
      · rw [hname, lookup_erase, if_pos hlookup]
      · rw [lookup_erase_ne hname, if_neg (hother hname)]
    · -- a newer track has taken the name, and is put back
      dsimp only
      rw [if_neg hcurrent, hnamed hlookup]
      by_cases hname : name = nameOf t
      · rw [hname, lookup_insert, hlookup, if_neg (by simpa using hcurrent)]
      · rw [lookup_insert_ne hname, lookup_erase_ne hname, if_neg (hother hname)]

/-! ### The invariant -/

namespace System

/-- The invariant. -/
structure Sound (s : System) : Prop where
  held : Held s.channel (s.owners + s.handlers)
  dynamic : s.isClosed = false → s.value.dynamic = s.handlers
  idle : s.isClosed = false → s.value.dynamic = 0 → s.value.requests = []
  closed : s.isClosed = true → s.value.requests = []
  /-- The lookup has tracks under their own names. -/
  named {name : String} {t : TrackId} : s.value.tracks.lookup name = some t →
    ∃ track, s.tracks[t]? = some track ∧ track.name = name
  requests : (s.value.requests ++ s.popped ++ s.aborted).Perm s.requested
  nodup : s.requested.Nodup
  cut {t : TrackId} : t ∈ s.aborted → s.trackClosed t = true
  lt {t : TrackId} : t ∈ s.requested → t < s.tracks.length

theorem sound_init : init.Sound where
  held := ⟨rfl, le_refl 1, nofun⟩
  dynamic _ := rfl
  idle _ _ := rfl
  closed _ := rfl
  named h := nomatch h
  requests := List.Perm.nil
  nodup := nodup_nil
  cut h := nomatch h
  lt h := nomatch h

variable {s : System}

theorem value_put (hopen : s.isClosed = false) (v : State) (close : Bool) :
    (s.put v close).value = v ∧ (s.put v close).isClosed = close := by
  obtain ⟨hvalue, hclosed, -⟩ := step_write ⟨some fun _ => v, close⟩ hopen
  exact ⟨hvalue, hclosed⟩

theorem put_of_closed (hclosed : s.isClosed = true) (v : State) (close : Bool) :
    s.put v close = s := by
  rw [put, step_write_of_closed _ hclosed]

variable {name : String} {t : TrackId} {v}

theorem value_put_tracks (hlookup : s.value.tracks.lookup name = some t)
    (hv : v.tracks.lookup name = some t) (close : Bool) :
    (s.put v close).value.tracks.lookup name = some t := by
  cases hopen : s.isClosed with
  | true => rwa [put_of_closed hopen]
  | false => rwa [(value_put hopen v close).1]

/-- The operations that may remove a track from the lookup under its name. -/
def Removes (name : String) (t : TrackId) : Op → Prop
  | .removeTrack n => n = name
  | .removeUnused u => u = t
  | .abort _ => True
  | .dropProducer last => last = true
  | .dropDynamic last => last = true
  | _ => False

/-- What a step does: it keeps the invariant and all tracks, and the entries of open tracks in the
lookup up to those that it removes. -/
structure Follows (s s' : System) (removed : String → TrackId → Prop) : Prop where
  sound : s'.Sound
  grows : Grows s.tracks s'.tracks
  kept {name : String} {t : TrackId} : s.value.tracks.lookup name = some t →
    s.trackClosed t = false → ¬ removed name t → s'.value.tracks.lookup name = some t

variable {removed : String → TrackId → Prop} {close : Bool} {s' : System}

theorem Sound.same (hs : s.Sound) : s.Follows s removed :=
  ⟨hs, Grows.refl _, fun hlookup _ _ => hlookup⟩

/-- A lock section that leaves the value `v`. -/
theorem Sound.of_put (hs : s.Sound) (hopen : s.isClosed = false)
    (hchannel : s'.channel = (s.put v close).channel)
    (hgrows : Grows s.tracks s'.tracks)
    (hholders : s'.owners + s'.handlers ≤ s.owners + s.handlers)
    (hdynamic : close = false → v.dynamic = s'.handlers)
    (hidle : close = true ∨ v.dynamic = 0 → v.requests = [])
    (hnamed : ∀ {name t}, v.tracks.lookup name = some t →
      ∃ track, s'.tracks[t]? = some track ∧ track.name = name)
    (hrequests : (v.requests ++ s'.popped ++ s'.aborted).Perm s'.requested)
    (hnodup : s'.requested.Nodup) (hcut : ∀ {t}, t ∈ s'.aborted → s'.trackClosed t = true)
    (hlt : ∀ {t}, t ∈ s'.requested → t < s'.tracks.length)
    (hkept : ∀ {name t}, s.value.tracks.lookup name = some t → s.trackClosed t = false →
      ¬ removed name t → v.tracks.lookup name = some t) :
    s.Follows s' removed := by
  obtain ⟨hvalue, hclosed⟩ := value_put hopen v close
  have hvalue' : s'.value = v := by rw [value, hchannel]; exact hvalue
  have hclosed' : s'.isClosed = close := by rw [isClosed, hchannel]; exact hclosed
  refine ⟨⟨?_, ?_, ?_, ?_, ?_, ?_, hnodup, hcut, hlt⟩, hgrows, ?_⟩
  · rw [hchannel]
    exact (hs.held.write _).give hholders
  · rw [hvalue', hclosed']
    exact hdynamic
  · rw [hvalue']
    exact fun _ hzero => hidle (.inr hzero)
  · rw [hvalue', hclosed']
    exact fun hclose => hidle (.inl hclose)
  · rw [hvalue']
    exact hnamed
  · rwa [hvalue']
  · rw [hvalue']
    exact hkept

variable {tracks : List TrackState} {owners handlers : ℕ}

/-- A track that is closed stays so. -/
theorem trackClosed_of_grows (hgrows : Grows s.tracks s'.tracks)
    (hlt : t < s.tracks.length) (hclosed : s.trackClosed t = true) : s'.trackClosed t = true := by
  have hat := getElem?_eq_getElem hlt
  obtain ⟨_, hat', -, hstays⟩ := hgrows t _ hat
  rw [trackClosed, hat] at hclosed
  rw [trackClosed, hat']
  exact hstays hclosed

section

variable (hs : s.Sound)

include hs

/-- The entries of a lookup that was there before keep their names. -/
theorem Sound.named_of_grows (hgrows : Grows s.tracks tracks)
    (hlookup : s.value.tracks.lookup name = some t) :
    ∃ track, tracks[t]? = some track ∧ track.name = name := by
  obtain ⟨track, hat, hname⟩ := hs.named hlookup
  obtain ⟨track', hat', hname', -⟩ := hgrows t track hat
  exact ⟨track', hat', hname'.trans hname⟩

/-- The tracks that are aborted stay closed. -/
theorem Sound.cut_of_grows (hgrows : Grows s.tracks s'.tracks) (hmem : t ∈ s.aborted) :
    s'.trackClosed t = true :=
  trackClosed_of_grows hgrows (hs.lt (hs.requests.subset (mem_append_right _ hmem))) (hs.cut hmem)

/-- A lock section that aborts all requests. -/
theorem Sound.drain (hopen : s.isClosed = false)
    (hholders : owners + handlers ≤ s.owners + s.handlers)
    (hdynamic : close = false → v.dynamic = handlers) (hnil : v.requests = [])
    (hlookup : ∀ {name t}, v.tracks.lookup name = some t → s.value.tracks.lookup name = some t)
    (hkept : ∀ {name t}, s.value.tracks.lookup name = some t → ¬ removed name t →
      v.tracks.lookup name = some t) :
    s.Follows { (s.put v close).abortRequests s.value.requests with owners, handlers }
      removed := by
  have hgrows : Grows s.tracks ((s.put v close).abortRequests s.value.requests).tracks :=
    Grows.foldl_modify _ _ (fun _ => rfl) fun _ _ => rfl
  refine hs.of_put hopen rfl hgrows hholders hdynamic (fun _ => hnil)
    (fun h => hs.named_of_grows hgrows (hlookup h)) ?_ hs.nodup (fun {t} hmem => ?_)
    (fun hmem => lt_of_lt_of_le (hs.lt hmem) hgrows.length_le) fun h _ => hkept h
  · refine List.Perm.trans ?_ hs.requests
    change (v.requests ++ s.popped ++ (s.aborted ++ s.value.requests)).Perm _
    rw [hnil, nil_append, ← append_assoc, append_assoc s.value.requests]
    exact perm_append_comm
  · rcases mem_append.mp hmem with hmem | hmem
    · exact hs.cut_of_grows hgrows hmem
    · have hrequested : t ∈ s.requested :=
        hs.requests.subset (mem_append_left _ (mem_append_left _ hmem))
      obtain ⟨track, hat, hclosed⟩ := Grows.closed_foldl hmem (hs.lt hrequested)
      exact (congrArg (·.elim true TrackState.closed) hat).trans hclosed

/-- A change of the tracks alone. -/
theorem Sound.of_grows (hgrows : Grows s.tracks tracks) :
    s.Follows { s with tracks } removed where
  sound :=
    { hs with
      named := fun hlookup => hs.named_of_grows hgrows hlookup
      cut := fun hmem => hs.cut_of_grows hgrows hmem
      lt := fun hmem => lt_of_lt_of_le (hs.lt hmem) hgrows.length_le }
  grows := hgrows
  kept hlookup _ _ := hlookup

theorem Sound.dropProducer :
    s.Follows (s.dropProducer last) fun _ _ => last = true := by
  have hholders : s.owners - 1 + s.handlers ≤ s.owners + s.handlers := by omega
  rw [System.dropProducer]
  split_ifs with hkeep
  · exact { hs.same with sound := { hs with held := hs.held.give hholders } }
  · have hopen : s.isClosed = false := eq_false_iff.mpr fun h => hkeep (.inr h)
    exact hs.drain hopen hholders (fun _ => hs.dynamic hopen) rfl nofun
      fun _ hlast => absurd (eq_false_iff.mpr hlast) fun h => hkeep (.inl h)

/-- A handler that goes keeps the entries, unless it is the last one. -/
theorem Sound.dropDynamic :
    s.Follows (s.dropDynamic last) fun _ _ => last = true := by
  have hholders : s.owners + (s.handlers - 1) ≤ s.owners + s.handlers := by omega
  cases hopen : s.isClosed with
  | true =>
    have heq : s.dropDynamic last = { s with handlers := s.handlers - 1 } := if_pos hopen
    rw [heq]
    refine { hs.same with sound := { hs with
      held := hs.held.give hholders
      dynamic := fun hclosed => ?_ } }
    cases hopen.symm.trans hclosed
  | false =>
    have hdynamic : (s.value.dropDynamic last).dynamic = s.handlers - 1 := by
      rw [State.dropDynamic_eq, ← hs.dynamic hopen]
    have hlookup : ∀ {name t}, (s.value.dropDynamic last).tracks.lookup name = some t →
        s.value.tracks.lookup name = some t := by
      intro name t h
      rw [State.dropDynamic_eq] at h
      cases last with
      | true => cases h
      | false => exact h
    have hkept : ∀ {name t}, s.value.tracks.lookup name = some t → ¬ last = true →
        (s.value.dropDynamic last).tracks.lookup name = some t := by
      intro name t h hlast
      rw [State.dropDynamic_eq, if_neg hlast]
      exact h
    have hnot : ¬ s.isClosed = true := eq_false_iff.mp hopen
    by_cases hmany : (s.value.dropDynamic last).dynamic ≠ 0
    · have heq : s.dropDynamic last =
          { s.put (s.value.dropDynamic last) false with handlers := s.handlers - 1 } :=
        (if_neg hnot).trans (if_pos hmany)
      have hrequests : (s.value.dropDynamic last).requests = s.value.requests := by
        rw [State.dropDynamic_eq] at hmany ⊢
        exact if_pos hmany
      rw [heq]
      refine hs.of_put hopen rfl (Grows.refl _) hholders (fun _ => hdynamic) (fun hend => ?_)
        (fun h => hs.named (hlookup h)) (hrequests ▸ hs.requests) hs.nodup hs.cut hs.lt
        fun h _ => hkept h
      exact absurd (hend.resolve_left false_ne_true) hmany
    · have heq : s.dropDynamic last =
          { (s.put (s.value.dropDynamic last) false).abortRequests s.value.requests with
            handlers := s.handlers - 1 } :=
        (if_neg hnot).trans (if_neg hmany)
      have hnil : (s.value.dropDynamic last).requests = [] := by
        rw [State.dropDynamic_eq] at hmany ⊢
        exact if_neg hmany
      rw [heq]
      exact hs.drain hopen hholders (fun _ => hdynamic) hnil hlookup hkept

/-- Taking a request keeps the entries. -/
theorem Sound.requestedTrack : s.Follows s.requestedTrack.1 removed := by
  rw [System.requestedTrack]
  split_ifs with hclosed
  · exact hs.same
  have hopen : s.isClosed = false := eq_false_iff.mpr hclosed
  cases hlast : s.value.requests.getLast? with
  | none => exact hs.same
  | some t =>
    have hsplit : s.value.requests = s.value.requests.dropLast ++ [t] :=
      (dropLast_append_getLast? t hlast).symm
    refine hs.of_put hopen rfl (Grows.refl _) (le_refl _) (fun _ => hs.dynamic hopen)
      (fun hend => ?_) hs.named ?_ hs.nodup hs.cut hs.lt fun h _ _ => h
    · have hnil := hs.idle hopen (hend.resolve_left false_ne_true)
      rw [hnil] at hlast
      cases hlast
    · refine List.Perm.trans ?_ hs.requests
      change (s.value.requests.dropLast ++ (s.popped ++ [t]) ++ s.aborted).Perm _
      have hmove : (s.value.requests.dropLast ++ (s.popped ++ [t]) ++ s.aborted).Perm
          (s.value.requests.dropLast ++ [t] ++ s.popped ++ s.aborted) := by
        refine List.Perm.append_right _ ?_
        rw [append_assoc]
        exact perm_append_comm.append_left _
      rwa [← hsplit] at hmove

end

variable {entries : AList fun _ : String => TrackId}

/-- A lock section that changes the lookup alone. -/
theorem Sound.put_tracks (hs : s.Sound) (hopen : s.isClosed = false) {watched : List TrackId}
    (hgrows : Grows s.tracks tracks)
    (hnamed : ∀ {name t}, entries.lookup name = some t →
      ∃ track, tracks[t]? = some track ∧ track.name = name)
    (hkept : ∀ {name t}, s.value.tracks.lookup name = some t → s.trackClosed t = false →
      ¬ removed name t → entries.lookup name = some t) :
    s.Follows { s.put { s.value with tracks := entries } false with tracks, watched } removed :=
  hs.of_put hopen rfl hgrows (le_refl _) (fun _ => hs.dynamic hopen)
    (fun hend => hs.idle hopen (hend.resolve_left false_ne_true)) hnamed hs.requests hs.nodup
    (hs.cut_of_grows hgrows) (fun hmem => lt_of_lt_of_le (hs.lt hmem) hgrows.length_le) hkept

/-- The new entry of a lookup has its name, and the others keep theirs. -/
theorem Sound.named_insert (hs : s.Sound) (hgrows : Grows s.tracks tracks)
    (hat : tracks[t]? = some track) (hname : track.name = name) {n : String}
    {u : TrackId} (hlookup : (s.value.tracks.insert name t).lookup n = some u) :
    ∃ track, tracks[u]? = some track ∧ track.name = n := by
  by_cases hn : n = name
  · subst hn
    rw [lookup_insert] at hlookup
    cases hlookup
    exact ⟨track, hat, hname⟩
  · rw [lookup_insert_ne hn] at hlookup
    exact hs.named_of_grows hgrows hlookup

theorem lookup_insert_of_none {n : String} {t u : TrackId} (hlookup : entries.lookup name = some t)
    (hnone : entries.lookup n = none) : (entries.insert n u).lookup name = some t := by
  have hn : name ≠ n := by
    rintro rfl
    cases hlookup.symm.trans hnone
  rwa [lookup_insert_ne hn]

theorem lookup_of_erase {erased n : String}
    (hlookup : (entries.erase erased).lookup n = some t) : entries.lookup n = some t := by
  by_cases hn : n = erased
  · subst hn
    rw [lookup_erase] at hlookup
    cases hlookup
  · rwa [lookup_erase_ne hn] at hlookup

section

variable (hs : s.Sound) {c : Channel State}

include hs

/-- Creating a track keeps the entries. -/
theorem Sound.createTrack (name : String) :
    s.Follows (s.createTrack name).1 removed := by
  have hfailed : s.Follows _ removed :=
    hs.of_grows (Grows.append s.tracks (TrackState.new name).drop)
  rw [System.createTrack]
  split_ifs with hclosed
  · exact hfailed
  have hopen : s.isClosed = false := eq_false_iff.mpr hclosed
  rcases s.value.insertTrack_cases name s.tracks.length with ⟨-, heq⟩ | ⟨hnone, heq⟩
  · rw [heq]
    exact hfailed
  · rw [heq]
    have hgrows := Grows.append s.tracks (TrackState.new name)
    exact hs.put_tracks hopen hgrows (hs.named_insert hgrows getElem?_concat_length rfl)
      fun h _ _ => lookup_insert_of_none h hnone

/-- Inserting a track keeps the entries. -/
theorem Sound.insertTrack (hlt : t < s.tracks.length) :
    s.Follows (s.insertTrack t).1 removed := by
  rw [System.insertTrack]
  split_ifs with hclosed
  · exact hs.same
  have hopen : s.isClosed = false := eq_false_iff.mpr hclosed
  rcases s.value.insertTrack_cases (s.nameOf t) t with ⟨-, heq⟩ | ⟨hnone, heq⟩
  · rw [heq]
    exact hs.same
  · rw [heq]
    refine hs.put_tracks hopen (Grows.refl _)
      (hs.named_insert (Grows.refl _) (getElem?_eq_getElem hlt) ?_)
      fun h _ _ => lookup_insert_of_none h hnone
    rw [nameOf, getElem?_eq_getElem hlt]
    rfl

/-- Removing a track keeps the entries of other names. -/
theorem Sound.removeTrack (name : String) :
    s.Follows (s.removeTrack name).1 fun n _ => name = n := by
  rw [System.removeTrack]
  split_ifs with hclosed
  · exact hs.same
  have hopen : s.isClosed = false := eq_false_iff.mpr hclosed
  rw [State.removeTrack]
  cases s.value.tracks.lookup name with
  | none => exact hs.same
  | some t =>
    exact hs.put_tracks hopen (Grows.refl _) (fun h => hs.named (lookup_of_erase h))
      fun h _ hn => (lookup_erase_ne (Ne.symm hn)).trans h

/-- A subscription keeps the entries. -/
theorem Sound.subscribeTrack (name : String) :
    s.Follows (s.subscribeTrack name).1 removed := by
  rw [System.subscribeTrack]
  split_ifs with hclosed
  · exact hs.same
  have hopen : s.isClosed = false := eq_false_iff.mpr hclosed
  rcases s.value.subscribeTrack_cases s.trackClosed name s.tracks.length with
    ⟨t, hlookup, htrack, heq⟩ | ⟨entries, hentries, hstale, hrequest⟩
  · rw [heq]
    obtain ⟨track, hat, -⟩ := hs.named hlookup
    dsimp only
    rw [if_neg (Nat.ne_of_lt (List.getElem?_eq_some_iff.mp hat).1)]
    exact hs.put_tracks hopen (Grows.refl _) hs.named fun h _ _ => h
  -- an open track is not the stale one
  have hother {n : String} {u : TrackId} (h : s.value.tracks.lookup n = some u)
      (hu : s.trackClosed u = false) : n ≠ name := by
    rintro rfl
    cases hu.symm.trans (hstale u h)
  have hkept {n : String} {u : TrackId} (h : s.value.tracks.lookup n = some u)
      (hu : s.trackClosed u = false) : entries.lookup n = some u := by
    rw [hentries, if_neg (hother h hu)]
    exact h
  rcases hrequest with ⟨hzero, heq⟩ | ⟨hzero, heq⟩
  · rw [heq]
    refine hs.put_tracks hopen (Grows.refl _) (fun {n u} h => ?_) fun h hu _ => hkept h hu
    rw [hentries] at h
    split_ifs at h
    exact hs.named h
  · rw [heq]
    dsimp only
    rw [if_pos rfl]
    have hgrows := Grows.append s.tracks (TrackState.new name)
    refine hs.of_put hopen rfl hgrows (le_refl _) (fun _ => hs.dynamic hopen)
      (fun hend => absurd (hend.resolve_left false_ne_true) hzero) (fun {n u} h => ?_) ?_ ?_
      (hs.cut_of_grows hgrows) (fun {t} hmem => ?_) fun h hu _ =>
        (lookup_insert_ne (hother h hu)).trans (hkept h hu)
    · by_cases hn : n = name
      · subst hn
        rw [lookup_insert] at h
        cases h
        exact ⟨_, getElem?_concat_length, rfl⟩
      · rw [lookup_insert_ne hn, hentries, if_neg hn] at h
        exact hs.named_of_grows hgrows h
    · change (s.value.requests ++ [s.tracks.length] ++ s.popped ++ s.aborted).Perm
        (s.requested ++ [s.tracks.length])
      rw [append_assoc, append_assoc s.value.requests]
      refine (perm_append_comm.append_left _).trans ?_
      rw [← append_assoc, ← append_assoc]
      exact hs.requests.append_right _
    · exact hs.nodup.append (nodup_singleton _)
        (disjoint_singleton.mpr fun hmem => lt_irrefl _ (hs.lt hmem))
    · rw [show _ = s.tracks ++ [TrackState.new name] from rfl, length_append]
      rcases mem_append.mp hmem with hmem | hmem
      · exact lt_succ_of_lt (hs.lt hmem)
      · exact mem_singleton.mp hmem ▸ lt_succ_self _

theorem Sound.nameOf_lookup
    (hlookup : s.value.tracks.lookup name = some t) : s.nameOf t = name := by
  obtain ⟨_, hat, hname⟩ := hs.named hlookup
  rw [nameOf, hat]
  exact hname

/-- Only the unused track leaves the lookup. -/
theorem Sound.removeUnused (t : TrackId) (watched : List TrackId) :
    s.Follows { s.put (s.value.removeUnused s.nameOf t) false with watched } fun _ u => t = u := by
  cases hopen : s.isClosed with
  | true =>
    rw [put_of_closed hopen]
    exact { hs.same with sound := { hs with } }
  | false =>
    have hvalue : s.value.removeUnused s.nameOf t =
        { s.value with tracks := (s.value.removeUnused s.nameOf t).tracks } := by
      rw [State.removeUnused]
      split <;> rfl
    rw [hvalue]
    refine hs.put_tracks hopen (Grows.refl _) (fun {n u} h => ?_) fun h _ hne => ?_
    · rw [s.value.lookup_removeUnused hs.nameOf_lookup] at h
      split_ifs at h
      exact hs.named h
    · rw [s.value.lookup_removeUnused hs.nameOf_lookup, h, if_neg (by simpa using Ne.symm hne)]

/-- The holders change, and with them the counter of handlers. -/
theorem Sound.of_holders
    (hheld : Held c (owners + handlers)) (hclosed : c.state.closed = s.isClosed)
    (htracks : c.state.value.tracks = s.value.tracks)
    (hrequests : c.state.value.requests = s.value.requests)
    (hdynamic : s.isClosed = false → c.state.value.dynamic = handlers)
    (hidle : s.isClosed = false → handlers = 0 → s.value.requests = []) :
    s.Follows { s with channel := c, owners, handlers } removed := by
  refine ⟨⟨hheld, ?_, ?_, ?_, ?_, ?_, hs.nodup, hs.cut, hs.lt⟩, Grows.refl _, ?_⟩
  · rw [isClosed, hclosed]
    exact hdynamic
  · rw [isClosed, value, hclosed, hrequests]
    exact fun hopen hzero => hidle hopen ((hdynamic hopen).symm.trans hzero)
  · rw [isClosed, value, hclosed, hrequests]
    exact hs.closed
  · rw [value, htracks]
    exact hs.named
  · rw [value, hrequests]
    exact hs.requests
  · intro name t hlookup _ _
    exact (congrArg (AList.lookup name) htracks).trans hlookup

/-- The channel takes a step that leaves its state alone. -/
theorem Sound.of_channel {owners : ℕ}
    (hstate : c.state = s.channel.state) (hheld : Held c (owners + s.handlers)) :
    s.Follows { s with channel := c, owners } removed :=
  hs.of_holders hheld (congrArg KioState.closed hstate)
    (congrArg (fun state => state.value.tracks) hstate)
    (congrArg (fun state => state.value.requests) hstate)
    (fun hopen => (congrArg (fun state => state.value.dynamic) hstate).trans (hs.dynamic hopen))
    fun hopen hzero => hs.idle hopen ((hs.dynamic hopen).trans hzero)

/-- When the last producer is gone there are no handlers, and so no requests. -/
theorem Sound.passive {op : KioOp State} (hop : op.passive = true) :
    s.Follows { s with channel := (s.channel.step op).next } removed := by
  have hpassive := passive_step (c := s.channel) hop
  have hopen : (s.channel.step op).next.state.closed = false → s.isClosed = false := by
    intro hafter
    by_contra hbefore
    rw [not_eq_false] at hbefore
    cases hafter.symm.trans (hpassive.stays hbefore)
  have hvalue : ({ s with channel := (s.channel.step op).next } : System).value = s.value :=
    hpassive.value
  refine ⟨⟨hs.held.passive hop, ?_, ?_, ?_, ?_, ?_, hs.nodup, hs.cut, hs.lt⟩, Grows.refl _, ?_⟩
  · rw [hvalue]
    exact fun hafter => hs.dynamic (hopen hafter)
  · rw [hvalue]
    exact fun hafter => hs.idle (hopen hafter)
  · rw [hvalue]
    intro hafter
    cases hbefore : s.isClosed with
    | true => exact hs.closed hbefore
    | false =>
      have hdrop := (hpassive.closes hafter).resolve_left (by
        rw [show s.channel.state.closed = false from hbefore]
        exact false_ne_true)
      have hnone := hs.held.dropping hdrop
      exact hs.idle hbefore ((hs.dynamic hbefore).trans (by omega))
  · rw [hvalue]
    exact hs.named
  · rw [hvalue]
    exact hs.requests
  · rw [hvalue]
    exact fun hlookup _ _ => hlookup

/-- A new handler is counted if the broadcast is open. -/
theorem Sound.newHandler (hholders : s.owners + s.handlers ≠ 0) :
    s.Follows { s.put { s.value with dynamic := s.value.dynamic + 1 } false with
      channel := ((s.put { s.value with dynamic := s.value.dynamic + 1 } false).channel.step
        .cloneProducer).next
      handlers := s.handlers + 1 } removed := by
  generalize hv : { s.value with dynamic := s.value.dynamic + 1 } = v
  have hput : (s.put v false).isClosed = s.isClosed ∧
      (s.put v false).value.tracks = s.value.tracks ∧
      (s.put v false).value.requests = s.value.requests ∧
      (s.isClosed = false → (s.put v false).value.dynamic = s.handlers + 1) := by
    cases hopen : s.isClosed with
    | true =>
      rw [put_of_closed hopen]
      exact ⟨hopen, rfl, rfl, by simp⟩
    | false =>
      obtain ⟨hvalue, hclosed⟩ := value_put hopen v false
      rw [hvalue, ← hv]
      exact ⟨hv ▸ hclosed, rfl, rfl, fun _ => congrArg (· + 1) (hs.dynamic hopen)⟩
  obtain ⟨_, _, _, _⟩ := hput
  have hstate := state_cloneProducer (s.put v false).channel
  refine hs.of_holders ((hs.held.write _).clone hholders) ?_ ?_ ?_ ?_ nofun
  · rwa [hstate]
  · rwa [hstate]
  · rwa [hstate]
  · rwa [hstate]

/-- What each step does. -/
theorem Sound.step_follows (op : Op) :
    s.Follows (s.step op).1 fun name t => Removes name t op := by
  cases op with
  | channel op =>
    rw [step]
    split_ifs with hop
    · exact hs.passive hop
    · exact hs.same
  | cloneProducer =>
    rw [step]
    split_ifs with hzero
    · exact hs.same
    · refine hs.of_channel (state_cloneProducer _) ?_
      rw [Nat.add_right_comm]
      exact hs.held.clone (by omega)
  | dropProducer last =>
    rw [step]
    split_ifs
    · exact hs.same
    · exact hs.dropProducer last
  | release =>
    rw [step]
    split_ifs with hupgraded
    · exact hs.of_channel (state_dropProducer _) (hs.held.release hupgraded)
    · exact hs.same
  | dynamic =>
    rw [step]
    split_ifs with hzero
    · exact hs.same
    · exact hs.newHandler hzero
  | dropDynamic last =>
    rw [step]
    split_ifs
    · exact hs.same
    · exact hs.dropDynamic last
  | requestedTrack =>
    rw [step]
    split_ifs
    · exact hs.same
    · exact hs.requestedTrack
  | abort err =>
    rw [step]
    split_ifs with hzero hclosed
    · exact hs.same
    · exact hs.same
    · exact hs.drain (eq_false_iff.mpr hclosed) (le_refl _)
        nofun rfl nofun fun _ hremoves => absurd trivial hremoves
  | newTrack name => exact hs.of_grows (Grows.append _ _)
  | createTrack name =>
    rw [step]
    split_ifs
    · exact hs.same
    · exact hs.createTrack name
  | insertTrack t =>
    rw [step]
    split_ifs with hnone
    · exact hs.same
    · exact hs.insertTrack (Nat.lt_of_not_le fun hle => hnone (.inr hle))
  | removeTrack name =>
    rw [step]
    split_ifs
    · exact hs.same
    · exact hs.removeTrack name
  | subscribeTrack name =>
    rw [step]
    split_ifs
    · exact hs.subscribeTrack name
    · exact hs.same
  | removeUnused t =>
    rw [step]
    split_ifs
    · exact hs.removeUnused t _
    · exact hs.same
  | cloneTrack t =>
    rw [step]
    split_ifs
    · exact hs.same
    · exact hs.of_grows (Grows.modify _ _ name_clone fun _ => closed_clone)
  | dropTrack t =>
    rw [step]
    split_ifs
    · exact hs.same
    · exact hs.of_grows (Grows.modify _ _ (fun _ => rfl) fun _ => closed_drop)
  | abortTrack t =>
    rw [step]
    split_ifs
    · exact hs.same
    · exact hs.of_grows (Grows.modify _ _ (fun _ => rfl) fun _ _ => rfl)

/-- Every step keeps the invariant. -/
theorem Sound.step (op : Op) : (s.step op).1.Sound := (hs.step_follows op).sound

theorem Sound.exec (ops : List Op) : (s.exec ops).Sound := by
  induction ops generalizing s with
  | nil => exact hs
  | cons op ops ih => exact ih (hs.step op)

end

/-! ### The requests of a run -/

theorem records_requestedTrack (s : System) :
    s.requestedTrack.1.popped = s.popped ++ s.requestedTrack.2.tracks ∧
      s.requestedTrack.1.requested = s.requested := by
  rw [System.requestedTrack]
  split_ifs
  · exact ⟨(append_nil _).symm, rfl⟩
  cases s.value.requests.getLast? with
  | none => exact ⟨(append_nil _).symm, rfl⟩
  | some t => exact ⟨rfl, rfl⟩

theorem records_subscribeTrack (s : System) (name : String) :
    (s.subscribeTrack name).1.popped = s.popped ∧ (s.subscribeTrack name).1.requested =
      s.requested ++ (s.subscribeTrack name).2.tracks.filter (· = s.tracks.length) := by
  rw [System.subscribeTrack]
  split_ifs
  · exact ⟨rfl, (append_nil _).symm⟩
  rcases s.value.subscribeTrack s.trackClosed name s.tracks.length with ⟨v, _ | t⟩
  · exact ⟨rfl, (append_nil _).symm⟩
  · by_cases ht : t = s.tracks.length <;> simp [ht, put, Reply.tracks]

/-- What a step records is what it answers. -/
theorem records_step (s : System) (op : Op) :
    (s.step op).1.popped = s.popped ++ s.pickedBy op ∧
      (s.step op).1.requested = s.requested ++ s.createdBy op := by
  have hsame {s' : System} (hpopped : s'.popped = s.popped)
      (hrequested : s'.requested = s.requested) :
      s'.popped = s.popped ++ [] ∧ s'.requested = s.requested ++ [] := by
    rw [append_nil, append_nil]
    exact ⟨hpopped, hrequested⟩
  cases op with
  | requestedTrack =>
    simp only [pickedBy, createdBy, System.step]
    split_ifs
    · exact hsame rfl rfl
    · exact (records_requestedTrack s).imp_right (·.trans (append_nil _).symm)
  | subscribeTrack name =>
    simp only [pickedBy, createdBy, System.step]
    split_ifs
    · exact (records_subscribeTrack s name).imp_left (·.trans (append_nil _).symm)
    · exact hsame rfl rfl
  | createTrack name =>
    simp only [pickedBy, createdBy, System.step, System.createTrack]
    split_ifs
    · exact hsame rfl rfl
    · exact hsame rfl rfl
    · cases s.value.insertTrack name s.tracks.length <;> exact hsame rfl rfl
  | insertTrack t =>
    simp only [pickedBy, createdBy, System.step, System.insertTrack]
    split_ifs
    · exact hsame rfl rfl
    · exact hsame rfl rfl
    · cases s.value.insertTrack (s.nameOf t) t <;> exact hsame rfl rfl
  | removeTrack name =>
    simp only [pickedBy, createdBy, System.step, System.removeTrack]
    split_ifs
    · exact hsame rfl rfl
    · exact hsame rfl rfl
    · cases s.value.removeTrack name <;> exact hsame rfl rfl
  | dropProducer last | dropDynamic last =>
    simp only [pickedBy, createdBy, System.step, System.dropProducer, System.dropDynamic]
    split_ifs <;> exact hsame rfl rfl
  | newTrack name => exact hsame rfl rfl
  | _ =>
    simp only [pickedBy, createdBy, System.step]
    split_ifs <;> exact hsame rfl rfl

/-- The records of a run are what its steps answer. -/
theorem records_exec (s : System) (ops : List Op) :
    (s.exec ops).popped = s.popped ++ s.collect pickedBy ops ∧
      (s.exec ops).requested = s.requested ++ s.collect createdBy ops := by
  induction ops generalizing s with
  | nil => exact ⟨(append_nil _).symm, (append_nil _).symm⟩
  | cons op ops ih =>
    obtain ⟨hpopped, hrequested⟩ := s.records_step op
    obtain ⟨hpopped', hrequested'⟩ := ih (s.step op).1
    rw [collect, collect, ← append_assoc, ← append_assoc, ← hpopped, ← hrequested]
    exact ⟨hpopped', hrequested'⟩

/-! ### The entries of the lookup -/

theorem Sound.grows_exec (hs : s.Sound) (ops : List Op) : Grows s.tracks (s.exec ops).tracks := by
  induction ops generalizing s with
  | nil => exact Grows.refl _
  | cons op ops ih => exact (hs.step_follows op).grows.trans (ih (hs.step op))

/-- The task of an unused track leaves the entries of other tracks alone. -/
theorem Sound.lookup_removeUnused (hs : s.Sound) {t other : TrackId}
    (hlookup : s.value.tracks.lookup name = some other) (hne : other ≠ t) :
    (s.step (.removeUnused t)).1.value.tracks.lookup name = some other := by
  rw [System.step]
  split_ifs
  · refine value_put_tracks hlookup ?_ false
    rw [s.value.lookup_removeUnused hs.nameOf_lookup, hlookup,
      if_neg fun h => hne (Option.some.inj h)]
  · exact hlookup

/-- A subscription gives the open track of the lookup. -/
theorem Sound.subscribeTrack_of_lookup (hs : s.Sound) (hopen : s.isClosed = false)
    (hlookup : s.value.tracks.lookup name = some t) (htrack : s.trackClosed t = false) :
    (s.subscribeTrack name).2 = .track t := by
  obtain ⟨_, hat, -⟩ := hs.named hlookup
  have hlt := (List.getElem?_eq_some_iff.mp hat).1
  have heq : s.value.subscribeTrack s.trackClosed name s.tracks.length = (s.value, .ok t) := by
    rw [State.subscribeTrack, hlookup]
    exact if_pos htrack
  rw [System.subscribeTrack, if_neg (eq_false_iff.mp hopen), heq]
  dsimp only
  rw [if_neg (Nat.ne_of_lt hlt)]

/-- The track that a subscription gives is in the lookup. -/
theorem lookup_of_subscribeTrack (hreply : (s.subscribeTrack name).2 = .track t) :
    (s.subscribeTrack name).1.value.tracks.lookup name = some t := by
  rw [subscribeTrack] at hreply ⊢
  split_ifs at hreply ⊢ with hclosed
  · cases hreply
  have hopen : s.isClosed = false := eq_false_iff.mpr hclosed
  rcases s.value.subscribeTrack_cases s.trackClosed name s.tracks.length with
    ⟨u, hlookup, -, heq⟩ | ⟨entries, -, -, ⟨-, heq⟩ | ⟨-, heq⟩⟩
  · rw [heq] at hreply ⊢
    dsimp only at hreply ⊢
    split_ifs at hreply ⊢ <;> cases hreply <;> exact value_put_tracks hlookup hlookup false
  · rw [heq] at hreply
    cases hreply
  · rw [heq] at hreply ⊢
    dsimp only at hreply ⊢
    rw [if_pos rfl] at hreply ⊢
    cases hreply
    have hvalue := (value_put hopen { s.value with
      tracks := entries.insert name s.tracks.length
      requests := s.value.requests ++ [s.tracks.length] } false).1
    exact (congrArg (fun v => v.tracks.lookup name) hvalue).trans (lookup_insert _)

/-- An open track stays in the lookup over a run that does not remove it. -/
theorem Sound.lookup_exec (hs : s.Sound)
    (hlookup : s.value.tracks.lookup name = some t) {ops : List Op}
    (hremoves : ∀ op ∈ ops, ¬ Removes name t op) (htrack : (s.exec ops).trackClosed t = false) :
    (s.exec ops).value.tracks.lookup name = some t := by
  induction ops generalizing s with
  | nil => exact hlookup
  | cons op ops ih =>
    obtain ⟨_, hat, -⟩ := hs.named hlookup
    have hlt := (List.getElem?_eq_some_iff.mp hat).1
    have hbefore : s.trackClosed t = false := by
      by_contra hclosed
      rw [not_eq_false] at hclosed
      cases htrack.symm.trans (trackClosed_of_grows (hs.grows_exec (op :: ops)) hlt hclosed)
    exact ih (hs.step op)
      ((hs.step_follows op).kept hlookup hbefore (hremoves op mem_cons_self))
      (fun op' hmem => hremoves op' (mem_cons_of_mem _ hmem)) htrack

/-- **Dynamic requests.** In every state that a broadcast reaches: while it is open the counter of
handlers is the number of live handles, and without one nothing is requested; nothing is requested
after the end. Every track that a subscription has created is queued, was handed to a handler or was
aborted, and only one of these, once, and those that were aborted are closed. A second subscription
for a name gives the track that the first gave, if it was neither closed nor removed in between. The
task of an unused track leaves the entries of all other tracks alone. -/
theorem dynamic_requests (ops : List Op) :
    let s := init.exec ops
    (s.isClosed = false → s.value.dynamic = s.handlers ∧
      (s.value.dynamic = 0 → s.value.requests = [])) ∧
    (s.isClosed = true → s.value.requests = []) ∧
    ((s.value.requests ++ init.collect pickedBy ops ++ s.aborted).Perm
        (init.collect createdBy ops) ∧
      (init.collect createdBy ops).Nodup ∧ ∀ t ∈ s.aborted, s.trackClosed t = true) ∧
    (∀ name t later, (s.step (.subscribeTrack name)).2 = .track t →
      (∀ op ∈ later, ¬ Removes name t op) →
      let s' := (s.step (.subscribeTrack name)).1.exec later
      s'.isClosed = false → s'.trackClosed t = false → s'.Upgraded →
        (s'.step (.subscribeTrack name)).2 = .track t) ∧
    ∀ name t newer, s.value.tracks.lookup name = some newer → newer ≠ t →
      (s.step (.removeUnused t)).1.value.tracks.lookup name = some newer := by
  intro s
  have hs : s.Sound := sound_init.exec ops
  obtain ⟨hpopped, hrequested⟩ :
      s.popped = init.collect pickedBy ops ∧ s.requested = init.collect createdBy ops :=
    init.records_exec ops
  refine ⟨fun hopen => ⟨hs.dynamic hopen, hs.idle hopen⟩, hs.closed,
    ⟨hpopped ▸ hrequested ▸ hs.requests, hrequested ▸ hs.nodup, fun _ => hs.cut⟩,
    fun name t later hreply hremoves => ?_, fun name t newer => hs.lookup_removeUnused⟩
  · intro s' hopen htrack hupgraded
    by_cases hfirst : s.Upgraded
    · have hstep : s.step (.subscribeTrack name) = s.subscribeTrack name := if_pos hfirst
      have hlookup := lookup_of_subscribeTrack (hstep ▸ hreply)
      have hs' : s'.Sound := (hs.step (.subscribeTrack name)).exec later
      have hkept : s'.value.tracks.lookup name = some t :=
        (hs.step (.subscribeTrack name)).lookup_exec (hstep.symm ▸ hlookup) hremoves htrack
      rw [step, if_pos hupgraded]
      exact hs'.subscribeTrack_of_lookup hopen hkept htrack
    · rw [step, if_neg hfirst] at hreply
      cases hreply

/-- A broadcast with a handler, and a consumer that holds a temporary producer. -/
def handled : List Op := [.dynamic, .channel .produce, .channel (.resume 0)]

/-- The handler is dropped while the request of a subscription is queued. -/
def abandoned : List Op := handled ++ [.subscribeTrack "a", .dropDynamic false]

/-- Two subscriptions with a handler that picks up the request in between, and one whose request is
aborted. -/
theorem dynamic_requests_twice :
    ((init.exec handled).step (.subscribeTrack "a")).2 = .track 0 ∧
      ((((init.exec handled).step (.subscribeTrack "a")).1.exec [.requestedTrack]).step
        (.subscribeTrack "a")).2 = .track 0 ∧
      (init.exec abandoned).aborted = [0] ∧ (init.exec abandoned).trackClosed 0 = true := by
  have hagain := (dynamic_requests handled).2.2.2.1 "a" 0 [.requestedTrack] (by decide)
    (by simp [Removes]) (by decide) (by decide) (by decide)
  have haborted : (init.exec abandoned).aborted = [0] := by decide
  obtain ⟨-, -, ⟨-, -, hclosed⟩, -⟩ := dynamic_requests abandoned
  exact ⟨by decide, hagain, haborted, hclosed 0 (by rw [haborted]; exact mem_singleton_self 0)⟩

/-! ### Reusable names -/

theorem duplicate_iff {entries : Option TrackId} {closed : TrackId → Bool} {p : Prop}
    (hp : p ↔ ∃ t, entries = some t) :
    ((p ↔ ∃ t, entries = some t ∧ closed t = false) ↔
      ¬ ∃ t, entries = some t ∧ closed t = true) := by
  rw [hp]
  cases entries with
  | none => simp
  | some t => cases hclosed : closed t <;> simp [hclosed]

theorem createTrack_duplicate_iff (howner : s.owners ≠ 0) (hopen : s.isClosed = false)
    (name : String) : (s.step (.createTrack name)).2 = .err .duplicate ↔
      ∃ t, s.value.tracks.lookup name = some t := by
  rw [step, if_neg howner, createTrack, if_neg (eq_false_iff.mp hopen)]
  rcases s.value.insertTrack_cases name s.tracks.length with ⟨hsome, heq⟩ | ⟨hnone, heq⟩
  · rw [heq]
    exact iff_of_true rfl hsome
  · rw [heq, hnone]
    simp

theorem insertTrack_duplicate_iff (howner : s.owners ≠ 0) (hopen : s.isClosed = false)
    (hlt : t < s.tracks.length) :
    (s.step (.insertTrack t)).2 = .err .duplicate ↔
      ∃ u, s.value.tracks.lookup (s.nameOf t) = some u := by
  rw [System.step, if_neg fun h => h.elim howner (Nat.not_le_of_lt hlt), System.insertTrack,
    if_neg (eq_false_iff.mp hopen)]
  rcases s.value.insertTrack_cases (s.nameOf t) t with ⟨hsome, heq⟩ | ⟨hnone, heq⟩
  · rw [heq]
    exact iff_of_true rfl hsome
  · rw [heq, hnone]
    simp

/-- **When a name is reusable.** In every state of an open broadcast, `create_track` and
`insert_track` refuse a name as a duplicate exactly for an open track of that name in the lookup, if
and only if the lookup has no closed track of that name. -/
theorem name_reusable_iff (ops : List Op) :
    let s := init.exec ops
    s.owners ≠ 0 → s.isClosed = false →
    (∀ name, ((s.step (.createTrack name)).2 = .err .duplicate ↔
        ∃ t, s.value.tracks.lookup name = some t ∧ s.trackClosed t = false) ↔
      ¬ ∃ t, s.value.tracks.lookup name = some t ∧ s.trackClosed t = true) ∧
    ∀ u < s.tracks.length, ((s.step (.insertTrack u)).2 = .err .duplicate ↔
        ∃ t, s.value.tracks.lookup (s.nameOf u) = some t ∧ s.trackClosed t = false) ↔
      ¬ ∃ t, s.value.tracks.lookup (s.nameOf u) = some t ∧ s.trackClosed t = true := by
  intro s howner hopen
  exact ⟨fun name => duplicate_iff (createTrack_duplicate_iff howner hopen name),
    fun u hlt => duplicate_iff (insertTrack_duplicate_iff howner hopen hlt)⟩

/-- A name that is free. -/
theorem name_reusable_iff_free :
    let s := init.exec [.createTrack "a", .dropTrack 0, .removeTrack "a"]
    s.owners = 1 ∧ ((s.step (.createTrack "a")).2 = .err .duplicate ↔
      ∃ t, s.value.tracks.lookup "a" = some t ∧ s.trackClosed t = false) := by
  intro s
  refine ⟨rfl, ((name_reusable_iff _ (by decide) rfl).1 "a").mpr ?_⟩
  rintro ⟨_, hlookup, -⟩
  cases hlookup

/-- The producer of a track is dropped, and its name is refused for a new one. -/
theorem closed_track_blocks :
    let s := init.exec [.createTrack "a", .dropTrack 0]
    s.value.tracks.lookup "a" = some 0 ∧ s.trackClosed 0 = true ∧
      (s.step (.createTrack "a")).2 = .err .duplicate := by
  decide

end System

end Broadcast

end HermitMoq
