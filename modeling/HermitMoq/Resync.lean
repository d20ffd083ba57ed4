import Mathlib.Data.List.Basic

/-!
# Finding the Packets of a Transport Stream

`Import::decode` of `moq-mux/src/container/ts/import.rs`: bytes arrive in chunks, and the packets of
188 bytes among them are found by their sync byte. What is done with a packet (its routing to a
section, to the reader or to nobody) is a parameter, which may fail.
-/

namespace HermitMoq

open List

/-- `Import`: what is left of the bytes so far, whether it is known where packets start, and what
the routing of packets has led to. -/
structure TsImport (σ : Type) where
  scratch : List UInt8
  synced : Bool
  routing : σ
  deriving DecidableEq, Repr

namespace TsImport

variable {σ ε : Type}

/-- `Import::new`. -/
def new (routing : σ) : TsImport σ where
  scratch := []
  synced := false
  routing := routing

/-- The search for a sync byte that is followed by another one after 188 bytes: whether it has been
found, and the bytes from the candidate on. -/
def search : List UInt8 → Bool × List UInt8
  | [] => (false, [])
  | b :: buf =>
    if b = 0x47 then
      match (b :: buf)[188]? with
      | some next => if next = 0x47 then (true, b :: buf) else search buf
      | none => (false, b :: buf)
    else search buf

theorem search_found {buf : List UInt8} (h : (search buf).1 = true) :
    (search buf).2.head? = some 0x47 ∧ (search buf).2.length ≤ buf.length ∧
      188 < (search buf).2.length := by
  fun_induction search buf with
  | case1 => cases h
  | case2 buf hnext => exact ⟨rfl, Nat.le_refl _, (List.getElem?_eq_some_iff.mp hnext).1⟩
  | case3 buf next hne hnext ih =>
    exact ⟨(ih h).1, Nat.le_succ_of_le (ih h).2.1, (ih h).2.2⟩
  | case4 => cases h
  | case5 b buf hb ih => exact ⟨(ih h).1, Nat.le_succ_of_le (ih h).2.1, (ih h).2.2⟩

/-- A search on more bytes finds the same sync byte, or goes on from where there was none. -/
theorem search_append (buf more : List UInt8) :
    search (buf ++ more) =
      if (search buf).1 then (true, (search buf).2 ++ more)
      else search ((search buf).2 ++ more) := by
  have happend : ∀ {buf : List UInt8} {b next : UInt8}, (b :: buf)[188]? = some next →
      (b :: (buf ++ more))[188]? = some next := by
    intro buf b next hnext
    rw [← List.cons_append, List.getElem?_append_left (List.getElem?_eq_some_iff.mp hnext).1, hnext]
  fun_induction search buf with
  | case1 => simp
  | case2 buf hnext => simp [search, happend hnext]
  | case3 buf next hne hnext ih => simp [search, happend hnext, hne, ih]
  | case4 => simp
  | case5 b buf hb ih => simp [search, hb, ih]

variable (route : σ → List UInt8 → Except ε σ) (s : TsImport σ)

/-- The loop of `Import::decode` over the buffered bytes. An error of routing ends the import. -/
def demux (s : TsImport σ) : Except ε (TsImport σ) :=
  if s.scratch.length < 188 then .ok s
  else if s.synced = false ∨ s.scratch.head? ≠ some 0x47 then
    if _h : (search s.scratch).1 then
      demux { s with scratch := (search s.scratch).2, synced := true }
    else .ok { s with scratch := (search s.scratch).2, synced := false }
  else do
    let routing ← route s.routing (s.scratch.take 188)
    demux { s with scratch := s.scratch.drop 188, routing := routing }
termination_by 2 * s.scratch.length +
  if s.synced = false ∨ s.scratch.head? ≠ some 0x47 then 1 else 0
decreasing_by
  · obtain ⟨hhead, hle, -⟩ := search_found _h
    rw [if_neg (by simp [hhead]), if_pos (by assumption)]
    omega
  · simp only [List.length_drop]
    split <;> omega

/-- `Import::decode`. -/
def decode (s : TsImport σ) (data : List UInt8) : Except ε (TsImport σ) :=
  demux route { s with scratch := s.scratch ++ data }

/-- A packet's worth of bytes is not none. -/
theorem ne_nil_of_long {buf : List UInt8} (h : ¬ buf.length < 188) : buf ≠ [] := by
  rintro rfl
  exact h (by decide)

/-- A call on more bytes routes what two calls route. What is left over may differ: bytes without a
sync byte are dropped only once there are 188 of them. -/
theorem demux_append (data : List UInt8) :
    (decode route s data).map routing =
      (demux route s >>= fun s' => decode route s' data).map routing := by
  fun_induction demux route s with
  | case1 s hshort => rfl
  | case2 s hlong hlost hfound ih =>
    rw [← ih, decode, demux, if_neg (by simp; omega),
      if_pos (by rwa [head?_append_of_ne_nil _ (ne_nil_of_long hlong)])]
    simp [search_append, hfound, decode]
  | case3 s hlong hlost hnone =>
    rw [decode, demux, if_neg (by simp; omega),
      if_pos (by rwa [head?_append_of_ne_nil _ (ne_nil_of_long hlong)])]
    have hsearch := search_append s.scratch data
    rw [if_neg hnone] at hsearch
    simp only [hsearch]
    by_cases hshort : ((search s.scratch).2 ++ data).length < 188
    · -- too few bytes for another sync byte to be found
      have hnone' : ¬(search ((search s.scratch).2 ++ data)).1 := by
        intro hfound
        have := search_found hfound
        omega
      rw [dif_neg hnone']
      change _ = (demux route ⟨(search s.scratch).2 ++ data, false, s.routing⟩).map routing
      rw [demux, if_pos hshort]
      rfl
    · change _ = (demux route ⟨(search s.scratch).2 ++ data, false, s.routing⟩).map routing
      conv_rhs => rw [demux, if_neg hshort, if_pos (.inl rfl)]
  | case4 s hlong hlock ih =>
    rw [decode, demux, if_neg (by simp; omega),
      if_neg (by rwa [head?_append_of_ne_nil _ (ne_nil_of_long hlong)])]
    simp only [take_append_of_le_length (Nat.not_lt.mp hlong),
      drop_append_of_le_length (Nat.not_lt.mp hlong)]
    cases route s.routing (s.scratch.take 188) with
    | error e => rfl
    | ok routing => exact ih routing

/-- Calls on chunks route what one call on all their bytes routes. -/
theorem foldlM_decode (chunks : List (List UInt8)) :
    (demux route s >>= fun s' => chunks.foldlM (decode route) s').map routing =
      (decode route s chunks.flatten).map routing := by
  induction chunks generalizing s with
  | nil => simp [decode]
  | cons chunk chunks ih =>
    rw [demux_append]
    cases demux route s with
    | error e => rfl
    | ok s' =>
      have hrest := ih { s' with scratch := s'.scratch ++ chunk }
      change ((chunk :: chunks).foldlM (decode route) s').map routing =
        (decode route s' (chunk :: chunks).flatten).map routing
      simpa [decode] using hrest

/-- What every packet with a sync byte keeps, the loop keeps. -/
theorem demux_preserves {P : σ → Prop}
    (hroute : ∀ {st st' p}, p.length = 188 → p.head? = some 0x47 → P st →
      route st p = .ok st' → P st')
    {s s' : TsImport σ} (h : demux route s = .ok s') (hs : P s.routing) : P s'.routing := by
  fun_induction demux route s with
  | case1 s hshort =>
    cases h
    exact hs
  | case2 s hlong hlost hfound ih => exact ih h hs
  | case3 s hlong hlost hnone =>
    cases h
    exact hs
  | case4 s hlong hlock ih =>
    cases hst : route s.routing (s.scratch.take 188) with
    | error e =>
      rw [hst] at h
      cases h
    | ok st =>
      rw [hst] at h
      have hhead : (s.scratch.take 188).head? = some 0x47 := by
        simpa [head?_take] using (not_or.mp hlock).2
      exact ih st h (hroute (by simp; omega) hhead hs hst)

/-! ### Streams of packets -/

/-- What follows the sync byte of a packet. -/
abbrev Body := {body : List UInt8 // body.length = 187}

/-- A packet. -/
def packet (body : Body) : List UInt8 := 0x47 :: body.1

@[simp] theorem length_packet (body : Body) : (packet body).length = 188 := by
  simp [packet, body.2]

/-- Once it is known where packets start, each is routed. -/
theorem demux_packets (bodies : List Body) (st : σ) :
    (demux route ⟨bodies.flatMap packet, true, st⟩).map routing =
      (bodies.map packet).foldlM route st := by
  induction bodies generalizing st with
  | nil => rw [demux]; rfl
  | cons body bodies ih =>
    rw [demux, flatMap_cons, if_neg (by simp), if_neg (by simp [packet])]
    simp only [take_left' (length_packet body), drop_left' (length_packet body), map_cons,
      foldlM_cons]
    cases route st (packet body) with
    | error e => rfl
    | ok st => exact ih st

/-- The sync byte of a second packet tells where the first starts. -/
theorem packets_routed_of_two (body next : Body) (bodies : List Body) (st : σ) :
    (decode route (new st) ((body :: next :: bodies).flatMap packet)).map routing =
      ((body :: next :: bodies).map packet).foldlM route st := by
  have hsearch (tail : List UInt8) : search (packet body ++ (packet next ++ tail)) =
      (true, packet body ++ (packet next ++ tail)) := by
    simp [packet, search, body.2]
  rw [← demux_packets, decode, demux, if_neg (by simp; omega)]
  simp [hsearch, new]

/-- **Of a stream of packets each is routed once and in order**, except that a single packet is not,
for want of a second sync byte. -/
theorem packets_routed (st : σ) (bodies : List Body) :
    (decode route (new st) (bodies.flatMap packet)).map routing =
      if bodies.length = 1 then .ok st else (bodies.map packet).foldlM route st := by
  match bodies with
  | [] => rw [decode, demux]; rfl
  | [body] =>
    have hsearch : search (packet body) = (false, packet body) := by
      simp [packet, search, body.2]
    rw [decode, demux]
    simp [hsearch, new]
    rfl
  | body :: next :: bodies =>
    rw [if_neg (by simp)]
    exact packets_routed_of_two route body next bodies st

/-! ### Chunks -/

/-- Routing that takes down the packets handed to it. -/
def logged (st : σ × List (List UInt8)) (p : List UInt8) : Except ε (σ × List (List UInt8)) := do
  let st' ← route st.1 p
  return (st', st.2 ++ [p])

/-- **Finding the packets does not depend on the chunks**: whatever the routing does with them, the
same packets are handed to it as in one call with the whole stream, each with its sync byte. -/
theorem decode_chunks (st : σ) (chunks : List (List UInt8)) :
    (chunks.foldlM (decode (logged route)) (new (st, []))).map routing =
        (decode (logged route) (new (st, [])) chunks.flatten).map routing ∧
      ∀ s, chunks.foldlM (decode (logged route)) (new (st, [])) = .ok s →
        ∀ p ∈ s.routing.2, p.length = 188 ∧ p.head? = some 0x47 := by
  have hchunks := foldlM_decode (logged route) (new (st, [])) chunks
  rw [demux, if_pos (by simp [new])] at hchunks
  refine ⟨hchunks, ?_⟩
  intro s hs
  change (chunks.foldlM (decode (logged route)) (new (st, []))).map routing = _ at hchunks
  rw [hs] at hchunks
  cases hwhole : decode (logged route) (new (st, [])) chunks.flatten with
  | error e =>
    rw [hwhole] at hchunks
    cases hchunks
  | ok s' =>
    rw [hwhole] at hchunks
    have hrouting : s.routing = s'.routing := Except.ok.inj hchunks
    rw [hrouting]
    refine demux_preserves _ (P := fun st => ∀ p ∈ st.2, p.length = 188 ∧ p.head? = some 0x47)
      ?_ hwhole (by simp [new])
    intro st st' p hlen hhead hst hroute
    simp only [logged] at hroute
    cases hr : route st.1 p with
    | error e =>
      rw [hr] at hroute
      cases hroute
    | ok r =>
      rw [hr] at hroute
      cases hroute
      intro q hq
      rcases mem_append.mp hq with hq | hq
      · exact hst q hq
      · rw [mem_singleton.mp hq]
        exact ⟨hlen, hhead⟩

/-- Two packets that arrive in chunks of 200 and of 176 bytes: both are routed. -/
theorem decode_chunks_locked :
    ∃ s, [replicate 200 0x47, replicate 176 0x47].foldlM
        (decode (logged fun (n : ℕ) _ => (.ok (n + 1) : Except Empty ℕ))) (new (0, [])) = .ok s ∧
      s.routing = (2, [replicate 188 0x47, replicate 188 0x47]) ∧
      ∀ p ∈ s.routing.2, p.length = 188 ∧ p.head? = some 0x47 := by
  have hchunks := decode_chunks (fun (n : ℕ) _ => (.ok (n + 1) : Except Empty ℕ)) 0
    [replicate 200 0x47, replicate 176 0x47]
  cases h : [replicate 200 0x47, replicate 176 0x47].foldlM
      (decode (logged fun (n : ℕ) _ => (.ok (n + 1) : Except Empty ℕ))) (new (0, [])) with
  | error e => exact e.elim
  | ok s =>
    rw [h] at hchunks
    let body : Body := ⟨replicate 187 0x47, length_replicate⟩
    have hpackets := packets_routed_of_two
      (logged fun (n : ℕ) _ => (.ok (n + 1) : Except Empty ℕ)) body body [] (0, [])
    exact ⟨s, rfl, Except.ok.inj (hchunks.1.trans hpackets), hchunks.2 s rfl⟩

end TsImport

end HermitMoq
