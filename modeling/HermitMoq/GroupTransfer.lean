import HermitMoq.GroupStream

/-!
# Groups Are Transferred

What the receiver of a group makes of the bytes of its stream, whatever the chunks they arrive in.
The bytes that are still to be read determine what every call of the reader returns. A frame that
is there in full is read and finished; a frame that is cut off stops the receiver, with an error
or, as long as the stream may go on, waiting, and is never marked as finished. From the frames
follows the group, by induction.
-/

namespace HermitMoq

open List Recv Nat

/-! ### The reader -/

/-- What decoding comes to if the stream has too few bytes. -/
def StreamEnd.decoded {α : Type} : StreamEnd → Decoded α
  | waiting => .waiting
  | finished => .failed .short
  | reset => .transport

/-- The bytes that the reader has still to read, and how the stream ends. A chunk is not empty. -/
structure Reader.Ready (r : Reader) (ending : StreamEnd) (rest : List UInt8) : Prop where
  total : r.total = rest
  ending : r.stream.ending = ending
  chunks : ∀ chunk ∈ r.stream.chunks, chunk ≠ []

/-- A part of two messages is a part of the first, or the first with a part of the second. -/
theorem part_cases {first second part extra : List UInt8} (h : part ++ extra = first ++ second) :
    (∃ extra', extra' ≠ [] ∧ part ++ extra' = first) ∨
      ∃ part', part = first ++ part' ∧ part' ++ extra = second := by
  rcases append_eq_append_iff.mp h with ⟨extra', hfirst, hsplit⟩ | ⟨part', hpart, hsecond⟩
  · by_cases hnil : extra' = []
    · subst hnil
      rw [append_nil] at hfirst
      exact .inr ⟨[], by rw [hfirst, append_nil], hsplit⟩
    · exact .inl ⟨extra', hnil, hfirst.symm⟩
  · exact .inr ⟨part', hpart, hsecond.symm⟩

namespace Reader

variable {α : Type} {p : Decode α} {a : α} {r : Reader} {ending : StreamEnd}
  {bytes rest part extra : List UInt8}

/-- A chunk is taken into the buffer. -/
theorem Ready.shift {chunk buffer : List UInt8} {chunks : List (List UInt8)}
    (hr : Ready ⟨buffer, chunk :: chunks, ending⟩ ending rest) :
    Ready ⟨buffer ++ chunk, chunks, ending⟩ ending rest where
  total := by rw [← hr.total, Reader.total, Reader.total, append_assoc]; rfl
  ending := rfl
  chunks c hc := hr.chunks c (mem_cons_of_mem _ hc)

/-- The buffer is too short for the value, or what it holds behind it is left. -/
theorem run_buffer (hblind : p.Blind) (hreads : p.Reads bytes a) {buffer more : List UInt8}
    (h : buffer ++ more = bytes ++ rest) :
    p.run buffer = .error .short ∨
      ∃ left, p.run buffer = .ok (a, left) ∧ left ++ more = rest := by
  rcases part_cases h with ⟨_, hextra, hbytes⟩ | ⟨left, rfl, hrest⟩
  · exact .inl (hreads.run_part hblind hbytes hextra)
  · exact .inr ⟨left, hreads left, hrest⟩

/-- A value that is there in full is decoded. -/
theorem decode_reads (hblind : p.Blind) (hreads : p.Reads bytes a)
    (hr : r.Ready ending (bytes ++ rest)) :
    ∃ r', r.decode p = (.value a, r') ∧ r'.Ready ending rest := by
  obtain ⟨buffer, chunks, ending'⟩ := r
  obtain rfl : ending' = ending := hr.ending
  induction chunks generalizing buffer with
  | nil =>
    have hbuffer : buffer = bytes ++ rest := by simpa [total] using hr.total
    refine ⟨⟨rest, [], _⟩, ?_, by simp [total], rfl, hr.chunks⟩
    rw [decode, decodeLoop.eq_def, hbuffer, hreads rest]
  | cons chunk chunks ih =>
    rcases run_buffer hblind hreads hr.total with hshort | ⟨left, hrun, hrest⟩
    · rw [decode, decodeLoop.eq_def, hshort]
      exact ih (buffer ++ chunk) hr.shift
    · refine ⟨⟨left, chunk :: chunks, _⟩, ?_, hrest, rfl, hr.chunks⟩
      rw [decode, decodeLoop.eq_def, hrun]

/-- A value that is cut off is waited for. -/
theorem decode_part (hblind : p.Blind) (hreads : p.Reads bytes a) (hr : r.Ready ending part)
    (hpart : part ++ extra = bytes) (hextra : extra ≠ []) :
    r.decode p = (ending.decoded, ⟨part, [], ending⟩) := by
  obtain ⟨buffer, chunks, ending'⟩ := r
  obtain rfl : ending' = ending := hr.ending
  induction chunks generalizing buffer with
  | nil =>
    obtain rfl : buffer = part := by simpa [total] using hr.total
    have hshort := hreads.run_part hblind hpart hextra
    rw [decode, decodeLoop.eq_def, hshort]
    dsimp only
    split <;> rfl
  | cons chunk chunks ih =>
    have hbuffer : buffer ++ ((chunk :: chunks).flatten ++ extra) = bytes := by
      rw [← append_assoc, ← hpart, ← hr.total]
      rfl
    have hshort := hreads.run_part hblind hbuffer (by simp [hextra])
    rw [decode, decodeLoop.eq_def, hshort]
    exact ih (buffer ++ chunk) hr.shift

theorem Ready.eq_nil (hr : r.Ready ending []) : r = ⟨[], [], ending⟩ := by
  obtain ⟨_, chunks, _⟩ := r
  obtain ⟨htotal, rfl, hchunks⟩ := hr
  obtain ⟨rfl, hflatten⟩ := append_eq_nil_iff.mp htotal
  cases chunks with
  | nil => rfl
  | cons chunk chunks =>
    have hnil := flatten_eq_nil_iff.mp hflatten chunk mem_cons_self
    exact absurd hnil (hchunks chunk mem_cons_self)

/-- Reading takes some of the bytes, as long as there are any. -/
theorem readBuf_some {limit : ℕ} (hr : r.Ready ending rest) (hrest : rest ≠ [])
    (hlimit : 0 < limit) :
    ∃ bytes fits r' rest', r.readBuf limit = (.some bytes fits, r') ∧ 0 < bytes.length ∧
      rest = bytes ++ rest' ∧ r'.Ready ending rest' := by
  obtain ⟨buffer, chunks, _⟩ := r
  obtain ⟨rfl, rfl, hchunks⟩ := hr
  rw [readBuf]
  cases buffer with
  | cons b buffer =>
    rw [if_pos (by simpa using hlimit)]
    refine ⟨_, _, _, _, rfl, ?_, ?_, rfl, rfl, hchunks⟩
    · rw [length_take]
      exact lt_min hlimit (succ_pos _)
    · rw [total, total, ← append_assoc, take_append_drop]
  | nil =>
    cases chunks with
    | nil => exact absurd rfl hrest
    | cons chunk chunks =>
      have hchunk := hchunks chunk mem_cons_self
      refine ⟨_, _, _, _, rfl, ?_, ?_, rfl, rfl, ?_⟩
      · rw [length_take]
        exact lt_min hlimit (length_pos_iff.mpr hchunk)
      · show [] ++ (chunk :: chunks).flatten =
          chunk.take limit ++ ([] ++ (putBack (chunk.drop limit) chunks).flatten)
        rw [putBack]
        split_ifs with hempty
        · rw [List.isEmpty_iff] at hempty
          have htake := take_append_drop limit chunk
          rw [hempty, append_nil] at htake
          simp [htake]
        · rw [flatten_cons, flatten_cons, nil_append, nil_append,
            ← append_assoc, take_append_drop]
      · intro c hc
        replace hc : c ∈ putBack (chunk.drop limit) chunks := hc
        rw [putBack] at hc
        split_ifs at hc with hempty
        · exact hchunks c (mem_cons_of_mem _ hc)
        · rcases mem_cons.mp hc with rfl | hc
          · rintro hnil
            exact hempty (by rw [hnil]; rfl)
          · exact hchunks c (mem_cons_of_mem _ hc)

end Reader

/-! ### The receiver -/

/-- The call stops at the end of what has arrived: it waits for more, or fails if no more comes. -/
def Result.Stops {α : Type} (ending : StreamEnd) (result : Result α) : Prop :=
  match ending with
  | .waiting => result = .waiting
  | _ => ∃ e, result = .error e

namespace Recv

variable {α β : Type} {m : Recv α} {f : α → Recv β} {p : Decode α} {a : α} {r r' : Reader}
  {g g' : RecvGroup} {ending : StreamEnd} {bytes rest part extra : List UInt8}

theorem bind_of_ok (h : m r g = (.ok a, r', g')) : (m >>= f) r g = f a r' g' := by
  show bind m f r g = _
  rw [bind, h]

theorem bind_congr {m' : Recv α} (h : m r g = m' r' g') : (m >>= f) r g = (m' >>= f) r' g' := by
  show bind m f r g = bind m' f r' g'
  rw [bind, bind, h]

theorem bind_pure_bind {γ : Type} (k : α → β) (h : β → Recv γ) :
    ((m >>= fun a => pure (k a)) >>= h) r g = (m >>= fun a => h (k a)) r g := by
  show bind (bind m fun a => pure (k a)) h r g = bind m (fun a => h (k a)) r g
  rw [bind, bind, bind]
  rcases m r g with ⟨_ | _ | _ | _, _, _⟩ <;> rfl

/-- What follows a stop is not run. -/
theorem bind_of_stops {result : Result α} (h : m r g = (result, r', g'))
    (hstops : result.Stops ending) :
    ∃ result' : Result β, (m >>= f) r g = (result', r', g') ∧ result'.Stops ending := by
  show ∃ result' : Result β, bind m f r g = (result', r', g') ∧ result'.Stops ending
  rw [bind, h]
  cases ending with
  | waiting =>
    cases hstops
    exact ⟨_, rfl, rfl⟩
  | finished | reset =>
    obtain ⟨e, rfl⟩ := hstops
    exact ⟨_, rfl, e, rfl⟩

/-- The call reads these bytes and returns this value, and stops if they are cut off. -/
structure Passes (m : Recv α) (bytes : List UInt8) (a : α) : Prop where
  whole : ∀ {r : Reader} {g : RecvGroup} {ending : StreamEnd} {rest : List UInt8},
    r.Ready ending (bytes ++ rest) → ∃ r', m r g = (.ok a, r', g) ∧ r'.Ready ending rest
  part : ∀ {r : Reader} {g : RecvGroup} {ending : StreamEnd} {part extra : List UInt8},
    r.Ready ending part → part ++ extra = bytes → extra ≠ [] →
    ∃ result r', m r g = (result, r', g) ∧ result.Stops ending

theorem passes_decode (hblind : p.Blind) (hreads : p.Reads bytes a) :
    Passes (decode p) bytes a where
  whole {r g ending rest} hr := by
    obtain ⟨r', hdecode, hr'⟩ := Reader.decode_reads hblind hreads hr
    exact ⟨r', by rw [decode, hdecode], hr'⟩
  part {r g ending part extra} hr hpart hextra := by
    have hdecode := Reader.decode_part hblind hreads hr hpart hextra
    rw [decode, hdecode]
    cases ending with
    | waiting => exact ⟨_, _, rfl, rfl⟩
    | finished | reset => exact ⟨_, _, rfl, _, rfl⟩

/-- Nothing is skipped. -/
theorem passes_skip_zero : Passes (skip 0) [] () where
  whole {r _ _ _} hr := ⟨r, rfl, hr⟩
  part _ hpart hextra := absurd (append_eq_nil_iff.mp hpart).2 hextra

/-- There is more while bytes are left. -/
theorem hasMore_of_ne_nil (hr : r.Ready ending rest) (hrest : rest ≠ []) :
    ∃ r', hasMore r g = (.ok true, r', g) ∧ r'.Ready ending rest := by
  obtain ⟨buffer, chunks, _⟩ := r
  obtain ⟨rfl, rfl, hchunks⟩ := hr
  cases buffer with
  | cons b buffer => exact ⟨_, rfl, rfl, rfl, hchunks⟩
  | nil =>
    cases chunks with
    | nil => exact absurd rfl hrest
    | cons chunk chunks =>
      refine ⟨_, rfl, ?_, rfl, fun c hc => hchunks c (mem_cons_of_mem _ hc)⟩
      simp [Reader.total]

/-! ### Frames -/

/-- A frame that is complete. -/
structure Holds (f : RecvFrame) (payload : List UInt8) : Prop where
  data : f.buf.data = payload
  size : f.buf.capacity = payload.length
  fin : f.fin = true
  abort : f.abort = none

theorem remaining_put (f : RecvFrame) (h : bytes.length ≤ f.buf.remaining) :
    (f.put bytes h).buf.remaining = f.buf.remaining - bytes.length := by
  have hlen : (f.put bytes h).buf.written = f.buf.written + bytes.length := length_append
  have hcapacity : (f.put bytes h).buf.capacity = f.buf.capacity := rfl
  unfold FrameBuf.remaining
  omega

variable {payload : List UInt8} {f : Option α → Recv Bool} {bytes' : List UInt8}

/-- The buffer of a frame is filled if its bytes are there. -/
theorem runFrame_whole {f : RecvFrame} (hr : r.Ready ending (payload ++ rest))
    (hsize : f.buf.remaining = payload.length) :
    ∃ r' f', runFrame r f = (.ok (), r', f') ∧ r'.Ready ending rest ∧
      f'.buf.data = f.buf.data ++ payload ∧ f'.buf.capacity = f.buf.capacity ∧
      f'.abort = f.abort := by
  induction hn : f.buf.remaining using Nat.strong_induction_on generalizing r f payload with
  | _ n ih =>
    rw [runFrame]
    split_ifs with hzero
    · have hpayload : payload = [] := length_eq_zero_iff.mp (hsize.symm.trans hzero)
      subst hpayload
      exact ⟨r, f, rfl, hr, (append_nil _).symm, rfl, rfl⟩
    · have hne : payload ++ rest ≠ [] := by
        intro hnil
        rw [(append_eq_nil_iff.mp hnil).1] at hsize
        exact hzero hsize
      obtain ⟨bytes, fits, _, rest₁, hread, hbytes, hsplit, hr₁⟩ :=
        Reader.readBuf_some hr hne (pos_of_ne_zero hzero)
      -- no more is read than there is room for, so the bytes are of the payload
      obtain ⟨payload₁, rfl⟩ : ∃ payload₁, payload = bytes ++ payload₁ := by
        have hprefix : bytes <+: payload :=
          prefix_of_prefix_length_le ⟨rest₁, hsplit.symm⟩ ⟨rest, rfl⟩ (by omega)
        exact hprefix.imp fun _ h => h.symm
      rw [append_assoc, append_cancel_left_eq] at hsplit
      rw [length_append] at hsize
      obtain ⟨r', f', hrun, hr', hdata, hcapacity, habort⟩ := ih _
        (hn ▸ f.remaining_put_lt fits hbytes) (hsplit ▸ hr₁)
        (by rw [remaining_put]; omega) rfl
      refine ⟨r', f', ?_, hr', ?_, hcapacity, habort⟩
      · rw [hread]
        dsimp only
        rw [dif_pos hbytes]
        exact hrun
      · rw [hdata]
        exact append_assoc _ _ _

/-- Bytes that do not fill the buffer do not complete the frame. -/
theorem runFrame_part {f : RecvFrame} (hr : r.Ready ending part)
    (hsize : part.length < f.buf.remaining) :
    ∃ result r' f', runFrame r f = (result, r', f') ∧ result.Stops ending ∧
      f'.buf.data = f.buf.data ++ part ∧ f'.fin = f.fin := by
  induction hn : f.buf.remaining using Nat.strong_induction_on generalizing r f part with
  | _ n ih =>
    have hzero : f.buf.remaining ≠ 0 := by omega
    rw [runFrame, if_neg hzero]
    by_cases hpart : part = []
    · subst hpart
      rw [hr.eq_nil, append_nil]
      cases ending with
      | waiting => exact ⟨_, _, f, rfl, rfl, rfl, rfl⟩
      | finished | reset => exact ⟨_, _, f, rfl, ⟨_, rfl⟩, rfl, rfl⟩
    · obtain ⟨bytes, fits, _, _, hread, hbytes, rfl, hr₁⟩ :=
        Reader.readBuf_some hr hpart (pos_of_ne_zero hzero)
      rw [length_append] at hsize
      obtain ⟨result, r', f', hrun, hstops, hdata, hfin⟩ := ih _
        (hn ▸ f.remaining_put_lt fits hbytes) hr₁ (by rw [remaining_put]; omega) rfl
      refine ⟨result, r', f', ?_, hstops, ?_, ?_⟩
      · rw [hread]
        dsimp only
        rw [dif_pos hbytes]
        exact hrun
      · rw [hdata]
        exact append_assoc _ _ _
      · have hfull : ¬ f.buf.written + bytes.length = f.buf.capacity := by
          unfold FrameBuf.remaining at hsize
          omega
        rw [hfin, RecvFrame.put, decide_eq_false hfull, Bool.or_false]

/-- What a group becomes by receiving frames. -/
structure Grows (g g' : RecvGroup) (frames : List RecvFrame) : Prop where
  sequence : g'.sequence = g.sequence
  frames : g'.frames = g.frames ++ frames
  fin : g'.cached.fin = g.cached.fin
  abort : g'.abort = g.abort

theorem Grows.refl (g : RecvGroup) : Grows g g [] := ⟨rfl, (append_nil _).symm, rfl, rfl⟩

theorem Grows.trans {g₁ g₂ g₃ : RecvGroup} {frames frames' : List RecvFrame}
    (h : Grows g₁ g₂ frames) (h' : Grows g₂ g₃ frames') : Grows g₁ g₃ (frames ++ frames') where
  sequence := h'.sequence.trans h.sequence
  frames := by rw [h'.frames, h.frames, append_assoc]
  fin := h'.fin.trans h.fin
  abort := h'.abort.trans h.abort

/-- A group that is not finished takes a frame that is not too large. -/
theorem exists_writeFrame {g : GroupState ℕ} (hopen : g.fin = false) {size : ℕ}
    (hsize : size ≤ maxFrameSize) : ∃ g', g.writeFrame id size = .ok g' ∧ g'.fin = false := by
  have hok : g.writeFrame id size = .ok (GroupState.evict id
      { g with cache := g.cache + size, frames := g.frames ++ [size] }) := by
    have hlen : ¬ id size > maxFrameSize := not_lt.mpr hsize
    rw [GroupState.writeFrame, if_neg hlen, hopen, if_neg Bool.false_ne_true]
    rfl
  exact ⟨_, hok, (GroupState.written_writeFrame hok).2.2⟩

/-- A frame whose bytes all arrive is cached. -/
theorem recvFrame_whole (hopen : g.cached.fin = false) (hsize : payload.length ≤ maxFrameSize)
    (hr : r.Ready ending (payload ++ rest)) :
    ∃ r' g' f, recvFrame payload.length r g = (.ok (), r', g') ∧ r'.Ready ending rest ∧
      Grows g g' [f] ∧ Holds f payload := by
  obtain ⟨cached, hcached, hfin⟩ := exists_writeFrame hopen hsize
  obtain ⟨r', f, hrun, hr', hdata, hcapacity, habort⟩ :=
    runFrame_whole (f := .new payload.length) hr rfl
  replace hdata : f.buf.data = payload := hdata
  replace hcapacity : f.buf.capacity = payload.length := hcapacity
  have hfinish : f.finish = .ok { f with fin := true } := by
    rw [RecvFrame.finish, if_neg]
    rw [not_not, FrameBuf.written, hdata, hcapacity]
  refine ⟨r', { g with cached, frames := g.frames ++ [{ f with fin := true }] }, _, ?_, hr',
    ⟨rfl, rfl, hfin.trans hopen.symm, rfl⟩, ⟨hdata, hcapacity, rfl, habort⟩⟩
  rw [recvFrame, hcached]
  rw [hrun]
  dsimp only
  rw [hfinish]

/-- A frame whose bytes do not all arrive stays unfinished. -/
theorem recvFrame_part {size : ℕ} (hopen : g.cached.fin = false) (hsize : size ≤ maxFrameSize)
    (hr : r.Ready ending part) (hpart : part.length < size) :
    ∃ result r' g' f, recvFrame size r g = (result, r', g') ∧ result.Stops ending ∧
      Grows g g' [f] ∧ f.fin = false := by
  obtain ⟨cached, hcached, hfin⟩ := exists_writeFrame hopen hsize
  obtain ⟨_, _, f, hrun, hstops, -, hf⟩ := runFrame_part (f := .new size) hr hpart
  have hgrows : ∀ f' : RecvFrame, Grows g { g with cached, frames := g.frames ++ [f'] } [f'] :=
    fun f' => ⟨rfl, rfl, hfin.trans hopen.symm, rfl⟩
  rw [recvFrame, hcached]
  rw [hrun]
  cases ending with
  | waiting =>
    cases hstops
    exact ⟨_, _, _, _, rfl, rfl, hgrows f, hf⟩
  | finished | reset =>
    obtain ⟨e, rfl⟩ := hstops
    exact ⟨_, _, _, _, rfl, ⟨e, rfl⟩, hgrows _, hf⟩

/-! ### Groups -/

/-- A round of the loop receives the frame with these bytes. -/
structure Transports (object : Recv Bool) (bytes payload : List UInt8) : Prop where
  ne_nil : bytes ≠ []
  whole : ∀ {r : Reader} {g : RecvGroup} {ending : StreamEnd} {rest : List UInt8},
    g.cached.fin = false → r.Ready ending (bytes ++ rest) →
    ∃ r' g' f, object r g = (.ok true, r', g') ∧ r'.Ready ending rest ∧ Grows g g' [f] ∧
      Holds f payload
  part : ∀ {r : Reader} {g : RecvGroup} {ending : StreamEnd} {part extra : List UInt8},
    g.cached.fin = false → r.Ready ending part → part ≠ [] → part ++ extra = bytes → extra ≠ [] →
    ∃ result r' g' frames, object r g = (result, r', g') ∧ result.Stops ending ∧
      Grows g g' frames ∧ ∀ f ∈ frames, f.fin = false

/-- The rest of a round receives the frame with these bytes. -/
structure Completes (object : Recv Bool) (bytes payload : List UInt8) : Prop where
  whole : ∀ {r : Reader} {g : RecvGroup} {ending : StreamEnd} {rest : List UInt8},
    g.cached.fin = false → r.Ready ending (bytes ++ rest) →
    ∃ r' g' f, object r g = (.ok true, r', g') ∧ r'.Ready ending rest ∧ Grows g g' [f] ∧
      Holds f payload
  part : ∀ {r : Reader} {g : RecvGroup} {ending : StreamEnd} {part extra : List UInt8},
    g.cached.fin = false → r.Ready ending part → part ++ extra = bytes → extra ≠ [] →
    ∃ result r' g' frames, object r g = (result, r', g') ∧ result.Stops ending ∧
      Grows g g' frames ∧ ∀ f ∈ frames, f.fin = false

/-- The payload of a frame completes it. -/
theorem completes_recvFrame (hsize : payload.length ≤ maxFrameSize) :
    Completes (do recvFrame payload.length; pure true) payload payload where
  whole {r g ending rest} hopen hr := by
    obtain ⟨r', g', f, hrecv, hr', hgrows, hholds⟩ := recvFrame_whole hopen hsize hr
    exact ⟨r', g', f, by rw [bind_of_ok hrecv]; rfl, hr', hgrows, hholds⟩
  part {r g ending part extra} hopen hr hpart hextra := by
    have hlen : part.length < payload.length := by
      rw [← hpart, length_append]
      exact Nat.lt_add_of_pos_right (length_pos_iff.mpr hextra)
    obtain ⟨_, r', g', f, hrecv, hstops, hgrows, hf⟩ := recvFrame_part hopen hsize hr hlen
    obtain ⟨result', hbind, hstops'⟩ :=
      bind_of_stops (f := fun _ => (pure true : Recv Bool)) hrecv hstops
    exact ⟨result', r', g', [f], hbind, hstops', hgrows, forall_mem_singleton.mpr hf⟩

/-- An object is complete after its header and its payload. -/
theorem Passes.completes {f : α → Recv Bool} (hm : Passes m bytes a)
    (hf : Completes (f a) bytes' payload) :
    Completes (m >>= f) (bytes ++ bytes') payload where
  whole {r g ending rest} hopen hr := by
    rw [append_assoc] at hr
    obtain ⟨r₁, hr₁, hready⟩ := hm.whole (g := g) hr
    rw [bind_of_ok hr₁]
    exact hf.whole hopen hready
  part {r g ending part extra} hopen hr hpart hextra := by
    rcases part_cases hpart with ⟨_, hextra', hfirst⟩ | ⟨_, rfl, hsecond⟩
    · obtain ⟨_, r', hstep, hstops⟩ := hm.part (g := g) hr hfirst hextra'
      obtain ⟨result', hbind, hstops'⟩ := bind_of_stops (f := f) hstep hstops
      exact ⟨result', r', g, [], hbind, hstops', .refl g, forall_mem_nil _⟩
    · obtain ⟨_, hr₁, hready⟩ := hm.whole (g := g) hr
      rw [bind_of_ok hr₁]
      exact hf.part hopen hready hsecond hextra

/-- A round begins with a value that is there, unless the stream has ended. -/
theorem transports_decodeMaybe (hblind : p.Blind)
    (hreads : p.Reads bytes a) (hbytes : bytes ≠ []) (hf : Completes (f (some a)) bytes' payload) :
    Transports (decodeMaybe p >>= f) (bytes ++ bytes') payload := by
  -- once there is a byte, the value is decoded
  have hmaybe : ∀ {r : Reader} {g : RecvGroup} {ending : StreamEnd} {rest : List UInt8},
      r.Ready ending rest → rest ≠ [] → ∃ r', r'.Ready ending rest ∧
        (decodeMaybe p >>= f) r g = (decode p >>= fun a => f (some a)) r' g := by
    intro r g ending rest hr hrest
    obtain ⟨r₁, hmore, hr₁⟩ := hasMore_of_ne_nil (g := g) hr hrest
    have hdecode : decodeMaybe p r g = (do let a ← decode p; pure (some a)) r₁ g := by
      rw [decodeMaybe, bind_of_ok hmore, if_pos rfl]
    refine ⟨r₁, hr₁, ?_⟩
    rw [bind_congr hdecode, bind_pure_bind]
  have hcompletes := (passes_decode hblind hreads).completes (f := fun a => f (some a)) hf
  refine ⟨by simp [hbytes], ?_, ?_⟩
  · intro r g ending rest hopen hr
    obtain ⟨r₁, hr₁, heq⟩ := hmaybe (g := g) hr (by simp [hbytes])
    rw [heq]
    exact hcompletes.whole hopen hr₁
  · intro r g ending part extra hopen hr hne hpart hextra
    obtain ⟨_, hr₁, heq⟩ := hmaybe (g := g) hr hne
    rw [heq]
    exact hcompletes.part hopen hr₁ hpart hextra

/-- What a round comes to if nothing is left to read. -/
def atEnd : StreamEnd → Result Bool
  | .waiting => .waiting
  | .finished => .ok false
  | .reset => .error .transport

theorem stops_atEnd (h : ending ≠ .finished) : (atEnd ending).Stops ending := by
  cases ending with
  | waiting => rfl
  | finished => exact absurd rfl h
  | reset => exact ⟨_, rfl⟩

/-- A round of the loop sees the end of the stream. -/
def SeesEnd (object : Recv Bool) : Prop :=
  ∀ {r : Reader} {g : RecvGroup} {ending : StreamEnd}, r.Ready ending [] →
    object r g = (atEnd ending, r, g)

theorem seesEnd_decodeMaybe (hf : f none = pure false) :
    SeesEnd (decodeMaybe p >>= f) := by
  intro r g ending hr
  rw [hr.eq_nil]
  cases ending with
  | waiting => rfl
  | reset => rfl
  | finished =>
    have hnone : decodeMaybe p ⟨[], [], .finished⟩ g = (.ok none, ⟨[], [], .finished⟩, g) := rfl
    rw [bind_of_ok hnone, hf]
    rfl

variable {object : Recv Bool} {objects : List (List UInt8 × List UInt8)}

/-- All frames are received if all bytes are there and the stream is finished. -/
theorem loop_whole (fuel : ℕ) (hend : SeesEnd object)
    (hall : ∀ o ∈ objects, Transports object o.1 o.2) (hopen : g.cached.fin = false)
    (hr : r.Ready .finished (objects.map Prod.fst).flatten)
    (hfuel : (objects.map Prod.fst).flatten.length < fuel) :
    ∃ r' g' frames, loop object fuel r g = (.ok (), r', g') ∧ Grows g g' frames ∧
      List.Forall₂ Holds frames (objects.map Prod.snd) := by
  induction objects generalizing r g fuel with
  | nil =>
    obtain _ | fuel := fuel
    · exact absurd hfuel (not_lt_zero _)
    · exact ⟨r, g, [], by rw [loop, bind_of_ok (hend hr)]; rfl, .refl g, .nil⟩
  | cons o objects ih =>
    obtain _ | fuel := fuel
    · exact absurd hfuel (not_lt_zero _)
    have ho := hall o mem_cons_self
    have hpos := length_pos_iff.mpr ho.ne_nil
    rw [map_cons, flatten_cons] at hr hfuel
    rw [length_append] at hfuel
    obtain ⟨_, _, f, hobject, hr₁, hgrows, hholds⟩ := ho.whole hopen hr
    obtain ⟨r', g', frames, hloop, hgrows', hall'⟩ := ih fuel
      (fun o' ho' => hall o' (mem_cons_of_mem _ ho')) (hgrows.fin.trans hopen) hr₁ (by omega)
    exact ⟨r', g', f :: frames, by rw [loop, bind_of_ok hobject]; exact hloop,
      hgrows.trans hgrows', .cons hholds hall'⟩

/-- What the receiver has of a part of the bytes: the first `k` frames in full, and nothing that
is marked as finished behind them. It stops, unless the stream is finished between two frames. -/
structure Received (objects : List (List UInt8 × List UInt8)) (ending : StreamEnd) (g : RecvGroup)
    (out : Result Unit × Reader × RecvGroup) (k : ℕ) (frames cut : List RecvFrame) : Prop where
  grows : Grows g out.2.2 (frames ++ cut)
  holds : List.Forall₂ Holds frames ((objects.map Prod.snd).take k)
  cutOff : ∀ f ∈ cut, f.fin = false
  result : out.1.Stops ending ∨ ending = .finished ∧ out.1 = .ok () ∧ cut = []

/-- The receiver stops between frames, unless the stream is finished. -/
theorem loop_nil {fuel : ℕ} (hend : SeesEnd object) (hr : r.Ready ending [])
    (hfuel : 0 < fuel) :
    Received objects ending g (loop object fuel r g) 0 [] [] := by
  obtain _ | fuel := fuel
  · exact absurd hfuel (not_lt_zero _)
  by_cases hfinished : ending = .finished
  · subst hfinished
    rw [loop, bind_of_ok (hend hr)]
    exact ⟨.refl g, .nil, forall_mem_nil _, .inr ⟨rfl, rfl, rfl⟩⟩
  · obtain ⟨_, hloop, hstops⟩ := bind_of_stops
      (f := fun more => if more then loop object fuel else pure ()) (hend (g := g) hr)
      (stops_atEnd hfinished)
    rw [loop, hloop]
    exact ⟨.refl g, .nil, forall_mem_nil _, .inl hstops⟩

/-- Of a part of the bytes, the frames that are there in full are received. -/
theorem loop_part (fuel : ℕ) (hend : SeesEnd object)
    (hall : ∀ o ∈ objects, Transports object o.1 o.2) (hopen : g.cached.fin = false)
    (hr : r.Ready ending part)
    (hpart : part <+: (objects.map Prod.fst).flatten) (hfuel : part.length < fuel) :
    ∃ k frames cut, Received objects ending g (loop object fuel r g) k frames cut := by
  induction objects generalizing r g part fuel with
  | nil =>
    obtain rfl : part = [] := prefix_nil.mp hpart
    exact ⟨0, [], [], loop_nil hend hr hfuel⟩
  | cons o objects ih =>
    by_cases hnil : part = []
    · subst hnil
      exact ⟨0, [], [], loop_nil hend hr hfuel⟩
    obtain _ | fuel := fuel
    · exact absurd hfuel (not_lt_zero _)
    have ho := hall o mem_cons_self
    by_cases hwhole : o.1 <+: part
    · -- the frame is there in full
      obtain ⟨part, rfl⟩ := hwhole
      have hpos := length_pos_iff.mpr ho.ne_nil
      rw [map_cons, flatten_cons, prefix_append_right_inj] at hpart
      rw [length_append] at hfuel
      obtain ⟨_, _, f, hobject, hr₁, hgrows, hholds⟩ := ho.whole hopen hr
      obtain ⟨k, frames, cut, h⟩ := ih fuel
        (fun o' ho' => hall o' (mem_cons_of_mem _ ho')) (hgrows.fin.trans hopen) hr₁ hpart
        (by omega)
      refine ⟨k + 1, f :: frames, cut, ?_⟩
      rw [loop, bind_of_ok hobject]
      exact ⟨hgrows.trans h.grows, .cons hholds h.holds, h.cutOff, h.result⟩
    · -- the frame is cut off
      have hor := prefix_or_prefix_of_prefix hpart (prefix_append _ _)
      obtain ⟨extra, hextra⟩ := hor.resolve_right hwhole
      have hne : extra ≠ [] := by
        rintro rfl
        exact hwhole ⟨[], by rw [← hextra, append_nil, append_nil]⟩
      obtain ⟨_, _, _, frames, hobject, hstops, hgrows, hfin⟩ :=
        ho.part hopen hr hnil hextra hne
      obtain ⟨_, hloop, hstops'⟩ := bind_of_stops
        (f := fun more => if more then loop object fuel else pure ()) hobject hstops
      refine ⟨0, [], frames, ?_⟩
      rw [loop, hloop]
      exact ⟨hgrows, .nil, hfin, .inl hstops'⟩

end Recv

variable {g : RecvGroup}

namespace RecvGroup

theorem finish_eq (h : g.abort = none) :
    g.finish = { g with cached := g.cached.finish } := by
  rw [finish, h]
  rfl

theorem abortWith_eq (h : g.abort = none) (e : RecvError) :
    g.abortWith e =
      { g with abort := some e, cached := { g.cached with frames := [], cache := 0 } } := by
  rw [abortWith, h]
  rfl

/-- A group that is received in full. -/
structure Complete (g : RecvGroup) (sequence : ℕ) (payloads : List (List UInt8)) :
    Prop where
  sequence : g.sequence = sequence
  frames : List.Forall₂ Recv.Holds g.frames payloads
  fin : g.cached.fin = true
  abort : g.abort = none

/-- A group whose finished frames are complete frames of the original. -/
structure Faithful (g : RecvGroup) (sequence : ℕ) (payloads : List (List UInt8)) :
    Prop where
  sequence : g.sequence = sequence
  frames : ∀ {i : ℕ} {f : RecvFrame}, g.frames[i]? = some f → f.fin = true →
    ∃ payload, payloads[i]? = some payload ∧ Recv.Holds f payload

end RecvGroup

namespace Recv

variable {object : Recv Bool} {objects : List (List UInt8 × List UInt8)} {r : Reader}
  {ending : StreamEnd} {part : List UInt8}

/-- A group whose objects all arrive is complete. -/
theorem recvGroup_whole (hend : SeesEnd object) (hall : ∀ o ∈ objects, Transports object o.1 o.2)
    (sequence : ℕ) (hr : r.Ready .finished (objects.map Prod.fst).flatten) :
    (recvGroup object sequence r).Complete sequence (objects.map Prod.snd) := by
  obtain ⟨_, g', frames, hloop, hgrows, hholds⟩ :=
    loop_whole (g := .new sequence) (r.total.length + 1) hend hall rfl hr
      (by rw [hr.total]; exact lt_succ_self _)
  have habort : g'.abort = none := hgrows.abort
  have hframes : g'.frames = frames := hgrows.frames
  rw [recvGroup, hloop]
  dsimp only
  rw [RecvGroup.finish_eq habort]
  exact ⟨hgrows.sequence, hframes ▸ hholds, rfl, habort⟩

/-- The frames in front of one that is cut off are complete. -/
theorem faithful_of_holds {sequence k : ℕ} {frames cut : List RecvFrame}
    {payloads : List (List UInt8)} (hsequence : g.sequence = sequence)
    (hframes : g.frames = frames ++ cut) (hholds : List.Forall₂ Holds frames (payloads.take k))
    (hcut : ∀ f ∈ cut, f.fin = false) : g.Faithful sequence payloads where
  sequence := hsequence
  frames {i f} hi hf := by
    rw [hframes] at hi
    by_cases hlt : i < frames.length
    · rw [getElem?_append_left hlt, getElem?_eq_getElem hlt, Option.some_inj] at hi
      obtain ⟨hlen, hget⟩ := forall₂_iff_get.mp hholds
      have hlt' : i < (payloads.take k).length := hlen ▸ hlt
      refine ⟨(payloads.take k)[i], ?_, ?_⟩
      · rw [getElem_take, getElem?_eq_getElem]
      · subst hi
        exact hget i hlt hlt'
    · rw [getElem?_append_right (not_lt.mp hlt)] at hi
      have hfalse := hcut f (mem_of_getElem? hi)
      exact absurd (hf.symm.trans hfalse) Bool.noConfusion

/-- The group that comes of a part of the bytes: it is aborted, unless the stream goes on or was
finished between two frames and so ends the group there. -/
theorem recvGroup_part (hend : SeesEnd object) (hall : ∀ o ∈ objects, Transports object o.1 o.2)
    (sequence : ℕ) (hr : r.Ready ending part)
    (hpart : part <+: (objects.map Prod.fst).flatten) :
    (recvGroup object sequence r).Faithful sequence (objects.map Prod.snd) ∧
      ((recvGroup object sequence r).abort.isSome ∨ ending = .waiting ∨
        ending = .finished ∧ ∃ k,
          (recvGroup object sequence r).Complete sequence ((objects.map Prod.snd).take k)) := by
  obtain ⟨k, frames, cut, hgrows, hholds, hcut, hresult⟩ :=
    loop_part (g := .new sequence) (r.total.length + 1) hend hall rfl hr hpart
      (by rw [hr.total]; exact lt_succ_self _)
  rw [recvGroup]
  generalize loop object (r.total.length + 1) r (.new sequence) = out at hgrows hresult
  obtain ⟨result, _, g⟩ := out
  have habort : g.abort = none := hgrows.abort
  have hframes : g.frames = frames ++ cut := hgrows.frames
  have hfaithful : ∀ g' : RecvGroup, g'.sequence = g.sequence → g'.frames = g.frames →
      g'.Faithful sequence (objects.map Prod.snd) := fun g' hsequence' hframes' =>
    faithful_of_holds (hsequence'.trans hgrows.sequence) (hframes'.trans hframes) hholds hcut
  rcases hresult with hstops | ⟨hfinished, hok, rfl⟩
  · cases ending with
    | waiting =>
      obtain rfl : result = .waiting := hstops
      exact ⟨hfaithful g rfl rfl, .inr (.inl rfl)⟩
    | finished | reset =>
      obtain ⟨e, he⟩ := hstops
      obtain rfl : result = .error e := he
      dsimp only
      rw [RecvGroup.abortWith_eq habort e]
      exact ⟨hfaithful _ rfl rfl, .inl rfl⟩
  · obtain rfl : result = .ok () := hok
    dsimp only
    rw [RecvGroup.finish_eq habort]
    rw [append_nil] at hframes
    exact ⟨hfaithful _ rfl rfl,
      .inr (.inr ⟨hfinished, k, hgrows.sequence, hframes ▸ hholds, rfl, habort⟩)⟩

end Recv

end HermitMoq
