import HermitMoq.BigEndian
import Mathlib.Data.List.Infix

/-!
# NAL Units and Their Framing

`moq-mux/src/codec/annexb.rs`: the NAL units of a video frame, each after a start code (Annex B) or
after its length. `memmem::find` is taken to find the leftmost match.
-/

namespace HermitMoq

open List BigEndian

namespace AnnexB

/-- `Error`. -/
inductive Error
  | missingStartCode
  | invalidStartCode
  | invalidLengthSize (lengthSize : ℕ)
  | truncated
  deriving DecidableEq, Repr

/-- The bytes of a unit. -/
abbrev Nal := List UInt8

/-- `START_CODE`. -/
def startCode : List UInt8 :=
  [0, 0, 0, 1]

/-- `build_prefix`. -/
def buildPrefix (nals : List Nal) : List UInt8 :=
  nals.flatMap fun nal => startCode ++ nal

/-! ### Start codes -/

/-- `after_start_code`. -/
def afterStartCode : List UInt8 → Except Error (Option ℕ)
  | b₀ :: b₁ :: b₂ :: rest =>
    if b₀ ≠ 0 ∨ b₁ ≠ 0 then .error .missingStartCode
    else if b₂ = 0 then
      match rest with
      | [] => .ok none
      | b₃ :: _ => if b₃ ≠ 1 then .error .missingStartCode else .ok (some 4)
    else if b₂ = 1 then .ok (some 3)
    else .error .invalidStartCode
  | _ => .ok none

/-- `memmem::find` for `0 0 1`. -/
def findCore : List UInt8 → Option ℕ
  | [] => none
  | b :: bs => if [0, 0, 1] <+: b :: bs then some 0 else (findCore bs).map (· + 1)

/-- `find_start_code`. -/
def findStartCode (b : List UInt8) : Option (ℕ × ℕ) := do
  let core ← findCore b
  if 0 < core ∧ b[core - 1]? = some 0 then some (core - 1, 4) else some (core, 3)

theorem findCore_eq_none {nal : Nal} (h : ¬[0, 0, 1] <:+: nal) : findCore nal = none := by
  induction nal with
  | nil => rfl
  | cons b nal ih =>
    rw [findCore, if_neg fun hp => h hp.isInfix, ih fun hi => h (infix_cons hi)]
    rfl

/-- A match at the end of a unit would have to end in it. -/
theorem core_of_append (nal : Nal) {rest : List UInt8}
    (h : [0, 0, 1] <+: nal ++ (startCode ++ rest)) : [0, 0, 1] <+: nal := by
  match nal with
  | [] => simp [startCode] at h
  | [a] => simp [startCode] at h
  | [a, b] => simp [startCode] at h
  | a :: b :: c :: nal => simpa using h

theorem findCore_append {nal : Nal} (h : ¬[0, 0, 1] <:+: nal) (rest : List UInt8) :
    findCore (nal ++ (startCode ++ rest)) = some (nal.length + 1) := by
  induction nal with
  | nil => simp [startCode, findCore]
  | cons b nal ih =>
    have hb : ¬[0, 0, 1] <+: b :: (nal ++ (startCode ++ rest)) :=
      fun hp => h (core_of_append (b :: nal) hp).isInfix
    rw [cons_append, findCore, if_neg hb, ih fun hi => h (infix_cons hi)]
    rfl

theorem findStartCode_append {nal : Nal} (h : ¬[0, 0, 1] <:+: nal) (rest : List UInt8) :
    findStartCode (nal ++ (startCode ++ rest)) = some (nal.length, 4) := by
  rw [findStartCode, findCore_append h]
  simp [startCode]

theorem findStartCode_eq_some {b : List UInt8} {size start : ℕ}
    (h : findStartCode b = some (size, start)) : start ≠ 0 ∧ 0 < b.length := by
  cases b with
  | nil => cases h
  | cons x b =>
    simp only [findStartCode, Option.bind_eq_bind, Option.bind_eq_some_iff] at h
    obtain ⟨_, -, h⟩ := h
    split_ifs at h <;> cases h <;> simp

theorem afterStartCode_ne_zero {b : List UInt8} : afterStartCode b ≠ .ok (some 0) := by
  fun_cases afterStartCode b <;> simp

/-! ### Iteration -/

/-- `NalIterator`. -/
structure NalIterator where
  buf : List UInt8
  start : Option ℕ

namespace NalIterator

/-- `NalIterator::new`. -/
def new (buf : List UInt8) : NalIterator where
  buf := buf
  start := none

/-- Where the next unit starts. -/
def position (it : NalIterator) : Except Error (Option ℕ) :=
  match it.start with
  | some start => .ok (some start)
  | none => afterStartCode it.buf

/-- `NalIterator::next`. -/
def next (it : NalIterator) : Option (Except Error (List UInt8)) × NalIterator :=
  match it.position with
  | .error e => (some (.error e), it)
  | .ok none => (none, it)
  | .ok (some start) =>
    match findStartCode (it.buf.drop start) with
    | none => (none, it)
    | some (size, newStart) =>
      (some (.ok ((it.buf.drop start).take size)),
        ⟨(it.buf.drop start).drop size, some newStart⟩)

/-- `NalIterator::flush`. -/
def flush (it : NalIterator) : Except Error (Option (List UInt8)) := do
  let start ← it.position
  return start.map fun start => it.buf.drop start

/-- Decreases with every unit: but for the first time, a start code is skipped. -/
def left (it : NalIterator) : ℕ :=
  2 * it.buf.length + if it.start = some 0 then 1 else 0

/-- The iterator gets shorter with every unit. -/
theorem next_lt {it it' : NalIterator} {nal : Nal} (h : it.next = (some (.ok nal), it')) :
    it'.left < it.left := by
  rw [next] at h
  split at h
  · cases h
  · cases h
  next start hpos =>
  split at h
  · cases h
  next size newStart hfind =>
  cases h
  obtain ⟨hnew, hsome⟩ := findStartCode_eq_some hfind
  rw [length_drop] at hsome
  simp only [left, length_drop, Option.some.injEq, hnew, if_false]
  by_cases hzero : start = 0
  · have hstart : it.start = some 0 := by
      rw [position, hzero] at hpos
      split at hpos
      · simp_all
      · exact absurd hpos afterStartCode_ne_zero
    rw [if_pos hstart]
    omega
  · omega

variable {σ ε : Type} (ofError : Error → ε) (f : σ → Nal → Except ε σ)

/-- A loop over the units, and then over the last one, which only `flush` returns. -/
def each (it : NalIterator) (s : σ) : Except ε σ :=
  match _h : it.next with
  | (none, it') =>
    match it'.flush with
    | .error e => .error (ofError e)
    | .ok none => .ok s
    | .ok (some nal) => f s nal
  | (some (.error e), _) => .error (ofError e)
  | (some (.ok nal), it') => do
    let s ← f s nal
    each it' s
termination_by it.left
decreasing_by exact next_lt _h

/-- At a start code, the unit after it and those after that are returned. -/
theorem each_of_at {it : NalIterator} {nal : Nal} {nals : List Nal}
    (hnals : ∀ n ∈ nal :: nals, ¬[0, 0, 1] <:+: n) (hpos : it.position = .ok (some 4))
    (hbuf : it.buf = buildPrefix (nal :: nals)) (s : σ) :
    it.each ofError f s = (nal :: nals).foldlM f s := by
  have hnal := hnals nal mem_cons_self
  induction nals generalizing it nal s with
  | nil =>
    have hdrop : it.buf.drop 4 = nal := by simp [hbuf, buildPrefix, startCode]
    have hnext : it.next = (none, it) := by
      simp [next, hpos, hdrop, findStartCode, findCore_eq_none hnal]
    have hflush : it.flush = .ok (some nal) := by
      simp [flush, hpos, hdrop, Except.bind, bind, pure, Except.pure]
    rw [each]
    split <;> simp_all
  | cons nal' nals ih =>
    have hdrop : it.buf.drop 4 = nal ++ (startCode ++ (nal' ++ buildPrefix nals)) := by
      simp [hbuf, buildPrefix, startCode]
    have hnext : it.next = (some (.ok nal), ⟨buildPrefix (nal' :: nals), some 4⟩) := by
      simp [next, hpos, hdrop, findStartCode_append hnal, buildPrefix]
    have htail := fun s => @ih ⟨buildPrefix (nal' :: nals), some 4⟩ nal'
      (fun n hn => hnals n (mem_cons_of_mem _ hn)) rfl rfl s (hnals nal' (by simp))
    rw [each, foldlM_cons]
    split <;> simp_all

/-- The units that iteration and `flush` return. -/
def units (buf : List UInt8) : Except Error (List Nal) :=
  (new buf).each id (fun nals nal => .ok (nals ++ [nal])) []

end NalIterator

/-! ### Length prefixes -/

/-- Units after their lengths, in `lengthSize` bytes each. -/
def lengthPrefixed (lengthSize : ℕ) (nals : List Nal) : List UInt8 :=
  nals.flatMap fun nal => BigEndian.toBytes lengthSize nal.length ++ nal

/-- The length that is read from a prefix. -/
def readLength (bytes : List UInt8) : ℕ :=
  bytes.foldl (fun len b => len <<< 8 ||| b.toNat) 0

/-- The loop that puts start codes in the place of lengths, with its two errors. -/
def rewrite {ε : Type} (short : ε) (exceeds : ℕ → ℕ → ε) {lengthSize : ℕ}
    (hsize : 0 < lengthSize) (out data : List UInt8) : Except ε (List UInt8) :=
  if data = [] then .ok out
  else if data.length < lengthSize then .error short
  else if (data.drop lengthSize).length < readLength (data.take lengthSize) then
    .error (exceeds (readLength (data.take lengthSize)) (data.drop lengthSize).length)
  else
    rewrite short exceeds hsize
      (out ++ startCode ++ (data.drop lengthSize).take (readLength (data.take lengthSize)))
      ((data.drop lengthSize).drop (readLength (data.take lengthSize)))
termination_by data.length
decreasing_by
  simp only [List.length_drop]
  omega

/-- `from_length_prefixed`. -/
def fromLengthPrefixed (payload : List UInt8) (lengthSize : ℕ) (start : Option (List UInt8)) :
    Except Error (List UInt8) :=
  if h : 1 ≤ lengthSize ∧ lengthSize ≤ 4 then
    rewrite .truncated (fun _ _ => .truncated) h.1 (start.getD []) payload
  else .error (.invalidLengthSize lengthSize)

/-- The errors of `length_prefixed_to_annexb`. -/
inductive LengthError
  | invalidSize (lengthSize : ℕ)
  | truncatedPrefix
  | exceedsRemaining (len remaining : ℕ)
  deriving DecidableEq, Repr

/-- `length_prefixed_to_annexb`: what `out` becomes. -/
def lengthPrefixedToAnnexb (data : List UInt8) (lengthSize : ℕ) (out : List UInt8) :
    Except LengthError (List UInt8) :=
  if h : 1 ≤ lengthSize ∧ lengthSize ≤ 4 then
    rewrite .truncatedPrefix .exceedsRemaining h.1 out data
  else .error (.invalidSize lengthSize)

theorem foldl_readLength (bytes : List UInt8) (len : ℕ) :
    bytes.foldl (fun len b => len <<< 8 ||| b.toNat) len =
      len * 256 ^ bytes.length + BigEndian.ofBytes bytes := by
  induction bytes generalizing len with
  | nil => simp [ofBytes]
  | cons b bytes ih =>
    have hor : len <<< 8 ||| b.toNat = len * 256 + b.toNat := by
      rw [← Nat.shiftLeft_add_eq_or_of_lt b.toNat_lt, Nat.shiftLeft_eq]
    rw [foldl_cons, hor, ih, ofBytes, length_cons]
    ring

theorem readLength_eq (bytes : List UInt8) : readLength bytes = BigEndian.ofBytes bytes := by
  rw [readLength, foldl_readLength]
  omega

/-- A concatenation of complete units after their lengths. -/
def Complete (lengthSize : ℕ) (data : List UInt8) : Prop :=
  ∃ nals : List Nal, (∀ nal ∈ nals, nal.length < 256 ^ lengthSize) ∧
    data = lengthPrefixed lengthSize nals

/-- Exactly concatenations of complete units are accepted, and become the same units after start
codes. -/
theorem rewrite_eq_ok_iff {ε : Type} (short : ε) (exceeds : ℕ → ℕ → ε) {n : ℕ} (hsize : 0 < n)
    (out data r : List UInt8) :
    rewrite short exceeds hsize out data = .ok r ↔
      ∃ nals : List Nal, (∀ nal ∈ nals, nal.length < 256 ^ n) ∧
        data = lengthPrefixed n nals ∧ r = out ++ buildPrefix nals := by
  constructor
  · intro h
    fun_induction rewrite short exceeds hsize out data with
    | case1 out =>
      cases h
      exact ⟨[], by simp, rfl, by simp [buildPrefix]⟩
    | case2 => cases h
    | case3 => cases h
    | case4 out data hne hlong hfits ih =>
      obtain ⟨nals, hnals, hdata, hr⟩ := ih h
      have htake : (data.take n).length = n := by simp; omega
      have hlen : ((data.drop n).take (readLength (data.take n))).length =
          ofBytes (data.take n) := by
        rw [length_take, ← readLength_eq]
        omega
      refine ⟨(data.drop n).take (readLength (data.take n)) :: nals, ?_, ?_, ?_⟩
      · have hlt := ofBytes_lt (data.take n)
        rw [htake, ← hlen] at hlt
        exact forall_mem_cons.mpr ⟨hlt, hnals⟩
      · have hbytes := toBytes_ofBytes (data.take n)
        rw [htake] at hbytes
        rw [lengthPrefixed, flatMap_cons, hlen, hbytes, ← lengthPrefixed, ← hdata]
        simp
      · simp [hr, buildPrefix]
  · rintro ⟨nals, hnals, rfl, rfl⟩
    induction nals generalizing out with
    | nil => simp [rewrite, lengthPrefixed, buildPrefix]
    | cons nal nals ih =>
      have hlen : readLength (toBytes n nal.length) = nal.length := by
        rw [readLength_eq, ofBytes_toBytes, Nat.mod_eq_of_lt (hnals nal (by simp))]
      have hnals' := ih (out ++ startCode ++ nal) fun m hm => hnals m (mem_cons_of_mem _ hm)
      have hdata : lengthPrefixed n (nal :: nals) =
          toBytes n nal.length ++ (nal ++ lengthPrefixed n nals) := by
        simp [lengthPrefixed]
      have hn := length_toBytes n nal.length
      rw [rewrite, hdata, take_left' hn, drop_left' hn, hlen, take_left,
        drop_left, hnals', if_neg, if_neg, if_neg]
      · simp [buildPrefix]
      · simp
      · simp
      · intro h
        have := congrArg length h
        simp at this
        omega

/-- Exactly what is not complete is refused. -/
theorem rewrite_eq_error_iff {ε : Type} (short : ε) (exceeds : ℕ → ℕ → ε) {n : ℕ} (hsize : 0 < n)
    (out data : List UInt8) :
    (∃ e, rewrite short exceeds hsize out data = .error e) ↔ ¬Complete n data := by
  constructor
  · rintro ⟨e, he⟩ ⟨nals, hnals, hdata⟩
    have hok := (rewrite_eq_ok_iff short exceeds hsize out data _).mpr ⟨nals, hnals, hdata, rfl⟩
    rw [he] at hok
    cases hok
  · intro hc
    cases h : rewrite short exceeds hsize out data with
    | error e => exact ⟨e, rfl⟩
    | ok r =>
      obtain ⟨nals, hnals, hdata, -⟩ := (rewrite_eq_ok_iff short exceeds hsize out data r).mp h
      exact absurd ⟨nals, hnals, hdata⟩ hc

/-- **The two framings agree**: units come back from the buffer built of them, and from their
length-prefixed form the same buffer is built; what is not complete is refused. -/
theorem framings_agree :
    (∀ nals : List Nal, nals ≠ [] → (∀ nal ∈ nals, ¬[0, 0, 1] <:+: nal) →
      NalIterator.units (buildPrefix nals) = .ok nals) ∧
    ∀ n, 1 ≤ n → n ≤ 4 →
      (∀ nals : List Nal, (∀ nal ∈ nals, nal.length < 256 ^ n) →
        (∀ start, fromLengthPrefixed (lengthPrefixed n nals) n start =
          .ok (start.getD [] ++ buildPrefix nals)) ∧
        ∀ out, lengthPrefixedToAnnexb (lengthPrefixed n nals) n out =
          .ok (out ++ buildPrefix nals)) ∧
      ∀ data,
        (∀ start, (∃ e, fromLengthPrefixed data n start = .error e) ↔ ¬Complete n data) ∧
        ∀ out, (∃ e, lengthPrefixedToAnnexb data n out = .error e) ↔ ¬Complete n data := by
  refine ⟨?_, ?_⟩
  · intro nals hne hnals
    obtain ⟨_, nals, rfl⟩ := exists_cons_of_ne_nil hne
    rw [NalIterator.units, NalIterator.each_of_at _ _ hnals rfl rfl]
    exact foldlM_pure.trans (by simp [← flatMap_def, pure, Except.pure])
  · intro n hn₁ hn₄
    have hsize : 1 ≤ n ∧ n ≤ 4 := ⟨hn₁, hn₄⟩
    simp only [fromLengthPrefixed, lengthPrefixedToAnnexb, dif_pos hsize]
    refine ⟨?_, ?_⟩
    · intro nals hnals
      exact ⟨fun start => (rewrite_eq_ok_iff _ _ _ _ _ _).mpr ⟨nals, hnals, rfl, rfl⟩,
        fun out => (rewrite_eq_ok_iff _ _ _ _ _ _).mpr ⟨nals, hnals, rfl, rfl⟩⟩
    · intro data
      exact ⟨fun start => rewrite_eq_error_iff _ _ _ _ _, fun out => rewrite_eq_error_iff _ _ _ _ _⟩

/-- A unit that ends in zeros and an empty one come back as they are. -/
theorem framings_agree_trailing_zeros :
    NalIterator.units (buildPrefix [[0x67, 0, 0], [], [0x65]]) = .ok [[0x67, 0, 0], [], [0x65]] ∧
    fromLengthPrefixed (lengthPrefixed 1 [[0x67, 0, 0], []]) 1 none =
      .ok (buildPrefix [[0x67, 0, 0], []]) :=
  ⟨framings_agree.1 _ (by decide) (by decide),
    ((framings_agree.2 1 (by decide) (by decide)).1 _ (by decide)).1 none⟩

end AnnexB

end HermitMoq
