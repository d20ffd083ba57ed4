import Mathlib.Algebra.Group.Nat.Defs
import Mathlib.Data.List.Basic

/-!
# Importing the Segments of an HLS Rendition

`Import` of `moq-hls/src/import.rs`, for a playlist with one rendition. The rendition is imported by
fetching its media playlist again and again. The playlist is a window of numbered segments; a track
keeps the number to go on with, forgets it when it is out of the window, and starts the window over
then. A segment that cannot be pushed ends the step, and the next step tries it again.

`init` moves the track out of the import and does not put it back when it fails. The next call
makes a new track, which knows nothing of what the lost one has pushed.
-/

namespace HermitMoq

open List

namespace Hls

/-- The errors of an import, of fetching and of decoding. -/
inductive Error
  | missingMap
  | emptySegmentUri
  | parsePlaylist
  | urlParse
  | reqwest
  | io
  | mux
  deriving DecidableEq, Repr

/-- A segment of a playlist, with what comes of it in this step. -/
structure MediaSegment where
  uri : List Char
  /-- Its init segment, and the result of fetching and decoding that. -/
  map : Option (Except Error Unit)
  /-- The result of resolving its URI, fetching and decoding it. -/
  result : Except Error Unit

structure MediaPlaylist where
  mediaSequence : ℕ
  segments : List MediaSegment

/-- The number after the last segment. -/
def MediaPlaylist.last (playlist : MediaPlaylist) : ℕ :=
  playlist.mediaSequence + playlist.segments.length

/-- The sum of two numbers of type `u64`. -/
def addU64 (m n : ℕ) : ℕ := (m + n) % 2 ^ 64

/-- A segment that was pushed, and the start of the playlist it was taken from. -/
structure Push where
  start : ℕ
  sequence : ℕ
  deriving DecidableEq, Repr

structure TrackState where
  nextSequence : Option ℕ
  initReady : Bool
  /-- The segments that were pushed, the last one first; no step reads them. -/
  pushed : List Push
  deriving DecidableEq, Repr

namespace TrackState

def new : TrackState := ⟨none, false, []⟩

/-- `Import::ensure_init_segment`. -/
def ensureInitSegment (track : TrackState) (playlist : MediaPlaylist) : Except Error TrackState :=
  if track.initReady then .ok track
  else
    match playlist.segments.findSome? MediaSegment.map with
    | none => .error .missingMap
    | some (.error e) => .error e
    | some (.ok ()) => .ok { track with initReady := true }

/-- `Import::push_segment`. -/
def pushSegment (track : TrackState) (start : ℕ) (segment : MediaSegment) (sequence : ℕ) :
    Except Error TrackState :=
  if segment.uri = [] then .error .emptySegmentUri
  else
    match segment.result with
    | .error e => .error e
    | .ok () => .ok { track with
        nextSequence := some (addU64 sequence 1)
        pushed := ⟨start, sequence⟩ :: track.pushed }

/-- The loop of `Import::consume_segments`. -/
def pushAll (start : ℕ) : TrackState → ℕ → List MediaSegment → TrackState × Except Error Unit
  | track, _, [] => (track, .ok ())
  | track, sequence, segment :: segments =>
    match track.pushSegment start segment sequence with
    | .ok track => pushAll start track (addU64 sequence 1) segments
    | .error e => (track, .error e)

/-- The number of segments to skip; out of the window the track is anchored anew. -/
def skip (track : TrackState) (playlist : MediaPlaylist) : TrackState × ℕ :=
  let nextSeq := track.nextSequence.getD 0
  let lastPlaylistSeq := addU64 playlist.mediaSequence playlist.segments.length
  if nextSeq > lastPlaylistSeq then ({ track with nextSequence := none }, 0)
  else if nextSeq < playlist.mediaSequence then ({ track with nextSequence := none }, 0)
  else (track, nextSeq - playlist.mediaSequence)

/-- `Import::consume_segments`. -/
def consumeSegments (track : TrackState) (playlist : MediaPlaylist) (limit : Option ℕ) :
    TrackState × Except Error ℕ :=
  match track.ensureInitSegment playlist with
  | .error e => (track, .error e)
  | .ok track =>
    let anchored := track.skip playlist
    let available := playlist.segments.length - anchored.2
    let toProcess := limit.elim available (min available)
    let result := anchored.1.pushAll playlist.mediaSequence
      (addU64 playlist.mediaSequence anchored.2)
      ((playlist.segments.drop anchored.2).take toProcess)
    (result.1, result.2.map fun () => toProcess)

/-- `Import::ingest`, and what `Import::prime` does with a limit: fetch the playlist and consume
its segments. -/
def ingest (track : TrackState) (playlist : Except Error MediaPlaylist) (limit : Option ℕ) :
    TrackState × Except Error ℕ :=
  match playlist with
  | .error e => (track, .error e)
  | .ok playlist => track.consumeSegments playlist limit

end TrackState

/-- `Import`, as far as one rendition needs it. -/
structure Import where
  video : Option TrackState
  /-- The segments that were pushed by any track. -/
  pushed : List Push
  deriving DecidableEq, Repr

/-- A refresh: what comes of looking for the tracks, and of fetching the media playlist. -/
structure Refresh where
  /-- Whether `init` is called, or else the loop of `run` takes a step. -/
  initial : Bool
  tracks : Except Error Unit
  playlist : Except Error MediaPlaylist

namespace Import

/-- `Import::new`. -/
def new : Import := ⟨none, []⟩

/-- `MAX_INIT_SEGMENTS`. -/
def maxInitSegments : ℕ := 3

/-- `Import::ensure_tracks`. -/
def ensureTracks (s : Import) (tracks : Except Error Unit) : Except Error TrackState :=
  match s.video with
  | some track => .ok track
  | none => tracks.map fun () => { TrackState.new with pushed := s.pushed }

/-- `Import::prime`. -/
def prime (s : Import) (r : Refresh) : Import × Except Error ℕ :=
  match s.ensureTracks r.tracks with
  | .error e => (s, .error e)
  | .ok track =>
    match track.ingest r.playlist (some maxInitSegments) with
    | (track, .ok count) => (⟨some track, track.pushed⟩, .ok count)
    -- the track was moved out of the import
    | (track, .error e) => (⟨none, track.pushed⟩, .error e)

/-- `Import::step`. -/
def step (s : Import) (r : Refresh) : Import × Except Error ℕ :=
  match s.ensureTracks r.tracks with
  | .error e => (s, .error e)
  | .ok track =>
    let result := track.ingest r.playlist none
    -- an error is logged, and the track is put back
    (⟨some result.1, result.1.pushed⟩, .ok (result.2.toOption.getD 0))

/-- The import after a refresh. -/
def refresh (s : Import) (r : Refresh) : Import :=
  if r.initial then (s.prime r).1 else (s.step r).1

/-- The import after some refreshes. -/
def run (s : Import) (refreshes : List Refresh) : Import :=
  refreshes.foldl refresh s

/-- What a refresh needs: the import still has its track if anything was pushed, and the numbers of
the playlist do not wrap. -/
structure Safe (s : Import) (r : Refresh) : Prop where
  kept : s.video = none → s.pushed = []
  bound : ∀ playlist, r.playlist = .ok playlist → playlist.last < 2 ^ 64

/-- All refreshes get what they need. -/
def Safely : Import → List Refresh → Prop
  | _, [] => True
  | s, r :: refreshes => s.Safe r ∧ Safely (s.refresh r) refreshes

end Import

namespace TrackState

/-! ### What was pushed -/

/-- The numbers ascend, and a number that was left out lay before the window. -/
structure Accounted (pushed : List Push) : Prop where
  ascending : pushed.Pairwise (·.sequence > ·.sequence)
  left : ∀ {p before}, p :: before <:+ pushed →
    ∀ n < p.sequence, n ∉ before.map (·.sequence) → n < p.start

/-- All numbers of the window before the next one were pushed, and no others from there on. -/
structure Placed (lo hi : ℕ) (t : TrackState) : Prop where
  accounted : Accounted t.pushed
  before : ∀ p ∈ t.pushed, p.sequence < t.nextSequence.getD lo
  complete : ∀ n, lo ≤ n → n < t.nextSequence.getD lo → n ∈ t.pushed.map (·.sequence)
  bound : t.nextSequence.getD lo ≤ hi

variable {lo hi lo' hi' : ℕ} {t : TrackState} {playlist : MediaPlaylist}

/-- The window moves forward. -/
theorem Placed.forward (h : Placed lo hi t) (hlo : lo ≤ lo') (hhi : hi ≤ hi') (hle : lo' ≤ hi') :
    Placed lo' hi' t := by
  obtain ⟨next, _, _⟩ := t
  cases next with
  | none =>
    exact ⟨h.accounted, fun p hp => Nat.lt_of_lt_of_le (h.before p hp) hlo,
      fun n hge hlt => absurd hlt (Nat.not_lt.mpr hge), hle⟩
  | some next =>
    exact ⟨h.accounted, h.before, fun n hge => h.complete n (Nat.le_trans hlo hge),
      Nat.le_trans h.bound hhi⟩

/-- Sums that do not wrap. -/
theorem addU64_of_lt {m n : ℕ} (h : m + n < 2 ^ 64) : addU64 m n = m + n := Nat.mod_eq_of_lt h

/-- The segment with the next number is pushed. -/
theorem Placed.push (h : Placed lo hi t) (hlt : t.nextSequence.getD lo < hi) :
    Placed lo hi { t with
      nextSequence := some (t.nextSequence.getD lo + 1)
      pushed := ⟨lo, t.nextSequence.getD lo⟩ :: t.pushed } where
  accounted := by
    refine ⟨pairwise_cons.mpr ⟨h.before, h.accounted.ascending⟩, fun hsuffix n hn hnot => ?_⟩
    rcases suffix_cons_iff.mp hsuffix with heq | hsuffix
    · cases heq
      by_contra hge
      exact hnot (h.complete n (Nat.le_of_not_lt hge) hn)
    · exact h.accounted.left hsuffix n hn hnot
  before := forall_mem_cons.mpr
    ⟨Nat.lt_succ_self _, fun p hp => Nat.lt_succ_of_lt (h.before p hp)⟩
  complete n hge hn := by
    rcases Nat.lt_succ_iff_lt_or_eq.mp hn with hlt | rfl
    · exact mem_cons_of_mem _ (h.complete n hge hlt)
    · exact mem_cons_self
  bound := hlt

/-- By induction on the segments: the next one has the next number. -/
theorem Placed.pushAll (h : Placed lo hi t) {segments : List MediaSegment}
    (hlen : t.nextSequence.getD lo + segments.length ≤ hi) (hhi : hi < 2 ^ 64) :
    Placed lo hi (t.pushAll lo (t.nextSequence.getD lo) segments).1 := by
  induction segments generalizing t with
  | nil => exact h
  | cons segment segments ih =>
    rw [length_cons] at hlen
    rw [TrackState.pushAll, pushSegment, addU64_of_lt (by omega)]
    split_ifs
    · exact h
    · cases segment.result with
      | error e => exact h
      | ok _ => exact ih (h.push (by omega)) (by dsimp only [Option.getD_some]; omega)

/-- The segments to skip are those with numbers before the next one. -/
theorem Placed.skip (h : Placed playlist.mediaSequence playlist.last t)
    (hbound : playlist.last < 2 ^ 64) :
    Placed playlist.mediaSequence playlist.last (t.skip playlist).1 ∧
      playlist.mediaSequence + (t.skip playlist).2 =
        (t.skip playlist).1.nextSequence.getD playlist.mediaSequence := by
  obtain ⟨next, _, _⟩ := t
  have hlast : addU64 playlist.mediaSequence playlist.segments.length = playlist.last :=
    addU64_of_lt hbound
  rw [TrackState.skip, hlast]
  cases next with
  | none =>
    dsimp only [Option.getD_none]
    rw [Nat.zero_sub]
    split_ifs <;> exact ⟨h, rfl⟩
  | some next =>
    have hbound := h.bound
    dsimp only [Option.getD_some] at *
    split_ifs with hahead hbehind
    · omega
    · exact ⟨⟨h.accounted, fun p hp => Nat.lt_trans (h.before p hp) hbehind,
        fun n hge hlt => absurd hlt (Nat.not_lt.mpr hge), Nat.le_add_right _ _⟩, rfl⟩
    · exact ⟨h, Nat.add_sub_of_le (Nat.le_of_not_lt hbehind)⟩

/-- A playlist is consumed. -/
theorem Placed.consumeSegments (limit : Option ℕ)
    (h : Placed playlist.mediaSequence playlist.last t) (hlast : playlist.last < 2 ^ 64) :
    Placed playlist.mediaSequence playlist.last
      (t.consumeSegments playlist limit).1 := by
  have hinit : ∀ t', t.ensureInitSegment playlist = .ok t' →
      Placed playlist.mediaSequence playlist.last t' := by
    intro t' heq
    rw [ensureInitSegment] at heq
    split_ifs at heq
    · exact Except.ok.inj heq ▸ h
    · split at heq
      · cases heq
      · cases heq
      · cases heq
        exact ⟨h.accounted, h.before, h.complete, h.bound⟩
  rw [TrackState.consumeSegments]
  cases heq : t.ensureInitSegment playlist with
  | error e => exact h
  | ok t' =>
    obtain ⟨hplaced, hnext⟩ := (hinit t' heq).skip hlast
    have hbound := hplaced.bound
    dsimp only
    rw [addU64_of_lt (by omega), hnext]
    refine hplaced.pushAll ?_ hlast
    rw [length_take, length_drop]
    rw [MediaPlaylist.last] at *
    omega

end TrackState

namespace Import

open TrackState

variable {lo hi lo' hi' : ℕ} {s : Import} {r : Refresh}

/-- The track has its place in the window, and the segments that were pushed are accounted for. -/
structure Placed (lo hi : ℕ) (s : Import) : Prop where
  accounted : Accounted s.pushed
  video : ∀ t, s.video = some t → TrackState.Placed lo hi t ∧ t.pushed = s.pushed

/-- A refresh goes on with the track, or with a new one if nothing was pushed yet. -/
theorem Placed.ensureTracks (h : Placed lo hi s) (hsafe : s.Safe r) (hle : lo ≤ hi) {t : TrackState}
    (ht : s.ensureTracks r.tracks = .ok t) : TrackState.Placed lo hi t := by
  rw [Import.ensureTracks] at ht
  cases hvideo : s.video with
  | some track =>
    rw [hvideo] at ht
    exact Except.ok.inj ht ▸ (h.video track hvideo).1
  | none =>
    rw [hvideo, hsafe.kept hvideo] at ht
    cases htracks : r.tracks with
    | error e =>
      rw [htracks] at ht
      cases ht
    | ok _ =>
      rw [htracks] at ht
      obtain rfl := Except.ok.inj ht
      exact ⟨hsafe.kept hvideo ▸ h.accounted, nofun,
        fun n hge hlt => absurd hlt (Nat.not_lt.mpr hge), hle⟩

/-- Whatever becomes of the track, the import accounts for what it has pushed. -/
theorem Placed.refresh_of_ingest (h : Placed lo hi s)
    (hingest : ∀ t limit, s.ensureTracks r.tracks = .ok t →
      TrackState.Placed lo hi (t.ingest r.playlist limit).1) :
    Placed lo hi (s.refresh r) := by
  have hkeep {t : TrackState} (ht : TrackState.Placed lo hi t) : Placed lo hi ⟨some t, t.pushed⟩ :=
    ⟨ht.accounted, fun t' heq => Option.some.inj heq ▸ ⟨ht, rfl⟩⟩
  rw [refresh, prime, step]
  cases htracks : s.ensureTracks r.tracks with
  | error e =>
    split_ifs <;> exact h
  | ok t =>
    split_ifs
    · have ht := hingest t (some maxInitSegments) htracks
      dsimp only
      generalize t.ingest r.playlist (some maxInitSegments) = result at ht ⊢
      obtain ⟨t', e | count⟩ := result
      · exact ⟨ht.accounted, nofun⟩
      · exact hkeep ht
    · exact hkeep (hingest t none htracks)

/-- The window of a playlist only moves forward from one to the next. -/
def Forward (refreshes : List Refresh) : Prop :=
  (refreshes.filterMap (·.playlist.toOption)).Pairwise fun p q =>
    p.mediaSequence ≤ q.mediaSequence ∧ p.last ≤ q.last

/-- By induction on the refreshes, for the window of the last one. -/
theorem Placed.run (h : Placed lo hi s) (hle : lo ≤ hi) {refreshes : List Refresh}
    (hforward : Forward refreshes) (hsafe : Safely s refreshes)
    (hfrom : ∀ p ∈ refreshes.filterMap (·.playlist.toOption), lo ≤ p.mediaSequence ∧ hi ≤ p.last) :
    Accounted (s.run refreshes).pushed := by
  induction refreshes generalizing lo hi s with
  | nil => exact h.accounted
  | cons r refreshes ih =>
    obtain ⟨hsafe, hlater⟩ := hsafe
    rw [Forward] at hforward
    cases hplaylist : r.playlist with
    | error e =>
      rw [filterMap_cons_none (by rw [hplaylist]; rfl)] at hforward hfrom
      refine ih (h.refresh_of_ingest fun t limit ht => ?_) hle hforward hlater hfrom
      rw [hplaylist]
      exact h.ensureTracks hsafe hle ht
    | ok playlist =>
      rw [filterMap_cons_some (by rw [hplaylist]; rfl)] at hforward hfrom
      obtain ⟨hnext, hforward⟩ := pairwise_cons.mp hforward
      obtain ⟨hlo, hhi⟩ := hfrom playlist mem_cons_self
      have hwindow : Placed playlist.mediaSequence playlist.last s :=
        ⟨h.accounted, fun t ht => ⟨(h.video t ht).1.forward hlo hhi (Nat.le_add_right _ _),
          (h.video t ht).2⟩⟩
      refine ih (hwindow.refresh_of_ingest fun t limit ht => ?_) (Nat.le_add_right _ _) hforward
        hlater hnext
      rw [hplaylist]
      exact (hwindow.ensureTracks hsafe (Nat.le_add_right _ _) ht).consumeSegments limit
        (hsafe.bound playlist hplaylist)

/-- **Each segment is imported at most once.** Let the window of a rendition only move forward, and
let no refresh follow the loss of a track that has pushed something. Then, whatever else fails, the
segments are pushed in ascending order, and when one is pushed, those before it that were not lie
before the window. -/
theorem imported_at_most_once (refreshes : List Refresh) (hforward : Forward refreshes)
    (hsafe : Safely new refreshes) :
    (new.run refreshes).pushed.Pairwise (·.sequence > ·.sequence) ∧
      ∀ p before, p :: before <:+ (new.run refreshes).pushed →
        ∀ n < p.sequence, n ∉ before.map (·.sequence) → n < p.start := by
  have hnew : Placed 0 0 new :=
    ⟨⟨List.Pairwise.nil, fun h => nomatch eq_nil_of_suffix_nil h⟩, nofun⟩
  obtain ⟨hascending, hleft⟩ := hnew.run (Nat.le_refl 0) hforward hsafe
    fun p _ => ⟨Nat.zero_le _, Nat.zero_le _⟩
  exact ⟨hascending, fun p before => hleft⟩

/-- A segment that is imported. -/
def good : MediaSegment := ⟨['a'], some (.ok ()), .ok ()⟩

/-- A segment that cannot be fetched. -/
def lost : MediaSegment := ⟨['b'], none, .error .reqwest⟩

/-- A playlist is fetched, by `init` or by a step. -/
def fetched (initial : Bool) (mediaSequence : ℕ) (segments : List MediaSegment) : Refresh :=
  ⟨initial, .ok (), .ok ⟨mediaSequence, segments⟩⟩

/-- `init` pushes a segment. The second of the next ones fails, and has left the window when the
playlist is fetched again. -/
theorem imported_at_most_once_gap :
    let refreshes := [fetched true 3 [good], fetched false 3 [good, good, lost, good],
      fetched false 6 [good, good]]
    (new.run refreshes).pushed = [⟨6, 7⟩, ⟨6, 6⟩, ⟨3, 4⟩, ⟨3, 3⟩] ∧
      (new.run refreshes).pushed.Pairwise (·.sequence > ·.sequence) := by
  intro refreshes
  have hforward : Forward refreshes := by
    unfold Forward
    decide
  have hfits (initial : Bool) (n : ℕ) (segments : List MediaSegment)
      (h : n + segments.length < 2 ^ 64) (playlist : MediaPlaylist)
      (heq : (fetched initial n segments).playlist = .ok playlist) : playlist.last < 2 ^ 64 :=
    Except.ok.inj heq ▸ h
  have hsafe : Safely new refreshes :=
    ⟨⟨fun _ => rfl, hfits _ _ _ (by decide)⟩, ⟨by decide, hfits _ _ _ (by decide)⟩,
      ⟨by decide, hfits _ _ _ (by decide)⟩, trivial⟩
  exact ⟨by decide, (imported_at_most_once refreshes hforward hsafe).1⟩

/-- `init` fails at the second segment and is called again. The first one is pushed twice. -/
theorem failed_init_repeats :
    Forward [fetched true 4 [good, lost], fetched true 4 [good, good]] ∧
      (new.run [fetched true 4 [good, lost], fetched true 4 [good, good]]).pushed =
        [⟨4, 5⟩, ⟨4, 4⟩, ⟨4, 4⟩] := by
  unfold Forward
  decide

end Import

end Hls

end HermitMoq
