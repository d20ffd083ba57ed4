import HermitMoq.RankedCollections
import HermitMoq.Runs
import Mathlib.Algebra.Group.Nat.Defs
import Mathlib.Data.Prod.Lex

/-!
# The Priority Queue of Streams

The model of `moq-net/src/lite/priority.rs`. The first 255 items are kept in a sorted vector,
the others in a heap, and a map tells for each item where it is and what its handle reports: the
index in the vector, or 255. Every `expect`, `unwrap` and index of the code that could fail
is a `Panic` of the model.

The vector is searched and the heap implemented by the standard library. Which position a search
returns among equal priorities, and which of several first items a heap gives out, is left to an
arbitrary implementation, `Collections`. Ids are numbers that are never used twice.
-/

namespace HermitMoq

/-- `Priority`. -/
structure Priority where
  track : UInt8
  group : ℕ
  deriving DecidableEq, Repr

/-- The order of priorities: the highest track comes first, then the highest group. -/
def Priority.rank (p : Priority) : (ℕ ×ₗ ℕ)ᵒᵈ := OrderDual.toDual (toLex (p.track.toNat, p.group))

/-- `PriorityItem`; also what a handle knows of itself. -/
structure PriorityItem where
  id : ℕ
  priority : Priority
  deriving DecidableEq, Repr

/-- Items are compared by their priority only. -/
def PriorityItem.rank (item : PriorityItem) : (ℕ ×ₗ ℕ)ᵒᵈ := item.priority.rank

/-- `slice::binary_search` and `BinaryHeap`, on items. -/
structure Collections where
  search : Search PriorityItem.rank
  heap : MinHeap PriorityItem.rank

/-- The panics of the code. -/
inductive PriorityPanic
  /-- `expect("item not in indexes")` in `update_location` and `extract`. -/
  | itemNotInIndexes
  /-- `Vec::insert` or `Vec::remove` out of bounds. -/
  | indexOutOfBounds
  /-- `last().unwrap()` and `pop().unwrap()` of the vector in `place`. -/
  | emptyVec
  /-- `pop().unwrap()` of the heap in `place`. -/
  | emptyOverflow
  /-- `expect("item not found in overflow heap")` in `extract`. -/
  | itemNotInOverflow
  deriving DecidableEq, Repr

/-- `MAX_VEC_SIZE`. -/
def maxVecSize : ℕ := 255

/-- Where an item is. -/
inductive Place
  | vec (idx : ℕ)
  | overflow
  deriving DecidableEq, Repr

/-- What is reported for an item in some place. -/
def Place.report : Place → UInt8
  | vec idx => if idx < 2 ^ 8 then .ofNat idx else 255
  | overflow => 255

/-- The location of an item and the value in its watch channel. -/
structure PriorityEntry where
  location : Place
  value : UInt8
  deriving DecidableEq, Repr

/-- The entry of an item in its place. -/
def Place.entry (p : Place) : PriorityEntry := ⟨p, p.report⟩

/-- The map from ids to entries. -/
abbrev Indexes := ℕ → Option PriorityEntry

/-- `PriorityState`. -/
structure PriorityState (c : Collections) where
  vec : List PriorityItem
  overflow : c.heap.Carrier
  indexes : Indexes
  nextId : ℕ

namespace PriorityState

variable {c : Collections}

/-- `PriorityState::default`. -/
def new (c : Collections) : PriorityState c := ⟨[], c.heap.empty, fun _ => none, 0⟩

/-- `PriorityState::update_location`. -/
def updateLocation (indexes : Indexes) (id : ℕ) (location : Place) :
    Except PriorityPanic Indexes :=
  match indexes id with
  | none => .error .itemNotInIndexes
  | some _ => .ok (Function.update indexes id (some location.entry))

/-- Update the locations of items that stand one after another from `idx` on. -/
def updateIndices : Indexes → ℕ → List PriorityItem → Except PriorityPanic Indexes
  | indexes, _, [] => .ok indexes
  | indexes, idx, item :: items => do
    let indexes ← updateLocation indexes item.id (.vec idx)
    updateIndices indexes (idx + 1) items

/-- `PriorityState::update_indices_from`. -/
def updateIndicesFrom (s : PriorityState c) (start : ℕ) :
    Except PriorityPanic (PriorityState c) := do
  let indexes ← updateIndices s.indexes start (s.vec.drop start)
  .ok { s with indexes }

/-- The end of each branch of `place` that adds an item to the vector. -/
def insertSorted (s : PriorityState c) (item : PriorityItem) :
    Except PriorityPanic (PriorityState c) := do
  let pos := c.search.pos s.vec item
  if s.vec.length < pos then .error .indexOutOfBounds
  else
    let indexes ← updateLocation s.indexes item.id (.vec pos)
    updateIndicesFrom { s with vec := s.vec.take pos ++ item :: s.vec.drop pos, indexes } (pos + 1)

/-- `self.overflow.push(Reverse(item))` and `update_location` of the item. -/
def pushOverflow (s : PriorityState c) (item : PriorityItem) :
    Except PriorityPanic (PriorityState c) := do
  let indexes ← updateLocation s.indexes item.id .overflow
  .ok { s with overflow := c.heap.push s.overflow item, indexes }

/-- `PriorityState::place`. -/
def place (s : PriorityState c) (item : PriorityItem) : Except PriorityPanic (PriorityState c) :=
  if s.vec.length < maxVecSize then
    if (c.heap.peek s.overflow).any fun top => top.rank < item.rank then
      match c.heap.pop s.overflow with
      | none => .error .emptyOverflow
      | some (promoted, overflow) => do
        let s ← pushOverflow { s with overflow } item
        insertSorted s promoted
    else insertSorted s item
  else
    match s.vec.getLast? with
    | none => .error .emptyVec
    | some lowest =>
      if lowest.rank < item.rank then pushOverflow s item
      else do
        let s ← pushOverflow { s with vec := s.vec.dropLast } lowest
        insertSorted s item

/-- Take the first item of an id out of a list, and put the others into a heap. -/
def rebuild (id : ℕ) :
    List PriorityItem → Option PriorityItem → c.heap.Carrier → Option PriorityItem × c.heap.Carrier
  | [], found, heap => (found, heap)
  | entry :: entries, found, heap =>
    if entry.id = id ∧ found.isNone then rebuild id entries (some entry) heap
    else rebuild id entries found (c.heap.push heap entry)

/-- `PriorityState::extract`. -/
def extract (s : PriorityState c) (id : ℕ) :
    Except PriorityPanic (PriorityItem × PriorityState c) :=
  match s.indexes id with
  | none => .error .itemNotInIndexes
  | some ⟨.vec idx, _⟩ =>
    match s.vec[idx]? with
    | none => .error .indexOutOfBounds
    | some item => do
      let s ← updateIndicesFrom { s with vec := s.vec.eraseIdx idx } idx
      .ok (item, s)
  | some ⟨.overflow, _⟩ =>
    match rebuild id (c.heap.toList s.overflow) none c.heap.empty with
    | (none, _) => .error .itemNotInOverflow
    | (some item, overflow) => .ok (item, { s with overflow })

/-- `PriorityState::insert`; returns the id of the handle. -/
def insert (s : PriorityState c) (priority : Priority) :
    Except PriorityPanic (ℕ × PriorityState c) := do
  let id := s.nextId
  let s := { s with
    nextId := id + 1, indexes := Function.update s.indexes id (some Place.overflow.entry) }
  let s ← s.place ⟨id, priority⟩
  .ok (id, s)

/-- `PriorityState::set_priority`. -/
def setPriority (s : PriorityState c) (id : ℕ) (priority : Priority) :
    Except PriorityPanic (PriorityState c) := do
  let (item, s) ← s.extract id
  s.place { item with priority }

/-- `matches!(self.indexes.get(&id), Some((Location::Vec(_), _)))`. -/
def isInVec (s : PriorityState c) (id : ℕ) : Bool :=
  match s.indexes id with
  | some ⟨.vec _, _⟩ => true
  | _ => false

/-- Move the first item of the heap, if any, to the end of the vector. -/
def backfill (s : PriorityState c) : Except PriorityPanic (PriorityState c) :=
  match c.heap.pop s.overflow with
  | none => .ok s
  | some (item, overflow) => do
    let vec := s.vec ++ [item]
    let indexes ← updateLocation s.indexes item.id (.vec (vec.length - 1))
    .ok { s with vec, overflow, indexes }

/-- `PriorityState::remove`. -/
def remove (s : PriorityState c) (id : ℕ) : Except PriorityPanic (PriorityState c) := do
  let wasInVec := s.isInVec id
  let (_, s) ← s.extract id
  let s := { s with indexes := Function.update s.indexes id none }
  if wasInVec then s.backfill else .ok s

end PriorityState

/-! ### Handles -/

/-- The queue and its live handles. -/
structure PriorityQueue (c : Collections) where
  state : PriorityState c
  handles : List PriorityItem

/-- What is done with a queue; handles are named by their id. -/
inductive PriorityOp
  /-- `PriorityQueue::insert`. -/
  | insert (priority : Priority)
  /-- `PriorityHandle::set_track`. -/
  | setTrack (id : ℕ) (track : UInt8)
  /-- A handle is dropped. -/
  | drop (id : ℕ)
  deriving DecidableEq, Repr

namespace PriorityQueue

variable {c : Collections}

/-- `PriorityQueue::default`. -/
def new (c : Collections) : PriorityQueue c := ⟨PriorityState.new c, []⟩

/-- `PriorityHandle::current`. -/
def current (q : PriorityQueue c) (id : ℕ) : Option UInt8 := (q.state.indexes id).map (·.value)

/-- One operation; nothing can be done with a handle that is not alive. -/
def step (q : PriorityQueue c) : PriorityOp → Except PriorityPanic (PriorityQueue c)
  | .insert priority => do
    let (id, state) ← q.state.insert priority
    .ok ⟨state, ⟨id, priority⟩ :: q.handles⟩
  | .setTrack id track =>
    match q.handles.find? (·.id = id) with
    | none => .ok q
    | some handle =>
      if handle.priority.track = track then .ok q
      else do
        let priority := { handle.priority with track }
        let state ← q.state.setPriority id priority
        .ok ⟨state, ⟨id, priority⟩ :: q.handles.erase handle⟩
  | .drop id =>
    match q.handles.find? (·.id = id) with
    | none => .ok q
    | some handle => do
      let state ← q.state.remove id
      .ok ⟨state, q.handles.erase handle⟩

end PriorityQueue

end HermitMoq
