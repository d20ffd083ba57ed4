import Mathlib.Data.List.Basic

/-!
# Codecs of Streams

A general library: an encoder turns pieces into slices one after another and carries a state
from each to the next, as compression with a window does, and a decoder follows it. A codec
keeps the order of pieces when a fresh decoder gets them back from the slices of a fresh encoder;
it may refuse some, at the point where it gets to them.
-/

namespace HermitMoq

open List

/-- An encoder and a decoder with a state. -/
structure StreamCodec (α β ε : Type) where
  /-- The state of an encoder. -/
  Encoder : Type
  /-- The state of a decoder. -/
  Decoder : Type
  newEncoder : Encoder
  encode : Encoder → α → β × Encoder
  newDecoder : Decoder
  decode : Decoder → β → Except ε α × Decoder

namespace StreamCodec

variable {α β ε : Type} (c : StreamCodec α β ε)

/-- Encode pieces in order. -/
def encodeAll : c.Encoder → List α → List β × c.Encoder
  | e, [] => ([], e)
  | e, a :: as =>
    let first := c.encode e a
    let rest := encodeAll first.2 as
    (first.1 :: rest.1, rest.2)

/-- Decode slices in order, up to the first failure. -/
def decodeAll : c.Decoder → List β → Except ε (List α) × c.Decoder
  | d, [] => (.ok [], d)
  | d, b :: bs =>
    match c.decode d b with
    | (.error e, d) => (.error e, d)
    | (.ok a, d) => ((decodeAll d bs).1.map (a :: ·), (decodeAll d bs).2)

/-- The slices of a stream. -/
def slices (as : List α) : List β := (c.encodeAll c.newEncoder as).1

/-- What is decoded from the slices of a stream of such pieces is what was encoded. -/
def InOrder (P : α → Prop) : Prop :=
  ∀ as, (∀ a ∈ as, P a) → (c.decodeAll c.newDecoder (c.slices as)).1 = .ok as

/-- The first other piece is refused. -/
def Refuses (P : α → Prop) : Prop :=
  ∀ as a, (∀ a ∈ as, P a) → ¬ P a →
    ∃ e, (c.decodeAll c.newDecoder (c.slices (as ++ [a]))).1 = .error e

variable {c} {P : α → Prop} {as : List α} (e : c.Encoder)

/-- Pieces are encoded after others. -/
theorem encodeAll_append (as bs : List α) :
    c.encodeAll e (as ++ bs) =
      ((c.encodeAll e as).1 ++ (c.encodeAll (c.encodeAll e as).2 bs).1,
        (c.encodeAll (c.encodeAll e as).2 bs).2) := by
  induction as generalizing e with
  | nil => rfl
  | cons a as ih => simp only [cons_append, encodeAll, ih]

/-- One more piece is encoded. -/
theorem encodeAll_concat (as : List α) (a : α) :
    c.encodeAll e (as ++ [a]) =
      ((c.encodeAll e as).1 ++ [(c.encode (c.encodeAll e as).2 a).1],
        (c.encode (c.encodeAll e as).2 a).2) :=
  encodeAll_append e as [a]

/-- There is a slice for each piece. -/
@[simp]
theorem length_slices (as : List α) : (c.slices as).length = as.length := by
  rw [slices]
  generalize c.newEncoder = e
  induction as generalizing e with
  | nil => rfl
  | cons a as ih => simp only [encodeAll, length_cons, ih]

/-- The slices of a stream go on those of its beginning. -/
theorem slices_append (as bs : List α) : ∃ rest, c.slices (as ++ bs) = c.slices as ++ rest :=
  ⟨_, congrArg Prod.fst (encodeAll_append c.newEncoder as bs)⟩

/-- The first slices are those of the first pieces. -/
theorem take_slices (as : List α) (i : ℕ) : (c.slices as).take i = c.slices (as.take i) := by
  obtain ⟨_, hrest⟩ := slices_append (c := c) (as.take i) (as.drop i)
  rw [take_append_drop] at hrest
  rcases Nat.le_total i as.length with hi | hi
  · rw [hrest, take_left' (by simp [hi])]
  · rw [take_of_length_le hi, take_of_length_le (by simpa using hi)]

/-- One more slice is decoded. -/
theorem decodeAll_concat {d : c.Decoder} {bs : List β} (h : (c.decodeAll d bs).1 = .ok as) (b : β) :
    c.decodeAll d (bs ++ [b]) =
      ((c.decode (c.decodeAll d bs).2 b).1.map fun a => as ++ [a],
        (c.decode (c.decodeAll d bs).2 b).2) := by
  induction bs generalizing d as with
  | nil =>
    cases h
    simp only [nil_append, decodeAll]
    split <;> rename_i heq <;> simp [heq, Except.map]
  | cons x bs ih =>
    rw [decodeAll] at h
    rw [cons_append, decodeAll, decodeAll]
    split at h
    · cases h
    · rename_i a d' heq
      cases hrest : (c.decodeAll d' bs).1 with
      | error e =>
        rw [hrest] at h
        cases h
      | ok as' =>
        rw [hrest] at h
        cases h
        simp only [ih hrest]
        cases (c.decode (c.decodeAll d' bs).2 b).1 <;> rfl

/-- The decoder of the first slices gets the next piece from the next slice. -/
theorem InOrder.decode_next (h : c.InOrder P) {i : ℕ} {a : α} {b : β}
    (hP : ∀ a ∈ as.take (i + 1), P a) (ha : as[i]? = some a) (hb : (c.slices as)[i]? = some b) :
    c.decode (c.decodeAll c.newDecoder ((c.slices as).take i)).2 b =
      (.ok a, (c.decodeAll c.newDecoder ((c.slices as).take (i + 1))).2) := by
  have hfirst := h (as.take i) fun a ha => hP a (take_subset_take_left as (Nat.le_succ i) ha)
  have hnext := h (as.take (i + 1)) hP
  rw [← take_slices] at hfirst hnext
  rw [take_add_one, hb] at hnext ⊢
  rw [Option.toList_some, decodeAll_concat hfirst] at hnext ⊢
  rw [take_add_one, ha] at hnext
  cases hdecode : c.decode (c.decodeAll c.newDecoder ((c.slices as).take i)).2 b with
  | mk r d =>
    rw [hdecode] at hnext
    cases r with
    | error e => cases hnext
    | ok a' =>
      simp only [Except.map, Option.toList_some, Except.ok.injEq,
        append_cancel_left_eq, cons.injEq, and_true] at hnext
      rw [hnext]

/-- The decoder of the first slices refuses the next piece. -/
theorem Refuses.decode_next (h : c.InOrder P) (h' : c.Refuses P) {i : ℕ} {a : α} {b : β}
    (hP : ∀ a ∈ as.take i, P a) (hnot : ¬ P a) (ha : as[i]? = some a)
    (hb : (c.slices as)[i]? = some b) :
    ∃ e d, c.decode (c.decodeAll c.newDecoder ((c.slices as).take i)).2 b = (.error e, d) := by
  have hfirst := h (as.take i) hP
  obtain ⟨e, hnext⟩ := h' (as.take i) a hP hnot
  have htake : as.take i ++ [a] = as.take (i + 1) := by
    rw [take_add_one, ha, Option.toList_some]
  rw [htake, ← take_slices, take_add_one, hb, Option.toList_some] at hnext
  rw [← take_slices] at hfirst
  rw [decodeAll_concat hfirst] at hnext
  cases hdecode : c.decode (c.decodeAll c.newDecoder ((c.slices as).take i)).2 b with
  | mk r d =>
    rw [hdecode] at hnext
    cases r with
    | error e => exact ⟨e, d, rfl⟩
    | ok a' => cases hnext

/-! ### A codec that leaves pieces as they are -/

/-- Slices are the pieces themselves. -/
def plain (α ε : Type) : StreamCodec α α ε where
  Encoder := Unit
  Decoder := Unit
  newEncoder := ()
  encode _ a := (a, ())
  newDecoder := ()
  decode _ a := (.ok a, ())

/-- It keeps the order of any pieces. -/
theorem inOrder_plain (P : α → Prop) : (plain α ε).InOrder P := by
  intro as hP
  induction as with
  | nil => rfl
  | cons a as ih =>
    exact congrArg (Except.map (a :: ·)) (ih fun x hx => hP x (mem_cons_of_mem a hx))

end StreamCodec

end HermitMoq
