import HermitMoq.BigEndian
import HermitMoq.Parser
import HermitMoq.Runs

/-!
# Output as Lists of Puts

What is written to a buffer is a list of puts, each an integer of a fixed width or a slice. The
same list can be given to a buffer that keeps the bytes and to one that only counts them.
An output is such a list or an error. `Transfers w p a` says that the output succeeds and the
parser reads what is written as the value `a`, whatever follows, so that a round trip is put
together field by field.
-/

namespace HermitMoq

open List

open BigEndian

/-- A call of the buffer that is written to. -/
inductive Put
  /-- An integer in as many bytes. -/
  | uint (width x : ℕ)
  | slice (bytes : List UInt8)
  deriving DecidableEq, Repr

namespace Put

/-- The bytes that are written. -/
def bytes : Put → List UInt8
  | uint width x => toBytes width x
  | slice bytes => bytes

/-- The number of bytes that are counted. -/
def size : Put → ℕ
  | uint width _ => width
  | slice bytes => bytes.length

/-- The bytes written by all calls. -/
def written (puts : List Put) : List UInt8 := puts.flatMap bytes

/-- The number of bytes counted over all calls. -/
def counted (puts : List Put) : ℕ := (puts.map size).sum

@[simp] theorem written_nil : written [] = [] := rfl

@[simp] theorem written_append (a b : List Put) : written (a ++ b) = written a ++ written b :=
  flatMap_append

@[simp] theorem written_cons (put : Put) (puts : List Put) :
    written (put :: puts) = put.bytes ++ written puts := rfl

/-- Counting agrees with writing. -/
theorem counted_eq (puts : List Put) : counted puts = (written puts).length := by
  induction puts with
  | nil => rfl
  | cons put puts ih =>
    rw [written_cons, length_append, ← ih]
    cases put with
    | uint width x => rw [bytes, length_toBytes]; rfl
    | slice bytes => rfl

end Put

/-- What is to be written, unless it cannot be. -/
abbrev Output (ε : Type) := Except ε (List Put)

namespace Output

variable {ε : Type}

/-- One output after another, up to the first that fails. -/
def seq : List (Output ε) → Except ε (List Put)
  | [] => .ok []
  | w :: ws => do
    let first ← w
    let others ← seq ws
    .ok (first ++ others)

/-- A frame: a first pass counts the bytes of the body, and a second writes them. -/
def framed (size : ℕ → Output ε) (body : Output ε) : Except ε (List Put) := do
  let puts ← body
  let head ← size (Put.counted puts)
  .ok (head ++ puts)

end Output

variable {ε α β : Type} {short : ε} {puts : List Put} {w : Output ε}

namespace Parser

/-- The parser reads these bytes as this value, whatever follows. -/
def Reads (p : Parser short α) (bytes : List UInt8) (a : α) : Prop :=
  ∀ rest, p.run (bytes ++ rest) = .ok (a, rest)

variable {bytes : List UInt8} {p : Parser short α} {a : α} {f : α → Parser short β}
  {buf rest : List UInt8} {bytes' : List UInt8} {b : β}

theorem Reads.run (h : p.Reads bytes a) : p.run bytes = .ok (a, []) := by
  have := h []
  rwa [append_nil] at this

/-- What a parser that goes on with another has read. -/
theorem run_bind_eq_ok :
    (p >>= f).run buf = .ok (b, rest) ↔
      ∃ a buf', p.run buf = .ok (a, buf') ∧ (f a).run buf' = .ok (b, rest) := by
  rw [show p >>= f = Parser.bind p f from rfl, run_bind]
  cases p.run buf with
  | error e => simp
  | ok r => exact ⟨fun h => ⟨r.1, r.2, rfl, h⟩, by rintro ⟨_, _, ⟨⟩, h⟩; exact h⟩

theorem run_map_eq_ok {g : α → β} :
    (g <$> p).run buf = .ok (b, rest) ↔ ∃ a, p.run buf = .ok (a, rest) ∧ g a = b := by
  refine (run_bind_eq_ok (f := fun a => Pure.pure (g a))).trans ⟨?_, ?_⟩
  · rintro ⟨a, _, hp, ⟨⟩⟩
    exact ⟨a, hp, rfl⟩
  · rintro ⟨a, hp, rfl⟩
    exact ⟨a, rest, hp, rfl⟩

theorem reads_pure (a : α) : (Pure.pure a : Parser short α).Reads [] a := fun _ => rfl

theorem Reads.bind (hp : p.Reads bytes a)
    (hf : (f a).Reads bytes' b) : (p >>= f).Reads (bytes ++ bytes') b := by
  intro rest
  rw [show p >>= f = Parser.bind p f from rfl, run_bind, append_assoc, hp]
  exact hf rest

theorem reads_read {n : ℕ} {next : List UInt8 → Parser short α}
    (hlen : bytes.length = n) (hnext : (next bytes).Reads bytes' a) :
    (read n next).Reads (bytes ++ bytes') a := by
  intro rest
  have hlong : ¬ (bytes ++ bytes' ++ rest).length < n := by
    rw [length_append, length_append]
    omega
  rw [Parser.run, if_neg hlong, append_assoc, take_left' hlen, drop_left' hlen]
  exact hnext rest

/-- Bytes are read as their value. -/
theorem reads_read_pure {n : ℕ} (value : List UInt8 → α) (hlen : bytes.length = n) :
    (read n fun bytes => pure (value bytes) : Parser short α).Reads bytes (value bytes) := by
  have hnext : (pure (value bytes) : Parser short α).Reads [] (value bytes) := fun _ => rfl
  have hread : (read n fun bytes => pure (value bytes) : Parser short α).Reads (bytes ++ [])
      (value bytes) := reads_read hlen hnext
  rwa [append_nil] at hread

/-- A part of what is read is too short. -/
theorem Reads.run_part (hblind : p.Blind) {part extra : List UInt8} (h : p.Reads bytes a)
    (heq : part ++ extra = bytes) (hextra : extra ≠ []) : p.run part = .error short := by
  rw [run_eq_short_iff]
  intro hfits
  have hrun := run_append hblind hfits extra
  rw [heq, h.run] at hrun
  cases hpart : p.run part with
  | error e =>
    rw [hpart] at hrun
    cases hrun
  | ok r =>
    rw [hpart] at hrun
    have hnil := congrArg Prod.snd (Except.ok.inj hrun)
    exact hextra (append_eq_nil_iff.mp hnil.symm).2

/-- A frame is read back if its size and its body are. -/
theorem reads_framed {size : Parser short ℕ} {body : Parser short α} {long : ε}
    {hlong : long ≠ short} {head : List UInt8} (hsize : size.Reads head bytes.length)
    (hbody : body.Reads bytes a) : (framed size body long hlong).Reads (head ++ bytes) a := by
  have hnext : Reads (within bytes body fun v left =>
      if 0 < left then fail long hlong else pure v) [] a := by
    intro rest
    rw [Parser.run, hbody.run]
    rfl
  have hread : Reads (read bytes.length fun bytes => within bytes body fun v left =>
      if 0 < left then fail long hlong else pure v) (bytes ++ []) a := reads_read rfl hnext
  rw [append_nil] at hread
  exact hsize.bind hread

end Parser

/-- The output succeeds, and the parser reads what is written as the value. -/
def Transfers (w : Output ε) {ε' : Type} {short : ε'} (p : Parser short α) (a : α) : Prop :=
  ∃ puts, w = .ok puts ∧ p.Reads (Put.written puts) a

namespace Transfers

variable {ε' : Type} {short' : ε'} {ws : List (Output ε)} {p : Parser short' α}
  {f : α → Parser short' β} {a : α} {b : β}

/-- Nothing more is written or read. -/
theorem nil (a : α) : Transfers (Output.seq ([] : List (Output ε))) (pure a : Parser short' α) a :=
  ⟨[], rfl, Parser.reads_pure a⟩

section

variable (hw : Transfers w p a)

include hw

/-- A field, and then the others. -/
theorem cons (hws : Transfers (Output.seq ws) (f a) b) :
    Transfers (Output.seq (w :: ws)) (p >>= f) b := by
  obtain ⟨first, rfl, hfirst⟩ := hw
  obtain ⟨others, hothers, hrest⟩ := hws
  refine ⟨first ++ others, ?_, ?_⟩
  · rw [Output.seq, hothers]
    rfl
  · rw [Put.written_append]
    exact hfirst.bind hrest

/-- A single field. -/
theorem single : Transfers (Output.seq [w]) p a := by
  obtain ⟨puts, rfl, _⟩ := hw
  exact ⟨puts ++ [], rfl, by rwa [append_nil]⟩

/-- The value is changed after it is read. -/
theorem map (g : α → β) : Transfers w (g <$> p) (g a) := by
  obtain ⟨puts, rfl, hreads⟩ := hw
  refine ⟨puts, rfl, ?_⟩
  have := hreads.bind (f := fun x => Pure.pure (g x)) (Parser.reads_pure (g a))
  rwa [append_nil] at this

/-- A value that is read and not used. -/
theorem then_pure (hf : f a = pure b) : Transfers w (p >>= f) b := by
  obtain ⟨puts, rfl, hreads⟩ := hw
  refine ⟨puts, rfl, ?_⟩
  have := hreads.bind (f := f) (by rw [hf]; exact Parser.reads_pure b)
  rwa [append_nil] at this

end

/-- A frame, if its size is counted: the size is that of the body, and both are read. -/
theorem framed {size : Parser short' ℕ} {sizeOutput : ℕ → Output ε} {long : ε'}
    {hlong : long ≠ short'} (hw : w = .ok puts)
    (hp : p.Reads (Put.written puts) a)
    (hsize : Transfers (sizeOutput (Put.written puts).length) size (Put.written puts).length) :
    ∃ head, sizeOutput (Put.written puts).length = .ok head ∧
      Output.framed sizeOutput w = .ok (head ++ puts) ∧
      (Parser.framed size p long hlong).Reads (Put.written (head ++ puts)) a := by
  obtain ⟨head, hhead, hreads⟩ := hsize
  refine ⟨head, hhead, ?_, ?_⟩
  · rw [Output.framed, hw]
    dsimp only [bind, Except.bind]
    rw [Put.counted_eq, hhead]
  · rw [Put.written_append]
    exact Parser.reads_framed hreads hp

end Transfers

/-- If the output succeeds, the parser reads what is written as the value, with this rest after
it. -/
def Carries (w : Output ε) {ε' : Type} {short : ε'} (p : Parser short α) (a : α)
    (rest : List UInt8) : Prop :=
  ∀ puts, w = .ok puts → p.run (Put.written puts ++ rest) = .ok (a, rest)

theorem Transfers.carries {ε' : Type} {short' : ε'} {p : Parser short' α} {a : α}
    (h : Transfers w p a) (rest : List UInt8) : Carries w p a rest := by
  rintro puts rfl
  obtain ⟨_, hputs, hreads⟩ := h
  cases hputs
  exact hreads rest

namespace Carries

variable {ε' : Type} {short' : ε'} {ws : List (Output ε)} {p : Parser short' α}
  {f : α → Parser short' β} {a : α} {b : β} {rest : List UInt8}

/-- Nothing more is written or read. -/
theorem nil (a : α) (rest : List UInt8) :
    Carries (Output.seq ([] : List (Output ε))) (pure a : Parser short' α) a rest := by
  rintro puts ⟨⟩
  rfl

/-- An output that fails is not read. -/
theorem error (e : ε) (p : Parser short' α) (a : α) (rest : List UInt8) :
    Carries (.error e : Output ε) p a rest := by
  rintro puts ⟨⟩

/-- A field, and then the others. -/
theorem cons (hw : ∀ rest, Carries w p a rest) (hws : Carries (Output.seq ws) (f a) b rest) :
    Carries (Output.seq (w :: ws)) (p >>= f) b rest := by
  intro puts hputs
  obtain ⟨first, hfirst, h⟩ := bind_eq_ok.mp hputs
  obtain ⟨others, hothers, h⟩ := bind_eq_ok.mp h
  cases h
  rw [show p >>= f = Parser.bind p f from rfl, Parser.run_bind, Put.written_append,
    append_assoc, hw _ first hfirst]
  exact hws others hothers

/-- A single field. -/
theorem single (hw : Carries w p a rest) : Carries (Output.seq [w]) p a rest := by
  intro puts hputs
  obtain ⟨first, hfirst, h⟩ := bind_eq_ok.mp hputs
  cases h
  rw [append_nil]
  exact hw first hfirst

/-- A value that nothing more is read after. -/
theorem then_pure (hw : Carries w p a rest) (hf : f a = pure b) : Carries w (p >>= f) b rest := by
  intro puts hputs
  rw [show p >>= f = Parser.bind p f from rfl, Parser.run_bind, hw puts hputs]
  exact congrArg (Parser.run · rest) hf

end Carries

/-- The output does not fail. -/
def Output.Succeeds (w : Output ε) : Prop := ∃ puts, w = .ok puts

theorem Output.succeeds_ok (puts : List Put) : Succeeds (.ok puts : Output ε) :=
  ⟨puts, rfl⟩

namespace Output

variable {ws : List (Output ε)}

theorem seq_cons_eq_ok : seq (w :: ws) = .ok puts ↔
    ∃ first others, w = .ok first ∧ seq ws = .ok others ∧ first ++ others = puts := by
  constructor
  · intro h
    obtain ⟨first, hfirst, h⟩ := bind_eq_ok.mp h
    obtain ⟨others, hothers, h⟩ := bind_eq_ok.mp h
    exact ⟨first, others, hfirst, hothers, Except.ok.inj h⟩
  · rintro ⟨_, _, rfl, hothers, rfl⟩
    rw [seq, hothers]
    rfl

theorem succeeds_seq : Succeeds (seq ws) ↔ ∀ w ∈ ws, Succeeds w := by
  induction ws with
  | nil => exact iff_of_true (succeeds_ok []) (by simp)
  | cons w ws ih =>
    rw [forall_mem_cons, ← ih]
    constructor
    · rintro ⟨_, h⟩
      obtain ⟨first, others, hfirst, hothers, -⟩ := seq_cons_eq_ok.mp h
      exact ⟨⟨first, hfirst⟩, others, hothers⟩
    · rintro ⟨⟨first, hfirst⟩, others, hothers⟩
      exact ⟨first ++ others, seq_cons_eq_ok.mpr ⟨first, others, hfirst, hothers, rfl⟩⟩

theorem Succeeds.cons (hw : Succeeds w) (hws : Succeeds (seq ws)) : Succeeds (seq (w :: ws)) :=
  succeeds_seq.mpr (forall_mem_cons.mpr ⟨hw, succeeds_seq.mp hws⟩)

end Output

/-- What is written is read back, and something is written if it fits. -/
structure Codes (fit : Prop) (w : Output ε) {ε' : Type} {short : ε'} (p : Parser short α) (a : α)
    (rest : List UInt8) : Prop where
  carries : Carries w p a rest
  succeeds : fit → w.Succeeds

theorem Transfers.codes {fit : Prop} {ε' : Type} {short' : ε'} {p : Parser short' α}
    {a : α} (h : Transfers w p a) (rest : List UInt8) : Codes fit w p a rest := by
  refine ⟨h.carries rest, fun _ => ?_⟩
  obtain ⟨puts, hputs, -⟩ := h
  exact ⟨puts, hputs⟩

namespace Codes

variable {fit : Prop} {ε' : Type} {short' : ε'} {ws : List (Output ε)} {p : Parser short' α}
  {f : α → Parser short' β} {a : α} {b : β} {rest : List UInt8}

/-- An output that succeeds on a condition, and is then read back. -/
theorem of_iff {cond : Prop} (hw : w.Succeeds ↔ cond) (hp : cond → Transfers w p a)
    (hfit : fit → cond) (rest : List UInt8) : Codes fit w p a rest := by
  refine ⟨fun puts hputs => ?_, fun h => hw.mpr (hfit h)⟩
  exact (hp (hw.mp ⟨puts, hputs⟩)).carries rest puts hputs

theorem mono (hw : Codes fit w p a rest) {fit' : Prop} (hfit : fit' → fit) :
    Codes fit' w p a rest := ⟨hw.carries, fun h => hw.succeeds (hfit h)⟩

/-- Nothing more is written or read. -/
theorem nil (a : α) (rest : List UInt8) :
    Codes fit (Output.seq ([] : List (Output ε))) (pure a : Parser short' α) a rest :=
  ⟨.nil a rest, fun _ => Output.succeeds_ok []⟩

/-- An output that fails does not fit. -/
theorem error (hfit : ¬ fit) (e : ε) (p : Parser short' α) (a : α) (rest : List UInt8) :
    Codes fit (.error e : Output ε) p a rest := ⟨.error e p a rest, fun h => absurd h hfit⟩

/-- A field, and then the others. -/
theorem cons (hw : ∀ rest, Codes fit w p a rest) (hws : Codes fit (Output.seq ws) (f a) b rest) :
    Codes fit (Output.seq (w :: ws)) (p >>= f) b rest :=
  ⟨.cons (fun rest => (hw rest).carries) hws.carries,
    fun h => ((hw rest).succeeds h).cons (hws.succeeds h)⟩

section

variable (hw : Codes fit w p a rest)

include hw

/-- A single field. -/
theorem single : Codes fit (Output.seq [w]) p a rest :=
  ⟨hw.carries.single, fun h => (hw.succeeds h).cons (Output.succeeds_ok [])⟩

/-- A value that nothing more is read after. -/
theorem then_pure (hf : f a = pure b) : Codes fit w (p >>= f) b rest :=
  ⟨hw.carries.then_pure hf, hw.succeeds⟩

/-- The last field. -/
theorem last (hf : f a = pure b) :
    Codes fit (Output.seq [w]) (p >>= f) b rest := (hw.then_pure hf).single

/-- The value is changed after it is read. -/
theorem map (g : α → β) : Codes fit w (g <$> p) (g a) rest :=
  hw.then_pure rfl

end

end Codes

end HermitMoq
