import Mathlib.Data.List.Basic

/-!
# Parsers as Programs

A parser is the program of its reads: it returns a value, fails, takes a number of bytes off
the front of the buffer, asks how many are left, or runs a parser on bytes it has taken. So
what a parser asks of a buffer can be told without running it to the end. `short` is the error
of a read that finds too few bytes, and no parser fails with it of its own accord.
-/

namespace HermitMoq

/-- A parser over lists of bytes; `short` is the error of a buffer that ends too early. -/
inductive Parser {ε : Type} (short : ε) : Type → Type 1
  | pure {α : Type} (a : α) : Parser short α
  | fail {α : Type} (e : ε) (h : e ≠ short) : Parser short α
  /-- Take `n` bytes. -/
  | read {α : Type} (n : ℕ) (next : List UInt8 → Parser short α) : Parser short α
  /-- Ask how many bytes are left. -/
  | remaining {α : Type} (next : ℕ → Parser short α) : Parser short α
  /-- Run a parser on other bytes; go on with its value and the number of bytes it leaves. -/
  | within {α β : Type} (bytes : List UInt8) (p : Parser short β)
      (next : β → ℕ → Parser short α) : Parser short α

namespace Parser

variable {ε α β : Type} {short : ε} (p : Parser short α)

/-- One parser after another. -/
def bind {β : Type} : {α : Type} → Parser short α → (α → Parser short β) → Parser short β
  | _, pure a, f => f a
  | _, fail e h, _ => fail e h
  | _, read n next, f => read n fun bytes => (next bytes).bind f
  | _, remaining next, f => remaining fun n => (next n).bind f
  | _, within bytes p next, f => within bytes p fun v n => (next v n).bind f

instance : Monad (Parser short) where
  pure := pure
  bind := bind

/-- Run a parser: its value and what it leaves of the buffer. -/
def run : {α : Type} → Parser short α → List UInt8 → Except ε (α × List UInt8)
  | _, pure a, buf => .ok (a, buf)
  | _, fail e _, _ => .error e
  | _, read n next, buf =>
    if buf.length < n then .error short else (next (buf.take n)).run (buf.drop n)
  | _, remaining next, buf => (next buf.length).run buf
  | _, within bytes p next, buf =>
    match p.run bytes with
    | .error e => .error e
    | .ok (v, rest) => (next v rest.length).run buf

/-- Every read of the parser finds the bytes it asks for. -/
def Fits : {α : Type} → Parser short α → List UInt8 → Prop
  | _, pure _, _ => True
  | _, fail _ _, _ => True
  | _, read n next, buf => n ≤ buf.length ∧ (next (buf.take n)).Fits (buf.drop n)
  | _, remaining next, buf => (next buf.length).Fits buf
  | _, within bytes p next, buf =>
    p.Fits bytes ∧ ∀ r ∈ (p.run bytes).toOption, (next r.1 r.2.length).Fits buf

instance decidableFits : {α : Type} → (p : Parser short α) → (buf : List UInt8) →
    Decidable (p.Fits buf)
  | _, pure _, _ => inferInstanceAs (Decidable True)
  | _, fail _ _, _ => inferInstanceAs (Decidable True)
  | _, read n next, buf =>
    have := decidableFits (next (buf.take n)) (buf.drop n)
    inferInstanceAs (Decidable (n ≤ buf.length ∧ (next (buf.take n)).Fits (buf.drop n)))
  | _, remaining next, buf => decidableFits (next buf.length) buf
  | _, within bytes p next, buf =>
    have := decidableFits p bytes
    have : DecidablePred fun r : _ × List UInt8 => (next r.1 r.2.length).Fits buf := fun r =>
      decidableFits (next r.1 r.2.length) buf
    inferInstanceAs (Decidable (p.Fits bytes ∧
      ∀ r ∈ (p.run bytes).toOption, (next r.1 r.2.length).Fits buf))

/-- The parser never asks how many bytes are left. -/
def Blind : {α : Type} → Parser short α → Prop
  | _, pure _ => True
  | _, fail _ _ => True
  | _, read _ next => ∀ bytes, (next bytes).Blind
  | _, remaining _ => False
  | _, within _ _ next => ∀ v n, (next v n).Blind

/-! ### Running short -/

/-- A parser runs short exactly if some read finds too few bytes. -/
theorem run_eq_short_iff (buf : List UInt8) :
    p.run buf = .error short ↔ ¬ p.Fits buf := by
  induction p generalizing buf with
  | pure a => simp [run, Fits]
  | fail e h => simp [run, Fits, h]
  | read n next ih =>
    rw [run, Fits]
    split_ifs with hlen
    · simp [Nat.not_le.mpr hlen]
    · rw [ih, and_iff_right (Nat.not_lt.mp hlen)]
  | remaining next ih => exact ih buf.length buf
  | within bytes p next ihp ih =>
    have hp := ihp bytes
    rw [run, Fits]
    cases hrun : p.run bytes with
    | error e =>
      rw [hrun] at hp
      simpa [Except.toOption] using hp
    | ok r =>
      have hfits : p.Fits bytes := by
        by_contra hno
        rw [hp.mpr hno] at hrun
        cases hrun
      rw [and_iff_right hfits]
      simpa [Except.toOption] using ih r.1 r.2.length buf

/-! ### Bytes that follow -/

variable {p} {f : α → Parser short β} {size : Parser short ℕ} {body : Parser short α}
  {buf rest : List UInt8}

/-- Bytes past those that are read change nothing, unless the parser asks how many are left. -/
theorem run_append (hblind : p.Blind) {buf : List UInt8} (hfits : p.Fits buf) (extra : List UInt8) :
    p.run (buf ++ extra) = (p.run buf).map fun r => (r.1, r.2 ++ extra) := by
  induction p generalizing buf with
  | pure a => rfl
  | fail e h => rfl
  | read n next ih =>
    obtain ⟨hlen, hfits⟩ := hfits
    have hlong : ¬ (buf ++ extra).length < n := by
      rw [List.length_append]
      omega
    rw [run, run, if_neg hlong, if_neg (Nat.not_lt.mpr hlen), List.take_append_of_le_length hlen,
      List.drop_append_of_le_length hlen]
    exact ih _ (hblind _) hfits
  | remaining next ih => exact hblind.elim
  | within bytes p next ihp ih =>
    rw [run, run]
    cases hrun : p.run bytes with
    | error e => rfl
    | ok r =>
      exact ih r.1 r.2.length (hblind _ _) (hfits.2 r (by rw [hrun]; rfl))

/-! ### Sequences -/

theorem Blind.bind (hp : p.Blind) (hf : ∀ a, (f a).Blind) :
    (p.bind f).Blind := by
  induction p with
  | pure a => exact hf a
  | fail e h => trivial
  | read n next ih => exact fun bytes => ih bytes (hp bytes) hf
  | remaining next ih => exact hp.elim
  | within bytes p next ihp ih => exact fun v n => ih v n (hp v n) hf

/-- The second parser runs on what the first leaves. -/
theorem run_bind (f : α → Parser short β) (buf : List UInt8) :
    (p.bind f).run buf =
      match p.run buf with
      | .error e => .error e
      | .ok (a, rest) => (f a).run rest := by
  induction p generalizing buf with
  | pure a => rfl
  | fail e h => rfl
  | read n next ih =>
    rw [Parser.bind, run, run]
    split_ifs with hlen
    · rfl
    · exact ih _ f _
  | remaining next ih => exact ih _ f buf
  | within bytes p next ihp ih =>
    rw [Parser.bind, run, run]
    cases hrun : p.run bytes with
    | error e => rfl
    | ok r => exact ih r.1 r.2.length f buf

theorem fits_bind {a : α}
    (hrun : p.run buf = .ok (a, rest)) : (p.bind f).Fits buf ↔ (f a).Fits rest := by
  rw [← not_iff_not, ← run_eq_short_iff, ← run_eq_short_iff, run_bind, hrun]

/-! ### Frames -/

/-- A frame: its size, that many bytes, and in them exactly what `body` reads. -/
def framed (size : Parser short ℕ) (body : Parser short α) (long : ε) (hlong : long ≠ short) :
    Parser short α :=
  size.bind fun n => read n fun bytes => within bytes body fun v left =>
    if 0 < left then fail long hlong else pure v

theorem blind_framed {long : ε}
    {hlong : long ≠ short} (hsize : size.Blind) : (framed size body long hlong).Blind := by
  refine hsize.bind fun n bytes v left => ?_
  dsimp only
  split_ifs <;> trivial

/-- Of a whole frame, only the reads inside it matter. -/
theorem fits_framed {long : ε} {hlong : long ≠ short} {n : ℕ} (hsize : size.run buf = .ok (n, rest))
    (hwhole : n ≤ rest.length) :
    (framed size body long hlong).Fits buf ↔ body.Fits (rest.take n) := by
  rw [framed, fits_bind hsize, Fits, Fits, and_iff_right hwhole]
  refine and_iff_left_of_imp fun _ r _ => ?_
  split_ifs <;> trivial

end Parser

end HermitMoq
