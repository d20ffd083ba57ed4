import Mathlib.Algebra.GroupWithZero.Nat
import Mathlib.Data.List.Infix
import Mathlib.Data.List.DropRight
import Mathlib.Data.Char
import Mathlib.Data.List.Sort
import Mathlib.Data.List.Destutter

/-!
# Broadcast Paths

The model of `moq-net/src/path.rs`. A path is a string without leading, trailing or
doubled slashes; the source keeps this normal form by construction and so does the
structure `Path`, whose second field is the normal form itself. Strings are lists of
characters: the byte comparisons of the source happen at positions reached by
`starts_with`, where they agree with comparisons of characters.

The operations (`hasPrefix`, `stripPrefix`, `nextPart`, `join`) are the string
manipulations of the source. The lemmas read every one of them on the list of
components `Path.parts`, which is how the rest of the development reasons about paths.
-/

namespace HermitMoq

open List Option

/-! ### Splitting at a separator -/

variable {α : Type*} {xs : List α} {a : α}

/-- No piece of a split contains the separator. -/
theorem notMem_of_mem_splitOn [DecidableEq α] {xs l : List α} (h : l ∈ xs.splitOn a) :
    a ∉ l := by
  induction xs generalizing l with
  | nil => simp_all
  | cons x xs ih =>
    rw [splitOn_cons_eq_if_modifyHead] at h
    by_cases hx : x = a
    · simp only [hx, beq_self_eq_true, if_true, mem_cons] at h
      rcases h with rfl | h
      · simp
      · exact ih h
    · simp only [beq_iff_eq, hx, if_false] at h
      obtain ⟨hd, _, hs⟩ := exists_cons_of_ne_nil (splitOn_ne_nil a xs)
      rw [hs, modifyHead_cons, mem_cons] at h
      rcases h with rfl | h
      · have := ih (hs ▸ mem_cons_self : hd ∈ xs.splitOn a)
        simp [this, Ne.symm hx]
      · exact ih (hs ▸ mem_cons_of_mem _ h)

/-- The first piece of a split is empty only for lists that are empty or start with
the separator. -/
theorem eq_nil_or_head?_of_splitOn [DecidableEq α] {tl : List (List α)}
    (h : xs.splitOn a = [] :: tl) : xs = [] ∨ xs.head? = some a := by
  cases xs with
  | nil => exact .inl rfl
  | cons x xs =>
    rw [splitOn_cons_eq_if_modifyHead] at h
    by_cases hx : x = a
    · exact .inr (by simp [hx])
    · simp only [beq_iff_eq, hx, if_false] at h
      obtain ⟨_, _, hs⟩ := exists_cons_of_ne_nil (splitOn_ne_nil a xs)
      simp [hs] at h

/-- A later piece of a split is empty only for lists that end with the separator or
contain it twice in a row. -/
theorem last_or_double_of_nil_mem_tail [DecidableEq α]
    (h : [] ∈ (xs.splitOn a).tail) : xs.getLast? = some a ∨ [a, a] <:+: xs := by
  induction xs with
  | nil => simp at h
  | cons x xs ih =>
    obtain ⟨hd, _, hs⟩ := exists_cons_of_ne_nil (splitOn_ne_nil a xs)
    have hlift : (xs.getLast? = some a ∨ [a, a] <:+: xs) →
        (x :: xs).getLast? = some a ∨ [a, a] <:+: x :: xs := by
      rintro (hl | hd)
      · exact .inl (by simp [getLast?_cons, hl])
      · exact .inr (hd.trans (suffix_cons x xs).isInfix)
    rw [splitOn_cons_eq_if_modifyHead] at h
    by_cases hx : x = a
    · subst hx
      simp only [beq_self_eq_true, if_true, tail_cons, hs, mem_cons] at h
      rcases h with hnil | h
      · subst hnil
        rcases eq_nil_or_head?_of_splitOn hs with rfl | hh
        · exact .inl rfl
        · obtain ⟨ys, rfl⟩ := head?_eq_some_iff.mp hh
          exact .inr ⟨[], ys, by simp⟩
      · exact hlift (ih (by simpa [hs] using h))
    · simp only [beq_iff_eq, hx, if_false, hs, modifyHead_cons, tail_cons] at h
      exact hlift (ih (by simpa [hs] using h))

/-- A nonempty list that neither starts nor ends with the separator and does not
contain it twice in a row splits into nonempty pieces. -/
theorem nil_notMem_splitOn [DecidableEq α] (hne : xs ≠ [])
    (hhead : xs.head? ≠ some a) (hlast : xs.getLast? ≠ some a) (hdouble : ¬ [a, a] <:+: xs) :
    [] ∉ xs.splitOn a := by
  intro h
  obtain ⟨_, _, hs⟩ := exists_cons_of_ne_nil (splitOn_ne_nil a xs)
  rw [hs, mem_cons] at h
  rcases h with hnil | h
  · subst hnil
    rcases eq_nil_or_head?_of_splitOn hs with h | h
    · exact hne h
    · exact hhead h
  · have htail : [] ∈ (xs.splitOn a).tail := by simpa [hs] using h
    rcases last_or_double_of_nil_mem_tail htail with h | h
    · exact hlast h
    · exact hdouble h

/-! ### The type of paths -/

/-- The normal form of a path string: empty, or a `/`-separated sequence of nonempty
components. -/
def Normal (cs : List Char) : Prop :=
  cs = [] ∨ [] ∉ cs.splitOn '/'

instance (cs : List Char) : Decidable (Normal cs) :=
  inferInstanceAs (Decidable (_ ∨ _))

/-- A **broadcast path**: a string in normal form. -/
structure Path where
  /-- The characters of the string. -/
  chars : List Char
  /-- No leading, trailing or doubled slash. -/
  normal : Normal chars
deriving DecidableEq

/-- One component of a path, the `dir` of the source. -/
abbrev Dir := List Char

namespace Path

variable {p : Path} {q : Path} {d : Dir}

@[ext] theorem ext (h : p.chars = q.chars) : p = q := by
  cases p
  cases q
  simp_all

/-- Paths are ordered as their strings, the derived `Ord` of the source. -/
instance : LinearOrder Path :=
  LinearOrder.lift' Path.chars fun _ _ h => Path.ext h

/-- `Path::empty`. -/
def empty : Path := ⟨[], Or.inl rfl⟩

instance : Inhabited Path := ⟨empty⟩

/-- `Path::is_empty`. -/
def isEmpty (p : Path) : Bool := p.chars.isEmpty

/-- The components of a path. -/
def parts (p : Path) : List Dir :=
  if p.chars = [] then [] else p.chars.splitOn '/'

@[simp] theorem parts_empty : empty.parts = [] := rfl

theorem parts_eq_nil_iff : p.parts = [] ↔ p = empty := by
  constructor
  · intro h
    by_cases hc : p.chars = []
    · exact Path.ext hc
    · rw [parts, if_neg hc] at h
      exact absurd h (splitOn_ne_nil _ _)
  · rintro rfl
    rfl

theorem isEmpty_iff : p.isEmpty = true ↔ p.parts = [] := by
  rw [parts_eq_nil_iff, isEmpty, List.isEmpty_iff]
  exact ⟨fun h => Path.ext h, fun h => by rw [h]; rfl⟩

/-- The string of a path is the join of its components. -/
theorem intercalate_parts (p : Path) : ['/'].intercalate p.parts = p.chars := by
  by_cases h : p.chars = []
  · rw [parts, if_pos h, h]
    rfl
  · rw [parts, if_neg h, intercalate_splitOn]

/-- A path is determined by its components. -/
theorem parts_injective : Function.Injective parts := by
  intro p q h
  apply Path.ext
  rw [← intercalate_parts p, h, intercalate_parts q]

theorem ne_nil_of_mem_parts (h : d ∈ p.parts) : d ≠ [] := by
  by_cases hc : p.chars = []
  · simp [parts, hc] at h
  · rw [parts, if_neg hc] at h
    rintro rfl
    exact p.normal.elim hc fun hn => hn h

theorem slash_notMem_of_mem_parts (h : d ∈ p.parts) : '/' ∉ d := by
  by_cases hc : p.chars = []
  · simp [parts, hc] at h
  · rw [parts, if_neg hc] at h
    exact notMem_of_mem_splitOn h

/-! ### Building paths from components -/

variable {ds : List Dir} (s : List Char)

/-- A join of nonempty slash-free components is in normal form. -/
theorem normal_intercalate (hne : ∀ d ∈ ds, d ≠ []) (hs : ∀ d ∈ ds, '/' ∉ d) :
    Normal (['/'].intercalate ds) := by
  by_cases h : ds = []
  · exact .inl (by simp [h])
  · refine .inr ?_
    rw [splitOn_intercalate '/' hs h]
    exact fun hmem => hne [] hmem rfl

/-- The components of a join are the joined components. -/
theorem parts_mk_intercalate (hne : ∀ d ∈ ds, d ≠ []) (hs : ∀ d ∈ ds, '/' ∉ d)
    (hn : Normal (['/'].intercalate ds)) : parts ⟨['/'].intercalate ds, hn⟩ = ds := by
  cases ds with
  | nil => simp [parts]
  | cons d ds =>
    have hne' : ['/'].intercalate (d :: ds) ≠ [] := by
      intro h
      have hsp := splitOn_intercalate '/' hs (cons_ne_nil d ds)
      rw [h, splitOn_nil] at hsp
      injection hsp with hd _
      exact hne d mem_cons_self hd.symm
    rw [parts, if_neg hne', splitOn_intercalate '/' hs (cons_ne_nil d ds)]

/-- The leading and trailing slashes of a string removed. -/
def trim (s : List Char) : List Char :=
  (s.dropWhile (· = '/')).rdropWhile (· = '/')

theorem head?_trim : (trim s).head? ≠ some '/' := by
  intro h
  have hp : trim s <+: s.dropWhile (· = '/') := rdropWhile_prefix _ _
  have hh : (s.dropWhile (· = '/')).head? = some '/' := by
    obtain ⟨_, ht⟩ := hp
    obtain ⟨_, hys⟩ := head?_eq_some_iff.mp h
    rw [← ht, hys]
    rfl
  have hnot := head?_dropWhile_not (fun c => decide (c = '/')) s
  rw [hh] at hnot
  simp at hnot

theorem getLast?_trim : (trim s).getLast? ≠ some '/' := by
  intro h
  have hne : trim s ≠ [] := by
    intro hnil
    simp [hnil] at h
  have hnot := rdropWhile_last_not (fun c => decide (c = '/'))
    (s.dropWhile (· = '/')) hne
  rw [getLast?_eq_some_getLast hne, some.injEq] at h
  exact hnot (by simpa [trim] using h)

/-- The string `Path::new` keeps: the trimmed string, with the empty components dropped
when it contains a doubled slash. -/
def normalize (s : List Char) : List Char :=
  if ['/', '/'] <:+: trim s then
    ['/'].intercalate (((trim s).splitOn '/').filter (· ≠ []))
  else trim s

theorem normal_normalize : Normal (normalize s) := by
  unfold normalize
  split_ifs with h
  · apply normal_intercalate
    · intro d hd
      simpa using (mem_filter.mp hd).2
    · intro d hd
      exact notMem_of_mem_splitOn (mem_filter.mp hd).1
  · by_cases hnil : trim s = []
    · exact .inl hnil
    · exact .inr (nil_notMem_splitOn hnil (head?_trim s) (getLast?_trim s) h)

/-- `Path::new`, and `Path::from` on strings, which repeats its code. -/
def new (s : List Char) : Path := ⟨normalize s, normal_normalize s⟩

theorem head?_chars (p : Path) : p.chars.head? ≠ some '/' := by
  intro h
  obtain ⟨_, hys⟩ := head?_eq_some_iff.mp h
  rcases p.normal with hn | hn
  · simp [hn] at h
  · rw [hys, splitOn_cons_eq_if_modifyHead] at hn
    simp at hn

theorem getLast?_chars (p : Path) : p.chars.getLast? ≠ some '/' := by
  intro h
  obtain ⟨_, hys⟩ := getLast?_eq_some_iff.mp h
  rcases p.normal with hn | hn
  · simp [hn] at h
  · rw [hys, splitOn_append_cons_self] at hn
    simp at hn

theorem not_double_chars (p : Path) : ¬ ['/', '/'] <:+: p.chars := by
  rintro ⟨_, _, h⟩
  rcases p.normal with hn | hn
  · simp [hn] at h
  · rw [← h, append_assoc, cons_append, cons_append,
      splitOn_append_cons_self, splitOn_cons_eq_if_modifyHead] at hn
    simp at hn

/-- Normalizing the string of a path changes nothing. -/
theorem new_chars (p : Path) : new p.chars = p := by
  apply Path.ext
  have htrim : trim p.chars = p.chars := by
    have hd : p.chars.dropWhile (· = '/') = p.chars := by
      rw [dropWhile_eq_self_iff]
      intro hl hh
      apply p.head?_chars
      rw [head?_eq_getElem?, getElem?_eq_getElem hl]
      simpa using hh
    rw [trim, hd, rdropWhile_eq_self_iff]
    intro hl hh
    apply p.getLast?_chars
    rw [getLast?_eq_some_getLast hl]
    simpa using hh
  show normalize p.chars = p.chars
  rw [normalize, htrim, if_neg p.not_double_chars]

/-! ### The operations of the source -/

/-- What follows a slash of a path is in normal form. -/
theorem normal_drop (p : Path) {i : ℕ} (h : p.chars[i]? = some '/') :
    Normal (p.chars.drop (i + 1)) := by
  have hsplit := take_append_drop i p.chars
  rw [drop_eq_getElem?_toList_append, h] at hsplit
  rcases p.normal with hn | hn
  · simp [hn] at h
  · rw [← hsplit] at hn
    simp only [toList_some, singleton_append, splitOn_append_cons_self,
      mem_append, not_or] at hn
    exact .inr hn.2

/-- A slash between two nonempty paths gives a path. -/
theorem normal_append (hp : p.chars ≠ []) (hq : q.chars ≠ []) :
    Normal (p.chars ++ '/' :: q.chars) := by
  refine .inr ?_
  rw [splitOn_append_cons_self, mem_append, not_or]
  exact ⟨p.normal.resolve_left hp, q.normal.resolve_left hq⟩

/-- `Path::has_prefix`: the prefix is empty, the whole path, or followed by a slash. -/
def hasPrefix (p q : Path) : Bool :=
  if q.isEmpty then true
  else if ¬ q.chars <+: p.chars then false
  else if p.chars.length = q.chars.length then true
  else p.chars[q.chars.length]? = some '/'

/-- `Path::strip_prefix`. -/
def stripPrefix (p q : Path) : Option Path :=
  if q.isEmpty then some p
  else if ¬ q.chars <+: p.chars then none
  else if p.chars.length = q.chars.length then some empty
  else if h : p.chars[q.chars.length]? = some '/' then
    some ⟨p.chars.drop (q.chars.length + 1), p.normal_drop h⟩
  else none

/-- `Path::next_part`: the first component and the rest of the path. -/
def nextPart (p : Path) : Option (Dir × Path) :=
  if p.isEmpty then none
  else if h : p.chars[p.chars.idxOf '/']? = some '/' then
    some (p.chars.take (p.chars.idxOf '/'), ⟨_, p.normal_drop h⟩)
  else some (p.chars, empty)

/-- `Path::join`. -/
def join (p q : Path) : Path :=
  if hp : p.chars = [] then q
  else if hq : q.chars = [] then p
  else ⟨p.chars ++ '/' :: q.chars, normal_append hp hq⟩

/-! ### The operations on components -/

theorem parts_of_ne_nil (h : p.chars ≠ []) : p.parts = p.chars.splitOn '/' :=
  if_neg h

theorem isEmpty_iff_chars : p.isEmpty = true ↔ p.chars = [] :=
  List.isEmpty_iff

variable {r : Path}

/-- The components on the two sides of a slash of a path. -/
theorem parts_of_chars_eq (hq : q.chars ≠ []) (hr : r.chars ≠ [])
    (h : p.chars = q.chars ++ '/' :: r.chars) : p.parts = q.parts ++ r.parts := by
  have hp : p.chars ≠ [] := by simp [h]
  rw [parts_of_ne_nil hp, h, splitOn_append_cons_self, ← parts_of_ne_nil hq,
    ← parts_of_ne_nil hr]

@[simp] theorem parts_join (p q : Path) : (p.join q).parts = p.parts ++ q.parts := by
  unfold join
  split_ifs with hp hq
  · simp [parts, hp]
  · simp [parts, hq]
  · exact parts_of_chars_eq hp hq rfl

/-- What follows a slash of a path is not empty. -/
theorem drop_ne_nil (p : Path) {i : ℕ} (h : p.chars[i]? = some '/') :
    p.chars.drop (i + 1) ≠ [] := by
  intro hnil
  have hsplit := take_append_drop i p.chars
  rw [drop_eq_getElem?_toList_append, h, hnil] at hsplit
  rcases p.normal with hn | hn
  · simp [hn] at h
  · rw [← hsplit] at hn
    simp [splitOn_append_cons_self] at hn

/-- `strip_prefix` removes exactly the components of the prefix. -/
theorem stripPrefix_eq_some_iff : p.stripPrefix q = some r ↔ p.parts = q.parts ++ r.parts := by
  constructor
  · intro h
    unfold stripPrefix at h
    split_ifs at h with hq hpre hlen hs
    · obtain rfl := some.inj h
      rw [isEmpty_iff.mp hq, nil_append]
    · obtain rfl := some.inj h
      have hchars : q.chars = p.chars := hpre.eq_of_length hlen.symm
      rw [Path.ext hchars, parts_empty, append_nil]
    · obtain rfl := some.inj h
      have hqne : q.chars ≠ [] := fun hc => hq (isEmpty_iff_chars.mpr hc)
      refine parts_of_chars_eq hqne (p.drop_ne_nil hs) ?_
      have hdrop : p.chars.drop q.chars.length = '/' :: p.chars.drop (q.chars.length + 1) := by
        rw [drop_eq_getElem?_toList_append, hs]
        rfl
      rw [← hdrop]
      exact (prefix_iff_eq_append.mp hpre).symm
  · intro h
    by_cases hq : q.chars = []
    · have hr : r = p := parts_injective (by rw [h]; simp [parts, hq])
      rw [stripPrefix, if_pos (isEmpty_iff_chars.mpr hq), hr]
    · have hq' : ¬ q.isEmpty = true := fun hc => hq (isEmpty_iff_chars.mp hc)
      by_cases hr : r.chars = []
      · obtain rfl : r = empty := Path.ext hr
        have hpq : p = q := parts_injective (by rw [h]; simp)
        rw [stripPrefix, if_neg hq', hpq]
        simp
      · have hp : p = q.join r := parts_injective (by rw [h, parts_join])
        have hpc : p.chars = q.chars ++ '/' :: r.chars := by
          rw [hp, join, dif_neg hq, dif_neg hr]
        have hslash : p.chars[q.chars.length]? = some '/' := by simp [hpc]
        have hlen : p.chars.length ≠ q.chars.length := by simp [hpc]
        have hpre : q.chars <+: p.chars := ⟨_, hpc.symm⟩
        rw [stripPrefix, if_neg hq', if_neg (not_not.mpr hpre), if_neg hlen, dif_pos hslash]
        refine congrArg some (Path.ext ?_)
        simp [hpc]

/-- `strip_prefix` fails exactly when the components are not a prefix. -/
theorem stripPrefix_eq_none_iff : p.stripPrefix q = none ↔ ¬ q.parts <+: p.parts := by
  rw [eq_none_iff_forall_ne_some]
  constructor
  · rintro h ⟨ds, hds⟩
    have hmem : ∀ d ∈ ds, d ∈ p.parts := fun d hd => hds ▸ mem_append_right _ hd
    have hne : ∀ d ∈ ds, d ≠ [] := fun d hd => ne_nil_of_mem_parts (hmem d hd)
    have hs : ∀ d ∈ ds, '/' ∉ d := fun d hd => slash_notMem_of_mem_parts (hmem d hd)
    refine h ⟨_, normal_intercalate hne hs⟩ (stripPrefix_eq_some_iff.mpr ?_)
    rw [parts_mk_intercalate hne hs, hds]
  · intro h r hr
    exact h ⟨r.parts, (stripPrefix_eq_some_iff.mp hr).symm⟩

/-- `has_prefix` succeeds exactly when `strip_prefix` does. -/
theorem hasPrefix_eq_isSome (p q : Path) : p.hasPrefix q = (p.stripPrefix q).isSome := by
  unfold hasPrefix stripPrefix
  split_ifs <;> simp_all

theorem join_of_stripPrefix (h : p.stripPrefix q = some r) : q.join r = p := by
  refine parts_injective ?_
  rw [parts_join, stripPrefix_eq_some_iff.mp h]

theorem join_left_cancel (h : p.join q = p.join r) : q = r := by
  have hparts := congrArg parts h
  rw [parts_join, parts_join, append_cancel_left_eq] at hparts
  exact parts_injective hparts

theorem empty_join (p : Path) : empty.join p = p := by
  refine parts_injective ?_
  rw [parts_join, parts_empty, nil_append]

/-- `has_prefix` is the prefix order on components. -/
theorem hasPrefix_iff : p.hasPrefix q = true ↔ q.parts <+: p.parts := by
  rw [hasPrefix_eq_isSome, isSome_iff_ne_none, Ne, stripPrefix_eq_none_iff, not_not]

/-- `next_part` of the empty path. -/
theorem nextPart_of_parts_nil (h : p.parts = []) : p.nextPart = none := by
  rw [nextPart, if_pos (isEmpty_iff.mpr h)]

/-- `next_part` splits off the first component. -/
theorem nextPart_of_parts (h : p.parts = d :: ds) :
    ∃ rest, p.nextPart = some (d, rest) ∧ rest.parts = ds := by
  have hd : '/' ∉ d := slash_notMem_of_mem_parts (h ▸ mem_cons_self)
  have hp : ¬ p.isEmpty = true := fun hc => by simp [isEmpty_iff.mp hc] at h
  have hchars := intercalate_parts p
  rw [h] at hchars
  cases ds with
  | nil =>
    rw [intercalate_singleton] at hchars
    have hslash : ¬ p.chars[p.chars.idxOf '/']? = some '/' := by
      rw [← hchars]
      exact fun hc => hd (mem_of_getElem? hc)
    exact ⟨empty, by rw [nextPart, if_neg hp, dif_neg hslash, hchars], rfl⟩
  | cons e ds =>
    rw [intercalate_cons_cons] at hchars
    have hidx : p.chars.idxOf '/' = d.length := by
      rw [← hchars, append_assoc, idxOf_append_of_notMem hd]
      simp
    have hslash : p.chars[p.chars.idxOf '/']? = some '/' := by
      rw [hidx, ← hchars]
      simp
    have hne : ∀ c ∈ e :: ds, c ≠ [] := fun c hc =>
      ne_nil_of_mem_parts (h ▸ mem_cons_of_mem _ hc)
    have hs : ∀ c ∈ e :: ds, '/' ∉ c := fun c hc =>
      slash_notMem_of_mem_parts (h ▸ mem_cons_of_mem _ hc)
    refine ⟨⟨_, normal_intercalate hne hs⟩, ?_, parts_mk_intercalate hne hs _⟩
    rw [nextPart, if_neg hp, dif_pos hslash, some.injEq, Prod.mk.injEq]
    refine ⟨?_, Path.ext ?_⟩
    · rw [hidx, ← hchars]
      simp
    · show p.chars.drop (p.chars.idxOf '/' + 1) = _
      rw [hidx, ← hchars, drop_append]
      simp

/-! ### Lists of prefixes -/

/-- The length of a path in bytes. -/
def byteLen (p : Path) : ℕ := (p.chars.map Char.utf8Size).sum

/-- The canonical order of a prefix list: by length, then lexicographically. -/
def ShorterEq (p q : Path) : Prop :=
  p.byteLen < q.byteLen ∨ p.byteLen = q.byteLen ∧ p ≤ q

instance : DecidableRel ShorterEq := fun p q =>
  inferInstanceAs (Decidable (p.byteLen < q.byteLen ∨ p.byteLen = q.byteLen ∧ p ≤ q))

/-- Neither path is a prefix of the other. -/
def Apart (p q : Path) : Prop := ¬ p.parts <+: q.parts ∧ ¬ q.parts <+: p.parts

theorem Apart.symm (h : p.Apart q) : q.Apart p := ⟨h.2, h.1⟩

instance : Std.Total ShorterEq where
  total p q := by
    unfold ShorterEq
    rcases Nat.lt_trichotomy p.byteLen q.byteLen with h | h | h
    · exact Or.inl (Or.inl h)
    · rcases le_total p q with hle | hle
      · exact Or.inl (Or.inr ⟨h, hle⟩)
      · exact Or.inr (Or.inr ⟨h.symm, hle⟩)
    · exact Or.inr (Or.inl h)

instance : IsTrans Path ShorterEq where
  trans p q r hpq hqr := by
    unfold ShorterEq at *
    rcases hpq with h | ⟨h, hle⟩ <;> rcases hqr with h' | ⟨h', hle'⟩
    · exact Or.inl (h.trans h')
    · exact Or.inl (h.trans_eq h')
    · exact Or.inl (h.trans_lt h')
    · exact Or.inr ⟨h.trans h', hle.trans hle'⟩

/-- The characters of a prefix come first. -/
theorem chars_prefix_of_parts (h : q.parts <+: p.parts) : q.chars <+: p.chars := by
  have hp := hasPrefix_iff.mpr h
  unfold hasPrefix at hp
  split_ifs at hp with hq hc
  · rw [isEmpty_iff_chars.mp hq]
    exact nil_prefix
  · exact hc
  · exact hc

/-- A prefix that is not shorter is the path itself. -/
theorem eq_of_prefix_of_shorterEq (h : q.parts <+: p.parts) (hle : p.ShorterEq q) : q = p := by
  obtain ⟨cs, hcs⟩ := chars_prefix_of_parts h
  have hlen : p.byteLen = q.byteLen + (cs.map Char.utf8Size).sum := by
    rw [byteLen, byteLen, ← hcs, map_append, sum_append]
  have hnil : cs = [] := by
    cases cs with
    | nil => rfl
    | cons c cs =>
      have hpos := c.utf8Size_pos
      rw [map_cons, sum_cons] at hlen
      unfold ShorterEq at hle
      omega
  rw [hnil, append_nil] at hcs
  exact Path.ext hcs

end Path

/-- The model of `PathPrefixes`: prefixes of which none covers another. -/
structure PathPrefixes where
  /-- The prefixes. -/
  paths : List Path
  /-- No prefix covers another. -/
  apart : paths.Pairwise Path.Apart

namespace PathPrefixes

/-- The inner loop of `PathPrefixes::new`: keep the paths that no kept path covers. -/
def uncovered (result : List Path) : List Path → List Path
  | [] => result
  | path :: paths =>
    if result.any fun existing => path.hasPrefix existing then uncovered result paths
    else uncovered (result ++ [path]) paths

/-- Paths that no shorter one covers stay apart. -/
theorem pairwise_uncovered {result paths : List Path} (hr : result.Pairwise Path.Apart)
    (hs : paths.Pairwise Path.ShorterEq)
    (hle : ∀ p ∈ result, ∀ q ∈ paths, p.ShorterEq q) :
    (uncovered result paths).Pairwise Path.Apart := by
  induction paths generalizing result with
  | nil => exact hr
  | cons path paths ih =>
    obtain ⟨hpath, hs⟩ := pairwise_cons.mp hs
    rw [uncovered]
    split_ifs with hany
    · exact ih hr hs fun p hp q hq => hle p hp q (mem_cons_of_mem _ hq)
    · have hnot : ∀ p ∈ result, ¬ p.parts <+: path.parts := by
        intro p hp hpre
        exact hany (any_eq_true.mpr ⟨p, hp, Path.hasPrefix_iff.mpr hpre⟩)
      refine ih ?_ hs ?_
      · refine pairwise_append.mpr ⟨hr, pairwise_singleton _ _, ?_⟩
        intro p hp q hq
        obtain rfl := mem_singleton.mp hq
        refine ⟨hnot p hp, fun hpre => ?_⟩
        -- sorted by length, a later path covers an earlier one only if they are equal
        have heq := Path.eq_of_prefix_of_shorterEq hpre (hle p hp q mem_cons_self)
        exact hnot p hp (heq ▸ prefix_rfl)
      · intro p hp q hq
        rcases mem_append.mp hp with hp | hp
        · exact hle p hp q (mem_cons_of_mem _ hq)
        · obtain rfl := mem_singleton.mp hp
          exact hpath q hq

theorem pairwise_of_length_le_one {r : Path → Path → Prop} {paths : List Path}
    (h : paths.length ≤ 1) : paths.Pairwise r := by
  cases paths with
  | nil => exact List.Pairwise.nil
  | cons p paths =>
    obtain rfl : paths = [] := by simpa using h
    exact pairwise_singleton _ p

/-- `PathPrefixes::new`: sort, drop repetitions, and keep the uncovered paths. -/
def new (paths : List Path) : PathPrefixes :=
  if h : paths.length ≤ 1 then ⟨paths, pairwise_of_length_le_one h⟩
  else
    ⟨uncovered [] ((paths.insertionSort Path.ShorterEq).destutter (· ≠ ·)), by
      refine pairwise_uncovered List.Pairwise.nil ?_ fun p hp => absurd hp List.not_mem_nil
      exact (List.pairwise_insertionSort _ paths).sublist (List.destutter_sublist _ _)⟩

end PathPrefixes

end HermitMoq
