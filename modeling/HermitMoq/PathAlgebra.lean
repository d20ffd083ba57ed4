import HermitMoq.Scoping

/-!
# The Algebra of Paths

What the operations of `moq-net/src/path.rs` mean for all strings and all paths. A string is read
as its components: the pieces between slashes that are not empty. The operations on paths are those
of lists of components, and `PathPrefixes::new` computes the minimal list of the prefixes that
cover the same paths.
-/

namespace HermitMoq

open List PathPrefixes HermitMoq.Path

namespace Path

/-! ### Components of strings -/

/-- The nonempty components of a string. -/
def components (s : List Char) : List Dir := (s.splitOn '/').filter (· ≠ [])

/-- A slash separates components, wherever it is. -/
theorem components_append (s t : List Char) :
    components (s ++ '/' :: t) = components s ++ components t := by
  rw [components, splitOn_append_cons_self, filter_append, components, components]

section

variable (s : List Char)

/-- A slash at the end of a string belongs to no component. -/
theorem components_concat_slash : components (s ++ ['/']) = components s := by
  rw [components_append, show components [] = [] from rfl, append_nil]

theorem components_dropWhile :
    components (s.dropWhile (· = '/')) = components s := by
  induction s with
  | nil => rfl
  | cons c s ih =>
    by_cases hc : c = '/'
    · rw [dropWhile_cons_of_pos (by simpa using hc), ih, hc]
      exact (components_append [] s).symm
    · rw [dropWhile_cons_of_neg (by simpa using hc)]

theorem components_rdropWhile :
    components (s.rdropWhile (· = '/')) = components s := by
  induction s using reverseRecOn with
  | nil => rfl
  | append_singleton s c ih =>
    by_cases hc : c = '/'
    · rw [rdropWhile_concat_pos _ _ _ (by simpa using hc), ih, hc, components_concat_slash]
    · rw [rdropWhile_concat_neg _ _ _ (by simpa using hc)]

theorem components_trim : components (trim s) = components s := by
  rw [trim, components_rdropWhile, components_dropWhile]

end

/-- In normal form, all components count. -/
theorem components_of_normal {s : List Char} (h : Normal s) :
    ['/'].intercalate (components s) = s := by
  rcases h with rfl | h
  · rfl
  · have hall : (s.splitOn '/').filter (· ≠ []) = s.splitOn '/' :=
      filter_eq_self.mpr fun d hd => by
        rw [decide_eq_true_iff]
        rintro rfl
        exact h hd
    rw [components, hall, intercalate_splitOn]

/-- `Path::new` joins the nonempty components. -/
theorem chars_new (s : List Char) : (new s).chars = ['/'].intercalate (components s) := by
  rw [← components_trim]
  show normalize s = _
  have hnormal := normal_normalize s
  rw [normalize] at hnormal ⊢
  split_ifs at hnormal ⊢ with hdouble
  · rfl
  · exact (components_of_normal hnormal).symm

/-- `Path::from` for an owned string, which is used as it is if nothing has to be removed. -/
def fromString (s : List Char) : Path where
  chars :=
    if ['/', '/'] <:+: trim s then ['/'].intercalate (((trim s).splitOn '/').filter (· ≠ []))
    else if trim s = s then s
    else trim s
  normal := by
    have hnormal := normal_normalize s
    rw [normalize] at hnormal
    split_ifs at hnormal ⊢ with hdouble htrim
    · exact hnormal
    · exact htrim ▸ hnormal
    · exact hnormal

theorem fromString_eq_new (s : List Char) : fromString s = new s := by
  refine ext ?_
  show (if _ then _ else _) = normalize s
  rw [normalize]
  split_ifs with hdouble htrim
  · rfl
  · exact htrim.symm
  · rfl

/-! ### The laws of paths -/

theorem join_empty (p : Path) : p.join empty = p := by
  refine parts_injective ?_
  rw [parts_join, parts_empty, append_nil]

theorem join_assoc (p q r : Path) : (p.join q).join r = p.join (q.join r) := by
  refine parts_injective ?_
  simp only [parts_join, append_assoc]

theorem nextPart_eq_some_iff {p rest : Path} {d : Dir} :
    p.nextPart = some (d, rest) ↔ p.parts = d :: rest.parts := by
  cases hparts : p.parts with
  | nil => simp [nextPart_of_parts_nil hparts]
  | cons e ds =>
    obtain ⟨_, hnext, hfound⟩ := nextPart_of_parts hparts
    rw [hnext, Option.some.injEq, Prod.mk.injEq, cons.injEq, ← hfound]
    exact and_congr_right fun _ => parts_injective.eq_iff.symm

end Path

/-- **The algebra of paths.** All strings are read as their nonempty components, and the operations
on paths are those of lists of components. Every path, and so every result, is without a leading,
trailing or doubled slash. -/
theorem path_algebra :
    (∀ s, Path.fromString s = Path.new s ∧
      (Path.new s).chars = ['/'].intercalate ((s.splitOn '/').filter (· ≠ []))) ∧
    (∀ p q : Path, p.hasPrefix q = true ↔ q.parts <+: p.parts) ∧
    (∀ p q : Path, (p.stripPrefix q).isSome = true ↔ q.parts <+: p.parts) ∧
    (∀ p q r : Path, p.stripPrefix q = some r → q.join r = p) ∧
    (∀ p q r : Path, (p.join q).join r = p.join (q.join r)) ∧
    (∀ p : Path, Path.empty.join p = p ∧ p.join Path.empty = p) ∧
    (∀ q r : Path, (q.join r).stripPrefix q = some r) ∧
    (∀ p : Path, p.nextPart = none ↔ p.parts = []) ∧
    (∀ (p : Path) (d : Dir) (rest : Path),
      p.nextPart = some (d, rest) ↔ p.parts = d :: rest.parts) ∧
    (∀ p : Path, p.chars.head? ≠ some '/' ∧ p.chars.getLast? ≠ some '/' ∧
      ¬ ['/', '/'] <:+: p.chars) := by
  refine ⟨fun s => ⟨fromString_eq_new s, chars_new s⟩, fun p q => hasPrefix_iff,
    fun p q => ?_, fun p q r => join_of_stripPrefix, join_assoc,
    fun p => ⟨p.empty_join, p.join_empty⟩,
    fun q r => stripPrefix_eq_some_iff.mpr (parts_join q r), fun p => ?_,
    fun p d rest => nextPart_eq_some_iff,
    fun p => ⟨p.head?_chars, p.getLast?_chars, p.not_double_chars⟩⟩
  · rw [← hasPrefix_eq_isSome, hasPrefix_iff]
  · constructor
    · intro hnone
      by_contra hne
      obtain ⟨_, _, hparts⟩ := exists_cons_of_ne_nil hne
      obtain ⟨_, hnext, -⟩ := nextPart_of_parts hparts
      rw [hnone] at hnext
      cases hnext
    · exact nextPart_of_parts_nil

/-! ### Minimal lists of prefixes -/

namespace Path

instance : Std.Antisymm ShorterEq where
  antisymm p q hpq hqp := by
    unfold ShorterEq at hpq hqp
    exact le_antisymm (hpq.resolve_left (by omega)).2 (hqp.resolve_left (by omega)).2

/-- Paths apart from each other that cover the same paths are the same. -/
theorem mem_of_covers {ps qs : List Path} (hps : ps.Pairwise Apart)
    (h : ∀ path : Path, path.Under ps ↔ path.Under qs) {p : Path} (hp : p ∈ ps) : p ∈ qs := by
  obtain ⟨q, hq, hqp⟩ := (h p).mp ⟨p, hp, prefix_rfl⟩
  obtain ⟨p', hp', hpq⟩ := (h q).mpr ⟨q, hq, prefix_rfl⟩
  -- `p'` covers `p`, so they are not apart
  have hsymm : Std.Symm Apart := ⟨fun _ _ hx => hx.symm⟩
  have heq : p' = p := by
    by_contra hne
    have hapart : p'.Apart p := hps.forall hp' hp hne
    exact hapart.1 (hpq.trans hqp)
  have hpq' : p.parts <+: q.parts := heq ▸ hpq
  have hparts : q.parts = p.parts := hqp.eq_of_length_le hpq'.length_le
  rwa [← parts_injective hparts]

end Path

namespace PathPrefixes

/-- The loop leaves paths out and keeps the others in their order. -/
theorem uncovered_sublist (result paths : List Path) :
    (uncovered result paths).Sublist (result ++ paths) := by
  induction paths generalizing result with
  | nil => rw [uncovered, append_nil]
  | cons path paths ih =>
    rw [uncovered]
    split_ifs with hany
    · exact (ih result).trans ((sublist_cons_self path paths).append_left result)
    · have hsub := ih (result ++ [path])
      rwa [append_assoc, singleton_append] at hsub

/-- The prefixes are sorted by length and then by their strings. -/
theorem sorted_new (paths : List Path) : (new paths).paths.Pairwise Path.ShorterEq := by
  rw [new]
  split_ifs with h
  · exact pairwise_of_length_le_one h
  · refine List.Pairwise.sublist (uncovered_sublist _ _) ?_
    exact (pairwise_insertionSort _ paths).sublist (destutter_sublist _ _)

theorem nodup_paths (prefixes : PathPrefixes) : prefixes.paths.Nodup :=
  prefixes.apart.imp fun {p q} hapart (heq : p = q) => hapart.1 (heq ▸ prefix_rfl)

end PathPrefixes

/-- **The normal form of prefixes.** No prefix covers another, they are sorted by length and then
by their strings, and they cover what the given paths cover. So they depend on that only. -/
theorem path_prefixes_canonical (paths : List Path) :
    (PathPrefixes.new paths).paths.Pairwise Path.Apart ∧
    (PathPrefixes.new paths).paths.Pairwise Path.ShorterEq ∧
    (∀ path : Path, (∃ p ∈ (PathPrefixes.new paths).paths, path.hasPrefix p = true) ↔
      ∃ p ∈ paths, path.hasPrefix p = true) ∧
    ∀ paths' : List Path, (∀ path : Path, (∃ p ∈ paths, path.hasPrefix p = true) ↔
        ∃ p ∈ paths', path.hasPrefix p = true) →
      (PathPrefixes.new paths).paths = (PathPrefixes.new paths').paths := by
  have hunder (path : Path) (ps : List Path) :
      (∃ p ∈ ps, path.hasPrefix p = true) ↔ path.Under ps := by
    simp only [hasPrefix_iff, Path.Under]
  simp only [hunder]
  refine ⟨(new paths).apart, sorted_new paths,
    fun path => under_new, fun paths' hcovers => ?_⟩
  have hsame (path : Path) :
      path.Under (new paths).paths ↔ path.Under (new paths').paths := by
    rw [under_new, under_new, hcovers]
  refine List.Perm.eq_of_pairwise' (sorted_new paths)
    (sorted_new paths') ?_
  refine (perm_ext_iff_of_nodup (nodup_paths _)
    (nodup_paths _)).mpr fun p => ⟨fun hp => ?_, fun hp => ?_⟩
  · exact mem_of_covers (new paths).apart hsame hp
  · exact mem_of_covers (new paths').apart (fun path => (hsame path).symm) hp

end HermitMoq
