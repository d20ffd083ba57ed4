import Mathlib.Combinatorics.SimpleGraph.Metric

/-!
# Path-Vector Routing on a Graph

A general library. Some vertices of a graph are sources, and every vertex may hold a route:
the names of the vertices on a way from a source, the source first and the vertex itself
left out. A vertex offers its route, extended by its own name, to each neighbour, except if
the neighbour or the vertex itself is on the route already or the route has reached a
maximal length.

A choice of routes is *stable* if every vertex holds one of the shortest routes open to it.
Nothing is assumed about how it came about. The routes of a stable choice are shortest
paths: a route that leads through a vertex bounds the distance of that vertex by its place
on the route, so the neighbour a shortest path goes through never withholds its offer.
-/

namespace HermitMoq

open Nat List SimpleGraph

namespace PathVector

variable {V I : Type*}

/-- The **distance** of a vertex to the nearest source. -/
noncomputable def distance (G : SimpleGraph V) (source : V → Prop) (x : V) : ℕ∞ :=
  ⨅ s, ⨅ _ : source s, G.edist x s

/-- The route a vertex offers to a neighbour, given the one it holds. -/
def offer [DecidableEq I] (name : V → I) (bound : ℕ) (y x : V) : Option (List I) → Option (List I)
  | none => none
  | some c => if name x ∈ c ∨ name y ∈ c ∨ bound ≤ c.length then none else some (c ++ [name y])

/-- The routes **open** to a vertex: the empty one of a source and the offers of the
neighbours. -/
def Open [DecidableEq I] (G : SimpleGraph V) (name : V → I) (bound : ℕ) (source : V → Prop)
    (route : V → Option (List I)) (x : V) (c : List I) : Prop :=
  (source x ∧ c = []) ∨ ∃ y, G.Adj y x ∧ offer name bound y x (route y) = some c

/-- A choice of routes is **stable**: every vertex holds an open route, and one that is no
longer than any other, if there are any. -/
structure Stable [DecidableEq I] (G : SimpleGraph V) (name : V → I) (bound : ℕ)
    (source : V → Prop) (route : V → Option (List I)) : Prop where
  isOpen : ∀ {x c}, route x = some c → Open G name bound source route x c
  shortest : ∀ {x c}, Open G name bound source route x c →
    ∃ c', route x = some c' ∧ c'.length ≤ c.length

/-! ### Distances -/

section Distance

variable {G : SimpleGraph V} {source : V → Prop} {x y : V} {n : ℕ}

theorem distance_le_iff : distance G source x ≤ n ↔ ∃ s, source s ∧ G.edist x s ≤ n := by
  constructor
  · intro h
    have hlt : distance G source x < (n + 1 : ℕ) :=
      lt_of_le_of_lt h (cast_lt.mpr (lt_succ_self n))
    obtain ⟨s, hs⟩ := iInf_lt_iff.mp hlt
    obtain ⟨hsource, hs⟩ := iInf_lt_iff.mp hs
    refine ⟨s, hsource, ?_⟩
    exact Order.le_of_lt_add_one hs
  · rintro ⟨s, hs, hle⟩
    exact (iInf₂_le s hs).trans hle

theorem distance_le_succ (hxy : G.Adj y x) (hy : distance G source y ≤ n) :
    distance G source x ≤ (n + 1 : ℕ) := by
  obtain ⟨s, hs, hle⟩ := distance_le_iff.mp hy
  refine distance_le_iff.mpr ⟨s, hs, ?_⟩
  calc G.edist x s ≤ G.edist x y + G.edist y s := SimpleGraph.edist_triangle
    _ ≤ 1 + n := add_le_add (edist_eq_one_iff_adj.mpr hxy.symm).le hle
    _ = (n + 1 : ℕ) := by rw [add_comm, cast_add, cast_one]

/-- A vertex is a source or has a neighbour that is closer to one. -/
theorem exists_closer (hx : distance G source x ≤ (n + 1 : ℕ)) :
    source x ∨ ∃ y, G.Adj y x ∧ distance G source y ≤ n := by
  obtain ⟨s, hs, hle⟩ := distance_le_iff.mp hx
  have htop : G.edist x s ≠ ⊤ := ne_top_of_le_ne_top (ENat.natCast_ne_top _) hle
  obtain ⟨w, hw⟩ := exists_walk_of_edist_ne_top htop
  cases w with
  | nil => exact .inl hs
  | @cons _ y _ hxy w =>
    refine .inr ⟨y, hxy.symm, distance_le_iff.mpr ⟨s, hs, ?_⟩⟩
    rw [← hw, SimpleGraph.Walk.length_cons, cast_le, add_le_add_iff_right] at hle
    exact (edist_le w).trans (cast_le.mpr hle)

end Distance

/-! ### Stable routes -/

section Stable

variable [DecidableEq I] {G : SimpleGraph V} {name : V → I} {bound : ℕ} {source : V → Prop}
  {route : V → Option (List I)} {x y : V} {c : List I}

/-- A neighbour is offered a chain that neither of the two is on, if there is room. -/
theorem offer_eq_some {o : Option (List I)} : offer name bound y x o = some c ↔
    ∃ c', o = some c' ∧ name x ∉ c' ∧ name y ∉ c' ∧ c'.length < bound ∧ c = c' ++ [name y] := by
  cases o with
  | none => simp [offer]
  | some c' =>
    simp only [offer, Option.some.injEq, exists_eq_left']
    split_ifs with h
    · simp only [false_iff]
      rintro ⟨hx, hy, _, -⟩
      rcases h with h | h | h
      · exact hx h
      · exact hy h
      · omega
    · rw [not_or, not_or, not_le] at h
      simp [h, eq_comm]

section

variable (hs : Stable G name bound source route)

include hs

theorem Stable.length_le (hx : route x = some c) :
    c.length ≤ bound := by
  rcases hs.isOpen hx with ⟨-, rfl⟩ | ⟨_, -, hoffer⟩
  · exact zero_le _
  · obtain ⟨_, -, -, -, hlt, rfl⟩ := offer_eq_some.mp hoffer
    rw [length_append, length_singleton]
    exact hlt

section

variable (hname : Function.Injective name)

include hname

/-- A route bounds the distance of its vertex by its length, and the distance of every
vertex on it by the place of the vertex. -/
theorem Stable.distance_le {hops : List I} (hx : route x = some hops) :
    distance G source x ≤ hops.length ∧
      ∀ {v i}, hops[i]? = some (name v) → distance G source v ≤ (i : ℕ) := by
  induction hlen : hops.length generalizing x hops with
  | zero =>
    obtain rfl := length_eq_zero_iff.mp hlen
    rcases hs.isOpen hx with ⟨hsource, -⟩ | ⟨y, -, hoffer⟩
    · exact ⟨distance_le_iff (n := 0).mpr ⟨x, hsource, by simp⟩, fun h => by simp at h⟩
    · obtain ⟨c', -, -, -, -, heq⟩ := offer_eq_some.mp hoffer
      simp at heq
  | succ n ih =>
    rcases hs.isOpen hx with ⟨-, rfl⟩ | ⟨_, hadj, hoffer⟩
    · simp at hlen
    · obtain ⟨c', hy, -, -, -, rfl⟩ := offer_eq_some.mp hoffer
      rw [length_append, length_singleton, add_right_cancel_iff] at hlen
      obtain ⟨hdist, hon⟩ := ih hy hlen
      refine ⟨distance_le_succ hadj hdist, fun {v i} hv => ?_⟩
      rw [getElem?_append] at hv
      split_ifs at hv with hi
      · exact hon hv
      · -- the last name is the neighbour's own
        obtain ⟨hi', hv⟩ := List.getElem?_eq_some_iff.mp hv
        rw [length_singleton] at hi'
        obtain rfl : i = c'.length := by omega
        simp only [Nat.sub_self, List.getElem_cons_zero] at hv
        rw [← hname hv, hlen]
        exact hdist

theorem Stable.distance_lt_of_mem (hx : route x = some c) (hy : name y ∈ c) :
    ∃ i < c.length, distance G source y ≤ (i : ℕ) := by
  obtain ⟨i, hi⟩ := mem_iff_getElem?.mp hy
  exact ⟨i, (List.getElem?_eq_some_iff.mp hi).1, (hs.distance_le hname hx).2 hi⟩

/-- A vertex within the maximal length of a source has a route, and no longer one. -/
theorem Stable.exists_route {n : ℕ} (hn : n ≤ bound)
    (hx : distance G source x ≤ n) : ∃ c, route x = some c ∧ c.length ≤ n := by
  induction n generalizing x with
  | zero =>
    obtain ⟨s, hsource, hle⟩ := distance_le_iff.mp hx
    obtain rfl : x = s := edist_eq_zero_iff.mp (nonpos_iff_eq_zero.mp hle)
    exact hs.shortest (.inl ⟨hsource, rfl⟩)
  | succ n ih =>
    by_cases hnear : distance G source x ≤ n
    · obtain ⟨c, hc, hle⟩ := ih (by omega) hnear
      exact ⟨c, hc, by omega⟩
    · rcases exists_closer hx with hsource | ⟨y, hadj, hy⟩
      · obtain ⟨c, hc, hle⟩ := hs.shortest (x := x) (.inl ⟨hsource, rfl⟩)
        exact ⟨c, hc, hle.trans (zero_le _)⟩
      · obtain ⟨c, hc, _⟩ := ih (by omega) hy
        -- neither the vertex nor its neighbour can be on the route already
        have hxc : name x ∉ c := by
          intro hmem
          obtain ⟨i, hi, hdist⟩ := hs.distance_lt_of_mem hname hc hmem
          exact hnear (hdist.trans (cast_le.mpr (by omega)))
        have hyc : name y ∉ c := by
          intro hmem
          obtain ⟨_, _, hdist⟩ := hs.distance_lt_of_mem hname hc hmem
          exact hnear ((distance_le_succ hadj hdist).trans (cast_le.mpr (by omega)))
        have hoffer : offer name bound y x (route y) = some (c ++ [name y]) :=
          offer_eq_some.mpr ⟨c, hc, hxc, hyc, by omega, rfl⟩
        obtain ⟨c', hc', hle'⟩ := hs.shortest (.inr ⟨y, hadj, hoffer⟩)
        refine ⟨c', hc', hle'.trans ?_⟩
        rw [length_append, length_singleton]
        omega

/-- The length of a route is the distance to the nearest source. -/
theorem Stable.length_eq_distance (hx : route x = some c) :
    (c.length : ℕ∞) = distance G source x := by
  have hle := (hs.distance_le hname hx).1
  obtain ⟨n, hn⟩ := ENat.ne_top_iff_exists.mp (ne_top_of_le_ne_top (ENat.natCast_ne_top _) hle)
  have hnc : n ≤ c.length := by rwa [← hn, cast_le] at hle
  obtain ⟨c', hc', _⟩ := hs.exists_route hname (hnc.trans (hs.length_le hx)) hn.ge
  obtain rfl : c = c' := Option.some.inj (hx.symm.trans hc')
  rw [← hn, Nat.cast_inj]
  omega

/-- A vertex has no route exactly if it is farther than the maximal length from every
source. -/
theorem Stable.eq_none_iff : route x = none ↔ (bound : ℕ∞) < distance G source x := by
  rw [← not_le]
  constructor
  · intro hnone hle
    obtain ⟨c, hc, -⟩ := hs.exists_route hname (le_refl bound) hle
    rw [hnone] at hc
    cases hc
  · intro hfar
    rw [Option.eq_none_iff_forall_ne_some]
    intro c hc
    exact hfar ((hs.distance_le hname hc).1.trans (cast_le.mpr (hs.length_le hc)))

end

end

end Stable

end PathVector

end HermitMoq
