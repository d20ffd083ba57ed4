import HermitMoq.Cluster
import HermitMoq.PathVector
import HermitMoq.Unscoped

/-!
# The Invariant of a Cluster

What a publisher has shown a subscriber about a path is decided by its consumer; what the
subscriber has made of it is the broadcast it holds for the path, changed by the messages
that are still in the stream. `Session.feed` lists the two together. In every reachable
state its last entry is the offer (`HermitMoq.PathVector`) that belongs to the route the
consumer was last shown, and no announcement in it follows another, so that the subscriber
never sees a duplicate (`SessionOk`).

A relay stores the broadcasts of its applications and those its sessions hold, and of the
latter also some that are closed and wait for their cleanup (`RelayOk`). All hop chains are
simple paths of the graph (`GoodRoute`).
-/

namespace HermitMoq

open List OriginSystem Session Announce Cluster AList Nat OriginList OriginConsumer
open HermitMoq.Path PathVector

/-- The path of a message, for the empty announce prefix. -/
def Announce.path : Announce → Path
  | active suffix _ => suffix
  | ended suffix _ => suffix

/-- What a message says about its path. -/
def Announce.route : Announce → Option (List Origin)
  | active _ hops => some hops.list
  | ended _ _ => none

/-- What a subscriber holds for a path, followed by the messages it has yet to read. -/
def Session.feed (s : Session) (path : Path) : List (Option (List Origin)) :=
  (s.producers.lookup path).map (·.hops.list) ::
    s.stream.filterMap fun a => if a.path = path then some a.route else none

section Definitions

variable {V : Type*} (T : Topology V)

/-- The hop chain a publisher announces to a subscriber for its active broadcast. -/
def Topology.offer (y x : V) (active : Option BroadcastConsumer) : Option (List Origin) :=
  PathVector.offer T.info maxHops y x (active.map (·.hops.list))

/-- A hop chain that leads to a relay along a simple path of the graph. -/
def Topology.GoodRoute (x : V) (hops : List Origin) : Prop :=
  ∃ vs : List V, hops = vs.map T.info ∧ (vs ++ [x]).IsChain T.graph.Adj ∧ (vs ++ [x]).Nodup

/-- The invariant of one direction of a session, given the origin of its publisher. -/
structure SessionOk (y x : V) (o : OriginSystem) (s : Session) : Prop where
  adj : s.origin.isSome = true → T.graph.Adj y x
  origin : ∀ {i}, s.origin = some i → ∃ k, o.live i = some k ∧ k.Unscoped
  interest : ∀ {m}, s.interest = some m →
    m.pathPrefix = Path.empty ∧ m.excludeHop = (T.info x).id ∧ s.task = none
  task : ∀ {t}, s.task = some t →
    t.pathPrefix = Path.empty ∧ t.excludeHop = (T.info x).id ∧ s.origin.isSome = true ∧
    ∃ k, o.live t.origin = some k ∧ k.Unscoped ∧
      ∀ path, shown (s.feed path) = T.offer y x (shown (k.log path))
  idle : s.task = none → ∀ path, s.feed path = [none]
  noRepeat : ∀ path, NoRepeat (s.feed path)
  routes : ∀ a ∈ s.stream, ∀ l, a.route = some l →
    T.GoodRoute x l ∧ l.getLast? = some (T.info y)

/-- Where a stored broadcast comes from: an application, or a session that holds it unless
it is closed. -/
def Stems (x : V) (r : Relay V) (held : V → Path → Option BroadcastConsumer) (t : Cleanup) :
    Prop :=
  (t.broadcast.state ∈ r.locals ∧ t.broadcast.hops = OriginList.new) ∨
    ∃ y, T.graph.Adj y x ∧ r.upstream.lookup t.broadcast.state = some (y, t.full) ∧
      T.GoodRoute x t.broadcast.hops.list ∧
      t.broadcast.hops.list.getLast? = some (T.info y) ∧
      (t.broadcast.state ∈ r.origin.closed ∨ held y t.full = some t.broadcast)

/-- The invariant of one relay, given what its sessions hold for it. -/
structure RelayOk (x : V) (r : Relay V) (held : V → Path → Option BroadcastConsumer) :
    Prop where
  toggles : r.origin.Toggles
  info : r.origin.info = T.info x
  locals_lt : ∀ n ∈ r.locals, n < r.next
  upstream_lt : ∀ {n e}, r.upstream.lookup n = some e → n < r.next ∧ n ∉ r.locals
  closed_lt : ∀ n ∈ r.origin.closed, n < r.next
  stems : ∀ t ∈ r.origin.cleanups, Stems T x r held t
  held : ∀ {y path b}, held y path = some b →
    r.upstream.lookup b.state = some (y, path) ∧ b.state ∉ r.origin.closed ∧
      ∃ t ∈ r.origin.cleanups, t.full = path ∧ t.broadcast = b

/-- What the sessions of a cluster hold for a relay. -/
def Cluster.held (c : Cluster V) (x y : V) (path : Path) : Option BroadcastConsumer :=
  (c.sessions y x).producers.lookup path

/-- The **invariant of a cluster**. Every task reads a consumer of its own. -/
structure Cluster.Ok (c : Cluster V) : Prop where
  relay : ∀ x, RelayOk T x (c.relays x) (c.held x)
  session : ∀ y x, SessionOk T y x (c.relays y).origin (c.sessions y x)
  distinct : ∀ {y x x' t t'}, (c.sessions y x).task = some t → (c.sessions y x').task = some t' →
    t.origin = t'.origin → x = x'

end Definitions

/-! ### Hop chains -/

section Routes

variable {V : Type*} {T : Topology V} {x y : V} {hops : List Origin}

/-- The route a neighbour extends by its own hop is good. -/
theorem Topology.GoodRoute.concat (hy : T.GoodRoute y hops) (hadj : T.graph.Adj y x)
    (hx : T.info x ∉ hops) : T.GoodRoute x (hops ++ [T.info y]) := by
  obtain ⟨vs, rfl, hchain, hnodup⟩ := hy
  refine ⟨vs ++ [y], by simp, ?_, ?_⟩
  · refine isChain_append.mpr ⟨hchain, isChain_singleton _, ?_⟩
    simpa using hadj
  · refine nodup_append.mpr ⟨hnodup, nodup_singleton _, ?_⟩
    intro v hv w hw
    obtain rfl := mem_singleton.mp hw
    rintro rfl
    rcases mem_append.mp hv with hv | hv
    · exact hx (mem_map_of_mem hv)
    · exact hadj.ne (mem_singleton.mp hv).symm

theorem Topology.GoodRoute.nodup (hx : T.GoodRoute x hops) : hops.Nodup := by
  obtain ⟨_, rfl, -, hnodup⟩ := hx
  exact (nodup_append.mp hnodup).1.map T.info_injective

theorem Topology.GoodRoute.notMem (hx : T.GoodRoute x hops) : T.info x ∉ hops := by
  obtain ⟨_, rfl, -, hnodup⟩ := hx
  intro hmem
  obtain ⟨v, hv, heq⟩ := mem_map.mp hmem
  obtain rfl := T.info_injective heq
  exact (nodup_append.mp hnodup).2.2 v hv v (mem_singleton.mpr rfl) rfl

theorem Topology.GoodRoute.isChain (hx : T.GoodRoute x hops) :
    hops.IsChain fun i j => ∃ u v, T.graph.Adj u v ∧ T.info u = i ∧ T.info v = j := by
  obtain ⟨_, rfl, hchain, -⟩ := hx
  rw [isChain_map]
  exact (isChain_append.mp hchain).1.imp fun u v h => ⟨u, v, h, rfl, rfl⟩

end Routes

/-! ### Messages -/

variable {t : AnnounceTask} {path : Path}

section Messages

variable {V : Type*} {T : Topology V} {x y : V}

theorem stripPrefix_empty (path : Path) : path.stripPrefix Path.empty = some path := by
  rw [stripPrefix_eq_some_iff, parts_empty, nil_append]

/-- An update that ends a route is always announced. -/
theorem message_none (ht : t.pathPrefix = Path.empty) (path : Path) :
    t.message (T.info y) (path, none) = .ok (some (.ended path OriginList.new)) := by
  simp [AnnounceTask.message, ht, stripPrefix_empty]

/-- An active broadcast is announced with the offered hop chain, if there is an offer. -/
theorem message_some (ht : t.pathPrefix = Path.empty)
    (hx : t.excludeHop = (T.info x).id) (path : Path) (b : BroadcastConsumer) :
    (T.offer y x (some b) = none ∧ t.message (T.info y) (path, some b) = .ok none) ∨
      ∃ hops, T.offer y x (some b) = some hops.list ∧
        t.message (T.info y) (path, some b) = .ok (some (.active path hops)) := by
  have hany : b.hops.list.any (·.id == t.excludeHop) = decide (T.info x ∈ b.hops.list) := by
    rw [hx, Bool.eq_iff_iff, any_eq_true, decide_eq_true_iff]
    constructor
    · rintro ⟨o, ho, hid⟩
      obtain rfl : o = T.info x := Origin.ext (beq_iff_eq.mp hid)
      exact ho
    · exact fun hmem => ⟨_, hmem, beq_self_eq_true _⟩
  have hzero : t.excludeHop ≠ 0 := hx ▸ T.info_ne_zero x
  simp only [AnnounceTask.message, ht, stripPrefix_empty, hany, hzero, ne_eq, not_false_eq_true,
    true_and, decide_eq_true_eq, OriginList.contains]
  cases hpush : b.hops.push (T.info y) with
  | none =>
    have hlen := push_eq_none_iff.mp hpush
    refine .inl ⟨?_, by split_ifs <;> rfl⟩
    rw [Topology.offer, Option.map_some, offer, if_pos]
    exact .inr (.inr hlen.ge)
  | some hops =>
    have hlist := list_push hpush
    have hlen : b.hops.list.length < maxHops := by
      have hbound := hops.bound
      rw [hlist, length_append, length_singleton] at hbound
      omega
    by_cases hxm : T.info x ∈ b.hops.list
    · refine .inl ⟨?_, if_pos hxm⟩
      rw [Topology.offer, Option.map_some, offer, if_pos (.inl hxm)]
    · by_cases hym : T.info y ∈ b.hops.list
      · refine .inl ⟨?_, by rw [if_neg hxm, if_pos hym]⟩
        rw [Topology.offer, Option.map_some, offer, if_pos (.inr (.inl hym))]
      · refine .inr ⟨hops, ?_, by rw [if_neg hxm, if_neg hym]⟩
        rw [Topology.offer, hlist]
        exact offer_eq_some.mpr ⟨b.hops.list, rfl, hxm, hym, hlen, rfl⟩

end Messages

/-! ### Sessions -/

section Sessions

variable {V : Type*} {T : Topology V} {x y : V} {o o' : OriginSystem} {s : Session}

theorem feed_append (s : Session) (message : Option Announce) (path : Path) :
    Session.feed { s with stream := s.stream ++ message.toList } path =
      s.feed path ++ (message.toList.filterMap fun a =>
        if a.path = path then some a.route else none) := by
  rw [feed, filterMap_append, feed, cons_append]

theorem sessionOk_init (o : OriginSystem) : SessionOk T y x o Session.init where
  adj h := by cases h
  origin h := by cases h
  interest h := by cases h
  task h := by cases h
  idle _ _ := rfl
  noRepeat _ := isChain_singleton _
  routes a ha := absurd ha not_mem_nil

/-- A session does not notice what its publisher's origin does elsewhere. -/
theorem SessionOk.congr (hs : SessionOk T y x o s)
    (horigin : ∀ {i k}, s.origin = some i → o.live i = some k →
      ∃ k', o'.live i = some k' ∧ k'.root = k.root ∧ k'.nodes = k.nodes)
    (htask : ∀ {t k}, s.task = some t → o.live t.origin = some k →
      ∃ k', o'.live t.origin = some k' ∧ k.SameHandle k') :
    SessionOk T y x o' s where
  adj := hs.adj
  origin {i} hi := by
    obtain ⟨k, hk, hun⟩ := hs.origin hi
    obtain ⟨k', hk', hroot, hnodes⟩ := horigin hi hk
    exact ⟨k', hk', hroot.trans hun.root, hnodes.trans hun.nodes⟩
  interest := hs.interest
  task {t} ht := by
    obtain ⟨hpre, hex, hsome, _, hk, hun, hfeed⟩ := hs.task ht
    obtain ⟨k', hk', hsame⟩ := htask ht hk
    refine ⟨hpre, hex, hsome, k', hk', ⟨hsame.root.trans hun.root, hsame.nodes.trans hun.nodes⟩,
      fun path => ?_⟩
    rw [hfeed path, OriginConsumer.log, OriginConsumer.log, hsame.received]
  idle := hs.idle
  noRepeat := hs.noRepeat
  routes := hs.routes

theorem SessionOk.frame (hs : SessionOk T y x o s) (hf : OriginSystem.Frame o o') :
    SessionOk T y x o' s := by
  refine hs.congr (fun _ hk => ?_) fun _ hk => hf.consumers hk
  obtain ⟨k', hk', hsame⟩ := hf.consumers hk
  exact ⟨k', hk', hsame.root, hsame.nodes⟩

variable {k : OriginConsumer}

section

variable (hs : SessionOk T y x o s) {i : ConsumerId}

include hs

/-- Setting up a session. -/
theorem SessionOk.connect (hnone : s.origin = none)
    (hadj : T.graph.Adj y x) (hk : o'.live i = some k) (hun : k.Unscoped) :
    SessionOk T y x o' { s with
      origin := some i, interest := some ⟨empty, (T.info x).id⟩ } := by
  have htask : s.task = none := by
    rw [Option.eq_none_iff_forall_ne_some]
    intro t ht
    have hsome := (hs.task ht).2.2.1
    rw [hnone] at hsome
    cases hsome
  refine ⟨fun _ => hadj, fun hi => ?_, fun hm => ?_, fun ht => ?_, hs.idle, hs.noRepeat, hs.routes⟩
  · obtain rfl := Option.some.inj hi
    exact ⟨k, hk, hun⟩
  · obtain rfl := Option.some.inj hm
    exact ⟨rfl, rfl, htask⟩
  · rw [htask] at ht
    cases ht

/-- Accepting an announce stream. -/
theorem SessionOk.recvAnnounce (hi : s.origin = some i)
    {m : AnnounceInterest} (hm : s.interest = some m)
    (hf : ∀ {k}, o.live i = some k → ∃ k', o'.live i = some k' ∧ k.SameHandle k') {j : ConsumerId}
    (hk : o'.live j = some k) (hun : k.Unscoped) (hnew : k.received = []) :
    SessionOk T y x o' { s with
      interest := none, task := some ⟨j, m.pathPrefix, m.excludeHop⟩ } := by
  obtain ⟨hpre, hex, htask⟩ := hs.interest hm
  refine ⟨hs.adj, fun {i'} hi' => ?_, fun hm => (by cases hm), fun ht => ?_,
    fun ht => (by cases ht), hs.noRepeat, hs.routes⟩
  · obtain rfl : i = i' := Option.some.inj (hi.symm.trans hi')
    obtain ⟨_, hk₀, hun₀⟩ := hs.origin hi
    obtain ⟨k', hk', hsame⟩ := hf hk₀
    exact ⟨k', hk', hsame.root.trans hun₀.root, hsame.nodes.trans hun₀.nodes⟩
  · obtain rfl := Option.some.inj ht
    refine ⟨hpre, hex, Option.isSome_of_eq_some hi, k, hk, hun, fun path => ?_⟩
    have hfeed : feed { s with
        interest := none, task := some ⟨j, m.pathPrefix, m.excludeHop⟩ } path = [none] :=
      hs.idle htask path
    rw [hfeed, OriginConsumer.log, hnew]
    rfl

/-- The message for an update of the task's consumer: it concerns the path of the update,
the feed of the path then ends in the offer for it, and its hop chain is good. -/
theorem SessionOk.message (ht : s.task = some t)
    (hk : o.live t.origin = some k) {update : Option BroadcastConsumer}
    (hturn : (shown (k.log path)).isSome ≠ update.isSome)
    (hroute : ∀ b, update = some b → T.GoodRoute y b.hops.list) :
    ∃ message, t.message (T.info y) (path, update) = .ok message ∧
      (∀ a ∈ message.toList, a.path = path) ∧
      shown (s.feed path ++ message.toList.map Announce.route) = T.offer y x update ∧
      NoRepeat (s.feed path ++ message.toList.map Announce.route) ∧
      ∀ a ∈ message.toList, ∀ l, a.route = some l →
        T.GoodRoute x l ∧ l.getLast? = some (T.info y) := by
  obtain ⟨hpre, hex, horigin, k₀, hk₀, -, hfeed⟩ := hs.task ht
  obtain rfl : k = k₀ := Option.some.inj (hk.symm.trans hk₀)
  cases update with
  | none =>
    refine ⟨_, message_none hpre path, ?_, ?_, ?_, ?_⟩
    · simp [Announce.path]
    · simp [Announce.route, Topology.offer, offer]
    · simpa [route] using noRepeat_concat.mpr ⟨hs.noRepeat path, .inr rfl⟩
    · simp [route]
  | some b =>
    have hshown : shown (s.feed path) = none := by
      rw [hfeed, Option.not_isSome_iff_eq_none.mp fun hsome => hturn (hsome.trans rfl)]
      rfl
    rcases message_some (x := x) (y := y) hpre hex path b with ⟨hoff, hmsg⟩ | ⟨hops, hoff, hmsg⟩
    · refine ⟨_, hmsg, by simp, ?_, ?_, by simp⟩
      · simpa [hoff] using hshown
      · simpa using hs.noRepeat path
    · refine ⟨_, hmsg, ?_, ?_, ?_, ?_⟩
      · simp [Announce.path]
      · simp [route, hoff]
      · simpa [route] using noRepeat_concat.mpr ⟨hs.noRepeat path, .inl hshown⟩
      · intro a ha l hl
        obtain rfl : a = .active path hops := by simpa using ha
        obtain rfl := Option.some.inj hl
        obtain ⟨_, hl', hx, -, -, heq⟩ := offer_eq_some.mp hoff
        obtain rfl := Option.some.inj hl'
        rw [heq, getLast?_concat]
        exact ⟨(hroute b rfl).concat (hs.adj horigin) hx, rfl⟩

/-- Announcing one update. -/
theorem SessionOk.announce (ht : s.task = some t)
    (hk : o.live t.origin = some k) {u : OriginAnnounce} {pending : OriginConsumerState}
    (hk' : o'.live t.origin = some (k.deliver u pending))
    (hf : ∀ {i k}, i ≠ t.origin → o.live i = some k → o'.live i = some k)
    (hturn : (shown (k.log u.1)).isSome ≠ u.2.isSome)
    (hroute : ∀ b, u.2 = some b → T.GoodRoute y b.hops.list) :
    ∃ message, t.message (T.info y) u = .ok message ∧
      SessionOk T y x o' { s with stream := s.stream ++ message.toList } := by
  obtain ⟨path, update⟩ := u
  obtain ⟨message, hmsg, hpath, hlast, hrep, hgood⟩ := hs.message ht hk hturn hroute
  obtain ⟨hpre, hex, horigin, k₀, hk₀, hun, hfeed⟩ := hs.task ht
  obtain rfl : k = k₀ := Option.some.inj (hk.symm.trans hk₀)
  have hsplit : ∀ q, feed { s with stream := s.stream ++ message.toList } q =
      if path = q then s.feed path ++ message.toList.map route else s.feed q := by
    intro q
    rw [feed_append]
    split_ifs with hq
    · subst hq
      congr 1
      cases message with
      | none => rfl
      | some a => simp [hpath a (by simp)]
    · cases message with
      | none => simp
      | some a => simp [hpath a (by simp), hq]
  refine ⟨message, hmsg, hs.adj, fun {i} hi => ?_, hs.interest, fun {t'} ht' => ?_,
    fun hnone => ?_, fun q => ?_, fun a ha => ?_⟩
  · obtain ⟨k', hki, hun'⟩ := hs.origin hi
    by_cases heq : i = t.origin
    · exact ⟨k.deliver (path, update) pending, heq ▸ hk', hun.root, hun.nodes⟩
    · exact ⟨k', hf heq hki, hun'⟩
  · obtain rfl : t = t' := Option.some.inj (ht.symm.trans ht')
    refine ⟨hpre, hex, horigin, _, hk', ⟨hun.root, hun.nodes⟩, fun q => ?_⟩
    rw [hsplit, log_deliver]
    split_ifs with hq
    · rw [hlast, shown_concat]
    · exact hfeed q
  · exact absurd (ht.symm.trans hnone) (by simp)
  · rw [hsplit]
    split_ifs
    · exact hrep
    · exact hs.noRepeat q
  · rcases mem_append.mp ha with ha | ha
    · exact hs.routes a ha
    · exact hgood a ha

end

variable {rest : List Announce} {a : Announce}

/-- Reading one message. -/
theorem SessionOk.read (hs : SessionOk T y x o s) (hstream : s.stream = a :: rest)
    {producers : AList fun _ : Path => BroadcastConsumer}
    (hself : (producers.lookup a.path).map (·.hops.list) = a.route)
    (hother : ∀ path, path ≠ a.path → producers.lookup path = s.producers.lookup path) :
    SessionOk T y x o { s with stream := rest, producers } := by
  have hfeed : ∀ path, s.feed path =
      if a.path = path
      then (s.producers.lookup path).map (·.hops.list) ::
        feed { s with stream := rest, producers } path
      else feed { s with stream := rest, producers } path := by
    intro path
    rw [feed, hstream, filterMap_cons]
    split_ifs with hp
    · subst hp
      rw [feed, hself]
    · rw [feed, hother path (Ne.symm hp)]
  have htail : ∀ path, shown (feed { s with stream := rest, producers } path) =
      shown (s.feed path) := by
    intro path
    rw [hfeed]
    split_ifs
    · rw [shown, shown, feed, getLast?_cons_cons]
    · rfl
  refine ⟨hs.adj, hs.origin, hs.interest, fun ht => ?_, fun hnone path => ?_, fun path => ?_,
    fun b hb => hs.routes b (hstream ▸ mem_cons_of_mem _ hb)⟩
  · obtain ⟨hpre, hex, horigin, k, hk, hun, hoffer⟩ := hs.task ht
    exact ⟨hpre, hex, horigin, k, hk, hun, fun path => (htail path).trans (hoffer path)⟩
  · -- without a task nothing was ever written
    have hidle := hs.idle hnone a.path
    rw [hfeed, if_pos rfl, feed] at hidle
    simp at hidle
  · have hrep := hs.noRepeat path
    rw [hfeed] at hrep
    split_ifs at hrep
    · exact List.IsChain.of_cons hrep
    · exact hrep

/-- A session with messages in its stream runs a task, between linked relays. -/
theorem SessionOk.adj_of_stream (hs : SessionOk T y x o s)
    (hstream : s.stream = a :: rest) : T.graph.Adj y x := by
  cases ht : s.task with
  | none =>
    have hidle := hs.idle ht a.path
    rw [feed, hstream, filterMap_cons, if_pos rfl] at hidle
    simp at hidle
  | some t => exact hs.adj (hs.task ht).2.2.1

/-- A session holds nothing for the path of the announcement it reads next. -/
theorem SessionOk.lookup_of_stream (hs : SessionOk T y x o s)
    (hstream : s.stream = a :: rest) {l : List Origin} (hl : a.route = some l) :
    s.producers.lookup a.path = none := by
  have hrep := hs.noRepeat a.path
  rw [feed, hstream, filterMap_cons, if_pos rfl, hl, NoRepeat,
    isChain_cons_cons] at hrep
  rcases hrep.1 with h | h
  · exact Option.map_eq_none_iff.mp h
  · cases h

end Sessions

/-! ### Relays -/

variable {hops : OriginList}

section Relays

variable {V : Type*} {T : Topology V} {x y : V} {r : Relay V}
  {held held' : V → Path → Option BroadcastConsumer} {o : OriginSystem}

theorem relayOk_init (x : V) :
    RelayOk T x ⟨OriginSystem.init (T.info x), 0, [], ∅⟩ (fun _ _ => none) where
  toggles := OriginSystem.Toggles.init _
  info := rfl
  locals_lt _ h := absurd h not_mem_nil
  upstream_lt h := by simp at h
  closed_lt _ h := absurd h not_mem_nil
  stems _ h := absurd h not_mem_nil
  held h := by cases h

section

variable (hr : RelayOk T x r held) {t : Cleanup}

include hr

/-- What a relay stores has a good hop chain. -/
theorem RelayOk.goodRoute (ht : t ∈ r.origin.cleanups) :
    T.GoodRoute x t.broadcast.hops.list := by
  rcases hr.stems t ht with ⟨-, hnew⟩ | ⟨_, -, -, hgood, -⟩
  · rw [hnew]
    exact ⟨[], rfl, isChain_singleton _, nodup_singleton _⟩
  · exact hgood

/-- Operations that run cleanups, and store broadcasts of applications. -/
theorem RelayOk.setOrigin (ht : o.Toggles)
    (hinfo : o.info = r.origin.info) (hclosed : o.closed = r.origin.closed)
    (hnew : ∀ t ∈ o.cleanups, t ∈ r.origin.cleanups ∨
      t.broadcast.state ∈ r.locals ∧ t.broadcast.hops = OriginList.new)
    (hkeep : ∀ t ∈ r.origin.cleanups,
      t ∈ o.cleanups ∨ t.broadcast.state ∈ r.origin.closed) :
    RelayOk T x { r with origin := o } held where
  toggles := ht
  info := hinfo.trans hr.info
  locals_lt := hr.locals_lt
  upstream_lt := hr.upstream_lt
  closed_lt n hn := hr.closed_lt n (hclosed ▸ hn)
  stems t ht := by
    rcases hnew t ht with hold | hlocal
    · have hstems := hr.stems t hold
      rwa [Stems, ← hclosed] at hstems
    · exact .inl hlocal
  held {y path b} hb := by
    obtain ⟨hup, hopen, t, ht, hfull, hbt⟩ := hr.held hb
    refine ⟨hup, hclosed ▸ hopen, t, ?_, hfull, hbt⟩
    rcases hkeep t ht with ht | ht
    · exact ht
    · exact absurd (hbt ▸ ht) hopen

theorem RelayOk.sameCleanups (ht : o.Toggles)
    (hinfo : o.info = r.origin.info) (hclosed : o.closed = r.origin.closed)
    (hcl : o.cleanups = r.origin.cleanups) : RelayOk T x { r with origin := o } held :=
  hr.setOrigin ht hinfo hclosed (fun _ ht => .inl (hcl ▸ ht)) fun _ ht => .inl (hcl ▸ ht)

/-- An application produces a broadcast. -/
theorem RelayOk.produce :
    RelayOk T x { r with next := r.next + 1, locals := r.next :: r.locals } held where
  toggles := hr.toggles
  info := hr.info
  locals_lt n hn := by
    rcases mem_cons.mp hn with rfl | hn
    · exact lt_succ_self _
    · exact lt_succ_of_lt (hr.locals_lt n hn)
  upstream_lt {n e} he := by
    obtain ⟨hlt, hlocal⟩ := hr.upstream_lt he
    refine ⟨lt_succ_of_lt hlt, fun hn => ?_⟩
    rcases mem_cons.mp hn with rfl | hn
    · exact lt_irrefl _ hlt
    · exact hlocal hn
  closed_lt n hn := lt_succ_of_lt (hr.closed_lt n hn)
  stems t ht := by
    rcases hr.stems t ht with ⟨hlocal, hnew⟩ | hremote
    · exact .inl ⟨mem_cons_of_mem _ hlocal, hnew⟩
    · exact .inr hremote
  held := hr.held

/-- An application publishes a broadcast. -/
theorem RelayOk.publish (ht : o.Toggles)
    (hinfo : o.info = r.origin.info) (hclosed : o.closed = r.origin.closed)
    (hcl : o.cleanups = r.origin.cleanups ++ [t]) (hlocal : t.broadcast.state ∈ r.locals)
    (hnew : t.broadcast.hops = OriginList.new) : RelayOk T x { r with origin := o } held := by
  refine hr.setOrigin ht hinfo hclosed (fun t' ht' => ?_) fun t' ht' => ?_
  · rcases mem_append.mp (hcl ▸ ht') with ht' | ht'
    · exact .inl ht'
    · obtain rfl := mem_singleton.mp ht'
      exact .inr ⟨hlocal, hnew⟩
  · exact .inl (hcl ▸ mem_append_left _ ht')

/-- A broadcast closes: one of an application, or one that its session lets go of. -/
theorem RelayOk.close (ht : o.Toggles)
    (hinfo : o.info = r.origin.info) (hcl : o.cleanups = r.origin.cleanups) {n : ℕ}
    (hclosed : o.closed = n :: r.origin.closed) (hn : n < r.next)
    (hkept : ∀ {y path b}, held' y path = some b → held y path = some b ∧ b.state ≠ n)
    (hlost : ∀ {y path b}, held y path = some b → held' y path = some b ∨ b.state = n) :
    RelayOk T x { r with origin := o } held' where
  toggles := ht
  info := hinfo.trans hr.info
  locals_lt := hr.locals_lt
  upstream_lt := hr.upstream_lt
  closed_lt m hm := by
    rw [hclosed] at hm
    rcases mem_cons.mp hm with rfl | hm
    · exact hn
    · exact hr.closed_lt m hm
  stems t ht := by
    rw [hcl] at ht
    rcases hr.stems t ht with hlocal | ⟨y, hadj, hup, hgood, hlast, hheld⟩
    · exact .inl hlocal
    · refine .inr ⟨y, hadj, hup, hgood, hlast, ?_⟩
      rw [hclosed]
      rcases hheld with hc | hheld
      · exact .inl (mem_cons_of_mem _ hc)
      · rcases hlost hheld with hheld | heq
        · exact .inr hheld
        · exact .inl (mem_cons.mpr (.inl heq))
  held {y path b} hb := by
    obtain ⟨hb, hne⟩ := hkept hb
    obtain ⟨hup, hopen, t, ht, hfull, hbt⟩ := hr.held hb
    refine ⟨hup, ?_, t, hcl ▸ ht, hfull, hbt⟩
    rw [hclosed, mem_cons, not_or]
    exact ⟨hne, hopen⟩

/-- A session announces a broadcast for a path at which it holds none. -/
theorem RelayOk.startAnnounce (hadj : T.graph.Adj y x) (hgood : T.GoodRoute x hops.list)
    (hlast : hops.list.getLast? = some (T.info y)) (hvacant : held y path = none)
    (ht : o.Toggles) (hinfo : o.info = r.origin.info) (hclosed : o.closed = r.origin.closed)
    (hcl : o.cleanups = r.origin.cleanups ++ [⟨0, path, ⟨r.next, hops⟩, path⟩])
    (hself : held' y path = some ⟨r.next, hops⟩)
    (hother : ∀ {y' path'}, (y', path') ≠ (y, path) → held' y' path' = held y' path') :
    RelayOk T x ⟨o, r.next + 1, r.locals, r.upstream.insert r.next (y, path)⟩ held' := by
  have hup : ∀ {n e}, r.upstream.lookup n = some e →
      (r.upstream.insert r.next (y, path)).lookup n = some e := by
    intro n e he
    rwa [AList.lookup_insert_ne (Nat.ne_of_lt (hr.upstream_lt he).1)]
  refine ⟨ht, hinfo.trans hr.info, fun n hn => lt_succ_of_lt (hr.locals_lt n hn), ?_,
    fun n hn => lt_succ_of_lt (hr.closed_lt n (hclosed ▸ hn)), ?_, ?_⟩
  · intro n e he
    by_cases hn : n = r.next
    · subst hn
      exact ⟨lt_succ_self _, fun hlocal => lt_irrefl _ (hr.locals_lt _ hlocal)⟩
    · change (r.upstream.insert r.next (y, path)).lookup n = some e at he
      rw [lookup_insert_ne hn] at he
      obtain ⟨hlt, hlocal⟩ := hr.upstream_lt he
      exact ⟨lt_succ_of_lt hlt, hlocal⟩
  · intro t ht
    change t ∈ o.cleanups at ht
    rw [hcl] at ht
    rcases mem_append.mp ht with ht | ht
    · rcases hr.stems t ht with hlocal | ⟨y', hadj', hup', hgood', hlast', hheld⟩
      · exact .inl hlocal
      · refine .inr ⟨y', hadj', hup hup', hgood', hlast', hheld.imp (fun hc => hclosed ▸ hc) ?_⟩
        intro hheld
        rw [hother, hheld]
        intro heq
        obtain ⟨rfl, hfull⟩ := Prod.mk.inj heq
        rw [hfull, hvacant] at hheld
        cases hheld
    · obtain rfl := mem_singleton.mp ht
      exact .inr ⟨y, hadj, lookup_insert _, hgood, hlast, .inr hself⟩
  · intro y' path' b hb
    by_cases heq : (y', path') = (y, path)
    · obtain ⟨rfl, rfl⟩ := Prod.mk.inj heq
      obtain rfl := Option.some.inj (hself.symm.trans hb)
      refine ⟨lookup_insert _, fun hc => ?_, ⟨0, path', _, path'⟩, ?_, rfl, rfl⟩
      · exact lt_irrefl _ (hr.closed_lt _ (hclosed ▸ hc))
      · rw [hcl]
        exact mem_append_right _ (mem_singleton.mpr rfl)
    · rw [hother heq] at hb
      obtain ⟨hup', hopen, t, ht, hfull, hbt⟩ := hr.held hb
      refine ⟨hup hup', hclosed ▸ hopen, t, ?_, hfull, hbt⟩
      rw [hcl]
      exact mem_append_left _ ht

end

end Relays

/-! ### The cluster -/

namespace Cluster

theorem Ok.init {V : Type*} {T : Topology V} : (init T).Ok T where
  relay x := relayOk_init x
  session _ _ := sessionOk_init _
  distinct h := by cases h

section Steps

variable {V : Type*} [DecidableEq V] {T : Topology V} {x y z : V} {c : Cluster V} {r r' : Relay V}
  {s s' : Session} {o : OriginSystem}

theorem relays_setRelay : (c.setRelay x r).relays z = if z = x then r else c.relays z :=
  Function.update_apply _ _ _ _

theorem sessions_setSession {y' x' : V} :
    (c.setSession y x s).sessions y' x' = if y' = y ∧ x' = x then s else c.sessions y' x' := by
  rw [setSession]
  by_cases hy : y' = y
  · subst hy
    simp [Function.update_apply]
  · simp [hy]

theorem act_of_step {op : OriginOp} (h : (c.relays x).origin.step op = .ok o) :
    c.act x op = .ok (c.setRelay x { c.relays x with origin := o }) := by
  rw [act, h]

theorem held_setSession (hp : s.producers = (c.sessions y x).producers) :
    (c.setSession y x s).held = c.held := by
  funext z y' path
  rw [held, sessions_setSession, held]
  split_ifs with h
  · rw [h.1, h.2, hp]
  · rfl

/-- A step that concerns the origin of one relay only. -/
theorem Ok.setRelay (hc : c.Ok T) (hr : RelayOk T x r (c.held x))
    (hf : OriginSystem.Frame (c.relays x).origin r.origin) : (c.setRelay x r).Ok T where
  relay z := by
    rw [relays_setRelay]
    split_ifs with hz
    · exact hz ▸ hr
    · exact hc.relay z
  session y' x' := by
    rw [relays_setRelay]
    split_ifs with hz
    · subst hz
      exact (hc.session y' x').frame hf
    · exact hc.session y' x'
  distinct := hc.distinct

/-- A step of a publisher. -/
theorem Ok.publisher (hc : c.Ok T) (hr : RelayOk T y r (c.held y))
    (hs : SessionOk T y x r.origin s) (hp : s.producers = (c.sessions y x).producers)
    (hother : ∀ {x'}, x' ≠ x → SessionOk T y x' r.origin (c.sessions y x'))
    (hd : ∀ {x' t t'}, x' ≠ x → s.task = some t → (c.sessions y x').task = some t' →
      t.origin ≠ t'.origin) :
    ((c.setRelay y r).setSession y x s).Ok T where
  relay z := by
    have hheld : ((c.setRelay y r).setSession y x s).held = c.held :=
      held_setSession (c := c.setRelay y r) hp
    rw [hheld]
    change RelayOk T z ((c.setRelay y r).relays z) (c.held z)
    rw [relays_setRelay]
    split_ifs with hz
    · exact hz ▸ hr
    · exact hc.relay z
  session y' x' := by
    change SessionOk T y' x' ((c.setRelay y r).relays y').origin _
    rw [relays_setRelay, sessions_setSession]
    by_cases hy : y' = y
    · subst hy
      rw [if_pos rfl]
      by_cases hx : x' = x
      · subst hx
        rwa [if_pos ⟨rfl, rfl⟩]
      · rw [if_neg fun h => hx h.2]
        exact hother hx
    · rw [if_neg hy, if_neg fun h => hy h.1]
      exact hc.session y' x'
  distinct {y' x₁ x₂ t₁ t₂} h₁ h₂ heq := by
    rw [sessions_setSession] at h₁ h₂
    by_cases hy : y' = y
    · subst hy
      by_cases hx₁ : x₁ = x <;> by_cases hx₂ : x₂ = x
      · rw [hx₁, hx₂]
      · rw [if_pos ⟨rfl, hx₁⟩] at h₁
        rw [if_neg fun h => hx₂ h.2] at h₂
        exact absurd heq (hd hx₂ h₁ h₂)
      · rw [if_neg fun h => hx₁ h.2] at h₁
        rw [if_pos ⟨rfl, hx₂⟩] at h₂
        exact absurd heq.symm (hd hx₁ h₂ h₁)
      · rw [if_neg fun h => hx₁ h.2] at h₁
        rw [if_neg fun h => hx₂ h.2] at h₂
        exact hc.distinct h₁ h₂ heq
    · rw [if_neg fun h => hy h.1] at h₁ h₂
      exact hc.distinct h₁ h₂ heq

/-- A step of a subscriber. -/
theorem Ok.subscriber (hc : c.Ok T)
    (hr : RelayOk T x r (((c.setRelay x r).setSession y x s).held x))
    (hf : OriginSystem.Frame (c.relays x).origin r.origin)
    (hs : SessionOk T y x (c.relays y).origin s) (htask : s.task = (c.sessions y x).task) :
    ((c.setRelay x r).setSession y x s).Ok T where
  relay z := by
    change RelayOk T z ((c.setRelay x r).relays z) _
    rw [relays_setRelay]
    split_ifs with hz
    · exact hz ▸ hr
    · have hheld : ((c.setRelay x r).setSession y x s).held z = c.held z := by
        funext y' path
        rw [held, sessions_setSession, if_neg fun h => hz h.2]
        rfl
      rw [hheld]
      exact hc.relay z
  session y' x' := by
    have hs' : SessionOk T y' x' (c.relays y').origin
        (((c.setRelay x r).setSession y x s).sessions y' x') := by
      rw [sessions_setSession]
      split_ifs with h
      · rw [h.1, h.2]
        exact hs
      · exact hc.session y' x'
    change SessionOk T y' x' ((c.setRelay x r).relays y').origin _
    rw [relays_setRelay]
    split_ifs with hz
    · subst hz
      exact hs'.frame hf
    · exact hs'
  distinct {y' x₁ x₂ t₁ t₂} h₁ h₂ heq := by
    have hsame : ∀ y' x', (((c.setRelay x r).setSession y x s).sessions y' x').task =
        (c.sessions y' x').task := by
      intro y' x'
      rw [sessions_setSession]
      split_ifs with h
      · rw [h.1, h.2, htask]
      · rfl
    rw [hsame] at h₁ h₂
    exact hc.distinct h₁ h₂ heq

variable {rest : List Announce}

/-- An ended announcement is no longer held, and every other one is. -/
theorem held_erase {path path' : Path} {y' : V} :
    ((c.setRelay z r).setSession y x { c.sessions y x with
      stream := rest, producers := (c.sessions y x).producers.erase path }).held x y' path' =
      if y' = y ∧ path' = path then none else c.held x y' path' := by
  rw [held, sessions_setSession]
  by_cases hy : y' = y
  · subst hy
    by_cases hp : path' = path
    · subst hp
      rw [if_pos ⟨rfl, rfl⟩, if_pos ⟨rfl, rfl⟩]
      exact lookup_erase _ _
    · rw [if_pos ⟨rfl, rfl⟩, if_neg fun h => hp h.2]
      exact lookup_erase_ne hp
  · rw [if_neg fun h => hy h.1, if_neg fun h => hy h.1]
    rfl

theorem setRelay_self : c.setRelay x (c.relays x) = c := by
  simp [setRelay]

theorem setRelay_setSession_setRelay :
    ((c.setRelay x r).setSession y x s).setRelay x r' = (c.setRelay x r').setSession y x s := by
  simp [setRelay, setSession]

theorem setSession_setRelay_setSession :
    ((c.setSession y x s).setRelay z r).setSession y x s' = (c.setRelay z r).setSession y x s' := by
  simp [setRelay, setSession]

theorem setSession_setSession :
    (c.setSession y x s).setSession y x s' = c.setSession y x s' := by
  simp [setSession]

/-- The accepted part of `start_announce`. -/
theorem startAnnounce_eq (hr : c.relays x = r) (hs : c.sessions y x = s)
    (hself : hops.contains r.origin.info = false) (hlen : hops.len ≠ 0)
    (hvacant : s.producers.lookup path = none)
    (hrun : r.origin.step (.publish 0 path ⟨r.next, hops⟩) = .ok o) :
    c.startAnnounce T y x path hops =
      .ok ((c.setRelay x ⟨o, r.next + 1, r.locals, r.upstream.insert r.next (y, path)⟩).setSession
        y x { s with producers := s.producers.insert path ⟨r.next, hops⟩ }) := by
  subst hr hs
  rw [startAnnounce, hself, if_neg Bool.false_ne_true, if_neg hlen]
  simp only [hvacant]
  rw [act_of_step, setRelay_setSession_setRelay]
  · change Except.ok ((c.setRelay x { (c.setRelay x _).relays x with origin := o }).setSession
      y x _) = _
    rw [relays_setRelay, if_pos rfl]
  · change ((c.setRelay x _).relays x).origin.step _ = _
    rw [relays_setRelay, if_pos rfl]
    exact hrun

variable [DecidableRel T.graph.Adj] {suffix : Path}

section

variable (hc : c.Ok T) (x) (y)

include hc

/-- A broadcast that an application publishes is live at its path. -/
theorem Ok.publish_local {x : V} {path : Path} {state : ℕ}
    (hlocal : state ∈ (c.relays x).locals) (hfresh : c.Fresh (.publish x path state)) :
    ∃ c', c.step T (.publish x path state) = .ok c' ∧ c'.Ok T ∧
      (state ∉ (c.relays x).origin.closed → c'.LocalAt path x) := by
  have hr := hc.relay x
  obtain ⟨_, hrun, ht, hf, hcl, hclosed⟩ := publish_spec hr.toggles
    (b := ⟨state, new⟩) rfl hfresh
  refine ⟨_, (if_pos hlocal).trans (act_of_step hrun),
    hc.setRelay (hr.publish ht hf.info hclosed hcl hlocal rfl) hf, fun hopen => ?_⟩
  rw [LocalAt, relays_setRelay, if_pos rfl]
  refine ⟨_, hcl ▸ mem_append_right _ (mem_singleton_self _), rfl, hlocal, ?_⟩
  rwa [hclosed]

/-- A broadcast that an application closes is closed, and live at no path any more. -/
theorem Ok.close_local {x : V} {state : ℕ} (hlocal : state ∈ (c.relays x).locals) :
    ∃ c', c.step T (.close x state) = .ok c' ∧ c'.Ok T ∧
      state ∈ (c'.relays x).origin.closed := by
  have hr := hc.relay x
  obtain ⟨_, hrun, ht, hf, hcl, hclosed⟩ := close_spec hr.toggles state
  refine ⟨_, (if_pos hlocal).trans (act_of_step hrun), hc.setRelay ?_ hf, ?_⟩
  · refine hr.close ht hf.info hcl hclosed (hr.locals_lt state hlocal) (fun hb => ⟨hb, ?_⟩) .inl
    rintro rfl
    exact (hr.upstream_lt (hr.held hb).1).2 hlocal
  · rw [relays_setRelay, if_pos rfl, hclosed]
    exact mem_cons_self

theorem Ok.cleanup (x : V) (task : ℕ) :
    ∃ c', c.step T (.cleanup x task) = .ok c' ∧ c'.Ok T := by
  have hr := hc.relay x
  obtain ⟨_, hrun, ht, hf, hclosed, hsub, hkeep⟩ := cleanup_spec hr.toggles task
  exact ⟨_, act_of_step hrun,
    hc.setRelay (hr.setOrigin ht hf.info hclosed (fun t ht => .inl (hsub t ht)) hkeep) hf⟩

/-- A relay that connects keeps the invariant. -/
theorem Ok.connect :
    ∃ c', c.step T (.connect y x) = .ok c' ∧ c'.Ok T := by
  rw [step]
  split_ifs with h
  · obtain ⟨hadj, hnone⟩ := h
    have hr := hc.relay y
    obtain ⟨o, k, hrun, ht, hf, hcl, hclosed, hcons, hun, -, hd⟩ :=
      consume_spec hr.toggles
    have hk : o.live (c.relays y).origin.consumers.length = some k := by
      refine live_eq_some_iff.mpr ⟨?_, hd⟩
      rw [hcons, getElem?_concat_length]
    rw [act_of_step hrun]
    refine ⟨_, rfl, hc.publisher ?_ ((hc.session y x).connect hnone hadj hk hun) rfl ?_ ?_⟩
    · exact hr.sameCleanups ht hf.info hclosed hcl
    · exact fun hx => (hc.session y _).frame hf
    · intro x' t t' hx h₁ h₂ heq
      exact hx (hc.distinct h₁ h₂ heq).symm
  · exact ⟨c, rfl, hc⟩

/-- An announcement that is received keeps the invariant. -/
theorem Ok.recvAnnounce :
    ∃ c', c.step T (.recvAnnounce y x) = .ok c' ∧ c'.Ok T := by
  rw [step]
  cases hi : (c.sessions y x).origin with
  | none => exact ⟨c, rfl, hc⟩
  | some i =>
    cases hm : (c.sessions y x).interest with
    | none => exact ⟨c, rfl, hc⟩
    | some m =>
      have hr := hc.relay y
      have hs := hc.session y x
      obtain ⟨_, hk₀, hun₀⟩ := hs.origin hi
      obtain ⟨o, k, hrun, ht, hf, hcl, hclosed, hcons, hun, hnew, hd⟩ :=
        consumerScope_spec hr.toggles hk₀ hun₀
      have hk : o.consumers[(c.relays y).origin.consumers.length]? = some k := by
        rw [hcons, getElem?_concat_length]
      have hlive := live_eq_some_iff.mpr ⟨hk, hd⟩
      rw [← (hs.interest hm).1] at hrun
      simp only [Cluster.recvAnnounce, act_of_step hrun, relays_setRelay, if_true, hk,
        Option.map_some]
      refine ⟨_, rfl, hc.publisher ?_ (hs.recvAnnounce hi hm (fun hk => hf.consumers hk) hlive
        hun hnew) rfl ?_ ?_⟩
      · exact hr.sameCleanups ht hf.info hclosed hcl
      · exact fun hx => (hc.session y _).frame hf
      · -- the other tasks read older consumers
        intro x' t t' hx h₁ h₂
        obtain rfl := Option.some.inj h₁
        obtain ⟨-, -, -, _, hk', -⟩ := (hc.session y x').task h₂
        have hlt := (List.getElem?_eq_some_iff.mp (live_eq_some_iff.mp hk').1).1
        exact ne_of_gt hlt

/-- An announcement that is sent keeps the invariant. -/
theorem Ok.announce :
    ∃ c', c.step T (.announce y x) = .ok c' ∧ c'.Ok T := by
  rw [step]
  cases ht : (c.sessions y x).task with
  | none => exact ⟨c, rfl, hc⟩
  | some t =>
    have hr := hc.relay y
    have hs := hc.session y x
    obtain ⟨-, -, -, k, hk, hun, -⟩ := hs.task ht
    cases htake : k.pending.take with
    | none =>
      simp only [Cluster.announce, hk, Option.bind_some, htake]
      exact ⟨c, rfl, hc⟩
    | some u =>
      obtain ⟨u, _⟩ := u
      obtain ⟨_, hrun, htog, hinfo, hcl, hclosed, hother, hlive, hturn, hact⟩ :=
        poll_spec hr.toggles hk hun htake
      have hroute : ∀ b, u.2 = some b → T.GoodRoute y b.hops.list := by
        intro b hb
        obtain ⟨t', ht', -, rfl⟩ :=
          hr.toggles.rooted.mem_stored_iff.mp (mem_stored_of_active (hact b hb))
        exact hr.goodRoute ht'
      obtain ⟨_, hmsg, hs'⟩ := hs.announce ht hk hlive
        (fun hne hk => hother hk hne) hturn hroute
      simp only [Cluster.announce, hk, Option.bind_some, htake, act_of_step hrun, hmsg]
      refine ⟨_, rfl, hc.publisher ?_ hs' rfl ?_ ?_⟩
      · exact hr.sameCleanups htog hinfo hclosed hcl
      · intro x' hx
        refine (hc.session y x').congr (fun {i k'} hi hk' => ?_) fun {t' k'} ht' hk' => ?_
        · by_cases heq : i = t.origin
          · subst heq
            obtain rfl : k = k' := Option.some.inj (hk.symm.trans hk')
            exact ⟨_, hlive, rfl, rfl⟩
          · exact ⟨k', hother hk' heq, rfl, rfl⟩
        · have hne : t'.origin ≠ t.origin := fun heq => hx (hc.distinct ht' ht heq)
          exact ⟨k', hother hk' hne, rfl, rfl, rfl, rfl⟩
      · intro x' t₁ t₂ hx h₁ h₂ heq
        exact hx (hc.distinct h₁ h₂ heq).symm

end

/-! ### Reading messages -/

/-- An announcement is accepted and published. -/
theorem Ok.receive_active (hc : c.Ok T)
    (hstream : (c.sessions y x).stream = .active suffix hops :: rest) :
    ∃ c', c.step T (.receive y x) = .ok c' ∧ c'.Ok T := by
  have hr := hc.relay x
  have hs := hc.session y x
  have hvacant : (c.sessions y x).producers.lookup suffix = none := hs.lookup_of_stream hstream rfl
  obtain ⟨hgood, hlast⟩ := hs.routes _ (hstream ▸ mem_cons_self) hops.list rfl
  have hself : hops.contains (c.relays x).origin.info = false := by
    rw [OriginList.contains, hr.info]
    exact decide_eq_false hgood.notMem
  have hlen : hops.len ≠ 0 := by
    intro hzero
    rw [length_eq_zero_iff.mp hzero] at hlast
    cases hlast
  have hfresh : (c.relays x).origin.Fresh (.publish 0 suffix ⟨(c.relays x).next, hops⟩) := by
    refine OriginSystem.fresh_unscoped hr.toggles.rooted hself fun t ht _ => Nat.ne_of_lt ?_
    rcases hr.stems t ht with ⟨hlocal, -⟩ | ⟨_, -, hup, -⟩
    · exact hr.locals_lt _ hlocal
    · exact (hr.upstream_lt hup).1
  obtain ⟨o, hrun, ht, hf, hcl, hclosed⟩ := publish_spec hr.toggles hself hfresh
  have hstep : c.step T (.receive y x) = .ok ((c.setRelay x ⟨o, (c.relays x).next + 1,
      (c.relays x).locals, (c.relays x).upstream.insert (c.relays x).next (y, suffix)⟩).setSession
        y x { c.sessions y x with
          stream := rest
          producers := (c.sessions y x).producers.insert suffix ⟨(c.relays x).next, hops⟩ }) := by
    simp only [step, hstream, receive, empty_join]
    rw [startAnnounce_eq (s := { c.sessions y x with stream := rest }) rfl
      (sessions_setSession.trans (if_pos ⟨rfl, rfl⟩)) hself hlen hvacant hrun,
      setSession_setRelay_setSession]
    rfl
  refine ⟨_, hstep, hc.subscriber ?_ hf ?_ rfl⟩
  · refine hr.startAnnounce (hs.adj_of_stream hstream) hgood hlast hvacant ht hf.info hclosed hcl
      ?_ fun {y' path'} hne => ?_
    · rw [held, sessions_setSession, if_pos ⟨rfl, rfl⟩]
      exact lookup_insert _
    · rw [held, sessions_setSession]
      split_ifs with h
      · have hpath : path' ≠ suffix := fun heq => hne (Prod.ext h.1 heq)
        exact (lookup_insert_ne hpath).trans (by rw [held, h.1])
      · rfl
  · refine hs.read hstream ?_ fun path hne => lookup_insert_ne hne
    rw [path, lookup_insert]
    rfl

/-- The end of a route closes the broadcast that was held for it. -/
theorem Ok.receive_ended (hc : c.Ok T)
    (hstream : (c.sessions y x).stream = .ended suffix hops :: rest) :
    ∃ c', c.step T (.receive y x) = .ok c' ∧ c'.Ok T := by
  have hr := hc.relay x
  have hs := hc.session y x
  have hstep : c.step T (.receive y x) =
      (c.setSession y x { c.sessions y x with stream := rest }).receive T y x empty
        (.ended suffix hops) := by
    simp only [step, hstream]
  rw [hstep, receive, empty_join]
  simp only [sessions_setSession, and_self, if_true, setSession_setSession]
  cases hb : (c.sessions y x).producers.lookup suffix with
  | none =>
    have hok : ((c.setRelay x (c.relays x)).setSession y x
        { c.sessions y x with stream := rest }).Ok T := by
      refine hc.subscriber ?_ (OriginSystem.Frame.refl _) ?_ rfl
      · rw [held_setSession, setRelay_self]
        · exact hr
        · rfl
      · refine hs.read hstream ?_ fun path _ => rfl
        rw [path, hb]
        rfl
    rw [setRelay_self] at hok
    exact ⟨_, rfl, hok⟩
  | some b =>
    obtain ⟨hup, -, -⟩ := hr.held hb
    obtain ⟨o, hrun, ht, hf, hcl, hclosed⟩ := close_spec hr.toggles b.state
    have hok : ((c.setRelay x { c.relays x with origin := o }).setSession y x
        { c.sessions y x with
          stream := rest, producers := (c.sessions y x).producers.erase suffix }).Ok T := by
      refine hc.subscriber ?_ hf ?_ rfl
      · refine hr.close ht hf.info hcl hclosed (hr.upstream_lt hup).1 ?_ ?_
        · intro y' path b' hb'
          rw [held_erase] at hb'
          split_ifs at hb' with h
          refine ⟨hb', fun hstate => h ?_⟩
          have hup' := (hr.held hb').1
          rw [hstate, hup] at hup'
          obtain ⟨rfl, rfl⟩ := Prod.mk.inj (Option.some.inj hup')
          exact ⟨rfl, rfl⟩
        · intro y' path b' hb'
          rw [held_erase]
          split_ifs with h
          · rw [h.1, h.2] at hb'
            exact .inr (congrArg BroadcastConsumer.state (Option.some.inj (hb'.symm.trans hb)))
          · exact .inl hb'
      · refine hs.read hstream ?_ fun path hne => lookup_erase_ne hne
        rw [path, lookup_erase]
        rfl
    exact ⟨_, act_of_step hrun, hok⟩

/-- Every step of a cluster that publishes no duplicate keeps the invariant, without failure. -/
theorem Ok.step (hc : c.Ok T) {op : ClusterOp V} (hfresh : c.Fresh op) :
    ∃ c', c.step T op = .ok c' ∧ c'.Ok T := by
  cases op with
  | produce x =>
    exact ⟨_, rfl, hc.setRelay (hc.relay x).produce (OriginSystem.Frame.refl _)⟩
  | publish x path state =>
    by_cases hlocal : state ∈ (c.relays x).locals
    · obtain ⟨c', hrun, hok, -⟩ := hc.publish_local hlocal hfresh
      exact ⟨c', hrun, hok⟩
    · exact ⟨c, if_neg hlocal, hc⟩
  | close x state =>
    by_cases hlocal : state ∈ (c.relays x).locals
    · obtain ⟨c', hrun, hok, -⟩ := hc.close_local hlocal
      exact ⟨c', hrun, hok⟩
    · exact ⟨c, if_neg hlocal, hc⟩
  | cleanup x task => exact hc.cleanup x task
  | connect y x => exact hc.connect x y
  | recvAnnounce y x => exact hc.recvAnnounce x y
  | announce y x => exact hc.announce x y
  | receive y x =>
    cases hstream : (c.sessions y x).stream with
    | nil =>
      refine ⟨c, ?_, hc⟩
      simp only [Cluster.step, hstream]
    | cons message rest =>
      cases message with
      | active suffix hops => exact hc.receive_active hstream
      | ended suffix hops => exact hc.receive_ended hstream

end Steps

end Cluster

end HermitMoq
