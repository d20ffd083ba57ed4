import HermitMoq.Path

/-!
# Addresses in the Gossip Mesh

Relays in mesh mode (`moq-relay/src/cluster.rs`) advertise their node string as a broadcast path
under the mesh prefix, and learn those of the others by reading the relative paths back. Of two
relays the one whose string sorts first dials the other. A node string is a URL or a bare
`host:port`; paths do not keep the slashes of a URL. Parsing of URLs is a parameter.
-/

namespace HermitMoq

open List

namespace Mesh

/-! ### The code -/

/-- `MESH_PREFIX`. -/
def meshPrefix : Path := Path.new ".internal/origins".toList

/-- The path that `Cluster::run` advertises for a node string. -/
def advertised (node : List Char) : Path := meshPrefix.join (Path.new node)

/-- What `run_discovery` reads for an announced path: the path relative to the mesh prefix. -/
def relative (path : Path) : Option (List Char) := (path.stripPrefix meshPrefix).map Path.chars

/-- The string that relays obtain for a node. -/
def learned (node : List Char) : Option (List Char) := relative (advertised node)

/-- `should_dial`. Strings are compared by their bytes in UTF-8, which is the order of their
characters. -/
def shouldDial (selfUrl peer : List Char) : Bool := decide (selfUrl < peer)

/-- The delimiters of a URL; a backslash is one as well for `https`. -/
def delimiters : List Char := ['/', '?', '#', '\\']

/-- A scheme. -/
structure Scheme (s : List Char) : Prop where
  ne_nil : s ≠ []
  colon : ':' ∉ s
  clean : ∀ c ∈ delimiters, c ∉ s

/-- A `host` or `host:port`. -/
structure Authority (a : List Char) : Prop where
  ne_nil : a ≠ []
  clean : ∀ c ∈ delimiters, c ∉ a

/-- The URL of a host. -/
def rootUrl (scheme authority : List Char) : List Char :=
  scheme ++ ':' :: '/' :: '/' :: (authority ++ ['/'])

/-- `url::Url`. -/
structure UrlParser where
  Url : Type
  /-- `Url::parse`. -/
  parse : List Char → Option Url
  /-- `scheme://authority/` is the root of a host; `https://scheme:/authority/` is a page of
  another host, or an error. -/
  parse_ne : ∀ {scheme authority u}, Scheme scheme → Authority authority →
    parse (rootUrl scheme authority) = some u →
    parse (rootUrl "https".toList (scheme ++ ':' :: '/' :: authority)) ≠ some u

/-- `peer_url`. -/
def peerUrl (U : UrlParser) (peer : List Char) : Option U.Url :=
  if [':', '/', '/'] <:+: peer then U.parse peer
  else U.parse (rootUrl "https".toList peer)

/-! ### Relays -/

/-- A node string: the URL of a host, or a bare `host:port`. -/
inductive Node
  | url (scheme authority : List Char) (hs : Scheme scheme) (ha : Authority authority)
  | bare (authority : List Char) (ha : Authority authority)

namespace Node

/-- The characters of the string. -/
def text : Node → List Char
  | url scheme authority _ _ => rootUrl scheme authority
  | bare authority _ => authority

/-- A bare `host:port`. -/
def isBare : Node → Bool
  | url .. => false
  | bare .. => true

/-- The `host:port` of a node. -/
def authority : Node → List Char
  | url _ authority _ _ => authority
  | bare authority _ => authority

end Node

/-- A relay in mesh mode, whose node string resolves to a URL. -/
structure Relay (U : UrlParser) where
  node : Node
  resolves : (peerUrl U node.text).isSome

variable {U : UrlParser}

/-- A relay passes `should_dial` for the announcement of a relay. -/
def Relay.dials (r peer : Relay U) : Bool := (learned peer.node.text).any (shouldDial r.node.text)

/-- What is expected of a mesh: peers resolve to the URLs of their own node strings, no relay
dials itself, and of every two relays exactly one dials the other. -/
structure Addressing (relays : List (Relay U)) : Prop where
  resolves : ∀ r ∈ relays, ∀ peer ∈ relays, r.node.text ≠ peer.node.text →
    (learned peer.node.text).bind (peerUrl U) = peerUrl U peer.node.text
  self : ∀ r ∈ relays, r.dials r = false
  one : ∀ r ∈ relays, ∀ peer ∈ relays, r.node.text ≠ peer.node.text →
    r.dials peer ≠ peer.dials r

/-! ### What is read back -/

/-- The path of the node string is read back. -/
theorem learned_eq (node : List Char) : learned node = some (Path.new node).chars := by
  have hstrip : (advertised node).stripPrefix meshPrefix = some (Path.new node) :=
    Path.stripPrefix_eq_some_iff.mpr (Path.parts_join _ _)
  rw [learned, relative, hstrip, Option.map_some]

variable {a : List Char}

theorem Authority.splitOn (h : Authority a) : a.splitOn '/' = [a] := by
  have hslash := h.clean '/' (by decide)
  have hjoin : ['/'].intercalate [a] = a := by simp [intercalate]
  have hsplit : (['/'].intercalate [a]).splitOn '/' = [a] :=
    splitOn_intercalate '/' (by simpa using hslash) (cons_ne_nil _ _)
  rwa [hjoin] at hsplit

/-- A bare node string is read back as it is. -/
theorem learned_bare (h : Authority a) : learned a = some a := by
  have hnormal : Normal a := Or.inr (by simp [h.splitOn, h.ne_nil.symm])
  rw [learned_eq, Path.new_chars ⟨a, hnormal⟩]

variable {s : List Char}

/-- Trimming takes the last slash of a URL. -/
theorem trim_rootUrl (hs : Scheme s) (ha : Authority a) :
    Path.trim (rootUrl s a) = s ++ ':' :: '/' :: '/' :: a := by
  have hhead : (rootUrl s a).dropWhile (· = '/') = rootUrl s a := by
    obtain ⟨c, _, rfl⟩ := exists_cons_of_ne_nil hs.ne_nil
    have hc : c ≠ '/' := fun h => hs.clean '/' (by decide) (by simp [h])
    rw [rootUrl, cons_append, dropWhile_cons_of_neg (by simpa using hc)]
  have hlast : (s ++ ':' :: '/' :: '/' :: a).rdropWhile (· = '/') =
      s ++ ':' :: '/' :: '/' :: a := by
    obtain ⟨a', c, rfl⟩ := (eq_nil_or_concat' a).resolve_left ha.ne_nil
    have hc : c ≠ '/' := fun h => ha.clean '/' (by decide) (by simp [h])
    rw [show s ++ ':' :: '/' :: '/' :: (a' ++ [c]) = (s ++ ':' :: '/' :: '/' :: a') ++ [c] by simp,
      rdropWhile_concat_neg _ _ _ (by simpa using hc)]
  rw [Path.trim, hhead, rootUrl,
    show s ++ ':' :: '/' :: '/' :: (a ++ ['/']) = (s ++ ':' :: '/' :: '/' :: a) ++ ['/'] by simp,
    rdropWhile_concat_pos _ _ _ (by decide), hlast]

/-- The URL of a host is read back without one of its slashes and without the last one. -/
theorem learned_url (hs : Scheme s) (ha : Authority a) :
    learned (rootUrl s a) = some (s ++ ':' :: '/' :: a) := by
  rw [learned_eq]
  have hsplit : (s ++ ':' :: '/' :: '/' :: a).splitOn '/' = [s ++ [':'], [], a] := by
    have hscheme : '/' ∉ s ++ [':'] := by
      simpa using hs.clean '/' (by decide)
    rw [show s ++ ':' :: '/' :: '/' :: a = (s ++ [':']) ++ '/' :: ([] ++ '/' :: a) by simp,
      splitOn_append_cons_self_of_not_mem hscheme,
      splitOn_append_cons_self_of_not_mem not_mem_nil, ha.splitOn]
  have hdouble : ['/', '/'] <:+: s ++ ':' :: '/' :: '/' :: a := ⟨s ++ [':'], a, by simp⟩
  change some (Path.normalize (rootUrl s a)) = _
  rw [Path.normalize, trim_rootUrl hs ha, if_pos hdouble, hsplit]
  simp [ha.ne_nil, intercalate]

/-! ### Who dials whom -/

theorem append_lt_append_iff (p : List Char) {x y : List Char} : p ++ x < p ++ y ↔ x < y := by
  refine ⟨fun h => ?_, append_left_lt⟩
  induction p with
  | nil => exact h
  | cons c p ih =>
    rcases cons_lt_cons_iff.mp h with hlt | ⟨-, hlt⟩
    · exact absurd hlt (lt_irrefl c)
    · exact ih hlt

/-- A node whose `host:port` starts with a character before the slash. -/
def Node.low (n : Node) : Bool := n.authority.head?.any (· < '/')

/-- A relay with a URL dials itself, unless its host starts with a character before the slash. -/
theorem shouldDial_self_url (ha : Authority a) :
    shouldDial (rootUrl s a) (s ++ ':' :: '/' :: a) = !a.head?.any (· < '/') := by
  obtain ⟨c, a', rfl⟩ := exists_cons_of_ne_nil ha.ne_nil
  have hc : c ≠ '/' := fun h => ha.clean '/' (by decide) (by simp [h])
  have hlt : rootUrl s (c :: a') < s ++ ':' :: '/' :: c :: a' ↔ '/' < c := by
    rw [show rootUrl s (c :: a') = (s ++ [':', '/']) ++ '/' :: (c :: a' ++ ['/']) by simp [rootUrl],
      show s ++ ':' :: '/' :: c :: a' = (s ++ [':', '/']) ++ c :: a' by simp,
      append_lt_append_iff, cons_lt_cons_iff]
    exact ⟨fun h => h.resolve_right fun heq => hc heq.1.symm, .inl⟩
  rw [shouldDial, Bool.eq_iff_iff, decide_eq_true_iff, hlt]
  simp only [head?_cons, Option.any_some, Bool.not_eq_true', decide_eq_false_iff_not, not_lt]
  exact ⟨le_of_lt, fun h => lt_of_le_of_ne h hc.symm⟩

theorem dials_eq_of_bare {r peer : Relay U} (h : peer.node.isBare = true) :
    r.dials peer = shouldDial r.node.text peer.node.text := by
  rw [Relay.dials]
  cases hnode : peer.node with
  | url => simp [hnode, Node.isBare] at h
  | bare a ha => rw [Node.text, learned_bare ha, Option.any_some]

theorem dials_self {r : Relay U} : r.dials r = (!r.node.isBare && !r.node.low) := by
  rw [Relay.dials]
  cases hnode : r.node with
  | url s a hs ha =>
    simp only [Node.text, learned_url hs ha, Option.any_some, Node.isBare, Node.low,
      Node.authority, Bool.not_false, Bool.true_and]
    exact shouldDial_self_url ha
  | bare a ha =>
    simp [Node.text, learned_bare ha, Node.isBare, shouldDial]

/-- A peer with a URL resolves to another one. -/
theorem resolves_iff {peer : Relay U} :
    (learned peer.node.text).bind (peerUrl U) = peerUrl U peer.node.text ↔
      peer.node.isBare = true := by
  cases hnode : peer.node with
  | bare a ha => simp [Node.text, learned_bare ha, Node.isBare]
  | url s a hs ha =>
    have hfull : [':', '/', '/'] <:+: rootUrl s a := ⟨s, a ++ ['/'], by simp [rootUrl]⟩
    -- what is read back has a single slash
    have hlegacy : ¬ [':', '/', '/'] <:+: s ++ ':' :: '/' :: a := fun hin => by
      have hscheme := count_eq_zero_of_not_mem (hs.clean '/' (by decide))
      have hauthority := count_eq_zero_of_not_mem (ha.clean '/' (by decide))
      have hcount := hin.sublist.count_le '/'
      simp [count_append, hscheme, hauthority] at hcount
    obtain ⟨_, hu⟩ := Option.isSome_iff_exists.mp peer.resolves
    rw [hnode] at hu
    rw [Node.text, peerUrl, if_pos hfull] at hu
    rw [Node.text, learned_url hs ha, Option.bind_some, peerUrl, if_neg hlegacy, peerUrl,
      if_pos hfull, hu]
    exact iff_of_false (U.parse_ne hs ha hu) nofun

theorem shouldDial_ne {b : List Char} (h : a ≠ b) : shouldDial a b ≠ shouldDial b a := by
  rw [shouldDial, shouldDial]
  rcases lt_or_gt_of_ne h with hlt | hlt
  · simp [hlt, not_lt.mpr hlt.le]
  · simp [hlt, not_lt.mpr hlt.le]

/-- **The meshes with the expected addressing**: those of bare nodes only, and single relays whose
host starts with a character before the slash. -/
theorem addressing_iff (relays : List (Relay U)) :
    Addressing relays ↔
      (∀ r ∈ relays, r.node.isBare = true) ∨
        (∀ r ∈ relays, ∀ peer ∈ relays, r.node.text = peer.node.text) ∧
          ∀ r ∈ relays, r.node.isBare = true ∨ r.node.low = true := by
  constructor
  · intro h
    by_cases hbare : ∀ r ∈ relays, r.node.isBare = true
    · exact .inl hbare
    · push Not at hbare
      obtain ⟨peer, hpeer, hurl⟩ := hbare
      -- a second relay would not resolve this one
      have hsame : ∀ r ∈ relays, r.node.text = peer.node.text := fun r hr => by
        by_contra hne
        exact hurl (resolves_iff.mp (h.resolves r hr peer hpeer hne))
      refine .inr ⟨fun r hr r' hr' => (hsame r hr).trans (hsame r' hr').symm, fun r hr => ?_⟩
      have hself := h.self r hr
      rw [dials_self] at hself
      cases hr : r.node.isBare <;> simp_all
  · rintro (hbare | ⟨hsame, hlow⟩)
    · refine ⟨fun r _ peer hpeer _ => resolves_iff.mpr (hbare peer hpeer), fun r hr => ?_,
        fun r hr peer hpeer hne => ?_⟩
      · rw [dials_self, hbare r hr]
        rfl
      · rw [dials_eq_of_bare (hbare peer hpeer), dials_eq_of_bare (hbare r hr)]
        exact shouldDial_ne hne
    · refine ⟨fun r hr peer hpeer hne => absurd (hsame r hr peer hpeer) hne, fun r hr => ?_,
        fun r hr peer hpeer hne => absurd (hsame r hr peer hpeer) hne⟩
      rw [dials_self]
      rcases hlow r hr with h | h <;> simp [h]

/-- A parser that keeps the string. -/
def plainParser : UrlParser where
  Url := List Char
  parse := some
  parse_ne := by
    intro s a u _ _ hu h
    have hlen := congrArg List.length (Option.some.inj (hu.trans h.symm))
    simp [rootUrl] at hlen
    omega

/-- A relay with a bare host. -/
def bareRelay (c : Char) (h : c ∉ delimiters) : Relay plainParser where
  node := .bare [c] ⟨List.cons_ne_nil _ _, fun d hd hin => h (List.mem_singleton.mp hin ▸ hd)⟩
  resolves := by
    rw [peerUrl]
    split_ifs <;> rfl

/-- A relay with the URL of a host. -/
def urlRelay (c : Char) (h : c ∉ delimiters) : Relay plainParser where
  node := .url "https".toList [c] ⟨by decide, by decide, by simp [delimiters]⟩
    ⟨List.cons_ne_nil _ _, fun d hd hin => h (List.mem_singleton.mp hin ▸ hd)⟩
  resolves := by
    rw [peerUrl]
    split_ifs <;> rfl

/-- Two relays with bare hosts. -/
theorem addressing_iff_bare :
    Addressing [bareRelay 'a' (by decide), bareRelay 'b' (by decide)] :=
  (addressing_iff _).mpr (.inl (by simp [bareRelay, Node.isBare]))

/-- Of two relays with URLs each dials the other and itself, at the address of another host. -/
theorem url_relays_dial_each_other :
    ∃ a b : Relay plainParser, a.node.text = "https://a/".toList ∧
      b.node.text = "https://b/".toList ∧
      a.dials b = true ∧ b.dials a = true ∧ a.dials a = true ∧ b.dials b = true ∧
      (learned b.node.text).bind (peerUrl plainParser) = some "https://https:/b/".toList ∧
      peerUrl plainParser b.node.text = some "https://b/".toList :=
  ⟨urlRelay 'a' (by decide), urlRelay 'b' (by decide), by decide, by decide, by decide, by decide,
    by decide, by decide, rfl, rfl⟩

end Mesh

end HermitMoq
