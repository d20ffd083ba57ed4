import HermitMoq.OriginSystem

/-!
# Consumers That Join and Leave

A new consumer is registered at every node of its handle and is told about everything
below them. Both touch the registrations only (`SameEntries`), and the pending updates of
the new consumer are one announcement for every route of the snapshot (`Represents`).
-/

namespace HermitMoq

open List TrieHeap

/-! ### New consumers -/

/-- Trees that differ in the registered consumers only. -/
structure SameEntries (h h' : OriginTree) : Prop where
  wf : h'.WF
  next : h'.next = h.next
  nested : ∀ x, (h'.cell x).nested = (h.cell x).nested
  label : ∀ x, (h'.cell x).label = (h.cell x).label
  broadcast : ∀ x, (h'.cell x).value.broadcast = (h.cell x).value.broadcast

section SameEntries

variable {h h' h'' : OriginTree} {n : ℕ} {root : Path}

/-- A tree has the entries that it has. -/
theorem SameEntries.refl (wf : h.WF) : SameEntries h h :=
  ⟨wf, rfl, fun _ => rfl, fun _ => rfl, fun _ => rfl⟩

section

variable (e : SameEntries h h')

include e

/-- Steps that keep the entries compose. -/
theorem SameEntries.trans (e' : SameEntries h' h'') :
    SameEntries h h'' where
  wf := e'.wf
  next := e'.next.trans e.next
  nested x := (e'.nested x).trans (e.nested x)
  label x := (e'.label x).trans (e.label x)
  broadcast x := (e'.broadcast x).trans (e.broadcast x)

/-- Nodes are found as before. -/
theorem SameEntries.find (x : ℕ) (ks : List Dir) :
    h'.find x ks = h.find x ks :=
  find_congr e.nested x ks

/-- The broadcast at a path is the same. -/
theorem SameEntries.valueFrom (x : ℕ) (ks : List Dir) :
    (h'.valueFrom x ks).broadcast = (h.valueFrom x ks).broadcast := by
  rw [TrieHeap.valueFrom, TrieHeap.valueFrom, e.find]
  cases h.find x ks with
  | none => rfl
  | some m => exact e.broadcast m

/-- The linked nodes are the same. -/
theorem SameEntries.linked {x : ℕ} : h'.Linked x ↔ h.Linked x := by
  rw [TrieHeap.Linked, TrieHeap.Linked, e.label, e.find]

/-- A new consumer is told the same. -/
theorem SameEntries.consumeInitial (n : ℕ) :
    h'.consumeInitial n = h.consumeInitial n := by
  simp only [OriginTree.consumeInitial, e.next, preorder_congr e.nested, e.broadcast]

end

/-- The consumers of a node are no entries. -/
theorem sameEntries_setValue (wf : h.WF) (hn : n < h.next)
    (cs : AList fun _ : ConsumerId => Path) :
    SameEntries h (h.setValue n ⟨(h.cell n).value.broadcast, cs⟩) where
  wf := wf.setValue hn
  next := rfl
  nested _ := nested_setValue
  label _ := label_setValue
  broadcast x := by
    rw [value_setValue]
    split_ifs with hx
    · rw [hx]
    · rfl

/-- A consumer is registered at its node only. -/
theorem lookup_register {n x : ℕ} {id i : ConsumerId} :
    ((OriginTree.register h n id root).cell x).value.consumers.lookup i =
      if i = id ∧ x = n then some root else (h.cell x).value.consumers.lookup i := by
  rw [OriginTree.register, value_setValue]
  by_cases hx : x = n
  · subst hx
    by_cases hi : i = id
    · subst hi
      simp
    · simp [hi, AList.lookup_insert_ne]
  · simp [hx]

/-- A handle stays valid. -/
theorem HandleOk.sameEntries (e : SameEntries h h') {linked : Prop}
    {nodes : OriginNodes} (ho : HandleOk h root linked nodes) :
    HandleOk h' root linked nodes := by
  refine ⟨fun a ha => ?_, ho.apart⟩
  have hp := ho.placed a ha
  exact ⟨e.next ▸ hp.lt, (e.label _).trans hp.label, fun hl => e.linked.mpr (hp.link hl)⟩

end SameEntries

/-- The announcements a consumer of these nodes starts with. -/
def snapshot (h : OriginTree) (nodes : OriginNodes) : List (Path × BroadcastConsumer) :=
  nodes.flatMap fun e => h.consumeInitial e.2

variable {b : BroadcastConsumer} {h : OriginTree}

/-- A new consumer is told of every active broadcast below its node, and of no other. -/
theorem mem_consumeInitial (wf : h.WF) {n : ℕ} (hn : n < h.next)
    {path : Path} : (path, b) ∈ h.consumeInitial n ↔
      ∃ ks m e, h.find n ks = some m ∧ (h.cell m).value.broadcast = some e ∧
        e.path = path ∧ e.active = b := by
  simp only [OriginTree.consumeInitial, mem_filterMap, Option.map_eq_some_iff,
    Prod.mk.injEq, mem_preorder_iff wf hn]
  constructor
  · rintro ⟨m, ⟨ks, hf⟩, e, he, hp, hb⟩
    exact ⟨ks, m, e, hf, he, hp, hb⟩
  · rintro ⟨ks, m, e, hf, he, hp, hb⟩
    exact ⟨m, ⟨ks, hf⟩, e, he, hp, hb⟩

/-- The pending updates are exactly one announcement for every element of a list. -/
def Represents (root : Path) (pending : OriginConsumerState)
    (l : List (Path × BroadcastConsumer)) : Prop :=
  ∀ q u, pending.lookup q = some u ↔ ∃ b, u = .announce b ∧ (root.join q, b) ∈ l

section Represents

variable {root : Path} {pending : OriginConsumerState} {l l' : List (Path × BroadcastConsumer)}

/-- No updates represent no broadcasts. -/
theorem represents_nil (root : Path) : Represents root ∅ [] := by
  intro q u
  simp

/-- One more announcement represents one more broadcast. -/
theorem Represents.applyAnnounce (hr : Represents root pending l) {path q : Path}
    (hq : path.stripPrefix root = some q)
    (hfun : ∀ b', (path, b') ∈ l → b' = b) :
    Represents root (pending.applyAnnounce q b) (l ++ [(path, b)]) := by
  have hpath : root.join q = path := Path.join_of_stripPrefix hq
  have hann : OriginConsumerState.announced b (pending.lookup q) = .announce b := by
    cases hl : pending.lookup q with
    | none => rfl
    | some u =>
      obtain ⟨b', rfl, -⟩ := (hr q u).mp hl
      rfl
  intro q' u
  rw [OriginConsumerState.lookup_applyAnnounce]
  by_cases hq' : q' = q
  · subst hq'
    simp only [if_true, hann, Option.some.injEq, mem_append, mem_singleton,
      Prod.mk.injEq, hpath, true_and]
    constructor
    · rintro rfl
      exact ⟨b, rfl, .inr rfl⟩
    · rintro ⟨b', rfl, hb | rfl⟩
      · rw [hfun b' hb]
      · rfl
  · have hne : root.join q' ≠ path := by
      rw [← hpath]
      exact fun heq => hq' (Path.join_left_cancel heq)
    rw [if_neg hq', hr q' u]
    simp [hne]

/-- The initial announcements succeed below the root, and the pending updates then
represent them too. -/
theorem announceInitial_spec (hr : Represents root pending l)
    (hpre : ∀ a ∈ l', root.parts <+: a.1.parts)
    (hfun : ∀ a ∈ l ++ l', ∀ a' ∈ l ++ l', a.1 = a'.1 → a.2 = a'.2) :
    ∃ pending', announceInitial root pending l' = .ok pending' ∧
      Represents root pending' (l ++ l') := by
  induction l' generalizing pending l with
  | nil => exact ⟨pending, rfl, by rwa [append_nil]⟩
  | cons a l' ih =>
    obtain ⟨path, b⟩ := a
    obtain ⟨q, hq⟩ : ∃ q, path.stripPrefix root = some q := by
      rw [← Option.isSome_iff_exists, ← Path.hasPrefix_eq_isSome, Path.hasPrefix_iff]
      exact hpre (path, b) mem_cons_self
    have hstep := hr.applyAnnounce hq fun b' hb' =>
      hfun (path, b') (mem_append_left _ hb') (path, b)
        (mem_append_right _ mem_cons_self) rfl
    rw [← singleton_append, ← append_assoc] at hfun
    obtain ⟨pending', hrun, hrep⟩ :=
      ih hstep (fun a ha => hpre a (mem_cons_of_mem _ ha)) hfun
    refine ⟨pending', ?_, ?_⟩
    · simp only [announceInitial, hq, hrun]
    · rwa [append_assoc, singleton_append] at hrep

/-- A new consumer is registered at its nodes, and its pending updates represent the
snapshot of what is below them. -/
theorem consumeNodes_spec (id : ConsumerId) {nodes : OriginNodes}
    (wf : h.WF) (hr : Represents root pending l) (hlt : ∀ e ∈ nodes, e.2 < h.next)
    (hpre : ∀ a ∈ snapshot h nodes, root.parts <+: a.1.parts)
    (hfun : ∀ a ∈ l ++ snapshot h nodes, ∀ a' ∈ l ++ snapshot h nodes, a.1 = a'.1 → a.2 = a'.2) :
    ∃ h' pending', consumeNodes id root h pending nodes = .ok (h', pending') ∧
      SameEntries h h' ∧ Represents root pending' (l ++ snapshot h nodes) ∧
      ∀ x i, (h'.cell x).value.consumers.lookup i =
        if i = id ∧ x ∈ nodes.map Prod.snd then some root
        else (h.cell x).value.consumers.lookup i := by
  induction nodes generalizing h pending l with
  | nil =>
    refine ⟨h, pending, rfl, SameEntries.refl wf, ?_, ?_⟩
    · rwa [snapshot, flatMap_nil, append_nil]
    · intro x i
      simp
  | cons e nodes ih =>
    obtain ⟨key, n⟩ := e
    have hn : n < h.next := hlt (key, n) mem_cons_self
    have hsnap : snapshot h ((key, n) :: nodes) = h.consumeInitial n ++ snapshot h nodes := rfl
    have hsame : SameEntries h (h.register n id root) := sameEntries_setValue wf hn _
    have hsame' : snapshot (h.register n id root) nodes = snapshot h nodes := by
      simp only [snapshot, hsame.consumeInitial]
    rw [hsnap, ← append_assoc] at hfun
    obtain ⟨_, hrun₁, hrep₁⟩ := announceInitial_spec hr
      (fun a ha => hpre a (mem_append_left _ ha))
      (fun a ha a' ha' => hfun a (mem_append_left _ ha) a' (mem_append_left _ ha'))
    obtain ⟨h', pending', hrun, he, _, hreg⟩ := ih hsame.wf hrep₁
      (fun e he => hlt e (mem_cons_of_mem _ he))
      (by rw [hsame']; exact fun a ha => hpre a (mem_append_right _ ha))
      (by rw [hsame']; exact hfun)
    refine ⟨h', pending', ?_, hsame.trans he, ?_, ?_⟩
    · simp only [consumeNodes, hrun₁, hrun]
    · rwa [hsnap, ← append_assoc, ← hsame']
    · intro x i
      rw [hreg, lookup_register]
      by_cases hi : i = id
      · by_cases hx : x ∈ nodes.map Prod.snd
        · simp [hi, hx]
        · by_cases hxn : x = n <;> simp [hi, hx, hxn]
      · simp [hi]

end Represents

end HermitMoq
