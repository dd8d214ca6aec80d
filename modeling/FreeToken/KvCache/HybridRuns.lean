import FreeToken.KvCache.HybridTree

/-!
# Runs of a hybrid radix cache

The operations of a `HybridRadixCache` in any order, with the locks still outstanding, and what
holds after every run of them.
-/

set_option autoImplicit false

namespace FreeToken

open BlockTrie Blocks

variable {ps : Nat} {t t' : RadixTree} {L : List NodeRef}

/-! ## The deepest snapshot on the way -/

/-- A match finds the deepest snapshot on the way of `ids`, with the KV of the whole path above. -/
structure DeepestMatch (t : RadixTree) (ids : List Token) (m : HybridMatch) : Prop where
  le : m.node <+: ids
  cachedLen : m.cachedLen = m.node.length
  values : m.kvIndices = pathValues t m.node
  snap : (m.node = [] ∧ m.mambaValue = none) ∨
    ∃ s, m.mambaValue = some s ∧ (m.node, s) ∈ snaps t
  deepest : ∀ p s, (p, s) ∈ snaps t → p <+: ids → p.length ≤ m.cachedLen

namespace HybridRadixCache

theorem deepestSnapshot_deepest (hw : WF ps t) {r : NodeRef} (hr : Boundary t r) :
    ∀ p s, (p, s) ∈ snaps t → p <+: r →
      ∃ n s', deepestSnapshot (chain t r) = some (n, s') ∧ p.length ≤ n.path.length := by
  refine hw.boundary_induction (P := fun r => ∀ p s, (p, s) ∈ snaps t → p <+: r →
    ∃ n s', deepestSnapshot (chain t r) = some (n, s') ∧ p.length ≤ n.path.length) ?_ ?_ hr
  · intro p s hs hp
    obtain ⟨n, hn, hnp, -⟩ := mem_snaps.1 hs
    exact absurd (hnp.trans (List.prefix_nil.1 hp)) (hw.path_ne_nil hn)
  · intro n hn ih p s hs hp
    rw [hw.chain_path hn, deepestSnapshot]
    split
    · rename_i slot _
      exact ⟨n, slot, rfl, hp.length_le⟩
    · rename_i hnone
      obtain ⟨m, hm, hmp, hval⟩ := mem_snaps.1 hs
      refine ih p s hs ?_
      by_contra hnot
      have hlt : n.pre.length < p.length := by
        by_contra hle
        exact hnot (List.prefix_of_prefix_length_le hp n.pre_prefix (Nat.le_of_not_lt hle))
      have hpn := hw.boundary_eq hn (.inr ⟨m, hm, hmp⟩) hlt hp
      rw [hw.eq_of_path hm hn (hmp.trans hpn), hnone] at hval
      cases hval

theorem matchPrefix_deepest {c : PrefixCache} (hps : 0 < c.pageSize)
    (hw : WF c.pageSize c.nodes) (ids : List Token) (tic : Nat) :
    DeepestMatch c.nodes ids (matchPrefix c ids tic).2 := by
  obtain ⟨hm, -⟩ := matchPrefix_spec hps hw ids tic
  have hwalk := RadixPrefixCache.treeWalk_spec hps hw ids tic
  have hsame := hm.reshape.snaps_eq
  have hsnap := hm.snap
  rw [hsame] at hsnap
  refine ⟨hm.le, hm.cachedLen, ?_, hsnap, ?_⟩
  · rw [hm.values]
    refine hm.reshape.pathValues_eq hw ?_
    rcases hsnap with ⟨hnil, -⟩ | ⟨s, -, hs⟩
    · exact .inl hnil
    · exact Lockable.boundary (.inr ⟨s, hs⟩)
  · intro p s hs hp
    have hb : Boundary c.nodes p := Lockable.boundary (.inr ⟨s, hs⟩)
    have hpk : p.length ≤ (RadixPrefixCache.treeWalk c ids tic).2 := by
      refine hwalk.le_of_boundary hw hp.length_le ?_
      rwa [← List.prefix_iff_eq_take.1 hp]
    have hpre : p <+: ids.take (RadixPrefixCache.treeWalk c ids tic).2 :=
      List.prefix_of_prefix_length_le hp (List.take_prefix _ _)
        (by rw [List.length_take]; exact le_min hpk hp.length_le)
    obtain ⟨n, s', hdeep, hle⟩ := deepestSnapshot_deepest (hwalk.reshape.wf hw) hwalk.bound p s
      (by rw [hwalk.reshape.snaps_eq]; exact hs) hpre
    unfold matchPrefix walk
    dsimp only
    rw [hdeep]
    exact hle

/-! ## Runs -/

variable {c d : PrefixCache} {M : List NodeRef}

/-- One operation, with the locks outstanding before and after it.  A lock goes to a node that a
match returned and that was not evicted since; an unlock undoes one of the locks. -/
inductive Step : PrefixCache → List NodeRef → PrefixCache → List NodeRef → Prop
  | matchPrefix {c : PrefixCache} {L : List NodeRef} (ids : List Token) (tic : Nat) :
      Step c L (matchPrefix c ids tic).1 L
  | insert {c : PrefixCache} {L : List NodeRef} (ids : List Token) (kvIndices : List Nat)
      (mambaValue tic newTic : Nat) (hlen : kvIndices.length = ids.length) :
      Step c L (insert c ids kvIndices mambaValue tic newTic).1 L
  | incLock {c : PrefixCache} {L : List NodeRef} (node : NodeRef) (hl : Lockable c.nodes node) :
      Step c L (incLock c node) (node :: L)
  | decLock {c d : PrefixCache} {L : List NodeRef} (node : NodeRef) (hl : node ∈ L)
      (hd : decLock c node = .ok d) : Step c L d (L.erase node)
  | evictFull {c : PrefixCache} {L : List NodeRef} (numTokens : Nat) :
      Step c L (evictFull c numTokens).1 L
  | evictMamba {c : PrefixCache} {L : List NodeRef} (num : Nat) :
      Step c L (evictMamba c num).1 L

/-- The caches a run reaches from the empty one. -/
inductive Reached (ps window : Nat) : PrefixCache → List NodeRef → Prop
  | empty : Reached ps window (PrefixCache.empty ps window) []
  | step {c d : PrefixCache} {L M : List NodeRef} (h : Reached ps window c L)
      (hs : Step c L d M) : Reached ps window d M

theorem Sound.perm (h : Sound ps L c) (hp : L.Perm M) : Sound ps M c :=
  ⟨h.size, h.locked.perm hp, h.snapped.perm hp, h.tokens, h.snaps, h.leaves⟩

theorem Step.sound (hps : 0 < ps) (hs : Step c L d M) (h : Sound ps L c) : Sound ps M d := by
  cases hs with
  | matchPrefix ids tic => exact h.matchPrefix hps ids tic
  | insert ids kvIndices mambaValue tic newTic hlen => exact (h.insert hps hlen mambaValue tic newTic).1
  | incLock node hl => exact h.incLock hl
  | decLock node hl hd =>
      obtain ⟨d', hd', hsound⟩ := (h.perm (List.perm_cons_erase hl)).decLock
      rw [hd] at hd'
      cases hd'
      exact hsound
  | evictFull numTokens =>
      obtain ⟨gone, hfrees, -⟩ := h.evictFull numTokens
      exact hfrees.sound
  | evictMamba num =>
      obtain ⟨⟨gone, hfrees, -⟩, -⟩ := h.evictMamba num
      exact hfrees.sound

theorem Reached.sound {window : Nat} (hps : 0 < ps) (h : Reached ps window c L) :
    Sound ps L c := by
  induction h with
  | empty => exact Sound.empty ps window
  | step _ hs ih => exact hs.sound hps ih

/-- No operation gives up a locked snapshot. -/
theorem Step.kept (hps : 0 < ps) (hs : Step c L d M) (h : Sound ps L c) {p : NodeRef} {slot : Nat}
    (hp : (p, slot) ∈ snaps c.nodes) (hl : p ∈ L) : (p, slot) ∈ snaps d.nodes := by
  have hevict : ∀ {d : PrefixCache} {gone : List (NodeRef × Nat)}, Frees ps L c d gone →
      (p, slot) ∈ snaps d.nodes := by
    intro d gone hfrees
    rcases List.mem_append.1 (hfrees.snaps.mem_iff.1 hp) with hgone | hkeep
    · exact absurd hl (hfrees.kept _ hgone)
    · exact hkeep
  cases hs with
  | matchPrefix ids tic =>
      have hsize := h.size
      subst hsize
      rwa [(matchPrefix_spec hps h.locked.wf ids tic).1.reshape.snaps_eq]
  | insert ids kvIndices mambaValue tic newTic hlen =>
      exact (h.insert hps hlen mambaValue tic newTic).2 _ hp
  | incLock node hl =>
      rw [(incLock_spec h.locked.wf hl).1]
      rwa [snaps_retag (g := lockData node (· + 1) (· + 1)) fun _ _ => rfl]
  | decLock node hl hd =>
      have hsnapped := h.snapped.perm (List.perm_cons_erase hl)
      rw [(decLock_spec h.locked.wf hsnapped hd).1]
      rwa [snaps_retag (g := lockData node (· - 1) (· - 1)) fun _ _ => rfl]
  | evictFull numTokens =>
      obtain ⟨gone, hfrees, -⟩ := h.evictFull numTokens
      exact hevict hfrees
  | evictMamba num =>
      obtain ⟨⟨gone, hfrees, -⟩, -⟩ := h.evictMamba num
      exact hevict hfrees

/-! ## What holds after every run -/

theorem Sound.mambaRef_le (h : Sound ps L c) {n : RadixTreeNode} (hn : n ∈ c.nodes) :
    n.data.mambaRefCount ≤ n.data.refCount := by
  rw [h.snapped.refs n hn, h.locked.refs n hn]
  split
  · refine List.countP_mono_left fun l _ hl => ?_
    rw [eq_of_beq hl]
    simp
  · exact Nat.zero_le _

/-- A lock that runs through a child runs through its parent. -/
theorem Sound.ref_le_parent (h : Sound ps L c) {n m : RadixTreeNode} (hn : n ∈ c.nodes)
    (hm : m ∈ c.nodes) (hpre : m.path = n.pre) : n.data.refCount ≤ m.data.refCount := by
  rw [h.locked.refs n hn, h.locked.refs m hm, hpre]
  refine List.countP_mono_left fun l _ hl => ?_
  simp only [decide_eq_true_eq] at hl ⊢
  exact n.pre_prefix.trans hl

/-- A snapshot with a nonzero count is the end of an outstanding lock. -/
theorem Sound.locked_snapshot (h : Sound ps L c) {n : RadixTreeNode} (hn : n ∈ c.nodes)
    (href : n.data.mambaRefCount ≠ 0) : n.path ∈ L := by
  by_contra hnot
  rw [h.snapped.refs n hn, List.count_eq_zero.2 hnot, ite_self] at href
  exact href rfl

/-- The slots an eviction reports are those of the snapshots it gave up, and none was locked. -/
def Reports (c : PrefixCache) (r : PrefixCache × EvictResult) : Prop :=
  ∃ gone, (snaps c.nodes).Perm (gone ++ snaps r.1.nodes) ∧ r.2.mambaSlots = gone.map Prod.snd ∧
    ∀ p ∈ gone, ∃ n ∈ c.nodes, n.path = p.1 ∧ n.data.mambaRefCount = 0

theorem Sound.reports (h : Sound ps L c) {r : PrefixCache × EvictResult}
    (hr : Evicted ps L c [] r) : Reports c r := by
  obtain ⟨gone, hfrees, hslots⟩ := hr
  refine ⟨gone, hfrees.snaps, hslots.trans (List.nil_append _), fun p hp => ?_⟩
  have hmem := hfrees.snaps.mem_iff.2 (List.mem_append_left _ hp)
  obtain ⟨n, hn, hnp, -⟩ := mem_snaps.1 (show (p.1, p.2) ∈ FreeToken.snaps c.nodes from hmem)
  refine ⟨n, hn, hnp, ?_⟩
  by_contra href
  exact hfrees.kept p hp (hnp ▸ h.locked_snapshot hn href)

/-- What holds of a hybrid cache whenever no operation is running. -/
structure Invariant (c : PrefixCache) (L : List NodeRef) : Prop where
  tokens : TokensTallied c
  snaps : SnapsTallied c
  mamba_le : ∀ n ∈ c.nodes, n.data.mambaRefCount ≤ n.data.refCount
  parent_le : ∀ n ∈ c.nodes, ∀ m ∈ c.nodes, m.path = n.pre → n.data.refCount ≤ m.data.refCount
  leaves : ∀ n ∈ c.nodes, isLeaf c.nodes n.path = true → n.data.refCount = 0 →
    n.data.mambaValue.isSome = true
  kept : ∀ d M, Step c L d M → ∀ n ∈ c.nodes, n.data.mambaRefCount ≠ 0 → ∀ s,
    n.data.mambaValue = some s → (n.path, s) ∈ FreeToken.snaps d.nodes
  unlocks : ∀ node ∈ L, ∃ d, decLock c node = .ok d
  deepest : ∀ ids tic, DeepestMatch c.nodes ids (matchPrefix c ids tic).2
  full : ∀ num, Reports c (evictFull c num)
  mamba : ∀ num, Reports c (evictMamba c num) ∧
    (evictMamba c num).2.mambaSlots.length = min num (candidates c).length

/-- Two turns of a conversation, the first one's snapshot locked. -/
def twoTurns : PrefixCache :=
  let c := (insert (PrefixCache.empty 1 0) [5] [70] 0 1 2).1
  (insert (incLock c [5]) [5, 6] [70, 71] 1 3 4).1

end HybridRadixCache

end FreeToken
