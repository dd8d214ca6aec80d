import FreeToken.KvCache.RadixSpec
import FreeToken.KvCache.HybridRadixCache

/-!
# What the hybrid cache does to its tree

A snapshot is a node's path with the slot that holds the state at its end.  Walks leave the
snapshots alone, an insert donates one at its end, and the evictions give up the snapshots of
nodes nobody locked.
-/

set_option autoImplicit false

namespace FreeToken

open BlockTrie Blocks

variable {ps : Nat} {t t' t'' : RadixTree} {L : List NodeRef}

/-- The snapshot of a node. -/
def snapOf (n : RadixTreeNode) : Option (NodeRef × Nat) := n.data.mambaValue.map fun s => (n.path, s)

/-- The snapshots of a tree. -/
def snaps (t : RadixTree) : List (NodeRef × Nat) := t.filterMap snapOf

theorem mem_snaps {p : NodeRef} {s : Nat} :
    (p, s) ∈ snaps t ↔ ∃ n ∈ t, n.path = p ∧ n.data.mambaValue = some s := by
  simp only [snaps, snapOf, List.mem_filterMap, Option.map_eq_some_iff, Prod.mk.injEq]
  constructor
  · rintro ⟨n, hn, x, hx, rfl, rfl⟩
    exact ⟨n, hn, rfl, hx⟩
  · rintro ⟨n, hn, rfl, hs⟩
    exact ⟨n, hn, s, hs, rfl, rfl⟩

/-- Every lock ends at the root or at a snapshot, and pins exactly that snapshot. -/
structure SnapLocked (t : RadixTree) (L : List NodeRef) : Prop where
  refs : ∀ n ∈ t, n.data.mambaRefCount = if n.data.mambaValue.isSome then L.count n.path else 0
  held : ∀ l ∈ L, l = [] ∨ ∃ s, (l, s) ∈ snaps t

theorem SnapLocked.nil : SnapLocked [] [] := ⟨by simp, by simp⟩

theorem SnapLocked.perm {M : List NodeRef} (h : SnapLocked t L) (hp : L.Perm M) :
    SnapLocked t M :=
  ⟨fun n hn => by rw [h.refs n hn, hp.count_eq], fun l hl => h.held l (hp.mem_iff.2 hl)⟩

theorem SnapLocked.cons_nil (hw : WF ps t) : SnapLocked t ([] :: L) ↔ SnapLocked t L := by
  have hcount : ∀ n ∈ t, ([] :: L).count n.path = L.count n.path := fun n hn =>
    List.count_cons_of_ne (hw.path_ne_nil hn).symm
  constructor
  · intro h
    refine ⟨fun n hn => ?_, fun l hl => h.held l (List.mem_cons_of_mem _ hl)⟩
    rw [h.refs n hn, hcount n hn]
  · intro h
    refine ⟨fun n hn => ?_, fun l hl => ?_⟩
    · rw [h.refs n hn, hcount n hn]
    · rcases List.mem_cons.1 hl with rfl | hl
      · exact .inl rfl
      · exact h.held l hl

/-! ## Walks -/

theorem snaps_retag {g : RadixTreeNode → NodeData}
    (hg : ∀ n ∈ t, (g n).mambaValue = n.data.mambaValue) : snaps (retag t g) = snaps t := by
  unfold snaps retag
  rw [List.filterMap_map]
  refine List.filterMap_congr fun n hn => ?_
  simp only [Function.comp_apply, snapOf, hg n hn]
  rfl

theorem snaps_splitAt (t : RadixTree) (p : NodeRef) (pos : Nat) :
    snaps (t.splitAt p pos) = snaps t := by
  unfold snaps RadixTree.splitAt BlockTrie.split
  rw [List.filterMap_flatMap]
  have : ∀ m ∈ t, (if m.path = p then
        m.halves pos NodeData.splitPrefix NodeData.splitSuffix else [m]).filterMap snapOf =
      (snapOf m).toList := by
    intro m _
    split
    · rw [Node.halves, List.filterMap_cons]
      have hl : snapOf (Node.mk m.pre (m.key.take pos) (m.value.take pos)
          (NodeData.splitPrefix m.data)) = none := rfl
      have hr : snapOf (Node.mk (m.pre ++ m.key.take pos) (m.key.drop pos) (m.value.drop pos)
          (NodeData.splitSuffix m.data)) = snapOf m := by
        unfold snapOf
        rw [Node.path_right]
        rfl
      rw [hl, List.filterMap_cons, hr]
      cases snapOf m <;> rfl
    · cases hm : snapOf m <;> simp [hm]
  rw [List.flatMap_congr this, ← List.filterMap_eq_flatMap_toList]

theorem Reshape.snaps_eq (h : Reshape ps t t') : snaps t' = snaps t := by
  induction h with
  | refl => rfl
  | cut _ _ ih => rw [snaps_splitAt, ih]
  | touch _ p tic ih =>
      rw [RadixTree.touch_eq, snaps_retag, ih]
      intro n _
      unfold onlyAt
      split <;> rfl

theorem SnapLocked.retag (h : SnapLocked t L) {g : RadixTreeNode → NodeData}
    (hg : ∀ n ∈ t, (g n).mambaValue = n.data.mambaValue ∧
      (g n).mambaRefCount = n.data.mambaRefCount) : SnapLocked (FreeToken.retag t g) L where
  refs := by
    intro m hm
    obtain ⟨n, hn, rfl⟩ := mem_retag.1 hm
    show (g n).mambaRefCount = if (g n).mambaValue.isSome then L.count n.path else 0
    rw [(hg n hn).1, (hg n hn).2, h.refs n hn]
  held := by
    rw [snaps_retag fun n hn => (hg n hn).1]
    exact h.held

theorem Reshape.snapLocked (h : Reshape ps t t') (hs : SnapLocked t L) :
    SnapLocked t' L := by
  induction h with
  | refl => exact hs
  | cut _ _ ih =>
      refine ⟨?_, by rw [snaps_splitAt]; exact ih.held⟩
      intro m hm
      rcases mem_split.1 hm with ⟨hm', -⟩ | ⟨k, hk, -, hmk⟩
      · exact ih.refs m hm'
      · rcases Node.mem_halves.1 hmk with rfl | rfl
        · rfl
        · rw [Node.path_right]
          exact ih.refs k hk
  | touch _ p tic ih =>
      rw [RadixTree.touch_eq]
      refine ih.retag fun n _ => ?_
      unfold onlyAt
      split <;> exact ⟨rfl, rfl⟩

/-! ## Taking nodes and snapshots -/

theorem snaps_prune (hw : WF ps t) {n : RadixTreeNode} (hn : n ∈ t) :
    (snaps t).Perm ((snapOf n).toList ++ snaps (BlockTrie.prune t n.path)) := by
  refine ((hw.perm_prune hn).filterMap _).trans (List.Perm.of_eq ?_)
  rw [List.filterMap_cons]
  cases hs : snapOf n <;> rfl

theorem SnapLocked.prune (h : SnapLocked t L) {n : RadixTreeNode} (hnot : n.path ∉ L) :
    SnapLocked (BlockTrie.prune t n.path) L where
  refs := fun m hm => h.refs m (mem_prune.1 hm).1
  held := by
    intro l hl
    refine (h.held l hl).imp_right ?_
    rintro ⟨s, hmem⟩
    obtain ⟨m, hm, rfl, hms⟩ := mem_snaps.1 hmem
    exact ⟨s, mem_snaps.2 ⟨m, mem_prune.2 ⟨hm, fun he => hnot (he ▸ hl)⟩, rfl, hms⟩⟩

theorem snaps_tombstone (hw : WF ps t) {n : RadixTreeNode} (hn : n ∈ t) {s : Nat}
    (hval : n.data.mambaValue = some s) :
    (snaps t).Perm ((n.path, s) :: snaps (t.setData n.path fun d => { d with mambaValue := none }))
    := by
  have hset := hw.modify_perm hn fun m => { m with data := { m.data with mambaValue := none } }
  refine ((hw.perm_prune hn).filterMap _).trans ?_
  refine List.Perm.trans ?_ ((hset.filterMap snapOf).symm.cons _)
  refine List.Perm.of_eq ?_
  rw [List.filterMap_cons, List.filterMap_cons]
  simp [snapOf, hval]

/-- An unlocked snapshot is not the end of a lock. -/
theorem SnapLocked.not_mem (h : SnapLocked t L) {n : RadixTreeNode} (hn : n ∈ t)
    (hsome : n.data.mambaValue.isSome = true) (href : n.data.mambaRefCount = 0) : n.path ∉ L := by
  have := h.refs n hn
  rw [if_pos hsome, href] at this
  exact List.count_eq_zero.1 this.symm

theorem SnapLocked.tombstone (h : SnapLocked t L) (hw : WF ps t) {n : RadixTreeNode} (hn : n ∈ t)
    {s : Nat} (hval : n.data.mambaValue = some s) (href : n.data.mambaRefCount = 0) :
    SnapLocked (t.setData n.path fun d => { d with mambaValue := none }) L where
  refs := by
    intro m hm
    rw [RadixTree.setData_eq] at hm
    obtain ⟨k, hk, rfl⟩ := mem_retag.1 hm
    show (onlyAt n.path _ k).mambaRefCount = _
    by_cases hkn : k.path = n.path
    · obtain rfl := hw.eq_of_path hk hn hkn
      simp [onlyAt, href]
    · simp only [onlyAt, if_neg hkn]
      exact h.refs k hk
  held := by
    intro l hl
    refine (h.held l hl).imp_right ?_
    rintro ⟨s', hmem⟩
    rcases List.mem_cons.1 ((snaps_tombstone hw hn hval).mem_iff.1 hmem) with hone | hrest
    · cases hone
      exact absurd hl (h.not_mem hn (by rw [hval]; rfl) href)
    · exact ⟨s', hrest⟩

/-- `Takes`, with the snapshots `gone` given up; a locked snapshot stays. -/
structure TakesSnaps (ps : Nat) (L : List NodeRef) (t t' : RadixTree) (out : List Nat)
    (gone : List (NodeRef × Nat)) : Prop extends Takes ps L t t' out where
  snaps : (snaps t).Perm (gone ++ FreeToken.snaps t')
  kept : ∀ p ∈ gone, p.1 ∉ L
  held : SnapLocked t' L

namespace TakesSnaps

theorem refl (h : Locked ps t L) (hp : Paged ps t) (hs : SnapLocked t L) :
    TakesSnaps ps L t t [] [] :=
  { Takes.refl h hp with snaps := by simp, kept := by simp, held := hs }

theorem trans (hps : 0 < ps) {out out' : List Nat} {gone gone' : List (NodeRef × Nat)}
    (h : TakesSnaps ps L t t' out gone) (h' : TakesSnaps ps L t' t'' out' gone') :
    TakesSnaps ps L t t'' (out ++ out') (gone ++ gone') :=
  { h.toTakes.trans hps h'.toTakes with
    snaps := by
      rw [List.append_assoc]
      exact h.snaps.trans (h'.snaps.append_left _)
    kept := fun p hp => (List.mem_append.1 hp).elim (h.kept p) (h'.kept p)
    held := h'.held }

theorem prune (h : Locked ps t L) (hp : Paged ps t) (hs : SnapLocked t L) {n : RadixTreeNode}
    (hn : n ∈ t) (hl : isLeaf t n.path = true) (href : n.data.refCount = 0) :
    TakesSnaps ps L t (BlockTrie.prune t n.path) n.value (snapOf n).toList := by
  have hnot : n.path ∉ L := fun hmem => h.not_prefix hn href hmem List.prefix_rfl
  refine { Takes.prune h hp hn hl href with
    snaps := snaps_prune h.wf hn, kept := ?_, held := hs.prune hnot }
  intro p hpm
  rw [Option.mem_toList, snapOf, Option.map_eq_some_iff] at hpm
  obtain ⟨s, _, rfl⟩ := hpm
  exact hnot

/-- Dropping an unlocked snapshot in place. -/
theorem tombstone (h : Locked ps t L) (hp : Paged ps t) (hs : SnapLocked t L) {n : RadixTreeNode}
    (hn : n ∈ t) {s : Nat} (hval : n.data.mambaValue = some s) (href : n.data.mambaRefCount = 0) :
    TakesSnaps ps L t (t.setData n.path fun d => { d with mambaValue := none }) []
      [(n.path, s)] := by
  have htakes := Takes.setData h hp n.path (f := fun d => { d with mambaValue := none })
    fun _ => rfl
  refine { htakes with
    snaps := snaps_tombstone h.wf hn hval, kept := ?_, held := hs.tombstone h.wf hn hval href }
  intro p hpm
  rw [List.mem_singleton.1 hpm]
  exact hs.not_mem hn (by rw [hval]; rfl) href

end TakesSnaps

/-! ## The operations -/

theorem prune_setData (t : RadixTree) (p : NodeRef) (f : NodeData → NodeData) :
    BlockTrie.prune (t.setData p f) p = BlockTrie.prune t p := by
  unfold BlockTrie.prune RadixTree.setData BlockTrie.modify
  rw [List.filter_map]
  have hpred : ∀ n ∈ t, ((fun n : RadixTreeNode => decide (n.path ≠ p)) ∘
      fun n => if n.path = p then { n with data := f n.data } else n) n = decide (n.path ≠ p) := by
    intro n _
    simp only [Function.comp_apply]
    split <;> rfl
  rw [List.filter_congr hpred]
  refine (List.map_congr_left fun n hn => ?_).trans (List.map_id _)
  rw [if_neg (by simpa using (List.mem_filter.1 hn).2)]
  rfl

/-! ## Grafts and locks -/

theorem snaps_graft (t : RadixTree) {n : RadixTreeNode} (hn : n.data.mambaValue = none) :
    snaps (BlockTrie.graft t n) = snaps t := by
  simp [snaps, BlockTrie.graft, snapOf, hn]

theorem SnapLocked.graft (h : SnapLocked t L) {n : RadixTreeNode} (hn : n.data.mambaValue = none)
    (href : n.data.mambaRefCount = 0) : SnapLocked (BlockTrie.graft t n) L := by
  refine ⟨fun m hm => ?_, by rw [snaps_graft t hn]; exact h.held⟩
  rcases List.mem_append.1 hm with hm | hm
  · exact h.refs m hm
  · rw [List.mem_singleton.1 hm, hn, href]
    rfl

/-- The end of a lock: the root or a snapshot. -/
def Lockable (t : RadixTree) (l : NodeRef) : Prop := l = [] ∨ ∃ s, (l, s) ∈ snaps t

theorem Lockable.boundary {l : NodeRef} (h : Lockable t l) : Boundary t l :=
  h.imp_right fun ⟨_, hs⟩ => by
    obtain ⟨n, hn, hp, -⟩ := mem_snaps.1 hs
    exact ⟨n, hn, hp⟩

/-- The data after a lock or an unlock of `l`: the path's counts and the snapshot's count move. -/
def lockData (l : NodeRef) (ref mamba : Nat → Nat) (n : RadixTreeNode) : NodeData :=
  { n.data with
    refCount := if n.path <+: l then ref n.data.refCount else n.data.refCount
    mambaRefCount := if n.path = l then mamba n.data.mambaRefCount else n.data.mambaRefCount }

theorem above_onlyAt (t : RadixTree) (l : NodeRef) (ref mamba : Nat → Nat) :
    retag (t.setData l fun d => { d with mambaRefCount := mamba d.mambaRefCount })
      (above l fun d => { d with refCount := ref d.refCount }) =
      retag t (lockData l ref mamba) := by
  rw [RadixTree.setData_eq, retag_retag]
  refine retag_congr fun n _ => ?_
  unfold above onlyAt lockData Node.path
  dsimp only
  split_ifs <;> rfl

/-- A lock whose end is the root moves nothing. -/
theorem retag_root (hw : WF ps t) (ref mamba : Nat → Nat) :
    retag t (lockData [] ref mamba) = t := by
  refine (List.map_congr_left fun n hn => ?_).trans (List.map_id t)
  unfold lockData
  rw [if_neg (by simpa using hw.path_ne_nil hn), if_neg (hw.path_ne_nil hn)]
  rfl

theorem SnapLocked.lock (h : SnapLocked t L) {l : NodeRef} (hl : Lockable t l)
    (hw : WF ps t) : SnapLocked (FreeToken.retag t (lockData l (· + 1) (· + 1))) (l :: L) where
  refs := by
    intro m hm
    obtain ⟨n, hn, rfl⟩ := mem_retag.1 hm
    show (if n.path = l then n.data.mambaRefCount + 1 else n.data.mambaRefCount) =
      if n.data.mambaValue.isSome then (l :: L).count n.path else 0
    have href := h.refs n hn
    by_cases hp : n.path = l
    · have hval : n.data.mambaValue.isSome = true := by
        rcases hl with rfl | ⟨s, hs⟩
        · exact absurd hp (hw.path_ne_nil hn)
        · obtain ⟨k, hk, hkp, hkv⟩ := mem_snaps.1 hs
          rw [hw.eq_of_path hn hk (hp.trans hkp.symm), hkv]
          rfl
      rw [if_pos hval] at href ⊢
      rw [if_pos hp, hp, List.count_cons_self, href, hp]
    · rw [if_neg hp, href, List.count_cons_of_ne (Ne.symm hp)]
  held := by
    rw [snaps_retag (g := lockData l (· + 1) (· + 1)) fun _ _ => rfl]
    intro l' hl'
    rcases List.mem_cons.1 hl' with rfl | hl'
    · exact hl
    · exact h.held l' hl'

theorem SnapLocked.unlock {l : NodeRef} (h : SnapLocked t (l :: L)) :
    SnapLocked (FreeToken.retag t (lockData l (· - 1) (· - 1))) L where
  refs := by
    intro m hm
    obtain ⟨n, hn, rfl⟩ := mem_retag.1 hm
    show (if n.path = l then n.data.mambaRefCount - 1 else n.data.mambaRefCount) =
      if n.data.mambaValue.isSome then L.count n.path else 0
    have href := h.refs n hn
    by_cases hp : n.path = l
    · rw [hp, List.count_cons_self] at href
      rw [if_pos hp, href, hp]
      split <;> omega
    · rw [List.count_cons_of_ne (Ne.symm hp)] at href
      rw [if_neg hp, href]
  held := by
    rw [snaps_retag (g := lockData l (· - 1) (· - 1)) fun _ _ => rfl]
    exact fun l' hl' => h.held l' (List.mem_cons_of_mem _ hl')

namespace HybridRadixCache

@[simp] theorem walk_pageSize (c : PrefixCache) (ids : List Token) (tic : Nat) :
    (walk c ids tic).1.pageSize = c.pageSize := rfl

theorem deepestSnapshot_mem {ns : List RadixTreeNode} {n : RadixTreeNode} {s : Nat}
    (h : deepestSnapshot ns = some (n, s)) : n ∈ ns ∧ n.data.mambaValue = some s := by
  induction ns with
  | nil => cases h
  | cons m ns ih =>
      rw [deepestSnapshot] at h
      split at h
      · rename_i hm
        cases h
        exact ⟨List.mem_cons_self, hm⟩
      · exact ⟨List.mem_cons_of_mem _ (ih h).1, (ih h).2⟩

/-- The deepest snapshot of a chain that holds one is the first on it. -/
theorem deepestSnapshot_head {n : RadixTreeNode} {ns : List RadixTreeNode} {s : Nat}
    (h : n.data.mambaValue = some s) : deepestSnapshot (n :: ns) = some (n, s) := by
  rw [deepestSnapshot, h]

/-- A match: the tree was reshaped, and the match is a snapshot on the way, or the root. -/
structure Matched (ps : Nat) (t : RadixTree) (ids : List Token) (t' : RadixTree)
    (m : HybridMatch) : Prop where
  reshape : Reshape ps t t'
  bound : Boundary t' m.node
  le : m.node <+: ids
  cachedLen : m.cachedLen = m.node.length
  values : m.kvIndices = pathValues t' m.node
  snap : (m.node = [] ∧ m.mambaValue = none) ∨
    ∃ s, m.mambaValue = some s ∧ (m.node, s) ∈ snaps t'

theorem matchPrefix_spec {c : PrefixCache} (hps : 0 < c.pageSize) (hw : WF c.pageSize c.nodes)
    (ids : List Token) (tic : Nat) :
    Matched c.pageSize c.nodes ids (matchPrefix c ids tic).1.nodes (matchPrefix c ids tic).2 ∧
      (matchPrefix c ids tic).1.pageSize = c.pageSize := by
  have hwalk := RadixPrefixCache.treeWalk_spec hps hw ids tic
  have hw' := hwalk.reshape.wf hw
  unfold matchPrefix walk
  dsimp only
  split
  · rename_i n s hdeep
    obtain ⟨hmem, hval⟩ := deepestSnapshot_mem hdeep
    obtain ⟨hn, hpre⟩ := (hw'.mem_chain hwalk.bound).1 hmem
    exact ⟨⟨hwalk.reshape, .inr ⟨n, hn, rfl⟩, hpre.trans (List.take_prefix _ _), rfl, rfl,
      .inr ⟨s, rfl, mem_snaps.2 ⟨n, hn, rfl, hval⟩⟩⟩, rfl⟩
  · exact ⟨⟨hwalk.reshape, .inl rfl, List.nil_prefix, rfl, rfl, .inl ⟨rfl, rfl⟩⟩, rfl⟩

/-- A match of a page-aligned prefix that ends at a snapshot finds exactly that snapshot. -/
theorem matchPrefix_full {c : PrefixCache} (hps : 0 < c.pageSize) (hw : WF c.pageSize c.nodes)
    {ids : List Token} {s : Nat} (hs : (ids, s) ∈ snaps c.nodes) (tic : Nat) :
    (matchPrefix c ids tic).2.node = ids ∧ (matchPrefix c ids tic).2.mambaValue = some s := by
  have hwalk := RadixPrefixCache.treeWalk_spec hps hw ids tic
  have hw' := hwalk.reshape.wf hw
  obtain ⟨n, hn, hpath, hval⟩ := mem_snaps.1 (by rw [hwalk.reshape.snaps_eq]; exact hs)
  have hb : Boundary c.nodes (ids.take ids.length) := by
    rw [List.take_length]
    obtain ⟨m, hm, hmp, -⟩ := mem_snaps.1 hs
    exact .inr ⟨m, hm, hmp⟩
  have hk := le_antisymm hwalk.le (hwalk.le_of_boundary hw le_rfl hb)
  have hdeep : deepestSnapshot (chain (RadixPrefixCache.treeWalk c ids tic).1.nodes
      (ids.take (RadixPrefixCache.treeWalk c ids tic).2)) = some (n, s) := by
    have hchain := hw'.chain_path hn
    rw [hpath] at hchain
    rw [hk, List.take_length, hchain]
    exact deepestSnapshot_head hval
  unfold matchPrefix walk
  dsimp only
  rw [hdeep]
  exact ⟨hpath, rfl⟩

theorem freeNodeMamba_eq (c : PrefixCache) (n : RadixTreeNode) (out : List Nat) :
    (freeNodeMamba c n out).1.pageSize = c.pageSize ∧
      (freeNodeMamba c n out).2 = out ++ (snapOf n).toList.map Prod.snd ∧
      BlockTrie.prune (freeNodeMamba c n out).1.nodes n.path = BlockTrie.prune c.nodes n.path := by
  unfold freeNodeMamba snapOf
  cases n.data.mambaValue with
  | none => exact ⟨rfl, by simp, rfl⟩
  | some s =>
      refine ⟨rfl, by simp, ?_⟩
      exact prune_setData c.nodes n.path fun d => { d with mambaValue := none }

theorem cascade_spec (hps : 0 < ps) : ∀ (fuel : Nat) (c : PrefixCache) (parent : NodeRef)
    (kv : List Nat) (freed : Nat), c.pageSize = ps → Locked ps c.nodes L → Paged ps c.nodes →
    SnapLocked c.nodes L →
    ∃ out, (cascadeTombstoneLeaves fuel c parent kv freed).2.2.1 = kv ++ out ∧
      TakesSnaps ps L c.nodes (cascadeTombstoneLeaves fuel c parent kv freed).1.nodes out [] ∧
      (cascadeTombstoneLeaves fuel c parent kv freed).1.pageSize = ps := by
  intro fuel
  induction fuel with
  | zero =>
      intro c parent kv freed hsize h hp hs
      exact ⟨[], by simp [cascadeTombstoneLeaves], TakesSnaps.refl h hp hs, hsize⟩
  | succ fuel ih =>
      intro c parent kv freed hsize h hp hs
      rw [cascadeTombstoneLeaves]
      split
      · exact ⟨[], by simp, TakesSnaps.refl h hp hs, hsize⟩
      · rename_i n hn
        obtain ⟨hmem, rfl⟩ := mem_of_node? hn
        split
        · rename_i hcond
          simp only [Bool.and_eq_true, decide_eq_true_eq, Option.isNone_iff_eq_none] at hcond
          obtain ⟨⟨hnone, hleaf⟩, href⟩ := hcond
          have hone := TakesSnaps.prune h hp hs hmem hleaf href
          have hsnap : (snapOf n).toList = [] := by simp [snapOf, hnone]
          rw [hsnap] at hone
          obtain ⟨out, hout, htakes, hsize'⟩ := ih
            { c with
              fullEvictable := c.fullEvictable - n.length
              nodes := BlockTrie.prune c.nodes n.path }
            n.pre (kv ++ n.value) (freed + n.length) hsize hone.locked hone.paged hone.held
          exact ⟨n.value ++ out, by rw [hout, List.append_assoc], by simpa using hone.trans hps htakes,
            hsize'⟩
        · exact ⟨[], by simp, TakesSnaps.refl h hp hs, hsize⟩

/-- A whole leaf goes, with its snapshot, and then the leaves its removal exposed. -/
theorem removeLeaf_spec (hps : 0 < ps) {c : PrefixCache} (hsize : c.pageSize = ps)
    (h : Locked ps c.nodes L) (hp : Paged ps c.nodes) (hs : SnapLocked c.nodes L)
    {n : RadixTreeNode} (hn : n ∈ c.nodes) (hl : isLeaf c.nodes n.path = true)
    (href : n.data.refCount = 0) (fuel : Nat) (kv : List Nat) (freed : Nat)
    {d : PrefixCache} (hc' : d.nodes = BlockTrie.prune c.nodes n.path)
    (hsize' : d.pageSize = c.pageSize) :
    ∃ out, (cascadeTombstoneLeaves fuel d n.pre (kv ++ n.value) freed).2.2.1 = kv ++ out ∧
      TakesSnaps ps L c.nodes (cascadeTombstoneLeaves fuel d n.pre (kv ++ n.value) freed).1.nodes
        out (snapOf n).toList ∧
      (cascadeTombstoneLeaves fuel d n.pre (kv ++ n.value) freed).1.pageSize = ps := by
  have hone := TakesSnaps.prune h hp hs hn hl href
  rw [← hc'] at hone
  obtain ⟨out, hout, htakes, hfin⟩ := cascade_spec hps fuel d n.pre (kv ++ n.value) freed
    (hsize'.trans hsize) hone.locked hone.paged hone.held
  exact ⟨n.value ++ out, by rw [hout, List.append_assoc], by simpa using hone.trans hps htakes, hfin⟩

/-- The result of an eviction, from a tree and from what was taken so far. -/
def Evicts (ps : Nat) (L : List NodeRef) (c : PrefixCache) (out : EvictResult)
    (r : PrefixCache × EvictResult) : Prop :=
  ∃ kv gone, r.2.kvIndices = out.kvIndices ++ kv ∧
    r.2.mambaSlots = out.mambaSlots ++ gone.map Prod.snd ∧
    TakesSnaps ps L c.nodes r.1.nodes kv gone ∧ r.1.pageSize = ps

theorem Evicts.refl {c : PrefixCache} (hsize : c.pageSize = ps) (h : Locked ps c.nodes L)
    (hp : Paged ps c.nodes) (hs : SnapLocked c.nodes L) (out : EvictResult) :
    Evicts ps L c out (c, out) :=
  ⟨[], [], by simp, by simp, TakesSnaps.refl h hp hs, hsize⟩

theorem Evicts.trans (hps : 0 < ps) {c d : PrefixCache} {out : EvictResult} {kv : List Nat}
    {gone : List (NodeRef × Nat)} {r : PrefixCache × EvictResult}
    (h : TakesSnaps ps L c.nodes d.nodes kv gone)
    (h' : Evicts ps L d { kvIndices := out.kvIndices ++ kv,
                           mambaSlots := out.mambaSlots ++ gone.map Prod.snd } r) :
    Evicts ps L c out r := by
  obtain ⟨kv', gone', hkv, hgone, htakes, hsize⟩ := h'
  exact ⟨kv ++ kv', gone ++ gone', by rw [hkv, List.append_assoc],
    by rw [hgone, List.map_append, List.append_assoc], h.trans hps htakes, hsize⟩

theorem evictFullLoop_spec (hps : 0 < ps) {num : Nat} : ∀ (fuel : Nat)
    (heap : List RadixTreeNode) (freed : Nat) (c : PrefixCache) (out : EvictResult),
    c.pageSize = ps → Locked ps c.nodes L → Paged ps c.nodes → SnapLocked c.nodes L →
    Evicts ps L c out (evictFullLoop num fuel heap freed c out) := by
  intro fuel
  induction fuel with
  | zero => exact fun _ _ c out hsize h hp hs => Evicts.refl hsize h hp hs out
  | succ fuel ih =>
      intro heap freed c out hsize h hp hs
      rw [evictFullLoop]
      split
      · split
        · exact Evicts.refl hsize h hp hs out
        · split
          · exact ih _ _ _ _ hsize h hp hs
          · rename_i n hn
            obtain ⟨hmem, -⟩ := mem_of_node? hn
            split
            · exact ih _ _ _ _ hsize h hp hs
            · rename_i hfree
              simp only [Bool.or_eq_true, decide_eq_true_eq, Bool.not_eq_true',
                not_or, Bool.not_eq_false, not_not] at hfree
              dsimp only
              obtain ⟨hfs, hslots, hprune⟩ := freeNodeMamba_eq
                { c with fullEvictable := c.fullEvictable - n.length } n out.mambaSlots
              obtain ⟨kv, hkv, htakes, hsize'⟩ := removeLeaf_spec hps hsize h hp hs hmem hfree.2
                hfree.1 _ out.kvIndices 0
                (d := { (freeNodeMamba { c with fullEvictable := c.fullEvictable - n.length } n
                    out.mambaSlots).1 with
                  nodes := BlockTrie.prune (freeNodeMamba
                    { c with fullEvictable := c.fullEvictable - n.length } n
                    out.mambaSlots).1.nodes n.path }) hprune hfs
              rw [hkv, hslots]
              refine Evicts.trans hps htakes (ih _ _ _ _ hsize' htakes.locked htakes.paged
                htakes.held)
      · exact Evicts.refl hsize h hp hs out

theorem evictFull_spec {c : PrefixCache} (hps : 0 < c.pageSize) (h : Locked c.pageSize c.nodes L)
    (hp : Paged c.pageSize c.nodes) (hs : SnapLocked c.nodes L) (num : Nat) :
    Evicts c.pageSize L c { kvIndices := [], mambaSlots := [] } (evictFull c num) :=
  evictFullLoop_spec hps _ _ _ _ _ rfl h hp hs

theorem evictMambaLoop_spec (hps : 0 < ps) {num : Nat} : ∀ (fuel : Nat)
    (heap : List RadixTreeNode) (freed : Nat) (c : PrefixCache) (out : EvictResult),
    c.pageSize = ps → Locked ps c.nodes L → Paged ps c.nodes → SnapLocked c.nodes L →
    Evicts ps L c out (evictMambaLoop num fuel heap freed c out) := by
  intro fuel
  induction fuel with
  | zero => exact fun _ _ c out hsize h hp hs => Evicts.refl hsize h hp hs out
  | succ fuel ih =>
      intro heap freed c out hsize h hp hs
      rw [evictMambaLoop]
      split
      · split
        · exact Evicts.refl hsize h hp hs out
        · split
          · exact ih _ _ _ _ hsize h hp hs
          · rename_i n hn
            obtain ⟨hmem, hnp⟩ := mem_of_node? hn
            split
            · exact ih _ _ _ _ hsize h hp hs
            · rename_i hcand
              simp only [Bool.or_eq_true, decide_eq_true_eq, not_or, not_not,
                Option.isNone_iff_eq_none] at hcand
              split
              · rename_i hfree
                simp only [Bool.and_eq_true, decide_eq_true_eq] at hfree
                dsimp only
                obtain ⟨hfs, hslots, hprune⟩ := freeNodeMamba_eq
                  { c with fullEvictable := c.fullEvictable - n.length } n out.mambaSlots
                obtain ⟨kv, hkv, htakes, hsize'⟩ := removeLeaf_spec hps hsize h hp hs hmem hfree.1
                  hfree.2 _ out.kvIndices 0
                  (d := { (freeNodeMamba { c with fullEvictable := c.fullEvictable - n.length } n
                      out.mambaSlots).1 with
                    nodes := BlockTrie.prune (freeNodeMamba
                      { c with fullEvictable := c.fullEvictable - n.length } n
                      out.mambaSlots).1.nodes n.path }) hprune hfs
                rw [hkv, hslots]
                refine Evicts.trans hps htakes (ih _ _ _ _ hsize' htakes.locked htakes.paged
                  htakes.held)
              · obtain ⟨s, hval⟩ := Option.ne_none_iff_exists'.1 hcand.1
                have hone := TakesSnaps.tombstone h hp hs hmem hval hcand.2
                unfold freeNodeMamba
                rw [hval]
                dsimp only
                refine Evicts.trans (d := { c with
                    nodes := c.nodes.setData n.path fun d => { d with mambaValue := none } })
                  hps hone ?_
                rw [List.append_nil]
                exact ih _ _ _ _ hsize hone.locked hone.paged hone.held
      · exact Evicts.refl hsize h hp hs out

theorem evictMamba_spec {c : PrefixCache} (hps : 0 < c.pageSize) (h : Locked c.pageSize c.nodes L)
    (hp : Paged c.pageSize c.nodes) (hs : SnapLocked c.nodes L) (num : Nat) :
    Evicts c.pageSize L c { kvIndices := [], mambaSlots := [] } (evictMamba c num) :=
  evictMambaLoop_spec hps _ _ _ _ _ rfl h hp hs

/-- An eviction of snapshots that gave up none did nothing. -/
theorem evictMambaLoop_none {num : Nat} : ∀ (fuel : Nat) (heap : List RadixTreeNode) (freed : Nat)
    (c : PrefixCache) (out : EvictResult) (r : PrefixCache × EvictResult),
    evictMambaLoop num fuel heap freed c out = r → r.2.mambaSlots = [] → r = (c, out) := by
  intro fuel
  induction fuel with
  | zero => exact fun _ _ _ _ _ h _ => h.symm
  | succ fuel ih =>
      intro heap freed c out r h hr
      rw [evictMambaLoop] at h
      split at h
      · split at h
        · exact h.symm
        · split at h
          · exact ih _ _ _ _ _ h hr
          · rename_i n hn
            split at h
            · exact ih _ _ _ _ _ h hr
            · rename_i hcand
              simp only [Bool.or_eq_true, not_or, Option.isNone_iff_eq_none] at hcand
              obtain ⟨s, hval⟩ := Option.ne_none_iff_exists'.1 hcand.1
              -- a round that takes a snapshot never gives the list back
              have htook : ∀ c : PrefixCache, (freeNodeMamba c n out.mambaSlots).2 ≠ [] := by
                intro c hnil
                unfold freeNodeMamba at hnil
                rw [hval] at hnil
                simp at hnil
              split at h
              all_goals
                have hlast := ih _ _ _ _ _ h hr
                rw [hlast] at hr
                exact absurd hr (htook _)
      · exact h.symm

theorem evictMamba_none (c : PrefixCache) (num : Nat)
    (h : (evictMamba c num).2.mambaSlots = []) :
    evictMamba c num = (c, { kvIndices := [], mambaSlots := [] }) :=
  evictMambaLoop_none _ _ _ _ _ _ rfl h

/-! ## Inserting -/

/-- What an insert with the donated slot `s` leaves: the node at the end had a snapshot and keeps
it, or takes the donated one. -/
structure Donated (ps : Nat) (L : List NodeRef) (t : RadixTree) (ids : List Token)
    (indices : List Nat) (s : Nat) (t' : RadixTree) (k : Nat) (exist : Bool) : Prop where
  inserted : RadixPrefixCache.Inserted ps L t ids indices t' k
  held : SnapLocked t' L
  kept : exist = true → snaps t' = snaps t
  taken : exist = false → (snaps t').Perm ((ids, s) :: snaps t)
  found : ∃ s', (ids, s') ∈ snaps t'

theorem retag_inserted {ids : List Token} {indices : List Nat} {k : Nat}
    (h : RadixPrefixCache.Inserted ps L t ids indices t' k) {g : RadixTreeNode → NodeData}
    (hg : ∀ n ∈ t', (g n).refCount = n.data.refCount) :
    RadixPrefixCache.Inserted ps L t ids indices (FreeToken.retag t' g) k where
  locked := h.locked.retag h.locked.bound fun n hn => (hg n hn).trans (h.locked.refs n hn)
  paged := paged_retag h.paged
  le := h.le
  dvd := h.dvd
  bound := boundary_retag.2 h.bound
  perm := by rw [bases_retag]; exact h.perm
  reads := fun l row hr => reads_retag (h.reads l row hr)
  fresh := fun i x hi hx => readsAt_retag (h.fresh i x hi hx)
  longest := h.longest

/-- The donation keeps an existing snapshot, and is taken where there is none. -/
theorem donate_spec {c : PrefixCache} {ids : List Token} {indices : List Nat} {k : Nat}
    (hins : RadixPrefixCache.Inserted ps L t ids indices c.nodes k)
    (hsn : snaps c.nodes = snaps t) (hs : SnapLocked c.nodes L) (hne : ids ≠ []) (slot : Nat) :
    Donated ps L t ids indices slot (donate c ids slot).1.nodes k (donate c ids slot).2 ∧
      (donate c ids slot).1.pageSize = c.pageSize := by
  have hwf := hins.locked.wf
  unfold donate
  split
  · rename_i hnone
    rcases hins.bound with hnil | ⟨n, hn, hnp⟩
    · exact absurd hnil hne
    · exact absurd hnp (node?_eq_none.1 hnone n hn)
  · rename_i n hfind
    obtain ⟨hn, hpath⟩ := mem_of_node? hfind
    split
    · rename_i hsome
      obtain ⟨s', hval⟩ := Option.isSome_iff_exists.1 hsome
      exact ⟨⟨hins, hs, fun _ => hsn, by simp, s', mem_snaps.2 ⟨n, hn, hpath, hval⟩⟩, rfl⟩
    · rename_i hnone
      have hnil : n.data.mambaValue = none := by simpa using hnone
      have hperm : (snaps (c.nodes.setData ids fun d => { d with mambaValue := some slot })).Perm
          ((ids, slot) :: snaps t) := by
        rw [← hsn, ← hpath]
        have hset := hwf.modify_perm hn
          fun m => { m with data := { m.data with mambaValue := some slot } }
        refine (hset.filterMap snapOf).trans ?_
        refine List.Perm.trans ?_ (((hwf.perm_prune hn).filterMap snapOf).symm.cons _)
        refine List.Perm.of_eq ?_
        rw [List.filterMap_cons, List.filterMap_cons]
        simp [snapOf, hnil, Node.path]
      have hnotL : ids ∉ L := by
        intro hmem
        rcases hs.held ids hmem with hroot | ⟨s', hs'⟩
        · exact hne hroot
        · obtain ⟨m, hm, hmp, hmv⟩ := mem_snaps.1 hs'
          rw [hwf.eq_of_path hm hn (hmp.trans hpath.symm), hnil] at hmv
          cases hmv
      refine ⟨⟨?_, ⟨?_, ?_⟩, by simp, fun _ => hperm, slot,
        hperm.mem_iff.2 List.mem_cons_self⟩, rfl⟩
      · rw [RadixTree.setData_eq]
        refine retag_inserted hins fun m _ => ?_
        unfold onlyAt
        split <;> rfl
      · intro m hm
        rw [RadixTree.setData_eq] at hm
        obtain ⟨x, hx, rfl⟩ := mem_retag.1 hm
        show (onlyAt ids _ x).mambaRefCount =
          if (onlyAt ids _ x).mambaValue.isSome then L.count x.path else 0
        by_cases hxp : x.path = ids
        · obtain rfl := hwf.eq_of_path hx hn (hxp.trans hpath.symm)
          simp only [onlyAt, if_pos hxp]
          rw [hs.refs x hx, hnil, hxp]
          simpa using (List.count_eq_zero.2 hnotL).symm
        · simp only [onlyAt, if_neg hxp]
          exact hs.refs x hx
      · intro l hl
        refine (hs.held l hl).imp_right ?_
        rintro ⟨s', hs'⟩
        exact ⟨s', hperm.mem_iff.2 (List.mem_cons_of_mem _ (hsn ▸ hs'))⟩

theorem hangSuffix_snaps (c : PrefixCache) (ids : List Token) (kv : List Nat) (k tic : Nat) :
    snaps (RadixPrefixCache.hangSuffix c ids kv k tic).nodes = snaps c.nodes := by
  unfold RadixPrefixCache.hangSuffix
  split
  · exact snaps_graft _ rfl
  · rfl

theorem insert_spec {c : PrefixCache} (hps : 0 < c.pageSize) (h : Locked c.pageSize c.nodes L)
    (hp : Paged c.pageSize c.nodes) (hs : SnapLocked c.nodes L) (ids : List Token)
    (indices : List Nat) (hlen : indices.length = ids.length) (hdvd : c.pageSize ∣ ids.length)
    (hne : ids ≠ []) (hpages : ∃ pages, indices = expand c.pageSize pages)
    (slot tic newTic : Nat) :
    Donated c.pageSize L c.nodes ids indices slot (insert c ids indices slot tic newTic).1.nodes
        (insert c ids indices slot tic newTic).2.1 (insert c ids indices slot tic newTic).2.2 ∧
      (insert c ids indices slot tic newTic).1.pageSize = c.pageSize := by
  have hw := RadixPrefixCache.treeWalk_spec hps h.wf ids tic
  have hins := RadixPrefixCache.hangSuffix_spec hps h hp hlen hdvd hpages hw newTic
  have hkeep : snaps (RadixPrefixCache.hangSuffix (walk c ids tic).1 ids indices (walk c ids tic).2
        newTic).nodes = snaps c.nodes ∧
      SnapLocked (RadixPrefixCache.hangSuffix (walk c ids tic).1 ids indices (walk c ids tic).2
        newTic).nodes L := by
    have hss : snaps (walk c ids tic).1.nodes = snaps c.nodes := hw.reshape.snaps_eq
    have hsw : SnapLocked (walk c ids tic).1.nodes L := hw.reshape.snapLocked hs
    refine ⟨(hangSuffix_snaps _ _ _ _ _).trans hss, ?_⟩
    unfold RadixPrefixCache.hangSuffix
    split
    · exact hsw.graft rfl rfl
    · exact hsw
  obtain ⟨hdon, hsize⟩ := donate_spec hins hkeep.1 hkeep.2 hne slot
  unfold insert
  dsimp only
  rw [alignDown_of_dvd hdvd, List.take_length, List.take_of_length_le hlen.le]
  exact ⟨hdon, hsize.trans (RadixPrefixCache.hangSuffix_pageSize _ _ _ _ _)⟩

theorem incLock_spec {c : PrefixCache} (hw : WF ps c.nodes) {l : NodeRef}
    (hl : Lockable c.nodes l) :
    (incLock c l).nodes = retag c.nodes (lockData l (· + 1) (· + 1)) ∧
      (incLock c l).pageSize = c.pageSize := by
  rcases hl with rfl | ⟨s, hs⟩
  · have hnone : node? c.nodes [] = none := node?_eq_none.2 fun n hn => hw.path_ne_nil hn
    rw [retag_root hw]
    unfold incLock pinSnapshot
    rw [hnone]
    exact ⟨rfl, rfl⟩
  · obtain ⟨n, hn, rfl, hval⟩ := mem_snaps.1 hs
    have hpin : (pinSnapshot c n.path).nodes = (c.nodes.setData n.path fun d =>
        { d with mambaRefCount := d.mambaRefCount + 1 }) ∧
        (pinSnapshot c n.path).pageSize = c.pageSize := by
      unfold pinSnapshot
      rw [hw.node?_path hn]
      dsimp only
      rw [if_pos (by rw [hval]; rfl)]
      split <;> exact ⟨rfl, rfl⟩
    have hb : Boundary (pinSnapshot c n.path).nodes n.path := by
      rw [hpin.1, RadixTree.setData_eq]
      exact boundary_retag.2 (.inr ⟨n, hn, rfl⟩)
    have hw' : WF ps (pinSnapshot c n.path).nodes := by
      rw [hpin.1, RadixTree.setData_eq]
      exact wf_retag hw _
    unfold incLock
    rw [RadixPrefixCache.foldl_pin_nodes, RadixPrefixCache.foldl_pin_pageSize,
      setData_chain hw' hb, hpin.1]
    exact ⟨above_onlyAt c.nodes n.path (· + 1) (· + 1), hpin.2⟩

theorem decLock_spec {c c' : PrefixCache} (hw : WF ps c.nodes) {l : NodeRef}
    (hs : SnapLocked c.nodes (l :: L)) (h : decLock c l = .ok c') :
    c'.nodes = retag c.nodes (lockData l (· - 1) (· - 1)) ∧ c'.pageSize = c.pageSize := by
  unfold decLock at h
  obtain ⟨hnodes, hsize⟩ := RadixPrefixCache.foldlM_unpin h
  rcases hs.held l List.mem_cons_self with rfl | ⟨s, hsn⟩
  · have hnone : node? c.nodes [] = none := node?_eq_none.2 fun n hn => hw.path_ne_nil hn
    rw [retag_root hw]
    unfold unpinSnapshot at hnodes hsize
    rw [hnone] at hnodes hsize
    exact ⟨hnodes, hsize⟩
  · obtain ⟨n, hn, rfl, hval⟩ := mem_snaps.1 hsn
    have hpos : 0 < n.data.mambaRefCount := by
      rw [hs.refs n hn, hval]
      simp
    have hpin : (unpinSnapshot c n.path).nodes = (c.nodes.setData n.path fun d =>
        { d with mambaRefCount := d.mambaRefCount - 1 }) ∧
        (unpinSnapshot c n.path).pageSize = c.pageSize := by
      unfold unpinSnapshot
      rw [hw.node?_path hn]
      dsimp only
      rw [if_pos (by simp [hval, hpos])]
      split <;> exact ⟨rfl, rfl⟩
    have hb : Boundary (unpinSnapshot c n.path).nodes n.path := by
      rw [hpin.1, RadixTree.setData_eq]
      exact boundary_retag.2 (.inr ⟨n, hn, rfl⟩)
    have hw' : WF ps (unpinSnapshot c n.path).nodes := by
      rw [hpin.1, RadixTree.setData_eq]
      exact wf_retag hw _
    rw [setData_chain hw' hb, hpin.1] at hnodes
    exact ⟨hnodes.trans (above_onlyAt c.nodes n.path (· - 1) (· - 1)), hsize.trans hpin.2⟩

end HybridRadixCache

end FreeToken
