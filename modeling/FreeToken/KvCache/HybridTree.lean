import FreeToken.KvCache.Counters

/-!
# The invariant of a hybrid radix tree

`Sound` says what holds between any two calls of a `HybridRadixCache`: reference counts count the
outstanding locks, the counters are the recomputed sums, and every leaf owns a live snapshot.
-/

set_option autoImplicit false

namespace FreeToken

open BlockTrie Blocks

variable {ps : Nat} {t t' : RadixTree} {L : List NodeRef}

/-- Every leaf but the one at `p` owns a snapshot. -/
def LeavesBut (p : NodeRef) (t : RadixTree) : Prop :=
  ∀ n ∈ t, isLeaf t n.path = true → n.path ≠ p → n.data.mambaValue.isSome = true

/-- Every leaf owns a snapshot; the root's name is no node's. -/
def Leaves (t : RadixTree) : Prop := ∀ n ∈ t, isLeaf t n.path = true → n.data.mambaValue.isSome = true

theorem LeavesBut.leaves {p : NodeRef} (h : LeavesBut p t)
    (hp : ∀ n ∈ t, n.path = p → isLeaf t p = true → n.data.mambaValue.isSome = true) : Leaves t := by
  intro n hn hl
  by_cases hnp : n.path = p
  · exact hp n hn hnp (hnp ▸ hl)
  · exact h n hn hl hnp

theorem Leaves.but (h : Leaves t) (p : NodeRef) : LeavesBut p t := fun n hn hl _ => h n hn hl

/-- A locked leaf ends a lock, so it owns a snapshot. -/
theorem locked_leaf (h : Locked ps t L) (hs : SnapLocked t L) {n : RadixTreeNode} (hn : n ∈ t)
    (hl : isLeaf t n.path = true) (href : n.data.refCount ≠ 0) :
    n.path ∈ L ∧ n.data.mambaValue.isSome = true := by
  rw [h.refs n hn] at href
  obtain ⟨l, hlL, hpre⟩ := pins_pos.1 (Nat.pos_of_ne_zero href)
  have heq : n.path = l := by
    by_contra hne
    have hlt : n.path.length < l.length :=
      Nat.lt_of_le_of_ne hpre.length_le fun he => hne (hpre.eq_of_length he)
    obtain ⟨m, hm, hmp, -⟩ := h.wf.exists_child (.inr ⟨n, hn, rfl⟩) (h.bound l hlL) hpre hlt
    exact isLeaf_iff.1 hl m hm hmp
  rw [← heq] at hlL
  refine ⟨hlL, ?_⟩
  rcases hs.held n.path hlL with hroot | ⟨s, hs⟩
  · exact absurd hroot (h.wf.path_ne_nil hn)
  · obtain ⟨k, hk, hkp, hkv⟩ := mem_snaps.1 hs
    rw [← h.wf.eq_of_path hk hn hkp, hkv]
    rfl

/-- A node no lock counts on has no locked snapshot. -/
theorem mambaRef_of_ref (h : Locked ps t L) (hs : SnapLocked t L) {n : RadixTreeNode} (hn : n ∈ t)
    (href : n.data.refCount = 0) : n.data.mambaRefCount = 0 := by
  rw [hs.refs n hn]
  split
  · refine List.count_eq_zero.2 fun hmem => ?_
    exact h.not_prefix hn href hmem List.prefix_rfl
  · rfl

/-! ## Leaves through the edits -/

theorem isLeaf_retag {g : RadixTreeNode → NodeData} (p : NodeRef) :
    isLeaf (retag t g) p = isLeaf t p := by
  unfold isLeaf retag
  rw [List.all_map]
  rfl

theorem LeavesBut.retag {p : NodeRef} (h : LeavesBut p t) {g : RadixTreeNode → NodeData}
    (hg : ∀ n ∈ t, n.data.mambaValue.isSome = true → (g n).mambaValue.isSome = true) :
    LeavesBut p (FreeToken.retag t g) := by
  intro m hm hl hmp
  obtain ⟨n, hn, rfl⟩ := mem_retag.1 hm
  rw [isLeaf_retag] at hl
  exact hg n hn (h n hn hl hmp)

theorem Leaves.retag (h : Leaves t) {g : RadixTreeNode → NodeData}
    (hg : ∀ n ∈ t, n.data.mambaValue.isSome = true → (g n).mambaValue.isSome = true) :
    Leaves (FreeToken.retag t g) := by
  intro m hm hl
  obtain ⟨n, hn, rfl⟩ := mem_retag.1 hm
  rw [isLeaf_retag] at hl
  exact hg n hn (h n hn hl)

/-- A split leaves the leaf with the tail. -/
theorem Leaves.splitAt (h : Leaves t) (hw : WF ps t) {n : RadixTreeNode} {pos : Nat}
    (hc : Cut ps t n pos) : Leaves (t.splitAt n.path pos) := by
  have hold : ∀ {m k : RadixTreeNode}, k ∈ t → (∀ x ∈ t.splitAt n.path pos, x.pre ≠ m.path) →
      k.pre ≠ m.path := by
    intro m k hk hall
    by_cases hkn : k.path = n.path
    · obtain rfl := hw.eq_of_path hk hc.mem hkn
      exact hall { pre := k.pre, key := k.key.take pos, value := k.value.take pos,
                   data := k.data.splitPrefix }
        (mem_split.2 (.inr ⟨k, hk, rfl, Node.mem_halves.2 (.inl rfl)⟩))
    · exact hall k (mem_split.2 (.inl ⟨hk, hkn⟩))
  intro m hm hl
  rw [isLeaf_iff] at hl
  rcases mem_split.1 hm with ⟨hmt, hmp⟩ | ⟨k, hk, hkp, hmk⟩
  · exact h m hmt (isLeaf_iff.2 fun k hk => hold hk hl)
  · obtain rfl := hw.eq_of_path hk hc.mem hkp
    rcases Node.mem_halves.1 hmk with rfl | rfl
    · exact absurd rfl (hl _ (mem_split.2 (.inr ⟨k, hk, rfl, Node.mem_halves.2 (.inr rfl)⟩)))
    · refine h k hk (isLeaf_iff.2 fun x hx => ?_)
      rw [← k.path_right pos (k.value.drop pos) (NodeData.splitSuffix k.data)]
      exact hold hx hl

theorem Leaves.reshape (h : Leaves t) (hw : WF ps t) (hr : Reshape ps t t') : Leaves t' := by
  induction hr with
  | refl => exact h
  | cut hr hc ih => exact ih.splitAt (hr.wf hw) hc
  | touch _ p tic ih =>
      rw [RadixTree.touch_eq]
      refine ih.retag fun n _ hn => ?_
      unfold onlyAt
      split <;> exact hn

theorem Leaves.graft (h : Leaves t) (n : RadixTreeNode) :
    LeavesBut n.path (BlockTrie.graft t n) := by
  intro m hm hl hmp
  rcases List.mem_append.1 hm with hm | hm
  · refine h m hm (isLeaf_iff.2 fun k hk => ?_)
    exact isLeaf_iff.1 hl k (List.mem_append_left _ hk)
  · exact absurd (congrArg Node.path (List.mem_singleton.1 hm)) hmp

/-- Removing a leaf can expose its parent only. -/
theorem LeavesBut.prune {n : RadixTreeNode} (h : LeavesBut n.path t) (hw : WF ps t) (hn : n ∈ t) :
    LeavesBut n.pre (BlockTrie.prune t n.path) := by
  intro m hm hl hmp
  obtain ⟨hmt, hmn⟩ := mem_prune.1 hm
  refine h m hmt (isLeaf_iff.2 fun k hk hkm => ?_) hmn
  by_cases hkn : k.path = n.path
  · obtain rfl := hw.eq_of_path hk hn hkn
    exact hmp hkm.symm
  · exact isLeaf_iff.1 hl k (mem_prune.2 ⟨hk, hkn⟩) hkm

/-! ## Donating -/

/-- A donated snapshot fills a node that had none, and that nobody locked. -/
theorem SnapLocked.donate (h : SnapLocked t L) (hw : WF ps t) {n : RadixTreeNode} (hn : n ∈ t)
    (hnone : n.data.mambaValue = none) (slot : Nat) :
    SnapLocked (t.setData n.path fun d => { d with mambaValue := some slot }) L ∧
      (FreeToken.snaps (t.setData n.path fun d => { d with mambaValue := some slot })).Perm
        ((n.path, slot) :: FreeToken.snaps t) := by
  have hperm : (FreeToken.snaps (t.setData n.path fun d => { d with mambaValue := some slot })).Perm
      ((n.path, slot) :: FreeToken.snaps t) := by
    have hset := hw.modify_perm hn fun m => { m with data := { m.data with mambaValue := some slot } }
    refine (hset.filterMap snapOf).trans ?_
    refine List.Perm.trans ?_ (((hw.perm_prune hn).filterMap snapOf).symm.cons _)
    refine List.Perm.of_eq ?_
    rw [List.filterMap_cons, List.filterMap_cons]
    simp [snapOf, hnone, Node.path]
  have hnotL : n.path ∉ L := by
    intro hmem
    rcases h.held n.path hmem with hroot | ⟨s', hs'⟩
    · exact hw.path_ne_nil hn hroot
    · obtain ⟨m, hm, hmp, hmv⟩ := mem_snaps.1 hs'
      rw [hw.eq_of_path hm hn hmp, hnone] at hmv
      cases hmv
  refine ⟨⟨?_, ?_⟩, hperm⟩
  · intro m hm
    rw [RadixTree.setData_eq] at hm
    obtain ⟨x, hx, rfl⟩ := mem_retag.1 hm
    show (onlyAt n.path _ x).mambaRefCount =
      if (onlyAt n.path _ x).mambaValue.isSome then L.count x.path else 0
    by_cases hxp : x.path = n.path
    · obtain rfl := hw.eq_of_path hx hn hxp
      simp only [onlyAt, if_pos]
      rw [h.refs x hx, hnone]
      simpa using (List.count_eq_zero.2 hnotL).symm
    · simp only [onlyAt, if_neg hxp]
      exact h.refs x hx
  · intro l hl
    refine (h.held l hl).imp_right ?_
    rintro ⟨s', hs'⟩
    exact ⟨s', hperm.mem_iff.2 (List.mem_cons_of_mem _ hs')⟩

namespace HybridRadixCache

/-- What holds of a hybrid cache between two calls, with the outstanding locks `L`. -/
structure Sound (ps : Nat) (L : List NodeRef) (c : PrefixCache) : Prop where
  size : c.pageSize = ps
  locked : Locked ps c.nodes L
  snapped : SnapLocked c.nodes L
  tokens : TokensTallied c
  snaps : SnapsTallied c
  leaves : Leaves c.nodes

theorem Sound.empty (ps window : Nat) : Sound ps [] (PrefixCache.empty ps window) where
  size := rfl
  locked := Locked.nil ps
  snapped := SnapLocked.nil
  tokens := ⟨rfl, rfl⟩
  snaps := ⟨rfl, rfl⟩
  leaves := by
    intro n hn
    cases hn

variable {c : PrefixCache}

theorem Sound.walk (hps : 0 < ps) (h : Sound ps L c) (ids : List Token) (tic : Nat) :
    Sound ps L (walk c ids tic).1 ∧ Walked ps c.nodes ids (walk c ids tic).1.nodes (walk c ids tic).2 := by
  have hsize := h.size
  subst hsize
  have hw := RadixPrefixCache.treeWalk_spec hps h.locked.wf ids tic
  exact ⟨⟨rfl, hw.reshape.locked h.locked, hw.reshape.snapLocked h.snapped,
    h.tokens.reshape h.locked.wf hw.reshape, h.snaps.reshape h.locked.wf hw.reshape,
    h.leaves.reshape h.locked.wf hw.reshape⟩, hw⟩

theorem Sound.matchPrefix (hps : 0 < ps) (h : Sound ps L c) (ids : List Token) (tic : Nat) :
    Sound ps L (matchPrefix c ids tic).1 := by
  have hw := (h.walk hps ids tic).1
  unfold HybridRadixCache.matchPrefix
  dsimp only
  split <;> exact hw

/-! ## Inserting -/

/-- `Sound`, but for the leaf that may stand at `p` without a snapshot. -/
structure SoundBut (ps : Nat) (L : List NodeRef) (p : NodeRef) (c : PrefixCache) : Prop where
  size : c.pageSize = ps
  locked : Locked ps c.nodes L
  snapped : SnapLocked c.nodes L
  tokens : TokensTallied c
  snaps : SnapsTallied c
  leaves : LeavesBut p c.nodes

theorem Sound.hang (h : Sound ps L c) {ids : List Token} {kv : List Nat} {k : Nat}
    (hlen : kv.length = ids.length) (hdvd : ps ∣ ids.length) (hk : k ≤ ids.length)
    (hb : Boundary c.nodes (ids.take k))
    (hstop : k < ids.length → ∀ m ∈ c.nodes, m.pre = ids.take k →
      m.key.take ps ≠ (ids.drop k).take ps) (tic : Nat) :
    SoundBut ps L ids (RadixPrefixCache.hangSuffix c ids kv k tic) := by
  unfold RadixPrefixCache.hangSuffix
  split
  · rename_i hne
    have hlt : k < ids.length := Nat.lt_of_le_of_ne hk hne
    have hdk : ps ∣ k := by
      have := h.locked.wf.boundary_dvd hb
      rwa [List.length_take, Nat.min_eq_left hk] at this
    have hpath : (Node.mk (ids.take k) (ids.drop k) (kv.drop k) (NodeData.fresh tic)).path = ids :=
      List.take_append_drop k ids
    refine ⟨h.size, h.locked.graft hb ?_ ?_ ?_ (hstop hlt) rfl, h.snapped.graft rfl rfl,
      h.tokens.graft rfl rfl rfl rfl, h.snaps.graft rfl rfl rfl rfl, ?_⟩
    · rw [ne_eq, ← List.length_eq_zero_iff, List.length_drop]
      omega
    · rw [List.length_drop]
      exact Nat.dvd_sub hdvd hdk
    · rw [List.length_drop, List.length_drop, hlen]
    · have := h.leaves.graft (Node.mk (ids.take k) (ids.drop k) (kv.drop k) (NodeData.fresh tic))
      rwa [hpath] at this
  · exact ⟨h.size, h.locked, h.snapped, h.tokens, h.snaps, h.leaves.but ids⟩

theorem donated {ids : NodeRef} (h : SoundBut ps L ids c) (slot : Nat) :
    Sound ps L (donate c ids slot).1 ∧
      ∀ x ∈ snaps c.nodes, x ∈ snaps (donate c ids slot).1.nodes := by
  have hw := h.locked.wf
  unfold HybridRadixCache.donate
  split
  · rename_i hnone
    refine ⟨⟨h.size, h.locked, h.snapped, h.tokens, h.snaps,
      h.leaves.leaves fun n hn hnp _ => ?_⟩, fun _ hx => hx⟩
    exact absurd hnp (node?_eq_none.1 hnone n hn)
  · rename_i n hfind
    obtain ⟨hn, rfl⟩ := mem_of_node? hfind
    split
    · rename_i hsome
      refine ⟨⟨h.size, h.locked, h.snapped, h.tokens, h.snaps,
        h.leaves.leaves fun m hm hmp _ => ?_⟩, fun _ hx => hx⟩
      rw [hw.eq_of_path hm hn hmp]
      exact hsome
    · rename_i hnone
      have hnil : n.data.mambaValue = none := by simpa using hnone
      have href : n.data.mambaRefCount = 0 := by
        rw [h.snapped.refs n hn, hnil]
        rfl
      obtain ⟨hsnapped, hperm⟩ := h.snapped.donate hw hn hnil slot
      refine ⟨⟨h.size, ?_, hsnapped, ?_, ?_, ?_⟩,
        fun x hx => hperm.mem_iff.2 (List.mem_cons_of_mem _ hx)⟩
      · refine h.locked.setData n.path (f := fun d => { d with mambaValue := some slot }) ?_
        exact fun _ => rfl
      · refine h.tokens.setData (g := fun d => { d with mambaValue := some slot }) ?_ rfl rfl rfl
        exact fun _ => rfl
      · refine h.snaps.set hw hn (fun d => { d with mambaValue := some slot }) rfl ?_ ?_
        · simp [freeSnapshots, hnil, href]
        · simp [lockedSnapshots, hnil, href]
      · intro m hm hl
        rw [RadixTree.setData_eq] at hm hl
        obtain ⟨x, hx, rfl⟩ := mem_retag.1 hm
        rw [isLeaf_retag] at hl
        show (onlyAt n.path _ x).mambaValue.isSome = true
        unfold onlyAt
        split
        · rfl
        · rename_i hxp
          exact h.leaves x hx hl hxp

theorem Sound.insert (hps : 0 < ps) (h : Sound ps L c) {ids : List Token} {kv : List Nat}
    (hlen : kv.length = ids.length) (slot tic newTic : Nat) :
    Sound ps L (insert c ids kv slot tic newTic).1 ∧
      ∀ x ∈ FreeToken.snaps c.nodes,
        x ∈ FreeToken.snaps (insert c ids kv slot tic newTic).1.nodes := by
  unfold HybridRadixCache.insert
  dsimp only
  rw [h.size]
  have hle := alignDown_le ids.length ps
  have htake : (ids.take (alignDown ids.length ps)).length = alignDown ids.length ps := by
    rw [List.length_take, Nat.min_eq_left hle]
  obtain ⟨hs, hw⟩ := h.walk hps (ids.take (alignDown ids.length ps)) tic
  have hkv : (kv.take (alignDown ids.length ps)).length =
      (ids.take (alignDown ids.length ps)).length := by
    rw [htake, List.length_take, hlen, Nat.min_eq_left hle]
  have hdvd : ps ∣ (ids.take (alignDown ids.length ps)).length := by
    rw [htake]
    exact dvd_alignDown _ _
  obtain ⟨hsound, hkeep⟩ := donated (hs.hang hkv hdvd hw.le hw.bound hw.stop newTic) slot
  refine ⟨hsound, fun x hx => hkeep x ?_⟩
  rw [hangSuffix_snaps, hw.reshape.snaps_eq]
  exact hx

/-! ## Locks -/

theorem tallied_pinSnapshot (hw : WF ps c.nodes) (ht : TokensTallied c) (hs : SnapsTallied c)
    (l : NodeRef) : TokensTallied (pinSnapshot c l) ∧ SnapsTallied (pinSnapshot c l) := by
  unfold pinSnapshot
  split
  · exact ⟨ht, hs⟩
  · rename_i n hfind
    obtain ⟨hn, rfl⟩ := mem_of_node? hfind
    split
    · rename_i hsome
      dsimp only
      constructor
      · refine ht.setData (p := n.path)
          (g := fun d => { d with mambaRefCount := d.mambaRefCount + 1 }) (fun _ => rfl) ?_ ?_ ?_
          <;> split <;> rfl
      · split
        · rename_i hz
          refine hs.set hw hn (fun d => { d with mambaRefCount := d.mambaRefCount + 1 }) rfl ?_ ?_
          · simp [freeSnapshots, hsome, hz]
          · simp [lockedSnapshots, hsome, hz]
        · rename_i hz
          refine hs.set hw hn (fun d => { d with mambaRefCount := d.mambaRefCount + 1 }) rfl ?_ ?_
          · simp [freeSnapshots, hz]
          · simp [lockedSnapshots, hsome, hz]
    · exact ⟨ht, hs⟩

theorem tallied_unpinSnapshot (hw : WF ps c.nodes) (ht : TokensTallied c) (hs : SnapsTallied c)
    (l : NodeRef) : TokensTallied (unpinSnapshot c l) ∧ SnapsTallied (unpinSnapshot c l) := by
  unfold unpinSnapshot
  split
  · exact ⟨ht, hs⟩
  · rename_i n hfind
    obtain ⟨hn, rfl⟩ := mem_of_node? hfind
    split
    · rename_i hcond
      simp only [Bool.and_eq_true, decide_eq_true_eq] at hcond
      obtain ⟨hsome, hpos⟩ := hcond
      dsimp only
      constructor
      · refine ht.setData (p := n.path)
          (g := fun d => { d with mambaRefCount := d.mambaRefCount - 1 }) (fun _ => rfl) ?_ ?_ ?_
          <;> split <;> rfl
      · split
        · rename_i hone
          refine hs.set hw hn (fun d => { d with mambaRefCount := d.mambaRefCount - 1 }) rfl ?_ ?_
          · simp [freeSnapshots, hsome, hone]
          · simp [lockedSnapshots, hsome, hone]
        · rename_i hone
          have hne : n.data.mambaRefCount ≠ 0 := by omega
          have hne' : n.data.mambaRefCount - 1 ≠ 0 := by omega
          refine hs.set hw hn (fun d => { d with mambaRefCount := d.mambaRefCount - 1 }) rfl ?_ ?_
          · simp [freeSnapshots, hne, hne']
          · simp [lockedSnapshots, hsome, hne, hne']
    · exact ⟨ht, hs⟩

theorem pinSnapshot_nodes (c : PrefixCache) (l : NodeRef) : ∃ f : NodeData → NodeData,
    (pinSnapshot c l).nodes = c.nodes.setData l f := by
  unfold pinSnapshot
  split
  · exact ⟨id, (List.map_id _).symm.trans (List.map_congr_left fun n _ => by split <;> rfl)⟩
  · split
    · refine ⟨fun d => { d with mambaRefCount := d.mambaRefCount + 1 }, ?_⟩
      dsimp only
      split <;> rfl
    · exact ⟨id, (List.map_id _).symm.trans (List.map_congr_left fun n _ => by split <;> rfl)⟩

theorem unpinSnapshot_nodes (c : PrefixCache) (l : NodeRef) : ∃ f : NodeData → NodeData,
    (∀ d, (f d).refCount = d.refCount) ∧ (unpinSnapshot c l).nodes = c.nodes.setData l f := by
  unfold unpinSnapshot
  split
  · exact ⟨id, fun _ => rfl,
      (List.map_id _).symm.trans (List.map_congr_left fun n _ => by split <;> rfl)⟩
  · split
    · refine ⟨fun d => { d with mambaRefCount := d.mambaRefCount - 1 }, fun _ => rfl, ?_⟩
      dsimp only
      split <;> rfl
    · exact ⟨id, fun _ => rfl,
        (List.map_id _).symm.trans (List.map_congr_left fun n _ => by split <;> rfl)⟩

theorem Sound.incLock (h : Sound ps L c) {l : NodeRef} (hl : Lockable c.nodes l) :
    Sound ps (l :: L) (incLock c l) := by
  obtain ⟨hnodes, hsize⟩ := incLock_spec h.locked.wf hl
  obtain ⟨f, hf⟩ := pinSnapshot_nodes c l
  have hw : WF ps (pinSnapshot c l).nodes := by
    rw [hf]
    exact wf_setData h.locked.wf _ _
  have hb : Boundary (pinSnapshot c l).nodes l := by
    rw [hf, RadixTree.setData_eq]
    exact boundary_retag.2 hl.boundary
  obtain ⟨ht, hs⟩ := tallied_pinSnapshot h.locked.wf h.tokens h.snaps l
  have ht := ht.foldl_pin (chain (pinSnapshot c l).nodes l) (pinSnapshot c l) hw
    (fun n hn => ((hw.mem_chain hb).1 hn).1) (hw.chain_nodup hb)
  refine ⟨hsize.trans h.size, ?_, ?_, ht, hs.foldl_pin _ _, ?_⟩
  · rw [hnodes]
    refine h.locked.pin hl.boundary fun n _ => ?_
    show (if n.path <+: l then n.data.refCount + 1 else n.data.refCount) = _
    split <;> rfl
  · rw [hnodes]
    exact h.snapped.lock hl h.locked.wf
  · rw [hnodes]
    exact h.leaves.retag fun n _ hn => hn

/-- An outstanding lock comes off. -/
theorem Sound.decLock {l : NodeRef} (h : Sound ps (l :: L) c) :
    ∃ d, decLock c l = .ok d ∧ Sound ps L d := by
  obtain ⟨f, hf, hset⟩ := unpinSnapshot_nodes c l
  have hw : WF ps (unpinSnapshot c l).nodes := by
    rw [hset]
    exact wf_setData h.locked.wf _ _
  have hb : Boundary (unpinSnapshot c l).nodes l := by
    rw [hset, RadixTree.setData_eq]
    exact boundary_retag.2 (h.locked.bound l List.mem_cons_self)
  have hpos : ∀ n ∈ chain (unpinSnapshot c l).nodes l, 0 < n.data.refCount := by
    intro n hn
    obtain ⟨hn, hpre⟩ := (hw.mem_chain hb).1 hn
    rw [hset] at hn
    rw [(h.locked.setData l hf).refs n hn, pins_cons, if_pos hpre]
    exact Nat.succ_pos _
  obtain ⟨d, hd⟩ := RadixPrefixCache.foldlM_unpin_ok (unpinSnapshot c l) hpos
  obtain ⟨hnodes, hsize⟩ := decLock_spec h.locked.wf h.snapped hd
  obtain ⟨ht, hs⟩ := tallied_unpinSnapshot h.locked.wf h.tokens h.snaps l
  have ht := ht.foldlM_unpin _ _ d hw (fun n hn => ((hw.mem_chain hb).1 hn).1)
    (hw.chain_nodup hb) hd
  refine ⟨d, hd, hsize.trans h.size, ?_, ?_, ht, hs.foldlM_unpin hd, ?_⟩
  · rw [hnodes]
    refine h.locked.unpin fun n _ => ?_
    show (if n.path <+: l then n.data.refCount - 1 else n.data.refCount) = _
    split <;> rfl
  · rw [hnodes]
    exact h.snapped.unlock
  · rw [hnodes]
    exact h.leaves.retag fun n _ hn => hn

/-! ## Evictions -/

/-- What an eviction does to a cache: it gives up the snapshots `gone`, none of them locked. -/
structure Frees (ps : Nat) (L : List NodeRef) (c d : PrefixCache) (gone : List (NodeRef × Nat)) :
    Prop where
  sound : Sound ps L d
  snaps : (FreeToken.snaps c.nodes).Perm (gone ++ FreeToken.snaps d.nodes)
  kept : ∀ p ∈ gone, p.1 ∉ L

theorem Frees.refl (h : Sound ps L c) : Frees ps L c c [] :=
  ⟨h, List.Perm.refl _, fun _ hp => by cases hp⟩

theorem Frees.trans {d e : PrefixCache} {gone gone' : List (NodeRef × Nat)}
    (h : Frees ps L c d gone) (h' : Frees ps L d e gone') : Frees ps L c e (gone ++ gone') where
  sound := h'.sound
  snaps := by
    rw [List.append_assoc]
    exact h.snaps.trans (h'.snaps.append_left _)
  kept := fun p hp => (List.mem_append.1 hp).elim (h.kept p) (h'.kept p)

/-- The cascade settles the leaf an unlink left behind, and gives up no snapshot. -/
theorem SoundBut.cascade : ∀ (fuel : Nat) (c : PrefixCache) (p : NodeRef) (kv : List Nat)
    (freed : Nat), SoundBut ps L p c → c.nodes.length ≤ fuel →
    Sound ps L (cascadeTombstoneLeaves fuel c p kv freed).1 ∧
      (∀ n ∈ c.nodes, n.data.mambaValue.isSome = true →
        n ∈ (cascadeTombstoneLeaves fuel c p kv freed).1.nodes) ∧
      (FreeToken.snaps c.nodes).Perm
        (FreeToken.snaps (cascadeTombstoneLeaves fuel c p kv freed).1.nodes) := by
  intro fuel
  induction fuel with
  | zero =>
      intro c p kv freed h hlen
      have hnil : c.nodes = [] := List.length_eq_zero_iff.1 (Nat.le_zero.1 hlen)
      refine ⟨⟨h.size, h.locked, h.snapped, h.tokens, h.snaps, ?_⟩, fun n hn _ => hn, .refl _⟩
      intro n hn
      rw [cascadeTombstoneLeaves, hnil] at hn
      cases hn
  | succ fuel ih =>
      intro c p kv freed h hlen
      have hw := h.locked.wf
      rw [cascadeTombstoneLeaves]
      split
      · rename_i hnone
        refine ⟨⟨h.size, h.locked, h.snapped, h.tokens, h.snaps, ?_⟩, fun n hn _ => hn, .refl _⟩
        exact h.leaves.leaves fun n hn hnp _ => absurd hnp (node?_eq_none.1 hnone n hn)
      · rename_i n hfind
        obtain ⟨hn, rfl⟩ := mem_of_node? hfind
        split
        · rename_i hcond
          simp only [Bool.and_eq_true, decide_eq_true_eq, Option.isNone_iff_eq_none] at hcond
          obtain ⟨⟨hnone, hleaf⟩, href⟩ := hcond
          have hmref : n.data.mambaRefCount = 0 := mambaRef_of_ref h.locked h.snapped hn href
          have hperm := hw.perm_prune hn
          have hsnaps := snaps_prune hw hn
          simp only [snapOf, hnone, Option.map_none, Option.toList_none, List.nil_append] at hsnaps
          obtain ⟨hsound, hkeep, hsame⟩ := ih
            { c with
              fullEvictable := c.fullEvictable - n.length
              nodes := BlockTrie.prune c.nodes n.path }
            n.pre (kv ++ n.value) (freed + n.length)
            ⟨h.size, h.locked.prune hn hleaf href, h.snapped.prune fun hl => h.locked.not_prefix hn href hl List.prefix_rfl,
              h.tokens.prune hw hn href rfl rfl rfl,
              h.snaps.prune hw hn hmref rfl (by simp [hnone]) rfl, h.leaves.prune hw hn⟩
            (by rw [hperm.length_eq, List.length_cons] at hlen; exact Nat.le_of_succ_le_succ hlen)
          refine ⟨hsound, fun m hm hs => hkeep m (mem_prune.2 ⟨hm, fun hp => ?_⟩) hs,
            hsnaps.trans hsame⟩
          rw [hw.eq_of_path hm hn hp, hnone] at hs
          cases hs
        · rename_i hcond
          refine ⟨⟨h.size, h.locked, h.snapped, h.tokens, h.snaps, ?_⟩, fun n hn _ => hn, .refl _⟩
          refine h.leaves.leaves fun m hm hmp hl => ?_
          obtain rfl := hw.eq_of_path hm hn hmp
          by_cases href : m.data.refCount = 0
          · simpa [hl, href, ← Option.isSome_iff_ne_none] using hcond
          · exact (locked_leaf h.locked h.snapped hm hl href).2

/-- The cache after a leaf nobody locked is unlinked with its snapshot. -/
def unlinkLeaf (c : PrefixCache) (n : RadixTreeNode) (out : List Nat) : PrefixCache :=
  let d := (freeNodeMamba { c with fullEvictable := c.fullEvictable - n.length } n out).1
  { d with nodes := BlockTrie.prune d.nodes n.path }

theorem Sound.unlinkedLeaf (h : Sound ps L c) {n : RadixTreeNode} (hn : n ∈ c.nodes)
    (hl : isLeaf c.nodes n.path = true) (href : n.data.refCount = 0) (out : List Nat) :
    SoundBut ps L n.pre (unlinkLeaf c n out) ∧
      (unlinkLeaf c n out).nodes = BlockTrie.prune c.nodes n.path := by
  have hw := h.locked.wf
  have hmref := mambaRef_of_ref h.locked h.snapped hn href
  have hnodes : (unlinkLeaf c n out).nodes = BlockTrie.prune c.nodes n.path :=
    (freeNodeMamba_eq { c with fullEvictable := c.fullEvictable - n.length } n out).2.2
  refine ⟨⟨?_, ?_, ?_, ?_, ?_, ?_⟩, hnodes⟩
  · exact (freeNodeMamba_eq { c with fullEvictable := c.fullEvictable - n.length } n out).1.trans
      h.size
  · rw [hnodes]
    exact h.locked.prune hn hl href
  · rw [hnodes]
    exact h.snapped.prune fun hmem => h.locked.not_prefix hn href hmem List.prefix_rfl
  · refine h.tokens.prune hw hn href hnodes ?_ ?_ <;>
      unfold unlinkLeaf freeNodeMamba <;> dsimp only <;> split <;> rfl
  · refine h.snaps.prune hw hn hmref hnodes ?_ ?_ <;>
      unfold unlinkLeaf freeNodeMamba <;> dsimp only <;> split
    · rename_i hnone
      simp [hnone]
    · rename_i hsome
      simp [hsome, hmref]
    · rfl
    · rfl
  · rw [hnodes]
    exact (h.leaves.but n.path).prune hw hn

/-- A whole round on a leaf: its snapshot goes, and the leaves its removal exposed. -/
theorem Sound.removeLeaf (h : Sound ps L c) {n : RadixTreeNode} (hn : n ∈ c.nodes)
    (hl : isLeaf c.nodes n.path = true) (href : n.data.refCount = 0) (out : List Nat)
    (kv : List Nat) :
    Frees ps L c (cascadeTombstoneLeaves (unlinkLeaf c n out).nodes.length (unlinkLeaf c n out)
        n.pre kv 0).1 (snapOf n).toList ∧
      ∀ m ∈ c.nodes, m.path ≠ n.path → m.data.mambaValue.isSome = true →
        m ∈ (cascadeTombstoneLeaves (unlinkLeaf c n out).nodes.length (unlinkLeaf c n out)
          n.pre kv 0).1.nodes := by
  obtain ⟨hbut, hnodes⟩ := h.unlinkedLeaf hn hl href out
  obtain ⟨hsound, hkeep, hsame⟩ := SoundBut.cascade _ _ n.pre kv 0 hbut le_rfl
  refine ⟨⟨hsound, ?_, ?_⟩, ?_⟩
  · refine (snaps_prune h.locked.wf hn).trans (List.Perm.append_left _ ?_)
    rw [← hnodes]
    exact hsame
  · intro p hp
    rw [Option.mem_toList, snapOf, Option.map_eq_some_iff] at hp
    obtain ⟨s, -, rfl⟩ := hp
    exact fun hmem => h.locked.not_prefix hn href hmem List.prefix_rfl
  · intro m hm hmn hsome
    refine hkeep m ?_ hsome
    rw [hnodes]
    exact mem_prune.2 ⟨hm, hmn⟩

/-- The snapshot of a node that stays in the tree goes. -/
theorem Sound.tombstone (h : Sound ps L c) {n : RadixTreeNode} (hn : n ∈ c.nodes) {s : Nat}
    (hval : n.data.mambaValue = some s) (hmref : n.data.mambaRefCount = 0)
    (hstays : ¬(isLeaf c.nodes n.path = true ∧ n.data.refCount = 0)) (out : List Nat) :
    Frees ps L c (freeNodeMamba c n out).1 [(n.path, s)] ∧
      ∀ m ∈ c.nodes, m.path ≠ n.path → m ∈ (freeNodeMamba c n out).1.nodes := by
  have hw := h.locked.wf
  have hnot := h.snapped.not_mem hn (by rw [hval]; rfl) hmref
  unfold freeNodeMamba
  rw [hval]
  dsimp only
  refine ⟨⟨⟨h.size, ?_, h.snapped.tombstone hw hn hval hmref, ?_, ?_, ?_⟩,
    snaps_tombstone hw hn hval, ?_⟩, fun m hm hmn => mem_setData_of_ne hm hmn⟩
  · exact h.locked.setData n.path (f := fun d => { d with mambaValue := none }) fun _ => rfl
  · exact h.tokens.setData (g := fun d => { d with mambaValue := none }) (fun _ => rfl) rfl rfl rfl
  · refine h.snaps.set hw hn (fun d => { d with mambaValue := none }) rfl ?_ ?_
    · simp [freeSnapshots, hval, hmref]
    · simp [lockedSnapshots, hmref]
  · -- a locked leaf ends a lock, and this node ends none
    intro m hm hl
    rw [RadixTree.setData_eq] at hm hl
    obtain ⟨k, hk, rfl⟩ := mem_retag.1 hm
    rw [isLeaf_retag] at hl
    show (onlyAt n.path _ k).mambaValue.isSome = true
    unfold onlyAt
    split
    · rename_i hkn
      obtain rfl := hw.eq_of_path hk hn hkn
      have href : k.data.refCount ≠ 0 := fun hz => hstays ⟨hl, hz⟩
      exact absurd (locked_leaf h.locked h.snapped hk hl href).1 hnot
    · exact h.leaves k hk hl
  · intro p hp
    rw [List.mem_singleton.1 hp]
    exact hnot

/-- The outcome `r` of a loop that began at `c` with the slots reported so far. -/
def Evicted (ps : Nat) (L : List NodeRef) (c : PrefixCache) (slots : List Nat)
    (r : PrefixCache × EvictResult) : Prop :=
  ∃ gone, Frees ps L c r.1 gone ∧ r.2.mambaSlots = slots ++ gone.map Prod.snd

theorem Evicted.refl (h : Sound ps L c) (out : EvictResult) : Evicted ps L c out.mambaSlots (c, out) :=
  ⟨[], .refl h, (List.append_nil _).symm⟩

theorem Evicted.trans {d : PrefixCache} {gone : List (NodeRef × Nat)} {slots slots' : List Nat}
    {r : PrefixCache × EvictResult} (h : Frees ps L c d gone)
    (hslots : slots' = slots ++ gone.map Prod.snd) (h' : Evicted ps L d slots' r) :
    Evicted ps L c slots r := by
  obtain ⟨gone', hfrees, hout⟩ := h'
  refine ⟨gone ++ gone', h.trans hfrees, ?_⟩
  rw [hout, hslots, List.map_append, List.append_assoc]

theorem evictFullLoop_evicted {num : Nat} : ∀ (fuel : Nat) (heap : List RadixTreeNode)
    (freed : Nat) (c : PrefixCache) (out : EvictResult), Sound ps L c →
    Evicted ps L c out.mambaSlots (evictFullLoop num fuel heap freed c out) := by
  intro fuel
  induction fuel with
  | zero => exact fun _ _ c out h => .refl h out
  | succ fuel ih =>
      intro heap freed c out h
      rw [evictFullLoop]
      split
      · split
        · exact .refl h out
        · split
          · exact ih _ _ _ _ h
          · rename_i n hfind
            obtain ⟨hn, -⟩ := mem_of_node? hfind
            split
            · exact ih _ _ _ _ h
            · rename_i hfree
              simp only [Bool.or_eq_true, decide_eq_true_eq, Bool.not_eq_true', not_or,
                Bool.not_eq_false, not_not] at hfree
              have hone := (h.removeLeaf hn hfree.2 hfree.1 out.mambaSlots
                (out.kvIndices ++ n.value)).1
              exact .trans hone (freeNodeMamba_eq
                { c with fullEvictable := c.fullEvictable - n.length } n out.mambaSlots).2.1
                (ih _ _ _ _ hone.sound)
      · exact .refl h out

/-- The snapshots an eviction may take. -/
def candidates (c : PrefixCache) : List RadixTreeNode :=
  c.nodes.filter fun n => n.data.mambaValue.isSome && n.data.mambaRefCount = 0

theorem mem_candidates {n : RadixTreeNode} : n ∈ candidates c ↔
    n ∈ c.nodes ∧ n.data.mambaValue.isSome = true ∧ n.data.mambaRefCount = 0 := by
  simp [candidates]

/-- Every entry of the heap is a snapshot that may go, so every round takes one. -/
theorem evictMambaLoop_evicted (num : Nat) : ∀ (fuel : Nat) (heap : List RadixTreeNode)
    (freed : Nat) (c : PrefixCache) (out : EvictResult), Sound ps L c →
    (∀ n ∈ heap, n ∈ candidates c) → heap.Nodup → heap.length ≤ fuel →
    Evicted ps L c out.mambaSlots (evictMambaLoop num fuel heap freed c out) ∧
      (evictMambaLoop num fuel heap freed c out).2.mambaSlots.length =
        out.mambaSlots.length + min (num - freed) heap.length := by
  intro fuel
  induction fuel with
  | zero =>
      intro heap freed c out h _ _ hlen
      rw [List.length_eq_zero_iff.1 (Nat.le_zero.1 hlen)]
      exact ⟨.refl h out, by simp [evictMambaLoop]⟩
  | succ fuel ih =>
      intro heap freed c out h hheap hnd hlen
      rw [evictMambaLoop]
      split
      · rename_i hfreed
        split
        · rename_i hpop
          rw [RadixPrefixCache.heappop_none hpop]
          exact ⟨.refl h out, by simp⟩
        · rename_i node rest hpop
          have hw := h.locked.wf
          have htree : ∀ x ∈ heap, x ∈ c.nodes := fun x hx => (mem_candidates.1 (hheap x hx)).1
          have hperm := RadixPrefixCache.heappop_perm hpop fun x hx y hy =>
            hw.eq_of_path (htree x hx) (htree y hy)
          have hcons := hperm.length_eq
          have hnd' := List.nodup_cons.1 (hperm.nodup_iff.1 hnd)
          have hnode := hperm.mem_iff.2 (List.mem_cons_self (a := node))
          obtain ⟨hn, hsome, hmref⟩ := mem_candidates.1 (hheap node hnode)
          obtain ⟨s, hval⟩ := Option.isSome_iff_exists.1 hsome
          have hround : ∀ d, (∀ m ∈ c.nodes, m.path ≠ node.path → m.data.mambaValue.isSome = true →
              m ∈ d.nodes) → ∀ m ∈ rest, m ∈ candidates d := by
            intro d hkeep m hm
            obtain ⟨hmc, hms, hmr⟩ := mem_candidates.1
              (hheap m (hperm.mem_iff.2 (List.mem_cons_of_mem _ hm)))
            refine mem_candidates.2 ⟨hkeep m hmc (fun hp => ?_) hms, hms, hmr⟩
            exact hnd'.1 (hw.eq_of_path hmc hn hp ▸ hm)
          have hcount : ∀ out' : List Nat, out'.length = out.mambaSlots.length + 1 →
              out'.length + min (num - (freed + 1)) rest.length =
                out.mambaSlots.length + min (num - freed) heap.length := by
            intro out' hout'
            rw [List.length_cons] at hcons
            omega
          have hrest : rest.length ≤ fuel := by
            rw [List.length_cons] at hcons
            omega
          rw [hw.node?_path hn]
          dsimp only
          rw [if_neg (by simp [hval, hmref])]
          split
          · rename_i hfree
            simp only [Bool.and_eq_true, decide_eq_true_eq] at hfree
            obtain ⟨hone, hkeep⟩ := h.removeLeaf hn hfree.1 hfree.2 out.mambaSlots
              (out.kvIndices ++ node.value)
            have hslots := (freeNodeMamba_eq
              { c with fullEvictable := c.fullEvictable - node.length } node out.mambaSlots).2.1
            obtain ⟨hev, hlen'⟩ := ih rest (freed + 1) _ _ hone.sound (hround _ hkeep) hnd'.2 hrest
            refine ⟨.trans hone hslots hev, hlen'.trans (hcount _ ?_)⟩
            rw [hslots, snapOf, hval]
            simp
          · rename_i hstays
            simp only [Bool.and_eq_true, decide_eq_true_eq] at hstays
            obtain ⟨hone, hkeep⟩ := h.tombstone hn hval hmref hstays out.mambaSlots
            have hslots := (freeNodeMamba_eq c node out.mambaSlots).2.1
            rw [snapOf, hval] at hslots
            obtain ⟨hev, hlen'⟩ := ih rest (freed + 1) _ _ hone.sound
              (hround _ fun m hm hmn _ => hkeep m hm hmn) hnd'.2 hrest
            refine ⟨.trans hone hslots hev, hlen'.trans (hcount _ ?_)⟩
            rw [hslots]
            simp
      · refine ⟨.refl h out, ?_⟩
        rename_i hfreed
        rw [Nat.sub_eq_zero_of_le (Nat.le_of_not_lt hfreed), Nat.zero_min]
        rfl

theorem Sound.evictFull (h : Sound ps L c) (num : Nat) :
    Evicted ps L c [] (evictFull c num) :=
  evictFullLoop_evicted _ _ _ _ _ h

theorem Sound.evictMamba (h : Sound ps L c) (num : Nat) :
    Evicted ps L c [] (evictMamba c num) ∧
      (evictMamba c num).2.mambaSlots.length = min num (candidates c).length := by
  obtain ⟨hev, hlen⟩ := evictMambaLoop_evicted num c.nodes.length (candidates c) 0 c
    { kvIndices := [], mambaSlots := [] } h (fun n hn => hn) (h.locked.wf.nodup.filter _)
    (List.length_filter_le _ _)
  exact ⟨hev, hlen.trans (by simp)⟩

end HybridRadixCache

end FreeToken
