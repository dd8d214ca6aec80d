import FreeToken.KvCache.RadixSpec
import FreeToken.KvCache.SwaLocks

/-!
# What the sliding-window cache does to its tree

Every operation but the locks is a sequence of six edits: reshape, adopt, graft, prune, bury, and
the clocks.  Each edit keeps the counts of the outstanding locks, the four counters, and the leaves
live; the operations follow.
-/

set_option autoImplicit false

namespace FreeToken

open BlockTrie Blocks

variable {ps w : Nat} {t t' : RadixTree} {L : List SwaLock} {c : PrefixCache}

/-! ## Counters -/

/-- The window tokens of a node that an eviction may free. -/
def freeWindow (n : RadixTreeNode) : Int :=
  if n.data.swaTombstone = false ∧ n.data.swaRefCount = 0 then n.length else 0

def lockedWindow (n : RadixTreeNode) : Int :=
  if n.data.swaTombstone = false ∧ n.data.swaRefCount ≠ 0 then n.length else 0

/-- The window counters are the recomputed sums. -/
structure WindowsTallied (c : PrefixCache) : Prop where
  evictable : c.swaEvictable = tally freeWindow c.nodes
  locked : c.swaProtected = tally lockedWindow c.nodes

theorem additive_freeWindow : Additive freeWindow where
  cut := by
    intro n pos hpos
    have hlen := length_halves n hpos
    simp only [Node.halves, tally_cons, tally_nil, freeWindow, NodeData.splitPrefix,
      NodeData.splitSuffix, Node.length]
    split <;> omega
  touch := fun _ _ => rfl

theorem additive_lockedWindow : Additive lockedWindow where
  cut := by
    intro n pos hpos
    have hlen := length_halves n hpos
    simp only [Node.halves, tally_cons, tally_nil, lockedWindow, NodeData.splitPrefix,
      NodeData.splitSuffix, Node.length]
    split <;> omega
  touch := fun _ _ => rfl

/-! ## Leaves -/

/-- Every tombstone but the one at `p` has a child. -/
def Covered (t : RadixTree) (p : NodeRef) : Prop :=
  ∀ n ∈ t, n.data.swaTombstone = true → n.path ≠ p → ∃ m ∈ t, m.pre = n.path

/-- Every lock so far was taken on a live node. -/
def Fresh (L : List SwaLock) : Prop := ∀ l ∈ L, l.node ≠ [] → l.node.length - 1 ∈ l.tokens

namespace Covered

variable {p q : NodeRef}

theorem mono (hw : WF ps t) (h : Covered t []) (p : NodeRef) : Covered t p :=
  fun n hn hdead _ => h n hn hdead (hw.path_ne_nil hn)

/-- Nothing stands at `p` any more, or what does is no exception. -/
theorem strict (h : Covered t p)
    (hp : ∀ n ∈ t, n.path = p → n.data.swaTombstone = true → ∃ m ∈ t, m.pre = n.path) :
    Covered t [] := by
  intro n hn hdead _
  by_cases hnp : n.path = p
  · exact hp n hn hnp hdead
  · exact h n hn hdead hnp

theorem retag (h : Covered t p) {g : RadixTreeNode → NodeData}
    (hg : ∀ n ∈ t, (g n).swaTombstone = true →
      n.data.swaTombstone = true ∨ ∃ m ∈ t, m.pre = n.path) :
    Covered (FreeToken.retag t g) p := by
  intro x hx hdead hp
  obtain ⟨n, hn, rfl⟩ := mem_retag.1 hx
  have hchild : ∃ m ∈ t, m.pre = n.path := by
    rcases hg n hn hdead with hd | hd
    · exact h n hn hd hp
    · exact hd
  obtain ⟨m, hm, hpre⟩ := hchild
  exact ⟨_, mem_retag.2 ⟨m, hm, rfl⟩, hpre⟩

theorem splitAt (hw : WF ps t) (h : Covered t p) {n : RadixTreeNode} {pos : Nat}
    (hc : Cut ps t n pos) (hp : p ≠ n.path) : Covered (t.splitAt n.path pos) p := by
  have hleft : ∀ {v d}, (Node.mk n.pre (n.key.take pos) v d : RadixTreeNode) ∈
      n.halves pos NodeData.splitPrefix NodeData.splitSuffix →
      (Node.mk n.pre (n.key.take pos) v d : RadixTreeNode) ∈ t.splitAt n.path pos := fun hm =>
    mem_split.2 (.inr ⟨n, hc.mem, rfl, hm⟩)
  -- a child of `x` is still there, or is the root-side half of `n`
  have hchild : ∀ x : NodeRef, (∃ m ∈ t, m.pre = x) → ∃ m ∈ t.splitAt n.path pos, m.pre = x := by
    rintro x ⟨m, hm, hpre⟩
    by_cases hmn : m.path = n.path
    · obtain rfl := hw.eq_of_path hm hc.mem hmn
      exact ⟨_, hleft (Node.mem_halves.2 (.inl rfl)), hpre⟩
    · exact ⟨m, mem_split.2 (.inl ⟨hm, hmn⟩), hpre⟩
  intro x hx hdead hxp
  rcases mem_split.1 hx with ⟨hxt, -⟩ | ⟨y, hy, hyp, hxy⟩
  · exact hchild _ (h x hxt hdead hxp)
  · obtain rfl := hw.eq_of_path hy hc.mem hyp
    rcases Node.mem_halves.1 hxy with rfl | rfl
    · exact ⟨_, mem_split.2 (.inr ⟨y, hy, rfl, Node.mem_halves.2 (.inr rfl)⟩), rfl⟩
    · rw [Node.path_right]
      exact hchild _ (h y hy hdead hp.symm)

theorem reshape (hw : WF ps t) (h : Covered t []) (hr : Reshape ps t t') : Covered t' [] := by
  induction hr with
  | refl => exact h
  | cut hr hc ih => exact ih.splitAt (hr.wf hw) hc ((hr.wf hw).path_ne_nil hc.mem).symm
  | touch _ p tic ih =>
      rw [RadixTree.touch_eq]
      refine ih.retag fun n _ hd => .inl ?_
      unfold onlyAt at hd
      split at hd <;> exact hd

theorem graft (h : Covered t p) {n : RadixTreeNode} (hpre : n.pre = p)
    (hq : n.data.swaTombstone = true → n.path = q) : Covered (BlockTrie.graft t n) q := by
  intro x hx hdead hxq
  rcases List.mem_append.1 hx with hx | hx
  · by_cases hxp : x.path = p
    · exact ⟨n, List.mem_append_right _ (List.mem_singleton_self n), hpre.trans hxp.symm⟩
    · obtain ⟨m, hm, hmp⟩ := h x hx hdead hxp
      exact ⟨m, List.mem_append_left _ hm, hmp⟩
  · rw [List.mem_singleton.1 hx] at hdead hxq
    exact absurd (hq hdead) hxq

theorem prune (h : Covered t p) {n : RadixTreeNode} (hw : WF ps t) (hn : n ∈ t)
    (hp : p = n.path ∨ p = []) : Covered (BlockTrie.prune t n.path) n.pre := by
  intro x hx hdead hxp
  obtain ⟨hxt, hxn⟩ := mem_prune.1 hx
  have hne : x.path ≠ p := by
    rcases hp with rfl | rfl
    · exact hxn
    · exact hw.path_ne_nil hxt
  obtain ⟨m, hm, hmp⟩ := h x hxt hdead hne
  refine ⟨m, mem_prune.2 ⟨hm, fun hmn => hxp ?_⟩, hmp⟩
  rw [← hmp, hw.eq_of_path hm hn hmn]

/-- With every tombstone covered, the leaves are live. -/
theorem leaf_live (h : Covered t []) (hw : WF ps t) {n : RadixTreeNode} (hn : n ∈ t)
    (hl : isLeaf t n.path = true) : n.data.swaTombstone = false := by
  by_contra hdead
  obtain ⟨m, hm, hpre⟩ := h n hn (Bool.eq_true_of_not_eq_false hdead) (hw.path_ne_nil hn)
  exact isLeaf_iff.1 hl m hm hpre

end Covered

/-- A pinned leaf is the node of a lock, so its window is pinned too. -/
theorem SwaLocked.holds_leaf {k : Nat} (h : SwaLocked ps w t L k) (hf : Fresh L)
    {n : RadixTreeNode} (hn : n ∈ t) (hl : isLeaf t n.path = true) (href : n.data.refCount ≠ 0) :
    ∃ l ∈ L, l.Holds n := by
  rw [h.locked.refs n hn] at href
  obtain ⟨r, hr, hp⟩ := pins_pos.1 (Nat.pos_of_ne_zero href)
  obtain ⟨l, hlL, rfl⟩ := List.mem_map.1 hr
  have hnode : n.path = l.node := by
    refine hp.eq_of_length_le (Nat.le_of_not_lt fun hlt => ?_)
    obtain ⟨m, hm, hpre, -⟩ := h.locked.wf.exists_child (.inr ⟨n, hn, rfl⟩) (h.bound hlL) hp hlt
    exact isLeaf_iff.1 hl m hm hpre
  have hlt := (h.locked.wf.covers_path hn).lt
  obtain ⟨start, hwin, -⟩ := h.windows l hlL
  have hlast := hf l hlL (hnode ▸ h.locked.wf.path_ne_nil hn)
  rw [← hnode] at hlast
  have hin := (hwin.mem n hn hp _ (by omega) (by omega)).1 hlast
  exact ⟨l, hlL, (hwin.holds_iff h.locked.wf hn hp).2 hin⟩

theorem SwaLocked.live_of_pinned {k : Nat} (h : SwaLocked ps w t L k) (hf : Fresh L)
    {n : RadixTreeNode} (hn : n ∈ t) (hl : isLeaf t n.path = true) (href : n.data.refCount ≠ 0) :
    n.data.swaTombstone = false ∧ n.data.swaRefCount ≠ 0 := by
  obtain ⟨l, hlL, hholds⟩ := h.holds_leaf hf hn hl href
  obtain ⟨start, hwin, -⟩ := h.windows l hlL
  refine ⟨hwin.live h.locked.wf hn hholds, ?_⟩
  have := windowPins_pos.2 ⟨l, hlL, hholds⟩
  rw [← h.counts n hn] at this
  omega

/-- A node may take other values of the same number. -/
theorem wf_adopt (hw : WF ps t) {n : RadixTreeNode} (hn : n ∈ t) {kv : List Nat}
    (hkv : kv.length = n.key.length) (g : NodeData → NodeData) :
    WF ps (modify t n.path fun m => { m with value := kv, data := g m.data }) := by
  have hsame : SameShape fun m : RadixTreeNode =>
      { m with value := if kv.length = m.value.length then kv else m.value, data := g m.data } := by
    intro m
    refine ⟨rfl, rfl, ?_⟩
    dsimp only
    split
    · assumption
    · rfl
  have hwf := hw.modify hsame n.path
  unfold BlockTrie.modify at hwf ⊢
  rwa [List.map_congr_left fun m hm => ?_] at hwf
  split
  · rename_i hp
    rw [hw.eq_of_path hm hn hp]
    dsimp only
    rw [if_pos (hkv.trans (hw.value_length n hn).symm)]
  · rfl

/-! ## Edits of the cache -/

/-- The counts, the windows and the four counters of a cache with the locks `L` outstanding. -/
structure SwaInv (ps w : Nat) (L : List SwaLock) (c : PrefixCache) : Prop where
  pageSize : c.pageSize = ps
  window : c.slidingWindowSize = w
  locks : SwaLocked ps w c.nodes L c.uuid
  tokens : TokensTallied c
  windows : WindowsTallied c

namespace SwaInv

theorem wf (h : SwaInv ps w L c) : WF ps c.nodes := h.locks.locked.wf

theorem reshape (h : SwaInv ps w L c) (hr : Reshape ps c.nodes t) (clk : Nat) :
    SwaInv ps w L { c with nodes := t, clk := clk } where
  pageSize := h.pageSize
  window := h.window
  locks := h.locks.reshape hr
  tokens := by
    obtain ⟨he, hl⟩ := h.tokens.reshape h.wf hr
    exact ⟨he, hl⟩
  windows := ⟨h.windows.evictable.trans (hr.tally additive_freeWindow h.wf).symm,
    h.windows.locked.trans (hr.tally additive_lockedWindow h.wf).symm⟩

theorem cut (h : SwaInv ps w L c) {n : RadixTreeNode} {pos : Nat} (hc : Cut ps c.nodes n pos) :
    SwaInv ps w L { c with nodes := c.nodes.splitAt n.path pos } :=
  h.reshape (Reshape.refl.cut hc) c.clk

/-- A new node below a boundary where no edge starts with its first page. -/
theorem addChild (h : SwaInv ps w L c) {parent : NodeRef} {ids : List Token} {kv : List Nat}
    (hp : Boundary c.nodes parent) (hk : ids ≠ []) (hd : ps ∣ ids.length)
    (hv : kv.length = ids.length)
    (hnew : ∀ m ∈ c.nodes, m.pre = parent → m.key.take ps ≠ ids.take ps) (tombstone : Bool) :
    SwaInv ps w L (SwaRadixCache.addChild c parent ids kv tombstone) := by
  unfold SwaRadixCache.addChild SwaRadixCache.tick
  refine ⟨h.pageSize, h.window, h.locks.graft hp hk hd hv hnew rfl rfl rfl, ?_, ?_, ?_⟩
  · exact h.tokens.graft rfl rfl rfl rfl
  · rw [tally_graft, ← h.windows.evictable]
    cases tombstone <;> simp [freeWindow, NodeData.fresh]
  · rw [tally_graft, ← h.windows.locked]
    cases tombstone <;> simp [lockedWindow, NodeData.fresh]

/-- The removal of an unpinned leaf. -/
theorem prune (h : SwaInv ps w L c) {n : RadixTreeNode} (hn : n ∈ c.nodes)
    (hl : isLeaf c.nodes n.path = true) (href : n.data.refCount = 0) {s : Int}
    (hs : s = c.swaEvictable - if n.data.swaTombstone then 0 else (n.length : Int)) :
    SwaInv ps w L
      { c with
        fullEvictable := c.fullEvictable - n.length
        swaEvictable := s
        nodes := BlockTrie.prune c.nodes n.path } := by
  have hle := h.locks.swaRefCount_le hn
  have hzero : n.data.swaRefCount = 0 := by omega
  refine ⟨h.pageSize, h.window, h.locks.prune hn hl href, ?_, ?_, ?_⟩
  · exact h.tokens.prune h.wf hn href rfl rfl rfl
  · have htally := h.wf.tally_prune freeWindow hn
    rw [← h.windows.evictable] at htally
    dsimp only
    rw [hs, htally]
    cases hdead : n.data.swaTombstone <;> simp [freeWindow, hdead, hzero]
  · have htally := h.wf.tally_prune lockedWindow hn
    rw [← h.windows.locked] at htally
    dsimp only
    rw [htally]
    simp [lockedWindow, hzero]

/-- An unpinned live node becomes a tombstone in place. -/
theorem bury (h : SwaInv ps w L c) {n : RadixTreeNode} (hn : n ∈ c.nodes)
    (hlive : n.data.swaTombstone = false) (hzero : n.data.swaRefCount = 0) :
    SwaInv ps w L
      { c with
        swaEvictable := c.swaEvictable - n.length
        nodes := c.nodes.setData n.path fun d => { d with swaTombstone := true } } := by
  refine ⟨h.pageSize, h.window, ?_, ?_, ?_, ?_⟩
  · dsimp only
    rw [RadixTree.setData_eq]
    refine h.locks.retag (fun m _ => ?_) (fun m hm => ?_)
    · unfold onlyAt
      split <;> simp
    · unfold onlyAt
      split
      · rename_i hp
        rw [h.wf.eq_of_path hm hn hp]
        exact .inr ⟨hlive, hzero⟩
      · exact .inl rfl
  · exact h.tokens.setData (g := fun d => { d with swaTombstone := true }) (fun _ => rfl) rfl rfl rfl
  · dsimp only
    rw [tally_setData h.wf hn, ← h.windows.evictable]
    simp [freeWindow, hlive, hzero]
  · dsimp only
    rw [tally_setData h.wf hn, ← h.windows.locked]
    simp [lockedWindow, hzero]

/-- The data of a revived node. -/
def revivedData (d : NodeData) (now : Nat) : NodeData :=
  { d with swaTombstone := false, timestamp := now }

/-- An unpinned tombstone adopts live slots. -/
theorem revive (h : SwaInv ps w L c) {n : RadixTreeNode} (hn : n ∈ c.nodes)
    (hdead : n.data.swaTombstone = true) (href : n.data.refCount = 0) {kv : List Nat}
    (hkv : kv.length = n.key.length) : SwaInv ps w L (SwaRadixCache.revive c n.path kv) := by
  unfold SwaRadixCache.revive SwaRadixCache.tick
  dsimp only
  have hw := wf_adopt h.wf hn hkv fun d => revivedData d ((c.clk + 1) * SwaRadixCache.eventStride)
  have hzero := h.locks.swaRefCount_eq_zero hn hdead
  refine ⟨h.pageSize, h.window, ?_, ?_, ?_, ?_⟩
  · exact h.locks.modify hn href hw rfl ⟨rfl, rfl, rfl⟩
  · obtain ⟨he, hl⟩ := h.tokens
    refine ⟨he.trans ?_, hl.trans ?_⟩
    · dsimp only
      rw [h.wf.tally_modify freeTokens hn]
      simp [freeTokens, Node.length]
    · dsimp only
      rw [h.wf.tally_modify lockedTokens hn]
      simp [lockedTokens, Node.length]
  · dsimp only
    rw [h.wf.tally_modify freeWindow hn, ← h.windows.evictable]
    simp [freeWindow, hdead, hzero, Node.length, hkv]
  · dsimp only
    rw [h.wf.tally_modify lockedWindow hn, ← h.windows.locked]
    simp [lockedWindow, hdead, hzero]

end SwaInv

namespace SwaRadixCache

/-! ## Evicting -/

/-- The cascade stops below a node that is no unpinned tombstoned leaf. -/
theorem cascade_spec : ∀ (fuel : Nat) (c : PrefixCache) (parent : NodeRef) (kv : List Nat)
    (freed : Nat), SwaInv ps w L c → c.nodes.length ≤ fuel →
    SwaInv ps w L (cascadeSwaTombstoneLeaves fuel c parent kv freed).1 ∧
      (Fresh L → Covered c.nodes parent →
        Covered (cascadeSwaTombstoneLeaves fuel c parent kv freed).1.nodes []) := by
  intro fuel
  induction fuel with
  | zero =>
      intro c parent kv freed h hlen
      have hnil : c.nodes = [] := List.eq_nil_of_length_eq_zero (Nat.le_zero.1 hlen)
      rw [cascadeSwaTombstoneLeaves]
      refine ⟨h, fun _ _ n hn => ?_⟩
      dsimp only at hn
      rw [hnil] at hn
      cases hn
  | succ fuel ih =>
      intro c parent kv freed h hlen
      rw [cascadeSwaTombstoneLeaves]
      split
      · rename_i hnone
        exact ⟨h, fun _ hc => hc.strict fun n hn hp => absurd hp (node?_eq_none.1 hnone n hn)⟩
      · rename_i p hp
        obtain ⟨hpt, rfl⟩ := mem_of_node? hp
        split
        · rename_i hcond
          simp only [Bool.and_eq_true, decide_eq_true_eq] at hcond
          obtain ⟨⟨hdead, hleaf⟩, href⟩ := hcond
          have h' := h.prune hpt hleaf href (s := c.swaEvictable) (by rw [hdead]; simp)
          have hshort : (BlockTrie.prune c.nodes p.path).length ≤ fuel := by
            have := (h.wf.perm_prune hpt).length_eq
            rw [List.length_cons] at this
            omega
          obtain ⟨hinv, hcov⟩ := ih _ p.pre (kv ++ p.value) (freed + p.length) h' hshort
          exact ⟨hinv, fun hf hc => hcov hf (hc.prune h.wf hpt (.inl rfl))⟩
        · rename_i hcond
          refine ⟨h, fun hf hc => hc.strict fun n hn hnp hdead => ?_⟩
          obtain rfl := h.wf.eq_of_path hn hpt hnp
          by_contra hchild
          have hleaf : isLeaf c.nodes n.path = true :=
            isLeaf_iff.2 fun m hm hpre => hchild ⟨m, hm, hpre⟩
          by_cases href : n.data.refCount = 0
          · exact hcond (by simp [hdead, hleaf, href])
          · rw [(h.locks.live_of_pinned hf hn hleaf href).1] at hdead
            cases hdead

/-- An unpinned leaf goes, and with it the tombstones it was the last child of. -/
theorem prune_cascade_spec (h : SwaInv ps w L c) {n : RadixTreeNode} (hn : n ∈ c.nodes)
    (hl : isLeaf c.nodes n.path = true) (href : n.data.refCount = 0) {s : Int}
    (hs : s = c.swaEvictable - if n.data.swaTombstone then 0 else (n.length : Int))
    (kv : List Nat) :
    let c' := (cascadeSwaTombstoneLeaves (BlockTrie.prune c.nodes n.path).length
      { c with
        fullEvictable := c.fullEvictable - n.length
        swaEvictable := s
        nodes := BlockTrie.prune c.nodes n.path } n.pre kv 0).1
    SwaInv ps w L c' ∧ (Fresh L → Covered c.nodes [] → Covered c'.nodes []) := by
  obtain ⟨hinv, hcov⟩ := cascade_spec _ _ n.pre kv 0 (h.prune hn hl href hs) le_rfl
  exact ⟨hinv, fun hf hc => hcov hf (hc.prune h.wf hn (.inr rfl))⟩

theorem evictFullLoop_spec (numTokens : Nat) : ∀ (fuel : Nat) (heap : List RadixTreeNode)
    (freed : Nat) (c : PrefixCache) (out : SwaEvictResult), SwaInv ps w L c →
    SwaInv ps w L (evictFullLoop numTokens fuel heap freed c out).1 ∧
      (Fresh L → Covered c.nodes [] →
        Covered (evictFullLoop numTokens fuel heap freed c out).1.nodes []) := by
  intro fuel
  induction fuel with
  | zero => exact fun _ _ c _ h => ⟨h, fun _ hc => hc⟩
  | succ fuel ih =>
      intro heap freed c out h
      rw [evictFullLoop]
      split
      · split
        · exact ⟨h, fun _ hc => hc⟩
        · split
          · exact ih _ _ _ _ h
          · rename_i n hn
            obtain ⟨hnt, -⟩ := mem_of_node? hn
            split
            · exact ih _ _ _ _ h
            · rename_i hcond
              simp only [Bool.or_eq_true, decide_eq_true_eq, Bool.not_eq_true', not_or,
                Bool.not_eq_false, ne_eq, not_not] at hcond
              have hs : (if n.data.swaTombstone = true then c.swaEvictable
                  else c.swaEvictable - (n.length : Int)) =
                  c.swaEvictable - if n.data.swaTombstone then 0 else (n.length : Int) := by
                split <;> simp
              obtain ⟨hinv, hcov⟩ :=
                prune_cascade_spec h hnt hcond.2 hcond.1 hs (out.kvIndices ++ n.value)
              exact ⟨(ih _ _ _ _ hinv).1, fun hf hc => (ih _ _ _ _ hinv).2 hf (hcov hf hc)⟩
      · exact ⟨h, fun _ hc => hc⟩

theorem evictFull_spec (h : SwaInv ps w L c) (numTokens : Nat) :
    SwaInv ps w L (evictFull c numTokens).1 ∧
      (Fresh L → Covered c.nodes [] → Covered (evictFull c numTokens).1.nodes []) :=
  evictFullLoop_spec numTokens _ _ _ c _ h

theorem evictSwaLoop_spec (numTokens : Nat) : ∀ (fuel : Nat) (heap : List RadixTreeNode)
    (freed : Nat) (c : PrefixCache) (out : SwaEvictResult), SwaInv ps w L c →
    SwaInv ps w L (evictSwaLoop numTokens fuel heap freed c out).1 ∧
      (Fresh L → Covered c.nodes [] →
        Covered (evictSwaLoop numTokens fuel heap freed c out).1.nodes []) := by
  intro fuel
  induction fuel with
  | zero => exact fun _ _ c _ h => ⟨h, fun _ hc => hc⟩
  | succ fuel ih =>
      intro heap freed c out h
      rw [evictSwaLoop]
      split
      · split
        · exact ⟨h, fun _ hc => hc⟩
        · split
          · exact ih _ _ _ _ h
          · rename_i n hn
            obtain ⟨hnt, -⟩ := mem_of_node? hn
            split
            · exact ih _ _ _ _ h
            · rename_i hcand
              simp only [Bool.or_eq_true, decide_eq_true_eq, not_or, Bool.not_eq_true, ne_eq,
                not_not] at hcand
              obtain ⟨hlive, hzero⟩ := hcand
              split
              · rename_i hfree
                simp only [Bool.and_eq_true, decide_eq_true_eq] at hfree
                obtain ⟨hinv, hcov⟩ := prune_cascade_spec h hnt hfree.1 hfree.2
                  (s := c.swaEvictable - n.length) (by simp [hlive]) (out.kvIndices ++ n.value)
                exact ⟨(ih _ _ _ _ hinv).1, fun hf hc => (ih _ _ _ _ hinv).2 hf (hcov hf hc)⟩
              · rename_i hfree
                have hinv := h.bury hnt hlive hzero
                refine ⟨(ih _ _ _ _ hinv).1, fun hf hc => (ih _ _ _ _ hinv).2 hf ?_⟩
                dsimp only
                rw [RadixTree.setData_eq]
                refine hc.retag fun m hm hd => ?_
                by_cases hmn : m.path = n.path
                · -- the node is not a free leaf, and a locked leaf would be pinned
                  obtain rfl := h.wf.eq_of_path hm hnt hmn
                  by_contra hnone
                  simp only [not_or, not_exists, not_and] at hnone
                  have hleaf : isLeaf c.nodes m.path = true := isLeaf_iff.2 hnone.2
                  by_cases href : m.data.refCount = 0
                  · exact hfree (by simp [hleaf, href])
                  · exact (h.locks.live_of_pinned hf hnt hleaf href).2 hzero
                · unfold onlyAt at hd
                  rw [if_neg hmn] at hd
                  exact .inl hd
      · exact ⟨h, fun _ hc => hc⟩

theorem evictSwa_spec (h : SwaInv ps w L c) (numTokens : Nat) :
    SwaInv ps w L (evictSwa c numTokens).1 ∧
      (Fresh L → Covered c.nodes [] → Covered (evictSwa c numTokens).1.nodes []) :=
  evictSwaLoop_spec numTokens _ _ _ c _ h

/-! ## Matching -/

theorem matchLoop_reshape (hps : 0 < ps) (window : Nat) (ids : List Token) :
    ∀ (fuel : Nat) (s : MatchState), WF ps s.nodes → s.prefixPos ≤ ids.length →
      Reshape ps s.nodes (matchLoop ps window ids fuel s).nodes := by
  intro fuel
  induction fuel with
  | zero => exact fun s _ _ => .refl
  | succ fuel ih =>
      intro s hw hle
      rw [matchLoop]
      split
      · split
        · exact .refl
        · rename_i child hchild
          have hkeep : ∀ s' : MatchState, s' = (if child.data.swaTombstone = true then
              { s.commitBest window ids with matchSinceTomb := some 0 } else s) →
              s'.nodes = s.nodes ∧ s'.prefixPos = s.prefixPos := by
            rintro s' rfl
            unfold MatchState.commitBest
            split
            · split <;> exact ⟨rfl, rfl⟩
            · exact ⟨rfl, rfl⟩
          generalize hs' : (if child.data.swaTombstone = true then
            { s.commitBest window ids with matchSinceTomb := some 0 } else s) = s'
          obtain ⟨hnodes, hpos⟩ := hkeep s' hs'.symm
          have d := hw.descent hps hle hchild
          dsimp only
          rw [hpos]
          split
          · rw [hnodes]
            exact .refl
          · split
            · rename_i hlt
              rw [← hnodes]
              exact Reshape.refl.cut (by rw [hnodes]; exact d.cut hps hlt)
            · rename_i hge
              rw [← hnodes]
              have hfits := d.fits
              have hge' : child.key.length ≤ _ := Nat.le_of_not_lt hge
              refine ih (s'.advance child.value child.data.swaTombstone) (hnodes ▸ hw) ?_
              have hlen := hw.value_length child d.mem
              show s'.prefixPos + child.value.length ≤ ids.length
              omega
      · exact .refl

/-- Stamping touches the nodes of a path. -/
theorem stampPath_reshape (c : PrefixCache) (node : NodeRef) :
    Reshape ps c.nodes (stampPath c node).nodes := by
  have hfold : ∀ (ns : List (RadixTreeNode × Nat)) (u : RadixTree) (base : Nat),
      Reshape ps u (ns.foldl (fun t nd => t.touch nd.1.path (base - nd.2)) u) := by
    intro ns
    induction ns with
    | nil => exact fun _ _ => .refl
    | cons nd ns ih =>
        intro u base
        exact (Reshape.refl.touch nd.1.path (base - nd.2)).trans (ih _ base)
  exact hfold _ _ _

theorem matchPrefix_spec (hps : 0 < ps) (h : SwaInv ps w L c) (ids : List Token) :
    SwaInv ps w L (matchPrefix c ids).1 ∧ Reshape ps c.nodes (matchPrefix c ids).1.nodes := by
  obtain ⟨hpage, -, -, -, -⟩ := id h
  subst hpage
  have hloop := matchLoop_reshape hps c.slidingWindowSize ids ids.length
    { nodes := c.nodes, prefixPos := 0, value := [], matchSinceTomb := none, bestValue := [],
      bestNode := [] } h.wf (Nat.zero_le _)
  unfold matchPrefix
  dsimp only
  generalize matchLoop c.pageSize c.slidingWindowSize ids ids.length
    { nodes := c.nodes, prefixPos := 0, value := [], matchSinceTomb := none, bestValue := [],
      bestNode := [] } = s at hloop ⊢
  have hbest : (s.commitBest c.slidingWindowSize ids).nodes = s.nodes := by
    unfold MatchState.commitBest
    split <;> rfl
  rw [hbest]
  have hstamp : Reshape c.pageSize s.nodes _ := stampPath_reshape { c with nodes := s.nodes }
    (s.commitBest c.slidingWindowSize ids).bestNode
  exact ⟨h.reshape (hloop.trans hstamp) (c.clk + 1), hloop.trans hstamp⟩

/-! ## Trimming -/

theorem trimHeadLoop_spec (ids : List Token) (keepFrom : Nat) : ∀ (fuel : Nat) (c : PrefixCache)
    (pos : Nat) (freed : List Nat), SwaInv ps w L c →
    SwaInv ps w L (trimHeadLoop ids keepFrom fuel c pos freed).1 ∧
      (Covered c.nodes [] → Covered (trimHeadLoop ids keepFrom fuel c pos freed).1.nodes []) := by
  intro fuel
  induction fuel with
  | zero => exact fun c _ _ h => ⟨h, fun hc => hc⟩
  | succ fuel ih =>
      intro c pos freed h
      rw [trimHeadLoop]
      split
      · split
        · exact ⟨h, fun hc => hc⟩
        · rename_i child hchild
          have hmem := (mem_of_child? hchild).1
          split
          · exact ⟨h, fun hc => hc⟩
          · split
            · rename_i hcond
              simp only [Bool.and_eq_true, decide_eq_true_eq, Bool.not_eq_true'] at hcond
              obtain ⟨⟨hlive, hzero⟩, hinner⟩ := hcond
              have hinv := h.bury hmem hlive hzero
              refine ⟨(ih _ _ _ hinv).1, fun hc => (ih _ _ _ hinv).2 ?_⟩
              dsimp only
              rw [RadixTree.setData_eq]
              refine hc.retag fun m hm hd => ?_
              by_cases hmn : m.path = child.path
              · refine .inr ?_
                by_contra hnone
                simp only [not_exists, not_and] at hnone
                rw [isLeaf_iff.2 (hmn ▸ hnone)] at hinner
                cases hinner
              · unfold onlyAt at hd
                rw [if_neg hmn] at hd
                exact .inl hd
            · exact ih _ _ _ h
      · exact ⟨h, fun hc => hc⟩

theorem trimHeadSwa_spec (hps : 0 < ps) (h : SwaInv ps w L c) (ids : List Token)
    (keepFrom : Nat) : SwaInv ps w L (trimHeadSwa c ids keepFrom).1 ∧
      (Covered c.nodes [] → Covered (trimHeadSwa c ids keepFrom).1.nodes []) := by
  unfold trimHeadSwa
  split
  · exact ⟨h, fun hc => hc⟩
  · obtain ⟨hinv, hreshape⟩ := matchPrefix_spec hps h (ids.take keepFrom)
    obtain ⟨hinv', hcov⟩ := trimHeadLoop_spec ids keepFrom keepFrom _ 0 [] hinv
    exact ⟨hinv', fun hc => hcov (hc.reshape h.wf hreshape)⟩

/-! ## Inserting -/

/-- A walk of `ids` has come to `k`, where no edge goes on. -/
structure Stopped (ps : Nat) (t : RadixTree) (ids : List Token) (k : Nat) : Prop where
  le : k ≤ ids.length
  bound : Boundary t (ids.take k)
  stop : k < ids.length → ∀ m ∈ t, m.pre = ids.take k → m.key.take ps ≠ (ids.drop k).take ps

/-- What an edit inside the node at `p` leaves of the tree around it. -/
structure Around (p : NodeRef) (t t' : RadixTree) : Prop where
  bound : ∀ r, Boundary t r → Boundary t' r
  below : ∀ m ∈ t', m.pre = p → ∃ n ∈ t, n.pre = p ∧ n.key = m.key
  covered : Covered t [] → Covered t' []

namespace Around

variable {p : NodeRef}

theorem refl (p : NodeRef) (t : RadixTree) : Around p t t :=
  ⟨fun _ hr => hr, fun m hm hp => ⟨m, hm, hp, rfl⟩, fun hc => hc⟩

theorem trans {t'' : RadixTree} (h : Around p t t') (h' : Around p t' t'') : Around p t t'' where
  bound := fun r hr => h'.bound r (h.bound r hr)
  below := fun m hm hp => by
    obtain ⟨n, hn, hnp, hkey⟩ := h'.below m hm hp
    obtain ⟨x, hx, hxp, hkey'⟩ := h.below n hn hnp
    exact ⟨x, hx, hxp, hkey'.trans hkey⟩
  covered := fun hc => h'.covered (h.covered hc)

theorem cut (hw : WF ps t) {n : RadixTreeNode} {pos : Nat} (hc : Cut ps t n pos) :
    Around n.path t (t.splitAt n.path pos) where
  bound := fun r hr => (hc.boundary hw _ _).2 (.inl hr)
  below := by
    intro m hm hp
    rcases mem_split.1 hm with ⟨hmt, -⟩ | ⟨x, hx, hxp, hmx⟩
    · exact ⟨m, hmt, hp, rfl⟩
    · -- the halves start above the end of the node
      obtain rfl := hw.eq_of_path hx hc.mem hxp
      have hlt := hc.lt
      have hlen := congrArg List.length hp
      rcases Node.mem_halves.1 hmx with rfl | rfl <;>
        simp only [Node.path, List.length_append, List.length_take] at hlen <;> omega
  covered := fun h => h.splitAt hw hc (hw.path_ne_nil hc.mem).symm

theorem revive (c : PrefixCache) (r p : NodeRef) (kv : List Nat) :
    Around p c.nodes (revive c r kv).nodes := by
  unfold SwaRadixCache.revive tick
  dsimp only
  have hmem : ∀ m ∈ modify c.nodes r fun n : RadixTreeNode =>
      { n with value := kv
               data := SwaInv.revivedData n.data ((c.clk + 1) * eventStride) },
      ∃ n ∈ c.nodes, n.pre = m.pre ∧ n.key = m.key ∧
        (m.data.swaTombstone = true → n.data.swaTombstone = true) := by
    intro m hm
    obtain ⟨n, hn, rfl⟩ := List.mem_map.1 hm
    refine ⟨n, hn, ?_⟩
    split
    · exact ⟨rfl, rfl, fun hd => by cases hd⟩
    · exact ⟨rfl, rfl, fun hd => hd⟩
  have hto : ∀ n ∈ c.nodes, ∃ m ∈ modify c.nodes r fun n : RadixTreeNode =>
      { n with value := kv
               data := SwaInv.revivedData n.data ((c.clk + 1) * eventStride) },
      m.pre = n.pre ∧ m.path = n.path := by
    intro n hn
    refine ⟨_, List.mem_map.2 ⟨n, hn, rfl⟩, ?_⟩
    split <;> exact ⟨rfl, rfl⟩
  refine ⟨fun x hx => hx.imp_right ?_, fun m hm hp => ?_, fun hc m hm hd hne => ?_⟩
  · rintro ⟨n, hn, rfl⟩
    obtain ⟨m, hm, -, hpath⟩ := hto n hn
    exact ⟨m, hm, hpath⟩
  · obtain ⟨n, hn, hpre, hkey, -⟩ := hmem m hm
    exact ⟨n, hn, hpre.trans hp, hkey⟩
  · obtain ⟨n, hn, hpre, hkey, hdead⟩ := hmem m hm
    have hpath : n.path = m.path := by
      unfold Node.path
      rw [hpre, hkey]
    obtain ⟨x, hx, hxp⟩ := hc n hn (hdead hd) (hpath ▸ hne)
    obtain ⟨y, hy, hyp, -⟩ := hto x hx
    exact ⟨y, hy, hyp.trans (hxp.trans hpath)⟩

end Around

/-- The reconcile of one span never fails, and stays inside the span's node. -/
theorem reconcile_spec (h : SwaInv ps w L c) {child : RadixTreeNode} (hn : child ∈ c.nodes)
    {segKv : List Nat} (hkv : segKv.length = child.key.length) {evicted : Nat}
    (hevicted : ps ∣ evicted) (freed : List Nat) :
    ∃ c' freed', reconcile c child segKv evicted child.pre.length child.key.length freed =
        .ok (c', freed') ∧ SwaInv ps w L c' ∧ Around child.path c.nodes c'.nodes := by
  have hkeep : SwaInv ps w L c ∧ Around child.path c.nodes c.nodes := ⟨h, .refl _ _⟩
  unfold reconcile
  split
  · rename_i hdead
    have hassert : pyAssert (decide (child.data.swaRefCount = 0))
        "a tombstoned node cannot hold a swa lock" = .ok () := by
      rw [pyAssert_eq_ok, decide_eq_true_eq]
      exact h.locks.swaRefCount_eq_zero hn hdead
    rw [hassert]
    show ∃ c' freed', (if 0 < child.data.refCount then _ else _) = Except.ok (c', freed') ∧ _
    split
    · exact ⟨_, _, rfl, hkeep⟩
    · rename_i href
      have hzero : child.data.refCount = 0 := Nat.eq_zero_of_not_pos href
      split
      · exact ⟨_, _, rfl, h.revive hn hdead hzero hkv, .revive c _ _ _⟩
      · rename_i hlow
        split
        · rename_i hhigh
          have hc : Cut ps c.nodes child (evicted - child.pre.length) :=
            ⟨hn, by omega, by omega, Nat.dvd_sub hevicted (h.wf.pre_dvd child hn)⟩
          -- the tail of the node is the suffix half of the split
          have hmem : (Node.mk (child.pre ++ child.key.take (evicted - child.pre.length))
              (child.key.drop (evicted - child.pre.length))
              (child.value.drop (evicted - child.pre.length)) child.data.splitSuffix :
                RadixTreeNode) ∈ c.nodes.splitAt child.path (evicted - child.pre.length) :=
            mem_split.2 (.inr ⟨child, hn, rfl, Node.mem_halves.2 (.inr rfl)⟩)
          have hkvlen : (segKv.drop (evicted - child.pre.length)).length =
              (child.key.drop (evicted - child.pre.length)).length := by
            rw [List.length_drop, List.length_drop, hkv]
          have hrev := (h.cut hc).revive hmem hdead hzero hkvlen
          rw [Node.path_right] at hrev
          have hleft := Around.cut h.wf hc
          exact ⟨_, _, rfl, hrev, hleft.trans (.revive
            { c with nodes := c.nodes.splitAt child.path (evicted - child.pre.length) } _ _ _)⟩
        · exact ⟨_, _, rfl, hkeep⟩
  · exact ⟨_, _, rfl, hkeep⟩

/-- The reconcile is skipped for the spans the request found in the tree. -/
theorem span_spec (h : SwaInv ps w L c) {child : RadixTreeNode} (hn : child ∈ c.nodes)
    {total m : Nat} (hpre : child.pre.length = total) (hkey : child.key.length = m)
    {segKv : List Nat} (hkv : segKv.length = m) {evicted : Nat} (hevicted : ps ∣ evicted)
    (after : Nat) (freed : List Nat) :
    ∃ c' freed', (if after < total + m then reconcile c child segKv evicted total m freed
        else .ok (c, freed)) = .ok (c', freed') ∧ SwaInv ps w L c' ∧
      Around child.path c.nodes c'.nodes := by
  subst hpre hkey
  split
  · exact reconcile_spec h hn hkv hevicted freed
  · exact ⟨_, _, rfl, h, .refl _ _⟩

/-- The walk of an insert: it never fails, and stops where no edge goes on. -/
theorem insertLoop_spec (hps : 0 < ps) {ids : List Token} {kv : List Nat}
    (hkv : kv.length = ids.length) {evicted : Nat} (hevicted : ps ∣ evicted) (after : Nat) :
    ∀ (fuel : Nat) (c : PrefixCache) (total : Nat) (freed : List Nat), SwaInv ps w L c →
      total ≤ ids.length → Boundary c.nodes (ids.take total) → ids.length ≤ fuel + total →
      ∃ c' k freed', insertLoop ids kv evicted after fuel c total freed = .ok (c', k, freed') ∧
        SwaInv ps w L c' ∧ Stopped ps c'.nodes ids k ∧
        (Covered c.nodes [] → Covered c'.nodes []) := by
  intro fuel
  induction fuel with
  | zero =>
      intro c total freed h hle hb hfuel
      exact ⟨c, total, freed, rfl, h, ⟨hle, hb, fun hlt => absurd hlt (by omega)⟩, fun hc => hc⟩
  | succ fuel ih =>
      intro c total freed h hle hb hfuel
      obtain ⟨hpage, -, -, -, -⟩ := id h
      subst hpage
      rw [insertLoop]
      split
      · rename_i hlt
        split
        · rename_i hnone
          exact ⟨c, total, freed, rfl, h, ⟨hle, hb, fun _ => child?_eq_none.1 hnone⟩, fun hc => hc⟩
        · rename_i child hchild
          have d := h.wf.descent hps hle hchild
          have hpre : child.pre.length = total := by rw [d.pre, List.length_take_of_le hle]
          have hblk := d.block_le
          have hfits := d.fits
          dsimp only
          generalize hm : alignDown (commonLength child.key (ids.drop total)) c.pageSize = m at d
          rw [hm] at hblk hfits
          rw [if_neg (by omega)]
          have hseg : ((kv.drop total).take m).length = m := by
            rw [List.length_take, List.length_drop]
            omega
          by_cases hpart : m < child.length
          · -- the walk ends inside the edge, at the new root-side half
            simp only [hpart, decide_true, if_true]
            have hcut := d.cut hps hpart
            have hhead : splitHead child m ∈ c.nodes.splitAt child.path m :=
              mem_split.2 (.inr ⟨child, d.mem, rfl, Node.mem_halves.2 (.inl rfl)⟩)
            have hpath : (splitHead child m).path = ids.take (total + m) := d.key
            obtain ⟨c', freed', hrun, hinv, ha⟩ := span_spec (h.cut hcut) hhead hpre
              (List.length_take_of_le d.le) hseg hevicted after freed
            rw [hrun]
            rw [hpath] at ha
            refine ⟨_, _, _, rfl, hinv, ⟨hfits, ?_, fun _ n hn hp => ?_⟩, fun hc => ?_⟩
            · exact ha.bound _ (.inr ⟨_, hhead, hpath⟩)
            · obtain ⟨x, hx, hxp, hxk⟩ := ha.below n hn hp
              rw [← hxk]
              exact d.cut_stop hps h.wf hpart _ _ x hx hxp
            · exact ha.covered (hc.splitAt h.wf hcut (h.wf.path_ne_nil d.mem).symm)
          · simp only [hpart, decide_false, Bool.false_eq_true, if_false]
            have hfull : m = child.key.length := le_antisymm d.le (Nat.le_of_not_lt hpart)
            have hpath := d.path hfull
            obtain ⟨c', freed', hrun, hinv, ha⟩ := span_spec h d.mem hpre hfull.symm hseg hevicted
              after freed
            rw [hrun]
            have hb' := ha.bound _ (.inr ⟨child, d.mem, hpath⟩)
            obtain ⟨c'', k, freed'', hrec, hinv', hstop, hcov⟩ :=
              ih c' (total + m) freed' hinv hfits hb' (by omega)
            exact ⟨c'', k, freed'', hrec, hinv', hstop, fun hc => hcov (ha.covered hc)⟩
      · exact ⟨c, total, freed, rfl, h, ⟨hle, hb, fun hlt => absurd hlt (by omega)⟩, fun hc => hc⟩

/-- The missing part of the prefix hangs below the walk's end, with a live leaf. -/
theorem insertSuffix_spec (hps : 0 < ps) (h : SwaInv ps w L c) {ids : List Token} {kv : List Nat}
    (hkv : kv.length = ids.length) (hdvd : ps ∣ ids.length) {evicted : Nat}
    (hevicted : ps ∣ evicted) {k : Nat} (hs : Stopped ps c.nodes ids k) :
    SwaInv ps w L (insertSuffix c ids kv evicted k) ∧
      (Covered c.nodes [] → Covered (insertSuffix c ids kv evicted k).nodes []) := by
  obtain ⟨hpage, -, -, -, -⟩ := id h
  subst hpage
  have hk : (ids.take k).length = k := List.length_take_of_le hs.le
  have hkdvd := h.wf.boundary_dvd hs.bound
  rw [hk] at hkdvd
  unfold insertSuffix
  split
  · rename_i hlt
    have hroom : c.pageSize ≤ ids.length - k := by
      exact Nat.le_of_dvd (by omega) (Nat.dvd_sub hdvd hkdvd)
    have hstop := hs.stop hlt
    dsimp only
    rw [List.length_drop]
    generalize hbdef : min (min evicted ids.length - k) (ids.length - k - c.pageSize) = b
    have hbd : c.pageSize ∣ b := by
      rw [← hbdef]
      rcases Nat.le_total (min evicted ids.length - k) (ids.length - k - c.pageSize) with hle | hle
      · rw [Nat.min_eq_left hle]
        refine Nat.dvd_sub ?_ hkdvd
        rcases Nat.le_total evicted ids.length with he | he
        · rwa [Nat.min_eq_left he]
        · rwa [Nat.min_eq_right he]
      · rw [Nat.min_eq_right hle]
        exact Nat.dvd_sub (Nat.dvd_sub hdvd hkdvd) (dvd_refl _)
    have hblt : b + c.pageSize ≤ ids.length - k := by omega
    rw [if_pos (by omega)]
    have hdlen : ∀ a, ((ids.drop k).drop a).length = ids.length - k - a := by
      intro a
      rw [List.length_drop, List.length_drop]
    have hvlen : ∀ a, ((kv.drop k).drop a).length = ((ids.drop k).drop a).length := by
      intro a
      rw [hdlen, List.length_drop, List.length_drop, hkv]
    have hne : ∀ a, a + c.pageSize ≤ ids.length - k → (ids.drop k).drop a ≠ [] := by
      intro a ha hnil
      have := congrArg List.length hnil
      rw [hdlen, List.length_nil] at this
      omega
    have hdd : ∀ a, c.pageSize ∣ a → c.pageSize ∣ ((ids.drop k).drop a).length := by
      intro a ha
      rw [hdlen]
      exact Nat.dvd_sub (Nat.dvd_sub hdvd hkdvd) ha
    split
    · rename_i hb
      -- first the tombstone, then the live leaf below it
      have htlen : ((ids.drop k).take b).length = b := by
        rw [List.length_take, List.length_drop]
        omega
      have htne : (ids.drop k).take b ≠ [] := by
        rw [← List.length_pos_iff, htlen]
        exact hb
      have htkv : ((kv.drop k).take b).length = ((ids.drop k).take b).length := by
        rw [htlen, List.length_take, List.length_drop]
        omega
      have hdead := h.addChild hs.bound htne (by rw [htlen]; exact hbd) htkv
        (fun m hm hp => by
          rw [List.take_take, Nat.min_eq_left (Nat.le_of_dvd hb hbd)]
          exact hstop m hm hp) true
      have hpath : ids.take k ++ (ids.drop k).take b = ids.take (k + b) := List.take_add.symm
      have hbound : Boundary (addChild c (ids.take k) ((ids.drop k).take b) ((kv.drop k).take b)
          true).nodes (ids.take (k + b)) := boundary_graft.2 (.inr hpath.symm)
      have hfree : ∀ m ∈ (addChild c (ids.take k) ((ids.drop k).take b) ((kv.drop k).take b)
          true).nodes, m.pre ≠ ids.take (k + b) := by
        intro m hm hp
        rcases List.mem_append.1 hm with hm | hm
        · have hlen : (ids.take (k + b)).length = k + b := List.length_take_of_le (by omega)
          have hold : Boundary c.nodes (ids.take (k + b)) := hp ▸ h.wf.parent m hm
          obtain ⟨x, hx, hxp, hxle⟩ := h.wf.exists_child hs.bound hold
            (List.take_prefix_take_left (by omega)) (by omega)
          refine hstop x hx hxp ?_
          rw [Node.block_eq (h.wf.block_le hx) (hxle.trans (List.take_prefix _ _)), hxp, hk]
        · rw [List.mem_singleton.1 hm] at hp
          have := congrArg List.length hp
          rw [hk, List.length_take] at this
          omega
      have hlive := hdead.addChild hbound (hne b hblt) (hdd b hbd) (hvlen b)
        (fun m hm hp => absurd hp (hfree m hm)) false
      refine ⟨hlive, fun hc => ?_⟩
      have hc' : Covered (addChild c (ids.take k) ((ids.drop k).take b) ((kv.drop k).take b)
          true).nodes (ids.take (k + b)) := (hc.mono h.wf _).graft rfl fun _ => hpath
      exact hc'.graft rfl fun hd => by cases hd
    · rename_i hb
      obtain rfl : b = 0 := by omega
      have hinv := h.addChild hs.bound (hne 0 hblt) (hdd 0 hbd) (hvlen 0) hstop false
      exact ⟨hinv, fun hc => (hc.mono h.wf _).graft rfl fun hd => by cases hd⟩
  · exact ⟨h, fun hc => hc⟩

theorem insert_spec (hps : 0 < ps) (h : SwaInv ps w L c) {ids : List Token} {kv : List Nat}
    (hkv : alignDown ids.length ps ≤ kv.length) {evicted : Nat} (hevicted : ps ∣ evicted)
    (after : Nat) :
    ∃ c' k freed, insert c ids kv evicted after = .ok (c', k, freed) ∧ SwaInv ps w L c' ∧
      (Covered c.nodes [] → Covered c'.nodes []) := by
  obtain ⟨hpage, -, -, -, -⟩ := id h
  subst hpage
  have hlen : (ids.take (alignDown ids.length c.pageSize)).length =
      alignDown ids.length c.pageSize := List.length_take_of_le (alignDown_le _ _)
  have hkvlen : (kv.take (alignDown ids.length c.pageSize)).length =
      (ids.take (alignDown ids.length c.pageSize)).length := by
    rw [hlen, List.length_take_of_le hkv]
  obtain ⟨c', k, freed, hrun, hinv, hstop, hcov⟩ := insertLoop_spec hps hkvlen hevicted after
    (ids.take (alignDown ids.length c.pageSize)).length c 0 [] h (Nat.zero_le _)
    (.inl List.take_zero) le_rfl
  obtain ⟨hinv', hcov'⟩ := insertSuffix_spec hps hinv hkvlen (by
    rw [hlen]
    exact dvd_alignDown _ _) hevicted hstop
  refine ⟨_, k, freed, ?_, hinv', fun hc => hcov' (hcov hc)⟩
  unfold insert
  dsimp only
  rw [hrun]
  rfl

end SwaRadixCache

end FreeToken
