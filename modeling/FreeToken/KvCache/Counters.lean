import FreeToken.KvCache.HybridSpec
import FreeToken.Lib.BlockTrieTally

/-!
# The counters of a prefix cache

Each counter is a sum over the nodes: the tokens and the snapshots that are free to evict and those
that are locked.
-/

set_option autoImplicit false

namespace FreeToken

open BlockTrie Blocks

variable {ps : Nat} {t t' : RadixTree} {L : List NodeRef} {c : PrefixCache}

def freeTokens (n : RadixTreeNode) : Int := if n.data.refCount = 0 then n.length else 0

def lockedTokens (n : RadixTreeNode) : Int := if n.data.refCount = 0 then 0 else n.length

def freeSnapshots (n : RadixTreeNode) : Int :=
  if n.data.mambaValue.isSome ∧ n.data.mambaRefCount = 0 then 1 else 0

def lockedSnapshots (n : RadixTreeNode) : Int :=
  if n.data.mambaValue.isSome ∧ n.data.mambaRefCount ≠ 0 then 1 else 0

@[simp] theorem length_withData (n : RadixTreeNode) (d : NodeData) :
    Node.length { n with data := d } = n.length := rfl

/-- The token counters are the recomputed sums. -/
structure TokensTallied (c : PrefixCache) : Prop where
  evictable : c.fullEvictable = tally freeTokens c.nodes
  locked : c.fullProtected = tally lockedTokens c.nodes

/-- The snapshot counters are the recomputed sums. -/
structure SnapsTallied (c : PrefixCache) : Prop where
  evictable : c.mambaEvictable = tally freeSnapshots c.nodes
  locked : c.mambaProtected = tally lockedSnapshots c.nodes

/-! ## Walks -/

/-- A sum that a split shares out and a touch leaves alone. -/
structure Additive (f : RadixTreeNode → Int) : Prop where
  cut : ∀ (n : RadixTreeNode) (pos : Nat), pos < n.key.length →
    tally f (n.halves pos NodeData.splitPrefix NodeData.splitSuffix) = f n
  touch : ∀ (n : RadixTreeNode) (tic : Nat),
    f { n with data := { n.data with timestamp := tic } } = f n

theorem length_halves (n : RadixTreeNode) {pos : Nat} (h : pos < n.key.length) :
    ((n.key.take pos).length : Int) + (n.key.drop pos).length = n.key.length := by
  rw [List.length_take, List.length_drop]
  omega

theorem additive_freeTokens : Additive freeTokens where
  cut := by
    intro n pos hpos
    have hlen := length_halves n hpos
    simp only [Node.halves, tally_cons, tally_nil, freeTokens, NodeData.splitPrefix,
      NodeData.splitSuffix, Node.length]
    split <;> omega
  touch := fun _ _ => rfl

theorem additive_lockedTokens : Additive lockedTokens where
  cut := by
    intro n pos hpos
    have hlen := length_halves n hpos
    simp only [Node.halves, tally_cons, tally_nil, lockedTokens, NodeData.splitPrefix,
      NodeData.splitSuffix, Node.length]
    split <;> omega
  touch := fun _ _ => rfl

theorem additive_freeSnapshots : Additive freeSnapshots where
  cut := by
    intro n pos _
    simp [Node.halves, freeSnapshots, NodeData.splitPrefix, NodeData.splitSuffix]
  touch := fun _ _ => rfl

theorem additive_lockedSnapshots : Additive lockedSnapshots where
  cut := by
    intro n pos _
    simp [Node.halves, lockedSnapshots, NodeData.splitPrefix, NodeData.splitSuffix]
  touch := fun _ _ => rfl

theorem Reshape.tally {f : RadixTreeNode → Int} (hf : Additive f) (hw : WF ps t)
    (h : Reshape ps t t') : tally f t' = tally f t := by
  induction h with
  | refl => rfl
  | @cut t' n pos h hc ih =>
      rw [RadixTree.splitAt, (h.wf hw).tally_split f hc.mem, hf.cut n pos hc.lt, ih]
      omega
  | touch _ p tic ih =>
      rw [← ih]
      unfold RadixTree.touch RadixTree.setData BlockTrie.modify
      rw [tally_map]
      refine tally_congr fun n _ => ?_
      dsimp only
      split
      · exact hf.touch n tic
      · rfl

theorem TokensTallied.reshape (h : TokensTallied c) (hw : WF ps c.nodes)
    (hr : Reshape ps c.nodes t) : TokensTallied { c with nodes := t } :=
  ⟨h.evictable.trans (hr.tally additive_freeTokens hw).symm,
    h.locked.trans (hr.tally additive_lockedTokens hw).symm⟩

theorem SnapsTallied.reshape (h : SnapsTallied c) (hw : WF ps c.nodes)
    (hr : Reshape ps c.nodes t) : SnapsTallied { c with nodes := t } :=
  ⟨h.evictable.trans (hr.tally additive_freeSnapshots hw).symm,
    h.locked.trans (hr.tally additive_lockedSnapshots hw).symm⟩

/-! ## Edits of one node -/

/-- A change of one node's data that counts the same in `f`. -/
theorem tally_setData_same {f : RadixTreeNode → Int} {g : NodeData → NodeData} {p : NodeRef}
    (hg : ∀ n ∈ t, n.path = p → f { n with data := g n.data } = f n) :
    tally f (t.setData p g) = tally f t := by
  unfold RadixTree.setData BlockTrie.modify
  rw [tally_map]
  refine tally_congr fun n hn => ?_
  split
  · rename_i hp
    exact hg n hn hp
  · rfl

theorem tally_setData {f : RadixTreeNode → Int} (hw : WF ps t) {n : RadixTreeNode} (hn : n ∈ t)
    (g : NodeData → NodeData) :
    tally f (t.setData n.path g) = tally f t - f n + f { n with data := g n.data } :=
  hw.tally_modify f hn _

theorem TokensTallied.set (h : TokensTallied c) (hw : WF ps c.nodes) {n : RadixTreeNode}
    (hn : n ∈ c.nodes) (g : NodeData → NodeData) {d : PrefixCache}
    (hd : d.nodes = c.nodes.setData n.path g)
    (he : d.fullEvictable = c.fullEvictable - freeTokens n + freeTokens { n with data := g n.data })
    (hl : d.fullProtected =
      c.fullProtected - lockedTokens n + lockedTokens { n with data := g n.data }) :
    TokensTallied d := by
  constructor
  · rw [he, hd, tally_setData hw hn, h.evictable]
  · rw [hl, hd, tally_setData hw hn, h.locked]

theorem SnapsTallied.set (h : SnapsTallied c) (hw : WF ps c.nodes) {n : RadixTreeNode}
    (hn : n ∈ c.nodes) (g : NodeData → NodeData) {d : PrefixCache}
    (hd : d.nodes = c.nodes.setData n.path g)
    (he : d.mambaEvictable =
      c.mambaEvictable - freeSnapshots n + freeSnapshots { n with data := g n.data })
    (hl : d.mambaProtected =
      c.mambaProtected - lockedSnapshots n + lockedSnapshots { n with data := g n.data }) :
    SnapsTallied d := by
  constructor
  · rw [he, hd, tally_setData hw hn, h.evictable]
  · rw [hl, hd, tally_setData hw hn, h.locked]

/-- A change that no token counter sees. -/
theorem TokensTallied.setData (h : TokensTallied c) {p : NodeRef} {g : NodeData → NodeData}
    (hg : ∀ d, (g d).refCount = d.refCount) {d : PrefixCache} (hd : d.nodes = c.nodes.setData p g)
    (he : d.fullEvictable = c.fullEvictable) (hl : d.fullProtected = c.fullProtected) :
    TokensTallied d := by
  constructor
  · rw [he, hd, h.evictable]
    refine (tally_setData_same fun n _ _ => ?_).symm
    simp only [freeTokens, hg, Node.length]
  · rw [hl, hd, h.locked]
    refine (tally_setData_same fun n _ _ => ?_).symm
    simp only [lockedTokens, hg, Node.length]

/-- A change that no snapshot counter sees. -/
theorem SnapsTallied.setData (h : SnapsTallied c) {p : NodeRef} {g : NodeData → NodeData}
    (hg : ∀ d, (g d).mambaValue = d.mambaValue ∧ (g d).mambaRefCount = d.mambaRefCount)
    {d : PrefixCache} (hd : d.nodes = c.nodes.setData p g)
    (he : d.mambaEvictable = c.mambaEvictable) (hl : d.mambaProtected = c.mambaProtected) :
    SnapsTallied d := by
  constructor
  · rw [he, hd, h.evictable]
    refine (tally_setData_same fun n _ _ => ?_).symm
    simp only [freeSnapshots, hg]
  · rw [hl, hd, h.locked]
    refine (tally_setData_same fun n _ _ => ?_).symm
    simp only [lockedSnapshots, hg]

/-! ## Grafts and prunes -/

theorem TokensTallied.graft (h : TokensTallied c) {n : RadixTreeNode} (href : n.data.refCount = 0)
    {d : PrefixCache} (hd : d.nodes = BlockTrie.graft c.nodes n)
    (he : d.fullEvictable = c.fullEvictable + n.length)
    (hl : d.fullProtected = c.fullProtected) : TokensTallied d := by
  constructor
  · rw [he, hd, tally_graft, h.evictable, freeTokens, if_pos href]
  · rw [hl, hd, tally_graft, h.locked, lockedTokens, if_pos href, add_zero]

theorem SnapsTallied.graft (h : SnapsTallied c) {n : RadixTreeNode}
    (hn : n.data.mambaValue = none) {d : PrefixCache} (hd : d.nodes = BlockTrie.graft c.nodes n)
    (he : d.mambaEvictable = c.mambaEvictable) (hl : d.mambaProtected = c.mambaProtected) :
    SnapsTallied d := by
  constructor
  · rw [he, hd, tally_graft, h.evictable]
    simp [freeSnapshots, hn]
  · rw [hl, hd, tally_graft, h.locked]
    simp [lockedSnapshots, hn]

theorem TokensTallied.prune (h : TokensTallied c) (hw : WF ps c.nodes) {n : RadixTreeNode}
    (hn : n ∈ c.nodes) (href : n.data.refCount = 0) {d : PrefixCache}
    (hd : d.nodes = BlockTrie.prune c.nodes n.path)
    (he : d.fullEvictable = c.fullEvictable - n.length)
    (hl : d.fullProtected = c.fullProtected) : TokensTallied d := by
  have hfree := hw.tally_prune freeTokens hn
  have hlocked := hw.tally_prune lockedTokens hn
  rw [freeTokens, if_pos href] at hfree
  rw [lockedTokens, if_pos href] at hlocked
  constructor
  · rw [he, hd, h.evictable, hfree]
    omega
  · rw [hl, hd, h.locked, hlocked]
    omega

/-- A node goes with its snapshot, if it has one. -/
theorem SnapsTallied.prune (h : SnapsTallied c) (hw : WF ps c.nodes) {n : RadixTreeNode}
    (hn : n ∈ c.nodes) (href : n.data.mambaRefCount = 0) {d : PrefixCache}
    (hd : d.nodes = BlockTrie.prune c.nodes n.path)
    (he : d.mambaEvictable = c.mambaEvictable - if n.data.mambaValue.isSome then 1 else 0)
    (hl : d.mambaProtected = c.mambaProtected) : SnapsTallied d := by
  have hfree := hw.tally_prune freeSnapshots hn
  have hlocked := hw.tally_prune lockedSnapshots hn
  rw [freeSnapshots] at hfree
  rw [lockedSnapshots] at hlocked
  simp only [href, and_true, ne_eq, not_true_eq_false, and_false, if_false] at hfree hlocked
  constructor
  · rw [he, hd, h.evictable, hfree]
    omega
  · rw [hl, hd, h.locked, hlocked]
    omega

/-! ## Locks -/

/-- One node of a lock's walk: its tokens are locked from the first lock on. -/
theorem TokensTallied.pin (h : TokensTallied c) (hw : WF ps c.nodes) {n : RadixTreeNode}
    (hn : n ∈ c.nodes) : TokensTallied (c.pin n) := by
  unfold PrefixCache.pin
  dsimp only
  split
  · rename_i hz
    refine h.set hw hn (fun d => { d with refCount := d.refCount + 1 }) rfl ?_ ?_
    · simp [freeTokens, hz]
    · simp [lockedTokens, hz]
  · rename_i hz
    refine h.set hw hn (fun d => { d with refCount := d.refCount + 1 }) rfl ?_ ?_
    · simp [freeTokens, hz]
    · simp [lockedTokens, hz]

theorem TokensTallied.unpin (h : TokensTallied c) (hw : WF ps c.nodes) {n : RadixTreeNode}
    (hn : n ∈ c.nodes) {d : PrefixCache} (hd : c.unpin n = .ok d) : TokensTallied d := by
  unfold PrefixCache.unpin at hd
  obtain ⟨u, hassert, hret⟩ := Py.bind_eq_ok.1 hd
  rw [pyAssert_eq_ok, decide_eq_true_eq] at hassert
  cases hret
  split
  · rename_i hone
    refine h.set hw hn (fun d => { d with refCount := d.refCount - 1 }) rfl ?_ ?_
    · simp [freeTokens, hone]
    · simp [lockedTokens, hone]
  · rename_i hone
    have hne : n.data.refCount ≠ 0 := by omega
    have hne' : n.data.refCount - 1 ≠ 0 := by omega
    refine h.set hw hn (fun d => { d with refCount := d.refCount - 1 }) rfl ?_ ?_
    · simp [freeTokens, hne, hne']
    · simp [lockedTokens, hne, hne']

theorem mem_setData_of_ne {p : NodeRef} {g : NodeData → NodeData} {m : RadixTreeNode}
    (hm : m ∈ t) (hp : m.path ≠ p) : m ∈ t.setData p g :=
  List.mem_map.2 ⟨m, hm, if_neg hp⟩

theorem wf_setData (hw : WF ps t) (p : NodeRef) (g : NodeData → NodeData) :
    WF ps (t.setData p g) := by
  rw [RadixTree.setData_eq]
  exact wf_retag hw _

theorem pin_nodes (c : PrefixCache) (n : RadixTreeNode) :
    (c.pin n).nodes = c.nodes.setData n.path fun d => { d with refCount := d.refCount + 1 } := by
  unfold PrefixCache.pin
  dsimp only
  split <;> rfl

theorem SnapsTallied.pin (h : SnapsTallied c) (n : RadixTreeNode) : SnapsTallied (c.pin n) := by
  refine h.setData (p := n.path) (g := fun d => { d with refCount := d.refCount + 1 })
    (fun _ => ⟨rfl, rfl⟩) (pin_nodes c n) ?_ ?_ <;> unfold PrefixCache.pin <;> dsimp only <;>
    split <;> rfl

theorem unpin_nodes {d : PrefixCache} {n : RadixTreeNode} (h : c.unpin n = .ok d) :
    d.nodes = c.nodes.setData n.path (fun d => { d with refCount := d.refCount - 1 }) ∧
      d.mambaEvictable = c.mambaEvictable ∧ d.mambaProtected = c.mambaProtected := by
  unfold PrefixCache.unpin at h
  obtain ⟨u, -, hret⟩ := Py.bind_eq_ok.1 h
  cases hret
  split <;> exact ⟨rfl, rfl, rfl⟩

theorem SnapsTallied.unpin (h : SnapsTallied c) {n : RadixTreeNode} {d : PrefixCache}
    (hd : c.unpin n = .ok d) : SnapsTallied d := by
  obtain ⟨hn, he, hl⟩ := unpin_nodes hd
  refine h.setData ?_ hn he hl
  exact fun _ => ⟨rfl, rfl⟩

/-- The walk of a lock over distinct nodes of the tree. -/
theorem TokensTallied.foldl_pin : ∀ (ns : List RadixTreeNode) (c : PrefixCache), WF ps c.nodes →
    (∀ n ∈ ns, n ∈ c.nodes) → ns.Nodup → TokensTallied c →
    TokensTallied (ns.foldl PrefixCache.pin c) := by
  intro ns
  induction ns with
  | nil => exact fun c _ _ _ ht => ht
  | cons n ns ih =>
      intro c hw hmem hnd ht
      rw [List.nodup_cons] at hnd
      have hn := hmem n List.mem_cons_self
      refine ih (c.pin n) ?_ ?_ hnd.2 (ht.pin hw hn)
      · rw [pin_nodes]
        exact wf_setData hw _ _
      · intro m hm
        have hmt := hmem m (List.mem_cons_of_mem _ hm)
        rw [pin_nodes]
        exact mem_setData_of_ne hmt fun hp => hnd.1 (hw.eq_of_path hmt hn hp ▸ hm)

theorem SnapsTallied.foldl_pin (ns : List RadixTreeNode) (c : PrefixCache) (hs : SnapsTallied c) :
    SnapsTallied (ns.foldl PrefixCache.pin c) := by
  induction ns generalizing c with
  | nil => exact hs
  | cons n ns ih => exact ih (c.pin n) (hs.pin n)

/-- The walk of an unlock over distinct nodes of the tree. -/
theorem TokensTallied.foldlM_unpin : ∀ (ns : List RadixTreeNode) (c d : PrefixCache),
    WF ps c.nodes → (∀ n ∈ ns, n ∈ c.nodes) → ns.Nodup → TokensTallied c →
    ns.foldlM PrefixCache.unpin c = .ok d → TokensTallied d := by
  intro ns
  induction ns with
  | nil =>
      intro c d _ _ _ ht h
      cases h
      exact ht
  | cons n ns ih =>
      intro c d hw hmem hnd ht h
      rw [List.nodup_cons] at hnd
      rw [List.foldlM_cons] at h
      obtain ⟨c₁, hone, hrest⟩ := Py.bind_eq_ok.1 h
      have hn := hmem n List.mem_cons_self
      have hnodes := (unpin_nodes hone).1
      refine ih c₁ d ?_ ?_ hnd.2 (ht.unpin hw hn hone) hrest
      · rw [hnodes]
        exact wf_setData hw _ _
      · intro m hm
        have hmt := hmem m (List.mem_cons_of_mem _ hm)
        rw [hnodes]
        exact mem_setData_of_ne hmt fun hp => hnd.1 (hw.eq_of_path hmt hn hp ▸ hm)

theorem SnapsTallied.foldlM_unpin {ns : List RadixTreeNode} {c d : PrefixCache}
    (hs : SnapsTallied c) (h : ns.foldlM PrefixCache.unpin c = .ok d) : SnapsTallied d := by
  induction ns generalizing c with
  | nil =>
      cases h
      exact hs
  | cons n ns ih =>
      rw [List.foldlM_cons] at h
      obtain ⟨c₁, hone, hrest⟩ := Py.bind_eq_ok.1 h
      exact ih (hs.unpin hone) hrest

end FreeToken
