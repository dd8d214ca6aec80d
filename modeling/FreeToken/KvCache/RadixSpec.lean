import FreeToken.KvCache.Locks
import FreeToken.KvCache.RadixCache

/-!
# What the plain radix cache does to its tree

One specification for each operation of `RadixPrefixCache`: the walk reshapes and ends at the
deepest boundary of the key, an insert hangs the missing suffix below it, an eviction takes whole
unpinned leaves, a lock and an unlock move one path's reference counts.
-/

set_option autoImplicit false

namespace FreeToken

open BlockTrie Blocks

variable {ps : Nat} {t t' t'' : RadixTree} {L : List NodeRef}

/-- `t'` comes from `t` by reshaping and by removing unpinned leaves, whose values are `out`. -/
structure Takes (ps : Nat) (L : List NodeRef) (t t' : RadixTree) (out : List Nat) : Prop where
  locked : Locked ps t' L
  paged : Paged ps t'
  perm : (bases ps t).Perm (stride ps out ++ bases ps t')
  dvd : ps ∣ out.length
  reads : ∀ l ∈ L, ∀ row, Reads t l row → Reads t' l row

namespace Takes

theorem refl (h : Locked ps t L) (hp : Paged ps t) : Takes ps L t t [] :=
  ⟨h, hp, by simp, by simp, fun _ _ _ hr => hr⟩

theorem trans (hps : 0 < ps) {out out' : List Nat} (h : Takes ps L t t' out)
    (h' : Takes ps L t' t'' out') : Takes ps L t t'' (out ++ out') where
  locked := h'.locked
  paged := h'.paged
  perm := by
    rw [stride_append hps _ h.dvd, List.append_assoc]
    exact h.perm.trans (h'.perm.append_left _)
  dvd := by
    rw [List.length_append]
    exact Nat.dvd_add h.dvd h'.dvd
  reads := fun l hl row hr => h'.reads l hl row (h.reads l hl row hr)

theorem prune (h : Locked ps t L) (hp : Paged ps t) {n : RadixTreeNode} (hn : n ∈ t)
    (hl : isLeaf t n.path = true) (href : n.data.refCount = 0) :
    Takes ps L t (BlockTrie.prune t n.path) n.value where
  locked := h.prune hn hl href
  paged := hp.prune _
  perm := bases_prune h.wf hn
  dvd := by
    rw [h.wf.value_length n hn]
    exact h.wf.key_dvd n hn
  reads := fun _ hlL _ hr => h.reads_prune hn href hlL hr

theorem retag (h : Locked ps t L) (hp : Paged ps t) {g : RadixTreeNode → NodeData}
    (hg : ∀ n ∈ t, (g n).refCount = n.data.refCount) : Takes ps L t (FreeToken.retag t g) [] where
  locked := h.retag h.bound fun n hn => (hg n hn).trans (h.refs n hn)
  paged := paged_retag hp
  perm := by rw [bases_retag]; simp
  dvd := by simp
  reads := fun _ _ _ hr => reads_retag hr

theorem setData (h : Locked ps t L) (hp : Paged ps t) (p : NodeRef) {f : NodeData → NodeData}
    (hf : ∀ d, (f d).refCount = d.refCount) : Takes ps L t (t.setData p f) [] := by
  rw [RadixTree.setData_eq]
  refine retag h hp fun n _ => ?_
  unfold onlyAt
  split
  · exact hf n.data
  · rfl

theorem reshape (hps : 0 < ps) (h : Locked ps t L) (hp : Paged ps t) (hr : Reshape ps t t') :
    Takes ps L t t' [] where
  locked := hr.locked h
  paged := hr.paged hps hp
  perm := by simpa using (hr.bases_perm hps h.wf).symm
  dvd := by simp
  reads := fun _ _ _ hread => hr.reads h.wf hread

end Takes

/-- A walk of `ids` ended after `k` keys: it only reshaped, and no edge goes on. -/
structure Walked (ps : Nat) (t : RadixTree) (ids : List Token) (t' : RadixTree) (k : Nat) :
    Prop where
  reshape : Reshape ps t t'
  le : k ≤ ids.length
  bound : Boundary t' (ids.take k)
  stop : k < ids.length → ∀ m ∈ t', m.pre = ids.take k → m.key.take ps ≠ (ids.drop k).take ps

namespace Walked

variable {ids : List Token} {k : Nat}

/-- The walk reaches every boundary on its way. -/
theorem le_of_boundary (hw : WF ps t) (h : Walked ps t ids t' k) {j : Nat} (hj : j ≤ ids.length)
    (hb : Boundary t (ids.take j)) : j ≤ k := by
  by_contra hlt
  have hw' := h.reshape.wf hw
  have hkj : k < j := Nat.lt_of_not_le hlt
  obtain ⟨m, hm, hmp, hmj⟩ := hw'.exists_child h.bound (h.reshape.boundary hw hb)
    (List.take_prefix_take_left hkj.le) (by simp only [List.length_take]; omega)
  have hlen : m.pre.length = k := by
    rw [hmp, List.length_take, Nat.min_eq_left h.le]
  refine h.stop (Nat.lt_of_lt_of_le hkj hj) m hm hmp ?_
  rw [Node.block_eq (hw'.block_le hm) (hmj.trans (List.take_prefix j ids)), hlen]

theorem dvd (hw : WF ps t) (h : Walked ps t ids t' k) : ps ∣ k := by
  have := (h.reshape.wf hw).boundary_dvd h.bound
  rwa [List.length_take, Nat.min_eq_left h.le] at this

end Walked

namespace RadixPrefixCache

theorem treeWalkAux_spec (hps : 0 < ps) {ids : List Token} {tic : Nat} :
    ∀ (fuel : Nat) (t : RadixTree) (k : Nat), WF ps t → k ≤ ids.length →
      Boundary t (ids.take k) → ids.length ≤ fuel + k →
      Walked ps t ids (treeWalkAux ps ids tic fuel t k).1 (treeWalkAux ps ids tic fuel t k).2 := by
  intro fuel
  induction fuel with
  | zero =>
      intro t k _ hk hb hfuel
      rw [treeWalkAux]
      exact ⟨.refl, hk, hb, fun hlt => absurd hlt (by omega)⟩
  | succ fuel ih =>
      intro t k hw hk hb hfuel
      rw [treeWalkAux]
      split
      · rename_i hlt
        split
        · rename_i hnone
          exact ⟨.refl, hk, hb, fun _ => child?_eq_none.1 hnone⟩
        · rename_i c hchild
          have d := hw.descent hps hk hchild
          have hfits := d.fits
          have hblk := d.block_le
          dsimp only
          split
          · -- the key leaves the edge inside it
            rename_i hne
            have hcut := d.cut hps (Nat.lt_of_le_of_ne d.le hne)
            dsimp only
            have hstop := d.cut_stop hps hw hcut.lt NodeData.splitPrefix NodeData.splitSuffix
            refine ⟨(Reshape.refl.cut hcut).touch _ tic, hfits, ?_, fun _ m hm => ?_⟩
            · rw [RadixTree.touch_eq]
              exact boundary_retag.2 ((hcut.boundary hw _ _).2 (.inr d.key.symm))
            · rw [RadixTree.touch_eq] at hm
              obtain ⟨n, hn, rfl⟩ := mem_retag.1 hm
              exact hstop n hn
          · rename_i heq
            have hpath := d.path (not_not.1 heq)
            have hmem : Boundary (t.touch c.path tic) (ids.take (k + alignDown
                (commonLength c.key (ids.drop k)) ps)) := by
              rw [RadixTree.touch_eq]
              exact boundary_retag.2 (.inr ⟨c, d.mem, hpath⟩)
            have hrec := ih (t.touch c.path tic) _ ((Reshape.refl.touch c.path tic).wf hw) hfits
              hmem (by omega)
            exact ⟨(Reshape.refl.touch c.path tic).trans hrec.reshape, hrec.le, hrec.bound,
              hrec.stop⟩
      · exact ⟨.refl, hk, hb, fun hlt => absurd hlt (by omega)⟩

theorem treeWalk_spec {c : PrefixCache} (hps : 0 < c.pageSize) (hw : WF c.pageSize c.nodes)
    (ids : List Token) (tic : Nat) :
    Walked c.pageSize c.nodes ids (treeWalk c ids tic).1.nodes (treeWalk c ids tic).2 :=
  treeWalkAux_spec hps ids.length c.nodes 0 hw (Nat.zero_le _) (.inl List.take_zero) (by omega)

@[simp] theorem treeWalk_pageSize (c : PrefixCache) (ids : List Token) (tic : Nat) :
    (treeWalk c ids tic).1.pageSize = c.pageSize := rfl

@[simp] theorem treeWalk_slidingWindowSize (c : PrefixCache) (ids : List Token) (tic : Nat) :
    (treeWalk c ids tic).1.slidingWindowSize = c.slidingWindowSize := rfl

/-- The handle of a match names the end of the walk. -/
theorem matchPrefix_spec {c : PrefixCache} (hps : 0 < c.pageSize) (hw : WF c.pageSize c.nodes)
    (ids : List Token) (tic : Nat) :
    ∃ k, (matchPrefix c ids tic).2 =
        { cachedLen := k, node := ids.take k, kvIndices := [], swaUuid := none } ∧
      Walked c.pageSize c.nodes ids (matchPrefix c ids tic).1.nodes k ∧
      (matchPrefix c ids tic).1.pageSize = c.pageSize :=
  ⟨_, rfl, treeWalk_spec hps hw ids tic, rfl⟩

/-! ## Inserting -/

/-- The tree an insert of the page-aligned prefix `ids` leaves: what was not in the tree from `k` on
hangs below the walk's end with the request's own values. -/
structure Inserted (ps : Nat) (L : List NodeRef) (t : RadixTree) (ids : List Token)
    (indices : List Nat) (t' : RadixTree) (k : Nat) : Prop where
  locked : Locked ps t' L
  paged : Paged ps t'
  le : k ≤ ids.length
  dvd : ps ∣ k
  bound : Boundary t' ids
  perm : (bases ps t').Perm (bases ps t ++ stride ps (indices.drop k))
  reads : ∀ l row, Reads t l row → Reads t' l row
  fresh : ∀ i x, k ≤ i → indices[i]? = some x → ReadsAt t' ids i x
  longest : ∀ j ≤ ids.length, Boundary t (ids.take j) → j ≤ k

/-- Hanging the suffix of `ids` below the end of a walk. -/
theorem hangSuffix_spec {c : PrefixCache} (hps : 0 < ps) (h : Locked ps t L) (hp : Paged ps t)
    {ids : List Token} {indices : List Nat} (hlen : indices.length = ids.length)
    (hdvd : ps ∣ ids.length) (hpages : ∃ pages, indices = expand ps pages) {k : Nat}
    (hw : Walked ps t ids c.nodes k) (tic : Nat) :
    Inserted ps L t ids indices (hangSuffix c ids indices k tic).nodes k := by
  have hdk := hw.dvd h.wf
  have hlocked := hw.reshape.locked h
  have hperm := hw.reshape.bases_perm hps h.wf
  unfold hangSuffix
  split
  · rename_i hne
    have hlt : k < ids.length := Nat.lt_of_le_of_ne hw.le hne
    have hkey : ids.drop k ≠ [] := by
      rw [← List.length_pos_iff, List.length_drop]
      omega
    have hpath : (Node.mk (ids.take k) (ids.drop k) (indices.drop k)
        (NodeData.fresh tic)).path = ids := List.take_append_drop k ids
    refine ⟨?_, ?_, hw.le, hdk, ?_, ?_, ?_, ?_, fun j hj hb => hw.le_of_boundary h.wf hj hb⟩
    · refine hlocked.graft hw.bound hkey ?_ ?_ (hw.stop hlt) rfl
      · rw [List.length_drop]
        exact Nat.dvd_sub hdvd hdk
      · rw [List.length_drop, List.length_drop, hlen]
    · refine (hw.reshape.paged hps hp).graft ?_
      obtain ⟨pages, rfl⟩ := hpages
      exact ⟨_, (expand_cut hps pages hdk).2⟩
    · exact boundary_graft.2 (.inr hpath.symm)
    · rw [bases_graft]
      exact hperm.append_right _
    · exact fun l row hr => reads_graft (hw.reshape.reads h.wf hr)
    · intro i x hki hx
      refine ⟨_, List.mem_append_right _ (List.mem_singleton_self _),
        ⟨[], by rw [hpath, List.append_nil]⟩, ?_, ?_⟩
      · simpa [Nat.min_eq_left hw.le] using hki
      · simp only [List.length_take, Nat.min_eq_left hw.le, List.getElem?_drop]
        rw [Nat.add_sub_cancel' hki, hx]
  · rename_i heq
    have hk : k = ids.length := not_not.1 heq
    refine ⟨hlocked, hw.reshape.paged hps hp, hw.le, hdk, ?_, ?_, ?_, ?_,
      fun j hj hb => hw.le_of_boundary h.wf hj hb⟩
    · have := hw.bound
      rwa [hk, List.take_length] at this
    · rw [hk, ← hlen, List.drop_length]
      simpa using hperm
    · exact fun l row hr => hw.reshape.reads h.wf hr
    · intro i x hki hx
      have := (List.getElem?_eq_some_iff.1 hx).1
      omega

@[simp] theorem hangSuffix_pageSize (c : PrefixCache) (ids : List Token) (indices : List Nat)
    (k tic : Nat) : (hangSuffix c ids indices k tic).pageSize = c.pageSize := by
  unfold hangSuffix
  split <;> rfl

theorem insertPrefix_spec {c : PrefixCache} (hps : 0 < c.pageSize)
    (h : Locked c.pageSize c.nodes L) (hp : Paged c.pageSize c.nodes) (ids : List Token)
    (indices : List Nat) (hlen : indices.length = ids.length)
    (hpages : ∃ pages, indices.take (alignDown ids.length c.pageSize) = expand c.pageSize pages)
    (tic newTic : Nat) :
    Inserted c.pageSize L c.nodes (ids.take (alignDown ids.length c.pageSize))
        (indices.take (alignDown ids.length c.pageSize))
        (insertPrefix c ids indices tic newTic).1.nodes (insertPrefix c ids indices tic newTic).2.1 ∧
      (insertPrefix c ids indices tic newTic).2.2 =
        { cachedLen := alignDown ids.length c.pageSize
          node := ids.take (alignDown ids.length c.pageSize), kvIndices := [], swaUuid := none } ∧
      (insertPrefix c ids indices tic newTic).1.pageSize = c.pageSize := by
  have hle := alignDown_le ids.length c.pageSize
  have htake : (ids.take (alignDown ids.length c.pageSize)).length =
      alignDown ids.length c.pageSize := by
    rw [List.length_take, Nat.min_eq_left hle]
  have hw := treeWalk_spec hps h.wf (ids.take (alignDown ids.length c.pageSize)) tic
  exact ⟨hangSuffix_spec hps h hp (by rw [htake, List.length_take, hlen, Nat.min_eq_left hle])
    (htake.symm ▸ dvd_alignDown ids.length c.pageSize) hpages hw newTic, rfl,
    hangSuffix_pageSize _ _ _ _ _⟩

/-! ## Locking -/

theorem foldl_pin_nodes (ns : List RadixTreeNode) (c : PrefixCache) :
    (ns.foldl PrefixCache.pin c).nodes =
      ns.foldl (fun u n => u.setData n.path fun d => { d with refCount := d.refCount + 1 })
        c.nodes := by
  induction ns generalizing c with
  | nil => rfl
  | cons n ns ih =>
      rw [List.foldl_cons, List.foldl_cons, ih]
      congr 1
      unfold PrefixCache.pin
      split <;> rfl

theorem foldl_pin_pageSize (ns : List RadixTreeNode) (c : PrefixCache) :
    (ns.foldl PrefixCache.pin c).pageSize = c.pageSize := by
  induction ns generalizing c with
  | nil => rfl
  | cons n ns ih =>
      rw [List.foldl_cons, ih]
      unfold PrefixCache.pin
      split <;> rfl

theorem lockHandle_nodes {c : PrefixCache} (hw : WF ps c.nodes) {h : CacheHandle}
    (hb : Boundary c.nodes h.node) :
    (lockHandle c h).nodes =
      retag c.nodes (above h.node fun d => { d with refCount := d.refCount + 1 }) := by
  unfold lockHandle
  rw [foldl_pin_nodes, setData_chain hw hb]

@[simp] theorem lockHandle_pageSize (c : PrefixCache) (h : CacheHandle) :
    (lockHandle c h).pageSize = c.pageSize :=
  foldl_pin_pageSize _ _

theorem foldlM_unpin {ns : List RadixTreeNode} {c c' : PrefixCache}
    (h : ns.foldlM PrefixCache.unpin c = .ok c') :
    c'.nodes = ns.foldl
        (fun u n => u.setData n.path fun d => { d with refCount := d.refCount - 1 }) c.nodes ∧
      c'.pageSize = c.pageSize := by
  induction ns generalizing c with
  | nil =>
      cases h
      exact ⟨rfl, rfl⟩
  | cons n ns ih =>
      rw [List.foldlM_cons] at h
      unfold PrefixCache.unpin at h
      by_cases hpos : 0 < n.data.refCount
      · simp only [pyAssert, hpos, decide_true, if_true] at h
        obtain ⟨hn, hs⟩ := ih h
        rw [List.foldl_cons, hn, hs]
        refine ⟨?_, ?_⟩
        · congr 1
          dsimp only
          split <;> rfl
        · dsimp only
          split <;> rfl
      · simp only [pyAssert, hpos, decide_false] at h
        cases h

theorem foldlM_unpin_ok {ns : List RadixTreeNode} (c : PrefixCache)
    (h : ∀ n ∈ ns, 0 < n.data.refCount) : ∃ c', ns.foldlM PrefixCache.unpin c = .ok c' := by
  induction ns generalizing c with
  | nil => exact ⟨c, rfl⟩
  | cons n ns ih =>
      rw [List.foldlM_cons]
      unfold PrefixCache.unpin
      simp only [pyAssert, h n List.mem_cons_self, decide_true, if_true]
      exact ih _ fun m hm => h m (List.mem_cons_of_mem _ hm)

theorem unlockHandle_spec {c c' : PrefixCache} (hw : WF ps c.nodes) {h : CacheHandle}
    (hb : Boundary c.nodes h.node) (hu : unlockHandle c h = .ok c') :
    c'.nodes = retag c.nodes (above h.node fun d => { d with refCount := d.refCount - 1 }) ∧
      c'.pageSize = c.pageSize := by
  obtain ⟨hn, hs⟩ := foldlM_unpin hu
  rw [setData_chain hw hb] at hn
  exact ⟨hn, hs⟩

/-! ## Evicting -/

theorem isFreeLeaf_iff {c : PrefixCache} {p : NodeRef} :
    c.isFreeLeaf p = true ↔ ∃ n ∈ c.nodes, node? c.nodes p = some n ∧ n.path = p ∧
      isLeaf c.nodes p = true ∧ n.data.refCount = 0 := by
  unfold PrefixCache.isFreeLeaf
  cases hf : node? c.nodes p with
  | none => simp
  | some n =>
      obtain ⟨hn, hp⟩ := mem_of_node? hf
      simp [hn, hp]

theorem mem_of_heappop {heap rest : List RadixTreeNode} {n : RadixTreeNode}
    (h : RadixTree.heappop heap = some (n, rest)) : n ∈ heap ∧ ∀ m ∈ rest, m ∈ heap := by
  have hmin : ∀ (l : List RadixTreeNode) (a : RadixTreeNode),
      l.foldl (fun m x => if x.data.timestamp < m.data.timestamp then x else m) a ∈ a :: l := by
    intro l
    induction l with
    | nil => intro a; exact List.mem_singleton_self a
    | cons b l ih =>
        intro a
        rw [List.foldl_cons]
        split
        · exact List.mem_cons_of_mem _ (ih b)
        · rcases List.mem_cons.1 (ih a) with ha | hl
          · exact List.mem_cons.2 (.inl ha)
          · exact List.mem_cons_of_mem _ (List.mem_cons_of_mem _ hl)
  cases heap with
  | nil => cases h
  | cons a l =>
      simp only [RadixTree.heappop, Option.some.injEq, Prod.mk.injEq] at h
      obtain ⟨rfl, rfl⟩ := h
      exact ⟨hmin l a, fun m hm => List.mem_of_mem_eraseP hm⟩

/-- A pop takes one entry of the heap. -/
theorem heappop_perm {heap rest : List RadixTreeNode} {n : RadixTreeNode}
    (h : RadixTree.heappop heap = some (n, rest))
    (hpath : ∀ x ∈ heap, ∀ y ∈ heap, x.path = y.path → x = y) : heap.Perm (n :: rest) := by
  obtain ⟨hn, -⟩ := mem_of_heappop h
  cases heap with
  | nil => cases h
  | cons a l =>
      simp only [RadixTree.heappop, Option.some.injEq, Prod.mk.injEq] at h
      obtain ⟨hleast, rfl⟩ := h
      rw [hleast]
      have hself : decide (n.path = n.path) = true := by simp
      obtain ⟨x, l₁, l₂, -, hx, happ, herase⟩ := List.exists_of_eraseP
        (p := fun x : RadixTreeNode => decide (x.path = n.path)) hn hself
      rw [herase, happ]
      have hxn : x = n := hpath x (by rw [happ]; simp) n hn (by simpa using hx)
      rw [hxn]
      exact List.perm_middle

theorem heappop_none {heap : List RadixTreeNode} (h : RadixTree.heappop heap = none) :
    heap = [] := by
  cases heap with
  | nil => rfl
  | cons a l => cases h

/-- The heap of an eviction holds nodes of the tree the eviction started from. -/
theorem evictLoop_spec {size : Nat} {t₀ : RadixTree} (hps : 0 < ps) (hw₀ : WF ps t₀) :
    ∀ (fuel : Nat) (heap : List RadixTreeNode) (n : Nat) (out : List Nat) (c c' : PrefixCache)
      (out' : List Nat), c.pageSize = ps → (∀ m ∈ heap, m ∈ t₀) → (∀ m ∈ c.nodes, m ∈ t₀) →
      Takes ps L t₀ c.nodes out → evictLoop size fuel heap n out c = .ok (c', out') →
      Takes ps L t₀ c'.nodes out' ∧ c'.pageSize = ps := by
  intro fuel
  induction fuel with
  | zero =>
      intro heap n out c c' out' hsize _ _ htakes h
      rw [evictLoop] at h
      split at h
      · cases h
      · cases h
        exact ⟨htakes, hsize⟩
  | succ fuel ih =>
      intro heap n out c c' out' hsize hheap hsub htakes h
      rw [evictLoop] at h
      split at h
      · split at h
        · cases h
        · rename_i node rest hpop
          obtain ⟨hnode, hrest⟩ := mem_of_heappop hpop
          split at h
          · rename_i hfree
            obtain ⟨m, hm, -, hmp, hleaf, href⟩ := isFreeLeaf_iff.1 hfree
            obtain rfl := hw₀.eq_of_path (hsub m hm) (hheap node hnode) hmp
            refine ih _ _ _ _ _ _ ?_ ?_ ?_ ?_ h
            · exact hsize
            · intro x hx
              dsimp only at hx
              split at hx
              · exact hheap x (hrest x hx)
              · rename_i q hq
                have hqt := hsub q (mem_prune.1 (mem_of_node? hq).1).1
                split at hx
                · rcases List.mem_cons.1 hx with rfl | hx
                  · exact hqt
                  · exact hheap x (hrest x hx)
                · exact hheap x (hrest x hx)
            · exact fun x hx => hsub x (mem_prune.1 hx).1
            · exact htakes.trans hps (Takes.prune htakes.locked htakes.paged hm hleaf href)
          · cases h
      · cases h
        exact ⟨htakes, hsize⟩

theorem evict_spec {c c' : PrefixCache} {size : Nat} {out : List Nat} (hps : 0 < c.pageSize)
    (h : Locked c.pageSize c.nodes L) (hp : Paged c.pageSize c.nodes)
    (he : evict c size = .ok (c', out)) :
    Takes c.pageSize L c.nodes c'.nodes out ∧ c'.pageSize = c.pageSize := by
  unfold evict at he
  split at he
  · cases he
    exact ⟨Takes.refl h hp, rfl⟩
  · split at he
    · refine evictLoop_spec hps h.wf _ _ _ _ _ _ _ rfl ?_ (fun m hm => hm) (Takes.refl h hp) he
      exact fun m hm => (List.mem_filter.1 hm).1
    · cases he

end RadixPrefixCache

end FreeToken
