import FreeToken.KvCache.Counters
import FreeToken.KvCache.RadixMap

/-!
# What an eviction of the radix cache takes

The counters are the sums over the nodes in every reachable state, and an eviction that they allow
goes through: it takes least recently used leaves, one at a time, until enough tokens are out.
-/

set_option autoImplicit false

namespace FreeToken

open BlockTrie Blocks

variable {ps : Nat} {t t' : RadixTree} {L : List NodeRef}

/-! ## Unlocked subtrees -/

/-- A lock that runs through a node runs through every node above it. -/
theorem Locked.ref_mono (h : Locked ps t L) {n m : RadixTreeNode} (hn : n ∈ t) (hm : m ∈ t)
    (hp : n.path <+: m.path) : m.data.refCount ≤ n.data.refCount := by
  rw [h.refs n hn, h.refs m hm]
  apply List.countP_mono_left
  intro l _ hl
  simp only [decide_eq_true_eq] at hl ⊢
  exact hp.trans hl

namespace RadixPrefixCache

/-- A node that an eviction may take next. -/
structure Removable (t : RadixTree) (n : RadixTreeNode) : Prop where
  mem : n ∈ t
  leaf : isLeaf t n.path = true
  unlocked : n.data.refCount = 0

theorem mem_freeLeaves {c : PrefixCache} {n : RadixTreeNode} :
    n ∈ c.freeLeaves ↔ Removable c.nodes n := by
  unfold PrefixCache.freeLeaves
  simp only [List.mem_filter, Bool.and_eq_true, decide_eq_true_eq]
  exact ⟨fun h => ⟨h.1, h.2.1, h.2.2⟩, fun h => ⟨h.mem, h.leaf, h.unlocked⟩⟩

/-- While evictable tokens are left, some leaf can go: an unlocked node heads an unlocked subtree. -/
theorem exists_removable (h : Locked ps t L) (hpos : 0 < tally freeTokens t) :
    ∃ n, Removable t n := by
  by_contra hnone
  have hzero : ∀ n ∈ t, freeTokens n = 0 := by
    intro n hn
    rw [freeTokens]
    apply if_neg
    intro href
    obtain ⟨m, hm, hp, hleaf⟩ := h.wf.exists_leaf_below hn
    have hle := h.ref_mono hn hm hp
    exact hnone ⟨m, hm, hleaf, by omega⟩
  have htally : tally freeTokens t = 0 := by
    unfold tally
    apply List.sum_eq_zero
    intro x hx
    obtain ⟨n, hn, rfl⟩ := List.mem_map.1 hx
    exact hzero n hn
  omega

/-- After a leaf is gone, the removable nodes are those that were left and, when this was its last
child, the node above it. -/
theorem removable_prune (hw : WF ps t) {n : RadixTreeNode} (hn : Removable t n)
    {m : RadixTreeNode} : Removable (BlockTrie.prune t n.path) m ↔
      (Removable t m ∧ m ≠ n) ∨ (m ∈ BlockTrie.prune t n.path ∧ m.path = n.pre ∧
        isLeaf (BlockTrie.prune t n.path) m.path = true ∧ m.data.refCount = 0) := by
  constructor
  · intro h
    obtain ⟨hm, hne⟩ := mem_prune.1 h.mem
    by_cases hl : isLeaf t m.path = true
    · left
      exact ⟨⟨hm, hl, h.unlocked⟩, fun he => hne (he ▸ rfl)⟩
    · right
      rw [isLeaf_iff] at hl
      push Not at hl
      obtain ⟨k, hk, hpre⟩ := hl
      have hkn : k.path = n.path := by
        by_contra hkne
        exact isLeaf_iff.1 h.leaf k (mem_prune.2 ⟨hk, hkne⟩) hpre
      obtain rfl := hw.eq_of_path hk hn.mem hkn
      exact ⟨h.mem, hpre.symm, h.leaf, h.unlocked⟩
  · rintro (⟨h, hne⟩ | ⟨hm, -, hl, href⟩)
    · refine ⟨mem_prune.2 ⟨h.mem, fun hp => hne (hw.eq_of_path h.mem hn.mem hp)⟩, ?_, h.unlocked⟩
      rw [isLeaf_iff]
      intro k hk
      exact isLeaf_iff.1 h.leaf k (mem_prune.1 hk).1
    · exact ⟨hm, hl, href⟩

/-! ## The heap -/

theorem foldl_least_le (l : List RadixTreeNode) (a : RadixTreeNode) :
    ∀ x ∈ a :: l, (l.foldl (fun m x => if x.data.timestamp < m.data.timestamp then x else m)
      a).data.timestamp ≤ x.data.timestamp := by
  induction l generalizing a with
  | nil =>
      intro x hx
      rw [List.mem_singleton.1 hx]
      exact Nat.le_refl _
  | cons b l ih =>
      intro x hx
      rw [List.foldl_cons]
      have hab := ih (if b.data.timestamp < a.data.timestamp then b else a)
      have hhead := hab _ List.mem_cons_self
      have hle : (if b.data.timestamp < a.data.timestamp then b else a).data.timestamp ≤
          a.data.timestamp ∧ (if b.data.timestamp < a.data.timestamp then b else a).data.timestamp ≤
          b.data.timestamp := by
        split <;> omega
      rcases List.mem_cons.1 hx with rfl | hx
      · exact hhead.trans hle.1
      · rcases List.mem_cons.1 hx with rfl | hx
        · exact hhead.trans hle.2
        · exact hab x (List.mem_cons_of_mem _ hx)

/-- A pop takes a least recently used entry. -/
theorem heappop_le {heap rest : List RadixTreeNode} {n : RadixTreeNode}
    (h : RadixTree.heappop heap = some (n, rest)) :
    ∀ x ∈ heap, n.data.timestamp ≤ x.data.timestamp := by
  cases heap with
  | nil => cases h
  | cons a l =>
      simp only [RadixTree.heappop, Option.some.injEq, Prod.mk.injEq] at h
      rw [← h.1]
      exact foldl_least_le l a

/-- The heap of an eviction holds every removable node once. -/
structure Heap (t : RadixTree) (heap : List RadixTreeNode) : Prop where
  mem : ∀ n, n ∈ heap ↔ Removable t n
  nodup : heap.Nodup

theorem Heap.freeLeaves {c : PrefixCache} (hw : WF ps c.nodes) : Heap c.nodes c.freeLeaves :=
  ⟨fun _ => mem_freeLeaves, hw.nodup.filter _⟩

/-- The heap after a round: the node above the one that went is pushed once it is an unlocked
leaf. -/
def pushParent (t : RadixTree) (node : RadixTreeNode) (heap : List RadixTreeNode) :
    List RadixTreeNode :=
  match BlockTrie.node? t node.pre with
  | none => heap
  | some parent =>
      if BlockTrie.isLeaf t parent.path && parent.data.refCount = 0 then parent :: heap else heap

theorem mem_pushParent (hw : WF ps t) {node m : RadixTreeNode} {heap : List RadixTreeNode} :
    m ∈ pushParent t node heap ↔ m ∈ heap ∨
      (m ∈ t ∧ m.path = node.pre ∧ isLeaf t m.path = true ∧ m.data.refCount = 0) := by
  unfold pushParent
  cases hf : node? t node.pre with
  | none =>
      have hnone := node?_eq_none.1 hf
      constructor
      · exact .inl
      · rintro (h | ⟨hm, hp, -⟩)
        · exact h
        · exact absurd hp (hnone m hm)
  | some parent =>
      obtain ⟨hparent, hpp⟩ := mem_of_node? hf
      -- the pushed node is the only one that ends there
      have honly : ∀ x ∈ t, x.path = node.pre → x = parent := fun x hx hp =>
        hw.eq_of_path hx hparent (hp.trans hpp.symm)
      dsimp only
      split
      · rename_i hfree
        simp only [Bool.and_eq_true, decide_eq_true_eq] at hfree
        rw [List.mem_cons]
        constructor
        · rintro (rfl | h)
          · exact .inr ⟨hparent, hpp, hfree.1, hfree.2⟩
          · exact .inl h
        · rintro (h | ⟨hm, hp, -⟩)
          · exact .inr h
          · exact .inl (honly m hm hp)
      · rename_i hfree
        constructor
        · exact .inl
        · rintro (h | ⟨hm, hp, hl, href⟩)
          · exact h
          · refine absurd ?_ hfree
            rw [← honly m hm hp]
            simp [hl, href]

/-- One round keeps the heap exact. -/
theorem Heap.next (hw : WF ps t) {heap rest : List RadixTreeNode} (h : Heap t heap)
    {n : RadixTreeNode} (hpop : RadixTree.heappop heap = some (n, rest)) (hn : Removable t n) :
    Heap (BlockTrie.prune t n.path) (pushParent (BlockTrie.prune t n.path) n rest) := by
  have hperm := heappop_perm hpop fun x hx y hy hp =>
    hw.eq_of_path ((h.mem x).1 hx).mem ((h.mem y).1 hy).mem hp
  have hnd := hperm.nodup_iff.1 h.nodup
  rw [List.nodup_cons] at hnd
  have hrest : ∀ m, m ∈ rest ↔ Removable t m ∧ m ≠ n := by
    intro m
    rw [← h.mem m, hperm.mem_iff, List.mem_cons]
    constructor
    · intro hm
      exact ⟨.inr hm, fun he => hnd.1 (he ▸ hm)⟩
    · rintro ⟨rfl | hm, hne⟩
      · exact absurd rfl hne
      · exact hm
  have hw' := hw.prune hn.leaf
  constructor
  · intro m
    rw [mem_pushParent hw', removable_prune hw hn, hrest]
  · unfold pushParent
    split
    · exact hnd.2
    · rename_i parent hf
      split
      · refine List.nodup_cons.2 ⟨fun hmem => ?_, hnd.2⟩
        -- the parent still had a child, so it was no leaf
        exact isLeaf_iff.1 ((hrest parent).1 hmem).1.leaf n hn.mem (mem_of_node? hf).2.symm
      · exact hnd.2

/-! ## The loop -/

/-- Removable nodes are taken one after the other, a least recently used one each time. -/
inductive TakesOldest : RadixTree → List RadixTreeNode → RadixTree → Prop
  | nil (t : RadixTree) : TakesOldest t [] t
  | cons {t t' : RadixTree} {n : RadixTreeNode} {ns : List RadixTreeNode} (hn : Removable t n)
      (oldest : ∀ m, Removable t m → n.data.timestamp ≤ m.data.timestamp)
      (rest : TakesOldest (BlockTrie.prune t n.path) ns t') : TakesOldest t (n :: ns) t'

namespace TakesOldest

variable {ns : List RadixTreeNode}

theorem perm (hw : WF ps t) (h : TakesOldest t ns t') : t.Perm (ns ++ t') := by
  induction h with
  | nil => exact .refl _
  | cons hn _ _ ih => exact (hw.perm_prune hn.mem).trans ((ih (hw.prune hn.leaf)).cons _)

theorem wf (hw : WF ps t) (h : TakesOldest t ns t') : WF ps t' := by
  induction h with
  | nil => exact hw
  | cons hn _ _ ih => exact ih (hw.prune hn.leaf)

theorem unlocked (h : TakesOldest t ns t') : ∀ n ∈ ns, n.data.refCount = 0 := by
  induction h with
  | nil => simp
  | cons hn _ _ ih =>
      intro m hm
      rcases List.mem_cons.1 hm with rfl | hm
      · exact hn.unlocked
      · exact ih m hm

theorem mem (hw : WF ps t) (h : TakesOldest t ns t') {m : RadixTreeNode} (hm : m ∈ t') : m ∈ t :=
  (h.perm hw).mem_iff.2 (List.mem_append_right _ hm)

/-- Nothing that is left hangs below a node that went. -/
theorem no_descendant (hw : WF ps t) (h : TakesOldest t ns t') :
    ∀ n ∈ ns, ∀ m ∈ t', ¬ n.path <+: m.path := by
  induction h with
  | nil => simp
  | @cons t t' n ns hn _ rest ih =>
      intro k hk m hm hp
      have hw' := hw.prune hn.leaf
      rcases List.mem_cons.1 hk with rfl | hk
      · obtain ⟨hmt, hne⟩ := mem_prune.1 (rest.mem hw' hm)
        exact hne (hw.leaf_eq hn.mem hn.leaf hmt hp ▸ rfl)
      · exact ih hw' k hk m hm hp

end TakesOldest

/-! ## The eviction -/

/-- What an eviction of `size` tokens does to a cache. -/
structure EvictsExactly (c : PrefixCache) (size : Nat) (c' : PrefixCache) (out : List Nat)
    (removed : List RadixTreeNode) : Prop where
  oldest : TakesOldest c.nodes removed c'.nodes
  once : c.nodes.Perm (removed ++ c'.nodes)
  values : out = removed.flatMap fun n => n.value
  unlocked : ∀ n ∈ removed, n.data.refCount = 0
  no_descendant : ∀ n ∈ removed, ∀ m ∈ c'.nodes, ¬ n.path <+: m.path
  enough : size ≤ out.length
  evictable : c'.fullEvictable = c.fullEvictable - out.length
  tallied : TokensTallied c'

/-- One round takes its node out of the tree and the counters. -/
def takeLeaf (c : PrefixCache) (n : RadixTreeNode) : PrefixCache :=
  { c with
    fullEvictable := c.fullEvictable - n.length
    nodes := BlockTrie.prune c.nodes n.path }

theorem evictLoop_round {size fuel k : Nat} {heap rest : List RadixTreeNode} {n : RadixTreeNode}
    {out : List Nat} {c : PrefixCache} (hw : WF ps c.nodes) (hlt : k < size)
    (hpop : RadixTree.heappop heap = some (n, rest)) (hn : Removable c.nodes n) :
    evictLoop size (fuel + 1) heap k out c =
      evictLoop size fuel (pushParent (BlockTrie.prune c.nodes n.path) n rest) (k + n.length)
        (out ++ n.value) (takeLeaf c n) := by
  have hfree : c.isFreeLeaf n.path = true :=
    isFreeLeaf_iff.2 ⟨n, hn.mem, hw.node?_path hn.mem, rfl, hn.leaf, hn.unlocked⟩
  rw [evictLoop, if_pos hlt, hpop]
  dsimp only
  rw [if_pos hfree]
  rfl

/-- The loop's invariant: the heap is exact and what is still missing is evictable. -/
theorem evictLoop_ok {size : Nat} : ∀ (fuel : Nat) (heap : List RadixTreeNode) (k : Nat)
    (out : List Nat) (c : PrefixCache), Locked ps c.nodes L → TokensTallied c →
    Heap c.nodes heap → c.nodes.length ≤ fuel → (size : Int) ≤ k + c.fullEvictable →
    ∃ c' removed, evictLoop size fuel heap k out c =
        .ok (c', out ++ removed.flatMap fun n => n.value) ∧ TakesOldest c.nodes removed c'.nodes ∧
      size ≤ k + (removed.flatMap fun n => n.value).length ∧
      c'.fullEvictable = c.fullEvictable - (removed.flatMap fun n => n.value).length ∧
      TokensTallied c' := by
  intro fuel
  induction fuel with
  | zero =>
      intro heap k out c _ ht _ hfuel hsize
      have hnil : c.nodes = [] := List.length_eq_zero_iff.1 (Nat.le_zero.1 hfuel)
      have hk : ¬ k < size := by
        rw [ht.evictable, hnil, tally_nil] at hsize
        omega
      refine ⟨c, [], ?_, .nil _, ?_, ?_, ht⟩
      · rw [evictLoop, if_neg hk]
        simp
      · show size ≤ k + 0
        omega
      · simp
  | succ fuel ih =>
      intro heap k out c hL ht hheap hfuel hsize
      by_cases hk : k < size
      · cases hpop : RadixTree.heappop heap with
        | none =>
            -- an empty heap means that nothing evictable is left
            have hempty := heappop_none hpop
            obtain ⟨n, hn⟩ := exists_removable hL (by rw [← ht.evictable]; omega)
            have hmem := (hheap.mem n).2 hn
            rw [hempty] at hmem
            cases hmem
        | some popped =>
            obtain ⟨n, rest⟩ := popped
            have hn := (hheap.mem n).1 (mem_of_heappop hpop).1
            have hlen := hL.wf.value_length n hn.mem
            have hshort := (hL.wf.perm_prune hn.mem).length_eq
            rw [List.length_cons] at hshort
            have hleft : (size : Int) ≤ (k + n.length : Nat) + (c.fullEvictable - n.length) := by
              omega
            obtain ⟨c', removed, hloop, htakes, henough, hcount, ht'⟩ :=
              ih _ (k + n.length) (out ++ n.value) (takeLeaf c n)
                (hL.prune hn.mem hn.leaf hn.unlocked) (ht.prune hL.wf hn.mem hn.unlocked rfl rfl rfl)
                (hheap.next hL.wf hpop hn)
                (show (BlockTrie.prune c.nodes n.path).length ≤ fuel by omega) hleft
            have hold : ∀ m, Removable c.nodes m → n.data.timestamp ≤ m.data.timestamp :=
              fun m hm => heappop_le hpop m ((hheap.mem m).2 hm)
            refine ⟨c', n :: removed, ?_, .cons hn hold htakes, ?_, ?_, ht'⟩
            · rw [evictLoop_round hL.wf hk hpop hn, hloop, List.flatMap_cons, List.append_assoc]
            · rw [List.flatMap_cons, List.length_append, hlen]
              have : n.length = n.key.length := rfl
              omega
            · rw [hcount, List.flatMap_cons, List.length_append, hlen]
              show c.fullEvictable - n.key.length - _ = _
              omega
      · refine ⟨c, [], ?_, .nil _, ?_, ?_, ht⟩
        · rw [evictLoop, if_neg hk]
          simp
        · show size ≤ k + 0
          omega
        · simp

theorem evict_ok {c : PrefixCache} (hL : Locked ps c.nodes L) (ht : TokensTallied c) {size : Nat}
    (hsize : (size : Int) ≤ c.fullEvictable) :
    ∃ c' out removed, evict c size = .ok (c', out) ∧ EvictsExactly c size c' out removed := by
  by_cases hzero : size = 0
  · refine ⟨c, [], [], ?_, .nil _, .refl _, rfl, by simp, by simp, by simp [hzero], by simp, ht⟩
    rw [evict, if_pos hzero]
  · obtain ⟨c', removed, hloop, htakes, henough, hcount, ht'⟩ :=
      evictLoop_ok c.nodes.length c.freeLeaves 0 [] c hL ht (.freeLeaves hL.wf) (Nat.le_refl _)
        (show (size : Int) ≤ (0 : Nat) + c.fullEvictable by omega)
    rw [List.nil_append] at hloop
    rw [Nat.zero_add] at henough
    have hevict : evict c size = .ok (c', removed.flatMap fun n => n.value) := by
      rw [evict, if_neg hzero, if_pos hsize, hloop]
    exact ⟨c', _, removed, hevict, htakes, htakes.perm hL.wf, rfl, htakes.unlocked,
      htakes.no_descendant hL.wf, henough, hcount, ht'⟩

/-! ## Runs -/

theorem hangSuffix_tallied {c : PrefixCache} (h : TokensTallied c) (ids : List Token)
    (indices : List Nat) (k tic : Nat) : TokensTallied (hangSuffix c ids indices k tic) := by
  unfold hangSuffix
  split
  · dsimp only
    refine h.graft ?_ rfl rfl rfl
    rfl
  · exact h

/-- Every call keeps the counters exact. -/
theorem step_tallied (hps : 0 < ps) {s s' : State} {e : Event} (hi : Inv ps s)
    (ht : TokensTallied s.cache) (h : Step s e s') : TokensTallied s'.cache := by
  obtain ⟨hsize, hL, hlive⟩ := hi
  cases h with
  | matchPrefix ids tic =>
      subst hsize
      exact ht.reshape hL.wf (treeWalk_spec hps hL.wf ids tic).reshape
  | insertPrefix ids indices tic newTic hlen =>
      subst hsize
      apply hangSuffix_tallied
      exact ht.reshape hL.wf (treeWalk_spec hps hL.wf _ tic).reshape
  | lock h hl =>
      have hb := hlive _ hl
      show TokensTallied ((chain s.cache.nodes h.node).foldl PrefixCache.pin s.cache)
      exact ht.foldl_pin _ _ hL.wf (fun n hn => ((hL.wf.mem_chain hb).1 hn).1)
        (hL.wf.chain_nodup hb)
  | unlock h c hl hu =>
      have hb := hL.bound _ hl
      exact ht.foldlM_unpin _ _ c hL.wf (fun n hn => ((hL.wf.mem_chain hb).1 hn).1)
        (hL.wf.chain_nodup hb) hu
  | evict size c out he =>
      -- an eviction that went through was allowed
      by_cases hzero : size = 0
      · rw [RadixPrefixCache.evict, if_pos hzero] at he
        cases he
        exact ht
      · by_cases hle : (size : Int) ≤ s.cache.fullEvictable
        · obtain ⟨c', out', removed, hok, hexact⟩ := evict_ok hL ht hle
          rw [hok] at he
          cases he
          exact hexact.tallied
        · rw [RadixPrefixCache.evict, if_neg hzero, if_neg hle] at he
          cases he

theorem run_tallied (hps : 0 < ps) {s : State} {tr : List (Event × State)}
    (h : Run (State.init ps) tr s) : TokensTallied s.cache := by
  induction h with
  | nil => exact ⟨rfl, rfl⟩
  | snoc hrun hstep ih =>
      exact step_tallied hps (run_represents hps (Inv.init ps) (.nil ps) hrun).1 ih hstep

/-- In every reachable state the counters are the token sums of the unlocked and of the locked
nodes, and every eviction within `evictable_size` goes through and takes exactly what it returns. -/
theorem eviction_exact (hps : 0 < ps) {s : State} {tr : List (Event × State)}
    (h : Run (State.init ps) tr s) :
    s.cache.fullEvictable = tally freeTokens s.cache.nodes ∧
    s.cache.fullProtected = tally lockedTokens s.cache.nodes ∧
    ∀ size : Nat, (size : Int) ≤ s.cache.fullEvictable →
      ∃ c' out removed, evict s.cache size = .ok (c', out) ∧
        EvictsExactly s.cache size c' out removed := by
  have ht := run_tallied hps h
  have hL := (run_represents hps (Inv.init ps) (.nil ps) h).1.locked
  exact ⟨ht.evictable, ht.locked, fun size hsize => evict_ok hL ht hsize⟩

/-- With the first page of an edge locked by another request, only its second page can go. -/
theorem eviction_exact_cut :
    ∃ (tr : List (Event × State)) (s : State), Run (State.init 2) tr s ∧
      s.cache.fullEvictable = 2 ∧ s.cache.fullProtected = 2 ∧
      ∃ c' out removed, evict s.cache 2 = .ok (c', out) ∧
        EvictsExactly s.cache 2 c' out removed := by
  have hinsert := (Run.nil (State.init 2)).snoc
    (.insertPrefix _ [1, 2, 3, 4] [10, 11, 12, 13] 1 2 (by decide))
  have hmatch := hinsert.snoc (.matchPrefix _ [1, 2, 5, 6] 3)
  have hlock := hmatch.snoc
    (.lock _ { cachedLen := 2, node := [1, 2], kvIndices := [], swaUuid := none } (by decide))
  obtain ⟨-, -, hevict⟩ := eviction_exact (by decide) hlock
  exact ⟨_, _, hlock, by decide, by decide, hevict 2 (by decide)⟩

end RadixPrefixCache

end FreeToken
