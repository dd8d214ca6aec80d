import FreeToken.KvCache.RadixSpec
import FreeToken.Lib.BlockTrieMap

/-!
# The radix cache as a map

Whatever is matched, inserted, locked and evicted, the tree stands for a prefix-closed map from whole
pages of tokens to page indices: a match reads the longest front the map has, an insert adds the
missing fronts, an eviction takes out fronts that no locked handle needs.
-/

set_option autoImplicit false

namespace FreeToken

open BlockTrie Blocks

variable {ps : Nat} {t t' : RadixTree}

/-- The tree is well formed and stores the map. -/
structure Represents (ps : Nat) (t : RadixTree) (m : BlockMap Token Nat ps) : Prop where
  wf : WF ps t
  map : m = toMap wf

namespace Represents

variable {m : BlockMap Token Nat ps}

theorem of_blockOf (hw : WF ps t) (h : ∀ q, m.block q = blockOf ps t q) : Represents ps t m :=
  ⟨hw, BlockMap.ext h⟩

theorem block (h : Represents ps t m) (q : List Token) : m.block q = blockOf ps t q := by
  obtain ⟨hw, rfl⟩ := h
  rfl

theorem nil (ps : Nat) : Represents ps [] (BlockMap.empty Token Nat ps) :=
  ⟨WF.nil ps, toMap_nil.symm⟩

theorem values (hps : 0 < ps) (h : Represents ps t m) {r : NodeRef} (hr : Boundary t r) :
    pathValues t r = m.values r := by
  obtain ⟨hw, rfl⟩ := h
  exact hw.pathValues_eq hps hr

theorem retag (h : Represents ps t m) (g : RadixTreeNode → NodeData) :
    Represents ps (FreeToken.retag t g) m :=
  of_blockOf (wf_retag h.wf g) fun q =>
    (h.block q).trans (blockOf_map h.wf (sameShape_retag g) (fun _ => rfl) q).symm

theorem reshape (h : Represents ps t m) (hr : Reshape ps t t') : Represents ps t' m := by
  induction hr with
  | refl => exact h
  | cut _ hc ih =>
      exact of_blockOf (hc.wf ih.wf _ _) fun q => (ih.block q).trans (hc.blockOf ih.wf _ _ q).symm
  | touch _ p tic ih =>
      rw [RadixTree.touch_eq]
      exact ih.retag _

/-- A walk ends at the longest front the map has. -/
theorem longest (hps : 0 < ps) (h : Represents ps t m) {ids : List Token} {k : Nat}
    (hw : Walked ps t ids t' k) : m.longest ids = k := by
  obtain ⟨hwf, hmap⟩ := h.reshape hw.reshape
  rw [hmap]
  exact hwf.longest_eq hps hw.le hw.bound hw.stop

end Represents

namespace RadixPrefixCache

/-! ## Runs -/

/-- A cache, the handles whose node is still in its tree, and the locks that are held. -/
structure State where
  cache : PrefixCache
  live : List NodeRef
  locked : List NodeRef

def State.init (ps : Nat) : State := { cache := PrefixCache.empty ps 0, live := [], locked := [] }

/-- One call, with what it was given and what it returned. -/
inductive Event
  | matched (ids : List Token) (h : CacheHandle) (indices : List Nat)
  | inserted (ids : List Token) (indices : List Nat) (present : Nat) (h : CacheHandle)
  | locked (h : CacheHandle)
  | unlocked (h : CacheHandle)
  | evicted (size : Nat) (out : List Nat)

/-- The handles an eviction leaves. -/
def surviving (t : RadixTree) (live : List NodeRef) : List NodeRef :=
  live.filter fun p => p = [] || (node? t p).isSome

/-- A handle is locked while its node is in the tree, and unlocked as often as it was locked. -/
inductive Step : State → Event → State → Prop
  | matchPrefix (s : State) (ids : List Token) (tic : Nat) :
      Step s (.matched ids (matchPrefix s.cache ids tic).2
          (getMatchedIndices (matchPrefix s.cache ids tic).1 (matchPrefix s.cache ids tic).2))
        { s with
          cache := (matchPrefix s.cache ids tic).1
          live := (matchPrefix s.cache ids tic).2.node :: s.live }
  | insertPrefix (s : State) (ids : List Token) (indices : List Nat) (tic newTic : Nat)
      (h : alignDown ids.length s.cache.pageSize ≤ indices.length) :
      Step s (.inserted ids indices (insertPrefix s.cache ids indices tic newTic).2.1
          (insertPrefix s.cache ids indices tic newTic).2.2)
        { s with
          cache := (insertPrefix s.cache ids indices tic newTic).1
          live := (insertPrefix s.cache ids indices tic newTic).2.2.node :: s.live }
  | lock (s : State) (h : CacheHandle) (hl : h.node ∈ s.live) :
      Step s (.locked h) { s with cache := lockHandle s.cache h, locked := h.node :: s.locked }
  | unlock (s : State) (h : CacheHandle) (c : PrefixCache) (hl : h.node ∈ s.locked)
      (hu : unlockHandle s.cache h = .ok c) :
      Step s (.unlocked h) { s with cache := c, locked := s.locked.erase h.node }
  | evict (s : State) (size : Nat) (c : PrefixCache) (out : List Nat)
      (he : evict s.cache size = .ok (c, out)) :
      Step s (.evicted size out)
        { s with cache := c, live := surviving c.nodes s.live }

/-- A run, with every call and the state behind it. -/
inductive Run : State → List (Event × State) → State → Prop
  | nil (s : State) : Run s [] s
  | snoc {s s' s'' : State} {tr : List (Event × State)} {e : Event} (h : Run s tr s')
      (hstep : Step s' e s'') : Run s (tr ++ [(e, s'')]) s''

/-! ## The same calls on a map -/

/-- One call on the map: the locks are the fronts an eviction keeps. -/
inductive MapStep (ps : Nat) : BlockMap Token Nat ps × List NodeRef → Event →
    BlockMap Token Nat ps × List NodeRef → Prop
  | matched (m : BlockMap Token Nat ps) (L : List NodeRef) (ids : List Token) :
      MapStep ps (m, L)
        (.matched ids
          { cachedLen := m.longest ids, node := ids.take (m.longest ids), kvIndices := [],
            swaUuid := none }
          (m.values (ids.take (m.longest ids)))) (m, L)
  | inserted (m : BlockMap Token Nat ps) (L : List NodeRef) (ids : List Token) (indices : List Nat)
      {a : Nat} (ha : a = alignDown ids.length ps)
      (hle : (ids.take a).length ≤ (indices.take a).length) :
      MapStep ps (m, L)
        (.inserted ids indices (m.longest (ids.take a))
          { cachedLen := a, node := ids.take a, kvIndices := [], swaUuid := none })
        (m.insert (ids.take a) (indices.take a) hle, L)
  | locked (m : BlockMap Token Nat ps) (L : List NodeRef) (h : CacheHandle) :
      MapStep ps (m, L) (.locked h) (m, h.node :: L)
  | unlocked (m : BlockMap Token Nat ps) (L : List NodeRef) (h : CacheHandle) (hl : h.node ∈ L) :
      MapStep ps (m, L) (.unlocked h) (m, L.erase h.node)
  | evicted {m m' : BlockMap Token Nat ps} (L : List NodeRef) (size : Nat) {out : List Nat}
      (h : BlockMap.Evicts L m m' out) (hsize : size ≤ out.length) :
      MapStep ps (m, L) (.evicted size out) (m', L)

inductive MapRun (ps : Nat) : BlockMap Token Nat ps × List NodeRef → List Event →
    BlockMap Token Nat ps × List NodeRef → Prop
  | nil (m : BlockMap Token Nat ps × List NodeRef) : MapRun ps m [] m
  | snoc {m m' m'' : BlockMap Token Nat ps × List NodeRef} {es : List Event} {e : Event}
      (h : MapRun ps m es m') (hstep : MapStep ps m' e m'') : MapRun ps m (es ++ [e]) m''

/-! ## One call -/

/-- What every reachable state keeps. -/
structure Inv (ps : Nat) (s : State) : Prop where
  pageSize : s.cache.pageSize = ps
  locked : Locked ps s.cache.nodes s.locked
  live : ∀ p ∈ s.live, Boundary s.cache.nodes p

theorem Inv.init (ps : Nat) : Inv ps (State.init ps) :=
  ⟨rfl, Locked.nil ps, by simp [State.init]⟩

/-- The new edge of an insert holds exactly the fronts of `ids` that were missing. -/
theorem hangSuffix_represents {L : List NodeRef} {m : BlockMap Token Nat ps}
    {c : PrefixCache} {ids : List Token} {indices : List Nat} {k : Nat}
    (h : Represents ps c.nodes m) (hL : Locked ps c.nodes L) (hdvd : ps ∣ ids.length)
    (hlen : indices.length = ids.length) (hk : k ≤ ids.length)
    (hb : Boundary c.nodes (ids.take k))
    (hstop : k < ids.length → ∀ n ∈ c.nodes, n.pre = ids.take k →
      n.key.take ps ≠ (ids.drop k).take ps) (tic : Nat) :
    Represents ps (hangSuffix c ids indices k tic).nodes (m.insert ids indices hlen.ge) ∧
      Locked ps (hangSuffix c ids indices k tic).nodes L ∧
      (∀ r, Boundary c.nodes r → Boundary (hangSuffix c ids indices k tic).nodes r) ∧
      Boundary (hangSuffix c ids indices k tic).nodes ids := by
  have hklen : (ids.take k).length = k := List.length_take_of_le hk
  have hkdvd := h.wf.boundary_dvd hb
  rw [hklen] at hkdvd
  -- a front of `ids` above the walk's end is in the map
  have habove : ∀ q, BlockMap.Fronts ps ids q → q.length ≤ k → (blockOf ps c.nodes q).isSome := by
    intro q hq hle
    refine h.wf.isSome_front hb ?_ hq.2.1 hq.2.2
    exact List.prefix_of_prefix_length_le hq.1 (List.take_prefix k ids) (by rwa [hklen])
  unfold hangSuffix
  split
  · rename_i hne
    have hlt : k < ids.length := Nat.lt_of_le_of_ne hk hne
    have hkey : ids.drop k ≠ [] := by
      rw [← List.length_pos_iff, List.length_drop]
      omega
    have hkeydvd : ps ∣ (ids.drop k).length := by
      rw [List.length_drop]
      exact Nat.dvd_sub hdvd hkdvd
    have hvalue : (indices.drop k).length = (ids.drop k).length := by
      rw [List.length_drop, List.length_drop, hlen]
    have hpath : (Node.mk (ids.take k) (ids.drop k) (indices.drop k)
        (NodeData.fresh tic)).path = ids := List.take_append_drop k ids
    refine ⟨?_, hL.graft hb hkey hkeydvd hvalue (hstop hlt) rfl,
      fun r hr => boundary_graft.2 (.inl hr), boundary_graft.2 (.inr hpath.symm)⟩
    refine .of_blockOf (h.wf.graft hb hkey hkeydvd hvalue (hstop hlt)) fun q => ?_
    rw [blockOf_graft, ← h.block]
    show (m.block q).or _ = _
    cases hm : m.block q with
    | some v => rfl
    | none =>
        rw [Option.none_or, Option.none_or]
        have hcov : (Node.mk (ids.take k) (ids.drop k) (indices.drop k)
            (NodeData.fresh tic)).Covers ps q ↔ BlockMap.Fronts ps ids q := by
          constructor
          · exact fun hc => ⟨hpath ▸ hc.le, hc.ne_nil, hc.dvd⟩
          · intro hf
            refine ⟨?_, hpath.symm ▸ hf.1, hf.2.2⟩
            dsimp only
            rw [hklen]
            by_contra hle
            have hsome := habove q hf (Nat.le_of_not_lt hle)
            rw [← h.block, hm] at hsome
            cases hsome
        by_cases hf : BlockMap.Fronts ps ids q
        · have hle := (hcov.2 hf).block_le (by dsimp only; rw [hklen]; exact hkdvd)
          dsimp only at hle
          rw [hklen] at hle
          rw [if_pos hf, if_pos (hcov.2 hf)]
          unfold Node.blockAt BlockMap.lastBlock
          dsimp only
          rw [hklen, List.drop_drop]
          congr 3
          omega
        · rw [if_neg hf, if_neg fun hc => hf (hcov.1 hc)]
  · rename_i heq
    have hke : k = ids.length := not_not.1 heq
    refine ⟨.of_blockOf h.wf fun q => ?_, hL, fun r hr => hr, ?_⟩
    · show (m.block q).or _ = _
      rw [h.block]
      cases hm : blockOf ps c.nodes q with
      | some v => rfl
      | none =>
          rw [Option.none_or]
          refine if_neg fun hf => ?_
          have hsome := habove q hf (by rw [hke]; exact hf.1.length_le)
          rw [hm] at hsome
          cases hsome
    · rwa [hke, List.take_length] at hb

/-- An eviction takes fronts out of the map and returns their pages. -/
theorem evictLoop_represents (hps : 0 < ps) {L : List NodeRef} {size : Nat} {t₀ : RadixTree}
    {m₀ : BlockMap Token Nat ps} (hw₀ : WF ps t₀) :
    ∀ (fuel : Nat) (heap : List RadixTreeNode) (n : Nat) (out : List Nat) (c c' : PrefixCache)
      (out' : List Nat) (m : BlockMap Token Nat ps), (∀ x ∈ heap, x ∈ t₀) →
      (∀ x ∈ c.nodes, x ∈ t₀) → Locked ps c.nodes L → Represents ps c.nodes m →
      BlockMap.Evicts L m₀ m out → out.length = n →
      evictLoop size fuel heap n out c = .ok (c', out') →
      Locked ps c'.nodes L ∧ c'.pageSize = c.pageSize ∧ size ≤ out'.length ∧
        ∃ m', Represents ps c'.nodes m' ∧ BlockMap.Evicts L m₀ m' out' := by
  intro fuel
  induction fuel with
  | zero =>
      intro heap n out c c' out' m _ _ hL hm hev hn h
      rw [evictLoop] at h
      split at h
      · cases h
      · rename_i hsize
        cases h
        exact ⟨hL, rfl, by omega, m, hm, hev⟩
  | succ fuel ih =>
      intro heap n out c c' out' m hheap hsub hL hm hev hn h
      rw [evictLoop] at h
      split at h
      · split at h
        · cases h
        · rename_i node rest hpop
          obtain ⟨hnode, hrest⟩ := mem_of_heappop hpop
          split at h
          · rename_i hfree
            obtain ⟨x, hx, -, hxp, hleaf, href⟩ := isFreeLeaf_iff.1 hfree
            obtain rfl := hw₀.eq_of_path (hsub x hx) (hheap node hnode) hxp
            have hw := hL.wf.prune hleaf
            have hprune : BlockMap.Evicts L m (toMap hw) x.value := by
              obtain ⟨hwm, rfl⟩ := hm
              exact hwm.evicts_prune hps hx hw fun l hl =>
                ⟨hL.bound l hl, hL.not_prefix hx href hl⟩
            have hih := fun hheap' hsub' hn' => ih _ _ _ _ _ _ (toMap hw) hheap' hsub'
              (hL.prune hx hleaf href) ⟨hw, rfl⟩ (hev.trans hprune) hn' h
            refine hih ?_ ?_ ?_
            · intro y hy
              dsimp only at hy
              split at hy
              · exact hheap y (hrest y hy)
              · rename_i q hq
                have hqt := hsub q (mem_prune.1 (mem_of_node? hq).1).1
                split at hy
                · rcases List.mem_cons.1 hy with rfl | hy
                  · exact hqt
                  · exact hheap y (hrest y hy)
                · exact hheap y (hrest y hy)
            · exact fun y hy => hsub y (mem_prune.1 hy).1
            · rw [List.length_append, hn, hL.wf.value_length x hx]
              rfl
          · cases h
      · rename_i hsize
        cases h
        exact ⟨hL, rfl, by omega, m, hm, hev⟩

theorem evict_represents (hps : 0 < ps) {L : List NodeRef} {m : BlockMap Token Nat ps}
    {c c' : PrefixCache} {size : Nat} {out : List Nat} (hL : Locked ps c.nodes L)
    (hm : Represents ps c.nodes m) (he : evict c size = .ok (c', out)) :
    Locked ps c'.nodes L ∧ c'.pageSize = c.pageSize ∧ size ≤ out.length ∧
      ∃ m', Represents ps c'.nodes m' ∧ BlockMap.Evicts L m m' out := by
  unfold evict at he
  split at he
  · rename_i hzero
    cases he
    exact ⟨hL, rfl, by omega, m, hm, .refl L m⟩
  · split at he
    · exact evictLoop_represents hps hm.wf _ _ _ _ _ _ _ m
        (fun x hx => (List.mem_filter.1 hx).1) (fun x hx => hx) hL hm (.refl L m) rfl he
    · cases he

theorem mem_surviving {t : RadixTree} {live : List NodeRef} {p : NodeRef}
    (h : p ∈ surviving t live) : Boundary t p := by
  obtain ⟨-, hp⟩ := List.mem_filter.1 h
  rcases Bool.or_eq_true_iff.1 hp with hp | hp
  · exact .inl (by simpa using hp)
  · obtain ⟨n, hn⟩ := Option.isSome_iff_exists.1 hp
    exact .inr ⟨n, mem_of_node? hn⟩

/-- Every call does to the map what it does to the tree. -/
theorem step_represents (hps : 0 < ps) {s s' : State} {e : Event} {m : BlockMap Token Nat ps}
    (hi : Inv ps s) (hm : Represents ps s.cache.nodes m) (h : Step s e s') :
    Inv ps s' ∧ ∃ m', Represents ps s'.cache.nodes m' ∧
      MapStep ps (m, s.locked) e (m', s'.locked) := by
  obtain ⟨hsize, hL, hlive⟩ := hi
  cases h with
  | matchPrefix ids tic =>
      subst hsize
      have hw := treeWalk_spec hps hL.wf ids tic
      have hlong := hm.longest hps hw
      have hm' := hm.reshape hw.reshape
      have hvalues := hm'.values hps hw.bound
      refine ⟨⟨rfl, hw.reshape.locked hL, fun p hp => ?_⟩, m, hm', ?_⟩
      · rcases List.mem_cons.1 hp with rfl | hp
        · exact hw.bound
        · exact hw.reshape.boundary hL.wf (hlive p hp)
      · have hstep := MapStep.matched m s.locked ids
        rw [hlong, ← hvalues] at hstep
        exact hstep
  | insertPrefix ids indices tic newTic hlen =>
      subst hsize
      have hle := alignDown_le ids.length s.cache.pageSize
      have hids : (ids.take (alignDown ids.length s.cache.pageSize)).length =
          alignDown ids.length s.cache.pageSize := List.length_take_of_le hle
      have hidx : (indices.take (alignDown ids.length s.cache.pageSize)).length =
          alignDown ids.length s.cache.pageSize := List.length_take_of_le hlen
      have hw := treeWalk_spec hps hL.wf (ids.take (alignDown ids.length s.cache.pageSize)) tic
      have hlong := hm.longest hps hw
      obtain ⟨hm', hL', hold, hnew⟩ := hangSuffix_represents
        (c := (treeWalk s.cache (ids.take (alignDown ids.length s.cache.pageSize)) tic).1)
        (hm.reshape hw.reshape) (hw.reshape.locked hL) (by rw [hids]; exact dvd_alignDown _ _)
        (hidx.trans hids.symm) hw.le hw.bound hw.stop newTic
      refine ⟨⟨hangSuffix_pageSize _ _ _ _ _, hL', fun p hp => ?_⟩, _, hm', ?_⟩
      · rcases List.mem_cons.1 hp with rfl | hp
        · exact hnew
        · exact hold p (hw.reshape.boundary hL.wf (hlive p hp))
      · have hstep := MapStep.inserted m s.locked ids indices rfl (hidx.trans hids.symm).ge
        rw [hlong] at hstep
        exact hstep
  | lock h hl =>
      have hb := hlive _ hl
      have hnodes := lockHandle_nodes hL.wf hb
      refine ⟨⟨(lockHandle_pageSize s.cache h).trans hsize, ?_, fun p hp => ?_⟩, m, ?_,
        .locked m s.locked h⟩
      · dsimp only
        rw [hnodes]
        refine hL.pin hb fun n _ => ?_
        unfold above
        split <;> rfl
      · dsimp only
        rw [hnodes]
        exact boundary_retag.2 (hlive p hp)
      · dsimp only
        rw [hnodes]
        exact hm.retag _
  | unlock h c hl hu =>
      have hperm := List.perm_cons_erase hl
      have hL' := hL.perm hperm
      obtain ⟨hnodes, hpage⟩ := unlockHandle_spec hL.wf (hL.bound _ hl) hu
      refine ⟨⟨hpage.trans hsize, ?_, fun p hp => ?_⟩, m, ?_, .unlocked m s.locked h hl⟩
      · dsimp only
        rw [hnodes]
        refine hL'.unpin fun n _ => ?_
        unfold above
        split <;> rfl
      · dsimp only
        rw [hnodes]
        exact boundary_retag.2 (hlive p hp)
      · dsimp only
        rw [hnodes]
        exact hm.retag _
  | evict size c out he =>
      obtain ⟨hL', hpage, hout, m', hm', hev⟩ := evict_represents hps hL hm he
      exact ⟨⟨hpage.trans hsize, hL', fun p hp => mem_surviving hp⟩, m', hm',
        .evicted s.locked size hev hout⟩

/-! ## Whole runs -/

theorem run_represents (hps : 0 < ps) {s s' : State} {tr : List (Event × State)}
    {m : BlockMap Token Nat ps} (hi : Inv ps s) (hm : Represents ps s.cache.nodes m)
    (h : Run s tr s') : Inv ps s' ∧ ∃ m', Represents ps s'.cache.nodes m' ∧
      MapRun ps (m, s.locked) (tr.map Prod.fst) (m', s'.locked) := by
  induction h with
  | nil => exact ⟨hi, m, hm, .nil _⟩
  | snoc _ hstep ih =>
      obtain ⟨hi', m', hm', hrun⟩ := ih
      obtain ⟨hi'', m'', hm'', hmap⟩ := step_represents hps hi' hm' hstep
      refine ⟨hi'', m'', hm'', ?_⟩
      rw [List.map_append]
      exact hrun.snoc hmap

/-- The state a trace from `s` ends in. -/
def lastState (s : State) (tr : List (Event × State)) : State :=
  (tr.getLast?.map Prod.snd).getD s

theorem Run.lastState_eq {s s' : State} {tr : List (Event × State)} (h : Run s tr s') :
    lastState s tr = s' := by
  cases h with
  | nil => rfl
  | snoc => simp [lastState]

/-- `v` is what the first insertion of `q` since it was last evicted gave: an insert of the trace
found `q` missing and gave it `v`, and `q` has been in the tree with `v` ever since. -/
def FirstSince (ps : Nat) (tr : List (Event × State)) (q : List Token) (v : List Nat) : Prop :=
  ∃ (before after : List (Event × State)) (ids : List Token) (indices : List Nat) (present : Nat)
    (h : CacheHandle) (s : State),
    tr = before ++ (.inserted ids indices present h, s) :: after ∧
    blockOf ps (lastState (State.init ps) before).cache.nodes q = none ∧
    BlockMap.Fronts ps (ids.take (alignDown ids.length ps)) q ∧
    v = BlockMap.lastBlock ps (indices.take (alignDown ids.length ps)) q ∧
    ∀ x ∈ (.inserted ids indices present h, s) :: after, blockOf ps x.2.cache.nodes q = some v

theorem FirstSince.snoc {tr : List (Event × State)} {q : List Token} {v : List Nat} {e : Event}
    {s : State} (h : FirstSince ps tr q v) (hs : blockOf ps s.cache.nodes q = some v) :
    FirstSince ps (tr ++ [(e, s)]) q v := by
  obtain ⟨before, after, ids, indices, present, hd, s₁, rfl, hnone, hfront, hv, hall⟩ := h
  refine ⟨before, after ++ [(e, s)], ids, indices, present, hd, s₁, ?_, hnone, hfront, hv, ?_⟩
  · rw [List.append_assoc]
    rfl
  · intro x hx
    rcases List.mem_append.1 (show x ∈ (_ :: after) ++ [(e, s)] from hx) with hx | hx
    · exact hall x hx
    · rw [List.mem_singleton.1 hx]
      exact hs

/-- A block the map has after a call was there before, or the call is the insert that gave it. -/
theorem MapStep.block_cases {m m' : BlockMap Token Nat ps} {L L' : List NodeRef} {e : Event}
    (h : MapStep ps (m, L) e (m', L')) {q : List Token} {v : List Nat}
    (hv : m'.block q = some v) :
    m.block q = some v ∨ ∃ ids indices present hd, e = .inserted ids indices present hd ∧
      m.block q = none ∧ BlockMap.Fronts ps (ids.take (alignDown ids.length ps)) q ∧
      v = BlockMap.lastBlock ps (indices.take (alignDown ids.length ps)) q := by
  cases h with
  | matched => exact .inl hv
  | locked => exact .inl hv
  | unlocked => exact .inl hv
  | evicted _ _ hev _ => exact .inl (hev.sub q v hv)
  | @inserted _ _ ids indices a ha hle =>
      subst ha
      change m.insertBlock _ _ q = some v at hv
      unfold BlockMap.insertBlock at hv
      cases hm : m.block q with
      | some w =>
          rw [hm, Option.some_or] at hv
          exact .inl hv
      | none =>
          rw [hm, Option.none_or] at hv
          split at hv
          · rename_i hfront
            cases hv
            exact .inr ⟨ids, indices, _, _, rfl, rfl, hfront, rfl⟩
          · cases hv

/-- Every block in the tree is what the first insertion since its last eviction gave. -/
theorem first_since (hps : 0 < ps) {s : State} {tr : List (Event × State)}
    (h : Run (State.init ps) tr s) {q : List Token} {v : List Nat}
    (hv : blockOf ps s.cache.nodes q = some v) : FirstSince ps tr q v := by
  induction h with
  | nil => cases hv
  | @snoc s' s'' tr e hrun hstep ih =>
      obtain ⟨hi, m, hm, -⟩ := run_represents hps (Inv.init ps) (.nil ps) hrun
      obtain ⟨-, m', hm', hmap⟩ := step_represents hps hi hm hstep
      have hv' := (hm'.block q).trans hv
      rcases hmap.block_cases hv' with hq | ⟨ids, indices, present, hd, rfl, hnone, hfront, heq⟩
      · exact (ih ((hm.block q).symm.trans hq)).snoc hv
      · refine ⟨tr, [], ids, indices, present, hd, s'', rfl, ?_, hfront, heq, ?_⟩
        · rw [hrun.lastState_eq, ← hm.block q]
          exact hnone
        · intro x hx
          rw [List.mem_singleton.1 hx]
          exact hv

/-- No call changes the values along a boundary that is locked before it. -/
theorem MapStep.values_eq {m m' : BlockMap Token Nat ps} {L L' : List NodeRef} {e : Event}
    (h : MapStep ps (m, L) e (m', L')) {p : NodeRef} (hp : p ∈ L)
    (hfront : ∀ q, q <+: p → q ≠ [] → ps ∣ q.length → (m.block q).isSome) :
    m'.values p = m.values p := by
  cases h with
  | matched => rfl
  | locked => rfl
  | unlocked => rfl
  | evicted _ _ hev _ => exact BlockMap.values_congr fun q hq => hev.kept p hp q hq
  | inserted _ _ ids indices ha hle =>
      refine BlockMap.values_congr fun q hq => ?_
      by_cases hne : q = []
      · rw [hne, BlockMap.nil, BlockMap.nil]
      · by_cases hd : ps ∣ q.length
        · obtain ⟨v, hv⟩ := Option.isSome_iff_exists.1 (hfront q hq hne hd)
          rw [hv, BlockMap.insert_block_of_some hle hv]
        · rw [BlockMap.block_eq_none_of_not_dvd _ hd, BlockMap.block_eq_none_of_not_dvd _ hd]

theorem step_getMatchedIndices (hps : 0 < ps) {s s' : State} {e : Event} (hi : Inv ps s)
    (h : Step s e s') {hd : CacheHandle} (hl : hd.node ∈ s.locked) (hl' : hd.node ∈ s'.locked) :
    getMatchedIndices s'.cache hd = getMatchedIndices s.cache hd := by
  have hm : Represents ps s.cache.nodes (toMap hi.locked.wf) := ⟨hi.locked.wf, rfl⟩
  obtain ⟨hi', m', hm', hmap⟩ := step_represents hps hi hm h
  have hb := hi.locked.bound _ hl
  calc getMatchedIndices s'.cache hd
      = m'.values hd.node := hm'.values hps (hi'.locked.bound _ hl')
    _ = (toMap hi.locked.wf).values hd.node :=
        hmap.values_eq hl fun q hq hne hdvd => hi.locked.wf.isSome_front hb hq hne hdvd
    _ = getMatchedIndices s.cache hd := (hm.values hps hb).symm

/-- A locked handle keeps its indices. -/
theorem run_getMatchedIndices (hps : 0 < ps) {s s' : State} {tr : List (Event × State)}
    (hi : Inv ps s) (h : Run s tr s') {hd : CacheHandle} (hl : hd.node ∈ s.locked)
    (hall : ∀ x ∈ tr, hd.node ∈ x.2.locked) :
    getMatchedIndices s'.cache hd = getMatchedIndices s.cache hd := by
  induction h with
  | nil => rfl
  | @snoc s' s'' tr e hrun hstep ih =>
      have hmem : ∀ x ∈ tr, hd.node ∈ x.2.locked := fun x hx =>
        hall x (List.mem_append_left _ hx)
      have hi' := (run_represents hps hi ⟨hi.locked.wf, rfl⟩ hrun).1
      have hl' : hd.node ∈ s'.locked := by
        rw [← hrun.lastState_eq]
        rcases List.eq_nil_or_concat tr with rfl | ⟨tr, x, rfl⟩
        · exact hl
        · have := hmem x (by simp)
          simpa [lastState] using this
      have hlast : hd.node ∈ s''.locked := hall (e, s'') (by simp)
      rw [step_getMatchedIndices hps hi' hstep hl' hlast, ih hmem]

/-- Every run of the cache is a run of a prefix-closed map from whole pages of tokens to pages of
indices, every page holds what its first insertion since its last eviction gave, and a locked handle
keeps its indices. -/
theorem refines_map (hps : 0 < ps) {s : State} {tr : List (Event × State)}
    (h : Run (State.init ps) tr s) :
    (∃ m, Represents ps s.cache.nodes m ∧
      MapRun ps (BlockMap.empty Token Nat ps, []) (tr.map Prod.fst) (m, s.locked)) ∧
    (∀ q v, blockOf ps s.cache.nodes q = some v → FirstSince ps tr q v) ∧
    ∀ (tr' : List (Event × State)) (s' : State) (hd : CacheHandle), Run s tr' s' →
      hd.node ∈ s.locked → (∀ x ∈ tr', hd.node ∈ x.2.locked) →
      getMatchedIndices s'.cache hd = getMatchedIndices s.cache hd := by
  obtain ⟨hi, hmap⟩ := run_represents hps (Inv.init ps) (.nil ps) h
  exact ⟨hmap, fun q v hv => first_since hps h hv,
    fun tr' s' hd hrun hl hall => run_getMatchedIndices hps hi hrun hl hall⟩

/-- A locked edge is cut by a match of its first page; the handle and the map stay. -/
theorem refines_map_cut :
    ∃ (tr : List (Event × State)) (s : State), Run (State.init 2) tr s ∧
      s.cache.nodes.length = 2 ∧ FirstSince 2 tr [1, 2] [10, 11] ∧
      (∃ m, Represents 2 s.cache.nodes m ∧
        MapRun 2 (BlockMap.empty Token Nat 2, []) (tr.map Prod.fst) (m, s.locked)) := by
  have hinsert := (Run.nil (State.init 2)).snoc
    (.insertPrefix _ [1, 2, 3, 4] [10, 11, 12, 13] 1 2 (by decide))
  have hlock := hinsert.snoc
    (.lock _ { cachedLen := 4, node := [1, 2, 3, 4], kvIndices := [], swaUuid := none } (by decide))
  have hmatch := hlock.snoc (.matchPrefix _ [1, 2, 5, 6] 3)
  have h := refines_map (by decide) hmatch
  exact ⟨_, _, hmatch, by decide, h.2.1 _ _ (by decide), h.1⟩

end RadixPrefixCache

end FreeToken
