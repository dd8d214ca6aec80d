import FreeToken.KvCache.SwaPins

/-!
# Runs of the sliding-window cache

Any order of matches, inserts, locks, unlocks, evictions and trims.  In every state reached the
counts are the pins of the outstanding locks, the counters are the recomputed sums, and the window
of a locked path is live.
-/

set_option autoImplicit false

namespace FreeToken

open BlockTrie Blocks

variable {ps w : Nat}

namespace SwaRadixCache

/-- The node is live, or is the root. -/
def liveNode (c : PrefixCache) (node : NodeRef) : Bool :=
  match BlockTrie.node? c.nodes node with
  | none => true
  | some n => !n.data.swaTombstone

/-- A cache, its outstanding locks, and whether every lock so far was taken on a live node, as a
match that is locked at once is. -/
structure State where
  cache : PrefixCache
  locks : List SwaLock
  fresh : Bool

def State.init (ps w : Nat) : State :=
  { cache := PrefixCache.empty ps w, locks := [], fresh := true }

/-- One call.  An insert brings an index for every token it commits, and a request frees its window
KV by whole pages. -/
inductive Step : State → State → Prop
  | matchPrefix (s : State) (ids : List Token) :
      Step s { s with cache := (matchPrefix s.cache ids).1 }
  | insert (s : State) (ids : List Token) (kv : List Nat) (evicted after : Nat)
      {c : PrefixCache} {k : Nat} {freed : List Nat}
      (hkv : alignDown ids.length s.cache.pageSize ≤ kv.length)
      (hevicted : s.cache.pageSize ∣ evicted)
      (h : insert s.cache ids kv evicted after = .ok (c, k, freed)) : Step s { s with cache := c }
  | incLock (s : State) (node : NodeRef) (hb : Boundary s.cache.nodes node) :
      Step s
        { cache := (incLock s.cache node).1
          locks := lockOf s.cache node :: s.locks
          fresh := s.fresh && liveNode s.cache node }
  | decLock (s : State) (l : SwaLock) (hl : l ∈ s.locks) {c : PrefixCache}
      (h : decLock s.cache l.node l.uuid = .ok c) :
      Step s { s with cache := c, locks := s.locks.erase l }
  | evictFull (s : State) (numTokens : Nat) :
      Step s { s with cache := (evictFull s.cache numTokens).1 }
  | evictSwa (s : State) (numTokens : Nat) :
      Step s { s with cache := (evictSwa s.cache numTokens).1 }
  | trimHeadSwa (s : State) (ids : List Token) (keepFrom : Nat) :
      Step s { s with cache := (trimHeadSwa s.cache ids keepFrom).1 }

inductive Run : State → State → Prop
  | refl (s : State) : Run s s
  | snoc {s s' s'' : State} (h : Run s s') (hstep : Step s' s'') : Run s s''

/-- What every reachable state keeps. -/
structure Inv (ps w : Nat) (s : State) : Prop where
  inv : SwaInv ps w s.locks s.cache
  fresh : s.fresh = true → Fresh s.locks ∧ Covered s.cache.nodes []

theorem Inv.init (ps w : Nat) : Inv ps w (State.init ps w) where
  inv := ⟨rfl, rfl, SwaLocked.nil ps w, ⟨rfl, rfl⟩, ⟨rfl, rfl⟩⟩
  fresh := fun _ => ⟨fun _ hl => absurd hl List.not_mem_nil, fun _ hn => absurd hn List.not_mem_nil⟩

/-- A call that keeps the locks. -/
theorem Inv.keep {s : State} (h : Inv ps w s) {c : PrefixCache} (hinv : SwaInv ps w s.locks c)
    (hcov : Fresh s.locks → Covered s.cache.nodes [] → Covered c.nodes []) :
    Inv ps w { s with cache := c } where
  inv := hinv
  fresh := fun hf => by
    obtain ⟨hfresh, hc⟩ := h.fresh hf
    exact ⟨hfresh, hcov hfresh hc⟩

theorem Inv.step (hps : 0 < ps) (hw : 0 < w) {s s' : State} (h : Inv ps w s) (hstep : Step s s') :
    Inv ps w s' := by
  cases hstep with
  | matchPrefix ids =>
      obtain ⟨hinv, hreshape⟩ := matchPrefix_spec hps h.inv ids
      exact h.keep hinv fun _ hc => hc.reshape h.inv.wf hreshape
  | insert ids kv evicted after hkv hevicted hrun =>
      rw [h.inv.pageSize] at hkv hevicted
      obtain ⟨c, k, freed, hspec, hinv, hcov⟩ := insert_spec hps h.inv hkv hevicted after
      rw [hspec] at hrun
      cases hrun
      exact h.keep hinv fun _ hc => hcov hc
  | incLock node hb =>
      refine ⟨incLock_spec h.inv hw hb, fun hf => ?_⟩
      rw [Bool.and_eq_true] at hf
      obtain ⟨hfresh, hc⟩ := h.fresh hf.1
      obtain ⟨g, hnodes, hg⟩ := incLock_retag h.inv hw hb
      refine ⟨h.inv.fresh_lockOf hw hfresh hb fun n hn hp => ?_, ?_⟩
      · have hlive := hf.2
        unfold liveNode at hlive
        rw [← hp, h.inv.wf.node?_path hn] at hlive
        simpa using hlive
      · dsimp only
        rw [hnodes]
        exact hc.retag fun n _ hd => .inl ((hg n).symm.trans hd)
  | decLock l hl hrun =>
      obtain ⟨d, hspec, hinv, hnodes⟩ := decLock_spec h.inv hl
      rw [hspec] at hrun
      cases hrun
      refine ⟨hinv, fun hf => ?_⟩
      obtain ⟨hfresh, hc⟩ := h.fresh hf
      refine ⟨fun x hx => hfresh x (List.mem_of_mem_erase hx), ?_⟩
      dsimp only
      rw [hnodes]
      refine hc.retag fun n _ hd => .inl ?_
      split at hd <;> exact hd
  | evictFull numTokens =>
      obtain ⟨hinv, hcov⟩ := evictFull_spec h.inv numTokens
      exact h.keep hinv hcov
  | evictSwa numTokens =>
      obtain ⟨hinv, hcov⟩ := evictSwa_spec h.inv numTokens
      exact h.keep hinv hcov
  | trimHeadSwa ids keepFrom =>
      obtain ⟨hinv, hcov⟩ := trimHeadSwa_spec hps h.inv ids keepFrom
      exact h.keep hinv fun _ hc => hcov hc

theorem Run.inv (hps : 0 < ps) (hw : 0 < w) {s : State} (h : Run (State.init ps w) s) :
    Inv ps w s := by
  induction h with
  | refl => exact Inv.init ps w
  | snoc _ hstep ih => exact ih.step hps hw hstep

/-! ## A match ends at a live node -/

/-- No tombstone stands at `p`. -/
def LiveEnd (t : RadixTree) (p : NodeRef) : Prop :=
  ∀ n ∈ t, n.path = p → n.data.swaTombstone = false

theorem LiveEnd.touch {t : RadixTree} {p : NodeRef} (h : LiveEnd t p) (r : NodeRef) (tic : Nat) :
    LiveEnd (t.touch r tic) p := by
  intro m hm hp
  rw [RadixTree.touch_eq] at hm
  obtain ⟨n, hn, rfl⟩ := mem_retag.1 hm
  have hlive := h n hn hp
  dsimp only
  unfold onlyAt
  split <;> exact hlive

/-- A node at a cut that is deeper than `p`, or live, hides nothing at `p`. -/
theorem LiveEnd.splitAt {t : RadixTree} {p : NodeRef} (h : LiveEnd t p) (hw : WF ps t)
    {n : RadixTreeNode} {pos : Nat} (hc : Cut ps t n pos)
    (hp : n.data.swaTombstone = false ∨ p.length < n.pre.length + pos) :
    LiveEnd (t.splitAt n.path pos) p := by
  intro m hm hmp
  rcases mem_split.1 hm with ⟨hmt, -⟩ | ⟨x, hx, hxp, hmx⟩
  · exact h m hmt hmp
  · obtain rfl := hw.eq_of_path hx hc.mem hxp
    rcases Node.mem_halves.1 hmx with rfl | rfl
    · refine hp.resolve_right fun hlt => ?_
      have hlen := congrArg List.length hmp
      have hpos := hc.lt
      simp only [Node.path, List.length_append, List.length_take] at hlen
      omega
    · rw [Node.path_right] at hmp
      exact h x hx hmp

/-- The best boundary of a walk is live, and so is the current node while its live run covers the
window. -/
structure MatchLive (w : Nat) (ids : List Token) (s : MatchState) : Prop where
  best : LiveEnd s.nodes s.bestNode
  le : s.bestNode.length ≤ s.prefixPos
  current : s.coversWindow w = true → LiveEnd s.nodes (ids.take s.prefixPos)

theorem MatchLive.commitBest {ids : List Token} {s : MatchState} (h : MatchLive w ids s) :
    MatchLive w ids (s.commitBest w ids) := by
  unfold MatchState.commitBest
  split
  · rename_i hcov
    exact ⟨h.current hcov, (List.length_take_le _ _), h.current⟩
  · exact h

theorem matchLoop_live (hps : 0 < ps) (hw : 0 < w) (ids : List Token) :
    ∀ (fuel : Nat) (s : MatchState), WF ps s.nodes → s.prefixPos ≤ ids.length →
      MatchLive w ids s → MatchLive w ids (matchLoop ps w ids fuel s) := by
  intro fuel
  induction fuel with
  | zero => exact fun s _ _ h => h
  | succ fuel ih =>
      intro s hwf hle h
      rw [matchLoop]
      split
      · split
        · exact h
        · rename_i child hchild
          have d := hwf.descent hps hle hchild
          have hpre : child.pre.length = s.prefixPos := by rw [d.pre, List.length_take_of_le hle]
          -- before a tombstone the best boundary is taken and the live run starts over
          generalize hs' : (if child.data.swaTombstone = true then
            { s.commitBest w ids with matchSinceTomb := some 0 } else s) = s'
          have hs : s'.nodes = s.nodes ∧ s'.prefixPos = s.prefixPos ∧ MatchLive w ids s' ∧
              (child.data.swaTombstone = true → s'.coversWindow w = false) := by
            subst hs'
            split
            · have hbest := h.commitBest
              have hcov : ({ s.commitBest w ids with matchSinceTomb := some 0 } :
                  MatchState).coversWindow w = false := by
                simp only [MatchState.coversWindow, decide_eq_false_iff_not]
                omega
              have hkeep : (s.commitBest w ids).nodes = s.nodes ∧
                  (s.commitBest w ids).prefixPos = s.prefixPos := by
                unfold MatchState.commitBest
                split <;> exact ⟨rfl, rfl⟩
              exact ⟨hkeep.1, hkeep.2, ⟨hbest.best, hbest.le,
                fun hc => absurd (hcov.symm.trans hc) (by simp)⟩, fun _ => hcov⟩
            · rename_i hlive
              exact ⟨rfl, rfl, h, fun hd => absurd hd hlive⟩
          obtain ⟨hnodes, hpos, hlive, hdead⟩ := hs
          have hadv : ∀ (seg : List Nat), child.data.swaTombstone = true →
              (s'.advance seg child.data.swaTombstone).coversWindow w = false := by
            intro seg hd
            unfold MatchState.advance MatchState.coversWindow
            rw [hd]
            exact hdead hd
          have hchildLive : ∀ seg : List Nat,
              (s'.advance seg child.data.swaTombstone).coversWindow w = true →
              child.data.swaTombstone = false := by
            intro seg hcov
            by_contra hd
            rw [hadv seg (Bool.eq_true_of_not_eq_false hd)] at hcov
            cases hcov
          have hblk := d.block_le
          have hfits := d.fits
          have hlen := hwf.value_length child d.mem
          have hle' := hlive.le
          dsimp only
          rw [hpos]
          generalize alignDown (commonLength child.key (ids.drop s.prefixPos)) ps = m at *
          split
          · exact hlive
          · split
            · rename_i hlt
              have hcut := d.cut hps hlt
              have hmlen : (child.value.take m).length = m := by
                rw [List.length_take, hlen]
                exact Nat.min_eq_left d.le
              refine ⟨?_, ?_, fun hcov n hn hp => ?_⟩
              · show LiveEnd (s'.nodes.splitAt child.path m) s'.bestNode
                rw [hnodes]
                exact LiveEnd.splitAt (hnodes ▸ hlive.best) hwf hcut (.inr (by omega))
              · show s'.bestNode.length ≤ s.prefixPos + (child.value.take m).length
                omega
              · change n ∈ s'.nodes.splitAt child.path m at hn
                change n.path = ids.take (s.prefixPos + (child.value.take m).length) at hp
                rw [hnodes] at hn
                rw [hmlen, ← d.key] at hp
                have hhead : (Node.mk child.pre (child.key.take m) (child.value.take m)
                    child.data.splitPrefix : RadixTreeNode) ∈ s.nodes.splitAt child.path m :=
                  mem_split.2 (.inr ⟨child, d.mem, rfl, Node.mem_halves.2 (.inl rfl)⟩)
                rw [(hcut.wf hwf _ _).eq_of_path hn hhead hp]
                exact hchildLive _ hcov
            · rename_i hge
              have hfull : m = child.key.length := le_antisymm d.le (Nat.le_of_not_lt hge)
              refine ih (s'.advance child.value child.data.swaTombstone) (hnodes ▸ hwf) ?_ ?_
              · show s'.prefixPos + child.value.length ≤ ids.length
                omega
              · refine ⟨hlive.best, hle'.trans (Nat.le_add_right _ _), fun hcov n hn hp => ?_⟩
                change n ∈ s'.nodes at hn
                change n.path = ids.take (s'.prefixPos + child.value.length) at hp
                rw [hnodes] at hn
                rw [hpos, hlen, ← hfull, ← d.path hfull] at hp
                rw [hwf.eq_of_path hn d.mem hp]
                exact hchildLive _ hcov
      · exact h

/-- The node of a match is live, so a lock taken on it at once keeps a run fresh. -/
theorem liveNode_matchPrefix (hps : 0 < ps) (hw : 0 < w) {L : List SwaLock} {c : PrefixCache}
    (h : SwaInv ps w L c) (ids : List Token) :
    liveNode (matchPrefix c ids).1 (matchPrefix c ids).2.node = true := by
  have hloop := matchLoop_live hps hw ids ids.length
    { nodes := c.nodes, prefixPos := 0, value := [], matchSinceTomb := none, bestValue := [],
      bestNode := [] } h.wf (Nat.zero_le _)
    ⟨fun n hn hp => absurd hp (h.wf.path_ne_nil hn), le_rfl,
      fun _ n hn hp => absurd hp (h.wf.path_ne_nil hn)⟩
  obtain ⟨hpage, hwin, -, -, -⟩ := id h
  have hend : LiveEnd (matchPrefix c ids).1.nodes (matchPrefix c ids).2.node := by
    unfold matchPrefix
    dsimp only
    rw [hpage, hwin]
    generalize matchLoop ps w ids ids.length
      { nodes := c.nodes, prefixPos := 0, value := [], matchSinceTomb := none, bestValue := [],
        bestNode := [] } = s at hloop ⊢
    have hbest := hloop.commitBest.best
    have hfold : ∀ (ns : List (RadixTreeNode × Nat)) (u : RadixTree) (base : Nat) (p : NodeRef),
        LiveEnd u p → LiveEnd (ns.foldl (fun t nd => t.touch nd.1.path (base - nd.2)) u) p := by
      intro ns
      induction ns with
      | nil => exact fun _ _ _ hu => hu
      | cons nd ns ih => exact fun u base p hu => ih _ base p (hu.touch _ _)
    exact hfold _ _ _ _ hbest
  unfold liveNode
  split
  · rfl
  · rename_i n hn
    obtain ⟨hnt, hp⟩ := mem_of_node? hn
    rw [hend n hnt hp]
    rfl

/-! ## The windows of the locked paths -/

/-- Token `i` of the path `p` is in the tree with live window KV. -/
def LiveAt (t : RadixTree) (p : NodeRef) (i : Nat) : Prop :=
  ∃ n ∈ t, (n.path <+: p ∧ n.pre.length ≤ i ∧ i < n.path.length) ∧ n.data.swaTombstone = false

instance (t : RadixTree) (p : NodeRef) (i : Nat) : Decidable (LiveAt t p i) :=
  inferInstanceAs (Decidable (∃ n ∈ t, _))

/-- The number of live tokens of the path `p` behind position `i`. -/
def liveBehind (t : RadixTree) (p : NodeRef) (i : Nat) : Nat :=
  ((List.range p.length).filter fun j => decide (i < j ∧ LiveAt t p j)).length

/-- The pinned tokens of a lock are live. -/
theorem liveAt_of_mem {s : State} (h : Inv ps w s) {l : SwaLock} (hl : l ∈ s.locks) {i : Nat}
    (hi : i ∈ l.tokens) : LiveAt s.cache.nodes l.node i := by
  obtain ⟨start, hwin, -⟩ := h.inv.locks.windows l hl
  obtain ⟨n, hn, hp, hle, hlt⟩ := h.inv.wf.exists_position (h.inv.locks.bound hl) (hwin.lt i hi)
  exact ⟨n, hn, ⟨hp, hle, hlt⟩, ((hwin.mem n hn hp i hle hlt).1 hi).2⟩

/-- The last `w` live tokens of a locked path are pinned. -/
theorem mem_of_liveAt {s : State} (h : Inv ps w s) {l : SwaLock} (hl : l ∈ s.locks) {i : Nat}
    (hi : LiveAt s.cache.nodes l.node i) (hlast : liveBehind s.cache.nodes l.node i < w) :
    i ∈ l.tokens := by
  obtain ⟨start, hwin, hlong⟩ := h.inv.locks.windows l hl
  obtain ⟨n, hn, ⟨hp, hle, hlt⟩, hlive⟩ := hi
  by_contra hno
  have hbefore : n.pre.length < start := by
    by_contra hge
    exact hno ((hwin.mem n hn hp i hle hlt).2 ⟨Nat.le_of_not_lt hge, hlive⟩)
  have hap := (hwin.apart n hn hp).resolve_left (Nat.not_le.2 hbefore)
  have hcount : l.tokens.length ≤ liveBehind s.cache.nodes l.node i := by
    refine (List.subperm_of_subset hwin.nodup fun j hj => ?_).length_le
    have hlivej := liveAt_of_mem h hl hj
    obtain ⟨m, hm, ⟨hmp, hmle, hmlt⟩, -⟩ := id hlivej
    have hstart := ((hwin.mem m hm hmp j hmle hmlt).1 hj).1
    exact List.mem_filter.2 ⟨List.mem_range.2 (hwin.lt j hj),
      decide_eq_true ⟨by omega, hlivej⟩⟩
  rcases hlong with hzero | hge <;> omega

/-! ## The discipline -/

/-- The reference count of a node's parent; the root keeps the count 1 it was made with. -/
def parentRefCount (t : RadixTree) (n : RadixTreeNode) : Nat :=
  match BlockTrie.node? t n.pre with
  | none => 1
  | some p => p.data.refCount

/-- The two-tier lock discipline in one state. -/
structure DualLock (w : Nat) (s : State) : Prop where
  tokens : TokensTallied s.cache
  windows : WindowsTallied s.cache
  swa_le : ∀ n ∈ s.cache.nodes, n.data.swaRefCount ≤ n.data.refCount
  parent : ∀ n ∈ s.cache.nodes, n.pre ≠ [] →
    n.data.refCount ≤ parentRefCount s.cache.nodes n
  tombstone : ∀ n ∈ s.cache.nodes, n.data.swaTombstone = true → n.data.swaRefCount = 0
  leaf : s.fresh = true → ∀ n ∈ s.cache.nodes, isLeaf s.cache.nodes n.path = true →
    n.data.swaTombstone = false
  counts : ∀ n ∈ s.cache.nodes, n.data.refCount = pins (s.locks.map SwaLock.node) n.path ∧
    n.data.swaRefCount = windowPins s.locks n
  holds : ∀ l ∈ s.locks, ∀ n ∈ s.cache.nodes, n.path <+: l.node →
    ∀ i, n.pre.length ≤ i → i < n.path.length → (i ∈ l.tokens ↔ l.Holds n)
  release : ∀ l ∈ s.locks, ∃ c, decLock s.cache l.node l.uuid = .ok c ∧
    c.nodes = retag s.cache.nodes fun n =>
      if n.path <+: l.node then unlockData l n n.data else n.data
  released : s.locks = [] → ∀ n ∈ s.cache.nodes, n.data.refCount = 0 ∧ n.data.swaRefCount = 0
  pinned : ∀ l ∈ s.locks, ∀ i ∈ l.tokens, LiveAt s.cache.nodes l.node i
  last : ∀ l ∈ s.locks, ∀ i, LiveAt s.cache.nodes l.node i →
    liveBehind s.cache.nodes l.node i < w → i ∈ l.tokens

end SwaRadixCache

end FreeToken
