import FreeToken.KvCache.HybridSpec
import FreeToken.Scheduler.Commit

/-!
# Pages and state slots with the hybrid cache

`OwnedH` is the ownership of the pages together with that of the recurrent-state slots: a slot is
free, the snapshot of one node, or one of the slots `S` in the hands of requests, and every snapshot
holds the state of its node's own path.  Each operation of the cache manager keeps it.
-/

set_option autoImplicit false

namespace FreeToken

open BlockTrie Blocks

/-- The state slots of a manager: free, snapshots of its tree, or the slots `S`. -/
structure Snapped (cm : CacheManager) (L : List NodeRef) (S : List Nat) : Prop where
  type : cm.cacheType = .hybridRadix
  locks : SnapLocked cm.prefixCache.nodes L
  slots : (cm.linearStatePool.freeSlots ++
    ((snaps cm.prefixCache.nodes).map Prod.snd ++ S)).Perm
      (List.range' 1 (cm.linearStatePool.numSlots - 1))
  states : ∀ p ∈ snaps cm.prefixCache.nodes, cm.linearStatePool.states p.2 = p.1

structure OwnedH (cm : CacheManager) (X : List NodeRef) (P S : List Nat) (H : List Holding) :
    Prop where
  pages : Owned cm X P H
  snapped : Snapped cm (X ++ H.map Holding.node) S

/-- What the locks `L` are promised: their rows, their snapshots and every state stay. -/
structure Kept (L : List NodeRef) (cm cm' : CacheManager) : Prop where
  reads : ∀ l ∈ L, ∀ row, Reads cm.prefixCache.nodes l row → Reads cm'.prefixCache.nodes l row
  snaps : ∀ p ∈ FreeToken.snaps cm.prefixCache.nodes, p.1 ∈ L →
    p ∈ FreeToken.snaps cm'.prefixCache.nodes
  states : cm'.linearStatePool.states = cm.linearStatePool.states

namespace Kept

variable {L : List NodeRef} {a b c : CacheManager}

theorem of_eq (hn : b.prefixCache.nodes = a.prefixCache.nodes)
    (hs : b.linearStatePool.states = a.linearStatePool.states) : Kept L a b :=
  ⟨fun _ _ _ hr => hn ▸ hr, fun _ hp _ => hn ▸ hp, hs⟩

theorem refl (a : CacheManager) : Kept L a a := of_eq rfl rfl

theorem trans (h : Kept L a b) (h' : Kept L b c) : Kept L a c :=
  ⟨fun l hl row hr => h'.reads l hl row (h.reads l hl row hr),
    fun p hp hl => h'.snaps p (h.snaps p hp hl) hl, h'.states.trans h.states⟩

theorem mono {L' : List NodeRef} (h : Kept L a b) (hsub : ∀ l ∈ L', l ∈ L) : Kept L' a b :=
  ⟨fun l hl => h.reads l (hsub l hl), fun p hp hl => h.snaps p hp (hsub _ hl), h.states⟩

theorem free (L : List NodeRef) (cm : CacheManager) (indices : List Nat) :
    Kept L cm (cm.free indices) := by
  obtain ⟨p, fs, lz, hfreed⟩ := free_onlyFreed cm indices
  rw [hfreed]
  exact .of_eq rfl rfl

end Kept

/-- The pages, the tree and the slots may move; the rows and the geometry stay. -/
def Recycled (cm cm' : CacheManager) : Prop :=
  ∃ c l fs lz n, cm' = { cm with
    prefixCache := c, linearStatePool := l, freeSlots := fs, lazyFreeList := lz, now := n }

theorem Recycled.refl (cm : CacheManager) : Recycled cm cm := ⟨_, _, _, _, _, rfl⟩

theorem Recycled.trans {a b c : CacheManager} (h : Recycled a b) (h' : Recycled b c) :
    Recycled a c := by
  obtain ⟨_, _, _, _, _, rfl⟩ := h
  obtain ⟨t, l, fs, lz, n, rfl⟩ := h'
  exact ⟨t, l, fs, lz, n, rfl⟩

theorem OnlyTree.recycled {cm cm' : CacheManager} (h : OnlyTree cm cm') : Recycled cm cm' := by
  obtain ⟨c, n, rfl⟩ := h
  exact ⟨c, _, _, _, n, rfl⟩

namespace OwnedH

variable {cm cm' : CacheManager} {X X' : List NodeRef} {P P' S S' : List Nat}
  {H H' : List Holding}

/-! ## Moving pages, locks and slots around -/

/-- A move of pages or locks that leaves the tree and the slots alone. -/
theorem repage (h : OwnedH cm X P S H) (ho : Owned cm' X' P' H')
    (ht : cm'.cacheType = cm.cacheType) (hn : cm'.prefixCache.nodes = cm.prefixCache.nodes)
    (hl : cm'.linearStatePool = cm.linearStatePool)
    (hp : (X ++ H.map Holding.node).Perm (X' ++ H'.map Holding.node)) : OwnedH cm' X' P' S H' where
  pages := ho
  snapped :=
    { type := ht.trans h.snapped.type
      locks := hn ▸ h.snapped.locks.perm hp
      slots := by
        rw [hn, hl]
        exact h.snapped.slots
      states := by
        rw [hn, hl]
        exact h.snapped.states }

theorem slots_perm (h : OwnedH cm X P S H) (hp : S.Perm S') : OwnedH cm X P S' H :=
  ⟨h.pages, { h.snapped with
    slots := List.Perm.trans ((hp.symm.append_left _).append_left _) h.snapped.slots }⟩

theorem cons_nil : OwnedH cm ([] :: X) P S H ↔ OwnedH cm X P S H := by
  constructor
  · exact fun h => ⟨Owned.cons_nil.1 h.pages,
      { h.snapped with locks := (SnapLocked.cons_nil h.pages.locked.wf).1 h.snapped.locks }⟩
  · exact fun h => ⟨Owned.cons_nil.2 h.pages,
      { h.snapped with locks := (SnapLocked.cons_nil h.pages.locked.wf).2 h.snapped.locks }⟩

theorem release {x : Holding} (h : OwnedH cm X P S (x :: H)) :
    OwnedH cm (x.node :: X) (x.pages cm.pageSize cm.pageTable ++ P) S H :=
  h.repage h.pages.release rfl rfl rfl (by simp)

theorem free (h : OwnedH cm X P S H) (indices : List Nat)
    (hP : P.Perm (stride cm.pageSize indices ++ P')) : OwnedH (cm.free indices) X P' S H := by
  have ho := h.pages.free indices hP
  obtain ⟨p, fs, lz, hfreed⟩ := free_onlyFreed cm indices
  rw [hfreed] at ho ⊢
  exact h.repage ho rfl rfl rfl (List.Perm.refl _)

/-- Slots back to the pool. -/
theorem freeSlots {slots : List Nat} (h : OwnedH cm X P S H) (hS : S.Perm (slots ++ S')) :
    OwnedH { cm with linearStatePool := cm.linearStatePool.free slots } X P S' H where
  pages := h.pages.congr ⟨rfl, rfl, rfl, rfl, rfl, rfl, rfl, rfl⟩
  snapped :=
    { h.snapped with
      slots := by
        refine List.Perm.trans ?_ h.snapped.slots
        show ((cm.linearStatePool.freeSlots ++ slots) ++ _).Perm _
        rw [List.perm_iff_count] at hS ⊢
        intro a
        have := hS a
        simp only [List.count_append] at this ⊢
        omega }

/-- Slots out of the pool. -/
theorem allocSlots {n : Nat} {pool : LinearStatePool} {slots : List Nat} (h : OwnedH cm X P S H)
    (ha : cm.linearStatePool.alloc n = .ok (pool, slots)) :
    OwnedH { cm with linearStatePool := pool } X P (slots ++ S) H ∧ slots.length = n ∧
      pool.states = cm.linearStatePool.states := by
  obtain ⟨hperm, hlen, hnum, hstates⟩ := LinearStatePool.alloc_ok ha
  refine ⟨⟨h.pages.congr ⟨rfl, rfl, rfl, rfl, rfl, rfl, rfl, rfl⟩, ?_⟩, hlen, hstates⟩
  refine { h.snapped with slots := ?_, states := ?_ }
  · show (pool.freeSlots ++ _).Perm (List.range' 1 (pool.numSlots - 1))
    rw [hnum]
    refine List.Perm.trans ?_ h.snapped.slots
    rw [List.perm_iff_count] at hperm ⊢
    intro a
    have := hperm a
    simp only [List.count_append] at this ⊢
    omega
  · show ∀ p ∈ snaps cm.prefixCache.nodes, pool.states p.2 = p.1
    rw [hstates]
    exact h.snapped.states

/-! ## The tree -/

/-- The tree gives up unlocked leaves and snapshots. -/
theorem takes (h : OwnedH cm X P S H) {c : PrefixCache} {kv : List Nat}
    {gone : List (NodeRef × Nat)}
    (ht : TakesSnaps cm.pageSize (X ++ H.map Holding.node) cm.prefixCache.nodes c.nodes kv gone)
    (hc : c.pageSize = cm.pageSize) :
    OwnedH { cm with
        prefixCache := c, linearStatePool := cm.linearStatePool.free (gone.map Prod.snd) }
        X (stride cm.pageSize kv ++ P) S H ∧
      Kept (X ++ H.map Holding.node) cm { cm with
        prefixCache := c, linearStatePool := cm.linearStatePool.free (gone.map Prod.snd) } := by
  refine ⟨⟨(h.pages.takes ht.toTakes hc).congr ⟨rfl, rfl, rfl, rfl, rfl, rfl, rfl, rfl⟩, ?_⟩,
    ht.reads, ?_, rfl⟩
  · refine ⟨h.snapped.type, ht.held, ?_, fun p hp => h.snapped.states p ?_⟩
    · refine List.Perm.trans ?_ h.snapped.slots
      have hsn := ht.snaps.map Prod.snd
      rw [List.map_append] at hsn
      show ((cm.linearStatePool.freeSlots ++ gone.map Prod.snd) ++ _).Perm _
      rw [List.perm_iff_count] at hsn ⊢
      intro a
      have := hsn a
      simp only [List.count_append] at this ⊢
      omega
    · exact ht.snaps.mem_iff.2 (List.mem_append_right _ hp)
  · intro p hp hl
    rcases List.mem_append.1 (ht.snaps.mem_iff.1 hp) with hgone | hkept
    · exact absurd hl (ht.kept p hgone)
    · exact hkept

theorem reshape (h : OwnedH cm X P S H) {c : PrefixCache} {n : Nat}
    (hr : Reshape cm.pageSize cm.prefixCache.nodes c.nodes) (hc : c.pageSize = cm.pageSize) :
    OwnedH { cm with prefixCache := c, now := n } X P S H ∧
      ∀ L, Kept L cm { cm with prefixCache := c, now := n } := by
  refine ⟨⟨(h.pages.reshape hr hc).congr ⟨rfl, rfl, rfl, rfl, rfl, rfl, rfl, rfl⟩, ?_⟩, ?_⟩
  · refine ⟨h.snapped.type, hr.snapLocked h.snapped.locks, ?_, ?_⟩
    · show (_ ++ ((snaps c.nodes).map Prod.snd ++ S)).Perm _
      rw [hr.snaps_eq]
      exact h.snapped.slots
    · show ∀ p ∈ snaps c.nodes, _
      rw [hr.snaps_eq]
      exact h.snapped.states
  · intro L
    refine ⟨fun l _ row hread => hr.reads h.pages.locked.wf hread, fun p hp _ => ?_, rfl⟩
    show p ∈ snaps c.nodes
    rw [hr.snaps_eq]
    exact hp

/-- An insert with a donated slot; the tree keeps the slot where it had no snapshot. -/
theorem donated {slot : Nat} (h : OwnedH cm X P (slot :: S) H) {c : PrefixCache}
    {ids : List Token} {indices : List Nat} {k n : Nat} {exist : Bool}
    (hd : HybridRadixCache.Donated cm.pageSize (X ++ H.map Holding.node) cm.prefixCache.nodes ids
      indices slot c.nodes k exist)
    (hstate : cm.linearStatePool.states slot = ids)
    (ho : Owned { cm with prefixCache := c } X P' H) :
    OwnedH { cm with prefixCache := c, now := n } X P' (if exist then slot :: S else S) H ∧
      ∀ L, Kept L cm { cm with prefixCache := c, now := n } := by
  have hmem : ∀ p ∈ snaps cm.prefixCache.nodes, p ∈ snaps c.nodes := by
    intro p hp
    cases exist with
    | true =>
        rw [hd.kept rfl]
        exact hp
    | false => exact (hd.taken rfl).mem_iff.2 (List.mem_cons_of_mem _ hp)
  refine ⟨⟨ho.congr ⟨rfl, rfl, rfl, rfl, rfl, rfl, rfl, rfl⟩, h.snapped.type, hd.held, ?_, ?_⟩,
    fun L => ⟨fun l _ row => hd.inserted.reads l row, fun p hp _ => hmem p hp, rfl⟩⟩
  · refine List.Perm.trans ?_ h.snapped.slots
    cases exist with
    | true =>
        show (_ ++ ((snaps c.nodes).map Prod.snd ++ _)).Perm _
        rw [hd.kept rfl]
        exact List.Perm.refl _
    | false =>
        refine List.Perm.append_left _ ?_
        refine List.Perm.trans (((hd.taken rfl).map Prod.snd).append_right _) ?_
        exact List.perm_middle.symm
  · intro p hp
    cases exist with
    | true =>
        refine h.snapped.states p ?_
        rw [← hd.kept rfl]
        exact hp
    | false =>
        rcases List.mem_cons.1 ((hd.taken rfl).mem_iff.1 hp) with rfl | hp
        · exact hstate
        · exact h.snapped.states p hp

/-! ## Locking -/

theorem not_generic (h : Snapped cm (X ++ H.map Holding.node) S) :
    cm.isHybrid = true ∧ cm.isSwa = false := by
  unfold CacheManager.isHybrid CacheManager.isSwa
  rw [h.type]
  exact ⟨rfl, rfl⟩

theorem kept_retag {c : PrefixCache} {n : Nat} {g : RadixTreeNode → NodeData}
    (hn : c.nodes = retag cm.prefixCache.nodes g)
    (hg : ∀ m ∈ cm.prefixCache.nodes, (g m).mambaValue = m.data.mambaValue) (L : List NodeRef) :
    Kept L cm { cm with prefixCache := c, now := n } := by
  refine ⟨fun l _ row hr => ?_, fun p hp _ => ?_, rfl⟩
  · show Reads c.nodes l row
    rw [hn]
    exact reads_retag hr
  · show p ∈ snaps c.nodes
    rw [hn, snaps_retag hg]
    exact hp

theorem lock (h : OwnedH cm X P S H) (hd : CacheHandle)
    (hl : Lockable cm.prefixCache.nodes hd.node) :
    OwnedH (cm.lock hd).1 (hd.node :: X) P S H ∧ OnlyTree cm (cm.lock hd).1 ∧
      (cm.lock hd).2 = hd ∧ ∀ L, Kept L cm (cm.lock hd).1 := by
  have hlock : cm.lock hd =
      ({ cm with prefixCache := HybridRadixCache.incLock cm.prefixCache hd.node }, hd) := by
    simp only [CacheManager.lock, h.snapped.type]
  obtain ⟨hnodes, hsize⟩ := HybridRadixCache.incLock_spec h.pages.locked.wf hl
  have hsn : snaps (HybridRadixCache.incLock cm.prefixCache hd.node).nodes =
      snaps cm.prefixCache.nodes := by
    rw [hnodes]
    exact snaps_retag fun _ _ => rfl
  rw [hlock]
  refine ⟨⟨h.pages.pin hl.boundary hnodes (fun m _ => ?_) hsize, h.snapped.type, ?_, ?_, ?_⟩,
    ⟨_, _, rfl⟩, rfl, kept_retag hnodes fun _ _ => rfl⟩
  · unfold lockData
    dsimp only
    split <;> rfl
  · show SnapLocked (HybridRadixCache.incLock cm.prefixCache hd.node).nodes _
    rw [hnodes]
    exact h.snapped.locks.lock hl h.pages.locked.wf
  · show (_ ++ ((snaps (HybridRadixCache.incLock cm.prefixCache hd.node).nodes).map _ ++ S)).Perm _
    rw [hsn]
    exact h.snapped.slots
  · show ∀ p ∈ snaps (HybridRadixCache.incLock cm.prefixCache hd.node).nodes, _
    rw [hsn]
    exact h.snapped.states

theorem unlock {hd : CacheHandle} (h : OwnedH cm (hd.node :: X) P S H)
    (hu : cm.unlock hd = .ok cm') :
    OwnedH cm' X P S H ∧ OnlyTree cm cm' ∧ ∀ L, Kept L cm cm' := by
  have hdec : ∃ c, HybridRadixCache.decLock cm.prefixCache hd.node = .ok c ∧
      cm' = { cm with prefixCache := c } := by
    unfold CacheManager.unlock at hu
    split at hu
    all_goals
      rename_i ht
      rw [h.snapped.type] at ht
      cases ht
    obtain ⟨c, hc, hret⟩ := Py.bind_eq_ok.1 hu
    cases hret
    exact ⟨c, hc, rfl⟩
  obtain ⟨c, hc, rfl⟩ := hdec
  obtain ⟨hnodes, hsize⟩ := HybridRadixCache.decLock_spec h.pages.locked.wf h.snapped.locks hc
  have hsn : snaps c.nodes = snaps cm.prefixCache.nodes := by
    rw [hnodes]
    exact snaps_retag fun _ _ => rfl
  refine ⟨⟨h.pages.unpin hnodes (fun m _ => ?_) hsize, h.snapped.type, ?_, ?_, ?_⟩,
    ⟨_, _, rfl⟩, kept_retag hnodes fun _ _ => rfl⟩
  · unfold lockData
    dsimp only
    split <;> rfl
  · show SnapLocked c.nodes _
    rw [hnodes]
    exact h.snapped.locks.unlock
  · show (_ ++ ((snaps c.nodes).map _ ++ S)).Perm _
    rw [hsn]
    exact h.snapped.slots
  · show ∀ p ∈ snaps c.nodes, _
    rw [hsn]
    exact h.snapped.states

/-! ## Making room -/

theorem free_recycled (cm : CacheManager) (indices : List Nat) : Recycled cm (cm.free indices) := by
  unfold CacheManager.free
  split
  · exact ⟨_, _, _, _, _, rfl⟩
  · exact ⟨_, _, _, _, _, rfl⟩

/-- Every round of `ensure_mamba_slots` puts what it evicts on the two free lists. -/
theorem ensureMambaSlotsLoop (n : Nat) : ∀ (fuel : Nat) {cm : CacheManager}, OwnedH cm X P S H →
    OwnedH (CacheManager.ensureMambaSlotsLoop n fuel cm) X P S H ∧
      Recycled cm (CacheManager.ensureMambaSlotsLoop n fuel cm) ∧
      Kept (X ++ H.map Holding.node) cm (CacheManager.ensureMambaSlotsLoop n fuel cm) := by
  intro fuel
  induction fuel with
  | zero => exact fun h => ⟨h, .refl _, .refl _⟩
  | succ fuel ih =>
      intro cm h
      rw [CacheManager.ensureMambaSlotsLoop]
      split
      swap
      · exact ⟨h, .refl _, .refl _⟩
      have hps : cm.prefixCache.pageSize = cm.pageSize := h.pages.size
      have hev := HybridRadixCache.evictMamba_spec (hps ▸ h.pages.pos) (hps ▸ h.pages.locked)
        (hps ▸ h.pages.paged) h.snapped.locks (n - cm.linearStatePool.numFreeSlots)
      rw [hps] at hev
      have hnone := HybridRadixCache.evictMamba_none cm.prefixCache
        (n - cm.linearStatePool.numFreeSlots)
      generalize HybridRadixCache.evictMamba cm.prefixCache
        (n - cm.linearStatePool.numFreeSlots) = r at hev hnone ⊢
      obtain ⟨c, er⟩ := r
      obtain ⟨kv, gone, hkv, hgone, htakes, hsize⟩ := hev
      dsimp only at hkv hgone htakes hsize hnone ⊢
      rw [List.nil_append] at hkv hgone
      split
      · rename_i hnil
        cases hnone hnil
        exact ⟨h, .refl _, .refl _⟩
      · obtain ⟨htaken, hkept⟩ := h.takes htakes hsize
        rw [hkv, hgone]
        have hfree := htaken.free kv (List.Perm.refl _)
        have hrec : Recycled cm (CacheManager.free { cm with
          prefixCache := c, linearStatePool := cm.linearStatePool.free (gone.map Prod.snd) } kv) :=
          Recycled.trans ⟨c, _, _, _, _, rfl⟩ (free_recycled _ kv)
        obtain ⟨hown, hrec', hkept'⟩ := ih hfree
        exact ⟨hown, hrec.trans hrec', (hkept.trans (.free _ _ kv)).trans hkept'⟩

theorem ensureMambaSlots (h : OwnedH cm X P S H) (n : Nat) :
    OwnedH (cm.ensureMambaSlots n) X P S H ∧ Recycled cm (cm.ensureMambaSlots n) ∧
      Kept (X ++ H.map Holding.node) cm (cm.ensureMambaSlots n) :=
  ensureMambaSlotsLoop n _ h

theorem ensureStateSlots (h : OwnedH cm X P S H) :
    OwnedH (PrefillAdder.ensureStateSlots cm) X P S H ∧
      Recycled cm (PrefillAdder.ensureStateSlots cm) ∧
      Kept (X ++ H.map Holding.node) cm (PrefillAdder.ensureStateSlots cm) := by
  unfold PrefillAdder.ensureStateSlots
  split
  · exact h.ensureMambaSlots 3
  · exact ⟨h, .refl _, .refl _⟩

/-- An eviction for an allocation. -/
theorem evictPages (h : OwnedH cm X P S H) {need : Nat} {out : List Nat}
    (he : cm.evictPages need = .ok (cm', out)) :
    OwnedH cm' X (stride cm'.pageSize out ++ P) S H ∧ cm'.pageSize = cm.pageSize ∧
      Kept (X ++ H.map Holding.node) cm cm' := by
  have hps : cm.prefixCache.pageSize = cm.pageSize := h.pages.size
  have hev := HybridRadixCache.evictFull_spec (hps ▸ h.pages.pos) (hps ▸ h.pages.locked)
    (hps ▸ h.pages.paged) h.snapped.locks need
  rw [hps] at hev
  unfold CacheManager.evictPages at he
  split at he
  all_goals
    rename_i ht
    rw [h.snapped.type] at ht
    cases ht
  generalize HybridRadixCache.evictFull cm.prefixCache need = r at hev he
  obtain ⟨c, er⟩ := r
  obtain ⟨kv, gone, hkv, hgone, htakes, hsize⟩ := hev
  dsimp only at hkv hgone htakes hsize
  rw [List.nil_append] at hkv hgone
  cases he
  obtain ⟨htaken, hkept⟩ := h.takes htakes hsize
  rw [hkv, hgone]
  exact ⟨htaken, rfl, hkept⟩

/-- What an allocation's eviction keeps, from a manager `cm₀` on. -/
theorem evictLaw (cm₀ : CacheManager) (X : List NodeRef) (P S : List Nat) (H : List Holding) :
    EvictLaw (fun cm => Snapped cm (X ++ H.map Holding.node) S ∧
      Kept (X ++ H.map Holding.node) cm₀ cm) X P H where
  congr := by
    intro cm cm' ht hn hl hk
    refine ⟨⟨ht.trans hk.1.type, hn ▸ hk.1.locks, ?_, ?_⟩,
      hk.2.trans (.of_eq (by rw [hn]) (by rw [hl]))⟩
    · rw [hn, hl]
      exact hk.1.slots
    · rw [hn, hl]
      exact hk.1.states
  notSwa := fun hk => (not_generic hk.1).2
  evict := by
    intro cm cm' need out hk ho he
    obtain ⟨h, hps, hkept⟩ := evictPages ⟨ho, hk.1⟩ he
    exact ⟨⟨h.snapped, hk.2.trans hkept⟩, h.pages, hps⟩

/-! ## Matching and seating -/

theorem matchReq (h : OwnedH cm X P S H) {p : PendingReq} {hd : CacheHandle} {src : Option Nat}
    (hm : cm.matchReq p = .ok (cm', hd, src)) :
    OwnedH cm' X P S H ∧ OnlyTree cm cm' ∧ (∀ L, Kept L cm cm') ∧
      HandleOk p.inputIds p.hasMm hd ∧ hd.cachedLen < p.inputLen ∧
      hd.kvIndices = pathValues cm'.prefixCache.nodes hd.node ∧
      ((hd.node = [] ∧ src = none) ∨
        ∃ s, src = some s ∧ (hd.node, s) ∈ snaps cm'.prefixCache.nodes) := by
  unfold CacheManager.matchReq at hm
  obtain ⟨u, hassert, hm⟩ := Py.bind_eq_ok.1 hm
  rw [pyAssert_eq_ok, decide_eq_true_eq] at hassert
  have hps : cm.prefixCache.pageSize = cm.pageSize := h.pages.size
  rw [h.snapped.type] at hm
  dsimp only [CacheManager.tick] at hm
  generalize hids : (if p.hasMm then [] else p.inputIds.take (p.inputLen - 1)) = ids at hm
  have hmm : p.hasMm = true → ids = [] := fun hmm => by rw [← hids, if_pos hmm]
  have hpre : ids <+: p.inputIds ∧ ids.length < p.inputLen := by
    rw [← hids]
    split
    · exact ⟨List.nil_prefix, hassert⟩
    · refine ⟨List.take_prefix _ _, ?_⟩
      rw [List.length_take]
      omega
  obtain ⟨hmatch, hsize⟩ := HybridRadixCache.matchPrefix_spec (hps ▸ h.pages.pos)
    (hps ▸ h.pages.locked.wf) ids (cm.clock cm.now)
  rw [hps] at hmatch
  generalize HybridRadixCache.matchPrefix cm.prefixCache ids (cm.clock cm.now) = x
    at hm hmatch hsize
  obtain ⟨c, m⟩ := x
  cases hm
  dsimp only at hmatch hsize
  obtain ⟨hown, hkept⟩ := h.reshape (n := cm.now + 1) hmatch.reshape (hsize.trans hps)
  refine ⟨hown, ⟨_, _, rfl⟩, hkept, ⟨hmatch.cachedLen, hmatch.le.trans hpre.1, fun hp => ?_⟩, ?_,
    hmatch.values, hmatch.snap⟩
  · have := hmatch.le
    rw [hmm hp] at this
    exact List.prefix_nil.1 this
  · rw [hmatch.cachedLen]
    exact Nat.lt_of_le_of_lt hmatch.le.length_le hpre.2

/-- Indices that still read a node's path are its values. -/
theorem eq_pathValues {ps : Nat} {t : RadixTree} (hw : WF ps t) {node : NodeRef}
    (hb : Boundary t node) {kv : List Nat} (hlen : kv.length = node.length)
    (hr : Reads t node (fun k => kv.getD k 0)) : kv = pathValues t node := by
  rw [(hw.reads_iff hb _).1 hr]
  refine List.ext_getElem? fun i => ?_
  rw [getElem?_slice, Nat.sub_zero]
  split
  · rename_i hi
    rw [Nat.zero_add, List.getD_eq_getElem?_getD, List.getElem?_eq_getElem (hlen ▸ hi)]
    rfl
  · rename_i hi
    exact List.getElem?_eq_none (by omega)

end OwnedH

end FreeToken
