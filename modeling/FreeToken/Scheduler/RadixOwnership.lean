import FreeToken.Scheduler.Commit

/-!
# Page ownership with the naive and the plain radix cache

`GenericInv` is the ownership of the pages by the running requests, each of them committed up to the
node its handle names.  Every call of the scheduler keeps it, so it holds in every reachable state
of a server with a naive or a plain radix cache.
-/

set_option autoImplicit false

namespace FreeToken

open BlockTrie Blocks

/-- The naive and the plain radix cache. -/
def CacheManager.IsGeneric (cm : CacheManager) : Prop :=
  cm.cacheType = .naive ∨ cm.cacheType = .radix

namespace Owned

variable {cm cm' : CacheManager} {X : List NodeRef} {P : List Nat} {H : List Holding}

/-! ## Matching, locking, seating -/

theorem matchReq (h : Owned cm X P H) (hg : cm.IsGeneric) {p : PendingReq} {hd : CacheHandle}
    {src : Option Nat} (hm : cm.matchReq p = .ok (cm', hd, src)) :
    Owned cm' X P H ∧ OnlyTree cm cm' ∧ Boundary cm'.prefixCache.nodes hd.node ∧
      HandleOk p.inputIds p.hasMm hd ∧ (cm.cacheType = .naive → hd.node = []) ∧
      hd.cachedLen < p.inputLen := by
  unfold CacheManager.matchReq at hm
  obtain ⟨u, hassert, hm⟩ := Py.bind_eq_ok.1 hm
  rw [pyAssert_eq_ok, decide_eq_true_eq] at hassert
  rcases hg with ht | ht
  · rw [ht] at hm
    cases hm
    exact ⟨h, .refl cm, .inl rfl, ⟨rfl, List.nil_prefix, fun _ => rfl⟩, fun _ => rfl, hassert⟩
  · rw [ht] at hm
    cases hm
    have hps : 0 < cm.prefixCache.pageSize := h.size ▸ h.pos
    generalize hids : (if p.hasMm then [] else p.inputIds.take (p.inputLen - 1)) = ids
    have hmm : p.hasMm = true → ids = [] := fun hmm => by rw [← hids, if_pos hmm]
    have hpre : ids <+: p.inputIds ∧ ids.length < p.inputLen := by
      rw [← hids]
      split
      · exact ⟨List.nil_prefix, hassert⟩
      · refine ⟨List.take_prefix _ _, ?_⟩
        rw [List.length_take]
        omega
    obtain ⟨k, hhd, hw, hsize⟩ := RadixPrefixCache.matchPrefix_spec hps
      (h.size ▸ h.locked.wf) ids (cm.clock cm.now)
    have hr := hw.reshape
    rw [h.size] at hr
    refine ⟨(h.reshape hr (hsize.trans h.size)).congr ⟨rfl, rfl, rfl, rfl, rfl, rfl, rfl, rfl⟩,
      ⟨_, _, rfl⟩, ?_⟩
    show Boundary _ (RadixPrefixCache.matchPrefix cm.prefixCache ids (cm.clock cm.now)).2.node ∧
      HandleOk _ _ (RadixPrefixCache.matchPrefix cm.prefixCache ids (cm.clock cm.now)).2 ∧
      (_ → (RadixPrefixCache.matchPrefix cm.prefixCache ids (cm.clock cm.now)).2.node = []) ∧
      (RadixPrefixCache.matchPrefix cm.prefixCache ids (cm.clock cm.now)).2.cachedLen < _
    rw [hhd]
    refine ⟨hw.bound, ⟨?_, (List.take_prefix _ _).trans hpre.1, ?_⟩,
      fun hn => (by rw [ht] at hn; cases hn), Nat.lt_of_le_of_lt hw.le hpre.2⟩
    · exact (List.length_take_of_le hw.le).symm
    · intro hp
      show ids.take k = []
      rw [hmm hp, List.take_nil]

theorem lock (h : Owned cm X P H) (hg : cm.IsGeneric) {hd : CacheHandle}
    (hb : Boundary cm.prefixCache.nodes hd.node) (hn : cm.cacheType = .naive → hd.node = []) :
    Owned (cm.lock hd).1 (hd.node :: X) P H ∧ OnlyTree cm (cm.lock hd).1 ∧
      (cm.lock hd).2 = hd ∧
      ∃ g, (cm.lock hd).1.prefixCache.nodes = retag cm.prefixCache.nodes g := by
  unfold CacheManager.lock
  split
  · rename_i ht
    refine ⟨?_, .refl cm, rfl, _, (retag_data _).symm⟩
    rw [hn ht]
    exact cons_nil.2 h
  · have hnodes := RadixPrefixCache.lockHandle_nodes h.locked.wf hb
    refine ⟨?_, ⟨_, _, rfl⟩, rfl, _, hnodes⟩
    refine h.pin hb hnodes (fun n _ => ?_) (RadixPrefixCache.lockHandle_pageSize _ _)
    unfold above
    split <;> rfl
  · rename_i ht
    rcases hg with hg | hg <;> rw [ht] at hg <;> cases hg
  · rename_i ht
    rcases hg with hg | hg <;> rw [ht] at hg <;> cases hg

theorem unlock {hd : CacheHandle} (h : Owned cm (hd.node :: X) P H) (hg : cm.IsGeneric)
    (hn : cm.cacheType = .naive → hd.node = []) (hu : cm.unlock hd = .ok cm') :
    Owned cm' X P H ∧ OnlyTree cm cm' ∧
      ∃ g, cm'.prefixCache.nodes = retag cm.prefixCache.nodes g := by
  unfold CacheManager.unlock at hu
  split at hu
  · rename_i ht
    cases hu
    rw [hn ht] at h
    exact ⟨cons_nil.1 h, .refl cm, _, (retag_data _).symm⟩
  · obtain ⟨c, hc, hret⟩ := Py.bind_eq_ok.1 hu
    cases hret
    obtain ⟨hnodes, hsize⟩ := RadixPrefixCache.unlockHandle_spec h.locked.wf h.boundary hc
    refine ⟨h.unpin hnodes (fun n _ => ?_) hsize, ⟨_, _, rfl⟩, _, hnodes⟩
    unfold above
    split <;> rfl
  · rename_i ht
    rcases hg with hg | hg <;> rw [ht] at hg <;> cases hg
  · rename_i ht
    rcases hg with hg | hg <;> rw [ht] at hg <;> cases hg

theorem getMatchedIndices_eq (hg : cm.IsGeneric) {hd : CacheHandle}
    (hn : cm.cacheType = .naive → hd.node = []) :
    cm.getMatchedIndices hd = pathValues cm.prefixCache.nodes hd.node := by
  unfold CacheManager.getMatchedIndices
  split
  · rename_i ht
    rw [hn ht]
    rfl
  · rfl
  · rename_i hnaive hradix
    rcases hg with hg | hg
    · exact absurd hg hnaive
    · exact absurd hg hradix

/-! ## Committing -/

theorem insertGeneric_ok {r : Req}
    (h : Owned cm X P (r.holdingAt r.cachedLen :: H)) (hids : r.cachedLen ≤ r.inputIds.length)
    (hok : HandleOk r.inputIds r.hasMm r.cacheHandle)
    (hn : cm.cacheType = .naive → r.cacheHandle.node = []) : ∃ cm₁ k hd,
      cm.insertGeneric (r.inputIds.take r.cachedLen) (slice (cm.rowOf r) 0 r.cachedLen) =
        (cm₁, k, hd) ∧
      OnlyTree cm cm₁ ∧ cm₁.prefixCache.pageSize = cm.pageSize ∧ HandleOk r.inputIds false hd ∧
      r.cacheHandle.node <+: hd.node ∧ hd.node.length ≤ r.cachedLen ∧
      (cm.cacheType = .naive → hd.node = []) ∧ cm.pageSize ∣ hd.node.length ∧
      RadixPrefixCache.Inserted cm.pageSize (r.cacheHandle.node :: X ++ H.map Holding.node)
        cm.prefixCache.nodes hd.node (slice (cm.pageTable r.row) 0 hd.node.length)
        cm₁.prefixCache.nodes k := by
  have hL : Locked cm.pageSize cm.prefixCache.nodes
      (r.cacheHandle.node :: X ++ H.map Holding.node) := h.release.locked
  unfold CacheManager.insertGeneric
  split
  · rename_i ht
    refine ⟨_, _, _, rfl, .refl cm, h.size, ⟨rfl, List.nil_prefix, fun _ => rfl⟩, ?_,
      Nat.zero_le _, fun _ => rfl, Nat.dvd_zero _, ?_⟩
    · simp only [hn ht, List.nil_prefix]
    · refine ⟨hL, h.paged, Nat.zero_le _, Nat.dvd_zero _, .inl rfl, ?_, fun _ _ hr => hr, ?_, ?_⟩
      · simp
      · simp
      · exact fun j hj _ => hj
  · -- the radix cache commits the whole pages of the computed prefix
    have hps : 0 < cm.prefixCache.pageSize := h.size ▸ h.pos
    have hlen : (r.inputIds.take r.cachedLen).length = r.cachedLen := List.length_take_of_le hids
    have hle := alignDown_le r.cachedLen cm.prefixCache.pageSize
    have htake : (slice (cm.rowOf r) 0 r.cachedLen).take
        (alignDown r.cachedLen cm.prefixCache.pageSize) =
          slice (cm.pageTable r.row) 0 (alignDown r.cachedLen cm.prefixCache.pageSize) := by
      rw [← slice_append (cm.rowOf r) (Nat.zero_le _) hle]
      exact List.take_left' (length_slice _ _ _)
    have hnode : ((r.inputIds.take r.cachedLen).take
        (alignDown r.cachedLen cm.prefixCache.pageSize)).length =
          alignDown r.cachedLen cm.prefixCache.pageSize :=
      List.length_take_of_le (by rw [hlen]; exact hle)
    obtain ⟨hins, hhd, hsize⟩ := RadixPrefixCache.insertPrefix_spec hps
      (h.size ▸ hL) (h.size ▸ h.paged) (r.inputIds.take r.cachedLen)
      (slice (cm.rowOf r) 0 r.cachedLen) (by rw [hlen, length_slice, Nat.sub_zero])
      (by
        rw [hlen, htake, h.size]
        exact h.paged_prefix ((alignDown_le _ _).trans (le_divCeil_mul _ h.pos))
          (dvd_alignDown _ _))
      (cm.clock cm.now) (cm.clock (cm.now + 1))
    rw [hlen] at hins hhd
    dsimp only [CacheManager.tick]
    generalize RadixPrefixCache.insertPrefix cm.prefixCache (r.inputIds.take r.cachedLen)
      (slice (cm.rowOf r) 0 r.cachedLen) (cm.clock cm.now) (cm.clock (cm.now + 1)) = x
      at hins hhd hsize ⊢
    obtain ⟨c, k, hd⟩ := x
    dsimp only at hins hhd hsize ⊢
    subst hhd
    refine ⟨_, _, _, rfl, ⟨_, _, rfl⟩, hsize.trans h.size,
      ⟨hnode.symm, (List.take_prefix _ _).trans (List.take_prefix _ _), by simp⟩, ?_, ?_, ?_, ?_,
      ?_⟩
    · have hold := h.ok _ List.mem_cons_self
      have hb := h.locked.bound r.cacheHandle.node (List.mem_append_right _ List.mem_cons_self)
      have hmax : r.cacheHandle.node.length ≤ alignDown r.cachedLen cm.prefixCache.pageSize := by
        rw [h.size]
        exact le_alignDown h.pos (h.locked.wf.boundary_dvd hb) hold.le
      refine List.prefix_of_prefix_length_le hok.ids
        ((List.take_prefix _ _).trans (List.take_prefix _ _)) ?_
      rw [hnode]
      exact hmax
    · rw [hnode]
      exact hle
    · rename_i hnaive
      exact fun ht => absurd ht hnaive
    · rw [hnode, h.size]
      exact dvd_alignDown _ _
    · rw [hnode, ← htake]
      rw [h.size] at hins ⊢
      exact hins

theorem OnlyTree.isGeneric (h : OnlyTree cm cm') (hg : cm.IsGeneric) : cm'.IsGeneric := by
  obtain ⟨c, n, rfl⟩ := h
  exact hg

/-- The shared part of a commit and a finish: the insert, the unlock and the free of what others had
committed before. -/
theorem dedupGeneric {r : Req} {k : Nat} {cm₁ cm₂ : CacheManager}
    {hd : CacheHandle} (h : Owned cm X P (r.holdingAt r.cachedLen :: H)) (hg : cm.IsGeneric)
    (hok : HandleOk r.inputIds r.hasMm r.cacheHandle)
    (hn : cm.cacheType = .naive → r.cacheHandle.node = []) (htree : OnlyTree cm cm₁)
    (hsize : cm₁.prefixCache.pageSize = cm.pageSize) (hpre : r.cacheHandle.node <+: hd.node)
    (hle : hd.node.length ≤ r.cachedLen) (hdvd : cm.pageSize ∣ hd.node.length)
    (hi : RadixPrefixCache.Inserted cm.pageSize (r.cacheHandle.node :: X ++ H.map Holding.node)
      cm.prefixCache.nodes hd.node (slice (cm.pageTable r.row) 0 hd.node.length)
      cm₁.prefixCache.nodes k)
    (hu : cm₁.unlock r.cacheHandle = .ok cm₂) :
    Owned (cm₂.freeBoth (slice (cm₂.rowOf r) r.cacheHandle.cachedLen k)) X
        (stride cm.pageSize (slice (cm.pageTable r.row) hd.node.length
          (divCeil r.cachedLen cm.pageSize * cm.pageSize)) ++ P) H ∧
      OnlyTree cm cm₂ ∧ ∃ g, cm₂.prefixCache.nodes = retag cm₁.prefixCache.nodes g := by
  obtain ⟨hk, hown⟩ := h.committed hpre hle hdvd hi hsize
  obtain ⟨c, n, rfl⟩ := htree
  have hown₁ : Owned { cm with prefixCache := c, now := n } _ _ H :=
    hown.congr ⟨rfl, rfl, rfl, rfl, rfl, rfl, rfl, rfl⟩
  obtain ⟨hown₂, ⟨c', n', rfl⟩, hg'⟩ := hown₁.unlock hg hn hu
  refine ⟨hown₂.freeBoth ?_, ⟨c', n', rfl⟩, hg'⟩
  rw [hok.len]
  exact List.Perm.refl _

/-- A finished request gives back all its pages but those the tree takes. -/
theorem finishGeneric {r : Req} {f : CacheFields}
    (h : Owned cm X P (r.holdingAt r.cachedLen :: H)) (hg : cm.IsGeneric)
    (hids : r.cachedLen ≤ r.inputIds.length) (hok : HandleOk r.inputIds r.hasMm r.cacheHandle)
    (hn : cm.cacheType = .naive → r.cacheHandle.node = [])
    (hc : cm.cacheReqGeneric r true = .ok (cm', f)) :
    Owned cm' X P H ∧ cm'.cacheType = cm.cacheType := by
  unfold CacheManager.cacheReqGeneric at hc
  dsimp only at hc
  split at hc
  · rename_i hmm
    obtain ⟨cm₁, hu, hret⟩ := Py.bind_eq_ok.1 hc
    cases hret
    have hnil := hok.mm hmm
    obtain ⟨hown, ⟨c, n, rfl⟩, -⟩ := h.release.unlock hg hn hu
    refine ⟨hown.freeBoth ?_, ?_⟩
    · rw [hok.len]
      exact List.Perm.refl _
    · obtain ⟨p, fs, lz, hfreed⟩ := freeBoth_onlyFreed { cm with prefixCache := c, now := n } _
      rw [hfreed]
  · obtain ⟨cm₁, k, hd, hins, htree, hsize, hhd, hpre, hle, hnaive, hdvd, hi⟩ :=
      h.insertGeneric_ok hids hok hn
    rw [hins] at hc
    dsimp only at hc
    obtain ⟨cm₂, hu, hret⟩ := Py.bind_eq_ok.1 hc
    cases hret
    obtain ⟨hown, ⟨c, n, rfl⟩, -⟩ :=
      h.dedupGeneric hg hok hn htree hsize hpre hle hdvd hi hu
    obtain ⟨p, fs, lz, hfreed⟩ := freeBoth_onlyFreed { cm with prefixCache := c, now := n }
      (slice (CacheManager.rowOf { cm with prefixCache := c, now := n } r)
        r.cacheHandle.cachedLen k)
    rw [hfreed] at hown ⊢
    obtain ⟨p', fs', lz', hfreed'⟩ := freeBoth_onlyFreed
      { cm with
        prefixCache := c, now := n, swaPool := p, freeSlots := fs, lazyFreeList := lz } _
    refine ⟨hown.freeBoth ?_, ?_⟩
    · rw [hhd.len]
      exact List.Perm.refl _
    · rw [hfreed']

/-- A committed request keeps its tail and reads the tree's pages below its new node. -/
theorem commitGeneric {r : Req} {f : CacheFields}
    (h : Owned cm X P (r.holdingAt r.cachedLen :: H)) (hg : cm.IsGeneric)
    (hids : r.cachedLen ≤ r.inputIds.length) (hok : HandleOk r.inputIds r.hasMm r.cacheHandle)
    (hn : cm.cacheType = .naive → r.cacheHandle.node = [])
    (hc : cm.cacheReqGeneric r false = .ok (cm', f)) :
    Owned cm' X P (({ r with toCacheFields := f } : Req).holdingAt r.cachedLen :: H) ∧
      cm'.cacheType = cm.cacheType ∧ HandleOk r.inputIds r.hasMm f.cacheHandle ∧
      (cm.cacheType = .naive → f.cacheHandle.node = []) := by
  unfold CacheManager.cacheReqGeneric at hc
  dsimp only at hc
  split at hc
  · rename_i hmm
    obtain ⟨cm₁, hu, hret⟩ := Py.bind_eq_ok.1 hc
    cases hret
    have hnil := hok.mm hmm
    have hroot : Owned cm (r.cacheHandle.node :: X) P (r.holdingAt r.cachedLen :: H) := by
      rw [hnil]
      exact cons_nil.2 h
    obtain ⟨hown, ⟨c, n, rfl⟩, -⟩ := hroot.unlock hg hn hu
    exact ⟨hown, rfl, hok, hn⟩
  · rename_i hmm
    obtain ⟨cm₁, k, hd, hins, htree, hsize, hhd, hpre, hle, hnaive, hdvd, hi⟩ :=
      h.insertGeneric_ok hids hok hn
    rw [hins] at hc
    dsimp only at hc
    obtain ⟨cm₂, hu, hret⟩ := Py.bind_eq_ok.1 hc
    obtain ⟨hown, ⟨c, n, rfl⟩, g, hretag⟩ :=
      h.dedupGeneric hg hok hn htree hsize hpre hle hdvd hi hu
    obtain ⟨p, fs, lz, hfreed⟩ := freeBoth_onlyFreed { cm with prefixCache := c, now := n }
      (slice (CacheManager.rowOf { cm with prefixCache := c, now := n } r)
        r.cacheHandle.cachedLen k)
    rw [hfreed] at hown hret
    have hg₃ : CacheManager.IsGeneric { cm with
      prefixCache := c, now := n, swaPool := p, freeSlots := fs, lazyFreeList := lz } := hg
    rw [getMatchedIndices_eq hg₃ hnaive, hok.len] at hret
    have hb : Boundary c.nodes hd.node := by
      rw [hretag]
      exact boundary_retag.2 hi.bound
    have hread : ∀ i < hd.node.length, i < r.cacheHandle.node.length ∨ k ≤ i →
        ReadsAt c.nodes hd.node i (cm.pageTable r.row i) := by
      intro i hilt hcase
      rw [hretag]
      exact readsAt_retag (h.committed_reads hpre hi i hilt hcase)
    have hup : hd.node.length ≤ divCeil r.cachedLen cm.pageSize * cm.pageSize :=
      hle.trans (le_divCeil_mul _ h.pos)
    obtain ⟨pt, hpt, hrep, hok'⟩ := hown.repointed (r := r) (n := r.cacheHandle.node.length)
      (k := k) hb h.row_ne hle hi.le hread
      (h.paged_slice hup le_rfl hdvd (dvd_divCeil_mul _ _))
    rw [hpt] at hret
    obtain ⟨hlocked, ⟨c', n', hlock⟩, hsame, g', hretag'⟩ := hrep.lock hg₃ hb hnaive
    rw [hlock] at hlocked hretag'
    have hseat := hlocked.seat (x := ⟨r.row, hd.node, r.cachedLen⟩)
      (by rw [hretag']; exact ok_retag hok') h.row_ne (List.Perm.refl _)
    cases hret
    dsimp only
    rw [hlock, hsame]
    exact ⟨hseat, rfl, ⟨hhd.len, hhd.ids, fun hm => absurd hm hmm⟩, hnaive⟩

end Owned

/-! ## The laws of the generic caches -/

namespace CacheManager.IsGeneric

variable {cm cm' : CacheManager}

theorem not_isSwa (h : cm.IsGeneric) : cm.isSwa = false := by
  unfold CacheManager.isSwa
  rcases h with h | h <;> rw [h] <;> rfl

theorem not_isHybrid (h : cm.IsGeneric) : cm.isHybrid = false := by
  unfold CacheManager.isHybrid
  rcases h with h | h <;> rw [h] <;> rfl

theorem of_eq (h : cm.IsGeneric) (he : cm'.cacheType = cm.cacheType) : cm'.IsGeneric := by
  unfold CacheManager.IsGeneric
  rw [he]
  exact h

theorem ensureStateSlots_eq (h : cm.IsGeneric) : PrefillAdder.ensureStateSlots cm = cm := by
  unfold PrefillAdder.ensureStateSlots
  rw [h.not_isHybrid]
  rfl

theorem allocStateSlots_eq (h : cm.IsGeneric) :
    PrefillAdder.allocStateSlots cm = .ok (cm, none, none) := by
  unfold PrefillAdder.allocStateSlots
  rw [h.not_isHybrid]
  rfl

theorem cacheReq_eq (h : cm.IsGeneric) (r : Req) (finished : Bool) :
    cm.cacheReq r finished = cm.cacheReqGeneric r finished := by
  unfold CacheManager.cacheReq
  rcases h with h | h <;> rw [h]

end CacheManager.IsGeneric

theorem evictLaw_generic {t : CacheType} (ht : t = .naive ∨ t = .radix) (X : List NodeRef)
    (P : List Nat) (H : List Holding) : EvictLaw (fun cm => cm.cacheType = t) X P H where
  congr := fun _ _ he _ _ hk => he.trans hk
  notSwa := by
    intro cm hk
    have hg : cm.IsGeneric := by
      unfold CacheManager.IsGeneric
      rw [hk]
      exact ht
    exact hg.not_isSwa
  evict := by
    intro cm cm' need out hk h hev
    unfold CacheManager.evictPages at hev
    split at hev
    · split at hev
      · cases hev
        exact ⟨hk, by simpa using h, rfl⟩
      · cases hev
    · obtain ⟨⟨c, evicted⟩, he, hret⟩ := Py.bind_eq_ok.1 hev
      cases hret
      obtain ⟨htakes, hsize⟩ := RadixPrefixCache.evict_spec (h.size ▸ h.pos)
        (h.size ▸ h.locked) (h.size ▸ h.paged) he
      rw [h.size] at htakes
      exact ⟨hk, h.takes htakes (hsize.trans h.size), rfl⟩
    · rename_i hx
      rcases ht with ht | ht <;> rw [hx, ht] at hk <;> cases hk
    · rename_i hx
      rcases ht with ht | ht <;> rw [hx, ht] at hk <;> cases hk

/-- The handle of a running request; with the naive cache it names the root. -/
structure Handled (t : CacheType) (r : Req) : Prop where
  ok : HandleOk r.inputIds r.hasMm r.cacheHandle
  naive : t = .naive → r.cacheHandle.node = []

/-- The pages of a generic cache and the handles of the running requests. -/
structure GenericInv (cm : CacheManager) (H : List Held) : Prop where
  type : cm.IsGeneric
  owned : Owned cm [] [] (H.map holding)
  handled : ∀ h ∈ H, Handled cm.cacheType h.1

namespace GenericInv

variable {cm cm' : CacheManager} {G H R : List Held} {r : Req}

theorem of_owned (h : GenericInv cm H) (ht : cm'.cacheType = cm.cacheType)
    (ho : Owned cm' [] [] (H.map holding)) : GenericInv cm' H :=
  ⟨h.type.of_eq ht, ho, ht ▸ h.handled⟩

theorem perm (hp : H.Perm G) (h : GenericInv cm H) : GenericInv cm G :=
  ⟨h.type, h.owned.holdings_perm (hp.map _), fun x hx => h.handled x (hp.mem_iff.2 hx)⟩

/-- The requests of `H` become those of `G`, with the pages they hold. -/
theorem congr (h : GenericInv cm (H ++ R)) (ht : cm'.cacheType = cm.cacheType)
    (ho : Owned cm' [] [] (G.map holding ++ R.map holding))
    (hback : ∀ x ∈ G, Handled cm.cacheType x.1) : GenericInv cm' (G ++ R) where
  type := h.type.of_eq ht
  owned := by
    rw [List.map_append]
    exact ho
  handled := by
    intro x hx
    rw [ht]
    rcases List.mem_append.1 hx with hx | hx
    · exact hback x hx
    · exact h.handled x (List.mem_append_right _ hx)

theorem init {cfg : Config} (hc : cfg.cacheType = .naive ∨ cfg.cacheType = .radix) :
    GenericInv (CacheManager.init cfg) [] where
  type := hc
  owned :=
    { size := rfl
      pos := cfg.pageSize_pos
      locked := Locked.nil _
      paged := by
        intro n hn
        cases hn
      ok := by simp
      rows := List.nodup_nil
      perm := by
        show (CacheManager.pageBases cfg.numPages cfg.pageSize ++ ([] ++ ([] ++ []))).Perm _
        rw [List.append_nil, List.append_nil, List.append_nil]
        exact List.Perm.refl _ }
  handled := by simp

/-- Matching and locking a prefix for an admission. -/
theorem matchLock {cm₁ : CacheManager} {p : PendingReq} {hd : CacheHandle} {src : Option Nat}
    (h : GenericInv cm H) (hm : cm.matchReq p = .ok (cm₁, hd, src)) :
    Owned (cm₁.lock hd).1 [hd.node] [] (H.map holding) ∧ OnlyTree cm (cm₁.lock hd).1 ∧
      (cm₁.lock hd).2 = hd ∧ HandleOk p.inputIds p.hasMm hd ∧
      (cm.cacheType = .naive → hd.node = []) ∧ hd.cachedLen < p.inputLen := by
  obtain ⟨hown, ⟨c, n, rfl⟩, hb, hok, hn, hlt⟩ := h.owned.matchReq h.type hm
  obtain ⟨hlock, htree, hsame, -⟩ := hown.lock h.type hb hn
  exact ⟨hlock, OnlyTree.trans ⟨c, n, rfl⟩ htree, hsame, hok, hn, hlt⟩

/-- Seating after the lock: the row reads the matched prefix. -/
theorem matchSeat {a b : PrefillAdder} {cm₁ : CacheManager} {p : PendingReq} {hd : CacheHandle}
    {src : Option Nat} {res : AdmitResource} (h : GenericInv a.cm H)
    (hfree : ∀ x ∈ H, x.1.row ∉ a.tm.freeSlots) (hrow : a.tm.availableSize ≠ 0)
    (hm : a.cm.matchReq p = .ok (cm₁, hd, src))
    (hs : { a with cm := PrefillAdder.ensureStateSlots (cm₁.lock hd).1 }.seat (cm₁.lock hd).2 src =
      .ok (b, res)) :
    Owned b.cm [] [] (⟨res.tableIdx, hd.node, hd.node.length⟩ :: H.map holding) ∧
      b.cm.cacheType = a.cm.cacheType ∧ res.handle = hd ∧ HandleOk p.inputIds p.hasMm hd ∧
      (a.cm.cacheType = .naive → hd.node = []) ∧ hd.cachedLen < p.inputLen ∧
      res.linearSlotIdx = none ∧ res.pingPong = none := by
  obtain ⟨hlock, ⟨c, n, hcm⟩, hsame, hok, hn, hlt⟩ := h.matchLock hm
  rw [hcm] at hlock
  have hgen : CacheManager.IsGeneric { a.cm with prefixCache := c, now := n } := h.type
  rw [hcm, hsame, hgen.ensureStateSlots_eq] at hs
  have hseat := PrefillAdder.seat_ok hs
  have hne : ∀ y ∈ H.map holding, y.row ≠ res.tableIdx := by
    intro y hy
    obtain ⟨x, hx, rfl⟩ := List.mem_map.1 hy
    intro heq
    refine hfree x hx ?_
    rw [show x.1.row = a.tm.allocate.2 from heq.trans hseat.tableIdx]
    exact TableManager.allocate_mem hrow
  obtain ⟨hown, pt, hpt⟩ := hlock.seatRow hne hok.len (Owned.getMatchedIndices_eq hgen hn)
  have hslots := hseat.slots
  rw [hpt] at hslots hown
  have hgen' : CacheManager.IsGeneric
    { a.cm with prefixCache := c, now := n, pageTable := pt } := h.type
  rw [hgen'.allocStateSlots_eq] at hslots
  simp only [Except.ok.injEq, Prod.mk.injEq] at hslots
  obtain ⟨hb, hlive, hpp⟩ := hslots
  rw [← hb]
  exact ⟨hown, rfl, hseat.handle, hok, hn, hlt, hlive.symm, hpp.symm⟩

/-- An admission that comes to nothing. -/
theorem tried {a a' : PrefillAdder} {p : PendingReq} (ht : PrefillAdder.Tried a p a' none)
    (hfree : ∀ x ∈ H, x.1.row ∉ a.tm.freeSlots) (h : GenericInv a.cm H) : GenericInv a'.cm H := by
  cases ht with
  | skipped => exact h
  | unmatched hm =>
      obtain ⟨hown, ⟨c, n, rfl⟩, -⟩ := h.owned.matchReq h.type hm
      exact h.of_owned rfl hown
  | lockRefused hm hu =>
      obtain ⟨hlock, ⟨c, n, hcm⟩, hsame, -, hn, -⟩ := h.matchLock hm
      rw [hcm, hsame] at hu
      rw [hcm] at hlock
      obtain ⟨hunlock, ⟨c', n', rfl⟩, -⟩ := hlock.unlock h.type hn hu
      exact h.of_owned rfl hunlock
  | refused hm hu =>
      obtain ⟨hlock, ⟨c, n, hcm⟩, hsame, -, hn, -⟩ := h.matchLock hm
      have hgen : CacheManager.IsGeneric { a.cm with prefixCache := c, now := n } := h.type
      rw [hcm, hsame, hgen.ensureStateSlots_eq] at hu
      rw [hcm] at hlock
      obtain ⟨hunlock, ⟨c', n', rfl⟩, -⟩ := hlock.unlock h.type hn hu
      exact h.of_owned rfl hunlock
  | undone hrow hm hs hu =>
      obtain ⟨hown, ht, hhd, hok, hn, -, hlive, -⟩ := h.matchSeat hfree hrow hm hs
      obtain ⟨-, cm₂, hunlock, hcm⟩ := PrefillAdder.undo_ok hu
      rw [hlive] at hcm
      rw [hhd] at hunlock
      -- the row gives back nothing but its lock
      have hrel := hown.release
      rw [Owned.pages_nil hrel.pos (hrel.locked.wf.boundary_dvd hrel.boundary)] at hrel
      obtain ⟨hback, ⟨c, n, rfl⟩, -⟩ := hrel.unlock (h.type.of_eq ht) (fun hx => hn (ht ▸ hx)) hunlock
      rw [hcm]
      exact h.of_owned ht hback

theorem admitted {a a' : PrefillAdder} {p : PendingReq}
    (ht : PrefillAdder.Tried a p a' (some r)) (hfree : ∀ x ∈ H, x.1.row ∉ a.tm.freeSlots)
    (h : GenericInv a.cm H) : GenericInv a'.cm ((r, .fresh) :: H) := by
  cases ht with
  | admitted hrow hm hs hcm htm hr =>
      rename_i cm₁ hd src b res
      obtain ⟨hown, ht, hhd, hok, hn, hlt, -, -⟩ := h.matchSeat hfree hrow hm hs
      obtain ⟨⟨n, rfl⟩, -, -⟩ := hr
      rw [← hhd] at hown hok hn
      rw [← hok.len] at hown
      have hle : res.handle.node.length ≤ res.handle.cachedLen + n := by
        rw [hok.len]
        exact Nat.le_add_right _ _
      rw [hcm]
      refine GenericInv.congr (H := []) (G := [_]) h ht hown ?_
      intro x hx
      rw [List.mem_singleton.1 hx]
      exact ⟨hok.take hle, hn⟩

theorem nextChunk {p : PendingReq} {c : Req} (hc : Sys.ChunkOf c p)
    (hb : PrefillAdder.Built p (PrefillAdder.inherited c) c.cachedLen c.mambaNextTrackIdx
      c.swaEvictedSeqlen r) (h : GenericInv cm ((c, .live) :: H)) :
    GenericInv cm ((r, .fresh) :: H) := by
  obtain ⟨⟨n, rfl⟩, -, -⟩ := hb
  obtain ⟨-, -, hids, hmm, -, -⟩ := hc
  have hold := h.owned.ok _ List.mem_cons_self
  have hc := h.handled _ List.mem_cons_self
  refine h.congr (H := [_]) (G := [_]) rfl h.owned fun x hx => ?_
  rw [List.mem_singleton.1 hx]
  have hp := hc.ok.mono hids
  dsimp only at hp
  rw [hmm] at hp
  exact ⟨hp.take (hold.le.trans (Nat.le_add_right _ _)), hc.naive⟩

/-- A batch keeps its handles while it is prepared. -/
theorem prepared {phase : Phase} {stage : Stage} {reqs : List Req} {it : Nat}
    {batch : List (Req × Option Track)} (hst : ∀ r : Req, backed (r, stage) = r.cachedLen)
    (hlen : ∀ r ∈ reqs, r.cachedLen ≤ r.deviceLen)
    (hp : prepareBatch cm phase reqs it = .ok (cm', batch))
    (h : GenericInv cm (reqs.map (·, stage) ++ H)) : GenericInv cm' (launched phase batch ++ H) := by
  have hmap : (reqs.map (·, stage) ++ H).map holding =
      reqs.map (fun r => r.holdingAt r.cachedLen) ++ H.map holding := by
    rw [List.map_append, List.map_map]
    congr 1
    refine List.map_congr_left fun r _ => ?_
    show (⟨_, _, backed (r, stage)⟩ : Holding) = _
    rw [hst]
    rfl
  have ho := h.owned
  rw [hmap] at ho
  obtain ⟨ht, hown⟩ := ho.prepared (evictLaw_generic h.type _ _ _) rfl hlen hp
  refine h.congr ht hown fun x hx => ?_
  obtain ⟨y, hy, rfl⟩ := List.mem_map.1 hx
  obtain ⟨r, hr, e, d, a, l, i, hm⟩ := forall_mem_right (prepareBatch_marked hp) hy
  have hh := h.handled (r, stage) (List.mem_append_left _ (List.mem_map_of_mem hr))
  dsimp only
  rw [hm]
  exact ⟨hh.ok, hh.naive⟩

theorem forward {env : Env} {phase : Phase} {batch : List (Req × Option Track)}
    {out : List (Req × Token)} (hf : forwardBatch env cm phase batch = (cm', out))
    (h : GenericInv cm (launched phase batch ++ H)) :
    GenericInv cm' (out.map (fun x => (x.1, .live)) ++ H) := by
  have hpools := forwardBatch_onlyPools env cm phase batch
  rw [hf] at hpools
  have hlaunched := forwardBatch_launched hf
  have ho := h.owned
  rw [List.map_append, ← map_holding_launched hlaunched] at ho
  refine h.congr hpools.samePages.cacheType (ho.congr hpools.samePages) fun x hx => ?_
  obtain ⟨o, ho, rfl⟩ := List.mem_map.1 hx
  obtain ⟨b, hb, src, l, i, hl⟩ := forall_mem_right hlaunched ho
  have hh := h.handled _ (List.mem_append_left _ (List.mem_map_of_mem hb))
  dsimp only at hh ⊢
  rw [hl]
  exact ⟨hh.ok, hh.naive⟩

theorem host {r' : Req} (hs : SameOnHost r r') (h : GenericInv cm ((r, .live) :: H)) :
    GenericInv cm ((r', .live) :: H) := by
  have hfields : r'.cacheHandle = r.cacheHandle := by rw [hs.fields]
  have hh := h.handled _ List.mem_cons_self
  have hold : holding (r', .live) = holding (r, .live) := by
    show (⟨r'.row, r'.cacheHandle.node, r'.cachedLen⟩ : Holding) = _
    rw [Req.row, hs.tableIdx, hfields, hs.cachedLen]
    rfl
  have ho := h.owned
  rw [List.map_cons, ← hold] at ho
  refine h.congr (H := [_]) (G := [_]) rfl ho fun x hx => ?_
  rw [List.mem_singleton.1 hx]
  refine ⟨?_, ?_⟩
  · rw [hfields, hs.hasMm]
    exact hh.ok.mono hs.host
  · rw [hfields]
    exact hh.naive

theorem commit {f : CacheFields} (hids : r.cachedLen ≤ r.inputIds.length)
    (hc : cm.cacheReq r false = .ok (cm', f)) (h : GenericInv cm ((r, .live) :: H)) :
    GenericInv cm' (({ r with toCacheFields := f }, .live) :: H) := by
  rw [h.type.cacheReq_eq] at hc
  have hh := h.handled _ List.mem_cons_self
  obtain ⟨hown, ht, hok, hn⟩ :=
    Owned.commitGeneric (r := r) h.owned h.type hids hh.ok hh.naive hc
  refine h.congr (H := [_]) (G := [_]) ht hown fun x hx => ?_
  rw [List.mem_singleton.1 hx]
  exact ⟨hok, hn⟩

theorem finish {f : CacheFields} (hids : r.cachedLen ≤ r.inputIds.length)
    (hc : cm.cacheReq r true = .ok (cm', f)) (h : GenericInv cm ((r, .live) :: H)) :
    GenericInv cm' H := by
  rw [h.type.cacheReq_eq] at hc
  have hh := h.handled _ List.mem_cons_self
  obtain ⟨hown, ht⟩ := Owned.finishGeneric (r := r) h.owned h.type hids hh.ok hh.naive hc
  exact h.congr (H := [_]) (G := []) ht hown (by simp)

theorem laws (env : Env) (cfg : Config)
    (hc : cfg.cacheType = .naive ∨ cfg.cacheType = .radix) :
    Laws env cfg (fun _ _ => True) GenericInv where
  init := GenericInv.init hc
  perm := GenericInv.perm
  tried := GenericInv.tried
  admitted := GenericInv.admitted
  nextChunk := fun hc _ hb h => h.nextChunk hc hb
  preparePrefill := by
    intro cm cm' reqs batch it H hshape hp h
    refine h.prepared (fun _ => rfl) (fun r hr => ?_) hp
    exact ((hshape r hr).built (.inl rfl)).1.le
  prepareDecode := by
    intro cm cm' reqs batch it H hshape hp h
    refine h.prepared (fun _ => rfl) (fun r hr => ?_) hp
    have := ((hshape r hr).1.live rfl).1
    exact this ▸ Nat.le_succ _
  forward := fun _ hf h => h.forward hf
  host := fun hs _ h => h.host hs
  commit := fun _ _ hids _ hc h => h.commit hids hc
  finish := fun _ hids hc h => h.finish hids hc
  enterLazy := fun hz h => h.of_owned rfl (h.owned.enterLazy hz)
  exitLazy := fun h => h.of_owned rfl h.owned.exitLazy
  ensureSwa := by
    intro cm H n hs h
    rw [h.type.not_isSwa] at hs
    cases hs
  ensureMamba := by
    intro cm H n hs h
    rw [h.type.not_isHybrid] at hs
    cases hs

end GenericInv

/-! ## Every reachable state -/

namespace CacheManager

/-- The pages that wait for the end of a lazy region. -/
def pendingPages (cm : CacheManager) : List Nat := cm.lazyFreeList.getD []

/-- The pages of the tree. -/
def treePages (cm : CacheManager) : List Nat := bases cm.pageSize cm.prefixCache.nodes

/-- The private part of a held request's row, in pages. -/
def privatePages (cm : CacheManager) (h : Held) : List Nat :=
  stride cm.pageSize (slice (cm.rowOf h.1) h.1.cacheHandle.cachedLen
    (divCeil (backed h) cm.pageSize * cm.pageSize))

/-- The page with base `b` holds the token slot `x`. -/
def OnPage (cm : CacheManager) (b x : Nat) : Prop := b ≤ x ∧ x < b + cm.pageSize

end CacheManager

theorem GenericInv.privatePages_eq {cm : CacheManager} {H : List Held} (h : GenericInv cm H) :
    (H.map holding).flatMap (fun x => x.pages cm.pageSize cm.pageTable) =
      H.flatMap cm.privatePages := by
  rw [List.flatMap_map]
  refine List.flatMap_congr fun x hx => ?_
  rw [CacheManager.privatePages, (h.handled x hx).ok.len]
  rfl

/-- Who owns what in a reachable state of a server with the plain radix cache. -/
theorem radix_page_ownership (env : Env) (cfg : Config) (hc : cfg.cacheType = .radix) (s : Sys)
    (hs : Sys.Reachable env cfg s) :
    (s.cm.freeSlots ++ (s.cm.pendingPages ++ (s.cm.treePages ++
        s.held.flatMap s.cm.privatePages))).Perm
          (CacheManager.pageBases s.cm.numPages s.cm.pageSize) ∧
      (CacheManager.pageBases s.cm.numPages s.cm.pageSize).Nodup ∧
      (s.cm.lazyFreeList = none → s.cm.pendingPages = []) ∧
      (∀ h ∈ s.held, ∀ j < h.1.cacheHandle.cachedLen, ∃ n ∈ s.cm.prefixCache.nodes,
        n.path <+: h.1.inputIds ∧ 0 < n.data.refCount ∧ n.pre.length ≤ j ∧
          n.value[j - n.pre.length]? = some (s.cm.rowOf h.1 j)) ∧
      (∀ h ∈ s.held, ∀ j < h.1.cachedLen, ∀ b ∈ s.cm.freeSlots ++ s.cm.pendingPages,
        ¬ s.cm.OnPage b (s.cm.rowOf h.1 j)) ∧
      (s.running = [] → s.cm.freeSlots.length + s.cm.pendingPages.length +
        s.cm.treePages.length = s.cm.numPages) := by
  have hok := hs.ok (GenericInv.laws env cfg (.inr hc))
  have hinv := hok.inv
  have ho := hinv.owned
  have hnodup := Owned.nodup_pageBases s.cm.numPages ho.pos
  have hperm : (s.cm.freeSlots ++ (s.cm.pendingPages ++ (s.cm.treePages ++
      s.held.flatMap s.cm.privatePages))).Perm
        (CacheManager.pageBases s.cm.numPages s.cm.pageSize) := by
    have hp := ho.perm
    rw [hinv.privatePages_eq] at hp
    exact hp
  refine ⟨hperm, hnodup, ?_, ?_, ?_, ?_⟩
  · intro hz
    rw [CacheManager.pendingPages, hz, Option.getD_none]
  · intro h hh j hj
    have hd := (hinv.handled h hh).ok
    rw [hd.len] at hj
    obtain ⟨n, hn, hpath, href, hle, hval⟩ :=
      ho.row_canonical (x := holding h) (List.mem_map_of_mem hh) hj
    exact ⟨n, hn, hpath.trans hd.ids, href, hle, hval⟩
  · intro h hh j hj b hb
    refine ho.row_not_free (x := holding h) (List.mem_map_of_mem hh) ?_ hb
    exact (Nat.lt_of_lt_of_le hj (hok.shape h hh).cachedLen_le_backed).trans_le (le_divCeil_mul _ ho.pos)
  · intro hnone
    have hlen := hperm.length_eq
    rw [Sys.held_eq_nil hnone] at hlen
    simp only [List.length_append, List.flatMap_nil, List.length_nil, Nat.add_zero,
      CacheManager.pageBases, List.length_map, List.length_range] at hlen
    omega

/-- A model that always samples the same token. -/
def constantEnv : Env where
  sample := fun _ _ => 0
  eosTokenIds := []
  decode := fun _ => ""
  toolcallAnchorId := none
  maxSeqLen := 8
  prefillBudget := 8

/-- A radix server of two one-token pages. -/
def twoPages : Config where
  cacheType := .radix
  numPages := 2
  pageSize := 1
  pageSize_pos := by decide
  pageTable := fun _ _ => 0
  maxRunningReqs := 1
  numSlots := 1
  swaNumTokens := 0
  swaPaged := false
  swaPaged_of_radix := by decide
  slidingWindowSize := 1
  window_pos := by decide
  swaEvictionInterval := 1
  clock := fun n => n

/-- A multimodal request finishes inside a lazy region. -/
def finishInRegion : List Action :=
  [.tryAdd { tokenBudget := 8, reservedSize := 0, reservedSwa := 0 }
      { uid := 0, inputIds := [7], hasMm := true, chunkedReq := none
        samplingParams := { ignoreEos := false, maxTokens := 1, stopStrs := [] } },
    .preparePrefill 0, .forward, .enterLazy, .finish 0]

/-- Inside a lazy region a freed page is on no free list, in no node and in no row. -/
theorem page_pending_in_region : ∃ s, Sys.Reachable constantEnv twoPages s ∧
    ∃ b ∈ CacheManager.pageBases s.cm.numPages s.cm.pageSize,
      b ∉ s.cm.freeSlots ∧ b ∉ s.cm.treePages ∧ b ∉ s.held.flatMap s.cm.privatePages := by
  obtain ⟨s, hs, hp⟩ := Sys.Reachable.of_execs constantEnv twoPages finishInRegion
    (P := fun s => decide (0 ∈ CacheManager.pageBases s.cm.numPages s.cm.pageSize ∧
      0 ∉ s.cm.freeSlots ∧ 0 ∉ s.cm.treePages ∧ 0 ∉ s.held.flatMap s.cm.privatePages)) (by decide +kernel)
  exact ⟨s, hs, 0, of_decide_eq_true hp⟩

theorem radix_page_ownership_finishInRegion : ∃ s, Sys.Reachable constantEnv twoPages s ∧
    s.cm.pendingPages = [0] ∧
      (s.cm.freeSlots ++ (s.cm.pendingPages ++ (s.cm.treePages ++
        s.held.flatMap s.cm.privatePages))).Perm
          (CacheManager.pageBases s.cm.numPages s.cm.pageSize) := by
  obtain ⟨s, hs, hp⟩ := Sys.Reachable.of_execs constantEnv twoPages finishInRegion
    (P := fun s => decide (s.cm.pendingPages = [0])) (by decide +kernel)
  exact ⟨s, hs, of_decide_eq_true hp,
    (radix_page_ownership constantEnv twoPages rfl s hs).1⟩

end FreeToken
