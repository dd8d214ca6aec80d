import FreeToken.Scheduler.HybridOwnership

/-!
# Seating, committing and finishing with the hybrid cache

An admission takes a row and three state slots; a commit donates the frozen ping-pong slot with the
prefix it belongs to; a finish donates up to two slots and gives the rest back.
-/

set_option autoImplicit false

namespace FreeToken

open BlockTrie Blocks

def CacheFields.pingPongSlots (f : CacheFields) : List Nat :=
  (f.mambaPingPong.map fun pp => [pp.1, pp.2]).getD []

/-- The state slots in a request's hands. -/
def CacheFields.stateSlots (f : CacheFields) : List Nat :=
  f.linearSlotIdx.toList ++ f.pingPongSlots

namespace OwnedH

variable {cm cm' : CacheManager} {X : List NodeRef} {P S : List Nat} {H : List Holding}

/-! ## Seating -/

theorem seatRow {hd : CacheHandle} (h : OwnedH cm (hd.node :: X) P S H) {row : Nat}
    (hrow : ∀ y ∈ H, y.row ≠ row) (hlen : hd.cachedLen = hd.node.length)
    (hval : hd.kvIndices = pathValues cm.prefixCache.nodes hd.node) :
    OwnedH (PrefillAdder.seatRow cm row hd) X P S (⟨row, hd.node, hd.node.length⟩ :: H) ∧
      ∃ pt, PrefillAdder.seatRow cm row hd = { cm with pageTable := pt } := by
  have hget : cm.getMatchedIndices hd = pathValues cm.prefixCache.nodes hd.node := by
    unfold CacheManager.getMatchedIndices
    rw [h.snapped.type]
    exact hval
  obtain ⟨hown, pt, hpt⟩ := h.pages.seatRow hrow hlen hget
  refine ⟨?_, pt, hpt⟩
  rw [hpt] at hown ⊢
  exact h.repage hown rfl rfl rfl (by simpa using List.perm_middle.symm)

theorem allocStateSlots {live : Option Nat} {pp : Option (Nat × Nat)} (h : OwnedH cm X P S H)
    (ha : PrefillAdder.allocStateSlots cm = .ok (cm', live, pp)) :
    ∃ l a b, live = some l ∧ pp = some (a, b) ∧ OwnedH cm' X P (l :: a :: b :: S) H ∧
      ∀ L, Kept L cm cm' := by
  unfold PrefillAdder.allocStateSlots at ha
  rw [if_pos (not_generic h.snapped).1] at ha
  obtain ⟨⟨pool, slots⟩, hone, ha⟩ := Py.bind_eq_ok.1 ha
  obtain ⟨⟨pool', slots'⟩, htwo, hret⟩ := Py.bind_eq_ok.1 ha
  cases hret
  obtain ⟨hown, hlen, hst⟩ := h.allocSlots hone
  obtain ⟨hown', hlen', hst'⟩ := OwnedH.allocSlots (n := 2) hown htwo
  obtain ⟨l, rfl⟩ := List.length_eq_one_iff.1 hlen
  obtain ⟨a, b, rfl⟩ := List.length_eq_two.1 hlen'
  refine ⟨l, a, b, rfl, rfl, hown'.slots_perm ?_, fun L => .of_eq rfl (hst'.trans hst)⟩
  rw [List.perm_iff_count]
  intro x
  simp only [List.count_append, List.count_cons, List.count_nil]
  omega

/-- Matching and locking a prefix for an admission, with room made for its state slots. -/
theorem matchLock {cm₁ : CacheManager} {p : PendingReq} {hd : CacheHandle} {src : Option Nat}
    (h : OwnedH cm X P S H) (hm : cm.matchReq p = .ok (cm₁, hd, src)) :
    OwnedH (cm₁.lock hd).1 (hd.node :: X) P S H ∧ OnlyTree cm (cm₁.lock hd).1 ∧
      (cm₁.lock hd).2 = hd ∧ (∀ L, Kept L cm (cm₁.lock hd).1) ∧
      HandleOk p.inputIds p.hasMm hd ∧ hd.cachedLen < p.inputLen ∧
      hd.kvIndices = pathValues (cm₁.lock hd).1.prefixCache.nodes hd.node ∧
      ((hd.node = [] ∧ src = none) ∨
        ∃ s, src = some s ∧ (hd.node, s) ∈ snaps (cm₁.lock hd).1.prefixCache.nodes) := by
  obtain ⟨hown, htree, hkept, hok, hlt, hval, hsnap⟩ := h.matchReq hm
  have hl : Lockable cm₁.prefixCache.nodes hd.node := hsnap.imp And.left fun ⟨s, _, hs⟩ => ⟨s, hs⟩
  obtain ⟨hlock, htree', hsame, hkept'⟩ := hown.lock hd hl
  refine ⟨hlock, htree.trans htree', hsame, fun L => (hkept L).trans (hkept' L), hok, hlt, ?_, ?_⟩
  · have hw := hown.pages.locked.wf
    have hread := (hkept' [hd.node]).reads _ List.mem_cons_self _
      (hw.reads_pathValues hl.boundary)
    rw [← hval] at hread
    refine eq_pathValues hlock.pages.locked.wf hlock.pages.boundary ?_ hread
    rw [hval, hw.length_pathValues hl.boundary]
  · exact hsnap.imp_right fun ⟨s, hs, hmem⟩ =>
      ⟨s, hs, (hkept' [hd.node]).snaps _ hmem List.mem_cons_self⟩

/-- Seating after the lock: the row reads the matched prefix, and the snapshot to restore stays. -/
theorem matchSeat {a b : PrefillAdder} {cm₁ : CacheManager} {p : PendingReq} {hd : CacheHandle}
    {src : Option Nat} {res : AdmitResource} (h : OwnedH a.cm X P S H)
    (hfree : ∀ y ∈ H, y.row ∉ a.tm.freeSlots) (hrow : a.tm.availableSize ≠ 0)
    (hm : a.cm.matchReq p = .ok (cm₁, hd, src))
    (hs : { a with cm := PrefillAdder.ensureStateSlots (cm₁.lock hd).1 }.seat (cm₁.lock hd).2 src =
      .ok (b, res)) :
    ∃ l x y, res.linearSlotIdx = some l ∧ res.pingPong = some (x, y) ∧ res.restoreSrc = src ∧
      res.handle = hd ∧
      OwnedH b.cm X P (l :: x :: y :: S) (⟨res.tableIdx, hd.node, hd.node.length⟩ :: H) ∧
      Kept (X ++ H.map Holding.node) a.cm b.cm ∧ HandleOk p.inputIds p.hasMm hd ∧
      hd.cachedLen < p.inputLen ∧ ((hd.node = [] ∧ src = none) ∨
        ∃ s, src = some s ∧ (hd.node, s) ∈ snaps b.cm.prefixCache.nodes) := by
  obtain ⟨hlock, -, hsame, hkept, hok, hlt, hval, hsnap⟩ := h.matchLock hm
  rw [hsame] at hs
  have hseat := PrefillAdder.seat_ok hs
  generalize (cm₁.lock hd).1 = cm₂ at hlock hkept hval hsnap hs hseat
  obtain ⟨hens, -, hkept'⟩ := hlock.ensureStateSlots
  -- the lock keeps the matched path through the evictions that make room
  have hval' : hd.kvIndices =
      pathValues (PrefillAdder.ensureStateSlots cm₂).prefixCache.nodes hd.node := by
    have hw := hlock.pages.locked.wf
    have hread := hkept'.reads _ List.mem_cons_self _ (hw.reads_pathValues hlock.pages.boundary)
    rw [← hval] at hread
    refine eq_pathValues hens.pages.locked.wf hens.pages.boundary ?_ hread
    rw [hval, hw.length_pathValues hlock.pages.boundary]
  have hne : ∀ y ∈ H, y.row ≠ res.tableIdx := by
    intro y hy heq
    refine hfree y hy ?_
    rw [heq, hseat.tableIdx]
    exact TableManager.allocate_mem hrow
  obtain ⟨hown, pt, hpt⟩ := hens.seatRow hne hok.len hval'
  have hslots := hseat.slots
  dsimp only at hslots
  rw [hpt] at hown hslots
  obtain ⟨l, x, y, hlive, hpp, hown', hkept''⟩ := hown.allocStateSlots hslots
  have hpost : Kept (hd.node :: (X ++ H.map Holding.node)) cm₂ b.cm := by
    refine hkept'.trans (Kept.trans ?_ (hkept'' _))
    exact .of_eq rfl rfl
  refine ⟨l, x, y, hlive, hpp, hseat.restoreSrc, hseat.handle, hown',
    (hkept _).trans (hpost.mono fun _ => List.mem_cons_of_mem _), hok, hlt, ?_⟩
  exact hsnap.imp_right fun ⟨s, hs, hmem⟩ => ⟨s, hs, hpost.snaps _ hmem List.mem_cons_self⟩

/-! ## Inserting a request's prefix -/

theorem insertHybrid_ok {r : Req} {len : Nat} (h : OwnedH cm X P S H) (slot : Nat)
    (hlen : len ≤ r.cachedLen) (hids : r.cachedLen ≤ r.inputIds.length) (hdvd : cm.pageSize ∣ len)
    (hpos : 0 < len) (hpages : ∃ pages, slice (cm.pageTable r.row) 0 len = expand cm.pageSize pages) :
    ∃ c k exist, cm.insertHybrid r len slot =
        ({ cm with prefixCache := c, now := cm.now + 1 + 1 }, k, exist) ∧ c.pageSize = cm.pageSize ∧
      HybridRadixCache.Donated cm.pageSize (X ++ H.map Holding.node) cm.prefixCache.nodes
        (r.inputIds.take len) (slice (cm.pageTable r.row) 0 len) slot c.nodes k exist := by
  have hps : cm.prefixCache.pageSize = cm.pageSize := h.pages.size
  have hlen' : (r.inputIds.take len).length = len := List.length_take_of_le (hlen.trans hids)
  have htake : (slice (cm.pageTable r.row) 0 r.cachedLen).take len =
      slice (cm.pageTable r.row) 0 len := by
    rw [← slice_append (cm.pageTable r.row) (Nat.zero_le _) hlen]
    exact List.take_left' (length_slice _ _ _)
  obtain ⟨hdon, hsize⟩ := HybridRadixCache.insert_spec (hps ▸ h.pages.pos) (hps ▸ h.pages.locked)
    (hps ▸ h.pages.paged) h.snapped.locks (r.inputIds.take len)
    (slice (cm.pageTable r.row) 0 len) (by rw [hlen', length_slice, Nat.sub_zero])
    (by rw [hlen', hps]; exact hdvd) (List.ne_nil_of_length_pos (hlen'.symm ▸ hpos))
    (by rw [hps]; exact hpages) slot (cm.clock cm.now) (cm.clock (cm.now + 1))
  rw [hps] at hdon hsize
  unfold CacheManager.insertHybrid
  dsimp only [CacheManager.tick, CacheManager.rowOf]
  rw [show r.tableIdx.getD 0 = r.row from rfl, htake]
  exact ⟨_, _, _, rfl, hsize, hdon⟩

/-- A request donates a slot with the prefix it belongs to; its pages up to the walk's end and past
the prefix are loose. -/
theorem donatePrefix {r : Req} {len slot : Nat}
    (h : OwnedH cm X P (slot :: S) (r.holdingAt r.cachedLen :: H))
    (hnode : r.cacheHandle.node <+: r.inputIds) (hle : r.cacheHandle.node.length ≤ len)
    (hlen : len ≤ r.cachedLen) (hids : r.cachedLen ≤ r.inputIds.length) (hdvd : cm.pageSize ∣ len)
    (hpos : 0 < len) (hstate : cm.linearStatePool.states slot = r.inputIds.take len) :
    ∃ cm₁ k exist, cm.insertHybrid r len slot = (cm₁, k, exist) ∧ OnlyTree cm cm₁ ∧
      r.cacheHandle.node.length ≤ k ∧
      HybridRadixCache.Donated cm.pageSize (r.cacheHandle.node :: X ++ H.map Holding.node)
        cm.prefixCache.nodes (r.inputIds.take len) (slice (cm.pageTable r.row) 0 len) slot
        cm₁.prefixCache.nodes k exist ∧
      OwnedH cm₁ (r.cacheHandle.node :: X)
        (stride cm.pageSize (slice (cm.pageTable r.row) r.cacheHandle.node.length k) ++
          (stride cm.pageSize (slice (cm.pageTable r.row) len
            (divCeil r.cachedLen cm.pageSize * cm.pageSize)) ++ P))
        (if exist then slot :: S else S) H ∧
      ∀ L, Kept L cm cm₁ := by
  have hpages := h.pages.paged_prefix (x := r.holdingAt r.cachedLen)
    (hlen.trans (le_divCeil_mul _ h.pages.pos)) hdvd
  obtain ⟨c, k, exist, heq, hsize, hdon⟩ := h.release.insertHybrid_ok slot hlen hids hdvd hpos
    hpages
  have hlen' : (r.inputIds.take len).length = len := List.length_take_of_le (hlen.trans hids)
  obtain ⟨hk, hown⟩ := h.pages.committed (x := r.holdingAt r.cachedLen)
    (List.prefix_take_iff.2 ⟨hnode, hle⟩) (by rw [hlen']; exact hlen) (by rw [hlen']; exact hdvd)
    (by rw [hlen']; exact hdon.inserted) hsize
  rw [hlen'] at hown
  obtain ⟨hown', hkept⟩ := h.release.donated (n := cm.now + 1 + 1) hdon hstate hown
  exact ⟨_, k, exist, heq, ⟨_, _, rfl⟩, hk, hdon, hown', hkept⟩

/-! ## Finishing -/

theorem slots_nodup (h : OwnedH cm X P S H) : S.Nodup := by
  have hall := h.snapped.slots.nodup_iff.2 List.nodup_range'
  exact (List.nodup_append.1 (List.nodup_append.1 hall).2.1).2.1

theorem pendingFreeze_eq {r : Req} {len : Nat} {pp : Nat × Nat}
    (h : cm.pendingFreeze r = some (len, pp)) : r.mambaLastTrackSeqlen = some len ∧
      r.mambaPingPong = some pp ∧ 0 < len ∧ len ≤ r.cachedLen ∧ cm.pageSize ∣ len := by
  unfold CacheManager.pendingFreeze at h
  split at h
  · rename_i l p hl hp
    split at h
    · rename_i hcond
      cases h
      exact ⟨hl, hp, hcond.1, hcond.2.1, hcond.2.2 ▸ dvd_alignDown _ _⟩
    · cases h
  · cases h

/-- The frozen slot of a ping-pong pair and the other one. -/
theorem pingPong_other (x y idx : Nat) (hne : x ≠ y) : ∃ other,
    [x, y].Perm [CacheManager.pingPongSlot (x, y) idx, other] ∧
      [x, y].filter (fun s => false || decide (s ≠ CacheManager.pingPongSlot (x, y) idx)) =
        [other] := by
  unfold CacheManager.pingPongSlot
  split
  · exact ⟨y, List.Perm.refl _, by simp [hne.symm]⟩
  · exact ⟨x, List.Perm.swap _ _ _, by simp [hne]⟩

/-- The first insert of a finish leaves the row's pages past the frontier `u` loose. -/
theorem finishFreeze_ok {r : Req} {live x y : Nat}
    (h : OwnedH cm X P (live :: x :: y :: S) (r.holdingAt r.cachedLen :: H))
    (hok : HandleOk r.inputIds r.hasMm r.cacheHandle) (hids : r.cachedLen ≤ r.inputIds.length)
    (hpp : r.mambaPingPong = some (x, y))
    (hfrozen : ∀ len, r.mambaLastTrackSeqlen = some len → r.cacheHandle.node.length ≤ len ∧
      cm.linearStatePool.states (CacheManager.pingPongSlot (x, y) (1 - r.mambaNextTrackIdx)) =
        r.inputIds.take len) :
    ∃ cm₁ f u, cm.finishFreeze r = (cm₁, f, u) ∧ f.linearSlotIdx = r.linearSlotIdx ∧
      OwnedH cm₁ (r.cacheHandle.node :: X) (stride cm.pageSize (slice (cm.pageTable r.row) u
        (divCeil r.cachedLen cm.pageSize * cm.pageSize)) ++ P) (live :: (f.pingPongSlots ++ S)) H ∧
      u ≤ r.cachedLen ∧ cm.pageSize ∣ u ∧ Boundary cm₁.prefixCache.nodes (r.inputIds.take u) ∧
      Recycled cm cm₁ ∧ ∀ L, Kept L cm cm₁ := by
  have hx := h.pages.ok _ List.mem_cons_self
  have hb := h.pages.locked.bound r.cacheHandle.node
    (List.mem_append_right _ List.mem_cons_self)
  unfold CacheManager.finishFreeze
  dsimp only
  rcases hpend : cm.pendingFreeze r with _ | ⟨len, pp⟩
  · refine ⟨cm, r.toCacheFields, r.cacheHandle.cachedLen, rfl, rfl, ?_, ?_, ?_, ?_, .refl cm,
      fun L => .refl cm⟩
    · rw [CacheFields.pingPongSlots, hpp, hok.len]
      exact h.release
    · rw [hok.len]
      exact hx.le
    · rw [hok.len]
      exact h.pages.locked.wf.boundary_dvd hb
    · rw [hok.len, ← List.prefix_iff_eq_take.1 hok.ids]
      exact hb
  · obtain ⟨hlast, hpp', hpos, hlen, hdvd⟩ := pendingFreeze_eq hpend
    rw [hpp] at hpp'
    cases hpp'
    obtain ⟨hle, hstate⟩ := hfrozen len hlast
    have hnd := h.slots_nodup
    have hne : x ≠ y := fun he => by
      rw [he] at hnd
      simp at hnd
    obtain ⟨other, hperm, hfilter⟩ := pingPong_other x y (1 - r.mambaNextTrackIdx) hne
    dsimp only
    generalize CacheManager.pingPongSlot (x, y) (1 - r.mambaNextTrackIdx) = frozen
      at hstate hperm hfilter ⊢
    have hS : (live :: x :: y :: S).Perm (frozen :: other :: live :: S) := by
      rw [List.perm_iff_count] at hperm ⊢
      intro a
      have := hperm a
      simp only [List.count_cons, List.count_nil] at this ⊢
      omega
    obtain ⟨cm₁, k, exist, heq, ⟨c, n, rfl⟩, hk, hdon, hown, hkept⟩ :=
      (h.slots_perm hS).donatePrefix hok.ids hle hlen hids hdvd hpos hstate
    have hslots : (if exist then frozen :: other :: live :: S else other :: live :: S).Perm
        ([x, y].filter (fun s => exist || decide (s ≠ frozen)) ++ (live :: S)) := by
      cases exist with
      | true =>
          simp only [Bool.true_or, List.filter_true, if_true]
          exact (hperm.symm.append_right (live :: S) :)
      | false =>
          rw [hfilter]
          exact List.Perm.refl _
    have hfreed := hown.freeSlots hslots
    have hmax : max r.cacheHandle.cachedLen k = k := by
      rw [hok.len]
      exact Nat.max_eq_right hk
    have hback := hfreed.free (slice (cm.rowOf r) r.cacheHandle.cachedLen k) (by rw [hok.len]; exact List.Perm.refl _)
    rw [heq]
    dsimp only
    rw [hmax]
    refine ⟨_, { r.toCacheFields with mambaPingPong := none }, len, ?_, rfl, hback, hlen, hdvd, ?_,
      ?_, ?_⟩
    · rw [hok.len, Nat.max_eq_right hle]
      rfl
    · obtain ⟨p, fs, lz, hfreed⟩ := free_onlyFreed _ _
      rw [hfreed]
      exact hdon.inserted.bound
    · exact Recycled.trans ⟨c, _, _, _, n, rfl⟩ (free_recycled _ _)
    · intro L
      refine ((hkept L).trans (Kept.trans ?_ (.free L _ _)))
      exact .of_eq rfl rfl

/-- The last step of a finish gives back the ping-pong pair and, unless the tree took it, the live
slot. -/
theorem freeReqSlots {f : CacheFields} {live : Nat} (keepLive : Bool) {S' : List Nat}
    (h : OwnedH cm X P S' H) (hlive : f.linearSlotIdx = some live)
    (hS : S' = if keepLive then f.pingPongSlots ++ S else live :: (f.pingPongSlots ++ S)) :
    OwnedH (cm.freeReqSlots f keepLive).1 X P S H ∧ ∀ L, Kept L cm (cm.freeReqSlots f keepLive).1 := by
  have heq : (cm.freeReqSlots f keepLive).1 = { cm with
      linearStatePool := cm.linearStatePool.free
        (f.pingPongSlots ++ if keepLive then [] else f.linearSlotIdx.toList) } := by
    unfold CacheManager.freeReqSlots CacheFields.pingPongSlots
    rcases f.mambaPingPong with _ | ⟨a, b⟩ <;> rfl
  rw [heq, hlive]
  refine ⟨h.freeSlots ?_, fun L => .of_eq rfl rfl⟩
  rw [hS]
  cases keepLive with
  | true => simp
  | false =>
      rw [List.perm_iff_count]
      intro a
      simp only [Bool.false_eq_true, if_false, Option.toList_some, List.count_append,
        List.count_cons, List.count_nil]
      omega

/-- A finished text request gives back its pages and slots but those the tree takes. -/
theorem finishHybrid_ok {r : Req} {f : CacheFields} {live x y : Nat}
    (h : OwnedH cm X P (live :: x :: y :: S) (r.holdingAt r.cachedLen :: H))
    (hok : HandleOk r.inputIds r.hasMm r.cacheHandle) (hids : r.cachedLen ≤ r.inputIds.length)
    (hlive : r.linearSlotIdx = some live) (hpp : r.mambaPingPong = some (x, y))
    (hfrozen : ∀ len, r.mambaLastTrackSeqlen = some len → r.cacheHandle.node.length ≤ len ∧
      cm.linearStatePool.states (CacheManager.pingPongSlot (x, y) (1 - r.mambaNextTrackIdx)) =
        r.inputIds.take len)
    (hstate : 0 < r.cachedLen → cm.linearStatePool.states live = r.inputIds.take r.cachedLen)
    (hc : cm.finishHybrid r = .ok (cm', f)) :
    OwnedH cm' X P S H ∧ Kept (X ++ H.map Holding.node) cm cm' := by
  obtain ⟨cm₁, f₁, u, heq, hf₁, hown, hu, hdvd, hb, ⟨c, l, fs, lz, n, rfl⟩, hkept⟩ :=
    h.finishFreeze_ok hok hids hpp hfrozen
  rw [hlive] at hf₁
  unfold CacheManager.finishHybrid at hc
  rw [heq] at hc
  dsimp only at hc
  split at hc
  · rename_i hcond
    obtain ⟨halign, hpos⟩ := hcond
    rw [halign] at hc hpos
    have hdvd' : cm.pageSize ∣ r.cachedLen := halign ▸ dvd_alignDown _ _
    have hlen : (r.inputIds.take r.cachedLen).length = r.cachedLen := List.length_take_of_le hids
    rw [hf₁] at hc
    dsimp only at hc
    obtain ⟨c', k, exist, hins, hsize, hdon⟩ := hown.insertHybrid_ok live le_rfl hids hdvd' hpos
      (h.pages.paged_prefix (x := r.holdingAt r.cachedLen) (le_divCeil_mul _ h.pages.pos) hdvd')
    rw [hins] at hc
    dsimp only at hc
    have hk : u ≤ k ∧ k ≤ r.cachedLen := by
      refine ⟨hdon.inserted.longest u (hlen.symm ▸ hu) ?_, hlen ▸ hdon.inserted.le⟩
      rw [List.take_take, Nat.min_eq_left hu]
      exact hb
    -- the loose pages past the frontier: dups of the tree's, then those the tree takes
    have hsplit : stride cm.pageSize (slice (cm.pageTable r.row) u
        (divCeil r.cachedLen cm.pageSize * cm.pageSize)) ++ P =
        stride cm.pageSize (slice (cm.pageTable r.row) u k) ++
          stride cm.pageSize ((slice (cm.pageTable r.row) 0 r.cachedLen).drop k) ++ P := by
      have hdrop : (slice (cm.pageTable r.row) 0 r.cachedLen).drop k =
          slice (cm.pageTable r.row) k r.cachedLen := by
        rw [← slice_append _ (Nat.zero_le k) hk.2]
        exact List.drop_left' (length_slice _ _ _)
      rw [hdrop, divCeil_mul_of_dvd h.pages.pos hdvd', ← slice_append _ hk.1 hk.2,
        stride_append h.pages.pos]
      rw [length_slice]
      exact Nat.dvd_sub hdon.inserted.dvd hdvd
    rw [hsplit] at hown
    have hins' := hown.pages.inserted hdon.inserted hsize (show List.Perm _
      (_ ++ (stride cm.pageSize (slice (cm.pageTable r.row) u k) ++ P)) by
        rw [List.append_assoc]
        exact List.perm_append_comm_assoc _ _ _)
    obtain ⟨hown₁, hkept₁⟩ := hown.donated (n := n + 1 + 1) hdon
      ((congrFun (hkept []).states live).trans (hstate hpos)) hins'
    obtain ⟨cm₂, hu₂, hret⟩ := Py.bind_eq_ok.1 hc
    obtain ⟨hown₂, ⟨c₂, n₂, rfl⟩, hkept₂⟩ := hown₁.unlock hu₂
    rw [Nat.max_eq_right hk.1] at hret
    have hback := hown₂.free (slice (cm.rowOf r) u k) (List.Perm.refl _)
    have hfinal := OwnedH.freeReqSlots (!exist) (S := S) hback hf₁
      (by cases exist <;> rfl)
    rw [Py.pure_eq_ok] at hret
    have hcm : (CacheManager.freeReqSlots _ f₁ (!exist)).1 = cm' := congrArg Prod.fst hret
    rw [← hcm]
    refine ⟨hfinal.1, ((hkept _).trans ((hkept₁ _).trans (hkept₂ _))).trans ?_⟩
    exact (Kept.free _ _ _).trans (hfinal.2 _)
  · obtain ⟨cm₂, hu₂, hret⟩ := Py.bind_eq_ok.1 hc
    obtain ⟨hown₂, ⟨c', n', rfl⟩, hkept₂⟩ := hown.unlock hu₂
    rw [stride_slice_divCeil _ h.pages.pos hdvd hu] at hown₂
    have hback := hown₂.free (slice (cm.rowOf r) u r.cachedLen) (List.Perm.refl _)
    have hfinal := OwnedH.freeReqSlots false (S := S) hback hf₁ rfl
    rw [Py.pure_eq_ok] at hret
    have hcm : (CacheManager.freeReqSlots _ f₁ false).1 = cm' := congrArg Prod.fst hret
    rw [← hcm]
    exact ⟨hfinal.1, ((hkept _).trans (hkept₂ _)).trans ((Kept.free _ _ _).trans (hfinal.2 _))⟩

/-! ## The prefill commit -/

/-- Seating a request: a lock and loose pages become its holding. -/
theorem seat {x : Holding} (h : OwnedH cm (x.node :: X) (x.pages cm.pageSize cm.pageTable ++ P) S H)
    (hok : x.Ok cm.pageSize cm.prefixCache.nodes cm.pageTable) (hrow : ∀ y ∈ H, y.row ≠ x.row) :
    OwnedH cm X P S (x :: H) :=
  h.repage (h.pages.seat hok hrow (List.Perm.refl _)) rfl rfl rfl
    (by simpa using List.perm_middle.symm)

/-- A row keeps what it holds of a path while the tree keeps every reading of it. -/
theorem readsAt_kept {L : List NodeRef} {ids : NodeRef} (h : Owned cm X P H)
    (hb : Boundary cm.prefixCache.nodes ids) (hkept : Kept (ids :: L) cm cm') {i x : Nat}
    (hi : i < ids.length) (hx : ReadsAt cm.prefixCache.nodes ids i x) :
    ReadsAt cm'.prefixCache.nodes ids i x :=
  h.locked.wf.readsAt_of_reads hb (fun _ => hkept.reads ids List.mem_cons_self _) hi hx

/-- A ping-pong pair after its frozen slot was replaced. -/
theorem setPingPong_perm (x y idx : Nat) : ∃ other,
    [x, y].Perm [CacheManager.pingPongSlot (x, y) idx, other] ∧ ∀ slot,
      [(CacheManager.setPingPong (x, y) idx slot).1,
        (CacheManager.setPingPong (x, y) idx slot).2].Perm [slot, other] := by
  unfold CacheManager.pingPongSlot CacheManager.setPingPong
  split
  · exact ⟨y, List.Perm.refl _, fun _ => List.Perm.refl _⟩
  · exact ⟨x, List.Perm.swap _ _ _, fun _ => List.Perm.swap _ _ _⟩

/-- The re-match of a commit finds the committed node; the row is re-pointed at it and locks it. -/
theorem rematch {r : Req} {ids : NodeRef} {n k s tic : Nat} {c : PrefixCache} {m : HybridMatch}
    (now : Nat) (hd : CacheHandle) (h : OwnedH cm X (stride cm.pageSize (slice (cm.pageTable r.row) ids.length
      (divCeil r.cachedLen cm.pageSize * cm.pageSize)) ++ P) S H)
    (hs : (ids, s) ∈ snaps cm.prefixCache.nodes) (hrow : ∀ y ∈ H, y.row ≠ r.row)
    (hids : ids.length ≤ r.cachedLen) (hk : k ≤ ids.length)
    (hread : ∀ i < ids.length, i < n ∨ k ≤ i →
      ReadsAt cm.prefixCache.nodes ids i (cm.pageTable r.row i))
    (hpaged : ∃ pages, slice (cm.pageTable r.row) ids.length
      (divCeil r.cachedLen cm.pageSize * cm.pageSize) = expand cm.pageSize pages)
    (hm : HybridRadixCache.matchPrefix cm.prefixCache ids tic = (c, m)) (hnode : hd.node = m.node) :
    m.node = ids ∧ m.cachedLen = ids.length ∧ ∃ cm', CacheManager.lock
        (CacheManager.repoint { cm with prefixCache := c, now := now } r n k m.kvIndices) hd =
          (cm', hd) ∧
      OwnedH cm' X P S (⟨r.row, ids, r.cachedLen⟩ :: H) ∧ ∀ L, Kept L cm cm' := by
  have hps : cm.prefixCache.pageSize = cm.pageSize := h.pages.size
  obtain ⟨hmatch, hsize⟩ := HybridRadixCache.matchPrefix_spec (hps ▸ h.pages.pos)
    (hps ▸ h.pages.locked.wf) ids tic
  have hfull := (HybridRadixCache.matchPrefix_full (hps ▸ h.pages.pos) (hps ▸ h.pages.locked.wf)
    hs tic).1
  rw [hm] at hmatch hsize hfull
  rw [hps] at hmatch hsize
  dsimp only at hmatch hsize hfull
  obtain ⟨hown, hkept⟩ := h.reshape (n := now) hmatch.reshape hsize
  have hs' : (m.node, s) ∈ snaps c.nodes := by
    rw [hfull]
    exact (hkept [ids]).snaps _ hs List.mem_cons_self
  have hb : Boundary c.nodes ids := hfull ▸ hmatch.bound
  have hb₀ : Boundary cm.prefixCache.nodes ids := Lockable.boundary (.inr ⟨s, hs⟩)
  have hlen : m.cachedLen = ids.length := by rw [hmatch.cachedLen, hfull]
  refine ⟨hfull, hlen, ?_⟩
  have hval : m.kvIndices = pathValues c.nodes ids := by rw [hmatch.values, hfull]
  obtain ⟨pt, hpt, hrep, hok⟩ := hown.pages.repointed (n := n) hb hrow hids hk
    (fun i hi hcase => readsAt_kept h.pages hb₀ (hkept [ids]) hi (hread i hi hcase)) hpaged
  have hrep' := hown.repage hrep rfl rfl rfl (List.Perm.refl _)
  rw [hval, hpt]
  rw [hfull] at hnode
  obtain ⟨hlock, ⟨c', n', hcm⟩, hsame, hkept'⟩ := hrep'.lock hd
    (.inr ⟨s, by rw [hnode, ← hfull]; exact hs'⟩)
  generalize CacheManager.lock _ hd = res at hlock hcm hsame hkept' ⊢
  obtain ⟨cm', hd'⟩ := res
  dsimp only at hlock hcm hsame hkept'
  refine ⟨cm', by rw [hsame], ?_, fun L => (hkept L).trans (Kept.trans ?_ (hkept' L))⟩
  · have hreads := (hkept' [ids]).reads ids List.mem_cons_self _ hok.reads
    subst hcm
    rw [hnode] at hlock
    exact hlock.seat (x := ⟨r.row, ids, r.cachedLen⟩) ⟨hok.le, hreads, hok.paged⟩ hrow
  · exact .of_eq rfl rfl

/-- A committed prompt keeps its live slot, its pages past the commit and a full ping-pong pair. -/
theorem commitHybrid_ok {r : Req} {f : CacheFields} {live x y : Nat}
    (h : OwnedH cm X P (live :: x :: y :: S) (r.holdingAt r.cachedLen :: H))
    (hok : HandleOk r.inputIds r.hasMm r.cacheHandle) (hmm : r.hasMm = false)
    (hids : r.cachedLen ≤ r.inputIds.length) (hpp : r.mambaPingPong = some (x, y))
    (hfrozen : ∀ len, r.mambaLastTrackSeqlen = some len → 0 < len ∧ len ≤ r.cachedLen ∧
      r.cacheHandle.node.length ≤ len ∧
      cm.linearStatePool.states (CacheManager.pingPongSlot (x, y) (1 - r.mambaNextTrackIdx)) =
        r.inputIds.take len)
    (hc : cm.commitHybrid r = .ok (cm', f)) :
    ∃ x' y' hd, f = { r.toCacheFields with
        cacheHandle := hd, mambaLastTrackSeqlen := none, mambaPingPong := some (x', y') } ∧
      HandleOk r.inputIds r.hasMm hd ∧
      OwnedH cm' X P (live :: x' :: y' :: S) (⟨r.row, hd.node, r.cachedLen⟩ :: H) ∧
      Kept (X ++ H.map Holding.node) cm cm' := by
  unfold CacheManager.commitHybrid at hc
  split at hc
  · rename_i hlast
    cases hc
    refine ⟨x, y, r.cacheHandle, ?_, hok, h, .refl cm⟩
    rw [← hlast, ← hpp]
  · rename_i len hlast
    split at hc
    · cases hc
      refine ⟨x, y, r.cacheHandle, ?_, hok, h, .refl cm⟩
      rw [← hpp]
    rename_i halign
    rw [ne_eq, Decidable.not_not] at halign
    obtain ⟨hpos, hlen, hle, hstate⟩ := hfrozen len hlast
    rw [hpp] at hc
    dsimp only at hc
    obtain ⟨other, hperm, hset⟩ := setPingPong_perm x y (1 - r.mambaNextTrackIdx)
    generalize CacheManager.pingPongSlot (x, y) (1 - r.mambaNextTrackIdx) = frozen
      at hc hstate hperm
    have hS : (live :: x :: y :: S).Perm (frozen :: other :: live :: S) := by
      rw [List.perm_iff_count] at hperm ⊢
      intro a
      have := hperm a
      simp only [List.count_cons, List.count_nil] at this ⊢
      omega
    obtain ⟨cm₁, k, exist, heq, ⟨c, n, rfl⟩, hk, hdon, hown, hkept⟩ :=
      (h.slots_perm hS).donatePrefix hok.ids hle hlen hids (halign ▸ dvd_alignDown _ _) hpos hstate
    rw [heq] at hc
    dsimp only at hc
    obtain ⟨cm₂, hu, hret⟩ := Py.bind_eq_ok.1 hc
    obtain ⟨hown₂, ⟨c₂, n₂, rfl⟩, hkept₂⟩ := hown.unlock hu
    have hids' : (r.inputIds.take len).length = len := List.length_take_of_le (hlen.trans hids)
    have hfree := hown₂.free (slice (cm.rowOf r) r.cacheHandle.cachedLen k)
      (by rw [hok.len]; exact List.Perm.refl _)
    obtain ⟨s, hs⟩ := hdon.found
    have hup : len ≤ divCeil r.cachedLen cm.pageSize * cm.pageSize :=
      hlen.trans (le_divCeil_mul _ h.pages.pos)
    have hback : Kept [r.inputIds.take len] { cm with prefixCache := c, now := n }
        (CacheManager.free { cm with prefixCache := c₂, now := n₂ }
          (slice (cm.rowOf r) r.cacheHandle.cachedLen k)) := (hkept₂ _).trans (.free _ _ _)
    have hreads : ∀ i < (r.inputIds.take len).length, i < r.cacheHandle.node.length ∨ k ≤ i →
        ReadsAt (CacheManager.free { cm with prefixCache := c₂, now := n₂ }
          (slice (cm.rowOf r) r.cacheHandle.cachedLen k)).prefixCache.nodes (r.inputIds.take len) i
          (cm.pageTable r.row i) := fun i hi hcase =>
      readsAt_kept hown.pages hdon.inserted.bound hback hi (h.pages.committed_reads
        (x := r.holdingAt r.cachedLen) (List.prefix_take_iff.2 ⟨hok.ids, hle⟩)
        (by rw [hids']; exact hdon.inserted) i hi hcase)
    have hs' := hback.snaps _ hs List.mem_cons_self
    have hkept₃ : ∀ L, Kept L cm (CacheManager.free { cm with prefixCache := c₂, now := n₂ }
        (slice (cm.rowOf r) r.cacheHandle.cachedLen k)) := fun L =>
      ((hkept L).trans (hkept₂ L)).trans (.free _ _ _)
    obtain ⟨p, fs, lz, hfreed⟩ := free_onlyFreed { cm with prefixCache := c₂, now := n₂ }
      (slice (cm.rowOf r) r.cacheHandle.cachedLen k)
    rw [show CacheManager.rowOf { cm with prefixCache := c₂, now := n₂ } r = cm.rowOf r from rfl]
      at hret
    generalize CacheManager.free { cm with prefixCache := c₂, now := n₂ }
      (slice (cm.rowOf r) r.cacheHandle.cachedLen k) = cm₃ at hret hfree hs' hreads hfreed hkept₃
    have hpt : cm₃.pageTable = cm.pageTable ∧ cm₃.pageSize = cm.pageSize := by
      rw [hfreed]
      exact ⟨rfl, rfl⟩
    rw [← hpt.1] at hreads
    have hrows := h.pages.row_ne
    dsimp only [CacheManager.tick] at hret
    generalize hm : HybridRadixCache.matchPrefix cm₃.prefixCache (r.inputIds.take len)
      (cm₃.clock cm₃.now) = res at hret
    obtain ⟨c₄, m⟩ := res
    dsimp only at hret
    obtain ⟨hnode, hmlen, cm₄, hlock, hown₄, hkept₄⟩ := OwnedH.rematch (r := r) (P := P)
      (n := r.cacheHandle.cachedLen) (cm₃.now + 1)
      { cachedLen := m.cachedLen, node := m.node, kvIndices := m.kvIndices, swaUuid := none }
      (by rw [hids', hpt.1, hpt.2]; exact hfree) hs' hrows (by rw [hids']; exact hlen)
      hdon.inserted.le (by rw [hok.len]; exact hreads) (by
        rw [hids', hpt.1, hpt.2]
        exact h.pages.paged_slice hup le_rfl (halign ▸ dvd_alignDown _ _) (dvd_divCeil_mul _ _))
      hm rfl
    rw [hlock] at hret
    dsimp only at hret
    have hkept' : Kept (X ++ H.map Holding.node) cm cm₄ := (hkept₃ _).trans (hkept₄ _)
    generalize hhd : CacheHandle.mk m.cachedLen m.node m.kvIndices none = hd at hret
    have hhdnode : hd.node = r.inputIds.take len := by rw [← hhd, ← hnode]
    have hok' : HandleOk r.inputIds r.hasMm hd :=
      ⟨by rw [hhdnode, ← hmlen, ← hhd], by rw [hhdnode]; exact List.take_prefix _ _, by simp [hmm]⟩
    rw [← hhdnode] at hown₄
    cases exist with
    | true =>
        cases hret
        refine ⟨x, y, _, by rw [← hpp], hok', hown₄.slots_perm hS.symm, hkept'⟩
    | false =>
        obtain ⟨⟨pool, slots⟩, halloc, hret⟩ := Py.bind_eq_ok.1 hret
        obtain ⟨hown₅, -, hkept₅⟩ := hown₄.ensureMambaSlots 1
        obtain ⟨hown₆, hslots, hst⟩ := hown₅.allocSlots halloc
        obtain ⟨slot, rfl⟩ := List.length_eq_one_iff.1 hslots
        rw [List.headD_cons, Py.pure_eq_ok, Prod.mk.injEq] at hret
        obtain ⟨rfl, rfl⟩ := hret
        refine ⟨(CacheManager.setPingPong (x, y) (1 - r.mambaNextTrackIdx) slot).1,
          (CacheManager.setPingPong (x, y) (1 - r.mambaNextTrackIdx) slot).2, hd, rfl, hok', hown₆.slots_perm ?_, ?_⟩
        · have := hset slot
          rw [List.perm_iff_count] at this ⊢
          intro a
          have := this a
          simp only [Bool.false_eq_true, if_false, List.count_append,
            List.count_cons, List.count_nil] at this ⊢
          omega
        · refine hkept'.trans ((hkept₅.mono fun l hl => ?_).trans (.of_eq rfl hst))
          rw [List.map_cons]
          rcases List.mem_append.1 hl with hl | hl
          · exact List.mem_append_left _ hl
          · exact List.mem_append_right _ (List.mem_cons_of_mem _ hl)

end OwnedH

end FreeToken
