import FreeToken.Scheduler.HybridCommit
import FreeToken.Scheduler.Invariant

/-!
# The hybrid cache over every interleaving

`HybridInv` adds to the ownership of pages and slots what is known of each running request: the
state its live slot holds, the snapshot it is about to restore and the frozen ping-pong slot with
the length it belongs to.
-/

set_option autoImplicit false

namespace FreeToken

open BlockTrie Blocks

def Held.node (h : Held) : NodeRef := h.1.cacheHandle.node

def Held.stateSlots (h : Held) : List Nat := h.1.stateSlots

/-- A request that is built but not launched. -/
def Held.Waiting (h : Held) : Prop := h.2 = .fresh ∨ ∃ tr, h.2 = .prepared .prefill tr

/-- A request whose last forward left a state in its live slot. -/
def Held.Stepped (h : Held) : Prop := h.2 = .live ∨ ∃ tr, h.2 = .prepared .decode tr

/-- The ping-pong slot the last track wrote. -/
def frozenSlot (f : CacheFields) : Nat :=
  CacheManager.pingPongSlot (f.mambaPingPong.getD (0, 0)) (1 - f.mambaNextTrackIdx)

/-- What the hybrid cache knows of a running request. -/
structure Recurrent (cm : CacheManager) (h : Held) : Prop where
  handle : HandleOk h.1.inputIds h.1.hasMm h.1.cacheHandle
  le : h.node.length ≤ h.1.cachedLen
  slots : h.1.linearSlotIdx.isSome = true ∧ h.1.mambaPingPong.isSome = true
  idx : h.1.mambaNextTrackIdx ≤ 1
  restore : ∀ src, h.1.mambaRestoreSrc = some src → h.Waiting ∧
    (h.node, src) ∈ snaps cm.prefixCache.nodes ∧ h.1.cachedLen = h.node.length
  state : h.1.mambaRestoreSrc = none → h.1.cachedLen ≠ 0 → ∀ live, h.1.linearSlotIdx = some live →
    cm.linearStatePool.states live = h.1.deviceIds.take h.1.cachedLen
  untracked : (h.2 = .fresh ∨ h.2 = .prepared .prefill none) → h.1.mambaLastTrackSeqlen = none
  tracked : ∀ t, h.2 = .prepared .prefill (some t) → t.dst = frozenSlot h.1.toCacheFields ∧
    h.1.mambaLastTrackSeqlen = some t.boundary ∧ h.1.cachedLen < t.boundary ∧
      t.boundary ≤ h.1.deviceLen
  decoding : ∀ tr, h.2 = .prepared .decode tr → tr = none
  frozen : h.Stepped → 0 < h.1.cachedLen ∧ ∀ len, h.1.mambaLastTrackSeqlen = some len →
    0 < len ∧ len ≤ h.1.cachedLen ∧ h.node.length ≤ len ∧
      cm.linearStatePool.states (frozenSlot h.1.toCacheFields) = h.1.deviceIds.take len

/-- Only a request that waits for its launch has a snapshot to restore. -/
theorem Recurrent.restore_none {cm : CacheManager} {h : Held} (hr : Recurrent cm h)
    (hw : ¬ h.Waiting) : h.1.mambaRestoreSrc = none := by
  rcases hsrc : h.1.mambaRestoreSrc with _ | src
  · rfl
  · exact absurd (hr.restore src hsrc).1 hw

theorem not_waiting_live (r : Req) : ¬ Held.Waiting (r, .live) := by
  rintro (ht | ⟨tr, ht⟩) <;> cases ht

theorem not_waiting_decode (r : Req) (tr : Option Track) :
    ¬ Held.Waiting (r, .prepared .decode tr) := by
  rintro (ht | ⟨tr, ht⟩) <;> cases ht

theorem Recurrent.kept {cm cm' : CacheManager} {h : Held} {L : List NodeRef} (hr : Recurrent cm h)
    (hk : Kept L cm cm') (hnode : h.node ∈ L) : Recurrent cm' h :=
  { hr with
    restore := fun src hsrc =>
      ⟨(hr.restore src hsrc).1, hk.snaps _ (hr.restore src hsrc).2.1 hnode, (hr.restore src hsrc).2.2⟩
    state := by
      rw [hk.states]
      exact hr.state
    frozen := by
      rw [hk.states]
      exact hr.frozen }

structure HybridInv (cm : CacheManager) (H : List Held) : Prop where
  owned : OwnedH cm [] [] (H.flatMap Held.stateSlots) (H.map holding)
  recurrent : ∀ h ∈ H, Recurrent cm h

namespace HybridInv

variable {cm cm' : CacheManager} {G H R : List Held} {r : Req}

theorem perm (hp : H.Perm G) (h : HybridInv cm H) : HybridInv cm G where
  owned :=
    { pages := h.owned.pages.holdings_perm (hp.map _)
      snapped := (h.owned.slots_perm (hp.flatMap_right _)).repage
        (h.owned.pages.holdings_perm (hp.map _)) rfl rfl rfl ((hp.map _).map _ |>.append_left [])
          |>.snapped }
  recurrent := fun x hx => h.recurrent x (hp.mem_iff.2 hx)

theorem holding_node (h : Held) : (holding h).node = h.node := rfl

/-- The requests `H` become `G`; what is promised to the others stays. -/
theorem replace (h : HybridInv cm (H ++ R))
    (ho : OwnedH cm' [] [] (G.flatMap Held.stateSlots ++ R.flatMap Held.stateSlots)
      (G.map holding ++ R.map holding))
    (hk : Kept (R.map Held.node) cm cm') (hback : ∀ x ∈ G, Recurrent cm' x) :
    HybridInv cm' (G ++ R) where
  owned := by
    rw [List.flatMap_append, List.map_append]
    exact ho
  recurrent := by
    intro x hx
    rcases List.mem_append.1 hx with hx | hx
    · exact hback x hx
    · exact (h.recurrent x (List.mem_append_right _ hx)).kept hk (List.mem_map_of_mem hx)

/-- A move that no request sees. -/
theorem of_owned (h : HybridInv cm H)
    (ho : OwnedH cm' [] [] (H.flatMap Held.stateSlots) (H.map holding))
    (hk : Kept (H.map Held.node) cm cm') : HybridInv cm' H :=
  replace (H := []) (G := []) h ho hk (by simp)

theorem map_node (H : List Held) : (H.map holding).map Holding.node = H.map Held.node := by
  rw [List.map_map]
  rfl

theorem init {cfg : Config} (hc : cfg.cacheType = .hybridRadix) :
    HybridInv (CacheManager.init cfg) [] where
  owned :=
    { pages :=
        { size := rfl
          pos := cfg.pageSize_pos
          locked := Locked.nil _
          paged := by
            intro n hn
            cases hn
          ok := by simp
          rows := List.nodup_nil
          perm := by
            show (CacheManager.pageBases cfg.numPages cfg.pageSize ++ ([] ++ ([] ++ []))).Perm _
            rw [List.append_nil, List.append_nil, List.append_nil]
            exact List.Perm.refl _ }
      snapped :=
        { type := hc
          locks := SnapLocked.nil
          slots := by
            show (List.range' 1 (cfg.numSlots - 1) ++ ([] ++ [])).Perm _
            rw [List.append_nil, List.append_nil]
            exact List.Perm.refl _
          states := by
            intro p hp
            cases hp } }
  recurrent := by simp

/-! ## Admission -/

theorem row_not_free {a : PrefillAdder} (hfree : ∀ x ∈ H, x.1.row ∉ a.tm.freeSlots) :
    ∀ y ∈ H.map holding, y.row ∉ a.tm.freeSlots := by
  intro y hy
  obtain ⟨x, hx, rfl⟩ := List.mem_map.1 hy
  exact hfree x hx

/-- The locks of an admission in progress, without its own. -/
theorem kept_others {node : NodeRef} (hk : Kept (node :: (H.map holding).map Holding.node) cm cm') :
    Kept (H.map Held.node) cm cm' := by
  rw [map_node] at hk
  exact hk.mono fun _ => List.mem_cons_of_mem _

/-- An admission that comes to nothing. -/
theorem tried {a a' : PrefillAdder} {p : PendingReq} (ht : PrefillAdder.Tried a p a' none)
    (hfree : ∀ x ∈ H, x.1.row ∉ a.tm.freeSlots) (h : HybridInv a.cm H) : HybridInv a'.cm H := by
  cases ht with
  | skipped => exact h
  | unmatched hm =>
      obtain ⟨hown, -, hkept, -⟩ := h.owned.matchReq hm
      exact h.of_owned hown (hkept _)
  | lockRefused hm hu =>
      obtain ⟨hlock, -, hsame, hkept, -⟩ := h.owned.matchLock hm
      rw [hsame] at hu
      obtain ⟨hown, -, hkept'⟩ := hlock.unlock hu
      exact h.of_owned hown ((hkept _).trans (hkept' _))
  | refused hm hu =>
      obtain ⟨hlock, -, hsame, hkept, -⟩ := h.owned.matchLock hm
      rw [hsame] at hu
      obtain ⟨hens, -, hkept'⟩ := hlock.ensureStateSlots
      obtain ⟨hown, -, hkept''⟩ := hens.unlock hu
      exact h.of_owned hown ((hkept _).trans ((kept_others hkept').trans (hkept'' _)))
  | undone hrow hm hs hu =>
      obtain ⟨l, x, y, hlive, hpp, -, hhd, hown, hkept, -⟩ :=
        h.owned.matchSeat (row_not_free hfree) hrow hm hs
      obtain ⟨-, cm₂, hunlock, hcm⟩ := PrefillAdder.undo_ok hu
      rw [hlive, hpp] at hcm
      rw [hhd] at hunlock
      -- the row gives back nothing but its lock and its slots
      have hrel := hown.release
      rw [Owned.pages_nil hrel.pages.pos
        (hrel.pages.locked.wf.boundary_dvd hrel.pages.boundary)] at hrel
      obtain ⟨hback, -, hkept'⟩ := hrel.unlock hunlock
      rw [hcm]
      refine h.of_owned (OwnedH.freeSlots hback (List.Perm.refl ([l, x, y] ++ _))) ?_
      rw [List.nil_append, map_node] at hkept
      exact hkept.trans ((hkept' _).trans (.of_eq rfl rfl))

theorem admitted {a a' : PrefillAdder} {p : PendingReq}
    (ht : PrefillAdder.Tried a p a' (some r)) (hfree : ∀ x ∈ H, x.1.row ∉ a.tm.freeSlots)
    (h : HybridInv a.cm H) : HybridInv a'.cm ((r, .fresh) :: H) := by
  cases ht with
  | admitted hrow hm hs hcm htm hr =>
      rename_i cm₁ hd src b res
      obtain ⟨l, x, y, hlive, hpp, hsrc, hhd, hown, hkept, hok, hlt, hsnap⟩ :=
        h.owned.matchSeat (row_not_free hfree) hrow hm hs
      obtain ⟨⟨n, rfl⟩, -, -⟩ := hr
      rw [← hhd] at hown hok hsnap
      rw [← hok.len] at hown
      have hle : res.handle.node.length ≤ res.handle.cachedLen + n := by
        rw [hok.len]
        exact Nat.le_add_right _ _
      rw [List.nil_append, map_node] at hkept
      rw [hcm]
      refine replace (H := []) (G := [_]) h ?_ hkept ?_
      · have hslots : Held.stateSlots (PrefillAdder.buildReq p res res.handle.cachedLen 0 0 n,
            .fresh) = [l, x, y] := by
          show CacheFields.stateSlots _ = _
          unfold CacheFields.stateSlots CacheFields.pingPongSlots
          dsimp only [PrefillAdder.buildReq]
          rw [hlive, hpp]
          rfl
        rw [List.flatMap_singleton, hslots]
        exact hown
      · intro z hz
        rw [List.mem_singleton.1 hz]
        refine ⟨hok.take hle, hok.len.ge, ⟨by simp [PrefillAdder.buildReq, hlive],
          by simp [PrefillAdder.buildReq, hpp]⟩, Nat.zero_le _, ?_, ?_, fun _ => rfl, ?_, ?_, ?_⟩
        · intro s hs
          have hs : res.restoreSrc = some s := hs
          refine ⟨.inl rfl, ?_, hok.len⟩
          rcases hsnap with ⟨-, hnone⟩ | ⟨s', hs', hmem⟩
          · rw [hsrc, hnone] at hs
            cases hs
          · rw [hsrc, hs'] at hs
            cases hs
            exact hmem
        · intro hnone hne
          have hnone : res.restoreSrc = none := hnone
          rcases hsnap with ⟨hnil, -⟩ | ⟨s', hs', -⟩
          · refine absurd ?_ hne
            show res.handle.cachedLen = 0
            rw [hok.len, hnil]
            rfl
          · rw [hsrc, hs'] at hnone
            cases hnone
        · intro t ht
          cases ht
        · intro tr ht
          cases ht
        · rintro (ht | ⟨tr, ht⟩) <;> cases ht

/-- A continuation takes over the live slot and its state. -/
theorem nextChunk {p : PendingReq} {c : Req} (hc : Sys.ChunkOf c p) (hs : Shape (c, .live))
    (hb : PrefillAdder.Built p (PrefillAdder.inherited c) c.cachedLen c.mambaNextTrackIdx
      c.swaEvictedSeqlen r) (h : HybridInv cm ((c, .live) :: H)) :
    HybridInv cm ((r, .fresh) :: H) := by
  obtain ⟨⟨n, rfl⟩, -, -⟩ := hb
  obtain ⟨hchunked, -, hids, hmm, -, -⟩ := hc
  have hold := h.owned.pages.ok _ List.mem_cons_self
  have hrec := h.recurrent _ List.mem_cons_self
  obtain ⟨hdev, hlen⟩ := (hs.live rfl).2.2.2 hchunked
  have hsrc := hrec.restore_none (not_waiting_live c)
  have ho := h.owned
  rw [List.flatMap_cons] at ho
  refine replace (H := [_]) (G := [_]) h (by rw [List.flatMap_singleton]; exact ho) (Kept.refl cm)
    fun x hx => ?_
  rw [List.mem_singleton.1 hx]
  refine ⟨?_, hrec.le, hrec.slots, hrec.idx, ?_, ?_, fun _ => rfl, ?_, ?_, ?_⟩
  · have hp := hrec.handle.mono hids
    dsimp only at hp
    rw [hmm] at hp
    exact hp.take (hold.le.trans (Nat.le_add_right _ _))
  · intro src hsome
    cases hsome
  · intro _ hne live hlive
    rw [hrec.state hsrc hne live hlive]
    show c.deviceIds.take c.cachedLen = (p.inputIds.take (c.cachedLen + n)).take c.cachedLen
    rw [List.take_take, Nat.min_eq_left (Nat.le_add_right _ _), hdev, hlen, List.take_length]
    exact List.prefix_iff_eq_take.1 hids
  · intro t ht
    cases ht
  · intro tr ht
    cases ht
  · rintro (ht | ⟨tr, ht⟩) <;> cases ht

end HybridInv

/-! ## Preparing a batch -/

namespace Recurrent

variable {cm : CacheManager} {r r' : Req}

theorem swept {stage : Stage} (h : Recurrent cm (r, stage)) (hs : Swept r r') :
    Recurrent cm (r', stage) := by
  obtain ⟨e, d, a, rfl⟩ := hs
  exact ⟨h.handle, h.le, h.slots, h.idx, h.restore, h.state, h.untracked, h.tracked, h.decoding,
    h.frozen⟩

theorem toDecode (h : Recurrent cm (r, .live)) : Recurrent cm (r, .prepared .decode none) where
  handle := h.handle
  le := h.le
  slots := h.slots
  idx := h.idx
  restore := fun src hsrc => absurd (h.restore src hsrc).1 (not_waiting_live r)
  state := h.state
  untracked := by rintro (ht | ht) <;> cases ht
  tracked := by
    intro t ht
    cases ht
  decoding := by
    intro tr ht
    cases ht
    rfl
  frozen := fun _ => h.frozen (.inl rfl)

/-- The track names the slot that the flipped index calls frozen. -/
theorem toPrefill (h : Recurrent cm (r, .fresh)) (hlt : r.cachedLen < r.deviceLen) :
    Recurrent cm ((trackReq r).1, .prepared .prefill (trackReq r).2) := by
  have hlast := h.untracked (.inl rfl)
  have hrestore : ∀ src, r.mambaRestoreSrc = some src →
      (r.cacheHandle.node, src) ∈ snaps cm.prefixCache.nodes ∧
        r.cachedLen = r.cacheHandle.node.length := fun src hsrc => (h.restore src hsrc).2
  have hwait : ∀ (x : Req) (tr : Option Track), Held.Waiting (x, .prepared .prefill tr) :=
    fun _ tr => .inr ⟨tr, rfl⟩
  have hstep : ∀ (x : Req) (tr : Option Track), ¬ Held.Stepped (x, .prepared .prefill tr) := by
    rintro x tr (ht | ⟨tr', ht⟩) <;> cases ht
  obtain ⟨pp, hpp⟩ := Option.isSome_iff_exists.1 h.slots.2
  unfold trackReq
  rw [hpp]
  dsimp only
  split
  · refine ⟨h.handle, h.le, h.slots, h.idx, fun src hsrc => ⟨hwait _ _, hrestore src hsrc⟩, h.state,
      fun _ => hlast, ?_, ?_, fun hst => absurd hst (hstep _ _)⟩
    · intro t ht
      cases ht
    · intro tr ht
      cases ht
  · rename_i hc
    refine ⟨h.handle, h.le, ⟨h.slots.1, rfl⟩, Nat.sub_le _ _,
      fun src hsrc => ⟨hwait _ _, hrestore src hsrc⟩, h.state, ?_, ?_, ?_, fun hst => absurd hst (hstep _ _)⟩
    · rintro (ht | ht) <;> cases ht
    · intro t ht
      cases ht
      have hidx : 1 - (1 - r.mambaNextTrackIdx) = r.mambaNextTrackIdx := by
        have := h.idx
        dsimp only at this
        omega
      have hle := Nat.div_mul_le_self (r.extendLen - 1) fwdChunkSize
      have hpos := Nat.le_mul_of_pos_right ((r.extendLen - 1) / fwdChunkSize)
        (show 0 < fwdChunkSize by decide)
      have hext : r.extendLen = r.deviceLen - r.cachedLen := rfl
      refine ⟨?_, rfl, ?_, ?_⟩
      · show CacheManager.pingPongSlot pp r.mambaNextTrackIdx =
          CacheManager.pingPongSlot pp (1 - (1 - r.mambaNextTrackIdx))
        rw [hidx]
      · show r.cachedLen < r.cachedLen + _
        omega
      · show r.cachedLen + _ ≤ r.deviceLen
        omega
    · intro tr ht
      cases ht

end Recurrent

theorem stateSlots_marked {reqs : List Req} {batch : List (Req × Option Track)} {phase : Phase}
    (stage : Stage) (h : List.Forall₂ (fun r x => Marked r x.1) reqs batch) :
    (launched phase batch).flatMap Held.stateSlots =
      (reqs.map (·, stage)).flatMap Held.stateSlots := by
  induction h with
  | nil => rfl
  | cons hx _ ih =>
      obtain ⟨e, d, a, l, x, hx⟩ := hx
      rw [launched] at ih ⊢
      rw [List.map_cons, List.map_cons, List.flatMap_cons, List.flatMap_cons, ih]
      congr 1
      show CacheFields.stateSlots _ = CacheFields.stateSlots _
      dsimp only
      rw [hx]
      rfl

theorem nodes_marked {reqs : List Req} {batch : List (Req × Option Track)} (phase : Phase)
    (h : List.Forall₂ (fun r x => Marked r x.1) reqs batch) :
    ((launched phase batch).map holding).map Holding.node =
      (reqs.map (fun r => r.holdingAt r.cachedLen)).map Holding.node := by
  induction h with
  | nil => rfl
  | cons hx _ ih =>
      obtain ⟨e, d, a, l, x, hx⟩ := hx
      rw [launched] at ih ⊢
      rw [List.map_cons, List.map_cons, List.map_cons, List.map_cons, List.map_cons, ih]
      congr 1
      show CacheHandle.node (CacheFields.cacheHandle _) = _
      dsimp only
      rw [hx]
      rfl

namespace HybridInv

variable {cm cm' : CacheManager} {G H R : List Held} {r : Req}

theorem prepared {phase : Phase} {stage : Stage} {reqs : List Req} {it : Nat}
    {batch : List (Req × Option Track)} (hst : ∀ r : Req, backed (r, stage) = r.cachedLen)
    (hlen : ∀ r ∈ reqs, r.cachedLen ≤ r.deviceLen)
    (hp : prepareBatch cm phase reqs it = .ok (cm', batch))
    (hrec : ∀ x ∈ batch, ∃ r ∈ reqs, ∃ r', Swept r r' ∧ ∀ cm,
      Recurrent cm (r', stage) → Recurrent cm (x.1, .prepared phase x.2))
    (h : HybridInv cm (reqs.map (·, stage) ++ H)) : HybridInv cm' (launched phase batch ++ H) := by
  have hmap : (reqs.map (·, stage)).map holding = reqs.map (fun r => r.holdingAt r.cachedLen) := by
    rw [List.map_map]
    refine List.map_congr_left fun r _ => ?_
    show (⟨_, _, backed (r, stage)⟩ : Holding) = _
    rw [hst]
    rfl
  have ho := h.owned
  rw [List.flatMap_append, List.map_append, hmap] at ho
  obtain ⟨⟨hsnap, hkept⟩, hown⟩ := ho.pages.prepared (OwnedH.evictLaw cm _ _ _ _)
    ⟨ho.snapped, Kept.refl cm⟩ hlen hp
  have hmarked := prepareBatch_marked hp
  have hnodes := nodes_marked phase hmarked
  refine replace h ⟨hown, ?_⟩ (hkept.mono ?_) ?_
  · rw [stateSlots_marked stage hmarked, List.nil_append, List.map_append, hnodes,
      ← List.map_append]
    exact hsnap
  · intro l hl
    rw [List.nil_append, List.map_append, map_node]
    exact List.mem_append_right _ hl
  · intro y hy
    obtain ⟨x, hx, rfl⟩ := List.mem_map.1 hy
    obtain ⟨r, hr, r', hs, hto⟩ := hrec x hx
    have hold := h.recurrent (r, stage) (List.mem_append_left _ (List.mem_map_of_mem hr))
    refine hto cm' ((hold.kept hkept ?_).swept hs)
    rw [List.nil_append, List.map_append, List.map_map]
    exact List.mem_append_left _ (List.mem_map_of_mem hr)

theorem preparePrefill {reqs : List Req} {it : Nat} {batch : List (Req × Option Track)}
    (hshape : ∀ r ∈ reqs, Shape (r, .fresh)) (hp : prepareBatch cm .prefill reqs it = .ok (cm', batch))
    (h : HybridInv cm (reqs.map (·, .fresh) ++ H)) :
    HybridInv cm' (launched .prefill batch ++ H) := by
  refine h.prepared (fun _ => rfl) (fun r hr => ((hshape r hr).built (.inl rfl)).1.le) hp ?_
  intro x hx
  obtain ⟨-, rfl⟩ := prepareBatch_ok hp
  obtain ⟨r', hr', rfl⟩ := List.mem_map.1 hx
  obtain ⟨r, hr, hs⟩ := forall_mem_right (freeBeforeAlloc_swept cm .prefill reqs it) hr'
  refine ⟨r, hr, r', hs, fun cm hrec => hrec.toPrefill ?_⟩
  have hlt := ((hshape r hr).built (.inl rfl)).1
  obtain ⟨e, d, a, rfl⟩ := hs
  exact hlt

theorem prepareDecode {reqs : List Req} {it : Nat} {batch : List (Req × Option Track)}
    (hshape : ∀ r ∈ reqs, Shape (r, .live) ∧ r.canDecode = true)
    (hp : prepareBatch cm .decode reqs it = .ok (cm', batch))
    (h : HybridInv cm (reqs.map (·, .live) ++ H)) :
    HybridInv cm' (launched .decode batch ++ H) := by
  refine h.prepared (fun _ => rfl) (fun r hr => ?_) hp ?_
  · have := ((hshape r hr).1.live rfl).1
    exact this ▸ Nat.le_succ _
  · intro x hx
    obtain ⟨-, rfl⟩ := prepareBatch_ok hp
    obtain ⟨r', hr', rfl⟩ := List.mem_map.1 hx
    obtain ⟨r, hr, hs⟩ := forall_mem_right (freeBeforeAlloc_swept cm .decode reqs it) hr'
    exact ⟨r, hr, r', hs, fun cm hrec => hrec.toDecode⟩

/-! ## Launching a batch -/

theorem frozenSlot_mem {f : CacheFields} (h : f.mambaPingPong.isSome = true) :
    frozenSlot f ∈ f.pingPongSlots := by
  obtain ⟨⟨x, y⟩, hpp⟩ := Option.isSome_iff_exists.1 h
  unfold frozenSlot CacheFields.pingPongSlots CacheManager.pingPongSlot
  rw [hpp]
  simp only [Option.getD_some, Option.map_some]
  split <;> simp

theorem live_mem {f : CacheFields} {live : Nat} (h : f.linearSlotIdx = some live) :
    live ∈ f.stateSlots := by
  unfold CacheFields.stateSlots
  rw [h]
  exact List.mem_append_left _ (List.mem_singleton_self _)

/-- The slots of a request, of the tree and of the other requests are apart. -/
theorem slots_apart {x : Held} (h : HybridInv cm (x :: R)) : x.stateSlots.Nodup ∧
    (∀ s ∈ (snaps cm.prefixCache.nodes).map Prod.snd, s ∉ x.stateSlots) ∧
      ∀ y ∈ R, ∀ s ∈ y.stateSlots, s ∉ x.stateSlots := by
  have hall := h.owned.snapped.slots.nodup_iff.2 List.nodup_range'
  rw [List.flatMap_cons] at hall
  obtain ⟨-, hrest, -⟩ := List.nodup_append.1 hall
  obtain ⟨-, hreqs, hsnap⟩ := List.nodup_append.1 hrest
  obtain ⟨hx, -, hothers⟩ := List.nodup_append.1 hreqs
  refine ⟨hx, fun s hs hmem => hsnap s hs s (List.mem_append_left _ hmem) rfl, ?_⟩
  intro y hy s hs hmem
  exact hothers s hmem s (List.mem_flatMap.2 ⟨y, hy, hs⟩) rfl

/-- A request writes its own slots only. -/
theorem write {x y : Held} (h : HybridInv cm (x :: R)) (hp : OnlyPools cm cm')
    (hfree : cm'.linearStatePool.freeSlots = cm.linearStatePool.freeSlots)
    (hnum : cm'.linearStatePool.numSlots = cm.linearStatePool.numSlots)
    (hst : ∀ s ∉ x.stateSlots,
      cm'.linearStatePool.states s = cm.linearStatePool.states s)
    (hslots : y.stateSlots = x.stateSlots) (hhold : holding y = holding x)
    (hy : Recurrent cm' y) : HybridInv cm' (y :: R) := by
  obtain ⟨-, hsnap, hothers⟩ := h.slots_apart
  obtain ⟨p, l, rfl⟩ := hp
  refine ⟨⟨?_, h.owned.snapped.type, ?_, ?_, ?_⟩, ?_⟩
  · rw [List.map_cons, hhold]
    exact h.owned.pages.congr ⟨rfl, rfl, rfl, rfl, rfl, rfl, rfl, rfl⟩
  · rw [List.map_cons, hhold]
    exact h.owned.snapped.locks
  · rw [List.flatMap_cons, hslots, hfree, hnum]
    exact h.owned.snapped.slots
  · intro q hq
    rw [hst q.2 (hsnap q.2 (List.mem_map_of_mem hq))]
    exact h.owned.snapped.states q hq
  · intro z hz
    rcases List.mem_cons.1 hz with rfl | hz
    · exact hy
    · have hr := h.recurrent z (List.mem_cons_of_mem _ hz)
      refine { hr with restore := hr.restore, state := ?_, frozen := ?_ }
      · intro hnone hne live hlive
        rw [hst live (hothers z hz live (live_mem hlive))]
        exact hr.state hnone hne live hlive
      · intro hstep
        obtain ⟨hpos, hfrozen⟩ := hr.frozen hstep
        refine ⟨hpos, fun len hlen => ?_⟩
        rw [hst _ (hothers z hz _ (List.mem_append_right _ (frozenSlot_mem hr.slots.2)))]
        exact hfrozen len hlen

/-- A restore copies the snapshot the request was matched at. -/
theorem restoreReq_step {tr : Option Track} (hs : Shape (r, .prepared .prefill tr))
    (h : HybridInv cm ((r, .prepared .prefill tr) :: R)) :
    HybridInv (restoreReq cm r).1 (((restoreReq cm r).2, .prepared .prefill tr) :: R) ∧
      (restoreReq cm r).2.mambaRestoreSrc = none := by
  have hrec := h.recurrent _ List.mem_cons_self
  obtain ⟨live, hlive⟩ := Option.isSome_iff_exists.1 hrec.slots.1
  dsimp only at hlive
  rcases hsrc : r.mambaRestoreSrc with _ | src
  · have heq : restoreReq cm r = (cm, r) := by
      unfold restoreReq
      rw [hsrc]
    rw [heq]
    exact ⟨h, hsrc⟩
  have heq : restoreReq cm r = ({ cm with linearStatePool := cm.linearStatePool.copyFrom src live },
      { r with mambaRestoreSrc := none }) := by
    simp only [restoreReq, hsrc, hlive]
  rw [heq]
  dsimp only
  obtain ⟨-, hmem, hlen⟩ := hrec.restore src hsrc
  have hstate := h.owned.snapped.states _ hmem
  refine ⟨h.write ⟨_, _, rfl⟩ rfl rfl ?_ rfl rfl ?_, rfl⟩
  · intro s hs
    refine Function.update_of_ne ?_ _ _
    rintro rfl
    exact hs (live_mem hlive)
  refine ⟨hrec.handle, hrec.le, hrec.slots, hrec.idx, ?_, ?_, ?_, hrec.tracked, ?_, ?_⟩
  · intro src' hsome
    cases hsome
  · intro _ _ live' hlive'
    have hlive' : r.linearSlotIdx = some live' := hlive'
    rw [hlive] at hlive'
    cases hlive'
    show Function.update cm.linearStatePool.states live (cm.linearStatePool.states src) live =
      r.deviceIds.take r.cachedLen
    rw [Function.update_self, hstate]
    dsimp only at hlen
    rw [hlen]
    exact List.prefix_iff_eq_take.1 (hrec.handle.ids.trans hs.host)
  · rintro (ht | ht)
    · cases ht
    · exact hrec.untracked (.inr ht)
  · intro tr' ht
    cases ht
  · rintro (ht | ⟨tr', ht⟩) <;> cases ht

/-- An anchor snapshot freezes the state at the anchor. -/
theorem snapshotAnchorReq_step {tr : Option Track}
    (h : HybridInv cm ((r, .prepared .decode tr) :: R)) :
    HybridInv (cm.snapshotAnchorReq r).1 (((cm.snapshotAnchorReq r).2, .prepared .decode tr) :: R) := by
  have hrec := h.recurrent _ List.mem_cons_self
  obtain ⟨hpos, hfrozen⟩ := hrec.frozen (.inr ⟨tr, rfl⟩)
  unfold CacheManager.snapshotAnchorReq
  split
  swap
  · exact h
  rename_i a pp live _ hpp hlast hlive
  split
  swap
  · exact h
  rename_i hanchor
  have hsrc := hrec.restore_none (not_waiting_decode r tr)
  have hmem : CacheManager.pingPongSlot pp r.mambaNextTrackIdx ∈ r.pingPongSlots := by
    unfold CacheFields.pingPongSlots CacheManager.pingPongSlot
    rw [hpp]
    simp only [Option.map_some, Option.getD_some]
    split <;> simp
  have hnd := h.slots_apart.1
  have hne : live ≠ CacheManager.pingPongSlot pp r.mambaNextTrackIdx := by
    refine (List.nodup_append.1 hnd).2.2 live ?_ _ hmem
    rw [hlive]
    exact List.mem_singleton_self _
  have hstate := hrec.state hsrc (Nat.ne_of_gt hpos) live hlive
  refine h.write ⟨_, _, rfl⟩ rfl rfl ?_ rfl rfl ?_
  · intro s hs
    refine Function.update_of_ne ?_ _ _
    rintro rfl
    exact hs (List.mem_append_right _ hmem)
  refine ⟨hrec.handle, hrec.le, hrec.slots, Nat.sub_le _ _, hrec.restore, ?_, ?_, ?_, hrec.decoding,
    ?_⟩
  · intro _ hne' live' hlive'
    have hlive' : r.linearSlotIdx = some live' := hlive'
    rw [hlive] at hlive'
    cases hlive'
    show Function.update cm.linearStatePool.states _ _ live = _
    rw [Function.update_of_ne hne]
    exact hstate
  · rintro (ht | ht) <;> cases ht
  · intro t ht
    cases ht
  · refine fun _ => ⟨hpos, fun len hlen => ?_⟩
    cases hlen
    have hidx : 1 - (1 - r.mambaNextTrackIdx) = r.mambaNextTrackIdx := by
      have := hrec.idx
      dsimp only at this
      omega
    have hcached : r.cachedLen = a := hanchor.1
    refine ⟨hcached ▸ hpos, hcached.ge, hcached ▸ hrec.le, ?_⟩
    show Function.update cm.linearStatePool.states
      (CacheManager.pingPongSlot pp r.mambaNextTrackIdx) (cm.linearStatePool.states live)
      (CacheManager.pingPongSlot (Option.getD r.mambaPingPong (0, 0))
        (1 - (1 - r.mambaNextTrackIdx))) = r.deviceIds.take a
    rw [hidx, hpp, Option.getD_some, Function.update_self, hstate, hcached]

/-- A step of the batch, one request at a time. -/
theorem forReqs_batch {phase : Phase} {f : CacheManager → Req → CacheManager × Req} {Q : Req → Prop}
    (hf : ∀ {cm r tr R}, Shape (r, .prepared phase tr) → HybridInv cm ((r, .prepared phase tr) :: R) →
      HybridInv (f cm r).1 (((f cm r).2, .prepared phase tr) :: R) ∧ Q (f cm r).2)
    {batch : List (Req × Option Track)} (hs : ∀ x ∈ launched phase batch, Shape x)
    (h : HybridInv cm (launched phase batch ++ R)) :
    HybridInv (CacheManager.forReqs f cm (batch.map Prod.fst)).1
        (launched phase ((CacheManager.forReqs f cm (batch.map Prod.fst)).2.zip
          (batch.map Prod.snd)) ++ R) ∧
      ∀ r ∈ (CacheManager.forReqs f cm (batch.map Prod.fst)).2, Q r := by
  induction batch generalizing cm R with
  | nil =>
      refine ⟨h, ?_⟩
      intro r hr
      cases hr
  | cons x batch ih =>
      obtain ⟨r, tr⟩ := x
      obtain ⟨hhead, hq⟩ := hf (hs _ List.mem_cons_self) h
      have hrest := ih (R := ((f cm r).2, .prepared phase tr) :: R)
        (fun y hy => hs y (List.mem_cons_of_mem _ hy)) (hhead.perm List.perm_middle.symm)
      refine ⟨hrest.1.perm List.perm_middle, ?_⟩
      intro r' hr'
      rcases List.mem_cons.1 hr' with rfl | hr'
      · exact hq
      · exact hrest.2 r' hr'

end HybridInv


/-- The state a forward starts from is the state of the computed prefix. -/
theorem Recurrent.initialState_eq {cm : CacheManager} {h : Held} {live : Nat}
    (hr : Recurrent cm h) (hsrc : h.1.mambaRestoreSrc = none)
    (hlive : h.1.linearSlotIdx = some live) :
    initialState cm.linearStatePool h.1 live = h.1.deviceIds.take h.1.cachedLen := by
  unfold initialState
  split
  · rename_i hzero
    rw [hzero, List.take_zero]
  · rename_i hne
    exact hr.state hsrc hne live hlive

/-- Running the recurrence on from a prefix gives the longer prefix. -/
theorem take_extend {ids : List Token} {n m : Nat} (h : n ≤ m) :
    ids.take n ++ (ids.take m).drop n = ids.take m := by
  rw [← Nat.min_eq_left h, ← List.take_take, Nat.min_eq_left h, List.take_append_drop]

/-- What a forward writes: the tracked state, then the live one. -/
theorem advanceState_eq {pool : LinearStatePool} {r : Req} {live : Nat} {track : Option Track}
    (hlive : r.linearSlotIdx = some live)
    (hstart : initialState pool r live = r.deviceIds.take r.cachedLen)
    (hle : r.cachedLen ≤ r.deviceLen) (ht : ∀ t ∈ track, r.cachedLen ≤ t.boundary) :
    advanceState pool r track =
      (track.elim pool fun t => pool.write t.dst (r.deviceIds.take t.boundary)).write live
        (r.deviceIds.take r.deviceLen) := by
  unfold advanceState
  rw [hlive]
  dsimp only
  rw [hstart, take_extend hle]
  cases track with
  | none => rfl
  | some t =>
      dsimp only [Option.elim]
      rw [take_extend (ht t rfl)]

namespace HybridInv

variable {cm cm' : CacheManager} {G H R : List Held} {r : Req}

/-- The frozen slot of a request is not its live one. -/
theorem frozenSlot_ne_live {x : Held} {live : Nat} (h : HybridInv cm (x :: R))
    (hlive : x.1.linearSlotIdx = some live) : frozenSlot x.1.toCacheFields ≠ live := by
  have hnd := h.slots_apart.1
  have hpp := (h.recurrent x List.mem_cons_self).slots.2
  intro heq
  refine (List.nodup_append.1 hnd).2.2 live ?_ _ (frozenSlot_mem hpp) heq.symm
  rw [hlive]
  exact List.mem_singleton_self _

theorem forwardReq_step (env : Env) {phase : Phase} {tr : Option Track}
    (hs : Shape (r, .prepared phase tr)) (hsrc : r.mambaRestoreSrc = none)
    (h : HybridInv cm ((r, .prepared phase tr) :: R)) :
    HybridInv (forwardReq env cm r tr).1 (((forwardReq env cm r tr).2.1, .live) :: R) := by
  have hrec := h.recurrent _ List.mem_cons_self
  obtain ⟨live, hlive⟩ := Option.isSome_iff_exists.1 hrec.slots.1
  have hstart := hrec.initialState_eq hsrc hlive
  have hfrozen := h.frozenSlot_ne_live hlive
  dsimp only at hlive hstart hfrozen
  -- the shape of the step
  have hlt : r.cachedLen < r.deviceLen ∧ r.deviceIds.length = r.deviceLen := by
    cases phase with
    | prefill =>
        obtain ⟨hlt, hids, hlen⟩ := hs.built (.inr ⟨tr, rfl⟩)
        exact ⟨hlt, by rw [hids, hlen]⟩
    | decode =>
        obtain ⟨hdev, hlen, -, -⟩ := hs.stepping ⟨tr, rfl⟩
        exact ⟨hdev ▸ Nat.lt_succ_self _, hlen⟩
  have htrack : ∀ t ∈ tr, t.dst = frozenSlot r.toCacheFields ∧
      r.mambaLastTrackSeqlen = some t.boundary ∧ r.cachedLen < t.boundary ∧
        t.boundary ≤ r.deviceLen := by
    intro t ht
    cases ht
    cases phase with
    | prefill => exact hrec.tracked t rfl
    | decode => cases hrec.decoding _ rfl
  have hadv := advanceState_eq hlive hstart hlt.1.le fun t ht => (htrack t ht).2.2.1.le
  have hids : ∀ len ≤ r.deviceLen, (forwardReq env cm r tr).2.1.deviceIds.take len =
      r.deviceIds.take len := by
    intro len hlen
    show List.take len (if r.canDecode then _ else _) = _
    split
    · rw [List.take_append_of_le_length (by rw [List.length_take, hlt.2, Nat.min_self]; exact hlen),
        List.take_take, Nat.min_eq_left hlen]
    · rfl
  have hother : ∀ x, x ≠ live → (∀ t ∈ tr, x ≠ t.dst) →
      (advanceState cm.linearStatePool r tr).states x = cm.linearStatePool.states x := by
    intro x hx hdst
    rw [hadv]
    refine (Function.update_of_ne hx _ _).trans ?_
    cases tr with
    | none => rfl
    | some t => exact Function.update_of_ne (hdst t rfl) _ _
  refine h.write ⟨_, _, rfl⟩ ?_ ?_ ?_ rfl rfl ?_
  · show (advanceState cm.linearStatePool r tr).freeSlots = _
    rw [hadv]
    cases tr <;> rfl
  · show (advanceState cm.linearStatePool r tr).numSlots = _
    rw [hadv]
    cases tr <;> rfl
  · intro x hx
    refine hother x ?_ ?_
    · rintro rfl
      exact hx (live_mem hlive)
    · rintro t ht rfl
      rw [(htrack t ht).1] at hx
      exact hx (List.mem_append_right _ (frozenSlot_mem hrec.slots.2))
  refine ⟨hrec.handle, hrec.le.trans hlt.1.le, hrec.slots, hrec.idx, ?_, ?_, ?_, ?_, ?_, ?_⟩
  · intro src hsome
    have hsome : r.mambaRestoreSrc = some src := hsome
    rw [hsrc] at hsome
    cases hsome
  · intro _ _ live' hlive'
    have hlive' : r.linearSlotIdx = some live' := hlive'
    rw [hlive] at hlive'
    cases hlive'
    show (advanceState cm.linearStatePool r tr).states live = _
    rw [hadv]
    exact (Function.update_self _ _ _).trans (hids r.deviceLen le_rfl).symm
  · rintro (ht | ht) <;> cases ht
  · intro t ht
    cases ht
  · intro tr' ht
    cases ht
  intro _
  have hpos : 0 < r.deviceLen := Nat.zero_lt_of_lt hlt.1
  refine ⟨hpos, fun len hlen => ?_⟩
  change r.mambaLastTrackSeqlen = some len at hlen
  show 0 < len ∧ len ≤ r.deviceLen ∧ r.cacheHandle.node.length ≤ len ∧
    (advanceState cm.linearStatePool r tr).states (frozenSlot r.toCacheFields) = _
  rcases tr with _ | t
  · -- nothing is tracked: the frozen state is the one of an earlier step
    obtain ⟨hpos', hle, hnode, hst⟩ : 0 < len ∧ len ≤ r.cachedLen ∧
        r.cacheHandle.node.length ≤ len ∧
          cm.linearStatePool.states (frozenSlot r.toCacheFields) = r.deviceIds.take len := by
      cases phase with
      | prefill =>
          have hnone : r.mambaLastTrackSeqlen = none := hrec.untracked (.inr rfl)
          rw [hnone] at hlen
          cases hlen
      | decode => exact (hrec.frozen (.inr ⟨_, rfl⟩)).2 len hlen
    refine ⟨hpos', hle.trans hlt.1.le, hnode, ?_⟩
    rw [hother _ hfrozen (by simp), hst, hids len (hle.trans hlt.1.le)]
  · obtain ⟨hdst, hlast, hbd, hle⟩ := htrack t rfl
    rw [hlen] at hlast
    cases hlast
    refine ⟨Nat.zero_lt_of_lt hbd, hle, hrec.le.trans hbd.le, ?_⟩
    rw [hids _ hle, hadv, ← hdst]
    refine (Function.update_of_ne ?_ _ _).trans (Function.update_self _ _ _)
    rw [hdst]
    exact hfrozen

theorem forwardReqs_step (env : Env) {phase : Phase} {batch : List (Req × Option Track)}
    (hs : ∀ x ∈ launched phase batch, Shape x) (hsrc : ∀ x ∈ batch, x.1.mambaRestoreSrc = none)
    (h : HybridInv cm (launched phase batch ++ R)) :
    HybridInv (forwardReqs env cm batch).1
      ((forwardReqs env cm batch).2.map (fun x => (x.1, .live)) ++ R) := by
  induction batch generalizing cm R with
  | nil => exact h
  | cons x batch ih =>
      obtain ⟨r, tr⟩ := x
      have hhead := forwardReq_step env (hs _ List.mem_cons_self)
        (hsrc _ List.mem_cons_self) h
      have hrest := ih (R := ((forwardReq env cm r tr).2.1, .live) :: R)
        (fun y hy => hs y (List.mem_cons_of_mem _ hy))
        (fun y hy => hsrc y (List.mem_cons_of_mem _ hy)) (hhead.perm List.perm_middle.symm)
      exact hrest.perm List.perm_middle

end HybridInv

theorem Shape.restored {r r' : Req} {phase : Phase} {tr : Option Track}
    (h : Shape (r, .prepared phase tr)) (hr : Restored r r') : Shape (r', .prepared phase tr) := by
  obtain ⟨src, l, x, rfl⟩ := hr
  exact ⟨h.seated, h.host, h.prompt, h.mm, by simp, h.built, h.stepping, by simp⟩

theorem shape_restored {phase : Phase} {batch batch' : List (Req × Option Track)}
    (hb : List.Forall₂ (fun x y => Restored x.1 y.1 ∧ y.2 = x.2) batch batch')
    (hs : ∀ x ∈ launched phase batch, Shape x) : ∀ y ∈ launched phase batch', Shape y := by
  intro y hy
  obtain ⟨b, hb', rfl⟩ := List.mem_map.1 hy
  obtain ⟨a, ha, hr, htr⟩ := forall_mem_right hb hb'
  have hold : Shape (a.1, .prepared phase a.2) := hs _ (List.mem_map_of_mem ha)
  rw [htr]
  exact hold.restored hr

/-- A batch with its states restored and its anchors frozen, as its forwards find it. -/
def readyBatch (env : Env) (cm : CacheManager) (phase : Phase)
    (batch : List (Req × Option Track)) : CacheManager × List (Req × Option Track) :=
  snapshotAnchors env (restoreStates cm phase batch).1 phase (restoreStates cm phase batch).2

theorem forwardBatch_eq (env : Env) (cm : CacheManager) (phase : Phase)
    (batch : List (Req × Option Track)) : forwardBatch env cm phase batch =
      forwardReqs env (readyBatch env cm phase batch).1 (readyBatch env cm phase batch).2 := rfl

theorem readyBatch_restored (env : Env) (cm : CacheManager) (phase : Phase)
    (batch : List (Req × Option Track)) :
    List.Forall₂ (fun x y => Restored x.1 y.1 ∧ y.2 = x.2) batch
      (readyBatch env cm phase batch).2 := by
  refine forall_comp ?_ (restoreStates_restored cm phase batch)
    (snapshotAnchors_restored env _ phase _)
  intro a b c hab hbc
  exact ⟨hab.1.trans hbc.1, hbc.2.trans hab.2⟩

namespace HybridInv

variable {cm cm' : CacheManager} {G H R : List Held} {r : Req}

/-- A batch that is ready has nothing left to restore. -/
theorem ready (env : Env) {phase : Phase} {batch : List (Req × Option Track)}
    (hs : ∀ x ∈ launched phase batch, Shape x) (h : HybridInv cm (launched phase batch ++ R)) :
    HybridInv (readyBatch env cm phase batch).1
        (launched phase (readyBatch env cm phase batch).2 ++ R) ∧
      (∀ x ∈ launched phase (readyBatch env cm phase batch).2, Shape x) ∧
        ∀ x ∈ (readyBatch env cm phase batch).2, x.1.mambaRestoreSrc = none := by
  have hshape := shape_restored (readyBatch_restored env cm phase batch) hs
  cases phase with
  | prefill =>
      obtain ⟨hinv, hnone⟩ := forReqs_batch (f := restoreReq)
        (Q := fun r => r.mambaRestoreSrc = none) (fun hs h => h.restoreReq_step hs) hs h
      exact ⟨hinv, hshape, fun x hx => hnone _ (List.of_mem_zip hx).1⟩
  | decode =>
      have hinv : HybridInv (readyBatch env cm .decode batch).1
          (launched .decode (readyBatch env cm .decode batch).2 ++ R) := by
        show HybridInv (snapshotAnchors env cm .decode batch).1
          (launched .decode (snapshotAnchors env cm .decode batch).2 ++ R)
        have hsnap : ∀ reqs, cm.snapshotToolcallAnchor reqs =
            CacheManager.forReqs CacheManager.snapshotAnchorReq cm reqs := fun _ =>
          if_pos (OwnedH.not_generic h.owned.snapped).1
        unfold snapshotAnchors
        dsimp only
        rw [hsnap]
        split
        · exact (forReqs_batch (f := CacheManager.snapshotAnchorReq) (Q := fun _ => True)
            (fun _ h => ⟨h.snapshotAnchorReq_step, trivial⟩) hs h).1
        · exact h
      refine ⟨hinv, hshape, fun x hx => ?_⟩
      exact (hinv.recurrent _ (List.mem_append_left _ (List.mem_map_of_mem hx))).restore_none
        (not_waiting_decode _ _)

theorem forward {env : Env} {phase : Phase} {batch : List (Req × Option Track)}
    {out : List (Req × Token)} (hs : ∀ x ∈ launched phase batch, Shape x)
    (hf : forwardBatch env cm phase batch = (cm', out))
    (h : HybridInv cm (launched phase batch ++ R)) :
    HybridInv cm' (out.map (fun x => (x.1, .live)) ++ R) := by
  obtain ⟨hready, hshape, hnone⟩ := h.ready env hs
  have hstep := hready.forwardReqs_step env hshape hnone
  rw [← forwardBatch_eq, hf] at hstep
  exact hstep

/-! ## The host's side of a drain -/

theorem host {r' : Req} (hs : SameOnHost r r') (h : HybridInv cm ((r, .live) :: R)) :
    HybridInv cm ((r', .live) :: R) := by
  have hrec := h.recurrent _ List.mem_cons_self
  have hfields := hs.fields
  refine replace (H := [_]) (G := [_]) h ?_ (Kept.refl cm) fun x hx => ?_
  · have ho := h.owned
    rw [List.flatMap_cons, List.map_cons] at ho
    rw [List.flatMap_singleton, List.map_singleton]
    have hslots : Held.stateSlots (r', .live) = Held.stateSlots (r, .live) := by
      show r'.stateSlots = r.stateSlots
      rw [hfields]
      rfl
    have hhold : holding (r', .live) = holding (r, .live) := by
      show (⟨r'.row, r'.cacheHandle.node, r'.cachedLen⟩ : Holding) = _
      rw [Req.row, hs.tableIdx, hfields, hs.cachedLen]
      rfl
    rw [hslots, hhold]
    exact ho
  · rw [List.mem_singleton.1 hx]
    have hnone := hrec.restore_none (not_waiting_live r)
    obtain ⟨hpos, hfrozen⟩ := hrec.frozen (.inl rfl)
    have hnode : r'.cacheHandle.node = r.cacheHandle.node := by rw [hfields]
    have hlive : r'.linearSlotIdx = r.linearSlotIdx := by rw [hfields]
    have hpp : r'.mambaPingPong = r.mambaPingPong := by rw [hfields]
    have hidx : r'.mambaNextTrackIdx = r.mambaNextTrackIdx := by rw [hfields]
    have hlast : r'.mambaLastTrackSeqlen = r.mambaLastTrackSeqlen := by rw [hfields]
    have hsrc : r'.mambaRestoreSrc = r.mambaRestoreSrc := by rw [hfields]
    have hslot : frozenSlot r'.toCacheFields = frozenSlot r.toCacheFields := by
      unfold frozenSlot
      rw [hpp, hidx]
    refine ⟨?_, ?_, ⟨?_, ?_⟩, ?_, ?_, ?_, ?_, ?_, ?_, ?_⟩
    · have hok := hrec.handle.mono hs.host
      have hhd : r'.cacheHandle = r.cacheHandle := by rw [hfields]
      show HandleOk r'.inputIds r'.hasMm r'.cacheHandle
      rw [hhd, hs.hasMm]
      exact hok
    · show r'.cacheHandle.node.length ≤ r'.cachedLen
      rw [hnode, hs.cachedLen]
      exact hrec.le
    · show r'.linearSlotIdx.isSome = true
      rw [hlive]
      exact hrec.slots.1
    · show r'.mambaPingPong.isSome = true
      rw [hpp]
      exact hrec.slots.2
    · show r'.mambaNextTrackIdx ≤ 1
      rw [hidx]
      exact hrec.idx
    · intro src hsome
      change r'.mambaRestoreSrc = some src at hsome
      rw [hsrc, hnone] at hsome
      cases hsome
    · intro _ hne live hl
      change r'.cachedLen ≠ 0 at hne
      change r'.linearSlotIdx = some live at hl
      rw [hs.cachedLen] at hne
      rw [hlive] at hl
      show _ = r'.deviceIds.take r'.cachedLen
      rw [hs.deviceIds, hs.cachedLen]
      exact hrec.state hnone hne live hl
    · rintro (ht | ht) <;> cases ht
    · intro t ht
      cases ht
    · intro tr ht
      cases ht
    · intro _
      show 0 < r'.cachedLen ∧ ∀ len, r'.mambaLastTrackSeqlen = some len → 0 < len ∧
        len ≤ r'.cachedLen ∧ r'.cacheHandle.node.length ≤ len ∧
          cm.linearStatePool.states (frozenSlot r'.toCacheFields) = r'.deviceIds.take len
      rw [hs.cachedLen, hlast, hnode, hslot, hs.deviceIds]
      exact ⟨hpos, hfrozen⟩

/-! ## Commits and finishes -/

theorem cacheReq_eq (h : HybridInv cm H) (r : Req) (finished : Bool) :
    cm.cacheReq r finished = cm.cacheReqHybrid r finished := by
  unfold CacheManager.cacheReq
  rw [h.owned.snapped.type]

/-- The slots of a running request, apart from those of the others. -/
theorem split_slots {stage : Stage} (h : HybridInv cm ((r, stage) :: R)) :
    ∃ live x y, r.linearSlotIdx = some live ∧ r.mambaPingPong = some (x, y) ∧
      OwnedH cm [] [] (live :: x :: y :: R.flatMap Held.stateSlots)
        (holding (r, stage) :: R.map holding) := by
  have hrec := h.recurrent _ List.mem_cons_self
  obtain ⟨live, hlive⟩ := Option.isSome_iff_exists.1 hrec.slots.1
  obtain ⟨⟨x, y⟩, hpp⟩ := Option.isSome_iff_exists.1 hrec.slots.2
  refine ⟨live, x, y, hlive, hpp, ?_⟩
  have ho := h.owned
  rw [List.flatMap_cons, List.map_cons] at ho
  have hslots : Held.stateSlots (r, stage) = [live, x, y] := by
    dsimp only at hlive hpp
    show CacheFields.stateSlots _ = _
    unfold CacheFields.stateSlots CacheFields.pingPongSlots
    rw [hlive, hpp]
    rfl
  rw [hslots] at ho
  exact ho

/-- What a launched request's slots hold, read on the host's tokens. -/
theorem live_states (hs : Shape (r, .live)) (hids : r.cachedLen ≤ r.inputIds.length)
    (h : Recurrent cm (r, .live)) :
    0 < r.cachedLen ∧
      (∀ live, r.linearSlotIdx = some live →
        cm.linearStatePool.states live = r.inputIds.take r.cachedLen) ∧
      ∀ len, r.mambaLastTrackSeqlen = some len → 0 < len ∧ len ≤ r.cachedLen ∧
        r.cacheHandle.node.length ≤ len ∧
          cm.linearStatePool.states (frozenSlot r.toCacheFields) = r.inputIds.take len := by
  obtain ⟨hpos, hfrozen⟩ := h.frozen (.inl rfl)
  have htake : ∀ len ≤ r.cachedLen, r.deviceIds.take len = r.inputIds.take len := by
    intro len hlen
    obtain ⟨w, hw⟩ := hs.host
    dsimp only at hw
    rw [← hw, List.take_append_of_le_length (hlen.trans hids)]
  have hnone := h.restore_none (not_waiting_live r)
  refine ⟨hpos, fun live hlive => ?_, fun len hlen => ?_⟩
  · rw [← htake _ le_rfl]
    exact h.state hnone (Nat.ne_of_gt hpos) live hlive
  · obtain ⟨h₀, hle, hnode, hst⟩ := hfrozen len hlen
    refine ⟨h₀, hle, hnode, ?_⟩
    rw [← htake _ hle]
    exact hst

theorem commit {f : CacheFields} (hs : Shape (r, .live)) (hids : r.cachedLen ≤ r.inputIds.length)
    (hc : cm.cacheReq r false = .ok (cm', f)) (h : HybridInv cm ((r, .live) :: R)) :
    HybridInv cm' (({ r with toCacheFields := f }, .live) :: R) := by
  rw [h.cacheReq_eq] at hc
  have hrec := h.recurrent _ List.mem_cons_self
  obtain ⟨live, x, y, hlive, hpp, ho⟩ := h.split_slots
  obtain ⟨hpos, hstate, hfrozen⟩ := live_states hs hids hrec
  unfold CacheManager.cacheReqHybrid at hc
  split at hc
  · rename_i hmm
    obtain ⟨cm₁, hu, hret⟩ := Py.bind_eq_ok.1 hc
    rw [if_neg (by simp)] at hret
    cases hret
    have hnil := hrec.handle.mm hmm
    dsimp only at hnil
    have hroot : OwnedH cm (r.cacheHandle.node :: []) [] (((r, Stage.live) :: R).flatMap
        Held.stateSlots) (((r, Stage.live) :: R).map holding) := by
      rw [hnil]
      exact OwnedH.cons_nil.2 h.owned
    obtain ⟨hown, -, hkept⟩ := hroot.unlock hu
    exact replace (H := [_]) (G := [_]) h
      (by rw [← List.flatMap_append, ← List.map_append]; exact hown) (hkept _)
      fun z hz => by
        rw [List.mem_singleton.1 hz]
        exact hrec.kept (hkept [_]) List.mem_cons_self
  · rename_i hmm
    rw [if_neg (by simp)] at hc
    obtain ⟨x', y', hd, rfl, hok, hown, hkept⟩ := ho.commitHybrid_ok (r := r) hrec.handle
      (by simpa using hmm) hids hpp (fun len hlen => by
        have := hfrozen len hlen
        unfold frozenSlot at this
        rw [hpp] at this
        exact this) hc
    rw [List.nil_append, map_node] at hkept
    have hnone := hrec.restore_none (not_waiting_live r)
    refine replace (H := [_]) (G := [_]) h ?_ hkept fun z hz => ?_
    · have hslots : Held.stateSlots ({ r with toCacheFields := { r.toCacheFields with
          cacheHandle := hd, mambaLastTrackSeqlen := none, mambaPingPong := some (x', y') } },
          .live) = [live, x', y'] := by
        show CacheFields.stateSlots _ = _
        unfold CacheFields.stateSlots CacheFields.pingPongSlots
        rw [hlive]
        rfl
      rw [List.flatMap_singleton, hslots]
      exact hown
    · rw [List.mem_singleton.1 hz]
      refine ⟨hok, (hown.pages.ok _ List.mem_cons_self).le, ⟨hrec.slots.1, rfl⟩, hrec.idx, ?_, ?_,
        fun _ => rfl, ?_, ?_, fun _ => ⟨hpos, ?_⟩⟩
      · intro src hsome
        change r.mambaRestoreSrc = some src at hsome
        rw [hnone] at hsome
        cases hsome
      · intro _ hne live' hl
        rw [hkept.states]
        exact hrec.state hnone hne live' hl
      · intro t ht
        cases ht
      · intro tr ht
        cases ht
      · intro len hlen
        cases hlen

theorem finish {f : CacheFields} (hs : Shape (r, .live)) (hids : r.cachedLen ≤ r.inputIds.length)
    (hc : cm.cacheReq r true = .ok (cm', f)) (h : HybridInv cm ((r, .live) :: R)) :
    HybridInv cm' R := by
  rw [h.cacheReq_eq] at hc
  have hrec := h.recurrent _ List.mem_cons_self
  obtain ⟨live, x, y, hlive, hpp, ho⟩ := h.split_slots
  obtain ⟨hpos, hstate, hfrozen⟩ := live_states hs hids hrec
  unfold CacheManager.cacheReqHybrid at hc
  split at hc
  · rename_i hmm
    obtain ⟨cm₁, hu, hret⟩ := Py.bind_eq_ok.1 hc
    rw [if_pos rfl] at hret
    obtain ⟨hown, ⟨c, n, rfl⟩, hkept⟩ := OwnedH.unlock ho.release hu
    have hdvd := h.owned.pages.locked.wf.boundary_dvd (h.owned.pages.locked.bound
      r.cacheHandle.node (List.mem_append_right _ List.mem_cons_self))
    have hpages : (holding (r, .live)).pages cm.pageSize cm.pageTable =
        stride cm.pageSize (slice (cm.rowOf r) r.cacheHandle.cachedLen r.cachedLen) := by
      rw [hrec.handle.len, ← stride_slice_divCeil _ h.owned.pages.pos hdvd hrec.le]
      rfl
    have hback := hown.free (slice (cm.rowOf r) r.cacheHandle.cachedLen r.cachedLen)
      (by rw [hpages])
    have hfinal := OwnedH.freeReqSlots (S := R.flatMap Held.stateSlots) (f := r.toCacheFields)
      false hback hlive (by
        unfold CacheFields.pingPongSlots
        rw [hpp]
        rfl)
    rw [Py.pure_eq_ok] at hret
    have hcm : (CacheManager.freeReqSlots _ r.toCacheFields false).1 = cm' :=
      congrArg Prod.fst hret
    rw [← hcm]
    refine replace (H := [_]) (G := []) h hfinal.1 ?_ (by simp)
    exact ((hkept _).trans (.free _ _ _)).trans (hfinal.2 _)
  · rename_i hmm
    rw [if_pos rfl] at hc
    obtain ⟨hown, hkept⟩ := ho.finishHybrid_ok (r := r) hrec.handle hids hlive hpp
      (fun len hlen => by
        have := hfrozen len hlen
        unfold frozenSlot at this
        rw [hpp] at this
        exact this.2.2) (fun _ => hstate live hlive) hc
    rw [List.nil_append, map_node] at hkept
    exact replace (H := [_]) (G := []) h hown hkept (by simp)

theorem ensureMamba (n : Nat) (h : HybridInv cm H) : HybridInv (cm.ensureMambaSlots n) H := by
  obtain ⟨hown, -, hkept⟩ := h.owned.ensureMambaSlots n
  rw [List.nil_append, map_node] at hkept
  exact h.of_owned hown hkept

theorem enterLazy (hz : cm.lazyFreeList = none) (h : HybridInv cm H) :
    HybridInv cm.enterLazyFreeRegion H :=
  h.of_owned (h.owned.repage (h.owned.pages.enterLazy hz) rfl rfl rfl (List.Perm.refl _))
    (.of_eq rfl rfl)

theorem exitLazy (h : HybridInv cm H) : HybridInv cm.exitLazyFreeRegion H :=
  h.of_owned (h.owned.repage h.owned.pages.exitLazy rfl rfl rfl (List.Perm.refl _))
    (.of_eq rfl rfl)

theorem laws (env : Env) {cfg : Config} (hc : cfg.cacheType = .hybridRadix) :
    Laws env cfg (fun _ _ => True) HybridInv where
  init := HybridInv.init hc
  perm := HybridInv.perm
  tried := HybridInv.tried
  admitted := HybridInv.admitted
  nextChunk := HybridInv.nextChunk
  preparePrefill := HybridInv.preparePrefill
  prepareDecode := HybridInv.prepareDecode
  forward := HybridInv.forward
  host := fun hs _ h => h.host hs
  commit := fun hs _ hids _ hc h => h.commit hs hids hc
  finish := HybridInv.finish
  enterLazy := HybridInv.enterLazy
  exitLazy := HybridInv.exitLazy
  ensureSwa := by
    intro cm H n hs h
    rw [(OwnedH.not_generic h.owned.snapped).2] at hs
    cases hs
  ensureMamba := fun _ h => h.ensureMamba _

end HybridInv

end FreeToken
