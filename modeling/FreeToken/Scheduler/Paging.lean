import FreeToken.Scheduler.Ownership
import FreeToken.Scheduler.Invariant

/-!
# Pages for the requests of a batch

What `allocate_paged` does to the ownership of the pages: the pages it takes become the tails of the
rows of the batch.  The steps that touch the second currencies only keep all pages where they are.
-/

set_option autoImplicit false

namespace FreeToken

open BlockTrie Blocks

/-! ## Writing rows -/

namespace PageTable

theorem copyRow_ne {t : PageTable} {row start : Nat} {values : List Nat} {i j : Nat}
    (h : i ≠ row ∨ j < start) : t.copyRow row start values i j = t i j := by
  unfold copyRow
  rw [if_neg (by omega)]

theorem copyRow_at {t : PageTable} {row start : Nat} {values : List Nat} {j : Nat}
    (h : start ≤ j) : t.copyRow row start values row j = values.getD (j - start) (t row j) := by
  unfold copyRow
  rw [if_pos ⟨rfl, h⟩]

theorem copyRow_past {t : PageTable} {row start : Nat} {values : List Nat} {j : Nat}
    (h : start + values.length ≤ j) : t.copyRow row start values row j = t row j := by
  rw [copyRow_at (by omega), List.getD_eq_getElem?_getD, List.getElem?_eq_none (by omega),
    Option.getD_none]

theorem slice_copyRow (t : PageTable) (row start : Nat) (values : List Nat) :
    slice (t.copyRow row start values row) start (start + values.length) = values := by
  refine List.ext_getElem? fun i => ?_
  rw [getElem?_slice, Nat.add_sub_cancel_left]
  split
  · rename_i hi
    rw [copyRow_at (by omega), Nat.add_sub_cancel_left, List.getD_eq_getElem?_getD,
      List.getElem?_eq_getElem hi, Option.getD_some]
  · rename_i hi
    rw [List.getElem?_eq_none (by omega)]

end PageTable

/-! ## A request grows -/

namespace Owned

variable {cm cm' : CacheManager} {X : List NodeRef} {P : List Nat} {H : List Holding}

/-- Within its last page a request grows without a new one. -/
theorem extend {row c d : Nat} {node : NodeRef} (h : Owned cm X P (⟨row, node, c⟩ :: H))
    (hcd : c ≤ d) (hpage : divCeil d cm.pageSize = divCeil c cm.pageSize) :
    Owned cm X P (⟨row, node, d⟩ :: H) := by
  have hslots : Holding.slots ⟨row, node, d⟩ cm.pageSize cm.pageTable =
      Holding.slots ⟨row, node, c⟩ cm.pageSize cm.pageTable := by
    rw [Holding.slots, Holding.slots, hpage]
  have hok := h.ok _ List.mem_cons_self
  refine h.release.seat (x := ⟨row, node, d⟩) ⟨hok.le.trans hcd, hok.reads, ?_⟩ h.row_ne ?_
  · rw [hslots]
    exact hok.paged
  · rw [Holding.pages, Holding.pages, hslots]

/-- New pages at the end of a request's row. -/
theorem grow {row c d : Nat} {node : NodeRef} {pages : List Nat}
    (h : Owned cm X (pages ++ P) (⟨row, node, c⟩ :: H)) (hcd : c ≤ d)
    (hlen : pages.length = divCeil d cm.pageSize - divCeil c cm.pageSize) :
    Owned { cm with
      pageTable := cm.pageTable.copyRow row (divCeil c cm.pageSize * cm.pageSize)
        (expand cm.pageSize pages) } X P (⟨row, node, d⟩ :: H) := by
  have hok := h.ok _ List.mem_cons_self
  have hmono := divCeil_mono cm.pageSize hcd
  have hcle := le_divCeil_mul c h.pos
  obtain ⟨own, hown⟩ := hok.paged
  have hend : divCeil c cm.pageSize * cm.pageSize + (expand cm.pageSize pages).length =
      divCeil d cm.pageSize * cm.pageSize := by
    rw [length_expand, hlen, ← Nat.add_mul, Nat.add_sub_cancel' hmono]
  have hnode : node.length ≤ divCeil c cm.pageSize * cm.pageSize := hok.le.trans hcle
  have hslots : Holding.slots ⟨row, node, d⟩ cm.pageSize (cm.pageTable.copyRow row
      (divCeil c cm.pageSize * cm.pageSize) (expand cm.pageSize pages)) =
      expand cm.pageSize (own ++ pages) := by
    rw [Holding.slots, ← slice_append _ hnode (Nat.mul_le_mul_right _ hmono), ← hend,
      PageTable.slice_copyRow, expand_append, ← hown]
    congr 1
    exact slice_congr fun j _ hj => PageTable.copyRow_ne (.inr hj)
  refine (h.release.writeRow _ fun y hy j => PageTable.copyRow_ne (.inl (h.row_ne y hy))).seat
    (x := ⟨row, node, d⟩) ⟨hok.le.trans hcd, ?_, ⟨_, hslots⟩⟩ h.row_ne ?_
  · refine hok.reads.congr fun k hk => ?_
    exact (PageTable.copyRow_ne (.inr (Nat.lt_of_lt_of_le hk hnode))).symm
  · show List.Perm (Holding.pages ⟨row, node, c⟩ cm.pageSize cm.pageTable ++ (pages ++ P)) _
    rw [Holding.pages, Holding.pages, hslots, hown, stride_expand h.pos, stride_expand h.pos,
      List.append_assoc]

/-- Pages given up by the tree go to the free list. -/
theorem refill {out : List Nat} (h : Owned cm X (out ++ P) H) :
    Owned { cm with freeSlots := cm.freeSlots ++ out } X P H := by
  refine { h with perm := List.Perm.trans ?_ h.perm }
  show ((cm.freeSlots ++ out) ++ _).Perm _
  rw [List.perm_iff_count]
  intro x
  simp only [List.count_append]
  omega

end Owned

/-! ## Allocation -/

namespace CacheManager

/-- An allocation evicts what is missing and takes the first pages. -/
theorem allocate_ok {cm cm' : CacheManager} {n : Nat} {pages : List Nat}
    (h : cm.allocate n = .ok (cm', pages)) : ∃ cm₁,
      (cm₁ = cm ∨ ∃ need cm₂ out, cm.evictPages need = .ok (cm₂, out) ∧
        cm₁ = { cm₂ with freeSlots := cm₂.freeSlots ++ stride cm₂.pageSize out }) ∧
      n ≤ cm₁.freeSlots.length ∧ cm' = (cm₁.takePages n).1 ∧ pages = (cm₁.takePages n).2 := by
  unfold allocate at h
  split at h
  · obtain ⟨⟨cm₂, out⟩, hev, hrest⟩ := Py.bind_eq_ok.1 h
    dsimp only at hrest
    split at hrest
    · rename_i hle
      cases hrest
      exact ⟨_, .inr ⟨_, cm₂, out, hev, rfl⟩, hle, rfl, rfl⟩
    · cases hrest
  · rename_i hle
    cases h
    exact ⟨cm, .inl rfl, Nat.le_of_not_lt hle, rfl, rfl⟩

/-- The pages a batch needs. -/
def neededPages (ps : Nat) (reqs : List Req) : Nat :=
  ((reqs.filterMap (allocationInfo ps)).map (fun a => a.lastPage - a.firstPage)).sum

/-- What the window pool does with the token slots a batch allocates. -/
theorem allocSwaSlots_ok {cm cm' : CacheManager} {allocated : List Nat}
    (h : cm.allocSwaSlots allocated = .ok cm') :
    (cm.swaPaged = false ∧ cm' = cm) ∨ (cm.swaPaged = true ∧ ∃ c p,
      c = (if cm.isSwa then cm.ensureSwaSlots allocated.length else cm) ∧
        c.swaPool.allocSwa allocated = .ok p ∧ cm' = { c with swaPool := p }) := by
  unfold allocSwaSlots at h
  dsimp only at h
  split at h
  · rename_i hpaged
    split at h
    · cases h
    · rename_i p hp
      cases h
      exact .inr ⟨hpaged, _, p, rfl, hp, rfl⟩
  · rename_i hpaged
    cases h
    exact .inl ⟨by simpa using hpaged, rfl⟩

theorem allocatePaged_ok {cm cm' : CacheManager} {reqs : List Req}
    (h : cm.allocatePaged reqs = .ok cm') :
    (neededPages cm.pageSize reqs = 0 ∧ cm' = cm) ∨ ∃ cm₁ pages cm₂ pt,
      cm.allocate (neededPages cm.pageSize reqs) = .ok (cm₁, pages) ∧
      cm₁.allocSwaSlots (expand cm₁.pageSize pages) = .ok cm₂ ∧
      pt = writePageTable cm₂.pageSize cm₂.pageTable (expand cm₁.pageSize pages)
        (reqs.filterMap (allocationInfo cm.pageSize)) ∧
      cm' = { cm₂ with pageTable := pt } := by
  unfold allocatePaged at h
  dsimp only at h
  split at h
  · obtain ⟨⟨cm₁, pages⟩, halloc, hrest⟩ := Py.bind_eq_ok.1 h
    obtain ⟨cm₂, hswa, hret⟩ := Py.bind_eq_ok.1 hrest
    cases hret
    exact .inr ⟨cm₁, pages, cm₂, _, halloc, hswa, rfl, rfl⟩
  · rename_i hzero
    cases h
    exact .inl ⟨Nat.eq_zero_of_not_pos hzero, rfl⟩

end CacheManager

/-! ## A batch grows -/

/-- The tokens of a held request that pages back. -/
def backed : Held → Nat
  | (r, .prepared _ _) => r.deviceLen
  | (r, _) => r.cachedLen

theorem Shape.cachedLen_le_backed {h : Held} (hs : Shape h) : h.1.cachedLen ≤ backed h := by
  obtain ⟨r, stage⟩ := h
  cases stage with
  | fresh => exact le_rfl
  | live => exact le_rfl
  | prepared phase tr =>
      cases phase with
      | prefill => exact (hs.built (.inr ⟨tr, rfl⟩)).1.le
      | decode =>
          have hdev : r.deviceLen = r.cachedLen + 1 := (hs.stepping ⟨tr, rfl⟩).1
          show r.cachedLen ≤ r.deviceLen
          omega

def holding (h : Held) : Holding where
  row := h.1.row
  node := h.1.cacheHandle.node
  upto := backed h

/-- A request before and after its pages are taken. -/
def Req.holdingAt (r : Req) (upto : Nat) : Holding where
  row := r.row
  node := r.cacheHandle.node
  upto := upto

namespace Owned

variable {cm cm' : CacheManager} {X : List NodeRef} {P : List Nat} {H : List Holding}

/-- The pages of an allocation go to the rows of the batch, in order. -/
theorem writeRows {reqs : List Req} (hlen : ∀ r ∈ reqs, r.cachedLen ≤ r.deviceLen) :
    ∀ {cm : CacheManager} {H : List Holding} {pages : List Nat},
      Owned cm X (pages ++ P) (reqs.map (fun r => r.holdingAt r.cachedLen) ++ H) →
      pages.length = CacheManager.neededPages cm.pageSize reqs →
      Owned { cm with
        pageTable := CacheManager.writePageTable cm.pageSize cm.pageTable
          (expand cm.pageSize pages) (reqs.filterMap (CacheManager.allocationInfo cm.pageSize)) }
        X P (reqs.map (fun r => r.holdingAt r.deviceLen) ++ H) := by
  induction reqs with
  | nil =>
      intro cm H pages h hpages
      have : pages = [] := List.eq_nil_of_length_eq_zero hpages
      subst this
      exact h
  | cons r reqs ih =>
      intro cm H pages h hpages
      have hr := hlen r List.mem_cons_self
      have hrest := fun x hx => hlen x (List.mem_cons_of_mem _ hx)
      have hmid : (r.holdingAt r.deviceLen :: (reqs.map (fun r => r.holdingAt r.cachedLen) ++ H)).Perm
          (reqs.map (fun r => r.holdingAt r.cachedLen) ++ r.holdingAt r.deviceLen :: H) :=
        List.perm_middle.symm
      have hend : (reqs.map (fun r => r.holdingAt r.deviceLen) ++ r.holdingAt r.deviceLen :: H).Perm
          (r.holdingAt r.deviceLen :: (reqs.map (fun r => r.holdingAt r.deviceLen) ++ H)) :=
        List.perm_middle
      rw [List.filterMap_cons]
      unfold CacheManager.neededPages at hpages
      rw [List.filterMap_cons] at hpages
      by_cases hpage : divCeil r.cachedLen cm.pageSize < divCeil r.deviceLen cm.pageSize
      · have hinfo : CacheManager.allocationInfo cm.pageSize r = some
            { tableIdx := r.tableIdx.getD 0, firstPage := divCeil r.cachedLen cm.pageSize
              lastPage := divCeil r.deviceLen cm.pageSize } := if_pos hpage
        rw [hinfo] at hpages ⊢
        dsimp only at hpages ⊢
        rw [List.map_cons, List.sum_cons] at hpages
        dsimp only at hpages
        -- the first request takes its pages from the front of the allocation
        have hsplit := List.take_append_drop
          (divCeil r.deviceLen cm.pageSize - divCeil r.cachedLen cm.pageSize) pages
        generalize hp₁ : pages.take
          (divCeil r.deviceLen cm.pageSize - divCeil r.cachedLen cm.pageSize) = p₁ at hsplit
        generalize pages.drop
          (divCeil r.deviceLen cm.pageSize - divCeil r.cachedLen cm.pageSize) = p₂ at hsplit
        have hp₁len : p₁.length =
            divCeil r.deviceLen cm.pageSize - divCeil r.cachedLen cm.pageSize := by
          rw [← hp₁, List.length_take]
          omega
        subst hsplit
        rw [List.length_append, hp₁len] at hpages
        have hexp : (expand cm.pageSize p₁).length = divCeil r.deviceLen cm.pageSize * cm.pageSize -
            divCeil r.cachedLen cm.pageSize * cm.pageSize := by
          rw [length_expand, hp₁len, Nat.sub_mul]
        rw [CacheManager.writePageTable, expand_append, ← hexp]
        dsimp only
        rw [List.take_left, List.drop_left]
        rw [List.append_assoc] at h
        have hgrow := grow (c := r.cachedLen) h hr hp₁len
        exact (ih hrest (hgrow.holdings_perm hmid) (by
          dsimp only
          unfold CacheManager.neededPages
          omega)).holdings_perm hend
      · have hinfo : CacheManager.allocationInfo cm.pageSize r = none := if_neg hpage
        rw [hinfo] at hpages ⊢
        have heq : divCeil r.deviceLen cm.pageSize = divCeil r.cachedLen cm.pageSize :=
          Nat.le_antisymm (Nat.le_of_not_lt hpage) (divCeil_mono _ hr)
        have hext := extend (c := r.cachedLen) h hr heq
        exact (ih hrest (hext.holdings_perm hmid) hpages).holdings_perm hend

/-- With no page to take, a batch grows within its last pages. -/
theorem growNone {reqs : List Req} (hlen : ∀ r ∈ reqs, r.cachedLen ≤ r.deviceLen)
    (h : Owned cm X P (reqs.map (fun r => r.holdingAt r.cachedLen) ++ H))
    (hzero : CacheManager.neededPages cm.pageSize reqs = 0) :
    Owned cm X P (reqs.map (fun r => r.holdingAt r.deviceLen) ++ H) := by
  have hinfo : reqs.filterMap (CacheManager.allocationInfo cm.pageSize) = [] := by
    by_contra hne
    obtain ⟨a, rest, hcons⟩ := List.exists_cons_of_ne_nil hne
    have ha : a ∈ reqs.filterMap (CacheManager.allocationInfo cm.pageSize) :=
      hcons ▸ List.mem_cons_self
    obtain ⟨r, -, hra⟩ := List.mem_filterMap.1 ha
    unfold CacheManager.allocationInfo at hra
    dsimp only at hra
    split at hra
    · rename_i hlt
      cases hra
      unfold CacheManager.neededPages at hzero
      rw [hcons, List.map_cons, List.sum_cons] at hzero
      dsimp only at hzero
      omega
    · cases hra
  have := writeRows hlen (show Owned cm X ([] ++ P) _ from h) hzero.symm
  rw [hinfo] at this
  exact this

end Owned

/-! ## Frames -/

/-- Only the window pool changes. -/
def OnlySwaPool (cm cm' : CacheManager) : Prop := ∃ p, cm' = { cm with swaPool := p }

/-- Only the second currencies change. -/
def OnlyPools (cm cm' : CacheManager) : Prop :=
  ∃ p l, cm' = { cm with swaPool := p, linearStatePool := l }

theorem OnlySwaPool.refl (cm : CacheManager) : OnlySwaPool cm cm := ⟨_, rfl⟩

theorem OnlySwaPool.trans {a b c : CacheManager} (h : OnlySwaPool a b) (h' : OnlySwaPool b c) :
    OnlySwaPool a c := by
  obtain ⟨p, rfl⟩ := h
  obtain ⟨q, rfl⟩ := h'
  exact ⟨q, rfl⟩

theorem OnlySwaPool.samePages {cm cm' : CacheManager} (h : OnlySwaPool cm cm') :
    SamePages cm cm' := by
  obtain ⟨p, rfl⟩ := h
  exact ⟨rfl, rfl, rfl, rfl, rfl, rfl, rfl, rfl⟩

theorem OnlyPools.refl (cm : CacheManager) : OnlyPools cm cm := ⟨_, _, rfl⟩

theorem OnlyPools.trans {a b c : CacheManager} (h : OnlyPools a b) (h' : OnlyPools b c) :
    OnlyPools a c := by
  obtain ⟨p, l, rfl⟩ := h
  obtain ⟨q, m, rfl⟩ := h'
  exact ⟨q, m, rfl⟩

theorem OnlyPools.samePages {cm cm' : CacheManager} (h : OnlyPools cm cm') : SamePages cm cm' := by
  obtain ⟨p, l, rfl⟩ := h
  exact ⟨rfl, rfl, rfl, rfl, rfl, rfl, rfl, rfl⟩

/-- A frame of one request's step is a frame of the whole batch's. -/
theorem forReqs_frame {R : CacheManager → CacheManager → Prop} (hrefl : ∀ a, R a a)
    (htrans : ∀ a b c, R a b → R b c → R a c) {f : CacheManager → Req → CacheManager × Req}
    (hf : ∀ cm r, R cm (f cm r).1) (cm : CacheManager) (reqs : List Req) :
    R cm (CacheManager.forReqs f cm reqs).1 := by
  induction reqs generalizing cm with
  | nil => exact hrefl cm
  | cons r reqs ih => exact htrans _ _ _ (hf cm r) (ih _)

theorem freeSwa_onlySwaPool (cm : CacheManager) (indices : List Nat) :
    OnlySwaPool cm (cm.freeSwa indices) := by
  unfold CacheManager.freeSwa
  split
  · exact ⟨_, rfl⟩
  · exact .refl cm

theorem freeOutOfWindow_onlySwaPool (cm : CacheManager) (r : Req) (n : Int) :
    OnlySwaPool cm (cm.freeOutOfWindow r n).1 := by
  unfold CacheManager.freeOutOfWindow
  dsimp only
  split
  · exact freeSwa_onlySwaPool cm _
  · exact .refl cm

theorem freeBeforeAlloc_onlySwaPool (cm : CacheManager) (phase : Phase) (reqs : List Req)
    (it : Nat) : OnlySwaPool cm (freeBeforeAlloc cm phase reqs it).1 := by
  have hbatch := fun f hf => forReqs_frame (f := f) OnlySwaPool.refl
    (fun _ _ _ => OnlySwaPool.trans) hf cm reqs
  cases phase with
  | prefill =>
      unfold freeBeforeAlloc CacheManager.freeSwaOutOfWindowExtend
      dsimp only
      split
      · exact .refl cm
      · exact hbatch _ fun cm r => freeOutOfWindow_onlySwaPool cm r _
  | decode =>
      unfold freeBeforeAlloc CacheManager.maybeFreeSwaOutOfWindow
      dsimp only
      split
      · exact .refl cm
      · refine hbatch _ fun cm r => ?_
        unfold CacheManager.maybeFreeSwaReq
        split
        · exact .refl cm
        · exact freeOutOfWindow_onlySwaPool cm _ _

theorem allocSwaSlots_onlySwaPool {cm cm' : CacheManager} {allocated : List Nat}
    (hswa : cm.isSwa = false) (h : cm.allocSwaSlots allocated = .ok cm') : OnlySwaPool cm cm' := by
  rcases CacheManager.allocSwaSlots_ok h with ⟨-, rfl⟩ | ⟨-, c, p, hc, -, rfl⟩
  · exact .refl _
  · rw [hswa] at hc
    subst hc
    exact ⟨p, rfl⟩

theorem restoreReq_onlyPools (cm : CacheManager) (r : Req) :
    OnlyPools cm (restoreReq cm r).1 := by
  unfold restoreReq
  split
  · exact ⟨_, _, rfl⟩
  · exact .refl cm

theorem snapshotAnchorReq_onlyPools (cm : CacheManager) (r : Req) :
    OnlyPools cm (cm.snapshotAnchorReq r).1 := by
  unfold CacheManager.snapshotAnchorReq
  split
  · split
    · exact ⟨_, _, rfl⟩
    · exact .refl cm
  · exact .refl cm

theorem forwardReqs_onlyPools (env : Env) (cm : CacheManager) (batch : List (Req × Option Track)) :
    OnlyPools cm (forwardReqs env cm batch).1 := by
  induction batch generalizing cm with
  | nil => exact .refl cm
  | cons x batch ih => exact OnlyPools.trans ⟨_, _, rfl⟩ (ih _)

theorem forwardBatch_onlyPools (env : Env) (cm : CacheManager) (phase : Phase)
    (batch : List (Req × Option Track)) : OnlyPools cm (forwardBatch env cm phase batch).1 := by
  have hrestore : OnlyPools cm (restoreStates cm phase batch).1 := by
    cases phase with
    | decode => exact .refl cm
    | prefill =>
        exact forReqs_frame OnlyPools.refl (fun _ _ _ => OnlyPools.trans) restoreReq_onlyPools cm _
  have hsnap : ∀ cm batch, OnlyPools cm (snapshotAnchors env cm phase batch).1 := by
    intro cm batch
    cases phase with
    | prefill => exact .refl cm
    | decode =>
        unfold snapshotAnchors CacheManager.snapshotToolcallAnchor
        dsimp only
        split
        · split
          · exact forReqs_frame OnlyPools.refl (fun _ _ _ => OnlyPools.trans)
              snapshotAnchorReq_onlyPools cm _
          · exact .refl cm
        · exact .refl cm
  exact (hrestore.trans (hsnap _ _)).trans (forwardReqs_onlyPools env _ _)

/-! ## A batch is prepared -/

theorem holding_marked {r r' : Req} (h : Marked r r') (n : Nat) :
    r'.holdingAt n = r.holdingAt n ∧ r'.cachedLen = r.cachedLen ∧ r'.deviceLen = r.deviceLen := by
  obtain ⟨e, d, a, l, x, rfl⟩ := h
  exact ⟨rfl, rfl, rfl⟩

theorem map_holdingAt_marked {reqs reqs' : List Req} (h : List.Forall₂ Marked reqs reqs') :
    reqs'.map (fun r => r.holdingAt r.cachedLen) = reqs.map (fun r => r.holdingAt r.cachedLen) := by
  induction h with
  | nil => rfl
  | cons hm _ ih =>
      obtain ⟨hh, hc, -⟩ := holding_marked hm _
      rw [List.map_cons, List.map_cons, ih, hc, hh]

theorem map_holding_trackBatch (phase : Phase) (reqs : List Req) :
    (launched phase (trackBatch phase reqs)).map holding =
      reqs.map fun r => r.holdingAt r.deviceLen := by
  cases phase with
  | decode =>
      rw [launched, trackBatch, List.map_map, List.map_map]
      rfl
  | prefill =>
      rw [launched, trackBatch, List.map_map, List.map_map]
      refine List.map_congr_left fun r _ => ?_
      obtain ⟨hh, -, hd⟩ := holding_marked (trackReq_marked r) r.deviceLen
      show (trackReq r).1.holdingAt (trackReq r).1.deviceLen = _
      rw [hd, hh]

/-- A launch computes the tokens whose pages the batch was prepared with. -/
theorem map_holding_launched {env : Env} {phase : Phase} {batch : List (Req × Option Track)}
    {out : List (Req × Token)} (h : List.Forall₂ (fun x y => Launched env x.1 y.1) batch out) :
    (out.map (fun x => ((x.1, .live) : Held))).map holding = (launched phase batch).map holding := by
  induction h with
  | nil => rfl
  | cons hx _ ih =>
      rw [launched] at ih ⊢
      rw [List.map_cons, List.map_cons, List.map_cons, List.map_cons, ih]
      obtain ⟨src, l, i, hy⟩ := hx
      rw [hy]
      rfl

/-- What an eviction for an allocation keeps beside the ownership of the pages. -/
structure EvictLaw (K : CacheManager → Prop) (X : List NodeRef) (P : List Nat)
    (H : List Holding) : Prop where
  congr : ∀ cm cm' : CacheManager, cm'.cacheType = cm.cacheType →
    cm'.prefixCache = cm.prefixCache → cm'.linearStatePool = cm.linearStatePool → K cm → K cm'
  notSwa : ∀ {cm : CacheManager}, K cm → cm.isSwa = false
  evict : ∀ {cm cm' : CacheManager} {need : Nat} {out : List Nat}, K cm → Owned cm X P H →
    cm.evictPages need = .ok (cm', out) →
      K cm' ∧ Owned cm' X (stride cm'.pageSize out ++ P) H ∧ cm'.pageSize = cm.pageSize

theorem EvictLaw.onlySwaPool {K : CacheManager → Prop} {X : List NodeRef} {P : List Nat}
    {H : List Holding} (L : EvictLaw K X P H) {cm cm' : CacheManager} (h : OnlySwaPool cm cm')
    (hK : K cm) : K cm' := by
  obtain ⟨p, rfl⟩ := h
  exact L.congr cm _ rfl rfl rfl hK

namespace Owned

variable {cm cm' : CacheManager} {X : List NodeRef} {P : List Nat} {H : List Holding}
  {K : CacheManager → Prop}

theorem allocate (L : EvictLaw K X P H) (hK : K cm) (h : Owned cm X P H) {n : Nat}
    {pages : List Nat} (ha : cm.allocate n = .ok (cm', pages)) :
    K cm' ∧ Owned cm' X (pages ++ P) H ∧ pages.length = n ∧ cm'.pageSize = cm.pageSize := by
  obtain ⟨cm₁, hcm₁, hlen, rfl, rfl⟩ := CacheManager.allocate_ok ha
  have h₁ : K cm₁ ∧ Owned cm₁ X P H ∧ cm₁.pageSize = cm.pageSize := by
    rcases hcm₁ with rfl | ⟨need, cm₂, out, hev, rfl⟩
    · exact ⟨hK, h, rfl⟩
    · obtain ⟨hK₂, h₂, hps⟩ := L.evict hK h hev
      exact ⟨L.congr cm₂ _ rfl rfl rfl hK₂, h₂.refill, hps⟩
  refine ⟨L.congr cm₁ _ rfl rfl rfl h₁.1, h₁.2.1.takePages n, ?_, h₁.2.2⟩
  show (cm₁.freeSlots.take n).length = n
  rw [List.length_take, Nat.min_eq_left hlen]

/-- A prepared batch owns the pages of the tokens it is about to compute. -/
theorem prepared {phase : Phase} {reqs : List Req} {it : Nat} {batch : List (Req × Option Track)}
    (L : EvictLaw K X P (reqs.map (fun r => r.holdingAt r.cachedLen) ++ H)) (hK : K cm)
    (h : Owned cm X P (reqs.map (fun r => r.holdingAt r.cachedLen) ++ H))
    (hlen : ∀ r ∈ reqs, r.cachedLen ≤ r.deviceLen)
    (hp : prepareBatch cm phase reqs it = .ok (cm', batch)) :
    K cm' ∧ Owned cm' X P ((launched phase batch).map holding ++ H) := by
  obtain ⟨halloc, rfl⟩ := prepareBatch_ok hp
  have hfree := freeBeforeAlloc_onlySwaPool cm phase reqs it
  have hmarked := freeBeforeAlloc_marked cm phase reqs it
  rw [map_holding_trackBatch]
  generalize (freeBeforeAlloc cm phase reqs it).1 = cm₀ at hfree halloc
  generalize (freeBeforeAlloc cm phase reqs it).2 = reqs' at hmarked halloc
  have hK₀ := L.onlySwaPool hfree hK
  have h₀ := h.congr hfree.samePages
  rw [← map_holdingAt_marked hmarked] at L h₀
  have hlen' : ∀ r ∈ reqs', r.cachedLen ≤ r.deviceLen := by
    intro r' hr'
    obtain ⟨r, hr, hm⟩ := forall_mem_right hmarked hr'
    obtain ⟨-, hc, hd⟩ := holding_marked hm 0
    rw [hc, hd]
    exact hlen r hr
  rcases CacheManager.allocatePaged_ok halloc with ⟨hzero, rfl⟩ | ⟨cm₁, pages, cm₂, pt, ha, hs, rfl,
    rfl⟩
  · exact ⟨hK₀, h₀.growNone hlen' hzero⟩
  · obtain ⟨hK₁, h₁, hpages, hps₁⟩ := h₀.allocate L hK₀ ha
    have hswa := allocSwaSlots_onlySwaPool (L.notSwa hK₁) hs
    have hps₂ := hswa.samePages.pageSize
    refine ⟨L.congr cm₂ _ rfl rfl rfl (L.onlySwaPool hswa hK₁), ?_⟩
    have := writeRows hlen' (h₁.congr hswa.samePages) (by rw [hps₂, hps₁, hpages])
    rw [hps₂, hps₁] at this ⊢
    exact this

end Owned

end FreeToken
