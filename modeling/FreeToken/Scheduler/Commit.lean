import FreeToken.Scheduler.Paging

/-!
# Seating and committing a request

The part of an admission and of a commit that all prefix caches share: the matched prefix is written
into a row nobody holds, a commit hands the request's pages past the walk's end to the tree and
re-points the row where others had committed before.
-/

set_option autoImplicit false

namespace FreeToken

open BlockTrie Blocks

/-- Only the tree and the clock change. -/
def OnlyTree (cm cm' : CacheManager) : Prop :=
  ∃ c n, cm' = { cm with prefixCache := c, now := n }

theorem OnlyTree.refl (cm : CacheManager) : OnlyTree cm cm := ⟨_, _, rfl⟩

theorem OnlyTree.trans {a b c : CacheManager} (h : OnlyTree a b) (h' : OnlyTree b c) :
    OnlyTree a c := by
  obtain ⟨t, n, rfl⟩ := h
  obtain ⟨u, m, rfl⟩ := h'
  exact ⟨u, m, rfl⟩

/-- Only the free lists and the window pool change. -/
def OnlyFreed (cm cm' : CacheManager) : Prop :=
  ∃ p fs lz, cm' = { cm with swaPool := p, freeSlots := fs, lazyFreeList := lz }

theorem free_onlyFreed (cm : CacheManager) (indices : List Nat) : OnlyFreed cm (cm.free indices) := by
  unfold CacheManager.free
  split
  · exact ⟨_, _, _, rfl⟩
  · exact ⟨_, _, _, rfl⟩

theorem freeBoth_onlyFreed (cm : CacheManager) (indices : List Nat) :
    OnlyFreed cm (cm.freeBoth indices) := by
  obtain ⟨p, hp⟩ := freeSwa_onlySwaPool cm indices
  unfold CacheManager.freeBoth
  rw [hp]
  obtain ⟨q, fs, lz, hq⟩ := free_onlyFreed { cm with swaPool := p } indices
  exact ⟨q, fs, lz, hq⟩

/-- A handle names a node on the path of the request's own tokens; a multimodal request never
shares. -/
structure HandleOk (ids : List Token) (hasMm : Bool) (hd : CacheHandle) : Prop where
  len : hd.cachedLen = hd.node.length
  ids : hd.node <+: ids
  mm : hasMm = true → hd.node = []

theorem HandleOk.mono {ids ids' : List Token} {hasMm : Bool} {hd : CacheHandle}
    (h : HandleOk ids hasMm hd) (hle : ids <+: ids') : HandleOk ids' hasMm hd :=
  ⟨h.len, h.ids.trans hle, h.mm⟩

theorem HandleOk.take {ids : List Token} {hasMm : Bool} {hd : CacheHandle}
    (h : HandleOk ids hasMm hd) {n : Nat} (hn : hd.node.length ≤ n) :
    HandleOk (ids.take n) hasMm hd :=
  ⟨h.len, List.prefix_take_iff.2 ⟨h.ids, hn⟩, h.mm⟩

/-- The values on a path are whole pages. -/
theorem paged_pathValues {ps : Nat} {t : RadixTree} (hw : WF ps t) (hp : Paged ps t) {r : NodeRef}
    (hr : Boundary t r) : ∃ pages, pathValues t r = expand ps pages := by
  have hall : ∀ ns : List RadixTreeNode, (∀ n ∈ ns, n ∈ t) →
      ∃ pages, ns.flatMap (fun n => n.value) = expand ps pages := by
    intro ns
    induction ns with
    | nil => exact fun _ => ⟨[], rfl⟩
    | cons n ns ih =>
        intro hns
        obtain ⟨p, hp⟩ := hp n (hns n List.mem_cons_self)
        obtain ⟨q, hq⟩ := ih fun m hm => hns m (List.mem_cons_of_mem _ hm)
        exact ⟨p ++ q, by rw [List.flatMap_cons, hp, hq, expand_append]⟩
  obtain ⟨pages, hpages⟩ := hall (chain t r).reverse fun n hn =>
    ((hw.mem_chain hr).1 (List.mem_reverse.1 hn)).1
  exact ⟨pages, hpages⟩

theorem retag_data (t : RadixTree) : retag t (fun n => n.data) = t := List.map_id t

namespace Owned

variable {cm cm' : CacheManager} {X : List NodeRef} {P : List Nat} {H : List Holding}

/-! ## Seating -/

/-- A request that just got its row has no page of its own. -/
theorem slots_nil {ps : Nat} {pt : PageTable} {row : Nat} {node : NodeRef} (hps : 0 < ps)
    (hd : ps ∣ node.length) : Holding.slots ⟨row, node, node.length⟩ ps pt = [] := by
  unfold Holding.slots
  dsimp only
  rw [divCeil_mul_of_dvd hps hd, slice_self]

theorem pages_nil {ps : Nat} {pt : PageTable} {row : Nat} {node : NodeRef} (hps : 0 < ps)
    (hd : ps ∣ node.length) : Holding.pages ⟨row, node, node.length⟩ ps pt = [] := by
  rw [Holding.pages, slots_nil hps hd, stride_nil]

/-- A row that holds the values on a node's path, and no page of its own. -/
theorem ok_of_pathValues {ps : Nat} {t : RadixTree} (pt : PageTable) (row : Nat) {node : NodeRef}
    (hps : 0 < ps) (hw : WF ps t) (hb : Boundary t node)
    (hrow : ∀ k < node.length, pt row k = (pathValues t node).getD k 0) :
    Holding.Ok ps t pt ⟨row, node, node.length⟩ :=
  ⟨le_rfl, (hw.reads_pathValues hb).congr fun k hk => (hrow k hk).symm, [],
    slots_nil hps (hw.boundary_dvd hb)⟩

/-- An admission writes the matched prefix into a row nobody holds. -/
theorem seatRow {hd : CacheHandle} (h : Owned cm (hd.node :: X) P H) {row : Nat}
    (hrow : ∀ y ∈ H, y.row ≠ row) (hlen : hd.cachedLen = hd.node.length)
    (hval : cm.getMatchedIndices hd = pathValues cm.prefixCache.nodes hd.node) :
    Owned (PrefillAdder.seatRow cm row hd) X P (⟨row, hd.node, hd.node.length⟩ :: H) ∧
      ∃ pt, PrefillAdder.seatRow cm row hd = { cm with pageTable := pt } := by
  have hb := h.boundary
  have hw := h.locked.wf
  have hpath := hw.length_pathValues hb
  unfold PrefillAdder.seatRow
  rw [hval, hpath, hlen, Nat.sub_self]
  split
  · refine ⟨?_, _, rfl⟩
    have h' := h.writeRow (cm.pageTable.copyRow row 0
      (pathValues cm.prefixCache.nodes hd.node)) fun y hy j =>
        PageTable.copyRow_ne (.inl (hrow y hy))
    have hok := ok_of_pathValues (cm.pageTable.copyRow row 0
      (pathValues cm.prefixCache.nodes hd.node)) row h.pos hw hb (by
        intro k hk
        rw [PageTable.copyRow_at (Nat.zero_le k), Nat.sub_zero, List.getD_eq_getElem?_getD,
          List.getD_eq_getElem?_getD, List.getElem?_eq_getElem (hpath ▸ hk)]
        rfl)
    exact h'.seat hok hrow (by rw [pages_nil h.pos (hw.boundary_dvd hb)]; exact List.Perm.refl _)
  · rename_i hzero
    have hnil : hd.node = [] := List.eq_nil_of_length_eq_zero (Nat.eq_zero_of_not_pos hzero)
    refine ⟨?_, _, rfl⟩
    have hok := ok_of_pathValues cm.pageTable row h.pos hw hb (by
      rw [hnil]
      exact fun k hk => absurd hk (Nat.not_lt_zero k))
    exact h.seat hok hrow (by rw [pages_nil h.pos (hw.boundary_dvd hb)]; exact List.Perm.refl _)

/-! ## Committing -/

theorem freeBoth {P' : List Nat} (h : Owned cm X P H) {indices : List Nat}
    (hP : P.Perm (stride cm.pageSize indices ++ P')) : Owned (cm.freeBoth indices) X P' H := by
  have hswa := (freeSwa_onlySwaPool cm indices).samePages
  refine (h.congr hswa).free _ ?_
  rw [hswa.pageSize]
  exact hP

/-- Every page-aligned prefix of a request's row is whole pages. -/
theorem paged_prefix {x : Holding} (h : Owned cm X P (x :: H)) {m : Nat}
    (hm : m ≤ divCeil x.upto cm.pageSize * cm.pageSize) (hd : cm.pageSize ∣ m) :
    ∃ pages, slice (cm.pageTable x.row) 0 m = expand cm.pageSize pages := by
  have hok := h.ok x List.mem_cons_self
  have hb := h.locked.bound x.node (List.mem_append_right _ List.mem_cons_self)
  have hw := h.locked.wf
  obtain ⟨shared, hshared⟩ := paged_pathValues hw h.paged hb
  obtain ⟨own, hown⟩ := hok.paged
  have hle : x.node.length ≤ divCeil x.upto cm.pageSize * cm.pageSize :=
    hok.le.trans (le_divCeil_mul _ h.pos)
  have hall : slice (cm.pageTable x.row) 0 (divCeil x.upto cm.pageSize * cm.pageSize) =
      expand cm.pageSize (shared ++ own) := by
    rw [← slice_append _ (Nat.zero_le _) hle, ← (hw.reads_iff hb _).1 hok.reads, hshared,
      expand_append, ← hown]
    rfl
  refine ⟨_, Eq.trans ?_ (expand_cut h.pos (shared ++ own) hd).1⟩
  rw [← hall, ← slice_append _ (Nat.zero_le m) hm]
  exact (List.take_left' (length_slice _ _ _)).symm

theorem paged_slice {x : Holding} (h : Owned cm X P (x :: H)) {a b : Nat} (hab : a ≤ b)
    (hb : b ≤ divCeil x.upto cm.pageSize * cm.pageSize) (hda : cm.pageSize ∣ a)
    (hdb : cm.pageSize ∣ b) : ∃ pages, slice (cm.pageTable x.row) a b = expand cm.pageSize pages := by
  obtain ⟨pages, hpages⟩ := h.paged_prefix hb hdb
  refine ⟨_, Eq.trans ?_ (expand_cut h.pos pages hda).2⟩
  rw [← hpages, ← slice_append _ (Nat.zero_le a) hab]
  exact (List.drop_left' (by rw [length_slice, Nat.sub_zero])).symm

/-- An insert of a request's row: the pages up to the walk's end are the request's again, those past
it the tree's. -/
theorem committed {x : Holding} (h : Owned cm X P (x :: H)) {c : PrefixCache} {ids : NodeRef}
    {k : Nat} (hnode : x.node <+: ids) (hids : ids.length ≤ x.upto) (hd : cm.pageSize ∣ ids.length)
    (hi : RadixPrefixCache.Inserted cm.pageSize (x.node :: X ++ H.map Holding.node)
      cm.prefixCache.nodes ids (slice (cm.pageTable x.row) 0 ids.length) c.nodes k)
    (hc : c.pageSize = cm.pageSize) :
    x.node.length ≤ k ∧ Owned { cm with prefixCache := c } (x.node :: X)
      (stride cm.pageSize (slice (cm.pageTable x.row) x.node.length k) ++
        (stride cm.pageSize (slice (cm.pageTable x.row) ids.length
          (divCeil x.upto cm.pageSize * cm.pageSize)) ++ P)) H := by
  have hok := h.ok x List.mem_cons_self
  have hb := h.locked.bound x.node (List.mem_append_right _ List.mem_cons_self)
  have hnd := h.locked.wf.boundary_dvd hb
  have hup : ids.length ≤ divCeil x.upto cm.pageSize * cm.pageSize :=
    hids.trans (le_divCeil_mul _ h.pos)
  have hk : x.node.length ≤ k := by
    refine hi.longest _ hnode.length_le ?_
    rw [← List.prefix_iff_eq_take.1 hnode]
    exact hb
  refine ⟨hk, h.release.inserted hi hc ?_⟩
  have hdrop : (slice (cm.pageTable x.row) 0 ids.length).drop k =
      slice (cm.pageTable x.row) k ids.length := by
    rw [← slice_append _ (Nat.zero_le k) hi.le]
    exact List.drop_left' (length_slice _ _ _)
  have hsplit : x.pages cm.pageSize cm.pageTable =
      stride cm.pageSize (slice (cm.pageTable x.row) x.node.length k) ++
        (stride cm.pageSize (slice (cm.pageTable x.row) k ids.length) ++
          stride cm.pageSize (slice (cm.pageTable x.row) ids.length
            (divCeil x.upto cm.pageSize * cm.pageSize))) := by
    rw [Holding.pages, Holding.slots, ← slice_append _ hk (hi.le.trans hup),
      ← slice_append _ hi.le hup, stride_append h.pos, stride_append h.pos]
    · rw [length_slice]
      exact Nat.dvd_sub hd hi.dvd
    · rw [length_slice]
      exact Nat.dvd_sub hi.dvd hnd
  rw [hdrop, hsplit, List.perm_iff_count]
  intro a
  simp only [List.count_append]
  omega

/-- What a request's row holds of a committed prefix before it is re-pointed. -/
theorem committed_reads {x : Holding} (h : Owned cm X P (x :: H)) {t' : RadixTree} {ids : NodeRef}
    {k : Nat} {L : List NodeRef} (hnode : x.node <+: ids)
    (hi : RadixPrefixCache.Inserted cm.pageSize L cm.prefixCache.nodes ids
      (slice (cm.pageTable x.row) 0 ids.length) t' k) :
    ∀ i < ids.length, i < x.node.length ∨ k ≤ i → ReadsAt t' ids i (cm.pageTable x.row i) := by
  intro i hilt hcase
  have hok := h.ok x List.mem_cons_self
  rcases hcase with hin | hki
  · exact (hi.reads _ _ hok.reads i hin).mono hnode
  · refine hi.fresh i _ hki ?_
    rw [getElem?_slice, if_pos (by omega), Nat.zero_add]

/-- A change of the data alone keeps what a row holds. -/
theorem ok_retag {ps : Nat} {t : RadixTree} {pt : PageTable} {x : Holding}
    {g : RadixTreeNode → NodeData} (h : x.Ok ps t pt) : x.Ok ps (retag t g) pt :=
  ⟨h.le, reads_retag h.reads, h.paged⟩

/-- A committed request's row: re-pointed where others had committed before, it reads its node. -/
theorem repointed {r : Req} {n k upto : Nat} {ids : NodeRef}
    (h : Owned cm X (stride cm.pageSize (slice (cm.pageTable r.row) ids.length
      (divCeil upto cm.pageSize * cm.pageSize)) ++ P) H)
    (hb : Boundary cm.prefixCache.nodes ids) (hrow : ∀ y ∈ H, y.row ≠ r.row)
    (hids : ids.length ≤ upto) (hk : k ≤ ids.length)
    (hread : ∀ i < ids.length, i < n ∨ k ≤ i →
      ReadsAt cm.prefixCache.nodes ids i (cm.pageTable r.row i))
    (hpaged : ∃ pages, slice (cm.pageTable r.row) ids.length
      (divCeil upto cm.pageSize * cm.pageSize) = expand cm.pageSize pages) :
    ∃ pt, cm.repoint r n k (pathValues cm.prefixCache.nodes ids) = { cm with pageTable := pt } ∧
      Owned { cm with pageTable := pt } X
        (Holding.pages ⟨r.row, ids, upto⟩ cm.pageSize pt ++ P) H ∧
      Holding.Ok cm.pageSize cm.prefixCache.nodes pt ⟨r.row, ids, upto⟩ := by
  generalize hpt : (if n < k then cm.pageTable.copyRow r.row n
      (((pathValues cm.prefixCache.nodes ids).take k).drop n) else cm.pageTable) = pt
  replace hpt := hpt.symm
  generalize hr : r.row = row at hrow hread hpaged h hpt ⊢
  have heq : cm.repoint r n k (pathValues cm.prefixCache.nodes ids) = { cm with pageTable := pt } := by
    unfold CacheManager.repoint
    rw [hpt, ← hr]
    split <;> rfl
  have hw := h.locked.wf
  have hpath := hw.length_pathValues hb
  have hcanon := hw.reads_pathValues hb
  have hother : ∀ i j, i ≠ row → pt i j = cm.pageTable i j := by
    intro i j hi
    rw [hpt]
    split
    · exact PageTable.copyRow_ne (.inl hi)
    · rfl
  have hspan : (((pathValues cm.prefixCache.nodes ids).take k).drop n).length = k - n := by
    rw [List.length_drop, List.length_take, hpath, Nat.min_eq_left hk]
  have hpast : ∀ j, k ≤ j → pt row j = cm.pageTable row j := by
    intro j hj
    rw [hpt]
    split
    · exact PageTable.copyRow_past (by omega)
    · rfl
  have hslots : Holding.slots ⟨row, ids, upto⟩ cm.pageSize pt =
      slice (cm.pageTable row) ids.length (divCeil upto cm.pageSize * cm.pageSize) :=
    slice_congr fun j hj _ => hpast j (hk.trans hj)
  have hreads : Reads cm.prefixCache.nodes ids (pt row) := by
    intro i hi
    by_cases hin : i < n ∨ k ≤ i
    · have heq : pt row i = cm.pageTable row i := by
        rcases hin with hin | hki
        · rw [hpt]
          split
          · exact PageTable.copyRow_ne (.inr hin)
          · rfl
        · exact hpast i hki
      rw [heq]
      exact hread i hi hin
    · -- the span others had committed names their pages now
      have hni : n ≤ i := by omega
      have hik : i < k := by omega
      have heq : pt row i = (pathValues cm.prefixCache.nodes ids).getD i default := by
        rw [hpt, if_pos (by omega), PageTable.copyRow_at hni, List.getD_eq_getElem?_getD,
          List.getD_eq_getElem?_getD, List.getElem?_drop, List.getElem?_take,
          if_pos (by omega), Nat.add_sub_cancel' hni, List.getElem?_eq_getElem (by omega)]
        rfl
      rw [heq]
      exact hcanon i hi
  refine ⟨pt, heq, ?_, hids, hreads, ?_⟩
  · rw [Holding.pages, hslots]
    exact h.writeRow _ fun y hy j => hother _ _ (hrow y hy)
  · rw [hslots]
    exact hpaged

/-! ## Where a row points -/

theorem nodup_pageBases (numPages : Nat) {ps : Nat} (hps : 0 < ps) :
    (CacheManager.pageBases numPages ps).Nodup := by
  refine List.nodup_range.map fun a b hab => ?_
  exact Nat.eq_of_mul_eq_mul_right hps hab

/-- Two page bases that a token slot lies on are the same. -/
theorem base_unique {numPages ps a b x : Nat} (ha : a ∈ CacheManager.pageBases numPages ps)
    (hb : b ∈ CacheManager.pageBases numPages ps) (hax : a ≤ x ∧ x < a + ps)
    (hbx : b ≤ x ∧ x < b + ps) : a = b := by
  obtain ⟨i, -, rfl⟩ := List.mem_map.1 ha
  obtain ⟨j, -, rfl⟩ := List.mem_map.1 hb
  rcases Nat.lt_trichotomy i j with hij | rfl | hij
  · have := Nat.mul_le_mul_right ps hij
    rw [Nat.succ_mul] at this
    omega
  · rfl
  · have := Nat.mul_le_mul_right ps hij
    rw [Nat.succ_mul] at this
    omega

/-- A token slot of a list of whole pages lies on one of them. -/
theorem mem_base_of_expand {ps : Nat} (hps : 0 < ps) {l pages : List Nat}
    (hl : l = expand ps pages) {i x : Nat} (hx : l[i]? = some x) :
    ∃ b ∈ stride ps l, b ≤ x ∧ x < b + ps := by
  rw [hl, getElem?_expand hps] at hx
  obtain ⟨b, hb, rfl⟩ := Option.map_eq_some_iff.1 hx
  refine ⟨b, ?_, Nat.le_add_right _ _, Nat.add_lt_add_left (Nat.mod_lt _ hps) b⟩
  rw [hl, stride_expand hps]
  exact List.mem_of_getElem? hb

/-- A backed position of a row lies on a page of the tree or on one of the request's own. -/
theorem row_on_page (h : Owned cm X P H) {x : Holding} (hx : x ∈ H) {j : Nat}
    (hj : j < divCeil x.upto cm.pageSize * cm.pageSize) :
    ∃ b, (b ∈ bases cm.pageSize cm.prefixCache.nodes ∨ b ∈ x.pages cm.pageSize cm.pageTable) ∧
      b ≤ cm.pageTable x.row j ∧ cm.pageTable x.row j < b + cm.pageSize := by
  have hok := h.ok x hx
  by_cases hshared : j < x.node.length
  · obtain ⟨n, hn, -, -, hval⟩ := hok.reads j hshared
    obtain ⟨pages, hpages⟩ := h.paged n hn
    obtain ⟨b, hb, hle⟩ := mem_base_of_expand h.pos hpages hval
    exact ⟨b, .inl (List.mem_flatMap.2 ⟨n, hn, hb⟩), hle⟩
  · obtain ⟨pages, hpages⟩ := hok.paged
    have hval : (x.slots cm.pageSize cm.pageTable)[j - x.node.length]? =
        some (cm.pageTable x.row j) := by
      rw [Holding.slots, getElem?_slice, if_pos (by omega)]
      congr 2
      omega
    obtain ⟨b, hb, hle⟩ := mem_base_of_expand h.pos hpages hval
    exact ⟨b, .inr hb, hle⟩

/-- No backed position of a row lies on a page that is free or waits to be. -/
theorem row_not_free (h : Owned cm X P H) {x : Holding} (hx : x ∈ H) {j : Nat}
    (hj : j < divCeil x.upto cm.pageSize * cm.pageSize) {b : Nat}
    (hb : b ∈ cm.freeSlots ++ cm.lazyFreeList.getD []) :
    ¬ (b ≤ cm.pageTable x.row j ∧ cm.pageTable x.row j < b + cm.pageSize) := by
  intro hbj
  obtain ⟨d, hd, hdj⟩ := h.row_on_page hx hj
  have hnodup := h.perm.nodup_iff.2 (nodup_pageBases cm.numPages h.pos)
  have hmem : d ∈ bases cm.pageSize cm.prefixCache.nodes ++
      (P ++ H.flatMap fun h => h.pages cm.pageSize cm.pageTable) := by
    rcases hd with hd | hd
    · exact List.mem_append_left _ hd
    · exact List.mem_append_right _ (List.mem_append_right _ (List.mem_flatMap.2 ⟨x, hx, hd⟩))
  rw [← List.append_assoc] at hnodup
  have hall : ∀ y, y ∈ cm.freeSlots ++ cm.lazyFreeList.getD [] ∨
      y ∈ bases cm.pageSize cm.prefixCache.nodes ++
        (P ++ H.flatMap fun h => h.pages cm.pageSize cm.pageTable) →
      y ∈ CacheManager.pageBases cm.numPages cm.pageSize := by
    intro y hy
    rw [← h.perm.mem_iff, ← List.append_assoc]
    exact List.mem_append.2 hy
  have heq := base_unique (hall b (.inl hb)) (hall d (.inr hmem)) hbj hdj
  exact (List.nodup_append.1 hnodup).2.2 b hb d hmem heq

/-- A position below a request's node holds the canonical index, on a pinned node. -/
theorem row_canonical (h : Owned cm X P H) {x : Holding} (hx : x ∈ H) {j : Nat}
    (hj : j < x.node.length) : ∃ n ∈ cm.prefixCache.nodes, n.path <+: x.node ∧
      0 < n.data.refCount ∧ n.pre.length ≤ j ∧
      n.value[j - n.pre.length]? = some (cm.pageTable x.row j) := by
  obtain ⟨n, hn, hpath, hle, hval⟩ := (h.ok x hx).reads j hj
  refine ⟨n, hn, hpath, ?_, hle, hval⟩
  rw [h.locked.refs n hn, pins_pos]
  exact ⟨x.node, List.mem_append_right _ (List.mem_map_of_mem hx), hpath⟩

end Owned

end FreeToken
