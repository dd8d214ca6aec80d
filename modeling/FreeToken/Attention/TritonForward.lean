import FreeToken.Attention.TritonBackend

/-!
# The forward of a layer is attention

The metadata point each query at its own request, and every kernel then reads the keys that the request
has had, those of this batch included.
-/

set_option autoImplicit false
set_option linter.unusedSectionVars false

namespace FreeToken

open OnlineSoftmax PagedAttention
open GridMemory (storeAll storeAll_apply storeAll_of_ne)
open OffloadMoeCache.HybridKernel (nextPowerOf2 le_nextPowerOf2)

namespace TritonBackend

/-! ## Lists of blocks -/

theorem cumsum_zero (ns : List Nat) : cumsum ns 0 = 0 := rfl

theorem cumsum_succ {ns : List Nat} {i n : Nat} (h : ns[i]? = some n) :
    cumsum ns (i + 1) = cumsum ns i + n := by
  unfold cumsum
  rw [List.take_add_one, h, List.sum_append]
  simp

theorem cumsum_mono (ns : List Nat) : Monotone (cumsum ns) := by
  apply monotone_nat_of_le_succ
  intro i
  unfold cumsum
  rw [List.take_add_one, List.sum_append]
  exact Nat.le_add_right _ _

theorem cumsum_congr {ns ns' : List Nat} (h : ns = ns') (i : Nat) : cumsum ns i = cumsum ns' i := by rw [h]

/-- An entry of a block of a list of blocks. -/
theorem getElem?_flatMap {A B : Type} (f : A → List B) {l : List A} {i : Nat} {x : A}
    (hi : l[i]? = some x) {r : Nat} (hr : r < (f x).length) :
    (l.flatMap f)[cumsum (l.map fun x => (f x).length) i + r]? = (f x)[r]? := by
  induction l generalizing i with
  | nil => cases hi
  | cons y l ih =>
      rw [List.flatMap_cons]
      cases i with
      | zero =>
          cases hi
          rw [cumsum_zero, Nat.zero_add, List.getElem?_append_left hr]
      | succ i =>
          have hcumsum : cumsum ((y :: l).map fun x => (f x).length) (i + 1) =
              (f y).length + cumsum (l.map fun x => (f x).length) i := by
            simp [cumsum]
          rw [hcumsum, Nat.add_assoc, List.getElem?_append_right (Nat.le_add_right _ _),
            Nat.add_sub_cancel_left]
          exact ih hi

variable {reqs : List Req} {req : Req} {i row : Nat}

/-- Where the queries of a request begin. -/
def queryStart (reqs : List Req) (i : Nat) : Nat := cumsum (reqs.map Req.extendLen) i

theorem makePositions_get (hi : reqs[i]? = some req) (hrow : row < req.extendLen) :
    (makePositions reqs)[queryStart reqs i + row]? = some (req.cachedLen + row) := by
  have hget := getElem?_flatMap (fun req : Req => List.range' req.cachedLen req.extendLen) hi
    (r := row) (by simpa using hrow)
  simp only [List.length_range'] at hget
  unfold makePositions queryStart
  rw [hget, List.getElem?_range' hrow, Nat.one_mul]

theorem outLoc_get (pageTable : PageTable) (hi : reqs[i]? = some req) (hrow : row < req.extendLen) :
    (outLoc pageTable reqs)[queryStart reqs i + row]? =
      some (pageTable req.tableIdx (req.cachedLen + row)) := by
  have hget := getElem?_flatMap (fun req : Req => List.replicate req.extendLen req.tableIdx) hi
    (r := row) (by simpa using hrow)
  simp only [List.length_replicate] at hget
  have htable : (reqs.flatMap fun req => List.replicate req.extendLen req.tableIdx)[
      queryStart reqs i + row]? = some req.tableIdx := by
    unfold queryStart
    rw [hget, List.getElem?_replicate_of_lt hrow]
  have hpair : (makeInputTuple reqs)[queryStart reqs i + row]? =
      some (req.tableIdx, req.cachedLen + row) := by
    unfold makeInputTuple
    exact List.getElem?_zip_eq_some.2 ⟨htable, makePositions_get hi hrow⟩
  rw [outLoc, List.getElem?_map, hpair, Option.map_some]

section Metadata

variable (pageTable : PageTable) (swaMap : Option (Nat → Nat))

theorem indices_get (hi : reqs[i]? = some req) {j : Nat} (hj : j < req.deviceLen) :
    (prepareMetadata pageTable swaMap reqs).indices[
      (prepareMetadata pageTable swaMap reqs).indptr i + j]? = some (pageTable req.tableIdx j) := by
  have hget := getElem?_flatMap (fun req : Req => (List.range req.deviceLen).map (pageTable req.tableIdx))
    hi (r := j) (by simpa using hj)
  simp only [List.length_map, List.length_range] at hget
  unfold prepareMetadata
  dsimp only
  rw [hget, List.getElem?_map, List.getElem?_range hj, Option.map_some]

theorem qToReq_get (hi : reqs[i]? = some req) (hrow : row < req.extendLen) :
    (prepareMetadata pageTable swaMap reqs).qToReq[queryStart reqs i + row]? = some i := by
  have hzip : reqs.zipIdx[i]? = some (req, i) := by
    rw [List.getElem?_zipIdx, hi, Option.map_some, Nat.zero_add]
  have hget := getElem?_flatMap (fun r : Req × Nat => List.replicate r.1.extendLen r.2) hzip
    (r := row) (by simpa using hrow)
  simp only [List.length_replicate] at hget
  have hlens : reqs.zipIdx.map (fun r => r.1.extendLen) = reqs.map Req.extendLen :=
    calc reqs.zipIdx.map (fun r => r.1.extendLen)
        = (reqs.zipIdx.map Prod.fst).map Req.extendLen := by rw [List.map_map]; rfl
      _ = reqs.map Req.extendLen := by rw [List.zipIdx_map_fst]
  rw [hlens, List.getElem?_replicate_of_lt hrow] at hget
  exact hget

theorem kvLen_eq (hi : reqs[i]? = some req) :
    (prepareMetadata pageTable swaMap reqs).indptr (i + 1) -
      (prepareMetadata pageTable swaMap reqs).indptr i = req.deviceLen := by
  have hget : (reqs.map Req.deviceLen)[i]? = some req.deviceLen := by
    rw [List.getElem?_map, hi, Option.map_some]
  unfold prepareMetadata
  dsimp only
  rw [cumsum_succ hget, Nat.add_sub_cancel_left]

end Metadata

variable {pageTable : PageTable} {swaMap : Option (Nat → Nat)}

theorem queryStart_succ (hi : reqs[i]? = some req) :
    queryStart reqs (i + 1) = queryStart reqs i + req.extendLen := by
  apply cumsum_succ
  rw [List.getElem?_map, hi, Option.map_some]

/-! ## The queries of a batch -/

theorem le_foldl_max {ns : List Nat} {m : Nat} : m ≤ ns.foldl max m ∧ ∀ n ∈ ns, n ≤ ns.foldl max m := by
  induction ns generalizing m with
  | nil => exact ⟨le_rfl, fun n hn => by cases hn⟩
  | cons n ns ih =>
      obtain ⟨hm, hns⟩ := ih (m := max m n)
      refine ⟨(le_max_left m n).trans hm, fun n' hn' => ?_⟩
      rcases List.mem_cons.1 hn' with rfl | hn'
      · exact (le_max_right m n').trans hm
      · exact hns n' hn'

/-- Every request computes something. -/
def Extends (reqs : List Req) : Prop := ∀ req ∈ reqs, req.cachedLen < req.deviceLen

theorem extendLen_le (pageTable : PageTable) (swaMap : Option (Nat → Nat)) (hi : reqs[i]? = some req) :
    req.extendLen ≤ (prepareMetadata pageTable swaMap reqs).maxQLen := by
  apply le_foldl_max.2
  exact List.mem_map_of_mem (List.mem_of_getElem? hi)

/-- A decode batch has one query a request. -/
theorem extendLen_decode (hext : Extends reqs)
    (hdecode : (prepareMetadata pageTable swaMap reqs).isDecode = true) (hreq : req ∈ reqs) :
    req.extendLen = 1 := by
  have hmax : (prepareMetadata pageTable swaMap reqs).maxQLen = 1 := of_decide_eq_true hdecode
  have hle : req.extendLen ≤ (prepareMetadata pageTable swaMap reqs).maxQLen :=
    le_foldl_max.2 _ (List.mem_map_of_mem hreq)
  have hpos := hext req hreq
  rw [hmax] at hle
  unfold Req.extendLen at hle ⊢
  omega

theorem queryStart_decode (hext : Extends reqs)
    (hdecode : (prepareMetadata pageTable swaMap reqs).isDecode = true) (hi : i ≤ reqs.length) :
    queryStart reqs i = i := by
  have hones : reqs.map Req.extendLen = List.replicate reqs.length 1 := by
    apply List.eq_replicate_iff.2
    refine ⟨List.length_map _, fun n hn => ?_⟩
    obtain ⟨req, hreq, rfl⟩ := List.mem_map.1 hn
    exact extendLen_decode hext hdecode hreq
  rw [queryStart, hones, cumsum, List.take_replicate, List.sum_replicate, Nat.min_eq_left hi, smul_eq_mul,
    Nat.mul_one]

/-- Where the queries begin is what the kernel is told. -/
theorem cuSeqlensQ_eq (hdecode : (prepareMetadata pageTable swaMap reqs).isDecode = false) (i : Nat) :
    (prepareMetadata pageTable swaMap reqs).cuSeqlensQ i = queryStart reqs i := by
  have hnot : ¬ (reqs.map Req.extendLen).foldl max 0 = 1 := of_decide_eq_false hdecode
  unfold prepareMetadata queryStart
  dsimp only
  rw [if_neg hnot]
  split
  · rename_i hall
    apply cumsum_congr
    apply List.map_congr_left
    intro req hreq
    have hzero : req.cachedLen = 0 := by
      simpa using List.all_eq_true.1 hall _ (List.mem_map_of_mem hreq)
    rw [Req.extendLen, hzero, Nat.sub_zero]
  · rfl

theorem prefixLens_get (hi : reqs[i]? = some req) :
    (prepareMetadata pageTable swaMap reqs).prefixLens.getD i 0 = req.cachedLen := by
  unfold prepareMetadata
  dsimp only
  rw [List.getD_eq_getElem?_getD, List.getElem?_map, hi]
  rfl

/-! ## The cache after the store -/

section Forward

variable {K : Type} [Field K] [LinearOrder K] {E : ExpLog K} {layer : Layer K} {q k v : Tensor K}

/-- The slot of a position of a request, as the layer's cache has it. -/
def slot (layer : Layer K) (pageTable : PageTable) (req : Req) (j : Nat) : Nat :=
  layer.storePlace (pageTable req.tableIdx j)

/-- The slots that a query reads are its request's: this batch writes there the keys of the request's new
positions, each once, and nothing else. -/
structure Owns (layer : Layer K) (pageTable : PageTable) (reqs : List Req) (i : Nat) (req : Req)
    (js : Finset Nat) : Prop where
  cached : ∀ j ∈ js, j < req.cachedLen →
    ∀ loc ∈ outLoc pageTable reqs, layer.storePlace loc ≠ slot layer pageTable req j
  new : ∀ j ∈ js, req.cachedLen ≤ j → ∀ t loc, (outLoc pageTable reqs)[t]? = some loc →
    layer.storePlace loc = slot layer pageTable req j → t = queryStart reqs i + (j - req.cachedLen)

/-- The row at a position: in the cache before the batch, or new. -/
def rowAt (layer : Layer K) (pageTable : PageTable) (reqs : List Req) (i : Nat) (req : Req)
    (cache x : Tensor K) (kvHead j : Nat) : Nat → K :=
  if j < req.cachedLen then cache (slot layer pageTable req j) kvHead
  else x (queryStart reqs i + (j - req.cachedLen)) kvHead

theorem mem_kvStores {locs : List Nat} {x : Tensor K} (s : Nat × (Nat → Nat → K)) :
    s ∈ layer.kvStores locs x ↔ ∃ t loc, locs[t]? = some loc ∧ s = (layer.storePlace loc, x t) := by
  unfold Layer.kvStores
  simp only [List.mem_map, Prod.exists, List.mem_zipIdx_iff_getElem?]
  constructor
  · rintro ⟨loc, t, hloc, rfl⟩
    exact ⟨t, loc, hloc, rfl⟩
  · rintro ⟨t, loc, hloc, rfl⟩
    exact ⟨loc, t, hloc, rfl⟩

/-- What a query finds in the cache at a position of its own. -/
theorem stored_row {js : Finset Nat} (howns : Owns layer pageTable reqs i req js)
    (hi : reqs[i]? = some req) {x : Tensor K} (cache : Tensor K) {stores : List (Nat × (Nat → Nat → K))}
    (hstores : stores.Perm (layer.kvStores (outLoc pageTable reqs) x)) {j : Nat} (hj : j ∈ js)
    (hlen : j < req.deviceLen) (kvHead : Nat) :
    storeAll cache stores (slot layer pageTable req j) kvHead =
      rowAt layer pageTable reqs i req cache x kvHead j := by
  unfold rowAt
  by_cases hcached : j < req.cachedLen
  · rw [if_pos hcached, storeAll_of_ne]
    intro s hs
    obtain ⟨t, loc, hloc, rfl⟩ := (mem_kvStores s).1 (hstores.mem_iff.1 hs)
    exact howns.cached j hj hcached loc (List.mem_of_getElem? hloc)
  · rw [if_neg hcached]
    have hle : req.cachedLen ≤ j := Nat.not_lt.1 hcached
    have hrow : j - req.cachedLen < req.extendLen := by
      unfold Req.extendLen
      omega
    have hloc := outLoc_get pageTable hi hrow
    rw [Nat.add_sub_of_le hle] at hloc
    have hstored : storeAll cache stores (slot layer pageTable req j) =
        x (queryStart reqs i + (j - req.cachedLen)) := by
      apply storeAll_apply
      · exact hstores.mem_iff.2 ((mem_kvStores _).2 ⟨_, _, hloc, rfl⟩)
      · intro s hs hplace
        obtain ⟨t, loc, hget, rfl⟩ := (mem_kvStores s).1 (hstores.mem_iff.1 hs)
        rw [howns.new j hj hle t loc hget hplace]
    rw [hstored]

/-- A layer with a window has its cache in the window pool, where there is one. -/
def Layer.Placed (layer : Layer K) : Prop :=
  layer.isSwaLayer = (layer.slidingWindow.isSome && layer.swaMap.isSome)

/-- The slot that a kernel reads for a position. -/
theorem gathered_slot (hplaced : layer.Placed) (hi : reqs[i]? = some req) {j : Nat}
    (hj : j < req.deviceLen) :
    (layer.gatherIndices (prepareMetadata pageTable layer.swaMap reqs)).getD
      ((prepareMetadata pageTable layer.swaMap reqs).indptr i + j) 0 = slot layer pageTable req j := by
  have hget := indices_get pageTable layer.swaMap hi hj
  unfold Layer.Placed at hplaced
  unfold slot Layer.storePlace Layer.gatherIndices
  have hswa : (prepareMetadata pageTable layer.swaMap reqs).swaIndices =
      layer.swaMap.map (prepareMetadata pageTable layer.swaMap reqs).indices.map := rfl
  rw [hswa, hplaced]
  cases hmap : layer.swaMap with
  | none =>
      rw [hmap] at hget
      cases layer.slidingWindow with
      | none => simp [hget]
      | some w => simp [hget]
  | some swaMap =>
      rw [hmap] at hget
      cases layer.slidingWindow with
      | none => simp [hget]
      | some w => simp [hget]

/-! ## Every kernel -/

/-- A request's query attends to the positions it sees. -/
def attention (E : ExpLog K) (layer : Layer K) (pageTable : PageTable) (reqs : List Req)
    (q k v : Tensor K) (i : Nat) (req : Req) (row qHead d : Nat) : K :=
  attend E layer.smScale (sinkWeight E layer.sinks qHead) layer.headDim
    (q (queryStart reqs i + row) qHead)
    (rowAt layer pageTable reqs i req layer.kCache k (qHead / layer.config.group))
    (rowAt layer pageTable reqs i req layer.vCache v (qHead / layer.config.group))
    (visible (layer.slidingWindow.getD 0) req.deviceLen (req.cachedLen + row)) d

theorem selectExtendTile_pos (headDim blockD smemOptin : Nat) :
    0 < (selectExtendTile headDim blockD smemOptin).1 ∧
      0 < (selectExtendTile headDim blockD smemOptin).2 := by
  unfold selectExtendTile
  dsimp only
  split
  · exact ⟨by decide, by decide⟩
  · split
    · split <;> exact ⟨by decide, by decide⟩
    · split
      · split <;> exact ⟨by decide, by decide⟩
      · split <;> exact ⟨by decide, by decide⟩

theorem lt_of_mem_visible {w len pos j : Nat} (h : j ∈ visible w len pos) : j < len :=
  Finset.mem_range.1 (Finset.mem_filter.1 h).1

variable {pageTable : PageTable} {reqs : List Req} {req : Req} {i row qHead d : Nat}
  {kStores vStores : List (Nat × (Nat → Nat → K))}

/-- What a kernel computes from the stored cache and the gathered slots. -/
theorem read_attention (hplaced : layer.Placed) (hi : reqs[i]? = some req)
    (hk : kStores.Perm (layer.kvStores (outLoc pageTable reqs) k))
    (hv : vStores.Perm (layer.kvStores (outLoc pageTable reqs) v))
    (howns : Owns layer pageTable reqs i req
      (visible (layer.slidingWindow.getD 0) req.deviceLen (req.cachedLen + row))) (qHead d : Nat) :
    attend E layer.smScale (sinkWeight E layer.sinks qHead) layer.headDim
        (q (queryStart reqs i + row) qHead)
        (fun j => storeAll layer.kCache kStores
          ((layer.gatherIndices (prepareMetadata pageTable layer.swaMap reqs)).getD
            ((prepareMetadata pageTable layer.swaMap reqs).indptr i + j) 0) (qHead / layer.config.group))
        (fun j => storeAll layer.vCache vStores
          ((layer.gatherIndices (prepareMetadata pageTable layer.swaMap reqs)).getD
            ((prepareMetadata pageTable layer.swaMap reqs).indptr i + j) 0) (qHead / layer.config.group))
        (visible (layer.slidingWindow.getD 0) req.deviceLen (req.cachedLen + row)) d =
      attention E layer pageTable reqs q k v i req row qHead d := by
  apply attend_congr
  · intro j hj
    rw [gathered_slot hplaced hi (lt_of_mem_visible hj)]
    exact stored_row howns hi layer.kCache hk hj (lt_of_mem_visible hj) _
  · intro j hj
    rw [gathered_slot hplaced hi (lt_of_mem_visible hj)]
    exact stored_row howns hi layer.vCache hv hj (lt_of_mem_visible hj) _

theorem decode_launched {md : TritonMetadata} {kCache vCache : Tensor K} {bs : Nat}
    (hgroup : layer.config.group ≤ 16 ∨ 16 ∣ layer.config.group) (hpos : 0 < layer.config.group) :
    (layer.decodeArgs md q kCache vCache bs).Launched where
  dim := le_nextPowerOf2 _
  heads := Nat.lt_min.2 ⟨by decide, hpos⟩
  lanes := (Nat.min_le_left 16 _).trans (le_max_left 16 _)
  whole := by
    show min 16 layer.config.group ∣ layer.config.group
    rcases hgroup with hle | hdvd
    · rw [Nat.min_eq_right hle]
    · rw [Nat.min_eq_left (Nat.le_of_dvd hpos hdvd)]
      exact hdvd
  splits _ _ := ⟨Nat.succ_pos 7, le_rfl⟩

theorem decode_attends [IsStrictOrderedRing K] (hext : Extends reqs) (hplaced : layer.Placed)
    (hgroup : layer.config.group ≤ 16 ∨ 16 ∣ layer.config.group) (hpos : 0 < layer.config.group)
    (hdecode : (prepareMetadata pageTable layer.swaMap reqs).isDecode = true)
    (hk : kStores.Perm (layer.kvStores (outLoc pageTable reqs) k))
    (hv : vStores.Perm (layer.kvStores (outLoc pageTable reqs) v)) (hi : reqs[i]? = some req)
    (hrow : row < req.extendLen)
    (howns : Owns layer pageTable reqs i req
      (visible (layer.slidingWindow.getD 0) req.deviceLen (req.cachedLen + row)))
    {mid : MidAddr → Option K} {midStores : List (MidAddr × Option K)}
    (hmid : midStores.Perm ((layer.decodeArgs (prepareMetadata pageTable layer.swaMap reqs) q
      (storeAll layer.kCache kStores) (storeAll layer.vCache vStores) reqs.length).stage1Stores E))
    {stores : List (OutAddr × Option K)}
    (hstores : stores.Perm ((layer.decodeArgs (prepareMetadata pageTable layer.swaMap reqs) q
      (storeAll layer.kCache kStores) (storeAll layer.vCache vStores) reqs.length).stage2Stores E
        (storeAll mid midStores)))
    (empty : OutAddr → Option K) (hhead : qHead < layer.numQHeads) (hd : d < layer.headDim) :
    storeAll empty stores (queryStart reqs i + row, qHead, d) =
      some (attention E layer pageTable reqs q k v i req row qHead d) := by
  have hilt : i < reqs.length := (List.getElem?_eq_some_iff.1 hi).1
  have hone := extendLen_decode hext hdecode (List.mem_of_getElem? hi)
  have hstart := queryStart_decode hext hdecode hilt.le
  have htok : queryStart reqs i + row = i := by omega
  have hlen : (layer.decodeArgs (prepareMetadata pageTable layer.swaMap reqs) q
      (storeAll layer.kCache kStores) (storeAll layer.vCache vStores) reqs.length).kvLen i =
        req.deviceLen := kvLen_eq pageTable layer.swaMap hi
  have hposition : (layer.decodeArgs (prepareMetadata pageTable layer.swaMap reqs) q
      (storeAll layer.kCache kStores) (storeAll layer.vCache vStores) reqs.length).qPos i =
        req.cachedLen + row := by
    have hget := makePositions_get hi hrow
    rw [htok] at hget
    show (makePositions reqs).getD i 0 = _
    rw [List.getD_eq_getElem?_getD, hget, Option.getD_some]
  have hattends := decode_attention_eq (E := E) _ (decode_launched hgroup hpos) hmid mid hstores empty
    hilt hhead hd
  have hread := read_attention (E := E) (q := q) hplaced hi hk hv howns qHead d
  rw [hlen, hposition] at hattends
  rw [htok] at hread ⊢
  exact hattends.trans (congrArg some hread)

theorem extend_covers {kCache vCache : Tensor K}
    (hdecode : (prepareMetadata pageTable layer.swaMap reqs).isDecode = false) :
    (layer.extendArgs (prepareMetadata pageTable layer.swaMap reqs) q k v kCache vCache
      reqs.length).Covers where
  mono := by
    intro a b hab
    show (prepareMetadata pageTable layer.swaMap reqs).cuSeqlensQ a ≤
      (prepareMetadata pageTable layer.swaMap reqs).cuSeqlensQ b
    rw [cuSeqlensQ_eq hdecode, cuSeqlensQ_eq hdecode]
    exact cumsum_mono _ hab
  long := by
    intro seqId hseq
    show (prepareMetadata pageTable layer.swaMap reqs).cuSeqlensQ (seqId + 1) -
      (prepareMetadata pageTable layer.swaMap reqs).cuSeqlensQ seqId ≤ _
    have hget : reqs[seqId]? = some reqs[seqId] := List.getElem?_eq_getElem hseq
    rw [cuSeqlensQ_eq hdecode, cuSeqlensQ_eq hdecode, queryStart_succ hget, Nat.add_sub_cancel_left]
    exact extendLen_le pageTable layer.swaMap hget
  blockM := (selectExtendTile_pos _ _ _).1

theorem extend_attends (hplaced : layer.Placed)
    (hdecode : (prepareMetadata pageTable layer.swaMap reqs).isDecode = false)
    (hk : kStores.Perm (layer.kvStores (outLoc pageTable reqs) k))
    (hv : vStores.Perm (layer.kvStores (outLoc pageTable reqs) v)) (hi : reqs[i]? = some req)
    (hrow : row < req.extendLen)
    (howns : Owns layer pageTable reqs i req
      (visible (layer.slidingWindow.getD 0) req.deviceLen (req.cachedLen + row)))
    {stores : List (OutAddr × Option K)}
    (hstores : stores.Perm ((layer.extendArgs (prepareMetadata pageTable layer.swaMap reqs) q k v
      (storeAll layer.kCache kStores) (storeAll layer.vCache vStores) reqs.length).stores E))
    (empty : OutAddr → Option K) (hhead : qHead < layer.numQHeads) (hd : d < layer.headDim) :
    storeAll empty stores (queryStart reqs i + row, qHead, d) =
      some (attention E layer pageTable reqs q k v i req row qHead d) := by
  have hilt : i < reqs.length := (List.getElem?_eq_some_iff.1 hi).1
  have hstart := cuSeqlensQ_eq hdecode i
  have hlen : (layer.extendArgs (prepareMetadata pageTable layer.swaMap reqs) q k v
      (storeAll layer.kCache kStores) (storeAll layer.vCache vStores) reqs.length).qLen i =
        req.extendLen := by
    show (prepareMetadata pageTable layer.swaMap reqs).cuSeqlensQ (i + 1) -
      (prepareMetadata pageTable layer.swaMap reqs).cuSeqlensQ i = _
    rw [cuSeqlensQ_eq hdecode, cuSeqlensQ_eq hdecode, queryStart_succ hi, Nat.add_sub_cancel_left]
  have hcached : (layer.extendArgs (prepareMetadata pageTable layer.swaMap reqs) q k v
      (storeAll layer.kCache kStores) (storeAll layer.vCache vStores) reqs.length).prefixLens i =
        req.cachedLen := prefixLens_get hi
  have hdevice : req.cachedLen + req.extendLen = req.deviceLen := by
    unfold Req.extendLen at hrow ⊢
    omega
  have hattends := extend_attention_split_eq (E := E) _ (extend_covers hdecode) (le_nextPowerOf2 _)
    (selectExtendTile_pos _ _ _).2 hstores empty hilt (by rw [hlen]; exact hrow) hhead hd
  rw [hlen, hcached, hdevice] at hattends
  have htok : (layer.extendArgs (prepareMetadata pageTable layer.swaMap reqs) q k v
      (storeAll layer.kCache kStores) (storeAll layer.vCache vStores) reqs.length).qoIndptr i =
        queryStart reqs i := hstart
  rw [htok] at hattends
  rw [hattends]
  apply congrArg some
  apply attend_congr
  · intro j hj
    unfold ExtendSplitArgs.keyAt rowAt
    rw [hcached, htok]
    by_cases hcached : j < req.cachedLen
    · rw [if_pos hcached, if_pos hcached]
      have hstored := stored_row howns hi layer.kCache hk hj (lt_of_mem_visible hj)
        (qHead / layer.config.group)
      rw [rowAt, if_pos hcached, ← gathered_slot hplaced hi (lt_of_mem_visible hj)] at hstored
      rw [← gathered_slot hplaced hi (lt_of_mem_visible hj)]
      exact hstored
    · rw [if_neg hcached, if_neg hcached]
      rfl
  · intro j hj
    unfold ExtendSplitArgs.valueAt rowAt
    rw [hcached, htok]
    by_cases hcached : j < req.cachedLen
    · rw [if_pos hcached, if_pos hcached]
      have hstored := stored_row howns hi layer.vCache hv hj (lt_of_mem_visible hj)
        (qHead / layer.config.group)
      rw [rowAt, if_pos hcached, ← gathered_slot hplaced hi (lt_of_mem_visible hj)] at hstored
      rw [← gathered_slot hplaced hi (lt_of_mem_visible hj)]
      exact hstored
    · rw [if_neg hcached, if_neg hcached]
      rfl

theorem paged_attends (hplaced : layer.Placed)
    (hk : kStores.Perm (layer.kvStores (outLoc pageTable reqs) k))
    (hv : vStores.Perm (layer.kvStores (outLoc pageTable reqs) v)) (hi : reqs[i]? = some req)
    (hrow : row < req.extendLen)
    (howns : Owns layer pageTable reqs i req
      (visible (layer.slidingWindow.getD 0) req.deviceLen (req.cachedLen + row)))
    {stores : List (OutAddr × Option K)}
    (hstores : stores.Perm ((layer.pagedArgs (prepareMetadata pageTable layer.swaMap reqs) q
      (storeAll layer.kCache kStores) (storeAll layer.vCache vStores)).stores E))
    (empty : OutAddr → Option K) (hhead : qHead < layer.numQHeads) (hd : d < layer.headDim) :
    storeAll empty stores (queryStart reqs i + row, qHead, d) =
      some (attention E layer pageTable reqs q k v i req row qHead d) := by
  have hreq := qToReq_get pageTable layer.swaMap hi hrow
  have hlt : queryStart reqs i + row < (prepareMetadata pageTable layer.swaMap reqs).qToReq.length :=
    (List.getElem?_eq_some_iff.1 hreq).1
  have hto : (layer.pagedArgs (prepareMetadata pageTable layer.swaMap reqs) q
      (storeAll layer.kCache kStores) (storeAll layer.vCache vStores)).qToReq (queryStart reqs i + row) =
        i := by
    show (prepareMetadata pageTable layer.swaMap reqs).qToReq.getD _ 0 = i
    rw [List.getD_eq_getElem?_getD, hreq, Option.getD_some]
  have hlen : (layer.pagedArgs (prepareMetadata pageTable layer.swaMap reqs) q
      (storeAll layer.kCache kStores) (storeAll layer.vCache vStores)).kvLen i = req.deviceLen :=
    kvLen_eq pageTable layer.swaMap hi
  have hposition : (layer.pagedArgs (prepareMetadata pageTable layer.swaMap reqs) q
      (storeAll layer.kCache kStores) (storeAll layer.vCache vStores)).qPos (queryStart reqs i + row) =
        req.cachedLen + row := by
    show (makePositions reqs).getD _ 0 = _
    rw [List.getD_eq_getElem?_getD, makePositions_get hi hrow, Option.getD_some]
  have hattends := paged_attention_eq (E := E) _ (le_nextPowerOf2 _) (show 0 < 32 by decide) hstores empty
    hlt hhead hd
  rw [hto, hlen, hposition] at hattends
  exact hattends.trans (congrArg some (read_attention hplaced hi hk hv howns qHead d))

/-- The forward of a layer gives every query attention over its request, whichever kernel runs and in
whatever order the programs store. -/
theorem forward_attends [IsStrictOrderedRing K] (hext : Extends reqs) (hplaced : layer.Placed)
    (hheads : layer.numKvHeads ∣ layer.numQHeads)
    (hgroup : layer.config.group ≤ 16 ∨ 16 ∣ layer.config.group) {out : OutAddr → Option K}
    (hout : layer.Returns E (prepareMetadata pageTable layer.swaMap reqs) q k v (outLoc pageTable reqs)
      reqs.length out)
    (hi : reqs[i]? = some req) (hrow : row < req.extendLen)
    (howns : Owns layer pageTable reqs i req
      (visible (layer.slidingWindow.getD 0) req.deviceLen (req.cachedLen + row)))
    (hhead : qHead < layer.numQHeads) (hd : d < layer.headDim) :
    out (queryStart reqs i + row, qHead, d) =
      some (attention E layer pageTable reqs q k v i req row qHead d) := by
  obtain ⟨kStores, vStores, hk, hv, hout⟩ := hout
  have hheadsPos : 0 < layer.numQHeads := Nat.zero_lt_of_lt hhead
  have hpos : 0 < layer.config.group :=
    Nat.div_pos (Nat.le_of_dvd hheadsPos hheads) (Nat.pos_of_dvd_of_pos hheads hheadsPos)
  dsimp only at hout
  split at hout
  · rename_i hdecode
    obtain ⟨mid, midStores, empty, stores, hmid, hstores, rfl⟩ := hout
    exact decode_attends hext hplaced hgroup hpos (Bool.and_eq_true_iff.1 hdecode).1 hk hv hi hrow howns
      hmid hstores empty hhead hd
  · split at hout
    · rename_i hextend
      obtain ⟨empty, stores, hstores, rfl⟩ := hout
      have hdecode := (Bool.and_eq_true_iff.1 (Bool.and_eq_true_iff.1 hextend).1).1
      exact extend_attends hplaced (by simpa using hdecode) hk hv hi hrow howns hstores empty hhead hd
    · obtain ⟨empty, stores, hstores, rfl⟩ := hout
      exact paged_attends hplaced hk hv hi hrow howns hstores empty hhead hd

end Forward

/-- A request whose first token is cached and whose next two are computed. -/
def sampleReq : Req where
  cacheHandle := ⟨0, [], [], none⟩
  linearSlotIdx := none
  mambaPingPong := none
  mambaNextTrackIdx := 0
  mambaLastTrackSeqlen := none
  mambaRestoreSrc := none
  swaEvictedSeqlen := 0
  decodeBatchIdx := 0
  toolcallAnchorLen := none
  uid := 0
  inputIds := [1, 2, 3]
  deviceIds := [1, 2, 3]
  tableIdx := some 0
  cachedLen := 1
  deviceLen := 3
  maxDeviceLen := 8
  outputLen := 5
  samplingParams := ⟨false, 5, []⟩
  hasMm := false
  chunked := false
  aborted := false

/-- Two query heads share a key head; the window is two positions long. -/
def sampleLayer : Layer ℝ where
  numQHeads := 2
  numKvHeads := 1
  headDim := 1
  smScale := 1
  slidingWindow := some 2
  sinks := none
  isSwaLayer := false
  swaMap := none
  half := true
  smemOptin := 0
  kCache _ _ _ := 0
  vCache _ _ _ := 1

theorem sample_owns (row : Nat) :
    Owns sampleLayer (fun _ j => j) [sampleReq] 0 sampleReq
      (visible (sampleLayer.slidingWindow.getD 0) sampleReq.deviceLen (sampleReq.cachedLen + row)) where
  cached j hj hcached loc hloc := by
    have hlocs : outLoc (fun _ j => j) [sampleReq] = [1, 2] := rfl
    have hplace : ∀ slot, sampleLayer.storePlace slot = slot := fun _ => rfl
    have hzero : j < 1 := hcached
    rw [hlocs] at hloc
    rw [hplace, slot, hplace]
    simp only [List.mem_cons, List.not_mem_nil, or_false] at hloc
    omega
  new j hj hle t loc hloc hplace := by
    have hlocs : outLoc (fun _ j => j) [sampleReq] = [1, 2] := rfl
    have hsame : loc = j := hplace
    have hone : 1 ≤ j := hle
    have hstart : queryStart [sampleReq] 0 + (j - sampleReq.cachedLen) = j - 1 := Nat.zero_add _
    rw [hlocs] at hloc
    rw [hstart]
    rcases t with _ | _ | t
    · cases hloc
      rw [← hsame]
    · cases hloc
      rw [← hsame]
    · cases hloc

theorem forward_attends_window :
    ∃ out, sampleLayer.Returns ExpLog.real (prepareMetadata (fun _ j => j) none [sampleReq])
        (fun _ _ _ => 1) (fun _ _ _ => 1) (fun _ _ _ => 1) (outLoc (fun _ j => j) [sampleReq]) 1 out ∧
      out (1, 1, 0) = some (attention ExpLog.real sampleLayer (fun _ j => j) [sampleReq] (fun _ _ _ => 1)
        (fun _ _ _ => 1) (fun _ _ _ => 1) 0 sampleReq 1 1 0) := by
  have hreturns : sampleLayer.Returns ExpLog.real (prepareMetadata (fun _ j => j) none [sampleReq])
      (fun _ _ _ => 1) (fun _ _ _ => 1) (fun _ _ _ => 1) (outLoc (fun _ j => j) [sampleReq]) 1 _ :=
    ⟨_, _, List.Perm.refl _, List.Perm.refl _, fun _ => none, _, List.Perm.refl _, rfl⟩
  have hextends : Extends [sampleReq] := fun req hreq => by
    rw [List.mem_singleton.1 hreq]
    decide
  have hplaced : sampleLayer.Placed := rfl
  have hheads : sampleLayer.numKvHeads ∣ sampleLayer.numQHeads := ⟨2, rfl⟩
  have hgroup : sampleLayer.config.group ≤ 16 ∨ 16 ∣ sampleLayer.config.group := Or.inl (by decide)
  have hreq : [sampleReq][0]? = some sampleReq := rfl
  have hrow : 1 < sampleReq.extendLen := by decide
  have hhead : 1 < sampleLayer.numQHeads := by decide
  have hd : 0 < sampleLayer.headDim := by decide
  refine ⟨_, hreturns, ?_⟩
  exact forward_attends hextends hplaced hheads hgroup hreturns hreq hrow (sample_owns 1) hhead hd

end TritonBackend

end FreeToken
