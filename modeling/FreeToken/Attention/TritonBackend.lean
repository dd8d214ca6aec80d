import FreeToken.Core
import FreeToken.Kernel.SplitDecode
import FreeToken.Moe.HybridAgrees

/-!
# The Triton attention backend

What the scheduler and the backend prepare for a batch, and the forward of a layer: whichever kernel it
takes, each query gets attention over its request.
-/

set_option autoImplicit false
set_option linter.unusedSectionVars false

namespace FreeToken

open OnlineSoftmax PagedAttention
open GridMemory (storeAll storeAll_apply)
open OffloadMoeCache.HybridKernel (nextPowerOf2 le_nextPowerOf2)

namespace TritonBackend

/-! ## What the scheduler prepares -/

/-- The page table, by the row and the position. -/
abbrev PageTable := Option Nat → Nat → Nat

/-- `_make_positions` -/
def makePositions (paddedReqs : List Req) : List Nat :=
  paddedReqs.flatMap fun req => List.range' req.cachedLen req.extendLen

/-- `_make_input_tuple`: the row of each query and its position. -/
def makeInputTuple (paddedReqs : List Req) : List (Option Nat × Nat) :=
  (paddedReqs.flatMap fun req => List.replicate req.extendLen req.tableIdx).zip
    (makePositions paddedReqs)

/-- `batch.out_loc` -/
def outLoc (pageTable : PageTable) (paddedReqs : List Req) : List Nat :=
  (makeInputTuple paddedReqs).map fun at' => pageTable at'.1 at'.2

/-! ## What the backend prepares -/

structure TritonMetadata where
  cuSeqlensQ : Nat → Nat
  indptr : Nat → Nat
  indices : List Nat
  qToReq : List Nat
  qPositions : List Nat
  isDecode : Bool
  prefixLens : List Nat
  maxQLen : Nat
  swaIndices : Option (List Nat)

/-- The sum of the first entries. -/
def cumsum (ns : List Nat) (i : Nat) : Nat := (ns.take i).sum

/-- `prepare_metadata`; `swaMap` is the slot map of a pool with a window pool. -/
def prepareMetadata (pageTable : PageTable) (swaMap : Option (Nat → Nat)) (reqs : List Req) :
    TritonMetadata :=
  let seqlensQ := reqs.map Req.extendLen
  let seqlensK := reqs.map Req.deviceLen
  let cachedLens := reqs.map Req.cachedLen
  let maxQLen := seqlensQ.foldl max 0
  let isDecode := maxQLen = 1
  let indices := reqs.flatMap fun req => (List.range req.deviceLen).map (pageTable req.tableIdx)
  { cuSeqlensQ :=
      if isDecode then fun i => i
      else if cachedLens.all fun l => l = 0 then cumsum seqlensK
      else cumsum seqlensQ
    indptr := cumsum seqlensK
    indices := indices
    qToReq := reqs.zipIdx.flatMap fun r => List.replicate r.1.extendLen r.2
    qPositions := makePositions reqs
    isDecode := isDecode
    prefixLens := cachedLens
    maxQLen := maxQLen
    swaIndices := swaMap.map indices.map }

/-! ## The forward of a layer -/

/-- A layer, its part of the cache, and what the device offers. -/
structure Layer (K : Type) where
  numQHeads : Nat
  numKvHeads : Nat
  headDim : Nat
  smScale : K
  slidingWindow : Option Nat
  sinks : Option (Nat → K)
  isSwaLayer : Bool
  swaMap : Option (Nat → Nat)
  half : Bool
  smemOptin : Nat
  kCache : Tensor K
  vCache : Tensor K

def maxKvSplits : Nat := 8

def prefillTileMinQ : Nat := 128

/-- `_select_extend_tile` -/
def selectExtendTile (headDim blockD smemOptin : Nat) : Nat × Nat :=
  let fits := fun blockM blockN => decide (10 * ((blockM + 2 * blockN) * blockD * 2) ≤ 8 * smemOptin)
  if headDim ≤ 128 then (128, 64)
  else if headDim ≤ 256 then if fits 128 64 then (128, 64) else (64, 32)
  else if headDim ≤ 384 then if fits 32 64 then (32, 64) else (32, 32)
  else if fits 32 64 then (32, 64) else (16, 16)

section Forward

variable {K : Type} [Field K] [LinearOrder K] (E : ExpLog K) (layer : Layer K) (md : TritonMetadata)
  (q k v : Tensor K) (locs : List Nat)

namespace Layer

/-- Where `store_kv` puts a slot of the page table. -/
def storePlace (slot : Nat) : Nat :=
  match layer.isSwaLayer, layer.swaMap with
  | true, some swaMap => swaMap slot
  | _, _ => slot

/-- The rows that `store_kv` writes. -/
def kvStores (x : Tensor K) : List (Nat × (Nat → Nat → K)) :=
  locs.zipIdx.map fun loc => (layer.storePlace loc.1, x loc.2)

/-- `indices` or `swa_indices` -/
def gatherIndices : List Nat :=
  match layer.slidingWindow, md.swaIndices with
  | some _, some swaIndices => swaIndices
  | _, _ => md.indices

def config : Config where
  group := layer.numQHeads / layer.numKvHeads
  dim := layer.headDim
  blockDim := nextPowerOf2 layer.headDim
  slidingWindow := layer.slidingWindow.getD 0

def paged (kCache vCache : Tensor K) : PagedAttention.Paged K where
  kCache := kCache
  vCache := vCache
  indptr := md.indptr
  indices := fun i => (layer.gatherIndices md).getD i 0

/-- The launch of `decode_paged_attention` for `bs` requests. -/
def decodeArgs (kCache vCache : Tensor K) (bs : Nat) : DecodeArgs K :=
  { layer.config, layer.paged md kCache vCache with
    q := q
    qPos := fun i => md.qPositions.getD i 0
    numKvSplits := fun _ => maxKvSplits
    maxKvSplits := maxKvSplits
    smScale := layer.smScale
    sinks := layer.sinks
    blockH := max 16 (nextPowerOf2 (min 16 layer.config.group))
    validBlockH := min 16 layer.config.group
    batch := bs
    numQHeads := layer.numQHeads }

/-- The launch of `extend_paged_attention` for `bs` requests, with the keys of the extend. -/
def extendArgs (kCache vCache : Tensor K) (bs : Nat) : ExtendSplitArgs K :=
  let tile := selectExtendTile layer.headDim (nextPowerOf2 layer.headDim) layer.smemOptin
  { layer.config, layer.paged md kCache vCache with
    q := q
    qoIndptr := md.cuSeqlensQ
    prefixLens := fun i => md.prefixLens.getD i 0
    smScale := layer.smScale
    sinks := layer.sinks
    blockM := tile.1
    blockN := tile.2
    numSeqs := bs
    numQHeads := layer.numQHeads
    maxQLen := md.maxQLen
    kExtend := k
    vExtend := v }

/-- The launch of `paged_attention`. -/
def pagedArgs (kCache vCache : Tensor K) : PagedArgs K :=
  { layer.config, layer.paged md kCache vCache with
    q := q
    qToReq := fun i => md.qToReq.getD i 0
    qPos := fun i => md.qPositions.getD i 0
    smScale := layer.smScale
    sinks := layer.sinks
    blockN := 32
    numTokens := md.qToReq.length
    numQHeads := layer.numQHeads }

/-- What `forward` may leave in the output: the stores of every launch come in any order. -/
def Returns (bs : Nat) (out : OutAddr → Option K) : Prop :=
  ∃ kStores vStores, kStores.Perm (layer.kvStores locs k) ∧ vStores.Perm (layer.kvStores locs v) ∧
    let kCache := storeAll layer.kCache kStores
    let vCache := storeAll layer.vCache vStores
    if md.isDecode && layer.half then
      ∃ mid midStores empty stores, midStores.Perm ((layer.decodeArgs md q kCache vCache bs).stage1Stores E) ∧
        stores.Perm ((layer.decodeArgs md q kCache vCache bs).stage2Stores E (storeAll mid midStores)) ∧
        out = storeAll empty stores
    else if !md.isDecode && layer.half &&
        (decide (layer.headDim ≤ 256) || decide (prefillTileMinQ ≤ md.maxQLen)) then
      ∃ empty stores, stores.Perm ((layer.extendArgs md q k v kCache vCache bs).stores E) ∧
        out = storeAll empty stores
    else
      ∃ empty stores, stores.Perm ((layer.pagedArgs md q kCache vCache).stores E) ∧
        out = storeAll empty stores

end Layer

end Forward

end TritonBackend

end FreeToken
