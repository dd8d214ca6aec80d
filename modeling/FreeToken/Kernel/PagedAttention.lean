import FreeToken.Lib.GridMemory
import FreeToken.Lib.OnlineSoftmax
import FreeToken.Moe.HybridKernel

/-!
# The Triton attention kernels

A program of a grid is given by what it stores.  Tensors hold exact numbers: rounding to a narrower
type is left out.  A value that would be no number is none.
-/

set_option autoImplicit false

namespace FreeToken

open OnlineSoftmax
open Blocks (divCeil)
open OffloadMoeCache.HybridKernel (nextPowerOf2)

namespace PagedAttention

variable {K : Type} [Field K] [LinearOrder K]

/-- A tensor by token or slot, head and column. -/
abbrev Tensor (K : Type) := Nat → Nat → Nat → K

/-- The compile-time parameters that the kernels share; a window of zero is none. -/
structure Config where
  group : Nat
  dim : Nat
  blockDim : Nat
  slidingWindow : Nat

/-- The paged cache; the slots of the requests are listed one behind the other. -/
structure Paged (K : Type) where
  kCache : Tensor K
  vCache : Tensor K
  indptr : Nat → Nat
  indices : Nat → Nat

namespace Paged

variable (p : Paged K) (req : Nat)

def kvStart : Nat := p.indptr req

def kvLen : Nat := p.indptr (req + 1) - p.indptr req

end Paged

/-! ## A row of a tile -/

/-- `tl.load(.., mask, other=0.0)` -/
def load (mask : Bool) (x : K) : K := if mask then x else 0

def dot (n : Nat) (a b : Nat → K) : K := ((List.range n).map fun d => a d * b d).sum

/-- A key as a row of queries gets it: its scaled score, minus infinity where the row does not see it. -/
def key (c : Config) (smScale : K) (q kRow vRow : Nat → K) (loaded seen : Bool) :
    Score K × (Nat → K) :=
  (if seen then
    some (dot c.blockDim (fun d => load (decide (d < c.dim)) (q d))
      (fun d => load (loaded && decide (d < c.dim)) (kRow d)) * smScale)
  else none,
  fun d => load (loaded && decide (d < c.dim)) (vRow d))

/-- The window mask, where there is a window. -/
def Config.inWindow (c : Config) (keyPos qPos : Nat) : Bool :=
  c.slidingWindow = 0 || decide (qPos < keyPos + c.slidingWindow)

variable (E : ExpLog K)

/-- The first state of a row: a sink is a key without a value. -/
def initial (sinks : Option (Nat → K)) (qHead : Nat) : Lane K :=
  match sinks with
  | some sinks => ⟨some (sinks qHead), 1, fun _ => 0⟩
  | none => ⟨none, 0, fun _ => 0⟩

/-- A tile for a row that may see none of its keys. -/
def tileStep (st : Lane K) (tile : Tile K) : Option (Lane K) :=
  let rowMax := Score.greatest (tile.map Prod.fst)
  let rowMaxFixed : Score K := some (rowMax.getD (-10 ^ 20))
  st.rescale E (Score.max rowMaxFixed st.m) tile

/-- A tile for a row that sees some of its keys. -/
def tileStepSeen (st : Lane K) (tile : Tile K) : Option (Lane K) :=
  st.rescale E (Score.max (Score.greatest (tile.map Prod.fst)) st.m) tile

/-- An address of the output: token, head and column. -/
abbrev OutAddr := Nat × Nat × Nat

/-- The store of a row of the output. -/
def storeRow (c : Config) (row : Option (Lane K)) (tok qHead : Nat) :
    List (OutAddr × Option K) :=
  ((List.range c.blockDim).filter fun d => decide (d < c.dim)).map fun d =>
    ((tok, qHead, d), row.map fun st => st.out d)

/-! ## `paged_attention` -/

structure PagedArgs (K : Type) extends Config, Paged K where
  q : Tensor K
  qToReq : Nat → Nat
  qPos : Nat → Nat
  smScale : K
  sinks : Option (Nat → K)
  blockN : Nat
  numTokens : Nat
  numQHeads : Nat

namespace PagedArgs

variable (a : PagedArgs K) (qTok qHead : Nat)

def seen (j : Nat) : Bool :=
  decide (j < a.kvLen (a.qToReq qTok)) && (decide (j ≤ a.qPos qTok) && a.inWindow j (a.qPos qTok))

def keys (j : Nat) : Score K × (Nat → K) :=
  let req := a.qToReq qTok
  let kvHead := qHead / a.group
  let loaded := decide (j < a.kvLen req)
  let slot := if loaded then a.indices (a.kvStart req + j) else 0
  key a.toConfig a.smScale (a.q qTok qHead) (a.kCache slot kvHead) (a.vCache slot kvHead) loaded
    (a.seen qTok j)

def skipTile (start : Nat) : Bool := (List.range a.blockN).all fun n => !a.seen qTok (start + n)

/-- `_paged_attention_kernel` -/
def kernel : List (OutAddr × Option K) :=
  storeRow a.toConfig
    (Lane.sweep (tileStep E) (a.keys qTok qHead) (a.skipTile qTok) a.blockN 0 (a.kvLen (a.qToReq qTok))
      (initial a.sinks qHead)) qTok qHead

/-- What the grid stores. -/
def stores : List (OutAddr × Option K) :=
  (List.range a.numTokens).flatMap fun qTok =>
    (List.range a.numQHeads).flatMap fun qHead => a.kernel E qTok qHead

end PagedArgs

/-! ## `extend_paged_attention` -/

structure ExtendArgs (K : Type) extends Config, Paged K where
  q : Tensor K
  qoIndptr : Nat → Nat
  prefixLens : Nat → Nat
  smScale : K
  sinks : Option (Nat → K)
  blockM : Nat
  blockN : Nat
  numSeqs : Nat
  numQHeads : Nat
  maxQLen : Nat

namespace ExtendArgs

variable (a : ExtendArgs K) (seqId qHead blockMId : Nat)

def qLen : Nat := a.qoIndptr (seqId + 1) - a.qoIndptr seqId

/-- The query of a row, zero behind the last one. -/
def qRow (row : Nat) (d : Nat) : K :=
  load (decide (row < a.qLen seqId)) (a.q (a.qoIndptr seqId + row) qHead d)

/-- The last query of a block. -/
def blockEnd : Nat := min (a.qLen seqId) ((blockMId + 1) * a.blockM)

/-- No row of the block sees a key of the tile. -/
def noneSeen (seen : Nat → Nat → Bool) (start : Nat) : Bool :=
  (List.range a.blockM).all fun m => (List.range a.blockN).all fun n =>
    !seen (blockMId * a.blockM + m) (start + n)

def seen (row j : Nat) : Bool :=
  decide (row < a.qLen seqId) && (decide (j < a.kvLen seqId) &&
    (decide (j ≤ a.prefixLens seqId + row) && a.inWindow j (a.prefixLens seqId + row)))

def keys (row j : Nat) : Score K × (Nat → K) :=
  let kvHead := qHead / a.group
  let loaded := decide (j < a.kvLen seqId)
  let slot := if loaded then a.indices (a.kvStart seqId + j) else 0
  key a.toConfig a.smScale (a.qRow seqId qHead row) (a.kCache slot kvHead) (a.vCache slot kvHead) loaded
    (a.seen seqId row j)

/-- The rows of a program that are stored. -/
def storeRows (row : Nat → Option (Lane K)) : List (OutAddr × Option K) :=
  ((List.range a.blockM).filter fun m => decide (blockMId * a.blockM + m < a.qLen seqId)).flatMap fun m =>
    storeRow a.toConfig (row (blockMId * a.blockM + m))
      (a.qoIndptr seqId + (blockMId * a.blockM + m)) qHead

def kvLoopEnd : Nat := min (a.kvLen seqId) (a.prefixLens seqId + a.blockEnd seqId blockMId)

/-- A row of a program. -/
def row (r : Nat) : Option (Lane K) :=
  Lane.sweep (tileStep E) (a.keys seqId qHead r) (a.noneSeen blockMId (a.seen seqId)) a.blockN 0
    (a.kvLoopEnd seqId blockMId) (initial a.sinks qHead)

/-- `_extend_attention_kernel` -/
def kernel : List (OutAddr × Option K) :=
  a.storeRows seqId qHead blockMId (a.row E seqId qHead blockMId)

/-- A grid of sequences, heads and blocks of rows. -/
def grid (program : Nat → Nat → Nat → List (OutAddr × Option K)) : List (OutAddr × Option K) :=
  (List.range a.numSeqs).flatMap fun seqId =>
    (List.range a.numQHeads).flatMap fun qHead =>
      (List.range (divCeil a.maxQLen a.blockM)).flatMap fun blockMId => program seqId qHead blockMId

/-- What the grid stores. -/
def stores : List (OutAddr × Option K) := a.grid (a.kernel E)

end ExtendArgs

/-- The keys of this extend are read where the layer left them, those before from the cache. -/
structure ExtendSplitArgs (K : Type) extends ExtendArgs K where
  kExtend : Tensor K
  vExtend : Tensor K

namespace ExtendSplitArgs

variable (a : ExtendSplitArgs K) (seqId qHead blockMId : Nat)

def seenPrefix (row j : Nat) : Bool :=
  decide (row < a.qLen seqId) && (decide (j < a.prefixLens seqId) &&
    a.inWindow j (a.prefixLens seqId + row))

def keysPrefix (row j : Nat) : Score K × (Nat → K) :=
  let kvHead := qHead / a.group
  let loaded := decide (j < a.prefixLens seqId)
  let slot := if loaded then a.indices (a.kvStart seqId + j) else 0
  key a.toConfig a.smScale (a.qRow seqId qHead row) (a.kCache slot kvHead) (a.vCache slot kvHead) loaded
    (a.seenPrefix seqId row j)

def seenCurrent (row j : Nat) : Bool :=
  decide (row < a.qLen seqId) && (decide (j < a.blockEnd seqId blockMId) &&
    (decide (j ≤ row) && a.inWindow j row))

def keysCurrent (row j : Nat) : Score K × (Nat → K) :=
  let kvHead := qHead / a.group
  let loaded := decide (j < a.blockEnd seqId blockMId)
  let tok := a.qoIndptr seqId + j
  key a.toConfig a.smScale (a.qRow seqId qHead row) (a.kExtend tok kvHead) (a.vExtend tok kvHead) loaded
    (a.seenCurrent seqId blockMId row j)

/-- A tile is skipped only with a window. -/
def skipTile (seen : Nat → Nat → Bool) (start : Nat) : Bool :=
  decide (0 < a.slidingWindow) && a.noneSeen blockMId seen start

/-- A row of a program. -/
def row (r : Nat) : Option (Lane K) := do
  let st ← Lane.sweep (tileStep E) (a.keysPrefix seqId qHead r)
    (a.skipTile blockMId (a.seenPrefix seqId)) a.blockN 0 (a.prefixLens seqId) (initial a.sinks qHead)
  Lane.sweep (tileStep E) (a.keysCurrent seqId qHead blockMId r)
    (a.skipTile blockMId (a.seenCurrent seqId blockMId)) a.blockN 0 (a.blockEnd seqId blockMId) st

/-- `_extend_attention_split_kernel` -/
def kernel : List (OutAddr × Option K) :=
  a.storeRows seqId qHead blockMId (a.row E seqId qHead blockMId)

/-- What the grid stores. -/
def stores : List (OutAddr × Option K) := a.grid (a.kernel E)

end ExtendSplitArgs

/-! ## `decode_paged_attention` -/

structure DecodeArgs (K : Type) extends Config, Paged K where
  q : Tensor K
  qPos : Nat → Nat
  numKvSplits : Nat → Nat
  maxKvSplits : Nat
  smScale : K
  sinks : Option (Nat → K)
  blockH : Nat
  validBlockH : Nat
  batch : Nat
  numQHeads : Nat

def minBlockKv : Nat := 32

/-- An address of the scratch memory between the stages. -/
inductive MidAddr
  | o (batchId qHead splitId d : Nat)
  | lse (batchId qHead splitId : Nat)
  deriving DecidableEq

namespace DecodeArgs

variable (a : DecodeArgs K) (batchId qHead splitId : Nat)

def effectiveEnd : Nat := min (a.kvLen batchId) (a.qPos batchId + 1)

/-- `max(0, q_pos - window + 1)` with a window. -/
def effectiveStart : Nat := if 0 < a.slidingWindow then a.qPos batchId + 1 - a.slidingWindow else 0

def effectiveLen : Nat := a.effectiveEnd batchId - a.effectiveStart batchId

def kvLenPerSplit : Nat :=
  divCeil (divCeil (a.effectiveLen batchId) (a.numKvSplits batchId)) minBlockKv * minBlockKv

def splitStart : Nat := a.kvLenPerSplit batchId * splitId

def splitEnd : Nat := min (a.splitStart batchId splitId + a.kvLenPerSplit batchId) (a.effectiveLen batchId)

/-- The keys of a split, relative to the window, for the key head `kvHead`. -/
def keys (kvHead : Nat) (maskH : Bool) (rel : Nat) : Score K × (Nat → K) :=
  let loaded := decide (rel < a.splitEnd batchId splitId)
  let slot := if loaded then a.indices (a.kvStart batchId + (a.effectiveStart batchId + rel)) else 0
  key a.toConfig a.smScale (fun d => load maskH (a.q batchId qHead d)) (a.kCache slot kvHead)
    (a.vCache slot kvHead) loaded (maskH && loaded)

/-- The row of a head in a program of the first stage. -/
def splitRow (kvHead : Nat) (maskH : Bool) : Option (Lane K) :=
  Lane.sweep (tileStepSeen E) (a.keys batchId qHead splitId kvHead maskH) (fun _ => false) 32
    (a.splitStart batchId splitId) (a.splitEnd batchId splitId) ⟨none, 0, fun _ => 0⟩

/-- What a row of the first stage stores. -/
def storeMid (row : Option (Lane K)) : List (MidAddr × Option K) :=
  let result := row.bind fun st => st.partialOut E
  ((List.range a.blockDim).filter fun d => decide (d < a.dim)).map
      (fun d => (MidAddr.o batchId qHead splitId d, result.map fun r => r.1 d)) ++
    [(.lse batchId qHead splitId, result.map fun r => r.2)]

/-- `_decode_grouped_stage1_kernel` -/
def stage1Kernel (headBlockId : Nat) : List (MidAddr × Option K) :=
  let kvHead := headBlockId / divCeil a.group a.validBlockH
  if a.splitStart batchId splitId < a.splitEnd batchId splitId then
    (List.range a.blockH).flatMap fun h =>
      let qHead := headBlockId * a.validBlockH + h
      let maskH := decide (qHead < (headBlockId + 1) * a.validBlockH) && decide (qHead < a.numQHeads)
      if maskH then a.storeMid E batchId qHead splitId (a.splitRow E batchId qHead splitId kvHead maskH)
      else []
  else []

/-- What the first grid stores. -/
def stage1Stores : List (MidAddr × Option K) :=
  (List.range a.batch).flatMap fun batchId =>
    (List.range (divCeil a.numQHeads a.validBlockH)).flatMap fun headBlockId =>
      (List.range a.maxKvSplits).flatMap fun splitId => a.stage1Kernel E batchId splitId headBlockId

/-- One split in the second stage; a column that is no number spoils the row. -/
def mergeSplit (mid : MidAddr → Option K) (st : Lane K) (splitId : Nat) : Option (Lane K) :=
  if a.splitStart batchId splitId < a.splitEnd batchId splitId then do
    let columns ← (List.range a.dim).mapM fun d => mid (.o batchId qHead splitId d)
    let partialLse ← mid (.lse batchId qHead splitId)
    st.rescale E (Score.max (some partialLse) st.m) [(some partialLse, fun d => columns.getD d 0)]
  else some st

/-- `_decode_stage2_kernel` -/
def stage2Kernel (mid : MidAddr → Option K) : List (OutAddr × Option K) :=
  storeRow a.toConfig
    ((List.range a.maxKvSplits).foldlM (a.mergeSplit E batchId qHead mid) (initial a.sinks qHead))
    batchId qHead

/-- What the second grid stores. -/
def stage2Stores (mid : MidAddr → Option K) : List (OutAddr × Option K) :=
  (List.range a.batch).flatMap fun batchId =>
    (List.range a.numQHeads).flatMap fun qHead => a.stage2Kernel E batchId qHead mid

end DecodeArgs

end PagedAttention

end FreeToken
