import FreeToken.Kernel.ChunkIndex
import FreeToken.Kernel.PagedAttention
import FreeToken.Lib.DeltaRule
import FreeToken.Lib.TriangularInverse

/-!
# The kernels of the chunked gated delta rule

Each kernel is given by what its programs store; the numbers are exact.  The grids are those of packed
sequences, with one batch row.
-/

set_option autoImplicit false

namespace FreeToken

open OnlineSoftmax (ExpLog)
open Blocks (divCeil)
open GridMemory (storeAll Launch)
open OffloadMoeCache.HybridKernel (nextPowerOf2)
open PagedAttention (load)

namespace GatedDelta

variable {R : Type} [Field R] [LinearOrder R]

/-- What the kernels compute with. -/
structure Arith (R : Type) [Field R] [LinearOrder R] extends ExpLog R where
  sqrt : R → R
  exp_strictMono : StrictMono exp

/-- A tensor by token, head and column. -/
abbrev Tensor (R : Type) := Nat → Nat → Nat → R

/-- `CHUNK_SIZE` -/
abbrev chunkSize : Nat := 64

/-- The launch of `chunk_gated_delta_rule`. -/
structure ChunkArgs (R : Type) extends Packed where
  numHeads : Nat
  numKHeads : Nat
  keyDim : Nat
  valueDim : Nat
  totalTokens : Nat
  q : Tensor R
  k : Tensor R
  v : Tensor R
  g : Nat → Nat → R
  beta : Nat → Nat → R
  scale : R
  indices : Nat → Nat
  blockK : Nat
  blockV : Nat

variable (N : Arith R)

/-- `safe_exp` -/
def safeExp (x : R) : R := if x ≤ 0 then N.exp x else 0

def eps : R := 1 / ((10 ^ 6 : Nat) : R)

/-- `l2norm_fwd`, over the columns of a row. -/
def l2norm (dim : Nat) (x : Nat → R) : Nat → R :=
  let var := ∑ d ∈ Finset.range (nextPowerOf2 dim),
    load (decide (d < dim)) (x d) * load (decide (d < dim)) (x d)
  -- the kernel of wide rows multiplies by the reciprocal
  if dim ≤ 512 then fun d => x d / N.sqrt (var + eps)
  else fun d => x d * (1 / N.sqrt (var + eps))

/-- The columns that tiles of a width cover. -/
def tiled (dim width : Nat) : List Nat :=
  (List.range (divCeil dim width)).flatMap fun i =>
    ((List.range width).filter fun j => decide (i * width + j < dim)).map fun j => i * width + j

namespace ChunkArgs

variable (a : ChunkArgs R)

/-- `i_h // (H // Hg)` -/
def kHead (h : Nat) : Nat := h / (a.numHeads / a.numKHeads)

/-- `use_qk_l2norm_in_kernel` -/
def normalized : ChunkArgs R :=
  { a with
    q := fun tok h => l2norm N a.keyDim (a.q tok h)
    k := fun tok h => l2norm N a.keyDim (a.k tok h) }

section Loads

variable (n t i : Nat)

/-- A load of a row of a chunk, zero behind the end of the sequence. -/
def rowLoad (x : Nat → R) : R :=
  load (a.inside chunkSize n t i) (x (a.bos n + (t * chunkSize + i)))

/-- A load of a row and a column. -/
def colLoad (dim d : Nat) (x : Nat → Nat → R) : R :=
  load (a.inside chunkSize n t i && decide (d < dim)) (x (a.bos n + (t * chunkSize + i)) d)

end Loads

/-! ## `chunk_local_cumsum_scalar_kernel` -/

def cumsumRow (_iTg n t h i : Nat) : List (Unit × R) :=
  [((), ∑ j ∈ Finset.range (i + 1), a.rowLoad n t j fun tok => a.g tok h)]

def cumsumStores : List ((Nat × Nat × Unit) × R) := a.rowStores chunkSize a.numHeads a.cumsumRow

/-! ## `chunk_gated_delta_rule_fwd_kkt_solve_kernel` -/

section Solve

variable (g : Nat × Nat × Unit → R) (n t h : Nat)

/-- `BC` -/
abbrev tile : Nat := 16

/-- `b_k0` to `b_k3` -/
def keyTile (block : Nat) (i : Fin tile) (d : Nat) : R :=
  a.colLoad n t (tile * block + i) a.keyDim d fun tok => a.k tok (a.kHead h)

def gateTile (block : Nat) (i : Fin tile) : R :=
  a.rowLoad n t (tile * block + i) fun tok => g (tok, h, ())

def betaTile (block : Nat) (i : Fin tile) : R :=
  a.rowLoad n t (tile * block + i) fun tok => a.beta tok h

/-- The products of keys; those of a tile behind the end are not computed. -/
def keyProducts (row col : Nat) : Matrix (Fin tile) (Fin tile) R := fun i j =>
  -- `i_tc1` to `i_tc3` are tested against `T`, `i_tc0` is not
  if row = 0 ∨ t * chunkSize + tile * row < a.len n then
    ∑ iK ∈ Finset.range (divCeil a.keyDim a.blockK), ∑ d ∈ Finset.range a.blockK,
      a.keyTile n t h row i (iK * a.blockK + d) * a.keyTile n t h col j (iK * a.blockK + d)
  else 0

def gated (row col : Nat) : Matrix (Fin tile) (Fin tile) R := fun i j =>
  a.keyProducts n t h row col i j * safeExp N (a.gateTile g n t h row i - a.gateTile g n t h col j)

/-- `b_A00`, `b_A11`, `b_A22` and `b_A33` -/
def diagonal (block : Nat) : Matrix (Fin tile) (Fin tile) R := fun i j =>
  (if decide (j < i) && (a.inside chunkSize n t (tile * block + i) &&
      a.inside chunkSize n t (tile * block + j)) then a.gated N g n t h block block i j else 0) *
    a.betaTile n t h block i

/-- `b_A10` to `b_A32` -/
def offDiagonal (row col : Nat) : Matrix (Fin tile) (Fin tile) R := fun i j =>
  a.gated N g n t h row col i j * a.betaTile n t h row i

def below : TriangularInverse.Below (Matrix (Fin tile) (Fin tile) R) where
  b10 := a.offDiagonal N g n t h 1 0
  b20 := a.offDiagonal N g n t h 2 0
  b21 := a.offDiagonal N g n t h 2 1
  b30 := a.offDiagonal N g n t h 3 0
  b31 := a.offDiagonal N g n t h 3 1
  b32 := a.offDiagonal N g n t h 3 2

/-- One row of the forward substitution. -/
def substituteRow (A Ai : Matrix (Fin tile) (Fin tile) R) (i : Nat) : Matrix (Fin tile) (Fin tile) R :=
  -- row `i` of `-A`, picked by a sum with a mask
  let row : Fin tile → R := fun j => ∑ r : Fin tile, if r.val = i then -A r j else 0
  let masked : Fin tile → R := fun j => if j.val < i then row j else 0
  let solved : Fin tile → R := fun j => masked j + ∑ r : Fin tile, masked r * Ai r j
  fun r j => if r.val = i then solved j else Ai r j

/-- `b_Ai00` to `b_Ai33`: rows `2` to `min(BC, T - i_tc)`. -/
def solveDiagonal (block : Nat) : Matrix (Fin tile) (Fin tile) R :=
  let A := a.diagonal N g n t h block
  -- rows 0 and 1 of `-A` need no substitution
  (List.range' 2 (min tile (a.len n - (t * chunkSize + tile * block)) - 2)).foldl (substituteRow A) (-A) + 1

/-- The ten blocks that are stored. -/
def solved : Matrix (Fin 4) (Fin 4) (Matrix (Fin tile) (Fin tile) R) :=
  let p := fun block : Fin 4 => a.solveDiagonal N g n t h block
  ((a.below N g n t h).merge p).matrix p

/-- A row of the blocks on and below the diagonal. -/
def solveRow (_iTg n t h i : Nat) : List (Nat × R) :=
  (List.finRange 4).flatMap fun row : Fin 4 => (List.finRange tile).flatMap fun i' : Fin tile =>
    if i = tile * row + i' then
      -- nothing is stored above the diagonal blocks
      ((List.finRange 4).filter fun col => decide (col ≤ row)).flatMap fun col : Fin 4 =>
        (List.finRange tile).map fun j : Fin tile =>
          (tile * col.val + j.val, a.solved N g n t h row col i' j)
    else []

def solveStores : List ((Nat × Nat × Nat) × R) :=
  a.rowStores chunkSize a.numHeads (a.solveRow N g)

end Solve

/-! ## `recompute_w_u_fwd_kernel` -/

/-- A column of `w` or of `u`. -/
inductive WuCol
  | w (d : Nat)
  | u (v : Nat)
  deriving DecidableEq

section Recompute

variable (g : Nat × Nat × Unit → R) (A : Nat × Nat × Nat → R)

def solvedLoad (n t h i c : Nat) : R := a.rowLoad n t i fun tok => A (tok, h, c)

def wRow (n t h i d : Nat) : R :=
  ∑ c ∈ Finset.range chunkSize, a.solvedLoad A n t h i c *
    ((a.colLoad n t c a.keyDim d fun tok => a.k tok (a.kHead h)) * (a.rowLoad n t c fun tok => a.beta tok h) *
      N.exp (a.rowLoad n t c fun tok => g (tok, h, ())))

def uRow (n t h i v : Nat) : R :=
  ∑ c ∈ Finset.range chunkSize, a.solvedLoad A n t h i c *
    ((a.colLoad n t c a.valueDim v fun tok => a.v tok h) * a.rowLoad n t c fun tok => a.beta tok h)

def wuRow (_iTg n t h i : Nat) : List (WuCol × R) :=
  (tiled a.valueDim 64).map (fun v => (.u v, a.uRow A n t h i v)) ++
    (tiled a.keyDim 64).map fun d => (.w d, a.wRow N g A n t h i d)

def wuStores : List ((Nat × Nat × WuCol) × R) := a.rowStores chunkSize a.numHeads (a.wuRow N g A)

end Recompute

/-! ## `chunk_gated_delta_rule_fwd_kernel_h_blockdim64` -/

/-- What the kernel of the states writes: `h`, `v_new` and, in place, the states. -/
inductive HAddr
  | h (chunk head v d : Nat)
  | vNew (tok head v : Nat)
  | state (slot head v d : Nat)
  deriving DecidableEq

/-- The columns `b_h1` to `b_h4` start at; those behind the key's dimension do not exist. -/
def pieces : List Nat := [0, 64, 128, 192].filter fun o => decide (o = 0) || decide (o < a.keyDim)

section States

variable (g : Nat × Nat × Unit → R) (wu : Nat × Nat × WuCol → R) (n h v : Nat)

/-- The state that the program loads. -/
def loadState (mem : HAddr → R) (d : Nat) : R :=
  load (decide (v < a.valueDim) && decide (d < a.keyDim)) (mem (.state (a.indices n) h v d))

/-- `b_v`, before it is scaled. -/
def newValue (t : Nat) (state : Nat → R) (i : Nat) : R :=
  (a.colLoad n t i a.valueDim v fun tok v => wu (tok, h, .u v)) -
    (a.pieces.map fun o => ∑ c ∈ Finset.range 64,
      (a.colLoad n t i a.keyDim (o + c) fun tok d => wu (tok, h, .w d)) * state (o + c)).sum

/-- `b_g_last` -/
def gateLast (t : Nat) : R :=
  g (a.bos n + (min ((t + 1) * chunkSize) (a.len n) - 1), h, ())

/-- One chunk for a row of the state. -/
def chunkStep (state : Nat → R) (t : Nat) : Nat → R := fun d =>
  state d * N.exp (a.gateLast g n h t) +
    ∑ i ∈ Finset.range chunkSize, (a.colLoad n t i a.keyDim d fun tok => a.k tok (a.kHead h)) *
      (a.newValue wu n h v t state i *
        safeExp N (a.gateLast g n h t - a.rowLoad n t i fun tok => g (tok, h, ())))

/-- The state before a chunk. -/
def chunkState (mem : HAddr → R) (t : Nat) : Nat → R :=
  (List.range t).foldl (a.chunkStep N g wu n h v) (a.loadState n h v mem)

/-- The columns of the state. -/
def stateCols : List Nat :=
  a.pieces.flatMap fun o => ((List.range 64).filter fun c => decide (o + c < a.keyDim)).map fun c => o + c

/-- The row `v` of a program. -/
def stateRow (mem : HAddr → R) : List (HAddr × R) :=
  ((List.range (divCeil (a.len n) chunkSize)).flatMap fun t =>
    (a.stateCols.map fun d =>
        (HAddr.h (a.prepareChunkOffsets chunkSize n + t) h v d, a.chunkState N g wu n h v mem t d)) ++
      ((List.range chunkSize).filter fun i => a.inside chunkSize n t i).map fun i =>
        (.vNew (a.bos n + (t * chunkSize + i)) h v,
          a.newValue wu n h v t (a.chunkState N g wu n h v mem t) i)) ++
    a.stateCols.map fun d =>
      (.state (a.indices n) h v d, a.chunkState N g wu n h v mem (divCeil (a.len n) chunkSize) d)

/-- A program: a tile of values, a sequence and a head. -/
def stateProgram (prog : Nat × Nat × Nat) (mem : HAddr → R) : List (HAddr × R) :=
  ((List.range a.blockV).filter fun r => decide (prog.1 * a.blockV + r < a.valueDim)).flatMap fun r =>
    a.stateRow N g wu prog.2.1 prog.2.2 (prog.1 * a.blockV + r) mem

def stateLaunch : Launch (Nat × Nat × Nat) HAddr R where
  programs := (List.range (divCeil a.valueDim a.blockV)).flatMap fun iV =>
    (List.range a.numSeqs).flatMap fun n => (List.range a.numHeads).map fun h => (iV, n, h)
  stores := a.stateProgram N g wu

end States

/-! ## `chunk_fwd_kernel_o` -/

section Output

variable (g : Nat × Nat × Unit → R) (mem : HAddr → R)

/-- `min(chunk_size, max(16, next_power_of_2(T)))` -/
def outChunk : Nat := min chunkSize (max 16 (nextPowerOf2 a.totalTokens))

section Row

variable (iTg n t h i v : Nat)

def outLoad (x : Nat → R) : R := load (a.inside a.outChunk n t i) (x (a.bos n + (t * a.outChunk + i)))

def outColLoad (dim d : Nat) (x : Nat → Nat → R) : R :=
  load (a.inside a.outChunk n t i && decide (d < dim)) (x (a.bos n + (t * a.outChunk + i)) d)

/-- `b_o`: what the query finds in the state before the chunk. -/
def fromState : R :=
  (∑ iK ∈ Finset.range (divCeil a.keyDim 128), ∑ d ∈ Finset.range 128,
    (a.outColLoad n t i a.keyDim (iK * 128 + d) fun tok => a.q tok (a.kHead h)) *
      load (decide (v < a.valueDim) && decide (iK * 128 + d < a.keyDim)) (mem (.h iTg h v (iK * 128 + d)))) *
    N.exp (a.outLoad n t i fun tok => g (tok, h, ()))

/-- `b_A` -/
def attention (j : Nat) : R :=
  -- the causal mask
  if j ≤ i then
    (∑ iK ∈ Finset.range (divCeil a.keyDim 128), ∑ d ∈ Finset.range 128,
      (a.outColLoad n t i a.keyDim (iK * 128 + d) fun tok => a.q tok (a.kHead h)) *
        a.outColLoad n t j a.keyDim (iK * 128 + d) fun tok => a.k tok (a.kHead h)) *
      safeExp N ((a.outLoad n t i fun tok => g (tok, h, ())) - a.outLoad n t j fun tok => g (tok, h, ()))
  else 0

def outValue : R :=
  a.fromState N g mem iTg n t h i v * a.scale +
    (∑ j ∈ Finset.range a.outChunk, a.attention N g n t h i j *
      a.outColLoad n t j a.valueDim v fun tok v => mem (.vNew tok h v)) * a.scale

end Row

def outRow (iTg n t h i : Nat) : List (Nat × R) :=
  (tiled a.valueDim 64).map fun v => (v, a.outValue N g mem iTg n t h i v)

def outStores : List ((Nat × Nat × Nat) × R) := a.rowStores a.outChunk a.numHeads (a.outRow N g mem)

end Output

/-! ## `chunk_gated_delta_rule_fwd` -/

/-- The launches, whatever the order of their stores and whatever fresh memory holds. -/
structure Forward (pool : Nat → Nat → Nat → Nat → R) where
  gEmpty : Nat × Nat × Unit → R
  gStores : List ((Nat × Nat × Unit) × R)
  gPerm : gStores.Perm a.cumsumStores
  aStores : List ((Nat × Nat × Nat) × R)
  aPerm : aStores.Perm (a.solveStores N (storeAll gEmpty gStores))
  wuEmpty : Nat × Nat × WuCol → R
  wuStores : List ((Nat × Nat × WuCol) × R)
  wuPerm : wuStores.Perm
    (a.wuStores N (storeAll gEmpty gStores) (storeAll (fun _ => 0) aStores))
  hEmpty : HAddr → R
  hPool : ∀ slot h v d, hEmpty (.state slot h v d) = pool slot h v d
  hRun : (a.stateLaunch N (storeAll gEmpty gStores) (storeAll wuEmpty wuStores)).Run hEmpty
  oStores : List ((Nat × Nat × Nat) × R)
  oPerm : oStores.Perm (a.outStores N (storeAll gEmpty gStores) hRun.final)

namespace Forward

variable {N a} {pool : Nat → Nat → Nat → Nat → R} (f : a.Forward N pool)

/-- The cumulative gates. -/
def g : Nat × Nat × Unit → R := storeAll f.gEmpty f.gStores

/-- `A`, which starts as zeros. -/
def solved : Nat × Nat × Nat → R := storeAll (fun _ => 0) f.aStores

def wu : Nat × Nat × WuCol → R := storeAll f.wuEmpty f.wuStores

/-- `h`, `v_new` and the states after the launch. -/
def states : HAddr → R := f.hRun.final

def o (tok h v : Nat) : R := storeAll (fun _ => 0) f.oStores (tok, h, v)

def pool' (slot h v d : Nat) : R := f.states (.state slot h v d)

end Forward

end ChunkArgs

end GatedDelta

end FreeToken
