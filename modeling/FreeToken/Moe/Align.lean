import FreeToken.Lib.GridMemory
import FreeToken.Moe.HybridKernel
import Mathlib.Algebra.BigOperators.Group.Finset.Basic
import Mathlib.Algebra.BigOperators.Intervals

/-!
# moe_align_block_size

The kernels that sort the routed tokens by expert, each expert's region padded to whole blocks.  A
kernel is the list of the stores and additions of its lanes, which a schedule puts in any order, or a
family of lanes that each draw a rank by `atomic_add` and then write.  What the lanes of a program hold
in registers is a function of the lane.  Entries and addresses do not wrap.
-/

set_option autoImplicit false

namespace FreeToken

open GridMemory

open OffloadMoeCache.HybridKernel (nextPowerOf2)

namespace MoeAlign

/-- The tensors that the kernels write. -/
inductive Buf where
  | sortedTokenIds
  | expertIds
  | numTokensPostPad
  | cumsum
  | fillCounter
  | counts
  deriving DecidableEq, Repr

abbrev Addr := Buf × Int

abbrev Mem := Addr → Int

inductive Kernel where
  | smallStores
  | fillAndCount
  | cumsumExperts
  | fillExpertIds
  deriving DecidableEq, Repr

/-- The order in which a run executes the operations of its kernels, and in which the lanes of a scatter
take their turns. -/
structure Schedule where
  ops : Kernel → List (Op Addr) → List (Op Addr)
  turns : List Nat → List Nat
  ops_perm : ∀ k l, (ops k l).Perm l
  turns_perm : ∀ l, (turns l).Perm l

/-- Everything in the order of the programs and their lanes. -/
def Schedule.inOrder : Schedule where
  ops _ l := l
  turns l := l
  ops_perm _ l := List.Perm.refl l
  turns_perm l := List.Perm.refl l

/-! ## Vectors -/

/-- `tl.store` behind a mask -/
def tlStore (n : Nat) (buf : Buf) (off val : Nat → Int) (mask : Nat → Bool) : List (Op Addr) :=
  ((List.range n).filter mask).map fun l => .store (buf, off l) (val l)

/-- `tl.atomic_add` behind a mask, the old values not used -/
def tlAtomicAdd (n : Nat) (buf : Buf) (off val : Nat → Int) (mask : Nat → Bool) : List (Op Addr) :=
  ((List.range n).filter mask).map fun l => .add (buf, off l) (val l)

/-- `tl.histogram` of the bins of `n` lanes -/
def tlHistogram (n : Nat) (bin : Nat → Int) (k : Nat) : Int :=
  (List.range n).countP fun l => bin l == k

/-- `tl.cumsum` -/
def tlCumsum (x : Nat → Int) (k : Nat) : Int := ∑ i ∈ Finset.range (k + 1), x i

/-- `tl.sum` -/
def tlSum (n : Nat) (x : Nat → Int) : Int := ∑ i ∈ Finset.range n, x i

/-- `tl.max` of a vector that is nowhere negative -/
def tlMax (n : Nat) (x : Nat → Int) : Int := ((List.range n).map x).foldr max 0

/-- `tl.range(0, stop, step)` -/
def tlRange (stop step : Int) : List Int :=
  (List.range ((stop + step - 1) / step).toNat).map fun k : Nat => (k : Int) * step

/-- `triton.cdiv` and `_div_ceil` -/
def divCeil (a b : Nat) : Nat := (a + b - 1) / b

/-! ## The launch -/

/-- What a launch fixes: the ids, the padding and the number of experts, the one beyond `num_experts`
included. -/
structure Launch where
  topkIds : List Int
  blockSize : Nat
  effectiveE : Nat

namespace Launch

variable (g : Launch)

def numel : Nat := g.topkIds.length

/-- `num_experts + 1` is `effectiveE`. -/
def maxNumTokensPadded : Nat :=
  if g.numel < g.effectiveE then g.numel * g.blockSize
  else g.numel + g.effectiveE * (g.blockSize - 1)

def maxNumMBlocks : Nat := divCeil g.maxNumTokensPadded g.blockSize

def size : Buf → Nat
  | .sortedTokenIds => g.maxNumTokensPadded
  | .expertIds => g.maxNumMBlocks
  | .numTokensPostPad => 1
  | .cumsum => g.effectiveE + 1
  | .fillCounter => g.effectiveE
  | .counts => g.effectiveE

/-- The address is one of its buffer's. -/
def inBounds (p : Addr) : Bool := decide (0 ≤ p.2 ∧ p.2 < g.size p.1)

/-- `tl.load(topk_ids_ptr + t, mask=t < numel, other=-1)` -/
def idAt (t : Nat) : Int := g.topkIds.getD t (-1)

def valid (t : Nat) : Bool :=
  decide (t < g.numel ∧ 0 ≤ g.idAt t ∧ g.idAt t < g.effectiveE)

def hist : Nat := nextPowerOf2 (g.effectiveE + 1)

/-- An invalid id goes to the spare bin. -/
def bin (t : Nat) : Int := if g.valid t then g.idAt t else (g.hist : Int) - 1

def nblk (cnt : Nat → Int) (le : Nat) : Int := (cnt le + g.blockSize - 1) / g.blockSize

/-- The lane of token `t` in a scatter. -/
def scatterLane (t : Nat) : Draw Addr where
  counter := (.fillCounter, g.idAt t)
  base := (.cumsum, g.idAt t)
  slot q := (.sortedTokenIds, q)
  value := t

/-- The lanes of a scatter draw a rank and write; the small kernel and `_scatter` load the base, which
no lane writes, on either side of the `atomic_add`. -/
def scatter (σ : Schedule) (lanes : List Nat) (mem : Mem) : Option Mem :=
  let valid := lanes.filter g.valid
  (turns g.inBounds g.scatterLane ⟨mem, fun _ => none⟩ (σ.turns (valid ++ valid))).map State.mem

/-! ## `_moe_align_small` -/

/-- The stores before the barrier. -/
def smallStores (nPad fill : Nat) : List (Op Addr) :=
  let counts := tlHistogram nPad g.bin
  let mE := fun le => decide (le < g.effectiveE)
  let cnt := fun le => if mE le then counts le else 0
  let nblk := g.nblk cnt
  let exclBlk := fun le => tlCumsum nblk le - nblk le
  let npp := tlSum g.hist nblk * g.blockSize
  tlStore g.hist .cumsum (fun le => le) (fun le => exclBlk le * g.blockSize) mE ++
    [.store (.cumsum, g.effectiveE) npp, .store (.numTokensPostPad, 0) npp] ++
    tlStore g.hist .fillCounter (fun le => le) (fun _ => 0) mE ++
    (tlRange (tlMax g.hist nblk) 1).flatMap (fun j =>
      tlStore g.hist .expertIds (fun le => exclBlk le + j) (fun le => le) fun le =>
        mE le && decide (j < nblk le)) ++
    (tlRange npp fill).flatMap fun s =>
      tlStore fill .sortedTokenIds (fun fo => s + fo) (fun _ => g.numel) fun fo =>
        decide (s + fo < npp)

def moeAlignSmall (σ : Schedule) (nPad fill : Nat) (mem : Mem) : Option Mem := do
  let mem ← run g.inBounds (σ.ops .smallStores (g.smallStores nPad fill)) mem
  g.scatter σ (List.range nPad) mem

/-! ## The large path -/

/-- A program of `_fill_and_count`. -/
def fillAndCountProgram (blockSize pid : Nat) : List (Op Addr) :=
  let offs := fun l => pid * blockSize + l
  let h := tlHistogram blockSize fun l => g.bin (offs l)
  tlStore blockSize .sortedTokenIds (fun l => offs l) (fun _ => g.numel)
      (fun l => decide (offs l < g.maxNumTokensPadded)) ++
    tlStore blockSize .fillCounter (fun l => offs l) (fun _ => 0)
      (fun l => decide (offs l < g.effectiveE)) ++
    tlAtomicAdd g.hist .counts (fun le => le) h
      fun le => decide (le < g.effectiveE) && decide (0 < h le)

def fillAndCount (grid blockSize : Nat) : List (Op Addr) :=
  (List.range grid).flatMap (g.fillAndCountProgram blockSize)

/-- The padded blocks per expert, `nblk` of `_cumsum_experts`. -/
def paddedBlocks (mem : Mem) (lane : Nat) : Int :=
  let c := fun lane => if lane < g.effectiveE then mem (.counts, lane) else 0
  if lane < g.effectiveE then g.nblk c lane else 0

/-- `_cumsum_experts` -/
def cumsumExperts (ePadded : Nat) (mem : Mem) : List (Op Addr) :=
  let nblk := g.paddedBlocks mem
  let excl := fun lane => tlCumsum nblk lane - nblk lane
  let totalTok := tlSum ePadded nblk * g.blockSize
  tlStore ePadded .cumsum (fun lane => lane) (fun lane => excl lane * g.blockSize)
      (fun lane => decide (lane < g.effectiveE)) ++
    [.store (.cumsum, g.effectiveE) totalTok, .store (.numTokensPostPad, 0) totalTok]

/-- A round of the binary search of block `b` over the blocks' first experts. -/
def searchRound (mem : Mem) (b : Int) (bounds : Int × Int) : Int × Int :=
  let mid := (bounds.1 + bounds.2) / 2
  let off := mem (.cumsum, mid) / g.blockSize
  if off ≤ b then (mid + 1, bounds.2) else (bounds.1, mid)

def search (mem : Mem) (b : Int) : Nat → Int × Int
  | 0 => (0, g.effectiveE)
  | round + 1 => g.searchRound mem b (search mem b round)

/-- A program of `_fill_expert_ids`.  A lane behind the mask searches for nothing it stores. -/
def fillExpertIdsProgram (steps blockSize : Nat) (mem : Mem) (pid : Nat) : List (Op Addr) :=
  let b := fun l => pid * blockSize + l
  let totalBlk := mem (.numTokensPostPad, 0) / g.blockSize
  tlStore blockSize .expertIds (fun l => b l) (fun l => (g.search mem (b l) steps).1 - 1)
    fun l => decide ((b l : Int) < totalBlk)

def fillExpertIds (grid steps blockSize : Nat) (mem : Mem) : List (Op Addr) :=
  (List.range grid).flatMap (g.fillExpertIdsProgram steps blockSize mem)

/-- The counts as `torch.zeros` makes them. -/
def zeroCounts (mem : Mem) : Mem := fun p => if p.1 = .counts then 0 else mem p

def moeAlignLarge (σ : Schedule) (blockSize : Nat) (mem : Mem) : Option Mem := do
  let nBig := max (max g.maxNumTokensPadded g.numel) g.effectiveE
  let mem ← run g.inBounds
    (σ.ops .fillAndCount (g.fillAndCount (divCeil nBig blockSize) blockSize)) (zeroCounts mem)
  let mem ← run g.inBounds
    (σ.ops .cumsumExperts (g.cumsumExperts (nextPowerOf2 g.effectiveE) mem)) mem
  let mem ← run g.inBounds
    (σ.ops .fillExpertIds (g.fillExpertIds (divCeil (max g.maxNumMBlocks 1) blockSize)
      g.effectiveE.size blockSize mem)) mem
  g.scatter σ (List.range (divCeil (max g.numel 1) blockSize * blockSize)) mem

end Launch

def smallCap : Nat := 1024

/-- `moe_align_block_size`: the buffers that the kernels leave, `none` for a write out of bounds. -/
def moeAlignBlockSize (σ : Schedule) (topkIds : List Int) (blockSize numExperts : Nat) (mem : Mem) :
    Option Mem :=
  let g : Launch := ⟨topkIds, blockSize, numExperts + 1⟩
  if 0 < g.numel ∧ g.numel ≤ smallCap then g.moeAlignSmall σ (nextPowerOf2 g.numel) 1024 mem
  else g.moeAlignLarge σ 256 mem

end MoeAlign

end FreeToken
