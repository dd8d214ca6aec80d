import FreeToken.Lib.Copies
import FreeToken.Lib.Runs
import FreeToken.Moe.HybridKernel

/-!
# The split prefetch, byte by byte

`_prefetch_split` with its compaction kernel, its gather and its batch of copies.  A row is a list of
bytes; an address counts from the base of the bank's tensor.  The gather runs on the compute stream, the
batch on the copy stream behind the invalidation of the buffer, and nothing orders the two: a lane of
the kernel reads the live map in any state of the chunk, and the copies go byte by byte in any order.
-/

set_option autoImplicit false

namespace FreeToken

open Copies

namespace OffloadMoeCache

variable {Bank : Type}

namespace PrefillSplit

open HybridKernel (entry nextPowerOf2)

/-- `_SMALL_BANK_FEAT_BYTES` -/
def smallBankFeatBytes : Nat := 256 * 1024

/-- A byte of a bank: in its slots, or in the host source of a layer. -/
inductive Place (Bank : Type)
  | slots (b : Bank) (addr : Nat)
  | host (b : Bank) (layer addr : Nat)
  deriving DecidableEq

/-- The bytes at their places; the rows of bank `b` have `feat b` bytes. -/
def memory (c : OffloadMoeCache Bank (List UInt8)) (feat : Bank → Nat) : Place Bank → UInt8
  | .slots b addr => (c.bankCaches b (addr / feat b)).getD (addr % feat b) 0
  | .host b layer addr => (c.config.bankSources b layer (addr / feat b)).getD (addr % feat b) 0

def withMemory (c : OffloadMoeCache Bank (List UInt8)) (feat : Bank → Nat) (mem : Place Bank → UInt8) :
    OffloadMoeCache Bank (List UInt8) :=
  { c with
    bankCaches := fun b s => (List.range (feat b)).map fun k => mem (.slots b (s * feat b + k)) }

/-- What `_build_copy_plan` checks, and the sizes of the tensors. -/
structure CopyPlan (banks : List Bank) (feat : Bank → Nat) (c : OffloadMoeCache Bank (List UInt8)) :
    Prop where
  banks_all : ∀ b, b ∈ banks
  aligned : ∀ b, feat b % 16 = 0
  slots_length : ∀ b s, (c.bankCaches b s).length = feat b
  sources_length : ∀ b layer e, (c.config.bankSources b layer e).length = feat b
  small : ∀ b, c.config.smallBank b = decide (feat b < smallBankFeatBytes)

/-! ## The hits -/

/-- `_prefill_hit_dst`, `_prefill_hit_src` and `_prefill_hit_num` -/
structure HitIndices where
  dst : Nat → Nat
  src : Nat → Nat
  num : Nat

def slotLane (numExperts : Nat) (seen : Nat → Option Nat) (e : Nat) : Int :=
  if e < numExperts then entry (seen e) else -1

def hitLane (numExperts : Nat) (seen : Nat → Option Nat) (e : Nat) : Bool :=
  decide (e < numExperts) && decide (((2 * numExperts : Nat) : Int) ≤ slotLane numExperts seen e)

/-- `_prefill_hit_compact_kernel`, on the lanes it has read and over the indices of the last call. -/
def prefillHitCompact (numExperts : Nat) (seen : Nat → Option Nat) (bufferId : Nat)
    (old : HitIndices) : HitIndices :=
  let block := nextPowerOf2 numExperts
  let hit := hitLane numExperts seen
  let pos (e : Nat) := Lanes.cumsum hit e - 1
  { dst := Lanes.store old.dst block hit pos fun e => bufferId * numExperts + e
    src := Lanes.store old.src block hit pos fun e => (slotLane numExperts seen e).toNat
    num := (Lanes.sum block fun e => if hit e then 1 else 0).toNat }

/-- The banks the gather serves. -/
def gatherBanks (banks : List Bank) (feat : Bank → Nat) : List Bank :=
  banks.filter fun b => smallBankFeatBytes ≤ feat b

/-- `fast_index_copy_multi` on one bank: units of 16 bytes. -/
def gatherCopies (feat : Bank → Nat) (ix : HitIndices) (b : Bank) : List (Copy (Place Bank)) :=
  let units := feat b / 16
  (List.range (ix.num * units)).flatMap fun u =>
    let row := u / units
    let col := (u - row * units) * 16
    (List.range 16).map fun j =>
      { dst := .slots b (ix.dst row * feat b + col + j)
        src := .slots b (ix.src row * feat b + col + j) }

/-! ## The misses -/

/-- The experts that the snapshot does not have behind the double buffer. -/
def missIds (c : OffloadMoeCache Bank (List UInt8)) (layer : Nat) : List Nat :=
  (List.range c.config.numExperts).filter fun e =>
    !isHit c (c.prefillSlotSnapshot (c.flatId layer e))

def missRuns (c : OffloadMoeCache Bank (List UInt8)) (layer : Nat) : List (Nat × Nat) :=
  if (missIds c layer).length = 0 then [] else Runs.runs (missIds c layer)

structure BatchEntry (Bank : Type) where
  bank : Bank
  dst : Nat
  src : Nat
  nbytes : Nat

/-- The entries of `cudaMemcpyBatchAsync`: a small bank goes whole. -/
def batch (c : OffloadMoeCache Bank (List UInt8)) (banks : List Bank) (feat : Bank → Nat)
    (layer bufferId : Nat) : List (BatchEntry Bank) :=
  let numExperts := c.config.numExperts
  banks.flatMap fun b =>
    if feat b < smallBankFeatBytes then
      [{ bank := b
         dst := bufferId * numExperts * feat b
         src := 0
         nbytes := numExperts * feat b }]
    else
      (missRuns c layer).map fun r =>
        { bank := b
          dst := (bufferId * numExperts + r.1) * feat b
          src := r.1 * feat b
          nbytes := r.2 * feat b }

def BatchEntry.copies (layer : Nat) (t : BatchEntry Bank) : List (Copy (Place Bank)) :=
  (List.range t.nbytes).map fun k =>
    { dst := .slots t.bank (t.dst + k)
      src := .host t.bank layer (t.src + k) }

def splitCopies (c : OffloadMoeCache Bank (List UInt8)) (banks : List Bank) (feat : Bank → Nat)
    (layer bufferId : Nat) (ix : HitIndices) : List (Copy (Place Bank)) :=
  (gatherBanks banks feat).flatMap (gatherCopies feat ix) ++
    (batch c banks feat layer bufferId).flatMap (BatchEntry.copies layer)

/-! ## A chunk -/

/-- One call in state `c`, with the states of the chunk before it: what the lanes read of the live map,
and the order of the copies. -/
structure Schedule (banks : List Bank) (feat : Bank → Nat)
    (past : List (OffloadMoeCache Bank (List UInt8))) (c : OffloadMoeCache Bank (List UInt8))
    (layer bufferId : Nat) where
  seen : Nat → Option Nat
  live : ∀ e < c.config.numExperts, ∃ p ∈ invalidatePrefillBuffer c bufferId :: c :: past,
    seen e = p.slotForId (c.flatId layer e)
  old : HitIndices
  copies : List (Copy (Place Bank))
  order : copies.Perm (splitCopies c banks feat layer bufferId
    (prefillHitCompact c.config.numExperts seen bufferId old))

namespace Schedule

variable [DecidableEq Bank] {banks : List Bank} {feat : Bank → Nat}
  {past : List (OffloadMoeCache Bank (List UInt8))} {c : OffloadMoeCache Bank (List UInt8)}
  {layer bufferId : Nat}

def indices (sch : Schedule banks feat past c layer bufferId) : HitIndices :=
  prefillHitCompact c.config.numExperts sch.seen bufferId sch.old

/-- The cache after so many of the copies. -/
def after (sch : Schedule banks feat past c layer bufferId) (n : Nat) :
    OffloadMoeCache Bank (List UInt8) :=
  withMemory (invalidatePrefillBuffer c bufferId) feat (run (memory c feat) (sch.copies.take n))

def result (sch : Schedule banks feat past c layer bufferId) : OffloadMoeCache Bank (List UInt8) :=
  sch.after sch.copies.length

end Schedule

/-- The layers before `layer` have been prefetched since `begin_prefill`: the state, and those before
it. -/
inductive Chunk [DecidableEq Bank] (banks : List Bank) (feat : Bank → Nat)
    (c₀ : OffloadMoeCache Bank (List UInt8)) :
    Nat → OffloadMoeCache Bank (List UInt8) → List (OffloadMoeCache Bank (List UInt8)) → Prop
  | begin : Chunk banks feat c₀ 0 (beginPrefill c₀) []
  | prefetch {layer : Nat} {c : OffloadMoeCache Bank (List UInt8)}
      {past : List (OffloadMoeCache Bank (List UInt8))} :
      Chunk banks feat c₀ layer c past → layer < c.config.numLayers →
      (sch : Schedule banks feat past c layer (layer % 2)) →
      Chunk banks feat c₀ (layer + 1) sch.result (c :: past)

end PrefillSplit

end OffloadMoeCache

end FreeToken
