import FreeToken.Core
import FreeToken.Lib.SlotCache
import Mathlib.Data.List.Sort

/-!
# The expert slot cache

`moe/offload_cache.py` and `moe/offload_kernels.py`.  Host banks hold every layer's experts; a unified
pool of GPU slots holds some of them.  The slot map is updated when the experts of a layer are
ensured, the rows are copied in a separate step.  An expert is named by its flat id,
`layer * num_experts + expert`; `none` is the source's `-1`.  The double buffer of the prefill
overlap borrows the first `2 * num_experts` slots.
-/

set_option autoImplicit false

namespace FreeToken

open Function

inductive QuantFormat
  | bf16
  | nvfp4
  | nvfp4Marlin
  | nvfp4B12x
  | mxfp4Triton
  | dsFp4
  deriving DecidableEq, Repr

def marlinMaxCacheSize : Nat := 992

/-- What stays fixed for a cache's lifetime: the geometry of the model, the host rows, and what the
device and the build offer. -/
structure OffloadConfig (Bank Row : Type) where
  numLayers : Nat
  numExperts : Nat
  quantFormat : QuantFormat
  prefillHitD2d : Bool
  /-- `_HYBRID_FETCH_BY_RECENCY` -/
  hybridFetchByRecency : Bool
  /-- every condition of `_hit_d2d_usable` but the cache size -/
  hitD2dAvailable : Bool
  /-- `should_use_safe_offload_copy`, per layer -/
  safeOffloadCopy : Nat → Bool
  /-- the rows of the bank are below `_SMALL_BANK_FEAT_BYTES` -/
  smallBank : Bank → Bool
  /-- bank, layer, expert -/
  bankSources : Bank → Nat → Nat → Row

structure OffloadMoeCache (Bank Row : Type) where
  config : OffloadConfig Bank Row
  cacheSize : Nat
  prefillOverlap : Bool
  bankCaches : Bank → Nat → Row
  slotForId : Nat → Option Nat
  idOfSlot : Nat → Option Nat
  usage : Nat → Nat
  step : Nat
  activeMask : Nat → Bool
  evictSlots : Nat → Nat
  srcIndices : Nat → Nat
  numIndices : Int
  numMissingFull : Nat
  expertRecency : Nat → Int
  pendingSrcLayer : Option Nat
  prefillBufferLayer : Nat → Option Int
  prefillBufferReleased : Nat → Bool
  prefillHitD2dActive : Bool
  prefillSlotSnapshot : Nat → Option Nat

namespace OffloadMoeCache

variable {Bank Row : Type}

def flatId (c : OffloadMoeCache Bank Row) (layer expert : Nat) : Nat :=
  layer * c.config.numExperts + expert

/-! ## Construction and resizing -/

def validateRebuild (config : OffloadConfig Bank Row) (cacheSize : Nat) : Py Unit :=
  if cacheSize < config.numExperts then
    .error (.valueError s!"cache_size {cacheSize} < num_experts {config.numExperts}")
  else if config.quantFormat = .nvfp4Marlin ∧ marlinMaxCacheSize < cacheSize then
    .error (.valueError (s!"moe_cache_size={cacheSize} exceeds the marlin backend's slot limit of "
      ++ s!"{marlinMaxCacheSize} (vLLM moe_align_block_size caps padded experts at "
      ++ "1024); reduce moe_cache_size or force --nvfp4-backend triton"))
  else .ok ()

/-- What newly allocated tensors hold. -/
structure FreshTensors (Bank Row : Type) where
  bankCaches : Bank → Nat → Row
  evictSlots : Nat → Nat
  srcIndices : Nat → Nat
  prefillSlotSnapshot : Nat → Option Nat

/-- The cache after `set_bank_sources`. -/
def create (config : OffloadConfig Bank Row) (cacheSize : Nat) (prefillOverlap : Bool)
    (fresh : FreshTensors Bank Row) : Py (OffloadMoeCache Bank Row) := do
  validateRebuild config cacheSize
  pyAssert (!prefillOverlap || decide (2 * config.numExperts ≤ cacheSize))
    ("Prefill overlap borrows two full expert-layer buffers from the unified MoE "
      ++ "cache, so cache_size must be at least 2 * num_experts "
      ++ "(raise moe_cache_size or disable moe_prefill_overlap)")
  return {
    config, cacheSize, prefillOverlap
    bankCaches := fresh.bankCaches
    slotForId := fun _ => none
    idOfSlot := fun _ => none
    usage := fun _ => 0
    step := 0
    activeMask := fun _ => false
    evictSlots := fresh.evictSlots
    srcIndices := fresh.srcIndices
    numIndices := 0
    numMissingFull := 0
    expertRecency := fun _ => -1
    pendingSrcLayer := none
    prefillBufferLayer := fun _ => none
    prefillBufferReleased := fun _ => true
    prefillHitD2dActive := false
    prefillSlotSnapshot := fresh.prefillSlotSnapshot }

/-- A smaller cache switches the overlap off, and nothing switches it on again. -/
def rebuild (c : OffloadMoeCache Bank Row) (cacheSize : Nat) (fresh : FreshTensors Bank Row) :
    Py (OffloadMoeCache Bank Row) := do
  validateRebuild c.config cacheSize
  let prefillOverlap := c.prefillOverlap && decide (2 * c.config.numExperts ≤ cacheSize)
  return { c with
    cacheSize, prefillOverlap
    bankCaches := fresh.bankCaches
    slotForId := fun _ => none
    idOfSlot := fun _ => none
    usage := fun _ => 0
    step := 0
    activeMask := fun _ => false
    numIndices := 0
    numMissingFull := 0
    expertRecency := fun _ => -1
    prefillBufferLayer := fun _ => none
    prefillBufferReleased := fun _ => true
    prefillSlotSnapshot :=
      if prefillOverlap && c.config.prefillHitD2d then fresh.prefillSlotSnapshot
      else c.prefillSlotSnapshot }

/-- `reset_cache` and the wipe of the recencies. -/
def reset (c : OffloadMoeCache Bank Row) : OffloadMoeCache Bank Row :=
  { c with
    slotForId := fun _ => none
    idOfSlot := fun _ => none
    usage := fun _ => 0
    step := 0
    activeMask := fun _ => false
    numIndices := 0
    expertRecency := fun _ => -1 }

/-! ## The hybrid ensure -/

/-- `frac_q16`, from the rounded fraction. -/
def clampFraction (rounded : Int) : Int := min 65536 (max 0 rounded)

/-- The cap on the fetches of one call: fixed, or the integer next to the fraction of the misses that
balances the two transfers. -/
def fetchCap (misses : Nat) (maxFetch fracQ16 : Int) : Int :=
  if 0 < fracQ16 then
    let lo := misses * fracQ16 / 65536
    let cost (f : Int) := max (f * (65536 - fracQ16)) ((misses - f) * fracQ16)
    if cost lo ≤ cost (lo + 1) then lo else lo + 1
  else maxFetch

/-- The misses in the order they are fetched: the most recently active first, ties by id. -/
def fetchOrder (c : OffloadMoeCache Bank Row) (layer : Nat) (missing : List Nat) : List Nat :=
  if c.config.hybridFetchByRecency then
    let rec_ (e : Nat) := c.expertRecency (c.flatId layer e)
    missing.insertionSort fun a b => rec_ b < rec_ a ∨ rec_ a = rec_ b ∧ a ≤ b
  else missing.insertionSort (· ≤ ·)

/-- Stamp the slots of the hits. -/
def stampHits (c : OffloadMoeCache Bank Row) (layer : Nat) (seen : List Nat) :
    OffloadMoeCache Bank Row :=
  seen.foldl (fun c expert =>
      match c.slotForId (c.flatId layer expert) with
      | some slot => { c with usage := update c.usage slot c.step }
      | none => c)
    c

/-- One turn of the fetch loop: the expert takes the slot used longest ago. -/
def fetchExpert (c : OffloadMoeCache Bank Row) (layer idx expert : Nat) :
    Py (OffloadMoeCache Bank Row) :=
  match (List.range c.cacheSize).argmin c.usage with
  | none => .error (.valueError "min() arg is an empty sequence")
  | some victim =>
      let unmapped :=
        match c.idOfSlot victim with
        | some oldId => update c.slotForId oldId none
        | none => c.slotForId
      .ok { c with
        slotForId := update unmapped (c.flatId layer expert) (some victim)
        idOfSlot := update c.idOfSlot victim (some (c.flatId layer expert))
        usage := update c.usage victim c.step
        evictSlots := update c.evictSlots idx victim
        srcIndices := update c.srcIndices idx expert }

def fetchLoop (c : OffloadMoeCache Bank Row) (layer : Nat) :
    Nat → List Nat → Py (OffloadMoeCache Bank Row)
  | _, [] => .ok c
  | idx, expert :: rest => do
      let c ← fetchExpert c layer idx expert
      fetchLoop c layer (idx + 1) rest

/-- The recency of every expert of the call. -/
def bumpRecency (c : OffloadMoeCache Bank Row) (layer : Nat) (seen : List Nat) :
    OffloadMoeCache Bank Row :=
  if c.config.hybridFetchByRecency then
    { c with
      expertRecency := seen.foldl (fun r e => update r (c.flatId layer e) (c.step : Int))
        c.expertRecency }
  else c

/-- The distinct experts of a call that have no slot. -/
def missing (c : OffloadMoeCache Bank Row) (layer : Nat) (expertIds : List Nat) : List Nat :=
  expertIds.eraseDups.filter fun e => c.slotForId (c.flatId layer e) = none

/-- `_ensure_experts_hybrid_cpu`, with the ids rewritten to slots. -/
def ensureExpertsHybrid (c : OffloadMoeCache Bank Row) (layer : Nat) (expertIds : List Nat)
    (maxFetch fetchFraction : Int) : Py (OffloadMoeCache Bank Row × List (Option Nat)) := do
  let seen := expertIds.eraseDups
  let fracQ16 := clampFraction fetchFraction
  let c := { c with
    pendingSrcLayer := some layer
    activeMask := fun e => decide (e ∈ seen)
    step := c.step + 1 }
  let c := stampHits c layer seen
  let order := fetchOrder c layer (missing c layer expertIds)
  let numFetch := min (order.length : Int) (fetchCap order.length maxFetch fracQ16)
  let c := { c with numMissingFull := order.length, numIndices := numFetch }
  let c ← fetchLoop c layer 0 (order.take numFetch.toNat)
  let c := bumpRecency c layer seen
  return (c, expertIds.map fun e => c.slotForId (c.flatId layer e))

/-! ## Materializing a layer -/

/-- `_materialize_layer_kernel`: all of the layer's experts move to the slots of their number. -/
def materializeLayer (c : OffloadMoeCache Bank Row) (layer : Nat) : OffloadMoeCache Bank Row :=
  let numExperts := c.config.numExperts
  let base := layer * numExperts
  let sameLayer (s : Nat) : Bool :=
    decide (s < c.cacheSize) &&
      (c.idOfSlot s).any fun old => decide (base ≤ old) && decide (old < base + numExperts)
  -- the owners of the slots that are taken, unless their id is stored again below
  let unmapped (id : Nat) : Bool :=
    (List.range numExperts).any fun s => decide (c.idOfSlot s = some id) && !sameLayer s
  { c with
    pendingSrcLayer := some layer
    step := c.step + 1
    idOfSlot := fun s =>
      if s < numExperts then some (base + s) else if sameLayer s then none else c.idOfSlot s
    slotForId := fun id =>
      if base ≤ id ∧ id < base + numExperts then some (id - base)
      else if unmapped id then none
      else c.slotForId id
    usage := fun s =>
      if s < numExperts then c.step + 1 else if sameLayer s then 0 else c.usage s
    evictSlots := fun k => if k < numExperts then k else c.evictSlots k
    srcIndices := fun k => if k < numExperts then k else c.srcIndices k
    numIndices := numExperts }

/-! ## The staged copy -/

/-- The destination slots and the layer's rows staged last. -/
def stagedRows (c : OffloadMoeCache Bank Row) : List (Nat × Nat) :=
  (List.range c.numIndices.toNat).map fun k => (c.evictSlots k, c.srcIndices k)

def copyRows (c : OffloadMoeCache Bank Row) (layer : Nat) (plan : List (Nat × Nat)) :
    OffloadMoeCache Bank Row :=
  { c with
    bankCaches := fun b =>
      plan.foldl (fun rows p => update rows p.1 (c.config.bankSources b layer p.2))
        (c.bankCaches b) }

/-- `_safe_copy_plan`: the checks before the rows go through ordinary copies. -/
def safeCopyPlan (c : OffloadMoeCache Bank Row) : Py (List (Nat × Nat)) := do
  if c.numIndices < 0 ∨ (c.config.numExperts : Int) < c.numIndices then
    throw (.valueError
      s!"invalid safe-copy row count {c.numIndices}; expected 0..{c.config.numExperts}")
  let plan := stagedRows c
  for p in plan do
    if c.cacheSize ≤ p.1 then
      throw (.valueError
        s!"safe-copy destination slot {p.1} outside cache size {c.cacheSize}")
    if c.config.numExperts ≤ p.2 then
      throw (.valueError
        s!"safe-copy source expert {p.2} outside expert count {c.config.numExperts}")
  if ¬(plan.map Prod.fst).Nodup then
    throw (.valueError "safe-copy plan contains duplicate destination slots")
  return plan

def copyMissing (c : OffloadMoeCache Bank Row) : Py (OffloadMoeCache Bank Row) :=
  match c.pendingSrcLayer with
  | none => .error (.assertion "no staged misses (ensure_experts/materialize_layer first)")
  | some layer => do
      let plan ← if c.config.safeOffloadCopy layer then safeCopyPlan c else pure (stagedRows c)
      return copyRows c layer plan

/-! ## The prefill overlap -/

def invalidatePrefillBuffer (c : OffloadMoeCache Bank Row) (bufferId : Nat) :
    OffloadMoeCache Bank Row :=
  let slotStart := bufferId * c.config.numExperts
  let slotEnd := slotStart + c.config.numExperts
  { c with
    slotForId := fun id =>
      if (List.range' slotStart c.config.numExperts).any fun s => decide (c.idOfSlot s = some id)
      then none else c.slotForId id
    idOfSlot := fun s => if slotStart ≤ s ∧ s < slotEnd then none else c.idOfSlot s
    usage := fun s => if slotStart ≤ s ∧ s < slotEnd then 0 else c.usage s }

def hitD2dUsable (c : OffloadMoeCache Bank Row) : Bool :=
  c.config.hitD2dAvailable && decide (2 * c.config.numExperts < c.cacheSize)

def beginPrefill (c : OffloadMoeCache Bank Row) : OffloadMoeCache Bank Row :=
  if c.prefillOverlap then
    let active := c.config.prefillHitD2d && hitD2dUsable c
    { c with
      prefillBufferLayer := fun _ => none
      prefillBufferReleased := fun _ => true
      prefillHitD2dActive := active
      prefillSlotSnapshot := if active then c.slotForId else c.prefillSlotSnapshot }
  else c

/-- The copy of a whole layer into its buffer. -/
def copyLayer (c : OffloadMoeCache Bank Row) (layer bufferId : Nat) : OffloadMoeCache Bank Row :=
  let c := invalidatePrefillBuffer c bufferId
  let slotStart := bufferId * c.config.numExperts
  { c with
    bankCaches := fun b s =>
      if slotStart ≤ s ∧ s < slotStart + c.config.numExperts
      then c.config.bankSources b layer (s - slotStart) else c.bankCaches b s }

/-- A slot behind the double buffer. -/
def isHit (c : OffloadMoeCache Bank Row) (slot : Option Nat) : Bool :=
  slot.any fun s => decide (2 * c.config.numExperts ≤ s)

/-- `_prefetch_split`: the experts behind the double buffer are gathered from the cache, by the live
map; the misses of the snapshot, and the small banks whole, come from the host. -/
def prefetchSplit (c : OffloadMoeCache Bank Row) (layer bufferId : Nat) :
    OffloadMoeCache Bank Row :=
  let slotStart := bufferId * c.config.numExperts
  let live := c.slotForId
  let inBuffer (s : Nat) : Bool :=
    decide (slotStart ≤ s) && decide (s < slotStart + c.config.numExperts)
  let gathered (b : Bank) (s : Nat) : Row :=
    let src := live (c.flatId layer (s - slotStart))
    if inBuffer s && !c.config.smallBank b && isHit c src
    then c.bankCaches b (src.getD s) else c.bankCaches b s
  let c := invalidatePrefillBuffer c bufferId
  { c with
    bankCaches := fun b s =>
      let miss := !isHit c (c.prefillSlotSnapshot (c.flatId layer (s - slotStart)))
      if inBuffer s && (c.config.smallBank b || miss)
      then c.config.bankSources b layer (s - slotStart) else gathered b s }

def prefetchPrefillLayer (c : OffloadMoeCache Bank Row) (layer : Int) :
    Py (OffloadMoeCache Bank Row) :=
  if !c.prefillOverlap || decide ((c.config.numLayers : Int) ≤ layer) then .ok c
  else if layer < 0 then .error (.valueError s!"Invalid prefill layer id: {layer}")
  else
    let bufferId := layer.toNat % 2
    if c.prefillBufferLayer bufferId = some layer then .ok c
    else do
      pyAssert ((c.prefillBufferLayer bufferId).isNone || c.prefillBufferReleased bufferId)
        "Prefill overlap buffer is being reused before release"
      let c :=
        if c.prefillHitD2dActive then prefetchSplit c layer.toNat bufferId
        else copyLayer c layer.toNat bufferId
      return { c with
        prefillBufferLayer := update c.prefillBufferLayer bufferId (some layer)
        prefillBufferReleased := update c.prefillBufferReleased bufferId false }

def releasePrefillLayer (c : OffloadMoeCache Bank Row) (layer : Int) : OffloadMoeCache Bank Row :=
  let bufferId := (layer % 2).toNat
  if !c.prefillOverlap || decide (c.prefillBufferLayer bufferId ≠ some layer) then c
  else { c with prefillBufferReleased := update c.prefillBufferReleased bufferId true }

end OffloadMoeCache

end FreeToken
