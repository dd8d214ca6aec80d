import FreeToken.Lib.Lanes
import FreeToken.Moe.OffloadCache

/-!
# The hybrid kernel

`_ensure_experts_hybrid_kernel` as a program over its vectors.  The experts and the slots are lanes of
one block each; a load behind the mask gives the value the kernel names.  Arithmetic on the counts is of
32 bits, that on stamps and scores of 64; addresses, and the entries of the maps, fit their tensors.
-/

set_option autoImplicit false

namespace FreeToken

open Function

namespace OffloadMoeCache

variable {Bank Row : Type}

namespace HybridKernel

def wrap32 (x : Int) : Int := x.bmod (2 ^ 32)

def wrap64 (x : Int) : Int := x.bmod (2 ^ 64)

/-- The value that no stamp reaches. -/
def stampMax : Int := 9223372036854775807

/-- The score of a lane that is no candidate. -/
def noScore : Int := -1152921504606846976

/-- `triton.next_power_of_2` -/
def nextPowerOf2 (n : Nat) : Nat :=
  [1, 2, 4, 8, 16, 32].foldl (fun n k => n ||| n >>> k) (n - 1) + 1

/-- An entry of a map as its tensor has it. -/
def entry : Option Nat → Int
  | none => -1
  | some k => k

/-! ## Phase 1 -/

def isActive (expertIds : List Nat) (e : Nat) : Bool :=
  expertIds.foldl (fun active i => active || decide (e = i)) false

def slotLane (c : OffloadMoeCache Bank Row) (layer e : Nat) : Int :=
  if e < c.config.numExperts then entry (c.slotForId (c.flatId layer e)) else -1

def isMissing (c : OffloadMoeCache Bank Row) (layer : Nat) (expertIds : List Nat) (e : Nat) : Bool :=
  isActive expertIds e && decide (slotLane c layer e = -1) && decide (e < c.config.numExperts)

def isHit (c : OffloadMoeCache Bank Row) (layer : Nat) (expertIds : List Nat) (e : Nat) : Bool :=
  isActive expertIds e && decide (0 ≤ slotLane c layer e)

/-- The sum over the lanes, in 32 bits. -/
def numMissing (c : OffloadMoeCache Bank Row) (layer : Nat) (expertIds : List Nat) : Int :=
  wrap32 (Lanes.sum (nextPowerOf2 c.config.numExperts) fun e =>
    if isMissing c layer expertIds e then 1 else 0)

/-- The cap on the fetches. -/
def cap (numMissing maxFetch fracQ16 : Int) : Int :=
  if 0 < fracQ16 then
    let lo := wrap32 (numMissing * fracQ16) / 65536
    let costLo := max (wrap32 (lo * wrap32 (65536 - fracQ16)))
      (wrap32 (wrap32 (numMissing - lo) * fracQ16))
    let costHi := max (wrap32 (wrap32 (lo + 1) * wrap32 (65536 - fracQ16)))
      (wrap32 (wrap32 (wrap32 (numMissing - lo) - 1) * fracQ16))
    if costLo ≤ costHi then lo else wrap32 (lo + 1)
  else maxFetch

/-- The recency first, then the lower id. -/
def score (c : OffloadMoeCache Bank Row) (layer : Nat) (expertIds : List Nat) (e : Nat) : Int :=
  if isMissing c layer expertIds e then
    wrap64 (wrap64 (c.expertRecency (c.flatId layer e) * c.config.numExperts) +
      ((c.config.numExperts : Int) - 1 - e))
  else noScore

def missingRank (c : OffloadMoeCache Bank Row) (layer : Nat) (expertIds : List Nat) (e : Nat) : Int :=
  (Lanes.cumsum (isMissing c layer expertIds) e : Int) - 1

/-! ## Phase 2 -/

/-- What the fetch loop carries: the tensors, the stamps of the slots and the scores of the experts. -/
structure LoopState (Bank Row : Type) where
  cache : OffloadMoeCache Bank Row
  u : Nat → Int
  score : Nat → Int

def ownerActive (c : OffloadMoeCache Bank Row) (layer : Nat) (expertIds : List Nat) (s : Nat) : Bool :=
  expertIds.foldl (fun active i => active || decide (entry (c.idOfSlot s) = c.flatId layer i)) false

/-- The stamps; the slots of active experts and the lanes behind the cache are no victims. -/
def stamps (c : OffloadMoeCache Bank Row) (layer : Nat) (expertIds : List Nat) (s : Nat) : Int :=
  if s < c.cacheSize ∧ ¬ ownerActive c layer expertIds s then c.usage s else stampMax

def idLane (c : OffloadMoeCache Bank Row) (s : Nat) : Int :=
  if s < c.cacheSize then entry (c.idOfSlot s) else -1

/-- Turn `i`; `oid` and `missing` are the vectors loaded before the loop. -/
def fetchTurn (layer : Nat) (oid : Nat → Int) (missing : Nat → Bool) (rank : Nat → Int) (i : Nat)
    (st : LoopState Bank Row) : LoopState Bank Row :=
  let c := st.cache
  let blockE := nextPowerOf2 c.config.numExperts
  let blockC := nextPowerOf2 c.cacheSize
  let victim := Lanes.argmin blockC st.u
  let oldId := Lanes.sum blockC fun s => if s = victim then oid s else 0
  let slotForId := if 0 ≤ oldId then update c.slotForId oldId.toNat none else c.slotForId
  let e :=
    if c.config.hybridFetchByRecency then Lanes.argmax blockE st.score
    else (Lanes.sum blockE fun e => if rank e = i ∧ missing e then (e : Int) else 0).toNat
  { cache := { c with
      slotForId := update slotForId (c.flatId layer e) (some victim)
      idOfSlot := update c.idOfSlot victim (some (c.flatId layer e))
      usage := update c.usage victim c.step
      evictSlots := update c.evictSlots i victim
      srcIndices := update c.srcIndices i e }
    u := fun s => if s = victim then stampMax else st.u s
    score := if c.config.hybridFetchByRecency then fun x => if x = e then noScore else st.score x
      else st.score }

/-- So many turns from turn `i` on. -/
def fetchTurns (layer : Nat) (oid : Nat → Int) (missing : Nat → Bool) (rank : Nat → Int) :
    Nat → Nat → LoopState Bank Row → LoopState Bank Row
  | _, 0, st => st
  | i, k + 1, st => fetchTurns layer oid missing rank (i + 1) k (fetchTurn layer oid missing rank i st)

/-! ## The kernel -/

/-- The stamps of the hits, the counts and the mask of the active experts. -/
def stage (c : OffloadMoeCache Bank Row) (layer : Nat) (expertIds : List Nat) (numFetch : Int) :
    OffloadMoeCache Bank Row :=
  let lanes := List.range (nextPowerOf2 c.config.numExperts)
  { c with
    step := c.step + 1
    activeMask := fun e => if e < c.config.numExperts then isActive expertIds e else c.activeMask e
    usage := Lanes.scatter c.usage
      ((lanes.filter (isHit c layer expertIds)).map fun e => (slotLane c layer e).toNat) (c.step + 1)
    numMissingFull := (numMissing c layer expertIds).toNat
    numIndices := numFetch }

/-- The bump of the recencies. -/
def bump (c : OffloadMoeCache Bank Row) (layer : Nat) (expertIds : List Nat) :
    OffloadMoeCache Bank Row :=
  if c.config.hybridFetchByRecency then
    let lanes := List.range (nextPowerOf2 c.config.numExperts)
    { c with
      expertRecency := Lanes.scatter c.expertRecency
        ((lanes.filter fun e => isActive expertIds e && decide (e < c.config.numExperts)).map
          (c.flatId layer)) c.step }
  else c

end HybridKernel

open HybridKernel in
/-- `_ensure_experts_hybrid_gpu`, with the ids rewritten to slots. -/
def ensureExpertsHybridGpu (c : OffloadMoeCache Bank Row) (layer : Nat) (expertIds : List Nat)
    (maxFetch fetchFraction : Int) : OffloadMoeCache Bank Row × List (Option Nat) :=
  let c := { c with pendingSrcLayer := some layer }
  let missing := isMissing c layer expertIds
  let rank := missingRank c layer expertIds
  let numFetch := min (numMissing c layer expertIds)
    (cap (numMissing c layer expertIds) maxFetch (clampFraction fetchFraction))
  let staged := stage c layer expertIds numFetch
  let fetched :=
    if 0 < numFetch then
      (fetchTurns layer (idLane staged) missing rank 0 numFetch.toNat
        { cache := staged
          u := stamps staged layer expertIds
          score := score c layer expertIds }).cache
    else staged
  (bump fetched layer expertIds, expertIds.map fun e => fetched.slotForId (c.flatId layer e))

end OffloadMoeCache

end FreeToken
