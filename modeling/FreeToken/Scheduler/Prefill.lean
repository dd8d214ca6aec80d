import FreeToken.Scheduler.CacheManager

/-!
# Tables and prefill admission

`TableManager` hands out request rows; `PrefillAdder` admits one pending request at a time, or
continues a chunked one, against the budgets of a scheduling pass.
-/

set_option autoImplicit false

namespace FreeToken

open BlockTrie Blocks

structure TableManager where
  maxRunningReqs : Nat
  freeSlots : List Nat
  deriving DecidableEq, Repr

namespace TableManager

def init (maxRunningReqs : Nat) : TableManager where
  maxRunningReqs := maxRunningReqs
  freeSlots := List.range maxRunningReqs

def availableSize (tm : TableManager) : Nat := tm.freeSlots.length

/-- `pop` from the end; only called with a row available. -/
def allocate (tm : TableManager) : TableManager × Nat :=
  ({ tm with freeSlots := tm.freeSlots.dropLast }, tm.freeSlots.getLastD 0)

def free (tm : TableManager) (slot : Nat) : TableManager :=
  { tm with freeSlots := tm.freeSlots ++ [slot] }

end TableManager

structure PrefillAdder where
  tokenBudget : Nat
  reservedSize : Int
  reservedSwa : Nat
  cm : CacheManager
  tm : TableManager

/-- What an admission hands to `_add_one_req`. -/
structure AdmitResource where
  handle : CacheHandle
  tableIdx : Nat
  linearSlotIdx : Option Nat
  pingPong : Option (Nat × Nat)
  restoreSrc : Option Nat

namespace PrefillAdder

/-- The seat check of the sliding-window pool, in whole pages. -/
def needSwa (cm : CacheManager) (extendLen : Nat) : Nat :=
  divCeil (min (max extendLen 1) cm.slidingWindowSize + 1) cm.pageSize * cm.pageSize

/-- The state slots of an admission: one live and two ping-pong. -/
def allocStateSlots (cm : CacheManager) :
    Py (CacheManager × Option Nat × Option (Nat × Nat)) := do
  if cm.isHybrid then
    let (pool, live) ← cm.linearStatePool.alloc 1
    let (pool, pp) ← pool.alloc 2
    return ({ cm with linearStatePool := pool }, some (live.headD 0),
      some (pp.headD 0, (pp.drop 1).headD 0))
  else return (cm, none, none)

/-- Seat an admitted request: take a row, copy the matched indices to its tail and take the state
slots. -/
def seat (a : PrefillAdder) (handle : CacheHandle) (restoreSrc : Option Nat) :
    Py (PrefillAdder × AdmitResource) := do
  let (tm, tableIdx) := a.tm.allocate
  let matched := a.cm.getMatchedIndices handle
  let cm := if 0 < handle.cachedLen then
      { a.cm with
        pageTable := a.cm.pageTable.copyRow tableIdx (handle.cachedLen - matched.length) matched }
    else a.cm
  let (cm, live, pp) ← allocStateSlots cm
  return ({ a with cm := cm, tm := tm },
    { handle := handle, tableIdx := tableIdx, linearSlotIdx := live, pingPong := pp,
      restoreSrc := restoreSrc })

/-- Refuse an admission whose handle is locked. -/
def refuse (a : PrefillAdder) (handle : CacheHandle) :
    Py (PrefillAdder × Option AdmitResource) := do
  return ({ a with cm := ← a.cm.unlock handle }, none)

/-- Make room for an admission's state slots. -/
def ensureStateSlots (cm : CacheManager) : CacheManager :=
  if cm.isHybrid && decide (cm.linearStatePool.numFreeSlots < 3) then cm.ensureMambaSlots 3 else cm

/-- The gates of the second and third currency, for a locked handle. -/
def secondGates (a : PrefillAdder) (handle : CacheHandle) (restoreSrc : Option Nat)
    (extendLen : Nat) : Py (PrefillAdder × Option AdmitResource) :=
  let a := { a with cm := ensureStateSlots a.cm }
  if a.cm.isHybrid && decide (a.cm.linearStatePool.numFreeSlots < 3) then a.refuse handle
  else if a.cm.swaPaged
      && decide (a.cm.swaAvailableSize - a.reservedSwa < (needSwa a.cm extendLen : Int)) then
    a.refuse handle
  else do
    let (a, resource) ← a.seat handle restoreSrc
    return (a, some resource)

/-- `_try_allocate_one`. -/
def tryAllocateOne (a : PrefillAdder) (req : PendingReq) :
    Py (PrefillAdder × Option AdmitResource) :=
  if a.tm.availableSize = 0 then .ok (a, none)
  else do
    let (cm, handle, mambaValue) ← a.cm.matchReq req
    let a := { a with cm := cm }
    let extendLen := req.inputLen - handle.cachedLen
    let estimatedLen : Int := extendLen + req.outputLen
    if a.cm.availableSize < estimatedLen + a.reservedSize then return (a, none)
    else
      let (cm, handle) := a.cm.lock handle
      let a := { a with cm := cm }
      if a.cm.availableSize < estimatedLen + a.reservedSize then a.refuse handle
      else a.secondGates handle mambaValue extendLen

/-- The size of the next chunk under the sliding-window budget; `none` when no whole page fits. -/
def swaChunkSize (a : PrefillAdder) (handle : CacheHandle)
    (cachedLen swaEvictedSeqlen remainLen chunkSize : Nat) : Option Nat :=
  let cm := a.cm
  let ps := cm.pageSize
  let newEvicted := alignDownInt ((cachedLen : Int) - cm.slidingWindowSize - ps) ps
  let selfReclaim := max 0 (newEvicted - max swaEvictedSeqlen handle.cachedLen)
  let swaBudget := cm.swaAvailableSize + selfReclaim - a.reservedSwa
  let maxEnd := (divCeil cachedLen ps + (max swaBudget 0).toNat / ps) * ps
  let chunkSize := min chunkSize (maxEnd - cachedLen)
  if 0 < chunkSize ∧ chunkSize < remainLen then
    let aligned := alignDown (cachedLen + chunkSize) ps - cachedLen
    if aligned = 0 then none else some aligned
  else some chunkSize

/-- The request object of a chunk of `chunkSize` tokens, or of the rest of the prompt. -/
def buildReq (p : PendingReq) (res : AdmitResource)
    (cachedLen nextTrackIdx swaEvictedSeqlen chunkSize : Nat) : Req :=
  let ids := p.inputIds.take (cachedLen + chunkSize)
  { uid := p.uid, inputIds := ids, deviceIds := ids, tableIdx := some res.tableIdx,
    cachedLen := cachedLen, deviceLen := ids.length, maxDeviceLen := ids.length + p.outputLen,
    outputLen := p.outputLen, samplingParams := p.samplingParams, hasMm := p.hasMm,
    chunked := decide (chunkSize < p.inputLen - cachedLen), aborted := false,
    cacheHandle := res.handle, linearSlotIdx := res.linearSlotIdx, mambaPingPong := res.pingPong,
    mambaNextTrackIdx := nextTrackIdx, mambaLastTrackSeqlen := none,
    mambaRestoreSrc := res.restoreSrc, swaEvictedSeqlen := swaEvictedSeqlen, decodeBatchIdx := 0,
    toolcallAnchorLen := none }

/-- `_add_one_req`: `none` when no aligned chunk fits this pass. -/
def addOneReq (a : PrefillAdder) (p : PendingReq) (res : AdmitResource)
    (cachedLen nextTrackIdx swaEvictedSeqlen : Nat) : Py (PrefillAdder × Option Req) := do
  let remainLen := p.inputLen - cachedLen
  let chunkSize := min a.tokenBudget remainLen
  let sized := if a.cm.swaPaged then
      a.swaChunkSize res.handle cachedLen swaEvictedSeqlen remainLen chunkSize
    else some chunkSize
  match sized with
  | none => return (a, none)
  | some chunkSize =>
      let ps := a.cm.pageSize
      let charge := if a.cm.swaPaged then
          (divCeil (cachedLen + chunkSize) ps - divCeil cachedLen ps) * ps
        else 0
      let a := { a with
        reservedSwa := a.reservedSwa + charge
        tokenBudget := a.tokenBudget - chunkSize
        reservedSize := a.reservedSize + (remainLen + p.outputLen : Nat) }
      let req := buildReq p res cachedLen nextTrackIdx swaEvictedSeqlen chunkSize
      if req.chunked && p.hasMm then
        throw (.notImplemented ("Multimodal prompts must fit in a single prefill chunk; " ++
          "increase --max-extend-tokens or shrink the prompt."))
      else
        pyAssert (decide (req.cachedLen < req.deviceLen ∧ req.deviceLen ≤ req.maxDeviceLen))
          "0 <= self.cached_len < self.device_len <= self.max_device_len"
        return (a, some req)

/-- Undo an admission for which no aligned chunk fit. -/
def undo (a : PrefillAdder) (res : AdmitResource) : Py PrefillAdder := do
  let cm ← a.cm.unlock res.handle
  let tm := a.tm.free res.tableIdx
  match res.linearSlotIdx, res.pingPong with
  | some live, some (x, y) =>
      let pool := cm.linearStatePool.free [live, x, y]
      return { a with cm := { cm with linearStatePool := pool }, tm := tm }
  | _, _ => return { a with cm := cm, tm := tm }

/-- `try_add_one`; `chunkedReq` is the request object `pending_req.chunked_req` points to. -/
def tryAddOne (a : PrefillAdder) (p : PendingReq) (chunkedReq : Option Req) :
    Py (PrefillAdder × Option Req) :=
  if a.tokenBudget = 0 then .ok (a, none)
  else
    match chunkedReq with
    | some c =>
        a.addOneReq p
          { handle := c.cacheHandle, tableIdx := c.tableIdx.getD 0,
            linearSlotIdx := c.linearSlotIdx, pingPong := c.mambaPingPong, restoreSrc := none }
          c.cachedLen c.mambaNextTrackIdx c.swaEvictedSeqlen
    | none => do
        let (a, res?) ← a.tryAllocateOne p
        match res? with
        | none => return (a, none)
        | some res =>
            let (a, req?) ← a.addOneReq p res res.handle.cachedLen 0 0
            match req? with
            | some req => return (a, some req)
            | none => return (← a.undo res, none)

end PrefillAdder

end FreeToken
