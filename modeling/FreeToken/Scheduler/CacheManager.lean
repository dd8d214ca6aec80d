import FreeToken.KvCache.HybridRadixCache
import FreeToken.KvCache.SwaRadixCache
import FreeToken.KvCache.Pools

/-!
# The cache manager

`CacheManager` of `cache.py`: the free page list, the page table, one prefix cache and the second
currency of the model.  `freeSlots` holds page bases; `lazyFreeList` is the pending list of an open
`lazy_free_region`.
-/

set_option autoImplicit false

namespace FreeToken

open BlockTrie Blocks

/-- `_SWA_RETAIN_GAP`. -/
def swaRetainGap : Nat := 16

inductive CacheType
  | naive
  | radix
  | hybridRadix
  | swaRadix
  deriving DecidableEq, Repr

/-- The rows of the page table: request row, position, token slot. -/
abbrev PageTable := Nat → Nat → Nat

namespace PageTable

/-- `page_table[row, start:].copy_(values)`. -/
def copyRow (t : PageTable) (row start : Nat) (values : List Nat) : PageTable :=
  fun i j => if i = row ∧ start ≤ j then values.getD (j - start) (t i j) else t i j

end PageTable

/-- `clock` lists the readings of the host clock, `now` counts those taken so far. -/
structure CacheManager where
  cacheType : CacheType
  numPages : Nat
  pageSize : Nat
  freeSlots : List Nat
  lazyFreeList : Option (List Nat)
  pageTable : PageTable
  prefixCache : PrefixCache
  linearStatePool : LinearStatePool
  swaPool : SwaPool
  swaPaged : Bool
  slidingWindowSize : Nat
  swaEvictionInterval : Nat
  clock : Nat → Nat
  now : Nat

namespace CacheManager

def isSwa (cm : CacheManager) : Bool := cm.cacheType = .swaRadix

def isHybrid (cm : CacheManager) : Bool := cm.cacheType = .hybridRadix

/-- The page bases of the pool. -/
def pageBases (numPages pageSize : Nat) : List Nat := (List.range numPages).map (· * pageSize)

def tick (cm : CacheManager) : CacheManager × Nat :=
  ({ cm with now := cm.now + 1 }, cm.clock cm.now)

def evictableSize (cm : CacheManager) : Int :=
  match cm.cacheType with
  | .naive => 0
  | _ => cm.prefixCache.fullEvictable

def availableSize (cm : CacheManager) : Int :=
  cm.evictableSize + cm.freeSlots.length * cm.pageSize

def pageUsage (cm : CacheManager) : Int × Nat :=
  (cm.numPages - cm.freeSlots.length - cm.evictableSize / cm.pageSize, cm.numPages)

def mambaAvailableSize (cm : CacheManager) : Int :=
  cm.linearStatePool.numFreeSlots + cm.prefixCache.mambaEvictable

def swaAvailableSize (cm : CacheManager) : Int :=
  cm.swaPool.swaAvailableSize + if cm.isSwa then cm.prefixCache.swaEvictable else 0

/-! ## Returning pages and slots -/

/-- `_free`: inside a lazy region the page bases wait on the pending list. -/
def free (cm : CacheManager) (indices : List Nat) : CacheManager :=
  match cm.lazyFreeList with
  | some pending =>
      { cm with lazyFreeList := some (pending ++ stride cm.pageSize indices) }
  | none => { cm with freeSlots := cm.freeSlots ++ stride cm.pageSize indices }

def enterLazyFreeRegion (cm : CacheManager) : CacheManager := { cm with lazyFreeList := some [] }

def exitLazyFreeRegion (cm : CacheManager) : CacheManager :=
  { cm with freeSlots := cm.freeSlots ++ cm.lazyFreeList.getD [], lazyFreeList := none }

def freeSwa (cm : CacheManager) (indices : List Nat) : CacheManager :=
  if cm.swaPaged then { cm with swaPool := cm.swaPool.freeSwa indices } else cm

/-- `ensure_swa_slots`; every round that goes on tombstones or removes a node. -/
def ensureSwaSlotsLoop (n : Nat) : Nat → CacheManager → CacheManager
  | 0, cm => cm
  | fuel + 1, cm =>
      if cm.swaPool.swaAvailableSize < n then
        let (c, ev) := SwaRadixCache.evictSwa cm.prefixCache (n - cm.swaPool.swaAvailableSize)
        let cm := { cm with prefixCache := c }
        if ev.swaIndices = [] then cm
        else ensureSwaSlotsLoop n fuel ((cm.freeSwa ev.swaIndices).free ev.kvIndices)
      else cm

def ensureSwaSlots (cm : CacheManager) (n : Nat) : CacheManager :=
  ensureSwaSlotsLoop n (cm.prefixCache.nodes.length + 1) cm

/-- `ensure_mamba_slots`; every round that goes on takes a snapshot from the tree. -/
def ensureMambaSlotsLoop (n : Nat) : Nat → CacheManager → CacheManager
  | 0, cm => cm
  | fuel + 1, cm =>
      if cm.linearStatePool.numFreeSlots < n then
        let (c, er) := HybridRadixCache.evictMamba cm.prefixCache
          (n - cm.linearStatePool.numFreeSlots)
        let cm := { cm with prefixCache := c }
        if er.mambaSlots = [] then cm
        else
          let cm := { cm with linearStatePool := cm.linearStatePool.free er.mambaSlots }
          ensureMambaSlotsLoop n fuel (cm.free er.kvIndices)
      else cm

def ensureMambaSlots (cm : CacheManager) (n : Nat) : CacheManager :=
  ensureMambaSlotsLoop n (cm.prefixCache.nodes.length + 1) cm

/-! ## Matching and locking -/

/-- `match_req`: the matched handle and, for the hybrid cache, the snapshot slot to restore. -/
def matchReq (cm : CacheManager) (req : PendingReq) :
    Py (CacheManager × CacheHandle × Option Nat) := do
  pyAssert (decide (0 < req.inputLen)) "Input length must be greater than 0."
  let ids := if req.hasMm then [] else req.inputIds.take (req.inputLen - 1)
  match cm.cacheType with
  | .naive => return (cm, { cachedLen := 0, node := [], kvIndices := [], swaUuid := none }, none)
  | .radix =>
      let (cm, tic) := cm.tick
      let (c, h) := RadixPrefixCache.matchPrefix cm.prefixCache ids tic
      return ({ cm with prefixCache := c }, h, none)
  | .hybridRadix =>
      let (cm, tic) := cm.tick
      let (c, m) := HybridRadixCache.matchPrefix cm.prefixCache ids tic
      return ({ cm with prefixCache := c },
        { cachedLen := m.cachedLen, node := m.node, kvIndices := m.kvIndices, swaUuid := none },
        m.mambaValue)
  | .swaRadix =>
      let (c, m) := SwaRadixCache.matchPrefix cm.prefixCache ids
      return ({ cm with prefixCache := c },
        { cachedLen := m.cachedLen, node := m.node, kvIndices := m.kvIndices, swaUuid := none },
        none)

/-- `handle.get_matched_indices()`. -/
def getMatchedIndices (cm : CacheManager) (h : CacheHandle) : List Nat :=
  match cm.cacheType with
  | .naive => []
  | .radix => RadixPrefixCache.getMatchedIndices cm.prefixCache h
  | _ => h.kvIndices

/-- `lock` returns the handle, on which the sliding-window cache records its window boundary. -/
def lock (cm : CacheManager) (h : CacheHandle) : CacheManager × CacheHandle :=
  match cm.cacheType with
  | .naive => (cm, h)
  | .radix => ({ cm with prefixCache := RadixPrefixCache.lockHandle cm.prefixCache h }, h)
  | .hybridRadix => ({ cm with prefixCache := HybridRadixCache.incLock cm.prefixCache h.node }, h)
  | .swaRadix =>
      let (c, u) := SwaRadixCache.incLock cm.prefixCache h.node
      ({ cm with prefixCache := c }, { h with swaUuid := u })

def unlock (cm : CacheManager) (h : CacheHandle) : Py CacheManager := do
  match cm.cacheType with
  | .naive => return cm
  | .radix => return { cm with prefixCache := ← RadixPrefixCache.unlockHandle cm.prefixCache h }
  | .hybridRadix => return { cm with prefixCache := ← HybridRadixCache.decLock cm.prefixCache h.node }
  | .swaRadix =>
      return { cm with prefixCache := ← SwaRadixCache.decLock cm.prefixCache h.node h.swaUuid }

/-! ## Allocation -/

/-- The eviction of `_allocate`: the indices of the pages taken from the tree. -/
def evictPages (cm : CacheManager) (need : Nat) : Py (CacheManager × List Nat) := do
  match cm.cacheType with
  | .naive =>
      if need = 0 then return (cm, [])
      else throw (.notImplemented "NaiveCacheManager does not support eviction.")
  | .radix =>
      let (c, evicted) ← RadixPrefixCache.evict cm.prefixCache need
      return ({ cm with prefixCache := c }, evicted)
  | .hybridRadix =>
      let (c, er) := HybridRadixCache.evictFull cm.prefixCache need
      return ({ cm with
        prefixCache := c, linearStatePool := cm.linearStatePool.free er.mambaSlots }, er.kvIndices)
  | .swaRadix =>
      let (c, ev) := SwaRadixCache.evictFull cm.prefixCache need
      return ({ cm with prefixCache := c }.freeSwa ev.swaIndices, ev.kvIndices)

def takePages (cm : CacheManager) (neededPages : Nat) : CacheManager × List Nat :=
  ({ cm with freeSlots := cm.freeSlots.drop neededPages }, cm.freeSlots.take neededPages)

/-- `_allocate`. -/
def allocate (cm : CacheManager) (neededPages : Nat) : Py (CacheManager × List Nat) :=
  if cm.freeSlots.length < neededPages then do
    let (cm, evicted) ← cm.evictPages ((neededPages - cm.freeSlots.length) * cm.pageSize)
    let cm := { cm with freeSlots := cm.freeSlots ++ stride cm.pageSize evicted }
    if neededPages ≤ cm.freeSlots.length then return cm.takePages neededPages
    else throw .evictionShort
  else .ok (cm.takePages neededPages)

structure AllocationInfo where
  tableIdx : Nat
  firstPage : Nat
  lastPage : Nat

/-- The pages a request needs to back `[cachedLen, deviceLen)`. -/
def allocationInfo (pageSize : Nat) (r : Req) : Option AllocationInfo :=
  let first := divCeil r.cachedLen pageSize
  let last := divCeil r.deviceLen pageSize
  if first < last then
    some { tableIdx := r.tableIdx.getD 0, firstPage := first, lastPage := last }
  else none

/-- `_write_page_table`: each request takes the next tokens of the allocation, in order. -/
def writePageTable (pageSize : Nat) :
    PageTable → List Nat → List AllocationInfo → PageTable
  | t, _, [] => t
  | t, allocated, a :: rest =>
      let length := a.lastPage * pageSize - a.firstPage * pageSize
      writePageTable pageSize (t.copyRow a.tableIdx (a.firstPage * pageSize) (allocated.take length))
        (allocated.drop length) rest

/-- The window slots behind the token slots a batch allocates. -/
def allocSwaSlots (cm : CacheManager) (allocated : List Nat) : Py CacheManager :=
  if cm.swaPaged then
    let cm := if cm.isSwa then cm.ensureSwaSlots allocated.length else cm
    match cm.swaPool.allocSwa allocated with
    | .error e => .error e
    | .ok p => .ok { cm with swaPool := p }
  else .ok cm

def allocatePaged (cm : CacheManager) (reqs : List Req) : Py CacheManager :=
  let info := reqs.filterMap (allocationInfo cm.pageSize)
  let neededPages := (info.map (fun a => a.lastPage - a.firstPage)).sum
  if 0 < neededPages then do
    let (cm, pages) ← cm.allocate neededPages
    let allocated := expand cm.pageSize pages
    let cm ← cm.allocSwaSlots allocated
    return { cm with pageTable := writePageTable cm.pageSize cm.pageTable allocated info }
  else .ok cm

/-! ## Out-of-window frees -/

/-- Free the request's own slots in `[max(swa_evicted_seqlen, floor), newEvicted)`. -/
def freeOutOfWindow (cm : CacheManager) (r : Req) (newEvicted : Int) : CacheManager × Req :=
  let start := max r.swaEvictedSeqlen r.cacheHandle.cachedLen
  if (start : Int) < newEvicted then
    (cm.freeSwa (slice (cm.pageTable (r.tableIdx.getD 0)) start newEvicted.toNat),
      { r with swaEvictedSeqlen := newEvicted.toNat })
  else (cm, r)

/-- The request after the anchor test, and the length below which its slots are out of window. -/
def decodeThreshold (cm : CacheManager) (r : Req) : Req × Int :=
  let window : Int := cm.slidingWindowSize
  let threshold : Int := r.deviceLen - 1 - window - cm.pageSize
  match r.toolcallAnchorLen with
  | none => (r, threshold)
  | some a =>
      let cap : Int := a - window - swaRetainGap
      if window + swaRetainGap < threshold - cap then
        ({ r with toolcallAnchorLen := none }, threshold)
      else (r, min threshold cap)

def maybeFreeSwaReq (cm : CacheManager) (r : Req) : CacheManager × Req :=
  if r.decodeBatchIdx < 1 then (cm, r)
  else
    let (r, threshold) := cm.decodeThreshold r
    cm.freeOutOfWindow r (alignDownInt threshold cm.pageSize)

/-- Run `f` over the requests of a batch, threading the manager. -/
def forReqs (f : CacheManager → Req → CacheManager × Req) :
    CacheManager → List Req → CacheManager × List Req
  | cm, [] => (cm, [])
  | cm, r :: rest =>
      let (cm, r) := f cm r
      let (cm, rest) := forReqs f cm rest
      (cm, r :: rest)

def maybeFreeSwaOutOfWindow (cm : CacheManager) (reqs : List Req) (forwardIter : Nat) :
    CacheManager × List Req :=
  if !cm.swaPaged || forwardIter % cm.swaEvictionInterval ≠ 0 then (cm, reqs)
  else forReqs maybeFreeSwaReq cm reqs

def freeSwaExtendReq (cm : CacheManager) (r : Req) : CacheManager × Req :=
  cm.freeOutOfWindow r
    (alignDownInt ((r.cachedLen : Int) - cm.slidingWindowSize - cm.pageSize) cm.pageSize)

def freeSwaOutOfWindowExtend (cm : CacheManager) (reqs : List Req) : CacheManager × List Req :=
  if !cm.swaPaged then (cm, reqs) else forReqs freeSwaExtendReq cm reqs

/-! ## Snapshots at a tool-call anchor -/

def pingPongSlot (pp : Nat × Nat) (idx : Nat) : Nat := if idx = 0 then pp.1 else pp.2

def snapshotAnchorReq (cm : CacheManager) (r : Req) : CacheManager × Req :=
  match r.toolcallAnchorLen, r.mambaPingPong, r.mambaLastTrackSeqlen, r.linearSlotIdx with
  | some a, some pp, none, some live =>
      if r.cachedLen = a ∧ alignDown a cm.pageSize = a then
        ({ cm with
            linearStatePool :=
              cm.linearStatePool.copyFrom live (pingPongSlot pp r.mambaNextTrackIdx) },
          { r with
            mambaLastTrackSeqlen := some a, mambaNextTrackIdx := 1 - r.mambaNextTrackIdx })
      else (cm, r)
  | _, _, _, _ => (cm, r)

def snapshotToolcallAnchor (cm : CacheManager) (reqs : List Req) : CacheManager × List Req :=
  if cm.isHybrid then forReqs snapshotAnchorReq cm reqs else (cm, reqs)

/-! ## Committing and freeing a request -/

def rowOf (cm : CacheManager) (r : Req) : Nat → Nat := cm.pageTable (r.tableIdx.getD 0)

/-- `_padded_tail`: the request's own slice up to the page-ceil of `cachedLen`. -/
def paddedTail (cm : CacheManager) (r : Req) (start : Nat) : List Nat :=
  slice (cm.rowOf r) start (divCeil r.cachedLen cm.pageSize * cm.pageSize)

/-- Return a list of indices to both pools. -/
def freeBoth (cm : CacheManager) (indices : List Nat) : CacheManager :=
  (cm.freeSwa indices).free indices

def insertGeneric (cm : CacheManager) (ids : List Token) (indices : List Nat) :
    CacheManager × Nat × CacheHandle :=
  match cm.cacheType with
  | .naive => (cm, 0, { cachedLen := 0, node := [], kvIndices := [], swaUuid := none })
  | _ =>
      let (cm, tic) := cm.tick
      let (cm, newTic) := cm.tick
      let (c, cachedLen, h) := RadixPrefixCache.insertPrefix cm.prefixCache ids indices tic newTic
      ({ cm with prefixCache := c }, cachedLen, h)

/-- Re-point the deduped span `[start, stop)` of a request's row at the tree's canonical indices. -/
def repoint (cm : CacheManager) (r : Req) (start stop : Nat) (canonical : List Nat) :
    CacheManager :=
  if start < stop then
    { cm with
      pageTable := cm.pageTable.copyRow (r.tableIdx.getD 0) start
        ((canonical.take stop).drop start) }
  else cm

/-- `cache_req` of the naive and the plain radix cache. -/
def cacheReqGeneric (cm : CacheManager) (r : Req) (finished : Bool) :
    Py (CacheManager × CacheFields) := do
  let oldHandle := r.cacheHandle
  if r.hasMm then
    let cm ← cm.unlock oldHandle
    if finished then
      return (cm.freeBoth (cm.paddedTail r oldHandle.cachedLen), r.toCacheFields)
    else return (cm, r.toCacheFields)
  else
    let pageIndices := slice (cm.rowOf r) 0 r.cachedLen
    let (cm, cachedLen, newHandle) := cm.insertGeneric (r.inputIds.take r.cachedLen) pageIndices
    let cm ← cm.unlock oldHandle
    let cm := cm.freeBoth (slice (cm.rowOf r) oldHandle.cachedLen cachedLen)
    if finished then
      return (cm.freeBoth (cm.paddedTail r newHandle.cachedLen), r.toCacheFields)
    else
      let cm := cm.repoint r oldHandle.cachedLen cachedLen (cm.getMatchedIndices newHandle)
      let (cm, newHandle) := cm.lock newHandle
      return (cm, { r.toCacheFields with cacheHandle := newHandle })

/-- `_free_req_slots`. -/
def freeReqSlots (cm : CacheManager) (f : CacheFields) (keepLive : Bool) :
    CacheManager × CacheFields :=
  let slots := match f.mambaPingPong with
    | some (a, b) => [a, b]
    | none => []
  let slots := slots ++ if keepLive then [] else f.linearSlotIdx.toList
  ({ cm with linearStatePool := cm.linearStatePool.free slots },
    { f with mambaPingPong := none, linearSlotIdx := none })

/-- The pending freeze of a finishing request: its length and the ping-pong pair, if the length is a
page boundary within the computed prefix. -/
def pendingFreeze (cm : CacheManager) (r : Req) : Option (Nat × Nat × Nat) :=
  match r.mambaLastTrackSeqlen, r.mambaPingPong with
  | some len, some pp =>
      if 0 < len ∧ len ≤ r.cachedLen ∧ alignDown len cm.pageSize = len then some (len, pp) else none
  | _, _ => none

def insertHybrid (cm : CacheManager) (r : Req) (len slot : Nat) : CacheManager × Nat × Bool :=
  let (cm, tic) := cm.tick
  let (cm, newTic) := cm.tick
  let (c, prefixLen, mambaExist) := HybridRadixCache.insert cm.prefixCache (r.inputIds.take len)
    ((slice (cm.rowOf r) 0 r.cachedLen).take len) slot tic newTic
  ({ cm with prefixCache := c }, prefixLen, mambaExist)

/-- The first insert of a finish: donate a pending freeze and advance the free frontier past it. -/
def finishFreeze (cm : CacheManager) (r : Req) : CacheManager × CacheFields × Nat :=
  let freeUpto := r.cacheHandle.cachedLen
  match cm.pendingFreeze r with
  | none => (cm, r.toCacheFields, freeUpto)
  | some (len, pp) =>
      let frozen := pingPongSlot pp (1 - r.mambaNextTrackIdx)
      let (cm, prefixLen, mambaExist) := cm.insertHybrid r len frozen
      let slots := [pp.1, pp.2].filter (fun s => mambaExist || s ≠ frozen)
      let cm := { cm with linearStatePool := cm.linearStatePool.free slots }
      let cm := cm.free (slice (cm.rowOf r) freeUpto (max freeUpto prefixLen))
      (cm, { r.toCacheFields with mambaPingPong := none }, max freeUpto len)

def finishHybrid (cm : CacheManager) (r : Req) : Py (CacheManager × CacheFields) := do
  let (cm, f, freeUpto) := cm.finishFreeze r
  let insertLen := alignDown r.cachedLen cm.pageSize
  if insertLen = r.cachedLen ∧ 0 < insertLen then
    match f.linearSlotIdx with
    | none => throw (.assertion "linear_slot_idx")
    | some live =>
        let (cm, prefixLen, mambaExist) := cm.insertHybrid r insertLen live
        let cm ← cm.unlock r.cacheHandle
        let cm := cm.free (slice (cm.rowOf r) freeUpto (max freeUpto prefixLen))
        return cm.freeReqSlots f (!mambaExist)
  else
    let cm ← cm.unlock r.cacheHandle
    let cm := cm.free (slice (cm.rowOf r) freeUpto r.cachedLen)
    return cm.freeReqSlots f false

def setPingPong (pp : Nat × Nat) (idx slot : Nat) : Nat × Nat :=
  if idx = 0 then (slot, pp.2) else (pp.1, slot)

/-- The prefill commit of the hybrid cache. -/
def commitHybrid (cm : CacheManager) (r : Req) : Py (CacheManager × CacheFields) := do
  match r.mambaLastTrackSeqlen with
  | none => return (cm, r.toCacheFields)
  | some len =>
      if alignDown len cm.pageSize ≠ len then
        return (cm, { r.toCacheFields with mambaLastTrackSeqlen := none })
      else
        match r.mambaPingPong with
        | none => throw (.assertion "mamba_ping_pong")
        | some pp =>
            let oldHandle := r.cacheHandle
            let frozenIdx := 1 - r.mambaNextTrackIdx
            let (cm, prefixLen, mambaExist) := cm.insertHybrid r len (pingPongSlot pp frozenIdx)
            let cm ← cm.unlock oldHandle
            let cm := cm.free (slice (cm.rowOf r) oldHandle.cachedLen prefixLen)
            -- lock the committed node before the replacement slot may evict
            let (cm, tic) := cm.tick
            let (c, m) := HybridRadixCache.matchPrefix cm.prefixCache (r.inputIds.take len) tic
            let cm := { cm with prefixCache := c }
            let cm := cm.repoint r oldHandle.cachedLen prefixLen m.kvIndices
            let (cm, handle) := cm.lock
              { cachedLen := m.cachedLen, node := m.node, kvIndices := m.kvIndices,
                swaUuid := none }
            let f := { r.toCacheFields with cacheHandle := handle, mambaLastTrackSeqlen := none }
            if mambaExist then return (cm, f)
            else
              let cm := cm.ensureMambaSlots 1
              let (pool, slots) ← cm.linearStatePool.alloc 1
              return ({ cm with linearStatePool := pool },
                { f with mambaPingPong := some (setPingPong pp frozenIdx (slots.headD 0)) })

/-- `_cache_req_hybrid`. -/
def cacheReqHybrid (cm : CacheManager) (r : Req) (finished : Bool) :
    Py (CacheManager × CacheFields) := do
  if r.hasMm then
    let cm ← cm.unlock r.cacheHandle
    if finished then
      let cm := cm.free (slice (cm.rowOf r) r.cacheHandle.cachedLen r.cachedLen)
      return cm.freeReqSlots r.toCacheFields false
    else return (cm, r.toCacheFields)
  else if finished then cm.finishHybrid r
  else cm.commitHybrid r

/-- The retained tail of a finished prompt: trim the head's window slots and stamp the path. -/
def softPinPrompt (cm : CacheManager) (r : Req) : CacheManager :=
  let promptLen := alignDown (r.maxDeviceLen - r.outputLen) cm.pageSize
  if 0 < promptLen then
    let keepFrom := alignDown (promptLen - cm.slidingWindowSize - swaRetainGap) cm.pageSize
    let cm := if 0 < keepFrom then
        let (c, freed) := SwaRadixCache.trimHeadSwa cm.prefixCache (r.inputIds.take promptLen)
          keepFrom
        { cm with prefixCache := c }.freeSwa freed
      else cm
    { cm with
      prefixCache := (SwaRadixCache.matchPrefix cm.prefixCache (r.inputIds.take promptLen)).1 }
  else cm

/-- The re-match of an unfinished commit: split a window back, match again, re-point the row and
lock what was matched. -/
def rematchSwa (cm : CacheManager) (r : Req) (insertLen : Nat) : CacheManager × CacheFields :=
  let keepFrom := alignDown (insertLen - cm.slidingWindowSize - swaRetainGap) cm.pageSize
  let cm := if 0 < keepFrom then
      { cm with
        prefixCache := (SwaRadixCache.matchPrefix cm.prefixCache (r.inputIds.take keepFrom)).1 }
    else cm
  let (c, m) := SwaRadixCache.matchPrefix cm.prefixCache (r.inputIds.take insertLen)
  let cm := { cm with prefixCache := c }
  let cm := if 0 < m.cachedLen then
      { cm with pageTable := cm.pageTable.copyRow (r.tableIdx.getD 0) 0 m.kvIndices }
    else cm
  let (cm, handle) := cm.lock
    { cachedLen := m.cachedLen, node := m.node, kvIndices := m.kvIndices, swaUuid := none }
  (cm, { r.toCacheFields with cacheHandle := handle })

/-- The insert of `_cache_req_swa`: the slots to reclaim, none for an empty prefix. -/
def insertSwa (cm : CacheManager) (r : Req) (insertLen : Nat) : Py (CacheManager × List Nat) :=
  if 0 < insertLen then do
    let (c, _, freed) ← SwaRadixCache.insert cm.prefixCache (r.inputIds.take insertLen)
      (slice (cm.rowOf r) 0 insertLen) r.swaEvictedSeqlen r.cacheHandle.cachedLen
    return ({ cm with prefixCache := c }, freed)
  else .ok (cm, [])

/-- `_cache_req_swa`. -/
def cacheReqSwa (cm : CacheManager) (r : Req) (finished : Bool) :
    Py (CacheManager × CacheFields) := do
  if r.hasMm then
    let cm ← cm.unlock r.cacheHandle
    if finished then
      return (cm.freeBoth (cm.paddedTail r r.cacheHandle.cachedLen), r.toCacheFields)
    else return (cm, r.toCacheFields)
  else
    let insertLen := alignDown r.cachedLen cm.pageSize
    let (cm, freed) ← cm.insertSwa r insertLen
    let cm ← cm.unlock r.cacheHandle
    let cm := cm.freeBoth freed
    if finished then
      let cm := cm.freeBoth (cm.paddedTail r insertLen)
      return (cm.softPinPrompt r, r.toCacheFields)
    else return cm.rematchSwa r insertLen

def cacheReq (cm : CacheManager) (r : Req) (finished : Bool) : Py (CacheManager × CacheFields) :=
  match cm.cacheType with
  | .swaRadix => cm.cacheReqSwa r finished
  | .hybridRadix => cm.cacheReqHybrid r finished
  | _ => cm.cacheReqGeneric r finished

end CacheManager

end FreeToken
