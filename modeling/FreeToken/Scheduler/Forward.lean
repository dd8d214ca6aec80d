import FreeToken.Scheduler.Prefill

/-!
# Preparing and launching a batch

`_prepare_batch` and `_forward` of the scheduler, on the requests of the batch.  The model and the
sampler are an arbitrary function of a request's tokens; what a forward writes into the state slots
and the window slots is recorded as the token prefix it stands for.
-/

set_option autoImplicit false

namespace FreeToken

open Blocks

/-- `CHUNK_SIZE` of the recurrent-state kernels. -/
def fwdChunkSize : Nat := 64

/-- What the engine and the configuration give the scheduler. -/
structure Env where
  sample : Nat → List Token → Token
  eosTokenIds : List Token
  decode : List Token → String
  toolcallAnchorId : Option Token
  maxSeqLen : Nat
  prefillBudget : Nat

/-- A mid-chunk state the prefill kernels copy out: destination slot and prefix length. -/
structure Track where
  dst : Nat
  boundary : Nat

/-- `_build_track_metadata` for one request: the deepest chunk boundary strictly inside the
extend. -/
def trackReq (r : Req) : Req × Option Track :=
  match r.mambaPingPong with
  | none => (r, none)
  | some pp =>
      let c := (r.extendLen - 1) / fwdChunkSize
      if c < 1 then (r, none)
      else
        let boundary := r.cachedLen + c * fwdChunkSize
        ({ r with
            mambaLastTrackSeqlen := some boundary
            mambaNextTrackIdx := 1 - r.mambaNextTrackIdx },
          some { dst := CacheManager.pingPongSlot pp r.mambaNextTrackIdx, boundary := boundary })

/-- The out-of-window frees that come before a batch's allocation. -/
def freeBeforeAlloc (cm : CacheManager) (phase : Phase) (reqs : List Req) (forwardIter : Nat) :
    CacheManager × List Req :=
  match phase with
  | .decode =>
      let (cm, reqs) := cm.maybeFreeSwaOutOfWindow reqs forwardIter
      (cm, reqs.map fun r => { r with decodeBatchIdx := r.decodeBatchIdx + 1 })
  | .prefill => cm.freeSwaOutOfWindowExtend reqs

/-- The state-track metadata of a batch; only prefills track. -/
def trackBatch (phase : Phase) (reqs : List Req) : List (Req × Option Track) :=
  match phase with
  | .decode => reqs.map fun r => (r, none)
  | .prefill => reqs.map trackReq

/-- `_prepare_batch`. -/
def prepareBatch (cm : CacheManager) (phase : Phase) (reqs : List Req) (forwardIter : Nat) :
    Py (CacheManager × List (Req × Option Track)) := do
  let (cm, reqs) := freeBeforeAlloc cm phase reqs forwardIter
  let cm ← cm.allocatePaged reqs
  return (cm, trackBatch phase reqs)

/-- `_restore_linear_states` for one request. -/
def restoreReq (cm : CacheManager) (r : Req) : CacheManager × Req :=
  match r.mambaRestoreSrc, r.linearSlotIdx with
  | some src, some live =>
      ({ cm with linearStatePool := cm.linearStatePool.copyFrom src live },
        { r with mambaRestoreSrc := none })
  | _, _ => (cm, r)

/-- The state of a request's live slot as its forward starts; a fresh sequence starts empty. -/
def initialState (pool : LinearStatePool) (r : Req) (live : Nat) : List Token :=
  if r.cachedLen = 0 then [] else pool.states live

/-- The recurrence over a request's extend, and the tracked state on the way. -/
def advanceState (pool : LinearStatePool) (r : Req) (track : Option Track) : LinearStatePool :=
  match r.linearSlotIdx with
  | none => pool
  | some live =>
      let start := initialState pool r live
      let upto (len : Nat) := start ++ (r.deviceIds.take len).drop r.cachedLen
      let pool := match track with
        | some t => pool.write t.dst (upto t.boundary)
        | none => pool
      pool.write live (upto r.deviceLen)

/-- The window KV a forward stores for the positions of a request's extend. -/
def storeWindow (pool : SwaPool) (row : Nat → Nat) (r : Req) : SwaPool :=
  (List.range' r.cachedLen r.extendLen).foldl
    (fun p i => p.write (p.fullToSwa (row i)) (r.deviceIds.take (i + 1))) pool

/-- One request of a forward: its KV and state, `complete_one`, and the sampled token, which the
token pool takes when the request goes on decoding. -/
def forwardReq (env : Env) (cm : CacheManager) (r : Req) (track : Option Track) :
    CacheManager × Req × Token :=
  let token := env.sample r.uid (r.deviceIds.take r.deviceLen)
  let swaPool := if cm.swaPaged then storeWindow cm.swaPool (cm.rowOf r) r else cm.swaPool
  let cm := { cm with
    swaPool := swaPool, linearStatePool := advanceState cm.linearStatePool r track }
  let ids := if r.canDecode then r.deviceIds.take r.deviceLen ++ [token] else r.deviceIds
  (cm, { r.completeOne with deviceIds := ids }, token)

def forwardReqs (env : Env) : CacheManager → List (Req × Option Track) →
    CacheManager × List (Req × Token)
  | cm, [] => (cm, [])
  | cm, (r, track) :: rest =>
      let (cm, r, token) := forwardReq env cm r track
      let (cm, rest) := forwardReqs env cm rest
      (cm, (r, token) :: rest)

/-- Restore the prefix hits of a prefill batch. -/
def restoreStates (cm : CacheManager) (phase : Phase) (batch : List (Req × Option Track)) :
    CacheManager × List (Req × Option Track) :=
  match phase with
  | .decode => (cm, batch)
  | .prefill =>
      let (cm, reqs) := CacheManager.forReqs restoreReq cm (batch.map Prod.fst)
      (cm, reqs.zip (batch.map Prod.snd))

/-- Freeze the states of a decode batch that stands at its tool-call anchors. -/
def snapshotAnchors (env : Env) (cm : CacheManager) (phase : Phase)
    (batch : List (Req × Option Track)) : CacheManager × List (Req × Option Track) :=
  match phase with
  | .prefill => (cm, batch)
  | .decode =>
      if env.toolcallAnchorId.isSome then
        let (cm, reqs) := cm.snapshotToolcallAnchor (batch.map Prod.fst)
        (cm, reqs.zip (batch.map Prod.snd))
      else (cm, batch)

/-- Launch a prepared batch. -/
def forwardBatch (env : Env) (cm : CacheManager) (phase : Phase)
    (batch : List (Req × Option Track)) : CacheManager × List (Req × Token) :=
  let (cm, batch) := restoreStates cm phase batch
  let (cm, batch) := snapshotAnchors env cm phase batch
  forwardReqs env cm batch

end FreeToken
