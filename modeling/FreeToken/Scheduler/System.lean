import FreeToken.Scheduler.Forward

/-!
# Interleavings of the cache manager's operations

The requests of a running server, each action being one call the scheduler makes on their behalf.
A request is admitted into `fresh`, prepared and launched as part of a batch, and lives in `live`
until it finishes.  An action whose guard fails, or whose call raises, is not a step.
-/

set_option autoImplicit false

namespace FreeToken

open Blocks

/-- The geometry of a server. -/
structure Config where
  cacheType : CacheType
  numPages : Nat
  pageSize : Nat
  pageSize_pos : 0 < pageSize
  pageTable : PageTable
  maxRunningReqs : Nat
  numSlots : Nat
  swaNumTokens : Nat
  swaPaged : Bool
  swaPaged_of_radix : cacheType = .swaRadix → swaPaged = true
  slidingWindowSize : Nat
  window_pos : 0 < slidingWindowSize
  swaEvictionInterval : Nat
  clock : Nat → Nat

def CacheManager.init (cfg : Config) : CacheManager where
  cacheType := cfg.cacheType
  numPages := cfg.numPages
  pageSize := cfg.pageSize
  freeSlots := CacheManager.pageBases cfg.numPages cfg.pageSize
  lazyFreeList := none
  pageTable := cfg.pageTable
  prefixCache := PrefixCache.empty cfg.pageSize cfg.slidingWindowSize
  linearStatePool := LinearStatePool.init cfg.numSlots
  swaPool := SwaPool.init cfg.swaNumTokens
  swaPaged := cfg.swaPaged
  slidingWindowSize := cfg.slidingWindowSize
  swaEvictionInterval := cfg.swaEvictionInterval
  clock := cfg.clock
  now := 0

structure Sys where
  cm : CacheManager
  tm : TableManager
  fresh : List Req
  prepared : Option (Phase × List (Req × Option Track))
  live : List Req

/-- The budgets a scheduling pass has left. -/
structure Budgets where
  tokenBudget : Nat
  reservedSize : Int
  reservedSwa : Nat

inductive Action
  | tryAdd (b : Budgets) (p : PendingReq)
  | nextChunk (b : Budgets) (row : Nat) (p : PendingReq)
  | preparePrefill (forwardIter : Nat)
  | prepareDecode (rows : List Nat) (forwardIter : Nat)
  | forward
  | append (row : Nat) (token : Token)
  | setAnchor (row : Nat)
  | commit (row : Nat)
  | finish (row : Nat)
  | enterLazy
  | exitLazy
  | ensureSwa (n : Nat)
  | ensureMamba (n : Nat)

namespace Sys

def init (cfg : Config) : Sys where
  cm := CacheManager.init cfg
  tm := TableManager.init cfg.maxRunningReqs
  fresh := []
  prepared := none
  live := []

def preparedReqs (s : Sys) : List Req :=
  match s.prepared with
  | none => []
  | some (_, batch) => batch.map Prod.fst

/-- Every request that holds a row. -/
def running (s : Sys) : List Req := s.fresh ++ s.preparedReqs ++ s.live

/-- The request of a row, and the others. -/
def takeRow (row : Nat) : List Req → Option (Req × List Req)
  | [] => none
  | r :: rest =>
      if r.tableIdx = some row then some (r, rest)
      else (takeRow row rest).map fun x => (x.1, r :: x.2)

def takeRows : List Nat → List Req → Option (List Req × List Req)
  | [], reqs => some ([], reqs)
  | row :: rows, reqs => do
      let (r, reqs) ← takeRow row reqs
      let (taken, reqs) ← takeRows rows reqs
      some (r :: taken, reqs)

def adder (s : Sys) (b : Budgets) : PrefillAdder where
  tokenBudget := b.tokenBudget
  reservedSize := b.reservedSize
  reservedSwa := b.reservedSwa
  cm := s.cm
  tm := s.tm

/-- `r` is a chunk of the pending request `p`. -/
def ChunkOf (r : Req) (p : PendingReq) : Prop :=
  r.chunked = true ∧ r.uid = p.uid ∧ r.inputIds <+: p.inputIds ∧ r.hasMm = p.hasMm ∧
    r.samplingParams = p.samplingParams ∧ r.cachedLen ≤ p.inputLen

instance (r : Req) (p : PendingReq) : Decidable (ChunkOf r p) := by
  unfold ChunkOf
  infer_instance

/-- One call of the scheduler. -/
def exec (env : Env) (s : Sys) : Action → Option Sys
  | .tryAdd b p =>
      match (s.adder b).tryAddOne p none with
      | .error _ => none
      | .ok (a, none) => some { s with cm := a.cm, tm := a.tm }
      | .ok (a, some r) => some { s with cm := a.cm, tm := a.tm, fresh := s.fresh ++ [r] }
  | .nextChunk b row p =>
      match takeRow row s.live with
      | none => none
      | some (c, rest) =>
          if ChunkOf c p then
            match (s.adder b).tryAddOne p (some c) with
            | .error _ => none
            | .ok (a, none) => some { s with cm := a.cm, tm := a.tm }
            | .ok (a, some r) =>
                some { s with cm := a.cm, tm := a.tm, fresh := s.fresh ++ [r], live := rest }
          else none
  | .preparePrefill forwardIter =>
      if s.prepared.isSome then none
      else
        match prepareBatch s.cm .prefill s.fresh forwardIter with
        | .error _ => none
        | .ok (cm, batch) =>
            some { s with cm := cm, fresh := [], prepared := some (.prefill, batch) }
  | .prepareDecode rows forwardIter =>
      if s.prepared.isSome then none
      else
        match takeRows rows s.live with
        | none => none
        | some (reqs, rest) =>
            if reqs.all Req.canDecode then
              match prepareBatch s.cm .decode reqs forwardIter with
              | .error _ => none
              | .ok (cm, batch) =>
                  some { s with cm := cm, live := rest, prepared := some (.decode, batch) }
            else none
  | .forward =>
      match s.prepared with
      | none => none
      | some (phase, batch) =>
          let (cm, out) := forwardBatch env s.cm phase batch
          some { s with cm := cm, prepared := none, live := out.map Prod.fst ++ s.live }
  | .append row token =>
      match takeRow row s.live with
      | none => none
      | some (r, rest) =>
          -- the drained token is the one the forward wrote after the host's tokens
          if r.deviceIds[r.inputIds.length]? = some token then
            match r.appendHost token with
            | .error _ => none
            | .ok r => some { s with live := r :: rest }
          else none
  | .setAnchor row =>
      match takeRow row s.live with
      | none => none
      | some (r, rest) =>
          if r.toolcallAnchorLen.isSome || r.chunked then none
          else some { s with live := { r with toolcallAnchorLen := some r.inputIds.length } :: rest }
  | .commit row =>
      match takeRow row s.live with
      | none => none
      | some (r, rest) =>
          -- a drained prompt has all its computed tokens on the host
          if r.chunked = false ∧ r.cachedLen ≤ r.inputIds.length then
            match s.cm.cacheReq r false with
            | .error _ => none
            | .ok (cm, f) => some { s with cm := cm, live := { r with toCacheFields := f } :: rest }
          else none
  | .finish row =>
      match takeRow row s.live with
      | none => none
      | some (r, rest) =>
          if r.cachedLen ≤ r.inputIds.length then
            match s.cm.cacheReq r true with
            | .error _ => none
            | .ok (cm, _) => some { s with cm := cm, tm := s.tm.free row, live := rest }
          else none
  | .enterLazy =>
      if s.cm.lazyFreeList.isSome then none
      else some { s with cm := s.cm.enterLazyFreeRegion }
  | .exitLazy => some { s with cm := s.cm.exitLazyFreeRegion }
  | .ensureSwa n => if s.cm.isSwa then some { s with cm := s.cm.ensureSwaSlots n } else none
  | .ensureMamba n => if s.cm.isHybrid then some { s with cm := s.cm.ensureMambaSlots n } else none

/-- A run of calls, each of which the condition `ok` allows. -/
inductive Run (env : Env) (cfg : Config) (ok : Sys → Action → Prop) : Sys → Prop
  | init : Run env cfg ok (Sys.init cfg)
  | step {s s' : Sys} {act : Action} (h : Run env cfg ok s) (hok : ok s act)
      (he : s.exec env act = some s') : Run env cfg ok s'

/-- The states some interleaving reaches. -/
def Reachable (env : Env) (cfg : Config) (s : Sys) : Prop := Run env cfg (fun _ _ => True) s

def execs (env : Env) (s : Sys) : List Action → Option Sys
  | [] => some s
  | act :: acts => (s.exec env act).bind fun s => execs env s acts

theorem Run.execs {env : Env} {cfg : Config} {ok : Sys → Action → Prop} {s s' : Sys}
    (h : Run env cfg ok s) {acts : List Action}
    (hok : ∀ (t : Sys) (act : Action), act ∈ acts → ok t act) (he : execs env s acts = some s') :
    Run env cfg ok s' := by
  induction acts generalizing s with
  | nil =>
      cases he
      exact h
  | cons act acts ih =>
      obtain ⟨t, ht, hrest⟩ := Option.bind_eq_some_iff.1 he
      exact ih (h.step (hok s act List.mem_cons_self) ht)
        (fun u a ha => hok u a (List.mem_cons_of_mem _ ha)) hrest

end Sys

end FreeToken
