import FreeToken.Lib.BlockTrie

/-!
# Requests, batches and runtime failures

The records of `core.py` that the scheduler and the cache manager pass around.  `inputIds` is the
host copy of a request's tokens; `deviceIds` is the part of the GPU token pool row the request owns,
where a sampled token arrives one drain earlier than on the host.
-/

set_option autoImplicit false

namespace FreeToken

abbrev Token := Nat

/-- A tree node is named by the tokens from the root to its end: splitting a node leaves its end
where it is, so the name outlives every split. -/
abbrev NodeRef := List Token

/-- The failures a modelled function can raise. -/
inductive PyError
  | assertion (msg : String)
  | valueError (msg : String)
  | keyError (key : Nat)
  | notImplemented (msg : String)
  | cannotEvict (size evictable : Int)
  | cannotEvictEnough (need evicted : Nat)
  | evictionShort
  | swaPoolExhausted (need have_ : Nat)
  | linearPoolExhausted (need have_ : Nat)
  | overflowError (msg : String)
  | typeError (msg : String)
  deriving DecidableEq, Repr

/-- The text the source raises with. -/
def PyError.text : PyError → String
  | .assertion msg => msg
  | .valueError msg => msg
  | .keyError key => s!"{key}"
  | .notImplemented msg => msg
  | .cannotEvict size evictable => s!"Cannot evict {size}, only {evictable} is evictable"
  | .cannotEvictEnough need evicted =>
      s!"Cannot evict enough cache, need {need}, only {evicted} evicted"
  | .evictionShort => "Eviction did not free enough space."
  | .swaPoolExhausted need have_ => s!"SWA pool exhausted: need {need}, have {have_}"
  | .linearPoolExhausted need have_ => s!"LinearStatePool exhausted: need {need}, have {have_}"
  | .overflowError msg => msg
  | .typeError msg => msg

abbrev Py := Except PyError

def pyAssert (b : Bool) (msg : String) : Py Unit := if b then .ok () else .error (.assertion msg)

/-- Peel a bind of calls that can raise. -/
theorem Py.bind_eq_ok {α β : Type} {x : Py α} {f : α → Py β} {b : β} :
    (x >>= f) = .ok b ↔ ∃ a, x = .ok a ∧ f a = .ok b := by
  cases x with
  | error e => simp [bind, Except.bind]
  | ok a => simp [bind, Except.bind]

@[simp] theorem Py.pure_eq_ok {α : Type} {a b : α} : (pure a : Py α) = .ok b ↔ a = b := by
  simp [pure, Except.pure]

theorem pyAssert_eq_ok {b : Bool} {msg : String} {u : Unit} :
    pyAssert b msg = .ok u ↔ b = true := by
  unfold pyAssert
  cases b <;> simp

structure SamplingParams where
  ignoreEos : Bool
  maxTokens : Nat
  stopStrs : List String
  deriving DecidableEq, Repr

/-- A matched or committed prefix: the node that ends it, the KV indices collected at match time,
and, for the sliding-window cache, the window boundary its lock recorded. -/
structure CacheHandle where
  cachedLen : Nat
  node : NodeRef
  kvIndices : List Nat
  swaUuid : Option Nat
  deriving DecidableEq, Repr

/-- The part of a request the cache manager writes. -/
structure CacheFields where
  cacheHandle : CacheHandle
  linearSlotIdx : Option Nat
  mambaPingPong : Option (Nat × Nat)
  mambaNextTrackIdx : Nat
  mambaLastTrackSeqlen : Option Nat
  mambaRestoreSrc : Option Nat
  swaEvictedSeqlen : Nat
  decodeBatchIdx : Nat
  toolcallAnchorLen : Option Nat
  deriving DecidableEq, Repr

/-- `chunked` marks the subclass `ChunkedReq`; `tableIdx = none` is the source's `-1`. -/
structure Req extends CacheFields where
  uid : Nat
  inputIds : List Token
  deviceIds : List Token
  tableIdx : Option Nat
  cachedLen : Nat
  deviceLen : Nat
  maxDeviceLen : Nat
  outputLen : Nat
  samplingParams : SamplingParams
  hasMm : Bool
  chunked : Bool
  aborted : Bool
  deriving DecidableEq, Repr

namespace Req

/-- Budget left; negative once `deviceLen` has passed the end. -/
def remainLen (r : Req) : Int := (r.maxDeviceLen : Int) - r.deviceLen

def extendLen (r : Req) : Nat := r.deviceLen - r.cachedLen

def completeOne (r : Req) : Req := { r with cachedLen := r.deviceLen, deviceLen := r.deviceLen + 1 }

def canDecode (r : Req) : Bool := if r.chunked then false else decide (0 < r.remainLen)

def appendHost (r : Req) (nextToken : Token) : Py Req := do
  if r.chunked then
    throw (.notImplemented "ChunkedReq should not be sampled")
  pyAssert (decide (r.inputIds.length + 1 ≤ r.maxDeviceLen)) "m <= self.max_device_len"
  return { r with inputIds := r.inputIds ++ [nextToken] }

end Req

inductive Phase
  | prefill
  | decode
  deriving DecidableEq, Repr

/-- A request waiting for prefill, or between two prefill chunks. -/
structure PendingReq where
  uid : Nat
  inputIds : List Token
  samplingParams : SamplingParams
  hasMm : Bool
  chunkedReq : Option Nat
  deriving DecidableEq, Repr

namespace PendingReq

def inputLen (p : PendingReq) : Nat := p.inputIds.length

def outputLen (p : PendingReq) : Nat := p.samplingParams.maxTokens

end PendingReq

end FreeToken
