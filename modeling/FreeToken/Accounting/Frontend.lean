import Mathlib.Data.List.Sort
import FreeToken.Server.Maintenance

/-!
# The frontend's accounting

The messages between the frontend, the tokenizer workers and the scheduler, as far as the totals
depend on them, and what the frontend does with its own: `StatsTracker`, the admission of users, the
aborts and `prepare_stop_accounting`.  A batch message stands for its messages in order.
-/

set_option autoImplicit false

namespace FreeToken

/-- A token of the model's vocabulary. -/
abbrev TokenId := Nat

structure TokenizeMsg where
  uid : Nat
  text : String
  maxTokens : Nat
  deriving DecidableEq, Repr

/-- What the frontend sends to a tokenizer worker. -/
inductive RequestMsg
  | tokenize (msg : TokenizeMsg)
  | abort (uid : Nat)
  deriving DecidableEq, Repr

/-- What the scheduler sends to the detokenizer. -/
inductive GenerationMsg
  | detokenize (uid nextToken : Nat) (finished : Bool)
  | promptAdmitted (uid promptTokens cachedTokens : Nat)
  | errorReply (uid : Nat) (error : String) (code : Option String)
  deriving DecidableEq, Repr

/-- A message in the queue of a tokenizer worker. -/
inductive TokenizerMsg
  | request (msg : RequestMsg)
  | generation (msg : GenerationMsg)
  deriving DecidableEq, Repr

/-- A message to the scheduler. -/
inductive BackendMsg
  | user (uid : Nat) (inputIds : List TokenId) (maxTokens : Nat)
  | abort (uid : Nat)
  deriving DecidableEq, Repr

structure UserReply where
  uid : Nat
  finished : Bool
  promptTokensDelta : Nat := 0
  completionTokensDelta : Nat := 0
  cachedTokens : Nat := 0
  error : Option String := none
  errorCode : Option String := none
  deriving DecidableEq, Repr

/-! ## Totals -/

structure StatsTracker where
  inflight : List Nat := []
  aborting : List Nat := []
  completed : Nat := 0
  promptTokensTotal : Nat := 0
  completionTokensTotal : Nat := 0
  deriving DecidableEq, Repr

namespace StatsTracker

def active (s : StatsTracker) : Nat := s.inflight.length

def inflightUids (s : StatsTracker) : List Nat := s.inflight.insertionSort (· ≤ ·)

def onNewUser (s : StatsTracker) (uid : Nat) : StatsTracker :=
  { s with inflight := s.inflight.insert uid, aborting := s.aborting.erase uid }

def onAbort (s : StatsTracker) (uid : Nat) : StatsTracker :=
  if uid ∈ s.inflight then { s with aborting := s.aborting.insert uid } else s

/-- The last part of `observe`: a terminal reply ends the request. -/
def finish (s : StatsTracker) (uid : Nat) : StatsTracker :=
  if uid ∈ s.inflight then
    let s := { s with inflight := s.inflight.filter fun v => v ≠ uid }
    if uid ∈ s.aborting then { s with aborting := s.aborting.filter fun v => v ≠ uid }
    else { s with completed := s.completed + 1 }
  else s

def observe (s : StatsTracker) (reply : UserReply) : StatsTracker :=
  let s := { s with
    completionTokensTotal := s.completionTokensTotal + reply.completionTokensDelta
    promptTokensTotal := s.promptTokensTotal + reply.promptTokensDelta }
  if reply.finished then s.finish reply.uid else s

end StatsTracker

/-! ## Admission and the stop barrier -/

/-- The sealed snapshot, its totals. -/
structure SealedAccounting where
  promptTokensTotal : Nat
  completionTokensTotal : Nat
  deriving DecidableEq, Repr

/-- Where the `prepare_stop_accounting` that holds the lock is. -/
inductive PrepareStage
  | idle
  | draining
  | aborting (uids : List Nat)
  | waiting
  deriving DecidableEq, Repr

/-- The frontend; `unsent` are the users that `new_user` admitted and `send_one` has not sent yet, and
`returned` is what `prepare_stop_accounting` has returned so far. -/
structure Frontend where
  maintenanceState : MaintenanceState := .serving
  uidCounter : Nat := 0
  stats : StatsTracker := {}
  unsent : List TokenizeMsg := []
  prepare : PrepareStage := .idle
  sealedAccounting : Option SealedAccounting := none
  returned : List SealedAccounting := []
  deriving DecidableEq, Repr

namespace Frontend

/-- `new_user`; none where it raises. -/
def newUser (f : Frontend) (text : String) (maxTokens : Nat) : Option Frontend :=
  if f.maintenanceState ≠ .serving then none
  else
    some { f with
      uidCounter := f.uidCounter + 1
      stats := f.stats.onNewUser f.uidCounter
      unsent := f.unsent ++ [⟨f.uidCounter, text, maxTokens⟩] }

/-- `send_one` for an admitted user. -/
def sendOne (f : Frontend) (uid : Nat) : Option (TokenizeMsg × Frontend) :=
  (f.unsent.find? fun msg => msg.uid = uid).map fun msg =>
    (msg, { f with unsent := f.unsent.filter fun msg => msg.uid ≠ uid })

/-- `abort_user` up to the message that it sends. -/
def abortUser (f : Frontend) (uid : Nat) : Frontend :=
  { f with stats := f.stats.onAbort uid }

/-- `listen` for one reply. -/
def listen (f : Frontend) (reply : UserReply) : Frontend :=
  { f with stats := f.stats.observe reply }

/-- `prepare_stop_accounting` up to its first wait. -/
def prepareStop (f : Frontend) : Frontend :=
  match f.sealedAccounting with
  | some snapshot => { f with returned := f.returned ++ [snapshot] }
  | none =>
      -- a rebuild in progress makes it raise
      if f.maintenanceState = .rebuilding then f
      else { f with maintenanceState := .stopping, prepare := .draining }

/-- The wait has ended with no active request. -/
def sealAccounting (f : Frontend) : Frontend :=
  let snapshot : SealedAccounting :=
    ⟨f.stats.promptTokensTotal, f.stats.completionTokensTotal⟩
  { f with
    prepare := .idle
    sealedAccounting := some snapshot
    returned := f.returned ++ [snapshot] }

/-- The drain has timed out; without identities it raises. -/
def drainTimeout (f : Frontend) : Frontend :=
  match f.stats.inflightUids with
  | [] => { f with prepare := .idle }
  | uids => { f with prepare := .aborting uids }

/-- One of the aborts that the barrier gathers is sent. -/
def abortSent (f : Frontend) (uids : List Nat) (uid : Nat) : Frontend :=
  let rest := uids.erase uid
  { f with prepare := if rest = [] then .waiting else .aborting rest }

end Frontend

end FreeToken
