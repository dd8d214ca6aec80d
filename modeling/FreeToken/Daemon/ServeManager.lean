import Mathlib.Data.List.Basic
import FreeToken.Lib.Machine

/-!
# The supervisor of one serve

`ServeManager` as the sections its locks make atomic.  The lifecycle lock is held by one `start`,
`stop`, `switch` or `shutdown` at a time, whose place is the `activity`; the monitor of each child and
the threads that restart a serve run beside it.  The guard of the accounting makes a prepare with its
receipt, and the receipt of a crash, one section each.
-/

set_option autoImplicit false

namespace FreeToken

structure ServeSpec where
  model : String
  port : Nat
  args : List String
  deriving DecidableEq, Repr

structure ExitInfo where
  code : Option Int
  source : String
  deriving DecidableEq, Repr

/-- Validated totals of an engine. -/
structure AccountingSnapshot where
  hasInstance : Bool
  modelId : String
  promptTokensTotal : Nat
  completionTokensTotal : Nat
  uptimeS : Nat
  deriving DecidableEq, Repr

/-- What `stable_receipt_id` is applied to; a child stands for its pid and start time, and for the
instance of its engine. -/
inductive ReceiptId
  | instance (child : Nat)
  | snapshot (child : Nat) (hasInstance : Bool) (modelId : String) (prompt completion : Nat)
  | identity (child : Nat)
  | crash (child : Nat)
  deriving DecidableEq, Repr

structure Receipt where
  receiptId : ReceiptId
  createdAt : Nat
  totals : Option AccountingSnapshot
  modelId : Option String
  drainComplete : Bool
  reason : Option String
  deriving DecidableEq, Repr

inductive ReceiptKind
  | sealed
  | bestEffort
  | crash
  deriving DecidableEq, Repr

/-- A receipt that was persisted for a child, as `persist` returned it. -/
structure Persisted where
  child : Nat
  kind : ReceiptKind
  receipt : Receipt
  deriving DecidableEq, Repr

/-- Where the monitor of a child is: it waits for the exit, or what it does next in `_reap`. -/
inductive MonitorStage
  | unwatched
  | waiting
  | accounting (wasStopping : Bool)
  | accountingFailed (wasStopping : Bool)
  | forgetting (wasStopping : Bool)
  | clearing (wasStopping : Bool)
  | setting (wasStopping isCurrent : Bool)
  | deciding (wasStopping : Bool)
  | restarting
  | finished
  deriving DecidableEq, Repr

/-- A child that was spawned, whether its `start` raised afterwards, and whether a write of its crash
receipt raised. -/
structure ServeChild where
  spec : ServeSpec
  exit : Option ExitInfo := none
  reaped : Bool := false
  monitor : MonitorStage := .unwatched
  startRaised : Bool := false
  outboxRaised : Bool := false
  deriving DecidableEq, Repr

inductive StopCaller
  | stop
  | shutdown
  | switch (spec : ServeSpec)
  deriving DecidableEq, Repr

/-- What the holder of the lifecycle lock does next. -/
inductive Activity
  | starting (spec : ServeSpec) (auto : Bool)
  | spawning (spec : ServeSpec)
  | spawned (spec : ServeSpec) (n : Nat)
  | saving (spec : ServeSpec) (n : Nat)
  | watching (n : Nat)
  | stopping (caller : StopCaller) (force : Bool)
  | preparing (caller : StopCaller) (n : Nat) (spec : Option ServeSpec) (force : Bool)
  | signalling (caller : StopCaller) (n : Nat)
  | awaiting (caller : StopCaller) (n : Nat) (killed : Bool)
  | abandoning (caller : StopCaller) (n : Nat)
  deriving DecidableEq, Repr

/-- The manager, the children it spawned, its state file, its outbox and what was done to both. -/
structure ServeManager where
  autoRestart : Bool
  child : Option Nat := none
  spec : Option ServeSpec := none
  lastExit : Option ExitInfo := none
  stopping : Bool := false
  starting : Bool := false
  stopRequested : Bool := false
  shutdownRequested : Bool := false
  activity : Option Activity := none
  restarts : List ServeSpec := []
  children : List ServeChild := []
  file : Option (Nat × ServeSpec) := none
  outbox : List Receipt := []
  durableAccounting : List Nat := []
  lastAccounting : List (Nat × AccountingSnapshot) := []
  history : List Persisted := []
  signals : List Nat := []
  deriving DecidableEq, Repr

namespace ServeManager

def update (s : ServeManager) (n : Nat) (f : ServeChild → ServeChild) : ServeManager :=
  { s with children := s.children.modify n f }

def isReaped (s : ServeManager) (n : Nat) : Bool :=
  match s.children[n]? with
  | some c => c.reaped
  | none => false

/-! ## Start -/

/-- What the first section of `_start` says. -/
inductive StartOutcome
  | aborted
  | conflict (message : String)
  | idempotent (pid : Nat)
  | spawns
  deriving DecidableEq, Repr

/-- The first section of `_start`; it waits while a spawn is in flight. -/
def startSection (s : ServeManager) (spec : ServeSpec) (auto : Bool) : StartOutcome × ServeManager :=
  if s.shutdownRequested then
    (if auto then .aborted
      else .conflict "daemon shutdown is in progress; new serves are disabled", s)
  else if auto && s.stopRequested then (.aborted, s)
  else
    let s := if auto then s else { s with stopRequested := false }
    match s.child, s.stopping with
    | some n, false =>
        if s.spec = some spec then (.idempotent n, s)
        else (.conflict "serve already running; use switch to replace it", s)
    | _, _ =>
        if auto && s.stopRequested then (.aborted, s)
        else (.spawns, { s with starting := true })

/-- The section of `_start` after the spawn. -/
def attach (s : ServeManager) (spec : ServeSpec) (n : Nat) : ServeManager :=
  { s with
    child := some n
    spec := some spec
    lastExit := none
    stopping := false
    starting := false
    activity := some (.saving spec n) }

/-! ## Accounting -/

/-- `_best_effort_receipt`; none where it raises. -/
def bestEffortReceipt (n : Nat) (model : Option String) (stats : Option AccountingSnapshot)
    (reason : String) (force : Bool) (now : Nat) : Option Receipt :=
  match stats with
  | some t =>
      some ⟨.snapshot n t.hasInstance t.modelId t.promptTokensTotal t.completionTokensTotal, now,
        some t, some t.modelId, false, some reason⟩
  | none =>
      if force then
        some ⟨.identity n, now, none, model, false, some (reason ++ "-stats-unavailable")⟩
      else none

/-- The answer to `prepare_stop`. -/
inductive PrepareAnswer
  | sealed (totals : AccountingSnapshot)
  | unavailable
  | failed
  deriving DecidableEq, Repr

/-- The receipt of `_prepare_and_persist_accounting_locked`; none where it raises. -/
def prepareReceipt (n : Nat) (model : Option String) (answer : PrepareAnswer)
    (stats : Option AccountingSnapshot) (force : Bool) (now : Nat) : Option (ReceiptKind × Receipt) :=
  match answer with
  | .sealed t => some (.sealed, ⟨.instance n, now, some t, some t.modelId, true, none⟩)
  | .unavailable =>
      (bestEffortReceipt n model stats "legacy-engine" force now).map fun r => (.bestEffort, r)
  | .failed =>
      if force then
        (bestEffortReceipt n model stats "prepare-stop-failed" true now).map fun r => (.bestEffort, r)
      else none

/-- `_persist_crash_accounting`: the receipt. -/
def crashReceipt (s : ServeManager) (n : Nat) (wasStopping : Bool) (now : Nat) : Receipt :=
  let snapshot := s.lastAccounting.lookup n
  { receiptId := .crash n
    createdAt := now
    totals := snapshot
    modelId := (snapshot.map AccountingSnapshot.modelId).or (s.spec.map ServeSpec.model)
    drainComplete := false
    reason := some (if wasStopping then "engine-crashed-during-stop" else "engine-crashed") }

/-- The receipt that `AccountingOutbox.persist` returns, and the outbox. -/
def outboxPersist (outbox : List Receipt) (r : Receipt) : Receipt × List Receipt :=
  match outbox.find? fun e => decide (e.receiptId = r.receiptId) with
  | some e => (e, outbox)
  | none => (r, outbox ++ [r])

/-- A receipt of a child reaches the outbox. -/
def persist (s : ServeManager) (n : Nat) (kind : ReceiptKind) (r : Receipt) : ServeManager :=
  { s with
    outbox := (outboxPersist s.outbox r).2
    durableAccounting := n :: s.durableAccounting
    lastAccounting := s.lastAccounting.filter fun p => p.1 ≠ n
    history := s.history ++ [⟨n, kind, (outboxPersist s.outbox r).1⟩] }

/-- `observe_accounting`. -/
def observeAccounting (s : ServeManager) (t : AccountingSnapshot) : ServeManager :=
  match s.child with
  | none => s
  | some n => { s with lastAccounting := (n, t) :: s.lastAccounting.filter fun p => p.1 ≠ n }

/-! ## Stop -/

/-- `_stop` returns to its caller; `switch` goes on with a start. -/
def stopReturns (s : ServeManager) : StopCaller → ServeManager
  | .switch spec => { s with activity := some (.starting spec false) }
  | _ => { s with activity := none }

/-- The first section of `_stop`; it waits while a spawn is in flight. -/
def stopSection (s : ServeManager) (caller : StopCaller) (force : Bool) : ServeManager :=
  let s := { s with stopRequested := true }
  match s.child with
  | none => s.stopReturns caller
  | some n => { s with stopping := true, activity := some (.preparing caller n s.spec force) }

/-- The prepare of a stop with its receipt. -/
def prepareSection (s : ServeManager) (caller : StopCaller) (n : Nat) (spec : Option ServeSpec)
    (force : Bool) (answer : PrepareAnswer) (stats : Option AccountingSnapshot) (now : Nat)
    (writes : Bool) : ServeManager :=
  match prepareReceipt n (spec.map ServeSpec.model) answer stats force now with
  | none => { s with activity := some (.abandoning caller n) }
  | some (kind, r) =>
      if writes then { s.persist n kind r with activity := some (.signalling caller n) }
      else { s with activity := some (.abandoning caller n) }

/-- A signal to a child, or an exception. -/
def signalChild (s : ServeManager) (caller : StopCaller) (n : Nat) (killed sent : Bool) :
    ServeManager :=
  if sent then { s with signals := n :: s.signals, activity := some (.awaiting caller n killed) }
  else { s with activity := some (.abandoning caller n) }

/-- The handlers of an exception in `_stop` and in `shutdown`. -/
def abandonSection (s : ServeManager) (caller : StopCaller) (n : Nat) : ServeManager :=
  let s := if s.child = some n then { s with stopping := false } else s
  match caller with
  | .shutdown => { s with shutdownRequested := false, activity := none }
  | _ => { s with activity := none }

/-! ## Reap -/

/-- The next section of the monitor of a child. -/
def monitorSection (s : ServeManager) (n : Nat) (c : ServeChild) (now : Nat) (writes : Bool) :
    Option ServeManager :=
  let goTo (s : ServeManager) (stage : MonitorStage) : ServeManager :=
    s.update n fun c => { c with monitor := stage }
  match c.monitor with
  | .unwatched | .finished => none
  | .waiting =>
      c.exit.map fun _ =>
        let wasStopping := s.stopping || s.stopRequested
        if s.child = some n then goTo s (.accounting wasStopping)
        else goTo s (.forgetting wasStopping)
  | .accounting wasStopping =>
      if n ∈ s.durableAccounting then some (goTo s (.forgetting wasStopping))
      else if writes then
        some (goTo (s.persist n .crash (s.crashReceipt n wasStopping now)) (.forgetting wasStopping))
      else
        some (s.update n fun c =>
          { c with monitor := .accountingFailed wasStopping, outboxRaised := true })
  | .accountingFailed wasStopping =>
      some (goTo { s with stopRequested := true } (.forgetting wasStopping))
  | .forgetting wasStopping =>
      if s.child = some n then
        let info := if wasStopping then c.exit.map fun e => ⟨e.code, "stopped"⟩ else c.exit
        some (goTo { s with child := none, stopping := false, lastExit := info }
          (.clearing wasStopping))
      else some (goTo s (.setting wasStopping false))
  | .clearing wasStopping => some (goTo { s with file := none } (.setting wasStopping true))
  | .setting wasStopping isCurrent =>
      some (s.update n fun c =>
        { c with reaped := true, monitor := if isCurrent then .deciding wasStopping else .finished })
  | .deciding wasStopping =>
      some (goTo s (if !wasStopping && s.autoRestart && !s.stopRequested then .restarting
        else .finished))
  | .restarting =>
      some (goTo { s with restarts := s.restarts ++ s.spec.toList } .finished)

/-! ## The sections of all threads -/

/-- How a wait for the reaped event ends. -/
inductive WaitOutcome
  | reaped
  | timeout (sent : Bool)
  deriving DecidableEq, Repr

/-- A section that some thread runs next, with what the outside decides. -/
inductive Action
  | callStart (spec : ServeSpec)
  | runRestart (i : Nat)
  | callStop (force : Bool)
  | callShutdown (force : Bool)
  | callSwitch (spec : ServeSpec) (force : Bool)
  | startSection
  | stopSection
  | spawn (ok : Bool)
  | attach
  | save (ok : Bool)
  | watch (ok : Bool)
  | prepare (answer : PrepareAnswer) (stats : Option AccountingSnapshot) (now : Nat) (writes : Bool)
  | signal (sent : Bool)
  | await (outcome : WaitOutcome)
  | abandon
  | exits (n : Nat) (info : ExitInfo)
  | monitor (n : Nat) (now : Nat) (writes : Bool)
  | ack (receiptId : ReceiptId)
  | observe (totals : AccountingSnapshot)

/-- A call that has taken the lifecycle lock. -/
def enter (s : ServeManager) (activity : Activity) : Option ServeManager :=
  if s.activity = none then some { s with activity := some activity } else none

/-- One section of the holder of the lifecycle lock. -/
def activityStep (s : ServeManager) (activity : Activity) : Action → Option ServeManager
  | .startSection =>
      match activity with
      | .starting spec auto =>
          if s.starting then none
          else
            match s.startSection spec auto with
            | (.spawns, s) => some { s with activity := some (.spawning spec) }
            | (_, s) => some { s with activity := none }
      | _ => none
  | .spawn ok =>
      match activity with
      | .spawning spec =>
          if ok then
            some { s with
              children := s.children ++ [{ spec := spec }]
              activity := some (.spawned spec s.children.length) }
          else some { s with starting := false, activity := none }
      | _ => none
  | .attach =>
      match activity with
      | .spawned spec n => some (s.attach spec n)
      | _ => none
  | .save ok =>
      match activity with
      | .saving spec n =>
          if ok then some { s with file := some (n, spec), activity := some (.watching n) }
          else some { s.update n fun c => { c with startRaised := true } with activity := none }
      | _ => none
  | .watch ok =>
      match activity with
      | .watching n =>
          if ok then
            some { s.update n fun c => { c with monitor := .waiting } with activity := none }
          else some { s.update n fun c => { c with startRaised := true } with activity := none }
      | _ => none
  | .stopSection =>
      match activity with
      | .stopping caller force => if s.starting then none else some (s.stopSection caller force)
      | _ => none
  | .prepare answer stats now writes =>
      match activity with
      | .preparing caller n spec force =>
          some (s.prepareSection caller n spec force answer stats now writes)
      | _ => none
  | .signal sent =>
      match activity with
      | .signalling caller n =>
          if s.isReaped n then some (s.stopReturns caller)
          else some (s.signalChild caller n false sent)
      | _ => none
  | .await outcome =>
      match activity with
      | .awaiting caller n killed =>
          match outcome with
          | .reaped => if s.isReaped n then some (s.stopReturns caller) else none
          | .timeout sent =>
              if s.isReaped n then none
              else if killed then some { s with activity := some (.abandoning caller n) }
              else some (s.signalChild caller n true sent)
      | _ => none
  | .abandon =>
      match activity with
      | .abandoning caller n => some (s.abandonSection caller n)
      | _ => none
  | _ => none

/-- One section; none where it cannot run. -/
def step (s : ServeManager) : Action → Option ServeManager
  | .callStart spec => s.enter (.starting spec false)
  | .runRestart i =>
      s.restarts[i]?.bind fun spec =>
        ({ s with restarts := s.restarts.eraseIdx i }).enter (.starting spec true)
  | .callStop force => s.enter (.stopping .stop force)
  | .callShutdown force =>
      (s.enter (.stopping .shutdown force)).map fun s => { s with shutdownRequested := true }
  | .callSwitch spec force => s.enter (.stopping (.switch spec) force)
  | .exits n info => s.children[n]?.bind fun c =>
      if c.exit = none then some (s.update n fun c => { c with exit := some info }) else none
  | .monitor n now writes => s.children[n]?.bind fun c => s.monitorSection n c now writes
  | .ack receiptId => some { s with outbox := s.outbox.filter fun r => r.receiptId ≠ receiptId }
  | .observe totals => some (s.observeAccounting totals)
  | a => s.activity.bind fun activity => s.activityStep activity a

end ServeManager

end FreeToken
