import Mathlib
import FreeToken.Accounting.SchedulerSpec

/-!
# The frontend, the workers and the scheduler together

One action is what one of them does between two waits, in any order.  The queues are reliable and
first-in first-out.  The scheduler sends to worker 0; the frontend may send to any worker, so that an
abort can overtake the prompt of its user.
-/

set_option autoImplicit false

namespace FreeToken

open Machine

/-- The whole; `users` are the users ever admitted, and `received` the replies the frontend has
observed. -/
structure Serving where
  frontend : Frontend
  workers : Nat → Worker := fun _ => {}
  scheduler : SchedulerLoop
  users : List TokenizeMsg := []
  received : List UserReply := []

inductive ServingAction
  | newUser (text : String) (maxTokens : Nat)
  | sendOne (uid i : Nat)
  | abortUser (uid i : Nat)
  | listen (i : Nat)
  | prepareStop
  | sealAccounting
  | drainTimeout
  | prepareAbort (uid i : Nat)
  | prepareRaises
  | takeFrontend (i : Nat)
  | takeScheduler (i : Nat)
  | process (i : Nat)
  | receive (i : Nat)
  | turn (admits : List Admit) (sample : Nat → Sampled)

namespace Serving

/-- An engine that has just started. -/
def start (maintenanceState : MaintenanceState) (maxSeqLen : Nat) : Serving where
  frontend := { maintenanceState := maintenanceState }
  scheduler := { maxSeqLen := maxSeqLen }

def setWorker (s : Serving) (i : Nat) (w : Worker) : Serving :=
  { s with workers := Function.update s.workers i w }

/-- The frontend sends a message to a worker. -/
def toWorker (s : Serving) (i : Nat) (msg : RequestMsg) : Serving :=
  s.setWorker i { s.workers i with fromFrontend := (s.workers i).fromFrontend ++ [msg] }

/-- `send_result`. -/
def sendResult (s : Serving) (msgs : List GenerationMsg) : Serving :=
  { s.setWorker 0 { s.workers 0 with fromScheduler := (s.workers 0).fromScheduler ++ msgs } with
    scheduler := s.scheduler.sends msgs }

/-- The frontend observes the next reply of a worker. -/
def listen (s : Serving) (i : Nat) : Option Serving :=
  match (s.workers i).toFrontend with
  | [] => none
  | reply :: rest =>
      some { s.setWorker i { s.workers i with toFrontend := rest } with
        frontend := s.frontend.listen reply
        received := s.received ++ [reply] }

/-- The scheduler processes the next message of a worker. -/
def receive (s : Serving) (i : Nat) : Option Serving :=
  match (s.workers i).toBackend with
  | [] => none
  | msg :: rest =>
      some (sendResult
        { s.setWorker i { s.workers i with toBackend := rest } with
          scheduler := (s.scheduler.processOneMsg msg).1 }
        (s.scheduler.processOneMsg msg).2)

/-- A turn of the scheduler behind its messages. -/
def turn (overlap : Bool) (s : Serving) (admits : List Admit) (sample : Nat → Sampled) : Serving :=
  sendResult { s with scheduler := (s.scheduler.turn overlap admits sample).1 }
    (s.scheduler.turn overlap admits sample).2

def step (tokenizer : Tokenizer) (overlap : Bool) (s : Serving) : ServingAction → Option Serving
  | .newUser text maxTokens =>
      (s.frontend.newUser text maxTokens).map fun f =>
        { s with frontend := f, users := s.users ++ [⟨s.frontend.uidCounter, text, maxTokens⟩] }
  | .sendOne uid i =>
      (s.frontend.sendOne uid).map fun sent =>
        { s with frontend := sent.2 }.toWorker i (.tokenize sent.1)
  | .abortUser uid i =>
      -- only an admitted user disconnects
      if uid < s.frontend.uidCounter then
        some ({ s with frontend := s.frontend.abortUser uid }.toWorker i (.abort uid))
      else none
  | .listen i => s.listen i
  | .prepareStop =>
      -- the lock is free
      if s.frontend.prepare = .idle then some { s with frontend := s.frontend.prepareStop } else none
  | .sealAccounting =>
      -- both waits end so
      if (s.frontend.prepare = .draining ∨ s.frontend.prepare = .waiting) ∧
          s.frontend.stats.active = 0 then
        some { s with frontend := s.frontend.sealAccounting }
      else none
  | .drainTimeout =>
      if s.frontend.prepare = .draining then
        some { s with frontend := s.frontend.drainTimeout }
      else none
  | .prepareAbort uid i =>
      match s.frontend.prepare with
      | .aborting uids =>
          if uid ∈ uids then
            some ({ s with frontend := (s.frontend.abortUser uid).abortSent uids uid }.toWorker i
              (.abort uid))
          else none
      | _ => none
  | .prepareRaises =>
      -- the transport of an abort fails, or the second wait times out
      match s.frontend.prepare with
      | .idle => none
      | .draining => none
      | .aborting _ => some { s with frontend := { s.frontend with prepare := .idle } }
      | .waiting => some { s with frontend := { s.frontend with prepare := .idle } }
  | .takeFrontend i => (s.workers i).takeFrontend.map fun w => s.setWorker i w
  | .takeScheduler i => (s.workers i).takeScheduler.map fun w => s.setWorker i w
  | .process i => some (s.setWorker i ((s.workers i).process tokenizer))
  | .receive i => s.receive i
  | .turn admits sample => some (s.turn overlap admits sample)

/-- The abort that an action hands to the scheduler. -/
def abortTaken (s : Serving) : ServingAction → Option Nat
  | .receive i =>
      match (s.workers i).toBackend with
      | .abort uid :: _ => some uid
      | _ => none
  | _ => none

/-- The abort that the scheduler takes leaves its tombstones within their bound. -/
def TombstonesBounded (s : Serving) (a : ServingAction) : Prop :=
  ∀ uid, s.abortTaken a = some uid → uid ∈ s.scheduler.abortTombstones ∨
    s.scheduler.abortTombstones.length < SchedulerLoop.maxTombstones

instance (s : Serving) (a : ServingAction) : Decidable (s.TombstonesBounded a) :=
  match h : s.abortTaken a with
  | none => isTrue fun uid huid => by rw [h] at huid; cases huid
  | some uid =>
      if hb : uid ∈ s.scheduler.abortTombstones ∨
          s.scheduler.abortTombstones.length < SchedulerLoop.maxTombstones then
        isTrue fun v hv => by rw [h] at hv; cases hv; exact hb
      else isFalse fun hall => hb (hall uid h)

end Serving

/-! ## Exact and final totals -/

namespace UserReply

def isAdmission (reply : UserReply) : Bool := decide (0 < reply.promptTokensDelta)

def isSample (reply : UserReply) : Bool := decide (0 < reply.completionTokensDelta)

end UserReply

namespace Worker

/-- The replies that the worker still has for the frontend, in the order of their arrival. -/
def delivery (w : Worker) : List UserReply :=
  w.toFrontend ++ (w.generation ++ w.fromScheduler).map GenerationMsg.reply

end Worker

namespace Serving

/-- The prompts that a list of replies adds to the total, with their users. -/
def admissions (replies : List UserReply) : List (Nat × Nat) :=
  (replies.filter UserReply.isAdmission).map fun reply => (reply.uid, reply.promptTokensDelta)

/-- The length of an admitted user's prompt. -/
def PromptLength (tokenizer : Tokenizer) (s : Serving) (uid inputLen : Nat) : Prop :=
  ∃ msg ∈ s.users, msg.uid = uid ∧ ∃ tokens,
    tokenizer msg.text = .ok tokens ∧ tokens ≠ [] ∧ tokens.length = inputLen

/-- The totals are exact: the prompts are those of the first chunks, the completions those of the
sampled tokens, each received once or still on its way. -/
structure Exact (tokenizer : Tokenizer) (s : Serving) : Prop where
  promptTotal : s.frontend.stats.promptTokensTotal = ((admissions s.received).map Prod.snd).sum
  prompts : (admissions s.received ++ admissions (s.workers 0).delivery).Perm
    (firstChunks s.scheduler.chunks)
  once : ((admissions s.received).map Prod.fst).Nodup
  lengths : ∀ c ∈ s.scheduler.chunks, s.PromptLength tokenizer c.1 c.2
  completionTotal : s.frontend.stats.completionTokensTotal
    = (s.received.filter UserReply.isSample).length
  completions :
    (s.received.filter UserReply.isSample ++ (s.workers 0).delivery.filter UserReply.isSample).Perm
      ((s.scheduler.sent.filter GenerationMsg.isSampled).map GenerationMsg.reply)

/-- The accounting is final: the snapshot, its totals and the number of users stay. -/
structure Final (snapshot : SealedAccounting) (users : Nat) (s : Serving) : Prop where
  promptTotal : s.frontend.stats.promptTokensTotal = snapshot.promptTokensTotal
  completionTotal : s.frontend.stats.completionTokensTotal = snapshot.completionTokensTotal
  users : s.frontend.uidCounter = users
  returned : ∀ returned ∈ s.frontend.returned, returned = snapshot

end Serving

end FreeToken
