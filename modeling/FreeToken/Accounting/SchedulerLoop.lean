import FreeToken.Accounting.TokenizeWorker

/-!
# The scheduler's loop

What the scheduler does with its messages, its batches and its abort acknowledgements, as far as it
decides what is sent.  Which pending requests a prefill takes, and whether as a chunk, is what the
caches decide; what is sampled is what the model decides.  A request is its uid.
-/

set_option autoImplicit false

namespace FreeToken

/-- A request that waits for its prefill; `chunked` says that a chunk of it was scheduled. -/
structure WaitingReq where
  uid : Nat
  inputLen : Nat
  outputLen : Nat
  chunked : Bool := false
  deriving DecidableEq, Repr

/-- A request in a batch. -/
structure BatchReq where
  uid : Nat
  chunked : Bool
  aborted : Bool := false
  deriving DecidableEq, Repr

/-- Whether a prefill takes the next pending request as a chunk, and its hit in the prefix cache. -/
structure Admit where
  chunked : Bool
  cachedLen : Nat
  deriving DecidableEq, Repr

/-- What is sampled for a request, and whether it is an end of sequence or completes a stop string. -/
structure Sampled where
  nextToken : TokenId
  stops : Bool
  deriving DecidableEq, Repr

/-- The first chunk of each prompt. -/
def firstChunks : List (Nat × Nat) → List (Nat × Nat)
  | [] => []
  | c :: rest => c :: (firstChunks rest).filter fun d => d.1 ≠ c.1

/-- The scheduler; `remain` is the output budget that is left to a request, `sent` what it has sent,
and `chunks` the prompts of the prefill chunks it has scheduled, with their lengths. -/
structure SchedulerLoop where
  maxSeqLen : Nat
  pendingList : List WaitingReq := []
  runningReqs : List Nat := []
  remain : Nat → Nat := fun _ => 0
  lastData : List BatchReq := []
  finishedReqs : List Nat := []
  abortTombstones : List Nat := []
  pendingAbortAcks : List Nat := []
  sent : List GenerationMsg := []
  chunks : List (Nat × Nat) := []

namespace SchedulerLoop

def maxTombstones : Nat := 65536

/-! ## Messages -/

def promptTooLong (inputLen maxSeqLen : Nat) : String :=
  "prompt is too long: " ++ toString inputLen ++ " tokens > " ++ toString maxSeqLen ++
    " maximum (prompt + generation); shorten the prompt or increase the KV cache budget"

/-- `_process_one_msg` for a user message, with what it sends. -/
def processUser (s : SchedulerLoop) (uid inputLen maxTokens : Nat) :
    SchedulerLoop × List GenerationMsg :=
  if uid ∈ s.abortTombstones then
    -- its abort arrived before it
    ({ s with abortTombstones := s.abortTombstones.filter fun v => v ≠ uid }, [])
  else if s.maxSeqLen ≤ inputLen then
    (s, [.errorReply uid (promptTooLong inputLen s.maxSeqLen) (some "context_length_exceeded")])
  else
    ({ s with pendingList := s.pendingList ++
        [{ uid := uid, inputLen := inputLen, outputLen := min maxTokens (s.maxSeqLen - inputLen) }] },
      [])

/-- The oldest tombstones go until the bound is met. -/
def dropOldest : List Nat → List Nat
  | [] => []
  | oldest :: rest =>
      if maxTombstones < (oldest :: rest).length then dropOldest rest else oldest :: rest

/-- `tombstones[uid] = None` and the bound on their number. -/
def addTombstone (tombstones : List Nat) (uid : Nat) : List Nat :=
  dropOldest (if uid ∈ tombstones then tombstones else tombstones ++ [uid])

/-- The first pending request of the user is dropped; `chunked` says whether it had a chunk. -/
def popPending (uid : Nat) : List WaitingReq → Option (Bool × List WaitingReq)
  | [] => none
  | p :: rest =>
      if p.uid = uid then some (p.chunked, rest)
      else (popPending uid rest).map fun found => (found.1, p :: found.2)

/-- A request whose forward is in flight is marked. -/
def markAborted (uid : Nat) (batch : List BatchReq) : List BatchReq :=
  batch.map fun r => if r.uid = uid then { r with aborted := true } else r

/-- `_process_one_msg` for an abort: the request to free is one with a chunk or a running one. -/
def processAbort (s : SchedulerLoop) (uid : Nat) : SchedulerLoop :=
  let s := { s with
    abortTombstones := addTombstone s.abortTombstones uid
    pendingAbortAcks := s.pendingAbortAcks.insert uid }
  match popPending uid s.pendingList with
  | some (true, rest) =>
      { s with pendingList := rest, lastData := markAborted uid s.lastData }
  | found =>
      -- a pending request without a chunk frees nothing, and the running ones are asked
      let s := match found with
        | some (_, rest) => { s with pendingList := rest }
        | none => s
      if uid ∈ s.runningReqs then
        { s with
          runningReqs := s.runningReqs.filter fun v => v ≠ uid
          lastData := markAborted uid s.lastData }
      else s

def processOneMsg (s : SchedulerLoop) : BackendMsg → SchedulerLoop × List GenerationMsg
  | .user uid inputIds maxTokens => s.processUser uid inputIds.length maxTokens
  | .abort uid => (s.processAbort uid, [])

/-! ## Batches -/

/-- The requests of a prefill batch, each with its place in the pending list and its admission. -/
def taken (s : SchedulerLoop) (admits : List Admit) : List (WaitingReq × Admit) :=
  s.pendingList.zip admits

/-- `PrefillManager.schedule_next_batch`: a prefix of the pending list. -/
def schedulePrefill (s : SchedulerLoop) (admits : List Admit) :
    SchedulerLoop × List BatchReq × List GenerationMsg :=
  let batch := s.taken admits
  let chunkedList := batch.filterMap fun p =>
    if p.2.chunked then some { p.1 with chunked := true } else none
  -- only a request without a chunk so far is reported
  let admissions := batch.filterMap fun p =>
    if p.1.chunked then none else some (.promptAdmitted p.1.uid p.1.inputLen p.2.cachedLen)
  ({ s with
      pendingList := chunkedList ++ s.pendingList.drop batch.length
      remain := fun uid =>
        match batch.find? fun p => p.1.uid = uid with
        | some p => if p.2.chunked then s.remain uid else p.1.outputLen
        | none => s.remain uid
      chunks := s.chunks ++ batch.map fun p => (p.1.uid, p.1.inputLen) },
    batch.map fun p => { uid := p.1.uid, chunked := p.2.chunked }, admissions)

/-- `_schedule_next_batch`: a prefill where one can be taken, else a decode. -/
def scheduleNextBatch (s : SchedulerLoop) (admits : List Admit) :
    SchedulerLoop × List BatchReq × List GenerationMsg :=
  match s.taken admits with
  | [] => (s, (s.runningReqs.insertionSort (· ≤ ·)).map fun uid => { uid := uid, chunked := false },
      [])
  | _ => s.schedulePrefill admits

/-- `_forward`: the requests advance by one token, and those that can decode run on. -/
def forward (s : SchedulerLoop) (batch : List BatchReq) : SchedulerLoop :=
  let sampledUids := (batch.filter fun r => !r.chunked).map BatchReq.uid
  let remain := fun uid => if uid ∈ sampledUids then s.remain uid - 1 else s.remain uid
  { s with
    remain := remain
    runningReqs := (sampledUids.foldl (fun uids uid => uids.insert uid) s.runningReqs).filter
      fun uid => 0 < remain uid }

/-- `_process_last_data` for one request. -/
def drainReq (sample : Nat → Sampled) (s : SchedulerLoop × List Nat × List GenerationMsg)
    (r : BatchReq) : SchedulerLoop × List Nat × List GenerationMsg :=
  let (s, finished, reply) := s
  let remove := { s with runningReqs := s.runningReqs.filter fun v => v ≠ r.uid }
  if r.chunked then (s, finished, reply)
  else if r.aborted then (remove, finished ++ [r.uid], reply)
  else if r.uid ∈ s.finishedReqs then (s, finished, reply)
  else
    let ends := s.remain r.uid = 0 ∨ (sample r.uid).stops
    let reply := reply ++ [.detokenize r.uid (sample r.uid).nextToken (decide ends)]
    if ends then (remove, finished ++ [r.uid], reply) else (s, finished, reply)

/-- `_process_last_data`; a loop without a last batch leaves everything. -/
def processLastData (s : SchedulerLoop) (sample : Nat → Sampled) (batch : List BatchReq) :
    SchedulerLoop × List GenerationMsg :=
  if batch = [] then (s, [])
  else
    let (s, finished, reply) := batch.foldl (drainReq sample) (s, [], [])
    ({ s with finishedReqs := finished }, reply)

/-- `_flush_abort_acks`. -/
def flushAbortAcks (s : SchedulerLoop) : SchedulerLoop × List GenerationMsg :=
  ({ s with pendingAbortAcks := [] },
    (s.pendingAbortAcks.insertionSort (· ≤ ·)).map fun uid =>
      .errorReply uid "request aborted" none)

/-- What is sent, in order. -/
def sends (s : SchedulerLoop) (msgs : List GenerationMsg) : SchedulerLoop :=
  { s with sent := s.sent ++ msgs }

/-- A turn of `overlap_loop` behind its messages. -/
def overlapTurn (s : SchedulerLoop) (admits : List Admit) (sample : Nat → Sampled) :
    SchedulerLoop × List GenerationMsg :=
  let last := s.lastData
  let (s, batch, admissions) := s.scheduleNextBatch admits
  let s := s.forward batch
  let (s, reply) := s.processLastData sample last
  let (s, acks) := s.flushAbortAcks
  ({ s with lastData := batch }, admissions ++ reply ++ acks)

/-- A turn of `normal_loop` behind its messages. -/
def normalTurn (s : SchedulerLoop) (admits : List Admit) (sample : Nat → Sampled) :
    SchedulerLoop × List GenerationMsg :=
  let (s, batch, admissions) := s.scheduleNextBatch admits
  let s := s.forward batch
  let (s, reply) := s.processLastData sample batch
  let (s, acks) := s.flushAbortAcks
  (s, admissions ++ reply ++ acks)

/-- A turn of the loop that `run_forever` has chosen. -/
def turn (overlap : Bool) (s : SchedulerLoop) (admits : List Admit) (sample : Nat → Sampled) :
    SchedulerLoop × List GenerationMsg :=
  if overlap then s.overlapTurn admits sample else s.normalTurn admits sample

end SchedulerLoop

end FreeToken
