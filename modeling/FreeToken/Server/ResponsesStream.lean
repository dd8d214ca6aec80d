import FreeToken.Server.Reply

/-!
# The Responses event stream

`responses_stream_generator` writes the generation events as output items, each frame with the next
sequence number; a client checks the numbers and what the frames repeat.
-/

set_option autoImplicit false

namespace FreeToken

open Generation
open Generator (inOrder Emits)

namespace Responses

attribute [local instance] Text.lawfulBEq

/-! ## Frames -/

inductive Status
  | inProgress
  | completed
  | incomplete
  deriving DecidableEq, Repr

/-- An output item with its text or arguments. -/
inductive Item
  | reasoning (id text : Text) (status : Status)
  | message (id text : Text) (status : Status)
  | functionCall (id callId name args : Text) (status : Status)
  deriving DecidableEq, Repr

structure ResponseUsage where
  inputTokens : Nat
  outputTokens : Nat
  totalTokens : Nat
  cachedTokens : Nat
  deriving DecidableEq, Repr

/-- The end of a response: `completed`, `incomplete` for its reason, or `failed` with an error. -/
inductive Outcome
  | completed
  | incomplete (reason : Text)
  | failed (code message : Text)
  deriving DecidableEq, Repr

/-- What a frame carries beside its sequence number. -/
inductive Body
  | created
  | inProgress (output : List Item)
  | outputItemAdded (outputIndex : Nat) (item : Item)
  | contentPartAdded (itemId : Text) (outputIndex : Nat)
  | reasoningTextDelta (itemId : Text) (outputIndex : Nat) (delta : Text)
  | outputTextDelta (itemId : Text) (outputIndex : Nat) (delta : Text)
  | functionCallArgumentsDelta (itemId : Text) (outputIndex : Nat) (delta : Text)
  | reasoningTextDone (itemId : Text) (outputIndex : Nat) (text : Text)
  | outputTextDone (itemId : Text) (outputIndex : Nat) (text : Text)
  | contentPartDone (itemId : Text) (outputIndex : Nat) (text : Text)
  | functionCallArgumentsDone (itemId : Text) (outputIndex : Nat) (name arguments : Text)
  | outputItemDone (outputIndex : Nat) (item : Item)
  | terminal (outcome : Outcome) (output : List Item) (usage : ResponseUsage)
  deriving DecidableEq, Repr

structure Frame where
  sequenceNumber : Nat
  body : Body
  deriving DecidableEq, Repr

/-! ## The adapter -/

/-- The item that is being written. -/
inductive Current
  | reasoning (id text : Text)
  | message (id text : Text)
  | functionCall (id callId name args : Text) (ordinal : Int)
  deriving DecidableEq, Repr

/-- The item with the status it has when it is added or done. -/
def Current.item (status : Status) : Current → Item
  | reasoning id text => .reasoning id text status
  | message id text => .message id text status
  | functionCall id callId name args _ => .functionCall id callId name args status

/-- What the adapter keeps between events; `seq` is the next sequence number. -/
structure Adapter where
  seq : Nat := 0
  outputItems : List Item := []
  outputIndex : Nat := 0
  current : Option Current := none
  finishReason : Text := "stop".toList

/-- The request as the adapter reads it, with the random digits of each item's ids. -/
structure Setup where
  cacheReport : Bool
  hex : Nat → Text
  callHex : Nat → Text

/-- `_usage` -/
def usageOf (promptTokens completionTokens cachedTokens : Nat) : ResponseUsage :=
  ⟨promptTokens, completionTokens, promptTokens + completionTokens, cachedTokens⟩

section Adapter

variable (q : Setup) (a : Adapter)

/-- Frames with the next sequence numbers. -/
def sse (bodies : List Body) : Adapter × List Frame :=
  ({ a with seq := a.seq + bodies.length },
    (bodies.zipIdx a.seq).map fun p => ⟨p.2, p.1⟩)

/-- The frames before the last one of an item, and the item as it is done. -/
def doneFrames (i : Nat) : Current → List Body
  | .reasoning id text => [.reasoningTextDone id i text]
  | .message id text => [.outputTextDone id i text, .contentPartDone id i text]
  | .functionCall id _ name args _ => [.functionCallArgumentsDone id i name args]

/-- Only a message that was cut short is not complete. -/
def doneStatus (finishReason : Text) : Current → Status
  | .message _ _ => if finishReason = lengthReason then .incomplete else .completed
  | _ => .completed

/-- `close_current` -/
def closeCurrent : Adapter × List Frame :=
  match a.current with
  | none => (a, [])
  | some cur =>
      let item := cur.item (doneStatus a.finishReason cur)
      sse { a with
          outputItems := a.outputItems ++ [item]
          outputIndex := a.outputIndex + 1
          current := none }
        (doneFrames a.outputIndex cur ++ [.outputItemDone a.outputIndex item])

/-- A new item, after the one before was closed. -/
def openItem (cur : Nat → Current) (more : Nat → List Body) : Adapter × List Frame :=
  let closed := closeCurrent a
  let i := closed.1.outputIndex
  let added := sse { closed.1 with current := some (cur i) }
    (.outputItemAdded i ((cur i).item .inProgress) :: more i)
  (added.1, closed.2 ++ added.2)

/-- `open_function_call` -/
def openFunctionCall (name : Text) (ordinal : Int) : Adapter × List Frame :=
  openItem a (fun i => .functionCall ("fc_".toList ++ q.hex i) ("call_".toList ++ (q.callHex i).take 24)
    name [] ordinal) fun _ => []

def openReasoning : Adapter × List Frame :=
  match a.current with
  | some (.reasoning _ _) => (a, [])
  | _ => openItem a (fun i => .reasoning ("rs_".toList ++ q.hex i) []) fun _ => []

def openMessage : Adapter × List Frame :=
  match a.current with
  | some (.message _ _) => (a, [])
  | _ => openItem a (fun i => .message ("msg_".toList ++ q.hex i) [])
      fun i => [.contentPartAdded ("msg_".toList ++ q.hex i) i]

/-- Text for the current item. -/
def addText (text : Text) : Adapter × List Frame :=
  match a.current with
  | some (.reasoning id before) =>
      sse { a with current := some (.reasoning id (before ++ text)) }
        [.reasoningTextDelta id a.outputIndex text]
  | some (.message id before) =>
      sse { a with current := some (.message id (before ++ text)) }
        [.outputTextDelta id a.outputIndex text]
  | _ => (a, [])

/-- A fragment for the current call, which it is added to. -/
def addArgs (fragment : Text) : Adapter × List Frame :=
  match a.current with
  | some (.functionCall id callId name args ordinal) =>
      sse { a with current := some (.functionCall id callId name (args ++ fragment) ordinal) }
        [.functionCallArgumentsDelta id a.outputIndex fragment]
  | _ => (a, [])

/-- The rest of the final arguments is sent, if what was sent begins them; then they are the call's. -/
def finishArgs (final : Text) : Adapter × List Frame :=
  match a.current with
  | some (.functionCall id callId name args ordinal) =>
      sse { a with current := some (.functionCall id callId name final ordinal) }
        (if args <+: final ∧ final.drop args.length ≠ [] then
          [.functionCallArgumentsDelta id a.outputIndex (final.drop args.length)]
        else [])
  | _ => (a, [])

/-- The call of the index is open. -/
def isOpen (toolIndex : Int) : Bool :=
  match a.current with
  | some (.functionCall _ _ _ _ ordinal) => decide (ordinal = toolIndex)
  | _ => false

/-- One call of a `ToolCallsDelta`. -/
def closeCall (call : CallItem) : Adapter × List Frame :=
  if isOpen a call.toolIndex then
    let sent := finishArgs a call.parameters
    let closed := closeCurrent sent.1
    (closed.1, sent.2 ++ closed.2)
  else
    let opened := openFunctionCall q a (call.name.getD []) call.toolIndex
    let sent := addArgs opened.1 call.parameters
    let closed := closeCurrent sent.1
    (closed.1, opened.2 ++ sent.2 ++ closed.2)

/-- The frames of an event. -/
def onEvent : GenEvent → Adapter × List Frame
  | .reasoningDelta text =>
      if text = [] then (a, [])
      else
        let opened := openReasoning q a
        let added := addText opened.1 text
        (added.1, opened.2 ++ added.2)
  | .contentDelta text =>
      if text = [] then (a, [])
      else
        let opened := openMessage q a
        let added := addText opened.1 text
        (added.1, opened.2 ++ added.2)
  | .toolCallStart i name _ => openFunctionCall q a (name.getD []) i
  | .toolCallArgsDelta _ fragment => addArgs a fragment
  | .toolCallsDelta cs => inOrder (closeCall q) a cs
  | .genDone d =>
      let closed := closeCurrent { a with finishReason := d.finishReason }
      let usage := usageOf d.promptTokens d.completionTokens (if q.cacheReport then d.cachedTokens else 0)
      let outcome := if d.finishReason = lengthReason then
        Outcome.incomplete "max_output_tokens".toList else .completed
      let ended := sse closed.1 [.terminal outcome closed.1.outputItems usage]
      (ended.1, closed.2 ++ ended.2)

def onSignal : Signal → Adapter × List Frame
  | .keepalive => sse a [.inProgress a.outputItems]
  | .event ev => onEvent q a ev

/-- The response fails with the items that were written. -/
def fail (code message : Text) : List Frame :=
  let closed := closeCurrent a
  closed.2 ++ (sse closed.1 [.terminal (.failed code message) closed.1.outputItems (usageOf 0 0 0)]).2

/-- The frames at the end of the events. -/
def onEnd : Except Halt Unit → List Frame
  | .ok () => []
  | .error .waits => []
  | .error (.generationError message code) =>
      fail a (orElse (code.getD []) "server_error".toList) message
  | .error (.exception message) => fail a "server_error".toList message

end Adapter

/-- `responses_stream_generator` -/
def responsesStreamGenerator (q : Setup) (src : Generator Signal Halt Unit) : List Frame :=
  let opened := sse {} [.created, .inProgress []]
  let ran := inOrder (onSignal q) opened.1 src.events
  opened.2 ++ (ran.2 ++ onEnd ran.1 src.result)

/-! ## The client -/

/-- How far the current item is: added, ready for text, its text done, ready to be done. -/
inductive Stage
  | bare
  | ready
  | texted
  | finished
  deriving DecidableEq, Repr

inductive Phase
  | opening
  | created
  | reading
  | ended (outcome : Outcome) (usage : ResponseUsage)
  deriving DecidableEq, Repr

/-- What a client has read. -/
structure Response where
  phase : Phase := .opening
  items : List Item := []
  current : Option (Item × Stage) := none
  deriving DecidableEq, Repr

structure Client where
  seq : Nat := 0
  response : Response := {}

def Item.id : Item → Text
  | reasoning id _ _ => id
  | message id _ _ => id
  | functionCall id _ _ _ _ => id

/-- The stage an item has when it is added empty. -/
def Item.added : Item → Option Stage
  | reasoning _ text .inProgress => if text = [] then some .ready else none
  | message _ text .inProgress => if text = [] then some .bare else none
  | functionCall _ _ _ args .inProgress => if args = [] then some .ready else none
  | _ => none

/-- The item with another status. -/
def Item.withStatus (status : Status) : Item → Item
  | reasoning id text _ => .reasoning id text status
  | message id text _ => .message id text status
  | functionCall id callId name args _ => .functionCall id callId name args status

namespace Response

/-- A frame about the current item, for its id and place. -/
def onCurrent (k : Response) (itemId : Text) (outputIndex : Nat)
    (f : Item × Stage → Option (Item × Stage)) : Option Response :=
  if outputIndex = k.items.length then
    k.current.bind fun cur =>
      if cur.1.id = itemId then (f cur).map fun cur => { k with current := some cur } else none
  else none

/-- Read a frame while the response is in progress. -/
def stepReading (k : Response) : Body → Option Response
  | .inProgress output => if output = k.items then some k else none
  | .outputItemAdded i item =>
      if k.current = none ∧ i = k.items.length then
        item.added.map fun stage => { k with current := some (item, stage) }
      else none
  | .contentPartAdded id i => k.onCurrent id i fun
      | (.message id text status, .bare) => some (.message id text status, .ready)
      | _ => none
  | .reasoningTextDelta id i delta => k.onCurrent id i fun
      | (.reasoning id text status, .ready) => some (.reasoning id (text ++ delta) status, .ready)
      | _ => none
  | .outputTextDelta id i delta => k.onCurrent id i fun
      | (.message id text status, .ready) => some (.message id (text ++ delta) status, .ready)
      | _ => none
  | .functionCallArgumentsDelta id i delta => k.onCurrent id i fun
      | (.functionCall id callId name args status, .ready) =>
          some (.functionCall id callId name (args ++ delta) status, .ready)
      | _ => none
  | .reasoningTextDone id i done => k.onCurrent id i fun
      | (.reasoning id text status, .ready) =>
          if done = text then some (.reasoning id text status, .finished) else none
      | _ => none
  | .outputTextDone id i done => k.onCurrent id i fun
      | (.message id text status, .ready) =>
          if done = text then some (.message id text status, .texted) else none
      | _ => none
  | .contentPartDone id i done => k.onCurrent id i fun
      | (.message id text status, .texted) =>
          if done = text then some (.message id text status, .finished) else none
      | _ => none
  -- the fragments may differ from the arguments, but they do not stop short of them
  | .functionCallArgumentsDone id i name' done => k.onCurrent id i fun
      | (.functionCall id callId name args status, .ready) =>
          if name' = name ∧ (args <+: done → args = done) then
            some (.functionCall id callId name done status, .finished)
          else none
      | _ => none
  | .outputItemDone i item =>
      match k.current with
      | some (cur, .finished) =>
          if i = k.items.length ∧ item.withStatus .inProgress = cur ∧ item ≠ cur then
            some { k with items := k.items ++ [item], current := none }
          else none
      | _ => none
  | .terminal outcome output usage =>
      if k.current = none ∧ output = k.items then some { k with phase := .ended outcome usage }
      else none
  | .created => none

/-- Read a frame; none when it may not stand here. -/
def step (k : Response) (body : Body) : Option Response :=
  match k.phase, body with
  | .opening, .created => some { k with phase := .created }
  | .created, .inProgress [] => some { k with phase := .reading }
  | .reading, body => k.stepReading body
  | _, _ => none

end Response

/-- Read a frame with the next sequence number. -/
def Client.step (c : Client) (frame : Frame) : Option Client :=
  if frame.sequenceNumber = c.seq then
    (c.response.step frame.body).map fun response => ⟨c.seq + 1, response⟩
  else none

end Responses

end FreeToken
