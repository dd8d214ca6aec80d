import FreeToken.Server.Reply

/-!
# The Anthropic event stream

`anthropic_event_stream` writes the generation events as content blocks; a client reads the blocks
back.
-/

set_option autoImplicit false

namespace FreeToken

open BlockStream Generation
open Generator (inOrder Emits)

namespace Anthropic

attribute [local instance] Text.lawfulBEq

/-! ## Frames -/

inductive ContentBlock
  | text
  | thinking
  | toolUse (id : Text) (name : Option Text)
  deriving DecidableEq, Repr

inductive Delta
  | text (text : Text)
  | thinking (thinking : Text)
  | inputJson (partialJson : Text)
  | signature
  deriving DecidableEq, Repr

structure AnthropicUsage where
  inputTokens : Nat
  outputTokens : Nat
  cacheReadInputTokens : Option Nat := none
  deriving DecidableEq, Repr

inductive Frame
  | messageStart (id model : Text) (usage : AnthropicUsage)
  | ping
  | contentBlockStart (index : Nat) (contentBlock : ContentBlock)
  | contentBlockDelta (index : Nat) (delta : Delta)
  | contentBlockStop (index : Nat)
  | messageDelta (stopReason stopSequence : Option Text) (usage : AnthropicUsage)
  | messageStop
  | error (type message : Text)
  deriving DecidableEq, Repr

/-! ## The adapter -/

/-- `STOP_REASON_MAP` -/
def stopReasonMap : List (Text × Text) :=
  [("stop".toList, "end_turn".toList), ("length".toList, "max_tokens".toList),
    ("tool_calls".toList, "tool_use".toList)]

/-- `_anthropic_stop` -/
def anthropicStop (finishReason : Text) (matchedStop : Option Text) : Option Text × Option Text :=
  match matchedStop with
  | some stop => (some "stop_sequence".toList, some stop)
  | none => (stopReasonMap.lookup (orElse finishReason "stop".toList), none)

/-- `_anthropic_usage` -/
def anthropicUsage (promptTokens completionTokens cachedTokens : Nat) (cacheReport : Bool) :
    AnthropicUsage :=
  let cached := if cacheReport then cachedTokens else 0
  ⟨promptTokens - cached, completionTokens, if cached = 0 then none else some cached⟩

/-- `_tool_use_id`, with the random digits given. -/
def toolUseId (hex : Text) (name : Option Text) (index : Nat) : Text :=
  let stem := ((orElse (name.getD []) "tool".toList).map fun c => if c = '_' then '-' else c).take 24
  "toolu_".toList ++ stem ++ '_' :: (Nat.toDigits 10 index ++ '_' :: hex)

/-- What the adapter keeps between events. -/
structure Adapter where
  blockIndex : Nat := 0
  /-- `thinking`, `text` or `tool`. -/
  blockOpen : Option PartKind := none
  toolArgsSent : Text := []
  toolOrdinal : Option Int := none
  toolStable : Bool := true

/-- The request as the adapter reads it, with the random digits of each block's id. -/
structure Setup where
  model : Text
  uid : Nat
  cacheReport : Bool
  hex : Nat → Text

section Adapter

variable (q : Setup) (a : Adapter)

/-- `_stop_block` -/
def stopBlock : Adapter × List Frame :=
  ({ a with blockOpen := none, blockIndex := a.blockIndex + 1 },
    (if a.blockOpen = some .reasoning then [.contentBlockDelta a.blockIndex .signature] else []) ++
      [.contentBlockStop a.blockIndex])

/-- `if block_open: _stop_block()` -/
def stopOpen : Adapter × List Frame := if a.blockOpen.isSome then stopBlock a else (a, [])

/-- The block of a kind of text is open, after another one was stopped. -/
def ensureOpen (kind : PartKind) (block : ContentBlock) : Adapter × List Frame :=
  if a.blockOpen = some kind then (a, [])
  else
    let stopped := stopOpen a
    ({ stopped.1 with blockOpen := some kind },
      stopped.2 ++ [.contentBlockStart stopped.1.blockIndex block])

/-- `_open_tool` -/
def openTool (name : Option Text) (ordinal : Int) (stable : Bool) : Adapter × List Frame :=
  let stopped := stopOpen a
  ({ stopped.1 with
      blockOpen := some .call, toolArgsSent := [], toolOrdinal := some ordinal, toolStable := stable },
    stopped.2 ++ [.contentBlockStart stopped.1.blockIndex
      (.toolUse (toolUseId (q.hex stopped.1.blockIndex) name stopped.1.blockIndex) name)])

/-- `_tool_args_delta` -/
def toolArgsDelta (fragment : Text) : Adapter × List Frame :=
  ({ a with toolArgsSent := a.toolArgsSent ++ fragment },
    [.contentBlockDelta a.blockIndex (.inputJson fragment)])

/-- The rest of the final arguments, if what was sent begins them. -/
def topUpArgs (final : Text) : Adapter × List Frame :=
  if a.toolArgsSent <+: final ∧ final.drop a.toolArgsSent.length ≠ [] then
    toolArgsDelta a (final.drop a.toolArgsSent.length)
  else (a, [])

/-- One call of a `ToolCallsDelta`. -/
def closeCall (call : CallItem) : Adapter × List Frame :=
  if a.blockOpen = some .call ∧ a.toolOrdinal = some call.toolIndex then
    let sent := topUpArgs a call.parameters
    let stopped := stopBlock sent.1
    (stopped.1, sent.2 ++ stopped.2)
  else
    let opened := openTool q a call.name call.toolIndex true
    let sent := toolArgsDelta opened.1 call.parameters
    let stopped := stopBlock sent.1
    (stopped.1, opened.2 ++ sent.2 ++ stopped.2)

/-- The frames of an event. -/
def onEvent : GenEvent → Adapter × List Frame
  | .reasoningDelta text =>
      if text = [] then (a, [])
      else
        let opened := ensureOpen a .reasoning .thinking
        (opened.1, opened.2 ++ [.contentBlockDelta opened.1.blockIndex (.thinking text)])
  | .contentDelta text =>
      if text = [] then (a, [])
      else
        let opened := ensureOpen a .content .text
        (opened.1, opened.2 ++ [.contentBlockDelta opened.1.blockIndex (.text text)])
  | .toolCallStart i name stable => openTool q a name i stable
  | .toolCallArgsDelta _ fragment =>
      if a.blockOpen = some .call ∧ a.toolStable = true then toolArgsDelta a fragment else (a, [])
  | .toolCallsDelta cs => inOrder (closeCall q) a cs
  | .genDone d =>
      let stopped := stopOpen a
      let stop := anthropicStop d.finishReason d.matchedStop
      (stopped.1, stopped.2 ++
        [.messageDelta stop.1 stop.2
          (anthropicUsage d.promptTokens d.completionTokens d.cachedTokens q.cacheReport),
          .messageStop])

def onSignal : Signal → Adapter × List Frame
  | .keepalive => (a, [.ping])
  | .event ev => onEvent q a ev

/-- The frames at the end of the events; an exception becomes an error frame. -/
def onEnd : Except Halt Unit → List Frame
  | .ok () => []
  | .error .waits => []
  | .error (.generationError message _) =>
      (stopOpen a).2 ++ [.error "invalid_request_error".toList message]
  | .error (.exception message) => (stopOpen a).2 ++ [.error "internal_error".toList message]

end Adapter

/-- `anthropic_event_stream` -/
def anthropicEventStream (q : Setup) (src : Generator Signal Halt Unit) : List Frame :=
  let ran := inOrder (onSignal q) {} src.events
  .messageStart ("msg_".toList ++ Nat.toDigits 10 q.uid) q.model ⟨0, 0, none⟩ ::
    (ran.2 ++ onEnd ran.1 src.result)

/-! ## The client -/

/-- How a message ends for a client. -/
inductive Ending
  | stopped (reason stopSequence : Option Text) (usage : AnthropicUsage)
  | failed (type message : Text)
  deriving DecidableEq, Repr

/-- How far a client is: before the message, in it, behind its `message_delta`, at its end. -/
inductive Phase
  | opening
  | reading
  | closing (e : Ending)
  | ended (e : Ending)
  deriving DecidableEq, Repr

structure Client where
  phase : Phase := .opening
  view : View Part := {}

def ContentBlock.part : ContentBlock → Part
  | text => .content []
  | thinking => .reasoning []
  | toolUse _ name => .call name []

/-- A piece for the open block, of the kind of the block. -/
def extend : Part → Delta → Option Part
  | .content before, .text text => some (.content (before ++ text))
  | .reasoning before, .thinking text => some (.reasoning (before ++ text))
  | .reasoning before, .signature => some (.reasoning before)
  | .call name before, .inputJson text => some (.call name (before ++ text))
  | _, _ => none

/-- Read a block frame. -/
def Client.block (c : Client) (frame : BlockStream.Frame Part Delta) : Option Client :=
  (c.view.step extend frame).map fun view => { c with view := view }

/-- Read a frame; none when it may not stand here. -/
def Client.step (c : Client) (frame : Frame) : Option Client :=
  match c.phase, frame with
  | .opening, .messageStart _ _ _ => some { c with phase := .reading }
  | .reading, .ping => some c
  | .reading, .contentBlockStart i b => c.block (.start i b.part)
  | .reading, .contentBlockDelta i d => c.block (.delta i d)
  | .reading, .contentBlockStop i => c.block (.stop i)
  | .reading, .messageDelta reason stopSequence usage =>
      if c.view.current.isNone then some { c with phase := .closing (.stopped reason stopSequence usage) }
      else none
  | .reading, .error type message =>
      if c.view.current.isNone then some { c with phase := .ended (.failed type message) } else none
  | .closing e, .messageStop => some { c with phase := .ended e }
  | _, _ => none

end Anthropic

end FreeToken
