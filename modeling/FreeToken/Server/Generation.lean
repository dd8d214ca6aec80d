import FreeToken.Lib.Generator
import FreeToken.Server.FunctionCallParser

/-!
# The generation core

`_generate_events_impl` turns the replies of the engine into events that every wire protocol formats.
The detector of tool calls and the reasoning parser are parameters: what holds of the events holds for
any of them.
-/

set_option autoImplicit false

namespace FreeToken

open Search Text

namespace Generation

open Generator (inOrder)

attribute [local instance] Text.lawfulBEq

/-- Why a generator has not ended by itself: it waits for a reply, or an exception went through. -/
inductive Halt
  | waits
  | generationError (message : Text) (code : Option Text)
  | exception (message : Text)
  deriving DecidableEq, Repr

/-- A call as the server passes it on; the index of a call that was parsed in one go can be `-1`. -/
structure CallItem where
  toolIndex : Int
  name : Option Text
  parameters : Text
  deriving DecidableEq, Repr

structure GenDone where
  finishReason : Text
  promptTokens : Nat
  completionTokens : Nat
  matchedStop : Option Text
  cachedTokens : Nat
  deriving DecidableEq, Repr

inductive GenEvent
  | reasoningDelta (text : Text)
  | contentDelta (text : Text)
  | toolCallStart (toolIndex : Int) (name : Option Text) (argsPrefixStable : Bool)
  | toolCallArgsDelta (toolIndex : Int) (fragment : Text)
  | toolCallsDelta (calls : List CallItem)
  | genDone (d : GenDone)
  deriving DecidableEq, Repr

/-- What the engine sends for a request. -/
structure UserReply where
  incrementalOutput : Text
  finished : Bool
  promptTokensDelta : Nat := 0
  completionTokensDelta : Nat := 0
  cachedTokens : Nat := 0
  finishReason : Option Text := none
  matchedStop : Option Text := none
  error : Option Text := none
  errorCode : Option Text := none

/-! ## The parsers -/

structure ParseResult where
  normalText : Text := []
  calls : List CallItem := []

/-- What `FunctionCallParser` uses of a detector; `σ` is the detector's state. -/
structure Detector (σ : Type) where
  supportsStreaming : Bool
  argsFragmentsPrefixStable : Bool
  eotToken : Text
  blockCloseTokens : List Text
  hasToolCall : σ → Text → Bool
  detectAndParse : List Tool → σ → Text → σ × Except Halt ParseResult
  parseStreamingIncrement : List Tool → σ → Text → Except Halt (σ × ParseResult)
  finalizeStreaming : Option (σ → Except Halt (σ × List CallItem))
  finishStreaming : σ → Except Halt (σ × Text)
  buffer : σ → Text
  clearBuffer : σ → σ
  /-- The `arguments` of each entry of `prev_tool_call_arr`. -/
  prevToolCallArr : σ → List (Option Json)

/-- A piece of `parse_stream_events`. -/
inductive Segment
  | text (payload : Text)
  | calls (payload : List CallItem)
  deriving DecidableEq, Repr

structure FunctionCallParser (σ : Type) where
  detector : Detector σ
  tools : List Tool
  /-- `json.dumps(args, ensure_ascii=False)`. -/
  dumps : Json → Text

/-- `text.rfind(tok)`. -/
def rfind (tok text : Text) : Option Nat :=
  (List.range (text.length + 1)).reverse.find? fun i => tok.isPrefixOf (text.drop i)

namespace FunctionCallParser

variable {σ : Type} (p : FunctionCallParser σ)

/-- What one increment adds to the segments. -/
def segmentsOf (r : ParseResult) : List Segment :=
  (if r.normalText = [] then [] else [.text r.normalText]) ++
    (if r.calls = [] then [] else [.calls r.calls])

/-- The drain loop of `parse_stream_events`, with the rounds that are left. -/
def drain : Nat → σ → Text → Except Halt (σ × List Segment)
  | 0, d, _ => .ok (d, [])
  | n + 1, d, text =>
      match p.detector.parseStreamingIncrement p.tools d text with
      | .error x => .error x
      | .ok (d, r) =>
          if text = [] ∧ r.calls = [] ∧ r.normalText = [] then .ok (d, segmentsOf r)
          else
            match drain n d [] with
            | .error x => .error x
            | .ok (d, rest) => .ok (d, segmentsOf r ++ rest)

def parseStreamEvents (d : σ) (chunkText : Text) : Except Halt (σ × List Segment) :=
  if p.tools = [] then .ok (d, if chunkText = [] then [] else [.text chunkText])
  else p.drain 16 d chunkText

def recoverTruncatedCall (d : σ) : σ × List CallItem :=
  let buf := p.detector.buffer d
  if buf = [] ∨ p.detector.eotToken = [] ∨ p.detector.hasToolCall d buf = false then (d, [])
  else
    match p.detector.detectAndParse p.tools d (buf ++ p.detector.eotToken) with
    | (d, .error _) => (d, [])
    | (d, .ok parsed) => (if parsed.calls = [] then d else p.detector.clearBuffer d, parsed.calls)

def unstreamedArguments (d : σ) (toolOrdinal : Int) : Option Text :=
  if 0 ≤ toolOrdinal then
    (((p.detector.prevToolCallArr d)[toolOrdinal.toNat]?).bind id).map p.dumps
  else none

def finalizeStream (d : σ) : Except Halt (σ × List CallItem) :=
  match p.detector.finalizeStreaming with
  | some finalize => finalize d
  | none => .ok (d, [])

/-- Where the text behind the last tool block begins. -/
def tailStart (fullText : Text) : Option Nat :=
  ((p.detector.blockCloseTokens.filterMap fun tok => (rfind tok fullText).map (· + tok.length)).max?)

def parseNonStream (d : σ) (fullText : Text) : Except Halt ParseResult :=
  if p.tools = [] then .ok ⟨fullText, []⟩
  else
    match p.detector.detectAndParse p.tools d fullText with
    | (_, .error x) => .error x
    | (d, .ok parsed) =>
        if parsed.calls = [] then .ok ⟨fullText, []⟩
        else
          match p.tailStart fullText with
          | none => .ok parsed
          | some start =>
              let tail := fullText.drop start
              if strip tail ≠ [] ∧ contains (strip tail) parsed.normalText = false ∧
                  p.detector.hasToolCall d tail = false then
                .ok ⟨parsed.normalText ++ tail, parsed.calls⟩
              else .ok parsed

end FunctionCallParser

/-- What the generator uses of a reasoning parser; each gives the reasoning and the content. -/
structure ReasoningParser (ρ : Type) where
  parseStreamChunk : ρ → Text → Except Halt (ρ × Text × Text)
  flush : ρ → Except Halt (ρ × Text × Text)

def stripSpecialTokens (text : Text) (tokens : List Text) : Text :=
  tokens.foldl (fun text tok => removeAll tok text) text

def toolsTagList : List Text :=
  ["<|plugin|>".toList, "<|tool_call>".toList, "<|tool_call_begin|>".toList, "<|channel|>".toList,
    "<function=".toList, "<tool_call>".toList, "<minimax:tool_call>".toList,
    "]<]minimax[>[<tool_call>".toList, "<|python_tag|>".toList, "[TOOL_CALLS]".toList,
    "<｜DSML｜function_calls>".toList, "<｜DSML｜tool_calls>".toList, "<｜DSML｜invoke".toList,
    "<atem:function_calls>".toList]

/-- The request and the server, as far as the generator reads them. -/
structure Setup (σ ρ : Type) where
  /-- `_leaked_special_tokens(state)`. -/
  specials : List Text
  /-- `spec.parse_tools`. -/
  parseTools : Bool
  /-- `state.config.tool_call_parser`. -/
  toolCallParser : Text
  /-- `_make_tool_parser(spec, state)`: none when the name is not supported. -/
  makeToolParser : Option (FunctionCallParser σ × σ)
  /-- `_make_reasoning_parser(spec, state)`. -/
  reasoningParser : Option (ReasoningParser ρ)

namespace Setup

variable {σ ρ : Type} (e : Setup σ ρ)

/-- The parser that reads the content as it comes. -/
def toolParser : Option (FunctionCallParser σ) :=
  if e.parseTools then (e.makeToolParser.map Prod.fst).filter fun p => p.detector.supportsStreaming
  else none

def fragStable : Bool := e.toolParser.elim true fun p => p.detector.argsFragmentsPrefixStable

end Setup

/-! ## Assembling the calls -/

structure OpenCall where
  detectorIndex : Int
  name : Option Text
  params : Text
  ordinal : Nat

structure Assembly where
  openCall : Option OpenCall := none
  callsEmitted : Nat := 0
  suppressWs : Bool := false

def validJson (text : Text) : Bool := decide (text ≠ []) && (Json.loads text).isSome

/-- `a or b` of texts. -/
def orElse (a b : Text) : Text := if a = [] then b else a

section Assemble

variable {σ : Type} (p : FunctionCallParser σ) (specials : List Text) (fragStable : Bool) (d : σ)

/-- The arguments a call is closed with. -/
def closingParams (oc : OpenCall) : Text :=
  orElse
    (if validJson oc.params then oc.params
      else orElse ((p.unstreamedArguments d oc.detectorIndex).getD []) oc.params)
    ['{', '}']

/-- `_close_open_call` -/
def closeOpenCall (a : Assembly) : Assembly × List GenEvent :=
  match a.openCall with
  | none => (a, [])
  | some oc =>
      (⟨none, a.callsEmitted + 1, true⟩,
        [.toolCallsDelta [⟨oc.ordinal, oc.name, closingParams p d oc⟩]])

/-- Content that is not swallowed. -/
def emitText (a : Assembly) (payload : Text) : Assembly × List GenEvent :=
  let stripped := stripSpecialTokens payload specials
  if stripped ≠ [] ∧ ¬ (strip stripped = [] ∧ a.suppressWs) then
    (if strip stripped = [] then a else { a with suppressWs := false }, [.contentDelta stripped])
  else (a, [])

def routeText (a : Assembly) (payload : Text) : Assembly × List GenEvent :=
  let closed := closeOpenCall p d a
  let emitted := emitText specials closed.1 payload
  (emitted.1, closed.2 ++ emitted.2)

/-- A fragment with a name that is not the open call's. -/
def startsNew (a : Assembly) (frag : CallItem) : Bool :=
  frag.name.isSome && (a.openCall.elim true fun oc => decide (frag.toolIndex ≠ oc.detectorIndex))

/-- The call of a fragment begins, unless it is open. -/
def openFor (a : Assembly) (frag : CallItem) (new : Bool) : Assembly × List GenEvent :=
  if a.openCall.isNone ∨ new = true then
    ({ a with openCall := some ⟨frag.toolIndex, frag.name, [], a.callsEmitted⟩ },
      [.toolCallStart a.callsEmitted frag.name fragStable])
  else (a, [])

/-- The arguments of a fragment go to the open call. -/
def addParams (a : Assembly) (frag : CallItem) : Assembly × List GenEvent :=
  match a.openCall with
  | none => (a, [])
  | some oc =>
      if frag.parameters = [] then (a, [])
      else
        ({ a with openCall := some { oc with params := oc.params ++ frag.parameters } },
          [.toolCallArgsDelta oc.ordinal frag.parameters])

def routeFrag (a : Assembly) (frag : CallItem) : Assembly × List GenEvent :=
  let new := startsNew a frag
  let closed := if new then closeOpenCall p d a else (a, [])
  let opened := openFor fragStable closed.1 frag new
  let added := addParams opened.1 frag
  (added.1, closed.2 ++ opened.2 ++ added.2)

def routeSegment (a : Assembly) : Segment → Assembly × List GenEvent
  | .text payload => routeText p specials d a payload
  | .calls payload => inOrder (routeFrag p fragStable d) a payload

end Assemble

/-! ## The generator -/

structure State (σ ρ : Type) where
  detector : Option σ
  reasoning : ρ
  assembly : Assembly := {}
  pending : Text := []
  promptTokens : Nat := 0
  completionTokens : Nat := 0
  cachedTokens : Nat := 0

section Generate

variable {σ ρ : Type} (e : Setup σ ρ)

/-- `_route_tool_text` -/
def routeToolText (p : FunctionCallParser σ) (s : State σ ρ) (d : σ) (piece : Text) :
    Generator GenEvent Halt (State σ ρ) :=
  if piece = [] then .ret s
  else
    .bind (.ofExcept (p.parseStreamEvents d piece)) fun r =>
      let routed := inOrder (routeSegment p e.specials e.fragStable r.1) s.assembly r.2
      .bind (.yields routed.2) fun _ =>
        .ret { s with detector := some r.1, assembly := routed.1 }

/-- Content goes to the tool parser, to the text that is parsed at the end, or to the client. -/
def routeContent (s : State σ ρ) (content : Text) : Generator GenEvent Halt (State σ ρ) :=
  match e.toolParser, s.detector with
  | some p, some d => routeToolText e p s d content
  | _, _ =>
      if e.parseTools then .ret { s with pending := s.pending ++ content }
      else .bind (.yields [.contentDelta (stripSpecialTokens content e.specials)]) fun _ => .ret s

/-- Reasoning is yielded, content is routed. -/
def routeParsed (s : State σ ρ) (reasoning content : Text) : Generator GenEvent Halt (State σ ρ) :=
  let stripped := stripSpecialTokens reasoning e.specials
  .bind (.yields (if reasoning ≠ [] ∧ stripped ≠ [] then [.reasoningDelta stripped] else [])) fun _ =>
    if content = [] then .ret s else routeContent e s content

def takeReply (s : State σ ρ) (ack : UserReply) : Generator GenEvent Halt (State σ ρ) :=
  if ack.error.getD [] ≠ [] then
    .ofExcept (.error (.generationError (ack.error.getD []) ack.errorCode))
  else
    let s := { s with
      promptTokens := s.promptTokens + ack.promptTokensDelta
      completionTokens := s.completionTokens + ack.completionTokensDelta
      cachedTokens := s.cachedTokens + ack.cachedTokens }
    match e.reasoningParser with
    | some rp =>
        if ack.incrementalOutput = [] then .ret s
        else
          .bind (.ofExcept (rp.parseStreamChunk s.reasoning ack.incrementalOutput)) fun r =>
            routeParsed e { s with reasoning := r.1 } r.2.1 r.2.2
    | none => routeParsed e s [] ack.incrementalOutput

/-- The replies up to the last one of the request, with its reason and its stop. -/
def listen (s : State σ ρ) : List UserReply →
    Generator GenEvent Halt (State σ ρ × Option Text × Option Text)
  | [] => .ofExcept (.error .waits)
  | ack :: acks =>
      .bind (takeReply e s ack) fun s =>
        if ack.finished then .ret (s, ack.finishReason, ack.matchedStop) else listen s acks

def flushReasoning (s : State σ ρ) : Generator GenEvent Halt (State σ ρ) :=
  match e.reasoningParser with
  | none => .ret s
  | some rp =>
      .bind (.ofExcept (rp.flush s.reasoning)) fun r =>
        routeParsed e { s with reasoning := r.1 } r.2.1 r.2.2

/-- A call that was cut off inside its block. -/
def recovered (a : Assembly) (item : CallItem) : Assembly × List GenEvent :=
  ({ a with callsEmitted := a.callsEmitted + 1 },
    [.toolCallStart a.callsEmitted item.name true,
      .toolCallsDelta [⟨a.callsEmitted, item.name, item.parameters⟩]])

def tokensDone (s : State σ ρ) (finishReason : Text) (matchedStop : Option Text) : GenEvent :=
  .genDone ⟨finishReason, s.promptTokens, s.completionTokens, matchedStop, s.cachedTokens⟩

def lengthReason : Text := "length".toList

def toolCallsReason : Text := "tool_calls".toList

/-- A tool call overrides the reason of the engine, a truncation wins. -/
def finishOf (reason : Text) (called : Bool) : Text :=
  if called ∧ reason ≠ lengthReason then toolCallsReason else reason

/-- The end of a stream whose content was parsed as it came. -/
def finishStreamed (p : FunctionCallParser σ) (s : State σ ρ) (d : σ) (reason : Text)
    (matchedStop : Option Text) : Generator GenEvent Halt Unit :=
  .bind (.ofExcept (p.finalizeStream d)) fun f =>
    let added := inOrder addParams s.assembly f.2
    .bind (.yields added.2) fun _ =>
      let closed := closeOpenCall p f.1 added.1
      .bind (.yields closed.2) fun _ =>
        let r := p.recoverTruncatedCall f.1
        let calls := inOrder recovered closed.1 r.2
        .bind (.yields calls.2) fun _ =>
          .bind (.ofExcept (p.detector.finishStreaming r.1)) fun residual =>
            .bind (.yields (emitText e.specials calls.1 residual.2).2) fun _ =>
              .yields [tokensDone s (finishOf reason (decide (calls.1.callsEmitted ≠ 0))) matchedStop]

/-- `_parse_tool_response` -/
def parseToolResponse (text : Text) : Except Halt (Option ParseResult) :=
  if toolsTagList.any fun tag => contains tag text then
    match e.makeToolParser with
    | none => .error (.exception ("Unsupported tool_call_parser: ".toList ++ e.toolCallParser))
    | some (p, d) =>
        match p.parseNonStream d text with
        | .error x => .error x
        | .ok r => .ok (if r.calls = [] then none else some r)
  else .ok none

/-- The end of a stream whose content was kept, or passed on as it came. -/
def finishBuffered (s : State σ ρ) (reason : Text) (matchedStop : Option Text) :
    Generator GenEvent Halt Unit :=
  if e.parseTools then
    .bind (.ofExcept (parseToolResponse e s.pending)) fun r =>
      match r with
      | some parsed =>
          let normal := stripSpecialTokens parsed.normalText e.specials
          .bind (.yields ((if normal = [] then [] else [.contentDelta normal]) ++
            [.toolCallsDelta parsed.calls])) fun _ =>
              .yields [tokensDone s (finishOf reason true) matchedStop]
      | none =>
          .bind (.yields (if s.pending = [] then []
            else [.contentDelta (stripSpecialTokens s.pending e.specials)])) fun _ =>
              .yields [tokensDone s reason matchedStop]
  else .yields [tokensDone s reason matchedStop]

/-- `_generate_events_impl`, the replies of the request given. -/
def generateEvents (reasoning : ρ) (acks : List UserReply) : Generator GenEvent Halt Unit :=
  .bind (listen e ⟨e.makeToolParser.map Prod.snd, reasoning, {}, [], 0, 0, 0⟩ acks) fun r =>
    .bind (flushReasoning e r.1) fun s =>
      let reason := orElse (r.2.1.getD []) "stop".toList
      match e.toolParser, s.detector with
      | some p, some d => finishStreamed e p s d reason r.2.2
      | _, _ => finishBuffered e s reason r.2.2

end Generate

end Generation

end FreeToken
