import FreeToken.Server.FunctionCallParser

/-!
# The DSML tool-call detector

Text outside blocks streams live.  A string parameter streams its value character by character, any
other parameter is held until it closes.
-/

set_option autoImplicit false

namespace FreeToken

open Search Text Pattern

inductive DsMode
  | idle
  | block
  | invoke
  | invokeSkip
  | pstr
  | pbuf
  | pskip
  deriving DecidableEq, Repr

structure DeepSeekV32Detector where
  buffer : Text
  ledger : Ledger
  inFunctionCalls : Bool
  dsMode : DsMode
  argsStarted : Bool
  paramName : Text
  paramLead : Text

namespace DeepSeekV32Detector

def botToken : Text := "<｜DSML｜function_calls>".toList

def eotToken : Text := "</｜DSML｜function_calls>".toList

def altBotToken : Text := "<｜DSML｜tool_calls>".toList

def altEotToken : Text := "</｜DSML｜tool_calls>".toList

def invokeStartPrefix : Text := "<｜DSML｜invoke".toList

def invokeEndToken : Text := "</｜DSML｜invoke>".toList

def paramOpenToken : Text := "<｜DSML｜parameter".toList

def paramEndToken : Text := "</｜DSML｜parameter>".toList

def invokeOpenRegex : Text → Option (Text × Text) := search (nameTag invokeStartPrefix)

def paramOpenRegex : Text → Option ((Text × Option Bool) × Text) := search (paramTag paramOpenToken)

def dsmlToken : Text := "｜DSML｜".toList

def invokeRegex : Text → Option ((Text × Text) × Text) :=
  enclosed (nameTag invokeStartPrefix) invokeEndToken

def paramRegex : Text → Option (((Text × Option Bool) × Text) × Text) :=
  enclosed (paramTag paramOpenToken) paramEndToken

/-- The constructor. -/
def init : DeepSeekV32Detector where
  buffer := []
  ledger := {}
  inFunctionCalls := false
  dsMode := .idle
  argsStarted := false
  paramName := []
  paramLead := ['{']

def hasToolCall (text : Text) : Bool := contains botToken text || contains altBotToken text

/-- Text that is released outside of a block loses the closing tokens in it. -/
def removeClosers (text : Text) : Text :=
  removeAll invokeEndToken (removeAll altEotToken (removeAll eotToken text))

/-- One round of the loop: whether it goes on, the detector, and what was produced. -/
abbrev Round := Bool × DeepSeekV32Detector × StreamingParseResult

def idleRound (d : DeepSeekV32Detector) (calls : Bool) : Round :=
  let buf := d.buffer
  if calls then (false, d, {})
  else
    match firstExistingPos buf [botToken, altBotToken] with
    | none =>
        let hold := max (endsWithPartialToken buf botToken) (endsWithPartialToken buf altBotToken)
        let release := buf.take (buf.length - hold)
        if release = [] then (false, d, {})
        else
          (false, { d with buffer := buf.drop (buf.length - hold) },
            { normalText := removeClosers release })
    | some pos =>
        if 0 < pos then
          (true, { d with buffer := buf.drop pos }, { normalText := buf.take pos })
        else
          let opener := if botToken <+: buf then botToken else altBotToken
          (true, { d with
            buffer := buf.drop opener.length
            inFunctionCalls := true
            dsMode := .block }, {})

/-- Enter the call of a tag that was read. -/
def openInvoke (cx : ToolContext) (d : DeepSeekV32Detector) (funcName rest : Text) : Round :=
  let d := { d with buffer := rest, ledger := d.ledger.start }
  if cx.accepts funcName then
    (true, { d with
      ledger := d.ledger.named funcName
      argsStarted := false
      dsMode := .invoke }, { calls := [⟨d.ledger.toolId, some funcName, []⟩] })
  else (true, { d with dsMode := .invokeSkip }, {})

def blockRound (cx : ToolContext) (d : DeepSeekV32Detector) : Round :=
  let buf := d.buffer
  let inv := find invokeStartPrefix buf
  let close := firstExistingPos buf [eotToken, altEotToken]
  match foundBefore close inv with
  | some close =>
      let matched := if eotToken <+: buf.drop close then eotToken else altEotToken
      (true, { d with
        buffer := buf.drop (close + matched.length)
        inFunctionCalls := false
        dsMode := .idle }, {})
  | none =>
      match inv with
      | some inv =>
          match invokeOpenRegex (buf.drop inv) with
          | none => (false, d, {})
          | some (funcName, rest) => openInvoke cx d funcName rest
      | none =>
          let hold := max (endsWithPartialToken buf invokeStartPrefix)
            (max (endsWithPartialToken buf eotToken) (endsWithPartialToken buf altEotToken))
          (false, { d with buffer := buf.drop (buf.length - hold) }, {})

/-- Leave a call whose closing tag was read. -/
def closeInvoke (d : DeepSeekV32Detector) (rest : Text) : Round :=
  if d.dsMode = .invoke then
    let (ledger, items) := d.ledger.emit (if d.argsStarted then ['}'] else ['{', '}'])
    (true, { d with
      ledger := ledger.updatePrev.next
      buffer := rest
      dsMode := .block }, { calls := items })
  else (true, { d with buffer := rest, dsMode := .block }, {})

/-- Enter the parameter of a tag that was read. -/
def openParam (d : DeepSeekV32Detector) (tag : Text × Option Bool) (rest : Text) : Round :=
  let d := { d with buffer := rest }
  if d.dsMode = .invokeSkip then (true, { d with dsMode := .pskip }, {})
  else
    let lead := if d.argsStarted then [','] else ['{']
    let d := { d with paramName := tag.1, argsStarted := true }
    if tag.2 = some true then
      let (ledger, items) := d.ledger.emit (lead ++ Json.quote tag.1 ++ [':', '"'])
      (true, { d with ledger := ledger, dsMode := .pstr }, { calls := items })
    else (true, { d with paramLead := lead, dsMode := .pbuf }, {})

def invokeRound (d : DeepSeekV32Detector) : Round :=
  let buf := d.buffer
  let p := find paramOpenToken buf
  let e := find invokeEndToken buf
  match foundBefore e p with
  | some e => closeInvoke d (buf.drop (e + invokeEndToken.length))
  | none =>
      match p with
      | some p =>
          match paramOpenRegex (buf.drop p) with
          | none => (false, d, {})
          | some (tag, rest) => openParam d tag rest
      | none =>
          let hold := max (endsWithPartialToken buf paramOpenToken)
            (endsWithPartialToken buf invokeEndToken)
          (false, { d with buffer := buf.drop (buf.length - hold) }, {})

def pstrRound (d : DeepSeekV32Detector) : Round :=
  let buf := d.buffer
  match find paramEndToken buf with
  | none =>
      let hold := endsWithPartialToken buf paramEndToken
      let emitLen := buf.length - hold
      if 0 < emitLen then
        let (ledger, items) := d.ledger.emit (jsonEscapeChunk (buf.take emitLen))
        (false, { d with ledger := ledger, buffer := buf.drop emitLen }, { calls := items })
      else (false, d, {})
  | some stop =>
      let (ledger, items) := d.ledger.emit (jsonEscapeChunk (buf.take stop) ++ ['"'])
      (true, { d with
        ledger := ledger.updatePrev
        buffer := buf.drop (stop + paramEndToken.length)
        dsMode := .invoke }, { calls := items })

/-- `json.loads(value)`, or the text itself where it raises. -/
def parsedValue (value : Text) : Json := (Json.loads value).getD (.str value)

/-- `_dsml_params_to_json`. -/
def dsmlParamsToJson (cx : ToolContext) (params : List ((Text × Option Bool) × Text)) : Text :=
  cx.dumps (.obj (Json.dict (params.map fun p =>
    (p.1.1, if p.1.2 = some true then .str p.2 else parsedValue p.2))))

/-- `detect_and_parse`. -/
def detectAndParse (cx : ToolContext) (text : Text) : StreamingParseResult :=
  match firstExistingPos text [botToken, altBotToken] with
  | none => { normalText := text }
  | some idx =>
      { normalText := strip (text.take idx)
        calls := (findAll invokeRegex text).foldl (fun calls m =>
          if cx.accepts m.1 then
            calls ++ [⟨(cx.toolIndex m.1).getD calls.length, some m.1,
              dsmlParamsToJson cx (findAll paramRegex m.2)⟩]
          else calls) [] }

def pbufRound (cx : ToolContext) (d : DeepSeekV32Detector) : Round :=
  let buf := d.buffer
  match find paramEndToken buf with
  | none => (false, d, {})
  | some stop =>
      let rest := buf.drop (stop + paramEndToken.length)
      if d.dsMode = .pbuf then
        let (ledger, items) := d.ledger.emit (d.paramLead ++ Json.quote d.paramName ++ [':'] ++
          cx.dumps (parsedValue (buf.take stop)))
        (true, { d with ledger := ledger.updatePrev, buffer := rest, dsMode := .invoke },
          { calls := items })
      else (true, { d with buffer := rest, dsMode := .invokeSkip }, {})

def round (cx : ToolContext) (d : DeepSeekV32Detector) (calls : Bool) : Round :=
  if d.buffer = [] then (false, d, {})
  else
    match d.dsMode with
    | .idle => idleRound d calls
    | .block => blockRound cx d
    | .invoke | .invokeSkip => invokeRound d
    | .pstr => pstrRound d
    | .pbuf | .pskip => pbufRound cx d

def put (d : DeepSeekV32Detector) (newText : Text) : DeepSeekV32Detector :=
  { d with buffer := d.buffer ++ newText }

def size (d : DeepSeekV32Detector) : Nat := d.buffer.length

/-- `parse_streaming_increment`. -/
def parseStreamingIncrement (cx : ToolContext) :
    DeepSeekV32Detector → Text → Py (DeepSeekV32Detector × StreamingParseResult) :=
  increment (fun d calls => .ok (round cx d calls)) size put

/-- `finish_streaming`. -/
def finishStreaming (d : DeepSeekV32Detector) : Text :=
  if d.dsMode ≠ .idle ∨ hasToolCall d.buffer then []
  else
    let residual := removeClosers d.buffer
    if d.ledger.prevToolCallArr ≠ [] ∧ strip residual = [] then [] else residual

end DeepSeekV32Detector

end FreeToken
