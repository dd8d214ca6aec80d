import FreeToken.Lib.Values
import FreeToken.Server.ParamTypes

/-!
# Streaming of invoke and parameter blocks

The grammar of a format is a parameter.  A parameter whose type is string streams its value as it
comes, any other parameter is held until it closes and is converted.
-/

set_option autoImplicit false

namespace FreeToken

open Search Text Pattern

attribute [local instance] Text.lawfulBEq

/-- `opener([^>]*)>`. -/
def angleTag (opener t : Text) : Option (Text × Text) := do
  let t ← word opener t
  let rest ← word ['>'] (t.dropWhile (· ≠ '>'))
  return (t.takeWhile (· ≠ '>'), rest)

/-- The class attributes of a format. -/
structure InvokeGrammar where
  outerOpen : Text
  outerClose : Text
  invokeOpenPrefix : Text
  invokeOpenRe : Text → Option (Text × Text)
  invokeClose : Text
  paramOpenPrefix : Text
  paramOpenRe : Text → Option (Text × Text)
  paramClose : Text
  trim : Text
  trimSingle : Bool
  missingType : Text

inductive PsMode
  | idle
  | block
  | invoke
  | invokeSkip
  | pstr
  | pbuf
  | pskip
  deriving DecidableEq, Repr

structure InvokeParamStream where
  buffer : Text
  ledger : Ledger
  argsStarted : Bool
  psMode : PsMode
  psKey : Text
  psLead : Text
  psLeadTrimmed : Bool
  psParamConfig : List Json.Member

namespace InvokeParamStream

/-- The constructor, with `_ps_reset`. -/
def init : InvokeParamStream where
  buffer := []
  ledger := {}
  argsStarted := false
  psMode := .idle
  psKey := []
  psLead := ['{']
  psLeadTrimmed := false
  psParamConfig := []

def isTrim (g : InvokeGrammar) (c : Char) : Bool := decide (c ∈ g.trim)

/-- `_ps_trim_leading`. -/
def psTrimLeading (g : InvokeGrammar) (t : Text) : Text := trimLeading (isTrim g) g.trimSingle t

/-- `_ps_trim_trailing`. -/
def psTrimTrailing (g : InvokeGrammar) (t : Text) : Text := trimTrailing (isTrim g) g.trimSingle t

/-- `_ps_convert_value`. -/
def psConvertValue (g : InvokeGrammar) (cx : TypedContext) (config : List Json.Member)
    (key raw : Text) : Py PyValue :=
  if (config.lookup key).isSome ∨ g.missingType ≠ "loose".toList then
    cx.convertParamValue raw key config
  else .ok (.json (TypedContext.parseLooseJsonValue raw))

/-- One round of the loop: whether it goes on, the detector, and what was produced. -/
abbrev Round := Bool × InvokeParamStream × StreamingParseResult

def idleRound (g : InvokeGrammar) (d : InvokeParamStream) (calls : Bool) : Round :=
  let buf := d.buffer
  if calls then (false, d, {})
  else
    match find g.outerOpen buf with
    | none =>
        let hold := endsWithPartialToken buf g.outerOpen
        let release := buf.take (buf.length - hold)
        if release = [] then (false, d, {})
        else (false, { d with buffer := buf.drop release.length }, { normalText := release })
    | some pos =>
        if 0 < pos then (true, { d with buffer := buf.drop pos }, { normalText := buf.take pos })
        else (true, { d with buffer := buf.drop g.outerOpen.length, psMode := .block }, {})

/-- Enter the call of a tag that was read. -/
def openInvoke (cx : TypedContext) (d : InvokeParamStream) (funcName rest : Text) : Round :=
  let d := { d with buffer := rest, ledger := d.ledger.start }
  if cx.accepts funcName then
    (true, { d with
      ledger := d.ledger.named funcName
      argsStarted := false
      psParamConfig := cx.getParamConfig funcName
      psMode := .invoke }, { calls := [⟨d.ledger.toolId, some funcName, []⟩] })
  else (true, { d with psMode := .invokeSkip }, {})

def blockRound (g : InvokeGrammar) (cx : TypedContext) (d : InvokeParamStream) : Round :=
  let buf := d.buffer
  let inv := find g.invokeOpenPrefix buf
  let close := find g.outerClose buf
  match foundBefore close inv with
  | some close =>
      (true, { d with buffer := buf.drop (close + g.outerClose.length), psMode := .idle }, {})
  | none =>
      match inv with
      | some inv =>
          match search g.invokeOpenRe (buf.drop inv) with
          | none => (false, d, {})
          | some (name, rest) => openInvoke cx d (strip name) rest
      | none =>
          let hold := max (endsWithPartialToken buf g.invokeOpenPrefix)
            (endsWithPartialToken buf g.outerClose)
          (false, { d with buffer := buf.drop (buf.length - hold) }, {})

/-- Leave a call whose closing tag was read. -/
def closeInvoke (d : InvokeParamStream) (rest : Text) : Round :=
  if d.psMode = .invoke then
    let (ledger, items) := d.ledger.emit (if d.argsStarted then ['}'] else ['{', '}'])
    (true, { d with ledger := ledger.updatePrev.next, buffer := rest, psMode := .block },
      { calls := items })
  else (true, { d with buffer := rest, psMode := .block }, {})

/-- Enter the parameter of a tag that was read. -/
def openParam (g : InvokeGrammar) (cx : TypedContext) (d : InvokeParamStream) (name rest : Text) :
    Round :=
  let d := { d with buffer := rest }
  if d.psMode = .invokeSkip then (true, { d with psMode := .pskip }, {})
  else
    let key := strip name
    let lead := if d.argsStarted then [','] else ['{']
    let d := { d with psKey := key, argsStarted := true }
    if cx.schemaParamType key d.psParamConfig g.missingType ∈ TypedContext.stringTypes then
      let (ledger, items) := d.ledger.emit (lead ++ Json.quote key ++ [':', '"'])
      (true, { d with ledger := ledger, psLeadTrimmed := false, psMode := .pstr },
        { calls := items })
    else (true, { d with psLead := lead, psMode := .pbuf }, {})

def invokeRound (g : InvokeGrammar) (cx : TypedContext) (d : InvokeParamStream) : Round :=
  let buf := d.buffer
  let p := find g.paramOpenPrefix buf
  let e := find g.invokeClose buf
  match foundBefore e p with
  | some e => closeInvoke d (buf.drop (e + g.invokeClose.length))
  | none =>
      match p with
      | some p =>
          match search g.paramOpenRe (buf.drop p) with
          | none => (false, d, {})
          | some (name, rest) => openParam g cx d name rest
      | none =>
          let hold := max (endsWithPartialToken buf g.paramOpenPrefix)
            (endsWithPartialToken buf g.invokeClose)
          (false, { d with buffer := buf.drop (buf.length - hold) }, {})

/-- A string value, after the trim at its beginning. -/
def valueRound (g : InvokeGrammar) (d : InvokeParamStream) : Round :=
  let buf := d.buffer
  match find g.paramClose buf with
  | none =>
      let hold := endsWithPartialToken buf g.paramClose
      let emitNow := (buf.take (buf.length - hold)).rdropWhile (isTrim g)
      if emitNow = [] then (false, d, {})
      else
        let (ledger, items) := d.ledger.emit (jsonEscapeChunk emitNow)
        (false, { d with ledger := ledger, buffer := buf.drop emitNow.length }, { calls := items })
  | some stop =>
      let tail := psTrimTrailing g (buf.take stop)
      let (ledger, items) := d.ledger.emit (jsonEscapeChunk tail ++ ['"'])
      (true, { d with
        ledger := ledger.updatePrev
        buffer := buf.drop (stop + g.paramClose.length)
        psMode := .invoke }, { calls := items })

def pstrRound (g : InvokeGrammar) (d : InvokeParamStream) : Round :=
  if d.psLeadTrimmed then valueRound g d
  else
    let trimmed := psTrimLeading g d.buffer
    if trimmed ≠ d.buffer then
      (true, { d with buffer := trimmed, psLeadTrimmed := trimmed ≠ [] || g.trimSingle }, {})
    else valueRound g { d with psLeadTrimmed := true }

def pbufRound (g : InvokeGrammar) (cx : TypedContext) (d : InvokeParamStream) : Py Round :=
  let buf := d.buffer
  match find g.paramClose buf with
  | none => .ok (false, d, {})
  | some stop =>
      let rest := buf.drop (stop + g.paramClose.length)
      if d.psMode = .pbuf then do
        let raw := psTrimTrailing g (psTrimLeading g (buf.take stop))
        let converted ← psConvertValue g cx d.psParamConfig d.psKey raw
        let written ← cx.dumpsValue converted
        let (ledger, items) := d.ledger.emit (d.psLead ++ Json.quote d.psKey ++ [':'] ++ written)
        .ok (true, { d with ledger := ledger.updatePrev, buffer := rest, psMode := .invoke },
          { calls := items })
      else .ok (true, { d with buffer := rest, psMode := .invokeSkip }, {})

def round (g : InvokeGrammar) (cx : TypedContext) (d : InvokeParamStream) (calls : Bool) :
    Py Round :=
  if d.buffer = [] then .ok (false, d, {})
  else
    match d.psMode with
    | .idle => .ok (idleRound g d calls)
    | .block => .ok (blockRound g cx d)
    | .invoke | .invokeSkip => .ok (invokeRound g cx d)
    | .pstr => .ok (pstrRound g d)
    | .pbuf | .pskip => pbufRound g cx d

def put (d : InvokeParamStream) (newText : Text) : InvokeParamStream :=
  { d with buffer := d.buffer ++ newText }

def size (d : InvokeParamStream) : Nat := d.buffer.length

/-- `parse_streaming_increment`. -/
def parseStreamingIncrement (g : InvokeGrammar) (cx : TypedContext) :
    InvokeParamStream → Text → Py (InvokeParamStream × StreamingParseResult) :=
  increment (round g cx) size put

/-- `finish_streaming`. -/
def finishStreaming (g : InvokeGrammar) (d : InvokeParamStream) : Text :=
  if d.psMode ≠ .idle ∨ (g.outerOpen ≠ [] ∧ contains g.outerOpen d.buffer = true) then []
  else if d.ledger.prevToolCallArr ≠ [] ∧ strip d.buffer = [] then []
  else d.buffer

end InvokeParamStream

namespace Qwen3CoderDetector

def grammar : InvokeGrammar where
  outerOpen := "<tool_call>".toList
  outerClose := "</tool_call>".toList
  invokeOpenPrefix := "<function=".toList
  invokeOpenRe := angleTag "<function=".toList
  invokeClose := "</function>".toList
  paramOpenPrefix := "<parameter=".toList
  paramOpenRe := angleTag "<parameter=".toList
  paramClose := "</parameter>".toList
  trim := ['\n']
  trimSingle := true
  missingType := "string".toList

end Qwen3CoderDetector

namespace MiniMaxDetector

def grammar : InvokeGrammar where
  outerOpen := "<minimax:tool_call>".toList
  outerClose := "</minimax:tool_call>".toList
  invokeOpenPrefix := "<invoke".toList
  invokeOpenRe := nameTag "<invoke".toList
  invokeClose := "</invoke>".toList
  paramOpenPrefix := "<parameter".toList
  paramOpenRe := nameTag "<parameter".toList
  paramClose := "</parameter>".toList
  trim := ['\n']
  trimSingle := false
  missingType := "loose".toList

end MiniMaxDetector

end FreeToken
