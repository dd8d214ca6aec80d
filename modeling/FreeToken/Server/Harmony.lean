import FreeToken.Server.ReasoningParser

/-!
# Harmony reasoning parsing

`GptOssHarmonyReasoningParser`: a channel-marked text is scanned into segments, and a stream emits
what its re-scanned buffer adds.
-/

set_option autoImplicit false

namespace FreeToken

open Search Text

attribute [local instance] Text.lawfulBEq

def harmonyChannel : Text := "<|channel|>".toList

def harmonyMessage : Text := "<|message|>".toList

/-- Boundary tokens that close a segment. -/
def harmonyClosingTokens : List Text := ["<|end|>".toList, "<|return|>".toList, "<|call|>".toList]

/-- Tokens that bound a segment's body. -/
def harmonyBoundaryTokens : List Text :=
  harmonyClosingTokens ++ ["<|start|>".toList, harmonyChannel]

def harmonyAllTokens : List Text := [harmonyChannel, harmonyMessage] ++ harmonyBoundaryTokens

namespace Harmony

/-- `_segment_end`: the earliest boundary token of a body, or the end of the text. -/
def segmentEnd (body : Text) : Nat × Option Text :=
  match firstOf harmonyBoundaryTokens body with
  | none => (body.length, none)
  | some (pos, tok) => (pos, some tok)

/-- A segment: its opener with both markers, the header between them, and the text behind. -/
structure Segment where
  opener : Text
  header : Text
  body : Text
  deriving DecidableEq, Repr

/-- The next segment of a text, once its header is complete. -/
def openSegment (text : Text) : Option Segment :=
  match find harmonyChannel text with
  | none => none
  | some ch =>
      let rest := text.drop (ch + harmonyChannel.length)
      match find harmonyMessage rest with
      | none => none
      | some msg =>
          some
            { opener := (text.drop ch).take (harmonyChannel.length + msg + harmonyMessage.length)
              header := rest.take msg
              body := rest.drop (msg + harmonyMessage.length) }

namespace Segment

/-- `header.split()[0]`, empty for a blank header. -/
def channel (s : Segment) : Text := (s.header.dropWhile isSpace).takeWhile fun c => !isSpace c

def isTool (s : Segment) : Bool :=
  decide (s.channel = "commentary".toList) && contains "to=functions".toList s.header

/-- What a segment adds to the reasoning and to the content. -/
def piece (s : Segment) (holdPartial : Bool) : Text × Text :=
  let (stop, matched) := segmentEnd s.body
  if s.isTool then
    let sliceEnd := match matched with
      | some tok => if tok ∈ harmonyClosingTokens then stop + tok.length else stop
      | none => stop
    ([], s.opener ++ s.body.take sliceEnd)
  else
    let body := s.body.take stop
    let body := if matched.isNone && holdPartial then
        body.take (body.length - partialSuffix harmonyAllTokens body)
      else body
    if s.channel = "analysis".toList then (body, []) else ([], body)

end Segment

def scanLoop (holdPartial : Bool) : Nat → Text → Text × Text
  | 0, _ => ([], [])
  | fuel + 1, text =>
      match openSegment text with
      | none => ([], [])
      | some s =>
          let (reasoning, content) := s.piece holdPartial
          match segmentEnd s.body with
          | (_, none) => (reasoning, content)
          | (stop, some _) =>
              let (moreReasoning, moreContent) := scanLoop holdPartial fuel (s.body.drop stop)
              (reasoning ++ moreReasoning, content ++ moreContent)

/-- `_scan`: the reasoning and the content of a text; every round leaves a shorter text. -/
def scan (text : Text) (holdPartial : Bool) : Text × Text :=
  scanLoop holdPartial (text.length + 1) text

end Harmony

structure GptOssHarmonyReasoningParser where
  buffer : Text
  emittedReasoning : Nat
  emittedContent : Nat
  deriving DecidableEq, Repr

namespace GptOssHarmonyReasoningParser

def init : GptOssHarmonyReasoningParser where
  buffer := []
  emittedReasoning := 0
  emittedContent := 0

def detectAndParse (text : Text) : ReasoningParseResult :=
  if !contains harmonyChannel text then { normalText := text }
  else
    let (reasoning, content) := Harmony.scan text false
    { reasoningText := strip reasoning, normalText := strip content }

/-- The part of a scan that was not emitted yet. -/
def emit (p : GptOssHarmonyReasoningParser) (holdPartial : Bool) :
    GptOssHarmonyReasoningParser × ReasoningParseResult :=
  let (reasoning, content) := Harmony.scan p.buffer holdPartial
  ({ p with emittedReasoning := reasoning.length, emittedContent := content.length },
    { reasoningText := reasoning.drop p.emittedReasoning
      normalText := content.drop p.emittedContent })

def parseStreamingIncrement (p : GptOssHarmonyReasoningParser) (newText : Text) :
    GptOssHarmonyReasoningParser × ReasoningParseResult :=
  emit { p with buffer := p.buffer ++ newText } true

def flush (p : GptOssHarmonyReasoningParser) :
    GptOssHarmonyReasoningParser × ReasoningParseResult :=
  emit p false

def feed (p : GptOssHarmonyReasoningParser) :
    List Text → GptOssHarmonyReasoningParser × ReasoningParseResult
  | [] => (p, {})
  | chunk :: chunks =>
      let (p, first) := p.parseStreamingIncrement chunk
      let (p, rest) := p.feed chunks
      (p, first.append rest)

/-- A whole stream: its chunks, then the flush. -/
def stream (chunks : List Text) : ReasoningParseResult :=
  let (p, out) := init.feed chunks
  out.append p.flush.2

end GptOssHarmonyReasoningParser

end FreeToken
