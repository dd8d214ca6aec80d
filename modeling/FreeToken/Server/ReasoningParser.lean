import Mathlib.Data.List.DropRight
import FreeToken.Lib.Search

/-!
# Reasoning parsers

Text is a list of code points.  `BaseReasoningParser` separates the `<think>` block of a completion
from its answer, in one shot or over the chunks of a stream.
-/

set_option autoImplicit false

namespace FreeToken

open Search

abbrev Text := List Char

namespace Text

theorem lawfulBEq : LawfulBEq (List Char) := inferInstance

/-- `str.isspace` of one code point. -/
def isSpace (c : Char) : Bool :=
  let n := c.toNat
  (9 ≤ n && n ≤ 13) || (28 ≤ n && n ≤ 32) || n = 0x85 || n = 0xA0 || n = 0x1680 ||
    (0x2000 ≤ n && n ≤ 0x200A) || n = 0x2028 || n = 0x2029 || n = 0x202F || n = 0x205F ||
    n = 0x3000

/-- Only white space. -/
def Blank (text : Text) : Prop := ∀ c ∈ text, isSpace c = true

instance (text : Text) : Decidable (Blank text) :=
  List.decidableBAll (fun c => isSpace c = true) text

def lstrip (text : Text) : Text := text.dropWhile isSpace

def rstrip (text : Text) : Text := text.rdropWhile isSpace

def strip (text : Text) : Text := rstrip (lstrip text)

/-- `tok in text`. -/
def contains (tok text : Text) : Bool := (find tok text).isSome

/-- `text.replace(tok, "")` for a token that is not empty. -/
def remove (tok : Text) : Nat → Text → Text
  | 0, text => text
  | fuel + 1, text =>
      match find tok text with
      | none => text
      | some i => text.take i ++ remove tok fuel (text.drop (i + tok.length))

/-- `text.replace(tok, "")`; removing the empty token changes nothing. -/
def removeAll (tok text : Text) : Text := if tok = [] then text else remove tok text.length text

/-- `text.replace(tok, "", 1)`. -/
def removeFirst (tok text : Text) : Text :=
  match find tok text with
  | none => text
  | some i => text.take i ++ text.drop (i + tok.length)

end Text

open Text

/-- The result of incremental or one-shot reasoning extraction. -/
structure ReasoningParseResult where
  reasoningText : Text := []
  normalText : Text := []
  deriving DecidableEq, Repr

def ReasoningParseResult.append (a b : ReasoningParseResult) : ReasoningParseResult where
  reasoningText := a.reasoningText ++ b.reasoningText
  normalText := a.normalText ++ b.normalText

@[simp] theorem ReasoningParseResult.append_reasoningText (a b : ReasoningParseResult) :
    (a.append b).reasoningText = a.reasoningText ++ b.reasoningText := rfl

@[simp] theorem ReasoningParseResult.append_normalText (a b : ReasoningParseResult) :
    (a.append b).normalText = a.normalText ++ b.normalText := rfl

theorem ReasoningParseResult.append_assoc (a b c : ReasoningParseResult) :
    (a.append b).append c = a.append (b.append c) := by
  unfold append
  simp only [List.append_assoc]

structure BaseReasoningParser where
  thinkStartToken : Text
  thinkEndToken : Text
  toolStartToken : Option Text
  forceReasoning : Bool
  streamReasoning : Bool
  inReasoning : Bool
  buffer : Text
  strippedThinkStart : Bool
  deriving DecidableEq, Repr

namespace BaseReasoningParser

/-- How long a suspected tool block is held for a later closer. -/
def toolHoldMax : Nat := 512

/-- The constructor. -/
def init (thinkStartToken thinkEndToken : Text) (forceReasoning streamReasoning : Bool)
    (toolStartToken : Option Text) : BaseReasoningParser where
  thinkStartToken := thinkStartToken
  thinkEndToken := thinkEndToken
  toolStartToken := toolStartToken
  forceReasoning := forceReasoning
  streamReasoning := streamReasoning
  inReasoning := forceReasoning
  buffer := []
  strippedThinkStart := false

/-- `self.tool_start_token and self.tool_start_token in text`: where the tool block starts. -/
def toolIdx (p : BaseReasoningParser) (text : Text) : Option Nat :=
  match p.toolStartToken with
  | none => none
  | some tok => if tok = [] then none else find tok text

/-- One-shot parse of a complete completion. -/
def detectAndParse (p : BaseReasoningParser) (text : Text) : ReasoningParseResult :=
  if !(p.inReasoning || contains p.thinkStartToken text) then { normalText := text }
  else
    let processed := strip (removeAll p.thinkStartToken text)
    match find p.thinkEndToken processed with
    | none =>
        match p.toolStartToken.bind fun tok => find tok processed with
        | some i =>
            { reasoningText := strip (processed.take i), normalText := processed.drop i }
        | none => { reasoningText := processed }
    | some i =>
        { reasoningText := processed.take i
          normalText := strip (processed.drop (i + p.thinkEndToken.length)) }

/-- The tokens whose beginnings are held back. -/
def trackedTokens (p : BaseReasoningParser) : List Text :=
  [p.thinkEndToken] ++ (if p.strippedThinkStart then [] else [p.thinkStartToken]) ++
    (match p.toolStartToken with
      | some tok => if tok = [] then [] else [tok]
      | none => [])

/-- `_split_trailing_partial`. -/
def splitTrailingPartial (p : BaseReasoningParser) (text : Text) : Text × Text :=
  let best := partialSuffix p.trackedTokens text
  (text.take (text.length - best), text.drop (text.length - best))

/-- `parse_streaming_increment` after the opener was looked for. -/
def parseCurrent (p : BaseReasoningParser) (text : Text) :
    BaseReasoningParser × ReasoningParseResult :=
  match if p.inReasoning then find p.thinkEndToken text else none with
  | some i =>
      ({ p with buffer := [], inReasoning := false },
        { reasoningText := rstrip (text.take i)
          normalText := text.drop (i + p.thinkEndToken.length) })
  | none =>
      match if p.inReasoning then p.toolIdx text else none with
      | some i =>
          if toolHoldMax < (text.drop i).length then
            ({ p with buffer := [], inReasoning := false },
              { reasoningText := text.take i, normalText := text.drop i })
          else ({ p with buffer := text.drop i }, { reasoningText := text.take i })
      | none =>
          let (safe, held) := p.splitTrailingPartial text
          if p.inReasoning && !p.streamReasoning then ({ p with buffer := text }, {})
          else if p.inReasoning then ({ p with buffer := held }, { reasoningText := safe })
          else ({ p with buffer := held }, { normalText := safe })

/-- `parse_streaming_increment`. -/
def parseStreamingIncrement (p : BaseReasoningParser) (newText : Text) :
    BaseReasoningParser × ReasoningParseResult :=
  let text := p.buffer ++ newText
  if !p.strippedThinkStart && contains p.thinkStartToken text then
    parseCurrent { p with buffer := text, strippedThinkStart := true, inReasoning := true }
      (removeFirst p.thinkStartToken text)
  else parseCurrent { p with buffer := text } text

/-- `self.tool_start_token and text.startswith(self.tool_start_token)`. -/
def startsTool (p : BaseReasoningParser) (text : Text) : Bool :=
  match p.toolStartToken with
  | some tok => decide (tok ≠ []) && decide (tok <+: text)
  | none => false

/-- `flush`: the residue left in the buffer at the end of the stream. -/
def flush (p : BaseReasoningParser) : BaseReasoningParser × ReasoningParseResult :=
  if p.buffer = [] then (p, {})
  else if p.startsTool (lstrip p.buffer) then
    ({ p with buffer := [], inReasoning := false }, { normalText := p.buffer })
  else if p.inReasoning then ({ p with buffer := [] }, { reasoningText := p.buffer })
  else ({ p with buffer := [] }, { normalText := p.buffer })

/-- The parser and everything it returned over the chunks of a stream. -/
def feed (p : BaseReasoningParser) : List Text → BaseReasoningParser × ReasoningParseResult
  | [] => (p, {})
  | chunk :: chunks =>
      let (p, first) := p.parseStreamingIncrement chunk
      let (p, rest) := p.feed chunks
      (p, first.append rest)

/-- A whole stream: its chunks, then the flush. -/
def stream (p : BaseReasoningParser) (chunks : List Text) : ReasoningParseResult :=
  let (p, out) := p.feed chunks
  out.append p.flush.2

end BaseReasoningParser

/-! ## The think-style families -/

def thinkStartToken : Text := "<think>".toList

def thinkEndToken : Text := "</think>".toList

def dsmlToken : Text := "｜DSML｜".toList

def DeepSeekV32ReasoningParser (forceReasoning streamReasoning : Bool) : BaseReasoningParser :=
  .init thinkStartToken thinkEndToken forceReasoning streamReasoning (some ('<' :: dsmlToken))

def ThinkReasoningParser (forceReasoning streamReasoning : Bool) : BaseReasoningParser :=
  .init thinkStartToken thinkEndToken forceReasoning streamReasoning none

def GemmaThoughtReasoningParser (forceReasoning streamReasoning : Bool) : BaseReasoningParser :=
  .init "<|channel>thought\n".toList "<channel|>".toList forceReasoning streamReasoning none

end FreeToken
