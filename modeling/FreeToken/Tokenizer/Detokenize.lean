import FreeToken.Core
import FreeToken.Lib.Utf8
import FreeToken.Server.ReasoningParser

/-!
# Incremental detokenization

`tokenizer/detokenize.py`.  Each message brings one token of a request; the manager answers with the
text that may be sent.  The tokenizer decodes the concatenated bytes of its tokens.
-/

set_option autoImplicit false

namespace FreeToken

open Function Search

structure DetokenizeMsg where
  uid : Nat
  nextToken : Token
  finished : Bool
  matchedStop : Option Text
  stopStrs : List Text
  deriving DecidableEq, Repr

structure DecodeStatus where
  decodedIds : List Token
  decodedStr : Text
  /-- length of the ids that were read -/
  readOffset : Nat
  surrOffset : Nat
  /-- length of the text that was sent -/
  sentOffset : Nat
  deriving DecidableEq, Repr

def DecodeStatus.fresh : DecodeStatus :=
  { decodedIds := [], decodedStr := [], readOffset := 0, surrOffset := 0, sentOffset := 0 }

/-- A code point of one of the CJK blocks. -/
def isChineseChar (c : Char) : Bool :=
  let cp := c.toNat
  (0x4E00 ≤ cp && cp ≤ 0x9FFF) || (0x3400 ≤ cp && cp ≤ 0x4DBF) ||
    (0x20000 ≤ cp && cp ≤ 0x2A6DF) || (0x2A700 ≤ cp && cp ≤ 0x2B73F) ||
    (0x2B740 ≤ cp && cp ≤ 0x2B81F) || (0x2B820 ≤ cp && cp ≤ 0x2CEAF) ||
    (0xF900 ≤ cp && cp ≤ 0xFAFF) || (0x2F800 ≤ cp && cp ≤ 0x2FA1F)

/-- The longest printable beginning of a text. -/
def findPrintableText (text : Text) : Text :=
  if text.getLast? = some '\n' then text
  else if text.getLast?.any isChineseChar then text
  else if text.dropLast.getLast?.any isChineseChar then text.dropLast
  else text.rdropWhile fun c => c ≠ ' '

/-- How much of the text's end may still grow into a stop string. -/
def stopPrefixHoldback (text : Text) (stopStrs : List Text) : Nat := partialSuffix stopStrs text

structure DetokenizeManager where
  decodeMap : Nat → Option DecodeStatus
  /-- the bytes of a token -/
  tokenBytes : Token → List UInt8
  eosTokenIds : List Token

namespace DetokenizeManager

def decode (m : DetokenizeManager) (ids : List Token) : Text :=
  Utf8.decode (ids.flatMap m.tokenBytes)

def discard (m : DetokenizeManager) (uid : Nat) : DetokenizeManager :=
  { m with decodeMap := update m.decodeMap uid none }

/-- The first loop for one message: its state, with the new token unless it is the finishing end of
sequence. -/
def accept (m : DetokenizeManager) (entry : Option DecodeStatus) (msg : DetokenizeMsg) :
    DecodeStatus :=
  let s := entry.getD .fresh
  if msg.finished && m.eosTokenIds.contains msg.nextToken then s
  else { s with decodedIds := s.decodedIds ++ [msg.nextToken] }

/-- The ids to read and the ids read before, for every message of the batch. -/
def collect (m : DetokenizeManager) :
    List DetokenizeMsg → DetokenizeManager × List (List Token × List Token)
  | [] => (m, [])
  | msg :: msgs =>
      let s := accept m (m.decodeMap msg.uid) msg
      let (m', ids) := collect { m with decodeMap := update m.decodeMap msg.uid (some s) } msgs
      (m', (s.decodedIds.drop s.surrOffset,
        (s.decodedIds.take s.readOffset).drop s.surrOffset) :: ids)

/-- Where the text that may be sent ends. -/
def emitEnd (msg : DetokenizeMsg) (outputStr : Text) : Nat :=
  if msg.finished then
    match msg.matchedStop with
    | some stop => if stop = [] then outputStr.length else (find stop outputStr).getD outputStr.length
    | none => outputStr.length
  else outputStr.length - stopPrefixHoldback outputStr msg.stopStrs

/-- The second loop for one message: the new state, and the text to send. -/
def advance (s : DecodeStatus) (msg : DetokenizeMsg) (readStr surrStr : Text) :
    DecodeStatus × Text :=
  let newText := readStr.drop surrStr.length
  let (s, outputStr) :=
    if newText ≠ [] ∧ newText.getLast? ≠ some Utf8.replacement then
      let outputStr := s.decodedStr ++ newText
      ({ s with
          decodedStr := outputStr
          surrOffset := s.readOffset
          readOffset := s.decodedIds.length }, outputStr)
    else (s, s.decodedStr ++ findPrintableText newText)
  let stop := emitEnd msg outputStr
  ({ s with sentOffset := max s.sentOffset stop },
    if s.sentOffset < stop then (outputStr.take stop).drop s.sentOffset else [])

def release (m : DetokenizeManager) :
    List (DetokenizeMsg × Text × Text) → Py (DetokenizeManager × List Text)
  | [] => .ok (m, [])
  | (msg, readStr, surrStr) :: rest =>
      match m.decodeMap msg.uid with
      | none => .error (.keyError msg.uid)
      | some s => do
          let (s, out) := advance s msg readStr surrStr
          let entry := if msg.finished then none else some s
          let (m, outs) ← release { m with decodeMap := update m.decodeMap msg.uid entry } rest
          return (m, out :: outs)

def detokenize (m : DetokenizeManager) (msgs : List DetokenizeMsg) :
    Py (DetokenizeManager × List Text) :=
  let (m, ids) := collect m msgs
  release m (msgs.zip (ids.map fun p => (m.decode p.1, m.decode p.2)))

end DetokenizeManager

end FreeToken
