import Mathlib.Data.Nat.Digits.Lemmas
import FreeToken.Server.FunctionCallParser

/-!
# Arguments in the compact notation of Gemma

The splitter that counts brackets outside quoted strings, the parser of a value and the parser of the
arguments of a call.
-/

set_option autoImplicit false

namespace FreeToken

namespace GemmaArgs

open Text Search

attribute [local instance] Text.lawfulBEq

/-- What the parser gives; a float is the number nearest to its literal. -/
inductive GemmaValue
  | null
  | bool (b : Bool)
  | int (n : Int)
  | float (literal : Text)
  | str (s : Text)
  | list (xs : List GemmaValue)
  | dict (ms : List (Text × GemmaValue))

def marker : Text := "<|\"|>".toList

/-! ## The splitter -/

/-- Text in front of the first part. -/
def prepend (w : Text) (parts : Text × List Text) : Text × List Text := (w ++ parts.1, parts.2)

/-- The loop of `_split_top_level`; `skip` counts what is left of a marker it has stepped over. -/
def splitLoop (delimiter : Char) : Int → Bool → Nat → Text → Text × List Text
  | _, _, _, [] => ([], [])
  | depth, inString, skip + 1, c :: t => prepend [c] (splitLoop delimiter depth inString skip t)
  | depth, inString, 0, c :: t =>
      if marker <+: c :: t then
        prepend [c] (splitLoop delimiter depth (!inString) (marker.length - 1) t)
      else if inString then prepend [c] (splitLoop delimiter depth inString 0 t)
      else if c = '[' ∨ c = '{' then prepend [c] (splitLoop delimiter (depth + 1) inString 0 t)
      else if c = ']' ∨ c = '}' then prepend [c] (splitLoop delimiter (depth - 1) inString 0 t)
      else if c = delimiter ∧ depth = 0 then
        ([], (splitLoop delimiter depth inString 0 t).1 :: (splitLoop delimiter depth inString 0 t).2)
      else prepend [c] (splitLoop delimiter depth inString 0 t)

/-- `_split_top_level` -/
def splitTopLevel (text : Text) (delimiter : Char) : List Text :=
  (splitLoop delimiter 0 false 0 text).1 :: (splitLoop delimiter 0 false 0 text).2

/-! ## Numbers -/

def isDigit (c : Char) : Bool := '0' ≤ c && c ≤ '9'

def digitValue (c : Char) : Nat := c.toNat - '0'.toNat

/-- Further digits, a single underscore between two of them or not. -/
def digitsFrom : Nat → Text → Option Nat
  | acc, [] => some acc
  | acc, '_' :: c :: t => if isDigit c then digitsFrom (acc * 10 + digitValue c) t else none
  | acc, c :: t => if isDigit c then digitsFrom (acc * 10 + digitValue c) t else none

def digits : Text → Option Nat
  | [] => none
  | c :: t => if isDigit c then digitsFrom (digitValue c) t else none

/-- `int(value)` of a text in ASCII -/
def pyInt (value : Text) : Option Int :=
  match strip value with
  | '-' :: t => (digits t).map fun n => -(n : Int)
  | '+' :: t => (digits t).map Int.ofNat
  | t => (digits t).map Int.ofNat

/-- Digits up to what is none, and the rest. -/
def digitRun : Text → Text × Text
  | [] => ([], [])
  | c :: t =>
      if isDigit c then
        match t with
        | '_' :: d :: u => if isDigit d then (c :: (digitRun (d :: u)).1, (digitRun (d :: u)).2) else ([c], t)
        | t => (c :: (digitRun t).1, (digitRun t).2)
      else ([], c :: t)

def unsign : Text → Text
  | '-' :: t => t
  | '+' :: t => t
  | t => t

def isExponent : Text → Bool
  | [] => true
  | c :: t =>
      (c = 'e' || c = 'E') && (digitRun (unsign t)).1 ≠ [] && (digitRun (unsign t)).2 = []

/-- `float(value)` of a text in ASCII does not raise. -/
def isFloat (value : Text) : Bool :=
  let t := unsign (strip value)
  t.map Char.toLower ∈ ["inf".toList, "infinity".toList, "nan".toList] ||
    (let whole := digitRun t
     match whole.2 with
     | '.' :: u => (whole.1 ≠ [] || (digitRun u).1 ≠ []) && isExponent (digitRun u).2
     | u => whole.1 ≠ [] && isExponent u)

/-! ## Values and arguments -/

/-- One item of `_parse_gemma_call_args`, given the parser of a value. -/
def callArg (parseValue : Text → Option GemmaValue) (args : List (Text × GemmaValue)) (item : Text) :
    Option (List (Text × GemmaValue)) :=
  if strip item = [] then some args
  else if ':' ∉ item then some args
  else do
    let v ← parseValue (strip (item.dropWhile (· ≠ ':')).tail)
    pure (Json.dictSet args (strip (item.takeWhile (· ≠ ':'))) v)

def callArgs (parseValue : Text → Option GemmaValue) (text : Text) : Option (List (Text × GemmaValue)) :=
  (splitTopLevel text ',').foldlM (callArg parseValue) []

/-- `value[a:-b]` -/
def cut (value : Text) (a b : Nat) : Text := (value.drop a).take (value.length - b - a)

/-- `_parse_gemma_value`, nested so many levels deep at most. -/
def valueAt : Nat → Text → Option GemmaValue
  | 0, _ => none
  | depth + 1, value =>
      let value := strip value
      if marker <+: value ∧ marker <:+ value then some (.str (cut value marker.length marker.length))
      else if value = "true".toList then some (.bool true)
      else if value = "false".toList then some (.bool false)
      else if value ∈ ["null".toList, "none".toList, "None".toList] then some .null
      else if ['{'] <+: value ∧ ['}'] <:+ value then
        (callArgs (valueAt depth) (cut value 1 1)).map .dict
      else if ['['] <+: value ∧ [']'] <:+ value then
        ((splitTopLevel (cut value 1 1) ',').mapM (valueAt depth)).map .list
      else match pyInt value with
        | some n => some (.int n)
        | none => if isFloat value then some (.float value) else some (.str value)

/-- `_parse_gemma_value`; every level of nesting takes a character. -/
def parseGemmaValue (value : Text) : Option GemmaValue := valueAt (value.length + 1) value

/-- `_parse_gemma_call_args` -/
def parseGemmaCallArgs (text : Text) : Option (List (Text × GemmaValue)) :=
  callArgs (valueAt (text.length + 1)) text

/-! ## The notation -/

/-- The decimal form of a number. -/
def decimal (n : Nat) : Text :=
  if n = 0 then ['0'] else (Nat.digits 10 n).reverse.map fun d => Char.ofNat ('0'.toNat + d)

def intText (n : Int) : Text :=
  if n < 0 then '-' :: decimal n.natAbs else decimal n.natAbs

/-- Texts with a comma between. -/
def joinComma : List Text → Text
  | [] => []
  | [w] => w
  | w :: ws => w ++ ',' :: joinComma ws

mutual

def render : GemmaValue → Text
  | .null => "null".toList
  | .bool b => if b then "true".toList else "false".toList
  | .int n => intText n
  | .float literal => literal
  | .str s => marker ++ (s ++ marker)
  | .list xs => '[' :: (joinComma (renderItems xs) ++ [']'])
  | .dict ms => '{' :: (joinComma (renderMembers ms) ++ ['}'])

def renderItems : List GemmaValue → List Text
  | [] => []
  | x :: xs => render x :: renderItems xs

def renderMembers : List (Text × GemmaValue) → List Text
  | [] => []
  | (k, x) :: ms => (k ++ ':' :: render x) :: renderMembers ms

end

/-- A key of the notation. -/
def IsKey (k : Text) : Prop :=
  (∀ c ∈ k, c ∉ [':', ',', '[', ']', '{', '}'] ∧ isSpace c = false) ∧ find marker k = none

mutual

/-- The values the notation is for: no floats, strings without the marker, distinct keys. -/
def Renderable : GemmaValue → Prop
  | .null => True
  | .bool _ => True
  | .int _ => True
  | .float _ => False
  | .str s => find marker s = none
  | .list xs => RenderableItems xs
  | .dict ms => (ms.map Prod.fst).Nodup ∧ RenderableMembers ms

def RenderableItems : List GemmaValue → Prop
  | [] => True
  | x :: xs => Renderable x ∧ RenderableItems xs

def RenderableMembers : List (Text × GemmaValue) → Prop
  | [] => True
  | (k, x) :: ms => IsKey k ∧ Renderable x ∧ RenderableMembers ms

end

mutual

/-- No list in the value is empty. -/
def NoEmptyList : GemmaValue → Prop
  | .list xs => xs ≠ [] ∧ NoEmptyItems xs
  | .dict ms => NoEmptyMembers ms
  | _ => True

def NoEmptyItems : List GemmaValue → Prop
  | [] => True
  | x :: xs => NoEmptyList x ∧ NoEmptyItems xs

def NoEmptyMembers : List (Text × GemmaValue) → Prop
  | [] => True
  | (_, x) :: ms => NoEmptyList x ∧ NoEmptyMembers ms

end

end GemmaArgs

end FreeToken
