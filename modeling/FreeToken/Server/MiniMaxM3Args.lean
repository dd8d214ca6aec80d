import FreeToken.Server.ParamTypes

/-!
# The arguments of a MiniMax-M3 call

An argument is an element named after its parameter, every tag of it behind the namespace marker.
The scan of a text for elements, the value of a leaf by its schema, and the values that are put
together from scanned elements.
-/

set_option autoImplicit false

/-- `bool(value)`, of a schema's member. -/
def Json.truthy : Json → Bool
  | .null => false
  | .bool b => b
  | .num lit =>
      (lit.takeWhile fun c => c ≠ 'e' && c ≠ 'E').any fun c => c ≠ '0' && c ≠ '.' && c ≠ '-'
  | .str s => !s.isEmpty
  | .arr xs => !xs.isEmpty
  | .obj ms => !ms.isEmpty

/-- `value.get(key) if isinstance(value, dict) else None` -/
def Json.get (v : Json) (key : List Char) : Json :=
  match v with
  | .obj ms => (ms.lookup key).getD .null
  | _ => .null

namespace FreeToken

open Search Text

attribute [local instance] Text.lawfulBEq

/-- The value of an argument: one a leaf was converted to, what `float` gave, a dictionary or a
list. -/
inductive ArgumentValue
  | leaf (v : PyValue)
  | float (x : PyFloat)
  | dict (ms : List (Text × ArgumentValue))
  | list (xs : List ArgumentValue)

namespace ArgumentValue

def str (s : Text) : ArgumentValue := .leaf (.json (.str s))

/-- `prev if isinstance(prev, list) else [prev]` -/
def toList : ArgumentValue → List ArgumentValue
  | .list xs => xs
  | .leaf (.json (.arr xs)) => xs.map fun x => .leaf (.json x)
  | v => [v]

/-- Set a key; the values of a key that comes again are a list. -/
def insert (out : List (Text × ArgumentValue)) (key : Text) (value : ArgumentValue) :
    List (Text × ArgumentValue) :=
  match out.lookup key with
  | some prev => Json.dictSet out key (.list (prev.toList ++ [value]))
  | none => Json.dictSet out key value

end ArgumentValue

namespace MiniMaxM3Detector

/-- The namespace marker. -/
def ns : Text := "]<]minimax[>[".toList

/-- `_TAG_BAD_CHARS` -/
def tagBadChars : List Char := [' ', '"', '<', '>', '/']

/-- A tag with this text between its brackets. -/
def tag (body : Text) : Text := ns ++ '<' :: (body ++ ['>'])

def openTag (name : Text) : Text := tag name

def closeTag (name : Text) : Text := tag ('/' :: name)

/-- `text.find(tok, pos)` -/
def findFrom (tok text : Text) (pos : Nat) : Option Nat := (find tok (text.drop pos)).map (pos + ·)

/-- `text[start:stop]` -/
def span (text : Text) (start stop : Nat) : Text := (text.drop start).take (stop - start)

/-- The loop over the tags of one name: where the element's text ends, and where the scan goes on;
`none` if the element is not terminated. -/
def matchClose (text name : Text) : Nat → Nat → Nat → Option (Nat × Nat)
  | 0, _, _ => none
  | fuel + 1, depth, search =>
      match findFrom (closeTag name) text search with
      | none => none
      | some cpos =>
          match foundBefore (findFrom (openTag name) text search) (some cpos) with
          | some opos => matchClose text name fuel (depth + 1) (opos + (openTag name).length)
          | none =>
              if depth - 1 = 0 then some (cpos, cpos + (closeTag name).length)
              else matchClose text name fuel (depth - 1) (cpos + (closeTag name).length)

/-- Text before the stray text of a scan. -/
def prepend (stray : Text) (scanned : List (Text × Text) × Text) : List (Text × Text) × Text :=
  (scanned.1, stray ++ scanned.2)

/-- The loop of `_scan_elements`, from a position of the text. -/
def scanFrom (text : Text) : Nat → Nat → List (Text × Text) × Text
  | 0, _ => ([], [])
  | fuel + 1, pos =>
      if text.length ≤ pos then ([], [])
      else
        match findFrom (ns ++ ['<']) text pos with
        | none => ([], text.drop pos)
        | some nxt =>
            let stray := span text pos nxt
            if ns ++ ['<', '/'] <+: text.drop nxt then
              -- a close tag that no element opened
              prepend stray (scanFrom text fuel (nxt + ns.length + 2))
            else
              let tagStart := nxt + ns.length + 1
              match findFrom ['>'] text tagStart with
              | none => ([], stray)
              | some gt =>
                  let name := span text tagStart gt
                  if name = [] ∨ name.any (· ∈ tagBadChars) then
                    prepend stray (scanFrom text fuel (gt + 1))
                  else
                    match matchClose text name text.length 1 (gt + 1) with
                    | none => ([], stray)
                    | some (innerEnd, search) =>
                        let scanned := prepend stray (scanFrom text fuel search)
                        ((name, span text (gt + 1) innerEnd) :: scanned.1, scanned.2)

/-- `_scan_elements`: the elements, and the text between them. -/
def scanElements (text : Text) : List (Text × Text) × Text := scanFrom text text.length 0

/-! ## Leaves -/

section Leaves

variable (cx : TypedContext)

/-- `_union_leaf` -/
def unionLeaf (raw : Text) : List Json → ArgumentValue
  | [] => .str raw
  | sub :: subs =>
      let s := strip raw
      let t := match sub with
        | .obj ms => lower (strip (cx.str ((ms.lookup "type".toList).getD (.str []))))
        | _ => []
      if t ∈ ["integer".toList, "int".toList] then
        match cx.int s with
        | some lit => .leaf (.json (.num lit))
        | none => unionLeaf raw subs
      else if t ∈ ["number".toList, "float".toList, "double".toList] then
        match cx.int s, cx.float s with
        | some lit, _ => .leaf (.json (.num lit))
        | none, some x => .float x
        | none, none => unionLeaf raw subs
      else if t ∈ ["boolean".toList, "bool".toList] ∧ lower s ∈ ["true".toList, "false".toList] then
        .leaf (.json (.bool (lower s = "true".toList)))
      else if t = "null".toList ∧ lower s = "null".toList then .leaf (.json .null)
      else if t = "object".toList then
        match Json.loads s with
        | some (.obj ms) => .leaf (.json (.obj ms))
        | _ => unionLeaf raw subs
      else if t = "array".toList then
        match Json.loads s with
        | some (.arr xs) => .leaf (.json (.arr xs))
        | _ => unionLeaf raw subs
      else unionLeaf raw subs

/-- `prop.get("anyOf") or prop.get("oneOf")`, where that is a list with members and the schema says
no type. -/
def unionOf (prop : List Json.Member) : Option (List Json) :=
  if (prop.lookup "type".toList).isSome then none
  else
    let anyOf := (Json.obj prop).get "anyOf".toList
    match if anyOf.truthy then anyOf else (Json.obj prop).get "oneOf".toList with
    | .arr (sub :: subs) => some (sub :: subs)
    | _ => none

/-- The type of a leaf with a schema. -/
def leafType : Json → Text
  | .obj prop => lower (strip (cx.str ((prop.lookup "type".toList).getD (.str "string".toList))))
  | _ => "string".toList

/-- The conversion of a leaf to the type of its schema. -/
def declaredLeaf (raw : Text) (prop : Json) : Py ArgumentValue :=
  let ptype := leafType cx prop
  if ptype ∈ TypedContext.stringTypes then .ok (.str raw)
  else if ptype ∈ ["number".toList, "float".toList, "double".toList] then
    let s := strip raw
    match cx.int s, cx.float s with
    | some lit, _ => .ok (.leaf (.json (.num lit)))
    | none, some x => .ok (.float x)
    | none, none => .ok (.str raw)
  else if ptype = "object".toList ∧ strip raw = [] then .ok (.dict [])
  else if ptype = "array".toList ∧ strip raw = [] then .ok (.list [])
  else do
    let v ← cx.convertParamValue (strip raw) ['_'] [(['_'], prop)]
    return .leaf v

/-- `_typed_leaf`; no schema is `null`. -/
def typedLeaf (raw : Text) (prop : Json) : Py ArgumentValue :=
  match prop with
  | .null =>
      if strip raw = [] then .ok (.str [])
      else
        match TypedContext.parseLooseJsonValue (strip raw) with
        | .str _ => .ok (.str raw)
        | v => .ok (.leaf (.json v))
  | .obj ms =>
      match unionOf ms with
      | some subs => .ok (unionLeaf cx raw subs)
      | none => declaredLeaf cx raw prop
  | _ => declaredLeaf cx raw prop

/-! ## Values of elements -/

/-- The schema of the items of a list. -/
def itemSchema (schema : Json) : Json := schema.get "items".toList

/-- `_sub_schema` -/
def subSchema (schema : Json) (key : Text) : Json :=
  match (schema.get "properties".toList).get key with
  | .null =>
      match schema.get "additionalProperties".toList with
      | .obj ms => .obj ms
      | _ => .null
  | sub => sub

/-- The schema of an element of a repeated key: an array's schema is unwrapped. -/
def repeatedSchema (sub : Json) : Json :=
  match sub with
  | .obj ms =>
      if lower (cx.str ((ms.lookup "type".toList).getD (.str []))) = "array".toList then
        sub.get "items".toList
      else sub
  | _ => sub

/-- `_structure`; `nestedValue` gives the value of an element's text by its schema. -/
def structureOf (nestedValue : Text → Json → Py ArgumentValue) (items : List (Text × Text))
    (schema : Json) (stray : Text) : Py ArgumentValue :=
  if items ≠ [] ∧ ∀ item ∈ items, item.1 = "item".toList then do
    let xs ← items.mapM fun item => nestedValue item.2 (itemSchema schema)
    return .list xs
  else do
    let out ← items.foldlM (fun out item => do
      let sub := subSchema schema item.1
      let sub := if 1 < (items.map Prod.fst).count item.1 then repeatedSchema cx sub else sub
      let value ← nestedValue item.2 sub
      return ArgumentValue.insert out item.1 value) []
    return .dict (if strip stray = [] then out
      else Json.dictSet out "$text".toList (.str (strip stray)))

/-- `_nested_value`; the first argument bounds the depth, which the length of the text does. -/
def nestedValue : Nat → Text → Json → Py ArgumentValue
  | 0, raw, schema => typedLeaf cx raw schema
  | fuel + 1, raw, schema =>
      let scanned := scanElements raw
      if scanned.1 = [] then typedLeaf cx raw schema
      else structureOf cx (nestedValue fuel) scanned.1 schema scanned.2

/-- `_args_from_items` -/
def argsFromItems (funcName : Text) (items : List (Text × Text)) :
    Py (List (Text × ArgumentValue)) :=
  items.foldlM (fun args item => do
    let prop := ((cx.getParamConfig funcName).lookup item.1).getD .null
    let scanned := scanElements item.2
    let value ← (if scanned.1 = [] then typedLeaf cx item.2 prop
      else structureOf cx (nestedValue cx item.2.length) scanned.1 prop scanned.2)
    return ArgumentValue.insert args item.1 value) []

end Leaves

end MiniMaxM3Detector

end FreeToken
