import FreeToken.Server.FunctionCallParser

/-!
# The types of parameters

What the schema of a tool says about a parameter, and the conversion of the text of its value.
-/

set_option autoImplicit false

namespace FreeToken

open Search Text

attribute [local instance] Text.lawfulBEq

/-- What `float(value)` gives; a finite number with `int` of it, where the two are equal. -/
inductive PyFloat
  | nan
  | infinite
  | finite (whole : Option Text) (text : Text)

/-- A Python value: one that `json.dumps` writes, or one it raises on. -/
inductive PyValue
  | json (v : Json)
  | other

/-- The builtins a conversion calls: `str`, `int`, `float` and `ast.literal_eval`; `none` is the
error that the conversion catches. -/
structure TypedContext extends ToolContext where
  str : Json → Text
  int : Text → Option Text
  float : Text → Option PyFloat
  literalEval : Text → Option PyValue

/-- `str.lower`, as far as a comparison with ASCII words sees it. -/
def lower (t : Text) : Text := t.map Char.toLower

namespace TypedContext

/-- `_get_param_config`; the `properties` of a schema are an object. -/
def getParamConfig (cx : TypedContext) (funcName : Text) : List Json.Member :=
  match cx.tools.find? fun tool =>
      decide (tool.name = funcName) && !(tool.parameters.getD []).isEmpty with
  | none => []
  | some tool =>
      let params := tool.parameters.getD []
      match params.lookup "properties".toList with
      | some (.obj properties) => properties
      | some _ => []
      | none => params

/-- `_schema_param_type`. -/
def schemaParamType (cx : TypedContext) (name : Text) (config : List Json.Member)
    (missing : Text) : Text :=
  match config.lookup name with
  | none => missing
  | some (.obj prop) =>
      lower (strip (cx.str ((prop.lookup "type".toList).getD (.str "string".toList))))
  | some _ => "string".toList

def stringTypes : List Text := ["string".toList, "str".toList, "enum".toList]

/-- `_convert_param_value`. -/
def convertParamValue (cx : TypedContext) (value name : Text) (config : List Json.Member) :
    Py PyValue :=
  if lower value = "null".toList then .ok (.json .null)
  else if (config.lookup name).isNone then .ok (.json (.str value))
  else
    let paramType := cx.schemaParamType name config []
    if paramType ∈ stringTypes then .ok (.json (.str value))
    else if "int".toList <+: paramType then
      .ok (.json (((cx.int value).map .num).getD (.str value)))
    else if paramType ∈ ["number".toList, "float".toList, "double".toList] then
      match cx.float value with
      | none | some .nan => .ok (.json (.str value))
      | some .infinite => .error (.overflowError "cannot convert float infinity to integer")
      | some (.finite whole text) => .ok (.json (.num (whole.getD text)))
    else if paramType ∈ ["boolean".toList, "bool".toList] then
      .ok (.json (.bool (lower value = "true".toList)))
    else if paramType ∈ ["object".toList, "array".toList] then
      match Json.loads value with
      | some v => .ok (.json v)
      | none => .ok ((cx.literalEval value).getD (.json (.str value)))
    else .ok (.json (.str value))

/-- `_parse_loose_json_value`. -/
def parseLooseJsonValue (value : Text) : Json :=
  match Json.loads value with
  | some v => v
  | none =>
      if lower value = "true".toList then .bool true
      else if lower value = "false".toList then .bool false
      else if lower value = "null".toList then .null
      else .str value

/-- `json.dumps(value, ensure_ascii=False)`. -/
def dumpsValue (cx : TypedContext) : PyValue → Py Text
  | .json v => .ok (cx.dumps v)
  | .other => .error (.typeError "Object is not JSON serializable")

end TypedContext

end FreeToken
