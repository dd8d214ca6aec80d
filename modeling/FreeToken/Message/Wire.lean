import Mathlib.Algebra.BigOperators.Group.List.Basic

/-!
# The wire form of a message

`_serialize_any` and `_deserialize_any` of `message/utils.py`.  A class instance, a tensor and a dict
of the client all travel as dicts; the reserved keys tell them apart.
-/

set_option autoImplicit false

namespace FreeToken

namespace Wire

/-! ## Tensors -/

/-- The element types that numpy has under the name torch uses. -/
inductive NpDtype
  | bool | uint8 | uint16 | uint32 | uint64 | int8 | int16 | int32 | int64
  | float16 | float32 | float64 | complex64 | complex128
  deriving DecidableEq, Repr

namespace NpDtype

def all : List NpDtype :=
  [bool, uint8, uint16, uint32, uint64, int8, int16, int32, int64, float16, float32, float64,
    complex64, complex128]

def name : NpDtype → String
  | bool => "bool"
  | uint8 => "uint8"
  | uint16 => "uint16"
  | uint32 => "uint32"
  | uint64 => "uint64"
  | int8 => "int8"
  | int16 => "int16"
  | int32 => "int32"
  | int64 => "int64"
  | float16 => "float16"
  | float32 => "float32"
  | float64 => "float64"
  | complex64 => "complex64"
  | complex128 => "complex128"

def itemsize : NpDtype → Nat
  | bool | uint8 | int8 => 1
  | uint16 | int16 | float16 => 2
  | uint32 | int32 | float32 => 4
  | uint64 | int64 | float64 | complex64 => 8
  | complex128 => 16

/-- `getattr(np, name)`, of the names that are element types. -/
def ofName (s : String) : Option NpDtype := all.find? fun d => d.name = s

end NpDtype

/-- A torch element type; `other` is one numpy lacks, such as `bfloat16`. -/
inductive Dtype
  | np (d : NpDtype)
  | other (name : String) (itemsize : Nat)
  deriving DecidableEq, Repr

namespace Dtype

def itemsize : Dtype → Nat
  | np d => d.itemsize
  | other _ k => k

/-- `str(dtype)`. -/
def str : Dtype → String
  | np d => "torch." ++ d.name
  | other name _ => "torch." ++ name

end Dtype

/-- A tensor on the host: the bytes of its elements, in order. -/
@[ext]
structure Tensor where
  dtype : Dtype
  shape : List Nat
  elems : List (List UInt8)
  count : elems.length = shape.prod
  size : ∀ e ∈ elems, e.length = dtype.itemsize

/-! ## Values -/

/-- A Python value.  A dict lists its items in order; an object its class and `__dict__`. -/
inductive PyValue
  | none
  | bool (b : Bool)
  | int (i : Int)
  | float (bits : UInt64)
  | str (s : String)
  | bytes (b : List UInt8)
  | list (xs : List PyValue)
  | tuple (xs : List PyValue)
  | dict (items : List (String × PyValue))
  | tensor (t : Tensor)
  | obj (cls : String) (fields : List (String × PyValue))

abbrev Item := String × PyValue

inductive WireError
  | assertion (msg : String)
  | valueError (msg : String)
  | keyError (key : String)
  | attributeError (msg : String)
  | typeError (msg : String)
  deriving DecidableEq, Repr

abbrev Res := Except WireError

def hasKey (k : String) (items : List Item) : Bool := items.any fun kv => kv.1 = k

def get? (k : String) (items : List Item) : Option PyValue :=
  (items.find? fun kv => kv.1 = k).map Prod.snd

/-- `d[k] = v`: a new key goes to the end, an old one keeps its place. -/
def setKey (items : List Item) (kv : Item) : List Item :=
  if hasKey kv.1 items then items.map fun x => if x.1 = kv.1 then kv else x else items ++ [kv]

def typeKey : String := "__type__"

def rawDictKey : String := "__raw_dict__"

/-! ## Serializing -/

/-- The tensor branch of `serialize_type`. -/
def serializeTensor (t : Tensor) : Res PyValue :=
  if t.shape.length = 1 then
    match t.dtype with
    | .np _ =>
        .ok (.dict [("__type__", .str "Tensor"), ("buffer", .bytes t.elems.flatten),
          ("dtype", .str t.dtype.str)])
    | .other name _ => .error (.typeError s!"Got unsupported ScalarType {name}")
  else .error (.assertion "we can only serialize 1D tensor for now")

/-- The instance branch of `serialize_type`, over the encoded items of `__dict__`. -/
def serializeFields (cls : String) (encoded : List Item) : PyValue :=
  .dict (encoded.foldl setKey [("__type__", .str cls)])

/-- The dict branch of `_serialize_any`: a dict that uses a reserved key is wrapped. -/
def escape (encoded : List Item) : PyValue :=
  if hasKey typeKey encoded || hasKey rawDictKey encoded then .dict [(rawDictKey, .dict encoded)]
  else .dict encoded

mutual

/-- `_serialize_any`. -/
def serializeAny : PyValue → Res PyValue
  | .dict items => do return escape (← serializeItems items)
  | .list xs => do return .list (← serializeList xs)
  | .tuple xs => do return .tuple (← serializeList xs)
  | .tensor t => serializeTensor t
  | .obj cls fields => do return serializeFields cls (← serializeItems fields)
  | .none => .ok .none
  | .bool b => .ok (.bool b)
  | .int i => .ok (.int i)
  | .float x => .ok (.float x)
  | .str s => .ok (.str s)
  | .bytes b => .ok (.bytes b)

def serializeList : List PyValue → Res (List PyValue)
  | [] => .ok []
  | x :: xs => do
      let e ← serializeAny x
      return e :: (← serializeList xs)

def serializeItems : List Item → Res (List Item)
  | [] => .ok []
  | (k, v) :: rest => do
      let e ← serializeAny v
      return (k, e) :: (← serializeItems rest)

end

/-- `serialize_type`, which is a message's `encoder`. -/
def serializeType : PyValue → Res PyValue
  | .tensor t => serializeTensor t
  | .obj cls fields => do return serializeFields cls (← serializeItems fields)
  | _ => .error (.attributeError "__dict__")

/-! ## Classes -/

/-- A field of a dataclass, with its default. -/
structure Field where
  name : String
  default : Option PyValue

structure PyClass where
  name : String
  fields : List Field

/-- The classes among the globals of a module. -/
abbrev Module := List PyClass

/-- The values a dataclass's `__init__` gives its fields. -/
def bindFields (kwargs : List Item) : List Field → Res (List Item)
  | [] => .ok []
  | f :: rest => do
      let v ← match get? f.name kwargs with
        | some v => .ok v
        | none =>
            match f.default with
            | some d => .ok d
            | none => .error (.typeError s!"missing required argument {f.name}")
      return (f.name, v) :: (← bindFields kwargs rest)

/-- `cls(**kwargs)`. -/
def construct (c : PyClass) (kwargs : List Item) : Res PyValue :=
  match kwargs.find? fun kv => !c.fields.any fun f => f.name = kv.1 with
  | some kv => .error (.typeError s!"unexpected keyword argument {kv.1}")
  | none => do return .obj c.name (← bindFields kwargs c.fields)

/-! ## Deserializing -/

/-- `s.replace(pat, "")`; every round drops a character or an occurrence. -/
def removeAll (pat : List Char) : Nat → List Char → List Char
  | 0, t => t
  | _ + 1, [] => []
  | fuel + 1, c :: t =>
      if pat.isPrefixOf (c :: t) then removeAll pat fuel ((c :: t).drop pat.length)
      else c :: removeAll pat fuel t

def dtypeName (s : String) : String :=
  String.ofList (removeAll "torch.".toList s.toList.length s.toList)

/-- The first `n` runs of `k` bytes. -/
def chunks (k : Nat) : Nat → List UInt8 → List (List UInt8)
  | 0, _ => []
  | n + 1, b => b.take k :: chunks k n (b.drop k)

theorem length_chunks (k n : Nat) (b : List UInt8) : (chunks k n b).length = n := by
  induction n generalizing b with
  | zero => rfl
  | succ n ih => rw [chunks, List.length_cons, ih]

theorem length_of_mem_chunks {k n : Nat} {b : List UInt8} (hb : b.length = n * k) :
    ∀ e ∈ chunks k n b, e.length = k := by
  induction n generalizing b with
  | zero =>
      intro e he
      cases he
  | succ n ih =>
      have hlen : b.length = n * k + k := by rw [hb, Nat.succ_mul]
      intro e he
      rcases List.mem_cons.1 he with rfl | he
      · exact List.length_take_of_le (by omega)
      · apply ih _ e he
        rw [List.length_drop]
        omega

/-- `torch.from_numpy(np.frombuffer(buffer, dtype).copy())`. -/
def fromBuffer (d : NpDtype) (b : List UInt8) : Res Tensor :=
  if h : b.length = b.length / d.itemsize * d.itemsize then
    .ok
      { dtype := .np d
        shape := [b.length / d.itemsize]
        elems := chunks d.itemsize (b.length / d.itemsize) b
        count := by rw [length_chunks, List.prod_singleton]
        size := length_of_mem_chunks h }
  else .error (.valueError "buffer size must be a multiple of element size")

/-- The tensor branch of `deserialize_type`. -/
def deserializeTensor (items : List Item) : Res PyValue :=
  match get? "buffer" items with
  | none => .error (.keyError "buffer")
  | some buffer =>
      match get? "dtype" items with
      | none => .error (.keyError "dtype")
      | some (.str s) =>
          match NpDtype.ofName (dtypeName s) with
          | none => .error (.attributeError (dtypeName s))
          | some d =>
              match buffer with
              | .bytes b => do return .tensor (← fromBuffer d b)
              | _ => .error (.assertion "isinstance(buffer, bytes)")
      | some _ => .error (.attributeError "replace")

/-- `deserialize_type`, over the decoded items other than the type key. -/
def deserializeWith (m : Module) (items : List Item) (kwargs : Res (List Item)) : Res PyValue :=
  match get? "__type__" items with
  | none => .error (.keyError "__type__")
  | some (.str name) =>
      if name = "Tensor" then deserializeTensor items
      else
        match m.find? fun c => c.name = name with
        | none => .error (.valueError s!"Unknown serialized message type {name}")
        | some c => do construct c (← kwargs)
  | some (.list _) | some (.dict _) => .error (.typeError "unhashable type")
  | some _ => .error (.valueError "Unknown serialized message type")

/-- The test for a wrapped dict. -/
def isRaw (items : List Item) : Bool := items.length = 1 && hasKey rawDictKey items

mutual

/-- `_deserialize_any`. -/
def deserializeAny (m : Module) : PyValue → Res PyValue
  | .dict items =>
      if isRaw items then deserializeRaw m items
      else if hasKey typeKey items then deserializeWith m items (deserializeKwargs m items)
      else do return .dict (← deserializeItems m items)
  | .list xs => do return .list (← deserializeList m xs)
  | .tuple xs => do return .tuple (← deserializeList m xs)
  | .none => .ok .none
  | .bool b => .ok (.bool b)
  | .int i => .ok (.int i)
  | .float x => .ok (.float x)
  | .str s => .ok (.str s)
  | .bytes b => .ok (.bytes b)
  | .tensor _ => .error (.valueError "Cannot deserialize type")
  | .obj _ _ => .error (.valueError "Cannot deserialize type")

/-- The items of a wrapped dict, which keep their keys whatever these are. -/
def deserializeRaw (m : Module) : List Item → Res PyValue
  | [] => .error (.keyError rawDictKey)
  | (_, v) :: _ => deserializeInner m v

def deserializeInner (m : Module) : PyValue → Res PyValue
  | .dict inner => do return .dict (← deserializeItems m inner)
  | _ => .error (.attributeError "items")

def deserializeList (m : Module) : List PyValue → Res (List PyValue)
  | [] => .ok []
  | x :: xs => do
      let v ← deserializeAny m x
      return v :: (← deserializeList m xs)

def deserializeItems (m : Module) : List Item → Res (List Item)
  | [] => .ok []
  | (k, e) :: rest => do
      let v ← deserializeAny m e
      return (k, v) :: (← deserializeItems m rest)

/-- The keyword arguments of an instance. -/
def deserializeKwargs (m : Module) : List Item → Res (List Item)
  | [] => .ok []
  | (k, e) :: rest =>
      if k = typeKey then deserializeKwargs m rest
      else do
        let v ← deserializeAny m e
        return (k, v) :: (← deserializeKwargs m rest)

end

/-- `deserialize_type`, which is a message's `decoder` with the globals of its module. -/
def deserializeType (m : Module) : PyValue → Res PyValue
  | .dict items => deserializeWith m items (deserializeKwargs m items)
  | _ => .error (.typeError "not subscriptable by a string")

/-! ## The message classes -/

section Classes

def required (name : String) : Field := { name := name, default := none }

def optional (name : String) : Field := { name := name, default := some .none }

def zeroed (name : String) : Field := { name := name, default := some (.int 0) }

/-- `core.SamplingParams`; a float is its bit pattern. -/
def samplingParams : PyClass where
  name := "SamplingParams"
  fields :=
    [{ name := "temperature", default := some (.float 0) },
      { name := "top_k", default := some (.int (-1)) },
      { name := "top_p", default := some (.float 0x3FF0000000000000) },
      { name := "ignore_eos", default := some (.bool false) },
      { name := "max_tokens", default := some (.int 1024) },
      { name := "stop_strs", default := some (.list []) }]

/-- The sizes a cache rebuild asks for, and its mode. -/
def rebuildFields : List Field :=
  [required "request_id", optional "moe_cache_size", optional "num_pages",
    optional "num_mamba_slots", optional "num_swa_pages",
    { name := "mode", default := some (.str "if_idle") }]

def rebuildResultFields : List Field :=
  [required "request_id", required "status", zeroed "moe_cache_size", zeroed "num_pages",
    zeroed "mamba_slots", zeroed "num_swa_pages", optional "error"]

/-- The usage a token's message reports on its way to the status bar. -/
def usageFields : List Field :=
  [zeroed "kv_used_pages", zeroed "kv_total_pages", zeroed "mamba_used_slots",
    zeroed "mamba_total_slots", zeroed "swa_used_tokens", zeroed "swa_total_tokens",
    zeroed "gpu_mem_bytes"]

def tokenizerModule : Module :=
  [samplingParams,
    { name := "BaseTokenizerMsg", fields := [] },
    { name := "BatchTokenizerMsg", fields := [required "data"] },
    { name := "DetokenizeMsg"
      fields := [required "uid", required "next_token", required "finished",
        optional "finish_reason", optional "matched_stop", optional "stop_strs"] ++ usageFields },
    { name := "PromptAdmittedMsg"
      fields := [required "uid", required "prompt_tokens", zeroed "cached_tokens"] },
    { name := "TokenizeMsg"
      fields := [required "uid", required "text", required "sampling_params",
        optional "chat_template_kwargs", optional "tools"] },
    { name := "AbortMsg", fields := [required "uid"] },
    { name := "CacheRebuildMsg", fields := rebuildFields },
    { name := "CacheRebuildResultMsg", fields := rebuildResultFields },
    { name := "ErrorReplyMsg", fields := [required "uid", required "error", optional "code"] }]

def backendModule : Module :=
  [samplingParams,
    { name := "BaseBackendMsg", fields := [] },
    { name := "BatchBackendMsg", fields := [required "data"] },
    { name := "ExitMsg", fields := [] },
    { name := "UserMsg"
      fields := [required "uid", required "input_ids", required "sampling_params",
        optional "mm_embeds"] },
    { name := "AbortBackendMsg", fields := [required "uid"] },
    { name := "CacheRebuildBackendMsg", fields := rebuildFields }]

def frontendModule : Module :=
  [{ name := "BaseFrontendMsg", fields := [] },
    { name := "BatchFrontendMsg", fields := [required "data"] },
    { name := "UserReply"
      fields := [required "uid", required "incremental_output", required "finished",
        zeroed "prompt_tokens_delta", zeroed "completion_tokens_delta", zeroed "cached_tokens"] ++
        usageFields ++ [optional "error", optional "error_code", optional "finish_reason",
        optional "matched_stop"] },
    { name := "CacheRebuildReply", fields := rebuildResultFields }]

def modules : List Module := [tokenizerModule, backendModule, frontendModule]

end Classes

end Wire

end FreeToken
