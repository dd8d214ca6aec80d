import FreeToken.Checkpoint.Ftw

/-!
# Expert banks of a checkpoint

`load_ftw_banks`: the entries of kind `experts_bank` become one host buffer per bank and layer.  A bank
that was written flat is read layer by layer through windows of whole blocks; one that was written per
layer is read entry by entry.
-/

set_option autoImplicit false

namespace FreeToken

namespace Ftw

variable {D : Type}

/-! ## Names of entries -/

/-- `_ALPHA_NAMES` -/
def alphaNames : List String := ["gate_up_alpha", "down_alpha"]

/-- The decimal digits of the interpreter's Unicode tables, with the ASCII ones among them. -/
structure Decimals where
  value : Char → Option Nat
  value_lt : ∀ c d, value c = some d → d < 10
  ascii : ∀ d < 10, value (Nat.digitChar d) = some d
  newline : value '\n' = none

/-- `int` of a match of `\d{5}` -/
def Decimals.number (U : Decimals) (digits : List Char) : Option Nat :=
  digits.foldlM (fun n c => (U.value c).map fun d => 10 * n + d) 0

/-- `_LAYER_ENTRY_RE.match`: the base and the layer.  The tail is of fixed length; the end of the pattern
also matches before a last newline, and the base has none. -/
def matchLayerEntry (U : Decimals) (name : String) : Option (String × Nat) :=
  let cs := name.toList
  let body := if cs.getLast? = some '\n' then cs.dropLast else cs
  let base := body.take (body.length - 7)
  match body.drop (body.length - 7) with
  | ['#', 'L', a, b, c, d, e] =>
      if base ≠ [] ∧ '\n' ∉ base then
        (U.number [a, b, c, d, e]).map fun layer => (String.ofList base, layer)
      else none
  | _ => none

/-! ## Dictionaries -/

/-- `d[k]` after the assignments `d[k] = v`. -/
def assigned {K V : Type} [DecidableEq K] (assigns : List (K × V)) (k : K) : Option V :=
  (assigns.reverse.find? fun a => decide (a.1 = k)).map Prod.snd

/-- The keys, in the order of their first assignment. -/
def keys {K V : Type} [DecidableEq K] (assigns : List (K × V)) : List K :=
  (assigns.map Prod.fst).eraseDups

/-! ## Host buffers -/

/-- `HostBank`: a page-aligned buffer of `alignUp nbytes` bytes, and the tensor in it. -/
structure HostBank (D : Type) where
  shape : List Nat
  dtype : D
  nbytes : Nat

/-- There is no anonymous mapping of no bytes, and no view without dimensions. -/
def HostBank.alloc (T : Dtypes D) (shape : List Nat) (dtype : D) : Except Error (HostBank D) :=
  let nbytes := shape.prod * T.elsize dtype
  if alignUp nbytes = 0 then .error .invalidArgument
  else if shape = [] then .error .typeError
  else .ok { shape := shape, dtype := dtype, nbytes := nbytes }

/-- `bank.tensor`, when the buffer holds `buf`. -/
def HostBank.tensor (T : Dtypes D) (bank : HostBank D) (buf : Bytes) : Except Error (HostTensor T) := do
  let t ← frombuffer T buf bank.dtype (bank.nbytes / T.elsize bank.dtype)
  t.view bank.shape

/-- `buf[off:off + len].view(dtype)` of a tensor of bytes: whole elements that start at a multiple of
their size. -/
def viewAs (T : Dtypes D) (buf : Bytes) (off len : Nat) (dtype : D) : Except Error (HostTensor T) :=
  let raw := Region.slice buf off len
  if h : raw.length % T.elsize dtype = 0 ∧ off % T.elsize dtype = 0 then
    .ok
      { dtype := dtype
        shape := [raw.length / T.elsize dtype]
        bytes := raw
        size := by rw [List.prod_singleton, Nat.div_mul_cancel (Nat.dvd_of_mod_eq_zero h.1)] }
  else .error .runtimeError

/-! ## What is read -/

/-- A read into a buffer of its own, and the view of the filled buffer that is handed out. -/
structure BankRead (T : Dtypes D) where
  bufLen : Nat
  entry : Entry
  view : Bytes → Except Error (HostTensor T)

def dtypeOf (T : Dtypes D) (s : String) : Except Error D :=
  match T.ofStr s with
  | none => .error .attributeError
  | some d => .ok d

/-- The read of one layer of a flat bank: its window of whole blocks. -/
def windowRead (T : Dtypes D) (e : Entry) (numExperts : Nat) (rowShape : List Nat) (dtype : D)
    (layerBytes layerId : Nat) : Except Error (BankRead T) :=
  let off := e.globalOff + layerId * layerBytes
  let winOff := off / align * align
  let winEnd := alignUp (off + layerBytes)
  let headPad := off - winOff
  if winEnd - winOff = 0 then .error .invalidArgument
  else .ok
    { bufLen := winEnd - winOff
      entry := { e with globalOff := winOff, nbytes := winEnd - winOff }
      view := fun buf => do
        let raw ← viewAs T buf headPad layerBytes dtype
        raw.view (numExperts :: rowShape) }

def flatBank (T : Dtypes D) (numLayers : Nat) (e : Entry) : Except Error (List (BankRead T)) :=
  match e.shape with
  | [] => .error (.valueError "not enough values to unpack (expected at least 1, got 0)")
  | total :: rowShape => do
      if numLayers = 0 then throw .zeroDivision
      if total % numLayers ≠ 0 then throw (.assertion e.name)
      let numExperts := total / numLayers
      let dtype ← dtypeOf T e.dtype
      let rowBytes := rowShape.prod * T.elsize dtype
      let layerBytes := numExperts * rowBytes
      if layerBytes * numLayers ≠ e.nbytes then throw (.assertion e.name)
      (List.range numLayers).mapM (windowRead T e numExperts rowShape dtype layerBytes)

/-- The read of an entry as it is. -/
def entryRead (T : Dtypes D) (e : Entry) (shape : List Nat) (dtype : String) :
    Except Error (BankRead T) := do
  let dtype ← dtypeOf T dtype
  let bank ← HostBank.alloc T shape dtype
  return { bufLen := alignUp bank.nbytes, entry := e, view := bank.tensor T }

def layerBank (T : Dtypes D) (numLayers : Nat) (base : String) (byLayer : List (Nat × Entry)) :
    Except Error (List (BankRead T)) := do
  if (keys byLayer).mergeSort (fun a b => decide (a ≤ b)) ≠ List.range numLayers then
    throw (.assertion s!"FTW bank {base} has per-layer entries for other layers")
  (List.range numLayers).mapM fun layerId =>
    match assigned byLayer layerId with
    | none => .error (.valueError base)
    | some e =>
        if e.globalOff % align ≠ 0 then .error (.assertion base)
        else entryRead T e e.shape e.dtype

structure BankPlan (T : Dtypes D) where
  alphas : List (String × BankRead T)
  rows : List (String × List (BankRead T))

def BankPlan.reads {T : Dtypes D} (p : BankPlan T) : List (BankRead T) :=
  p.alphas.map Prod.snd ++ p.rows.flatMap Prod.snd

/-- The buffer of an alpha is that of the last entry of its name. -/
def alphaRead (T : Dtypes D) (alphaEntries : List Entry) (e : Entry) : Except Error (BankRead T) :=
  let spec := (assigned (alphaEntries.map fun a => (a.name, a)) e.name).getD e
  entryRead T e spec.shape spec.dtype

/-- The entries of a layer each: base, layer and entry. -/
def layerEntries (U : Decimals) (rowEntries : List Entry) : List (String × Nat × Entry) :=
  rowEntries.filterMap fun e => (matchLayerEntry U e.name).map fun m => (m.1, m.2, e)

def byLayer (layered : List (String × Nat × Entry)) (base : String) : List (Nat × Entry) :=
  (layered.filter fun m => decide (m.1 = base)).map Prod.snd

/-- `load_ftw_banks` up to the reads; `metaLayers` is the index's `expert_bank_num_layers`. -/
def bankPlan (T : Dtypes D) (U : Decimals) (r : Reader) (numLayers : Nat) (metaLayers : Option Nat) :
    Except Error (Option (BankPlan T)) := do
  let bankEntries := r.entries ["experts_bank"]
  if bankEntries.isEmpty then return none
  let alphaEntries := bankEntries.filter fun e => alphaNames.contains e.name
  let rowEntries := bankEntries.filter fun e => !alphaNames.contains e.name
  if metaLayers.any fun n => decide (n ≠ numLayers) then throw .runtimeError
  let alphas ← alphaEntries.mapM fun e => do
    let read ← alphaRead T alphaEntries e
    return (e.name, read)
  let flatEntries := rowEntries.filter fun e => (matchLayerEntry U e.name).isNone
  let layered := layerEntries U rowEntries
  if flatEntries.any fun e => (keys layered).contains e.name then
    throw (.assertion "FTW bank(s) mix flat and per-layer row layouts")
  let flats ← flatEntries.mapM fun e => do
    let reads ← flatBank T numLayers e
    return (e.name, reads)
  let groups ← (keys layered).mapM fun base => do
    let reads ← layerBank T numLayers base (byLayer layered base)
    return (base, reads)
  return some { alphas := alphas, rows := flats ++ groups }

/-! ## The banks -/

/-- The `ExpertBanks` of a load, without their format. -/
structure LoadedBanks (T : Dtypes D) where
  sources : List (String × List (HostTensor T))
  alphas : List (String × HostTensor T)

/-- `sources[name]` -/
def LoadedBanks.source {T : Dtypes D} (b : LoadedBanks T) (name : String) :
    Option (List (HostTensor T)) := assigned b.sources name

def BankRead.load {T : Dtypes D} (read : BankRead T) (r : Reader) (mode : Mode) (io : Preadv)
    (pool : Pool) (chunk : Nat) : Except Error (HostTensor T) := do
  let buf ← r.readInto mode io pool chunk (List.replicate read.bufLen 0) read.entry
  read.view buf

/-- `load_ftw_banks`.  Every read has its own buffer, so the pool over the banks goes unseen. -/
def loadFtwBanks (T : Dtypes D) (U : Decimals) (mode : Mode) (io : Preadv) (pool : Pool)
    (chunk numLayers : Nat) (metaLayers : Option Nat) (d : Disk) :
    Except Error (Option (LoadedBanks T)) := do
  let r ← Reader.init d
  match ← bankPlan T U r numLayers metaLayers with
  | none => return none
  | some plan =>
      let alphas ← plan.alphas.mapM fun a => do
        let t ← a.2.load r mode io pool chunk
        return (a.1, t)
      let sources ← plan.rows.mapM fun b => do
        let ts ← b.2.mapM fun read => read.load r mode io pool chunk
        return (b.1, ts)
      return some { sources := sources, alphas := alphas }

end Ftw

end FreeToken
