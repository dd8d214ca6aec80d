import FreeToken.Checkpoint.FtwWriter

/-!
# Conversion

`checkpoint/convert.py`: the file operations of one conversion on the output directory.
-/

set_option autoImplicit false

namespace FreeToken

namespace Ftw

open Region

variable {D : Type} {T : Dtypes D}

/-! ## What is converted -/

def indexName : String := "freetoken_weight.json"

/-- `ExpertBanks`, with the calls its provider makes of the sink, in their order. -/
structure ExpertBanks (T : Dtypes D) where
  sinkCalls : List (Nat × List (String × HostTensor T))
  streamed : Bool
  sources : List (String × List (HostTensor T))
  gateUpAlpha : Option (HostTensor T)
  downAlpha : Option (HostTensor T)

/-- The files and directories below a model path. -/
inductive Tree
  | node (files : List (String × Bytes)) (dirs : List (String × Tree))

/-- A single file, of which a gguf has metadata to write, or a directory; `isOut` tells the output
directory at or below it. -/
inductive ModelPath
  | file (metadataGguf : Option Bytes)
  | dir (tree : Tree) (isOut : List String → Bool)

structure Source (T : Dtypes D) where
  model : ModelPath
  tpSize : Option Nat
  dense : List (String × HostTensor T)
  /-- The banks, when experts are offloaded. -/
  banks : Option (ExpertBanks T)

/-- `_ConvertSink`: a layer that comes twice fails an assertion. -/
def sink : List Nat → List (Nat × List (String × HostTensor T)) → List (Call T) × Option Error
  | _, [] => ([], none)
  | seen, (layerId, banks) :: rest =>
      if layerId ∈ seen then ([], some (.assertion "layer streamed to the sink twice"))
      else
        let calls := banks.map fun b => ⟨layerBankEntryName b.1 layerId, b.2, "experts_bank"⟩
        let (more, err) := sink (layerId :: seen) rest
        (calls ++ more, err)

def ExpertBanks.alphas (b : ExpertBanks T) : List (Call T) :=
  (b.gateUpAlpha.map fun t => ⟨"gate_up_alpha", t, "experts_bank"⟩).toList ++
    (b.downAlpha.map fun t => ⟨"down_alpha", t, "experts_bank"⟩).toList

/-- The flat banks, before any of them is written; `cat` is `torch.cat` along the first dimension. -/
def materialize (cat : List (HostTensor T) → Except Error (HostTensor T)) :
    Option Nat → List (String × List (HostTensor T)) → Except Error (List (Call T))
  | _, [] => .ok []
  | numLayers, (name, perLayer) :: rest => do
      let n := numLayers.getD perLayer.length
      if perLayer.length ≠ n then throw (.assertion "per-layer sources differ in length")
      let t ← match perLayer with
        | [] => throw (.valueError "list index out of range")
        | [t] => pure t
        | ts => cat ts
      let more ← materialize cat (some n) rest
      pure (⟨name, t, "experts_bank"⟩ :: more)

/-- The expert tensors in writing order, and what is raised behind them. -/
def ExpertBanks.calls (cat : List (HostTensor T) → Except Error (HostTensor T))
    (b : ExpertBanks T) : List (Call T) × Option Error :=
  match sink [] b.sinkCalls with
  | (streamed, some err) => (streamed, some err)
  | (streamed, none) =>
      if b.streamed then
        if b.sinkCalls = [] then (streamed, some (.assertion "the sink never fired"))
        else (streamed ++ b.alphas, none)
      else
        match materialize cat none b.sources with
        | .error err => (streamed, some err)
        | .ok items => (streamed ++ (items ++ b.alphas), none)

def Source.calls (cat : List (HostTensor T) → Except Error (HostTensor T)) (src : Source T) :
    List (Call T) × Option Error :=
  let dense := src.dense.map fun t => ⟨t.1, t.2, "weight"⟩
  match src.banks with
  | none => (dense, none)
  | some b => (dense ++ (b.calls cat).1, (b.calls cat).2)

/-! ## The metadata -/

def weightSuffixes : List String := [".safetensors", ".gguf", ".ftw"]

def skipNames : List String := ["model.safetensors.index.json"]

def skipDirs : List String := [".git", ".cache", ".freetoken_expert_cache"]

def endsWith (name suffix : String) : Bool := suffix.toList.isSuffixOf name.toList

def isMetadata (name : String) : Bool :=
  !(weightSuffixes.any fun s => endsWith name s) && !skipNames.contains name

/-- `os.path.relpath(os.path.join(root, name), model_path)` -/
def relName (root : List String) (name : String) : String :=
  root.foldr (fun d rest => d ++ "/" ++ rest) name

mutual

/-- The metadata files that `os.walk` finds below `root`, with their names in the output directory. -/
def walk (isOut : List String → Bool) (root : List String) : Tree → List (String × Bytes)
  | .node files dirs =>
      ((files.filter fun f => isMetadata f.1).map fun f => (relName root f.1, f.2)) ++
        walkDirs isOut root dirs

def walkDirs (isOut : List String → Bool) (root : List String) :
    List (String × Tree) → List (String × Bytes)
  | [] => []
  | (d, t) :: rest =>
      if skipDirs.contains d || isOut (root ++ [d]) then walkDirs isOut root rest
      else walk isOut (root ++ [d]) t ++ walkDirs isOut root rest

end

def ftwMetadataGguf : String := "source_metadata.gguf"

/-- `shutil.copy2` -/
def copy2 (f : String × Bytes) : List FileOp := [.openWb f.1, .write f.1 f.2, .close f.1]

/-- `_copy_metadata`; a gguf's metadata goes through a temporary file, and no file is copied onto
itself. -/
def copyMetadata : ModelPath → List FileOp × Option Error
  | .file none => ([], none)
  | .file (some data) =>
      (copy2 (ftwMetadataGguf ++ ".tmp", data) ++
        [.replaceFile (ftwMetadataGguf ++ ".tmp") ftwMetadataGguf data], none)
  | .dir tree isOut =>
      let found := walk isOut [] tree
      if isOut [] ∧ found ≠ [] then ([], some .sameFile) else (found.flatMap copy2, none)

/-- `is_ftw_checkpoint(model_path)` -/
def ModelPath.isFtw : ModelPath → Bool
  | .file _ => false
  | .dir (.node files _) _ => files.any fun f => f.1 = indexName

/-! ## The conversion -/

/-- The file operations on the output directory, and what is raised behind them. -/
structure Run where
  ops : List FileOp
  raised : Option Error

/-- The writer keeps the operations it made before a call that fails. -/
def addCalls : FTWWriter → List (Call T) → FTWWriter × Option Error
  | w, [] => (w, none)
  | w, c :: cs =>
      match w.addTensor c.name c.tensor c.kind with
      | .error err => (w, some err)
      | .ok w => addCalls w cs

def convertCheckpoint (cat : List (HostTensor T) → Except Error (HostTensor T)) (src : Source T)
    (shardLimit : Nat) : Run :=
  if src.model.isFtw then ⟨[], some .systemExit⟩
  else if src.tpSize.getD 1 ≠ 1 then ⟨[], some .systemExit⟩
  else
    match FTWWriter.init shardLimit with
    | .error err => ⟨[], some err⟩
    | .ok w =>
        match addCalls w (src.calls cat).1 with
        | (w, some err) => ⟨w.ops, some err⟩
        | (w, none) =>
            match (src.calls cat).2 with
            | some err => ⟨w.ops, some err⟩
            | none =>
                let w := { w with ops := w.ops ++ (copyMetadata src.model).1 }
                match (copyMetadata src.model).2 with
                | some err => ⟨w.ops, some err⟩
                | none => ⟨w.finalize.1.ops, none⟩

end Ftw

end FreeToken
