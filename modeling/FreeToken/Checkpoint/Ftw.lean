import FreeToken.Lib.Region

/-!
# FreeToken Weight checkpoints

`checkpoint/ftw.py`: one logical region of all tensors, cut into shard files, and an index.  The
writer is a function from its fields to its fields and to the file operations it makes; a directory
is what the operations leave.
-/

set_option autoImplicit false

namespace FreeToken

namespace Ftw

abbrev Bytes := List UInt8

def formatTag : String := "freetoken_weight"

def formatVersion : Nat := 1

/-- `ALIGN` -/
def align : Nat := 4096

/-- `_SHARD_FMT.format(i)` -/
def shardFile (i : Nat) : String :=
  String.ofList ("freetoken-".toList ++
    (List.replicate (5 - (Nat.toDigits 10 i).length) '0' ++ Nat.toDigits 10 i) ++ ".ftw".toList)

/-- `{n:05d}` -/
def pad5 (n : Nat) : List Char :=
  List.replicate (5 - (Nat.toDigits 10 n).length) '0' ++ Nat.toDigits 10 n

def layerBankEntryName (bankName : String) (layerId : Nat) : String :=
  String.ofList (bankName.toList ++ '#' :: 'L' :: pad5 layerId)

def alignUp (n : Nat) : Nat := (n + align - 1) / align * align

/-- The element types of torch: `_dtype_str`, `_dtype_of` and `_elsize`. -/
structure Dtypes (D : Type) where
  str : D → String
  ofStr : String → Option D
  elsize : D → Nat
  ofStr_str : ∀ d, ofStr (str d) = some d
  elsize_pos : ∀ d, 0 < elsize d

variable {D : Type}

/-- A contiguous tensor on the host. -/
@[ext]
structure HostTensor (T : Dtypes D) where
  dtype : D
  shape : List Nat
  bytes : Bytes
  size : bytes.length = shape.prod * T.elsize dtype

inductive Error
  | assertion (text : String)
  | fileNotFound (file : String)
  | badIndex
  | valueError (text : String)
  | invalidArgument
  | attributeError
  | typeError
  | zeroDivision
  | runtimeError
  | diverges
  | systemExit
  | sameFile
  deriving DecidableEq, Repr

/-! ## The directory -/

structure Entry where
  name : String
  kind : String
  dtype : String
  shape : List Nat
  globalOff : Nat
  nbytes : Nat
  deriving DecidableEq, Repr

structure Shard where
  file : String
  globalOff : Nat
  nbytes : Nat
  deriving DecidableEq, Repr

structure Index where
  format : String
  version : Nat
  align : Nat
  shardLimit : Nat
  totalBytes : Nat
  tensors : List Entry
  shards : List Shard
  deriving DecidableEq, Repr

/-- An index file.  `json` is what it parses to; `written` is not on the disk: it remembers the bytes
that were handed over for each tensor when the index was made. -/
structure IndexFile where
  json : Option Index
  written : List Bytes

inductive FileOp
  | openWb (file : String)
  | write (file : String) (data : Bytes)
  | close (file : String)
  /-- A closed temporary file of these bytes takes the place of `file`. -/
  | replaceFile (tmp file : String) (data : Bytes)
  | dumpTmp (index : IndexFile)
  | replaceTmp

/-- A checkpoint directory: the index, its temporary copy and the other files. -/
structure Disk where
  files : String → Option Bytes
  index : Option IndexFile
  tmp : Option IndexFile

namespace Disk

def setFile (d : Disk) (file : String) (data : Bytes) : Disk :=
  { d with files := fun g => if g = file then some data else d.files g }

def apply (d : Disk) : FileOp → Disk
  | .openWb file => d.setFile file []
  | .write file data => d.setFile file ((d.files file).getD [] ++ data)
  | .close _ => d
  | .replaceFile tmp file data =>
      { d with files := fun g => if g = file then some data else if g = tmp then none else d.files g }
  | .dumpTmp index => { d with tmp := some index }
  | .replaceTmp =>
      match d.tmp with
      | some index => { d with index := some index, tmp := none }
      | none => d

def replay (d : Disk) (ops : List FileOp) : Disk := ops.foldl apply d

end Disk

/-- `is_ftw_checkpoint` -/
def isFtwCheckpoint (d : Disk) : Bool := d.index.isSome

/-! ## The writer -/

structure FTWWriter where
  shardLimit : Nat
  tensors : List Entry := []
  shards : List Shard := []
  global : Nat := 0
  f : Option String := none
  shardIdx : Int := -1
  shardStart : Nat := 0
  cur : Nat := 0
  /-- The file operations made so far. -/
  ops : List FileOp := []
  /-- What `add_tensor` was given, for the index file to remember. -/
  written : List Bytes := []

namespace FTWWriter

/-- `__init__` -/
def init (shardLimit : Nat) : Except Error FTWWriter :=
  if shardLimit % align = 0 then .ok { shardLimit := shardLimit }
  else .error (.assertion "shard_limit must be a multiple of ALIGN")

/-- The shard that is written to is appended to the table, and its file is closed. -/
def closeShard (w : FTWWriter) : FTWWriter :=
  match w.f with
  | none => w
  | some file =>
      { w with
        shards := w.shards ++ [⟨shardFile w.shardIdx.toNat, w.shardStart, w.cur⟩]
        ops := w.ops ++ [.close file] }

/-- `_roll` -/
def roll (w : FTWWriter) : FTWWriter :=
  let w := w.closeShard
  let file := shardFile (w.shardIdx + 1).toNat
  { w with
    shardIdx := w.shardIdx + 1
    shardStart := w.global
    cur := 0
    f := some file
    ops := w.ops ++ [.openWb file] }

/-- One `write` on the open shard, and the counters after it. -/
def put (w : FTWWriter) (data : Bytes) : Except Error FTWWriter :=
  match w.f with
  | none => .error .attributeError
  | some file =>
      .ok { w with
        ops := w.ops ++ [.write file data]
        cur := w.cur + data.length
        global := w.global + data.length }

def writeLoop : Nat → FTWWriter → Bytes → Except Error FTWWriter
  | _, w, [] => .ok w
  | 0, _, _ :: _ => .error .diverges
  | fuel + 1, w, b :: bs => do
      let data := b :: bs
      let w := if w.cur = w.shardLimit then w.roll else w
      let take := min data.length (w.shardLimit - w.cur)
      let w ← w.put (data.take take)
      writeLoop fuel w (data.drop take)

/-- `_write_raw`; a turn of the loop takes a byte at least. -/
def writeRaw (w : FTWWriter) (data : Bytes) : Except Error FTWWriter :=
  let w := if w.f.isNone then w.roll else w
  writeLoop data.length w data

def addTensor {T : Dtypes D} (w : FTWWriter) (name : String) (t : HostTensor T) (kind : String) :
    Except Error FTWWriter := do
  let nbytes := t.bytes.length
  -- a tensor that fits a shard never splits
  let w := if w.f.isNone ∨ (nbytes ≤ w.shardLimit ∧ w.shardLimit < w.cur + nbytes) then w.roll else w
  let globalOff := w.global
  if globalOff % align ≠ 0 then throw (.assertion "tensor start must be aligned (invariant)")
  let w ← w.writeRaw t.bytes
  let w := { w with
    tensors := w.tensors ++ [⟨name, kind, T.str t.dtype, t.shape, globalOff, nbytes⟩]
    written := w.written ++ [t.bytes] }
  let pad := alignUp w.global - w.global
  if pad = 0 then pure w else w.writeRaw (List.replicate pad 0)

def makeIndex (w : FTWWriter) : Index where
  format := formatTag
  version := formatVersion
  align := align
  shardLimit := w.shardLimit
  totalBytes := w.global
  tensors := w.tensors
  shards := w.shards

def finalize (w : FTWWriter) : FTWWriter × Index :=
  let w := { w.closeShard with f := none }
  let index := w.makeIndex
  ({ w with ops := w.ops ++ [.dumpTmp ⟨some index, w.written⟩, .replaceTmp] }, index)

end FTWWriter

/-- A call of `add_tensor`. -/
structure Call (T : Dtypes D) where
  name : String
  tensor : HostTensor T
  kind : String

def addAll {T : Dtypes D} : FTWWriter → List (Call T) → Except Error FTWWriter
  | w, [] => .ok w
  | w, c :: cs => do
      let w ← w.addTensor c.name c.tensor c.kind
      addAll w cs

/-- A writer of the directory, the calls in order, and `finalize`. -/
def writeAll {T : Dtypes D} (shardLimit : Nat) (calls : List (Call T)) (d : Disk) :
    Except Error Disk := do
  let w ← FTWWriter.init shardLimit
  let w ← addAll w calls
  pure (d.replay w.finalize.1.ops)

/-! ## The reader -/

structure Reader where
  index : Index
  files : String → Option Bytes
  shards : List Shard

/-- A part of a tensor inside one shard. -/
structure Piece where
  file : String
  fileOff : Nat
  destOff : Nat
  length : Nat
  deriving DecidableEq, Repr

/-- `O_DIRECT`, or the mapping of whole shards that replaces it. -/
inductive Mode
  | direct
  | mmap
  deriving DecidableEq, Repr

/-- How many bytes a positional read of `file` at an offset returns of those that are there: some, if
any are, and whole blocks unless it is all of them. -/
structure Preadv where
  got : String → Nat → Nat → Nat
  got_le : ∀ file off avail, got file off avail ≤ avail
  got_pos : ∀ file off avail, 0 < avail → 0 < got file off avail
  got_block : ∀ file off avail, got file off avail % align = 0 ∨ got file off avail = avail

/-- The order in which a pool gets through its jobs. -/
structure Pool where
  order : List Piece → List Piece
  perm : ∀ jobs, (order jobs).Perm jobs

namespace Reader

/-- `__init__` -/
def init (d : Disk) : Except Error Reader :=
  match d.index with
  | none => .error (.fileNotFound "freetoken_weight.json")
  | some file =>
      match file.json with
      | none => .error .badIndex
      | some index =>
          if index.format = formatTag then
            .ok
              { index := index
                files := d.files
                shards := index.shards.mergeSort fun a b => decide (a.globalOff ≤ b.globalOff) }
          else .error (.assertion "not a freetoken_weight")

def entries (r : Reader) (kinds : List String) : List Entry :=
  r.index.tensors.filter fun e => kinds.isEmpty || kinds.contains e.kind

def piecesLoop : List Shard → Nat → Nat → Nat → Except Error (List Piece)
  | [], _, _, remaining =>
      if remaining = 0 then .ok [] else .error (.valueError "tensor range exceeds FTW shards")
  | sh :: rest, pos, destOff, remaining =>
      if sh.globalOff + sh.nbytes ≤ pos ∨ remaining = 0 then piecesLoop rest pos destOff remaining
      else if pos < sh.globalOff then .error (.valueError "FTW gap / misordered shards")
      else do
        let take := min remaining (sh.globalOff + sh.nbytes - pos)
        let pieces ← piecesLoop rest (pos + take) (destOff + take) (remaining - take)
        pure (⟨sh.file, pos - sh.globalOff, destOff, take⟩ :: pieces)

/-- `_pieces` -/
def pieces (r : Reader) (globalOff nbytes : Nat) : Except Error (List Piece) :=
  piecesLoop r.shards globalOff 0 nbytes

/-- `range(0, stop, step)` -/
def pyRange (stop step : Nat) : Except Error (List Nat) :=
  if step = 0 then .error (.valueError "range() arg 3 must not be zero")
  else .ok ((List.range ((stop + step - 1) / step)).map (· * step))

/-- The reads of one piece, its tail rounded up. -/
def chunks (chunk : Nat) (p : Piece) : Except Error (List Piece) := do
  let rlen := alignUp p.length
  let cs ← pyRange rlen chunk
  pure (cs.map fun c => ⟨p.file, p.fileOff + c, p.destOff + c, min chunk (rlen - c)⟩)

def jobs (r : Reader) (chunk : Nat) (e : Entry) : Except Error (List Piece) := do
  let ps ← r.pieces e.globalOff e.nbytes
  let js ← ps.mapM (chunks chunk)
  pure js.flatten

/-- `_fd` and `_map`; an empty file cannot be mapped. -/
def touch (r : Reader) (mode : Mode) (file : String) : Except Error Bytes :=
  match r.files file with
  | none => .error (.fileNotFound file)
  | some bytes =>
      if mode = .mmap ∧ bytes = [] then .error (.valueError "cannot mmap an empty file")
      else .ok bytes

/-- `_pread_into` behind `got`, the bytes it has read; direct reads go by blocks. -/
def preadLoop (io : Preadv) (j : Piece) (bytes : Bytes) : Nat → Bytes → Except Error Bytes
  | 0, got => .ok got
  | fuel + 1, got =>
      if got.length < j.length then
        let off := j.fileOff + got.length
        if off % align = 0 ∧ (j.destOff + got.length) % align = 0 ∧
            (j.length - got.length) % align = 0 then
          let there := Region.slice bytes off (j.length - got.length)
          let n := io.got j.file off there.length
          if n = 0 then .ok got else preadLoop io j bytes fuel (got ++ there.take n)
        else .error .invalidArgument
      else .ok got

/-- The work of one job on the destination buffer. -/
def rd (r : Reader) (mode : Mode) (io : Preadv) (dest : Bytes) (j : Piece) : Except Error Bytes := do
  let bytes ← r.touch mode j.file
  match mode with
  | .direct =>
      let got ← preadLoop io j bytes j.length []
      pure (Region.paste dest j.destOff got)
  | .mmap =>
      let mapped := Region.slice bytes j.fileOff j.length
      if mapped.length = (Region.slice dest j.destOff j.length).length then
        pure (Region.paste dest j.destOff mapped)
      else throw (.valueError "memoryview assignment: lvalue and rvalue have different structures")

/-- `read_into` -/
def readInto (r : Reader) (mode : Mode) (io : Preadv) (pool : Pool) (chunk : Nat) (dest : Bytes)
    (e : Entry) : Except Error Bytes := do
  let js ← r.jobs chunk e
  js.forM fun j => do
    let _ ← r.touch mode j.file
  if js.length ≤ 1 then js.foldlM (r.rd mode io) dest
  else (pool.order js).foldlM (r.rd mode io) dest

end Reader

/-- `_transient_buffer`: an anonymous mapping, which cannot be of no bytes. -/
def transientBuffer (nbytes : Nat) : Except Error Bytes :=
  if alignUp nbytes = 0 then .error .invalidArgument else .ok (List.replicate (alignUp nbytes) 0)

/-- `torch.frombuffer`: a tensor of one dimension over the first `count` elements. -/
def frombuffer (T : Dtypes D) (buf : Bytes) (dt : D) (count : Nat) : Except Error (HostTensor T) :=
  if h : count * T.elsize dt ≤ buf.length then
    if count = 0 then .error (.valueError "both buffer length and count must not be 0")
    else .ok
      { dtype := dt
        shape := [count]
        bytes := buf.take (count * T.elsize dt)
        size := by rw [List.length_take, Nat.min_eq_left h, List.prod_singleton] }
  else .error (.valueError "requested buffer length must not exceed the buffer size")

/-- `Tensor.view` to a shape of as many elements. -/
def HostTensor.view {T : Dtypes D} (t : HostTensor T) (shape : List Nat) :
    Except Error (HostTensor T) :=
  if h : shape.prod = t.shape.prod then
    .ok { t with shape := shape, size := by rw [h]; exact t.size }
  else .error .runtimeError

/-- What the producer does for one entry. -/
def readTensor (T : Dtypes D) (r : Reader) (mode : Mode) (io : Preadv) (pool : Pool) (chunk : Nat)
    (e : Entry) : Except Error (HostTensor T) := do
  let buf ← transientBuffer e.nbytes
  let buf ← r.readInto mode io pool chunk buf e
  match T.ofStr e.dtype with
  | none => throw .attributeError
  | some dt =>
      let t ← frombuffer T buf dt (e.nbytes / T.elsize dt)
      if e.shape ≠ [] then t.view e.shape else pure t

/-- What a consumer that reads to the end has got, and what was raised after it. -/
structure Yielded (T : Dtypes D) where
  items : List (String × HostTensor T)
  raised : Option Error

def produce (T : Dtypes D) (r : Reader) (mode : Mode) (io : Preadv) (pool : Pool) (chunk : Nat) :
    List Entry → Yielded T
  | [] => ⟨[], none⟩
  | e :: es =>
      match readTensor T r mode io pool chunk e with
      | .error err => ⟨[], some err⟩
      | .ok t =>
          let rest := produce T r mode io pool chunk es
          ⟨(e.name, t) :: rest.items, rest.raised⟩

/-- `iter_ftw_weights` -/
def iterFtwWeights (T : Dtypes D) (mode : Mode) (io : Preadv) (pool : Pool) (chunk : Nat)
    (kinds : List String) (d : Disk) : Yielded T :=
  match Reader.init d with
  | .error err => ⟨[], some err⟩
  | .ok r => produce T r mode io pool chunk (r.entries kinds)

end Ftw

end FreeToken
