import FreeToken.Kernel.Df11

/-!
# The DF11 decoders of the GPU

`kernel/triton/df11_decode.py`: `_df11_decode_kernel` decodes one chunk per lane, `_df11_gather_kernel`
one gathered row per lane.  Both walk the code stream with a 64-bit buffer that they refill a word at a
time.  A load or store outside its tensor is `none`.  The registers have their widths, the lanes and the
elements their 32-bit numbers; only the number of the word to load next does not wrap.
-/

set_option autoImplicit false

namespace FreeToken

namespace Df11

/-! ## The bit buffer -/

/-- The buffer of a lane: `nbits` valid bits at the top of `acc`, and the next word to load. -/
structure Buffer where
  acc : BitVec 64
  nbits : Int
  wordidx : Int

/-- `tl.load(bitstream_ptr + w, mask=mask & (w < NWORDS), other=0).to(tl.uint32)` -/
def loadWord (bitstream : List Int) (mask : Bool) (w : Int) : Option (BitVec 32) :=
  if mask && decide (w < bitstream.length) then
    if 0 ≤ w then bitstream[w.toNat]?.map (BitVec.ofInt 32) else none
  else some 0#32

namespace Buffer

def ofStart (bitstream : List Int) (valid : Bool) (startBit : Int) : Option Buffer := do
  let w0 := startBit >>> (5 : Nat)
  let off0 := startBit % 32
  let word0 ← loadWord bitstream valid w0
  pure
    { acc := (word0 <<< off0.toNat).setWidth 64 <<< (32 : Nat)
      nbits := 32 - off0
      wordidx := w0 + 1 }

def refill (bitstream : List Int) (valid : Bool) (b : Buffer) : Option Buffer := do
  let need := decide (b.nbits < 32)
  let word ← loadWord bitstream (need && valid) b.wordidx
  let shIns := max (32 - b.nbits) 0
  pure
    { acc := b.acc ||| if need then word.setWidth 64 <<< shIns.toNat else 0#64
      nbits := if need then b.nbits + 32 else b.nbits
      wordidx := if need then b.wordidx + 1 else b.wordidx }

/-- `((acc >> peek_sh) & peek_mask).to(tl.int32)` -/
def window (lmax : Nat) (b : Buffer) : Int :=
  ((b.acc.sshiftRight (64 - lmax) &&& BitVec.ofNat 64 ((1 <<< lmax) - 1)).setWidth 32).toInt

def consume (b : Buffer) (length : Nat) : Buffer :=
  { b with acc := b.acc <<< length, nbits := b.nbits - length }

end Buffer

/-- `tl.load(lut_ptr + v)` -/
def loadLut (lut : List Nat) (v : Int) : Option Nat := if 0 ≤ v then lut[v.toNat]? else none

/-- What a lane has at a peek: its valid bits, the index it looks up and the entry it finds. -/
structure Peek where
  nbits : Int
  window : Int
  combined : Nat

def Peek.length (p : Peek) : Nat := p.combined &&& 0xFF

def Peek.sym (p : Peek) : Nat := (p.combined >>> 8) &&& 0xFF

/-- The peeks of a lane, one for each turn of its loop. -/
def peeks (bitstream : List Int) (lut : List Nat) (lmax : Nat) (valid : Bool) :
    Nat → Buffer → Option (List Peek)
  | 0, _ => some []
  | more + 1, b => do
      let b ← b.refill bitstream valid
      let combined ← loadLut lut (b.window lmax)
      let p : Peek := ⟨b.nbits, b.window lmax, combined⟩
      let rest ← peeks bitstream lut lmax valid more (b.consume p.length)
      pure (p :: rest)

def lanePeeks (bitstream : List Int) (lut : List Nat) (lmax : Nat) (valid : Bool) (startBit : Int)
    (count : Nat) : Option (List Peek) := do
  let b ← Buffer.ofStart bitstream valid startBit
  peeks bitstream lut lmax valid count b

/-- `tl.program_id(0) * BLOCK + tl.arange(0, BLOCK)`, of 32 bits -/
def laneId (k : Nat) : Int := (k : Int).bmod (2 ^ 32)

/-- The lanes of a grid of `(n + block - 1) // block` programs. -/
def lanes (n block : Nat) : Nat := (n + block - 1) / block * block

/-- A masked load at a lane; a masked-out lane reads 0. -/
def loadAt {α : Type} [OfNat α 0] (xs : List α) (mask : Bool) (i : Int) : Option α :=
  if mask then if 0 ≤ i then xs[i.toNat]? else none else some 0

/-! ## `_df11_decode_kernel` -/

namespace Compressed

variable (c : Compressed)

/-- `i * G + cid`, of 32 bits unless the number of chunks or of rows needs more. -/
def elementIndex (i : Nat) (cid : Int) : Int :=
  if c.numChunks < 2 ^ 31 ∧ c.rows < 2 ^ 31 then ((i * c.numChunks : Nat) + cid).bmod (2 ^ 32)
  else (i * c.numChunks : Nat) + cid

/-- A lane past the chunks starts at 0, and loads nothing. -/
def chunkPeeks (cid : Int) : Option (List Peek) := do
  let cvalid := decide (cid < c.numChunks)
  let startBit ← loadAt c.chunkStart cvalid cid
  lanePeeks c.bitstream c.lut c.lmax cvalid startBit c.rows

/-- The store of turn `i` of a lane. -/
def storeElement (cid : Int) (out : List (BitVec 16)) (turn : Peek × Nat) :
    Option (List (BitVec 16)) :=
  let idx := c.elementIndex turn.2 cid
  if cid < c.numChunks ∧ idx < c.n then
    if 0 ≤ idx then do
      let low ← c.low8[idx.toNat]?
      pure (out.set idx.toNat (joinBits turn.1.sym low))
    else none
  else some out

def decodeLane (out : List (BitVec 16)) (k : Nat) : Option (List (BitVec 16)) := do
  let ps ← c.chunkPeeks (laneId k)
  ps.zipIdx.foldlM (c.storeElement (laneId k)) out

/-- `_df11_decode_kernel` over the grid of `df11_decompress` -/
def decodeKernel (block : Nat) (out : List (BitVec 16)) : Option (List (BitVec 16)) :=
  (List.range (lanes c.numChunks block)).foldlM c.decodeLane out

end Compressed

/-! ## `_df11_gather_kernel` -/

namespace CompressedRows

variable (c : CompressedRows)

/-- A lane past the ids starts at 0, and loads nothing. -/
def gatherPeeks (ids : List Nat) (t : Int) : Option (List Peek) := do
  let tvalid := decide (t < ids.length)
  let r ← loadAt ids tvalid t
  let startBit ← loadAt c.chunkStart tvalid (r : Int)
  lanePeeks c.bitstream c.lut c.lmax tvalid (startBit : Int) c.cols

/-- The store of turn `k` of a lane. -/
def storeGathered (ids : List Nat) (t : Int) (out : List (BitVec 16)) (turn : Peek × Nat) :
    Option (List (BitVec 16)) :=
  if t < ids.length then
    if 0 ≤ t then do
      let r ← ids[t.toNat]?
      let low ← c.low8[r * c.cols + turn.2]?
      pure (out.set (t.toNat * c.cols + turn.2) (joinBits turn.1.sym low))
    else none
  else some out

def gatherLane (ids : List Nat) (out : List (BitVec 16)) (k : Nat) : Option (List (BitVec 16)) := do
  let ps ← c.gatherPeeks ids (laneId k)
  ps.zipIdx.foldlM (c.storeGathered ids (laneId k)) out

/-- `_df11_gather_kernel` over the grid of `df11_gather_decode` -/
def gatherKernel (ids : List Nat) (block : Nat) (out : List (BitVec 16)) :
    Option (List (BitVec 16)) :=
  (List.range (lanes ids.length block)).foldlM (c.gatherLane ids) out

end CompressedRows

end Df11

end FreeToken
