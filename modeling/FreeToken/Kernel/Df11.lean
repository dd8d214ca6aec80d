import FreeToken.Lib.MergeTree
import FreeToken.Lib.Region

/-!
# DF11 compression of bf16 weights

`kernel/triton/df11.py`: the exponents of a bf16 matrix are Huffman coded, sign and mantissa stay raw.
`df11_compress` lays the codes out in interleaved chunks, `df11_compress_rows` row by row.
-/

set_option autoImplicit false

namespace FreeToken

namespace Df11

open MergeTree

/-! ## Matrices of bit patterns -/

@[ext]
structure Matrix where
  rows : Nat
  cols : Nat
  data : List (BitVec 16)
  size : data.length = rows * cols

/-- `view(torch.int16)`, widened, `& 0xFFFF` -/
def word (w : BitVec 16) : Nat := (w.toInt % 0x10000).toNat

def expOf (w : BitVec 16) : Nat := (word w >>> 7) &&& 0xFF

def low8Of (w : BitVec 16) : Nat := ((word w >>> 15) &&& 1) <<< 7 ||| (word w &&& 0x7F)

/-- `(view(torch.int16).to(torch.int32) >> 7) & 0xFF`, without a mask before the shift -/
def signedExpOf (w : BitVec 16) : Nat := ((w.toInt >>> (7 : Nat)) % 0x100).toNat

/-- `((sign << 15) | (exp << 7) | mant).to(torch.int16)` -/
def joinBits (exp low8 : Nat) : BitVec 16 :=
  BitVec.ofNat 16 (((low8 >>> 7) &&& 1) <<< 15 ||| exp <<< 7 ||| (low8 &&& 0x7F))

/-! ## Huffman lengths -/

structure HeapItem where
  f : Nat
  order : Nat
  node : MergeTree.Tree Nat

def HeapItem.before (x y : HeapItem) : Bool := x.f < y.f || (x.f = y.f && x.order < y.order)

def heappop : List HeapItem → Option (HeapItem × List HeapItem)
  | [] => none
  | x :: xs =>
      match heappop xs with
      | none => some (x, [])
      | some (y, ys) => if x.before y then some (x, xs) else some (y, x :: ys)

/-- `while len(heap) > 1`; a turn makes one tree of two. -/
def mergeLoop : Nat → Nat → List HeapItem → List HeapItem
  | 0, _, heap => heap
  | fuel + 1, order, heap =>
      match heappop heap with
      | none => heap
      | some (x, rest) =>
          match heappop rest with
          | none => heap
          | some (y, rest) =>
              mergeLoop fuel (order + 1) (⟨x.f + y.f, order, .node x.node y.node⟩ :: rest)

def leafHeap (freq : List (Nat × Nat)) : List HeapItem :=
  freq.mapIdx fun order p => ⟨p.2, order, .leaf p.1⟩

/-- `_huffman_lengths`; `heap[0]` raises on no symbol. -/
def huffmanLengths (freq : List (Nat × Nat)) : Option (List (Nat × Nat)) :=
  match freq with
  | [(sym, _)] => some [(sym, 1)]
  | freq =>
      match mergeLoop freq.length freq.length (leafHeap freq) with
      | [] => none
      | root :: _ => some ((root.node.depths 0).map fun p => (p.1, max p.2 1))

/-- `max(lengths.values())` -/
def maxLength (lengths : List (Nat × Nat)) : Nat := (lengths.map Prod.snd).foldl max 0

def lengthLimitedLoop (lmax : Nat) : Nat → Nat → List (Nat × Nat) → Option (List (Nat × Nat))
  | 0, _, _ => none
  | fuel + 1, floor, f => do
      let lengths ← huffmanLengths f
      if maxLength lengths ≤ lmax then some lengths
      else lengthLimitedLoop lmax fuel (floor * 2) (f.map fun p => (p.1, max p.2 (floor * 2)))

/-- `_length_limited_lengths`; the floor doubles until it is above every count. -/
def lengthLimitedLengths (freq : List (Nat × Nat)) (lmax : Nat) : Option (List (Nat × Nat)) :=
  lengthLimitedLoop lmax ((freq.map Prod.snd).sum + 1) 1 freq

/-! ## Codes and tables -/

/-- The codes behind one of `prevLen` bits. -/
def codesFrom : Nat → Nat → List (Nat × Nat) → List (Nat × Nat × Nat)
  | _, _, [] => []
  | code, prevLen, (sym, length) :: rest =>
      let code := (code + 1) <<< (length - prevLen)
      (sym, code, length) :: codesFrom code length rest

/-- `_canonical_codes`: symbols with code and length. -/
def canonicalCodes (lengths : List (Nat × Nat)) : List (Nat × Nat × Nat) :=
  match lengths.mergeSort fun a b => decide (a.2 < b.2 ∨ (a.2 = b.2 ∧ a.1 ≤ b.1)) with
  | [] => []
  | (sym, length) :: rest => (sym, 0, length) :: codesFrom 0 length rest

/-- `xs[base : base + span] = v` -/
def fillSlice (xs : List Nat) (base span v : Nat) : List Nat :=
  xs.mapIdx fun i x => if base ≤ i ∧ i < base + span then v else x

/-- `_build_lut` -/
def buildLut (codes : List (Nat × Nat × Nat)) (lmax : Nat) : List Nat :=
  codes.foldl (fun lut c =>
    fillSlice lut (c.2.1 <<< (lmax - c.2.2)) (1 <<< (lmax - c.2.2)) (c.1 <<< 8 ||| c.2.2))
    (List.replicate (1 <<< lmax) 0)

structure Tables where
  lut : List Nat
  codeArr : List Nat
  lenArr : List Nat

/-- `torch.bincount(exp, minlength=256)` of bytes -/
def bincount (exp : List Nat) : List Nat := (List.range 256).map fun s => exp.count s

def frequencies (hist : List Nat) : List (Nat × Nat) :=
  (List.range hist.length).filterMap fun s =>
    if hist.getD s 0 = 0 then none else some (s, hist.getD s 0)

/-- `_huffman_tables` -/
def huffmanTables (hist : List Nat) (lmax : Nat) : Option Tables := do
  let lengths ← lengthLimitedLengths (frequencies hist) lmax
  let codes := canonicalCodes lengths
  pure
    { lut := buildLut codes lmax
      codeArr := codes.foldl (fun arr c => arr.set c.1 c.2.1) (List.replicate 256 0)
      lenArr := codes.foldl (fun arr c => arr.set c.1 c.2.2) (List.replicate 256 0) }

/-! ## Packing -/

/-- A code and the bit it starts at: offset, code, length. -/
abbrev Item := Nat × Nat × Nat

def bitsInW (p : Item) : Nat := min p.2.2 (32 - (p.1 &&& 31))

def highPart (p : Item) : Nat :=
  (p.2.1 >>> (p.2.2 - bitsInW p)) <<< (32 - (p.1 &&& 31) - bitsInW p)

def lowPart (p : Item) : Nat :=
  (p.2.1 &&& ((1 <<< (p.2.2 - bitsInW p)) - 1)) <<< (32 - (p.2.2 - bitsInW p))

/-- `index_add_`; an index that is out of range raises. -/
def indexAdd (words : List Nat) (adds : List (Nat × Nat)) : Option (List Nat) :=
  if adds.all fun a => a.1 < words.length then
    some (adds.foldl (fun ws a => ws.modify a.1 (· + a.2)) words)
  else none

def scatter (words : List Nat) (items : List Item) : Option (List Nat) := do
  let words ← indexAdd words (items.map fun p => (p.1 >>> 5, highPart p))
  indexAdd words (items.map fun p => ((p.1 >>> 5) + 1, lowPart p))

/-- `zeros`, and `cumsum(xs)[:-1]` from the second place on -/
def exclusiveCumsum : Nat → List Nat → List Nat
  | _, [] => []
  | acc, x :: xs => acc :: exclusiveCumsum (acc + x) xs

def toInt32 (x : Nat) : Int := (BitVec.ofNat 32 x).toInt

/-- `int(x) & 0xFFFFFFFF` -/
def fromInt32 (x : Int) : Nat := (x % 0x100000000).toNat

def numWords (totalBits : Nat) : Nat := (totalBits + 31) / 32 + 2

/-! ## Interleaved chunks -/

/-- Columns of a matrix of `num` columns over a padded list. -/
structure Grid where
  num : Nat
  rows : Nat
  lens : List Nat

namespace Grid

variable (g : Grid)

/-- `len_2d[i, j]` -/
def len2d (i j : Nat) : Nat := g.lens.getD (i * g.num + j) 0

/-- `col_prefix[i, j]` -/
def colPrefix (i j : Nat) : Nat := ((List.range i).map fun r => g.len2d r j).sum

def colBits : List Nat := (List.range g.num).map fun j => g.colPrefix g.rows j

def chunkStart : List Nat := exclusiveCumsum 0 g.colBits

def off (p : Nat) : Nat := g.chunkStart.getD (p % g.num) 0 + g.colPrefix (p / g.num) (p % g.num)

/-- `chunk_start[-1] + col_bits[-1]` -/
def totalBits : Nat := g.chunkStart.getLastD 0 + g.colBits.getLastD 0

end Grid

structure Compressed where
  low8 : List Nat
  bitstream : List Int
  chunkStart : List Int
  lut : List Nat
  outFeatures : Nat
  inFeatures : Nat
  n : Nat
  numChunks : Nat
  rows : Nat
  lmax : Nat

def grid (lenArr : List Nat) (w : Matrix) (chunk : Nat) : Grid :=
  let n := w.data.length
  let numChunks := (n + chunk - 1) / chunk
  { num := numChunks
    rows := (n + numChunks - 1) / numChunks
    lens := w.data.map fun x => lenArr.getD (expOf x) 0 }

/-- `df11_compress`; a chunk of 0 raises. -/
def compress (w : Matrix) (chunk lmax : Nat) : Option Compressed := do
  guard (chunk ≠ 0)
  let t ← huffmanTables (bincount (w.data.map expOf)) lmax
  let g := grid t.lenArr w chunk
  let items := w.data.mapIdx fun p x =>
    (g.off p, t.codeArr.getD (expOf x) 0, t.lenArr.getD (expOf x) 0)
  let words ← scatter (List.replicate (numWords g.totalBits) 0) items
  pure
    { low8 := w.data.map low8Of
      bitstream := words.map fun x => toInt32 (x % 0x100000000)
      chunkStart := g.chunkStart.map toInt32
      lut := t.lut
      outFeatures := w.rows
      inFeatures := w.cols
      n := w.data.length
      numChunks := g.num
      rows := g.rows
      lmax := lmax }

/-- How many bits the code stream has. -/
def streamBits (w : Matrix) (chunk lmax : Nat) : Nat :=
  match huffmanTables (bincount (w.data.map expOf)) lmax with
  | none => 0
  | some t => (grid t.lenArr w chunk).totalBits

/-- `stream[w] if w < nwords else 0`; a negative index counts from the end. -/
def streamAt (stream : List Nat) (w : Int) : Option Nat :=
  if (stream.length : Int) ≤ w then some 0
  else if 0 ≤ w then stream[w.toNat]?
  else if 0 ≤ stream.length + w then stream[(stream.length + w).toNat]? else none

def peek (stream : List Nat) (lmax : Nat) (pos : Int) : Option Nat := do
  let o := (pos % 32).toNat
  let hi ← streamAt stream (pos >>> (5 : Nat))
  let lo ← streamAt stream ((pos >>> (5 : Nat)) + 1)
  pure ((hi <<< 32 ||| lo) >>> (64 - o - lmax) &&& ((1 <<< lmax) - 1))

/-- `for i in range(rows)` of one chunk, from row `i` on. -/
def decodeChunk (c : Compressed) (stream : List Nat) (j : Nat) :
    Nat → Nat → Int → List Nat → Option (List Nat)
  | 0, _, _, expOut => some expOut
  | more + 1, i, pos, expOut =>
      let p := i * c.numChunks + j
      if c.n ≤ p then some expOut
      else do
        let v ← peek stream c.lmax pos
        let combined ← c.lut[v]?
        decodeChunk c stream j more (i + 1) (pos + ((combined &&& 0xFF : Nat) : Int))
          (expOut.set p (combined >>> 8))

/-- The chunks of a list, and the words behind them as a matrix. -/
def assemble (rows cols : Nat) (exp low8 : List Nat) : Option Matrix :=
  let data := List.zipWith joinBits exp low8
  if h : data.length = rows * cols then some ⟨rows, cols, data, h⟩ else none

/-- `df11_decompress_ref` -/
def decompressRef (c : Compressed) : Option Matrix := do
  let stream := c.bitstream.map fromInt32
  let expOut ← (List.range c.numChunks).foldlM (fun expOut j => do
    let pos ← c.chunkStart[j]?
    decodeChunk c stream j c.rows 0 pos expOut) (List.replicate c.n 0)
  assemble c.outFeatures c.inFeatures expOut c.low8

/-! ## Rows -/

structure CompressedRows where
  low8 : List Nat
  bitstream : List Int
  chunkStart : List Nat
  lut : List Nat
  rows : Nat
  cols : Nat
  n : Nat
  lmax : Nat

/-- `weight[r0:r1].reshape(-1)` -/
def Matrix.block (w : Matrix) (r0 r1 : Nat) : List (BitVec 16) :=
  Region.slice w.data (r0 * w.cols) ((r1 - r0) * w.cols)

/-- `range(0, rows, row_block)` with `min(r0 + row_block, rows)`; a step of 0 raises. -/
def rowBlocks (rows rowBlock : Nat) : Option (List (Nat × Nat)) :=
  if rowBlock = 0 then none
  else some ((List.range ((rows + rowBlock - 1) / rowBlock)).map fun k =>
    (k * rowBlock, min (k * rowBlock + rowBlock) rows))

/-- `len_arr[exp].view(r1 - r0, cols).sum(1)` -/
def rowSums (lens : List Nat) (count cols : Nat) : List Nat :=
  (List.range count).map fun r => (Region.slice lens (r * cols) cols).sum

/-- The items of a block of rows. -/
def blockItems (t : Tables) (chunkStart : List Nat) (w : Matrix) (r0 r1 : Nat) : List Item :=
  let exp := (w.block r0 r1).map expOf
  let lens := exp.map fun e => t.lenArr.getD e 0
  exp.mapIdx fun p e =>
    (chunkStart.getD (r0 + p / w.cols) 0 +
        (Region.slice lens (p / w.cols * w.cols) (p % w.cols)).sum,
      t.codeArr.getD e 0, t.lenArr.getD e 0)

/-- `df11_compress_rows`; `low8` and `row_bits` are filled block by block. -/
def compressRows (w : Matrix) (lmax rowBlock : Nat) : Option CompressedRows := do
  let blocks ← rowBlocks w.rows rowBlock
  let hist := blocks.foldl (fun hist b =>
    List.zipWith (· + ·) hist (bincount ((w.block b.1 b.2).map expOf))) (List.replicate 256 0)
  let low8 := blocks.foldl (fun low8 b =>
    Region.paste low8 (b.1 * w.cols) ((w.block b.1 b.2).map low8Of)) (List.replicate (w.rows * w.cols) 0)
  let t ← huffmanTables hist lmax
  let rowBits := blocks.foldl (fun rowBits b =>
    Region.paste rowBits b.1
      (rowSums ((w.block b.1 b.2).map fun x => t.lenArr.getD (signedExpOf x) 0) (b.2 - b.1) w.cols))
    (List.replicate w.rows 0)
  let chunkStart := exclusiveCumsum 0 rowBits
  let totalBits := chunkStart.getLastD 0 + rowBits.getLastD 0
  let words ← blocks.foldlM (fun words b => scatter words (blockItems t chunkStart w b.1 b.2))
    (List.replicate (numWords totalBits) 0)
  pure
    { low8 := low8
      bitstream := words.map fun x => toInt32 (x % 0x100000000)
      chunkStart := chunkStart
      lut := t.lut
      rows := w.rows
      cols := w.cols
      n := w.rows * w.cols
      lmax := lmax }

/-- `for k in range(cols)` of one row, from column `k` on. -/
def decodeRow (c : CompressedRows) (stream : List Nat) (r : Nat) :
    Nat → Nat → Int → List Nat → Option (List Nat)
  | 0, _, _, expOut => some expOut
  | more + 1, k, pos, expOut => do
      let v ← peek stream c.lmax pos
      let combined ← c.lut[v]?
      decodeRow c stream r more (k + 1) (pos + ((combined &&& 0xFF : Nat) : Int))
        (expOut.set (r * c.cols + k) (combined >>> 8))

/-- `df11_decompress_rows_ref` -/
def decompressRowsRef (c : CompressedRows) : Option Matrix := do
  let stream := c.bitstream.map fromInt32
  let expOut ← (List.range c.rows).foldlM (fun expOut r => do
    let pos ← c.chunkStart[r]?
    decodeRow c stream r c.cols 0 (Int.ofNat pos) expOut) (List.replicate c.n 0)
  assemble c.rows c.cols expOut c.low8

end Df11

end FreeToken
