import Mathlib.Algebra.Field.Rat

/-!
# GGUF block formats

`models/gguf/dequant.py`: the packed bytes of a tensor become numbers, block by block.  A float is an
exact rational, and none where it is infinite or no number; the products are exact, and the last cast
to the output type is left out.  A tensor is its sizes and its elements by index.
-/

set_option autoImplicit false

namespace FreeToken

namespace Gguf

inductive Error
  | tooManyIndices
  | indexOutOfBounds
  | shapeMismatch
  | invalidShape
  | keyError
  | notImplemented (ggmlType : Nat)
  | notAMultiple
  deriving DecidableEq, Repr

/-! ## Numbers -/

abbrev Value := Option ℚ

/-- A product that is no number where a factor is none. -/
def times : Value → Value → Value
  | some x, some y => some (x * y)
  | _, _ => none

/-- A binary interchange format with `E` exponent and `M` mantissa bits. -/
def ieee (E M bits : Nat) : Value :=
  let bias : Int := 2 ^ (E - 1) - 1
  let sign : ℚ := if bits / 2 ^ (E + M) % 2 = 1 then -1 else 1
  let e := bits / 2 ^ M % 2 ^ E
  let m := bits % 2 ^ M
  if e = 2 ^ E - 1 then none
  else if e = 0 then some (sign * m * (2 : ℚ) ^ (1 - bias - M : Int))
  else some (sign * (2 ^ M + m : Nat) * (2 : ℚ) ^ (e - bias - M : Int))

/-- `torch.int8` of a byte -/
def int8 (b : Nat) : Int := if b < 128 then b else b - 256

/-! ## Tensors -/

/-- A contiguous vector. -/
structure Flat (A : Type) where
  numel : Nat
  get : Nat → A

structure Mat (A : Type) where
  rows : Nat
  cols : Nat
  get : Nat → Nat → A

/-- `uint8` bytes as a vector or as rows. -/
inductive Raw
  | flat (v : Flat Nat)
  | mat (m : Mat Nat)

variable {A : Type}

/-- `reshape(-1)` -/
def Mat.flatten (m : Mat A) : Flat A := ⟨m.rows * m.cols, fun k => m.get (k / m.cols) (k % m.cols)⟩

def Raw.flatten : Raw → Flat Nat
  | .flat v => v
  | .mat m => m.flatten

/-- `raw.reshape(-1, w)` -/
def Raw.reshape (raw : Raw) (w : Nat) : Except Error (Mat Nat) :=
  let v := raw.flatten
  if v.numel % w = 0 then .ok ⟨v.numel / w, w, fun i j => v.get (i * w + j)⟩ else .error .invalidShape

/-- `m[:, lo:hi]` -/
def Mat.slice (m : Mat A) (lo hi : Nat) : Mat A :=
  ⟨m.rows, min hi m.cols - lo, fun i j => m.get i (lo + j)⟩

/-- Rows are needed for two indices. -/
def Raw.asRows : Raw → Except Error (Mat Nat)
  | .flat _ => .error .tooManyIndices
  | .mat m => .ok m

/-- `m[:, j]` -/
def Mat.col (m : Mat A) (j : Nat) : Except Error (Nat → A) :=
  if j < m.cols then .ok fun i => m.get i j else .error .indexOutOfBounds

/-- `y[:, lo:lo + n] = v` -/
def Mat.assign (y : Mat A) (lo n : Nat) (v : Nat → Nat → A) : Mat A :=
  { y with get := fun i j => if lo ≤ j ∧ j < lo + n then v i (j - lo) else y.get i j }

/-- The right side of an assignment to `n` columns: `n` columns, or one for all. -/
def Mat.fit (v : Mat A) (n : Nat) : Except Error (Nat → Nat → A) :=
  if v.cols = n then .ok v.get
  else if v.cols = 1 then .ok fun i _ => v.get i 0
  else .error .shapeMismatch

/-! ## Q4_0 and Q6_K -/

/-- `_f16_scales` of the two bytes from `lo` on -/
def f16Scales (raw : Mat Nat) (lo : Nat) (i : Nat) : Value :=
  ieee 5 10 (raw.get i lo + 256 * raw.get i (lo + 1))

def dequantQ4_0 (raw : Raw) : Except Error (Flat Value) := do
  let raw ← raw.reshape 18
  let d := f16Scales raw 0
  let qs := raw.slice 2 18
  let lo (i j : Nat) : Nat := qs.get i j &&& 0x0F
  let hi (i j : Nat) : Nat := qs.get i j >>> 4
  let q (i j : Nat) : Nat := if j < 16 then lo i j else hi i (j - 16)
  return Mat.flatten ⟨raw.rows, 32, fun i j => times (some ((q i j : ℚ) - 8)) (d i)⟩

/-- The four products of a half of a super-block, each in its 32 columns. -/
def halfQ6_K (raw : Mat Nat) (y : Mat Value) (h : Nat) : Mat Value :=
  let ql := raw.slice 0 128
  let qh := raw.slice 128 192
  let sc (i j : Nat) : Int := int8 ((raw.slice 192 208).get i j)
  let d := f16Scales raw 208
  let qlh := ql.slice (h * 64) ((h + 1) * 64)
  let qhh := qh.slice (h * 32) ((h + 1) * 32)
  let sch (i j : Nat) : Int := sc i (h * 8 + j)
  let a := (qlh.slice 0 32).get
  let b := (qlh.slice 32 64).get
  let hb := qhh.get
  let q1 (i l : Nat) : Int := ((a i l &&& 0x0F) ||| (((hb i l >>> 0) &&& 3) <<< 4) : Nat) - 32
  let q2 (i l : Nat) : Int := ((b i l &&& 0x0F) ||| (((hb i l >>> 2) &&& 3) <<< 4) : Nat) - 32
  let q3 (i l : Nat) : Int := ((a i l >>> 4) ||| (((hb i l >>> 4) &&& 3) <<< 4) : Nat) - 32
  let q4 (i l : Nat) : Int := ((b i l >>> 4) ||| (((hb i l >>> 6) &&& 3) <<< 4) : Nat) - 32
  let s (k : Nat) (i l : Nat) : Int := sch i (l / 16 + k)
  let scaled (s q : Nat → Nat → Int) (i l : Nat) : Value :=
    times (times (d i) (some (s i l : ℚ))) (some (q i l : ℚ))
  let base := h * 128
  (((y.assign base 32 (scaled (s 0) q1)).assign (base + 32) 32 (scaled (s 2) q2)).assign
    (base + 64) 32 (scaled (s 4) q3)).assign (base + 96) 32 (scaled (s 6) q4)

def dequantQ6_K (raw : Raw) : Except Error (Flat Value) := do
  let raw ← raw.reshape 210
  let y : Mat Value := ⟨raw.rows, 256, fun _ _ => none⟩
  return ((List.range 2).foldl (halfQ6_K raw) y).flatten

/-! ## Codebooks and scales -/

/-- `_KV_MXFP4` and `_KV_ROCMFP4` -/
def kvMxfp4 : List Int := [0, 1, 2, 3, 4, 6, 8, 12]

def kvRocmfp4 : List Int := [0, 1, 2, 3, 4, 6, 8, 10]

/-- The sixteen codes: the sign is bit 3. -/
def signedLut (kv : List Int) (i : Nat) : Int := if i < 8 then kv.getD i 0 else -kv.getD (i - 8) 0

/-- `_ue4m3_half_table` -/
def ue4m3HalfTable (b : Nat) : ℚ :=
  if b = 127 then 0
  else
    let eField := b / 8
    let m := b % 8
    if eField = 0 then m * (2 : ℚ) ^ (-10 : Int) else (8 + m : Nat) * (2 : ℚ) ^ (eField - 11 : Int)

/-- `_UE4M3_HALF[scales]`, a table of 128 entries indexed by a column of bytes -/
def ue4m3Half (rows : Nat) (scales : Nat → Nat) : Except Error (Nat → Value) :=
  if (List.range rows).all fun i => decide (scales i < 128) then
    .ok fun i => some (ue4m3HalfTable (scales i))
  else .error .indexOutOfBounds

/-- `out[:, :16]` and `out[:, 16:]`: codes of the low and of the high nibbles, each times its scale. -/
def nibbleOut (qs : Mat Nat) (code : Nat → Value) (sLo sHi : Nat → Value) :
    Except Error (Flat Value) := do
  let lo ← Mat.fit ⟨qs.rows, qs.cols, fun i j => times (code (qs.get i j &&& 0x0F)) (sLo i)⟩ 16
  let hi ← Mat.fit ⟨qs.rows, qs.cols, fun i j => times (code (qs.get i j >>> 4)) (sHi i)⟩ 16
  let out : Mat Value := ⟨qs.rows, 32, fun _ _ => none⟩
  return ((out.assign 0 16 lo).assign 16 16 hi).flatten

/-- The code of a nibble, as a float. -/
def lutValue (kv : List Int) (q : Nat) : Value := some (signedLut kv q : ℚ)

/-- The nibble in two's complement. -/
def int4Value (q : Nat) : Value := some (if 8 ≤ q then (q : ℚ) - 16 else q)

def dequantMxfp4 (raw : Raw) : Except Error (Flat Value) := do
  let raw ← raw.asRows
  let e ← raw.col 0
  let qs := raw.slice 1 raw.cols
  let d (i : Nat) : Value := some ((2 : ℚ) ^ ((e i : Int) - 128))
  nibbleOut qs (lutValue kvMxfp4) d d

/-- `_nibble_blocks` with two scale columns, and the products of the halves -/
def dequantQ4_0Rocmfp4 (raw : Raw) : Except Error (Flat Value) := do
  let raw ← raw.asRows
  let e0 ← raw.col 16
  let e1 ← raw.col 17
  let s0 ← ue4m3Half raw.rows e0
  let s1 ← ue4m3Half raw.rows e1
  nibbleOut (raw.slice 0 16) (lutValue kvRocmfp4) s0 s1

def dequantQ4_0Rocmfp4Fast (raw : Raw) : Except Error (Flat Value) := do
  let raw ← raw.asRows
  let e ← raw.col 16
  let s ← ue4m3Half raw.rows e
  nibbleOut (raw.slice 0 16) (lutValue kvRocmfp4) s s

def dequantQ4_0Rocmi4 (raw : Raw) : Except Error (Flat Value) := do
  let raw ← raw.asRows
  let e ← raw.col 16
  let s ← ue4m3Half raw.rows e
  nibbleOut (raw.slice 0 16) int4Value s s

/-! ## Types -/

def ggmlF32 : Nat := 0
def ggmlF16 : Nat := 1
def ggmlQ4_0 : Nat := 2
def ggmlQ6_K : Nat := 14
def ggmlBF16 : Nat := 30
def ggmlMxfp4 : Nat := 39
def ggmlQ4_0Rocmfp4 : Nat := 100
def ggmlQ4_0Rocmfp4Fast : Nat := 101
def ggmlQ4_0Rocmi4 : Nat := 108

/-- `BLOCK_SHAPE`: elements and bytes of a block. -/
def blockShape : List (Nat × Nat × Nat) :=
  [(ggmlF32, 1, 4), (ggmlF16, 1, 2), (ggmlBF16, 1, 2), (ggmlQ4_0, 32, 18), (3, 32, 20), (6, 32, 22),
    (7, 32, 24), (8, 32, 34), (10, 256, 84), (11, 256, 110), (12, 256, 144), (13, 256, 176),
    (ggmlQ6_K, 256, 210), (16, 256, 66), (17, 256, 74), (18, 256, 98), (19, 256, 50), (20, 32, 18),
    (21, 256, 110), (22, 256, 82), (23, 256, 136), (29, 256, 56), (ggmlMxfp4, 32, 17),
    (ggmlQ4_0Rocmfp4, 32, 18), (ggmlQ4_0Rocmfp4Fast, 32, 17), (ggmlQ4_0Rocmi4, 32, 17)]

/-- `row_bytes` -/
def rowBytes (numel ggmlType : Nat) : Except Error Nat :=
  match blockShape.lookup ggmlType with
  | none => .error .keyError
  | some (block, typeSize) =>
      if numel % block = 0 then .ok (numel / block * typeSize) else .error .notAMultiple

/-- `_DEQUANT` -/
def dequantTable : List (Nat × (Raw → Except Error (Flat Value))) :=
  [(ggmlQ4_0, dequantQ4_0), (ggmlQ6_K, dequantQ6_K), (ggmlMxfp4, dequantMxfp4),
    (ggmlQ4_0Rocmfp4, dequantQ4_0Rocmfp4), (ggmlQ4_0Rocmfp4Fast, dequantQ4_0Rocmfp4Fast),
    (ggmlQ4_0Rocmi4, dequantQ4_0Rocmi4)]

/-- The number in `n` little-endian bytes from `k` on. -/
def littleEndian (get : Nat → Nat) (k : Nat) : Nat → Nat
  | 0 => 0
  | n + 1 => littleEndian get k n + 256 ^ n * get (k + n)

/-- `raw.view(dtype)` of a float type with `size` bytes; bytes are viewed as a vector here. -/
def viewFloat (raw : Raw) (size E M : Nat) : Except Error (Flat Value) :=
  let v := raw.flatten
  if v.numel % size = 0 then
    .ok ⟨v.numel / size, fun k => ieee E M (littleEndian v.get (k * size) size)⟩
  else .error .invalidShape

def dequantize (raw : Raw) (ggmlType : Nat) : Except Error (Flat Value) :=
  if ggmlType = ggmlF32 then viewFloat raw 4 8 23
  else if ggmlType = ggmlF16 then viewFloat raw 2 5 10
  else if ggmlType = ggmlBF16 then viewFloat raw 2 8 7
  else match dequantTable.lookup ggmlType with
    | none => .error (.notImplemented ggmlType)
    | some fn => fn raw

structure GgufTensor where
  name : String
  shape : List Nat
  ggmlType : Nat
  rows : Nat
  rowBytes : Nat
  raw : Nat → Nat → Nat

def GgufTensor.packed (t : GgufTensor) : Mat Nat := ⟨t.rows, t.rowBytes, t.raw⟩

/-- `dequant_any`: the values in storage order; `fallback` is the reference decoder of the `gguf`
package. -/
def dequantAny (fallback : GgufTensor → Except Error (Flat Value)) (t : GgufTensor) :
    Except Error (Flat Value) :=
  match dequantize (.flat t.packed.flatten) t.ggmlType with
  | .ok v => if v.numel = t.shape.prod then .ok v else .error .invalidShape
  | .error .keyError => fallback t
  | .error (.notImplemented _) => fallback t
  | .error e => .error e

end Gguf

end FreeToken
