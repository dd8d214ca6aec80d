import Mathlib.Algebra.Order.Field.Rat
import Mathlib.Algebra.Order.Ring.Nat
import Mathlib.Algebra.BigOperators.Group.List.Basic
import Mathlib.Tactic.IntervalCases
import Mathlib.Tactic.NormNum
import Mathlib.Tactic.Ring
import FreeToken.Checkpoint.GgufDequant

/-!
# Exact values of GGUF blocks

What the formats say an element of a block is, and that the routines compute it: those for `Q4_0` and
`Q6_K` from the flat bytes of any tensor, the others only from rows of one block each.
-/

set_option autoImplicit false

namespace FreeToken

namespace Gguf

/-! ## The formats -/

/-- The sixteen bytes from `lo` on hold the first half of the codes low, the second half high. -/
def nibbleCode (block : Nat → Nat) (lo i : Nat) : Nat :=
  if i < 16 then block (lo + i) % 16 else block (lo + (i - 16)) / 16

def q4_0Value (block : Nat → Nat) (i : Nat) : Value :=
  times (some ((nibbleCode block 2 i : ℚ) - 8)) (ieee 5 10 (block 0 + 256 * block 1))

/-- Element `128 h + 32 k + l`: four low bits, two high ones, and a signed scale for sixteen elements. -/
def q6_KValue (block : Nat → Nat) (i : Nat) : Value :=
  let h := i / 128
  let k := i % 128 / 32
  let l := i % 32
  let ql := block (64 * h + 32 * (k % 2) + l)
  let low := if k < 2 then ql % 16 else ql / 16
  let high := block (128 + 32 * h + l) / 4 ^ k % 4
  let scale := int8 (block (192 + (8 * h + l / 16 + 2 * k)))
  times (times (ieee 5 10 (block 208 + 256 * block 209)) (some (scale : ℚ)))
    (some ((low + 16 * high : Nat) - 32 : ℚ))

/-- E2M1: a sign, two exponent bits and one mantissa bit. -/
def e2m1 (q : Nat) : ℚ :=
  let sign : ℚ := if q / 8 = 1 then -1 else 1
  let e := q % 8 / 2
  let m := q % 2
  sign * if e = 0 then (m : ℚ) / 2 else (2 + m : ℚ) / 2 * 2 ^ (e - 1)

def mxfp4Value (block : Nat → Nat) (i : Nat) : Value :=
  some (e2m1 (nibbleCode block 1 i) * (2 : ℚ) ^ ((block 0 : Int) - 127))

/-- Half an unsigned E4M3 number; nothing from `0x7f` on is one. -/
def ue4m3HalfValue (b : Nat) : ℚ :=
  if 0x7f ≤ b then 0
  else if b / 8 = 0 then (b % 8 : Nat) * (2 : ℚ) ^ (-10 : Int)
  else (8 + b % 8 : Nat) * (2 : ℚ) ^ ((b / 8 : Nat) - 11 : Int)

/-- Twice E2M1, but for the largest magnitude. -/
def rocmfp4Code (q : Nat) : ℚ :=
  if q % 8 = 7 then (if q / 8 = 1 then -10 else 10) else 2 * e2m1 q

def rocmfp4Value (block : Nat → Nat) (i : Nat) : Value :=
  some (rocmfp4Code (nibbleCode block 0 i) * ue4m3HalfValue (block (16 + i / 16)))

def rocmfp4FastValue (block : Nat → Nat) (i : Nat) : Value :=
  some (rocmfp4Code (nibbleCode block 0 i) * ue4m3HalfValue (block 16))

def rocmi4Value (block : Nat → Nat) (i : Nat) : Value :=
  let q := nibbleCode block 0 i
  some ((if 8 ≤ q then (q : ℚ) - 16 else q) * ue4m3HalfValue (block 16))

/-- Element `i` of a block, by the type of the tensor. -/
def blockValue (ggmlType : Nat) : (Nat → Nat) → Nat → Value :=
  if ggmlType = ggmlQ4_0 then q4_0Value
  else if ggmlType = ggmlQ6_K then q6_KValue
  else if ggmlType = ggmlMxfp4 then mxfp4Value
  else if ggmlType = ggmlQ4_0Rocmfp4 then rocmfp4Value
  else if ggmlType = ggmlQ4_0Rocmfp4Fast then rocmfp4FastValue
  else rocmi4Value

/-! ## Bits -/

theorem and_low (b : Nat) : b &&& 0x0F = b % 16 := Nat.and_two_pow_sub_one_eq_mod b 4

theorem shift_high (b : Nat) : b >>> 4 = b / 16 := Nat.shiftRight_eq_div_pow b 4

theorem join_bits {lo : Nat} (h : lo < 16) (hb s : Nat) :
    lo ||| (((hb >>> s) &&& 3) <<< 4) = lo + 16 * (hb / 2 ^ s % 4) := by
  have hmask : hb >>> s &&& 3 = hb / 2 ^ s % 4 := by
    rw [Nat.shiftRight_eq_div_pow]
    exact Nat.and_two_pow_sub_one_eq_mod _ 2
  rw [hmask, Nat.or_comm, ← Nat.shiftLeft_add_eq_or_of_lt h, Nat.shiftLeft_eq]
  omega

/-! ## Vectors of blocks -/

section Blocks

variable {A : Type}

/-- The row of a flattened matrix that an index is in. -/
theorem Mat.flatten_get (m : Mat A) {b i : Nat} (hi : i < m.cols) :
    m.flatten.get (b * m.cols + i) = m.get b i := by
  show m.get ((b * m.cols + i) / m.cols) ((b * m.cols + i) % m.cols) = m.get b i
  have hpos : 0 < m.cols := by omega
  rw [Nat.add_comm, Nat.add_mul_div_right _ _ hpos, Nat.add_mul_mod_self_right, Nat.div_eq_of_lt hi,
    Nat.mod_eq_of_lt hi, Nat.zero_add]

theorem Raw.reshape_eq {raw : Raw} {B w : Nat} (hw : 0 < w) (hnumel : raw.flatten.numel = B * w) :
    raw.reshape w = .ok ⟨B, w, fun i j => raw.flatten.get (i * w + j)⟩ := by
  unfold Raw.reshape
  dsimp only
  rw [hnumel, if_pos (Nat.mul_mod_left B w), Nat.mul_div_cancel B hw]

/-- `y[:, lo:lo + n] = v` in and out of the columns. -/
theorem Mat.assign_get_of_lt (y : Mat A) {lo n : Nat} (v : Nat → Nat → A) {i l : Nat} (hl : l < n) :
    (y.assign lo n v).get i (lo + l) = v i l := by
  show (if lo ≤ lo + l ∧ lo + l < lo + n then v i (lo + l - lo) else _) = _
  rw [if_pos (by omega), Nat.add_sub_cancel_left]

theorem Mat.assign_get_of_not (y : Mat A) {lo n : Nat} (v : Nat → Nat → A) {i j : Nat}
    (hj : j < lo ∨ lo + n ≤ j) : (y.assign lo n v).get i j = y.get i j := by
  show (if lo ≤ j ∧ j < lo + n then v i (j - lo) else _) = _
  rw [if_neg (by omega)]

theorem Mat.fit_mk {rows cols n : Nat} {get : Nat → Nat → A} (h : cols = n) :
    Mat.fit ⟨rows, cols, get⟩ n = .ok get := if_pos h

end Blocks

/-! ## Flat routines -/

/-- The result of a routine: `B` rows of `n` elements, by what an element of a block is. -/
def Rows (r : Except Error (Flat Value)) (B n : Nat) (value : Nat → Nat → Value) : Prop :=
  ∃ get, r = .ok (Mat.flatten ⟨B, n, get⟩) ∧ ∀ b i, b < B → i < n → get b i = value b i

theorem dequantQ4_0_rows {raw : Raw} {B : Nat} (hnumel : raw.flatten.numel = B * 18) :
    Rows (dequantQ4_0 raw) B 32 fun b => q4_0Value fun j => raw.flatten.get (b * 18 + j) := by
  unfold dequantQ4_0
  rw [Raw.reshape_eq (by decide) hnumel]
  refine ⟨_, rfl, fun b i _ _ => ?_⟩
  unfold q4_0Value nibbleCode
  dsimp only
  by_cases hlow : i < 16
  · rw [if_pos hlow, if_pos hlow]
    dsimp only [Mat.slice]
    rw [and_low]
    rfl
  · rw [if_neg hlow, if_neg hlow]
    dsimp only [Mat.slice]
    rw [shift_high]
    rfl

/-- A product of a half: its low bits and its shift, its byte of high bits and its scale. -/
theorem times_code {d : Value} {lo hi s : Nat} {scale : Int} (h : lo < 16) :
    times (times d (some (scale : ℚ))) (some ((((lo ||| (((hi >>> s) &&& 3) <<< 4) : Nat) : Int) - 32 : Int) : ℚ)) =
      times (times d (some (scale : ℚ))) (some ((lo + 16 * (hi / 2 ^ s % 4) : Nat) - 32 : ℚ)) := by
  rw [join_bits h, Int.cast_sub, Int.cast_natCast]
  rfl

/-- A half writes its four times 32 columns. -/
theorem halfQ6_K_get (raw : Mat Nat) (y : Mat Value) (h i : Nat) (hh : h < 2)
    (hbytes : ∀ j, raw.get i j < 256) {k l : Nat} (hk : k < 4) (hl : l < 32) :
    (halfQ6_K raw y h).get i (h * 128 + (32 * k + l)) =
      times (times (f16Scales raw 208 i)
          (some (int8 (raw.get i (192 + (8 * h + l / 16 + 2 * k))) : ℚ)))
        (some (((if k < 2 then raw.get i (64 * h + 32 * (k % 2) + l) % 16
          else raw.get i (64 * h + 32 * (k % 2) + l) / 16) +
            16 * (raw.get i (128 + 32 * h + l) / 4 ^ k % 4) : Nat) - 32 : ℚ)) := by
  have hhigh : ∀ j, raw.get i j / 16 < 16 := by
    intro j
    have := hbytes j
    omega
  unfold halfQ6_K
  dsimp only
  obtain rfl | rfl | rfl | rfl : k = 0 ∨ k = 1 ∨ k = 2 ∨ k = 3 := by omega
  · rw [Mat.assign_get_of_not _ _ (by omega), Mat.assign_get_of_not _ _ (by omega),
      Mat.assign_get_of_not _ _ (by omega), Nat.mul_zero, Nat.zero_add, Mat.assign_get_of_lt _ _ hl,
      and_low, times_code (Nat.mod_lt _ (by decide))]
    dsimp only [Mat.slice]
    have hlow : 0 + (h * 64 + (0 + l)) = 64 * h + 0 + l := by omega
    have hhi : 128 + (h * 32 + l) = 128 + 32 * h + l := by omega
    have hscale : 192 + (h * 8 + (l / 16 + 0)) = 192 + (8 * h + l / 16 + 0) := by omega
    rw [hlow, hhi, hscale, if_pos (by decide)]
    rfl
  · have hcol : h * 128 + (32 * 1 + l) = h * 128 + 32 + l := by omega
    rw [Mat.assign_get_of_not _ _ (by omega), Mat.assign_get_of_not _ _ (by omega), hcol,
      Mat.assign_get_of_lt _ _ hl, and_low, times_code (Nat.mod_lt _ (by decide))]
    dsimp only [Mat.slice]
    have hlow : 0 + (h * 64 + (32 + l)) = 64 * h + 32 * (1 % 2) + l := by omega
    have hhi : 128 + (h * 32 + l) = 128 + 32 * h + l := by omega
    have hscale : 192 + (h * 8 + (l / 16 + 2)) = 192 + (8 * h + l / 16 + 2 * 1) := by omega
    rw [hlow, hhi, hscale, if_pos (by decide)]
    rfl
  · have hcol : h * 128 + (32 * 2 + l) = h * 128 + 64 + l := by omega
    rw [Mat.assign_get_of_not _ _ (by omega), hcol, Mat.assign_get_of_lt _ _ hl, shift_high]
    dsimp only [Mat.slice]
    rw [times_code (hhigh _)]
    have hlow : 0 + (h * 64 + (0 + l)) = 64 * h + 32 * (2 % 2) + l := by omega
    have hhi : 128 + (h * 32 + l) = 128 + 32 * h + l := by omega
    have hscale : 192 + (h * 8 + (l / 16 + 4)) = 192 + (8 * h + l / 16 + 2 * 2) := by omega
    rw [hlow, hhi, hscale, if_neg (by decide)]
    rfl
  · have hcol : h * 128 + (32 * 3 + l) = h * 128 + 96 + l := by omega
    rw [hcol, Mat.assign_get_of_lt _ _ hl, shift_high]
    dsimp only [Mat.slice]
    rw [times_code (hhigh _)]
    have hlow : 0 + (h * 64 + (32 + l)) = 64 * h + 32 * (3 % 2) + l := by omega
    have hhi : 128 + (h * 32 + l) = 128 + 32 * h + l := by omega
    have hscale : 192 + (h * 8 + (l / 16 + 6)) = 192 + (8 * h + l / 16 + 2 * 3) := by omega
    rw [hlow, hhi, hscale, if_neg (by decide)]
    rfl

theorem halfQ6_K_get_of_not (raw : Mat Nat) (y : Mat Value) (h i : Nat) {j : Nat}
    (hj : j < h * 128 ∨ h * 128 + 128 ≤ j) : (halfQ6_K raw y h).get i j = y.get i j := by
  unfold halfQ6_K
  dsimp only
  rw [Mat.assign_get_of_not _ _ (by omega), Mat.assign_get_of_not _ _ (by omega),
    Mat.assign_get_of_not _ _ (by omega), Mat.assign_get_of_not _ _ (by omega)]

theorem dequantQ6_K_rows {raw : Raw} {B : Nat} (hnumel : raw.flatten.numel = B * 210)
    (hbytes : ∀ j, raw.flatten.get j < 256) :
    Rows (dequantQ6_K raw) B 256 fun b => q6_KValue fun j => raw.flatten.get (b * 210 + j) := by
  unfold dequantQ6_K
  rw [Raw.reshape_eq (by decide) hnumel]
  let m : Mat Nat := ⟨B, 210, fun i j => raw.flatten.get (i * 210 + j)⟩
  let y : Mat Value := ⟨B, 256, fun _ _ => none⟩
  refine ⟨((List.range 2).foldl (halfQ6_K m) y).get, rfl, fun b i _ hi => ?_⟩
  show (halfQ6_K m (halfQ6_K m y 0) 1).get b i = _
  have hm : ∀ j, m.get b j < 256 := fun j => hbytes _
  have hl : i % 32 < 32 := Nat.mod_lt i (by decide)
  have hk : i % 128 / 32 < 4 := by omega
  by_cases hhalf : i < 128
  · rw [halfQ6_K_get_of_not _ _ _ _ (by omega)]
    have hsplit : i = 0 * 128 + (32 * (i % 128 / 32) + i % 32) := by omega
    have hzero : i / 128 = 0 := by omega
    conv_lhs => rw [hsplit]
    rw [halfQ6_K_get m y 0 b (by decide) hm hk hl]
    unfold q6_KValue
    dsimp only
    rw [hzero]
    rfl
  · have hsplit : i = 1 * 128 + (32 * (i % 128 / 32) + i % 32) := by omega
    have hone : i / 128 = 1 := by omega
    conv_lhs => rw [hsplit]
    rw [halfQ6_K_get m _ 1 b (by decide) hm hk hl]
    unfold q6_KValue
    dsimp only
    rw [hone]
    rfl

/-! ## Routines over rows of one block -/

theorem e2m1_mxfp4 {q : Nat} (h : q < 16) : (signedLut kvMxfp4 q : ℚ) = 2 * e2m1 q := by
  interval_cases q <;> norm_num [signedLut, kvMxfp4, e2m1]

theorem rocmfp4Code_eq {q : Nat} (h : q < 16) : (signedLut kvRocmfp4 q : ℚ) = rocmfp4Code q := by
  interval_cases q <;> norm_num [signedLut, kvRocmfp4, rocmfp4Code, e2m1]

theorem ue4m3HalfTable_eq {b : Nat} (h : b < 128) : ue4m3HalfTable b = ue4m3HalfValue b := by
  unfold ue4m3HalfTable ue4m3HalfValue
  by_cases hlast : b = 127
  · rw [if_pos hlast, if_pos (by omega)]
  · rw [if_neg hlast, if_neg (show ¬ 0x7f ≤ b by omega)]

theorem ue4m3Half_eq {B : Nat} {scales : Nat → Nat} (h : ∀ b < B, scales b < 128) :
    ue4m3Half B scales = .ok fun b => some (ue4m3HalfTable (scales b)) := by
  unfold ue4m3Half
  rw [if_pos]
  rw [List.all_eq_true]
  intro b hb
  exact decide_eq_true (h b (List.mem_range.1 hb))

/-- A byte from 128 on is behind the end of the table. -/
theorem ue4m3Half_error {B b : Nat} {scales : Nat → Nat} (hb : b < B) (h : 128 ≤ scales b) :
    ue4m3Half B scales = .error .indexOutOfBounds := by
  unfold ue4m3Half
  rw [if_neg]
  rw [List.all_eq_true]
  intro hall
  exact absurd (of_decide_eq_true (hall b (List.mem_range.2 hb))) (by omega)

/-- Sixteen bytes of codes from column `lo` on. -/
theorem nibbleOut_rows (raw : Mat Nat) (code sLo sHi : Nat → Value) {lo hi : Nat}
    (hcols : min hi raw.cols - lo = 16) :
    Rows (nibbleOut (raw.slice lo hi) code sLo sHi) raw.rows 32 fun b i =>
      times (code (nibbleCode (raw.get b) lo i)) (if i < 16 then sLo b else sHi b) := by
  have hwidth : (raw.slice lo hi).cols = 16 := hcols
  unfold nibbleOut
  rw [Mat.fit_mk hwidth, Mat.fit_mk hwidth]
  refine ⟨_, rfl, fun b i _ hi => ?_⟩
  unfold nibbleCode
  dsimp only [Mat.slice]
  by_cases hlow : i < 16
  · rw [if_pos hlow, if_pos hlow, if_neg (by omega)]
    have hget := @Mat.assign_get_of_lt Value ⟨raw.rows, 32, fun _ _ => none⟩ 0 16
      (fun b j => times (code (raw.get b (lo + j) &&& 0x0F)) (sLo b)) b i hlow
    rw [Nat.zero_add] at hget
    rw [hget, and_low]
  · rw [if_neg hlow, if_neg hlow, if_pos (by omega), shift_high]

theorem Rows.congr {r : Except Error (Flat Value)} {B n : Nat} {value value' : Nat → Nat → Value}
    (h : Rows r B n value) (heq : ∀ b i, b < B → i < n → value b i = value' b i) : Rows r B n value' := by
  obtain ⟨get, hr, hget⟩ := h
  refine ⟨get, hr, fun b i hb hi => ?_⟩
  rw [hget b i hb hi, heq b i hb hi]

theorem nibbleCode_lt {block : Nat → Nat} (hbytes : ∀ j, block j < 256) (lo i : Nat) :
    nibbleCode block lo i < 16 := by
  unfold nibbleCode
  have := hbytes (lo + (i - 16))
  split <;> omega

section MatRows

variable {B : Nat} {get : Nat → Nat → Nat} (hbytes : ∀ i j, get i j < 256)
include hbytes

theorem dequantMxfp4_rows :
    Rows (dequantMxfp4 (.mat ⟨B, 17, get⟩)) B 32 fun b => mxfp4Value (get b) := by
  have hout := nibbleOut_rows ⟨B, 17, get⟩ (lutValue kvMxfp4)
    (fun b => some ((2 : ℚ) ^ ((get b 0 : Int) - 128)))
    (fun b => some ((2 : ℚ) ^ ((get b 0 : Int) - 128))) (show min 17 17 - 1 = 16 from rfl)
  apply hout.congr
  intro b i _ _
  have hscale : (2 : ℚ) ^ ((get b 0 : Int) - 127) = 2 * 2 ^ ((get b 0 : Int) - 128) := by
    rw [show (get b 0 : Int) - 127 = 1 + ((get b 0 : Int) - 128) by omega,
      zpow_add₀ (by norm_num : (2 : ℚ) ≠ 0), zpow_one]
  unfold lutValue mxfp4Value
  rw [ite_self, e2m1_mxfp4 (nibbleCode_lt (hbytes b) 1 i), hscale]
  show some _ = some _
  congr 1
  ring

theorem dequantQ4_0Rocmfp4_rows (hscale : ∀ b < B, get b 16 < 128 ∧ get b 17 < 128) :
    Rows (dequantQ4_0Rocmfp4 (.mat ⟨B, 18, get⟩)) B 32 fun b => rocmfp4Value (get b) := by
  have hout := nibbleOut_rows ⟨B, 18, get⟩ (lutValue kvRocmfp4)
    (fun b => some (ue4m3HalfTable (get b 16))) (fun b => some (ue4m3HalfTable (get b 17)))
    (show min 16 18 - 0 = 16 from rfl)
  have hrun : dequantQ4_0Rocmfp4 (.mat ⟨B, 18, get⟩) =
      nibbleOut ((⟨B, 18, get⟩ : Mat Nat).slice 0 16) (lutValue kvRocmfp4)
        (fun b => some (ue4m3HalfTable (get b 16))) fun b => some (ue4m3HalfTable (get b 17)) := by
    have h0 := ue4m3Half_eq fun b hb => (hscale b hb).1
    have h1 := ue4m3Half_eq fun b hb => (hscale b hb).2
    unfold dequantQ4_0Rocmfp4 Raw.asRows Mat.col
    dsimp only [bind, Except.bind]
    rw [if_pos (by decide), if_pos (by decide)]
    dsimp only
    rw [h0, h1]
  rw [hrun]
  apply hout.congr
  intro b i hb hi
  obtain ⟨h0, h1⟩ := hscale b hb
  unfold lutValue rocmfp4Value
  rw [rocmfp4Code_eq (nibbleCode_lt (hbytes b) 0 i)]
  by_cases hlow : i < 16
  · rw [if_pos hlow, ue4m3HalfTable_eq h0, Nat.div_eq_of_lt hlow]
    rfl
  · have hone : i / 16 = 1 := by omega
    rw [if_neg hlow, ue4m3HalfTable_eq h1, hone]
    rfl

/-- The two formats with one scale for the block. -/
theorem oneScale_rows {code : Nat → Value} (value : Nat → ℚ)
    (hcode : ∀ q < 16, code q = some (value q)) (hscale : ∀ b < B, get b 16 < 128) :
    Rows (do
        let raw ← (Raw.mat ⟨B, 17, get⟩).asRows
        let e ← raw.col 16
        let s ← ue4m3Half raw.rows e
        nibbleOut (raw.slice 0 16) code s s) B 32
      fun b i => some (value (nibbleCode (get b) 0 i) * ue4m3HalfValue (get b 16)) := by
  have hout := nibbleOut_rows ⟨B, 17, get⟩ code
    (fun b => some (ue4m3HalfTable (get b 16))) (fun b => some (ue4m3HalfTable (get b 16)))
    (show min 16 17 - 0 = 16 from rfl)
  unfold Raw.asRows Mat.col
  dsimp only [bind, Except.bind]
  rw [if_pos (by decide)]
  dsimp only
  rw [ue4m3Half_eq hscale]
  apply hout.congr
  intro b i hb _
  rw [ite_self, hcode _ (nibbleCode_lt (hbytes b) 0 i), ue4m3HalfTable_eq (hscale b hb)]
  rfl

theorem dequantQ4_0Rocmfp4Fast_rows (hscale : ∀ b < B, get b 16 < 128) :
    Rows (dequantQ4_0Rocmfp4Fast (.mat ⟨B, 17, get⟩)) B 32 fun b => rocmfp4FastValue (get b) :=
  oneScale_rows hbytes _ (fun _ hq => congrArg some (rocmfp4Code_eq hq)) hscale

theorem dequantQ4_0Rocmi4_rows (hscale : ∀ b < B, get b 16 < 128) :
    Rows (dequantQ4_0Rocmi4 (.mat ⟨B, 17, get⟩)) B 32 fun b => rocmi4Value (get b) :=
  oneScale_rows hbytes (fun q => if 8 ≤ q then (q : ℚ) - 16 else q) (fun _ _ => rfl) hscale

end MatRows

/-! ## A tensor of the file -/

/-- The elements and bytes of a block of the tensor's type. -/
def GgufTensor.block (t : GgufTensor) : Nat × Nat := (blockShape.lookup t.ggmlType).getD (1, 1)

/-- As the reader yields it: whole blocks in the fastest dimension, and bytes. -/
structure GgufTensor.WellFormed (t : GgufTensor) : Prop where
  shape : ∃ lead nFast, t.shape = lead ++ [nFast] ∧ t.rows = lead.prod ∧
    Gguf.rowBytes nFast t.ggmlType = .ok t.rowBytes
  bytes : ∀ i j, t.raw i j < 256

/-- Block `b` of the packed bytes. -/
def GgufTensor.blockBytes (t : GgufTensor) (b j : Nat) : Nat :=
  t.packed.flatten.get (b * t.block.2 + j)

/-- The float that scales a block is a number. -/
def FiniteScale (ggmlType : Nat) (block : Nat → Nat) : Prop :=
  (ggmlType = ggmlQ4_0 → ieee 5 10 (block 0 + 256 * block 1) ≠ none) ∧
    (ggmlType = ggmlQ6_K → ieee 5 10 (block 208 + 256 * block 209) ≠ none)

/-- As many values as elements, and each is what its block says: a number, if the scale is one. -/
def Exact (t : GgufTensor) (r : Except Error (Flat Value)) : Prop :=
  ∃ v, r = .ok v ∧ v.numel = t.shape.prod ∧ ∀ b i, i < t.block.1 → b * t.block.1 + i < v.numel →
    v.get (b * t.block.1 + i) = blockValue t.ggmlType (t.blockBytes b) i ∧
      (FiniteScale t.ggmlType (t.blockBytes b) → v.get (b * t.block.1 + i) ≠ none)

/-- A tensor is a number of blocks. -/
theorem GgufTensor.WellFormed.blocks {t : GgufTensor} (h : t.WellFormed) {block typeSize : Nat}
    (hblock : blockShape.lookup t.ggmlType = some (block, typeSize)) :
    ∃ B, t.packed.flatten.numel = B * typeSize ∧ t.shape.prod = B * block := by
  obtain ⟨lead, nFast, hshape, hrows, hbytes⟩ := h.shape
  unfold Gguf.rowBytes at hbytes
  rw [hblock] at hbytes
  dsimp only at hbytes
  split at hbytes
  · rename_i hmul
    have hcols : nFast / block * typeSize = t.rowBytes := Except.ok.inj hbytes
    have hfast : nFast / block * block = nFast := Nat.div_mul_cancel (Nat.dvd_of_mod_eq_zero hmul)
    refine ⟨lead.prod * (nFast / block), ?_, ?_⟩
    · show t.rows * t.rowBytes = _
      rw [hrows, ← hcols, Nat.mul_assoc]
    · rw [hshape, List.prod_append, List.prod_singleton, Nat.mul_assoc, hfast]
  · cases hbytes

theorem exact_of_rows {t : GgufTensor} {fallback : GgufTensor → Except Error (Flat Value)}
    (h : t.WellFormed) {n w : Nat} (hblock : blockShape.lookup t.ggmlType = some (n, w))
    (hfinite : ∀ block i, FiniteScale t.ggmlType block → blockValue t.ggmlType block i ≠ none)
    (hrows : ∀ B, t.packed.flatten.numel = B * w →
      Rows (dequantize (.flat t.packed.flatten) t.ggmlType) B n
        fun b => blockValue t.ggmlType fun j => t.packed.flatten.get (b * w + j)) :
    Exact t (dequantAny fallback t) := by
  obtain ⟨B, hnumel, hprod⟩ := h.blocks hblock
  obtain ⟨get, hrun, hget⟩ := hrows B hnumel
  have hpair : t.block = (n, w) := by
    unfold GgufTensor.block
    rw [hblock]
    rfl
  have hbytes : t.blockBytes = fun b j => t.packed.flatten.get (b * w + j) := by
    funext b j
    unfold GgufTensor.blockBytes
    rw [hpair]
  refine ⟨Mat.flatten ⟨B, n, get⟩, ?_, hprod.symm, ?_⟩
  · unfold dequantAny
    rw [hrun]
    exact if_pos hprod.symm
  · rw [hpair, hbytes]
    intro b i hi hlt
    have hb : b < B := by
      have hlt' : b * n < B * n := Nat.lt_of_le_of_lt (Nat.le_add_right _ _) hlt
      exact Nat.lt_of_mul_lt_mul_right hlt'
    have hvalue := (Mat.flatten_get ⟨B, n, get⟩ (b := b) hi).trans (hget b i hb hi)
    refine ⟨hvalue, fun hscale => ?_⟩
    show (Mat.flatten ⟨B, n, get⟩).get (b * n + i) ≠ none
    rw [hvalue]
    exact hfinite _ i hscale

theorem times_some_ne_none {x : Value} (hx : x ≠ none) (y : ℚ) : times x (some y) ≠ none := by
  cases x with
  | none => exact absurd rfl hx
  | some x => exact Option.some_ne_none _

theorem some_times_ne_none (x : ℚ) {y : Value} (hy : y ≠ none) : times (some x) y ≠ none := by
  cases y with
  | none => exact absurd rfl hy
  | some y => exact Option.some_ne_none _

/-- Rows are asked for. -/
theorem dequantize_flat_raises (v : Flat Nat) {ty : Nat}
    (h : ty = ggmlMxfp4 ∨ ty = ggmlQ4_0Rocmfp4 ∨ ty = ggmlQ4_0Rocmfp4Fast ∨ ty = ggmlQ4_0Rocmi4) :
    dequantize (.flat v) ty = .error .tooManyIndices := by
  rcases h with rfl | rfl | rfl | rfl <;> rfl

/-- Flat bytes come out exactly for the two types whose routine regroups them into blocks; the others
raise. -/
theorem dequantAny_exact_iff (fallback : GgufTensor → Except Error (Flat Value)) (t : GgufTensor)
    (htype : t.ggmlType ∈ dequantTable.map Prod.fst) (h : t.WellFormed) :
    Exact t (dequantAny fallback t) ↔ t.ggmlType = ggmlQ4_0 ∨ t.ggmlType = ggmlQ6_K := by
  constructor
  · rintro ⟨v, hrun, -⟩
    have hcases : t.ggmlType = ggmlQ4_0 ∨ t.ggmlType = ggmlQ6_K ∨ t.ggmlType = ggmlMxfp4 ∨
        t.ggmlType = ggmlQ4_0Rocmfp4 ∨ t.ggmlType = ggmlQ4_0Rocmfp4Fast ∨
          t.ggmlType = ggmlQ4_0Rocmi4 := by
      simpa only [dequantTable, List.map_cons, List.map_nil, List.mem_cons, List.not_mem_nil,
        or_false] using htype
    rcases hcases with hty | hty | hty
    · exact .inl hty
    · exact .inr hty
    · unfold dequantAny at hrun
      rw [dequantize_flat_raises _ hty] at hrun
      cases hrun
  · rintro (hty | hty)
    · apply exact_of_rows h (n := 32) (w := 18)
      · rw [hty]
        rfl
      · intro block i hscale
        rw [hty]
        exact some_times_ne_none _ (hscale.1 hty)
      · intro B hnumel
        rw [hty]
        exact dequantQ4_0_rows hnumel
    · apply exact_of_rows h (n := 256) (w := 210)
      · rw [hty]
        rfl
      · intro block i hscale
        rw [hty]
        exact times_some_ne_none (times_some_ne_none (hscale.2 hty) _) _
      · intro B hnumel
        rw [hty]
        exact dequantQ6_K_rows hnumel fun j => h.bytes _ _

/-- One row of two blocks of zero bytes. -/
def zeroTensor (ggmlType block typeSize : Nat) : GgufTensor where
  name := "zero"
  shape := [1, 2 * block]
  ggmlType := ggmlType
  rows := 1
  rowBytes := 2 * typeSize
  raw := fun _ _ => 0

theorem dequantAny_exact_zero :
    Exact (zeroTensor ggmlQ6_K 256 210)
      (dequantAny (fun _ => .error .keyError) (zeroTensor ggmlQ6_K 256 210)) :=
  (dequantAny_exact_iff (fun _ => .error .keyError) (zeroTensor ggmlQ6_K 256 210) (by decide)
    ⟨⟨[1], 512, rfl, rfl, rfl⟩, fun _ _ => Nat.zero_lt_succ 255⟩).2 (.inr rfl)

/-- Two blocks of zeros raise. -/
theorem dequantAny_mxfp4_raises :
    (zeroTensor ggmlMxfp4 32 17).WellFormed ∧
      dequantAny (fun _ => .error .keyError) (zeroTensor ggmlMxfp4 32 17) = .error .tooManyIndices ∧
        ¬ Exact (zeroTensor ggmlMxfp4 32 17)
          (dequantAny (fun _ => .error .keyError) (zeroTensor ggmlMxfp4 32 17)) := by
  refine ⟨⟨⟨[1], 64, rfl, rfl, rfl⟩, fun _ _ => Nat.zero_lt_succ 255⟩, rfl, ?_⟩
  rintro ⟨v, hrun, -⟩
  cases hrun

end Gguf

end FreeToken
