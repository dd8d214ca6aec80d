import Mathlib.Algebra.Order.BigOperators.Group.List
import Mathlib.Algebra.Order.Floor.Ring
import Mathlib.Data.Rat.Floor
import Mathlib.Tactic.Linarith
import FreeToken.Lib.Bisect

/-!
# Sizing the tiers of a paged cache

`kvcache/dsv4_cost_model.py`: every tier has a size of its own, all anchored at a number of pages.  The
solver looks for the largest anchor whose bytes fit.
-/

set_option autoImplicit false

namespace FreeToken

namespace Dsv4CostModel

/-! ## Tiers -/

/-- A layer keeps only its window, or compresses by 4 or by 128. -/
inductive CompressRatio where
  | windowOnly
  | r4
  | r128

structure ModelArgs where
  headDim : Nat
  indexHeadDim : Nat
  nLayers : Nat
  compressRatios : List CompressRatio

def bf16Bytes : Int := 2
def fp32Bytes : Int := 4
def int64Bytes : Int := 8

namespace ModelArgs

variable (args : ModelArgs)

/-- `tuple(args.compress_ratios)[: args.n_layers]` -/
def ratios : List CompressRatio := args.compressRatios.take args.nLayers

def kvBytes : Int := args.headDim * bf16Bytes

def indexBytes : Int := args.indexHeadDim * bf16Bytes

/-- `_state_bytes`; the ratio 4 overlaps. -/
def stateBytes (overlap : Int) : Int := 2 * (1 + overlap) * args.headDim * fp32Bytes

def idxStateBytes : Int := 2 * 2 * args.indexHeadDim * fp32Bytes

end ModelArgs

/-- `round`: to the nearest integer, halves to the even one. -/
def pyRound (x : Rat) : Int :=
  if x - ⌊x⌋ < 1 / 2 then ⌊x⌋
  else if 1 / 2 < x - ⌊x⌋ then ⌊x⌋ + 1
  else if ⌊x⌋ % 2 = 0 then ⌊x⌋ else ⌊x⌋ + 1

/-- `dsv4_cache_per_page` -/
def dsv4CachePerPage (args : ModelArgs) (swaRatio : Rat) (P : Int) : Int :=
  (args.ratios.map fun ratio =>
    pyRound (swaRatio * P) * args.kvBytes +
      match ratio with
      | .windowOnly => 0
      | .r4 => P / 4 * args.kvBytes + P / 4 * args.indexBytes +
          pyRound (swaRatio * 8) * args.idxStateBytes + pyRound (swaRatio * 8) * args.stateBytes 1
      | .r128 => P / 128 * args.kvBytes + pyRound (swaRatio * 128) * args.stateBytes 0).sum

structure DSV4PoolSizes where
  P : Int
  swaRatio : Rat
  fullToken : Int
  nWinSlots : Int
  nWinPages : Int
  cmpBlocks : List (Option Int)
  idxBlocks : List (Option Int)
  stateSlots : List (Option Int)
  ringSizes : List (Option Int)
  idxStateSlots : List (Option Int)

/-- `dsv4_pool_sizes` -/
def dsv4PoolSizes (numPages : Int) (args : ModelArgs) (swaRatio : Rat) (P : Int)
    (nWinPages : Option Int) : DSV4PoolSizes :=
  let fullToken := numPages * P
  let nWinPages := match nWinPages with
    | none => (pyRound (swaRatio * fullToken) + P - 1) / P
    | some pages => pages
  let nWinPages := min nWinPages numPages
  { P := P
    swaRatio := swaRatio
    fullToken := fullToken
    nWinSlots := nWinPages * P
    nWinPages := nWinPages
    cmpBlocks := args.ratios.map fun
      | .windowOnly => none
      | .r4 => some (fullToken / 4)
      | .r128 => some (fullToken / 128)
    idxBlocks := args.ratios.map fun
      | .windowOnly => none
      | .r4 => some (fullToken / 4)
      | .r128 => none
    stateSlots := args.ratios.map fun
      | .windowOnly => none
      | .r4 => some (nWinPages * 8)
      | .r128 => some (nWinPages * 128)
    ringSizes := args.ratios.map fun
      | .windowOnly => none
      | .r4 => some 8
      | .r128 => some 128
    idxStateSlots := args.ratios.map fun
      | .windowOnly => none
      | .r4 => some (nWinPages * 8)
      | .r128 => none }

/-- `counts[L]` of a layer that has the tier -/
def tierCount (counts : List (Option Int)) (L : Nat) : Int := (counts.getD L none).getD 0

/-- `dsv4_pool_bytes` -/
def dsv4PoolBytes (sizes : DSV4PoolSizes) (args : ModelArgs) (nScratch : Int) : Int :=
  args.ratios.length * sizes.nWinSlots * args.kvBytes + (sizes.fullToken + 1) * int64Bytes +
    (args.ratios.mapIdx fun L ratio =>
      match ratio with
      | .windowOnly => 0
      | .r4 => (tierCount sizes.cmpBlocks L + nScratch) * args.kvBytes +
          (tierCount sizes.stateSlots L + 1) * args.stateBytes 1 +
          (tierCount sizes.idxBlocks L + nScratch) * args.indexBytes +
          (tierCount sizes.idxStateSlots L + 1) * args.idxStateBytes
      | .r128 => (tierCount sizes.cmpBlocks L + nScratch) * args.kvBytes +
          (tierCount sizes.stateSlots L + 1) * args.stateBytes 0).sum

/-! ## The solver -/

/-- `_sizes` of the solver -/
def solverSizes (args : ModelArgs) (swaRatio : Rat) (floorWinPages P num : Int) : DSV4PoolSizes :=
  dsv4PoolSizes num args swaRatio P
    (some (max floorWinPages ((pyRound (swaRatio * num * P) + P - 1) / P)))

def minimalPoolText (availableBytes lo floorWinPages : Int) : String :=
  s!"DSV4 KV budget {availableBytes} bytes cannot fit the minimal pool ({lo} pages incl. the window working-set floor {floorWinPages}); raise memory_ratio or lower max_running_req/max_seq_len"

/-- `dsv4_solve_num_pages`: a `ValueError` with its text or the sizes, unless a loop takes more than so
many turns. -/
def dsv4SolveNumPages (turns : Nat) (availableBytes : Int) (args : ModelArgs) (swaRatio : Rat)
    (floorWinPages P nScratch : Int) : Option (Except String DSV4PoolSizes) :=
  let sizes := solverSizes args swaRatio floorWinPages P
  let fits := fun num => decide (dsv4PoolBytes (sizes num) args nScratch ≤ availableBytes)
  let lo := max floorWinPages 2
  if availableBytes < dsv4PoolBytes (sizes lo) args nScratch then
    some (.error (minimalPoolText availableBytes lo floorWinPages))
  else do
    let hi := max lo (availableBytes / max 1 (dsv4CachePerPage args 0 P))
    let hi ← Bisect.double fits turns hi
    let lo ← Bisect.bisect fits turns lo hi
    pure (.ok (sizes lo))

/-! ## Rounding -/

theorem floor_le_pyRound (x : Rat) : ⌊x⌋ ≤ pyRound x := by
  unfold pyRound
  split_ifs <;> omega

theorem pyRound_le_floor_add_one (x : Rat) : pyRound x ≤ ⌊x⌋ + 1 := by
  unfold pyRound
  split_ifs <;> omega

theorem pyRound_mono {x y : Rat} (h : x ≤ y) : pyRound x ≤ pyRound y := by
  rcases Int.lt_or_eq_of_le (Int.floor_mono h) with hlt | heq
  · have hx := pyRound_le_floor_add_one x
    have hy := floor_le_pyRound y
    omega
  · -- the same floor: only the parts behind it are compared
    have hfrac : x - ⌊x⌋ ≤ y - ⌊y⌋ := by
      rw [heq]
      linarith
    unfold pyRound
    rw [heq] at hfrac ⊢
    split_ifs <;> first | omega | (exfalso; linarith)

/-! ## The cost of an anchor -/

section

variable {availableBytes : Int} {args : ModelArgs} {swaRatio : Rat} {floorWinPages P nScratch : Int}

/-- The window pages of an anchor. -/
def winPages (swaRatio : Rat) (floorWinPages P num : Int) : Int :=
  min (max floorWinPages ((pyRound (swaRatio * num * P) + P - 1) / P)) num

/-- What one layer costs beside its window. -/
def layerBytes (args : ModelArgs) (nScratch fullToken win : Int) : CompressRatio → Int
  | .windowOnly => 0
  | .r4 => (fullToken / 4 + nScratch) * args.kvBytes + (win * 8 + 1) * args.stateBytes 1 +
      (fullToken / 4 + nScratch) * args.indexBytes + (win * 8 + 1) * args.idxStateBytes
  | .r128 => (fullToken / 128 + nScratch) * args.kvBytes + (win * 128 + 1) * args.stateBytes 0

/-- The bytes of the pool of an anchor. -/
def anchorBytes (args : ModelArgs) (swaRatio : Rat) (floorWinPages P nScratch num : Int) : Int :=
  dsv4PoolBytes (solverSizes args swaRatio floorWinPages P num) args nScratch

theorem tierCount_map {ratios : List CompressRatio} (f : CompressRatio → Option Int) {L : Nat}
    (h : L < ratios.length) : tierCount (ratios.map f) L = (f ratios[L]).getD 0 := by
  unfold tierCount
  rw [List.getD_eq_getElem?_getD, List.getElem?_map, List.getElem?_eq_getElem h]
  rfl

theorem anchorBytes_eq (num : Int) :
    anchorBytes args swaRatio floorWinPages P nScratch num =
      args.ratios.length * (winPages swaRatio floorWinPages P num * P) * args.kvBytes +
        (num * P + 1) * int64Bytes +
        (args.ratios.map (layerBytes args nScratch (num * P)
          (winPages swaRatio floorWinPages P num))).sum := by
  unfold anchorBytes dsv4PoolBytes
  congr 2
  apply List.ext_getElem
  · rw [List.length_mapIdx, List.length_map]
  · intro L hL _
    rw [List.length_mapIdx] at hL
    rw [List.getElem_mapIdx, List.getElem_map]
    unfold solverSizes dsv4PoolSizes
    dsimp only
    rw [tierCount_map _ hL, tierCount_map _ hL, tierCount_map _ hL, tierCount_map _ hL]
    cases args.ratios[L] <;> rfl

theorem winPages_mono (hr : 0 ≤ swaRatio) (hP : 0 < P) {num num' : Int} (h : num ≤ num') :
    winPages swaRatio floorWinPages P num ≤ winPages swaRatio floorWinPages P num' := by
  have hprod : swaRatio * num * P ≤ swaRatio * num' * P := by
    have hnum : (num : Rat) ≤ num' := Int.cast_le.mpr h
    have hp : (0 : Rat) ≤ P := Int.cast_nonneg (Int.le_of_lt hP)
    exact mul_le_mul_of_nonneg_right (mul_le_mul_of_nonneg_left hnum hr) hp
  have hround := pyRound_mono hprod
  have hpages : (pyRound (swaRatio * num * P) + P - 1) / P ≤
      (pyRound (swaRatio * num' * P) + P - 1) / P := Int.ediv_le_ediv hP (by omega)
  unfold winPages
  omega

theorem kvBytes_nonneg : 0 ≤ args.kvBytes := by
  unfold ModelArgs.kvBytes bf16Bytes
  omega

theorem indexBytes_nonneg : 0 ≤ args.indexBytes := by
  unfold ModelArgs.indexBytes bf16Bytes
  omega

theorem idxStateBytes_nonneg : 0 ≤ args.idxStateBytes := by
  unfold ModelArgs.idxStateBytes fp32Bytes
  omega

theorem stateBytes_nonneg {overlap : Int} (h : 0 ≤ overlap) : 0 ≤ args.stateBytes overlap := by
  unfold ModelArgs.stateBytes fp32Bytes
  positivity

theorem layerBytes_mono {fullToken fullToken' win win' : Int} (hfull : fullToken ≤ fullToken')
    (hwin : win ≤ win') (ratio : CompressRatio) :
    layerBytes args nScratch fullToken win ratio ≤ layerBytes args nScratch fullToken' win' ratio := by
  have hkv := @kvBytes_nonneg args
  have hidx := @indexBytes_nonneg args
  cases ratio with
  | windowOnly => exact Int.le_refl 0
  | r4 =>
      have hdiv : fullToken / 4 ≤ fullToken' / 4 := Int.ediv_le_ediv (by decide) hfull
      have h₁ := Int.mul_le_mul_of_nonneg_right (Int.add_le_add_right hdiv nScratch) hkv
      have h₂ := Int.mul_le_mul_of_nonneg_right (show win * 8 + 1 ≤ win' * 8 + 1 by omega)
        (@stateBytes_nonneg args 1 (by decide))
      have h₃ := Int.mul_le_mul_of_nonneg_right (Int.add_le_add_right hdiv nScratch) hidx
      have h₄ := Int.mul_le_mul_of_nonneg_right (show win * 8 + 1 ≤ win' * 8 + 1 by omega)
        (@idxStateBytes_nonneg args)
      unfold layerBytes
      dsimp only
      omega
  | r128 =>
      have hdiv : fullToken / 128 ≤ fullToken' / 128 := Int.ediv_le_ediv (by decide) hfull
      have h₁ := Int.mul_le_mul_of_nonneg_right (Int.add_le_add_right hdiv nScratch) hkv
      have h₂ := Int.mul_le_mul_of_nonneg_right (show win * 128 + 1 ≤ win' * 128 + 1 by omega)
        (@stateBytes_nonneg args 0 (by decide))
      unfold layerBytes
      dsimp only
      omega

/-- A further page costs at least one byte: no tier shrinks and the mapping grows. -/
theorem anchorBytes_grows (hr : 0 ≤ swaRatio) (hP : 0 < P) {num num' : Int} (h : num ≤ num') :
    anchorBytes args swaRatio floorWinPages P nScratch num + (num' - num) ≤
      anchorBytes args swaRatio floorWinPages P nScratch num' := by
  have hwin := @winPages_mono swaRatio floorWinPages P hr hP num num' h
  have hfull := Int.mul_le_mul_of_nonneg_right h (Int.le_of_lt hP)
  have hmap : (num' - num) * 1 ≤ (num' - num) * P :=
    Int.mul_le_mul_of_nonneg_left (by omega) (by omega)
  rw [Int.mul_one, Int.sub_mul] at hmap
  have hwindow : (args.ratios.length : Int) * (winPages swaRatio floorWinPages P num * P) *
      args.kvBytes ≤ args.ratios.length * (winPages swaRatio floorWinPages P num' * P) *
      args.kvBytes := by
    apply Int.mul_le_mul_of_nonneg_right _ kvBytes_nonneg
    apply Int.mul_le_mul_of_nonneg_left _ (Int.natCast_nonneg _)
    exact Int.mul_le_mul_of_nonneg_right hwin (Int.le_of_lt hP)
  have hlayers := List.sum_le_sum (l := args.ratios) fun ratio _ =>
    @layerBytes_mono args nScratch _ _ _ _ hfull hwin ratio
  rw [anchorBytes_eq, anchorBytes_eq]
  unfold int64Bytes
  omega

/-! ## The solver is exact -/

/-- What the solver is for. -/
structure Exact (availableBytes : Int) (args : ModelArgs) (swaRatio : Rat)
    (floorWinPages P nScratch : Int) (outcome : Except String DSV4PoolSizes) : Prop where
  raises : (∃ text, outcome = .error text) ↔
    availableBytes < anchorBytes args swaRatio floorWinPages P nScratch (max floorWinPages 2)
  largest : ∀ sizes, outcome = .ok sizes → ∃ num, max floorWinPages 2 ≤ num ∧
    sizes = solverSizes args swaRatio floorWinPages P num ∧
    dsv4PoolBytes sizes args nScratch ≤ availableBytes ∧
    (∀ m, max floorWinPages 2 ≤ m →
      anchorBytes args swaRatio floorWinPages P nScratch m ≤ availableBytes → m ≤ num) ∧
    floorWinPages ≤ sizes.nWinPages ∧ sizes.nWinPages ≤ num

/-- The test of both loops. -/
def fits (availableBytes : Int) (args : ModelArgs) (swaRatio : Rat) (floorWinPages P nScratch num : Int) :
    Bool :=
  decide (anchorBytes args swaRatio floorWinPages P nScratch num ≤ availableBytes)

theorem dsv4SolveNumPages_eq (turns : Nat) :
    dsv4SolveNumPages turns availableBytes args swaRatio floorWinPages P nScratch =
      if availableBytes < anchorBytes args swaRatio floorWinPages P nScratch (max floorWinPages 2) then
        some (.error (minimalPoolText availableBytes (max floorWinPages 2) floorWinPages))
      else
        (Bisect.double (fits availableBytes args swaRatio floorWinPages P nScratch) turns
          (max (max floorWinPages 2) (availableBytes / max 1 (dsv4CachePerPage args 0 P)))).bind
        fun hi => (Bisect.bisect (fits availableBytes args swaRatio floorWinPages P nScratch) turns
          (max floorWinPages 2) hi).bind
        fun lo => some (.ok (solverSizes args swaRatio floorWinPages P lo)) := rfl

/-- The cost of the smallest anchor bounds all that fit. -/
theorem le_of_fits (hr : 0 ≤ swaRatio) (hP : 0 < P) {num : Int} (hnum : max floorWinPages 2 ≤ num)
    (h : fits availableBytes args swaRatio floorWinPages P nScratch num = true) :
    num ≤ max floorWinPages 2 + (availableBytes -
      anchorBytes args swaRatio floorWinPages P nScratch (max floorWinPages 2)) := by
  have hcost := of_decide_eq_true h
  have := @anchorBytes_grows args swaRatio floorWinPages P nScratch hr hP _ _ hnum
  omega

theorem fits_false_of_lt (hr : 0 ≤ swaRatio) (hP : 0 < P) {num num' : Int} (hlt : num < num')
    (h : fits availableBytes args swaRatio floorWinPages P nScratch (num + 1) = false) :
    fits availableBytes args swaRatio floorWinPages P nScratch num' = false := by
  have hcost := of_decide_eq_false h
  have := @anchorBytes_grows args swaRatio floorWinPages P nScratch hr hP (num + 1) num' hlt
  apply decide_eq_false
  omega

theorem dsv4SolveNumPages_exact (availableBytes : Int) (args : ModelArgs) (swaRatio : Rat)
    (floorWinPages P nScratch : Int) (hr : 0 ≤ swaRatio) (hP : 0 < P) :
    ∃ outcome turns₀, (∀ turns, turns₀ ≤ turns →
        dsv4SolveNumPages turns availableBytes args swaRatio floorWinPages P nScratch =
          some outcome) ∧
      Exact availableBytes args swaRatio floorWinPages P nScratch outcome := by
  by_cases hfit : availableBytes <
      anchorBytes args swaRatio floorWinPages P nScratch (max floorWinPages 2)
  · refine ⟨.error (minimalPoolText availableBytes (max floorWinPages 2) floorWinPages), 0,
      fun turns _ => ?_, ⟨fun _ => hfit, fun _ => ⟨_, rfl⟩⟩, fun sizes h => ?_⟩
    · rw [dsv4SolveNumPages_eq, if_pos hfit]
    · cases h
  · obtain ⟨room, hroom⟩ : ∃ room : Nat, (room : Int) = availableBytes -
        anchorBytes args swaRatio floorWinPages P nScratch (max floorWinPages 2) :=
      ⟨_, Int.toNat_of_nonneg (by omega)⟩
    have hfails : ∀ num, max floorWinPages 2 + room + 1 ≤ num →
        fits availableBytes args swaRatio floorWinPages P nScratch num = false := by
      intro num hnum
      cases hok : fits availableBytes args swaRatio floorWinPages P nScratch num with
      | false => rfl
      | true =>
          have := le_of_fits hr hP (by omega) hok
          omega
    obtain ⟨hi, hdouble, hhi, hhiFails⟩ := Bisect.double_spec hfails (room + 2)
      (max (max floorWinPages 2) (availableBytes / max 1 (dsv4CachePerPage args 0 P)))
      (by omega) (by omega) (by omega)
    have hloFits : fits availableBytes args swaRatio floorWinPages P nScratch
        (max floorWinPages 2) = true := decide_eq_true (by omega)
    have hlohi : max floorWinPages 2 < hi := by
      apply Int.lt_iff_le_and_ne.mpr ⟨by omega, fun heq => ?_⟩
      rw [← heq, hloFits] at hhiFails
      exact absurd hhiFails (by decide)
    obtain ⟨num, hbisect, hnum, hok, hnext⟩ := Bisect.bisect_spec
      (hi - max floorWinPages 2).toNat _ hi hloFits hhiFails hlohi (by omega)
    refine ⟨.ok (solverSizes args swaRatio floorWinPages P num),
      max (room + 2) (hi - max floorWinPages 2).toNat, fun turns hturns => ?_,
      ⟨fun h => ?_, fun h => absurd h hfit⟩, fun sizes h => ?_⟩
    · rw [dsv4SolveNumPages_eq, if_neg hfit, Bisect.double_mono hdouble (by omega), Option.bind_some,
        Bisect.bisect_mono hbisect (by omega)]
      rfl
    · obtain ⟨text, htext⟩ := h
      cases htext
    · cases h
      refine ⟨num, hnum, rfl, of_decide_eq_true hok, fun m _ hmCost => ?_, ?_, ?_⟩
      · apply Int.le_of_not_gt
        intro hgt
        exact of_decide_eq_false (fits_false_of_lt hr hP hgt hnext) hmCost
      · show floorWinPages ≤ winPages swaRatio floorWinPages P num
        unfold winPages
        omega
      · show winPages swaRatio floorWinPages P num ≤ num
        exact Int.min_le_right _ _

/-- One layer of ratio 4, half of the history in the window. -/
theorem dsv4SolveNumPages_exact_small :
    ∃ outcome turns₀, (∀ turns, turns₀ ≤ turns →
        dsv4SolveNumPages turns 100000 ⟨2, 2, 1, [.r4]⟩ (1 / 2) 1 128 1 = some outcome) ∧
      Exact 100000 ⟨2, 2, 1, [.r4]⟩ (1 / 2) 1 128 1 outcome :=
  dsv4SolveNumPages_exact 100000 ⟨2, 2, 1, [.r4]⟩ (1 / 2) 1 128 1 (by norm_num) (by decide)

end

end Dsv4CostModel

end FreeToken
