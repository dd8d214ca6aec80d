import FreeToken.Kernel.ChunkDeltaRule

/-!
# Decoding with the gated delta rule

The decode kernel takes each sequence's state token by token through the recurrence, with gates that it
computes itself.
-/

set_option autoImplicit false
set_option linter.unusedSectionVars false

namespace FreeToken

open Blocks (divCeil)
open GridMemory (storeAll storeAll_apply storeAll_of_ne Launch)
open PagedAttention (load)
open OffloadMoeCache.HybridKernel (nextPowerOf2 le_nextPowerOf2)
open DeltaRule (Entry dot run)

namespace GatedDelta

variable {R : Type} [Field R] [LinearOrder R]

/-- A layer: its heads and the parameters of its gates. -/
structure GatedLayer (R : Type) where
  numHeads : Nat
  numKHeads : Nat
  keyDim : Nat
  valueDim : Nat
  aLog : Nat → R
  dtBias : Nat → R

/-- What the projections and the convolution give for a token. -/
structure LayerToken (R : Type) where
  q : Nat → Nat → R
  k : Nat → Nat → R
  v : Nat → Nat → R
  a : Nat → R
  b : Nat → R

/-- The launch of `fused_sigmoid_gating_delta_rule_update`. -/
structure DecodeArgs (R : Type) extends Packed where
  layer : GatedLayer R
  tokens : Nat → LayerToken R
  softplusBeta : R
  softplusThreshold : R
  scale : R
  indices : Nat → Int

namespace DecodeArgs

/-- What the kernel writes: the outputs and, in place, the states. -/
inductive Addr
  | o (tok head v : Nat)
  | state (slot head v d : Nat)
  deriving DecidableEq

variable (a : DecodeArgs R) (N : Arith R)

/-- `i_hv // (HV // H)` -/
def kHead (h : Nat) : Nat := h / (a.layer.numHeads / a.layer.numKHeads)

def blockK : Nat := nextPowerOf2 a.layer.keyDim

def blockV : Nat := min (nextPowerOf2 a.layer.valueDim) 32

/-- `b_q` or `b_k`, normalized. -/
def unit (x : Nat → R) (d : Nat) : R :=
  load (decide (d < a.layer.keyDim)) (x d) /
    N.sqrt ((∑ d ∈ Finset.range a.blockK,
      load (decide (d < a.layer.keyDim)) (x d) * load (decide (d < a.layer.keyDim)) (x d)) + eps)

/-- `softplus_x` -/
def softplusX (x : R) : R :=
  let betaX := a.softplusBeta * x
  if betaX ≤ a.softplusThreshold then 1 / a.softplusBeta * N.log (1 + N.exp betaX) else x

/-- `b_g` -/
def gateAt (tok h : Nat) : R :=
  -N.exp (a.layer.aLog h) * a.softplusX N ((a.tokens tok).a h + a.layer.dtBias h)

/-- `b_beta` -/
def betaAt (tok h : Nat) : R := 1 / (1 + N.exp (-(a.tokens tok).b h))

section Row

variable (n h v : Nat)

/-- `b_h` for a row of the state; a sequence without a slot starts with zeros. -/
def loadState (mem : Addr → R) (d : Nat) : R :=
  if 0 ≤ a.indices n then
    load (decide (d < a.layer.keyDim) && decide (v < a.layer.valueDim))
      (mem (.state (a.indices n).toNat h v d))
  else 0

/-- One token. -/
def tokenStep (state : Nat → R) (i : Nat) : Nat → R :=
  let tok := a.bos n + i
  let key := a.unit N ((a.tokens tok).k (a.kHead h))
  let decayed := fun d => state d * N.exp (a.gateAt N tok h)
  let value := (load (decide (v < a.layer.valueDim)) ((a.tokens tok).v h v) -
    ∑ d ∈ Finset.range a.blockK, decayed d * key d) * a.betaAt N tok h
  fun d => decayed d + key d * value

/-- The state before a token. -/
def stateAt (mem : Addr → R) (i : Nat) : Nat → R :=
  (List.range i).foldl (a.tokenStep N n h v) (a.loadState n h v mem)

/-- `b_o` -/
def outAt (mem : Addr → R) (i : Nat) : R :=
  ∑ d ∈ Finset.range a.blockK, a.stateAt N n h v mem (i + 1) d *
    (a.unit N ((a.tokens (a.bos n + i)).q (a.kHead h)) d * a.scale)

/-- The row `v` of a program. -/
def row (mem : Addr → R) : List (Addr × R) :=
  ((List.range (a.len n)).map fun i => (Addr.o (a.bos n + i) h v, a.outAt N n h v mem i)) ++
    if 0 ≤ a.indices n then
      ((List.range a.blockK).filter fun d => decide (d < a.layer.keyDim)).map fun d =>
        (Addr.state (a.indices n).toNat h v d, a.stateAt N n h v mem (a.len n) d)
    else []

end Row

/-- A program: a tile of values, a sequence and a head. -/
def program (prog : Nat × Nat × Nat) (mem : Addr → R) : List (Addr × R) :=
  ((List.range a.blockV).filter fun r => decide (prog.1 * a.blockV + r < a.layer.valueDim)).flatMap fun r =>
    a.row N prog.2.1 prog.2.2 (prog.1 * a.blockV + r) mem

/-- `fused_sigmoid_gating_delta_rule_update_kernel` -/
def launch : Launch (Nat × Nat × Nat) Addr R where
  programs := (List.range (divCeil a.layer.valueDim a.blockV)).flatMap fun iV =>
    (List.range a.numSeqs).flatMap fun n => (List.range a.layer.numHeads).map fun h => (iV, n, h)
  stores := a.program N

/-- What the caller promises: no empty sequence, and no slot for two of them. -/
structure Sound : Prop extends a.toPacked.Sound where
  slots : ∀ m < a.numSeqs, ∀ n < a.numSeqs, 0 ≤ a.indices m → a.indices m = a.indices n → m = n

/-- A token, for one head and one row of the state. -/
def entry (n h v i : Nat) : Entry R Nat where
  key := a.unit N ((a.tokens (a.bos n + i)).k (a.kHead h))
  value := (a.tokens (a.bos n + i)).v h v
  decay := N.exp (a.gateAt N (a.bos n + i) h)
  beta := a.betaAt N (a.bos n + i) h

variable {a} {N} {n h v : Nat} {mem : Addr → R}

/-! ## A row of the state -/

theorem unit_of_le (x : Nat → R) {d : Nat} (hd : a.layer.keyDim ≤ d) : a.unit N x d = 0 := by
  unfold unit load
  rw [decide_eq_false (Nat.not_lt.2 hd)]
  exact zero_div _

/-- The lanes behind the key's dimension add nothing. -/
theorem sum_lanes {f : Nat → R} (hf : ∀ d, a.layer.keyDim ≤ d → f d = 0) :
    ∑ d ∈ Finset.range a.blockK, f d = ∑ d ∈ Finset.range a.layer.keyDim, f d :=
  Finset.eventually_constant_sum hf (le_nextPowerOf2 a.layer.keyDim)

/-- The kernel normalizes as the reference does. -/
theorem unit_eq (x : Nat → R) {d : Nat} (hd : d < a.layer.keyDim) :
    a.unit N x d = referenceNorm N a.layer.keyDim x d := by
  have hvar : ∑ d ∈ Finset.range a.blockK,
      load (decide (d < a.layer.keyDim)) (x d) * load (decide (d < a.layer.keyDim)) (x d) =
        ∑ d ∈ Finset.range a.layer.keyDim, x d ^ 2 := by
    rw [sum_lanes (a := a)]
    · apply Finset.sum_congr rfl
      intro d hd
      rw [decide_eq_true (Finset.mem_range.1 hd)]
      exact (pow_two _).symm
    · intro d hd
      rw [decide_eq_false (Nat.not_lt.2 hd)]
      exact zero_mul _
  unfold unit referenceNorm
  rw [hvar, decide_eq_true hd]
  exact div_eq_mul_one_div _ _

theorem tokenStep_eq (hv : v < a.layer.valueDim) (state : Nat → R) (i : Nat) :
    a.tokenStep N n h v state i =
      DeltaRule.step (Finset.range a.layer.keyDim) state (a.entry N n h v i) := by
  unfold tokenStep
  dsimp only
  rw [sum_lanes fun d hd => by rw [unit_of_le _ hd, mul_zero], decide_eq_true hv]
  rfl

theorem stateAt_eq (hv : v < a.layer.valueDim) (i : Nat) :
    a.stateAt N n h v mem i = run (Finset.range a.layer.keyDim) (a.loadState n h v mem)
      (a.entry N n h v) i := by
  induction i with
  | zero => rfl
  | succ i ih =>
      have hstep : a.stateAt N n h v mem (i + 1) =
          a.tokenStep N n h v (a.stateAt N n h v mem i) i := by
        unfold stateAt
        rw [List.range_succ, List.foldl_append]
        rfl
      rw [hstep, tokenStep_eq hv, ih]
      rfl

theorem outAt_eq (hv : v < a.layer.valueDim) (i : Nat) :
    a.outAt N n h v mem i = dot (Finset.range a.layer.keyDim)
      (run (Finset.range a.layer.keyDim) (a.loadState n h v mem) (a.entry N n h v) (i + 1))
      (fun d => a.unit N ((a.tokens (a.bos n + i)).q (a.kHead h)) d * a.scale) := by
  unfold outAt
  rw [stateAt_eq hv, sum_lanes fun d hd => by rw [unit_of_le _ hd, zero_mul, mul_zero]]
  rfl

/-! ## The launch -/

theorem mem_row {s : Addr × R} : s ∈ a.row N n h v mem ↔
    (∃ i < a.len n, s = (.o (a.bos n + i) h v, a.outAt N n h v mem i)) ∨
      0 ≤ a.indices n ∧ ∃ d < a.layer.keyDim,
        s = (.state (a.indices n).toNat h v d, a.stateAt N n h v mem (a.len n) d) := by
  have hlane : ∀ d, d < a.blockK ∧ d < a.layer.keyDim ↔ d < a.layer.keyDim := fun d =>
    and_iff_right_of_imp fun hd => hd.trans_le (le_nextPowerOf2 a.layer.keyDim)
  unfold row
  split
  · next hslot =>
      simp only [List.mem_append, List.mem_map, List.mem_filter, List.mem_range, decide_eq_true_eq, hlane,
        hslot, true_and, eq_comm (a := s)]
  · next hslot =>
      simp only [List.append_nil, List.mem_map, List.mem_range, hslot, false_and, or_false,
        eq_comm (a := s)]

theorem blockV_pos : 0 < a.blockV := by
  have hpos : 0 < nextPowerOf2 a.layer.valueDim := by
    unfold nextPowerOf2
    exact Nat.pos_of_ne_zero (by simp)
  unfold blockV
  omega

theorem mem_allStores {s : Addr × R} : s ∈ (a.launch N).allStores mem ↔
    ∃ n < a.numSeqs, ∃ h < a.layer.numHeads, ∃ v < a.layer.valueDim, s ∈ a.row N n h v mem :=
  Packed.mem_tileRows blockV_pos fun n h v => a.row N n h v mem

/-- The states that a program reads. -/
def ReadsState (a : DecodeArgs R) (prog : Nat × Nat × Nat) : Addr → Prop
  | .state slot h v _ => 0 ≤ a.indices prog.2.1 ∧ slot = (a.indices prog.2.1).toNat ∧ h = prog.2.2 ∧
      v / a.blockV = prog.1
  | _ => False

theorem row_congr {mem mem' : Addr → R} (hsame : 0 ≤ a.indices n → ∀ d,
      mem (.state (a.indices n).toNat h v d) = mem' (.state (a.indices n).toNat h v d)) :
    a.row N n h v mem = a.row N n h v mem' := by
  have hload : a.loadState n h v mem = a.loadState n h v mem' := by
    ext d
    unfold loadState
    split
    · next hslot => rw [hsame hslot]
    · rfl
  have hstate : ∀ i, a.stateAt N n h v mem i = a.stateAt N n h v mem' i := by
    intro i
    unfold stateAt
    rw [hload]
  have hout : ∀ i, a.outAt N n h v mem i = a.outAt N n h v mem' i := by
    intro i
    unfold outAt
    rw [hstate]
  unfold row
  simp only [hstate, hout]

/-- No program writes a state that another one reads. -/
theorem Sound.apart (hs : a.Sound) : (a.launch N).Apart a.ReadsState where
  agree p mem mem' hsame := by
    show a.program N p mem = a.program N p mem'
    unfold program
    apply List.flatMap_congr
    intro r hr
    obtain ⟨hlane, _⟩ := List.mem_filter.1 hr
    apply row_congr
    intro hslot d
    apply hsame
    exact ⟨hslot, rfl, rfl, Packed.row_div (List.mem_range.1 hlane)⟩
  apart p hp p' hp' hne mem s hmem hreads := by
    have hn' := (Packed.mem_tilePrograms.1 hp').2.1
    have hn := (Packed.mem_tilePrograms.1 hp).2.1
    obtain ⟨r, hr, hrow⟩ := List.mem_flatMap.1 hmem
    obtain ⟨hlane, _⟩ := List.mem_filter.1 hr
    rcases mem_row.1 hrow with ⟨i, _, rfl⟩ | ⟨hslot', d, _, rfl⟩
    · exact hreads
    · obtain ⟨hslot, hsame, hhead, hrows⟩ := hreads
      have hseq := hs.slots _ hn' _ hn hslot' (by omega)
      rw [Packed.row_div (List.mem_range.1 hlane)] at hrows
      exact hne (Prod.ext hrows (Prod.ext hseq hhead))

section Final

variable (r : (a.launch N).Run mem)

include r

theorem Sound.final_o (hs : a.Sound) (hn : n < a.numSeqs) (hh : h < a.layer.numHeads)
    (hv : v < a.layer.valueDim) {i : Nat} (hi : i < a.len n) :
    r.final (.o (a.bos n + i) h v) = a.outAt N n h v mem i := by
  apply r.final_apply hs.apart
  · exact mem_allStores.2 ⟨n, hn, h, hh, v, hv, mem_row.2 (Or.inl ⟨i, hi, rfl⟩)⟩
  · intro s hmem haddr
    obtain ⟨n', hn', h', _, v', _, hrow⟩ := mem_allStores.1 hmem
    rcases mem_row.1 hrow with ⟨i', hi', rfl⟩ | ⟨_, d, _, rfl⟩
    · injection haddr with hplace hhead hrow
      obtain ⟨rfl, rfl⟩ := hs.place_inj hn' hn hi' hi hplace
      rw [hhead, hrow]
    · cases haddr

theorem Sound.final_state (hs : a.Sound) (hn : n < a.numSeqs) (hh : h < a.layer.numHeads)
    (hv : v < a.layer.valueDim) {d : Nat} (hd : d < a.layer.keyDim) (hslot : 0 ≤ a.indices n) :
    r.final (.state (a.indices n).toNat h v d) = a.stateAt N n h v mem (a.len n) d := by
  apply r.final_apply hs.apart
  · exact mem_allStores.2 ⟨n, hn, h, hh, v, hv, mem_row.2 (Or.inr ⟨hslot, d, hd, rfl⟩)⟩
  · intro s hmem haddr
    obtain ⟨n', hn', h', _, v', _, hrow⟩ := mem_allStores.1 hmem
    rcases mem_row.1 hrow with ⟨i', _, rfl⟩ | ⟨hslot', d', _, rfl⟩
    · cases haddr
    · injection haddr with hsame hhead hrow hcol
      have hseq := hs.slots n' hn' n hn hslot' (by omega)
      rw [hseq, hhead, hrow, hcol]

/-- A slot of no sequence keeps its state. -/
theorem Sound.final_other (hs : a.Sound) {slot : Nat} (hslot : ∀ n < a.numSeqs, a.indices n ≠ slot)
    (h v d : Nat) : r.final (.state slot h v d) = mem (.state slot h v d) := by
  apply r.final_of_ne hs.apart
  intro s hmem haddr
  obtain ⟨n', hn', h', _, v', _, hrow⟩ := mem_allStores.1 hmem
  rcases mem_row.1 hrow with ⟨i, _, rfl⟩ | ⟨hslot', d', _, rfl⟩
  · cases haddr
  · injection haddr with hsame
    exact hslot n' hn' (by omega)

end Final

/-- A pool, in memory that holds zeros elsewhere. -/
def poolMemory (pool : Nat → Nat → Nat → Nat → R) : Addr → R
  | .state slot h v d => pool slot h v d
  | .o _ _ _ => 0

end DecodeArgs

end GatedDelta

end FreeToken
