import FreeToken.Kernel.ChunkStates
import FreeToken.Moe.HybridAgrees

/-!
# The chunked kernels compute the recurrence

The reference runs the gated delta rule token by token.  The five kernels leave the same outputs, the
same states in the pool, and before each chunk the state that the reference has there.
-/

set_option autoImplicit false
set_option linter.unusedSectionVars false

namespace FreeToken

open Blocks (divCeil)
open GridMemory (storeAll Launch)
open PagedAttention (load)
open OffloadMoeCache.HybridKernel (nextPowerOf2 le_nextPowerOf2)
open OnlineSoftmax (ExpLog)
open DeltaRule (Entry dot gate written run)

namespace GatedDelta

variable {R : Type} [Field R] [LinearOrder R]

/-! ## The reference -/

section Reference

variable (N : Arith R)

/-- `_l2norm`, with `torch.rsqrt` -/
def referenceNorm (dim : Nat) (x : Nat → R) : Nat → R := fun d =>
  x d * (1 / N.sqrt ((∑ d ∈ Finset.range dim, x d ^ 2) + eps))

/-- One token, for one head; the state is by column of the key and column of the value. -/
def referenceStep (dk : Nat) (key value : Nat → Nat → R) (g beta : Nat → R) (state : Nat → Nat → R)
    (i : Nat) : Nat → Nat → R :=
  let decayed := fun d v => state d v * N.exp (g i)
  let kvMem := fun v => ∑ d ∈ Finset.range dk, decayed d v * key i d
  let delta := fun v => (value i v - kvMem v) * beta i
  fun d v => decayed d v + key i d * delta v

/-- The state after the first tokens. -/
def referenceState (dk : Nat) (key value : Nat → Nat → R) (g beta : Nat → R)
    (initialState : Nat → Nat → R) (i : Nat) : Nat → Nat → R :=
  (List.range i).foldl (referenceStep N dk key value g beta) initialState

/-- `recurrent_gated_delta_rule`, for one sequence and head: the outputs and the last state. -/
def recurrentGatedDeltaRule (dk tLen : Nat) (query key value : Nat → Nat → R) (g beta : Nat → R)
    (initialState : Nat → Nat → R) : (Nat → Nat → R) × (Nat → Nat → R) :=
  let query := fun i => referenceNorm N dk (query i)
  let key := fun i => referenceNorm N dk (key i)
  let scale := 1 / N.sqrt dk
  let state := referenceState N dk key value g beta initialState
  (fun i v => ∑ d ∈ Finset.range dk, state (i + 1) d v * (query i d * scale), state tLen)

variable {N}

theorem referenceNorm_eq (dim : Nat) (x : Nat → R) : referenceNorm N dim x = l2norm N dim x := by
  have hvar : ∑ d ∈ Finset.range (nextPowerOf2 dim),
      load (decide (d < dim)) (x d) * load (decide (d < dim)) (x d) =
        ∑ d ∈ Finset.range dim, x d ^ 2 := by
    symm
    apply Finset.sum_subset_zero_on_sdiff (Finset.range_subset_range.2 (le_nextPowerOf2 dim))
    · intro d hd
      have hnot := (Finset.mem_sdiff.1 hd).2
      rw [Finset.mem_range] at hnot
      rw [decide_eq_false hnot]
      exact zero_mul _
    · intro d hd
      rw [decide_eq_true (Finset.mem_range.1 hd)]
      exact pow_two _
  ext d
  unfold referenceNorm l2norm
  rw [hvar]
  split
  · exact mul_one_div _ _
  · rfl

/-- The reference runs the rule for each row of the state. -/
theorem referenceState_eq (dk : Nat) (key value : Nat → Nat → R) (g beta : Nat → R)
    (initialState : Nat → Nat → R) (i d v : Nat) :
    referenceState N dk key value g beta initialState i d v =
      run (Finset.range dk) (fun d => initialState d v)
        (fun i => ⟨key i, value i v, N.exp (g i), beta i⟩) i d := by
  induction i generalizing d with
  | zero => rfl
  | succ i ih =>
      have hstep : referenceState N dk key value g beta initialState (i + 1) =
          referenceStep N dk key value g beta (referenceState N dk key value g beta initialState i) i := by
        unfold referenceState
        rw [List.range_succ, List.foldl_append]
        rfl
      rw [hstep]
      unfold referenceStep
      simp only [ih]
      rfl

end Reference

namespace ChunkArgs

variable {a : ChunkArgs R} {N : Arith R} {n h v t : Nat}

/-! ## The chunks of the last kernel -/

theorem le_outChunk (hs : a.Sound) : a.outChunk = chunkSize ∨ ∀ n < a.numSeqs, a.len n ≤ a.outChunk := by
  have hpow := le_nextPowerOf2 a.totalTokens
  by_cases hfull : chunkSize ≤ nextPowerOf2 a.totalTokens
  · left
    unfold outChunk
    omega
  · right
    intro n hn
    have htotal := hs.total n hn
    unfold outChunk
    omega

theorem outChunk_pos : 0 < a.outChunk := by
  have hchunk : 0 < chunkSize := by decide
  unfold outChunk
  omega

theorem outChunk_le : a.outChunk ≤ chunkSize := min_le_left _ _

/-- A batch with narrower chunks has one chunk for each sequence. -/
theorem outChunk_div (hs : a.Sound) (hn : n < a.numSeqs) {r : Nat} (hr : r < a.len n) :
    r / a.outChunk = r / chunkSize ∧ r % a.outChunk = r % chunkSize := by
  rcases le_outChunk hs with heq | hle
  · rw [heq]
    exact ⟨rfl, rfl⟩
  -- the token lies in chunk 0 either way
  · have hlt : r < a.outChunk := hr.trans_le (hle n hn)
    have hlt' : r < chunkSize := hlt.trans_le outChunk_le
    rw [Nat.div_eq_of_lt hlt, Nat.div_eq_of_lt hlt', Nat.mod_eq_of_lt hlt, Nat.mod_eq_of_lt hlt']
    exact ⟨rfl, rfl⟩

theorem divCeil_eq_one {l b : Nat} (hl : 0 < l) (hle : l ≤ b) : divCeil l b = 1 := by
  unfold divCeil
  rw [Nat.div_eq_iff (by omega)]
  omega

theorem outChunk_offsets (hs : a.Sound) (hn : n < a.numSeqs) :
    a.prepareChunkOffsets a.outChunk n = a.prepareChunkOffsets chunkSize n := by
  rw [Packed.prepareChunkOffsets_eq hn.le, Packed.prepareChunkOffsets_eq hn.le]
  congr 1
  apply List.map_congr_left
  intro m hm
  have hm' : m < a.numSeqs := (List.mem_range.1 hm).trans hn
  rcases le_outChunk hs with heq | hle
  · rw [heq]
  · have hpos := hs.len_pos hm'
    rw [divCeil_eq_one hpos (hle m hm'), divCeil_eq_one hpos ((hle m hm').trans outChunk_le)]

section Loads

variable (hbase : t * a.outChunk = t * chunkSize)

include hbase

theorem outLoad_eq (i : Nat) (x : Nat → R) : a.outLoad n t i x = a.rowLoad n t i x := by
  unfold outLoad rowLoad Packed.inside
  rw [hbase]

theorem outColLoad_eq (i dim d : Nat) (x : Nat → Nat → R) :
    a.outColLoad n t i dim d x = a.colLoad n t i dim d x := by
  unfold outColLoad colLoad Packed.inside
  rw [hbase]

end Loads

/-! ## The outputs -/

section Output

variable {g : Nat × Nat × Unit → R} {mem : HAddr → R} {i : Nat}

theorem fromState_eq (hg : Gates g a n h) (hbase : t * a.outChunk = t * chunkSize) {iTg : Nat}
    (hi : i < chunkSize) (hin : a.inside chunkSize n t i = true) (hv : v < a.valueDim) {S : Nat → R}
    (hS : ∀ d < a.keyDim, mem (.h iTg h v d) = S d) :
    a.fromState N g mem iTg n t h i v =
      gate (a.chunkEntry N n h v t) 0 (i + 1) *
        dot (Finset.range a.keyDim) S (a.q (a.bos n + (t * chunkSize + i)) (a.kHead h)) := by
  unfold fromState
  rw [sum_tiles a.keyDim (by decide) (f := fun d =>
    (a.outColLoad n t i a.keyDim d fun tok => a.q tok (a.kHead h)) *
      load (decide (v < a.valueDim) && decide (d < a.keyDim)) (mem (.h iTg h v d))) fun d hd => by
        rw [outColLoad_eq hbase, colLoad_of_le hd, zero_mul],
    outLoad_eq hbase, hg.exp_rowLoad hi hin, mul_comm]
  congr 1
  apply Finset.sum_congr rfl
  intro d hd
  have hlt := Finset.mem_range.1 hd
  rw [outColLoad_eq hbase, colLoad_inside hin hlt, decide_eq_true hv, decide_eq_true hlt, hS d hlt, mul_comm]
  rfl

theorem attention_eq [IsStrictOrderedRing R] (hs : a.Sound) (hg : Gates g a n h)
    (hbase : t * a.outChunk = t * chunkSize) (hi : i < chunkSize)
    (hin : a.inside chunkSize n t i = true) {j : Nat} (hj : j ≤ i) :
    a.attention N g n t h i j = gate (a.chunkEntry N n h v t) (j + 1) (i + 1) *
      dot (Finset.range a.keyDim) (a.chunkEntry N n h v t j).key
        (a.q (a.bos n + (t * chunkSize + i)) (a.kHead h)) := by
  unfold attention
  rw [if_pos hj, sum_tiles a.keyDim (by decide) (f := fun d =>
    (a.outColLoad n t i a.keyDim d fun tok => a.q tok (a.kHead h)) *
      a.outColLoad n t j a.keyDim d fun tok => a.k tok (a.kHead h)) fun d hd => by
        rw [outColLoad_eq hbase, colLoad_of_le hd, zero_mul],
    outLoad_eq hbase, outLoad_eq hbase, hg.safeExp_sub (v := v) hs hi hj hin, mul_comm]
  congr 1
  apply Finset.sum_congr rfl
  intro d hd
  have hlt := Finset.mem_range.1 hd
  rw [outColLoad_eq hbase, outColLoad_eq hbase, colLoad_inside hin hlt, colLoad_key (N := N) (v := v) hlt,
    mul_comm]

/-- A row of the output reads the state after its own token. -/
theorem outValue_eq [IsStrictOrderedRing R] (hs : a.Sound) (hg : Gates g a n h)
    (hbase : t * a.outChunk = t * chunkSize) {iTg : Nat} (hi : i < a.outChunk)
    (hin : a.inside chunkSize n t i = true) (hv : v < a.valueDim) {S : Nat → R}
    (hS : ∀ d < a.keyDim, mem (.h iTg h v d) = S d)
    (hnew : ∀ j ≤ i, mem (.vNew (a.bos n + (t * chunkSize + j)) h v) =
      written (Finset.range a.keyDim) S (a.chunkEntry N n h v t) j) :
    a.outValue N g mem iTg n t h i v =
      dot (Finset.range a.keyDim) (run (Finset.range a.keyDim) S (a.chunkEntry N n h v t) (i + 1))
        (a.q (a.bos n + (t * chunkSize + i)) (a.kHead h)) * a.scale := by
  have hi' : i < chunkSize := hi.trans_le outChunk_le
  unfold outValue
  rw [fromState_eq hg hbase hi' hin hv hS, ← add_mul, DeltaRule.dot_run]
  congr 2
  symm
  -- keys behind the query are masked
  apply Finset.sum_subset_zero_on_sdiff (Finset.range_subset_range.2 hi)
  · intro j hj
    have hnot := (Finset.mem_sdiff.1 hj).2
    rw [Finset.mem_range] at hnot
    unfold attention
    rw [if_neg (by omega), zero_mul]
  · intro j hj
    have hle : j ≤ i := Nat.le_of_lt_succ (Finset.mem_range.1 hj)
    rw [attention_eq (v := v) hs hg hbase hi' hin hle, outColLoad_eq hbase,
      colLoad_inside (inside_of_le hin hle) hv, hnew j hle]

end Output

/-! ## All launches -/

/-- The recurrence of a sequence and a head, from the state in its slot. -/
def recurrence (a : ChunkArgs R) (N : Arith R) (pool : Nat → Nat → Nat → Nat → R) (n h v r : Nat) :
    Nat → R :=
  run (Finset.range a.keyDim) (pool (a.indices n) h v) (a.entry N n h v) r

theorem lt_divCeil (ht : t * chunkSize < a.len n) : t < divCeil (a.len n) chunkSize := by
  have hceil := Packed.div_lt_divCeil (show 0 < chunkSize by decide) ht
  rwa [Nat.mul_div_cancel t (by decide)] at hceil

namespace Forward

variable {pool : Nat → Nat → Nat → Nat → R} (f : a.Forward N pool)

section Run

variable [IsStrictOrderedRing R] (hs : a.Sound) (hn : n < a.numSeqs) (hh : h < a.numHeads)

include hs hn hh

theorem gates : Gates (storeAll f.gEmpty f.gStores) a n h := hs.gates f.gPerm hn hh f.gEmpty

theorem chunkState_eq (hv : v < a.valueDim) (ht : t ≤ divCeil (a.len n) chunkSize) {d : Nat}
    (hd : d < a.keyDim) :
    a.chunkState N (storeAll f.gEmpty f.gStores) (storeAll f.wuEmpty f.wuStores) n h v f.hEmpty t d =
      a.recurrence N pool n h v (min (t * chunkSize) (a.len n)) d := by
  have hstart : (fun d => f.hEmpty (.state (a.indices n) h v d)) = pool (a.indices n) h v := by
    ext d
    exact f.hPool _ _ _ _
  have hstate := ChunkArgs.chunkState_eq (N := N) hs (f.gates hs hn hh)
    (hs.inverse (f.gates hs hn hh) f.aPerm hn hh) (hs.columns f.wuPerm hn hh f.wuEmpty) hv f.hEmpty ht d hd
  rw [hstart] at hstate
  exact hstate

/-- Before a chunk, `h` holds the state after the tokens before it. -/
theorem h_eq (hv : v < a.valueDim) (ht : t * chunkSize < a.len n) {d : Nat} (hd : d < a.keyDim) :
    f.hRun.final (.h (a.prepareChunkOffsets chunkSize n + t) h v d) =
      a.recurrence N pool n h v (t * chunkSize) d := by
  have hlt := lt_divCeil ht
  rw [hs.final_h f.hRun hn hh hv hd hlt, f.chunkState_eq hs hn hh hv hlt.le hd, min_eq_left ht.le]

/-- The slot of a sequence holds its last state. -/
theorem pool_eq (hv : v < a.valueDim) {d : Nat} (hd : d < a.keyDim) :
    f.pool' (a.indices n) h v d = a.recurrence N pool n h v (a.len n) d := by
  have hceil := Blocks.le_divCeil_mul (a.len n) (show 0 < chunkSize by decide)
  show f.hRun.final (.state (a.indices n) h v d) = _
  rw [hs.final_state f.hRun hn hh hv hd, f.chunkState_eq hs hn hh hv le_rfl hd, min_eq_right hceil]

theorem vNew_eq (hv : v < a.valueDim) {i : Nat} (hi : i < chunkSize)
    (hin : a.inside chunkSize n t i = true) :
    f.hRun.final (.vNew (a.bos n + (t * chunkSize + i)) h v) =
      written (Finset.range a.keyDim)
        (a.chunkState N (storeAll f.gEmpty f.gStores) (storeAll f.wuEmpty f.wuStores) n h v f.hEmpty t)
        (a.chunkEntry N n h v t) i := by
  have hlt : t < divCeil (a.len n) chunkSize := by
    apply lt_divCeil
    have hrow := of_decide_eq_true hin
    omega
  rw [hs.final_vNew f.hRun hn hh hv hi hin hlt]
  exact newValue_eq hs (f.gates hs hn hh) (hs.inverse (f.gates hs hn hh) f.aPerm hn hh t)
    (hs.columns f.wuPerm hn hh f.wuEmpty) hv _ hi

/-- A token's output reads the state after it. -/
theorem o_eq (hv : v < a.valueDim) {r : Nat} (hr : r < a.len n) :
    f.o (a.bos n + r) h v =
      dot (Finset.range a.keyDim) (a.recurrence N pool n h v (r + 1)) (a.q (a.bos n + r) (a.kHead h)) *
        a.scale := by
  obtain ⟨hdiv, hmod⟩ := outChunk_div hs hn hr
  have hsplit : r / chunkSize * chunkSize + r % chunkSize = r := Nat.div_add_mod' r chunkSize
  have hbase : r / chunkSize * a.outChunk = r / chunkSize * chunkSize := by
    have hsplit' := Nat.div_add_mod' r a.outChunk
    rw [hdiv, hmod] at hsplit'
    omega
  have hin : a.inside chunkSize n (r / chunkSize) (r % chunkSize) = true := by
    unfold Packed.inside
    rw [hsplit]
    exact decide_eq_true hr
  have hstart : r / chunkSize * chunkSize < a.len n := (Nat.div_mul_le_self r chunkSize).trans_lt hr
  have hlt := lt_divCeil hstart
  have hi : r % chunkSize < a.outChunk := by
    rw [← hmod]
    exact Nat.mod_lt r outChunk_pos
  -- the state before the chunk, on all columns
  have hvalue := outValue_eq (N := N) hs (f.gates hs hn hh) hbase hi hin hv
    (fun d hd => hs.final_h f.hRun hn hh hv hd hlt)
    (fun j hj => f.vNew_eq hs hn hh hv (hj.trans_lt (hi.trans_le outChunk_le)) (inside_of_le hin hj))
  rw [hsplit] at hvalue
  have hstates : ∀ d ∈ Finset.range a.keyDim, run (Finset.range a.keyDim)
      (a.chunkState N (storeAll f.gEmpty f.gStores) (storeAll f.wuEmpty f.wuStores) n h v f.hEmpty
        (r / chunkSize)) (a.chunkEntry N n h v (r / chunkSize)) (r % chunkSize + 1) d =
          a.recurrence N pool n h v (r + 1) d := by
    have hplace : r + 1 = r / chunkSize * chunkSize + (r % chunkSize + 1) := by omega
    have hend : a.recurrence N pool n h v (r + 1) = run (Finset.range a.keyDim)
        (a.recurrence N pool n h v (r / chunkSize * chunkSize))
        (fun i => a.entry N n h v (r / chunkSize * chunkSize + i)) (r % chunkSize + 1) := by
      unfold recurrence
      rw [hplace, DeltaRule.run_add]
    rw [hend]
    apply DeltaRule.run_congr
    · intro d hd
      rw [f.chunkState_eq hs hn hh hv hlt.le (Finset.mem_range.1 hd), min_eq_left hstart.le]
    · intro i hi
      rw [chunkEntry_inside (inside_of_le hin (Nat.le_of_lt_succ hi))]
      exact ⟨fun _ _ => rfl, rfl, rfl, rfl⟩
  have hread : f.o (a.bos n + r) h v = a.outValue N (storeAll f.gEmpty f.gStores) f.hRun.final
      (a.prepareChunkOffsets chunkSize n + r / chunkSize) n (r / chunkSize) h (r % chunkSize) v := by
    show storeAll (fun _ => 0) f.oStores (a.bos n + r, h, v) = _
    apply hs.rowStores_apply outChunk_pos f.oPerm hn hr hh
    intro x
    rw [hdiv, hmod, outChunk_offsets hs hn]
    simp [outRow, mem_tiled, hv, eq_comm]
  rw [hread, hvalue]
  congr 1
  apply Finset.sum_congr rfl
  intro d hd
  rw [hstates d hd]

end Run

end Forward

/-! ## Against the reference -/

/-- The reference for a sequence and a head, from the state in its slot; its state is transposed. -/
def reference (a : ChunkArgs R) (N : Arith R) (pool : Nat → Nat → Nat → Nat → R) (n h tLen : Nat) :
    (Nat → Nat → R) × (Nat → Nat → R) :=
  recurrentGatedDeltaRule N a.keyDim tLen (fun r => a.q (a.bos n + r) (a.kHead h))
    (fun r => a.k (a.bos n + r) (a.kHead h)) (fun r => a.v (a.bos n + r) h)
    (fun r => a.g (a.bos n + r) h) (fun r => a.beta (a.bos n + r) h)
    (fun d v => pool (a.indices n) h v d)

theorem normalized_sound (hs : a.Sound) : (a.normalized N).Sound where
  lt := hs.lt
  total := hs.total
  forget := hs.forget
  slots := hs.slots
  keyDim := hs.keyDim
  blockK := hs.blockK
  blockV := hs.blockV

theorem reference_state (pool : Nat → Nat → Nat → Nat → R) (n h tLen d v : Nat) :
    (a.reference N pool n h tLen).2 d v = (a.normalized N).recurrence N pool n h v tLen d := by
  show referenceState _ _ _ _ _ _ _ _ _ _ = _
  rw [referenceState_eq]
  simp only [referenceNorm_eq]
  rfl

theorem reference_out (pool : Nat → Nat → Nat → Nat → R) (n h tLen r v : Nat) :
    (a.reference N pool n h tLen).1 r v =
      dot (Finset.range a.keyDim) ((a.normalized N).recurrence N pool n h v (r + 1))
        ((a.normalized N).q (a.bos n + r) (a.kHead h)) * (1 / N.sqrt a.keyDim) := by
  rw [dot, Finset.sum_mul]
  unfold reference recurrentGatedDeltaRule
  dsimp only
  apply Finset.sum_congr rfl
  intro d _
  rw [← reference_state pool n h (r + 1) d v, referenceNorm_eq]
  exact (mul_assoc _ _ _).symm

/-- `chunk_gated_delta_rule` is the recurrence of the reference, for every sequence of the batch. -/
theorem chunkGatedDeltaRule_eq [IsStrictOrderedRing R] (N : Arith R) (a : ChunkArgs R) (hs : a.Sound)
    (hscale : a.scale = 1 / N.sqrt a.keyDim) {pool : Nat → Nat → Nat → Nat → R}
    (f : (a.normalized N).Forward N pool) :
    (∀ n < a.numSeqs, ∀ h < a.numHeads, ∀ v < a.valueDim,
      (∀ r < a.len n, f.o (a.bos n + r) h v = (a.reference N pool n h (a.len n)).1 r v) ∧
      ∀ d < a.keyDim,
        f.pool' (a.indices n) h v d = (a.reference N pool n h (a.len n)).2 d v ∧
        ∀ c, c * chunkSize < a.len n →
          f.states (.h (a.prepareChunkOffsets chunkSize n + c) h v d) =
            (a.reference N pool n h (c * chunkSize)).2 d v) ∧
      ∀ slot, (∀ n < a.numSeqs, a.indices n ≠ slot) → f.pool' slot = pool slot := by
  have hs' : (a.normalized N).Sound := normalized_sound hs
  constructor
  · intro n hn h hh v hv
    constructor
    · intro r hr
      rw [reference_out, ← hscale]
      exact f.o_eq hs' hn hh hv hr
    · intro d hd
      constructor
      · rw [reference_state]
        exact f.pool_eq hs' hn hh hv hd
      · intro c hc
        rw [reference_state]
        exact f.h_eq hs' hn hh hv hc hd
  · intro slot hslot
    ext h v d
    exact (hs'.final_other f.hRun hslot h v d).trans (f.hPool slot h v d)

/-- The pool, in memory that holds zeros elsewhere. -/
def poolMemory (pool : Nat → Nat → Nat → Nat → R) : HAddr → R
  | .state slot h v d => pool slot h v d
  | _ => 0

/-- The launches where every kernel stores in the order of its programs. -/
def Forward.inOrder (a : ChunkArgs R) (N : Arith R) (pool : Nat → Nat → Nat → Nat → R) :
    a.Forward N pool where
  gEmpty _ := 0
  gStores := a.cumsumStores
  gPerm := List.Perm.refl _
  aStores := a.solveStores N (storeAll (fun _ => 0) a.cumsumStores)
  aPerm := List.Perm.refl _
  wuEmpty _ := 0
  wuStores := _
  wuPerm := List.Perm.refl _
  hEmpty := poolMemory pool
  hPool _ _ _ _ := rfl
  hRun := Launch.Run.atOnce _ _
  oStores := _
  oPerm := List.Perm.refl _

/-- A sequence of two tokens with one column each. -/
noncomputable def sampleChunk : ChunkArgs ℝ where
  numSeqs := 1
  cuSeqlens n := 2 * n
  numHeads := 1
  numKHeads := 1
  keyDim := 1
  valueDim := 1
  totalTokens := 2
  q _ _ _ := 1
  k _ _ _ := 1
  v _ _ _ := 1
  g _ _ := -1
  beta _ _ := 1
  scale := 1 / Real.sqrt (1 : Nat)
  indices n := n
  blockK := 32
  blockV := 32

/-- The real numbers. -/
noncomputable def Arith.real : Arith ℝ where
  toExpLog := ExpLog.real
  sqrt := Real.sqrt
  exp_strictMono := Real.exp_strictMono

theorem chunkGatedDeltaRule_two :
    (Forward.inOrder (sampleChunk.normalized Arith.real) Arith.real fun _ _ _ _ => 0).o 1 0 0 =
      (sampleChunk.reference Arith.real (fun _ _ _ _ => 0) 0 0 2).1 1 0 := by
  have hsound : sampleChunk.Sound := {
    lt := fun n _ => by
      show 2 * n < 2 * (n + 1)
      omega
    total := fun n hn => by
      have hzero : n = 0 := Nat.lt_one_iff.1 hn
      rw [hzero]
      exact le_rfl
    forget := fun _ _ => by
      show (-1 : ℝ) ≤ 0
      norm_num
    slots := fun _ _ _ _ h => h
    keyDim := by decide
    blockK := by decide
    blockV := by decide }
  have hrule := chunkGatedDeltaRule_eq Arith.real sampleChunk hsound rfl
    (Forward.inOrder (sampleChunk.normalized Arith.real) Arith.real fun _ _ _ _ => 0)
  have hout := (hrule.1 0 (by decide) 0 (by decide) 0 (by decide)).1 1 (by decide)
  have hplace : sampleChunk.bos 0 + 1 = 1 := by decide
  have hlen : sampleChunk.len 0 = 2 := by decide
  rw [hplace, hlen] at hout
  exact hout

end ChunkArgs

end GatedDelta

end FreeToken
