import FreeToken.Kernel.ChunkDelta

/-!
# The triangular solve of a chunk

The gates of a chunk are exponentials of its cumulative sums, the four rows of blocks are the
couplings of its tokens, and what the kernel stores is the inverse.
-/

set_option autoImplicit false
set_option linter.unusedSectionVars false

namespace FreeToken

open Blocks (divCeil le_divCeil_mul)
open GridMemory (storeAll)
open PagedAttention (load)
open DeltaRule (Entry dot gate coupling couplings)
open TriangularInverse (Solved StrictlyLower Below flatten)

namespace GatedDelta

variable {R : Type} [Field R] [LinearOrder R]

namespace Arith

variable (N : Arith R)

theorem exp_zero : N.exp 0 = 1 := by
  have h := N.exp_add 0 0
  rw [add_zero] at h
  exact (mul_right_cancel₀ (N.exp_pos 0).ne' ((one_mul _).trans h)).symm

theorem exp_sum (g : Nat → R) {i j : Nat} (h : i ≤ j) :
    N.exp (∑ l ∈ Finset.Ico i j, g l) = ∏ l ∈ Finset.Ico i j, N.exp (g l) := by
  induction j, h using Nat.le_induction with
  | base => rw [Finset.Ico_self, Finset.sum_empty, Finset.prod_empty, exp_zero]
  | succ j hij ih => rw [Finset.sum_Ico_succ_top hij, Finset.prod_Ico_succ_top hij, N.exp_add, ih]

end Arith

/-- Tiles cover a sum that is zero behind the dimension. -/
theorem sum_tiles (dim : Nat) {width : Nat} (hwidth : 0 < width) {f : Nat → R} (hf : ∀ d, dim ≤ d → f d = 0) :
    ∑ i ∈ Finset.range (divCeil dim width), ∑ d ∈ Finset.range width, f (i * width + d) =
      ∑ d ∈ Finset.range dim, f d := by
  have hflat : ∀ m, ∑ i ∈ Finset.range m, ∑ d ∈ Finset.range width, f (i * width + d) =
      ∑ d ∈ Finset.range (m * width), f d := by
    intro m
    induction m with
    | zero => rw [Nat.zero_mul]; rfl
    | succ m ih => rw [Finset.sum_range_succ, ih, Nat.succ_mul, Finset.sum_range_add]
  rw [hflat]
  exact Finset.eventually_constant_sum hf (le_divCeil_mul dim hwidth)

theorem mem_tiled {dim width d : Nat} (hwidth : 0 < width) : d ∈ tiled dim width ↔ d < dim := by
  unfold tiled
  simp only [List.mem_flatMap, List.mem_map, List.mem_filter, List.mem_range, decide_eq_true_eq]
  constructor
  · intro hmem
    obtain ⟨i, _, j, ⟨_, hlt⟩, heq⟩ := hmem
    omega
  · intro hd
    have hsplit := Nat.div_add_mod' d width
    refine ⟨d / width, Packed.div_lt_divCeil hwidth hd, d % width, ⟨Nat.mod_lt d hwidth, ?_⟩, hsplit⟩
    omega

namespace ChunkArgs

variable (a : ChunkArgs R)

/-- What the caller promises: packed sequences, gates that only forget, a slot for each sequence. -/
structure Sound : Prop extends a.toPacked.Sound where
  total : ∀ n < a.numSeqs, a.len n ≤ a.totalTokens
  forget : ∀ tok h, a.g tok h ≤ 0
  slots : ∀ m < a.numSeqs, ∀ n < a.numSeqs, a.indices m = a.indices n → m = n
  keyDim : a.keyDim ≤ 256
  blockK : 0 < a.blockK
  blockV : 0 < a.blockV

variable (N : Arith R) (n h v t : Nat)

/-- A token of a sequence, for one head and one row of the state. -/
def entry (r : Nat) : Entry R Nat where
  key := a.k (a.bos n + r) (a.kHead h)
  value := a.v (a.bos n + r) h v
  decay := N.exp (a.g (a.bos n + r) h)
  beta := a.beta (a.bos n + r) h

/-- The tokens of a chunk; behind the end of the sequence they do nothing. -/
def chunkEntry (i : Nat) : Entry R Nat :=
  if a.inside chunkSize n t i then a.entry N n h v (t * chunkSize + i) else ⟨fun _ => 0, 0, 1, 0⟩

variable {a N} {n h v t}

theorem chunkEntry_inside {i : Nat} (hi : a.inside chunkSize n t i = true) :
    a.chunkEntry N n h v t i = a.entry N n h v (t * chunkSize + i) := if_pos hi

theorem chunkEntry_outside {i : Nat} (hi : a.inside chunkSize n t i = false) :
    a.chunkEntry N n h v t i = ⟨fun _ => 0, 0, 1, 0⟩ := if_neg (by rw [hi]; decide)

theorem colLoad_key {i d : Nat} (hd : d < a.keyDim) :
    (a.colLoad n t i a.keyDim d fun tok => a.k tok (a.kHead h)) = (a.chunkEntry N n h v t i).key d := by
  unfold colLoad load chunkEntry
  rw [decide_eq_true hd, Bool.and_true]
  split <;> rfl

theorem colLoad_of_le {i d dim : Nat} (hd : dim ≤ d) (x : Nat → Nat → R) :
    a.colLoad n t i dim d x = 0 := by
  unfold colLoad load
  rw [decide_eq_false (Nat.not_lt.2 hd), Bool.and_false]
  rfl

theorem colLoad_value {i : Nat} (hv : v < a.valueDim) :
    (a.colLoad n t i a.valueDim v fun tok => a.v tok h) = (a.chunkEntry N n h v t i).value := by
  unfold colLoad load chunkEntry
  rw [decide_eq_true hv, Bool.and_true]
  split <;> rfl

theorem rowLoad_beta {i : Nat} :
    (a.rowLoad n t i fun tok => a.beta tok h) = (a.chunkEntry N n h v t i).beta := by
  unfold rowLoad load chunkEntry
  split <;> rfl

theorem rowLoad_inside {i : Nat} (hi : a.inside chunkSize n t i = true) (x : Nat → R) :
    a.rowLoad n t i x = x (a.bos n + (t * chunkSize + i)) := by
  unfold rowLoad load
  rw [hi]
  rfl

theorem colLoad_inside {i d dim : Nat} (hi : a.inside chunkSize n t i = true) (hd : d < dim)
    (x : Nat → Nat → R) : a.colLoad n t i dim d x = x (a.bos n + (t * chunkSize + i)) d := by
  unfold colLoad load
  rw [hi, decide_eq_true hd]
  rfl

theorem inside_of_le {i j : Nat} (hi : a.inside chunkSize n t i = true) (h : j ≤ i) :
    a.inside chunkSize n t j = true := by
  have hlt := of_decide_eq_true hi
  exact decide_eq_true (by omega)

/-! ## Gates -/

/-- The sums that the first kernel leaves. -/
structure Gates (g : Nat × Nat × Unit → R) (a : ChunkArgs R) (n h : Nat) : Prop where
  sum : ∀ t i, i < chunkSize → a.inside chunkSize n t i = true →
    g (a.bos n + (t * chunkSize + i), h, ()) =
      ∑ l ∈ Finset.range (i + 1), a.g (a.bos n + (t * chunkSize + l)) h

theorem Sound.gates (hs : a.Sound) {ss : List ((Nat × Nat × Unit) × R)} (hss : ss.Perm a.cumsumStores)
    (hn : n < a.numSeqs) (hh : h < a.numHeads) (mem : Nat × Nat × Unit → R) :
    Gates (storeAll mem ss) a n h where
  sum t i hi hin := by
    have hr := of_decide_eq_true hin
    apply hs.rowStores_apply (by decide) hss hn hr hh
    intro x
    rw [Packed.row_div hi, Packed.row_mod hi]
    unfold cumsumRow
    rw [List.mem_singleton, Prod.mk.injEq, eq_self, true_and]
    have hsum : (∑ j ∈ Finset.range (i + 1), a.rowLoad n t j fun tok => a.g tok h) =
        ∑ l ∈ Finset.range (i + 1), a.g (a.bos n + (t * chunkSize + l)) h := by
      apply Finset.sum_congr rfl
      intro j hj
      rw [Finset.mem_range] at hj
      exact rowLoad_inside (inside_of_le hin (by omega)) _
    rw [hsum]

section Gate

variable {g : Nat × Nat × Unit → R} (hg : Gates g a n h)

include hg

/-- The exponential of a difference of sums is what the tokens between leave. -/
theorem Gates.exp_sub {i c : Nat} (hi : i < chunkSize) (hc : c ≤ i)
    (hin : a.inside chunkSize n t i = true) :
    N.exp ((a.rowLoad n t i fun tok => g (tok, h, ())) - a.rowLoad n t c fun tok => g (tok, h, ())) =
      gate (a.chunkEntry N n h v t) (c + 1) (i + 1) := by
  have hcin := inside_of_le hin hc
  rw [rowLoad_inside hin, rowLoad_inside hcin, hg.sum t i hi hin, hg.sum t c (by omega) hcin,
    ← Finset.sum_range_add_sum_Ico _ (Nat.succ_le_succ hc), add_sub_cancel_left,
    N.exp_sum _ (Nat.succ_le_succ hc)]
  apply Finset.prod_congr rfl
  intro l hl
  rw [chunkEntry_inside (inside_of_le hin (by have := Finset.mem_Ico.1 hl; omega))]
  rfl

/-- The exponential of a sum is what is left of the state before the chunk. -/
theorem Gates.exp_rowLoad {i : Nat} (hi : i < chunkSize) (hin : a.inside chunkSize n t i = true) :
    N.exp (a.rowLoad n t i fun tok => g (tok, h, ())) = gate (a.chunkEntry N n h v t) 0 (i + 1) := by
  rw [rowLoad_inside hin, hg.sum t i hi hin, Finset.range_eq_Ico, N.exp_sum _ (Nat.zero_le _)]
  apply Finset.prod_congr rfl
  intro l hl
  rw [chunkEntry_inside (inside_of_le hin (by have := Finset.mem_Ico.1 hl; omega))]
  rfl

/-- Later sums are no greater: the guard of `safe_exp` never cuts. -/
theorem Gates.safeExp_sub [IsStrictOrderedRing R] (hs : a.Sound) {i c : Nat} (hi : i < chunkSize)
    (hc : c ≤ i) (hin : a.inside chunkSize n t i = true) :
    safeExp N ((a.rowLoad n t i fun tok => g (tok, h, ())) - a.rowLoad n t c fun tok => g (tok, h, ())) =
      gate (a.chunkEntry N n h v t) (c + 1) (i + 1) := by
  have hcin := inside_of_le hin hc
  rw [safeExp, if_pos, hg.exp_sub hi hc hin]
  rw [rowLoad_inside hin, rowLoad_inside hcin, hg.sum t i hi hin, hg.sum t c (by omega) hcin,
    ← Finset.sum_range_add_sum_Ico _ (Nat.succ_le_succ hc), add_sub_cancel_left]
  exact Finset.sum_nonpos fun l _ => hs.forget _ _

end Gate

/-! ## The couplings of a chunk -/

theorem lane_lt {block : Nat} (hblock : block < 4) (i : Fin tile) : tile * block + i.val < chunkSize := by
  have hi : i.val < 16 := i.isLt
  show 16 * block + i.val < 64
  omega

theorem lane_lt_lane {row col : Nat} (h : col < row) (i j : Fin tile) :
    tile * col + j.val < tile * row + i.val := by
  have hj : j.val < 16 := j.isLt
  show 16 * col + j.val < 16 * row + i.val
  omega

theorem lane_inj {row row' : Fin 4} {i i' : Fin tile}
    (h : tile * row.val + i.val = tile * row'.val + i'.val) : row = row' ∧ i = i' := by
  have hi : i.val < 16 := i.isLt
  have hi' : i'.val < 16 := i'.isLt
  have h' : 16 * row.val + i.val = 16 * row'.val + i'.val := h
  exact ⟨Fin.ext (by omega), Fin.ext (by omega)⟩

section Couplings

variable {g : Nat × Nat × Unit → R}

theorem keyTile_eq {block d : Nat} {i : Fin tile} (hd : d < a.keyDim) :
    a.keyTile n t h block i d = (a.chunkEntry N n h v t (tile * block + i)).key d := colLoad_key hd

theorem dot_outside {r : Nat} (hr : a.inside chunkSize n t r = false) (x : Nat → R) :
    dot (Finset.range a.keyDim) (a.chunkEntry N n h v t r).key x = 0 := by
  rw [chunkEntry_outside hr]
  apply Finset.sum_eq_zero
  intro d _
  exact zero_mul _

/-- The tiles of the products cover the dimension of the key. -/
theorem keyProducts_eq (hs : a.Sound) (row col : Nat) (i j : Fin tile) :
    a.keyProducts n t h row col i j = dot (Finset.range a.keyDim)
      (a.chunkEntry N n h v t (tile * row + i)).key (a.chunkEntry N n h v t (tile * col + j)).key := by
  unfold keyProducts
  by_cases hrow : row = 0 ∨ t * chunkSize + tile * row < a.len n
  · rw [if_pos hrow]
    have htiles := sum_tiles a.keyDim hs.blockK
      (f := fun d => a.keyTile n t h row i d * a.keyTile n t h col j d) fun d hd => by
        unfold keyTile
        rw [colLoad_of_le hd, zero_mul]
    rw [htiles]
    apply Finset.sum_congr rfl
    intro d hd
    have hlt := Finset.mem_range.1 hd
    rw [keyTile_eq (N := N) (v := v) hlt, keyTile_eq (N := N) (v := v) hlt]
  · have hout : a.inside chunkSize n t (tile * row + i) = false := by
      apply decide_eq_false
      omega
    rw [if_neg hrow, dot_outside hout]

theorem gated_eq [IsStrictOrderedRing R] (hs : a.Sound) (hg : Gates g a n h) {row col : Nat}
    {i j : Fin tile} (hrow : row < 4) (hlt : tile * col + j.val < tile * row + i) :
    a.gated N g n t h row col i j * a.betaTile n t h row i =
      coupling (s := Finset.range a.keyDim) (a.chunkEntry N n h v t) (tile * row + i) (tile * col + j) := by
  have hi := lane_lt hrow i
  unfold gated betaTile
  rw [coupling, if_pos hlt, rowLoad_beta (N := N) (v := v), keyProducts_eq (N := N) (v := v) hs]
  cases hin : a.inside chunkSize n t (tile * row + i) with
  | true =>
      unfold gateTile
      rw [hg.safeExp_sub (v := v) hs hi hlt.le hin, mul_comm (dot _ _ _)]
  -- the rows behind the end have zero keys, so their gates do not matter
  | false => rw [dot_outside hin, zero_mul, mul_zero]

theorem diagonal_eq [IsStrictOrderedRing R] (hs : a.Sound) (hg : Gates g a n h) {block : Nat}
    (hblock : block < 4) (i j : Fin tile) :
    a.diagonal N g n t h block i j =
      coupling (s := Finset.range a.keyDim) (a.chunkEntry N n h v t) (tile * block + i)
        (tile * block + j) := by
  unfold diagonal
  by_cases hlt : j < i
  · have hlt' : tile * block + j.val < tile * block + i := Nat.add_lt_add_left hlt _
    cases hin : a.inside chunkSize n t (tile * block + i) with
    | true =>
        rw [decide_eq_true hlt, inside_of_le hin hlt'.le]
        exact gated_eq hs hg hblock hlt'
    | false =>
        rw [coupling, if_pos hlt', dot_outside hin, Bool.false_and, Bool.and_false, mul_zero, zero_mul]
        exact zero_mul _
  · rw [coupling, if_neg (fun h => hlt (Nat.lt_of_add_lt_add_left h)), decide_eq_false hlt, Bool.false_and]
    exact zero_mul _

/-! ## The forward substitution -/

theorem diagonal_lower (block : Nat) : StrictlyLower (a.diagonal N g n t h block) := by
  intro i j hij
  unfold diagonal
  rw [decide_eq_false (not_lt.2 hij), Bool.false_and]
  exact zero_mul _

theorem substituteRow_solved {A X : Matrix (Fin tile) (Fin tile) R} (hA : StrictlyLower A) {m : Nat}
    (hX : Solved A X m) : Solved A (substituteRow A X m) (m + 1) := by
  apply hX.step hA
  · intro r hr c
    -- the row is read through a mask, which cuts nothing of a strictly lower row
    have hrow : ∀ j : Fin tile, (∑ r' : Fin tile, if r'.val = m then -A r' j else 0) = -A r j := by
      intro j
      rw [Finset.sum_eq_single r]
      · rw [if_pos hr]
      · intro r' _ hne
        rw [if_neg (fun h => hne (Fin.ext (h.trans hr.symm)))]
      · intro hnot
        exact absurd (Finset.mem_univ r) hnot
    have hmasked : ∀ j : Fin tile, (if j.val < m then
        ∑ r' : Fin tile, if r'.val = m then -A r' j else 0 else 0) = -A r j := by
      intro j
      by_cases hj : j.val < m
      · rw [if_pos hj, hrow]
      · have hle : r ≤ j := by
          rw [Fin.le_def]
          omega
        rw [if_neg hj, hA r j hle, neg_zero]
    show (if r.val = m then _ else _) = _
    rw [if_pos hr]
    simp only [hmasked]
  · intro r hr c
    exact if_neg hr

theorem substitute_solved {A : Matrix (Fin tile) (Fin tile) R} (hA : StrictlyLower A) (count : Nat) :
    Solved A ((List.range' 2 count).foldl (substituteRow A) (-A)) (2 + count) := by
  induction count with
  | zero => exact Solved.start hA
  | succ count ih =>
      rw [List.range'_concat, List.foldl_append, List.foldl_cons, List.foldl_nil, Nat.one_mul]
      exact substituteRow_solved hA ih

/-- Rows behind the end of the sequence need no substitution: they are zero. -/
theorem diagonal_mul_solve (block : Nat) :
    (1 + a.diagonal N g n t h block) * a.solveDiagonal N g n t h block = 1 := by
  unfold solveDiagonal
  dsimp only
  rw [add_comm _ (1 : Matrix (Fin tile) (Fin tile) R)]
  apply (substitute_solved (diagonal_lower block) _).mul_eq_one
  intro r hr c
  have hlane := r.isLt
  -- the substitution stopped at `r`, so `r` lies behind the end
  have hout : a.inside chunkSize n t (tile * block + r) = false := by
    apply decide_eq_false
    omega
  unfold diagonal
  rw [hout, Bool.false_and, Bool.and_false]
  exact zero_mul _

/-! ## The inverse -/

theorem below_matrix_apply (d : Fin 4 → Matrix (Fin tile) (Fin tile) R) (row col : Fin 4) :
    (a.below N g n t h).matrix d row col =
      if row = col then d row else if col < row then a.offDiagonal N g n t h row col else 0 := by
  fin_cases row <;> fin_cases col <;> rfl

theorem solved_above {row col : Fin 4} (hlt : row < col) : a.solved N g n t h row col = 0 := by
  fin_cases row <;> fin_cases col <;> first | rfl | exact absurd hlt (by decide)

theorem flatten_below [IsStrictOrderedRing R] (hs : a.Sound) (hg : Gates g a n h) :
    flatten ((a.below N g n t h).matrix fun block => 1 + a.diagonal N g n t h block) =
      1 + couplings (Finset.range a.keyDim) (a.chunkEntry N n h v t) (4 * tile) := by
  ext r c
  obtain ⟨⟨row, i⟩, rfl⟩ := finProdFinEquiv.surjective r
  obtain ⟨⟨col, j⟩, rfl⟩ := finProdFinEquiv.surjective c
  have hentry : couplings (Finset.range a.keyDim) (a.chunkEntry N n h v t) (4 * tile)
      (finProdFinEquiv (row, i)) (finProdFinEquiv (col, j)) =
        coupling (s := Finset.range a.keyDim) (a.chunkEntry N n h v t) (tile * row + i) (tile * col + j) := by
    show coupling (s := Finset.range a.keyDim) _ (i.val + tile * row.val) (j.val + tile * col.val) = _
    rw [Nat.add_comm i.val, Nat.add_comm j.val]
  rw [TriangularInverse.flatten_apply, below_matrix_apply, Matrix.add_apply, hentry, Matrix.one_apply]
  have hsame : finProdFinEquiv (row, i) = finProdFinEquiv (col, j) ↔ row = col ∧ i = j := by
    rw [finProdFinEquiv.apply_eq_iff_eq, Prod.mk.injEq]
  rcases lt_trichotomy col row with hlt | rfl | hlt
  · rw [if_neg hlt.ne', if_pos hlt, if_neg (fun h => hlt.ne' (hsame.1 h).1), zero_add]
    exact gated_eq hs hg row.isLt (lane_lt_lane hlt i j)
  · rw [if_pos rfl, Matrix.add_apply, diagonal_eq (v := v) hs hg col.isLt, Matrix.one_apply]
    simp only [hsame, true_and]
  · rw [if_neg hlt.ne, if_neg hlt.not_gt, if_neg (fun h => hlt.ne (hsame.1 h).1), zero_add, coupling,
      if_neg (lane_lt_lane hlt j i).not_gt]
    rfl

/-- What the kernel computes inverts the couplings of the chunk. -/
theorem couplings_mul_solved [IsStrictOrderedRing R] (hs : a.Sound) (hg : Gates g a n h) :
    (1 + couplings (Finset.range a.keyDim) (a.chunkEntry N n h v t) (4 * tile)) *
      flatten (a.solved N g n t h) = 1 := by
  have hblocks : ∀ block : Fin 4, (1 + a.diagonal N g n t h block) * a.solveDiagonal N g n t h block = 1 :=
    fun block => diagonal_mul_solve block.val
  have hmerge := Below.matrix_mul_merge (a.below N g n t h) hblocks
  rw [← flatten_below hs hg]
  exact TriangularInverse.flatten_mul_eq_one hmerge

/-- A column of a row that the kernel stores. -/
theorem mem_solveRow {iTg : Nat} {row col : Fin 4} {i j : Fin tile} {x : R} :
    (tile * col.val + j.val, x) ∈ a.solveRow N g iTg n t h (tile * row.val + i.val) ↔
      col ≤ row ∧ x = a.solved N g n t h row col i j := by
  unfold solveRow
  simp only [List.mem_flatMap, List.mem_finRange, true_and]
  constructor
  · intro hmem
    obtain ⟨row', i', hif⟩ := hmem
    by_cases heq : tile * row.val + i.val = tile * row'.val + i'.val
    · rw [if_pos heq, List.mem_flatMap] at hif
      obtain ⟨col', hcol, hlane⟩ := hif
      obtain ⟨j', _, hpair⟩ := List.mem_map.1 hlane
      have hplace : tile * col'.val + j'.val = tile * col.val + j.val := congrArg Prod.fst hpair
      have hval : a.solved N g n t h row' col' i' j' = x := congrArg Prod.snd hpair
      obtain ⟨rfl, rfl⟩ := lane_inj heq
      obtain ⟨rfl, rfl⟩ := lane_inj hplace
      exact ⟨of_decide_eq_true (List.mem_filter.1 hcol).2, hval.symm⟩
    · rw [if_neg heq] at hif
      cases hif
  · intro hmem
    obtain ⟨hle, hval⟩ := hmem
    refine ⟨row, i, ?_⟩
    rw [if_pos rfl, List.mem_flatMap, hval]
    refine ⟨col, List.mem_filter.2 ⟨List.mem_finRange col, decide_eq_true hle⟩, ?_⟩
    exact List.mem_map.2 ⟨j, List.mem_finRange j, rfl⟩

/-- The inverse in memory; above the diagonal blocks it is the zeros from before the launch. -/
theorem Sound.solved_apply (hs : a.Sound) {ss : List ((Nat × Nat × Nat) × R)}
    (hss : ss.Perm (a.solveStores N g)) (hn : n < a.numSeqs) (hh : h < a.numHeads)
    (r c : Fin (4 * tile)) (hin : a.inside chunkSize n t r = true) :
    storeAll (fun _ => 0) ss (a.bos n + (t * chunkSize + r), h, c.val) =
      flatten (a.solved N g n t h) r c := by
  obtain ⟨⟨row, i⟩, rfl⟩ := finProdFinEquiv.surjective r
  obtain ⟨⟨col, j⟩, rfl⟩ := finProdFinEquiv.surjective c
  have hcol : (finProdFinEquiv (col, j)).val = tile * col.val + j.val := Nat.add_comm _ _
  have hrow : (finProdFinEquiv (row, i)).val = tile * row.val + i.val := Nat.add_comm _ _
  have hlt := lane_lt row.isLt i
  rw [TriangularInverse.flatten_apply, hcol]
  rw [hrow] at hin ⊢
  have hr := of_decide_eq_true hin
  -- above the diagonal blocks nothing is stored and the inverse is zero
  by_cases hle : col ≤ row
  · apply hs.rowStores_apply (by decide) hss hn hr hh
    intro x
    rw [Packed.row_div hlt, Packed.row_mod hlt, mem_solveRow]
    exact and_iff_right hle
  · rw [hs.rowStores_of_not (by decide) hss hn hr, solved_above (not_le.1 hle)]
    · rfl
    · intro x
      rw [Packed.row_div hlt, Packed.row_mod hlt, mem_solveRow]
      exact fun hmem => hle hmem.1

end Couplings

end ChunkArgs

end GatedDelta

end FreeToken
