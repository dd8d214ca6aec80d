import FreeToken.Kernel.ChunkSolve

/-!
# The states between the chunks

What a chunk adds to the state is what its tokens write one after the other, so the kernel of the
states runs through the recurrence sixty-four tokens at a time.
-/

set_option autoImplicit false
set_option linter.unusedSectionVars false

namespace FreeToken

open Blocks (divCeil le_divCeil_mul divCeil_mul_lt)
open GridMemory (storeAll storeAll_apply storeAll_of_ne)
open PagedAttention (load)
open DeltaRule (Entry dot gate couplings written run)

namespace GatedDelta

variable {R : Type} [Field R] [LinearOrder R]

/-- A place in the list of chunks names one chunk. -/
theorem Packed.Sound.offset_inj {p : Packed} {chunk n m t s : Nat} (h : p.Sound) (hchunk : 0 < chunk)
    (hn : n < p.numSeqs) (hm : m < p.numSeqs) (ht : t < divCeil (p.len n) chunk)
    (hs : s < divCeil (p.len m) chunk)
    (heq : p.prepareChunkOffsets chunk n + t = p.prepareChunkOffsets chunk m + s) : n = m ∧ t = s := by
  have hmem₁ := List.mem_zipIdx_iff_getElem?.1 ((h.mem_programs hchunk).2 ⟨hn, ht, rfl⟩)
  have hmem₂ := List.mem_zipIdx_iff_getElem?.1 ((h.mem_programs hchunk).2 ⟨hm, hs, rfl⟩)
  have hsame : some (n, t) = some (m, s) := by
    rw [← hmem₁, ← hmem₂]
    exact congrArg _ heq
  cases hsame
  exact ⟨rfl, rfl⟩

namespace ChunkArgs

variable {a : ChunkArgs R} {N : Arith R} {n h v t : Nat}

/-! ## The columns of the key -/

/-- Up to four pieces cover a sum that is zero behind the dimension. -/
theorem pieces_sum (hdim : a.keyDim ≤ 256) {f : Nat → R} (hf : ∀ d, a.keyDim ≤ d → f d = 0) :
    (a.pieces.map fun o => ∑ c ∈ Finset.range 64, f (o + c)).sum =
      ∑ d ∈ Finset.range a.keyDim, f d := by
  have hpieces : ∀ (offsets : List Nat) {count : Nat}, a.pieces = offsets →
      (offsets.map fun o => ∑ c ∈ Finset.range 64, f (o + c)).sum = ∑ d ∈ Finset.range count, f d →
        a.keyDim ≤ count → (a.pieces.map fun o => ∑ c ∈ Finset.range 64, f (o + c)).sum =
          ∑ d ∈ Finset.range a.keyDim, f d := by
    intro offsets count hoffsets hsum hle
    rw [hoffsets, hsum]
    exact Finset.eventually_constant_sum hf hle
  -- by the number of pieces
  by_cases h64 : a.keyDim ≤ 64
  · apply hpieces [0] _ _ h64
    · simp [pieces, show ¬ 64 < a.keyDim by omega, show ¬ 128 < a.keyDim by omega,
        show ¬ 192 < a.keyDim by omega]
    · simp
  by_cases h128 : a.keyDim ≤ 128
  · apply hpieces [0, 64] _ _ h128
    · simp [pieces, show 64 < a.keyDim by omega, show ¬ 128 < a.keyDim by omega,
        show ¬ 192 < a.keyDim by omega]
    · rw [Finset.sum_range_add f 64 64]
      simp
  by_cases h192 : a.keyDim ≤ 192
  · apply hpieces [0, 64, 128] _ _ h192
    · simp [pieces, show 64 < a.keyDim by omega, show 128 < a.keyDim by omega,
        show ¬ 192 < a.keyDim by omega]
    · rw [Finset.sum_range_add f 128 64, Finset.sum_range_add f 64 64]
      simp [add_assoc]
  · apply hpieces [0, 64, 128, 192] _ _ hdim
    · simp [pieces, show 64 < a.keyDim by omega, show 128 < a.keyDim by omega,
        show 192 < a.keyDim by omega]
    · rw [Finset.sum_range_add f 192 64, Finset.sum_range_add f 128 64, Finset.sum_range_add f 64 64]
      simp [add_assoc]

theorem mem_stateCols (hdim : a.keyDim ≤ 256) {d : Nat} : d ∈ a.stateCols ↔ d < a.keyDim := by
  unfold stateCols pieces
  simp only [List.mem_flatMap, List.mem_filter, List.mem_map, List.mem_range, List.mem_cons,
    List.not_mem_nil, or_false, Bool.or_eq_true, decide_eq_true_eq]
  constructor
  · intro hmem
    obtain ⟨o, _, c, hc, heq⟩ := hmem
    omega
  · intro hd
    refine ⟨d / 64 * 64, ⟨?_, ?_⟩, d % 64, ⟨?_, ?_⟩, ?_⟩ <;> omega

/-! ## What the tokens of a chunk write -/

/-- The inverse, as a grid left it. -/
structure Inverse (A : Nat × Nat × Nat → R) (a : ChunkArgs R) (N : Arith R) (n h t : Nat) where
  inv : Matrix (Fin (4 * tile)) (Fin (4 * tile)) R
  apply : ∀ r c : Fin (4 * tile), a.inside chunkSize n t r = true →
    A (a.bos n + (t * chunkSize + r), h, c.val) = inv r c
  mul : ∀ v, (1 + couplings (Finset.range a.keyDim) (a.chunkEntry N n h v t) (4 * tile)) * inv = 1

def Sound.inverse [IsStrictOrderedRing R] (hs : a.Sound) {g : Nat × Nat × Unit → R}
    (hg : Gates g a n h) {ss : List ((Nat × Nat × Nat) × R)} (hss : ss.Perm (a.solveStores N g))
    (hn : n < a.numSeqs) (hh : h < a.numHeads) (t : Nat) :
    Inverse (storeAll (fun _ => 0) ss) a N n h t where
  inv := TriangularInverse.flatten (a.solved N g n t h)
  apply r c hin := hs.solved_apply hss hn hh r c hin
  mul _ := couplings_mul_solved hs hg

section Written

variable {g : Nat × Nat × Unit → R} {A : Nat × Nat × Nat → R}

theorem Inverse.load (P : Inverse A a N n h t) {i : Fin (4 * tile)}
    (hin : a.inside chunkSize n t i = true) (c : Fin (4 * tile)) :
    a.solvedLoad A n t h i c = P.inv i c := by
  unfold solvedLoad
  rw [rowLoad_inside hin]
  exact P.apply i c hin

theorem Inverse.uRow_eq (P : Inverse A a N n h t) {i : Fin (4 * tile)}
    (hin : a.inside chunkSize n t i = true) (hv : v < a.valueDim) :
    a.uRow A n t h i v = ∑ c, P.inv i c *
      ((a.chunkEntry N n h v t c).value * (a.chunkEntry N n h v t c).beta) := by
  unfold uRow
  rw [Finset.sum_range]
  apply Finset.sum_congr rfl
  intro c _
  rw [colLoad_value (N := N) hv, rowLoad_beta (N := N) (v := v)]
  exact congrArg (· * _) (P.load hin c)

theorem Inverse.wRow_eq (P : Inverse A a N n h t) (hg : Gates g a n h) {i : Fin (4 * tile)}
    (hin : a.inside chunkSize n t i = true) {d : Nat} (hd : d < a.keyDim) :
    a.wRow N g A n t h i d = ∑ c, P.inv i c * ((a.chunkEntry N n h v t c).key d *
      (a.chunkEntry N n h v t c).beta * gate (a.chunkEntry N n h v t) 0 (c + 1)) := by
  unfold wRow
  rw [Finset.sum_range]
  apply Finset.sum_congr rfl
  intro c _
  rw [colLoad_key (N := N) (v := v) hd, rowLoad_beta (N := N) (v := v)]
  have hload : a.solvedLoad A n t h i c = P.inv i c := P.load hin c
  cases hc : a.inside chunkSize n t c with
  | true =>
      rw [← hg.exp_rowLoad c.isLt hc]
      exact congrArg (· * _) hload
  | false =>
      rw [chunkEntry_outside hc]
      simp only [zero_mul, mul_zero]

/-- The columns of `w` and `u`, as the grid left them. -/
structure Columns (wu : Nat × Nat × WuCol → R) (g : Nat × Nat × Unit → R) (A : Nat × Nat × Nat → R)
    (a : ChunkArgs R) (N : Arith R) (n h : Nat) : Prop where
  w : ∀ t i d, i < chunkSize → a.inside chunkSize n t i = true → d < a.keyDim →
    wu (a.bos n + (t * chunkSize + i), h, .w d) = a.wRow N g A n t h i d
  u : ∀ t i v, i < chunkSize → a.inside chunkSize n t i = true → v < a.valueDim →
    wu (a.bos n + (t * chunkSize + i), h, .u v) = a.uRow A n t h i v

theorem Sound.columns (hs : a.Sound) {ss : List ((Nat × Nat × WuCol) × R)}
    (hss : ss.Perm (a.wuStores N g A)) (hn : n < a.numSeqs) (hh : h < a.numHeads)
    (mem : Nat × Nat × WuCol → R) : Columns (storeAll mem ss) g A a N n h where
  w t i d hi hin hd := by
    apply hs.rowStores_apply (by decide) hss hn (of_decide_eq_true hin) hh
    intro x
    rw [Packed.row_div hi, Packed.row_mod hi]
    simp [wuRow, mem_tiled, hd, eq_comm]
  u t i v hi hin hv := by
    apply hs.rowStores_apply (by decide) hss hn (of_decide_eq_true hin) hh
    intro x
    rw [Packed.row_div hi, Packed.row_mod hi]
    simp [wuRow, mem_tiled, hv, eq_comm]

variable {wu : Nat × Nat × WuCol → R}

theorem written_outside (S : Nat → R) {i : Nat} (hout : a.inside chunkSize n t i = false) :
    written (Finset.range a.keyDim) S (a.chunkEntry N n h v t) i = 0 := by
  unfold written DeltaRule.delta
  rw [chunkEntry_outside hout]
  exact mul_zero _

/-- `v_new` is what the tokens of the chunk write. -/
theorem newValue_eq (hs : a.Sound) (hg : Gates g a n h) (P : Inverse A a N n h t)
    (hwu : Columns wu g A a N n h) (hv : v < a.valueDim) (S : Nat → R) {i : Nat} (hi : i < chunkSize) :
    a.newValue wu n h v t S i = written (Finset.range a.keyDim) S (a.chunkEntry N n h v t) i := by
  unfold newValue
  rw [pieces_sum (f := fun d =>
    (a.colLoad n t i a.keyDim d fun tok d => wu (tok, h, .w d)) * S d) hs.keyDim
      fun d hd => by rw [colLoad_of_le hd, zero_mul]]
  cases hin : a.inside chunkSize n t i with
  | true =>
      have hu : (a.colLoad n t i a.valueDim v fun tok v => wu (tok, h, .u v)) = a.uRow A n t h i v := by
        rw [colLoad_inside hin hv, hwu.u t i v hi hin hv]
      have hw : ∑ d ∈ Finset.range a.keyDim,
          (a.colLoad n t i a.keyDim d fun tok d => wu (tok, h, .w d)) * S d =
            dot (Finset.range a.keyDim) (fun d => a.wRow N g A n t h i d) S := by
        apply Finset.sum_congr rfl
        intro d hd
        have hlt := Finset.mem_range.1 hd
        rw [colLoad_inside hin hlt, hwu.w t i d hi hin hlt]
      have hblock := DeltaRule.written_block S (a.chunkEntry N n h v t) (P.mul v) ⟨i, hi⟩
      have hin' : a.inside chunkSize n t (⟨i, hi⟩ : Fin (4 * tile)).val = true := hin
      rw [hu, hw, ← hblock.symm, P.uRow_eq hin' hv]
      congr 1
      apply Finset.sum_congr rfl
      intro d hd
      exact congrArg (· * _) (P.wRow_eq hg hin' (Finset.mem_range.1 hd))
  | false =>
      -- a row behind the end loads zeros
      have hzero : ∀ (dim d : Nat) (x : Nat → Nat → R), a.colLoad n t i dim d x = 0 := by
        intro dim d x
        unfold colLoad load
        rw [hin]
        rfl
      simp only [hzero, zero_mul, Finset.sum_const_zero, sub_zero, written_outside S hin]

end Written

/-! ## A chunk after the other -/

/-- The tokens of a chunk. -/
def chunkLen (a : ChunkArgs R) (n t : Nat) : Nat := min chunkSize (a.len n - t * chunkSize)

theorem inside_iff {i : Nat} (hi : i < chunkSize) :
    a.inside chunkSize n t i = true ↔ i < a.chunkLen n t := by
  unfold Packed.inside chunkLen
  rw [decide_eq_true_eq]
  omega

section States

variable {g : Nat × Nat × Unit → R} {A : Nat × Nat × Nat → R} {wu : Nat × Nat × WuCol → R}

theorem gateLast_eq (ht : t * chunkSize < a.len n) :
    a.gateLast g n h t = a.rowLoad n t (a.chunkLen n t - 1) fun tok => g (tok, h, ()) := by
  have hpos : 0 < a.chunkLen n t := by
    have hchunk : 0 < chunkSize := by decide
    unfold chunkLen
    omega
  have hle : a.chunkLen n t ≤ chunkSize := min_le_left _ _
  have hlast : min ((t + 1) * chunkSize) (a.len n) - 1 = t * chunkSize + (a.chunkLen n t - 1) := by
    unfold chunkLen at hpos ⊢
    rw [Nat.succ_mul]
    omega
  have hin : a.inside chunkSize n t (a.chunkLen n t - 1) = true := (inside_iff (by omega)).2 (by omega)
  rw [rowLoad_inside hin, gateLast, hlast]

/-- The tokens of the chunk take the state on. -/
theorem chunkStep_eq [IsStrictOrderedRing R] (hs : a.Sound) (hg : Gates g a n h)
    (P : Inverse A a N n h t) (hwu : Columns wu g A a N n h) (hv : v < a.valueDim)
    (ht : t * chunkSize < a.len n) (S : Nat → R) {d : Nat} (hd : d < a.keyDim) :
    a.chunkStep N g wu n h v S t d =
      run (Finset.range a.keyDim) S (a.chunkEntry N n h v t) (a.chunkLen n t) d := by
  have hchunk : 0 < chunkSize := by decide
  have hpos : 0 < a.chunkLen n t := by
    unfold chunkLen
    omega
  have hle : a.chunkLen n t ≤ chunkSize := min_le_left _ _
  have hlast : a.chunkLen n t - 1 < chunkSize := by omega
  have hin : a.inside chunkSize n t (a.chunkLen n t - 1) = true := (inside_iff hlast).2 (by omega)
  have hsucc : a.chunkLen n t - 1 + 1 = a.chunkLen n t := Nat.sub_add_cancel hpos
  have hkey : ∀ i ≥ a.chunkLen n t, i < chunkSize → (a.chunkEntry N n h v t i).key d = 0 := by
    intro i hge hi
    have hout : a.inside chunkSize n t i = false :=
      Bool.eq_false_iff.2 fun h => absurd ((inside_iff hi).1 h) (not_lt.2 hge)
    rw [chunkEntry_outside hout]
  unfold chunkStep
  -- what a token writes decays up to the chunk's last token
  rw [DeltaRule.run_eq, gateLast_eq ht, hg.exp_rowLoad (v := v) hlast hin, hsucc, mul_comm (S d)]
  congr 1
  symm
  apply Finset.sum_subset_zero_on_sdiff (Finset.range_subset_range.2 hle)
  · intro i hi
    obtain ⟨hlt, hge⟩ := Finset.mem_sdiff.1 hi
    rw [colLoad_key (N := N) (v := v) hd, hkey i (not_lt.1 fun h => hge (Finset.mem_range.2 h))
      (Finset.mem_range.1 hlt), zero_mul]
  · intro i hi
    have hlt := Finset.mem_range.1 hi
    rw [colLoad_key (N := N) (v := v) hd, newValue_eq hs hg P hwu hv S (hlt.trans_le hle),
      hg.safeExp_sub (v := v) hs hlast (by omega) hin, hsucc]
    ring

/-- The state before a chunk is that of the recurrence after the tokens before it. -/
theorem chunkState_eq [IsStrictOrderedRing R] (hs : a.Sound) (hg : Gates g a n h)
    (P : ∀ t, Inverse A a N n h t) (hwu : Columns wu g A a N n h) (hv : v < a.valueDim)
    (mem : HAddr → R) (ht : t ≤ divCeil (a.len n) chunkSize) :
    ∀ d < a.keyDim, a.chunkState N g wu n h v mem t d =
      run (Finset.range a.keyDim) (fun d => mem (.state (a.indices n) h v d)) (a.entry N n h v)
        (min (t * chunkSize) (a.len n)) d := by
  induction t with
  | zero =>
      intro d hd
      rw [Nat.zero_mul, Nat.zero_min]
      show a.loadState n h v mem d = _
      unfold loadState load
      rw [decide_eq_true hv, decide_eq_true hd]
      rfl
  | succ t ih =>
      intro d hd
      -- a chunk with another one behind it is full
      have hfull : t * chunkSize < a.len n := by
        have hceil := divCeil_mul_lt (a.len n) (show 0 < chunkSize by decide)
        have hmul := Nat.mul_le_mul_right chunkSize ht
        rw [Nat.succ_mul] at hmul
        omega
      have hprev := ih (by omega)
      rw [min_eq_left hfull.le] at hprev
      have hend : min ((t + 1) * chunkSize) (a.len n) = t * chunkSize + a.chunkLen n t := by
        unfold chunkLen
        rw [Nat.succ_mul]
        omega
      have hstep : a.chunkState N g wu n h v mem (t + 1) d =
          a.chunkStep N g wu n h v (a.chunkState N g wu n h v mem t) t d := by
        unfold chunkState
        rw [List.range_succ, List.foldl_append]
        rfl
      rw [hstep, chunkStep_eq hs hg (P t) hwu hv hfull _ hd, hend, DeltaRule.run_add]
      apply DeltaRule.run_congr
      · intro d hd
        exact hprev d (Finset.mem_range.1 hd)
      · intro i hi
        have hin : a.inside chunkSize n t i = true :=
          (inside_iff (hi.trans_le (min_le_left _ _))).2 hi
        rw [chunkEntry_inside hin]
        exact ⟨fun _ _ => rfl, rfl, rfl, rfl⟩
      · exact Finset.mem_range.2 hd

/-! ## The launch -/

theorem mem_stateRow (hdim : a.keyDim ≤ 256) {mem : HAddr → R} {s : HAddr × R} :
    s ∈ a.stateRow N g wu n h v mem ↔
      (∃ t < divCeil (a.len n) chunkSize,
        (∃ d < a.keyDim, s = (.h (a.prepareChunkOffsets chunkSize n + t) h v d,
          a.chunkState N g wu n h v mem t d)) ∨
        ∃ i < chunkSize, a.inside chunkSize n t i = true ∧
          s = (.vNew (a.bos n + (t * chunkSize + i)) h v,
            a.newValue wu n h v t (a.chunkState N g wu n h v mem t) i)) ∨
      ∃ d < a.keyDim, s = (.state (a.indices n) h v d,
        a.chunkState N g wu n h v mem (divCeil (a.len n) chunkSize) d) := by
  unfold stateRow
  simp only [List.mem_append, List.mem_flatMap, List.mem_map, List.mem_filter, List.mem_range,
    mem_stateCols hdim, and_assoc, eq_comm (a := s)]

theorem mem_allStores (hs : a.Sound) {mem : HAddr → R} {s : HAddr × R} :
    s ∈ (a.stateLaunch N g wu).allStores mem ↔
      ∃ n < a.numSeqs, ∃ h < a.numHeads, ∃ v < a.valueDim, s ∈ a.stateRow N g wu n h v mem :=
  Packed.mem_tileRows hs.blockV fun n h v => a.stateRow N g wu n h v mem

/-- The states that a program reads: those of its sequence, head and tile of values. -/
def ReadsState (a : ChunkArgs R) (prog : Nat × Nat × Nat) : HAddr → Prop
  | .state slot h v _ => slot = a.indices prog.2.1 ∧ h = prog.2.2 ∧ v / a.blockV = prog.1
  | _ => False

theorem stateRow_congr {mem mem' : HAddr → R}
    (hsame : ∀ d, mem (.state (a.indices n) h v d) = mem' (.state (a.indices n) h v d)) :
    a.stateRow N g wu n h v mem = a.stateRow N g wu n h v mem' := by
  have hload : a.loadState n h v mem = a.loadState n h v mem' := by
    ext d
    unfold loadState
    rw [hsame]
  have hstate : ∀ t, a.chunkState N g wu n h v mem t = a.chunkState N g wu n h v mem' t := by
    intro t
    unfold chunkState
    rw [hload]
  unfold stateRow
  simp only [hstate]

/-- No program writes a state that another one reads. -/
theorem Sound.stateLaunch_apart (hs : a.Sound) : (a.stateLaunch N g wu).Apart a.ReadsState where
  agree p mem mem' hsame := by
    show a.stateProgram N g wu p mem = a.stateProgram N g wu p mem'
    unfold stateProgram
    apply List.flatMap_congr
    intro r hr
    obtain ⟨hlane, _⟩ := List.mem_filter.1 hr
    apply stateRow_congr
    intro d
    apply hsame
    exact ⟨rfl, rfl, Packed.row_div (List.mem_range.1 hlane)⟩
  apart p hp p' hp' hne mem s hmem hreads := by
    have hn' := (Packed.mem_tilePrograms.1 hp').2.1
    have hn := (Packed.mem_tilePrograms.1 hp).2.1
    obtain ⟨r, hr, hrow⟩ := List.mem_flatMap.1 hmem
    obtain ⟨hlane, _⟩ := List.mem_filter.1 hr
    rcases (mem_stateRow hs.keyDim).1 hrow with ⟨t, _, ⟨d, _, rfl⟩ | ⟨i, _, _, rfl⟩⟩ | ⟨d, _, rfl⟩
    · exact hreads
    · exact hreads
    · obtain ⟨hslot, hhead, hrows⟩ := hreads
      have hseq := hs.slots _ hn' _ hn hslot
      rw [Packed.row_div (List.mem_range.1 hlane)] at hrows
      exact hne (Prod.ext hrows (Prod.ext hseq hhead))

section Final

variable {mem : HAddr → R} (r : (a.stateLaunch N g wu).Run mem)

include r

theorem Sound.final_state (hs : a.Sound) (hn : n < a.numSeqs) (hh : h < a.numHeads)
    (hv : v < a.valueDim) {d : Nat} (hd : d < a.keyDim) :
    r.final (.state (a.indices n) h v d) =
      a.chunkState N g wu n h v mem (divCeil (a.len n) chunkSize) d := by
  apply r.final_apply hs.stateLaunch_apart
  · exact (mem_allStores hs).2 ⟨n, hn, h, hh, v, hv,
      (mem_stateRow hs.keyDim).2 (Or.inr ⟨d, hd, rfl⟩)⟩
  · intro s hmem haddr
    obtain ⟨n', hn', h', _, v', _, hrow⟩ := (mem_allStores hs).1 hmem
    rcases (mem_stateRow hs.keyDim).1 hrow with ⟨t, _, ⟨d', _, rfl⟩ | ⟨i, _, _, rfl⟩⟩ | ⟨d', _, rfl⟩
    · cases haddr
    · cases haddr
    · injection haddr with hslot hhead hrow hcol
      have hseq := hs.slots n' hn' n hn hslot
      rw [hseq, hhead, hrow, hcol]

theorem Sound.final_h (hs : a.Sound) (hn : n < a.numSeqs) (hh : h < a.numHeads)
    (hv : v < a.valueDim) {d : Nat} (hd : d < a.keyDim) (ht : t < divCeil (a.len n) chunkSize) :
    r.final (.h (a.prepareChunkOffsets chunkSize n + t) h v d) =
      a.chunkState N g wu n h v mem t d := by
  apply r.final_apply hs.stateLaunch_apart
  · exact (mem_allStores hs).2 ⟨n, hn, h, hh, v, hv,
      (mem_stateRow hs.keyDim).2 (Or.inl ⟨t, ht, Or.inl ⟨d, hd, rfl⟩⟩)⟩
  · intro s hmem haddr
    obtain ⟨n', hn', h', _, v', _, hrow⟩ := (mem_allStores hs).1 hmem
    rcases (mem_stateRow hs.keyDim).1 hrow with ⟨t', ht', ⟨d', _, rfl⟩ | ⟨i, _, _, rfl⟩⟩ | ⟨d', _, rfl⟩
    · injection haddr with hchunk hhead hrow hcol
      obtain ⟨rfl, rfl⟩ := hs.offset_inj (by decide) hn' hn ht' ht hchunk
      rw [hhead, hrow, hcol]
    · cases haddr
    · cases haddr

theorem Sound.final_vNew (hs : a.Sound) (hn : n < a.numSeqs) (hh : h < a.numHeads)
    (hv : v < a.valueDim) {i : Nat} (hi : i < chunkSize) (hin : a.inside chunkSize n t i = true)
    (ht : t < divCeil (a.len n) chunkSize) :
    r.final (.vNew (a.bos n + (t * chunkSize + i)) h v) =
      a.newValue wu n h v t (a.chunkState N g wu n h v mem t) i := by
  apply r.final_apply hs.stateLaunch_apart
  · exact (mem_allStores hs).2 ⟨n, hn, h, hh, v, hv,
      (mem_stateRow hs.keyDim).2 (Or.inl ⟨t, ht, Or.inr ⟨i, hi, hin, rfl⟩⟩)⟩
  · intro s hmem haddr
    obtain ⟨n', hn', h', _, v', _, hrow⟩ := (mem_allStores hs).1 hmem
    rcases (mem_stateRow hs.keyDim).1 hrow with ⟨t', _, ⟨d', _, rfl⟩ | ⟨i', hi', hin', rfl⟩⟩ | ⟨d', _, rfl⟩
    · cases haddr
    · injection haddr with hplace hhead hrow
      obtain ⟨rfl, hrows⟩ := hs.place_inj hn' hn (of_decide_eq_true hin') (of_decide_eq_true hin) hplace
      have ht' : t' = t := by
        have hdiv := congrArg (· / chunkSize) hrows
        rwa [Packed.row_div hi', Packed.row_div hi] at hdiv
      have hi'' : i' = i := by
        have hmod := congrArg (· % chunkSize) hrows
        rwa [Packed.row_mod hi', Packed.row_mod hi] at hmod
      rw [ht', hi'', hhead, hrow]
    · cases haddr

/-- A slot of no sequence keeps its state. -/
theorem Sound.final_other (hs : a.Sound) {slot : Nat} (hslot : ∀ n < a.numSeqs, a.indices n ≠ slot)
    (h v d : Nat) : r.final (.state slot h v d) = mem (.state slot h v d) := by
  apply r.final_of_ne hs.stateLaunch_apart
  intro s hmem haddr
  obtain ⟨n', hn', h', _, v', _, hrow⟩ := (mem_allStores hs).1 hmem
  rcases (mem_stateRow hs.keyDim).1 hrow with ⟨t, _, ⟨d', _, rfl⟩ | ⟨i, _, _, rfl⟩⟩ | ⟨d', _, rfl⟩
  · cases haddr
  · cases haddr
  · injection haddr with hsame
    exact hslot n' hn' hsame

end Final

end States

end ChunkArgs

end GatedDelta

end FreeToken
