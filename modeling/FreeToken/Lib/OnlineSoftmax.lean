import FreeToken.Lib.Blocks
import Mathlib

/-!
# Softmax over tiles of keys

A lane keeps the greatest score so far and, relative to it, the total weight and the weighted values of
the keys so far.  The numbers are those of any ordered field with an exponential and a logarithm;
where a machine would compute a value that is no number, there is none here.
-/

set_option autoImplicit false

namespace OnlineSoftmax

/-- The exponential and the logarithm of the numbers. -/
structure ExpLog (K : Type) [Field K] [LinearOrder K] where
  exp : K → K
  log : K → K
  exp_pos : ∀ x, 0 < exp x
  exp_add : ∀ x y, exp (x + y) = exp x * exp y
  exp_log : ∀ x, 0 < x → exp (log x) = x

noncomputable def ExpLog.real : ExpLog ℝ where
  exp := Real.exp
  log := Real.log
  exp_pos := Real.exp_pos
  exp_add := Real.exp_add
  exp_log _ := Real.exp_log

/-- A score; none is minus infinity. -/
abbrev Score (K : Type) := Option K

variable {K : Type} [Field K] [LinearOrder K] (E : ExpLog K)

namespace Score

def max : Score K → Score K → Score K
  | none, s => s
  | s, none => s
  | some a, some b => some (Max.max a b)

/-- The greatest score of a tile. -/
def greatest (scores : List (Score K)) : Score K := scores.foldl max none

/-- The weight of a key with the score. -/
def weight : Score K → K
  | none => 0
  | some s => E.exp s

/-- `exp(s - top)`, where that is a number. -/
def relative : Score K → Score K → Option K
  | _, none => none
  | none, some _ => some 0
  | some s, some top => some (E.exp (s - top))

@[simp] theorem weight_none : weight E none = 0 := rfl

@[simp] theorem weight_some (s : K) : weight E (some s) = E.exp s := rfl

omit [Field K] in
theorem max_some (s : Score K) (b : K) : ∃ top, max s (some b) = some top := by
  cases s with
  | none => exact ⟨b, rfl⟩
  | some a => exact ⟨Max.max a b, rfl⟩

omit [Field K] in
theorem max_some_left (a : K) (s : Score K) : ∃ top, max (some a) s = some top := by
  cases s with
  | none => exact ⟨a, rfl⟩
  | some b => exact ⟨Max.max a b, rfl⟩

theorem exp_sub (s top : K) : E.exp (s - top) * E.exp top = E.exp s := by
  rw [← E.exp_add, sub_add_cancel]

/-- The relative weight, and what it stands for. -/
theorem relative_some (s : Score K) (top : K) :
    ∃ p, relative E s (some top) = some p ∧ p * E.exp top = weight E s := by
  cases s with
  | none => exact ⟨0, rfl, zero_mul _⟩
  | some a => exact ⟨E.exp (a - top), rfl, exp_sub E a top⟩

end Score

/-- A tile: the score of each key, and its value column by column. -/
abbrev Tile (K : Type) := List (Score K × (Nat → K))

namespace Tile

def weight (tile : Tile K) : K := (tile.map fun key => key.1.weight E).sum

def blend (tile : Tile K) (d : Nat) : K := (tile.map fun key => key.1.weight E * key.2 d).sum

end Tile

/-- `m_i`, `l_i` and `acc`. -/
structure Lane (K : Type) where
  m : Score K
  l : K
  acc : Nat → K

namespace Lane

/-- Take in a tile, relative to a new greatest score. -/
def rescale (st : Lane K) (mNew : Score K) (tile : Tile K) : Option (Lane K) := do
  let alpha ← Score.relative E st.m mNew
  let p ← tile.mapM fun key => Score.relative E key.1 mNew
  return {
    m := mNew
    l := st.l * alpha + p.sum
    acc := fun d => st.acc d * alpha + ((p.zip tile).map fun key => key.1 * key.2.2 d).sum }

/-- `acc / l`, zero where nothing was taken in. -/
def out (st : Lane K) (d : Nat) : K := if st.l = 0 then 0 else st.acc d / st.l

/-- `acc / l` and `m + log(l)`, where these are numbers. -/
def partialOut (st : Lane K) : Option ((Nat → K) × K) :=
  match st.m with
  | none => none
  | some m => if 0 < st.l then some (fun d => st.acc d / st.l, m + E.log st.l) else none

/-- The lane holds this total weight and these weighted values. -/
structure Holds (W : K) (A : Nat → K) (st : Lane K) : Prop where
  weight : st.l * st.m.weight E = W
  blend : ∀ d, st.acc d * st.m.weight E = A d
  empty : st.m = none → st.l = 0

variable {E} {W : K} {A : Nat → K} {st : Lane K}

theorem holds_start : Holds E 0 (fun _ => 0) ⟨none, 0, fun _ => 0⟩ :=
  ⟨zero_mul _, fun _ => zero_mul _, fun _ => rfl⟩

theorem holds_sink (sink : K) : Holds E (E.exp sink) (fun _ => 0) ⟨some sink, 1, fun _ => 0⟩ :=
  ⟨one_mul _, fun _ => zero_mul _, fun h => by cases h⟩

/-- The relative weights of a tile, and what they stand for. -/
theorem mapM_relative (top : K) (tile : Tile K) :
    ∃ p, tile.mapM (fun key => Score.relative E key.1 (some top)) = some p ∧
      p.sum * E.exp top = tile.weight E ∧
      ∀ d, ((p.zip tile).map fun key => key.1 * key.2.2 d).sum * E.exp top = tile.blend E d := by
  induction tile with
  | nil => exact ⟨[], rfl, zero_mul _, fun _ => zero_mul _⟩
  | cons key tile ih =>
      obtain ⟨ps, hps, hsum, hblend⟩ := ih
      obtain ⟨p, hp, hweight⟩ := Score.relative_some E key.1 top
      refine ⟨p :: ps, ?_, ?_, fun d => ?_⟩
      · rw [List.mapM_cons, hp, hps]
        rfl
      · rw [List.sum_cons, add_mul, hweight, hsum]
        rfl
      · rw [List.zip_cons_cons, List.map_cons, List.sum_cons, add_mul, hblend, mul_right_comm, hweight]
        rfl

theorem Holds.takes (h : Holds E W A st) (top : K) (tile : Tile K) :
    ∃ st', st.rescale E (some top) tile = some st' ∧
      Holds E (W + tile.weight E) (fun d => A d + tile.blend E d) st' := by
  obtain ⟨alpha, halpha, hscale⟩ := Score.relative_some E st.m top
  obtain ⟨p, hp, hsum, hblend⟩ := mapM_relative (E := E) top tile
  refine ⟨⟨some top, st.l * alpha + p.sum,
    fun d => st.acc d * alpha + ((p.zip tile).map fun key => key.1 * key.2.2 d).sum⟩, ?_, ?_, ?_, ?_⟩
  · rw [rescale, halpha, Option.bind_eq_bind, Option.bind_some, hp]
    rfl
  · rw [Score.weight_some, add_mul, mul_assoc, hscale, h.weight, hsum]
  · intro d
    rw [Score.weight_some, add_mul, mul_assoc, hscale, h.blend, hblend]
  · intro hnone
    cases hnone

/-- What is read out at the end. -/
theorem Holds.out_eq (h : Holds E W A st) (d : Nat) : st.out d = A d / W := by
  unfold out
  split
  · rename_i hzero
    rw [← h.weight, hzero, zero_mul, div_zero]
  · rename_i hne
    cases hm : st.m with
    | none => exact absurd (h.empty hm) hne
    | some top =>
        rw [← h.weight, ← h.blend, hm, Score.weight_some]
        exact (mul_div_mul_right _ _ (E.exp_pos top).ne').symm

/-- A lane that took in some weight can be handed on as one key. -/
theorem Holds.partialOut_eq [IsStrictOrderedRing K] (h : Holds E W A st) (hpos : 0 < W) :
    ∃ o lse, st.partialOut E = some (o, lse) ∧ E.exp lse = W ∧ ∀ d, E.exp lse * o d = A d := by
  cases hm : st.m with
  | none =>
      rw [← h.weight, h.empty hm, zero_mul] at hpos
      exact absurd hpos (lt_irrefl 0)
  | some top =>
      have hweight : st.l * E.exp top = W := by
        rw [← h.weight, hm]
        rfl
      have hl : 0 < st.l := by
        rw [← hweight] at hpos
        exact (mul_pos_iff_of_pos_right (E.exp_pos top)).1 hpos
      have hexp : E.exp (top + E.log st.l) = W := by
        rw [E.exp_add, E.exp_log _ hl, mul_comm, hweight]
      refine ⟨fun d => st.acc d / st.l, top + E.log st.l, ?_, hexp, fun d => ?_⟩
      · unfold partialOut
        rw [hm]
        exact if_pos hl
      · have hblend : st.acc d * E.exp top = A d := by
          rw [← h.blend, hm]
          rfl
        rw [hexp, ← hweight, ← hblend, mul_right_comm, mul_div_cancel₀ _ hl.ne']

end Lane

/-! ## Keys by position -/

/-- The tile of the keys from a position on. -/
def Tile.at (keys : Nat → Score K × (Nat → K)) (block start : Nat) : Tile K :=
  (List.range block).map fun i => keys (start + i)

/-- `range(lo, hi, block)` -/
def starts (lo hi block : Nat) : List Nat :=
  (List.range (Blocks.divCeil (hi - lo) block)).map fun t => lo + t * block

/-- Take in the tiles from `lo` to `hi`, except those that are skipped. -/
def Lane.sweep (step : Lane K → Tile K → Option (Lane K)) (keys : Nat → Score K × (Nat → K))
    (skip : Nat → Bool) (block lo hi : Nat) (st : Lane K) : Option (Lane K) :=
  (starts lo hi block).foldlM
    (fun st start => if skip start then some st else step st (Tile.at keys block start)) st

section Sweep

variable {E} {keys : Nat → Score K × (Nat → K)} {block lo hi : Nat}

theorem Tile.weight_at (keys : Nat → Score K × (Nat → K)) (block start : Nat) :
    (Tile.at keys block start).weight E =
      ∑ i ∈ Finset.range block, (keys (start + i)).1.weight E := by
  rw [Tile.weight, Tile.at, List.map_map]
  rfl

theorem Tile.blend_at (keys : Nat → Score K × (Nat → K)) (block start d : Nat) :
    (Tile.at keys block start).blend E d =
      ∑ i ∈ Finset.range block, (keys (start + i)).1.weight E * (keys (start + i)).2 d := by
  rw [Tile.blend, Tile.at, List.map_map]
  rfl

theorem lt_of_mem_starts {start : Nat} (hblock : 0 < block) (h : start ∈ starts lo hi block) :
    lo ≤ start ∧ start < hi := by
  obtain ⟨t, ht, rfl⟩ := List.mem_map.1 h
  have hlt := List.mem_range.1 ht
  have hceil := Blocks.divCeil_mul_lt (hi - lo) hblock
  have hmul : (t + 1) * block ≤ Blocks.divCeil (hi - lo) block * block := Nat.mul_le_mul_right block hlt
  rw [Nat.add_mul, Nat.one_mul] at hmul
  omega

variable {step : Lane K → Tile K → Option (Lane K)} {skip : Nat → Bool}

/-- A step takes in the tile at a start, whatever the lane holds. -/
def TakesIn (E : ExpLog K) (step : Lane K → Tile K → Option (Lane K)) (tile : Tile K) : Prop :=
  ∀ st W A, Lane.Holds E W A st → ∃ st', step st tile = some st' ∧
    Lane.Holds E (W + tile.weight E) (fun d => A d + tile.blend E d) st'

theorem Tile.at_hidden {start : Nat} (h : ∀ i < block, (keys (start + i)).1 = none) :
    (Tile.at keys block start).weight E = 0 ∧ ∀ d, (Tile.at keys block start).blend E d = 0 := by
  constructor
  · rw [Tile.weight_at]
    apply Finset.sum_eq_zero
    intro i hi
    rw [h i (Finset.mem_range.1 hi), Score.weight_none]
  · intro d
    rw [Tile.blend_at]
    apply Finset.sum_eq_zero
    intro i hi
    rw [h i (Finset.mem_range.1 hi), Score.weight_none, zero_mul]

/-- Tile after tile, up to the end of a tile. -/
theorem Lane.foldlM_holds (count : Nat)
    (hskip : ∀ t < count, skip (lo + t * block) = true →
      ∀ i < block, (keys (lo + t * block + i)).1 = none)
    (hstep : ∀ t < count, skip (lo + t * block) = false →
      TakesIn E step (Tile.at keys block (lo + t * block)))
    {W : K} {A : Nat → K} {st : Lane K} (h : Holds E W A st) :
    ∃ st', ((List.range count).map fun t => lo + t * block).foldlM
        (fun st start => if skip start then some st else step st (Tile.at keys block start)) st =
          some st' ∧
      Holds E (W + ∑ i ∈ Finset.range (count * block), (keys (lo + i)).1.weight E)
        (fun d => A d + ∑ i ∈ Finset.range (count * block),
          (keys (lo + i)).1.weight E * (keys (lo + i)).2 d) st' := by
  induction count with
  | zero => exact ⟨st, rfl, by simpa using h⟩
  | succ count ih =>
      obtain ⟨st₁, hrun, hholds⟩ := ih (fun t ht => hskip t (Nat.lt_succ_of_lt ht))
        fun t ht => hstep t (Nat.lt_succ_of_lt ht)
      rw [List.range_succ, List.map_append, List.foldlM_append, hrun, Option.bind_eq_bind,
        Option.bind_some, List.map_singleton, List.foldlM_cons]
      simp only [Nat.succ_mul, Finset.sum_range_add, ← add_assoc]
      cases hs : skip (lo + count * block) with
      | true =>
          obtain ⟨hweight, hblend⟩ := Tile.at_hidden (E := E) (hskip count (Nat.lt_succ_self count) hs)
          rw [Tile.weight_at] at hweight
          refine ⟨st₁, rfl, ?_⟩
          simp only [hweight, add_zero]
          have hrest : ∀ d, ∑ i ∈ Finset.range block,
              (keys (lo + count * block + i)).1.weight E * (keys (lo + count * block + i)).2 d = 0 :=
            fun d => (Tile.blend_at keys block _ d).symm.trans (hblend d)
          simp only [hrest, add_zero]
          exact hholds
      | false =>
          obtain ⟨st₂, hst₂, hholds₂⟩ := hstep count (Nat.lt_succ_self count) hs st₁ _ _ hholds
          refine ⟨st₂, ?_, ?_⟩
          · rw [if_neg Bool.false_ne_true, hst₂]
            rfl
          · simp only [Tile.weight_at, Tile.blend_at] at hholds₂
            exact hholds₂

/-- A sweep takes in every key up to its end, where those from `hi` on are hidden. -/
theorem Lane.sweep_holds (step : Lane K → Tile K → Option (Lane K)) (skip : Nat → Bool) (lo hi : Nat)
    (hblock : 0 < block) (hhidden : ∀ i, hi ≤ lo + i → (keys (lo + i)).1 = none)
    (hskip : ∀ start ∈ starts lo hi block, skip start = true →
      ∀ i < block, (keys (start + i)).1 = none)
    (hstep : ∀ start ∈ starts lo hi block, skip start = false →
      TakesIn E step (Tile.at keys block start))
    {W : K} {A : Nat → K} {st : Lane K} (h : Holds E W A st) :
    ∃ st', sweep step keys skip block lo hi st = some st' ∧
      Holds E (W + ∑ i ∈ Finset.range (hi - lo), (keys (lo + i)).1.weight E)
        (fun d => A d + ∑ i ∈ Finset.range (hi - lo),
          (keys (lo + i)).1.weight E * (keys (lo + i)).2 d) st' := by
  have hmem : ∀ t < Blocks.divCeil (hi - lo) block, lo + t * block ∈ starts lo hi block :=
    fun t ht => List.mem_map.2 ⟨t, List.mem_range.2 ht, rfl⟩
  obtain ⟨st', hrun, hholds⟩ := foldlM_holds (Blocks.divCeil (hi - lo) block)
    (fun t ht => hskip _ (hmem t ht)) (fun t ht => hstep _ (hmem t ht)) h
  have hle := Blocks.le_divCeil_mul (hi - lo) hblock
  have hnone : ∀ i ≥ hi - lo, (keys (lo + i)).1 = none := fun i hge => hhidden i (by omega)
  refine ⟨st', hrun, ?_⟩
  rw [Finset.eventually_constant_sum (fun i hi => by rw [hnone i hi, Score.weight_none]) hle] at hholds
  have hblend : ∀ d, ∑ i ∈ Finset.range (Blocks.divCeil (hi - lo) block * block),
      (keys (lo + i)).1.weight E * (keys (lo + i)).2 d =
        ∑ i ∈ Finset.range (hi - lo), (keys (lo + i)).1.weight E * (keys (lo + i)).2 d := by
    intro d
    apply Finset.eventually_constant_sum _ hle
    intro i hge
    rw [hnone i hge, Score.weight_none, zero_mul]
  simp only [hblend] at hholds
  exact hholds

end Sweep

end OnlineSoftmax
