import FreeToken.Moe.Align
import FreeToken.Moe.HybridAgrees
import Mathlib.Algebra.BigOperators.Ring.Finset
import Mathlib.Algebra.Order.BigOperators.Group.Finset
import Mathlib.Data.Nat.Size

/-!
# The aligned buffers

What `moe_align_block_size` is for: each expert has a region of whole blocks, the regions follow one
another, and the tokens of an expert are the first entries of its region.  The regions fit the buffers
in both of the sizes that the host computes.
-/

set_option autoImplicit false

namespace FreeToken

open Finset

namespace MoeAlign

/-! ## Sums -/

/-- No id is counted for two experts. -/
theorem sum_count_le (ids : List Int) (n : Nat) :
    ∑ e ∈ range n, ids.count (e : Int) ≤ ids.length := by
  induction ids with
  | nil => simp
  | cons x ids ih =>
      have hone : ∑ e ∈ range n, (if x == (e : Int) then 1 else 0) ≤ 1 := by
        rw [← card_filter]
        apply card_le_one.2
        intro a ha b hb
        have ha' : x = a := by simpa using (mem_filter.1 ha).2
        have hb' : x = b := by simpa using (mem_filter.1 hb).2
        omega
      simp only [List.count_cons, sum_add_distrib, List.length_cons]
      omega

/-- The place of a number among the parts of a sum. -/
theorem exists_part (f : Nat → Nat) {b : Nat} : ∀ {n : Nat}, b < ∑ i ∈ range n, f i →
    ∃ e < n, ∑ i ∈ range e, f i ≤ b ∧ b < ∑ i ∈ range (e + 1), f i
  | 0, h => by
      rw [range_zero, sum_empty] at h
      omega
  | n + 1, h => by
      by_cases hn : b < ∑ i ∈ range n, f i
      · obtain ⟨e, he, hle, hlt⟩ := exists_part f hn
        exact ⟨e, by omega, hle, hlt⟩
      · exact ⟨n, by omega, by omega, h⟩

theorem divCeil_le {a b : Nat} (hb : 0 < b) : divCeil a b ≤ a := by
  unfold divCeil
  apply Nat.le_of_lt_succ
  rw [Nat.div_lt_iff_lt_mul hb, Nat.succ_mul]
  have ha : a * 1 ≤ a * b := Nat.mul_le_mul_left _ hb
  omega

theorem divCeil_mul_le {a b : Nat} (hb : 0 < b) : divCeil a b * b ≤ a + (b - 1) := by
  have := Nat.div_mul_le_self (a + b - 1) b
  unfold divCeil
  omega

theorem le_divCeil_mul {a b : Nat} (hb : 0 < b) : a ≤ divCeil a b * b := by
  have hlt := Nat.lt_div_mul_add hb (a := a + b - 1)
  unfold divCeil
  omega

theorem divCeil_cast {a b : Nat} (hb : 0 < b) : ((divCeil a b : Nat) : Int) = (a + b - 1) / b := by
  have hcast : ((a + b - 1 : Nat) : Int) = a + b - 1 := by omega
  unfold divCeil
  rw [Int.natCast_ediv, hcast]

namespace Launch

variable (g : Launch)

/-! ## Regions -/

def count (e : Nat) : Nat := g.topkIds.count (e : Int)

/-- The blocks of an expert. -/
def blocks (e : Nat) : Nat := divCeil (g.count e) g.blockSize

/-- The first block of an expert. -/
def blockStart (e : Nat) : Nat := ∑ i ∈ range e, g.blocks i

/-- The tokens routed to an expert. -/
def tokensOf (e : Nat) : List Nat := (List.range g.numel).filter fun t => g.idAt t == e

/-- The buffers as the matrix multiplication reads them. -/
structure Aligned (mem : Mem) : Prop where
  postPad : mem (.numTokensPostPad, 0) =
    ((∑ e ∈ range g.effectiveE, divCeil (g.count e) g.blockSize * g.blockSize : Nat) : Int)
  owner : ∀ b : Nat, (b : Int) < mem (.numTokensPostPad, 0) / g.blockSize →
    ∃ e < g.effectiveE, mem (.expertIds, b) = e ∧
      g.blockStart e * g.blockSize ≤ b * g.blockSize ∧
      (b + 1) * g.blockSize ≤ g.blockStart (e + 1) * g.blockSize
  region : ∀ e < g.effectiveE, ((List.range (g.count e)).map fun r =>
    mem (.sortedTokenIds, ((g.blockStart e * g.blockSize + r : Nat) : Int))).Perm
      ((g.tokensOf e).map Nat.cast)
  tail : ∀ e < g.effectiveE, ∀ p : Nat, g.blockStart e * g.blockSize + g.count e ≤ p →
    p < g.blockStart (e + 1) * g.blockSize → mem (.sortedTokenIds, (p : Int)) = g.numel

variable {g}

theorem blockStart_succ (e : Nat) : g.blockStart (e + 1) = g.blockStart e + g.blocks e :=
  sum_range_succ _ _

theorem blockStart_mono {e e' : Nat} (h : e ≤ e') : g.blockStart e ≤ g.blockStart e' :=
  sum_le_sum_of_subset (range_subset_range.2 h)

theorem count_le_blocks (hb : 0 < g.blockSize) (e : Nat) : g.count e ≤ g.blocks e * g.blockSize :=
  le_divCeil_mul hb

/-- A region begins where the one before it ends. -/
theorem region_end (e : Nat) :
    g.blockStart (e + 1) * g.blockSize = g.blockStart e * g.blockSize + g.blocks e * g.blockSize := by
  rw [blockStart_succ, Nat.add_mul]

theorem region_le {e e' : Nat} (h : e < e') :
    g.blockStart e * g.blockSize + g.blocks e * g.blockSize ≤ g.blockStart e' * g.blockSize := by
  rw [← region_end]
  exact Nat.mul_le_mul_right _ (blockStart_mono h)

/-- Every block below the last has an owner. -/
theorem exists_owner {b : Nat} (h : b < g.blockStart g.effectiveE) :
    ∃ e < g.effectiveE, g.blockStart e ≤ b ∧ b < g.blockStart (e + 1) :=
  exists_part g.blocks h

theorem owner_unique {b e e' : Nat} (hle : g.blockStart e ≤ b) (hlt : b < g.blockStart (e + 1))
    (hle' : g.blockStart e' ≤ b) (hlt' : b < g.blockStart (e' + 1)) : e = e' := by
  by_contra hne
  rcases Nat.lt_or_gt_of_ne hne with h | h
  · have := blockStart_mono (g := g) (show e + 1 ≤ e' from h)
    omega
  · have := blockStart_mono (g := g) (show e' + 1 ≤ e from h)
    omega

/-! ## The buffers hold the regions -/

theorem sum_count_le_numel : ∑ e ∈ range g.effectiveE, g.count e ≤ g.numel :=
  sum_count_le g.topkIds g.effectiveE

theorem blockStart_mul_le (hb : 0 < g.blockSize) :
    g.blockStart g.effectiveE * g.blockSize ≤ g.maxNumTokensPadded := by
  have hsum := sum_count_le_numel (g := g)
  unfold maxNumTokensPadded blockStart
  split
  · apply Nat.mul_le_mul_right
    calc ∑ e ∈ range g.effectiveE, g.blocks e
        ≤ ∑ e ∈ range g.effectiveE, g.count e := sum_le_sum fun e _ => divCeil_le hb
      _ ≤ g.numel := hsum
  · rw [sum_mul]
    calc ∑ e ∈ range g.effectiveE, g.blocks e * g.blockSize
        ≤ ∑ e ∈ range g.effectiveE, (g.count e + (g.blockSize - 1)) :=
          sum_le_sum fun e _ => divCeil_mul_le hb
      _ = ∑ e ∈ range g.effectiveE, g.count e + g.effectiveE * (g.blockSize - 1) := by
          rw [sum_add_distrib, sum_const, card_range, Nat.nsmul_eq_mul]
      _ ≤ g.numel + g.effectiveE * (g.blockSize - 1) := Nat.add_le_add_right hsum _

theorem blockStart_le_maxNumMBlocks (hb : 0 < g.blockSize) :
    g.blockStart g.effectiveE ≤ g.maxNumMBlocks := by
  have hpad := blockStart_mul_le hb
  unfold maxNumMBlocks divCeil
  rw [Nat.le_div_iff_mul_le hb]
  omega

/-! ## Counts -/

theorem idAt_of_lt {t : Nat} (h : t < g.numel) : g.idAt t = g.topkIds[t] := by
  unfold idAt
  rw [List.getD_eq_getElem?_getD, List.getElem?_eq_getElem h, Option.getD_some]

theorem map_idAt : (List.range g.numel).map g.idAt = g.topkIds := by
  apply List.ext_getElem
  · rw [List.length_map, List.length_range]
    rfl
  · intro t h h'
    rw [List.getElem_map, List.getElem_range]
    exact idAt_of_lt h'

theorem tokensOf_length (e : Nat) : (g.tokensOf e).length = g.count e := by
  have hcount : g.count e = ((List.range g.numel).map g.idAt).countP (· == (e : Int)) := by
    rw [map_idAt]
    rfl
  rw [hcount, List.countP_map, tokensOf, List.countP_eq_length_filter]
  rfl

theorem valid_iff {t : Nat} :
    g.valid t = true ↔ t < g.numel ∧ ∃ e < g.effectiveE, g.idAt t = (e : Nat) := by
  unfold valid
  rw [decide_eq_true_iff]
  constructor
  · rintro ⟨ht, hpos, hlt⟩
    exact ⟨ht, (g.idAt t).toNat, by omega, by omega⟩
  · rintro ⟨ht, e, he, hid⟩
    exact ⟨ht, by omega, by omega⟩

theorem effectiveE_lt_hist : g.effectiveE < g.hist :=
  OffloadMoeCache.HybridKernel.le_nextPowerOf2 _

/-- The spare bin is no expert's. -/
theorem bin_eq_iff {t e : Nat} (he : e < g.effectiveE) :
    g.bin t = e ↔ t < g.numel ∧ g.idAt t = e := by
  have hspare := effectiveE_lt_hist (g := g)
  unfold bin
  by_cases hv : g.valid t = true
  · rw [if_pos hv]
    exact ⟨fun h => ⟨(valid_iff.1 hv).1, h⟩, And.right⟩
  · rw [if_neg hv]
    constructor
    · intro h
      omega
    · intro h
      exact absurd (valid_iff.2 ⟨h.1, e, he, h.2⟩) hv

/-- The histogram over lanes that cover the tokens counts the tokens. -/
theorem countP_bin {n e : Nat} (hn : g.numel ≤ n) (he : e < g.effectiveE) :
    (List.range n).countP (fun t => g.bin t == (e : Int)) = g.count e := by
  have hsplit : n = g.numel + (n - g.numel) := by omega
  rw [← tokensOf_length, tokensOf, ← List.countP_eq_length_filter, hsplit, List.range_add,
    List.countP_append]
  have hin : (List.range g.numel).countP (fun t => g.bin t == (e : Int)) =
      (List.range g.numel).countP fun t => g.idAt t == (e : Int) := by
    apply List.countP_congr
    intro t ht
    rw [beq_iff_eq, beq_iff_eq, bin_eq_iff he]
    exact ⟨And.right, fun h => ⟨List.mem_range.1 ht, h⟩⟩
  have hout : ((List.range (n - g.numel)).map (g.numel + ·)).countP
      (fun t => g.bin t == (e : Int)) = 0 := by
    apply List.countP_eq_zero.2
    intro t ht
    obtain ⟨k, -, rfl⟩ := List.mem_map.1 ht
    rw [beq_iff_eq, bin_eq_iff he]
    omega
  rw [hin, hout, Nat.add_zero]

end Launch

end MoeAlign

end FreeToken
