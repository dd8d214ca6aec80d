import Mathlib.Algebra.BigOperators.Ring.Finset
import Mathlib.Algebra.Field.Rat
import Mathlib.Data.List.Pairwise
import FreeToken.Kernel.Df11Codes

/-!
# A full prefix code

With two symbols or more the Huffman lengths fill the table, whatever floor the loop ends with, so a
peek of any bits finds a code.
-/

set_option autoImplicit false

namespace FreeToken

namespace Df11

open Region

/-! ## The lengths -/

theorem huffmanLengths_full {freq lengths : List (Nat × Nat)} (htwo : 2 ≤ freq.length)
    (h : huffmanLengths freq = some lengths) : Full lengths := by
  have hne : freq ≠ [] := by
    intro hnil
    rw [hnil] at htwo
    exact absurd htwo (by decide)
  obtain ⟨t, hleaves, hrun⟩ := huffmanLengths_tree hne
  rw [h] at hrun
  rw [Option.some.inj hrun]
  cases t with
  | leaf a =>
      -- one leaf is one symbol
      have hlen := hleaves.length_eq
      rw [List.length_map] at hlen
      exact absurd (show 1 = freq.length from hlen) (by omega)
  | node l r => exact full_node l r

/-- Turns that are left over change nothing. -/
theorem lengthLimitedLoop_add {lmax : Nat} (extra : Nat) :
    ∀ {fuel floor : Nat} {f lengths : List (Nat × Nat)},
      lengthLimitedLoop lmax fuel floor f = some lengths →
        lengthLimitedLoop lmax (fuel + extra) floor f = some lengths := by
  intro fuel
  induction fuel with
  | zero =>
      intro floor f lengths h
      cases h
  | succ fuel ih =>
      intro floor f lengths h
      rw [Nat.add_right_comm]
      cases hrun : huffmanLengths f with
      | none =>
          rw [lengthLimitedLoop, hrun] at h
          cases h
      | some found =>
          rw [lengthLimitedLoop_succ hrun] at h ⊢
          by_cases hle : maxLength found ≤ lmax
          · rw [if_pos hle] at h ⊢
            exact h
          · rw [if_neg hle] at h ⊢
            exact ih h

theorem lengthLimitedLoop_full {lmax : Nat} : ∀ {fuel floor : Nat} {f lengths : List (Nat × Nat)},
    2 ≤ f.length → lengthLimitedLoop lmax fuel floor f = some lengths → Full lengths := by
  intro fuel
  induction fuel with
  | zero =>
      intro floor f lengths _ h
      cases h
  | succ fuel ih =>
      intro floor f lengths htwo h
      cases hrun : huffmanLengths f with
      | none =>
          rw [lengthLimitedLoop, hrun] at h
          cases h
      | some found =>
          rw [lengthLimitedLoop_succ hrun] at h
          by_cases hle : maxLength found ≤ lmax
          · rw [if_pos hle] at h
            rw [← Option.some.inj h]
            exact huffmanLengths_full htwo hrun
          · -- the floor keeps the symbols
            rw [if_neg hle] at h
            apply ih _ h
            rwa [List.length_map]

/-- Kraft's equality. -/
theorem Full.sum_half {lengths : List (Nat × Nat)} (h : Full lengths) :
    (lengths.map fun p => (1 / 2 : ℚ) ^ p.2).sum = 1 := by
  let L := maxLength lengths
  have hL : ∀ p ∈ lengths, p.2 ≤ L := maxLength_le_iff.mp (Nat.le_refl L)
  have hcell : ∀ p ∈ lengths, (2 : ℚ) ^ L * (1 / 2) ^ p.2 = ((2 ^ (L - p.2) : Nat) : ℚ) := by
    intro p hp
    rw [Nat.cast_pow, Nat.cast_ofNat, pow_sub₀ _ two_ne_zero (hL p hp), one_div, inv_pow]
  have hscaled : (2 : ℚ) ^ L * (lengths.map fun p => (1 / 2 : ℚ) ^ p.2).sum = 2 ^ L * 1 := by
    calc (2 : ℚ) ^ L * (lengths.map fun p => (1 / 2 : ℚ) ^ p.2).sum
        = (lengths.map fun p => (2 : ℚ) ^ L * (1 / 2) ^ p.2).sum :=
          (List.sum_map_mul_left _ _ _).symm
      _ = (lengths.map fun p => ((2 ^ (L - p.2) : Nat) : ℚ)).sum := by
          rw [List.map_congr_left hcell]
      _ = (((lengths.map fun p => 2 ^ (L - p.2)).sum : Nat) : ℚ) := by
          rw [Nat.cast_list_sum, List.map_map]
          rfl
      _ = 2 ^ L * 1 := by
          rw [h L hL, Nat.cast_pow, Nat.cast_ofNat, mul_one]
  exact mul_left_cancel₀ (pow_ne_zero L two_ne_zero) hscaled

/-! ## The codes -/

/-- Codes below `2 ^ length`, none the first bits of another. -/
structure PrefixCode (codes : List (Nat × Nat × Nat)) : Prop where
  lt : ∀ c ∈ codes, c.2.1 < 2 ^ c.2.2
  free : ∀ c ∈ codes, ∀ d ∈ codes, c.1 ≠ d.1 → c.2.2 ≤ d.2.2 →
    d.2.1 >>> (d.2.2 - c.2.2) ≠ c.2.1

/-- The table says, at every index, the symbol and the length of a code that begins the index. -/
def Covers (codes : List (Nat × Nat × Nat)) (lmax : Nat) : Prop :=
  ∀ i < 2 ^ lmax, ∃ c ∈ codes, i >>> (lmax - c.2.2) = c.2.1 ∧
    (buildLut codes lmax)[i]? = some (c.1 <<< 8 ||| c.2.2)

/-- Intervals that do not meet: a code behind another's first bits would begin inside the other's. -/
theorem Codes.prefixCode {L : Nat} {freq lengths : List (Nat × Nat)}
    {codes : List (Nat × Nat × Nat)} (h : Codes L lengths codes) (hlengths : Lengths freq lengths)
    (hle : ∀ p ∈ lengths, p.2 ≤ L) : PrefixCode codes where
  lt := by
    intro c hc
    exact h.code_lt hlengths hle hc
  free := by
    intro c hc d hd hne hlen hpre
    let Apart (s t : Nat × Nat × Nat) : Prop :=
      cellOff L s + cellLen L s ≤ cellOff L t ∨ cellOff L t + cellLen L t ≤ cellOff L s
    have hsymm : Std.Symm Apart := ⟨fun _ _ hst => hst.symm⟩
    have hapart : codes.Pairwise Apart := h.laid.pairwise_end.imp .inl
    have hcd : Apart c d := hapart.forall hc hd fun heq => hne (congrArg Prod.fst heq)
    have hdL := h.len_le hle hd
    -- the cell of `d` as a multiple of its length
    have hunit : 2 ^ (d.2.2 - c.2.2) * 2 ^ (L - d.2.2) = 2 ^ (L - c.2.2) := by
      rw [← Nat.pow_add]
      congr 1
      omega
    rw [Nat.shiftRight_eq_div_pow] at hpre
    have hdm := Nat.div_add_mod d.2.1 (2 ^ (d.2.2 - c.2.2))
    have hmod := Nat.mod_lt d.2.1 (Nat.two_pow_pos (d.2.2 - c.2.2))
    have hoff : cellOff L d =
        cellOff L c + d.2.1 % 2 ^ (d.2.2 - c.2.2) * 2 ^ (L - d.2.2) := by
      unfold cellOff
      rw [← hunit, ← hpre, ← Nat.mul_assoc, ← Nat.add_mul, Nat.mul_comm (d.2.1 / _), hdm]
    have hend : (d.2.1 % 2 ^ (d.2.2 - c.2.2) + 1) * 2 ^ (L - d.2.2) ≤ cellLen L c := by
      unfold cellLen
      rw [← hunit]
      exact Nat.mul_le_mul_right _ hmod
    rw [Nat.add_mul, Nat.one_mul] at hend
    have hpos : 0 < cellLen L d := Nat.two_pow_pos _
    have hlenD : cellLen L d = 2 ^ (L - d.2.2) := rfl
    unfold Apart at hcd
    omega

theorem Codes.covers {lmax : Nat} {lengths : List (Nat × Nat)} {codes : List (Nat × Nat × Nat)}
    (h : Codes lmax lengths codes) (hfull : Full lengths) (hle : ∀ p ∈ lengths, p.2 ≤ lmax) :
    Covers codes lmax := by
  intro i hi
  have htotal : total (cellLen lmax) codes = 2 ^ lmax := by
    have hsum := (h.items.map fun p => 2 ^ (lmax - p.2)).sum_eq
    rw [List.map_map] at hsum
    exact hsum.trans (hfull lmax hle)
  obtain ⟨c, hc, hl, hr⟩ := h.laid.exists_stripe (Nat.zero_le i) (by omega)
  refine ⟨c, hc, ?_, ?_⟩
  · rw [Nat.shiftRight_eq_div_pow]
    apply Nat.div_eq_of_lt_le hl
    rw [Nat.add_mul, Nat.one_mul]
    exact hr
  · exact fill_at h.laid hc (by rw [List.length_replicate, Nat.one_shiftLeft]; exact hi) hl hr

/-! ## The result -/

/-- Symbols that occur, at most 256: the loop stops, with any number of turns to spare. -/
theorem lengthLimitedLengths_prefixCode {freq : List (Nat × Nat)} {lmax : Nat} (hne : freq ≠ [])
    (hcount : freq.length ≤ 256) (hkeys : (freq.map Prod.fst).Nodup) (hpos : ∀ p ∈ freq, 0 < p.2)
    (hlmax : 8 ≤ lmax) :
    ∃ lengths, lengthLimitedLengths freq lmax = some lengths ∧
      (∀ extra, lengthLimitedLoop lmax ((freq.map Prod.snd).sum + 1 + extra) 1 freq =
        some lengths) ∧
      (lengths.map Prod.fst).Nodup ∧ (lengths.map Prod.fst).Perm (freq.map Prod.fst) ∧
      (∀ p ∈ lengths, 1 ≤ p.2 ∧ p.2 ≤ lmax) ∧
      (2 ≤ freq.length → (lengths.map fun p => (1 / 2 : ℚ) ^ p.2).sum = 1) ∧
      ((canonicalCodes lengths).map fun c => (c.1, c.2.2)).Perm lengths ∧
      PrefixCode (canonicalCodes lengths) ∧
      (2 ≤ freq.length → Covers (canonicalCodes lengths) lmax) := by
  have hroom : freq.length ≤ 2 ^ lmax :=
    calc freq.length ≤ 2 ^ 8 := hcount
      _ ≤ 2 ^ lmax := Nat.pow_le_pow_right (by omega) hlmax
  obtain ⟨lengths, hrun, hlengths, hle⟩ :=
    lengthLimitedLengths_spec (by omega : 1 ≤ lmax) hne hroom hpos
  have hcodes := canonicalCodes_spec hle
  have hfull : 2 ≤ freq.length → Full lengths := fun htwo => lengthLimitedLoop_full htwo hrun
  refine ⟨lengths, hrun, fun extra => lengthLimitedLoop_add extra hrun, ?_, hlengths.keys,
    fun p hp => ⟨hlengths.pos p hp, hle p hp⟩, fun htwo => (hfull htwo).sum_half, hcodes.items,
    hcodes.prefixCode hlengths hle, fun htwo => hcodes.covers (hfull htwo) hle⟩
  exact hlengths.keys.nodup_iff.mpr hkeys

/-- Three symbols, with a table of 256 cells. -/
theorem lengthLimitedLengths_prefixCode_three :
    ∃ lengths, lengthLimitedLengths [(7, 5), (9, 1), (4, 2)] 8 = some lengths ∧
      PrefixCode (canonicalCodes lengths) ∧ Covers (canonicalCodes lengths) 8 := by
  obtain ⟨lengths, hrun, -, -, -, -, -, -, hprefix, hcovers⟩ :=
    @lengthLimitedLengths_prefixCode [(7, 5), (9, 1), (4, 2)] 8 (List.cons_ne_nil _ _) (by decide)
      (by decide) (by decide) (by decide)
  exact ⟨lengths, hrun, hprefix, hcovers (by decide)⟩

end Df11

end FreeToken
