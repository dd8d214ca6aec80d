import Mathlib.Order.Bounds.Basic

/-!
# Scanning for the last full window

A sequence of positions, some live and some dead, is read segment by segment.  A front is safe if it
is live throughout, or if its last `w` positions are.  The scan keeps the length of the live run
since the last dead segment and the longest safe front that ended before it.
-/

set_option autoImplicit false

namespace WindowScan

variable {live : Nat → Prop} {w k b l : Nat} {run : Option Nat}

def Safe (live : Nat → Prop) (w p : Nat) : Prop :=
  (∀ i, i < p → live i) ∨ (w ≤ p ∧ ∀ i, p - w ≤ i → i < p → live i)

/-- The run reaches back over a window, or over everything. -/
def Covers (w : Nat) : Option Nat → Prop
  | none => True
  | some r => w ≤ r

instance (w : Nat) (run : Option Nat) : Decidable (Covers w run) := by
  cases run <;> unfold Covers <;> infer_instance

/-- The run is the live part behind the last dead position before `k`, if there is one. -/
def RunTo (live : Nat → Prop) (k : Nat) : Option Nat → Prop
  | none => ∀ i, i < k → live i
  | some r => r < k ∧ ¬ live (k - r - 1) ∧ ∀ i, k - r ≤ i → i < k → live i

theorem safe_zero (live : Nat → Prop) (w : Nat) : Safe live w 0 :=
  .inl fun i hi => absurd hi (Nat.not_lt_zero i)

/-- A safe front does not end behind a dead position with less than a window between. -/
theorem Safe.not_near {p d : Nat} (h : Safe live w p) (hd : ¬ live d) (hlt : d < p) : d + w < p := by
  rcases h with hall | ⟨hw, hlast⟩
  · exact absurd (hall d hlt) hd
  · by_contra hnear
    apply hd
    apply hlast d
    · omega
    · exact hlt

theorem RunTo.safe (h : RunTo live k run) (hc : Covers w run) : Safe live w k := by
  cases run with
  | none => exact .inl h
  | some r =>
      obtain ⟨hlt, -, hrun⟩ := h
      have hwr : w ≤ r := hc
      refine .inr ⟨by omega, fun i hi hik => ?_⟩
      apply hrun i
      · omega
      · exact hik

/-- The state of a scan that has read `k` positions. -/
structure Scan (live : Nat → Prop) (w k : Nat) (run : Option Nat) (b : Nat) : Prop where
  runTo : RunTo live k run
  safe : Safe live w b
  le : b ≤ k
  best : ∀ p ≤ k, Safe live w p → p ≤ b ∨ Covers w run

namespace Scan

theorem start (live : Nat → Prop) (w : Nat) : Scan live w 0 none 0 where
  runTo := fun i hi => absurd hi (Nat.not_lt_zero i)
  safe := safe_zero live w
  le := Nat.le_refl 0
  best := fun _ hp _ => .inl hp

/-- Take the front read so far, if its run covers the window. -/
def commit (w k : Nat) (run : Option Nat) (b : Nat) : Nat := if Covers w run then k else b

theorem commit_greatest (h : Scan live w k run b) :
    IsGreatest {p | p ≤ k ∧ Safe live w p} (commit w k run b) := by
  unfold commit
  split
  · rename_i hc
    exact ⟨⟨Nat.le_refl k, h.runTo.safe hc⟩, fun p hp => hp.1⟩
  · rename_i hc
    refine ⟨⟨h.le, h.safe⟩, fun p hp => ?_⟩
    exact (h.best p hp.1 hp.2).resolve_right hc

theorem committed (h : Scan live w k run b) : Scan live w k run (commit w k run b) where
  runTo := h.runTo
  safe := h.commit_greatest.1.2
  le := h.commit_greatest.1.1
  best := fun _ hp hps => .inl (h.commit_greatest.2 ⟨hp, hps⟩)

/-- A live segment lengthens the run. -/
theorem live_segment (h : Scan live w k run b) (hl : ∀ i, k ≤ i → i < k + l → live i) :
    Scan live w (k + l) (run.map (· + l)) b := by
  obtain ⟨hrun, hsafe, hle, hbest⟩ := h
  refine ⟨?_, hsafe, Nat.le_add_right_of_le hle, fun p hp hps => ?_⟩
  · cases run with
    | none =>
        intro i hi
        rcases Nat.lt_or_ge i k with hik | hki
        · exact hrun i hik
        · exact hl i hki hi
    | some r =>
        obtain ⟨hlt, hdead, hlive⟩ := hrun
        show r + l < k + l ∧ ¬ live (k + l - (r + l) - 1) ∧
          ∀ i, k + l - (r + l) ≤ i → i < k + l → live i
        refine ⟨Nat.add_lt_add_right hlt l, ?_, fun i hi hik => ?_⟩
        · rwa [show k + l - (r + l) - 1 = k - r - 1 by omega]
        · rcases Nat.lt_or_ge i k with hlk | hki
          · exact hlive i (by omega) hlk
          · exact hl i hki hik
  · cases run with
    | none => exact .inr trivial
    | some r =>
        obtain ⟨hlt, hdead, -⟩ := hrun
        rcases Nat.lt_or_ge k p with hkp | hpk
        · -- past the old front the last dead position must be a window away
          have hfar := hps.not_near hdead (by omega)
          right
          show w ≤ r + l
          omega
        · rcases hbest p hpk hps with hb | hc
          · exact .inl hb
          · right
            have hwr : w ≤ r := hc
            show w ≤ r + l
            omega

/-- A dead segment closes the run, once the front before it was taken if it is safe. -/
theorem dead_segment (hw : 0 < w) (h : Scan live w k run b)
    (hmax : ∀ p ≤ k, Safe live w p → p ≤ b) (hpos : 0 < l)
    (hd : ∀ i, k ≤ i → i < k + l → ¬ live i) : Scan live w (k + l) (some 0) b := by
  refine ⟨⟨by omega, ?_, fun i hi hik => by omega⟩, h.safe, Nat.le_add_right_of_le h.le,
    fun p hp hps => .inl ?_⟩
  · apply hd <;> omega
  · rcases Nat.lt_or_ge k p with hkp | hpk
    · have hfar := hps.not_near (hd (p - 1) (by omega) (by omega)) (by omega)
      omega
    · exact hmax p hpk hps

end Scan

end WindowScan
