import Mathlib.Algebra.Order.Ring.Int

/-!
# The last place where a test holds

A bracket whose upper end is doubled until the test fails there, and the bisection of a bracket.  The
loops are cut off after a number of turns; both lemmas say how many are enough.
-/

set_option autoImplicit false

namespace Bisect

variable (ok : Int → Bool)

/-- `while ok(hi): hi *= 2` -/
def double : Nat → Int → Option Int
  | 0, _ => none
  | turns + 1, hi => if ok hi then double turns (hi * 2) else some hi

/-- `while lo < hi - 1: ...` -/
def bisect : Nat → Int → Int → Option Int
  | 0, _, _ => none
  | turns + 1, lo, hi =>
      if lo < hi - 1 then
        let mid := (lo + hi) / 2
        if ok mid then bisect turns mid hi else bisect turns lo mid
      else some lo

variable {ok}

/-- More turns change nothing. -/
theorem double_mono {r : Int} : ∀ {turns turns' : Nat} {hi : Int}, double ok turns hi = some r →
    turns ≤ turns' → double ok turns' hi = some r
  | turns + 1, turns' + 1, hi, h, hle => by
      rw [double] at h ⊢
      cases hok : ok hi with
      | false =>
          rw [hok] at h
          exact h
      | true =>
          rw [hok] at h
          exact double_mono h (by omega)

theorem bisect_mono {r : Int} : ∀ {turns turns' : Nat} {lo hi : Int},
    bisect ok turns lo hi = some r → turns ≤ turns' → bisect ok turns' lo hi = some r
  | turns + 1, turns' + 1, lo, hi, h, hle => by
      rw [bisect] at h ⊢
      by_cases hgap : lo < hi - 1
      · rw [if_pos hgap] at h ⊢
        dsimp only at h ⊢
        cases hmid : ok ((lo + hi) / 2) with
        | false =>
            rw [hmid] at h
            exact bisect_mono h (by omega)
        | true =>
            rw [hmid] at h
            exact bisect_mono h (by omega)
      · rw [if_neg hgap] at h ⊢
        exact h

/-- Past a bound that fails for good, doubling stops. -/
theorem double_spec {bound : Int} (hbound : ∀ n, bound ≤ n → ok n = false) (turns : Nat) :
    ∀ hi, 0 < hi → 0 < turns → bound - hi < turns →
      ∃ r, double ok turns hi = some r ∧ hi ≤ r ∧ ok r = false := by
  induction turns with
  | zero =>
      intro hi _ hturns
      exact absurd hturns (Nat.lt_irrefl 0)
  | succ turns ih =>
      intro hi hpos _ hturns
      rw [double]
      cases hok : ok hi with
      | false => exact ⟨hi, rfl, Int.le_refl hi, hok⟩
      | true =>
          have hlt : hi < bound := by
            apply Int.lt_of_not_ge
            intro hge
            rw [hbound hi hge] at hok
            exact absurd hok (by decide)
          obtain ⟨r, hrun, hle, hr⟩ := ih (hi * 2) (by omega) (by omega) (by omega)
          exact ⟨r, hrun, by omega, hr⟩

/-- The bisection ends next to a failure. -/
theorem bisect_spec (turns : Nat) : ∀ lo hi, ok lo = true → ok hi = false → lo < hi →
    hi - lo ≤ turns → ∃ r, bisect ok turns lo hi = some r ∧ lo ≤ r ∧ ok r = true ∧
      ok (r + 1) = false := by
  induction turns with
  | zero =>
      intro lo hi _ _ hlt hturns
      omega
  | succ turns ih =>
      intro lo hi hlo hhi hlt hturns
      rw [bisect]
      by_cases hgap : lo < hi - 1
      · rw [if_pos hgap]
        dsimp only
        cases hmid : ok ((lo + hi) / 2) with
        | true =>
            obtain ⟨r, hrun, hle, hr⟩ := ih ((lo + hi) / 2) hi hmid hhi (by omega) (by omega)
            exact ⟨r, hrun, by omega, hr⟩
        | false => exact ih lo ((lo + hi) / 2) hlo hmid (by omega) (by omega)
      · rw [if_neg hgap]
        have hnext : lo + 1 = hi := by omega
        exact ⟨lo, rfl, Int.le_refl lo, hlo, by rw [hnext]; exact hhi⟩

end Bisect
