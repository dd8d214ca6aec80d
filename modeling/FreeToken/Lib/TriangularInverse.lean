import Mathlib

/-!
# The inverse of a unit lower triangular matrix

Rows of a small matrix by forward substitution, and four rows of blocks from the inverses of the blocks
on the diagonal.  A product with the matrix on the left is checked; over a commutative ring the other
one follows.
-/

set_option autoImplicit false

namespace TriangularInverse

/-! ## Forward substitution -/

section Rows

variable {R : Type} [Ring R] {n : Nat}

/-- Nothing on or above the diagonal. -/
def StrictlyLower (L : Matrix (Fin n) (Fin n) R) : Prop := ∀ r c, r ≤ c → L r c = 0

/-- The rows before `m` are solved; those from there on are the rows of `-L`. -/
structure Solved (L X : Matrix (Fin n) (Fin n) R) (m : Nat) : Prop where
  lower : StrictlyLower X
  done : ∀ r : Fin n, r.val < m → ∀ c, X r c = -L r c - (L * X) r c
  rest : ∀ r : Fin n, m ≤ r.val → ∀ c, X r c = -L r c

variable {L X : Matrix (Fin n) (Fin n) R} {m : Nat}

/-- Before the third row there is nothing to do. -/
theorem Solved.start (hL : StrictlyLower L) : Solved L (-L) 2 where
  lower r c hrc := by rw [Matrix.neg_apply, hL r c hrc, neg_zero]
  done r hr c := by
    have hzero : (L * -L) r c = 0 := by
      rw [Matrix.mul_apply]
      apply Finset.sum_eq_zero
      intro s _
      by_cases hs : s < r
      · have hfirst : s ≤ c := by
          rw [Fin.le_def]
          rw [Fin.lt_def] at hs
          omega
        rw [Matrix.neg_apply, hL s c hfirst, neg_zero, mul_zero]
      · rw [hL r s (not_lt.1 hs), zero_mul]
    rw [Matrix.neg_apply, hzero, sub_zero]
  rest _ _ _ := rfl

/-- One more row, from the rows before it. -/
theorem Solved.step (h : Solved L X m) (hL : StrictlyLower L) {X' : Matrix (Fin n) (Fin n) R}
    (hrow : ∀ r : Fin n, r.val = m → ∀ c, X' r c = -L r c + ∑ s, -L r s * X s c)
    (hsame : ∀ r : Fin n, r.val ≠ m → ∀ c, X' r c = X r c) : Solved L X' (m + 1) := by
  have hnew : ∀ r : Fin n, r.val = m → ∀ c, X' r c = -L r c - (L * X) r c := by
    intro r hr c
    rw [hrow r hr c, Matrix.mul_apply, sub_eq_add_neg, ← Finset.sum_neg_distrib]
    simp only [neg_mul]
  -- a row that is solved reads only rows before it, which stay as they are
  have hprod : ∀ r : Fin n, r.val ≤ m → ∀ c, (L * X') r c = (L * X) r c := by
    intro r hr c
    rw [Matrix.mul_apply, Matrix.mul_apply]
    apply Finset.sum_congr rfl
    intro s _
    by_cases hs : s < r
    · rw [Fin.lt_def] at hs
      rw [hsame s (by omega) c]
    · rw [hL r s (not_lt.1 hs), zero_mul, zero_mul]
  refine ⟨fun r c hrc => ?_, fun r hr c => ?_, fun r hr c => ?_⟩
  · by_cases hr : r.val = m
    · have hzero : (L * X) r c = 0 := by
        rw [Matrix.mul_apply]
        apply Finset.sum_eq_zero
        intro s _
        by_cases hs : s < r
        · rw [h.lower s c (hs.le.trans hrc), mul_zero]
        · rw [hL r s (not_lt.1 hs), zero_mul]
      rw [hnew r hr c, hL r c hrc, hzero, neg_zero, sub_zero]
    · rw [hsame r hr c, h.lower r c hrc]
  · rw [hprod r (Nat.le_of_lt_succ hr) c]
    by_cases hm : r.val = m
    · exact hnew r hm c
    · rw [hsame r hm c]
      exact h.done r (by omega) c
  · rw [hsame r (by omega) c]
    exact h.rest r (by omega) c

/-- The rows from `m` on are zero: the matrix is solved. -/
theorem Solved.mul_eq_one (h : Solved L X m) (hzero : ∀ r : Fin n, m ≤ r.val → ∀ c, L r c = 0) :
    (1 + L) * (1 + X) = 1 := by
  have hX : X = -L - L * X := by
    ext r c
    rw [Matrix.sub_apply, Matrix.neg_apply]
    by_cases hr : r.val < m
    · exact h.done r hr c
    · have hrow := hzero r (not_lt.1 hr)
      have hprod : (L * X) r c = 0 := by
        rw [Matrix.mul_apply]
        apply Finset.sum_eq_zero
        intro s _
        rw [hrow s, zero_mul]
      rw [h.rest r (not_lt.1 hr) c, hprod, sub_zero]
  calc (1 + L) * (1 + X) = 1 + L + (X + L * X) := by noncomm_ring
    _ = 1 + L + (-L - L * X + L * X) := by rw [← hX]
    _ = 1 := by abel

end Rows

/-! ## Four rows of blocks -/

section Blocks

variable {A : Type} [Ring A]

/-- The blocks below the diagonal. -/
structure Below (A : Type) where
  b10 : A
  b20 : A
  b21 : A
  b30 : A
  b31 : A
  b32 : A

/-- The matrix with the blocks `d` on the diagonal. -/
def Below.matrix (b : Below A) (d : Fin 4 → A) : Matrix (Fin 4) (Fin 4) A :=
  !![d 0, 0, 0, 0; b.b10, d 1, 0, 0; b.b20, b.b21, d 2, 0; b.b30, b.b31, b.b32, d 3]

/-- The blocks of the inverse below the diagonal, from those on it. -/
def Below.merge (b : Below A) (p : Fin 4 → A) : Below A :=
  let p10 := -(p 1 * b.b10 * p 0)
  let p21 := -(p 2 * b.b21 * p 1)
  let p32 := -(p 3 * b.b32 * p 2)
  let p20 := -(p 2 * (b.b20 * p 0 + b.b21 * p10))
  let p31 := -(p 3 * (b.b31 * p 1 + b.b32 * p21))
  let p30 := -(p 3 * (b.b30 * p 0 + b.b31 * p10 + b.b32 * p20))
  ⟨p10, p20, p21, p30, p31, p32⟩

theorem Below.matrix_mul_merge (b : Below A) {d p : Fin 4 → A} (h : ∀ i, d i * p i = 1) :
    b.matrix d * (b.merge p).matrix p = 1 := by
  have hcancel : ∀ i x, d i * -(p i * x) = -x := by
    intro i x
    rw [mul_neg, ← mul_assoc, h, one_mul]
  ext i j
  fin_cases i <;> fin_cases j <;>
    simp [matrix, merge, Matrix.mul_apply, Fin.sum_univ_four, h, hcancel, mul_assoc]

end Blocks

/-! ## A matrix of blocks as one matrix -/

section Flatten

variable {R : Type} [Ring R] {m n : Nat}

def flatten (M : Matrix (Fin m) (Fin m) (Matrix (Fin n) (Fin n) R)) :
    Matrix (Fin (m * n)) (Fin (m * n)) R :=
  Matrix.reindexRingEquiv R finProdFinEquiv (Matrix.compRingEquiv (Fin m) (Fin n) R M)

theorem flatten_apply (M : Matrix (Fin m) (Fin m) (Matrix (Fin n) (Fin n) R)) (a b : Fin m)
    (i j : Fin n) : flatten M (finProdFinEquiv (a, i)) (finProdFinEquiv (b, j)) = M a b i j := by
  simp [flatten]

theorem flatten_mul_eq_one {M P : Matrix (Fin m) (Fin m) (Matrix (Fin n) (Fin n) R)}
    (h : M * P = 1) : flatten M * flatten P = 1 := by
  rw [flatten, flatten, ← map_mul, ← map_mul, h, map_one, map_one]

end Flatten

end TriangularInverse
