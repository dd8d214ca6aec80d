import Mathlib

/-!
# The gated delta rule

A state is decayed, and what it remembers of a key is moved towards the key's value.  A block of
tokens is one step: what each token writes solves a triangular system, and the state after any token of
the block is a sum over what the tokens before it wrote.
-/

set_option autoImplicit false

namespace DeltaRule

variable {R κ : Type} [CommRing R] (s : Finset κ)

def dot (a b : κ → R) : R := ∑ d ∈ s, a d * b d

/-- A token, for one row of the state. -/
structure Entry (R κ : Type) where
  key : κ → R
  value : R
  decay : R
  beta : R

/-- What a token writes along its key. -/
def delta (S : κ → R) (x : Entry R κ) : R :=
  (x.value - dot s (fun d => S d * x.decay) x.key) * x.beta

def step (S : κ → R) (x : Entry R κ) : κ → R := fun d => S d * x.decay + x.key d * delta s S x

/-- The state after the first tokens. -/
def run (S : κ → R) (xs : Nat → Entry R κ) : Nat → κ → R
  | 0 => S
  | n + 1 => step s (run S xs n) (xs n)

/-- What the token at a place writes. -/
def written (S : κ → R) (xs : Nat → Entry R κ) (n : Nat) : R := delta s (run s S xs n) (xs n)

/-- What is left of something from before token `i` before token `j`. -/
def gate (xs : Nat → Entry R κ) (i j : Nat) : R := ∏ l ∈ Finset.Ico i j, (xs l).decay

section Dot

variable {s}

theorem dot_comm (a b : κ → R) : dot s a b = dot s b a :=
  Finset.sum_congr rfl fun _ _ => mul_comm _ _

theorem dot_mul_right (a b : κ → R) (x : R) : dot s (fun d => a d * x) b = dot s a b * x := by
  rw [dot, dot, Finset.sum_mul]
  apply Finset.sum_congr rfl
  intro d _
  ring

theorem dot_sum {ι : Type} (t : Finset ι) (f : ι → κ → R) (b : κ → R) :
    dot s (fun d => ∑ i ∈ t, f i d) b = ∑ i ∈ t, dot s (f i) b := by
  unfold dot
  rw [Finset.sum_comm]
  apply Finset.sum_congr rfl
  intro d _
  rw [Finset.sum_mul]

theorem dot_add (a a' b : κ → R) : dot s (fun d => a d + a' d) b = dot s a b + dot s a' b := by
  rw [dot, dot, dot, ← Finset.sum_add_distrib]
  apply Finset.sum_congr rfl
  intro d _
  rw [add_mul]

end Dot

/-! ## Runs -/

section Run

variable {s} {S S' : κ → R} {xs ys : Nat → Entry R κ} {n : Nat}

theorem run_add (S : κ → R) (xs : Nat → Entry R κ) (m n : Nat) :
    run s S xs (m + n) = run s (run s S xs m) (fun i => xs (m + i)) n := by
  induction n with
  | zero => rfl
  | succ n ih =>
      show step s (run s S xs (m + n)) (xs (m + n)) = _
      rw [ih]
      rfl

/-- Only the coordinates count. -/
theorem run_congr (hS : ∀ d ∈ s, S d = S' d)
    (hxs : ∀ i < n, (∀ d ∈ s, (xs i).key d = (ys i).key d) ∧ (xs i).value = (ys i).value ∧
      (xs i).decay = (ys i).decay ∧ (xs i).beta = (ys i).beta) :
    ∀ d ∈ s, run s S xs n d = run s S' ys n d := by
  induction n with
  | zero => exact hS
  | succ n ih =>
      have hrun := ih fun i hi => hxs i (Nat.lt_succ_of_lt hi)
      obtain ⟨hkey, hvalue, hdecay, hbeta⟩ := hxs n (Nat.lt_succ_self n)
      have hdot : dot s (fun d => run s S xs n d * (xs n).decay) (xs n).key =
          dot s (fun d => run s S' ys n d * (ys n).decay) (ys n).key := by
        apply Finset.sum_congr rfl
        intro d hd
        show run s S xs n d * (xs n).decay * (xs n).key d = run s S' ys n d * (ys n).decay * (ys n).key d
        rw [hrun d hd, hdecay, hkey d hd]
      intro d hd
      show run s S xs n d * (xs n).decay + (xs n).key d * delta s (run s S xs n) (xs n) =
        run s S' ys n d * (ys n).decay + (ys n).key d * delta s (run s S' ys n) (ys n)
      rw [delta, delta, hdot, hrun d hd, hdecay, hkey d hd, hvalue, hbeta]

theorem gate_self (i : Nat) : gate xs i i = 1 := by rw [gate, Finset.Ico_self, Finset.prod_empty]

theorem gate_succ {i j : Nat} (h : i ≤ j) : gate xs i (j + 1) = gate xs i j * (xs j).decay :=
  Finset.prod_Ico_succ_top h _

/-- The state as the sum of what the tokens wrote. -/
theorem run_eq (S : κ → R) (xs : Nat → Entry R κ) (n : Nat) (d : κ) :
    run s S xs n d = gate xs 0 n * S d +
      ∑ c ∈ Finset.range n, gate xs (c + 1) n * ((xs c).key d * written s S xs c) := by
  induction n with
  | zero => rw [Finset.range_zero, Finset.sum_empty, add_zero, gate_self, one_mul, run]
  | succ n ih =>
      have hold : ∑ c ∈ Finset.range n, gate xs (c + 1) (n + 1) * ((xs c).key d * written s S xs c) =
          (∑ c ∈ Finset.range n, gate xs (c + 1) n * ((xs c).key d * written s S xs c)) *
            (xs n).decay := by
        rw [Finset.sum_mul]
        apply Finset.sum_congr rfl
        intro c hc
        rw [gate_succ (Nat.succ_le_of_lt (Finset.mem_range.1 hc))]
        ring
      rw [Finset.sum_range_succ, hold, gate_self, gate_succ (Nat.zero_le n), one_mul]
      show run s S xs n d * (xs n).decay + (xs n).key d * written s S xs n = _
      rw [ih]
      ring

/-- What a token finds in the state. -/
theorem dot_run (S : κ → R) (xs : Nat → Entry R κ) (n : Nat) (q : κ → R) :
    dot s (run s S xs n) q = gate xs 0 n * dot s S q +
      ∑ c ∈ Finset.range n, gate xs (c + 1) n * dot s (xs c).key q * written s S xs c := by
  have hrun : run s S xs n = fun d => S d * gate xs 0 n +
      ∑ c ∈ Finset.range n, (xs c).key d * (gate xs (c + 1) n * written s S xs c) := by
    ext d
    rw [run_eq, mul_comm (S d)]
    congr 1
    apply Finset.sum_congr rfl
    intro c _
    ring
  rw [hrun, dot_add, dot_mul_right, dot_sum, mul_comm (dot s S q)]
  congr 1
  apply Finset.sum_congr rfl
  intro c _
  rw [dot_mul_right]
  ring

/-- How far the write of a token depends on that of an earlier one. -/
def coupling (xs : Nat → Entry R κ) (r c : Nat) : R :=
  if c < r then gate xs (c + 1) (r + 1) * dot s (xs r).key (xs c).key * (xs r).beta else 0

theorem written_eq (S : κ → R) (xs : Nat → Entry R κ) (r : Nat) :
    written s S xs r + ∑ c ∈ Finset.range r, coupling (s := s) xs r c * written s S xs c =
      (xs r).value * (xs r).beta - dot s S (fun d => (xs r).key d * (xs r).beta * gate xs 0 (r + 1)) := by
  have hfound : dot s S (fun d => (xs r).key d * (xs r).beta * gate xs 0 (r + 1)) =
      dot s S (xs r).key * ((xs r).beta * gate xs 0 (r + 1)) := by
    rw [dot_comm, dot_comm S, ← dot_mul_right]
    simp only [mul_assoc]
  have hsum : ∑ c ∈ Finset.range r, coupling (s := s) xs r c * written s S xs c =
      (∑ c ∈ Finset.range r, gate xs (c + 1) r * dot s (xs c).key (xs r).key * written s S xs c) *
        ((xs r).decay * (xs r).beta) := by
    rw [Finset.sum_mul]
    apply Finset.sum_congr rfl
    intro c hc
    have hlt := Finset.mem_range.1 hc
    rw [coupling, if_pos hlt, gate_succ (Nat.succ_le_of_lt hlt), dot_comm (xs r).key]
    ring
  rw [hsum, hfound, gate_succ (Nat.zero_le r)]
  show delta s (run s S xs r) (xs r) + _ = _
  rw [delta, dot_mul_right, dot_run]
  ring

end Run

/-! ## A block of tokens at once -/

section Block

variable {s} {n : Nat}

/-- The couplings within a block. -/
def couplings (s : Finset κ) (xs : Nat → Entry R κ) (n : Nat) : Matrix (Fin n) (Fin n) R :=
  fun r c => coupling (s := s) xs r c

/-- What the tokens of a block write, from the inverse of its couplings. -/
theorem written_block (S : κ → R) (xs : Nat → Entry R κ) {P : Matrix (Fin n) (Fin n) R}
    (hP : (1 + couplings s xs n) * P = 1) (r : Fin n) :
    written s S xs r = ∑ c, P r c * ((xs c).value * (xs c).beta) -
      dot s (fun d => ∑ c, P r c * ((xs c).key d * (xs c).beta * gate xs 0 (c + 1))) S := by
  have hleft : P * (1 + couplings s xs n) = 1 := mul_eq_one_comm.1 hP
  have hsystem : (1 + couplings s xs n).mulVec (fun c => written s S xs c) = fun c : Fin n =>
      (xs c).value * (xs c).beta - dot s S (fun d => (xs c).key d * (xs c).beta * gate xs 0 (c + 1)) := by
    ext c
    rw [← written_eq, Matrix.add_mulVec, Matrix.one_mulVec, Pi.add_apply]
    congr 1
    show ∑ j : Fin n, coupling (s := s) xs c j * written s S xs j = _
    rw [Fin.sum_univ_eq_sum_range (fun j => coupling (s := s) xs c j * written s S xs j) n]
    symm
    apply Finset.sum_subset (Finset.range_subset_range.2 c.isLt.le)
    intro j _ hj
    rw [coupling, if_neg (fun h => hj (Finset.mem_range.2 h)), zero_mul]
  have hwritten : (fun c : Fin n => written s S xs c) = P.mulVec fun c : Fin n =>
      (xs c).value * (xs c).beta - dot s S (fun d => (xs c).key d * (xs c).beta * gate xs 0 (c + 1)) := by
    rw [← hsystem, Matrix.mulVec_mulVec, hleft, Matrix.one_mulVec]
  have hdot : dot s (fun d => ∑ c, P r c * ((xs c).key d * (xs c).beta * gate xs 0 (c + 1))) S =
      ∑ c, P r c * dot s S (fun d => (xs c).key d * (xs c).beta * gate xs 0 (c + 1)) := by
    rw [dot_sum]
    apply Finset.sum_congr rfl
    intro c _
    rw [dot_comm S, mul_comm (P r c), ← dot_mul_right]
    simp only [mul_comm (P r c)]
  rw [hdot, ← Finset.sum_sub_distrib]
  have happly := congrFun hwritten r
  rw [Matrix.mulVec, dotProduct] at happly
  simp only [mul_sub] at happly
  exact happly

end Block

end DeltaRule
