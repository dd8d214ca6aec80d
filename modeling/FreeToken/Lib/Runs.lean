import Mathlib.Data.List.Basic

/-!
# Runs of consecutive numbers

A list cut where the next element is not the successor, by array operations: the differences of
neighbours, the positions of the marks, the start and the length of each run.
-/

set_option autoImplicit false

namespace Runs

/-- The differences of neighbours. -/
def diff (xs : List Nat) : List Int := List.zipWith (fun a b : Nat => (b : Int) - a) xs xs.tail

/-- The positions of the marks. -/
def nonzero (marks : List Bool) : List Nat :=
  (List.range marks.length).filter fun i => marks.getD i false

def breaks (xs : List Nat) : List Nat :=
  (nonzero ((diff xs).map fun d => decide (d ≠ 1))).map (· + 1)

/-- The positions where a run starts. -/
def runStarts (xs : List Nat) : List Nat := 0 :: breaks xs

def starts (xs : List Nat) : List Nat := (runStarts xs).map fun i => xs.getD i 0

def lengths (xs : List Nat) : List Nat := (diff (runStarts xs ++ [xs.length])).map Int.toNat

/-- The start and the length of each run. -/
def runs (xs : List Nat) : List (Nat × Nat) := (starts xs).zip (lengths xs)

def expand (rs : List (Nat × Nat)) : List Nat := rs.flatMap fun r => List.range' r.1 r.2

/-! ## The array operations along a list -/

theorem diff_cons_cons (a b : Nat) (xs : List Nat) :
    diff (a :: b :: xs) = ((b : Int) - a) :: diff (b :: xs) := rfl

theorem diff_map_succ (xs : List Nat) : diff (xs.map (· + 1)) = diff xs := by
  unfold diff
  rw [← List.map_tail, List.zipWith_map]
  congr 1
  ext a b
  push_cast
  omega

theorem nonzero_cons (m : Bool) (ms : List Bool) :
    nonzero (m :: ms) = (if m then [0] else []) ++ (nonzero ms).map (· + 1) := by
  unfold nonzero
  rw [List.length_cons, List.range_succ_eq_map, List.filter_cons, List.filter_map]
  cases m <;> rfl

theorem breaks_cons_cons (a b : Nat) (xs : List Nat) :
    breaks (a :: b :: xs) =
      (if b = a + 1 then [] else [1]) ++ (breaks (b :: xs)).map (· + 1) := by
  have hmark : decide ((b : Int) - a ≠ 1) = !decide (b = a + 1) := by
    by_cases hb : b = a + 1
    · rw [decide_eq_false (by omega), decide_eq_true hb]
      rfl
    · rw [decide_eq_true (by omega), decide_eq_false hb]
      rfl
  unfold breaks
  rw [diff_cons_cons, List.map_cons, nonzero_cons, hmark, List.map_append]
  by_cases hb : b = a + 1
  · simp [hb]
  · simp [hb]

/-! ## The runs of a list -/

/-- The first run starts with the list. -/
theorem runs_head (a : Nat) (xs : List Nat) : ∃ n rs, runs (a :: xs) = (a, n) :: rs := by
  unfold runs starts lengths runStarts
  cases hb : breaks (a :: xs) with
  | nil => exact ⟨_, _, rfl⟩
  | cons i is => exact ⟨_, _, rfl⟩

theorem starts_shift (a : Nat) (xs is : List Nat) :
    (is.map (· + 1)).map (fun i => (a :: xs).getD i 0) = is.map fun i => xs.getD i 0 := by
  rw [List.map_map]
  rfl

/-- A gap closes the run of one element. -/
theorem runs_gap {a b : Nat} (h : b ≠ a + 1) (xs : List Nat) :
    runs (a :: b :: xs) = (a, 1) :: runs (b :: xs) := by
  have hcut : runStarts (a :: b :: xs) = 0 :: (runStarts (b :: xs)).map (· + 1) := by
    unfold runStarts
    rw [breaks_cons_cons, if_neg h]
    rfl
  have hstarts : starts (a :: b :: xs) = a :: starts (b :: xs) := by
    unfold starts
    rw [hcut, List.map_cons, starts_shift]
    rfl
  have hlengths : lengths (a :: b :: xs) = 1 :: lengths (b :: xs) := by
    have hend : (runStarts (b :: xs)).map (· + 1) ++ [(a :: b :: xs).length] =
        (runStarts (b :: xs) ++ [(b :: xs).length]).map (· + 1) := by
      rw [List.map_append]
      rfl
    unfold lengths
    rw [hcut, List.cons_append, hend, ← diff_map_succ (runStarts (b :: xs) ++ _)]
    rfl
  unfold runs
  rw [hstarts, hlengths, List.zip_cons_cons]

/-- A successor lengthens the run that follows. -/
theorem runs_next {b n : Nat} {xs : List Nat} {rs : List (Nat × Nat)} (a : Nat) (h : b = a + 1)
    (hrs : runs (b :: xs) = (b, n) :: rs) : runs (a :: b :: xs) = (a, n + 1) :: rs := by
  have hcut : runStarts (a :: b :: xs) = 0 :: (breaks (b :: xs)).map (· + 1) := by
    unfold runStarts
    rw [breaks_cons_cons, if_pos h]
    rfl
  have hstarts : starts (a :: b :: xs) = a :: (starts (b :: xs)).tail := by
    unfold starts
    rw [hcut, List.map_cons, starts_shift]
    rfl
  have hlengths : ∃ m ms, lengths (b :: xs) = m :: ms ∧
      lengths (a :: b :: xs) = (m + 1) :: ms := by
    have hend : (breaks (b :: xs)).map (· + 1) ++ [(a :: b :: xs).length] =
        (breaks (b :: xs) ++ [(b :: xs).length]).map (· + 1) := by
      rw [List.map_append]
      rfl
    unfold lengths
    rw [hcut, List.cons_append, hend]
    change ∃ m ms, (diff (0 :: (breaks (b :: xs) ++ [(b :: xs).length]))).map Int.toNat = m :: ms ∧ _
    cases hne : breaks (b :: xs) ++ [(b :: xs).length] with
    | nil => exact absurd hne (by simp)
    | cons i is =>
        refine ⟨i, (diff (i :: is)).map Int.toNat, ?_, ?_⟩
        · rw [diff_cons_cons, List.map_cons]
          rfl
        · rw [List.map_cons, diff_cons_cons, ← List.map_cons (f := (· + 1)), diff_map_succ,
            List.map_cons]
          rfl
  obtain ⟨m, ms, hold, hnew⟩ := hlengths
  unfold runs at hrs ⊢
  rw [hstarts, hnew, List.zip_cons_cons]
  cases hs : starts (b :: xs) with
  | nil =>
      rw [hs] at hrs
      cases hrs
  | cons s ss =>
      rw [hs, hold, List.zip_cons_cons] at hrs
      cases hrs
      rfl

theorem runs_singleton (a : Nat) : runs [a] = [(a, 1)] := by
  simp [runs, starts, lengths, runStarts, breaks, nonzero, diff]

/-- No run is empty. -/
theorem runs_pos (xs : List Nat) : ∀ a, ∀ r ∈ runs (a :: xs), 0 < r.2 := by
  induction xs with
  | nil =>
      intro a r hr
      rw [runs_singleton, List.mem_singleton] at hr
      rw [hr]
      exact Nat.one_pos
  | cons b xs ih =>
      intro a r hr
      have hrest := ih b
      by_cases h : b = a + 1
      · obtain ⟨n, rs, hrs⟩ := runs_head b xs
        rw [hrs] at hrest
        rw [runs_next a h hrs] at hr
        rcases List.mem_cons.1 hr with rfl | hr
        · exact Nat.succ_pos n
        · exact hrest r (List.mem_cons_of_mem _ hr)
      · rw [runs_gap h] at hr
        rcases List.mem_cons.1 hr with rfl | hr
        · exact Nat.one_pos
        · exact hrest r hr

/-- The runs are the list. -/
theorem expand_runs (a : Nat) (xs : List Nat) : expand (runs (a :: xs)) = a :: xs := by
  induction xs generalizing a with
  | nil =>
      rw [runs_singleton]
      rfl
  | cons b xs ih =>
      by_cases h : b = a + 1
      · obtain ⟨n, rs, hrs⟩ := runs_head b xs
        have hrest := ih b
        rw [hrs] at hrest
        rw [runs_next a h hrs]
        unfold expand at hrest ⊢
        rw [List.flatMap_cons] at hrest ⊢
        rw [List.range'_succ, ← h, List.cons_append, hrest]
      · have hrest := ih b
        rw [runs_gap h]
        unfold expand at hrest ⊢
        rw [List.flatMap_cons, hrest]
        rfl

theorem mem_expand {rs : List (Nat × Nat)} {e : Nat} :
    e ∈ expand rs ↔ ∃ r ∈ rs, r.1 ≤ e ∧ e < r.1 + r.2 := by
  simp only [expand, List.mem_flatMap, List.mem_range'_1]

end Runs
