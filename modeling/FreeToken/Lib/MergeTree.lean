import Mathlib.Data.List.Perm.Basic
import Mathlib.Algebra.Order.Ring.Nat
import Mathlib.Algebra.BigOperators.Group.List.Basic
import Mathlib.Tactic.Ring

/-!
# Trees from merging

Binary trees with the depths of their leaves, and how deep trees get when the two lightest are merged
again and again.
-/

set_option autoImplicit false

namespace MergeTree

variable {α : Type*}

inductive Tree (α : Type*)
  | leaf (a : α)
  | node (l r : Tree α)

namespace Tree

def height : Tree α → Nat
  | leaf _ => 0
  | node l r => max l.height r.height + 1

def leaves : Tree α → List α
  | leaf a => [a]
  | node l r => l.leaves ++ r.leaves

/-- The leaves with their depths, for a root at depth `d`. -/
def depths : Nat → Tree α → List (α × Nat)
  | d, leaf a => [(a, d)]
  | d, node l r => l.depths (d + 1) ++ r.depths (d + 1)

theorem depths_fst (t : Tree α) (d : Nat) : (t.depths d).map Prod.fst = t.leaves := by
  induction t generalizing d with
  | leaf a => rfl
  | node l r ihl ihr =>
      show ((l.depths (d + 1)) ++ (r.depths (d + 1))).map Prod.fst = l.leaves ++ r.leaves
      rw [List.map_append, ihl, ihr]

theorem depths_le {t : Tree α} {d : Nat} {p : α × Nat} (h : p ∈ t.depths d) :
    d ≤ p.2 ∧ p.2 ≤ d + t.height := by
  induction t generalizing d with
  | leaf a =>
      rw [List.mem_singleton.mp h]
      exact ⟨Nat.le_refl d, Nat.le_refl d⟩
  | node l r ihl ihr =>
      have hh : (node l r).height = max l.height r.height + 1 := rfl
      rcases List.mem_append.mp h with h | h
      · have := ihl h
        omega
      · have := ihr h
        omega

theorem depths_ne_nil (t : Tree α) (d : Nat) : t.depths d ≠ [] := by
  induction t generalizing d with
  | leaf a => exact List.cons_ne_nil _ _
  | node l r ihl _ => exact List.append_ne_nil_of_left_ne_nil (ihl (d + 1)) _

/-- The leaves of a tree fill the cells below its root. -/
theorem kraft {L : Nat} : ∀ (t : Tree α) (d : Nat), (∀ p ∈ t.depths d, p.2 ≤ L) →
    ((t.depths d).map fun p => 2 ^ (L - p.2)).sum = 2 ^ (L - d)
  | leaf a, d, _ => by
      show (2 ^ (L - d) + 0) = 2 ^ (L - d)
      rw [Nat.add_zero]
  | node l r, d, h => by
      obtain ⟨p, hp⟩ := List.exists_mem_of_ne_nil _ (depths_ne_nil l (d + 1))
      have hd : d + 1 ≤ L :=
        Nat.le_trans (depths_le hp).1 (h p (List.mem_append_left _ hp))
      show ((l.depths (d + 1) ++ r.depths (d + 1)).map fun p => 2 ^ (L - p.2)).sum = 2 ^ (L - d)
      rw [List.map_append, List.sum_append, kraft l (d + 1) fun p hp => h p (List.mem_append_left _ hp),
        kraft r (d + 1) fun p hp => h p (List.mem_append_right _ hp), ← Nat.two_mul,
        ← Nat.pow_succ']
      congr 1
      omega

end Tree

/-! ## Merging the lightest of equal weights -/

/-- Strictly between two neighbouring powers. -/
def Odd (F k : Nat) (e : Nat × Nat) : Prop := F * 2 ^ k < e.1 ∧ e.1 < F * 2 ^ (k + 1)

instance (F k : Nat) (e : Nat × Nat) : Decidable (Odd F k e) := by
  unfold Odd
  infer_instance

/-- Weight and height of a tree in a heap that was `F` at every leaf: `2 ^ k` or `2 ^ (k + 1)` leaves,
or between the two, and then it is the only one. -/
def Good (F k : Nat) (e : Nat × Nat) : Prop :=
  (e.1 = F * 2 ^ k ∧ e.2 ≤ k) ∨ (Odd F k e ∧ e.2 ≤ k + 1) ∨ (e.1 = F * 2 ^ (k + 1) ∧ e.2 ≤ k + 1)

structure Even (F k : Nat) (heap : List (Nat × Nat)) : Prop where
  good : ∀ e ∈ heap, Good F k e
  odd : heap.countP (fun e => decide (Odd F k e)) ≤ 1

variable {F k : Nat} {heap heap' : List (Nat × Nat)}

theorem Even.perm (h : Even F k heap) (hp : heap.Perm heap') : Even F k heap' where
  good := fun e he => h.good e (hp.mem_iff.mpr he)
  odd := by
    rw [← hp.countP_eq]
    exact h.odd

theorem even_leaves (F : Nat) {heap : List (Nat × Nat)} (h : ∀ e ∈ heap, e = (F, 0)) :
    Even F 0 heap where
  good := by
    intro e he
    rw [h e he]
    exact .inl ⟨(Nat.mul_one F).symm, Nat.le_refl 0⟩
  odd := by
    rw [List.countP_eq_zero.mpr]
    · exact Nat.zero_le 1
    · intro e he hodd
      have hodd' := of_decide_eq_true hodd
      rw [h e he] at hodd'
      exact absurd hodd'.1 (by rw [Nat.pow_zero, Nat.mul_one]; exact Nat.lt_irrefl F)

theorem countP_odd_of_full {rest : List (Nat × Nat)} {j : Nat}
    (h : ∀ e ∈ rest, e.1 = F * 2 ^ (j + 1)) :
    rest.countP (fun e => decide (Odd F (j + 1) e)) = 0 := by
  apply List.countP_eq_zero.mpr
  intro e he hodd
  have := (of_decide_eq_true hodd).1
  rw [h e he] at this
  exact Nat.lt_irrefl _ this

/-- The two lightest merge to a tree that keeps the heap even. -/
theorem Even.merge {a b : Nat × Nat} {rest : List (Nat × Nat)} (hF : 0 < F)
    (h : Even F k (a :: b :: rest)) (hab : a.1 ≤ b.1) (hb : ∀ e ∈ rest, b.1 ≤ e.1) :
    ∃ j, Even F j ((a.1 + b.1, max a.2 b.2 + 1) :: rest) := by
  have hpos : 0 < F * 2 ^ k := Nat.mul_pos hF (Nat.two_pow_pos k)
  have hdouble : F * 2 ^ (k + 1) = 2 * (F * 2 ^ k) := by
    rw [Nat.pow_succ]
    ring
  have hquad : F * 2 ^ (k + 1 + 1) = 4 * (F * 2 ^ k) := by
    rw [Nat.pow_succ, Nat.pow_succ]
    ring
  have hga := h.good a List.mem_cons_self
  have hgb := h.good b (List.mem_cons_of_mem a List.mem_cons_self)
  have hgrest : ∀ e ∈ rest, Good F k e :=
    fun e he => h.good e (List.mem_cons_of_mem a (List.mem_cons_of_mem b he))
  have hodd := h.odd
  rw [List.countP_cons, List.countP_cons] at hodd
  by_cases hbk : b.1 = F * 2 ^ k
  · -- two of the lightest kind
    refine ⟨k, ?_, ?_⟩
    · intro e he
      rcases List.mem_cons.mp he with rfl | he
      · refine .inr (.inr ⟨?_, ?_⟩)
        · show a.1 + b.1 = _
          rcases hga with ⟨ha, -⟩ | ⟨ha, -⟩ | ⟨ha, -⟩
          · omega
          · have := ha.1
            omega
          · omega
        · show max a.2 b.2 + 1 ≤ k + 1
          have hak : a.2 ≤ k := by
            rcases hga with ⟨-, ha⟩ | ⟨ha, -⟩ | ⟨ha, -⟩
            · exact ha
            · have := ha.1
              omega
            · omega
          have hbk' : b.2 ≤ k := by
            rcases hgb with ⟨-, hb⟩ | ⟨hb, -⟩ | ⟨hb, -⟩
            · exact hb
            · have := hb.1
              omega
            · omega
          omega
      · exact hgrest e he
    · rw [List.countP_cons, if_neg]
      · omega
      · intro hnew
        have hnew' : a.1 + b.1 < F * 2 ^ (k + 1) := (of_decide_eq_true hnew).2
        have hlow : F * 2 ^ k ≤ a.1 := by
          rcases hga with ⟨ha, -⟩ | ⟨ha, -⟩ | ⟨ha, -⟩
          · omega
          · have := ha.1
            omega
          · omega
        omega
  · -- the lightest kind is used up: the rest has `2 ^ (k + 1)` leaves each
    have hfull : ∀ e ∈ rest, e.1 = F * 2 ^ (k + 1) ∧ e.2 ≤ k + 1 := by
      intro e he
      have hbe := hb e he
      rcases hgrest e he with ⟨he', -⟩ | ⟨heodd, -⟩ | hefull
      · rcases hgb with ⟨hb', -⟩ | ⟨hb', -⟩ | ⟨hb', -⟩
        · exact absurd hb' hbk
        · have := hb'.1
          omega
        · omega
      · have hcount : 0 < rest.countP fun e => decide (Odd F k e) :=
          List.countP_pos_iff.mpr ⟨e, he, decide_eq_true heodd⟩
        rcases hgb with ⟨hb', -⟩ | ⟨hb', -⟩ | ⟨hb', -⟩
        · exact absurd hb' hbk
        · rw [if_pos (decide_eq_true hb')] at hodd
          omega
        · have := heodd.2
          omega
      · exact hefull
    refine ⟨k + 1, ?_, ?_⟩
    · intro e he
      rcases List.mem_cons.mp he with rfl | he
      · have hheight : max a.2 b.2 + 1 ≤ k + 1 + 1 := by
          have hak : a.2 ≤ k + 1 := by
            rcases hga with ⟨-, ha⟩ | ⟨-, ha⟩ | ⟨-, ha⟩ <;> omega
          have hbk' : b.2 ≤ k + 1 := by
            rcases hgb with ⟨-, hb⟩ | ⟨-, hb⟩ | ⟨-, hb⟩ <;> omega
          omega
        rcases hgb with ⟨hb', -⟩ | ⟨hb', -⟩ | ⟨hb', -⟩
        · exact absurd hb' hbk
        · -- the odd tree goes with one of the lightest
          rw [if_pos (decide_eq_true hb')] at hodd
          have hlt := hb'.2
          have hgt := hb'.1
          rcases hga with ⟨ha, -⟩ | ⟨ha, -⟩ | ⟨ha, -⟩
          · refine .inr (.inl ⟨⟨?_, ?_⟩, hheight⟩)
            · show F * 2 ^ (k + 1) < a.1 + b.1
              omega
            · show a.1 + b.1 < F * 2 ^ (k + 1 + 1)
              omega
          · rw [if_pos (decide_eq_true ha)] at hodd
            omega
          · omega
        · rcases hga with ⟨ha, -⟩ | ⟨ha, -⟩ | ⟨ha, -⟩
          · refine .inr (.inl ⟨⟨?_, ?_⟩, hheight⟩)
            · show F * 2 ^ (k + 1) < a.1 + b.1
              omega
            · show a.1 + b.1 < F * 2 ^ (k + 1 + 1)
              omega
          · have hgt := ha.1
            have hlt := ha.2
            refine .inr (.inl ⟨⟨?_, ?_⟩, hheight⟩)
            · show F * 2 ^ (k + 1) < a.1 + b.1
              omega
            · show a.1 + b.1 < F * 2 ^ (k + 1 + 1)
              omega
          · refine .inr (.inr ⟨?_, hheight⟩)
            show a.1 + b.1 = _
            omega
      · exact .inl (hfull e he)
    · rw [List.countP_cons, countP_odd_of_full fun e he => (hfull e he).1]
      split <;> omega

/-- What is left in the end is no higher than a full tree over as many leaves. -/
theorem Even.height_le {n m d : Nat} (hF : 0 < F) (h : Even F k [(F * n, d)]) (hn : n ≤ 2 ^ m) :
    d ≤ m := by
  have hbound : ∀ j, F * 2 ^ j ≤ F * n → j ≤ m := by
    intro j hj
    have hle : 2 ^ j ≤ 2 ^ m := Nat.le_trans (Nat.le_of_mul_le_mul_left hj hF) hn
    exact (Nat.pow_le_pow_iff_right (by omega)).mp hle
  rcases h.good _ List.mem_cons_self with ⟨hw, hd⟩ | ⟨hodd, hd⟩ | ⟨hw, hd⟩
  · exact Nat.le_trans hd (hbound k (Nat.le_of_eq hw.symm))
  · have hlt : 2 ^ k < 2 ^ m :=
      Nat.lt_of_lt_of_le (Nat.lt_of_mul_lt_mul_left hodd.1) hn
    have hkm : k < m := (Nat.pow_lt_pow_iff_right (by omega)).mp hlt
    exact Nat.le_trans hd hkm
  · exact Nat.le_trans hd (hbound (k + 1) (Nat.le_of_eq hw.symm))

end MergeTree
