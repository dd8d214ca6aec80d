import Mathlib

/-!
# Vectors of lanes

The vector operations of a kernel that runs in one block: scattered stores, reductions over the lanes,
and the rank of a marked lane among the marked ones.
-/

set_option autoImplicit false

namespace Lanes

open Function

variable {V : Type} {block : Nat}

/-! ## Stores -/

/-- The store of one value at several addresses. -/
def scatter (f : Nat → V) (addrs : List Nat) (v : V) : Nat → V :=
  addrs.foldl (fun f a => update f a v) f

theorem scatter_apply (f : Nat → V) (addrs : List Nat) (v : V) (a : Nat) :
    scatter f addrs v a = if a ∈ addrs then v else f a := by
  unfold scatter
  induction addrs using List.reverseRecOn with
  | nil => rfl
  | append_singleton addrs b ih =>
      rw [List.foldl_append, List.foldl_cons, List.foldl_nil]
      by_cases hab : a = b
      · rw [hab, update_self, if_pos (by simp)]
      · rw [update_of_ne hab, ih]
        simp only [List.mem_append, List.mem_singleton, hab, or_false]

/-- The store of a vector behind a mask, each lane at its address. -/
def store (f : Nat → V) (block : Nat) (mask : Nat → Bool) (addr : Nat → Nat) (v : Nat → V) : Nat → V :=
  ((List.range block).filter mask).foldl (fun f e => update f (addr e) (v e)) f

/-- An address that one lane writes. -/
theorem store_apply {mask : Nat → Bool} {addr : Nat → Nat} {m : Nat} (f : Nat → V) (v : Nat → V)
    (hm : m ∈ (List.range block).filter mask)
    (hone : ∀ e ∈ (List.range block).filter mask, addr e = addr m → e = m) :
    store f block mask addr v (addr m) = v m := by
  unfold store
  generalize (List.range block).filter mask = lanes at hm hone ⊢
  induction lanes using List.reverseRecOn with
  | nil => cases hm
  | append_singleton l e ih =>
      rw [List.foldl_append, List.foldl_cons, List.foldl_nil]
      by_cases he : addr m = addr e
      · have hem : e = m := hone e (by simp) he.symm
        rw [hem, update_self]
      · rw [update_of_ne he]
        have hml : m ∈ l := by
          rcases List.mem_append.1 hm with hm | hm
          · exact hm
          · exact absurd (congrArg addr (List.mem_singleton.1 hm)) he
        exact ih hml fun e' he' => hone e' (List.mem_append_left _ he')

/-! ## Reductions -/

/-- The order that runs: Mathlib also has one that does not. -/
local instance preorderInt : Preorder Int := Int.instLinearOrder.toPreorder

/-- The lowest lane with the least value. -/
def argmin (block : Nat) (u : Nat → Int) : Nat := ((List.range block).argmin u).getD 0

/-- The lowest lane with the greatest value. -/
def argmax (block : Nat) (u : Nat → Int) : Nat := ((List.range block).argmax u).getD 0

def sum (block : Nat) (u : Nat → Int) : Int := ((List.range block).map u).sum

theorem idxOf_range {n k : Nat} (h : k < n) : (List.range n).idxOf k = k := by
  have hk : k < (List.range n).length := by rwa [List.length_range]
  have hget := List.nodup_range.idxOf_getElem k hk
  rwa [List.getElem_range] at hget

theorem argmin_range_eq_some {β : Type} [LinearOrder β] {u : Nat → β} {n m : Nat} :
    (List.range n).argmin u = some m ↔
      m < n ∧ (∀ a < n, u m ≤ u a) ∧ ∀ a < n, u a ≤ u m → m ≤ a := by
  rw [List.argmin_eq_some_iff]
  simp only [List.mem_range]
  constructor
  · rintro ⟨hm, hle, hidx⟩
    refine ⟨hm, hle, fun a ha hau => ?_⟩
    have h := hidx a ha hau
    rwa [idxOf_range hm, idxOf_range ha] at h
  · rintro ⟨hm, hle, hidx⟩
    refine ⟨hm, hle, fun a ha hau => ?_⟩
    rw [idxOf_range hm, idxOf_range ha]
    exact hidx a ha hau

theorem argmin_eq {u : Nat → Int} {m : Nat} (hm : m < block) (hle : ∀ a < block, u m ≤ u a)
    (hfirst : ∀ a < block, u a ≤ u m → m ≤ a) : argmin block u = m := by
  unfold argmin
  rw [argmin_range_eq_some.2 ⟨hm, hle, hfirst⟩]
  rfl

/-- A lane above all others is the one with the greatest value. -/
theorem argmax_eq {u : Nat → Int} {m : Nat} (hm : m < block) (hlt : ∀ a < block, a ≠ m → u a < u m) :
    argmax block u = m := by
  have hmem : m ∈ List.range block := List.mem_range.2 hm
  unfold argmax
  cases hmax : (List.range block).argmax u with
  | none =>
      rw [List.argmax_eq_none.1 hmax] at hmem
      cases hmem
  | some a =>
      have hle := List.le_of_mem_argmax hmem hmax
      have ha := List.mem_range.1 (List.argmax_mem hmax)
      by_contra hne
      exact absurd (hlt a ha hne) (not_lt.2 hle)

/-- A sum with one lane that is not zero. -/
theorem sum_single {u : Nat → Int} {m : Nat} (hm : m < block) (hzero : ∀ a < block, a ≠ m → u a = 0) :
    sum block u = u m := by
  unfold sum
  induction block with
  | zero => exact absurd hm (Nat.not_lt_zero m)
  | succ n ih =>
      rw [List.range_succ, List.map_append, List.sum_append, List.map_singleton, List.sum_singleton]
      by_cases hmn : m = n
      · have hrest : ((List.range n).map u).sum = 0 := by
          apply List.sum_eq_zero
          intro x hx
          obtain ⟨a, ha, rfl⟩ := List.mem_map.1 hx
          have han := List.mem_range.1 ha
          exact hzero a (Nat.lt_succ_of_lt han) (by omega)
        rw [hrest, hmn, zero_add]
      · rw [ih (by omega) fun a ha hne => hzero a (Nat.lt_succ_of_lt ha) hne,
          hzero n (Nat.lt_succ_self n) (Ne.symm hmn), add_zero]

/-- The number of marked lanes. -/
theorem sum_indicator (p : Nat → Bool) :
    sum block (fun a => if p a then 1 else 0) = (List.range block).countP p := by
  unfold sum
  induction List.range block with
  | nil => rfl
  | cons a l ih =>
      rw [List.map_cons, List.sum_cons, ih, List.countP_cons]
      split <;> push_cast <;> omega

/-! ## Ranks -/

/-- The inclusive count of marked lanes. -/
def cumsum (p : Nat → Bool) (a : Nat) : Nat := (List.range (a + 1)).countP p

theorem cumsum_pos {p : Nat → Bool} {a : Nat} (hp : p a = true) : 0 < cumsum p a := by
  unfold cumsum
  exact List.countP_pos_iff.2 ⟨a, List.mem_range.2 (Nat.lt_succ_self a), hp⟩

/-- A marked lane stands among the marked ones at the number of those before it. -/
theorem filter_range_getElem? {p : Nat → Bool} {a : Nat} (ha : a < block) (hp : p a = true) :
    ((List.range block).filter p)[cumsum p a - 1]? = some a := by
  have hrank : cumsum p a - 1 = (List.range a).countP p := by
    unfold cumsum
    rw [List.range_succ, List.countP_append, List.countP_singleton, if_pos hp, Nat.add_sub_cancel]
  rw [hrank]
  induction block with
  | zero => exact absurd ha (Nat.not_lt_zero a)
  | succ n ih =>
      rw [List.range_succ, List.filter_append]
      by_cases han : a = n
      · rw [han] at hp ⊢
        rw [List.countP_eq_length_filter, List.getElem?_append_right (Nat.le_refl _), Nat.sub_self]
        simp [hp]
      · have hold := ih (by omega)
        rw [List.getElem?_append_left (List.getElem?_eq_some_iff.1 hold).1]
        exact hold

/-- The lane that is marked and of rank `i`. -/
theorem rank_iff {p : Nat → Bool} {i m : Nat} (hm : ((List.range block).filter p)[i]? = some m)
    {a : Nat} (ha : a < block) : (cumsum p a - 1 = i ∧ p a = true) ↔ a = m := by
  have hmem := List.mem_filter.1 (List.mem_of_getElem? hm)
  have hmrank := filter_range_getElem? (List.mem_range.1 hmem.1) hmem.2
  constructor
  · rintro ⟨rfl, hp⟩
    have hrank := filter_range_getElem? ha hp
    exact Option.some.inj (hrank.symm.trans hm)
  · rintro rfl
    refine ⟨?_, hmem.2⟩
    have hnd : ((List.range block).filter p).Nodup := List.nodup_range.filter p
    exact (List.getElem?_inj (List.getElem?_eq_some_iff.1 hmrank).1 hnd).1 (hmrank.trans hm.symm)

/-- A compaction: the marked lane of rank `i` stores at `i`. -/
theorem store_cumsum {p : Nat → Bool} {i m : Nat} (f : Nat → V) (v : Nat → V)
    (hm : ((List.range block).filter p)[i]? = some m) :
    store f block p (fun e => cumsum p e - 1) v i = v m := by
  have hmem := List.mem_of_getElem? hm
  have hmlt := List.mem_range.1 (List.mem_filter.1 hmem).1
  have hmi : cumsum p m - 1 = i := ((rank_iff hm hmlt).2 rfl).1
  have hstore : store f block p (fun e => cumsum p e - 1) v (cumsum p m - 1) = v m :=
    store_apply f v hmem fun e he heq => by
      have helt := List.mem_range.1 (List.mem_filter.1 he).1
      exact (rank_iff hm helt).1 ⟨heq.trans hmi, (List.mem_filter.1 he).2⟩
  rwa [hmi] at hstore

end Lanes
