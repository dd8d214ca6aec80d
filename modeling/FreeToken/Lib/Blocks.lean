import Mathlib.Data.List.Flatten
import Mathlib.Data.List.Pairwise
import Mathlib.Data.List.Perm.Subperm
import Mathlib.Data.List.Nodup
import Mathlib.Data.List.Sort
import Mathlib.Data.Nat.Init
import Mathlib.Algebra.BigOperators.Group.List.Basic
import Mathlib.Algebra.Order.BigOperators.Group.List
import Mathlib.Logic.Relation
import Mathlib.Tactic.Common
import Mathlib.Tactic.Linarith

/-!
# Block arithmetic and strided lists

Rounding to a block size, and the strided slice `l[::k]` of a list: every block contributes its
first element.  Slices cut at block boundaries commute with appending, and the stride of a list
that lists whole blocks gives the block bases back.
-/

namespace Blocks

def alignDown (a b : Nat) : Nat := a / b * b

def divCeil (a b : Nat) : Nat := (a + b - 1) / b

/-- Rounding down for a signed length (floor division). -/
def alignDownInt (a : Int) (b : Nat) : Int := a / b * b

theorem alignDown_le (a b : Nat) : alignDown a b ≤ a := Nat.div_mul_le_self a b

theorem dvd_alignDown (a b : Nat) : b ∣ alignDown a b := Nat.dvd_mul_left b (a / b)

theorem lt_alignDown_add (a : Nat) {b : Nat} (hb : 0 < b) : a < alignDown a b + b := by
  unfold alignDown
  have h := Nat.mod_lt a hb
  have hd := Nat.div_add_mod' a b
  omega

theorem alignDown_of_dvd {a b : Nat} (h : b ∣ a) : alignDown a b = a := Nat.div_mul_cancel h

theorem le_alignDown {a b c : Nat} (hb : 0 < b) (hc : b ∣ c) (h : c ≤ a) : c ≤ alignDown a b := by
  obtain ⟨k, rfl⟩ := hc
  unfold alignDown
  rw [Nat.mul_comm b k] at h ⊢
  exact Nat.mul_le_mul_right b ((Nat.le_div_iff_mul_le hb).2 h)

theorem alignDown_mono {a c : Nat} (b : Nat) (h : a ≤ c) : alignDown a b ≤ alignDown c b :=
  Nat.mul_le_mul_right b (Nat.div_le_div_right h)

theorem divCeil_mul_of_dvd {a b : Nat} (hb : 0 < b) (h : b ∣ a) : divCeil a b * b = a := by
  obtain ⟨k, rfl⟩ := h
  unfold divCeil
  have hk : (b * k + b - 1) / b = k := by
    rw [Nat.div_eq_iff hb]
    rw [Nat.mul_comm b k]
    omega
  rw [hk, Nat.mul_comm]

theorem le_divCeil_mul (a : Nat) {b : Nat} (hb : 0 < b) : a ≤ divCeil a b * b := by
  unfold divCeil
  have h := Nat.mod_lt (a + b - 1) hb
  have hd := Nat.div_add_mod' (a + b - 1) b
  omega

theorem divCeil_mul_lt (a : Nat) {b : Nat} (hb : 0 < b) : divCeil a b * b < a + b := by
  unfold divCeil
  have hd := Nat.div_mul_le_self (a + b - 1) b
  omega

theorem divCeil_mono {a c : Nat} (b : Nat) (h : a ≤ c) : divCeil a b ≤ divCeil c b :=
  Nat.div_le_div_right (by omega)

theorem divCeil_mul_le {a b c : Nat} (hb : 0 < b) (hc : b ∣ c) (h : a ≤ c) :
    divCeil a b * b ≤ c := by
  rw [← divCeil_mul_of_dvd hb hc]
  exact Nat.mul_le_mul_right b (divCeil_mono b h)

theorem dvd_divCeil_mul (a b : Nat) : b ∣ divCeil a b * b := Nat.dvd_mul_left b _

theorem divCeil_add_mul (a k : Nat) {b : Nat} (hb : 0 < b) :
    divCeil (k * b + a) b = k + divCeil a b := by
  unfold divCeil
  rw [show k * b + a + b - 1 = a + b - 1 + k * b by omega, Nat.add_mul_div_right _ _ hb]
  omega

@[simp] theorem divCeil_zero {b : Nat} (hb : 0 < b) : divCeil 0 b = 0 := by
  unfold divCeil
  rw [Nat.div_eq_zero_iff]
  omega

@[simp] theorem divCeil_one (a : Nat) : divCeil a 1 = a := by simp [divCeil]

variable {α β : Type*}

/-- `l[::k]`: the elements at positions `0, k, 2k, …`. -/
def stride (k : Nat) (l : List α) : List α :=
  (List.range (divCeil l.length k)).filterMap (fun i => l[i * k]?)

/-- `f a, f (a + 1), …, f (b - 1)`: the slice `[a, b)` of an indexed row. -/
def slice (f : Nat → β) (a b : Nat) : List β := (List.range' a (b - a)).map f

@[simp] theorem length_slice (f : Nat → β) (a b : Nat) : (slice f a b).length = b - a := by
  simp [slice]

theorem getElem?_slice (f : Nat → β) (a b i : Nat) :
    (slice f a b)[i]? = if i < b - a then some (f (a + i)) else none := by
  unfold slice
  rw [List.getElem?_map]
  split
  · rename_i h
    rw [List.getElem?_range' h]
    simp
  · rename_i h
    rw [List.getElem?_eq_none (by simpa using h)]
    rfl

theorem slice_congr {f g : Nat → β} {a b : Nat} (h : ∀ i, a ≤ i → i < b → f i = g i) :
    slice f a b = slice g a b := by
  unfold slice
  apply List.map_congr_left
  intro i hi
  rw [List.mem_range'_1] at hi
  exact h i hi.1 (by omega)

theorem slice_append (f : Nat → β) {a b c : Nat} (hab : a ≤ b) (hbc : b ≤ c) :
    slice f a b ++ slice f b c = slice f a c := by
  unfold slice
  rw [← List.map_append]
  congr 1
  have h := List.range'_append_1 (s := a) (m := b - a) (n := c - b)
  rw [show a + (b - a) = b by omega, show b - a + (c - b) = c - a by omega] at h
  exact h

@[simp] theorem slice_self (f : Nat → β) (a : Nat) : slice f a a = [] := by simp [slice]

theorem slice_of_le (f : Nat → β) {a b : Nat} (h : b ≤ a) : slice f a b = [] := by
  simp [slice, Nat.sub_eq_zero_of_le h]

theorem mem_slice {f : Nat → β} {a b : Nat} {x : β} :
    x ∈ slice f a b ↔ ∃ i, a ≤ i ∧ i < b ∧ f i = x := by
  unfold slice
  rw [List.mem_map]
  constructor
  · rintro ⟨i, hi, rfl⟩
    rw [List.mem_range'_1] at hi
    exact ⟨i, hi.1, by omega, rfl⟩
  · rintro ⟨i, ha, hb, rfl⟩
    exact ⟨i, List.mem_range'_1.2 ⟨ha, by omega⟩, rfl⟩

@[simp] theorem stride_nil (k : Nat) : stride k ([] : List α) = [] := by
  simp [stride]

/-- The stride as a map: every position `i * k` below the length is in range. -/
theorem stride_slice (f : Nat → β) (a b : Nat) {k : Nat} (hk : 0 < k) :
    stride k (slice f a b) = (List.range (divCeil (b - a) k)).map (fun i => f (a + i * k)) := by
  unfold stride
  rw [length_slice, ← List.filterMap_eq_map]
  apply List.filterMap_congr
  intro i hi
  rw [List.mem_range] at hi
  have hlt : i * k < b - a := by
    have h1 := divCeil_mul_lt (b - a) hk
    have h2 : (i + 1) * k ≤ divCeil (b - a) k * k := Nat.mul_le_mul_right k hi
    rw [Nat.add_mul, Nat.one_mul] at h2
    omega
  rw [getElem?_slice, if_pos hlt]
  rfl

/-- A stride that starts on a block boundary does not see the end of the last block. -/
theorem stride_slice_divCeil (f : Nat → β) {a b k : Nat} (hk : 0 < k) (ha : k ∣ a) (hab : a ≤ b) :
    stride k (slice f a (divCeil b k * k)) = stride k (slice f a b) := by
  obtain ⟨m, rfl⟩ := ha
  obtain ⟨d, rfl⟩ := Nat.exists_eq_add_of_le hab
  have hround : divCeil (k * m + d) k = m + divCeil d k := by
    rw [Nat.mul_comm, divCeil_add_mul _ _ hk]
  have hlen : divCeil ((m + divCeil d k) * k - k * m) k = divCeil d k := by
    rw [Nat.add_mul, Nat.mul_comm m k, Nat.add_sub_cancel_left]
    have := divCeil_add_mul 0 (divCeil d k) hk
    simpa [hk] using this
  rw [stride_slice _ _ _ hk, stride_slice _ _ _ hk, hround, hlen, Nat.add_sub_cancel_left]

theorem stride_append {k : Nat} (hk : 0 < k) {a : List α} (b : List α) (h : k ∣ a.length) :
    stride k (a ++ b) = stride k a ++ stride k b := by
  obtain ⟨m, hm⟩ := h
  rw [Nat.mul_comm] at hm
  unfold stride
  rw [List.length_append, hm, divCeil_add_mul _ _ hk]
  have hmk : divCeil (m * k) k = m := by
    have := divCeil_add_mul 0 m hk
    simpa [hk] using this
  rw [hmk, List.range_add, List.filterMap_append, List.filterMap_map]
  congr 1
  · apply List.filterMap_congr
    intro i hi
    rw [List.mem_range] at hi
    have : i * k < a.length := by rw [hm]; exact Nat.mul_lt_mul_of_pos_right hi hk
    exact List.getElem?_append_left this
  · apply List.filterMap_congr
    intro i _
    show (a ++ b)[(m + i) * k]? = b[i * k]?
    rw [Nat.add_mul, List.getElem?_append_right (by omega), hm]
    congr 1
    omega

/-- The `k` consecutive slots of each block base. -/
def expand (k : Nat) (bases : List Nat) : List Nat :=
  bases.flatMap (fun b => (List.range k).map (b + ·))

@[simp] theorem length_expand (k : Nat) (bases : List Nat) :
    (expand k bases).length = bases.length * k := by
  induction bases with
  | nil => simp [expand]
  | cons b bs ih =>
      rw [expand, List.flatMap_cons, List.length_append, List.length_map, List.length_range,
        show (bs.flatMap fun b => (List.range k).map (b + ·)).length = bs.length * k from ih,
        List.length_cons, Nat.add_mul, Nat.one_mul, Nat.add_comm]

theorem stride_expand {k : Nat} (hk : 0 < k) (bases : List Nat) :
    stride k (expand k bases) = bases := by
  induction bases with
  | nil => simp [expand]
  | cons b bs ih =>
      have hone : stride k ((List.range k).map (b + ·)) = [b] := by
        have hs : (List.range k).map (b + ·) = slice (b + ·) 0 k := by
          simp [slice, List.range_eq_range']
        have hc : divCeil k k = 1 := by
          have := divCeil_add_mul 0 1 hk
          simpa [hk] using this
        rw [hs, stride_slice _ _ _ hk, Nat.sub_zero, hc]
        simp
      rw [expand, List.flatMap_cons, stride_append hk _ (by simp), hone]
      exact congrArg (b :: ·) ih

theorem getElem?_expand {k : Nat} (hk : 0 < k) (bases : List Nat) (i : Nat) :
    (expand k bases)[i]? = bases[i / k]?.map (· + i % k) := by
  induction bases generalizing i with
  | nil => simp [expand]
  | cons b bs ih =>
      rw [expand, List.flatMap_cons]
      by_cases hi : i < k
      · rw [List.getElem?_append_left (by simpa using hi), Nat.div_eq_of_lt hi,
          Nat.mod_eq_of_lt hi]
        simp [hi]
      · have hle : k ≤ i := Nat.le_of_not_lt hi
        rw [List.getElem?_append_right (by simpa using hle)]
        simp only [List.length_map, List.length_range]
        rw [show (bs.flatMap fun b => (List.range k).map (b + ·))[i - k]? =
          (expand k bs)[i - k]? from rfl, ih]
        obtain ⟨j, rfl⟩ := Nat.exists_eq_add_of_le hle
        rw [Nat.add_sub_cancel_left, Nat.add_div_left _ hk, Nat.add_mod_left]
        rfl

end Blocks
