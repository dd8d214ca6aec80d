import Mathlib

/-!
# A region of cells kept in stripes

A sequence of cells is stored as stripes that follow each other without a gap.  A window of it is
read back by pasting into a buffer.  Each paste carries the cells of its own place, so neither the
order of the pastes nor an overlap between them matters.
-/

set_option autoImplicit false

namespace Region

variable {α ι : Type*}

/-! ## Slices -/

def slice (r : List α) (off len : Nat) : List α := (r.drop off).take len

theorem getElem?_slice (r : List α) (off len i : Nat) :
    (slice r off len)[i]? = if i < len then r[off + i]? else none := by
  unfold slice
  rw [List.getElem?_take, List.getElem?_drop]

theorem length_slice {r : List α} {off len : Nat} (h : off + len ≤ r.length) :
    (slice r off len).length = len := by
  unfold slice
  rw [List.length_take, List.length_drop]
  omega

theorem slice_append {r : List α} (s : List α) {off len : Nat} (h : off + len ≤ r.length) :
    slice (r ++ s) off len = slice r off len := by
  apply List.ext_getElem?
  intro i
  rw [getElem?_slice, getElem?_slice]
  split
  · rw [List.getElem?_append_left (by omega)]
  · rfl

/-- What is appended to a region is the slice at its old end. -/
theorem slice_append_self (r s : List α) : slice (r ++ s) r.length s.length = s := by
  unfold slice
  rw [List.drop_left, List.take_length]

theorem slice_slice (r : List α) (off : Nat) {len a n : Nat} (h : a + n ≤ len) :
    slice (slice r off len) a n = slice r (off + a) n := by
  apply List.ext_getElem?
  intro i
  rw [getElem?_slice, getElem?_slice, getElem?_slice]
  split
  · rw [if_pos (by omega), Nat.add_assoc]
  · rfl

/-- The front of a slice of the whole length is the rest of the region. -/
theorem slice_to_end {r : List α} {off len : Nat} (h : r.length ≤ off + len) :
    slice r off len = r.drop off := by
  unfold slice
  apply List.take_of_length_le
  rw [List.length_drop]
  omega

theorem take_append_slice (r : List α) (off len : Nat) :
    r.take off ++ slice r off len = r.take (off + len) := by
  unfold slice
  rw [List.take_add]

/-! ## Pastes -/

/-- Write `s` over the cells of `d` from `off` on. -/
def paste (d : List α) (off : Nat) (s : List α) : List α :=
  d.take off ++ s ++ d.drop (off + s.length)

theorem length_paste {d s : List α} {off : Nat} (h : off + s.length ≤ d.length) :
    (paste d off s).length = d.length := by
  unfold paste
  rw [List.length_append, List.length_append, List.length_take, List.length_drop]
  omega

theorem getElem?_paste {d s : List α} {off : Nat} (h : off + s.length ≤ d.length) (i : Nat) :
    (paste d off s)[i]? = if off ≤ i ∧ i < off + s.length then s[i - off]? else d[i]? := by
  have htake : (d.take off).length = off := by
    rw [List.length_take]
    omega
  unfold paste
  split
  · rename_i hin
    rw [List.append_assoc, List.getElem?_append_right (by omega), htake,
      List.getElem?_append_left (by omega)]
  · rename_i hout
    by_cases hlt : i < off
    · rw [List.append_assoc, List.getElem?_append_left (by omega), List.getElem?_take, if_pos hlt]
    · have hfront : (d.take off ++ s).length = off + s.length := by
        rw [List.length_append, htake]
      rw [List.getElem?_append_right (by omega), List.getElem?_drop, hfront]
      congr 1
      omega

/-- The paste carries cells of `t` to their own place. -/
def Fits (t : List α) (p : Nat × List α) : Prop :=
  p.1 + p.2.length ≤ t.length ∧ p.2 = slice t p.1 p.2.length

theorem Fits.getElem? {t : List α} {p : Nat × List α} (h : Fits t p) {i : Nat} (hl : p.1 ≤ i)
    (hr : i < p.1 + p.2.length) : p.2[i - p.1]? = t[i]? := by
  rw [h.2, getElem?_slice, if_pos (by omega)]
  congr 1
  omega

/-- Pastes that fit and leave out no cell give the target, in whatever order they come. -/
theorem foldl_paste {t : List α} :
    ∀ {ps : List (Nat × List α)} {d : List α}, d.length = t.length → (∀ p ∈ ps, Fits t p) →
      (∀ i < t.length, (∃ p ∈ ps, p.1 ≤ i ∧ i < p.1 + p.2.length) ∨ d[i]? = t[i]?) →
      ps.foldl (fun d p => paste d p.1 p.2) d = t
  | [], d, hlen, _, hcov => by
      rw [List.foldl_nil]
      apply List.ext_getElem?
      intro i
      by_cases hi : i < t.length
      · rcases hcov i hi with ⟨p, hp, -⟩ | heq
        · exact absurd hp List.not_mem_nil
        · exact heq
      · rw [List.getElem?_eq_none (by omega), List.getElem?_eq_none (by omega)]
  | p :: ps, d, hlen, hfit, hcov => by
      have hp := hfit p List.mem_cons_self
      have hroom : p.1 + p.2.length ≤ d.length := by
        rw [hlen]
        exact hp.1
      rw [List.foldl_cons]
      apply foldl_paste
      · rw [length_paste hroom, hlen]
      · intro q hq
        exact hfit q (List.mem_cons_of_mem p hq)
      · intro i hi
        rw [getElem?_paste hroom]
        split
        · rename_i hin
          exact .inr (hp.getElem? hin.1 hin.2)
        · rename_i hout
          rcases hcov i hi with ⟨q, hq, hqi⟩ | heq
          · rcases List.mem_cons.mp hq with rfl | hq
            · exact absurd hqi hout
            · exact .inl ⟨q, hq, hqi⟩
          · exact .inr heq

/-! ## Stripes -/

variable (off len : ι → Nat)

/-- The stripes follow each other from `start` on. -/
def Laid : Nat → List ι → Prop
  | _, [] => True
  | start, s :: ss => off s = start ∧ Laid (start + len s) ss

def total (ss : List ι) : Nat := (ss.map len).sum

@[simp] theorem total_nil : total len ([] : List ι) = 0 := rfl

@[simp] theorem total_cons (s : ι) (ss : List ι) : total len (s :: ss) = len s + total len ss := by
  simp [total]

@[simp] theorem total_append (ss ts : List ι) :
    total len (ss ++ ts) = total len ss + total len ts := by
  simp [total]

variable {off len}

theorem Laid.snoc {s : ι} : ∀ {start : Nat} {ss : List ι}, Laid off len start ss →
    off s = start + total len ss → Laid off len start (ss ++ [s])
  | _, [], _, hs => ⟨by simpa using hs, trivial⟩
  | start, t :: ss, h, hs => by
      refine ⟨h.1, Laid.snoc h.2 ?_⟩
      rw [hs, total_cons]
      omega

theorem Laid.bounds {s : ι} : ∀ {start : Nat} {ss : List ι}, Laid off len start ss → s ∈ ss →
    start ≤ off s ∧ off s + len s ≤ start + total len ss
  | start, t :: ss, h, hs => by
      rw [total_cons]
      rcases List.mem_cons.mp hs with rfl | hs
      · have := h.1
        omega
      · have := Laid.bounds h.2 hs
        omega

theorem Laid.pairwise_end : ∀ {start : Nat} {ss : List ι}, Laid off len start ss →
    ss.Pairwise fun s t => off s + len s ≤ off t
  | _, [], _ => .nil
  | start, s :: ss, h => by
      rw [List.pairwise_cons]
      refine ⟨fun t ht => ?_, h.2.pairwise_end⟩
      have hb := h.2.bounds ht
      have := h.1
      omega

theorem Laid.pairwise : ∀ {start : Nat} {ss : List ι}, Laid off len start ss →
    ss.Pairwise fun s t => off s ≤ off t
  | _, [], _ => .nil
  | start, s :: ss, h => by
      rw [List.pairwise_cons]
      refine ⟨fun t ht => ?_, h.2.pairwise⟩
      have hb := h.2.bounds ht
      have := h.1
      omega

/-- Every cell of the region lies in a stripe. -/
theorem Laid.exists_stripe {i : Nat} : ∀ {start : Nat} {ss : List ι}, Laid off len start ss →
    start ≤ i → i < start + total len ss → ∃ s ∈ ss, off s ≤ i ∧ i < off s + len s
  | start, [], _, hl, hr => by
      rw [total_nil] at hr
      omega
  | start, s :: ss, h, hl, hr => by
      rw [total_cons] at hr
      by_cases hi : i < start + len s
      · refine ⟨s, List.mem_cons_self, ?_⟩
        have := h.1
        omega
      · have hl' : start + len s ≤ i := by omega
        obtain ⟨t, ht, hti⟩ := h.2.exists_stripe hl' (by omega)
        exact ⟨t, List.mem_cons_of_mem s ht, hti⟩

/-- The slices of a region at its stripes, one after the other. -/
theorem Laid.flatMap_slice (r : List α) : ∀ {start : Nat} {ss : List ι}, Laid off len start ss →
    r.take start ++ ss.flatMap (fun s => slice r (off s) (len s)) = r.take (start + total len ss)
  | start, [], _ => by rw [List.flatMap_nil, List.append_nil, total_nil, Nat.add_zero]
  | start, s :: ss, h => by
      rw [List.flatMap_cons, total_cons, ← Nat.add_assoc, ← h.2.flatMap_slice r, ← List.append_assoc,
        h.1, take_append_slice]

/-- Pasting the slice of each stripe fills the whole buffer. -/
theorem Laid.foldl_paste {t d : List α} {ss : List ι} {g : ι → List α} (h : Laid off len 0 ss)
    (hlen : d.length = t.length) (ht : t.length = total len ss)
    (hg : ∀ s ∈ ss, g s = slice t (off s) (len s)) :
    ss.foldl (fun d s => paste d (off s) (g s)) d = t := by
  have hsize : ∀ s ∈ ss, (g s).length = len s := by
    intro s hs
    have hb := h.bounds hs
    rw [hg s hs]
    exact length_slice (by omega)
  have hpaste := @Region.foldl_paste _ t (ss.map fun s => (off s, g s)) d hlen (by
    intro p hp
    obtain ⟨s, hs, rfl⟩ := List.mem_map.mp hp
    have hb := h.bounds hs
    refine ⟨?_, ?_⟩
    · show off s + (g s).length ≤ t.length
      rw [hsize s hs]
      omega
    · show g s = slice t (off s) (g s).length
      rw [hsize s hs]
      exact hg s hs) (by
    intro i hi
    obtain ⟨s, hs, hsi⟩ := h.exists_stripe (Nat.zero_le i) (by omega)
    refine .inl ⟨(off s, g s), List.mem_map_of_mem hs, ?_⟩
    show off s ≤ i ∧ i < off s + (g s).length
    rw [hsize s hs]
    exact hsi)
  rw [List.foldl_map] at hpaste
  exact hpaste

end Region
