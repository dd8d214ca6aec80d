import FreeToken.Lib.Blocks
import FreeToken.Lib.GridMemory

/-!
# Chunks of packed sequences

The sequences of a batch stand one behind the other, and a grid has one program for each chunk of each
of them.
-/

set_option autoImplicit false

namespace FreeToken

open Blocks (divCeil le_divCeil_mul divCeil_mul_lt)
open GridMemory (storeAll storeAll_apply storeAll_of_ne)

namespace GatedDelta

/-- `cu_seqlens` -/
structure Packed where
  numSeqs : Nat
  cuSeqlens : Nat → Nat

namespace Packed

variable (p : Packed) (chunkSize : Nat)

def bos (n : Nat) : Nat := p.cuSeqlens n

def len (n : Nat) : Nat := p.cuSeqlens (n + 1) - p.cuSeqlens n

/-- `prepare_lens` -/
def prepareLens : List Nat := (List.range p.numSeqs).map p.len

/-- `prepare_chunk_indices`: a sequence starts wherever the count of chunks starts again. -/
def prepareChunkIndices : List (Nat × Nat) :=
  let indices := (p.prepareLens.map fun n => divCeil n chunkSize).flatMap List.range
  indices.zipIdx.map fun i => ((indices.take (i.2 + 1)).count 0 - 1, i.1)

/-- `prepare_chunk_offsets` -/
def prepareChunkOffsets (n : Nat) : Nat :=
  ((p.prepareLens.map fun l => divCeil l chunkSize).take n).sum

/-- The programs of a grid: the place in the list, the sequence and its chunk. -/
def programs : List ((Nat × Nat) × Nat) := (p.prepareChunkIndices chunkSize).zipIdx

/-- `i_t * BT + i < T` -/
def inside (n t i : Nat) : Bool := decide (t * chunkSize + i < p.len n)

/-- What a grid of chunks and heads stores, row by row. -/
def rowStores {C V : Type} (numHeads : Nat) (row : Nat → Nat → Nat → Nat → Nat → List (C × V)) :
    List ((Nat × Nat × C) × V) :=
  (p.programs chunkSize).flatMap fun c => (List.range numHeads).flatMap fun h =>
    ((List.range chunkSize).filter fun i => p.inside chunkSize c.1.1 c.1.2 i).flatMap fun i =>
      (row c.2 c.1.1 c.1.2 h i).map fun x =>
        ((p.bos c.1.1 + (c.1.2 * chunkSize + i), h, x.1), x.2)

/-- No sequence is empty. -/
structure Sound : Prop where
  lt : ∀ n < p.numSeqs, p.cuSeqlens n < p.cuSeqlens (n + 1)

variable {p} {chunkSize}

theorem Sound.len_pos (h : p.Sound) {n : Nat} (hn : n < p.numSeqs) : 0 < p.len n :=
  Nat.sub_pos_of_lt (h.lt n hn)

theorem Sound.bos_add_len (h : p.Sound) {n : Nat} (hn : n < p.numSeqs) :
    p.bos n + p.len n = p.bos (n + 1) := by
  have hlt := h.lt n hn
  unfold bos len
  omega

theorem Sound.bos_mono (h : p.Sound) {m n : Nat} (hmn : m ≤ n) (hn : n ≤ p.numSeqs) :
    p.bos m ≤ p.bos n := by
  induction n, hmn using Nat.le_induction with
  | base => exact le_rfl
  | succ n _ ih => exact (ih (by omega)).trans (h.lt n (by omega)).le

/-- A row belongs to one sequence. -/
theorem Sound.place_inj (h : p.Sound) {m n r s : Nat} (hm : m < p.numSeqs) (hn : n < p.numSeqs)
    (hr : r < p.len m) (hs : s < p.len n) (heq : p.bos m + r = p.bos n + s) : m = n ∧ r = s := by
  have hapart : ∀ {m n r : Nat}, m < p.numSeqs → n < p.numSeqs → r < p.len m → m < n →
      p.bos m + r < p.bos n := by
    intro m n r hm hn hr hlt
    have hend := h.bos_add_len hm
    have hle : p.bos (m + 1) ≤ p.bos n := h.bos_mono (Nat.succ_le_of_lt hlt) hn.le
    omega
  rcases Nat.lt_trichotomy m n with hlt | rfl | hlt
  · have hless := hapart hm hn hr hlt
    omega
  · omega
  · have hless := hapart hn hm hs hlt
    omega

theorem divCeil_pos {a b : Nat} (ha : 0 < a) (hb : 0 < b) : 0 < divCeil a b := by
  have hle := le_divCeil_mul a hb
  apply Nat.pos_of_ne_zero
  intro hzero
  rw [hzero] at hle
  omega

/-- A row of a sequence and its chunk. -/
theorem div_lt_divCeil {r l b : Nat} (hb : 0 < b) (hr : r < l) : r / b < divCeil l b := by
  have hle := le_divCeil_mul l hb
  rw [Nat.div_lt_iff_lt_mul hb]
  omega

theorem row_div {t i b : Nat} (hi : i < b) : (t * b + i) / b = t := by
  rw [Nat.mul_comm, Nat.mul_add_div (Nat.zero_lt_of_lt hi), Nat.div_eq_of_lt hi, Nat.add_zero]

theorem row_mod {t i b : Nat} (hi : i < b) : (t * b + i) % b = i := by
  rw [Nat.mul_comm, Nat.mul_add_mod, Nat.mod_eq_of_lt hi]

section Indices

variable {count : Nat → Nat}

/-- The counts of the chunks, and how often they start again. -/
theorem count_zero_ranges (hpos : ∀ n, 0 < count n) (m : Nat) :
    ((List.range m).flatMap fun n => List.range (count n)).count 0 = m := by
  induction m with
  | zero => rfl
  | succ m ih =>
      have hone : (List.range (count m)).count 0 = 1 :=
        List.count_eq_one_of_mem List.nodup_range (List.mem_range.2 (hpos m))
      rw [List.range_succ, List.flatMap_append, List.count_append, ih, List.flatMap_singleton, hone]

theorem restarts_eq (hpos : ∀ n, 0 < count n) (m : Nat) :
    (((List.range m).flatMap fun n => List.range (count n)).zipIdx.map fun i =>
        ((((List.range m).flatMap fun n => List.range (count n)).take (i.2 + 1)).count 0 - 1, i.1)) =
      (List.range m).flatMap fun n => (List.range (count n)).map fun t => (n, t) := by
  induction m with
  | zero => rfl
  | succ m ih =>
      rw [List.range_succ, List.flatMap_append, List.flatMap_append, List.zipIdx_append, List.map_append,
        ← ih]
      congr 1
      · apply List.map_congr_left
        intro i hi
        have hlt : i.2 < ((List.range m).flatMap fun n => List.range (count n)).length := by
          have hget := List.mem_zipIdx hi
          omega
        rw [List.take_append_of_le_length (Nat.succ_le_of_lt hlt)]
      · rw [List.flatMap_singleton, List.flatMap_singleton]
        apply List.ext_getElem
        · simp
        · intro t ht ht'
          have htc : t < count m := by simpa using ht'
          simp only [List.getElem_map, List.getElem_zipIdx, List.getElem_range]
          rw [Nat.zero_add, Nat.add_assoc, List.take_length_add_append, List.count_append,
            count_zero_ranges hpos, List.take_range]
          have hone : (List.range (min (t + 1) (count m))).count 0 = 1 :=
            List.count_eq_one_of_mem List.nodup_range (List.mem_range.2 (by omega))
          rw [hone, Nat.add_sub_cancel]

theorem zipIdx_ranges (count : Nat → Nat) (m : Nat) :
    ((List.range m).flatMap fun n => (List.range (count n)).map fun t => (n, t)).zipIdx =
      (List.range m).flatMap fun n => (List.range (count n)).map fun t =>
        ((n, t), ((List.range n).map count).sum + t) := by
  induction m with
  | zero => rfl
  | succ m ih =>
      have hlen : ((List.range m).flatMap fun n => (List.range (count n)).map fun t => (n, t)).length =
          ((List.range m).map count).sum := by
        rw [List.length_flatMap]
        congr 1
        apply List.map_congr_left
        intro n _
        rw [List.length_map, List.length_range]
      rw [List.range_succ, List.flatMap_append, List.flatMap_append, List.zipIdx_append, ih, hlen]
      congr 1
      rw [List.flatMap_singleton, List.flatMap_singleton]
      apply List.ext_getElem
      · simp
      · intro t _ _
        simp

end Indices

theorem prepareChunkOffsets_eq {n : Nat} (hn : n ≤ p.numSeqs) :
    p.prepareChunkOffsets chunkSize n =
      ((List.range n).map fun n => divCeil (p.len n) chunkSize).sum := by
  rw [prepareChunkOffsets, prepareLens, List.map_map, ← List.map_take, List.take_range, min_eq_left hn]
  rfl

/-- Every chunk of every sequence has one program, at the offset of the sequence. -/
theorem Sound.programs_eq (h : p.Sound) (hchunk : 0 < chunkSize) :
    p.programs chunkSize = (List.range p.numSeqs).flatMap fun n =>
      (List.range (divCeil (p.len n) chunkSize)).map fun t =>
        ((n, t), p.prepareChunkOffsets chunkSize n + t) := by
  -- behind the last sequence the counts do not matter
  let count : Nat → Nat := fun n => if n < p.numSeqs then divCeil (p.len n) chunkSize else 1
  have hpos : ∀ n, 0 < count n := by
    intro n
    by_cases hn : n < p.numSeqs
    · show 0 < if n < p.numSeqs then divCeil (p.len n) chunkSize else 1
      rw [if_pos hn]
      exact divCeil_pos (h.len_pos hn) hchunk
    · show 0 < if n < p.numSeqs then divCeil (p.len n) chunkSize else 1
      rw [if_neg hn]
      exact Nat.one_pos
  have hcount : ∀ n < p.numSeqs, divCeil (p.len n) chunkSize = count n :=
    fun n hn => (if_pos hn).symm
  have hindices : (p.prepareLens.map fun n => divCeil n chunkSize).flatMap List.range =
      (List.range p.numSeqs).flatMap fun n => List.range (count n) := by
    rw [prepareLens, List.map_map, List.flatMap_map]
    apply List.flatMap_congr
    intro n hn
    rw [← hcount n (List.mem_range.1 hn)]
    rfl
  rw [programs, prepareChunkIndices, hindices, restarts_eq hpos, zipIdx_ranges]
  apply List.flatMap_congr
  intro n hn
  have hn' := List.mem_range.1 hn
  rw [hcount n hn', prepareChunkOffsets_eq hn'.le]
  have hsum : ((List.range n).map count).sum =
      ((List.range n).map fun n => divCeil (p.len n) chunkSize).sum := by
    congr 1
    apply List.map_congr_left
    intro m hm
    exact (hcount m ((List.mem_range.1 hm).trans hn')).symm
  rw [hsum]

theorem Sound.mem_programs (h : p.Sound) (hchunk : 0 < chunkSize) {n t i : Nat} :
    ((n, t), i) ∈ p.programs chunkSize ↔
      n < p.numSeqs ∧ t < divCeil (p.len n) chunkSize ∧ i = p.prepareChunkOffsets chunkSize n + t := by
  rw [h.programs_eq hchunk, List.mem_flatMap]
  constructor
  · intro hmem
    obtain ⟨m, hm, hmap⟩ := hmem
    obtain ⟨t', ht', heq⟩ := List.mem_map.1 hmap
    cases heq
    exact ⟨List.mem_range.1 hm, List.mem_range.1 ht', rfl⟩
  · intro hmem
    obtain ⟨hn, ht, hi⟩ := hmem
    exact ⟨n, List.mem_range.2 hn, List.mem_map.2 ⟨t, List.mem_range.2 ht, by rw [hi]⟩⟩

section Rows

variable {C V : Type} {numHeads : Nat} {row : Nat → Nat → Nat → Nat → Nat → List (C × V)}

/-- What is stored at a row of a sequence comes from the program of its chunk. -/
theorem Sound.mem_rowStores (h : p.Sound) (hchunk : 0 < chunkSize) {n r : Nat} (hn : n < p.numSeqs)
    (hr : r < p.len n) {head : Nat} {c : C} {v : V} :
    ((p.bos n + r, head, c), v) ∈ p.rowStores chunkSize numHeads row ↔
      head < numHeads ∧ (c, v) ∈ row (p.prepareChunkOffsets chunkSize n + r / chunkSize) n
        (r / chunkSize) head (r % chunkSize) := by
  unfold rowStores
  simp only [List.mem_flatMap, List.mem_filter, List.mem_range, List.mem_map]
  constructor
  · intro hmem
    obtain ⟨⟨⟨m, t⟩, g⟩, hprog, head', hhead, i, hi, x, hx, heq⟩ := hmem
    obtain ⟨hm, ht, hg⟩ := (h.mem_programs hchunk).1 hprog
    have hin : t * chunkSize + i < p.len m := of_decide_eq_true hi.2
    have haddr : p.bos m + (t * chunkSize + i) = p.bos n + r := congrArg (fun a => a.1.1) heq
    obtain ⟨hmn, hri⟩ := h.place_inj hm hn hin hr haddr
    have hhead' : head' = head := congrArg (fun a => a.1.2.1) heq
    have hcol : x.1 = c := congrArg (fun a => a.1.2.2) heq
    have hval : x.2 = v := congrArg (fun a => a.2) heq
    have hx' : x = (c, v) := Prod.ext hcol hval
    have hdiv : r / chunkSize = t := by rw [← hri, row_div hi.1]
    have hmod : r % chunkSize = i := by rw [← hri, row_mod hi.1]
    subst hmn
    subst hhead'
    rw [hx', hg] at hx
    rw [hdiv, hmod]
    exact ⟨hhead, hx⟩
  · intro hmem
    obtain ⟨hhead, hrow⟩ := hmem
    have hsplit : r / chunkSize * chunkSize + r % chunkSize = r := Nat.div_add_mod' r chunkSize
    refine ⟨((n, r / chunkSize), p.prepareChunkOffsets chunkSize n + r / chunkSize), ?_, head, hhead,
      r % chunkSize, ⟨Nat.mod_lt r hchunk, ?_⟩, (c, v), hrow, ?_⟩
    · exact (h.mem_programs hchunk).2 ⟨hn, div_lt_divCeil hchunk hr, rfl⟩
    · rw [inside, hsplit]
      exact decide_eq_true hr
    · rw [hsplit]

/-- After the grid, whatever the order of its stores. -/
theorem Sound.rowStores_apply (h : p.Sound) (hchunk : 0 < chunkSize) [DecidableEq C]
    {ss : List ((Nat × Nat × C) × V)} (hss : ss.Perm (p.rowStores chunkSize numHeads row)) {n r : Nat}
    (hn : n < p.numSeqs) (hr : r < p.len n) {head : Nat} (hhead : head < numHeads) {c : C} {v : V}
    (hone : ∀ v', (c, v') ∈ row (p.prepareChunkOffsets chunkSize n + r / chunkSize) n (r / chunkSize)
      head (r % chunkSize) ↔ v' = v) (mem : Nat × Nat × C → V) :
    storeAll mem ss (p.bos n + r, head, c) = v := by
  apply storeAll_apply
  · exact hss.mem_iff.2 ((h.mem_rowStores hchunk hn hr).2 ⟨hhead, (hone v).2 rfl⟩)
  · intro s hs haddr
    obtain ⟨a, v'⟩ := s
    cases haddr
    exact (hone v').1 ((h.mem_rowStores hchunk hn hr).1 (hss.mem_iff.1 hs)).2

theorem Sound.rowStores_of_not (h : p.Sound) (hchunk : 0 < chunkSize) [DecidableEq C]
    {ss : List ((Nat × Nat × C) × V)} (hss : ss.Perm (p.rowStores chunkSize numHeads row)) {n r : Nat}
    (hn : n < p.numSeqs) (hr : r < p.len n) {head : Nat} {c : C}
    (hnone : ∀ v, (c, v) ∉ row (p.prepareChunkOffsets chunkSize n + r / chunkSize) n (r / chunkSize)
      head (r % chunkSize)) (mem : Nat × Nat × C → V) :
    storeAll mem ss (p.bos n + r, head, c) = mem (p.bos n + r, head, c) := by
  apply storeAll_of_ne
  intro s hs haddr
  obtain ⟨a, v⟩ := s
  cases haddr
  exact hnone v ((h.mem_rowStores hchunk hn hr).1 (hss.mem_iff.1 hs)).2

end Rows

/-! ## Tiles of rows -/

section Tiles

variable {dim width numSeqs numHeads : Nat}

theorem mem_tilePrograms {p : Nat × Nat × Nat} :
    p ∈ ((List.range (divCeil dim width)).flatMap fun i =>
      (List.range numSeqs).flatMap fun n => (List.range numHeads).map fun h => (i, n, h)) ↔
        p.1 < divCeil dim width ∧ p.2.1 < numSeqs ∧ p.2.2 < numHeads := by
  simp only [List.mem_flatMap, List.mem_map, List.mem_range]
  constructor
  · intro hmem
    obtain ⟨i, hi, n, hn, h, hh, rfl⟩ := hmem
    exact ⟨hi, hn, hh⟩
  · intro hmem
    exact ⟨p.1, hmem.1, p.2.1, hmem.2.1, p.2.2, hmem.2.2, rfl⟩

/-- A grid of tiles, sequences and heads has each row of a head once. -/
theorem mem_tileRows {S : Type} (hwidth : 0 < width) (f : Nat → Nat → Nat → List S) {s : S} :
    s ∈ (((List.range (divCeil dim width)).flatMap fun i =>
      (List.range numSeqs).flatMap fun n => (List.range numHeads).map fun h => (i, n, h)).flatMap fun p =>
        ((List.range width).filter fun r => decide (p.1 * width + r < dim)).flatMap fun r =>
          f p.2.1 p.2.2 (p.1 * width + r)) ↔
      ∃ n < numSeqs, ∃ h < numHeads, ∃ v < dim, s ∈ f n h v := by
  rw [List.mem_flatMap]
  constructor
  · intro hmem
    obtain ⟨p, hp, hlanes⟩ := hmem
    obtain ⟨_, hn, hh⟩ := mem_tilePrograms.1 hp
    obtain ⟨r, hr, hrow⟩ := List.mem_flatMap.1 hlanes
    exact ⟨p.2.1, hn, p.2.2, hh, p.1 * width + r, of_decide_eq_true (List.mem_filter.1 hr).2, hrow⟩
  · intro hmem
    obtain ⟨n, hn, h, hh, v, hv, hrow⟩ := hmem
    have hsplit := Nat.div_add_mod' v width
    have hlane : v % width ∈ (List.range width).filter fun r => decide (v / width * width + r < dim) :=
      List.mem_filter.2 ⟨List.mem_range.2 (Nat.mod_lt v hwidth), decide_eq_true (hsplit.symm ▸ hv)⟩
    refine ⟨(v / width, n, h), mem_tilePrograms.2 ⟨div_lt_divCeil hwidth hv, hn, hh⟩, ?_⟩
    refine List.mem_flatMap.2 ⟨v % width, hlane, ?_⟩
    show s ∈ f n h (v / width * width + v % width)
    rw [hsplit]
    exact hrow

end Tiles

end Packed

end GatedDelta

end FreeToken
