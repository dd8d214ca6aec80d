import FreeToken.Kernel.PagedAttentionSpec

/-!
# Decode in two stages

The first stage leaves for each split of the window its mean and the logarithm of its weight; the
second merges the splits.
-/

set_option autoImplicit false
set_option linter.unusedSectionVars false

namespace FreeToken

open OnlineSoftmax
open Blocks (divCeil)
open GridMemory (storeAll storeAll_apply)

namespace PagedAttention

variable {K : Type} [Field K] [LinearOrder K] {E : ExpLog K}

namespace DecodeArgs

variable {a : DecodeArgs K} {batchId qHead splitId : Nat}

/-- What the launch of the two stages keeps to. -/
structure Launched (a : DecodeArgs K) : Prop where
  dim : a.dim ≤ a.blockDim
  heads : 0 < a.validBlockH
  lanes : a.validBlockH ≤ a.blockH
  whole : a.validBlockH ∣ a.group
  splits : ∀ b < a.batch, 0 < a.numKvSplits b ∧ a.numKvSplits b ≤ a.maxKvSplits

/-- The window of a query is the interval of its splits. -/
theorem visible_eq (a : DecodeArgs K) (batchId : Nat) :
    visible a.slidingWindow (a.kvLen batchId) (a.qPos batchId) =
      Finset.Ico (a.effectiveStart batchId) (a.effectiveEnd batchId) := by
  ext j
  simp only [visible, effectiveStart, effectiveEnd, Finset.mem_filter, Finset.mem_range,
    Finset.mem_Ico, Nat.lt_min]
  by_cases hwindow : 0 < a.slidingWindow
  · rw [if_pos hwindow]
    omega
  · rw [if_neg hwindow]
    omega

theorem sum_visible (a : DecodeArgs K) (batchId : Nat) (f : Nat → K) :
    ∑ j ∈ visible a.slidingWindow (a.kvLen batchId) (a.qPos batchId), f j =
      ∑ r ∈ Finset.range (a.effectiveLen batchId), f (a.effectiveStart batchId + r) := by
  rw [visible_eq, Finset.sum_Ico_eq_sum_range]
  rfl

/-- The splits up to one cover the positions up to its start. -/
theorem sum_splits (a : DecodeArgs K) (batchId n : Nat) (f : Nat → K) :
    ∑ s ∈ Finset.range n, ∑ i ∈ Finset.range (a.splitEnd batchId s - a.splitStart batchId s),
        f (a.splitStart batchId s + i) =
      ∑ r ∈ Finset.range (min (a.kvLenPerSplit batchId * n) (a.effectiveLen batchId)), f r := by
  induction n with
  | zero => simp
  | succ n ih =>
      rw [Finset.sum_range_succ, ih]
      unfold splitEnd splitStart
      rw [Nat.mul_succ]
      generalize a.kvLenPerSplit batchId * n = lo
      generalize a.kvLenPerSplit batchId = width
      generalize a.effectiveLen batchId = len
      by_cases hlt : lo < len
      · have hmin : min lo len = lo := Nat.min_eq_left hlt.le
        have hsplit : min (lo + width) len = lo + (min (lo + width) len - lo) := by omega
        rw [hmin, ← Finset.sum_range_add, ← hsplit]
      · have hmin : min lo len = len := Nat.min_eq_right (Nat.not_lt.1 hlt)
        have hmin' : min (lo + width) len = len := by omega
        have hnone : len - lo = 0 := by omega
        rw [hmin, hmin', hnone, Finset.range_zero, Finset.sum_empty, add_zero]

/-- The splits of a launch reach the end of the window. -/
theorem Launched.reach (h : Launched a) (hbatch : batchId < a.batch) :
    min (a.kvLenPerSplit batchId * a.maxKvSplits) (a.effectiveLen batchId) = a.effectiveLen batchId := by
  obtain ⟨hpos, hle⟩ := h.splits batchId hbatch
  have hone := Blocks.le_divCeil_mul (a.effectiveLen batchId) hpos
  have hblock : divCeil (a.effectiveLen batchId) (a.numKvSplits batchId) ≤ a.kvLenPerSplit batchId :=
    Blocks.le_divCeil_mul _ (show 0 < minBlockKv by decide)
  apply Nat.min_eq_right
  calc a.effectiveLen batchId
      ≤ divCeil (a.effectiveLen batchId) (a.numKvSplits batchId) * a.numKvSplits batchId := hone
    _ ≤ a.kvLenPerSplit batchId * a.maxKvSplits := Nat.mul_le_mul hblock hle

/-! ### The first stage -/

/-- The weight of the key at a place of the window, and its value. -/
def relWeight (E : ExpLog K) (a : DecodeArgs K) (batchId qHead kvHead rel : Nat) : K :=
  keyWeight E a.smScale a.dim (a.q batchId qHead)
    (a.kCache (a.indices (a.kvStart batchId + (a.effectiveStart batchId + rel))) kvHead)

def relValue (a : DecodeArgs K) (batchId kvHead rel : Nat) : Nat → K :=
  a.vCache (a.indices (a.kvStart batchId + (a.effectiveStart batchId + rel))) kvHead

theorem keys_seen {kvHead rel : Nat} (h : rel < a.splitEnd batchId splitId) :
    a.keys batchId qHead splitId kvHead true rel =
      key a.toConfig a.smScale (a.q batchId qHead)
        (a.kCache (a.indices (a.kvStart batchId + (a.effectiveStart batchId + rel))) kvHead)
        (a.vCache (a.indices (a.kvStart batchId + (a.effectiveStart batchId + rel))) kvHead)
        true true := by
  unfold keys
  simp only [h, decide_true, if_true, Bool.and_self]
  rfl

/-- A split hands on its weight and its mean. -/
theorem splitRow_eq [IsStrictOrderedRing K] (hdim : a.dim ≤ a.blockDim)
    (hsplit : a.splitStart batchId splitId < a.splitEnd batchId splitId) (qHead kvHead : Nat) :
    ∃ o lse, (a.splitRow E batchId qHead splitId kvHead true).bind (fun st => st.partialOut E) =
        some (o, lse) ∧
      E.exp lse = ∑ i ∈ Finset.range (a.splitEnd batchId splitId - a.splitStart batchId splitId),
        relWeight E a batchId qHead kvHead (a.splitStart batchId splitId + i) ∧
      ∀ d < a.dim, E.exp lse * o d =
        ∑ i ∈ Finset.range (a.splitEnd batchId splitId - a.splitStart batchId splitId),
          relWeight E a batchId qHead kvHead (a.splitStart batchId splitId + i) *
            relValue a batchId kvHead (a.splitStart batchId splitId + i) d := by
  have hhidden : ∀ i, a.splitEnd batchId splitId ≤ a.splitStart batchId splitId + i →
      (a.keys batchId qHead splitId kvHead true (a.splitStart batchId splitId + i)).1 = none := by
    intro i hi
    have hnot : ¬ a.splitStart batchId splitId + i < a.splitEnd batchId splitId := by omega
    unfold keys
    simp only [hnot, decide_false, Bool.and_false]
    rfl
  have hstep : ∀ start ∈ starts (a.splitStart batchId splitId) (a.splitEnd batchId splitId) 32,
      false = false → TakesIn E (tileStepSeen E)
        (Tile.at (a.keys batchId qHead splitId kvHead true) 32 start) := by
    intro start hstart _
    have hlt := (lt_of_mem_starts (by decide) hstart).2
    have htile : Tile.at (a.keys batchId qHead splitId kvHead true) 32 start =
        a.keys batchId qHead splitId kvHead true start ::
          (List.range 31).map fun i => a.keys batchId qHead splitId kvHead true (start + (i + 1)) := by
      rw [Tile.at, List.range_succ_eq_map, List.map_cons, List.map_map]
      rfl
    rw [keys_seen hlt] at htile
    exact tileStepSeen_takesIn htile
  obtain ⟨st, hrun, hholds⟩ := Lane.sweep_holds _ (fun _ => false) _ _ (by decide) hhidden
    (fun _ _ hskip => by cases hskip) hstep (Lane.holds_start (E := E))
  have hseen : ∀ i ∈ Finset.range (a.splitEnd batchId splitId - a.splitStart batchId splitId),
      a.splitStart batchId splitId + i < a.splitEnd batchId splitId := by
    intro i hi
    have hlt := Finset.mem_range.1 hi
    omega
  have hweight : ∀ i ∈ Finset.range (a.splitEnd batchId splitId - a.splitStart batchId splitId),
      (a.keys batchId qHead splitId kvHead true (a.splitStart batchId splitId + i)).1.weight E =
        relWeight E a batchId qHead kvHead (a.splitStart batchId splitId + i) := by
    intro i hi
    rw [keys_seen (hseen i hi), key_weight hdim _ _ fun _ => rfl, if_pos rfl]
    rfl
  rw [zero_add, Finset.sum_congr rfl hweight] at hholds
  have hpos : 0 < ∑ i ∈ Finset.range (a.splitEnd batchId splitId - a.splitStart batchId splitId),
      relWeight E a batchId qHead kvHead (a.splitStart batchId splitId + i) := by
    apply Finset.sum_pos
    · exact fun i _ => E.exp_pos _
    · rw [Finset.nonempty_range_iff]
      omega
  obtain ⟨o, lse, hpartial, hexp, hblend⟩ := hholds.partialOut_eq hpos
  refine ⟨o, lse, ?_, hexp, fun d hd => ?_⟩
  · rw [splitRow, hrun]
    exact hpartial
  · rw [hblend, zero_add]
    apply Finset.sum_congr rfl
    intro i hi
    rw [hweight i hi, keys_seen (hseen i hi), key_value hd]
    rfl

theorem mem_storeMid {row : Option (Lane K)} (s : MidAddr × Option K) :
    s ∈ a.storeMid E batchId qHead splitId row ↔
      (∃ d, d < a.blockDim ∧ d < a.dim ∧ s = (.o batchId qHead splitId d,
        (row.bind fun st => st.partialOut E).map fun r => r.1 d)) ∨
      s = (.lse batchId qHead splitId, (row.bind fun st => st.partialOut E).map fun r => r.2) := by
  unfold storeMid
  simp only [List.mem_append, List.mem_map, List.mem_filter, List.mem_range, decide_eq_true_eq,
    List.mem_singleton, and_assoc]
  apply or_congr_left
  exact exists_congr fun d => and_congr_right fun _ => and_congr_right fun _ => eq_comm

/-- The key head of a block of query heads is that of each of them. -/
theorem Launched.kvHead_eq (h : Launched a) (qHead : Nat) :
    qHead / a.validBlockH / divCeil a.group a.validBlockH = qHead / a.group := by
  rw [Nat.div_div_eq_div_mul, Nat.mul_comm, Blocks.divCeil_mul_of_dvd h.heads h.whole]

/-- The stores of the first stage: each head and each split that is not empty has one row. -/
theorem Launched.mem_stage1 (h : Launched a) (s : MidAddr × Option K) :
    s ∈ a.stage1Stores E ↔ ∃ b < a.batch, ∃ qHead < a.numQHeads, ∃ sp < a.maxKvSplits,
      a.splitStart b sp < a.splitEnd b sp ∧
        s ∈ a.storeMid E b qHead sp (a.splitRow E b qHead sp (qHead / a.group) true) := by
  simp only [stage1Stores, List.mem_flatMap, List.mem_range]
  constructor
  · rintro ⟨b, hb, block, hblock, sp, hsp, hs⟩
    unfold stage1Kernel at hs
    dsimp only at hs
    split at hs
    · rename_i hsplit
      simp only [List.mem_flatMap, List.mem_range] at hs
      obtain ⟨lane, hlane, hs⟩ := hs
      split at hs
      · rename_i hmask
        simp only [Bool.and_eq_true, decide_eq_true_eq] at hmask
        have hdiv : (block * a.validBlockH + lane) / a.validBlockH = block := by
          apply Nat.div_eq_of_lt_le
          · omega
          · exact hmask.1
        rw [decide_eq_true hmask.1, decide_eq_true hmask.2] at hs
        have hkv := h.kvHead_eq (block * a.validBlockH + lane)
        rw [hdiv] at hkv
        rw [hkv] at hs
        exact ⟨b, hb, _, hmask.2, sp, hsp, hsplit, hs⟩
      · cases hs
    · cases hs
  · rintro ⟨b, hb, qHead, hhead, sp, hsp, hsplit, hs⟩
    have hblock : qHead / a.validBlockH < divCeil a.numQHeads a.validBlockH := by
      have hceil := Blocks.le_divCeil_mul a.numQHeads h.heads
      apply (Nat.div_lt_iff_lt_mul h.heads).2
      omega
    have hlane : qHead / a.validBlockH * a.validBlockH + qHead % a.validBlockH = qHead :=
      Nat.div_add_mod' qHead a.validBlockH
    have hmod := Nat.mod_lt qHead h.heads
    refine ⟨b, hb, qHead / a.validBlockH, hblock, sp, hsp, ?_⟩
    unfold stage1Kernel
    dsimp only
    rw [if_pos hsplit]
    simp only [List.mem_flatMap, List.mem_range]
    refine ⟨qHead % a.validBlockH, Nat.lt_of_lt_of_le hmod h.lanes, ?_⟩
    have hvalid : qHead < (qHead / a.validBlockH + 1) * a.validBlockH := by
      rw [Nat.add_mul, Nat.one_mul]
      omega
    rw [hlane, decide_eq_true hvalid, decide_eq_true hhead, h.kvHead_eq]
    exact hs

/-- What the second stage finds of a split. -/
theorem Launched.mid_eq [IsStrictOrderedRing K] (h : Launched a) {ss : List (MidAddr × Option K)}
    (hss : ss.Perm (a.stage1Stores E)) (mem : MidAddr → Option K) (hbatch : batchId < a.batch)
    (hhead : qHead < a.numQHeads) (hsp : splitId < a.maxKvSplits)
    (hsplit : a.splitStart batchId splitId < a.splitEnd batchId splitId) :
    ∃ (o : Nat → K) (lse : K), storeAll mem ss (.lse batchId qHead splitId) = some lse ∧
      (∀ d < a.dim, storeAll mem ss (.o batchId qHead splitId d) = some (o d)) ∧
      E.exp lse = ∑ i ∈ Finset.range (a.splitEnd batchId splitId - a.splitStart batchId splitId),
        relWeight E a batchId qHead (qHead / a.group) (a.splitStart batchId splitId + i) ∧
      ∀ d < a.dim, E.exp lse * o d =
        ∑ i ∈ Finset.range (a.splitEnd batchId splitId - a.splitStart batchId splitId),
          relWeight E a batchId qHead (qHead / a.group) (a.splitStart batchId splitId + i) *
            relValue a batchId (qHead / a.group) (a.splitStart batchId splitId + i) d := by
  obtain ⟨o, lse, hrow, hexp, hblend⟩ :=
    splitRow_eq (E := E) h.dim hsplit qHead (qHead / a.group)
  have hmem : ∀ s ∈ a.storeMid E batchId qHead splitId
      (a.splitRow E batchId qHead splitId (qHead / a.group) true), s ∈ ss := fun s hs =>
    hss.mem_iff.2 ((h.mem_stage1 s).2 ⟨batchId, hbatch, qHead, hhead, splitId, hsp, hsplit, hs⟩)
  refine ⟨o, lse, ?_, fun d hd => ?_, hexp, hblend⟩
  · apply storeAll_apply
    · apply hmem
      apply (mem_storeMid _).2
      rw [hrow]
      exact Or.inr rfl
    · intro s hs haddr
      obtain ⟨b, -, qh, -, sp, -, -, hstore⟩ := (h.mem_stage1 s).1 (hss.mem_iff.1 hs)
      rcases (mem_storeMid s).1 hstore with ⟨d', -, -, rfl⟩ | rfl
      · cases haddr
      · cases haddr
        rw [hrow]
        rfl
  · apply storeAll_apply
    · apply hmem
      apply (mem_storeMid _).2
      rw [hrow]
      exact Or.inl ⟨d, Nat.lt_of_lt_of_le hd h.dim, hd, rfl⟩
    · intro s hs haddr
      obtain ⟨b, -, qh, -, sp, -, -, hstore⟩ := (h.mem_stage1 s).1 (hss.mem_iff.1 hs)
      rcases (mem_storeMid s).1 hstore with ⟨d', -, -, rfl⟩ | rfl
      · cases haddr
        rw [hrow]
        rfl
      · cases haddr

/-! ### The second stage -/

theorem mapM_some {A B : Type} {f : A → Option B} {g : A → B} {l : List A} (h : ∀ x ∈ l, f x = some (g x)) :
    l.mapM f = some (l.map g) := by
  induction l with
  | nil => rfl
  | cons x l ih =>
      rw [List.mapM_cons, h x List.mem_cons_self, ih fun y hy => h y (List.mem_cons_of_mem x hy)]
      rfl

/-- What the splits before one come to. -/
structure Merged (E : ExpLog K) (a : DecodeArgs K) (batchId qHead n : Nat) (st : Lane K) (A : Nat → K) :
    Prop where
  holds : Lane.Holds E (sinkWeight E a.sinks qHead +
    ∑ r ∈ Finset.range (min (a.kvLenPerSplit batchId * n) (a.effectiveLen batchId)),
      relWeight E a batchId qHead (qHead / a.group) r) A st
  blend : ∀ d < a.dim, A d =
    ∑ r ∈ Finset.range (min (a.kvLenPerSplit batchId * n) (a.effectiveLen batchId)),
      relWeight E a batchId qHead (qHead / a.group) r * relValue a batchId (qHead / a.group) r d

theorem Launched.merge_step [IsStrictOrderedRing K] (h : Launched a) {ss : List (MidAddr × Option K)}
    (hss : ss.Perm (a.stage1Stores E)) (mem : MidAddr → Option K) (hbatch : batchId < a.batch)
    (hhead : qHead < a.numQHeads) {n : Nat} (hn : n < a.maxKvSplits) {st : Lane K} {A : Nat → K}
    (hm : Merged E a batchId qHead n st A) :
    ∃ st' A', a.mergeSplit E batchId qHead (storeAll mem ss) st n = some st' ∧
      Merged E a batchId qHead (n + 1) st' A' := by
  have hsum : ∀ f : Nat → K, ∑ r ∈ Finset.range
      (min (a.kvLenPerSplit batchId * (n + 1)) (a.effectiveLen batchId)), f r =
        ∑ r ∈ Finset.range (min (a.kvLenPerSplit batchId * n) (a.effectiveLen batchId)), f r +
          ∑ i ∈ Finset.range (a.splitEnd batchId n - a.splitStart batchId n),
            f (a.splitStart batchId n + i) := by
    intro f
    rw [← sum_splits, ← sum_splits, Finset.sum_range_succ]
  unfold mergeSplit
  by_cases hsplit : a.splitStart batchId n < a.splitEnd batchId n
  · obtain ⟨o, lse, hlse, ho, hexp, hblend⟩ := h.mid_eq hss mem hbatch hhead hn hsplit
    obtain ⟨top, htop⟩ := Score.max_some_left lse st.m
    obtain ⟨st', hrun, hholds⟩ := hm.holds.takes top
      [(some lse, fun d => ((List.range a.dim).map o).getD d 0)]
    have hcolumns : (List.range a.dim).mapM (fun d => storeAll mem ss (.o batchId qHead n d)) =
        some ((List.range a.dim).map o) := mapM_some fun d hd => ho d (List.mem_range.1 hd)
    refine ⟨st', fun d => A d +
      Tile.blend E [(some lse, fun d => ((List.range a.dim).map o).getD d 0)] d, ?_, ⟨?_, fun d hd => ?_⟩⟩
    · rw [if_pos hsplit, hcolumns, Option.bind_eq_bind, Option.bind_some, hlse, Option.bind_eq_bind,
        Option.bind_some, htop]
      exact hrun
    · rw [hsum, ← add_assoc, ← hexp]
      have hweight : Tile.weight E [(some lse, fun d => ((List.range a.dim).map o).getD d 0)] =
          E.exp lse := by simp [Tile.weight]
      rw [hweight] at hholds
      exact hholds
    · have hone : Tile.blend E [(some lse, fun d => ((List.range a.dim).map o).getD d 0)] d =
          E.exp lse * o d := by
        simp [Tile.blend, hd]
      rw [hone, hm.blend d hd, hblend d hd, hsum]
  · have hnone : a.splitEnd batchId n - a.splitStart batchId n = 0 := by omega
    refine ⟨st, A, if_neg hsplit, ⟨?_, fun d hd => ?_⟩⟩
    · rw [hsum, hnone, Finset.range_zero, Finset.sum_empty, add_zero]
      exact hm.holds
    · rw [hsum, hnone, Finset.range_zero, Finset.sum_empty, add_zero]
      exact hm.blend d hd

theorem Launched.merge_run [IsStrictOrderedRing K] (h : Launched a) {ss : List (MidAddr × Option K)}
    (hss : ss.Perm (a.stage1Stores E)) (mem : MidAddr → Option K) (hbatch : batchId < a.batch)
    (hhead : qHead < a.numQHeads) {n : Nat} (hn : n ≤ a.maxKvSplits) :
    ∃ st A, (List.range n).foldlM (a.mergeSplit E batchId qHead (storeAll mem ss))
        (initial a.sinks qHead) = some st ∧ Merged E a batchId qHead n st A := by
  induction n with
  | zero =>
      refine ⟨_, fun _ => 0, rfl, ⟨?_, fun d _ => ?_⟩⟩
      · simpa using initial_holds (E := E) a.sinks qHead
      · simp
  | succ n ih =>
      obtain ⟨st, A, hrun, hm⟩ := ih (Nat.le_of_succ_le hn)
      obtain ⟨st', A', hstep, hm'⟩ := h.merge_step hss mem hbatch hhead hn hm
      refine ⟨st', A', ?_, hm'⟩
      rw [List.range_succ, List.foldlM_append, hrun, Option.bind_eq_bind, Option.bind_some,
        List.foldlM_cons, hstep]
      rfl

theorem mem_stage2 {mid : MidAddr → Option K} (s : OutAddr × Option K) :
    s ∈ a.stage2Stores E mid ↔ ∃ b < a.batch, ∃ qHead < a.numQHeads, s ∈ a.stage2Kernel E b qHead mid := by
  simp only [stage2Stores, List.mem_flatMap, List.mem_range]

end DecodeArgs

/-- The two stages, the stores of each in any order. -/
theorem decode_attention_eq [IsStrictOrderedRing K] (a : DecodeArgs K) (h : a.Launched)
    {midStores : List (MidAddr × Option K)} (hmid : midStores.Perm (a.stage1Stores E))
    (mid : MidAddr → Option K) {ss : List (OutAddr × Option K)}
    (hss : ss.Perm (a.stage2Stores E (storeAll mid midStores))) (mem : OutAddr → Option K)
    {batchId qHead d : Nat} (hbatch : batchId < a.batch) (hhead : qHead < a.numQHeads)
    (hd : d < a.dim) :
    storeAll mem ss (batchId, qHead, d) = some
      (attend E a.smScale (sinkWeight E a.sinks qHead) a.dim (a.q batchId qHead)
        (fun j => a.kCache (a.indices (a.kvStart batchId + j)) (qHead / a.group))
        (fun j => a.vCache (a.indices (a.kvStart batchId + j)) (qHead / a.group))
        (visible a.slidingWindow (a.kvLen batchId) (a.qPos batchId)) d) := by
  obtain ⟨st, A, hrun, hm⟩ := h.merge_run hmid mid hbatch hhead le_rfl
  have hkernel : a.stage2Kernel E batchId qHead (storeAll mid midStores) =
      storeRow a.toConfig (some st) batchId qHead := by
    rw [DecodeArgs.stage2Kernel, hrun]
  rw [storeAll_row hss h.dim (some st) hd, Option.map_some, hm.holds.out_eq, hm.blend d hd,
    h.reach hbatch, attend, DecodeArgs.sum_visible, DecodeArgs.sum_visible]
  · rfl
  · intro s hs
    rw [← hkernel] at hs
    exact (DecodeArgs.mem_stage2 s).2 ⟨batchId, hbatch, qHead, hhead, hs⟩
  · intro s hs hs₁ hs₂
    obtain ⟨b, -, qHead', -, hmem⟩ := (DecodeArgs.mem_stage2 s).1 hs
    obtain ⟨d', -, -, heq⟩ := (mem_storeRow s).1 hmem
    have h₁ : b = batchId := by rw [← hs₁, heq]
    have h₂ : qHead' = qHead := by rw [← hs₂, heq]
    rw [h₁, h₂, hkernel] at hmem
    exact hmem

end PagedAttention

end FreeToken
