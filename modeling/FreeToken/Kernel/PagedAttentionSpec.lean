import FreeToken.Kernel.PagedAttention

/-!
# The attention kernels compute attention

Whatever the tiles, the splits and the order of the stores, each program leaves the softmax-weighted
mean of the values that its query sees.
-/

set_option autoImplicit false
set_option linter.unusedSectionVars false

namespace FreeToken

open OnlineSoftmax
open Blocks (divCeil)
open GridMemory (storeAll storeAll_apply)

namespace PagedAttention

variable {K : Type} [Field K] [LinearOrder K] {E : ExpLog K}

/-! ## Attention -/

/-- The positions that a query at `pos` sees. -/
def visible (slidingWindow kvLen pos : Nat) : Finset Nat :=
  (Finset.range kvLen).filter fun j => j ≤ pos ∧ (slidingWindow = 0 ∨ pos < j + slidingWindow)

/-- The weight of a key for a query. -/
def keyWeight (E : ExpLog K) (smScale : K) (dim : Nat) (q k : Nat → K) : K :=
  E.exp ((∑ e ∈ Finset.range dim, q e * k e) * smScale)

/-- The weight of a sink, zero without one. -/
def sinkWeight (E : ExpLog K) (sinks : Option (Nat → K)) (qHead : Nat) : K :=
  match sinks with
  | some sinks => E.exp (sinks qHead)
  | none => 0

/-- A column of the attention of a query over the keys at some positions. -/
def attend (E : ExpLog K) (smScale sink : K) (dim : Nat) (q : Nat → K) (k v : Nat → Nat → K)
    (js : Finset Nat) (d : Nat) : K :=
  (∑ j ∈ js, keyWeight E smScale dim q (k j) * v j d) /
    (sink + ∑ j ∈ js, keyWeight E smScale dim q (k j))

theorem attend_congr {smScale sink : K} {dim : Nat} {q : Nat → K} {k k' v v' : Nat → Nat → K}
    {js : Finset Nat} (hk : ∀ j ∈ js, k j = k' j) (hv : ∀ j ∈ js, v j = v' j) (d : Nat) :
    attend E smScale sink dim q k v js d = attend E smScale sink dim q k' v' js d := by
  have hweight : ∑ j ∈ js, keyWeight E smScale dim q (k j) = ∑ j ∈ js, keyWeight E smScale dim q (k' j) :=
    Finset.sum_congr rfl fun j hj => by rw [hk j hj]
  have hblend : ∑ j ∈ js, keyWeight E smScale dim q (k j) * v j d =
      ∑ j ∈ js, keyWeight E smScale dim q (k' j) * v' j d :=
    Finset.sum_congr rfl fun j hj => by rw [hk j hj, hv j hj]
  rw [attend, attend, hweight, hblend]

/-! ## A row takes in what it sees -/

variable {c : Config} {smScale : K} {q : Nat → K} {k v : Nat → Nat → K}

theorem initial_holds (sinks : Option (Nat → K)) (qHead : Nat) :
    Lane.Holds E (sinkWeight E sinks qHead) (fun _ => 0) (initial sinks qHead) := by
  cases sinks with
  | none => exact Lane.holds_start
  | some sinks => exact Lane.holds_sink (sinks qHead)

theorem tileStep_takesIn (tile : Tile K) : TakesIn E (tileStep E) tile := by
  intro st W A h
  obtain ⟨top, htop⟩ := Score.max_some_left
    ((Score.greatest (tile.map Prod.fst)).getD (-10 ^ 20)) st.m
  unfold tileStep
  dsimp only
  rw [htop]
  exact h.takes top tile

omit [Field K] in
theorem foldl_max_some (scores : List (Score K)) (a : K) :
    ∃ top, scores.foldl Score.max (some a) = some top := by
  induction scores generalizing a with
  | nil => exact ⟨a, rfl⟩
  | cons s scores ih =>
      obtain ⟨b, hb⟩ := Score.max_some_left a s
      rw [List.foldl_cons, hb]
      exact ih b

/-- A tile whose first key is seen. -/
theorem tileStepSeen_takesIn {tile : Tile K} {s : K} {v : Nat → K} {rest : Tile K}
    (htile : tile = (some s, v) :: rest) : TakesIn E (tileStepSeen E) tile := by
  intro st W A h
  have hgreatest : Score.greatest (tile.map Prod.fst) =
      (rest.map Prod.fst).foldl Score.max (some s) := by
    rw [htile]
    rfl
  obtain ⟨a, ha⟩ := foldl_max_some (rest.map Prod.fst) s
  obtain ⟨top, htop⟩ := Score.max_some_left a st.m
  unfold tileStepSeen
  rw [hgreatest, ha, htop]
  exact h.takes top tile

/-- Columns beyond the head add nothing. -/
theorem dot_load (hdim : c.dim ≤ c.blockDim) (a b : Nat → K) :
    dot c.blockDim (fun d => load (decide (d < c.dim)) (a d))
      (fun d => load (true && decide (d < c.dim)) (b d)) = ∑ e ∈ Finset.range c.dim, a e * b e := by
  have hsum : dot c.blockDim (fun d => load (decide (d < c.dim)) (a d))
      (fun d => load (true && decide (d < c.dim)) (b d)) =
        ∑ e ∈ Finset.range c.blockDim, load (decide (e < c.dim)) (a e) *
          load (true && decide (e < c.dim)) (b e) := rfl
  rw [hsum, Finset.eventually_constant_sum _ hdim]
  · apply Finset.sum_congr rfl
    intro e he
    have hlt := Finset.mem_range.1 he
    simp [load, hlt]
  · intro e he
    have hnot : ¬ e < c.dim := Nat.not_lt.2 he
    simp [load, hnot]

theorem key_weight (hdim : c.dim ≤ c.blockDim) (kRow vRow : Nat → K) {loaded seen : Bool}
    (hload : seen = true → loaded = true) :
    (key c smScale q kRow vRow loaded seen).1.weight E =
      if seen = true then keyWeight E smScale c.dim q kRow else 0 := by
  cases seen with
  | false => rfl
  | true =>
      rw [hload rfl, if_pos rfl, keyWeight, ← dot_load hdim]
      rfl

theorem key_value {d : Nat} (hd : d < c.dim) (kRow vRow : Nat → K) (seen : Bool) :
    (key c smScale q kRow vRow true seen).2 d = vRow d := by
  simp [key, load, hd]

theorem key_hidden (kRow vRow : Nat → K) (loaded : Bool) :
    (key c smScale q kRow vRow loaded false).1 = none := rfl

/-- What the keys of a row come to: those that are seen. -/
theorem sum_seen (hdim : c.dim ≤ c.blockDim) {loaded seen : Nat → Bool}
    (hload : ∀ i, seen i = true → loaded i = true) (n : Nat) :
    ∑ i ∈ Finset.range n, (key c smScale q (k i) (v i) (loaded i) (seen i)).1.weight E =
      ∑ i ∈ (Finset.range n).filter (fun i => seen i = true), keyWeight E smScale c.dim q (k i) := by
  rw [Finset.sum_filter]
  apply Finset.sum_congr rfl
  exact fun i _ => key_weight hdim (k i) (v i) (hload i)

theorem sum_seen_values (hdim : c.dim ≤ c.blockDim) {loaded seen : Nat → Bool}
    (hload : ∀ i, seen i = true → loaded i = true) (n : Nat) {d : Nat} (hd : d < c.dim) :
    ∑ i ∈ Finset.range n, (key c smScale q (k i) (v i) (loaded i) (seen i)).1.weight E *
        (key c smScale q (k i) (v i) (loaded i) (seen i)).2 d =
      ∑ i ∈ (Finset.range n).filter (fun i => seen i = true),
        keyWeight E smScale c.dim q (k i) * v i d := by
  rw [Finset.sum_filter]
  apply Finset.sum_congr rfl
  intro i _
  rw [key_weight hdim (k i) (v i) (hload i)]
  by_cases hseen : seen i = true
  · rw [if_pos hseen, if_pos hseen, hload i hseen, key_value hd]
  · rw [if_neg hseen, if_neg hseen, zero_mul]

/-! ## Stores -/

theorem mem_storeRow {row : Option (Lane K)} {tok qHead : Nat} (s : OutAddr × Option K) :
    s ∈ storeRow c row tok qHead ↔ ∃ d, d < c.blockDim ∧ d < c.dim ∧
      s = ((tok, qHead, d), row.map fun st => st.out d) := by
  unfold storeRow
  simp only [List.mem_map, List.mem_filter, List.mem_range, decide_eq_true_eq, and_assoc]
  exact exists_congr fun d => and_congr_right fun _ => and_congr_right fun _ => eq_comm

/-- An address that only one row is stored to. -/
theorem storeAll_row {stores ss : List (OutAddr × Option K)} (hperm : ss.Perm stores)
    (hdim : c.dim ≤ c.blockDim) (row : Option (Lane K)) {tok qHead d : Nat} (hd : d < c.dim)
    (hmem : ∀ s ∈ storeRow c row tok qHead, s ∈ stores)
    (hone : ∀ s ∈ stores, s.1.1 = tok → s.1.2.1 = qHead → s ∈ storeRow c row tok qHead)
    (mem : OutAddr → Option K) :
    storeAll mem ss (tok, qHead, d) = row.map fun st => st.out d := by
  apply storeAll_apply
  · apply hperm.mem_iff.2
    apply hmem
    exact (mem_storeRow _).2 ⟨d, Nat.lt_of_lt_of_le hd hdim, hd, rfl⟩
  · intro s hs haddr
    have htok : s.1.1 = tok := by rw [haddr]
    have hhead : s.1.2.1 = qHead := by rw [haddr]
    obtain ⟨d', -, -, rfl⟩ := (mem_storeRow s).1 (hone s (hperm.mem_iff.1 hs) htok hhead)
    have heq : d' = d := congrArg (fun p : OutAddr => p.2.2) haddr
    rw [heq]

/-! ## `paged_attention` -/

namespace PagedArgs

variable {a : PagedArgs K}

theorem keys_hidden {qTok qHead j : Nat} (h : a.seen qTok j = false) : (a.keys qTok qHead j).1 = none := by
  unfold keys
  dsimp only
  rw [h]
  rfl

theorem filter_seen (qTok : Nat) :
    (Finset.range (a.kvLen (a.qToReq qTok))).filter (fun j => a.seen qTok j = true) =
      visible a.slidingWindow (a.kvLen (a.qToReq qTok)) (a.qPos qTok) := by
  ext j
  simp [visible, seen, Config.inWindow]

theorem row_eq (hdim : a.dim ≤ a.blockDim) (hblock : 0 < a.blockN) (qTok qHead : Nat) :
    ∃ st, Lane.sweep (tileStep E) (a.keys qTok qHead) (a.skipTile qTok) a.blockN 0
        (a.kvLen (a.qToReq qTok)) (initial a.sinks qHead) = some st ∧
      ∀ d < a.dim, st.out d =
        attend E a.smScale (sinkWeight E a.sinks qHead) a.dim (a.q qTok qHead)
          (fun j => a.kCache (a.indices (a.kvStart (a.qToReq qTok) + j)) (qHead / a.group))
          (fun j => a.vCache (a.indices (a.kvStart (a.qToReq qTok) + j)) (qHead / a.group))
          (visible a.slidingWindow (a.kvLen (a.qToReq qTok)) (a.qPos qTok)) d := by
  have hhidden : ∀ i, a.kvLen (a.qToReq qTok) ≤ 0 + i → (a.keys qTok qHead (0 + i)).1 = none := by
    intro i hi
    apply keys_hidden
    have hlen : ¬ i < a.kvLen (a.qToReq qTok) := by omega
    simp [seen, hlen]
  have hskip : ∀ start ∈ starts 0 (a.kvLen (a.qToReq qTok)) a.blockN, a.skipTile qTok start = true →
      ∀ i < a.blockN, (a.keys qTok qHead (start + i)).1 = none := by
    intro start _ hskip i hi
    apply keys_hidden
    simpa using List.all_eq_true.1 hskip i (List.mem_range.2 hi)
  obtain ⟨st, hrun, hholds⟩ := Lane.sweep_holds _ _ _ _ hblock hhidden hskip
    (fun start _ _ => tileStep_takesIn _) (initial_holds (E := E) a.sinks qHead)
  refine ⟨st, hrun, fun d hd => ?_⟩
  have hload : ∀ j, a.seen qTok j = true → decide (j < a.kvLen (a.qToReq qTok)) = true := by
    intro j hj
    exact (Bool.and_eq_true_iff.1 hj).1
  rw [hholds.out_eq]
  simp only [Nat.sub_zero, zero_add, keys]
  rw [sum_seen hdim hload, sum_seen_values hdim hload _ hd, filter_seen]
  have hslot : ∀ j ∈ visible a.slidingWindow (a.kvLen (a.qToReq qTok)) (a.qPos qTok),
      (if decide (j < a.kvLen (a.qToReq qTok)) = true
        then a.indices (a.kvStart (a.qToReq qTok) + j) else 0) =
          a.indices (a.kvStart (a.qToReq qTok) + j) := by
    intro j hj
    exact if_pos (decide_eq_true (Finset.mem_range.1 (Finset.mem_filter.1 hj).1))
  apply attend_congr
  · intro j hj
    rw [hslot j hj]
  · intro j hj
    rw [hslot j hj]

theorem mem_stores (s : OutAddr × Option K) : s ∈ a.stores E ↔
    ∃ qTok < a.numTokens, ∃ qHead < a.numQHeads, s ∈ a.kernel E qTok qHead := by
  simp only [stores, List.mem_flatMap, List.mem_range]

end PagedArgs

/-- The plain kernel, its stores in any order. -/
theorem paged_attention_eq (a : PagedArgs K) (hdim : a.dim ≤ a.blockDim) (hblock : 0 < a.blockN)
    {ss : List (OutAddr × Option K)} (hss : ss.Perm (a.stores E)) (mem : OutAddr → Option K)
    {qTok qHead d : Nat} (htok : qTok < a.numTokens) (hhead : qHead < a.numQHeads) (hd : d < a.dim) :
    storeAll mem ss (qTok, qHead, d) = some
      (attend E a.smScale (sinkWeight E a.sinks qHead) a.dim (a.q qTok qHead)
        (fun j => a.kCache (a.indices (a.kvStart (a.qToReq qTok) + j)) (qHead / a.group))
        (fun j => a.vCache (a.indices (a.kvStart (a.qToReq qTok) + j)) (qHead / a.group))
        (visible a.slidingWindow (a.kvLen (a.qToReq qTok)) (a.qPos qTok)) d) := by
  obtain ⟨st, hrun, hout⟩ := PagedArgs.row_eq (E := E) hdim hblock qTok qHead
  have hkernel : a.kernel E qTok qHead = storeRow a.toConfig (some st) qTok qHead := by
    rw [PagedArgs.kernel, hrun]
  rw [storeAll_row hss hdim (some st) hd, Option.map_some, hout d hd]
  · intro s hs
    rw [← hkernel] at hs
    exact (PagedArgs.mem_stores s).2 ⟨qTok, htok, qHead, hhead, hs⟩
  · intro s hs hs₁ hs₂
    obtain ⟨qTok', -, qHead', -, hmem⟩ := (PagedArgs.mem_stores s).1 hs
    obtain ⟨d', -, -, heq⟩ := (mem_storeRow s).1 hmem
    have h₁ : qTok' = qTok := by rw [← hs₁, heq]
    have h₂ : qHead' = qHead := by rw [← hs₂, heq]
    rw [h₁, h₂, hkernel] at hmem
    exact hmem

/-! ## `extend_paged_attention` -/

namespace ExtendArgs

variable {a : ExtendArgs K} {seqId qHead blockMId row : Nat}

/-- A query of a block. -/
structure InBlock (a : ExtendArgs K) (seqId blockMId row : Nat) : Prop where
  lower : blockMId * a.blockM ≤ row
  upper : row < (blockMId + 1) * a.blockM
  query : row < a.qLen seqId

theorem InBlock.lt_blockEnd (h : InBlock a seqId blockMId row) : row < a.blockEnd seqId blockMId :=
  Nat.lt_min.2 ⟨h.query, h.upper⟩

theorem inBlock_div (hblock : 0 < a.blockM) (hrow : row < a.qLen seqId) :
    InBlock a seqId (row / a.blockM) row := by
  refine ⟨Nat.div_mul_le_self row a.blockM, ?_, hrow⟩
  rw [Nat.add_mul, Nat.one_mul]
  exact Nat.lt_div_mul_add hblock

/-- A tile that no row of the block sees. -/
theorem InBlock.not_seen (h : InBlock a seqId blockMId row) {seen : Nat → Nat → Bool} {start i : Nat}
    (hnone : a.noneSeen blockMId seen start = true) (hi : i < a.blockN) : seen row (start + i) = false := by
  have hm : row - blockMId * a.blockM < a.blockM := by
    have hupper := h.upper
    rw [Nat.add_mul, Nat.one_mul] at hupper
    have hlower := h.lower
    omega
  have hrow : blockMId * a.blockM + (row - blockMId * a.blockM) = row := Nat.add_sub_of_le h.lower
  have hall := List.all_eq_true.1 hnone _ (List.mem_range.2 hm)
  rw [hrow] at hall
  simpa using List.all_eq_true.1 hall i (List.mem_range.2 hi)

theorem keys_hidden {j : Nat} (h : a.seen seqId row j = false) :
    (a.keys seqId qHead row j).1 = none := by
  unfold keys
  dsimp only
  rw [h]
  rfl

theorem qRow_eq (hrow : row < a.qLen seqId) :
    a.qRow seqId qHead row = a.q (a.qoIndptr seqId + row) qHead := by
  funext d
  unfold qRow
  rw [decide_eq_true hrow]
  rfl

theorem filter_seen (h : InBlock a seqId blockMId row) :
    (Finset.range (a.kvLoopEnd seqId blockMId)).filter
        (fun j => a.seen seqId row j = true) =
      visible a.slidingWindow (a.kvLen seqId) (a.prefixLens seqId + row) := by
  have hend := h.lt_blockEnd
  ext j
  simp only [visible, seen, Config.inWindow, kvLoopEnd, Finset.mem_filter, Finset.mem_range, Nat.lt_min,
    Bool.and_eq_true, Bool.or_eq_true, decide_eq_true_eq]
  constructor
  · rintro ⟨-, -, hlen, hle, hwindow⟩
    exact ⟨hlen, hle, hwindow⟩
  · rintro ⟨hlen, hle, hwindow⟩
    exact ⟨⟨hlen, by omega⟩, h.query, hlen, hle, hwindow⟩

theorem row_eq (hdim : a.dim ≤ a.blockDim) (hblock : 0 < a.blockN) (h : InBlock a seqId blockMId row)
    (qHead : Nat) :
    ∃ st, a.row E seqId qHead blockMId row = some st ∧
      ∀ d < a.dim, st.out d =
        attend E a.smScale (sinkWeight E a.sinks qHead) a.dim (a.q (a.qoIndptr seqId + row) qHead)
          (fun j => a.kCache (a.indices (a.kvStart seqId + j)) (qHead / a.group))
          (fun j => a.vCache (a.indices (a.kvStart seqId + j)) (qHead / a.group))
          (visible a.slidingWindow (a.kvLen seqId) (a.prefixLens seqId + row)) d := by
  have hend := h.lt_blockEnd
  have hhidden : ∀ i, a.kvLoopEnd seqId blockMId ≤ 0 + i →
      (a.keys seqId qHead row (0 + i)).1 = none := by
    intro i hi
    unfold kvLoopEnd at hi
    apply keys_hidden
    by_cases hlen : i < a.kvLen seqId
    · have hlate : ¬ i ≤ a.prefixLens seqId + row := by omega
      simp [seen, hlate]
    · simp [seen, hlen]
  have hskip : ∀ start ∈ starts 0 (a.kvLoopEnd seqId blockMId) a.blockN,
      a.noneSeen blockMId (a.seen seqId) start = true →
        ∀ i < a.blockN, (a.keys seqId qHead row (start + i)).1 = none :=
    fun start _ hnone i hi => keys_hidden (h.not_seen hnone hi)
  obtain ⟨st, hrun, hholds⟩ := Lane.sweep_holds _ _ _ _ hblock hhidden hskip
    (fun start _ _ => tileStep_takesIn _) (initial_holds (E := E) a.sinks qHead)
  refine ⟨st, hrun, fun d hd => ?_⟩
  have hload : ∀ j, a.seen seqId row j = true → decide (j < a.kvLen seqId) = true := by
    intro j hj
    exact (Bool.and_eq_true_iff.1 (Bool.and_eq_true_iff.1 hj).2).1
  rw [hholds.out_eq]
  simp only [Nat.sub_zero, zero_add, keys]
  rw [sum_seen hdim hload, sum_seen_values hdim hload _ hd, filter_seen h, qRow_eq h.query]
  have hslot : ∀ j ∈ visible a.slidingWindow (a.kvLen seqId) (a.prefixLens seqId + row),
      (if decide (j < a.kvLen seqId) = true then a.indices (a.kvStart seqId + j) else 0) =
        a.indices (a.kvStart seqId + j) := by
    intro j hj
    exact if_pos (decide_eq_true (Finset.mem_range.1 (Finset.mem_filter.1 hj).1))
  apply attend_congr
  · intro j hj
    rw [hslot j hj]
  · intro j hj
    rw [hslot j hj]

/-- The queries of the sequences lie one behind the other, and the grid is long enough for each. -/
structure Covers (a : ExtendArgs K) : Prop where
  mono : Monotone a.qoIndptr
  long : ∀ seqId < a.numSeqs, a.qLen seqId ≤ a.maxQLen
  blockM : 0 < a.blockM

/-- The sequence and the row of a query are found in its token. -/
theorem Covers.row_unique (h : Covers a) {seqId seqId' row row' : Nat} (hrow : row < a.qLen seqId)
    (hrow' : row' < a.qLen seqId') (htok : a.qoIndptr seqId + row = a.qoIndptr seqId' + row') :
    seqId = seqId' ∧ row = row' := by
  unfold qLen at hrow hrow'
  rcases Nat.lt_trichotomy seqId seqId' with hlt | heq | hgt
  · have hle := h.mono (Nat.succ_le_of_lt hlt)
    have hsucc : a.qoIndptr (Nat.succ seqId) = a.qoIndptr (seqId + 1) := rfl
    omega
  · subst heq
    exact ⟨rfl, by omega⟩
  · have hle := h.mono (Nat.succ_le_of_lt hgt)
    have hsucc : a.qoIndptr (Nat.succ seqId') = a.qoIndptr (seqId' + 1) := rfl
    omega

theorem mem_storeRows {rows : Nat → Option (Lane K)} (s : OutAddr × Option K) :
    s ∈ a.storeRows seqId qHead blockMId rows ↔ ∃ m < a.blockM, blockMId * a.blockM + m < a.qLen seqId ∧
      s ∈ storeRow a.toConfig (rows (blockMId * a.blockM + m))
        (a.qoIndptr seqId + (blockMId * a.blockM + m)) qHead := by
  simp only [storeRows, List.mem_flatMap, List.mem_filter, List.mem_range, decide_eq_true_eq, and_assoc]

theorem mem_grid {program : Nat → Nat → Nat → List (OutAddr × Option K)} (s : OutAddr × Option K) :
    s ∈ a.grid program ↔ ∃ seqId < a.numSeqs, ∃ qHead < a.numQHeads,
      ∃ blockMId < divCeil a.maxQLen a.blockM, s ∈ program seqId qHead blockMId := by
  simp only [grid, List.mem_flatMap, List.mem_range]

/-- Each query is stored by one row of one program. -/
theorem grid_row (h : Covers a) (hdim : a.dim ≤ a.blockDim)
    (rows : Nat → Nat → Nat → Nat → Option (Lane K)) {ss : List (OutAddr × Option K)}
    (hss : ss.Perm (a.grid fun seqId qHead blockMId =>
      a.storeRows seqId qHead blockMId (rows seqId qHead blockMId)))
    (mem : OutAddr → Option K) {d : Nat} (hseq : seqId < a.numSeqs) (hrow : row < a.qLen seqId)
    (hhead : qHead < a.numQHeads) (hd : d < a.dim) :
    storeAll mem ss (a.qoIndptr seqId + row, qHead, d) =
      (rows seqId qHead (row / a.blockM) row).map fun st => st.out d := by
  have hin := inBlock_div h.blockM hrow
  have hblock : row / a.blockM < divCeil a.maxQLen a.blockM := by
    have hlong := h.long seqId hseq
    have hceil := Blocks.le_divCeil_mul a.maxQLen h.blockM
    apply (Nat.div_lt_iff_lt_mul h.blockM).2
    omega
  have hlane : row / a.blockM * a.blockM + row % a.blockM = row := Nat.div_add_mod' row a.blockM
  apply storeAll_row hss hdim _ hd
  · intro s hs
    refine (mem_grid s).2 ⟨seqId, hseq, qHead, hhead, row / a.blockM, hblock, ?_⟩
    refine (mem_storeRows s).2 ⟨row % a.blockM, Nat.mod_lt row h.blockM, ?_⟩
    rw [hlane]
    exact ⟨hrow, hs⟩
  · intro s hs htok hqHead
    obtain ⟨seqId', -, qHead', -, blockMId', -, hmem⟩ := (mem_grid s).1 hs
    obtain ⟨m, hm, hquery, hstore⟩ := (mem_storeRows s).1 hmem
    obtain ⟨d', -, -, heq⟩ := (mem_storeRow s).1 hstore
    rw [heq] at htok hqHead
    obtain ⟨hseq', hrow'⟩ := h.row_unique hquery hrow htok
    have hhead' : qHead' = qHead := hqHead
    have hblock' : blockMId' = row / a.blockM := by
      rw [← hrow', Nat.mul_comm, Nat.mul_add_div h.blockM, Nat.div_eq_of_lt hm, Nat.add_zero]
    rw [hrow', hseq', hhead', hblock'] at hstore
    exact hstore

end ExtendArgs

/-- The kernel that reads every key from the cache. -/
theorem extend_attention_eq (a : ExtendArgs K) (h : a.Covers) (hdim : a.dim ≤ a.blockDim)
    (hblock : 0 < a.blockN) {ss : List (OutAddr × Option K)} (hss : ss.Perm (a.stores E))
    (mem : OutAddr → Option K) {seqId row qHead d : Nat} (hseq : seqId < a.numSeqs)
    (hrow : row < a.qLen seqId) (hhead : qHead < a.numQHeads) (hd : d < a.dim) :
    storeAll mem ss (a.qoIndptr seqId + row, qHead, d) = some
      (attend E a.smScale (sinkWeight E a.sinks qHead) a.dim (a.q (a.qoIndptr seqId + row) qHead)
        (fun j => a.kCache (a.indices (a.kvStart seqId + j)) (qHead / a.group))
        (fun j => a.vCache (a.indices (a.kvStart seqId + j)) (qHead / a.group))
        (visible a.slidingWindow (a.kvLen seqId) (a.prefixLens seqId + row)) d) := by
  obtain ⟨st, hrun, hout⟩ := ExtendArgs.row_eq (E := E) hdim hblock
    (ExtendArgs.inBlock_div h.blockM hrow) qHead
  rw [ExtendArgs.grid_row h hdim (a.row E) hss mem hseq hrow hhead hd, hrun, Option.map_some, hout d hd]

namespace ExtendSplitArgs

variable {a : ExtendSplitArgs K} {seqId qHead blockMId row : Nat}

/-- The key at a position: from the cache before this extend, else where the layer left it. -/
def keyAt (a : ExtendSplitArgs K) (seqId kvHead j : Nat) : Nat → K :=
  if j < a.prefixLens seqId then a.kCache (a.indices (a.kvStart seqId + j)) kvHead
  else a.kExtend (a.qoIndptr seqId + (j - a.prefixLens seqId)) kvHead

def valueAt (a : ExtendSplitArgs K) (seqId kvHead j : Nat) : Nat → K :=
  if j < a.prefixLens seqId then a.vCache (a.indices (a.kvStart seqId + j)) kvHead
  else a.vExtend (a.qoIndptr seqId + (j - a.prefixLens seqId)) kvHead

/-- What a row sees lies in the prefix or in the extend. -/
theorem sum_visible (h : a.InBlock seqId blockMId row) (f : Nat → K) :
    ∑ j ∈ visible a.slidingWindow (a.prefixLens seqId + a.qLen seqId) (a.prefixLens seqId + row), f j =
      ∑ j ∈ (Finset.range (a.prefixLens seqId)).filter (fun j => a.seenPrefix seqId row j = true), f j +
        ∑ i ∈ (Finset.range (a.blockEnd seqId blockMId)).filter
          (fun i => a.seenCurrent seqId blockMId row i = true), f (a.prefixLens seqId + i) := by
  have hend := h.lt_blockEnd
  have hquery := h.query
  have hle : a.blockEnd seqId blockMId ≤ a.qLen seqId := Nat.min_le_left _ _
  unfold visible
  rw [Finset.sum_filter, Finset.sum_filter, Finset.sum_filter, Finset.sum_range_add]
  congr 1
  · apply Finset.sum_congr rfl
    intro j hj
    have hlt := Finset.mem_range.1 hj
    have hearly : j ≤ a.prefixLens seqId + row := by omega
    simp [seenPrefix, Config.inWindow, hquery, hlt, hearly]
  · rw [Finset.eventually_constant_sum _ hle]
    · apply Finset.sum_congr rfl
      intro i hi
      have hlt := Finset.mem_range.1 hi
      have hwindow : a.prefixLens seqId + row < a.prefixLens seqId + i + a.slidingWindow ↔
          row < i + a.slidingWindow := by omega
      simp [seenCurrent, Config.inWindow, hquery, hlt, hwindow]
    · intro i hi
      have hlate : ¬ i ≤ row := by omega
      simp [hlate]

theorem row_eq (hdim : a.dim ≤ a.blockDim) (hblock : 0 < a.blockN) (h : a.InBlock seqId blockMId row)
    (qHead : Nat) :
    ∃ st, a.row E seqId qHead blockMId row = some st ∧
      ∀ d < a.dim, st.out d =
        attend E a.smScale (sinkWeight E a.sinks qHead) a.dim (a.q (a.qoIndptr seqId + row) qHead)
          (a.keyAt seqId (qHead / a.group)) (a.valueAt seqId (qHead / a.group))
          (visible a.slidingWindow (a.prefixLens seqId + a.qLen seqId) (a.prefixLens seqId + row)) d := by
  have hhiddenPrefix : ∀ j, a.seenPrefix seqId row j = false →
      (a.keysPrefix seqId qHead row j).1 = none := by
    intro j hj
    unfold keysPrefix
    dsimp only
    rw [hj]
    rfl
  have hhiddenCurrent : ∀ j, a.seenCurrent seqId blockMId row j = false →
      (a.keysCurrent seqId qHead blockMId row j).1 = none := by
    intro j hj
    unfold keysCurrent
    dsimp only
    rw [hj]
    rfl
  have hskipped : ∀ seen start, a.skipTile blockMId seen start = true →
      a.noneSeen blockMId seen start = true := fun _ _ hskip => (Bool.and_eq_true_iff.1 hskip).2
  obtain ⟨st₁, hrun₁, hholds₁⟩ := Lane.sweep_holds (tileStep E)
    (a.skipTile blockMId (a.seenPrefix seqId)) 0 (a.prefixLens seqId) hblock
    (fun i hi => hhiddenPrefix _ (by
      have hnot : ¬ 0 + i < a.prefixLens seqId := by omega
      simp only [seenPrefix, hnot, decide_false, Bool.false_and, Bool.and_false]))
    (fun start _ hskip i hi => hhiddenPrefix _ (h.not_seen (hskipped _ _ hskip) hi))
    (fun start _ _ => tileStep_takesIn _) (initial_holds (E := E) a.sinks qHead)
  obtain ⟨st₂, hrun₂, hholds₂⟩ := Lane.sweep_holds (tileStep E)
    (a.skipTile blockMId (a.seenCurrent seqId blockMId)) 0 (a.blockEnd seqId blockMId) hblock
    (fun i hi => hhiddenCurrent _ (by
      have hnot : ¬ 0 + i < a.blockEnd seqId blockMId := by omega
      simp only [seenCurrent, hnot, decide_false, Bool.false_and, Bool.and_false]))
    (fun start _ hskip i hi => hhiddenCurrent _ (h.not_seen (hskipped _ _ hskip) hi))
    (fun start _ _ => tileStep_takesIn _) hholds₁
  refine ⟨st₂, ?_, fun d hd => ?_⟩
  · rw [ExtendSplitArgs.row, hrun₁]
    exact hrun₂
  have hloadPrefix : ∀ j, a.seenPrefix seqId row j = true → decide (j < a.prefixLens seqId) = true :=
    fun j hj => (Bool.and_eq_true_iff.1 (Bool.and_eq_true_iff.1 hj).2).1
  have hloadCurrent : ∀ j, a.seenCurrent seqId blockMId row j = true →
      decide (j < a.blockEnd seqId blockMId) = true :=
    fun j hj => (Bool.and_eq_true_iff.1 (Bool.and_eq_true_iff.1 hj).2).1
  rw [hholds₂.out_eq]
  simp only [Nat.sub_zero, zero_add, keysPrefix, keysCurrent]
  rw [sum_seen hdim hloadPrefix, sum_seen_values hdim hloadPrefix _ hd, sum_seen hdim hloadCurrent,
    sum_seen_values hdim hloadCurrent _ hd, ExtendArgs.qRow_eq h.query, attend, sum_visible h,
    sum_visible h, add_assoc]
  have hcached : ∀ j ∈ (Finset.range (a.prefixLens seqId)).filter
      (fun j => a.seenPrefix seqId row j = true), j < a.prefixLens seqId :=
    fun j hj => Finset.mem_range.1 (Finset.mem_filter.1 hj).1
  congr 1
  · congr 1
    · apply Finset.sum_congr rfl
      intro j hj
      simp only [keyAt, valueAt, hcached j hj, decide_true, if_true]
    · apply Finset.sum_congr rfl
      intro i _
      simp [keyAt, valueAt]
  · congr 2
    · apply Finset.sum_congr rfl
      intro j hj
      simp only [keyAt, hcached j hj, decide_true, if_true]
    · apply Finset.sum_congr rfl
      intro i _
      simp [keyAt]

end ExtendSplitArgs

/-- The kernel that reads this extend where the layer left it. -/
theorem extend_attention_split_eq (a : ExtendSplitArgs K) (h : a.Covers) (hdim : a.dim ≤ a.blockDim)
    (hblock : 0 < a.blockN) {ss : List (OutAddr × Option K)} (hss : ss.Perm (a.stores E))
    (mem : OutAddr → Option K) {seqId row qHead d : Nat} (hseq : seqId < a.numSeqs)
    (hrow : row < a.qLen seqId) (hhead : qHead < a.numQHeads) (hd : d < a.dim) :
    storeAll mem ss (a.qoIndptr seqId + row, qHead, d) = some
      (attend E a.smScale (sinkWeight E a.sinks qHead) a.dim (a.q (a.qoIndptr seqId + row) qHead)
        (a.keyAt seqId (qHead / a.group)) (a.valueAt seqId (qHead / a.group))
        (visible a.slidingWindow (a.prefixLens seqId + a.qLen seqId) (a.prefixLens seqId + row)) d) := by
  obtain ⟨st, hrun, hout⟩ := ExtendSplitArgs.row_eq (E := E) hdim hblock
    (ExtendArgs.inBlock_div h.blockM hrow) qHead
  rw [ExtendArgs.grid_row h hdim (a.row E) hss mem hseq hrow hhead hd, hrun, Option.map_some,
    hout d hd]

/-- The cache holds this extend behind the prefix. -/
structure ExtendSplitArgs.Cached (a : ExtendSplitArgs K) : Prop where
  len : ∀ seqId < a.numSeqs, a.kvLen seqId = a.prefixLens seqId + a.qLen seqId
  key : ∀ seqId < a.numSeqs, ∀ i < a.qLen seqId,
    a.kCache (a.indices (a.kvStart seqId + (a.prefixLens seqId + i))) = a.kExtend (a.qoIndptr seqId + i)
  value : ∀ seqId < a.numSeqs, ∀ i < a.qLen seqId,
    a.vCache (a.indices (a.kvStart seqId + (a.prefixLens seqId + i))) = a.vExtend (a.qoIndptr seqId + i)

/-- Reading the extend where the layer left it saves reads, and changes nothing. -/
theorem extend_kernels_agree (a : ExtendSplitArgs K) (h : a.Covers) (hcached : a.Cached)
    (hdim : a.dim ≤ a.blockDim) (hblock : 0 < a.blockN) {ss ss' : List (OutAddr × Option K)}
    (hss : ss.Perm (a.stores E)) (hss' : ss'.Perm (a.toExtendArgs.stores E))
    (mem mem' : OutAddr → Option K) {seqId row qHead d : Nat} (hseq : seqId < a.numSeqs)
    (hrow : row < a.qLen seqId) (hhead : qHead < a.numQHeads) (hd : d < a.dim) :
    storeAll mem ss (a.qoIndptr seqId + row, qHead, d) =
      storeAll mem' ss' (a.qoIndptr seqId + row, qHead, d) := by
  rw [extend_attention_split_eq a h hdim hblock hss mem hseq hrow hhead hd,
    extend_attention_eq a.toExtendArgs h hdim hblock hss' mem' hseq hrow hhead hd, hcached.len seqId hseq]
  apply congrArg some
  have hrows : ∀ {cache x : Tensor K}, (∀ i < a.qLen seqId,
      cache (a.indices (a.kvStart seqId + (a.prefixLens seqId + i))) = x (a.qoIndptr seqId + i)) →
        ∀ j ∈ visible a.slidingWindow (a.prefixLens seqId + a.qLen seqId) (a.prefixLens seqId + row),
          (if j < a.prefixLens seqId then cache (a.indices (a.kvStart seqId + j)) (qHead / a.group)
            else x (a.qoIndptr seqId + (j - a.prefixLens seqId)) (qHead / a.group)) =
              cache (a.indices (a.kvStart seqId + j)) (qHead / a.group) := by
    intro cache x hcache j hj
    have hlt : j < a.prefixLens seqId + a.qLen seqId :=
      Finset.mem_range.1 (Finset.mem_filter.1 hj).1
    split
    · rfl
    · rename_i hnot
      have hsplit : a.prefixLens seqId + (j - a.prefixLens seqId) = j := by omega
      have hrow := hcache (j - a.prefixLens seqId) (by omega)
      rw [hsplit] at hrow
      rw [hrow]
  apply attend_congr
  · exact hrows (hcached.key seqId hseq)
  · exact hrows (hcached.value seqId hseq)

/-- One sequence of two new tokens behind a cached one. -/
def sampleExtend : ExtendSplitArgs ℝ where
  group := 1
  dim := 1
  blockDim := 1
  slidingWindow := 2
  kCache _ _ _ := 1
  vCache _ _ _ := 1
  indptr n := min n 1 * 3
  indices n := n
  q _ _ _ := 1
  qoIndptr n := min n 1 * 2
  prefixLens _ := 1
  smScale := 1
  sinks := none
  blockM := 1
  blockN := 2
  numSeqs := 1
  numQHeads := 1
  maxQLen := 2
  kExtend _ _ _ := 1
  vExtend _ _ _ := 1

theorem extend_kernels_agree_one :
    storeAll (fun _ => none) (ExtendSplitArgs.stores ExpLog.real sampleExtend) (1, 0, 0) =
      storeAll (fun _ => none) (ExtendArgs.stores ExpLog.real sampleExtend.toExtendArgs) (1, 0, 0) := by
  have hcovers : sampleExtend.Covers := by
    refine ⟨?_, fun seqId hseq => ?_, by decide⟩
    · apply monotone_nat_of_le_succ
      intro n
      show min n 1 * 2 ≤ min (n + 1) 1 * 2
      omega
    · have hzero : seqId = 0 := Nat.lt_one_iff.1 hseq
      rw [hzero]
      exact le_rfl
  have hcached : sampleExtend.Cached := by
    refine ⟨fun seqId hseq => ?_, fun _ _ _ _ => rfl, fun _ _ _ _ => rfl⟩
    have hzero : seqId = 0 := Nat.lt_one_iff.1 hseq
    rw [hzero]
    rfl
  have hseq : 0 < sampleExtend.numSeqs := by decide
  have hrow : 1 < sampleExtend.qLen 0 := by decide
  have hhead : 0 < sampleExtend.numQHeads := by decide
  have hd : 0 < sampleExtend.dim := by decide
  exact extend_kernels_agree sampleExtend hcovers hcached (by decide) (by decide) (List.Perm.refl _)
    (List.Perm.refl _) (fun _ => none) (fun _ => none) hseq hrow hhead hd

end PagedAttention

end FreeToken
