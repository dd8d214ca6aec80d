import FreeToken.Kernel.Df11Kernels

/-!
# Gathered rows

The gather kernel writes, for every id of its list, the row that the reference decoder has under it;
repeated ids write the row again.
-/

set_option autoImplicit false

namespace FreeToken

namespace Df11

open Region

namespace CompressedRows

variable (c : CompressedRows)

def source : Source := ⟨c.bitstream, c.lut, c.lmax⟩

def startAt (r : Nat) : Nat := c.chunkStart.getD r 0

/-- The entry at a place: row `p / C` walks to its column `p % C`. -/
def entryOf (p : Nat) : Nat :=
  c.source.entryAt (c.source.walk (c.startAt (p / c.cols)) (p % c.cols))

def element (p : Nat) : BitVec 16 := joinBits (c.entryOf p >>> 8) (c.low8.getD p 0)

/-- What the tensors of a bundle have to do with its sizes. -/
structure WellFormed : Prop where
  starts : c.chunkStart.length = c.rows
  low8 : c.low8.length = c.n
  size : c.n = c.rows * c.cols

variable {c}

theorem chunkStart_eq (h : c.WellFormed) {r : Nat} (hr : r < c.rows) :
    c.chunkStart[r]? = some (c.startAt r) := by
  have hlt : r < c.chunkStart.length := by
    rw [h.starts]
    exact hr
  unfold startAt
  rw [List.getD_eq_getElem?_getD, List.getElem?_eq_getElem hlt]
  rfl

theorem WellFormed.place_lt (h : c.WellFormed) {r k : Nat} (hr : r < c.rows) (hk : k < c.cols) :
    r * c.cols + k < c.n := by
  have hle := Nat.mul_le_mul_right c.cols hr
  have hsize := h.size
  rw [Nat.succ_mul] at hle
  omega

/-- The reference decoder fills a row with the entries of its walk. -/
theorem decodeRow_walk (hread : c.source.Readable) (h : c.WellFormed) {r : Nat} (hr : r < c.rows)
    {expOut : List Nat} (hlen : expOut.length = c.n) :
    ∃ out, (c.chunkStart[r]?.bind fun pos =>
        decodeRow c c.source.stream r c.cols 0 (Int.ofNat pos) expOut) = some out ∧
      out.length = c.n ∧
      ∀ p < c.n, out[p]? = if p / c.cols = r then some (c.entryOf p >>> 8) else expOut[p]? := by
  let pos : Nat → Nat := c.source.walk (c.startAt r)
  let l : Nat → Nat := fun k => c.source.entryAt (pos k) &&& 0xFF
  let e : Nat → Nat := fun p => c.entryOf p >>> 8
  have hl : ∀ k < c.cols, l k < 256 := by
    intro k _
    have hmem := hread.len_le _ (hread.entryAt_mem (pos k))
    have hlmax := hread.lmax_le
    show c.source.entryAt (pos k) &&& 0xFF < 256
    omega
  have hreads : ∀ k < c.cols, ReadsAt c.source.stream c.lut c.lmax (pos k) (e (r * c.cols + k)) (l k) := by
    intro k hk
    have hentry : e (r * c.cols + k) = c.source.entryAt (pos k) >>> 8 := by
      show c.entryOf (r * c.cols + k) >>> 8 = _
      unfold entryOf
      rw [place_mod hk, place_div hk]
    rw [hentry]
    exact hread.readsAt _
  obtain ⟨out, hdec, hlen', hout⟩ := decodeRow_spec hr h.size hl (fun _ _ => rfl) hreads c.cols 0 expOut
    (Nat.zero_add _) hlen
  refine ⟨out, ?_, hlen', ?_⟩
  · rw [chunkStart_eq h hr]
    exact hdec
  · intro p hp
    rw [hout p hp]
    by_cases hown : p / c.cols = r
    · rw [if_pos ⟨hown, Nat.zero_le _⟩, if_pos hown]
    · rw [if_neg fun hin => hown hin.1, if_neg hown]

/-- The reference decoder takes every entry of the walks. -/
theorem decompressRowsRef_spec (hread : c.source.Readable) (h : c.WellFormed) :
    ∃ m, decompressRowsRef c = some m ∧ m.data = (List.range c.n).map c.element := by
  -- after `r` rows the places of the first `r` rows hold their exponents
  let P : Nat → List Nat → Prop := fun r expOut => expOut.length = c.n ∧
    ∀ p < c.n, p / c.cols < r → expOut[p]? = some (c.entryOf p >>> 8)
  have hinit : P 0 (List.replicate c.n 0) :=
    ⟨List.length_replicate, fun p _ hp => absurd hp (Nat.not_lt_zero _)⟩
  have hstep : ∀ r < c.rows, ∀ expOut, P r expOut →
      ∃ out, (c.chunkStart[r]?.bind fun pos =>
        decodeRow c c.source.stream r c.cols 0 (Int.ofNat pos) expOut) = some out ∧ P (r + 1) out := by
    intro r hr expOut hprev
    obtain ⟨out, hrun, hlen, hout⟩ := decodeRow_walk hread h hr hprev.1
    refine ⟨out, hrun, hlen, fun p hp hrow => ?_⟩
    rw [hout p hp]
    by_cases hown : p / c.cols = r
    · rw [if_pos hown]
    · rw [if_neg hown]
      exact hprev.2 p hp (by omega)
  obtain ⟨expOut, hfold, hlen, hout⟩ := foldlM_range c.rows hinit hstep
  have hall : ∀ p < c.n, expOut[p]? = some (c.entryOf p >>> 8) := by
    intro p hp
    apply hout p hp
    apply Nat.div_lt_of_lt_mul
    rw [Nat.mul_comm, ← h.size]
    exact hp
  obtain ⟨m, hm, hdata⟩ := assemble_entries hlen h.low8 h.size hall
  refine ⟨m, ?_, hdata⟩
  unfold decompressRowsRef
  show ((List.range c.rows).foldlM (fun expOut r => c.chunkStart[r]?.bind fun pos =>
    decodeRow c c.source.stream r c.cols 0 (Int.ofNat pos) expOut) (List.replicate c.n 0) >>= _) = _
  rw [hfold]
  exact hm

/-! ## The kernel -/

variable {ids : List Nat} {block : Nat}

/-- What the kernel asks of a bundle and a list of ids: lanes that fit their 32-bit numbers, and table
indices that are not negative as 32-bit integers. -/
structure Decodable (c : CompressedRows) (ids : List Nat) (block : Nat) : Prop where
  lanes : lanes ids.length block ≤ 2 ^ 31
  window : ∀ r ∈ ids, c.lmax ≤ 31 ∨ (c.lmax = 32 ∧ c.source.Narrow (c.startAt r) c.cols)

theorem Decodable.narrow (h : c.Decodable ids block) {r : Nat} (hr : r ∈ ids) :
    c.source.Narrow (c.startAt r) c.cols := by
  rcases h.window r hr with hlmax | ⟨-, hnarrow⟩
  · exact Source.narrow_of_le hlmax _ _
  · exact hnarrow

theorem gatherPeeks_of_lt (h : c.WellFormed) {t r : Nat} (ht : ids[t]? = some r) (hr : r < c.rows) :
    c.gatherPeeks ids t = lanePeeks c.bitstream c.lut c.lmax true (c.startAt r : Int) c.cols := by
  have hlt : t < ids.length := (List.getElem?_eq_some_iff.1 ht).1
  unfold gatherPeeks
  rw [decide_eq_true (Int.ofNat_lt.2 hlt)]
  dsimp only
  rw [loadAt_true_nat, ht]
  show (loadAt c.chunkStart true (r : Int) >>= _) = _
  rw [loadAt_true_nat, chunkStart_eq h hr]
  rfl

theorem gatherPeeks_follows (hread : c.source.Readable) (h : c.WellFormed)
    (hdec : c.Decodable ids block) {t r : Nat} (ht : ids[t]? = some r) (hr : r < c.rows) :
    ∃ ps, c.gatherPeeks ids t = some ps ∧ Follows c.source (c.startAt r) c.cols ps := by
  obtain ⟨ps, hrun, hps⟩ := lanePeeks_spec hread (hdec.narrow (List.mem_of_getElem? ht))
  exact ⟨ps, by rw [gatherPeeks_of_lt h ht hr]; exact hrun, hps⟩

/-- What a slot of the output takes: the element of its id's row. -/
def gathered (c : CompressedRows) (ids : List Nat) (q : Nat) : BitVec 16 :=
  c.element (ids.getD (q / c.cols) 0 * c.cols + q % c.cols)

theorem gathered_place {t r k : Nat} (ht : ids[t]? = some r) (hk : k < c.cols) :
    c.gathered ids (t * c.cols + k) = c.element (r * c.cols + k) := by
  have hget : ids.getD t 0 = r := by
    rw [List.getD_eq_getElem?_getD, ht]
    rfl
  unfold gathered
  rw [place_div hk, place_mod hk, hget]

theorem element_place {r k : Nat} (hk : k < c.cols) : c.element (r * c.cols + k) =
    joinBits (c.source.entryAt (c.source.walk (c.startAt r) k) >>> 8)
      (c.low8.getD (r * c.cols + k) 0) := by
  unfold element entryOf
  rw [place_div hk, place_mod hk]

/-- The lane of an id writes its row. -/
theorem gatherLane_spec (hread : c.source.Readable) (h : c.WellFormed) (hdec : c.Decodable ids block)
    {t r : Nat} (ht : ids[t]? = some r) (hr : r < c.rows) (hlane : t < 2 ^ 31)
    {out : List (BitVec 16)} (hlen : out.length = ids.length * c.cols) :
    ∃ out', c.gatherLane ids out t = some out' ∧ out'.length = ids.length * c.cols ∧
      ∀ q < ids.length * c.cols,
        out'[q]? = if q / c.cols = t then some (c.gathered ids q) else out[q]? := by
  have htlt : t < ids.length := (List.getElem?_eq_some_iff.1 ht).1
  obtain ⟨ps, hrun, hps⟩ := gatherPeeks_follows hread h hdec ht hr
  have hf : ∀ (out : List (BitVec 16)) (p : Peek) (k : Nat), out.length = ids.length * c.cols →
      k < c.cols → c.storeGathered ids t out (p, k) = some (if True then
        out.set (t * c.cols + k) (joinBits p.sym (c.low8.getD (r * c.cols + k) 0)) else out) := by
    intro out p k _ hk
    have hlow : r * c.cols + k < c.low8.length := by
      rw [h.low8]
      exact h.place_lt hr hk
    unfold storeGathered
    rw [if_pos (Int.ofNat_lt.2 htlt), if_pos (Int.natCast_nonneg t), Int.toNat_natCast, ht]
    show (c.low8[r * c.cols + k]? >>= _) = _
    rw [List.getElem?_eq_getElem hlow, List.getD_eq_getElem?_getD, List.getElem?_eq_getElem hlow,
      if_pos trivial]
    rfl
  have hlt : ∀ k < c.cols, True → t * c.cols + k < ids.length * c.cols := by
    intro k hk _
    have hle := Nat.mul_le_mul_right c.cols htlt
    rw [Nat.succ_mul] at hle
    omega
  obtain ⟨out', hfold, hlen', hkeep, hput⟩ := foldlM_stores hf hlt
    (fun k _ k' _ heq => Nat.add_left_cancel heq) ps 0 out (by rw [hps.length, Nat.zero_add]) hlen
  refine ⟨out', by rw [gatherLane, laneId_of_lt hlane, hrun]; exact hfold, hlen', ?_⟩
  intro q hq
  by_cases hown : q / c.cols = t
  · have hcols : 0 < c.cols := by
      apply Nat.pos_of_ne_zero
      intro hzero
      rw [hzero, Nat.mul_zero] at hq
      omega
    have hplace : t * c.cols + q % c.cols = q := by
      rw [← hown, Nat.div_add_mod']
    have hmod := Nat.mod_lt q hcols
    have hk : q % c.cols < ps.length := by
      rw [hps.length]
      exact hmod
    have hslot : c.gathered ids q = c.element (r * c.cols + q % c.cols) := by
      rw [← gathered_place ht hmod, hplace]
    have hget := hput (q % c.cols) ps[q % c.cols] (List.getElem?_eq_getElem hk) trivial
    rw [Nat.zero_add, hplace, hps.sym hread (List.getElem?_eq_getElem hk)] at hget
    rw [hget, if_pos hown, hslot, element_place hmod]
  · rw [if_neg hown]
    apply hkeep q
    intro k _ hk _ heq
    apply hown
    rw [← heq, place_div hk]

/-- A lane past the ids writes nothing. -/
theorem gatherLane_idle (hread : c.source.Readable) {t : Nat} (ht : ids.length ≤ t)
    (hlane : t < 2 ^ 31) (out : List (BitVec 16)) : c.gatherLane ids out t = some out := by
  have hlut : c.lut ≠ [] := by
    apply List.ne_nil_of_length_pos
    rw [show c.lut.length = 2 ^ c.lmax from hread.size]
    exact Nat.two_pow_pos _
  obtain ⟨ps, hrun⟩ := @lanePeeks_idle c.bitstream c.lut hlut c.lmax c.cols
  have hpeeks : c.gatherPeeks ids t = some ps := by
    unfold gatherPeeks
    rw [decide_eq_false (by omega)]
    exact hrun
  have hstore : ∀ turns : List (Peek × Nat), turns.foldlM (c.storeGathered ids t) out = some out := by
    intro turns
    induction turns with
    | nil => rfl
    | cons turn turns ih =>
        rw [List.foldlM_cons, storeGathered]
        rw [if_neg (by omega)]
        exact ih
  rw [gatherLane, laneId_of_lt hlane, hpeeks]
  exact hstore _

/-- The kernel writes the elements of the gathered rows. -/
theorem gatherKernel_spec (hread : c.source.Readable) (h : c.WellFormed) (hdec : c.Decodable ids block)
    (hids : ∀ r ∈ ids, r < c.rows) (hblock : 0 < block) {out : List (BitVec 16)}
    (hlen : out.length = ids.length * c.cols) :
    c.gatherKernel ids block out = some ((List.range (ids.length * c.cols)).map (c.gathered ids)) := by
  let P : Nat → List (BitVec 16) → Prop := fun t out => out.length = ids.length * c.cols ∧
    ∀ q < ids.length * c.cols, q / c.cols < t → out[q]? = some (c.gathered ids q)
  have hstep : ∀ t < lanes ids.length block, ∀ out, P t out →
      ∃ out', c.gatherLane ids out t = some out' ∧ P (t + 1) out' := by
    intro t hlt out hprev
    have ht31 := Nat.lt_of_lt_of_le hlt hdec.lanes
    by_cases ht : t < ids.length
    · have hget := List.getElem?_eq_getElem ht
      obtain ⟨out', hlane, hlen', hout'⟩ := gatherLane_spec hread h hdec hget
        (hids _ (List.getElem_mem ht)) ht31 hprev.1
      refine ⟨out', hlane, hlen', fun q hq hrow => ?_⟩
      rw [hout' q hq]
      by_cases hown : q / c.cols = t
      · rw [if_pos hown]
      · rw [if_neg hown]
        exact hprev.2 q hq (by omega)
    · refine ⟨out, gatherLane_idle hread (Nat.le_of_not_lt ht) ht31 out, hprev.1, fun q hq _ => ?_⟩
      apply hprev.2 q hq
      apply Nat.lt_of_lt_of_le _ (Nat.le_of_not_lt ht)
      apply Nat.div_lt_of_lt_mul
      rw [Nat.mul_comm]
      exact hq
  obtain ⟨out', hrun, hlen', hout⟩ := foldlM_range (lanes ids.length block)
    (show P 0 out from ⟨hlen, fun q _ hq => absurd hq (Nat.not_lt_zero _)⟩) hstep
  rw [gatherKernel, hrun]
  congr 1
  apply List.ext_getElem?
  intro q
  by_cases hq : q < ids.length * c.cols
  · have hrow : q / c.cols < lanes ids.length block := by
      apply Nat.lt_of_lt_of_le _ (le_lanes ids.length hblock)
      apply Nat.div_lt_of_lt_mul
      rw [Nat.mul_comm]
      exact hq
    rw [hout q hq hrow, List.getElem?_map, List.getElem?_range hq]
    rfl
  · rw [List.getElem?_eq_none (by omega), List.getElem?_eq_none (by simpa using hq)]

/-- A slot of the output is the row of its id. -/
theorem slice_gathered (h : c.WellFormed) {t r : Nat} (ht : ids[t]? = some r) (hr : r < c.rows) :
    slice ((List.range (ids.length * c.cols)).map (c.gathered ids)) (t * c.cols) c.cols =
      slice ((List.range c.n).map c.element) (r * c.cols) c.cols := by
  have htlt : t < ids.length := (List.getElem?_eq_some_iff.1 ht).1
  apply List.ext_getElem?
  intro k
  rw [getElem?_slice, getElem?_slice]
  by_cases hk : k < c.cols
  · have hslot : t * c.cols + k < ids.length * c.cols := by
      have hle := Nat.mul_le_mul_right c.cols htlt
      rw [Nat.succ_mul] at hle
      omega
    rw [if_pos hk, if_pos hk, List.getElem?_map, List.getElem?_range hslot, List.getElem?_map,
      List.getElem?_range (h.place_lt hr hk)]
    show some (c.gathered ids (t * c.cols + k)) = some (c.element (r * c.cols + k))
    rw [gathered_place ht hk]
  · rw [if_neg hk, if_neg hk]

/-! ## A kernel that gets through -/

section Through

variable {out out' : List (BitVec 16)} (hrun : c.gatherKernel ids block out = some out')
include hrun

theorem of_gatherKernel {k : Nat} (hk : k < lanes ids.length block) :
    ∃ ps, c.gatherPeeks ids (laneId k) = some ps := by
  obtain ⟨out₁, out₂, hlane⟩ := of_foldlM_eq_some hrun k (List.mem_range.2 hk)
  rw [gatherLane] at hlane
  obtain ⟨ps, hps, -⟩ := Option.bind_eq_some_iff.1 hlane
  exact ⟨ps, hps⟩

/-- No lane has a negative number. -/
theorem lanes_of_gatherKernel : lanes ids.length block ≤ 2 ^ 31 := by
  by_contra hover
  obtain ⟨ps, hps⟩ := of_gatherKernel hrun (Nat.lt_of_not_le hover)
  have hneg := laneId_first_neg
  rw [gatherPeeks, decide_eq_true (by omega)] at hps
  rw [loadAt_true_neg hneg] at hps
  cases hps

/-- No lane looked up a negative index. -/
theorem narrow_of_gatherKernel (hread : c.source.Readable) (h : c.WellFormed)
    (hids : ∀ r ∈ ids, r < c.rows) (hblock : 0 < block) {r : Nat} (hr : r ∈ ids) :
    c.source.Narrow (c.startAt r) c.cols := by
  obtain ⟨t, ht⟩ := List.getElem?_of_mem hr
  have htlt : t < ids.length := (List.getElem?_eq_some_iff.1 ht).1
  have hlanes := lanes_of_gatherKernel hrun
  have hk := Nat.lt_of_lt_of_le htlt (le_lanes ids.length hblock)
  obtain ⟨ps, hps⟩ := of_gatherKernel hrun hk
  rw [laneId_of_lt (Nat.lt_of_lt_of_le hk hlanes), gatherPeeks_of_lt h ht (hids r hr)] at hps
  exact narrow_of_lanePeeks hread hps

end Through

end CompressedRows

end Df11

end FreeToken
