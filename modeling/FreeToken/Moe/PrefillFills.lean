import FreeToken.Moe.HybridAgrees
import FreeToken.Moe.PrefillSplit

/-!
# The split prefetch fills its buffer

Inside a chunk only the entries of slots below the double buffer's end change, and only to `-1`; so the
live map and the snapshot name the same hits, wherever a lane has read.  No copy writes what another
reads, and every schedule ends in the rows of `prefetchSplit`.
-/

set_option autoImplicit false

namespace FreeToken

open Copies

namespace OffloadMoeCache

namespace PrefillSplit

open HybridKernel (entry nextPowerOf2 le_nextPowerOf2)

variable {Bank : Type} {banks : List Bank} {feat : Bank → Nat}
  {past : List (OffloadMoeCache Bank (List UInt8))} {c c₀ : OffloadMoeCache Bank (List UInt8)}
  {layer bufferId : Nat}

/-! ## Bytes and rows -/

theorem address_div {f : Nat} (s : Nat) {k : Nat} (hk : k < f) : (s * f + k) / f = s := by
  rw [Nat.mul_comm, Nat.mul_add_div (by omega), Nat.div_eq_of_lt hk, Nat.add_zero]

theorem address_mod {f : Nat} (s : Nat) {k : Nat} (hk : k < f) : (s * f + k) % f = k := by
  rw [Nat.mul_comm, Nat.mul_add_mod, Nat.mod_eq_of_lt hk]

theorem address_lt {f s n k : Nat} (hs : s < n) (hk : k < f) : s * f + k < n * f :=
  calc s * f + k < s * f + f := by omega
    _ = (s + 1) * f := by rw [Nat.succ_mul]
    _ ≤ n * f := Nat.mul_le_mul_right f hs

/-- An address is a row and an offset. -/
theorem exists_address {f n a : Nat} (h : a < n * f) : ∃ s < n, ∃ k < f, a = s * f + k := by
  have hpos : 0 < f := Nat.pos_of_mul_pos_left (Nat.zero_lt_of_lt h)
  have hrow : a / f < n := Nat.div_lt_of_lt_mul (by rwa [Nat.mul_comm])
  exact ⟨a / f, hrow, a % f, Nat.mod_lt a hpos, (Nat.div_add_mod' a f).symm⟩

theorem address_add (s d f k : Nat) : s * f + (d * f + k) = (s + d) * f + k := by
  rw [Nat.add_mul, Nat.add_assoc]

theorem address_inj {f s s' k k' : Nat} (hk : k < f) (hk' : k' < f)
    (h : s * f + k = s' * f + k') : s = s' ∧ k = k' :=
  ⟨by rw [← address_div s hk, h, address_div s' hk'], by rw [← address_mod s hk, h, address_mod s' hk']⟩

theorem memory_slots (c : OffloadMoeCache Bank (List UInt8)) (b : Bank) (s : Nat) {k : Nat}
    (hk : k < feat b) : memory c feat (.slots b (s * feat b + k)) = (c.bankCaches b s).getD k 0 := by
  change (c.bankCaches b ((s * feat b + k) / feat b)).getD ((s * feat b + k) % feat b) 0 = _
  rw [address_div s hk, address_mod s hk]

theorem memory_host (c : OffloadMoeCache Bank (List UInt8)) (b : Bank) (layer e : Nat) {k : Nat}
    (hk : k < feat b) :
    memory c feat (.host b layer (e * feat b + k)) = (c.config.bankSources b layer e).getD k 0 := by
  change (c.config.bankSources b layer ((e * feat b + k) / feat b)).getD
    ((e * feat b + k) % feat b) 0 = _
  rw [address_div e hk, address_mod e hk]

/-- A row is its bytes. -/
theorem row_bytes {row : List UInt8} {n : Nat} (h : row.length = n) :
    ((List.range n).map fun k => row.getD k 0) = row := by
  apply List.ext_getElem
  · rw [List.length_map, List.length_range, h]
  · intro k hk hk'
    rw [List.getElem_map, List.getElem_range, List.getD_eq_getElem?_getD,
      List.getElem?_eq_getElem hk', Option.getD_some]

/-- A slot has the row whose bytes its addresses have. -/
theorem withMemory_row {mem : Place Bank → UInt8} {b : Bank} {s : Nat} {row : List UInt8}
    (hlen : row.length = feat b)
    (h : ∀ k < feat b, mem (.slots b (s * feat b + k)) = row.getD k 0) :
    (withMemory c feat mem).bankCaches b s = row := by
  change ((List.range (feat b)).map fun k => mem (.slots b (s * feat b + k))) = row
  conv_rhs => rw [← row_bytes hlen]
  apply List.map_congr_left
  intro k hk
  exact h k (List.mem_range.1 hk)

/-! ## The hits of a map entry -/

/-- The slot, if it is behind the double buffer. -/
def hitSlot (numExperts : Nat) (slot : Option Nat) : Option Nat :=
  slot.filter fun s => decide (2 * numExperts ≤ s)

theorem hitSlot_eq_some {numExperts s : Nat} {slot : Option Nat} :
    hitSlot numExperts slot = some s ↔ slot = some s ∧ 2 * numExperts ≤ s := by
  unfold hitSlot
  rw [Option.filter_eq_some_iff, decide_eq_true_eq]

theorem isHit_iff_hitSlot {slot : Option Nat} :
    OffloadMoeCache.isHit c slot = true ↔ ∃ s, hitSlot c.config.numExperts slot = some s := by
  cases slot with
  | none => simp [OffloadMoeCache.isHit, hitSlot]
  | some s => simp [OffloadMoeCache.isHit, hitSlot_eq_some]

theorem hitLane_iff {numExperts : Nat} {seen : Nat → Option Nat} {e : Nat} :
    hitLane numExperts seen e = true ↔ e < numExperts ∧ ∃ s, hitSlot numExperts (seen e) = some s := by
  unfold hitLane slotLane
  by_cases he : e < numExperts
  · rw [if_pos he]
    cases hseen : seen e with
    | none =>
        simp [entry, hitSlot, he]
        omega
    | some s =>
        simp only [entry, he, hitSlot_eq_some, decide_true, Bool.true_and, decide_eq_true_eq, true_and,
          Nat.cast_le]
        constructor
        · exact fun h => ⟨s, rfl, h⟩
        · rintro ⟨t, ht, h⟩
          rwa [Option.some.inj ht]
  · simp [he]

/-! ## The indices of the hits -/

/-- The experts whose lanes are hits, in order. -/
def hitIds (numExperts : Nat) (seen : Nat → Option Nat) : List Nat :=
  (List.range numExperts).filter (hitLane numExperts seen)

theorem filter_block (numExperts : Nat) (seen : Nat → Option Nat) :
    (List.range (nextPowerOf2 numExperts)).filter (hitLane numExperts seen) =
      hitIds numExperts seen := by
  have hsplit : nextPowerOf2 numExperts =
      numExperts + (nextPowerOf2 numExperts - numExperts) := by
    have := le_nextPowerOf2 numExperts
    omega
  rw [hsplit, List.range_add, List.filter_append]
  have hnil : ((List.range (nextPowerOf2 numExperts - numExperts)).map (numExperts + ·)).filter
      (hitLane numExperts seen) = [] := by
    apply List.filter_eq_nil_iff.2
    intro e he hit
    obtain ⟨k, -, rfl⟩ := List.mem_map.1 he
    have := (hitLane_iff.1 hit).1
    omega
  rw [hnil, List.append_nil]
  rfl

theorem mem_hitIds {numExperts : Nat} {seen : Nat → Option Nat} {e : Nat} :
    e ∈ hitIds numExperts seen ↔
      e < numExperts ∧ ∃ s, hitSlot numExperts (seen e) = some s := by
  unfold hitIds
  rw [List.mem_filter, List.mem_range, hitLane_iff]
  exact ⟨And.right, fun h => ⟨h.1, h⟩⟩

theorem compact_num (numExperts : Nat) (seen : Nat → Option Nat) (bufferId : Nat) (old : HitIndices) :
    (prefillHitCompact numExperts seen bufferId old).num = (hitIds numExperts seen).length := by
  change (Lanes.sum (nextPowerOf2 numExperts) fun e =>
    if hitLane numExperts seen e then 1 else 0).toNat = _
  rw [Lanes.sum_indicator, List.countP_eq_length_filter, filter_block]
  rfl

theorem compact_dst {numExperts : Nat} {seen : Nat → Option Nat} {i e : Nat} (bufferId : Nat)
    (old : HitIndices) (hi : (hitIds numExperts seen)[i]? = some e) :
    (prefillHitCompact numExperts seen bufferId old).dst i = bufferId * numExperts + e := by
  rw [← filter_block] at hi
  exact Lanes.store_cumsum _ _ hi

theorem compact_src {numExperts : Nat} {seen : Nat → Option Nat} {i e s : Nat} (bufferId : Nat)
    (old : HitIndices) (hi : (hitIds numExperts seen)[i]? = some e)
    (hs : hitSlot numExperts (seen e) = some s) :
    (prefillHitCompact numExperts seen bufferId old).src i = s := by
  have he := (mem_hitIds.1 (List.mem_of_getElem? hi)).1
  have hlane : slotLane numExperts seen e = s := by
    unfold slotLane
    rw [if_pos he, (hitSlot_eq_some.1 hs).1]
    rfl
  rw [← filter_block] at hi
  have hstore := Lanes.store_cumsum old.src (fun e => (slotLane numExperts seen e).toNat) hi
  rw [hlane] at hstore
  exact hstore

/-! ## Where the copies go -/

/-- The units of a bank's gather are the bytes of the rows. -/
theorem mem_gatherCopies {ix : HitIndices} {b : Bank} (h16 : feat b % 16 = 0)
    {copy : Copy (Place Bank)} :
    copy ∈ gatherCopies feat ix b ↔ ∃ i < ix.num, ∃ k < feat b,
      copy = { dst := .slots b (ix.dst i * feat b + k), src := .slots b (ix.src i * feat b + k) } := by
  unfold gatherCopies
  simp only [List.mem_flatMap, List.mem_map, List.mem_range]
  have hunits : feat b = feat b / 16 * 16 := by omega
  generalize hn : feat b / 16 = units at hunits ⊢
  constructor
  · rintro ⟨u, hu, j, hj, rfl⟩
    obtain ⟨i, hi, q, hq, rfl⟩ := exists_address hu
    have hcol : i * units + q - i * units = q := Nat.add_sub_cancel_left _ q
    refine ⟨i, hi, q * 16 + j, by omega, ?_⟩
    rw [address_div i hq, hcol, Nat.add_assoc, Nat.add_assoc]
  · rintro ⟨i, hi, k, hk, rfl⟩
    have hlt : k / 16 < units := by omega
    have hdiv : (i * units + k / 16) / units = i := address_div i hlt
    refine ⟨i * units + k / 16, ?_, k % 16, Nat.mod_lt k (by decide), ?_⟩
    · exact address_lt hi hlt
    · have hbyte : (i * units + k / 16 - i * units) * 16 + k % 16 = k := by
        rw [Nat.add_sub_cancel_left, Nat.div_add_mod']
      rw [hdiv, Nat.add_assoc, Nat.add_assoc, hbyte]

theorem expand_missRuns (c : OffloadMoeCache Bank (List UInt8)) (layer : Nat) :
    Runs.expand (missRuns c layer) = missIds c layer := by
  unfold missRuns
  cases missIds c layer with
  | nil => rfl
  | cons a ids =>
      rw [if_neg (by simp)]
      exact Runs.expand_runs a ids

/-- A run ends inside the layer. -/
theorem missRuns_inside {r : Nat × Nat} (hr : r ∈ missRuns c layer) :
    0 < r.2 ∧ r.1 + r.2 ≤ c.config.numExperts := by
  have hpos : 0 < r.2 := by
    unfold missRuns at hr
    cases hids : missIds c layer with
    | nil =>
        rw [hids] at hr
        cases hr
    | cons a ids =>
        rw [hids, if_neg (by simp)] at hr
        exact Runs.runs_pos ids a r hr
  have hlast : r.1 + (r.2 - 1) ∈ Runs.expand (missRuns c layer) :=
    Runs.mem_expand.2 ⟨r, hr, by omega, by omega⟩
  rw [expand_missRuns] at hlast
  have hlt := List.mem_range.1 (List.mem_filter.1 hlast).1
  omega

/-- What goes over the bus: the small banks whole, of the others the misses. -/
def FromHost (c : OffloadMoeCache Bank (List UInt8)) (feat : Bank → Nat) (layer : Nat) (b : Bank)
    (e : Nat) : Prop :=
  feat b < smallBankFeatBytes ∨ e ∈ missIds c layer

theorem mem_batch {copy : Copy (Place Bank)} :
    copy ∈ (batch c banks feat layer bufferId).flatMap (BatchEntry.copies layer) ↔
      ∃ b ∈ banks, ∃ e < c.config.numExperts, FromHost c feat layer b e ∧ ∃ k < feat b,
        copy = { dst := .slots b ((bufferId * c.config.numExperts + e) * feat b + k)
                 src := .host b layer (e * feat b + k) } := by
  simp only [batch, List.flatMap_assoc, List.mem_flatMap]
  apply exists_congr
  intro b
  apply and_congr_right
  intro _
  by_cases hsmall : feat b < smallBankFeatBytes
  · simp only [if_pos hsmall, List.mem_singleton, exists_eq_left, BatchEntry.copies, List.mem_map,
      List.mem_range]
    constructor
    · rintro ⟨a, ha, rfl⟩
      obtain ⟨e, he, k, hk, rfl⟩ := exists_address ha
      refine ⟨e, he, .inl hsmall, k, hk, ?_⟩
      rw [address_add, Nat.zero_add]
    · rintro ⟨e, he, -, k, hk, rfl⟩
      refine ⟨e * feat b + k, address_lt he hk, ?_⟩
      rw [address_add, Nat.zero_add]
  · simp only [if_neg hsmall, BatchEntry.copies, List.mem_map, List.mem_range,
      exists_exists_and_eq_and]
    constructor
    · rintro ⟨r, hr, a, ha, rfl⟩
      obtain ⟨d, hd, k, hk, rfl⟩ := exists_address ha
      have hin := (missRuns_inside hr).2
      refine ⟨r.1 + d, by omega, .inr ?_, k, hk, ?_⟩
      · rw [← expand_missRuns]
        exact Runs.mem_expand.2 ⟨r, hr, by omega, by omega⟩
      · rw [address_add, address_add, Nat.add_assoc]
    · rintro ⟨e, -, hfrom, k, hk, rfl⟩
      have hmiss := hfrom.resolve_left hsmall
      rw [← expand_missRuns] at hmiss
      obtain ⟨r, hr, hle, hlt⟩ := Runs.mem_expand.1 hmiss
      obtain ⟨d, rfl⟩ := Nat.exists_eq_add_of_le hle
      refine ⟨r, hr, d * feat b + k, address_lt (by omega) hk, ?_⟩
      rw [address_add, address_add, Nat.add_assoc]

/-! ## One call -/

/-- Slots of the double buffer are no hits. -/
theorem buffer_le (hb : bufferId < 2) (numExperts : Nat) :
    bufferId * numExperts + numExperts ≤ 2 * numExperts :=
  calc bufferId * numExperts + numExperts = (bufferId + 1) * numExperts := by rw [Nat.succ_mul]
    _ ≤ 2 * numExperts := Nat.mul_le_mul_right numExperts hb

/-- The invalidation takes no hit away and makes none. -/
theorem hitSlot_invalidate (h : Mapped c) (hb : bufferId < 2) (id : Nat) :
    hitSlot c.config.numExperts ((invalidatePrefillBuffer c bufferId).slotForId id) =
      hitSlot c.config.numExperts (c.slotForId id) := by
  have hle := buffer_le hb c.config.numExperts
  ext s
  rw [hitSlot_eq_some, hitSlot_eq_some, h.invalidate_slot, h.inverse]
  constructor
  · rintro ⟨⟨hkey, -⟩, hs⟩
    exact ⟨hkey, hs⟩
  · rintro ⟨hkey, hs⟩
    exact ⟨⟨hkey, by omega⟩, hs⟩

/-- A resident expert's slot has its row. -/
theorem resident_row (h : Coherent c) {e s : Nat} (he : e < c.config.numExperts)
    (hs : c.slotForId (c.flatId layer e) = some s) (b : Bank) :
    c.bankCaches b s = c.config.bankSources b layer e := by
  have hrow := h.rows s (c.flatId layer e) ((h.inverse _ s).1 hs) b
  rwa [flatId_div he, flatId_mod he] at hrow

/-- The state before a call, and what the states of the chunk before it have in common with it. -/
structure Ready (banks : List Bank) (feat : Bank → Nat)
    (past : List (OffloadMoeCache Bank (List UInt8))) (c : OffloadMoeCache Bank (List UInt8)) :
    Prop where
  coherent : Coherent c
  plan : CopyPlan banks feat c
  snapshot : ∀ id, hitSlot c.config.numExperts (c.prefillSlotSnapshot id) =
    hitSlot c.config.numExperts (c.slotForId id)
  past : ∀ p ∈ past, ∀ id, hitSlot c.config.numExperts (p.slotForId id) =
    hitSlot c.config.numExperts (c.slotForId id)

/-- A miss of the snapshot is one of the live map. -/
theorem Ready.mem_missIds (h : Ready banks feat past c) {e : Nat} (he : e < c.config.numExperts) :
    e ∈ missIds c layer ↔ hitSlot c.config.numExperts (c.slotForId (c.flatId layer e)) = none := by
  have hhit : OffloadMoeCache.isHit c (c.prefillSlotSnapshot (c.flatId layer e)) = true ↔
      ∃ s, hitSlot c.config.numExperts (c.slotForId (c.flatId layer e)) = some s := by
    rw [isHit_iff_hitSlot, h.snapshot]
  unfold missIds
  rw [List.mem_filter, List.mem_range, Bool.not_eq_true', ← Bool.not_eq_true, hhit,
    Option.eq_none_iff_forall_ne_some, not_exists]
  exact ⟨And.right, fun hmiss => ⟨he, hmiss⟩⟩

/-- The rows that `prefetchSplit` leaves in the buffer. -/
theorem Ready.prefetchSplit_inside (h : Ready banks feat past c) (bufferId : Nat) (b : Bank) {e : Nat}
    (he : e < c.config.numExperts) :
    (prefetchSplit c layer bufferId).bankCaches b (bufferId * c.config.numExperts + e) =
      c.config.bankSources b layer e := by
  have hin : (decide (bufferId * c.config.numExperts ≤ bufferId * c.config.numExperts + e) &&
      decide (bufferId * c.config.numExperts + e <
        bufferId * c.config.numExperts + c.config.numExperts)) = true := by
    simpa using he
  have hlane : bufferId * c.config.numExperts + e - bufferId * c.config.numExperts = e :=
    Nat.add_sub_cancel_left _ e
  unfold prefetchSplit
  simp only [hlane, hin, Bool.true_and]
  change (if (c.config.smallBank b ||
      !OffloadMoeCache.isHit c (c.prefillSlotSnapshot (c.flatId layer e))) = true then _ else _) = _
  split
  · rfl
  · rename_i hhost
    rw [Bool.or_eq_true, not_or, Bool.not_eq_true, Bool.not_eq_true, Bool.not_eq_false'] at hhost
    obtain ⟨hlarge, hsnap⟩ := hhost
    obtain ⟨s, hs⟩ := isHit_iff_hitSlot.1 hsnap
    rw [h.snapshot] at hs
    have hlive : OffloadMoeCache.isHit c (c.slotForId (c.flatId layer e)) = true :=
      isHit_iff_hitSlot.2 ⟨s, hs⟩
    rw [hlarge, hlive]
    have hslot := (hitSlot_eq_some.1 hs).1
    change c.bankCaches b ((c.slotForId (c.flatId layer e)).getD _) = _
    rw [hslot]
    exact resident_row h.coherent he hslot b

namespace Schedule

/-- A lane reads a hit if and only if it is one, in whatever state it reads. -/
theorem hitSlot_seen (h : Ready banks feat past c) (hb : bufferId < 2)
    (sch : Schedule banks feat past c layer bufferId) {e : Nat} (he : e < c.config.numExperts) :
    hitSlot c.config.numExperts (sch.seen e) =
      hitSlot c.config.numExperts (c.slotForId (c.flatId layer e)) := by
  obtain ⟨p, hp, hseen⟩ := sch.live e he
  rw [hseen]
  rcases List.mem_cons.1 hp with rfl | hp
  · exact hitSlot_invalidate h.coherent.toMapped hb _
  · rcases List.mem_cons.1 hp with rfl | hp
    · rfl
    · exact h.past p hp _

/-- The `i`-th pair of the gather: the expert, its row in the buffer, and a slot that holds it. -/
theorem indices_spec (h : Ready banks feat past c) (hb : bufferId < 2)
    (sch : Schedule banks feat past c layer bufferId) {i : Nat} (hi : i < sch.indices.num) :
    ∃ e < c.config.numExperts, sch.indices.dst i = bufferId * c.config.numExperts + e ∧
      hitSlot c.config.numExperts (c.slotForId (c.flatId layer e)) = some (sch.indices.src i) := by
  have hlen : i < (hitIds c.config.numExperts sch.seen).length := by
    rwa [← compact_num _ _ bufferId sch.old]
  have hget := List.getElem?_eq_getElem hlen
  obtain ⟨he, s, hs⟩ := mem_hitIds.1 (List.mem_of_getElem? hget)
  refine ⟨_, he, compact_dst bufferId sch.old hget, ?_⟩
  have hsrc : sch.indices.src i = s := compact_src bufferId sch.old hget hs
  rw [hsrc, ← hitSlot_seen h hb sch he, hs]

theorem indices_dst (sch : Schedule banks feat past c layer bufferId) :
    (List.range sch.indices.num).map sch.indices.dst =
      (hitIds c.config.numExperts sch.seen).map (bufferId * c.config.numExperts + ·) := by
  have hnum : sch.indices.num = (hitIds c.config.numExperts sch.seen).length := compact_num _ _ _ _
  apply List.ext_getElem
  · rw [List.length_map, List.length_map, List.length_range, hnum]
  · intro i hi hi'
    rw [List.length_map] at hi'
    rw [List.getElem_map, List.getElem_map, List.getElem_range]
    exact compact_dst bufferId sch.old (List.getElem?_eq_getElem hi')

/-- The hits of the live map and the misses of the snapshot are the layer. -/
theorem hits_misses (h : Ready banks feat past c) (hb : bufferId < 2)
    (sch : Schedule banks feat past c layer bufferId) :
    (hitIds c.config.numExperts sch.seen ++ missIds c layer).Perm
      (List.range c.config.numExperts) := by
  have hhits : hitIds c.config.numExperts sch.seen = (List.range c.config.numExperts).filter fun e =>
      OffloadMoeCache.isHit c (c.prefillSlotSnapshot (c.flatId layer e)) := by
    apply List.filter_congr
    intro e he
    have he := List.mem_range.1 he
    rw [Bool.eq_iff_iff, hitLane_iff, isHit_iff_hitSlot, h.snapshot, hitSlot_seen h hb sch he]
    exact ⟨And.right, fun hs => ⟨he, hs⟩⟩
  rw [hhits]
  exact List.filter_append_perm _ _

/-- What a copy of the call does: a byte of an expert's row goes to the expert's place in the buffer,
from the host or from behind the double buffer. -/
structure Fills (c : OffloadMoeCache Bank (List UInt8)) (feat : Bank → Nat) (layer bufferId : Nat)
    (copy : Copy (Place Bank)) (b : Bank) (e k : Nat) : Prop where
  expert_lt : e < c.config.numExperts
  byte_lt : k < feat b
  dst : copy.dst = .slots b ((bufferId * c.config.numExperts + e) * feat b + k)
  value : memory c feat copy.src = (c.config.bankSources b layer e).getD k 0
  behind : ∀ b' a, copy.src = .slots b' a → 2 * c.config.numExperts * feat b' ≤ a

theorem fills (h : Ready banks feat past c) (hb : bufferId < 2)
    (sch : Schedule banks feat past c layer bufferId) {copy : Copy (Place Bank)}
    (hcopy : copy ∈ sch.copies) : ∃ b e k, Fills c feat layer bufferId copy b e k := by
  rcases List.mem_append.1 (sch.order.mem_iff.1 hcopy) with hgather | hbatch
  · obtain ⟨b, -, hgather⟩ := List.mem_flatMap.1 hgather
    obtain ⟨i, hi, k, hk, rfl⟩ := (mem_gatherCopies (h.plan.aligned b)).1 hgather
    obtain ⟨e, he, hdst, hsrc⟩ := sch.indices_spec h hb hi
    obtain ⟨hslot, hge⟩ := hitSlot_eq_some.1 hsrc
    refine ⟨b, e, k, he, hk, ?_, ?_, ?_⟩
    · change Place.slots b (sch.indices.dst i * feat b + k) = _
      rw [hdst]
    · change memory c feat (.slots b (sch.indices.src i * feat b + k)) = _
      rw [memory_slots c b _ hk, resident_row h.coherent he hslot]
    · intro b' a ha
      change Place.slots b (sch.indices.src i * feat b + k) = .slots b' a at ha
      cases ha
      exact (Nat.mul_le_mul_right (feat b) hge).trans (Nat.le_add_right _ k)
  · obtain ⟨b, -, e, he, -, k, hk, rfl⟩ := mem_batch.1 hbatch
    refine ⟨b, e, k, he, hk, rfl, memory_host c b layer e hk, ?_⟩
    intro b' a ha
    cases ha

theorem apart (h : Ready banks feat past c) (hb : bufferId < 2)
    (sch : Schedule banks feat past c layer bufferId) : Apart sch.copies := by
  intro r hr w hw heq
  obtain ⟨_, _, _, hread⟩ := sch.fills h hb hr
  obtain ⟨b, e, k, hwrite⟩ := sch.fills h hb hw
  have hbehind := hread.behind b _ (heq.trans hwrite.dst)
  have hrow : bufferId * c.config.numExperts + e < 2 * c.config.numExperts :=
    (Nat.add_lt_add_left hwrite.expert_lt _).trans_le (buffer_le hb _)
  have hbuffer := address_lt hrow hwrite.byte_lt
  omega

/-- Some copy writes each byte of the buffer. -/
theorem covers (h : Ready banks feat past c) (hb : bufferId < 2)
    (sch : Schedule banks feat past c layer bufferId) (b : Bank) {e k : Nat}
    (he : e < c.config.numExperts) (hk : k < feat b) : ∃ copy ∈ sch.copies,
      copy.dst = .slots b ((bufferId * c.config.numExperts + e) * feat b + k) := by
  by_cases hfrom : FromHost c feat layer b e
  · have hbatch : { dst := .slots b ((bufferId * c.config.numExperts + e) * feat b + k)
                    src := .host b layer (e * feat b + k) } ∈
        (batch c banks feat layer bufferId).flatMap (BatchEntry.copies layer) :=
      mem_batch.2 ⟨b, h.plan.banks_all b, e, he, hfrom, k, hk, rfl⟩
    exact ⟨_, sch.order.mem_iff.2 (List.mem_append_right _ hbatch), rfl⟩
  · obtain ⟨hlarge, hhit⟩ := not_or.1 hfrom
    rw [h.mem_missIds he, ← hitSlot_seen h hb sch he] at hhit
    obtain ⟨s, hs⟩ := Option.ne_none_iff_exists'.1 hhit
    have hmem : e ∈ hitIds c.config.numExperts sch.seen := mem_hitIds.2 ⟨he, s, hs⟩
    obtain ⟨i, hi⟩ := List.getElem?_of_mem hmem
    have hnum : i < sch.indices.num := by
      rw [indices, compact_num]
      exact (List.getElem?_eq_some_iff.1 hi).1
    have hdst : sch.indices.dst i = bufferId * c.config.numExperts + e :=
      compact_dst bufferId sch.old hi
    have hbank : b ∈ gatherBanks banks feat :=
      List.mem_filter.2 ⟨h.plan.banks_all b, decide_eq_true (Nat.le_of_not_lt hlarge)⟩
    have hgather : { dst := .slots b (sch.indices.dst i * feat b + k)
                     src := .slots b (sch.indices.src i * feat b + k) } ∈
        gatherCopies feat sch.indices b :=
      (mem_gatherCopies (h.plan.aligned b)).2 ⟨i, hnum, k, hk, rfl⟩
    have hcopies := List.mem_flatMap.2 ⟨b, hbank, hgather⟩
    refine ⟨_, sch.order.mem_iff.2 (List.mem_append_left _ hcopies), ?_⟩
    rw [hdst]

variable [DecidableEq Bank]

/-- At any time a slot outside the buffer has the row it had. -/
theorem after_outside (h : Ready banks feat past c) (hb : bufferId < 2)
    (sch : Schedule banks feat past c layer bufferId) (n : Nat) (b : Bank) {s : Nat}
    (hs : ¬(bufferId * c.config.numExperts ≤ s ∧
      s < bufferId * c.config.numExperts + c.config.numExperts)) :
    (sch.after n).bankCaches b s = c.bankCaches b s := by
  apply withMemory_row (h.plan.slots_length b s)
  intro k hk
  rw [← memory_slots c b s hk]
  apply run_of_not_written
  intro w hw heq
  obtain ⟨b', e, k', hwrite⟩ := sch.fills h hb (List.mem_of_mem_take hw)
  rw [hwrite.dst] at heq
  obtain ⟨rfl, haddr⟩ := Place.slots.inj heq
  have hrow := (address_inj hk hwrite.byte_lt haddr).1
  have he := hwrite.expert_lt
  omega

/-- In the end every row of the buffer is the expert's. -/
theorem result_inside (h : Ready banks feat past c) (hb : bufferId < 2)
    (sch : Schedule banks feat past c layer bufferId) (b : Bank) {e : Nat}
    (he : e < c.config.numExperts) :
    sch.result.bankCaches b (bufferId * c.config.numExperts + e) =
      c.config.bankSources b layer e := by
  apply withMemory_row (h.plan.sources_length b layer e)
  intro k hk
  rw [List.take_length]
  apply (sch.apart h hb).run_dst _ _ (sch.covers h hb b he hk)
  intro w hw hdst
  obtain ⟨b', e', k', hwrite⟩ := sch.fills h hb hw
  have hvalue := hwrite.value
  rw [hwrite.dst] at hdst
  obtain ⟨rfl, haddr⟩ := Place.slots.inj hdst
  obtain ⟨hrow, rfl⟩ := address_inj hwrite.byte_lt hk haddr
  rwa [Nat.add_left_cancel hrow] at hvalue

theorem coherent (h : Ready banks feat past c) (hb : bufferId < 2)
    (sch : Schedule banks feat past c layer bufferId) : Coherent sch.result :=
  h.coherent.fillBuffer bufferId _ fun b _ hs => sch.after_outside h hb _ b hs

/-- The call leaves what the next one starts from. -/
theorem ready (h : Ready banks feat past c) (hb : bufferId < 2)
    (sch : Schedule banks feat past c layer bufferId) : Ready banks feat (c :: past) sch.result where
  coherent := sch.coherent h hb
  plan :=
    { banks_all := h.plan.banks_all
      aligned := h.plan.aligned
      slots_length := fun b s => by
        change ((List.range (feat b)).map _).length = feat b
        rw [List.length_map, List.length_range]
      sources_length := h.plan.sources_length
      small := h.plan.small }
  snapshot := fun id => (h.snapshot id).trans (hitSlot_invalidate h.coherent.toMapped hb id).symm
  past := fun p hp id => by
    have hnow := hitSlot_invalidate h.coherent.toMapped hb id
    rcases List.mem_cons.1 hp with rfl | hp
    · exact hnow.symm
    · exact (h.past p hp id).trans hnow.symm

/-- Every schedule ends in the rows of `prefetchSplit`. -/
theorem result_eq (h : Ready banks feat past c) (hb : bufferId < 2)
    (sch : Schedule banks feat past c layer bufferId) :
    sch.result = prefetchSplit c layer bufferId := by
  have hrows : sch.result.bankCaches = (prefetchSplit c layer bufferId).bankCaches := by
    funext b s
    by_cases hs : bufferId * c.config.numExperts ≤ s ∧
        s < bufferId * c.config.numExperts + c.config.numExperts
    · obtain ⟨e, rfl⟩ := Nat.exists_eq_add_of_le hs.1
      have he : e < c.config.numExperts := by omega
      rw [sch.result_inside h hb b he, h.prefetchSplit_inside bufferId b he]
    · have hout : (decide (bufferId * c.config.numExperts ≤ s) &&
          decide (s < bufferId * c.config.numExperts + c.config.numExperts)) = false := by
        simpa using hs
      rw [show sch.result = sch.after sch.copies.length from rfl, sch.after_outside h hb _ b hs]
      simp only [prefetchSplit, hout, Bool.false_and, Bool.false_eq_true, if_false]
  change { invalidatePrefillBuffer c bufferId with bankCaches := sch.result.bankCaches } = _
  rw [hrows]
  rfl

end Schedule

/-! ## A chunk -/

theorem Chunk.ready [DecidableEq Bank] (h₀ : Coherent c₀) (hplan : CopyPlan banks feat c₀)
    (hoverlap : c₀.prefillOverlap = true) (hactive : (beginPrefill c₀).prefillHitD2dActive = true)
    (hrun : Chunk banks feat c₀ layer c past) : c.config = c₀.config ∧ Ready banks feat past c := by
  induction hrun with
  | begin =>
      have hbegin : (beginPrefill c₀).config = c₀.config ∧
          (beginPrefill c₀).bankCaches = c₀.bankCaches ∧
          (beginPrefill c₀).slotForId = c₀.slotForId ∧
          (beginPrefill c₀).prefillSlotSnapshot = c₀.slotForId := by
        unfold beginPrefill at hactive ⊢
        rw [if_pos hoverlap] at hactive ⊢
        exact ⟨rfl, rfl, rfl, if_pos hactive⟩
      obtain ⟨hconfig, hrows, hmap, hsnap⟩ := hbegin
      refine ⟨hconfig, beginPrefill_spec h₀, ?_, ?_, ?_⟩
      · constructor
        · exact hplan.banks_all
        · exact hplan.aligned
        · rw [hrows]
          exact hplan.slots_length
        · rw [hconfig]
          exact hplan.sources_length
        · rw [hconfig]
          exact hplan.small
      · intro id
        rw [hsnap, hmap]
      · intro p hp
        cases hp
  | prefetch _ _ sch ih =>
      exact ⟨ih.1, sch.ready ih.2 (Nat.mod_lt _ (by decide))⟩

/-- After each call of a chunk, whatever its lanes read and in whatever order its bytes went: the rows
of the gather and of the miss runs make up the buffer, each run is inside the layer, the slots the gather
reads hold their experts' rows all along, and every row of the buffer is the layer's expert. -/
theorem prefetchSplit_fills [DecidableEq Bank] (h₀ : Coherent c₀) (hplan : CopyPlan banks feat c₀)
    (hoverlap : c₀.prefillOverlap = true) (hactive : (beginPrefill c₀).prefillHitD2dActive = true)
    (hrun : Chunk banks feat c₀ layer c past) (sch : Schedule banks feat past c layer (layer % 2)) :
    ((List.range sch.indices.num).map sch.indices.dst ++ (Runs.expand (missRuns c layer)).map
        (layer % 2 * c₀.config.numExperts + ·)).Perm
      (List.range' (layer % 2 * c₀.config.numExperts) c₀.config.numExperts) ∧
    (∀ r ∈ missRuns c layer, 0 < r.2 ∧ r.1 + r.2 ≤ c₀.config.numExperts) ∧
    (∀ i < sch.indices.num, ∃ e < c₀.config.numExperts,
      sch.indices.dst i = layer % 2 * c₀.config.numExperts + e ∧
      2 * c₀.config.numExperts ≤ sch.indices.src i ∧
      ∀ n b, (sch.after n).bankCaches b (sch.indices.src i) = c₀.config.bankSources b layer e) ∧
    ∀ b, ∀ e < c₀.config.numExperts,
      sch.result.bankCaches b (layer % 2 * c₀.config.numExperts + e) =
        c₀.config.bankSources b layer e := by
  obtain ⟨hconfig, h⟩ := hrun.ready h₀ hplan hoverlap hactive
  have hb : layer % 2 < 2 := Nat.mod_lt _ (by decide)
  rw [← hconfig]
  refine ⟨?_, fun r hr => missRuns_inside hr, ?_, fun b e he => sch.result_inside h hb b he⟩
  · rw [sch.indices_dst, expand_missRuns, ← List.map_append, List.range'_eq_map_range]
    exact (sch.hits_misses h hb).map _
  · intro i hi
    obtain ⟨e, he, hdst, hsrc⟩ := sch.indices_spec h hb hi
    obtain ⟨hslot, hge⟩ := hitSlot_eq_some.1 hsrc
    refine ⟨e, he, hdst, hge, fun n b => ?_⟩
    have hle := buffer_le hb c.config.numExperts
    rw [sch.after_outside h hb n b (by omega), resident_row h.coherent he hslot]

/-- The lanes read the map before the invalidation, and the gather goes first. -/
def Schedule.direct (banks : List Bank) (feat : Bank → Nat)
    (past : List (OffloadMoeCache Bank (List UInt8))) (c : OffloadMoeCache Bank (List UInt8))
    (layer bufferId : Nat) : Schedule banks feat past c layer bufferId where
  seen := fun e => c.slotForId (c.flatId layer e)
  live := fun _ _ => ⟨c, List.mem_cons_of_mem _ List.mem_cons_self, rfl⟩
  old := { dst := fun _ => 0, src := fun _ => 0, num := 0 }
  copies := splitCopies c banks feat layer bufferId
    (prefillHitCompact c.config.numExperts (fun e => c.slotForId (c.flatId layer e)) bufferId
      { dst := fun _ => 0, src := fun _ => 0, num := 0 })
  order := List.Perm.refl _

/-- A small bank and a large one. -/
def twoFeats (large : Bool) : Nat := if large then smallBankFeatBytes else 16

/-- Two layers of two experts; slot 4 holds expert 1 of layer 1. -/
def oneHit : OffloadMoeCache Bool (List UInt8) where
  config :=
    { numLayers := 2
      numExperts := 2
      quantFormat := .bf16
      prefillHitD2d := true
      hybridFetchByRecency := true
      hitD2dAvailable := true
      safeOffloadCopy := fun _ => false
      smallBank := fun b => decide (twoFeats b < smallBankFeatBytes)
      bankSources := fun b layer e => List.replicate (twoFeats b) (UInt8.ofNat (2 * layer + e)) }
  cacheSize := 5
  prefillOverlap := true
  bankCaches := fun b s => List.replicate (twoFeats b) (UInt8.ofNat (if s = 4 then 3 else 0))
  slotForId := fun id => if id = 3 then some 4 else none
  idOfSlot := fun s => if s = 4 then some 3 else none
  usage := fun _ => 0
  step := 0
  activeMask := fun _ => false
  evictSlots := fun _ => 0
  srcIndices := fun _ => 0
  numIndices := 0
  numMissingFull := 0
  expertRecency := fun _ => -1
  pendingSrcLayer := none
  prefillBufferLayer := fun _ => none
  prefillBufferReleased := fun _ => true
  prefillHitD2dActive := false
  prefillSlotSnapshot := fun _ => none

theorem oneHit_owner {s id : Nat} (h : oneHit.idOfSlot s = some id) : s = 4 ∧ id = 3 := by
  change (if s = 4 then some 3 else none) = some id at h
  split at h
  · rename_i hs
    exact ⟨hs, (Option.some.inj h).symm⟩
  · cases h

theorem coherent_oneHit : Coherent oneHit where
  floor := by decide
  overlap := fun _ => by decide
  map :=
    { inverse := fun id s => by
        change (if id = 3 then some 4 else none) = some s ↔ (if s = 4 then some 3 else none) = some id
        grind
      slot_lt := fun id s h => by
        rw [(oneHit_owner h).1]
        decide
      usage_le := fun _ => Nat.le_refl 0 }
  id_lt := fun s id h => by
    rw [(oneHit_owner h).2]
    decide
  rows := fun s id h b => by
    obtain ⟨rfl, rfl⟩ := oneHit_owner h
    rfl

theorem copyPlan_oneHit : CopyPlan [false, true] twoFeats oneHit where
  banks_all := by decide
  aligned := by decide
  slots_length := fun _ _ => List.length_replicate
  sources_length := fun _ _ _ => List.length_replicate
  small := fun _ => rfl

/-- The cache after the first layer of a chunk. -/
def oneHitFirst : OffloadMoeCache Bool (List UInt8) :=
  (Schedule.direct [false, true] twoFeats [] (beginPrefill oneHit) 0 0).result

/-- The hit of the second layer. -/
theorem prefetchSplit_fills_second :
    (Schedule.direct [false, true] twoFeats [beginPrefill oneHit] oneHitFirst 1 1).result.bankCaches
      true (2 + 1) = oneHit.config.bankSources true 1 1 :=
  have hrun : Chunk [false, true] twoFeats oneHit 1 oneHitFirst [beginPrefill oneHit] :=
    Chunk.prefetch Chunk.begin (by decide) _
  (prefetchSplit_fills coherent_oneHit copyPlan_oneHit rfl rfl hrun _).2.2.2 true 1 (by decide)

end PrefillSplit

end OffloadMoeCache

end FreeToken
