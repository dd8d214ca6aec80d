import FreeToken.Moe.AlignSpec

/-!
# The scatter

Both paths bring the memory to the same state: the regions' starts, the owners of the blocks, counters
at zero and sentinels everywhere.  From there the lanes draw their ranks in any order, and the tokens of
an expert fill the front of its region.
-/

set_option autoImplicit false

namespace FreeToken

open GridMemory Finset

namespace MoeAlign

namespace Launch

variable (g : Launch)

/-- What the buffers hold before the scatter, as stores. -/
inductive Prologue : Op Addr → Prop where
  | cumsum (e : Nat) (he : e ≤ g.effectiveE) :
      Prologue (.store (.cumsum, (e : Int)) ((g.blockStart e * g.blockSize : Nat) : Int))
  | postPad :
      Prologue (.store (.numTokensPostPad, 0)
        ((g.blockStart g.effectiveE * g.blockSize : Nat) : Int))
  | counter (e : Nat) (he : e < g.effectiveE) : Prologue (.store (.fillCounter, (e : Int)) 0)
  | owner (e b : Nat) (he : e < g.effectiveE) (hle : g.blockStart e ≤ b)
      (hlt : b < g.blockStart (e + 1)) : Prologue (.store (.expertIds, (b : Int)) e)
  | sentinel (p : Nat) (hp : p < g.blockStart g.effectiveE * g.blockSize) :
      Prologue (.store (.sortedTokenIds, (p : Int)) g.numel)

def Ready (mem : Mem) : Prop := ∀ p v, g.Prologue (.store p v) → mem p = v

variable {g}

theorem inBounds_iff {b : Buf} {i : Nat} : g.inBounds (b, (i : Int)) = true ↔ i < g.size b := by
  unfold inBounds
  rw [decide_eq_true_iff]
  show 0 ≤ (i : Int) ∧ (i : Int) < g.size b ↔ _
  omega

namespace Prologue

/-- The blocks of two experts are not the same. -/
theorem inj {op op' : Op Addr} (h : g.Prologue op) (h' : g.Prologue op')
    (haddr : op.addr = op'.addr) : op = op' := by
  cases h <;> cases h' <;> simp only [Op.addr, Prod.mk.injEq, reduceCtorEq, false_and, true_and] at haddr
  case cumsum.cumsum e _ e' _ =>
      obtain rfl : e = e' := by omega
      rfl
  case postPad.postPad => rfl
  case counter.counter e _ e' _ =>
      obtain rfl : e = e' := by omega
      rfl
  case owner.owner e b _ hle hlt e' b' _ hle' hlt' =>
      obtain rfl : b = b' := by omega
      rw [owner_unique hle hlt hle' hlt']
  case sentinel.sentinel p _ p' _ =>
      obtain rfl : p = p' := by omega
      rfl

theorem inBounds (hb : 0 < g.blockSize) {op : Op Addr} (h : g.Prologue op) :
    g.inBounds op.addr = true := by
  cases h with
  | cumsum e he => exact inBounds_iff.2 (show e < g.effectiveE + 1 by omega)
  | postPad => exact inBounds_iff.2 (show 0 < 1 by decide)
  | counter e he => exact inBounds_iff.2 he
  | owner e b he hle hlt =>
      have hmono := blockStart_mono (g := g) (show e + 1 ≤ g.effectiveE from he)
      have hmax := blockStart_le_maxNumMBlocks hb
      exact inBounds_iff.2 (show b < g.maxNumMBlocks by omega)
  | sentinel p hp => exact inBounds_iff.2 (Nat.lt_of_lt_of_le hp (blockStart_mul_le hb))

end Prologue

/-! ## Places -/

/-- A place of a region is one of its expert alone. -/
theorem place_inj {e e' r r' : Nat} (hr : r < g.blocks e * g.blockSize)
    (hr' : r' < g.blocks e' * g.blockSize)
    (h : g.blockStart e * g.blockSize + r = g.blockStart e' * g.blockSize + r') :
    e = e' ∧ r = r' := by
  rcases Nat.lt_trichotomy e e' with hlt | rfl | hlt
  · have := region_le (g := g) hlt
    omega
  · exact ⟨rfl, by omega⟩
  · have := region_le (g := g) hlt
    omega

theorem place_lt {e r : Nat} (he : e < g.effectiveE) (hr : r < g.blocks e * g.blockSize) :
    g.blockStart e * g.blockSize + r < g.blockStart g.effectiveE * g.blockSize := by
  have := region_le (g := g) he
  omega

/-! ## The lanes -/

variable {lanes : List Nat}

theorem mem_tokensOf {e t : Nat} : t ∈ g.tokensOf e ↔ t < g.numel ∧ g.idAt t = e := by
  unfold tokensOf
  rw [List.mem_filter, List.mem_range, beq_iff_eq]

theorem mem_lane {t : Nat} (ht : t ∈ lanes.filter g.valid) :
    t < g.numel ∧ ∃ e < g.effectiveE, g.idAt t = (e : Nat) :=
  valid_iff.1 (List.mem_filter.1 ht).2

/-- The lanes of a counter are the tokens of its expert. -/
theorem line_perm (hnodup : lanes.Nodup) (hcover : ∀ t < g.numel, t ∈ lanes) {e : Nat}
    (he : e < g.effectiveE) :
    (line g.scatterLane (lanes.filter g.valid) (.fillCounter, (e : Int))).Perm (g.tokensOf e) := by
  have hline : (line g.scatterLane (lanes.filter g.valid) (.fillCounter, (e : Int))).Nodup :=
    (hnodup.filter _).filter _
  have htokens : (g.tokensOf e).Nodup := List.nodup_range.filter _
  apply (List.perm_ext_iff_of_nodup hline htokens).2
  intro t
  have hcounter : (g.scatterLane t).counter = (.fillCounter, (e : Int)) ↔ g.idAt t = e := by
    show (Buf.fillCounter, g.idAt t) = (.fillCounter, (e : Int)) ↔ _
    rw [Prod.mk.injEq, and_iff_right rfl]
  rw [mem_tokensOf, mem_line, hcounter, List.mem_filter]
  constructor
  · intro h
    exact ⟨(valid_iff.1 h.1.2).1, h.2⟩
  · intro h
    exact ⟨⟨hcover t h.1, valid_iff.2 ⟨h.1, e, he, h.2⟩⟩, h.2⟩

theorem line_length (hnodup : lanes.Nodup) (hcover : ∀ t < g.numel, t ∈ lanes) {e : Nat}
    (he : e < g.effectiveE) :
    (line g.scatterLane (lanes.filter g.valid) (.fillCounter, (e : Int))).length = g.count e := by
  rw [(line_perm hnodup hcover he).length_eq, tokensOf_length]

theorem slot_eq {mem : Mem} (hready : g.Ready mem) {t e : Nat} (he : e < g.effectiveE)
    (hid : g.idAt t = e) (r : Nat) :
    (g.scatterLane t).slot (mem (g.scatterLane t).base + r) =
      (.sortedTokenIds, ((g.blockStart e * g.blockSize + r : Nat) : Int)) := by
  have hbase : mem (g.scatterLane t).base = ((g.blockStart e * g.blockSize : Nat) : Int) := by
    show mem (.cumsum, g.idAt t) = _
    rw [hid]
    exact hready _ _ (.cumsum e (Nat.le_of_lt he))
  rw [hbase, ← Nat.cast_add]
  rfl

theorem lanes_apart (hb : 0 < g.blockSize) {mem : Mem} (hready : g.Ready mem)
    (hnodup : lanes.Nodup) (hcover : ∀ t < g.numel, t ∈ lanes) :
    Apart g.inBounds g.scatterLane (lanes.filter g.valid) mem := by
  have hcounter : ∀ t e : Nat, g.idAt t = e →
      (g.scatterLane t).counter = (.fillCounter, (e : Int)) := by
    intro t e hid
    show (Buf.fillCounter, g.idAt t) = _
    rw [hid]
  have hlt : ∀ e < g.effectiveE, ∀ r < g.count e, r < g.blocks e * g.blockSize :=
    fun e _ r hr => Nat.lt_of_lt_of_le hr (count_le_blocks hb e)
  constructor
  · exact hnodup.filter _
  · intro t ht
    obtain ⟨-, e, he, hid⟩ := mem_lane ht
    rw [hcounter t e hid]
    exact hready _ _ (.counter e he)
  · intro t ht
    obtain ⟨-, e, he, hid⟩ := mem_lane ht
    rw [hcounter t e hid]
    exact inBounds_iff.2 he
  · intro t ht r hr
    obtain ⟨-, e, he, hid⟩ := mem_lane ht
    rw [hcounter t e hid, line_length hnodup hcover he] at hr
    rw [slot_eq hready he hid]
    apply inBounds_iff.2
    exact Nat.lt_of_lt_of_le (place_lt he (hlt e he r hr)) (blockStart_mul_le hb)
  · exact fun t _ t' _ h => nomatch congrArg Prod.fst h
  · exact fun t _ t' _ q h => nomatch congrArg Prod.fst h
  · exact fun t _ t' _ q h => nomatch congrArg Prod.fst h
  · intro t ht t' ht' r hr r' hr' heq
    obtain ⟨-, e, he, hid⟩ := mem_lane ht
    obtain ⟨-, e', he', hid'⟩ := mem_lane ht'
    rw [hcounter t e hid, line_length hnodup hcover he] at hr
    rw [hcounter t' e' hid', line_length hnodup hcover he'] at hr'
    rw [slot_eq hready he hid, slot_eq hready he' hid', Prod.mk.injEq] at heq
    obtain ⟨rfl, hrr⟩ := place_inj (hlt e he r hr) (hlt e' he' r' hr') (by omega)
    rw [hcounter t e hid, hcounter t' e hid']
    exact ⟨rfl, hrr⟩

/-- Any order of the turns leaves the aligned buffers. -/
theorem scatter_spec (hb : 0 < g.blockSize) (σ : Schedule) {mem : Mem} (hready : g.Ready mem)
    (hnodup : lanes.Nodup) (hcover : ∀ t < g.numel, t ∈ lanes) :
    ∃ mem', g.scatter σ lanes mem = some mem' ∧ g.Aligned mem' := by
  have hap := lanes_apart hb hready hnodup hcover
  obtain ⟨drawn, s', hrun, hperm, hput, hframe⟩ := turns_spec hap (σ.turns_perm _)
  refine ⟨s'.mem, by rw [scatter, hrun]; rfl, ?_⟩
  -- the lanes write only to places of their regions
  have hkeep : ∀ p : Addr, p.1 ≠ .fillCounter →
      (∀ e < g.effectiveE, ∀ r < g.count e,
        p ≠ (.sortedTokenIds, ((g.blockStart e * g.blockSize + r : Nat) : Int))) →
      s'.mem p = mem p := by
    intro p hbuf hp
    apply hframe p
    · exact fun t _ h => hbuf (congrArg Prod.fst h)
    · intro t ht r hr
      obtain ⟨-, e, he, hid⟩ := mem_lane ht
      have hcounter : (g.scatterLane t).counter = (.fillCounter, (e : Int)) := by
        show (Buf.fillCounter, g.idAt t) = _
        rw [hid]
      rw [hcounter, line_length hnodup hcover he] at hr
      rw [slot_eq hready he hid]
      exact hp e he r hr
  have hpad : s'.mem (.numTokensPostPad, 0) =
      ((g.blockStart g.effectiveE * g.blockSize : Nat) : Int) := by
    rw [hkeep _ (show Buf.numTokensPostPad ≠ .fillCounter by decide)
      fun e _ r _ h => by cases congrArg Prod.fst h]
    exact hready _ _ .postPad
  constructor
  · rw [hpad, ← sum_mul]
    rfl
  · intro b hbound
    rw [hpad, ← Int.natCast_ediv, Nat.mul_div_cancel _ hb] at hbound
    obtain ⟨e, he, hle, hlt⟩ := exists_owner (g := g) (b := b) (by omega)
    refine ⟨e, he, ?_, Nat.mul_le_mul_right _ hle, Nat.mul_le_mul_right _ hlt⟩
    rw [hkeep _ (show Buf.expertIds ≠ .fillCounter by decide)
      fun e _ r _ h => by cases congrArg Prod.fst h]
    exact hready _ _ (.owner e b he hle hlt)
  · intro e he
    have hline : (line g.scatterLane drawn (.fillCounter, (e : Int))).Perm (g.tokensOf e) :=
      (hperm.filter _).trans (line_perm hnodup hcover he)
    have hnd : (line g.scatterLane drawn (.fillCounter, (e : Int))).Nodup :=
      hline.nodup_iff.2 (List.nodup_range.filter _)
    have hlist : ((List.range (g.count e)).map fun r =>
        s'.mem (.sortedTokenIds, ((g.blockStart e * g.blockSize + r : Nat) : Int))) =
        (line g.scatterLane drawn (.fillCounter, (e : Int))).map Nat.cast := by
      apply List.ext_getElem
      · rw [List.length_map, List.length_map, List.length_range, hline.length_eq, tokensOf_length]
      intro r hr hr'
      rw [List.length_map] at hr'
      rw [List.getElem_map, List.getElem_range, List.getElem_map]
      -- the lane that drew the number `r`
      obtain ⟨t, ht⟩ : ∃ t, (line g.scatterLane drawn (.fillCounter, (e : Int)))[r] = t := ⟨_, rfl⟩
      have hmem : t ∈ line g.scatterLane drawn (.fillCounter, (e : Int)) := ht ▸ List.getElem_mem hr'
      have hid : g.idAt t = e := (mem_tokensOf.1 (hline.mem_iff.1 hmem)).2
      have hcounter : (g.scatterLane t).counter = (.fillCounter, (e : Int)) := (mem_line.1 hmem).2
      have hplace : place g.scatterLane drawn mem t =
          (.sortedTokenIds, ((g.blockStart e * g.blockSize + r : Nat) : Int)) := by
        unfold place
        rw [hcounter, ← ht, hnd.idxOf_getElem r hr', ht]
        exact slot_eq hready he hid r
      rw [ht, ← hplace]
      exact hput t (hperm.mem_iff.1 (mem_line.1 hmem).1)
    rw [hlist]
    exact hline.map _
  · intro e he p hle hlt
    rw [region_end] at hlt
    rw [hkeep _ (show Buf.sortedTokenIds ≠ .fillCounter by decide)]
    · apply hready _ _ (.sentinel p _)
      have := region_le (g := g) he
      omega
    · intro e' he' r hr heq
      rw [Prod.mk.injEq] at heq
      have hr' := Nat.lt_of_lt_of_le hr (count_le_blocks hb e')
      obtain ⟨k, rfl⟩ := Nat.exists_eq_add_of_le (show g.blockStart e * g.blockSize ≤ p by omega)
      obtain ⟨rfl, hrr⟩ := place_inj (show k < g.blocks e * g.blockSize by omega) hr' (by omega)
      omega

end Launch

end MoeAlign

end FreeToken
