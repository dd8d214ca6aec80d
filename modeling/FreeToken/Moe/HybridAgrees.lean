import FreeToken.Moe.HybridKernel
import FreeToken.Moe.OffloadSpec

/-!
# The hybrid kernel and its mirror

The lanes of the kernel find the misses, the victims and the fetched experts that the mirror finds by
its lists.  Both stop at the same count, so the same rows are staged in the same order.
-/

set_option autoImplicit false

namespace FreeToken

open Function SlotCache

namespace OffloadMoeCache

variable {Bank Row : Type} {c : OffloadMoeCache Bank Row} {layer : Nat} {ids : List Nat}

namespace HybridKernel

/-! ## Machine integers -/

theorem wrap32_eq {x : Int} (hlo : -2147483648 ≤ x) (hhi : x < 2147483648) : wrap32 x = x := by
  unfold wrap32
  apply Int.bmod_eq_of_le_mul_two <;> omega

theorem wrap64_eq {x : Int} (hlo : -9223372036854775808 ≤ x) (hhi : x < 9223372036854775808) :
    wrap64 x = x := by
  unfold wrap64
  apply Int.bmod_eq_of_le_mul_two <;> omega

theorem le_nextPowerOf2 (n : Nat) : n ≤ nextPowerOf2 n := by
  have hfold : ∀ (ks : List Nat) (m : Nat), m ≤ ks.foldl (fun n k => n ||| n >>> k) m := by
    intro ks
    induction ks with
    | nil => exact fun m => Nat.le_refl m
    | cons k ks ih => exact fun m => Nat.left_le_or.trans (ih _)
  have h := hfold [1, 2, 4, 8, 16, 32] (n - 1)
  unfold nextPowerOf2
  omega

/-- With few enough misses the cap of the kernel is the cap of the mirror. -/
theorem cap_eq {m : Nat} (hm : m < 32768) (maxFetch : Int) {q : Int} (hq : q ≤ 65536) :
    cap m maxFetch q = fetchCap m maxFetch q := by
  unfold cap fetchCap
  split
  · rename_i hpos
    -- every product is of a number up to `m + 1` and one up to `2 ^ 16`
    have hbound : ∀ a b : Int, 0 ≤ a → a ≤ 32768 → 0 ≤ b → b ≤ 65535 →
        0 ≤ a * b ∧ a * b ≤ 32768 * 65535 := by
      intro a b ha ha' hb hb'
      exact ⟨Int.mul_nonneg ha hb, Int.mul_le_mul ha' hb' hb (by omega)⟩
    have hbound' : ∀ a : Int, 0 ≤ a → a ≤ 32767 → 0 ≤ a * q ∧ a * q ≤ 32767 * 65536 := by
      intro a ha ha'
      exact ⟨Int.mul_nonneg ha hpos.le, Int.mul_le_mul ha' hq hpos.le (by omega)⟩
    obtain ⟨hm0, hm1⟩ := hbound' m (by omega) (by omega)
    have hprod : wrap32 ((m : Int) * q) = m * q := wrap32_eq (by omega) (by omega)
    dsimp only
    rw [hprod]
    have hle : (m : Int) * q / 65536 ≤ m := by
      apply Int.ediv_le_of_le_mul (by omega)
      exact Int.mul_le_mul_of_nonneg_left hq (by omega)
    have hnonneg : 0 ≤ (m : Int) * q / 65536 := Int.ediv_nonneg hm0 (by omega)
    generalize (m : Int) * q / 65536 = lo at hle hnonneg ⊢
    have hd : wrap32 (65536 - q) = 65536 - q := wrap32_eq (by omega) (by omega)
    have hsub : wrap32 ((m : Int) - lo) = m - lo := wrap32_eq (by omega) (by omega)
    have hsub' : wrap32 ((m : Int) - lo - 1) = m - (lo + 1) := by
      rw [wrap32_eq (by omega) (by omega)]
      omega
    have hadd : wrap32 (lo + 1) = lo + 1 := wrap32_eq (by omega) (by omega)
    obtain ⟨h1, h2⟩ := hbound lo (65536 - q) (by omega) (by omega) (by omega) (by omega)
    obtain ⟨h3, h4⟩ := hbound (lo + 1) (65536 - q) (by omega) (by omega) (by omega) (by omega)
    obtain ⟨h5, h6⟩ := hbound' (m - lo) (by omega) (by omega)
    have hlast : ((m : Int) - (lo + 1)) * q = (m - lo) * q - q := by
      rw [← Int.sub_sub, Int.sub_mul, Int.one_mul]
    rw [hd, hsub, hsub', hadd, wrap32_eq (by omega) (by omega), wrap32_eq (by omega) (by omega),
      wrap32_eq (by omega) (by omega), wrap32_eq (by omega) (by omega)]
  · rfl

/-! ## The lanes of phase 1 -/

theorem isActive_iff {e : Nat} : isActive ids e = true ↔ e ∈ ids := by
  unfold isActive
  induction ids using List.reverseRecOn with
  | nil => simp
  | append_singleton l i ih =>
      rw [List.foldl_append, List.foldl_cons, List.foldl_nil, Bool.or_eq_true, ih, decide_eq_true_eq,
        List.mem_append, List.mem_singleton]

theorem ownerActive_iff {s : Nat} :
    ownerActive c layer ids s = true ↔ ∃ i ∈ ids, c.idOfSlot s = some (c.flatId layer i) := by
  unfold ownerActive
  induction ids using List.reverseRecOn with
  | nil => simp
  | append_singleton l i ih =>
      rw [List.foldl_append, List.foldl_cons, List.foldl_nil, Bool.or_eq_true, ih, decide_eq_true_eq]
      have hentry : entry (c.idOfSlot s) = c.flatId layer i ↔
          c.idOfSlot s = some (c.flatId layer i) := by
        cases c.idOfSlot s with
        | none => simp [entry]
        | some k => simp [entry]
      rw [hentry]
      simp only [List.mem_append, List.mem_singleton, or_and_right, exists_or, exists_eq_left]

theorem slotLane_eq {e : Nat} (he : e < c.config.numExperts) :
    slotLane c layer e = entry (c.slotForId (c.flatId layer e)) := if_pos he

theorem isMissing_iff {e : Nat} (hids : ∀ i ∈ ids, i < c.config.numExperts) :
    isMissing c layer ids e = true ↔ e ∈ ids ∧ c.slotForId (c.flatId layer e) = none := by
  unfold isMissing
  rw [Bool.and_eq_true, Bool.and_eq_true, isActive_iff, decide_eq_true_eq, decide_eq_true_eq]
  constructor
  · rintro ⟨⟨he, hslot⟩, hlt⟩
    rw [slotLane_eq hlt] at hslot
    refine ⟨he, ?_⟩
    cases hs : c.slotForId (c.flatId layer e) with
    | none => rfl
    | some s =>
        rw [hs] at hslot
        change (s : Int) = -1 at hslot
        omega
  · rintro ⟨he, hnone⟩
    have hlt := hids e he
    refine ⟨⟨he, ?_⟩, hlt⟩
    rw [slotLane_eq hlt, hnone]
    rfl

/-- The marked lanes are the misses in the order of their ids. -/
theorem missing_perm (hids : ∀ i ∈ ids, i < c.config.numExperts) :
    ((List.range (nextPowerOf2 c.config.numExperts)).filter (isMissing c layer ids)).Perm
      (missing c layer ids) := by
  have hnd : (missing c layer ids).Nodup := (nodup_eraseDups _ _ le_rfl).filter _
  apply (List.perm_ext_iff_of_nodup (List.nodup_range.filter _) hnd).2
  intro e
  unfold missing
  rw [List.mem_filter, List.mem_filter, isMissing_iff hids, List.mem_eraseDups, List.mem_range,
    decide_eq_true_eq]
  constructor
  · exact fun h => h.2
  · intro h
    exact ⟨(hids e h.1).trans_le (le_nextPowerOf2 _), h⟩

theorem missing_length_le (hids : ∀ i ∈ ids, i < c.config.numExperts) :
    (missing c layer ids).length ≤ c.config.numExperts := by
  have hnd : (missing c layer ids).Nodup := (nodup_eraseDups _ _ le_rfl).filter _
  have hsub : missing c layer ids ⊆ List.range c.config.numExperts := by
    intro e he
    exact List.mem_range.2 (hids e (List.mem_eraseDups.1 (List.mem_filter.1 he).1))
  simpa using (List.subperm_of_subset hnd hsub).length_le

theorem numMissing_wrap (hids : ∀ i ∈ ids, i < c.config.numExperts) :
    numMissing c layer ids = wrap32 (missing c layer ids).length := by
  unfold numMissing
  rw [Lanes.sum_indicator, List.countP_eq_length_filter, (missing_perm hids).length_eq]

theorem numMissing_eq (hids : ∀ i ∈ ids, i < c.config.numExperts) (hexp : c.config.numExperts < 32768) :
    numMissing c layer ids = (missing c layer ids).length := by
  have hle : (missing c layer ids).length ≤ c.config.numExperts := missing_length_le hids
  rw [numMissing_wrap hids]
  apply wrap32_eq <;> omega

/-! ## The turns of phase 2 -/

/-- What selects the expert of each turn: the scores fall along the order, or the order is that of the
marked lanes. -/
structure Selects (c : OffloadMoeCache Bank Row) (order : List Nat) (key : Nat → Int)
    (marked : Nat → Bool) : Prop where
  nodup : order.Nodup
  lt : ∀ e ∈ order, e < nextPowerOf2 c.config.numExperts
  falling : c.config.hybridFetchByRecency = true → order.Pairwise fun a b => key b < key a
  score : c.config.hybridFetchByRecency = true → ∀ e ∈ order, noScore < key e
  rising : c.config.hybridFetchByRecency = false →
    order = (List.range (nextPowerOf2 c.config.numExperts)).filter marked

/-- The vectors before turn `i`. -/
structure Sync (layer : Nat) (seen order : List Nat) (key oid : Nat → Int) (i : Nat)
    (st : LoopState Bank Row) : Prop where
  room : seen.length ≤ st.cache.cacheSize
  map : WF st.cache.slots
  inUse : InUse st.cache.slots (st.cache.idsOf layer seen)
  misses : ∀ e ∈ order.drop i, e ∈ seen ∧ st.cache.slotForId (st.cache.flatId layer e) = none
  clock : (st.cache.step : Int) ≤ stampMax
  stamp : ∀ s, st.u s =
    if s < st.cache.cacheSize ∧ st.cache.usage s < st.cache.step then (st.cache.usage s : Int)
    else stampMax
  owner : ∀ s < st.cache.cacheSize, st.cache.usage s < st.cache.step →
    oid s = entry (st.cache.idOfSlot s)
  score : st.cache.config.hybridFetchByRecency = true → ∀ e,
    st.score e = if e ∈ order.drop i then key e else noScore

section Turn

variable {seen order : List Nat} {key oid : Nat → Int} {marked : Nat → Bool} {i : Nat}
  {st : LoopState Bank Row}

/-- The lane of the least stamp is the slot used longest ago. -/
theorem Sync.argmin (h : Sync layer seen order key oid i st) {v : Nat}
    (hv : victim st.cache.slots = some v) (hidle : st.cache.usage v < st.cache.step) :
    Lanes.argmin (nextPowerOf2 st.cache.cacheSize) st.u = v := by
  have hclock := h.clock
  obtain ⟨hlt, hleast, hfirst⟩ := Lanes.argmin_range_eq_some.1
    (show (List.range st.cache.cacheSize).argmin st.cache.usage = some v from hv)
  have huv : st.u v = st.cache.usage v := by
    rw [h.stamp, if_pos ⟨hlt, hidle⟩]
  apply Lanes.argmin_eq (hlt.trans_le (le_nextPowerOf2 _))
  · intro a _
    rw [huv, h.stamp]
    split
    · rename_i ha
      exact Int.ofNat_le.2 (hleast a ha.1)
    · omega
  · intro a _ hle
    rw [huv, h.stamp] at hle
    split at hle
    · rename_i ha
      exact hfirst a ha.1 (Int.ofNat_le.1 hle)
    · omega

/-- The expert that turn `i` selects. -/
theorem Sync.selected (h : Sync layer seen order key oid i st)
    (hs : Selects st.cache order key marked) {e : Nat} (he : order[i]? = some e) :
    (if st.cache.config.hybridFetchByRecency then
        Lanes.argmax (nextPowerOf2 st.cache.config.numExperts) st.score
      else (Lanes.sum (nextPowerOf2 st.cache.config.numExperts) fun e =>
        if (Lanes.cumsum marked e : Int) - 1 = i ∧ marked e then (e : Int) else 0).toNat) = e := by
  have hmem : e ∈ order := List.mem_of_getElem? he
  have hlt := hs.lt e hmem
  obtain ⟨hi, hget⟩ := List.getElem?_eq_some_iff.1 he
  have hdrop : order.drop i = e :: order.drop (i + 1) := by
    rw [List.drop_eq_getElem_cons hi, hget]
  split
  · rename_i hrec
    have hfall := (hs.falling hrec).sublist (List.drop_sublist i order)
    rw [hdrop, List.pairwise_cons] at hfall
    have hscore : st.score e = key e := by
      rw [h.score hrec, hdrop, if_pos List.mem_cons_self]
    apply Lanes.argmax_eq hlt
    intro a _ hne
    rw [hscore, h.score hrec, hdrop]
    split
    · rename_i ha
      rcases List.mem_cons.1 ha with hae | ha
      · exact absurd hae hne
      · exact hfall.1 a ha
    · exact hs.score hrec e hmem
  · rename_i hrec
    have hrise := hs.rising (Bool.eq_false_of_not_eq_true hrec)
    rw [hrise] at he
    have hrank : ∀ a < nextPowerOf2 st.cache.config.numExperts,
        ((Lanes.cumsum marked a : Int) - 1 = i ∧ marked a = true) ↔ a = e := by
      intro a ha
      rw [← Lanes.rank_iff he ha]
      refine and_congr_left fun hp => ?_
      have hpos := Lanes.cumsum_pos hp
      omega
    have hsum : (Lanes.sum (nextPowerOf2 st.cache.config.numExperts) fun e =>
        if (Lanes.cumsum marked e : Int) - 1 = i ∧ marked e = true then (e : Int) else 0) = e := by
      rw [Lanes.sum_single hlt, if_pos ((hrank e hlt).2 rfl)]
      intro a ha hne
      exact if_neg fun hc => hne ((hrank a ha).1 hc)
    rw [hsum]
    rfl

/-- A turn of the kernel is a turn of the mirror, and leaves the vectors in step. -/
theorem Sync.turn (hseen : seen.Nodup) (h : Sync layer seen order key oid i st)
    (hs : Selects st.cache order key marked) {e : Nat} (he : order[i]? = some e) :
    fetchExpert st.cache layer i e = .ok (fetchTurn layer oid marked
        (fun e => (Lanes.cumsum marked e : Int) - 1) i st).cache ∧
      (fetchTurn layer oid marked (fun e => (Lanes.cumsum marked e : Int) - 1) i st).cache.config =
        st.cache.config ∧
      Sync layer seen order key oid (i + 1)
        (fetchTurn layer oid marked (fun e => (Lanes.cumsum marked e : Int) - 1) i st) := by
  obtain ⟨hi, hget⟩ := List.getElem?_eq_some_iff.1 he
  have hdrop : order.drop i = e :: order.drop (i + 1) := by
    rw [List.drop_eq_getElem_cons hi, hget]
  have hefirst : e ∈ order.drop i := by
    rw [hdrop]
    exact List.mem_cons_self
  have hnotin : e ∉ order.drop (i + 1) := by
    have hnd := hs.nodup.sublist (List.drop_sublist i order)
    rw [hdrop] at hnd
    exact (List.nodup_cons.1 hnd).1
  obtain ⟨hes, hnone⟩ := h.misses e hefirst
  obtain ⟨v, c', hturn⟩ := fetchExpert_turn hseen h.room h.map h.inUse hes hnone i
  have hargmin := h.argmin hturn.victim hturn.idle
  have hvlt : v < st.cache.cacheSize := List.mem_range.1 (List.argmin_mem hturn.victim)
  have hselected := h.selected hs he
  have hold : Lanes.sum (nextPowerOf2 st.cache.cacheSize) (fun s => if s = v then oid s else 0) =
      entry (st.cache.idOfSlot v) := by
    rw [Lanes.sum_single (hvlt.trans_le (le_nextPowerOf2 _)) fun a _ hne => if_neg hne, if_pos rfl]
    exact h.owner v hvlt hturn.idle
  have hcache : (fetchTurn layer oid marked (fun e => (Lanes.cumsum marked e : Int) - 1) i st).cache =
      c' := by
    have hrun := hturn.run
    unfold fetchExpert at hrun
    rw [show (List.range st.cache.cacheSize).argmin st.cache.usage = some v from hturn.victim] at hrun
    unfold fetchTurn
    dsimp only at hrun ⊢
    rw [hargmin, hselected, hold, ← Except.ok.inj hrun]
    cases st.cache.idOfSlot v with
    | none => rfl
    | some k =>
        rw [if_pos (show 0 ≤ entry (some k) from Int.natCast_nonneg k)]
        rfl
  have hu : (fetchTurn layer oid marked (fun e => (Lanes.cumsum marked e : Int) - 1) i st).u =
      fun s => if s = v then stampMax else st.u s := by
    unfold fetchTurn
    dsimp only
    rw [hargmin]
  have hscore : st.cache.config.hybridFetchByRecency = true →
      (fetchTurn layer oid marked (fun e => (Lanes.cumsum marked e : Int) - 1) i st).score =
        fun x => if x = e then noScore else st.score x := by
    intro hrec
    unfold fetchTurn
    dsimp only
    rw [hselected, if_pos hrec]
  have hconfig : c'.config = st.cache.config := by
    rw [hturn.frame]
  have hsize : c'.cacheSize = st.cache.cacheSize := by
    rw [hturn.frame]
  have hstep : c'.step = st.cache.step := by
    rw [hturn.frame]
  have hflat : ∀ a, c'.flatId layer a = st.cache.flatId layer a := by
    intro a
    unfold flatId
    rw [hconfig]
  have husage : c'.usage = update st.cache.usage v st.cache.step := congrArg Slots.usage hturn.slots
  have hid : c'.idOfSlot = update st.cache.idOfSlot v (some (st.cache.flatId layer e)) :=
    congrArg Slots.keyOf hturn.slots
  rw [hcache]
  refine ⟨hturn.run, hconfig, ?_⟩
  constructor
  · rw [hcache, hsize]
    exact h.room
  · rw [hcache]
    exact hturn.map
  · rw [hcache]
    exact hturn.inUse
  · intro a ha
    obtain ⟨has, hanone⟩ := h.misses a (by
      rw [hdrop]
      exact List.mem_cons_of_mem e ha)
    rw [hcache, hflat, hturn.kept a has fun heq => hnotin (heq ▸ ha)]
    exact ⟨has, hanone⟩
  · rw [hcache, hstep]
    exact h.clock
  · intro s
    rw [hcache, hu, hsize, hstep, husage]
    dsimp only
    by_cases hsv : s = v
    · rw [if_pos hsv, hsv, update_self, if_neg fun hc => Nat.lt_irrefl _ hc.2]
    · rw [if_neg hsv, update_of_ne hsv]
      exact h.stamp s
  · intro s hs' hlt
    rw [hcache] at hs' hlt ⊢
    rw [hsize] at hs'
    rw [husage, hstep] at hlt
    rw [hid]
    by_cases hsv : s = v
    · rw [hsv, update_self] at hlt
      exact absurd hlt (Nat.lt_irrefl _)
    · rw [update_of_ne hsv] at hlt ⊢
      exact h.owner s hs' hlt
  · intro hrec a
    rw [hcache, hconfig] at hrec
    rw [hscore hrec]
    dsimp only
    by_cases hae : a = e
    · rw [if_pos hae, hae, if_neg hnotin]
    · rw [if_neg hae, h.score hrec, hdrop]
      simp only [List.mem_cons, hae, false_or]

/-- So many turns of the kernel are the loop of the mirror over so many of the misses. -/
theorem fetchTurns_eq (hseen : seen.Nodup) : ∀ (k i : Nat) (st : LoopState Bank Row),
    Sync layer seen order key oid i st → Selects st.cache order key marked → i + k ≤ order.length →
    fetchLoop st.cache layer i ((order.drop i).take k) = .ok (fetchTurns layer oid marked
      (fun e => (Lanes.cumsum marked e : Int) - 1) i k st).cache := by
  intro k
  induction k with
  | zero =>
      intro i st _ _ _
      rw [List.take_zero]
      rfl
  | succ k ih =>
      intro i st h hs hle
      have hi : i < order.length := by omega
      have he : order[i]? = some order[i] := List.getElem?_eq_getElem hi
      obtain ⟨hrun, hconfig, hsync⟩ := h.turn hseen hs he
      rw [List.drop_eq_getElem_cons hi, List.take_succ_cons, fetchLoop, hrun]
      apply ih (i + 1) _ hsync _ (by omega)
      obtain ⟨h1, h2, h3, h4, h5⟩ := hs
      rw [← hconfig] at h2 h3 h4 h5
      exact ⟨h1, h2, h3, h4, h5⟩

end Turn

/-! ## What selects the experts -/

/-- The more recent first, ties by id. -/
theorem pairwise_byRecency (rec_ : Nat → Int) (l : List Nat) :
    (l.insertionSort fun a b => rec_ b < rec_ a ∨ rec_ a = rec_ b ∧ a ≤ b).Pairwise
      fun a b => rec_ b < rec_ a ∨ rec_ a = rec_ b ∧ a ≤ b := by
  have htotal : Std.Total fun a b => rec_ b < rec_ a ∨ rec_ a = rec_ b ∧ a ≤ b :=
    ⟨fun a b => by omega⟩
  have htrans : IsTrans Nat fun a b => rec_ b < rec_ a ∨ rec_ a = rec_ b ∧ a ≤ b :=
    ⟨fun a b d => by omega⟩
  exact List.pairwise_insertionSort _ l

theorem selects (hids : ∀ i ∈ ids, i < c.config.numExperts) (hexp : c.config.numExperts < 32768)
    (hlow : ∀ e < c.config.numExperts, -1 ≤ c.expertRecency (c.flatId layer e))
    (hhigh : ∀ e < c.config.numExperts,
      (c.expertRecency (c.flatId layer e) + 1) * c.config.numExperts ≤ 9223372036854775808) :
    Selects c (fetchOrder c layer (missing c layer ids)) (score c layer ids)
      (isMissing c layer ids) := by
  have hperm := fetchOrder_perm c layer (missing c layer ids)
  have hnd : (fetchOrder c layer (missing c layer ids)).Nodup :=
    hperm.nodup_iff.2 ((nodup_eraseDups _ _ le_rfl).filter _)
  have hmiss : ∀ e ∈ fetchOrder c layer (missing c layer ids), e < c.config.numExperts ∧
      isMissing c layer ids e = true := by
    intro e he
    have hmem := List.mem_filter.1 (hperm.mem_iff.1 he)
    have heids := List.mem_eraseDups.1 hmem.1
    exact ⟨hids e heids, (isMissing_iff hids).2 ⟨heids, of_decide_eq_true hmem.2⟩⟩
  -- the score of a miss is its recency times the number of experts and less than that
  have hscore : ∀ e ∈ fetchOrder c layer (missing c layer ids), score c layer ids e =
      c.expertRecency (c.flatId layer e) * c.config.numExperts + (c.config.numExperts - 1 - e) := by
    intro e he
    obtain ⟨hlt, hm⟩ := hmiss e he
    have h1 := hhigh e hlt
    have h2 : -(c.config.numExperts : Int) ≤
        c.expertRecency (c.flatId layer e) * c.config.numExperts := by
      have := Int.mul_le_mul_of_nonneg_right (hlow e hlt) (Int.natCast_nonneg c.config.numExperts)
      omega
    rw [Int.add_mul, Int.one_mul] at h1
    have hprod : wrap64 (c.expertRecency (c.flatId layer e) * c.config.numExperts) =
        c.expertRecency (c.flatId layer e) * c.config.numExperts := wrap64_eq (by omega) (by omega)
    unfold score
    rw [if_pos hm, hprod, wrap64_eq (by omega) (by omega)]
  refine ⟨hnd, fun e he => (hmiss e he).1.trans_le (le_nextPowerOf2 _), ?_, ?_, ?_⟩
  · intro hrec
    have hsorted : (fetchOrder c layer (missing c layer ids)).Pairwise fun a b =>
        c.expertRecency (c.flatId layer b) < c.expertRecency (c.flatId layer a) ∨
          c.expertRecency (c.flatId layer a) = c.expertRecency (c.flatId layer b) ∧ a ≤ b := by
      unfold fetchOrder
      rw [if_pos hrec]
      exact pairwise_byRecency _ _
    apply (hsorted.and hnd).imp_of_mem
    rintro a b ha hb ⟨hab, hne⟩
    have haexp := (hmiss a ha).1
    have hbexp := (hmiss b hb).1
    rw [hscore a ha, hscore b hb]
    rcases hab with hlt | ⟨heq, hle⟩
    · have hprod := Int.mul_le_mul_of_nonneg_right (show c.expertRecency (c.flatId layer b) + 1 ≤
        c.expertRecency (c.flatId layer a) from hlt) (Int.natCast_nonneg c.config.numExperts)
      rw [Int.add_mul, Int.one_mul] at hprod
      omega
    · rw [heq]
      omega
  · intro _ e he
    obtain ⟨hlt, -⟩ := hmiss e he
    have h2 := Int.mul_le_mul_of_nonneg_right (hlow e hlt) (Int.natCast_nonneg c.config.numExperts)
    rw [hscore e he]
    unfold noScore
    omega
  · intro hrec
    have hsorted : (fetchOrder c layer (missing c layer ids)).Pairwise (· ≤ ·) := by
      unfold fetchOrder
      rw [if_neg (by rw [hrec]; exact Bool.false_ne_true)]
      exact List.pairwise_insertionSort (· ≤ ·) _
    exact (hperm.trans (missing_perm hids).symm).eq_of_pairwise' hsorted
      (List.pairwise_le_range.filter _)

/-! ## The states before and after the loop -/

/-- The mask of the active experts is only written. -/
theorem fetchLoop_activeMask (a : Nat → Bool) : ∀ (l : List Nat) (i : Nat)
    (c : OffloadMoeCache Bank Row), fetchLoop { c with activeMask := a } layer i l =
      (fetchLoop c layer i l).map fun c' => { c' with activeMask := a } := by
  intro l
  induction l with
  | nil => exact fun _ _ => rfl
  | cons e l ih =>
      intro i c
      have hstep : fetchExpert { c with activeMask := a } layer i e =
          (fetchExpert c layer i e).map fun c' => { c' with activeMask := a } := by
        unfold fetchExpert
        dsimp only
        cases (List.range c.cacheSize).argmin c.usage <;> rfl
      rw [fetchLoop, fetchLoop, hstep]
      cases fetchExpert c layer i e with
      | error err => rfl
      | ok c' => exact ih (i + 1) c'

theorem fetchLoop_frame : ∀ (l : List Nat) (i : Nat) (c c' : OffloadMoeCache Bank Row),
    fetchLoop c layer i l = .ok c' → c'.config = c.config ∧ c'.numIndices = c.numIndices := by
  intro l
  induction l with
  | nil =>
      intro i c c' h
      cases h
      exact ⟨rfl, rfl⟩
  | cons e l ih =>
      intro i c c' h
      rw [fetchLoop] at h
      cases hstep : fetchExpert c layer i e with
      | error err =>
          rw [hstep] at h
          cases h
      | ok d =>
          rw [hstep] at h
          obtain ⟨hconfig, hnum⟩ := ih (i + 1) d c' h
          rw [hconfig, hnum]
          unfold fetchExpert at hstep
          cases hv : (List.range c.cacheSize).argmin c.usage with
          | none =>
              rw [hv] at hstep
              cases hstep
          | some v =>
              rw [hv] at hstep
              cases hstep
              exact ⟨rfl, rfl⟩

theorem isHit_iff (hids : ∀ i ∈ ids, i < c.config.numExperts) {e s : Nat} :
    (isHit c layer ids e = true ∧ (slotLane c layer e).toNat = s) ↔
      e ∈ ids ∧ c.slotForId (c.flatId layer e) = some s := by
  unfold isHit
  rw [Bool.and_eq_true, isActive_iff, decide_eq_true_eq, and_assoc]
  refine and_congr_right fun he => ?_
  rw [slotLane_eq (hids e he)]
  cases hslot : c.slotForId (c.flatId layer e) with
  | none =>
      constructor
      · rintro ⟨hneg, -⟩
        change (0 : Int) ≤ -1 at hneg
        omega
      · intro h
        cases h
  | some t =>
      rw [Option.some.injEq]
      exact and_iff_right (Int.natCast_nonneg t)

/-- Up to the mask the kernel stages what the mirror stages. -/
theorem stage_eq (hids : ∀ i ∈ ids, i < c.config.numExperts) (hexp : c.config.numExperts < 32768)
    (cap : Int) :
    stage { c with pendingSrcLayer := some layer } layer ids
        (min ((missing c layer ids).length : Int) cap) =
      { staging c layer ids (hitUsage c layer ids.eraseDups (c.step + 1))
          (missing c layer ids).length cap with
        activeMask := fun e =>
          if e < c.config.numExperts then isActive ids e else c.activeMask e } := by
  have hmissing : (numMissing { c with pendingSrcLayer := some layer } layer ids).toNat =
      (missing c layer ids).length := by
    show (numMissing c layer ids).toNat = _
    rw [numMissing_eq hids hexp]
    rfl
  have husage : Lanes.scatter c.usage (((List.range (nextPowerOf2 c.config.numExperts)).filter
      (isHit c layer ids)).map fun e => (slotLane c layer e).toNat) (c.step + 1) =
        hitUsage c layer ids.eraseDups (c.step + 1) := by
    funext s
    rw [Lanes.scatter_apply]
    unfold hitUsage
    congr 1
    rw [eq_iff_iff, List.mem_map]
    constructor
    · rintro ⟨e, he, hs⟩
      obtain ⟨hmem, hslot⟩ := (isHit_iff hids).1 ⟨(List.mem_filter.1 he).2, hs⟩
      exact ⟨e, List.mem_eraseDups.2 hmem, hslot⟩
    · rintro ⟨e, he, hslot⟩
      have hmem := List.mem_eraseDups.1 he
      obtain ⟨hhit, hs⟩ := (isHit_iff hids).2 ⟨hmem, hslot⟩
      refine ⟨e, List.mem_filter.2 ⟨List.mem_range.2 ?_, hhit⟩, hs⟩
      exact (hids e hmem).trans_le (le_nextPowerOf2 _)
  unfold stage
  rw [hmissing]
  show ({ c with
    pendingSrcLayer := some layer
    step := c.step + 1
    activeMask := _
    usage := Lanes.scatter c.usage (((List.range (nextPowerOf2 c.config.numExperts)).filter
      (isHit c layer ids)).map fun e => (slotLane c layer e).toNat) (c.step + 1)
    numMissingFull := _
    numIndices := _ } : OffloadMoeCache Bank Row) = _
  rw [husage]
  rfl

/-- The vectors are in step before the first turn. -/
theorem sync_start (hmap : WF c.slots) (hfloor : c.config.numExperts ≤ c.cacheSize)
    (hids : ∀ i ∈ ids, i < c.config.numExperts) (hclock : (c.step : Int) + 1 ≤ stampMax)
    (misses : Nat) (cap : Int) (a : Nat → Bool) :
    let staged := { staging c layer ids (hitUsage c layer ids.eraseDups (c.step + 1)) misses cap with
      activeMask := a }
    Sync layer ids.eraseDups (fetchOrder c layer (missing c layer ids)) (score c layer ids)
      (idLane staged) 0
      { cache := staged, u := stamps staged layer ids, score := score c layer ids } := by
  intro staged
  obtain ⟨hwf, huse⟩ := staging_inUse hmap layer ids misses cap
  have hperm := fetchOrder_perm c layer (missing c layer ids)
  have horder : ∀ e, e ∈ fetchOrder c layer (missing c layer ids) ↔
      e ∈ ids ∧ c.slotForId (c.flatId layer e) = none := by
    intro e
    rw [hperm.mem_iff]
    unfold missing
    rw [List.mem_filter, List.mem_eraseDups, decide_eq_true_eq]
  constructor
  · exact seen_length_le hfloor hids
  · exact hwf
  · exact huse
  · intro e he
    obtain ⟨hmem, hnone⟩ := (horder e).1 he
    exact ⟨List.mem_eraseDups.2 hmem, hnone⟩
  · show ((c.step + 1 : Nat) : Int) ≤ stampMax
    omega
  · intro s
    show (if s < c.cacheSize ∧ ¬ ownerActive staged layer ids s then (staged.usage s : Int)
      else stampMax) = if s < c.cacheSize ∧ staged.usage s < staged.step then _ else _
    congr 1
    rw [eq_iff_iff]
    refine and_congr_right fun hs => ?_
    have hle : staged.usage s ≤ staged.step := hwf.usage_le s
    rw [ownerActive_iff]
    constructor
    · intro hno
      by_contra hge
      obtain ⟨k, hk, hkey⟩ := huse.holder s hs (show staged.usage s = staged.step by omega)
      obtain ⟨i, hi, rfl⟩ := List.mem_map.1 hk
      exact hno ⟨i, List.mem_eraseDups.1 hi, hkey⟩
    · rintro hlt ⟨i, hi, hkey⟩
      have hstamp : staged.usage s = staged.step :=
        huse.stamped _ (List.mem_map.2 ⟨i, List.mem_eraseDups.2 hi, rfl⟩) s
          ((hwf.inverse _ _).2 hkey)
      omega
  · intro s hs _
    exact if_pos hs
  · intro _ e
    show score c layer ids e = if e ∈ fetchOrder c layer (missing c layer ids) then
      score c layer ids e else noScore
    split
    · rfl
    · rename_i hno
      unfold score
      rw [if_neg]
      intro hm
      exact hno ((horder e).2 ((isMissing_iff hids).1 hm))

/-- The recencies after the bump. -/
theorem bump_eq (hids : ∀ i ∈ ids, i < c.config.numExperts) :
    bump c layer ids = bumpRecency c layer ids.eraseDups := by
  unfold bump bumpRecency
  split
  · have hfold : ids.eraseDups.foldl (fun r e => update r (c.flatId layer e) (c.step : Int))
        c.expertRecency =
          Lanes.scatter c.expertRecency (ids.eraseDups.map (c.flatId layer)) (c.step : Int) := by
      unfold Lanes.scatter
      rw [List.foldl_map]
    rw [hfold]
    dsimp only
    congr 1
    funext id
    rw [Lanes.scatter_apply, Lanes.scatter_apply]
    congr 1
    rw [eq_iff_iff, List.mem_map, List.mem_map]
    refine exists_congr fun e => and_congr_left fun _ => ?_
    rw [List.mem_filter, Bool.and_eq_true, isActive_iff, decide_eq_true_eq, List.mem_eraseDups,
      List.mem_range]
    constructor
    · exact fun h => h.2.1
    · exact fun h => ⟨(hids e h).trans_le (le_nextPowerOf2 _), h, hids e h⟩
  · rfl

/-- The kernel with the counts of the mirror. -/
theorem gpu_eq (hids : ∀ i ∈ ids, i < c.config.numExperts) (hexp : c.config.numExperts < 32768)
    (maxFetch fetchFraction : Int) {n : Int}
    (hcap : fetchCap (missing c layer ids).length maxFetch (clampFraction fetchFraction) = n)
    {staged fetched : OffloadMoeCache Bank Row}
    (hstaged : staged = { staging c layer ids (hitUsage c layer ids.eraseDups (c.step + 1))
        (missing c layer ids).length n with
      activeMask := fun e => if e < c.config.numExperts then isActive ids e else c.activeMask e })
    (hfetched : fetched = (fetchTurns layer (idLane staged) (isMissing c layer ids)
      (fun e => (Lanes.cumsum (isMissing c layer ids) e : Int) - 1) 0
        (min ((missing c layer ids).length : Int) n).toNat
        { cache := staged, u := stamps staged layer ids, score := score c layer ids }).cache) :
    ensureExpertsHybridGpu c layer ids maxFetch fetchFraction =
      (bump fetched layer ids, ids.map fun e => fetched.slotForId (c.flatId layer e)) := by
  have hmiss : (missing c layer ids).length < 32768 := (missing_length_le hids).trans_lt hexp
  have hcount : numMissing { c with pendingSrcLayer := some layer } layer ids =
      (missing c layer ids).length := numMissing_eq hids hexp
  have hkernel : cap (missing c layer ids).length maxFetch (clampFraction fetchFraction) = n :=
    (cap_eq hmiss maxFetch (min_le_left _ _)).trans hcap
  unfold ensureExpertsHybridGpu
  dsimp only
  rw [hcount, hkernel, stage_eq hids hexp n, ← hstaged]
  by_cases hpos : 0 < min ((missing c layer ids).length : Int) n
  · rw [if_pos hpos, hfetched]
    rfl
  · -- no turn at all
    rw [show (min ((missing c layer ids).length : Int) n).toNat = 0 by omega] at hfetched
    rw [if_neg hpos, hfetched]
    rfl

end HybridKernel

open HybridKernel

/-! ## The kernel agrees with its mirror -/

/-- What a call leaves for its callers: the maps, the stamps and recencies, the rewritten ids, the counts,
and the staged pairs in their order. -/
structure SameResult (r r' : OffloadMoeCache Bank Row × List (Option Nat)) : Prop where
  slotForId : r.1.slotForId = r'.1.slotForId
  idOfSlot : r.1.idOfSlot = r'.1.idOfSlot
  usage : r.1.usage = r'.1.usage
  step : r.1.step = r'.1.step
  expertRecency : r.1.expertRecency = r'.1.expertRecency
  expertIds : r.2 = r'.2
  numIndices : r.1.numIndices = r'.1.numIndices
  numMissingFull : r.1.numMissingFull = r'.1.numMissingFull
  stagedRows : r.1.stagedRows = r'.1.stagedRows

/-- The slower of the two transfers when `f` of `m` misses are fetched. -/
def transferCost (m q f : Int) : Int := max (f * (65536 - q)) ((m - f) * q)

/-- The count is one of the two integers next to the balance, and no worse than either. -/
def Balanced (m q f : Int) : Prop :=
  (f = m * q / 65536 ∨ f = m * q / 65536 + 1) ∧
    transferCost m q f ≤ transferCost m q (m * q / 65536) ∧
    transferCost m q f ≤ transferCost m q (m * q / 65536 + 1)

theorem fetchCap_eq (m : Nat) (maxFetch : Int) {q : Int} (hpos : 0 < q) :
    fetchCap m maxFetch q =
      if transferCost m q (m * q / 65536) ≤ transferCost m q (m * q / 65536 + 1) then m * q / 65536
      else m * q / 65536 + 1 := by
  unfold fetchCap transferCost
  rw [if_pos hpos]

/-- A fraction of the misses is never more than all of them, so the count is not cut off. -/
theorem fetchCap_balanced (m : Nat) (maxFetch : Int) {q : Int} (hpos : 0 < q) (hq : q ≤ 65536) :
    Balanced m q (min (m : Int) (fetchCap m maxFetch q)) := by
  have hm : (0 : Int) ≤ m := Int.natCast_nonneg m
  have hle : (m : Int) * q / 65536 ≤ m := by
    apply Int.ediv_le_of_le_mul (by omega)
    exact Int.mul_le_mul_of_nonneg_left hq hm
  rw [fetchCap_eq m maxFetch hpos]
  unfold Balanced
  generalize (m : Int) * q / 65536 = lo at hle ⊢
  by_cases hcost : transferCost m q lo ≤ transferCost m q (lo + 1)
  · rw [if_pos hcost, min_eq_right hle]
    exact ⟨Or.inl rfl, le_rfl, hcost⟩
  · have hlt : lo + 1 ≤ m := by
      -- with all of the misses fetched nothing is left for the other side
      by_contra hall
      obtain rfl : lo = m := by omega
      apply hcost
      have h1 : 0 ≤ ((m : Int) + 1) * (65536 - q) := Int.mul_nonneg (by omega) (by omega)
      have h2 : (m : Int) * (65536 - q) ≤ (m + 1) * (65536 - q) :=
        Int.mul_le_mul_of_nonneg_right (by omega) (by omega)
      unfold transferCost
      rw [Int.sub_self, Int.zero_mul]
      exact max_le (h2.trans (le_max_left _ _)) (h1.trans (le_max_left _ _))
    rw [if_neg hcost, min_eq_right hlt]
    exact ⟨Or.inr rfl, (not_le.1 hcost).le, le_rfl⟩

/-- On a state whose numbers fit their registers the kernel and its mirror give the same results. -/
theorem hybridKernel_agrees (hmap : WF c.slots) (hfloor : c.config.numExperts ≤ c.cacheSize)
    (hids : ∀ i ∈ ids, i < c.config.numExperts) (maxFetch fetchFraction : Int)
    (hexp : c.config.numExperts < 32768) (hclock : (c.step : Int) + 1 ≤ 9223372036854775807)
    (hlow : ∀ e < c.config.numExperts, -1 ≤ c.expertRecency (c.flatId layer e))
    (hhigh : ∀ e < c.config.numExperts,
      (c.expertRecency (c.flatId layer e) + 1) * c.config.numExperts ≤ 9223372036854775808) :
    (∃ r, ensureExpertsHybrid c layer ids maxFetch fetchFraction = .ok r ∧
      SameResult r (ensureExpertsHybridGpu c layer ids maxFetch fetchFraction)) ∧
      (0 < clampFraction fetchFraction →
        Balanced (missing c layer ids).length (clampFraction fetchFraction)
          (ensureExpertsHybridGpu c layer ids maxFetch fetchFraction).1.numIndices) := by
  generalize hcap : fetchCap (missing c layer ids).length maxFetch (clampFraction fetchFraction) = n
  generalize hstaged : ({ staging c layer ids (hitUsage c layer ids.eraseDups (c.step + 1))
      (missing c layer ids).length n with
    activeMask := fun e => if e < c.config.numExperts then isActive ids e else c.activeMask e } :
      OffloadMoeCache Bank Row) = staged
  generalize hfetched : (fetchTurns layer (idLane staged) (isMissing c layer ids)
    (fun e => (Lanes.cumsum (isMissing c layer ids) e : Int) - 1) 0
      (min ((missing c layer ids).length : Int) n).toNat
      { cache := staged, u := stamps staged layer ids, score := score c layer ids }).cache = fetched
  rw [gpu_eq hids hexp maxFetch fetchFraction hcap hstaged.symm hfetched.symm]
  -- the loop of the mirror, from the state the kernel stages
  have hmirror := ensureExpertsHybrid_eq c layer ids maxFetch fetchFraction hcap
  have hsync := @sync_start _ _ c layer ids hmap hfloor hids hclock (missing c layer ids).length n
    (fun e => if e < c.config.numExperts then isActive ids e else c.activeMask e)
  rw [hstaged] at hsync
  have hselects := selects hids hexp hlow hhigh
  have hconfig : staged.config = c.config := by
    rw [← hstaged]
    rfl
  have hselects' : Selects staged (fetchOrder c layer (missing c layer ids)) (score c layer ids)
      (isMissing c layer ids) := by
    obtain ⟨h1, h2, h3, h4, h5⟩ := hselects
    rw [← hconfig] at h2 h3 h4 h5
    exact ⟨h1, h2, h3, h4, h5⟩
  have hperm := fetchOrder_perm c layer (missing c layer ids)
  have hturns := fetchTurns_eq (nodup_eraseDups _ _ le_rfl)
    (min ((missing c layer ids).length : Int) n).toNat 0 _ hsync hselects' (by
      rw [hperm.length_eq]
      omega)
  rw [hfetched, List.drop_zero] at hturns
  dsimp only at hturns
  obtain ⟨hconfig', hnum⟩ := fetchLoop_frame _ _ _ _ hturns
  have hnumber : staged.numIndices = min ((missing c layer ids).length : Int) n := by
    rw [← hstaged]
    rfl
  rw [hconfig] at hconfig'
  rw [hnumber] at hnum
  rw [← hstaged, fetchLoop_activeMask] at hturns
  generalize fetchLoop (staging c layer ids (hitUsage c layer ids.eraseDups (c.step + 1))
    (missing c layer ids).length n) layer 0 ((fetchOrder c layer (missing c layer ids)).take
      (min ((missing c layer ids).length : Int) n).toNat) = loop at hturns hmirror
  cases loop with
  | error err => cases hturns
  | ok c' =>
      have hloop : ({ c' with
          activeMask := fun e => if e < c.config.numExperts then isActive ids e else c.activeMask e } :
            OffloadMoeCache Bank Row) = fetched := Except.ok.inj hturns
      rw [hmirror, bump_eq (by rwa [hconfig'])]
      have hflat : ∀ e, c'.flatId layer e = c.flatId layer e := by
        intro e
        unfold flatId
        rw [← hconfig', ← hloop]
      constructor
      · refine ⟨_, rfl, ?_⟩
        rw [← hloop]
        constructor
        case expertIds => exact List.map_congr_left fun e _ => by rw [hflat]
        all_goals unfold bumpRecency; dsimp only; split <;> rfl
      · intro hpos
        have hsame : (bumpRecency fetched layer ids.eraseDups).numIndices = fetched.numIndices := by
          unfold bumpRecency
          split <;> rfl
        rw [hsame, hnum, ← hcap]
        exact fetchCap_balanced _ maxFetch hpos (min_le_left _ _)

/-- One layer of experts before its first call, with a slot for each and one recency for all. -/
def coldCache (numExperts : Nat) (recency : Int) : OffloadMoeCache Unit Unit where
  config :=
    { numLayers := 1
      numExperts := numExperts
      quantFormat := .bf16
      prefillHitD2d := false
      hybridFetchByRecency := true
      hitD2dAvailable := false
      safeOffloadCopy := fun _ => false
      smallBank := fun _ => false
      bankSources := fun _ _ _ => () }
  cacheSize := numExperts
  prefillOverlap := false
  bankCaches := fun _ _ => ()
  slotForId := fun _ => none
  idOfSlot := fun _ => none
  usage := fun _ => 0
  step := 0
  activeMask := fun _ => false
  evictSlots := fun _ => 0
  srcIndices := fun _ => 0
  numIndices := 0
  numMissingFull := 0
  expertRecency := fun _ => recency
  pendingSrcLayer := none
  prefillBufferLayer := fun _ => none
  prefillBufferReleased := fun _ => true
  prefillHitD2dActive := false
  prefillSlotSnapshot := fun _ => none

theorem wf_coldCache (numExperts : Nat) (recency : Int) : WF (coldCache numExperts recency).slots where
  inverse := by
    intro k s
    constructor <;> intro h <;> cases h
  slot_lt := by
    intro k s h
    cases h
  usage_le := fun _ => Nat.le_refl 0

/-- A call with a duplicate, half of whose misses are fetched. -/
theorem hybridKernel_agrees_half :
    (∃ r, ensureExpertsHybrid (coldCache 4 (-1)) 0 [3, 1, 3, 0] 1 32768 = .ok r ∧
      SameResult r (ensureExpertsHybridGpu (coldCache 4 (-1)) 0 [3, 1, 3, 0] 1 32768)) ∧
      (0 < clampFraction 32768 → Balanced (missing (coldCache 4 (-1)) 0 [3, 1, 3, 0]).length
        (clampFraction 32768)
          (ensureExpertsHybridGpu (coldCache 4 (-1)) 0 [3, 1, 3, 0] 1 32768).1.numIndices) :=
  hybridKernel_agrees (wf_coldCache 4 (-1)) (Nat.le_refl 4) (by decide) 1 32768 (by decide)
    (by decide) (by decide) (by decide)

theorem missing_coldCache (m : Nat) (recency : Int) :
    (missing (coldCache m recency) 0 (List.range m)).length = m := by
  have hids : ∀ i ∈ List.range m, i < (coldCache m recency).config.numExperts :=
    fun i hi => List.mem_range.1 hi
  apply le_antisymm (missing_length_le hids)
  have hsub : List.range m ⊆ missing (coldCache m recency) 0 (List.range m) := by
    intro e he
    exact List.mem_filter.2 ⟨List.mem_eraseDups.2 he, rfl⟩
  have hle := (List.subperm_of_subset List.nodup_range hsub).length_le
  rwa [List.length_range] at hle

/-- A call of the mirror on all experts of a cold layer. -/
theorem numIndices_coldCache (m : Nat) (recency maxFetch fetchFraction : Int)
    {r : OffloadMoeCache Unit Unit × List (Option Nat)}
    (h : ensureExpertsHybrid (coldCache m recency) 0 (List.range m) maxFetch fetchFraction = .ok r) :
    r.1.numIndices = min (m : Int) (fetchCap m maxFetch (clampFraction fetchFraction)) := by
  rw [ensureExpertsHybrid_eq _ _ _ _ _ rfl, missing_coldCache] at h
  generalize hloop : fetchLoop _ _ _ _ = loop at h
  cases loop with
  | error err => cases h
  | ok c' =>
      cases h
      obtain ⟨-, hnum⟩ := fetchLoop_frame _ _ _ _ hloop
      obtain ⟨recencies, hbump⟩ := bumpRecency_eq c' 0 (List.range m).eraseDups
      show (bumpRecency c' 0 (List.range m).eraseDups).numIndices = _
      rw [hbump]
      exact hnum

/-- A call of the kernel whose count comes out negative. -/
theorem numIndices_coldCache_gpu (m : Nat) (recency maxFetch fetchFraction : Int)
    (hneg : min (wrap32 m) (cap (wrap32 m) maxFetch (clampFraction fetchFraction)) ≤ 0) :
    (ensureExpertsHybridGpu (coldCache m recency) 0 (List.range m) maxFetch fetchFraction).1.numIndices
      = min (wrap32 m) (cap (wrap32 m) maxFetch (clampFraction fetchFraction)) := by
  have hids : ∀ i ∈ List.range m, i < (coldCache m recency).config.numExperts :=
    fun i hi => List.mem_range.1 hi
  have hcount : numMissing { coldCache m recency with pendingSrcLayer := some 0 } 0 (List.range m) =
      wrap32 m := by
    show numMissing (coldCache m recency) 0 (List.range m) = _
    rw [numMissing_wrap hids, missing_coldCache]
  unfold ensureExpertsHybridGpu
  dsimp only
  rw [hcount, if_neg (not_lt.2 hneg)]
  unfold bump
  split <;> rfl

/-- The kernel and its mirror give different results on a coherent state. -/
def Diverges (c : OffloadMoeCache Unit Unit) (ids : List Nat) (maxFetch fetchFraction : Int) : Prop :=
  WF c.slots ∧ c.config.numExperts ≤ c.cacheSize ∧ (∀ i ∈ ids, i < c.config.numExperts) ∧
    ∀ r, ensureExpertsHybrid c 0 ids maxFetch fetchFraction = .ok r →
      ¬ SameResult r (ensureExpertsHybridGpu c 0 ids maxFetch fetchFraction)

/-- A recency below all scores, one whose score overflows, and so many misses that their product with
the fraction overflows. -/
theorem hybridKernel_diverges :
    Diverges (coldCache 2 (-1152921504606846976)) [1] 1 0 ∧
      Diverges (coldCache 2 4611686018427387904) [1] 1 0 ∧
      Diverges (coldCache 32768 (-1)) (List.range 32768) 1 65536 := by
  refine ⟨⟨wf_coldCache _ _, Nat.le_refl _, by decide, ?_⟩,
    ⟨wf_coldCache _ _, Nat.le_refl _, by decide, ?_⟩,
    ⟨wf_coldCache _ _, Nat.le_refl _, fun i hi => List.mem_range.1 hi, ?_⟩⟩
  · intro r hr h
    cases hr
    exact absurd (congrFun h.slotForId 1) (by decide)
  · intro r hr h
    cases hr
    exact absurd (congrFun h.slotForId 1) (by decide)
  · intro r hr h
    have hmirror := numIndices_coldCache 32768 (-1) 1 65536 hr
    have hkernel := numIndices_coldCache_gpu 32768 (-1) 1 65536 (by decide)
    rw [h.numIndices, hkernel] at hmirror
    exact absurd hmirror (by decide)

end OffloadMoeCache

end FreeToken
