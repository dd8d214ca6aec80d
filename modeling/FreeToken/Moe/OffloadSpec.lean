import FreeToken.Moe.OffloadCache

/-!
# What each operation of the expert slot cache keeps

The slot map of the code is a slot cache of the library.  Between an ensure and its copy the staged
slots wait for their rows; every other resident expert has the rows of its layer.
-/

set_option autoImplicit false

namespace FreeToken

open Function SlotCache

namespace OffloadMoeCache

variable {Bank Row : Type} {c : OffloadMoeCache Bank Row}

def slots (c : OffloadMoeCache Bank Row) : Slots Nat :=
  { slotOf := c.slotForId
    keyOf := c.idOfSlot
    usage := c.usage
    clock := c.step
    size := c.cacheSize }

/-- The slot holds the host rows of the expert. -/
def HoldsRows (c : OffloadMoeCache Bank Row) (slot id : Nat) : Prop :=
  ∀ b, c.bankCaches b slot =
    c.config.bankSources b (id / c.config.numExperts) (id % c.config.numExperts)

structure Mapped (c : OffloadMoeCache Bank Row) : Prop where
  floor : c.config.numExperts ≤ c.cacheSize
  overlap : c.prefillOverlap = true → 2 * c.config.numExperts ≤ c.cacheSize
  map : WF c.slots
  id_lt : ∀ s id, c.idOfSlot s = some id → id < c.config.numLayers * c.config.numExperts

/-- The map is consistent and every resident expert's slot holds its rows. -/
structure Coherent (c : OffloadMoeCache Bank Row) : Prop extends Mapped c where
  rows : ∀ s id, c.idOfSlot s = some id → c.HoldsRows s id

/-- The copies of `layer` the state waits for. -/
structure Staged (c : OffloadMoeCache Bank Row) (layer : Nat) : Prop extends Mapped c where
  pending : c.pendingSrcLayer = some layer
  count : c.numIndices ≤ c.config.numExperts
  nodup : ((c.stagedRows).map Prod.snd).Nodup
  resident : ∀ p ∈ c.stagedRows, p.2 < c.config.numExperts ∧
    c.idOfSlot p.1 = some (c.flatId layer p.2)
  rows : ∀ s id, c.idOfSlot s = some id → (∀ p ∈ c.stagedRows, p.1 ≠ s) → c.HoldsRows s id

theorem Mapped.inverse (h : Mapped c) (id s : Nat) :
    c.slotForId id = some s ↔ c.idOfSlot s = some id := h.map.inverse id s

theorem Mapped.slot_lt (h : Mapped c) {s id : Nat} (hs : c.idOfSlot s = some id) :
    s < c.cacheSize := h.map.slot_lt id s hs

theorem flatId_inj {layer e e' : Nat} (h : c.flatId layer e = c.flatId layer e') : e = e' :=
  Nat.add_left_cancel h

theorem flatId_div {layer e : Nat} (he : e < c.config.numExperts) :
    c.flatId layer e / c.config.numExperts = layer := by
  unfold flatId
  rw [Nat.add_comm, Nat.add_mul_div_right _ _ (Nat.zero_lt_of_lt he), Nat.div_eq_of_lt he,
    Nat.zero_add]

theorem flatId_mod {layer e : Nat} (he : e < c.config.numExperts) :
    c.flatId layer e % c.config.numExperts = e := by
  unfold flatId
  rw [Nat.add_comm, Nat.add_mul_mod_self_right, Nat.mod_eq_of_lt he]

theorem flatId_lt {layer e : Nat} (hl : layer < c.config.numLayers) (he : e < c.config.numExperts) :
    c.flatId layer e < c.config.numLayers * c.config.numExperts :=
  calc
    c.flatId layer e < layer * c.config.numExperts + c.config.numExperts := by
      unfold flatId
      omega
    _ = (layer + 1) * c.config.numExperts := (Nat.succ_mul _ _).symm
    _ ≤ c.config.numLayers * c.config.numExperts := Nat.mul_le_mul_right _ hl

/-! ## The staged copy -/

theorem copyRows_row (c : OffloadMoeCache Bank Row) (layer : Nat) (plan : List (Nat × Nat))
    (b : Bank) (s : Nat) :
    ((copyRows c layer plan).bankCaches b s = c.bankCaches b s ∧ ∀ p ∈ plan, p.1 ≠ s) ∨
      ∃ p ∈ plan, p.1 = s ∧
        (copyRows c layer plan).bankCaches b s = c.config.bankSources b layer p.2 :=
  foldl_update (c.config.bankSources b layer) plan (c.bankCaches b) s

theorem Staged.coherent_copyRows {layer : Nat} (h : Staged c layer) :
    Coherent (copyRows c layer c.stagedRows) := by
  refine ⟨⟨h.floor, h.overlap, h.map, h.id_lt⟩, fun s id hs b => ?_⟩
  rcases copyRows_row c layer c.stagedRows b s with ⟨hrow, hno⟩ | ⟨p, hp, rfl, hrow⟩
  · rw [hrow]
    exact h.rows s id hs hno b
  · obtain ⟨hlt, hid⟩ := h.resident p hp
    obtain rfl : id = c.flatId layer p.2 := Option.some.inj (Eq.trans hs.symm hid)
    rw [hrow]
    change _ = c.config.bankSources b (c.flatId layer p.2 / c.config.numExperts)
      (c.flatId layer p.2 % c.config.numExperts)
    rw [flatId_div hlt, flatId_mod hlt]

/-- Two staged rows of one slot are the same expert's. -/
theorem Staged.nodup_slots {layer : Nat} (h : Staged c layer) :
    ((c.stagedRows).map Prod.fst).Nodup := by
  have hnd : c.stagedRows.Nodup := List.Nodup.of_map _ h.nodup
  refine hnd.map_on fun p hp q hq hpq => ?_
  have hp' := (h.resident p hp).2
  have hq' := (h.resident q hq).2
  rw [hpq] at hp'
  have he : p.2 = q.2 := flatId_inj (Option.some.inj (hp'.symm.trans hq'))
  exact Prod.ext hpq he

theorem forIn_checks {α : Type} (ps : List α) (f : α → PUnit → Py (ForInStep PUnit))
    (hf : ∀ p ∈ ps, f p ⟨⟩ = .ok (.yield ⟨⟩)) :
    forIn ps PUnit.unit f = (.ok ⟨⟩ : Py PUnit) := by
  induction ps with
  | nil => rfl
  | cons p ps ih =>
      rw [List.forIn_cons, hf p (by simp)]
      exact ih fun q hq => hf q (List.mem_cons_of_mem _ hq)

/-- The checks of the safe path pass on every staged plan of a nonnegative count. -/
theorem Staged.safeCopyPlan {layer : Nat} (h : Staged c layer) (hcount : 0 ≤ c.numIndices) :
    safeCopyPlan c = .ok c.stagedRows := by
  have hrange : ¬(c.numIndices < 0 ∨ (c.config.numExperts : Int) < c.numIndices) := by
    have := h.count
    omega
  unfold OffloadMoeCache.safeCopyPlan
  rw [if_neg hrange]
  dsimp only
  rw [forIn_checks]
  · simp only [h.nodup_slots, not_true, if_false]
    rfl
  · intro p hp
    obtain ⟨hlt, hid⟩ := h.resident p hp
    have hslot := h.slot_lt hid
    simp only [if_neg (Nat.not_le.2 hlt), if_neg (Nat.not_le.2 hslot)]
    rfl

theorem stagedRows_of_neg (h : c.numIndices < 0) : c.stagedRows = [] := by
  unfold stagedRows
  rw [Int.toNat_of_nonpos h.le]
  rfl

/-- The copy that follows: it can only raise on the safe path, when nothing is staged. -/
theorem Staged.copyMissing {layer : Nat} (h : Staged c layer) :
    copyMissing c = .ok (copyRows c layer c.stagedRows) ∨
      (∃ e, copyMissing c = .error e) ∧ c.numIndices < 0 ∧
        c.config.safeOffloadCopy layer = true := by
  unfold OffloadMoeCache.copyMissing
  rw [h.pending]
  dsimp only
  by_cases hsafe : c.config.safeOffloadCopy layer = true
  · rw [if_pos hsafe]
    by_cases hcount : 0 ≤ c.numIndices
    · rw [h.safeCopyPlan hcount]
      exact .inl rfl
    · refine .inr ⟨?_, by omega, hsafe⟩
      unfold OffloadMoeCache.safeCopyPlan
      rw [if_pos (.inl (by omega))]
      exact ⟨_, rfl⟩
  · rw [if_neg hsafe]
    exact .inl rfl

/-- Nothing is staged, so nothing is missing. -/
theorem Staged.coherent_of_neg {layer : Nat} (h : Staged c layer) (hneg : c.numIndices < 0) :
    Coherent c := by
  refine ⟨h.toMapped, fun s id hs => h.rows s id hs ?_⟩
  rw [stagedRows_of_neg hneg]
  intro p hp
  cases hp

/-! ## The hybrid ensure -/

/-- The flat ids of the experts of a call. -/
def idsOf (c : OffloadMoeCache Bank Row) (layer : Nat) (experts : List Nat) : List Nat :=
  experts.map (c.flatId layer)

theorem mem_idsOf {layer e : Nat} {experts : List Nat} :
    c.flatId layer e ∈ c.idsOf layer experts ↔ e ∈ experts := by
  unfold idsOf
  rw [List.mem_map]
  constructor
  · rintro ⟨e', he', heq⟩
    exact flatId_inj heq ▸ he'
  · exact fun he => ⟨e, he, rfl⟩

theorem stampHits_eq (c : OffloadMoeCache Bank Row) (layer : Nat) (seen : List Nat) :
    (∃ u, stampHits c layer seen = { c with usage := u }) ∧
      (stampHits c layer seen).slots =
        (c.idsOf layer seen).foldl (fun d k =>
          match d.slotOf k with
          | some s => { d with usage := update d.usage s d.clock }
          | none => d) c.slots := by
  induction seen using List.reverseRecOn with
  | nil => exact ⟨⟨c.usage, rfl⟩, rfl⟩
  | append_singleton seen e ih =>
      obtain ⟨⟨u, hframe⟩, hslots⟩ := ih
      have hstep : stampHits c layer (seen ++ [e]) =
          match (stampHits c layer seen).slotForId ((stampHits c layer seen).flatId layer e) with
          | some slot => { stampHits c layer seen with
              usage := update (stampHits c layer seen).usage slot (stampHits c layer seen).step }
          | none => stampHits c layer seen := by
        unfold stampHits
        rw [List.foldl_append]
        rfl
      unfold idsOf at hslots ⊢
      rw [List.map_append, List.foldl_append, ← hslots, hstep]
      have hid : (stampHits c layer seen).flatId layer e = c.flatId layer e := by
        rw [hframe]
        rfl
      rw [hid]
      simp only [List.map_cons, List.map_nil, List.foldl_cons, List.foldl_nil]
      have hfield : (stampHits c layer seen).slots.slotOf (c.flatId layer e) =
          (stampHits c layer seen).slotForId (c.flatId layer e) := rfl
      rw [hfield]
      cases (stampHits c layer seen).slotForId (c.flatId layer e) with
      | none => exact ⟨⟨u, hframe⟩, rfl⟩
      | some slot =>
          refine ⟨⟨update u slot c.step, ?_⟩, rfl⟩
          rw [hframe]

/-- The stamps with those of the hits on the experts `seen`. -/
def hitUsage (c : OffloadMoeCache Bank Row) (layer : Nat) (seen : List Nat) (now s : Nat) : Nat :=
  if ∃ e ∈ seen, c.slotForId (c.flatId layer e) = some s then now else c.usage s

theorem stampHits_usage (c : OffloadMoeCache Bank Row) (layer : Nat) (seen : List Nat) :
    stampHits c layer seen = { c with usage := hitUsage c layer seen c.step } := by
  induction seen using List.reverseRecOn with
  | nil =>
      have hnone : hitUsage c layer [] c.step = c.usage := by
        funext s
        simp [hitUsage]
      rw [hnone]
      rfl
  | append_singleton seen e ih =>
      have hstep : stampHits c layer (seen ++ [e]) =
          match (stampHits c layer seen).slotForId ((stampHits c layer seen).flatId layer e) with
          | some slot => { stampHits c layer seen with
              usage := update (stampHits c layer seen).usage slot (stampHits c layer seen).step }
          | none => stampHits c layer seen := by
        unfold stampHits
        rw [List.foldl_append]
        rfl
      rw [hstep, ih]
      show (match c.slotForId (c.flatId layer e) with
        | some slot => { c with usage := update (hitUsage c layer seen c.step) slot c.step }
        | none => { c with usage := hitUsage c layer seen c.step }) = _
      cases hslot : c.slotForId (c.flatId layer e) with
      | none =>
          dsimp only
          congr 1
          funext s
          simp [hitUsage, or_and_right, exists_or, hslot]
      | some slot =>
          dsimp only
          congr 1
          funext s
          by_cases hs : s = slot
          · simp [hitUsage, or_and_right, exists_or, hslot, hs]
          · rw [update_of_ne hs]
            simp [hitUsage, or_and_right, exists_or, hslot, Ne.symm hs]

/-- Turn `idx` of the fetch loop on a cache with an idle slot. -/
theorem fetchExpert_spec (layer idx e : Nat) {v : Nat} (hv : victim c.slots = some v) :
    ∃ c', fetchExpert c layer idx e = .ok c' ∧ c'.slots = fetch c.slots (c.flatId layer e) v ∧
      c' = { c with
        slotForId := c'.slotForId
        idOfSlot := c'.idOfSlot
        usage := c'.usage
        evictSlots := update c.evictSlots idx v
        srcIndices := update c.srcIndices idx e } := by
  unfold fetchExpert
  have hargmin : (List.range c.cacheSize).argmin c.usage = some v := hv
  rw [hargmin]
  refine ⟨_, rfl, ?_, rfl⟩
  unfold fetch unmap slots
  dsimp only
  cases c.idOfSlot v <;> rfl

/-- What a turn of the fetch loop does with a miss `e` of a call on the experts `seen`. -/
structure Turned (c : OffloadMoeCache Bank Row) (layer : Nat) (seen : List Nat) (idx e v : Nat)
    (c' : OffloadMoeCache Bank Row) : Prop where
  run : fetchExpert c layer idx e = .ok c'
  victim : victim c.slots = some v
  idle : c.usage v < c.step
  frame : c' = { c with
    slotForId := c'.slotForId
    idOfSlot := c'.idOfSlot
    usage := c'.usage
    evictSlots := update c.evictSlots idx v
    srcIndices := update c.srcIndices idx e }
  slots : c'.slots = fetch c.slots (c.flatId layer e) v
  map : WF c'.slots
  inUse : InUse c'.slots (c'.idsOf layer seen)
  kept : ∀ a ∈ seen, a ≠ e → c'.slotForId (c.flatId layer a) = c.slotForId (c.flatId layer a)

/-- A call has a slot for each of its misses. -/
theorem fetchExpert_turn {layer : Nat} {seen : List Nat} (hseen : seen.Nodup)
    (hlen : seen.length ≤ c.cacheSize) (hmap : WF c.slots)
    (huse : InUse c.slots (c.idsOf layer seen)) {e : Nat} (hes : e ∈ seen)
    (hnone : c.slotForId (c.flatId layer e) = none) (idx : Nat) :
    ∃ v c', Turned c layer seen idx e v c' := by
  have hids : (c.idsOf layer seen).Nodup := hseen.map fun _ _ => flatId_inj
  have hidlen : (c.idsOf layer seen).length ≤ c.slots.size := by
    unfold idsOf
    rw [List.length_map]
    exact hlen
  -- an idle slot is left, since the expert itself has none
  obtain ⟨s, hs, hidle⟩ := huse.exists_idle hmap hids hidlen (mem_idsOf.2 hes) hnone
  obtain ⟨v, hv, hvlt, hvidle⟩ := victim_spec hs hidle
  obtain ⟨c₁, hrun, hslots, hframe⟩ := fetchExpert_spec layer idx e hv
  have hidseq : c₁.idsOf layer seen = c.idsOf layer seen := by
    rw [hframe]
    rfl
  refine ⟨v, c₁, hrun, hv, hvidle, hframe, hslots, ?_, ?_, ?_⟩
  · rw [hslots]
    exact hmap.fetch hvlt hnone
  · rw [hslots, hidseq]
    exact huse.fetch hmap (mem_idsOf.2 hes)
  · intro a ha hae
    have hne : c.flatId layer a ≠ c.flatId layer e := fun heq => hae (flatId_inj heq)
    show c₁.slots.slotOf (c.flatId layer a) = _
    rw [hslots]
    cases hr : c.slotForId (c.flatId layer a) with
    | some t => exact fetch_keeps hmap huse hvidle (mem_idsOf.2 ha) hr hne
    | none =>
        unfold fetch
        dsimp only
        rw [update_of_ne hne]
        cases hu : unmap c.slots v (c.flatId layer a) with
        | none => rfl
        | some t =>
            have := (hmap.unmap_eq.1 hu).1
            rw [show c.slots.slotOf (c.flatId layer a) = none from hr] at this
            cases this

/-- What the fetch loop does from turn `idx` on with the misses `l` of a call on the experts
`seen`. -/
structure Fetched (c : OffloadMoeCache Bank Row) (layer : Nat) (seen : List Nat) (idx : Nat)
    (l : List Nat) (c' : OffloadMoeCache Bank Row) : Prop where
  frame : c' = { c with
    slotForId := c'.slotForId
    idOfSlot := c'.idOfSlot
    usage := c'.usage
    evictSlots := c'.evictSlots
    srcIndices := c'.srcIndices }
  map : WF c'.slots
  before : ∀ k < idx, c'.evictSlots k = c.evictSlots k ∧ c'.srcIndices k = c.srcIndices k
  placed : ∀ j (hj : j < l.length), c'.srcIndices (idx + j) = l[j] ∧
    c'.slotForId (c.flatId layer l[j]) = some (c'.evictSlots (idx + j))
  kept : ∀ e ∈ seen, e ∉ l → c'.slotForId (c.flatId layer e) = c.slotForId (c.flatId layer e)
  resident : ∀ s id, c'.idOfSlot s = some id → c.idOfSlot s = some id ∨
    ∃ j < l.length, c'.evictSlots (idx + j) = s

theorem fetchLoop_spec {layer : Nat} {seen : List Nat} (hseen : seen.Nodup) :
    ∀ (l : List Nat) (idx : Nat) (c : OffloadMoeCache Bank Row), l.Nodup → seen.length ≤ c.cacheSize →
      (∀ e ∈ l, e ∈ seen ∧ c.slotForId (c.flatId layer e) = none) → WF c.slots →
      InUse c.slots (c.idsOf layer seen) →
      ∃ c', fetchLoop c layer idx l = .ok c' ∧ Fetched c layer seen idx l c' := by
  intro l
  induction l with
  | nil =>
      intro idx c _ _ _ hmap _
      refine ⟨c, rfl, rfl, hmap, fun k _ => ⟨rfl, rfl⟩, ?_, fun e _ _ => rfl, ?_⟩
      · intro j hj
        exact absurd hj (Nat.not_lt_zero j)
      · exact fun s id hs => .inl hs
  | cons e l ih =>
      intro idx c hnd hlen hmiss hmap huse
      obtain ⟨hel, hnd'⟩ := List.nodup_cons.1 hnd
      obtain ⟨hes, hnone⟩ := hmiss e (by simp)
      obtain ⟨v, c₁, hturn⟩ := fetchExpert_turn hseen hlen hmap huse hes hnone idx
      have hframe := hturn.frame
      have hslot : ∀ id, c₁.slotForId id = (fetch c.slots (c.flatId layer e) v).slotOf id := by
        intro id
        rw [← hturn.slots]
        rfl
      have hflat : ∀ a, c₁.flatId layer a = c.flatId layer a := by
        intro a
        rw [hframe]
        rfl
      have hevict : c₁.evictSlots = update c.evictSlots idx v := by
        rw [hframe]
      have hsrc : c₁.srcIndices = update c.srcIndices idx e := by
        rw [hframe]
      have hsize : c₁.cacheSize = c.cacheSize := by
        rw [hframe]
      have hmiss₁ : ∀ a ∈ l, a ∈ seen ∧ c₁.slotForId (c₁.flatId layer a) = none := by
        intro a ha
        obtain ⟨has, hnone'⟩ := hmiss a (List.mem_cons_of_mem _ ha)
        rw [hflat, hturn.kept a has fun heq => hel (heq ▸ ha)]
        exact ⟨has, hnone'⟩
      obtain ⟨c', hrun', hf⟩ := ih (idx + 1) c₁ hnd' (by rw [hsize]; exact hlen) hmiss₁
        hturn.map hturn.inUse
      refine ⟨c', ?_, ?_, hf.map, ?_, ?_, ?_, ?_⟩
      · unfold fetchLoop
        rw [hturn.run]
        exact hrun'
      · rw [hf.frame, hframe]
      · intro k hk
        obtain ⟨h1, h2⟩ := hf.before k (by omega)
        rw [h1, h2, hevict, hsrc, update_of_ne (by omega), update_of_ne (by omega)]
        exact ⟨rfl, rfl⟩
      · intro j hj
        cases j with
        | zero =>
            obtain ⟨h1, h2⟩ := hf.before idx (Nat.lt_succ_self idx)
            rw [Nat.add_zero, h1, h2, hevict, hsrc, update_self, update_self]
            refine ⟨rfl, ?_⟩
            have hkept := hf.kept e hes hel
            rw [hflat, hslot] at hkept
            rw [List.getElem_cons_zero, hkept]
            unfold fetch
            dsimp only
            rw [update_self]
        | succ j =>
            obtain ⟨h1, h2⟩ := hf.placed j (by simpa using hj)
            rw [hflat] at h2
            rw [List.getElem_cons_succ, show idx + (j + 1) = idx + 1 + j by omega]
            exact ⟨h1, h2⟩
      · intro a ha hal
        have hae : a ≠ e := fun heq => hal (heq ▸ List.mem_cons_self)
        have hkept := hf.kept a ha fun hal' => hal (List.mem_cons_of_mem _ hal')
        rw [hflat] at hkept
        rw [hkept]
        exact hturn.kept a ha hae
      · intro s id hsid
        rcases hf.resident s id hsid with h1 | ⟨j, hj, hjs⟩
        · have hkey : c₁.idOfSlot s = (fetch c.slots (c.flatId layer e) v).keyOf s := by
            rw [← hturn.slots]
            rfl
          by_cases hsv : s = v
          · refine .inr ⟨0, by simp, ?_⟩
            rw [Nat.add_zero, (hf.before idx (Nat.lt_succ_self idx)).1, hevict, update_self, hsv]
          · rw [hkey] at h1
            unfold fetch at h1
            dsimp only at h1
            rw [update_of_ne hsv] at h1
            exact .inl h1
        · exact .inr ⟨j + 1, by simpa using hj, by rw [← hjs]; congr 1; omega⟩

/-- The rows a fetch loop staged are those of its misses, in order. -/
theorem Fetched.stagedRows {layer : Nat} {seen l : List Nat} {c' : OffloadMoeCache Bank Row}
    (h : Fetched c layer seen 0 l c') (hn : c.numIndices.toNat = l.length) :
    c'.stagedRows.map Prod.snd = l ∧
      ∀ p ∈ c'.stagedRows, p.2 ∈ l ∧ c'.slotForId (c.flatId layer p.2) = some p.1 := by
  have hnum : c'.numIndices = c.numIndices := by
    rw [h.frame]
  unfold OffloadMoeCache.stagedRows
  rw [hnum, hn, List.map_map]
  constructor
  · refine List.ext_getElem (by simp) fun j hj hj' => ?_
    have hplaced := (h.placed j hj').1
    rw [Nat.zero_add] at hplaced
    simpa using hplaced
  · intro p hp
    obtain ⟨j, hj, rfl⟩ := List.mem_map.1 hp
    have hjl : j < l.length := List.mem_range.1 hj
    obtain ⟨hsrc, hslot⟩ := h.placed j hjl
    rw [Nat.zero_add] at hsrc hslot
    dsimp only
    rw [hsrc]
    exact ⟨List.getElem_mem hjl, hslot⟩

theorem nodup_eraseDups : ∀ (n : Nat) (l : List Nat), l.length ≤ n → l.eraseDups.Nodup := by
  intro n
  induction n with
  | zero =>
      intro l hl
      rw [List.length_eq_zero_iff.1 (Nat.le_zero.1 hl)]
      exact List.nodup_nil
  | succ n ih =>
      intro l hl
      cases l with
      | nil => exact List.nodup_nil
      | cons a l =>
          rw [List.eraseDups_cons]
          refine List.nodup_cons.2 ⟨?_, ih _ ?_⟩
          · rw [List.mem_eraseDups]
            intro hmem
            simpa using (List.mem_filter.1 hmem).2
          · exact (List.length_filter_le _ _).trans (Nat.le_of_succ_le_succ hl)

theorem fetchOrder_perm (c : OffloadMoeCache Bank Row) (layer : Nat) (l : List Nat) :
    (fetchOrder c layer l).Perm l := by
  unfold fetchOrder
  split
  · exact List.perm_insertionSort _ l
  · exact List.perm_insertionSort _ l

/-- What one call on `expertIds` with the fetch cap `cap` answers and changes. -/
structure Ensured (c : OffloadMoeCache Bank Row) (layer : Nat) (expertIds : List Nat) (cap : Int)
    (c' : OffloadMoeCache Bank Row) (out : List (Option Nat)) : Prop where
  names : List.Forall₂ (fun e slot => ∀ s, slot = some s → c'.idOfSlot s = some (c.flatId layer e))
    expertIds out
  capped : (c'.stagedRows.length : Int) ≤ max 0 cap
  fetched : ∀ p ∈ c'.stagedRows, p.2 ∈ expertIds ∧ c.slotForId (c.flatId layer p.2) = none ∧
    c'.slotForId (c.flatId layer p.2) = some p.1
  kept : ∀ e ∈ expertIds, ∀ s, c.slotForId (c.flatId layer e) = some s →
    c'.slotForId (c.flatId layer e) = some s
  overflow : ∀ e ∈ expertIds, c.slotForId (c.flatId layer e) = none →
    (∀ p ∈ c'.stagedRows, p.2 ≠ e) → c'.slotForId (c.flatId layer e) = none

/-- The state the fetch loop of a call starts from. -/
def staging (c : OffloadMoeCache Bank Row) (layer : Nat) (expertIds : List Nat) (usage : Nat → Nat)
    (misses : Nat) (cap : Int) : OffloadMoeCache Bank Row :=
  { c with
    pendingSrcLayer := some layer
    activeMask := fun e => decide (e ∈ expertIds.eraseDups)
    step := c.step + 1
    usage := usage
    numMissingFull := misses
    numIndices := min (misses : Int) cap }

/-- A call stamps its hits, fetches its misses up to the cap and bumps the recencies. -/
theorem ensureExpertsHybrid_eq (c : OffloadMoeCache Bank Row) (layer : Nat) (expertIds : List Nat)
    (maxFetch fetchFraction : Int) {cap : Int}
    (hcap : fetchCap (missing c layer expertIds).length maxFetch (clampFraction fetchFraction) =
      cap) :
    ensureExpertsHybrid c layer expertIds maxFetch fetchFraction =
      (fetchLoop (staging c layer expertIds (hitUsage c layer expertIds.eraseDups (c.step + 1))
          (missing c layer expertIds).length cap) layer 0
        ((fetchOrder c layer (missing c layer expertIds)).take
          (min ((missing c layer expertIds).length : Int) cap).toNat)).map
        fun c' => (bumpRecency c' layer expertIds.eraseDups,
          expertIds.map fun e => c'.slotForId (c'.flatId layer e)) := by
  have hlen : (fetchOrder c layer (missing c layer expertIds)).length =
      (missing c layer expertIds).length := (fetchOrder_perm c layer _).length_eq
  have hbump : ∀ (c' : OffloadMoeCache Bank Row) (e : Nat),
      (bumpRecency c' layer expertIds.eraseDups).slotForId
        ((bumpRecency c' layer expertIds.eraseDups).flatId layer e) =
          c'.slotForId (c'.flatId layer e) := by
    intro c' e
    unfold bumpRecency
    split <;> rfl
  unfold ensureExpertsHybrid
  dsimp only
  rw [stampHits_usage]
  change (fetchLoop (staging c layer expertIds (hitUsage c layer expertIds.eraseDups (c.step + 1))
    (fetchOrder c layer (missing c layer expertIds)).length
    (fetchCap (fetchOrder c layer (missing c layer expertIds)).length maxFetch
      (clampFraction fetchFraction))) layer 0 ((fetchOrder c layer (missing c layer expertIds)).take
        (min ((fetchOrder c layer (missing c layer expertIds)).length : Int)
          (fetchCap (fetchOrder c layer (missing c layer expertIds)).length maxFetch
            (clampFraction fetchFraction))).toNat) >>= _) = _
  rw [hlen, hcap]
  cases fetchLoop (staging c layer expertIds (hitUsage c layer expertIds.eraseDups (c.step + 1))
      (missing c layer expertIds).length cap) layer 0
        ((fetchOrder c layer (missing c layer expertIds)).take
          (min ((missing c layer expertIds).length : Int) cap).toNat) with
  | error e => rfl
  | ok c' =>
      exact congrArg (fun out => Except.ok (bumpRecency c' layer expertIds.eraseDups, out))
        (List.map_congr_left fun e _ => hbump c' e)

/-- The state the fetch loop starts from is well formed, with the slots of the hits in use. -/
theorem staging_inUse (hmap : WF c.slots) (layer : Nat) (expertIds : List Nat) (misses : Nat)
    (cap : Int) :
    WF (staging c layer expertIds (hitUsage c layer expertIds.eraseDups (c.step + 1)) misses
        cap).slots ∧
      InUse (staging c layer expertIds (hitUsage c layer expertIds.eraseDups (c.step + 1)) misses
        cap).slots (c.idsOf layer expertIds.eraseDups) := by
  obtain ⟨-, hslots⟩ := stampHits_eq { c with step := c.step + 1 } layer expertIds.eraseDups
  have htouch : (stampHits { c with step := c.step + 1 } layer expertIds.eraseDups).slots =
      touch c.slots (c.idsOf layer expertIds.eraseDups) := hslots
  rw [stampHits_usage] at htouch
  have hwf := hmap.touch (c.idsOf layer expertIds.eraseDups)
  have huse := hmap.inUse_touch (c.idsOf layer expertIds.eraseDups)
  rw [← htouch] at hwf huse
  exact ⟨hwf, huse⟩

theorem seen_length_le (hfloor : c.config.numExperts ≤ c.cacheSize) {expertIds : List Nat}
    (hids : ∀ e ∈ expertIds, e < c.config.numExperts) :
    expertIds.eraseDups.length ≤ c.cacheSize := by
  refine le_trans ?_ hfloor
  have hsub : expertIds.eraseDups ⊆ List.range c.config.numExperts := by
    intro e he
    exact List.mem_range.2 (hids e (List.mem_eraseDups.1 he))
  simpa using (List.subperm_of_subset (nodup_eraseDups _ _ le_rfl) hsub).length_le

/-- A call fetches some of its misses, at most the cap, and bumps the recencies. -/
theorem ensureExpertsHybrid_loop (h : Coherent c) (layer : Nat) {expertIds : List Nat}
    (hids : ∀ e ∈ expertIds, e < c.config.numExperts) (maxFetch fetchFraction : Int) {cap : Int}
    (hcap : fetchCap (missing c layer expertIds).length maxFetch (clampFraction fetchFraction) =
      cap) :
    ∃ u l c', Fetched (staging c layer expertIds u (missing c layer expertIds).length cap) layer
        expertIds.eraseDups 0 l c' ∧ l.Nodup ∧
        (min ((missing c layer expertIds).length : Int) cap).toNat = l.length ∧
        (∀ e ∈ l, e ∈ expertIds ∧ c.slotForId (c.flatId layer e) = none) ∧
        ensureExpertsHybrid c layer expertIds maxFetch fetchFraction =
          .ok (bumpRecency c' layer expertIds.eraseDups,
            expertIds.map fun e => c'.slotForId (c'.flatId layer e)) := by
  obtain ⟨hwf, huse⟩ := staging_inUse h.map layer expertIds (missing c layer expertIds).length cap
  have heq := ensureExpertsHybrid_eq c layer expertIds maxFetch fetchFraction hcap
  generalize hu : hitUsage c layer expertIds.eraseDups (c.step + 1) = u at hwf huse heq
  -- the misses are fetched in their order, up to the cap
  have hseen : expertIds.eraseDups.Nodup := nodup_eraseDups _ _ le_rfl
  have hperm := fetchOrder_perm c layer (missing c layer expertIds)
  generalize fetchOrder c layer (missing c layer expertIds) = order at hperm heq
  have hlen : order.length = (missing c layer expertIds).length := hperm.length_eq
  have hordnd : order.Nodup := (hperm.nodup_iff).2 (hseen.filter _)
  have hordmem : ∀ e ∈ order, e ∈ expertIds.eraseDups ∧ c.slotForId (c.flatId layer e) = none := by
    intro e he
    have := hperm.mem_iff.1 he
    unfold missing at this
    simpa using List.mem_filter.1 this
  generalize hn : (min ((missing c layer expertIds).length : Int) cap).toNat = n at heq ⊢
  have hnum : n = (order.take n).length := by
    rw [List.length_take, hlen]
    omega
  obtain ⟨c₃, hrun, hf⟩ := fetchLoop_spec hseen (order.take n) 0
    (staging c layer expertIds u (missing c layer expertIds).length cap)
    (hordnd.sublist (List.take_sublist _ _)) (seen_length_le h.floor hids)
    (fun e he => hordmem e (List.mem_of_mem_take he)) hwf huse
  refine ⟨u, order.take n, c₃, hf, hordnd.sublist (List.take_sublist _ _), hnum, fun e he => ?_, ?_⟩
  · obtain ⟨hes, hnone⟩ := hordmem e (List.mem_of_mem_take he)
    exact ⟨List.mem_eraseDups.1 hes, hnone⟩
  · rw [heq, hrun]
    rfl

theorem Staged.setRecency {layer : Nat} (h : Staged c layer) (r : Nat → Int) :
    Staged { c with expertRecency := r } layer :=
  ⟨⟨h.floor, h.overlap, h.map, h.id_lt⟩, h.pending, h.count, h.nodup, h.resident, h.rows⟩

theorem bumpRecency_eq (c : OffloadMoeCache Bank Row) (layer : Nat) (seen : List Nat) :
    ∃ r, bumpRecency c layer seen = { c with expertRecency := r } := by
  unfold bumpRecency
  split
  · exact ⟨_, rfl⟩
  · exact ⟨c.expertRecency, rfl⟩

theorem ensureExpertsHybrid_spec (h : Coherent c) {layer : Nat} (hlayer : layer < c.config.numLayers)
    {expertIds : List Nat} (hids : ∀ e ∈ expertIds, e < c.config.numExperts)
    (maxFetch fetchFraction : Int) :
    ∃ c' out, ensureExpertsHybrid c layer expertIds maxFetch fetchFraction = .ok (c', out) ∧
      c'.config = c.config ∧ Staged c' layer ∧
      Ensured c layer expertIds (fetchCap (missing c layer expertIds).length maxFetch
        (clampFraction fetchFraction)) c' out := by
  generalize hcap : fetchCap (missing c layer expertIds).length maxFetch
    (clampFraction fetchFraction) = cap
  obtain ⟨u, l, c₃, hf, hnd, hnum, hl, hrun⟩ :=
    ensureExpertsHybrid_loop h layer hids maxFetch fetchFraction hcap
  obtain ⟨hsnd, hstaged⟩ := hf.stagedRows hnum
  obtain ⟨r, hbump⟩ := bumpRecency_eq c₃ layer expertIds.eraseDups
  have hconfig : c₃.config = c.config := by
    rw [hf.frame]
    rfl
  have hbanks : c₃.bankCaches = c.bankCaches := by
    rw [hf.frame]
    rfl
  have hflat : ∀ e, c₃.flatId layer e = c.flatId layer e := by
    intro e
    unfold flatId
    rw [hconfig]
  have hnumle : c₃.numIndices ≤ (missing c layer expertIds).length ∧
      c₃.numIndices ≤ cap := by
    rw [hf.frame]
    exact ⟨min_le_left _ _, min_le_right _ _⟩
  have hlen : c₃.numIndices.toNat = l.length := by
    rw [← hnum, hf.frame]
    rfl
  have hmiss : (missing c layer expertIds).length ≤ c.config.numExperts := by
    have hmnd : (missing c layer expertIds).Nodup := (nodup_eraseDups _ _ le_rfl).filter _
    have hsub : missing c layer expertIds ⊆ List.range c.config.numExperts := by
      intro e he
      exact List.mem_range.2 (hids e (List.mem_eraseDups.1 (List.mem_filter.1 he).1))
    simpa using (List.subperm_of_subset hmnd hsub).length_le
  have hinv : ∀ id s, c₃.slotForId id = some s ↔ c₃.idOfSlot s = some id := hf.map.inverse
  have hold : ∀ s id, c₃.idOfSlot s = some id → (∀ p ∈ c₃.stagedRows, p.1 ≠ s) →
      c.idOfSlot s = some id := by
    intro s id hs hno
    rcases hf.resident s id hs with h1 | ⟨j, hj, hjs⟩
    · exact h1
    · refine absurd ?_ (hno (c₃.evictSlots j, c₃.srcIndices j) (List.mem_map.2 ⟨j, ?_, rfl⟩))
      · rw [← hjs, Nat.zero_add]
      · rw [List.mem_range, hlen]
        exact hj
  have hres : ∀ p ∈ c₃.stagedRows, p.2 < c.config.numExperts ∧
      c₃.idOfSlot p.1 = some (c.flatId layer p.2) := by
    intro p hp
    obtain ⟨hpl, hslot⟩ := hstaged p hp
    exact ⟨hids _ (hl _ hpl).1, (hinv _ _).1 hslot⟩
  refine ⟨_, _, hrun, ?_, ?_, ?_⟩
  · rw [hbump]
    exact hconfig
  · rw [hbump]
    refine Staged.setRecency ⟨⟨?_, ?_, hf.map, fun s id hs => ?_⟩, ?_, ?_, ?_, ?_, ?_⟩ r
    · rw [hf.frame]
      exact h.floor
    · rw [hf.frame]
      exact h.overlap
    · rw [hconfig]
      by_cases hno : ∀ p ∈ c₃.stagedRows, p.1 ≠ s
      · exact h.id_lt s id (hold s id hs hno)
      · push Not at hno
        obtain ⟨p, hp, rfl⟩ := hno
        obtain ⟨hlt, hid⟩ := hres p hp
        rw [Option.some.inj (hs.symm.trans hid)]
        exact flatId_lt hlayer hlt
    · rw [hf.frame]
      rfl
    · rw [hconfig]
      omega
    · rw [hsnd]
      exact hnd
    · intro p hp
      rw [hconfig, hflat]
      exact hres p hp
    · intro s id hs hno b
      rw [hbanks, hconfig]
      exact h.rows s id (hold s id hs hno) b
  · rw [hbump]
    refine ⟨?_, ?_, ?_, ?_, ?_⟩
    · rw [List.forall₂_map_right_iff, List.forall₂_same]
      intro e he s hs
      rw [hflat] at hs
      exact (hinv _ _).1 hs
    · have hrows : ({ c₃ with expertRecency := r }.stagedRows).length = l.length := by
        rw [← hsnd, List.length_map]
        rfl
      rw [hrows, ← hlen]
      omega
    · intro p hp
      obtain ⟨hpl, hslot⟩ := hstaged p hp
      exact ⟨(hl _ hpl).1, (hl _ hpl).2, hslot⟩
    · intro e he s hs
      have hel : e ∉ l := fun hel => by
        rw [(hl e hel).2] at hs
        cases hs
      exact (hf.kept e (List.mem_eraseDups.2 he) hel).trans hs
    · intro e he hnone hno
      have hel : e ∉ l := by
        rw [← hsnd]
        rintro hel
        obtain ⟨p, hp, hpe⟩ := List.mem_map.1 hel
        exact hno p hp hpe
      exact (hf.kept e (List.mem_eraseDups.2 he) hel).trans hnone

/-! ## Materializing a layer -/

/-- The id is of `layer`. -/
def InLayer (c : OffloadMoeCache Bank Row) (layer id : Nat) : Prop :=
  layer * c.config.numExperts ≤ id ∧ id < layer * c.config.numExperts + c.config.numExperts

/-- The slot map after the kernel: the layer in the slots of its experts' numbers, and what the other
slots held of other layers. -/
def Materialized (c : OffloadMoeCache Bank Row) (layer slot id : Nat) : Prop :=
  (slot < c.config.numExperts ∧ id = layer * c.config.numExperts + slot) ∨
    (c.config.numExperts ≤ slot ∧ c.idOfSlot slot = some id ∧ ¬InLayer c layer id)

theorem Mapped.materialize_key (h : Mapped c) (layer s id : Nat) :
    (materializeLayer c layer).idOfSlot s = some id ↔ Materialized c layer s id := by
  unfold materializeLayer Materialized
  dsimp only
  by_cases hs : s < c.config.numExperts
  · rw [if_pos hs, Option.some.injEq]
    constructor
    · exact fun heq => .inl ⟨hs, heq.symm⟩
    · rintro (⟨-, heq⟩ | ⟨hle, -⟩)
      · exact heq.symm
      · omega
  · rw [if_neg hs]
    rcases Option.eq_none_or_eq_some (c.idOfSlot s) with hid | ⟨old, hid⟩
    · simp [hid, hs]
    · have hsc := h.slot_lt hid
      by_cases hold : InLayer c layer old
      · have hlow := hold.1
        have hhigh := hold.2
        simp only [hid, hsc, hlow, hhigh, decide_true, Option.any_some, Bool.and_self, if_true]
        constructor
        · intro hn
          cases hn
        · rintro (⟨hlt, -⟩ | ⟨-, heq, hno⟩)
          · exact absurd hlt hs
          · exact absurd (Option.some.inj heq ▸ hold) hno
      · have hfalse : (decide (layer * c.config.numExperts ≤ old) &&
            decide (old < layer * c.config.numExperts + c.config.numExperts)) = false := by
          simpa [InLayer] using hold
        simp only [hid, Option.any_some, hfalse, Bool.and_false, Bool.false_eq_true, if_false,
          Option.some.injEq]
        constructor
        · rintro rfl
          exact .inr ⟨Nat.le_of_not_lt hs, rfl, hold⟩
        · rintro (⟨hlt, -⟩ | ⟨-, heq, -⟩)
          · exact absurd hlt hs
          · exact heq

theorem Mapped.materialize_slot (h : Mapped c) (layer s id : Nat) :
    (materializeLayer c layer).slotForId id = some s ↔ Materialized c layer s id := by
  unfold materializeLayer Materialized
  dsimp only
  by_cases hid : layer * c.config.numExperts ≤ id ∧
      id < layer * c.config.numExperts + c.config.numExperts
  · rw [if_pos hid, Option.some.injEq]
    constructor
    · intro heq
      exact .inl (by omega)
    · rintro (⟨-, heq⟩ | ⟨-, -, hno⟩)
      · omega
      · exact absurd hid hno
  · rw [if_neg hid]
    -- the owner of a taken slot is unmapped, unless it is of the layer itself
    have hunmapped : ((List.range c.config.numExperts).any fun t =>
        decide (c.idOfSlot t = some id) && !(decide (t < c.cacheSize) &&
          (c.idOfSlot t).any fun old => decide (layer * c.config.numExperts ≤ old) &&
            decide (old < layer * c.config.numExperts + c.config.numExperts))) = true ↔
        ∃ t < c.config.numExperts, c.slotForId id = some t := by
      simp only [List.any_eq_true, List.mem_range, Bool.and_eq_true, decide_eq_true_eq,
        h.inverse]
      refine exists_congr fun t => and_congr_right fun _ => ?_
      refine ⟨And.left, fun ht => ⟨ht, ?_⟩⟩
      have hfalse : (decide (layer * c.config.numExperts ≤ id) &&
          decide (id < layer * c.config.numExperts + c.config.numExperts)) = false := by
        simpa using hid
      rw [ht, Option.any_some, hfalse, Bool.and_false]
      rfl
    by_cases hu : ∃ t < c.config.numExperts, c.slotForId id = some t
    · rw [if_pos (hunmapped.2 hu)]
      obtain ⟨t, ht, hst⟩ := hu
      constructor
      · intro hn
        cases hn
      · rintro (⟨hlt, heq⟩ | ⟨hle, hkey, -⟩)
        · exact absurd ⟨by omega, by omega⟩ hid
        · rw [← h.inverse, hst] at hkey
          have := Option.some.inj hkey
          omega
    · rw [if_neg fun hc => hu (hunmapped.1 hc), h.inverse]
      constructor
      · intro hkey
        refine .inr ⟨?_, hkey, hid⟩
        by_contra hlt
        exact hu ⟨s, by omega, (h.inverse id s).2 hkey⟩
      · rintro (⟨hlt, heq⟩ | ⟨-, hkey, -⟩)
        · exact absurd ⟨by omega, by omega⟩ hid
        · exact hkey

theorem stagedRows_materializeLayer (c : OffloadMoeCache Bank Row) (layer : Nat) :
    (materializeLayer c layer).stagedRows =
      (List.range c.config.numExperts).map fun k => (k, k) := by
  unfold stagedRows materializeLayer
  dsimp only
  rw [Int.toNat_natCast]
  refine List.map_congr_left fun k hk => ?_
  rw [if_pos (List.mem_range.1 hk), if_pos (List.mem_range.1 hk)]

theorem materializeLayer_spec (h : Coherent c) {layer : Nat} (hlayer : layer < c.config.numLayers) :
    Staged (materializeLayer c layer) layer := by
  have hkey := h.materialize_key layer
  refine ⟨⟨h.floor, h.overlap, ⟨fun id s => ?_, fun id s hs => ?_, fun s => ?_⟩, fun s id hs => ?_⟩,
    rfl, le_rfl, ?_, fun p hp => ?_, fun s id hs hno b => ?_⟩
  · exact (h.materialize_slot layer s id).trans (hkey s id).symm
  · rcases (hkey s id).1 hs with ⟨hlt, -⟩ | ⟨-, hold, -⟩
    · exact hlt.trans_le h.floor
    · exact h.slot_lt hold
  · have hle : c.usage s ≤ c.step := h.map.usage_le s
    change (materializeLayer c layer).usage s ≤ c.step + 1
    unfold materializeLayer
    dsimp only
    split
    · exact le_rfl
    · split
      · exact Nat.zero_le _
      · omega
  · rcases (hkey s id).1 hs with ⟨hlt, rfl⟩ | ⟨-, hold, -⟩
    · exact flatId_lt hlayer hlt
    · exact h.id_lt s id hold
  · rw [stagedRows_materializeLayer, List.map_map]
    have hid : (Prod.snd ∘ fun k : Nat => (k, k)) = id := rfl
    rw [hid, List.map_id]
    exact List.nodup_range
  · rw [stagedRows_materializeLayer] at hp
    obtain ⟨k, hk, rfl⟩ := List.mem_map.1 hp
    exact ⟨List.mem_range.1 hk, (hkey k _).2 (.inl ⟨List.mem_range.1 hk, rfl⟩)⟩
  · rw [stagedRows_materializeLayer] at hno
    rcases (hkey s id).1 hs with ⟨hlt, -⟩ | ⟨-, hold, -⟩
    · exact absurd rfl (hno (s, s) (List.mem_map.2 ⟨s, List.mem_range.2 hlt, rfl⟩))
    · exact h.rows s id hold b

/-! ## The prefill overlap -/

theorem Mapped.invalidate_slot (h : Mapped c) (bufferId s id : Nat) :
    (invalidatePrefillBuffer c bufferId).slotForId id = some s ↔
      c.idOfSlot s = some id ∧ ¬(bufferId * c.config.numExperts ≤ s ∧
        s < bufferId * c.config.numExperts + c.config.numExperts) := by
  unfold invalidatePrefillBuffer
  dsimp only
  have hany : ((List.range' (bufferId * c.config.numExperts) c.config.numExperts).any fun t =>
      decide (c.idOfSlot t = some id)) = true ↔
      ∃ t, (bufferId * c.config.numExperts ≤ t ∧
        t < bufferId * c.config.numExperts + c.config.numExperts) ∧ c.slotForId id = some t := by
    simp only [List.any_eq_true, List.mem_range'_1, decide_eq_true_eq, h.inverse]
  by_cases hu : ∃ t, (bufferId * c.config.numExperts ≤ t ∧
      t < bufferId * c.config.numExperts + c.config.numExperts) ∧ c.slotForId id = some t
  · rw [if_pos (hany.2 hu)]
    obtain ⟨t, ht, hst⟩ := hu
    constructor
    · intro hn
      cases hn
    · rintro ⟨hkey, hno⟩
      rw [← h.inverse, hst] at hkey
      exact absurd (Option.some.inj hkey ▸ ht) hno
  · rw [if_neg fun hc => hu (hany.1 hc), h.inverse]
    exact ⟨fun hkey => ⟨hkey, fun hs => hu ⟨s, hs, (h.inverse id s).2 hkey⟩⟩, And.left⟩

theorem invalidate_key (c : OffloadMoeCache Bank Row) (bufferId s id : Nat) :
    (invalidatePrefillBuffer c bufferId).idOfSlot s = some id ↔
      c.idOfSlot s = some id ∧ ¬(bufferId * c.config.numExperts ≤ s ∧
        s < bufferId * c.config.numExperts + c.config.numExperts) := by
  unfold invalidatePrefillBuffer
  dsimp only
  split
  · rename_i hs
    simp [hs]
  · rename_i hs
    exact ⟨fun hkey => ⟨hkey, hs⟩, And.left⟩

theorem Mapped.invalidatePrefillBuffer (h : Mapped c) (bufferId : Nat) :
    Mapped (invalidatePrefillBuffer c bufferId) := by
  refine ⟨h.floor, h.overlap, ⟨fun id s => ?_, fun id s hs => ?_, fun s => ?_⟩, fun s id hs => ?_⟩
  · exact (h.invalidate_slot bufferId s id).trans (invalidate_key c bufferId s id).symm
  · exact h.slot_lt ((invalidate_key c bufferId s id).1 hs).1
  · change (OffloadMoeCache.invalidatePrefillBuffer c bufferId).usage s ≤ c.step
    unfold OffloadMoeCache.invalidatePrefillBuffer
    dsimp only
    split
    · exact Nat.zero_le _
    · exact h.map.usage_le s
  · exact h.id_lt s id ((invalidate_key c bufferId s id).1 hs).1

/-- Bytes move only inside a buffer that owns no expert. -/
theorem Coherent.fillBuffer (h : Coherent c) (bufferId : Nat) (rows : Bank → Nat → Row)
    (hrows : ∀ b s, ¬(bufferId * c.config.numExperts ≤ s ∧
      s < bufferId * c.config.numExperts + c.config.numExperts) → rows b s = c.bankCaches b s) :
    Coherent { OffloadMoeCache.invalidatePrefillBuffer c bufferId with bankCaches := rows } := by
  have hm := h.toMapped.invalidatePrefillBuffer bufferId
  refine ⟨⟨hm.floor, hm.overlap, hm.map, hm.id_lt⟩, fun s id hs b => ?_⟩
  obtain ⟨hkey, hno⟩ := (invalidate_key c bufferId s id).1 hs
  change rows b s = _
  rw [hrows b s hno]
  exact h.rows s id hkey b

theorem copyLayer_spec (h : Coherent c) (layer bufferId : Nat) :
    Coherent (copyLayer c layer bufferId) := by
  refine h.fillBuffer bufferId _ fun b s hs => ?_
  exact if_neg hs

theorem prefetchSplit_spec (h : Coherent c) (layer bufferId : Nat) :
    Coherent (prefetchSplit c layer bufferId) := by
  refine h.fillBuffer bufferId _ fun b s hs => ?_
  have hin : (decide (bufferId * c.config.numExperts ≤ s) &&
      decide (s < bufferId * c.config.numExperts + c.config.numExperts)) = false := by
    simpa using hs
  simp only [hin, Bool.false_and, Bool.false_eq_true, if_false]

theorem Coherent.setPrefill (h : Coherent c) (bufferLayer : Nat → Option Int)
    (released : Nat → Bool) (active : Bool) (snapshot : Nat → Option Nat) :
    Coherent { c with
      prefillBufferLayer := bufferLayer
      prefillBufferReleased := released
      prefillHitD2dActive := active
      prefillSlotSnapshot := snapshot } :=
  ⟨⟨h.floor, h.overlap, h.map, h.id_lt⟩, h.rows⟩

theorem beginPrefill_spec (h : Coherent c) : Coherent (beginPrefill c) := by
  unfold beginPrefill
  split
  · exact h.setPrefill _ _ _ _
  · exact h

theorem prefetchPrefillLayer_spec (h : Coherent c) {layer : Int} {c' : OffloadMoeCache Bank Row}
    (hrun : prefetchPrefillLayer c layer = .ok c') : Coherent c' := by
  unfold prefetchPrefillLayer at hrun
  split at hrun
  · exact Except.ok.inj hrun ▸ h
  · split at hrun
    · cases hrun
    · dsimp only at hrun
      by_cases hsame : c.prefillBufferLayer (layer.toNat % 2) = some layer
      · rw [if_pos hsame] at hrun
        exact Except.ok.inj hrun ▸ h
      · rw [if_neg hsame] at hrun
        obtain ⟨_, -, hrun⟩ := Py.bind_eq_ok.1 hrun
        have hcopy : Coherent (if c.prefillHitD2dActive = true
            then prefetchSplit c layer.toNat (layer.toNat % 2)
            else copyLayer c layer.toNat (layer.toNat % 2)) := by
          split
          · exact prefetchSplit_spec h _ _
          · exact copyLayer_spec h _ _
        obtain rfl := Py.pure_eq_ok.1 hrun
        exact hcopy.setPrefill _ _ _ _

theorem releasePrefillLayer_spec (h : Coherent c) (layer : Int) :
    Coherent (releasePrefillLayer c layer) := by
  unfold releasePrefillLayer
  dsimp only
  split
  · exact h
  · exact h.setPrefill _ _ _ _

/-! ## Cold starts -/

/-- An empty map is coherent with whatever the slots hold. -/
theorem coherent_cold (hfloor : c.config.numExperts ≤ c.cacheSize)
    (hoverlap : c.prefillOverlap = true → 2 * c.config.numExperts ≤ c.cacheSize)
    (hslot : c.slotForId = fun _ => none) (hid : c.idOfSlot = fun _ => none)
    (husage : c.usage = fun _ => 0) : Coherent c := by
  refine ⟨⟨hfloor, hoverlap, ⟨fun id s => ?_, fun id s hs => ?_, fun s => ?_⟩, fun s id hs => ?_⟩,
    fun s id hs => ?_⟩
  · change c.slotForId id = some s ↔ c.idOfSlot s = some id
    rw [hslot, hid]
    simp
  · change c.idOfSlot s = some id at hs
    rw [hid] at hs
    cases hs
  · change c.usage s ≤ c.step
    rw [husage]
    exact Nat.zero_le _
  · rw [hid] at hs
    cases hs
  · rw [hid] at hs
    cases hs

theorem validateRebuild_eq_ok {config : OffloadConfig Bank Row} {cacheSize : Nat} {u : Unit}
    (h : validateRebuild config cacheSize = .ok u) : config.numExperts ≤ cacheSize := by
  unfold validateRebuild at h
  split at h
  · cases h
  · omega

theorem create_spec {config : OffloadConfig Bank Row} {cacheSize : Nat} {overlap : Bool}
    {fresh : FreshTensors Bank Row} (h : create config cacheSize overlap fresh = .ok c) :
    c.config = config ∧ Coherent c := by
  obtain ⟨_, hvalid, h⟩ := Py.bind_eq_ok.1 h
  obtain ⟨_, hassert, h⟩ := Py.bind_eq_ok.1 h
  obtain rfl := Py.pure_eq_ok.1 h
  have hov := pyAssert_eq_ok.1 hassert
  refine ⟨rfl, coherent_cold (validateRebuild_eq_ok hvalid) (fun ho => ?_) rfl rfl rfl⟩
  change overlap = true at ho
  rw [ho] at hov
  simpa using hov

theorem reset_spec (h : Coherent c) : Coherent (reset c) :=
  coherent_cold h.floor h.overlap rfl rfl rfl

theorem rebuild_spec {cacheSize : Nat} {fresh : FreshTensors Bank Row}
    {c' : OffloadMoeCache Bank Row} (h : rebuild c cacheSize fresh = .ok c') :
    c'.config = c.config ∧ Coherent c' := by
  obtain ⟨_, hvalid, h⟩ := Py.bind_eq_ok.1 h
  obtain rfl := Py.pure_eq_ok.1 h
  refine ⟨rfl, coherent_cold (validateRebuild_eq_ok hvalid) (fun ho => ?_) rfl rfl rfl⟩
  exact of_decide_eq_true (Bool.and_eq_true_iff.1 ho).2

end OffloadMoeCache

end FreeToken
