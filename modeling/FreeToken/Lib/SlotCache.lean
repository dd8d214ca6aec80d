import Mathlib.Data.Finset.Card
import Mathlib.Data.List.MinMax
import Mathlib.Logic.Function.Basic

/-!
# Slot caches

A fixed number of slots, each empty or holding a key, and the slot of each key held.  A key is
fetched into the slot used longest ago; a slot stamped with the current clock is in use.
-/

set_option autoImplicit false

namespace SlotCache

open Function

variable {K : Type}

structure Slots (K : Type) where
  slotOf : K → Option Nat
  keyOf : Nat → Option K
  usage : Nat → Nat
  clock : Nat
  size : Nat

/-- The two maps undo each other, only the slots hold keys, and no stamp is ahead of the clock. -/
structure WF (c : Slots K) : Prop where
  inverse : ∀ k s, c.slotOf k = some s ↔ c.keyOf s = some k
  slot_lt : ∀ k s, c.keyOf s = some k → s < c.size
  usage_le : ∀ s, c.usage s ≤ c.clock

/-- The slots stamped with the clock are those of the keys of `A`. -/
structure InUse (c : Slots K) (A : List K) : Prop where
  holder : ∀ s, s < c.size → c.usage s = c.clock → ∃ k ∈ A, c.keyOf s = some k
  stamped : ∀ k ∈ A, ∀ s, c.slotOf k = some s → c.usage s = c.clock

theorem WF.slotOf_inj {c : Slots K} (h : WF c) {k k' : K} {s : Nat} (hk : c.slotOf k = some s)
    (hk' : c.slotOf k' = some s) : k = k' := by
  have h1 := (h.inverse k s).1 hk
  have h2 := (h.inverse k' s).1 hk'
  exact Option.some.inj (h1.symm.trans h2)

/-! ## Stamping the keys in use -/

/-- Move the clock and stamp the slots of the keys of `A` that are held. -/
def touch (c : Slots K) (A : List K) : Slots K :=
  A.foldl (fun d k =>
      match d.slotOf k with
      | some s => { d with usage := update d.usage s d.clock }
      | none => d)
    { c with clock := c.clock + 1 }

theorem touch_eq (c : Slots K) (A : List K) :
    (touch c A).slotOf = c.slotOf ∧ (touch c A).keyOf = c.keyOf ∧
      (touch c A).clock = c.clock + 1 ∧ (touch c A).size = c.size ∧
      ∀ s, ((∃ k ∈ A, c.slotOf k = some s) → (touch c A).usage s = c.clock + 1) ∧
        ((∀ k ∈ A, c.slotOf k ≠ some s) → (touch c A).usage s = c.usage s) := by
  induction A using List.reverseRecOn with
  | nil => simp [touch]
  | append_singleton A a ih =>
      obtain ⟨hslot, hkey, hclock, hsize, husage⟩ := ih
      have hstep : touch c (A ++ [a]) =
          match (touch c A).slotOf a with
          | some s => { touch c A with usage := update (touch c A).usage s (touch c A).clock }
          | none => touch c A := by
        simp [touch]
      rw [hslot] at hstep
      cases ha : c.slotOf a with
      | none =>
          rw [ha] at hstep
          rw [hstep]
          refine ⟨hslot, hkey, hclock, hsize, fun s => ⟨?_, ?_⟩⟩
          · rintro ⟨k, hk, hks⟩
            rcases List.mem_append.1 hk with hk | hk
            · exact (husage s).1 ⟨k, hk, hks⟩
            · rw [List.mem_singleton.1 hk, ha] at hks
              cases hks
          · exact fun hno => (husage s).2 fun k hk => hno k (List.mem_append_left _ hk)
      | some t =>
          rw [ha] at hstep
          rw [hstep]
          refine ⟨hslot, hkey, hclock, hsize, fun s => ⟨?_, ?_⟩⟩
          · rintro ⟨k, hk, hks⟩
            by_cases hst : s = t
            · rw [hst, ← hclock]
              exact update_self t _ _
            · rw [← (husage s).1 _]
              · exact update_of_ne hst _ _
              · rcases List.mem_append.1 hk with hk | hk
                · exact ⟨k, hk, hks⟩
                · rw [List.mem_singleton.1 hk, ha] at hks
                  exact absurd (Option.some.inj hks).symm hst
          · intro hno
            have hst : s ≠ t := by
              rintro rfl
              exact hno a (by simp) ha
            rw [← (husage s).2 fun k hk => hno k (List.mem_append_left _ hk)]
            exact update_of_ne hst _ _

theorem WF.touch {c : Slots K} (h : WF c) (A : List K) : WF (touch c A) := by
  obtain ⟨hslot, hkey, hclock, hsize, husage⟩ := touch_eq c A
  refine ⟨?_, ?_, fun s => ?_⟩
  · rw [hslot, hkey]
    exact h.inverse
  · rw [hkey, hsize]
    exact h.slot_lt
  · rw [hclock]
    by_cases hs : ∃ k ∈ A, c.slotOf k = some s
    · rw [(husage s).1 hs]
    · rw [(husage s).2 fun k hk hks => hs ⟨k, hk, hks⟩]
      exact (h.usage_le s).trans (Nat.le_succ _)

/-- Before the clock moved no stamp had reached it. -/
theorem WF.inUse_touch {c : Slots K} (h : WF c) (A : List K) : InUse (SlotCache.touch c A) A := by
  obtain ⟨hslot, hkey, hclock, hsize, husage⟩ := touch_eq c A
  constructor
  · intro s _ hs
    by_contra hno
    rw [hclock, (husage s).2 fun k hk hks => hno ⟨k, hk, by rw [hkey]; exact (h.inverse k s).1 hks⟩]
      at hs
    have := h.usage_le s
    omega
  · intro k hk s hs
    rw [hslot] at hs
    rw [hclock]
    exact (husage s).1 ⟨k, hk, hs⟩

/-! ## The least recently used slot -/

def victim (c : Slots K) : Option Nat := (List.range c.size).argmin c.usage

/-- Of at least as many slots as keys in use, one is idle while a key in use is not held. -/
theorem InUse.exists_idle {c : Slots K} {A : List K} (h : InUse c A) (hwf : WF c) (hnd : A.Nodup)
    (hle : A.length ≤ c.size) {k : K} (hk : k ∈ A) (hnone : c.slotOf k = none) :
    ∃ s < c.size, c.usage s < c.clock := by
  classical
  by_contra hno
  have hall : ∀ s < c.size, ∃ a ∈ A.erase k, c.keyOf s = some a := by
    intro s hs
    obtain ⟨a, ha, has⟩ := h.holder s hs (by
      have := hwf.usage_le s
      by_contra hne
      exact hno ⟨s, hs, by omega⟩)
    refine ⟨a, (List.mem_erase_of_ne ?_).2 ha, has⟩
    rintro rfl
    rw [(hwf.inverse a s).2 has] at hnone
    cases hnone
  have : Nonempty K := ⟨k⟩
  choose! f hf hkey using hall
  have hcard : (Finset.range c.size).card ≤ (A.erase k).toFinset.card := by
    refine Finset.card_le_card_of_injOn f ?_ ?_
    · intro s hs
      exact List.mem_toFinset.2 (hf s (Finset.mem_range.1 hs))
    · intro s hs t ht hst
      have h1 := (hwf.inverse _ _).2 (hkey s (Finset.mem_range.1 hs))
      have h2 := (hwf.inverse _ _).2 (hkey t (Finset.mem_range.1 ht))
      rw [hst] at h1
      exact Option.some.inj (h1.symm.trans h2)
  rw [Finset.card_range, List.toFinset_card_of_nodup (hnd.erase k), List.length_erase_of_mem hk]
    at hcard
  have := List.length_pos_of_mem hk
  omega

theorem victim_spec {c : Slots K} {s : Nat} (hs : s < c.size) (hidle : c.usage s < c.clock) :
    ∃ v, victim c = some v ∧ v < c.size ∧ c.usage v < c.clock := by
  have hmem : s ∈ List.range c.size := List.mem_range.2 hs
  cases hv : victim c with
  | none =>
      rw [List.argmin_eq_none.1 hv] at hmem
      cases hmem
  | some v =>
      refine ⟨v, rfl, List.mem_range.1 (List.argmin_mem hv), ?_⟩
      exact (List.le_of_mem_argmin hmem hv).trans_lt hidle

/-! ## Fetching a key -/

section Fetch

variable [DecidableEq K]

/-- Forget the key of slot `s`. -/
def unmap (c : Slots K) (s : Nat) : K → Option Nat :=
  match c.keyOf s with
  | some old => update c.slotOf old none
  | none => c.slotOf

/-- Put key `k` in slot `s`, in use. -/
def fetch (c : Slots K) (k : K) (s : Nat) : Slots K :=
  { c with
    slotOf := update (unmap c s) k (some s)
    keyOf := update c.keyOf s (some k)
    usage := update c.usage s c.clock }

theorem WF.unmap_eq {c : Slots K} (h : WF c) {s t : Nat} {k : K} :
    unmap c s k = some t ↔ c.slotOf k = some t ∧ t ≠ s := by
  unfold unmap
  cases hs : c.keyOf s with
  | none =>
      refine ⟨fun hk => ⟨hk, ?_⟩, And.left⟩
      rintro rfl
      rw [(h.inverse k t).1 hk] at hs
      cases hs
  | some old =>
      by_cases hko : k = old
      · subst hko
        have hold := (h.inverse k s).2 hs
        simp only [update_self, hold]
        constructor
        · intro hn
          cases hn
        · rintro ⟨ht, hne⟩
          exact absurd (Option.some.inj ht).symm hne
      · dsimp only
        rw [update_of_ne hko]
        refine ⟨fun hk => ⟨hk, ?_⟩, And.left⟩
        rintro rfl
        exact hko (Option.some.inj (((h.inverse k t).1 hk).symm.trans hs))

theorem WF.fetch {c : Slots K} (h : WF c) {k : K} {s : Nat} (hs : s < c.size)
    (hnone : c.slotOf k = none) : WF (fetch c k s) := by
  refine ⟨fun a t => ?_, fun a t => ?_, fun t => ?_⟩ <;> unfold SlotCache.fetch <;> dsimp only
  · by_cases hts : t = s
    · subst hts
      rw [update_self]
      by_cases hak : a = k
      · subst hak
        simp
      · rw [update_of_ne hak, h.unmap_eq]
        constructor
        · exact fun hc => absurd rfl hc.2
        · exact fun hc => absurd (Option.some.inj hc).symm hak
    · rw [update_of_ne hts]
      by_cases hak : a = k
      · subst hak
        rw [update_self, ← h.inverse, hnone]
        constructor
        · exact fun hc => absurd (Option.some.inj hc).symm hts
        · intro hc
          cases hc
      · rw [update_of_ne hak, h.unmap_eq, h.inverse]
        exact and_iff_left hts
  · by_cases hts : t = s
    · exact fun _ => hts ▸ hs
    · rw [update_of_ne hts]
      exact h.slot_lt a t
  · by_cases hts : t = s
    · rw [hts, update_self]
    · rw [update_of_ne hts]
      exact h.usage_le t

/-- A fetch into an idle slot evicts no key in use. -/
theorem fetch_keeps {c : Slots K} (h : WF c) {A : List K} (hA : InUse c A) {k : K} {s : Nat}
    (hidle : c.usage s < c.clock) {a : K} (ha : a ∈ A) {t : Nat} (hat : c.slotOf a = some t)
    (hak : a ≠ k) : (fetch c k s).slotOf a = some t := by
  unfold fetch
  dsimp only
  rw [update_of_ne hak, h.unmap_eq]
  refine ⟨hat, ?_⟩
  rintro rfl
  have := hA.stamped a ha t hat
  omega

theorem InUse.fetch {c : Slots K} (h : WF c) {A : List K} (hA : InUse c A) {k : K} {s : Nat}
    (hk : k ∈ A) : InUse (fetch c k s) A := by
  constructor <;> unfold SlotCache.fetch <;> dsimp only
  · intro t ht hstamp
    by_cases hts : t = s
    · exact ⟨k, hk, by rw [hts, update_self]⟩
    · rw [update_of_ne hts] at hstamp ⊢
      exact hA.holder t ht hstamp
  · intro a ha t hat
    by_cases hts : t = s
    · rw [hts, update_self]
    · rw [update_of_ne hts]
      by_cases hak : a = k
      · rw [hak, update_self] at hat
        exact absurd (Option.some.inj hat).symm hts
      · rw [update_of_ne hak, h.unmap_eq] at hat
        exact hA.stamped a ha t hat.1

end Fetch

/-! ## Copying rows -/

/-- A place that was written holds the source of one of its copies, any other is unchanged. -/
theorem foldl_update {α β R : Type} [DecidableEq α] (g : β → R) (ps : List (α × β)) (r : α → R)
    (a : α) :
    (ps.foldl (fun r p => update r p.1 (g p.2)) r a = r a ∧ ∀ p ∈ ps, p.1 ≠ a) ∨
      ∃ p ∈ ps, p.1 = a ∧ ps.foldl (fun r p => update r p.1 (g p.2)) r a = g p.2 := by
  induction ps using List.reverseRecOn with
  | nil => exact .inl ⟨rfl, fun p hp => by cases hp⟩
  | append_singleton ps q ih =>
      rw [List.foldl_append, List.foldl_cons, List.foldl_nil]
      by_cases hq : q.1 = a
      · exact .inr ⟨q, by simp, hq, by rw [← hq, update_self]⟩
      · rw [update_of_ne (Ne.symm hq)]
        rcases ih with ⟨hr, hno⟩ | ⟨p, hp, hpa, hr⟩
        · refine .inl ⟨hr, fun p hp => ?_⟩
          rcases List.mem_append.1 hp with hp | hp
          · exact hno p hp
          · rwa [List.mem_singleton.1 hp]
        · exact .inr ⟨p, List.mem_append_left _ hp, hpa, hr⟩

end SlotCache
