import Mathlib.Data.Nat.Find
import Mathlib.Data.Set.Finite.Basic
import FreeToken.Lib.Blocks

/-!
# Prefix-closed maps from key blocks to value blocks

A finite map whose keys are sequences of a whole number of blocks of `bs` keys and whose values are
the blocks of values of their last key blocks.  With a sequence, the map has every shorter whole
sequence that begins it.  This is what a prefix cache stores, whatever tree it keeps it in.
-/

set_option autoImplicit false

open Blocks

structure BlockMap (α β : Type*) (bs : Nat) where
  block : List α → Option (List β)
  nil : block [] = none
  dvd : ∀ q, (block q).isSome → bs ∣ q.length
  length : ∀ q v, block q = some v → v.length = bs
  closed : ∀ p q, (block q).isSome → p <+: q → p ≠ [] → bs ∣ p.length → (block p).isSome
  finite : {q | (block q).isSome}.Finite

namespace BlockMap

variable {α β : Type*} {bs : Nat}

theorem ext {m m' : BlockMap α β bs} (h : ∀ q, m.block q = m'.block q) : m = m' := by
  obtain ⟨b, _, _, _, _, _⟩ := m
  obtain ⟨b', _, _, _, _, _⟩ := m'
  obtain rfl : b = b' := funext h
  rfl

def empty (α β : Type*) (bs : Nat) : BlockMap α β bs where
  block := fun _ => none
  nil := rfl
  dvd := fun _ h => by cases h
  length := fun _ _ h => by cases h
  closed := fun _ _ h => by cases h
  finite := by simp

/-! ## Answers -/

/-- The length of the longest sequence of whole blocks at the front of `ids` that the map has. -/
def longest (m : BlockMap α β bs) (ids : List α) : Nat :=
  bs * Nat.findGreatest (fun k => (m.block (ids.take (bs * k))).isSome) (ids.length / bs)

/-- The values along a sequence, block after block. -/
def values (m : BlockMap α β bs) (p : List α) : List β :=
  (List.range (p.length / bs)).flatMap fun i => (m.block (p.take (bs * (i + 1)))).getD []

theorem longest_eq (m : BlockMap α β bs) (hbs : 0 < bs) {ids : List α} {k : Nat} (hk : bs ∣ k)
    (hle : k ≤ ids.length) (hhas : k = 0 ∨ (m.block (ids.take k)).isSome)
    (hmax : ∀ j ≤ ids.length, (m.block (ids.take j)).isSome → j ≤ k) : m.longest ids = k := by
  obtain ⟨n, rfl⟩ := hk
  unfold longest
  congr 1
  have hn : n ≤ ids.length / bs := (Nat.le_div_iff_mul_le hbs).2 (by rwa [Nat.mul_comm])
  refine Nat.findGreatest_eq_iff.2 ⟨hn, fun hpos => ?_, fun j hnj hj hsome => ?_⟩
  · refine hhas.resolve_left fun hzero => ?_
    exact hpos ((Nat.mul_eq_zero.1 hzero).resolve_left hbs.ne')
  · have hjlen : bs * j ≤ ids.length :=
      (Nat.mul_le_mul_left bs hj).trans (Nat.mul_div_le ids.length bs)
    have := Nat.le_of_mul_le_mul_left (hmax (bs * j) hjlen hsome) hbs
    omega

theorem block_eq_none_of_not_dvd (m : BlockMap α β bs) {q : List α} (h : ¬ bs ∣ q.length) :
    m.block q = none :=
  Option.not_isSome_iff_eq_none.1 fun hq => h (m.dvd q hq)

theorem values_congr {m m' : BlockMap α β bs} {p : List α}
    (h : ∀ q, q <+: p → m'.block q = m.block q) : m'.values p = m.values p := by
  unfold values
  exact List.flatMap_congr fun i _ => by rw [h _ (List.take_prefix _ _)]

/-! ## Insertion -/

/-- The block of `values` that belongs to the last block of `q`. -/
def lastBlock (bs : Nat) (values : List β) (q : List α) : List β :=
  (values.drop (q.length - bs)).take bs

theorem length_lastBlock {values : List β} {q : List α} (hle : q.length ≤ values.length)
    (hbs : bs ≤ q.length) : (lastBlock bs values q).length = bs := by
  unfold lastBlock
  rw [List.length_take, List.length_drop]
  omega

/-- The whole non-empty sequences of blocks at the front of `ids`. -/
def Fronts (bs : Nat) (ids q : List α) : Prop := q <+: ids ∧ q ≠ [] ∧ bs ∣ q.length

instance [DecidableEq α] (bs : Nat) (ids q : List α) : Decidable (Fronts bs ids q) :=
  inferInstanceAs (Decidable (_ ∧ _ ∧ _))

theorem Fronts.le {ids q : List α} (h : Fronts bs ids q) : bs ≤ q.length :=
  Nat.le_of_dvd (List.length_pos_iff.2 h.2.1) h.2.2

section Insert

variable [DecidableEq α]

/-- The blocks after an insertion: those there were, and the missing ones of `ids`. -/
def insertBlock (m : BlockMap α β bs) (ids : List α) (values : List β) (q : List α) :
    Option (List β) :=
  (m.block q).or (if Fronts bs ids q then some (lastBlock bs values q) else none)

theorem isSome_insertBlock {m : BlockMap α β bs} {ids q : List α} {values : List β} :
    (m.insertBlock ids values q).isSome ↔ (m.block q).isSome ∨ Fronts bs ids q := by
  unfold insertBlock
  rw [Option.isSome_or]
  split <;> simp [*]

/-- Add the missing sequences of blocks of `ids`, with its values; the others stay. -/
def insert (m : BlockMap α β bs) (ids : List α) (values : List β)
    (h : ids.length ≤ values.length) : BlockMap α β bs where
  block := m.insertBlock ids values
  nil := by
    unfold insertBlock
    rw [m.nil, if_neg fun hf => hf.2.1 rfl]
    rfl
  dvd := fun q hq => by
    rcases isSome_insertBlock.1 hq with hq | hq
    · exact m.dvd q hq
    · exact hq.2.2
  length := fun q v hv => by
    unfold insertBlock at hv
    cases hm : m.block q with
    | some w =>
        rw [hm, Option.some_or, Option.some.injEq] at hv
        exact hv ▸ m.length q w hm
    | none =>
        rw [hm, Option.none_or] at hv
        split at hv
        · rename_i hf
          cases hv
          exact length_lastBlock (hf.1.length_le.trans h) hf.le
        · cases hv
  closed := fun p q hq hp hne hd => by
    rcases isSome_insertBlock.1 hq with hq | hq
    · exact isSome_insertBlock.2 (.inl (m.closed p q hq hp hne hd))
    · exact isSome_insertBlock.2 (.inr ⟨hp.trans hq.1, hne, hd⟩)
  finite := by
    refine (m.finite.union ids.inits.toFinset.finite_toSet).subset fun q hq => ?_
    rcases isSome_insertBlock.1 hq with hq | hq
    · exact .inl hq
    · exact .inr (by simpa using hq.1)

theorem insert_block_of_some {m : BlockMap α β bs} {ids : List α} {values : List β}
    (h : ids.length ≤ values.length) {q : List α} {v : List β} (hv : m.block q = some v) :
    (m.insert ids values h).block q = some v := by
  show m.insertBlock ids values q = some v
  unfold insertBlock
  rw [hv]
  rfl

end Insert

/-! ## Eviction -/

/-- `m'` is `m` without some sequences, none of them a front of one to `keep`; `out` lists the
values of each removed sequence once. -/
structure Evicts (keep : List (List α)) (m m' : BlockMap α β bs) (out : List β) : Prop where
  sub : ∀ q v, m'.block q = some v → m.block q = some v
  kept : ∀ l ∈ keep, ∀ q, q <+: l → m'.block q = m.block q
  out : ∃ gone : List (List α), gone.Nodup ∧
    (∀ q, q ∈ gone ↔ (m.block q).isSome ∧ m'.block q = none) ∧
    out = gone.flatMap fun q => (m.block q).getD []

namespace Evicts

variable {keep : List (List α)} {m m' m'' : BlockMap α β bs} {out out' : List β}

theorem refl (keep : List (List α)) (m : BlockMap α β bs) : Evicts keep m m [] where
  sub := fun _ _ h => h
  kept := fun _ _ _ _ => rfl
  out := by
    refine ⟨[], List.nodup_nil, fun q => ?_, rfl⟩
    cases m.block q <;> simp

theorem trans (h : Evicts keep m m' out) (h' : Evicts keep m' m'' out') :
    Evicts keep m m'' (out ++ out') where
  sub := fun q v hv => h.sub q v (h'.sub q v hv)
  kept := fun l hl q hq => (h'.kept l hl q hq).trans (h.kept l hl q hq)
  out := by
    obtain ⟨gone, hnodup, hgone, rfl⟩ := h.out
    obtain ⟨gone', hnodup', hgone', rfl⟩ := h'.out
    refine ⟨gone ++ gone', ?_, fun q => ?_, ?_⟩
    · refine List.nodup_append'.2 ⟨hnodup, hnodup', fun q hq hq' => ?_⟩
      have hnone := ((hgone q).1 hq).2
      have hsome := ((hgone' q).1 hq').1
      rw [hnone] at hsome
      cases hsome
    · rw [List.mem_append, hgone, hgone']
      constructor
      · rintro (⟨hq, hnone⟩ | ⟨hq, hnone⟩)
        · refine ⟨hq, ?_⟩
          cases h'' : m''.block q with
          | none => rfl
          | some v => rw [h'.sub q v h''] at hnone; cases hnone
        · obtain ⟨v, hv⟩ := Option.isSome_iff_exists.1 hq
          exact ⟨by rw [h.sub q v hv]; rfl, hnone⟩
      · rintro ⟨hq, hnone⟩
        cases h' : m'.block q with
        | none => exact .inl ⟨hq, rfl⟩
        | some v => exact .inr ⟨rfl, hnone⟩
    · rw [List.flatMap_append]
      congr 1
      refine List.flatMap_congr fun q hq => ?_
      obtain ⟨v, hv⟩ := Option.isSome_iff_exists.1 ((hgone' q).1 hq).1
      rw [hv, h.sub q v hv]

end Evicts

end BlockMap
