import Mathlib.Data.List.Nodup
import Mathlib.Data.List.Induction
import Mathlib.Algebra.Group.Action.Defs
import Mathlib.Algebra.Order.BigOperators.Group.List
import FreeToken.Kernel.Df11

/-!
# Codes that a lookup finds

The Huffman lengths leave room for all codes, the floor of the frequencies stops, and the canonical
codes are intervals of the lookup table, one behind the other.
-/

set_option autoImplicit false

namespace FreeToken

namespace Df11

open MergeTree Region

/-! ## The heap -/

theorem heappop_eq_none {heap : List HeapItem} : heappop heap = none ↔ heap = [] := by
  cases heap with
  | nil => exact ⟨fun _ => rfl, fun _ => rfl⟩
  | cons x xs =>
      refine ⟨fun h => ?_, fun h => absurd h (List.cons_ne_nil x xs)⟩
      rw [heappop] at h
      split at h
      · cases h
      · split at h <;> cases h

/-- The least item, and the others. -/
theorem heappop_spec {heap rest : List HeapItem} {x : HeapItem} (h : heappop heap = some (x, rest)) :
    heap.Perm (x :: rest) ∧ ∀ y ∈ rest, x.f ≤ y.f := by
  induction heap generalizing x rest with
  | nil => cases h
  | cons a heap ih =>
      rw [heappop] at h
      cases hpop : heappop heap with
      | none =>
          rw [hpop] at h
          obtain ⟨rfl, rfl⟩ := Prod.mk.inj (Option.some.inj h)
          rw [heappop_eq_none.mp hpop]
          exact ⟨.refl _, fun y hy => absurd hy List.not_mem_nil⟩
      | some p =>
          obtain ⟨b, ys⟩ := p
          obtain ⟨hperm, hle⟩ := ih hpop
          rw [hpop] at h
          simp only at h
          split at h
          · rename_i hbefore
            obtain ⟨rfl, rfl⟩ := Prod.mk.inj (Option.some.inj h)
            have hab : a.f ≤ b.f := by
              unfold HeapItem.before at hbefore
              simp only [Bool.or_eq_true, Bool.and_eq_true, decide_eq_true_eq] at hbefore
              omega
            refine ⟨.refl _, fun y hy => ?_⟩
            rcases List.mem_cons.mp (hperm.mem_iff.mp hy) with rfl | hy
            · exact hab
            · exact Nat.le_trans hab (hle y hy)
          · rename_i hbefore
            obtain ⟨rfl, rfl⟩ := Prod.mk.inj (Option.some.inj h)
            have hba : b.f ≤ a.f := by
              unfold HeapItem.before at hbefore
              simp only [Bool.or_eq_true, Bool.and_eq_true, decide_eq_true_eq] at hbefore
              omega
            refine ⟨(hperm.cons a).trans (.swap b a ys), fun y hy => ?_⟩
            rcases List.mem_cons.mp hy with rfl | hy
            · exact hba
            · exact hle y hy

/-- What a merge of the two least items keeps holds of the tree that is left. -/
theorem mergeLoop_spec {P : List HeapItem → Prop}
    (hstep : ∀ (heap rest : List HeapItem) (x y : HeapItem) (order : Nat),
      heap.Perm (x :: y :: rest) → x.f ≤ y.f → (∀ z ∈ rest, y.f ≤ z.f) → P heap →
      P (⟨x.f + y.f, order, .node x.node y.node⟩ :: rest)) :
    ∀ (fuel order : Nat) (heap : List HeapItem), heap ≠ [] → heap.length ≤ fuel → P heap →
      ∃ root, mergeLoop fuel order heap = [root] ∧ P [root]
  | 0, _, heap, hne, hlen, _ =>
      absurd (List.length_eq_zero_iff.mp (Nat.le_zero.mp hlen)) hne
  | fuel + 1, order, heap, hne, hlen, hP => by
      rw [mergeLoop]
      cases hx : heappop heap with
      | none => exact absurd (heappop_eq_none.mp hx) hne
      | some p =>
          obtain ⟨x, rest⟩ := p
          obtain ⟨hperm, hxle⟩ := heappop_spec hx
          simp only
          cases hy : heappop rest with
          | none =>
              rw [heappop_eq_none.mp hy] at hperm
              rw [List.perm_singleton.mp hperm] at hP ⊢
              exact ⟨x, rfl, hP⟩
          | some q =>
              obtain ⟨y, rest'⟩ := q
              obtain ⟨hperm', hyle⟩ := heappop_spec hy
              have hall : heap.Perm (x :: y :: rest') := hperm.trans (hperm'.cons x)
              have hxy : x.f ≤ y.f := hxle y (hperm'.mem_iff.mpr List.mem_cons_self)
              apply mergeLoop_spec hstep fuel
              · exact List.cons_ne_nil _ _
              · have := hall.length_eq
                rw [List.length_cons, List.length_cons] at this
                rw [List.length_cons]
                omega
              · exact hstep heap rest' x y order hall hxy hyle hP

/-! ## Lengths -/

/-- Lengths for these symbols, with room for the codes among `2 ^ L` cells. -/
structure Lengths (freq lengths : List (Nat × Nat)) : Prop where
  keys : (lengths.map Prod.fst).Perm (freq.map Prod.fst)
  pos : ∀ p ∈ lengths, 1 ≤ p.2
  kraft : ∀ L, (∀ p ∈ lengths, p.2 ≤ L) → (lengths.map fun p => 2 ^ (L - p.2)).sum ≤ 2 ^ L

theorem leafHeap_leaves (freq : List (Nat × Nat)) :
    ((leafHeap freq).flatMap fun x => x.node.leaves) = freq.map Prod.fst := by
  unfold leafHeap
  rw [List.flatMap_def]
  apply List.ext_getElem?
  induction freq using List.reverseRecOn with
  | nil => exact fun _ => rfl
  | append_singleton freq p ih =>
      intro i
      rw [List.mapIdx_concat, List.map_append, List.flatten_append, List.map_append]
      have hpre := List.ext_getElem? ih
      rw [hpre]
      rfl

/-- The codes of these lengths leave no cell free. -/
def Full (lengths : List (Nat × Nat)) : Prop :=
  ∀ L, (∀ p ∈ lengths, p.2 ≤ L) → (lengths.map fun p => 2 ^ (L - p.2)).sum = 2 ^ L

theorem full_node (l r : MergeTree.Tree Nat) :
    Full (((MergeTree.Tree.node l r).depths 0).map fun p => (p.1, max p.2 1)) := by
  intro L hL
  have hdeep : ∀ p ∈ (MergeTree.Tree.node l r).depths 0, 1 ≤ p.2 := by
    intro p hp
    rcases List.mem_append.mp hp with hp | hp <;> exact (MergeTree.Tree.depths_le hp).1
  have hsame : ((MergeTree.Tree.node l r).depths 0).map ((fun p => 2 ^ (L - p.2)) ∘
      fun p => (p.1, max p.2 1)) =
        ((MergeTree.Tree.node l r).depths 0).map fun p => 2 ^ (L - p.2) := by
    apply List.map_congr_left
    intro p hp
    show 2 ^ (L - max p.2 1) = 2 ^ (L - p.2)
    rw [Nat.max_eq_left (hdeep p hp)]
  rw [List.map_map, hsame]
  apply MergeTree.Tree.kraft
  intro p hp
  have := hL _ (List.mem_map.mpr ⟨p, hp, rfl⟩)
  simp only at this
  omega

theorem lengths_of_tree {freq : List (Nat × Nat)} {t : MergeTree.Tree Nat}
    (hleaves : t.leaves.Perm (freq.map Prod.fst)) :
    Lengths freq ((t.depths 0).map fun p => (p.1, max p.2 1)) where
  keys := by
    rw [List.map_map]
    show ((t.depths 0).map Prod.fst).Perm _
    rw [t.depths_fst 0]
    exact hleaves
  pos := by
    intro p hp
    obtain ⟨q, -, rfl⟩ := List.mem_map.mp hp
    exact Nat.le_max_right _ _
  kraft := by
    intro L hL
    cases t with
    | leaf a =>
        show 2 ^ (L - 1) + 0 ≤ 2 ^ L
        rw [Nat.add_zero]
        exact Nat.pow_le_pow_right (by omega) (Nat.sub_le L 1)
    | node l r => exact (full_node l r L hL).le

/-- A lone symbol, or a tree that merging has left; `P` is what merging keeps. -/
theorem huffmanLengths_cases {P : List HeapItem → Prop}
    (hstep : ∀ (heap rest : List HeapItem) (x y : HeapItem) (order : Nat),
      heap.Perm (x :: y :: rest) → x.f ≤ y.f → (∀ z ∈ rest, y.f ≤ z.f) → P heap →
      P (⟨x.f + y.f, order, .node x.node y.node⟩ :: rest))
    {freq : List (Nat × Nat)} (hne : freq ≠ []) (hP : P (leafHeap freq)) :
    (∃ sym f, freq = [(sym, f)] ∧ huffmanLengths freq = some [(sym, 1)]) ∨
      ∃ root, P [root] ∧
        huffmanLengths freq = some ((root.node.depths 0).map fun p => (p.1, max p.2 1)) := by
  have hlen : (leafHeap freq).length = freq.length := List.length_mapIdx
  have hheap : leafHeap freq ≠ [] := by
    intro h
    rw [h] at hlen
    exact hne (List.length_eq_zero_iff.mp hlen.symm)
  obtain ⟨root, hloop, hroot⟩ :=
    mergeLoop_spec hstep freq.length freq.length (leafHeap freq) hheap (Nat.le_of_eq hlen) hP
  match freq, hne with
  | [(sym, f)], _ => exact .inl ⟨sym, f, rfl, rfl⟩
  | p :: q :: rest, _ =>
      refine .inr ⟨root, hroot, ?_⟩
      rw [huffmanLengths, hloop]
      intro sym f h
      cases h

/-- The lengths are depths in a tree over the symbols. -/
theorem huffmanLengths_tree {freq : List (Nat × Nat)} (hne : freq ≠ []) :
    ∃ t : MergeTree.Tree Nat, t.leaves.Perm (freq.map Prod.fst) ∧
      huffmanLengths freq = some ((t.depths 0).map fun p => (p.1, max p.2 1)) := by
  have hstep : ∀ (heap rest : List HeapItem) (x y : HeapItem) (order : Nat),
      heap.Perm (x :: y :: rest) → x.f ≤ y.f → (∀ z ∈ rest, y.f ≤ z.f) →
      (heap.flatMap fun z => z.node.leaves).Perm (freq.map Prod.fst) →
      ((⟨x.f + y.f, order, .node x.node y.node⟩ :: rest).flatMap fun z =>
        z.node.leaves).Perm (freq.map Prod.fst) := by
    intro heap rest x y order hperm _ _ hleaves
    have hflat := (hperm.flatMap_right fun z => z.node.leaves).symm.trans hleaves
    rw [List.flatMap_cons, List.flatMap_cons, ← List.append_assoc] at hflat
    rw [List.flatMap_cons]
    exact hflat
  have hleaf : ((leafHeap freq).flatMap fun z => z.node.leaves).Perm (freq.map Prod.fst) := by
    rw [leafHeap_leaves]
  rcases huffmanLengths_cases hstep hne hleaf with ⟨sym, f, hfreq, hlengths⟩ | ⟨root, hroot, hlengths⟩
  · refine ⟨.leaf sym, ?_, hlengths⟩
    rw [hfreq]
    exact .refl _
  · rw [List.flatMap_singleton] at hroot
    exact ⟨root.node, hroot, hlengths⟩

theorem huffmanLengths_spec {freq : List (Nat × Nat)} (hne : freq ≠ []) :
    ∃ lengths, huffmanLengths freq = some lengths ∧ Lengths freq lengths := by
  obtain ⟨t, hleaves, hrun⟩ := huffmanLengths_tree hne
  exact ⟨_, hrun, lengths_of_tree hleaves⟩

/-- Equal counts give no longer codes than a full tree. -/
theorem huffmanLengths_even {freq lengths : List (Nat × Nat)} {F m : Nat} (hF : 0 < F) (hm : 1 ≤ m)
    (hne : freq ≠ []) (heq : ∀ p ∈ freq, p.2 = F) (hcount : freq.length ≤ 2 ^ m)
    (h : huffmanLengths freq = some lengths) : ∀ p ∈ lengths, p.2 ≤ m := by
  let entry : HeapItem → Nat × Nat := fun x => (x.f, x.node.height)
  have hstep : ∀ (heap rest : List HeapItem) (x y : HeapItem) (order : Nat),
      heap.Perm (x :: y :: rest) → x.f ≤ y.f → (∀ z ∈ rest, y.f ≤ z.f) →
      (∃ k, Even F k (heap.map entry)) ∧ (heap.map HeapItem.f).sum = F * freq.length →
      (∃ k, Even F k ((⟨x.f + y.f, order, .node x.node y.node⟩ :: rest).map entry)) ∧
        ((⟨x.f + y.f, order, .node x.node y.node⟩ :: rest).map HeapItem.f).sum =
          F * freq.length := by
    rintro heap rest x y order hperm hxy hy ⟨⟨k, hk⟩, hsum⟩
    constructor
    · have heven : Even F k (entry x :: entry y :: rest.map entry) := hk.perm (hperm.map entry)
      apply heven.merge hF hxy
      intro e he
      obtain ⟨z, hz, rfl⟩ := List.mem_map.mp he
      exact hy z hz
    · rw [(hperm.map HeapItem.f).sum_eq] at hsum
      rw [List.map_cons, List.map_cons, List.sum_cons, List.sum_cons, ← Nat.add_assoc] at hsum
      rw [List.map_cons, List.sum_cons]
      exact hsum
  have hleaf : (∃ k, Even F k ((leafHeap freq).map entry)) ∧
      ((leafHeap freq).map HeapItem.f).sum = F * freq.length := by
    constructor
    · refine ⟨0, even_leaves F fun e he => ?_⟩
      obtain ⟨x, hx, rfl⟩ := List.mem_map.mp he
      obtain ⟨i, hi, hx⟩ := List.mem_mapIdx.mp hx
      rw [← hx]
      show (freq[i].2, 0) = (F, 0)
      rw [heq _ (List.getElem_mem hi)]
    · have hconst : (leafHeap freq).map HeapItem.f = List.replicate freq.length F := by
        apply List.eq_replicate_iff.mpr
        refine ⟨by rw [List.length_map]; exact List.length_mapIdx, fun f hf => ?_⟩
        obtain ⟨x, hx, rfl⟩ := List.mem_map.mp hf
        obtain ⟨i, hi, hx⟩ := List.mem_mapIdx.mp hx
        rw [← hx]
        exact heq _ (List.getElem_mem hi)
      rw [hconst, List.sum_replicate, smul_eq_mul, Nat.mul_comm]
  rcases huffmanLengths_cases hstep hne hleaf with ⟨sym, f, -, hlengths⟩ | ⟨root, ⟨⟨k, hk⟩, hsum⟩, hlengths⟩
  · rw [hlengths] at h
    obtain rfl := Option.some.inj h
    intro p hp
    rw [List.mem_singleton.mp hp]
    exact hm
  · rw [hlengths] at h
    obtain rfl := Option.some.inj h
    have hroot : [root].map entry = [(F * freq.length, root.node.height)] := by
      rw [← hsum]
      rfl
    rw [hroot] at hk
    have hheight := hk.height_le hF hcount
    intro p hp
    obtain ⟨q, hq, rfl⟩ := List.mem_map.mp hp
    have := (MergeTree.Tree.depths_le hq).2
    show max q.2 1 ≤ m
    omega

/-! ## The floor -/

theorem le_foldl_max (xs : List Nat) (init : Nat) :
    init ≤ xs.foldl max init ∧ ∀ x ∈ xs, x ≤ xs.foldl max init := by
  induction xs generalizing init with
  | nil => exact ⟨Nat.le_refl _, fun x hx => absurd hx List.not_mem_nil⟩
  | cons y ys ih =>
      obtain ⟨hinit, hall⟩ := ih (max init y)
      refine ⟨Nat.le_trans (Nat.le_max_left _ _) hinit, fun x hx => ?_⟩
      rcases List.mem_cons.mp hx with rfl | hx
      · exact Nat.le_trans (Nat.le_max_right _ _) hinit
      · exact hall x hx

theorem foldl_max_le {xs : List Nat} {init m : Nat} (hinit : init ≤ m) (h : ∀ x ∈ xs, x ≤ m) :
    xs.foldl max init ≤ m := by
  induction xs generalizing init with
  | nil => exact hinit
  | cons y ys ih =>
      apply ih
      · exact Nat.max_le.mpr ⟨hinit, h y List.mem_cons_self⟩
      · exact fun x hx => h x (List.mem_cons_of_mem y hx)

theorem maxLength_le_iff {lengths : List (Nat × Nat)} {m : Nat} :
    maxLength lengths ≤ m ↔ ∀ p ∈ lengths, p.2 ≤ m := by
  unfold maxLength
  constructor
  · intro h p hp
    exact Nat.le_trans ((le_foldl_max _ 0).2 p.2 (List.mem_map_of_mem hp)) h
  · intro h
    apply foldl_max_le (Nat.zero_le m)
    intro x hx
    obtain ⟨p, hp, rfl⟩ := List.mem_map.mp hx
    exact h p hp

theorem lengthLimitedLoop_succ {lmax fuel floor : Nat} {f lengths : List (Nat × Nat)}
    (h : huffmanLengths f = some lengths) :
    lengthLimitedLoop lmax (fuel + 1) floor f =
      if maxLength lengths ≤ lmax then some lengths
      else lengthLimitedLoop lmax fuel (floor * 2) (f.map fun p => (p.1, max p.2 (floor * 2))) := by
  rw [lengthLimitedLoop, h]
  rfl

/-- The floor has `fuel` doublings left to pass every count. -/
theorem lengthLimitedLoop_spec {lmax M : Nat} (hlmax : 1 ≤ lmax) :
    ∀ (fuel floor : Nat) {f : List (Nat × Nat)}, 0 < floor → f ≠ [] → f.length ≤ 2 ^ lmax →
      (∀ p ∈ f, floor ≤ p.2 ∧ p.2 ≤ max M floor) → M ≤ floor * 2 ^ fuel →
      ∃ lengths, lengthLimitedLoop lmax (fuel + 1) floor f = some lengths ∧ Lengths f lengths ∧
        ∀ p ∈ lengths, p.2 ≤ lmax := by
  intro fuel
  induction fuel with
  | zero =>
      intro floor f hfloor hne hcount hf hM
      rw [Nat.pow_zero, Nat.mul_one] at hM
      obtain ⟨lengths, hrun, hlengths⟩ := huffmanLengths_spec hne
      have heq : ∀ p ∈ f, p.2 = floor := by
        intro p hp
        have := hf p hp
        omega
      have hle := huffmanLengths_even hfloor hlmax hne heq hcount hrun
      refine ⟨lengths, ?_, hlengths, hle⟩
      rw [lengthLimitedLoop_succ hrun]
      exact if_pos (maxLength_le_iff.mpr hle)
  | succ fuel ih =>
      intro floor f hfloor hne hcount hf hM
      obtain ⟨lengths, hrun, hlengths⟩ := huffmanLengths_spec hne
      rw [lengthLimitedLoop_succ hrun]
      by_cases hle : maxLength lengths ≤ lmax
      · exact ⟨lengths, if_pos hle, hlengths, maxLength_le_iff.mp hle⟩
      · rw [if_neg hle]
        have hkeys : (f.map fun p => (p.1, max p.2 (floor * 2))).map Prod.fst = f.map Prod.fst := by
          rw [List.map_map]
          rfl
        obtain ⟨lengths', hrun', hlengths', hle'⟩ := ih (floor * 2) (f := f.map fun p =>
          (p.1, max p.2 (floor * 2))) (by omega) (by rwa [Ne, List.map_eq_nil_iff])
          (by rwa [List.length_map]) (by
            intro p hp
            obtain ⟨q, hq, rfl⟩ := List.mem_map.mp hp
            have := hf q hq
            refine ⟨Nat.le_max_right _ _, ?_⟩
            show max q.2 (floor * 2) ≤ max M (floor * 2)
            omega) (by rwa [Nat.mul_assoc, ← Nat.pow_succ'])
        refine ⟨lengths', hrun', ⟨?_, hlengths'.pos, hlengths'.kraft⟩, hle'⟩
        rw [← hkeys]
        exact hlengths'.keys

/-- Up to `2 ^ lmax` symbols that occur have lengths up to `lmax`. -/
theorem lengthLimitedLengths_spec {freq : List (Nat × Nat)} {lmax : Nat} (hlmax : 1 ≤ lmax)
    (hne : freq ≠ []) (hcount : freq.length ≤ 2 ^ lmax) (hpos : ∀ p ∈ freq, 0 < p.2) :
    ∃ lengths, lengthLimitedLengths freq lmax = some lengths ∧ Lengths freq lengths ∧
      ∀ p ∈ lengths, p.2 ≤ lmax := by
  apply lengthLimitedLoop_spec (M := (freq.map Prod.snd).sum) hlmax
  · omega
  · exact hne
  · exact hcount
  · intro p hp
    have hle : p.2 ≤ (freq.map Prod.snd).sum :=
      List.single_le_sum (fun _ _ => Nat.zero_le _) p.2 (List.mem_map_of_mem hp)
    have := hpos p hp
    omega
  · rw [Nat.one_mul]
    exact Nat.le_of_lt Nat.lt_two_pow_self

/-! ## Canonical codes -/

/-- The cells of a table of `2 ^ L` that start with a code. -/
def cellOff (L : Nat) (c : Nat × Nat × Nat) : Nat := c.2.1 * 2 ^ (L - c.2.2)

def cellLen (L : Nat) (c : Nat × Nat × Nat) : Nat := 2 ^ (L - c.2.2)

/-- Increment and shift moves to the next free cell. -/
theorem codesFrom_laid {L : Nat} : ∀ {items : List (Nat × Nat)} {code prevLen : Nat},
    (∀ p ∈ items, prevLen ≤ p.2 ∧ p.2 ≤ L) → items.Pairwise (fun p q => p.2 ≤ q.2) → prevLen ≤ L →
      Laid (cellOff L) (cellLen L) ((code + 1) * 2 ^ (L - prevLen)) (codesFrom code prevLen items)
  | [], _, _, _, _, _ => trivial
  | (sym, length) :: rest, code, prevLen, hlen, hsorted, hprev => by
      obtain ⟨hge, hle⟩ := hlen _ List.mem_cons_self
      obtain ⟨hfirst, hsorted⟩ := List.pairwise_cons.mp hsorted
      have hoff : ((code + 1) <<< (length - prevLen)) * 2 ^ (L - length) =
          (code + 1) * 2 ^ (L - prevLen) := by
        rw [Nat.shiftLeft_eq, Nat.mul_assoc, ← Nat.pow_add]
        congr 2
        simp only at hge hle
        omega
      refine ⟨hoff, ?_⟩
      have ih := @codesFrom_laid L rest ((code + 1) <<< (length - prevLen)) length
        (fun p hp => ⟨hfirst p hp, (hlen p (List.mem_cons_of_mem _ hp)).2⟩) hsorted hle
      rw [Nat.add_mul, Nat.one_mul, hoff] at ih
      exact ih

theorem codesFrom_items (items : List (Nat × Nat)) (code prevLen : Nat) :
    (codesFrom code prevLen items).map (fun c => (c.1, c.2.2)) = items := by
  induction items generalizing code prevLen with
  | nil => rfl
  | cons p items ih =>
      rw [codesFrom, List.map_cons, ih]

/-- Every symbol has a code of its length, and the codes are intervals one behind the other. -/
structure Codes (L : Nat) (lengths : List (Nat × Nat)) (codes : List (Nat × Nat × Nat)) : Prop where
  items : (codes.map fun c => (c.1, c.2.2)).Perm lengths
  laid : Laid (cellOff L) (cellLen L) 0 codes

theorem canonicalCodes_spec {L : Nat} {lengths : List (Nat × Nat)} (hle : ∀ p ∈ lengths, p.2 ≤ L) :
    Codes L lengths (canonicalCodes lengths) := by
  let le : Nat × Nat → Nat × Nat → Bool := fun a b =>
    decide (a.2 < b.2 ∨ (a.2 = b.2 ∧ a.1 ≤ b.1))
  have hperm : (lengths.mergeSort le).Perm lengths := List.mergeSort_perm lengths le
  have hsorted : (lengths.mergeSort le).Pairwise (fun a b => le a b = true) := by
    apply List.pairwise_mergeSort
    · intro a b c hab hbc
      have h₁ := of_decide_eq_true hab
      have h₂ := of_decide_eq_true hbc
      apply decide_eq_true
      omega
    · intro a b
      show (decide _ || decide _) = true
      rw [Bool.or_eq_true, decide_eq_true_eq, decide_eq_true_eq]
      omega
  have hsorted' : (lengths.mergeSort le).Pairwise (fun a b => a.2 ≤ b.2) := by
    apply hsorted.imp
    intro a b hab
    have := of_decide_eq_true hab
    omega
  have hle' : ∀ p ∈ lengths.mergeSort le, p.2 ≤ L := fun p hp => hle p (hperm.mem_iff.mp hp)
  have hdef : lengths.mergeSort le =
      lengths.mergeSort fun a b => decide (a.2 < b.2 ∨ (a.2 = b.2 ∧ a.1 ≤ b.1)) := rfl
  unfold canonicalCodes
  rw [← hdef]
  generalize lengths.mergeSort le = sorted at hperm hsorted' hle' ⊢
  cases sorted with
  | nil => exact ⟨hperm, trivial⟩
  | cons p rest =>
      obtain ⟨sym, length⟩ := p
      obtain ⟨hfirst, hrest⟩ := List.pairwise_cons.mp hsorted'
      constructor
      · rw [List.map_cons, codesFrom_items]
        exact hperm
      · refine ⟨Nat.zero_mul _, ?_⟩
        have hlaid := @codesFrom_laid L rest 0 length
          (fun p hp => ⟨hfirst p hp, hle' p (List.mem_cons_of_mem _ hp)⟩) hrest
          (hle' _ List.mem_cons_self)
        rw [Nat.zero_add, Nat.one_mul] at hlaid
        rw [Nat.zero_add]
        exact hlaid

/-- Kraft's inequality: the cells of all codes fit the table. -/
theorem Codes.total_le {L : Nat} {freq lengths : List (Nat × Nat)} {codes : List (Nat × Nat × Nat)}
    (h : Codes L lengths codes) (hlengths : Lengths freq lengths) (hle : ∀ p ∈ lengths, p.2 ≤ L) :
    total (cellLen L) codes ≤ 2 ^ L := by
  have hsum := ((h.items.map fun p => 2 ^ (L - p.2)).sum_eq)
  rw [List.map_map] at hsum
  exact hsum.trans_le (hlengths.kraft L hle)

theorem Codes.len_le {L : Nat} {lengths : List (Nat × Nat)} {codes : List (Nat × Nat × Nat)}
    {c : Nat × Nat × Nat} (h : Codes L lengths codes) (hle : ∀ p ∈ lengths, p.2 ≤ L) (hc : c ∈ codes) :
    c.2.2 ≤ L :=
  hle (c.1, c.2.2) (h.items.mem_iff.mp (List.mem_map_of_mem hc))

theorem Codes.code_lt {L : Nat} {freq lengths : List (Nat × Nat)} {codes : List (Nat × Nat × Nat)}
    {c : Nat × Nat × Nat} (h : Codes L lengths codes) (hlengths : Lengths freq lengths)
    (hle : ∀ p ∈ lengths, p.2 ≤ L) (hc : c ∈ codes) : c.2.1 < 2 ^ c.2.2 := by
  have hcell := h.laid.bounds hc
  have htotal := h.total_le hlengths hle
  have hfit : (c.2.1 + 1) * 2 ^ (L - c.2.2) ≤ 2 ^ c.2.2 * 2 ^ (L - c.2.2) := by
    rw [← Nat.pow_add, Nat.add_sub_cancel' (h.len_le hle hc), Nat.add_mul, Nat.one_mul]
    show cellOff L c + cellLen L c ≤ 2 ^ L
    omega
  exact Nat.le_of_mul_le_mul_right hfit (Nat.two_pow_pos _)

/-! ## The lookup table -/

theorem getElem?_fillSlice (xs : List Nat) (base span v i : Nat) :
    (fillSlice xs base span v)[i]? =
      if base ≤ i ∧ i < base + span then xs[i]?.map fun _ => v else xs[i]? := by
  unfold fillSlice
  rw [List.getElem?_mapIdx]
  cases xs[i]? with
  | none => split <;> rfl
  | some x =>
      show some (if _ then v else x) = _
      split <;> rfl

/-- The entry of a code. -/
def entry (c : Nat × Nat × Nat) : Nat := c.1 <<< 8 ||| c.2.2

def fillCode (lmax : Nat) (lut : List Nat) (c : Nat × Nat × Nat) : List Nat :=
  fillSlice lut (c.2.1 <<< (lmax - c.2.2)) (1 <<< (lmax - c.2.2)) (entry c)

theorem getElem?_fillCode (lmax : Nat) (lut : List Nat) (c : Nat × Nat × Nat) (i : Nat) :
    (fillCode lmax lut c)[i]? =
      if cellOff lmax c ≤ i ∧ i < cellOff lmax c + cellLen lmax c then lut[i]?.map fun _ => entry c
      else lut[i]? := by
  unfold fillCode
  rw [getElem?_fillSlice, Nat.shiftLeft_eq, Nat.shiftLeft_eq, Nat.one_mul]
  rfl

/-- Cells before the intervals are left as they are. -/
theorem fill_before {lmax i : Nat} : ∀ {codes : List (Nat × Nat × Nat)} {start : Nat}
    {lut : List Nat}, Laid (cellOff lmax) (cellLen lmax) start codes → i < start →
      (codes.foldl (fillCode lmax) lut)[i]? = lut[i]?
  | [], _, _, _, _ => rfl
  | c :: codes, start, lut, h, hi => by
      have hoff := h.1
      rw [List.foldl_cons, fill_before h.2 (by omega), getElem?_fillCode, if_neg (by omega)]

/-- Every cell of a code's interval says the code's symbol and length. -/
theorem fill_at {lmax i : Nat} {c : Nat × Nat × Nat} :
    ∀ {codes : List (Nat × Nat × Nat)} {start : Nat} {lut : List Nat},
      Laid (cellOff lmax) (cellLen lmax) start codes → c ∈ codes → i < lut.length →
      cellOff lmax c ≤ i → i < cellOff lmax c + cellLen lmax c →
      (codes.foldl (fillCode lmax) lut)[i]? = some (entry c)
  | d :: codes, start, lut, h, hc, hi, hl, hr => by
      rw [List.foldl_cons]
      rcases List.mem_cons.mp hc with rfl | hc
      · have hoff := h.1
        rw [fill_before h.2 (by omega), getElem?_fillCode, if_pos ⟨hl, hr⟩, List.getElem?_eq_getElem hi]
        rfl
      · apply fill_at h.2 hc _ hl hr
        show i < (fillCode lmax lut d).length
        unfold fillCode fillSlice
        rw [List.length_mapIdx]
        exact hi

/-- The tables know the symbol: its code fits its length, and a peek that starts with the code finds
symbol and length. -/
structure Coded (t : Tables) (lmax s : Nat) : Prop where
  len_le : t.lenArr.getD s 0 ≤ lmax
  code_lt : t.codeArr.getD s 0 < 2 ^ t.lenArr.getD s 0
  hit : ∀ v, v / 2 ^ (lmax - t.lenArr.getD s 0) = t.codeArr.getD s 0 →
    t.lut[v]? = some (s <<< 8 ||| t.lenArr.getD s 0)

theorem getD_foldl_set {g : Nat × Nat × Nat → Nat} {c : Nat × Nat × Nat} :
    ∀ {codes : List (Nat × Nat × Nat)} {arr : List Nat}, (codes.map Prod.fst).Nodup → c ∈ codes →
      c.1 < arr.length → (codes.foldl (fun arr c => arr.set c.1 (g c)) arr).getD c.1 0 = g c
  | d :: codes, arr, hnodup, hc, hlt => by
      obtain ⟨hfresh, hnodup⟩ := List.nodup_cons.mp hnodup
      rw [List.foldl_cons]
      rcases List.mem_cons.mp hc with rfl | hc
      · have hkeep : ∀ (codes : List (Nat × Nat × Nat)) (arr : List Nat),
            c.1 ∉ codes.map Prod.fst →
            (codes.foldl (fun arr c => arr.set c.1 (g c)) arr).getD c.1 0 = arr.getD c.1 0 := by
          intro codes
          induction codes with
          | nil => exact fun _ _ => rfl
          | cons e codes ih =>
              intro arr hne
              rw [List.map_cons, List.mem_cons, not_or] at hne
              rw [List.foldl_cons, ih _ hne.2, List.getD_eq_getElem?_getD,
                List.getElem?_set_ne (Ne.symm hne.1), ← List.getD_eq_getElem?_getD]
        rw [hkeep codes _ hfresh, List.getD_eq_getElem?_getD, List.getElem?_set_self hlt]
        rfl
      · apply getD_foldl_set hnodup hc
        rw [List.length_set]
        exact hlt

theorem mem_frequencies {hist : List Nat} {p : Nat × Nat} :
    p ∈ frequencies hist ↔ p.1 < hist.length ∧ hist.getD p.1 0 ≠ 0 ∧ p.2 = hist.getD p.1 0 := by
  unfold frequencies
  rw [List.mem_filterMap]
  constructor
  · rintro ⟨s, hs, h⟩
    split at h
    · cases h
    · rename_i hne
      obtain rfl := Option.some.inj h
      exact ⟨List.mem_range.mp hs, hne, rfl⟩
  · rintro ⟨hlt, hne, heq⟩
    refine ⟨p.1, List.mem_range.mpr hlt, ?_⟩
    rw [if_neg hne, ← heq]

theorem frequencies_nodup (hist : List Nat) : ((frequencies hist).map Prod.fst).Nodup := by
  unfold frequencies
  rw [List.map_filterMap]
  apply List.Nodup.filterMap _ List.nodup_range
  intro s s' k hk hk'
  split at hk
  · cases hk
  · split at hk'
    · cases hk'
    · exact (Option.some.inj hk).trans (Option.some.inj hk').symm

/-- Every byte that occurs is coded, for any table of at least 256 cells. -/
theorem huffmanTables_spec {hist : List Nat} {lmax : Nat} (hlen : hist.length = 256)
    (hsome : ∃ s < 256, hist.getD s 0 ≠ 0) (hlmax : 8 ≤ lmax) :
    ∃ t, huffmanTables hist lmax = some t ∧ ∀ s < 256, hist.getD s 0 ≠ 0 → Coded t lmax s := by
  obtain ⟨s₀, hs₀, hne₀⟩ := hsome
  have hne : frequencies hist ≠ [] := by
    apply List.ne_nil_of_mem (a := (s₀, hist.getD s₀ 0))
    exact mem_frequencies.mpr ⟨by rw [hlen]; exact hs₀, hne₀, rfl⟩
  have hcount : (frequencies hist).length ≤ 2 ^ lmax := by
    have hkeys := frequencies_nodup hist
    have hsub : (frequencies hist).map Prod.fst ⊆ List.range 256 := by
      intro s hs
      obtain ⟨p, hp, rfl⟩ := List.mem_map.mp hs
      rw [← hlen]
      exact List.mem_range.mpr (mem_frequencies.mp hp).1
    have hle := (List.subperm_of_subset hkeys hsub).length_le
    rw [List.length_map, List.length_range] at hle
    calc (frequencies hist).length ≤ 2 ^ 8 := hle
      _ ≤ 2 ^ lmax := Nat.pow_le_pow_right (by omega) hlmax
  have hpos : ∀ p ∈ frequencies hist, 0 < p.2 := by
    intro p hp
    obtain ⟨-, hnz, heq⟩ := mem_frequencies.mp hp
    rw [heq]
    exact Nat.pos_of_ne_zero hnz
  obtain ⟨lengths, hrun, hlengths, hle⟩ :=
    lengthLimitedLengths_spec (by omega : 1 ≤ lmax) hne hcount hpos
  have hcodes := canonicalCodes_spec hle
  have htotal := hcodes.total_le hlengths hle
  have hnodup : ((canonicalCodes lengths).map Prod.fst).Nodup := by
    have hfst : (canonicalCodes lengths).map Prod.fst =
        ((canonicalCodes lengths).map fun c => (c.1, c.2.2)).map Prod.fst := by
      rw [List.map_map]
      rfl
    rw [hfst]
    have hperm := (hcodes.items.map Prod.fst).trans hlengths.keys
    exact hperm.nodup_iff.mpr (frequencies_nodup hist)
  refine ⟨_, by unfold huffmanTables; rw [hrun]; rfl, fun s hs hnz => ?_⟩
  -- the code of the symbol
  have hmem : ∃ c ∈ canonicalCodes lengths, c.1 = s := by
    have hkey : s ∈ (frequencies hist).map Prod.fst :=
      List.mem_map.mpr ⟨(s, hist.getD s 0),
        mem_frequencies.mpr ⟨by rw [hlen]; exact hs, hnz, rfl⟩, rfl⟩
    obtain ⟨p, hp, hps⟩ := List.mem_map.mp (hlengths.keys.mem_iff.mpr hkey)
    obtain ⟨c, hc, hcp⟩ := List.mem_map.mp (hcodes.items.mem_iff.mpr hp)
    refine ⟨c, hc, ?_⟩
    rw [← hps, ← hcp]
  obtain ⟨c, hc, rfl⟩ := hmem
  have hclen : c.2.2 ≤ lmax := hcodes.len_le hle hc
  have hcode := @getD_foldl_set (fun c => c.2.1) c _ (List.replicate 256 0) hnodup hc
    (by rw [List.length_replicate]; exact hs)
  have hlength := @getD_foldl_set (fun c => c.2.2) c _ (List.replicate 256 0) hnodup hc
    (by rw [List.length_replicate]; exact hs)
  have hcell := hcodes.laid.bounds hc
  have hcells : cellOff lmax c + cellLen lmax c ≤ 2 ^ lmax := by omega
  constructor
  case len_le =>
    rw [hlength]
    exact hclen
  case code_lt =>
    rw [hlength, hcode]
    exact hcodes.code_lt hlengths hle hc
  case hit =>
    rw [hlength, hcode]
    intro v hv
    have hdm := Nat.div_add_mod v (2 ^ (lmax - c.2.2))
    have hmod := Nat.mod_lt v (Nat.two_pow_pos (lmax - c.2.2))
    rw [hv, Nat.mul_comm] at hdm
    have hl : cellOff lmax c ≤ v := by
      unfold cellOff
      omega
    have hr : v < cellOff lmax c + cellLen lmax c := by
      unfold cellOff cellLen
      omega
    exact fill_at hcodes.laid hc (by rw [List.length_replicate, Nat.one_shiftLeft]; omega) hl hr

end Df11

end FreeToken
