import FreeToken.Lib.BlockTrie
import Mathlib.Data.List.MinMax

/-!
# Paths of a block trie

The chain of nodes from a boundary up to the root, the values read along it, and one step of a
descent: following the child that starts with the next block of a key sequence.
-/

set_option autoImplicit false

namespace BlockTrie

open Blocks

variable {α β μ : Type*} {bs : Nat} {t : List (Node α β μ)}

/-- Induction up a boundary's path. -/
theorem WF.boundary_induction (h : WF bs t) {P : List α → Prop} (hroot : P [])
    (hstep : ∀ n ∈ t, P n.pre → P n.path) {r : List α} (hr : Boundary t r) : P r := by
  induction hlen : r.length using Nat.strong_induction_on generalizing r with
  | _ len ih =>
    subst hlen
    rcases hr with rfl | ⟨n, hn, rfl⟩
    · exact hroot
    · exact hstep n hn (ih _ (h.covers_path hn).lt (h.parent n hn) rfl)

/-- The first block of an edge on a path is the path's block there. -/
theorem Node.block_eq {n : Node α β μ} (hbs : bs ≤ n.key.length) {r : List α} (hp : n.path <+: r) :
    n.key.take bs = (r.drop n.pre.length).take bs := by
  obtain ⟨s, rfl⟩ := hp
  rw [Node.path, List.append_assoc, List.drop_left, List.take_append_of_le_length hbs]

/-- The next node on the path to a boundary. -/
theorem WF.exists_child (h : WF bs t) {p r : List α} (hp : Boundary t p) (hr : Boundary t r)
    (hpr : p <+: r) (hlt : p.length < r.length) : ∃ m ∈ t, m.pre = p ∧ m.path <+: r := by
  induction hlen : r.length using Nat.strong_induction_on generalizing r with
  | _ len ih =>
    subst hlen
    rcases hr with rfl | ⟨n, hn, rfl⟩
    · simp at hlt
    · by_cases hpn : p.length < n.pre.length
      · have hpp : p <+: n.pre :=
          List.prefix_of_prefix_length_le hpr n.pre_prefix hpn.le
        obtain ⟨m, hm, hmp, hmr⟩ :=
          ih _ (h.covers_path hn).lt (h.parent n hn) hpp hpn rfl
        exact ⟨m, hm, hmp, hmr.trans n.pre_prefix⟩
      · have hpp : n.pre <+: p :=
          List.prefix_of_prefix_length_le n.pre_prefix hpr (Nat.le_of_not_lt hpn)
        refine ⟨n, hn, ?_, List.prefix_rfl⟩
        by_contra hne
        have hplt : n.pre.length < p.length := by
          refine lt_of_le_of_ne hpp.length_le fun he => hne (hpp.eq_of_length he)
        have := h.boundary_eq hn hp hplt hpr
        rw [this] at hlt
        exact absurd hlt (Nat.lt_irrefl _)

/-- No path runs on below a leaf. -/
theorem WF.leaf_eq [DecidableEq α] (h : WF bs t) {n m : Node α β μ} (hn : n ∈ t)
    (hl : isLeaf t n.path = true) (hm : m ∈ t) (hp : n.path <+: m.path) : m = n := by
  rcases Nat.lt_or_ge n.path.length m.path.length with hlt | hge
  · obtain ⟨k, hk, hkp, -⟩ := h.exists_child (.inr ⟨n, hn, rfl⟩) (.inr ⟨m, hm, rfl⟩) hp hlt
    exact absurd hkp (isLeaf_iff.1 hl k hk)
  · exact h.eq_of_path hm hn (hp.eq_of_length (Nat.le_antisymm hp.length_le hge)).symm

/-- Below every node there is a leaf: the deepest node that runs through it. -/
theorem WF.exists_leaf_below [DecidableEq α] (h : WF bs t) {n : Node α β μ} (hn : n ∈ t) :
    ∃ m ∈ t, n.path <+: m.path ∧ isLeaf t m.path = true := by
  have hself : n ∈ t.filter (fun m => n.path <+: m.path) := by simp [hn]
  cases hm : (t.filter (fun m => n.path <+: m.path)).argmax (fun m => m.path.length) with
  | none => exact absurd hself (List.argmax_eq_none.1 hm ▸ List.not_mem_nil)
  | some m =>
      have hmem := List.argmax_mem hm
      simp only [List.mem_filter, decide_eq_true_eq] at hmem
      refine ⟨m, hmem.1, hmem.2, isLeaf_iff.2 fun k hk hpre => ?_⟩
      -- a child of the deepest node would be deeper
      have hpm : m.path <+: k.path := hpre ▸ k.pre_prefix
      have hle : k.path.length ≤ m.path.length :=
        List.le_of_mem_argmax (f := fun m : Node α β μ => m.path.length)
          (by simp [hk, hmem.2.trans hpm]) hm
      have hlt := (h.covers_path hk).lt
      rw [hpre] at hlt
      omega

/-- The value at position `k` of the path `p` is `x`. -/
def ReadsAt (t : List (Node α β μ)) (p : List α) (k : Nat) (x : β) : Prop :=
  ∃ n ∈ t, n.path <+: p ∧ n.pre.length ≤ k ∧ n.value[k - n.pre.length]? = some x

/-- `f` lists the values along the path `p`. -/
def Reads (t : List (Node α β μ)) (p : List α) (f : Nat → β) : Prop :=
  ∀ k < p.length, ReadsAt t p k (f k)

theorem ReadsAt.mono {p r : List α} {k : Nat} {x : β} (h : ReadsAt t p k x) (hpr : p <+: r) :
    ReadsAt t r k x := by
  obtain ⟨n, hn, hp, hle, hv⟩ := h
  exact ⟨n, hn, hp.trans hpr, hle, hv⟩

theorem reads_nil (f : Nat → β) : Reads t [] f := fun k hk => absurd hk (by simp)

theorem Reads.congr {p : List α} {f g : Nat → β} (h : Reads t p f)
    (hfg : ∀ k < p.length, f k = g k) : Reads t p g := by
  intro k hk
  obtain ⟨n, hn, hp, hle, hv⟩ := h k hk
  exact ⟨n, hn, hp, hle, hfg k hk ▸ hv⟩

/-- At most one node of a path holds a position. -/
theorem WF.eq_of_position (h : WF bs t) {p : List α} {n m : Node α β μ} (hn : n ∈ t) (hm : m ∈ t)
    (hnp : n.path <+: p) (hmp : m.path <+: p) {k : Nat} (hnle : n.pre.length ≤ k)
    (hnlt : k < n.path.length) (hmle : m.pre.length ≤ k) (hmlt : k < m.path.length) : n = m := by
  rcases Nat.le_total n.path.length m.path.length with hle | hle
  · have hpre := List.prefix_of_prefix_length_le hnp hmp hle
    exact h.eq_of_path hn hm (h.boundary_eq hm (.inr ⟨n, hn, rfl⟩) (by omega) hpre)
  · have hpre := List.prefix_of_prefix_length_le hmp hnp hle
    exact (h.eq_of_path hm hn (h.boundary_eq hn (.inr ⟨m, hm, rfl⟩) (by omega) hpre)).symm

/-- At most one value can be read at a position. -/
theorem WF.readsAt_unique (h : WF bs t) {p : List α} {k : Nat} {x y : β} (hx : ReadsAt t p k x)
    (hy : ReadsAt t p k y) : x = y := by
  have hlen : ∀ {n : Node α β μ} {z : β}, n ∈ t → n.value[k - n.pre.length]? = some z →
      n.pre.length ≤ k → k < n.path.length := by
    intro n z hn hz hle
    have hlt := (List.getElem?_eq_some_iff.1 hz).1
    rw [h.value_length n hn] at hlt
    rw [Node.path_length]
    omega
  obtain ⟨n, hn, hnp, hnle, hnv⟩ := hx
  obtain ⟨m, hm, hmp, hmle, hmv⟩ := hy
  have hnk := hlen hn hnv hnle
  have hmk := hlen hm hmv hmle
  obtain rfl := h.eq_of_position hn hm hnp hmp hnle hnk hmle hmk
  exact Option.some.inj (hnv.symm.trans hmv)

theorem WF.lt_of_value (h : WF bs t) {n : Node α β μ} (hn : n ∈ t) {k : Nat} {x : β}
    (hk : n.pre.length ≤ k) (hv : n.value[k - n.pre.length]? = some x) : k < n.path.length := by
  have hlt := (List.getElem?_eq_some_iff.1 hv).1
  rw [h.value_length n hn] at hlt
  rw [Node.path_length]
  omega

/-- Reading stays valid on the part of a path above a node's end. -/
theorem Reads.above (h : WF bs t) {p r : List α} {f : Nat → β} (hf : Reads t p f)
    (hr : Boundary t r) (hrp : r <+: p) : Reads t r f := by
  intro k hk
  obtain ⟨n, hn, hnp, hle, hv⟩ := hf k (lt_of_lt_of_le hk hrp.length_le)
  refine ⟨n, hn, ?_, hle, hv⟩
  by_cases hlen : n.path.length ≤ r.length
  · exact List.prefix_of_prefix_length_le hnp hrp hlen
  · have hrn : r <+: n.path :=
      List.prefix_of_prefix_length_le hrp hnp (Nat.le_of_not_le hlen)
    have := h.boundary_eq hn hr (by omega) hrn
    exact absurd this (by rintro rfl; exact hlen le_rfl)

theorem Cut.reads [DecidableEq α] {n : Node α β μ} {pos : Nat} (h : WF bs t) (hc : Cut bs t n pos)
    (dp ds : μ → μ) {p : List α} {f : Nat → β} (hf : Reads t p f) :
    Reads (split t n.path pos dp ds) p f := by
  intro k hk
  obtain ⟨m, hm, hmp, hle, hv⟩ := hf k hk
  by_cases hmn : m.path = n.path
  · obtain rfl := h.eq_of_path hm hc.mem hmn
    by_cases hkp : k - m.pre.length < pos
    · refine ⟨_, mem_split.2 (.inr ⟨m, hm, rfl, Node.mem_halves.2 (.inl rfl)⟩),
        (m.path_left pos _ _).trans hmp, hle, ?_⟩
      rw [← hv]
      exact List.getElem?_take_of_lt hkp
    · have hl : (m.pre ++ m.key.take pos).length = m.pre.length + pos := by
        rw [List.length_append, List.length_take, Nat.min_eq_left hc.lt.le]
      refine ⟨_, mem_split.2 (.inr ⟨m, hm, rfl, Node.mem_halves.2 (.inr rfl)⟩),
        (m.path_right pos _ _) ▸ hmp, by rw [hl]; omega, ?_⟩
      dsimp only
      rw [hl, List.getElem?_drop, ← hv]
      congr 1
      omega
  · exact ⟨m, mem_split.2 (.inl ⟨hm, hmn⟩), hmp, hle, hv⟩

/-- The block bases stored in the trie. -/
def bases (bs : Nat) (t : List (Node α β μ)) : List β := t.flatMap (fun n => stride bs n.value)

@[simp] theorem bases_nil : bases bs ([] : List (Node α β μ)) = [] := rfl

theorem bases_graft (n : Node α β μ) : bases bs (graft t n) = bases bs t ++ stride bs n.value := by
  simp [bases, graft]

theorem bases_map {g : Node α β μ → Node α β μ} (hg : ∀ n ∈ t, (g n).value = n.value) :
    bases bs (t.map g) = bases bs t := by
  unfold bases
  rw [List.flatMap_map]
  exact List.flatMap_congr fun n hn => by rw [hg n hn]

theorem WF.nodup (h : WF bs t) : t.Nodup :=
  h.distinct.imp (by
    intro a b hab he
    subst he
    exact hab rfl rfl)

section Chain

variable [DecidableEq α]

/-- A trie is one of its nodes and the rest. -/
theorem WF.perm_prune (h : WF bs t) {n : Node α β μ} (hn : n ∈ t) :
    t.Perm (n :: BlockTrie.prune t n.path) := by
  have hone : (t.filter (fun m => m.path = n.path)).Perm [n] := by
    refine (List.perm_ext_iff_of_nodup (h.nodup.filter _) (List.nodup_singleton n)).2 ?_
    intro m
    simp only [List.mem_filter, decide_eq_true_eq, List.mem_singleton]
    constructor
    · exact fun ⟨hm, hp⟩ => h.eq_of_path hm hn hp
    · rintro rfl
      exact ⟨hn, rfl⟩
  have hall := (List.filter_append_perm (fun m => decide (m.path = n.path)) t).symm
  refine hall.trans ?_
  have hrest : t.filter (fun m => !decide (m.path = n.path)) = BlockTrie.prune t n.path := by
    unfold BlockTrie.prune
    simp
  rw [hrest]
  exact hone.append_right _

theorem WF.modify_perm (h : WF bs t) {n : Node α β μ} (hn : n ∈ t)
    (f : Node α β μ → Node α β μ) : (BlockTrie.modify t n.path f).Perm (f n :: BlockTrie.prune t n.path) := by
  unfold BlockTrie.modify
  refine ((h.perm_prune hn).map _).trans ?_
  rw [List.map_cons, if_pos rfl]
  refine List.Perm.cons _ (List.Perm.of_eq ?_)
  refine (List.map_congr_left ?_).trans (List.map_id _)
  intro m hm
  rw [if_neg (mem_prune.1 hm).2]
  rfl

theorem WF.split_perm (h : WF bs t) {n : Node α β μ} (hn : n ∈ t) (pos : Nat) (dp ds : μ → μ) :
    (BlockTrie.split t n.path pos dp ds).Perm (n.halves pos dp ds ++ BlockTrie.prune t n.path) := by
  unfold BlockTrie.split
  refine ((h.perm_prune hn).flatMap_right _).trans ?_
  rw [List.flatMap_cons, if_pos rfl]
  refine List.Perm.append_left _ (List.Perm.of_eq ?_)
  refine (List.flatMap_congr ?_).trans (List.flatMap_singleton' _)
  intro m hm
  rw [if_neg (mem_prune.1 hm).2]

theorem Cut.bases_perm {n : Node α β μ} {pos : Nat} (hbs : 0 < bs) (h : WF bs t)
    (hc : Cut bs t n pos) (dp ds : μ → μ) :
    (bases bs (BlockTrie.split t n.path pos dp ds)).Perm (bases bs t) := by
  refine ((h.split_perm hc.mem pos dp ds).flatMap_right _).trans ?_
  refine List.Perm.trans ?_ ((h.perm_prune hc.mem).flatMap_right _).symm
  have hdvd : bs ∣ (n.value.take pos).length := by
    rw [List.length_take, h.value_length n hc.mem, Nat.min_eq_left hc.lt.le]
    exact hc.dvd
  simp only [Node.halves, List.flatMap_append, List.flatMap_cons, List.flatMap_nil,
    List.append_nil]
  rw [← stride_append hbs _ hdvd, List.take_append_drop]

/-! ## Chains -/

theorem chainAux_eq (h : WF bs t) {k : Nat} {p : List α} (hk : p.length ≤ k) :
    chainAux t k p = chain t p := by
  unfold chain
  induction hlen : p.length using Nat.strong_induction_on generalizing p k with
  | _ len ih =>
    subst hlen
    cases hf : node? t p with
    | none =>
        cases k <;> cases hp : p.length <;> simp [chainAux, hf]
    | some n =>
        obtain ⟨hn, rfl⟩ := mem_of_node? hf
        have hlt := (h.covers_path hn).lt
        obtain ⟨j, rfl⟩ : ∃ j, k = j + 1 := ⟨k - 1, by omega⟩
        obtain ⟨i, hi⟩ : ∃ i, n.path.length = i + 1 := ⟨n.path.length - 1, by omega⟩
        rw [hi]
        simp only [chainAux, hf]
        rw [ih _ hlt (by omega : n.pre.length ≤ j) rfl, ih _ hlt (by omega : n.pre.length ≤ i) rfl]

@[simp] theorem chain_nil : chain t ([] : List α) = [] := rfl

theorem WF.chain_path (h : WF bs t) {n : Node α β μ} (hn : n ∈ t) :
    chain t n.path = n :: chain t n.pre := by
  have hlt := (h.covers_path hn).lt
  obtain ⟨i, hi⟩ : ∃ i, n.path.length = i + 1 := ⟨n.path.length - 1, by omega⟩
  unfold chain
  rw [hi]
  simp only [chainAux, h.node?_path hn]
  rw [chainAux_eq h (by omega)]
  rfl

/-- The chain of a boundary lists exactly the nodes on its path. -/
theorem WF.mem_chain (h : WF bs t) {r : List α} (hr : Boundary t r) {m : Node α β μ} :
    m ∈ chain t r ↔ m ∈ t ∧ m.path <+: r := by
  refine h.boundary_induction (P := fun r => m ∈ chain t r ↔ m ∈ t ∧ m.path <+: r) ?_ ?_ hr
  · simp only [chain_nil, List.not_mem_nil, List.prefix_nil, false_iff, not_and]
    exact fun hm => h.path_ne_nil hm
  · intro n hn ih
    rw [h.chain_path hn, List.mem_cons, ih]
    constructor
    · rintro (rfl | ⟨hm, hp⟩)
      · exact ⟨hn, List.prefix_rfl⟩
      · exact ⟨hm, hp.trans n.pre_prefix⟩
    · rintro ⟨hm, hp⟩
      by_cases hlt : n.pre.length < m.path.length
      · exact .inl (h.eq_of_path hm hn (h.boundary_eq hn (.inr ⟨m, hm, rfl⟩) hlt hp))
      · exact .inr ⟨hm, List.prefix_of_prefix_length_le hp n.pre_prefix (Nat.le_of_not_lt hlt)⟩

theorem WF.chain_nodup (h : WF bs t) {r : List α} (hr : Boundary t r) : (chain t r).Nodup := by
  refine h.boundary_induction (P := fun r => (chain t r).Nodup) List.nodup_nil ?_ hr
  intro n hn ih
  rw [h.chain_path hn, List.nodup_cons]
  refine ⟨?_, ih⟩
  rw [h.mem_chain (h.parent n hn)]
  rintro ⟨-, hp⟩
  exact absurd hp.length_le (by have := (h.covers_path hn).lt; omega)

/-- A chain runs from the deepest node up. -/
theorem WF.chain_pairwise (h : WF bs t) {r : List α} (hr : Boundary t r) :
    (chain t r).Pairwise fun n m => m.path <+: n.pre := by
  refine h.boundary_induction (P := fun r => (chain t r).Pairwise fun n m => m.path <+: n.pre)
    List.Pairwise.nil ?_ hr
  intro n hn ih
  rw [h.chain_path hn]
  exact List.Pairwise.cons (fun m hm => ((h.mem_chain (h.parent n hn)).1 hm).2) ih

omit [DecidableEq α] in
/-- The path of a boundary is covered by its nodes. -/
theorem WF.exists_position (h : WF bs t) {r : List α} (hr : Boundary t r) {k : Nat}
    (hk : k < r.length) : ∃ n ∈ t, n.path <+: r ∧ n.pre.length ≤ k ∧ k < n.path.length := by
  revert hk
  refine h.boundary_induction (P := fun r => k < r.length →
    ∃ n ∈ t, n.path <+: r ∧ n.pre.length ≤ k ∧ k < n.path.length) (by simp) ?_ hr
  intro n hn ih hk
  by_cases hlt : k < n.pre.length
  · obtain ⟨m, hm, hmp, hle, hmk⟩ := ih hlt
    exact ⟨m, hm, hmp.trans n.pre_prefix, hle, hmk⟩
  · exact ⟨n, hn, List.prefix_rfl, Nat.le_of_not_lt hlt, hk⟩

/-- The values from the root down to `p`. -/
def pathValues (t : List (Node α β μ)) (p : List α) : List β :=
  (chain t p).reverse.flatMap Node.value

theorem WF.pathValues_path (h : WF bs t) {n : Node α β μ} (hn : n ∈ t) :
    pathValues t n.path = pathValues t n.pre ++ n.value := by
  unfold pathValues
  rw [h.chain_path hn, List.reverse_cons, List.flatMap_append]
  simp

theorem WF.length_pathValues (h : WF bs t) {r : List α} (hr : Boundary t r) :
    (pathValues t r).length = r.length := by
  refine h.boundary_induction (P := fun r => (BlockTrie.pathValues t r).length = r.length) rfl ?_ hr
  intro n hn ih
  rw [h.pathValues_path hn, List.length_append, ih, h.value_length n hn, Node.path_length]

theorem WF.reads_iff (h : WF bs t) {r : List α} (hr : Boundary t r) (f : Nat → β) :
    Reads t r f ↔ pathValues t r = slice f 0 r.length := by
  refine h.boundary_induction
    (P := fun r => Reads t r f ↔ BlockTrie.pathValues t r = slice f 0 r.length) ?_ ?_ hr
  · simp [reads_nil, BlockTrie.pathValues]
  · intro n hn ih
    have hb := h.parent n hn
    have hlen := h.length_pathValues hb
    have hle : n.pre.length ≤ n.path.length := n.pre_prefix.length_le
    rw [h.pathValues_path hn, ← slice_append f (Nat.zero_le n.pre.length) hle]
    constructor
    · intro hf
      rw [ih.1 (hf.above h hb n.pre_prefix)]
      congr 1
      apply List.ext_getElem?
      intro i
      rw [getElem?_slice]
      split
      · rename_i hi
        obtain ⟨m, hm, hmp, hmle, hmv⟩ := hf (n.pre.length + i) (by omega)
        have hlt := h.lt_of_value hm hmle hmv
        have hmn : m = n := by
          refine h.eq_of_path hm hn (h.boundary_eq hn (.inr ⟨m, hm, rfl⟩) (by omega) hmp)
        subst hmn
        rw [← hmv]
        congr 1
        omega
      · rename_i hi
        refine List.getElem?_eq_none ?_
        rw [h.value_length n hn]
        rw [Node.path_length] at hi
        omega
    · intro heq
      have hsplit := List.append_inj heq (by rw [hlen, length_slice]; omega)
      have hpre := ih.2 hsplit.1
      intro k hk
      by_cases hkp : k < n.pre.length
      · obtain ⟨m, hm, hmp, hmle, hmv⟩ := hpre k hkp
        exact ⟨m, hm, hmp.trans n.pre_prefix, hmle, hmv⟩
      · refine ⟨n, hn, List.prefix_rfl, Nat.le_of_not_lt hkp, ?_⟩
        rw [hsplit.2, getElem?_slice, if_pos (by omega)]
        congr 2
        omega

/-- The values along a boundary's path are the path's values. -/
theorem WF.reads_pathValues [Inhabited β] (h : WF bs t) {r : List α} (hr : Boundary t r) :
    Reads t r (fun k => (pathValues t r).getD k default) := by
  rw [h.reads_iff hr]
  have hlen := h.length_pathValues hr
  refine List.ext_getElem? fun i => ?_
  rw [getElem?_slice, Nat.sub_zero, ← hlen]
  split
  · rename_i hi
    rw [Nat.zero_add, List.getD_eq_getElem?_getD, List.getElem?_eq_getElem hi]
    rfl
  · rename_i hi
    exact List.getElem?_eq_none (Nat.le_of_not_lt hi)

/-- A change that keeps every reading of a path keeps what is read at a position of it. -/
theorem WF.readsAt_of_reads [Inhabited β] (h : WF bs t) {t' : List (Node α β μ)} {r : List α}
    (hr : Boundary t r) (hkeep : ∀ f : Nat → β, Reads t r f → Reads t' r f) {k : Nat} {x : β}
    (hk : k < r.length) (hx : ReadsAt t r k x) : ReadsAt t' r k x := by
  have hpath := h.reads_pathValues hr
  have heq : x = (pathValues t r).getD k default := h.readsAt_unique hx (hpath k hk)
  rw [heq]
  exact hkeep _ hpath k hk

/-! ## Descending -/

theorem commonLength_le_left (x y : List α) : commonLength x y ≤ x.length := by
  induction x generalizing y with
  | nil => simp [commonLength]
  | cons a x ih =>
      cases y with
      | nil => simp [commonLength]
      | cons b y =>
          rw [commonLength]
          split
          · simpa using ih y
          · simp

theorem commonLength_le_right (x y : List α) : commonLength x y ≤ y.length := by
  induction x generalizing y with
  | nil => simp [commonLength]
  | cons a x ih =>
      cases y with
      | nil => simp [commonLength]
      | cons b y =>
          rw [commonLength]
          split
          · simpa using ih y
          · simp

theorem take_commonLength (x y : List α) {k : Nat} (hk : k ≤ commonLength x y) :
    x.take k = y.take k := by
  induction x generalizing y k with
  | nil =>
      obtain rfl : k = 0 := by simpa [commonLength] using hk
      simp
  | cons a x ih =>
      cases y with
      | nil =>
          obtain rfl : k = 0 := by simpa [commonLength] using hk
          simp
      | cons b y =>
          cases k with
          | zero => simp
          | succ k =>
              rw [commonLength] at hk
              split at hk
              · rename_i hab
                rw [List.take_succ_cons, List.take_succ_cons, hab, ih y (by omega)]
              · omega

theorem le_commonLength {x y : List α} {k : Nat} (hx : k ≤ x.length) (hy : k ≤ y.length)
    (hk : x.take k = y.take k) : k ≤ commonLength x y := by
  induction x generalizing y k with
  | nil =>
      obtain rfl : k = 0 := by simpa using hx
      exact Nat.zero_le _
  | cons a x ih =>
      cases y with
      | nil =>
          obtain rfl : k = 0 := by simpa using hy
          exact Nat.zero_le _
      | cons b y =>
          cases k with
          | zero => exact Nat.zero_le _
          | succ k =>
              rw [List.take_succ_cons, List.take_succ_cons, List.cons.injEq] at hk
              rw [commonLength, if_pos hk.1]
              have := ih (by simpa using hx) (by simpa using hy) hk.2
              omega

/-- One step down from the boundary `ids.take p`: the child `c` shares `m` keys, a positive number
of whole blocks, and the next block differs if the edge goes on. -/
structure Descent (bs : Nat) (t : List (Node α β μ)) (ids : List α) (p : Nat)
    (c : Node α β μ) (m : Nat) : Prop where
  mem : c ∈ t
  pre : c.pre = ids.take p
  block_le : bs ≤ m
  le : m ≤ c.key.length
  fits : p + m ≤ ids.length
  dvd : bs ∣ m
  key : c.pre ++ c.key.take m = ids.take (p + m)
  stop : m < c.key.length → (c.key.drop m).take bs ≠ (ids.drop (p + m)).take bs

theorem WF.descent (hbs : 0 < bs) (h : WF bs t) {ids : List α} {p : Nat} (hp : p ≤ ids.length)
    {c : Node α β μ} (hc : child? bs t (ids.take p) ((ids.drop p).take bs) = some c) :
    Descent bs t ids p c (alignDown (commonLength c.key (ids.drop p)) bs) := by
  obtain ⟨hmem, hpre, hblk⟩ := mem_of_child? hc
  have hcl := commonLength_le_left c.key (ids.drop p)
  have hcr := commonLength_le_right c.key (ids.drop p)
  rw [List.length_drop] at hcr
  have hkl := h.block_le hmem
  have hblen : bs ≤ ids.length - p := by
    have := congrArg List.length hblk
    rw [List.length_take, List.length_take, List.length_drop, Nat.min_eq_left hkl] at this
    omega
  have hbc : bs ≤ commonLength c.key (ids.drop p) :=
    le_commonLength hkl (by rw [List.length_drop]; exact hblen) hblk
  have hle := alignDown_le (commonLength c.key (ids.drop p)) bs
  have hdvd := dvd_alignDown (commonLength c.key (ids.drop p)) bs
  have hlt := lt_alignDown_add (commonLength c.key (ids.drop p)) hbs
  refine ⟨hmem, hpre, le_alignDown hbs (dvd_refl bs) hbc, by omega, by omega, hdvd, ?_, ?_⟩
  · rw [hpre, take_commonLength c.key (ids.drop p) hle, List.take_add]
  · intro hm heq
    set m := alignDown (commonLength c.key (ids.drop p)) bs
    have hroom : m + bs ≤ c.key.length := by
      obtain ⟨a, ha⟩ := hdvd
      obtain ⟨b, hb⟩ := h.key_dvd c hmem
      rw [ha, hb] at hm ⊢
      have hab : a < b := Nat.lt_of_mul_lt_mul_left hm
      calc bs * a + bs = bs * (a + 1) := by rw [Nat.mul_add, Nat.mul_one]
        _ ≤ bs * b := Nat.mul_le_mul_left bs hab
    have hlen := congrArg List.length heq
    rw [List.length_take, List.length_take, List.length_drop, List.length_drop,
      Nat.min_eq_left (by omega)] at hlen
    have hmore : m + bs ≤ commonLength c.key (ids.drop p) := by
      refine le_commonLength hroom (by rw [List.length_drop]; omega) ?_
      rw [List.take_add, List.take_add, heq, List.drop_drop,
        take_commonLength c.key (ids.drop p) hle]
    omega

namespace Descent

variable {ids : List α} {p m : Nat} {c : Node α β μ}

omit [DecidableEq α] in
theorem cut (hbs : 0 < bs) (d : Descent bs t ids p c m) (hlt : m < c.key.length) : Cut bs t c m :=
  ⟨d.mem, Nat.lt_of_lt_of_le hbs d.block_le, hlt, d.dvd⟩

omit [DecidableEq α] in
theorem path (d : Descent bs t ids p c m) (hm : m = c.key.length) : c.path = ids.take (p + m) := by
  rw [← d.key, hm, List.take_length]
  rfl

/-- Below the cut of a partial match only the tail of the edge starts, with another block. -/
theorem cut_stop (hbs : 0 < bs) (h : WF bs t) (d : Descent bs t ids p c m)
    (hlt : m < c.key.length) (dp ds : μ → μ) :
    ∀ n ∈ BlockTrie.split t c.path m dp ds, n.pre = ids.take (p + m) →
      n.key.take bs ≠ (ids.drop (p + m)).take bs := by
  intro n hn hpre
  have hpos := Nat.lt_of_lt_of_le hbs d.block_le
  have hlen : (ids.take (p + m)).length = c.pre.length + m := by
    rw [← d.key, List.length_append, List.length_take, Nat.min_eq_left hlt.le]
  rcases mem_split.1 hn with ⟨hnt, -⟩ | ⟨k, hk, hkp, hnk⟩
  · -- no other node starts strictly inside the edge
    have hb : Boundary t (ids.take (p + m)) := hpre ▸ h.parent n hnt
    have heq := h.boundary_eq d.mem hb (by omega)
      (d.key ▸ (List.prefix_append_right_inj c.pre).2 (List.take_prefix m c.key))
    have hl := congrArg List.length heq
    rw [Node.path_length] at hl
    omega
  · obtain rfl := h.eq_of_path hk d.mem hkp
    rcases Node.mem_halves.1 hnk with rfl | rfl
    · have hl := congrArg List.length hpre
      dsimp only at hl
      omega
    · exact d.stop hlt

end Descent

end Chain

end BlockTrie
