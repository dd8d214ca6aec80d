import FreeToken.Lib.Blocks

/-!
# Compressed tries with block-aligned edges

A trie over keys of type `α` is kept as the list of its nodes.  A node stores the keys of its own
edge, one value per key, and a record of per-node data; its place in the tree is the key sequence
above it, so a node is named by its path (`pre ++ key`) and its parent by `pre`.  Edges are a
positive multiple of `bs` keys long and siblings differ in their first block, so at most one node
covers a given key sequence.
-/

set_option autoImplicit false

namespace BlockTrie

open Blocks

structure Node (α β μ : Type*) where
  pre : List α
  key : List α
  value : List β
  data : μ
  deriving DecidableEq, Repr

variable {α β μ : Type*}

namespace Node

def path (n : Node α β μ) : List α := n.pre ++ n.key

def length (n : Node α β μ) : Nat := n.key.length

/-- The node holds the last block of the block-aligned key sequence `q`. -/
structure Covers (bs : Nat) (n : Node α β μ) (q : List α) : Prop where
  lt : n.pre.length < q.length
  le : q <+: n.path
  dvd : bs ∣ q.length

theorem path_length (n : Node α β μ) : n.path.length = n.pre.length + n.key.length :=
  List.length_append

theorem pre_prefix (n : Node α β μ) : n.pre <+: n.path := List.prefix_append _ _

variable {bs : Nat} {n : Node α β μ} {q r : List α}

theorem Covers.prefix (h : n.Covers bs q) : n.pre <+: q :=
  List.prefix_of_prefix_length_le n.pre_prefix h.le h.lt.le

theorem Covers.ne_nil (h : n.Covers bs q) : q ≠ [] := by
  rintro rfl
  exact absurd h.lt (by simp)

theorem Covers.mono (h : n.Covers bs q) (hr : q <+: r) (hn : r <+: n.path) (hd : bs ∣ r.length) :
    n.Covers bs r :=
  ⟨lt_of_lt_of_le h.lt hr.length_le, hn, hd⟩

theorem Covers.block_le (h : n.Covers bs q) (hp : bs ∣ n.pre.length) :
    n.pre.length + bs ≤ q.length := by
  obtain ⟨a, ha⟩ := hp
  obtain ⟨b, hb⟩ := h.dvd
  have hlt := h.lt
  rw [ha, hb] at hlt ⊢
  have hab : a < b := Nat.lt_of_mul_lt_mul_left hlt
  calc bs * a + bs = bs * (a + 1) := by rw [Nat.mul_add, Nat.mul_one]
    _ ≤ bs * b := Nat.mul_le_mul_left bs hab

/-- The first block of the node's edge is the block of `q` after the node's start. -/
theorem Covers.block (h : n.Covers bs q) (hp : bs ∣ n.pre.length) :
    n.key.take bs = (q.drop n.pre.length).take bs := by
  have hle := h.block_le hp
  have hq : q = n.path.take q.length := List.prefix_iff_eq_take.1 h.le
  have hdrop : q.drop n.pre.length = n.key.take (q.length - n.pre.length) := by
    conv_lhs => rw [hq]
    rw [List.drop_take, path, List.drop_left]
  rw [hdrop, List.take_take, Nat.min_eq_left (by omega)]

end Node

/-- The two halves of a node cut after `pos` keys. -/
def Node.halves (n : Node α β μ) (pos : Nat) (dp ds : μ → μ) : List (Node α β μ) :=
  [{ pre := n.pre, key := n.key.take pos, value := n.value.take pos, data := dp n.data },
   { pre := n.pre ++ n.key.take pos, key := n.key.drop pos, value := n.value.drop pos,
     data := ds n.data }]

theorem Node.mem_halves {n m : Node α β μ} {pos : Nat} {dp ds : μ → μ} :
    m ∈ n.halves pos dp ds ↔
      m = { pre := n.pre, key := n.key.take pos, value := n.value.take pos, data := dp n.data } ∨
      m = { pre := n.pre ++ n.key.take pos, key := n.key.drop pos, value := n.value.drop pos,
            data := ds n.data } := by
  simp [Node.halves]

theorem Node.path_left (n : Node α β μ) (pos : Nat) (v : List β) (d : μ) :
    (Node.mk n.pre (n.key.take pos) v d).path <+: n.path :=
  (List.prefix_append_right_inj n.pre).2 (List.take_prefix pos n.key)

theorem Node.path_right (n : Node α β μ) (pos : Nat) (v : List β) (d : μ) :
    (Node.mk (n.pre ++ n.key.take pos) (n.key.drop pos) v d).path = n.path := by
  simp [Node.path, List.append_assoc]

theorem Node.Covers.of_half {bs : Nat} {n m : Node α β μ} {pos : Nat} {dp ds : μ → μ}
    (hm : m ∈ n.halves pos dp ds) {q : List α} (hq : m.Covers bs q) : n.Covers bs q := by
  rcases Node.mem_halves.1 hm with rfl | rfl
  · exact ⟨hq.lt, hq.le.trans (n.path_left pos _ _), hq.dvd⟩
  · refine ⟨lt_of_le_of_lt ?_ hq.lt, by simpa only [Node.path_right] using hq.le, hq.dvd⟩
    simp

section Lookup

variable [DecidableEq α]

/-- The node named by the path `p`. -/
def node? (t : List (Node α β μ)) (p : List α) : Option (Node α β μ) :=
  t.find? (fun n => n.path = p)

/-- The child of the node `p` whose edge starts with the block `blk`. -/
def child? (bs : Nat) (t : List (Node α β μ)) (p blk : List α) : Option (Node α β μ) :=
  t.find? (fun n => n.pre = p ∧ n.key.take bs = blk)

def isLeaf (t : List (Node α β μ)) (p : List α) : Bool := t.all (fun n => n.pre ≠ p)

def modify (t : List (Node α β μ)) (p : List α) (f : Node α β μ → Node α β μ) :
    List (Node α β μ) :=
  t.map (fun n => if n.path = p then f n else n)

/-- Cut the node `p` after `pos` keys: a new node takes the head, `p` keeps the tail. -/
def split (t : List (Node α β μ)) (p : List α) (pos : Nat) (dp ds : μ → μ) :
    List (Node α β μ) :=
  t.flatMap (fun n => if n.path = p then n.halves pos dp ds else [n])

def graft (t : List (Node α β μ)) (n : Node α β μ) : List (Node α β μ) := t ++ [n]

def prune (t : List (Node α β μ)) (p : List α) : List (Node α β μ) :=
  t.filter (fun n => n.path ≠ p)

/-- The nodes from `p` up to the root, deepest first. -/
def chainAux (t : List (Node α β μ)) : Nat → List α → List (Node α β μ)
  | 0, _ => []
  | k + 1, p =>
      match node? t p with
      | none => []
      | some n => n :: chainAux t k n.pre

/-- Every step up shortens the path, so the path's length bounds the number of steps. -/
def chain (t : List (Node α β μ)) (p : List α) : List (Node α β μ) := chainAux t p.length p

/-- The number of leading keys two sequences share. -/
def commonLength : List α → List α → Nat
  | x :: xs, y :: ys => if x = y then commonLength xs ys + 1 else 0
  | _, _ => 0

end Lookup

/-- `p` is the end of a node, or the root. -/
def Boundary (t : List (Node α β μ)) (p : List α) : Prop := p = [] ∨ ∃ n ∈ t, n.path = p

structure WF (bs : Nat) (t : List (Node α β μ)) : Prop where
  key_ne : ∀ n ∈ t, n.key ≠ []
  key_dvd : ∀ n ∈ t, bs ∣ n.key.length
  pre_dvd : ∀ n ∈ t, bs ∣ n.pre.length
  value_length : ∀ n ∈ t, n.value.length = n.key.length
  parent : ∀ n ∈ t, Boundary t n.pre
  distinct : t.Pairwise (fun n m => n.pre = m.pre → n.key.take bs ≠ m.key.take bs)

theorem WF.nil (bs : Nat) : WF bs ([] : List (Node α β μ)) :=
  ⟨by simp, by simp, by simp, by simp, by simp, List.Pairwise.nil⟩

theorem WF.block_le {bs : Nat} {t : List (Node α β μ)} (h : WF bs t) {n : Node α β μ}
    (hn : n ∈ t) : bs ≤ n.key.length :=
  Nat.le_of_dvd (List.length_pos_iff.2 (h.key_ne n hn)) (h.key_dvd n hn)

theorem WF.path_dvd {bs : Nat} {t : List (Node α β μ)} (h : WF bs t) {n : Node α β μ}
    (hn : n ∈ t) : bs ∣ n.path.length := by
  rw [Node.path_length]
  exact Nat.dvd_add (h.pre_dvd n hn) (h.key_dvd n hn)

theorem WF.covers_path {bs : Nat} {t : List (Node α β μ)} (h : WF bs t) {n : Node α β μ}
    (hn : n ∈ t) : n.Covers bs n.path := by
  refine ⟨?_, List.prefix_rfl, h.path_dvd hn⟩
  have := List.length_pos_iff.2 (h.key_ne n hn)
  rw [Node.path_length]
  omega

theorem WF.path_ne_nil {bs : Nat} {t : List (Node α β μ)} (h : WF bs t) {n : Node α β μ}
    (hn : n ∈ t) : n.path ≠ [] :=
  (h.covers_path hn).ne_nil

/-- Siblings with the same first block are one node. -/
theorem WF.eq_of_block {bs : Nat} {t : List (Node α β μ)} (h : WF bs t) {n m : Node α β μ}
    (hn : n ∈ t) (hm : m ∈ t) (hp : n.pre = m.pre) (hk : n.key.take bs = m.key.take bs) :
    n = m := by
  by_contra hne
  have hsym : Std.Symm (fun n m : Node α β μ => n.pre = m.pre → n.key.take bs ≠ m.key.take bs) :=
    ⟨fun a b hab hp hk => hab hp.symm hk.symm⟩
  exact h.distinct.forall hn hm hne hp hk

/-- At most one node covers a key sequence: by induction on its length, a node that starts deeper
hangs below a node that covers the other's start. -/
theorem WF.covers_unique {bs : Nat} {t : List (Node α β μ)} (h : WF bs t) {q : List α}
    {n m : Node α β μ} (hn : n ∈ t) (hm : m ∈ t) (hnq : n.Covers bs q) (hmq : m.Covers bs q) :
    n = m := by
  induction hq : q.length using Nat.strong_induction_on generalizing q n m with
  | _ len ih =>
    subst hq
    -- a node that starts strictly inside the other contradicts uniqueness one level up
    have key : ∀ a b : Node α β μ, a ∈ t → b ∈ t → a.Covers bs q → b.Covers bs q →
        ¬ a.pre.length < b.pre.length := by
      intro a b ha hb haq hbq hlt
      rcases h.parent b hb with hroot | ⟨p, hp, hpp⟩
      · rw [hroot] at hlt
        simp at hlt
      · have hac : a.Covers bs b.pre := ⟨hlt, hbq.prefix.trans haq.le, h.pre_dvd b hb⟩
        have hpc : p.Covers bs b.pre := hpp ▸ h.covers_path hp
        have heq := ih b.pre.length hbq.lt ha hp hac hpc rfl
        subst heq
        have h1 := haq.le.length_le
        rw [hpp] at h1
        exact absurd hbq.lt (by omega)
    have hlen : n.pre.length = m.pre.length :=
      le_antisymm (Nat.le_of_not_lt (key m n hm hn hmq hnq))
        (Nat.le_of_not_lt (key n m hn hm hnq hmq))
    have hpre : n.pre = m.pre := List.IsPrefix.eq_of_length
      (List.prefix_of_prefix_length_le hnq.prefix hmq.prefix hlen.le) hlen
    refine h.eq_of_block hn hm hpre ?_
    rw [hnq.block (h.pre_dvd n hn), hmq.block (h.pre_dvd m hm), hpre]

theorem WF.eq_of_path {bs : Nat} {t : List (Node α β μ)} (h : WF bs t) {n m : Node α β μ}
    (hn : n ∈ t) (hm : m ∈ t) (hp : n.path = m.path) : n = m :=
  h.covers_unique hn hm (h.covers_path hn) (hp ▸ h.covers_path hm)

theorem WF.boundary_dvd {bs : Nat} {t : List (Node α β μ)} (h : WF bs t) {r : List α}
    (hr : Boundary t r) : bs ∣ r.length := by
  rcases hr with rfl | ⟨n, hn, rfl⟩
  · exact Nat.dvd_zero bs
  · exact h.path_dvd hn

/-- No node ends strictly inside another. -/
theorem WF.boundary_eq {bs : Nat} {t : List (Node α β μ)} (h : WF bs t) {n : Node α β μ}
    (hn : n ∈ t) {r : List α} (hr : Boundary t r) (hlt : n.pre.length < r.length)
    (hle : r <+: n.path) : r = n.path := by
  rcases hr with rfl | ⟨m, hm, rfl⟩
  · simp at hlt
  · have hc : n.Covers bs m.path := ⟨hlt, hle, h.path_dvd hm⟩
    rw [h.covers_unique hn hm hc (h.covers_path hm)]

/-- A node that covers a prefix of a boundary lies on the boundary's path. -/
theorem WF.path_prefix_of_covers {bs : Nat} {t : List (Node α β μ)} (h : WF bs t)
    {n : Node α β μ} (hn : n ∈ t) {q r : List α} (hq : n.Covers bs q) (hr : Boundary t r)
    (hqr : q <+: r) : n.path <+: r := by
  induction hlen : r.length using Nat.strong_induction_on generalizing r with
  | _ len ih =>
    subst hlen
    rcases hr with rfl | ⟨m, hm, rfl⟩
    · exact absurd (List.prefix_nil.1 hqr) hq.ne_nil
    · by_cases hlt : m.pre.length < q.length
      · have hmq : m.Covers bs q := ⟨hlt, hqr, hq.dvd⟩
        exact h.covers_unique hn hm hq hmq ▸ List.prefix_rfl
      · have hpre : q <+: m.pre :=
          List.prefix_of_prefix_length_le hqr m.pre_prefix (Nat.le_of_not_lt hlt)
        have hshort : m.pre.length < m.path.length := (h.covers_path hm).lt
        exact (ih _ hshort (h.parent m hm) hpre rfl).trans m.pre_prefix

/-! ## Reading a trie -/

section Lookup

variable [DecidableEq α] {bs : Nat} {t : List (Node α β μ)}

theorem mem_of_node? {p : List α} {n : Node α β μ} (h : node? t p = some n) :
    n ∈ t ∧ n.path = p :=
  ⟨List.mem_of_find?_eq_some h, by simpa using List.find?_some h⟩

theorem node?_eq_none {p : List α} : node? t p = none ↔ ∀ n ∈ t, n.path ≠ p := by
  simp [node?]

theorem WF.node?_path (h : WF bs t) {n : Node α β μ} (hn : n ∈ t) : node? t n.path = some n := by
  cases hf : node? t n.path with
  | none => exact absurd rfl (node?_eq_none.1 hf n hn)
  | some m =>
      obtain ⟨hm, hp⟩ := mem_of_node? hf
      rw [h.eq_of_path hm hn hp]

theorem mem_of_child? {p blk : List α} {n : Node α β μ} (h : child? bs t p blk = some n) :
    n ∈ t ∧ n.pre = p ∧ n.key.take bs = blk :=
  ⟨List.mem_of_find?_eq_some h, by simpa using List.find?_some h⟩

theorem child?_eq_none {p blk : List α} :
    child? bs t p blk = none ↔ ∀ n ∈ t, n.pre = p → n.key.take bs ≠ blk := by
  simp [child?]

theorem isLeaf_iff {p : List α} : isLeaf t p = true ↔ ∀ n ∈ t, n.pre ≠ p := by
  simp [isLeaf]

end Lookup

/-! ## Edits that keep the trie well formed -/

section Edits

variable {bs : Nat} {t : List (Node α β μ)}

/-- `g` changes values and data only. -/
def SameShape (g : Node α β μ → Node α β μ) : Prop :=
  ∀ n, (g n).pre = n.pre ∧ (g n).key = n.key ∧ (g n).value.length = n.value.length

theorem SameShape.path {g : Node α β μ → Node α β μ} (hg : SameShape g) (n : Node α β μ) :
    (g n).path = n.path := by
  unfold Node.path
  rw [(hg n).1, (hg n).2.1]

theorem SameShape.covers_iff {g : Node α β μ → Node α β μ} (hg : SameShape g) {n : Node α β μ}
    {q : List α} : (g n).Covers bs q ↔ n.Covers bs q := by
  constructor
  · rintro ⟨h1, h2, h3⟩
    exact ⟨(hg n).1 ▸ h1, hg.path n ▸ h2, h3⟩
  · rintro ⟨h1, h2, h3⟩
    exact ⟨(hg n).1.symm ▸ h1, (hg.path n).symm ▸ h2, h3⟩

theorem boundary_map_iff {g : Node α β μ → Node α β μ} (hg : SameShape g) {r : List α} :
    Boundary (t.map g) r ↔ Boundary t r := by
  simp only [Boundary, List.mem_map, exists_exists_and_eq_and, hg.path]

theorem WF.map (h : WF bs t) {g : Node α β μ → Node α β μ} (hg : SameShape g) :
    WF bs (t.map g) where
  key_ne := by
    intro n hn
    obtain ⟨m, hm, rfl⟩ := List.mem_map.1 hn
    rw [(hg m).2.1]
    exact h.key_ne m hm
  key_dvd := by
    intro n hn
    obtain ⟨m, hm, rfl⟩ := List.mem_map.1 hn
    rw [(hg m).2.1]
    exact h.key_dvd m hm
  pre_dvd := by
    intro n hn
    obtain ⟨m, hm, rfl⟩ := List.mem_map.1 hn
    rw [(hg m).1]
    exact h.pre_dvd m hm
  value_length := by
    intro n hn
    obtain ⟨m, hm, rfl⟩ := List.mem_map.1 hn
    rw [(hg m).2.1, (hg m).2.2]
    exact h.value_length m hm
  parent := by
    intro n hn
    obtain ⟨m, hm, rfl⟩ := List.mem_map.1 hn
    rw [boundary_map_iff hg, (hg m).1]
    exact h.parent m hm
  distinct := by
    rw [List.pairwise_map]
    refine h.distinct.imp ?_
    intro a b hab
    rw [(hg a).1, (hg b).1, (hg a).2.1, (hg b).2.1]
    exact hab

/-- Hanging a new node below a boundary where no sibling starts with its block. -/
theorem WF.graft (h : WF bs t) {n : Node α β μ} (hp : Boundary t n.pre) (hk : n.key ≠ [])
    (hd : bs ∣ n.key.length) (hv : n.value.length = n.key.length)
    (hnew : ∀ m ∈ t, m.pre = n.pre → m.key.take bs ≠ n.key.take bs) :
    WF bs (BlockTrie.graft t n) where
  key_ne := by
    intro m hm
    rcases List.mem_append.1 hm with hm | hm
    · exact h.key_ne m hm
    · rwa [List.mem_singleton.1 hm]
  key_dvd := by
    intro m hm
    rcases List.mem_append.1 hm with hm | hm
    · exact h.key_dvd m hm
    · rwa [List.mem_singleton.1 hm]
  pre_dvd := by
    intro m hm
    rcases List.mem_append.1 hm with hm | hm
    · exact h.pre_dvd m hm
    · rw [List.mem_singleton.1 hm]
      exact h.boundary_dvd hp
  value_length := by
    intro m hm
    rcases List.mem_append.1 hm with hm | hm
    · exact h.value_length m hm
    · rwa [List.mem_singleton.1 hm]
  parent := by
    intro m hm
    have hb : ∀ {r : List α}, Boundary t r → Boundary (BlockTrie.graft t n) r :=
      fun hr => hr.imp_right fun ⟨c, hc, hcp⟩ => ⟨c, List.mem_append_left _ hc, hcp⟩
    rcases List.mem_append.1 hm with hm | hm
    · exact hb (h.parent m hm)
    · rw [List.mem_singleton.1 hm]
      exact hb hp
  distinct := by
    rw [BlockTrie.graft, List.pairwise_append]
    refine ⟨h.distinct, List.pairwise_singleton _ _, ?_⟩
    intro a ha b hb
    rw [List.mem_singleton.1 hb]
    exact hnew a ha

variable [DecidableEq α]

theorem sameShape_modify {f : Node α β μ → Node α β μ} (hf : SameShape f) (p : List α) :
    SameShape (fun n => if n.path = p then f n else n) := by
  intro n
  dsimp only
  split
  · exact hf n
  · exact ⟨rfl, rfl, rfl⟩

theorem WF.modify (h : WF bs t) {f : Node α β μ → Node α β μ} (hf : SameShape f) (p : List α) :
    WF bs (BlockTrie.modify t p f) :=
  h.map (sameShape_modify hf p)

/-- Removing a leaf. -/
theorem WF.prune (h : WF bs t) {p : List α} (hl : isLeaf t p = true) :
    WF bs (BlockTrie.prune t p) where
  key_ne := fun n hn => h.key_ne n (List.mem_of_mem_filter hn)
  key_dvd := fun n hn => h.key_dvd n (List.mem_of_mem_filter hn)
  pre_dvd := fun n hn => h.pre_dvd n (List.mem_of_mem_filter hn)
  value_length := fun n hn => h.value_length n (List.mem_of_mem_filter hn)
  parent := by
    intro n hn
    have hnt := List.mem_of_mem_filter hn
    refine (h.parent n hnt).imp_right ?_
    rintro ⟨c, hc, hcp⟩
    refine ⟨c, List.mem_filter.2 ⟨hc, ?_⟩, hcp⟩
    rw [hcp]
    simpa using isLeaf_iff.1 hl n hnt
  distinct := h.distinct.filter _

theorem mem_prune {p : List α} {n : Node α β μ} :
    n ∈ BlockTrie.prune t p ↔ n ∈ t ∧ n.path ≠ p := by
  simp [BlockTrie.prune]

/-! ### Splitting -/

theorem mem_split {p : List α} {pos : Nat} {dp ds : μ → μ} {m : Node α β μ} :
    m ∈ BlockTrie.split t p pos dp ds ↔
      (m ∈ t ∧ m.path ≠ p) ∨ ∃ n ∈ t, n.path = p ∧ m ∈ n.halves pos dp ds := by
  rw [BlockTrie.split, List.mem_flatMap]
  constructor
  · rintro ⟨n, hn, hm⟩
    by_cases hp : n.path = p
    · rw [if_pos hp] at hm
      exact .inr ⟨n, hn, hp, hm⟩
    · rw [if_neg hp, List.mem_singleton] at hm
      exact .inl (hm ▸ ⟨hn, hp⟩)
  · rintro (⟨hm, hp⟩ | ⟨n, hn, hp, hm⟩)
    · exact ⟨m, hm, by rw [if_neg hp]; exact List.mem_singleton_self m⟩
    · exact ⟨n, hn, by rwa [if_pos hp]⟩

/-- A cut at a block boundary strictly inside an edge. -/
structure Cut (bs : Nat) (t : List (Node α β μ)) (n : Node α β μ) (pos : Nat) : Prop where
  mem : n ∈ t
  zero_lt : 0 < pos
  lt : pos < n.key.length
  dvd : bs ∣ pos

theorem Cut.boundary {n : Node α β μ} {pos : Nat} (h : WF bs t) (hc : Cut bs t n pos)
    (dp ds : μ → μ) {r : List α} :
    Boundary (BlockTrie.split t n.path pos dp ds) r ↔
      Boundary t r ∨ r = n.pre ++ n.key.take pos := by
  constructor
  · rintro (rfl | ⟨m, hm, rfl⟩)
    · exact .inl (.inl rfl)
    · rcases mem_split.1 hm with ⟨hm, -⟩ | ⟨k, hk, hkp, hm⟩
      · exact .inl (.inr ⟨m, hm, rfl⟩)
      · rw [h.eq_of_path hk hc.mem hkp] at hm
        rcases Node.mem_halves.1 hm with rfl | rfl
        · exact .inr rfl
        · exact .inl (.inr ⟨n, hc.mem, (n.path_right pos _ _).symm⟩)
  · rintro ((rfl | ⟨m, hm, rfl⟩) | rfl)
    · exact .inl rfl
    · by_cases hp : m.path = n.path
      · exact .inr ⟨_, mem_split.2 (.inr ⟨n, hc.mem, rfl, Node.mem_halves.2 (.inr rfl)⟩),
          (n.path_right pos _ _).trans hp.symm⟩
      · exact .inr ⟨m, mem_split.2 (.inl ⟨hm, hp⟩), rfl⟩
    · exact .inr ⟨_, mem_split.2 (.inr ⟨n, hc.mem, rfl, Node.mem_halves.2 (.inl rfl)⟩), rfl⟩

theorem Cut.wf {n : Node α β μ} {pos : Nat} (h : WF bs t) (hc : Cut bs t n pos)
    (dp ds : μ → μ) : WF bs (BlockTrie.split t n.path pos dp ds) := by
  have hold : ∀ {m : Node α β μ}, m ∈ BlockTrie.split t n.path pos dp ds →
      (m ∈ t ∧ m.path ≠ n.path) ∨ m ∈ n.halves pos dp ds := by
    intro m hm
    rcases mem_split.1 hm with hm | ⟨k, hk, hkp, hm⟩
    · exact .inl hm
    · exact .inr (h.eq_of_path hk hc.mem hkp ▸ hm)
  have hpos := hc.zero_lt
  have hlt := hc.lt
  have hblk : bs ≤ pos := Nat.le_of_dvd hpos hc.dvd
  refine ⟨?_, ?_, ?_, ?_, ?_, ?_⟩
  · intro m hm
    rcases hold hm with ⟨hm, -⟩ | hm
    · exact h.key_ne m hm
    · rcases Node.mem_halves.1 hm with rfl | rfl <;>
        (rw [← List.length_pos_iff]; simp; omega)
  · intro m hm
    rcases hold hm with ⟨hm, -⟩ | hm
    · exact h.key_dvd m hm
    · rcases Node.mem_halves.1 hm with rfl | rfl
      · simpa [Nat.min_eq_left hlt.le] using hc.dvd
      · simpa using Nat.dvd_sub (h.key_dvd n hc.mem) hc.dvd
  · intro m hm
    rcases hold hm with ⟨hm, -⟩ | hm
    · exact h.pre_dvd m hm
    · rcases Node.mem_halves.1 hm with rfl | rfl
      · exact h.pre_dvd n hc.mem
      · simpa [Nat.min_eq_left hlt.le] using Nat.dvd_add (h.pre_dvd n hc.mem) hc.dvd
  · intro m hm
    rcases hold hm with ⟨hm, -⟩ | hm
    · exact h.value_length m hm
    · rcases Node.mem_halves.1 hm with rfl | rfl <;> simp [h.value_length n hc.mem]
  · intro m hm
    rw [hc.boundary h dp ds]
    rcases hold hm with ⟨hm, -⟩ | hm
    · exact .inl (h.parent m hm)
    · rcases Node.mem_halves.1 hm with rfl | rfl
      · exact .inl (h.parent n hc.mem)
      · exact .inr rfl
  · -- the tail starts strictly inside `n`, where no other node starts
    have hinner : ∀ m ∈ t, m.pre ≠ n.pre ++ n.key.take pos := by
      intro m hm hp
      have := h.boundary_eq hc.mem (hp ▸ h.parent m hm)
        (by simp; omega) ((List.prefix_append_right_inj n.pre).2 (List.take_prefix pos n.key))
      have hl := congrArg List.length this
      rw [Node.path_length, List.length_append, List.length_take, Nat.min_eq_left hlt.le] at hl
      omega
    rw [BlockTrie.split, List.pairwise_flatMap]
    constructor
    · intro m hm
      split
      · rename_i hp
        rw [h.eq_of_path hm hc.mem hp, Node.halves]
        refine List.pairwise_pair.2 ?_
        intro hpre
        have hl := congrArg List.length hpre
        simp only [List.length_append, List.length_take] at hl
        omega
      · exact List.pairwise_singleton _ _
    · refine h.distinct.imp_of_mem ?_
      intro a b ha hb hab x hx y hy
      have hne : a ≠ b := fun he => hab (he ▸ rfl) (he ▸ rfl)
      -- a half of `n` that keeps the start keeps the first block
      have hcase : ∀ c : Node α β μ, c ∈ t →
          ∀ z, z ∈ (if c.path = n.path then c.halves pos dp ds else [c]) →
          (z.pre = c.pre ∧ z.key.take bs = c.key.take bs) ∨
            (c = n ∧ z.pre = n.pre ++ n.key.take pos) := by
        intro c hct z hz
        split at hz
        · rename_i hp
          obtain rfl := h.eq_of_path hct hc.mem hp
          rcases Node.mem_halves.1 hz with rfl | rfl
          · exact .inl ⟨rfl, by simp [List.take_take, Nat.min_eq_left hblk]⟩
          · exact .inr ⟨rfl, rfl⟩
        · rw [List.mem_singleton.1 hz]
          exact .inl ⟨rfl, rfl⟩
      intro hpre
      rcases hcase a ha x hx with ⟨hx1, hx2⟩ | ⟨rfl, hx1⟩ <;>
        rcases hcase b hb y hy with ⟨hy1, hy2⟩ | ⟨rfl, hy1⟩
      · rw [hx2, hy2]
        exact hab (by rw [← hx1, ← hy1, hpre])
      · exact absurd (by rw [← hx1, hpre, hy1]) (hinner a ha)
      · exact absurd (by rw [← hy1, ← hpre, hx1]) (hinner b hb)
      · exact absurd rfl hne

end Edits

end BlockTrie
