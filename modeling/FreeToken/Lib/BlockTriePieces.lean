import FreeToken.Lib.BlockTriePath

/-!
# What a block trie holds

All the values of a trie, and the nodes that hold a part of what another node held.
-/

set_option autoImplicit false

namespace BlockTrie

variable {α β μ : Type*} {bs : Nat} {t : List (Node α β μ)}

/-- All the values of a trie. -/
def contents (t : List (Node α β μ)) : List β := t.flatMap Node.value

@[simp] theorem contents_nil : contents ([] : List (Node α β μ)) = [] := rfl

@[simp] theorem contents_cons (n : Node α β μ) (t : List (Node α β μ)) :
    contents (n :: t) = n.value ++ contents t := List.flatMap_cons

theorem contents_graft (n : Node α β μ) : contents (graft t n) = contents t ++ n.value := by
  unfold contents graft
  rw [List.flatMap_append, List.flatMap_singleton]

section Edits

variable [DecidableEq α]

theorem WF.contents_perm (h : WF bs t) {n : Node α β μ} (hn : n ∈ t) :
    (contents t).Perm (n.value ++ contents (BlockTrie.prune t n.path)) := by
  rw [← contents_cons]
  exact (h.perm_prune hn).flatMap_right _

/-- A change of one node changes its own values only. -/
theorem WF.contents_modify (h : WF bs t) {n : Node α β μ} (hn : n ∈ t)
    (f : Node α β μ → Node α β μ) :
    (contents (BlockTrie.modify t n.path f)).Perm
      ((f n).value ++ contents (BlockTrie.prune t n.path)) := by
  rw [← contents_cons]
  exact (h.modify_perm hn f).flatMap_right _

/-- How an edge is cut does not change the contents. -/
theorem WF.contents_split (h : WF bs t) {n : Node α β μ} (hn : n ∈ t) (pos : Nat) (dp ds : μ → μ) :
    (contents (BlockTrie.split t n.path pos dp ds)).Perm (contents t) := by
  apply List.Perm.trans ((h.split_perm hn pos dp ds).flatMap_right _)
  apply List.Perm.trans _ (h.contents_perm hn).symm
  rw [List.flatMap_append]
  apply List.Perm.append_right
  show (n.value.take pos ++ (n.value.drop pos ++ [])).Perm n.value
  rw [List.append_nil, List.take_append_drop]

end Edits

/-! ## Pieces -/

/-- The node `m` holds a part of what `n` holds. -/
structure Piece (m n : Node α β μ) : Prop where
  above : n.pre.length ≤ m.pre.length
  below : m.path <+: n.path
  value : m.value = (n.value.drop (m.pre.length - n.pre.length)).take m.key.length

namespace Piece

theorem refl {n : Node α β μ} (h : n.value.length = n.key.length) : Piece n n where
  above := Nat.le_refl _
  below := List.prefix_rfl
  value := by
    rw [Nat.sub_self, List.drop_zero, ← h, List.take_length]

theorem key_le {m n : Node α β μ} (h : Piece m n) :
    m.pre.length - n.pre.length + m.key.length ≤ n.key.length := by
  have hlen := h.below.length_le
  have habove := h.above
  rw [Node.path_length, Node.path_length] at hlen
  omega

/-- A part of a part of a list. -/
theorem value_of {m n : Node α β μ} (h : Piece m n) {l : List β} {a : Nat}
    (hn : n.value = (l.drop (n.pre.length - a)).take n.key.length) (ha : a ≤ n.pre.length) :
    m.value = (l.drop (m.pre.length - a)).take m.key.length := by
  have hle := h.key_le
  have habove := h.above
  rw [h.value, hn, List.drop_take, List.take_take, List.drop_drop, Nat.min_eq_left (by omega)]
  congr 2
  omega

theorem trans {m n o : Node α β μ} (h : Piece m n) (h' : Piece n o) : Piece m o where
  above := h'.above.trans h.above
  below := h.below.trans h'.below
  value := h.value_of h'.value h'.above

/-- The halves of an edge are pieces of it. -/
theorem of_half {m n : Node α β μ} {pos : Nat} {dp ds : μ → μ}
    (h : n.value.length = n.key.length) (hm : m ∈ n.halves pos dp ds) (hpos : pos < n.key.length) :
    Piece m n := by
  rcases Node.mem_halves.1 hm with rfl | rfl
  · refine ⟨Nat.le_refl _, n.path_left pos _ _, ?_⟩
    dsimp only
    rw [Nat.sub_self, List.drop_zero, List.length_take_of_le hpos.le]
  · refine ⟨?_, ?_, ?_⟩
    · dsimp only
      rw [List.length_append]
      exact Nat.le_add_right _ _
    · rewrite [n.path_right pos]
      exact List.prefix_rfl
    · dsimp only
      rw [List.length_append, List.length_take_of_le hpos.le, Nat.add_sub_cancel_left,
        List.length_drop, ← h, ← List.length_drop, List.take_length]

end Piece

end BlockTrie
