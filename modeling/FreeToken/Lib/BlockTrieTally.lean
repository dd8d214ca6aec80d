import FreeToken.Lib.BlockTriePath

/-!
# Sums over a block trie

A running total over the nodes, and what each edit of the trie adds to it.
-/

set_option autoImplicit false

namespace BlockTrie

variable {α β μ : Type*} {bs : Nat} {t : List (Node α β μ)}

/-- The total of `f` over the nodes. -/
def tally (f : Node α β μ → Int) (t : List (Node α β μ)) : Int := (t.map f).sum

@[simp] theorem tally_nil (f : Node α β μ → Int) : tally f [] = 0 := rfl

@[simp] theorem tally_cons (f : Node α β μ → Int) (n : Node α β μ) (t : List (Node α β μ)) :
    tally f (n :: t) = f n + tally f t := by
  simp [tally]

theorem tally_append (f : Node α β μ → Int) (s t : List (Node α β μ)) :
    tally f (s ++ t) = tally f s + tally f t := by
  simp [tally]

theorem tally_perm {f : Node α β μ → Int} {s t : List (Node α β μ)} (h : s.Perm t) :
    tally f s = tally f t :=
  (h.map f).sum_eq

theorem tally_congr {f g : Node α β μ → Int} (h : ∀ n ∈ t, f n = g n) : tally f t = tally g t := by
  unfold tally
  rw [List.map_congr_left h]

theorem tally_map (f : Node α β μ → Int) (g : Node α β μ → Node α β μ) :
    tally f (t.map g) = tally (fun n => f (g n)) t := by
  unfold tally
  rw [List.map_map]
  rfl

theorem tally_graft (f : Node α β μ → Int) (t : List (Node α β μ)) (n : Node α β μ) :
    tally f (graft t n) = tally f t + f n := by
  rw [graft, tally_append, tally_cons, tally_nil, add_zero]

variable [DecidableEq α]

theorem WF.tally_prune (h : WF bs t) (f : Node α β μ → Int) {n : Node α β μ} (hn : n ∈ t) :
    tally f t = f n + tally f (BlockTrie.prune t n.path) := by
  rw [tally_perm (h.perm_prune hn), tally_cons]

theorem WF.tally_modify (h : WF bs t) (f : Node α β μ → Int) {n : Node α β μ} (hn : n ∈ t)
    (g : Node α β μ → Node α β μ) :
    tally f (BlockTrie.modify t n.path g) = tally f t - f n + f (g n) := by
  rw [tally_perm (h.modify_perm hn g), tally_cons, h.tally_prune f hn]
  omega

/-- A split of a node moves its part of the total to its halves. -/
theorem WF.tally_split (h : WF bs t) (f : Node α β μ → Int) {n : Node α β μ} (hn : n ∈ t)
    (pos : Nat) (dp ds : μ → μ) :
    tally f (BlockTrie.split t n.path pos dp ds) =
      tally f t - f n + tally f (n.halves pos dp ds) := by
  rw [tally_perm (h.split_perm hn pos dp ds), tally_append, h.tally_prune f hn]
  omega

end BlockTrie
