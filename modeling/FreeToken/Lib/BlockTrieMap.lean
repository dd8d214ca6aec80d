import Mathlib.Data.List.Infix
import FreeToken.Lib.BlockMap
import FreeToken.Lib.BlockTriePath

/-!
# The map a block trie stores

Every front of a node's path that ends inside the node stands for one block of the node's values.
How the edges are cut does not matter: a split keeps the map, a graft adds the blocks of the new
edge, and the removal of a leaf takes the blocks of its edge out.
-/

set_option autoImplicit false

namespace BlockTrie

open Blocks

variable {α β μ : Type*} {bs : Nat} {t : List (Node α β μ)}

/-- The blocks of a list of whole blocks, in order. -/
theorem flatMap_blocks (hbs : 0 < bs) (l : List β) (hd : bs ∣ l.length) :
    (List.range (l.length / bs)).flatMap (fun i => (l.drop (bs * i)).take bs) = l := by
  obtain ⟨n, hn⟩ := hd
  rw [hn, Nat.mul_div_cancel_left n hbs]
  induction n generalizing l with
  | zero =>
      rw [Nat.mul_zero] at hn
      rw [List.eq_nil_of_length_eq_zero hn]
      rfl
  | succ n ih =>
      have hlen : (l.drop bs).length = bs * n := by
        rw [List.length_drop, hn, Nat.mul_add, Nat.mul_one, Nat.add_sub_cancel]
      have hrest := ih (l.drop bs) hlen
      rw [List.range_succ_eq_map, List.flatMap_cons, List.flatMap_map, Nat.mul_zero, List.drop_zero]
      have htail : ((List.range n).flatMap fun i => (l.drop (bs * (i + 1))).take bs) =
          l.drop bs := by
        rw [← hrest]
        refine List.flatMap_congr fun i _ => ?_
        rw [List.drop_drop, Nat.mul_add, Nat.mul_one, Nat.add_comm]
      rw [htail, List.take_append_drop]

/-- The block of the node's values that belongs to the last block of `q`. -/
def Node.blockAt (bs : Nat) (n : Node α β μ) (q : List α) : List β :=
  (n.value.drop (q.length - bs - n.pre.length)).take bs

instance [DecidableEq α] (n : Node α β μ) (q : List α) : Decidable (n.Covers bs q) :=
  decidable_of_iff (n.pre.length < q.length ∧ q <+: n.path ∧ bs ∣ q.length)
    ⟨fun ⟨h1, h2, h3⟩ => ⟨h1, h2, h3⟩, fun h => ⟨h.lt, h.le, h.dvd⟩⟩

variable [DecidableEq α]

/-- The block the trie stores for the last block of `q`. -/
def blockOf (bs : Nat) (t : List (Node α β μ)) (q : List α) : Option (List β) :=
  (t.find? fun n => decide (n.Covers bs q)).map (·.blockAt bs q)

theorem WF.blockOf_eq_some (h : WF bs t) {q : List α} {v : List β} :
    blockOf bs t q = some v ↔ ∃ n ∈ t, n.Covers bs q ∧ n.blockAt bs q = v := by
  unfold blockOf
  rw [Option.map_eq_some_iff]
  constructor
  · rintro ⟨n, hn, rfl⟩
    exact ⟨n, List.mem_of_find?_eq_some hn, by simpa using List.find?_some hn, rfl⟩
  · rintro ⟨n, hn, hc, rfl⟩
    cases hf : t.find? fun n => decide (n.Covers bs q) with
    | none => exact absurd hc (by simpa using List.find?_eq_none.1 hf n hn)
    | some m =>
        have hm : m.Covers bs q := by simpa using List.find?_some hf
        rw [h.covers_unique hn (List.mem_of_find?_eq_some hf) hc hm]
        exact ⟨m, rfl, rfl⟩

theorem isSome_blockOf {q : List α} : (blockOf bs t q).isSome ↔ ∃ n ∈ t, n.Covers bs q := by
  unfold blockOf
  rw [Option.isSome_map, List.find?_isSome]
  simp

/-- Two tries whose nodes store the same blocks store the same map. -/
theorem blockOf_congr {t' : List (Node α β μ)} (h : WF bs t) (h' : WF bs t') (q : List α)
    (hiff : ∀ v, (∃ n ∈ t, n.Covers bs q ∧ n.blockAt bs q = v) ↔
      ∃ n ∈ t', n.Covers bs q ∧ n.blockAt bs q = v) : blockOf bs t q = blockOf bs t' q := by
  refine Option.ext fun v => ?_
  show blockOf bs t q = some v ↔ blockOf bs t' q = some v
  rw [h.blockOf_eq_some, h'.blockOf_eq_some, hiff]

theorem WF.isSome_front (h : WF bs t) {r : List α} (hr : Boundary t r) {p : List α} (hp : p <+: r)
    (hne : p ≠ []) (hd : bs ∣ p.length) : (blockOf bs t p).isSome := by
  revert hp
  refine h.boundary_induction (P := fun r => p <+: r → (blockOf bs t p).isSome) ?_ ?_ hr
  · exact fun hp => absurd (List.prefix_nil.1 hp) hne
  · intro n hn ih hp
    by_cases hlt : n.pre.length < p.length
    · exact isSome_blockOf.2 ⟨n, hn, hlt, hp, hd⟩
    · exact ih (List.prefix_of_prefix_length_le hp n.pre_prefix (Nat.le_of_not_lt hlt))

omit [DecidableEq α] in
theorem WF.length_blockAt (h : WF bs t) {n : Node α β μ} (hn : n ∈ t) {q : List α}
    (hc : n.Covers bs q) : (n.blockAt bs q).length = bs := by
  have hle := hc.block_le (h.pre_dvd n hn)
  have hlen := hc.le.length_le
  rw [Node.path_length] at hlen
  unfold Node.blockAt
  rw [List.length_take, List.length_drop, h.value_length n hn]
  omega

/-- The map a well-formed trie stores. -/
def toMap (h : WF bs t) : BlockMap α β bs where
  block := blockOf bs t
  nil := by
    cases hb : blockOf bs t [] with
    | none => rfl
    | some v =>
        obtain ⟨n, -, hc, -⟩ := h.blockOf_eq_some.1 hb
        exact absurd rfl hc.ne_nil
  dvd := fun q hq => by
    obtain ⟨n, -, hc⟩ := isSome_blockOf.1 hq
    exact hc.dvd
  length := fun q v hv => by
    obtain ⟨n, hn, hc, rfl⟩ := h.blockOf_eq_some.1 hv
    exact h.length_blockAt hn hc
  closed := fun p q hq hp hne hd => by
    obtain ⟨n, hn, hc⟩ := isSome_blockOf.1 hq
    exact h.isSome_front (.inr ⟨n, hn, rfl⟩) (hp.trans hc.le) hne hd
  finite := by
    refine (t.flatMap fun n => n.path.inits).toFinset.finite_toSet.subset fun q hq => ?_
    obtain ⟨n, hn, hc⟩ := isSome_blockOf.1 hq
    simp only [List.coe_toFinset, Set.mem_ofPred_eq, List.mem_flatMap, List.mem_inits]
    exact ⟨n, hn, hc.le⟩

@[simp] theorem toMap_block (h : WF bs t) (q : List α) : (toMap h).block q = blockOf bs t q := rfl

theorem toMap_nil : toMap (WF.nil bs : WF bs ([] : List (Node α β μ))) = BlockMap.empty α β bs :=
  BlockMap.ext fun _ => rfl

/-! ## Reading -/

/-- The values along a boundary's path are those of its blocks. -/
theorem WF.pathValues_eq (hbs : 0 < bs) (h : WF bs t) {r : List α} (hr : Boundary t r) :
    pathValues t r = (toMap h).values r := by
  refine h.boundary_induction (P := fun r => BlockTrie.pathValues t r = (toMap h).values r) ?_ ?_ hr
  · unfold BlockMap.values
    simp [pathValues]
  · intro n hn ih
    rw [h.pathValues_path hn, ih]
    obtain ⟨a, ha⟩ := h.pre_dvd n hn
    obtain ⟨b, hb⟩ := h.key_dvd n hn
    have hvalue := h.value_length n hn
    have hpath : n.path.length / bs = a + b := by
      rw [Node.path_length, ha, hb, ← Nat.mul_add, Nat.mul_div_cancel_left _ hbs]
    have hpre : n.pre.length / bs = a := by rw [ha, Nat.mul_div_cancel_left _ hbs]
    unfold BlockMap.values
    rw [hpath, hpre, List.range_add, List.flatMap_append, List.flatMap_map]
    congr 1
    · refine List.flatMap_congr fun i hi => ?_
      have hi' := List.mem_range.1 hi
      have hle : bs * (i + 1) ≤ n.pre.length := by
        rw [ha]
        exact Nat.mul_le_mul_left bs hi'
      unfold Node.path
      rw [List.take_append_of_le_length hle]
    · have hblocks := flatMap_blocks hbs n.value (by rw [hvalue]; exact h.key_dvd n hn)
      rw [hvalue, hb, Nat.mul_div_cancel_left _ hbs] at hblocks
      conv_lhs => rw [← hblocks]
      refine List.flatMap_congr fun i hi => ?_
      have hi' := List.mem_range.1 hi
      have hle : bs * (a + i + 1) ≤ n.path.length := by
        rw [Node.path_length, ha, hb, ← Nat.mul_add]
        exact Nat.mul_le_mul_left bs (by omega)
      have hlen : (n.path.take (bs * (a + i + 1))).length = bs * (a + i + 1) :=
        List.length_take_of_le hle
      have hc : n.Covers bs (n.path.take (bs * (a + i + 1))) := by
        refine ⟨?_, List.take_prefix _ _, ?_⟩
        · rw [hlen, ha]
          exact Nat.mul_lt_mul_of_pos_left (by omega) hbs
        · rw [hlen]
          exact Nat.dvd_mul_right _ _
      have hblock : (toMap h).block (n.path.take (bs * (a + i + 1))) = _ :=
        h.blockOf_eq_some.2 ⟨n, hn, hc, rfl⟩
      rw [hblock, Option.getD_some]
      unfold Node.blockAt
      have hsub : bs * (a + i + 1) - bs - bs * a = bs * i := by
        rw [Nat.mul_add, Nat.mul_add, Nat.mul_one]
        omega
      rw [hlen, ha, hsub]

/-- Each block along a boundary's path is the block of the node that holds it. -/
theorem WF.lastBlock_pathValues (h : WF bs t) {r : List α} (hr : Boundary t r) {q : List α}
    (hq : q <+: r) {n : Node α β μ} (hn : n ∈ t) (hc : n.Covers bs q) :
    BlockMap.lastBlock bs (pathValues t r) q = n.blockAt bs q := by
  revert hq
  refine h.boundary_induction (P := fun r => q <+: r →
    BlockMap.lastBlock bs (BlockTrie.pathValues t r) q = n.blockAt bs q) ?_ ?_ hr
  · exact fun hq => absurd (List.prefix_nil.1 hq) hc.ne_nil
  · intro m hm ih hq
    have hlen := h.length_pathValues (h.parent m hm)
    have hblock := hc.block_le (h.pre_dvd n hn)
    rw [h.pathValues_path hm]
    unfold BlockMap.lastBlock at ih ⊢
    by_cases hlt : m.pre.length < q.length
    · have hcm : m.Covers bs q := ⟨hlt, hq, hc.dvd⟩
      obtain rfl := h.covers_unique hn hm hc hcm
      unfold Node.blockAt
      rw [List.drop_append, List.drop_of_length_le (by omega), List.nil_append, hlen]
    · have hqm : q <+: m.pre :=
        List.prefix_of_prefix_length_le hq m.pre_prefix (Nat.le_of_not_lt hlt)
      rw [← ih hqm, List.drop_append_of_le_length (by omega),
        List.take_append_of_le_length (by rw [List.length_drop]; omega)]

/-- A boundary below which no edge goes on with `ids` is the longest front the map has. -/
theorem WF.longest_eq (hbs : 0 < bs) (h : WF bs t) {ids : List α} {k : Nat} (hk : k ≤ ids.length)
    (hb : Boundary t (ids.take k))
    (hstop : k < ids.length → ∀ m ∈ t, m.pre = ids.take k → m.key.take bs ≠ (ids.drop k).take bs) :
    (toMap h).longest ids = k := by
  have hlen : (ids.take k).length = k := List.length_take_of_le hk
  have hdvd := h.boundary_dvd hb
  rw [hlen] at hdvd
  refine BlockMap.longest_eq _ hbs hdvd hk ?_ fun j hj hsome => ?_
  · by_cases hzero : k = 0
    · exact .inl hzero
    · refine .inr (h.isSome_front hb List.prefix_rfl (fun hnil => hzero ?_) (by rwa [hlen]))
      rw [← hlen, hnil]
      rfl
  · by_contra hlt
    have hkj : k < j := Nat.lt_of_not_le hlt
    obtain ⟨n, hn, hc⟩ := isSome_blockOf.1 hsome
    have hjlen : (ids.take j).length = j := List.length_take_of_le hj
    have hpre : ids.take k <+: n.path := (List.take_prefix_take_left hkj.le).trans hc.le
    have hle := hc.le.length_le
    rw [hjlen] at hle
    obtain ⟨m, hm, hmp, hmn⟩ := h.exists_child hb (.inr ⟨n, hn, rfl⟩) hpre (by omega)
    have hblk := h.block_le hm
    -- the next block of `ids` is whole, since both ends are block boundaries
    have hroom : k + bs ≤ j := by
      obtain ⟨a, rfl⟩ := hdvd
      obtain ⟨b, hb'⟩ := hc.dvd
      rw [hjlen] at hb'
      subst hb'
      have hab : a < b := Nat.lt_of_mul_lt_mul_left hkj
      calc bs * a + bs = bs * (a + 1) := by rw [Nat.mul_add, Nat.mul_one]
        _ ≤ bs * b := Nat.mul_le_mul_left bs hab
    refine hstop (by omega) m hm hmp ?_
    have hmlen : m.path.length = k + m.key.length := by rw [Node.path_length, hmp, hlen]
    have hfront : ids.take (k + bs) <+: m.path := by
      refine List.prefix_of_prefix_length_le
        ((List.take_prefix_take_left hroom).trans hc.le) hmn ?_
      rw [List.length_take_of_le (by omega), hmlen]
      omega
    rw [List.take_add, Node.path, hmp] at hfront
    have hblock := (List.prefix_append_right_inj _).1 hfront
    rw [List.prefix_iff_eq_take.1 hblock, List.length_take, List.length_drop,
      Nat.min_eq_left (by omega)]

/-! ## Edits -/

theorem blockOf_map (h : WF bs t) {g : Node α β μ → Node α β μ} (hg : SameShape g)
    (hv : ∀ n, (g n).value = n.value) (q : List α) : blockOf bs (t.map g) q = blockOf bs t q := by
  refine blockOf_congr (h.map hg) h q fun v => ?_
  have hblock : ∀ n : Node α β μ, (g n).blockAt bs q = n.blockAt bs q := fun n => by
    unfold Node.blockAt
    rw [hv, (hg n).1]
  simp only [List.mem_map, exists_exists_and_eq_and, hg.covers_iff, hblock]

omit [DecidableEq α] in
/-- A half of an edge stores the blocks the whole edge stores. -/
theorem WF.blockAt_half (h : WF bs t) {n m : Node α β μ} (hn : n ∈ t) {pos : Nat}
    (hlt : pos < n.key.length) (hdvd : bs ∣ pos) {dp ds : μ → μ} (hm : m ∈ n.halves pos dp ds)
    {q : List α} (hcov : m.Covers bs q) : m.blockAt bs q = n.blockAt bs q := by
  have hlen : (n.pre ++ n.key.take pos).length = n.pre.length + pos := by
    rw [List.length_append, List.length_take_of_le hlt.le]
  have hpre := h.pre_dvd n hn
  rcases Node.mem_halves.1 hm with rfl | rfl
  · have hle := hcov.block_le hpre
    have hend := hcov.le.length_le
    rw [Node.path_length] at hend
    unfold Node.blockAt
    dsimp only at hle hend ⊢
    rw [List.length_take_of_le hlt.le] at hend
    rw [List.drop_take, List.take_take, Nat.min_eq_left (by omega)]
  · have hle := hcov.block_le (by rw [hlen]; exact Nat.dvd_add hpre hdvd)
    unfold Node.blockAt
    dsimp only at hle ⊢
    rw [hlen] at hle ⊢
    rw [List.drop_drop]
    congr 2
    omega

omit [DecidableEq α] in
/-- Every block of an edge is in one of its halves. -/
theorem Node.Covers.exists_half {n : Node α β μ} {pos : Nat} (hlt : pos < n.key.length)
    (dp ds : μ → μ) {q : List α} (hcov : n.Covers bs q) :
    ∃ m ∈ n.halves pos dp ds, m.Covers bs q := by
  by_cases hq : q.length ≤ n.pre.length + pos
  · refine ⟨_, Node.mem_halves.2 (.inl rfl), hcov.lt, ?_, hcov.dvd⟩
    refine List.prefix_of_prefix_length_le hcov.le (n.path_left pos _ _) ?_
    rw [Node.path_length]
    dsimp only
    rwa [List.length_take_of_le hlt.le]
  · refine ⟨_, Node.mem_halves.2 (.inr rfl), ?_, ?_, hcov.dvd⟩
    · dsimp only
      rw [List.length_append, List.length_take_of_le hlt.le]
      omega
    · rw [n.path_right pos]
      exact hcov.le

/-- How an edge is cut does not change the map. -/
theorem Cut.blockOf {n : Node α β μ} {pos : Nat} (h : WF bs t) (hc : Cut bs t n pos)
    (dp ds : μ → μ) (q : List α) :
    BlockTrie.blockOf bs (split t n.path pos dp ds) q = BlockTrie.blockOf bs t q := by
  refine blockOf_congr (hc.wf h dp ds) h q fun v => ⟨?_, ?_⟩
  · rintro ⟨m, hm, hcov, rfl⟩
    rcases mem_split.1 hm with ⟨hmt, -⟩ | ⟨k, hk, hkp, hmk⟩
    · exact ⟨m, hmt, hcov, rfl⟩
    · obtain rfl := h.eq_of_path hk hc.mem hkp
      exact ⟨k, hk, hcov.of_half hmk, (h.blockAt_half hk hc.lt hc.dvd hmk hcov).symm⟩
  · rintro ⟨m, hm, hcov, rfl⟩
    by_cases hmn : m.path = n.path
    · obtain rfl := h.eq_of_path hm hc.mem hmn
      obtain ⟨k, hk, hkq⟩ := hcov.exists_half hc.lt dp ds
      exact ⟨k, mem_split.2 (.inr ⟨m, hm, rfl, hk⟩), hkq, h.blockAt_half hm hc.lt hc.dvd hk hkq⟩
    · exact ⟨m, mem_split.2 (.inl ⟨hm, hmn⟩), hcov, rfl⟩

/-- A new edge adds its own blocks. -/
theorem blockOf_graft (n : Node α β μ) (q : List α) :
    blockOf bs (graft t n) q =
      (blockOf bs t q).or (if n.Covers bs q then some (n.blockAt bs q) else none) := by
  unfold blockOf graft
  rw [List.find?_append, Option.map_or, List.find?_singleton]
  by_cases hc : n.Covers bs q
  · simp [hc]
  · simp [hc]

/-- Without a node, the map is without the blocks of its edge. -/
theorem WF.blockOf_prune (h : WF bs t) {n : Node α β μ} (hn : n ∈ t)
    (hw : WF bs (BlockTrie.prune t n.path)) (q : List α) :
    blockOf bs (BlockTrie.prune t n.path) q = if n.Covers bs q then none else blockOf bs t q := by
  split
  · rename_i hc
    cases hb : blockOf bs (BlockTrie.prune t n.path) q with
    | none => rfl
    | some v =>
        obtain ⟨m, hm, hmc, -⟩ := hw.blockOf_eq_some.1 hb
        obtain ⟨hmt, hne⟩ := mem_prune.1 hm
        exact absurd (congrArg Node.path (h.covers_unique hmt hn hmc hc)) hne
  · rename_i hc
    refine blockOf_congr hw h q fun v => ⟨?_, ?_⟩
    · rintro ⟨m, hm, hrest⟩
      exact ⟨m, (mem_prune.1 hm).1, hrest⟩
    · rintro ⟨m, hm, hmc, hv⟩
      refine ⟨m, mem_prune.2 ⟨hm, fun hp => hc ?_⟩, hmc, hv⟩
      rwa [← h.eq_of_path hm hn hp]

/-- The removal of a leaf no kept sequence runs through. -/
theorem WF.evicts_prune (hbs : 0 < bs) (h : WF bs t) {n : Node α β μ} (hn : n ∈ t)
    (hw : WF bs (BlockTrie.prune t n.path)) {keep : List (List α)}
    (hkeep : ∀ l ∈ keep, Boundary t l ∧ ¬ n.path <+: l) :
    BlockMap.Evicts keep (toMap h) (toMap hw) n.value where
  sub := fun q v hv => by
    rw [toMap_block, h.blockOf_prune hn hw] at hv
    split at hv
    · cases hv
    · exact hv
  kept := fun l hl q hq => by
    obtain ⟨hb, hnot⟩ := hkeep l hl
    rw [toMap_block, h.blockOf_prune hn hw]
    refine if_neg fun hc => hnot ?_
    exact h.path_prefix_of_covers hn hc hb hq
  out := by
    obtain ⟨a, ha⟩ := h.pre_dvd n hn
    obtain ⟨b, hb⟩ := h.key_dvd n hn
    have hvalue := h.value_length n hn
    have hlen : ∀ i < b, (n.path.take (bs * (a + i + 1))).length = bs * (a + i + 1) := by
      intro i hi
      refine List.length_take_of_le ?_
      rw [Node.path_length, ha, hb, ← Nat.mul_add]
      exact Nat.mul_le_mul_left bs (by omega)
    have hcov : ∀ i < b, n.Covers bs (n.path.take (bs * (a + i + 1))) := by
      intro i hi
      refine ⟨?_, List.take_prefix _ _, ?_⟩
      · rw [hlen i hi, ha]
        exact Nat.mul_lt_mul_of_pos_left (by omega) hbs
      · rw [hlen i hi]
        exact Nat.dvd_mul_right _ _
    refine ⟨(List.range b).map fun i => n.path.take (bs * (a + i + 1)), ?_, fun q => ?_, ?_⟩
    · refine (List.nodup_map_iff_inj_on List.nodup_range).2 fun i hi j hj heq => ?_
      have := congrArg List.length heq
      rw [hlen i (List.mem_range.1 hi), hlen j (List.mem_range.1 hj)] at this
      have := Nat.eq_of_mul_eq_mul_left hbs this
      omega
    · rw [toMap_block, toMap_block, h.blockOf_prune hn hw, List.mem_map]
      constructor
      · rintro ⟨i, hi, rfl⟩
        have hc := hcov i (List.mem_range.1 hi)
        exact ⟨isSome_blockOf.2 ⟨n, hn, hc⟩, if_pos hc⟩
      · rintro ⟨hsome, hnone⟩
        have hc : n.Covers bs q := by
          by_contra hc
          rw [if_neg hc] at hnone
          rw [hnone] at hsome
          cases hsome
        obtain ⟨c, hqlen⟩ := hc.dvd
        have hlt := hc.lt
        have hle := hc.le.length_le
        rw [Node.path_length, ha, hb, ← Nat.mul_add, hqlen] at hle
        rw [ha, hqlen] at hlt
        have hac : a < c := Nat.lt_of_mul_lt_mul_left hlt
        have hcb : c ≤ a + b := Nat.le_of_mul_le_mul_left hle hbs
        refine ⟨c - a - 1, List.mem_range.2 (by omega), ?_⟩
        rw [show a + (c - a - 1) + 1 = c by omega, ← hqlen]
        exact (List.prefix_iff_eq_take.1 hc.le).symm
    · have hblocks := flatMap_blocks hbs n.value (by rw [hvalue]; exact h.key_dvd n hn)
      rw [hvalue, hb, Nat.mul_div_cancel_left _ hbs] at hblocks
      conv_lhs => rw [← hblocks]
      rw [List.flatMap_map]
      refine List.flatMap_congr fun i hi => ?_
      have hi' := List.mem_range.1 hi
      have hblock : (toMap h).block (n.path.take (bs * (a + i + 1))) = _ :=
        h.blockOf_eq_some.2 ⟨n, hn, hcov i hi', rfl⟩
      rw [hblock, Option.getD_some]
      unfold Node.blockAt
      have hsub : bs * (a + i + 1) - bs - bs * a = bs * i := by
        rw [Nat.mul_add, Nat.mul_add, Nat.mul_one]
        omega
      rw [hlen i hi', ha, hsub]

end BlockTrie
