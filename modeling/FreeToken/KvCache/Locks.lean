import FreeToken.KvCache.RadixTree

/-!
# Locks on the radix tree

Every lock names the node it ends at and pins the nodes on its path.  `Locked t L` says that the
reference counts of `t` are exactly the pins of the locks `L`; splits, touches, grafts and the
removal of unpinned leaves keep it, `pin` and `unpin` along a chain add and drop one lock.
-/

set_option autoImplicit false

namespace FreeToken

open BlockTrie Blocks

/-- The number of locks of `L` whose path runs through `p`. -/
def pins (L : List NodeRef) (p : NodeRef) : Nat := L.countP (fun l => decide (p <+: l))

@[simp] theorem pins_nil (p : NodeRef) : pins [] p = 0 := rfl

theorem pins_cons (l : NodeRef) (L : List NodeRef) (p : NodeRef) :
    pins (l :: L) p = pins L p + if p <+: l then 1 else 0 := by
  simp [pins, List.countP_cons]

theorem pins_perm {L M : List NodeRef} (h : L.Perm M) (p : NodeRef) : pins L p = pins M p :=
  h.countP_eq _

theorem pins_pos {L : List NodeRef} {p : NodeRef} : 0 < pins L p ↔ ∃ l ∈ L, p <+: l := by
  simp [pins, List.countP_pos_iff]

theorem pins_congr {L : List NodeRef} {p q : NodeRef} (h : ∀ l ∈ L, p <+: l ↔ q <+: l) :
    pins L p = pins L q :=
  List.countP_congr fun l hl => by simp only [decide_eq_true_eq, h l hl]

structure Locked (ps : Nat) (t : RadixTree) (L : List NodeRef) : Prop where
  wf : WF ps t
  bound : ∀ l ∈ L, Boundary t l
  refs : ∀ n ∈ t, n.data.refCount = pins L n.path

/-- The values of every node are whole pages. -/
def Paged (ps : Nat) (t : RadixTree) : Prop := ∀ n ∈ t, ∃ pages, n.value = expand ps pages

theorem Locked.nil (ps : Nat) : Locked ps [] [] :=
  ⟨WF.nil ps, by simp, by simp⟩

theorem Locked.perm {ps : Nat} {t : RadixTree} {L M : List NodeRef} (h : Locked ps t L)
    (hp : L.Perm M) : Locked ps t M :=
  ⟨h.wf, fun l hl => h.bound l (hp.mem_iff.2 hl), fun n hn => by rw [h.refs n hn, pins_perm hp]⟩

/-- A lock on the root pins nothing. -/
theorem Locked.cons_nil {ps : Nat} {t : RadixTree} {L : List NodeRef} :
    Locked ps t ([] :: L) ↔ Locked ps t L := by
  have hpins : WF ps t → ∀ n ∈ t, pins ([] :: L) n.path = pins L n.path := by
    intro hwf n hn
    rw [pins_cons, if_neg (by simpa using hwf.path_ne_nil hn), Nat.add_zero]
  constructor
  · rintro ⟨hwf, hb, hr⟩
    exact ⟨hwf, fun l hl => hb l (List.mem_cons_of_mem _ hl),
      fun n hn => by rw [hr n hn, hpins hwf n hn]⟩
  · rintro ⟨hwf, hb, hr⟩
    refine ⟨hwf, ?_, fun n hn => by rw [hr n hn, hpins hwf n hn]⟩
    intro l hl
    rcases List.mem_cons.1 hl with rfl | hl
    · exact .inl rfl
    · exact hb l hl

variable {ps : Nat} {t : RadixTree} {L : List NodeRef}

/-! ## Changes of the data alone -/

/-- The tree with every node's data replaced. -/
def retag (t : RadixTree) (g : RadixTreeNode → NodeData) : RadixTree :=
  t.map fun n => { n with data := g n }

theorem sameShape_retag (g : RadixTreeNode → NodeData) :
    SameShape (fun n : RadixTreeNode => { n with data := g n }) :=
  fun _ => ⟨rfl, rfl, rfl⟩

section Retag

variable {g : RadixTreeNode → NodeData}

theorem mem_retag {m : RadixTreeNode} :
    m ∈ retag t g ↔ ∃ n ∈ t, m = { n with data := g n } := by
  rw [retag, List.mem_map]
  simp only [eq_comm]

theorem boundary_retag {r : NodeRef} : Boundary (retag t g) r ↔ Boundary t r :=
  boundary_map_iff (sameShape_retag g)

theorem wf_retag (h : WF ps t) (g : RadixTreeNode → NodeData) : WF ps (retag t g) :=
  h.map (sameShape_retag g)

theorem readsAt_retag {r : NodeRef} {k x : Nat} (h : ReadsAt t r k x) :
    ReadsAt (retag t g) r k x := by
  obtain ⟨n, hn, hp, hle, hv⟩ := h
  exact ⟨_, mem_retag.2 ⟨n, hn, rfl⟩, hp, hle, hv⟩

theorem reads_retag {r : NodeRef} {row : Nat → Nat} (h : Reads t r row) :
    Reads (retag t g) r row :=
  fun k hk => readsAt_retag (h k hk)

theorem bases_retag (g : RadixTreeNode → NodeData) : bases ps (retag t g) = bases ps t :=
  bases_map fun _ _ => rfl

theorem paged_retag (h : Paged ps t) : Paged ps (retag t g) := by
  intro m hm
  obtain ⟨n, hn, rfl⟩ := mem_retag.1 hm
  exact h n hn

theorem retag_retag (t : RadixTree) (g g' : RadixTreeNode → NodeData) :
    retag (retag t g) g' = retag t fun n => g' { n with data := g n } := by
  unfold retag
  rw [List.map_map]
  rfl

theorem retag_congr {g' : RadixTreeNode → NodeData} (h : ∀ n ∈ t, g n = g' n) :
    retag t g = retag t g' :=
  List.map_congr_left fun n hn => by rw [h n hn]

/-- Retagging moves a tree from the locks `L` to the locks `M` if the counts follow. -/
theorem Locked.retag {M : List NodeRef} (h : Locked ps t L) (hb : ∀ l ∈ M, Boundary t l)
    (hg : ∀ n ∈ t, (g n).refCount = pins M n.path) : Locked ps (FreeToken.retag t g) M where
  wf := wf_retag h.wf g
  bound := fun l hl => boundary_retag.2 (hb l hl)
  refs := by
    intro m hm
    obtain ⟨n, hn, rfl⟩ := mem_retag.1 hm
    exact hg n hn

end Retag

/-- The retagging of one node. -/
def onlyAt (p : NodeRef) (f : NodeData → NodeData) (n : RadixTreeNode) : NodeData :=
  if n.path = p then f n.data else n.data

/-- The retagging of the nodes above the boundary `r`. -/
def above (r : NodeRef) (f : NodeData → NodeData) (n : RadixTreeNode) : NodeData :=
  if n.path <+: r then f n.data else n.data

theorem RadixTree.setData_eq (t : RadixTree) (p : NodeRef) (f : NodeData → NodeData) :
    t.setData p f = retag t (onlyAt p f) := by
  unfold RadixTree.setData BlockTrie.modify retag onlyAt
  refine List.map_congr_left fun n _ => ?_
  split <;> rfl

theorem RadixTree.touch_eq (t : RadixTree) (p : NodeRef) (tic : Nat) :
    t.touch p tic = retag t (onlyAt p fun d => { d with timestamp := tic }) :=
  t.setData_eq p _

theorem Locked.setData (h : Locked ps t L) (p : NodeRef) {f : NodeData → NodeData}
    (hf : ∀ d, (f d).refCount = d.refCount) : Locked ps (t.setData p f) L := by
  rw [RadixTree.setData_eq]
  refine h.retag h.bound fun n hn => ?_
  rw [← h.refs n hn, onlyAt]
  split
  · exact hf n.data
  · rfl

/-! ## Splitting -/

/-- A boundary never ends inside a node, so it runs through a half of a split as through the
whole. -/
theorem half_prefix_iff (hw : WF ps t) {n m : RadixTreeNode} {pos : Nat} (hc : Cut ps t n pos)
    {dp ds : NodeData → NodeData} (hm : m ∈ n.halves pos dp ds) {r : NodeRef}
    (hr : Boundary t r) : m.path <+: r ↔ n.path <+: r := by
  rcases Node.mem_halves.1 hm with rfl | rfl
  · refine ⟨fun hp => ?_, fun hp => (n.path_left pos [] n.data).trans hp⟩
    refine hw.path_prefix_of_covers hc.mem (q := n.pre ++ n.key.take pos) ?_ hr hp
    refine ⟨?_, n.path_left pos [] n.data, ?_⟩
    · have := hc.zero_lt
      have := hc.lt
      simp only [List.length_append, List.length_take]
      omega
    · rw [List.length_append, List.length_take, Nat.min_eq_left hc.lt.le]
      exact Nat.dvd_add (hw.pre_dvd n hc.mem) hc.dvd
  · rw [Node.path_right]

/-- Both halves of a split are pinned as the whole was. -/
theorem Locked.pins_half (h : Locked ps t L) {n m : RadixTreeNode} {pos : Nat}
    (hc : Cut ps t n pos) {dp ds : NodeData → NodeData} (hm : m ∈ n.halves pos dp ds) :
    pins L m.path = pins L n.path :=
  pins_congr fun _ hl => half_prefix_iff h.wf hc hm (h.bound _ hl)

theorem Locked.splitAt (h : Locked ps t L) {n : RadixTreeNode} {pos : Nat}
    (hc : Cut ps t n pos) : Locked ps (t.splitAt n.path pos) L where
  wf := hc.wf h.wf _ _
  bound := fun l hl => (hc.boundary h.wf _ _).2 (.inl (h.bound l hl))
  refs := by
    intro m hm
    rcases mem_split.1 hm with ⟨hmt, -⟩ | ⟨k, hk, hkp, hmk⟩
    · exact h.refs m hmt
    · obtain rfl := h.wf.eq_of_path hk hc.mem hkp
      rw [h.pins_half hc hmk, ← h.refs k hk]
      rcases Node.mem_halves.1 hmk with rfl | rfl <;> rfl

theorem expand_append (k : Nat) (a b : List Nat) : expand k (a ++ b) = expand k a ++ expand k b := by
  simp [expand]

/-- Whole pages cut at a page boundary are whole pages. -/
theorem expand_cut {k : Nat} (hk : 0 < k) (pages : List Nat) {pos : Nat} (hd : k ∣ pos) :
    (expand k pages).take pos = expand k (pages.take (pos / k)) ∧
      (expand k pages).drop pos = expand k (pages.drop (pos / k)) := by
  obtain ⟨j, rfl⟩ := hd
  rw [Nat.mul_div_cancel_left j hk]
  have hsplit : expand k pages = expand k (pages.take j) ++ expand k (pages.drop j) := by
    rw [← expand_append, List.take_append_drop]
  have hlen := length_expand k (pages.take j)
  rw [List.length_take] at hlen
  by_cases hj : j ≤ pages.length
  · rw [Nat.min_eq_left hj, Nat.mul_comm] at hlen
    rw [hsplit, ← hlen]
    exact ⟨List.take_left, List.drop_left⟩
  · have hle : (expand k pages).length ≤ k * j := by
      rw [length_expand, Nat.mul_comm]
      exact Nat.mul_le_mul_left k (by omega)
    rw [List.take_of_length_le hle, List.drop_of_length_le hle,
      List.take_of_length_le (by omega), List.drop_of_length_le (by omega)]
    exact ⟨rfl, by simp [expand]⟩

theorem Paged.splitAt (hps : 0 < ps) (h : Paged ps t) {n : RadixTreeNode} {pos : Nat}
    (hc : Cut ps t n pos) : Paged ps (t.splitAt n.path pos) := by
  intro m hm
  rcases mem_split.1 hm with ⟨hm, -⟩ | ⟨k, hk, hkp, hm⟩
  · exact h m hm
  · obtain ⟨pages, hpages⟩ := h k hk
    have hcut := expand_cut hps pages hc.dvd
    rcases Node.mem_halves.1 hm with rfl | rfl
    · exact ⟨_, by dsimp only; rw [hpages, hcut.1]⟩
    · exact ⟨_, by dsimp only; rw [hpages, hcut.2]⟩

/-! ## Grafting and pruning -/

/-- A lock never runs through a place where no node starts. -/
theorem Locked.pins_new (h : Locked ps t L) {n : RadixTreeNode} (hp : Boundary t n.pre)
    (hk : n.key ≠ []) (hd : ps ∣ n.key.length)
    (hnew : ∀ m ∈ t, m.pre = n.pre → m.key.take ps ≠ n.key.take ps) : pins L n.path = 0 := by
  by_contra hne
  obtain ⟨l, hl, hnl⟩ := pins_pos.1 (Nat.pos_of_ne_zero hne)
  have hlen : n.pre.length < l.length := by
    have := hnl.length_le
    have := List.length_pos_iff.2 hk
    rw [Node.path_length] at *
    omega
  obtain ⟨m, hm, hmp, hml⟩ := h.wf.exists_child hp (h.bound l hl) (n.pre_prefix.trans hnl) hlen
  refine hnew m hm hmp ?_
  have hkn : ps ≤ n.key.length := Nat.le_of_dvd (List.length_pos_iff.2 hk) hd
  have hkm := h.wf.block_le hm
  rw [Node.block_eq hkm hml, Node.block_eq hkn hnl, hmp]

theorem Locked.graft (h : Locked ps t L) {n : RadixTreeNode} (hp : Boundary t n.pre)
    (hk : n.key ≠ []) (hd : ps ∣ n.key.length) (hv : n.value.length = n.key.length)
    (hnew : ∀ m ∈ t, m.pre = n.pre → m.key.take ps ≠ n.key.take ps)
    (href : n.data.refCount = 0) : Locked ps (BlockTrie.graft t n) L where
  wf := h.wf.graft hp hk hd hv hnew
  bound := fun l hl => (h.bound l hl).imp_right fun ⟨c, hc, hcp⟩ =>
    ⟨c, List.mem_append_left _ hc, hcp⟩
  refs := by
    intro m hm
    rcases List.mem_append.1 hm with hm | hm
    · exact h.refs m hm
    · rw [List.mem_singleton.1 hm, href, h.pins_new hp hk hd hnew]

theorem boundary_graft {n : RadixTreeNode} {r : NodeRef} :
    Boundary (BlockTrie.graft t n) r ↔ Boundary t r ∨ r = n.path := by
  simp only [Boundary, BlockTrie.graft, List.mem_append, List.mem_singleton]
  constructor
  · rintro (h | ⟨m, hm | rfl, hr⟩)
    · exact .inl (.inl h)
    · exact .inl (.inr ⟨m, hm, hr⟩)
    · exact .inr hr.symm
  · rintro ((h | ⟨m, hm, hr⟩) | rfl)
    · exact .inl h
    · exact .inr ⟨m, .inl hm, hr⟩
    · exact .inr ⟨n, .inr rfl, rfl⟩

theorem reads_graft {n : RadixTreeNode} {r : NodeRef} {row : Nat → Nat} (h : Reads t r row) :
    Reads (BlockTrie.graft t n) r row := by
  intro k hk
  obtain ⟨m, hm, hrest⟩ := h k hk
  exact ⟨m, List.mem_append_left _ hm, hrest⟩

theorem Paged.graft {n : RadixTreeNode} (h : Paged ps t) (hn : ∃ pages, n.value = expand ps pages) :
    Paged ps (BlockTrie.graft t n) := by
  intro m hm
  rcases List.mem_append.1 hm with hm | hm
  · exact h m hm
  · rwa [List.mem_singleton.1 hm]

/-- No lock runs through an unpinned node. -/
theorem Locked.not_prefix (h : Locked ps t L) {n : RadixTreeNode} (hn : n ∈ t)
    (href : n.data.refCount = 0) {l : NodeRef} (hl : l ∈ L) : ¬ n.path <+: l := by
  intro hp
  have := pins_pos.2 ⟨l, hl, hp⟩
  rw [← h.refs n hn, href] at this
  exact absurd this (Nat.lt_irrefl 0)

theorem boundary_prune {p r : NodeRef} (h : Boundary t r) (hp : r ≠ p) :
    Boundary (BlockTrie.prune t p) r :=
  h.imp_right fun ⟨c, hc, hcp⟩ => ⟨c, mem_prune.2 ⟨hc, hcp ▸ hp⟩, hcp⟩

theorem Locked.prune (h : Locked ps t L) {n : RadixTreeNode} (hn : n ∈ t)
    (hl : isLeaf t n.path = true) (href : n.data.refCount = 0) :
    Locked ps (BlockTrie.prune t n.path) L where
  wf := h.wf.prune hl
  bound := fun l hlL => boundary_prune (h.bound l hlL)
    fun he => h.not_prefix hn href hlL (he ▸ List.prefix_rfl)
  refs := fun m hm => h.refs m (mem_prune.1 hm).1

theorem Locked.reads_prune (h : Locked ps t L) {n : RadixTreeNode} (hn : n ∈ t)
    (href : n.data.refCount = 0) {l : NodeRef} (hl : l ∈ L) {row : Nat → Nat}
    (hr : Reads t l row) : Reads (BlockTrie.prune t n.path) l row := by
  intro k hk
  obtain ⟨m, hm, hml, hrest⟩ := hr k hk
  refine ⟨m, mem_prune.2 ⟨hm, fun he => ?_⟩, hml, hrest⟩
  exact h.not_prefix hn href hl (he ▸ hml)

theorem Paged.prune (h : Paged ps t) (p : NodeRef) : Paged ps (BlockTrie.prune t p) :=
  fun m hm => h m (mem_prune.1 hm).1

theorem bases_prune (h : WF ps t) {n : RadixTreeNode} (hn : n ∈ t) :
    (bases ps t).Perm (stride ps n.value ++ bases ps (BlockTrie.prune t n.path)) :=
  (h.perm_prune hn).flatMap_right _

/-! ## Walks that only reshape -/

/-- `t'` comes from `t` by splits and touches. -/
inductive Reshape (ps : Nat) (t : RadixTree) : RadixTree → Prop
  | refl : Reshape ps t t
  | cut {t' : RadixTree} {n : RadixTreeNode} {pos : Nat} (h : Reshape ps t t')
      (hc : Cut ps t' n pos) : Reshape ps t (t'.splitAt n.path pos)
  | touch {t' : RadixTree} (h : Reshape ps t t') (p : NodeRef) (tic : Nat) :
      Reshape ps t (t'.touch p tic)

namespace Reshape

variable {t' : RadixTree}

theorem trans {t'' : RadixTree} (h : Reshape ps t t') (h' : Reshape ps t' t'') :
    Reshape ps t t'' := by
  induction h' with
  | refl => exact h
  | cut _ hc ih => exact ih.cut hc
  | touch _ p tic ih => exact ih.touch p tic

theorem locked (h : Reshape ps t t') (hL : Locked ps t L) : Locked ps t' L := by
  induction h with
  | refl => exact hL
  | cut _ hc ih => exact ih.splitAt hc
  | touch _ p tic ih => exact ih.setData p fun _ => rfl

theorem wf (h : Reshape ps t t') (hw : WF ps t) : WF ps t' := by
  induction h with
  | refl => exact hw
  | cut _ hc ih => exact hc.wf ih _ _
  | touch _ p tic ih =>
      rw [RadixTree.touch_eq]
      exact wf_retag ih _

theorem boundary (h : Reshape ps t t') (hw : WF ps t) {r : NodeRef} (hr : Boundary t r) :
    Boundary t' r := by
  induction h with
  | refl => exact hr
  | cut h' hc ih => exact (hc.boundary (h'.wf hw) _ _).2 (.inl ih)
  | touch _ p tic ih =>
      rw [RadixTree.touch_eq]
      exact boundary_retag.2 ih

theorem reads (h : Reshape ps t t') (hw : WF ps t) {r : NodeRef} {row : Nat → Nat}
    (hr : Reads t r row) : Reads t' r row := by
  induction h with
  | refl => exact hr
  | cut h' hc ih => exact hc.reads (h'.wf hw) _ _ ih
  | touch _ p tic ih =>
      rw [RadixTree.touch_eq]
      exact reads_retag ih

theorem pathValues_eq (h : Reshape ps t t') (hw : WF ps t) {r : NodeRef} (hr : Boundary t r) :
    pathValues t' r = pathValues t r := by
  have hreads := hw.reads_pathValues hr
  rw [((h.wf hw).reads_iff (h.boundary hw hr) _).1 (h.reads hw hreads)]
  exact ((hw.reads_iff hr _).1 hreads).symm

theorem bases_perm (hps : 0 < ps) (h : Reshape ps t t') (hw : WF ps t) :
    (bases ps t').Perm (bases ps t) := by
  induction h with
  | refl => exact List.Perm.refl _
  | cut h' hc ih => exact (hc.bases_perm hps (h'.wf hw) _ _).trans ih
  | touch _ p tic ih =>
      rw [RadixTree.touch_eq, bases_retag]
      exact ih

theorem paged (hps : 0 < ps) (h : Reshape ps t t') (hp : Paged ps t) : Paged ps t' := by
  induction h with
  | refl => exact hp
  | cut _ hc ih => exact ih.splitAt hps hc
  | touch _ p tic ih =>
      rw [RadixTree.touch_eq]
      exact paged_retag ih

end Reshape

/-! ## Pinning a chain -/

theorem Locked.pin (h : Locked ps t L) {r : NodeRef} (hr : Boundary t r)
    {g : RadixTreeNode → NodeData}
    (hg : ∀ n ∈ t, (g n).refCount = n.data.refCount + if n.path <+: r then 1 else 0) :
    Locked ps (FreeToken.retag t g) (r :: L) := by
  refine h.retag ?_ fun n hn => ?_
  · intro l hl
    rcases List.mem_cons.1 hl with rfl | hl
    · exact hr
    · exact h.bound l hl
  · rw [hg n hn, pins_cons, h.refs n hn]

theorem Locked.unpin {r : NodeRef} (h : Locked ps t (r :: L)) {g : RadixTreeNode → NodeData}
    (hg : ∀ n ∈ t, (g n).refCount = n.data.refCount - if n.path <+: r then 1 else 0) :
    Locked ps (FreeToken.retag t g) L := by
  refine h.retag (fun l hl => h.bound l (List.mem_cons_of_mem _ hl)) fun n hn => ?_
  rw [hg n hn, h.refs n hn, pins_cons, Nat.add_sub_cancel]

/-- A fold of updates of distinct nodes updates each of them once. -/
theorem foldl_setData (h : WF ps t) (f : RadixTreeNode → NodeData → NodeData)
    {ns : List RadixTreeNode} (hmem : ∀ n ∈ ns, n ∈ t) (hnd : ns.Nodup) :
    ns.foldl (fun u n => u.setData n.path (f n)) t =
      retag t fun m => if m ∈ ns then f m m.data else m.data := by
  have hfold : ∀ (ns : List RadixTreeNode) (g : RadixTreeNode → NodeData), (∀ n ∈ ns, n ∈ t) →
      ns.Nodup → (∀ n ∈ ns, g n = n.data) →
      ns.foldl (fun u n => u.setData n.path (f n)) (retag t g) =
        retag t fun m => if m ∈ ns then f m m.data else g m := by
    intro ns
    induction ns with
    | nil => simp
    | cons n ns ih =>
        intro g hmem hnd hg
        rw [List.nodup_cons] at hnd
        have hn := hmem n List.mem_cons_self
        have hne : ∀ m ∈ t, m.path = n.path → m = n := fun m hm hp => h.eq_of_path hm hn hp
        rw [List.foldl_cons, RadixTree.setData_eq, retag_retag, ih _
          (fun m hm => hmem m (List.mem_cons_of_mem _ hm)) hnd.2]
        · refine retag_congr fun m hm => ?_
          by_cases hmn : m = n
          · subst hmn
            rw [if_neg hnd.1, if_pos List.mem_cons_self, ← hg m List.mem_cons_self]
            exact if_pos rfl
          · have hiff : m ∈ n :: ns ↔ m ∈ ns := by simp [hmn]
            have hother : onlyAt n.path (f n) { m with data := g m } = g m :=
              if_neg fun hp => hmn (hne m hm hp)
            rw [hother]
            exact if_congr hiff.symm rfl rfl
        · intro m hm
          have hmn : m ≠ n := fun he => hnd.1 (he ▸ hm)
          have hmt := hmem m (List.mem_cons_of_mem _ hm)
          exact (if_neg fun hp => hmn (hne m hmt hp)).trans (hg m (List.mem_cons_of_mem _ hm))
  have hid : retag t (fun n => n.data) = t := List.map_id t
  have hall := hfold ns (fun n => n.data) hmem hnd fun _ _ => rfl
  rwa [hid] at hall

/-- A fold of updates along the chain of a boundary updates the nodes above it. -/
theorem foldl_setData_chain (h : WF ps t) {r : NodeRef} (hr : Boundary t r)
    (f : RadixTreeNode → NodeData → NodeData) :
    (chain t r).foldl (fun u n => u.setData n.path (f n)) t =
      retag t fun n => if n.path <+: r then f n n.data else n.data := by
  rw [foldl_setData h f (fun n hn => ((h.mem_chain hr).1 hn).1) (h.chain_nodup hr)]
  refine retag_congr fun m hm => if_congr ?_ rfl rfl
  rw [h.mem_chain hr]
  exact ⟨fun hx => hx.2, fun hx => ⟨hm, hx⟩⟩

theorem setData_chain (h : WF ps t) {r : NodeRef} (hr : Boundary t r) (f : NodeData → NodeData) :
    (chain t r).foldl (fun u n => u.setData n.path f) t = retag t (above r f) :=
  foldl_setData_chain h hr fun _ => f

end FreeToken
