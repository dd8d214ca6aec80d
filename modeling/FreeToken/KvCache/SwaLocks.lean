import FreeToken.KvCache.Counters
import FreeToken.KvCache.SwaRadixCache

/-!
# Locks on the sliding-window tree

A lock pins the path of its node and, of that path, the trailing window of live tokens.  The window
is delimited only by the boundary id on a node; `Window` says what the id stands for, in a way that
splits of the path do not change.
-/

set_option autoImplicit false

namespace FreeToken

open BlockTrie Blocks

variable {ps w k : Nat} {t t' : RadixTree}

/-- An outstanding `inc_lock`: its node, the boundary id it returned, and the tokens of the node's
path whose window pin it raised. -/
structure SwaLock where
  node : NodeRef
  uuid : Option Nat
  tokens : List Nat
  deriving DecidableEq, Repr

namespace SwaLock

/-- The lock pins the window KV of `n`. -/
def Holds (l : SwaLock) (n : RadixTreeNode) : Prop := n.path <+: l.node ∧ n.pre.length ∈ l.tokens

instance (l : SwaLock) (n : RadixTreeNode) : Decidable (l.Holds n) :=
  inferInstanceAs (Decidable (_ ∧ _))

end SwaLock

/-- The number of locks that pin the window KV of `n`. -/
def windowPins (L : List SwaLock) (n : RadixTreeNode) : Nat :=
  L.countP fun l => decide (l.Holds n)

@[simp] theorem windowPins_nil (n : RadixTreeNode) : windowPins [] n = 0 := rfl

theorem windowPins_cons (l : SwaLock) (L : List SwaLock) (n : RadixTreeNode) :
    windowPins (l :: L) n = windowPins L n + if l.Holds n then 1 else 0 := by
  simp [windowPins, List.countP_cons]

theorem windowPins_perm {L M : List SwaLock} (h : L.Perm M) (n : RadixTreeNode) :
    windowPins L n = windowPins M n :=
  h.countP_eq _

theorem windowPins_pos {L : List SwaLock} {n : RadixTreeNode} :
    0 < windowPins L n ↔ ∃ l ∈ L, l.Holds n := by
  simp [windowPins, List.countP_pos_iff]

theorem windowPins_congr {L : List SwaLock} {n m : RadixTreeNode}
    (h : ∀ l ∈ L, l.Holds n ↔ l.Holds m) : windowPins L n = windowPins L m :=
  List.countP_congr fun l hl => by simp only [decide_eq_true_eq, h l hl]

/-- The window counts never pass the path counts. -/
theorem windowPins_le (L : List SwaLock) (n : RadixTreeNode) :
    windowPins L n ≤ pins (L.map SwaLock.node) n.path := by
  unfold windowPins pins
  rw [List.countP_map]
  exact List.countP_mono_left fun l _ hl => decide_eq_true (of_decide_eq_true hl).1

/-- The tokens of a lock are the live ones of its path from position `start` on, where its boundary
id stands if it has one. -/
structure Window (t : RadixTree) (l : SwaLock) (start : Nat) : Prop where
  nodup : l.tokens.Nodup
  lt : ∀ i ∈ l.tokens, i < l.node.length
  apart : ∀ n ∈ t, n.path <+: l.node → start ≤ n.pre.length ∨ n.path.length ≤ start
  mem : ∀ n ∈ t, n.path <+: l.node → ∀ i, n.pre.length ≤ i → i < n.path.length →
    (i ∈ l.tokens ↔ start ≤ n.pre.length ∧ n.data.swaTombstone = false)
  root : l.uuid = none → start = 0
  bound : ∀ u, l.uuid = some u → ∃ n ∈ t, n.path <+: l.node ∧ n.pre.length = start ∧
    n.data.swaTombstone = false ∧ n.data.swaUuid = some u

/-- The counts of the tree are the pins of the outstanding locks, each of which has its window. -/
structure SwaLocked (ps w : Nat) (t : RadixTree) (L : List SwaLock) (uuids : Nat) : Prop where
  locked : Locked ps t (L.map SwaLock.node)
  windows : ∀ l ∈ L, ∃ start, Window t l start ∧ (start = 0 ∨ w ≤ l.tokens.length)
  counts : ∀ n ∈ t, n.data.swaRefCount = windowPins L n
  uuid_le : ∀ n ∈ t, ∀ u, n.data.swaUuid = some u → u ≤ uuids
  uuid_inj : ∀ n ∈ t, ∀ m ∈ t, ∀ u, n.data.swaUuid = some u → m.data.swaUuid = some u → n = m

namespace Window

variable {l : SwaLock} {start : Nat}

theorem holds_iff (h : Window t l start) (hw : WF ps t) {n : RadixTreeNode} (hn : n ∈ t)
    (hp : n.path <+: l.node) : l.Holds n ↔ start ≤ n.pre.length ∧ n.data.swaTombstone = false := by
  have hlt := (hw.covers_path hn).lt
  exact (and_iff_right hp).trans (h.mem n hn hp _ le_rfl hlt)

theorem live (h : Window t l start) (hw : WF ps t) {n : RadixTreeNode} (hn : n ∈ t)
    (hl : l.Holds n) : n.data.swaTombstone = false :=
  ((h.holds_iff hw hn hl.1).1 hl).2

/-- The tree seen along the lock's path is all a window depends on. -/
theorem frame (h : Window t l start)
    (hon : ∀ m, m.path <+: l.node → (m ∈ t' ↔ m ∈ t)) : Window t' l start where
  nodup := h.nodup
  lt := h.lt
  apart := fun n hn hp => h.apart n ((hon n hp).1 hn) hp
  mem := fun n hn hp => h.mem n ((hon n hp).1 hn) hp
  root := h.root
  bound := fun u hu => by
    obtain ⟨n, hn, hp, hrest⟩ := h.bound u hu
    exact ⟨n, (hon n hp).2 hn, hp, hrest⟩

/-- Along the path only the tombstones, and the boundary id, count. -/
theorem retag (h : Window t l start) {g : RadixTreeNode → NodeData}
    (hdead : ∀ n ∈ t, n.path <+: l.node → start ≤ n.pre.length →
      (g n).swaTombstone = n.data.swaTombstone)
    (huuid : ∀ n ∈ t, ∀ u, n.data.swaUuid = some u → (g n).swaUuid = some u) :
    Window (retag t g) l start where
  nodup := h.nodup
  lt := h.lt
  apart := by
    intro m hm hp
    obtain ⟨n, hn, rfl⟩ := mem_retag.1 hm
    exact h.apart n hn hp
  mem := by
    intro m hm hp i hle hlt
    obtain ⟨n, hn, rfl⟩ := mem_retag.1 hm
    refine (h.mem n hn hp i hle hlt).trans ?_
    dsimp only
    refine and_congr_right fun hs => ?_
    rw [hdead n hn hp hs]
  root := h.root
  bound := fun u hu => by
    obtain ⟨n, hn, hp, hpre, hlive, hnu⟩ := h.bound u hu
    exact ⟨_, mem_retag.2 ⟨n, hn, rfl⟩, hp, hpre,
      (hdead n hn hp hpre.ge).trans hlive, huuid n hn u hnu⟩

/-- A split of the path keeps the window: the root-side half takes the boundary id. -/
theorem splitAt (h : Window t l start) (hw : WF ps t) (hl : Boundary t l.node)
    {n : RadixTreeNode} {pos : Nat} (hc : Cut ps t n pos) :
    Window (t.splitAt n.path pos) l start where
  nodup := h.nodup
  lt := h.lt
  apart := by
    intro m hm hp
    rcases mem_split.1 hm with ⟨hmt, -⟩ | ⟨x, hx, hxp, hmx⟩
    · exact h.apart m hmt hp
    · obtain rfl := hw.eq_of_path hx hc.mem hxp
      have hpx := (half_prefix_iff hw hc hmx hl).1 hp
      have hlt := hc.lt
      rcases Node.mem_halves.1 hmx with rfl | rfl <;>
        rcases h.apart x hx hpx with hs | hs <;>
        simp only [Node.path, List.length_append, List.length_take, List.length_drop] at * <;> omega
  mem := by
    intro m hm hp i hle hlt
    rcases mem_split.1 hm with ⟨hmt, -⟩ | ⟨x, hx, hxp, hmx⟩
    · exact h.mem m hmt hp i hle hlt
    · obtain rfl := hw.eq_of_path hx hc.mem hxp
      have hpx := (half_prefix_iff hw hc hmx hl).1 hp
      have hpos := hc.lt
      rcases Node.mem_halves.1 hmx with rfl | rfl
      · refine (h.mem x hx hpx i hle ?_)
        simp only [Node.path, List.length_append, List.length_take] at *
        omega
      · rw [h.mem x hx hpx i (by simp only [List.length_append, List.length_take] at hle; omega)
          (by rwa [Node.path_right] at hlt)]
        refine and_congr_left fun _ => ?_
        have hap := h.apart x hx hpx
        simp only [Node.path, List.length_append, List.length_take] at *
        omega
  root := h.root
  bound := fun u hu => by
    obtain ⟨x, hx, hp, hpre, hlive, hxu⟩ := h.bound u hu
    by_cases hxn : x.path = n.path
    · obtain rfl := hw.eq_of_path hx hc.mem hxn
      exact ⟨_, mem_split.2 (.inr ⟨x, hx, rfl, Node.mem_halves.2 (.inl rfl)⟩),
        (x.path_left pos _ _).trans hp, hpre, hlive, hxu⟩
    · exact ⟨x, mem_split.2 (.inl ⟨hx, hxn⟩), hp, hpre, hlive, hxu⟩

end Window

namespace SwaLocked

variable {L M : List SwaLock}

theorem nil (ps w : Nat) : SwaLocked ps w [] [] 0 :=
  ⟨Locked.nil ps, by simp, by simp, by simp, by simp⟩

theorem perm (h : SwaLocked ps w t L k) (hp : L.Perm M) : SwaLocked ps w t M k where
  locked := h.locked.perm (hp.map _)
  windows := fun l hl => h.windows l (hp.mem_iff.2 hl)
  counts := fun n hn => (h.counts n hn).trans (windowPins_perm hp n)
  uuid_le := h.uuid_le
  uuid_inj := h.uuid_inj

theorem bound (h : SwaLocked ps w t L k) {l : SwaLock} (hl : l ∈ L) : Boundary t l.node :=
  h.locked.bound _ (List.mem_map_of_mem hl)

/-- A tombstone is never pinned for its window. -/
theorem swaRefCount_eq_zero (h : SwaLocked ps w t L k) {n : RadixTreeNode} (hn : n ∈ t)
    (hdead : n.data.swaTombstone = true) : n.data.swaRefCount = 0 := by
  rw [h.counts n hn]
  by_contra hne
  obtain ⟨l, hl, hholds⟩ := windowPins_pos.1 (Nat.pos_of_ne_zero hne)
  obtain ⟨start, hwin, -⟩ := h.windows l hl
  rw [hwin.live h.locked.wf hn hholds] at hdead
  cases hdead

theorem swaRefCount_le (h : SwaLocked ps w t L k) {n : RadixTreeNode} (hn : n ∈ t) :
    n.data.swaRefCount ≤ n.data.refCount := by
  rw [h.counts n hn, h.locked.refs n hn]
  exact windowPins_le L n

/-- A lock that runs through a child runs through its parent. -/
theorem refCount_le (h : SwaLocked ps w t L k) {n p : RadixTreeNode} (hn : n ∈ t) (hp : p ∈ t)
    (hpre : p.path = n.pre) : n.data.refCount ≤ p.data.refCount := by
  rw [h.locked.refs n hn, h.locked.refs p hp]
  refine List.countP_mono_left fun l _ hl => decide_eq_true ?_
  exact (hpre ▸ n.pre_prefix).trans (of_decide_eq_true hl)

/-- An edit off every locked path. -/
theorem frame (h : SwaLocked ps w t L k) (hw : WF ps t')
    (hon : ∀ l ∈ L, ∀ m, m.path <+: l.node → (m ∈ t' ↔ m ∈ t))
    (hnew : ∀ m ∈ t', m ∉ t → m.data.refCount = 0 ∧ m.data.swaRefCount = 0)
    (huuid : ∀ m ∈ t', ∀ u, m.data.swaUuid = some u →
      ∃ n ∈ t, n.path = m.path ∧ n.data.swaUuid = some u) : SwaLocked ps w t' L k where
  locked := by
    refine ⟨hw, fun r hr => ?_, fun m hm => ?_⟩
    · obtain ⟨l, hl, rfl⟩ := List.mem_map.1 hr
      refine (h.bound hl).imp_right ?_
      rintro ⟨n, hn, hp⟩
      exact ⟨n, (hon l hl n (hp ▸ List.prefix_rfl)).2 hn, hp⟩
    · by_cases hmt : m ∈ t
      · exact h.locked.refs m hmt
      · rw [(hnew m hm hmt).1]
        refine (Nat.eq_zero_of_not_pos fun hpos => ?_).symm
        obtain ⟨r, hr, hp⟩ := pins_pos.1 hpos
        obtain ⟨l, hl, rfl⟩ := List.mem_map.1 hr
        exact hmt ((hon l hl m hp).1 hm)
  windows := fun l hl => by
    obtain ⟨start, hwin, hlong⟩ := h.windows l hl
    exact ⟨start, hwin.frame (hon l hl), hlong⟩
  counts := fun m hm => by
    by_cases hmt : m ∈ t
    · exact h.counts m hmt
    · rw [(hnew m hm hmt).2]
      refine (Nat.eq_zero_of_not_pos fun hpos => ?_).symm
      obtain ⟨l, hl, hholds⟩ := windowPins_pos.1 hpos
      exact hmt ((hon l hl m hholds.1).1 hm)
  uuid_le := fun m hm u hu => by
    obtain ⟨n, hn, -, hnu⟩ := huuid m hm u hu
    exact h.uuid_le n hn u hnu
  uuid_inj := fun m hm m' hm' u hu hu' => by
    obtain ⟨n, hn, hp, hnu⟩ := huuid m hm u hu
    obtain ⟨n', hn', hp', hnu'⟩ := huuid m' hm' u hu'
    have heq := h.uuid_inj n hn n' hn' u hnu hnu'
    exact hw.eq_of_path hm hm' (hp.symm.trans (heq ▸ hp'))

/-- Both halves of a split are held by the locks that held the whole. -/
theorem windowPins_half (h : SwaLocked ps w t L k) {n m : RadixTreeNode} {pos : Nat}
    (hc : Cut ps t n pos) (hm : m ∈ n.halves pos NodeData.splitPrefix NodeData.splitSuffix) :
    windowPins L m = windowPins L n := by
  have hmt : m ∈ t.splitAt n.path pos := mem_split.2 (.inr ⟨n, hc.mem, rfl, hm⟩)
  refine windowPins_congr fun l hl => ?_
  have hiff := half_prefix_iff h.locked.wf hc hm (h.bound hl)
  obtain ⟨start, hwin, -⟩ := h.windows l hl
  have hwin' := hwin.splitAt h.locked.wf (h.bound hl) hc
  have hwf' : WF ps (t.splitAt n.path pos) := hc.wf h.locked.wf _ _
  by_cases hp : n.path <+: l.node
  · have hap := hwin.apart n hc.mem hp
    have hlt := hc.lt
    rw [hwin.holds_iff h.locked.wf hc.mem hp, hwin'.holds_iff hwf' hmt (hiff.2 hp)]
    rcases Node.mem_halves.1 hm with rfl | rfl
    · exact Iff.rfl
    · refine and_congr_left fun _ => ?_
      simp only [Node.path, List.length_append, List.length_take] at *
      omega
  · exact ⟨fun hh => absurd (hiff.1 hh.1) hp, fun hh => absurd hh.1 hp⟩

theorem splitAt (h : SwaLocked ps w t L k) {n : RadixTreeNode} {pos : Nat} (hc : Cut ps t n pos) :
    SwaLocked ps w (t.splitAt n.path pos) L k := by
  -- a node with a boundary id stands for the node it comes from
  have hfrom : ∀ m ∈ t.splitAt n.path pos, ∀ u, m.data.swaUuid = some u →
      ∃ x ∈ t, x.data.swaUuid = some u ∧ (m = x ∧ x.path ≠ n.path ∨ x = n ∧
        m = Node.mk n.pre (n.key.take pos) (n.value.take pos) n.data.splitPrefix) := by
    intro m hm u hu
    rcases mem_split.1 hm with ⟨hmt, hne⟩ | ⟨x, hx, hxp, hmx⟩
    · exact ⟨m, hmt, hu, .inl ⟨rfl, hne⟩⟩
    · obtain rfl := h.locked.wf.eq_of_path hx hc.mem hxp
      rcases Node.mem_halves.1 hmx with rfl | rfl
      · exact ⟨x, hx, hu, .inr ⟨rfl, rfl⟩⟩
      · cases hu
  refine ⟨?_, fun l hl => ?_, fun m hm => ?_, fun m hm u hu => ?_, fun m hm m' hm' u hu hu' => ?_⟩
  · exact h.locked.splitAt hc
  · obtain ⟨start, hwin, hlong⟩ := h.windows l hl
    exact ⟨start, hwin.splitAt h.locked.wf (h.bound hl) hc, hlong⟩
  · rcases mem_split.1 hm with ⟨hmt, -⟩ | ⟨x, hx, hxp, hmx⟩
    · exact h.counts m hmt
    · obtain rfl := h.locked.wf.eq_of_path hx hc.mem hxp
      rw [h.windowPins_half hc hmx, ← h.counts x hx]
      rcases Node.mem_halves.1 hmx with rfl | rfl <;> rfl
  · obtain ⟨x, hx, hxu, -⟩ := hfrom m hm u hu
    exact h.uuid_le x hx u hxu
  · obtain ⟨x, hx, hxu, hmx⟩ := hfrom m hm u hu
    obtain ⟨y, hy, hyu, hmy⟩ := hfrom m' hm' u hu'
    obtain rfl := h.uuid_inj x hx y hy u hxu hyu
    rcases hmx with ⟨rfl, hne⟩ | ⟨rfl, rfl⟩
    · rcases hmy with ⟨rfl, -⟩ | ⟨heq, -⟩
      · rfl
      · exact absurd (congrArg Node.path heq) hne
    · rcases hmy with ⟨-, hne⟩ | ⟨-, rfl⟩
      · exact absurd rfl hne
      · rfl

/-- A change of the data that no lock sees. -/
theorem retag (h : SwaLocked ps w t L k) {g : RadixTreeNode → NodeData}
    (hg : ∀ n ∈ t, (g n).refCount = n.data.refCount ∧ (g n).swaRefCount = n.data.swaRefCount ∧
      (g n).swaUuid = n.data.swaUuid)
    (hdead : ∀ n ∈ t, (g n).swaTombstone = n.data.swaTombstone ∨
      n.data.swaTombstone = false ∧ n.data.swaRefCount = 0) :
    SwaLocked ps w (FreeToken.retag t g) L k where
  locked := h.locked.retag h.locked.bound fun n hn => (hg n hn).1.trans (h.locked.refs n hn)
  windows := fun l hl => by
    obtain ⟨start, hwin, hlong⟩ := h.windows l hl
    refine ⟨start, hwin.retag (fun n hn hp hs => ?_) (fun n hn u hu => ?_), hlong⟩
    · rcases hdead n hn with heq | ⟨hlive, hzero⟩
      · exact heq
      · -- a live node from `start` on is pinned
        have hholds := (hwin.holds_iff h.locked.wf hn hp).2 ⟨hs, hlive⟩
        have hpos := windowPins_pos.2 ⟨l, hl, hholds⟩
        rw [← h.counts n hn, hzero] at hpos
        exact absurd hpos (Nat.lt_irrefl 0)
    · rw [(hg n hn).2.2, hu]
  counts := fun m hm => by
    obtain ⟨n, hn, rfl⟩ := mem_retag.1 hm
    exact (hg n hn).2.1.trans (h.counts n hn)
  uuid_le := fun m hm u hu => by
    obtain ⟨n, hn, rfl⟩ := mem_retag.1 hm
    exact h.uuid_le n hn u ((hg n hn).2.2.symm.trans hu)
  uuid_inj := fun m hm m' hm' u hu hu' => by
    obtain ⟨n, hn, rfl⟩ := mem_retag.1 hm
    obtain ⟨n', hn', rfl⟩ := mem_retag.1 hm'
    rw [h.uuid_inj n hn n' hn' u ((hg n hn).2.2.symm.trans hu) ((hg n' hn').2.2.symm.trans hu')]

theorem reshape (h : SwaLocked ps w t L k) (hr : Reshape ps t t') : SwaLocked ps w t' L k := by
  induction hr with
  | refl => exact h
  | cut _ hc ih => exact ih.splitAt hc
  | touch _ p tic ih =>
      rw [RadixTree.touch_eq]
      refine ih.retag (fun n _ => ?_) (fun n _ => ?_) <;> unfold onlyAt <;> split <;> simp

theorem graft (h : SwaLocked ps w t L k) {n : RadixTreeNode} (hp : Boundary t n.pre)
    (hk : n.key ≠ []) (hd : ps ∣ n.key.length) (hv : n.value.length = n.key.length)
    (hnew : ∀ m ∈ t, m.pre = n.pre → m.key.take ps ≠ n.key.take ps)
    (href : n.data.refCount = 0) (hswa : n.data.swaRefCount = 0) (hu : n.data.swaUuid = none) :
    SwaLocked ps w (BlockTrie.graft t n) L k := by
  refine h.frame (h.locked.wf.graft hp hk hd hv hnew) (fun l hl m hm => ?_) (fun m hm hmt => ?_)
    (fun m hm u hmu => ?_)
  · refine ⟨fun hmem => ?_, fun hmem => List.mem_append_left _ hmem⟩
    rcases List.mem_append.1 hmem with hmem | hmem
    · exact hmem
    · have hpin := h.locked.pins_new hp hk hd hnew
      rw [List.mem_singleton.1 hmem] at hm
      have := pins_pos.2 ⟨l.node, List.mem_map_of_mem hl, hm⟩
      omega
  · rcases List.mem_append.1 hm with hm | hm
    · exact absurd hm hmt
    · rw [List.mem_singleton.1 hm]
      exact ⟨href, hswa⟩
  · rcases List.mem_append.1 hm with hm | hm
    · exact ⟨m, hm, rfl, hmu⟩
    · rw [List.mem_singleton.1 hm, hu] at hmu
      cases hmu

theorem prune (h : SwaLocked ps w t L k) {n : RadixTreeNode} (hn : n ∈ t)
    (hl : isLeaf t n.path = true) (href : n.data.refCount = 0) :
    SwaLocked ps w (BlockTrie.prune t n.path) L k := by
  refine h.frame (h.locked.wf.prune hl) (fun l hlL m hm => ?_)
    (fun m hm hmt => absurd (mem_prune.1 hm).1 hmt)
    (fun m hm u hu => ⟨m, (mem_prune.1 hm).1, rfl, hu⟩)
  refine ⟨fun hmem => (mem_prune.1 hmem).1, fun hmem => mem_prune.2 ⟨hmem, fun hp => ?_⟩⟩
  exact h.locked.not_prefix hn href (List.mem_map_of_mem hlL) (hp ▸ hm)

/-- A node off every locked path may change its values and its tombstone. -/
theorem modify (h : SwaLocked ps w t L k) {n : RadixTreeNode} (hn : n ∈ t)
    (href : n.data.refCount = 0) {f : RadixTreeNode → RadixTreeNode} (hw : WF ps (modify t n.path f))
    (hpath : (f n).path = n.path) (hdata : (f n).data.refCount = n.data.refCount ∧
      (f n).data.swaRefCount = n.data.swaRefCount ∧ (f n).data.swaUuid = n.data.swaUuid) :
    SwaLocked ps w (BlockTrie.modify t n.path f) L k := by
  have hmem : ∀ m, m ∈ BlockTrie.modify t n.path f ↔ m = f n ∨ m ∈ t ∧ m.path ≠ n.path := by
    intro m
    rw [(h.locked.wf.modify_perm hn f).mem_iff, List.mem_cons, mem_prune]
  refine h.frame hw (fun l hl m hm => ?_) (fun m hm hmt => ?_) (fun m hm u hu => ?_)
  · have hoff := h.locked.not_prefix hn href (List.mem_map_of_mem hl)
    have hne : m.path ≠ n.path := fun hp => hoff (hp ▸ hm)
    rw [hmem]
    constructor
    · rintro (rfl | hm)
      · exact absurd hpath hne
      · exact hm.1
    · exact fun hmt => .inr ⟨hmt, hne⟩
  · rcases (hmem m).1 hm with rfl | hm
    · rw [hdata.1, hdata.2.1]
      have := h.swaRefCount_le hn
      exact ⟨href, by omega⟩
    · exact absurd hm.1 hmt
  · rcases (hmem m).1 hm with rfl | hm
    · exact ⟨n, hn, hpath.symm, hdata.2.2.symm.trans hu⟩
    · exact ⟨m, hm.1, rfl, hu⟩

end SwaLocked

end FreeToken
