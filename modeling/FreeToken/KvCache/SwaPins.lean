import FreeToken.KvCache.SwaSpec

/-!
# Locking and unlocking a sliding-window path

`inc_lock` walks up from its node, pins every node, and pins the window of the live ones until the
window is covered; the node where that happens gets the boundary id.  `dec_lock` walks the same
path and takes back exactly those pins, whatever was split in between.
-/

set_option autoImplicit false

namespace FreeToken

open BlockTrie Blocks

variable {ps w : Nat} {t t' : RadixTree} {L : List SwaLock} {c d : PrefixCache}

/-! ## Counters -/

theorem WindowsTallied.set (h : WindowsTallied c) (hw : WF ps c.nodes) {n : RadixTreeNode}
    (hn : n ∈ c.nodes) (g : NodeData → NodeData)
    (hd : d.nodes = c.nodes.setData n.path g)
    (he : d.swaEvictable = c.swaEvictable - freeWindow n + freeWindow { n with data := g n.data })
    (hl : d.swaProtected =
      c.swaProtected - lockedWindow n + lockedWindow { n with data := g n.data }) :
    WindowsTallied d := by
  constructor
  · rw [he, hd, tally_setData hw hn, h.evictable]
  · rw [hl, hd, tally_setData hw hn, h.locked]

/-- A change that no window counter sees. -/
theorem WindowsTallied.setData (h : WindowsTallied c) {p : NodeRef} {g : NodeData → NodeData}
    (hg : ∀ d, (g d).swaTombstone = d.swaTombstone ∧ (g d).swaRefCount = d.swaRefCount)
    (hd : d.nodes = c.nodes.setData p g) (he : d.swaEvictable = c.swaEvictable)
    (hl : d.swaProtected = c.swaProtected) : WindowsTallied d := by
  constructor
  · rw [he, hd, h.evictable]
    refine (tally_setData_same fun n _ _ => ?_).symm
    simp only [freeWindow, hg, Node.length]
  · rw [hl, hd, h.locked]
    refine (tally_setData_same fun n _ _ => ?_).symm
    simp only [lockedWindow, hg, Node.length]

theorem setData_setData (t : RadixTree) (p : NodeRef) (f g : NodeData → NodeData) :
    (t.setData p f).setData p g = t.setData p (g ∘ f) := by
  rw [RadixTree.setData_eq, RadixTree.setData_eq, RadixTree.setData_eq, retag_retag]
  refine retag_congr fun n _ => ?_
  by_cases hp : n.path = p
  · have hf : onlyAt p f n = f n.data := if_pos hp
    have hg : onlyAt p g { n with data := onlyAt p f n } = g (onlyAt p f n) := if_pos hp
    rw [hg, hf]
    exact (if_pos hp).symm
  · have hf : onlyAt p f n = n.data := if_neg hp
    have hg : onlyAt p g { n with data := onlyAt p f n } = onlyAt p f n := if_neg hp
    rw [hg, hf]
    exact (if_neg hp).symm

/-! ## One node of a walk -/

/-- The cache `d` is `c` with the data of one node changed and the counters moved along. -/
structure Moved (c d : PrefixCache) (n : RadixTreeNode) (f : NodeData → NodeData) : Prop where
  nodes : d.nodes = c.nodes.setData n.path f
  pageSize : d.pageSize = c.pageSize
  window : d.slidingWindowSize = c.slidingWindowSize
  tokens : TokensTallied c → TokensTallied d
  windows : WindowsTallied c → WindowsTallied d

theorem mem_setData {n : RadixTreeNode} (hn : n ∈ t) (f : NodeData → NodeData) :
    { n with data := f n.data } ∈ t.setData n.path f :=
  List.mem_map.2 ⟨n, hn, if_pos rfl⟩

theorem Moved.pin (hw : WF ps c.nodes) {n : RadixTreeNode} (hn : n ∈ c.nodes) :
    Moved c (c.pin n) n fun d => { d with refCount := d.refCount + 1 } := by
  refine ⟨pin_nodes c n, ?_, ?_, fun h => h.pin hw hn, fun h => ?_⟩
  · unfold PrefixCache.pin
    split <;> rfl
  · unfold PrefixCache.pin
    split <;> rfl
  · refine h.setData (g := fun d => { d with refCount := d.refCount + 1 }) (fun _ => ⟨rfl, rfl⟩)
      (pin_nodes c n) ?_ ?_ <;> unfold PrefixCache.pin <;> dsimp only <;> split <;> rfl

theorem Moved.unpin (hw : WF ps c.nodes) {n : RadixTreeNode} (hn : n ∈ c.nodes)
    (hpos : 0 < n.data.refCount) :
    ∃ d, c.unpin n = .ok d ∧ d.uuid = c.uuid ∧
      Moved c d n fun d => { d with refCount := d.refCount - 1 } := by
  have hassert : pyAssert (decide (0 < n.data.refCount)) "ref_count >= 0" = .ok () := by
    rw [pyAssert_eq_ok, decide_eq_true_eq]
    exact hpos
  have hrun : ∃ d, c.unpin n = .ok d ∧ d.uuid = c.uuid ∧ d.pageSize = c.pageSize ∧
      d.slidingWindowSize = c.slidingWindowSize ∧ d.swaEvictable = c.swaEvictable ∧
      d.swaProtected = c.swaProtected := by
    unfold PrefixCache.unpin
    rw [hassert]
    refine ⟨_, rfl, ?_⟩
    split <;> exact ⟨rfl, rfl, rfl, rfl, rfl⟩
  obtain ⟨d, hd, huuid, hpage, hwin, he, hl⟩ := hrun
  have hnodes := (unpin_nodes hd).1
  exact ⟨d, hd, huuid, hnodes, hpage, hwin, fun h => h.unpin hw hn hd,
    fun h => h.setData (g := fun d => { d with refCount := d.refCount - 1 })
      (fun _ => ⟨rfl, rfl⟩) hnodes he hl⟩

theorem Moved.trans {e : PrefixCache} {n m : RadixTreeNode} {f g : NodeData → NodeData}
    (h : Moved c d n f) (h' : Moved d e m g) (hp : m.path = n.path) : Moved c e n (g ∘ f) where
  nodes := by rw [h'.nodes, h.nodes, hp, setData_setData]
  pageSize := h'.pageSize.trans h.pageSize
  window := h'.window.trans h.window
  tokens := fun ht => h'.tokens (h.tokens ht)
  windows := fun ht => h'.windows (h.windows ht)

/-- Only what the change does to the node's own data counts. -/
theorem Moved.congr {n : RadixTreeNode} {f g : NodeData → NodeData} (h : Moved c d n f)
    (hw : WF ps c.nodes) (hn : n ∈ c.nodes) (hfg : f n.data = g n.data) : Moved c d n g where
  nodes := by
    rw [h.nodes, RadixTree.setData_eq, RadixTree.setData_eq]
    refine retag_congr fun m hm => ?_
    unfold onlyAt
    split
    · rename_i hp
      rw [hw.eq_of_path hm hn hp, hfg]
    · rfl
  pageSize := h.pageSize
  window := h.window
  tokens := h.tokens
  windows := h.windows

/-- The window pin of one live node. -/
theorem Moved.hold (hw : WF ps c.nodes) {n : RadixTreeNode} (hn : n ∈ c.nodes)
    (hlive : n.data.swaTombstone = false) {e l : Int}
    (he : e = if n.data.swaRefCount = 0 then c.swaEvictable - n.length else c.swaEvictable)
    (hl : l = if n.data.swaRefCount = 0 then c.swaProtected + n.length else c.swaProtected) :
    Moved c { c with
        swaEvictable := e
        swaProtected := l
        nodes := c.nodes.setData n.path fun d => { d with swaRefCount := d.swaRefCount + 1 } }
      n fun d => { d with swaRefCount := d.swaRefCount + 1 } := by
  refine ⟨rfl, rfl, rfl, fun h => ?_, fun h => ?_⟩
  · exact h.setData (g := fun d => { d with swaRefCount := d.swaRefCount + 1 }) (fun _ => rfl)
      rfl rfl rfl
  · refine h.set hw hn (fun d => { d with swaRefCount := d.swaRefCount + 1 }) rfl ?_ ?_
    · dsimp only
      rw [he]
      by_cases hz : n.data.swaRefCount = 0 <;> simp [freeWindow, hlive, hz]
    · dsimp only
      rw [hl]
      by_cases hz : n.data.swaRefCount = 0 <;> simp [lockedWindow, hlive, hz]

theorem Moved.release (hw : WF ps c.nodes) {n : RadixTreeNode} (hn : n ∈ c.nodes)
    (hlive : n.data.swaTombstone = false) (hpos : 0 < n.data.swaRefCount) {e l : Int}
    (he : e = if n.data.swaRefCount = 1 then c.swaEvictable + n.length else c.swaEvictable)
    (hl : l = if n.data.swaRefCount = 1 then c.swaProtected - n.length else c.swaProtected) :
    Moved c { c with
        swaEvictable := e
        swaProtected := l
        nodes := c.nodes.setData n.path fun d => { d with swaRefCount := d.swaRefCount - 1 } }
      n fun d => { d with swaRefCount := d.swaRefCount - 1 } := by
  refine ⟨rfl, rfl, rfl, fun h => ?_, fun h => ?_⟩
  · exact h.setData (g := fun d => { d with swaRefCount := d.swaRefCount - 1 }) (fun _ => rfl)
      rfl rfl rfl
  · have hz : n.data.swaRefCount ≠ 0 := by omega
    refine h.set hw hn (fun d => { d with swaRefCount := d.swaRefCount - 1 }) rfl ?_ ?_
    · dsimp only
      rw [he]
      by_cases hone : n.data.swaRefCount = 1
      · simp [freeWindow, hlive, hone]
      · have : n.data.swaRefCount - 1 ≠ 0 := by omega
        simp [freeWindow, hlive, hone, hz, this]
    · dsimp only
      rw [hl]
      by_cases hone : n.data.swaRefCount = 1
      · simp [lockedWindow, hlive, hone]
      · have : n.data.swaRefCount - 1 ≠ 0 := by omega
        simp [lockedWindow, hlive, hone, hz, this]

/-! ## The walk of a lock -/

/-- The data of a pinned node, whose window is pinned too if it is held. -/
def pinData (held : Bool) (d : NodeData) : NodeData :=
  { d with refCount := d.refCount + 1, swaRefCount := d.swaRefCount + if held then 1 else 0 }

/-- The node where the window is covered keeps its boundary id or gets a new one. -/
def stampData (uuid : Nat) (d : NodeData) : NodeData :=
  { d with swaUuid := some (d.swaUuid.getD uuid) }

namespace SwaRadixCache

theorem pin_uuid (c : PrefixCache) (n : RadixTreeNode) : (c.pin n).uuid = c.uuid := by
  unfold PrefixCache.pin
  split <;> rfl

/-- A node of the walk whose window is pinned as well. -/
def holdNode (c : PrefixCache) (n : RadixTreeNode) : PrefixCache :=
  let c := c.pin n
  let c := if n.data.swaRefCount = 0 then
      { c with
        swaEvictable := c.swaEvictable - n.length
        swaProtected := c.swaProtected + n.length }
    else c
  { c with nodes := c.nodes.setData n.path fun d => { d with swaRefCount := d.swaRefCount + 1 } }

theorem incLockStep_eq (c : PrefixCache) (k : Nat) (u : Option Nat) (n : RadixTreeNode) :
    incLockStep (c, k, u) n =
      if k < (c.pin n).slidingWindowSize && !n.data.swaTombstone then
        if (holdNode c n).slidingWindowSize ≤ k + n.length then
          match n.data.swaUuid with
          | some v => (holdNode c n, k + n.length, some v)
          | none =>
              ({ holdNode c n with
                  uuid := (holdNode c n).uuid + 1
                  nodes := (holdNode c n).nodes.setData n.path fun d =>
                    { d with swaUuid := some ((holdNode c n).uuid + 1) } },
                k + n.length, some ((holdNode c n).uuid + 1))
        else (holdNode c n, k + n.length, u)
      else (c.pin n, k, u) := rfl

theorem holdNode_spec (hw : WF ps c.nodes) {n : RadixTreeNode} (hn : n ∈ c.nodes)
    (hlive : n.data.swaTombstone = false) :
    Moved c (holdNode c n) n (pinData true) ∧ (holdNode c n).uuid = c.uuid := by
  have hpin := Moved.pin hw hn
  have hn' := mem_setData hn fun d => { d with refCount := d.refCount + 1 }
  rw [← hpin.nodes] at hn'
  have hw' : WF ps (c.pin n).nodes := by
    rw [hpin.nodes]
    exact wf_setData hw _ _
  unfold holdNode
  dsimp only
  by_cases hz : n.data.swaRefCount = 0
  · rw [if_pos hz]
    exact ⟨hpin.trans (.hold hw' hn' hlive (if_pos hz).symm (if_pos hz).symm) rfl, pin_uuid c n⟩
  · rw [if_neg hz]
    exact ⟨hpin.trans (.hold hw' hn' hlive (if_neg hz).symm (if_neg hz).symm) rfl, pin_uuid c n⟩

theorem incLockStep_past (hw : WF ps c.nodes) {n : RadixTreeNode} (hn : n ∈ c.nodes) {k : Nat}
    {u : Option Nat} (h : c.slidingWindowSize ≤ k ∨ n.data.swaTombstone = true) :
    incLockStep (c, k, u) n = (c.pin n, k, u) ∧ Moved c (c.pin n) n (pinData false) := by
  have hpin := Moved.pin hw hn
  refine ⟨?_, hpin⟩
  rw [incLockStep_eq, if_neg]
  rw [hpin.window]
  rcases h with h | h
  · simp [Nat.not_lt.2 h]
  · simp [h]

theorem incLockStep_below (hw : WF ps c.nodes) {n : RadixTreeNode} (hn : n ∈ c.nodes)
    (hlive : n.data.swaTombstone = false) {k : Nat} {u : Option Nat}
    (hlt : k + n.length < c.slidingWindowSize) :
    incLockStep (c, k, u) n = (holdNode c n, k + n.length, u) := by
  have hk : k < (c.pin n).slidingWindowSize := by
    rw [(Moved.pin hw hn).window]
    omega
  have hcover : ¬ (holdNode c n).slidingWindowSize ≤ k + n.length := by
    rw [(holdNode_spec hw hn hlive).1.window]
    omega
  rw [incLockStep_eq, if_pos (by simp [hk, hlive]), if_neg hcover]

/-- The node that covers the window is pinned and stamped. -/
theorem incLockStep_cover (hw : WF ps c.nodes) {n : RadixTreeNode} (hn : n ∈ c.nodes)
    (hlive : n.data.swaTombstone = false) {k : Nat} {u : Option Nat}
    (hlt : k < c.slidingWindowSize) (hge : c.slidingWindowSize ≤ k + n.length) :
    ∃ d, incLockStep (c, k, u) n =
        (d, k + n.length, some (n.data.swaUuid.getD (c.uuid + 1))) ∧
      d.uuid = (if n.data.swaUuid.isSome then c.uuid else c.uuid + 1) ∧
      Moved c d n (stampData (c.uuid + 1) ∘ pinData true) := by
  have hk : k < (c.pin n).slidingWindowSize := by
    rw [(Moved.pin hw hn).window]
    exact hlt
  obtain ⟨hmoved, huuid⟩ := holdNode_spec hw hn hlive
  have hcover : (holdNode c n).slidingWindowSize ≤ k + n.length := by
    rw [hmoved.window]
    exact hge
  rw [incLockStep_eq, if_pos (by simp [hk, hlive]), if_pos hcover]
  cases hu : n.data.swaUuid with
  | some v =>
      exact ⟨holdNode c n, rfl, huuid, hmoved.congr hw hn (by simp [stampData, pinData, hu])⟩
  | none =>
      have hstamp : Moved (holdNode c n)
          { holdNode c n with
            uuid := (holdNode c n).uuid + 1
            nodes := (holdNode c n).nodes.setData n.path fun d =>
              { d with swaUuid := some ((holdNode c n).uuid + 1) } }
          n fun d => { d with swaUuid := some ((holdNode c n).uuid + 1) } :=
        ⟨rfl, rfl, rfl,
          fun h => h.setData (g := fun d => { d with swaUuid := some ((holdNode c n).uuid + 1) })
            (fun _ => rfl) rfl rfl rfl,
          fun h => h.setData (g := fun d => { d with swaUuid := some ((holdNode c n).uuid + 1) })
            (fun _ => ⟨rfl, rfl⟩) rfl rfl rfl⟩
      refine ⟨_, by rw [← huuid]; rfl, by rw [← huuid]; rfl, ?_⟩
      refine (hmoved.trans hstamp rfl).congr hw hn ?_
      simp [stampData, pinData, hu, huuid]

end SwaRadixCache

/-- The cache `d` is `c` with the data of the distinct nodes `ns` changed and the counters moved
along. -/
structure Walk (c d : PrefixCache) (ns : List RadixTreeNode)
    (f : RadixTreeNode → NodeData → NodeData) : Prop where
  nodes : d.nodes = ns.foldl (fun u n => u.setData n.path (f n)) c.nodes
  pageSize : d.pageSize = c.pageSize
  window : d.slidingWindowSize = c.slidingWindowSize
  tokens : TokensTallied c → TokensTallied d
  windows : WindowsTallied c → WindowsTallied d

namespace Walk

variable {e : PrefixCache} {ns ms : List RadixTreeNode} {f g : RadixTreeNode → NodeData → NodeData}

theorem nil (c : PrefixCache) (f : RadixTreeNode → NodeData → NodeData) : Walk c c [] f :=
  ⟨rfl, rfl, rfl, id, id⟩

theorem cons {n : RadixTreeNode} (h : Moved c d n (f n)) (h' : Walk d e ns f) :
    Walk c e (n :: ns) f where
  nodes := by rw [h'.nodes, List.foldl_cons, h.nodes]
  pageSize := h'.pageSize.trans h.pageSize
  window := h'.window.trans h.window
  tokens := fun ht => h'.tokens (h.tokens ht)
  windows := fun ht => h'.windows (h.windows ht)

theorem append (h : Walk c d ns f) (h' : Walk d e ms f) : Walk c e (ns ++ ms) f where
  nodes := by rw [h'.nodes, h.nodes, List.foldl_append]
  pageSize := h'.pageSize.trans h.pageSize
  window := h'.window.trans h.window
  tokens := fun ht => h'.tokens (h.tokens ht)
  windows := fun ht => h'.windows (h.windows ht)

theorem congr (h : Walk c d ns f) (hfg : ∀ n ∈ ns, f n = g n) : Walk c d ns g where
  nodes := by
    rw [h.nodes]
    exact List.foldl_ext _ _ _ fun u n hn => by rw [hfg n hn]
  pageSize := h.pageSize
  window := h.window
  tokens := h.tokens
  windows := h.windows

end Walk

/-- What a walk needs of the nodes still ahead of it. -/
structure Ahead (ps : Nat) (t : RadixTree) (ns : List RadixTreeNode) : Prop where
  wf : WF ps t
  mem : ∀ n ∈ ns, n ∈ t
  nodup : ns.Nodup

namespace Ahead

variable {n : RadixTreeNode} {ns ms : List RadixTreeNode}

theorem head (h : Ahead ps t (n :: ns)) : n ∈ t := h.mem n List.mem_cons_self

theorem setData (h : Ahead ps t (n :: ns)) (f : NodeData → NodeData) :
    Ahead ps (t.setData n.path f) ns where
  wf := wf_setData h.wf _ _
  mem := fun m hm => by
    have hmt := h.mem m (List.mem_cons_of_mem _ hm)
    refine mem_setData_of_ne hmt fun hp => (List.nodup_cons.1 h.nodup).1 ?_
    exact h.wf.eq_of_path hmt h.head hp ▸ hm
  nodup := (List.nodup_cons.1 h.nodup).2

theorem left (h : Ahead ps t (ns ++ ms)) : Ahead ps t ns :=
  ⟨h.wf, fun n hn => h.mem n (List.mem_append_left _ hn), (List.nodup_append'.1 h.nodup).1⟩

theorem fold (h : Ahead ps t (ns ++ ms)) (f : RadixTreeNode → NodeData → NodeData) :
    Ahead ps (ns.foldl (fun u n => u.setData n.path (f n)) t) ms := by
  induction ns generalizing t with
  | nil => exact h
  | cons n ns ih =>
      rw [List.foldl_cons]
      exact ih (Ahead.setData h (f n))

theorem chain (hw : WF ps t) {r : NodeRef} (hr : Boundary t r) : Ahead ps t (chain t r) :=
  ⟨hw, fun _ hn => ((hw.mem_chain hr).1 hn).1, hw.chain_nodup hr⟩

end Ahead

/-- The live tokens of some nodes. -/
def liveLength (ns : List RadixTreeNode) : Nat :=
  (ns.map fun n => if n.data.swaTombstone then 0 else n.length).sum

/-- Either the live nodes do not cover the window, or some node is the first to cover it. -/
theorem exists_cover (w : Nat) : ∀ (ns : List RadixTreeNode) (k : Nat), k < w →
    k + liveLength ns < w ∨ ∃ before b after, ns = before ++ b :: after ∧
      b.data.swaTombstone = false ∧ k + liveLength before < w ∧
      w ≤ k + liveLength before + b.length := by
  intro ns
  induction ns with
  | nil => exact fun k hk => .inl hk
  | cons n ns ih =>
      intro k hk
      cases hdead : n.data.swaTombstone with
      | true =>
          have hlen : liveLength (n :: ns) = liveLength ns := by simp [liveLength, hdead]
          rcases ih k hk with h | ⟨before, b, after, rfl, hb, hlt, hge⟩
          · exact .inl (by omega)
          · have hlen' : liveLength (n :: before) = liveLength before := by
              simp [liveLength, hdead]
            exact .inr ⟨n :: before, b, after, rfl, hb, by omega, by omega⟩
      | false =>
          have hcons : ∀ ms, liveLength (n :: ms) = n.length + liveLength ms := by
            intro ms
            simp [liveLength, hdead]
          by_cases hcov : w ≤ k + n.length
          · exact .inr ⟨[], n, ns, rfl, hdead, by simpa [liveLength] using hk,
              by simpa [liveLength] using hcov⟩
          · rcases ih (k + n.length) (by omega) with h | ⟨before, b, after, rfl, hb, hlt, hge⟩
            · exact .inl (by rw [hcons]; omega)
            · exact .inr ⟨n :: before, b, after, rfl, hb, by rw [hcons]; omega,
                by rw [hcons]; omega⟩

namespace SwaRadixCache

/-- The window is covered: the rest of the path is only pinned. -/
theorem foldl_incLock_past : ∀ (ns : List RadixTreeNode) (c : PrefixCache) (k : Nat)
    (u : Option Nat), Ahead ps c.nodes ns → c.slidingWindowSize ≤ k →
    ∃ d, ns.foldl incLockStep (c, k, u) = (d, k, u) ∧ d.uuid = c.uuid ∧
      Walk c d ns fun _ => pinData false := by
  intro ns
  induction ns with
  | nil => exact fun c k u _ _ => ⟨c, rfl, rfl, .nil c _⟩
  | cons n ns ih =>
      intro c k u h hk
      obtain ⟨hstep, hmoved⟩ := incLockStep_past (u := u) h.wf h.head (.inl hk)
      obtain ⟨d, hrun, huuid, hwalk⟩ := ih (c.pin n) k u
        (hmoved.nodes ▸ h.setData _) (by rw [hmoved.window]; exact hk)
      rw [List.foldl_cons, hstep]
      exact ⟨d, hrun, huuid.trans (pin_uuid c n), .cons hmoved hwalk⟩

/-- The window is not covered yet: the live nodes are pinned for it. -/
theorem foldl_incLock_below : ∀ (ns : List RadixTreeNode) (c : PrefixCache) (k : Nat)
    (u : Option Nat), Ahead ps c.nodes ns → k + liveLength ns < c.slidingWindowSize →
    ∃ d, ns.foldl incLockStep (c, k, u) = (d, k + liveLength ns, u) ∧ d.uuid = c.uuid ∧
      Walk c d ns fun n => pinData !n.data.swaTombstone := by
  intro ns
  induction ns with
  | nil => exact fun c k u _ _ => ⟨c, rfl, rfl, .nil c _⟩
  | cons n ns ih =>
      intro c k u h hk
      rw [List.foldl_cons]
      cases hdead : n.data.swaTombstone with
      | true =>
          have hlen : liveLength (n :: ns) = liveLength ns := by simp [liveLength, hdead]
          rw [hlen] at hk ⊢
          obtain ⟨hstep, hmoved⟩ := incLockStep_past (u := u) (k := k) h.wf h.head (.inr hdead)
          obtain ⟨d, hrun, huuid, hwalk⟩ := ih (c.pin n) k u
            (hmoved.nodes ▸ h.setData _) (by rw [hmoved.window]; exact hk)
          rw [hstep]
          refine ⟨d, hrun, huuid.trans (pin_uuid c n), .cons ?_ hwalk⟩
          rw [hdead]
          exact hmoved
      | false =>
          have hlen : liveLength (n :: ns) = n.length + liveLength ns := by
            simp [liveLength, hdead]
          rw [hlen, ← Nat.add_assoc] at hk ⊢
          obtain ⟨hmoved, hhold⟩ := holdNode_spec h.wf h.head hdead
          have hstep := incLockStep_below (u := u) (k := k) h.wf h.head hdead (by omega)
          obtain ⟨d, hrun, huuid, hwalk⟩ := ih (holdNode c n) (k + n.length) u
            (hmoved.nodes ▸ h.setData _) (by rw [hmoved.window]; exact hk)
          rw [hstep]
          refine ⟨d, hrun, huuid.trans hhold, .cons ?_ hwalk⟩
          rw [hdead]
          exact hmoved

/-- What `inc_lock` does to a node of its path: `start` is where its window begins, at the node
`cover` if the window is covered. -/
def lockData (start uuid : Nat) (cover : Option RadixTreeNode) (n : RadixTreeNode)
    (d : NodeData) : NodeData :=
  let d := pinData (!n.data.swaTombstone && decide (start ≤ n.pre.length)) d
  if cover = some n then stampData uuid d else d

section LockData

variable (start uuid : Nat) (cover : Option RadixTreeNode) (n : RadixTreeNode) (d : NodeData)

@[simp] theorem lockData_refCount : (lockData start uuid cover n d).refCount = d.refCount + 1 := by
  unfold lockData
  split <;> rfl

@[simp] theorem lockData_swaTombstone :
    (lockData start uuid cover n d).swaTombstone = d.swaTombstone := by
  unfold lockData
  split <;> rfl

@[simp] theorem lockData_swaRefCount : (lockData start uuid cover n d).swaRefCount =
    d.swaRefCount + if n.data.swaTombstone = false ∧ start ≤ n.pre.length then 1 else 0 := by
  unfold lockData
  split <;> simp [stampData, pinData]

@[simp] theorem lockData_swaUuid : (lockData start uuid cover n d).swaUuid =
    if cover = some n then some (d.swaUuid.getD uuid) else d.swaUuid := by
  unfold lockData
  split <;> rfl

end LockData

/-- The walk of `inc_lock`, which turns `c` into `d` and returns `uuid`. -/
structure LockWalk (c d : PrefixCache) (node : NodeRef) (uuid : Option Nat) (start : Nat)
    (cover : Option RadixTreeNode) : Prop where
  walk : Walk c d (chain c.nodes node) (lockData start (c.uuid + 1) cover)
  uncovered : cover = none → start = 0 ∧ uuid = none ∧ d.uuid = c.uuid
  covered : ∀ b, cover = some b → b ∈ chain c.nodes node ∧ b.data.swaTombstone = false ∧
    b.pre.length = start ∧ uuid = some (b.data.swaUuid.getD (c.uuid + 1)) ∧
    d.uuid = if b.data.swaUuid.isSome then c.uuid else c.uuid + 1
  long : cover = none ∨ ∃ top rest, chain c.nodes node = top ++ rest ∧
    (∀ n ∈ top, start ≤ n.pre.length) ∧ c.slidingWindowSize ≤ liveLength top

theorem incLock_walk (hw : WF ps c.nodes) (hwin : 0 < c.slidingWindowSize) {node : NodeRef}
    (hb : Boundary c.nodes node) :
    ∃ start cover, LockWalk c (incLock c node).1 node (incLock c node).2 start cover := by
  have hahead := Ahead.chain hw hb
  have hpair := hw.chain_pairwise hb
  unfold incLock
  rcases exists_cover c.slidingWindowSize (chain c.nodes node) 0 hwin with
    hshort | ⟨before, b, after, hchain, hlive, hlt, hge⟩
  · obtain ⟨d, hrun, huuid, hwalk⟩ := foldl_incLock_below _ c 0 none hahead hshort
    rw [hrun]
    refine ⟨0, none, hwalk.congr fun n _ => ?_, fun _ => ⟨rfl, rfl, huuid⟩, by simp, .inl rfl⟩
    funext d
    simp [lockData]
  · rw [hchain] at hahead hpair ⊢
    rw [Nat.zero_add] at hlt hge
    rw [List.pairwise_append] at hpair
    obtain ⟨-, hafter, hbefore⟩ := hpair
    rw [List.pairwise_cons] at hafter
    obtain ⟨d₁, hrun₁, huuid₁, hwalk₁⟩ := foldl_incLock_below before c 0 none hahead.left
      (by rwa [Nat.zero_add])
    have hahead₁ := hahead.fold fun n => pinData !n.data.swaTombstone
    rw [← hwalk₁.nodes] at hahead₁
    obtain ⟨d₂, hrun₂, huuid₂, hmoved⟩ := incLockStep_cover (u := none)
      (k := 0 + liveLength before) hahead₁.wf hahead₁.head hlive
      (by rw [hwalk₁.window, Nat.zero_add]; exact hlt)
      (by rw [hwalk₁.window, Nat.zero_add]; exact hge)
    obtain ⟨d₃, hrun₃, huuid₃, hwalk₃⟩ := foldl_incLock_past after d₂
      (0 + liveLength before + b.length) (some (b.data.swaUuid.getD (d₁.uuid + 1)))
      (hmoved.nodes ▸ hahead₁.setData _)
      (by rw [hmoved.window, hwalk₁.window, Nat.zero_add]; exact hge)
    rw [List.foldl_append, List.foldl_cons, hrun₁, hrun₂, hrun₃]
    have hnd := hahead.nodup
    rw [List.nodup_append'] at hnd
    obtain ⟨-, hnd, hdisj⟩ := hnd
    rw [List.nodup_cons] at hnd
    refine ⟨b.pre.length, some b, ?_, by simp, ?_, .inr ⟨before ++ [b], after, ?_, ?_, ?_⟩⟩
    · rw [hchain]
      refine (hwalk₁.congr fun n hn => ?_).append (.cons (hmoved.congr hahead₁.wf hahead₁.head ?_)
        (hwalk₃.congr fun n hn => ?_))
      · -- the nodes below the covering one are longer
        have hpre := (hbefore n hn b List.mem_cons_self).length_le
        have hle : b.pre.length ≤ n.pre.length := b.pre_prefix.length_le.trans hpre
        have hne : b ≠ n := fun he => hdisj hn (he ▸ List.mem_cons_self)
        funext d
        simp [lockData, hle, hne]
      · rw [huuid₁]
        simp [lockData, hlive]
      · have hpre := (hafter.1 n hn).length_le
        have hlen := (hw.covers_path (hahead.mem n (by simp [hn]))).lt
        have hlt' : ¬ b.pre.length ≤ n.pre.length := by omega
        have hne : b ≠ n := fun he => hnd.1 (he ▸ hn)
        funext d
        simp [lockData, hlt', hne]
    · intro x hx
      cases hx
      refine ⟨by rw [hchain]; simp, hlive, rfl, by rw [huuid₁], ?_⟩
      rw [huuid₃, huuid₂, huuid₁]
    · rw [hchain]
      simp
    · intro n hn
      rcases List.mem_append.1 hn with hn | hn
      · exact b.pre_prefix.length_le.trans (hbefore n hn b List.mem_cons_self).length_le
      · rw [List.mem_singleton.1 hn]
    · have : liveLength (before ++ [b]) = liveLength before + b.length := by
        simp [liveLength, hlive]
      rw [this]
      exact hge

end SwaRadixCache

/-! ## The tokens of a lock -/

/-- The window count of the node that holds token `i` of the path `p`. -/
def swaCountAt (t : RadixTree) (p : NodeRef) (i : Nat) : Nat :=
  ((t.find? fun n => decide (n.path <+: p ∧ n.pre.length ≤ i ∧ i < n.path.length)).map
    (·.data.swaRefCount)).getD 0

/-- The tokens of the path `p` whose window count went up by one from `t` to `t'`. -/
def raised (t t' : RadixTree) (p : NodeRef) : List Nat :=
  (List.range p.length).filter fun i => decide (swaCountAt t' p i = swaCountAt t p i + 1)

theorem swaCountAt_eq (hw : WF ps t) {p : NodeRef} {n : RadixTreeNode} (hn : n ∈ t)
    (hp : n.path <+: p) {i : Nat} (hle : n.pre.length ≤ i) (hlt : i < n.path.length) :
    swaCountAt t p i = n.data.swaRefCount := by
  unfold swaCountAt
  cases hf : t.find? fun n => decide (n.path <+: p ∧ n.pre.length ≤ i ∧ i < n.path.length) with
  | none =>
      have := List.find?_eq_none.1 hf n hn
      simp [hp, hle, hlt] at this
  | some m =>
      have hm := List.find?_some hf
      rw [decide_eq_true_eq] at hm
      rw [hw.eq_of_position (List.mem_of_find?_eq_some hf) hn hm.1 hp hm.2.1 hm.2.2 hle hlt]
      rfl

/-- Two nodes on one path do not overlap. -/
theorem apart_of_path (hw : WF ps t) {p : NodeRef} {n b : RadixTreeNode} (hn : n ∈ t) (hb : b ∈ t)
    (hnp : n.path <+: p) (hbp : b.path <+: p) :
    b.pre.length ≤ n.pre.length ∨ n.path.length ≤ b.pre.length := by
  by_contra hno
  rw [not_or, Nat.not_le, Nat.not_le] at hno
  have hlt := (hw.covers_path hb).lt
  have := hw.eq_of_position hn hb hnp hbp hno.1.le hno.2 le_rfl hlt
  rw [this] at hno
  exact absurd hno.1 (Nat.lt_irrefl _)

/-- The live tokens of the nodes of a chain are distinct positions. -/
theorem liveLength_le {T : List Nat} : ∀ (ns : List RadixTreeNode),
    (ns.Pairwise fun n m => m.path <+: n.pre) →
    (∀ n ∈ ns, n.data.swaTombstone = false → ∀ i, n.pre.length ≤ i → i < n.path.length → i ∈ T) →
    liveLength ns ≤ T.length := by
  intro ns hpair hmem
  have hlen : liveLength ns = (ns.flatMap fun n =>
      if n.data.swaTombstone then [] else List.range' n.pre.length n.length).length := by
    rw [List.length_flatMap]
    unfold liveLength
    congr 1
    refine List.map_congr_left fun n _ => ?_
    split <;> simp
  have hin : ∀ {n : RadixTreeNode} {i : Nat},
      i ∈ (if n.data.swaTombstone then [] else List.range' n.pre.length n.length) →
      n.data.swaTombstone = false ∧ n.pre.length ≤ i ∧ i < n.path.length := by
    intro n i hi
    split at hi
    · cases hi
    · rename_i hlive
      rw [List.mem_range'_1] at hi
      rw [Node.path_length]
      exact ⟨Bool.eq_false_of_not_eq_true hlive, hi⟩
  rw [hlen]
  refine (List.subperm_of_subset ?_ fun i hi => ?_).length_le
  · refine List.nodup_flatMap.2 ⟨fun n _ => ?_, hpair.imp fun {n m} hnm i hi hi' => ?_⟩
    · split
      · exact List.nodup_nil
      · exact List.nodup_range'
    · have h₁ := hin hi
      have h₂ := hin hi'
      have := hnm.length_le
      omega
  · obtain ⟨n, hn, hi⟩ := List.mem_flatMap.1 hi
    obtain ⟨hlive, hle, hlt⟩ := hin hi
    exact hmem n hn hlive i hle hlt

namespace SwaRadixCache

/-- The record of a lock just taken. -/
def lockOf (c : PrefixCache) (node : NodeRef) : SwaLock where
  node := node
  uuid := (incLock c node).2
  tokens := raised c.nodes (incLock c node).1.nodes node

/-- The recorded tokens are those of the nodes whose window the walk pinned. -/
theorem mem_lockOf (hw : WF ps c.nodes) {node : NodeRef} {g : RadixTreeNode → NodeData}
    (hnodes : (incLock c node).1.nodes = retag c.nodes g) {P : RadixTreeNode → Prop}
    [DecidablePred P] (hg : ∀ n ∈ c.nodes, n.path <+: node →
      (g n).swaRefCount = n.data.swaRefCount + if P n then 1 else 0) {n : RadixTreeNode}
    (hn : n ∈ c.nodes) (hp : n.path <+: node) {i : Nat} (hle : n.pre.length ≤ i)
    (hlt : i < n.path.length) : i ∈ (lockOf c node).tokens ↔ P n := by
  unfold lockOf raised
  dsimp only
  rw [List.mem_filter, List.mem_range, decide_eq_true_eq, hnodes, swaCountAt_eq hw hn hp hle hlt,
    swaCountAt_eq (wf_retag hw g) (mem_retag.2 ⟨n, hn, rfl⟩) hp hle hlt, hg n hn hp]
  constructor
  · rintro ⟨-, hcount⟩
    by_contra hno
    rw [if_neg hno] at hcount
    omega
  · intro hP
    rw [if_pos hP]
    exact ⟨hlt.trans_le hp.length_le, rfl⟩

theorem incLock_spec (h : SwaInv ps w L c) (hpos : 0 < w) {node : NodeRef}
    (hb : Boundary c.nodes node) : SwaInv ps w (lockOf c node :: L) (incLock c node).1 := by
  obtain ⟨hpage, hwin, hlocks, htokens, hwindows⟩ := h
  have hw := hlocks.locked.wf
  obtain ⟨start, cover, hwalk, hunc, hcov, hlong⟩ := incLock_walk hw (hwin ▸ hpos) hb
  have hnodes := hwalk.nodes.trans (foldl_setData_chain hw hb _)
  -- what the walk leaves of a node
  generalize hg : (fun n : RadixTreeNode => if n.path <+: node
    then lockData start (c.uuid + 1) cover n n.data else n.data) = g at hnodes
  have hgon : ∀ n : RadixTreeNode, n.path <+: node →
      g n = lockData start (c.uuid + 1) cover n n.data := by
    intro n hp
    rw [← hg]
    exact if_pos hp
  have hgoff : ∀ n : RadixTreeNode, ¬ n.path <+: node → g n = n.data := by
    intro n hp
    rw [← hg]
    exact if_neg hp
  have hdead : ∀ n, (g n).swaTombstone = n.data.swaTombstone := by
    intro n
    by_cases hp : n.path <+: node
    · simp [hgon n hp]
    · rw [hgoff n hp]
  have hmem := fun {n : RadixTreeNode} => mem_lockOf hw hnodes (n := n)
    (P := fun n => n.data.swaTombstone = false ∧ start ≤ n.pre.length) (fun n _ hp => by
      rw [hgon n hp, lockData_swaRefCount])
  have hid : ∀ n ∈ c.nodes, ∀ u, n.data.swaUuid = some u → (g n).swaUuid = some u := by
    intro n hn u hu
    by_cases hp : n.path <+: node
    · rw [hgon n hp, lockData_swaUuid, hu]
      split <;> rfl
    · rwa [hgoff n hp]
  -- an id after the walk was there before, or is the new one of the covering node
  have hcase : ∀ n, ∀ u, (g n).swaUuid = some u → n.data.swaUuid = some u ∨
      cover = some n ∧ n.data.swaUuid = none ∧ u = c.uuid + 1 := by
    intro n u hu
    by_cases hp : n.path <+: node
    · rw [hgon n hp, lockData_swaUuid] at hu
      split at hu
      · rename_i hcv
        cases hn : n.data.swaUuid with
        | none =>
            rw [hn] at hu
            exact .inr ⟨hcv, rfl, (Option.some.inj hu).symm⟩
        | some v =>
            rw [hn] at hu
            exact .inl hu
      · exact .inl hu
    · rw [hgoff n hp] at hu
      exact .inl hu
  have huuid : c.uuid ≤ (incLock c node).1.uuid ∧ (∀ n, cover = some n → n.data.swaUuid = none →
      (incLock c node).1.uuid = c.uuid + 1) := by
    cases hcv : cover with
    | none => exact ⟨(hunc hcv).2.2.ge, by simp⟩
    | some b =>
        obtain ⟨-, -, -, -, hud⟩ := hcov b hcv
        refine ⟨by rw [hud]; split <;> omega, fun n hn hnone => ?_⟩
        cases hn
        rw [hud, hnone]
        rfl
  have hchain := fun {n : RadixTreeNode} => (hw.mem_chain hb (m := n)).1
  have hwindow : Window (retag c.nodes g) (lockOf c node) start := by
    refine ⟨List.nodup_range.filter _, fun i hi => ?_, fun m hm hp => ?_,
      fun m hm hp i hle hlt => ?_, fun hnone => ?_, fun u hu => ?_⟩
    · exact List.mem_range.1 (List.mem_filter.1 hi).1
    · obtain ⟨n, hn, rfl⟩ := mem_retag.1 hm
      cases hcv : cover with
      | none => exact .inl ((hunc hcv).1 ▸ Nat.zero_le _)
      | some b =>
          obtain ⟨hbc, -, hstart, -⟩ := hcov b hcv
          obtain ⟨hbt, hbp⟩ := hchain hbc
          rw [← hstart]
          exact apart_of_path (n := n) hw hn hbt hp hbp
    · obtain ⟨n, hn, rfl⟩ := mem_retag.1 hm
      rw [hmem hn hp hle hlt]
      dsimp only
      rw [hdead, and_comm]
    · cases hcv : cover with
      | none => exact (hunc hcv).1
      | some b =>
          obtain ⟨-, -, -, hsome, -⟩ := hcov b hcv
          exact absurd (hsome.symm.trans hnone) (by simp)
    · cases hcv : cover with
      | none => exact absurd ((hunc hcv).2.1.symm.trans hu) (by simp)
      | some b =>
          obtain ⟨hbc, hlive, hstart, hsome, -⟩ := hcov b hcv
          obtain ⟨hbt, hbp⟩ := hchain hbc
          refine ⟨_, mem_retag.2 ⟨b, hbt, rfl⟩, hbp, hstart, (hdead b).trans hlive, ?_⟩
          dsimp only
          rw [hgon b hbp, lockData_swaUuid, if_pos hcv, ← hsome]
          exact hu
  refine ⟨hwalk.pageSize.trans hpage, hwalk.window.trans hwin, ?_, hwalk.tokens htokens,
    hwalk.windows hwindows⟩
  rw [hnodes]
  refine ⟨?_, fun l hl => ?_, fun m hm => ?_, fun m hm u hu => ?_, fun m hm m' hm' u hu hu' => ?_⟩
  · refine hlocks.locked.pin hb fun n _ => ?_
    by_cases hp : n.path <+: node
    · rw [hgon n hp, lockData_refCount, if_pos hp]
    · rw [hgoff n hp, if_neg hp, Nat.add_zero]
  · rcases List.mem_cons.1 hl with rfl | hl
    · refine ⟨start, hwindow, ?_⟩
      rcases hlong with hcv | ⟨top, rest, hsplit, hge, hle⟩
      · exact .inl (hunc hcv).1
      · refine .inr (hwin ▸ hle.trans (liveLength_le top ?_ fun n hn hlive i hi hi' => ?_))
        · have hpair := hw.chain_pairwise hb
          rw [hsplit, List.pairwise_append] at hpair
          exact hpair.1
        · obtain ⟨hnt, hnp⟩ := hchain (hsplit ▸ List.mem_append_left rest hn)
          exact (hmem hnt hnp hi hi').2 ⟨hlive, hge n hn⟩
    · obtain ⟨s, hs, hlg⟩ := hlocks.windows l hl
      exact ⟨s, hs.retag (fun n _ _ _ => hdead n) hid, hlg⟩
  · have hholds := hwindow.holds_iff (wf_retag hw g) hm
    obtain ⟨n, hn, rfl⟩ := mem_retag.1 hm
    rw [windowPins_cons]
    have hold : windowPins L { n with data := g n } = n.data.swaRefCount := (hlocks.counts n hn).symm
    dsimp only
    rw [hold]
    by_cases hp : n.path <+: node
    · have hcount : (g n).swaRefCount = n.data.swaRefCount +
          if n.data.swaTombstone = false ∧ start ≤ n.pre.length then 1 else 0 := by
        rw [hgon n hp, lockData_swaRefCount]
      rw [hcount]
      refine congrArg (n.data.swaRefCount + ·) (if_congr ?_ rfl rfl)
      rw [hholds hp, and_comm]
      dsimp only
      rw [hdead]
    · rw [hgoff n hp, if_neg fun hh => hp hh.1, Nat.add_zero]
  · obtain ⟨n, hn, rfl⟩ := mem_retag.1 hm
    rcases hcase n u hu with hold | ⟨hcv, hnone, rfl⟩
    · exact (hlocks.uuid_le n hn u hold).trans huuid.1
    · exact (huuid.2 n hcv hnone).ge
  · obtain ⟨n, hn, rfl⟩ := mem_retag.1 hm
    obtain ⟨n', hn', rfl⟩ := mem_retag.1 hm'
    rcases hcase n u hu with hold | ⟨hcv, hnone, rfl⟩
    · rcases hcase n' u hu' with hold' | ⟨-, -, rfl⟩
      · rw [hlocks.uuid_inj n hn n' hn' u hold hold']
      · have := hlocks.uuid_le n hn _ hold
        omega
    · rcases hcase n' _ hu' with hold' | ⟨hcv', -, -⟩
      · have := hlocks.uuid_le n' hn' _ hold'
        omega
      · rw [Option.some.inj (hcv.symm.trans hcv')]

/-- A lock changes no tombstone. -/
theorem incLock_retag (h : SwaInv ps w L c) (hpos : 0 < w) {node : NodeRef}
    (hb : Boundary c.nodes node) : ∃ g, (incLock c node).1.nodes = retag c.nodes g ∧
      ∀ n, (g n).swaTombstone = n.data.swaTombstone := by
  obtain ⟨start, cover, hwalk, -⟩ := incLock_walk h.wf (h.window ▸ hpos) hb
  refine ⟨_, hwalk.nodes.trans (foldl_setData_chain h.wf hb _), fun n => ?_⟩
  split <;> simp

end SwaRadixCache

/-- A lock on a live node pins its last token. -/
theorem Window.last {l : SwaLock} {start : Nat} (h : Window t l start) (hw : WF ps t)
    {n : RadixTreeNode} (hn : n ∈ t) (hp : n.path = l.node) (hlive : n.data.swaTombstone = false) :
    l.node.length - 1 ∈ l.tokens := by
  have hpre : n.path <+: l.node := hp ▸ List.prefix_rfl
  have hlt := (hw.covers_path hn).lt
  have hstart : start < n.path.length := by
    cases hu : l.uuid with
    | none =>
        rw [h.root hu]
        omega
    | some u =>
        obtain ⟨b, hb, hbp, hbs, -, -⟩ := h.bound u hu
        have := (hw.covers_path hb).lt
        have := hbp.length_le
        rw [hp]
        omega
  rw [← hp]
  refine (h.mem n hn hpre _ (by omega) (by omega)).2 ⟨?_, hlive⟩
  rcases h.apart n hn hpre with hs | hs
  · exact hs
  · omega

theorem SwaInv.fresh_lockOf (h : SwaInv ps w L c) (hpos : 0 < w) (hf : Fresh L) {node : NodeRef}
    (hb : Boundary c.nodes node)
    (hlive : ∀ n ∈ c.nodes, n.path = node → n.data.swaTombstone = false) :
    Fresh (SwaRadixCache.lockOf c node :: L) := by
  intro l hl hne
  rcases List.mem_cons.1 hl with rfl | hl
  · have h' := SwaRadixCache.incLock_spec h hpos hb
    obtain ⟨g, hnodes, hg⟩ := SwaRadixCache.incLock_retag h hpos hb
    obtain ⟨start, hwin, -⟩ := h'.locks.windows _ List.mem_cons_self
    obtain ⟨n, hn, hp⟩ := hb.resolve_left hne
    refine hwin.last h'.wf (n := { n with data := g n }) ?_ hp ((hg n).trans (hlive n hn hp))
    rw [hnodes]
    exact mem_retag.2 ⟨n, hn, rfl⟩
  · exact hf l hl hne

namespace SwaRadixCache

/-! ## The walk of an unlock -/

/-- What `dec_lock` takes back from a node. -/
def unlockData (l : SwaLock) (n : RadixTreeNode) (d : NodeData) : NodeData :=
  { d with
    refCount := d.refCount - 1
    swaRefCount := d.swaRefCount - if l.Holds n then 1 else 0 }

/-- A node of the walk whose window pin is taken back. -/
def releaseNode (c : PrefixCache) (n : RadixTreeNode) : PrefixCache :=
  let c := { c with
    nodes := c.nodes.setData n.path (fun d => { d with swaRefCount := d.swaRefCount - 1 }) }
  if n.data.swaRefCount = 1 then
    { c with
      swaEvictable := c.swaEvictable + n.length
      swaProtected := c.swaProtected - n.length }
  else c

theorem decLockStep_eq (u : Option Nat) (c : PrefixCache) (b : Bool) (n : RadixTreeNode)
    {d : PrefixCache} (hd : c.unpin n = .ok d) :
    decLockStep u (c, b) n =
      if b && !n.data.swaTombstone && decide (0 < n.data.swaRefCount) then
        .ok (releaseNode d n, !(u.isSome && decide (n.data.swaUuid = u)))
      else .ok (d, b) := by
  unfold decLockStep
  rw [hd]
  rfl

theorem releaseNode_spec (hw : WF ps c.nodes) {n : RadixTreeNode} (hn : n ∈ c.nodes)
    (hlive : n.data.swaTombstone = false) (hpos : 0 < n.data.swaRefCount) :
    Moved c (releaseNode c n) n (fun d => { d with swaRefCount := d.swaRefCount - 1 }) ∧
      (releaseNode c n).uuid = c.uuid := by
  unfold releaseNode
  by_cases hone : n.data.swaRefCount = 1
  · rw [if_pos hone]
    exact ⟨.release hw hn hlive hpos (if_pos hone).symm (if_pos hone).symm, rfl⟩
  · rw [if_neg hone]
    exact ⟨.release hw hn hlive hpos (if_neg hone).symm (if_neg hone).symm, rfl⟩

/-- One node of an unlock: what the lock holds is released until its boundary id is met. -/
theorem decLockStep_spec (hw : WF ps c.nodes) {n : RadixTreeNode} (hn : n ∈ c.nodes)
    (hpos : 0 < n.data.refCount) {l : SwaLock} {b : Bool}
    (hholds : l.Holds n → n.data.swaTombstone = false ∧ 0 < n.data.swaRefCount)
    (hiff : b = true → n.data.swaTombstone = false → l.Holds n)
    (hb : b = false → ¬ l.Holds n) :
    ∃ d, decLockStep l.uuid (c, b) n = .ok (d, b && !(n.data.swaTombstone = false &&
        l.uuid.isSome && decide (n.data.swaUuid = l.uuid))) ∧ d.uuid = c.uuid ∧
      Moved c d n (unlockData l n) := by
  obtain ⟨d, hd, huuid, hunpin⟩ := Moved.unpin hw hn hpos
  rw [decLockStep_eq l.uuid c b n hd]
  by_cases hh : l.Holds n
  · obtain ⟨hlive, hswa⟩ := hholds hh
    have hbt : b = true := by
      by_contra hbf
      exact hb (Bool.eq_false_of_not_eq_true hbf) hh
    have hn' := mem_setData hn fun d => { d with refCount := d.refCount - 1 }
    rw [← hunpin.nodes] at hn'
    have hw' : WF ps d.nodes := by
      rw [hunpin.nodes]
      exact wf_setData hw _ _
    obtain ⟨hrel, hreluuid⟩ := releaseNode_spec hw' hn' hlive hswa
    rw [if_pos (by simp [hbt, hlive, hswa])]
    refine ⟨releaseNode d n, by simp [hbt, hlive], hreluuid.trans huuid, ?_⟩
    exact (hunpin.trans hrel rfl).congr hw hn (by simp [unlockData, hh])
  · have hcond : ¬ (b && !n.data.swaTombstone && decide (0 < n.data.swaRefCount)) = true := by
      intro hc
      simp only [Bool.and_eq_true, Bool.not_eq_true'] at hc
      exact hh (hiff hc.1.1 hc.1.2)
    rw [if_neg hcond]
    refine ⟨d, ?_, huuid, hunpin.congr hw hn (by simp [unlockData, hh])⟩
    cases hbt : b with
    | false => rfl
    | true =>
        have hdead : n.data.swaTombstone = true := by
          by_contra hl
          exact hh (hiff hbt (Bool.eq_false_of_not_eq_true hl))
        simp [hdead]

end SwaRadixCache

/-- With the pins of one lock taken back, the counts are those of the others. -/
theorem SwaLocked.unlock {k : Nat} {l : SwaLock} (h : SwaLocked ps w t (l :: L) k) :
    SwaLocked ps w (FreeToken.retag t fun n =>
      if n.path <+: l.node then SwaRadixCache.unlockData l n n.data else n.data) L k := by
  generalize hg : (fun n : RadixTreeNode =>
    if n.path <+: l.node then SwaRadixCache.unlockData l n n.data else n.data) = g
  have hkeep : ∀ n, (g n).swaTombstone = n.data.swaTombstone ∧
      (g n).swaUuid = n.data.swaUuid := by
    intro n
    rw [← hg]
    dsimp only
    split <;> exact ⟨rfl, rfl⟩
  refine ⟨h.locked.unpin fun n _ => ?_, fun m hm => ?_, fun m hm => ?_, fun m hm u hu => ?_,
    fun m hm m' hm' u hu hu' => ?_⟩
  · rw [← hg]
    dsimp only
    split <;> rfl
  · obtain ⟨start, hwin, hlong⟩ := h.windows m (List.mem_cons_of_mem _ hm)
    exact ⟨start, hwin.retag (fun n _ _ _ => (hkeep n).1)
      (fun n _ u hu => (hkeep n).2.trans hu), hlong⟩
  · obtain ⟨n, hn, rfl⟩ := mem_retag.1 hm
    have hcount := h.counts n hn
    rw [windowPins_cons] at hcount
    show (g n).swaRefCount = windowPins L n
    rw [← hg]
    dsimp only
    split
    · show n.data.swaRefCount - _ = _
      rw [hcount, Nat.add_sub_cancel]
    · rename_i hp
      rw [hcount, if_neg fun hh => hp hh.1, Nat.add_zero]
  · obtain ⟨n, hn, rfl⟩ := mem_retag.1 hm
    exact h.uuid_le n hn u ((hkeep n).2.symm.trans hu)
  · obtain ⟨n, hn, rfl⟩ := mem_retag.1 hm
    obtain ⟨n', hn', rfl⟩ := mem_retag.1 hm'
    rw [h.uuid_inj n hn n' hn' u ((hkeep n).2.symm.trans hu) ((hkeep n').2.symm.trans hu')]

namespace SwaRadixCache

/-- The flag of the walk stays up until the node at `start`, the lock's boundary. -/
theorem foldlM_decLock {l : SwaLock} {start : Nat} :
    ∀ (ns : List RadixTreeNode) (c : PrefixCache) (b : Bool), Ahead ps c.nodes ns →
      (ns.Pairwise fun n m => m.pre.length < n.pre.length) →
      (∀ n ∈ ns, 0 < n.data.refCount) →
      (∀ n ∈ ns, l.Holds n → 0 < n.data.swaRefCount) →
      (∀ n ∈ ns, l.Holds n ↔ start ≤ n.pre.length ∧ n.data.swaTombstone = false) →
      (∀ n ∈ ns, (n.data.swaTombstone = false && l.uuid.isSome &&
        decide (n.data.swaUuid = l.uuid)) = (l.uuid.isSome && decide (n.pre.length = start))) →
      (b = true → l.uuid = none ∧ start = 0 ∨ l.uuid.isSome ∧ ∃ x ∈ ns, x.pre.length = start) →
      (b = false → ∀ n ∈ ns, n.pre.length < start) →
      ∃ d b', ns.foldlM (decLockStep l.uuid) (c, b) = .ok (d, b') ∧ d.uuid = c.uuid ∧
        Walk c d ns (unlockData l) := by
  intro ns
  induction ns with
  | nil => exact fun c b _ _ _ _ _ _ _ _ => ⟨c, b, rfl, rfl, .nil c _⟩
  | cons n ns ih =>
      intro c b h hpair hpos hswa hholds hstop hup hdown
      rw [List.pairwise_cons] at hpair
      have hn := List.mem_cons_self (a := n) (l := ns)
      have hge : b = true → start ≤ n.pre.length := by
        intro hb
        rcases hup hb with ⟨-, hzero⟩ | ⟨-, x, hx, hxs⟩
        · omega
        · rcases List.mem_cons.1 hx with rfl | hx
          · exact hxs.ge
          · exact hxs ▸ (hpair.1 x hx).le
      obtain ⟨d, hrun, huuid, hmoved⟩ := decLockStep_spec (l := l) (b := b) h.wf h.head (hpos n hn)
        (fun hh => ⟨((hholds n hn).1 hh).2, hswa n hn hh⟩)
        (fun hb hlive => (hholds n hn).2 ⟨hge hb, hlive⟩)
        (fun hb hh => absurd ((hholds n hn).1 hh).1 (Nat.not_le.2 (hdown hb n hn)))
      rw [hstop n hn] at hrun
      rw [List.foldlM_cons, hrun]
      have hrest : ∀ {P : RadixTreeNode → Prop}, (∀ m ∈ n :: ns, P m) → ∀ m ∈ ns, P m :=
        fun hall m hm => hall m (List.mem_cons_of_mem _ hm)
      have hup' : (b && !(l.uuid.isSome && decide (n.pre.length = start))) = true →
          l.uuid = none ∧ start = 0 ∨ l.uuid.isSome ∧ ∃ x ∈ ns, x.pre.length = start := by
        intro hb
        simp only [Bool.and_eq_true, Bool.not_eq_true'] at hb
        refine (hup hb.1).imp_right ?_
        rintro ⟨hsome, x, hx, hxs⟩
        refine ⟨hsome, x, (List.mem_cons.1 hx).resolve_left ?_, hxs⟩
        rintro rfl
        simp [hsome, hxs] at hb
      have hdown' : (b && !(l.uuid.isSome && decide (n.pre.length = start))) = false →
          ∀ m ∈ ns, m.pre.length < start := by
        intro hb m hm
        cases hbt : b with
        | false => exact hdown hbt m (List.mem_cons_of_mem _ hm)
        | true =>
            simp only [hbt, Bool.true_and, Bool.not_eq_false', Bool.and_eq_true,
              decide_eq_true_eq] at hb
            exact hb.2 ▸ hpair.1 m hm
      obtain ⟨e, b', hrec, huuid', hwalk⟩ := ih d _ (hmoved.nodes ▸ h.setData _) hpair.2
        (hrest hpos) (hrest hswa) (hrest hholds) (hrest hstop) hup' hdown'
      exact ⟨e, b', hrec, huuid'.trans huuid, .cons hmoved hwalk⟩

/-- `dec_lock` takes back exactly the pins of its lock. -/
theorem decLock_spec (h : SwaInv ps w L c) {l : SwaLock} (hl : l ∈ L) :
    ∃ d, decLock c l.node l.uuid = .ok d ∧ SwaInv ps w (L.erase l) d ∧
      d.nodes = retag c.nodes fun n =>
        if n.path <+: l.node then unlockData l n n.data else n.data := by
  have hw := h.wf
  have hb := h.locks.bound hl
  have hchain := fun {n : RadixTreeNode} => (hw.mem_chain hb (m := n)).1
  obtain ⟨start, hwin, hlong⟩ := h.locks.windows l hl
  have hheld : ∀ n ∈ c.nodes, l.Holds n → 0 < n.data.swaRefCount := by
    intro n hn hh
    rw [h.locks.counts n hn]
    exact windowPins_pos.2 ⟨l, hl, hh⟩
  have hpinned : ∀ n ∈ c.nodes, n.path <+: l.node → 0 < n.data.refCount := by
    intro n hn hp
    rw [h.locks.locked.refs n hn]
    exact pins_pos.2 ⟨l.node, List.mem_map_of_mem hl, hp⟩
  have hpair : (chain c.nodes l.node).Pairwise fun n m => m.pre.length < n.pre.length := by
    refine List.Pairwise.imp_of_mem (fun {n m} _ hm hp => ?_) (hw.chain_pairwise hb)
    have := (hw.covers_path (hchain hm).1).lt
    have := hp.length_le
    omega
  have hstop : ∀ n ∈ chain c.nodes l.node, (n.data.swaTombstone = false && l.uuid.isSome &&
      decide (n.data.swaUuid = l.uuid)) = (l.uuid.isSome && decide (n.pre.length = start)) := by
    intro n hn
    obtain ⟨hnt, hnp⟩ := hchain hn
    cases hu : l.uuid with
    | none => simp
    | some u =>
        obtain ⟨b, hbt, hbp, hbs, hblive, hbu⟩ := hwin.bound u hu
        by_cases hnb : n = b
        · subst hnb
          simp [hbs, hblive, hbu]
        · have hne : n.data.swaUuid ≠ some u := fun hnu =>
            hnb (h.locks.uuid_inj n hnt b hbt u hnu hbu)
          have hne' : n.pre.length ≠ start := fun hns => hnb <| by
            have hnlt := (hw.covers_path hnt).lt
            have hblt := (hw.covers_path hbt).lt
            exact hw.eq_of_position hnt hbt hnp hbp le_rfl hnlt (by omega) (by omega)
          simp [hne, hne']
  have hup : true = true → l.uuid = none ∧ start = 0 ∨
      l.uuid.isSome ∧ ∃ x ∈ chain c.nodes l.node, x.pre.length = start := by
    intro _
    cases hu : l.uuid with
    | none => exact .inl ⟨rfl, hwin.root hu⟩
    | some u =>
        obtain ⟨b, hbt, hbp, hbs, -, -⟩ := hwin.bound u hu
        exact .inr ⟨rfl, b, (hw.mem_chain hb).2 ⟨hbt, hbp⟩, hbs⟩
  obtain ⟨d, b', hrun, huuid, hwalk⟩ := foldlM_decLock (l := l) _ c true
    (Ahead.chain hw hb) hpair (fun n hn => hpinned n (hchain hn).1 (hchain hn).2)
    (fun n hn => hheld n (hchain hn).1)
    (fun n hn => hwin.holds_iff hw (hchain hn).1 (hchain hn).2) hstop hup (by simp)
  have hnodes := hwalk.nodes.trans (foldl_setData_chain hw hb _)
  refine ⟨d, ?_, ?_, hnodes⟩
  · unfold decLock
    rw [hrun]
    rfl
  · obtain ⟨hpage, hwindow, hlocks, htokens, hwindows⟩ := h
    refine ⟨hwalk.pageSize.trans hpage, hwalk.window.trans hwindow, ?_, hwalk.tokens htokens,
      hwalk.windows hwindows⟩
    rw [hnodes, huuid]
    exact (hlocks.perm (List.perm_cons_erase hl)).unlock

end SwaRadixCache

end FreeToken
