import FreeToken.KvCache.RadixSpec
import FreeToken.Scheduler.CacheManager

/-!
# Who owns a page

`Owned cm X P H`: the pages of the pool are shared out between the free list, the pending list, the
tree, the loose pages `P` of an operation in progress, and the rows of the holdings `H`; the tree is
locked by the holdings and by the extra locks `X`.  The operations of the cache manager move pages
and locks between these parts; each is one lemma here, whatever the prefix cache.
-/

set_option autoImplicit false

namespace FreeToken

open BlockTrie Blocks

/-- What a running request holds: its row, the node its handle names, and the number of its tokens
that pages back. -/
structure Holding where
  row : Nat
  node : NodeRef
  upto : Nat

namespace Holding

/-- The request's own slots, past its committed prefix. -/
def slots (h : Holding) (ps : Nat) (pt : PageTable) : List Nat :=
  slice (pt h.row) h.node.length (divCeil h.upto ps * ps)

def pages (h : Holding) (ps : Nat) (pt : PageTable) : List Nat := stride ps (h.slots ps pt)

theorem slots_congr {h : Holding} {ps : Nat} {pt pt' : PageTable}
    (heq : ∀ j, h.node.length ≤ j → pt' h.row j = pt h.row j) : h.slots ps pt' = h.slots ps pt :=
  slice_congr fun j hj _ => heq j hj

structure Ok (ps : Nat) (t : RadixTree) (pt : PageTable) (h : Holding) : Prop where
  le : h.node.length ≤ h.upto
  reads : Reads t h.node (pt h.row)
  paged : ∃ pages, h.slots ps pt = expand ps pages

end Holding

structure Owned (cm : CacheManager) (X : List NodeRef) (P : List Nat) (H : List Holding) :
    Prop where
  size : cm.prefixCache.pageSize = cm.pageSize
  pos : 0 < cm.pageSize
  locked : Locked cm.pageSize cm.prefixCache.nodes (X ++ H.map Holding.node)
  paged : Paged cm.pageSize cm.prefixCache.nodes
  ok : ∀ h ∈ H, h.Ok cm.pageSize cm.prefixCache.nodes cm.pageTable
  rows : (H.map Holding.row).Nodup
  perm : (cm.freeSlots ++ (cm.lazyFreeList.getD [] ++ (bases cm.pageSize cm.prefixCache.nodes ++
    (P ++ H.flatMap fun h => h.pages cm.pageSize cm.pageTable)))).Perm
      (CacheManager.pageBases cm.numPages cm.pageSize)

/-- Two managers with the same pages and the same tree. -/
structure SamePages (cm cm' : CacheManager) : Prop where
  cacheType : cm'.cacheType = cm.cacheType
  pageSize : cm'.pageSize = cm.pageSize
  numPages : cm'.numPages = cm.numPages
  freeSlots : cm'.freeSlots = cm.freeSlots
  lazyFreeList : cm'.lazyFreeList = cm.lazyFreeList
  pageTable : cm'.pageTable = cm.pageTable
  nodes : cm'.prefixCache.nodes = cm.prefixCache.nodes
  treePageSize : cm'.prefixCache.pageSize = cm.prefixCache.pageSize

namespace SamePages

theorem refl (cm : CacheManager) : SamePages cm cm := ⟨rfl, rfl, rfl, rfl, rfl, rfl, rfl, rfl⟩

theorem trans {a b c : CacheManager} (h : SamePages a b) (h' : SamePages b c) : SamePages a c :=
  ⟨h'.1.trans h.1, h'.2.trans h.2, h'.3.trans h.3, h'.4.trans h.4, h'.5.trans h.5, h'.6.trans h.6,
    h'.7.trans h.7, h'.8.trans h.8⟩

end SamePages

namespace Owned

variable {cm cm' : CacheManager} {X : List NodeRef} {P : List Nat} {H : List Holding}

theorem congr (h : Owned cm X P H) (hs : SamePages cm cm') : Owned cm' X P H where
  size := by rw [hs.treePageSize, hs.pageSize, h.size]
  pos := hs.pageSize ▸ h.pos
  locked := by rw [hs.pageSize, hs.nodes]; exact h.locked
  paged := by rw [hs.pageSize, hs.nodes]; exact h.paged
  ok := by rw [hs.pageSize, hs.nodes, hs.pageTable]; exact h.ok
  rows := h.rows
  perm := by
    rw [hs.pageSize, hs.nodes, hs.pageTable, hs.freeSlots, hs.lazyFreeList, hs.numPages]
    exact h.perm

theorem holdings_perm {H' : List Holding} (h : Owned cm X P H) (hp : H.Perm H') :
    Owned cm X P H' where
  size := h.size
  pos := h.pos
  locked := h.locked.perm ((hp.map _).append_left _)
  paged := h.paged
  ok := fun x hx => h.ok x (hp.mem_iff.2 hx)
  rows := (hp.map _).nodup_iff.1 h.rows
  perm := by
    refine List.Perm.trans ?_ h.perm
    exact (((((hp.flatMap_right _).symm.append_left _).append_left _).append_left _).append_left _)

theorem loose_perm {P' : List Nat} (h : Owned cm X P H) (hp : P.Perm P') : Owned cm X P' H := by
  refine { h with perm := List.Perm.trans ?_ h.perm }
  exact (((hp.symm.append_right _).append_left _).append_left _).append_left _

theorem locks_perm {X' : List NodeRef} (h : Owned cm X P H) (hp : X.Perm X') :
    Owned cm X' P H :=
  { h with locked := h.locked.perm (hp.append_right _) }

/-- A lock on the root can be added and dropped at will. -/
theorem cons_nil : Owned cm ([] :: X) P H ↔ Owned cm X P H :=
  ⟨fun h => { h with locked := Locked.cons_nil.1 h.locked },
    fun h => { h with locked := Locked.cons_nil.2 h.locked }⟩

/-! ## The tree -/

/-- The tree gives up unpinned leaves. -/
theorem takes (h : Owned cm X P H) {c : PrefixCache} {out : List Nat}
    (ht : Takes cm.pageSize (X ++ H.map Holding.node) cm.prefixCache.nodes c.nodes out)
    (hc : c.pageSize = cm.pageSize) :
    Owned { cm with prefixCache := c } X (stride cm.pageSize out ++ P) H where
  size := hc
  pos := h.pos
  locked := ht.locked
  paged := ht.paged
  ok := fun x hx => { h.ok x hx with
    reads := ht.reads x.node (List.mem_append_right _ (List.mem_map_of_mem hx)) _ (h.ok x hx).reads }
  rows := h.rows
  perm := by
    refine List.Perm.trans ?_ h.perm
    refine (List.Perm.append_left _ (List.Perm.append_left _ ?_))
    refine List.Perm.trans ?_ (ht.perm.symm.append_right _)
    rw [List.append_assoc, List.append_assoc]
    exact List.perm_append_comm_assoc _ _ _

theorem reshape (h : Owned cm X P H) {c : PrefixCache}
    (hr : Reshape cm.pageSize cm.prefixCache.nodes c.nodes) (hc : c.pageSize = cm.pageSize) :
    Owned { cm with prefixCache := c } X P H := by
  simpa using h.takes (Takes.reshape h.pos h.locked h.paged hr) hc

/-- The tree takes pages in: an insert hands it the loose pages past the walk's end. -/
theorem inserted (h : Owned cm X P H) {c : PrefixCache} {ids : List Token} {indices : List Nat}
    {k : Nat} {P' : List Nat}
    (hi : RadixPrefixCache.Inserted cm.pageSize (X ++ H.map Holding.node) cm.prefixCache.nodes ids indices c.nodes k)
    (hc : c.pageSize = cm.pageSize) (hP : P.Perm (stride cm.pageSize (indices.drop k) ++ P')) :
    Owned { cm with prefixCache := c } X P' H where
  size := hc
  pos := h.pos
  locked := hi.locked
  paged := hi.paged
  ok := fun x hx => { h.ok x hx with reads := hi.reads x.node _ (h.ok x hx).reads }
  rows := h.rows
  perm := by
    refine List.Perm.trans ?_ h.perm
    refine List.Perm.append_left _ (List.Perm.append_left _ ?_)
    refine (hi.perm.append_right _).trans ?_
    rw [List.append_assoc, ← List.append_assoc (stride _ _)]
    exact (hP.symm.append_right _).append_left _

/-- New data, and with it new extra locks. -/
theorem retagged (h : Owned cm X P H) {c : PrefixCache} {Y : List NodeRef}
    {g : RadixTreeNode → NodeData}
    (hL : Locked cm.pageSize c.nodes (Y ++ H.map Holding.node))
    (hn : c.nodes = retag cm.prefixCache.nodes g) (hc : c.pageSize = cm.prefixCache.pageSize) :
    Owned { cm with prefixCache := c } Y P H where
  size := hc.trans h.size
  pos := h.pos
  locked := hL
  paged := by
    show Paged cm.pageSize c.nodes
    rw [hn]
    exact paged_retag h.paged
  ok := fun x hx => { h.ok x hx with
    reads := by
      show Reads c.nodes _ _
      rw [hn]
      exact reads_retag (h.ok x hx).reads }
  rows := h.rows
  perm := by
    show (_ ++ (_ ++ (bases cm.pageSize c.nodes ++ _))).Perm _
    rw [hn, bases_retag]
    exact h.perm

/-- A new lock on a boundary. -/
theorem pin (h : Owned cm X P H) {c : PrefixCache} {l : NodeRef} {g : RadixTreeNode → NodeData}
    (hl : Boundary cm.prefixCache.nodes l) (hn : c.nodes = retag cm.prefixCache.nodes g)
    (hg : ∀ n ∈ cm.prefixCache.nodes,
      (g n).refCount = n.data.refCount + if n.path <+: l then 1 else 0)
    (hc : c.pageSize = cm.prefixCache.pageSize) :
    Owned { cm with prefixCache := c } (l :: X) P H :=
  h.retagged (hn ▸ h.locked.pin hl hg) hn hc

theorem unpin {l : NodeRef} (h : Owned cm (l :: X) P H) {c : PrefixCache}
    {g : RadixTreeNode → NodeData} (hn : c.nodes = retag cm.prefixCache.nodes g)
    (hg : ∀ n ∈ cm.prefixCache.nodes,
      (g n).refCount = n.data.refCount - if n.path <+: l then 1 else 0)
    (hc : c.pageSize = cm.prefixCache.pageSize) : Owned { cm with prefixCache := c } X P H :=
  h.retagged (hn ▸ h.locked.unpin hg) hn hc

theorem boundary {l : NodeRef} (h : Owned cm (l :: X) P H) : Boundary cm.prefixCache.nodes l :=
  h.locked.bound l List.mem_cons_self

/-! ## The free lists -/

/-- Loose pages go back, to the free list or to the pending list of a lazy region. -/
theorem free {P' : List Nat} (h : Owned cm X P H) (indices : List Nat)
    (hP : P.Perm (stride cm.pageSize indices ++ P')) : Owned (cm.free indices) X P' H := by
  have hmove : ∀ (a b c : List Nat), (a ++ (b ++ (c ++ (P ++
      H.flatMap fun h => h.pages cm.pageSize cm.pageTable)))).Perm
        (CacheManager.pageBases cm.numPages cm.pageSize) →
      (a ++ ((b ++ stride cm.pageSize indices) ++ (c ++ (P' ++
        H.flatMap fun h => h.pages cm.pageSize cm.pageTable)))).Perm
        (CacheManager.pageBases cm.numPages cm.pageSize) := by
    intro a b c hperm
    refine List.Perm.trans (List.Perm.append_left _ ?_) hperm
    rw [List.append_assoc]
    refine List.Perm.append_left _ ((List.perm_append_comm_assoc _ _ _).trans ?_)
    rw [← List.append_assoc (stride _ _)]
    exact (hP.symm.append_right _).append_left _
  unfold CacheManager.free
  cases hz : cm.lazyFreeList with
  | none =>
      refine { h with perm := ?_ }
      have hp := h.perm
      rw [hz] at hp
      have := hmove [] cm.freeSlots (bases cm.pageSize cm.prefixCache.nodes)
        (by simpa using hp)
      simpa [hz] using this
  | some pending =>
      refine { h with perm := ?_ }
      have hp := h.perm
      rw [hz] at hp
      exact hmove _ _ _ hp

/-- The first free pages become loose. -/
theorem takePages (h : Owned cm X P H) (n : Nat) :
    Owned (cm.takePages n).1 X ((cm.takePages n).2 ++ P) H := by
  refine { h with perm := ?_ }
  have hmove : ∀ a d b c e : List Nat,
      (d ++ (b ++ (c ++ (a ++ e)))).Perm ((a ++ d) ++ (b ++ (c ++ e))) := by
    intro a d b c e
    rw [List.perm_iff_count]
    intro x
    simp only [List.count_append]
    omega
  have hp := h.perm
  rw [← List.take_append_drop n cm.freeSlots] at hp
  refine List.Perm.trans ?_ hp
  show ((cm.freeSlots.drop n) ++ (_ ++ (_ ++ ((cm.freeSlots.take n ++ P) ++ _)))).Perm _
  rw [List.append_assoc (cm.freeSlots.take n) P]
  exact hmove _ _ _ _ _

theorem enterLazy (h : Owned cm X P H) (hz : cm.lazyFreeList = none) :
    Owned cm.enterLazyFreeRegion X P H := by
  refine { h with perm := ?_ }
  have := h.perm
  rw [hz] at this
  exact this

theorem exitLazy (h : Owned cm X P H) : Owned cm.exitLazyFreeRegion X P H := by
  refine { h with perm := ?_ }
  show ((cm.freeSlots ++ cm.lazyFreeList.getD []) ++ ([] ++ _)).Perm _
  rw [List.nil_append, List.append_assoc]
  exact h.perm

/-! ## The rows -/

theorem slots_length_dvd {ps : Nat} (hps : 0 < ps) {t : RadixTree} {pt : PageTable} {h : Holding}
    (hok : h.Ok ps t pt) : h.slots ps pt = expand ps (h.pages ps pt) := by
  obtain ⟨pages, hp⟩ := hok.paged
  rw [Holding.pages, hp, stride_expand hps]

/-- Taking a request out of the holdings: its lock stays and its own pages become loose. -/
theorem release {x : Holding} (h : Owned cm X P (x :: H)) :
    Owned cm (x.node :: X) (x.pages cm.pageSize cm.pageTable ++ P) H where
  size := h.size
  pos := h.pos
  locked := h.locked.perm (by simp)
  paged := h.paged
  ok := fun y hy => h.ok y (List.mem_cons_of_mem _ hy)
  rows := (List.nodup_cons.1 h.rows).2
  perm := by
    refine List.Perm.trans ?_ h.perm
    refine List.Perm.append_left _ (List.Perm.append_left _ (List.Perm.append_left _ ?_))
    rw [List.flatMap_cons, List.append_assoc]
    exact List.perm_append_comm_assoc _ _ _

/-- Rewriting a row nobody holds. -/
theorem writeRow (h : Owned cm X P H) (pt : PageTable)
    (hpt : ∀ y ∈ H, ∀ j, pt y.row j = cm.pageTable y.row j) :
    Owned { cm with pageTable := pt } X P H where
  size := h.size
  pos := h.pos
  locked := h.locked
  paged := h.paged
  ok := by
    intro y hy
    have hok := h.ok y hy
    refine ⟨hok.le, hok.reads.congr fun k _ => (hpt y hy k).symm, ?_⟩
    rw [Holding.slots_congr fun j _ => hpt y hy j]
    exact hok.paged
  rows := h.rows
  perm := by
    have : H.flatMap (fun h => h.pages cm.pageSize pt) =
        H.flatMap fun h => h.pages cm.pageSize cm.pageTable :=
      List.flatMap_congr fun y hy => by
        rw [Holding.pages, Holding.pages, Holding.slots_congr fun j _ => hpt y hy j]
    show (_ ++ (_ ++ (_ ++ (_ ++ H.flatMap (fun h => h.pages cm.pageSize pt))))).Perm _
    rw [this]
    exact h.perm

/-- Seating a request: a lock and loose pages become its holding. -/
theorem seat {x : Holding} {P' : List Nat} (h : Owned cm (x.node :: X) P H)
    (hok : x.Ok cm.pageSize cm.prefixCache.nodes cm.pageTable) (hrow : ∀ y ∈ H, y.row ≠ x.row)
    (hP : P.Perm (x.pages cm.pageSize cm.pageTable ++ P')) : Owned cm X P' (x :: H) where
  size := h.size
  pos := h.pos
  locked := h.locked.perm (by simpa using List.perm_middle.symm)
  paged := h.paged
  ok := by
    intro y hy
    rcases List.mem_cons.1 hy with rfl | hy
    · exact hok
    · exact h.ok y hy
  rows := by
    rw [List.map_cons, List.nodup_cons]
    refine ⟨?_, h.rows⟩
    rw [List.mem_map]
    rintro ⟨y, hy, hyx⟩
    exact hrow y hy hyx
  perm := by
    refine List.Perm.trans ?_ h.perm
    refine List.Perm.append_left _ (List.Perm.append_left _ (List.Perm.append_left _ ?_))
    rw [List.flatMap_cons]
    refine (List.perm_append_comm_assoc _ _ _).trans ?_
    rw [← List.append_assoc]
    exact hP.symm.append_right _

/-- The other rows are not this one. -/
theorem row_ne {x : Holding} (h : Owned cm X P (x :: H)) : ∀ y ∈ H, y.row ≠ x.row :=
  fun y hy he => (List.nodup_cons.1 h.rows).1 (List.mem_map.2 ⟨y, hy, he⟩)

end Owned

end FreeToken
