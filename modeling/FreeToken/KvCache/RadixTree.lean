import FreeToken.Core
import FreeToken.Lib.BlockTriePath

/-!
# The shared radix tree

`RadixTreeNode` and the tree operations the three prefix caches share.  The children dictionary of
a node is the set of nodes whose path starts there, keyed by the first page of their edge.
-/

set_option autoImplicit false

namespace FreeToken

open BlockTrie Blocks

structure NodeData where
  refCount : Nat
  timestamp : Nat
  mambaValue : Option Nat
  mambaRefCount : Nat
  swaTombstone : Bool
  swaRefCount : Nat
  swaUuid : Option Nat
  deriving DecidableEq, Repr

abbrev RadixTreeNode := BlockTrie.Node Token Nat NodeData

abbrev RadixTree := List RadixTreeNode

namespace NodeData

def fresh (tic : Nat) : NodeData where
  refCount := 0
  timestamp := tic
  mambaValue := none
  mambaRefCount := 0
  swaTombstone := false
  swaRefCount := 0
  swaUuid := none

/-- The new root-side node of a split: it copies both reference counts, inherits the tombstone, and
takes the window boundary; the snapshot stays with the suffix. -/
def splitPrefix (d : NodeData) : NodeData :=
  { d with mambaValue := none, mambaRefCount := 0 }

def splitSuffix (d : NodeData) : NodeData := { d with swaUuid := none }

end NodeData

namespace RadixTree

/-- `split_at`; the walk only splits strictly inside an edge. -/
def splitAt (t : RadixTree) (node : NodeRef) (pos : Nat) : RadixTree :=
  BlockTrie.split t node pos NodeData.splitPrefix NodeData.splitSuffix

def setData (t : RadixTree) (node : NodeRef) (f : NodeData → NodeData) : RadixTree :=
  BlockTrie.modify t node (fun n => { n with data := f n.data })

def touch (t : RadixTree) (node : NodeRef) (tic : Nat) : RadixTree :=
  t.setData node (fun d => { d with timestamp := tic })

/-- `children.get(key_fn(ids))` of the node that ends at `node`. -/
def childAt (t : RadixTree) (pageSize : Nat) (node : NodeRef) (ids : List Token) :
    Option RadixTreeNode :=
  BlockTrie.child? pageSize t node (ids.take pageSize)

/-- A leaf-heap pop: the first entry with the least timestamp. -/
def heappop (heap : List RadixTreeNode) : Option (RadixTreeNode × List RadixTreeNode) :=
  match heap with
  | [] => none
  | n :: rest =>
      let least := rest.foldl (fun m x => if x.data.timestamp < m.data.timestamp then x else m) n
      some (least, heap.eraseP (fun x => x.path = least.path))

end RadixTree

/-- The state of a prefix cache.  The plain radix cache uses the first pair of counters, the hybrid
cache adds the snapshot counters, the sliding-window cache the window counters and its clocks. -/
structure PrefixCache where
  pageSize : Nat
  nodes : RadixTree
  fullEvictable : Int
  fullProtected : Int
  mambaEvictable : Int
  mambaProtected : Int
  swaEvictable : Int
  swaProtected : Int
  slidingWindowSize : Nat
  clk : Nat
  uuid : Nat
  deriving DecidableEq, Repr

def PrefixCache.empty (pageSize window : Nat) : PrefixCache where
  pageSize := pageSize
  nodes := []
  fullEvictable := 0
  fullProtected := 0
  mambaEvictable := 0
  mambaProtected := 0
  swaEvictable := 0
  swaProtected := 0
  slidingWindowSize := window
  clk := 0
  uuid := 0

namespace PrefixCache

def isFreeLeaf (c : PrefixCache) (node : NodeRef) : Bool :=
  match BlockTrie.node? c.nodes node with
  | none => false
  | some n => BlockTrie.isLeaf c.nodes node && n.data.refCount = 0

/-- The unlocked leaves. -/
def freeLeaves (c : PrefixCache) : List RadixTreeNode :=
  c.nodes.filter (fun n => BlockTrie.isLeaf c.nodes n.path && n.data.refCount = 0)

/-- One node of the walk of a lock towards the root. -/
def pin (c : PrefixCache) (n : RadixTreeNode) : PrefixCache :=
  let c := if n.data.refCount = 0 then
      { c with
        fullEvictable := c.fullEvictable - n.length
        fullProtected := c.fullProtected + n.length }
    else c
  { c with nodes := c.nodes.setData n.path (fun d => { d with refCount := d.refCount + 1 }) }

/-- One node of the walk of an unlock; the count must stay nonnegative. -/
def unpin (c : PrefixCache) (n : RadixTreeNode) : Py PrefixCache := do
  pyAssert (decide (0 < n.data.refCount)) "ref_count >= 0"
  let c := if n.data.refCount = 1 then
      { c with
        fullEvictable := c.fullEvictable + n.length
        fullProtected := c.fullProtected - n.length }
    else c
  return { c with nodes := c.nodes.setData n.path (fun d => { d with refCount := d.refCount - 1 }) }

end PrefixCache

end FreeToken
