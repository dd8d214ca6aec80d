import FreeToken.KvCache.RadixTree

/-!
# The plain radix prefix cache

`RadixPrefixCache`: match, insert, lock and evict over the shared tree.
-/

set_option autoImplicit false

namespace FreeToken

open BlockTrie Blocks

namespace RadixPrefixCache

/-- `_tree_walk` from the boundary `ids[:prefixLen]`; every round consumes at least one page, so the
length of `ids` bounds the number of rounds. -/
def treeWalkAux (pageSize : Nat) (ids : List Token) (tic : Nat) :
    Nat → RadixTree → Nat → RadixTree × Nat
  | 0, t, prefixLen => (t, prefixLen)
  | fuel + 1, t, prefixLen =>
      if prefixLen < ids.length then
        match t.childAt pageSize (ids.take prefixLen) (ids.drop prefixLen) with
        | none => (t, prefixLen)
        | some child =>
            let matchLen := alignDown (commonLength child.key (ids.drop prefixLen)) pageSize
            if matchLen ≠ child.length then
              let t := t.splitAt child.path matchLen
              (t.touch (ids.take (prefixLen + matchLen)) tic, prefixLen + matchLen)
            else
              treeWalkAux pageSize ids tic fuel (t.touch child.path tic) (prefixLen + matchLen)
      else (t, prefixLen)

def treeWalk (c : PrefixCache) (ids : List Token) (tic : Nat) : PrefixCache × Nat :=
  let (t, prefixLen) := treeWalkAux c.pageSize ids tic ids.length c.nodes 0
  ({ c with nodes := t }, prefixLen)

/-- `RadixCacheHandle.get_matched_indices`: the values from the root down to the handle's node.  It
is read of non-empty matches only: at the root there is nothing to concatenate, which torch refuses. -/
def getMatchedIndices (c : PrefixCache) (h : CacheHandle) : List Nat :=
  BlockTrie.pathValues c.nodes h.node

def matchPrefix (c : PrefixCache) (ids : List Token) (tic : Nat) : PrefixCache × CacheHandle :=
  let (c, prefixLen) := treeWalk c ids tic
  (c, { cachedLen := prefixLen, node := ids.take prefixLen, kvIndices := [], swaUuid := none })

/-- Hang the keys past a walk's end below it, as one node of the indices given. -/
def hangSuffix (c : PrefixCache) (ids : List Token) (indices : List Nat) (prefixLen tic : Nat) :
    PrefixCache :=
  if prefixLen ≠ ids.length then
    let newNode : RadixTreeNode :=
      { pre := ids.take prefixLen, key := ids.drop prefixLen,
        value := indices.drop prefixLen, data := NodeData.fresh tic }
    { c with
      nodes := BlockTrie.graft c.nodes newNode
      fullEvictable := c.fullEvictable + newNode.length }
  else c

/-- `insert_prefix`; a new node reads the clock again, after the walk. -/
def insertPrefix (c : PrefixCache) (ids : List Token) (indices : List Nat) (tic newTic : Nat) :
    PrefixCache × Nat × CacheHandle :=
  let insertLen := alignDown ids.length c.pageSize
  let ids := ids.take insertLen
  let indices := indices.take insertLen
  let (c, prefixLen) := treeWalk c ids tic
  (hangSuffix c ids indices prefixLen newTic, prefixLen,
    { cachedLen := insertLen, node := ids, kvIndices := [], swaUuid := none })

def lockHandle (c : PrefixCache) (h : CacheHandle) : PrefixCache :=
  (BlockTrie.chain c.nodes h.node).foldl PrefixCache.pin c

def unlockHandle (c : PrefixCache) (h : CacheHandle) : Py PrefixCache :=
  (BlockTrie.chain c.nodes h.node).foldlM PrefixCache.unpin c

/-- The eviction loop.  Each round removes a node, so their number bounds the rounds; with none left
the heap is empty and the loop's assertion fires. -/
def evictLoop (size : Nat) : Nat → List RadixTreeNode → Nat → List Nat → PrefixCache →
    Py (PrefixCache × List Nat)
  | 0, _, evictedSize, evicted, c =>
      if evictedSize < size then .error (.cannotEvictEnough size evictedSize) else .ok (c, evicted)
  | fuel + 1, heap, evictedSize, evicted, c =>
      if evictedSize < size then
        match RadixTree.heappop heap with
        | none => .error (.cannotEvictEnough size evictedSize)
        | some (node, heap) =>
            if c.isFreeLeaf node.path then
              let c := { c with
                fullEvictable := c.fullEvictable - node.length
                nodes := BlockTrie.prune c.nodes node.path }
              let heap := match BlockTrie.node? c.nodes node.pre with
                | none => heap
                | some parent =>
                    if BlockTrie.isLeaf c.nodes parent.path && parent.data.refCount = 0 then
                      parent :: heap
                    else heap
              evictLoop size fuel heap (evictedSize + node.length) (evicted ++ node.value) c
            else .error (.assertion "node.ref_count == 0 and node.is_leaf() and not node.is_root()")
      else .ok (c, evicted)

def evict (c : PrefixCache) (size : Nat) : Py (PrefixCache × List Nat) :=
  if size = 0 then .ok (c, [])
  else if (size : Int) ≤ c.fullEvictable then
    evictLoop size c.nodes.length c.freeLeaves 0 [] c
  else .error (.cannotEvict size c.fullEvictable)

end RadixPrefixCache

end FreeToken
