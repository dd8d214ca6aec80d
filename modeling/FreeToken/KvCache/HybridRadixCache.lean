import FreeToken.KvCache.RadixCache

/-!
# The hybrid radix cache

`HybridRadixCache`: KV pages plus an optional recurrent-state snapshot per node, with one eviction
for each currency.
-/

set_option autoImplicit false

namespace FreeToken

open BlockTrie Blocks

structure HybridMatch where
  kvIndices : List Nat
  cachedLen : Nat
  mambaValue : Option Nat
  node : NodeRef

structure EvictResult where
  kvIndices : List Nat
  mambaSlots : List Nat

namespace HybridRadixCache

/-- `_walk` is the plain cache's walk. -/
def walk (c : PrefixCache) (ids : List Token) (tic : Nat) : PrefixCache × Nat :=
  RadixPrefixCache.treeWalk c ids tic

/-- The walk up to the deepest node with a live snapshot; a node's end is as long as its path. -/
def deepestSnapshot : List RadixTreeNode → Option (RadixTreeNode × Nat)
  | [] => none
  | n :: up =>
      match n.data.mambaValue with
      | some slot => some (n, slot)
      | none => deepestSnapshot up

def matchPrefix (c : PrefixCache) (ids : List Token) (tic : Nat) : PrefixCache × HybridMatch :=
  let (c, prefixLen) := walk c ids tic
  match deepestSnapshot (BlockTrie.chain c.nodes (ids.take prefixLen)) with
  | some (cur, slot) =>
      (c, { kvIndices := BlockTrie.pathValues c.nodes cur.path, cachedLen := cur.path.length,
            mambaValue := some slot, node := cur.path })
  | none => (c, { kvIndices := [], cachedLen := 0, mambaValue := none, node := [] })

/-- Donate a snapshot to the node at the end of an insert; `true` says the node kept what it had. -/
def donate (c : PrefixCache) (ids : List Token) (mambaValue : Nat) : PrefixCache × Bool :=
  match BlockTrie.node? c.nodes ids with
  | none => (c, true)
  | some node =>
      if node.data.mambaValue.isSome then (c, true)
      else
        ({ c with
            nodes := c.nodes.setData ids (fun d => { d with mambaValue := some mambaValue })
            mambaEvictable :=
              if node.data.mambaRefCount = 0 then c.mambaEvictable + 1 else c.mambaEvictable },
          false)

/-- `insert`: commit the KV prefix and donate the snapshot at its end; after `true` the caller frees
the donated slot. -/
def insert (c : PrefixCache) (ids : List Token) (kvIndices : List Nat)
    (mambaValue tic newTic : Nat) : PrefixCache × Nat × Bool :=
  let insertLen := alignDown ids.length c.pageSize
  let ids := ids.take insertLen
  let kvIndices := kvIndices.take insertLen
  let (c, prefixLen) := walk c ids tic
  let (c, mambaExist) :=
    donate (RadixPrefixCache.hangSuffix c ids kvIndices prefixLen newTic) ids mambaValue
  (c, prefixLen, mambaExist)

/-- The snapshot part of `inc_lock`. -/
def pinSnapshot (c : PrefixCache) (node : NodeRef) : PrefixCache :=
  match BlockTrie.node? c.nodes node with
  | none => c
  | some n =>
      if n.data.mambaValue.isSome then
        let c := if n.data.mambaRefCount = 0 then
            { c with
              mambaEvictable := c.mambaEvictable - 1
              mambaProtected := c.mambaProtected + 1 }
          else c
        { c with
          nodes := c.nodes.setData node
            (fun d => { d with mambaRefCount := d.mambaRefCount + 1 }) }
      else c

def incLock (c : PrefixCache) (node : NodeRef) : PrefixCache :=
  let c := pinSnapshot c node
  (BlockTrie.chain c.nodes node).foldl PrefixCache.pin c

/-- The snapshot part of `dec_lock`. -/
def unpinSnapshot (c : PrefixCache) (node : NodeRef) : PrefixCache :=
  match BlockTrie.node? c.nodes node with
  | none => c
  | some n =>
      if n.data.mambaValue.isSome && 0 < n.data.mambaRefCount then
        let c := if n.data.mambaRefCount = 1 then
            { c with
              mambaEvictable := c.mambaEvictable + 1
              mambaProtected := c.mambaProtected - 1 }
          else c
        { c with
          nodes := c.nodes.setData node
            (fun d => { d with mambaRefCount := d.mambaRefCount - 1 }) }
      else c

def decLock (c : PrefixCache) (node : NodeRef) : Py PrefixCache :=
  let c := unpinSnapshot c node
  (BlockTrie.chain c.nodes node).foldlM PrefixCache.unpin c

/-- `_free_node_mamba`: drop a node's snapshot and report its slot. -/
def freeNodeMamba (c : PrefixCache) (node : RadixTreeNode) (out : List Nat) :
    PrefixCache × List Nat :=
  match node.data.mambaValue with
  | none => (c, out)
  | some slot =>
      ({ c with
          nodes := c.nodes.setData node.path (fun d => { d with mambaValue := none })
          mambaEvictable :=
            if node.data.mambaRefCount = 0 then c.mambaEvictable - 1 else c.mambaEvictable },
        out ++ [slot])

/-- `_cascade_tombstone_leaves` from the node `parent`: reclaim the snapshot-less unlocked leaves an
unlink exposed.  Returns the highest survivor and the number of tokens freed. -/
def cascadeTombstoneLeaves : Nat → PrefixCache → NodeRef → List Nat → Nat →
    PrefixCache × NodeRef × List Nat × Nat
  | 0, c, parent, kv, freed => (c, parent, kv, freed)
  | fuel + 1, c, parent, kv, freed =>
      match BlockTrie.node? c.nodes parent with
      | none => (c, parent, kv, freed)
      | some p =>
          if p.data.mambaValue.isNone && BlockTrie.isLeaf c.nodes parent
              && p.data.refCount = 0 then
            cascadeTombstoneLeaves fuel
              { c with
                fullEvictable := c.fullEvictable - p.length
                nodes := BlockTrie.prune c.nodes parent }
              p.pre (kv ++ p.value) (freed + p.length)
          else (c, parent, kv, freed)

def evictFullLoop (numTokens : Nat) : Nat → List RadixTreeNode → Nat → PrefixCache →
    EvictResult → PrefixCache × EvictResult
  | 0, _, _, c, out => (c, out)
  | fuel + 1, heap, freed, c, out =>
      if freed < numTokens then
        match RadixTree.heappop heap with
        | none => (c, out)
        | some (node, heap) =>
            match BlockTrie.node? c.nodes node.path with
            | none => evictFullLoop numTokens fuel heap freed c out
            | some node =>
                if node.data.refCount ≠ 0 || !BlockTrie.isLeaf c.nodes node.path then
                  evictFullLoop numTokens fuel heap freed c out
                else
                  let c := { c with fullEvictable := c.fullEvictable - node.length }
                  let (c, mamba) := freeNodeMamba c node out.mambaSlots
                  let c := { c with nodes := BlockTrie.prune c.nodes node.path }
                  let (c, parent, kv, casc) := cascadeTombstoneLeaves c.nodes.length c node.pre
                    (out.kvIndices ++ node.value) 0
                  let heap := match BlockTrie.node? c.nodes parent with
                    | none => heap
                    | some p =>
                        if BlockTrie.isLeaf c.nodes parent && p.data.refCount = 0 then p :: heap
                        else heap
                  evictFullLoop numTokens fuel heap (freed + node.length + casc) c
                    { kvIndices := kv, mambaSlots := mamba }
      else (c, out)

/-- `evict_full`: a node enters the heap at most once, as a leaf or when its last child goes. -/
def evictFull (c : PrefixCache) (numTokens : Nat) : PrefixCache × EvictResult :=
  evictFullLoop numTokens c.nodes.length c.freeLeaves 0 c { kvIndices := [], mambaSlots := [] }

def evictMambaLoop (num : Nat) : Nat → List RadixTreeNode → Nat → PrefixCache →
    EvictResult → PrefixCache × EvictResult
  | 0, _, _, c, out => (c, out)
  | fuel + 1, heap, freed, c, out =>
      if freed < num then
        match RadixTree.heappop heap with
        | none => (c, out)
        | some (node, heap) =>
            match BlockTrie.node? c.nodes node.path with
            | none => evictMambaLoop num fuel heap freed c out
            | some node =>
                if node.data.mambaValue.isNone || node.data.mambaRefCount ≠ 0 then
                  evictMambaLoop num fuel heap freed c out
                else if BlockTrie.isLeaf c.nodes node.path && node.data.refCount = 0 then
                  let c := { c with fullEvictable := c.fullEvictable - node.length }
                  let (c, mamba) := freeNodeMamba c node out.mambaSlots
                  let c := { c with nodes := BlockTrie.prune c.nodes node.path }
                  let (c, _, kv, _) := cascadeTombstoneLeaves c.nodes.length c node.pre
                    (out.kvIndices ++ node.value) 0
                  evictMambaLoop num fuel heap (freed + 1) c { kvIndices := kv, mambaSlots := mamba }
                else
                  let (c, mamba) := freeNodeMamba c node out.mambaSlots
                  evictMambaLoop num fuel heap (freed + 1) c { out with mambaSlots := mamba }
      else (c, out)

def evictMamba (c : PrefixCache) (num : Nat) : PrefixCache × EvictResult :=
  let cands := c.nodes.filter (fun n => n.data.mambaValue.isSome && n.data.mambaRefCount = 0)
  evictMambaLoop num c.nodes.length cands 0 c { kvIndices := [], mambaSlots := [] }

end HybridRadixCache

end FreeToken
