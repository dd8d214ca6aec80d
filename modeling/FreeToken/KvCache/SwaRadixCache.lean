import FreeToken.KvCache.RadixTree

/-!
# The sliding-window radix cache

`SWARadixCache`: the full-pool index of a token is canonical in the tree, its sliding-window KV is
reached through the pool's mapping.  A node whose window KV was freed is a tombstone; a lock pins
the whole path and the trailing window of live tokens.
-/

set_option autoImplicit false

namespace FreeToken

open BlockTrie Blocks

structure SwaMatch where
  kvIndices : List Nat
  cachedLen : Nat
  node : NodeRef

structure SwaEvictResult where
  kvIndices : List Nat
  swaIndices : List Nat

namespace SwaRadixCache

/-- The event id of a match or insert leaves this much room for per-node offsets. -/
def eventStride : Nat := 2 ^ 24

def tick (c : PrefixCache) : PrefixCache × Nat :=
  ({ c with clk := c.clk + 1 }, (c.clk + 1) * eventStride)

/-- `_stamp_path`: decreasing timestamps from `node` towards the root. -/
def stampPath (c : PrefixCache) (node : NodeRef) : PrefixCache :=
  let base := (c.clk + 1) * eventStride
  let nodes := (BlockTrie.chain c.nodes node).zipIdx.foldl
    (fun t nd => t.touch nd.1.path (base - nd.2)) c.nodes
  { c with clk := c.clk + 1, nodes := nodes }

/-- The walk's state in `match_prefix`: the tokens and KV matched, the length of the live run
since the last tombstone (`none` before any), and the best windowed-safe boundary so far. -/
structure MatchState where
  nodes : RadixTree
  prefixPos : Nat
  value : List Nat
  matchSinceTomb : Option Nat
  bestValue : List Nat
  bestNode : NodeRef

namespace MatchState

def coversWindow (s : MatchState) (window : Nat) : Bool :=
  match s.matchSinceTomb with
  | none => true
  | some run => window ≤ run

/-- Take the boundary reached so far as the best one if its live run covers the window. -/
def commitBest (s : MatchState) (window : Nat) (ids : List Token) : MatchState :=
  if s.coversWindow window then
    { s with bestValue := s.value, bestNode := ids.take s.prefixPos }
  else s

/-- Append a matched segment. -/
def advance (s : MatchState) (segment : List Nat) (tombstone : Bool) : MatchState :=
  { s with
    prefixPos := s.prefixPos + segment.length
    value := s.value ++ segment
    matchSinceTomb :=
      if tombstone then s.matchSinceTomb else s.matchSinceTomb.map (· + segment.length) }

end MatchState

def matchLoop (pageSize window : Nat) (ids : List Token) : Nat → MatchState → MatchState
  | 0, s => s
  | fuel + 1, s =>
      if s.prefixPos < ids.length then
        match s.nodes.childAt pageSize (ids.take s.prefixPos) (ids.drop s.prefixPos) with
        | none => s
        | some child =>
            let s := if child.data.swaTombstone then
                { s.commitBest window ids with matchSinceTomb := some 0 }
              else s
            let matchLen := alignDown (commonLength child.key (ids.drop s.prefixPos)) pageSize
            if matchLen = 0 then s
            else if matchLen < child.length then
              let s := { s with nodes := s.nodes.splitAt child.path matchLen }
              s.advance (child.value.take matchLen) child.data.swaTombstone
            else
              matchLoop pageSize window ids fuel (s.advance child.value child.data.swaTombstone)
      else s

def matchPrefix (c : PrefixCache) (ids : List Token) : PrefixCache × SwaMatch :=
  let s := matchLoop c.pageSize c.slidingWindowSize ids ids.length
    { nodes := c.nodes, prefixPos := 0, value := [], matchSinceTomb := none, bestValue := [],
      bestNode := [] }
  let s := s.commitBest c.slidingWindowSize ids
  let c := stampPath { c with nodes := s.nodes } s.bestNode
  (c, { kvIndices := s.bestValue, cachedLen := s.bestValue.length, node := s.bestNode })

/-- Adopt the request's live slots into a tombstoned node. -/
def revive (c : PrefixCache) (node : NodeRef) (kv : List Nat) : PrefixCache :=
  let (c, now) := tick c
  { c with
    nodes := BlockTrie.modify c.nodes node (fun n =>
      { n with value := kv, data := { n.data with swaTombstone := false, timestamp := now } })
    swaEvictable := c.swaEvictable + kv.length }

/-- The reconcile of one matched span `[total, total + matchLen)`, whose node is `child`. -/
def reconcile (c : PrefixCache) (child : RadixTreeNode) (segKv : List Nat)
    (swaEvictedSeqlen total matchLen : Nat) (freed : List Nat) : Py (PrefixCache × List Nat) :=
  if child.data.swaTombstone then do
    pyAssert (decide (child.data.swaRefCount = 0)) "a tombstoned node cannot hold a swa lock"
    if 0 < child.data.refCount then
      -- a full-locked reader still gathers the node's current slots
      return (c, freed ++ segKv)
    else if swaEvictedSeqlen ≤ total then
      return (revive c child.path segKv, freed ++ child.value)
    else if swaEvictedSeqlen < total + matchLen then
      let start := swaEvictedSeqlen - total
      let c := { c with nodes := c.nodes.splitAt child.path start }
      return (revive c child.path (segKv.drop start),
        freed ++ child.value.drop start ++ segKv.take start)
    else
      return (c, freed ++ segKv)
  else
    return (c, freed ++ segKv)

/-- The node `split_at` returns: the head of `child` up to `matchLen`. -/
def splitHead (child : RadixTreeNode) (matchLen : Nat) : RadixTreeNode :=
  { child with
    key := child.key.take matchLen
    value := child.value.take matchLen
    data := child.data.splitPrefix }

/-- The walk of `insert` over the matched part of the prefix. -/
def insertLoop (ids : List Token) (kvIndices : List Nat)
    (swaEvictedSeqlen updateKvAfterLen : Nat) :
    Nat → PrefixCache → Nat → List Nat → Py (PrefixCache × Nat × List Nat)
  | 0, c, total, freed => .ok (c, total, freed)
  | fuel + 1, c, total, freed =>
      if total < ids.length then
        match c.nodes.childAt c.pageSize (ids.take total) (ids.drop total) with
        | none => .ok (c, total, freed)
        | some child =>
            let matchLen := alignDown (commonLength child.key (ids.drop total)) c.pageSize
            if matchLen = 0 then .ok (c, total, freed)
            else
              let isPartial := decide (matchLen < child.length)
              let head := if isPartial then splitHead child matchLen else child
              let c := if isPartial then
                  { c with nodes := c.nodes.splitAt child.path matchLen }
                else c
              let segKv := (kvIndices.drop total).take matchLen
              match (if updateKvAfterLen < total + matchLen then
                  reconcile c head segKv swaEvictedSeqlen total matchLen freed
                else .ok (c, freed)) with
              | .error e => .error e
              | .ok (c, freed) =>
                  if isPartial then .ok (c, total + matchLen, freed)
                  else insertLoop ids kvIndices swaEvictedSeqlen updateKvAfterLen fuel c
                    (total + matchLen) freed
      else .ok (c, total, freed)

def addChild (c : PrefixCache) (parent : NodeRef) (ids : List Token) (kv : List Nat)
    (tombstone : Bool) : PrefixCache :=
  let (c, now) := tick c
  let child : RadixTreeNode :=
    { pre := parent, key := ids, value := kv,
      data := { NodeData.fresh now with swaTombstone := tombstone } }
  { c with
    nodes := BlockTrie.graft c.nodes child
    fullEvictable := c.fullEvictable + child.length
    swaEvictable := if tombstone then c.swaEvictable else c.swaEvictable + child.length }

/-- The part of the prefix that is not in the tree yet: a tombstone up to the request's own free
frontier, then a live leaf. -/
def insertSuffix (c : PrefixCache) (ids : List Token) (kvIndices : List Nat)
    (swaEvictedSeqlen total : Nat) : PrefixCache :=
  if total < ids.length then
    let suffixIds := ids.drop total
    let suffixKv := kvIndices.drop total
    let boundary := min swaEvictedSeqlen ids.length - total
    let boundary := min boundary (suffixIds.length - c.pageSize)
    let c := if 0 < boundary then
        addChild c (ids.take total) (suffixIds.take boundary) (suffixKv.take boundary) true
      else c
    if boundary < suffixIds.length then
      addChild c (ids.take (total + boundary)) (suffixIds.drop boundary) (suffixKv.drop boundary)
        false
    else c
  else c

def insert (c : PrefixCache) (ids : List Token) (kvIndices : List Nat)
    (swaEvictedSeqlen updateKvAfterLen : Nat) : Py (PrefixCache × Nat × List Nat) := do
  let insertLen := alignDown ids.length c.pageSize
  let ids := ids.take insertLen
  let kvIndices := kvIndices.take insertLen
  let (c, total, freed) ←
    insertLoop ids kvIndices swaEvictedSeqlen updateKvAfterLen ids.length c 0 []
  return (insertSuffix c ids kvIndices swaEvictedSeqlen total, total, freed)

/-- One node of `inc_lock`'s walk up: the KV pin, and the window pin while the window is not yet
covered.  Returns the tokens pinned so far and the boundary recorded. -/
def incLockStep (s : PrefixCache × Nat × Option Nat) (n : RadixTreeNode) :
    PrefixCache × Nat × Option Nat :=
  let (c, swaLocked, swaUuid) := s
  let c := c.pin n
  if swaLocked < c.slidingWindowSize && !n.data.swaTombstone then
    let c := if n.data.swaRefCount = 0 then
        { c with
          swaEvictable := c.swaEvictable - n.length
          swaProtected := c.swaProtected + n.length }
      else c
    let c := { c with
      nodes := c.nodes.setData n.path (fun d => { d with swaRefCount := d.swaRefCount + 1 }) }
    let swaLocked := swaLocked + n.length
    if c.slidingWindowSize ≤ swaLocked then
      match n.data.swaUuid with
      | some u => (c, swaLocked, some u)
      | none =>
          ({ c with
              uuid := c.uuid + 1
              nodes := c.nodes.setData n.path (fun d => { d with swaUuid := some (c.uuid + 1) }) },
            swaLocked, some (c.uuid + 1))
    else (c, swaLocked, swaUuid)
  else (c, swaLocked, swaUuid)

def incLock (c : PrefixCache) (node : NodeRef) : PrefixCache × Option Nat :=
  let (c, _, swaUuid) := (BlockTrie.chain c.nodes node).foldl incLockStep (c, 0, none)
  (c, swaUuid)

/-- One node of `dec_lock`'s walk up; the flag says the window part is still to be released. -/
def decLockStep (swaUuid : Option Nat) (s : PrefixCache × Bool) (n : RadixTreeNode) :
    Py (PrefixCache × Bool) := do
  let c ← s.1.unpin n
  if s.2 && !n.data.swaTombstone && 0 < n.data.swaRefCount then
    let c := { c with
      nodes := c.nodes.setData n.path (fun d => { d with swaRefCount := d.swaRefCount - 1 }) }
    let c := if n.data.swaRefCount = 1 then
        { c with
          swaEvictable := c.swaEvictable + n.length
          swaProtected := c.swaProtected - n.length }
      else c
    return (c, !(swaUuid.isSome && n.data.swaUuid = swaUuid))
  else return (c, s.2)

def decLock (c : PrefixCache) (node : NodeRef) (swaUuid : Option Nat) : Py PrefixCache := do
  let (c, _) ← (BlockTrie.chain c.nodes node).foldlM (decLockStep swaUuid) (c, true)
  return c

/-- `_cascade_swa_tombstone_leaves`: reclaim the tombstoned unlocked leaves an unlink exposed. -/
def cascadeSwaTombstoneLeaves : Nat → PrefixCache → NodeRef → List Nat → Nat →
    PrefixCache × NodeRef × List Nat × Nat
  | 0, c, parent, kv, freed => (c, parent, kv, freed)
  | fuel + 1, c, parent, kv, freed =>
      match BlockTrie.node? c.nodes parent with
      | none => (c, parent, kv, freed)
      | some p =>
          if p.data.swaTombstone && BlockTrie.isLeaf c.nodes parent && p.data.refCount = 0 then
            cascadeSwaTombstoneLeaves fuel
              { c with
                fullEvictable := c.fullEvictable - p.length
                nodes := BlockTrie.prune c.nodes parent }
              p.pre (kv ++ p.value) (freed + p.length)
          else (c, parent, kv, freed)

def evictFullLoop (numTokens : Nat) : Nat → List RadixTreeNode → Nat → PrefixCache →
    SwaEvictResult → PrefixCache × SwaEvictResult
  | 0, _, _, c, out => (c, out)
  | fuel + 1, heap, freed, c, out =>
      if freed < numTokens then
        match RadixTree.heappop heap with
        | none => (c, out)
        | some (node, heap) =>
            match BlockTrie.node? c.nodes node.path with
            | none => evictFullLoop numTokens fuel heap freed c out
            | some node =>
                if node.data.refCount ≠ 0 || !BlockTrie.isLeaf c.nodes node.path then
                  evictFullLoop numTokens fuel heap freed c out
                else
                  let swa := if node.data.swaTombstone then out.swaIndices
                    else out.swaIndices ++ node.value
                  let c := { c with
                    fullEvictable := c.fullEvictable - node.length
                    swaEvictable := if node.data.swaTombstone then c.swaEvictable
                      else c.swaEvictable - node.length
                    nodes := BlockTrie.prune c.nodes node.path }
                  let (c, parent, kv, casc) := cascadeSwaTombstoneLeaves c.nodes.length c node.pre
                    (out.kvIndices ++ node.value) 0
                  let heap := match BlockTrie.node? c.nodes parent with
                    | none => heap
                    | some p =>
                        if BlockTrie.isLeaf c.nodes parent && p.data.refCount = 0 then p :: heap
                        else heap
                  evictFullLoop numTokens fuel heap (freed + node.length + casc) c
                    { kvIndices := kv, swaIndices := swa }
      else (c, out)

/-- `evict_full`: a node enters the heap at most once, as a leaf or when its last child goes. -/
def evictFull (c : PrefixCache) (numTokens : Nat) : PrefixCache × SwaEvictResult :=
  evictFullLoop numTokens c.nodes.length c.freeLeaves 0 c { kvIndices := [], swaIndices := [] }

def evictSwaLoop (numTokens : Nat) : Nat → List RadixTreeNode → Nat → PrefixCache →
    SwaEvictResult → PrefixCache × SwaEvictResult
  | 0, _, _, c, out => (c, out)
  | fuel + 1, heap, freed, c, out =>
      if freed < numTokens then
        match RadixTree.heappop heap with
        | none => (c, out)
        | some (node, heap) =>
            match BlockTrie.node? c.nodes node.path with
            | none => evictSwaLoop numTokens fuel heap freed c out
            | some node =>
                if node.data.swaTombstone || node.data.swaRefCount ≠ 0 then
                  evictSwaLoop numTokens fuel heap freed c out
                else if BlockTrie.isLeaf c.nodes node.path && node.data.refCount = 0 then
                  let c := { c with
                    fullEvictable := c.fullEvictable - node.length
                    swaEvictable := c.swaEvictable - node.length
                    nodes := BlockTrie.prune c.nodes node.path }
                  let (c, _, kv, _) := cascadeSwaTombstoneLeaves c.nodes.length c node.pre
                    (out.kvIndices ++ node.value) 0
                  evictSwaLoop numTokens fuel heap (freed + node.length) c
                    { kvIndices := kv, swaIndices := out.swaIndices ++ node.value }
                else
                  -- an internal node or a full-locked leaf keeps its KV
                  let c := { c with
                    swaEvictable := c.swaEvictable - node.length
                    nodes := c.nodes.setData node.path (fun d => { d with swaTombstone := true }) }
                  evictSwaLoop numTokens fuel heap (freed + node.length) c
                    { out with swaIndices := out.swaIndices ++ node.value }
      else (c, out)

def evictSwa (c : PrefixCache) (numTokens : Nat) : PrefixCache × SwaEvictResult :=
  let cands := c.nodes.filter (fun n => !n.data.swaTombstone && n.data.swaRefCount = 0)
  evictSwaLoop numTokens c.nodes.length cands 0 c { kvIndices := [], swaIndices := [] }

def trimHeadLoop (ids : List Token) (keepFrom : Nat) : Nat → PrefixCache → Nat → List Nat →
    PrefixCache × List Nat
  | 0, c, _, freed => (c, freed)
  | fuel + 1, c, pos, freed =>
      if pos < keepFrom then
        match c.nodes.childAt c.pageSize (ids.take pos) (ids.drop pos) with
        | none => (c, freed)
        | some child =>
            if keepFrom < pos + child.length then (c, freed)
            else if !child.data.swaTombstone && child.data.swaRefCount = 0
                && !BlockTrie.isLeaf c.nodes child.path then
              trimHeadLoop ids keepFrom fuel
                { c with
                  swaEvictable := c.swaEvictable - child.length
                  nodes := c.nodes.setData child.path (fun d => { d with swaTombstone := true }) }
                (pos + child.length) (freed ++ child.value)
            else trimHeadLoop ids keepFrom fuel c (pos + child.length) freed
      else (c, freed)

/-- `trim_head_swa`: tombstone the unlocked inner nodes of the path below `keepFrom`. -/
def trimHeadSwa (c : PrefixCache) (ids : List Token) (keepFrom : Nat) :
    PrefixCache × List Nat :=
  if keepFrom = 0 then (c, [])
  else
    let (c, _) := matchPrefix c (ids.take keepFrom)
    trimHeadLoop ids keepFrom keepFrom c 0 []

end SwaRadixCache

end FreeToken
