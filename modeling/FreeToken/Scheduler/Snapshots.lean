import FreeToken.Scheduler.Geometry
import FreeToken.Scheduler.HybridInvariant
import FreeToken.Scheduler.RadixOwnership

/-!
# A hybrid server in every reachable state

Who owns which page and which state slot, and what the slots hold.
-/

set_option autoImplicit false

namespace FreeToken

open BlockTrie Blocks

/-- The snapshot slots of the tree. -/
def CacheManager.treeSlots (cm : CacheManager) : List Nat :=
  cm.prefixCache.nodes.filterMap fun n => n.data.mambaValue

theorem map_snaps (t : RadixTree) :
    (snaps t).map Prod.snd = t.filterMap fun n => n.data.mambaValue := by
  unfold snaps snapOf
  rw [List.map_filterMap]
  refine List.filterMap_congr fun n _ => ?_
  rw [Option.map_map]
  exact congrFun Option.map_id _

theorem HybridInv.privatePages_eq {cm : CacheManager} {H : List Held} (h : HybridInv cm H) :
    (H.map holding).flatMap (fun x => x.pages cm.pageSize cm.pageTable) =
      H.flatMap cm.privatePages := by
  rw [List.flatMap_map]
  refine List.flatMap_congr fun x hx => ?_
  rw [CacheManager.privatePages, (h.recurrent x hx).handle.len]
  rfl

/-- The state slots a server hands out; slot `0` is the dummy of the kernels. -/
def Config.stateSlots (cfg : Config) : List Nat := List.range' 1 (cfg.numSlots - 1)

/-- A hybrid server of four one-token pages and five state slots. -/
def hybridPages : Config where
  cacheType := .hybridRadix
  numPages := 4
  pageSize := 1
  pageSize_pos := Nat.one_pos
  pageTable := fun _ _ => 0
  maxRunningReqs := 1
  numSlots := 5
  swaNumTokens := 0
  swaPaged := false
  swaPaged_of_radix := by decide
  slidingWindowSize := 1
  window_pos := Nat.one_pos
  swaEvictionInterval := 1
  clock := fun n => n

/-- A request that samples one token. -/
def promptOf (uid : Nat) (ids : List Token) : PendingReq where
  uid := uid
  inputIds := ids
  samplingParams := { ignoreEos := false, maxTokens := 1, stopStrs := [] }
  hasMm := false
  chunkedReq := none

/-- A second prompt hits the prefix that the first one left. -/
def prefixHit : List Action :=
  [.tryAdd { tokenBudget := 8, reservedSize := 0, reservedSwa := 0 } (promptOf 0 [7, 8]),
    .preparePrefill 0, .forward, .finish 0,
    .tryAdd { tokenBudget := 8, reservedSize := 0, reservedSwa := 0 } (promptOf 1 [7, 8, 9]),
    .preparePrefill 1]

/-- The state slots as the forward of the `i`-th request of a batch finds them. -/
def poolAt (env : Env) (cm : CacheManager) (phase : Phase) (batch : List (Req × Option Track))
    (i : Nat) : LinearStatePool :=
  (forwardReqs env (readyBatch env cm phase batch).1
    ((readyBatch env cm phase batch).2.take i)).1.linearStatePool

/-- Every request of a ready batch starts from the state of its computed prefix. -/
theorem HybridInv.starts {env : Env} {cm : CacheManager} {phase : Phase}
    {batch : List (Req × Option Track)} {R : List Held} {i : Nat} {r : Req} {tr : Option Track}
    (hs : ∀ x ∈ launched phase batch, Shape x) (h : HybridInv cm (launched phase batch ++ R))
    (hi : (readyBatch env cm phase batch).2[i]? = some (r, tr)) : ∃ live,
      r.linearSlotIdx = some live ∧ Shape (r, .prepared phase tr) ∧
        initialState (poolAt env cm phase batch i) r live = r.deviceIds.take r.cachedLen := by
  obtain ⟨hready, hshape, hnone⟩ := h.ready env hs
  unfold poolAt
  generalize readyBatch env cm phase batch = x at hi hready hshape hnone ⊢
  obtain ⟨cm₁, b⟩ := x
  dsimp only at hi hready hshape hnone ⊢
  have hmem : (r, tr) ∈ b := List.mem_of_getElem? hi
  -- the requests before the `i`-th have run, the others wait
  have hsplit : launched phase b ++ R = launched phase (b.take i) ++
      (launched phase (b.drop i) ++ R) := by
    rw [← List.append_assoc, launched, launched, launched, ← List.map_append,
      List.take_append_drop]
  rw [hsplit] at hready
  have hsub : ∀ y ∈ b.take i, y ∈ b := fun y hy => List.mem_of_mem_take hy
  have hrun := hready.forwardReqs_step env
    (fun y hy => by
      obtain ⟨z, hz, rfl⟩ := List.mem_map.1 hy
      exact hshape _ (List.mem_map_of_mem (hsub z hz)))
    (fun y hy => hnone y (hsub y hy))
  have hdrop : (r, tr) ∈ b.drop i := by
    refine List.mem_of_getElem? (i := 0) ?_
    rw [List.getElem?_drop, Nat.add_zero]
    exact hi
  have hrec := hrun.recurrent (r, .prepared phase tr)
    (List.mem_append_right _ (List.mem_append_left _ (List.mem_map_of_mem hdrop)))
  obtain ⟨live, hlive⟩ := Option.isSome_iff_exists.1 hrec.slots.1
  exact ⟨live, hlive, hshape _ (List.mem_map_of_mem hmem),
    hrec.initialState_eq (hnone _ hmem) hlive⟩

end FreeToken
