import FreeToken.Scheduler.Invariant
import FreeToken.Scheduler.Paging

/-!
# What no call changes

The sizes of the pools, and that pages wait on a pending list only inside a lazy region.
-/

set_option autoImplicit false

namespace FreeToken

open BlockTrie Blocks

/-- The pools keep their sizes, and no pending list is opened. -/
structure Steady (cm cm' : CacheManager) : Prop where
  numPages : cm'.numPages = cm.numPages
  pageSize : cm'.pageSize = cm.pageSize
  numSlots : cm'.linearStatePool.numSlots = cm.linearStatePool.numSlots
  lazy : cm.lazyFreeList = none → cm'.lazyFreeList = none

namespace Steady

variable {cm cm' : CacheManager}

theorem refl (cm : CacheManager) : Steady cm cm := ⟨rfl, rfl, rfl, id⟩

theorem trans {a b c : CacheManager} (h : Steady a b) (h' : Steady b c) : Steady a c :=
  ⟨h'.numPages.trans h.numPages, h'.pageSize.trans h.pageSize, h'.numSlots.trans h.numSlots, fun hz => h'.lazy (h.lazy hz)⟩

/-- The tree, the rows and the window pool may change. -/
theorem of_eq (hp : cm'.numPages = cm.numPages) (hs : cm'.pageSize = cm.pageSize)
    (hl : cm'.linearStatePool = cm.linearStatePool)
    (hz : cm'.lazyFreeList = cm.lazyFreeList) : Steady cm cm' :=
  ⟨hp, hs, by rw [hl], hz.trans⟩

theorem of_onlySwaPool (h : OnlySwaPool cm cm') : Steady cm cm' := by
  obtain ⟨p, rfl⟩ := h
  exact .of_eq rfl rfl rfl rfl

theorem freeSlots (cm : CacheManager) (slots : List Nat) :
    Steady cm { cm with linearStatePool := cm.linearStatePool.free slots } := ⟨rfl, rfl, rfl, id⟩

theorem allocSlots {n : Nat} {pool : LinearStatePool} {slots : List Nat}
    (h : cm.linearStatePool.alloc n = .ok (pool, slots)) :
    Steady cm { cm with linearStatePool := pool } :=
  ⟨rfl, rfl, (LinearStatePool.alloc_ok h).2.2.1, id⟩

/-! ## Returning pages and slots -/

theorem free (cm : CacheManager) (indices : List Nat) : Steady cm (cm.free indices) := by
  unfold CacheManager.free
  split
  · rename_i pending hz
    refine ⟨rfl, rfl, rfl, fun hnone => ?_⟩
    rw [hz] at hnone
    cases hnone
  · exact .of_eq rfl rfl rfl rfl

theorem freeSwa (cm : CacheManager) (indices : List Nat) : Steady cm (cm.freeSwa indices) :=
  .of_onlySwaPool (freeSwa_onlySwaPool cm indices)

theorem freeBoth (cm : CacheManager) (indices : List Nat) : Steady cm (cm.freeBoth indices) :=
  (freeSwa cm indices).trans (free _ indices)

theorem exitLazy (cm : CacheManager) : Steady cm cm.exitLazyFreeRegion := ⟨rfl, rfl, rfl, fun _ => rfl⟩

theorem ensureSwaSlotsLoop (n : Nat) : ∀ (fuel : Nat) (cm : CacheManager),
    Steady cm (CacheManager.ensureSwaSlotsLoop n fuel cm) := by
  intro fuel
  induction fuel with
  | zero => exact refl
  | succ fuel ih =>
      intro cm
      unfold CacheManager.ensureSwaSlotsLoop
      split
      swap
      · exact refl cm
      dsimp only
      split
      · exact .of_eq rfl rfl rfl rfl
      · refine .trans (.trans ?_ (freeSwa _ _)) (.trans (free _ _) (ih _))
        exact .of_eq rfl rfl rfl rfl

theorem ensureMambaSlotsLoop (n : Nat) : ∀ (fuel : Nat) (cm : CacheManager),
    Steady cm (CacheManager.ensureMambaSlotsLoop n fuel cm) := by
  intro fuel
  induction fuel with
  | zero => exact refl
  | succ fuel ih =>
      intro cm
      unfold CacheManager.ensureMambaSlotsLoop
      split
      swap
      · exact refl cm
      dsimp only
      split
      · exact .of_eq rfl rfl rfl rfl
      · refine .trans ?_ (.trans (free _ _) (ih _))
        exact ⟨rfl, rfl, rfl, id⟩

theorem ensureStateSlots (cm : CacheManager) : Steady cm (PrefillAdder.ensureStateSlots cm) := by
  unfold PrefillAdder.ensureStateSlots
  split
  · exact ensureMambaSlotsLoop _ _ _
  · exact refl cm

/-! ## Matching, locking, allocating -/

theorem matchReq {p : PendingReq} {hd : CacheHandle} {src : Option Nat}
    (h : cm.matchReq p = .ok (cm', hd, src)) : Steady cm cm' := by
  unfold CacheManager.matchReq at h
  obtain ⟨u, -, h⟩ := Py.bind_eq_ok.1 h
  dsimp only at h
  split at h <;> cases h <;> exact .of_eq rfl rfl rfl rfl

theorem lock (cm : CacheManager) (hd : CacheHandle) : Steady cm (cm.lock hd).1 := by
  unfold CacheManager.lock
  split <;> exact .of_eq rfl rfl rfl rfl

theorem unlock {hd : CacheHandle} (h : cm.unlock hd = .ok cm') : Steady cm cm' := by
  unfold CacheManager.unlock at h
  split at h
  · cases h
    exact refl cm
  all_goals
    obtain ⟨c, -, hret⟩ := Py.bind_eq_ok.1 h
    cases hret
    exact .of_eq rfl rfl rfl rfl

theorem evictPages {need : Nat} {out : List Nat} (h : cm.evictPages need = .ok (cm', out)) :
    Steady cm cm' := by
  unfold CacheManager.evictPages at h
  split at h
  · split at h
    · cases h
      exact refl cm
    · cases h
  · obtain ⟨c, -, hret⟩ := Py.bind_eq_ok.1 h
    cases hret
    exact .of_eq rfl rfl rfl rfl
  · cases h
    exact ⟨rfl, rfl, rfl, id⟩
  · cases h
    refine .trans ?_ (freeSwa _ _)
    exact .of_eq rfl rfl rfl rfl

theorem allocate {n : Nat} {out : List Nat} (h : cm.allocate n = .ok (cm', out)) :
    Steady cm cm' := by
  unfold CacheManager.allocate at h
  split at h
  · obtain ⟨⟨cm₁, evicted⟩, he, h⟩ := Py.bind_eq_ok.1 h
    dsimp only at h
    split at h
    · cases h
      exact (evictPages he).trans (.of_eq rfl rfl rfl rfl)
    · cases h
  · cases h
    exact .of_eq rfl rfl rfl rfl

theorem allocSwaSlots {allocated : List Nat} (h : cm.allocSwaSlots allocated = .ok cm') :
    Steady cm cm' := by
  unfold CacheManager.allocSwaSlots at h
  split at h
  swap
  · cases h
    exact refl _
  dsimp only at h
  split at h
  · cases h
  · cases h
    split
    · exact (ensureSwaSlotsLoop _ _ _).trans (.of_eq rfl rfl rfl rfl)
    · exact .of_eq rfl rfl rfl rfl

theorem allocatePaged {reqs : List Req} (h : cm.allocatePaged reqs = .ok cm') :
    Steady cm cm' := by
  unfold CacheManager.allocatePaged at h
  dsimp only at h
  split at h
  · obtain ⟨⟨cm₁, pages⟩, ha, h⟩ := Py.bind_eq_ok.1 h
    obtain ⟨cm₂, hs, hret⟩ := Py.bind_eq_ok.1 h
    cases hret
    exact ((allocate ha).trans (allocSwaSlots hs)).trans (.of_eq rfl rfl rfl rfl)
  · cases h
    exact refl _

theorem prepareBatch {phase : Phase} {reqs : List Req} {it : Nat}
    {batch : List (Req × Option Track)}
    (h : FreeToken.prepareBatch cm phase reqs it = .ok (cm', batch)) : Steady cm cm' := by
  obtain ⟨hp, -⟩ := prepareBatch_ok h
  exact (of_onlySwaPool (freeBeforeAlloc_onlySwaPool cm phase reqs it)).trans (allocatePaged hp)

/-! ## Admission -/

theorem allocStateSlots {live : Option Nat} {pp : Option (Nat × Nat)}
    (h : PrefillAdder.allocStateSlots cm = .ok (cm', live, pp)) : Steady cm cm' := by
  unfold PrefillAdder.allocStateSlots at h
  split at h
  · obtain ⟨⟨pool, slots⟩, hone, h⟩ := Py.bind_eq_ok.1 h
    obtain ⟨⟨pool', slots'⟩, htwo, hret⟩ := Py.bind_eq_ok.1 h
    cases hret
    refine ⟨rfl, rfl, ?_, id⟩
    exact (LinearStatePool.alloc_ok htwo).2.2.1.trans (LinearStatePool.alloc_ok hone).2.2.1
  · cases h
    exact refl _

theorem seat {a b : PrefillAdder} {hd : CacheHandle} {src : Option Nat} {res : AdmitResource}
    (h : a.seat hd src = .ok (b, res)) : Steady a.cm b.cm := by
  refine .trans ?_ (allocStateSlots (PrefillAdder.seat_ok h).slots)
  unfold PrefillAdder.seatRow
  split <;> exact .of_eq rfl rfl rfl rfl

theorem undo {a d : PrefillAdder} {res : AdmitResource} (h : a.undo res = .ok d) :
    Steady a.cm d.cm := by
  obtain ⟨-, cm, hu, hcm⟩ := PrefillAdder.undo_ok h
  rw [hcm]
  refine (unlock hu).trans ?_
  split
  · exact freeSlots _ _
  · exact refl _

/-- A tried admission, whatever comes of it. -/
theorem tried {a a' : PrefillAdder} {p : PendingReq} {r? : Option Req}
    (h : PrefillAdder.Tried a p a' r?) : Steady a.cm a'.cm := by
  cases h with
  | skipped => exact refl _
  | unmatched hm => exact matchReq hm
  | lockRefused hm hu => exact ((matchReq hm).trans (lock _ _)).trans (unlock hu)
  | refused hm hu =>
      exact (((matchReq hm).trans (lock _ _)).trans (ensureStateSlots _)).trans (unlock hu)
  | undone hrow hm hs hu =>
      exact ((((matchReq hm).trans (lock _ _)).trans (ensureStateSlots _)).trans (seat hs)).trans
        (undo hu)
  | admitted hrow hm hs hcm htm hr =>
      rw [hcm]
      exact (((matchReq hm).trans (lock _ _)).trans (ensureStateSlots _)).trans (seat hs)

/-! ## Launching -/

theorem advanceState_numSlots (pool : LinearStatePool) (r : Req) (track : Option Track) :
    (advanceState pool r track).numSlots = pool.numSlots := by
  unfold advanceState
  split
  · rfl
  · cases track <;> rfl

theorem forReqs {f : CacheManager → Req → CacheManager × Req} (hf : ∀ cm r, Steady cm (f cm r).1)
    (cm : CacheManager) (reqs : List Req) : Steady cm (CacheManager.forReqs f cm reqs).1 :=
  forReqs_frame refl (fun _ _ _ => trans) hf cm reqs

theorem forwardReqs (env : Env) (cm : CacheManager) (batch : List (Req × Option Track)) :
    Steady cm (FreeToken.forwardReqs env cm batch).1 := by
  induction batch generalizing cm with
  | nil => exact refl cm
  | cons x batch ih =>
      refine .trans ?_ (ih _)
      exact ⟨rfl, rfl, advanceState_numSlots _ _ _, id⟩

theorem restoreReq (cm : CacheManager) (r : Req) : Steady cm (FreeToken.restoreReq cm r).1 := by
  unfold FreeToken.restoreReq
  split
  · exact ⟨rfl, rfl, rfl, id⟩
  · exact refl cm

theorem snapshotAnchorReq (cm : CacheManager) (r : Req) :
    Steady cm (cm.snapshotAnchorReq r).1 := by
  unfold CacheManager.snapshotAnchorReq
  split
  · split
    · exact ⟨rfl, rfl, rfl, id⟩
    · exact refl cm
  · exact refl cm

theorem restoreStates (cm : CacheManager) (phase : Phase) (batch : List (Req × Option Track)) :
    Steady cm (FreeToken.restoreStates cm phase batch).1 := by
  cases phase with
  | decode => exact refl cm
  | prefill => exact forReqs restoreReq cm _

theorem snapshotAnchors (env : Env) (cm : CacheManager) (phase : Phase)
    (batch : List (Req × Option Track)) :
    Steady cm (FreeToken.snapshotAnchors env cm phase batch).1 := by
  cases phase with
  | prefill => exact refl cm
  | decode =>
      unfold FreeToken.snapshotAnchors
      dsimp only
      split
      · show Steady cm (cm.snapshotToolcallAnchor _).1
        unfold CacheManager.snapshotToolcallAnchor
        split
        · exact forReqs snapshotAnchorReq cm _
        · exact refl cm
      · exact refl cm

theorem forwardBatch (env : Env) (cm : CacheManager) (phase : Phase)
    (batch : List (Req × Option Track)) : Steady cm (FreeToken.forwardBatch env cm phase batch).1 :=
  ((restoreStates cm phase batch).trans (snapshotAnchors env _ phase _)).trans
    (forwardReqs env _ _)

/-! ## Committing -/

theorem insertGeneric (cm : CacheManager) (ids : List Token) (indices : List Nat) :
    Steady cm (cm.insertGeneric ids indices).1 := by
  unfold CacheManager.insertGeneric
  split <;> exact .of_eq rfl rfl rfl rfl

theorem repoint (cm : CacheManager) (r : Req) (start stop : Nat) (canonical : List Nat) :
    Steady cm (cm.repoint r start stop canonical) := by
  unfold CacheManager.repoint
  split <;> exact .of_eq rfl rfl rfl rfl

theorem cacheReqGeneric {r : Req} {finished : Bool} {f : CacheFields}
    (h : cm.cacheReqGeneric r finished = .ok (cm', f)) : Steady cm cm' := by
  unfold CacheManager.cacheReqGeneric at h
  dsimp only at h
  split at h
  · obtain ⟨cm₁, hu, hret⟩ := Py.bind_eq_ok.1 h
    split at hret
    · cases hret
      exact (unlock hu).trans (freeBoth _ _)
    · cases hret
      exact unlock hu
  · obtain ⟨cm₁, hu, hret⟩ := Py.bind_eq_ok.1 h
    have hfront := ((insertGeneric _ _ _).trans (unlock hu)).trans (freeBoth _
      (slice (cm₁.rowOf r) r.cacheHandle.cachedLen (cm.insertGeneric (r.inputIds.take r.cachedLen)
        (slice (cm.rowOf r) 0 r.cachedLen)).2.1))
    split at hret
    · cases hret
      exact hfront.trans (freeBoth _ _)
    · cases hret
      exact (hfront.trans (repoint _ _ _ _ _)).trans (lock _ _)

theorem insertHybrid (cm : CacheManager) (r : Req) (len slot : Nat) :
    Steady cm (cm.insertHybrid r len slot).1 := .of_eq rfl rfl rfl rfl

theorem freeReqSlots (cm : CacheManager) (f : CacheFields) (keepLive : Bool) :
    Steady cm (cm.freeReqSlots f keepLive).1 := ⟨rfl, rfl, rfl, id⟩

theorem finishFreeze (cm : CacheManager) (r : Req) : Steady cm (cm.finishFreeze r).1 := by
  unfold CacheManager.finishFreeze
  dsimp only
  split
  · exact refl cm
  · exact ((insertHybrid _ _ _ _).trans (freeSlots _ _)).trans (free _ _)

theorem finishHybrid {r : Req} {f : CacheFields} (h : cm.finishHybrid r = .ok (cm', f)) :
    Steady cm cm' := by
  unfold CacheManager.finishHybrid at h
  dsimp only at h
  split at h
  · split at h
    · cases h
    · obtain ⟨cm₁, hu, hret⟩ := Py.bind_eq_ok.1 h
      cases hret
      refine ((finishFreeze cm r).trans (insertHybrid _ _ _ _)).trans ((unlock hu).trans ?_)
      exact (free _ _).trans (freeReqSlots _ _ _)
  · obtain ⟨cm₁, hu, hret⟩ := Py.bind_eq_ok.1 h
    cases hret
    exact ((finishFreeze cm r).trans (unlock hu)).trans ((free _ _).trans (freeReqSlots _ _ _))

theorem commitHybrid {r : Req} {f : CacheFields} (h : cm.commitHybrid r = .ok (cm', f)) :
    Steady cm cm' := by
  unfold CacheManager.commitHybrid at h
  split at h
  · cases h
    exact refl _
  split at h
  · cases h
    exact refl _
  split at h
  · cases h
  rename_i len _ _ _ pp _
  dsimp only at h
  obtain ⟨cm₁, hu, hret⟩ := Py.bind_eq_ok.1 h
  have hfront := ((insertHybrid _ _ _ _).trans (unlock hu)).trans
    ((free cm₁ (slice (cm₁.rowOf r) r.cacheHandle.cachedLen
      (cm.insertHybrid r len (CacheManager.pingPongSlot pp (1 - r.mambaNextTrackIdx))).2.1)))
  dsimp only [CacheManager.tick] at hret
  generalize CacheManager.free cm₁ _ = cm₂ at hret hfront
  split at hret
  · cases hret
    refine hfront.trans (.trans (.trans ?_ (repoint _ _ _ _ _)) (lock _ _))
    exact .of_eq rfl rfl rfl rfl
  · obtain ⟨⟨pool, slots⟩, ha, hret⟩ := Py.bind_eq_ok.1 hret
    cases hret
    refine hfront.trans (.trans ?_ (allocSlots ha))
    refine .trans (.trans ?_ (repoint _ _ _ _ _)) ((lock _ _).trans (ensureMambaSlotsLoop _ _ _))
    exact .of_eq rfl rfl rfl rfl

theorem cacheReqHybrid {r : Req} {finished : Bool} {f : CacheFields}
    (h : cm.cacheReqHybrid r finished = .ok (cm', f)) : Steady cm cm' := by
  unfold CacheManager.cacheReqHybrid at h
  split at h
  · obtain ⟨cm₁, hu, hret⟩ := Py.bind_eq_ok.1 h
    split at hret
    · cases hret
      exact (unlock hu).trans ((free _ _).trans (freeReqSlots _ _ _))
    · cases hret
      exact unlock hu
  · split at h
    · exact finishHybrid h
    · exact commitHybrid h

theorem softPinPrompt (cm : CacheManager) (r : Req) : Steady cm (cm.softPinPrompt r) := by
  unfold CacheManager.softPinPrompt
  dsimp only
  split
  swap
  · exact refl cm
  split
  · refine .trans (.trans ?_ (freeSwa _ _)) (.of_eq rfl rfl rfl rfl)
    exact .of_eq rfl rfl rfl rfl
  · exact .of_eq rfl rfl rfl rfl

theorem rematchSwa (cm : CacheManager) (r : Req) (insertLen : Nat) :
    Steady cm (cm.rematchSwa r insertLen).1 := by
  unfold CacheManager.rematchSwa
  dsimp only
  refine .trans ?_ (lock _ _)
  split_ifs <;> exact .of_eq rfl rfl rfl rfl

theorem insertSwa {r : Req} {insertLen : Nat} {freed : List Nat}
    (h : cm.insertSwa r insertLen = .ok (cm', freed)) : Steady cm cm' := by
  unfold CacheManager.insertSwa at h
  split at h
  · obtain ⟨c, -, hret⟩ := Py.bind_eq_ok.1 h
    cases hret
    exact .of_eq rfl rfl rfl rfl
  · cases h
    exact refl _

theorem cacheReqSwa {r : Req} {finished : Bool} {f : CacheFields}
    (h : cm.cacheReqSwa r finished = .ok (cm', f)) : Steady cm cm' := by
  unfold CacheManager.cacheReqSwa at h
  split at h
  · obtain ⟨cm₁, hu, hret⟩ := Py.bind_eq_ok.1 h
    split at hret
    · cases hret
      exact (unlock hu).trans (freeBoth _ _)
    · cases hret
      exact unlock hu
  · obtain ⟨⟨cm₁, freed⟩, hi, h⟩ := Py.bind_eq_ok.1 h
    obtain ⟨cm₂, hu, hret⟩ := Py.bind_eq_ok.1 h
    have hfront := ((insertSwa hi).trans (unlock hu)).trans (freeBoth _ freed)
    dsimp only at hret
    split at hret
    · cases hret
      exact (hfront.trans (freeBoth _ _)).trans (softPinPrompt _ _)
    · have hcm := congrArg Prod.fst (Py.pure_eq_ok.1 hret)
      dsimp only at hcm
      rw [← hcm]
      exact hfront.trans (rematchSwa _ _ _)

theorem cacheReq {r : Req} {finished : Bool} {f : CacheFields}
    (h : cm.cacheReq r finished = .ok (cm', f)) : Steady cm cm' := by
  unfold CacheManager.cacheReq at h
  split at h
  · exact cacheReqSwa h
  · exact cacheReqHybrid h
  · exact cacheReqGeneric h

end Steady

namespace Sys

/-- Only the entry of a lazy region opens a pending list. -/
theorem exec_steady {env : Env} {s s' : Sys} {act : Action} (hact : act ≠ .enterLazy)
    (he : s.exec env act = some s') : Steady s.cm s'.cm := by
  cases act with
  | tryAdd b p =>
      unfold exec at he
      dsimp only at he
      split at he
      · cases he
      all_goals
        rename_i hadd
        cases he
        exact Steady.tried (PrefillAdder.tryAddOne_fresh hadd)
  | nextChunk b row p =>
      unfold exec at he
      dsimp only at he
      split at he
      · cases he
      split at he
      swap
      · cases he
      split at he
      · cases he
      all_goals
        rename_i hadd
        cases he
        dsimp only
        rw [(PrefillAdder.tryAddOne_chunk hadd).1]
        exact Steady.refl _
  | preparePrefill it =>
      unfold exec at he
      dsimp only at he
      split at he
      · cases he
      split at he
      · cases he
      · rename_i hp
        cases he
        exact Steady.prepareBatch hp
  | prepareDecode rows it =>
      unfold exec at he
      dsimp only at he
      split at he
      · cases he
      split at he
      · cases he
      split at he
      swap
      · cases he
      split at he
      · cases he
      · rename_i hp
        cases he
        exact Steady.prepareBatch hp
  | forward =>
      unfold exec at he
      dsimp only at he
      split at he
      · cases he
      · cases he
        exact Steady.forwardBatch _ _ _ _
  | append row token =>
      unfold exec at he
      dsimp only at he
      split at he
      · cases he
      split at he
      swap
      · cases he
      split at he
      · cases he
      · cases he
        exact Steady.refl _
  | setAnchor row =>
      unfold exec at he
      dsimp only at he
      split at he
      · cases he
      split at he
      · cases he
      · cases he
        exact Steady.refl _
  | commit row =>
      unfold exec at he
      dsimp only at he
      split at he
      · cases he
      split at he
      swap
      · cases he
      split at he
      · cases he
      · rename_i hc
        cases he
        exact Steady.cacheReq hc
  | finish row =>
      unfold exec at he
      dsimp only at he
      split at he
      · cases he
      split at he
      swap
      · cases he
      split at he
      · cases he
      · rename_i hc
        cases he
        exact Steady.cacheReq hc
  | enterLazy => exact absurd rfl hact
  | exitLazy =>
      cases he
      exact Steady.exitLazy _
  | ensureSwa n =>
      unfold exec at he
      dsimp only at he
      split at he
      · cases he
        exact Steady.ensureSwaSlotsLoop _ _ _
      · cases he
  | ensureMamba n =>
      unfold exec at he
      dsimp only at he
      split at he
      · cases he
        exact Steady.ensureMambaSlotsLoop _ _ _
      · cases he

/-- A run that never enters a lazy region frees every page at once. -/
theorem Run.eager {env : Env} {cfg : Config} {s : Sys}
    (h : Run env cfg (fun _ act => act ≠ .enterLazy) s) : s.cm.lazyFreeList = none := by
  induction h with
  | init => rfl
  | step _ hok he ih => exact (exec_steady hok he).lazy ih

/-- The pools of a server keep the sizes they were built with. -/
theorem Reachable.sizes {env : Env} {cfg : Config} {s : Sys} (h : Reachable env cfg s) :
    s.cm.numPages = cfg.numPages ∧ s.cm.pageSize = cfg.pageSize ∧
      s.cm.linearStatePool.numSlots = cfg.numSlots := by
  induction h with
  | init => exact ⟨rfl, rfl, rfl⟩
  | @step s s' act _ _ he ih =>
      by_cases hact : act = .enterLazy
      · subst hact
        unfold exec at he
        dsimp only at he
        split at he
        · cases he
        · cases he
          exact ih
      · have hs := exec_steady hact he
        exact ⟨hs.numPages.trans ih.1, hs.pageSize.trans ih.2.1, hs.numSlots.trans ih.2.2⟩

end Sys

end FreeToken
