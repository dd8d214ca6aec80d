import FreeToken.Scheduler.Prefill

/-!
# What an admission can do

`Tried` lists the outcomes of `try_add_one` on a request that has no chunk yet, with every call made
on the way; a chunk continuation only builds the next request object.
-/

set_option autoImplicit false

namespace FreeToken

open BlockTrie Blocks

theorem TableManager.allocate_perm {tm : TableManager} (h : tm.availableSize ≠ 0) :
    tm.allocate.1.freeSlots ++ [tm.allocate.2] = tm.freeSlots := by
  have hne : tm.freeSlots ≠ [] := fun he => h (by rw [availableSize, he, List.length_nil])
  show tm.freeSlots.dropLast ++ [tm.freeSlots.getLastD 0] = tm.freeSlots
  rw [List.getLastD_eq_getLast?, List.getLast?_eq_getLast_of_ne_nil hne]
  exact List.dropLast_append_getLast hne

theorem TableManager.allocate_mem {tm : TableManager} (h : tm.availableSize ≠ 0) :
    tm.allocate.2 ∈ tm.freeSlots := by
  rw [← TableManager.allocate_perm h]
  exact List.mem_append_right _ (List.mem_singleton_self _)

namespace PrefillAdder

/-- The row a seat copies its matched indices to. -/
def seatRow (cm : CacheManager) (row : Nat) (handle : CacheHandle) : CacheManager :=
  if 0 < handle.cachedLen then
    { cm with
      pageTable := cm.pageTable.copyRow row
        (handle.cachedLen - (cm.getMatchedIndices handle).length) (cm.getMatchedIndices handle) }
  else cm

/-- A seat took a row, copied the match and took state slots. -/
structure Seated (a : PrefillAdder) (h : CacheHandle) (src : Option Nat) (b : PrefillAdder)
    (res : AdmitResource) : Prop where
  tm : b.tm = a.tm.allocate.1
  tableIdx : res.tableIdx = a.tm.allocate.2
  handle : res.handle = h
  restoreSrc : res.restoreSrc = src
  slots : allocStateSlots (seatRow a.cm res.tableIdx h) =
    .ok (b.cm, res.linearSlotIdx, res.pingPong)

theorem seat_ok {a b : PrefillAdder} {handle : CacheHandle} {src : Option Nat}
    {res : AdmitResource} (h : a.seat handle src = .ok (b, res)) : Seated a handle src b res := by
  unfold seat at h
  obtain ⟨⟨cm, live, pp⟩, hs, hret⟩ := Py.bind_eq_ok.1 h
  cases hret
  exact ⟨rfl, rfl, rfl, rfl, hs⟩

/-- An undone admission drops its lock, its row and its state slots. -/
theorem undo_ok {a d : PrefillAdder} {res : AdmitResource} (h : a.undo res = .ok d) :
    d.tm = a.tm.free res.tableIdx ∧ ∃ cm, a.cm.unlock res.handle = .ok cm ∧
      d.cm = match res.linearSlotIdx, res.pingPong with
        | some live, some (x, y) =>
            { cm with linearStatePool := cm.linearStatePool.free [live, x, y] }
        | _, _ => cm := by
  unfold undo at h
  obtain ⟨cm, hu, hret⟩ := Py.bind_eq_ok.1 h
  rcases hl : res.linearSlotIdx with _ | live <;> rcases hp : res.pingPong with _ | ⟨x, y⟩ <;>
    rw [hl, hp] at hret <;> cases hret <;> exact ⟨rfl, cm, hu, rfl⟩

/-- A chunk was built: it starts at `cachedLen` and is not empty. -/
structure Built (p : PendingReq) (res : AdmitResource) (cachedLen nextTrackIdx evicted : Nat)
    (r : Req) : Prop where
  eq : ∃ n, r = buildReq p res cachedLen nextTrackIdx evicted n
  lt : r.cachedLen < r.deviceLen
  mm : r.hasMm = true → r.chunked = false

theorem addOneReq_ok {a a' : PrefillAdder} {p : PendingReq} {res : AdmitResource}
    {cachedLen idx evicted : Nat} {r? : Option Req}
    (h : a.addOneReq p res cachedLen idx evicted = .ok (a', r?)) :
    (r? = none ∧ a' = a) ∨ ∃ r, r? = some r ∧ a'.cm = a.cm ∧ a'.tm = a.tm ∧
      Built p res cachedLen idx evicted r := by
  unfold addOneReq at h
  dsimp only at h
  split at h
  · cases h
    exact .inl ⟨rfl, rfl⟩
  · rename_i n _
    split at h
    · cases h
    · rename_i hmm
      obtain ⟨u, hassert, hret⟩ := Py.bind_eq_ok.1 h
      rw [pyAssert_eq_ok, decide_eq_true_eq] at hassert
      cases hret
      refine .inr ⟨_, rfl, rfl, rfl, ⟨n, rfl⟩, hassert.1, fun hr => ?_⟩
      have hpm : p.hasMm = true := hr
      simpa [hpm] using hmm

/-- The outcomes of `_try_allocate_one` and of the chunk built after it. -/
inductive Tried (a : PrefillAdder) (p : PendingReq) : PrefillAdder → Option Req → Prop
  | skipped : Tried a p a none
  | unmatched {cm : CacheManager} {h : CacheHandle} {src : Option Nat}
      (hm : a.cm.matchReq p = .ok (cm, h, src)) : Tried a p { a with cm := cm } none
  | refused {cm cm' : CacheManager} {h : CacheHandle} {src : Option Nat}
      (hm : a.cm.matchReq p = .ok (cm, h, src))
      (hu : (ensureStateSlots (cm.lock h).1).unlock (cm.lock h).2 = .ok cm') :
      Tried a p { a with cm := cm' } none
  | undone {cm : CacheManager} {h : CacheHandle} {src : Option Nat} {b d : PrefillAdder}
      {res : AdmitResource} (hrow : a.tm.availableSize ≠ 0)
      (hm : a.cm.matchReq p = .ok (cm, h, src))
      (hs : { a with cm := ensureStateSlots (cm.lock h).1 }.seat (cm.lock h).2 src = .ok (b, res))
      (hu : b.undo res = .ok d) : Tried a p d none
  | admitted {cm : CacheManager} {h : CacheHandle} {src : Option Nat} {b d : PrefillAdder}
      {res : AdmitResource} {r : Req} (hrow : a.tm.availableSize ≠ 0)
      (hm : a.cm.matchReq p = .ok (cm, h, src))
      (hs : { a with cm := ensureStateSlots (cm.lock h).1 }.seat (cm.lock h).2 src = .ok (b, res))
      (hcm : d.cm = b.cm) (htm : d.tm = b.tm)
      (hr : Built p res res.handle.cachedLen 0 0 r) : Tried a p d (some r)
  | lockRefused {cm cm' : CacheManager} {h : CacheHandle} {src : Option Nat}
      (hm : a.cm.matchReq p = .ok (cm, h, src)) (hu : (cm.lock h).1.unlock (cm.lock h).2 = .ok cm') :
      Tried a p { a with cm := cm' } none

theorem refuse_ok {a a' : PrefillAdder} {h : CacheHandle} {res? : Option AdmitResource}
    (hok : a.refuse h = .ok (a', res?)) :
    res? = none ∧ ∃ cm, a.cm.unlock h = .ok cm ∧ a' = { a with cm := cm } := by
  unfold refuse at hok
  obtain ⟨cm, hu, hret⟩ := Py.bind_eq_ok.1 hok
  cases hret
  exact ⟨rfl, cm, hu, rfl⟩

/-- The outcomes of the gates after a lock: refused, or seated. -/
theorem secondGates_ok {a a' : PrefillAdder} {h : CacheHandle} {src : Option Nat} {n : Nat}
    {res? : Option AdmitResource} (hok : a.secondGates h src n = .ok (a', res?)) :
    (res? = none ∧ ∃ cm, (ensureStateSlots a.cm).unlock h = .ok cm ∧ a' = { a with cm := cm }) ∨
      ∃ res, res? = some res ∧
        { a with cm := ensureStateSlots a.cm }.seat h src = .ok (a', res) := by
  unfold secondGates at hok
  dsimp only at hok
  split at hok
  · exact .inl (refuse_ok hok)
  · split at hok
    · exact .inl (refuse_ok hok)
    · obtain ⟨⟨b, res⟩, hs, hret⟩ := Py.bind_eq_ok.1 hok
      cases hret
      exact .inr ⟨res, rfl, hs⟩

theorem tryAddOne_fresh {a a' : PrefillAdder} {p : PendingReq} {r? : Option Req}
    (h : a.tryAddOne p none = .ok (a', r?)) : Tried a p a' r? := by
  unfold tryAddOne at h
  split at h
  · cases h
    exact .skipped
  dsimp only at h
  obtain ⟨⟨b, res?⟩, halloc, hrest⟩ := Py.bind_eq_ok.1 h
  unfold tryAllocateOne at halloc
  split at halloc
  · cases halloc
    cases hrest
    exact .skipped
  rename_i hrow
  obtain ⟨⟨cm, handle, src⟩, hm, halloc⟩ := Py.bind_eq_ok.1 halloc
  dsimp only at halloc
  split at halloc
  · cases halloc
    cases hrest
    exact .unmatched hm
  split at halloc
  · obtain ⟨rfl, cm', hu, rfl⟩ := refuse_ok halloc
    cases hrest
    exact .lockRefused hm hu
  rcases secondGates_ok halloc with ⟨rfl, cm', hu, rfl⟩ | ⟨res, rfl, hs⟩
  · cases hrest
    exact .refused hm hu
  · dsimp only at hrest
    obtain ⟨⟨d, req?⟩, hadd, hlast⟩ := Py.bind_eq_ok.1 hrest
    dsimp only at hlast
    rcases addOneReq_ok hadd with ⟨rfl, rfl⟩ | ⟨r, rfl, hcm, htm, hbuilt⟩
    · obtain ⟨e, hundo, hret⟩ := Py.bind_eq_ok.1 hlast
      cases hret
      exact .undone hrow hm hs hundo
    · cases hlast
      exact .admitted hrow hm hs hcm htm hbuilt

/-- A refused admission leaves the rows as they were. -/
theorem Tried.tm_none {a a' : PrefillAdder} {p : PendingReq} (h : Tried a p a' none) :
    a'.tm = a.tm := by
  cases h with
  | skipped => rfl
  | unmatched hm => rfl
  | refused hm hu => rfl
  | lockRefused hm hu => rfl
  | undone hrow hm hs hu =>
      have hseat := seat_ok hs
      rw [(undo_ok hu).1, hseat.tm, hseat.tableIdx, TableManager.free]
      dsimp only
      rw [TableManager.allocate_perm hrow]
      rfl

/-- An admission takes its row from the end of the free rows. -/
theorem Tried.tm_some {a a' : PrefillAdder} {p : PendingReq} {r : Req}
    (h : Tried a p a' (some r)) :
    ∃ row, r.tableIdx = some row ∧ a'.tm.freeSlots ++ [row] = a.tm.freeSlots := by
  cases h with
  | admitted hrow hm hs hcm htm hr =>
      have hseat := seat_ok hs
      obtain ⟨⟨n, rfl⟩, -, -⟩ := hr
      refine ⟨_, rfl, ?_⟩
      rw [htm, hseat.tm, hseat.tableIdx]
      exact TableManager.allocate_perm hrow

theorem Tried.built {a a' : PrefillAdder} {p : PendingReq} {r : Req}
    (h : Tried a p a' (some r)) :
    ∃ res cachedLen idx evicted, Built p res cachedLen idx evicted r := by
  cases h with
  | admitted hrow hm hs hcm htm hr => exact ⟨_, _, _, _, hr⟩

/-- The resources a continuation inherits from the chunk before it. -/
def inherited (c : Req) : AdmitResource where
  handle := c.cacheHandle
  tableIdx := c.tableIdx.getD 0
  linearSlotIdx := c.linearSlotIdx
  pingPong := c.mambaPingPong
  restoreSrc := none

theorem tryAddOne_chunk {a a' : PrefillAdder} {p : PendingReq} {c : Req} {r? : Option Req}
    (h : a.tryAddOne p (some c) = .ok (a', r?)) :
    a'.cm = a.cm ∧ a'.tm = a.tm ∧ ∀ r, r? = some r →
      Built p (inherited c) c.cachedLen c.mambaNextTrackIdx c.swaEvictedSeqlen r := by
  unfold tryAddOne at h
  split at h
  · cases h
    exact ⟨rfl, rfl, by simp⟩
  · rcases addOneReq_ok h with ⟨rfl, rfl⟩ | ⟨r, rfl, hcm, htm, hbuilt⟩
    · exact ⟨rfl, rfl, by simp⟩
    · refine ⟨hcm, htm, ?_⟩
      rintro _ ⟨⟩
      exact hbuilt

end PrefillAdder

end FreeToken
