import Mathlib.Data.List.Nodup
import FreeToken.Lib.Machine

/-!
# The maintenance gate of the API server

`maintenance_state` of the frontend, and every task and callback that writes it.  A section runs from
one await point to the next.
-/

set_option autoImplicit false

namespace FreeToken

open Machine

inductive MaintenanceState
  | loading
  | serving
  | rebuilding
  | failed
  | stopping
  deriving DecidableEq, Repr

inductive RebuildStatus
  | ok
  | busy
  | rejected
  | unsupported
  | failed
  deriving DecidableEq, Repr

structure CacheRebuildReply where
  requestId : Nat
  status : RebuildStatus
  moeCacheSize : Option Nat
  numPages : Option Nat
  mambaSlots : Option Nat
  numSwaPages : Option Nat
  error : Option String
  deriving DecidableEq, Repr

/-- What the caller of a rebuild is given. -/
inductive RebuildResult
  | reply (msg : CacheRebuildReply)
  | failed (error : String)
  deriving DecidableEq, Repr

inductive RebuildFuture
  | pending
  | done (result : RebuildResult)
  | cancelled
  deriving DecidableEq, Repr

/-- Where `dispatch_rebuild` is suspended: before the message was enqueued, after, in `wait_for`. -/
inductive DispatchStage
  | sending
  | sent
  | waiting
  deriving DecidableEq, Repr

/-- A task in `dispatch_rebuild`. -/
structure Dispatch where
  requestId : Nat
  stage : DispatchStage
  fut : RebuildFuture
  deriving DecidableEq, Repr

/-- The frontend, the tasks that write its gate, the requests that the scheduler has not answered,
and the callbacks that wait for the event loop. -/
structure FrontendManager where
  maintenanceState : MaintenanceState := .loading
  fatalError : Option String := none
  ready : Bool := false
  lastRebuild : Option CacheRebuildReply := none
  rebuildFutures : List Nat := []
  initialized : Bool := false
  uidCounter : Nat := 0
  nextRequestId : Nat := 0
  sealedAccounting : Bool := false
  preparing : Bool := false
  dispatches : List Dispatch := []
  scheduler : List Nat := []
  callbacks : List String := []
  deriving DecidableEq, Repr

namespace FrontendManager

/-- `fut.set_result` on a future that is not done. -/
def setResult (ds : List Dispatch) (requestId : Nat) (result : RebuildResult) : List Dispatch :=
  ds.map fun d =>
    if d.requestId = requestId ∧ d.fut = .pending then { d with fut := .done result } else d

def setStage (ds : List Dispatch) (requestId : Nat) (stage : DispatchStage) : List Dispatch :=
  ds.map fun d => if d.requestId = requestId then { d with stage := stage } else d

def setCancelled (ds : List Dispatch) (requestId : Nat) : List Dispatch :=
  ds.map fun d => if d.requestId = requestId then { d with fut := .cancelled } else d

def finish (ds : List Dispatch) (requestId : Nat) : List Dispatch :=
  ds.filter fun d => d.requestId ≠ requestId

/-- `self.rebuild_futures.pop(request_id, None)`. -/
def popFuture (s : FrontendManager) (requestId : Nat) : FrontendManager :=
  { s with rebuildFutures := s.rebuildFutures.filter (· ≠ requestId) }

/-- The task in `dispatch_rebuild` of a request, at a stage. -/
def atStage (s : FrontendManager) (requestId : Nat) (stage : DispatchStage) : Option Dispatch :=
  s.dispatches.find? fun d => decide (d.requestId = requestId) && decide (d.stage = stage)

/-- `new_user`. -/
def newUser (s : FrontendManager) : Except String (Nat × FrontendManager) :=
  if s.maintenanceState ≠ .serving then .error "server unavailable"
  else .ok (s.uidCounter, { s with uidCounter := s.uidCounter + 1 })

/-- `_resolve_rebuild`. -/
def resolveRebuild (s : FrontendManager) (msg : CacheRebuildReply) : FrontendManager :=
  let s := { s with lastRebuild := some msg }
  let s :=
    if msg.requestId ∈ s.rebuildFutures then
      { s.popFuture msg.requestId with
        dispatches := setResult s.dispatches msg.requestId (.reply msg) }
    else s
  if s.fatalError.isSome then { s with maintenanceState := .failed }
  else { s with maintenanceState := if msg.status = .failed then .failed else .serving }

theorem resolveRebuild_state (s : FrontendManager) (msg : CacheRebuildReply) :
    (s.resolveRebuild msg).maintenanceState =
      if s.fatalError.isSome ∨ msg.status = .failed then .failed else .serving := by
  unfold resolveRebuild popFuture
  dsimp only
  split_ifs <;> simp_all

theorem resolveRebuild_fatal (s : FrontendManager) (msg : CacheRebuildReply) :
    (s.resolveRebuild msg).fatalError = s.fatalError := by
  unfold resolveRebuild popFuture
  dsimp only
  split_ifs <;> rfl

/-- `fail_pending_rebuilds`: the callback it posts. -/
def failPendingRebuilds (s : FrontendManager) (message : String) : FrontendManager :=
  if s.initialized then { s with callbacks := s.callbacks ++ [message] } else s

/-- `_resolve_all`. -/
def resolveAll (s : FrontendManager) (message : String) : FrontendManager :=
  { s with
    dispatches := s.rebuildFutures.foldl (fun ds id => setResult ds id (.failed message)) s.dispatches
    rebuildFutures := [] }

/-- `cache_rebuild` up to its first await: it is turned away, or `dispatch_rebuild` has closed the
gate and enqueues the message. -/
def cacheRebuild (s : FrontendManager) (valid : Bool) : FrontendManager :=
  match s.maintenanceState with
  | .serving =>
      if valid then
        { s with
          rebuildFutures := s.nextRequestId :: s.rebuildFutures
          dispatches := ⟨s.nextRequestId, .sending, .pending⟩ :: s.dispatches
          nextRequestId := s.nextRequestId + 1
          maintenanceState := .rebuilding
          initialized := true }
      else s
  | _ => s

/-- The handler of an exception of `send_one` in `dispatch_rebuild`. -/
def dispatchFailed (s : FrontendManager) (requestId : Nat) : FrontendManager :=
  { s.popFuture requestId with
    maintenanceState := .serving
    dispatches := finish s.dispatches requestId }

/-- `prepare_stop_accounting` from taking its lock to its first await. -/
def prepareStopAccounting (s : FrontendManager) : FrontendManager :=
  if s.sealedAccounting then s
  else
    match s.maintenanceState with
    | .rebuilding => s
    | _ => { s with maintenanceState := .stopping, preparing := true }

/-- `_on_ready`. -/
def onReady (s : FrontendManager) : FrontendManager :=
  if s.maintenanceState = .loading then { s with maintenanceState := .serving, ready := true } else s

/-- `_on_failure`, without the exit of the process. -/
def onFailure (s : FrontendManager) (message : String) : FrontendManager :=
  failPendingRebuilds { s with fatalError := some message, maintenanceState := .failed } message

/-- A section that some task or callback runs next, with what the outside decides. -/
inductive Action
  | cacheRebuild (valid : Bool)
  | delivered (requestId : Nat)
  | dispatchRaises (requestId : Nat)
  | resumes (requestId : Nat)
  | expires (requestId : Nat)
  | timedOut (requestId : Nat)
  | returns (requestId : Nat)
  | reply (msg : CacheRebuildReply)
  | newUser
  | prepareStop
  | prepareEnds (sealed : Bool)
  | ready
  | failure (message : String)
  | callback

/-- One section; none where it cannot run. -/
def step (s : FrontendManager) : Action → Option FrontendManager
  | .cacheRebuild valid => some (s.cacheRebuild valid)
  | .delivered id => (s.atStage id .sending).map fun _ =>
      { s with dispatches := setStage s.dispatches id .sent, scheduler := id :: s.scheduler }
  | .dispatchRaises id => (s.atStage id .sending).map fun _ => s.dispatchFailed id
  | .resumes id => (s.atStage id .sent).map fun _ =>
      { s with dispatches := setStage s.dispatches id .waiting }
  | .expires id => (s.atStage id .waiting).bind fun d =>
      if d.fut = .pending then some { s with dispatches := setCancelled s.dispatches id } else none
  | .timedOut id => (s.atStage id .waiting).bind fun d =>
      if d.fut = .cancelled then
        some { s.popFuture id with dispatches := finish s.dispatches id }
      else none
  | .returns id => (s.atStage id .waiting).bind fun d =>
      match d.fut with
      | .done _ => some { s with dispatches := finish s.dispatches id }
      | _ => none
  | .reply msg =>
      if msg.requestId ∈ s.scheduler then
        some ({ s with scheduler := s.scheduler.erase msg.requestId }.resolveRebuild msg)
      else none
  | .newUser =>
      match s.newUser with
      | .ok (_, s) => some s
      | .error _ => some s
  | .prepareStop => if s.preparing then none else some s.prepareStopAccounting
  | .prepareEnds sealed =>
      if s.preparing then some { s with preparing := false, sealedAccounting := sealed } else none
  | .ready => some s.onReady
  | .failure message => some (s.onFailure message)
  | .callback =>
      match s.callbacks with
      | [] => none
      | message :: rest => some ({ s with callbacks := rest }.resolveAll message)

/-! ## What a run keeps -/

/-- No dispatch raises after a worker has died. -/
def Orderly (s : FrontendManager) : Action → Prop
  | .dispatchRaises _ => s.fatalError = none
  | _ => True

/-- No worker dies, no rebuild fails, no stop is prepared. -/
def Calm (_ : FrontendManager) : Action → Prop
  | .failure _ | .prepareStop => False
  | .reply msg => msg.status ≠ .failed
  | _ => True

/-- Every rebuild that was dispatched has been answered. -/
def Answered (s : FrontendManager) : Prop :=
  s.scheduler = [] ∧ ∀ d ∈ s.dispatches, d.stage ≠ .sending

def sending (ds : List Dispatch) : Nat := ds.countP fun d => decide (d.stage = .sending)

/-- The requests that the scheduler has, or is about to have. -/
def outstanding (s : FrontendManager) : Nat := s.scheduler.length + sending s.dispatches

/-- The gate is closed for a rebuild exactly while one is outstanding; after a worker has died it
stays closed. -/
structure Inv (s : FrontendManager) : Prop where
  ids : (s.dispatches.map Dispatch.requestId).Nodup
  fresh : ∀ d ∈ s.dispatches, d.requestId < s.nextRequestId
  gate : s.fatalError = none →
    s.outstanding = if s.maintenanceState = .rebuilding then 1 else 0
  fatal : s.fatalError ≠ none →
    s.outstanding ≤ 1 ∧ (s.maintenanceState = .failed ∨ s.maintenanceState = .stopping)
  futures : ∀ id ∈ s.rebuildFutures,
    id ∈ s.scheduler ∨ ∃ d ∈ s.dispatches, d.requestId = id ∧ d.stage = .sending

section Dispatches

variable {s : FrontendManager} {ds : List Dispatch} {id : Nat} {d : Dispatch}

theorem atStage_mem {stage : DispatchStage} (h : s.atStage id stage = some d) :
    d ∈ s.dispatches ∧ d.requestId = id ∧ d.stage = stage := by
  have hsome := List.find?_some h
  simp only [Bool.and_eq_true, decide_eq_true_eq] at hsome
  exact ⟨List.mem_of_find?_eq_some h, hsome⟩

theorem finish_absent (h : id ∉ ds.map Dispatch.requestId) : finish ds id = ds := by
  unfold finish
  rw [List.filter_eq_self]
  intro d hd
  rw [decide_eq_true_eq]
  rintro rfl
  exact h (List.mem_map.2 ⟨d, hd, rfl⟩)

theorem setStage_absent (h : id ∉ ds.map Dispatch.requestId) (stage : DispatchStage) :
    setStage ds id stage = ds := by
  unfold setStage
  conv_rhs => rw [← List.map_id ds]
  refine List.map_congr_left fun d hd => if_neg ?_
  rintro rfl
  exact h (List.mem_map.2 ⟨d, hd, rfl⟩)

theorem sending_cons (d : Dispatch) (ds : List Dispatch) :
    sending (d :: ds) = sending ds + if d.stage = .sending then 1 else 0 := by
  unfold sending
  rw [List.countP_cons]
  simp only [decide_eq_true_eq]

/-- The tasks of one request and the others. -/
theorem sending_finish (hids : (ds.map Dispatch.requestId).Nodup) (hd : d ∈ ds) :
    sending ds = sending (finish ds d.requestId) + if d.stage = .sending then 1 else 0 := by
  induction ds with
  | nil => cases hd
  | cons e ds ih =>
      rw [List.map_cons, List.nodup_cons] at hids
      rcases List.mem_cons.1 hd with rfl | hd
      · have hcons : finish (d :: ds) d.requestId = finish ds d.requestId := by
          unfold finish
          rw [List.filter_cons, if_neg (by simp)]
        rw [hcons, finish_absent hids.1, sending_cons]
      · have hne : e.requestId ≠ d.requestId := fun heq =>
          hids.1 (List.mem_map.2 ⟨d, hd, heq.symm⟩)
        have hcons : finish (e :: ds) d.requestId = e :: finish ds d.requestId := by
          unfold finish
          rw [List.filter_cons, if_pos (by simpa using hne)]
        rw [hcons, sending_cons, sending_cons, ih hids.2 hd]
        omega

theorem sending_setStage (hids : (ds.map Dispatch.requestId).Nodup) (hd : d ∈ ds)
    (stage : DispatchStage) : sending (setStage ds d.requestId stage) =
      sending (finish ds d.requestId) + if stage = .sending then 1 else 0 := by
  induction ds with
  | nil => cases hd
  | cons e ds ih =>
      rw [List.map_cons, List.nodup_cons] at hids
      rcases List.mem_cons.1 hd with rfl | hd
      · have hcons : finish (d :: ds) d.requestId = finish ds d.requestId := by
          unfold finish
          rw [List.filter_cons, if_neg (by simp)]
        have hset : setStage (d :: ds) d.requestId stage =
            { d with stage := stage } :: setStage ds d.requestId stage := by
          unfold setStage
          rw [List.map_cons, if_pos rfl]
        rw [hcons, hset, finish_absent hids.1, setStage_absent hids.1, sending_cons]
      · have hne : e.requestId ≠ d.requestId := fun heq =>
          hids.1 (List.mem_map.2 ⟨d, hd, heq.symm⟩)
        have hcons : finish (e :: ds) d.requestId = e :: finish ds d.requestId := by
          unfold finish
          rw [List.filter_cons, if_pos (by simpa using hne)]
        have hset : setStage (e :: ds) d.requestId stage = e :: setStage ds d.requestId stage := by
          unfold setStage
          rw [List.map_cons, if_neg hne]
        rw [hcons, hset, sending_cons, sending_cons, ih hids.2 hd]
        omega

/-- A change that keeps the requests and the stages. -/
theorem sending_map {f : Dispatch → Dispatch} (hstage : ∀ d, (f d).stage = d.stage) :
    sending (ds.map f) = sending ds := by
  unfold sending
  rw [List.countP_map]
  refine List.countP_congr fun d _ => ?_
  simp [hstage]

theorem map_ids {f : Dispatch → Dispatch} (hid : ∀ d, (f d).requestId = d.requestId)
    (ds : List Dispatch) : (ds.map f).map Dispatch.requestId = ds.map Dispatch.requestId := by
  rw [List.map_map]
  exact List.map_congr_left fun d _ => hid d

theorem setStage_ids (ds : List Dispatch) (id : Nat) (stage : DispatchStage) :
    (setStage ds id stage).map Dispatch.requestId = ds.map Dispatch.requestId := by
  refine map_ids (fun d => ?_) ds
  split <;> rfl

theorem finish_ids (hids : (ds.map Dispatch.requestId).Nodup) (id : Nat) :
    ((finish ds id).map Dispatch.requestId).Nodup :=
  hids.sublist (List.filter_sublist.map Dispatch.requestId)

end Dispatches

section Steps

variable {s s' : FrontendManager} {id : Nat} {d : Dispatch}

/-- A change of the tasks that keeps their requests and stages. -/
theorem Inv.map (h : Inv s) {f : Dispatch → Dispatch} (hid : ∀ d, (f d).requestId = d.requestId)
    (hstage : ∀ d, (f d).stage = d.stage) : Inv { s with dispatches := s.dispatches.map f } where
  ids := by
    rw [map_ids hid]
    exact h.ids
  fresh := by
    intro d hd
    obtain ⟨e, he, rfl⟩ := List.mem_map.1 hd
    rw [hid]
    exact h.fresh e he
  gate := by
    intro hfatal
    unfold outstanding
    rw [sending_map hstage]
    exact h.gate hfatal
  fatal := by
    intro hfatal
    unfold outstanding
    rw [sending_map hstage]
    exact h.fatal hfatal
  futures := by
    intro id hid'
    rcases h.futures id hid' with hmem | ⟨d, hd, hreq, hsend⟩
    · exact .inl hmem
    · exact .inr ⟨f d, List.mem_map_of_mem hd, (hid d).trans hreq, (hstage d).trans hsend⟩

theorem Inv.cacheRebuild (h : Inv s) (valid : Bool) : Inv (s.cacheRebuild valid) := by
  unfold FrontendManager.cacheRebuild
  split
  · rename_i hserving
    split
    · have hfatal : s.fatalError = none := by
        by_contra hfatal
        rcases (h.fatal hfatal).2 with hm | hm <;> rw [hserving] at hm <;> cases hm
      have hzero : s.outstanding = 0 := by
        rw [h.gate hfatal, hserving]
        rfl
      unfold outstanding at hzero
      refine ⟨?_, ?_, ?_, fun hne => absurd hfatal hne, ?_⟩
      · rw [List.map_cons, List.nodup_cons]
        refine ⟨fun hmem => ?_, h.ids⟩
        obtain ⟨d, hd, hreq⟩ := List.mem_map.1 hmem
        have hlt := h.fresh d hd
        rw [hreq] at hlt
        exact absurd hlt (Nat.lt_irrefl _)
      · intro d hd
        rcases List.mem_cons.1 hd with rfl | hd
        · exact Nat.lt_succ_self _
        · exact Nat.lt_succ_of_lt (h.fresh d hd)
      · intro _
        unfold outstanding
        rw [sending_cons, if_pos rfl, if_pos rfl]
        dsimp only
        omega
      · intro id hid
        rcases List.mem_cons.1 hid with rfl | hid
        · exact .inr ⟨_, List.mem_cons_self, rfl, rfl⟩
        · exact (h.futures id hid).imp_right fun ⟨d, hd, hreq⟩ =>
            ⟨d, List.mem_cons_of_mem _ hd, hreq⟩
    · exact h
  · exact h

/-- A task that goes on, and takes its request to the scheduler where it leaves `sending`. -/
theorem Inv.stage (h : Inv s) (hd : d ∈ s.dispatches) {stage : DispatchStage} {requests : List Nat}
    (hcount : requests.length + (if stage = .sending then 1 else 0) =
      s.scheduler.length + if d.stage = .sending then 1 else 0)
    (hkeep : ∀ id ∈ s.scheduler, id ∈ requests) (hsent : d.stage = .sending → d.requestId ∈ requests) :
    Inv { s with dispatches := setStage s.dispatches d.requestId stage, scheduler := requests } := by
  have hsame : requests.length + sending (setStage s.dispatches d.requestId stage) =
      s.outstanding := by
    have hset := sending_setStage h.ids hd stage
    have hall := sending_finish h.ids hd
    unfold outstanding
    omega
  refine ⟨?_, ?_, ?_, ?_, ?_⟩
  · rw [setStage_ids]
    exact h.ids
  · intro e he
    have hmem : e.requestId ∈ (setStage s.dispatches d.requestId stage).map Dispatch.requestId :=
      List.mem_map_of_mem he
    rw [setStage_ids] at hmem
    obtain ⟨e', he', hreq⟩ := List.mem_map.1 hmem
    exact hreq ▸ h.fresh e' he'
  · intro hfatal
    exact hsame.trans (h.gate hfatal)
  · intro hfatal
    exact ⟨Nat.le_trans (Nat.le_of_eq hsame) (h.fatal hfatal).1, (h.fatal hfatal).2⟩
  · intro id hid
    rcases h.futures id hid with hmem | ⟨e, he, rfl, hsend⟩
    · exact .inl (hkeep id hmem)
    · by_cases hreq : e.requestId = d.requestId
      · left
        have heq : e = d := List.inj_on_of_nodup_map h.ids he hd hreq
        rw [heq] at hsend ⊢
        exact hsent hsend
      · right
        refine ⟨e, List.mem_map.2 ⟨e, he, if_neg hreq⟩, rfl, hsend⟩

/-- A task that ends, with its future out of the way if it was still sending. -/
theorem Inv.finish (h : Inv s) (hd : d ∈ s.dispatches) {m : MaintenanceState}
    {futures : List Nat} (hfutures : ∀ id ∈ futures, id ∈ s.rebuildFutures)
    (hpop : d.stage = .sending → d.requestId ∉ futures)
    (hgate : d.stage = .sending → s.fatalError = none ∧ m = .serving)
    (hsame : d.stage ≠ .sending → m = s.maintenanceState) :
    Inv { s with
      rebuildFutures := futures
      maintenanceState := m
      dispatches := finish s.dispatches d.requestId } := by
  have hall := sending_finish h.ids hd
  refine ⟨finish_ids h.ids _, fun e he => h.fresh e (List.mem_filter.1 he).1, ?_, ?_, ?_⟩
  · intro hfatal
    have hbefore := h.gate hfatal
    unfold outstanding at hbefore ⊢
    dsimp only
    by_cases hsend : d.stage = .sending
    · rw [if_pos hsend] at hall
      rw [(hgate hsend).2, if_neg (by decide)]
      split at hbefore <;> omega
    · rw [if_neg hsend] at hall
      rw [hsame hsend, ← hbefore, hall, Nat.add_zero]
  · intro hfatal
    have hsend : d.stage ≠ .sending := fun hsend => hfatal (hgate hsend).1
    have hbefore := h.fatal hfatal
    rw [if_neg hsend] at hall
    unfold outstanding at hbefore ⊢
    dsimp only
    rw [hsame hsend, hall, Nat.add_zero] at *
    exact hbefore
  · intro id hid
    rcases h.futures id (hfutures id hid) with hmem | ⟨e, he, rfl, hsend⟩
    · exact .inl hmem
    · right
      refine ⟨e, List.mem_filter.2 ⟨he, ?_⟩, rfl, hsend⟩
      rw [decide_eq_true_eq]
      intro hreq
      have heq : e = d := List.inj_on_of_nodup_map h.ids he hd hreq
      rw [heq] at hsend hid
      exact hpop hsend hid

/-- The answer to the one request that is outstanding. -/
theorem Inv.resolveRebuild (h : Inv s) {msg : CacheRebuildReply}
    (hmem : msg.requestId ∈ s.scheduler) :
    Inv ({ s with scheduler := s.scheduler.erase msg.requestId }.resolveRebuild msg) := by
  have hresult : ∀ d : Dispatch, (if d.requestId = msg.requestId ∧ d.fut = .pending then
      { d with fut := .done (.reply msg) } else d).requestId = d.requestId ∧
      (if d.requestId = msg.requestId ∧ d.fut = .pending then
        { d with fut := .done (.reply msg) } else d).stage = d.stage := by
    intro d
    split <;> exact ⟨rfl, rfl⟩
  have hmap := h.map (fun d => (hresult d).1) fun d => (hresult d).2
  have hlen : (s.scheduler.erase msg.requestId).length + 1 = s.scheduler.length := by
    have hpos := List.length_pos_of_mem hmem
    rw [List.length_erase_of_mem hmem]
    omega
  have hpop : ∀ id ∈ s.rebuildFutures.filter (· ≠ msg.requestId),
      id ∈ s.rebuildFutures ∧ id ≠ msg.requestId := by
    intro id hid
    rw [List.mem_filter, decide_eq_true_eq] at hid
    exact hid
  have herase : ∀ {ds : List Dispatch}, sending ds = sending s.dispatches →
      (s.fatalError = none → (s.scheduler.erase msg.requestId).length + sending ds = 0) ∧
      (s.fatalError ≠ none → (s.scheduler.erase msg.requestId).length + sending ds ≤ 1) := by
    intro ds hds
    constructor
    · intro hfatal
      have hbefore := h.gate hfatal
      unfold outstanding at hbefore
      split at hbefore <;> omega
    · intro hfatal
      have hbefore := (h.fatal hfatal).1
      unfold outstanding at hbefore
      omega
  unfold FrontendManager.resolveRebuild
  dsimp only
  split
  · -- its caller still waits for it
    have hsend : sending (setResult s.dispatches msg.requestId (.reply msg)) =
        sending s.dispatches := sending_map fun d => (hresult d).2
    have hfutures : ∀ id ∈ s.rebuildFutures.filter (· ≠ msg.requestId),
        id ∈ s.scheduler.erase msg.requestId ∨
          ∃ d ∈ setResult s.dispatches msg.requestId (.reply msg),
            d.requestId = id ∧ d.stage = .sending := by
      intro id hid
      obtain ⟨hid, hne⟩ := hpop id hid
      exact (hmap.futures id hid).imp_left fun h => (List.mem_erase_of_ne hne).2 h
    split
    · rename_i hfatal
      refine ⟨hmap.ids, hmap.fresh, ?_, fun hne => ⟨(herase hsend).2 hne, .inl rfl⟩, hfutures⟩
      intro hnone
      have hnone' : s.fatalError = none := hnone
      have hfatal' : s.fatalError.isSome = true := hfatal
      rw [hnone'] at hfatal'
      cases hfatal'
    · rename_i hfatal
      have hnone : s.fatalError = none := by
        have hfatal' : ¬ s.fatalError.isSome = true := hfatal
        simpa using hfatal'
      refine ⟨hmap.ids, hmap.fresh, fun _ => ?_, fun hne => absurd hnone hne, hfutures⟩
      refine ((herase hsend).1 hnone).trans (if_neg ?_).symm
      dsimp only
      split <;> decide
  · rename_i hgone
    have hfutures : ∀ id ∈ s.rebuildFutures, id ∈ s.scheduler.erase msg.requestId ∨
        ∃ d ∈ s.dispatches, d.requestId = id ∧ d.stage = .sending := by
      intro id hid
      have hne : id ≠ msg.requestId := by
        rintro rfl
        exact hgone hid
      exact (h.futures id hid).imp_left fun h => (List.mem_erase_of_ne hne).2 h
    split
    · rename_i hfatal
      refine ⟨h.ids, h.fresh, ?_, fun hne => ⟨(herase rfl).2 hne, .inl rfl⟩, hfutures⟩
      intro hnone
      have hnone' : s.fatalError = none := hnone
      have hfatal' : s.fatalError.isSome = true := hfatal
      rw [hnone'] at hfatal'
      cases hfatal'
    · rename_i hfatal
      have hnone : s.fatalError = none := by
        have hfatal' : ¬ s.fatalError.isSome = true := hfatal
        simpa using hfatal'
      refine ⟨h.ids, h.fresh, fun _ => ?_, fun hne => absurd hnone hne, hfutures⟩
      refine ((herase rfl).1 hnone).trans (if_neg ?_).symm
      dsimp only
      split <;> decide

theorem Inv.outstanding_le (h : Inv s) : s.outstanding ≤ 1 := by
  by_cases hfatal : s.fatalError = none
  · rw [h.gate hfatal]
    split <;> omega
  · exact (h.fatal hfatal).1

theorem Inv.onFailure (h : Inv s) (message : String) : Inv (s.onFailure message) := by
  have hle := h.outstanding_le
  unfold FrontendManager.onFailure failPendingRebuilds
  split <;> exact ⟨h.ids, h.fresh, fun hnone => (by cases hnone), fun _ => ⟨hle, .inl rfl⟩, h.futures⟩

theorem Inv.prepareStopAccounting (h : Inv s) : Inv s.prepareStopAccounting := by
  unfold FrontendManager.prepareStopAccounting
  split
  · exact h
  · split
    · exact h
    · rename_i hm
      refine ⟨h.ids, h.fresh, fun hnone => ?_, fun hne => ⟨h.outstanding_le, .inr rfl⟩, h.futures⟩
      exact (h.gate hnone).trans (if_neg hm)

theorem Inv.onReady (h : Inv s) : Inv s.onReady := by
  unfold FrontendManager.onReady
  split
  · rename_i hm
    refine ⟨h.ids, h.fresh, fun hnone => ?_, fun hne => ?_, h.futures⟩
    · exact (h.gate hnone).trans (by rw [hm]; rfl)
    · rcases (h.fatal hne).2 with hm' | hm' <;> rw [hm] at hm' <;> cases hm'
  · exact h

theorem Inv.resolveAll (h : Inv s) (message : String) : Inv (s.resolveAll message) := by
  have hfold : ∀ (ids : List Nat) {s : FrontendManager}, Inv s → Inv { s with
      dispatches := ids.foldl (fun ds id => setResult ds id (.failed message)) s.dispatches } := by
    intro ids
    induction ids with
    | nil => exact fun h => h
    | cons id ids ih =>
        intro s h
        refine ih (h.map (f := fun d => if d.requestId = id ∧ d.fut = .pending then
          { d with fut := .done (.failed message) } else d) (fun d => ?_) fun d => ?_) <;>
        split <;> rfl
  have hdone := hfold s.rebuildFutures h
  exact ⟨hdone.ids, hdone.fresh, hdone.gate, hdone.fatal, fun id hid => (by cases hid)⟩

theorem step_inv {a : Action} (h : Inv s) (ha : s.Orderly a) (hs : s.step a = some s') :
    Inv s' := by
  cases a <;> simp only [step] at hs
  case cacheRebuild valid =>
    cases hs
    exact h.cacheRebuild valid
  case delivered id =>
    obtain ⟨d, hat, rfl⟩ := Option.map_eq_some_iff.1 hs
    obtain ⟨hd, rfl, hstage⟩ := atStage_mem hat
    refine h.stage hd ?_ (fun id hid => List.mem_cons_of_mem _ hid) fun _ => List.mem_cons_self
    rw [hstage]
    rfl
  case dispatchRaises id =>
    obtain ⟨d, hat, rfl⟩ := Option.map_eq_some_iff.1 hs
    obtain ⟨hd, rfl, hstage⟩ := atStage_mem hat
    refine h.finish hd (fun id hid => (List.mem_filter.1 hid).1) (fun _ hmem => ?_)
      (fun _ => ⟨ha, rfl⟩) fun hne => absurd hstage hne
    have hne := (List.mem_filter.1 hmem).2
    rw [decide_eq_true_eq] at hne
    exact hne rfl
  case resumes id =>
    obtain ⟨d, hat, rfl⟩ := Option.map_eq_some_iff.1 hs
    obtain ⟨hd, rfl, hstage⟩ := atStage_mem hat
    refine h.stage hd ?_ (fun id hid => hid) fun hsend => ?_
    · rw [hstage]
      rfl
    · rw [hstage] at hsend
      cases hsend
  case expires id =>
    obtain ⟨d, -, hs⟩ := Option.bind_eq_some_iff.1 hs
    split at hs
    · cases hs
      refine h.map (fun d => ?_) fun d => ?_ <;> split <;> rfl
    · cases hs
  case timedOut id =>
    obtain ⟨d, hat, hs⟩ := Option.bind_eq_some_iff.1 hs
    obtain ⟨hd, rfl, hstage⟩ := atStage_mem hat
    have hnot : d.stage ≠ .sending := by
      rw [hstage]
      decide
    split at hs
    · cases hs
      exact h.finish hd (fun id hid => (List.mem_filter.1 hid).1) (fun hsend => absurd hsend hnot)
        (fun hsend => absurd hsend hnot) fun _ => rfl
    · cases hs
  case returns id =>
    obtain ⟨d, hat, hs⟩ := Option.bind_eq_some_iff.1 hs
    obtain ⟨hd, rfl, hstage⟩ := atStage_mem hat
    have hnot : d.stage ≠ .sending := by
      rw [hstage]
      decide
    split at hs
    · cases hs
      exact h.finish hd (fun id hid => hid) (fun hsend => absurd hsend hnot)
        (fun hsend => absurd hsend hnot) fun _ => rfl
    · cases hs
  case reply msg =>
    split at hs
    · rename_i hmem
      cases hs
      exact h.resolveRebuild hmem
    · cases hs
  case newUser =>
    unfold newUser at hs
    split at hs
    · rename_i heq
      split at heq
      · cases heq
      · cases heq
        cases hs
        exact ⟨h.ids, h.fresh, h.gate, h.fatal, h.futures⟩
    · cases hs
      exact h
  case prepareStop =>
    split at hs
    · cases hs
    · cases hs
      exact h.prepareStopAccounting
  case prepareEnds done =>
    split at hs
    · cases hs
      exact ⟨h.ids, h.fresh, h.gate, h.fatal, h.futures⟩
    · cases hs
  case ready =>
    cases hs
    exact h.onReady
  case failure message =>
    cases hs
    exact h.onFailure message
  case callback =>
    split at hs
    · cases hs
    · rename_i message rest hcallbacks
      cases hs
      have hrest : Inv { s with callbacks := rest } :=
        ⟨h.ids, h.fresh, h.gate, h.fatal, h.futures⟩
      exact hrest.resolveAll message

theorem init_inv : Inv {} where
  ids := List.nodup_nil
  fresh := by
    intro d hd
    cases hd
  gate := fun _ => rfl
  fatal := fun hne => absurd rfl hne
  futures := by
    intro id hid
    cases hid

/-- The gate is closed for good. -/
structure Closed (s : FrontendManager) : Prop where
  inv : Inv s
  state : s.maintenanceState = .failed ∨ s.maintenanceState = .stopping

theorem Closed.not_serving (h : Closed s) : s.maintenanceState ≠ .serving := by
  rcases h.state with hm | hm <;> rw [hm] <;> decide

/-- In a closed state without a fatal error the scheduler has nothing to answer. -/
theorem Closed.idle (h : Closed s) (hfatal : s.fatalError = none) : s.outstanding = 0 := by
  rw [h.inv.gate hfatal, if_neg]
  rcases h.state with hm | hm <;> rw [hm] <;> decide

theorem Closed.next {a : Action} (h : Closed s) (ha : s.Orderly a) (hs : s.step a = some s') :
    Closed s' := by
  refine ⟨step_inv h.inv ha hs, ?_⟩
  cases a <;> simp only [FrontendManager.step] at hs
  case cacheRebuild valid =>
    cases hs
    unfold FrontendManager.cacheRebuild
    rcases h.state with hm | hm <;> rw [hm] <;> dsimp only <;> rw [hm] <;> simp
  case dispatchRaises id =>
    -- a task that still sends would be outstanding
    exfalso
    obtain ⟨d, hat, -⟩ := Option.map_eq_some_iff.1 hs
    obtain ⟨hd, -, hstage⟩ := atStage_mem hat
    have hzero := h.idle ha
    have hall := sending_finish h.inv.ids hd
    rw [if_pos hstage] at hall
    unfold outstanding at hzero
    omega
  case reply msg =>
    split at hs
    · rename_i hmem
      cases hs
      have hfatal : s.fatalError.isSome = true := by
        rw [Option.isSome_iff_ne_none]
        intro hnone
        have hzero := h.idle hnone
        have hpos := List.length_pos_of_mem hmem
        unfold outstanding at hzero
        omega
      left
      rw [resolveRebuild_state, if_pos (.inl hfatal)]
    · cases hs
  case newUser =>
    unfold newUser at hs
    split at hs
    · rename_i heq
      split at heq
      · cases heq
      · cases heq
        cases hs
        exact h.state
    · cases hs
      exact h.state
  case prepareStop =>
    split at hs
    · cases hs
    · cases hs
      unfold FrontendManager.prepareStopAccounting
      split
      · exact h.state
      · split
        · exact h.state
        · exact .inr rfl
  case ready =>
    cases hs
    unfold FrontendManager.onReady
    rw [if_neg (by rcases h.state with hm | hm <;> rw [hm] <;> decide)]
    exact h.state
  case failure message =>
    cases hs
    unfold FrontendManager.onFailure failPendingRebuilds
    split <;> exact .inl rfl
  case callback =>
    split at hs
    · cases hs
    · cases hs
      exact h.state
  case delivered id =>
    obtain ⟨d, -, rfl⟩ := Option.map_eq_some_iff.1 hs
    exact h.state
  case resumes id =>
    obtain ⟨d, -, rfl⟩ := Option.map_eq_some_iff.1 hs
    exact h.state
  all_goals
    first
      | (obtain ⟨d, -, hs⟩ := Option.bind_eq_some_iff.1 hs
         split at hs <;> cases hs
         exact h.state)
      | (split at hs <;> cases hs
         exact h.state)

/-- A state of a run without a fatal error, a failed rebuild or a stop. -/
structure Open (s : FrontendManager) : Prop where
  fatal : s.fatalError = none
  state : s.maintenanceState = .serving ∨ s.maintenanceState = .rebuilding ∨
    (s.maintenanceState = .loading ∧ s.ready = false)

theorem Open.next {a : Action} (h : Open s) (ha : s.Calm a) (hs : s.step a = some s') : Open s' := by
  have hnone : ¬ s.fatalError.isSome = true := by simp [h.fatal]
  cases a <;> simp only [FrontendManager.step] at hs
  case cacheRebuild valid =>
    cases hs
    unfold FrontendManager.cacheRebuild
    split
    · split
      · exact ⟨h.fatal, .inr (.inl rfl)⟩
      · exact h
    · exact h
  case dispatchRaises id =>
    obtain ⟨d, -, rfl⟩ := Option.map_eq_some_iff.1 hs
    exact ⟨h.fatal, .inl rfl⟩
  case reply msg =>
    split at hs
    · cases hs
      refine ⟨(resolveRebuild_fatal _ msg).trans h.fatal, .inl ?_⟩
      rw [resolveRebuild_state, if_neg (by rintro (hfatal | hfailed); exacts [hnone hfatal, ha hfailed])]
    · cases hs
  case newUser =>
    unfold newUser at hs
    split at hs
    · rename_i heq
      split at heq
      · cases heq
      · cases heq
        cases hs
        exact ⟨h.fatal, h.state⟩
    · cases hs
      exact h
  case prepareStop => exact absurd ha id
  case failure message => exact absurd ha id
  case ready =>
    cases hs
    unfold FrontendManager.onReady
    split
    · exact ⟨h.fatal, .inl rfl⟩
    · exact h
  case callback =>
    split at hs
    · cases hs
    · cases hs
      exact ⟨h.fatal, h.state⟩
  case delivered id =>
    obtain ⟨d, -, rfl⟩ := Option.map_eq_some_iff.1 hs
    exact ⟨h.fatal, h.state⟩
  case resumes id =>
    obtain ⟨d, -, rfl⟩ := Option.map_eq_some_iff.1 hs
    exact ⟨h.fatal, h.state⟩
  all_goals
    first
      | (obtain ⟨d, -, hs⟩ := Option.bind_eq_some_iff.1 hs
         split at hs <;> cases hs
         exact ⟨h.fatal, h.state⟩)
      | (split at hs <;> cases hs
         exact ⟨h.fatal, h.state⟩)

end Steps

/-- A fatal error or a stop closes the gate for good, the scheduler has one rebuild at a time, and
after calm runs the answered rebuilds have reopened it. -/
structure GateHolds (as : List Action) : Prop where
  fatal : Always step (fun s as => s.fatalError ≠ none →
    Always step (fun t _ => t.maintenanceState ≠ .serving) s as) {} as
  stopping : Always step (fun s as => s.maintenanceState = .stopping →
    Always step (fun t _ => t.maintenanceState ≠ .serving ∧ ∀ p, t.newUser ≠ .ok p) s as) {} as
  single : Always step (fun s _ => s.scheduler.length ≤ 1) {} as
  reopens : Keeps step Calm {} as → ∀ s, runAll step {} as = some s → s.Answered →
    (s.ready = true → s.maintenanceState = .serving) ∧ s.rebuildFutures = []

theorem Closed.always {s : FrontendManager} {as : List Action} (h : Closed s)
    (hkeeps : Keeps step Orderly s as) :
    Always step (fun t _ => t.maintenanceState ≠ .serving ∧ ∀ p, t.newUser ≠ .ok p) s as := by
  refine always_of_invariant (fun h ha hs => Closed.next h ha hs) (fun {s _} h _ => ?_) h hkeeps
  refine ⟨h.not_serving, fun p hp => ?_⟩
  rw [newUser, if_pos h.not_serving] at hp
  cases hp

/-- Once the rebuilds of a calm run have been answered, the gate is open and no future is left. -/
theorem Open.answered {s : FrontendManager} (h : Open s) (hinv : Inv s) (hans : s.Answered) :
    (s.ready = true → s.maintenanceState = .serving) ∧ s.rebuildFutures = [] := by
  obtain ⟨hnil, hnot⟩ := hans
  have hsend : sending s.dispatches = 0 := by
    unfold sending
    rw [List.countP_eq_zero]
    intro d hd
    simpa using hnot d hd
  constructor
  · intro hready
    rcases h.state with hm | hm | ⟨-, hm⟩
    · exact hm
    · have hone := hinv.gate h.fatal
      unfold outstanding at hone
      rw [if_pos hm, hnil, hsend] at hone
      cases hone
    · rw [hready] at hm
      cases hm
  · rw [List.eq_nil_iff_forall_not_mem]
    intro id hid
    rcases hinv.futures id hid with hmem | ⟨d, hd, -, hstage⟩
    · rw [hnil] at hmem
      cases hmem
    · exact hnot d hd hstage

/-- The gate holds in exactly the runs in which no dispatch raises after a worker has died. -/
theorem gateHolds_iff (as : List Action) : GateHolds as ↔ Keeps step Orderly {} as := by
  constructor
  · intro h
    refine keeps_of_always (fun {s a s'} as hs hbad hP => ?_) h.fatal
    cases a <;> try exact absurd trivial hbad
    case dispatchRaises id =>
      obtain ⟨d, -, rfl⟩ := Option.map_eq_some_iff.1 hs
      exact (hP hbad).head rfl
  · intro hkeeps
    have hclosed : Always step (fun s as => (s.maintenanceState = .failed ∨
        s.maintenanceState = .stopping) → Always step (fun t _ =>
          t.maintenanceState ≠ .serving ∧ ∀ p, t.newUser ≠ .ok p) s as) {} as :=
      always_of_invariant (fun h ha hs => step_inv h ha hs)
        (fun h hkeeps hstate => Closed.always ⟨h, hstate⟩ hkeeps) init_inv hkeeps
    have hinv : Always step (fun s _ => Inv s) {} as :=
      always_of_invariant (fun h ha hs => step_inv h ha hs) (fun h _ => h) init_inv hkeeps
    refine ⟨?_, hclosed.mono fun s as h hm => h (.inr hm), ?_, ?_⟩
    · refine (hclosed.and hinv).mono fun s as ⟨h, hinv⟩ hfatal => ?_
      exact (h (hinv.fatal hfatal).2).mono fun t _ ht => ht.1
    · refine hinv.mono fun s _ h => ?_
      exact Nat.le_trans (Nat.le_add_right _ _) h.outstanding_le
    · intro hcalm s hrun hans
      have hopen : Open s := invariant_runAll (fun h ha hs => Open.next h ha hs)
        ⟨rfl, .inr (.inr ⟨rfl, rfl⟩)⟩ hcalm hrun
      exact hopen.answered (hinv.runAll hrun) hans

/-- A worker dies while a rebuild is being dispatched, and the dispatch raises. -/
theorem not_gateHolds :
    ¬ GateHolds [.ready, .cacheRebuild true, .failure "backend worker exited", .dispatchRaises 0] := by
  intro h
  obtain ⟨s, hrun, hfatal, hserving⟩ : ∃ s, runAll step {} [.ready, .cacheRebuild true,
      .failure "backend worker exited", .dispatchRaises 0] = some s ∧ s.fatalError ≠ none ∧
        s.maintenanceState = .serving := ⟨_, rfl, by decide, rfl⟩
  exact (h.fatal.runAll hrun hfatal).head hserving

end FrontendManager

end FreeToken
