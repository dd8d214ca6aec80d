import Mathlib
import FreeToken.Accounting.Pipeline

/-!
# The final accounting

Every step keeps the invariants of the prompts, of the replies and of the totals; at no request in
flight nothing on its way counts, so that a sealed snapshot is final.
-/

set_option autoImplicit false

namespace FreeToken

open Machine

/-! ## The totals -/

namespace StatsTracker

variable (s : StatsTracker) (r : UserReply)

@[simp] theorem finish_promptTokensTotal (uid : Nat) :
    (s.finish uid).promptTokensTotal = s.promptTokensTotal := by
  unfold finish
  dsimp only
  split
  · split <;> rfl
  · rfl

@[simp] theorem finish_completionTokensTotal (uid : Nat) :
    (s.finish uid).completionTokensTotal = s.completionTokensTotal := by
  unfold finish
  dsimp only
  split
  · split <;> rfl
  · rfl

/-- Only the finished user leaves. -/
theorem mem_finish {uid v : Nat} (h : v ∈ s.inflight) : v ∈ (s.finish uid).inflight ∨ v = uid := by
  by_cases hv : v = uid
  · exact .inr hv
  · left
    unfold finish
    dsimp only
    split
    · have hmem : v ∈ s.inflight.filter fun v => v ≠ uid := List.mem_filter.2 ⟨h, by simpa using hv⟩
      split <;> exact hmem
    · exact h

theorem finish_subset {uid v : Nat} (h : v ∈ (s.finish uid).inflight) : v ∈ s.inflight := by
  unfold finish at h
  dsimp only at h
  split at h
  · split at h <;> exact List.mem_of_mem_filter h
  · exact h

theorem observe_promptTokensTotal :
    (s.observe r).promptTokensTotal = s.promptTokensTotal + r.promptTokensDelta := by
  unfold observe
  dsimp only
  split
  · rw [finish_promptTokensTotal]
  · rfl

theorem observe_completionTokensTotal :
    (s.observe r).completionTokensTotal = s.completionTokensTotal + r.completionTokensDelta := by
  unfold observe
  dsimp only
  split
  · rw [finish_completionTokensTotal]
  · rfl

theorem mem_observe {v : Nat} (h : v ∈ s.inflight) :
    v ∈ (s.observe r).inflight ∨ r.finished = true ∧ v = r.uid := by
  unfold observe
  dsimp only
  split
  · rename_i hfin
    apply Or.imp_right fun heq => ⟨hfin, heq⟩
    apply mem_finish
    exact h
  · exact .inl h

theorem observe_subset {v : Nat} (h : v ∈ (s.observe r).inflight) : v ∈ s.inflight := by
  unfold observe at h
  dsimp only at h
  split at h
  · have hmem := finish_subset _ h
    exact hmem
  · exact h

@[simp] theorem onAbort_promptTokensTotal (uid : Nat) :
    (s.onAbort uid).promptTokensTotal = s.promptTokensTotal := by
  unfold onAbort
  split <;> rfl

@[simp] theorem onAbort_completionTokensTotal (uid : Nat) :
    (s.onAbort uid).completionTokensTotal = s.completionTokensTotal := by
  unfold onAbort
  split <;> rfl

@[simp] theorem onAbort_inflight (uid : Nat) : (s.onAbort uid).inflight = s.inflight := by
  unfold onAbort
  split <;> rfl

end StatsTracker

namespace Serving

/-- The totals are those of the replies received, and no reply that counts is lost or doubled. -/
structure Tallied (s : Serving) : Prop where
  promptTotal : s.frontend.stats.promptTokensTotal
    = (s.received.map UserReply.promptTokensDelta).sum
  completionTotal : s.frontend.stats.completionTokensTotal
    = (s.received.map UserReply.completionTokensDelta).sum
  conserved : ((s.received ++ (s.workers 0).delivery).filter UserReply.counts).Perm
    ((s.scheduler.sent.map GenerationMsg.reply).filter UserReply.counts)

/-- The stop barrier: a sealed snapshot has the totals, with no request in flight and the gate shut. -/
structure Barred (s : Serving) : Prop where
  closed : s.frontend.prepare ≠ .idle →
    s.frontend.maintenanceState = .stopping ∧ s.frontend.sealedAccounting = none
  snapshot : ∀ snapshot, s.frontend.sealedAccounting = some snapshot →
    s.frontend.stats.inflight = [] ∧ s.frontend.maintenanceState = .stopping ∧
      s.frontend.stats.promptTokensTotal = snapshot.promptTokensTotal ∧
      s.frontend.stats.completionTokensTotal = snapshot.completionTokensTotal
  returned : ∀ snapshot ∈ s.frontend.returned, s.frontend.sealedAccounting = some snapshot
  inflight : ∀ uid ∈ s.frontend.stats.inflight, uid < s.frontend.uidCounter
  aborting : ∀ uids, s.frontend.prepare = .aborting uids → ∀ uid ∈ uids, uid < s.frontend.uidCounter

structure Inv (tokenizer : Tokenizer) (overlap : Bool) (s : Serving) : Prop where
  unique : s.Unique
  sourced : s.Sourced tokenizer
  piped : s.Piped overlap
  tallied : s.Tallied
  barred : s.Barred

variable {tokenizer : Tokenizer} {overlap : Bool} {s t : Serving} {i : Nat}

/-! ## Messages of the scheduler -/

theorem sendResult_worker (s : Serving) (msgs : List GenerationMsg) (j : Nat) :
    (s.sendResult msgs).workers j = { s.workers j with
      fromScheduler := (s.workers j).fromScheduler ++ if j = 0 then msgs else [] } := by
  show Function.update s.workers 0 _ j = _
  by_cases hj : j = 0
  · subst hj
    rw [Function.update_self, if_pos rfl]
  · rw [Function.update_of_ne hj, if_neg hj, List.append_nil]

theorem sendResult_upstream {msgs : List GenerationMsg} {uid : Nat} :
    (s.sendResult msgs).Upstream uid ↔ s.Upstream uid := by
  unfold Upstream
  apply or_congr Iff.rfl
  apply exists_congr
  intro j
  rw [sendResult_worker]
  exact Iff.rfl

/-- The worker from which the scheduler has taken a message. -/
theorem taken_worker (s : Serving) (i j : Nat) (rest : List BackendMsg) :
    (s.setWorker i { s.workers i with toBackend := rest }).workers j
      = { s.workers j with toBackend := if j = i then rest else (s.workers j).toBackend } := by
  rw [setWorker_workers]
  by_cases hj : j = i
  · subst hj
    rw [Function.update_self, if_pos rfl]
  · rw [Function.update_of_ne hj, if_neg hj]

theorem Tallied.sends (h : s.Tallied) {msgs : List GenerationMsg} (hs : Sends s t msgs)
    (hreceived : t.received = s.received) : t.Tallied := by
  constructor
  case promptTotal =>
    rw [hs.frontend, hreceived]
    exact h.promptTotal
  case completionTotal =>
    rw [hs.frontend, hreceived]
    exact h.completionTotal
  case conserved =>
    rw [hreceived, hs.delivery, hs.sent, ← List.append_assoc, List.map_append,
      List.filter_append _ (msgs.map _), List.filter_append _ (msgs.map _)]
    exact h.conserved.append_right _

/-- What the messages of the scheduler's step need of the step. -/
theorem sends_of {sched : SchedulerLoop} {msgs : List GenerationMsg} {u : Serving}
    (hu : u.scheduler = sched) (hworkers : ∀ j, (u.workers j).queued = (s.workers j).queued ∧
      (u.workers j).toFrontend = (s.workers j).toFrontend ∧
      ∀ uid ∈ (u.workers j).aborts, uid ∈ (s.workers j).aborts)
    (hfrontend : u.frontend = s.frontend) (hup : ∀ uid, u.Upstream uid → s.Upstream uid)
    (hsent : sched.sent = s.scheduler.sent)
    (hchunks : ∀ uid ∈ s.scheduler.chunkUids, uid ∈ sched.chunkUids)
    (horder : msgs.Pairwise fun a b => a.reply.finished = true → b.uid = a.uid → b.counts = false)
    (hsilent : ∀ uid, s.Done uid → u.Done uid ∧ ∀ m ∈ msgs, m.uid = uid → m.counts = false)
    (hended : ∀ m ∈ msgs, m.reply.finished = true → u.Done m.uid) :
    Sends s (u.sendResult msgs) msgs := by
  have hdone {uid : Nat} (hd : u.Done uid) : (u.sendResult msgs).Done uid :=
    ⟨hd.1, hd.2.1, fun hup => hd.2.2 (sendResult_upstream.1 hup)⟩
  constructor
  case queued =>
    intro j
    rw [sendResult_worker, ← (hworkers j).1]
    exact (List.append_assoc _ _ _).symm
  case toFrontend =>
    intro j
    rw [sendResult_worker]
    exact (hworkers j).2.1
  case aborts =>
    intro j uid hmem
    rw [sendResult_worker] at hmem
    exact (hworkers j).2.2 uid hmem
  case frontend => exact hfrontend
  case upstream => exact fun uid huid => hup uid (sendResult_upstream.1 huid)
  case sent =>
    show u.scheduler.sent ++ msgs = _
    rw [hu, hsent]
  case chunks =>
    intro uid huid
    have hmem := hchunks uid huid
    rw [← hu] at hmem
    exact hmem
  case order => exact horder
  case silent => exact fun uid hd => ⟨hdone (hsilent uid hd).1, (hsilent uid hd).2⟩
  case ended => exact fun m hm hfin => hdone (hended m hm hfin)

theorem Barred.sends (h : s.Barred) (hfrontend : t.frontend = s.frontend) : t.Barred := by
  constructor <;> rw [hfrontend]
  · exact h.closed
  · exact h.snapshot
  · exact h.returned
  · exact h.inflight
  · exact h.aborting

theorem Inv.turn (h : s.Inv tokenizer overlap) (admits : List Admit) (sample : Nat → Sampled) :
    (s.turn overlap admits sample).Inv tokenizer overlap := by
  obtain ⟨hturn, hnormal⟩ := SchedulerLoop.turn_spec h.piped.wf overlap h.piped.normal admits sample
  unfold Serving.turn
  generalize (s.scheduler.turn overlap admits sample).1 = sched at hturn hnormal
  generalize (s.scheduler.turn overlap admits sample).2 = msgs at hturn
  -- an acknowledged user is over, and so is one whose last token is sent
  have hended : ∀ m ∈ msgs, m.reply.finished = true →
      ({ s with scheduler := sched } : Serving).Done m.uid := by
    intro m hm hfin
    cases hkind : m.isError with
    | true =>
        have hack := hturn.errors m hm hkind
        obtain ⟨hlt, hout, htomb⟩ := h.piped.acks m.uid hack
        exact ⟨hlt, hturn.acked m.uid hack hout, fun hup => hturn.tombstones ▸ htomb hup⟩
    | false =>
        have hsampled : m.isSampled = true := by
          cases m with
          | promptAdmitted => cases hfin
          | detokenize => rfl
          | errorReply => cases hkind
        have hcounts : m.counts = true := by
          unfold GenerationMsg.counts
          rw [hsampled, Bool.or_true]
        obtain ⟨hlt, hnot⟩ := h.piped.entered m.uid (hturn.counted m hm hcounts)
        exact ⟨hlt, hturn.ended m hm hsampled hfin, fun hup => absurd hup hnot⟩
  have hsends : Sends s (sendResult { s with scheduler := sched } msgs) msgs := by
    refine sends_of rfl (fun j => ⟨rfl, rfl, fun _ hu => hu⟩) rfl (fun _ hup => hup) hturn.sent ?_
      hturn.order ?_ hended
    · intro uid huid
      obtain ⟨more, hmore, -⟩ := hturn.chunks
      unfold SchedulerLoop.chunkUids
      rw [hmore, List.map_append]
      exact List.mem_append_left _ huid
    · intro uid hd
      obtain ⟨hdrained, hmsgs⟩ := hturn.drained uid hd.2.1
      exact ⟨⟨hd.1, hdrained, fun hup => hturn.tombstones ▸ hd.2.2 hup⟩, hmsgs⟩
  constructor
  case unique =>
    refine h.unique.shrink ?_ ?_ fun j => ?_
    · rfl
    · rfl
    rw [sendResult_worker]
    exact List.Subperm.refl _
  case sourced =>
    constructor
    case unsent => exact h.sourced.unsent
    case prompts =>
      intro j msg hmsg
      rw [sendResult_worker] at hmsg
      exact h.sourced.prompts j msg hmsg
    case requests =>
      intro j uid tokens n hmem
      rw [sendResult_worker] at hmem
      exact h.sourced.requests j uid tokens n hmem
    case waiting =>
      intro p hp
      obtain ⟨q, hq, huid, hlen⟩ := hturn.waits p hp
      rw [← huid, ← hlen]
      exact h.sourced.waiting q hq
    case chunks =>
      intro c hc
      obtain ⟨more, hmore, hfrom⟩ := hturn.chunks
      have hmem : c ∈ s.scheduler.chunks ++ more := hmore ▸ hc
      rcases List.mem_append.1 hmem with hc | hc
      · exact h.sourced.chunks c hc
      · obtain ⟨p, hp, rfl⟩ := hfrom c hc
        exact h.sourced.waiting p hp
  case piped =>
    apply h.piped.sends hsends hturn.wf hnormal
    · intro uid huid
      obtain ⟨hlt, hnot⟩ := h.piped.entered uid (hturn.entered uid huid)
      exact ⟨hlt, fun hup => hnot (sendResult_upstream.1 hup)⟩
    · intro uid huid
      have hmem : uid ∈ sched.pendingAbortAcks := huid
      rw [hturn.acks] at hmem
      exact absurd hmem List.not_mem_nil
  case tallied => exact h.tallied.sends hsends rfl
  case barred => exact h.barred.sends rfl

/-- The scheduler takes a prompt. -/
theorem Inv.receiveUser (h : s.Inv tokenizer overlap) {uid n : Nat} {tokens : List TokenId}
    {rest : List BackendMsg} (hback : (s.workers i).toBackend = .user uid tokens n :: rest) :
    (sendResult { s.setWorker i { s.workers i with toBackend := rest } with
      scheduler := (s.scheduler.processUser uid tokens.length n).1 }
      (s.scheduler.processUser uid tokens.length n).2).Inv tokenizer overlap := by
  obtain ⟨hup, htaken⟩ := h.unique.taken hback
  have hnew : ¬ s.scheduler.Entered uid := fun he => (h.piped.entered uid he).2 hup
  have harrive := SchedulerLoop.processUser_spec h.piped.wf hnew tokens.length n
  generalize (s.scheduler.processUser uid tokens.length n).1 = sched at harrive ⊢
  generalize (s.scheduler.processUser uid tokens.length n).2 = msgs at harrive ⊢
  have hworker (j : Nat) := taken_worker s i j rest
  have hcarried (j : Nat) : ((s.setWorker i { s.workers i with toBackend := rest }).workers j).carried.Subperm
      (s.workers j).carried := by
    rw [hworker]
    by_cases hj : j = i
    · subst hj
      rw [if_pos rfl]
      unfold Worker.carried
      rw [hback]
      exact ((List.sublist_cons_self _ _).append_left _).subperm
    · rw [if_neg hj]
  have hupstream {v : Nat} (hv : (s.setWorker i { s.workers i with toBackend := rest }).Upstream v) :
      s.Upstream v ∧ v ≠ uid := by
    refine ⟨upstream_shrink (s := s) (t := s.setWorker i _) rfl hcarried hv, ?_⟩
    rintro rfl
    exact htaken hv
  have hcounts {m : GenerationMsg} (hm : m ∈ msgs) : m.counts = false :=
    GenerationMsg.counts_of_error (harrive.msgs m hm).2.1
  -- the user of a tombstone is over whatever arrives
  have hdropped {v : Nat} (htomb : s.Upstream v → v ∈ s.scheduler.abortTombstones) :
      v ≠ uid ∨ uid ∈ s.scheduler.abortTombstones := by
    by_cases hv : v = uid
    · exact .inr (hv ▸ htomb (hv ▸ hup))
    · exact .inl hv
  have hsends : Sends s (sendResult { s.setWorker i { s.workers i with toBackend := rest } with
      scheduler := sched } msgs) msgs := by
    refine sends_of rfl ?_ rfl (fun v hv => (hupstream hv).1) harrive.sent ?_ ?_ ?_ ?_
    · intro j
      show ((s.setWorker i _).workers j).queued = _ ∧ _
      rw [hworker]
      refine ⟨rfl, rfl, fun v hv => ?_⟩
      by_cases hj : j = i
      · subst hj
        rw [if_pos rfl] at hv
        unfold Worker.aborts
        rw [hback]
        exact hv
      · rw [if_neg hj] at hv
        exact hv
    · intro v hv
      unfold SchedulerLoop.chunkUids
      rw [harrive.chunks]
      exact hv
    · apply List.pairwise_of_forall_mem_list
      exact fun a _ b hb _ _ => hcounts hb
    · intro v hd
      refine ⟨⟨hd.1, harrive.drained v hd.2.1 (hdropped hd.2.2), fun hv => ?_⟩,
        fun m hm _ => hcounts hm⟩
      obtain ⟨hv, hne⟩ := hupstream hv
      exact (harrive.tombstones v hne).2 (hd.2.2 hv)
    · intro m hm _
      obtain ⟨huid, -, hdrained⟩ := harrive.msgs m hm
      rw [huid]
      exact ⟨h.unique.admitted uid hup, hdrained, fun hv => absurd rfl (hupstream hv).2⟩
  constructor
  case unique =>
    refine h.unique.shrink ?_ ?_ fun j => ?_
    · rfl
    · rfl
    rw [sendResult_worker]
    exact hcarried j
  case sourced =>
    constructor
    case unsent => exact h.sourced.unsent
    case prompts =>
      intro j msg hmsg
      rw [sendResult_worker] at hmsg
      have hmem : msg ∈ ((s.setWorker i { s.workers i with toBackend := rest }).workers j).prompts := hmsg
      rw [hworker] at hmem
      exact h.sourced.prompts j msg hmem
    case requests =>
      intro j v tokens' n' hmem
      rw [sendResult_worker] at hmem
      have hmem' : BackendMsg.user v tokens' n' ∈
          ((s.setWorker i { s.workers i with toBackend := rest }).workers j).toBackend := hmem
      rw [hworker] at hmem'
      by_cases hj : j = i
      · subst hj
        rw [if_pos rfl] at hmem'
        apply h.sourced.requests j v tokens' n'
        rw [hback]
        exact List.mem_cons_of_mem _ hmem'
      · rw [if_neg hj] at hmem'
        exact h.sourced.requests j v tokens' n' hmem'
    case waiting =>
      intro p hp
      rcases harrive.waits p hp with hp | ⟨huid, hlen⟩
      · exact h.sourced.waiting p hp
      · rw [huid, hlen]
        apply h.sourced.requests i uid tokens n
        rw [hback]
        exact List.mem_cons_self
    case chunks =>
      intro c hc
      have hmem : c ∈ s.scheduler.chunks := harrive.chunks ▸ hc
      exact h.sourced.chunks c hmem
  case piped =>
    apply h.piped.sends hsends harrive.wf
    · exact fun hn => harrive.last.trans (h.piped.normal hn)
    · intro v hv
      rcases harrive.entered v hv with hv | rfl
      · obtain ⟨hlt, hnot⟩ := h.piped.entered v hv
        exact ⟨hlt, fun hup' => hnot (hupstream (sendResult_upstream.1 hup')).1⟩
      · exact ⟨h.unique.admitted v hup, fun hup' => absurd rfl (hupstream (sendResult_upstream.1 hup')).2⟩
    · intro v hv
      have hmem : v ∈ s.scheduler.pendingAbortAcks := harrive.acks ▸ hv
      obtain ⟨hlt, hout, htomb⟩ := h.piped.acks v hmem
      refine ⟨hlt, harrive.out v hout (hdropped htomb), fun hup' => ?_⟩
      obtain ⟨hv', hne⟩ := hupstream (sendResult_upstream.1 hup')
      exact (harrive.tombstones v hne).2 (htomb hv')
  case tallied => exact h.tallied.sends hsends rfl
  case barred => exact h.barred.sends rfl

theorem sends_nil (sched : SchedulerLoop) : sched.sends [] = sched := by
  unfold SchedulerLoop.sends
  rw [List.append_nil]

/-- The scheduler takes an abort. -/
theorem Inv.receiveAbort (h : s.Inv tokenizer overlap) {uid : Nat} {rest : List BackendMsg}
    (hback : (s.workers i).toBackend = .abort uid :: rest)
    (hbounded : uid ∈ s.scheduler.abortTombstones ∨
      s.scheduler.abortTombstones.length < SchedulerLoop.maxTombstones) :
    (sendResult { s.setWorker i { s.workers i with toBackend := rest } with
      scheduler := s.scheduler.processAbort uid } []).Inv tokenizer overlap := by
  have habort := SchedulerLoop.processAbort_spec h.piped.wf uid
  generalize s.scheduler.processAbort uid = sched at habort ⊢
  have hworker (j : Nat) := taken_worker s i j rest
  have htombstones {v : Nat} :
      v ∈ sched.abortTombstones ↔ v ∈ s.scheduler.abortTombstones ∨ v = uid := by
    rw [habort.tombstones]
    exact SchedulerLoop.mem_addTombstone h.piped.wf.tombstones hbounded
  have hcarried (j : Nat) : ((s.setWorker i { s.workers i with toBackend := rest }).workers j).carried
      = (s.workers j).carried := by
    rw [hworker]
    by_cases hj : j = i
    · subst hj
      rw [if_pos rfl]
      unfold Worker.carried
      rw [hback]
      rfl
    · rw [if_neg hj]
  have hupstream {v : Nat} (hv : (s.setWorker i { s.workers i with toBackend := rest }).Upstream v) :
      s.Upstream v :=
    upstream_shrink (s := s) (t := s.setWorker i _) rfl
      (fun j => hcarried j ▸ List.Subperm.refl _) hv
  have hchunks : sched.chunkUids = s.scheduler.chunkUids := congrArg (List.map Prod.fst) habort.chunks
  have hsends : Sends s (sendResult { s.setWorker i { s.workers i with toBackend := rest } with
      scheduler := sched } []) [] := by
    refine sends_of rfl ?_ rfl (fun v hv => hupstream hv) habort.sent ?_ List.Pairwise.nil ?_ ?_
    · intro j
      show ((s.setWorker i _).workers j).queued = _ ∧ _
      rw [hworker]
      refine ⟨rfl, rfl, fun v hv => ?_⟩
      by_cases hj : j = i
      · subst hj
        rw [if_pos rfl] at hv
        unfold Worker.aborts
        rw [hback]
        rcases List.mem_append.1 hv with hv | hv
        · exact List.mem_append_left _ hv
        · exact List.mem_append_right _ (List.mem_cons_of_mem _ hv)
      · rw [if_neg hj] at hv
        exact hv
    · intro v hv
      rw [hchunks]
      exact hv
    · intro v hd
      refine ⟨⟨hd.1, habort.drained hd.2.1, fun hv => ?_⟩, fun m hm => absurd hm List.not_mem_nil⟩
      exact htombstones.2 (.inl (hd.2.2 (hupstream hv)))
    · exact fun m hm => absurd hm List.not_mem_nil
  constructor
  case unique =>
    refine h.unique.shrink ?_ ?_ fun j => ?_
    · rfl
    · rfl
    rw [sendResult_worker]
    exact hcarried j ▸ List.Subperm.refl _
  case sourced =>
    constructor
    case unsent => exact h.sourced.unsent
    case prompts =>
      intro j msg hmsg
      rw [sendResult_worker] at hmsg
      have hmem : msg ∈ ((s.setWorker i { s.workers i with toBackend := rest }).workers j).prompts := hmsg
      rw [hworker] at hmem
      exact h.sourced.prompts j msg hmem
    case requests =>
      intro j v tokens n hmem
      rw [sendResult_worker] at hmem
      have hmem' : BackendMsg.user v tokens n ∈
          ((s.setWorker i { s.workers i with toBackend := rest }).workers j).toBackend := hmem
      rw [hworker] at hmem'
      by_cases hj : j = i
      · subst hj
        rw [if_pos rfl] at hmem'
        apply h.sourced.requests j v tokens n
        rw [hback]
        exact List.mem_cons_of_mem _ hmem'
      · rw [if_neg hj] at hmem'
        exact h.sourced.requests j v tokens n hmem'
    case waiting =>
      intro p hp
      have hmem : p ∈ s.scheduler.pendingList.filter fun p => p.uid ≠ uid := habort.pending ▸ hp
      exact h.sourced.waiting p (List.mem_of_mem_filter hmem)
    case chunks =>
      intro c hc
      have hmem : c ∈ s.scheduler.chunks := habort.chunks ▸ hc
      exact h.sourced.chunks c hmem
  case piped =>
    apply h.piped.sends hsends
    · show (sched.sends []).WF
      rw [sends_nil]
      exact habort.wf h.piped.wf
    · intro hn
      have hempty := h.piped.normal hn
      rcases habort.last with hlast | hlast
      · exact hlast.trans hempty
      · rw [hempty] at hlast
        exact hlast
    · intro v hv
      have hentered : s.scheduler.Entered v := by
        rcases hv with hv | hv
        · exact .inl (habort.pendingUids.1 hv).1
        · exact .inr (hchunks ▸ hv)
      obtain ⟨hlt, hnot⟩ := h.piped.entered v hentered
      exact ⟨hlt, fun hup => hnot (hupstream (sendResult_upstream.1 hup))⟩
    · intro v hv
      have hmem : v ∈ s.scheduler.pendingAbortAcks.insert uid := habort.acks ▸ hv
      rcases List.mem_insert_iff.1 hmem with rfl | hmem
      · have haborts : v ∈ (s.workers i).aborts := by
          unfold Worker.aborts
          rw [hback]
          exact List.mem_append_right _ List.mem_cons_self
        exact ⟨h.piped.aborts i v haborts, habort.out, fun _ => htombstones.2 (.inr rfl)⟩
      · obtain ⟨hlt, hout, htomb⟩ := h.piped.acks v hmem
        refine ⟨hlt, habort.keeps_out hout, fun hup => ?_⟩
        exact htombstones.2 (.inl (htomb (hupstream (sendResult_upstream.1 hup))))
  case tallied => exact h.tallied.sends hsends rfl
  case barred => exact h.barred.sends rfl

/-! ## Replies to the frontend -/

theorem deltas_of_not_counts {r : UserReply} (h : r.counts = false) :
    r.promptTokensDelta = 0 ∧ r.completionTokensDelta = 0 := by
  simpa [UserReply.counts, UserReply.isAdmission, UserReply.isSample] using h

/-- With no request in flight no reply on its way counts. -/
theorem Inv.quiet (h : s.Inv tokenizer overlap) (hidle : s.frontend.stats.inflight = [])
    {r : UserReply} (hr : r ∈ (s.workers i).toFrontend) : r.counts = false := by
  by_cases hi : i = 0
  · subst hi
    by_contra hcounts
    have hcounts : r.counts = true := by simpa using hcounts
    have hmem : r ∈ (s.workers 0).delivery := List.mem_append_left _ hr
    have hchunk := h.piped.counted r hmem hcounts
    obtain ⟨hlt, -⟩ := h.piped.entered r.uid (.inr hchunk)
    have hsilent := (h.piped.ended r.uid hlt (by rw [hidle]; exact List.not_mem_nil)).2
    exact absurd (hcounts.symm.trans (hsilent r hmem rfl)) (by decide)
  · exact ((h.piped.others i hi).2 r hr).2.1

theorem Inv.listen (h : s.Inv tokenizer overlap) {reply : UserReply} {rest : List UserReply}
    (hfront : (s.workers i).toFrontend = reply :: rest) :
    ({ s.setWorker i { s.workers i with toFrontend := rest } with
      frontend := s.frontend.listen reply
      received := s.received ++ [reply] } : Serving).Inv tokenizer overlap := by
  have hmem : reply ∈ (s.workers i).toFrontend := hfront ▸ List.mem_cons_self
  have hsame (P : Worker → Worker → Prop) (hrefl : ∀ w, P w w)
      (hnew : P (s.workers i) { s.workers i with toFrontend := rest }) (j : Nat) :
      P (s.workers j) ((s.setWorker i { s.workers i with toFrontend := rest }).workers j) := by
    rw [setWorker_workers]
    exact forall_update (P := fun j w => P (s.workers j) w) (fun j => hrefl _) hnew j
  constructor
  case unique =>
    refine h.unique.shrink ?_ ?_ fun j => ?_
    · rfl
    · rfl
    have hcarried := hsame (fun w w' => w'.carried = w.carried) (fun _ => rfl) rfl j
    exact (congrArg (fun l : List Nat => l.Subperm _) hcarried).mpr (List.Subperm.refl _)
  case sourced =>
    constructor
    case unsent => exact h.sourced.unsent
    case prompts =>
      intro j msg hmsg
      have hprompts := hsame (fun w w' => w'.prompts = w.prompts) (fun _ => rfl) rfl j
      exact h.sourced.prompts j msg (hprompts ▸ hmsg)
    case requests =>
      intro j uid tokens n hreq
      have hback := hsame (fun w w' => w'.toBackend = w.toBackend) (fun _ => rfl) rfl j
      exact h.sourced.requests j uid tokens n (hback ▸ hreq)
    case waiting => exact h.sourced.waiting
    case chunks => exact h.sourced.chunks
  case piped =>
    refine h.piped.listen hfront ?_ ?_ ?_ ?_ fun uid huid => StatsTracker.mem_observe _ _ huid
    all_goals rfl
  case tallied =>
    constructor
    case promptTotal =>
      rw [List.map_append, List.sum_append, ← h.tallied.promptTotal]
      exact StatsTracker.observe_promptTokensTotal _ _
    case completionTotal =>
      rw [List.map_append, List.sum_append, ← h.tallied.completionTotal]
      exact StatsTracker.observe_completionTokensTotal _ _
    case conserved =>
      have hconserved := h.tallied.conserved
      show ((s.received ++ [reply] ++ (Function.update s.workers i _ 0).delivery).filter _).Perm _
      by_cases hi : i = 0
      · -- the reply moves from the head of the queue to the end of what was received
        subst hi
        rw [Function.update_self]
        rw [Worker.delivery_eq, hfront] at hconserved
        rw [Worker.delivery_eq, List.append_assoc]
        exact hconserved
      · have hcounts := ((h.piped.others i hi).2 reply hmem).2.1
        rw [Function.update_of_ne (Ne.symm hi), List.filter_append, List.filter_append,
          List.filter_cons_of_neg (by rw [hcounts]; decide), List.filter_nil, List.append_nil,
          ← List.filter_append]
        exact hconserved
  case barred =>
    constructor
    case closed => exact h.barred.closed
    case snapshot =>
      intro snapshot hsealed
      obtain ⟨hidle, hstop, hprompt, hcompletion⟩ := h.barred.snapshot snapshot hsealed
      obtain ⟨hprompts, hcompletions⟩ := deltas_of_not_counts (h.quiet hidle hmem)
      refine ⟨?_, hstop, ?_, ?_⟩
      · apply List.eq_nil_iff_forall_not_mem.2
        intro uid huid
        have hold := StatsTracker.observe_subset _ _ huid
        rw [hidle] at hold
        exact List.not_mem_nil hold
      · exact (StatsTracker.observe_promptTokensTotal _ _).trans (by rw [hprompts]; exact hprompt)
      · exact (StatsTracker.observe_completionTokensTotal _ _).trans
          (by rw [hcompletions]; exact hcompletion)
    case returned => exact h.barred.returned
    case inflight => exact fun uid huid => h.barred.inflight uid (StatsTracker.observe_subset _ _ huid)
    case aborting => exact h.barred.aborting

/-! ## The frontend and the workers -/

theorem Inv.reworks (h : s.Inv tokenizer overlap) (hr : Reworks s t) (hunique : t.Unique)
    (hsourced : t.Sourced tokenizer) (hreceived : t.received = s.received)
    (hprompt : t.frontend.stats.promptTokensTotal = s.frontend.stats.promptTokensTotal)
    (hcompletion : t.frontend.stats.completionTokensTotal = s.frontend.stats.completionTokensTotal)
    (hbarred : t.Barred) : t.Inv tokenizer overlap := by
  refine ⟨hunique, hsourced, h.piped.reworks hr, ⟨?_, ?_, ?_⟩, hbarred⟩
  · rw [hprompt, hreceived]
    exact h.tallied.promptTotal
  · rw [hcompletion, hreceived]
    exact h.tallied.completionTotal
  · rw [hreceived, hr.delivery, hr.scheduler]
    exact h.tallied.conserved

/-- Only the frontend changes, neither its users nor its totals. -/
theorem Inv.frontend (h : s.Inv tokenizer overlap) {f : Frontend}
    (hunsent : f.unsent = s.frontend.unsent) (hcounter : f.uidCounter = s.frontend.uidCounter)
    (hstats : f.stats.inflight = s.frontend.stats.inflight)
    (hprompt : f.stats.promptTokensTotal = s.frontend.stats.promptTokensTotal)
    (hcompletion : f.stats.completionTokensTotal = s.frontend.stats.completionTokensTotal)
    (hbarred : ({ s with frontend := f } : Serving).Barred) :
    ({ s with frontend := f } : Serving).Inv tokenizer overlap := by
  have hcarried (j : Nat) : (s.workers j).carried.Subperm (s.workers j).carried := List.Subperm.refl _
  refine h.reworks ⟨rfl, hcounter, hstats, ?_, fun _ => rfl, fun _ => rfl, fun _ _ hu => .inl hu⟩
    (h.unique.shrink hunsent hcounter hcarried) ?_ rfl hprompt hcompletion hbarred
  · exact fun uid hu => upstream_shrink (s := s) (t := { s with frontend := f }) hunsent hcarried hu
  · refine ⟨fun msg hmsg => ?_, h.sourced.prompts, h.sourced.requests, h.sourced.waiting,
      h.sourced.chunks⟩
    exact h.sourced.unsent msg (hunsent ▸ hmsg)

theorem request_worker (s : Serving) (i j : Nat) (msg : RequestMsg) :
    (s.toWorker i msg).workers j = { s.workers j with
      fromFrontend := (s.workers j).fromFrontend ++ if j = i then [msg] else [] } := by
  show Function.update s.workers i _ j = _
  by_cases hj : j = i
  · subst hj
    rw [Function.update_self, if_pos rfl]
  · rw [Function.update_of_ne hj, if_neg hj, List.append_nil]

/-- An abort is sent. -/
theorem Inv.sendAbort (h : s.Inv tokenizer overlap) {uid : Nat} (hlt : uid < s.frontend.uidCounter)
    (i : Nat) : (s.toWorker i (.abort uid)).Inv tokenizer overlap := by
  have hprompts (j : Nat) : ((s.toWorker i (.abort uid)).workers j).prompts = (s.workers j).prompts := by
    rw [request_worker]
    unfold Worker.prompts
    split
    · simp [Worker.requests, RequestMsg.tokenize?]
    · rw [List.append_nil]
  have hback (j : Nat) : ((s.toWorker i (.abort uid)).workers j).toBackend
      = (s.workers j).toBackend := by rw [request_worker]
  have hcarried (j : Nat) : ((s.toWorker i (.abort uid)).workers j).carried.Subperm
      (s.workers j).carried := by
    unfold Worker.carried
    rw [hprompts, hback]
  refine h.reworks ⟨rfl, rfl, rfl, ?_, ?_, ?_, ?_⟩ ?_ ?_ rfl rfl rfl (h.barred.sends rfl)
  · exact fun v hv =>
      upstream_shrink (s := s) (t := s.toWorker i (.abort uid)) rfl hcarried hv
  · intro j
    rw [request_worker]
    rfl
  · intro j
    rw [request_worker]
  · intro j v hv
    rw [request_worker] at hv
    by_cases hj : j = i
    · rw [if_pos hj] at hv
      unfold Worker.aborts Worker.requests at hv
      unfold Worker.aborts Worker.requests
      simp only [List.filterMap_append, List.filterMap_cons, List.filterMap_nil, List.mem_append,
        RequestMsg.abortUid?, List.mem_singleton] at hv ⊢
      rcases hv with ((hv | hv | rfl) | hv)
      · exact .inl (.inl (.inl hv))
      · exact .inl (.inl (.inr hv))
      · exact .inr hlt
      · exact .inl (.inr hv)
    · rw [if_neg hj, List.append_nil] at hv
      exact .inl hv
  · exact h.unique.shrink (t := s.toWorker i (.abort uid)) rfl rfl hcarried
  · refine ⟨h.sourced.unsent, fun j msg hmsg => ?_, fun j v tokens n hmem => ?_, h.sourced.waiting,
      h.sourced.chunks⟩
    · rw [hprompts] at hmsg
      exact h.sourced.prompts j msg hmsg
    · rw [hback] at hmem
      exact h.sourced.requests j v tokens n hmem

/-- A prompt is sent. -/
theorem Inv.sendPrompt (h : s.Inv tokenizer overlap) {msg : TokenizeMsg}
    (hmem : msg ∈ s.frontend.unsent) (i : Nat) :
    (({ s with frontend := { s.frontend with
        unsent := s.frontend.unsent.filter fun m => m.uid ≠ msg.uid } } : Serving).toWorker i
          (.tokenize msg)).Inv tokenizer overlap := by
  obtain ⟨hunique, hup⟩ := h.unique.sendOne (i := i) hmem
    (t := ({ s with frontend := { s.frontend with
      unsent := s.frontend.unsent.filter fun m => m.uid ≠ msg.uid } } : Serving).toWorker i
        (.tokenize msg)) rfl rfl rfl
  refine h.reworks ⟨rfl, rfl, rfl, hup, ?_, ?_, ?_⟩ hunique ?_ rfl rfl rfl ?_
  · intro j
    rw [request_worker]
    rfl
  · intro j
    rw [request_worker]
  · intro j v hv
    rw [request_worker] at hv
    refine .inl ?_
    by_cases hj : j = i
    · rw [if_pos hj] at hv
      unfold Worker.aborts Worker.requests at hv
      unfold Worker.aborts Worker.requests
      simpa [RequestMsg.abortUid?] using hv
    · rw [if_neg hj, List.append_nil] at hv
      exact hv
  · refine ⟨fun m hm => h.sourced.unsent m (List.mem_of_mem_filter hm), fun j m hm => ?_,
      fun j v tokens n hreq => ?_, h.sourced.waiting, h.sourced.chunks⟩
    · rw [request_worker] at hm
      by_cases hj : j = i
      · rw [if_pos hj] at hm
        unfold Worker.prompts Worker.requests at hm
        simp only [List.filterMap_append, List.filterMap_cons, List.filterMap_nil, List.mem_append,
          RequestMsg.tokenize?, List.mem_singleton] at hm
        have hold {m : TokenizeMsg} (hm : m ∈ (s.workers j).prompts) : m ∈ s.users :=
          h.sourced.prompts j m hm
        unfold Worker.prompts Worker.requests at hold
        simp only [List.filterMap_append, List.mem_append] at hold
        rcases hm with (hm | hm | rfl)
        · exact hold (.inl hm)
        · exact hold (.inr hm)
        · exact h.sourced.unsent m hmem
      · rw [if_neg hj, List.append_nil] at hm
        exact h.sourced.prompts j m hm
    · rw [request_worker] at hreq
      exact h.sourced.requests j v tokens n hreq
  · exact ⟨h.barred.closed, h.barred.snapshot, h.barred.returned, h.barred.inflight, h.barred.aborting⟩

/-- A worker takes a message into its turn. -/
theorem Inv.takes (h : s.Inv tokenizer overlap) {w : Worker} (hw : Worker.Takes (s.workers i) w) :
    (s.setWorker i w).Inv tokenizer overlap := by
  have hsame : ∀ j, Worker.Takes (s.workers j) ((s.setWorker i w).workers j) := by
    intro j
    rw [setWorker_workers]
    exact forall_update (P := fun j w => Worker.Takes (s.workers j) w)
      (fun _ => ⟨rfl, rfl, rfl, rfl, rfl⟩) hw j
  have hcarried (j : Nat) : ((s.setWorker i w).workers j).carried.Subperm (s.workers j).carried := by
    rw [(hsame j).carried]
  refine h.reworks ⟨rfl, rfl, rfl, ?_, fun j => (hsame j).queued, fun j => (hsame j).toFrontend, ?_⟩
    ?_ ?_ rfl rfl rfl (h.barred.sends rfl)
  · exact fun v hv => upstream_shrink (s := s) (t := s.setWorker i w) rfl hcarried hv
  · exact fun j v hv => .inl ((hsame j).aborts ▸ hv)
  · exact h.unique.shrink (t := s.setWorker i w) rfl rfl hcarried
  · refine ⟨h.sourced.unsent, fun j msg hmsg => ?_, fun j v tokens n hmem => ?_, h.sourced.waiting,
      h.sourced.chunks⟩
    · exact h.sourced.prompts j msg ((hsame j).prompts ▸ hmsg)
    · exact h.sourced.requests j v tokens n ((hsame j).toBackend ▸ hmem)

/-- A worker's turn. -/
theorem Inv.process (h : s.Inv tokenizer overlap) (i : Nat) :
    (s.setWorker i ((s.workers i).process tokenizer)).Inv tokenizer overlap := by
  constructor
  case unique =>
    exact h.unique.shrink (t := s.setWorker i _) rfl rfl (process_worker_carried tokenizer s i)
  case sourced =>
    refine ⟨h.sourced.unsent, ?_, ?_, h.sourced.waiting, h.sourced.chunks⟩
    · rw [setWorker_workers]
      apply forall_update (P := fun _ w => ∀ msg ∈ w.prompts, msg ∈ s.users) h.sourced.prompts
      intro msg hmsg
      apply h.sourced.prompts i
      rw [Worker.prompts_eq]
      exact List.mem_append_right _ hmsg
    · rw [setWorker_workers]
      apply forall_update (P := fun _ w => ∀ uid tokens n, BackendMsg.user uid tokens n ∈ w.toBackend →
        s.PromptLength tokenizer uid tokens.length) h.sourced.requests
      intro uid tokens n hmem
      rcases List.mem_append.1 hmem with hmem | hmem
      · rcases List.mem_append.1 hmem with hmem | hmem
        · exact h.sourced.requests i uid tokens n hmem
        · -- it is the prompt of one of the turn's messages
          obtain ⟨msg, hmsg, hreq⟩ := List.mem_filterMap.1 hmem
          obtain ⟨tokens', htok, hne, heq⟩ := Worker.tokenizeRequest_some hreq
          cases heq
          refine ⟨msg, ?_, rfl, tokens, htok, hne, rfl⟩
          apply h.sourced.prompts i
          rw [Worker.prompts_eq]
          exact List.mem_append_left _ hmsg
      · obtain ⟨msg, -, habort⟩ := List.mem_filterMap.1 hmem
        cases msg <;> cases habort
  case piped => exact h.piped.process h.unique tokenizer i
  case tallied =>
    refine ⟨h.tallied.promptTotal, h.tallied.completionTotal, ?_⟩
    rw [setWorker_workers]
    by_cases hi : i = 0
    · subst hi
      rw [Function.update_self, List.filter_append]
      refine List.Perm.trans (Worker.process_counts.append_left _) ?_
      rw [← List.filter_append]
      exact h.tallied.conserved
    · rw [Function.update_of_ne (Ne.symm hi)]
      exact h.tallied.conserved
  case barred => exact h.barred.sends rfl

/-- A user is admitted. -/
theorem Inv.newUser (h : s.Inv tokenizer overlap) {f : Frontend} {text : String} {maxTokens : Nat}
    (hf : s.frontend.newUser text maxTokens = some f) :
    ({ s with
      frontend := f
      users := s.users ++ [⟨s.frontend.uidCounter, text, maxTokens⟩] } : Serving).Inv
        tokenizer overlap := by
  unfold Frontend.newUser at hf
  split at hf
  · cases hf
  · rename_i hserving
    have hserving : s.frontend.maintenanceState = .serving := not_not.1 hserving
    cases hf
    -- nothing is sealed while the gate is open
    have hopen : s.frontend.sealedAccounting = none := by
      cases hsealed : s.frontend.sealedAccounting with
      | none => rfl
      | some snapshot =>
          have hstop := (h.barred.snapshot snapshot hsealed).2.1
          rw [hserving] at hstop
          cases hstop
    have huid : (⟨s.frontend.uidCounter, text, maxTokens⟩ : TokenizeMsg).uid
        = s.frontend.uidCounter := rfl
    obtain ⟨hunique, hup⟩ := h.unique.newUser huid
      (t := { s with
        frontend := { s.frontend with
          uidCounter := s.frontend.uidCounter + 1
          stats := s.frontend.stats.onNewUser s.frontend.uidCounter
          unsent := s.frontend.unsent ++ [⟨s.frontend.uidCounter, text, maxTokens⟩] }
        users := s.users ++ [⟨s.frontend.uidCounter, text, maxTokens⟩] }) rfl rfl rfl
    have husers {msg : TokenizeMsg} (hmsg : msg ∈ s.users) :
        msg ∈ s.users ++ [(⟨s.frontend.uidCounter, text, maxTokens⟩ : TokenizeMsg)] :=
      List.mem_append_left _ hmsg
    have hinflight (v : Nat) :
        v ∈ (s.frontend.stats.onNewUser s.frontend.uidCounter).inflight ↔
          v ∈ s.frontend.stats.inflight ∨ v = s.frontend.uidCounter := by
      unfold StatsTracker.onNewUser
      rw [List.mem_insert_iff]
      exact or_comm
    constructor
    case unique => exact hunique
    case sourced =>
      refine ⟨fun msg hmsg => ?_, fun j msg hmsg => husers (h.sourced.prompts j msg hmsg), ?_, ?_, ?_⟩
      · rcases List.mem_append.1 hmsg with hmsg | hmsg
        · exact husers (h.sourced.unsent msg hmsg)
        · exact List.mem_append_right _ hmsg
      · exact fun j v tokens n hmem =>
          (h.sourced.requests j v tokens n hmem).mono fun msg hmsg => husers hmsg
      · exact fun p hp => (h.sourced.waiting p hp).mono fun msg hmsg => husers hmsg
      · exact fun c hc => (h.sourced.chunks c hc).mono fun msg hmsg => husers hmsg
    case piped => exact h.piped.newUser rfl rfl rfl hinflight hup
    case tallied => exact ⟨h.tallied.promptTotal, h.tallied.completionTotal, h.tallied.conserved⟩
    case barred =>
      refine ⟨h.barred.closed, fun snapshot hsealed => ?_, h.barred.returned, fun v hv => ?_,
        fun uids huids v hv => Nat.lt_succ_of_lt (h.barred.aborting uids huids v hv)⟩
      · rw [hopen] at hsealed
        cases hsealed
      · rcases (hinflight v).1 hv with hv | rfl
        · exact Nat.lt_succ_of_lt (h.barred.inflight v hv)
        · exact Nat.lt_succ_self _

/-- `prepare_stop_accounting` returns the snapshot again, raises, or shuts the gate. -/
theorem prepareStop_cases (f : Frontend) :
    (∃ snapshot, f.sealedAccounting = some snapshot ∧
      f.prepareStop = { f with returned := f.returned ++ [snapshot] }) ∨
    f.sealedAccounting = none ∧ (f.prepareStop = f ∨
      f.prepareStop = { f with maintenanceState := .stopping, prepare := .draining }) := by
  unfold Frontend.prepareStop
  split
  · rename_i snapshot hsealed
    exact .inl ⟨snapshot, hsealed, rfl⟩
  · rename_i hsealed
    refine .inr ⟨hsealed, ?_⟩
    split
    · exact .inl rfl
    · exact .inr rfl

theorem Inv.prepareStop (h : s.Inv tokenizer overlap) :
    ({ s with frontend := s.frontend.prepareStop } : Serving).Inv tokenizer overlap := by
  rcases prepareStop_cases s.frontend with ⟨snapshot, hsealed, heq⟩ | ⟨hsealed, heq | heq⟩
  · rw [heq]
    refine h.frontend (by rfl) (by rfl) (by rfl) (by rfl) (by rfl) ?_
    refine ⟨h.barred.closed, h.barred.snapshot, fun v hv => ?_, h.barred.inflight, h.barred.aborting⟩
    rcases List.mem_append.1 hv with hv | hv
    · exact h.barred.returned v hv
    · cases List.mem_singleton.1 hv
      exact hsealed
  · rw [heq]
    exact h
  · rw [heq]
    refine h.frontend (by rfl) (by rfl) (by rfl) (by rfl) (by rfl) ?_
    refine ⟨fun _ => ⟨rfl, hsealed⟩, fun snapshot hsome => ?_, h.barred.returned, h.barred.inflight,
      fun uids huids => by cases huids⟩
    have hsome : s.frontend.sealedAccounting = some snapshot := hsome
    rw [hsealed] at hsome
    cases hsome

/-- The snapshot is taken with no request in flight. -/
theorem Barred.sealAccounting (h : s.Barred) (hstage : s.frontend.prepare ≠ .idle)
    (hactive : s.frontend.stats.active = 0) :
    ({ s with frontend := s.frontend.sealAccounting } : Serving).Barred := by
  obtain ⟨hstop, hnone⟩ := h.closed hstage
  refine ⟨fun hne => absurd rfl hne, fun snapshot hsealed => ?_, fun v hv => ?_, h.inflight,
    fun uids huids => by cases huids⟩
  · cases hsealed
    exact ⟨List.length_eq_zero_iff.1 hactive, hstop, rfl, rfl⟩
  · rcases List.mem_append.1 hv with hv | hv
    · have hold := h.returned v hv
      rw [hnone] at hold
      cases hold
    · cases List.mem_singleton.1 hv
      rfl

/-- What changes the stage of the barrier alone. -/
theorem Barred.stage (h : s.Barred) (hstage : s.frontend.prepare ≠ .idle) {stage : PrepareStage}
    {f : Frontend} (hf : f = { s.frontend with stats := f.stats, prepare := stage })
    (hinflight : f.stats.inflight = s.frontend.stats.inflight)
    (hprompt : f.stats.promptTokensTotal = s.frontend.stats.promptTokensTotal)
    (hcompletion : f.stats.completionTokensTotal = s.frontend.stats.completionTokensTotal)
    (haborting : ∀ uids, stage = .aborting uids → ∀ uid ∈ uids, uid < s.frontend.uidCounter) :
    ({ s with frontend := f } : Serving).Barred := by
  have hclosed := h.closed hstage
  rw [hf]
  refine ⟨fun _ => hclosed, fun snapshot hsealed => ?_, h.returned, ?_, haborting⟩
  · have hsome : s.frontend.sealedAccounting = some snapshot := hsealed
    rw [hclosed.2] at hsome
    cases hsome
  · show ∀ uid ∈ f.stats.inflight, _
    rw [hinflight]
    exact h.inflight

theorem Barred.abortUser (h : s.Barred) (uid : Nat) :
    ({ s with frontend := s.frontend.abortUser uid } : Serving).Barred := by
  refine ⟨h.closed, fun snapshot hsealed => ?_, h.returned, ?_, h.aborting⟩
  · show (s.frontend.stats.onAbort uid).inflight = [] ∧ _ ∧
      (s.frontend.stats.onAbort uid).promptTokensTotal = _ ∧
      (s.frontend.stats.onAbort uid).completionTokensTotal = _
    rw [StatsTracker.onAbort_inflight, StatsTracker.onAbort_promptTokensTotal,
      StatsTracker.onAbort_completionTokensTotal]
    exact h.snapshot snapshot hsealed
  · show ∀ v ∈ (s.frontend.stats.onAbort uid).inflight, _
    rw [StatsTracker.onAbort_inflight]
    exact h.inflight

theorem inv_step (h : s.Inv tokenizer overlap) {a : ServingAction} (hbounded : s.TombstonesBounded a)
    (hs : s.step tokenizer overlap a = some t) : t.Inv tokenizer overlap := by
  cases a with
  | newUser text maxTokens =>
      obtain ⟨f, hf, rfl⟩ := Option.map_eq_some_iff.1 hs
      exact h.newUser hf
  | sendOne uid i =>
      obtain ⟨sent, hsent, rfl⟩ := Option.map_eq_some_iff.1 hs
      obtain ⟨msg, hfind, rfl⟩ := Option.map_eq_some_iff.1 hsent
      have huid : msg.uid = uid := by simpa using List.find?_some hfind
      subst huid
      exact h.sendPrompt (List.mem_of_find?_eq_some hfind) i
  | abortUser uid i =>
      simp only [step] at hs
      split at hs
      · rename_i hlt
        cases hs
        refine Inv.sendAbort ?_ (by exact hlt) i
        refine h.frontend (by rfl) (by rfl) ?_ ?_ ?_ (h.barred.abortUser uid)
        · exact StatsTracker.onAbort_inflight _ _
        · exact StatsTracker.onAbort_promptTokensTotal _ _
        · exact StatsTracker.onAbort_completionTokensTotal _ _
      · cases hs
  | listen i =>
      simp only [step, Serving.listen] at hs
      split at hs
      · cases hs
      · rename_i reply rest hfront
        cases hs
        exact h.listen hfront
  | prepareStop =>
      simp only [step] at hs
      split at hs
      · cases hs
        exact h.prepareStop
      · cases hs
  | sealAccounting =>
      simp only [step] at hs
      split at hs
      · rename_i hready
        cases hs
        have hstage : s.frontend.prepare ≠ .idle := by
          intro hidle
          rcases hready.1 with hstage | hstage <;> rw [hidle] at hstage <;> cases hstage
        exact h.frontend (by rfl) (by rfl) (by rfl) (by rfl) (by rfl) (h.barred.sealAccounting hstage hready.2)
      · cases hs
  | drainTimeout =>
      simp only [step] at hs
      split at hs
      · rename_i hdraining
        cases hs
        have hstage : s.frontend.prepare ≠ .idle := by
          rw [hdraining]
          decide
        unfold Frontend.drainTimeout
        cases huids : s.frontend.stats.inflightUids with
        | nil =>
            refine h.frontend (by rfl) (by rfl) (by rfl) (by rfl) (by rfl) ?_
            exact h.barred.stage hstage (by rfl) (by rfl) (by rfl) (by rfl) fun uids huids => by cases huids
        | cons uid uids =>
            refine h.frontend (by rfl) (by rfl) (by rfl) (by rfl) (by rfl) ?_
            refine h.barred.stage hstage (by rfl) (by rfl) (by rfl) (by rfl) ?_
            -- the users in flight are admitted ones
            intro uids' heq v hv
            cases heq
            apply h.barred.inflight v
            have hmem : v ∈ s.frontend.stats.inflightUids := huids ▸ hv
            exact (List.mem_insertionSort _).1 hmem
      · cases hs
  | prepareAbort uid i =>
      simp only [step] at hs
      split at hs
      · rename_i uids hstage
        split at hs
        · rename_i huid
          cases hs
          have hne : s.frontend.prepare ≠ .idle := by
            rw [hstage]
            exact fun hc => by cases hc
          refine Inv.sendAbort ?_ (by exact h.barred.aborting uids hstage uid huid) i
          refine h.frontend (by rfl) (by rfl) ?_ ?_ ?_ ?_
          · exact StatsTracker.onAbort_inflight _ _
          · exact StatsTracker.onAbort_promptTokensTotal _ _
          · exact StatsTracker.onAbort_completionTokensTotal _ _
          · refine h.barred.stage hne (by rfl) ?_ ?_ ?_ ?_
            · exact StatsTracker.onAbort_inflight _ _
            · exact StatsTracker.onAbort_promptTokensTotal _ _
            · exact StatsTracker.onAbort_completionTokensTotal _ _
            · intro uids' heq v hv
              apply h.barred.aborting uids hstage v
              split at heq
              · cases heq
              · cases heq
                exact List.mem_of_mem_erase hv
        · cases hs
      · cases hs
  | prepareRaises =>
      simp only [step] at hs
      split at hs
      · cases hs
      · cases hs
      all_goals
        rename_i hstage
        cases hs
        have hne : s.frontend.prepare ≠ .idle := by
          rw [hstage]
          exact fun hc => by cases hc
        refine h.frontend (by rfl) (by rfl) (by rfl) (by rfl) (by rfl) ?_
        exact h.barred.stage hne (by rfl) (by rfl) (by rfl) (by rfl) fun uids huids => by cases huids
  | takeFrontend i =>
      obtain ⟨w, hw, rfl⟩ := Option.map_eq_some_iff.1 hs
      exact h.takes (Worker.takeFrontend_spec hw)
  | takeScheduler i =>
      obtain ⟨w, hw, rfl⟩ := Option.map_eq_some_iff.1 hs
      exact h.takes (Worker.takeScheduler_spec hw)
  | process i =>
      cases hs
      exact h.process i
  | receive i =>
      simp only [step, Serving.receive] at hs
      split at hs
      · cases hs
      · rename_i msg rest hback
        cases hs
        cases msg with
        | user uid tokens n => exact h.receiveUser hback
        | abort uid =>
            have htaken : s.abortTaken (.receive i) = some uid := by
              simp only [abortTaken, hback]
            exact h.receiveAbort hback (hbounded uid htaken)
  | turn admits sample =>
      cases hs
      exact h.turn admits sample

theorem inv_start (tokenizer : Tokenizer) (overlap : Bool) (maintenanceState : MaintenanceState)
    (maxSeqLen : Nat) : (start maintenanceState maxSeqLen).Inv tokenizer overlap := by
  have hup (uid : Nat) : ¬ (start maintenanceState maxSeqLen).Upstream uid := by
    rintro (hu | ⟨i, hu⟩) <;> exact absurd hu List.not_mem_nil
  constructor
  case unique =>
    refine ⟨List.nodup_nil, fun _ => List.nodup_nil, fun i j uid hu => ?_, fun i uid hu => ?_,
      fun uid hu => absurd hu (hup uid)⟩
    · exact absurd hu List.not_mem_nil
    · exact absurd hu List.not_mem_nil
  case sourced =>
    exact ⟨fun _ hm => absurd hm List.not_mem_nil, fun _ _ hm => absurd hm List.not_mem_nil,
      fun _ _ _ _ hm => absurd hm List.not_mem_nil, fun _ hm => absurd hm List.not_mem_nil,
      fun _ hm => absurd hm List.not_mem_nil⟩
  case piped =>
    constructor
    case wf =>
      exact ⟨List.nodup_nil, fun _ hm => absurd hm List.not_mem_nil, List.nodup_nil,
        fun _ hm => absurd hm List.not_mem_nil, List.nodup_nil, fun _ hm => absurd hm List.not_mem_nil,
        rfl, fun _ hm => absurd hm List.not_mem_nil, Nat.zero_le _⟩
    case normal => exact fun _ => rfl
    case entered => rintro uid (hu | hu) <;> exact absurd hu List.not_mem_nil
    case aborts => exact fun _ _ hm => absurd hm List.not_mem_nil
    case acks => exact fun _ hm => absurd hm List.not_mem_nil
    case counted => exact fun _ hm => absurd hm List.not_mem_nil
    case order => exact List.Pairwise.nil
    case finished => exact fun _ _ hm => absurd hm List.not_mem_nil
    case others => exact fun _ _ => ⟨rfl, fun _ hm => absurd hm List.not_mem_nil⟩
    case ended => exact fun _ hlt => absurd hlt (Nat.not_lt_zero _)
  case tallied => exact ⟨rfl, rfl, List.Perm.refl _⟩
  case barred =>
    exact ⟨fun hne => absurd rfl hne, fun _ hs => (Option.some_ne_none _ hs.symm).elim,
      fun _ hm => absurd hm List.not_mem_nil, fun _ hm => absurd hm List.not_mem_nil,
      fun _ hs => by cases hs⟩

/-! ## Exact totals -/

theorem sum_eq_filter {α : Type} (f : α → Nat) (l : List α) :
    (l.map f).sum = ((l.filter fun a => decide (0 < f a)).map f).sum := by
  induction l with
  | nil => rfl
  | cons a l ih =>
      by_cases ha : 0 < f a
      · simp [ha, ih]
      · have hzero : f a = 0 := by omega
        simp [hzero, ih]

theorem filter_counts (p : UserReply → Bool) (hp : ∀ r, p r = true → r.counts = true)
    (l : List UserReply) : (l.filter UserReply.counts).filter p = l.filter p := by
  rw [List.filter_filter]
  apply List.filter_congr
  intro r _
  cases hpr : p r with
  | true => rw [hp r hpr, Bool.and_self]
  | false => rfl

theorem admissions_sent (sent : List GenerationMsg) :
    admissions (sent.map GenerationMsg.reply)
      = (sent.filterMap GenerationMsg.admission).filter fun c => decide (0 < c.2) := by
  unfold admissions
  induction sent with
  | nil => rfl
  | cons m sent ih =>
      cases m with
      | promptAdmitted uid promptTokens cachedTokens =>
          by_cases hpos : 0 < promptTokens
          · simpa [UserReply.isAdmission, GenerationMsg.reply, GenerationMsg.admission, hpos] using ih
          · simpa [UserReply.isAdmission, GenerationMsg.reply, GenerationMsg.admission, hpos] using ih
      | detokenize => exact ih
      | errorReply => exact ih

theorem samples_sent (sent : List GenerationMsg) :
    (sent.map GenerationMsg.reply).filter UserReply.isSample
      = (sent.filter GenerationMsg.isSampled).map GenerationMsg.reply := by
  rw [List.filter_map]
  congr 1
  apply List.filter_congr
  intro m _
  cases m <;> rfl

theorem Inv.exact (h : s.Inv tokenizer overlap) : s.Exact tokenizer := by
  have hprompts : (admissions s.received ++ admissions (s.workers 0).delivery).Perm
      (firstChunks s.scheduler.chunks) := by
    have hperm := (h.tallied.conserved.filter UserReply.isAdmission).map
      fun r : UserReply => (r.uid, r.promptTokensDelta)
    rw [filter_counts _ (by intro r hr; simp [UserReply.counts, hr]),
      filter_counts _ (by intro r hr; simp [UserReply.counts, hr])] at hperm
    have hsent := admissions_sent s.scheduler.sent
    unfold admissions at hsent
    rw [hsent, h.piped.wf.admissions, List.filter_append, List.map_append] at hperm
    -- no admitted prompt is empty
    have hfirst : (firstChunks s.scheduler.chunks).filter (fun c => decide (0 < c.2))
        = firstChunks s.scheduler.chunks := by
      apply List.filter_eq_self.2
      intro c hc
      obtain ⟨msg, -, -, tokens, -, hne, hlen⟩ := h.sourced.chunks c (mem_of_mem_firstChunks hc)
      have hpos := List.length_pos_iff.2 hne
      rw [hlen] at hpos
      simpa using hpos
    rw [hfirst] at hperm
    exact hperm
  have hcompletions : (s.received.filter UserReply.isSample
      ++ (s.workers 0).delivery.filter UserReply.isSample).Perm
        ((s.scheduler.sent.filter GenerationMsg.isSampled).map GenerationMsg.reply) := by
    have hperm := h.tallied.conserved.filter UserReply.isSample
    rw [filter_counts _ (by intro r hr; simp [UserReply.counts, hr]),
      filter_counts _ (by intro r hr; simp [UserReply.counts, hr]), samples_sent,
      List.filter_append] at hperm
    exact hperm
  constructor
  case promptTotal =>
    rw [h.tallied.promptTotal, sum_eq_filter]
    unfold admissions
    rw [List.map_map]
    rfl
  case prompts => exact hprompts
  case once =>
    have hnodup := (hprompts.map Prod.fst).nodup_iff.2 (map_fst_firstChunks_nodup s.scheduler.chunks)
    rw [List.map_append] at hnodup
    exact hnodup.of_append_left
  case lengths => exact h.sourced.chunks
  case completionTotal =>
    rw [h.tallied.completionTotal, sum_eq_filter]
    have hone : ∀ r ∈ s.received.filter UserReply.isSample, r.completionTokensDelta = 1 := by
      intro r hr
      have hmem := hcompletions.mem_iff.1 (List.mem_append_left _ hr)
      obtain ⟨m, hm, rfl⟩ := List.mem_map.1 hmem
      cases m with
      | promptAdmitted => cases (List.mem_filter.1 hm).2
      | detokenize => rfl
      | errorReply => cases (List.mem_filter.1 hm).2
    show ((s.received.filter UserReply.isSample).map _).sum = _
    rw [List.map_congr_left hone]
    generalize s.received.filter UserReply.isSample = samples
    induction samples with
    | nil => rfl
    | cons r samples ih => rw [List.map_cons, List.sum_cons, ih, List.length_cons, Nat.add_comm]
  case completions => exact hcompletions

/-! ## A final snapshot -/

/-- A sealed snapshot stays, and so does the number of users. -/
theorem Inv.sealed_step (h : s.Inv tokenizer overlap) {snapshot : SealedAccounting}
    (hsealed : s.frontend.sealedAccounting = some snapshot) {a : ServingAction}
    (hs : s.step tokenizer overlap a = some t) :
    t.frontend.sealedAccounting = some snapshot ∧
      t.frontend.uidCounter = s.frontend.uidCounter := by
  have hidle : s.frontend.prepare = .idle := by
    by_contra hne
    have hnone := (h.barred.closed hne).2
    rw [hsealed] at hnone
    cases hnone
  cases a with
  | newUser text maxTokens =>
      obtain ⟨f, hf, rfl⟩ := Option.map_eq_some_iff.1 hs
      unfold Frontend.newUser at hf
      rw [if_pos (by rw [(h.barred.snapshot snapshot hsealed).2.1]; decide)] at hf
      cases hf
  | sendOne uid i =>
      obtain ⟨sent, hsent, rfl⟩ := Option.map_eq_some_iff.1 hs
      obtain ⟨msg, -, rfl⟩ := Option.map_eq_some_iff.1 hsent
      exact ⟨hsealed, rfl⟩
  | abortUser uid i =>
      simp only [step] at hs
      split at hs
      · cases hs
        exact ⟨hsealed, rfl⟩
      · cases hs
  | listen i =>
      simp only [step, Serving.listen] at hs
      split at hs
      · cases hs
      · cases hs
        exact ⟨hsealed, rfl⟩
  | prepareStop =>
      simp only [step, if_pos hidle] at hs
      cases hs
      rcases prepareStop_cases s.frontend with ⟨_, _, heq⟩ | ⟨hnone, -⟩
      · rw [heq]
        exact ⟨hsealed, rfl⟩
      · rw [hsealed] at hnone
        cases hnone
  | sealAccounting =>
      simp [step, hidle] at hs
  | drainTimeout =>
      simp [step, hidle] at hs
  | prepareAbort uid i =>
      simp [step, hidle] at hs
  | prepareRaises =>
      simp [step, hidle] at hs
  | takeFrontend i =>
      obtain ⟨w, -, rfl⟩ := Option.map_eq_some_iff.1 hs
      exact ⟨hsealed, rfl⟩
  | takeScheduler i =>
      obtain ⟨w, -, rfl⟩ := Option.map_eq_some_iff.1 hs
      exact ⟨hsealed, rfl⟩
  | process i =>
      cases hs
      exact ⟨hsealed, rfl⟩
  | receive i =>
      simp only [step, Serving.receive] at hs
      split at hs
      · cases hs
      · cases hs
        exact ⟨hsealed, rfl⟩
  | turn admits sample =>
      cases hs
      exact ⟨hsealed, rfl⟩

/-- The engine behind a sealed snapshot. -/
structure Shut (tokenizer : Tokenizer) (overlap : Bool) (snapshot : SealedAccounting) (users : Nat)
    (s : Serving) : Prop where
  inv : s.Inv tokenizer overlap
  sealedWith : s.frontend.sealedAccounting = some snapshot
  counter : s.frontend.uidCounter = users

theorem Shut.next {snapshot : SealedAccounting} {users : Nat}
    (h : Shut tokenizer overlap snapshot users s) {a : ServingAction} (hbounded : s.TombstonesBounded a)
    (hs : s.step tokenizer overlap a = some t) : Shut tokenizer overlap snapshot users t := by
  obtain ⟨hstill, hsame⟩ := h.inv.sealed_step h.sealedWith hs
  exact ⟨inv_step h.inv hbounded hs, hstill, hsame.trans h.counter⟩

theorem Shut.final {snapshot : SealedAccounting} {users : Nat}
    (h : Shut tokenizer overlap snapshot users s) : Final snapshot users s := by
  obtain ⟨-, -, hprompt, hcompletion⟩ := h.inv.barred.snapshot snapshot h.sealedWith
  refine ⟨hprompt, hcompletion, h.counter, fun r hr => ?_⟩
  exact Option.some.inj ((h.inv.barred.returned r hr).symm.trans h.sealedWith)

/-- The totals are exact in every state, and final once a snapshot was returned. -/
theorem accounting_final (tokenizer : Tokenizer) (overlap : Bool)
    (maintenanceState : MaintenanceState) (maxSeqLen : Nat) (actions : List ServingAction)
    (hbounded : Keeps (step tokenizer overlap) TombstonesBounded
      (start maintenanceState maxSeqLen) actions) :
    Always (step tokenizer overlap)
      (fun s rest => s.Exact tokenizer ∧ ∀ snapshot ∈ s.frontend.returned,
        Always (step tokenizer overlap)
          (fun t _ => Final snapshot s.frontend.uidCounter t) s rest)
      (start maintenanceState maxSeqLen) actions := by
  have hinv := inv_start tokenizer overlap maintenanceState maxSeqLen
  refine always_of_invariant (fun h ha hs => inv_step h ha hs) ?_ hinv hbounded
  intro s rest h hkeeps
  refine ⟨h.exact, fun snapshot hreturned => ?_⟩
  -- from here on the snapshot stays, and no user is admitted
  have hshut : Shut tokenizer overlap snapshot s.frontend.uidCounter s :=
    ⟨h, h.barred.returned snapshot hreturned, rfl⟩
  exact always_of_invariant (fun h ha hs => h.next ha hs) (fun h _ => h.final) hshut hkeeps

/-- A user whose client disconnects while the engine is stopped: the abort goes another way than the
prompt, one token more is sampled, and the retry returns the same snapshot. -/
def stoppedRun : List ServingAction :=
  let sample : Nat → Sampled := fun _ => ⟨9, false⟩
  [.newUser "hi" 4, .sendOne 0 0, .takeFrontend 0, .process 0, .receive 0, .turn [⟨false, 0⟩] sample,
    .prepareStop, .drainTimeout, .turn [] sample, .prepareAbort 0 1, .takeFrontend 1, .process 1,
    .takeScheduler 0, .takeScheduler 0, .process 0, .receive 1, .turn [] sample, .listen 0, .listen 0,
    .takeScheduler 0, .process 0, .listen 0, .sealAccounting, .prepareStop]

theorem accounting_final_stopped :
    ((runAll (step (fun _ => .ok [7]) true) (start .serving 16) stoppedRun).map fun s =>
        s.frontend.returned) = some [⟨1, 1⟩, ⟨1, 1⟩] ∧
      Always (step (fun _ => .ok [7]) true)
        (fun s rest => s.Exact (fun _ => .ok [7]) ∧ ∀ snapshot ∈ s.frontend.returned,
          Always (step (fun _ => .ok [7]) true)
            (fun t _ => Final snapshot s.frontend.uidCounter t) s rest)
        (start .serving 16) stoppedRun := by
  refine ⟨?_, ?_⟩
  · rfl
  · apply accounting_final
    decide

end Serving

end FreeToken
