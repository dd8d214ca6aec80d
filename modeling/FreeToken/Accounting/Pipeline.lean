import FreeToken.Accounting.Upstream

/-!
# Replies on their way

Behind a terminal reply of a user no other reply of the user counts, wherever the reply is, and
nothing that counts follows from the scheduler.
-/

set_option autoImplicit false

namespace FreeToken

namespace UserReply

/-- Whether the reply adds to a total. -/
def counts (reply : UserReply) : Bool := reply.isAdmission || reply.isSample

end UserReply

/-- The order of two replies to the frontend. -/
def After (a b : UserReply) : Prop := a.finished = true → b.uid = a.uid → b.counts = false

namespace GenerationMsg

theorem reply_counts {msg : GenerationMsg} (h : msg.counts = false) : msg.reply.counts = false := by
  cases msg with
  | promptAdmitted => cases h
  | detokenize => cases h
  | errorReply => rfl

theorem counts_of_reply {msg : GenerationMsg} (h : msg.reply.counts = true) : msg.counts = true := by
  cases msg with
  | promptAdmitted => rfl
  | detokenize => rfl
  | errorReply => cases h

end GenerationMsg

namespace Worker

/-! ## The regrouped replies -/

theorem generationReplies_perm (msgs : List GenerationMsg) :
    (generationReplies msgs).Perm (msgs.map GenerationMsg.reply) := by
  unfold generationReplies
  rw [← List.map_append, ← List.map_append]
  apply List.Perm.map
  induction msgs with
  | nil => exact List.Perm.refl _
  | cons m msgs ih =>
      cases m with
      | promptAdmitted => exact ih.cons _
      | detokenize uid nextToken finished =>
          refine List.Perm.trans ?_ (ih.cons _)
          rw [List.append_assoc, List.append_assoc]
          exact List.perm_middle
      | errorReply uid error code =>
          refine List.Perm.trans ?_ (ih.cons _)
          exact List.perm_middle

/-- The regrouping moves admissions forward and errors back. -/
theorem generationReplies_order {msgs : List GenerationMsg}
    (h : (msgs.map GenerationMsg.reply).Pairwise After) :
    (generationReplies msgs).Pairwise After := by
  have hadmitted {r : UserReply}
      (hr : r ∈ (msgs.filter GenerationMsg.isAdmitted).map GenerationMsg.reply) :
      r.finished = false := by
    obtain ⟨m, hm, rfl⟩ := List.mem_map.1 hr
    exact GenerationMsg.finished_of_admitted (List.mem_filter.1 hm).2
  have herror {r : UserReply}
      (hr : r ∈ (msgs.filter GenerationMsg.isError).map GenerationMsg.reply) :
      r.counts = false := by
    obtain ⟨m, hm, rfl⟩ := List.mem_map.1 hr
    exact GenerationMsg.reply_counts (GenerationMsg.counts_of_error (List.mem_filter.1 hm).2)
  have hpart (p : GenerationMsg → Bool) :
      ((msgs.filter p).map GenerationMsg.reply).Pairwise After :=
    h.sublist (List.filter_sublist.map _)
  apply List.pairwise_append.2
  refine ⟨List.pairwise_append.2 ⟨hpart _, hpart _, ?_⟩, hpart _, ?_⟩
  · intro a ha b _ hfin
    exact absurd (hfin.symm.trans (hadmitted ha)) (by decide)
  · exact fun a _ b hb _ _ => herror hb

section Process

variable (tokenizer : Tokenizer) (w : Worker)

/-- The prompts of a turn that could not be encoded. -/
def turnErrors : List UserReply := w.turnPrompts.filterMap (tokenizeError tokenizer)

theorem process_toFrontend : (w.process tokenizer).toFrontend
    = w.toFrontend ++ generationReplies w.generation ++ w.turnErrors tokenizer := rfl

theorem process_delivery : (w.process tokenizer).delivery
    = w.toFrontend ++ generationReplies w.generation ++ w.turnErrors tokenizer
      ++ w.fromScheduler.map GenerationMsg.reply := rfl

theorem delivery_append : w.delivery = w.toFrontend
    ++ (w.generation.map GenerationMsg.reply ++ w.fromScheduler.map GenerationMsg.reply) := by
  unfold delivery
  rw [List.map_append]

variable {tokenizer w}

/-- A refused prompt was one of the worker's. -/
theorem mem_turnErrors {r : UserReply} (h : r ∈ w.turnErrors tokenizer) :
    r.uid ∈ w.carried ∧ r.finished = true ∧ r.counts = false ∧
      ∃ msg ∈ w.turnPrompts, msg.uid = r.uid ∧ tokenizeError tokenizer msg = some r := by
  obtain ⟨msg, hmsg, herr⟩ := List.mem_filterMap.1 h
  obtain ⟨huid, hfin, hprompt, hcompletion⟩ := tokenizeError_some herr
  refine ⟨?_, hfin, ?_, msg, hmsg, huid.symm, herr⟩
  · rw [huid, carried, prompts_eq, List.map_append]
    exact List.mem_append_left _ (List.mem_append_left _ (List.mem_map_of_mem hmsg))
  · simp [UserReply.counts, UserReply.isAdmission, UserReply.isSample, hprompt, hcompletion]

/-- A turn keeps the replies and adds the refused prompts. -/
theorem mem_process_delivery {r : UserReply} :
    r ∈ (w.process tokenizer).delivery ↔ r ∈ w.delivery ∨ r ∈ w.turnErrors tokenizer := by
  rw [process_delivery, delivery_append]
  simp only [List.mem_append, (generationReplies_perm w.generation).mem_iff]
  tauto

theorem process_counts : ((w.process tokenizer).delivery.filter UserReply.counts).Perm
    (w.delivery.filter UserReply.counts) := by
  have herrors : (w.turnErrors tokenizer).filter UserReply.counts = [] := by
    rw [List.filter_eq_nil_iff]
    intro r hr
    rw [(mem_turnErrors hr).2.2.1]
    decide
  rw [process_delivery, delivery_append]
  simp only [List.filter_append, herrors, List.append_assoc]
  exact (((generationReplies_perm w.generation).filter _).append_right _).append_left _

theorem process_order (h : w.delivery.Pairwise After)
    (hsilent : ∀ r ∈ w.turnErrors tokenizer, ∀ r' ∈ w.delivery, r'.uid = r.uid → r'.counts = false) :
    (w.process tokenizer).delivery.Pairwise After := by
  rw [delivery_append] at h
  obtain ⟨hfront, hback, hcross⟩ := List.pairwise_append.1 h
  obtain ⟨hgen, hsched, hgensched⟩ := List.pairwise_append.1 hback
  have hmem {r : UserReply} (hr : r ∈ generationReplies w.generation) :
      r ∈ w.generation.map GenerationMsg.reply := (generationReplies_perm _).mem_iff.1 hr
  rw [process_delivery]
  apply List.pairwise_append.2
  refine ⟨List.pairwise_append.2 ⟨List.pairwise_append.2 ⟨hfront, ?_, ?_⟩, ?_, ?_⟩, hsched, ?_⟩
  · exact generationReplies_order hgen
  · exact fun a ha b hb => hcross a ha b (List.mem_append_left _ (hmem hb))
  · apply List.pairwise_of_forall_mem_list
    exact fun a _ b hb _ _ => (mem_turnErrors hb).2.2.1
  · exact fun a _ b hb _ _ => (mem_turnErrors hb).2.2.1
  · intro a ha b hb
    rcases List.mem_append.1 ha with ha | ha
    · rcases List.mem_append.1 ha with ha | ha
      · exact hcross a ha b (List.mem_append_right _ hb)
      · exact hgensched a (hmem ha) b hb
    · -- nothing of a refused prompt is on its way
      intro _ huid
      apply hsilent a ha b _ huid
      rw [delivery_append]
      exact List.mem_append_right _ (List.mem_append_right _ hb)

end Process

end Worker

namespace Serving

/-- No reply of the user that counts is on its way. -/
def Silent (s : Serving) (uid : Nat) : Prop :=
  ∀ r ∈ (s.workers 0).delivery, r.uid = uid → r.counts = false

/-- The scheduler has nothing left of an admitted user, and will drop a prompt that still comes. -/
def Done (s : Serving) (uid : Nat) : Prop :=
  uid < s.frontend.uidCounter ∧ s.scheduler.Drained uid ∧
    (s.Upstream uid → uid ∈ s.scheduler.abortTombstones)

structure Piped (overlap : Bool) (s : Serving) : Prop where
  wf : s.scheduler.WF
  normal : overlap = false → s.scheduler.lastData = []
  entered : ∀ uid, s.scheduler.Entered uid → uid < s.frontend.uidCounter ∧ ¬ s.Upstream uid
  aborts : ∀ i, ∀ uid ∈ (s.workers i).aborts, uid < s.frontend.uidCounter
  acks : ∀ uid ∈ s.scheduler.pendingAbortAcks, uid < s.frontend.uidCounter ∧ s.scheduler.Out uid ∧
    (s.Upstream uid → uid ∈ s.scheduler.abortTombstones)
  counted : ∀ r ∈ (s.workers 0).delivery, r.counts = true → r.uid ∈ s.scheduler.chunkUids
  order : (s.workers 0).delivery.Pairwise After
  finished : ∀ i, ∀ r ∈ (s.workers i).delivery, r.finished = true → s.Done r.uid
  others : ∀ i, i ≠ 0 → (s.workers i).queued = [] ∧
    ∀ r ∈ (s.workers i).toFrontend, r.finished = true ∧ r.counts = false ∧ s.Silent r.uid
  ended : ∀ uid < s.frontend.uidCounter, uid ∉ s.frontend.stats.inflight → s.Done uid ∧ s.Silent uid

variable {tokenizer : Tokenizer} {overlap : Bool} {s t : Serving} {i : Nat}

/-- A step of the frontend or of a worker that leaves its replies alone. -/
structure Reworks (s t : Serving) : Prop where
  scheduler : t.scheduler = s.scheduler
  counter : t.frontend.uidCounter = s.frontend.uidCounter
  inflight : t.frontend.stats.inflight = s.frontend.stats.inflight
  upstream : ∀ uid, t.Upstream uid → s.Upstream uid
  queued : ∀ j, (t.workers j).queued = (s.workers j).queued
  toFrontend : ∀ j, (t.workers j).toFrontend = (s.workers j).toFrontend
  aborts : ∀ j, ∀ uid ∈ (t.workers j).aborts,
    uid ∈ (s.workers j).aborts ∨ uid < s.frontend.uidCounter

theorem Reworks.delivery (hr : Reworks s t) (j : Nat) :
    (t.workers j).delivery = (s.workers j).delivery := by
  rw [Worker.delivery_eq, Worker.delivery_eq, hr.queued, hr.toFrontend]

theorem Reworks.done (hr : Reworks s t) {uid : Nat} (h : s.Done uid) : t.Done uid := by
  unfold Done
  rw [hr.counter, hr.scheduler]
  exact ⟨h.1, h.2.1, fun hu => h.2.2 (hr.upstream uid hu)⟩

theorem Reworks.silent (hr : Reworks s t) {uid : Nat} (h : s.Silent uid) : t.Silent uid := by
  unfold Silent
  rw [hr.delivery]
  exact h

theorem Piped.reworks (h : s.Piped overlap) (hr : Reworks s t) : t.Piped overlap := by
  constructor
  case wf =>
    rw [hr.scheduler]
    exact h.wf
  case normal =>
    rw [hr.scheduler]
    exact h.normal
  case entered =>
    rw [hr.scheduler, hr.counter]
    exact fun uid hu => ⟨(h.entered uid hu).1, fun hup => (h.entered uid hu).2 (hr.upstream uid hup)⟩
  case aborts =>
    rw [hr.counter]
    exact fun j uid hu => (hr.aborts j uid hu).elim (h.aborts j uid) fun hlt => hlt
  case acks =>
    rw [hr.scheduler, hr.counter]
    intro uid hu
    obtain ⟨hlt, hout, htomb⟩ := h.acks uid hu
    exact ⟨hlt, hout, fun hup => htomb (hr.upstream uid hup)⟩
  case counted =>
    rw [hr.delivery, hr.scheduler]
    exact h.counted
  case order =>
    rw [hr.delivery]
    exact h.order
  case finished =>
    intro j r hrep hfin
    rw [hr.delivery] at hrep
    exact hr.done (h.finished j r hrep hfin)
  case others =>
    intro j hj
    rw [hr.queued, hr.toFrontend]
    obtain ⟨hqueued, hfront⟩ := h.others j hj
    refine ⟨hqueued, fun r hrep => ?_⟩
    obtain ⟨hfin, hcounts, hsilent⟩ := hfront r hrep
    exact ⟨hfin, hcounts, hr.silent hsilent⟩
  case ended =>
    rw [hr.counter, hr.inflight]
    intro uid hlt hnot
    obtain ⟨hdone, hsilent⟩ := h.ended uid hlt hnot
    exact ⟨hr.done hdone, hr.silent hsilent⟩

/-- A new user is in flight. -/
theorem Piped.newUser (h : s.Piped overlap) (hscheduler : t.scheduler = s.scheduler)
    (hworkers : t.workers = s.workers)
    (hcounter : t.frontend.uidCounter = s.frontend.uidCounter + 1)
    (hinflight : ∀ uid, uid ∈ t.frontend.stats.inflight ↔
      uid ∈ s.frontend.stats.inflight ∨ uid = s.frontend.uidCounter)
    (hup : ∀ uid, t.Upstream uid → s.Upstream uid ∨ uid = s.frontend.uidCounter) :
    t.Piped overlap := by
  have hold {uid : Nat} (hlt : uid < s.frontend.uidCounter) (hu : t.Upstream uid) : s.Upstream uid :=
    (hup uid hu).resolve_right (Nat.ne_of_lt hlt)
  have hdone {uid : Nat} (hd : s.Done uid) : t.Done uid := by
    unfold Done
    rw [hcounter, hscheduler]
    exact ⟨Nat.lt_succ_of_lt hd.1, hd.2.1, fun hu => hd.2.2 (hold hd.1 hu)⟩
  have hsilent {uid : Nat} (hs : s.Silent uid) : t.Silent uid := by
    unfold Silent
    rw [hworkers]
    exact hs
  constructor
  case wf =>
    rw [hscheduler]
    exact h.wf
  case normal =>
    rw [hscheduler]
    exact h.normal
  case entered =>
    rw [hscheduler, hcounter]
    intro uid hu
    obtain ⟨hlt, hnot⟩ := h.entered uid hu
    exact ⟨Nat.lt_succ_of_lt hlt, fun hup => hnot (hold hlt hup)⟩
  case aborts =>
    rw [hworkers, hcounter]
    exact fun j uid hu => Nat.lt_succ_of_lt (h.aborts j uid hu)
  case acks =>
    rw [hscheduler, hcounter]
    intro uid hu
    obtain ⟨hlt, hout, htomb⟩ := h.acks uid hu
    exact ⟨Nat.lt_succ_of_lt hlt, hout, fun hup => htomb (hold hlt hup)⟩
  case counted =>
    rw [hworkers, hscheduler]
    exact h.counted
  case order =>
    rw [hworkers]
    exact h.order
  case finished =>
    rw [hworkers]
    exact fun j r hr hfin => hdone (h.finished j r hr hfin)
  case others =>
    rw [hworkers]
    intro j hj
    obtain ⟨hqueued, hfront⟩ := h.others j hj
    refine ⟨hqueued, fun r hr => ?_⟩
    obtain ⟨hfin, hcounts, hs⟩ := hfront r hr
    exact ⟨hfin, hcounts, hsilent hs⟩
  case ended =>
    rw [hcounter]
    intro uid hlt hnot
    rw [hinflight, not_or] at hnot
    have hlt' : uid < s.frontend.uidCounter := by
      have hne := hnot.2
      omega
    obtain ⟨hd, hs⟩ := h.ended uid hlt' hnot.1
    exact ⟨hdone hd, hsilent hs⟩

/-! ## A turn of a worker -/

theorem process_worker_carried (tokenizer : Tokenizer) (s : Serving) (i j : Nat) :
    ((s.setWorker i ((s.workers i).process tokenizer)).workers j).carried.Subperm
      (s.workers j).carried := by
  rw [setWorker_workers]
  exact forall_update (P := fun j w => w.carried.Subperm (s.workers j).carried)
    (fun _ => List.Subperm.refl _) Worker.process_carried j

theorem Piped.process (h : s.Piped overlap) (hunique : s.Unique) (tokenizer : Tokenizer) (i : Nat) :
    (s.setWorker i ((s.workers i).process tokenizer)).Piped overlap := by
  have hup {uid : Nat} (hu : (s.setWorker i ((s.workers i).process tokenizer)).Upstream uid) :
      s.Upstream uid :=
    upstream_shrink (s := s) (t := s.setWorker i _) rfl (process_worker_carried tokenizer s i) hu
  have hdone {uid : Nat} (hd : s.Done uid) :
      (s.setWorker i ((s.workers i).process tokenizer)).Done uid :=
    ⟨hd.1, hd.2.1, fun hu => hd.2.2 (hup hu)⟩
  -- a reply of worker 0 that counts is of a prompt that the scheduler has
  have hcarried {r r' : UserReply} (hr : r ∈ (s.workers i).turnErrors tokenizer)
      (hr' : r' ∈ (s.workers 0).delivery) (huid : r'.uid = r.uid) : r'.counts = false := by
    by_contra hcounts
    have hchunk := h.counted r' hr' (by simpa using hcounts)
    apply (h.entered r.uid (.inr (huid ▸ hchunk))).2
    exact .inr ⟨i, (Worker.mem_turnErrors hr).1⟩
  have hsilent {uid : Nat} (hs : s.Silent uid) :
      (s.setWorker i ((s.workers i).process tokenizer)).Silent uid := by
    intro r hr huid
    rw [setWorker_workers] at hr
    by_cases hi : i = 0
    · subst hi
      rw [Function.update_self, Worker.mem_process_delivery] at hr
      rcases hr with hr | hr
      · exact hs r hr huid
      · exact (Worker.mem_turnErrors hr).2.2.1
    · rw [Function.update_of_ne (Ne.symm hi)] at hr
      exact hs r hr huid
  -- a refused prompt is over
  have hrefused {r : UserReply} (hr : r ∈ (s.workers i).turnErrors tokenizer) :
      (s.setWorker i ((s.workers i).process tokenizer)).Done r.uid := by
    obtain ⟨hmem, -, -, msg, hmsg, huid, herr⟩ := Worker.mem_turnErrors hr
    have hupstream : s.Upstream r.uid := .inr ⟨i, hmem⟩
    have hnot : ¬ s.scheduler.Entered r.uid := fun he => (h.entered _ he).2 hupstream
    refine ⟨hunique.admitted _ hupstream, ⟨⟨fun hp => hnot (.inl hp), fun hrun => ?_⟩, ?_⟩, ?_⟩
    · exact hnot (.inr (h.wf.prefilled _ hrun).1)
    · intro b hb heq
      exact absurd (.inr (heq ▸ (h.wf.launched b hb).1)) hnot
    · intro hu
      exact absurd hu (hunique.refused hmsg huid herr)
  constructor
  case wf => exact h.wf
  case normal => exact h.normal
  case entered => exact fun uid hu => ⟨(h.entered uid hu).1, fun hu' => (h.entered uid hu).2 (hup hu')⟩
  case aborts =>
    rw [setWorker_workers]
    apply forall_update (P := fun _ w => ∀ uid ∈ w.aborts, uid < s.frontend.uidCounter) h.aborts
    exact fun uid hu => h.aborts i uid (Worker.mem_process_aborts hu)
  case acks =>
    intro uid hu
    obtain ⟨hlt, hout, htomb⟩ := h.acks uid hu
    exact ⟨hlt, hout, fun hu' => htomb (hup hu')⟩
  case counted =>
    intro r hr hcounts
    rw [setWorker_workers] at hr
    by_cases hi : i = 0
    · subst hi
      rw [Function.update_self, Worker.mem_process_delivery] at hr
      rcases hr with hr | hr
      · exact h.counted r hr hcounts
      · exact absurd (hcounts.symm.trans (Worker.mem_turnErrors hr).2.2.1) (by decide)
    · rw [Function.update_of_ne (Ne.symm hi)] at hr
      exact h.counted r hr hcounts
  case order =>
    rw [setWorker_workers]
    by_cases hi : i = 0
    · subst hi
      rw [Function.update_self]
      exact Worker.process_order h.order fun r hr r' hr' huid => hcarried hr hr' huid
    · rw [Function.update_of_ne (Ne.symm hi)]
      exact h.order
  case finished =>
    intro j r hr hfin
    rw [setWorker_workers] at hr
    by_cases hj : j = i
    · subst hj
      rw [Function.update_self, Worker.mem_process_delivery] at hr
      rcases hr with hr | hr
      · exact hdone (h.finished j r hr hfin)
      · exact hrefused hr
    · rw [Function.update_of_ne hj] at hr
      exact hdone (h.finished j r hr hfin)
  case others =>
    intro j hj
    rw [setWorker_workers]
    by_cases hji : j = i
    · subst hji
      rw [Function.update_self]
      obtain ⟨hqueued, hfront⟩ := h.others j hj
      obtain ⟨hgen, hsched⟩ := List.append_eq_nil_iff.1 hqueued
      refine ⟨hsched, fun r hr => ?_⟩
      rw [Worker.process_toFrontend, hgen] at hr
      rcases List.mem_append.1 hr with hr | hr
      · have hmem : r ∈ (s.workers j).toFrontend := by simpa [Worker.generationReplies] using hr
        obtain ⟨hfin, hcounts, hs⟩ := hfront r hmem
        exact ⟨hfin, hcounts, hsilent hs⟩
      · obtain ⟨-, hfin, hcounts, -⟩ := Worker.mem_turnErrors hr
        exact ⟨hfin, hcounts, hsilent fun r' hr' huid => hcarried hr hr' huid⟩
    · rw [Function.update_of_ne hji]
      obtain ⟨hqueued, hfront⟩ := h.others j hj
      refine ⟨hqueued, fun r hr => ?_⟩
      obtain ⟨hfin, hcounts, hs⟩ := hfront r hr
      exact ⟨hfin, hcounts, hsilent hs⟩
  case ended =>
    intro uid hlt hnot
    obtain ⟨hd, hs⟩ := h.ended uid hlt hnot
    exact ⟨hdone hd, hsilent hs⟩

/-! ## What the scheduler sends -/

/-- A step of the scheduler with the messages that it sends; the workers' replies stay. -/
structure Sends (s t : Serving) (msgs : List GenerationMsg) : Prop where
  queued : ∀ j, (t.workers j).queued = (s.workers j).queued ++ if j = 0 then msgs else []
  toFrontend : ∀ j, (t.workers j).toFrontend = (s.workers j).toFrontend
  aborts : ∀ j, ∀ uid ∈ (t.workers j).aborts, uid ∈ (s.workers j).aborts
  frontend : t.frontend = s.frontend
  upstream : ∀ uid, t.Upstream uid → s.Upstream uid
  sent : t.scheduler.sent = s.scheduler.sent ++ msgs
  chunks : ∀ uid ∈ s.scheduler.chunkUids, uid ∈ t.scheduler.chunkUids
  order : msgs.Pairwise fun a b => a.reply.finished = true → b.uid = a.uid → b.counts = false
  silent : ∀ uid, s.Done uid → t.Done uid ∧ ∀ m ∈ msgs, m.uid = uid → m.counts = false
  ended : ∀ m ∈ msgs, m.reply.finished = true → t.Done m.uid

theorem Sends.delivery {msgs : List GenerationMsg} (hs : Sends s t msgs) :
    (t.workers 0).delivery = (s.workers 0).delivery ++ msgs.map GenerationMsg.reply := by
  rw [Worker.delivery_eq, Worker.delivery_eq, hs.queued, hs.toFrontend, if_pos rfl, List.map_append,
    List.append_assoc]

theorem Sends.delivery_other {msgs : List GenerationMsg} (hs : Sends s t msgs) {j : Nat}
    (hj : j ≠ 0) : (t.workers j).delivery = (s.workers j).delivery := by
  rw [Worker.delivery_eq, Worker.delivery_eq, hs.queued, hs.toFrontend, if_neg hj, List.append_nil]

/-- What the scheduler has sent of a prompt, it sent with or behind its first chunk. -/
theorem chunked_of_sent {sched : SchedulerLoop} (h : sched.WF) {m : GenerationMsg}
    (hm : m ∈ sched.sent) (hcounts : m.counts = true) : m.uid ∈ sched.chunkUids := by
  cases m with
  | detokenize uid nextToken finished => exact h.sampled _ hm rfl
  | errorReply uid error code => cases hcounts
  | promptAdmitted uid promptTokens cachedTokens =>
      have hfirst : (uid, promptTokens) ∈ firstChunks sched.chunks := by
        rw [← h.admissions]
        exact List.mem_filterMap.2 ⟨_, hm, rfl⟩
      exact List.mem_map_of_mem (f := Prod.fst) (mem_of_mem_firstChunks hfirst)

theorem Piped.sends (h : s.Piped overlap) {msgs : List GenerationMsg} (hs : Sends s t msgs)
    (hwf : t.scheduler.WF) (hnormal : overlap = false → t.scheduler.lastData = [])
    (hentered : ∀ uid, t.scheduler.Entered uid → uid < t.frontend.uidCounter ∧ ¬ t.Upstream uid)
    (hacks : ∀ uid ∈ t.scheduler.pendingAbortAcks, uid < t.frontend.uidCounter ∧
      t.scheduler.Out uid ∧ (t.Upstream uid → uid ∈ t.scheduler.abortTombstones)) :
    t.Piped overlap := by
  have hsilent {uid : Nat} (hd : s.Done uid) (hq : s.Silent uid) : t.Silent uid := by
    intro r hr huid
    rw [hs.delivery] at hr
    rcases List.mem_append.1 hr with hr | hr
    · exact hq r hr huid
    · obtain ⟨m, hm, rfl⟩ := List.mem_map.1 hr
      rw [GenerationMsg.reply_uid] at huid
      exact GenerationMsg.reply_counts ((hs.silent uid hd).2 m hm huid)
  constructor
  case wf => exact hwf
  case normal => exact hnormal
  case entered => exact hentered
  case aborts =>
    rw [hs.frontend]
    exact fun j uid hu => h.aborts j uid (hs.aborts j uid hu)
  case acks => exact hacks
  case counted =>
    intro r hr hcounts
    rw [hs.delivery] at hr
    rcases List.mem_append.1 hr with hr | hr
    · exact hs.chunks _ (h.counted r hr hcounts)
    · obtain ⟨m, hm, rfl⟩ := List.mem_map.1 hr
      rw [GenerationMsg.reply_uid]
      apply chunked_of_sent hwf _ (GenerationMsg.counts_of_reply hcounts)
      rw [hs.sent]
      exact List.mem_append_right _ hm
  case order =>
    rw [hs.delivery]
    apply List.pairwise_append.2
    refine ⟨h.order, ?_, ?_⟩
    · apply List.pairwise_map.2
      apply hs.order.imp
      intro a b hab hfin huid
      rw [GenerationMsg.reply_uid, GenerationMsg.reply_uid] at huid
      exact GenerationMsg.reply_counts (hab hfin huid)
    · -- behind a terminal reply the scheduler sends nothing more that counts
      intro a ha b hb hfin huid
      obtain ⟨m, hm, rfl⟩ := List.mem_map.1 hb
      rw [GenerationMsg.reply_uid] at huid
      exact GenerationMsg.reply_counts ((hs.silent _ (h.finished 0 a ha hfin)).2 m hm huid)
  case finished =>
    intro j r hr hfin
    by_cases hj : j = 0
    · subst hj
      rw [hs.delivery] at hr
      rcases List.mem_append.1 hr with hr | hr
      · exact (hs.silent _ (h.finished 0 r hr hfin)).1
      · obtain ⟨m, hm, rfl⟩ := List.mem_map.1 hr
        rw [GenerationMsg.reply_uid]
        exact hs.ended m hm hfin
    · rw [hs.delivery_other hj] at hr
      exact (hs.silent _ (h.finished j r hr hfin)).1
  case others =>
    intro j hj
    obtain ⟨hqueued, hfront⟩ := h.others j hj
    rw [hs.queued, hs.toFrontend, hqueued, if_neg hj]
    refine ⟨rfl, fun r hr => ?_⟩
    obtain ⟨hfin, hcounts, hq⟩ := hfront r hr
    have hmem : r ∈ (s.workers j).delivery := List.mem_append_left _ hr
    exact ⟨hfin, hcounts, hsilent (h.finished j r hmem hfin) hq⟩
  case ended =>
    rw [hs.frontend]
    intro uid hlt hnot
    obtain ⟨hd, hq⟩ := h.ended uid hlt hnot
    exact ⟨(hs.silent uid hd).1, hsilent hd hq⟩

/-- The replies of a worker go to the frontend in their order. -/
theorem Piped.listen (h : s.Piped overlap) {reply : UserReply} {rest : List UserReply}
    (hfront : (s.workers i).toFrontend = reply :: rest)
    (hworkers : t.workers = Function.update s.workers i { s.workers i with toFrontend := rest })
    (hscheduler : t.scheduler = s.scheduler)
    (hcounter : t.frontend.uidCounter = s.frontend.uidCounter)
    (hunsent : t.frontend.unsent = s.frontend.unsent)
    (hinflight : ∀ uid, uid ∈ s.frontend.stats.inflight →
      uid ∈ t.frontend.stats.inflight ∨ reply.finished = true ∧ uid = reply.uid) :
    t.Piped overlap := by
  have hcarried : ∀ j, (t.workers j).carried = (s.workers j).carried := by
    rw [hworkers]
    exact forall_update (P := fun j w => w.carried = (s.workers j).carried) (fun _ => rfl) rfl
  have hqueued : ∀ j, (t.workers j).queued = (s.workers j).queued := by
    rw [hworkers]
    exact forall_update (P := fun j w => w.queued = (s.workers j).queued) (fun _ => rfl) rfl
  have hfrontend : ∀ j, (t.workers j).toFrontend.Sublist (s.workers j).toFrontend := by
    rw [hworkers]
    apply forall_update (P := fun j w => w.toFrontend.Sublist (s.workers j).toFrontend)
      (fun _ => List.Sublist.refl _)
    rw [hfront]
    exact List.sublist_cons_self _ _
  have hdelivery (j : Nat) : (t.workers j).delivery.Sublist (s.workers j).delivery := by
    rw [Worker.delivery_eq, Worker.delivery_eq, hqueued]
    exact (hfrontend j).append_right _
  have hup {uid : Nat} (hu : t.Upstream uid) : s.Upstream uid :=
    upstream_shrink hunsent (fun j => (hcarried j).symm ▸ List.Subperm.refl _) hu
  have hdone {uid : Nat} (hd : s.Done uid) : t.Done uid := by
    unfold Done
    rw [hcounter, hscheduler]
    exact ⟨hd.1, hd.2.1, fun hu => hd.2.2 (hup hu)⟩
  have hsilent {uid : Nat} (hq : s.Silent uid) : t.Silent uid :=
    fun r hr => hq r ((hdelivery 0).subset hr)
  -- a terminal reply leaves nothing that counts behind it
  have hended (hfin : reply.finished = true) : t.Done reply.uid ∧ t.Silent reply.uid := by
    have hmem : reply ∈ (s.workers i).delivery := by
      rw [Worker.delivery_eq, hfront]
      exact List.mem_cons_self
    refine ⟨hdone (h.finished i reply hmem hfin), ?_⟩
    by_cases hi : i = 0
    · subst hi
      have horder := h.order
      rw [Worker.delivery_eq, hfront] at horder
      intro r hr huid
      rw [Worker.delivery_eq, hworkers, Function.update_self] at hr
      exact (List.pairwise_cons.1 horder).1 r hr hfin huid
    · have hother : reply ∈ (s.workers i).toFrontend := hfront ▸ List.mem_cons_self
      exact hsilent ((h.others i hi).2 reply hother).2.2
  constructor
  case wf =>
    rw [hscheduler]
    exact h.wf
  case normal =>
    rw [hscheduler]
    exact h.normal
  case entered =>
    rw [hscheduler, hcounter]
    exact fun uid hu => ⟨(h.entered uid hu).1, fun hu' => (h.entered uid hu).2 (hup hu')⟩
  case aborts =>
    rw [hworkers, hcounter]
    exact forall_update (P := fun _ w => ∀ uid ∈ w.aborts, uid < s.frontend.uidCounter) h.aborts
      (h.aborts i)
  case acks =>
    rw [hscheduler, hcounter]
    intro uid hu
    obtain ⟨hlt, hout, htomb⟩ := h.acks uid hu
    exact ⟨hlt, hout, fun hu' => htomb (hup hu')⟩
  case counted =>
    rw [hscheduler]
    exact fun r hr hcounts => h.counted r ((hdelivery 0).subset hr) hcounts
  case order => exact h.order.sublist (hdelivery 0)
  case finished =>
    exact fun j r hr hfin => hdone (h.finished j r ((hdelivery j).subset hr) hfin)
  case others =>
    intro j hj
    obtain ⟨hempty, hothers⟩ := h.others j hj
    refine ⟨(hqueued j).trans hempty, fun r hr => ?_⟩
    obtain ⟨hfin, hcounts, hq⟩ := hothers r ((hfrontend j).subset hr)
    exact ⟨hfin, hcounts, hsilent hq⟩
  case ended =>
    rw [hcounter]
    intro uid hlt hnot
    by_cases hin : uid ∈ s.frontend.stats.inflight
    · rcases hinflight uid hin with hin' | ⟨hfin, rfl⟩
      · exact absurd hin' hnot
      · exact hended hfin
    · obtain ⟨hd, hq⟩ := h.ended uid hlt hin
      exact ⟨hdone hd, hsilent hq⟩

end Serving

end FreeToken
