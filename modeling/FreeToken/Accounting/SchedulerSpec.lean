import Mathlib.Data.List.Nodup
import Mathlib.Data.List.Perm.Basic
import FreeToken.Accounting.SchedulerLoop

/-!
# What the scheduler sends

A request is pending, or prefilled and perhaps running, or neither.  A request that is neither, and of
which nothing is left to drain, is never heard of again.
-/

set_option autoImplicit false

namespace FreeToken

theorem firstChunks_append (l m : List (Nat × Nat)) :
    firstChunks (l ++ m)
      = firstChunks l ++ (firstChunks m).filter fun c => c.1 ∉ l.map Prod.fst := by
  induction l with
  | nil => simp [firstChunks]
  | cons c l ih =>
      simp only [List.cons_append, firstChunks, ih, List.filter_append, List.filter_filter,
        List.map_cons, List.mem_cons, not_or]
      congr 2
      apply List.filter_congr
      intro d _
      simp

theorem firstChunks_of_nodup {l : List (Nat × Nat)} (h : (l.map Prod.fst).Nodup) :
    firstChunks l = l := by
  induction l with
  | nil => rfl
  | cons c l ih =>
      obtain ⟨hc, hl⟩ := List.nodup_cons.1 h
      rw [firstChunks, ih hl, List.filter_eq_self.2]
      intro d hd
      have hne : d.1 ≠ c.1 := fun heq => hc (heq ▸ List.mem_map_of_mem hd)
      simpa using hne

theorem map_fst_firstChunks_nodup (l : List (Nat × Nat)) :
    ((firstChunks l).map Prod.fst).Nodup := by
  induction l with
  | nil => exact List.nodup_nil
  | cons c l ih =>
      apply List.nodup_cons.2
      constructor
      · -- the rest of the chunks of this prompt are filtered out
        intro hmem
        obtain ⟨d, hd, heq⟩ := List.mem_map.1 hmem
        simpa [heq] using (List.mem_filter.1 hd).2
      · exact ih.sublist (List.filter_sublist.map _)

theorem mem_of_mem_firstChunks {l : List (Nat × Nat)} {c : Nat × Nat} (h : c ∈ firstChunks l) :
    c ∈ l := by
  induction l with
  | nil => exact h
  | cons d l ih =>
      rcases List.mem_cons.1 h with rfl | h
      · exact List.mem_cons_self
      · exact List.mem_cons_of_mem _ (ih (List.mem_of_mem_filter h))

/-- Every prompt of which a chunk was scheduled has a first one. -/
theorem exists_firstChunk {l : List (Nat × Nat)} {uid : Nat} (h : uid ∈ l.map Prod.fst) :
    ∃ c ∈ firstChunks l, c.1 = uid := by
  induction l with
  | nil => exact absurd h List.not_mem_nil
  | cons d l ih =>
      by_cases hd : d.1 = uid
      · exact ⟨d, List.mem_cons_self, hd⟩
      · have hmem : uid ∈ l.map Prod.fst := by
          rcases List.mem_cons.1 h with heq | h
          · exact absurd heq.symm hd
          · exact h
        obtain ⟨c, hc, heq⟩ := ih hmem
        refine ⟨c, List.mem_cons_of_mem _ (List.mem_filter.2 ⟨hc, ?_⟩), heq⟩
        simpa [heq] using fun h : uid = d.1 => hd h.symm

namespace GenerationMsg

def uid : GenerationMsg → Nat
  | .promptAdmitted uid _ _ => uid
  | .detokenize uid _ _ => uid
  | .errorReply uid _ _ => uid

/-- The prompt that the message adds to the total. -/
def admission : GenerationMsg → Option (Nat × Nat)
  | .promptAdmitted uid promptTokens _ => some (uid, promptTokens)
  | _ => none

/-- Whether the message adds to a total. -/
def counts (msg : GenerationMsg) : Bool := msg.isAdmitted || msg.isSampled

@[simp] theorem reply_uid (msg : GenerationMsg) : msg.reply.uid = msg.uid := by
  cases msg <;> rfl

/-- A message is of one kind. -/
theorem kind_of_admitted {msg : GenerationMsg} (h : msg.isAdmitted = true) :
    msg.isSampled = false ∧ msg.isError = false := by
  cases msg <;> first | exact ⟨rfl, rfl⟩ | cases h

theorem kind_of_sampled {msg : GenerationMsg} (h : msg.isSampled = true) :
    msg.isAdmitted = false ∧ msg.isError = false := by
  cases msg <;> first | exact ⟨rfl, rfl⟩ | cases h

theorem kind_of_error {msg : GenerationMsg} (h : msg.isError = true) :
    msg.isAdmitted = false ∧ msg.isSampled = false := by
  cases msg <;> first | exact ⟨rfl, rfl⟩ | cases h

theorem finished_of_admitted {msg : GenerationMsg} (h : msg.isAdmitted = true) :
    msg.reply.finished = false := by
  cases msg <;> first | rfl | cases h

theorem admission_eq_none {msg : GenerationMsg} (h : msg.isAdmitted = false) :
    msg.admission = none := by
  cases msg <;> first | rfl | cases h

theorem counts_of_error {msg : GenerationMsg} (h : msg.isError = true) : msg.counts = false := by
  cases msg <;> first | rfl | cases h

end GenerationMsg

namespace SchedulerLoop

def pendingUids (s : SchedulerLoop) : List Nat := s.pendingList.map WaitingReq.uid

def chunkUids (s : SchedulerLoop) : List Nat := s.chunks.map Prod.fst

/-- The request has reached the scheduler and was not dropped. -/
def Entered (s : SchedulerLoop) (uid : Nat) : Prop := uid ∈ s.pendingUids ∨ uid ∈ s.chunkUids

/-- The request waits for nothing any more. -/
def Out (s : SchedulerLoop) (uid : Nat) : Prop := uid ∉ s.pendingUids ∧ uid ∉ s.runningReqs

/-- Nor is a token of it left to drain. -/
def Drained (s : SchedulerLoop) (uid : Nat) : Prop :=
  s.Out uid ∧
    ∀ r ∈ s.lastData, r.uid = uid → r.chunked = true ∨ r.aborted = true ∨ uid ∈ s.finishedReqs

structure WF (s : SchedulerLoop) : Prop where
  pending : s.pendingUids.Nodup
  chunked : ∀ p ∈ s.pendingList, p.chunked = true ↔ p.uid ∈ s.chunkUids
  running : s.runningReqs.Nodup
  prefilled : ∀ uid ∈ s.runningReqs, uid ∈ s.chunkUids ∧ uid ∉ s.pendingUids
  last : (s.lastData.map BatchReq.uid).Nodup
  launched : ∀ r ∈ s.lastData,
    r.uid ∈ s.chunkUids ∧ (r.chunked = false → r.uid ∉ s.pendingUids)
  admissions : s.sent.filterMap GenerationMsg.admission = firstChunks s.chunks
  sampled : ∀ m ∈ s.sent, m.isSampled = true → m.uid ∈ s.chunkUids
  tombstones : s.abortTombstones.length ≤ maxTombstones

variable {s : SchedulerLoop}

/-! ## Messages -/

theorem popPending_none {uid : Nat} {l : List WaitingReq} (h : popPending uid l = none) :
    uid ∉ l.map WaitingReq.uid := by
  induction l with
  | nil => exact List.not_mem_nil
  | cons p l ih =>
      simp only [popPending] at h
      split at h
      · cases h
      · rename_i hne
        have htail := ih (Option.map_eq_none_iff.1 h)
        simpa [List.mem_cons, not_or] using ⟨fun heq => hne heq.symm, by simpa using htail⟩

theorem popPending_some {uid : Nat} {l rest : List WaitingReq} {chunked : Bool}
    (hnodup : (l.map WaitingReq.uid).Nodup) (h : popPending uid l = some (chunked, rest)) :
    rest = l.filter (fun p => p.uid ≠ uid) ∧ ∃ p ∈ l, p.uid = uid ∧ p.chunked = chunked := by
  induction l generalizing rest with
  | nil => cases h
  | cons p l ih =>
      obtain ⟨hp, hl⟩ := List.nodup_cons.1 hnodup
      simp only [popPending] at h
      split at h
      · rename_i heq
        cases h
        refine ⟨?_, p, List.mem_cons_self, heq, rfl⟩
        -- no other request has the uid
        rw [List.filter_cons_of_neg (by simp [heq]), List.filter_eq_self.2]
        intro q hq
        have hne : q.uid ≠ uid := fun hqu => hp (by rw [heq, ← hqu]; exact List.mem_map_of_mem hq)
        simpa using hne
      · rename_i hne
        obtain ⟨⟨c, tail⟩, hpop, heq⟩ := Option.map_eq_some_iff.1 h
        cases heq
        obtain ⟨htail, q, hq, hqu⟩ := ih hl hpop
        refine ⟨?_, q, List.mem_cons_of_mem _ hq, hqu⟩
        rw [List.filter_cons_of_pos (by simpa using hne), ← htail]

/-- What an abort does: the user leaves the lists, and its requests in flight may be marked. -/
structure Aborts (s t : SchedulerLoop) (uid : Nat) : Prop where
  pending : t.pendingList = s.pendingList.filter fun p => p.uid ≠ uid
  running : t.runningReqs = s.runningReqs.filter fun v => v ≠ uid
  last : t.lastData = s.lastData ∨ t.lastData = markAborted uid s.lastData
  tombstones : t.abortTombstones = addTombstone s.abortTombstones uid
  acks : t.pendingAbortAcks = s.pendingAbortAcks.insert uid
  finished : t.finishedReqs = s.finishedReqs
  sent : t.sent = s.sent
  chunks : t.chunks = s.chunks

theorem processAbort_spec (h : s.WF) (uid : Nat) : Aborts s (s.processAbort uid) uid := by
  have hsame {l : List Nat} (hl : uid ∉ l) : l = l.filter fun v => v ≠ uid := by
    rw [List.filter_eq_self.2]
    intro v hv
    have hne : v ≠ uid := fun heq => hl (heq ▸ hv)
    simpa using hne
  have hpending (hp : uid ∉ s.pendingUids) :
      s.pendingList = s.pendingList.filter fun p => p.uid ≠ uid := by
    rw [List.filter_eq_self.2]
    intro p hpl
    have hne : p.uid ≠ uid := fun heq => hp (heq ▸ List.mem_map_of_mem hpl)
    simpa using hne
  unfold processAbort
  cases hpop : popPending uid s.pendingList with
  | none =>
      have hlist := hpending (popPending_none hpop)
      by_cases hrun : uid ∈ s.runningReqs
      · simp only [hpop, if_pos hrun]
        exact ⟨hlist, rfl, .inr rfl, rfl, rfl, rfl, rfl, rfl⟩
      · simp only [hpop, if_neg hrun]
        exact ⟨hlist, hsame hrun, .inl rfl, rfl, rfl, rfl, rfl, rfl⟩
  | some found =>
      obtain ⟨chunked, rest⟩ := found
      obtain ⟨hrest, p, hp, hpu, hpc⟩ := popPending_some h.pending hpop
      -- a pending request does not run
      have hrun : uid ∉ s.runningReqs := by
        intro hrun
        apply (h.prefilled uid hrun).2
        rw [← hpu]
        exact List.mem_map_of_mem hp
      cases chunked with
      | true =>
          simp only [hpop]
          exact ⟨hrest, hsame hrun, .inr rfl, rfl, rfl, rfl, rfl, rfl⟩
      | false =>
          simp only [hpop, if_neg hrun]
          exact ⟨hrest, hsame hrun, .inl rfl, rfl, rfl, rfl, rfl, rfl⟩

theorem dropOldest_of_le {l : List Nat} (h : l.length ≤ maxTombstones) : dropOldest l = l := by
  cases l with
  | nil => rfl
  | cons oldest rest => rw [dropOldest, if_neg (by omega)]

theorem dropOldest_length (l : List Nat) : (dropOldest l).length ≤ maxTombstones := by
  induction l with
  | nil => exact Nat.zero_le _
  | cons oldest rest ih =>
      rw [dropOldest]
      split
      · exact ih
      · omega

/-- Below the bound no tombstone is lost. -/
theorem mem_addTombstone {tombstones : List Nat} {uid v : Nat}
    (hle : tombstones.length ≤ maxTombstones)
    (h : uid ∈ tombstones ∨ tombstones.length < maxTombstones) :
    v ∈ addTombstone tombstones uid ↔ v ∈ tombstones ∨ v = uid := by
  unfold addTombstone
  by_cases hmem : uid ∈ tombstones
  · rw [if_pos hmem, dropOldest_of_le hle]
    constructor
    · exact .inl
    · rintro (hv | rfl)
      · exact hv
      · exact hmem
  · have hlt := h.resolve_left hmem
    rw [if_neg hmem, dropOldest_of_le (by rw [List.length_append, List.length_singleton]; omega)]
    simp

/-! ## Launching a batch -/

/-- What the choice of a batch and its launch do; `msgs` are the admissions. -/
structure Launches (s t : SchedulerLoop) (batch : List BatchReq) (msgs : List GenerationMsg) :
    Prop where
  pending : t.pendingUids.Sublist s.pendingUids
  waits : ∀ p ∈ t.pendingList, ∃ q ∈ s.pendingList, q.uid = p.uid ∧ q.inputLen = p.inputLen
  chunked : ∀ p ∈ t.pendingList, p.chunked = true ↔ p.uid ∈ t.chunkUids
  unique : (batch.map BatchReq.uid).Nodup
  source : ∀ r ∈ batch, r.uid ∈ s.pendingUids ∨ r.uid ∈ s.runningReqs
  launched : ∀ r ∈ batch, r.uid ∈ t.chunkUids ∧ (r.chunked = false → r.uid ∉ t.pendingUids)
  nodup : t.runningReqs.Nodup
  runs : ∀ uid ∈ t.runningReqs,
    uid ∈ s.runningReqs ∨ ∃ r ∈ batch, r.chunked = false ∧ r.uid = uid
  chunks : ∃ more, t.chunks = s.chunks ++ more ∧
    ∀ c ∈ more, ∃ p ∈ s.pendingList, c = (p.uid, p.inputLen)
  admissions : firstChunks t.chunks = firstChunks s.chunks ++ msgs.filterMap GenerationMsg.admission
  admitted : ∀ m ∈ msgs, m.isAdmitted = true ∧ m.uid ∈ s.pendingUids
  last : t.lastData = s.lastData
  finished : t.finishedReqs = s.finishedReqs
  tombstones : t.abortTombstones = s.abortTombstones
  acks : t.pendingAbortAcks = s.pendingAbortAcks
  sent : t.sent = s.sent

theorem taken_append (admits : List Admit) :
    (s.taken admits).map Prod.fst ++ s.pendingList.drop (s.taken admits).length = s.pendingList := by
  unfold taken
  generalize s.pendingList = l
  induction l generalizing admits with
  | nil => simp
  | cons p l ih =>
      cases admits with
      | nil => simp
      | cons a admits => simpa using ih admits

theorem mem_foldl_insert {l m : List Nat} {v : Nat} :
    v ∈ l.foldl (fun uids uid => uids.insert uid) m ↔ v ∈ m ∨ v ∈ l := by
  induction l generalizing m with
  | nil => simp
  | cons u l ih =>
      rw [List.foldl_cons, ih, List.mem_insert_iff, List.mem_cons]
      tauto

theorem nodup_foldl_insert {l m : List Nat} (h : m.Nodup) :
    (l.foldl (fun uids uid => uids.insert uid) m).Nodup := by
  induction l generalizing m with
  | nil => exact h
  | cons u l ih => exact ih h.insert

theorem mem_forward_running {batch : List BatchReq} {uid : Nat}
    (h : uid ∈ (s.forward batch).runningReqs) :
    uid ∈ s.runningReqs ∨ ∃ r ∈ batch, r.chunked = false ∧ r.uid = uid := by
  have hmem := List.mem_of_mem_filter h
  rcases mem_foldl_insert.1 hmem with hrun | hsampled
  · exact .inl hrun
  · obtain ⟨r, hr, heq⟩ := List.mem_map.1 hsampled
    obtain ⟨hb, hc⟩ := List.mem_filter.1 hr
    exact .inr ⟨r, hb, by simpa using hc, heq⟩

theorem forward_nodup (h : s.runningReqs.Nodup) (batch : List BatchReq) :
    (s.forward batch).runningReqs.Nodup :=
  (nodup_foldl_insert h).filter _

theorem filter_map_eq_filterMap {α β : Type} {f : α → β} {g : β → Bool} {c : α → Bool} {l : List α}
    (h : ∀ a ∈ l, g (f a) = !c a) :
    (l.map f).filter g = l.filterMap fun a => if c a = true then none else some (f a) := by
  induction l with
  | nil => rfl
  | cons a l ih =>
      have hl := ih fun b hb => h b (List.mem_cons_of_mem _ hb)
      have ha := h a List.mem_cons_self
      cases hc : c a with
      | true => simp [ha, hc, hl]
      | false => simp [ha, hc, hl]

section Prefill

variable (admits : List Admit)

theorem taken_uids : (s.taken admits).map (fun p => p.1.uid)
    ++ (s.pendingList.drop (s.taken admits).length).map WaitingReq.uid = s.pendingUids := by
  have h := congrArg (List.map WaitingReq.uid) (taken_append (s := s) admits)
  simpa [pendingUids, Function.comp_def] using h

variable {admits}

theorem mem_taken {p : WaitingReq × Admit} (h : p ∈ s.taken admits) : p.1 ∈ s.pendingList := by
  rw [← taken_append (s := s) admits]
  exact List.mem_append_left _ (List.mem_map_of_mem h)

variable (admits)

/-- The requests of a prefill that stay in the list are those with a chunk to follow. -/
theorem schedulePrefill_pendingUids :
    (s.schedulePrefill admits).1.pendingUids
      = ((s.taken admits).filter fun p => p.2.chunked).map (fun p => p.1.uid)
        ++ (s.pendingList.drop (s.taken admits).length).map WaitingReq.uid := by
  unfold schedulePrefill pendingUids
  simp only [List.map_append]
  congr 1
  induction s.taken admits with
  | nil => rfl
  | cons p l ih =>
      cases hc : p.2.chunked with
      | true => simp [hc, ih]
      | false => simp [hc, ih]

theorem schedulePrefill_spec (h : s.WF) :
    Launches s ((s.schedulePrefill admits).1.forward (s.schedulePrefill admits).2.1)
      (s.schedulePrefill admits).2.1 (s.schedulePrefill admits).2.2 := by
  have hnodup : ((s.taken admits).map (fun p => p.1.uid)
      ++ (s.pendingList.drop (s.taken admits).length).map WaitingReq.uid).Nodup :=
    taken_uids (s := s) admits ▸ h.pending
  obtain ⟨htaken, -, hdisjoint⟩ := List.nodup_append.1 hnodup
  have hchunkUids : ((s.schedulePrefill admits).1.forward (s.schedulePrefill admits).2.1).chunkUids
      = s.chunkUids ++ (s.taken admits).map (fun p => p.1.uid) := by
    simp [schedulePrefill, forward, chunkUids, Function.comp_def]
  have hpendingUids : ((s.schedulePrefill admits).1.forward
      (s.schedulePrefill admits).2.1).pendingUids = _ :=
    schedulePrefill_pendingUids (s := s) admits
  constructor
  case pending =>
    rw [hpendingUids, ← taken_uids (s := s) admits]
    exact (List.filter_sublist.map _).append (List.Sublist.refl _)
  case waits =>
    intro p hp
    rcases List.mem_append.1 hp with hp | hp
    · obtain ⟨q, hq, heq⟩ := List.mem_filterMap.1 hp
      split at heq
      · cases heq
        exact ⟨q.1, mem_taken hq, rfl, rfl⟩
      · cases heq
    · exact ⟨p, List.mem_of_mem_drop hp, rfl, rfl⟩
  case chunked =>
    intro p hp
    rw [hchunkUids, List.mem_append]
    rcases List.mem_append.1 hp with hp | hp
    · -- a request with a chunk in this batch
      obtain ⟨q, hq, heq⟩ := List.mem_filterMap.1 hp
      split at heq
      · cases heq
        exact ⟨fun _ => .inr (List.mem_map_of_mem (f := fun p => p.1.uid) hq), fun _ => rfl⟩
      · cases heq
    · -- a request behind the batch
      rw [h.chunked p (List.mem_of_mem_drop hp)]
      refine ⟨.inl, fun hor => hor.resolve_right fun hmem => ?_⟩
      exact hdisjoint _ hmem _ (List.mem_map_of_mem hp) rfl
  case unique => simpa [schedulePrefill, Function.comp_def] using htaken
  case source =>
    intro r hr
    obtain ⟨p, hp, rfl⟩ := List.mem_map.1 hr
    exact .inl (List.mem_map_of_mem (mem_taken hp))
  case launched =>
    intro r hr
    obtain ⟨p, hp, rfl⟩ := List.mem_map.1 hr
    have hmem : p.1.uid ∈ (s.taken admits).map (fun p => p.1.uid) :=
      List.mem_map_of_mem (f := fun p : WaitingReq × Admit => p.1.uid) hp
    rw [hchunkUids, hpendingUids]
    refine ⟨List.mem_append_right _ hmem, fun hc hpend => ?_⟩
    rcases List.mem_append.1 hpend with hpend | hpend
    · -- it would be a chunk
      obtain ⟨q, hq, heq⟩ := List.mem_map.1 hpend
      obtain ⟨hq, hqc⟩ := List.mem_filter.1 hq
      have hpq : q = p := List.inj_on_of_nodup_map htaken hq hp heq
      rw [hpq] at hqc
      exact absurd (hqc.symm.trans hc) (by decide)
    · exact hdisjoint _ hmem _ hpend rfl
  case nodup => exact forward_nodup (s := (s.schedulePrefill admits).1) h.running _
  case runs => exact fun uid huid => mem_forward_running (s := (s.schedulePrefill admits).1) huid
  case chunks =>
    refine ⟨_, rfl, fun c hc => ?_⟩
    obtain ⟨p, hp, rfl⟩ := List.mem_map.1 hc
    exact ⟨p.1, mem_taken hp, rfl⟩
  case admissions =>
    show firstChunks (s.chunks ++ (s.taken admits).map fun p => (p.1.uid, p.1.inputLen)) = _
    have hnew : firstChunks ((s.taken admits).map fun p => (p.1.uid, p.1.inputLen))
        = (s.taken admits).map fun p => (p.1.uid, p.1.inputLen) := by
      apply firstChunks_of_nodup
      simpa [Function.comp_def] using htaken
    rw [firstChunks_append, hnew]
    congr 1
    rw [filter_map_eq_filterMap (c := fun p : WaitingReq × Admit => p.1.chunked)]
    · -- the same requests are reported
      simp only [schedulePrefill, List.filterMap_filterMap]
      apply List.filterMap_congr
      intro p _
      cases p.1.chunked <;> rfl
    · intro p hp
      have hiff := h.chunked p.1 (mem_taken hp)
      cases hc : p.1.chunked with
      | true => simpa [chunkUids] using hiff.1 hc
      | false =>
          have hnot : p.1.uid ∉ s.chunkUids := fun hmem => by simpa [hc] using hiff.2 hmem
          simpa [chunkUids] using hnot
  case admitted =>
    intro m hm
    obtain ⟨p, hp, heq⟩ := List.mem_filterMap.1 hm
    split at heq
    · cases heq
    · cases heq
      exact ⟨rfl, List.mem_map_of_mem (mem_taken hp)⟩
  all_goals rfl

end Prefill

/-- A decode batch is what runs. -/
theorem decode_spec (h : s.WF) {batch : List BatchReq}
    (hbatch : batch = (s.runningReqs.insertionSort (· ≤ ·)).map fun uid =>
      { uid := uid, chunked := false }) :
    Launches s (s.forward batch) batch [] := by
  have huids : batch.map BatchReq.uid = s.runningReqs.insertionSort (· ≤ ·) := by
    simp [hbatch, Function.comp_def]
  have hrun {r : BatchReq} (hr : r ∈ batch) : r.uid ∈ s.runningReqs := by
    have hmem : r.uid ∈ batch.map BatchReq.uid := List.mem_map_of_mem hr
    rw [huids] at hmem
    exact (List.mem_insertionSort _).1 hmem
  constructor
  case unique =>
    rw [huids]
    exact (List.perm_insertionSort _ _).nodup_iff.2 h.running
  case source => exact fun r hr => .inr (hrun hr)
  case launched =>
    intro r hr
    have hpre := h.prefilled r.uid (hrun hr)
    exact ⟨hpre.1, fun _ => hpre.2⟩
  case nodup => exact forward_nodup h.running _
  case runs => exact fun uid huid => mem_forward_running huid
  case pending => exact List.Sublist.refl _
  case waits => exact fun p hp => ⟨p, hp, rfl, rfl⟩
  case chunked => exact h.chunked
  case chunks => exact ⟨[], (List.append_nil _).symm, fun c hc => absurd hc List.not_mem_nil⟩
  case admissions => exact (List.append_nil _).symm
  case admitted => exact fun m hm => absurd hm List.not_mem_nil
  all_goals rfl

theorem launch_spec (h : s.WF) (admits : List Admit) :
    Launches s ((s.scheduleNextBatch admits).1.forward (s.scheduleNextBatch admits).2.1)
      (s.scheduleNextBatch admits).2.1 (s.scheduleNextBatch admits).2.2 := by
  unfold scheduleNextBatch
  cases htaken : s.taken admits with
  | nil => exact decode_spec h rfl
  | cons p rest => exact schedulePrefill_spec admits h

/-! ## Draining a batch -/

/-- Whether the drain of a request ends it. -/
def ends (s : SchedulerLoop) (sample : Nat → Sampled) (r : BatchReq) : Bool :=
  !r.chunked && (r.aborted ||
    (decide (r.uid ∉ s.finishedReqs) && decide (s.remain r.uid = 0 ∨ (sample r.uid).stops = true)))

/-- The token that the drain of a request sends. -/
def drainMsg (s : SchedulerLoop) (sample : Nat → Sampled) (r : BatchReq) : Option GenerationMsg :=
  if r.chunked = true ∨ r.aborted = true ∨ r.uid ∈ s.finishedReqs then none
  else
    some (.detokenize r.uid (sample r.uid).nextToken
      (decide (s.remain r.uid = 0 ∨ (sample r.uid).stops = true)))

theorem drainReq_eq (sample : Nat → Sampled) (finished : List Nat) (reply : List GenerationMsg)
    (r : BatchReq) :
    drainReq sample (s, finished, reply) r =
      ({ s with runningReqs :=
          s.runningReqs.filter fun v => v ∉ ([r].filter (s.ends sample)).map BatchReq.uid },
        finished ++ ([r].filter (s.ends sample)).map BatchReq.uid,
        reply ++ [r].filterMap (s.drainMsg sample)) := by
  have hkeep : s = { s with runningReqs := s.runningReqs.filter fun v => v ∉ ([] : List Nat) } := by
    simp
  unfold drainReq
  cases hc : r.chunked with
  | true => simp [ends, drainMsg, hc]
  | false =>
      cases ha : r.aborted with
      | true => simp [ends, drainMsg, hc, ha]
      | false =>
          by_cases hf : r.uid ∈ s.finishedReqs
          · simp [ends, drainMsg, hc, ha, hf]
          · by_cases he : s.remain r.uid = 0 ∨ (sample r.uid).stops = true
            · simp [ends, drainMsg, hc, ha, hf, he]
            · simp [ends, drainMsg, hc, ha, hf, he]

theorem foldl_drainReq (sample : Nat → Sampled) (batch : List BatchReq) (finished : List Nat)
    (reply : List GenerationMsg) :
    batch.foldl (drainReq sample) (s, finished, reply) =
      ({ s with runningReqs :=
          s.runningReqs.filter fun v => v ∉ (batch.filter (s.ends sample)).map BatchReq.uid },
        finished ++ (batch.filter (s.ends sample)).map BatchReq.uid,
        reply ++ batch.filterMap (s.drainMsg sample)) := by
  induction batch generalizing s finished reply with
  | nil => simp
  | cons r batch ih =>
      rw [List.foldl_cons, drainReq_eq, ih]
      -- neither the end nor the token of a request depends on what runs
      show ({ s with runningReqs := (s.runningReqs.filter _).filter fun v =>
            v ∉ (batch.filter (s.ends sample)).map BatchReq.uid },
        finished ++ _ ++ (batch.filter (s.ends sample)).map BatchReq.uid,
        reply ++ _ ++ batch.filterMap (s.drainMsg sample)) = _
      rw [List.filter_filter, List.append_assoc, List.append_assoc, ← List.map_append,
        ← List.filter_append, ← List.filterMap_append, List.singleton_append]
      congr 2
      apply List.filter_congr
      intro v _
      rw [← List.singleton_append (l := batch), List.filter_append, List.map_append]
      simp [List.mem_append, not_or, Bool.and_comm]

/-- The drain of a batch and the acknowledgements behind it. -/
def drained (s : SchedulerLoop) (sample : Nat → Sampled) (last next : List BatchReq) :
    SchedulerLoop :=
  let ended := (last.filter (s.ends sample)).map BatchReq.uid
  { s with
    runningReqs := s.runningReqs.filter fun v => v ∉ ended
    finishedReqs := if last = [] then s.finishedReqs else ended
    pendingAbortAcks := []
    lastData := next }

theorem processLastData_eq (sample : Nat → Sampled) (last : List BatchReq) :
    s.processLastData sample last =
      ({ s with
          runningReqs :=
            s.runningReqs.filter fun v => v ∉ (last.filter (s.ends sample)).map BatchReq.uid
          finishedReqs :=
            if last = [] then s.finishedReqs
            else (last.filter (s.ends sample)).map BatchReq.uid },
        last.filterMap (s.drainMsg sample)) := by
  unfold processLastData
  by_cases hl : last = []
  · simp [hl]
  · rw [if_neg hl, if_neg hl, foldl_drainReq]
    rfl

/-! ## A turn -/

def ackMsgs (s : SchedulerLoop) : List GenerationMsg :=
  (s.pendingAbortAcks.insertionSort (· ≤ ·)).map fun uid => .errorReply uid "request aborted" none

/-- What a turn of either loop does. -/
structure Turns (s t : SchedulerLoop) (msgs : List GenerationMsg) : Prop where
  wf : (t.sends msgs).WF
  drained : ∀ uid, s.Drained uid → t.Drained uid ∧ ∀ m ∈ msgs, m.uid = uid → m.counts = false
  acked : ∀ uid ∈ s.pendingAbortAcks, s.Out uid → t.Drained uid
  errors : ∀ m ∈ msgs, m.isError = true → m.uid ∈ s.pendingAbortAcks
  ended : ∀ m ∈ msgs, m.isSampled = true → m.reply.finished = true → t.Drained m.uid
  order : msgs.Pairwise fun a b => a.reply.finished = true → b.uid = a.uid → b.counts = false
  counted : ∀ m ∈ msgs, m.counts = true → s.Entered m.uid
  acks : t.pendingAbortAcks = []
  tombstones : t.abortTombstones = s.abortTombstones
  sent : t.sent = s.sent
  entered : ∀ uid, t.Entered uid → s.Entered uid
  waits : ∀ p ∈ t.pendingList, ∃ q ∈ s.pendingList, q.uid = p.uid ∧ q.inputLen = p.inputLen
  chunks : ∃ more, t.chunks = s.chunks ++ more ∧
    ∀ c ∈ more, ∃ p ∈ s.pendingList, c = (p.uid, p.inputLen)

theorem mem_drainMsgs {sample : Nat → Sampled} {last : List BatchReq} {m : GenerationMsg}
    (h : m ∈ last.filterMap (s.drainMsg sample)) :
    ∃ r ∈ last, m.uid = r.uid ∧ m.isSampled = true ∧ r.chunked = false ∧ r.aborted = false ∧
      r.uid ∉ s.finishedReqs ∧ (m.reply.finished = true → s.ends sample r = true) := by
  obtain ⟨r, hr, heq⟩ := List.mem_filterMap.1 h
  unfold drainMsg at heq
  split at heq
  · cases heq
  · rename_i hnot
    cases heq
    obtain ⟨hc, ha, hf⟩ : r.chunked = false ∧ r.aborted = false ∧ r.uid ∉ s.finishedReqs := by
      simpa [not_or] using hnot
    refine ⟨r, hr, rfl, rfl, hc, ha, hf, fun hend => ?_⟩
    have hstop : decide (s.remain r.uid = 0 ∨ (sample r.uid).stops = true) = true := hend
    simp [ends, hc, ha, hf, hstop]

/-- The tokens of a drain are of different requests. -/
theorem drainMsgs_nodup (sample : Nat → Sampled) {last : List BatchReq}
    (h : (last.map BatchReq.uid).Nodup) :
    ((last.filterMap (s.drainMsg sample)).map GenerationMsg.uid).Nodup := by
  have hsub : ((last.filterMap (s.drainMsg sample)).map GenerationMsg.uid).Sublist
      (last.map BatchReq.uid) := by
    clear h
    induction last with
    | nil => exact List.Sublist.refl _
    | cons r last ih =>
        cases hm : s.drainMsg sample r with
        | none =>
            rw [List.filterMap_cons_none hm]
            exact ih.cons _
        | some m =>
            have huid : m.uid = r.uid := by
              unfold drainMsg at hm
              split at hm
              · cases hm
              · cases hm
                rfl
            rw [List.filterMap_cons_some hm, List.map_cons, List.map_cons, huid]
            exact ih.cons₂ _
  exact h.sublist hsub

theorem mem_ackMsgs {m : GenerationMsg} (h : m ∈ s.ackMsgs) :
    m.uid ∈ s.pendingAbortAcks ∧ m.isError = true := by
  obtain ⟨uid, huid, rfl⟩ := List.mem_map.1 h
  exact ⟨(List.mem_insertionSort _).1 huid, rfl⟩

theorem Launches.entered {t : SchedulerLoop} {batch : List BatchReq} {msgs : List GenerationMsg}
    (hl : Launches s t batch msgs) {uid : Nat} (h : t.Entered uid) : s.Entered uid := by
  rcases h with h | h
  · exact .inl (hl.pending.subset h)
  · obtain ⟨more, hmore, hfrom⟩ := hl.chunks
    unfold chunkUids at h
    rw [hmore, List.map_append, List.mem_append] at h
    rcases h with h | h
    · exact .inr h
    · obtain ⟨c, hc, rfl⟩ := List.mem_map.1 h
      obtain ⟨p, hp, rfl⟩ := hfrom c hc
      exact .inl (List.mem_map_of_mem hp)

theorem Launches.chunkUids {t : SchedulerLoop} {batch : List BatchReq} {msgs : List GenerationMsg}
    (hl : Launches s t batch msgs) {uid : Nat} (h : uid ∈ s.chunkUids) : uid ∈ t.chunkUids := by
  obtain ⟨more, hmore, -⟩ := hl.chunks
  unfold SchedulerLoop.chunkUids
  rw [hmore, List.map_append]
  exact List.mem_append_left _ h

theorem Launches.batch_entered (h : s.WF) {t : SchedulerLoop} {batch : List BatchReq}
    {msgs : List GenerationMsg} (hl : Launches s t batch msgs) {r : BatchReq} (hr : r ∈ batch) :
    s.Entered r.uid := by
  rcases hl.source r hr with hp | hrun
  · exact .inl hp
  · exact .inr (h.prefilled _ hrun).1

/-- The batch that is drained and the one that is in flight behind the turn. -/
structure Batches (s t : SchedulerLoop) (last next : List BatchReq) : Prop where
  unique : (last.map BatchReq.uid).Nodup
  launched : ∀ r ∈ last, r.uid ∈ t.chunkUids ∧ (r.chunked = false → r.uid ∉ t.pendingUids)
  entered : ∀ r ∈ last, s.Entered r.uid
  drained : ∀ uid, s.Drained uid → ∀ r ∈ last, r.uid = uid →
    r.chunked = true ∨ r.aborted = true ∨ uid ∈ t.finishedReqs
  next_unique : (next.map BatchReq.uid).Nodup
  next_launched : ∀ r ∈ next, r.uid ∈ t.chunkUids ∧ (r.chunked = false → r.uid ∉ t.pendingUids)
  next_live : ∀ uid, s.Out uid → ∀ r ∈ next, r.uid ≠ uid

theorem Launches.not_out {t : SchedulerLoop} {batch : List BatchReq} {msgs : List GenerationMsg}
    (hl : Launches s t batch msgs) {uid : Nat} (hout : s.Out uid) {r : BatchReq} (hr : r ∈ batch) :
    r.uid ≠ uid := by
  rintro rfl
  rcases hl.source r hr with hp | hrun
  · exact hout.1 hp
  · exact hout.2 hrun

/-- With overlap, the batch of the last turn is drained behind the launch of the next. -/
theorem Launches.overlap (h : s.WF) {t : SchedulerLoop} {batch : List BatchReq}
    {msgs : List GenerationMsg} (hl : Launches s t batch msgs) : Batches s t s.lastData batch := by
  constructor
  case unique => exact h.last
  case launched =>
    intro r hr
    obtain ⟨hchunk, hpend⟩ := h.launched r hr
    exact ⟨hl.chunkUids hchunk, fun hc hmem => hpend hc (hl.pending.subset hmem)⟩
  case entered => exact fun r hr => .inr (h.launched r hr).1
  case drained =>
    intro uid hdrained r hr heq
    rw [hl.finished]
    exact hdrained.2 r hr heq
  case next_unique => exact hl.unique
  case next_launched => exact hl.launched
  case next_live => exact fun uid hout r hr => hl.not_out hout hr

/-- Without it, each batch is drained in the turn that launches it. -/
theorem Launches.normal (h : s.WF) {t : SchedulerLoop} {batch : List BatchReq}
    {msgs : List GenerationMsg} (hl : Launches s t batch msgs) : Batches s t batch [] := by
  constructor
  case unique => exact hl.unique
  case launched => exact hl.launched
  case entered => exact fun r hr => hl.batch_entered h hr
  case drained => exact fun uid hdrained r hr heq => absurd heq (hl.not_out hdrained.1 hr)
  case next_unique => exact List.nodup_nil
  case next_launched => exact fun r hr => absurd hr List.not_mem_nil
  case next_live => exact fun uid _ r hr => absurd hr List.not_mem_nil

theorem drained_spec (h : s.WF) {t : SchedulerLoop} {batch : List BatchReq}
    {msgs : List GenerationMsg} (hl : Launches s t batch msgs) {last next : List BatchReq}
    (hb : Batches s t last next) (sample : Nat → Sampled) :
    Turns s (t.drained sample last next)
      (msgs ++ last.filterMap (t.drainMsg sample) ++ t.ackMsgs) := by
  have hout {uid : Nat} (hs : s.Out uid) : (t.drained sample last next).Drained uid := by
    refine ⟨⟨fun hmem => hs.1 (hl.pending.subset hmem), fun hmem => ?_⟩, fun r hr heq =>
      absurd heq (hb.next_live uid hs r hr)⟩
    rcases hl.runs uid (List.mem_of_mem_filter hmem) with hrun | ⟨r, hr, -, heq⟩
    · exact hs.2 hrun
    · exact hl.not_out hs hr heq
  constructor
  case wf =>
    constructor
    case pending => exact h.pending.sublist hl.pending
    case chunked => exact hl.chunked
    case running => exact hl.nodup.filter _
    case prefilled =>
      intro uid huid
      rcases hl.runs uid (List.mem_of_mem_filter huid) with hrun | ⟨r, hr, hc, rfl⟩
      · obtain ⟨hchunk, hpend⟩ := h.prefilled uid hrun
        exact ⟨hl.chunkUids hchunk, fun hmem => hpend (hl.pending.subset hmem)⟩
      · exact ⟨(hl.launched r hr).1, (hl.launched r hr).2 hc⟩
    case last => exact hb.next_unique
    case launched => exact hb.next_launched
    case admissions =>
      have hreply : (last.filterMap (t.drainMsg sample)).filterMap GenerationMsg.admission = [] := by
        apply List.filterMap_eq_nil_iff.2
        intro m hm
        obtain ⟨r, -, -, hsampled, -⟩ := mem_drainMsgs hm
        exact GenerationMsg.admission_eq_none (GenerationMsg.kind_of_sampled hsampled).1
      have hacks : t.ackMsgs.filterMap GenerationMsg.admission = [] := by
        apply List.filterMap_eq_nil_iff.2
        intro m hm
        exact GenerationMsg.admission_eq_none (GenerationMsg.kind_of_error (mem_ackMsgs hm).2).1
      show (t.sent ++ _).filterMap _ = firstChunks t.chunks
      rw [List.filterMap_append, List.filterMap_append, List.filterMap_append, hreply, hacks,
        List.append_nil, List.append_nil, hl.sent, h.admissions, hl.admissions]
    case sampled =>
      intro m hm hsampled
      rcases List.mem_append.1 hm with hm | hm
      · apply hl.chunkUids
        apply h.sampled m _ hsampled
        exact hl.sent ▸ hm
      rcases List.mem_append.1 hm with hm | hm
      · rcases List.mem_append.1 hm with hm | hm
        · have hkind := (GenerationMsg.kind_of_admitted (hl.admitted m hm).1).1
          exact absurd (hsampled.symm.trans hkind) (by decide)
        · obtain ⟨r, hr, heq, -⟩ := mem_drainMsgs hm
          rw [heq]
          exact (hb.launched r hr).1
      · have hkind := (GenerationMsg.kind_of_error (mem_ackMsgs hm).2).2
        exact absurd (hsampled.symm.trans hkind) (by decide)
    case tombstones =>
      show t.abortTombstones.length ≤ maxTombstones
      rw [hl.tombstones]
      exact h.tombstones
  case drained =>
    refine fun uid hs => ⟨hout hs.1, fun m hm heq => ?_⟩
    rcases List.mem_append.1 hm with hm | hm
    · rcases List.mem_append.1 hm with hm | hm
      · -- it is not pending
        exact absurd (heq ▸ (hl.admitted m hm).2) hs.1.1
      · -- nothing of it is left to drain
        obtain ⟨r, hr, hru, -, hc, ha, hf, -⟩ := mem_drainMsgs hm
        rcases hb.drained uid hs r hr (hru.symm.trans heq) with hc' | ha' | hf'
        · exact absurd (hc'.symm.trans hc) (by decide)
        · exact absurd (ha'.symm.trans ha) (by decide)
        · exact absurd (by rw [← hru, heq]; exact hf') hf
    · exact GenerationMsg.counts_of_error (mem_ackMsgs hm).2
  case acked => exact fun uid _ hs => hout hs
  case errors =>
    intro m hm herror
    rcases List.mem_append.1 hm with hm | hm
    · rcases List.mem_append.1 hm with hm | hm
      · have hkind := (GenerationMsg.kind_of_admitted (hl.admitted m hm).1).2
        exact absurd (herror.symm.trans hkind) (by decide)
      · obtain ⟨r, -, -, hsampled, -⟩ := mem_drainMsgs hm
        have hkind := (GenerationMsg.kind_of_sampled hsampled).2
        exact absurd (herror.symm.trans hkind) (by decide)
    · rw [← hl.acks]
      exact (mem_ackMsgs hm).1
  case ended =>
    intro m hm hsampled hfin
    rcases List.mem_append.1 hm with hm | hm
    · rcases List.mem_append.1 hm with hm | hm
      · have hkind := (GenerationMsg.kind_of_admitted (hl.admitted m hm).1).1
        exact absurd (hsampled.symm.trans hkind) (by decide)
      · obtain ⟨r, hr, hru, -, hc, ha, hf, hends⟩ := mem_drainMsgs hm
        have hended : m.uid ∈ (last.filter (t.ends sample)).map BatchReq.uid := by
          rw [hru]
          exact List.mem_map_of_mem (List.mem_filter.2 ⟨hr, hends hfin⟩)
        have hlast : last ≠ [] := List.ne_nil_of_mem hr
        refine ⟨⟨?_, fun hmem => ?_⟩, fun q hq heq => .inr (.inr ?_)⟩
        · rw [hru]
          exact (hb.launched r hr).2 hc
        · have hnot := (List.mem_filter.1 hmem).2
          exact absurd hended (by simpa using hnot)
        · show m.uid ∈ (if last = [] then _ else _)
          rw [if_neg hlast]
          exact hended
    · have hkind := (GenerationMsg.kind_of_error (mem_ackMsgs hm).2).2
      exact absurd (hsampled.symm.trans hkind) (by decide)
  case order =>
    have hacks {m : GenerationMsg} (hm : m ∈ t.ackMsgs) : m.counts = false :=
      GenerationMsg.counts_of_error (mem_ackMsgs hm).2
    have hadmitted {m : GenerationMsg} (hm : m ∈ msgs) : m.reply.finished = false :=
      GenerationMsg.finished_of_admitted (hl.admitted m hm).1
    apply List.pairwise_append.2
    refine ⟨List.pairwise_append.2 ⟨?_, ?_, ?_⟩, ?_, fun a _ b hb _ _ => hacks hb⟩
    · apply List.pairwise_of_forall_mem_list
      intro a ha b _ hfin
      exact absurd (hfin.symm.trans (hadmitted ha)) (by decide)
    · -- two tokens of a drain are not of the same request
      have hne := List.pairwise_map.1 (drainMsgs_nodup (s := t) sample hb.unique)
      exact hne.imp fun hab _ heq => absurd heq.symm hab
    · intro a ha b _ hfin
      exact absurd (hfin.symm.trans (hadmitted ha)) (by decide)
    · apply List.pairwise_of_forall_mem_list
      exact fun a _ b hb _ _ => hacks hb
  case counted =>
    intro m hm hcounts
    rcases List.mem_append.1 hm with hm | hm
    · rcases List.mem_append.1 hm with hm | hm
      · exact .inl (hl.admitted m hm).2
      · obtain ⟨r, hr, hru, -⟩ := mem_drainMsgs hm
        rw [hru]
        exact hb.entered r hr
    · have hkind := GenerationMsg.counts_of_error (mem_ackMsgs hm).2
      exact absurd (hcounts.symm.trans hkind) (by decide)
  case acks => rfl
  case tombstones => exact hl.tombstones
  case sent => exact hl.sent
  case entered => exact fun uid huid => hl.entered huid
  case waits => exact hl.waits
  case chunks => exact hl.chunks

theorem turn_spec (h : s.WF) (overlap : Bool) (hnormal : overlap = false → s.lastData = [])
    (admits : List Admit) (sample : Nat → Sampled) :
    Turns s (s.turn overlap admits sample).1 (s.turn overlap admits sample).2 ∧
      (overlap = false → (s.turn overlap admits sample).1.lastData = []) := by
  have hl := launch_spec h admits
  cases overlap with
  | true =>
      have heq : s.turn true admits sample =
          (((s.scheduleNextBatch admits).1.forward (s.scheduleNextBatch admits).2.1).drained sample
              s.lastData (s.scheduleNextBatch admits).2.1,
            (s.scheduleNextBatch admits).2.2
              ++ s.lastData.filterMap
                (((s.scheduleNextBatch admits).1.forward (s.scheduleNextBatch admits).2.1).drainMsg
                  sample)
              ++ ((s.scheduleNextBatch admits).1.forward
                (s.scheduleNextBatch admits).2.1).ackMsgs) := by
        simp only [turn, if_true, overlapTurn, processLastData_eq, flushAbortAcks, drained, ackMsgs]
      rw [heq]
      exact ⟨drained_spec h hl (hl.overlap h) sample, fun hc => by cases hc⟩
  | false =>
      have heq : s.turn false admits sample =
          (((s.scheduleNextBatch admits).1.forward (s.scheduleNextBatch admits).2.1).drained sample
              (s.scheduleNextBatch admits).2.1
              ((s.scheduleNextBatch admits).1.forward (s.scheduleNextBatch admits).2.1).lastData,
            (s.scheduleNextBatch admits).2.2
              ++ (s.scheduleNextBatch admits).2.1.filterMap
                (((s.scheduleNextBatch admits).1.forward (s.scheduleNextBatch admits).2.1).drainMsg
                  sample)
              ++ ((s.scheduleNextBatch admits).1.forward
                (s.scheduleNextBatch admits).2.1).ackMsgs) := by
        simp only [turn, normalTurn, processLastData_eq, flushAbortAcks, drained, ackMsgs]
        rfl
      rw [heq, hl.last, hnormal rfl]
      exact ⟨drained_spec h hl (hl.normal h) sample, fun _ => rfl⟩

/-! ## The requests of other users -/

/-- What the arrival of a prompt does. -/
structure Arrives (s t : SchedulerLoop) (uid inputLen : Nat) (msgs : List GenerationMsg) : Prop where
  wf : (t.sends msgs).WF
  drained : ∀ v, s.Drained v → v ≠ uid ∨ uid ∈ s.abortTombstones → t.Drained v
  out : ∀ v, s.Out v → v ≠ uid ∨ uid ∈ s.abortTombstones → t.Out v
  msgs : ∀ m ∈ msgs, m.uid = uid ∧ m.isError = true ∧ t.Drained uid
  tombstones : ∀ v, v ≠ uid → (v ∈ t.abortTombstones ↔ v ∈ s.abortTombstones)
  acks : t.pendingAbortAcks = s.pendingAbortAcks
  entered : ∀ v, t.Entered v → s.Entered v ∨ v = uid
  waits : ∀ p ∈ t.pendingList, p ∈ s.pendingList ∨ p.uid = uid ∧ p.inputLen = inputLen
  chunks : t.chunks = s.chunks
  sent : t.sent = s.sent
  last : t.lastData = s.lastData

theorem processUser_spec (h : s.WF) {uid : Nat} (hnew : ¬ s.Entered uid) (inputLen maxTokens : Nat) :
    Arrives s (s.processUser uid inputLen maxTokens).1 uid inputLen
      (s.processUser uid inputLen maxTokens).2 := by
  unfold processUser
  by_cases htomb : uid ∈ s.abortTombstones
  · -- dropped
    rw [if_pos htomb]
    have htombstones (v : Nat) (hv : v ≠ uid) :
        v ∈ s.abortTombstones.filter (fun v => v ≠ uid) ↔ v ∈ s.abortTombstones := by
      rw [List.mem_filter]
      simp [hv]
    refine ⟨⟨h.pending, h.chunked, h.running, h.prefilled, h.last, h.launched, ?_, ?_, ?_⟩, ?_, ?_, ?_,
      htombstones, rfl, ?_, ?_, rfl, rfl, rfl⟩
    · show (s.sent ++ []).filterMap _ = _
      rw [List.append_nil]
      exact h.admissions
    · intro m hm
      apply h.sampled m
      simpa [sends] using hm
    · exact (List.length_filter_le _ _).trans h.tombstones
    · exact fun v hv _ => hv
    · exact fun v hv _ => hv
    · exact fun m hm => absurd hm List.not_mem_nil
    · exact fun v hv => .inl hv
    · exact fun p hp => .inl hp
  · rw [if_neg htomb]
    by_cases hlong : s.maxSeqLen ≤ inputLen
    · -- rejected
      rw [if_pos hlong]
      have hdrained : s.Drained uid := by
        refine ⟨⟨fun hp => hnew (.inl hp), fun hr => hnew (.inr (h.prefilled uid hr).1)⟩, ?_⟩
        intro r hr heq
        exact absurd (.inr (heq ▸ (h.launched r hr).1)) hnew
      refine ⟨⟨h.pending, h.chunked, h.running, h.prefilled, h.last, h.launched, ?_, ?_,
        h.tombstones⟩, fun v hv _ => hv, fun v hv _ => hv, ?_, fun v _ => Iff.rfl, rfl,
        fun v hv => .inl hv, fun p hp => .inl hp, rfl, rfl, rfl⟩
      · show (s.sent ++ [_]).filterMap _ = _
        rw [List.filterMap_append, h.admissions]
        exact List.append_nil _
      · intro m hm hsampled
        rcases List.mem_append.1 hm with hm | hm
        · exact h.sampled m hm hsampled
        · cases List.mem_singleton.1 hm
          cases hsampled
      · intro m hm
        cases List.mem_singleton.1 hm
        exact ⟨rfl, rfl, hdrained⟩
    · -- it waits
      rw [if_neg hlong]
      have hpend : uid ∉ s.pendingUids := fun hp => hnew (.inl hp)
      have hchunk : uid ∉ s.chunkUids := fun hc => hnew (.inr hc)
      have hmem (v : Nat) (rest : List WaitingReq) (p : WaitingReq) (hp : p.uid = uid)
          (hrest : rest = s.pendingList ++ [p]) :
          v ∈ rest.map WaitingReq.uid ↔ v ∈ s.pendingUids ∨ v = uid := by
        rw [hrest, List.map_append, List.mem_append, List.map_singleton, List.mem_singleton, hp]
        exact Iff.rfl
      refine ⟨⟨?_, ?_, h.running, ?_, h.last, ?_, ?_, ?_, h.tombstones⟩, ?_, ?_, ?_,
        fun v _ => Iff.rfl, rfl, ?_, ?_, rfl, rfl, rfl⟩
      · show (List.map WaitingReq.uid (s.pendingList ++ [_])).Nodup
        rw [List.map_append]
        apply List.Nodup.append h.pending (List.nodup_singleton _)
        simpa [List.disjoint_singleton] using hpend
      · intro p hp
        rcases List.mem_append.1 hp with hp | hp
        · exact h.chunked p hp
        · cases List.mem_singleton.1 hp
          exact ⟨fun hc => (Bool.false_ne_true hc).elim, fun hc => absurd hc hchunk⟩
      · intro v hv
        obtain ⟨hc, hp⟩ := h.prefilled v hv
        refine ⟨hc, fun hmemv => ?_⟩
        rcases (hmem v _ _ rfl rfl).1 hmemv with hpv | rfl
        · exact hp hpv
        · exact hchunk hc
      · intro r hr
        obtain ⟨hc, hp⟩ := h.launched r hr
        refine ⟨hc, fun hu hmemr => ?_⟩
        rcases (hmem r.uid _ _ rfl rfl).1 hmemr with hpr | heq
        · exact hp hu hpr
        · exact hchunk (heq ▸ hc)
      · show (s.sent ++ []).filterMap _ = _
        rw [List.append_nil]
        exact h.admissions
      · intro m hm
        apply h.sampled m
        simpa [sends] using hm
      · intro v hv hne
        refine ⟨⟨fun hmemv => ?_, hv.1.2⟩, hv.2⟩
        rcases (hmem v _ _ rfl rfl).1 hmemv with hpv | heq
        · exact hv.1.1 hpv
        · exact (hne.resolve_right htomb) heq
      · intro v hv hne
        refine ⟨fun hmemv => ?_, hv.2⟩
        rcases (hmem v _ _ rfl rfl).1 hmemv with hpv | heq
        · exact hv.1 hpv
        · exact (hne.resolve_right htomb) heq
      · exact fun m hm => absurd hm List.not_mem_nil
      · rintro v (hv | hv)
        · rcases (hmem v _ _ rfl rfl).1 hv with hpv | heq
          · exact .inl (.inl hpv)
          · exact .inr heq
        · exact .inl (.inr hv)
      · intro p hp
        rcases List.mem_append.1 hp with hp | hp
        · exact .inl hp
        · cases List.mem_singleton.1 hp
          exact .inr ⟨rfl, rfl⟩

theorem Aborts.pendingUids {t : SchedulerLoop} {uid v : Nat} (ha : Aborts s t uid) :
    v ∈ t.pendingUids ↔ v ∈ s.pendingUids ∧ v ≠ uid := by
  unfold SchedulerLoop.pendingUids
  rw [ha.pending]
  simp only [List.mem_map, List.mem_filter, decide_eq_true_eq]
  constructor
  · rintro ⟨p, ⟨hp, hne⟩, rfl⟩
    exact ⟨⟨p, hp, rfl⟩, hne⟩
  · rintro ⟨⟨p, hp, rfl⟩, hne⟩
    exact ⟨p, ⟨hp, hne⟩, rfl⟩

/-- What is in flight stays in flight, a request of the user perhaps marked. -/
theorem Aborts.lastData {t : SchedulerLoop} {uid : Nat} (ha : Aborts s t uid) {r : BatchReq}
    (hr : r ∈ t.lastData) : ∃ q ∈ s.lastData,
      q.uid = r.uid ∧ q.chunked = r.chunked ∧ (q.aborted = true → r.aborted = true) := by
  rcases ha.last with hlast | hlast
  · rw [hlast] at hr
    exact ⟨r, hr, rfl, rfl, fun h => h⟩
  · rw [hlast] at hr
    obtain ⟨q, hq, rfl⟩ := List.mem_map.1 hr
    refine ⟨q, hq, ?_⟩
    split
    · exact ⟨rfl, rfl, fun _ => rfl⟩
    · exact ⟨rfl, rfl, fun h => h⟩

theorem Aborts.out {t : SchedulerLoop} {uid : Nat} (ha : Aborts s t uid) : t.Out uid := by
  refine ⟨fun hp => (ha.pendingUids.1 hp).2 rfl, fun hr => ?_⟩
  rw [ha.running] at hr
  simpa using (List.mem_filter.1 hr).2

theorem Aborts.keeps_out {t : SchedulerLoop} {uid v : Nat} (ha : Aborts s t uid) (h : s.Out v) :
    t.Out v := by
  refine ⟨fun hp => h.1 (ha.pendingUids.1 hp).1, fun hr => h.2 ?_⟩
  rw [ha.running] at hr
  exact List.mem_of_mem_filter hr

theorem Aborts.drained {t : SchedulerLoop} {uid v : Nat} (ha : Aborts s t uid) (h : s.Drained v) :
    t.Drained v := by
  refine ⟨ha.keeps_out h.1, fun r hr heq => ?_⟩
  obtain ⟨q, hq, hu, hc, habort⟩ := ha.lastData hr
  rcases h.2 q hq (hu.trans heq) with hchunked | haborted | hfinished
  · exact .inl (hc ▸ hchunked)
  · exact .inr (.inl (habort haborted))
  · exact .inr (.inr (ha.finished ▸ hfinished))

theorem Aborts.wf {t : SchedulerLoop} {uid : Nat} (h : s.WF) (ha : Aborts s t uid) : t.WF := by
  have hsub : t.pendingUids.Sublist s.pendingUids := by
    unfold SchedulerLoop.pendingUids
    rw [ha.pending]
    exact List.filter_sublist.map _
  have hchunks : t.chunkUids = s.chunkUids := congrArg (List.map Prod.fst) ha.chunks
  constructor
  case pending => exact h.pending.sublist hsub
  case chunked =>
    intro p hp
    rw [ha.pending] at hp
    rw [hchunks]
    exact h.chunked p (List.mem_of_mem_filter hp)
  case running =>
    rw [ha.running]
    exact h.running.filter _
  case prefilled =>
    intro v hv
    rw [ha.running] at hv
    obtain ⟨hc, hp⟩ := h.prefilled v (List.mem_of_mem_filter hv)
    exact ⟨hchunks ▸ hc, fun hmem => hp (hsub.subset hmem)⟩
  case last =>
    have huids : t.lastData.map BatchReq.uid = s.lastData.map BatchReq.uid := by
      rcases ha.last with hlast | hlast
      · rw [hlast]
      · rw [hlast, markAborted, List.map_map]
        apply List.map_congr_left
        intro r _
        show BatchReq.uid (if _ then _ else _) = _
        split <;> rfl
    rw [huids]
    exact h.last
  case launched =>
    intro r hr
    obtain ⟨q, hq, hu, hc, -⟩ := ha.lastData hr
    obtain ⟨hchunk, hpend⟩ := h.launched q hq
    rw [← hu, ← hc, hchunks]
    exact ⟨hchunk, fun hfalse hmem => hpend hfalse (hsub.subset hmem)⟩
  case admissions =>
    rw [ha.sent, ha.chunks]
    exact h.admissions
  case sampled =>
    intro m hm
    rw [hchunks]
    exact h.sampled m (ha.sent ▸ hm)
  case tombstones =>
    rw [ha.tombstones]
    exact dropOldest_length _

end SchedulerLoop

end FreeToken
