import Mathlib.Data.List.Perm.Subperm
import FreeToken.Accounting.Serving

/-!
# Prompts on their way

A prompt is in one place between the frontend and the scheduler, and what the scheduler takes for the
length of a prompt is the length of its user's.
-/

set_option autoImplicit false

namespace FreeToken

namespace RequestMsg

def abortUid? : RequestMsg → Option Nat
  | .tokenize _ => none
  | .abort uid => some uid

end RequestMsg

namespace BackendMsg

def userUid? : BackendMsg → Option Nat
  | .user uid _ _ => some uid
  | .abort _ => none

def abortUid? : BackendMsg → Option Nat
  | .user _ _ _ => none
  | .abort uid => some uid

end BackendMsg

namespace Worker

/-- The prompts that the worker has not tokenized. -/
def prompts (w : Worker) : List TokenizeMsg :=
  (w.requests ++ w.fromFrontend).filterMap RequestMsg.tokenize?

/-- The users whose prompts the worker carries. -/
def carried (w : Worker) : List Nat :=
  w.prompts.map TokenizeMsg.uid ++ w.toBackend.filterMap BackendMsg.userUid?

/-- The users whose aborts the worker carries. -/
def aborts (w : Worker) : List Nat :=
  (w.requests ++ w.fromFrontend).filterMap RequestMsg.abortUid?
    ++ w.toBackend.filterMap BackendMsg.abortUid?

/-- The messages of the scheduler that the worker has not answered. -/
def queued (w : Worker) : List GenerationMsg := w.generation ++ w.fromScheduler

theorem delivery_eq (w : Worker) :
    w.delivery = w.toFrontend ++ w.queued.map GenerationMsg.reply := rfl

/-! ## Taking messages -/

/-- A worker that has only moved messages into its turn. -/
structure Takes (w w' : Worker) : Prop where
  prompts : w'.prompts = w.prompts
  aborts : w'.aborts = w.aborts
  queued : w'.queued = w.queued
  toFrontend : w'.toFrontend = w.toFrontend
  toBackend : w'.toBackend = w.toBackend

theorem takeFrontend_spec {w w' : Worker} (h : w.takeFrontend = some w') : Takes w w' := by
  unfold takeFrontend at h
  split at h
  · cases h
  · rename_i msg rest hfrom
    cases h
    constructor
    case prompts => simp [prompts, requests, TokenizerMsg.request?, hfrom]
    case aborts => simp [aborts, requests, TokenizerMsg.request?, hfrom]
    case queued => simp [queued, generation, TokenizerMsg.generation?]
    all_goals rfl

theorem takeScheduler_spec {w w' : Worker} (h : w.takeScheduler = some w') : Takes w w' := by
  unfold takeScheduler at h
  split at h
  · cases h
  · rename_i msg rest hfrom
    cases h
    constructor
    case prompts => simp [prompts, requests, TokenizerMsg.request?]
    case aborts => simp [aborts, requests, TokenizerMsg.request?]
    case queued => simp [queued, generation, TokenizerMsg.generation?, hfrom]
    all_goals rfl

theorem Takes.carried {w w' : Worker} (h : Takes w w') : w'.carried = w.carried := by
  unfold Worker.carried
  rw [h.prompts, h.toBackend]

theorem Takes.delivery {w w' : Worker} (h : Takes w w') : w'.delivery = w.delivery := by
  rw [delivery_eq, delivery_eq, h.queued, h.toFrontend]

/-! ## A turn of the worker -/

section Process

variable {tokenizer : Tokenizer} {w : Worker}

/-- The prompts of a turn. -/
def turnPrompts (w : Worker) : List TokenizeMsg := w.requests.filterMap RequestMsg.tokenize?

theorem process_prompts :
    (w.process tokenizer).prompts = w.fromFrontend.filterMap RequestMsg.tokenize? := rfl

theorem prompts_eq :
    w.prompts = w.turnPrompts ++ w.fromFrontend.filterMap RequestMsg.tokenize? := by
  simp [prompts, turnPrompts]

theorem process_queued : (w.process tokenizer).queued = w.fromScheduler := rfl

theorem tokenizeRequest_some {msg : TokenizeMsg} {request : BackendMsg}
    (h : tokenizeRequest tokenizer msg = some request) :
    ∃ tokens, tokenizer msg.text = .ok tokens ∧ tokens ≠ [] ∧
      request = .user msg.uid tokens msg.maxTokens := by
  unfold tokenizeRequest tokenizeOne at h
  cases htok : tokenizer msg.text with
  | error exc => simp [htok] at h
  | ok tokens =>
      cases tokens with
      | nil => simp [htok] at h
      | cons token rest =>
          simp only [htok, Option.some.injEq] at h
          exact ⟨token :: rest, rfl, List.cons_ne_nil _ _, h.symm⟩

theorem tokenizeError_some {msg : TokenizeMsg} {reply : UserReply}
    (h : tokenizeError tokenizer msg = some reply) :
    reply.uid = msg.uid ∧ reply.finished = true ∧ reply.promptTokensDelta = 0 ∧
      reply.completionTokensDelta = 0 := by
  unfold tokenizeError tokenizeOne at h
  cases htok : tokenizer msg.text with
  | error exc =>
      simp only [htok, Option.some.injEq] at h
      cases h
      exact ⟨rfl, rfl, rfl, rfl⟩
  | ok tokens =>
      cases tokens with
      | nil =>
          simp only [htok, Option.some.injEq] at h
          cases h
          exact ⟨rfl, rfl, rfl, rfl⟩
      | cons token rest => simp [htok] at h

/-- A prompt is encoded or refused. -/
theorem tokenize_cases (tokenizer : Tokenizer) (msg : TokenizeMsg) :
    tokenizeError tokenizer msg = none ∨ tokenizeRequest tokenizer msg = none := by
  unfold tokenizeError tokenizeRequest
  cases tokenizeOne tokenizer msg with
  | error reply => exact .inr rfl
  | ok request => exact .inl rfl

theorem process_toBackend_users : (w.process tokenizer).toBackend.filterMap BackendMsg.userUid?
    = w.toBackend.filterMap BackendMsg.userUid?
      ++ (w.turnPrompts.filterMap (tokenizeRequest tokenizer)).filterMap BackendMsg.userUid? := by
  have haborts : (w.requests.filterMap RequestMsg.abort?).filterMap BackendMsg.userUid? = [] := by
    rw [List.filterMap_filterMap]
    apply List.filterMap_eq_nil_iff.2
    intro msg _
    cases msg <;> rfl
  simp only [process, List.filterMap_append, haborts, List.append_nil]
  rfl

theorem requests_sublist (tokenizer : Tokenizer) (l : List TokenizeMsg) :
    ((l.filterMap (tokenizeRequest tokenizer)).filterMap BackendMsg.userUid?).Sublist
      (l.map TokenizeMsg.uid) := by
  induction l with
  | nil => exact List.Sublist.refl _
  | cons msg l ih =>
      cases hreq : tokenizeRequest tokenizer msg with
      | none =>
          rw [List.filterMap_cons_none hreq]
          exact ih.cons _
      | some request =>
          obtain ⟨tokens, -, -, rfl⟩ := tokenizeRequest_some hreq
          rw [List.filterMap_cons_some hreq]
          exact ih.cons₂ _

/-- What is encoded is not refused. -/
theorem refused_not_requested {msg : TokenizeMsg} {reply : UserReply}
    (herr : tokenizeError tokenizer msg = some reply) {l : List TokenizeMsg}
    (hnodup : (l.map TokenizeMsg.uid).Nodup) (hmem : msg ∈ l) :
    msg.uid ∉ (l.filterMap (tokenizeRequest tokenizer)).filterMap BackendMsg.userUid? := by
  intro hreq
  obtain ⟨request, hrequest, huid⟩ := List.mem_filterMap.1 hreq
  obtain ⟨m, hm, hmreq⟩ := List.mem_filterMap.1 hrequest
  obtain ⟨tokens, -, -, rfl⟩ := tokenizeRequest_some hmreq
  have heq : m = msg := List.inj_on_of_nodup_map hnodup hm hmem (by simpa [BackendMsg.userUid?] using huid)
  rw [heq] at hmreq
  rcases tokenize_cases tokenizer msg with hnone | hnone
  · rw [hnone] at herr
    cases herr
  · rw [hnone] at hmreq
    cases hmreq

theorem mem_process_aborts {uid : Nat} (h : uid ∈ (w.process tokenizer).aborts) : uid ∈ w.aborts := by
  have hrequests : (w.turnPrompts.filterMap (tokenizeRequest tokenizer)).filterMap
      BackendMsg.abortUid? = [] := by
    apply List.filterMap_eq_nil_iff.2
    intro request hrequest
    obtain ⟨msg, -, hmsg⟩ := List.mem_filterMap.1 hrequest
    obtain ⟨tokens, -, -, rfl⟩ := tokenizeRequest_some hmsg
    rfl
  have haborts : (w.requests.filterMap RequestMsg.abort?).filterMap BackendMsg.abortUid?
      = w.requests.filterMap RequestMsg.abortUid? := by
    rw [List.filterMap_filterMap]
    apply List.filterMap_congr
    intro msg _
    cases msg <;> rfl
  have heq : (w.process tokenizer).aborts = w.fromFrontend.filterMap RequestMsg.abortUid?
      ++ (w.toBackend.filterMap BackendMsg.abortUid?
        ++ w.requests.filterMap RequestMsg.abortUid?) := by
    rw [← haborts, ← List.append_nil (w.toBackend.filterMap _), ← hrequests, ← List.filterMap_append,
      ← List.filterMap_append]
    rfl
  rw [heq] at h
  unfold aborts
  rw [List.filterMap_append]
  simp only [List.mem_append] at h ⊢
  tauto

/-- A turn carries no other prompt than before. -/
theorem process_carried : (w.process tokenizer).carried.Subperm w.carried := by
  unfold carried
  rw [process_prompts, process_toBackend_users, prompts_eq, List.map_append, ← List.append_assoc,
    List.append_assoc (w.turnPrompts.map _)]
  -- the encoded prompts go behind what was sent before
  have hsub := requests_sublist tokenizer w.turnPrompts
  exact List.perm_append_comm.subperm.trans (hsub.append_right _).subperm

end Process

end Worker

namespace Serving

/-- The user's prompt has not reached the scheduler. -/
def Upstream (s : Serving) (uid : Nat) : Prop :=
  uid ∈ s.frontend.unsent.map TokenizeMsg.uid ∨ ∃ i, uid ∈ (s.workers i).carried

/-- Each prompt is in one place. -/
structure Unique (s : Serving) : Prop where
  unsent : (s.frontend.unsent.map TokenizeMsg.uid).Nodup
  carried : ∀ i, (s.workers i).carried.Nodup
  apart : ∀ i j uid, uid ∈ (s.workers i).carried → uid ∈ (s.workers j).carried → i = j
  sent : ∀ i uid, uid ∈ (s.workers i).carried → uid ∉ s.frontend.unsent.map TokenizeMsg.uid
  admitted : ∀ uid, s.Upstream uid → uid < s.frontend.uidCounter

/-- The lengths are those of the users' prompts. -/
structure Sourced (tokenizer : Tokenizer) (s : Serving) : Prop where
  unsent : ∀ msg ∈ s.frontend.unsent, msg ∈ s.users
  prompts : ∀ i, ∀ msg ∈ (s.workers i).prompts, msg ∈ s.users
  requests : ∀ i uid tokens n, BackendMsg.user uid tokens n ∈ (s.workers i).toBackend →
    s.PromptLength tokenizer uid tokens.length
  waiting : ∀ p ∈ s.scheduler.pendingList, s.PromptLength tokenizer p.uid p.inputLen
  chunks : ∀ c ∈ s.scheduler.chunks, s.PromptLength tokenizer c.1 c.2

variable {tokenizer : Tokenizer} {s t : Serving} {i : Nat} {w : Worker}

@[simp] theorem setWorker_workers (s : Serving) (i : Nat) (w : Worker) :
    (s.setWorker i w).workers = Function.update s.workers i w := rfl

@[simp] theorem setWorker_frontend (s : Serving) (i : Nat) (w : Worker) :
    (s.setWorker i w).frontend = s.frontend := rfl

@[simp] theorem setWorker_scheduler (s : Serving) (i : Nat) (w : Worker) :
    (s.setWorker i w).scheduler = s.scheduler := rfl

@[simp] theorem setWorker_users (s : Serving) (i : Nat) (w : Worker) :
    (s.setWorker i w).users = s.users := rfl

/-- What holds of each worker, and of the new one, holds after the update. -/
theorem forall_update {P : Nat → Worker → Prop} (h : ∀ j, P j (s.workers j)) (hw : P i w) (j : Nat) :
    P j (Function.update s.workers i w j) := by
  by_cases hj : j = i
  · subst hj
    rw [Function.update_self]
    exact hw
  · rw [Function.update_of_ne hj]
    exact h j

theorem Unique.shrink (h : s.Unique) (hunsent : t.frontend.unsent = s.frontend.unsent)
    (hcounter : t.frontend.uidCounter = s.frontend.uidCounter)
    (hcarried : ∀ j, (t.workers j).carried.Subperm (s.workers j).carried) : t.Unique := by
  have hsub (j uid : Nat) (hmem : uid ∈ (t.workers j).carried) : uid ∈ (s.workers j).carried :=
    (hcarried j).subset hmem
  constructor
  case unsent =>
    rw [hunsent]
    exact h.unsent
  case carried =>
    intro j
    obtain ⟨l, hperm, hl⟩ := hcarried j
    exact hperm.nodup_iff.1 ((h.carried j).sublist hl)
  case apart => exact fun j k uid hj hk => h.apart j k uid (hsub j uid hj) (hsub k uid hk)
  case sent =>
    rw [hunsent]
    exact fun j uid hj => h.sent j uid (hsub j uid hj)
  case admitted =>
    rw [hcounter]
    rintro uid (hu | ⟨j, hj⟩)
    · exact h.admitted uid (.inl (hunsent ▸ hu))
    · exact h.admitted uid (.inr ⟨j, hsub j uid hj⟩)

theorem upstream_shrink (hunsent : t.frontend.unsent = s.frontend.unsent)
    (hcarried : ∀ j, (t.workers j).carried.Subperm (s.workers j).carried) {uid : Nat}
    (h : t.Upstream uid) : s.Upstream uid := by
  rcases h with hu | ⟨j, hj⟩
  · exact .inl (hunsent ▸ hu)
  · exact .inr ⟨j, (hcarried j).subset hj⟩

theorem PromptLength.mono (husers : ∀ msg ∈ s.users, msg ∈ t.users) {uid n : Nat}
    (h : s.PromptLength tokenizer uid n) : t.PromptLength tokenizer uid n := by
  obtain ⟨msg, hmsg, hrest⟩ := h
  exact ⟨msg, husers msg hmsg, hrest⟩

/-- A prompt that the scheduler takes from its queue is nowhere else. -/
theorem Unique.taken (h : s.Unique) {uid n : Nat} {tokens : List TokenId} {rest : List BackendMsg}
    (hback : (s.workers i).toBackend = .user uid tokens n :: rest) :
    s.Upstream uid ∧
      ¬ (s.setWorker i { s.workers i with toBackend := rest }).Upstream uid := by
  have hcarried : (s.workers i).carried = (s.workers i).prompts.map TokenizeMsg.uid
      ++ uid :: rest.filterMap BackendMsg.userUid? := by
    unfold Worker.carried
    rw [hback]
    rfl
  have hmem : uid ∈ (s.workers i).carried := by
    rw [hcarried]
    exact List.mem_append_right _ List.mem_cons_self
  refine ⟨.inr ⟨i, hmem⟩, ?_⟩
  rintro (hu | ⟨j, hj⟩)
  · exact h.sent i uid hmem hu
  · rw [setWorker_workers] at hj
    by_cases hji : j = i
    · -- a second copy in the same queue
      subst hji
      rw [Function.update_self] at hj
      have hnodup := h.carried j
      rw [hcarried] at hnodup
      have hperm := List.nodup_middle.1 hnodup
      exact (List.nodup_cons.1 hperm).1 hj
    · rw [Function.update_of_ne hji] at hj
      exact hji (h.apart j i uid hj hmem)

/-- A prompt that its worker refuses is nowhere else. -/
theorem Unique.refused (h : s.Unique) {msg : TokenizeMsg} {reply : UserReply} {uid : Nat}
    (hmem : msg ∈ (s.workers i).turnPrompts) (huid : msg.uid = uid)
    (herr : Worker.tokenizeError tokenizer msg = some reply) :
    ¬ (s.setWorker i ((s.workers i).process tokenizer)).Upstream uid := by
  subst huid
  have hcarried : msg.uid ∈ (s.workers i).carried := by
    rw [Worker.carried, Worker.prompts_eq, List.map_append]
    exact List.mem_append_left _ (List.mem_append_left _ (List.mem_map_of_mem hmem))
  have hnodup := h.carried i
  rw [Worker.carried, Worker.prompts_eq, List.map_append] at hnodup
  obtain ⟨hprompts, -, hback⟩ := List.nodup_append.1 hnodup
  obtain ⟨hturn, -, hrest⟩ := List.nodup_append.1 hprompts
  have hin : msg.uid ∈ (s.workers i).turnPrompts.map TokenizeMsg.uid := List.mem_map_of_mem hmem
  rintro (hu | ⟨j, hj⟩)
  · exact h.sent i _ hcarried hu
  · rw [setWorker_workers] at hj
    by_cases hji : j = i
    · subst hji
      rw [Function.update_self, Worker.carried, Worker.process_prompts,
        Worker.process_toBackend_users] at hj
      rcases List.mem_append.1 hj with hj | hj
      · exact hrest _ hin _ hj rfl
      rcases List.mem_append.1 hj with hj | hj
      · exact hback _ (List.mem_append_left _ hin) _ hj rfl
      · exact Worker.refused_not_requested herr hturn hmem hj
    · rw [Function.update_of_ne hji] at hj
      exact hji (h.apart j i _ hj hcarried)

/-! ## The frontend's part -/

/-- A new user's prompt is upstream, and no other changes. -/
theorem Unique.newUser (h : s.Unique) {msg : TokenizeMsg} (huid : msg.uid = s.frontend.uidCounter)
    (hunsent : t.frontend.unsent = s.frontend.unsent ++ [msg])
    (hcounter : t.frontend.uidCounter = s.frontend.uidCounter + 1)
    (hworkers : t.workers = s.workers) :
    t.Unique ∧ ∀ uid, t.Upstream uid → s.Upstream uid ∨ uid = s.frontend.uidCounter := by
  have hup (uid : Nat) (hu : t.Upstream uid) : s.Upstream uid ∨ uid = s.frontend.uidCounter := by
    rcases hu with hu | hu
    · rw [hunsent, List.map_append, List.mem_append, List.map_singleton, List.mem_singleton,
        huid] at hu
      exact hu.imp_left .inl
    · exact .inl (.inr (hworkers ▸ hu))
  have hfresh : ¬ s.Upstream s.frontend.uidCounter := fun hu => Nat.lt_irrefl _ (h.admitted _ hu)
  refine ⟨⟨?_, ?_, ?_, ?_, ?_⟩, hup⟩
  · rw [hunsent, List.map_append]
    apply List.Nodup.append h.unsent (List.nodup_singleton _)
    rw [List.disjoint_singleton, huid]
    exact fun hmem => hfresh (.inl hmem)
  · rw [hworkers]
    exact h.carried
  · rw [hworkers]
    exact h.apart
  · rw [hworkers, hunsent]
    intro j uid hj hmem
    rw [List.map_append, List.mem_append, List.map_singleton, List.mem_singleton, huid] at hmem
    rcases hmem with hmem | rfl
    · exact h.sent j uid hj hmem
    · exact hfresh (.inr ⟨j, hj⟩)
  · intro uid hu
    rcases hup uid hu with hu | rfl
    · have hlt := h.admitted uid hu
      omega
    · omega

theorem carried_request (w : Worker) (msg : RequestMsg) :
    ({ w with fromFrontend := w.fromFrontend ++ [msg] } : Worker).carried
      = w.prompts.map TokenizeMsg.uid ++ ([msg].filterMap RequestMsg.tokenize?).map TokenizeMsg.uid
        ++ w.toBackend.filterMap BackendMsg.userUid? := by
  simp [Worker.carried, Worker.prompts, Worker.requests]

/-- A sent prompt is in the queue of its worker. -/
theorem Unique.sendOne (h : s.Unique) {msg : TokenizeMsg} (hmem : msg ∈ s.frontend.unsent)
    (hunsent : t.frontend.unsent = s.frontend.unsent.filter fun m => m.uid ≠ msg.uid)
    (hcounter : t.frontend.uidCounter = s.frontend.uidCounter)
    (hworkers : t.workers = Function.update s.workers i
      { s.workers i with fromFrontend := (s.workers i).fromFrontend ++ [.tokenize msg] }) :
    t.Unique ∧ ∀ uid, t.Upstream uid → s.Upstream uid := by
  have huid : msg.uid ∈ s.frontend.unsent.map TokenizeMsg.uid := List.mem_map_of_mem hmem
  have hleft (uid : Nat) (hu : uid ∈ t.frontend.unsent.map TokenizeMsg.uid) :
      uid ∈ s.frontend.unsent.map TokenizeMsg.uid ∧ uid ≠ msg.uid := by
    rw [hunsent] at hu
    obtain ⟨m, hm, rfl⟩ := List.mem_map.1 hu
    obtain ⟨hm, hne⟩ := List.mem_filter.1 hm
    exact ⟨List.mem_map_of_mem hm, by simpa using hne⟩
  have hcarried : ∀ j uid, uid ∈ (t.workers j).carried →
      uid ∈ (s.workers j).carried ∨ uid = msg.uid ∧ j = i := by
    rw [hworkers]
    apply forall_update (P := fun j w => ∀ uid, uid ∈ w.carried →
      uid ∈ (s.workers j).carried ∨ uid = msg.uid ∧ j = i)
    · exact fun j uid hu => .inl hu
    · intro uid hu
      rw [carried_request] at hu
      simp only [List.mem_append, List.filterMap_cons, RequestMsg.tokenize?, List.filterMap_nil,
        List.map_cons, List.map_nil, List.mem_singleton] at hu
      unfold Worker.carried
      rw [List.mem_append]
      tauto
  have hup (uid : Nat) (hu : t.Upstream uid) : s.Upstream uid := by
    rcases hu with hu | ⟨j, hj⟩
    · exact .inl (hleft uid hu).1
    · rcases hcarried j uid hj with hj | ⟨rfl, -⟩
      · exact .inr ⟨j, hj⟩
      · exact .inl huid
  refine ⟨⟨?_, ?_, ?_, ?_, ?_⟩, hup⟩
  · rw [hunsent]
    exact h.unsent.sublist (List.filter_sublist.map _)
  · rw [hworkers]
    apply forall_update (P := fun _ w => w.carried.Nodup) h.carried
    have hperm : ({ s.workers i with
        fromFrontend := (s.workers i).fromFrontend ++ [.tokenize msg] } : Worker).carried.Perm
          (msg.uid :: (s.workers i).carried) := by
      rw [carried_request]
      show (_ ++ [msg.uid] ++ _).Perm _
      rw [List.append_assoc]
      exact List.perm_middle
    apply hperm.nodup_iff.2
    exact List.nodup_cons.2 ⟨fun hc => h.sent i _ hc huid, h.carried i⟩
  · intro j k uid hj hk
    rcases hcarried j uid hj with hj | ⟨rfl, rfl⟩
    · rcases hcarried k uid hk with hk | ⟨rfl, rfl⟩
      · exact h.apart j k uid hj hk
      · exact absurd huid (h.sent j _ hj)
    · rcases hcarried k _ hk with hk | ⟨-, rfl⟩
      · exact absurd huid (h.sent k _ hk)
      · rfl
  · intro j uid hj hu
    obtain ⟨hu, hne⟩ := hleft uid hu
    rcases hcarried j uid hj with hj | ⟨heq, -⟩
    · exact h.sent j uid hj hu
    · exact hne heq
  · rw [hcounter]
    exact fun uid hu => h.admitted uid (hup uid hu)

end Serving

end FreeToken
