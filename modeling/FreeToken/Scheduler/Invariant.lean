import FreeToken.Scheduler.PrefillSpec
import FreeToken.Scheduler.System

/-!
# Invariants of every interleaving

A running request is held at a stage: built, prepared for a launch, or launched.  `Laws I` says that
every call of the scheduler keeps the invariant `I` of the manager and the held requests; then `I`
holds in every reachable state.  What a request looks like at each stage (`Shape`) and the rows of
the table manager are proved along the way, once for all caches.
-/

set_option autoImplicit false

namespace FreeToken

open Blocks

inductive Stage
  | fresh
  | prepared (phase : Phase) (track : Option Track)
  | live

abbrev Held := Req × Stage

/-- The row a request holds. -/
def Req.row (r : Req) : Nat := r.tableIdx.getD 0

/-- What a request looks like at its stage. -/
structure Shape (h : Held) : Prop where
  seated : h.1.tableIdx.isSome = true
  host : h.1.inputIds <+: h.1.deviceIds
  prompt : h.1.maxDeviceLen - h.1.outputLen ≤ h.1.inputIds.length
  mm : h.1.hasMm = true → h.1.chunked = false
  fresh : h.2 = .fresh → h.1.mambaLastTrackSeqlen = none ∧ h.1.toolcallAnchorLen = none ∧
    h.1.decodeBatchIdx = 0
  built : (h.2 = .fresh ∨ ∃ tr, h.2 = .prepared .prefill tr) →
    h.1.cachedLen < h.1.deviceLen ∧ h.1.deviceIds = h.1.inputIds ∧
      h.1.deviceLen = h.1.inputIds.length
  stepping : (∃ tr, h.2 = .prepared .decode tr) → h.1.deviceLen = h.1.cachedLen + 1 ∧
    h.1.deviceIds.length = h.1.deviceLen ∧ h.1.chunked = false ∧ h.1.canDecode = true
  live : h.2 = .live → h.1.deviceLen = h.1.cachedLen + 1 ∧ h.1.cachedLen ≤ h.1.deviceIds.length ∧
    (h.1.canDecode = true → h.1.deviceIds.length = h.1.deviceLen) ∧
    (h.1.chunked = true → h.1.deviceIds = h.1.inputIds ∧ h.1.cachedLen = h.1.inputIds.length)

namespace Sys

def heldPrepared (s : Sys) : List Held :=
  match s.prepared with
  | none => []
  | some (phase, batch) => batch.map fun x => (x.1, .prepared phase x.2)

/-- The running requests with their stages. -/
def held (s : Sys) : List Held :=
  s.fresh.map (·, .fresh) ++ s.heldPrepared ++ s.live.map (·, .live)

end Sys

/-- The requests a batch was built from, as they were held. -/
def launched (phase : Phase) (batch : List (Req × Option Track)) : List Held :=
  batch.map fun x => (x.1, .prepared phase x.2)

/-- The part of a request that only the host side of a drain changes. -/
structure SameOnHost (r r' : Req) : Prop where
  fields : r'.toCacheFields = { r.toCacheFields with toolcallAnchorLen := r'.toolcallAnchorLen }
  tableIdx : r'.tableIdx = r.tableIdx
  cachedLen : r'.cachedLen = r.cachedLen
  deviceLen : r'.deviceLen = r.deviceLen
  deviceIds : r'.deviceIds = r.deviceIds
  maxDeviceLen : r'.maxDeviceLen = r.maxDeviceLen
  outputLen : r'.outputLen = r.outputLen
  hasMm : r'.hasMm = r.hasMm
  chunked : r'.chunked = r.chunked
  uid : r'.uid = r.uid
  host : r.inputIds <+: r'.inputIds

/-- Every call of the scheduler keeps `I`; a commit may ask for `Safe`. -/
structure Laws (env : Env) (cfg : Config) (Safe : CacheManager → Req → Prop)
    (I : CacheManager → List Held → Prop) : Prop where
  init : I (CacheManager.init cfg) []
  perm : ∀ {cm H H'}, H.Perm H' → I cm H → I cm H'
  tried : ∀ {a a' p H}, PrefillAdder.Tried a p a' none →
    (∀ h ∈ H, h.1.row ∉ a.tm.freeSlots) → I a.cm H → I a'.cm H
  admitted : ∀ {a a' p r H}, PrefillAdder.Tried a p a' (some r) →
    (∀ h ∈ H, h.1.row ∉ a.tm.freeSlots) → I a.cm H → I a'.cm ((r, .fresh) :: H)
  nextChunk : ∀ {cm p c r H}, Sys.ChunkOf c p → Shape (c, .live) →
    PrefillAdder.Built p (PrefillAdder.inherited c) c.cachedLen c.mambaNextTrackIdx
      c.swaEvictedSeqlen r → I cm ((c, .live) :: H) → I cm ((r, .fresh) :: H)
  preparePrefill : ∀ {cm cm' reqs batch it H}, (∀ r ∈ reqs, Shape (r, .fresh)) →
    prepareBatch cm .prefill reqs it = .ok (cm', batch) → I cm (reqs.map (·, .fresh) ++ H) →
    I cm' (launched .prefill batch ++ H)
  prepareDecode : ∀ {cm cm' reqs batch it H}, (∀ r ∈ reqs, Shape (r, .live) ∧ r.canDecode = true) →
    prepareBatch cm .decode reqs it = .ok (cm', batch) → I cm (reqs.map (·, .live) ++ H) →
    I cm' (launched .decode batch ++ H)
  forward : ∀ {cm cm' phase batch out H}, (∀ h ∈ launched phase batch, Shape h) →
    forwardBatch env cm phase batch = (cm', out) → I cm (launched phase batch ++ H) →
    I cm' (out.map (fun x => (x.1, .live)) ++ H)
  host : ∀ {cm r r' H}, SameOnHost r r' → Shape (r', .live) → I cm ((r, .live) :: H) →
    I cm ((r', .live) :: H)
  commit : ∀ {cm cm' r f H}, Shape (r, .live) → r.chunked = false →
    r.cachedLen ≤ r.inputIds.length → Safe cm r → cm.cacheReq r false = .ok (cm', f) →
    I cm ((r, .live) :: H) → I cm' (({ r with toCacheFields := f }, .live) :: H)
  finish : ∀ {cm cm' r f H}, Shape (r, .live) → r.cachedLen ≤ r.inputIds.length →
    cm.cacheReq r true = .ok (cm', f) → I cm ((r, .live) :: H) → I cm' H
  enterLazy : ∀ {cm H}, cm.lazyFreeList = none → I cm H → I cm.enterLazyFreeRegion H
  exitLazy : ∀ {cm H}, I cm H → I cm.exitLazyFreeRegion H
  ensureSwa : ∀ {cm H n}, cm.isSwa = true → I cm H → I (cm.ensureSwaSlots n) H
  ensureMamba : ∀ {cm H n}, cm.isHybrid = true → I cm H → I (cm.ensureMambaSlots n) H

/-! ## What a preparation and a launch change in a request -/

/-- Preparing a batch changes a request's marks only. -/
def Marked (r r' : Req) : Prop :=
  ∃ e d a l x, r' = { r with
    swaEvictedSeqlen := e, decodeBatchIdx := d, toolcallAnchorLen := a, mambaLastTrackSeqlen := l,
    mambaNextTrackIdx := x }

theorem Marked.refl (r : Req) : Marked r r := ⟨_, _, _, _, _, rfl⟩

theorem Marked.trans {r r' r'' : Req} (h : Marked r r') (h' : Marked r' r'') : Marked r r'' := by
  obtain ⟨e, d, a, l, x, rfl⟩ := h
  obtain ⟨e', d', a', l', x', rfl⟩ := h'
  exact ⟨e', d', a', l', x', rfl⟩

theorem forReqs_forall {R : Req → Req → Prop} {f : CacheManager → Req → CacheManager × Req}
    (hf : ∀ cm r, R r (f cm r).2) (cm : CacheManager) (reqs : List Req) :
    List.Forall₂ R reqs (CacheManager.forReqs f cm reqs).2 := by
  induction reqs generalizing cm with
  | nil => exact .nil
  | cons r reqs ih => exact .cons (hf cm r) (ih _)

theorem forall_refl {α : Type} {R : α → α → Prop} (hR : ∀ a, R a a) (l : List α) :
    List.Forall₂ R l l :=
  List.forall₂_same.2 fun a _ => hR a

theorem forall_comp {α β γ : Type} {R : α → β → Prop} {S : β → γ → Prop} {T : α → γ → Prop}
    (hT : ∀ a b c, R a b → S b c → T a c) {l : List α} {m : List β} {n : List γ}
    (h : List.Forall₂ R l m) (h' : List.Forall₂ S m n) : List.Forall₂ T l n := by
  induction h generalizing n with
  | nil =>
      cases h'
      exact .nil
  | cons hab _ ih =>
      cases h' with
      | cons hbc hrest => exact .cons (hT _ _ _ hab hbc) (ih hrest)

theorem forall_mem_right {α β : Type} {R : α → β → Prop} {l : List α} {m : List β}
    (h : List.Forall₂ R l m) {b : β} (hb : b ∈ m) : ∃ a ∈ l, R a b := by
  induction h with
  | nil => cases hb
  | cons hab _ ih =>
      rcases List.mem_cons.1 hb with rfl | hb
      · exact ⟨_, List.mem_cons_self, hab⟩
      · obtain ⟨a, ha, hR⟩ := ih hb
        exact ⟨a, List.mem_cons_of_mem _ ha, hR⟩

theorem forall_left_mem {α β : Type} {R : α → β → Prop} {l : List α} {m : List β}
    (h : List.Forall₂ R l m) : List.Forall₂ (fun a b => R a b ∧ a ∈ l) l m := by
  induction h with
  | nil => exact .nil
  | cons hab _ ih =>
      refine .cons ⟨hab, List.mem_cons_self⟩ (ih.imp ?_)
      intro a b hb
      exact ⟨hb.1, List.mem_cons_of_mem _ hb.2⟩

/-- The out-of-window frees and the batch count change no mark of the snapshots. -/
def Swept (r r' : Req) : Prop :=
  ∃ e d a, r' = { r with swaEvictedSeqlen := e, decodeBatchIdx := d, toolcallAnchorLen := a }

theorem Swept.refl (r : Req) : Swept r r := ⟨_, _, _, rfl⟩

theorem Swept.trans {r r' r'' : Req} (h : Swept r r') (h' : Swept r' r'') : Swept r r'' := by
  obtain ⟨e, d, a, rfl⟩ := h
  obtain ⟨e', d', a', rfl⟩ := h'
  exact ⟨e', d', a', rfl⟩

theorem Swept.marked {r r' : Req} (h : Swept r r') : Marked r r' := by
  obtain ⟨e, d, a, rfl⟩ := h
  exact ⟨e, d, a, _, _, rfl⟩

theorem freeOutOfWindow_swept (cm : CacheManager) (r : Req) (n : Int) :
    Swept r (cm.freeOutOfWindow r n).2 := by
  unfold CacheManager.freeOutOfWindow
  dsimp only
  split
  · exact ⟨_, _, _, rfl⟩
  · exact .refl r

theorem decodeThreshold_swept (cm : CacheManager) (r : Req) :
    Swept r (cm.decodeThreshold r).1 := by
  unfold CacheManager.decodeThreshold
  dsimp only
  split
  · exact .refl r
  · split
    · exact ⟨_, _, _, rfl⟩
    · exact .refl r

theorem freeBeforeAlloc_swept (cm : CacheManager) (phase : Phase) (reqs : List Req) (it : Nat) :
    List.Forall₂ Swept reqs (freeBeforeAlloc cm phase reqs it).2 := by
  cases phase with
  | prefill =>
      unfold freeBeforeAlloc CacheManager.freeSwaOutOfWindowExtend
      dsimp only
      split
      · exact forall_refl Swept.refl reqs
      · exact forReqs_forall (fun cm r => freeOutOfWindow_swept cm r _) cm reqs
  | decode =>
      unfold freeBeforeAlloc CacheManager.maybeFreeSwaOutOfWindow
      dsimp only
      have hcount : ∀ {l l' : List Req}, List.Forall₂ Swept l l' → List.Forall₂ Swept l
          (l'.map fun r => { r with decodeBatchIdx := r.decodeBatchIdx + 1 }) := by
        intro l l' h
        induction h with
        | nil => exact .nil
        | cons hab _ ih => exact .cons (hab.trans ⟨_, _, _, rfl⟩) ih
      split
      · exact hcount (forall_refl Swept.refl reqs)
      · refine hcount (forReqs_forall (fun cm r => ?_) cm reqs)
        unfold CacheManager.maybeFreeSwaReq
        split
        · exact .refl r
        · exact (decodeThreshold_swept cm r).trans (freeOutOfWindow_swept cm _ _)

theorem freeBeforeAlloc_marked (cm : CacheManager) (phase : Phase) (reqs : List Req) (it : Nat) :
    List.Forall₂ Marked reqs (freeBeforeAlloc cm phase reqs it).2 :=
  (freeBeforeAlloc_swept cm phase reqs it).imp fun _ _ => Swept.marked

theorem trackReq_marked (r : Req) : Marked r (trackReq r).1 := by
  unfold trackReq
  split
  · exact .refl r
  · dsimp only
    split
    · exact .refl r
    · exact ⟨_, _, _, _, _, rfl⟩

theorem prepareBatch_ok {cm cm' : CacheManager} {phase : Phase} {reqs : List Req} {it : Nat}
    {batch : List (Req × Option Track)} (h : prepareBatch cm phase reqs it = .ok (cm', batch)) :
    (freeBeforeAlloc cm phase reqs it).1.allocatePaged (freeBeforeAlloc cm phase reqs it).2 =
        .ok cm' ∧
      batch = trackBatch phase (freeBeforeAlloc cm phase reqs it).2 := by
  unfold prepareBatch at h
  obtain ⟨cm'', halloc, hret⟩ := Py.bind_eq_ok.1 h
  cases hret
  exact ⟨halloc, rfl⟩

theorem prepareBatch_marked {cm cm' : CacheManager} {phase : Phase} {reqs : List Req} {it : Nat}
    {batch : List (Req × Option Track)} (h : prepareBatch cm phase reqs it = .ok (cm', batch)) :
    List.Forall₂ (fun r x => Marked r x.1) reqs batch := by
  obtain ⟨-, rfl⟩ := prepareBatch_ok h
  have hfree := freeBeforeAlloc_marked cm phase reqs it
  cases phase with
  | decode => exact List.forall₂_map_right_iff.2 hfree
  | prefill =>
      refine List.forall₂_map_right_iff.2 (hfree.imp fun r r' hr => ?_)
      exact hr.trans (trackReq_marked r')

theorem trackBatch_decode (reqs : List Req) : ∀ x ∈ trackBatch .decode reqs, x.2 = none := by
  intro x hx
  obtain ⟨r, _, rfl⟩ := List.mem_map.1 hx
  rfl

/-- A launch completes the request's step and hands the sampled token to the token pool. -/
def Launched (env : Env) (r r' : Req) : Prop :=
  ∃ src l x, r' = { r.completeOne with
    mambaRestoreSrc := src, mambaLastTrackSeqlen := l, mambaNextTrackIdx := x
    deviceIds := if r.canDecode then
        r.deviceIds.take r.deviceLen ++ [env.sample r.uid (r.deviceIds.take r.deviceLen)]
      else r.deviceIds }

/-- Before a launch a restore or a snapshot changes a request's snapshot marks only. -/
def Restored (r r' : Req) : Prop :=
  ∃ src l x, r' = { r with
    mambaRestoreSrc := src, mambaLastTrackSeqlen := l, mambaNextTrackIdx := x }

theorem Restored.refl (r : Req) : Restored r r := ⟨_, _, _, rfl⟩

theorem Restored.trans {r r' r'' : Req} (h : Restored r r') (h' : Restored r' r'') :
    Restored r r'' := by
  obtain ⟨_, _, _, rfl⟩ := h
  obtain ⟨src, l, x, rfl⟩ := h'
  exact ⟨src, l, x, rfl⟩

theorem restoreReq_restored (cm : CacheManager) (r : Req) : Restored r (restoreReq cm r).2 := by
  unfold restoreReq
  split
  · exact ⟨_, _, _, rfl⟩
  · exact .refl r

theorem snapshotAnchorReq_restored (cm : CacheManager) (r : Req) :
    Restored r (cm.snapshotAnchorReq r).2 := by
  unfold CacheManager.snapshotAnchorReq
  split
  · split
    · exact ⟨_, _, _, rfl⟩
    · exact .refl r
  · exact .refl r

theorem zip_forall {β : Type} {R : Req → Req → Prop} {batch : List (Req × β)} {reqs : List Req}
    (h : List.Forall₂ R (batch.map Prod.fst) reqs) :
    List.Forall₂ (fun x y => R x.1 y.1 ∧ y.2 = x.2) batch (reqs.zip (batch.map Prod.snd)) := by
  induction batch generalizing reqs with
  | nil =>
      cases h
      exact .nil
  | cons x batch ih =>
      cases h with
      | cons hx hrest => exact .cons ⟨hx, rfl⟩ (ih hrest)

theorem forall_and_refl {β : Type} {R : Req → Req → Prop} (hR : ∀ r, R r r)
    (batch : List (Req × β)) :
    List.Forall₂ (fun x y => R x.1 y.1 ∧ y.2 = x.2) batch batch :=
  forall_refl (fun x => ⟨hR x.1, rfl⟩) batch

theorem restoreStates_restored (cm : CacheManager) (phase : Phase)
    (batch : List (Req × Option Track)) :
    List.Forall₂ (fun x y => Restored x.1 y.1 ∧ y.2 = x.2) batch
      (restoreStates cm phase batch).2 := by
  cases phase with
  | decode => exact forall_and_refl Restored.refl batch
  | prefill => exact zip_forall (forReqs_forall restoreReq_restored cm _)

theorem snapshotAnchors_restored (env : Env) (cm : CacheManager) (phase : Phase)
    (batch : List (Req × Option Track)) :
    List.Forall₂ (fun x y => Restored x.1 y.1 ∧ y.2 = x.2) batch
      (snapshotAnchors env cm phase batch).2 := by
  cases phase with
  | prefill => exact forall_and_refl Restored.refl batch
  | decode =>
      unfold snapshotAnchors
      dsimp only
      split
      · refine zip_forall ?_
        unfold CacheManager.snapshotToolcallAnchor
        split
        · exact forReqs_forall snapshotAnchorReq_restored cm _
        · exact forall_refl Restored.refl _
      · exact forall_and_refl Restored.refl batch

theorem forwardReqs_launched (env : Env) (cm : CacheManager) (batch : List (Req × Option Track)) :
    List.Forall₂ (fun x y => Launched env x.1 y.1) batch (forwardReqs env cm batch).2 := by
  induction batch generalizing cm with
  | nil => exact .nil
  | cons x batch ih =>
      refine .cons ?_ (ih _)
      exact ⟨_, _, _, rfl⟩

theorem forwardBatch_launched {env : Env} {cm cm' : CacheManager} {phase : Phase}
    {batch : List (Req × Option Track)} {out : List (Req × Token)}
    (h : forwardBatch env cm phase batch = (cm', out)) :
    List.Forall₂ (fun x y => Launched env x.1 y.1) batch out := by
  unfold forwardBatch at h
  dsimp only at h
  have h₁ := restoreStates_restored cm phase batch
  have h₂ := snapshotAnchors_restored env (restoreStates cm phase batch).1 phase
    (restoreStates cm phase batch).2
  have h₃ := forwardReqs_launched env
    (snapshotAnchors env (restoreStates cm phase batch).1 phase (restoreStates cm phase batch).2).1
    (snapshotAnchors env (restoreStates cm phase batch).1 phase (restoreStates cm phase batch).2).2
  have hout := congrArg Prod.snd h
  dsimp only at hout
  rw [hout] at h₃
  have hcomp : ∀ {a b c : Req}, Restored a b → Launched env b c → Launched env a c := by
    intro a b c hab hbc
    obtain ⟨_, _, _, rfl⟩ := hab
    obtain ⟨src, l, x, rfl⟩ := hbc
    exact ⟨src, l, x, rfl⟩
  have h₂₃ : List.Forall₂ (fun x y => Launched env x.1 y.1) (restoreStates cm phase batch).2 out := by
    refine forall_comp ?_ h₂ h₃
    intro a b c hab hbc
    exact hcomp hab.1 hbc
  refine forall_comp ?_ h₁ h₂₃
  intro a b c hab hbc
  exact hcomp hab.1 hbc

/-! ## Shapes through the stages -/

namespace Shape

theorem of_built {p : PendingReq} {res : AdmitResource} {cachedLen idx evicted : Nat} {r : Req}
    (h : PrefillAdder.Built p res cachedLen idx evicted r) : Shape (r, .fresh) := by
  obtain ⟨⟨n, rfl⟩, hlt, hmm⟩ := h
  refine ⟨rfl, List.prefix_rfl, ?_, hmm, fun _ => ⟨rfl, rfl, rfl⟩, fun _ => ⟨hlt, rfl, rfl⟩,
    by simp, by simp⟩
  show (p.inputIds.take (cachedLen + n)).length + p.outputLen - p.outputLen ≤ _
  rw [Nat.add_sub_cancel]
  exact le_rfl

theorem prefill {r r' : Req} (h : Shape (r, .fresh)) (hm : Marked r r') (tr : Option Track) :
    Shape (r', .prepared .prefill tr) := by
  obtain ⟨e, d, a, l, x, rfl⟩ := hm
  have hb := h.built (.inl rfl)
  exact ⟨h.seated, h.host, h.prompt, h.mm, by simp, fun _ => hb, by simp, by simp⟩

theorem decode {r r' : Req} (h : Shape (r, .live)) (hc : r.canDecode = true) (hm : Marked r r')
    (tr : Option Track) : Shape (r', .prepared .decode tr) := by
  obtain ⟨e, d, a, l, x, rfl⟩ := hm
  obtain ⟨hdev, -, hids, -⟩ := h.live rfl
  have hchunk : r.chunked = false := by
    unfold Req.canDecode at hc
    cases hr : r.chunked with
    | false => rfl
    | true => simp [hr] at hc
  exact ⟨h.seated, h.host, h.prompt, h.mm, by simp, by simp,
    fun _ => ⟨hdev, hids hc, hchunk, hc⟩, by simp⟩

theorem launched {env : Env} {r r' : Req} {phase : Phase} {tr : Option Track}
    (h : Shape (r, .prepared phase tr)) (hl : Launched env r r') : Shape (r', .live) := by
  obtain ⟨src, l, x, rfl⟩ := hl
  -- before the launch the token pool holds exactly the tokens to compute
  have hlen : r.deviceIds.length = r.deviceLen ∧
      (r.chunked = true → r.deviceIds = r.inputIds ∧ r.deviceLen = r.inputIds.length) := by
    cases phase with
    | prefill =>
        obtain ⟨-, hids, hdev⟩ := h.built (.inr ⟨tr, rfl⟩)
        exact ⟨by rw [hids, hdev], fun _ => ⟨hids, hdev⟩⟩
    | decode =>
        obtain ⟨-, hids, hchunk, -⟩ := h.stepping ⟨tr, rfl⟩
        exact ⟨hids, fun hc => by rw [hchunk] at hc; cases hc⟩
  have hnext : (r.chunked = true → r.canDecode = false) ∧
      (r.canDecode = false → r.completeOne.canDecode = false) := by
    unfold Req.canDecode Req.remainLen Req.completeOne
    constructor
    · intro hc
      simp [hc]
    · dsimp only
      split
      · simp
      · simp only [decide_eq_false_iff_not]
        omega
  refine ⟨h.seated, ?_, h.prompt, h.mm, by simp, by simp, by simp, fun _ => ⟨rfl, ?_, ?_, ?_⟩⟩
  · show r.inputIds <+: if r.canDecode then _ else _
    split
    · rw [← hlen.1, List.take_length]
      exact h.host.trans (List.prefix_append _ _)
    · exact h.host
  · show r.deviceLen ≤ List.length (if r.canDecode then _ else _)
    split
    · rw [← hlen.1, List.take_length, List.length_append]
      omega
    · exact hlen.1.ge
  · intro hcan
    cases hc : r.canDecode with
    | true =>
        show (r.deviceIds.take r.deviceLen ++ [_]).length = r.deviceLen + 1
        rw [← hlen.1, List.take_length, List.length_append, List.length_singleton]
    | false =>
        have hdone : r.completeOne.canDecode = true := hcan
        rw [hnext.2 hc] at hdone
        cases hdone
  · intro hchunk
    have hno := hnext.1 hchunk
    show (if r.canDecode then _ else r.deviceIds) = r.inputIds ∧ r.deviceLen = r.inputIds.length
    rw [hno]
    exact hlen.2 hchunk

theorem host_same {r r' : Req} (h : Shape (r, .live)) (hs : SameOnHost r r')
    (hp : r'.inputIds <+: r'.deviceIds) (hc : r.chunked = true → r'.inputIds = r.inputIds) :
    Shape (r', .live) := by
  obtain ⟨hdev, hcl, hids, hch⟩ := h.live rfl
  refine ⟨hs.tableIdx ▸ h.seated, hp, ?_, ?_, by simp, by simp, by simp, fun _ => ⟨?_, ?_, ?_, ?_⟩⟩
  · show r'.maxDeviceLen - r'.outputLen ≤ _
    rw [hs.maxDeviceLen, hs.outputLen]
    exact h.prompt.trans hs.host.length_le
  · show r'.hasMm = true → _
    rw [hs.hasMm, hs.chunked]
    exact h.mm
  · show r'.deviceLen = _
    rw [hs.deviceLen, hs.cachedLen]
    exact hdev
  · show r'.cachedLen ≤ _
    rw [hs.cachedLen, hs.deviceIds]
    exact hcl
  · show r'.canDecode = true → _
    have : r'.canDecode = r.canDecode := by
      unfold Req.canDecode Req.remainLen
      rw [hs.chunked, hs.maxDeviceLen, hs.deviceLen]
    rw [this, hs.deviceIds, hs.deviceLen]
    exact hids
  · show r'.chunked = true → _
    rw [hs.chunked, hs.deviceIds, hs.cachedLen]
    intro hchunk
    rw [hc hchunk]
    exact hch hchunk

end Shape

/-! ## The run -/

theorem appendHost_ok {r r' : Req} {token : Token} (h : r.appendHost token = .ok r') :
    r.chunked = false ∧ r' = { r with inputIds := r.inputIds ++ [token] } := by
  unfold Req.appendHost at h
  split at h
  · cases h
  · rename_i hchunk
    obtain ⟨_, -, hret⟩ := Py.bind_eq_ok.1 h
    cases hret
    exact ⟨by simpa using hchunk, rfl⟩

namespace Sys

theorem takeRow_ok {row : Nat} {reqs rest : List Req} {r : Req}
    (h : takeRow row reqs = some (r, rest)) : reqs.Perm (r :: rest) ∧ r.tableIdx = some row := by
  induction reqs generalizing rest with
  | nil => cases h
  | cons x reqs ih =>
      rw [takeRow] at h
      split at h
      · rename_i hx
        cases h
        exact ⟨List.Perm.refl _, hx⟩
      · obtain ⟨⟨y, rest'⟩, hy, heq⟩ := Option.map_eq_some_iff.1 h
        cases heq
        obtain ⟨hp, hrow⟩ := ih hy
        exact ⟨(hp.cons x).trans (List.Perm.swap _ _ _), hrow⟩

theorem takeRows_ok {rows : List Nat} {reqs taken rest : List Req}
    (h : takeRows rows reqs = some (taken, rest)) : reqs.Perm (taken ++ rest) := by
  induction rows generalizing reqs taken rest with
  | nil =>
      cases h
      exact List.Perm.refl _
  | cons row rows ih =>
      obtain ⟨⟨r, reqs'⟩, hr, h⟩ := Option.bind_eq_some_iff.1 h
      obtain ⟨⟨taken', rest'⟩, ht, h⟩ := Option.bind_eq_some_iff.1 h
      cases h
      exact (takeRow_ok hr).1.trans ((ih ht).cons r)

/-- The invariant of a run: `I`, the shapes, and the rows of the running requests with the free
rows of the table manager. -/
structure Ok (cfg : Config) (I : CacheManager → List Held → Prop) (s : Sys) : Prop where
  inv : I s.cm s.held
  shape : ∀ h ∈ s.held, Shape h
  rows : (s.held.map (fun h => h.1.row) ++ s.tm.freeSlots).Perm (List.range cfg.maxRunningReqs)

/-- The permission a run needs for its commits. -/
def Commits (Safe : CacheManager → Req → Prop) (s : Sys) (act : Action) : Prop :=
  ∀ row r rest, act = .commit row → takeRow row s.live = some (r, rest) → Safe s.cm r

theorem held_live_perm {s : Sys} {live : List Req} (h : s.live.Perm live) :
    s.held.Perm (live.map (·, Stage.live) ++ (s.fresh.map (·, Stage.fresh) ++ s.heldPrepared)) :=
  ((h.map _).append_left _).trans List.perm_append_comm

variable {env : Env} {cfg : Config} {Safe : CacheManager → Req → Prop}
  {I : CacheManager → List Held → Prop}

/-- A change of the manager and of the held requests that keeps the rows. -/
theorem Ok.of_perm (L : Laws env cfg Safe I) {s s' : Sys} {H : List Held} (h : Ok cfg I s)
    (hp : H.Perm s'.held) (hinv : I s'.cm H) (hshape : ∀ x ∈ H, Shape x)
    (hrows : (H.map (fun h => h.1.row) ++ s'.tm.freeSlots).Perm
      (s.held.map (fun h => h.1.row) ++ s.tm.freeSlots)) : Ok cfg I s' where
  inv := L.perm hp hinv
  shape := fun x hx => hshape x (hp.mem_iff.2 hx)
  rows := ((((hp.map _).append_right _).symm).trans hrows).trans h.rows

/-- A change of the manager alone. -/
theorem Ok.of_cm {s : Sys} (h : Ok cfg I s) {cm : CacheManager} (hinv : I cm s.held) :
    Ok cfg I { s with cm := cm } :=
  ⟨hinv, h.shape, h.rows⟩

/-- The held requests that are not live. -/
def others (s : Sys) : List Held := s.fresh.map (·, Stage.fresh) ++ s.heldPrepared

theorem held_take {s : Sys} {row : Nat} {r : Req} {rest : List Req}
    (h : takeRow row s.live = some (r, rest)) :
    s.held.Perm ((r, .live) :: (rest.map (·, Stage.live) ++ s.others)) :=
  held_live_perm (takeRow_ok h).1

theorem row_of_take {row : Nat} {reqs rest : List Req} {r : Req}
    (h : takeRow row reqs = some (r, rest)) : r.row = row := by
  rw [Req.row, (takeRow_ok h).2, Option.getD_some]

theorem map_row_congr {H H' : List Held}
    (h : List.Forall₂ (fun x y => x.1.row = y.1.row) H H') :
    H.map (fun h => h.1.row) = H'.map fun h => h.1.row := by
  induction h with
  | nil => rfl
  | cons hx _ ih => rw [List.map_cons, List.map_cons, hx, ih]

/-- One live request is replaced by another of the same row. -/
theorem Ok.replace (L : Laws env cfg Safe I) {s : Sys} (h : Ok cfg I s) {row : Nat} {r r' : Req}
    {rest : List Req} (ht : takeRow row s.live = some (r, rest)) {cm : CacheManager}
    (hrow : r'.tableIdx = r.tableIdx) (hshape : Shape (r', .live))
    (hinv : I cm ((r', .live) :: (rest.map (·, Stage.live) ++ s.others))) :
    Ok cfg I { s with cm := cm, live := r' :: rest } := by
  have hp := held_take ht
  refine h.of_perm L (H := (r', .live) :: (rest.map (·, Stage.live) ++ s.others))
    (held_live_perm (s := { s with cm := cm, live := r' :: rest }) (List.Perm.refl _)).symm hinv ?_ ?_
  · intro x hx
    rcases List.mem_cons.1 hx with rfl | hx
    · exact hshape
    · exact h.shape x (hp.mem_iff.2 (List.mem_cons_of_mem _ hx))
  · refine List.Perm.append_right _ (List.Perm.trans ?_ (hp.map _).symm)
    rw [List.map_cons, List.map_cons, Req.row, hrow]
    exact List.Perm.refl _

theorem Ok.step_tryAdd (L : Laws env cfg Safe I) {s s' : Sys} (h : Ok cfg I s) {b : Budgets}
    {p : PendingReq} (he : s.exec env (.tryAdd b p) = some s') : Ok cfg I s' := by
  have hnodup := h.rows.nodup_iff.2 List.nodup_range
  have hfree : ∀ x ∈ s.held, x.1.row ∉ (s.adder b).tm.freeSlots := fun x hx hmem =>
    (List.nodup_append.1 hnodup).2.2 _ (List.mem_map_of_mem hx) _ hmem rfl
  unfold exec at he
  dsimp only at he
  split at he
  · cases he
  · rename_i a hadd
    cases he
    have htry := PrefillAdder.tryAddOne_fresh hadd
    refine ⟨L.tried htry hfree h.inv, h.shape, ?_⟩
    show (s.held.map _ ++ a.tm.freeSlots).Perm _
    rw [htry.tm_none]
    exact h.rows
  · rename_i a r hadd
    cases he
    have htry := PrefillAdder.tryAddOne_fresh hadd
    obtain ⟨row, hrow, htm⟩ := htry.tm_some
    obtain ⟨res, cachedLen, idx, evicted, hbuilt⟩ := htry.built
    have hgetrow : r.row = row := by rw [Req.row, hrow, Option.getD_some]
    have htaken : s.tm.freeSlots = a.tm.freeSlots ++ [row] := htm.symm
    refine h.of_perm L (H := (r, .fresh) :: s.held) ?_ (L.admitted htry hfree h.inv) ?_ ?_
    · show ((r, Stage.fresh) :: s.held).Perm
        ((s.fresh ++ [r]).map (·, Stage.fresh) ++ s.heldPrepared ++ s.live.map (·, Stage.live))
      rw [List.map_append, held, List.append_assoc, List.append_assoc, List.append_assoc]
      exact List.perm_middle.symm
    · intro x hx
      rcases List.mem_cons.1 hx with rfl | hx
      · exact Shape.of_built hbuilt
      · exact h.shape x hx
    · show (r.row :: s.held.map (fun h => h.1.row) ++ a.tm.freeSlots).Perm _
      rw [hgetrow, htaken, ← List.append_assoc]
      exact (List.perm_append_singleton _ _).symm

theorem Ok.step_nextChunk (L : Laws env cfg Safe I) {s s' : Sys} (h : Ok cfg I s) {b : Budgets}
    {row : Nat} {p : PendingReq} (he : s.exec env (.nextChunk b row p) = some s') :
    Ok cfg I s' := by
  unfold exec at he
  dsimp only at he
  split at he
  · cases he
  rename_i c rest ht
  split at he
  swap
  · cases he
  rename_i hchunk
  split at he
  · cases he
  · rename_i a hadd
    cases he
    obtain ⟨hcm, htm, -⟩ := PrefillAdder.tryAddOne_chunk hadd
    rw [hcm, htm]
    exact h
  · rename_i a r hadd
    cases he
    obtain ⟨hcm, htm, hb⟩ := PrefillAdder.tryAddOne_chunk hadd
    have hbuilt := hb r rfl
    have hp := held_take ht
    have hc : Shape (c, .live) := h.shape _ (hp.mem_iff.2 List.mem_cons_self)
    have hinv := L.nextChunk hchunk hc hbuilt (L.perm hp h.inv)
    have hrow : r.row = c.row := by
      obtain ⟨⟨n, rfl⟩, -, -⟩ := hbuilt
      rfl
    refine h.of_perm L (H := (r, .fresh) :: (rest.map (·, Stage.live) ++ s.others)) ?_
      (by rw [hcm]; exact hinv) ?_ ?_
    · show ((r, Stage.fresh) :: (rest.map (·, Stage.live) ++ s.others)).Perm
        ((s.fresh ++ [r]).map (·, Stage.fresh) ++ s.heldPrepared ++ rest.map (·, Stage.live))
      rw [List.map_append, List.append_assoc, List.append_assoc]
      refine List.Perm.trans (List.Perm.cons _ ?_) List.perm_middle.symm
      show (rest.map (·, Stage.live) ++ s.others).Perm
        (s.fresh.map (·, Stage.fresh) ++ (s.heldPrepared ++ rest.map (·, Stage.live)))
      rw [← List.append_assoc]
      exact List.perm_append_comm
    · intro x hx
      rcases List.mem_cons.1 hx with rfl | hx
      · exact Shape.of_built hbuilt
      · exact h.shape x (hp.mem_iff.2 (List.mem_cons_of_mem _ hx))
    · show (r.row :: (_ : List Held).map (fun h => h.1.row) ++ a.tm.freeSlots).Perm _
      rw [hrow, htm]
      exact ((hp.map (fun h => h.1.row)).symm).append_right _

/-- A batch is prepared or launched: the requests of `H` become those of `H'`. -/
theorem Ok.batch (L : Laws env cfg Safe I) {s s' : Sys} {H G R : List Held} (h : Ok cfg I s)
    (hold : s.held.Perm (H ++ R)) (hnew : s'.held.Perm (G ++ R)) (htm : s'.tm = s.tm)
    (hstep : I s.cm (H ++ R) → I s'.cm (G ++ R))
    (hshape : List.Forall₂ (fun x y => (Shape x → Shape y) ∧ x.1.row = y.1.row) H G) :
    Ok cfg I s' := by
  have hrows : List.Forall₂ (fun x y => x.1.row = y.1.row) H G := by
    refine hshape.imp ?_
    intro x y hxy
    exact hxy.2
  refine h.of_perm L hnew.symm (hstep (L.perm hold h.inv)) ?_ ?_
  · intro y hy
    rcases List.mem_append.1 hy with hy | hy
    · obtain ⟨x, hx, hxy⟩ := forall_mem_right hshape hy
      exact hxy.1 (h.shape x (hold.mem_iff.2 (List.mem_append_left _ hx)))
    · exact h.shape y (hold.mem_iff.2 (List.mem_append_right _ hy))
  · rw [List.map_append, ← map_row_congr hrows, ← List.map_append, htm]
    exact ((hold.map _).symm).append_right _

theorem Ok.step_preparePrefill (L : Laws env cfg Safe I) {s s' : Sys} (h : Ok cfg I s) {it : Nat}
    (he : s.exec env (.preparePrefill it) = some s') : Ok cfg I s' := by
  unfold exec at he
  dsimp only at he
  split at he
  · cases he
  rename_i hnone
  have hprep : s.prepared = none := by simpa using hnone
  split at he
  · cases he
  rename_i cm batch hbatch
  cases he
  have hfresh : ∀ r ∈ s.fresh, Shape (r, .fresh) := fun r hr =>
    h.shape _ (List.mem_append_left _ (List.mem_append_left _ (List.mem_map_of_mem hr)))
  have hheld : s.held = s.fresh.map (·, .fresh) ++ s.live.map (·, .live) := by
    rw [held, heldPrepared, hprep]
    dsimp only
    rw [List.append_nil]
  refine h.batch L (H := s.fresh.map (·, .fresh)) (G := launched .prefill batch)
    (R := s.live.map (·, .live)) (hheld ▸ List.Perm.refl _) (List.Perm.refl _) rfl
    (L.preparePrefill hfresh hbatch) ?_
  rw [launched, List.forall₂_map_left_iff, List.forall₂_map_right_iff]
  refine (prepareBatch_marked hbatch).imp ?_
  intro r x hm
  refine ⟨fun hs => hs.prefill hm x.2, ?_⟩
  obtain ⟨e, d, a, l, i, hx⟩ := hm
  rw [hx]
  rfl

theorem Ok.step_prepareDecode (L : Laws env cfg Safe I) {s s' : Sys} (h : Ok cfg I s)
    {rows : List Nat} {it : Nat} (he : s.exec env (.prepareDecode rows it) = some s') :
    Ok cfg I s' := by
  unfold exec at he
  dsimp only at he
  split at he
  · cases he
  rename_i hnone
  have hprep : s.prepared = none := by simpa using hnone
  split at he
  · cases he
  rename_i reqs rest ht
  split at he
  swap
  · cases he
  rename_i hcan
  split at he
  · cases he
  rename_i cm batch hbatch
  cases he
  have hheld : s.held.Perm (reqs.map (·, .live) ++
      (s.fresh.map (·, .fresh) ++ rest.map (·, .live))) := by
    rw [held, heldPrepared, hprep]
    dsimp only
    rw [List.append_nil]
    refine (((takeRows_ok ht).map _).append_left _).trans ?_
    rw [List.map_append]
    exact List.perm_append_comm_assoc _ _ _
  have hlive : ∀ r ∈ reqs, Shape (r, .live) ∧ r.canDecode = true := fun r hr =>
    ⟨h.shape _ (hheld.mem_iff.2 (List.mem_append_left _ (List.mem_map_of_mem hr))),
      List.all_eq_true.1 hcan r hr⟩
  refine h.batch L (H := reqs.map (·, .live)) (G := launched .decode batch)
    (R := s.fresh.map (·, .fresh) ++ rest.map (·, .live)) hheld ?_ rfl
    (L.prepareDecode hlive hbatch) ?_
  · show (s.fresh.map (·, Stage.fresh) ++ launched .decode batch ++ rest.map (·, Stage.live)).Perm _
    rw [List.append_assoc]
    exact List.perm_append_comm_assoc _ _ _
  · rw [launched, List.forall₂_map_left_iff, List.forall₂_map_right_iff]
    refine (forall_left_mem (prepareBatch_marked hbatch)).imp ?_
    intro r x hm
    refine ⟨fun hs => hs.decode (hlive r hm.2).2 hm.1 x.2, ?_⟩
    obtain ⟨e, d, a, l, i, hx⟩ := hm.1
    rw [hx]
    rfl

theorem Ok.step_forward (L : Laws env cfg Safe I) {s s' : Sys} (h : Ok cfg I s)
    (he : s.exec env .forward = some s') : Ok cfg I s' := by
  unfold exec at he
  dsimp only at he
  split at he
  · cases he
  rename_i phase batch hprep
  have hfw : forwardBatch env s.cm phase batch =
      ((forwardBatch env s.cm phase batch).1, (forwardBatch env s.cm phase batch).2) := rfl
  cases he
  have hheld : s.held = s.fresh.map (·, .fresh) ++ launched phase batch ++
      s.live.map (·, .live) := by
    rw [held, heldPrepared, hprep]
    rfl
  have hold : s.held.Perm (launched phase batch ++
      (s.fresh.map (·, .fresh) ++ s.live.map (·, .live))) := by
    rw [hheld, List.append_assoc]
    exact List.perm_append_comm_assoc _ _ _
  refine h.batch L (H := launched phase batch) (R := s.fresh.map (·, .fresh) ++
    s.live.map (·, .live)) (G := (forwardBatch env s.cm phase batch).2.map (fun x => (x.1, .live)))
    hold ?_ rfl (L.forward ?_ hfw) ?_
  · show (s.fresh.map (·, Stage.fresh) ++ [] ++
      ((forwardBatch env s.cm phase batch).2.map Prod.fst ++ s.live).map (·, Stage.live)).Perm _
    rw [List.append_nil, List.map_append, List.map_map]
    exact List.perm_append_comm_assoc _ _ _
  · intro x hx
    exact h.shape x (hold.mem_iff.2 (List.mem_append_left _ hx))
  · rw [launched, List.forall₂_map_left_iff, List.forall₂_map_right_iff]
    refine (forwardBatch_launched hfw).imp ?_
    intro x y hl
    refine ⟨fun hs => hs.launched hl, ?_⟩
    obtain ⟨src, l, i, hy⟩ := hl
    rw [hy]
    rfl

theorem Ok.step_append (L : Laws env cfg Safe I) {s s' : Sys} (h : Ok cfg I s) {row : Nat}
    {token : Token} (he : s.exec env (.append row token) = some s') : Ok cfg I s' := by
  unfold exec at he
  dsimp only at he
  split at he
  · cases he
  rename_i r rest ht
  split at he
  swap
  · cases he
  rename_i htok
  split at he
  · cases he
  rename_i r' happ
  cases he
  have hp := held_take ht
  have hr : Shape (r, .live) := h.shape _ (hp.mem_iff.2 List.mem_cons_self)
  obtain ⟨hchunk, rfl⟩ := appendHost_ok happ
  have hsame : SameOnHost r { r with inputIds := r.inputIds ++ [token] } :=
    ⟨rfl, rfl, rfl, rfl, rfl, rfl, rfl, rfl, rfl, rfl, List.prefix_append _ _⟩
  have hids : r.inputIds ++ [token] <+: r.deviceIds := by
    obtain ⟨w, hw⟩ := hr.host
    change r.inputIds ++ w = r.deviceIds at hw
    rw [← hw, List.getElem?_append_right le_rfl, Nat.sub_self] at htok
    cases w with
    | nil => cases htok
    | cons x w =>
        cases htok
        exact ⟨w, by rw [← hw, List.append_assoc]; rfl⟩
  have hshape := hr.host_same hsame hids fun hc => by rw [hchunk] at hc; cases hc
  exact h.replace L ht rfl hshape (L.host hsame hshape (L.perm hp h.inv))

theorem Ok.step_setAnchor (L : Laws env cfg Safe I) {s s' : Sys} (h : Ok cfg I s) {row : Nat}
    (he : s.exec env (.setAnchor row) = some s') : Ok cfg I s' := by
  unfold exec at he
  dsimp only at he
  split at he
  · cases he
  rename_i r rest ht
  split at he
  · cases he
  cases he
  have hp := held_take ht
  have hr : Shape (r, .live) := h.shape _ (hp.mem_iff.2 List.mem_cons_self)
  have hsame : SameOnHost r { r with toolcallAnchorLen := some r.inputIds.length } :=
    ⟨rfl, rfl, rfl, rfl, rfl, rfl, rfl, rfl, rfl, rfl, List.prefix_rfl⟩
  have hshape := hr.host_same hsame hr.host fun _ => rfl
  exact h.replace L ht rfl hshape (L.host hsame hshape (L.perm hp h.inv))

theorem Ok.step_commit (L : Laws env cfg Safe I) {s s' : Sys} (h : Ok cfg I s) {row : Nat}
    (hok : Commits Safe s (.commit row)) (he : s.exec env (.commit row) = some s') :
    Ok cfg I s' := by
  unfold exec at he
  dsimp only at he
  split at he
  · cases he
  rename_i r rest ht
  split at he
  swap
  · cases he
  rename_i hdone
  split at he
  · cases he
  rename_i cm f hcache
  cases he
  have hp := held_take ht
  have hr : Shape (r, .live) := h.shape _ (hp.mem_iff.2 List.mem_cons_self)
  have hshape : Shape ({ r with toCacheFields := f }, .live) :=
    ⟨hr.seated, hr.host, hr.prompt, hr.mm, by simp, by simp, by simp, hr.live⟩
  exact h.replace L ht rfl hshape
    (L.commit hr hdone.1 hdone.2 (hok row r rest rfl ht) hcache (L.perm hp h.inv))

theorem Ok.step_finish (L : Laws env cfg Safe I) {s s' : Sys} (h : Ok cfg I s) {row : Nat}
    (he : s.exec env (.finish row) = some s') : Ok cfg I s' := by
  unfold exec at he
  dsimp only at he
  split at he
  · cases he
  rename_i r rest ht
  split at he
  swap
  · cases he
  rename_i hdone
  split at he
  · cases he
  rename_i cm f hcache
  cases he
  have hp := held_take ht
  have hr : Shape (r, .live) := h.shape _ (hp.mem_iff.2 List.mem_cons_self)
  refine h.of_perm L (H := rest.map (·, Stage.live) ++ s.others)
    (held_live_perm (s := { s with cm := cm, tm := s.tm.free row, live := rest })
      (List.Perm.refl _)).symm (L.finish hr hdone hcache (L.perm hp h.inv)) ?_ ?_
  · intro x hx
    exact h.shape x (hp.mem_iff.2 (List.mem_cons_of_mem _ hx))
  · refine List.Perm.trans ?_ ((hp.map (fun h => h.1.row)).symm.append_right _)
    show (_ ++ (s.tm.freeSlots ++ [row])).Perm (r.row :: _ ++ s.tm.freeSlots)
    rw [row_of_take ht, ← List.append_assoc]
    exact List.perm_append_singleton _ _

/-- Every step of the scheduler keeps the invariant of a run. -/
theorem Ok.step (L : Laws env cfg Safe I) {s s' : Sys} {act : Action} (h : Ok cfg I s)
    (hok : Commits Safe s act) (he : s.exec env act = some s') : Ok cfg I s' := by
  cases act with
  | tryAdd b p => exact h.step_tryAdd L he
  | nextChunk b row p => exact h.step_nextChunk L he
  | preparePrefill it => exact h.step_preparePrefill L he
  | prepareDecode rows it => exact h.step_prepareDecode L he
  | forward => exact h.step_forward L he
  | append row token => exact h.step_append L he
  | setAnchor row => exact h.step_setAnchor L he
  | commit row => exact h.step_commit L hok he
  | finish row => exact h.step_finish L he
  | enterLazy =>
      unfold exec at he
      dsimp only at he
      split at he
      · cases he
      rename_i hlazy
      cases he
      exact h.of_cm (L.enterLazy (by simpa using hlazy) h.inv)
  | exitLazy =>
      cases he
      exact h.of_cm (L.exitLazy h.inv)
  | ensureSwa n =>
      unfold exec at he
      dsimp only at he
      split at he
      · rename_i hswa
        cases he
        exact h.of_cm (L.ensureSwa hswa h.inv)
      · cases he
  | ensureMamba n =>
      unfold exec at he
      dsimp only at he
      split at he
      · rename_i hhyb
        cases he
        exact h.of_cm (L.ensureMamba hhyb h.inv)
      · cases he

/-- The laws of a cache carry its invariant through every run whose commits are safe. -/
theorem Run.ok (L : Laws env cfg Safe I) {s : Sys} (h : Run env cfg (Commits Safe) s) :
    Ok cfg I s := by
  induction h with
  | init =>
      refine ⟨L.init, by simp [held, heldPrepared, Sys.init], ?_⟩
      simp [held, heldPrepared, Sys.init, TableManager.init]
  | step _ hok he ih => exact ih.step L hok he

theorem Run.imp {ok ok' : Sys → Action → Prop} (himp : ∀ s act, ok s act → ok' s act) {s : Sys}
    (h : Run env cfg ok s) : Run env cfg ok' s := by
  induction h with
  | init => exact .init
  | step _ hok he ih => exact ih.step (himp _ _ hok) he

/-- A list of calls that goes through reaches its state. -/
theorem Reachable.of_execs (env : Env) (cfg : Config) (acts : List Action) {P : Sys → Bool}
    (h : ((Sys.init cfg).execs env acts).any P = true) :
    ∃ s, Reachable env cfg s ∧ P s = true := by
  obtain ⟨s, hs, hp⟩ := (Option.any_eq_true _ _).1 h
  exact ⟨s, Run.execs .init (fun _ _ _ => trivial) hs, hp⟩

/-- Where no commit needs a permission, every reachable state is in order. -/
theorem Reachable.ok (L : Laws env cfg (fun _ _ => True) I) {s : Sys} (h : Reachable env cfg s) :
    Ok cfg I s :=
  Run.ok L (Run.imp (fun _ _ _ _ _ _ _ _ => trivial) h)

theorem held_eq_nil {s : Sys} (h : s.running = []) : s.held = [] := by
  obtain ⟨hfresh, hprep, hlive⟩ : s.fresh = [] ∧ s.preparedReqs = [] ∧ s.live = [] := by
    simpa [running] using h
  have hp : s.heldPrepared = [] := by
    unfold preparedReqs at hprep
    unfold heldPrepared
    cases hprepared : s.prepared with
    | none => rfl
    | some p =>
        rw [hprepared] at hprep
        have hbatch : p.2 = [] := List.map_eq_nil_iff.1 hprep
        simp only [hbatch, List.map_nil]
  rw [held, hfresh, hp, hlive]
  rfl

end Sys

end FreeToken
