import Mathlib.Data.List.Basic
import FreeToken.Lib.Machine

/-!
# Checkpoint conversions

`CheckpointManager` as the sections its lock makes atomic, each run by a caller of `start` or
`cancel`, by the monitor of a child, or by a thread that signals one.
-/

set_option autoImplicit false

namespace FreeToken

open Machine

inductive JobState
  | running
  | done
  | failed
  | cancelled
  deriving DecidableEq, Repr

/-- `Job`; `pid` is none for the source's `-1`, and `serial` says which `start` reserved it. -/
structure Job where
  id : String
  serial : Nat
  pid : Option Nat := none
  state : JobState := .running
  exitCode : Option Int := none
  deriving DecidableEq, Repr

/-- How far a `start` came that reserved the slot. -/
inductive StartStage
  | spawning
  | raised
  | spawned
  | attached (cancelled : Bool)
  | lost
  | watched
  deriving DecidableEq, Repr

/-- A `start` that reserved the slot, its child and the threads of the child: whether the child has
exited, `reaped` is set, the monitor has written the job, a thread is to signal the child or has done
it, and whether a `cancel` of the job returned true. -/
structure Conversion where
  jobId : String
  stage : StartStage := .spawning
  exit : Option Int := none
  reaped : Bool := false
  written : Bool := false
  terminating : Bool := false
  signalled : Bool := false
  cancelled : Bool := false
  deriving DecidableEq, Repr

/-- There is a child. -/
def Conversion.hasChild (c : Conversion) : Bool := c.stage ≠ .spawning && c.stage ≠ .raised

/-- The child runs and has not been reaped. -/
def Conversion.live (c : Conversion) : Bool := c.hasChild && c.exit.isNone && !c.reaped

/-- `start` has not written the manager's fields yet. -/
def Conversion.starting (c : Conversion) : Bool := c.stage = .spawning || c.stage = .spawned

/-- `start` has returned or raised, and no thread is left that is to signal the child. -/
def Conversion.quiet (c : Conversion) : Bool :=
  (c.stage = .raised || c.stage = .lost || c.stage = .watched) && !c.terminating

/-- What holds of a conversion by itself. -/
structure Conversion.Consistent (c : Conversion) : Prop where
  reaped : c.reaped = true → c.exit.isSome = true ∧ c.stage = .watched
  written : c.written = true → c.reaped = true
  cancelled : c.cancelled = true → c.signalled = true ∨ c.terminating = true ∨
    c.starting = true ∨ c.stage = .raised ∨ c.stage = .attached true
  found : c.stage ≠ .lost

theorem Conversion.Consistent.not_reaped {c : Conversion} (h : c.Consistent)
    (hstage : c.stage ≠ .watched) : c.reaped = false := by
  by_contra hreaped
  exact hstage (h.reaped (by simpa using hreaped)).2

theorem Conversion.Consistent.not_written {c : Conversion} (h : c.Consistent)
    (hreaped : c.reaped = false) : c.written = false := by
  by_contra hwritten
  have hr := h.written (by simpa using hwritten)
  rw [hreaped] at hr
  cases hr

/-- The manager, with every conversion it reserved; a child's pid is its place in the list. -/
structure CheckpointManager where
  job : Option Job := none
  child : Option Nat := none
  conversions : List Conversion := []
  deriving DecidableEq, Repr

namespace CheckpointManager

def update (s : CheckpointManager) (n : Nat) (f : Conversion → Conversion) : CheckpointManager :=
  { s with conversions := s.conversions.modify n f }

/-- What the first section of `start` says. -/
inductive Admission
  | idempotent (pid : Option Nat)
  | conflict (message : String)
  | reserved
  deriving DecidableEq, Repr

/-- The previous child still runs. -/
def terminatingChild (s : CheckpointManager) : Bool :=
  match s.child with
  | none => false
  | some n =>
      match s.conversions[n]? with
      | none => false
      | some c => !c.reaped

/-- The decision of the first section of `start`. -/
def admission (s : CheckpointManager) (jobId : String) : Admission :=
  let conflict := if s.terminatingChild then .conflict "previous checkpoint is still terminating"
    else .reserved
  match s.job with
  | none => conflict
  | some job =>
      if job.state = .running then
        if job.id = jobId then .idempotent job.pid
        else .conflict "checkpoint already running"
      else conflict

/-- The first section of `start`. -/
def start (s : CheckpointManager) (jobId : String) : CheckpointManager :=
  match s.admission jobId with
  | .reserved =>
      { job := some { id := jobId, serial := s.conversions.length }
        child := none
        conversions := s.conversions ++ [{ jobId := jobId }] }
  | _ => s

/-- The handler of an exception of the spawn. -/
def spawnRaised (s : CheckpointManager) (n : Nat) (jobId : String) : CheckpointManager :=
  let s := s.update n fun c => { c with stage := .raised }
  match s.job with
  | some job => if job.id = jobId then { s with job := none } else s
  | none => s

/-- The second section of `start`; without a job the assignment to its `pid` raises. -/
def attach (s : CheckpointManager) (n : Nat) : CheckpointManager :=
  match s.job with
  | none => { s.update n fun c => { c with stage := .lost } with child := some n }
  | some job =>
      { s.update n fun c => { c with stage := .attached (job.state = .cancelled) } with
        child := some n
        job := some { job with pid := some n } }

/-- What `start` does after its second section: the thread that signals, and the monitor. -/
def watch (c : Conversion) (cancelled : Bool) : Conversion :=
  { c with stage := .watched, terminating := c.terminating || cancelled }

/-- The section of the monitor. -/
def monitorWrite (s : CheckpointManager) (n : Nat) (jobId : String) (code : Int) :
    CheckpointManager :=
  let s := s.update n fun c => { c with written := true }
  match s.job with
  | none => s
  | some job =>
      if job.id = jobId then
        { s with job := some { job with
            state := if job.state ≠ .cancelled then if code = 0 then .done else .failed
              else job.state
            exitCode := some code } }
      else s

/-- The section of `cancel`, with what it returns. -/
def cancel (s : CheckpointManager) (jobId : String) : Bool × CheckpointManager :=
  match s.job with
  | none => (false, s)
  | some job =>
      if job.id = jobId ∧ job.state = .running then
        let s := { s.update job.serial fun c => { c with cancelled := true } with
          job := some { job with state := .cancelled } }
        match s.child, job.pid with
        | some n, some _ => (true, s.update n fun c => { c with terminating := true })
        | _, _ => (true, s)
      else (false, s)

/-- A section that some thread runs next, with what the outside decides. -/
inductive Action
  | start (jobId : String)
  | spawns (n : Nat)
  | spawnRaises (n : Nat)
  | attaches (n : Nat)
  | watches (n : Nat)
  | exits (n : Nat) (code : Int)
  | reaps (n : Nat)
  | writes (n : Nat)
  | cancel (jobId : String)
  | signals (n : Nat)

/-- One section; none where it cannot run. -/
def step (s : CheckpointManager) : Action → Option CheckpointManager
  | .start jobId => some (s.start jobId)
  | .spawns n => s.conversions[n]?.bind fun c =>
      if c.stage = .spawning then some (s.update n fun c => { c with stage := .spawned }) else none
  | .spawnRaises n => s.conversions[n]?.bind fun c =>
      if c.stage = .spawning then some (s.spawnRaised n c.jobId) else none
  | .attaches n => s.conversions[n]?.bind fun c =>
      if c.stage = .spawned then some (s.attach n) else none
  | .watches n => s.conversions[n]?.bind fun c =>
      match c.stage with
      | .attached cancelled => some (s.update n fun c => watch c cancelled)
      | _ => none
  | .exits n code => s.conversions[n]?.bind fun c =>
      if c.hasChild ∧ c.exit = none then
        some (s.update n fun c => { c with exit := some code })
      else none
  | .reaps n => s.conversions[n]?.bind fun c =>
      if c.stage = .watched ∧ c.exit.isSome ∧ c.reaped = false then
        some (s.update n fun c => { c with reaped := true })
      else none
  | .writes n => s.conversions[n]?.bind fun c =>
      match c.exit with
      | some code =>
          if c.reaped ∧ c.written = false then some (s.monitorWrite n c.jobId code) else none
      | none => none
  | .cancel jobId => some (s.cancel jobId).2
  | .signals n => s.conversions[n]?.bind fun c =>
      if c.terminating then
        some (s.update n fun c => { c with terminating := false, signalled := true })
      else none

/-! ## What a run keeps -/

/-- No `start` reserves the slot while another one has not come back from its spawn, nor under the id
of a child that was reaped while its monitor has not written the job. -/
def Orderly (s : CheckpointManager) : Action → Prop
  | .start jobId => s.admission jobId = .reserved → ∀ c ∈ s.conversions,
      c.starting = false ∧ (c.reaped = true → c.written = false → c.jobId ≠ jobId)
  | _ => True

instance (s : CheckpointManager) (a : Action) : Decidable (s.Orderly a) := by
  cases a <;> unfold Orderly <;> infer_instance

/-- What the job says of its own child. -/
structure Describes (s : CheckpointManager) (job : Job) (c : Conversion) : Prop where
  id : c.jobId = job.id
  pid : job.pid = if c.starting then none else some job.serial
  child : s.child = job.pid
  cancelled : c.cancelled = true ↔ job.state = .cancelled
  written : c.written = true → job.exitCode = c.exit ∧
    (job.state ≠ .cancelled → job.state = if c.exit = some 0 then .done else .failed)
  unwritten : c.written = false → job.exitCode = none ∧
    (job.state ≠ .cancelled → job.state = .running)

/-- One conversion at a time: at most one child is live, a cancelled job's child is signalled, and
the job and the child are those of one `start`. -/
structure OneAtATime (s : CheckpointManager) : Prop where
  single : ∀ {m n : Nat} {c d : Conversion}, s.conversions[m]? = some c → s.conversions[n]? = some d →
    c.live = true → d.live = true → m = n
  signalled : ∀ c ∈ s.conversions, c.cancelled = true → c.hasChild = true → c.quiet = true →
    c.signalled = true
  job : ∀ job, s.job = some job → ∃ c, s.conversions[job.serial]? = some c ∧ Describes s job c
  child : s.job = none → s.child = none

structure Inv (s : CheckpointManager) : Prop where
  job : ∀ job, s.job = some job → ∃ c, s.conversions[job.serial]? = some c ∧
    c.stage ≠ .raised ∧ Describes s job c
  child : s.job = none → s.child = none
  current : ∀ {n : Nat} {c : Conversion}, s.conversions[n]? = some c → c.stage ≠ .raised → c.reaped = false →
    ∃ job, s.job = some job ∧ job.serial = n
  late : ∀ {n : Nat} {c : Conversion} {job : Job}, s.conversions[n]? = some c → c.reaped = true → c.written = false →
    s.job = some job → job.id = c.jobId → job.serial = n
  each : ∀ {n : Nat} {c : Conversion}, s.conversions[n]? = some c → c.Consistent

section Steps

variable {s s' : CheckpointManager} {n : Nat} {c c' : Conversion} {f : Conversion → Conversion}

theorem update_get (s : CheckpointManager) (n m : Nat) (f : Conversion → Conversion) :
    (s.update n f).conversions[m]? =
      if n = m then (s.conversions[m]?).map f else s.conversions[m]? := by
  unfold update
  rw [List.getElem?_modify]
  split <;> simp

theorem update_self (hc : s.conversions[n]? = some c) :
    (s.update n f).conversions[n]? = some (f c) := by
  rw [update_get, if_pos rfl, hc]
  rfl

/-- A conversion after an update of one of them. -/
theorem update_cases {m : Nat} (hc : s.conversions[n]? = some c)
    (h : (s.update n f).conversions[m]? = some c') :
    (m = n ∧ c' = f c) ∨ (m ≠ n ∧ s.conversions[m]? = some c') := by
  rw [update_get] at h
  split at h
  · rename_i heq
    subst heq
    rw [hc] at h
    exact .inl ⟨rfl, (Option.some.inj h).symm⟩
  · rename_i hne
    exact .inr ⟨Ne.symm hne, h⟩

/-- What the manager shows does not depend on the change of a conversion. -/
structure Same (c c' : Conversion) : Prop where
  jobId : c'.jobId = c.jobId
  starting : c'.starting = c.starting
  raised : c'.stage = .raised ↔ c.stage = .raised
  cancelled : c'.cancelled = c.cancelled
  written : c'.written = c.written
  exit : c.written = true → c'.exit = c.exit
  reaped : c'.reaped = false → c.reaped = false

theorem Describes.keep {job : Job} (h : Describes s job c) (hkeep : Same c c')
    (hchild : s'.child = s.child) : Describes s' job c' where
  id := hkeep.jobId.trans h.id
  pid := by
    rw [hkeep.starting]
    exact h.pid
  child := hchild.trans h.child
  cancelled := by
    rw [hkeep.cancelled]
    exact h.cancelled
  written := by
    intro hw
    rw [hkeep.written] at hw
    rw [hkeep.exit hw]
    exact h.written hw
  unwritten := by
    intro hw
    rw [hkeep.written] at hw
    exact h.unwritten hw

/-- A section that changes one conversion and nothing that the manager shows. -/
theorem Inv.update (h : Inv s) (hc : s.conversions[n]? = some c) (hkeep : Same c (f c))
    (heach : (f c).Consistent) : Inv (s.update n f) where
  job := by
    intro job hjob
    obtain ⟨d, hd, hraised, hdesc⟩ := h.job job hjob
    by_cases hn : job.serial = n
    · rw [hn, hc] at hd
      cases hd
      rw [hn]
      exact ⟨f c, update_self hc, fun hr => hraised (hkeep.raised.1 hr), hdesc.keep hkeep rfl⟩
    · refine ⟨d, ?_, hraised, ⟨hdesc.1, hdesc.2, hdesc.3, hdesc.4, hdesc.5, hdesc.6⟩⟩
      rw [update_get, if_neg (Ne.symm hn)]
      exact hd
  child := h.child
  current := by
    intro m d hd hraised hreaped
    rcases update_cases hc hd with ⟨rfl, rfl⟩ | ⟨-, hd⟩
    · refine h.current hc (fun hr => ?_) (hkeep.reaped hreaped)
      exact hraised (hkeep.raised.2 hr)
    · exact h.current hd hraised hreaped
  late := by
    intro m d job hd hreaped hwritten hjob hid
    rcases update_cases hc hd with ⟨rfl, rfl⟩ | ⟨-, hd⟩
    · by_cases hr : c.reaped = true
      · exact h.late hc hr (hkeep.written ▸ hwritten) hjob (hid.trans hkeep.jobId)
      · -- it is only just reaped, so the job is its own
        have hstage := (heach.reaped hreaped).2
        obtain ⟨job', hjob', hserial⟩ := h.current hc (fun hraised => by
          rw [hkeep.raised.2 hraised] at hstage
          cases hstage) (by simpa using hr)
        have hsame : s.job = some job := hjob
        rw [hsame] at hjob'
        cases hjob'
        exact hserial
    · exact h.late hd hreaped hwritten hjob hid
  each := by
    intro m d hd
    rcases update_cases hc hd with ⟨rfl, rfl⟩ | ⟨-, hd⟩
    · exact heach
    · exact h.each hd

theorem Inv.start (h : Inv s) {jobId : String} (hord : s.Orderly (.start jobId)) :
    Inv (s.start jobId) := by
  have hord' : s.admission jobId = .reserved → ∀ c ∈ s.conversions, c.starting = false ∧
    (c.reaped = true → c.written = false → c.jobId ≠ jobId) := hord
  unfold CheckpointManager.start
  split
  · rename_i hreserved
    have hold := hord' hreserved
    -- every conversion so far has been reaped, or has no child
    have hreaped : ∀ {n : Nat} {c : Conversion}, s.conversions[n]? = some c → c.stage ≠ .raised →
        c.reaped = true := by
      intro n c hc hraised
      by_contra hnot
      rw [Bool.not_eq_true] at hnot
      obtain ⟨job, hjob, rfl⟩ := h.current hc hraised hnot
      obtain ⟨d, hd, -, hdesc⟩ := h.job job hjob
      rw [hc] at hd
      cases hd
      have hpid := hdesc.pid
      rw [(hold c (List.mem_of_getElem? hc)).1, if_neg Bool.false_ne_true] at hpid
      have hterm : s.terminatingChild = true := by
        unfold terminatingChild
        rw [hdesc.child, hpid]
        dsimp only
        rw [hc]
        simp [hnot]
      unfold admission at hreserved
      rw [hjob] at hreserved
      dsimp only at hreserved
      rw [if_pos hterm] at hreserved
      split at hreserved
      · split at hreserved <;> cases hreserved
      · cases hreserved
    have hget : ∀ {m : Nat} {c : Conversion}, (s.conversions ++ [{ jobId := jobId }])[m]? = some c →
        s.conversions[m]? = some c ∨ (m = s.conversions.length ∧ c = { jobId := jobId }) := by
      intro m c hc
      rcases Nat.lt_or_ge m s.conversions.length with hlt | hge
      · rw [List.getElem?_append_left hlt] at hc
        exact .inl hc
      · rw [List.getElem?_append_right hge] at hc
        obtain ⟨hlt, hget⟩ := List.getElem?_eq_some_iff.1 hc
        simp only [List.length_singleton] at hlt
        have hm : m = s.conversions.length := by omega
        subst hm
        simp only [Nat.sub_self, List.getElem_cons_zero] at hget
        exact .inr ⟨rfl, hget.symm⟩
    refine ⟨?_, fun hnone => (by cases hnone), ?_, ?_, ?_⟩
    · intro job hjob
      cases hjob
      refine ⟨{ jobId := jobId }, by simp, by simp, ?_⟩
      exact ⟨rfl, rfl, rfl, by simp, by simp, by simp⟩
    · intro m c hc hraised hnot
      rcases hget hc with hc | ⟨rfl, rfl⟩
      · rw [hreaped hc hraised] at hnot
        cases hnot
      · exact ⟨_, rfl, rfl⟩
    · intro m c job hc hr hw hjob hid
      cases hjob
      rcases hget hc with hc | ⟨rfl, rfl⟩
      · exact absurd hid.symm ((hold c (List.mem_of_getElem? hc)).2 hr hw)
      · rfl
    · intro m c hc
      rcases hget hc with hc | ⟨rfl, rfl⟩
      · exact h.each hc
      · exact ⟨by simp, by simp, by simp, by simp⟩
  · exact h

/-- A conversion whose child has not been reaped is the one of the job. -/
theorem Inv.own (h : Inv s) (hc : s.conversions[n]? = some c) (hraised : c.stage ≠ .raised)
    (hreaped : c.reaped = false) : ∃ job, s.job = some job ∧ job.serial = n ∧ Describes s job c := by
  obtain ⟨job, hjob, rfl⟩ := h.current hc hraised hreaped
  obtain ⟨d, hd, -, hdesc⟩ := h.job job hjob
  rw [hc] at hd
  cases hd
  exact ⟨job, hjob, rfl, hdesc⟩

theorem Inv.spawnRaised (h : Inv s) (hc : s.conversions[n]? = some c) (hstage : c.stage = .spawning) :
    Inv (s.spawnRaised n c.jobId) := by
  have hraised : c.stage ≠ .raised := by
    rw [hstage]
    decide
  have hnot := (h.each hc).not_reaped (by rw [hstage]; decide)
  have hwritten := (h.each hc).not_written hnot
  obtain ⟨job, hjob, rfl, hdesc⟩ := h.own hc hraised hnot
  have hchild : s.child = none := by
    rw [hdesc.child, hdesc.pid, if_pos]
    simp [Conversion.starting, hstage]
  have hnone : s.spawnRaised job.serial c.jobId =
      { s.update job.serial (fun c => { c with stage := .raised }) with job := none } := by
    unfold CheckpointManager.spawnRaised
    dsimp only
    have hsame : (s.update job.serial fun c => { c with stage := .raised }).job = some job := hjob
    rw [hsame]
    dsimp only
    rw [if_pos hdesc.id.symm]
  rw [hnone]
  refine ⟨fun job hjob => (by cases hjob), fun _ => hchild, ?_, ?_, ?_⟩
  · intro m d hd hr hre
    exfalso
    rcases update_cases hc hd with ⟨rfl, rfl⟩ | ⟨hne, hd⟩
    · exact hr rfl
    · obtain ⟨job', hjob', rfl⟩ := h.current hd hr hre
      rw [hjob] at hjob'
      cases hjob'
      exact hne rfl
  · intro m d job' _ _ _ hjob'
    cases hjob'
  · intro m d hd
    rcases update_cases hc hd with ⟨rfl, rfl⟩ | ⟨-, hd⟩
    · exact ⟨fun hr => absurd hr (by simp [hnot]), fun hw => absurd hw (by simp [hwritten]),
        fun _ => .inr (.inr (.inr (.inl rfl))), by simp⟩
    · exact h.each hd

theorem Inv.attach (h : Inv s) (hc : s.conversions[n]? = some c) (hstage : c.stage = .spawned) :
    Inv (s.attach n) := by
  have hraised : c.stage ≠ .raised := by
    rw [hstage]
    decide
  have hnot := (h.each hc).not_reaped (by rw [hstage]; decide)
  have hwritten := (h.each hc).not_written hnot
  obtain ⟨job, hjob, rfl, hdesc⟩ := h.own hc hraised hnot
  unfold CheckpointManager.attach
  rw [hjob]
  dsimp only
  have hself := update_self (f := fun c => { c with stage := .attached (job.state = .cancelled) }) hc
  refine ⟨?_, fun hnone => (by cases hnone), ?_, ?_, ?_⟩
  · intro job' hjob'
    cases hjob'
    refine ⟨_, hself, by simp, hdesc.id, ?_, rfl, hdesc.cancelled, ?_, hdesc.unwritten⟩
    · simp [Conversion.starting]
    · intro hw
      rw [hwritten] at hw
      cases hw
  · intro m d hd hr hre
    rcases update_cases hc hd with ⟨rfl, rfl⟩ | ⟨-, hd⟩
    · exact ⟨_, rfl, rfl⟩
    · obtain ⟨job', hjob', rfl⟩ := h.current hd hr hre
      rw [hjob] at hjob'
      cases hjob'
      exact ⟨_, rfl, rfl⟩
  · intro m d job' hd hr hw hjob' hid
    cases hjob'
    rcases update_cases hc hd with ⟨rfl, rfl⟩ | ⟨-, hd⟩
    · rfl
    · have hserial : job.serial = m := h.late hd hr hw hjob hid
      exact hserial
  · intro m d hd
    rcases update_cases hc hd with ⟨rfl, rfl⟩ | ⟨-, hd⟩
    · refine ⟨fun hr => absurd hr (by simp [hnot]), fun hw => absurd hw (by simp [hwritten]),
        fun hcan => ?_, by simp⟩
      have hcancelled := hdesc.cancelled.1 hcan
      simp [hcancelled]
    · exact h.each hd

/-- The monitor writes the job of its own child, or none. -/
theorem Inv.monitorWrite (h : Inv s) {code : Int} (hc : s.conversions[n]? = some c)
    (hexit : c.exit = some code) (hreaped : c.reaped = true) (hwritten : c.written = false) :
    Inv (s.monitorWrite n c.jobId code) := by
  have hstage := ((h.each hc).reaped hreaped).2
  have heach : ∀ {m : Nat} {d : Conversion},
      (s.update n fun c => { c with written := true }).conversions[m]? = some d →
      d.Consistent := by
    intro m d hd
    rcases update_cases hc hd with ⟨rfl, rfl⟩ | ⟨-, hd⟩
    · exact ⟨(h.each hc).reaped, fun _ => hreaped, (h.each hc).cancelled, (h.each hc).found⟩
    · exact h.each hd
  have hcurrent : ∀ {m : Nat} {d : Conversion},
      (s.update n fun c => { c with written := true }).conversions[m]? =
      some d → d.stage ≠ .raised → d.reaped = false → ∃ job, s.job = some job ∧ job.serial = m := by
    intro m d hd hr hre
    rcases update_cases hc hd with ⟨rfl, rfl⟩ | ⟨-, hd⟩
    · exact h.current hc hr hre
    · exact h.current hd hr hre
  have hlate : ∀ {m : Nat} {d : Conversion} {job : Job},
      (s.update n fun c => { c with written := true }).conversions[m]? = some d → d.reaped = true → d.written = false → s.job = some job → job.id = d.jobId →
        job.serial = m := by
    intro m d job hd hr hw hjob hid
    rcases update_cases hc hd with ⟨rfl, rfl⟩ | ⟨-, hd⟩
    · cases hw
    · exact h.late hd hr hw hjob hid
  unfold CheckpointManager.monitorWrite
  dsimp only
  split
  · rename_i hnone
    have hnone' : s.job = none := hnone
    refine ⟨fun job hjob => ?_, h.child, hcurrent, hlate, heach⟩
    have hjob' : s.job = some job := hjob
    rw [hnone'] at hjob'
    cases hjob'
  · rename_i job hjob
    have hjob' : s.job = some job := hjob
    split
    · rename_i hid
      obtain rfl := h.late hc hreaped hwritten hjob' hid
      obtain ⟨d, hd, hraised, hdesc⟩ := h.job job hjob'
      rw [hc] at hd
      cases hd
      have hrunning := (hdesc.unwritten hwritten).2
      refine ⟨fun job' hjob'' => ?_, fun hnone => (by cases hnone), ?_, ?_, heach⟩
      · cases hjob''
        refine ⟨_, update_self hc, hraised, hid.symm, hdesc.pid, hdesc.child, ?_, ?_, ?_⟩
        · rw [hdesc.cancelled]
          by_cases hcan : job.state = .cancelled
          · simp [hcan]
          · simp only [hcan, false_iff]
            rw [if_pos hcan]
            split <;> decide
        · intro _
          refine ⟨hexit.symm, fun hne => ?_⟩
          by_cases hcan : job.state = .cancelled
          · rw [if_neg (not_not.2 hcan)] at hne
            exact absurd hcan hne
          · rw [if_pos hcan, hexit]
            simp only [Option.some.injEq]
        · intro hw
          cases hw
      · intro m d hd hr hre
        obtain ⟨job', hjob'', rfl⟩ := hcurrent hd hr hre
        rw [hjob'] at hjob''
        cases hjob''
        exact ⟨_, rfl, rfl⟩
      · intro m d job' hd hr hw hjob'' hid'
        cases hjob''
        have hserial : job.serial = m := hlate hd hr hw hjob' hid'
        exact hserial
    · rename_i hid
      refine ⟨fun job' hjob'' => ?_, fun hnone => ?_, hcurrent, hlate, heach⟩
      · have hsame : s.job = some job' := hjob''
        obtain ⟨d, hd, hraised, hdesc⟩ := h.job job' hsame
        refine ⟨d, ?_, hraised, ⟨hdesc.1, hdesc.2, hdesc.3, hdesc.4, hdesc.5, hdesc.6⟩⟩
        have hother : ∀ {t : CheckpointManager}, t.conversions =
            (s.update n fun c => { c with written := true }).conversions →
              t.conversions[job'.serial]? = some d := by
          intro t ht
          rw [ht, update_get, if_neg, hd]
          rintro rfl
          rw [hc] at hd
          cases hd
          rw [hjob'] at hsame
          cases hsame
          exact hid hdesc.id.symm
        exact hother rfl
      · exact h.child hnone

/-- A `cancel` of a running job. -/
theorem Inv.cancel (h : Inv s) (jobId : String) : Inv (s.cancel jobId).2 := by
  unfold CheckpointManager.cancel
  split
  · exact h
  · rename_i job hjob
    split
    · rename_i hrunning
      obtain ⟨c, hc, hraised, hdesc⟩ := h.job job hjob
      -- what the job's conversion becomes, with or without a child to signal
      have hinv : ∀ terminating : Bool, (c.starting = false → terminating = true) →
          Inv { s.update job.serial (fun c => { c with
            cancelled := true, terminating := terminating || c.terminating }) with
              job := some { job with state := .cancelled } } := by
        intro terminating hterm
        refine ⟨fun job' hjob' => ?_, fun hnone => (by cases hnone), ?_, ?_, ?_⟩
        · cases hjob'
          refine ⟨_, update_self hc, hraised, hdesc.id, hdesc.pid, hdesc.child, by simp, ?_, ?_⟩
          · exact fun hw => ⟨(hdesc.written hw).1, fun hne => absurd rfl hne⟩
          · exact fun hw => ⟨(hdesc.unwritten hw).1, fun hne => absurd rfl hne⟩
        · intro m d hd hr hre
          rcases update_cases hc hd with ⟨rfl, rfl⟩ | ⟨-, hd⟩
          · exact ⟨_, rfl, rfl⟩
          · obtain ⟨job', hjob', rfl⟩ := h.current hd hr hre
            rw [hjob] at hjob'
            cases hjob'
            exact ⟨_, rfl, rfl⟩
        · intro m d job' hd hr hw hjob' hid
          cases hjob'
          rcases update_cases hc hd with ⟨rfl, rfl⟩ | ⟨-, hd⟩
          · rfl
          · have hserial : job.serial = m := h.late hd hr hw hjob hid
            exact hserial
        · intro m d hd
          rcases update_cases hc hd with ⟨rfl, rfl⟩ | ⟨-, hd⟩
          · refine ⟨(h.each hc).reaped, (h.each hc).written, fun _ => ?_, (h.each hc).found⟩
            by_cases hstart : c.starting = true
            · exact .inr (.inr (.inl hstart))
            · rw [Bool.not_eq_true] at hstart
              rw [hterm hstart]
              exact .inr (.inl rfl)
          · exact h.each hd
      have hchild := hdesc.child
      have hpid := hdesc.pid
      by_cases hstart : c.starting = true
      · rw [if_pos hstart] at hpid
        have hnochild : s.child = none := hchild.trans hpid
        have hfalse : Inv _ := hinv false (by simp [hstart])
        dsimp only
        split
        · rename_i hsome _
          have hsome' : s.child = some _ := hsome
          rw [hnochild] at hsome'
          cases hsome'
        · exact hfalse
      · rw [Bool.not_eq_true] at hstart
        rw [hstart, if_neg Bool.false_ne_true] at hpid
        have hsomechild : s.child = some job.serial := hchild.trans hpid
        have htrue : Inv _ := hinv true fun _ => rfl
        have htwice : (s.update job.serial fun c => { c with cancelled := true }).conversions.modify
            job.serial (fun c => { c with terminating := true }) = (s.update job.serial fun c =>
              { c with cancelled := true, terminating := true || c.terminating }).conversions := by
          unfold CheckpointManager.update
          rw [List.modify_modify_eq]
          rfl
        unfold CheckpointManager.update at htwice htrue ⊢
        dsimp only at htwice htrue ⊢
        rw [hpid]
        simp only [hsomechild]
        rw [htwice]
        rwa [hsomechild, hpid] at htrue
    · exact h

theorem step_inv {a : Action} (h : Inv s) (ha : s.Orderly a) (hs : s.step a = some s') : Inv s' := by
  cases a <;> simp only [step] at hs
  case start jobId =>
    cases hs
    exact h.start ha
  case cancel jobId =>
    cases hs
    exact h.cancel jobId
  all_goals obtain ⟨c, hc, hs⟩ := Option.bind_eq_some_iff.1 hs
  all_goals have heach := h.each hc
  case spawns n =>
    split at hs
    · rename_i hstage
      cases hs
      have hnot := heach.not_reaped (by rw [hstage]; decide)
      refine h.update hc ⟨rfl, ?_, ?_, rfl, rfl, fun _ => rfl, id⟩ ⟨?_, ?_, ?_, by simp⟩
      · simp [Conversion.starting, hstage]
      · simp [hstage]
      · intro hr
        rw [hnot] at hr
        cases hr
      · exact heach.written
      · exact fun _ => .inr (.inr (.inl (by simp [Conversion.starting])))
    · cases hs
  case spawnRaises n =>
    split at hs
    · rename_i hstage
      cases hs
      exact h.spawnRaised hc hstage
    · cases hs
  case attaches n =>
    split at hs
    · rename_i hstage
      cases hs
      exact h.attach hc hstage
    · cases hs
  case watches n =>
    split at hs
    · rename_i cancelled hstage
      cases hs
      have hnot := heach.not_reaped (by rw [hstage]; simp)
      refine h.update hc ⟨rfl, ?_, ?_, rfl, rfl, fun _ => rfl, id⟩ ⟨?_, ?_, ?_, by simp [watch]⟩
      · simp [watch, Conversion.starting, hstage]
      · simp [watch, hstage]
      · intro hr
        rw [show (watch c cancelled).reaped = c.reaped from rfl, hnot] at hr
        cases hr
      · exact heach.written
      · intro hcan
        rcases heach.cancelled hcan with hsig | hterm | hstart | hraised | hatt
        · exact .inl hsig
        · exact .inr (.inl (by simp [watch, hterm]))
        · simp [Conversion.starting, hstage] at hstart
        · rw [hstage] at hraised
          cases hraised
        · rw [hstage] at hatt
          cases hatt
          exact .inr (.inl (by simp [watch]))
    · cases hs
  case exits n code =>
    split at hs
    · rename_i hlive
      cases hs
      have hnot : c.written = false := by
        by_contra hw
        have hexit := (heach.reaped (heach.written (by simpa using hw))).1
        rw [hlive.2] at hexit
        cases hexit
      refine h.update hc ⟨rfl, rfl, Iff.rfl, rfl, rfl, fun hw => ?_, id⟩
        ⟨fun hr => ⟨rfl, (heach.reaped hr).2⟩, heach.written, heach.cancelled, heach.found⟩
      rw [hnot] at hw
      cases hw
    · cases hs
  case reaps n =>
    split at hs
    · rename_i hexited
      obtain ⟨hstage, hexit, hnot⟩ := hexited
      cases hs
      refine h.update hc ⟨rfl, rfl, Iff.rfl, rfl, rfl, fun _ => rfl, fun _ => hnot⟩
        ⟨fun _ => ⟨hexit, hstage⟩, fun _ => rfl, heach.cancelled, heach.found⟩
    · cases hs
  case writes n =>
    split at hs
    · rename_i code hexit
      split at hs
      · rename_i hreaped
        cases hs
        exact h.monitorWrite hc hexit hreaped.1 hreaped.2
      · cases hs
    · cases hs
  case signals n =>
    split at hs
    · cases hs
      refine h.update hc ⟨rfl, rfl, Iff.rfl, rfl, rfl, fun _ => rfl, id⟩
        ⟨heach.reaped, heach.written, fun _ => .inl rfl, heach.found⟩
    · cases hs

theorem init_inv : Inv {} where
  job := by
    intro job hjob
    cases hjob
  child := fun _ => rfl
  current := by
    intro n c hc
    cases hc
  late := by
    intro n c job hc
    cases hc
  each := by
    intro n c hc
    cases hc

/-- What the invariant says of the conversions. -/
theorem Inv.oneAtATime (h : Inv s) : OneAtATime s where
  single := by
    intro m n c d hc hd hlive hlive'
    have hown : ∀ {n : Nat} {c : Conversion}, s.conversions[n]? = some c → c.live = true →
        ∃ job, s.job = some job ∧ job.serial = n := by
      intro n c hc hlive
      unfold Conversion.live Conversion.hasChild at hlive
      simp only [Bool.and_eq_true, decide_eq_true_eq, Bool.not_eq_true'] at hlive
      exact h.current hc hlive.1.1.2 hlive.2
    obtain ⟨job, hjob, rfl⟩ := hown hc hlive
    obtain ⟨job', hjob', rfl⟩ := hown hd hlive'
    rw [hjob] at hjob'
    cases hjob'
    rfl
  signalled := by
    intro c hc hcan hchild hquiet
    obtain ⟨n, hn⟩ := List.mem_iff_getElem?.1 hc
    unfold Conversion.quiet at hquiet
    unfold Conversion.hasChild at hchild
    simp only [Bool.and_eq_true, Bool.or_eq_true, decide_eq_true_eq, Bool.not_eq_true'] at hquiet hchild
    rcases (h.each hn).cancelled hcan with hsig | hterm | hstart | hraised | hatt
    · exact hsig
    · rw [hquiet.2] at hterm
      cases hterm
    · unfold Conversion.starting at hstart
      simp only [Bool.or_eq_true, decide_eq_true_eq] at hstart
      rcases hstart with hstage | hstage
      · exact absurd hstage hchild.1
      · rw [hstage] at hquiet
        simp at hquiet
    · exact absurd hraised hchild.2
    · rw [hatt] at hquiet
      simp at hquiet
  job := by
    intro job hjob
    obtain ⟨c, hc, -, hdesc⟩ := h.job job hjob
    exact ⟨c, hc, hdesc⟩
  child := h.child

end Steps

/-- In every run of orderly starts there is one conversion at a time. -/
theorem oneAtATime_of_orderly (as : List Action) (h : Keeps step Orderly {} as) :
    Always step (fun s _ => OneAtATime s) {} as :=
  always_of_invariant (fun h ha hs => step_inv h ha hs) (fun h _ => h.oneAtATime) init_inv h

/-- A job that is cancelled once its child runs, and the next one after it. -/
theorem oneAtATime_two_jobs :
    Always step (fun s _ => OneAtATime s) {} [.start "a", .spawns 0, .attaches 0, .watches 0,
      .cancel "a", .start "b", .signals 0, .exits 0 (-15), .reaps 0, .writes 0, .start "b"] :=
  oneAtATime_of_orderly _ (by decide +kernel)

/-- A job is cancelled while its child is spawned, and another one is started. -/
theorem not_oneAtATime :
    ¬ Always step (fun s _ => OneAtATime s) {}
      [.start "a", .cancel "a", .start "b", .spawns 0, .spawns 1] := by
  intro h
  obtain ⟨s, hrun, c, d, hc, hd, hlive, hlive'⟩ : ∃ s, runAll step {}
      [.start "a", .cancel "a", .start "b", .spawns 0, .spawns 1] = some s ∧
        ∃ c d, s.conversions[0]? = some c ∧ s.conversions[1]? = some d ∧ c.live = true ∧
          d.live = true := ⟨_, rfl, _, _, rfl, rfl, rfl, rfl⟩
  exact absurd ((h.runAll hrun).single hc hd hlive hlive') (by decide)

end CheckpointManager

end FreeToken
