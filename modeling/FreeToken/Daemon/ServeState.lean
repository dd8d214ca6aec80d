import FreeToken.Daemon.ServeLifecycle

/-!
# The state file of a serve

When no start raises while its child runs, and none writes the state file where the monitor of the
child before has still to remove it, the file names the child of the manager until its monitor
removes it.
-/

set_option autoImplicit false

namespace FreeToken

open Machine

/-- The monitor watches the child and has not removed the state file. -/
def MonitorStage.holdsFile : MonitorStage → Bool
  | .waiting | .accounting _ | .accountingFailed _ | .forgetting _ | .clearing _ => true
  | _ => false

def MonitorStage.isClearing : MonitorStage → Bool
  | .clearing _ => true
  | _ => false

namespace ServeManager

/-- The child that a start has spawned exited before the start is done. -/
def startExited (s : ServeManager) : Bool :=
  match s.activity with
  | some (.saving _ n) | some (.watching n) => s.children[n]?.any fun c => c.exit.isSome
  | _ => false

/-- No start raises while its child runs, and none writes the file before it is removed. -/
def OrderlyStart (s : ServeManager) : Action → Prop
  | .save true => ∀ c ∈ s.children, c.monitor.isClearing = false
  | .save false | .watch false => s.startExited = true
  | _ => True

instance (s : ServeManager) (a : Action) : Decidable (s.OrderlyStart a) := by
  unfold OrderlyStart
  split <;> infer_instance

/-- The state file follows the child. -/
structure FileFollows (s : ServeManager) : Prop where
  named : ∀ {n : Nat} {c : ServeChild}, s.children[n]? = some c → c.monitor.holdsFile = true →
    s.file = some (n, c.spec)
  absent : (∀ c ∈ s.children, c.reaped = true) → s.file = none
  watched : ∀ c ∈ s.children, c.startRaised = true → c.exit = none → c.monitor ≠ .unwatched

structure Filed (s : ServeManager) : Prop where
  named : ∀ {n : Nat} {c : ServeChild}, s.children[n]? = some c → c.monitor.holdsFile = true →
    s.file = some (n, c.spec)
  watching : ∀ {n : Nat} {c : ServeChild}, s.activity = some (.watching n) →
    s.children[n]? = some c → s.file = some (n, c.spec)
  owner : ∀ {n : Nat} {spec : ServeSpec}, s.file = some (n, spec) →
    ∃ c, s.children[n]? = some c ∧ (c.monitor = .unwatched ∨ c.monitor.holdsFile = true)
  reaped : ∀ {n : Nat} {c : ServeChild}, s.children[n]? = some c → c.reaped = true →
    c.monitor.holdsFile = false
  raised : ∀ {n : Nat} {c : ServeChild}, s.children[n]? = some c → c.startRaised = true →
    c.exit ≠ none

section Steps

variable {s s' : ServeManager} {n m : Nat} {c d : ServeChild} {f : ServeChild → ServeChild}

theorem Filed.fileFollows (h : Filed s) (hbase : Base s) : FileFollows s where
  named := h.named
  absent := by
    intro hall
    cases hfile : s.file with
    | none => rfl
    | some p =>
        obtain ⟨n, spec⟩ := p
        obtain ⟨c, hc, hstage⟩ := h.owner hfile
        have hreaped := hall c (List.mem_of_getElem? hc)
        rcases hstage with hun | hholds
        · have hgone := (hbase.each hc).reaped hreaped
          rw [hun] at hgone
          cases hgone
        · rw [h.reaped hc hreaped] at hholds
          cases hholds
  watched := by
    intro c hc hraised hexit
    obtain ⟨n, hn⟩ := List.mem_iff_getElem?.1 hc
    exact absurd hexit (h.raised hn hraised)

/-- A section that leaves the children and the file. -/
theorem Filed.same (h : Filed s) (hchildren : s'.children = s.children)
    (hfile : s'.file = s.file)
    (hactivity : ∀ n, s'.activity = some (.watching n) → s.activity = some (.watching n)) :
    Filed s' where
  named := by
    rw [hchildren, hfile]
    exact h.named
  watching := by
    rw [hchildren, hfile]
    exact fun hact => h.watching (hactivity _ hact)
  owner := by
    rw [hchildren, hfile]
    exact h.owner
  reaped := by
    rw [hchildren]
    exact h.reaped
  raised := by
    rw [hchildren]
    exact h.raised

/-- A section that changes one child and leaves the file. -/
theorem Filed.update (h : Filed s) (hc : s.children[n]? = some c)
    (hspec : (f c).spec = c.spec)
    (hholds : (f c).monitor.holdsFile = true → c.monitor.holdsFile = true)
    (howner : c.monitor = .unwatched ∨ c.monitor.holdsFile = true →
      (f c).monitor = .unwatched ∨ (f c).monitor.holdsFile = true)
    (hreaped : (f c).reaped = true → (f c).monitor.holdsFile = false)
    (hraised : (f c).startRaised = true → (f c).exit ≠ none) : Filed (s.update n f) where
  named := by
    intro m d hd hstage
    rcases update_cases hc hd with ⟨rfl, rfl⟩ | ⟨-, hd⟩
    · rw [hspec]
      exact h.named hc (hholds hstage)
    · exact h.named hd hstage
  watching := by
    intro m d hact hd
    rcases update_cases hc hd with ⟨rfl, rfl⟩ | ⟨-, hd⟩
    · rw [hspec]
      exact h.watching hact hc
    · exact h.watching hact hd
  owner := by
    intro m spec hfile
    obtain ⟨d, hd, hstage⟩ := h.owner hfile
    by_cases heq : m = n
    · subst heq
      rw [hc] at hd
      cases hd
      exact ⟨f c, update_self hc, howner hstage⟩
    · exact ⟨d, (update_ne heq).trans hd, hstage⟩
  reaped := by
    intro m d hd
    rcases update_cases hc hd with ⟨rfl, rfl⟩ | ⟨-, hd⟩
    · exact hreaped
    · exact h.reaped hd
  raised := by
    intro m d hd
    rcases update_cases hc hd with ⟨rfl, rfl⟩ | ⟨-, hd⟩
    · exact hraised
    · exact h.raised hd

theorem Filed.spawns (h : Filed s) {spec : ServeSpec} :
    Filed { s with
      children := s.children ++ [{ spec := spec }]
      activity := some (.spawned spec s.children.length) } where
  named := by
    intro n c hc hstage
    rcases spawn_cases hc with hold | ⟨rfl, rfl⟩
    · exact h.named hold hstage
    · cases hstage
  watching := by
    rintro n c ⟨⟩
  owner := by
    intro n t hfile
    obtain ⟨c, hc, hstage⟩ := h.owner hfile
    refine ⟨c, ?_, hstage⟩
    exact (List.getElem?_append_left (List.getElem?_eq_some_iff.1 hc).1).trans hc
  reaped := by
    intro n c hc hr
    rcases spawn_cases hc with hold | ⟨rfl, rfl⟩
    · exact h.reaped hold hr
    · cases hr
  raised := by
    intro n c hc hr
    rcases spawn_cases hc with hold | ⟨rfl, rfl⟩
    · exact h.raised hold hr
    · cases hr

/-- A start writes the state of its child. -/
theorem Filed.writes (h : Filed s) (hbase : Base s) {spec : ServeSpec} (hact : s.activity = some (.saving spec n))
    (hclear : ∀ c ∈ s.children, c.monitor.isClearing = false) :
    Filed { s with file := some (n, spec), activity := some (.watching n) } := by
  have hstands := hbase.activity
  rw [hact] at hstands
  obtain ⟨-, -, hchild, c, hc, hspec, hw⟩ := hstands
  have hnone : ∀ {m : Nat} {d : ServeChild}, s.children[m]? = some d →
      d.monitor.holdsFile = false := by
    intro m d hd
    by_contra hholds
    have hstage : d.monitor ≠ .unwatched ∧ d.monitor.current = true := by
      have hnot := hclear d (List.mem_of_getElem? hd)
      cases hm : d.monitor <;> rw [hm] at hholds hnot <;> first
        | exact absurd rfl hholds
        | exact ⟨by simp, rfl⟩
        | cases hnot
    have hmine := hbase.watched hd hstage.1 hstage.2
    rw [hchild] at hmine
    cases hmine
    rw [hc] at hd
    cases hd
    exact hstage.1 hw
  exact {
    named := by
      intro m d hd hstage
      rw [hnone hd] at hstage
      cases hstage
    watching := by
      rintro m d ⟨⟩ hd
      rw [show s.children[n]? = some d from hd] at hc
      cases hc
      exact congrArg (fun t => some (n, t)) hspec.symm
    owner := by
      rintro m t ⟨⟩
      exact ⟨c, hc, .inl hw⟩
    reaped := h.reaped
    raised := h.raised }

/-- The monitor of a child goes on, and leaves the file. -/
theorem Filed.proceeds (h : Filed s) (hc : s.children[n]? = some c) {stage : MonitorStage}
    (hstage : stage.holdsFile = c.monitor.holdsFile) (hwatched : c.monitor ≠ .unwatched) :
    Filed (s.update n fun c => { c with monitor := stage }) := by
  have hraised : c.startRaised = true → c.exit ≠ none := h.raised hc
  refine h.update hc rfl ?_ ?_ ?_ hraised
  · intro hholds
    exact hstage.symm.trans hholds
  · rintro (hun | hholds)
    · exact absurd hun hwatched
    · exact .inr (hstage.trans hholds)
  · intro hr
    exact hstage.trans (h.reaped hc hr)

/-- The monitor of a child removes the file, which names its child. -/
theorem Filed.clears (h : Filed s) (hbase : Base s) (hc : s.children[n]? = some c)
    (hclearing : c.monitor.isClearing = true) {stage : MonitorStage}
    (hgone : stage.holdsFile = false) :
    Filed (({ s with file := none }).update n fun c => { c with monitor := stage }) := by
  have hholds : c.monitor.holdsFile = true := by
    cases hm : c.monitor <;> rw [hm] at hclearing <;> first | rfl | cases hclearing
  have hfile := h.named hc hholds
  have hraised : c.startRaised = true → c.exit ≠ none := h.raised hc
  have honly : ∀ {m : Nat} {d : ServeChild}, s.file = some (m, d.spec) → m = n := by
    intro m d hm
    have hpair := Option.some.inj (hfile.symm.trans hm)
    exact (congrArg Prod.fst hpair).symm
  exact {
    named := by
      intro m d hd hstage
      rcases update_cases hc hd with ⟨rfl, rfl⟩ | ⟨hne, hd⟩
      · rw [hgone] at hstage
        cases hstage
      · exact absurd (honly (h.named hd hstage)) hne
    watching := by
      intro m d hact hd
      have hstands := hbase.activity
      rw [show s.activity = some (.watching m) from hact] at hstands
      obtain ⟨-, -, -, spec, e, he, -, hw⟩ := hstands
      obtain rfl := honly (h.watching hact he)
      rw [hc] at he
      cases he
      rw [hw] at hholds
      cases hholds
    owner := by
      rintro m t ⟨⟩
    reaped := by
      intro m d hd hr
      rcases update_cases hc hd with ⟨rfl, rfl⟩ | ⟨-, hd⟩
      · exact hgone
      · exact h.reaped hd hr
    raised := by
      intro m d hd hr
      rcases update_cases hc hd with ⟨rfl, rfl⟩ | ⟨-, hd⟩
      · exact hraised hr
      · exact h.raised hd hr }

theorem Filed.monitors (h : Filed s) (hbase : Base s) (hc : s.children[n]? = some c) {now : Nat}
    {writes : Bool} (hs : s.monitorSection n c now writes = some s') : Filed s' := by
  have hwatched : c.monitor ≠ .unwatched := by
    intro hw
    simp [monitorSection, hw] at hs
  have hraised : c.startRaised = true → c.exit ≠ none := h.raised hc
  unfold monitorSection at hs
  cases hstage : c.monitor with
  | unwatched => exact absurd hstage hwatched
  | finished => simp [hstage] at hs
  | waiting =>
      simp only [hstage, Option.map_eq_some_iff] at hs
      obtain ⟨info, -, hs⟩ := hs
      split at hs <;> subst hs
      · exact h.proceeds hc (by rw [hstage]; rfl) hwatched
      · exact h.proceeds hc (by rw [hstage]; rfl) hwatched
  | accounting wasStopping =>
      simp only [hstage] at hs
      split at hs
      · cases hs
        exact h.proceeds hc (by rw [hstage]; rfl) hwatched
      · split at hs
        · cases hs
          have hpersist : Filed (s.persist n .crash (s.crashReceipt n wasStopping now)) :=
            h.same rfl rfl fun _ => id
          exact hpersist.proceeds hc (by rw [hstage]; rfl) hwatched
        · cases hs
          exact h.update hc rfl (fun _ => by rw [hstage]; rfl) (fun _ => .inr rfl)
            (fun hr => by
              have hgone := h.reaped hc hr
              rw [hstage] at hgone
              cases hgone)
            hraised
  | accountingFailed wasStopping =>
      simp only [hstage] at hs
      cases hs
      have hlatched : Filed { s with stopRequested := true } :=
        h.same rfl rfl fun _ => id
      exact hlatched.proceeds hc (by rw [hstage]; rfl) hwatched
  | forgetting wasStopping =>
      simp only [hstage] at hs
      split at hs
      · cases hs
        have hforgotten : Filed { s with
            child := none
            stopping := false
            lastExit := if wasStopping then c.exit.map fun e => ⟨e.code, "stopped"⟩ else c.exit } :=
          h.same rfl rfl fun _ => id
        exact hforgotten.proceeds hc (by rw [hstage]; rfl) hwatched
      · next hchild =>
          exact absurd (hbase.watched hc hwatched (by rw [hstage]; rfl)) hchild
  | clearing wasStopping =>
      simp only [hstage] at hs
      cases hs
      exact h.clears hbase hc (by rw [hstage]; rfl) rfl
  | setting wasStopping isCurrent =>
      simp only [hstage] at hs
      cases hs
      have hgone : (if isCurrent then MonitorStage.deciding wasStopping else .finished).holdsFile
          = false := by
        cases isCurrent <;> rfl
      refine h.update hc rfl (fun hholds => ?_) (fun howner => ?_) (fun _ => hgone)
        hraised
      · rw [hgone] at hholds
        cases hholds
      · rw [hstage] at howner
        rcases howner with howner | howner <;> cases howner
  | deciding wasStopping =>
      simp only [hstage] at hs
      cases hs
      refine h.proceeds hc ?_ hwatched
      rw [hstage]
      split <;> rfl
  | restarting =>
      simp only [hstage] at hs
      cases hs
      have hqueued : Filed { s with restarts := s.restarts ++ s.spec.toList } :=
        h.same rfl rfl fun _ => id
      exact hqueued.proceeds hc (by rw [hstage]; rfl) hwatched

/-- The start of a child raises once the child has exited. -/
theorem Filed.raises (h : Filed s) (hc : s.children[n]? = some c) (hexit : c.exit.isSome = true) :
    Filed (s.update n fun c => { c with startRaised := true }) := by
  have hreaped : c.reaped = true → c.monitor.holdsFile = false := h.reaped hc
  refine h.update hc rfl id id hreaped fun _ hrun => ?_
  rw [show c.exit = none from hrun] at hexit
  cases hexit

/-- The monitor of a child begins to wait where the file names the child. -/
theorem Filed.watches (h : Filed s) (hbase : Base s) (hact : s.activity = some (.watching n)) :
    Filed (({ s with activity := none }).update n fun c => { c with monitor := .waiting }) := by
  have hstands := hbase.activity
  rw [hact] at hstands
  obtain ⟨-, -, -, spec, c, hc, -, hw⟩ := hstands
  have hfile := h.watching hact hc
  have hraised : c.startRaised = true → c.exit ≠ none := h.raised hc
  exact {
    named := by
      intro m d hd hstage
      rcases update_cases hc hd with ⟨rfl, rfl⟩ | ⟨-, hd⟩
      · exact hfile
      · exact h.named hd hstage
    watching := by
      rintro m d ⟨⟩
    owner := by
      intro m t hm
      obtain ⟨d, hd, hstage⟩ := h.owner hm
      by_cases heq : m = n
      · subst heq
        exact ⟨_, update_self hc, .inr rfl⟩
      · exact ⟨d, (update_ne heq).trans hd, hstage⟩
    reaped := by
      intro m d hd hr
      rcases update_cases hc hd with ⟨rfl, rfl⟩ | ⟨-, hd⟩
      · have hgone := (hbase.each hc).reaped hr
        rw [hw] at hgone
        cases hgone
      · exact h.reaped hd hr
    raised := by
      intro m d hd hr
      rcases update_cases hc hd with ⟨rfl, rfl⟩ | ⟨-, hd⟩
      · exact hraised hr
      · exact h.raised hd hr }

theorem stopReturns_keeps (s : ServeManager) (caller : StopCaller) :
    (s.stopReturns caller).children = s.children ∧ (s.stopReturns caller).file = s.file ∧
      ∀ n, (s.stopReturns caller).activity ≠ some (.watching n) := by
  cases caller with
  | stop => exact ⟨rfl, rfl, by rintro n ⟨⟩⟩
  | shutdown => exact ⟨rfl, rfl, by rintro n ⟨⟩⟩
  | switch spec => exact ⟨rfl, rfl, by rintro n ⟨⟩⟩

theorem Filed.returns (h : Filed s) (caller : StopCaller) : Filed (s.stopReturns caller) := by
  obtain ⟨hchildren, hfile, hnot⟩ := stopReturns_keeps s caller
  exact h.same hchildren hfile fun n hn => absurd hn (hnot n)

theorem Filed.signals (h : Filed s) (caller : StopCaller) (n : Nat) (killed sent : Bool) :
    Filed (s.signalChild caller n killed sent) := by
  unfold signalChild
  split
  · exact h.same rfl rfl (by rintro m ⟨⟩)
  · exact h.same rfl rfl (by rintro m ⟨⟩)

theorem Filed.activityStep (h : Filed s) (hbase : Base s) {activity : Activity} {a : Action}
    (horderly : s.OrderlyStart a) (hact : s.activity = some activity)
    (hs : s.activityStep activity a = some s') : Filed s' := by
  cases a with
  | startSection =>
      cases activity with
      | starting spec auto =>
          simp only [ServeManager.activityStep] at hs
          have hkept : ∀ {outcome : StartOutcome} {t : ServeManager},
              s.startSection spec auto = (outcome, t) →
                t.children = s.children ∧ t.file = s.file := by
            intro outcome t hout
            rcases startSection_cases hout with ⟨-, rfl | ⟨-, rfl⟩⟩ | ⟨-, -, -, -, rfl⟩ <;>
              exact ⟨rfl, rfl⟩
          split at hs
          · cases hs
          · split at hs
            · next t hout =>
                cases hs
                exact h.same (hkept hout).1 (hkept hout).2 (by rintro m ⟨⟩)
            · next outcome t hne hout =>
                cases hs
                exact h.same (hkept hout).1 (hkept hout).2 (by rintro m ⟨⟩)
      | _ => cases hs
  | spawn ok =>
      cases activity with
      | spawning spec =>
          simp only [ServeManager.activityStep] at hs
          split at hs <;> cases hs
          · exact h.spawns
          · exact h.same rfl rfl (by rintro m ⟨⟩)
      | _ => cases hs
  | attach =>
      cases activity with
      | spawned spec n =>
          cases hs
          exact h.same rfl rfl (by rintro m ⟨⟩)
      | _ => cases hs
  | save ok =>
      cases activity with
      | saving spec n =>
          cases ok with
          | true =>
              simp only [ServeManager.activityStep, if_true] at hs
              cases hs
              exact h.writes hbase hact horderly
          | false =>
              simp only [ServeManager.activityStep, Bool.false_eq_true, if_false] at hs
              cases hs
              simp only [OrderlyStart, startExited, hact, Option.any_eq_true] at horderly
              obtain ⟨c, hc, hexit⟩ := horderly
              exact (h.raises hc hexit).same rfl rfl (by rintro m ⟨⟩)
      | _ => cases hs
  | watch ok =>
      cases activity with
      | watching n =>
          cases ok with
          | true =>
              simp only [ServeManager.activityStep, if_true] at hs
              cases hs
              exact h.watches hbase hact
          | false =>
              simp only [ServeManager.activityStep, Bool.false_eq_true, if_false] at hs
              cases hs
              simp only [OrderlyStart, startExited, hact, Option.any_eq_true] at horderly
              obtain ⟨c, hc, hexit⟩ := horderly
              exact (h.raises hc hexit).same rfl rfl (by rintro m ⟨⟩)
      | _ => cases hs
  | stopSection =>
      cases activity with
      | stopping caller force =>
          simp only [ServeManager.activityStep] at hs
          split at hs
          · cases hs
          · cases hs
            cases hchild : s.child with
            | none =>
                rw [stopSection_none hchild]
                have hlatched : Filed { s with stopRequested := true } := h.same rfl rfl fun _ => id
                exact hlatched.returns caller
            | some n =>
                rw [stopSection_some hchild]
                exact h.same rfl rfl (by rintro m ⟨⟩)
      | _ => cases hs
  | prepare answer stats now writes =>
      cases activity with
      | preparing caller n spec force =>
          cases hs
          unfold prepareSection
          split
          · exact h.same rfl rfl (by rintro m ⟨⟩)
          · split
            · exact h.same rfl rfl (by rintro m ⟨⟩)
            · exact h.same rfl rfl (by rintro m ⟨⟩)
      | _ => cases hs
  | signal sent =>
      cases activity with
      | signalling caller n =>
          simp only [ServeManager.activityStep] at hs
          split at hs <;> cases hs
          · exact h.returns caller
          · exact h.signals caller n false sent
      | _ => cases hs
  | await outcome =>
      cases activity with
      | awaiting caller n killed =>
          cases outcome with
          | reaped =>
              simp only [ServeManager.activityStep] at hs
              split at hs <;> cases hs
              exact h.returns caller
          | timeout sent =>
              simp only [ServeManager.activityStep] at hs
              split at hs
              · cases hs
              · split at hs <;> cases hs
                · exact h.same rfl rfl (by rintro m ⟨⟩)
                · exact h.signals caller n true sent
      | _ => cases outcome <;> cases hs
  | abandon =>
      cases activity with
      | abandoning caller n =>
          cases hs
          have hheld := hbase.activity
          rw [hact] at hheld
          rw [abandonSection_eq caller (hheld.2.imp And.left And.right)]
          exact h.same rfl rfl (by rintro m ⟨⟩)
      | _ => cases hs
  | _ => cases hs

theorem Filed.enters (h : Filed s) {a : Activity} (ha : ∀ n, a ≠ .watching n)
    (hs : s.enter a = some s') : Filed s' := by
  unfold enter at hs
  split at hs
  · cases hs
    exact h.same rfl rfl fun n hn => absurd (Option.some.inj hn) (ha n)
  · cases hs

/-- Every orderly section keeps what `Filed` says. -/
theorem Filed.next (h : Filed s) (hbase : Base s) {a : Action} (horderly : s.OrderlyStart a)
    (hs : s.step a = some s') : Filed s' := by
  cases a with
  | callStart spec => exact h.enters (by rintro n ⟨⟩) hs
  | callStop force => exact h.enters (by rintro n ⟨⟩) hs
  | callSwitch spec force => exact h.enters (by rintro n ⟨⟩) hs
  | callShutdown force =>
      simp only [step, Option.map_eq_some_iff] at hs
      obtain ⟨t, ht, rfl⟩ := hs
      have hentered : Filed t := h.enters (by rintro n ⟨⟩) ht
      exact hentered.same rfl rfl fun _ => id
  | runRestart i =>
      simp only [step, Option.bind_eq_some_iff] at hs
      obtain ⟨spec, -, hs⟩ := hs
      have hpopped : Filed { s with restarts := s.restarts.eraseIdx i } := h.same rfl rfl fun _ => id
      exact hpopped.enters (by rintro n ⟨⟩) hs
  | exits n info =>
      simp only [step, Option.bind_eq_some_iff] at hs
      obtain ⟨c, hc, hs⟩ := hs
      split at hs
      · cases hs
        have hreaped : c.reaped = true → c.monitor.holdsFile = false := h.reaped hc
        exact h.update hc rfl id id hreaped (by simp)
      · cases hs
  | monitor n now writes =>
      simp only [step, Option.bind_eq_some_iff] at hs
      obtain ⟨c, hc, hs⟩ := hs
      exact h.monitors hbase hc hs
  | ack receiptId =>
      cases hs
      exact h.same rfl rfl fun _ => id
  | observe totals =>
      cases hs
      obtain ⟨last, hlast⟩ := observeAccounting_eq s totals
      rw [hlast]
      exact h.same rfl rfl fun _ => id
  | _ =>
      simp only [step, Option.bind_eq_some_iff] at hs
      obtain ⟨activity, hact, hs⟩ := hs
      exact h.activityStep hbase horderly hact hs

theorem filed_start (autoRestart : Bool) : Filed { autoRestart := autoRestart } where
  named := by
    intro n c hc
    simp at hc
  watching := by
    rintro n c ⟨⟩
  owner := by
    rintro n spec ⟨⟩
  reaped := by
    intro n c hc
    simp at hc
  raised := by
    intro n c hc
    simp at hc

end Steps

end ServeManager

end FreeToken
