import FreeToken.Daemon.ServeLifecycle

/-!
# One serve, and a stop that stays

A stop is noted when it latches, until the first section of a start that a client asked for; a
shutdown is noted for good when it returns.
-/

set_option autoImplicit false

namespace FreeToken

open Machine

/-- The caller of a stop that is under way. -/
def Activity.caller : Activity → Option StopCaller
  | .stopping caller _ | .preparing caller _ _ _ | .signalling caller _ | .awaiting caller _ _
  | .abandoning caller _ => some caller
  | _ => none

/-- A call that has not looked at the manager yet. -/
def Activity.fresh : Activity → Bool
  | .starting _ _ | .stopping _ _ => true
  | _ => false

/-- Whether a stop stands, and whether a shutdown has returned. -/
structure Latch where
  stopped : Bool := false
  shut : Bool := false
  deriving DecidableEq, Repr

namespace ServeManager

/-- The shutdown that holds the lifecycle lock returns. -/
def shutdownReturns (s s' : ServeManager) : Bool :=
  match s.activity with
  | some (.stopping .shutdown _) | some (.signalling .shutdown _) | some (.awaiting .shutdown _ _) =>
      s'.activity.isNone
  | _ => false

def latch (s : ServeManager) (a : Action) (s' : ServeManager) (l : Latch) : Latch where
  stopped := match a, s.activity with
    | .stopSection, _ => true
    | .startSection, some (.starting _ false) => false
    | _, _ => l.stopped
  shut := l.shut || shutdownReturns s s'

/-- At most one child is live, and a spawn finds none, no stop that stands and no shutdown. -/
structure OneServe (p : ServeManager × Latch) : Prop where
  live : ∀ {n m : Nat} {c d : ServeChild}, p.1.children[n]? = some c → p.1.children[m]? = some d →
    c.live = true → d.live = true → n = m
  spawns : ∀ spec, p.1.activity = some (.spawning spec) →
    (∀ c ∈ p.1.children, c.live = false) ∧ p.2.stopped = false ∧ p.2.shut = false

structure Latched (p : ServeManager × Latch) : Prop where
  base : Base p.1
  stopped : p.2.stopped = true →
    p.1.stopRequested = true ∧ ∀ spec, p.1.activity ≠ some (.spawning spec)
  requested : ∀ a, p.1.activity = some a → a.caller = some .shutdown → p.1.shutdownRequested = true
  shut : p.2.shut = true →
    p.1.shutdownRequested = true ∧ p.1.child = none ∧ ∀ a, p.1.activity = some a → a.fresh = true

section Steps

variable {s s' : ServeManager} {n : Nat} {c d : ServeChild} {l : Latch}

/-- A live child is the manager's, or was spawned and not attached. -/
theorem Base.live (h : Base s) (hc : s.children[n]? = some c) (hlive : c.live = true) :
    s.child = some n ∨ ∃ spec, s.activity = some (.spawned spec n) := by
  unfold ServeChild.live at hlive
  simp only [Bool.and_eq_true, Option.isNone_iff_eq_none] at hlive
  refine h.current hc ?_
  rcases (h.each hc).running hlive.1 with hw | hw <;> (rw [hw]; rfl)

theorem Latched.oneServe {p : ServeManager × Latch} (h : Latched p) : OneServe p where
  live := by
    intro n m c d hc hd hlive hlive'
    have hstands := h.base.activity
    rcases h.base.live hc hlive with hn | ⟨spec, hn⟩ <;>
      rcases h.base.live hd hlive' with hm | ⟨spec', hm⟩
    · rw [hn] at hm
      cases hm
      rfl
    · rw [hm] at hstands
      rw [hstands.2.2.1] at hn
      cases hn
    · rw [hn] at hstands
      rw [hstands.2.2.1] at hm
      cases hm
    · rw [hn] at hm
      cases hm
      rfl
  spawns := by
    intro spec hact
    have hstands := h.base.activity
    rw [hact] at hstands
    refine ⟨fun c hc => ?_, ?_, ?_⟩
    · obtain ⟨n, hn⟩ := List.mem_iff_getElem?.1 hc
      by_contra hlive
      rcases h.base.live hn (by simpa using hlive) with hchild | ⟨t, ht⟩
      · rw [hstands.2.2] at hchild
        cases hchild
      · rw [hact] at ht
        cases ht
    · by_contra hstopped
      exact (h.stopped (by simpa using hstopped)).2 spec hact
    · by_contra hshut
      have hfresh := (h.shut (by simpa using hshut)).2.2 _ hact
      cases hfresh

/-- A section beside the lifecycle lock. -/
theorem Latched.beside (h : Latched (s, l)) (hbase : Base s') (hactivity : s'.activity = s.activity)
    (hshut : s'.shutdownRequested = s.shutdownRequested)
    (hstop : s.stopRequested = true → s'.stopRequested = true)
    (hchild : s.child = none → s'.child = none) : Latched (s', l) where
  base := hbase
  stopped := by
    intro hl
    rw [hactivity]
    exact ⟨hstop (h.stopped hl).1, (h.stopped hl).2⟩
  requested := by
    rw [hactivity, hshut]
    exact h.requested
  shut := by
    intro hl
    obtain ⟨hreq, hnone, hfresh⟩ := h.shut hl
    rw [hactivity, hshut]
    exact ⟨hreq, hchild hnone, hfresh⟩

/-- No shutdown returns where the lifecycle lock stays with its holder. -/
theorem shutdownReturns_same (h : s'.activity = s.activity) : shutdownReturns s s' = false := by
  unfold shutdownReturns
  split
  all_goals first | rfl | (next hact => rw [h, hact]; rfl)

theorem monitorSection_beside {now : Nat} {writes : Bool}
    (hs : s.monitorSection n c now writes = some s') :
    s'.activity = s.activity ∧ s'.shutdownRequested = s.shutdownRequested ∧
      (s.stopRequested = true → s'.stopRequested = true) ∧ (s.child = none → s'.child = none) := by
  unfold monitorSection at hs
  cases hstage : c.monitor with
  | unwatched => simp [hstage] at hs
  | finished => simp [hstage] at hs
  | waiting =>
      simp only [hstage, Option.map_eq_some_iff] at hs
      obtain ⟨info, -, rfl⟩ := hs
      split <;> exact ⟨rfl, rfl, id, id⟩
  | accounting wasStopping =>
      simp only [hstage] at hs
      split at hs
      · cases hs
        exact ⟨rfl, rfl, id, id⟩
      · split at hs <;> (cases hs; exact ⟨rfl, rfl, id, id⟩)
  | accountingFailed wasStopping =>
      simp only [hstage] at hs
      cases hs
      exact ⟨rfl, rfl, fun _ => rfl, id⟩
  | forgetting wasStopping =>
      simp only [hstage] at hs
      split at hs
      · cases hs
        exact ⟨rfl, rfl, id, fun _ => rfl⟩
      · cases hs
        exact ⟨rfl, rfl, id, id⟩
  | clearing wasStopping =>
      simp only [hstage] at hs
      cases hs
      exact ⟨rfl, rfl, id, id⟩
  | setting wasStopping isCurrent =>
      simp only [hstage] at hs
      cases hs
      exact ⟨rfl, rfl, id, id⟩
  | deciding wasStopping =>
      simp only [hstage] at hs
      cases hs
      exact ⟨rfl, rfl, id, id⟩
  | restarting =>
      simp only [hstage] at hs
      cases hs
      exact ⟨rfl, rfl, id, id⟩

theorem shutdownReturns_caller (h : shutdownReturns s s' = true) :
    ∃ a, s.activity = some a ∧ a.caller = some .shutdown := by
  unfold shutdownReturns at h
  split at h
  all_goals first | exact ⟨_, ‹_›, rfl⟩ | cases h

/-- A call takes the lifecycle lock. -/
theorem Latched.enters (h : Latched (s, l)) {a : Activity} {b : Bool} (hfresh : a.fresh = true)
    (hb : s.shutdownRequested = true → b = true)
    (hrequested : a.caller = some .shutdown → b = true)
    (hbase : Base { s with activity := some a, shutdownRequested := b }) :
    Latched ({ s with activity := some a, shutdownRequested := b }, l) where
  base := hbase
  stopped := by
    intro hl
    refine ⟨(h.stopped hl).1, ?_⟩
    rintro spec hspec
    cases hspec
    cases hfresh
  requested := by
    rintro a' ha' hcaller
    cases ha'
    exact hrequested hcaller
  shut := by
    intro hl
    obtain ⟨hreq, hnone, -⟩ := h.shut hl
    refine ⟨hb hreq, hnone, ?_⟩
    rintro a' ha'
    cases ha'
    exact hfresh

/-- The holder of the lifecycle lock goes on, past its first section. -/
theorem Latched.carries (h : Latched (s, l)) {a : Activity} (hact : s.activity = some a)
    (hfresh : a.fresh = false) (hbase : Base s') (hstop : s'.stopRequested = s.stopRequested)
    (hspawn : ∀ spec, s'.activity ≠ some (.spawning spec))
    (hrequested : ∀ b, s'.activity = some b → b.caller = some .shutdown →
      s'.shutdownRequested = true) (hreturn : shutdownReturns s s' = false) :
    Latched (s', { l with shut := l.shut || shutdownReturns s s' }) where
  base := hbase
  stopped := fun hl => ⟨hstop.trans (h.stopped hl).1, hspawn⟩
  requested := hrequested
  shut := by
    intro hl
    rw [hreturn, Bool.or_false] at hl
    have hmust := (h.shut hl).2.2 a hact
    rw [hfresh] at hmust
    cases hmust

/-- A stop that returns leaves no child. -/
theorem Latched.returns (h : Latched (s, l)) {a : Activity} {caller : StopCaller}
    (hact : s.activity = some a) (hcaller : a.caller = some caller) (hnone : s.child = none)
    (hbase : Base (s.stopReturns caller)) {shut : Bool}
    (hshut : shut = true → l.shut = true ∨ caller = .shutdown) :
    Latched (s.stopReturns caller, { l with shut := shut }) := by
  have hkeeps : (s.stopReturns caller).stopRequested = s.stopRequested ∧
      (s.stopReturns caller).shutdownRequested = s.shutdownRequested ∧
      (s.stopReturns caller).child = none ∧
      ∀ b, (s.stopReturns caller).activity = some b → ∃ spec, b = .starting spec false := by
    cases caller with
    | stop => exact ⟨rfl, rfl, hnone, by rintro b ⟨⟩⟩
    | shutdown => exact ⟨rfl, rfl, hnone, by rintro b ⟨⟩⟩
    | switch spec =>
        refine ⟨rfl, rfl, hnone, ?_⟩
        rintro b ⟨⟩
        exact ⟨spec, rfl⟩
  obtain ⟨hstop, hreq, hchild, hafter⟩ := hkeeps
  exact {
    base := hbase
    stopped := by
      intro hl
      refine ⟨hstop.trans (h.stopped hl).1, fun spec hspec => ?_⟩
      obtain ⟨t, ht⟩ := hafter _ hspec
      cases ht
    requested := by
      intro b hb hmust
      obtain ⟨t, rfl⟩ := hafter b hb
      cases hmust
    shut := by
      intro hl
      refine ⟨hreq.trans ?_, hchild, fun b hb => ?_⟩
      · rcases hshut hl with hl | rfl
        · exact (h.shut hl).1
        · exact h.requested a hact hcaller
      · obtain ⟨t, rfl⟩ := hafter b hb
        rfl }

/-- The first section of a start. -/
theorem Latched.starts (h : Latched (s, l)) {spec : ServeSpec} {auto : Bool}
    {outcome : StartOutcome} (hact : s.activity = some (.starting spec auto))
    (hs : s.startSection spec auto = (outcome, s')) {next : Option Activity}
    (hnext : next = if outcome = .spawns then some (.spawning spec) else none)
    (hbase : Base { s' with activity := next }) :
    Latched ({ s' with activity := next }, { l with stopped := auto && l.stopped }) := by
  rcases startSection_cases hs with ⟨hout, hkept⟩ | ⟨rfl, -, hopen, hauto, rfl⟩
  · rw [if_neg hout] at hnext
    subst hnext
    have hkeeps : (auto = true → s'.stopRequested = s.stopRequested) ∧
        s'.shutdownRequested = s.shutdownRequested ∧ s'.child = s.child := by
      rcases hkept with rfl | ⟨rfl, rfl⟩
      · exact ⟨fun _ => rfl, rfl, rfl⟩
      · exact ⟨by simp, rfl, rfl⟩
    obtain ⟨hstop, hreq, hchild⟩ := hkeeps
    exact {
      base := hbase
      stopped := by
        intro hl
        simp only [Bool.and_eq_true] at hl
        exact ⟨(hstop hl.1).trans (h.stopped hl.2).1, by simp⟩
      requested := by
        rintro b ⟨⟩
      shut := by
        intro hl
        obtain ⟨hlatched, hnone, -⟩ := h.shut hl
        exact ⟨hreq.trans hlatched, hchild.trans hnone, by rintro b ⟨⟩⟩ }
  · rw [if_pos rfl] at hnext
    subst hnext
    exact {
      base := hbase
      stopped := by
        intro hl
        simp only [Bool.and_eq_true] at hl
        have hlatched := (h.stopped hl.2).1
        rw [hauto hl.1] at hlatched
        cases hlatched
      requested := by
        rintro b ⟨⟩ hcaller
        cases hcaller
      shut := by
        intro hl
        have hlatched := (h.shut hl).1
        rw [hopen] at hlatched
        cases hlatched }

theorem Latched.stops (h : Latched (s, l)) {caller : StopCaller} {force : Bool}
    (hact : s.activity = some (.stopping caller force)) {shut : Bool}
    (hbase : Base (s.stopSection caller force))
    (hshut : shut = true → l.shut = true ∨ (caller = .shutdown ∧ s.child = none)) :
    Latched (s.stopSection caller force, { stopped := true, shut := shut }) := by
  have hlatched : Latched ({ s with stopRequested := true }, { l with stopped := true }) := {
    base := h.base.same rfl rfl rfl rfl rfl
    stopped := fun _ => ⟨rfl, by simp [hact]⟩
    requested := h.requested
    shut := h.shut }
  cases hchild : s.child with
  | none =>
      rw [stopSection_none hchild] at hbase ⊢
      exact hlatched.returns hact rfl hchild hbase fun hl => (hshut hl).imp_right And.left
  | some n =>
      rw [stopSection_some hchild] at hbase ⊢
      exact {
        base := hbase
        stopped := fun _ => ⟨rfl, by simp⟩
        requested := by
          rintro b ⟨⟩ hcaller
          exact h.requested _ hact hcaller
        shut := by
          intro hl
          rcases hshut hl with hl | ⟨-, hnone⟩
          · rw [(h.shut hl).2.1] at hchild
            cases hchild
          · rw [hnone] at hchild
            cases hchild }

/-- A stop holds its child on. -/
structure HoldsOn (s s' : ServeManager) (caller : StopCaller) : Prop where
  stopRequested : s'.stopRequested = s.stopRequested
  shutdownRequested : s'.shutdownRequested = s.shutdownRequested
  activity : ∃ b, s'.activity = some b ∧ b.caller = some caller ∧ b.fresh = false

theorem prepareSection_holdsOn (caller : StopCaller) (n : Nat) (spec : Option ServeSpec)
    (force : Bool) (answer : PrepareAnswer) (stats : Option AccountingSnapshot) (now : Nat)
    (writes : Bool) :
    HoldsOn s (s.prepareSection caller n spec force answer stats now writes) caller := by
  unfold prepareSection
  split
  · exact ⟨rfl, rfl, _, rfl, rfl, rfl⟩
  · split
    · exact ⟨rfl, rfl, _, rfl, rfl, rfl⟩
    · exact ⟨rfl, rfl, _, rfl, rfl, rfl⟩

theorem signalChild_holdsOn (caller : StopCaller) (n : Nat) (killed sent : Bool) :
    HoldsOn s (s.signalChild caller n killed sent) caller := by
  unfold signalChild
  split
  · exact ⟨rfl, rfl, _, rfl, rfl, rfl⟩
  · exact ⟨rfl, rfl, _, rfl, rfl, rfl⟩

theorem Latched.holdsOn (h : Latched (s, l)) {a : Activity} {caller : StopCaller}
    (hact : s.activity = some a) (hcaller : a.caller = some caller) (hfresh : a.fresh = false)
    (hbase : Base s') (hholds : HoldsOn s s' caller) :
    Latched (s', { l with shut := l.shut || shutdownReturns s s' }) := by
  obtain ⟨b, hb, hsame, hbusy⟩ := hholds.activity
  refine h.carries hact hfresh hbase hholds.stopRequested ?_ ?_ ?_
  · intro spec hspec
    rw [hb] at hspec
    cases hspec
    cases hsame
  · intro b' hb' hmust
    rw [hb] at hb'
    cases hb'
    rw [hsame] at hmust
    rw [hholds.shutdownRequested]
    exact h.requested a hact (hcaller.trans hmust)
  · by_contra hret
    unfold shutdownReturns at hret
    split at hret <;> simp_all

/-- The holder of the lifecycle lock goes on and the latch notes it. -/
theorem Latched.activityStep (h : Latched (s, l)) {activity : Activity} {a : Action}
    (hact : s.activity = some activity) (hs : s.activityStep activity a = some s') :
    Latched (s', latch s a s' l) := by
  have hbase : Base s' := h.base.activityStep hact hs
  have hcalls : activity.caller = some .shutdown → s.shutdownRequested = true :=
    h.requested activity hact
  have hreturns : shutdownReturns s s' = true → activity.caller = some .shutdown := by
    intro hret
    obtain ⟨b, hb, hcaller⟩ := shutdownReturns_caller hret
    rw [hact] at hb
    cases hb
    exact hcaller
  cases a with
  | startSection =>
      cases activity with
      | starting spec auto =>
          have hquiet : shutdownReturns s s' = false := by
            by_contra hret
            cases hreturns (by simpa using hret)
          have hlatch : latch s .startSection s' l = { l with stopped := auto && l.stopped } := by
            unfold latch
            rw [hquiet, hact, Bool.or_false]
            cases auto <;> rfl
          rw [hlatch]
          simp only [ServeManager.activityStep] at hs
          split at hs
          · cases hs
          · split at hs
            · next t hout =>
                cases hs
                exact h.starts hact hout rfl hbase
            · next outcome t hne hout =>
                cases hs
                have hnot : outcome ≠ .spawns := by
                  rintro rfl
                  exact hne rfl
                exact h.starts hact hout (if_neg hnot).symm hbase
      | _ => cases hs
  | spawn ok =>
      cases activity with
      | spawning spec =>
          simp only [ServeManager.activityStep] at hs
          split at hs <;> cases hs
          · exact h.carries hact rfl hbase rfl (by simp) (by rintro b ⟨⟩ ⟨⟩)
              (by simp [shutdownReturns, hact])
          · exact h.carries hact rfl hbase rfl (by simp) (by rintro b ⟨⟩)
              (by simp [shutdownReturns, hact])
      | _ => cases hs
  | attach =>
      cases activity with
      | spawned spec n =>
          cases hs
          exact h.carries hact rfl hbase rfl (by simp [attach]) (by rintro b ⟨⟩ ⟨⟩)
            (by simp [shutdownReturns, hact])
      | _ => cases hs
  | save ok =>
      cases activity with
      | saving spec n =>
          simp only [ServeManager.activityStep] at hs
          split at hs <;> cases hs
          · exact h.carries hact rfl hbase rfl (by simp) (by rintro b ⟨⟩ ⟨⟩)
              (by simp [shutdownReturns, hact])
          · exact h.carries hact rfl hbase rfl (by simp) (by rintro b ⟨⟩)
              (by simp [shutdownReturns, hact])
      | _ => cases hs
  | watch ok =>
      cases activity with
      | watching n =>
          simp only [ServeManager.activityStep] at hs
          split at hs <;> cases hs
          · exact h.carries hact rfl hbase rfl (by simp) (by rintro b ⟨⟩)
              (by simp [shutdownReturns, hact])
          · exact h.carries hact rfl hbase rfl (by simp) (by rintro b ⟨⟩)
              (by simp [shutdownReturns, hact])
      | _ => cases hs
  | stopSection =>
      cases activity with
      | stopping caller force =>
          simp only [ServeManager.activityStep] at hs
          split at hs
          · cases hs
          · cases hs
            refine h.stops hact hbase fun hl => ?_
            rcases Bool.or_eq_true_iff.1 hl with hl | hret
            · exact .inl hl
            · refine .inr ⟨Option.some.inj (hreturns hret), ?_⟩
              cases hchild : s.child with
              | none => rfl
              | some n =>
                  rw [stopSection_some hchild] at hret
                  simp [shutdownReturns, hact] at hret
                  split at hret <;> cases hret
      | _ => cases hs
  | prepare answer stats now writes =>
      cases activity with
      | preparing caller n spec force =>
          cases hs
          exact h.holdsOn hact rfl rfl hbase
            (prepareSection_holdsOn caller n spec force answer stats now writes)
      | _ => cases hs
  | signal sent =>
      cases activity with
      | signalling caller n =>
          simp only [ServeManager.activityStep] at hs
          split at hs
          · next hr =>
              cases hs
              have hheld := h.base.activity
              rw [hact] at hheld
              refine h.returns hact rfl (h.base.released hr hheld).2 hbase fun hl => ?_
              exact (Bool.or_eq_true_iff.1 hl).imp_right fun hret => Option.some.inj (hreturns hret)
          · cases hs
            exact h.holdsOn hact rfl rfl hbase (signalChild_holdsOn caller n false sent)
      | _ => cases hs
  | await outcome =>
      cases activity with
      | awaiting caller n killed =>
          cases outcome with
          | reaped =>
              simp only [ServeManager.activityStep] at hs
              split at hs
              · next hr =>
                  cases hs
                  have hheld := h.base.activity
                  rw [hact] at hheld
                  refine h.returns hact rfl (h.base.released hr hheld).2 hbase fun hl => ?_
                  exact (Bool.or_eq_true_iff.1 hl).imp_right fun hret =>
                    Option.some.inj (hreturns hret)
              · cases hs
          | timeout sent =>
              simp only [ServeManager.activityStep] at hs
              split at hs
              · cases hs
              · split at hs
                · cases hs
                  exact h.holdsOn hact rfl rfl hbase ⟨rfl, rfl, _, rfl, rfl, rfl⟩
                · cases hs
                  exact h.holdsOn hact rfl rfl hbase (signalChild_holdsOn caller n true sent)
      | _ => cases outcome <;> cases hs
  | abandon =>
      cases activity with
      | abandoning caller n =>
          cases hs
          have hheld := h.base.activity
          rw [hact] at hheld
          rw [abandonSection_eq caller (hheld.2.imp And.left And.right)] at hbase ⊢
          exact h.carries hact rfl hbase rfl (by simp) (by rintro b ⟨⟩)
            (by simp [shutdownReturns, hact])
      | _ => cases hs
  | _ => cases hs

/-- Every section keeps what `Latched` says. -/
theorem Latched.next {p p' : ServeManager × Latch} {a : Action} (h : Latched p)
    (hs : observed step latch p a = some p') : Latched p' := by
  obtain ⟨s, l⟩ := p
  simp only [observed, Option.map_eq_some_iff] at hs
  obtain ⟨s', hs, rfl⟩ := hs
  have hbase : Base s' := h.base.step hs
  have hback : shutdownReturns s s' = false → Latched (s', l) →
      Latched (s', { l with shut := l.shut || shutdownReturns s s' }) := by
    intro hret hlatched
    rw [hret, Bool.or_false]
    exact hlatched
  have hidle : s.activity = none → shutdownReturns s s' = false := by
    intro hnone
    simp [shutdownReturns, hnone]
  have hnone : ∀ {t t' : ServeManager} {activity : Activity}, t.enter activity = some t' →
      t.activity = none ∧ t' = { t with activity := some activity } := by
    intro t t' activity ht
    unfold enter at ht
    split at ht
    · next hactivity =>
        cases ht
        exact ⟨hactivity, rfl⟩
    · cases ht
  cases a with
  | callStart spec =>
      obtain ⟨hactivity, rfl⟩ := hnone hs
      exact hback (hidle hactivity) (h.enters rfl id (by simp [Activity.caller]) hbase)
  | callStop force =>
      obtain ⟨hactivity, rfl⟩ := hnone hs
      exact hback (hidle hactivity) (h.enters rfl id (by simp [Activity.caller]) hbase)
  | callSwitch spec force =>
      obtain ⟨hactivity, rfl⟩ := hnone hs
      exact hback (hidle hactivity) (h.enters rfl id (by simp [Activity.caller]) hbase)
  | callShutdown force =>
      simp only [step, Option.map_eq_some_iff] at hs
      obtain ⟨t, ht, rfl⟩ := hs
      obtain ⟨hactivity, rfl⟩ := hnone ht
      exact hback (hidle hactivity) (h.enters rfl (fun _ => rfl) (fun _ => rfl) hbase)
  | runRestart i =>
      simp only [step, Option.bind_eq_some_iff] at hs
      obtain ⟨spec, -, hs⟩ := hs
      obtain ⟨hactivity, rfl⟩ := hnone hs
      have hpopped : Latched ({ s with restarts := s.restarts.eraseIdx i }, l) :=
        h.beside (h.base.same rfl rfl rfl rfl rfl) rfl rfl id id
      exact hback (hidle hactivity) (hpopped.enters rfl id (by simp [Activity.caller]) hbase)
  | exits n info =>
      simp only [step, Option.bind_eq_some_iff] at hs
      obtain ⟨c, hc, hs⟩ := hs
      split at hs
      · cases hs
        exact hback (shutdownReturns_same rfl) (h.beside hbase rfl rfl id id)
      · cases hs
  | monitor n now writes =>
      simp only [step, Option.bind_eq_some_iff] at hs
      obtain ⟨c, hc, hs⟩ := hs
      obtain ⟨hactivity, hshut, hstop, hchild⟩ := monitorSection_beside hs
      exact hback (shutdownReturns_same hactivity) (h.beside hbase hactivity hshut hstop hchild)
  | ack receiptId =>
      cases hs
      exact hback (shutdownReturns_same rfl) (h.beside hbase rfl rfl id id)
  | observe totals =>
      cases hs
      obtain ⟨last, hlast⟩ := observeAccounting_eq s totals
      rw [hlast] at hbase hback ⊢
      exact hback (shutdownReturns_same rfl) (h.beside hbase rfl rfl id id)
  | _ =>
      simp only [step, Option.bind_eq_some_iff] at hs
      obtain ⟨activity, hact, hs⟩ := hs
      exact h.activityStep hact hs

theorem latched_start (autoRestart : Bool) : Latched ({ autoRestart := autoRestart }, {}) where
  base := base_start autoRestart
  stopped := by simp
  requested := by simp
  shut := by simp

end Steps

/-- In every run there is one serve, and a stop stays stopped. -/
theorem oneServe_always (autoRestart : Bool) (as : List Action) :
    Always (observed step latch) (fun p _ => OneServe p) ({ autoRestart := autoRestart }, {}) as :=
  always_of_invariant (fun h _ hs => Latched.next h hs) (fun h _ => h.oneServe)
    (latched_start autoRestart) (keeps_any _ as)

end ServeManager

end FreeToken
