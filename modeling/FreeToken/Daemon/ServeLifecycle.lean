import FreeToken.Daemon.ServeManager

/-!
# One serve at a time

What every section of the supervisor keeps: the manager's child is the only one that has not been
forgotten, but for one that a start has spawned and not attached yet.
-/

set_option autoImplicit false

namespace FreeToken

open Machine

/-- The monitor has not made the manager forget the child. -/
def MonitorStage.current : MonitorStage → Bool
  | .unwatched | .waiting | .accounting _ | .accountingFailed _ | .forgetting _ => true
  | _ => false

/-- The child runs and has not been reaped. -/
def ServeChild.live (c : ServeChild) : Bool := c.exit.isNone && !c.reaped

/-- What holds of a child by itself. -/
structure ServeChild.Consistent (c : ServeChild) : Prop where
  reaped : c.reaped = true → c.monitor.current = false
  running : c.exit = none → c.monitor = .unwatched ∨ c.monitor = .waiting

namespace ServeManager

/-- A child that no monitor watches yet. -/
def Unwatched (s : ServeManager) (spec : ServeSpec) (n : Nat) : Prop :=
  ∃ c, s.children[n]? = some c ∧ c.spec = spec ∧ c.monitor = .unwatched

/-- What holds where the holder of the lifecycle lock stands. -/
def Stands (s : ServeManager) : Option Activity → Prop
  | none | some (.starting _ _) | some (.stopping _ _) => s.starting = false ∧ s.stopping = false
  | some (.spawning _) => s.starting = true ∧ s.stopping = false ∧ s.child = none
  | some (.spawned spec n) =>
      s.starting = true ∧ s.stopping = false ∧ s.child = none ∧ s.Unwatched spec n
  | some (.saving spec n) =>
      s.starting = false ∧ s.stopping = false ∧ s.child = some n ∧ s.Unwatched spec n
  | some (.watching n) =>
      s.starting = false ∧ s.stopping = false ∧ s.child = some n ∧ ∃ spec, s.Unwatched spec n
  | some (.preparing _ n _ _) | some (.signalling _ n) | some (.awaiting _ n _)
  | some (.abandoning _ n) =>
      s.starting = false ∧
        ((s.child = some n ∧ s.stopping = true) ∨ (s.child = none ∧ s.stopping = false))

structure Base (s : ServeManager) : Prop where
  activity : s.Stands s.activity
  child : ∀ {n : Nat}, s.child = some n →
    ∃ c, s.children[n]? = some c ∧ c.monitor.current = true
  current : ∀ {n : Nat} {c : ServeChild}, s.children[n]? = some c → c.monitor.current = true →
    s.child = some n ∨ ∃ spec, s.activity = some (.spawned spec n)
  each : ∀ {n : Nat} {c : ServeChild}, s.children[n]? = some c → c.Consistent

section Steps

variable {s s' : ServeManager} {n m : Nat} {c d : ServeChild} {f : ServeChild → ServeChild}

theorem update_self (hc : s.children[n]? = some c) :
    (s.update n f).children[n]? = some (f c) := by
  unfold update
  rw [List.getElem?_modify, hc]
  simp

/-- A child after an update of one of them. -/
theorem update_cases (hc : s.children[n]? = some c) (h : (s.update n f).children[m]? = some d) :
    (m = n ∧ d = f c) ∨ (m ≠ n ∧ s.children[m]? = some d) := by
  unfold update at h
  rw [List.getElem?_modify] at h
  by_cases heq : n = m
  · subst heq
    rw [hc] at h
    simp only [if_true, Option.map_eq_map, Option.map_some, Option.some.injEq] at h
    exact .inl ⟨rfl, h.symm⟩
  · simp only [heq, if_false, Option.map_eq_map, Option.map_id'] at h
    exact .inr ⟨Ne.symm heq, h⟩

theorem update_ne (hne : m ≠ n) : (s.update n f).children[m]? = s.children[m]? := by
  unfold update
  rw [List.getElem?_modify]
  simp [Ne.symm hne]

theorem Unwatched.update {spec : ServeSpec} (h : s.Unwatched spec m) (hc : s.children[n]? = some c)
    (hspec : (f c).spec = c.spec) (hkeep : c.monitor = .unwatched → (f c).monitor = .unwatched) :
    (s.update n f).Unwatched spec m := by
  obtain ⟨d, hd, hs, hw⟩ := h
  by_cases heq : m = n
  · subst heq
    rw [hc] at hd
    cases hd
    exact ⟨f c, update_self hc, hspec.trans hs, hkeep hw⟩
  · exact ⟨d, (update_ne heq).trans hd, hs, hw⟩

/-- A section that changes one child, which stays forgotten or not. -/
theorem Base.update (h : Base s) (hc : s.children[n]? = some c) (hspec : (f c).spec = c.spec)
    (hkeep : c.monitor = .unwatched → (f c).monitor = .unwatched)
    (hcurrent : (f c).monitor.current = c.monitor.current) (heach : (f c).Consistent) :
    Base (s.update n f) where
  activity := by
    have hstands := h.activity
    have hact : (s.update n f).activity = s.activity := rfl
    rw [hact]
    cases hactivity : s.activity with
    | none => rwa [hactivity] at hstands
    | some a =>
        rw [hactivity] at hstands
        cases a with
        | spawned spec k =>
            obtain ⟨hstart, hstop, hchild, hun⟩ := hstands
            exact ⟨hstart, hstop, hchild, hun.update hc hspec hkeep⟩
        | saving spec k =>
            obtain ⟨hstart, hstop, hchild, hun⟩ := hstands
            exact ⟨hstart, hstop, hchild, hun.update hc hspec hkeep⟩
        | watching k =>
            obtain ⟨hstart, hstop, hchild, spec, hun⟩ := hstands
            exact ⟨hstart, hstop, hchild, spec, hun.update hc hspec hkeep⟩
        | _ => exact hstands
  child := by
    intro m hm
    obtain ⟨d, hd, hcur⟩ := h.child hm
    by_cases heq : m = n
    · subst heq
      rw [hc] at hd
      cases hd
      exact ⟨f c, update_self hc, hcurrent.trans hcur⟩
    · exact ⟨d, (update_ne heq).trans hd, hcur⟩
  current := by
    intro m d hd hcur
    rcases update_cases hc hd with ⟨rfl, rfl⟩ | ⟨-, hd⟩
    · exact h.current hc (hcurrent.symm.trans hcur)
    · exact h.current hd hcur
  each := by
    intro m d hd
    rcases update_cases hc hd with ⟨rfl, rfl⟩ | ⟨-, hd⟩
    · exact heach
    · exact h.each hd

/-- A section that leaves what `Base` is about as it was. -/
theorem Base.same (h : Base s) (hactivity : s'.activity = s.activity) (hchild : s'.child = s.child)
    (hchildren : s'.children = s.children) (hstarting : s'.starting = s.starting)
    (hstopping : s'.stopping = s.stopping) : Base s' where
  activity := by
    have hstands := h.activity
    rw [hactivity]
    cases hact : s.activity with
    | none =>
        rw [hact] at hstands
        simpa only [Stands, hstarting, hstopping] using hstands
    | some a =>
        rw [hact] at hstands
        cases a <;>
          simpa only [Stands, Unwatched, hchild, hchildren, hstarting, hstopping] using hstands
  child := by
    rw [hchild, hchildren]
    exact h.child
  current := by
    rw [hchild, hchildren, hactivity]
    exact h.current
  each := by
    rw [hchildren]
    exact h.each

/-- The holder of the lifecycle lock goes on. -/
theorem Base.goes (h : Base s) {a : Option Activity} (hstands : s.Stands a)
    (hnot : ∀ spec n, s.activity ≠ some (.spawned spec n)) : Base { s with activity := a } where
  activity := by
    cases a with
    | none => exact hstands
    | some a => cases a <;> exact hstands
  child := h.child
  current := by
    intro n c hc hcur
    rcases h.current hc hcur with hchild | ⟨spec, hact⟩
    · exact .inl hchild
    · exact absurd hact (hnot spec n)
  each := h.each

/-- What the first section of a start does. -/
theorem startSection_cases {spec : ServeSpec} {auto : Bool} {outcome : StartOutcome}
    (h : s.startSection spec auto = (outcome, s')) :
    (outcome ≠ .spawns ∧
      (s' = s ∨ (auto = false ∧ s' = { s with stopRequested := false }))) ∨
    (outcome = .spawns ∧ (s.child = none ∨ s.stopping = true) ∧ s.shutdownRequested = false ∧
      (auto = true → s.stopRequested = false) ∧
      s' = { s with starting := true, stopRequested := false }) := by
  unfold startSection at h
  by_cases hshut : s.shutdownRequested = true
  · rw [if_pos hshut] at h
    cases h
    refine .inl ⟨?_, .inl rfl⟩
    cases auto <;> simp
  · rw [if_neg hshut] at h
    by_cases hlatched : (auto && s.stopRequested) = true
    · rw [if_pos hlatched] at h
      cases h
      exact .inl ⟨by simp, .inl rfl⟩
    · rw [if_neg hlatched] at h
      have hauto : auto = true → s.stopRequested = false := by
        intro ha
        simpa [ha] using hlatched
      have hreset : (if auto then s else { s with stopRequested := false })
          = { s with stopRequested := false } := by
        cases auto with
        | false => rfl
        | true => rw [if_pos rfl, ← hauto rfl]
      simp only [hreset] at h
      have hrefused : s.stopRequested = false ∨ auto = false := by
        cases auto with
        | false => exact .inr rfl
        | true => exact .inl (hauto rfl)
      have hkept : { s with stopRequested := false } = s
          ∨ (auto = false ∧ { s with stopRequested := false } = { s with stopRequested := false }) := by
        rcases hrefused with hr | hr
        · exact .inl (by rw [← hr])
        · exact .inr ⟨hr, rfl⟩
      split at h
      · split at h <;> cases h <;> exact .inl ⟨by simp, hkept⟩
      · next hfree =>
          simp only [Bool.and_false, Bool.false_eq_true, if_false] at h
          cases h
          refine .inr ⟨rfl, ?_, by simpa using hshut, hauto, rfl⟩
          cases hchild : s.child with
          | none => exact .inl rfl
          | some n => exact .inr (by simpa using hfree n hchild)

/-- A call waits for the lifecycle lock. -/
theorem Base.enter (h : Base s) {a : Activity} (hstands : s.Stands none → s.Stands (some a))
    (hs : s.enter a = some s') : Base s' := by
  unfold ServeManager.enter at hs
  split at hs
  · next hidle =>
      cases hs
      have hnone : s.Stands none := by
        have hstands := h.activity
        rwa [hidle] at hstands
      exact h.goes (hstands hnone) (by simp [hidle])
  · cases hs

theorem Base.starts (h : Base s) {spec : ServeSpec} {auto : Bool} {outcome : StartOutcome}
    (hact : s.activity = some (.starting spec auto))
    (hs : s.startSection spec auto = (outcome, s')) :
    Base { s' with activity := if outcome = .spawns then some (.spawning spec) else none } := by
  have hstands := h.activity
  rw [hact] at hstands
  obtain ⟨hstarting, hstopping⟩ := hstands
  have hnot : ∀ t n, s.activity ≠ some (.spawned t n) := by simp [hact]
  rcases startSection_cases hs with ⟨hout, hkept⟩ | ⟨rfl, hfree, -, -, rfl⟩
  · rw [if_neg hout]
    have hs' : Base s' := by
      rcases hkept with rfl | ⟨-, rfl⟩
      · exact h
      · exact h.same rfl rfl rfl rfl rfl
    rcases hkept with rfl | ⟨-, rfl⟩
    · exact hs'.goes ⟨hstarting, hstopping⟩ hnot
    · exact hs'.goes ⟨hstarting, hstopping⟩ hnot
  · rw [if_pos rfl]
    have hnone : s.child = none := by
      rcases hfree with hnone | hstop
      · exact hnone
      · simp [hstopping] at hstop
    exact {
      activity := ⟨rfl, hstopping, hnone⟩
      child := h.child
      current := by
        intro n c hc hcur
        rcases h.current hc hcur with hchild | ⟨t, ht⟩
        · exact .inl hchild
        · exact absurd ht (hnot t n)
      each := h.each }

/-- A child after another one was spawned. -/
theorem spawn_cases {children : List ServeChild} (h : (children ++ [c])[n]? = some d) :
    children[n]? = some d ∨ (n = children.length ∧ d = c) := by
  rcases Nat.lt_or_ge n children.length with hlt | hge
  · rw [List.getElem?_append_left hlt] at h
    exact .inl h
  · rw [List.getElem?_append_right hge, List.getElem?_singleton] at h
    split at h
    · next hzero =>
        cases h
        exact .inr ⟨by omega, rfl⟩
    · cases h

/-- A child is spawned where none is live. -/
theorem Base.spawns (h : Base s) {spec : ServeSpec} (hact : s.activity = some (.spawning spec)) :
    Base { s with
      children := s.children ++ [{ spec := spec }]
      activity := some (.spawned spec s.children.length) } := by
  have hstands := h.activity
  rw [hact] at hstands
  obtain ⟨hstarting, hstopping, hnone⟩ := hstands
  have hlast : (s.children ++ [({ spec := spec } : ServeChild)])[s.children.length]?
      = some { spec := spec } := by simp
  refine ⟨⟨hstarting, hstopping, hnone, _, hlast, rfl, rfl⟩, ?_, ?_, ?_⟩
  · intro n hn
    simp only [hnone] at hn
    cases hn
  · intro n c hc hcur
    rcases spawn_cases hc with hold | ⟨rfl, rfl⟩
    · rcases h.current hold hcur with hchild | ⟨t, ht⟩
      · exact .inl hchild
      · rw [hact] at ht
        cases ht
    · exact .inr ⟨spec, rfl⟩
  · intro n c hc
    rcases spawn_cases hc with hold | ⟨rfl, rfl⟩
    · exact h.each hold
    · exact ⟨by simp, fun _ => .inl rfl⟩

theorem Base.attaches (h : Base s) {spec : ServeSpec}
    (hact : s.activity = some (.spawned spec n)) : Base (s.attach spec n) := by
  have hstands := h.activity
  rw [hact] at hstands
  obtain ⟨-, -, hnone, hun⟩ := hstands
  refine ⟨⟨rfl, rfl, rfl, hun⟩, ?_, ?_, h.each⟩
  · intro m hm
    cases hm
    obtain ⟨c, hc, -, hw⟩ := hun
    exact ⟨c, hc, by rw [hw]; rfl⟩
  · intro m c hc hcur
    rcases h.current hc hcur with hchild | ⟨t, ht⟩
    · rw [hnone] at hchild
      cases hchild
    · rw [hact] at ht
      cases ht
      exact .inl rfl

/-- The start of a child has written its state, or raised. -/
theorem Base.saves (h : Base s) {spec : ServeSpec} (hact : s.activity = some (.saving spec n))
    (ok : Bool) (hs : s.activityStep (.saving spec n) (.save ok) = some s') : Base s' := by
  have hstands := h.activity
  rw [hact] at hstands
  obtain ⟨hstarting, hstopping, hchild, hun⟩ := hstands
  have hnot : ∀ t n, s.activity ≠ some (.spawned t n) := by simp [hact]
  simp only [activityStep] at hs
  split at hs
  · cases hs
    have hfile : Base { s with file := some (n, spec) } := h.same rfl rfl rfl rfl rfl
    exact hfile.goes ⟨hstarting, hstopping, hchild, spec, hun⟩ hnot
  · cases hs
    obtain ⟨c, hc, -, hw⟩ := hun
    have hraised : Base (s.update n fun c => { c with startRaised := true }) :=
      h.update hc rfl id rfl ⟨(h.each hc).reaped, (h.each hc).running⟩
    exact hraised.goes ⟨hstarting, hstopping⟩ hnot

theorem Base.watches (h : Base s) (hact : s.activity = some (.watching n)) (ok : Bool)
    (hs : s.activityStep (.watching n) (.watch ok) = some s') : Base s' := by
  have hstands := h.activity
  rw [hact] at hstands
  obtain ⟨hstarting, hstopping, hchild, spec, c, hc, -, hw⟩ := hstands
  have hnot : ∀ t n, s.activity ≠ some (.spawned t n) := by simp [hact]
  have hidle : Base { s with activity := none } := h.goes ⟨hstarting, hstopping⟩ hnot
  simp only [activityStep] at hs
  split at hs
  · cases hs
    exact {
      activity := ⟨hstarting, hstopping⟩
      child := by
        intro m hm
        obtain ⟨d, hd, hcur⟩ := h.child hm
        by_cases heq : m = n
        · subst heq
          exact ⟨_, update_self hc, rfl⟩
        · exact ⟨d, (update_ne heq).trans hd, hcur⟩
      current := by
        intro m d hd hcur
        rcases update_cases hc hd with ⟨rfl, -⟩ | ⟨-, hd⟩
        · exact .inl hchild
        · exact hidle.current hd hcur
      each := by
        intro m d hd
        rcases update_cases hc hd with ⟨rfl, rfl⟩ | ⟨-, hd⟩
        · refine ⟨fun hr => ?_, fun _ => .inr rfl⟩
          have hgone := (h.each hc).reaped hr
          simp [hw, MonitorStage.current] at hgone
        · exact h.each hd }
  · cases hs
    exact hidle.update hc rfl id rfl ⟨(h.each hc).reaped, (h.each hc).running⟩

theorem Base.returns (h : Base s) (hstands : s.Stands none)
    (hnot : ∀ spec n, s.activity ≠ some (.spawned spec n)) (caller : StopCaller) :
    Base (s.stopReturns caller) := by
  cases caller with
  | stop => exact h.goes hstands hnot
  | shutdown => exact h.goes hstands hnot
  | switch spec => exact h.goes hstands hnot

theorem stopSection_none {caller : StopCaller} {force : Bool} (h : s.child = none) :
    s.stopSection caller force = ({ s with stopRequested := true }).stopReturns caller := by
  unfold stopSection
  simp only
  split
  · rfl
  · next n hn => simp [h] at hn

theorem stopSection_some {caller : StopCaller} {force : Bool} (h : s.child = some n) :
    s.stopSection caller force = { s with
      stopRequested := true
      stopping := true
      activity := some (.preparing caller n s.spec force) } := by
  unfold stopSection
  simp only
  split
  · next hn => simp [h] at hn
  · next m hm =>
      rw [h] at hm
      cases hm
      rfl

theorem Base.stops (h : Base s) {caller : StopCaller} {force : Bool}
    (hact : s.activity = some (.stopping caller force)) : Base (s.stopSection caller force) := by
  have hstands := h.activity
  rw [hact] at hstands
  have hnot : ∀ t n, s.activity ≠ some (.spawned t n) := by simp [hact]
  cases hchild : s.child with
  | none =>
      have hlatched : Base { s with stopRequested := true } := h.same rfl rfl rfl rfl rfl
      rw [stopSection_none hchild]
      exact hlatched.returns hstands hnot caller
  | some n =>
      rw [stopSection_some hchild]
      exact {
        activity := ⟨hstands.1, .inl ⟨hchild, rfl⟩⟩
        child := h.child
        current := by
          intro m c hc hcur
          rcases h.current hc hcur with hm | ⟨t, ht⟩
          · exact .inl hm
          · exact absurd ht (hnot t m)
        each := h.each }

/-- Who holds a child in a stop. -/
theorem Base.prepares (h : Base s) {caller : StopCaller} {spec : Option ServeSpec} {force : Bool}
    (hact : s.activity = some (.preparing caller n spec force)) (answer : PrepareAnswer)
    (stats : Option AccountingSnapshot) (now : Nat) (writes : Bool) :
    Base (s.prepareSection caller n spec force answer stats now writes) := by
  have hstands := h.activity
  rw [hact] at hstands
  have hnot : ∀ t n, s.activity ≠ some (.spawned t n) := by simp [hact]
  have habandons : Base { s with activity := some (.abandoning caller n) } := h.goes hstands hnot
  unfold prepareSection
  split
  · exact habandons
  · next kind r hr =>
      split
      · have hpersist : Base (s.persist n kind r) := h.same rfl rfl rfl rfl rfl
        exact hpersist.goes hstands hnot
      · exact habandons

/-- A reaped child is not the manager's. -/
theorem Base.reaped (h : Base s) (hr : s.isReaped n = true) : s.child ≠ some n := by
  intro hchild
  obtain ⟨c, hc, hcur⟩ := h.child hchild
  have hreaped : c.reaped = true := by simpa [isReaped, hc] using hr
  rw [(h.each hc).reaped hreaped] at hcur
  cases hcur

/-- A stop whose child was reaped finds the manager without one. -/
theorem Base.released (h : Base s) (hr : s.isReaped n = true)
    (hheld : s.starting = false ∧
      ((s.child = some n ∧ s.stopping = true) ∨ (s.child = none ∧ s.stopping = false))) :
    s.Stands none ∧ s.child = none := by
  rcases hheld with ⟨hstarting, ⟨hchild, -⟩ | ⟨hchild, hstopping⟩⟩
  · exact absurd hchild (h.reaped hr)
  · exact ⟨⟨hstarting, hstopping⟩, hchild⟩

theorem Base.signals (h : Base s) {caller : StopCaller}
    (hact : s.activity = some (.signalling caller n) ∨
      ∃ killed, s.activity = some (.awaiting caller n killed))
    (killed sent : Bool) : Base (s.signalChild caller n killed sent) := by
  have hstands := h.activity
  have hheld : s.Stands (some (.signalling caller n)) := by
    rcases hact with hact | ⟨killed, hact⟩ <;> (rw [hact] at hstands; exact hstands)
  have hnot : ∀ t n, s.activity ≠ some (.spawned t n) := by
    rcases hact with hact | ⟨killed, hact⟩ <;> simp [hact]
  unfold signalChild
  split
  · have hsent : Base { s with signals := n :: s.signals } := h.same rfl rfl rfl rfl rfl
    exact hsent.goes hheld hnot
  · exact h.goes hheld hnot

/-- A stop that gives up leaves no stop in progress. -/
theorem abandonSection_eq (caller : StopCaller)
    (hheld : s.child = some n ∨ s.stopping = false) :
    s.abandonSection caller n = { s with
      stopping := false
      shutdownRequested := match caller with
        | .shutdown => false
        | _ => s.shutdownRequested
      activity := none } := by
  have hfree : (if s.child = some n then { s with stopping := false } else s)
      = { s with stopping := false } := by
    split
    · rfl
    · next hchild =>
        have hstopping := hheld.resolve_left hchild
        rw [← hstopping]
  unfold abandonSection
  simp only [hfree]
  cases caller <;> rfl

theorem Base.abandons (h : Base s) {caller : StopCaller}
    (hact : s.activity = some (.abandoning caller n)) : Base (s.abandonSection caller n) := by
  have hheld := h.activity
  rw [hact] at hheld
  obtain ⟨hstarting, hheld⟩ := hheld
  have hnot : ∀ t n, s.activity ≠ some (.spawned t n) := by simp [hact]
  rw [abandonSection_eq caller (hheld.imp And.left And.right)]
  exact {
    activity := ⟨hstarting, rfl⟩
    child := h.child
    current := by
      intro m c hc hcur
      rcases h.current hc hcur with hm | ⟨t, ht⟩
      · exact .inl hm
      · exact absurd ht (hnot t m)
    each := h.each }

/-- The monitor makes the manager forget its child. -/
theorem Base.forgets (h : Base s) (hc : s.children[n]? = some c) (hchild : s.child = some n)
    (hwatched : c.monitor ≠ .unwatched) (hgone : (f c).monitor.current = false)
    (heach : (f c).Consistent) {info : Option ExitInfo} :
    Base (({ s with child := none, stopping := false, lastExit := info }).update n f) where
  activity := by
    have hstands := h.activity
    change Stands _ s.activity
    have hno : ∀ spec m, ¬ (s.child = some m ∧ s.Unwatched spec m) := by
      rintro spec m ⟨hm, d, hd, -, hw⟩
      rw [hchild] at hm
      cases hm
      rw [hc] at hd
      cases hd
      exact hwatched hw
    cases hactivity : s.activity with
    | none => exact ⟨(hactivity ▸ hstands : s.Stands none).1, rfl⟩
    | some a =>
        rw [hactivity] at hstands
        cases a with
        | starting spec auto => exact ⟨hstands.1, rfl⟩
        | stopping caller force => exact ⟨hstands.1, rfl⟩
        | spawning spec =>
            obtain ⟨-, -, hnone⟩ := hstands
            rw [hchild] at hnone
            cases hnone
        | spawned spec m =>
            obtain ⟨-, -, hnone, -⟩ := hstands
            rw [hchild] at hnone
            cases hnone
        | saving spec m => exact absurd hstands.2.2 (hno spec m)
        | watching m =>
            obtain ⟨-, -, hm, spec, hun⟩ := hstands
            exact absurd ⟨hm, hun⟩ (hno spec m)
        | preparing caller m spec force => exact ⟨hstands.1, .inr ⟨rfl, rfl⟩⟩
        | signalling caller m => exact ⟨hstands.1, .inr ⟨rfl, rfl⟩⟩
        | awaiting caller m killed => exact ⟨hstands.1, .inr ⟨rfl, rfl⟩⟩
        | abandoning caller m => exact ⟨hstands.1, .inr ⟨rfl, rfl⟩⟩
  child := by
    intro m hm
    cases hm
  current := by
    intro m d hd hcur
    rcases update_cases hc hd with ⟨rfl, rfl⟩ | ⟨hne, hd⟩
    · rw [hgone] at hcur
      cases hcur
    · rcases h.current hd hcur with hm | hspawned
      · rw [hchild] at hm
        cases hm
        exact absurd rfl hne
      · exact .inr hspawned
  each := by
    intro m d hd
    rcases update_cases hc hd with ⟨rfl, rfl⟩ | ⟨-, hd⟩
    · exact heach
    · exact h.each hd

/-- A child that exited stays consistent where its monitor goes on. -/
theorem consistent_of_current (h : c.Consistent) (hexit : c.exit ≠ none) {stage : MonitorStage}
    (hcurrent : stage.current = c.monitor.current) (raised : Bool) :
    ({ c with monitor := stage, outboxRaised := raised } : ServeChild).Consistent :=
  ⟨fun hr => hcurrent.trans (h.reaped hr), fun hrun => absurd hrun hexit⟩

/-- The monitor of a child goes on, and neither makes the manager forget it nor remember it. -/
theorem Base.proceeds (h : Base s) (hc : s.children[n]? = some c) (hexit : c.exit ≠ none)
    (hwatched : c.monitor ≠ .unwatched) {stage : MonitorStage}
    (hcurrent : stage.current = c.monitor.current) :
    Base (s.update n fun c => { c with monitor := stage }) :=
  h.update hc rfl (fun hw => absurd hw hwatched) hcurrent
    (consistent_of_current (h.each hc) hexit hcurrent c.outboxRaised)

/-- A watched child that was not forgotten is the manager's. -/
theorem Base.watched (h : Base s) (hc : s.children[n]? = some c) (hwatched : c.monitor ≠ .unwatched)
    (hcur : c.monitor.current = true) : s.child = some n := by
  rcases h.current hc hcur with hchild | ⟨spec, hact⟩
  · exact hchild
  · have hstands := h.activity
    rw [hact] at hstands
    obtain ⟨-, -, -, d, hd, -, hw⟩ := hstands
    rw [hc] at hd
    cases hd
    exact absurd hw hwatched

theorem Base.monitors (h : Base s) (hc : s.children[n]? = some c) (now : Nat) (writes : Bool)
    (hs : s.monitorSection n c now writes = some s') : Base s' := by
  have heach := h.each hc
  have hwatched : c.monitor ≠ .unwatched := by
    intro hw
    simp [monitorSection, hw] at hs
  have hexited : c.monitor ≠ .waiting → c.exit ≠ none := by
    intro hwait hrun
    rcases heach.running hrun with hw | hw
    · exact hwatched hw
    · exact hwait hw
  unfold monitorSection at hs
  cases hstage : c.monitor with
  | unwatched => exact absurd hstage hwatched
  | finished => simp [hstage] at hs
  | waiting =>
      simp only [hstage, Option.map_eq_some_iff] at hs
      obtain ⟨info, hexit, rfl⟩ := hs
      have hexit : c.exit ≠ none := by simp [hexit]
      split
      · exact h.proceeds hc hexit hwatched (by rw [hstage]; rfl)
      · exact h.proceeds hc hexit hwatched (by rw [hstage]; rfl)
  | accounting wasStopping =>
      have hexit : c.exit ≠ none := hexited (by simp [hstage])
      simp only [hstage] at hs
      split at hs
      · cases hs
        exact h.proceeds hc hexit hwatched (by rw [hstage]; rfl)
      · split at hs
        · cases hs
          have hpersist : Base (s.persist n .crash (s.crashReceipt n wasStopping now)) :=
            h.same rfl rfl rfl rfl rfl
          exact hpersist.proceeds hc hexit hwatched (by rw [hstage]; rfl)
        · cases hs
          exact h.update hc rfl (fun hw => absurd hw hwatched) (by rw [hstage]; rfl)
            (consistent_of_current heach hexit (by rw [hstage]; rfl) true)
  | accountingFailed wasStopping =>
      have hexit : c.exit ≠ none := hexited (by simp [hstage])
      simp only [hstage] at hs
      cases hs
      have hlatched : Base { s with stopRequested := true } := h.same rfl rfl rfl rfl rfl
      exact hlatched.proceeds hc hexit hwatched (by rw [hstage]; rfl)
  | forgetting wasStopping =>
      have hexit : c.exit ≠ none := hexited (by simp [hstage])
      simp only [hstage] at hs
      split at hs
      · next hchild =>
          cases hs
          exact h.forgets hc hchild hwatched rfl
            ⟨fun _ => rfl, fun hrun => absurd hrun hexit⟩
      · next hchild => exact absurd (h.watched hc hwatched (by rw [hstage]; rfl)) hchild
  | clearing wasStopping =>
      have hexit : c.exit ≠ none := hexited (by simp [hstage])
      simp only [hstage] at hs
      cases hs
      have hcleared : Base { s with file := none } := h.same rfl rfl rfl rfl rfl
      exact hcleared.proceeds hc hexit hwatched (by rw [hstage]; rfl)
  | setting wasStopping isCurrent =>
      have hexit : c.exit ≠ none := hexited (by simp [hstage])
      simp only [hstage] at hs
      cases hs
      have hgone : (if isCurrent then MonitorStage.deciding wasStopping else .finished).current
          = c.monitor.current := by
        rw [hstage]
        cases isCurrent <;> rfl
      exact h.update hc rfl (fun hw => absurd hw hwatched) hgone
        ⟨fun _ => hgone.trans (by rw [hstage]; rfl), fun hrun => absurd hrun hexit⟩
  | deciding wasStopping =>
      have hexit : c.exit ≠ none := hexited (by simp [hstage])
      simp only [hstage] at hs
      cases hs
      refine h.proceeds hc hexit hwatched ?_
      rw [hstage]
      split <;> rfl
  | restarting =>
      have hexit : c.exit ≠ none := hexited (by simp [hstage])
      simp only [hstage] at hs
      cases hs
      have hqueued : Base { s with restarts := s.restarts ++ s.spec.toList } :=
        h.same rfl rfl rfl rfl rfl
      exact hqueued.proceeds hc hexit hwatched (by rw [hstage]; rfl)

theorem Base.await (h : Base s) {caller : StopCaller} {killed : Bool} {outcome : WaitOutcome}
    (hact : s.activity = some (.awaiting caller n killed))
    (hs : s.activityStep (.awaiting caller n killed) (.await outcome) = some s') : Base s' := by
  have hheld := h.activity
  rw [hact] at hheld
  have hnot : ∀ t n, s.activity ≠ some (.spawned t n) := by simp [hact]
  cases outcome with
  | reaped =>
      simp only [activityStep] at hs
      split at hs
      · next hr =>
          cases hs
          exact h.returns (h.released hr hheld).1 hnot caller
      · cases hs
  | timeout sent =>
      simp only [activityStep] at hs
      split at hs
      · cases hs
      · split at hs
        · cases hs
          exact h.goes hheld hnot
        · cases hs
          exact h.signals (.inr ⟨killed, hact⟩) true sent

theorem Base.activityStep (h : Base s) {activity : Activity} {a : Action}
    (hact : s.activity = some activity) (hs : s.activityStep activity a = some s') : Base s' := by
  cases a with
  | startSection =>
      cases activity with
      | starting spec auto =>
          simp only [ServeManager.activityStep] at hs
          split at hs
          · cases hs
          · split at hs
            · next t hout =>
                cases hs
                exact h.starts hact hout
            · next outcome t hne hout =>
                cases hs
                have hnot : outcome ≠ .spawns := by
                  rintro rfl
                  exact hne rfl
                have hstarts := h.starts hact hout
                rwa [if_neg hnot] at hstarts
      | _ => cases hs
  | spawn ok =>
      cases activity with
      | spawning spec =>
          simp only [ServeManager.activityStep] at hs
          split at hs
          · cases hs
            exact h.spawns hact
          · cases hs
            have hstands := h.activity
            rw [hact] at hstands
            have hnot : ∀ t n, s.activity ≠ some (.spawned t n) := by simp [hact]
            exact {
              activity := ⟨rfl, hstands.2.1⟩
              child := h.child
              current := by
                intro m c hc hcur
                rcases h.current hc hcur with hm | ⟨t, ht⟩
                · exact .inl hm
                · exact absurd ht (hnot t m)
              each := h.each }
      | _ => cases hs
  | attach =>
      cases activity with
      | spawned spec n =>
          cases hs
          exact h.attaches hact
      | _ => cases hs
  | save ok =>
      cases activity with
      | saving spec n => exact h.saves hact ok hs
      | _ => cases hs
  | watch ok =>
      cases activity with
      | watching n => exact h.watches hact ok hs
      | _ => cases hs
  | stopSection =>
      cases activity with
      | stopping caller force =>
          simp only [ServeManager.activityStep] at hs
          split at hs
          · cases hs
          · cases hs
            exact h.stops hact
      | _ => cases hs
  | prepare answer stats now writes =>
      cases activity with
      | preparing caller n spec force =>
          cases hs
          exact h.prepares hact answer stats now writes
      | _ => cases hs
  | signal sent =>
      cases activity with
      | signalling caller n =>
          simp only [ServeManager.activityStep] at hs
          split at hs
          · next hr =>
              cases hs
              have hheld := h.activity
              rw [hact] at hheld
              exact h.returns (h.released hr hheld).1 (by simp [hact]) caller
          · cases hs
            exact h.signals (.inl hact) false sent
      | _ => cases hs
  | await outcome =>
      cases activity with
      | awaiting caller n killed => exact h.await hact hs
      | _ => cases outcome <;> cases hs
  | abandon =>
      cases activity with
      | abandoning caller n =>
          cases hs
          exact h.abandons hact
      | _ => cases hs
  | _ => cases hs

theorem observeAccounting_eq (s : ServeManager) (totals : AccountingSnapshot) :
    ∃ last, s.observeAccounting totals = { s with lastAccounting := last } := by
  unfold observeAccounting
  split
  · exact ⟨_, rfl⟩
  · exact ⟨_, rfl⟩

/-- Every section keeps what `Base` says. -/
theorem Base.step (h : Base s) {a : Action} (hs : s.step a = some s') : Base s' := by
  cases a with
  | callStart spec => exact h.enter id hs
  | callStop force => exact h.enter id hs
  | callSwitch spec force => exact h.enter id hs
  | runRestart i =>
      simp only [ServeManager.step, Option.bind_eq_some_iff] at hs
      obtain ⟨spec, -, hs⟩ := hs
      have hpopped : Base { s with restarts := s.restarts.eraseIdx i } := h.same rfl rfl rfl rfl rfl
      exact hpopped.enter id hs
  | callShutdown force =>
      simp only [ServeManager.step, Option.map_eq_some_iff] at hs
      obtain ⟨t, ht, rfl⟩ := hs
      have hentered : Base t := h.enter id ht
      exact hentered.same rfl rfl rfl rfl rfl
  | exits n info =>
      simp only [ServeManager.step, Option.bind_eq_some_iff] at hs
      obtain ⟨c, hc, hs⟩ := hs
      split at hs
      · cases hs
        exact h.update hc rfl id rfl ⟨(h.each hc).reaped, by simp⟩
      · cases hs
  | monitor n now writes =>
      simp only [ServeManager.step, Option.bind_eq_some_iff] at hs
      obtain ⟨c, hc, hs⟩ := hs
      exact h.monitors hc now writes hs
  | ack receiptId =>
      cases hs
      exact h.same rfl rfl rfl rfl rfl
  | observe totals =>
      cases hs
      obtain ⟨last, hlast⟩ := observeAccounting_eq s totals
      rw [hlast]
      exact h.same rfl rfl rfl rfl rfl
  | _ =>
      simp only [ServeManager.step, Option.bind_eq_some_iff] at hs
      obtain ⟨activity, hact, hs⟩ := hs
      exact h.activityStep hact hs

theorem base_start (autoRestart : Bool) : Base { autoRestart := autoRestart } where
  activity := ⟨rfl, rfl⟩
  child := by
    intro n hn
    cases hn
  current := by
    intro n c hc
    simp at hc
  each := by
    intro n c hc
    simp at hc

end Steps

end ServeManager

end FreeToken
