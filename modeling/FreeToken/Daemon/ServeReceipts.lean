import FreeToken.Daemon.ServeLifecycle

/-!
# The receipts of a serve

Every receipt that reaches the outbox is an entry of the history.  A stop may hold a child whose
monitor has written a crash receipt already, and may prepare a child again whose receipt was sealed;
in the runs where it does neither in vain, each child has the receipts it should have.
-/

set_option autoImplicit false

namespace FreeToken

open Machine

/-- The monitor is done with the crash receipt of the child, or could not write it. -/
def MonitorStage.accounted : MonitorStage → Bool
  | .unwatched | .waiting | .accounting _ => false
  | _ => true

/-- The child that a stop signals once it has a receipt. -/
def Activity.signalled : Activity → Option Nat
  | .signalling _ n | .awaiting _ n _ => some n
  | _ => none

namespace ServeManager

/-- A receipt of a stop is the only kind the child has, and where one of them was sealed it is that
one. -/
def AgreesWith (s : ServeManager) (n : Nat) (kind : ReceiptKind) (r : Receipt) : Prop :=
  ∀ e ∈ s.history, e.child = n →
    e.kind ≠ .crash ∧ (e.kind = .sealed → kind = .sealed ∧ (e.receipt ∈ s.outbox ∨ r = e.receipt))

instance (s : ServeManager) (n : Nat) (kind : ReceiptKind) (r : Receipt) :
    Decidable (s.AgreesWith n kind r) := by
  unfold AgreesWith
  infer_instance

/-- What a stop writes agrees with what was written for its child. -/
def OrderlyPrepare (s : ServeManager) : Action → Prop
  | .prepare answer stats now writes =>
      match s.activity with
      | some (.preparing _ n spec force) =>
          match prepareReceipt n (spec.map ServeSpec.model) answer stats force now with
          | some (kind, r) => writes = true → s.AgreesWith n kind r
          | none => True
      | _ => True
  | _ => True

instance (s : ServeManager) (a : Action) : Decidable (s.OrderlyPrepare a) := by
  unfold OrderlyPrepare
  split
  · split
    · split <;> infer_instance
    · infer_instance
  · infer_instance

/-- A receipt of the child was persisted. -/
def HasReceipt (s : ServeManager) (n : Nat) : Prop := ∃ e ∈ s.history, e.child = n

/-- Two receipts of one child, the first one before the second. -/
def Compatible (e e' : Persisted) : Prop :=
  e.child = e'.child → e.kind ≠ .crash ∧ e'.kind ≠ .crash ∧
    (e.kind = .sealed → e'.receipt = e.receipt)

/-- Signals come after receipts, a child that was forgotten has one, and the receipts of a child agree.
-/
structure ReceiptsHold (s : ServeManager) : Prop where
  signalled : ∀ n ∈ s.signals, s.HasReceipt n
  forgotten : ∀ {n : Nat} {c : ServeChild}, s.children[n]? = some c → c.monitor.current = false →
    c.outboxRaised = false → s.HasReceipt n
  compatible : s.history.Pairwise Compatible

structure Accounted (s : ServeManager) : Prop where
  durable : ∀ n, n ∈ s.durableAccounting ↔ s.HasReceipt n
  signalled : ∀ n ∈ s.signals, s.HasReceipt n
  holding : ∀ n, s.activity.bind Activity.signalled = some n → s.HasReceipt n
  accounted : ∀ {n : Nat} {c : ServeChild}, s.children[n]? = some c → c.monitor.accounted = true →
    c.outboxRaised = false → s.HasReceipt n
  outbox : ∀ r ∈ s.outbox, ∀ n, r.receiptId = .instance n →
    ∃ e ∈ s.history, e.child = n ∧ e.kind = .sealed ∧ e.receipt = r
  sealedId : ∀ e ∈ s.history, e.kind = .sealed → e.receipt.receiptId = .instance e.child
  compatible : s.history.Pairwise Compatible

section Steps

variable {s s' : ServeManager} {n m : Nat} {c d : ServeChild} {f : ServeChild → ServeChild}
  {kind : ReceiptKind} {r : Receipt}

theorem Accounted.receiptsHold (h : Accounted s) : ReceiptsHold s where
  signalled := h.signalled
  forgotten := by
    intro n c hc hgone hnot
    refine h.accounted hc ?_ hnot
    cases hm : c.monitor <;> rw [hm] at hgone <;> first | rfl | cases hgone
  compatible := h.compatible

/-- The receipts of a child that were sealed are one. -/
theorem Accounted.sealed_eq (h : Accounted s) {e e' : Persisted} (he : e ∈ s.history)
    (he' : e' ∈ s.history) (hchild : e.child = e'.child) (hsealed : e.kind = .sealed)
    (hsealed' : e'.kind = .sealed) : e.receipt = e'.receipt := by
  obtain ⟨i, hi⟩ := List.mem_iff_getElem?.1 he
  obtain ⟨j, hj⟩ := List.mem_iff_getElem?.1 he'
  obtain ⟨hilt, rfl⟩ := List.getElem?_eq_some_iff.1 hi
  obtain ⟨hjlt, rfl⟩ := List.getElem?_eq_some_iff.1 hj
  have hpair := List.pairwise_iff_getElem.1 h.compatible
  rcases Nat.lt_trichotomy i j with hlt | rfl | hlt
  · exact ((hpair i j hilt hjlt hlt hchild).2.2 hsealed).symm
  · rfl
  · exact (hpair j i hjlt hilt hlt hchild.symm).2.2 hsealed'

/-- The receipt that was asked for, or one of its id that was pending. -/
theorem outboxPersist_cases (outbox : List Receipt) (r : Receipt) :
    ((outboxPersist outbox r).1 ∈ outbox ∧ (outboxPersist outbox r).1.receiptId = r.receiptId ∧
      (outboxPersist outbox r).2 = outbox) ∨
    ((∀ e ∈ outbox, e.receiptId ≠ r.receiptId) ∧ outboxPersist outbox r = (r, outbox ++ [r])) := by
  unfold outboxPersist
  split
  · next e he =>
      have hid := List.find?_some he
      exact .inl ⟨List.mem_of_find?_eq_some he, of_decide_eq_true hid, rfl⟩
  · next hnone =>
      refine .inr ⟨fun e he hid => ?_, rfl⟩
      have hnot := List.find?_eq_none.1 hnone e he
      exact hnot (decide_eq_true hid)

/-- The id of a receipt of a stop is that of an instance where it was sealed, and only there. -/
theorem prepareReceipt_id {model : Option String} {answer : PrepareAnswer}
    {stats : Option AccountingSnapshot} {force : Bool} {now : Nat}
    (h : prepareReceipt n model answer stats force now = some (kind, r)) :
    kind ≠ .crash ∧ (kind = .sealed → r.receiptId = .instance n) ∧
      (kind ≠ .sealed → ∀ m, r.receiptId ≠ .instance m) := by
  have hbest : ∀ {reason : String} {forced : Bool} {r : Receipt},
      bestEffortReceipt n model stats reason forced now = some r →
        ∀ m, r.receiptId ≠ .instance m := by
    intro reason forced r hr m
    unfold bestEffortReceipt at hr
    split at hr
    · cases hr
      simp
    · split at hr
      · cases hr
        simp
      · cases hr
  cases answer with
  | sealed t =>
      cases h
      exact ⟨by simp, fun _ => rfl, fun hne => absurd rfl hne⟩
  | unavailable =>
      obtain ⟨r', hr', heq⟩ := Option.map_eq_some_iff.1 h
      cases heq
      exact ⟨by simp, by simp, fun _ => hbest hr'⟩
  | failed =>
      simp only [prepareReceipt] at h
      split at h
      · obtain ⟨r', hr', heq⟩ := Option.map_eq_some_iff.1 h
        cases heq
        exact ⟨by simp, by simp, fun _ => hbest hr'⟩
      · cases h

theorem HasReceipt.persists (h : s.HasReceipt m) : (s.persist n kind r).HasReceipt m := by
  obtain ⟨e, he, hchild⟩ := h
  exact ⟨e, List.mem_append_left _ he, hchild⟩

theorem hasReceipt_persist : (s.persist n kind r).HasReceipt n :=
  ⟨_, List.mem_append_right _ (List.mem_singleton.2 rfl), rfl⟩

/-- The receipt that is returned is the one that was sealed for the child. -/
theorem Accounted.returned (h : Accounted s) {e : Persisted} (he : e ∈ s.history)
    (hsealed : e.kind = .sealed) (hid : r.receiptId = .instance e.child)
    (hagrees : e.receipt ∈ s.outbox ∨ r = e.receipt) :
    (outboxPersist s.outbox r).1 = e.receipt := by
  rcases outboxPersist_cases s.outbox r with ⟨hmem, hsame, -⟩ | ⟨hnone, heq⟩
  · obtain ⟨e', he', hchild, hsealed', hr⟩ := h.outbox _ hmem e.child (hsame.trans hid)
    rw [← hr]
    exact h.sealed_eq he' he hchild hsealed' hsealed
  · rw [heq]
    rcases hagrees with hmem | hr
    · exact absurd ((h.sealedId e he hsealed).trans hid.symm) (hnone _ hmem)
    · exact hr

/-- A receipt is persisted that agrees with what was written for its child. -/
theorem Accounted.persists (h : Accounted s) (hcrash : kind = .crash → ¬ s.HasReceipt n)
    (hsealed : kind = .sealed → r.receiptId = .instance n)
    (hother : kind ≠ .sealed → ∀ m, r.receiptId ≠ .instance m) (hagrees : s.AgreesWith n kind r) :
    Accounted (s.persist n kind r) where
  durable := by
    intro m
    constructor
    · intro hm
      rcases List.mem_cons.1 hm with rfl | hm
      · exact hasReceipt_persist
      · exact ((h.durable m).1 hm).persists
    · rintro ⟨e, he, rfl⟩
      rcases List.mem_append.1 he with he | he
      · exact List.mem_cons_of_mem _ ((h.durable _).2 ⟨e, he, rfl⟩)
      · rw [List.mem_singleton.1 he]
        exact List.mem_cons_self
  signalled := fun m hm => (h.signalled m hm).persists
  holding := fun m hact => (h.holding m hact).persists
  accounted := fun hc hstage hnot => (h.accounted hc hstage hnot).persists
  outbox := by
    intro x hx m hid
    rcases outboxPersist_cases s.outbox r with ⟨-, -, hkept⟩ | ⟨-, heq⟩
    · rw [show (s.persist n kind r).outbox = s.outbox from hkept] at hx
      obtain ⟨e, he, hrest⟩ := h.outbox x hx m hid
      exact ⟨e, List.mem_append_left _ he, hrest⟩
    · rw [show (s.persist n kind r).outbox = s.outbox ++ [r] from congrArg Prod.snd heq] at hx
      rcases List.mem_append.1 hx with hx | hx
      · obtain ⟨e, he, hrest⟩ := h.outbox x hx m hid
        exact ⟨e, List.mem_append_left _ he, hrest⟩
      · rw [List.mem_singleton.1 hx] at hid ⊢
        have hkind : kind = .sealed := by
          by_contra hne
          exact hother hne m hid
        have hm : n = m := by
          rw [hsealed hkind] at hid
          cases hid
          rfl
        exact ⟨_, List.mem_append_right _ (List.mem_singleton.2 rfl), hm, hkind,
          congrArg Prod.fst heq⟩
  sealedId := by
    intro e he hkind
    rcases List.mem_append.1 he with he | he
    · exact h.sealedId e he hkind
    · rw [List.mem_singleton.1 he] at hkind ⊢
      rcases outboxPersist_cases s.outbox r with ⟨-, hid, -⟩ | ⟨-, heq⟩
      · exact hid.trans (hsealed hkind)
      · simp only [heq]
        exact hsealed hkind
  compatible := by
    refine List.pairwise_append.2 ⟨h.compatible, List.pairwise_singleton _ _, ?_⟩
    intro e he e' he'
    rw [List.mem_singleton.1 he']
    rintro rfl
    obtain ⟨hnot, hsame⟩ := hagrees e he rfl
    refine ⟨hnot, fun hkind => hcrash hkind ⟨e, he, rfl⟩, fun hkind => ?_⟩
    obtain ⟨hthis, hwhere⟩ := hsame hkind
    exact h.returned he hkind (hsealed hthis) hwhere

/-- A section that leaves the receipts, the signals and the children. -/
theorem Accounted.same (h : Accounted s) (hdurable : s'.durableAccounting = s.durableAccounting)
    (hhistory : s'.history = s.history) (houtbox : ∀ r ∈ s'.outbox, r ∈ s.outbox)
    (hsignals : s'.signals = s.signals) (hchildren : s'.children = s.children)
    (hactivity : ∀ n, s'.activity.bind Activity.signalled = some n → s.HasReceipt n) :
    Accounted s' where
  durable := by
    intro n
    rw [hdurable, HasReceipt, hhistory]
    exact h.durable n
  signalled := by
    intro n hn
    rw [hsignals] at hn
    rw [HasReceipt, hhistory]
    exact h.signalled n hn
  holding := by
    intro n hact
    rw [HasReceipt, hhistory]
    exact hactivity n hact
  accounted := by
    intro n c hc hstage hnot
    rw [hchildren] at hc
    rw [HasReceipt, hhistory]
    exact h.accounted hc hstage hnot
  outbox := by
    intro r hr n hid
    rw [hhistory]
    exact h.outbox r (houtbox r hr) n hid
  sealedId := by
    rw [hhistory]
    exact h.sealedId
  compatible := by
    rw [hhistory]
    exact h.compatible

/-- A section that changes one child. -/
theorem Accounted.update (h : Accounted s) (hc : s.children[n]? = some c)
    (hstage : (f c).monitor.accounted = true → (f c).outboxRaised = false → s.HasReceipt n) :
    Accounted (s.update n f) where
  durable := h.durable
  signalled := h.signalled
  holding := h.holding
  accounted := by
    intro m d hd hacc hnot
    rcases update_cases hc hd with ⟨rfl, rfl⟩ | ⟨-, hd⟩
    · exact hstage hacc hnot
    · exact h.accounted hd hacc hnot
  outbox := h.outbox
  sealedId := h.sealedId
  compatible := h.compatible

theorem Accounted.monitors (h : Accounted s) (hbase : Base s) (hc : s.children[n]? = some c)
    {now : Nat} {writes : Bool} (hs : s.monitorSection n c now writes = some s') :
    Accounted s' := by
  have hwatched : c.monitor ≠ .unwatched := by
    intro hw
    simp [monitorSection, hw] at hs
  have haccounted : c.monitor.accounted = true → c.outboxRaised = false → s.HasReceipt n :=
    h.accounted hc
  unfold monitorSection at hs
  cases hstage : c.monitor with
  | unwatched => exact absurd hstage hwatched
  | finished => simp [hstage] at hs
  | waiting =>
      simp only [hstage, Option.map_eq_some_iff] at hs
      obtain ⟨info, -, hs⟩ := hs
      rw [if_pos (hbase.watched hc hwatched (by rw [hstage]; rfl))] at hs
      cases hs
      exact h.update hc (by simp [MonitorStage.accounted])
  | accounting wasStopping =>
      simp only [hstage] at hs
      split at hs
      · next hdurable =>
          cases hs
          exact h.update hc fun _ _ => (h.durable n).1 hdurable
      · next hdurable =>
          have hnone : ¬ s.HasReceipt n := fun hr => hdurable ((h.durable n).2 hr)
          split at hs
          · cases hs
            have hpersist : Accounted (s.persist n .crash (s.crashReceipt n wasStopping now)) :=
              h.persists (fun _ => hnone) (by simp) (fun _ m => by simp [crashReceipt])
                fun e he hchild => absurd ⟨e, he, hchild⟩ hnone
            exact hpersist.update hc fun _ _ => hasReceipt_persist
          · cases hs
            exact h.update hc fun _ hnot => by cases hnot
  | accountingFailed wasStopping =>
      simp only [hstage] at hs
      cases hs
      have hlatched : Accounted { s with stopRequested := true } :=
        h.same rfl rfl (fun _ => id) rfl rfl h.holding
      exact hlatched.update hc fun _ hnot => haccounted (by rw [hstage]; rfl) hnot
  | forgetting wasStopping =>
      simp only [hstage] at hs
      split at hs
      · cases hs
        have hforgotten : Accounted { s with
            child := none
            stopping := false
            lastExit := if wasStopping then c.exit.map fun e => ⟨e.code, "stopped"⟩ else c.exit } :=
          h.same rfl rfl (fun _ => id) rfl rfl h.holding
        exact hforgotten.update hc fun _ hnot => haccounted (by rw [hstage]; rfl) hnot
      · cases hs
        exact h.update hc fun _ hnot => haccounted (by rw [hstage]; rfl) hnot
  | clearing wasStopping =>
      simp only [hstage] at hs
      cases hs
      have hcleared : Accounted { s with file := none } :=
        h.same rfl rfl (fun _ => id) rfl rfl h.holding
      exact hcleared.update hc fun _ hnot => haccounted (by rw [hstage]; rfl) hnot
  | setting wasStopping isCurrent =>
      simp only [hstage] at hs
      cases hs
      exact h.update hc fun _ hnot => haccounted (by rw [hstage]; rfl) hnot
  | deciding wasStopping =>
      simp only [hstage] at hs
      cases hs
      exact h.update hc fun _ hnot => haccounted (by rw [hstage]; rfl) hnot
  | restarting =>
      simp only [hstage] at hs
      cases hs
      have hqueued : Accounted { s with restarts := s.restarts ++ s.spec.toList } :=
        h.same rfl rfl (fun _ => id) rfl rfl h.holding
      exact hqueued.update hc fun _ hnot => haccounted (by rw [hstage]; rfl) hnot

theorem Accounted.returns (h : Accounted s) (caller : StopCaller) :
    Accounted (s.stopReturns caller) := by
  cases caller with
  | stop => exact h.same rfl rfl (fun _ => id) rfl rfl (by rintro _ ⟨⟩)
  | shutdown => exact h.same rfl rfl (fun _ => id) rfl rfl (by rintro _ ⟨⟩)
  | switch spec => exact h.same rfl rfl (fun _ => id) rfl rfl (by rintro _ ⟨⟩)

/-- A signal goes to a child that has a receipt. -/
theorem Accounted.signals (h : Accounted s) (hreceipt : s.HasReceipt n) (caller : StopCaller)
    (killed sent : Bool) : Accounted (s.signalChild caller n killed sent) := by
  unfold signalChild
  split
  · exact {
      durable := h.durable
      signalled := by
        intro m hm
        rcases List.mem_cons.1 hm with rfl | hm
        · exact hreceipt
        · exact h.signalled m hm
      holding := by
        rintro _ ⟨⟩
        exact hreceipt
      accounted := h.accounted
      outbox := h.outbox
      sealedId := h.sealedId
      compatible := h.compatible }
  · exact h.same rfl rfl (fun _ => id) rfl rfl (by rintro _ ⟨⟩)

/-- A stop prepares its child. -/
theorem Accounted.prepares (h : Accounted s) {caller : StopCaller} {spec : Option ServeSpec}
    {force : Bool} (hact : s.activity = some (.preparing caller n spec force))
    {answer : PrepareAnswer} {stats : Option AccountingSnapshot} {now : Nat} {writes : Bool}
    (horderly : s.OrderlyPrepare (.prepare answer stats now writes)) :
    Accounted (s.prepareSection caller n spec force answer stats now writes) := by
  simp only [OrderlyPrepare, hact] at horderly
  have habandons : Accounted { s with activity := some (.abandoning caller n) } :=
    h.same rfl rfl (fun _ => id) rfl rfl (by rintro _ ⟨⟩)
  unfold prepareSection
  split
  · exact habandons
  · next kind r hr =>
      rw [hr] at horderly
      split
      · next hwrites =>
          obtain ⟨hnot, hsealed, hother⟩ := prepareReceipt_id hr
          have hpersist : Accounted (s.persist n kind r) :=
            h.persists (fun hkind => absurd hkind hnot) hsealed hother (horderly hwrites)
          refine hpersist.same rfl rfl (fun _ => id) rfl rfl ?_
          rintro _ ⟨⟩
          exact hasReceipt_persist
      · exact habandons

theorem Accounted.activityStep (h : Accounted s) (hbase : Base s) {activity : Activity} {a : Action}
    (horderly : s.OrderlyPrepare a) (hact : s.activity = some activity)
    (hs : s.activityStep activity a = some s') : Accounted s' := by
  cases a with
  | startSection =>
      cases activity with
      | starting spec auto =>
          simp only [ServeManager.activityStep] at hs
          have hkept : ∀ {outcome : StartOutcome} {t : ServeManager} {next : Option Activity},
              s.startSection spec auto = (outcome, t) →
              (next = none ∨ next = some (.spawning spec)) →
                Accounted { t with activity := next } := by
            intro outcome t next hout hnext
            have hidle : ∀ n, next.bind Activity.signalled = some n → s.HasReceipt n := by
              rcases hnext with rfl | rfl <;> rintro _ ⟨⟩
            rcases startSection_cases hout with ⟨-, rfl | ⟨-, rfl⟩⟩ | ⟨-, -, -, -, rfl⟩ <;>
              exact h.same rfl rfl (fun _ => id) rfl rfl hidle
          split at hs
          · cases hs
          · split at hs
            · next t hout =>
                cases hs
                exact hkept hout (.inr rfl)
            · next outcome t hne hout =>
                cases hs
                exact hkept hout (.inl rfl)
      | _ => cases hs
  | spawn ok =>
      cases activity with
      | spawning spec =>
          simp only [ServeManager.activityStep] at hs
          split at hs <;> cases hs
          · exact {
              durable := h.durable
              signalled := h.signalled
              holding := by rintro _ ⟨⟩
              accounted := by
                intro n c hc hstage hnot
                rcases spawn_cases hc with hold | ⟨rfl, rfl⟩
                · exact h.accounted hold hstage hnot
                · cases hstage
              outbox := h.outbox
              sealedId := h.sealedId
              compatible := h.compatible }
          · exact h.same rfl rfl (fun _ => id) rfl rfl (by rintro _ ⟨⟩)
      | _ => cases hs
  | attach =>
      cases activity with
      | spawned spec n =>
          cases hs
          exact h.same rfl rfl (fun _ => id) rfl rfl (by rintro _ ⟨⟩)
      | _ => cases hs
  | save ok =>
      cases activity with
      | saving spec n =>
          have hstands := hbase.activity
          rw [hact] at hstands
          obtain ⟨-, -, -, c, hc, -, hw⟩ := hstands
          simp only [ServeManager.activityStep] at hs
          split at hs <;> cases hs
          · exact h.same rfl rfl (fun _ => id) rfl rfl (by rintro _ ⟨⟩)
          · have hidle : Accounted { s with activity := none } :=
              h.same rfl rfl (fun _ => id) rfl rfl (by rintro _ ⟨⟩)
            exact hidle.update hc (by simp [hw, MonitorStage.accounted])
      | _ => cases hs
  | watch ok =>
      cases activity with
      | watching n =>
          have hstands := hbase.activity
          rw [hact] at hstands
          obtain ⟨-, -, -, spec, c, hc, -, hw⟩ := hstands
          have hidle : Accounted { s with activity := none } :=
            h.same rfl rfl (fun _ => id) rfl rfl (by rintro _ ⟨⟩)
          simp only [ServeManager.activityStep] at hs
          split at hs <;> cases hs
          · exact hidle.update hc (by simp [MonitorStage.accounted])
          · exact hidle.update hc (by simp [hw, MonitorStage.accounted])
      | _ => cases hs
  | stopSection =>
      cases activity with
      | stopping caller force =>
          simp only [ServeManager.activityStep] at hs
          split at hs
          · cases hs
          · cases hs
            cases hchild : s.child with
            | none =>
                rw [stopSection_none hchild]
                have hlatched : Accounted { s with stopRequested := true } :=
                  h.same rfl rfl (fun _ => id) rfl rfl h.holding
                exact hlatched.returns caller
            | some n =>
                rw [stopSection_some hchild]
                exact h.same rfl rfl (fun _ => id) rfl rfl (by rintro _ ⟨⟩)
      | _ => cases hs
  | prepare answer stats now writes =>
      cases activity with
      | preparing caller n spec force =>
          cases hs
          exact h.prepares hact horderly
      | _ => cases hs
  | signal sent =>
      cases activity with
      | signalling caller n =>
          simp only [ServeManager.activityStep] at hs
          split at hs <;> cases hs
          · exact h.returns caller
          · exact h.signals (h.holding n (by rw [hact]; rfl)) caller false sent
      | _ => cases hs
  | await outcome =>
      cases activity with
      | awaiting caller n killed =>
          cases outcome with
          | reaped =>
              simp only [ServeManager.activityStep] at hs
              split at hs <;> cases hs
              exact h.returns caller
          | timeout sent =>
              simp only [ServeManager.activityStep] at hs
              split at hs
              · cases hs
              · split at hs <;> cases hs
                · exact h.same rfl rfl (fun _ => id) rfl rfl (by rintro _ ⟨⟩)
                · exact h.signals (h.holding n (by rw [hact]; rfl)) caller true sent
      | _ => cases outcome <;> cases hs
  | abandon =>
      cases activity with
      | abandoning caller n =>
          cases hs
          have hheld := hbase.activity
          rw [hact] at hheld
          rw [abandonSection_eq caller (hheld.2.imp And.left And.right)]
          exact h.same rfl rfl (fun _ => id) rfl rfl (by rintro _ ⟨⟩)
      | _ => cases hs
  | _ => cases hs

theorem Accounted.enters (h : Accounted s) {a : Activity} (ha : a.signalled = none)
    (hs : s.enter a = some s') : Accounted s' := by
  unfold enter at hs
  split at hs
  · cases hs
    refine h.same rfl rfl (fun _ => id) rfl rfl fun n hn => ?_
    rw [show (some a).bind Activity.signalled = a.signalled from rfl, ha] at hn
    cases hn
  · cases hs

/-- Every section in which a stop agrees with the receipts keeps what `Accounted` says. -/
theorem Accounted.next (h : Accounted s) (hbase : Base s) {a : Action}
    (horderly : s.OrderlyPrepare a) (hs : s.step a = some s') : Accounted s' := by
  cases a with
  | callStart spec => exact h.enters rfl hs
  | callStop force => exact h.enters rfl hs
  | callSwitch spec force => exact h.enters rfl hs
  | callShutdown force =>
      simp only [step, Option.map_eq_some_iff] at hs
      obtain ⟨t, ht, rfl⟩ := hs
      have hentered : Accounted t := h.enters rfl ht
      exact hentered.same rfl rfl (fun _ => id) rfl rfl hentered.holding
  | runRestart i =>
      simp only [step, Option.bind_eq_some_iff] at hs
      obtain ⟨spec, -, hs⟩ := hs
      have hpopped : Accounted { s with restarts := s.restarts.eraseIdx i } :=
        h.same rfl rfl (fun _ => id) rfl rfl h.holding
      exact hpopped.enters rfl hs
  | exits n info =>
      simp only [step, Option.bind_eq_some_iff] at hs
      obtain ⟨c, hc, hs⟩ := hs
      have haccounted : c.monitor.accounted = true → c.outboxRaised = false → s.HasReceipt n :=
        h.accounted hc
      split at hs
      · cases hs
        exact h.update hc haccounted
      · cases hs
  | monitor n now writes =>
      simp only [step, Option.bind_eq_some_iff] at hs
      obtain ⟨c, hc, hs⟩ := hs
      exact h.monitors hbase hc hs
  | ack receiptId =>
      cases hs
      exact h.same rfl rfl (fun r hr => List.mem_of_mem_filter hr) rfl rfl h.holding
  | observe totals =>
      cases hs
      obtain ⟨last, hlast⟩ := observeAccounting_eq s totals
      rw [hlast]
      exact h.same rfl rfl (fun _ => id) rfl rfl h.holding
  | _ =>
      simp only [step, Option.bind_eq_some_iff] at hs
      obtain ⟨activity, hact, hs⟩ := hs
      exact h.activityStep hbase horderly hact hs

theorem accounted_start (autoRestart : Bool) : Accounted { autoRestart := autoRestart } where
  durable := by simp [HasReceipt]
  signalled := by simp
  holding := by simp
  accounted := by simp
  outbox := by simp
  sealedId := by simp
  compatible := .nil

end Steps

end ServeManager

end FreeToken
