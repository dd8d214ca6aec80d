import Mathlib.Data.List.Basic

/-!
# Machines and what holds along their runs

A machine takes actions on a state; an action that is not possible there gives none.  What holds along
a run holds in each of its states, of that state and of the actions that are left.
-/

set_option autoImplicit false

namespace Machine

variable {S A : Type} {step : S → A → Option S}

/-- The state after the actions. -/
def runAll (step : S → A → Option S) : S → List A → Option S
  | s, [] => some s
  | s, a :: as => (step s a).bind fun s' => runAll step s' as

theorem runAll_append (s : S) (as bs : List A) :
    runAll step s (as ++ bs) = (runAll step s as).bind fun s' => runAll step s' bs := by
  induction as generalizing s with
  | nil => rfl
  | cons a as ih =>
      simp only [List.cons_append, runAll, Option.bind_assoc]
      congr 1
      funext s'
      exact ih s'

/-- In each state of a run, of the state and the actions that are left. -/
def Always (step : S → A → Option S) (P : S → List A → Prop) : S → List A → Prop
  | s, [] => P s []
  | s, a :: as => P s (a :: as) ∧ ∀ s', step s a = some s' → Always step P s' as

/-- Each action of a run is allowed where it is taken. -/
def Keeps (step : S → A → Option S) (allowed : S → A → Prop) : S → List A → Prop
  | _, [] => True
  | s, a :: as => ∀ s', step s a = some s' → allowed s a ∧ Keeps step allowed s' as

instance decidableKeeps (step : S → A → Option S) (allowed : S → A → Prop)
    [∀ s a, Decidable (allowed s a)] : ∀ (s : S) (as : List A), Decidable (Keeps step allowed s as)
  | _, [] => isTrue trivial
  | s, a :: as =>
      match h : step s a with
      | none => isTrue fun s' hs => by rw [h] at hs; cases hs
      | some t =>
          have := decidableKeeps step allowed t as
          if hok : allowed s a ∧ Keeps step allowed t as then
            isTrue fun s' hs => by rw [h] at hs; cases hs; exact hok
          else isFalse fun hall => hok (hall t h)

/-- The machine with a note that is taken of each action. -/
def observed {N : Type} (step : S → A → Option S) (note : S → A → S → N → N) (p : S × N) (a : A) :
    Option (S × N) :=
  (step p.1 a).map fun s' => (s', note p.1 a s' p.2)

variable {P Q : S → List A → Prop} {allowed allowed' : S → A → Prop} {Inv : S → Prop} {s : S}
  {as : List A}

theorem Always.head (h : Always step P s as) : P s as := by
  cases as with
  | nil => exact h
  | cons a as => exact h.1

theorem Keeps.mono (hsub : ∀ s a, allowed s a → allowed' s a) (h : Keeps step allowed s as) :
    Keeps step allowed' s as := by
  induction as generalizing s with
  | nil => trivial
  | cons a as ih => exact fun s' hs => ⟨hsub s a (h s' hs).1, ih (h s' hs).2⟩

/-- Any action is allowed. -/
theorem keeps_any (s : S) (as : List A) : Keeps step (fun _ _ => True) s as := by
  induction as generalizing s with
  | nil => trivial
  | cons a as ih => exact fun s' _ => ⟨trivial, ih s'⟩

theorem Always.mono (hsub : ∀ s as, P s as → Q s as) (h : Always step P s as) :
    Always step Q s as := by
  induction as generalizing s with
  | nil => exact hsub s [] h
  | cons a as ih => exact ⟨hsub s _ h.1, fun s' hs => ih (h.2 s' hs)⟩

theorem Always.and (hp : Always step P s as) (hq : Always step Q s as) :
    Always step (fun s as => P s as ∧ Q s as) s as := by
  induction as generalizing s with
  | nil => exact ⟨hp, hq⟩
  | cons a as ih => exact ⟨⟨hp.1, hq.1⟩, fun s' hs => ih (hp.2 s' hs) (hq.2 s' hs)⟩

/-- What every allowed action keeps, and what follows from it in each state. -/
theorem always_of_invariant
    (hstep : ∀ {s a s'}, Inv s → allowed s a → step s a = some s' → Inv s')
    (hinv : ∀ {s as}, Inv s → Keeps step allowed s as → P s as) (h : Inv s)
    (hkeeps : Keeps step allowed s as) : Always step P s as := by
  induction as generalizing s with
  | nil => exact hinv h hkeeps
  | cons a as ih =>
      refine ⟨hinv h hkeeps, fun s' hs => ?_⟩
      obtain ⟨ha, hrest⟩ := hkeeps s' hs
      exact ih (hstep h ha hs) hrest

/-- What holds in each state holds after the actions. -/
theorem Always.runAll (h : Always step P s as) {s' : S} (hrun : runAll step s as = some s') :
    P s' [] := by
  induction as generalizing s with
  | nil =>
      cases hrun
      exact h
  | cons a as ih =>
      obtain ⟨s₁, hs, hrest⟩ := Option.bind_eq_some_iff.1 hrun
      exact ih (h.2 s₁ hs) hrest

/-- An invariant holds after the actions. -/
theorem invariant_runAll (hstep : ∀ {s a s'}, Inv s → allowed s a → step s a = some s' → Inv s')
    (h : Inv s) (hkeeps : Keeps step allowed s as) {s' : S} (hrun : Machine.runAll step s as = some s') :
    Inv s' := by
  have halways : Always step (fun s _ => Inv s) s as :=
    always_of_invariant hstep (fun h _ => h) h hkeeps
  exact halways.runAll hrun

/-- What holds along a run is enough to allow each action, when a state in which it fails follows
one that is not allowed. -/
theorem keeps_of_always (hbad : ∀ {s a s'} (as : List A), step s a = some s' → ¬ allowed s a → ¬ P s' as)
    (h : Always step P s as) : Keeps step allowed s as := by
  induction as generalizing s with
  | nil => trivial
  | cons a as ih =>
      intro s' hs
      have hrest := h.2 s' hs
      refine ⟨?_, ih hrest⟩
      by_contra ha
      exact hbad as hs ha hrest.head

end Machine
