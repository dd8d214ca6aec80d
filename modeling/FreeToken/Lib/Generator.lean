import FreeToken.Lib.Machine

/-!
# Generators

A generator yields events, then returns or raises.  A machine reads what it yields; what holds of the
machine's state when the generator ends is proved along the generator's own steps.
-/

set_option autoImplicit false

/-- What a generator yields and how it ends. -/
structure Generator (E X A : Type) where
  events : List E
  result : Except X A

namespace Generator

variable {E X A B S : Type}

def ret (a : A) : Generator E X A := ⟨[], .ok a⟩

/-- The events of a list, one by one. -/
def yields (es : List E) : Generator E X Unit := ⟨es, .ok ()⟩

/-- Nothing is yielded. -/
def ofExcept (r : Except X A) : Generator E X A := ⟨[], r⟩

def bind (m : Generator E X A) (f : A → Generator E X B) : Generator E X B :=
  match m.result with
  | .ok a => ⟨m.events ++ (f a).events, (f a).result⟩
  | .error x => ⟨m.events, .error x⟩

/-- The machine takes what is yielded, and is then where the end of the generator allows. -/
def Reads (step : S → E → Option S) (s : S) (m : Generator E X A) (post : S → A → Prop)
    (fail : S → Prop) : Prop :=
  ∃ s', Machine.runAll step s m.events = some s' ∧ (∀ a, m.result = .ok a → post s' a) ∧
    ∀ x, m.result = .error x → fail s'

variable {step : S → E → Option S} {s : S} {post post' : S → A → Prop} {fail fail' : S → Prop}

theorem Reads.mono {m : Generator E X A} (h : Reads step s m post fail)
    (hpost : ∀ s a, post s a → post' s a) (hfail : ∀ s, fail s → fail' s) :
    Reads step s m post' fail' := by
  obtain ⟨s', hrun, hok, herr⟩ := h
  exact ⟨s', hrun, fun a ha => hpost s' a (hok a ha), fun x hx => hfail s' (herr x hx)⟩

theorem reads_ret {a : A} (h : post s a) : Reads step s (ret a : Generator E X A) post fail := by
  refine ⟨s, rfl, fun b hb => ?_, fun x hx => ?_⟩
  · cases hb
    exact h
  · cases hx

theorem reads_ofExcept {r : Except X A} (hok : ∀ a, r = .ok a → post s a)
    (herr : ∀ x, r = .error x → fail s) :
    Reads step s (ofExcept r : Generator E X A) post fail :=
  ⟨s, rfl, hok, herr⟩

theorem reads_yields {es : List E} {s' : S} {post : S → Unit → Prop}
    (hrun : Machine.runAll step s es = some s') (h : post s' ()) :
    Reads step s (yields es : Generator E X Unit) post fail := by
  refine ⟨s', hrun, fun b _ => h, fun x hx => ?_⟩
  cases hx

theorem Reads.bind {m : Generator E X A} {f : A → Generator E X B} {mid : S → A → Prop}
    {post : S → B → Prop} (h : Reads step s m mid fail)
    (hf : ∀ s a, mid s a → Reads step s (f a) post fail) :
    Reads step s (Generator.bind m f) post fail := by
  obtain ⟨s', hrun, hok, herr⟩ := h
  cases hres : m.result with
  | error x =>
      have heq : Generator.bind m f = ⟨m.events, .error x⟩ := by
        unfold Generator.bind
        rw [hres]
      rw [heq]
      refine ⟨s', hrun, fun b hb => ?_, fun y _ => herr x hres⟩
      cases hb
  | ok a =>
      obtain ⟨s'', hrun', hok', herr'⟩ := hf s' a (hok a hres)
      have heq : Generator.bind m f = ⟨m.events ++ (f a).events, (f a).result⟩ := by
        unfold Generator.bind
        rw [hres]
      rw [heq]
      refine ⟨s'', ?_, hok', herr'⟩
      rw [Machine.runAll_append, hrun]
      exact hrun'

theorem reads_ofExcept_bind {r : Except X A} {f : A → Generator E X B} {post : S → B → Prop}
    (herr : ∀ x, r = .error x → fail s) (hok : ∀ a, r = .ok a → Reads step s (f a) post fail) :
    Reads step s (Generator.bind (ofExcept r) f) post fail := by
  have h : Reads step s (ofExcept r : Generator E X A) (fun s' a => s' = s ∧ r = .ok a) fail :=
    reads_ofExcept (fun _ ha => ⟨rfl, ha⟩) herr
  refine h.bind fun s' a ha => ?_
  rw [ha.1]
  exact hok a ha.2

theorem reads_yields_bind {es : List E} {s' : S} {f : Unit → Generator E X B} {post : S → B → Prop}
    (hrun : Machine.runAll step s es = some s') (h : Reads step s' (f ()) post fail) :
    Reads step s (Generator.bind (yields es) f) post fail := by
  have hyield : Reads step s (yields es : Generator E X Unit) (fun t _ => t = s') fail :=
    reads_yields hrun rfl
  refine hyield.bind fun t _ ht => ?_
  rw [ht]
  exact h

/-! ## Steps that yield -/

/-- One after the other, with the events of each. -/
def inOrder (f : A → B → A × List E) : A → List B → A × List E
  | a, [] => (a, [])
  | a, b :: bs =>
      let rest := inOrder f (f a b).1 bs
      (rest.1, (f a b).2 ++ rest.2)

theorem inOrder_append (f : A → B → A × List E) (a : A) (bs bs' : List B) :
    inOrder f a (bs ++ bs') = ((inOrder f (inOrder f a bs).1 bs').1,
      (inOrder f a bs).2 ++ (inOrder f (inOrder f a bs).1 bs').2) := by
  induction bs generalizing a with
  | nil => rfl
  | cons b bs ih => simp only [List.cons_append, inOrder, ih, List.append_assoc]

/-- The machine takes the events, and stands then as `R` says of the state. -/
def Emits (step : S → E → Option S) (R : A → S → Prop) (s : S) (out : A × List E) : Prop :=
  ∃ s', Machine.runAll step s out.2 = some s' ∧ R out.1 s'

variable {R : A → S → Prop} {a : A} {out next : A × List E}

theorem Emits.nothing (h : R a s) : Emits step R s (a, []) := ⟨s, rfl, h⟩

theorem Emits.one {e : E} {s' : S} (hstep : step s e = some s') (h : R a s') :
    Emits step R s (a, [e]) := by
  refine ⟨s', ?_, h⟩
  simp [Machine.runAll, hstep]

theorem Emits.append (h : Emits step R s out) (hnext : ∀ s', R out.1 s' → Emits step R s' next) :
    Emits step R s (next.1, out.2 ++ next.2) := by
  obtain ⟨s', hrun, hr⟩ := h
  obtain ⟨s'', hrun', hr'⟩ := hnext s' hr
  refine ⟨s'', ?_, hr'⟩
  rw [Machine.runAll_append, hrun]
  exact hrun'

theorem Emits.mono {R' : A → S → Prop} (h : Emits step R s out)
    (hsub : ∀ s', R out.1 s' → R' out.1 s') : Emits step R' s out := by
  obtain ⟨s', hrun, hr⟩ := h
  exact ⟨s', hrun, hsub s' hr⟩

theorem Emits.inOrder {f : A → B → A × List E} (hf : ∀ a b s, R a s → Emits step R s (f a b))
    (h : R a s) (bs : List B) : Emits step R s (inOrder f a bs) := by
  induction bs generalizing a s with
  | nil => exact Emits.nothing h
  | cons b bs ih => exact (hf a b s h).append fun s' h' => ih h'

end Generator
