import Mathlib.Data.List.Basic

/-!
# Transducers over a buffer, and parsers that follow one

A transducer takes turns on a state and the unread input; a turn that is possible stays the same when
input is added.  An incremental parser that follows a transducer, its increments drained, gives the
same events for every division of its input into chunks.
-/

set_option autoImplicit false

namespace Transducer

variable {S A E : Type}

/-- The turns that were taken, with their events. -/
inductive Runs (turn : S → List A → Option (S × List A × List E)) :
    S → List A → List E → S → List A → Prop
  | refl (s : S) (b : List A) : Runs turn s b [] s b
  | step {s s' s'' : S} {b b' b'' : List A} {o o' : List E} (h : turn s b = some (s', b', o))
      (hrest : Runs turn s' b' o' s'' b'') : Runs turn s b (o ++ o') s'' b''

/-- The turns up to a state that waits for input. -/
def Settles (turn : S → List A → Option (S × List A × List E)) (s : S) (b : List A) (o : List E)
    (s' : S) (b' : List A) : Prop :=
  Runs turn s b o s' b' ∧ turn s' b' = none

/-- A turn does not depend on the input it leaves. -/
def Extends (turn : S → List A → Option (S × List A × List E)) : Prop :=
  ∀ ⦃s b s' b' o⦄, turn s b = some (s', b', o) → ∀ x, turn s (b ++ x) = some (s', b' ++ x, o)

/-- Some of the input is taken. -/
def Takes (b b' : List A) : Prop := ∃ w, w ≠ [] ∧ b = w ++ b'

/-- A turn takes some of the input, or goes down in rank silently. -/
def Shrinks (turn : S → List A → Option (S × List A × List E)) (rank : S → Nat) : Prop :=
  ∀ ⦃s b s' b' o⦄, turn s b = some (s', b', o) →
    Takes b b' ∨ (b' = b ∧ o = [] ∧ rank s' < rank s)

variable {turn : S → List A → Option (S × List A × List E)} {s s' s'' : S} {b b' b'' : List A}
  {o o' : List E} {rank : S → Nat}

theorem Takes.length_lt (h : Takes b b') : b'.length < b.length := by
  obtain ⟨w, hne, rfl⟩ := h
  have := List.length_pos_iff.2 hne
  rw [List.length_append]
  omega

theorem Takes.suffix (h : Takes b b') : b' <:+ b := by
  obtain ⟨w, -, rfl⟩ := h
  exact List.suffix_append w b'

/-- The input that is left is the end of the input. -/
theorem Runs.suffix (hshrinks : Shrinks turn rank) (h : Runs turn s b o s' b') : b' <:+ b := by
  induction h with
  | refl s b => exact List.suffix_refl b
  | step hturn _ ih =>
      rcases hshrinks hturn with htakes | ⟨rfl, -, -⟩
      · exact ih.trans htakes.suffix
      · exact ih

theorem Runs.single (h : turn s b = some (s', b', o)) : Runs turn s b o s' b' := by
  have := Runs.step h (.refl s' b')
  rwa [List.append_nil] at this

theorem Runs.trans (h : Runs turn s b o s' b') (h' : Runs turn s' b' o' s'' b'') :
    Runs turn s b (o ++ o') s'' b'' := by
  induction h with
  | refl s b => exact h'
  | step hturn _ ih =>
      rw [List.append_assoc]
      exact .step hturn (ih h')

theorem Runs.append (hext : Extends turn) (h : Runs turn s b o s' b') (x : List A) :
    Runs turn s (b ++ x) o s' (b' ++ x) := by
  induction h with
  | refl s b => exact .refl s _
  | step hturn _ ih => exact .step (hext hturn x) ih

/-- Turns that are taken from a state are taken from one that does the same on the input. -/
theorem Runs.swap (hsame : turn s'' b = turn s b) (h : Runs turn s b o s' b') :
    Runs turn s'' b o s' b' ∨ (o = [] ∧ s' = s ∧ b' = b) := by
  cases h with
  | refl => exact .inr ⟨rfl, rfl, rfl⟩
  | step hturn hrest => exact .inl (.step (hsame.trans hturn) hrest)

theorem Settles.unique (h : Settles turn s b o s' b') :
    ∀ {o₂ s₂ b₂}, Settles turn s b o₂ s₂ b₂ → o₂ = o ∧ s₂ = s' ∧ b₂ = b' := by
  obtain ⟨hrun, hquiet⟩ := h
  induction hrun with
  | refl s b =>
      rintro o₂ s₂ b₂ ⟨h₂, -⟩
      cases h₂ with
      | refl => exact ⟨rfl, rfl, rfl⟩
      | step hturn => rw [hquiet] at hturn; cases hturn
  | step hturn _ ih =>
      rintro o₂ s₂ b₂ ⟨h₂, hquiet₂⟩
      cases h₂ with
      | refl => rw [hquiet₂] at hturn; cases hturn
      | step hturn₂ hrest =>
          rw [hturn] at hturn₂
          cases hturn₂
          obtain ⟨rfl, rfl, rfl⟩ := ih hquiet ⟨hrest, hquiet₂⟩
          exact ⟨rfl, rfl, rfl⟩

/-- At most so many turns: the state, the input that is left, and the events. -/
def run (turn : S → List A → Option (S × List A × List E)) : Nat → S → List A → S × List A × List E
  | 0, s, b => (s, b, [])
  | n + 1, s, b =>
      match turn s b with
      | none => (s, b, [])
      | some (s', b', o) => ((run turn n s' b').1, (run turn n s' b').2.1, o ++ (run turn n s' b').2.2)

/-- Turns that take something settle within the length of the input. -/
theorem run_settles (htakes : ∀ {s b s' b' o}, turn s b = some (s', b', o) → Takes b b') :
    ∀ (n : Nat) (s : S) (b : List A), b.length ≤ n →
      Settles turn s b (run turn n s b).2.2 (run turn n s b).1 (run turn n s b).2.1 := by
  have hnil : ∀ s, turn s [] = none := by
    intro s
    cases h : turn s [] with
    | none => rfl
    | some p => exact absurd (htakes h).length_lt (Nat.not_lt_zero _)
  intro n
  induction n with
  | zero =>
      intro s b hn
      rw [List.length_eq_zero_iff.1 (Nat.le_zero.1 hn)]
      exact ⟨.refl s [], hnil s⟩
  | succ n ih =>
      intro s b hn
      rw [run]
      cases h : turn s b with
      | none => exact ⟨.refl s b, h⟩
      | some p =>
          obtain ⟨s', b', o⟩ := p
          have hlt := (htakes h).length_lt
          obtain ⟨hrun, hquiet⟩ := ih s' b' (by omega)
          exact ⟨.step h hrun, hquiet⟩

/-- What is left to do after the first turns. -/
theorem Settles.of_runs (h : Settles turn s b o s'' b'') :
    ∀ {o₁ s₁ b₁}, Runs turn s b o₁ s₁ b₁ →
      ∃ o₂, o = o₁ ++ o₂ ∧ Settles turn s₁ b₁ o₂ s'' b'' := by
  intro o₁ s₁ b₁ h₁
  induction h₁ generalizing o with
  | refl s b => exact ⟨o, rfl, h⟩
  | step hturn _ ih =>
      obtain ⟨hrun, hquiet⟩ := h
      cases hrun with
      | refl => rw [hquiet] at hturn; cases hturn
      | step hturn₂ hrest =>
          rw [hturn] at hturn₂
          cases hturn₂
          obtain ⟨o₂, rfl, hset⟩ := ih ⟨hrest, hquiet⟩
          exact ⟨o₂, (List.append_assoc _ _ _).symm, hset⟩

/-! ## Incremental parsers -/

section Driver

variable {D R Err : Type}

/-- Empty increments until one gives no events. -/
def drain (parse : D → List A → Except Err (D × R)) (events : R → List E) :
    Nat → D → Except Err (D × List R)
  | 0, d => .ok (d, [])
  | n + 1, d => do
      let (d, r) ← parse d []
      if (events r).isEmpty then return (d, [])
      let (d, rs) ← drain parse events n d
      return (d, r :: rs)

/-- One chunk and its drain. -/
def increment (parse : D → List A → Except Err (D × R)) (events : R → List E) (size : D → Nat)
    (d : D) (chunk : List A) : Except Err (D × List R) := do
  let (d, r) ← parse d chunk
  let (d, rs) ← drain parse events (size d + 1) d
  return (d, r :: rs)

def feed (parse : D → List A → Except Err (D × R)) (events : R → List E) (size : D → Nat) :
    D → List (List A) → Except Err (D × List R)
  | d, [] => .ok (d, [])
  | d, chunk :: chunks => do
      let (d, rs) ← increment parse events size d chunk
      let (d, rest) ← feed parse events size d chunks
      return (d, rs ++ rest)

theorem feed_append (parse : D → List A → Except Err (D × R)) (events : R → List E)
    (size : D → Nat) (xs ys : List (List A)) (d : D) :
    feed parse events size d (xs ++ ys) = (do
      let (d, rs) ← feed parse events size d xs
      let (d, rest) ← feed parse events size d ys
      return (d, rs ++ rest)) := by
  induction xs generalizing d with
  | nil =>
      rw [List.nil_append]
      cases hy : feed parse events size d ys <;> simp [feed, bind, Except.bind, hy, pure, Except.pure]
  | cons x xs ih =>
      rw [List.cons_append, feed, feed]
      cases increment parse events size d x with
      | error e => rfl
      | ok p =>
          simp only [bind, Except.bind, ih, pure, Except.pure]
          cases feed parse events size p.1 xs with
          | error e => rfl
          | ok q =>
              dsimp only
              cases feed parse events size q.1 ys with
              | error e => rfl
              | ok r => simp

/-- A parser that does not raise makes a feed that does not raise. -/
theorem feed_ok {parse : D → List A → Except Err (D × R)} (hparse : ∀ d x, ∃ p, parse d x = .ok p)
    (events : R → List E) (size : D → Nat) (xs : List (List A)) (d : D) :
    ∃ p, feed parse events size d xs = .ok p := by
  have hdrain : ∀ n d, ∃ p, drain parse events n d = .ok p := by
    intro n
    induction n with
    | zero => exact fun d => ⟨_, rfl⟩
    | succ n ih =>
        intro d
        obtain ⟨p, hp⟩ := hparse d []
        obtain ⟨q, hq⟩ := ih p.1
        rw [drain, hp]
        simp only [bind, Except.bind, pure, Except.pure]
        split
        · exact ⟨_, rfl⟩
        · rw [hq]
          exact ⟨_, rfl⟩
  induction xs generalizing d with
  | nil => exact ⟨_, rfl⟩
  | cons x xs ih =>
      obtain ⟨p, hp⟩ := hparse d x
      obtain ⟨q, hq⟩ := hdrain (size p.1 + 1) p.1
      obtain ⟨r, hr⟩ := ih q.1
      rw [feed, increment, hp]
      simp only [bind, Except.bind, pure, Except.pure, hq, hr]
      exact ⟨_, rfl⟩

/-- The transducer passes silently over input that changes nothing; in an exact state there is none
of it. -/
def Quiet (turn : S → List A → Option (S × List A × List E)) (Raises Exact : S → Prop) (s : S)
    (b : List A) : Prop :=
  ∃ b', Settles turn s b [] s b' ∧ ¬ Raises s ∧ (Exact s → b' = b)

/-- The parser takes turns of the transducer on the texts that are `Fine`; it stops where the
transducer is quiet, or early with an event to deliver. -/
structure Follows (turn : S → List A → Option (S × List A × List E)) (start : S)
    (Fine : List A → Prop) (parse : D → List A → Except Err (D × R)) (events : R → List E)
    (buffer : D → List A) (Rel : D → S → Prop) (Raises Exact : S → Prop) : Prop where
  ext : Extends turn
  shrinks : ∃ rank, Shrinks turn rank
  halts : ∀ {s b}, Raises s → turn s b = none
  fine : ∀ {t x}, Fine (t ++ x) → Fine t
  ok : ∀ {d s t o x d' r}, Rel d s → Runs turn start t o s (buffer d) → Fine (t ++ x) →
    parse d x = .ok (d', r) →
    ∃ s', Runs turn s (buffer d ++ x) (events r) s' (buffer d') ∧ Rel d' s' ∧
      (Quiet turn Raises Exact s' (buffer d') ∨ events r ≠ [])
  error : ∀ {d s t o x e}, Rel d s → Runs turn start t o s (buffer d) → Fine (t ++ x) →
    parse d x = .error e → ∃ o' s' b', Runs turn s (buffer d ++ x) o' s' b' ∧ Raises s'

theorem Settles.exists (hshrinks : Shrinks turn rank) (s : S) (b : List A) :
    ∃ o s' b', Settles turn s b o s' b' := by
  induction hn : b.length using Nat.strongRecOn generalizing s b with
  | ind n ih =>
      induction hm : rank s using Nat.strongRecOn generalizing s with
      | ind m ih' =>
          cases h : turn s b with
          | none => exact ⟨[], s, b, .refl s b, h⟩
          | some p =>
              obtain ⟨s₁, b₁, o₁⟩ := p
              rcases hshrinks h with htakes | ⟨rfl, -, hrank⟩
              · have hlt := htakes.length_lt
                obtain ⟨o, s', b', hrun, hquiet⟩ := ih b₁.length (by omega) s₁ b₁ rfl
                exact ⟨o₁ ++ o, s', b', .step h hrun, hquiet⟩
              · obtain ⟨o, s', b', hrun, hquiet⟩ := ih' (rank s₁) (by omega) s₁ rfl
                exact ⟨o₁ ++ o, s', b', .step h hrun, hquiet⟩

theorem Runs.shrinks (hshrinks : Shrinks turn rank) (h : Runs turn s b o s' b') :
    b'.length ≤ b.length ∧ (o ≠ [] → b'.length < b.length) := by
  induction h with
  | refl s b => exact ⟨Nat.le_refl _, fun hne => absurd rfl hne⟩
  | step hturn _ ih =>
      rcases hshrinks hturn with htakes | ⟨rfl, rfl, -⟩
      · have := htakes.length_lt
        exact ⟨by omega, fun _ => by omega⟩
      · exact ih

theorem Shrinks.of_takes (h : ∀ {s b s' b' o}, turn s b = some (s', b', o) → Takes b b') :
    Shrinks turn fun _ => 0 := fun _ _ _ _ _ hturn => .inl (h hturn)

/-- The turns after the first ones. -/
theorem Settles.cons_runs (hext : Extends turn) (h : Settles turn s b [] s' b') {x : List A}
    (hset : Settles turn s' (b' ++ x) o s'' b'') : Settles turn s (b ++ x) o s'' b'' :=
  ⟨(h.1.append hext x).trans hset.1, hset.2⟩

variable {start : S} {Fine : List A → Prop} {parse : D → List A → Except Err (D × R)}
  {events : R → List E} {buffer : D → List A} {Rel : D → S → Prop} {Raises Exact : S → Prop}

theorem Follows.drain (h : Follows turn start Fine parse events buffer Rel Raises Exact) :
    ∀ (n : Nat) {d : D} {s : S} {t : List A} {o₀ o : List E}, Rel d s →
      Runs turn start t o₀ s (buffer d) → Fine t → (buffer d).length < n →
      Settles turn s (buffer d) o s' b' →
      (¬ Raises s' → ∃ d' rs, drain parse events n d = .ok (d', rs) ∧
        rs.flatMap events = o ∧ Rel d' s' ∧ Runs turn s (buffer d) o s' (buffer d') ∧
        Settles turn s' (buffer d') [] s' b' ∧ (Exact s' → b' = buffer d')) ∧
      (Raises s' → ∃ e, drain parse events n d = .error e) := by
  obtain ⟨rank, hshrinks⟩ := h.shrinks
  intro n
  induction n with
  | zero => exact fun _ _ _ hn => absurd hn (Nat.not_lt_zero _)
  | succ n ih =>
      intro d s t o₀ o hrel hrun₀ hfine hn hset
      rw [← List.append_nil t] at hfine
      unfold Transducer.drain
      cases hparse : parse d [] with
      | error e =>
          obtain ⟨o₁, s₁, b₁, hrun, hraise⟩ := h.error hrel hrun₀ hfine hparse
          rw [List.append_nil] at hrun
          obtain ⟨-, rfl, -⟩ := Settles.unique (hset.of_runs hrun).choose_spec.2
            ⟨.refl s₁ b₁, h.halts hraise⟩
          exact ⟨fun hno => absurd hraise hno, fun _ => ⟨e, rfl⟩⟩
      | ok p =>
          obtain ⟨d₁, r⟩ := p
          obtain ⟨s₁, hrun, hrel₁, hstop⟩ := h.ok hrel hrun₀ hfine hparse
          rw [List.append_nil] at hrun hfine
          obtain ⟨o₂, rfl, hset₁⟩ := hset.of_runs hrun
          by_cases hr : events r = []
          · -- no event, so only silent turns are left
            obtain ⟨b₂, hquiet, hno, hexact⟩ := hstop.resolve_right fun hne => hne hr
            obtain ⟨rfl, rfl, rfl⟩ := Settles.unique hset₁ hquiet
            rw [hr] at hrun
            refine ⟨fun _ => ⟨d₁, [], ?_, by simp [hr], hrel₁, by simpa [hr] using hrun,
              hquiet, hexact⟩, fun hraise => absurd hraise hno⟩
            simp [bind, Except.bind, hr, pure, Except.pure]
          · have hlt := (hrun.shrinks hshrinks).2 hr
            obtain ⟨hok, herr⟩ := ih hrel₁ (hrun₀.trans hrun) hfine (by omega) hset₁
            have hempty : (events r).isEmpty = false := by
              simpa using hr
            constructor
            · intro hno
              obtain ⟨d', rs, hd, ho, hrel', hrun', hset'⟩ := hok hno
              refine ⟨d', r :: rs, ?_, by rw [List.flatMap_cons, ho], hrel', hrun.trans hrun',
                hset'⟩
              simp [bind, Except.bind, hempty, hd, pure, Except.pure]
            · intro hraise
              obtain ⟨e, hd⟩ := herr hraise
              refine ⟨e, ?_⟩
              simp [bind, Except.bind, hempty, hd]

theorem Follows.increment (h : Follows turn start Fine parse events buffer Rel Raises Exact) {d : D}
    {s : S} {t x : List A} {o₀ o : List E} (hrel : Rel d s)
    (hrun₀ : Runs turn start t o₀ s (buffer d)) (hfine : Fine (t ++ x))
    (hset : Settles turn s (buffer d ++ x) o s' b') :
    (¬ Raises s' → ∃ d' rs, increment parse events (List.length ∘ buffer) d x = .ok (d', rs) ∧
      rs.flatMap events = o ∧ Rel d' s' ∧ Runs turn s (buffer d ++ x) o s' (buffer d') ∧
      Settles turn s' (buffer d') [] s' b' ∧ (Exact s' → b' = buffer d')) ∧
    (Raises s' → ∃ e, increment parse events (List.length ∘ buffer) d x = .error e) := by
  unfold Transducer.increment
  cases hparse : parse d x with
  | error e =>
      obtain ⟨o₁, s₁, b₁, hrun, hraise⟩ := h.error hrel hrun₀ hfine hparse
      obtain ⟨-, rfl, -⟩ := Settles.unique (hset.of_runs hrun).choose_spec.2
        ⟨.refl s₁ b₁, h.halts hraise⟩
      exact ⟨fun hno => absurd hraise hno, fun _ => ⟨e, rfl⟩⟩
  | ok p =>
      obtain ⟨d₁, r⟩ := p
      obtain ⟨s₁, hrun, hrel₁, -⟩ := h.ok hrel hrun₀ hfine hparse
      obtain ⟨o₂, rfl, hset₁⟩ := hset.of_runs hrun
      obtain ⟨hok, herr⟩ := h.drain ((buffer d₁).length + 1) hrel₁
        ((hrun₀.append h.ext x).trans hrun) hfine (Nat.lt_succ_self _) hset₁
      constructor
      · intro hno
        obtain ⟨d', rs, hd, ho, hrel', hrun', hset'⟩ := hok hno
        refine ⟨d', r :: rs, ?_, by rw [List.flatMap_cons, ho], hrel', hrun.trans hrun', hset'⟩
        simp [bind, Except.bind, hd, pure, Except.pure]
      · intro hraise
        obtain ⟨e, hd⟩ := herr hraise
        refine ⟨e, ?_⟩
        simp [bind, Except.bind, hd]

/-- The events of a feed are those of the text, however it was divided. -/
theorem Follows.feed (h : Follows turn start Fine parse events buffer Rel Raises Exact)
    (chunks : List (List A)) :
    ∀ {d : D} {s : S} {t : List A} {o₀ o : List E}, Rel d s →
      Runs turn start t o₀ s (buffer d) → Fine (t ++ chunks.flatten) →
      Quiet turn Raises Exact s (buffer d) →
      Settles turn s (buffer d ++ chunks.flatten) o s' b' →
      (¬ Raises s' → ∃ d' rs,
        feed parse events (List.length ∘ buffer) d chunks = .ok (d', rs) ∧
        rs.flatMap events = o ∧ Rel d' s' ∧
        Runs turn s (buffer d ++ chunks.flatten) o s' (buffer d') ∧
        Settles turn s' (buffer d') [] s' b' ∧ (Exact s' → b' = buffer d')) ∧
      (Raises s' → ∃ e, feed parse events (List.length ∘ buffer) d chunks = .error e) := by
  induction chunks with
  | nil =>
      intro d s t o₀ o hrel hrun₀ hfine hquiet hset
      rw [List.flatten_nil, List.append_nil] at hset
      obtain ⟨b₁, hset₁, hno, hexact⟩ := hquiet
      obtain ⟨rfl, rfl, rfl⟩ := Settles.unique hset₁ hset
      refine ⟨fun _ => ⟨d, [], rfl, rfl, hrel, ?_, hset, hexact⟩, fun hraise => absurd hraise hno⟩
      rw [List.flatten_nil, List.append_nil]
      exact .refl _ _
  | cons x chunks ih =>
      intro d s t o₀ o hrel hrun₀ hfine hquiet hset
      rw [List.flatten_cons, ← List.append_assoc] at hset hfine
      obtain ⟨rank, hshrinks⟩ := h.shrinks
      obtain ⟨o₁, s₁, b₁, hset₁⟩ := Settles.exists hshrinks s (buffer d ++ x)
      obtain ⟨o₂, rfl, hset₂⟩ := hset.of_runs (hset₁.1.append h.ext chunks.flatten)
      obtain ⟨hok₁, herr₁⟩ := h.increment hrel hrun₀ (h.fine hfine) hset₁
      unfold Transducer.feed
      by_cases hraise₁ : Raises s₁
      · obtain ⟨e, hd⟩ := herr₁ hraise₁
        obtain ⟨-, rfl, -⟩ := Settles.unique hset₂ ⟨.refl s₁ _, h.halts hraise₁⟩
        refine ⟨fun hno => absurd hraise₁ hno, fun _ => ⟨e, ?_⟩⟩
        simp [bind, Except.bind, hd]
      · obtain ⟨d₁, rs₁, hd₁, ho₁, hrel₁, hrun₁, hset₁', hexact₁⟩ := hok₁ hraise₁
        obtain ⟨hok₂, herr₂⟩ := ih hrel₁ ((hrun₀.append h.ext x).trans hrun₁) hfine
          ⟨b₁, hset₁', hraise₁, hexact₁⟩ (hset₁'.cons_runs h.ext hset₂)
        constructor
        · intro hno
          obtain ⟨d', rs, hd, ho, hrel', hrun', hset'⟩ := hok₂ hno
          refine ⟨d', rs₁ ++ rs, ?_, by rw [List.flatMap_append, ho₁, ho], hrel', ?_, hset'⟩
          · simp [bind, Except.bind, hd₁, hd, pure, Except.pure]
          · rw [List.flatten_cons, ← List.append_assoc]
            exact (hrun₁.append h.ext chunks.flatten).trans hrun'
        · intro hraise
          obtain ⟨e, hd⟩ := herr₂ hraise
          refine ⟨e, ?_⟩
          simp [bind, Except.bind, hd₁, hd]

end Driver

end Transducer
