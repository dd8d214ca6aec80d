import FreeToken.Server.Reply

/-!
# Adapters that write blocks

What an adapter and a client of a block protocol owe each other, event by event; from it the client
has the reply of every sequence of events that a generation can yield.
-/

set_option autoImplicit false

namespace FreeToken

open BlockStream
open Generator (inOrder Emits)

namespace Generation

/-- An adapter that writes events as blocks, and a client that reads them.  `Has v a c` says that the
client in the state `c` has the view `v`, and that the adapter in the state `a` knows. -/
structure BlockProtocol (A F C : Type) where
  dv : Delivery
  onEvent : A → GenEvent → A × List F
  step : C → F → Option C
  Has : View Part → A → C → Prop
  ordinal : A → Option Int
  /-- Fragments of the open call are passed on. -/
  passing : A → Bool
  empty_content : ∀ a, onEvent a (.contentDelta []) = (a, [])
  reasoning_same : ∀ {v a c before} (text : Text), Has v a c → v.current = some (.reasoning before) →
    text ≠ [] → Emits step (Has { v with current := some (.reasoning (before ++ text)) }) c
      (onEvent a (.reasoningDelta text))
  reasoning_new : ∀ {v a c} (text : Text), Has v a c → v.current.map Part.kind ≠ some .reasoning →
    text ≠ [] → Emits step (Has ⟨v.all, some (.reasoning text)⟩) c (onEvent a (.reasoningDelta text))
  content_same : ∀ {v a c before} (text : Text), Has v a c → v.current = some (.content before) →
    text ≠ [] → Emits step (Has { v with current := some (.content (before ++ text)) }) c
      (onEvent a (.contentDelta text))
  content_new : ∀ {v a c} (text : Text), Has v a c → v.current.map Part.kind ≠ some .content →
    text ≠ [] → Emits step (Has ⟨v.all, some (.content text)⟩) c (onEvent a (.contentDelta text))
  start : ∀ {v a c} (i : Int) (name : Option Text) (st : Bool), Has v a c →
    Emits step (fun a' c' => Has ⟨v.all, some (.call (dv.naming name) [])⟩ a' c' ∧
      ordinal a' = some i ∧ passing a' = dv.forwards st) c (onEvent a (.toolCallStart i name st))
  args_on : ∀ {v a c name sent} (i : Int) (fragment : Text), Has v a c →
    v.current = some (.call name sent) → passing a = true →
      Emits step (fun a' c' => Has { v with current := some (.call name (sent ++ fragment)) } a' c' ∧
        ordinal a' = ordinal a ∧ passing a' = passing a) c (onEvent a (.toolCallArgsDelta i fragment))
  args_off : ∀ {v a c} (i : Int) (fragment : Text), Has v a c →
    v.current.map Part.kind ≠ some .call ∨ passing a = false →
      onEvent a (.toolCallArgsDelta i fragment) = (a, [])
  close : ∀ {v a c name sent} (item : CallItem), Has v a c → v.current = some (.call name sent) →
    ordinal a = some item.toolIndex →
      Emits step (Has ⟨v.closed ++ [.call name (dv.closing sent item.parameters)], none⟩) c
        (onEvent a (.toolCallsDelta [item]))
  whole : ∀ {v a c} (cs : List CallItem), Has v a c → v.current.map Part.kind ≠ some .call → cs ≠ [] →
    Emits step (Has ⟨v.all ++ cs.map (fun item => .call (dv.naming item.name) item.parameters), none⟩)
      c (onEvent a (.toolCallsDelta cs))

/-! ## What an event does -/

/-- The last closed block of a view with no open block is a call. -/
def Loose (v : View Part) : Prop :=
  v.current = none → ∀ b, v.closed.getLast? = some b → b.kind = .call

theorem loose_some (closed : List Part) (b : Part) : Loose ⟨closed, some b⟩ := fun h => by cases h

theorem loose_call (ps : List Part) (name : Option Text) (args : Text) :
    Loose ⟨ps ++ [.call name args], none⟩ := by
  intro _ b hb
  rw [List.getLast?_concat, Option.some_inj] at hb
  rw [← hb, Part.kind]

/-- Behind the blocks of a view a text of another kind stands alone. -/
theorem join_view {v : View Part} (hloose : Loose v) {p : Part} (hp : p.kind ≠ .call)
    (h : v.current.map Part.kind ≠ some p.kind) : join v.all p = v.all ++ [p] := by
  apply join_other
  intro b hb
  cases hcur : v.current with
  | none =>
      rw [View.all_of_none hcur] at hb
      rw [hloose hcur b hb]
      exact Ne.symm hp
  | some c =>
      rw [View.all_of_some hcur, List.getLast?_concat, Option.some_inj] at hb
      rw [hcur, Option.map_some, hb] at h
      exact fun heq => h (congrArg some heq)

variable {A F C : Type} {p : BlockProtocol A F C}

/-- The client has the parts that were said, and the adapter is where a reader of the events is. -/
structure Mirrors (p : BlockProtocol A F C) (parts : List Part) (w : Within) (r : Reader) (a : A)
    (c : C) (v : View Part) : Prop where
  has : p.Has v a c
  said : v.all = parts ++ w.parts
  loose : Loose v
  inside : ∀ name sent stable, w = .inside name sent stable →
    v.current = some (.call name sent) ∧ p.passing a = p.dv.forwards stable ∧
      p.ordinal a = some (r.calls : Int)
  apart : w.parts = [] → v.current.map Part.kind ≠ some .call
  reader : r.openCall = none ↔ w = .outside

/-- What is yielded leaves the client with the parts that are said then. -/
def Passes (p : BlockProtocol A F C) (parts : List Part) (said : Within × List Part) (r : Reader)
    (c : C) (out : A × List F) : Prop :=
  Emits p.step (fun a' c' => ∃ v, Mirrors p (said.2.foldl join parts) said.1 r a' c' v) c out

variable {parts : List Part} {w : Within} {r r' : Reader} {a : A} {c : C} {v : View Part}
  {streamed : Bool}

/-- Text is said outside a call, or in reasoning that came while it was open. -/
theorem mirrors_text {a' : A} {c' : C} {v' : View Part} {q : Part} (h : Mirrors p parts w r a c v)
    (hhas : p.Has v' a' c') (hall : v'.all = join v.all q) (hq : q.kind ≠ .call)
    (hcur : v'.current.map Part.kind = some q.kind) (w' : Within) (hw' : w'.parts = [])
    (hr : r.openCall = none ↔ w' = .outside) :
    Mirrors p (join (parts ++ w.parts) q) w' r a' c' v' where
  has := hhas
  said := by rw [hall, h.said, hw', List.append_nil]
  loose hnone := by
    rw [hnone] at hcur
    cases hcur
  inside name sent stable heq := by
    rw [heq] at hw'
    cases hw'
  apart _ := by
    rw [hcur]
    exact fun heq => hq (Option.some_inj.1 heq)
  reader := hr

/-- A text joins the open block of its kind, or is a new one. -/
theorem text_emits (hloose : Loose v) (ev : GenEvent) (mk : Text → Part) (text : Text)
    (hmk : ∀ t, (mk t).kind = (mk text).kind) (hcall : (mk text).kind ≠ .call)
    (hof : ∀ q : Part, q.kind = (mk text).kind → ∃ t, q = mk t)
    (hjoin : ∀ ps t, join (ps ++ [mk t]) (mk text) = ps ++ [mk (t ++ text)])
    (hsame : ∀ t, v.current = some (mk t) →
      Emits p.step (p.Has { v with current := some (mk (t ++ text)) }) c (p.onEvent a ev))
    (hnew : v.current.map Part.kind ≠ some (mk text).kind →
      Emits p.step (p.Has ⟨v.all, some (mk text)⟩) c (p.onEvent a ev)) :
    Emits p.step (fun a' c' => ∃ v', p.Has v' a' c' ∧ v'.all = join v.all (mk text) ∧
      v'.current.map Part.kind = some (mk text).kind) c (p.onEvent a ev) := by
  by_cases hkind : v.current.map Part.kind = some (mk text).kind
  · obtain ⟨q, hq, hqk⟩ := Option.map_eq_some_iff.1 hkind
    obtain ⟨t, rfl⟩ := hof q hqk
    apply (hsame t hq).mono
    intro c' hhas
    refine ⟨_, hhas, ?_, ?_⟩
    · rw [View.all_of_some hq, hjoin]
      rfl
    · rw [Option.map_some, hmk]
  · apply (hnew hkind).mono
    intro c' hhas
    refine ⟨_, hhas, ?_, rfl⟩
    rw [join_view hloose hcall hkind]
    rfl

theorem reasoning_passes (h : Mirrors p parts w r a c v) {text : Text} (hne : text ≠ []) :
    Passes p parts (adds p.dv w (.reasoningDelta text)) r c (p.onEvent a (.reasoningDelta text)) := by
  have htext := text_emits h.loose (.reasoningDelta text) .reasoning text (fun _ => rfl)
    (by simp [Part.kind]) (fun q hq => by cases q <;> first | exact ⟨_, rfl⟩ | cases hq)
    (fun ps t => join_reasoning ps t text) (fun t ht => p.reasoning_same text h.has ht hne)
    (fun hk => p.reasoning_new text h.has hk hne)
  apply htext.mono
  rintro c' ⟨v', hhas, hall, hcur⟩
  refine ⟨v', ?_⟩
  cases hw : w.parts with
  | nil =>
      have hm := mirrors_text h hhas hall (by simp [Part.kind]) hcur w hw h.reader
      rw [hw, List.append_nil] at hm
      rw [adds_reasoning hw hne]
      exact hm
  | cons q qs =>
      cases w with
      | outside => cases hw
      | aside => cases hw
      | inside name sent stable =>
          have hopen : r.openCall = none ↔ Within.aside = .outside := by
            rw [h.reader]
            simp
          have hm := mirrors_text h hhas hall (by simp [Part.kind]) hcur .aside rfl hopen
          rw [adds_interrupted name sent stable hne, List.foldl_cons, join_call]
          exact hm

theorem content_passes (h : Mirrors p parts w r a c v) (hopen : r.openCall = none) (text : Text) :
    Passes p parts (adds p.dv w (.contentDelta text)) r c (p.onEvent a (.contentDelta text)) := by
  have hw : w.parts = [] := by rw [h.reader.1 hopen, Within.parts_outside]
  by_cases hnil : text = []
  · subst hnil
    rw [p.empty_content]
    exact Emits.nothing ⟨v, h⟩
  · have htext := text_emits h.loose (.contentDelta text) .content text (fun _ => rfl)
      (by simp [Part.kind]) (fun q hq => by cases q <;> first | exact ⟨_, rfl⟩ | cases hq)
      (fun ps t => join_content ps t text) (fun t ht => p.content_same text h.has ht hnil)
      (fun hk => p.content_new text h.has hk hnil)
    apply htext.mono
    rintro c' ⟨v', hhas, hall, hcur⟩
    refine ⟨v', ?_⟩
    have hm := mirrors_text h hhas hall (by simp [Part.kind]) hcur .outside rfl
      ⟨fun _ => rfl, fun _ => hopen⟩
    rw [hw, List.append_nil] at hm
    rw [adds_content hnil, List.foldl_append, hw]
    exact hm

theorem start_passes (h : Mirrors p parts w r a c v) (hopen : r.openCall = none) (name : Option Text)
    (stable : Bool) : Passes p parts (adds p.dv w (.toolCallStart r.calls name stable))
      { r with openCall := some (name, []) } c (p.onEvent a (.toolCallStart r.calls name stable)) := by
  have hw : w.parts = [] := by rw [h.reader.1 hopen, Within.parts_outside]
  apply (p.start r.calls name stable h.has).mono
  rintro c' ⟨hhas, hord, hpassing⟩
  rw [adds, hw]
  exact ⟨_,
    { has := hhas
      said := by
        rw [View.all_of_some rfl, h.said, hw, List.append_nil, Within.parts_inside, List.foldl_nil]
      loose := loose_some _ _
      inside := fun name' sent' stable' heq => by
        cases heq
        exact ⟨rfl, hpassing, hord⟩
      apart := fun hparts => by cases hparts
      reader := by simp }⟩

/-- A fragment that is not passed on changes nothing. -/
theorem Mirrors.skip (h : Mirrors p parts w r a c v) {call call' : Option Text × Text}
    (hopen : r.openCall = some call) :
    Mirrors p parts w { r with openCall := some call' } a c v where
  has := h.has
  said := h.said
  loose := h.loose
  inside := h.inside
  apart := h.apart
  reader := by
    rw [← h.reader, hopen]
    simp

/-- The open call is the last block. -/
theorem Mirrors.closed_eq {name : Option Text} {sent : Text} {stable : Bool}
    (h : Mirrors p parts (.inside name sent stable) r a c v) : v.closed = parts := by
  have hsaid := h.said
  rw [View.all_of_some (h.inside name sent stable rfl).1, Within.parts_inside] at hsaid
  exact (List.append_inj' hsaid rfl).1

theorem args_passes (h : Mirrors p parts w r a c v) {call : Option Text × Text}
    (hopen : r.openCall = some call) (i : Int) (fragment : Text) (call' : Option Text × Text) :
    Passes p parts (adds p.dv w (.toolCallArgsDelta i fragment)) { r with openCall := some call' } c
      (p.onEvent a (.toolCallArgsDelta i fragment)) := by
  cases w with
  | outside =>
      rw [h.reader.2 rfl] at hopen
      cases hopen
  | aside =>
      rw [p.args_off i fragment h.has (.inl (h.apart rfl)), adds_args_aside]
      exact Emits.nothing ⟨v, h.skip hopen⟩
  | inside name sent stable =>
      obtain ⟨hcur, hpassing, hord⟩ := h.inside name sent stable rfl
      rw [adds_args_inside]
      cases hforwards : p.dv.forwards stable with
      | false =>
          rw [p.args_off i fragment h.has (.inr (hpassing.trans hforwards))]
          exact Emits.nothing ⟨v, h.skip hopen⟩
      | true =>
          apply (p.args_on i fragment h.has hcur (hpassing.trans hforwards)).mono
          rintro c' ⟨hhas, hord', hpassing'⟩
          rw [if_pos rfl]
          exact ⟨_,
            { has := hhas
              said := by
                rw [View.all_of_some rfl, h.closed_eq]
                rfl
              loose := loose_some _ _
              inside := fun name' sent' stable' heq => by
                cases heq
                exact ⟨rfl, hpassing'.trans hpassing, hord'.trans hord⟩
              apart := fun hparts => by cases hparts
              reader := by simp }⟩

/-- Calls without an opening, or one that reasoning interrupted. -/
theorem whole_passes (h : Mirrors p parts w r a c v) (hw : w.parts = []) {cs : List CallItem}
    (hne : cs ≠ []) (n : Nat) : Passes p parts (adds p.dv w (.toolCallsDelta cs))
      { r with calls := n, openCall := none } c (p.onEvent a (.toolCallsDelta cs)) := by
  apply (p.whole cs h.has (h.apart hw) hne).mono
  intro c' hhas
  rw [adds_calls hw]
  exact ⟨_,
    { has := hhas
      said := by
        rw [View.all_of_none rfl, h.said, hw, List.append_nil, Within.parts_outside, List.append_nil,
          foldl_join_calls]
      loose := by
        intro _ b hb
        obtain ⟨item, -, rfl⟩ : ∃ item ∈ cs, Part.call (p.dv.naming item.name) item.parameters = b := by
          have hlast : cs.map (fun item => Part.call (p.dv.naming item.name) item.parameters) ≠ [] := by
            simpa using hne
          rw [List.getLast?_append_of_ne_nil _ hlast] at hb
          exact List.mem_map.1 (List.mem_of_getLast? hb)
        rfl
      inside := fun _ _ _ heq => by cases heq
      apart := fun _ heq => by cases heq
      reader := by simp }⟩

/-- The open call is closed. -/
theorem close_passes {name : Option Text} {sent : Text} {stable : Bool}
    (h : Mirrors p parts (.inside name sent stable) r a c v) {item : CallItem}
    (hindex : item.toolIndex = r.calls) (n : Nat) :
    Passes p parts (adds p.dv (.inside name sent stable) (.toolCallsDelta [item]))
      { r with calls := n, openCall := none } c (p.onEvent a (.toolCallsDelta [item])) := by
  obtain ⟨hcur, hpassing, hord⟩ := h.inside name sent stable rfl
  apply (p.close item h.has hcur (hord.trans (congrArg some hindex.symm))).mono
  intro c' hhas
  exact ⟨_,
    { has := hhas
      said := by
        rw [View.all_of_none rfl, h.closed_eq, adds, List.map_cons, List.map_nil, List.foldl_cons,
          join_call]
        exact (List.append_nil _).symm
      loose := loose_call _ _ _
      inside := fun _ _ _ heq => by cases heq
      apart := fun _ heq => by cases heq
      reader := by simp [adds] }⟩

/-- An event that a reader takes, short of the end. -/
theorem event_passes (h : Mirrors p parts w r a c v) {ev : GenEvent}
    (htakes : Reader.Takes streamed r ev r') (hgoing : r'.done = none) :
    Passes p parts (adds p.dv w ev) r' c (p.onEvent a ev) := by
  cases htakes with
  | reasoning hne => exact reasoning_passes h hne
  | content text hopen => exact content_passes h hopen text
  | start name stable hopen => exact start_passes h hopen name stable
  | args hopen hne => exact args_passes h hopen _ _ _
  | @whole cs hopen hstreamed hcalls hne =>
      have hw : w.parts = [] := by rw [h.reader.1 hopen, Within.parts_outside]
      have hpass := whole_passes h hw hne cs.length
      rwa [← hopen] at hpass
  | close hopen hindex hname hargs =>
      cases hw : w.parts with
      | nil => exact whole_passes h hw (List.cons_ne_nil _ _) _
      | cons q qs =>
          cases w with
          | outside => cases hw
          | aside => cases hw
          | inside name sent stable => exact close_passes h hindex _
  | done d hopen => cases hgoing

/-! ## Runs -/

/-- The signals of an adapter whose frame for a silent interval the client only skips. -/
theorem run_passes {onSignal : A → Signal → A × List F}
    (hevent : ∀ a ev, onSignal a (.event ev) = p.onEvent a ev)
    (hsilent : ∀ v a c, p.Has v a c → Emits p.step (fun a' c' => p.Has v a' c' ∧
      p.ordinal a' = p.ordinal a ∧ p.passing a' = p.passing a) c (onSignal a .keepalive))
    (h : Mirrors p parts w r a c v) (sigs : List Signal)
    (hrun : Machine.runAll (Reader.step streamed) r (sigs.filterMap Signal.event?) = some r')
    (hgoing : r'.done = none) :
    Passes p parts (inOrder (adds p.dv) w (sigs.filterMap Signal.event?)) r' c
      (inOrder onSignal a sigs) := by
  induction sigs generalizing parts w r a c v with
  | nil =>
      cases hrun
      exact Emits.nothing ⟨v, h⟩
  | cons sig sigs ih =>
      cases sig with
      | keepalive =>
          have hstay : Emits p.step (fun a' c' => Mirrors p parts w r a' c' v) c
              (onSignal a .keepalive) := by
            apply (hsilent v a c h.has).mono
            rintro c' ⟨hhas, hord, hpassing⟩
            exact
              { has := hhas
                said := h.said
                loose := h.loose
                inside := fun name sent stable heq => by
                  rw [hord, hpassing]
                  exact h.inside name sent stable heq
                apart := h.apart
                reader := h.reader }
          obtain ⟨c₁, hrun₁, hm⟩ := hstay
          obtain ⟨c₂, hrun₂, hv⟩ := ih hm hrun
          refine ⟨c₂, ?_, hv⟩
          rw [inOrder, Machine.runAll_append, hrun₁]
          exact hrun₂
      | event ev =>
          obtain ⟨r₁, hstep, hrest⟩ := Option.bind_eq_some_iff.1 hrun
          have hgoing₁ : r₁.done = none := by
            cases hevs : sigs.filterMap Signal.event? with
            | nil =>
                rw [hevs] at hrest
                cases hrest
                exact hgoing
            | cons ev' evs =>
                rw [hevs] at hrest
                obtain ⟨r₂, hstep₂, -⟩ := Option.bind_eq_some_iff.1 hrest
                exact (Reader.takes_of_step hstep₂).1
          obtain ⟨c₁, hrun₁, v₁, hm⟩ := event_passes h (Reader.takes_of_step hstep).2 hgoing₁
          obtain ⟨c₂, hrun₂, v₂, hv⟩ := ih hm hrest
          refine ⟨c₂, ?_, v₂, ?_⟩
          · rw [inOrder, Machine.runAll_append, hevent, hrun₁]
            exact hrun₂
          · rw [inOrder, hevent]
            simp only [List.filterMap_cons, Signal.event?, inOrder, List.foldl_append]
            exact hv

theorem mirrors_start {a : A} {c : C} (h : p.Has {} a c) : Mirrors p [] .outside {} a c {} where
  has := h
  said := rfl
  loose _ b hb := by cases hb
  inside _ _ _ heq := by cases heq
  apart _ heq := by cases heq
  reader := ⟨fun _ => rfl, fun _ => rfl⟩

end Generation

end FreeToken
