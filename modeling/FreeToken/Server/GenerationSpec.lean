import FreeToken.Server.Generation

/-!
# What a reader of the generation events can rely on

The calls are numbered in order; a call is opened, its arguments follow, it is closed before the next
call or text; the events end once, with the totals of the replies.
-/

set_option autoImplicit false

namespace FreeToken

open Search Text

namespace Generation

open Generator (inOrder Emits)

/-! ## The reader -/

/-- What a reader has seen: the calls that are closed, the name and the arguments so far of the one
that is open, and the end. -/
structure Reader where
  calls : Nat := 0
  openCall : Option (Option Text × Text) := none
  done : Option GenDone := none
  deriving DecidableEq, Repr

namespace Reader

/-- The open call is closed with one item, whose arguments are those that were streamed if these are
JSON. -/
def closes (r : Reader) (open' : Option Text × Text) (cs : List CallItem) : Bool :=
  cs.length = 1 ∧ ∀ c ∈ cs, c.toolIndex = r.calls ∧ c.name = open'.1 ∧
    (validJson open'.2 = true → c.parameters = open'.2)

/-- Read an event; none when it may not stand here.  Complete calls without an opening stand only in
a reply that was parsed at its end. -/
def step (streamed : Bool) (r : Reader) (ev : GenEvent) : Option Reader :=
  if r.done.isSome then none
  else
    match ev, r.openCall with
    | .reasoningDelta text, _ => if text = [] then none else some r
    | .contentDelta _, none => some r
    | .toolCallStart i name _, none =>
        if streamed ∧ i = r.calls then some { r with openCall := some (name, []) } else none
    | .toolCallArgsDelta i fragment, some (name, sent) =>
        if i = r.calls ∧ fragment ≠ [] then some { r with openCall := some (name, sent ++ fragment) }
        else none
    | .toolCallsDelta cs, some call =>
        if r.closes call cs then some { r with calls := r.calls + 1, openCall := none } else none
    | .toolCallsDelta cs, none =>
        if streamed = false ∧ r.calls = 0 ∧ cs ≠ [] then some { r with calls := cs.length } else none
    | .genDone d, none => some { r with done := some d }
    | _, _ => none

/-- What a reader that has not seen the end can take. -/
inductive Takes (streamed : Bool) (r : Reader) : GenEvent → Reader → Prop
  | reasoning {text : Text} (hne : text ≠ []) : Takes streamed r (.reasoningDelta text) r
  | content (text : Text) (hopen : r.openCall = none) : Takes streamed r (.contentDelta text) r
  | start (name : Option Text) (stable : Bool) (hopen : r.openCall = none) :
      Takes streamed r (.toolCallStart r.calls name stable) { r with openCall := some (name, []) }
  | args {name : Option Text} {sent fragment : Text} (hopen : r.openCall = some (name, sent))
      (hne : fragment ≠ []) : Takes streamed r (.toolCallArgsDelta r.calls fragment)
        { r with openCall := some (name, sent ++ fragment) }
  | close {call : Option Text × Text} {c : CallItem} (hopen : r.openCall = some call)
      (hindex : c.toolIndex = r.calls) (hname : c.name = call.1)
      (hargs : validJson call.2 = true → c.parameters = call.2) :
      Takes streamed r (.toolCallsDelta [c]) { r with calls := r.calls + 1, openCall := none }
  | whole {cs : List CallItem} (hopen : r.openCall = none) (hstreamed : streamed = false)
      (hcalls : r.calls = 0) (hne : cs ≠ []) :
      Takes streamed r (.toolCallsDelta cs) { r with calls := cs.length }
  | done (d : GenDone) (hopen : r.openCall = none) :
      Takes streamed r (.genDone d) { r with done := some d }

theorem takes_of_step {streamed : Bool} {r r' : Reader} {ev : GenEvent}
    (h : step streamed r ev = some r') : r.done = none ∧ Takes streamed r ev r' := by
  cases hdone : r.done with
  | some d => simp [step, hdone] at h
  | none =>
      refine ⟨rfl, ?_⟩
      cases ev with
      | reasoningDelta text =>
          simp only [step, hdone, Option.isSome_none, Bool.false_eq_true, if_false,
            Option.ite_none_left_eq_some, Option.some.injEq] at h
          rw [← h.2]
          exact .reasoning h.1
      | contentDelta text =>
          cases hopen : r.openCall with
          | some call => simp [step, hdone, hopen] at h
          | none =>
              simp only [step, hdone, hopen, Option.isSome_none, Bool.false_eq_true, if_false,
                Option.some.injEq] at h
              rw [← h]
              exact .content text hopen
      | toolCallStart i name stable =>
          cases hopen : r.openCall with
          | some call => simp [step, hdone, hopen] at h
          | none =>
              simp only [step, hdone, hopen, Option.isSome_none, Bool.false_eq_true, if_false,
                Option.ite_none_right_eq_some, Option.some.injEq] at h
              rw [← h.2, h.1.2, ← hdone]
              exact .start name stable hopen
      | toolCallArgsDelta i fragment =>
          cases hopen : r.openCall with
          | none => simp [step, hdone, hopen] at h
          | some call =>
              simp only [step, hdone, hopen, Option.isSome_none, Bool.false_eq_true, if_false,
                Option.ite_none_right_eq_some, Option.some.injEq] at h
              rw [← h.2, h.1.1, ← hdone]
              exact .args hopen h.1.2
      | toolCallsDelta cs =>
          cases hopen : r.openCall with
          | none =>
              simp only [step, hdone, hopen, Option.isSome_none, Bool.false_eq_true, if_false,
                Option.ite_none_right_eq_some, Option.some.injEq] at h
              rw [← h.2, ← hdone, ← hopen]
              exact .whole hopen h.1.1 h.1.2.1 h.1.2.2
          | some call =>
              simp only [step, hdone, hopen, Option.isSome_none, Bool.false_eq_true, if_false,
                Option.ite_none_right_eq_some, Option.some.injEq, closes, decide_eq_true_eq] at h
              obtain ⟨⟨hlen, hall⟩, hr⟩ := h
              obtain ⟨c, rfl⟩ := List.length_eq_one_iff.1 hlen
              obtain ⟨hindex, hname, hargs⟩ := hall c (List.mem_singleton_self c)
              rw [← hr, ← hdone]
              exact .close hopen hindex hname hargs
      | genDone d =>
          cases hopen : r.openCall with
          | some call => simp [step, hdone, hopen] at h
          | none =>
              simp only [step, hdone, hopen, Option.isSome_none, Bool.false_eq_true, if_false,
                Option.some.injEq] at h
              rw [← h, ← hopen]
              exact .done d hopen

/-- The end is the last event. -/
theorem run_split {streamed : Bool} {r r' : Reader} {es : List GenEvent} {d : GenDone}
    (hrun : Machine.runAll (step streamed) r es = some r') (hgoing : r.done = none)
    (hdone : r'.done = some d) :
    ∃ body mid, es = body ++ [.genDone d] ∧ Machine.runAll (step streamed) r body = some mid ∧
      mid.done = none ∧ mid.openCall = none := by
  induction es generalizing r with
  | nil =>
      cases hrun
      rw [hgoing] at hdone
      cases hdone
  | cons ev es ih =>
      obtain ⟨r₁, hstep, hrest⟩ := Option.bind_eq_some_iff.1 hrun
      cases hd : r₁.done with
      | none =>
          obtain ⟨body, mid, rfl, hbody, hmid⟩ := ih hrest hd
          refine ⟨ev :: body, mid, rfl, ?_, hmid⟩
          rw [Machine.runAll, hstep]
          exact hbody
      | some d₁ =>
          have htakes := (takes_of_step hstep).2
          have hnil : es = [] := by
            cases es with
            | nil => rfl
            | cons ev' es =>
                obtain ⟨r₂, hstep₂, -⟩ := Option.bind_eq_some_iff.1 hrest
                have hgoing₂ := (takes_of_step hstep₂).1
                rw [hd] at hgoing₂
                cases hgoing₂
          subst hnil
          cases hrest
          cases htakes with
          | done d₂ hopen =>
              rw [Option.some_inj] at hdone
              rw [hdone]
              exact ⟨[], r, rfl, rfl, hgoing, hopen⟩
          | reasoning hne => rw [hgoing] at hd; cases hd
          | content text hopen => rw [hgoing] at hd; cases hd
          | start name stable hopen => rw [hgoing] at hd; cases hd
          | args hopen hne => rw [hgoing] at hd; cases hd
          | close hopen hindex hname hargs => rw [hgoing] at hd; cases hd
          | whole hopen hstreamed hcalls hne => rw [hgoing] at hd; cases hd

end Reader

/-! ## Assembling keeps the order -/

/-- The reader knows of the calls what the generator does. -/
structure Knows (a : Assembly) (r : Reader) : Prop where
  going : r.done = none
  calls : r.calls = a.callsEmitted
  openCall : r.openCall = a.openCall.map fun oc => (oc.name, oc.params)
  ordinal : ∀ oc, a.openCall = some oc → oc.ordinal = a.callsEmitted

/-- The reader takes the events and knows of the calls what the generator does then. -/
abbrev Follows (r : Reader) (out : Assembly × List GenEvent) : Prop :=
  Generator.Emits (Reader.step true) Knows r out

section Assemble

variable {σ : Type} {p : FunctionCallParser σ} {specials : List Text} {fragStable : Bool} {d : σ}
  {a : Assembly} {r : Reader}

theorem runAll_one {streamed : Bool} {ev : GenEvent} {r' : Reader}
    (h : Reader.step streamed r ev = some r') :
    Machine.runAll (Reader.step streamed) r [ev] = some r' := by
  simp [Machine.runAll, h]

theorem closingParams_of_valid {oc : OpenCall} (h : validJson oc.params = true) :
    closingParams p d oc = oc.params := by
  have hne : oc.params ≠ [] := by
    unfold validJson at h
    simp only [Bool.and_eq_true, decide_eq_true_eq] at h
    exact h.1
  unfold closingParams
  rw [if_pos h, orElse, if_neg hne]

theorem closeOpenCall_follows (h : Knows a r) : Follows r (closeOpenCall p d a) := by
  unfold closeOpenCall
  cases hoc : a.openCall with
  | none => exact Emits.nothing h
  | some oc =>
      have hopen : r.openCall = some (oc.name, oc.params) := by rw [h.openCall, hoc, Option.map_some]
      have hord := h.ordinal oc hoc
      have hcloses : r.closes (oc.name, oc.params)
          [⟨oc.ordinal, oc.name, closingParams p d oc⟩] = true := by
        simp only [Reader.closes, List.length_singleton, List.mem_singleton, forall_eq, true_and,
          decide_eq_true_eq]
        refine ⟨?_, fun hvalid => closingParams_of_valid hvalid⟩
        rw [hord, h.calls]
      refine ⟨{ r with calls := r.calls + 1, openCall := none }, runAll_one ?_, ?_⟩
      · simp [Reader.step, h.going, hopen, hcloses]
      · exact ⟨h.going, by rw [h.calls], rfl, fun oc' h' => by cases h'⟩

theorem closeOpenCall_openCall (a : Assembly) : (closeOpenCall p d a).1.openCall = none := by
  unfold closeOpenCall
  cases hoc : a.openCall with
  | none => exact hoc
  | some oc => rfl

theorem emitText_openCall (payload : Text) :
    (emitText specials a payload).1.openCall = a.openCall := by
  unfold emitText
  dsimp only
  split
  · split <;> rfl
  · rfl

theorem emitText_follows (specials : List Text) (h : Knows a r) (hopen : a.openCall = none) (payload : Text) :
    Follows r (emitText specials a payload) := by
  have hstep : ∀ text, Reader.step true r (.contentDelta text) = some r := by
    intro text
    simp [Reader.step, h.going, h.openCall, hopen]
  unfold emitText
  dsimp only
  split
  · refine ⟨r, runAll_one (hstep _), ?_⟩
    split
    · exact h
    · exact ⟨h.going, h.calls, h.openCall, h.ordinal⟩
  · exact Emits.nothing h

theorem routeText_follows (h : Knows a r) (payload : Text) :
    Follows r (routeText p specials d a payload) :=
  (closeOpenCall_follows h).append fun _ h' =>
    emitText_follows specials h' (closeOpenCall_openCall a) payload

theorem openFor_follows (fragStable : Bool) (h : Knows a r) (frag : CallItem) {new : Bool}
    (hnew : new = true → a.openCall = none) : Follows r (openFor fragStable a frag new) := by
  unfold openFor
  split
  · rename_i hor
    have hopen : a.openCall = none := by
      rcases hor with hnone | hn
      · exact Option.isNone_iff_eq_none.1 hnone
      · exact hnew hn
    refine ⟨{ r with openCall := some (frag.name, []) }, runAll_one ?_, ?_⟩
    · simp [Reader.step, h.going, h.openCall, hopen, h.calls]
    · refine ⟨h.going, h.calls, rfl, fun oc hoc => ?_⟩
      cases hoc
      rfl
  · exact Emits.nothing h

theorem addParams_follows (h : Knows a r) (frag : CallItem) : Follows r (addParams a frag) := by
  unfold addParams
  cases hoc : a.openCall with
  | none => exact Emits.nothing h
  | some oc =>
      have hopen : r.openCall = some (oc.name, oc.params) := by rw [h.openCall, hoc, Option.map_some]
      have hord := h.ordinal oc hoc
      dsimp only
      split
      · exact Emits.nothing h
      · rename_i hne
        refine ⟨{ r with openCall := some (oc.name, oc.params ++ frag.parameters) },
          runAll_one ?_, ?_⟩
        · simp [Reader.step, h.going, hopen, h.calls, hord, hne]
        · refine ⟨h.going, h.calls, rfl, fun oc' h' => ?_⟩
          cases h'
          exact hord

theorem routeFrag_follows (h : Knows a r) (frag : CallItem) :
    Follows r (routeFrag p fragStable d a frag) := by
  unfold routeFrag
  dsimp only
  have hclosed : Follows r (if startsNew a frag then closeOpenCall p d a else (a, [])) := by
    split
    · exact closeOpenCall_follows h
    · exact Emits.nothing h
  have hidle : startsNew a frag = true →
      (if startsNew a frag then closeOpenCall p d a else (a, [])).1.openCall = none := by
    intro hnew
    rw [if_pos hnew]
    exact closeOpenCall_openCall a
  have hopened := hclosed.append fun r' h' => openFor_follows fragStable h' frag hidle
  exact hopened.append fun r' h' => addParams_follows h' frag

theorem routeSegment_follows (h : Knows a r) (seg : Segment) :
    Follows r (routeSegment p specials fragStable d a seg) := by
  cases seg with
  | text payload => exact routeText_follows h payload
  | calls payload => exact Emits.inOrder (fun a frag r h => routeFrag_follows h frag) h payload

theorem recovered_follows (h : Knows a r) (hopen : a.openCall = none) (item : CallItem) :
    Emits (Reader.step true) (fun a r => Knows a r ∧ a.openCall = none) r (recovered a item) := by
  have hstart : Reader.step true r (.toolCallStart a.callsEmitted item.name true) =
      some { r with openCall := some (item.name, []) } := by
    simp [Reader.step, h.going, h.openCall, hopen, h.calls]
  have hclose : Reader.step true { r with openCall := some (item.name, []) }
      (.toolCallsDelta [⟨a.callsEmitted, item.name, item.parameters⟩]) =
        some { r with calls := r.calls + 1, openCall := none } := by
    simp [Reader.step, h.going, Reader.closes, h.calls, validJson]
  refine ⟨{ r with calls := r.calls + 1, openCall := none }, ?_, ⟨h.going, ?_, ?_, ?_⟩, hopen⟩
  · simp [recovered, Machine.runAll, hstart, hclose]
  · rw [recovered, h.calls]
  · rw [recovered, hopen, Option.map_none]
  · intro oc hoc
    rw [recovered, hopen] at hoc
    cases hoc

end Assemble

/-! ## The whole stream -/

/-- The replies up to the one that ends the request. -/
def answered : List UserReply → List UserReply
  | [] => []
  | ack :: acks => if ack.finished then [ack] else ack :: answered acks

/-- The reason the engine gives, `stop` if it gives none. -/
def engineReason (acks : List UserReply) : Text :=
  orElse (((acks.find? fun ack => ack.finished).bind UserReply.finishReason).getD []) "stop".toList

def engineStop (acks : List UserReply) : Option Text :=
  (acks.find? fun ack => ack.finished).bind UserReply.matchedStop

/-- What ends a reply in which so many calls were passed on. -/
def doneOf (acks : List UserReply) (calls : Nat) : GenDone where
  finishReason := finishOf (engineReason acks) (decide (calls ≠ 0))
  promptTokens := ((answered acks).map UserReply.promptTokensDelta).sum
  completionTokens := ((answered acks).map UserReply.completionTokensDelta).sum
  matchedStop := engineStop acks
  cachedTokens := ((answered acks).map UserReply.cachedTokens).sum

section Generate

variable {σ ρ : Type} {e : Setup σ ρ} {s s' : State σ ρ} {r : Reader}

/-- The reader knows the calls; only a parser that reads along makes calls before the end. -/
structure Serves (e : Setup σ ρ) (s : State σ ρ) (r : Reader) : Prop where
  knows : Knows s.assembly r
  parser : e.toolParser.isSome = true → s.detector.isSome = true
  idle : e.toolParser.isSome = false → s.assembly = {}

theorem Serves.noParser (h : Serves e s r)
    (hnot : ∀ p d, e.toolParser = some p → s.detector = some d → False) :
    e.toolParser.isSome = false := by
  cases hp : e.toolParser with
  | none => rfl
  | some p =>
      obtain ⟨d, hd⟩ := Option.isSome_iff_exists.1 (h.parser (by rw [hp, Option.isSome_some]))
      exact (hnot p d hp hd).elim

/-- The totals have grown by those of the replies. -/
structure Counted (s s' : State σ ρ) (acks : List UserReply) : Prop where
  prompt : s'.promptTokens = s.promptTokens + (acks.map UserReply.promptTokensDelta).sum
  completion :
    s'.completionTokens = s.completionTokens + (acks.map UserReply.completionTokensDelta).sum
  cached : s'.cachedTokens = s.cachedTokens + (acks.map UserReply.cachedTokens).sum

theorem Counted.refl (s : State σ ρ) : Counted s s [] := ⟨rfl, rfl, rfl⟩

theorem Counted.trans {s'' : State σ ρ} {acks acks' : List UserReply} (h : Counted s s' acks)
    (h' : Counted s' s'' acks') : Counted s s'' (acks ++ acks') := by
  constructor
  · rw [h'.prompt, h.prompt, List.map_append, List.sum_append, Nat.add_assoc]
  · rw [h'.completion, h.completion, List.map_append, List.sum_append, Nat.add_assoc]
  · rw [h'.cached, h.cached, List.map_append, List.sum_append, Nat.add_assoc]

/-- A part of the generator keeps the reader informed and adds the totals of some replies. -/
def Keeps (e : Setup σ ρ) (r : Reader) (s : State σ ρ) (acks : List UserReply)
    (m : Generator GenEvent Halt (State σ ρ)) : Prop :=
  Generator.Reads (Reader.step e.toolParser.isSome) r m
    (fun r' s' => Serves e s' r' ∧ Counted s s' acks) fun r' => r'.done = none

theorem step_text (h : Serves e s r) (hopen : e.toolParser.isSome = false) (text : Text) :
    Reader.step e.toolParser.isSome r (.contentDelta text) = some r := by
  have hcall := h.knows.openCall
  rw [h.idle hopen] at hcall
  simp only [Reader.step, h.knows.going, hcall, Option.isSome_none, Bool.false_eq_true, if_false,
    Option.map_none]

theorem step_reasoning (h : Serves e s r) {text : Text} (hne : text ≠ []) :
    Reader.step e.toolParser.isSome r (.reasoningDelta text) = some r := by
  simp [Reader.step, h.knows.going, hne]

theorem routeToolText_keeps {p : FunctionCallParser σ} (hp : e.toolParser = some p) (h : Serves e s r)
    (d : σ) (piece : Text) : Keeps e r s [] (routeToolText e p s d piece) := by
  have hsome : e.toolParser.isSome = true := by rw [hp, Option.isSome_some]
  unfold Keeps routeToolText
  split
  · exact Generator.reads_ret ⟨h, Counted.refl s⟩
  · refine Generator.reads_ofExcept_bind (fun _ _ => h.knows.going) fun parsed _ => ?_
    obtain ⟨r', hrun, hknows⟩ := Emits.inOrder
      (f := routeSegment p e.specials e.fragStable parsed.1)
      (fun a seg r h => routeSegment_follows h seg) h.knows parsed.2
    rw [hsome]
    apply Generator.reads_yields_bind hrun
    refine Generator.reads_ret ⟨⟨hknows, fun _ => rfl, fun hnone => ?_⟩, ⟨rfl, rfl, rfl⟩⟩
    rw [hsome] at hnone
    cases hnone

theorem routeContent_keeps (h : Serves e s r) (content : Text) :
    Keeps e r s [] (routeContent e s content) := by
  unfold routeContent
  split
  · rename_i p d hp hd
    exact routeToolText_keeps hp h d content
  · rename_i hnot
    have hnone := h.noParser hnot
    unfold Keeps
    split
    · exact Generator.reads_ret ⟨⟨h.knows, h.parser, h.idle⟩, ⟨rfl, rfl, rfl⟩⟩
    · have hrun : Machine.runAll (Reader.step e.toolParser.isSome) r
          [.contentDelta (stripSpecialTokens content e.specials)] = some r :=
        runAll_one (step_text h hnone _)
      apply Generator.reads_yields_bind hrun
      exact Generator.reads_ret ⟨h, Counted.refl s⟩

theorem routeParsed_keeps (h : Serves e s r) (reasoning content : Text) :
    Keeps e r s [] (routeParsed e s reasoning content) := by
  unfold Keeps routeParsed
  have hrun : Machine.runAll (Reader.step e.toolParser.isSome) r
      (if reasoning ≠ [] ∧ stripSpecialTokens reasoning e.specials ≠ [] then
        [.reasoningDelta (stripSpecialTokens reasoning e.specials)] else []) = some r := by
    split
    · rename_i hne
      exact runAll_one (step_reasoning h hne.2)
    · rfl
  apply Generator.reads_yields_bind hrun
  split
  · exact Generator.reads_ret ⟨h, Counted.refl s⟩
  · exact routeContent_keeps h content

theorem Keeps.counted {m : Generator GenEvent Halt (State σ ρ)} {acks acks' : List UserReply}
    (hs : Counted s s' acks) (h : Keeps e r s' acks' m) : Keeps e r s (acks ++ acks') m :=
  h.mono (fun _ _ h' => ⟨h'.1, hs.trans h'.2⟩) fun _ h' => h'

theorem takeReply_keeps (h : Serves e s r) (ack : UserReply) :
    Keeps e r s [ack] (takeReply e s ack) := by
  unfold Keeps takeReply
  split
  · exact Generator.reads_ofExcept (fun _ hx => by cases hx) fun _ _ => h.knows.going
  · have hserves : ∀ reasoning,
        Serves e { s with
          promptTokens := s.promptTokens + ack.promptTokensDelta
          completionTokens := s.completionTokens + ack.completionTokensDelta
          cachedTokens := s.cachedTokens + ack.cachedTokens
          reasoning := reasoning } r := fun _ => ⟨h.knows, h.parser, h.idle⟩
    have hcounted : ∀ reasoning,
        Counted s { s with
          promptTokens := s.promptTokens + ack.promptTokensDelta
          completionTokens := s.completionTokens + ack.completionTokensDelta
          cachedTokens := s.cachedTokens + ack.cachedTokens
          reasoning := reasoning } [ack] := fun _ => by constructor <;> simp
    dsimp only
    split
    · split
      · exact Generator.reads_ret ⟨hserves _, hcounted _⟩
      · refine Generator.reads_ofExcept_bind (fun _ _ => h.knows.going) fun parsed _ => ?_
        exact Keeps.counted (hcounted _) (routeParsed_keeps (hserves _) _ _)
    · exact Keeps.counted (hcounted _) (routeParsed_keeps (hserves _) _ _)

theorem listen_reads (h : Serves e s r) (acks : List UserReply) :
    Generator.Reads (Reader.step e.toolParser.isSome) r (listen e s acks)
      (fun r' out => Serves e out.1 r' ∧ Counted s out.1 (answered acks) ∧
        orElse (out.2.1.getD []) "stop".toList = engineReason acks ∧ out.2.2 = engineStop acks)
      fun r' => r'.done = none := by
  induction acks generalizing s r with
  | nil => exact Generator.reads_ofExcept (fun _ hx => by cases hx) fun _ _ => h.knows.going
  | cons ack acks ih =>
      unfold listen
      apply Generator.Reads.bind (takeReply_keeps h ack)
      intro r' s' h'
      cases hfin : ack.finished with
      | true =>
          rw [if_pos rfl]
          refine Generator.reads_ret ⟨h'.1, ?_, ?_, ?_⟩
          · rw [answered, if_pos hfin]
            exact h'.2
          · rw [engineReason, List.find?_cons_of_pos (p := fun a : UserReply => a.finished) hfin,
              Option.bind_some]
          · rw [engineStop, List.find?_cons_of_pos (p := fun a : UserReply => a.finished) hfin,
              Option.bind_some]
      | false =>
          have hskip : ¬ ack.finished = true := by simp [hfin]
          rw [if_neg Bool.false_ne_true]
          refine (ih h'.1).mono (fun r'' out hout => ⟨hout.1, ?_, ?_, ?_⟩) fun _ h'' => h''
          · rw [answered, if_neg hskip]
            exact h'.2.trans hout.2.1
          · rw [hout.2.2.1, engineReason, engineReason,
              List.find?_cons_of_neg (p := fun a : UserReply => a.finished) hskip]
          · rw [hout.2.2.2, engineStop, engineStop,
              List.find?_cons_of_neg (p := fun a : UserReply => a.finished) hskip]

theorem flushReasoning_keeps (h : Serves e s r) : Keeps e r s [] (flushReasoning e s) := by
  unfold Keeps flushReasoning
  split
  · exact Generator.reads_ret ⟨h, Counted.refl s⟩
  · refine Generator.reads_ofExcept_bind (fun _ _ => h.knows.going) fun parsed _ => ?_
    have hserves : Serves e { s with reasoning := parsed.1 } r := ⟨h.knows, h.parser, h.idle⟩
    have hcounted : Counted s { s with reasoning := parsed.1 } [] := ⟨rfl, rfl, rfl⟩
    exact Keeps.counted hcounted (routeParsed_keeps hserves _ _)

theorem run_done {streamed : Bool} {d : GenDone} (hgoing : r.done = none)
    (hopen : r.openCall = none) :
    Machine.runAll (Reader.step streamed) r [.genDone d] = some { r with done := some d } := by
  apply runAll_one
  simp only [Reader.step, hgoing, hopen, Option.isSome_none, Bool.false_eq_true, if_false]

theorem finishStreamed_reads {p : FunctionCallParser σ} (h : Knows s.assembly r) (d : σ)
    (reason : Text) (stop : Option Text) :
    Generator.Reads (Reader.step true) r (finishStreamed e p s d reason stop)
      (fun r' _ => r'.openCall = none ∧ r'.done = some ⟨finishOf reason (decide (r'.calls ≠ 0)),
        s.promptTokens, s.completionTokens, stop, s.cachedTokens⟩)
      fun r' => r'.done = none := by
  unfold finishStreamed
  refine Generator.reads_ofExcept_bind (fun _ _ => h.going) fun f _ => ?_
  obtain ⟨r₁, hrun₁, h₁⟩ := Emits.inOrder (f := addParams)
    (fun a frag r h => addParams_follows h frag) h f.2
  apply Generator.reads_yields_bind hrun₁
  obtain ⟨r₂, hrun₂, h₂⟩ := closeOpenCall_follows (p := p) (d := f.1) h₁
  apply Generator.reads_yields_bind hrun₂
  obtain ⟨r₃, hrun₃, h₃, hopen⟩ := Emits.inOrder
    (R := fun a r => Knows a r ∧ a.openCall = none) (f := recovered)
    (fun a item r h => recovered_follows h.1 h.2 item) ⟨h₂, closeOpenCall_openCall _⟩
    (p.recoverTruncatedCall f.1).2
  apply Generator.reads_yields_bind hrun₃
  refine Generator.reads_ofExcept_bind (fun _ _ => h₃.going) fun residual _ => ?_
  obtain ⟨r₄, hrun₄, h₄⟩ := emitText_follows e.specials h₃ hopen residual.2
  apply Generator.reads_yields_bind hrun₄
  have hopen₄ : r₄.openCall = none := by
    rw [h₄.openCall, emitText_openCall, hopen, Option.map_none]
  have hcalls : r₄.calls = (inOrder recovered (closeOpenCall p f.1 (inOrder addParams s.assembly f.2).1).1
      (p.recoverTruncatedCall f.1).2).1.callsEmitted := by
    rw [h₄.calls, emitText]
    split
    · split <;> rfl
    · rfl
  apply Generator.reads_yields (run_done h₄.going hopen₄)
  rw [← hcalls]
  exact ⟨hopen₄, rfl⟩

theorem parseToolResponse_calls {text : Text} {parsed : ParseResult}
    (h : parseToolResponse e text = .ok (some parsed)) : parsed.calls ≠ [] := by
  unfold parseToolResponse at h
  split at h
  · split at h
    · cases h
    · split at h
      · cases h
      · split at h
        · cases h
        · rename_i hne
          cases h
          exact hne
  · cases h

theorem finishBuffered_reads (hgoing : r.done = none) (hopen : r.openCall = none)
    (hcalls : r.calls = 0) (reason : Text) (stop : Option Text) :
    Generator.Reads (Reader.step false) r (finishBuffered e s reason stop)
      (fun r' _ => r'.openCall = none ∧ r'.done = some ⟨finishOf reason (decide (r'.calls ≠ 0)),
        s.promptTokens, s.completionTokens, stop, s.cachedTokens⟩)
      fun r' => r'.done = none := by
  have htext : ∀ text, Reader.step false r (.contentDelta text) = some r := by
    intro text
    simp only [Reader.step, hgoing, hopen, Option.isSome_none, Bool.false_eq_true, if_false]
  have hplain : finishOf reason (decide (r.calls ≠ 0)) = reason := by
    rw [finishOf, hcalls, if_neg (by simp)]
  unfold finishBuffered
  split
  · refine Generator.reads_ofExcept_bind (fun _ _ => hgoing) fun found hfound => ?_
    cases found with
    | some parsed =>
        have hne := parseToolResponse_calls hfound
        have hlen : parsed.calls.length ≠ 0 := by simpa using hne
        have hclose : Reader.step false r (.toolCallsDelta parsed.calls) =
            some { r with calls := parsed.calls.length } := by
          simp [Reader.step, hgoing, hopen, hcalls, hne]
        have hrun : Machine.runAll (Reader.step false) r
            ((if stripSpecialTokens parsed.normalText e.specials = [] then []
              else [.contentDelta (stripSpecialTokens parsed.normalText e.specials)]) ++
                [.toolCallsDelta parsed.calls]) = some { r with calls := parsed.calls.length } := by
          split
          · exact runAll_one hclose
          · rw [Machine.runAll_append, runAll_one (htext _), Option.bind_some]
            exact runAll_one hclose
        apply Generator.reads_yields_bind hrun
        refine Generator.reads_yields
          (run_done (r := { r with calls := parsed.calls.length }) hgoing hopen) ⟨hopen, ?_⟩
        rw [decide_eq_true hlen]
    | none =>
        have hrun : Machine.runAll (Reader.step false) r
            (if s.pending = [] then []
              else [.contentDelta (stripSpecialTokens s.pending e.specials)]) = some r := by
          split
          · rfl
          · exact runAll_one (htext _)
        apply Generator.reads_yields_bind hrun
        apply Generator.reads_yields (run_done hgoing hopen)
        rw [hplain]
        exact ⟨hopen, rfl⟩
  · apply Generator.reads_yields (run_done hgoing hopen)
    rw [hplain]
    exact ⟨hopen, rfl⟩

theorem serves_start (e : Setup σ ρ) (reasoning : ρ) :
    Serves e ⟨e.makeToolParser.map Prod.snd, reasoning, {}, [], 0, 0, 0⟩ {} where
  knows := ⟨rfl, rfl, rfl, fun _ h => by cases h⟩
  parser := by
    intro h
    unfold Setup.toolParser at h
    split at h
    · cases hmake : e.makeToolParser with
      | none =>
          rw [hmake] at h
          cases h
      | some pd => rfl
    · cases h
  idle _ := rfl

/-- The events of a generation, whatever the parsers do: the reader takes them all, and the end comes
exactly when the generator returns, with no call open and the totals of the replies. -/
theorem generateEvents_reads (e : Setup σ ρ) (reasoning : ρ) (acks : List UserReply) :
    Generator.Reads (Reader.step e.toolParser.isSome) {} (generateEvents e reasoning acks)
      (fun r _ => r.openCall = none ∧ r.done = some (doneOf acks r.calls)) fun r => r.done = none := by
  unfold generateEvents
  apply (listen_reads (serves_start e reasoning) acks).bind
  rintro r₁ out ⟨hserves₁, hcounted₁, hreason, hstop⟩
  apply (flushReasoning_keeps hserves₁).bind
  rintro r₂ s ⟨hserves, hcounted₂⟩
  have hcounted := hcounted₁.trans hcounted₂
  rw [List.append_nil] at hcounted
  have hdone : ∀ calls, (⟨finishOf (orElse (out.2.1.getD []) "stop".toList) (decide (calls ≠ 0)),
      s.promptTokens, s.completionTokens, out.2.2, s.cachedTokens⟩ : GenDone) = doneOf acks calls := by
    intro calls
    rw [hreason, hstop, hcounted.prompt, hcounted.completion, hcounted.cached]
    simp only [Nat.zero_add]
    rfl
  dsimp only
  split
  · rename_i p d hp hd
    rw [hp, Option.isSome_some]
    apply (finishStreamed_reads hserves.knows d _ _).mono _ fun _ h => h
    intro r' _ h'
    exact ⟨h'.1, h'.2.trans (congrArg some (hdone _))⟩
  · rename_i hnot
    have hnone := hserves.noParser hnot
    have hidle := hserves.idle hnone
    have hopen := hserves.knows.openCall
    have hcalls := hserves.knows.calls
    rw [hidle] at hopen hcalls
    rw [hnone]
    apply (finishBuffered_reads hserves.knows.going hopen hcalls _ _).mono _ fun _ h => h
    intro r' _ h'
    exact ⟨h'.1, h'.2.trans (congrArg some (hdone _))⟩

/-- Whatever the parsers do, the events of a generation are well formed, and the end is told exactly
when the generator returns: then no call is open, and the totals are those of the replies. -/
theorem generateEvents_wellFormed (e : Setup σ ρ) (reasoning : ρ) (acks : List UserReply) :
    ∃ r, Machine.runAll (Reader.step e.toolParser.isSome) {} (generateEvents e reasoning acks).events =
        some r ∧
      (r.done.isSome ↔ (generateEvents e reasoning acks).result = .ok ()) ∧
      ∀ d, r.done = some d → r.openCall = none ∧ d = doneOf acks r.calls := by
  obtain ⟨r, hrun, hok, herr⟩ := generateEvents_reads e reasoning acks
  refine ⟨r, hrun, ?_, fun d hd => ?_⟩
  · constructor
    · intro hsome
      cases hres : (generateEvents e reasoning acks).result with
      | ok u => rfl
      | error x =>
          have hnone : r.done = none := herr x hres
          rw [hnone] at hsome
          cases hsome
    · intro hres
      rw [(hok () hres).2, Option.isSome_some]
  · cases hres : (generateEvents e reasoning acks).result with
    | ok u =>
        obtain ⟨hopen, hdone⟩ := hok u hres
        rw [hd, Option.some_inj] at hdone
        exact ⟨hopen, hdone⟩
    | error x =>
        have hnone : r.done = none := herr x hres
        rw [hnone] at hd
        cases hd

end Generate

end Generation

end FreeToken
