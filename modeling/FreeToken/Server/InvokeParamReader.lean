import FreeToken.Server.InvokeParamStream

/-!
# Invoke and parameter streaming and the chunks of the text

A reader that looks at one position of the text at a time says what a completion means.  The detector
gives the events of the reader, and raises where the reader meets a value that is not converted.
-/

set_option autoImplicit false

namespace FreeToken

open Search Text Pattern Transducer

attribute [local instance] Text.lawfulBEq

theorem angleTag_eq_some {opener t name r : Text} :
    angleTag opener t = some (name, r) ↔ '>' ∉ name ∧ t = opener ++ (name ++ '>' :: r) := by
  unfold angleTag
  constructor
  · intro h
    simp only [Option.bind_eq_bind, Option.bind_eq_some_iff, Option.pure_def] at h
    obtain ⟨t₁, h₁, r', h₂, heq⟩ := h
    cases heq
    refine ⟨fun hmem => ?_, ?_⟩
    · have := List.mem_takeWhile_imp hmem
      simp at this
    · have hrest := word_eq_some.1 h₂
      rw [List.singleton_append] at hrest
      rw [word_eq_some.1 h₁, ← hrest, List.takeWhile_append_dropWhile]
  · rintro ⟨hmem, rfl⟩
    have hall : ∀ c ∈ name, decide (c ≠ '>') = true := by
      intro c hc
      rw [decide_eq_true_eq]
      rintro rfl
      exact hmem hc
    rw [word_eq_some.2 rfl]
    simp only [Option.bind_eq_bind, Option.bind_some]
    rw [List.takeWhile_append_of_pos hall, List.dropWhile_append_of_pos hall]
    simp [word]

/-- A tag ends with the first `>` after it began. -/
theorem angleTag_tight {opener : Text} (hopener : '>' ∉ opener) : Tight (angleTag opener) where
  extend := by
    intro b name r h x
    obtain ⟨hname, rfl⟩ := angleTag_eq_some.1 h
    exact angleTag_eq_some.2 ⟨hname, by simp⟩
  word := by
    intro b name r h
    obtain ⟨hname, rfl⟩ := angleTag_eq_some.1 h
    refine ⟨opener ++ (name ++ ['>']), by simp, by simp, angleTag_eq_some.2 ⟨hname, rfl⟩⟩
  ends := by
    rintro u w v ⟨name, hlong⟩ ⟨name', hshort⟩
    obtain ⟨hname, heq⟩ := angleTag_eq_some.1 hlong
    obtain ⟨-, rfl⟩ := angleTag_eq_some.1 hshort
    have hcount := congrArg (List.count '>') heq
    simp only [List.count_append, List.count_cons, not_mem_count hopener, not_mem_count hname,
      List.count_nil, beq_self_eq_true, if_true] at hcount
    have hv : '>' ∉ v := List.count_eq_zero.1 (by omega)
    rcases List.eq_nil_or_concat v with rfl | ⟨v', c, rfl⟩
    · rfl
    · have hlast := congrArg List.getLast? heq
      simp only [List.append_assoc, List.getLast?_append, List.getLast?_cons,
        List.getLast?_nil, List.concat_eq_append] at hlast
      simp only [Option.getD_none, Option.some_or, Option.some.injEq] at hlast
      rw [hlast, List.concat_eq_append] at hv
      exact absurd (List.mem_append_right v' (List.mem_singleton.2 rfl)) hv

namespace InvokeParamStream

/-- What makes a grammar one that can be read position by position. -/
structure Lawful (g : InvokeGrammar) : Prop where
  outerOpen : StartsOnly '<' g.outerOpen
  outerClose : StartsOnly '<' g.outerClose
  invokeOpen : StartsOnly '<' g.invokeOpenPrefix
  invokeClose : StartsOnly '<' g.invokeClose
  paramOpen : StartsOnly '<' g.paramOpenPrefix
  paramClose : StartsOnly '<' g.paramClose
  block : ¬ Meets g.invokeOpenPrefix g.outerClose
  invoke : ¬ Meets g.paramOpenPrefix g.invokeClose
  invokeTight : Tight g.invokeOpenRe
  paramTight : Tight g.paramOpenRe
  trim : isTrim g '<' = false

/-- What the detector knows besides its buffer and its ledger, and whether it has raised. -/
structure State where
  mode : PsMode
  id : Nat
  argsStarted : Bool
  key : Text
  lead : Text
  leadTrimmed : Bool
  config : List Json.Member
  raised : Bool

def state (d : InvokeParamStream) : State where
  mode := d.psMode
  id := d.ledger.toolId
  argsStarted := d.argsStarted
  key := d.psKey
  lead := d.psLead
  leadTrimmed := d.psLeadTrimmed
  config := d.psParamConfig
  raised := false

abbrev PsMark := Mark Char State ToolEvent

def idleMark (g : InvokeGrammar) (s : State) : PsMark :=
  .pass g.outerOpen { s with mode := .block } []

/-- The state after an opening tag, and its event. -/
def openedInvoke (cx : TypedContext) (s : State) (name : Text) : State × List ToolEvent :=
  if cx.accepts name then
    ({ s with mode := .invoke, argsStarted := false, config := cx.getParamConfig name },
      [.name s.id name])
  else ({ s with mode := .invokeSkip }, [])

def invokeMark (g : InvokeGrammar) (cx : TypedContext) (s : State) : PsMark :=
  .tag g.invokeOpenPrefix g.invokeOpenRe fun name => openedInvoke cx s (strip name)

def outerMark (g : InvokeGrammar) (s : State) : PsMark :=
  .pass g.outerClose { s with mode := .idle } []

def State.nextLead (s : State) : Text := if s.argsStarted then [','] else ['{']

/-- The state after the tag of a parameter, and its events. -/
def openedParam (g : InvokeGrammar) (cx : TypedContext) (s : State) (key : Text) :
    State × List ToolEvent :=
  if s.mode = .invokeSkip then ({ s with mode := .pskip }, [])
  else if cx.schemaParamType key s.config g.missingType ∈ TypedContext.stringTypes then
    ({ s with mode := .pstr, key := key, argsStarted := true, leadTrimmed := false },
      (s.nextLead ++ Json.quote key ++ [':', '"']).map (.arg s.id))
  else ({ s with mode := .pbuf, key := key, argsStarted := true, lead := s.nextLead }, [])

def paramMark (g : InvokeGrammar) (cx : TypedContext) (s : State) : PsMark :=
  .tag g.paramOpenPrefix g.paramOpenRe fun name => openedParam g cx s (strip name)

/-- The state after the end of a call, and its events. -/
def closedInvoke (s : State) : State × List ToolEvent :=
  if s.mode = .invoke then
    ({ s with mode := .block, id := s.id + 1 },
      (if s.argsStarted then ['}'] else ['{', '}']).map (.arg s.id))
  else ({ s with mode := .block }, [])

def closeMark (g : InvokeGrammar) (s : State) : PsMark :=
  .pass g.invokeClose (closedInvoke s).1 (closedInvoke s).2

/-- The JSON text of a value that was held. -/
def writtenValue (g : InvokeGrammar) (cx : TypedContext) (config : List Json.Member)
    (key value : Text) : Py Text := do
  let converted ← psConvertValue g cx config key (psTrimTrailing g (psTrimLeading g value))
  cx.dumpsValue converted

/-- The state after a value that was held, and its events. -/
def closedValue (g : InvokeGrammar) (cx : TypedContext) (s : State) (value : Text) :
    State × List ToolEvent :=
  if s.mode = .pbuf then
    match writtenValue g cx s.config s.key value with
    | .ok written =>
        ({ s with mode := .invoke },
          (s.lead ++ Json.quote s.key ++ [':'] ++ written).map (.arg s.id))
    | .error _ => ({ s with raised := true }, [])
  else ({ s with mode := .invokeSkip }, [])

def escaped (s : State) (c : Char) : List ToolEvent := (Json.escapeChar c).map (.arg s.id)

/-- A turn in a string value. -/
def stringTurn (g : InvokeGrammar) (s : State) (b : Text) :
    Option (State × Text × List ToolEvent) :=
  (valueTurn (isTrim g) g.trimSingle g.paramClose b).map fun p =>
    (if p.2.2 then { s with mode := .invoke } else s, p.2.1,
      p.1.flatMap (escaped s) ++ if p.2.2 then [.arg s.id '"'] else [])

/-- A turn at the beginning of a string value. -/
def leadTurn (g : InvokeGrammar) (s : State) : Text → Option (State × Text × List ToolEvent)
  | [] => none
  | c :: t =>
      if isTrim g c then some ({ s with leadTrimmed := g.trimSingle }, t, [])
      else stringTurn g { s with leadTrimmed := true } (c :: t)

/-- One turn of the reader. -/
def turn (g : InvokeGrammar) (cx : TypedContext) (s : State) (b : Text) :
    Option (State × Text × List ToolEvent) :=
  if s.raised then none
  else
    match s.mode with
    | .idle => read [idleMark g s] (fun c t => some (s, t, [.text c])) b
    | .block => read [invokeMark g cx s, outerMark g s] (fun _ t => some (s, t, [])) b
    | .invoke | .invokeSkip =>
        read [paramMark g cx s, closeMark g s] (fun _ t => some (s, t, [])) b
    | .pstr => if s.leadTrimmed then stringTurn g s b else leadTurn g s b
    | .pbuf | .pskip =>
        (find g.paramClose b).map fun stop =>
          ((closedValue g cx s (b.take stop)).1, b.drop (stop + g.paramClose.length),
            (closedValue g cx s (b.take stop)).2)

/-! ## The reader -/

section Reader

variable {g : InvokeGrammar} {cx : TypedContext} {s s' : State} {b b' : Text} {o : List ToolEvent}

theorem Lawful.close (hg : Lawful g) : ∀ c t, g.paramClose = c :: t → isTrim g c = false := by
  intro c t h
  obtain ⟨body, hbody, -⟩ := hg.paramClose
  rw [hbody, List.cons.injEq] at h
  exact h.1 ▸ hg.trim

theorem stringTurn_steady (hg : Lawful g) (h : stringTurn g s b = some (s', b', o)) :
    (∀ x, stringTurn g s (b ++ x) = some (s', b' ++ x, o)) ∧ Transducer.Takes b b' := by
  obtain ⟨⟨e, r, k⟩, hvalue, heq⟩ := Option.map_eq_some_iff.1 h
  cases heq
  refine ⟨fun x => ?_, valueTurn_takes hg.paramClose.ne_nil hvalue⟩
  unfold stringTurn
  rw [valueTurn_append hg.close hg.paramClose.ne_nil hvalue x]
  rfl

theorem leadTurn_steady (hg : Lawful g) (h : leadTurn g s b = some (s', b', o)) :
    (∀ x, leadTurn g s (b ++ x) = some (s', b' ++ x, o)) ∧ Transducer.Takes b b' := by
  cases b with
  | nil => cases h
  | cons c t =>
      rw [leadTurn] at h
      split at h
      · rename_i hc
        cases h
        refine ⟨fun x => ?_, [c], by simp, rfl⟩
        rw [List.cons_append, leadTurn, if_pos hc]
      · rename_i hc
        obtain ⟨happend, htakes⟩ := stringTurn_steady hg h
        refine ⟨fun x => ?_, htakes⟩
        rw [List.cons_append, leadTurn, if_neg hc, ← List.cons_append, happend x]

/-- A turn does not depend on what comes later, and takes something. -/
theorem turn_steady (hg : Lawful g) (h : turn g cx s b = some (s', b', o)) :
    (∀ x, turn g cx s (b ++ x) = some (s', b' ++ x, o)) ∧ Transducer.Takes b b' := by
  have hread : ∀ {marks : List PsMark} {emit : Char → List ToolEvent}, Apart marks →
      (∀ m ∈ marks, m.Steady) →
      read marks (fun c t => some (s, t, emit c)) b = some (s', b', o) →
      (∀ x, read marks (fun c t => some (s, t, emit c)) (b ++ x) = some (s', b' ++ x, o)) ∧
        Transducer.Takes b b' := by
    intro marks emit hapart hsteady h
    refine ⟨fun x => read_append hapart hsteady ?_ h x, read_takes hsteady ?_ h⟩
    · rintro c t s' b' o ⟨⟩ x
      rfl
    · rintro c t s' b' o ⟨⟩
      exact List.suffix_refl t
  have hvalue : ∀ {f : Text → State × List ToolEvent}, (find g.paramClose b).map (fun stop =>
        ((f (b.take stop)).1, b.drop (stop + g.paramClose.length), (f (b.take stop)).2)) =
          some (s', b', o) →
      (∀ x, (find g.paramClose (b ++ x)).map (fun stop =>
        ((f ((b ++ x).take stop)).1, (b ++ x).drop (stop + g.paramClose.length),
          (f ((b ++ x).take stop)).2)) = some (s', b' ++ x, o)) ∧ Transducer.Takes b b' := by
    intro f h
    obtain ⟨stop, hfind, heq⟩ := Option.map_eq_some_iff.1 h
    cases heq
    have hle := find_le hfind hg.paramClose.ne_nil
    have hpos := List.length_pos_iff.2 hg.paramClose.ne_nil
    refine ⟨fun x => ?_, b.take (stop + g.paramClose.length), ?_, ?_⟩
    · rw [find_append hfind hg.paramClose.ne_nil, Option.map_some,
        List.take_append_of_le_length (by omega), List.drop_append_of_le_length (by omega)]
    · rw [← List.length_pos_iff, List.length_take]
      omega
    · rw [List.take_append_drop]
  unfold turn at h ⊢
  split at h
  · cases h
  · rename_i hraised
    simp only [if_neg hraised]
    cases hmode : s.mode <;> rw [hmode] at h
    case idle =>
      refine hread (apart_one _) (fun m hm => ?_) h
      rw [List.mem_singleton.1 hm]
      exact Mark.pass_steady hg.outerOpen.ne_nil _ _
    case block =>
      have hopen : (invokeMark g cx s).Steady := Mark.tag_steady hg.invokeTight _ _
      have hclose : (outerMark g s).Steady := Mark.pass_steady hg.outerClose.ne_nil _ _
      exact hread (apart_two hg.block) (forall_mem_two hopen hclose) h
    case pstr =>
      dsimp only at h ⊢
      split at h
      · rename_i htrim
        simp only [if_pos htrim]
        exact stringTurn_steady hg h
      · rename_i htrim
        simp only [if_neg htrim]
        exact leadTurn_steady hg h
    case pbuf => exact hvalue h
    case pskip => exact hvalue h
    all_goals
      have hopen : (paramMark g cx s).Steady := Mark.tag_steady hg.paramTight _ _
      have hclose : (closeMark g s).Steady := Mark.pass_steady hg.invokeClose.ne_nil _ _
      exact hread (apart_two hg.invoke) (forall_mem_two hopen hclose) h

theorem turn_extends (hg : Lawful g) : Extends (turn g cx) := fun _ _ _ _ _ h =>
  (turn_steady hg h).1

theorem turn_shrinks (hg : Lawful g) : Shrinks (turn g cx) fun _ => 0 :=
  .of_takes fun h => (turn_steady hg h).2

def Raises (s : State) : Prop := s.raised = true

/-- Between blocks nothing is passed over silently. -/
def IsIdle (s : State) : Prop := s.mode = .idle

theorem turn_raised (h : Raises s) : turn g cx s b = none := by
  have hraised : s.raised = true := h
  unfold turn
  rw [if_pos hraised]

theorem turn_nil (hg : Lawful g) : turn g cx s [] = none := by
  cases h : turn g cx s [] with
  | none => rfl
  | some p => exact absurd (turn_steady hg h).2.length_lt (Nat.not_lt_zero _)

end Reader

/-! ## The rounds -/

section Rounds

variable {g : InvokeGrammar} {cx : TypedContext} {d d' : InvokeParamStream} {s s' : State}
  {b b' : Text} {o : List ToolEvent} {calls goes : Bool} {out : StreamingParseResult}

theorem turn_idle (cx : TypedContext) (h : d.psMode = .idle) (b : Text) : turn g cx d.state b =
    read [idleMark g d.state] (fun c t => some (d.state, t, [.text c])) b := by
  have h' : d.state.mode = .idle := h
  unfold turn
  rw [if_neg (by simp [state]), h']

theorem turn_block (cx : TypedContext) (h : d.psMode = .block) (b : Text) : turn g cx d.state b =
    read [invokeMark g cx d.state, outerMark g d.state] (fun _ t => some (d.state, t, [])) b := by
  have h' : d.state.mode = .block := h
  unfold turn
  rw [if_neg (by simp [state]), h']

theorem turn_invoke (cx : TypedContext) (h : d.psMode = .invoke ∨ d.psMode = .invokeSkip) (b : Text) :
    turn g cx d.state b =
      read [paramMark g cx d.state, closeMark g d.state] (fun _ t => some (d.state, t, [])) b := by
  have h' : d.state.mode = .invoke ∨ d.state.mode = .invokeSkip := h
  unfold turn
  rw [if_neg (by simp [state])]
  rcases h' with h' | h' <;> rw [h']

theorem turn_value (cx : TypedContext) (h : d.psMode = .pbuf ∨ d.psMode = .pskip) (b : Text) :
    turn g cx d.state b = (find g.paramClose b).map fun stop =>
      ((closedValue g cx d.state (b.take stop)).1, b.drop (stop + g.paramClose.length),
        (closedValue g cx d.state (b.take stop)).2) := by
  have h' : d.state.mode = .pbuf ∨ d.state.mode = .pskip := h
  unfold turn
  rw [if_neg (by simp [state])]
  rcases h' with h' | h' <;> rw [h']

theorem turn_pstr (cx : TypedContext) (hraised : s.raised = false) (hmode : s.mode = .pstr)
    (b : Text) : turn g cx s b =
      if s.leadTrimmed then stringTurn g s b else leadTurn g s b := by
  unfold turn
  rw [if_neg (by simp [hraised]), hmode]

theorem not_raises (d : InvokeParamStream) : ¬ Raises d.state := Bool.false_ne_true

theorem quiet_of_none (hs : ¬ Raises s) (h : turn g cx s b = none) :
    Quiet (turn g cx) Raises IsIdle s b := ⟨b, ⟨.refl s b, h⟩, hs, fun _ => rfl⟩

/-- In a block, text that is passed over is dropped when a tag was read. -/
theorem quiet_of_pass (hs : ¬ Raises s) (hmode : s.mode ≠ .idle)
    (hpass : Runs (turn g cx) s b [] s b') (h : turn g cx s b' = none) :
    Quiet (turn g cx) Raises IsIdle s b :=
  ⟨b', ⟨hpass, h⟩, hs, fun hidle => absurd hidle hmode⟩

/-- What a round did, as turns of the reader. -/
abbrev PsRoundOk (g : InvokeGrammar) (cx : TypedContext) (d : InvokeParamStream)
    (calls goes : Bool) (d' : InvokeParamStream) (out : StreamingParseResult) : Prop :=
  RoundOk (turn g cx) Raises IsIdle buffer size d d.state calls goes d' d'.state out

theorem flatMap_silent (t : Text) : (t.flatMap fun _ => ([] : List ToolEvent)) = [] := by
  rw [List.flatMap_eq_nil_iff]
  exact fun _ _ => rfl

theorem idleRound_ok (hg : Lawful g) (hmode : d.psMode = .idle)
    (h : idleRound g d calls = (goes, d', out)) : PsRoundOk g cx d calls goes d' out := by
  have hturn := turn_idle (g := g) cx hmode
  unfold idleRound at h
  dsimp only at h
  split at h
  · rename_i hcalls
    cases h
    exact ⟨.refl _ _, .inl rfl, by simp, by simp, fun _ => .inl hcalls⟩
  · rename_i hcalls
    have hcalls : calls = false := by simpa using hcalls
    split at h
    · rename_i hfind
      obtain ⟨hpass, hquiet⟩ := runs_none hturn hg.outerOpen hfind
      have hlen : (d.buffer.take (d.buffer.length -
          endsWithPartialToken d.buffer g.outerOpen)).length =
          d.buffer.length - endsWithPartialToken d.buffer g.outerOpen := by
        rw [List.length_take]
        omega
      split at h
      · rename_i hrelease
        cases h
        rw [hrelease, List.length_nil] at hlen
        rw [idleMark, Mark.pass_tok] at hquiet
        have hzero : d.buffer.length - shortPartial d.buffer g.outerOpen = 0 := hlen.symm
        rw [hzero, List.drop_zero] at hquiet
        exact ⟨.refl _ _, .inl rfl, by simp, by simp,
          fun _ => .inr (quiet_of_none (not_raises _) hquiet)⟩
      · cases h
        rw [hlen]
        refine ⟨?_, .inr hcalls, by simp, by simp,
          fun _ => .inr (quiet_of_none (not_raises _) hquiet)⟩
        rw [StreamingParseResult.events_text]
        exact hpass
    · rename_i pos hfind
      obtain ⟨hpass, hact⟩ := runs_one hturn hg.outerOpen hfind
      have hle := find_le hfind hg.outerOpen.ne_nil
      have hpos := List.length_pos_iff.2 hg.outerOpen.ne_nil
      split at h
      · rename_i hlt
        cases h
        refine ⟨?_, .inr hcalls, by simp, fun _ => ?_, by simp⟩
        · rw [StreamingParseResult.events_text]
          exact hpass
        · dsimp only [size]
          rw [List.length_drop]
          omega
      · rename_i hzero
        obtain rfl : pos = 0 := by omega
        cases h
        rw [List.drop_zero] at hact
        refine ⟨.single hact, .inl rfl, by simp, fun _ => ?_, by simp⟩
        dsimp only [size]
        rw [List.length_drop]
        omega

theorem openInvoke_ok {name rest : Text} (h : openInvoke cx d (strip name) rest = (goes, d', out)) :
    goes = true ∧ d'.state = (openedInvoke cx d.state (strip name)).1 ∧ d'.buffer = rest ∧
      out.normalText = [] ∧ (∀ item ∈ out.calls, item.events ≠ []) ∧
      out.events = (openedInvoke cx d.state (strip name)).2 := by
  unfold openInvoke at h
  unfold openedInvoke
  dsimp only at h
  split at h
  · rename_i hacc
    cases h
    rw [if_pos hacc]
    exact ⟨rfl, rfl, rfl, rfl, by simp [ToolCallItem.events], rfl⟩
  · rename_i hacc
    cases h
    rw [if_neg hacc]
    exact ⟨rfl, rfl, rfl, rfl, by simp, rfl⟩

/-- A tag that was searched for is the turn of its marker. -/
theorem tag_act {G : Type} {tok : Text} {p : Text → Option (G × Text)} {f : G → State × List ToolEvent}
    {q : Option (G × Text)} (h : search p b = q) :
    (Mark.tag tok p f : PsMark).act b = q.map fun q => ((f q.1).1, q.2, (f q.1).2) := by
  unfold Mark.tag
  dsimp only
  rw [h]

theorem blockRound_ok (hg : Lawful g) (hmode : d.psMode = .block)
    (h : blockRound g cx d = (goes, d', out)) : PsRoundOk g cx d calls goes d' out := by
  have hturn := turn_block (g := g) cx hmode
  have hidle : d.state.mode ≠ .idle := by
    rw [show d.state.mode = .block from hmode]
    decide
  unfold blockRound at h
  dsimp only at h
  split at h
  · -- the block closes before the next call
    rename_i close hclose
    obtain ⟨hfind, hlt⟩ := foundBefore_eq_some.1 hclose
    obtain ⟨hpass, hact⟩ := runs_second hturn hg.block hg.invokeOpen hg.outerClose hfind hlt
    have hle := find_le hfind hg.outerClose.ne_nil
    have hpos := List.length_pos_iff.2 hg.outerClose.ne_nil
    rw [flatMap_silent] at hpass
    cases h
    refine ⟨?_, .inl rfl, by simp, fun _ => ?_, by simp⟩
    · rw [← List.drop_drop]
      exact hpass.trans (.single hact)
    · dsimp only [size]
      rw [List.length_drop]
      omega
  · rename_i hclose
    split at h
    · -- a call begins
      rename_i inv hinv
      obtain ⟨hpass, hact⟩ := runs_first hturn hg.block hg.invokeOpen hg.outerClose hinv (by
        intro e he
        obtain ⟨i, hi, hle⟩ := foundBefore_eq_none.1 hclose e he
        rw [hinv] at hi
        cases hi
        exact hle)
      rw [flatMap_silent] at hpass
      split at h
      · rename_i hopen
        cases h
        have hnone : turn g cx d.state (d.buffer.drop inv) = none := hact.trans (tag_act hopen)
        exact ⟨.refl _ _, .inl rfl, by simp, by simp,
          fun _ => .inr (quiet_of_pass (not_raises _) hidle hpass hnone)⟩
      · rename_i name rest hopen
        obtain ⟨rfl, hstate, hbuffer, htext, hitems, hevents⟩ := openInvoke_ok h
        have hlt := Transducer.Takes.length_lt (hg.invokeTight.search_word hopen)
        rw [List.length_drop] at hlt
        refine ⟨?_, .inl htext, hitems, fun _ => ?_, by simp⟩
        · rw [hstate, hbuffer, hevents]
          exact hpass.trans (.single (hact.trans (tag_act hopen)))
        · rw [size, size, hbuffer]
          omega
    · rename_i hinv
      cases h
      have hclose' : find g.outerClose d.buffer = none := by
        cases hf : find g.outerClose d.buffer with
        | none => rfl
        | some e =>
            obtain ⟨i, hi, -⟩ := foundBefore_eq_none.1 hclose e hf
            rw [hinv] at hi
            cases hi
      obtain ⟨hpass, hquiet⟩ := runs_neither hturn hg.block hg.invokeOpen hg.outerClose hinv hclose'
      rw [flatMap_silent] at hpass
      exact ⟨hpass, .inl rfl, by simp, by simp,
        fun _ => .inr (quiet_of_none (not_raises _) hquiet)⟩

theorem closeInvoke_ok {rest : Text} (h : closeInvoke d rest = (goes, d', out)) :
    goes = true ∧ d'.state = (closedInvoke d.state).1 ∧ d'.buffer = rest ∧
      out.normalText = [] ∧ (∀ item ∈ out.calls, item.events ≠ []) ∧
      out.events = (closedInvoke d.state).2 := by
  unfold closeInvoke at h
  unfold closedInvoke
  split at h
  · rename_i hmode
    have hmode' : d.state.mode = .invoke := hmode
    obtain ⟨hevents, hitems⟩ := d.ledger.emit_events (if d.argsStarted then ['}'] else ['{', '}'])
    have hid := d.ledger.emit_toolId (if d.argsStarted then ['}'] else ['{', '}'])
    generalize d.ledger.emit (if d.argsStarted then ['}'] else ['{', '}']) = p
      at h hevents hitems hid
    cases h
    rw [if_pos hmode']
    refine ⟨rfl, ?_, rfl, rfl, hitems, hevents⟩
    simp [state, hid]
  · rename_i hmode
    have hmode' : d.state.mode ≠ .invoke := hmode
    cases h
    rw [if_neg hmode']
    exact ⟨rfl, rfl, rfl, rfl, by simp, rfl⟩

theorem openParam_ok {name rest : Text} (h : openParam g cx d name rest = (goes, d', out)) :
    goes = true ∧ d'.state = (openedParam g cx d.state (strip name)).1 ∧ d'.buffer = rest ∧
      out.normalText = [] ∧ (∀ item ∈ out.calls, item.events ≠ []) ∧
      out.events = (openedParam g cx d.state (strip name)).2 := by
  unfold openParam at h
  unfold openedParam
  dsimp only at h
  split at h
  · rename_i hmode
    have hmode' : d.state.mode = .invokeSkip := hmode
    cases h
    rw [if_pos hmode']
    exact ⟨rfl, rfl, rfl, rfl, by simp, rfl⟩
  · rename_i hmode
    have hmode' : d.state.mode ≠ .invokeSkip := hmode
    have hlead : (if d.argsStarted then [','] else ['{']) = d.state.nextLead := rfl
    have hconfig : d.psParamConfig = d.state.config := rfl
    rw [if_neg hmode']
    rw [hlead, hconfig] at h
    split at h
    · rename_i hstr
      rw [if_pos hstr]
      obtain ⟨hevents, hitems⟩ :=
        d.ledger.emit_events (d.state.nextLead ++ Json.quote (strip name) ++ [':', '"'])
      have hid := d.ledger.emit_toolId (d.state.nextLead ++ Json.quote (strip name) ++ [':', '"'])
      generalize d.ledger.emit (d.state.nextLead ++ Json.quote (strip name) ++ [':', '"']) = p
        at h hevents hitems hid
      cases h
      refine ⟨rfl, ?_, rfl, rfl, hitems, hevents⟩
      simp [state, hid]
    · rename_i hstr
      rw [if_neg hstr]
      cases h
      exact ⟨rfl, rfl, rfl, rfl, by simp, rfl⟩

theorem invokeRound_ok (hg : Lawful g) (hmode : d.psMode = .invoke ∨ d.psMode = .invokeSkip)
    (h : invokeRound g cx d = (goes, d', out)) : PsRoundOk g cx d calls goes d' out := by
  have hturn := turn_invoke (g := g) cx hmode
  have hidle : d.state.mode ≠ .idle := by
    have hmode' : d.state.mode = .invoke ∨ d.state.mode = .invokeSkip := hmode
    rcases hmode' with hm | hm <;> rw [hm] <;> decide
  unfold invokeRound at h
  dsimp only at h
  split at h
  · -- the call closes before the next parameter
    rename_i e he
    obtain ⟨hfind, hlt⟩ := foundBefore_eq_some.1 he
    obtain ⟨hpass, hact⟩ := runs_second hturn hg.invoke hg.paramOpen hg.invokeClose hfind hlt
    have hle := find_le hfind hg.invokeClose.ne_nil
    have hpos := List.length_pos_iff.2 hg.invokeClose.ne_nil
    rw [flatMap_silent] at hpass
    obtain ⟨rfl, hstate, hbuffer, htext, hitems, hevents⟩ := closeInvoke_ok h
    refine ⟨?_, .inl htext, hitems, fun _ => ?_, by simp⟩
    · rw [hstate, hbuffer, hevents, ← List.drop_drop]
      exact hpass.trans (.single hact)
    · rw [size, size, hbuffer, List.length_drop]
      omega
  · rename_i he
    split at h
    · -- a parameter begins
      rename_i p hp
      obtain ⟨hpass, hact⟩ := runs_first hturn hg.invoke hg.paramOpen hg.invokeClose hp (by
        intro e hfind
        obtain ⟨i, hi, hle⟩ := foundBefore_eq_none.1 he e hfind
        rw [hp] at hi
        cases hi
        exact hle)
      rw [flatMap_silent] at hpass
      split at h
      · rename_i hopen
        cases h
        have hnone : turn g cx d.state (d.buffer.drop p) = none := hact.trans (tag_act hopen)
        exact ⟨.refl _ _, .inl rfl, by simp, by simp,
          fun _ => .inr (quiet_of_pass (not_raises _) hidle hpass hnone)⟩
      · rename_i name rest hopen
        obtain ⟨rfl, hstate, hbuffer, htext, hitems, hevents⟩ := openParam_ok h
        have hlt := Transducer.Takes.length_lt (hg.paramTight.search_word hopen)
        rw [List.length_drop] at hlt
        refine ⟨?_, .inl htext, hitems, fun _ => ?_, by simp⟩
        · rw [hstate, hbuffer, hevents]
          exact hpass.trans (.single (hact.trans (tag_act hopen)))
        · rw [size, size, hbuffer]
          omega
    · rename_i hp
      cases h
      have hclose : find g.invokeClose d.buffer = none := by
        cases hf : find g.invokeClose d.buffer with
        | none => rfl
        | some e =>
            obtain ⟨i, hi, -⟩ := foundBefore_eq_none.1 he e hf
            rw [hp] at hi
            cases hi
      obtain ⟨hpass, hquiet⟩ := runs_neither hturn hg.invoke hg.paramOpen hg.invokeClose hp hclose
      rw [flatMap_silent] at hpass
      exact ⟨hpass, .inl rfl, by simp, by simp,
        fun _ => .inr (quiet_of_none (not_raises _) hquiet)⟩

/-- After the trim at its beginning, a string value is read turn by turn. -/
theorem readsValue (cx : TypedContext) (hraised : s.raised = false) (hmode : s.mode = .pstr)
    (htrim : s.leadTrimmed = true) :
    ReadsValue (isTrim g) g.trimSingle g.paramClose (turn g cx) s { s with mode := .invoke }
      (escaped s) [.arg s.id '"'] := by
  intro b
  rw [turn_pstr cx hraised hmode, if_pos htrim]
  rfl

theorem escape_events (t : Text) (s : State) :
    (Json.escape t).map (ToolEvent.arg s.id) = t.flatMap (escaped s) := List.map_flatMap ..

theorem valueRound_ok (cx : TypedContext) (calls : Bool) (hg : Lawful g) (hmode : d.psMode = .pstr) (htrim : d.psLeadTrimmed = true)
    (h : valueRound g d = (goes, d', out)) :
    PsRoundOk g cx d calls goes d' out ∧
      (goes = false → turn g cx d'.state d'.buffer = none) := by
  have hread := readsValue (g := g) cx (s := d.state) rfl hmode htrim
  unfold valueRound at h
  dsimp only at h
  split at h
  · rename_i hfind
    obtain ⟨hpass, hquiet⟩ := hread.passes hg.paramClose hg.close hfind rfl
    have hsame : endsWithPartialToken d.buffer g.paramClose = shortPartial d.buffer g.paramClose :=
      rfl
    rw [hsame] at h
    generalize (d.buffer.take (d.buffer.length - shortPartial d.buffer g.paramClose)).rdropWhile
      (isTrim g) = emitNow at h hpass hquiet
    split at h
    · rename_i hnil
      cases h
      rw [hnil, List.length_nil, List.drop_zero] at hquiet
      exact ⟨⟨.refl _ _, .inl rfl, by simp, by simp,
        fun _ => .inr (quiet_of_none (not_raises _) hquiet)⟩, fun _ => hquiet⟩
    · obtain ⟨hevents, hitems⟩ := d.ledger.emit_events (jsonEscapeChunk emitNow)
      have hid := d.ledger.emit_toolId (jsonEscapeChunk emitNow)
      generalize d.ledger.emit (jsonEscapeChunk emitNow) = p at h hevents hitems hid
      cases h
      have hstate : ({ d with ledger := p.1, buffer := d.buffer.drop emitNow.length } :
          InvokeParamStream).state = d.state := by
        simp [state, hid]
      rw [← hstate] at hquiet
      refine ⟨⟨?_, .inl rfl, hitems, by simp,
        fun _ => .inr (quiet_of_none (not_raises _) hquiet)⟩, fun _ => hquiet⟩
      rw [StreamingParseResult.events_calls, hevents, hstate]
      exact (escape_events emitNow d.state) ▸ hpass
  · rename_i stop hfind
    have hclose := hread.closes hg.paramClose hg.close hfind
    have hle := find_le hfind hg.paramClose.ne_nil
    have hpos := List.length_pos_iff.2 hg.paramClose.ne_nil
    have htail : psTrimTrailing g (d.buffer.take stop) =
        trimTrailing (isTrim g) g.trimSingle (d.buffer.take stop) := rfl
    rw [htail] at h
    generalize trimTrailing (isTrim g) g.trimSingle (d.buffer.take stop) = tail at h hclose
    obtain ⟨hevents, hitems⟩ := d.ledger.emit_events (jsonEscapeChunk tail ++ ['"'])
    have hid := d.ledger.emit_toolId (jsonEscapeChunk tail ++ ['"'])
    generalize d.ledger.emit (jsonEscapeChunk tail ++ ['"']) = p at h hevents hitems hid
    cases h
    have hstate : ({ d with
        ledger := p.1.updatePrev
        buffer := d.buffer.drop (stop + g.paramClose.length)
        psMode := .invoke } : InvokeParamStream).state = { d.state with mode := .invoke } := by
      simp [state, hid]
    refine ⟨⟨?_, .inl rfl, hitems, fun _ => ?_, by simp⟩, by simp⟩
    · rw [StreamingParseResult.events_calls, hevents, List.map_append, hstate]
      exact (escape_events tail d.state) ▸ hclose
    · dsimp only [size]
      rw [List.length_drop]
      omega

/-- The detector and the reader are in one state, or the detector has found out, without taking
anything, that there is nothing to trim where the reader stands. -/
def Rel (g : InvokeGrammar) (d : InvokeParamStream) (s : State) : Prop :=
  s = d.state ∨ (d.psMode = .pstr ∧ d.psLeadTrimmed = true ∧
    s = { d.state with leadTrimmed := false } ∧ ∃ c t, d.buffer = c :: t ∧ isTrim g c = false)

theorem turn_lead (cx : TypedContext) (hraised : s.raised = false) (hmode : s.mode = .pstr)
    (htrim : s.leadTrimmed = true) {c : Char} (hc : isTrim g c = false) (t : Text) :
    turn g cx { s with leadTrimmed := false } (c :: t) = turn g cx s (c :: t) := by
  have hlead : ({ s with leadTrimmed := true } : State) = s := by rw [← htrim]
  rw [turn_pstr cx hraised hmode, turn_pstr cx (s := { s with leadTrimmed := false }) hraised hmode,
    if_pos htrim, if_neg Bool.false_ne_true, leadTurn, if_neg (by simp [hc])]
  exact congrArg (fun s => stringTurn g s (c :: t)) hlead

/-- What a round does after the trim, it does from the reader's state before it. -/
theorem roundOk_of_lead (hmode : d.psMode = .pstr) (htrim : d.psLeadTrimmed = true) {c : Char}
    {t : Text} (hbuf : d.buffer = c :: t) (hc : isTrim g c = false)
    (h : PsRoundOk g cx d calls goes d' out)
    (hquiet : goes = false → turn g cx d'.state d'.buffer = none) :
    ∃ s', Rel g d' s' ∧ RoundOk (turn g cx) Raises IsIdle buffer size d
      { d.state with leadTrimmed := false } calls goes d' s' out := by
  have hlead : ∀ {e : InvokeParamStream}, e.psMode = .pstr → e.psLeadTrimmed = true →
      e.buffer = c :: t →
      turn g cx { e.state with leadTrimmed := false } e.buffer = turn g cx e.state e.buffer := by
    intro e hmode htrim hbuf
    rw [hbuf]
    exact turn_lead cx (s := e.state) rfl hmode htrim hc t
  have hsame := hlead hmode htrim hbuf
  rcases h.runs.swap hsame with hruns | ⟨hevents, hstate, hbuffer⟩
  · exact ⟨_, .inl rfl, hruns, h.text, h.items, h.shorter, h.stops⟩
  · -- nothing was taken
    have hmode' : d'.psMode = .pstr := (congrArg State.mode hstate).trans hmode
    have htrim' : d'.psLeadTrimmed = true := (congrArg State.leadTrimmed hstate).trans htrim
    have hbuf' : d'.buffer = c :: t := hbuffer.trans hbuf
    refine ⟨_, .inr ⟨hmode', htrim', rfl, c, t, hbuf', hc⟩, ?_, h.text, h.items, h.shorter,
      fun hgoes => .inr (quiet_of_none Bool.false_ne_true ?_)⟩
    · rw [hevents, hbuffer, hstate]
      exact .refl _ _
    · rw [hlead hmode' htrim' hbuf']
      exact hquiet hgoes

theorem turn_trim (cx : TypedContext) (hraised : s.raised = false) (hmode : s.mode = .pstr)
    (htrim : s.leadTrimmed = false) {c : Char} (hc : isTrim g c = true) (t : Text) :
    turn g cx s (c :: t) = some ({ s with leadTrimmed := g.trimSingle }, t, []) := by
  rw [turn_pstr cx hraised hmode, htrim, if_neg Bool.false_ne_true, leadTurn, if_pos hc]

/-- What may be trimmed at the beginning is passed over. -/
theorem lead_runs (cx : TypedContext) (hraised : s.raised = false) (hmode : s.mode = .pstr)
    (htrim : s.leadTrimmed = false) (hne : psTrimLeading g b ≠ b) :
    Runs (turn g cx) s b [] { s with leadTrimmed := g.trimSingle } (psTrimLeading g b) ∧
      (psTrimLeading g b).length < b.length := by
  have hstep : ∀ {c : Char}, isTrim g c = true → ∀ t, turn g cx s (c :: t) =
      some ({ s with leadTrimmed := g.trimSingle }, t, []) := turn_trim cx hraised hmode htrim
  unfold psTrimLeading trimLeading at hne ⊢
  split at hne
  · rename_i hsingle
    rw [if_pos hsingle]
    rcases b with _ | ⟨c, t⟩
    · exact absurd rfl hne
    · dsimp only at hne ⊢
      split at hne
      · rename_i hc
        rw [if_pos hc]
        exact ⟨.single (hstep hc t), Nat.lt_succ_self _⟩
      · exact absurd rfl hne
  · rename_i hsingle
    have hself : ({ s with leadTrimmed := g.trimSingle } : State) = s := by
      have h : g.trimSingle = s.leadTrimmed := by
        rw [htrim]
        simpa using hsingle
      rw [h]
    rw [hself] at hstep
    rw [if_neg hsingle, hself]
    have hruns : ∀ b : Text, Runs (turn g cx) s b [] s (b.dropWhile (isTrim g)) := by
      intro b
      induction b with
      | nil => exact .refl _ _
      | cons c t ih =>
          rw [List.dropWhile_cons]
          split
          · rename_i hc
            exact .step (hstep hc t) ih
          · exact .refl _ _
    refine ⟨hruns b, ?_⟩
    rcases Nat.lt_or_ge (b.dropWhile (isTrim g)).length b.length with hlt | hge
    · exact hlt
    · exact absurd ((List.dropWhile_suffix _).eq_of_length_le hge) hne

/-- After the trim the reader may go on as one that knows it is over. -/
theorem lead_reaches (cx : TypedContext) (hraised : s.raised = false) (hmode : s.mode = .pstr)
    (htrim : s.leadTrimmed = false) (b : Text) :
    Runs (turn g cx) s b [] { s with leadTrimmed := true } (psTrimLeading g b) ∨
      (Runs (turn g cx) s b [] s (psTrimLeading g b) ∧ ∀ c t, psTrimLeading g b = c :: t →
        turn g cx s (c :: t) = turn g cx { s with leadTrimmed := true } (c :: t)) := by
  have hsame : ({ s with leadTrimmed := false } : State) = s := by rw [← htrim]
  have hturn : ∀ {c : Char} {t : Text}, isTrim g c = false →
      turn g cx s (c :: t) = turn g cx { s with leadTrimmed := true } (c :: t) := by
    intro c t hc
    have h := turn_lead cx (s := { s with leadTrimmed := true }) hraised hmode rfl hc t
    rwa [hsame] at h
  by_cases hne : psTrimLeading g b = b
  · refine .inr ⟨?_, fun c t hbuf => hturn ?_⟩
    · rw [hne]
      exact .refl s b
    · rw [hbuf] at hne
      subst hne
      exact trimLeading_head g.trimSingle hbuf
  · obtain ⟨hruns, -⟩ := lead_runs cx hraised hmode htrim hne
    by_cases hsingle : g.trimSingle = true
    · rw [hsingle] at hruns
      exact .inl hruns
    · rw [Bool.not_eq_true] at hsingle
      rw [hsingle, hsame] at hruns
      refine .inr ⟨hruns, fun c t hbuf => hturn ?_⟩
      unfold psTrimLeading trimLeading at hbuf
      rw [hsingle, if_neg Bool.false_ne_true] at hbuf
      have hhead := List.head?_dropWhile_not (isTrim g) b
      rw [hbuf] at hhead
      simpa using hhead

/-- A string value that closes, from its beginning. -/
theorem string_closes (cx : TypedContext) (hg : Lawful g) (hraised : s.raised = false)
    (hmode : s.mode = .pstr) (htrim : s.leadTrimmed = false) {stop : Nat}
    (h : find g.paramClose b = some stop) :
    Runs (turn g cx) s b
      ((Json.escape (psTrimTrailing g (psTrimLeading g (b.take stop))) ++ ['"']).map (.arg s.id))
      { s with mode := .invoke, leadTrimmed := true } (b.drop (stop + g.paramClose.length)) := by
  have hread := readsValue (g := g) cx (s := { s with leadTrimmed := true }) hraised hmode rfl
  obtain ⟨hfind, htake, hdrop⟩ := find_trimLeading hg.close hg.paramClose.ne_nil g.trimSingle h
  have hruns := hread.closes hg.paramClose hg.close hfind
  rw [htake, hdrop] at hruns
  have hevents : (Json.escape (psTrimTrailing g (psTrimLeading g (b.take stop))) ++ ['"']).map
      (ToolEvent.arg s.id) = (trimTrailing (isTrim g) g.trimSingle (trimLeading (isTrim g)
        g.trimSingle (b.take stop))).flatMap (escaped s) ++ [.arg s.id '"'] := by
    rw [List.map_append, escape_events]
    rfl
  rw [hevents]
  rcases lead_reaches cx hraised hmode htrim b with hlead | ⟨hlead, hsame⟩
  · exact hlead.trans hruns
  · obtain ⟨c, t, hbuf⟩ : ∃ c t, psTrimLeading g b = c :: t := by
      refine List.exists_cons_of_ne_nil fun hnil => ?_
      have hle := find_le hfind hg.paramClose.ne_nil
      have hpos := List.length_pos_iff.2 hg.paramClose.ne_nil
      have hzero : (trimLeading (isTrim g) g.trimSingle b).length = 0 := congrArg List.length hnil
      omega
    have hturn := hsame c t hbuf
    rw [← hbuf] at hturn
    rcases hruns.swap hturn with hruns | ⟨hnil, -⟩
    · exact hlead.trans hruns
    · simp at hnil

/-- A string value that does not close, from its beginning. -/
theorem string_waits (cx : TypedContext) (hg : Lawful g) (hraised : s.raised = false)
    (hmode : s.mode = .pstr) (htrim : s.leadTrimmed = false) (h : find g.paramClose b = none) :
    ∃ (fragment : Text) (s' : State) (b' : Text),
      Settles (turn g cx) s b (fragment.map (.arg s.id)) s' b' ∧
      s'.raised = false ∧ s'.mode = .pstr := by
  have hread := readsValue (g := g) cx (s := { s with leadTrimmed := true }) hraised hmode rfl
  have hfind : find g.paramClose (psTrimLeading g b) = none :=
    find_none_within h (trimLeading_suffix _ _ b).isInfix
  obtain ⟨hruns, hquiet⟩ := hread.passes hg.paramClose hg.close hfind rfl
  generalize ((psTrimLeading g b).take ((psTrimLeading g b).length -
    shortPartial (psTrimLeading g b) g.paramClose)).rdropWhile (isTrim g) = out at hruns hquiet
  have hevents := escape_events out { s with leadTrimmed := true }
  rw [← hevents] at hruns
  rcases lead_reaches cx hraised hmode htrim b with hlead | ⟨hlead, hsame⟩
  · exact ⟨_, _, _, ⟨hlead.trans hruns, hquiet⟩, hraised, hmode⟩
  · rcases hbuf : psTrimLeading g b with _ | ⟨c, t⟩
    · rw [hbuf] at hlead
      exact ⟨[], _, _, ⟨hlead, turn_nil hg⟩, hraised, hmode⟩
    · have hturn := hsame c t hbuf
      rw [← hbuf] at hturn
      rcases hruns.swap hturn with hruns | ⟨-, -, hrest⟩
      · exact ⟨_, _, _, ⟨hlead.trans hruns, hquiet⟩, hraised, hmode⟩
      · rw [hrest] at hquiet
        exact ⟨[], _, _, ⟨hlead, hturn.trans hquiet⟩, hraised, hmode⟩

theorem pstrRound_ok (hg : Lawful g) (hmode : d.psMode = .pstr) (hne : d.buffer ≠ [])
    (h : pstrRound g d = (goes, d', out)) :
    ∃ s', Rel g d' s' ∧ RoundOk (turn g cx) Raises IsIdle buffer size d d.state calls goes d' s'
      out := by
  unfold pstrRound at h
  split at h
  · rename_i htrim
    exact ⟨_, .inl rfl, (valueRound_ok cx calls hg hmode htrim h).1⟩
  · rename_i htrim
    have htrim : d.psLeadTrimmed = false := by simpa using htrim
    dsimp only at h
    split at h
    · rename_i hdiff
      obtain ⟨hruns, hlt⟩ := lead_runs cx (s := d.state) rfl hmode htrim hdiff
      cases h
      refine ⟨_, ?_, hruns, .inl rfl, by simp, fun _ => hlt, by simp⟩
      by_cases hsingle : g.trimSingle = true
      · left
        simp [state, hsingle]
      · rcases hbuf : psTrimLeading g d.buffer with _ | ⟨c, t⟩
        · left
          simp [state, hsingle]
        · right
          have hc : isTrim g c = false := by
            unfold psTrimLeading trimLeading at hbuf
            rw [if_neg hsingle] at hbuf
            have hhead := List.head?_dropWhile_not (isTrim g) d.buffer
            rw [hbuf] at hhead
            simpa using hhead
          refine ⟨hmode, by simp, ?_, c, t, rfl, hc⟩
          simp [state, hsingle]
    · rename_i hsame
      rw [not_not] at hsame
      obtain ⟨c, t, hbuf⟩ := List.exists_cons_of_ne_nil hne
      have hc : isTrim g c = false := by
        rw [hbuf] at hsame
        exact trimLeading_head g.trimSingle hsame
      obtain ⟨hok, hquiet⟩ := valueRound_ok cx calls hg
        (d := { d with psLeadTrimmed := true }) hmode rfl h
      obtain ⟨s', hrel, hround⟩ := roundOk_of_lead (d := { d with psLeadTrimmed := true }) hmode rfl
        hbuf hc hok hquiet
      have hstate : ({ ({ d with psLeadTrimmed := true } : InvokeParamStream).state with
          leadTrimmed := false } : State) = d.state := by
        rw [← htrim]
        rfl
      rw [hstate] at hround
      exact ⟨s', hrel, hround.runs, hround.text, hround.items, hround.shorter, hround.stops⟩

theorem pbufRound_ok (hg : Lawful g) (hmode : d.psMode = .pbuf ∨ d.psMode = .pskip)
    (h : pbufRound g cx d = .ok (goes, d', out)) : PsRoundOk g cx d calls goes d' out := by
  have hturn := turn_value (g := g) cx hmode d.buffer
  unfold pbufRound at h
  dsimp only at h
  split at h
  · rename_i hfind
    cases h
    rw [hfind] at hturn
    exact ⟨.refl _ _, .inl rfl, by simp, by simp,
      fun _ => .inr (quiet_of_none (not_raises _) hturn)⟩
  · rename_i stop hfind
    rw [hfind, Option.map_some] at hturn
    have hle := find_le hfind hg.paramClose.ne_nil
    have hpos := List.length_pos_iff.2 hg.paramClose.ne_nil
    have hshorter : (d.buffer.drop (stop + g.paramClose.length)).length < d.buffer.length := by
      rw [List.length_drop]
      omega
    unfold closedValue at hturn
    split at h
    · rename_i hbuf
      have hbuf' : d.state.mode = .pbuf := hbuf
      obtain ⟨converted, hconverted, h⟩ := Py.bind_eq_ok.1 h
      obtain ⟨written, hwritten, h⟩ := Py.bind_eq_ok.1 h
      have hvalue : writtenValue g cx d.state.config d.state.key (d.buffer.take stop) =
          .ok written := Py.bind_eq_ok.2 ⟨converted, hconverted, hwritten⟩
      rw [if_pos hbuf', hvalue] at hturn
      obtain ⟨hevents, hitems⟩ := d.ledger.emit_events (d.psLead ++ Json.quote d.psKey ++ [':'] ++
        written)
      have hid := d.ledger.emit_toolId (d.psLead ++ Json.quote d.psKey ++ [':'] ++ written)
      generalize d.ledger.emit (d.psLead ++ Json.quote d.psKey ++ [':'] ++ written) = p
        at h hevents hitems hid
      cases h
      have hstate : ({ d with
          ledger := p.1.updatePrev
          buffer := d.buffer.drop (stop + g.paramClose.length)
          psMode := .invoke } : InvokeParamStream).state = { d.state with mode := .invoke } := by
        simp [state, hid]
      refine ⟨?_, .inl rfl, hitems, fun _ => hshorter, by simp⟩
      rw [StreamingParseResult.events_calls, hevents, hstate]
      exact .single hturn
    · rename_i hbuf
      have hbuf' : ¬ d.state.mode = .pbuf := hbuf
      rw [if_neg hbuf'] at hturn
      cases h
      exact ⟨.single hturn, .inl rfl, by simp, fun _ => hshorter, by simp⟩

/-- A round raises where the reader does. -/
theorem pbufRound_error {e : PyError} (hmode : d.psMode = .pbuf ∨ d.psMode = .pskip)
    (h : pbufRound g cx d = .error e) :
    ∃ o s' b', Runs (turn g cx) d.state d.buffer o s' b' ∧ Raises s' := by
  have hturn := turn_value (g := g) cx hmode d.buffer
  unfold pbufRound at h
  dsimp only at h
  split at h
  · cases h
  · rename_i stop hfind
    rw [hfind, Option.map_some] at hturn
    unfold closedValue at hturn
    split at h
    · rename_i hbuf
      have hbuf' : d.state.mode = .pbuf := hbuf
      have hvalue : ∃ e, writtenValue g cx d.state.config d.state.key (d.buffer.take stop) =
          .error e := by
        cases hwritten : writtenValue g cx d.state.config d.state.key (d.buffer.take stop) with
        | error e => exact ⟨e, rfl⟩
        | ok written =>
            obtain ⟨converted, hconverted, hdumps⟩ := Py.bind_eq_ok.1 hwritten
            have hconv : psConvertValue g cx d.psParamConfig d.psKey
                (psTrimTrailing g (psTrimLeading g (d.buffer.take stop))) = .ok converted :=
              hconverted
            rw [hconv] at h
            simp only [bind, Except.bind, hdumps] at h
            cases h
      obtain ⟨e, hvalue⟩ := hvalue
      rw [if_pos hbuf', hvalue] at hturn
      exact ⟨_, _, _, .single hturn, rfl⟩
    · cases h

theorem rounds (hg : Lawful g) : Rounds (turn g cx) init.state (fun _ => True) Raises IsIdle
    (round g cx) buffer size (Rel g) where
  ok := by
    intro d s calls t o goes d' out hrel _ _ h
    unfold round at h
    rcases hrel with rfl | ⟨hmode, htrim, rfl, c, t, hbuf, hc⟩
    · split at h
      · rename_i hnil
        cases h
        refine ⟨_, .inl rfl, .refl _ _, .inl rfl, by simp, by simp,
          fun _ => .inr (quiet_of_none (not_raises _) ?_)⟩
        rw [hnil]
        exact turn_nil hg
      · rename_i hne
        split at h
        · rename_i hmode
          exact ⟨_, .inl rfl, idleRound_ok hg hmode (Except.ok.inj h)⟩
        · rename_i hmode
          exact ⟨_, .inl rfl, blockRound_ok hg hmode (Except.ok.inj h)⟩
        · rename_i hmode
          exact ⟨_, .inl rfl, invokeRound_ok hg (.inl hmode) (Except.ok.inj h)⟩
        · rename_i hmode
          exact ⟨_, .inl rfl, invokeRound_ok hg (.inr hmode) (Except.ok.inj h)⟩
        · rename_i hmode
          exact pstrRound_ok hg hmode hne (Except.ok.inj h)
        · rename_i hmode
          exact ⟨_, .inl rfl, pbufRound_ok hg (.inl hmode) h⟩
        · rename_i hmode
          exact ⟨_, .inl rfl, pbufRound_ok hg (.inr hmode) h⟩
    · rw [if_neg (by rw [hbuf]; exact List.cons_ne_nil _ _), hmode] at h
      have h := Except.ok.inj h
      unfold pstrRound at h
      rw [if_pos htrim] at h
      obtain ⟨hok, hquiet⟩ := valueRound_ok cx calls hg hmode htrim h
      exact roundOk_of_lead hmode htrim hbuf hc hok hquiet
  error := by
    intro d s calls t o e hrel _ _ h
    unfold round at h
    split at h
    · cases h
    · split at h
      · cases h
      · cases h
      · cases h
      · cases h
      · cases h
      · rename_i hmode
        rcases hrel with rfl | ⟨hmode', -⟩
        · exact pbufRound_error (.inl hmode) h
        · rw [hmode] at hmode'
          cases hmode'
      · rename_i hmode
        rcases hrel with rfl | ⟨hmode', -⟩
        · exact pbufRound_error (.inr hmode) h
        · rw [hmode] at hmode'
          cases hmode'

theorem follows (hg : Lawful g) : Follows (turn g cx) init.state (fun _ => True)
    (parseStreamingIncrement g cx) StreamingParseResult.events buffer (Rel g) Raises IsIdle :=
  (rounds hg).follows (fun _ _ => rfl)
    (fun d s x h => by
      rcases h with rfl | ⟨hmode, htrim, rfl, c, t, hbuf, hc⟩
      · exact .inl rfl
      · exact .inr ⟨hmode, htrim, rfl, c, t ++ x, by rw [put, hbuf, List.cons_append], hc⟩)
    (turn_extends hg) ⟨_, turn_shrinks hg⟩ turn_raised (fun h => h)

end Rounds

end InvokeParamStream

end FreeToken
