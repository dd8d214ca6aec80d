import FreeToken.Server.DeepSeekV32Chunks

/-!
# Well-formed DSML blocks, streamed and read at once

A well-formed text is blocks with text between them.  The reader of the stream and the patterns of
`detect_and_parse` find the same calls in it.
-/

set_option autoImplicit false

namespace FreeToken

open Search Text Pattern Transducer

namespace DeepSeekV32Detector

/-- Text without the token of the format. -/
structure DsmlGap where
  text : Text
  plain : find dsmlToken text = none

/-- A parameter: its tag, and its value up to the closing tag. -/
structure DsmlParam where
  tag : Text
  name : Text
  isStr : Option Bool
  value : Text
  isTag : IsParamTag paramOpenToken (name, isStr) tag
  nameClear : find invokeEndToken name = none
  valueClear : ∀ tok ∈ [paramEndToken, invokeEndToken], find tok value = none

namespace DsmlParam

def text (p : DsmlParam) : Text := p.tag ++ (p.value ++ paramEndToken)

def json (p : DsmlParam) : Json :=
  if p.isStr = some true then .str p.value else parsedValue p.value

/-- The member of the arguments object. -/
def fragment (cx : ToolContext) (p : DsmlParam) : Text :=
  Json.quote p.name ++ ([':'] ++ cx.dumps p.json)

end DsmlParam

def paramsText (params : List (DsmlGap × DsmlParam)) : Text :=
  params.flatMap fun p => p.1.text ++ p.2.text

/-- A call: its tag, its parameters, its end. -/
structure DsmlInvoke where
  tag : Text
  name : Text
  isTag : IsNameTag invokeStartPrefix name tag
  params : List (DsmlGap × DsmlParam)
  last : DsmlGap

namespace DsmlInvoke

def body (i : DsmlInvoke) : Text := paramsText i.params ++ i.last.text

def text (i : DsmlInvoke) : Text := i.tag ++ (i.body ++ invokeEndToken)

def members (i : DsmlInvoke) : List Json.Member := i.params.map fun p => (p.2.name, p.2.json)

/-- The arguments as they are streamed. -/
def arguments (cx : ToolContext) (i : DsmlInvoke) : Text :=
  '{' :: (Json.joinMembers [','] [':'] (i.members.map fun m => (m.1, cx.dumps m.2)) ++ ['}'])

end DsmlInvoke

def invokesText (invokes : List (DsmlGap × DsmlInvoke)) : Text :=
  invokes.flatMap fun i => i.1.text ++ i.2.text

structure DsmlBlock where
  opener : Text
  closer : Text
  opens : opener ∈ [botToken, altBotToken]
  closes : closer ∈ [eotToken, altEotToken]
  invokes : List (DsmlGap × DsmlInvoke)
  last : DsmlGap

def DsmlBlock.text (b : DsmlBlock) : Text :=
  b.opener ++ (invokesText b.invokes ++ (b.last.text ++ b.closer))

def blocksText (blocks : List (DsmlGap × DsmlBlock)) : Text :=
  blocks.flatMap fun b => b.1.text ++ b.2.text

/-- Blocks, with text around them. -/
structure DsmlText where
  blocks : List (DsmlGap × DsmlBlock)
  last : DsmlGap

namespace DsmlText

def text (t : DsmlText) : Text := blocksText t.blocks ++ t.last.text

def invokes (t : DsmlText) : List DsmlInvoke := t.blocks.flatMap fun b => b.2.invokes.map Prod.snd

end DsmlText

/-! ## The calls in the stream -/

theorem DsmlGap.clear (g : DsmlGap) {marks : List DsMark}
    (h : ∀ m ∈ marks, dsmlToken <:+: m.tok) : ∀ m ∈ marks, find m.tok g.text = none :=
  fun m hm => find_none_of_infix g.plain (h m hm)

theorem dsml_inside : ∀ tok ∈ [botToken, altBotToken, eotToken, altEotToken, invokeStartPrefix,
    invokeEndToken, paramOpenToken], dsmlToken <:+: tok := by
  decide

theorem idleMarks_dsml (s : State) : ∀ m ∈ idleMarks s, dsmlToken <:+: m.tok := by
  intro m hm
  refine dsml_inside _ ?_
  simp only [idleMarks, List.mem_cons, List.not_mem_nil, or_false] at hm
  rcases hm with rfl | rfl <;> simp

theorem blockMarks_dsml (cx : ToolContext) (s : State) :
    ∀ m ∈ blockMarks cx s, dsmlToken <:+: m.tok := by
  intro m hm
  refine dsml_inside _ ?_
  simp only [blockMarks, List.mem_cons, List.not_mem_nil, or_false] at hm
  rcases hm with rfl | rfl | rfl <;> simp

theorem invokeMarks_dsml (s : State) : ∀ m ∈ invokeMarks s, dsmlToken <:+: m.tok := by
  intro m hm
  refine dsml_inside _ ?_
  simp only [invokeMarks, List.mem_cons, List.not_mem_nil, or_false] at hm
  rcases hm with rfl | rfl <;> simp

theorem DsmlParam.opens (p : DsmlParam) (t : Text) : paramOpenToken <+: p.tag ++ t := by
  obtain ⟨ws, ws', ws'', -, -, -, -, -, -, -, htag⟩ := p.isTag
  rw [htag, List.append_assoc]
  exact List.prefix_append _ _

theorem DsmlParam.tag_ne_nil (p : DsmlParam) : p.tag ≠ [] := by
  have hlen := (p.opens []).length_le
  rw [List.append_nil] at hlen
  exact List.ne_nil_of_length_pos (Nat.lt_of_lt_of_le (by decide) hlen)

theorem DsmlParam.search (p : DsmlParam) (t : Text) :
    Pattern.search (paramTag paramOpenToken) (p.tag ++ t) = some ((p.name, p.isStr), t) :=
  search_match p.tag_ne_nil (paramTag_eq_some.2 ⟨p.tag, p.isTag, rfl⟩)

/-- The value of a parameter, from its tag on. -/
theorem value_runs (cx : ToolContext) {s : State} (hmode : s.mode = .invoke) (p : DsmlParam)
    (rest : Text) :
    ∃ s', Runs (turn cx) (openedParam s (p.name, p.isStr)).1 (p.value ++ (paramEndToken ++ rest))
        (((if p.isStr = some true then [] else lead s ++ Json.quote p.name ++ [':']) ++
          (if p.isStr = some true then Json.escape p.value ++ ['"'] else cx.dumps p.json)).map
            (.arg s.id)) s' rest ∧
      s'.mode = .invoke ∧ s'.id = s.id ∧ s'.argsStarted = true := by
  have hskip : s.mode ≠ .invokeSkip := by
    rw [hmode]
    decide
  have hvalue := p.valueClear paramEndToken (by simp)
  unfold openedParam
  rw [if_neg hskip]
  dsimp only
  by_cases hstr : p.isStr = some true
  · rw [if_pos hstr, if_pos hstr, if_pos hstr]
    dsimp only
    generalize hs : ({ s with mode := .pstr, paramName := p.name, argsStarted := true } : State) = s₁
    have hmode₁ : s₁.mode = .pstr := by rw [← hs]
    obtain ⟨hpass, hact⟩ := runs_before_mark (turn_pstr cx hmode₁) (pstrMarks_apart s₁)
      (pstrMarks_start s₁) List.mem_cons_self (x := p.value) (by
        intro m hm
        simp only [pstrMarks, List.mem_cons, List.not_mem_nil, or_false] at hm
        rw [hm]
        exact hvalue) (t := paramEndToken ++ rest) (List.prefix_append _ _)
    refine ⟨{ s₁ with mode := .invoke }, ?_, rfl, by rw [← hs], by rw [← hs]⟩
    unfold Mark.pass at hact
    dsimp only at hact
    rw [List.drop_left] at hact
    have hrun := hpass.trans (.single hact)
    rw [← escape_events, ← List.map_singleton, ← List.map_append] at hrun
    rw [List.nil_append]
    have hid : s₁.id = s.id := by rw [← hs]
    rw [← hid]
    exact hrun
  · rw [if_neg hstr, if_neg hstr, if_neg hstr]
    dsimp only
    generalize hs : ({ s with
      mode := .pbuf, paramName := p.name, argsStarted := true, paramLead := lead s } : State) = s₁
    have hmode₁ : s₁.mode = .pbuf := by rw [← hs]
    have hstart : StartsOnly '<' paramEndToken := ⟨_, rfl, by decide⟩
    refine ⟨{ s₁ with mode := .invoke }, .single ?_, rfl, by rw [← hs], by rw [← hs]⟩
    unfold turn
    rw [hmode₁]
    dsimp only
    rw [hstart.find_append hvalue, Option.map_some, List.take_left, ← List.drop_drop,
      List.drop_left, List.drop_left]
    unfold closedValue
    rw [if_pos hmode₁, DsmlParam.json, if_neg hstr, ← hs]

theorem param_runs (cx : ToolContext) {s : State} (hmode : s.mode = .invoke) (g : DsmlGap)
    (p : DsmlParam) (rest : Text) :
    ∃ s', Runs (turn cx) s (g.text ++ (p.text ++ rest))
        ((lead s ++ p.fragment cx).map (.arg s.id)) s' rest ∧
      s'.mode = .invoke ∧ s'.id = s.id ∧ s'.argsStarted = true := by
  obtain ⟨s', hvalue, hs'⟩ := value_runs cx hmode p rest
  refine ⟨s', ?_, hs'⟩
  have htext : p.text ++ rest = p.tag ++ (p.value ++ (paramEndToken ++ rest)) := by
    rw [DsmlParam.text, List.append_assoc, List.append_assoc]
  rw [htext]
  obtain ⟨hpass, hact⟩ := runs_before_mark (turn_invoke cx (s := s) (.inl hmode))
    (invokeMarks_apart s) (invokeMarks_start s) List.mem_cons_self (g.clear (invokeMarks_dsml s))
    (p.opens (p.value ++ (paramEndToken ++ rest)))
  unfold Mark.tag at hact
  dsimp only at hact
  rw [p.search, Option.map_some] at hact
  rw [flatMap_silent] at hpass
  have hrun := (hpass.trans (.single hact)).trans hvalue
  rw [List.nil_append] at hrun
  convert hrun using 1
  have hskip : s.mode ≠ .invokeSkip := by
    rw [hmode]
    decide
  unfold openedParam
  rw [if_neg hskip]
  dsimp only
  by_cases hstr : p.isStr = some true
  · simp only [if_pos hstr, DsmlParam.fragment, DsmlParam.json, ToolContext.dumps, Json.dumps,
      Json.quote, ← List.map_append]
    simp
  · simp only [if_neg hstr, DsmlParam.fragment, List.nil_append, List.append_assoc]

/-- The parameters as they are streamed, after what leads the first one. -/
def joined (cx : ToolContext) : Text → List (DsmlGap × DsmlParam) → Text
  | _, [] => []
  | lead, p :: ps => lead ++ p.2.fragment cx ++ joined cx [','] ps

theorem joined_eq (cx : ToolContext) (lead : Text) {ps : List (DsmlGap × DsmlParam)} (h : ps ≠ []) :
    joined cx lead ps = lead ++ Json.joinMembers [','] [':']
      (ps.map fun p => (p.2.name, cx.dumps p.2.json)) := by
  induction ps generalizing lead with
  | nil => exact absurd rfl h
  | cons p ps ih =>
      rw [joined, List.append_assoc]
      cases ps with
      | nil => simp [joined, Json.joinMembers, DsmlParam.fragment]
      | cons q ps =>
          rw [ih [','] (List.cons_ne_nil _ _)]
          simp [Json.joinMembers, DsmlParam.fragment]

theorem params_runs (cx : ToolContext) {s : State} (hmode : s.mode = .invoke)
    (ps : List (DsmlGap × DsmlParam)) (rest : Text) :
    ∃ s', Runs (turn cx) s (paramsText ps ++ rest) ((joined cx (lead s) ps).map (.arg s.id)) s' rest ∧
      s'.mode = .invoke ∧ s'.id = s.id ∧
      s'.argsStarted = (s.argsStarted || decide (ps ≠ [])) := by
  induction ps generalizing s with
  | nil => exact ⟨s, .refl _ _, hmode, rfl, by simp⟩
  | cons p ps ih =>
      obtain ⟨s₁, hrun, hmode₁, hid₁, hargs₁⟩ := param_runs cx hmode p.1 p.2
        (paramsText ps ++ rest)
      obtain ⟨s', hrest, hmode', hid', hargs'⟩ := ih hmode₁
      refine ⟨s', ?_, hmode', hid'.trans hid₁, by simp [hargs', hargs₁]⟩
      have hlead : lead s₁ = [','] := by
        unfold lead
        rw [if_pos hargs₁]
      rw [hlead, hid₁] at hrest
      have hall := hrun.trans hrest
      rw [← List.map_append] at hall
      have htext : paramsText (p :: ps) ++ rest =
          p.1.text ++ (p.2.text ++ (paramsText ps ++ rest)) := by
        rw [paramsText, List.flatMap_cons, List.append_assoc, List.append_assoc]
        rfl
      rw [htext]
      exact hall

/-- The end of a call, after the last gap. -/
theorem close_runs (cx : ToolContext) {s : State} (hmode : s.mode = .invoke ∨ s.mode = .invokeSkip)
    (g : DsmlGap) (rest : Text) :
    Runs (turn cx) s (g.text ++ (invokeEndToken ++ rest)) (closedInvoke s).2 (closedInvoke s).1
      rest := by
  obtain ⟨hpass, hact⟩ := runs_before_mark (turn_invoke cx hmode) (invokeMarks_apart s)
    (invokeMarks_start s) (List.mem_cons_of_mem _ List.mem_cons_self) (g.clear (invokeMarks_dsml s))
    (t := invokeEndToken ++ rest) (List.prefix_append _ _)
  unfold Mark.pass at hact
  dsimp only at hact
  rw [List.drop_left] at hact
  rw [flatMap_silent] at hpass
  exact hpass.trans (.single hact)

/-- The parameters of a call that is not passed on. -/
theorem params_skip (cx : ToolContext) {s : State} (hmode : s.mode = .invokeSkip)
    (ps : List (DsmlGap × DsmlParam)) (rest : Text) :
    Runs (turn cx) s (paramsText ps ++ rest) [] s rest := by
  induction ps with
  | nil => exact .refl _ _
  | cons p ps ih =>
      have htext : paramsText (p :: ps) ++ rest = p.1.text ++ (p.2.tag ++ (p.2.value ++
          (paramEndToken ++ (paramsText ps ++ rest)))) := by
        rw [paramsText, List.flatMap_cons, DsmlParam.text]
        simp only [List.append_assoc]
        rfl
      obtain ⟨hpass, hact⟩ := runs_before_mark (turn_invoke cx (s := s) (.inr hmode))
        (invokeMarks_apart s) (invokeMarks_start s) List.mem_cons_self
        (p.1.clear (invokeMarks_dsml s))
        (p.2.opens (p.2.value ++ (paramEndToken ++ (paramsText ps ++ rest))))
      unfold Mark.tag at hact
      dsimp only at hact
      rw [p.2.search, Option.map_some] at hact
      unfold openedParam at hact
      rw [if_pos hmode] at hact
      rw [flatMap_silent] at hpass
      have hvalue : turn cx { s with mode := .pskip }
          (p.2.value ++ (paramEndToken ++ (paramsText ps ++ rest))) =
          some (s, paramsText ps ++ rest, []) := by
        have hstart : StartsOnly '<' paramEndToken := ⟨_, rfl, by decide⟩
        unfold turn
        dsimp only
        rw [hstart.find_append (p.2.valueClear paramEndToken (by simp)), Option.map_some,
          List.take_left, ← List.drop_drop, List.drop_left, List.drop_left]
        have hbuf : ¬ DsMode.pskip = DsMode.pbuf := by decide
        unfold closedValue
        rw [if_neg hbuf, ← hmode]
      rw [htext]
      exact ((hpass.trans (.single hact)).trans (.single hvalue)).trans ih

/-- The calls of an invoke that are passed on. -/
def DsmlInvoke.calls (cx : ToolContext) (i : DsmlInvoke) : List (Text × Text) :=
  if cx.accepts i.name then [(i.name, i.arguments cx)] else []

theorem DsmlInvoke.opens (i : DsmlInvoke) (t : Text) : invokeStartPrefix <+: i.tag ++ t := by
  obtain ⟨ws, ws', -, -, -, -, -, htag⟩ := i.isTag
  rw [htag, List.append_assoc]
  exact List.prefix_append _ _

theorem DsmlInvoke.tag_ne_nil (i : DsmlInvoke) : i.tag ≠ [] := by
  have hlen := (i.opens []).length_le
  rw [List.append_nil] at hlen
  exact List.ne_nil_of_length_pos (Nat.lt_of_lt_of_le (by decide) hlen)

theorem DsmlInvoke.search (i : DsmlInvoke) (t : Text) :
    Pattern.search (nameTag invokeStartPrefix) (i.tag ++ t) = some (i.name, t) :=
  search_match i.tag_ne_nil (nameTag_eq_some.2 ⟨i.tag, i.isTag, rfl⟩)

theorem invoke_runs (cx : ToolContext) {s : State} (hmode : s.mode = .block) (g : DsmlGap)
    (i : DsmlInvoke) (rest : Text) :
    ∃ s' o, Runs (turn cx) s (g.text ++ (i.text ++ rest)) o s' rest ∧ s'.mode = .block ∧
      s'.id = s.id + (i.calls cx).length ∧ Carries o s.id (i.calls cx) := by
  have htext : i.text ++ rest =
      i.tag ++ (paramsText i.params ++ (i.last.text ++ (invokeEndToken ++ rest))) := by
    rw [DsmlInvoke.text, DsmlInvoke.body]
    simp only [List.append_assoc]
  obtain ⟨hpass, hact⟩ := runs_before_mark (turn_block cx hmode) (blockMarks_apart cx s)
    (blockMarks_start cx s) List.mem_cons_self (g.clear (blockMarks_dsml cx s))
    (i.opens (paramsText i.params ++ (i.last.text ++ (invokeEndToken ++ rest))))
  unfold Mark.tag at hact
  dsimp only at hact
  rw [i.search, Option.map_some] at hact
  rw [flatMap_silent] at hpass
  rw [htext]
  unfold openedInvoke at hact
  unfold DsmlInvoke.calls
  by_cases hacc : cx.accepts i.name = true
  · rw [if_pos hacc] at hact ⊢
    obtain ⟨s₁, hparams, hmode₁, hid₁, hargs₁⟩ := params_runs cx
      (s := { s with mode := .invoke, argsStarted := false }) rfl i.params
      (i.last.text ++ (invokeEndToken ++ rest))
    have hclose := close_runs cx (.inl hmode₁) i.last rest
    have hall := ((hpass.trans (.single hact)).trans hparams).trans hclose
    refine ⟨_, _, hall, ?_, ?_, ?_⟩
    · unfold closedInvoke
      rw [if_pos hmode₁]
    · unfold closedInvoke
      rw [if_pos hmode₁]
      exact congrArg (· + 1) hid₁
    · have hevents : (joined cx (lead { s with mode := .invoke, argsStarted := false }) i.params).map
          (ToolEvent.arg s.id) ++ (closedInvoke s₁).2 =
          (i.arguments cx).map (ToolEvent.arg s.id) := by
        unfold closedInvoke
        rw [if_pos hmode₁]
        have hid : s₁.id = s.id := hid₁
        rw [hid, hargs₁, ← List.map_append, DsmlInvoke.arguments, DsmlInvoke.members, List.map_map]
        by_cases hnil : i.params = []
        · rw [hnil]
          rfl
        · rw [joined_eq cx _ hnil]
          simp [hnil, lead]
          rfl
      have hcall := carries_call s.id i.name (i.arguments cx)
      rw [← hevents] at hcall
      simpa using hcall
  · rw [if_neg hacc] at hact ⊢
    have hskip := params_skip cx (s := { s with mode := .invokeSkip }) rfl i.params
      (i.last.text ++ (invokeEndToken ++ rest))
    have hclose := close_runs cx (s := { s with mode := .invokeSkip }) (.inr rfl) i.last rest
    exact ⟨_, _, ((hpass.trans (.single hact)).trans hskip).trans hclose, rfl, rfl, carries_nil _⟩

def callsOf (cx : ToolContext) (is : List DsmlInvoke) : List (Text × Text) :=
  is.flatMap (DsmlInvoke.calls cx)

theorem invokes_runs (cx : ToolContext) {s : State} (hmode : s.mode = .block)
    (is : List (DsmlGap × DsmlInvoke)) (rest : Text) :
    ∃ s' o, Runs (turn cx) s (invokesText is ++ rest) o s' rest ∧ s'.mode = .block ∧
      s'.id = s.id + (callsOf cx (is.map Prod.snd)).length ∧
      Carries o s.id (callsOf cx (is.map Prod.snd)) := by
  induction is generalizing s with
  | nil => exact ⟨s, [], .refl _ _, hmode, rfl, carries_nil _⟩
  | cons i is ih =>
      obtain ⟨s₁, o₁, hrun₁, hmode₁, hid₁, hcarry₁⟩ := invoke_runs cx hmode i.1 i.2
        (invokesText is ++ rest)
      obtain ⟨s', o', hrun', hmode', hid', hcarry'⟩ := ih hmode₁
      have htext : invokesText (i :: is) ++ rest =
          i.1.text ++ (i.2.text ++ (invokesText is ++ rest)) := by
        rw [invokesText, List.flatMap_cons, List.append_assoc, List.append_assoc]
        rfl
      have hcalls : callsOf cx ((i :: is).map Prod.snd) =
          i.2.calls cx ++ callsOf cx (is.map Prod.snd) := by
        rw [callsOf, List.map_cons, List.flatMap_cons]
        rfl
      rw [htext, hcalls]
      rw [hid₁] at hcarry'
      refine ⟨s', o₁ ++ o', hrun₁.trans hrun', hmode', ?_, hcarry₁.append hcarry'⟩
      rw [hid', hid₁, List.length_append, Nat.add_assoc]

theorem block_runs (cx : ToolContext) {s : State} (hmode : s.mode = .idle) (g : DsmlGap)
    (b : DsmlBlock) (rest : Text) :
    ∃ s' o, Runs (turn cx) s (g.text ++ (b.text ++ rest)) o s' rest ∧ s'.mode = .idle ∧
      s'.id = s.id + (callsOf cx (b.invokes.map Prod.snd)).length ∧
      Carries o s.id (callsOf cx (b.invokes.map Prod.snd)) := by
  have htext : b.text ++ rest =
      b.opener ++ (invokesText b.invokes ++ (b.last.text ++ (b.closer ++ rest))) := by
    rw [DsmlBlock.text]
    simp only [List.append_assoc]
  have hopen : Mark.pass b.opener { s with mode := .block } [] ∈ idleMarks s := by
    have h := b.opens
    simp only [List.mem_cons, List.not_mem_nil, or_false] at h
    rcases h with h | h <;> rw [h] <;> simp [idleMarks]
  obtain ⟨hpass, hact⟩ := runs_before_mark (turn_idle cx hmode) (idleMarks_apart s)
    (idleMarks_start s) hopen (g.clear (idleMarks_dsml s))
    (t := b.opener ++ (invokesText b.invokes ++ (b.last.text ++ (b.closer ++ rest))))
    (List.prefix_append _ _)
  obtain ⟨s₁, o₁, hrun₁, hmode₁, hid₁, hcarry₁⟩ := invokes_runs cx
    (s := { s with mode := .block }) rfl b.invokes (b.last.text ++ (b.closer ++ rest))
  have hclose : Mark.pass b.closer { s₁ with mode := .idle } [] ∈ blockMarks cx s₁ := by
    have h := b.closes
    simp only [List.mem_cons, List.not_mem_nil, or_false] at h
    rcases h with h | h <;> rw [h] <;> simp [blockMarks]
  obtain ⟨hpass', hact'⟩ := runs_before_mark (turn_block cx hmode₁) (blockMarks_apart cx s₁)
    (blockMarks_start cx s₁) hclose (b.last.clear (blockMarks_dsml cx s₁))
    (t := b.closer ++ rest) (List.prefix_append _ _)
  unfold Mark.pass at hact hact'
  dsimp only at hact hact'
  rw [List.drop_left] at hact hact'
  rw [flatMap_silent] at hpass'
  rw [htext]
  refine ⟨_, _, (((hpass.trans (.single hact)).trans hrun₁).trans hpass').trans (.single hact'), rfl,
    hid₁, ?_⟩
  rw [List.append_nil, List.append_nil, List.append_nil]
  have hcarry := (carries_text g.text s.id).append hcarry₁
  rwa [List.nil_append] at hcarry

theorem blocks_runs (cx : ToolContext) {s : State} (hmode : s.mode = .idle)
    (bs : List (DsmlGap × DsmlBlock)) (rest : Text) :
    ∃ s' o, Runs (turn cx) s (blocksText bs ++ rest) o s' rest ∧ s'.mode = .idle ∧
      Carries o s.id (callsOf cx (bs.flatMap fun b => b.2.invokes.map Prod.snd)) := by
  induction bs generalizing s with
  | nil => exact ⟨s, [], .refl _ _, hmode, carries_nil _⟩
  | cons b bs ih =>
      obtain ⟨s₁, o₁, hrun₁, hmode₁, hid₁, hcarry₁⟩ := block_runs cx hmode b.1 b.2
        (blocksText bs ++ rest)
      obtain ⟨s', o', hrun', hmode', hcarry'⟩ := ih hmode₁
      have htext : blocksText (b :: bs) ++ rest =
          b.1.text ++ (b.2.text ++ (blocksText bs ++ rest)) := by
        rw [blocksText, List.flatMap_cons, List.append_assoc, List.append_assoc]
        rfl
      rw [htext, List.flatMap_cons, callsOf, List.flatMap_append]
      rw [hid₁] at hcarry'
      exact ⟨s', o₁ ++ o', hrun₁.trans hrun', hmode', hcarry₁.append hcarry'⟩

/-- The calls of the stream of a well-formed text. -/
theorem text_settles (cx : ToolContext) (t : DsmlText) :
    ∃ o s b, Settles (turn cx) init.state t.text o s b ∧ Carries o 0 (callsOf cx t.invokes) := by
  obtain ⟨s, o, hrun, hmode, hcarry⟩ := blocks_runs cx (s := init.state) rfl t.blocks
    t.last.text
  have hnone := t.last.clear (idleMarks_dsml s)
  have hfind : ∀ tok ∈ [botToken, altBotToken], find tok t.last.text = none := by
    intro tok htok
    obtain ⟨m, hm, rfl⟩ := mem_idleMarks (s := s) htok
    exact hnone m hm
  obtain ⟨-, hheld⟩ := idle_held (s := s) hfind
  have hpass := hheld.runs (turn_idle cx hmode) le_rfl
  have hquiet := hheld.quiet (turn_idle cx hmode) (idleMarks_apart s) (idleMarks_start s)
    (by simp [idleMarks]) hnone
  generalize max (endsWithPartialToken t.last.text botToken)
    (endsWithPartialToken t.last.text altBotToken) = hold at hpass hquiet
  have hall := hcarry.append (carries_text (t.last.text.take (t.last.text.length - hold)) _)
  rw [List.append_nil] at hall
  exact ⟨_, s, _, ⟨hrun.trans hpass, hquiet⟩, hall⟩

/-! ## The calls of the whole text -/

theorem paramOpen_start : StartsOnly '<' paramOpenToken := ⟨_, rfl, by decide⟩

theorem invokeStart_start : StartsOnly '<' invokeStartPrefix := ⟨_, rfl, by decide⟩

theorem invokeEnd_start : StartsOnly '<' invokeEndToken := ⟨_, rfl, by decide⟩

theorem paramEnd_start : StartsOnly '<' paramEndToken := ⟨_, rfl, by decide⟩

/-- A tag is read where its opener stands only. -/
theorem nameTag_none {opener t : Text} (h : ¬ opener <+: t) : nameTag opener t = none := by
  cases hm : nameTag opener t with
  | none => rfl
  | some p =>
      obtain ⟨w, ⟨ws, ws', -, -, -, -, -, rfl⟩, rfl⟩ := nameTag_eq_some.1 hm
      rw [List.append_assoc] at h
      exact absurd (List.prefix_append _ _) h

theorem paramTag_none {opener t : Text} (h : ¬ opener <+: t) : paramTag opener t = none := by
  cases hm : paramTag opener t with
  | none => rfl
  | some p =>
      obtain ⟨w, ⟨ws, ws', ws'', -, -, -, -, -, -, -, rfl⟩, rfl⟩ := paramTag_eq_some.1 hm
      rw [List.append_assoc] at h
      exact absurd (List.prefix_append _ _) h

/-- Text without the opener of a call holds no call. -/
theorem findAll_invoke_skip {x y : Text} (h : find invokeStartPrefix x = none) (hy : Begins '<' y) :
    findAll invokeRegex (x ++ y) = findAll invokeRegex y :=
  findAll_skip fun i hi => enclosed_none (nameTag_none (invokeStart_start.not_occursAt h hy i hi))

theorem findAll_param_skip {x y : Text} (h : find paramOpenToken x = none) (hy : Begins '<' y) :
    findAll paramRegex (x ++ y) = findAll paramRegex y :=
  findAll_skip fun i hi => enclosed_none (paramTag_none (paramOpen_start.not_occursAt h hy i hi))

theorem findAll_invoke_nil : findAll invokeRegex [] = [] := rfl

theorem findAll_param_nil : findAll paramRegex [] = [] := rfl

theorem DsmlParam.begins (p : DsmlParam) (t : Text) : Begins '<' (p.text ++ t) := by
  have h := p.opens (p.value ++ paramEndToken ++ t)
  rw [← List.append_assoc] at h
  obtain ⟨r, hr⟩ := h
  rw [DsmlParam.text, ← hr]
  exact begins_cons _ _

theorem DsmlInvoke.begins (i : DsmlInvoke) (t : Text) : Begins '<' (i.text ++ t) := by
  have h := i.opens (i.body ++ invokeEndToken ++ t)
  rw [← List.append_assoc] at h
  obtain ⟨r, hr⟩ := h
  rw [DsmlInvoke.text, ← hr]
  exact begins_cons _ _

/-- `param_regex.findall` of the body of a call. -/
theorem findAll_params (ps : List (DsmlGap × DsmlParam)) (g : DsmlGap) :
    findAll paramRegex (paramsText ps ++ g.text) =
      ps.map fun p => ((p.2.name, p.2.isStr), p.2.value) := by
  have hgap : ∀ g : DsmlGap, find paramOpenToken g.text = none := fun g =>
    find_none_of_infix g.plain (dsml_inside _ (by simp))
  induction ps with
  | nil =>
      have h := findAll_param_skip (hgap g) (begins_nil '<')
      rwa [List.append_nil, findAll_param_nil] at h
  | cons p ps ih =>
      have htext : paramsText (p :: ps) ++ g.text =
          p.1.text ++ (p.2.text ++ (paramsText ps ++ g.text)) := by
        rw [paramsText, List.flatMap_cons, List.append_assoc, List.append_assoc]
        rfl
      have hskip := findAll_param_skip (hgap p.1) (p.2.begins (paramsText ps ++ g.text))
      rw [htext, hskip, List.map_cons, ← ih]
      have hne : p.2.text ≠ [] := by
        rw [DsmlParam.text]
        simp [p.2.tag_ne_nil]
      refine findAll_match hne ?_
      have hopen : paramTag paramOpenToken (p.2.tag ++ (p.2.value ++ (paramEndToken ++
          (paramsText ps ++ g.text)))) = some ((p.2.name, p.2.isStr), p.2.value ++
            (paramEndToken ++ (paramsText ps ++ g.text))) :=
        paramTag_eq_some.2 ⟨p.2.tag, p.2.isTag, rfl⟩
      have hclose := paramEnd_start.find_append (p.2.valueClear paramEndToken (by simp))
        (paramsText ps ++ g.text)
      rw [DsmlParam.text, List.append_assoc, List.append_assoc]
      exact enclosed_eq hopen hclose

theorem blank_clean {ws : Text} (h : Blank ws) : '<' ∉ ws := by
  intro hmem
  exact absurd (h _ hmem) (by decide)

/-- No call closes in the tag of a parameter. -/
theorem find_invokeEnd_tag {g : Text × Option Bool} {w y : Text} (h : IsParamTag paramOpenToken g w)
    (hname : find invokeEndToken g.1 = none) (hy : find invokeEndToken y = none) :
    find invokeEndToken (w ++ y) = none := by
  obtain ⟨ws, ws', ws'', -, hws, -, -, hws', -, hws'', rfl⟩ := h
  simp only [List.append_assoc, List.cons_append, List.nil_append]
  refine invokeEnd_start.find_append_marker paramOpen_start (by decide) ?_
  rw [invokeEnd_start.find_append_clean (blank_clean hws),
    invokeEnd_start.find_append_clean (show '<' ∉ nameAttr by decide)]
  refine find_append_none hname ?_ (by decide)
  have hattr : '<' ∉ attrText g.2 := by
    rcases g.2 with _ | (_ | _) <;> decide
  rw [show ∀ t : Text, '"' :: t = ['"'] ++ t from fun _ => rfl,
    invokeEnd_start.find_append_clean (by decide),
    invokeEnd_start.find_append_clean (blank_clean hws'),
    invokeEnd_start.find_append_clean hattr, invokeEnd_start.find_append_clean (blank_clean hws''),
    show '>' :: y = ['>'] ++ y from rfl, invokeEnd_start.find_append_clean (by decide)]
  exact hy

/-- No call closes in the parameters of a call. -/
theorem find_invokeEnd_params (ps : List (DsmlGap × DsmlParam)) (g : DsmlGap) :
    find invokeEndToken (paramsText ps ++ g.text) = none := by
  have hgap : ∀ g : DsmlGap, find invokeEndToken g.text = none := fun g =>
    find_none_of_infix g.plain (dsml_inside _ (by simp))
  induction ps with
  | nil => exact hgap g
  | cons p ps ih =>
      have htext : paramsText (p :: ps) ++ g.text =
          p.1.text ++ (p.2.text ++ (paramsText ps ++ g.text)) := by
        rw [paramsText, List.flatMap_cons, List.append_assoc, List.append_assoc]
        rfl
      have hend : find invokeEndToken (paramEndToken ++ (paramsText ps ++ g.text)) = none :=
        invokeEnd_start.find_append_marker paramEnd_start (by decide) ih
      have hvalue : find invokeEndToken (p.2.value ++ (paramEndToken ++ (paramsText ps ++ g.text))) =
          none :=
        invokeEnd_start.find_append_begins (p.2.valueClear invokeEndToken (by simp)) hend
          (begins_cons _ _)
      rw [htext]
      refine invokeEnd_start.find_append_begins (hgap p.1) ?_ (p.2.begins _)
      rw [DsmlParam.text, List.append_assoc, List.append_assoc]
      exact find_invokeEnd_tag p.2.isTag p.2.nameClear hvalue

/-- `invoke_regex.findall` between two calls, or at the end of a block. -/
theorem findAll_invokes (is : List (DsmlGap × DsmlInvoke)) (rest : Text) :
    findAll invokeRegex (invokesText is ++ rest) =
      (is.map fun i => (i.2.name, i.2.body)) ++ findAll invokeRegex rest := by
  induction is with
  | nil => rfl
  | cons i is ih =>
      have htext : invokesText (i :: is) ++ rest =
          i.1.text ++ (i.2.text ++ (invokesText is ++ rest)) := by
        rw [invokesText, List.flatMap_cons, List.append_assoc, List.append_assoc]
        rfl
      have hgap : find invokeStartPrefix i.1.text = none :=
        find_none_of_infix i.1.plain (dsml_inside _ (by simp))
      rw [htext, findAll_invoke_skip hgap (i.2.begins _), List.map_cons, List.cons_append, ← ih]
      have hne : i.2.text ≠ [] := by
        rw [DsmlInvoke.text]
        simp [i.2.tag_ne_nil]
      refine findAll_match hne ?_
      have hopen : nameTag invokeStartPrefix (i.2.tag ++ (i.2.body ++ (invokeEndToken ++
          (invokesText is ++ rest)))) = some (i.2.name, i.2.body ++ (invokeEndToken ++
            (invokesText is ++ rest))) :=
        nameTag_eq_some.2 ⟨i.2.tag, i.2.isTag, rfl⟩
      have hclose := invokeEnd_start.find_append (find_invokeEnd_params i.2.params i.2.last)
        (invokesText is ++ rest)
      rw [DsmlInvoke.text, List.append_assoc, List.append_assoc]
      exact enclosed_eq hopen hclose

/-- No call begins in the tokens around blocks. -/
theorem findAll_invoke_token {tok : Text} (h : tok ∈ [botToken, altBotToken, eotToken, altEotToken])
    (y : Text) : Begins '<' (tok ++ y) ∧
      findAll invokeRegex (tok ++ y) = findAll invokeRegex y := by
  have htok : StartsOnly '<' tok ∧ ¬ (invokeStartPrefix <+: tok ∨ tok <+: invokeStartPrefix) := by
    simp only [List.mem_cons, List.not_mem_nil, or_false] at h
    rcases h with rfl | rfl | rfl | rfl <;> exact ⟨⟨_, rfl, by decide⟩, by decide⟩
  refine ⟨?_, findAll_skip fun i hi => enclosed_none (nameTag_none
    (invokeStart_start.not_occursAt_marker htok.1 htok.2 y i hi))⟩
  obtain ⟨body, rfl, -⟩ := htok.1
  exact begins_cons _ _

/-- `invoke_regex.findall` of a well-formed text. -/
theorem findAll_blocks (bs : List (DsmlGap × DsmlBlock)) (g : DsmlGap) :
    findAll invokeRegex (blocksText bs ++ g.text) =
      (bs.flatMap fun b => b.2.invokes.map Prod.snd).map fun i => (i.name, i.body) := by
  have hgap : ∀ g : DsmlGap, find invokeStartPrefix g.text = none := fun g =>
    find_none_of_infix g.plain (dsml_inside _ (by simp))
  induction bs with
  | nil =>
      have h := findAll_invoke_skip (hgap g) (begins_nil '<')
      rwa [List.append_nil, findAll_invoke_nil] at h
  | cons b bs ih =>
      have htext : blocksText (b :: bs) ++ g.text = b.1.text ++ (b.2.opener ++
          (invokesText b.2.invokes ++ (b.2.last.text ++ (b.2.closer ++
            (blocksText bs ++ g.text))))) := by
        rw [blocksText, List.flatMap_cons, DsmlBlock.text]
        simp only [List.append_assoc]
        rfl
      have hopens : b.2.opener ∈ [botToken, altBotToken, eotToken, altEotToken] := by
        have h := b.2.opens
        simp only [List.mem_cons, List.not_mem_nil, or_false] at h ⊢
        exact h.imp_right .inl
      have hcloses : b.2.closer ∈ [botToken, altBotToken, eotToken, altEotToken] := by
        have h := b.2.closes
        simp only [List.mem_cons, List.not_mem_nil, or_false] at h ⊢
        exact .inr (.inr h)
      obtain ⟨hbegins, hopener⟩ := findAll_invoke_token hopens (invokesText b.2.invokes ++
        (b.2.last.text ++ (b.2.closer ++ (blocksText bs ++ g.text))))
      obtain ⟨hbegins', hcloser⟩ := findAll_invoke_token hcloses (blocksText bs ++ g.text)
      rw [htext, findAll_invoke_skip (hgap b.1) hbegins, hopener, findAll_invokes,
        findAll_invoke_skip (hgap b.2.last) hbegins', hcloser, ih, List.flatMap_cons,
        List.map_append, List.map_map]
      rfl

/-- The calls of the two ways of reading agree. -/
theorem foldl_calls (cx : ToolContext) (is : List DsmlInvoke) (calls : List ToolCallItem) :
    ((is.map fun i => (i.name, i.body)).foldl (fun calls m =>
      if cx.accepts m.1 then
        calls ++ [⟨(cx.toolIndex m.1).getD calls.length, some m.1,
          dsmlParamsToJson cx (findAll paramRegex m.2)⟩]
      else calls) calls).map (fun item => (item.name, item.parameters)) =
      calls.map (fun item => (item.name, item.parameters)) ++
        (is.filter fun i => cx.accepts i.name).map fun i =>
          (some i.name, cx.dumps (.obj (Json.dict i.members))) := by
  induction is generalizing calls with
  | nil => simp
  | cons i is ih =>
      rw [List.map_cons, List.foldl_cons, ih]
      by_cases hacc : cx.accepts i.name = true
      · have hparams : dsmlParamsToJson cx (findAll paramRegex i.body) =
            cx.dumps (.obj (Json.dict i.members)) := by
          rw [dsmlParamsToJson, DsmlInvoke.body, findAll_params, DsmlInvoke.members, List.map_map]
          rfl
        rw [if_pos hacc, List.filter_cons, if_pos hacc, List.map_append, List.append_assoc,
          List.map_cons, hparams]
        rfl
      · rw [if_neg hacc, List.filter_cons, if_neg hacc]

theorem callsOf_eq (cx : ToolContext) (is : List DsmlInvoke) :
    callsOf cx is =
      (is.filter fun i => cx.accepts i.name).map fun i => (i.name, i.arguments cx) := by
  induction is with
  | nil => rfl
  | cons i is ih =>
      rw [callsOf, List.flatMap_cons]
      have hrest : is.flatMap (DsmlInvoke.calls cx) = callsOf cx is := rfl
      rw [hrest, ih, DsmlInvoke.calls]
      by_cases hacc : cx.accepts i.name = true
      · rw [if_pos hacc, List.filter_cons, if_pos hacc]
        rfl
      · rw [if_neg hacc, List.filter_cons, if_neg hacc]
        rfl

/-- The streamed arguments and those of `_dsml_params_to_json` are one object. -/
theorem loads_arguments (cx : ToolContext) (i : DsmlInvoke) :
    ∃ ms, Json.loads (i.arguments cx) = some (.obj ms) ∧
      Json.loads (cx.dumps (.obj (Json.dict i.members))) = some (.obj ms) :=
  ⟨_, Json.loads_joinMembers cx.numbers.literal i.members,
    Json.loads_dumps_dict cx.numbers.literal i.members⟩

/-- A block stands in a text with calls. -/
theorem detectAndParse_calls (cx : ToolContext) (t : DsmlText) :
    ((detectAndParse cx t.text).calls).map (fun item => (item.name, item.parameters)) =
      (t.invokes.filter fun i => cx.accepts i.name).map fun i =>
        (some i.name, cx.dumps (.obj (Json.dict i.members))) := by
  have hfind : findAll invokeRegex t.text = t.invokes.map fun i => (i.name, i.body) :=
    findAll_blocks t.blocks t.last
  unfold detectAndParse
  split
  · rename_i hnone
    have hblocks : t.blocks = [] := by
      cases hbs : t.blocks with
      | nil => rfl
      | cons b bs =>
          exfalso
          have hocc := find_eq_none.1 (firstExistingPos_eq_none.1 hnone b.2.opener b.2.opens)
            b.1.text.length
          refine hocc ?_
          unfold OccursAt
          rw [DsmlText.text, hbs, blocksText, List.flatMap_cons, List.append_assoc,
            List.append_assoc, List.drop_left, DsmlBlock.text, List.append_assoc]
          exact List.prefix_append _ _
    rw [DsmlText.invokes, hblocks]
    rfl
  · have hfold := foldl_calls cx t.invokes []
    rw [← hfind] at hfold
    exact hfold

/-- Streamed in any chunks, a well-formed text gives the calls `detect_and_parse` gives. -/
theorem agrees_of_noStray {cx : ToolContext} {t : DsmlText} (h : NoStrayCloser cx t.text)
    {chunks : List Text} (hchunks : chunks.flatten = t.text) :
    ∃ o, stream cx chunks = .ok o ∧ Agrees o (detectAndParse cx t.text) := by
  obtain ⟨o, s, b, hset, hcarry⟩ := text_settles cx t
  rw [← hchunks] at h hset
  refine ⟨_, stream_eq h hset, ?_⟩
  refine hcarry.agrees ?_ ?_
  · have hcalls := congrArg (List.map fun p : Option Text × Text => (p.1, Json.loads p.2))
      (detectAndParse_calls cx t)
    rw [List.map_map, List.map_map] at hcalls
    rw [callsOf_eq, List.map_map]
    refine hcalls.trans (List.map_congr_left fun i _ => ?_)
    obtain ⟨ms, hstream, hwhole⟩ := loads_arguments cx i
    simp only [Function.comp_apply, hstream, hwhole]
  · intro c hc
    rw [callsOf_eq] at hc
    obtain ⟨i, -, rfl⟩ := List.mem_map.1 hc
    obtain ⟨ms, hstream, -⟩ := loads_arguments cx i
    exact ⟨ms, hstream⟩

/-- The stream of a text does not depend on the chunks, and gives the calls of well-formed blocks
as `detect_and_parse` does. -/
structure StreamsAsWhole (cx : ToolContext) (text : Text) : Prop where
  chunks : ChunkInvariant cx text
  calls : ∀ t : DsmlText, t.text = text → ∀ chunks : List Text, chunks.flatten = text →
    ∃ o, stream cx chunks = .ok o ∧ Agrees o (detectAndParse cx text)

theorem streamsAsWhole_iff (cx : ToolContext) (text : Text) :
    StreamsAsWhole cx text ↔ NoStrayCloser cx text := by
  constructor
  · exact fun h => chunkInvariant_iff.1 h.chunks
  · intro h
    refine ⟨chunkInvariant_iff.2 h, ?_⟩
    rintro t rfl chunks hchunks
    exact agrees_of_noStray h hchunks

/-- A closing token after plain text, whole and cut. -/
theorem not_streamsAsWhole :
    ¬ StreamsAsWhole ⟨[], false, .keep⟩ "ok</｜DSML｜invoke>".toList := by
  intro h
  have hcut := congrArg (fun r => r.toOption.map StreamOutcome.normalText)
    (h.chunks ["ok</".toList, "｜DSML｜invoke>".toList] (by decide))
  exact absurd hcut (by decide)

end DeepSeekV32Detector

end FreeToken
