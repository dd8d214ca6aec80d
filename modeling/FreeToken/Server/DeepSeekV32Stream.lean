import FreeToken.Server.DeepSeekV32

/-!
# DSML streaming and the chunks of the text

A reader that looks at one position of the text at a time says what a completion means.  The detector
gives the events of the reader as long as no closing token stands in the text between blocks.
-/

set_option autoImplicit false

namespace FreeToken

open Search Text Pattern Transducer

namespace DeepSeekV32Detector

/-- What the detector knows besides its buffer and its ledgers. -/
structure State where
  mode : DsMode
  id : Nat
  argsStarted : Bool
  paramName : Text
  paramLead : Text
  deriving DecidableEq, Repr

def state (d : DeepSeekV32Detector) : State where
  mode := d.dsMode
  id := d.ledger.toolId
  argsStarted := d.argsStarted
  paramName := d.paramName
  paramLead := d.paramLead

abbrev DsMark := Mark Char State ToolEvent

def idleMarks (s : State) : List DsMark :=
  [.pass botToken { s with mode := .block } [], .pass altBotToken { s with mode := .block } []]

/-- The state after an opening tag, and its event. -/
def openedInvoke (cx : ToolContext) (s : State) (name : Text) : State × List ToolEvent :=
  if cx.accepts name then ({ s with mode := .invoke, argsStarted := false }, [.name s.id name])
  else ({ s with mode := .invokeSkip }, [])

def blockMarks (cx : ToolContext) (s : State) : List DsMark :=
  [.tag invokeStartPrefix (nameTag invokeStartPrefix) (openedInvoke cx s),
    .pass eotToken { s with mode := .idle } [], .pass altEotToken { s with mode := .idle } []]

def lead (s : State) : Text := if s.argsStarted then [','] else ['{']

/-- The state after the tag of a parameter, and its events. -/
def openedParam (s : State) (tag : Text × Option Bool) : State × List ToolEvent :=
  if s.mode = .invokeSkip then ({ s with mode := .pskip }, [])
  else if tag.2 = some true then
    ({ s with mode := .pstr, paramName := tag.1, argsStarted := true },
      (lead s ++ Json.quote tag.1 ++ [':', '"']).map (.arg s.id))
  else
    ({ s with mode := .pbuf, paramName := tag.1, argsStarted := true, paramLead := lead s }, [])

/-- The state after the end of a call, and its events. -/
def closedInvoke (s : State) : State × List ToolEvent :=
  if s.mode = .invoke then
    ({ s with mode := .block, id := s.id + 1 },
      (if s.argsStarted then ['}'] else ['{', '}']).map (.arg s.id))
  else ({ s with mode := .block }, [])

def invokeMarks (s : State) : List DsMark :=
  [.tag paramOpenToken (paramTag paramOpenToken) (openedParam s),
    .pass invokeEndToken (closedInvoke s).1 (closedInvoke s).2]

def pstrMarks (s : State) : List DsMark :=
  [.pass paramEndToken { s with mode := .invoke } [.arg s.id '"']]

/-- The state after a value that was held, and its events. -/
def closedValue (cx : ToolContext) (s : State) (value : Text) : State × List ToolEvent :=
  if s.mode = .pbuf then
    ({ s with mode := .invoke }, (s.paramLead ++ Json.quote s.paramName ++ [':'] ++
      cx.dumps (parsedValue value)).map (.arg s.id))
  else ({ s with mode := .invokeSkip }, [])

/-- One turn of the reader. -/
def turn (cx : ToolContext) (s : State) (b : Text) : Option (State × Text × List ToolEvent) :=
  match s.mode with
  | .idle => read (idleMarks s) (fun c t => some (s, t, [.text c])) b
  | .block => read (blockMarks cx s) (fun _ t => some (s, t, [])) b
  | .invoke | .invokeSkip => read (invokeMarks s) (fun _ t => some (s, t, [])) b
  | .pstr => read (pstrMarks s) (fun c t => some (s, t, (Json.escapeChar c).map (.arg s.id))) b
  | .pbuf | .pskip =>
      (find paramEndToken b).map fun stop =>
        ((closedValue cx s (b.take stop)).1, b.drop (stop + paramEndToken.length),
          (closedValue cx s (b.take stop)).2)

/-! ## The reader -/

theorem invokeOpen_tight : Tight (nameTag invokeStartPrefix) := nameTag_tight (by decide)

theorem paramOpen_tight : Tight (paramTag paramOpenToken) := paramTag_tight (by decide)

theorem idleMarks_apart (s : State) : Apart (idleMarks s) := by
  have h : ¬ Meets botToken altBotToken := by decide
  simp [Apart, idleMarks, Mark.pass, h]

theorem blockMarks_apart (cx : ToolContext) (s : State) : Apart (blockMarks cx s) := by
  have h₁ : ¬ Meets invokeStartPrefix eotToken := by decide
  have h₂ : ¬ Meets invokeStartPrefix altEotToken := by decide
  have h₃ : ¬ Meets eotToken altEotToken := by decide
  simp [Apart, blockMarks, Mark.pass, Mark.tag, h₁, h₂, h₃]

theorem invokeMarks_apart (s : State) : Apart (invokeMarks s) := by
  have h : ¬ Meets paramOpenToken invokeEndToken := by decide
  simp [Apart, invokeMarks, Mark.pass, Mark.tag, h]

theorem pstrMarks_apart (s : State) : Apart (pstrMarks s) := by
  simp [Apart, pstrMarks]

theorem idleMarks_steady (s : State) : ∀ m ∈ idleMarks s, m.Steady := by
  intro m hm
  simp only [idleMarks, List.mem_cons, List.not_mem_nil, or_false] at hm
  rcases hm with rfl | rfl
  · exact Mark.pass_steady (by decide) _ _
  · exact Mark.pass_steady (by decide) _ _

theorem blockMarks_steady (cx : ToolContext) (s : State) : ∀ m ∈ blockMarks cx s, m.Steady := by
  intro m hm
  simp only [blockMarks, List.mem_cons, List.not_mem_nil, or_false] at hm
  rcases hm with rfl | rfl | rfl
  · exact Mark.tag_steady invokeOpen_tight _ _
  · exact Mark.pass_steady (by decide) _ _
  · exact Mark.pass_steady (by decide) _ _

theorem invokeMarks_steady (s : State) : ∀ m ∈ invokeMarks s, m.Steady := by
  intro m hm
  simp only [invokeMarks, List.mem_cons, List.not_mem_nil, or_false] at hm
  rcases hm with rfl | rfl
  · exact Mark.tag_steady paramOpen_tight _ _
  · exact Mark.pass_steady (by decide) _ _

theorem pstrMarks_steady (s : State) : ∀ m ∈ pstrMarks s, m.Steady := by
  intro m hm
  simp only [pstrMarks, List.mem_cons, List.not_mem_nil, or_false] at hm
  subst hm
  exact Mark.pass_steady (by decide) _ _

/-- A turn is the turn of a marker reader, or reads a value that was held. -/
theorem turn_steady {cx : ToolContext} {s s' : State} {b b' : Text} {o : List ToolEvent}
    (h : turn cx s b = some (s', b', o)) :
    (∀ x, turn cx s (b ++ x) = some (s', b' ++ x, o)) ∧ Transducer.Takes b b' := by
  have hvalue : (find paramEndToken b).map (fun stop =>
        ((closedValue cx s (b.take stop)).1, b.drop (stop + paramEndToken.length),
          (closedValue cx s (b.take stop)).2)) = some (s', b', o) →
      (∀ x, (find paramEndToken (b ++ x)).map (fun stop =>
        ((closedValue cx s ((b ++ x).take stop)).1, (b ++ x).drop (stop + paramEndToken.length),
          (closedValue cx s ((b ++ x).take stop)).2)) = some (s', b' ++ x, o)) ∧ Transducer.Takes b b' := by
    intro h
    obtain ⟨stop, hfind, heq⟩ := Option.map_eq_some_iff.1 h
    have hle := find_le hfind (by decide)
    have hpos : 0 < paramEndToken.length := by decide
    cases heq
    refine ⟨fun x => ?_, b.take (stop + paramEndToken.length), ?_,
      (List.take_append_drop _ _).symm⟩
    · rw [find_append hfind (by decide) x, Option.map_some, List.take_append_of_le_length (by omega),
        List.drop_append_of_le_length hle]
    · rw [← List.length_pos_iff, List.length_take]
      omega
  unfold turn at h ⊢
  cases hmode : s.mode <;> rw [hmode] at h
  case idle =>
    refine ⟨fun x => read_append (idleMarks_apart s) (idleMarks_steady s) ?_ h x,
      read_takes (idleMarks_steady s) ?_ h⟩
    · rintro c t s' b' o ⟨⟩ x
      rfl
    · rintro c t s' b' o ⟨⟩
      exact List.suffix_refl t
  case block =>
    refine ⟨fun x => read_append (blockMarks_apart cx s) (blockMarks_steady cx s) ?_ h x,
      read_takes (blockMarks_steady cx s) ?_ h⟩
    · rintro c t s' b' o ⟨⟩ x
      rfl
    · rintro c t s' b' o ⟨⟩
      exact List.suffix_refl t
  case pstr =>
    refine ⟨fun x => read_append (pstrMarks_apart s) (pstrMarks_steady s) ?_ h x,
      read_takes (pstrMarks_steady s) ?_ h⟩
    · rintro c t s' b' o ⟨⟩ x
      rfl
    · rintro c t s' b' o ⟨⟩
      exact List.suffix_refl t
  case pbuf => exact hvalue h
  case pskip => exact hvalue h
  all_goals
    refine ⟨fun x => read_append (invokeMarks_apart s) (invokeMarks_steady s) ?_ h x,
      read_takes (invokeMarks_steady s) ?_ h⟩
    · rintro c t s' b' o ⟨⟩ x
      rfl
    · rintro c t s' b' o ⟨⟩
      exact List.suffix_refl t

theorem turn_extends (cx : ToolContext) : Extends (turn cx) := fun _ _ _ _ _ h =>
  (turn_steady h).1

/-! ## The rounds -/

/-- The tokens that are taken out of text between blocks. -/
def closers : List Text := [eotToken, altEotToken, invokeEndToken]

/-- No closing token stands where the reader is between blocks. -/
def NoStrayCloser (cx : ToolContext) (text : Text) : Prop :=
  ∀ o s b, Runs (turn cx) init.state text o s b → s.mode = .idle → ∀ tok ∈ closers, ¬ tok <+: b

theorem NoStrayCloser.of_append {cx : ToolContext} {text x : Text}
    (h : NoStrayCloser cx (text ++ x)) : NoStrayCloser cx text := by
  intro o s b hrun hmode tok htok hpre
  exact h o s (b ++ x) (hrun.append (turn_extends cx) x) hmode tok htok
    (hpre.trans (List.prefix_append _ _))

theorem removeAll_of_find {tok text : Text} (h : find tok text = none) :
    removeAll tok text = text := by
  unfold removeAll
  split
  · rfl
  · cases hn : text.length with
    | zero => rfl
    | succ n =>
        rw [remove, h]

theorem removeClosers_of_find {text : Text} (h : ∀ tok ∈ closers, find tok text = none) :
    removeClosers text = text := by
  unfold removeClosers
  rw [removeAll_of_find (h eotToken (by simp [closers])),
    removeAll_of_find (h altEotToken (by simp [closers])),
    removeAll_of_find (h invokeEndToken (by simp [closers]))]

theorem turn_idle (cx : ToolContext) {s : State} (h : s.mode = .idle) (b : Text) :
    turn cx s b = read (idleMarks s) (fun c t => some (s, t, [.text c])) b := by
  unfold turn
  rw [h]

theorem turn_block (cx : ToolContext) {s : State} (h : s.mode = .block) (b : Text) :
    turn cx s b = read (blockMarks cx s) (fun _ t => some (s, t, [])) b := by
  unfold turn
  rw [h]

theorem turn_invoke (cx : ToolContext) {s : State} (h : s.mode = .invoke ∨ s.mode = .invokeSkip)
    (b : Text) : turn cx s b = read (invokeMarks s) (fun _ t => some (s, t, [])) b := by
  unfold turn
  rcases h with h | h <;> rw [h]

theorem turn_pstr (cx : ToolContext) {s : State} (h : s.mode = .pstr) (b : Text) :
    turn cx s b =
      read (pstrMarks s) (fun c t => some (s, t, (Json.escapeChar c).map (.arg s.id))) b := by
  unfold turn
  rw [h]

theorem idleMarks_start (s : State) : ∀ m ∈ idleMarks s, StartsOnly '<' m.tok := by
  intro m hm
  simp only [idleMarks, List.mem_cons, List.not_mem_nil, or_false] at hm
  rcases hm with rfl | rfl <;> exact ⟨_, rfl, by decide⟩

theorem blockMarks_start (cx : ToolContext) (s : State) :
    ∀ m ∈ blockMarks cx s, StartsOnly '<' m.tok := by
  intro m hm
  simp only [blockMarks, List.mem_cons, List.not_mem_nil, or_false] at hm
  rcases hm with rfl | rfl | rfl <;> exact ⟨_, rfl, by decide⟩

theorem invokeMarks_start (s : State) : ∀ m ∈ invokeMarks s, StartsOnly '<' m.tok := by
  intro m hm
  simp only [invokeMarks, List.mem_cons, List.not_mem_nil, or_false] at hm
  rcases hm with rfl | rfl <;> exact ⟨_, rfl, by decide⟩

theorem pstrMarks_start (s : State) : ∀ m ∈ pstrMarks s, StartsOnly '<' m.tok := by
  intro m hm
  simp only [pstrMarks, List.mem_cons, List.not_mem_nil, or_false] at hm
  subst hm
  exact ⟨_, rfl, by decide⟩

/-- No state of this detector raises. -/
def noRaise (_ : State) : Prop := False

/-- Between blocks nothing is passed over silently. -/
def idleState (s : State) : Prop := s.mode = .idle

theorem quiet_of_none {cx : ToolContext} {s : State} {b : Text} (h : turn cx s b = none) :
    Quiet (turn cx) noRaise idleState s b := ⟨b, ⟨.refl s b, h⟩, id, fun _ => rfl⟩

/-- In a block, text that is passed over is dropped when a tag was read. -/
theorem quiet_of_pass {cx : ToolContext} {s : State} {b b' : Text} (hmode : s.mode ≠ .idle)
    (hpass : Runs (turn cx) s b [] s b') (h : turn cx s b' = none) :
    Quiet (turn cx) noRaise idleState s b :=
  ⟨b', ⟨hpass, h⟩, id, fun hidle => absurd hidle hmode⟩

/-- What a round did, as turns of the reader. -/
abbrev DsRoundOk (cx : ToolContext) (d : DeepSeekV32Detector) (calls goes : Bool)
    (d' : DeepSeekV32Detector) (out : StreamingParseResult) : Prop :=
  RoundOk (turn cx) noRaise idleState buffer size d d.state calls goes d' d'.state out

theorem mem_idleMarks {s : State} {tok : Text} (h : tok ∈ [botToken, altBotToken]) :
    ∃ m ∈ idleMarks s, m.tok = tok := by
  simp only [List.mem_cons, List.not_mem_nil, or_false] at h
  rcases h with rfl | rfl
  · exact ⟨_, List.mem_cons_self, rfl⟩
  · exact ⟨_, List.mem_cons_of_mem _ List.mem_cons_self, rfl⟩

/-- What idle text holds back. -/
theorem idle_held {s : State} {buf : Text}
    (hnone : ∀ tok ∈ [botToken, altBotToken], find tok buf = none) :
    (∀ m ∈ idleMarks s, find m.tok buf = none) ∧ Search.Held ((idleMarks s).map Mark.tok) buf
      (max (endsWithPartialToken buf botToken) (endsWithPartialToken buf altBotToken)) := by
  have hfind : ∀ m ∈ idleMarks s, find m.tok buf = none := by
    intro m hm
    simp only [idleMarks, List.mem_cons, List.not_mem_nil, or_false] at hm
    rcases hm with rfl | rfl
    · exact hnone _ (by simp [Mark.pass])
    · exact hnone _ (by simp [Mark.pass])
  refine ⟨hfind, held_of_marks (idleMarks_start s) hfind ?_ ?_⟩
  · intro m hm
    simp only [idleMarks, List.mem_cons, List.not_mem_nil, or_false] at hm
    rcases hm with rfl | rfl
    · exact le_max_left _ _
    · exact le_max_right _ _
  · right
    rcases max_choice (endsWithPartialToken buf botToken) (endsWithPartialToken buf altBotToken)
      with hmax | hmax
    · exact ⟨_, List.mem_cons_self, hmax⟩
    · exact ⟨_, List.mem_cons_of_mem _ List.mem_cons_self, hmax⟩

theorem idleRound_ok {cx : ToolContext} {d d' : DeepSeekV32Detector} {calls goes : Bool}
    {out : StreamingParseResult} {t : Text} {o : List ToolEvent} (hmode : d.dsMode = .idle)
    (hrun : Runs (turn cx) init.state t o d.state d.buffer) (hfine : NoStrayCloser cx t)
    (h : idleRound d calls = (goes, d', out)) : DsRoundOk cx d calls goes d' out := by
  have hturn := turn_idle cx (s := d.state) hmode
  have hapart := idleMarks_apart d.state
  have hstart := idleMarks_start d.state
  unfold idleRound at h
  dsimp only at h
  split at h
  · rename_i hcalls
    cases h
    exact ⟨.refl _ _, .inl rfl, by simp, by simp, fun _ => .inl hcalls⟩
  · rename_i hcalls
    have hcalls : calls = false := by simpa using hcalls
    split at h
    · rename_i hpos
      obtain ⟨hnone, hheld⟩ := idle_held (s := d.state) (firstExistingPos_eq_none.1 hpos)
      generalize max (endsWithPartialToken d.buffer botToken)
        (endsWithPartialToken d.buffer altBotToken) = hold at h hheld
      have hquiet := hheld.quiet hturn hapart hstart (by simp [idleMarks]) hnone
      have hpass := hheld.runs hturn (i := d.buffer.length - hold) le_rfl
      split at h
      · rename_i hrelease
        cases h
        have hdrop : d.buffer.drop (d.buffer.length - hold) = d.buffer := by
          conv_rhs => rw [← List.take_append_drop (d.buffer.length - hold) d.buffer, hrelease]
          rfl
        rw [hdrop] at hquiet
        exact ⟨.refl _ _, .inl rfl, by simp, by simp, fun _ => .inr (quiet_of_none hquiet)⟩
      · cases h
        have hclean : removeClosers (d.buffer.take (d.buffer.length - hold)) =
            d.buffer.take (d.buffer.length - hold) := by
          refine removeClosers_of_find fun tok htok => ?_
          -- a closing token would stand where the reader is between blocks
          cases hfind : find tok (d.buffer.take (d.buffer.length - hold)) with
          | none => rfl
          | some i =>
              exfalso
              have hocc := (find_eq_some.1 hfind).1
              have hne : tok ≠ [] := by
                simp only [closers, List.mem_cons, List.not_mem_nil, or_false] at htok
                rcases htok with rfl | rfl | rfl <;> decide
              have hle := hocc.le hne
              rw [List.length_take] at hle
              have hpass' := hheld.runs hturn (i := i) (by omega)
              refine hfine _ _ _ (hrun.trans hpass') hmode tok htok ?_
              have := hocc.append (d.buffer.drop (d.buffer.length - hold))
              rwa [List.take_append_drop] at this
        refine ⟨?_, .inr hcalls, by simp, by simp, fun _ => .inr (quiet_of_none hquiet)⟩
        rw [hclean, StreamingParseResult.events_text]
        exact hpass
    · rename_i pos hpos
      obtain ⟨⟨tok, htok, hocc⟩, hfirst⟩ := firstExistingPos_eq_some hpos
      obtain ⟨m, hm, rfl⟩ := mem_idleMarks (s := d.state) htok
      obtain ⟨hpass, hact⟩ := runs_to_mark hturn hapart hstart hm hocc (by
        intro m' hm'
        simp only [idleMarks, List.mem_cons, List.not_mem_nil, or_false] at hm'
        rcases hm' with rfl | rfl
        · exact hfirst _ (by simp [Mark.pass])
        · exact hfirst _ (by simp [Mark.pass]))
      split at h
      · rename_i hlt
        cases h
        have hle := hocc.le (hstart m hm).ne_nil
        refine ⟨?_, .inr hcalls, by simp, fun _ => ?_, by simp⟩
        · rw [StreamingParseResult.events_text]
          exact hpass
        · dsimp only [size]
          rw [List.length_drop]
          omega
      · rename_i hzero
        obtain rfl : pos = 0 := by omega
        rw [List.drop_zero] at hact
        rw [occursAt_zero] at hocc
        cases h
        have hopener : (if botToken <+: d.buffer then botToken else altBotToken) = m.tok := by
          simp only [idleMarks, List.mem_cons, List.not_mem_nil, or_false] at hm
          rcases hm with rfl | rfl
          · exact if_pos hocc
          · refine if_neg fun hpre => ?_
            have hnot : ¬ Meets botToken altBotToken := by decide
            exact hnot (meets_of_both hpre hocc)
        rw [hopener]
        have hturn' : turn cx d.state d.buffer = some ({ d.state with mode := .block },
            d.buffer.drop m.tok.length, []) := by
          rw [hact]
          simp only [idleMarks, List.mem_cons, List.not_mem_nil, or_false] at hm
          rcases hm with rfl | rfl <;> rfl
        have hlen := hocc.length_le
        have hpos := List.length_pos_iff.2 (hstart m hm).ne_nil
        refine ⟨.single hturn', .inl rfl, by simp, fun _ => ?_, by simp⟩
        dsimp only [size]
        rw [List.length_drop]
        omega

theorem flatMap_silent (t : Text) : (t.flatMap fun _ => ([] : List ToolEvent)) = [] := by
  rw [List.flatMap_eq_nil_iff]
  exact fun _ _ => rfl

/-- What stands between two tags holds back. -/
theorem block_held (cx : ToolContext) {s : State} {buf : Text}
    (hinv : find invokeStartPrefix buf = none)
    (hnone : ∀ tok ∈ [eotToken, altEotToken], find tok buf = none) :
    (∀ m ∈ blockMarks cx s, find m.tok buf = none) ∧ Search.Held ((blockMarks cx s).map Mark.tok) buf
      (max (endsWithPartialToken buf invokeStartPrefix)
        (max (endsWithPartialToken buf eotToken) (endsWithPartialToken buf altEotToken))) := by
  have hfind : ∀ m ∈ blockMarks cx s, find m.tok buf = none := by
    intro m hm
    simp only [blockMarks, List.mem_cons, List.not_mem_nil, or_false] at hm
    rcases hm with rfl | rfl | rfl
    · exact hinv
    · exact hnone _ (by simp)
    · exact hnone _ (by simp)
  refine ⟨hfind, held_of_marks (blockMarks_start cx s) hfind ?_ ?_⟩
  · intro m hm
    simp only [blockMarks, List.mem_cons, List.not_mem_nil, or_false] at hm
    rcases hm with rfl | rfl | rfl
    · exact le_max_left _ _
    · exact (le_max_left _ _).trans (le_max_right _ _)
    · exact (le_max_right _ _).trans (le_max_right _ _)
  · right
    rcases max_choice (endsWithPartialToken buf invokeStartPrefix)
      (max (endsWithPartialToken buf eotToken) (endsWithPartialToken buf altEotToken))
      with hmax | hmax
    · exact ⟨_, List.mem_cons_self, hmax⟩
    · rw [hmax]
      rcases max_choice (endsWithPartialToken buf eotToken) (endsWithPartialToken buf altEotToken)
        with hmax' | hmax'
      · exact ⟨_, List.mem_cons_of_mem _ List.mem_cons_self, hmax'⟩
      · exact ⟨_, List.mem_cons_of_mem _ (List.mem_cons_of_mem _ List.mem_cons_self), hmax'⟩

/-- The end of a block is read, or the beginning of a call. -/
theorem block_mark {cx : ToolContext} {s : State} {buf : Text} (hmode : s.mode = .block)
    {m : DsMark} (hm : m ∈ blockMarks cx s) {pos : Nat} (hocc : OccursAt m.tok buf pos)
    (hinv : ∀ j < pos, ¬ OccursAt invokeStartPrefix buf j)
    (hclose : ∀ tok ∈ [eotToken, altEotToken], ∀ j < pos, ¬ OccursAt tok buf j) :
    Runs (turn cx) s buf [] s (buf.drop pos) ∧ turn cx s (buf.drop pos) = m.act (buf.drop pos) := by
  obtain ⟨hpass, hact⟩ := runs_to_mark (turn_block _ hmode) (blockMarks_apart cx s)
    (blockMarks_start cx s) hm hocc (by
      intro m' hm'
      simp only [blockMarks, List.mem_cons, List.not_mem_nil, or_false] at hm'
      rcases hm' with rfl | rfl | rfl
      · exact hinv
      · exact hclose _ (by simp)
      · exact hclose _ (by simp))
  rw [flatMap_silent] at hpass
  exact ⟨hpass, hact⟩

theorem openInvoke_ok {cx : ToolContext} {d d' : DeepSeekV32Detector} {goes : Bool}
    {out : StreamingParseResult} {name rest : Text}
    (h : openInvoke cx d name rest = (goes, d', out)) :
    goes = true ∧ d'.state = (openedInvoke cx d.state name).1 ∧ d'.buffer = rest ∧
      out.normalText = [] ∧ (∀ item ∈ out.calls, item.events ≠ []) ∧
      out.events = (openedInvoke cx d.state name).2 := by
  unfold openInvoke at h
  unfold openedInvoke
  dsimp only at h
  split at h
  · rename_i hacc
    cases h
    rw [if_pos hacc]
    exact ⟨rfl, rfl, rfl, rfl, by simp [ToolCallItem.events], rfl⟩
  · rename_i hacc
    cases h
    rw [if_neg hacc]
    exact ⟨rfl, rfl, rfl, rfl, by simp, rfl⟩

theorem blockRound_ok {cx : ToolContext} {d d' : DeepSeekV32Detector} {calls goes : Bool}
    {out : StreamingParseResult} (hmode : d.dsMode = .block)
    (h : blockRound cx d = (goes, d', out)) : DsRoundOk cx d calls goes d' out := by
  have hfirstInv : ∀ {i}, find invokeStartPrefix d.buffer = some i →
      ∀ j < i, ¬ OccursAt invokeStartPrefix d.buffer j := fun hf => (find_eq_some.1 hf).2
  unfold blockRound at h
  dsimp only at h
  split at h
  · -- the block closes before the next call
    rename_i close hclose
    obtain ⟨hpos, hlt⟩ := foundBefore_eq_some.1 hclose
    have hbefore : ∀ j < close, ¬ OccursAt invokeStartPrefix d.buffer j := by
      intro j hj hocc
      cases hf : find invokeStartPrefix d.buffer with
      | none => exact find_eq_none.1 hf j hocc
      | some i =>
          have hlt := hlt i hf
          exact hfirstInv hf j (by omega) hocc
    obtain ⟨⟨tok, htok, hocc⟩, hfirst⟩ := firstExistingPos_eq_some hpos
    have hmatched : (if eotToken <+: d.buffer.drop close then eotToken else altEotToken) = tok := by
      simp only [List.mem_cons, List.not_mem_nil, or_false] at htok
      rcases htok with rfl | rfl
      · exact if_pos hocc
      · refine if_neg fun hpre => ?_
        have hnot : ¬ Meets eotToken altEotToken := by decide
        exact hnot (meets_of_both hpre hocc)
    rw [hmatched] at h
    have hmem : Mark.pass tok { d.state with mode := .idle } [] ∈ blockMarks cx d.state := by
      simp only [List.mem_cons, List.not_mem_nil, or_false] at htok
      rcases htok with rfl | rfl <;> simp [blockMarks]
    obtain ⟨hpass, hact⟩ := block_mark hmode hmem hocc hbefore hfirst
    have hne : tok ≠ [] := (blockMarks_start cx d.state _ hmem).ne_nil
    have hle := hocc.le hne
    have hpos := List.length_pos_iff.2 hne
    cases h
    refine ⟨?_, .inl rfl, by simp, fun _ => ?_, by simp⟩
    · rw [← List.drop_drop]
      exact hpass.trans (.single hact)
    · dsimp only [size]
      rw [List.length_drop]
      omega
  · rename_i hclose
    split at h
    · -- a call begins
      rename_i inv hinv
      have hbefore : ∀ tok ∈ [eotToken, altEotToken], ∀ j < inv, ¬ OccursAt tok d.buffer j := by
        intro tok htok j hj hocc
        cases hpos : firstExistingPos d.buffer [eotToken, altEotToken] with
        | none => exact find_eq_none.1 (firstExistingPos_eq_none.1 hpos tok htok) j hocc
        | some close =>
            obtain ⟨i, hi, hle⟩ := foundBefore_eq_none.1 hclose close hpos
            rw [hinv] at hi
            cases hi
            exact (firstExistingPos_eq_some hpos).2 tok htok j (by omega) hocc
      obtain ⟨hpass, hact⟩ := block_mark (s := d.state) hmode List.mem_cons_self
        (find_eq_some.1 hinv).1 (hfirstInv hinv) hbefore
      split at h
      · rename_i hopen
        cases h
        have hnone : turn cx d.state (d.buffer.drop inv) = none := by
          rw [hact]
          unfold Mark.tag
          dsimp only [invokeOpenRegex] at hopen ⊢
          rw [hopen]
          rfl
        exact ⟨.refl _ _, .inl rfl, by simp, by simp,
          fun _ => .inr (quiet_of_pass (by rw [show d.state.mode = .block from hmode]; decide)
            hpass hnone)⟩
      · rename_i name rest hopen
        obtain ⟨rfl, hstate, hbuffer, htext, hitems, hevents⟩ := openInvoke_ok h
        have hlt := Transducer.Takes.length_lt (invokeOpen_tight.search_word hopen)
        rw [List.length_drop] at hlt
        refine ⟨?_, .inl htext, hitems, fun _ => ?_, by simp⟩
        · rw [hstate, hbuffer, hevents]
          refine hpass.trans (.single ?_)
          rw [hact]
          unfold Mark.tag
          dsimp only [invokeOpenRegex] at hopen ⊢
          rw [hopen]
          rfl
        · rw [size, size, hbuffer]
          omega
    · rename_i hinv
      cases h
      have hnone : ∀ tok ∈ [eotToken, altEotToken], find tok d.buffer = none := by
        rw [← firstExistingPos_eq_none]
        cases hpos : firstExistingPos d.buffer [eotToken, altEotToken] with
        | none => rfl
        | some close =>
            obtain ⟨i, hi, -⟩ := foundBefore_eq_none.1 hclose close hpos
            rw [hinv] at hi
            cases hi
      obtain ⟨hfind, hheld⟩ := block_held cx (s := d.state) hinv hnone
      have hquiet := hheld.quiet (turn_block _ hmode) (blockMarks_apart cx _)
        (blockMarks_start cx _) (by simp [blockMarks]) hfind
      have hpass := hheld.runs (turn_block _ hmode) le_rfl
      rw [flatMap_silent] at hpass
      exact ⟨hpass, .inl rfl, by simp, by simp, fun _ => .inr (quiet_of_none hquiet)⟩

/-- What stands between two parameters holds back. -/
theorem invoke_held {s : State} {buf : Text} (hp : find paramOpenToken buf = none)
    (he : find invokeEndToken buf = none) :
    (∀ m ∈ invokeMarks s, find m.tok buf = none) ∧ Search.Held ((invokeMarks s).map Mark.tok) buf
      (max (endsWithPartialToken buf paramOpenToken)
        (endsWithPartialToken buf invokeEndToken)) := by
  have hfind : ∀ m ∈ invokeMarks s, find m.tok buf = none := by
    intro m hm
    simp only [invokeMarks, List.mem_cons, List.not_mem_nil, or_false] at hm
    rcases hm with rfl | rfl
    · exact hp
    · exact he
  refine ⟨hfind, held_of_marks (invokeMarks_start s) hfind ?_ ?_⟩
  · intro m hm
    simp only [invokeMarks, List.mem_cons, List.not_mem_nil, or_false] at hm
    rcases hm with rfl | rfl
    · exact le_max_left _ _
    · exact le_max_right _ _
  · right
    rcases max_choice (endsWithPartialToken buf paramOpenToken)
      (endsWithPartialToken buf invokeEndToken) with hmax | hmax
    · exact ⟨_, List.mem_cons_self, hmax⟩
    · exact ⟨_, List.mem_cons_of_mem _ List.mem_cons_self, hmax⟩

/-- The end of a call is read, or the beginning of a parameter. -/
theorem invoke_mark (cx : ToolContext) {s : State} {buf : Text}
    (hmode : s.mode = .invoke ∨ s.mode = .invokeSkip) {m : DsMark} (hm : m ∈ invokeMarks s)
    {pos : Nat} (hocc : OccursAt m.tok buf pos)
    (hp : ∀ j < pos, ¬ OccursAt paramOpenToken buf j)
    (he : ∀ j < pos, ¬ OccursAt invokeEndToken buf j) :
    Runs (turn cx) s buf [] s (buf.drop pos) ∧ turn cx s (buf.drop pos) = m.act (buf.drop pos) := by
  obtain ⟨hpass, hact⟩ := runs_to_mark (turn_invoke _ hmode) (invokeMarks_apart s)
    (invokeMarks_start s) hm hocc (by
      intro m' hm'
      simp only [invokeMarks, List.mem_cons, List.not_mem_nil, or_false] at hm'
      rcases hm' with rfl | rfl
      · exact hp
      · exact he)
  rw [flatMap_silent] at hpass
  exact ⟨hpass, hact⟩

theorem closeInvoke_ok {d d' : DeepSeekV32Detector} {goes : Bool} {out : StreamingParseResult}
    {rest : Text} (h : closeInvoke d rest = (goes, d', out)) :
    goes = true ∧ d'.state = (closedInvoke d.state).1 ∧ d'.buffer = rest ∧
      out.normalText = [] ∧ (∀ item ∈ out.calls, item.events ≠ []) ∧
      out.events = (closedInvoke d.state).2 := by
  unfold closeInvoke at h
  unfold closedInvoke
  split at h
  · rename_i hmode
    have hmode' : d.state.mode = .invoke := hmode
    obtain ⟨hevents, hitems⟩ := d.ledger.emit_events (if d.argsStarted then ['}'] else ['{', '}'])
    have hid := d.ledger.emit_toolId (if d.argsStarted then ['}'] else ['{', '}'])
    generalize d.ledger.emit (if d.argsStarted then ['}'] else ['{', '}']) = p
      at h hevents hitems hid
    cases h
    rw [if_pos hmode']
    refine ⟨rfl, ?_, rfl, rfl, hitems, hevents⟩
    simp [state, hid]
  · rename_i hmode
    have hmode' : d.state.mode ≠ .invoke := hmode
    cases h
    rw [if_neg hmode']
    exact ⟨rfl, rfl, rfl, rfl, by simp, rfl⟩

theorem openParam_ok {d d' : DeepSeekV32Detector} {goes : Bool} {out : StreamingParseResult}
    {tag : Text × Option Bool} {rest : Text} (h : openParam d tag rest = (goes, d', out)) :
    goes = true ∧ d'.state = (openedParam d.state tag).1 ∧ d'.buffer = rest ∧
      out.normalText = [] ∧ (∀ item ∈ out.calls, item.events ≠ []) ∧
      out.events = (openedParam d.state tag).2 := by
  unfold openParam at h
  unfold openedParam
  dsimp only at h
  split at h
  · rename_i hmode
    have hmode' : d.state.mode = .invokeSkip := hmode
    cases h
    rw [if_pos hmode']
    exact ⟨rfl, rfl, rfl, rfl, by simp, rfl⟩
  · rename_i hmode
    have hmode' : d.state.mode ≠ .invokeSkip := hmode
    rw [if_neg hmode']
    split at h
    · rename_i hstr
      rw [if_pos hstr]
      have hlead : (if d.argsStarted then [','] else ['{']) = lead d.state := rfl
      rw [hlead] at h
      obtain ⟨hevents, hitems⟩ :=
        d.ledger.emit_events (lead d.state ++ Json.quote tag.1 ++ [':', '"'])
      cases h
      refine ⟨rfl, ?_, rfl, rfl, hitems, hevents⟩
      simp [state]
    · rename_i hstr
      rw [if_neg hstr]
      cases h
      exact ⟨rfl, rfl, rfl, rfl, by simp, rfl⟩

theorem invokeRound_ok {cx : ToolContext} {d d' : DeepSeekV32Detector} {calls goes : Bool}
    {out : StreamingParseResult} (hmode : d.dsMode = .invoke ∨ d.dsMode = .invokeSkip)
    (h : invokeRound d = (goes, d', out)) : DsRoundOk cx d calls goes d' out := by
  have hmode' : d.state.mode = .invoke ∨ d.state.mode = .invokeSkip := hmode
  unfold invokeRound at h
  dsimp only at h
  split at h
  · -- the call closes before the next parameter
    rename_i e he
    obtain ⟨hfind, hlt⟩ := foundBefore_eq_some.1 he
    have hbefore : ∀ j < e, ¬ OccursAt paramOpenToken d.buffer j := by
      intro j hj hocc
      cases hf : find paramOpenToken d.buffer with
      | none => exact find_eq_none.1 hf j hocc
      | some i =>
          have hlt := hlt i hf
          exact (find_eq_some.1 hf).2 j (by omega) hocc
    obtain ⟨hocc, hfirst⟩ := find_eq_some.1 hfind
    obtain ⟨hpass, hact⟩ := invoke_mark cx hmode'
      (List.mem_cons_of_mem _ List.mem_cons_self) hocc hbefore hfirst
    obtain ⟨rfl, hstate, hbuffer, htext, hitems, hevents⟩ := closeInvoke_ok h
    have hle := find_le hfind (by decide)
    have hpos : 0 < invokeEndToken.length := by decide
    refine ⟨?_, .inl htext, hitems, fun _ => ?_, by simp⟩
    · rw [hstate, hbuffer, hevents, ← List.drop_drop]
      exact hpass.trans (.single hact)
    · rw [size, size, hbuffer, List.length_drop]
      omega
  · rename_i he
    split at h
    · -- a parameter begins
      rename_i p hp
      have hbefore : ∀ j < p, ¬ OccursAt invokeEndToken d.buffer j := by
        intro j hj hocc
        cases hf : find invokeEndToken d.buffer with
        | none => exact find_eq_none.1 hf j hocc
        | some e =>
            obtain ⟨i, hi, hle⟩ := foundBefore_eq_none.1 he e hf
            rw [hp] at hi
            cases hi
            exact (find_eq_some.1 hf).2 j (by omega) hocc
      obtain ⟨hpass, hact⟩ := invoke_mark cx hmode' List.mem_cons_self
        (find_eq_some.1 hp).1 (find_eq_some.1 hp).2 hbefore
      split at h
      · rename_i hopen
        cases h
        have hnone : turn cx d.state (d.buffer.drop p) = none := by
          rw [hact]
          unfold Mark.tag
          dsimp only [paramOpenRegex] at hopen ⊢
          rw [hopen]
          rfl
        have hidle : d.state.mode ≠ .idle := by
          rcases hmode' with hm | hm <;> rw [hm] <;> decide
        exact ⟨.refl _ _, .inl rfl, by simp, by simp,
          fun _ => .inr (quiet_of_pass hidle hpass hnone)⟩
      · rename_i tag rest hopen
        obtain ⟨rfl, hstate, hbuffer, htext, hitems, hevents⟩ := openParam_ok h
        have hlt := Transducer.Takes.length_lt (paramOpen_tight.search_word hopen)
        rw [List.length_drop] at hlt
        refine ⟨?_, .inl htext, hitems, fun _ => ?_, by simp⟩
        · rw [hstate, hbuffer, hevents]
          refine hpass.trans (.single ?_)
          rw [hact]
          unfold Mark.tag
          dsimp only [paramOpenRegex] at hopen ⊢
          rw [hopen]
          rfl
        · rw [size, size, hbuffer]
          omega
    · rename_i hp
      cases h
      have hend : find invokeEndToken d.buffer = none := by
        cases hf : find invokeEndToken d.buffer with
        | none => rfl
        | some e =>
            obtain ⟨i, hi, -⟩ := foundBefore_eq_none.1 he e hf
            rw [hp] at hi
            cases hi
      obtain ⟨hfind, hheld⟩ := invoke_held (s := d.state) hp hend
      have hquiet := hheld.quiet (turn_invoke cx hmode') (invokeMarks_apart _)
        (invokeMarks_start _) (by simp [invokeMarks]) hfind
      have hpass := hheld.runs (turn_invoke cx hmode') le_rfl
      rw [flatMap_silent] at hpass
      exact ⟨hpass, .inl rfl, by simp, by simp, fun _ => .inr (quiet_of_none hquiet)⟩

theorem escape_events (t : Text) (id : Nat) :
    (Json.escape t).map (ToolEvent.arg id) =
      t.flatMap fun c => (Json.escapeChar c).map (ToolEvent.arg id) := List.map_flatMap ..

theorem pstrRound_ok {cx : ToolContext} {d d' : DeepSeekV32Detector} {calls goes : Bool}
    {out : StreamingParseResult} (hmode : d.dsMode = .pstr)
    (h : pstrRound d = (goes, d', out)) : DsRoundOk cx d calls goes d' out := by
  have hturn := turn_pstr cx (s := d.state) hmode
  have hmarks : ∀ m ∈ pstrMarks d.state, m.tok = paramEndToken := by
    intro m hm
    simp only [pstrMarks, List.mem_cons, List.not_mem_nil, or_false] at hm
    rw [hm]
    rfl
  unfold pstrRound at h
  dsimp only at h
  split at h
  · rename_i hfind
    have hnone : ∀ m ∈ pstrMarks d.state, find m.tok d.buffer = none := by
      intro m hm
      rw [hmarks m hm]
      exact hfind
    have hheld : Search.Held ((pstrMarks d.state).map Mark.tok) d.buffer
        (endsWithPartialToken d.buffer paramEndToken) := by
      refine held_of_marks (pstrMarks_start _) hnone (fun m hm => ?_)
        (.inr ⟨_, List.mem_cons_self, rfl⟩)
      rw [hmarks m hm]
      exact le_rfl
    have hquiet := hheld.quiet hturn (pstrMarks_apart _) (pstrMarks_start _) (by simp [pstrMarks])
      hnone
    have hpass := hheld.runs hturn le_rfl
    generalize d.buffer.length - endsWithPartialToken d.buffer paramEndToken = n at h hquiet hpass
    split at h
    · obtain ⟨hevents, hitems⟩ := d.ledger.emit_events (jsonEscapeChunk (d.buffer.take n))
      have hid := d.ledger.emit_toolId (jsonEscapeChunk (d.buffer.take n))
      generalize d.ledger.emit (jsonEscapeChunk (d.buffer.take n)) = p at h hevents hitems hid
      cases h
      have hstate : ({ d with ledger := p.1, buffer := d.buffer.drop n } :
          DeepSeekV32Detector).state = d.state := by
        simp [state, hid]
      refine ⟨?_, .inl rfl, hitems, by simp, fun _ => .inr (quiet_of_none ?_)⟩
      · rw [StreamingParseResult.events_calls, hevents, jsonEscapeChunk, escape_events, hstate]
        exact hpass
      · rw [hstate]
        exact hquiet
    · rename_i hzero
      obtain rfl : n = 0 := by omega
      cases h
      refine ⟨.refl _ _, .inl rfl, by simp, by simp, fun _ => .inr (quiet_of_none ?_)⟩
      rwa [List.drop_zero] at hquiet
  · rename_i stop hfind
    obtain ⟨hocc, hfirst⟩ := find_eq_some.1 hfind
    obtain ⟨hpass, hact⟩ := runs_to_mark hturn (pstrMarks_apart _) (pstrMarks_start _)
      List.mem_cons_self hocc (by
        intro m hm
        rw [hmarks m hm]
        exact hfirst)
    have hle := find_le hfind (by decide)
    have hpos : 0 < paramEndToken.length := by decide
    obtain ⟨hevents, hitems⟩ :=
      d.ledger.emit_events (jsonEscapeChunk (d.buffer.take stop) ++ ['"'])
    have hid := d.ledger.emit_toolId (jsonEscapeChunk (d.buffer.take stop) ++ ['"'])
    generalize d.ledger.emit (jsonEscapeChunk (d.buffer.take stop) ++ ['"']) = p
      at h hevents hitems hid
    cases h
    have hstate : ({ d with
        ledger := p.1.updatePrev
        buffer := d.buffer.drop (stop + paramEndToken.length)
        dsMode := .invoke } : DeepSeekV32Detector).state = { d.state with mode := .invoke } := by
      simp [state, hid]
    refine ⟨?_, .inl rfl, hitems, fun _ => ?_, by simp⟩
    · rw [StreamingParseResult.events_calls, hevents, List.map_append, jsonEscapeChunk,
        escape_events, hstate]
      refine hpass.trans (.single ?_)
      rw [hact]
      unfold Mark.pass
      dsimp only
      rw [List.drop_drop]
      rfl
    · dsimp only [size]
      rw [List.length_drop]
      omega

theorem pbufRound_ok {cx : ToolContext} {d d' : DeepSeekV32Detector} {calls goes : Bool}
    {out : StreamingParseResult} (hmode : d.dsMode = .pbuf ∨ d.dsMode = .pskip)
    (h : pbufRound cx d = (goes, d', out)) : DsRoundOk cx d calls goes d' out := by
  have hturn : turn cx d.state d.buffer = (find paramEndToken d.buffer).map fun stop =>
      ((closedValue cx d.state (d.buffer.take stop)).1,
        d.buffer.drop (stop + paramEndToken.length),
        (closedValue cx d.state (d.buffer.take stop)).2) := by
    have hmode' : d.state.mode = .pbuf ∨ d.state.mode = .pskip := hmode
    unfold turn
    rcases hmode' with hm | hm <;> rw [hm]
  unfold pbufRound at h
  dsimp only at h
  split at h
  · rename_i hfind
    cases h
    rw [hfind] at hturn
    exact ⟨.refl _ _, .inl rfl, by simp, by simp, fun _ => .inr (quiet_of_none hturn)⟩
  · rename_i stop hfind
    rw [hfind, Option.map_some] at hturn
    have hle := find_le hfind (by decide)
    have hpos : 0 < paramEndToken.length := by decide
    have hshorter : (d.buffer.drop (stop + paramEndToken.length)).length < d.buffer.length := by
      rw [List.length_drop]
      omega
    unfold closedValue at hturn
    split at h
    · rename_i hbuf
      have hbuf' : d.state.mode = .pbuf := hbuf
      rw [if_pos hbuf'] at hturn
      obtain ⟨hevents, hitems⟩ := d.ledger.emit_events (d.paramLead ++ Json.quote d.paramName ++
        [':'] ++ cx.dumps (parsedValue (d.buffer.take stop)))
      have hid := d.ledger.emit_toolId (d.paramLead ++ Json.quote d.paramName ++ [':'] ++
        cx.dumps (parsedValue (d.buffer.take stop)))
      generalize d.ledger.emit (d.paramLead ++ Json.quote d.paramName ++ [':'] ++
        cx.dumps (parsedValue (d.buffer.take stop))) = p at h hevents hitems hid
      cases h
      refine ⟨?_, .inl rfl, hitems, fun _ => hshorter, by simp⟩
      rw [StreamingParseResult.events_calls, hevents]
      have hstate : ({ d with
          ledger := p.1.updatePrev
          buffer := d.buffer.drop (stop + paramEndToken.length)
          dsMode := .invoke } : DeepSeekV32Detector).state = { d.state with mode := .invoke } := by
        simp [state, hid]
      rw [hstate]
      exact .single hturn
    · rename_i hbuf
      have hbuf' : ¬ d.state.mode = .pbuf := hbuf
      rw [if_neg hbuf'] at hturn
      cases h
      exact ⟨.single hturn, .inl rfl, by simp, fun _ => hshorter, by simp⟩

theorem rounds (cx : ToolContext) :
    Rounds (turn cx) init.state (NoStrayCloser cx) noRaise idleState
      (fun d calls => .ok (round cx d calls)) buffer size (fun d s => s = state d) where
  ok := by
    rintro d _ calls t o goes d' out rfl hrun hfine h
    refine ⟨_, rfl, ?_⟩
    have h : round cx d calls = (goes, d', out) := Except.ok.inj h
    unfold round at h
    split at h
    · rename_i hnil
      cases h
      refine ⟨.refl _ _, .inl rfl, by simp, by simp, fun _ => .inr (quiet_of_none ?_)⟩
      cases hturn : turn cx d.state d.buffer with
      | none => rfl
      | some p =>
          obtain ⟨s', b', o'⟩ := p
          have hlt := (turn_steady hturn).2.length_lt
          rw [hnil] at hlt
          exact absurd hlt (Nat.not_lt_zero _)
    · split at h
      · rename_i hmode
        exact idleRound_ok hmode hrun hfine h
      · rename_i hmode
        exact blockRound_ok hmode h
      · rename_i hmode
        exact invokeRound_ok (.inl hmode) h
      · rename_i hmode
        exact invokeRound_ok (.inr hmode) h
      · rename_i hmode
        exact pstrRound_ok hmode h
      · rename_i hmode
        exact pbufRound_ok (.inl hmode) h
      · rename_i hmode
        exact pbufRound_ok (.inr hmode) h
  error := by
    intro d s calls t o e hrel hrun hfine h
    cases h

theorem follows (cx : ToolContext) :
    Follows (turn cx) init.state (NoStrayCloser cx) (parseStreamingIncrement cx)
      StreamingParseResult.events buffer (fun d s => s = state d) noRaise
      idleState :=
  (rounds cx).follows (fun _ _ => rfl) (fun _ _ _ h => h) (turn_extends cx)
    ⟨_, .of_takes fun h => (turn_steady h).2⟩ (fun h => h.elim) NoStrayCloser.of_append

end DeepSeekV32Detector

end FreeToken
