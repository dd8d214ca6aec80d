import FreeToken.Core
import FreeToken.Lib.Json
import FreeToken.Lib.Markers
import FreeToken.Server.Tags

/-!
# Tool calls in a stream

What the detectors of `function_call_parser.py` share: the tools of a request, the items a detector
returns, and what a client sees of them.
-/

set_option autoImplicit false

namespace FreeToken

open Search Text

/-- A declared function; `parameters` are the members of its JSON schema. -/
structure Tool where
  name : Text
  parameters : Option (List Json.Member)

/-- The writer of numbers in `json.dumps`: whatever it is, it writes number literals. -/
structure NumberWriter where
  write : Text → Text
  literal : ∀ lit, Json.IsLiteral (write lit)

/-- The writer of numbers as they were read. -/
def NumberWriter.keep : NumberWriter where
  write lit := if Json.IsLiteral lit then lit else ['0']
  literal := by
    intro lit
    split
    · assumption
    · decide

/-- What a detector is called with, and the process-wide `FORWARD_UNKNOWN_TOOLS`. -/
structure ToolContext where
  tools : List Tool
  forwardUnknownTools : Bool
  numbers : NumberWriter

namespace ToolContext

/-- `json.dumps(value, ensure_ascii=False)`. -/
def dumps (cx : ToolContext) (v : Json) : Text := Json.dumps cx.numbers.write v

/-- `_should_forward_unknown_tool`. -/
def shouldForwardUnknownTool (cx : ToolContext) (name : Text) : Bool :=
  cx.forwardUnknownTools || decide (':' ∈ name)

/-- `_get_tool_indices(tools).get(name)`: the last tool of a name. -/
def toolIndex (cx : ToolContext) (name : Text) : Option Nat :=
  if name = [] then none
  else (((List.range cx.tools.length).zip cx.tools).reverse.find? fun p =>
    decide (p.2.name = name)).map Prod.fst

/-- A call of the function is passed on. -/
def accepts (cx : ToolContext) (name : Text) : Bool :=
  (cx.toolIndex name).isSome || cx.shouldForwardUnknownTool name

end ToolContext

structure ToolCallItem where
  toolIndex : Nat
  name : Option Text
  parameters : Text
  deriving DecidableEq, Repr

structure StreamingParseResult where
  normalText : Text := []
  calls : List ToolCallItem := []
  deriving DecidableEq, Repr

def StreamingParseResult.append (a b : StreamingParseResult) : StreamingParseResult where
  normalText := a.normalText ++ b.normalText
  calls := a.calls ++ b.calls

/-- A call the server keeps for the end of the stream; `none` is the source's `{}`. -/
abbrev PrevToolCall := Option (Text × Json)

/-- What a detector keeps of its calls: `prev_tool_call_arr`, `current_tool_id` and
`streamed_args_for_tool`. -/
structure Ledger where
  prevToolCallArr : List PrevToolCall := []
  currentToolId : Option Nat := none
  streamedArgsForTool : List Text := []

/-- Extend a list to a length. -/
def padTo {α : Type} (xs : List α) (n : Nat) (a : α) : List α :=
  xs ++ List.replicate (n - xs.length) a

namespace Ledger

/-- `self.current_tool_id`; what uses it comes after it was set. -/
def toolId (l : Ledger) : Nat := l.currentToolId.getD 0

/-- `_emit`. -/
def emit (l : Ledger) (fragment : Text) : Ledger × List ToolCallItem :=
  if fragment = [] then (l, [])
  else
    ({ l with streamedArgsForTool := l.streamedArgsForTool.modify l.toolId (· ++ fragment) },
      [⟨l.toolId, none, fragment⟩])

/-- `_update_prev`. -/
def updatePrev (l : Ledger) : Ledger :=
  let ledger := l.streamedArgsForTool.getD l.toolId []
  match (Json.loads ledger).or (Json.loads (ledger ++ ['}'])) with
  | some (.obj ms) =>
      { l with prevToolCallArr :=
          l.prevToolCallArr.modify l.toolId (Option.map fun p => (p.1, .obj ms)) }
  | _ => l

/-- Room for the call that begins. -/
def start (l : Ledger) : Ledger where
  prevToolCallArr := padTo l.prevToolCallArr (l.toolId + 1) none
  currentToolId := some l.toolId
  streamedArgsForTool := padTo l.streamedArgsForTool (l.toolId + 1) []

/-- The call that begins is passed on. -/
def named (l : Ledger) (name : Text) : Ledger :=
  { l with prevToolCallArr := l.prevToolCallArr.set l.toolId (some (name, .obj [])) }

/-- The call has ended. -/
def next (l : Ledger) : Ledger :=
  { l with
    currentToolId := some (l.toolId + 1)
    streamedArgsForTool := padTo l.streamedArgsForTool (l.toolId + 2) [] }

end Ledger

/-- `_first_existing_pos`. -/
def firstExistingPos (text : Text) (tokens : List Text) : Option Nat :=
  (tokens.filterMap fun tok => find tok text).min?

/-- `pos != -1 and (other == -1 or pos < other)`: a position that is found before another one. -/
def foundBefore : Option Nat → Option Nat → Option Nat
  | some pos, some other => if pos < other then some pos else none
  | some pos, none => some pos
  | none, _ => none

/-- `_ends_with_partial_token`. -/
def endsWithPartialToken (buffer tok : Text) : Nat := shortPartial buffer tok

/-- `_json_escape_chunk`. -/
def jsonEscapeChunk (text : Text) : Text := Json.escape text

theorem foundBefore_eq_some {pos other : Option Nat} {p : Nat} :
    foundBefore pos other = some p ↔ pos = some p ∧ ∀ i, other = some i → p < i := by
  cases pos with
  | none => simp [foundBefore]
  | some q =>
      cases other with
      | none => simp [foundBefore]
      | some i =>
          simp only [foundBefore, Option.some.injEq, forall_eq']
          split
          · rename_i hlt
            constructor
            · rintro ⟨⟩
              exact ⟨rfl, hlt⟩
            · rintro ⟨rfl, -⟩
              rfl
          · rename_i hlt
            simp only [reduceCtorEq, false_iff, not_and]
            rintro rfl
            exact hlt

theorem foundBefore_eq_none {pos other : Option Nat} :
    foundBefore pos other = none ↔ ∀ p, pos = some p → ∃ i, other = some i ∧ i ≤ p := by
  cases pos with
  | none => simp [foundBefore]
  | some q =>
      cases other with
      | none => simp [foundBefore]
      | some i => simp [foundBefore]

theorem firstExistingPos_eq_none {text : Text} {toks : List Text} :
    firstExistingPos text toks = none ↔ ∀ tok ∈ toks, find tok text = none := by
  unfold firstExistingPos
  rw [List.min?_eq_none_iff, List.filterMap_eq_nil_iff]

theorem firstExistingPos_eq_some {text : Text} {toks : List Text} {pos : Nat}
    (h : firstExistingPos text toks = some pos) :
    (∃ tok ∈ toks, OccursAt tok text pos) ∧ ∀ tok ∈ toks, ∀ j < pos, ¬ OccursAt tok text j := by
  unfold firstExistingPos at h
  rw [List.min?_eq_some_iff] at h
  obtain ⟨hmem, hmin⟩ := h
  obtain ⟨tok, htok, hfind⟩ := List.mem_filterMap.1 hmem
  refine ⟨⟨tok, htok, (find_eq_some.1 hfind).1⟩, fun tok' htok' j hj hocc => ?_⟩
  cases hf : find tok' text with
  | none => exact find_eq_none.1 hf j hocc
  | some p =>
      have hle := hmin p (List.mem_filterMap.2 ⟨tok', htok', hf⟩)
      exact (find_eq_some.1 hf).2 j (by omega) hocc

/-! ## What a client sees -/

/-- A character of content, the name of a call, a character of its arguments. -/
inductive ToolEvent
  | text (c : Char)
  | name (index : Nat) (name : Text)
  | arg (index : Nat) (c : Char)
  deriving DecidableEq, Repr

def ToolCallItem.events (item : ToolCallItem) : List ToolEvent :=
  (match item.name with
    | some name => [.name item.toolIndex name]
    | none => []) ++ item.parameters.map (.arg item.toolIndex)

def StreamingParseResult.events (r : StreamingParseResult) : List ToolEvent :=
  r.normalText.map .text ++ r.calls.flatMap ToolCallItem.events

namespace Ledger

@[simp] theorem emit_toolId (l : Ledger) (fragment : Text) : (l.emit fragment).1.toolId = l.toolId := by
  unfold emit
  split <;> rfl

@[simp] theorem updatePrev_toolId (l : Ledger) : l.updatePrev.toolId = l.toolId := by
  unfold updatePrev
  dsimp only
  split <;> rfl

@[simp] theorem start_toolId (l : Ledger) : l.start.toolId = l.toolId := rfl

@[simp] theorem named_toolId (l : Ledger) (name : Text) : (l.named name).toolId = l.toolId := rfl

@[simp] theorem next_toolId (l : Ledger) : l.next.toolId = l.toolId + 1 := rfl

theorem emit_events (l : Ledger) (fragment : Text) :
    (l.emit fragment).2.flatMap ToolCallItem.events = fragment.map (.arg l.toolId) ∧
      ∀ item ∈ (l.emit fragment).2, item.events ≠ [] := by
  unfold emit
  split
  · rename_i hnil
    rw [hnil]
    exact ⟨rfl, by simp⟩
  · rename_i hne
    refine ⟨by simp [ToolCallItem.events], ?_⟩
    intro item hitem
    rw [List.mem_singleton] at hitem
    rw [hitem]
    simp [ToolCallItem.events, hne]

end Ledger

/-- The concatenated content. -/
def normalTextOf (es : List ToolEvent) : Text :=
  es.filterMap fun
    | .text c => some c
    | _ => none

/-- The names of the calls, in order, each with its ordinal. -/
def callNamesOf (es : List ToolEvent) : List (Nat × Text) :=
  es.filterMap fun
    | .name i n => some (i, n)
    | _ => none

/-- The concatenated argument fragments of a call. -/
def argumentsOf (es : List ToolEvent) (i : Nat) : Text :=
  es.filterMap fun
    | .arg j c => if j = i then some c else none
    | _ => none

theorem StreamingParseResult.events_text (t : Text) :
    ({ normalText := t } : StreamingParseResult).events = t.flatMap fun c => [.text c] := by
  unfold events
  rw [List.flatMap_nil, List.append_nil]
  exact List.map_eq_flatMap

theorem StreamingParseResult.events_calls (items : List ToolCallItem) :
    ({ calls := items } : StreamingParseResult).events = items.flatMap ToolCallItem.events := rfl

theorem StreamingParseResult.events_append {a b : StreamingParseResult}
    (h : b.normalText = [] ∨ a.calls = []) : (a.append b).events = a.events ++ b.events := by
  unfold events append
  rcases h with h | h
  · simp [h]
  · simp [h]

/-! ## Rounds -/

/-- The loop of an increment: rounds until one says to stop, or raises. -/
def roundLoop {D : Type} (round : D → Bool → Py (Bool × D × StreamingParseResult)) :
    Nat → D → StreamingParseResult → Py (D × StreamingParseResult)
  | 0, d, out => .ok (d, out)
  | fuel + 1, d, out => do
      let (goes, d, more) ← round d (!out.calls.isEmpty)
      if goes then roundLoop round fuel d (out.append more) else return (d, out.append more)

/-- An increment: the new text joins the buffer, then the rounds. -/
def increment {D : Type} (round : D → Bool → Py (Bool × D × StreamingParseResult))
    (size : D → Nat) (put : D → Text → D) (d : D) (newText : Text) :
    Py (D × StreamingParseResult) :=
  roundLoop round (size (put d newText) + 1) (put d newText) {}

section Rounds

open Transducer

variable {D S : Type} {turn : S → Text → Option (S × Text × List ToolEvent)} {start : S}
  {Fine : Text → Prop} {Raises Exact : S → Prop}
  {round : D → Bool → Py (Bool × D × StreamingParseResult)} {buffer : D → Text} {size : D → Nat}
  {Rel : D → S → Prop}

/-- What a round did, as turns of a reader. -/
structure RoundOk (turn : S → Text → Option (S × Text × List ToolEvent)) (Raises Exact : S → Prop)
    (buffer : D → Text) (size : D → Nat) (d : D) (s : S) (calls goes : Bool) (d' : D) (s' : S)
    (out : StreamingParseResult) : Prop where
  runs : Runs turn s (buffer d) out.events s' (buffer d')
  text : out.normalText = [] ∨ calls = false
  items : ∀ item ∈ out.calls, item.events ≠ []
  shorter : goes = true → size d' < size d
  stops : goes = false → calls = true ∨ Quiet turn Raises Exact s' (buffer d')

/-- The rounds of a detector take turns of a reader. -/
structure Rounds (turn : S → Text → Option (S × Text × List ToolEvent)) (start : S)
    (Fine : Text → Prop) (Raises Exact : S → Prop)
    (round : D → Bool → Py (Bool × D × StreamingParseResult)) (buffer : D → Text)
    (size : D → Nat) (Rel : D → S → Prop) : Prop where
  ok : ∀ {d s calls t o goes d' out}, Rel d s → Runs turn start t o s (buffer d) → Fine t →
    round d calls = .ok (goes, d', out) →
    ∃ s', Rel d' s' ∧ RoundOk turn Raises Exact buffer size d s calls goes d' s' out
  error : ∀ {d s calls t o e}, Rel d s → Runs turn start t o s (buffer d) → Fine t →
    round d calls = .error e → ∃ o' s' b', Runs turn s (buffer d) o' s' b' ∧ Raises s'

theorem Rounds.loop (h : Rounds turn start Fine Raises Exact round buffer size Rel) :
    ∀ (n : Nat) {d : D} {s : S} {t : Text} {o : List ToolEvent} {out : StreamingParseResult},
      Rel d s → Runs turn start t o s (buffer d) → Fine t → size d < n →
      (∀ item ∈ out.calls, item.events ≠ []) →
      (∀ {d' out'}, roundLoop round n d out = .ok (d', out') →
        ∃ s' o', out'.events = out.events ++ o' ∧ Rel d' s' ∧
          Runs turn s (buffer d) o' s' (buffer d') ∧
          (Quiet turn Raises Exact s' (buffer d') ∨ out'.events ≠ [])) ∧
      (∀ {e}, roundLoop round n d out = .error e →
        ∃ o' s' b', Runs turn s (buffer d) o' s' b' ∧ Raises s') := by
  intro n
  induction n with
  | zero => exact fun _ _ _ hn => absurd hn (Nat.not_lt_zero _)
  | succ n ih =>
      intro d s t o out hrel hrun hfine hn hitems
      rw [roundLoop]
      cases hround : round d (!out.calls.isEmpty) with
      | error e =>
          obtain ⟨o', s', b', hruns, hraise⟩ := h.error hrel hrun hfine hround
          refine ⟨fun heq => ?_, fun _ => ⟨o', s', b', hruns, hraise⟩⟩
          cases heq
      | ok p =>
          obtain ⟨goes, d₁, more⟩ := p
          obtain ⟨s₁, hrel₁, hok⟩ := h.ok hrel hrun hfine hround
          have hevents : (out.append more).events = out.events ++ more.events := by
            refine StreamingParseResult.events_append (hok.text.imp_right fun hcalls => ?_)
            simpa using hcalls
          have hitems' : ∀ item ∈ (out.append more).calls, item.events ≠ [] := by
            intro item hitem
            rcases List.mem_append.1 hitem with hitem | hitem
            · exact hitems item hitem
            · exact hok.items item hitem
          cases goes with
          | true =>
              have hlt := hok.shorter rfl
              obtain ⟨ihok, iherr⟩ := ih hrel₁ (hrun.trans hok.runs) hfine (by omega) hitems'
              constructor
              · intro d' out' heq
                obtain ⟨s', o', hev, hrel', hruns, hstop⟩ := ihok heq
                refine ⟨s', more.events ++ o', ?_, hrel', hok.runs.trans hruns, hstop⟩
                rw [hev, hevents, List.append_assoc]
              · intro e heq
                obtain ⟨o', s', b', hruns, hraise⟩ := iherr heq
                exact ⟨_, s', b', hok.runs.trans hruns, hraise⟩
          | false =>
              refine ⟨fun heq => ?_, fun heq => by cases heq⟩
              cases heq
              refine ⟨s₁, more.events, hevents, hrel₁, hok.runs, ?_⟩
              refine (hok.stops rfl).symm.imp_right fun hcalls => ?_
              -- a call was already on its way
              obtain ⟨item, hitem⟩ := List.exists_mem_of_ne_nil out.calls (by simpa using hcalls)
              intro hnil
              rw [hevents, List.append_eq_nil_iff] at hnil
              have hflat := (List.append_eq_nil_iff.1 hnil.1).2
              rw [List.flatMap_eq_nil_iff] at hflat
              exact hitems item hitem (hflat item hitem)

/-- The increments of a detector follow the reader its rounds take turns of. -/
theorem Rounds.follows (h : Rounds turn start Fine Raises Exact round buffer size Rel)
    {put : D → Text → D} (hbuffer : ∀ d x, buffer (put d x) = buffer d ++ x)
    (hrel : ∀ d s x, Rel d s → Rel (put d x) s) (hext : Extends turn)
    (hshrinks : ∃ rank, Shrinks turn rank)
    (hhalts : ∀ {s b}, Raises s → turn s b = none) (hfine : ∀ {t x}, Fine (t ++ x) → Fine t) :
    Follows turn start Fine (increment round size put) StreamingParseResult.events buffer Rel Raises
      Exact where
  ext := hext
  shrinks := hshrinks
  halts := hhalts
  fine := hfine
  ok := by
    intro d s t o x d' r hds hrun hf hparse
    have hrun' := hrun.append hext x
    rw [← hbuffer] at hrun'
    obtain ⟨s', o', hev, hrel', hruns, hstop⟩ := (h.loop _ (hrel d s x hds) hrun' hf
      (Nat.lt_succ_self _) (by simp)).1 hparse
    rw [hbuffer] at hruns
    have hevents : r.events = o' := hev
    rw [hevents] at hstop ⊢
    exact ⟨s', hruns, hrel', hstop⟩
  error := by
    intro d s t o x e hds hrun hf hparse
    have hrun' := hrun.append hext x
    rw [← hbuffer] at hrun'
    have hres := (h.loop _ (hrel d s x hds) hrun' hf (Nat.lt_succ_self _) (by simp)).2 hparse
    rwa [hbuffer] at hres

end Rounds

/-! ## A whole stream -/

/-- What a client has at the end: content, names with their ordinals, arguments of each call. -/
structure StreamOutcome where
  normalText : Text
  callNames : List (Nat × Text)
  arguments : Nat → Text

/-- The outcome of events, with the text that is left at the end. -/
def outcomeOf (es : List ToolEvent) (rest : Text) : StreamOutcome where
  normalText := normalTextOf es ++ rest
  callNames := callNamesOf es
  arguments := argumentsOf es

/-- The chunks of a stream, each followed by empty increments until nothing comes, and the end. -/
def streamTools {D : Type} (parse : D → Text → Py (D × StreamingParseResult))
    (buffer : D → Text) (finish : D → Text) (d : D) (chunks : List Text) : Py StreamOutcome := do
  let (d, rs) ← Transducer.feed parse StreamingParseResult.events (List.length ∘ buffer) d chunks
  return outcomeOf (rs.flatMap StreamingParseResult.events) (finish d)

@[simp] theorem normalTextOf_append (es es' : List ToolEvent) :
    normalTextOf (es ++ es') = normalTextOf es ++ normalTextOf es' := List.filterMap_append

@[simp] theorem normalTextOf_text (t : Text) : normalTextOf (t.map .text) = t := by
  unfold normalTextOf
  rw [List.filterMap_map]
  exact List.filterMap_some

/-- Rounds that do not raise make a stream that does not raise. -/
theorem roundLoop_ok {D : Type} (round : D → Bool → Bool × D × StreamingParseResult) (n : Nat)
    (d : D) (out : StreamingParseResult) :
    ∃ p, roundLoop (fun d calls => .ok (round d calls)) n d out = .ok p := by
  induction n generalizing d out with
  | zero => exact ⟨_, rfl⟩
  | succ n ih =>
      rw [roundLoop]
      rcases hround : round d (!out.calls.isEmpty) with ⟨goes, d', more⟩
      cases goes with
      | true => exact ih d' (out.append more)
      | false => exact ⟨_, rfl⟩

/-! ## Streamed and one-shot calls -/

/-- The calls of a stream and those of a whole text: the same names in the same order, and arguments
that parse to the same object. -/
def Agrees (o : StreamOutcome) (r : StreamingParseResult) : Prop :=
  o.callNames.map (fun p => (p.1, some p.2)) = r.calls.mapIdx (fun k item => (k, item.name)) ∧
    ∀ k item, r.calls[k]? = some item →
      ∃ ms, Json.loads (o.arguments k) = some (.obj ms) ∧ Json.loads item.parameters = some (.obj ms)

/-- The events carry calls, each with its name and its arguments, from an ordinal on. -/
structure Carries (es : List ToolEvent) (n : Nat) (calls : List (Text × Text)) : Prop where
  names : callNamesOf es = calls.mapIdx fun k c => (n + k, c.1)
  arguments : ∀ k, argumentsOf es k =
    if n ≤ k then ((calls[k - n]?).map Prod.snd).getD [] else []

theorem carries_nil (n : Nat) : Carries [] n [] where
  names := rfl
  arguments := by
    intro k
    simp [argumentsOf]

theorem carries_text (t : Text) (n : Nat) : Carries (t.flatMap fun c => [.text c]) n [] where
  names := by
    rw [← List.map_eq_flatMap]
    unfold callNamesOf
    rw [List.filterMap_map]
    simp
  arguments := by
    intro k
    rw [← List.map_eq_flatMap]
    unfold argumentsOf
    rw [List.filterMap_map]
    simp

/-- A call: its name, then its arguments. -/
theorem carries_call (n : Nat) (name arguments : Text) :
    Carries (.name n name :: arguments.map (.arg n)) n [(name, arguments)] where
  names := by
    have hnone : callNamesOf (arguments.map (.arg n)) = [] := by
      unfold callNamesOf
      rw [List.filterMap_map, List.filterMap_eq_nil_iff]
      exact fun _ _ => rfl
    have hcons : callNamesOf (.name n name :: arguments.map (.arg n)) =
        (n, name) :: callNamesOf (arguments.map (.arg n)) := rfl
    rw [hcons, hnone]
    rfl
  arguments := by
    intro k
    have hcons : argumentsOf (.name n name :: arguments.map (.arg n)) k =
        argumentsOf (arguments.map (.arg n)) k := rfl
    rw [hcons]
    unfold argumentsOf
    rw [List.filterMap_map]
    by_cases hk : k = n
    · subst hk
      simp only [le_refl, if_true, Nat.sub_self, List.getElem?_cons_zero, Option.map_some,
        Option.getD_some]
      refine (List.filterMap_congr fun c _ => ?_).trans List.filterMap_some
      exact if_pos rfl
    · have hnone : arguments.filterMap ((fun
          | ToolEvent.arg j c => if j = k then some c else none
          | _ => none) ∘ ToolEvent.arg n) = [] := by
        rw [List.filterMap_eq_nil_iff]
        intro c _
        exact if_neg (Ne.symm hk)
      rw [hnone]
      split
      · rw [List.getElem?_eq_none (by simp; omega)]
        rfl
      · rfl

theorem Carries.append {es es' : List ToolEvent} {n : Nat} {calls calls' : List (Text × Text)}
    (h : Carries es n calls) (h' : Carries es' (n + calls.length) calls') :
    Carries (es ++ es') n (calls ++ calls') where
  names := by
    have happend : callNamesOf (es ++ es') = callNamesOf es ++ callNamesOf es' :=
      List.filterMap_append
    rw [happend, h.names, h'.names, List.mapIdx_append]
    congr 1
    refine congrArg (fun f => calls'.mapIdx f) ?_
    funext k c
    rw [Nat.add_assoc, Nat.add_comm calls.length]
  arguments := by
    intro k
    have happend : argumentsOf (es ++ es') k = argumentsOf es k ++ argumentsOf es' k :=
      List.filterMap_append
    rw [happend, h.arguments, h'.arguments]
    by_cases hk : n ≤ k
    · rw [if_pos hk, if_pos hk]
      by_cases hlt : k - n < calls.length
      · rw [if_neg (by omega), List.append_nil, List.getElem?_append_left hlt]
      · rw [if_pos (by omega), List.getElem?_eq_none (l := calls) (by omega),
          List.getElem?_append_right (by omega), show k - n - calls.length =
            k - (n + calls.length) by omega]
        rfl
    · rw [if_neg hk, if_neg hk, if_neg (by omega)]
      rfl

/-- Calls that were carried, against the calls of a whole text. -/
theorem Carries.agrees {es : List ToolEvent} {rest : Text} {calls : List (Text × Text)}
    {r : StreamingParseResult} (h : Carries es 0 calls)
    (hcalls : r.calls.map (fun item => (item.name, Json.loads item.parameters)) =
      calls.map fun c => (some c.1, Json.loads c.2))
    (hobj : ∀ c ∈ calls, ∃ ms, Json.loads c.2 = some (.obj ms)) : Agrees (outcomeOf es rest) r := by
  constructor
  · have hnames : (outcomeOf es rest).callNames = calls.mapIdx fun k c => (0 + k, c.1) := h.names
    apply List.ext_getElem?
    intro k
    have hget := congrArg (fun l => l[k]?) hcalls
    simp only [List.getElem?_map] at hget
    rw [hnames, List.getElem?_map, List.getElem?_mapIdx, List.getElem?_mapIdx]
    cases hc : calls[k]? with
    | none =>
        rw [hc, Option.map_none, Option.map_eq_none_iff] at hget
        rw [hget]
        rfl
    | some c =>
        rw [hc, Option.map_some] at hget
        obtain ⟨item, hitem, heq⟩ := Option.map_eq_some_iff.1 hget
        simp only [Prod.mk.injEq] at heq
        rw [hitem]
        simp only [Option.map_some, Nat.zero_add, heq.1]
  · intro k item hitem
    have hget := congrArg (fun l => l[k]?) hcalls
    simp only [List.getElem?_map, hitem, Option.map_some] at hget
    obtain ⟨c, hc, heq⟩ := Option.map_eq_some_iff.1 hget.symm
    simp only [Prod.mk.injEq] at heq
    obtain ⟨ms, hms⟩ := hobj c (List.mem_of_getElem? hc)
    have harguments : (outcomeOf es rest).arguments k = c.2 := by
      have hargs := h.arguments k
      rw [if_pos (Nat.zero_le k), Nat.sub_zero, hc] at hargs
      exact hargs
    rw [harguments]
    exact ⟨ms, hms, heq.2.symm.trans hms⟩

end FreeToken
