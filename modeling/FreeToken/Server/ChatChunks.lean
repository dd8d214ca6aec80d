import FreeToken.Server.Reply

/-!
# The OpenAI chunk stream

`stream_chat_completion_chunks` writes the generation events as chunks; a client concatenates the text
of the chunks, and the arguments of each tool slot.
-/

set_option autoImplicit false

namespace FreeToken

open Generation
open Generator (inOrder Emits)

namespace OpenAI

attribute [local instance] Text.lawfulBEq

/-! ## Chunks -/

structure Usage where
  promptTokens : Nat
  completionTokens : Nat
  totalTokens : Nat
  /-- `prompt_tokens_details`, only for a hit. -/
  cachedTokens : Option Nat
  deriving DecidableEq, Repr

inductive Chunk
  | role
  | reasoningContent (text : Text)
  | content (text : Text)
  | toolCall (index : Nat) (id : Text) (name : Option Text)
  | toolArguments (index : Nat) (arguments : Text)
  | finish (finishReason : Text)
  | usage (u : Usage)
  | error (message type : Text) (code : Option Text)
  | done
  deriving DecidableEq, Repr

/-! ## The adapter -/

/-- `_usage` -/
def usageOf (promptTokens completionTokens cachedTokens : Nat) : Usage :=
  ⟨promptTokens, completionTokens, promptTokens + completionTokens,
    if 0 < cachedTokens then some cachedTokens else none⟩

/-- `_tool_call_id`, with the random digits given. -/
def toolCallId (hex : Text) (name : Option Text) (index : Nat) : Text :=
  let stem := ((orElse (name.getD []) "tool".toList).map fun c => if c = '_' then '-' else c).take 24
  "call_".toList ++ stem ++ '_' :: (Nat.toDigits 10 index ++ '_' :: hex)

structure OpenTool where
  index : Nat
  ordinal : Int
  sent : Text
  stable : Bool

structure Adapter where
  promptTokens : Nat := 0
  completionTokens : Nat := 0
  cachedTokens : Nat := 0
  toolCallsSent : Nat := 0
  openTool : Option OpenTool := none

/-- The request as the adapter reads it, with the random digits of each slot's id. -/
structure Setup where
  includeUsage : Bool
  enableCacheReport : Bool
  hex : Nat → Text

section Adapter

variable (q : Setup) (a : Adapter)

/-- `_tool_call_deltas` of one call. -/
def toolCallDeltas (call : CallItem) (index : Nat) : List Chunk :=
  [.toolCall index (toolCallId (q.hex index) call.name index) call.name,
    .toolArguments index call.parameters]

/-- What of the final arguments is still to be sent. -/
def remainder (sent final : Text) : Text :=
  if sent <+: final then final.drop sent.length else if sent = [] then final else []

/-- One call of a `ToolCallsDelta`. -/
def closeCall (call : CallItem) : Adapter × List Chunk :=
  match a.openTool with
  | some t =>
      if t.ordinal = call.toolIndex then
        ({ a with openTool := none, toolCallsSent := a.toolCallsSent + 1 },
          if remainder t.sent call.parameters = [] then []
          else [.toolArguments t.index (remainder t.sent call.parameters)])
      else ({ a with toolCallsSent := a.toolCallsSent + 1 }, toolCallDeltas q call a.toolCallsSent)
  | none => ({ a with toolCallsSent := a.toolCallsSent + 1 }, toolCallDeltas q call a.toolCallsSent)

/-- A fragment of a call whose fragments are prefix stable is sent. -/
def addArgs (fragment : Text) : Adapter × List Chunk :=
  match a.openTool with
  | some t =>
      if t.stable = true ∧ fragment ≠ [] then
        ({ a with openTool := some { t with sent := t.sent ++ fragment } },
          [.toolArguments t.index fragment])
      else (a, [])
  | none => (a, [])

/-- The chunks of an event. -/
def onEvent : GenEvent → Adapter × List Chunk
  | .reasoningDelta text => (a, [.reasoningContent text])
  | .contentDelta text => (a, [.content text])
  | .toolCallStart i name stable =>
      ({ a with openTool := some ⟨a.toolCallsSent, i, [], stable⟩ },
        [.toolCall a.toolCallsSent (toolCallId (q.hex a.toolCallsSent) name a.toolCallsSent) name])
  | .toolCallArgsDelta _ fragment => addArgs a fragment
  | .toolCallsDelta cs => inOrder (closeCall q) a cs
  | .genDone d =>
      ({ a with
          promptTokens := d.promptTokens
          completionTokens := d.completionTokens
          cachedTokens := d.cachedTokens },
        [.finish d.finishReason])

/-- The chunks behind the events. -/
def closing : List Chunk :=
  (if q.includeUsage then
    [.usage (usageOf a.promptTokens a.completionTokens
      (if q.enableCacheReport then a.cachedTokens else 0))]
  else []) ++ [.done]

/-- The chunks at the end of the events; only a `GenerationError` is caught. -/
def onEnd : Except Halt Unit → List Chunk
  | .ok () => closing q a
  | .error .waits => []
  | .error (.generationError message code) =>
      .error message "invalid_request_error".toList code :: closing q a
  | .error (.exception _) => []

end Adapter

/-- `stream_chat_completion_chunks` -/
def streamChatCompletionChunks (q : Setup) (src : Generator GenEvent Halt Unit) : List Chunk :=
  let ran := inOrder (onEvent q) {} src.events
  .role :: (ran.2 ++ onEnd q ran.1 src.result)

/-! ## The client -/

/-- The end of a message for a client: the reason it finished, or an error. -/
inductive Ending
  | finished (reason : Text)
  | failed (message type : Text) (code : Option Text)
  deriving DecidableEq, Repr

inductive Phase
  | opening
  | reading
  | closing (e : Ending) (usage : Option Usage)
  | ended (e : Ending) (usage : Option Usage)
  deriving DecidableEq, Repr

structure Client where
  phase : Phase := .opening
  reasoning : Text := []
  content : Text := []
  calls : List (Option Text × Text) := []
  deriving DecidableEq, Repr

/-- Arguments go to the slot that was opened last. -/
def Client.addArgs (c : Client) (index : Nat) (fragment : Text) : Option Client :=
  match c.calls.getLast? with
  | some call =>
      if index + 1 = c.calls.length then
        some { c with calls := c.calls.dropLast ++ [(call.1, call.2 ++ fragment)] }
      else none
  | none => none

/-- Read a chunk; none when it may not stand here. -/
def Client.step (c : Client) (chunk : Chunk) : Option Client :=
  match c.phase, chunk with
  | .opening, .role => some { c with phase := .reading }
  | .reading, .reasoningContent text => some { c with reasoning := c.reasoning ++ text }
  | .reading, .content text => some { c with content := c.content ++ text }
  | .reading, .toolCall index _ name =>
      if index = c.calls.length then some { c with calls := c.calls ++ [(name, [])] } else none
  | .reading, .toolArguments index fragment => c.addArgs index fragment
  | .reading, .finish reason => some { c with phase := .closing (.finished reason) none }
  | .reading, .error message type code => some { c with phase := .closing (.failed message type code) none }
  | .closing e none, .usage u => some { c with phase := .closing e (some u) }
  | .closing e u, .done => some { c with phase := .ended e u }
  | _, _ => none

/-! ## What the events say -/

/-- The concatenated reasoning of events. -/
def reasoningOf (es : List GenEvent) : Text :=
  es.flatMap fun
    | .reasoningDelta text => text
    | _ => []

/-- The concatenated content of events. -/
def contentOf (es : List GenEvent) : Text :=
  es.flatMap fun
    | .contentDelta text => text
    | _ => []

/-- The calls an event completes, and the one that is open then, with what was passed on of it. -/
def takeCall (w : Option (Option Text × Text × Bool)) :
    GenEvent → Option (Option Text × Text × Bool) × List (Option Text × Text)
  | .toolCallStart _ name stable => (some (name, [], stable), [])
  | .toolCallArgsDelta _ fragment =>
      (w.map fun t => (t.1, if t.2.2 then t.2.1 ++ fragment else t.2.1, t.2.2), [])
  | .toolCallsDelta cs =>
      match w with
      | some t => (none, cs.map fun c => (t.1, topUp t.2.1 c.parameters))
      | none => (none, cs.map fun c => (c.name, c.parameters))
  | _ => (w, [])

/-- The calls of events, the last one as far as it came. -/
def callsOf (es : List GenEvent) : List (Option Text × Text) :=
  (inOrder takeCall none es).2 ++ ((inOrder takeCall none es).1.map fun t => (t.1, t.2.1)).toList

/-! ## What a client has of an event -/

/-- The client has the text and the calls that were said, and the adapter knows the open slot. -/
structure Mirrors (r : Reader) (reasoning content : Text) (w : Option (Option Text × Text × Bool))
    (calls : List (Option Text × Text)) (a : Adapter) (c : Client) : Prop where
  client : c = ⟨.reading, reasoning, content, calls ++ (w.map fun t => (t.1, t.2.1)).toList⟩
  sent : a.toolCallsSent = calls.length
  openTool : a.openTool = w.map fun t => ⟨calls.length, r.calls, t.2.1, t.2.2⟩
  reader : r.openCall = none ↔ w = none
  totals : a.promptTokens = 0 ∧ a.completionTokens = 0 ∧ a.cachedTokens = 0

variable {q : Setup} {r r' : Reader} {reasoning content : Text}
  {w : Option (Option Text × Text × Bool)} {calls : List (Option Text × Text)} {a : Adapter} {c : Client}
  {streamed : Bool}

/-- What an event leaves. -/
def Passes (q : Setup) (r' : Reader) (reasoning content : Text)
    (w : Option (Option Text × Text × Bool)) (calls : List (Option Text × Text)) (a : Adapter)
    (c : Client) (ev : GenEvent) : Prop :=
  Emits Client.step (Mirrors r' (reasoning ++ reasoningOf [ev]) (content ++ contentOf [ev])
    (takeCall w ev).1 (calls ++ (takeCall w ev).2)) c (onEvent q a ev)

theorem step_args (reasoning content : Text) (calls : List (Option Text × Text))
    (name : Option Text) (sent fragment : Text) :
    Client.step ⟨.reading, reasoning, content, calls ++ [(name, sent)]⟩
      (.toolArguments calls.length fragment) =
        some ⟨.reading, reasoning, content, calls ++ [(name, sent ++ fragment)]⟩ := by
  simp [Client.step, Client.addArgs]

theorem topUp_append (sent final : Text) : sent ++ remainder sent final = topUp sent final := by
  unfold remainder topUp
  split
  · rename_i hpre
    exact (List.prefix_append_drop hpre).symm
  · rename_i hnot
    have hne : sent ≠ [] := fun hnil => hnot (hnil ▸ List.nil_prefix)
    rw [if_neg hne, List.append_nil]

theorem args_passes (h : Mirrors r reasoning content w calls a c) {call : Option Text × Text}
    (hopen : r.openCall = some call) {fragment : Text} (hne : fragment ≠ []) (i : Int)
    (call' : Option Text × Text) :
    Passes q { r with openCall := some call' } reasoning content w calls a c
      (.toolCallArgsDelta i fragment) := by
  cases w with
  | none =>
      rw [h.reader.2 rfl] at hopen
      cases hopen
  | some t =>
      obtain ⟨name, sent, stable⟩ := t
      have hreader : some call' = none ↔
          (takeCall (some (name, sent, stable)) (.toolCallArgsDelta i fragment)).1 = none := by
        simp [takeCall]
      unfold Passes onEvent addArgs
      rw [h.openTool]
      cases stable with
      | true =>
          dsimp only [Option.map_some]
          rw [if_pos ⟨rfl, hne⟩]
          have hstep : Client.step c (.toolArguments calls.length fragment) =
              some ⟨.reading, reasoning, content, calls ++ [(name, sent ++ fragment)]⟩ := by
            rw [h.client]
            exact step_args reasoning content calls name sent fragment
          apply Emits.one hstep
          exact ⟨by simp [reasoningOf, contentOf, takeCall], by simp [takeCall, h.sent],
            by simp [takeCall], hreader, h.totals⟩
      | false =>
          dsimp only [Option.map_some]
          rw [if_neg fun hboth => Bool.false_ne_true hboth.1]
          apply Emits.nothing
          exact ⟨by simp [reasoningOf, contentOf, takeCall, h.client], by simp [takeCall, h.sent],
            by simp [takeCall, h.openTool], hreader, h.totals⟩

/-- A call that is not open gets a slot of its own. -/
theorem closeCall_whole (h : Mirrors r reasoning content none calls a c) (item : CallItem)
    (n : Nat) :
    Emits Client.step (Mirrors { r with calls := n, openCall := none } reasoning content none
      (calls ++ [(item.name, item.parameters)])) c (closeCall q a item) := by
  have hopen := h.openTool
  rw [Option.map_none] at hopen
  have hclose : closeCall q a item =
      ({ a with toolCallsSent := a.toolCallsSent + 1 }, toolCallDeltas q item a.toolCallsSent) := by
    unfold closeCall
    rw [hopen]
  rw [hclose]
  refine ⟨⟨.reading, reasoning, content, calls ++ [(item.name, item.parameters)]⟩, ?_, ?_⟩
  · have hargs := step_args reasoning content calls item.name [] item.parameters
    rw [List.nil_append] at hargs
    have hstart : Client.step c (.toolCall calls.length
        (toolCallId (q.hex calls.length) item.name calls.length) item.name) =
          some ⟨.reading, reasoning, content, calls ++ [(item.name, [])]⟩ := by
      rw [h.client]
      simp [Client.step]
    rw [h.sent]
    simp only [toolCallDeltas, Machine.runAll, hstart, Option.bind_some, hargs]
  · exact ⟨by simp, by simp [h.sent], by simp [hopen], by simp, h.totals⟩

theorem whole_passes (h : Mirrors r reasoning content none calls a c) (cs : List CallItem) (n : Nat) :
    Emits Client.step (Mirrors { r with calls := n, openCall := none } reasoning content none
      (calls ++ cs.map fun item => (item.name, item.parameters))) c (inOrder (closeCall q) a cs) := by
  induction cs generalizing calls a c with
  | nil =>
      apply Emits.nothing
      rw [List.map_nil, List.append_nil]
      have hopen := h.openTool
      exact ⟨h.client, h.sent, hopen, by simp, h.totals⟩
  | cons item cs ih =>
      have hopen := h.reader.2 rfl
      obtain ⟨c₁, hrun, hm⟩ := closeCall_whole (q := q) h item r.calls
      have hsame : ({ r with calls := r.calls, openCall := none } : Reader) = r := by rw [← hopen]
      rw [hsame] at hm
      obtain ⟨c₂, hrun₂, hm₂⟩ := ih hm
      refine ⟨c₂, ?_, ?_⟩
      · rw [inOrder, Machine.runAll_append, hrun]
        exact hrun₂
      · rw [List.append_assoc, List.singleton_append] at hm₂
        exact hm₂

theorem close_passes {name : Option Text} {sent : Text} {stable : Bool}
    (h : Mirrors r reasoning content (some (name, sent, stable)) calls a c) {item : CallItem}
    (hindex : item.toolIndex = r.calls) (n : Nat) :
    Passes q { r with calls := n, openCall := none } reasoning content (some (name, sent, stable)) calls
      a c (.toolCallsDelta [item]) := by
  have hopen := h.openTool
  rw [Option.map_some] at hopen
  have hclose : onEvent q a (.toolCallsDelta [item]) =
      ({ a with openTool := none, toolCallsSent := a.toolCallsSent + 1 },
        if remainder sent item.parameters = [] then []
        else [.toolArguments calls.length (remainder sent item.parameters)]) := by
    simp [onEvent, inOrder, closeCall, hopen, hindex]
  unfold Passes
  rw [hclose]
  refine ⟨⟨.reading, reasoning, content, calls ++ [(name, topUp sent item.parameters)]⟩, ?_, ?_⟩
  · rw [h.client]
    have htop := topUp_append sent item.parameters
    split
    · rename_i hnil
      rw [hnil, List.append_nil] at htop
      rw [← htop]
      rfl
    · have hargs := step_args reasoning content calls name sent (remainder sent item.parameters)
      rw [htop] at hargs
      simp only [Option.map_some, Option.toList_some, Machine.runAll, hargs, Option.bind_some]
  · exact ⟨by simp [reasoningOf, contentOf, takeCall], by simp [takeCall, h.sent],
      by simp [takeCall], by simp [takeCall], h.totals⟩

/-- An event that a reader takes, short of the end. -/
theorem event_passes (h : Mirrors r reasoning content w calls a c) {ev : GenEvent}
    (htakes : Reader.Takes streamed r ev r') (hgoing : r'.done = none) :
    Passes q r' reasoning content w calls a c ev := by
  cases htakes with
  | @reasoning text hne =>
      have hstep : Client.step c (.reasoningContent text) =
          some { c with reasoning := c.reasoning ++ text } := by
        rw [h.client]
        rfl
      apply Emits.one hstep
      exact ⟨by simp [reasoningOf, contentOf, takeCall, h.client], by simp [takeCall, h.sent],
        by simp [takeCall, h.openTool], h.reader, h.totals⟩
  | content text hopen =>
      have hstep : Client.step c (.content text) = some { c with content := c.content ++ text } := by
        rw [h.client]
        rfl
      apply Emits.one hstep
      exact ⟨by simp [reasoningOf, contentOf, takeCall, h.client], by simp [takeCall, h.sent],
        by simp [takeCall, h.openTool], h.reader, h.totals⟩
  | start name stable hopen =>
      have hw := h.reader.1 hopen
      subst hw
      have hstep : Client.step c (.toolCall a.toolCallsSent
          (toolCallId (q.hex a.toolCallsSent) name a.toolCallsSent) name) =
            some { c with calls := c.calls ++ [(name, [])] } := by
        rw [h.client]
        simp [Client.step, h.sent]
      apply Emits.one hstep
      exact ⟨by simp [reasoningOf, contentOf, takeCall, h.client], by simp [takeCall, h.sent],
        by simp [takeCall, h.sent], by simp [takeCall], h.totals⟩
  | args hopen hne => exact args_passes h hopen hne _ _
  | @whole cs hopen hstreamed hcalls hne =>
      have hw := h.reader.1 hopen
      subst hw
      obtain ⟨c', hrun, hm⟩ := whole_passes (q := q) h cs cs.length
      refine ⟨c', hrun, ?_⟩
      have hreader : ({ r with calls := cs.length, openCall := none } : Reader) =
          { r with calls := cs.length } := by rw [← hopen]
      rw [hreader] at hm
      have hr : reasoning ++ reasoningOf [.toolCallsDelta cs] = reasoning := List.append_nil _
      have hc : content ++ contentOf [.toolCallsDelta cs] = content := List.append_nil _
      rw [hr, hc]
      exact hm
  | @close call item hopen hindex hname hargs =>
      cases w with
      | none =>
          rw [h.reader.2 rfl] at hopen
          cases hopen
      | some t => exact close_passes h hindex _
  | done d hopen => cases hgoing

/-! ## The whole stream -/

theorem run_passes (h : Mirrors r reasoning content w calls a c) (es : List GenEvent)
    (hrun : Machine.runAll (Reader.step streamed) r es = some r') (hgoing : r'.done = none) :
    Emits Client.step (Mirrors r' (reasoning ++ reasoningOf es) (content ++ contentOf es)
      (inOrder takeCall w es).1 (calls ++ (inOrder takeCall w es).2)) c (inOrder (onEvent q) a es) := by
  induction es generalizing r reasoning content w calls a c with
  | nil =>
      cases hrun
      apply Emits.nothing
      simp only [reasoningOf, contentOf, inOrder, List.flatMap_nil, List.append_nil]
      exact h
  | cons ev es ih =>
      obtain ⟨r₁, hstep, hrest⟩ := Option.bind_eq_some_iff.1 hrun
      have hgoing₁ : r₁.done = none := by
        cases es with
        | nil =>
            cases hrest
            exact hgoing
        | cons ev' es =>
            obtain ⟨r₂, hstep₂, -⟩ := Option.bind_eq_some_iff.1 hrest
            exact (Reader.takes_of_step hstep₂).1
      obtain ⟨c₁, hrun₁, hm⟩ := event_passes (q := q) h (Reader.takes_of_step hstep).2 hgoing₁
      obtain ⟨c₂, hrun₂, hm₂⟩ := ih hm hrest
      refine ⟨c₂, ?_, ?_⟩
      · rw [inOrder, Machine.runAll_append, hrun₁]
        exact hrun₂
      · have hr : reasoningOf (ev :: es) = reasoningOf [ev] ++ reasoningOf es := by
          simp [reasoningOf]
        have hc : contentOf (ev :: es) = contentOf [ev] ++ contentOf es := by
          simp [contentOf]
        rw [hr, hc, inOrder, inOrder, ← List.append_assoc, ← List.append_assoc, ← List.append_assoc]
        exact hm₂

theorem mirrors_start : Mirrors {} [] [] none [] {} ⟨.reading, [], [], []⟩ :=
  ⟨rfl, rfl, rfl, ⟨fun _ => rfl, fun _ => rfl⟩, ⟨rfl, rfl, rfl⟩⟩

/-- The usage a client is told at the end, if it asked. -/
def usageSaid (q : Setup) (a : Adapter) : Option Usage :=
  if q.includeUsage then
    some (usageOf a.promptTokens a.completionTokens (if q.enableCacheReport then a.cachedTokens else 0))
  else none

theorem closing_ends (q : Setup) (a : Adapter) {e : Ending} (hphase : c.phase = .closing e none) :
    Machine.runAll Client.step c (closing q a) = some { c with phase := .ended e (usageSaid q a) } := by
  unfold closing usageSaid
  cases q.includeUsage <;> simp [Machine.runAll, Client.step, hphase]

/-- Where a client is at the end of the stream: a failure that is no `GenerationError` ends nothing. -/
def endPhase (q : Setup) (done : Option GenDone) : Except Halt Unit → Phase
  | .ok () =>
      done.elim .reading fun d =>
        .ended (.finished d.finishReason)
          (if q.includeUsage then
            some (usageOf d.promptTokens d.completionTokens
              (if q.enableCacheReport then d.cachedTokens else 0))
          else none)
  | .error .waits => .reading
  | .error (.generationError message code) =>
      .ended (.failed message "invalid_request_error".toList code)
        (if q.includeUsage then some (usageOf 0 0 0) else none)
  | .error (.exception _) => .reading

theorem onEnd_reads (h : Mirrors r reasoning content w calls a c) (x : Halt) :
    Machine.runAll Client.step c (onEnd q a (.error x)) =
      some { c with phase := endPhase q none (.error x) } := by
  have hreading : c.phase = .reading := by rw [h.client]
  have hsame : ({ c with phase := .reading } : Client) = c := by rw [← hreading]
  cases x with
  | waits => rw [endPhase, hsame, onEnd, Machine.runAll]
  | exception message => rw [endPhase, hsame, onEnd, Machine.runAll]
  | generationError message code =>
      have hfail : Client.step c (.error message "invalid_request_error".toList code) =
          some { c with phase := .closing (.failed message "invalid_request_error".toList code) none } := by
        simp only [Client.step, hreading]
      have hcloses := closing_ends q a (e := .failed message "invalid_request_error".toList code)
        (c := { c with phase := .closing (.failed message "invalid_request_error".toList code) none }) rfl
      obtain ⟨hp, hc, hk⟩ := h.totals
      rw [onEnd, Machine.runAll, hfail, Option.bind_some, hcloses, usageSaid, hp, hc, hk, ite_self]
      rfl

theorem onDone_reads (h : Mirrors r reasoning content w calls a c) (d : GenDone) :
    (Machine.runAll Client.step c (onEvent q a (.genDone d)).2).bind
      (fun c => Machine.runAll Client.step c (onEnd q (onEvent q a (.genDone d)).1 (.ok ()))) =
        some { c with phase := endPhase q (some d) (.ok ()) } := by
  have hreading : c.phase = .reading := by rw [h.client]
  have hfinish : Client.step c (.finish d.finishReason) =
      some { c with phase := .closing (.finished d.finishReason) none } := by
    simp only [Client.step, hreading]
  have hcloses := closing_ends q (onEvent q a (.genDone d)).1 (e := .finished d.finishReason)
    (c := { c with phase := .closing (.finished d.finishReason) none }) rfl
  simp only [onEvent, Machine.runAll, hfinish, Option.bind_some]
  exact hcloses

end OpenAI

end FreeToken
