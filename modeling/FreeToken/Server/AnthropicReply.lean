import FreeToken.Server.AnthropicStream
import FreeToken.Server.BlockAdapter

/-!
# An Anthropic client reads the reply

The adapter's open block is the client's, and each helper writes what it stands for.
-/

set_option autoImplicit false

namespace FreeToken

open BlockStream Generation
open Generator (inOrder Emits)

namespace Anthropic

/-- The adapter knows which block of the view is open. -/
structure Shows (a : Adapter) (v : View Part) : Prop where
  index : a.blockIndex = v.closed.length
  kind : a.blockOpen = v.current.map Part.kind

/-- The frames take a reading client from one view to another, which the adapter then shows. -/
structure Writes (v : View Part) (out : Adapter × List Frame) (v' : View Part) : Prop where
  run : Machine.runAll Client.step ⟨.reading, v⟩ out.2 = some ⟨.reading, v'⟩
  shows' : Shows out.1 v'

variable {a : Adapter} {v v' v'' : View Part} {out next : Adapter × List Frame}

theorem Writes.nothing (h : Shows a v) : Writes v (a, []) v := ⟨rfl, h⟩

theorem Writes.append (h : Writes v out v') (hnext : Writes v' next v'') :
    Writes v (next.1, out.2 ++ next.2) v'' := by
  refine ⟨?_, hnext.shows'⟩
  rw [Machine.runAll_append, h.run]
  exact hnext.run

theorem run_start {i : Nat} (hi : i = v.closed.length) (h : v.current = none) (b : ContentBlock) :
    Machine.runAll Client.step ⟨.reading, v⟩ [.contentBlockStart i b] =
      some ⟨.reading, { v with current := some b.part }⟩ := by
  rw [hi]
  simp [Machine.runAll, Client.step, Client.block, View.step_start h]

theorem run_delta {i : Nat} {b b' : Part} {d : Delta} (hi : i = v.closed.length)
    (h : v.current = some b) (hd : extend b d = some b') :
    Machine.runAll Client.step ⟨.reading, v⟩ [.contentBlockDelta i d] =
      some ⟨.reading, { v with current := some b' }⟩ := by
  rw [hi]
  simp [Machine.runAll, Client.step, Client.block, View.step_delta h hd]

theorem run_stop {i : Nat} {b : Part} (hi : i = v.closed.length) (h : v.current = some b) :
    Machine.runAll Client.step ⟨.reading, v⟩ [.contentBlockStop i] =
      some ⟨.reading, ⟨v.closed ++ [b], none⟩⟩ := by
  rw [hi]
  simp [Machine.runAll, Client.step, Client.block, View.step_stop h]

/-! ## What the helpers write -/

theorem stopBlock_writes (hs : Shows a v) {b : Part} (h : v.current = some b) :
    Writes v (stopBlock a) ⟨v.closed ++ [b], none⟩ := by
  have hkind : a.blockOpen = some b.kind := by rw [hs.kind, h, Option.map_some]
  refine ⟨?_, ⟨?_, rfl⟩⟩
  · unfold stopBlock
    dsimp only
    rw [Machine.runAll_append]
    have hsign : Machine.runAll Client.step ⟨.reading, v⟩
        (if a.blockOpen = some .reasoning then [.contentBlockDelta a.blockIndex .signature] else []) =
          some ⟨.reading, v⟩ := by
      split
      · rename_i hthinking
        rw [hkind, Option.some_inj] at hthinking
        cases b with
        | reasoning text =>
            have hv : ({ v with current := some (.reasoning text) } : View Part) = v := by rw [← h]
            have hsame : extend (.reasoning text) .signature = some (.reasoning text) := rfl
            rw [run_delta hs.index h hsame, hv]
        | content text => cases hthinking
        | call name args => cases hthinking
      · rfl
    rw [hsign, Option.bind_some]
    exact run_stop hs.index h
  · rw [stopBlock, List.length_append, ← hs.index]
    rfl

theorem stopOpen_writes (hs : Shows a v) : Writes v (stopOpen a) ⟨v.all, none⟩ := by
  unfold stopOpen
  cases h : v.current with
  | none =>
      have hopen : a.blockOpen = none := by rw [hs.kind, h, Option.map_none]
      have hv : (⟨v.all, none⟩ : View Part) = v := by
        rw [View.all_of_none h, ← h]
      rw [hopen, if_neg (by simp), hv]
      exact Writes.nothing hs
  | some b =>
      have hopen : a.blockOpen = some b.kind := by rw [hs.kind, h, Option.map_some]
      rw [hopen, if_pos Option.isSome_some, View.all_of_some h]
      exact stopBlock_writes hs h

theorem start_writes (hs : Shows a v) (h : v.current = none) (b : ContentBlock)
    {a' : Adapter} (hindex : a'.blockIndex = a.blockIndex) (hkind : a'.blockOpen = some b.part.kind) :
    Writes v (a', [.contentBlockStart a.blockIndex b]) { v with current := some b.part } := by
  refine ⟨run_start hs.index h b, ⟨?_, ?_⟩⟩
  · rw [hindex, hs.index]
  · rw [hkind, Option.map_some]

theorem ensureOpen_writes (hs : Shows a v) (b : ContentBlock)
    (hne : v.current.map Part.kind ≠ some b.part.kind) :
    Writes v (ensureOpen a b.part.kind b) ⟨v.all, some b.part⟩ := by
  have hopen : a.blockOpen ≠ some b.part.kind := by rwa [hs.kind]
  unfold ensureOpen
  rw [if_neg hopen]
  have hstop := stopOpen_writes hs
  have hstart : Writes ⟨v.all, none⟩ ({ (stopOpen a).1 with blockOpen := some b.part.kind },
      [.contentBlockStart (stopOpen a).1.blockIndex b]) ⟨v.all, some b.part⟩ :=
    start_writes hstop.shows' rfl b rfl rfl
  exact hstop.append hstart

theorem openTool_writes (q : Setup) (hs : Shows a v) (name : Option Text) (ordinal : Int)
    (stable : Bool) : Writes v (openTool q a name ordinal stable) ⟨v.all, some (.call name [])⟩ := by
  unfold openTool
  have hstop := stopOpen_writes hs
  have hstart : Writes ⟨v.all, none⟩ ({ (stopOpen a).1 with
        blockOpen := some .call, toolArgsSent := [], toolOrdinal := some ordinal, toolStable := stable },
      [.contentBlockStart (stopOpen a).1.blockIndex
        (.toolUse (toolUseId (q.hex (stopOpen a).1.blockIndex) name (stopOpen a).1.blockIndex) name)])
      ⟨v.all, some (.call name [])⟩ :=
    start_writes hstop.shows' rfl (.toolUse _ name) rfl rfl
  exact hstop.append hstart

theorem delta_writes (hs : Shows a v) {b b' : Part} {d : Delta} (h : v.current = some b)
    (hd : extend b d = some b') {a' : Adapter} (hindex : a'.blockIndex = a.blockIndex)
    (hkind : a'.blockOpen = a.blockOpen) (hb : b'.kind = b.kind) :
    Writes v (a', [.contentBlockDelta a.blockIndex d]) { v with current := some b' } := by
  refine ⟨run_delta hs.index h hd, ⟨?_, ?_⟩⟩
  · rw [hindex, hs.index]
  · rw [hkind, hs.kind, h, Option.map_some, Option.map_some, hb]

theorem toolArgsDelta_writes (hs : Shows a v) {name : Option Text} {sent : Text}
    (h : v.current = some (.call name sent)) (fragment : Text) :
    Writes v (toolArgsDelta a fragment) { v with current := some (.call name (sent ++ fragment)) } :=
  delta_writes hs h rfl rfl rfl rfl

theorem topUpArgs_writes (hs : Shows a v) {name : Option Text}
    (h : v.current = some (.call name a.toolArgsSent)) (final : Text) :
    Writes v (topUpArgs a final)
      { v with current := some (.call name (topUp a.toolArgsSent final)) } := by
  unfold topUpArgs topUp
  by_cases hpre : a.toolArgsSent <+: final
  · have heq : a.toolArgsSent ++ final.drop a.toolArgsSent.length = final :=
      List.prefix_append_drop hpre |>.symm
    rw [if_pos hpre]
    split
    · have hwrites := toolArgsDelta_writes hs h (final.drop a.toolArgsSent.length)
      rwa [heq] at hwrites
    · rename_i hnot
      have hnil : final.drop a.toolArgsSent.length = [] := by
        by_contra hne
        exact hnot ⟨hpre, hne⟩
      rw [hnil, List.append_nil] at heq
      have hv : ({ v with current := some (.call name final) } : View Part) = v := by
        rw [← heq, ← h]
      rw [hv]
      exact Writes.nothing hs
  · have hv : ({ v with current := some (.call name a.toolArgsSent) } : View Part) = v := by rw [← h]
    rw [if_neg hpre, if_neg (fun hboth => hpre hboth.1), hv]
    exact Writes.nothing hs

/-- The open call is closed with the rest of its arguments. -/
theorem closeCall_open (q : Setup) (hs : Shows a v) {name : Option Text}
    (h : v.current = some (.call name a.toolArgsSent)) {call : CallItem}
    (hord : a.toolOrdinal = some call.toolIndex) :
    Writes v (closeCall q a call)
      ⟨v.closed ++ [.call name (topUp a.toolArgsSent call.parameters)], none⟩ := by
  have hopen : a.blockOpen = some .call := by rw [hs.kind, h, Option.map_some, Part.kind]
  unfold closeCall
  rw [if_pos ⟨hopen, hord⟩]
  have hsent := topUpArgs_writes hs h call.parameters
  exact hsent.append (stopBlock_writes hsent.shows' rfl)

/-- A call that is not open is written whole. -/
theorem closeCall_whole (q : Setup) (hs : Shows a v) (hopen : a.blockOpen ≠ some .call)
    (call : CallItem) :
    Writes v (closeCall q a call) ⟨v.all ++ [.call call.name call.parameters], none⟩ := by
  unfold closeCall
  rw [if_neg fun hboth => hopen hboth.1]
  have hstart := openTool_writes q hs call.name call.toolIndex true
  have hsent := toolArgsDelta_writes hstart.shows' rfl call.parameters
  have hwhole := hstart.append hsent
  exact hwhole.append (stopBlock_writes hsent.shows' rfl)

/-- Calls that are not open are written one after the other. -/
theorem whole_writes (q : Setup) (hs : Shows a v) (hopen : a.blockOpen ≠ some .call)
    {cs : List CallItem} (hne : cs ≠ []) :
    Writes v (inOrder (closeCall q) a cs)
      ⟨v.all ++ cs.map (fun item => .call item.name item.parameters), none⟩ := by
  induction cs generalizing a v with
  | nil => exact absurd rfl hne
  | cons c cs ih =>
      have hone := closeCall_whole q hs hopen c
      by_cases hnil : cs = []
      · subst hnil
        exact hone.append (Writes.nothing hone.shows')
      · have hnone : (closeCall q a c).1.blockOpen ≠ some .call := by
          rw [hone.shows'.kind]
          simp
        have hrest := ih hone.shows' hnone hnil
        have hall : (⟨v.all ++ [.call c.name c.parameters], none⟩ : View Part).all =
            v.all ++ [.call c.name c.parameters] := View.all_of_none rfl
        rw [hall, List.append_assoc, List.singleton_append] at hrest
        exact hone.append hrest

/-! ## The protocol -/

/-- How the Messages API delivers calls: fragments that are prefix stable, and the rest. -/
def delivery : Delivery := ⟨fun name => name, fun stable => stable, topUp⟩

/-- The client reads with the view; the adapter knows the open block, and of a call what was sent. -/
structure Has (v : View Part) (a : Adapter) (c : Client) : Prop where
  reading : c = ⟨.reading, v⟩
  shows' : Shows a v
  sent : ∀ name args, v.current = some (.call name args) → a.toolArgsSent = args

theorem Has.noCall {c : Client} (h : Has v a c) (hcur : v.current.map Part.kind ≠ some .call) :
    a.blockOpen ≠ some .call := by
  rwa [h.shows'.kind]

theorem Writes.emits {c : Client} {P : Adapter → Prop} (h : Has v a c) (hw : Writes v out v')
    (hsent : ∀ name args, v'.current = some (.call name args) → out.1.toolArgsSent = args)
    (hp : P out.1) : Emits Client.step (fun a' c' => Has v' a' c' ∧ P a') c out := by
  refine ⟨⟨.reading, v'⟩, ?_, ⟨rfl, hw.shows', hsent⟩, hp⟩
  rw [h.reading]
  exact hw.run

theorem Writes.emits' {c : Client} (h : Has v a c) (hw : Writes v out v')
    (hsent : ∀ name args, v'.current = some (.call name args) → out.1.toolArgsSent = args) :
    Emits Client.step (Has v') c out := by
  apply (hw.emits (P := fun _ => True) h hsent trivial).mono
  exact fun _ h' => h'.1

/-- A text of a kind goes to the open block of the kind. -/
theorem same_writes (hs : Shows a v) (block : ContentBlock) {b : Part} (b' : Part) (d : Delta)
    (h : v.current = some b) (hb : b.kind = block.part.kind) (hd : extend b d = some b')
    (hb' : b'.kind = b.kind) :
    Writes v ((ensureOpen a block.part.kind block).1, (ensureOpen a block.part.kind block).2 ++
      [.contentBlockDelta (ensureOpen a block.part.kind block).1.blockIndex d])
        { v with current := some b' } := by
  have hopen : ensureOpen a block.part.kind block = (a, []) := by
    rw [ensureOpen, if_pos]
    rw [hs.kind, h, Option.map_some, hb]
  rw [hopen, List.nil_append]
  exact delta_writes hs h hd rfl rfl hb'

/-- A text of a kind goes to a new block behind another kind. -/
theorem new_writes (hs : Shows a v) (block : ContentBlock) (b' : Part) (d : Delta)
    (hne : v.current.map Part.kind ≠ some block.part.kind) (hd : extend block.part d = some b')
    (hb' : b'.kind = block.part.kind) :
    Writes v ((ensureOpen a block.part.kind block).1, (ensureOpen a block.part.kind block).2 ++
      [.contentBlockDelta (ensureOpen a block.part.kind block).1.blockIndex d]) ⟨v.all, some b'⟩ := by
  have hopen := ensureOpen_writes hs block hne
  have hdelta := delta_writes hopen.shows' rfl hd rfl rfl hb'
  exact hopen.append hdelta

/-- The adapter and the client keep the block protocol. -/
def protocol (q : Setup) : BlockProtocol Adapter Frame Client where
  dv := delivery
  onEvent := onEvent q
  step := Client.step
  Has := Has
  ordinal := Adapter.toolOrdinal
  passing := Adapter.toolStable
  empty_content _ := rfl
  reasoning_same text h hcur hne := by
    rw [onEvent, if_neg hne]
    exact (same_writes h.shows' .thinking _ (.thinking text) hcur rfl rfl rfl).emits' h fun _ _ heq => by cases heq
  reasoning_new text h hcur hne := by
    rw [onEvent, if_neg hne]
    exact (new_writes h.shows' .thinking (.reasoning text) (.thinking text) hcur rfl rfl).emits' h fun _ _ heq => by cases heq
  content_same text h hcur hne := by
    rw [onEvent, if_neg hne]
    exact (same_writes h.shows' .text _ (.text text) hcur rfl rfl rfl).emits' h fun _ _ heq => by cases heq
  content_new text h hcur hne := by
    rw [onEvent, if_neg hne]
    exact (new_writes h.shows' .text (.content text) (.text text) hcur rfl rfl).emits' h fun _ _ heq => by cases heq
  start i name st h :=
    (openTool_writes q h.shows' name i st).emits h (fun _ _ heq => by cases heq; rfl) ⟨rfl, rfl⟩
  args_on i fragment h hcur hforwards := by
    have hkind : _ = some PartKind.call := h.shows'.kind.trans (by rw [hcur]; rfl)
    rw [onEvent, if_pos ⟨hkind, hforwards⟩]
    refine (toolArgsDelta_writes h.shows' hcur fragment).emits h (fun _ _ heq => ?_) ⟨rfl, rfl⟩
    cases heq
    rw [toolArgsDelta, h.sent _ _ hcur]
  args_off i fragment h hoff := by
    rw [onEvent, if_neg]
    rintro ⟨hkind, hstable⟩
    rcases hoff with hcur | hforwards
    · exact h.noCall hcur hkind
    · exact absurd (hforwards.symm.trans hstable) Bool.false_ne_true
  close item h hcur hord := by
    have hsent := h.sent _ _ hcur
    rw [← hsent] at hcur ⊢
    have hone := closeCall_open q h.shows' hcur hord
    exact (hone.append (Writes.nothing hone.shows')).emits' h fun _ _ heq => by cases heq
  whole cs h hcur hne :=
    (whole_writes q h.shows' (h.noCall hcur) hne).emits' h fun _ _ heq => by cases heq

/-! ## The whole stream -/

theorem ping_has (q : Setup) {c : Client} (h : Has v a c) :
    Emits Client.step (fun a' c' => Has v a' c' ∧ a'.toolOrdinal = a.toolOrdinal ∧
      a'.toolStable = a.toolStable) c (onSignal q a .keepalive) := by
  refine ⟨c, ?_, h, rfl, rfl⟩
  rw [h.reading]
  rfl

theorem start_has : Has {} {} ⟨.reading, {}⟩ where
  reading := rfl
  shows' := ⟨rfl, rfl⟩
  sent _ _ heq := by cases heq

/-- Where a client is at the end of the stream. -/
def endPhase (q : Setup) (done : Option GenDone) : Except Halt Unit → Phase
  | .ok () =>
      done.elim .reading fun d =>
        .ended (.stopped (anthropicStop d.finishReason d.matchedStop).1
          (anthropicStop d.finishReason d.matchedStop).2
          (anthropicUsage d.promptTokens d.completionTokens d.cachedTokens q.cacheReport))
  | .error .waits => .reading
  | .error (.generationError message _) => .ended (.failed "invalid_request_error".toList message)
  | .error (.exception message) => .ended (.failed "internal_error".toList message)

/-- An exception stops the open block and ends the stream. -/
theorem onEnd_reads (q : Setup) (h : Shows a v) (x : Halt) :
    ∃ v', Machine.runAll Client.step ⟨.reading, v⟩ (onEnd a (.error x)) =
      some ⟨endPhase q none (.error x), v'⟩ ∧ v'.all = v.all := by
  have hstop := (stopOpen_writes h).run
  have hall : (⟨v.all, none⟩ : View Part).all = v.all := View.all_of_none rfl
  cases x with
  | waits => exact ⟨v, rfl, rfl⟩
  | generationError message code =>
      refine ⟨⟨v.all, none⟩, ?_, hall⟩
      rw [onEnd, Machine.runAll_append, hstop]
      rfl
  | exception message =>
      refine ⟨⟨v.all, none⟩, ?_, hall⟩
      rw [onEnd, Machine.runAll_append, hstop]
      rfl

/-- The end stops the open block, and the message. -/
theorem onDone_reads (q : Setup) (h : Shows a v) (d : GenDone) :
    Machine.runAll Client.step ⟨.reading, v⟩ (onEvent q a (.genDone d)).2 =
      some ⟨endPhase q (some d) (.ok ()), ⟨v.all, none⟩⟩ := by
  rw [onEvent, Machine.runAll_append, (stopOpen_writes h).run]
  rfl

end Anthropic

end FreeToken
