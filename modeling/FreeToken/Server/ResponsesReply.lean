import FreeToken.Server.BlockAdapter
import FreeToken.Server.ResponsesStream

/-!
# A Responses client reads the reply

The client's response is the adapter's: the done items, and the current one with what was sent of it.
-/

set_option autoImplicit false

namespace FreeToken

open BlockStream Generation
open Generator (inOrder Emits)

namespace Responses

def Item.part : Item → Part
  | reasoning _ text _ => .reasoning text
  | message _ text _ => .content text
  | functionCall _ _ name args _ => .call (some name) args

/-- The response of a client that has read everything. -/
def responseOf (a : Adapter) : Response :=
  ⟨.reading, a.outputItems, a.current.map fun cur => (cur.item .inProgress, .ready)⟩

def clientOf (a : Adapter) : Client := ⟨a.seq, responseOf a⟩

/-- The parts the adapter has written. -/
def viewOf (a : Adapter) : View Part :=
  ⟨a.outputItems.map Item.part, a.current.map fun cur => (cur.item .inProgress).part⟩

/-- The next item has the next place. -/
def Placed (a : Adapter) : Prop := a.outputIndex = a.outputItems.length

/-- A client that has read everything reads the frames too. -/
structure Writes (a : Adapter) (out : Adapter × List Frame) : Prop where
  run : Machine.runAll Client.step (clientOf a) out.2 = some (clientOf out.1)
  placed : Placed out.1

variable {a x : Adapter} {out next : Adapter × List Frame}

theorem Writes.nothing (h : Placed a) : Writes a (a, []) := ⟨rfl, h⟩

theorem Writes.append (h : Writes a out) (hnext : Writes out.1 next) :
    Writes a (next.1, out.2 ++ next.2) := by
  refine ⟨?_, hnext.placed⟩
  rw [Machine.runAll_append, h.run]
  exact hnext.run

/-- Frames with the next numbers are read as what they carry. -/
theorem run_numbered {k k' : Response} {bodies : List Body} (n : Nat)
    (h : Machine.runAll Response.step k bodies = some k') :
    Machine.runAll Client.step ⟨n, k⟩ ((bodies.zipIdx n).map fun p => ⟨p.2, p.1⟩) =
      some ⟨n + bodies.length, k'⟩ := by
  induction bodies generalizing n k with
  | nil =>
      cases h
      rfl
  | cons body bodies ih =>
      obtain ⟨k₁, hstep, hrest⟩ := Option.bind_eq_some_iff.1 h
      have hone : Client.step ⟨n, k⟩ ⟨n, body⟩ = some ⟨n + 1, k₁⟩ := by simp [Client.step, hstep]
      rw [List.zipIdx_cons, List.map_cons, Machine.runAll, hone, Option.bind_some, ih (n + 1) hrest,
        List.length_cons, Nat.add_assoc, Nat.add_comm 1]

theorem run_sse {k k' : Response} {bodies : List Body} (x : Adapter)
    (h : Machine.runAll Response.step k bodies = some k') :
    Machine.runAll Client.step ⟨x.seq, k⟩ (sse x bodies).2 = some ⟨(sse x bodies).1.seq, k'⟩ :=
  run_numbered x.seq h

theorem sse_writes {bodies : List Body} (hseq : x.seq = a.seq)
    (hrun : Machine.runAll Response.step (responseOf a) bodies = some (responseOf x))
    (hplaced : Placed x) : Writes a (sse x bodies) := by
  refine ⟨?_, hplaced⟩
  rw [clientOf, ← hseq]
  exact run_sse x hrun

/-! ## What the helpers write -/

theorem item_withStatus (cur : Current) (status status' : Status) :
    (cur.item status).withStatus status' = cur.item status' := by
  cases cur <;> rfl

theorem item_part (cur : Current) (status : Status) :
    (cur.item status).part = (cur.item .inProgress).part := by
  cases cur <;> rfl

theorem doneStatus_ne (finishReason : Text) (cur : Current) :
    cur.item (doneStatus finishReason cur) ≠ cur.item .inProgress := by
  cases cur with
  | reasoning id text => simp [Current.item, doneStatus]
  | functionCall id callId name args ordinal => simp [Current.item, doneStatus]
  | message id text =>
      simp only [Current.item, doneStatus]
      split <;> simp

theorem stepReading_of {items : List Item} {cur : Option (Item × Stage)} {body : Body} :
    Response.step ⟨.reading, items, cur⟩ body = Response.stepReading ⟨.reading, items, cur⟩ body := by
  cases body <;> rfl

/-- The last frames of an item bring it to its end. -/
theorem run_doneFrames (items : List Item) (cur : Current) :
    Machine.runAll Response.step ⟨.reading, items, some (cur.item .inProgress, .ready)⟩
      (doneFrames items.length cur) =
        some ⟨.reading, items, some (cur.item .inProgress, .finished)⟩ := by
  cases cur <;> simp [doneFrames, Machine.runAll, stepReading_of, Response.stepReading,
    Response.onCurrent, Current.item, Item.id]

theorem closeCurrent_writes (h : Placed a) : Writes a (closeCurrent a) := by
  unfold closeCurrent
  cases hcur : a.current with
  | none => exact Writes.nothing h
  | some cur =>
      refine sse_writes ?_ ?_ ?_
      · rfl
      · have hdone := run_doneFrames a.outputItems cur
        have hk : responseOf a = ⟨.reading, a.outputItems, some (cur.item .inProgress, .ready)⟩ := by
          rw [responseOf, hcur, Option.map_some]
        rw [Machine.runAll_append, hk, h, hdone, Option.bind_some]
        simp [Machine.runAll, stepReading_of, Response.stepReading, item_withStatus,
          doneStatus_ne, responseOf]
      · unfold Placed at h ⊢
        simp [h]

theorem closeCurrent_current (a : Adapter) : (closeCurrent a).1.current = none := by
  unfold closeCurrent
  cases hcur : a.current with
  | none => exact hcur
  | some cur => rfl

theorem viewOf_closeCurrent (a : Adapter) : viewOf (closeCurrent a).1 = ⟨(viewOf a).all, none⟩ := by
  unfold closeCurrent
  cases hcur : a.current with
  | none => simp [viewOf, View.all, hcur]
  | some cur => simp [viewOf, View.all, hcur, sse, item_part]

/-- A new item is added with the frames that make it ready. -/
theorem openItem_writes (h : Placed a) (cur : Nat → Current) (more : Nat → List Body)
    (hready : ∀ items, Machine.runAll Response.step ⟨.reading, items, none⟩
      (.outputItemAdded items.length ((cur items.length).item .inProgress) :: more items.length) =
        some ⟨.reading, items, some ((cur items.length).item .inProgress, .ready)⟩) :
    Writes a (openItem a cur more) := by
  unfold openItem
  have hclose := closeCurrent_writes h
  apply hclose.append
  refine sse_writes ?_ ?_ ?_
  · rfl
  · have hk : responseOf (closeCurrent a).1 = ⟨.reading, (closeCurrent a).1.outputItems, none⟩ := by
      rw [responseOf, closeCurrent_current, Option.map_none]
    have hplaced := hclose.placed
    unfold Placed at hplaced
    rw [hk, hplaced]
    exact hready _
  · exact hclose.placed

theorem viewOf_openItem (a : Adapter) (cur : Nat → Current) (more : Nat → List Body) :
    viewOf (openItem a cur more).1 =
      ⟨(viewOf a).all, some ((cur (closeCurrent a).1.outputIndex).item .inProgress).part⟩ := by
  have h := congrArg View.closed (viewOf_closeCurrent a)
  have hclosed : (viewOf (openItem a cur more).1).closed = (viewOf a).all := h
  rw [← hclosed]
  rfl

theorem openFunctionCall_writes (q : Setup) (h : Placed a) (name : Text) (ordinal : Int) :
    Writes a (openFunctionCall q a name ordinal) := by
  apply openItem_writes h
  intro items
  simp [Machine.runAll, stepReading_of, Response.stepReading, Current.item, Item.added]

theorem addText_writes (h : Placed a) (text : Text) : Writes a (addText a text) := by
  unfold addText
  split
  · rename_i id before hcur
    refine sse_writes ?_ ?_ ?_
    · rfl
    · unfold Placed at h
      simp [Machine.runAll, stepReading_of, Response.stepReading, Response.onCurrent, responseOf, hcur,
        Current.item, Item.id, h]
    · exact h
  · rename_i id before hcur
    refine sse_writes ?_ ?_ ?_
    · rfl
    · unfold Placed at h
      simp [Machine.runAll, stepReading_of, Response.stepReading, Response.onCurrent, responseOf, hcur,
        Current.item, Item.id, h]
    · exact h
  · exact Writes.nothing h

theorem addArgs_writes (h : Placed a) (fragment : Text) : Writes a (addArgs a fragment) := by
  unfold addArgs
  split
  · rename_i id callId name args ordinal hcur
    refine sse_writes ?_ ?_ ?_
    · rfl
    · unfold Placed at h
      simp [Machine.runAll, stepReading_of, Response.stepReading, Response.onCurrent, responseOf, hcur,
        Current.item, Item.id, h]
    · exact h
  · exact Writes.nothing h

/-- The open call is closed: the fragments reach the final arguments or are no prefix of them. -/
theorem closeCall_open (q : Setup) (h : Placed a) {id callId name args : Text} {ordinal : Int}
    (hcur : a.current = some (.functionCall id callId name args ordinal)) {call : CallItem}
    (hindex : ordinal = call.toolIndex) :
    Writes a (closeCall q a call) ∧ (closeCall q a call).1.current = none ∧
      viewOf (closeCall q a call).1 =
        ⟨a.outputItems.map Item.part ++ [.call (some name) call.parameters], none⟩ := by
  have hopen : isOpen a call.toolIndex = true := by simp [isOpen, hcur, hindex]
  have hk : responseOf a = ⟨.reading, a.outputItems,
      some (.functionCall id callId name args .inProgress, .ready)⟩ := by
    rw [responseOf, hcur, Option.map_some]
    rfl
  unfold closeCall
  rw [if_pos hopen]
  unfold finishArgs
  rw [hcur]
  dsimp only
  have hsent : Machine.runAll Response.step (responseOf a)
      (if args <+: call.parameters ∧ call.parameters.drop args.length ≠ [] then
        [.functionCallArgumentsDelta id a.outputIndex (call.parameters.drop args.length)] else []) =
      some ⟨.reading, a.outputItems,
        some (.functionCall id callId name (topUp args call.parameters) .inProgress, .ready)⟩ := by
    rw [hk]
    unfold Placed at h
    by_cases hpre : args <+: call.parameters
    · have heq : args ++ call.parameters.drop args.length = call.parameters :=
        (List.prefix_append_drop hpre).symm
      by_cases hnil : call.parameters.drop args.length = []
      · rw [hnil, List.append_nil] at heq
        rw [if_neg fun hboth => hboth.2 hnil, topUp, if_pos hpre, ← heq]
        rfl
      · rw [if_pos ⟨hpre, hnil⟩, topUp, if_pos hpre]
        simp [Machine.runAll, stepReading_of, Response.stepReading, Response.onCurrent, Item.id, h, heq]
    · rw [if_neg fun hboth => hpre hboth.1, topUp, if_neg hpre]
      rfl
  have hchecks : topUp args call.parameters <+: call.parameters →
      topUp args call.parameters = call.parameters := by
    unfold topUp
    split
    · exact fun _ => rfl
    · rename_i hnot
      exact fun hpre => absurd hpre hnot
  refine ⟨⟨?_, ?_⟩, rfl, ?_⟩
  · rw [clientOf, Machine.runAll_append]
    refine Option.bind_eq_some_iff.2 ⟨_, run_sse { a with
      current := some (.functionCall id callId name call.parameters ordinal) } hsent, ?_⟩
    have hdone : Machine.runAll Response.step ⟨.reading, a.outputItems,
        some (.functionCall id callId name (topUp args call.parameters) .inProgress, .ready)⟩
        (doneFrames a.outputIndex (.functionCall id callId name call.parameters ordinal) ++
          [.outputItemDone a.outputIndex (.functionCall id callId name call.parameters .completed)]) =
        some ⟨.reading, a.outputItems ++ [.functionCall id callId name call.parameters .completed],
          none⟩ := by
      unfold Placed at h
      simp only [doneFrames, List.cons_append, List.nil_append, Machine.runAll, stepReading_of,
        Response.stepReading, Response.onCurrent, h, Option.bind_some, Item.id, if_true, true_and]
      rw [if_pos hchecks]
      simp [stepReading_of, Response.stepReading, Item.withStatus]
    exact run_sse _ hdone
  · unfold Placed at h ⊢
    simp [closeCurrent, sse, h]
  · simp [viewOf, closeCurrent, sse, Current.item, Item.part]

/-- A call that is not open is written whole. -/
theorem closeCall_whole (q : Setup) (h : Placed a) {call : CallItem}
    (hopen : isOpen a call.toolIndex = false) :
    Writes a (closeCall q a call) ∧ (closeCall q a call).1.current = none ∧
      viewOf (closeCall q a call).1 =
        ⟨(viewOf a).all ++ [.call (some (call.name.getD [])) call.parameters], none⟩ := by
  unfold closeCall
  rw [hopen, if_neg Bool.false_ne_true]
  have hstart := openFunctionCall_writes q h (call.name.getD []) call.toolIndex
  have hsent := addArgs_writes hstart.placed call.parameters
  have hview := viewOf_openItem a (fun i => .functionCall ("fc_".toList ++ q.hex i)
    ("call_".toList ++ (q.callHex i).take 24) (call.name.getD []) [] call.toolIndex) fun _ => []
  refine ⟨(hstart.append hsent).append (closeCurrent_writes hsent.placed), closeCurrent_current _, ?_⟩
  rw [viewOf_closeCurrent]
  have hclosed : (viewOf (openFunctionCall q a (call.name.getD []) call.toolIndex).1).closed =
      (viewOf a).all := congrArg View.closed hview
  have hadd : viewOf (addArgs (openFunctionCall q a (call.name.getD []) call.toolIndex).1
      call.parameters).1 = ⟨(viewOf a).all, some (.call (some (call.name.getD [])) call.parameters)⟩ := by
    rw [← hclosed]
    rfl
  rw [hadd]
  rfl

/-- Calls that are not open are written one after the other. -/
theorem whole_writes (q : Setup) (h : Placed a)
    (hopen : (viewOf a).current.map Part.kind ≠ some .call) {cs : List CallItem} (hne : cs ≠ []) :
    Writes a (inOrder (closeCall q) a cs) ∧ viewOf (inOrder (closeCall q) a cs).1 =
      ⟨(viewOf a).all ++ cs.map (fun item => .call (some (item.name.getD [])) item.parameters), none⟩ := by
  induction cs generalizing a with
  | nil => exact absurd rfl hne
  | cons c cs ih =>
      have hclosed : isOpen a c.toolIndex = false := by
        unfold isOpen
        split
        · rename_i id callId name args ordinal hcur
          simp [viewOf, hcur, Current.item, Item.part, Part.kind] at hopen
        · rfl
      obtain ⟨hone, hcur, hview⟩ := closeCall_whole q h hclosed
      by_cases hnil : cs = []
      · subst hnil
        exact ⟨hone.append (Writes.nothing hone.placed), hview⟩
      · have hnone : (viewOf (closeCall q a c).1).current.map Part.kind ≠ some .call := by
          rw [hview]
          simp
        obtain ⟨hrest, hview'⟩ := ih hone.placed hnone hnil
        refine ⟨hone.append hrest, ?_⟩
        have hall : (⟨(viewOf a).all ++ [.call (some (c.name.getD [])) c.parameters], none⟩ :
            View Part).all = (viewOf a).all ++ [.call (some (c.name.getD [])) c.parameters] :=
          View.all_of_none rfl
        rw [hview, hall, List.append_assoc, List.singleton_append] at hview'
        exact hview'

/-! ## The protocol -/

/-- How the Responses API delivers calls: all fragments, and the final arguments with the item. -/
def delivery : Delivery := ⟨fun name => some (name.getD []), fun _ => true, fun _ final => final⟩

/-- The client has read everything the adapter wrote, which is the view. -/
structure Has (v : View Part) (a : Adapter) (c : Client) : Prop where
  client : c = clientOf a
  placed : Placed a
  view : viewOf a = v

theorem Writes.emits {v : View Part} {c : Client} {P : Adapter → Prop} (h : c = clientOf a)
    (hw : Writes a out) (hview : viewOf out.1 = v) (hp : P out.1) :
    Emits Client.step (fun a' c' => Has v a' c' ∧ P a') c out := by
  refine ⟨clientOf out.1, ?_, ⟨rfl, hw.placed, hview⟩, hp⟩
  rw [h]
  exact hw.run

theorem Writes.emits' {v : View Part} {c : Client} (h : c = clientOf a) (hw : Writes a out)
    (hview : viewOf out.1 = v) : Emits Client.step (Has v) c out := by
  apply (hw.emits (P := fun _ => True) h hview trivial).mono
  exact fun _ h' => h'.1

/-- The index of the open call. -/
def ordinalOf (a : Adapter) : Option Int :=
  match a.current with
  | some (.functionCall _ _ _ _ ordinal) => some ordinal
  | _ => none

theorem ordinalOf_call {id callId name args : Text} {ordinal : Int}
    (hcur : a.current = some (.functionCall id callId name args ordinal)) :
    ordinalOf a = some ordinal := by
  unfold ordinalOf
  rw [hcur]

theorem current_of_part {p : Part} (h : (viewOf a).current = some p) :
    ∃ cur, a.current = some cur ∧ (cur.item .inProgress).part = p :=
  Option.map_eq_some_iff.1 h

theorem current_reasoning {before : Text} (h : (viewOf a).current = some (.reasoning before)) :
    ∃ id, a.current = some (.reasoning id before) := by
  obtain ⟨cur, hcur, hpart⟩ := current_of_part h
  cases cur with
  | reasoning id text =>
      cases hpart
      exact ⟨id, hcur⟩
  | message id text => cases hpart
  | functionCall id callId name args ordinal => cases hpart

theorem current_content {before : Text} (h : (viewOf a).current = some (.content before)) :
    ∃ id, a.current = some (.message id before) := by
  obtain ⟨cur, hcur, hpart⟩ := current_of_part h
  cases cur with
  | reasoning id text => cases hpart
  | message id text =>
      cases hpart
      exact ⟨id, hcur⟩
  | functionCall id callId name args ordinal => cases hpart

theorem current_call {name : Option Text} {args : Text}
    (h : (viewOf a).current = some (.call name args)) :
    ∃ id callId name' ordinal, a.current = some (.functionCall id callId name' args ordinal) ∧
      name = some name' := by
  obtain ⟨cur, hcur, hpart⟩ := current_of_part h
  cases cur with
  | reasoning id text => cases hpart
  | message id text => cases hpart
  | functionCall id callId name' args' ordinal =>
      cases hpart
      exact ⟨id, callId, name', ordinal, hcur, rfl⟩

theorem viewOf_addReasoning {id before : Text} (hcur : a.current = some (.reasoning id before))
    (text : Text) : viewOf (addText a text).1 =
      { viewOf a with current := some (.reasoning (before ++ text)) } := by
  unfold addText
  rw [hcur]
  rfl

theorem viewOf_addContent {id before : Text} (hcur : a.current = some (.message id before))
    (text : Text) : viewOf (addText a text).1 =
      { viewOf a with current := some (.content (before ++ text)) } := by
  unfold addText
  rw [hcur]
  rfl

theorem viewOf_addArgs {id callId name args : Text} {ordinal : Int}
    (hcur : a.current = some (.functionCall id callId name args ordinal)) (fragment : Text) :
    viewOf (addArgs a fragment).1 =
      { viewOf a with current := some (.call (some name) (args ++ fragment)) } ∧
        ordinalOf (addArgs a fragment).1 = some ordinal := by
  unfold addArgs
  rw [hcur]
  exact ⟨rfl, rfl⟩

/-- Text for a new item behind another kind. -/
theorem open_writes (h : Placed a) (cur : Nat → Current) (more : Nat → List Body) (text : Text)
    (hready : ∀ items, Machine.runAll Response.step ⟨.reading, items, none⟩
      (.outputItemAdded items.length ((cur items.length).item .inProgress) :: more items.length) =
        some ⟨.reading, items, some ((cur items.length).item .inProgress, .ready)⟩) :
    Writes a ((addText (openItem a cur more).1 text).1,
      (openItem a cur more).2 ++ (addText (openItem a cur more).1 text).2) :=
  have hopen := openItem_writes h cur more hready
  hopen.append (addText_writes hopen.placed text)

/-- The adapter and the client keep the block protocol. -/
def protocol (q : Setup) : BlockProtocol Adapter Frame Client where
  dv := delivery
  onEvent := onEvent q
  step := Client.step
  Has := Has
  ordinal := ordinalOf
  passing _ := true
  empty_content _ := rfl
  reasoning_same text h hcur hne := by
    rw [← h.view] at hcur ⊢
    obtain ⟨id, hid⟩ := current_reasoning hcur
    rw [onEvent, if_neg hne, openReasoning, hid]
    exact (addText_writes h.placed text).emits' h.client (viewOf_addReasoning hid text)
  reasoning_new {v a c} text h hcur hne := by
    rw [← h.view] at hcur ⊢
    have hopen : openReasoning q a = openItem a (fun i => .reasoning ("rs_".toList ++ q.hex i) [])
        fun _ => [] := by
      unfold openReasoning
      split
      · rename_i id before hid
        simp [viewOf, hid, Current.item, Item.part, Part.kind] at hcur
      · rfl
    rw [onEvent, if_neg hne, hopen]
    refine (open_writes h.placed _ _ text ?_).emits' h.client ?_
    · intro items
      simp [Machine.runAll, stepReading_of, Response.stepReading, Current.item, Item.added]
    · have hclosed := congrArg View.closed (viewOf_openItem a
        (fun i => .reasoning ("rs_".toList ++ q.hex i) []) fun _ => [])
      dsimp only at hclosed
      rw [← hclosed]
      rfl
  content_same text h hcur hne := by
    rw [← h.view] at hcur ⊢
    obtain ⟨id, hid⟩ := current_content hcur
    rw [onEvent, if_neg hne, openMessage, hid]
    exact (addText_writes h.placed text).emits' h.client (viewOf_addContent hid text)
  content_new {v a c} text h hcur hne := by
    rw [← h.view] at hcur ⊢
    have hopen : openMessage q a = openItem a (fun i => .message ("msg_".toList ++ q.hex i) [])
        fun i => [.contentPartAdded ("msg_".toList ++ q.hex i) i] := by
      unfold openMessage
      split
      · rename_i id before hid
        simp [viewOf, hid, Current.item, Item.part, Part.kind] at hcur
      · rfl
    rw [onEvent, if_neg hne, hopen]
    refine (open_writes h.placed _ _ text ?_).emits' h.client ?_
    · intro items
      simp [Machine.runAll, stepReading_of, Response.stepReading, Response.onCurrent, Current.item,
        Item.added, Item.id]
    · have hclosed := congrArg View.closed (viewOf_openItem a
        (fun i => .message ("msg_".toList ++ q.hex i) [])
        fun i => [.contentPartAdded ("msg_".toList ++ q.hex i) i])
      dsimp only at hclosed
      rw [← hclosed]
      rfl
  start i name st h := by
    rw [← h.view]
    refine (openFunctionCall_writes q h.placed (name.getD []) i).emits h.client ?_ ⟨rfl, rfl⟩
    exact viewOf_openItem _ _ _
  args_on i fragment h hcur _ := by
    rw [← h.view] at hcur ⊢
    obtain ⟨id, callId, name', ordinal, hid, hname⟩ := current_call hcur
    obtain ⟨hview, hord⟩ := viewOf_addArgs hid fragment
    rw [hname]
    exact (addArgs_writes h.placed fragment).emits h.client hview
      ⟨hord.trans (ordinalOf_call hid).symm, rfl⟩
  args_off i fragment h hoff := by
    rw [← h.view] at hoff
    rw [onEvent, addArgs]
    split
    · rename_i id callId name args ordinal hid
      rcases hoff with hcur | hpass
      · simp [viewOf, hid, Current.item, Item.part, Part.kind] at hcur
      · cases hpass
    · rfl
  close item h hcur hord := by
    rw [← h.view] at hcur ⊢
    obtain ⟨id, callId, name', ordinal, hid, hname⟩ := current_call hcur
    rw [ordinalOf_call hid] at hord
    obtain ⟨hone, -, hview⟩ := closeCall_open q h.placed hid (Option.some_inj.1 hord)
    rw [hname]
    exact (hone.append (Writes.nothing hone.placed)).emits' h.client hview
  whole cs h hcur hne := by
    rw [← h.view] at hcur ⊢
    obtain ⟨hwrites, hview⟩ := whole_writes q h.placed hcur hne
    exact hwrites.emits' h.client hview

/-! ## The whole stream -/

theorem silent_has (q : Setup) {v : View Part} {c : Client} (h : Has v a c) :
    Emits Client.step (fun a' c' => Has v a' c' ∧ ordinalOf a' = ordinalOf a ∧ True) c
      (onSignal q a .keepalive) := by
  have hwrites : Writes a (sse a [.inProgress a.outputItems]) := by
    refine sse_writes rfl ?_ h.placed
    simp [Machine.runAll, stepReading_of, Response.stepReading, responseOf]
  exact hwrites.emits h.client h.view ⟨rfl, trivial⟩

/-- Where a client is at the end of the stream. -/
def endPhase (q : Setup) (done : Option GenDone) : Except Halt Unit → Phase
  | .ok () =>
      done.elim .reading fun d =>
        .ended (if d.finishReason = lengthReason then .incomplete "max_output_tokens".toList
            else .completed)
          (usageOf d.promptTokens d.completionTokens (if q.cacheReport then d.cachedTokens else 0))
  | .error .waits => .reading
  | .error (.generationError message code) =>
      .ended (.failed (orElse (code.getD []) "server_error".toList) message) (usageOf 0 0 0)
  | .error (.exception message) => .ended (.failed "server_error".toList message) (usageOf 0 0 0)

/-- The terminal frame repeats the items that were read. -/
theorem terminal_reads (h : a.current = none) (outcome : Outcome) (usage : ResponseUsage) :
    ∃ n, Machine.runAll Client.step (clientOf a) (sse a [.terminal outcome a.outputItems usage]).2 =
      some ⟨n, ⟨.ended outcome usage, a.outputItems, none⟩⟩ := by
  refine ⟨a.seq + 1, run_sse a ?_⟩
  simp [Machine.runAll, stepReading_of, Response.stepReading, responseOf, h]

theorem fail_reads (h : Placed a) (code message : Text) :
    ∃ n, Machine.runAll Client.step (clientOf a) (fail a code message) =
      some ⟨n, ⟨.ended (.failed code message) (usageOf 0 0 0), (closeCurrent a).1.outputItems, none⟩⟩ := by
  obtain ⟨n, hn⟩ := terminal_reads (closeCurrent_current a) (.failed code message) (usageOf 0 0 0)
  refine ⟨n, ?_⟩
  rw [fail, Machine.runAll_append, (closeCurrent_writes h).run]
  exact hn

/-- The items of a response as parts. -/
def Client.parts (c : Client) : List Part :=
  c.response.items.map Item.part ++ (c.response.current.map fun cur => cur.1.part).toList

theorem clientOf_parts (a : Adapter) : (clientOf a).parts = (viewOf a).all := by
  rw [Client.parts, View.all, clientOf, responseOf, viewOf, Option.map_map]
  rfl

theorem closed_parts (a : Adapter) (n : Nat) (phase : Phase) :
    Client.parts ⟨n, ⟨phase, (closeCurrent a).1.outputItems, none⟩⟩ = (viewOf a).all := by
  have hclosed : (closeCurrent a).1.outputItems.map Item.part = (viewOf a).all :=
    congrArg View.closed (viewOf_closeCurrent a)
  rw [Client.parts, hclosed, Option.map_none, Option.toList_none, List.append_nil]

/-- An exception closes the current item and ends the stream. -/
theorem onEnd_reads (q : Setup) (h : Placed a) (x : Halt) :
    ∃ c, Machine.runAll Client.step (clientOf a) (onEnd a (.error x)) = some c ∧
      c.parts = (viewOf a).all ∧ c.response.phase = endPhase q none (.error x) := by
  cases x with
  | waits => exact ⟨clientOf a, rfl, clientOf_parts a, rfl⟩
  | generationError message code =>
      obtain ⟨n, hrun⟩ := fail_reads h (orElse (code.getD []) "server_error".toList) message
      exact ⟨_, hrun, closed_parts a n _, rfl⟩
  | exception message =>
      obtain ⟨n, hrun⟩ := fail_reads h "server_error".toList message
      exact ⟨_, hrun, closed_parts a n _, rfl⟩

/-- The end closes the current item, and the response. -/
theorem onDone_reads (q : Setup) (h : Placed a) (d : GenDone) :
    ∃ c, Machine.runAll Client.step (clientOf a) (onEvent q a (.genDone d)).2 = some c ∧
      c.parts = (viewOf a).all ∧ c.response.phase = endPhase q (some d) (.ok ()) := by
  have hclose : Writes a (closeCurrent { a with finishReason := d.finishReason }) := by
    have hwrites := closeCurrent_writes (a := { a with finishReason := d.finishReason }) h
    exact ⟨hwrites.run, hwrites.placed⟩
  obtain ⟨n, hn⟩ := terminal_reads (closeCurrent_current { a with finishReason := d.finishReason })
    (if d.finishReason = lengthReason then .incomplete "max_output_tokens".toList else .completed)
    (usageOf d.promptTokens d.completionTokens (if q.cacheReport then d.cachedTokens else 0))
  refine ⟨_, ?_, closed_parts { a with finishReason := d.finishReason } n _, rfl⟩
  rw [onEvent, Machine.runAll_append, hclose.run]
  exact hn

end Responses

end FreeToken
