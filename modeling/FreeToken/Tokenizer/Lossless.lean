import FreeToken.Tokenizer.Readable

/-!
# Incremental detokenization is lossless, up to a ragged end

The state of a request is a function of its ids, whatever batches its messages came in.  What was
sent is a beginning of the decode, and no beginning of a stop string is in it.  At the finishing
message the text behind the last printable character is dropped.
-/

set_option autoImplicit false

namespace FreeToken

open Function Search Readable

namespace DetokenizeManager

/-! ## Batches -/

/-- What one message does to the entry of its request. -/
def serve (m : DetokenizeManager) (entry : Option DecodeStatus) (msg : DetokenizeMsg) :
    DecodeStatus × Text :=
  let s := accept m entry msg
  advance s msg (m.decode (s.decodedIds.drop s.surrOffset))
    (m.decode ((s.decodedIds.take s.readOffset).drop s.surrOffset))

/-- The entry a message leaves behind. -/
def leave (m : DetokenizeManager) (entry : Option DecodeStatus) (msg : DetokenizeMsg) :
    Option DecodeStatus :=
  if msg.finished then none else some (serve m entry msg).1

/-- The managers read the same tokenizer. -/
def SameTokenizer (m m' : DetokenizeManager) : Prop :=
  m'.tokenBytes = m.tokenBytes ∧ m'.eosTokenIds = m.eosTokenIds

theorem SameTokenizer.accept {m m' : DetokenizeManager} (h : SameTokenizer m m')
    (entry : Option DecodeStatus) (msg : DetokenizeMsg) :
    accept m' entry msg = accept m entry msg := by
  unfold DetokenizeManager.accept
  rw [h.2]

theorem SameTokenizer.decode {m m' : DetokenizeManager} (h : SameTokenizer m m')
    (ids : List Token) : m'.decode ids = m.decode ids := by
  unfold DetokenizeManager.decode
  rw [h.1]

theorem SameTokenizer.serve {m m' : DetokenizeManager} (h : SameTokenizer m m')
    (entry : Option DecodeStatus) (msg : DetokenizeMsg) :
    serve m' entry msg = serve m entry msg := by
  unfold DetokenizeManager.serve
  rw [h.accept]
  dsimp only
  rw [h.decode, h.decode]

theorem SameTokenizer.leave {m m' : DetokenizeManager} (h : SameTokenizer m m')
    (entry : Option DecodeStatus) (msg : DetokenizeMsg) :
    leave m' entry msg = leave m entry msg := by
  unfold DetokenizeManager.leave
  rw [h.serve]

/-- The first loop, on a batch of distinct requests. -/
theorem collect_spec (msgs : List DetokenizeMsg) : ∀ m : DetokenizeManager,
    (msgs.map DetokenizeMsg.uid).Nodup →
    ∃ m', collect m msgs = (m', msgs.map fun msg =>
        let s := accept m (m.decodeMap msg.uid) msg
        (s.decodedIds.drop s.surrOffset, (s.decodedIds.take s.readOffset).drop s.surrOffset)) ∧
      SameTokenizer m m' ∧
      (∀ msg ∈ msgs, m'.decodeMap msg.uid = some (accept m (m.decodeMap msg.uid) msg)) ∧
      ∀ uid, (∀ msg ∈ msgs, msg.uid ≠ uid) → m'.decodeMap uid = m.decodeMap uid := by
  induction msgs with
  | nil => exact fun m _ => ⟨m, rfl, ⟨rfl, rfl⟩, by simp, fun _ _ => rfl⟩
  | cons msg msgs ih =>
      intro m hnd
      rw [List.map_cons, List.nodup_cons] at hnd
      have hne : ∀ x ∈ msgs, x.uid ≠ msg.uid := fun x hx heq =>
        hnd.1 (heq ▸ List.mem_map_of_mem hx)
      obtain ⟨m', hrun, hsame, hin, hout⟩ := ih
        { m with decodeMap := update m.decodeMap msg.uid
                  (some (accept m (m.decodeMap msg.uid) msg)) } hnd.2
      have hentry : ∀ x ∈ msgs, (update m.decodeMap msg.uid
          (some (accept m (m.decodeMap msg.uid) msg))) x.uid = m.decodeMap x.uid :=
        fun x hx => update_of_ne (hne x hx) _ _
      refine ⟨m', ?_, hsame, ?_, ?_⟩
      · rw [collect]
        dsimp only
        rw [hrun, List.map_cons]
        refine congrArg (fun l => (m', _ :: l)) (List.map_congr_left fun x hx => ?_)
        dsimp only
        rw [hentry x hx]
        rfl
      · intro x hx
        rcases List.mem_cons.1 hx with rfl | hx
        · rw [hout x.uid hne]
          exact update_self _ _ _
        · rw [hin x hx]
          dsimp only
          rw [hentry x hx]
          rfl
      · intro uid huid
        rw [hout uid fun x hx => huid x (List.mem_cons_of_mem _ hx)]
        exact update_of_ne (huid msg (by simp)).symm _ _

/-- The second loop: every message finds the state the first loop left. -/
theorem release_spec {m₀ : DetokenizeManager} (msgs : List DetokenizeMsg) :
    ∀ m : DetokenizeManager, SameTokenizer m₀ m → (msgs.map DetokenizeMsg.uid).Nodup →
    (∀ msg ∈ msgs, m.decodeMap msg.uid = some (accept m₀ (m₀.decodeMap msg.uid) msg)) →
    ∃ m', release m (msgs.zip (msgs.map fun msg =>
        let s := accept m₀ (m₀.decodeMap msg.uid) msg
        (m₀.decode (s.decodedIds.drop s.surrOffset),
          m₀.decode ((s.decodedIds.take s.readOffset).drop s.surrOffset)))) =
        .ok (m', msgs.map fun msg => (serve m₀ (m₀.decodeMap msg.uid) msg).2) ∧
      SameTokenizer m₀ m' ∧
      (∀ msg ∈ msgs, m'.decodeMap msg.uid = leave m₀ (m₀.decodeMap msg.uid) msg) ∧
      ∀ uid, (∀ msg ∈ msgs, msg.uid ≠ uid) → m'.decodeMap uid = m.decodeMap uid := by
  induction msgs with
  | nil => exact fun m hsame _ _ => ⟨m, rfl, hsame, by simp, fun _ _ => rfl⟩
  | cons msg msgs ih =>
      intro m hsame hnd hstate
      rw [List.map_cons, List.nodup_cons] at hnd
      have hne : ∀ x ∈ msgs, x.uid ≠ msg.uid := fun x hx heq =>
        hnd.1 (heq ▸ List.mem_map_of_mem hx)
      obtain ⟨m', hrun, hsame', hin, hout⟩ := ih
        { m with decodeMap := update m.decodeMap msg.uid (leave m₀ (m₀.decodeMap msg.uid) msg) }
        hsame hnd.2 fun x hx =>
          (update_of_ne (hne x hx) _ _).trans (hstate x (List.mem_cons_of_mem _ hx))
      refine ⟨m', ?_, hsame', ?_, ?_⟩
      · rw [List.map_cons, List.zip_cons_cons, release, hstate msg (by simp)]
        dsimp only
        exact Py.bind_eq_ok.2 ⟨_, hrun, rfl⟩
      · intro x hx
        rcases List.mem_cons.1 hx with rfl | hx
        · rw [hout x.uid hne]
          exact update_self _ _ _
        · exact hin x hx
      · intro uid huid
        rw [hout uid fun x hx => huid x (List.mem_cons_of_mem _ hx)]
        exact update_of_ne (huid msg (by simp)).symm _ _

/-- A batch of distinct requests serves each of them by its own entry. -/
theorem detokenize_spec (m : DetokenizeManager) {msgs : List DetokenizeMsg}
    (hnd : (msgs.map DetokenizeMsg.uid).Nodup) :
    ∃ m', detokenize m msgs =
        .ok (m', msgs.map fun msg => (serve m (m.decodeMap msg.uid) msg).2) ∧
      SameTokenizer m m' ∧
      (∀ msg ∈ msgs, m'.decodeMap msg.uid = leave m (m.decodeMap msg.uid) msg) ∧
      ∀ uid, (∀ msg ∈ msgs, msg.uid ≠ uid) → m'.decodeMap uid = m.decodeMap uid := by
  obtain ⟨m₁, hcollect, hsame₁, hin₁, hout₁⟩ := collect_spec msgs m hnd
  obtain ⟨m₂, hrelease, hsame₂, hin₂, hout₂⟩ := release_spec msgs m₁ hsame₁ hnd hin₁
  refine ⟨m₂, ?_, hsame₂, hin₂, fun uid huid => (hout₂ uid huid).trans (hout₁ uid huid)⟩
  unfold detokenize
  rw [hcollect]
  dsimp only
  rw [List.map_map, ← hrelease]
  refine congrArg (fun l => release m₁ (msgs.zip l)) (List.map_congr_left fun msg _ => ?_)
  exact Prod.ext (hsame₁.decode _) (hsame₁.decode _)

/-! ## Runs of the worker -/

inductive Call
  | detokenize (msgs : List DetokenizeMsg)
  | discard (uid : Nat)

/-- The worker's calls, with every answer under the request it is for. -/
def run (m : DetokenizeManager) : List Call → Py (DetokenizeManager × List (Nat × Text))
  | [] => .ok (m, [])
  | .discard uid :: calls => run (discard m uid) calls
  | .detokenize msgs :: calls => do
      let (m, outs) ← detokenize m msgs
      let (m, rest) ← run m calls
      return (m, (msgs.map DetokenizeMsg.uid).zip outs ++ rest)

/-- The messages of one request, in order. -/
def messagesOf (uid : Nat) : List Call → List DetokenizeMsg
  | [] => []
  | .discard _ :: calls => messagesOf uid calls
  | .detokenize msgs :: calls => msgs.filter (fun msg => msg.uid = uid) ++ messagesOf uid calls

/-- The answers to one request, in order. -/
def repliesOf (uid : Nat) (outs : List (Nat × Text)) : List Text :=
  (outs.filter fun p => p.1 = uid).map Prod.snd

/-- The scheduler answers a request once a step, and nobody discards this one. -/
def CallOk (uid : Nat) : Call → Prop
  | .detokenize msgs => (msgs.map DetokenizeMsg.uid).Nodup
  | .discard other => other ≠ uid

/-- The answers a request gets from its own messages alone. -/
def serveAll (m : DetokenizeManager) : Option DecodeStatus → List DetokenizeMsg → List Text
  | _, [] => []
  | entry, msg :: msgs => (serve m entry msg).2 :: serveAll m (leave m entry msg) msgs

theorem SameTokenizer.serveAll {m m' : DetokenizeManager} (h : SameTokenizer m m')
    (msgs : List DetokenizeMsg) : ∀ entry, serveAll m' entry msgs = serveAll m entry msgs := by
  induction msgs with
  | nil => exact fun _ => rfl
  | cons msg msgs ih =>
      intro entry
      rw [DetokenizeManager.serveAll, DetokenizeManager.serveAll, h.serve, h.leave, ih]

theorem repliesOf_batch (uid : Nat) (msgs : List DetokenizeMsg) (f : DetokenizeMsg → Text) :
    repliesOf uid ((msgs.map DetokenizeMsg.uid).zip (msgs.map f)) =
      (msgs.filter fun msg => msg.uid = uid).map f := by
  unfold repliesOf
  rw [List.zip_map', List.filter_map, List.map_map]
  rfl

/-- A batch of distinct requests has at most one message of each. -/
theorem filter_uid (uid : Nat) {msgs : List DetokenizeMsg}
    (hnd : (msgs.map DetokenizeMsg.uid).Nodup) :
    (∀ msg ∈ msgs, msg.uid ≠ uid) ∧ msgs.filter (fun msg => msg.uid = uid) = [] ∨
      ∃ msg ∈ msgs, msg.uid = uid ∧ msgs.filter (fun msg => msg.uid = uid) = [msg] := by
  induction msgs with
  | nil => exact .inl ⟨by simp, rfl⟩
  | cons msg msgs ih =>
      rw [List.map_cons, List.nodup_cons] at hnd
      by_cases huid : msg.uid = uid
      · refine .inr ⟨msg, by simp, huid, ?_⟩
        rw [List.filter_cons_of_pos (by simpa using huid), List.filter_eq_nil_iff.2]
        intro x hx
        have : x.uid ≠ uid := fun heq => hnd.1 (huid ▸ heq ▸ List.mem_map_of_mem hx)
        simpa using this
      · rw [List.filter_cons_of_neg (by simpa using huid)]
        rcases ih hnd.2 with ⟨hne, hnil⟩ | ⟨x, hx, hxu, hxs⟩
        · refine .inl ⟨fun x hx => ?_, hnil⟩
          rcases List.mem_cons.1 hx with rfl | hx
          · exact huid
          · exact hne x hx
        · exact .inr ⟨x, List.mem_cons_of_mem _ hx, hxu, hxs⟩

/-- Whatever the batches were, a request is answered as if it were alone. -/
theorem run_spec (uid : Nat) (calls : List Call) : ∀ m : DetokenizeManager,
    (∀ call ∈ calls, CallOk uid call) →
    ∃ m' outs, run m calls = .ok (m', outs) ∧
      repliesOf uid outs = serveAll m (m.decodeMap uid) (messagesOf uid calls) := by
  induction calls with
  | nil => exact fun m _ => ⟨m, [], rfl, rfl⟩
  | cons call calls ih =>
      intro m hok
      have hrest := fun c hc => hok c (List.mem_cons_of_mem _ hc)
      cases call with
      | discard other =>
          obtain ⟨m', outs, hrun, hreplies⟩ := ih (discard m other) hrest
          refine ⟨m', outs, hrun, hreplies.trans ?_⟩
          have hother : other ≠ uid := hok (.discard other) (by simp)
          have hentry : (discard m other).decodeMap uid = m.decodeMap uid :=
            update_of_ne hother.symm _ _
          rw [hentry, messagesOf]
          have hsame : SameTokenizer m (discard m other) := ⟨rfl, rfl⟩
          exact hsame.serveAll _ _
      | detokenize msgs =>
          have hnd : (msgs.map DetokenizeMsg.uid).Nodup := hok (.detokenize msgs) (by simp)
          obtain ⟨m₁, hbatch, hsame, hin, hout⟩ := detokenize_spec m hnd
          obtain ⟨m', outs, hrun, hreplies⟩ := ih m₁ hrest
          refine ⟨m', _, Py.bind_eq_ok.2 ⟨_, hbatch, Py.bind_eq_ok.2 ⟨_, hrun, rfl⟩⟩, ?_⟩
          have happ : ∀ a b, repliesOf uid (a ++ b) = repliesOf uid a ++ repliesOf uid b := by
            intro a b
            unfold repliesOf
            rw [List.filter_append, List.map_append]
          rw [happ, repliesOf_batch, hreplies, hsame.serveAll, messagesOf]
          rcases filter_uid uid hnd with ⟨hne, hnil⟩ | ⟨msg, hmsg, hmuid, hone⟩
          · rw [hnil, hout uid hne]
            rfl
          · rw [hone, ← hmuid, hin msg hmsg]
            rfl

/-! ## One request -/

/-- The state of a request after the ids `ids`, none of them the finishing one. -/
structure Tracks (m : DetokenizeManager) (stops : List Text) (ids : List Token)
    (s : DecodeStatus) : Prop where
  ids_eq : s.decodedIds = ids
  surr_le : s.surrOffset ≤ s.readOffset
  read_le : s.readOffset ≤ ids.length
  surr_clean : Utf8.Clean ((ids.take s.surrOffset).flatMap m.tokenBytes)
  read_clean : Utf8.Clean ((ids.take s.readOffset).flatMap m.tokenBytes)
  read_text : Readable.decode m.tokenBytes (ids.take s.readOffset) = s.decodedStr
  str_eq : s.decodedStr = settled m.tokenBytes ids
  sent_eq : s.sentOffset = sent m.tokenBytes stops ids

theorem Tracks.fresh (m : DetokenizeManager) (stops : List Text) : Tracks m stops [] .fresh :=
  ⟨rfl, le_rfl, le_rfl, Utf8.clean_nil, Utf8.clean_nil, rfl, rfl, rfl⟩

variable {m : DetokenizeManager} {stops : List Text} {ids : List Token} {s : DecodeStatus}

/-- The text behind the ids that were read. -/
theorem Tracks.newText (h : Tracks m stops ids s) (ts : List Token) :
    (m.decode ((ids ++ ts).drop s.surrOffset)).drop
        (m.decode (((ids ++ ts).take s.readOffset).drop s.surrOffset)).length =
      m.decode ((ids ++ ts).drop s.readOffset) ∧
    Readable.decode m.tokenBytes (ids ++ ts) =
      s.decodedStr ++ m.decode ((ids ++ ts).drop s.readOffset) := by
  have htake : (ids ++ ts).take s.readOffset = ids.take s.readOffset :=
    List.take_append_of_le_length h.read_le
  have hread : (ids.take s.readOffset).flatMap m.tokenBytes =
      (ids.take s.surrOffset).flatMap m.tokenBytes ++
        ((ids.take s.readOffset).drop s.surrOffset).flatMap m.tokenBytes := by
    rw [← List.flatMap_append]
    congr 1
    rw [← List.take_append_drop s.surrOffset (ids.take s.readOffset), List.take_take,
      Nat.min_eq_left h.surr_le, List.drop_left' (by
        rw [List.length_take]
        exact Nat.min_eq_left (h.surr_le.trans h.read_le))]
  have hslice : Utf8.Clean (((ids.take s.readOffset).drop s.surrOffset).flatMap m.tokenBytes) := by
    rw [← Utf8.clean_append_of_clean h.surr_clean, ← hread]
    exact h.read_clean
  have hdrop : (ids ++ ts).drop s.surrOffset =
      (ids.take s.readOffset).drop s.surrOffset ++ (ids ++ ts).drop s.readOffset := by
    conv_lhs => rw [← List.take_append_drop s.readOffset (ids ++ ts), htake]
    rw [List.drop_append_of_le_length]
    rw [List.length_take]
    exact le_min h.surr_le (h.surr_le.trans h.read_le)
  constructor
  · rw [htake, hdrop]
    unfold DetokenizeManager.decode
    rw [List.flatMap_append, Utf8.decode_append_of_clean hslice, List.drop_left]
  · rw [← h.read_text]
    unfold Readable.decode DetokenizeManager.decode
    rw [← Utf8.decode_append_of_clean h.read_clean, ← List.flatMap_append, ← htake,
      List.take_append_drop]

/-- One message, before the hold-back: what may be shown is that of the ids, and the state follows. -/
theorem Tracks.advance (h : Tracks m stops ids s) (ts : List Token)
    (hset : settled m.tokenBytes (ids ++ ts) =
      if Ragged m.tokenBytes (ids ++ ts) then settled m.tokenBytes ids
      else Readable.decode m.tokenBytes (ids ++ ts))
    (msg : DetokenizeMsg) {stop : Nat}
    (hstop : emitEnd msg (shown m.tokenBytes (ids ++ ts)) = stop) :
    ∃ s' out, advance { s with decodedIds := ids ++ ts } msg
        (m.decode ((ids ++ ts).drop s.surrOffset))
        (m.decode (((ids ++ ts).take s.readOffset).drop s.surrOffset)) = (s', out) ∧
      out = (if s.sentOffset < stop
        then ((shown m.tokenBytes (ids ++ ts)).take stop).drop s.sentOffset else []) ∧
      (max s.sentOffset stop = sent m.tokenBytes stops (ids ++ ts) →
        Tracks m stops (ids ++ ts) s') := by
  obtain ⟨hnew, hfull⟩ := h.newText ts
  have htake : (ids ++ ts).take s.readOffset = ids.take s.readOffset :=
    List.take_append_of_le_length h.read_le
  have hread := h.read_clean
  rw [← htake] at hread
  unfold DetokenizeManager.advance
  dsimp only
  rw [hnew]
  generalize hgen : m.decode ((ids ++ ts).drop s.readOffset) = new at hfull
  by_cases hcommit : new ≠ [] ∧ new.getLast? ≠ some Utf8.replacement
  · -- the whole text was read
    have hragged : ¬ Ragged m.tokenBytes (ids ++ ts) := by
      unfold Ragged
      rw [hfull, List.getLast?_append_of_ne_nil _ hcommit.1]
      exact hcommit.2
    have hshown : shown m.tokenBytes (ids ++ ts) = s.decodedStr ++ new := by
      rw [shown, if_neg hragged, hfull]
    rw [if_neg hragged, hfull] at hset
    rw [hshown] at hstop ⊢
    rw [if_pos hcommit]
    dsimp only
    rw [hstop]
    refine ⟨_, _, rfl, rfl, fun hsent => ⟨rfl, h.read_le.trans ?_, le_rfl, hread, ?_, ?_, hset.symm, hsent⟩⟩
    · simp
    · change Utf8.Clean (((ids ++ ts).take (ids ++ ts).length).flatMap m.tokenBytes)
      rw [List.take_length]
      exact Utf8.clean_of_getLast? hragged
    · change Readable.decode m.tokenBytes ((ids ++ ts).take (ids ++ ts).length) = _
      rw [List.take_length]
      exact hfull
  · -- the text behind the settled one is empty or ragged
    have hlast : s.decodedStr.getLast? ≠ some Utf8.replacement := by
      rw [h.str_eq]
      exact settled_getLast? _ _
    have hboth : shown m.tokenBytes (ids ++ ts) = s.decodedStr ++ findPrintableText new ∧
        s.decodedStr = settled m.tokenBytes (ids ++ ts) := by
      by_cases hnil : new = []
      · rw [hnil, List.append_nil] at hfull
        have hragged : ¬ Ragged m.tokenBytes (ids ++ ts) := by
          unfold Ragged
          rw [hfull]
          exact hlast
        rw [if_neg hragged, hfull] at hset
        rw [shown, if_neg hragged, hfull, hnil]
        exact ⟨(List.append_nil _).symm, hset.symm⟩
      · have hrep : new.getLast? = some Utf8.replacement := by
          by_contra hne
          exact hcommit ⟨hnil, hne⟩
        have hragged : Ragged m.tokenBytes (ids ++ ts) := by
          unfold Ragged
          rw [hfull, List.getLast?_append_of_ne_nil _ hnil]
          exact hrep
        rw [if_pos hragged, ← h.str_eq] at hset
        refine ⟨?_, hset.symm⟩
        rw [shown, if_pos hragged, hset, hfull, List.drop_left]
    obtain ⟨hshown, hstr⟩ := hboth
    rw [hshown] at hstop ⊢
    rw [if_neg hcommit]
    dsimp only
    rw [hstop]
    refine ⟨_, _, rfl, rfl, fun hsent => ⟨rfl, h.surr_le, h.read_le.trans ?_, ?_, hread, ?_, hstr, hsent⟩⟩
    · simp
    · change Utf8.Clean (((ids ++ ts).take s.surrOffset).flatMap m.tokenBytes)
      rw [List.take_append_of_le_length (h.surr_le.trans h.read_le)]
      exact h.surr_clean
    · change Readable.decode m.tokenBytes ((ids ++ ts).take s.readOffset) = _
      rw [htake]
      exact h.read_text

/-- What is sent of a text that only grew. -/
theorem take_append_sent {text shown : Text} (hpre : shown <+: text) {n stop : Nat}
    (hstop : stop ≤ shown.length) :
    text.take n ++ (if n < stop then (shown.take stop).drop n else []) = text.take (max n stop) := by
  obtain ⟨rest, rfl⟩ := hpre
  split
  · rename_i hlt
    rw [max_eq_right hlt.le, List.take_append_of_le_length (hlt.le.trans hstop),
      List.take_append_of_le_length hstop]
    conv_rhs => rw [← List.take_append_drop n (shown.take stop), List.take_take,
      Nat.min_eq_left hlt.le]
  · rename_i hle
    rw [max_eq_left (Nat.le_of_not_lt hle), List.append_nil]

/-- The answers to the messages before the finishing one. -/
theorem serveAll_pre (pre : List DetokenizeMsg) : ∀ (ids : List Token) (entry : Option DecodeStatus),
    Tracks m stops ids (entry.getD .fresh) →
    (∀ msg ∈ pre, msg.finished = false ∧ msg.stopStrs = stops) →
    ∃ entry' outs, (∀ rest, serveAll m entry (pre ++ rest) = outs ++ serveAll m entry' rest) ∧
      outs.length = pre.length ∧
      Tracks m stops (ids ++ pre.map DetokenizeMsg.nextToken) (entry'.getD .fresh) ∧
      ∀ k ≤ pre.length, (Readable.complete m.tokenBytes ids).take (sent m.tokenBytes stops ids) ++
          (outs.take k).flatten =
        (Readable.complete m.tokenBytes (ids ++ (pre.take k).map DetokenizeMsg.nextToken)).take
          (sent m.tokenBytes stops (ids ++ (pre.take k).map DetokenizeMsg.nextToken)) := by
  induction pre with
  | nil =>
      intro ids entry h _
      refine ⟨entry, [], fun _ => rfl, rfl, by simpa using h, fun k _ => ?_⟩
      simp
  | cons msg pre ih =>
      intro ids entry h hmsgs
      obtain ⟨hfin, hstops⟩ := hmsgs msg (by simp)
      have hstop : emitEnd msg (shown m.tokenBytes (ids ++ [msg.nextToken])) =
          released m.tokenBytes stops (ids ++ [msg.nextToken]) := by
        unfold emitEnd released
        rw [hfin, hstops]
        rfl
      obtain ⟨s', out, hadv, hout, htracks⟩ := h.advance [msg.nextToken] (settled_concat _ _ _) msg hstop
      have hsent := sent_concat m.tokenBytes stops ids msg.nextToken
      have hserve : serve m entry msg = (s', out) := by
        unfold serve accept
        rw [hfin, Bool.false_and, if_neg Bool.false_ne_true, h.ids_eq]
        exact hadv
      have htracks' : Tracks m stops (ids ++ [msg.nextToken]) ((leave m entry msg).getD .fresh) := by
        unfold leave
        rw [hfin, if_neg Bool.false_ne_true, hserve]
        refine htracks ?_
        rw [h.sent_eq, ← hsent]
      obtain ⟨entry', outs, hall, hlen, hlast, htake⟩ := ih _ _ htracks' fun x hx =>
        hmsgs x (List.mem_cons_of_mem _ hx)
      refine ⟨entry', (serve m entry msg).2 :: outs, fun rest => ?_, ?_, ?_, fun k hk => ?_⟩
      · rw [List.cons_append, serveAll, hall rest, List.cons_append]
      · rw [List.length_cons, List.length_cons, hlen]
      · simpa using hlast
      · cases k with
        | zero => simp
        | succ k =>
            have hk' := htake k (by simpa using hk)
            have hstep := take_append_sent (n := sent m.tokenBytes stops ids)
              (shown_begins m.tokenBytes (ids ++ [msg.nextToken]))
              (released_le m.tokenBytes stops (ids ++ [msg.nextToken]))
            rw [← hsent] at hstep
            have hsame : (Readable.complete m.tokenBytes ids).take (sent m.tokenBytes stops ids) =
                (Readable.complete m.tokenBytes (ids ++ [msg.nextToken])).take
                  (sent m.tokenBytes stops ids) := by
              obtain ⟨rest, hrest⟩ := complete_grows m.tokenBytes ids [msg.nextToken]
              rw [← hrest, List.take_append_of_le_length (sent_le m.tokenBytes stops ids)]
            rw [List.take_succ_cons, List.flatten_cons, ← List.append_assoc, hserve, hout, h.sent_eq,
              hsame, hstep, hk', List.take_succ_cons, List.map_cons, List.append_assoc, List.singleton_append]

/-- The tokens of a request that are text: all but a finishing end of sequence. -/
def bodyIds (m : DetokenizeManager) (pre : List DetokenizeMsg) (fin : DetokenizeMsg) : List Token :=
  pre.map DetokenizeMsg.nextToken ++
    if m.eosTokenIds.contains fin.nextToken then [] else [fin.nextToken]

/-- The text before the first occurrence of the matched stop string. -/
def cutAt (stop : Option Text) (text : Text) : Text :=
  match stop.bind fun stop => find stop text with
  | none => text
  | some p => text.take p

/-- The messages of a request: the scheduler finishes it with the first token whose text has a stop
string in it, and reports one of the request's stop strings. -/
structure Request (m : DetokenizeManager) (stops : List Text) (pre : List DetokenizeMsg)
    (fin : DetokenizeMsg) : Prop where
  unfinished : ∀ msg ∈ pre, msg.finished = false ∧ msg.stopStrs = stops
  finished : fin.finished = true
  matched : ∀ stop, fin.matchedStop = some stop → stop ∈ stops
  noStop : ∀ k ≤ pre.length, ∀ stop ∈ stops,
    find stop (Readable.decode m.tokenBytes ((pre.take k).map DetokenizeMsg.nextToken)) = none

/-- Every complete character before the matched stop string is sent once and in order, and before the
finishing message none that belongs to a stop string. -/
structure Delivered (m : DetokenizeManager) (stops : List Text) (pre : List DetokenizeMsg)
    (fin : DetokenizeMsg) (replies : List Text) : Prop where
  all : replies.flatten =
    cutAt fin.matchedStop (Readable.complete m.tokenBytes (bodyIds m pre fin))
  extends_ : ∀ k ≤ pre.length, (replies.take k).flatten <+:
    Readable.complete m.tokenBytes ((pre.take k).map DetokenizeMsg.nextToken)
  noLeak : ∀ k ≤ pre.length, ∀ stop ∈ stops, ∀ p,
    OccursAt stop (Readable.decode m.tokenBytes (bodyIds m pre fin)) p →
      (replies.take k).flatten.length ≤ p

/-- At the finishing message the shown text has all complete characters, or has the matched stop
string, or ends before it with nothing left out in between. -/
def Flushed (m : DetokenizeManager) (stops : List Text) (pre : List DetokenizeMsg)
    (fin : DetokenizeMsg) : Prop :=
  let text := Readable.complete m.tokenBytes (bodyIds m pre fin)
  let seen := shown m.tokenBytes (bodyIds m pre fin)
  seen = text ∨ ∃ stop, fin.matchedStop = some stop ∧
    (find stop seen ≠ none ∨ ∃ p, find stop text = some p ∧ seen.length ≤ p ∧
      (seen.length = p ∨ sent m.tokenBytes stops (pre.map DetokenizeMsg.nextToken) = p))

/-- The settled text of the body, also when the finishing token is left out. -/
theorem settled_body (pre ts : List Token) (hts : ts = [] ∨ ∃ t, ts = [t]) :
    settled m.tokenBytes (pre ++ ts) =
      if Ragged m.tokenBytes (pre ++ ts) then settled m.tokenBytes pre
      else Readable.decode m.tokenBytes (pre ++ ts) := by
  rcases hts with rfl | ⟨t, rfl⟩
  · rw [List.append_nil]
    split
    · rfl
    · rename_i h
      exact settled_of_not_ragged m.tokenBytes h
  · exact settled_concat m.tokenBytes pre t

/-- All answers to a request: how far the complete text was sent. -/
theorem serveAll_request {pre : List DetokenizeMsg} {fin : DetokenizeMsg}
    (h : Request m stops pre fin) :
    (serveAll m none (pre ++ [fin])).flatten =
        (Readable.complete m.tokenBytes (bodyIds m pre fin)).take
          (max (sent m.tokenBytes stops (pre.map DetokenizeMsg.nextToken))
            (emitEnd fin (shown m.tokenBytes (bodyIds m pre fin)))) ∧
      ∀ k ≤ pre.length, ((serveAll m none (pre ++ [fin])).take k).flatten =
        (Readable.complete m.tokenBytes ((pre.take k).map DetokenizeMsg.nextToken)).take
          (sent m.tokenBytes stops ((pre.take k).map DetokenizeMsg.nextToken)) := by
  obtain ⟨entry, outs, hall, hlen, htracks, htake⟩ :=
    serveAll_pre pre [] none (Tracks.fresh m stops) h.unfinished
  have hfrom : ∀ k ≤ pre.length, (outs.take k).flatten =
      (Readable.complete m.tokenBytes ((pre.take k).map DetokenizeMsg.nextToken)).take
        (sent m.tokenBytes stops ((pre.take k).map DetokenizeMsg.nextToken)) := htake
  rw [List.nil_append] at htracks
  rw [hall [fin]]
  constructor
  · have hpre := hfrom pre.length le_rfl
    rw [← hlen, List.take_length, hlen, List.take_length] at hpre
    have hts : (if m.eosTokenIds.contains fin.nextToken then [] else [fin.nextToken]) = [] ∨
        ∃ t, (if m.eosTokenIds.contains fin.nextToken then [] else [fin.nextToken]) = [t] := by
      split
      · exact .inl rfl
      · exact .inr ⟨_, rfl⟩
    obtain ⟨s', out, hadv, hout, -⟩ := htracks.advance _ (settled_body _ _ hts) fin rfl
    have hserve : serve m entry fin = (s', out) := by
      have hacc : accept m entry fin =
          { entry.getD .fresh with decodedIds := bodyIds m pre fin } := by
        unfold accept bodyIds
        rw [h.finished, Bool.true_and]
        dsimp only
        split
        · rw [List.append_nil, ← htracks.ids_eq]
        · rw [htracks.ids_eq]
      unfold serve
      rw [hacc]
      exact hadv
    have hstop : emitEnd fin (shown m.tokenBytes (bodyIds m pre fin)) ≤
        (shown m.tokenBytes (bodyIds m pre fin)).length := by
      unfold emitEnd
      rw [h.finished, if_pos rfl]
      split
      · split
        · exact le_rfl
        · rename_i stop _ hne
          cases hf : find stop (shown m.tokenBytes (bodyIds m pre fin)) with
          | none => exact le_rfl
          | some p =>
              have := find_le hf hne
              rw [Option.getD_some]
              omega
      · exact le_rfl
    have hsame : (Readable.complete m.tokenBytes (pre.map DetokenizeMsg.nextToken)).take
          (sent m.tokenBytes stops (pre.map DetokenizeMsg.nextToken)) =
        (Readable.complete m.tokenBytes (bodyIds m pre fin)).take
          (sent m.tokenBytes stops (pre.map DetokenizeMsg.nextToken)) := by
      obtain ⟨rest, hrest⟩ := complete_grows m.tokenBytes (pre.map DetokenizeMsg.nextToken)
        (if m.eosTokenIds.contains fin.nextToken then [] else [fin.nextToken])
      unfold bodyIds
      rw [← hrest, List.take_append_of_le_length (sent_le m.tokenBytes stops _)]
    rw [List.flatten_append, hpre, hsame]
    change _ ++ [(serve m entry fin).2].flatten = _
    rw [hserve, List.flatten_singleton, hout, htracks.sent_eq]
    exact take_append_sent (shown_begins m.tokenBytes _) hstop
  · intro k hk
    rw [List.take_append_of_le_length (by omega)]
    exact hfrom k hk

theorem sent_le_of_occursAt {pre : List DetokenizeMsg} {fin : DetokenizeMsg}
    (h : Request m stops pre fin) {stop : Text} (hstop : stop ∈ stops) {p : Nat}
    (hocc : OccursAt stop (Readable.decode m.tokenBytes (bodyIds m pre fin)) p) :
    ∀ k ≤ pre.length, sent m.tokenBytes stops ((pre.take k).map DetokenizeMsg.nextToken) ≤ p := by
  intro k
  induction k with
  | zero => exact fun _ => Nat.zero_le _
  | succ k ih =>
      intro hk
      have hlt : k < pre.length := by omega
      have hmap : (pre.take (k + 1)).map DetokenizeMsg.nextToken =
          (pre.take k).map DetokenizeMsg.nextToken ++ [pre[k].nextToken] := by
        rw [List.take_succ_eq_append_getElem hlt, List.map_append, List.map_singleton]
      have hbody : bodyIds m pre fin = (pre.take (k + 1)).map DetokenizeMsg.nextToken ++
          ((pre.drop (k + 1)).map DetokenizeMsg.nextToken ++
            if m.eosTokenIds.contains fin.nextToken then [] else [fin.nextToken]) := by
        unfold bodyIds
        rw [← List.append_assoc, ← List.map_append, List.take_append_drop]
      have hpre : Readable.complete m.tokenBytes
          ((pre.take (k + 1)).map DetokenizeMsg.nextToken) <+:
            Readable.decode m.tokenBytes (bodyIds m pre fin) := by
        refine List.IsPrefix.trans ?_ (complete_prefix_decode m.tokenBytes _)
        rw [hbody]
        exact complete_grows m.tokenBytes _ _
      have hrel := released_le_of_occursAt (h.noStop (k + 1) hk) hpre hstop hocc
      rw [hmap] at hrel ⊢
      rw [sent_concat]
      exact max_le (ih (by omega)) hrel

theorem Request.sent_le_find {pre : List DetokenizeMsg} {fin : DetokenizeMsg}
    (h : Request m stops pre fin) {stop : Text} (hstop : stop ∈ stops) {p : Nat}
    (hfind : find stop (Readable.complete m.tokenBytes (bodyIds m pre fin)) = some p) :
    sent m.tokenBytes stops (pre.map DetokenizeMsg.nextToken) ≤ p := by
  obtain ⟨rest, hrest⟩ := complete_prefix_decode m.tokenBytes (bodyIds m pre fin)
  have hocc := (find_eq_some.1 hfind).1.append rest
  rw [hrest] at hocc
  simpa using sent_le_of_occursAt h hstop hocc pre.length le_rfl

theorem Request.stop_ne_nil {pre : List DetokenizeMsg} {fin : DetokenizeMsg}
    (h : Request m stops pre fin) {stop : Text} (hstop : stop ∈ stops) : stop ≠ [] := by
  rintro rfl
  have := find_eq_none.1 (h.noStop 0 (Nat.zero_le _) [] hstop) 0
  exact this List.nil_prefix

/-- If all complete text of the body was sent before the last message, it is shown. -/
theorem shown_body_of_sent {pre : List DetokenizeMsg} {fin : DetokenizeMsg}
    (h : sent m.tokenBytes stops (pre.map DetokenizeMsg.nextToken) =
      (Readable.complete m.tokenBytes (bodyIds m pre fin)).length) :
    shown m.tokenBytes (bodyIds m pre fin) = Readable.complete m.tokenBytes (bodyIds m pre fin) := by
  have hle := sent_le m.tokenBytes stops (pre.map DetokenizeMsg.nextToken)
  unfold bodyIds at h ⊢
  split at h
  · rename_i heos
    rw [if_pos heos] at ⊢
    rw [List.append_nil] at h ⊢
    exact shown_of_sent h
  · rename_i heos
    rw [if_neg heos]
    have hpre := complete_grows m.tokenBytes (pre.map DetokenizeMsg.nextToken) [fin.nextToken]
    have heq := hpre.eq_of_length_le (by omega)
    rw [← heq] at h
    exact shown_concat ((shown_of_sent h).trans heq)

/-- The sent text ends where it should exactly when the shown text was flushed. -/
theorem take_eq_cutAt {pre : List DetokenizeMsg} {fin : DetokenizeMsg}
    (h : Request m stops pre fin) :
    (Readable.complete m.tokenBytes (bodyIds m pre fin)).take
        (max (sent m.tokenBytes stops (pre.map DetokenizeMsg.nextToken))
          (emitEnd fin (shown m.tokenBytes (bodyIds m pre fin)))) =
      cutAt fin.matchedStop (Readable.complete m.tokenBytes (bodyIds m pre fin)) ↔
    Flushed m stops pre fin := by
  have hsp := shown_begins m.tokenBytes (bodyIds m pre fin)
  have hsent : sent m.tokenBytes stops (pre.map DetokenizeMsg.nextToken) ≤
      (Readable.complete m.tokenBytes (bodyIds m pre fin)).length :=
    (sent_le m.tokenBytes stops _).trans (complete_grows m.tokenBytes _ _).length_le
  -- without a matched stop all complete text is due
  have hwhole : max (sent m.tokenBytes stops (pre.map DetokenizeMsg.nextToken))
        (shown m.tokenBytes (bodyIds m pre fin)).length =
          (Readable.complete m.tokenBytes (bodyIds m pre fin)).length ↔
      shown m.tokenBytes (bodyIds m pre fin) =
        Readable.complete m.tokenBytes (bodyIds m pre fin) := by
    constructor
    · intro hmax
      rcases max_choice (sent m.tokenBytes stops (pre.map DetokenizeMsg.nextToken))
        (shown m.tokenBytes (bodyIds m pre fin)).length with hm | hm
      · rw [hm] at hmax
        exact shown_body_of_sent hmax
      · exact hsp.eq_of_length (hm.symm.trans hmax)
    · intro heq
      rw [heq]
      exact max_eq_right hsent
  have htake : ∀ n, n ≤ (Readable.complete m.tokenBytes (bodyIds m pre fin)).length →
      ((Readable.complete m.tokenBytes (bodyIds m pre fin)).take n =
        Readable.complete m.tokenBytes (bodyIds m pre fin) ↔
          n = (Readable.complete m.tokenBytes (bodyIds m pre fin)).length) := by
    intro n hn
    rw [List.take_eq_self_iff]
    omega
  unfold Flushed cutAt emitEnd
  rw [h.finished, if_pos rfl]
  cases hstop : fin.matchedStop with
  | none =>
      dsimp only [Option.bind]
      rw [htake _ (max_le hsent hsp.length_le), hwhole]
      simp
  | some stop =>
      have hmem := h.matched stop hstop
      have hne := h.stop_ne_nil hmem
      simp only [Option.bind_some, if_neg hne, Option.some.injEq, exists_eq_left']
      cases hseen : find stop (shown m.tokenBytes (bodyIds m pre fin)) with
      | some q =>
          -- the stop string is in the shown text
          obtain ⟨rest, hrest⟩ := hsp
          have hfull := find_append hseen hne rest
          rw [hrest] at hfull
          have hq := h.sent_le_find hmem hfull
          rw [hfull]
          simp only [Option.getD_some, max_eq_right hq]
          simp
      | none =>
          simp only [Option.getD_none, ne_eq, not_true, false_or]
          cases hfull : find stop (Readable.complete m.tokenBytes (bodyIds m pre fin)) with
          | none =>
              dsimp only
              rw [htake _ (max_le hsent hsp.length_le), hwhole]
              simp
          | some p =>
              have hp := h.sent_le_find hmem hfull
              have hlen := find_le hfull hne
              have hdiff : shown m.tokenBytes (bodyIds m pre fin) ≠
                  Readable.complete m.tokenBytes (bodyIds m pre fin) := by
                intro heq
                rw [heq, hfull] at hseen
                cases hseen
              dsimp only
              simp only [hdiff, false_or, Option.some.injEq, exists_eq_left']
              constructor
              · intro heq
                have := congrArg List.length heq
                rw [List.length_take_of_le (max_le hsent hsp.length_le),
                  List.length_take_of_le (by omega)] at this
                omega
              · intro hcond
                congr 1
                omega

/-- A tokenizer with one token that ends inside of a character, and one that completes it. -/
def raggedTokenizer : DetokenizeManager where
  decodeMap := fun _ => none
  tokenBytes := fun t => if t = 1 then [0x68, 0x69, 0xE6] else if t = 2 then [0x97, 0xA5] else []
  eosTokenIds := [0]

def lengthMsg (token : Token) (finished : Bool) : DetokenizeMsg where
  uid := 7
  nextToken := token
  finished := finished
  matchedStop := none
  stopStrs := []

theorem request_lengthMsg (pre : List Token) (t : Token) :
    Request raggedTokenizer [] (pre.map fun t => lengthMsg t false) (lengthMsg t true) := by
  refine ⟨fun msg hmsg => ?_, rfl, fun stop hstop => ?_, fun k _ stop hstop => ?_⟩
  · obtain ⟨t, -, rfl⟩ := List.mem_map.1 hmsg
    exact ⟨rfl, rfl⟩
  · cases hstop
  · cases hstop

end DetokenizeManager

end FreeToken
