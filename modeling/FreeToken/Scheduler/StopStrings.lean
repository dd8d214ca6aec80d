import FreeToken.Tokenizer.Readable

/-!
# Stop strings

The drain of one sampled token of a request: end of sequence, stop string or exhausted budget.  A
stop string is searched in the decode of the last tokens only, one more of them than the longest
stop string has characters.
-/

set_option autoImplicit false

namespace FreeToken

open Search

/-- What the scheduler decodes and compares drained tokens with. -/
structure StopConfig where
  tokenBytes : Token → List UInt8
  eosTokenIds : List Token
  toolcallAnchorId : Option Token

/-- The message to the detokenizer, with its reason for the finish. -/
structure TokenReply extends DetokenizeMsg where
  finishReason : Option String
  deriving DecidableEq, Repr

namespace StopConfig

variable (c : StopConfig)

def stopTexts (req : Req) : List Text := req.samplingParams.stopStrs.map String.toList

/-- `max(len(s) for s in stop_strs)` -/
def maxChars (stops : List Text) : Nat := ((stops.map List.length).max?).getD 0

/-- `_match_stop_str` -/
def matchStopStr (req : Req) : Option Text :=
  let promptLen := req.maxDeviceLen - req.outputLen
  if req.inputIds.length ≤ promptLen then none
  else
    let tailStart := max promptLen (req.inputIds.length - (maxChars (stopTexts req) + 1))
    let tail := Readable.decode c.tokenBytes (req.inputIds.drop tailStart)
    (stopTexts req).find? fun s => (find s tail).isSome

/-- An end of sequence that the request does not ignore. -/
def hitEos (req : Req) (nextToken : Token) : Bool :=
  !req.samplingParams.ignoreEos && c.eosTokenIds.contains nextToken

/-- The first sampled opener of a tool call is marked, unless it finishes the request. -/
def markAnchor (req : Req) (nextToken : Token) (finished : Bool) : Req :=
  if c.toolcallAnchorId = some nextToken ∧ req.toolcallAnchorLen = none ∧ finished = false then
    { req with toolcallAnchorLen := some req.inputIds.length }
  else req

/-- The drain of a token in `_process_last_data`. -/
def drainToken (req : Req) (nextToken : Token) : Py (Req × TokenReply) := do
  let req ← req.appendHost nextToken
  let hitLength := !req.canDecode
  let matchedStop :=
    if !c.hitEos req nextToken && !req.samplingParams.stopStrs.isEmpty then c.matchStopStr req
    else none
  let finished := hitLength || c.hitEos req nextToken || matchedStop.isSome
  let finishReason :=
    if finished then some (if c.hitEos req nextToken || matchedStop.isSome then "stop" else "length")
    else none
  return (c.markAnchor req nextToken finished,
    { uid := req.uid, nextToken, finished, matchedStop, stopStrs := stopTexts req, finishReason })

/-! ## The tokens of a request -/

/-- What no call of the scheduler between two drains changes in a request. -/
structure SameRequest (r r' : Req) : Prop where
  uid : r'.uid = r.uid
  inputIds : r'.inputIds = r.inputIds
  maxDeviceLen : r'.maxDeviceLen = r.maxDeviceLen
  outputLen : r'.outputLen = r.outputLen
  samplingParams : r'.samplingParams = r.samplingParams

/-- A request after the drains of its generated tokens: it ends with the first reply that is
finished. -/
inductive Generated : List Token → Req → List TokenReply → Prop
  | start {r : Req} (h : r.maxDeviceLen = r.inputIds.length + r.outputLen) : Generated [] r []
  | between {ts : List Token} {r r' : Req} {ms : List TokenReply} (h : Generated ts r ms)
      (hsame : SameRequest r r') : Generated ts r' ms
  | drain {ts : List Token} {r r' : Req} {ms : List TokenReply} {t : Token} {m : TokenReply}
      (h : Generated ts r ms) (hlive : ∀ m ∈ ms, m.finished = false)
      (hdrain : c.drainToken r t = .ok (r', m)) : Generated (ts ++ [t]) r' (ms ++ [m])

/-- The decode of the tokens contains a stop string. -/
def Stops (stops : List Text) (ids : List Token) : Prop :=
  ∃ s ∈ stops, ∃ i, OccursAt s (Readable.decode c.tokenBytes ids) i

/-- Every reply is a finishing match exactly at the first token after which the decode contains a
stop string. -/
def DetectedAtOnce (stops : List Text) (ts : List Token) (ms : List TokenReply) : Prop :=
  ∀ k m, ms[k]? = some m → ((m.finished = true ∧ m.matchedStop.isSome = true) ↔
    c.Stops stops (ts.take (k + 1)) ∧ ∀ j < k, ¬ c.Stops stops (ts.take (j + 1)))

/-! ## The window -/

/-- The tokens before the window. -/
def before (stops : List Text) (ids : List Token) : List Token :=
  ids.take (ids.length - (maxChars stops + 1))

/-- The last tokens, in which stop strings are searched. -/
def window (stops : List Text) (ids : List Token) : List Token :=
  ids.drop (ids.length - (maxChars stops + 1))

/-- How many bytes of the window belong to a character that begins before it. -/
def cutBytes (stops : List Text) (ids : List Token) : Nat :=
  Utf8.overhang (Utf8.run .none ((before stops ids).flatMap c.tokenBytes)).2
    ((window stops ids).flatMap c.tokenBytes)

/-- A stop string stands in the decode, in characters that begin in the window. -/
def Seen (stops : List Text) (ids : List Token) : Prop :=
  ∃ s ∈ stops, ∃ i, (Readable.decode c.tokenBytes (before stops ids)).length ≤ i ∧
    OccursAt s (Readable.decode c.tokenBytes ids) i

/-- A stop string begins among the replacement characters of a character the window has cut. -/
def Cut (stops : List Text) (ids : List Token) : Prop :=
  ∃ s ∈ stops, ∃ i < c.cutBytes stops ids,
    OccursAt s (List.replicate (c.cutBytes stops ids) Utf8.replacement ++
      (Readable.decode c.tokenBytes ids).drop
        (Readable.decode c.tokenBytes (before stops ids)).length) i

/-- The newest token is an end of sequence that the request does not ignore. -/
def EndsByEos (r : Req) (ids : List Token) : Prop := ∃ t, ids.getLast? = some t ∧ c.hitEos r t = true

/-- A stop string in the decode is in sight and not hidden behind an end of sequence, and none is
made up by a cut character. -/
structure Detectable (r : Req) (ids : List Token) : Prop where
  seen : c.Stops (stopTexts r) ids →
    ¬ c.EndsByEos r ids ∧ (c.Seen (stopTexts r) ids ∨ c.Cut (stopTexts r) ids)
  cut : c.Cut (stopTexts r) ids → ¬ c.EndsByEos r ids → c.Stops (stopTexts r) ids

section Window

variable {c} {stops : List Text} {ids : List Token}

theorem before_append_window (stops : List Text) (ids : List Token) :
    before stops ids ++ window stops ids = ids := List.take_append_drop _ _

theorem stops_of_seen (h : c.Seen stops ids) : c.Stops stops ids := by
  obtain ⟨s, hs, i, -, hocc⟩ := h
  exact ⟨s, hs, i, hocc⟩

/-- The window's text is what the whole decode shows of it behind the rest of a cut character. -/
theorem decode_window (stops : List Text) (ids : List Token) :
    Readable.decode c.tokenBytes (window stops ids) =
      List.replicate (c.cutBytes stops ids) Utf8.replacement ++
        (Readable.decode c.tokenBytes ids).drop
          (Readable.decode c.tokenBytes (before stops ids)).length := by
  have h := Utf8.decode_suffix ((before stops ids).flatMap c.tokenBytes)
    ((window stops ids).flatMap c.tokenBytes)
  rw [← List.flatMap_append, before_append_window] at h
  exact h

/-- What a search of the window finds. -/
theorem stops_window_iff :
    c.Stops stops (window stops ids) ↔ c.Seen stops ids ∨ c.Cut stops ids := by
  have hlen : (List.replicate (c.cutBytes stops ids) Utf8.replacement).length =
    c.cutBytes stops ids := List.length_replicate
  unfold Stops
  rw [decode_window]
  constructor
  · rintro ⟨s, hs, i, hocc⟩
    by_cases hi : i < c.cutBytes stops ids
    · exact .inr ⟨s, hs, i, hi, hocc⟩
    · obtain ⟨d, rfl⟩ := Nat.exists_eq_add_of_le (Nat.le_of_not_lt hi)
      nth_rewrite 2 [← hlen] at hocc
      have hrest := occursAt_append_left.1 hocc
      unfold OccursAt at hrest
      rw [List.drop_drop] at hrest
      exact .inl ⟨s, hs, _, Nat.le_add_right _ _, hrest⟩
  · rintro (⟨s, hs, i, hle, hocc⟩ | ⟨s, hs, i, -, hocc⟩)
    · obtain ⟨d, rfl⟩ := Nat.exists_eq_add_of_le hle
      refine ⟨s, hs, (List.replicate (c.cutBytes stops ids) Utf8.replacement).length + d, ?_⟩
      apply occursAt_append_left.2
      unfold OccursAt at hocc ⊢
      rwa [List.drop_drop]
    · exact ⟨s, hs, i, hocc⟩

/-- `_match_stop_str` searches the window of the generated tokens. -/
theorem matchStopStr_isSome_iff {req : Req} {prompt : List Token}
    (hinput : req.inputIds = prompt ++ ids) (hprompt : req.maxDeviceLen = prompt.length + req.outputLen)
    (hne : ids ≠ []) :
    (c.matchStopStr req).isSome = true ↔
      c.Seen (stopTexts req) ids ∨ c.Cut (stopTexts req) ids := by
  have hpos := List.length_pos_iff.2 hne
  have hlen : req.inputIds.length = prompt.length + ids.length := by
    rw [hinput, List.length_append]
  have hdrop : req.inputIds.drop (max (req.maxDeviceLen - req.outputLen)
      (req.inputIds.length - (maxChars (stopTexts req) + 1))) = window (stopTexts req) ids := by
    unfold window
    rw [show max (req.maxDeviceLen - req.outputLen)
      (req.inputIds.length - (maxChars (stopTexts req) + 1)) =
        prompt.length + (ids.length - (maxChars (stopTexts req) + 1)) by omega, hinput,
      ← List.drop_drop, List.drop_left]
  rw [← stops_window_iff, matchStopStr, if_neg (by omega)]
  dsimp only
  rw [hdrop, List.find?_isSome]
  constructor
  · rintro ⟨s, hs, hfind⟩
    obtain ⟨i, hi⟩ := Option.isSome_iff_exists.1 hfind
    exact ⟨s, hs, i, (find_eq_some.1 hi).1⟩
  · rintro ⟨s, hs, i, hocc⟩
    refine ⟨s, hs, ?_⟩
    rw [Option.isSome_iff_ne_none]
    intro hnone
    exact find_eq_none.1 hnone i hocc

theorem matchStopStr_nil {req : Req} (h : stopTexts req = []) : c.matchStopStr req = none := by
  unfold matchStopStr
  dsimp only
  rw [h]
  split
  · rfl
  · rfl

theorem sameRequest_markAnchor (req : Req) (t : Token) (finished : Bool) :
    SameRequest req (c.markAnchor req t finished) := by
  unfold markAnchor
  split
  · exact ⟨rfl, rfl, rfl, rfl, rfl⟩
  · exact ⟨rfl, rfl, rfl, rfl, rfl⟩

/-- What a drain does to the request, and when its reply is a match. -/
theorem drainToken_spec {r r' : Req} {t : Token} {m : TokenReply}
    (h : c.drainToken r t = .ok (r', m)) :
    SameRequest { r with inputIds := r.inputIds ++ [t] } r' ∧
      (m.matchedStop.isSome = true ↔ c.hitEos r t = false ∧
        (c.matchStopStr { r with inputIds := r.inputIds ++ [t] }).isSome = true) ∧
      (m.matchedStop.isSome = true → m.finished = true) := by
  unfold drainToken at h
  obtain ⟨req, hreq, h⟩ := Py.bind_eq_ok.1 h
  have hreq' : req = { r with inputIds := r.inputIds ++ [t] } := by
    unfold Req.appendHost at hreq
    split at hreq
    · cases hreq
    · obtain ⟨-, -, hreq⟩ := Py.bind_eq_ok.1 hreq
      exact (Py.pure_eq_ok.1 hreq).symm
  rw [Py.pure_eq_ok, Prod.mk.injEq] at h
  obtain ⟨rfl, rfl⟩ := h
  have heos : c.hitEos req t = c.hitEos r t := by
    rw [hreq']
    rfl
  rw [← hreq']
  refine ⟨?_, ?_, ?_⟩
  · exact sameRequest_markAnchor req t _
  · dsimp only
    rw [heos]
    cases hstop : req.samplingParams.stopStrs with
    | nil =>
        rw [matchStopStr_nil (by rw [stopTexts, hstop]; rfl)]
        cases c.hitEos r t <;> simp
    | cons s stops => cases c.hitEos r t <;> simp
  · dsimp only
    intro hmatch
    rw [hmatch, Bool.or_true]

end Window

/-! ## Runs -/

variable {c} {ts : List Token} {r : Req} {ms : List TokenReply}

/-- The generated tokens stand behind the prompt, and each has its reply. -/
theorem Generated.tokens (h : c.Generated ts r ms) : ms.length = ts.length ∧
    ∃ prompt, r.inputIds = prompt ++ ts ∧ r.maxDeviceLen = prompt.length + r.outputLen := by
  induction h with
  | @start r h => exact ⟨rfl, r.inputIds, (List.append_nil _).symm, h⟩
  | between _ hsame ih =>
      obtain ⟨hlen, prompt, hinput, hmax⟩ := ih
      refine ⟨hlen, prompt, ?_, ?_⟩
      · rw [hsame.inputIds, hinput]
      · rw [hsame.maxDeviceLen, hsame.outputLen, hmax]
  | drain _ _ hdrain ih =>
      obtain ⟨hlen, prompt, hinput, hmax⟩ := ih
      have hsame := (drainToken_spec hdrain).1
      refine ⟨by rw [List.length_append, List.length_append, hlen]; rfl, prompt, ?_, ?_⟩
      · rw [hsame.inputIds]
        dsimp only
        rw [hinput, List.append_assoc]
      · rw [hsame.maxDeviceLen, hsame.outputLen]
        exact hmax

theorem stopTexts_congr {r r' : Req} (h : r'.samplingParams = r.samplingParams) :
    stopTexts r' = stopTexts r := by
  unfold stopTexts
  rw [h]

theorem endsByEos_congr {r r' : Req} (h : r'.samplingParams = r.samplingParams) (ids : List Token) :
    c.EndsByEos r' ids ↔ c.EndsByEos r ids := by
  unfold EndsByEos hitEos
  rw [h]

/-- A reply is a finishing match exactly when the window shows a stop string and the token does not
end the sequence. -/
theorem Generated.match_iff (h : c.Generated ts r ms) {k : Nat} {m : TokenReply}
    (hm : ms[k]? = some m) : (m.finished = true ∧ m.matchedStop.isSome = true) ↔
      ¬ c.EndsByEos r (ts.take (k + 1)) ∧
        (c.Seen (stopTexts r) (ts.take (k + 1)) ∨ c.Cut (stopTexts r) (ts.take (k + 1))) := by
  induction h with
  | start _ => cases hm
  | between _ hsame ih =>
      rw [endsByEos_congr hsame.samplingParams, stopTexts_congr hsame.samplingParams]
      exact ih hm
  | @drain ts r r' ms t m' h _ hdrain ih =>
      obtain ⟨hlen, prompt, hinput, hmax⟩ := h.tokens
      obtain ⟨hsame, hmatch, hfinish⟩ := drainToken_spec hdrain
      have hparams : r'.samplingParams = r.samplingParams := hsame.samplingParams
      rw [endsByEos_congr hparams, stopTexts_congr hparams]
      by_cases hk : k < ms.length
      · rw [List.getElem?_append_left hk] at hm
        rw [List.take_append_of_le_length (by omega)]
        exact ih hm
      · rw [List.getElem?_append_right (Nat.le_of_not_lt hk)] at hm
        have hzero : k - ms.length = 0 := by
          by_contra hne
          rw [List.getElem?_eq_none (by rw [List.length_singleton]; omega)] at hm
          cases hm
        rw [hzero, List.getElem?_cons_zero, Option.some.injEq] at hm
        rw [← hm, List.take_of_length_le (by rw [List.length_append, List.length_singleton]; omega)]
        have hwindow : (c.matchStopStr { r with inputIds := r.inputIds ++ [t] }).isSome = true ↔
            c.Seen (stopTexts r) (ts ++ [t]) ∨ c.Cut (stopTexts r) (ts ++ [t]) :=
          matchStopStr_isSome_iff (by dsimp only; rw [hinput, List.append_assoc]) hmax (by simp)
        have heos : c.EndsByEos r (ts ++ [t]) ↔ c.hitEos r t = true := by
          unfold EndsByEos
          rw [List.getLast?_concat]
          simp
        rw [heos, Bool.not_eq_true]
        rw [hwindow] at hmatch
        constructor
        · exact fun hm => hmatch.1 hm.2
        · exact fun hm => ⟨hfinish (hmatch.2 hm), hmatch.2 hm⟩

/-- No reply before the last one is finished. -/
theorem Generated.unfinished (h : c.Generated ts r ms) {k : Nat} (hk : k + 1 < ms.length)
    {m : TokenReply} (hm : ms[k]? = some m) : m.finished = false := by
  induction h with
  | start _ => cases hm
  | between _ _ ih => exact ih hk hm
  | drain _ hlive _ _ =>
      rw [List.length_append, List.length_singleton] at hk
      rw [List.getElem?_append_left (by omega)] at hm
      exact hlive m (List.mem_of_getElem? hm)

/-- A request is finished by a stop string at once exactly when at each of its tokens a stop string
in the decode is in sight of the window and is not hidden by an end of sequence. -/
theorem generated_detected_iff (h : c.Generated ts r ms) :
    c.DetectedAtOnce (stopTexts r) ts ms ↔ ∀ k < ts.length, c.Detectable r (ts.take (k + 1)) := by
  have hlen := h.tokens.1
  constructor
  · intro hdet k hk
    have hm : ms[k]? = some ms[k] := List.getElem?_eq_getElem (by omega)
    have hiff := h.match_iff hm
    -- a stop string in an earlier decode would have finished the request
    have hearlier : ∀ j < k, ¬ c.Stops (stopTexts r) (ts.take (j + 1)) := by
      intro j
      induction j using Nat.strong_induction_on with
      | _ j ih =>
          intro hj hstops
          have hmj : ms[j]? = some ms[j] := List.getElem?_eq_getElem (by omega)
          have hfin := (hdet j _ hmj).2 ⟨hstops, fun i hi => ih i hi (hi.trans hj)⟩
          rw [h.unfinished (by omega) hmj] at hfin
          cases hfin.1
    constructor
    · exact fun hstops => hiff.1 ((hdet k _ hm).2 ⟨hstops, hearlier⟩)
    · exact fun hcut heos => ((hdet k _ hm).1 (hiff.2 ⟨heos, .inr hcut⟩)).1
  · intro hdet k m hm
    have hk : k < ms.length := (List.getElem?_eq_some_iff.1 hm).1
    have hmatch {j : Nat} (hj : j < ts.length) {m : TokenReply} (hm : ms[j]? = some m) :
        (m.finished = true ∧ m.matchedStop.isSome = true) ↔
          c.Stops (stopTexts r) (ts.take (j + 1)) := by
      rw [h.match_iff hm]
      constructor
      · rintro ⟨heos, hseen | hcut⟩
        · exact stops_of_seen hseen
        · exact (hdet j hj).cut hcut heos
      · exact (hdet j hj).seen
    rw [hmatch (by omega) hm]
    constructor
    · intro hstops
      refine ⟨hstops, fun j hj hbefore => ?_⟩
      have hmj : ms[j]? = some ms[j] := List.getElem?_eq_getElem (by omega)
      have hfin := ((hmatch (by omega) hmj).2 hbefore).1
      rw [h.unfinished (by omega) hmj] at hfin
      cases hfin
    · exact fun hstops => hstops.1

/-! ## A character of three tokens -/

/-- Forward and drain, token after token; `none` if a token comes after the end. -/
def feed (c : StopConfig) (req : Req) : List Token → Option (Req × List TokenReply)
  | [] => some (req, [])
  | t :: ts =>
      match c.drainToken req.completeOne t with
      | .error _ => none
      | .ok (req, m) =>
          if m.finished && !ts.isEmpty then none
          else (feed c req ts).map fun p => (p.1, m :: p.2)

theorem Generated.feed (h : c.Generated ts r ms) (hlive : ∀ m ∈ ms, m.finished = false)
    {us : List Token} {r' : Req} {ms' : List TokenReply} (hfeed : c.feed r us = some (r', ms')) :
    c.Generated (ts ++ us) r' (ms ++ ms') := by
  induction us generalizing ts r ms ms' with
  | nil =>
      rw [StopConfig.feed, Option.some.injEq, Prod.mk.injEq] at hfeed
      obtain ⟨rfl, rfl⟩ := hfeed
      rwa [List.append_nil, List.append_nil]
  | cons t us ih =>
      rw [StopConfig.feed] at hfeed
      split at hfeed
      · cases hfeed
      · rename_i r₁ m hdrain
        have hforward : c.Generated ts r.completeOne ms :=
          .between h ⟨rfl, rfl, rfl, rfl, rfl⟩
        have hone : c.Generated (ts ++ [t]) r₁ (ms ++ [m]) := .drain hforward hlive hdrain
        split at hfeed
        · cases hfeed
        · rename_i hgoes
          obtain ⟨⟨r₂, ms₂⟩, hrest, heq⟩ := Option.map_eq_some_iff.1 hfeed
          rw [Prod.mk.injEq] at heq
          obtain ⟨rfl, rfl⟩ := heq
          rw [List.append_cons, List.append_cons ms]
          cases us with
          | nil =>
              rw [StopConfig.feed, Option.some.injEq, Prod.mk.injEq] at hrest
              obtain ⟨rfl, rfl⟩ := hrest
              rwa [List.append_nil, List.append_nil]
          | cons u us =>
              apply ih hone _ hrest
              intro m' hm'
              rcases List.mem_append.1 hm' with hm' | hm'
              · exact hlive m' hm'
              · rw [List.mem_singleton.1 hm']
                simpa using hgoes

/-- Tokens of one byte each. -/
def byteTokens : StopConfig where
  tokenBytes t := [t.toUInt8]
  eosTokenIds := []
  toolcallAnchorId := none

/-- A request with a stop string of one character. -/
def oneStop : Req where
  cacheHandle := ⟨0, [], [], none⟩
  linearSlotIdx := none
  mambaPingPong := none
  mambaNextTrackIdx := 0
  mambaLastTrackSeqlen := none
  mambaRestoreSrc := none
  swaEvictedSeqlen := 0
  decodeBatchIdx := 0
  toolcallAnchorLen := none
  uid := 0
  inputIds := [0x41]
  deviceIds := [0x41]
  tableIdx := some 0
  cachedLen := 0
  deviceLen := 1
  maxDeviceLen := 9
  outputLen := 8
  samplingParams := ⟨false, 8, ["日"]⟩
  hasMm := false
  chunked := false
  aborted := false

/-- The reply to a token that neither matches nor finishes. -/
def plainReply (t : Token) : TokenReply where
  uid := 0
  nextToken := t
  finished := false
  matchedStop := none
  stopStrs := [['日']]
  finishReason := none

theorem oneStop_generated : ∃ r, r.samplingParams = oneStop.samplingParams ∧
    byteTokens.Generated [0xE6, 0x97, 0xA5] r
      [plainReply 0xE6, plainReply 0x97, plainReply 0xA5] := by
  have hstart : byteTokens.Generated [] oneStop [] := .start rfl
  have hfeed : (byteTokens.feed oneStop [0xE6, 0x97, 0xA5]).map
      (fun p => (p.1.samplingParams, p.2)) = some (oneStop.samplingParams,
        [plainReply 0xE6, plainReply 0x97, plainReply 0xA5]) := by decide
  obtain ⟨⟨r, ms⟩, hrun, heq⟩ := Option.map_eq_some_iff.1 hfeed
  rw [Prod.mk.injEq] at heq
  obtain ⟨hparams, rfl⟩ := heq
  exact ⟨r, hparams, hstart.feed (by simp) hrun⟩

theorem generated_detected_iff_oneStop : ∃ r, byteTokens.Generated [0xE6, 0x97, 0xA5] r
    [plainReply 0xE6, plainReply 0x97, plainReply 0xA5] ∧
      (byteTokens.DetectedAtOnce (stopTexts r) [0xE6, 0x97, 0xA5]
          [plainReply 0xE6, plainReply 0x97, plainReply 0xA5] ↔
        ∀ k < 3, byteTokens.Detectable r ([0xE6, 0x97, 0xA5].take (k + 1))) := by
  obtain ⟨r, -, hrun⟩ := oneStop_generated
  exact ⟨r, hrun, generated_detected_iff hrun⟩

/-- The decode of three tokens is the stop string, and the request goes on. -/
theorem oneStop_missed : ∃ r, byteTokens.Generated [0xE6, 0x97, 0xA5] r
    [plainReply 0xE6, plainReply 0x97, plainReply 0xA5] ∧
      ¬ byteTokens.DetectedAtOnce (stopTexts r) [0xE6, 0x97, 0xA5]
        [plainReply 0xE6, plainReply 0x97, plainReply 0xA5] := by
  obtain ⟨r, hparams, hrun⟩ := oneStop_generated
  refine ⟨r, hrun, fun hdet => ?_⟩
  rw [stopTexts_congr hparams] at hdet
  have hstops : byteTokens.Stops (stopTexts oneStop) [0xE6, 0x97, 0xA5] :=
    ⟨['日'], by decide, 0, occursAt_zero.2 (by decide)⟩
  have hnot : ∀ ids ∈ [[0xE6], [0xE6, 0x97]], ¬ byteTokens.Stops (stopTexts oneStop) ids := by
    rintro ids hids ⟨s, hs, i, hocc⟩
    have hs' : s = ['日'] := by simpa [stopTexts, oneStop] using hs
    have hnone : ∀ ids ∈ [[0xE6], [0xE6, 0x97]],
        find ['日'] (Readable.decode byteTokens.tokenBytes ids) = none := by decide
    rw [hs'] at hocc
    exact find_eq_none.1 (hnone ids hids) i hocc
  have hmatch := (hdet 2 _ rfl).2 ⟨hstops, fun j hj => hnot _ (by
    obtain rfl | rfl : j = 0 ∨ j = 1 := by omega
    · decide
    · decide)⟩
  exact absurd hmatch.1 (by decide)

end StopConfig

end FreeToken
