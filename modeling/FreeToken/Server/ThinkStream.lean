import FreeToken.Server.ReasoningParser

/-!
# Streaming a think block

What a stream returns once the parser is inside the reasoning block: the text up to the closer, or
up to the tool block that no closer follows, is the reasoning, and the rest is the answer.
-/

set_option autoImplicit false

namespace FreeToken

open Search Text

namespace Text

theorem rstrip_append (text : Text) : ∃ w, Blank w ∧ text = rstrip text ++ w := by
  refine ⟨text.rtakeWhile isSpace, fun c hc => ?_, ?_⟩
  · exact List.mem_rtakeWhile_imp hc
  · exact List.rdropWhile_append_rtakeWhile.symm

/-- `full` is `text` with white space behind it. -/
def Trimmed (text full : Text) : Prop := ∃ w, Blank w ∧ full = text ++ w

theorem Trimmed.refl (text : Text) : Trimmed text text :=
  ⟨[], by simp [Blank], (List.append_nil text).symm⟩

theorem trimmed_rstrip (text : Text) : Trimmed (rstrip text) text := rstrip_append text

theorem Trimmed.append_left {text full : Text} (h : Trimmed text full) (x : Text) :
    Trimmed (x ++ text) (x ++ full) := by
  obtain ⟨w, hw, rfl⟩ := h
  exact ⟨w, hw, (List.append_assoc x text w).symm⟩

/-- A token that neither starts nor ends with white space. -/
structure Marker (tok : Text) : Prop where
  head : ∃ c body, tok = c :: body ∧ isSpace c = false
  last : ∃ c body, tok = body ++ [c] ∧ isSpace c = false

theorem Marker.ne_nil {tok : Text} (h : Marker tok) : tok ≠ [] := by
  obtain ⟨c, body, rfl, -⟩ := h.head
  exact List.cons_ne_nil c body

/-- A marker starts in no white space. -/
theorem Marker.noStart {tok w text : Text} (h : Marker tok) (hw : Blank w) :
    NoStart tok w (w ++ text) := by
  intro i hi hocc
  obtain ⟨c, body, rfl, hc⟩ := h.head
  unfold OccursAt at hocc
  rw [List.drop_append_of_le_length hi.le, List.drop_eq_getElem_cons hi, List.cons_append,
    List.cons_prefix_cons] at hocc
  have := hw w[i] (List.getElem_mem hi)
  rw [← hocc.1, hc] at this
  cases this

end Text

namespace BaseReasoningParser

variable {p : BaseReasoningParser}

/-- The tokens are markers, and none that ends the reasoning stands in another token. -/
structure Markers (p : BaseReasoningParser) : Prop where
  opener : p.thinkStartToken ≠ []
  closer : Marker p.thinkEndToken
  tool : ∀ tok, p.toolStartToken = some tok → Marker tok
  closer_opener : ∀ i, ¬ OccursAt p.thinkEndToken p.thinkStartToken i
  tool_opener : ∀ tok, p.toolStartToken = some tok → ∀ i, ¬ OccursAt tok p.thinkStartToken i
  tool_closer : ∀ tok, p.toolStartToken = some tok → ∀ i, ¬ OccursAt tok p.thinkEndToken i

/-- The parser `p` in another state. -/
def at' (p : BaseReasoningParser) (inReasoning : Bool) (buffer : Text) (stripped : Bool) :
    BaseReasoningParser :=
  { p with inReasoning := inReasoning, buffer := buffer, strippedThinkStart := stripped }

/-- The reasoning and the answer of a text that starts in the reasoning block. -/
def answer (p : BaseReasoningParser) (text : Text) : ReasoningParseResult :=
  match find p.thinkEndToken text with
  | some i =>
      { reasoningText := text.take i, normalText := text.drop (i + p.thinkEndToken.length) }
  | none =>
      match p.toolIdx text with
      | some i => { reasoningText := text.take i, normalText := text.drop i }
      | none => { reasoningText := text }

/-- A closer behind a tool marker completes while the tool block is still held. -/
def Bounded (p : BaseReasoningParser) (text : Text) : Prop :=
  ∀ i j, find p.thinkEndToken text = some i → p.toolIdx text = some j → j < i →
    i + p.thinkEndToken.length ≤ j + toolHoldMax + 1

/-- Neither the closer nor the tool marker starts in the first part of the text. -/
structure Clear (p : BaseReasoningParser) (out text : Text) : Prop where
  closer : NoStart p.thinkEndToken out text
  tool : ∀ tok, p.toolStartToken = some tok → NoStart tok out text

theorem clear_nil (p : BaseReasoningParser) (text : Text) : Clear p [] text :=
  ⟨noStart_nil _ _, fun _ _ => noStart_nil _ _⟩

theorem Markers.clear_blank (h : Markers p) {w text : Text} (hw : Blank w) :
    Clear p w (w ++ text) :=
  ⟨h.closer.noStart hw, fun tok htok => (h.tool tok htok).noStart hw⟩

theorem Markers.toolIdx_eq (h : Markers p) (text : Text) :
    p.toolIdx text = p.toolStartToken.bind fun tok => find tok text := by
  unfold toolIdx
  cases htok : p.toolStartToken with
  | none => rfl
  | some tok => exact if_neg (h.tool tok htok).ne_nil

theorem Markers.toolIdx_some (h : Markers p) {text : Text} {i : Nat}
    (hi : p.toolIdx text = some i) : ∃ tok, p.toolStartToken = some tok ∧ find tok text = some i := by
  rw [h.toolIdx_eq, Option.bind_eq_some_iff] at hi
  exact hi

theorem Markers.toolIdx_append (h : Markers p) {x : Text} {i : Nat} (hi : p.toolIdx x = some i)
    (y : Text) : p.toolIdx (x ++ y) = some i := by
  obtain ⟨tok, htok, hfind⟩ := h.toolIdx_some hi
  rw [h.toolIdx_eq, htok, Option.bind_some]
  exact find_append hfind (h.tool tok htok).ne_nil y

theorem Markers.toolIdx_none (h : Markers p) {text tok : Text} (hi : p.toolIdx text = none)
    (htok : p.toolStartToken = some tok) : find tok text = none := by
  rwa [h.toolIdx_eq, htok, Option.bind_some] at hi

theorem Markers.toolIdx_skips (h : Markers p) {out cur : Text}
    (hs : ∀ tok, p.toolStartToken = some tok → Skips tok out cur) :
    p.toolIdx (out ++ cur) = (p.toolIdx cur).map (out.length + ·) := by
  rw [h.toolIdx_eq, h.toolIdx_eq]
  cases htok : p.toolStartToken with
  | none => rfl
  | some tok => exact (hs tok htok).find

/-! ## One chunk inside the reasoning block -/

/-- The reasoning so far is `out`, the buffer holds the rest of the text so far. -/
structure Going (p : BaseReasoningParser) (text out buffer : Text) : Prop where
  pre : out ++ buffer <+: text
  closer : find p.thinkEndToken (out ++ buffer) = none
  clear : Clear p out text
  tool : ∀ i, p.toolIdx (out ++ buffer) = some i → out.length = i ∧ buffer.length ≤ toolHoldMax

/-- A closer that was not seen does not start before a tool marker that was. -/
theorem Markers.closer_after (h : Markers p) {x y : Text} {i j : Nat}
    (hnone : find p.thinkEndToken x = none) (htool : p.toolIdx x = some j)
    (hocc : OccursAt p.thinkEndToken (x ++ y) i) : j < i := by
  by_contra hle
  obtain ⟨tok, htok, hfind⟩ := h.toolIdx_some htool
  have hlt := find_le hfind (h.tool tok htok).ne_nil
  have hend : x.length < i + p.thinkEndToken.length := by
    by_contra hle'
    exact find_eq_none.1 hnone i (hocc.of_append (by omega))
  -- the tool marker would stand inside the closer
  refine h.tool_closer tok htok (j - i) ?_
  have hoccT := ((find_eq_some.1 hfind).1).append y
  unfold OccursAt at hocc hoccT ⊢
  obtain ⟨s, hs⟩ := hocc
  have hdrop : p.thinkEndToken.drop (j - i) <+: (x ++ y).drop j := by
    refine ⟨s, ?_⟩
    have := congrArg (List.drop (j - i)) hs
    rw [List.drop_drop, Nat.add_sub_cancel' (Nat.le_of_not_lt hle),
      List.drop_append_of_le_length (by omega)] at this
    exact this
  refine List.prefix_of_prefix_length_le hoccT hdrop ?_
  rw [List.length_drop]
  omega

inductive Parsed (p : BaseReasoningParser) (stripped : Bool) (text out cur : Text) :
    BaseReasoningParser × ReasoningParseResult → Prop
  | closed {i : Nat} (r : Text) (hi : find p.thinkEndToken (out ++ cur) = some i)
      (hr : Trimmed (out ++ r) ((out ++ cur).take i)) :
      Parsed p stripped text out cur (p.at' false [] stripped,
        { reasoningText := r, normalText := (out ++ cur).drop (i + p.thinkEndToken.length) })
  | committed {i : Nat} (r : Text) (hnone : find p.thinkEndToken (out ++ cur) = none)
      (hi : p.toolIdx (out ++ cur) = some i) (hlt : toolHoldMax < ((out ++ cur).drop i).length)
      (hr : out ++ r = (out ++ cur).take i) :
      Parsed p stripped text out cur (p.at' false [] stripped,
        { reasoningText := r, normalText := (out ++ cur).drop i })
  | going (r buffer : Text) (hr : out ++ r ++ buffer = out ++ cur)
      (h : Going p text (out ++ r) buffer) :
      Parsed p stripped text out cur (p.at' true buffer stripped, { reasoningText := r })

theorem parseCurrent_closed (p : BaseReasoningParser) {text : Text} {i : Nat}
    (hr : p.inReasoning = true) (hi : find p.thinkEndToken text = some i) :
    p.parseCurrent text = ({ p with buffer := [], inReasoning := false },
      { reasoningText := rstrip (text.take i)
        normalText := text.drop (i + p.thinkEndToken.length) }) := by
  unfold parseCurrent
  rw [if_pos hr, hi]

theorem parseCurrent_committed (p : BaseReasoningParser) {text : Text} {i : Nat}
    (hr : p.inReasoning = true) (hnone : find p.thinkEndToken text = none)
    (hi : p.toolIdx text = some i) (hlt : toolHoldMax < (text.drop i).length) :
    p.parseCurrent text = ({ p with buffer := [], inReasoning := false },
      { reasoningText := text.take i, normalText := text.drop i }) := by
  unfold parseCurrent
  rw [if_pos hr, if_pos hr, hnone, hi]
  exact if_pos hlt

theorem parseCurrent_held (p : BaseReasoningParser) {text : Text} {i : Nat}
    (hr : p.inReasoning = true) (hnone : find p.thinkEndToken text = none)
    (hi : p.toolIdx text = some i) (hle : ¬ toolHoldMax < (text.drop i).length) :
    p.parseCurrent text =
      ({ p with buffer := text.drop i }, { reasoningText := text.take i }) := by
  unfold parseCurrent
  rw [if_pos hr, if_pos hr, hnone, hi]
  exact if_neg hle

/-- What a chunk without a complete marker leaves in the buffer, and what it emits. -/
theorem parseCurrent_quiet (p : BaseReasoningParser) (text : Text)
    (hcloser : p.inReasoning = true → find p.thinkEndToken text = none)
    (htool : p.inReasoning = true → p.toolIdx text = none) :
    ∃ k, k ≤ text.length ∧
      (p.inReasoning = true ∧ k = 0 ∨ k = text.length - partialSuffix p.trackedTokens text) ∧
      p.parseCurrent text = ({ p with buffer := text.drop k },
        if p.inReasoning then { reasoningText := text.take k }
        else { normalText := text.take k }) := by
  have hE : (if p.inReasoning then find p.thinkEndToken text else none) = none := by
    split
    · rename_i hr
      exact hcloser hr
    · rfl
  have hT : (if p.inReasoning then p.toolIdx text else none) = none := by
    split
    · rename_i hr
      exact htool hr
    · rfl
  unfold parseCurrent splitTrailingPartial
  rw [hE, hT]
  dsimp only
  by_cases hacc : (p.inReasoning && !p.streamReasoning) = true
  · have hin : p.inReasoning = true := (Bool.and_eq_true _ _ ▸ hacc).1
    refine ⟨0, Nat.zero_le _, .inl ⟨hin, rfl⟩, ?_⟩
    rw [if_pos hacc, if_pos hin]
    rfl
  · refine ⟨_, Nat.sub_le _ _, .inr rfl, ?_⟩
    rw [if_neg hacc]
    cases p.inReasoning <;> rfl

theorem closer_mem_tracked (p : BaseReasoningParser) : p.thinkEndToken ∈ p.trackedTokens := by
  unfold trackedTokens
  simp

theorem tool_mem_tracked (p : BaseReasoningParser) {tok : Text}
    (htok : p.toolStartToken = some tok) (hne : tok ≠ []) : tok ∈ p.trackedTokens := by
  unfold trackedTokens
  rw [htok]
  simp [hne]

theorem opener_mem_tracked (p : BaseReasoningParser) (hs : p.strippedThinkStart = false) :
    p.thinkStartToken ∈ p.trackedTokens := by
  unfold trackedTokens
  rw [hs]
  simp

/-- Once the tool marker was seen before any closer, nothing starts in front of it. -/
theorem Markers.clear_tool (h : Markers p) {text x out : Text} {i : Nat} (hpre : x <+: text)
    (hcloser : find p.thinkEndToken x = none) (htool : p.toolIdx x = some i)
    (hout : x.take i = out) : Clear p out text := by
  obtain ⟨s, rfl⟩ := hpre
  have hlen : out.length ≤ i := by
    rw [← hout]
    exact List.length_take_le _ _
  constructor
  · intro j hj hocc
    have := h.closer_after hcloser htool hocc
    omega
  · intro tok htok j hj hocc
    obtain ⟨tok', htok', hfind⟩ := h.toolIdx_some htool
    rw [htok] at htok'
    cases htok'
    have hfirst := find_append hfind (h.tool tok htok).ne_nil s
    exact (find_eq_some.1 hfirst).2 j (by omega) hocc

theorem parseCurrent_parsed (hm : Markers p) {text out cur : Text} (hpre : out ++ cur <+: text)
    (hclear : Clear p out text) (buffer : Text) (stripped : Bool) :
    Parsed p stripped text out cur ((p.at' true buffer stripped).parseCurrent cur) := by
  have hcloser := (hclear.closer.skips hpre).find
  have htool := hm.toolIdx_skips fun tok htok => (hclear.tool tok htok).skips hpre
  cases hE : find p.thinkEndToken cur with
  | some i =>
      rw [hE, Option.map_some] at hcloser
      rw [parseCurrent_closed (p.at' true buffer stripped) rfl hE]
      have hdrop : cur.drop (i + p.thinkEndToken.length) =
          (out ++ cur).drop (out.length + i + p.thinkEndToken.length) := by
        rw [Nat.add_assoc, List.drop_length_add_append]
      have hclosed : Parsed p stripped text out cur (p.at' false [] stripped,
          { reasoningText := rstrip (cur.take i)
            normalText := (out ++ cur).drop (out.length + i + p.thinkEndToken.length) }) := by
        refine .closed _ hcloser ?_
        rw [List.take_length_add_append]
        exact (trimmed_rstrip _).append_left out
      rw [← hdrop] at hclosed
      exact hclosed
  | none =>
      rw [hE, Option.map_none] at hcloser
      cases hT : p.toolIdx cur with
      | some i =>
          rw [hT, Option.map_some] at htool
          have hdrop : (out ++ cur).drop (out.length + i) = cur.drop i :=
            List.drop_length_add_append _
          have htake : (out ++ cur).take (out.length + i) = out ++ cur.take i :=
            List.take_length_add_append _
          by_cases hlt : toolHoldMax < (cur.drop i).length
          · rw [parseCurrent_committed (p.at' true buffer stripped) rfl hE hT hlt]
            have hcommit : Parsed p stripped text out cur (p.at' false [] stripped,
                { reasoningText := cur.take i
                  normalText := (out ++ cur).drop (out.length + i) }) :=
              .committed _ hcloser htool (by rw [hdrop]; exact hlt) htake.symm
            rw [hdrop] at hcommit
            exact hcommit
          · rw [parseCurrent_held (p.at' true buffer stripped) rfl hE hT hlt]
            refine .going _ _ ?_ ⟨?_, ?_, ?_, ?_⟩
            · rw [List.append_assoc, List.take_append_drop]
            · rwa [List.append_assoc, List.take_append_drop]
            · rwa [List.append_assoc, List.take_append_drop]
            · exact hm.clear_tool hpre hcloser htool htake
            · intro j hj
              rw [List.append_assoc, List.take_append_drop, htool] at hj
              cases hj
              obtain ⟨tok, htok, hfind⟩ := hm.toolIdx_some hT
              have hle := find_le hfind (hm.tool tok htok).ne_nil
              refine ⟨?_, Nat.le_of_not_lt hlt⟩
              rw [List.length_append, List.length_take]
              omega
      | none =>
          rw [hT, Option.map_none] at htool
          obtain ⟨k, hk, hsplit, hquiet⟩ := parseCurrent_quiet (p.at' true buffer stripped) cur
            (fun _ => hE) (fun _ => hT)
          rw [hquiet]
          have hall : out ++ cur.take k ++ cur.drop k = out ++ cur := by
            rw [List.append_assoc, List.take_append_drop]
          refine .going _ _ hall ⟨?_, ?_, ?_, ?_⟩
          · rwa [hall]
          · rwa [hall]
          · rcases hsplit with ⟨-, rfl⟩ | rfl
            · rw [List.take_zero, List.append_nil]
              exact hclear
            · exact ⟨hclear.closer.hold hpre hcloser (closer_mem_tracked _), fun tok htok =>
                (hclear.tool tok htok).hold hpre (hm.toolIdx_none htool htok)
                  (tool_mem_tracked (p.at' true buffer stripped) htok (hm.tool tok htok).ne_nil)⟩
          · intro i hi
            rw [hall, htool] at hi
            cases hi

/-! ## Whole streams -/

theorem stream_nil (p : BaseReasoningParser) : p.stream [] = p.flush.2 := rfl

theorem stream_cons (p : BaseReasoningParser) (chunk : Text) (chunks : List Text) :
    p.stream (chunk :: chunks) = (p.parseStreamingIncrement chunk).2.append
      ((p.parseStreamingIncrement chunk).1.stream chunks) :=
  ReasoningParseResult.append_assoc _ _ _

/-- The opener is not looked for any more, or it does not come. -/
def Settled (p : BaseReasoningParser) (stripped : Bool) (text : Text) : Prop :=
  stripped = true ∨ find p.thinkStartToken text = none

theorem Settled.within {stripped : Bool} {x text : Text} (h : Settled p stripped text)
    (hx : x <:+: text) : Settled p stripped x :=
  h.imp_right fun hnone => find_none_within hnone hx

theorem Settled.parse {stripped inReasoning : Bool} {buffer chunk : Text}
    (h : Settled p stripped (buffer ++ chunk)) :
    (p.at' inReasoning buffer stripped).parseStreamingIncrement chunk =
      (p.at' inReasoning (buffer ++ chunk) stripped).parseCurrent (buffer ++ chunk) := by
  unfold parseStreamingIncrement
  refine if_neg ?_
  rcases h with rfl | hnone
  · simp [at']
  · show ¬(!stripped && contains p.thinkStartToken (buffer ++ chunk)) = true
    unfold contains
    rw [hnone]
    simp

theorem flush_eq (p : BaseReasoningParser) (inReasoning : Bool) (buffer : Text) (stripped : Bool) :
    (p.at' inReasoning buffer stripped).flush.2 =
      if buffer = [] then {}
      else if p.startsTool (lstrip buffer) || !inReasoning then { normalText := buffer }
      else { reasoningText := buffer } := by
  unfold flush
  show (if buffer = [] then _ else if p.startsTool (lstrip buffer) then _
    else if inReasoning then _ else _ : BaseReasoningParser × ReasoningParseResult).2 = _
  cases p.startsTool (lstrip buffer) <;> cases inReasoning <;> split <;> rfl

theorem flush_normal (p : BaseReasoningParser) (buffer : Text) (stripped : Bool) :
    (p.at' false buffer stripped).flush.2 = { normalText := buffer } := by
  rw [flush_eq, Bool.not_false, Bool.or_true, if_pos rfl]
  split
  · rename_i hnil
    rw [hnil]
  · rfl

/-- Behind the reasoning block, everything is answer. -/
theorem stream_normal : ∀ (chunks : List Text) (buffer : Text) (stripped : Bool),
    Settled p stripped (buffer ++ chunks.flatten) →
    (p.at' false buffer stripped).stream chunks = { normalText := buffer ++ chunks.flatten } := by
  intro chunks
  induction chunks with
  | nil =>
      intro buffer stripped _
      rw [stream_nil, flush_normal, List.flatten_nil, List.append_nil]
  | cons chunk chunks ih =>
      intro buffer stripped h
      rw [List.flatten_cons, ← List.append_assoc] at h
      obtain ⟨k, -, -, hquiet⟩ := parseCurrent_quiet (p.at' false (buffer ++ chunk) stripped)
        (buffer ++ chunk) (fun hr => by cases hr) (fun hr => by cases hr)
      rw [stream_cons, (h.within ⟨[], chunks.flatten, rfl⟩).parse, hquiet]
      have hsplit := List.take_append_drop k (buffer ++ chunk)
      have hrest := ih ((buffer ++ chunk).drop k) stripped
        (h.within ⟨(buffer ++ chunk).take k, [], by
          rw [← List.append_assoc, List.append_nil, hsplit]⟩)
      show ReasoningParseResult.append _ ((p.at' false ((buffer ++ chunk).drop k) stripped).stream
        chunks) = _
      rw [hrest, List.flatten_cons, ← List.append_assoc]
      unfold ReasoningParseResult.append
      simp only [at', Bool.false_eq_true, if_false, List.append_nil]
      rw [← List.append_assoc, hsplit]

theorem lstrip_marker {tok : Text} (h : Marker tok) (text : Text) :
    lstrip (tok ++ text) = tok ++ text := by
  obtain ⟨c, body, rfl, hc⟩ := h.head
  unfold lstrip
  rw [List.cons_append, List.dropWhile_cons_of_neg (by simp [hc])]

/-- What is left at the end of the stream: a held tool block is answer, the rest reasoning. -/
theorem flush_going (hm : Markers p) {out buffer : Text} (h : Going p (out ++ buffer) out buffer)
    (stripped : Bool) :
    out ++ (p.at' true buffer stripped).flush.2.reasoningText =
        (p.answer (out ++ buffer)).reasoningText ∧
      (p.at' true buffer stripped).flush.2.normalText = (p.answer (out ++ buffer)).normalText := by
  unfold answer
  rw [h.closer, flush_eq, Bool.not_true, Bool.or_false]
  dsimp only
  cases htool : p.toolIdx (out ++ buffer) with
  | some i =>
      obtain ⟨tok, htok, hfind⟩ := hm.toolIdx_some htool
      obtain ⟨hlen, -⟩ := h.tool i htool
      have hpre : tok <+: buffer := by
        have hocc := (find_eq_some.1 hfind).1
        unfold OccursAt at hocc
        rwa [List.drop_left' hlen] at hocc
      obtain ⟨z, rfl⟩ := hpre
      have hne := (hm.tool tok htok).ne_nil
      have hfirst : p.startsTool (lstrip (tok ++ z)) = true := by
        unfold startsTool
        rw [htok, lstrip_marker (hm.tool tok htok)]
        simp [hne]
      rw [if_neg (by simp [hne]), if_pos hfirst]
      dsimp only
      rw [List.take_left' hlen, List.drop_left' hlen]
      exact ⟨List.append_nil _, rfl⟩
  | none =>
      have hno : p.startsTool (lstrip buffer) = false := by
        unfold startsTool
        cases htok : p.toolStartToken with
        | none => rfl
        | some tok =>
            have hsuf : lstrip buffer <:+: out ++ buffer :=
              ((List.dropWhile_suffix isSpace).trans (List.suffix_append out buffer)).isInfix
            have hfirst := find_eq_none.1
              (find_none_within (hm.toolIdx_none htool htok) hsuf) 0
            rw [occursAt_zero] at hfirst
            simp [hfirst]
      rw [hno, if_neg Bool.false_ne_true]
      split
      · rename_i hnil
        rw [hnil]
        exact ⟨rfl, rfl⟩
      · exact ⟨rfl, rfl⟩

theorem Markers.answer_closed (h : Markers p) {x : Text} {i : Nat}
    (hi : find p.thinkEndToken x = some i) (y : Text) :
    p.answer (x ++ y) = { reasoningText := x.take i
                          normalText := x.drop (i + p.thinkEndToken.length) ++ y } := by
  have hle := find_le hi h.closer.ne_nil
  unfold answer
  rw [find_append hi h.closer.ne_nil]
  dsimp only
  rw [List.take_append_of_le_length (by omega), List.drop_append_of_le_length hle]

/-- A tool block that was given up has no closer behind it. -/
theorem Markers.answer_committed (h : Markers p) {x y : Text} {i : Nat}
    (hb : Bounded p (x ++ y)) (hnone : find p.thinkEndToken x = none)
    (hi : p.toolIdx x = some i) (hlt : toolHoldMax < (x.drop i).length) :
    p.answer (x ++ y) = { reasoningText := x.take i, normalText := x.drop i ++ y } := by
  have htool := h.toolIdx_append hi y
  rw [List.length_drop] at hlt
  have hopen : find p.thinkEndToken (x ++ y) = none := by
    cases hj : find p.thinkEndToken (x ++ y) with
    | none => rfl
    | some j =>
        have hocc := (find_eq_some.1 hj).1
        have hbound := hb j i hj htool (h.closer_after hnone hi hocc)
        have hend : x.length < j + p.thinkEndToken.length := by
          by_contra hle
          exact find_eq_none.1 hnone j (hocc.of_append (by omega))
        omega
  unfold answer
  rw [hopen, htool]
  dsimp only
  rw [List.take_append_of_le_length (by omega), List.drop_append_of_le_length (by omega)]

/-- Text that is returned as reasoning, or as answer. -/
def before (r : Bool) (text : Text) : ReasoningParseResult :=
  if r then { reasoningText := text } else { normalText := text }

@[simp] theorem before_true (text : Text) : before true text = { reasoningText := text } := rfl

@[simp] theorem before_false (text : Text) : before false text = { normalText := text } := rfl

theorem before_append (r : Bool) (x y : Text) : (before r x).append (before r y) =
    before r (x ++ y) := by
  unfold before ReasoningParseResult.append
  cases r <;> simp

/-- The streamed reasoning and answer are those of the text, but for white space before a closer. -/
structure Answered (p : BaseReasoningParser) (text : Text) (result : ReasoningParseResult) :
    Prop where
  reasoning : Trimmed result.reasoningText (p.answer text).reasoningText
  exact : find p.thinkEndToken text = none →
    result.reasoningText = (p.answer text).reasoningText
  normal : result.normalText = (p.answer text).normalText

/-- What was returned before, `out`, and is returned from here on. -/
def Answers (p : BaseReasoningParser) (text out : Text) (first rest : ReasoningParseResult) : Prop :=
  Answered p text ((before true out).append (first.append rest))

/-- Either the reasoning goes on, or the rest of the stream is answer. -/
theorem Parsed.going_or_answers (hm : Markers p) {text out cur : Text} (hb : Bounded p text)
    {stripped : Bool} (hs : Settled p stripped text) {chunks : List Text}
    (htext : out ++ cur ++ chunks.flatten = text)
    {first : BaseReasoningParser × ReasoningParseResult}
    (h : Parsed p stripped text out cur first) :
    (∃ r buffer, first = (p.at' true buffer stripped, { reasoningText := r }) ∧
        out ++ r ++ buffer = out ++ cur ∧ Going p text (out ++ r) buffer) ∨
      Answers p text out first.2 (first.1.stream chunks) := by
  subst htext
  have hrest : Settled p stripped ([] ++ chunks.flatten) :=
    hs.within ⟨out ++ cur, [], List.append_nil _⟩
  have hnormal := stream_normal chunks [] stripped hrest
  rw [List.nil_append] at hnormal
  cases h with
  | closed r hi hr =>
      refine .inr ⟨?_, fun hnone => ?_, ?_⟩
      · rw [hm.answer_closed hi, hnormal]
        simpa [ReasoningParseResult.append] using hr
      · rw [find_append hi hm.closer.ne_nil] at hnone
        cases hnone
      · rw [hm.answer_closed hi, hnormal]
        rfl
  | @committed i r hnone hi hlt hr =>
      have hreason : (before true out).append (ReasoningParseResult.append
          { reasoningText := r, normalText := (out ++ cur).drop i }
          { normalText := chunks.flatten }) =
          p.answer (out ++ cur ++ chunks.flatten) := by
        rw [hm.answer_committed hb hnone hi hlt, ← hr]
        simp [ReasoningParseResult.append]
      refine .inr ?_
      unfold Answers
      rw [hnormal, hreason]
      exact ⟨.refl _, fun _ => rfl, rfl⟩
  | going r buffer hr h => exact .inl ⟨r, buffer, rfl, hr, h⟩

/-- The parser inside the reasoning block, on the rest of its text. -/
theorem stream_current (hm : Markers p) {text : Text} (hb : Bounded p text) {stripped : Bool}
    (hs : Settled p stripped text) : ∀ (chunks : List Text) (out cur buffer : Text),
    out ++ cur ++ chunks.flatten = text → Clear p out text →
    Answers p text out ((p.at' true buffer stripped).parseCurrent cur).2
      (((p.at' true buffer stripped).parseCurrent cur).1.stream chunks) := by
  intro chunks
  induction chunks with
  | nil =>
      intro out cur buffer htext hclear
      have hparsed := parseCurrent_parsed hm ⟨_, htext⟩ hclear buffer stripped
      rcases hparsed.going_or_answers hm hb hs htext with ⟨r, rest, hfirst, hr, h⟩ | hdone
      · rw [List.flatten_nil, List.append_nil] at htext
        rw [← htext, ← hr] at h ⊢
        obtain ⟨hreason, hnormal⟩ := flush_going hm h stripped
        have hall : (before true out).append (ReasoningParseResult.append { reasoningText := r }
            (p.at' true rest stripped).flush.2) = p.answer (out ++ r ++ rest) := by
          rw [← ReasoningParseResult.append_assoc]
          unfold ReasoningParseResult.append
          simp only [before_true, List.nil_append, List.append_nil, hreason, hnormal]
        unfold Answers
        rw [hfirst, stream_nil, hall]
        exact ⟨.refl _, fun _ => rfl, rfl⟩
      · exact hdone
  | cons chunk chunks ih =>
      intro out cur buffer htext hclear
      have hparsed := parseCurrent_parsed hm ⟨_, htext⟩ hclear buffer stripped
      rcases hparsed.going_or_answers hm hb hs htext with ⟨r, rest, hfirst, hr, h⟩ | hdone
      · have hall : out ++ r ++ (rest ++ chunk) ++ chunks.flatten = text := by
          rw [← htext, ← List.append_assoc (out ++ r), hr, List.flatten_cons]
          simp only [List.append_assoc]
        have hchunk : Settled p stripped (rest ++ chunk) :=
          hs.within ⟨out ++ r, chunks.flatten, hall⟩
        have hanswers := ih (out ++ r) (rest ++ chunk) (rest ++ chunk) hall h.clear
        unfold Answers at hanswers ⊢
        rw [← before_append, ReasoningParseResult.append_assoc] at hanswers
        rw [hfirst, stream_cons, hchunk.parse]
        exact hanswers
      · exact hdone

/-- What a text that comes in one chunk, inside the reasoning block, is streamed to. -/
def whole (p : BaseReasoningParser) (text : Text) : ReasoningParseResult :=
  match find p.thinkEndToken text with
  | some i =>
      { reasoningText := rstrip (text.take i)
        normalText := text.drop (i + p.thinkEndToken.length) }
  | none => p.answer text

theorem parseCurrent_whole (hm : Markers p) {stripped : Bool} {text : Text}
    (hs : Settled p stripped text) (buffer : Text) :
    ((p.at' true buffer stripped).parseCurrent text).2.append
      (((p.at' true buffer stripped).parseCurrent text).1.stream []) = p.whole text := by
  unfold whole
  cases hE : find p.thinkEndToken text with
  | some i =>
      rw [parseCurrent_closed (p.at' true buffer stripped) rfl hE]
      simp [stream_nil, flush, ReasoningParseResult.append, at']
  | none =>
      have hb : Bounded p text := fun i j hi => by
        rw [hE] at hi
        cases hi
      have hanswers := stream_current hm hb hs [] [] text buffer (List.append_nil _) (clear_nil _ _)
      have hreason := hanswers.exact hE
      have hnormal := hanswers.normal
      rw [before_true, ReasoningParseResult.append_reasoningText, List.nil_append] at hreason
      rw [before_true, ReasoningParseResult.append_normalText, List.nil_append] at hnormal
      dsimp only
      rw [ReasoningParseResult.mk.injEq]
      exact ⟨hreason, hnormal⟩

/-! ## Before the opener -/

/-- The text is `pre`, the opener, and `body`: the opener does not come again, and no closer or tool
marker starts before it, with the opener in the text or taken out. -/
structure Opened (p : BaseReasoningParser) (pre body : Text) : Prop where
  first : find p.thinkStartToken (pre ++ (p.thinkStartToken ++ body)) = some pre.length
  once : find p.thinkStartToken body = none
  clear : Clear p pre (pre ++ (p.thinkStartToken ++ body))
  joined : Clear p pre (pre ++ body)

/-- No token that stands neither in `pre` nor in the opener is seen before the opener is. -/
theorem find_before_opener {tok pre opener body x : Text} (hne : tok ≠ [])
    (hclear : NoStart tok pre (pre ++ (opener ++ body))) (hopener : ∀ i, ¬ OccursAt tok opener i)
    (hx : x <+: pre ++ (opener ++ body)) (hlt : x.length < pre.length + opener.length) :
    find tok x = none := by
  refine find_eq_none.2 fun i hi => ?_
  have hle := hi.le hne
  obtain ⟨s, hs⟩ := hx
  have hocc := hi.append s
  rw [hs] at hocc
  have hge : pre.length ≤ i := Nat.le_of_not_lt fun hlt' => hclear i hlt' hocc
  rw [← Nat.add_sub_cancel' hge] at hocc
  refine hopener (i - pre.length) ((occursAt_append_left.1 hocc).of_append ?_)
  omega

theorem removeFirst_eq {tok a b : Text} (h : find tok (a ++ (tok ++ b)) = some a.length) :
    removeFirst tok (a ++ (tok ++ b)) = a ++ b := by
  unfold removeFirst
  rw [h]
  dsimp only
  rw [List.take_left, ← List.drop_drop, List.drop_left, List.drop_left]

section Pending

variable {pre body : Text}

/-- The tokens whose beginnings are held back until the opener was seen. -/
def pendingTokens (p : BaseReasoningParser) : List Text := (p.at' false [] false).trackedTokens

theorem parse_found (r : Bool) (buffer v : Text) {i : Nat}
    (hi : find p.thinkStartToken (buffer ++ v) = some i) :
    (p.at' r buffer false).parseStreamingIncrement v =
      (p.at' true (buffer ++ v) true).parseCurrent
        ((buffer ++ v).take i ++ (buffer ++ v).drop (i + p.thinkStartToken.length)) := by
  have hcontains : (!false && contains p.thinkStartToken (buffer ++ v)) = true := by
    unfold contains
    rw [hi]
    rfl
  have hremove : removeFirst p.thinkStartToken (buffer ++ v) =
      (buffer ++ v).take i ++ (buffer ++ v).drop (i + p.thinkStartToken.length) := by
    unfold removeFirst
    rw [hi]
  rw [← hremove]
  exact if_pos hcontains

/-- One chunk while the opener is awaited: it does not complete it, or it does. -/
theorem pending_step (hm : Markers p)
    (hfirst : find p.thinkStartToken (pre ++ (p.thinkStartToken ++ body)) = some pre.length)
    {out buffer v rest : Text} (r : Bool)
    (hclear : r = true → Clear p pre (pre ++ (p.thinkStartToken ++ body)))
    (htext : out ++ (buffer ++ v) ++ rest = pre ++ (p.thinkStartToken ++ body))
    (hout : NoStart p.thinkStartToken out (pre ++ (p.thinkStartToken ++ body))) :
    (∃ k, (out ++ (buffer ++ v)).length < pre.length + p.thinkStartToken.length ∧
      (r = true ∧ k = 0 ∨
        k = (buffer ++ v).length - partialSuffix p.pendingTokens (buffer ++ v)) ∧
      NoStart p.thinkStartToken (out ++ (buffer ++ v).take k)
        (pre ++ (p.thinkStartToken ++ body)) ∧
      (p.at' r buffer false).parseStreamingIncrement v = (p.at' r ((buffer ++ v).drop k) false,
        if r then { reasoningText := (buffer ++ v).take k }
        else { normalText := (buffer ++ v).take k })) ∨
    ∃ mid seen, pre = out ++ mid ∧ buffer ++ v = mid ++ (p.thinkStartToken ++ seen) ∧
      (p.at' r buffer false).parseStreamingIncrement v =
        (p.at' true (buffer ++ v) true).parseCurrent (mid ++ seen) := by
  have hpre : out ++ (buffer ++ v) <+: pre ++ (p.thinkStartToken ++ body) := ⟨rest, htext⟩
  have hskip := (hout.skips hpre).find
  by_cases hlt : (out ++ (buffer ++ v)).length < pre.length + p.thinkStartToken.length
  · left
    have hopener : find p.thinkStartToken (out ++ (buffer ++ v)) = none := by
      cases hf : find p.thinkStartToken (out ++ (buffer ++ v)) with
      | none => rfl
      | some i =>
          have hle := find_le hf hm.opener
          have := find_append hf hm.opener rest
          rw [htext, hfirst] at this
          cases this
          omega
    rw [hopener, eq_comm, Option.map_eq_none_iff] at hskip
    have hquiet : r = true → find p.thinkEndToken (buffer ++ v) = none ∧
        p.toolIdx (buffer ++ v) = none := by
      intro hr
      have hinfix : buffer ++ v <:+: out ++ (buffer ++ v) := ⟨out, [], List.append_nil _⟩
      refine ⟨find_none_within (find_before_opener hm.closer.ne_nil (hclear hr).closer
        hm.closer_opener hpre hlt) hinfix, ?_⟩
      rw [hm.toolIdx_eq]
      cases htok : p.toolStartToken with
      | none => rfl
      | some tok =>
          exact find_none_within (find_before_opener (hm.tool tok htok).ne_nil
            ((hclear hr).tool tok htok) (hm.tool_opener tok htok) hpre hlt) hinfix
    obtain ⟨k, -, hk, hquiet⟩ := parseCurrent_quiet (p.at' r (buffer ++ v) false) (buffer ++ v)
      (fun hr => (hquiet hr).1) (fun hr => (hquiet hr).2)
    refine ⟨k, hlt, hk, ?_, ?_⟩
    · rcases hk with ⟨-, rfl⟩ | rfl
      · rw [List.take_zero, List.append_nil]
        exact hout
      · exact hout.hold hpre hopener (opener_mem_tracked (p.at' r (buffer ++ v) false) rfl)
    · have hsettled : Settled p false (buffer ++ v) := .inr hskip
      rw [hsettled.parse, hquiet]
      rfl
  · right
    have hfound : find p.thinkStartToken (out ++ (buffer ++ v)) = some pre.length := by
      refine find_of_append (y := rest) (by rw [htext]; exact hfirst) (by omega)
    rw [hfound, eq_comm, Option.map_eq_some_iff] at hskip
    obtain ⟨i, hi, hpos⟩ := hskip
    have heq := (find_eq_some.1 hi).1.eq
    have hile := find_le hi hm.opener
    have hmid : pre = out ++ (buffer ++ v).take i := by
      have := congrArg (List.take pre.length) htext
      rw [List.append_assoc, List.take_left, ← hpos, List.take_length_add_append,
        List.take_append_of_le_length (by omega)] at this
      exact this.symm
    exact ⟨_, _, hmid, heq, parse_found r buffer v hi⟩

/-- The stream up to the chunk that completes the opener: a part of `pre` was returned, and the
parser goes on inside the reasoning block with the rest of `pre` and what follows the opener. -/
theorem stream_pending (hm : Markers p)
    (hfirst : find p.thinkStartToken (pre ++ (p.thinkStartToken ++ body)) = some pre.length)
    (r : Bool) (hclear : r = true → Clear p pre (pre ++ (p.thinkStartToken ++ body))) :
    ∀ (chunks : List Text) (out buffer : Text),
    out ++ buffer ++ chunks.flatten = pre ++ (p.thinkStartToken ++ body) →
    (out ++ buffer).length < pre.length + p.thinkStartToken.length →
    NoStart p.thinkStartToken out (pre ++ (p.thinkStartToken ++ body)) →
    ∃ emitted mid seen held rest, pre = out ++ emitted ++ mid ∧ body = seen ++ List.flatten rest ∧
      (∀ tok ∈ p.pendingTokens, Solid p.pendingTokens tok →
        Whole tok out (pre ++ (p.thinkStartToken ++ body)) →
        Whole tok (out ++ emitted) (pre ++ (p.thinkStartToken ++ body))) ∧
      (p.at' r buffer false).stream chunks = (before r emitted).append
        (((p.at' true held true).parseCurrent (mid ++ seen)).2.append
          (((p.at' true held true).parseCurrent (mid ++ seen)).1.stream rest)) := by
  intro chunks
  induction chunks with
  | nil =>
      intro out buffer htext hlt _
      have hlen := congrArg List.length htext
      simp only [List.flatten_nil, List.append_nil, List.length_append] at hlen hlt
      omega
  | cons chunk chunks ih =>
      intro out buffer htext hlt hout
      have htext' : out ++ (buffer ++ chunk) ++ chunks.flatten =
          pre ++ (p.thinkStartToken ++ body) := by
        rw [← htext, List.flatten_cons]
        simp only [List.append_assoc]
      rcases pending_step hm hfirst r hclear htext' hout with ⟨k, hlt', hk, hout', hstep⟩ |
        ⟨mid, seen, hmid, hseen, hstep⟩
      · have hsplit := List.take_append_drop k (buffer ++ chunk)
        have hjoin : out ++ (buffer ++ chunk).take k ++ (buffer ++ chunk).drop k =
            out ++ (buffer ++ chunk) := by
          rw [List.append_assoc, hsplit]
        obtain ⟨emitted, mid, seen, held, rest, hpre, hbody, hwhole, hrest⟩ :=
          ih (out ++ (buffer ++ chunk).take k) ((buffer ++ chunk).drop k)
            (by rw [hjoin, htext']) (by rw [hjoin]; exact hlt') hout'
        refine ⟨(buffer ++ chunk).take k ++ emitted, mid, seen, held, rest, ?_, hbody, ?_, ?_⟩
        · rw [hpre]
          simp only [List.append_assoc]
        · intro tok htok hsolid h
          rw [← List.append_assoc]
          refine hwhole tok htok hsolid ?_
          rcases hk with ⟨-, rfl⟩ | rfl
          · rwa [List.take_zero, List.append_nil]
          · exact h.hold ⟨_, htext'⟩ htok hsolid
        · rw [stream_cons, hstep]
          dsimp only
          rw [hrest, ← ReasoningParseResult.append_assoc, ← before_append]
          rfl
      · refine ⟨[], mid, seen, buffer ++ chunk, chunks, ?_, ?_, ?_, ?_⟩
        · rw [List.append_nil, hmid]
        · rw [hseen, hmid] at htext'
          simp only [List.append_assoc, List.append_cancel_left_eq] at htext'
          exact htext'.symm
        · intro _ _ _ h
          rwa [List.append_nil]
        · rw [stream_cons, hstep]
          unfold before
          cases r <;> simp [ReasoningParseResult.append]

end Pending

/-! ## A fresh parser -/

theorem Markers.answer_nil (h : Markers p) : p.answer [] = {} := by
  have hE : find p.thinkEndToken [] = none := if_neg h.closer.ne_nil
  have hT : p.toolIdx [] = none := by
    rw [h.toolIdx_eq]
    cases htok : p.toolStartToken with
    | none => rfl
    | some tok => exact if_neg (h.tool tok htok).ne_nil
  unfold answer
  rw [hE, hT]

/-- Text that neither the closer nor the tool marker starts in goes before the reasoning. -/
theorem Markers.answer_clear (h : Markers p) {out x : Text} (hclear : Clear p out (out ++ x)) :
    p.answer (out ++ x) = (before true out).append (p.answer x) := by
  have hE := (hclear.closer.skips List.prefix_rfl).find
  have hT := h.toolIdx_skips fun tok htok => (hclear.tool tok htok).skips List.prefix_rfl
  unfold answer before ReasoningParseResult.append
  rw [hE, hT]
  cases find p.thinkEndToken x with
  | some i =>
      simp only [Option.map_some, List.take_length_add_append, Nat.add_assoc,
        List.drop_length_add_append, if_true, List.nil_append]
  | none =>
      cases p.toolIdx x with
      | some i =>
          simp only [Option.map_none, Option.map_some, List.take_length_add_append,
            List.drop_length_add_append, if_true, List.nil_append]
      | none => simp only [Option.map_none, if_true, List.nil_append]

theorem Bounded.of_clear (hm : Markers p) {out x : Text} (h : Bounded p (out ++ x))
    (hclear : Clear p out (out ++ x)) : Bounded p x := by
  intro i j hi hj hlt
  have hE := (hclear.closer.skips List.prefix_rfl).find
  have hT := hm.toolIdx_skips fun tok htok => (hclear.tool tok htok).skips List.prefix_rfl
  rw [hi, Option.map_some] at hE
  rw [hj, Option.map_some] at hT
  have := h _ _ hE hT (by omega)
  omega

/-- A stream without an opener, from inside the reasoning block. -/
theorem stream_settled (hm : Markers p) {stripped : Bool} (chunks : List Text)
    (hb : Bounded p chunks.flatten) (hs : Settled p stripped chunks.flatten) :
    Answered p chunks.flatten ((p.at' true [] stripped).stream chunks) := by
  cases chunks with
  | nil =>
      rw [stream_nil, flush_eq, if_pos rfl, List.flatten_nil]
      refine ⟨?_, fun _ => ?_, ?_⟩
      all_goals rw [hm.answer_nil]
      exact .refl _
  | cons chunk chunks =>
      have hparse : Settled p stripped ([] ++ chunk) :=
        hs.within ⟨[], chunks.flatten, by rw [List.flatten_cons]; rfl⟩
      rw [stream_cons, hparse.parse]
      exact stream_current hm hb hs chunks [] chunk chunk (by rw [List.flatten_cons]; rfl)
        (clear_nil _ _)

section Opened

variable {pre body : Text}

/-- A stream with an opener, from inside the reasoning block. -/
theorem stream_opened_inside (hm : Markers p) (ho : Opened p pre body)
    (hb : Bounded p (pre ++ body)) {chunks : List Text}
    (htext : chunks.flatten = pre ++ (p.thinkStartToken ++ body)) :
    Answered p (pre ++ body) ((p.at' true [] false).stream chunks) := by
  have hpos := List.length_pos_iff.2 hm.opener
  obtain ⟨emitted, mid, seen, held, rest, hpre, hbody, -, hstream⟩ :=
    stream_pending hm ho.first true (fun _ => ho.clear) chunks [] [] htext
      (Nat.add_pos_right _ hpos) (noStart_nil _ _)
  rw [List.nil_append] at hpre
  have hclear : Clear p emitted (pre ++ body) :=
    ⟨ho.joined.closer.mono (by rw [hpre]; simp),
      fun tok htok => (ho.joined.tool tok htok).mono (by rw [hpre]; simp)⟩
  have hs : Settled p true (pre ++ body) := .inl rfl
  rw [hstream]
  exact stream_current hm hb hs rest emitted (mid ++ seen) held
    (by rw [hpre, hbody]; simp only [List.append_assoc]) hclear

/-- A stream with an opener, from outside the reasoning block: what is returned before the opener
is seen is answer. -/
theorem stream_opened_outside (hm : Markers p)
    (hfirst : find p.thinkStartToken (pre ++ (p.thinkStartToken ++ body)) = some pre.length)
    (hb : ∀ w, w <:+ pre → Bounded p (w ++ body)) {chunks : List Text}
    (htext : chunks.flatten = pre ++ (p.thinkStartToken ++ body)) :
    ∃ w w' result, pre = w ++ w' ∧ Answered p (w' ++ body) result ∧
      (∀ tok ∈ p.pendingTokens, Solid p.pendingTokens tok →
        Whole tok w (pre ++ (p.thinkStartToken ++ body))) ∧
      (p.at' false [] false).stream chunks = (before false w).append result := by
  have hpos := List.length_pos_iff.2 hm.opener
  obtain ⟨emitted, mid, seen, held, rest, hpre, hbody, hwhole, hstream⟩ :=
    stream_pending hm hfirst false (fun hr => by cases hr) chunks [] [] htext
      (Nat.add_pos_right _ hpos) (noStart_nil _ _)
  rw [List.nil_append] at hpre
  have hbound := hb mid ⟨emitted, hpre.symm⟩
  have hs : Settled p true (mid ++ body) := .inl rfl
  refine ⟨emitted, mid, _, hpre, ?_, fun tok htok hsolid => ?_, hstream⟩
  · exact stream_current hm hbound hs rest [] (mid ++ seen) held
      (by rw [hbody]; simp only [List.append_assoc, List.nil_append]) (clear_nil _ _)
  · exact hwhole tok htok hsolid fun i hi => absurd hi (Nat.not_lt_zero i)

end Opened

end BaseReasoningParser

end FreeToken
