import FreeToken.Server.MiniMaxM3

/-!
# When the MiniMax-M3 stream is the one-shot parse

The stream agrees with the one-shot parse, and no character is lost, exactly on the texts whose
opener stands where the positional parse expects it and whose closer neither follows white space nor
comes after a tool block that was already given up.
-/

set_option autoImplicit false

namespace FreeToken

open Search Text BaseReasoningParser

namespace MiniMaxM3ReasoningParser

/-- The text without the opener, the closer and the leading closer the parser recognises. -/
def remaining (forceReasoning : Bool) (text : Text) : Text :=
  if forceReasoning then removeFirst thinkEnd text
  else if thinkEnd <+: lstrip text then (lstrip text).drop thinkEnd.length
  else
    match find thinkStart text with
    | none => text
    | some i => text.take i ++ removeFirst thinkEnd (text.drop (i + thinkStart.length))

/-- However the text arrives, the stream is the one-shot parse, and every character but those of the
recognised markers is in exactly one of the two outputs, in order. -/
def Faithful (forceReasoning streamReasoning : Bool) (text : Text) : Prop :=
  let p := init forceReasoning streamReasoning
  (∀ chunks : List Text, chunks.flatten = text → p.stream chunks = p.detectAndParse text) ∧
    Interleaved (p.detectAndParse text).reasoningText (p.detectAndParse text).normalText
      (remaining forceReasoning text)

/-- No white space stands before the closer, and it completes while a tool block before it is still
held. -/
structure Tight (text : Text) : Prop where
  trimmed : ∀ e, find thinkEnd text = some e → rstrip (text.take e) = text.take e
  held : ∀ e t, find thinkEnd text = some e → find toolStart text = some t → t < e →
    e + thinkEnd.length ≤ t + toolHoldMax + 1

theorem Tight.of_none {text : Text} (h : find thinkEnd text = none) : Tight text where
  trimmed := fun e he => by
    rw [h] at he
    cases he
  held := fun e t he => by
    rw [h] at he
    cases he

/-- The opener is where the positional parse expects it. -/
def Expected (forceReasoning : Bool) (text : Text) : Prop :=
  if forceReasoning then find thinkStart text = none ∧ Tight text
  else if thinkEnd <+: lstrip text then
    find thinkStart ((lstrip text).drop thinkEnd.length) = none
  else
    ∀ i, find thinkStart text = some i →
      (i = 0 ∧ Tight (text.drop thinkStart.length)) ∨
      (find thinkEnd (text.drop (i + thinkStart.length)) = none ∧
        toolStart <+: text.drop (i + thinkStart.length) ∧
        ∃ n, text.take i = (List.replicate n toolStart).flatten)

/-! ## The tokens -/

theorem marker_thinkEnd : Marker thinkEnd :=
  ⟨⟨_, _, rfl, by decide⟩, ⟨_, "</mm:think".toList, rfl, by decide⟩⟩

theorem marker_toolStart : Marker toolStart :=
  ⟨⟨_, _, rfl, by decide⟩, ⟨_, "]<]minimax[>[<tool_call".toList, rfl, by decide⟩⟩

section Base

variable (forceReasoning streamReasoning : Bool)

/-- The base parser of a fresh parser. -/
def base0 : BaseReasoningParser :=
  .init thinkStart thinkEnd forceReasoning streamReasoning (some toolStart)

theorem base0_markers : Markers (base0 forceReasoning streamReasoning) where
  opener := show thinkStart ≠ [] by decide
  closer := marker_thinkEnd
  tool := fun tok htok => by
    cases htok
    exact marker_toolStart
  closer_opener := find_eq_none.1 (show find thinkEnd thinkStart = none by decide)
  tool_opener := fun tok htok => by
    cases htok
    exact find_eq_none.1 (show find toolStart thinkStart = none by decide)
  tool_closer := fun tok htok => by
    cases htok
    exact find_eq_none.1 (show find toolStart thinkEnd = none by decide)

theorem base0_toolIdx (text : Text) :
    (base0 forceReasoning streamReasoning).toolIdx text = find toolStart text :=
  (base0_markers forceReasoning streamReasoning).toolIdx_eq text

theorem Tight.bounded {text : Text} (h : Tight text) :
    Bounded (base0 forceReasoning streamReasoning) text := by
  intro e t he ht hlt
  rw [base0_toolIdx] at ht
  exact h.held e t he ht hlt

theorem bounded_of_none {text : Text} (h : find thinkEnd text = none) :
    Bounded (base0 forceReasoning streamReasoning) text := by
  intro e t he
  rw [show (base0 forceReasoning streamReasoning).thinkEndToken = thinkEnd from rfl, h] at he
  cases he

/-- On a tight text the stream returns the answer as it is. -/
theorem Tight.answered {text : Text} (h : Tight text) {result : ReasoningParseResult}
    (ha : Answered (base0 forceReasoning streamReasoning) text result) :
    result = (base0 forceReasoning streamReasoning).answer text := by
  obtain ⟨r, n⟩ := result
  have hn : n = _ := ha.normal
  suffices hr : r = ((base0 forceReasoning streamReasoning).answer text).reasoningText by
    rw [hn, hr]
  cases he : find thinkEnd text with
  | none => exact ha.exact he
  | some e =>
      obtain ⟨w, hw, htext⟩ := ha.reasoning
      dsimp only at htext
      have hanswer : ((base0 forceReasoning streamReasoning).answer text).reasoningText =
          text.take e := by
        unfold answer
        rw [show find (base0 forceReasoning streamReasoning).thinkEndToken text = some e from he]
      rw [hanswer] at htext ⊢
      have hstrip := h.trimmed e he
      rw [htext, rstrip_append_blank hw] at hstrip
      have hlen : (rstrip r).length ≤ r.length := (List.rdropWhile_prefix isSpace (l := r)).length_le
      have := congrArg List.length hstrip
      rw [List.length_append] at this
      have hnil : w = [] := List.eq_nil_of_length_eq_zero (by omega)
      rw [htext, hnil, List.append_nil]

end Base

/-! ## The one-shot parse -/

theorem detectAndParse_force (streamReasoning : Bool) (text : Text) :
    (init true streamReasoning).detectAndParse text =
      (base0 true streamReasoning).answer text := by
  unfold answer
  rw [base0_toolIdx]
  rfl

theorem detectAndParse_leading (streamReasoning : Bool) {text : Text}
    (h : thinkEnd <+: lstrip text) :
    (init false streamReasoning).detectAndParse text =
      { normalText := (lstrip text).drop thinkEnd.length } := by
  unfold detectAndParse
  exact (if_neg Bool.false_ne_true).trans (if_pos h)

theorem detectAndParse_plain (streamReasoning : Bool) {text : Text}
    (h : ¬ thinkEnd <+: lstrip text) (hnone : find thinkStart text = none) :
    (init false streamReasoning).detectAndParse text = { normalText := text } := by
  unfold detectAndParse
  refine (if_neg Bool.false_ne_true).trans ((if_neg h).trans ?_)
  dsimp only [init, BaseReasoningParser.init]
  rw [hnone]

section Opened

variable (streamReasoning : Bool) {pre body : Text}

/-- The one-shot parse of a text with an opener, by what ends the reasoning behind it. -/
theorem detectAndParse_opened (hhead : ¬ thinkEnd <+: lstrip (pre ++ (thinkStart ++ body)))
    (hfirst : find thinkStart (pre ++ (thinkStart ++ body)) = some pre.length) :
    (init false streamReasoning).detectAndParse (pre ++ (thinkStart ++ body)) =
      if find thinkEnd body = none ∧ find toolStart body = none then { reasoningText := body }
      else (before false pre).append ((base0 false streamReasoning).answer body) := by
  have hdrop : (pre ++ (thinkStart ++ body)).drop (pre.length + thinkStart.length) = body := by
    rw [← List.drop_drop, List.drop_left, List.drop_left]
  unfold detectAndParse
  refine (if_neg Bool.false_ne_true).trans ((if_neg hhead).trans ?_)
  unfold answer
  rw [base0_toolIdx]
  dsimp only [init, base0, BaseReasoningParser.init, Option.bind_some]
  rw [hfirst]
  dsimp only
  rw [hdrop, List.take_left]
  cases find thinkEnd body with
  | some e => rfl
  | none =>
      cases find toolStart body with
      | some t => rfl
      | none => rfl

theorem remaining_opened (hhead : ¬ thinkEnd <+: lstrip (pre ++ (thinkStart ++ body)))
    (hfirst : find thinkStart (pre ++ (thinkStart ++ body)) = some pre.length) :
    remaining false (pre ++ (thinkStart ++ body)) = pre ++ removeFirst thinkEnd body := by
  have hdrop : (pre ++ (thinkStart ++ body)).drop (pre.length + thinkStart.length) = body := by
    rw [← List.drop_drop, List.drop_left, List.drop_left]
  unfold remaining
  rw [if_neg Bool.false_ne_true, if_neg hhead, hfirst]
  dsimp only
  rw [hdrop, List.take_left]

end Opened

/-- An answer loses nothing but the closer. -/
theorem answer_interleaved (forceReasoning streamReasoning : Bool) (text : Text) :
    Interleaved ((base0 forceReasoning streamReasoning).answer text).reasoningText
      ((base0 forceReasoning streamReasoning).answer text).normalText
      (removeFirst thinkEnd text) := by
  unfold answer removeFirst
  rw [base0_toolIdx]
  dsimp only [base0, BaseReasoningParser.init]
  cases find thinkEnd text with
  | some e => exact .left_right _ _
  | none =>
      cases find toolStart text with
      | some t =>
          have h := Interleaved.left_right (text.take t) (text.drop t)
          rwa [List.take_append_drop] at h
      | none => exact .all_left text

/-! ## The texts that are streamed faithfully -/

section Expected

variable (streamReasoning : Bool)

theorem stream_force (chunks : List Text) :
    (init true streamReasoning).stream chunks = (base0 true streamReasoning).stream chunks :=
  stream_base _ chunks

/-- Outside the forced block, the stream is one of the base parser, over the text without its
leading closer. -/
theorem stream_unforced (chunks : List Text) :
    ∃ chunks', chunks'.flatten = dropLeading thinkEnd chunks.flatten ∧
      (init false streamReasoning).stream chunks = (base0 false streamReasoning).stream chunks' :=
  stream_holding (base0 false streamReasoning) (show thinkEnd ≠ [] by decide) rfl chunks []
    (show ¬ thinkEnd <+: [] by decide)

theorem faithful_force {text : Text} (hnone : find thinkStart text = none) (ht : Tight text) :
    Faithful true streamReasoning text := by
  refine ⟨fun chunks htext => ?_, ?_⟩
  · subst htext
    rw [stream_force, detectAndParse_force]
    have hs : Settled (base0 true streamReasoning) false chunks.flatten := .inr hnone
    exact ht.answered true streamReasoning
      (stream_settled (base0_markers true streamReasoning) chunks
        (ht.bounded true streamReasoning) hs)
  · rw [detectAndParse_force]
    exact answer_interleaved true streamReasoning text

theorem faithful_leading {text : Text} (h : thinkEnd <+: lstrip text)
    (hnone : find thinkStart ((lstrip text).drop thinkEnd.length) = none) :
    Faithful false streamReasoning text := by
  refine ⟨fun chunks htext => ?_, ?_⟩
  · obtain ⟨chunks', hflat, hstream⟩ := stream_unforced streamReasoning chunks
    rw [htext] at hflat
    unfold dropLeading at hflat
    rw [if_pos h] at hflat
    rw [← hflat] at hnone
    rw [hstream, detectAndParse_leading streamReasoning h, ← hflat]
    exact stream_normal (p := base0 false streamReasoning) chunks' [] false (.inr hnone)
  · rw [detectAndParse_leading streamReasoning h]
    unfold remaining
    rw [if_neg Bool.false_ne_true, if_pos h]
    exact .all_right _

theorem faithful_plain {text : Text} (h : ¬ thinkEnd <+: lstrip text)
    (hnone : find thinkStart text = none) : Faithful false streamReasoning text := by
  refine ⟨fun chunks htext => ?_, ?_⟩
  · obtain ⟨chunks', hflat, hstream⟩ := stream_unforced streamReasoning chunks
    rw [htext] at hflat
    unfold dropLeading at hflat
    rw [if_neg h] at hflat
    rw [hstream, detectAndParse_plain streamReasoning h hnone, ← hflat]
    rw [← hflat] at hnone
    exact stream_normal (p := base0 false streamReasoning) chunks' [] false (.inr hnone)
  · rw [detectAndParse_plain streamReasoning h hnone]
    unfold remaining
    rw [if_neg Bool.false_ne_true, if_neg h, hnone]
    exact .all_right text

/-- Tool markers before a tool block do not complete a closer. -/
theorem find_thinkEnd_tools {body : Text} (hnone : find thinkEnd body = none) (n : Nat) :
    find thinkEnd ((List.replicate n toolStart).flatten ++ body) = none := by
  induction n with
  | zero => exact hnone
  | succ n ih =>
      have hskip : NoStart thinkEnd toolStart
          (toolStart ++ ((List.replicate n toolStart).flatten ++ body)) :=
        noStart_of_tails (by decide) (by decide +kernel)
      rw [List.replicate_succ, List.flatten_cons, List.append_assoc,
        (hskip.skips List.prefix_rfl).find, ih]
      rfl

theorem answer_tool (forceReasoning : Bool) {body : Text} (hnone : find thinkEnd body = none)
    (htool : toolStart <+: body) :
    (base0 forceReasoning streamReasoning).answer body = { normalText := body } := by
  have hfind : find toolStart body = some 0 :=
    find_eq_some.2 ⟨occursAt_zero.2 htool, fun j hj => absurd hj (Nat.not_lt_zero j)⟩
  unfold answer
  rw [base0_toolIdx, hfind,
    show find (base0 forceReasoning streamReasoning).thinkEndToken body = none from hnone]
  rfl

section Opened

variable {pre body : Text} {text : Text}

/-- An opener at the start of the text. -/
theorem faithful_opened (hfirst : find thinkStart (thinkStart ++ body) = some 0)
    (hhead : ¬ thinkEnd <+: lstrip (thinkStart ++ body)) (ht : Tight body) :
    Faithful false streamReasoning (thinkStart ++ body) := by
  have hfirst' : find thinkStart ([] ++ (thinkStart ++ body)) = some ([] : Text).length := hfirst
  have hdetect : (init false streamReasoning).detectAndParse (thinkStart ++ body) =
      (base0 false streamReasoning).answer body := by
    have h := detectAndParse_opened streamReasoning hhead hfirst'
    rw [List.nil_append] at h
    rw [h]
    split
    · rename_i hopen
      unfold answer
      rw [base0_toolIdx, hopen.2,
        show find (base0 false streamReasoning).thinkEndToken body = none from hopen.1]
    · rfl
  refine ⟨fun chunks htext => ?_, ?_⟩
  · obtain ⟨chunks', hflat, hstream⟩ := stream_unforced streamReasoning chunks
    rw [htext] at hflat
    unfold dropLeading at hflat
    rw [if_neg hhead] at hflat
    have hbound : ∀ w, w <:+ [] → Bounded (base0 false streamReasoning) (w ++ body) := by
      rintro w hw
      rw [List.suffix_nil.1 hw]
      exact ht.bounded false streamReasoning
    obtain ⟨w, w', result, hsplit, hanswered, -, hbase⟩ :=
      stream_opened_outside (base0_markers false streamReasoning) hfirst' hbound hflat
    obtain ⟨rfl, rfl⟩ := List.append_eq_nil_iff.1 hsplit.symm
    rw [hstream, hdetect, ← ht.answered false streamReasoning hanswered]
    exact hbase
  · have h := remaining_opened hhead hfirst'
    rw [List.nil_append] at h
    rw [h, hdetect]
    exact answer_interleaved false streamReasoning body

theorem solid_toolStart : Solid (base0 false true).pendingTokens toolStart := by
  unfold Solid
  decide

/-- What the one-shot parse returns for a text it keeps the prose of. -/
theorem detectAndParse_tool
    (hfirst : find thinkStart (pre ++ (thinkStart ++ body)) = some pre.length)
    (hhead : ¬ thinkEnd <+: lstrip (pre ++ (thinkStart ++ body)))
    (he : find thinkEnd body = none) (htool : toolStart <+: body) :
    (init false streamReasoning).detectAndParse (pre ++ (thinkStart ++ body)) =
      { normalText := pre ++ body } := by
  have hfind : find toolStart body ≠ none := fun h => find_eq_none.1 h 0 (occursAt_zero.2 htool)
  rw [detectAndParse_opened streamReasoning hhead hfirst, if_neg fun h => hfind h.2,
    answer_tool streamReasoning false he htool]
  rfl

/-- Nothing but tool markers before an opener that a tool block follows. -/
theorem faithful_tools {n : Nat} (hpre : pre = (List.replicate n toolStart).flatten)
    (hfirst : find thinkStart (pre ++ (thinkStart ++ body)) = some pre.length)
    (hhead : ¬ thinkEnd <+: lstrip (pre ++ (thinkStart ++ body)))
    (hnone : find thinkEnd body = none) (htool : toolStart <+: body) :
    Faithful false streamReasoning (pre ++ (thinkStart ++ body)) := by
  have hdetect := detectAndParse_tool streamReasoning hfirst hhead hnone htool
  refine ⟨fun chunks htext => ?_, ?_⟩
  · obtain ⟨chunks', hflat, hstream⟩ := stream_unforced streamReasoning chunks
    rw [htext] at hflat
    unfold dropLeading at hflat
    rw [if_neg hhead] at hflat
    have hbound : ∀ w, w <:+ pre → Bounded (base0 false streamReasoning) (w ++ body) := by
      rintro w ⟨v, hv⟩
      refine bounded_of_none false streamReasoning ?_
      have hall := find_thinkEnd_tools hnone n
      rw [← hpre, ← hv] at hall
      exact find_none_within hall ⟨v, [], by simp⟩
    obtain ⟨w, w', result, hsplit, hanswered, hwhole, hbase⟩ :=
      stream_opened_outside (base0_markers false streamReasoning) hfirst hbound hflat
    have hcut := hwhole toolStart
      (show toolStart ∈ (base0 false true).pendingTokens by decide) solid_toolStart
    rw [hpre] at hcut hsplit
    obtain ⟨m, rfl⟩ := hcut.replicate hsplit
    have htools : toolStart <+: (List.replicate m toolStart).flatten ++ body := by
      cases m with
      | zero => exact htool
      | succ m =>
          rw [List.replicate_succ, List.flatten_cons, List.append_assoc]
          exact List.prefix_append _ _
    have hclosed := find_thinkEnd_tools hnone m
    have hanswer := answer_tool streamReasoning false hclosed htools
    have hreason := hanswered.exact hclosed
    have hnormal := hanswered.normal
    rw [hanswer] at hreason hnormal
    have hresult : result = { normalText := (List.replicate m toolStart).flatten ++ body } := by
      obtain ⟨r, n⟩ := result
      dsimp only at hreason hnormal
      rw [hreason, hnormal]
    rw [hstream, hdetect, hpre, hsplit, List.append_assoc]
    refine Eq.trans hbase ?_
    rw [hresult]
    rfl
  · rw [remaining_opened hhead hfirst, hdetect]
    unfold removeFirst
    rw [hnone]
    exact .all_right _

end Opened

end Expected

end MiniMaxM3ReasoningParser

end FreeToken
