import FreeToken.Server.MiniMaxM3Stream

/-!
# The texts the MiniMax-M3 parser disagrees with itself on

Outside the expected texts some way to cut the text makes the stream differ from the one-shot parse,
or the one-shot parse loses the prose before an opener that nothing closes.
-/

set_option autoImplicit false

namespace FreeToken

open Search Text BaseReasoningParser

namespace BaseReasoningParser

variable {p : BaseReasoningParser} {pre body : Text}

/-- A text with an opener that comes in one chunk. -/
theorem stream_one (hm : Markers p) (r : Bool)
    (hfirst : find p.thinkStartToken (pre ++ (p.thinkStartToken ++ body)) = some pre.length) :
    (p.at' r [] false).stream [pre ++ (p.thinkStartToken ++ body)] = p.whole (pre ++ body) := by
  have hparse := parse_found r [] (pre ++ (p.thinkStartToken ++ body)) hfirst
  rw [List.nil_append, List.take_left, ← List.drop_drop, List.drop_left, List.drop_left] at hparse
  have hs : Settled p true (pre ++ body) := .inl rfl
  rw [stream_cons, hparse]
  exact parseCurrent_whole hm hs _

/-- A text that is cut before its opener is complete: what is not held back of the first chunk is
answer. -/
theorem stream_two (hm : Markers p)
    (hfirst : find p.thinkStartToken (pre ++ (p.thinkStartToken ++ body)) = some pre.length)
    {x y : Text} (htext : x ++ y = pre ++ (p.thinkStartToken ++ body))
    (hlt : x.length < pre.length + p.thinkStartToken.length) {k : Nat}
    (hk : x.length - partialSuffix p.pendingTokens x = k) :
    k ≤ pre.length ∧ (p.at' false [] false).stream [x, y] =
      (before false (pre.take k)).append (p.whole (pre.drop k ++ body)) := by
  have hnoStart := noStart_nil p.thinkStartToken (pre ++ (p.thinkStartToken ++ body))
  have htext' : [] ++ ([] ++ x) ++ y = pre ++ (p.thinkStartToken ++ body) := htext
  rcases pending_step hm hfirst false (fun hr => by cases hr) htext' hnoStart with
    ⟨k', -, hk', hout, hstep⟩ | ⟨mid, seen, hmid, hseen, -⟩
  swap
  · have := congrArg List.length hseen
    rw [List.nil_append] at hmid
    rw [hmid] at hlt
    simp only [List.nil_append, List.length_append] at this
    omega
  have hkk : k' = k := by
    rcases hk' with ⟨hr, -⟩ | hk'
    · cases hr
    · rw [hk']
      exact hk
  subst hkk
  rw [List.nil_append] at hstep
  have hjoin : x.take k' ++ (x.drop k' ++ y) ++ [] = pre ++ (p.thinkStartToken ++ body) := by
    rw [List.append_nil, ← List.append_assoc, List.take_append_drop, htext]
  have hle : k' ≤ x.length := by omega
  rcases pending_step hm hfirst false (fun hr => by cases hr) hjoin hout with
    ⟨_, hlt', -⟩ | ⟨mid, seen, hmid, hseen, hstep'⟩
  · have := congrArg List.length hjoin
    simp only [List.length_append, List.length_nil] at this hlt'
    omega
  · rw [hmid, hseen] at hjoin
    simp only [List.append_assoc, List.append_nil, List.append_cancel_left_eq] at hjoin
    have hlen : (x.take k').length = k' := List.length_take_of_le hle
    have htake : pre.take k' = x.take k' := by
      rw [hmid, List.take_left' hlen]
    have hdrop : pre.drop k' = mid := by
      rw [hmid, List.drop_left' hlen]
    have hs : Settled p true (mid ++ seen) := .inl rfl
    refine ⟨?_, ?_⟩
    · rw [hmid, List.length_append, hlen]
      exact Nat.le_add_right _ _
    · rw [stream_cons, hstep]
      dsimp only
      rw [stream_cons, hstep', parseCurrent_whole hm hs, htake, hdrop, hjoin]
      rfl

end BaseReasoningParser

namespace MiniMaxM3ReasoningParser

/-! ## Chunks that are no head -/

/-- A first chunk that is not held as the beginning of a leading closer. -/
def Diverges (chunk : Text) : Prop :=
  ¬ thinkEnd <+: lstrip chunk ∧ ¬(lstrip chunk = [] ∨ lstrip chunk <+: thinkEnd)

theorem Diverges.stream {chunk : Text} (h : Diverges chunk) (streamReasoning : Bool)
    (chunks : List Text) : (init false streamReasoning).stream (chunk :: chunks) =
      (base0 false streamReasoning).stream (chunk :: chunks) := by
  rw [stream_cons, BaseReasoningParser.stream_cons,
    show (init false streamReasoning).parseStreamingIncrement chunk =
      (behind (base0 false streamReasoning)).parseBase chunk from
        parse_diverged (base0 false streamReasoning) [] h.1 h.2, ← stream_base]
  rfl

theorem leading_append {x y : Text} (h : thinkEnd <+: lstrip x) : thinkEnd <+: lstrip (x ++ y) := by
  have hne : lstrip x ≠ [] := fun hnil => by
    rw [hnil] at h
    exact absurd h (by decide)
  rw [lstrip_append_of_ne_nil hne]
  exact h.trans (List.prefix_append _ _)

/-- A chunk that has a character no white space and no closer has. -/
theorem diverges_of_mem {c : Char} (hspace : isSpace c = false) (hclose : c ∉ thinkEnd)
    {x y : Text} (hc : c ∈ x) (hhead : ¬ thinkEnd <+: lstrip (x ++ y)) : Diverges x := by
  have hmem : c ∈ lstrip x := by
    have hsplit : c ∈ x.takeWhile isSpace ++ x.dropWhile isSpace := by
      rwa [List.takeWhile_append_dropWhile]
    rcases List.mem_append.1 hsplit with h | h
    · rw [List.mem_takeWhile_imp h] at hspace
      cases hspace
    · exact h
  refine ⟨fun h => hhead (leading_append h), fun h => ?_⟩
  rcases h with h | h
  · rw [h] at hmem
    cases hmem
  · exact hclose (h.subset hmem)

theorem lstrip_append_marker {tok : Text} (h : Marker tok) (x y : Text) :
    lstrip (x ++ (tok ++ y)) = lstrip x ++ (tok ++ y) := by
  by_cases hx : lstrip x = []
  · obtain ⟨w, hw, hsplit⟩ := lstrip_append x
    rw [hx, List.append_nil] at hsplit
    rw [hx, hsplit, lstrip_blank_append hw, lstrip_marker h, List.nil_append]
  · exact lstrip_append_of_ne_nil hx _

theorem marker_thinkStart : Marker thinkStart :=
  ⟨⟨_, _, rfl, by decide⟩, ⟨_, "<mm:think".toList, rfl, by decide⟩⟩

/-- A chunk with a whole opener is no beginning of a closer. -/
theorem diverges_opener {x y : Text} (hhead : ¬ thinkEnd <+: lstrip (x ++ (thinkStart ++ y))) :
    Diverges (x ++ (thinkStart ++ y)) := by
  refine ⟨hhead, fun h => ?_⟩
  rw [lstrip_append_marker marker_thinkStart] at h
  rcases h with h | h
  · exact absurd (List.append_eq_nil_iff.1 (List.append_eq_nil_iff.1 h).2).1 marker_thinkStart.ne_nil
  · have hocc : OccursAt thinkStart thinkEnd (lstrip x).length := by
      obtain ⟨z, hz⟩ := h
      rw [← hz, List.append_assoc, List.append_assoc]
      unfold OccursAt
      rw [List.drop_left]
      exact List.prefix_append _ _
    exact find_eq_none.1 (show find thinkStart thinkEnd = none by decide) _ hocc

/-! ## Forced reasoning -/

theorem whole_length (forceReasoning streamReasoning : Bool) (text : Text) :
    ((base0 forceReasoning streamReasoning).whole text).reasoningText.length +
        ((base0 forceReasoning streamReasoning).whole text).normalText.length =
          text.length ∧ find thinkEnd text = none ∨
      ((base0 forceReasoning streamReasoning).whole text).reasoningText.length +
        ((base0 forceReasoning streamReasoning).whole text).normalText.length +
          thinkEnd.length ≤ text.length ∧ find thinkEnd text ≠ none := by
  unfold whole
  rw [show (base0 forceReasoning streamReasoning).thinkEndToken = thinkEnd from rfl]
  cases he : find thinkEnd text with
  | some e =>
      have hle := find_le he marker_thinkEnd.ne_nil
      have hstrip : (rstrip (text.take e)).length ≤ (text.take e).length :=
        (List.rdropWhile_prefix isSpace _).length_le
      rw [List.length_take] at hstrip
      refine .inr ⟨?_, Option.some_ne_none e⟩
      dsimp only
      rw [List.length_drop]
      omega
  | none =>
      have h := (answer_interleaved forceReasoning streamReasoning text).length
      unfold removeFirst at h
      rw [he] at h
      exact .inl ⟨h, rfl⟩

/-- A tool marker before a closer ends before it. -/
theorem tool_before_closer {text : Text} {t e : Nat} (ht : find toolStart text = some t)
    (he : find thinkEnd text = some e) (hlt : t < e) : t + toolStart.length ≤ e := by
  by_contra hle
  have hskip : ∀ z, NoStart thinkEnd toolStart (toolStart ++ z) := fun z =>
    noStart_of_tails (by decide) (by decide +kernel)
  obtain ⟨d, rfl⟩ := Nat.exists_eq_add_of_le hlt.le
  obtain ⟨z, hz⟩ := (find_eq_some.1 ht).1
  have hocc := (find_eq_some.1 he).1
  unfold OccursAt at hocc
  rw [← List.drop_drop, ← hz] at hocc
  exact hskip z d (by omega) hocc

/-- A text that is streamed right however it is cut, from inside the reasoning block, is tight. -/
theorem tight_of_stream (forceReasoning streamReasoning : Bool) (buffer : Text) {stripped : Bool}
    {text : Text}
    (hs : Settled (base0 forceReasoning streamReasoning) stripped text)
    (hone : (base0 forceReasoning streamReasoning).whole text =
      (base0 forceReasoning streamReasoning).answer text)
    (htwo : ∀ x y, x ++ y = text →
      ((((base0 forceReasoning streamReasoning).at' true (buffer ++ x) stripped).parseCurrent x).2.append
        ((((base0 forceReasoning streamReasoning).at' true (buffer ++ x) stripped).parseCurrent x).1.stream
          [y])) = (base0 forceReasoning streamReasoning).answer text) : Tight text := by
  constructor
  · intro e he
    unfold whole answer at hone
    rw [show find (base0 forceReasoning streamReasoning).thinkEndToken text = some e from he] at hone
    exact (ReasoningParseResult.mk.injEq _ _ _ _ ▸ hone).1
  · intro e t he ht hlt
    by_contra hlong
    have hle := find_le he marker_thinkEnd.ne_nil
    have hlen : thinkEnd.length = 11 := by decide
    -- the chunk ends one character before the closer does
    obtain ⟨x, y, rfl, hx⟩ : ∃ x y, x ++ y = text ∧ x.length = e + 10 :=
      ⟨text.take (e + 10), text.drop (e + 10), List.take_append_drop _ _,
        List.length_take_of_le (by omega)⟩
    have hnone : find thinkEnd x = none := by
      cases hf : find thinkEnd x with
      | none => rfl
      | some e' =>
          have hle' := find_le hf marker_thinkEnd.ne_nil
          rw [find_append hf marker_thinkEnd.ne_nil] at he
          cases he
          omega
    have htool : find toolStart x = some t :=
      find_of_append ht (by have := tool_before_closer ht he hlt; omega)
    have hcommit : toolHoldMax < (x.drop t).length := by
      rw [List.length_drop, hx]
      omega
    have htool' : ((base0 forceReasoning streamReasoning).at' true (buffer ++ x) stripped).toolIdx x =
        some t := (base0_toolIdx forceReasoning streamReasoning x).trans htool
    have hnormal := stream_normal (p := base0 forceReasoning streamReasoning) [y] [] stripped
      (hs.within ⟨x, [], by simp⟩)
    have hans : ((base0 forceReasoning streamReasoning).answer (x ++ y)).reasoningText =
        (x ++ y).take e := by
      unfold answer
      rw [show find (base0 forceReasoning streamReasoning).thinkEndToken (x ++ y) = some e from he]
    have h := congrArg ReasoningParseResult.reasoningText (htwo x y rfl)
    rw [parseCurrent_committed _ rfl hnone htool' hcommit, hans,
      ReasoningParseResult.append_reasoningText] at h
    have hrest : (BaseReasoningParser.stream
        { (base0 forceReasoning streamReasoning).at' true (buffer ++ x) stripped with
          buffer := [], inReasoning := false } [y]).reasoningText = [] :=
      congrArg ReasoningParseResult.reasoningText hnormal
    have hlen' := congrArg List.length h
    dsimp only at hlen'
    rw [hrest, List.append_nil, List.length_take, List.length_take] at hlen'
    omega

/-- A text with an opener, around it. -/
theorem exists_opened {text : Text} {i : Nat} (h : find thinkStart text = some i) :
    ∃ pre body, text = pre ++ (thinkStart ++ body) ∧ pre.length = i := by
  have hle := find_le h marker_thinkStart.ne_nil
  exact ⟨_, _, (find_eq_some.1 h).1.eq, List.length_take_of_le (by omega)⟩

theorem stream_inside {streamReasoning : Bool} {chunk : Text} {chunks : List Text}
    (hs : Settled (base0 true streamReasoning) false chunk) :
    (base0 true streamReasoning).stream (chunk :: chunks) =
      (((base0 true streamReasoning).at' true chunk false).parseCurrent chunk).2.append
        ((((base0 true streamReasoning).at' true chunk false).parseCurrent chunk).1.stream
          chunks) := by
  have hparse : Settled (base0 true streamReasoning) false ([] ++ chunk) := hs
  have h : (base0 true streamReasoning).parseStreamingIncrement chunk =
      ((base0 true streamReasoning).at' true chunk false).parseCurrent chunk := hparse.parse
  rw [BaseReasoningParser.stream_cons, h]

theorem expected_of_force {streamReasoning : Bool} {text : Text}
    (h : Faithful true streamReasoning text) : find thinkStart text = none ∧ Tight text := by
  have hm := base0_markers true streamReasoning
  have hone := h.1 [text] List.flatten_singleton
  rw [stream_force, detectAndParse_force] at hone
  cases hopen : find thinkStart text with
  | some i =>
      -- the opener is lost from the stream but not from the one-shot parse
      obtain ⟨pre, body, rfl, rfl⟩ := exists_opened hopen
      rw [show (base0 true streamReasoning).stream [pre ++ (thinkStart ++ body)] =
        (base0 true streamReasoning).whole (pre ++ body) from stream_one hm true hopen] at hone
      have hanswer := (answer_interleaved true streamReasoning (pre ++ (thinkStart ++ body))).length
      have hwhole := whole_length true streamReasoning (pre ++ body)
      rw [hone] at hwhole
      have hstart : thinkStart.length = 10 := by decide
      have hend : thinkEnd.length = 11 := by decide
      unfold removeFirst at hanswer
      cases he : find thinkEnd (pre ++ (thinkStart ++ body)) with
      | none =>
          rw [he] at hanswer
          simp only [List.length_append] at hanswer hwhole
          omega
      | some e =>
          have hle := find_le he marker_thinkEnd.ne_nil
          rw [he] at hanswer
          simp only [List.length_append, List.length_take, List.length_drop] at hanswer hwhole hle
          omega
  | none =>
      have hs : Settled (base0 true streamReasoning) false text := .inr hopen
      refine ⟨rfl, tight_of_stream true streamReasoning [] hs ?_ ?_⟩
      · rw [← hone, stream_inside hs]
        exact (parseCurrent_whole hm hs text).symm
      · intro x y hxy
        have htwo := h.1 [x, y] (by rw [← hxy]; simp)
        have hx : Settled (base0 true streamReasoning) false x :=
          hs.within ⟨[], y, by rw [← hxy]; rfl⟩
        rw [stream_force, detectAndParse_force, stream_inside hx] at htwo
        exact htwo

theorem expected_of_leading {streamReasoning : Bool} {text : Text}
    (h : Faithful false streamReasoning text) (hhead : thinkEnd <+: lstrip text) :
    find thinkStart ((lstrip text).drop thinkEnd.length) = none := by
  have hone := h.1 [text] List.flatten_singleton
  rw [detectAndParse_leading streamReasoning hhead] at hone
  cases hopen : find thinkStart ((lstrip text).drop thinkEnd.length) with
  | none => rfl
  | some i =>
      obtain ⟨pre, body, hrest, rfl⟩ := exists_opened hopen
      have hne : (lstrip text).drop thinkEnd.length ≠ [] := fun hnil => by
        rw [hnil] at hopen
        cases hopen
      have hparse : (init false streamReasoning).parseStreamingIncrement text =
          (behind (base0 false streamReasoning)).parseBase
            ((lstrip text).drop thinkEnd.length) :=
        (parse_leading (base0 false streamReasoning) [] rfl hhead).trans (if_neg hne)
      have hstream : (init false streamReasoning).stream [text] =
          (base0 false streamReasoning).stream [(lstrip text).drop thinkEnd.length] := by
        rw [stream_cons, hparse, BaseReasoningParser.stream_cons, ← stream_base]
        rfl
      rw [hrest] at hopen
      rw [hstream, hrest, show (base0 false streamReasoning).stream [pre ++ (thinkStart ++ body)] =
        (base0 false streamReasoning).whole (pre ++ body) from
          stream_one (base0_markers false streamReasoning) false hopen] at hone
      have hwhole := whole_length false streamReasoning (pre ++ body)
      have hstart : thinkStart.length = 10 := by decide
      rw [hone] at hwhole
      simp only [List.length_append, List.length_nil] at hwhole
      omega

/-! ## What is held back -/

theorem held_closer (streamReasoning : Bool) (x : Text) :
    partialSuffix (base0 false streamReasoning).pendingTokens (x ++ "</".toList) = 2 := by
  have hpending : (base0 false streamReasoning).pendingTokens = (base0 false true).pendingTokens :=
    rfl
  rw [hpending]
  exact partialSuffix_eq (t := thinkEnd) (by decide) (by decide) (by decide)
    (by decide) x

theorem held_tool (streamReasoning : Bool) (x : Text) :
    partialSuffix (base0 false streamReasoning).pendingTokens (x ++ "]<".toList) = 2 := by
  have hpending : (base0 false streamReasoning).pendingTokens = (base0 false true).pendingTokens :=
    rfl
  rw [hpending]
  exact partialSuffix_eq (t := toolStart) (by decide) (by decide) (by decide)
    (by decide) x

/-- A character that stands in a closer behind its `<` starts no token and is no white space. -/
theorem held_char (streamReasoning : Bool) {c : Char} (hc : c ∈ thinkEnd.drop 1) :
    partialSuffix (base0 false streamReasoning).pendingTokens [c] = 0 ∧ isSpace c = false ∧
      ¬ [c] <+: thinkEnd := by
  have hpending : (base0 false streamReasoning).pendingTokens = (base0 false true).pendingTokens :=
    rfl
  rw [hpending]
  have hchars : (thinkEnd.drop 1).all (fun c => decide (c ≠ '<' ∧ c ≠ ']' ∧ isSpace c = false))
      = true := by decide
  have hheads : ∀ t ∈ (base0 false true).pendingTokens, t.head? = some '<' ∨ t.head? = some ']' := by
    decide
  obtain ⟨hopen, hclose, hspace⟩ := of_decide_eq_true (List.all_eq_true.1 hchars c hc)
  refine ⟨partialSuffix_singleton fun t ht hhead => ?_, hspace, fun hpre => ?_⟩
  · rcases hheads t ht with h | h <;> rw [h] at hhead
    · exact hopen (Option.some.inj hhead).symm
    · exact hclose (Option.some.inj hhead).symm
  · exact hopen (List.cons_prefix_cons.1 hpre).1

/-! ## An opener behind prose -/

section Opened

variable {streamReasoning : Bool} {pre body : Text}

/-- What the one-shot parse returns if the first `k` characters went out before the opener was
seen. -/
def CutAt (streamReasoning : Bool) (pre body : Text) (k : Nat) : Prop :=
  k ≤ pre.length ∧
    (init false streamReasoning).detectAndParse (pre ++ (thinkStart ++ body)) =
      (before false (pre.take k)).append
        ((base0 false streamReasoning).whole (pre.drop k ++ body))

variable (h : Faithful false streamReasoning (pre ++ (thinkStart ++ body)))
  (hhead : ¬ thinkEnd <+: lstrip (pre ++ (thinkStart ++ body)))
  (hfirst : find thinkStart (pre ++ (thinkStart ++ body)) = some pre.length)

include h hhead hfirst

theorem cutAt_zero : CutAt streamReasoning pre body 0 := by
  refine ⟨Nat.zero_le _, ?_⟩
  have hone : (base0 false streamReasoning).stream [pre ++ (thinkStart ++ body)] = _ :=
    stream_one (base0_markers false streamReasoning) false hfirst
  rw [← h.1 [pre ++ (thinkStart ++ body)] List.flatten_singleton, (diverges_opener hhead).stream,
    hone]
  rfl

omit hhead in
theorem cutAt_two {x y : Text} (htext : x ++ y = pre ++ (thinkStart ++ body))
    (hlt : x.length < pre.length + thinkStart.length) (hdiv : Diverges x) {k : Nat}
    (hk : x.length - partialSuffix (base0 false streamReasoning).pendingTokens x = k) :
    CutAt streamReasoning pre body k := by
  obtain ⟨hle, htwo⟩ := stream_two (base0_markers false streamReasoning) hfirst htext hlt hk
  refine ⟨hle, ?_⟩
  rw [← h.1 [x, y] (by rw [← htext]; simp), hdiv.stream]
  exact htwo

omit h in
theorem CutAt.closer {k e : Nat} (hcut : CutAt streamReasoning pre body k)
    (he : find thinkEnd body = some e) :
    find thinkEnd (pre.drop k ++ body) = some e ∧
      rstrip ((pre.drop k ++ body).take e) = body.take e := by
  obtain ⟨hle, hdetect⟩ := hcut
  have hend := find_le he marker_thinkEnd.ne_nil
  rw [detectAndParse_opened streamReasoning hhead hfirst,
    if_neg (by rw [he]; exact fun h => Option.some_ne_none e h.1)] at hdetect
  have hanswer : (base0 false streamReasoning).answer body =
      { reasoningText := body.take e, normalText := body.drop (e + thinkEnd.length) } := by
    unfold answer
    rw [show find (base0 false streamReasoning).thinkEndToken body = some e from he]
    rfl
  rw [hanswer] at hdetect
  have hreason := congrArg ReasoningParseResult.reasoningText hdetect
  have hnormal := congrArg (fun r => r.normalText.length) hdetect
  unfold whole at hreason hnormal
  rw [show (base0 false streamReasoning).thinkEndToken = thinkEnd from rfl] at hreason hnormal
  cases hf : find thinkEnd (pre.drop k ++ body) with
  | none =>
      refine absurd (occursAt_append_left.2 (find_eq_some.1 he).1) (find_eq_none.1 hf _)
  | some e' =>
      have hle' := find_le hf marker_thinkEnd.ne_nil
      rw [hf] at hreason hnormal
      simp only [before_false, ReasoningParseResult.append_normalText, List.length_append,
        List.length_take, List.length_drop] at hnormal hle'
      have heq : e' = e := by omega
      subst heq
      simp only [before_false, ReasoningParseResult.append_reasoningText,
        List.nil_append] at hreason
      exact ⟨rfl, hreason.symm⟩

omit h in
/-- Without a closer the one-shot parse keeps the prose only in front of a tool block, and the stream
sees that block at the same place. -/
theorem CutAt.tool {k t : Nat} (hcut : CutAt streamReasoning pre body k)
    (he : find thinkEnd body = none) (ht : find toolStart body = some t) :
    find thinkEnd (pre.drop k ++ body) = none ∧ find toolStart (pre.drop k ++ body) = some t := by
  obtain ⟨hle, hdetect⟩ := hcut
  have hend := find_le ht marker_toolStart.ne_nil
  rw [detectAndParse_opened streamReasoning hhead hfirst,
    if_neg (by rw [ht]; exact fun h => Option.some_ne_none t h.2)] at hdetect
  have hbody := (answer_interleaved false streamReasoning body).length
  unfold removeFirst at hbody
  rw [he] at hbody
  have hlength : ((before false pre).append ((base0 false streamReasoning).answer body)).reasoningText.length +
      ((before false pre).append ((base0 false streamReasoning).answer body)).normalText.length =
        pre.length + body.length := by
    simp only [before_false, ReasoningParseResult.append_reasoningText,
      ReasoningParseResult.append_normalText, List.nil_append, List.length_append] at hbody ⊢
    omega
  have hwhole := whole_length false streamReasoning (pre.drop k ++ body)
  have hanswer : (base0 false streamReasoning).answer body =
      { reasoningText := body.take t, normalText := body.drop t } := by
    unfold answer
    rw [base0_toolIdx, ht,
      show find (base0 false streamReasoning).thinkEndToken body = none from he]
  rw [hdetect] at hlength
  simp only [before_false, ReasoningParseResult.append_reasoningText,
    ReasoningParseResult.append_normalText, List.nil_append, List.length_append, List.length_take,
    List.length_drop] at hlength hwhole
  have hnone : find thinkEnd (pre.drop k ++ body) = none := by
    rcases hwhole with ⟨-, hnone⟩ | ⟨hshort, -⟩
    · exact hnone
    · have : 0 < thinkEnd.length := by decide
      omega
  refine ⟨hnone, ?_⟩
  cases hf : find toolStart (pre.drop k ++ body) with
  | none => exact absurd (occursAt_append_left.2 (find_eq_some.1 ht).1) (find_eq_none.1 hf _)
  | some t' =>
      have hle' := find_le hf marker_toolStart.ne_nil
      have hnormal := congrArg (fun r => r.normalText.length) hdetect
      rw [hanswer] at hnormal
      unfold whole answer at hnormal
      rw [base0_toolIdx, hf, show (base0 false streamReasoning).thinkEndToken = thinkEnd from rfl,
        hnone] at hnormal
      simp only [before_false, ReasoningParseResult.append_normalText, List.length_append,
        List.length_take, List.length_drop] at hnormal hle'
      have heq : t' = t := by omega
      rw [heq]

/-- The closer of the body stands in the prose as well: then the prose ends the reasoning. -/
theorem no_closer_in_prose {e : Nat} (he : find thinkEnd body = some e)
    (hocc : OccursAt thinkEnd pre e) : False := by
  have hend : thinkEnd.length = 11 := by decide
  have hle := hocc.le marker_thinkEnd.ne_nil
  have heq := hocc.eq
  have hx : pre.take (e + 2) = pre.take e ++ "</".toList := by
    obtain ⟨z, hz⟩ := hocc
    rw [List.take_add, ← hz]
    rfl
  have hblank : ¬ Blank (pre.take e) := fun hblank => by
    refine hhead ?_
    rw [heq, List.append_assoc, lstrip_blank_append hblank, List.append_assoc,
      lstrip_marker marker_thinkEnd]
    exact List.prefix_append _ _
  have htext : pre.take (e + 2) ++ (pre.drop (e + 2) ++ (thinkStart ++ body)) =
      pre ++ (thinkStart ++ body) := by
    rw [← List.append_assoc, List.take_append_drop]
  have hlstrip : lstrip (pre.take e) ≠ [] := fun hnil => hblank fun c hc =>
    List.dropWhile_eq_nil_iff.1 hnil c hc
  have hdiv : Diverges (pre.take (e + 2)) := by
    refine ⟨fun hlead => hhead ?_, ?_⟩
    · rw [← htext]
      exact leading_append hlead
    · rw [hx, lstrip_append_of_ne_nil hlstrip, not_or]
      refine ⟨fun hnil => hlstrip (List.append_eq_nil_iff.1 hnil).1, fun hpre => ?_⟩
      have hocc' : OccursAt "</".toList thinkEnd (lstrip (pre.take e)).length := by
        obtain ⟨z, hz⟩ := hpre
        rw [← hz, List.append_assoc]
        unfold OccursAt
        rw [List.drop_left]
        exact List.prefix_append _ _
      obtain ⟨d, hd⟩ := Nat.exists_eq_succ_of_ne_zero
        (fun hzero => hlstrip (List.eq_nil_of_length_eq_zero hzero))
      rw [hd] at hocc'
      exact find_eq_none.1 (show find "</".toList (thinkEnd.drop 1) = none by decide) d
        hocc'
  have hlen : (pre.take (e + 2)).length = e + 2 := List.length_take_of_le (by omega)
  have hcut := cutAt_two h hfirst htext (by omega) hdiv (k := e) (by
    rw [hlen, hx, held_closer]
    omega)
  obtain ⟨hseen, -⟩ := hcut.closer hhead hfirst he
  have hzero : e = 0 := by
    by_contra hpos
    refine (find_eq_some.1 hseen).2 0 (by omega) ?_
    rw [occursAt_zero]
    exact List.IsPrefix.trans hocc (List.prefix_append _ _)
  subst hzero
  exact hblank (by rw [List.take_zero]; exact fun c hc => by cases hc)

/-- The prose ends with the beginning of a closer that the body completes once the opener is out. -/
theorem no_closer_across {e : Nat} (he : find thinkEnd body = some e)
    (hocc : OccursAt thinkEnd (pre ++ body) e) (hlt : e < pre.length)
    (hend : pre.length < e + thinkEnd.length) (htake : pre.take e = body.take e) : False := by
  have htail : thinkEnd.drop (pre.length - e) <+: body := by
    obtain ⟨z, hz⟩ := hocc
    rw [List.drop_append_of_le_length hlt.le] at hz
    have hdrop := congrArg (List.drop (pre.length - e)) hz
    rw [List.drop_append_of_le_length (by omega),
      List.drop_left' (by rw [List.length_drop])] at hdrop
    exact ⟨z, hdrop⟩
  have hfree : ∀ c < thinkEnd.length, 0 < c → ¬ thinkEnd.drop c <+: thinkEnd := by decide
  cases e with
  | zero =>
      have hbody : thinkEnd <+: body := occursAt_zero.1 (find_eq_some.1 he).1
      refine hfree (pre.length - 0) (by omega) (by omega)
        (List.prefix_of_prefix_length_le htail hbody ?_)
      rw [List.length_drop]
      omega
  | succ e =>
      obtain ⟨c, pre', rfl⟩ := List.exists_cons_of_length_pos (by omega : 0 < pre.length)
      obtain ⟨d, body', rfl⟩ := List.exists_cons_of_length_pos
        (by have := find_le he marker_thinkEnd.ne_nil; omega : 0 < body.length)
      rw [List.take_succ_cons, List.take_succ_cons] at htake
      obtain ⟨rfl, -⟩ := List.cons.inj htake
      have hc : c ∈ thinkEnd.drop 1 := by
        have hdrop : thinkEnd.drop ((c :: pre').length - (e + 1)) ≠ [] := fun hnil => by
          have := congrArg List.length hnil
          rw [List.length_drop, List.length_nil] at this
          omega
        obtain ⟨d, tail, hcons⟩ := List.exists_cons_of_ne_nil hdrop
        rw [hcons, List.cons_prefix_cons] at htail
        rw [← htail.1]
        have hmem : d ∈ thinkEnd.drop ((c :: pre').length - (e + 1)) := by
          rw [hcons]
          exact List.mem_cons_self
        exact List.drop_subset_drop_left _ (by omega) hmem
      obtain ⟨hheld, hspace, hnopre⟩ := held_char streamReasoning hc
      have hlstrip : lstrip [c] = [c] := by
        unfold lstrip
        rw [List.dropWhile_cons_of_neg (by simp [hspace])]
      have hdiv : Diverges [c] := by
        unfold Diverges
        rw [hlstrip]
        refine ⟨fun hlong => ?_, fun hor => ?_⟩
        · exact absurd hlong.length_le (show ¬ 11 ≤ 1 by decide)
        · exact hor.elim (List.cons_ne_nil _ _) hnopre
      have hcut := cutAt_two h hfirst (x := [c]) (y := pre' ++ (thinkStart ++ c :: body')) rfl
        (by have : 0 < thinkStart.length := by decide
            simp only [List.length_cons, List.length_nil]
            omega) hdiv (k := 1) (by rw [hheld]; rfl)
      obtain ⟨hseen, -⟩ := hcut.closer hhead hfirst he
      have hstart : StartsOnly '<' thinkEnd := ⟨_, rfl, by decide⟩
      have hocc' : OccursAt thinkEnd (c :: pre' ++ c :: body') (e + 1 + 1) :=
        (find_eq_some.1 hseen).1
      have := hstart.le hstart hocc hocc' (Nat.lt_succ_self _)
      have hlen : thinkEnd.length = 11 := by decide
      omega

/-- A body with a closer has no prose before its opener. -/
theorem pre_eq_nil_of_closer {e : Nat} (he : find thinkEnd body = some e) : pre = [] := by
  by_contra hne
  have hpos := List.length_pos_iff.2 hne
  obtain ⟨hseen, htrim⟩ := (cutAt_zero h hhead hfirst).closer hhead hfirst he
  rw [List.drop_zero] at hseen htrim
  have hocc := (find_eq_some.1 hseen).1
  have hlt : e < pre.length := by
    by_contra hle
    obtain ⟨d, rfl⟩ := Nat.exists_eq_add_of_le (Nat.le_of_not_lt hle)
    exact (find_eq_some.1 he).2 d (by omega) (occursAt_append_left.1 hocc)
  by_cases hend : e + thinkEnd.length ≤ pre.length
  · exact no_closer_in_prose h hhead hfirst he (hocc.of_append hend)
  · refine no_closer_across h hhead hfirst he hocc hlt (by omega) ?_
    have hle := find_le he marker_thinkEnd.ne_nil
    rw [List.take_append_of_le_length hlt.le] at htrim
    have hlen := congrArg List.length htrim
    rw [List.length_take_of_le (by omega : e ≤ body.length)] at hlen
    rw [← htrim]
    refine (List.IsPrefix.eq_of_length (List.rdropWhile_prefix isSpace _) ?_).symm
    rw [List.length_take_of_le hlt.le]
    exact hlen

/-- A tool block that the prose is kept for starts the body. -/
theorem tool_starts_body {t : Nat} (hne : pre ≠ []) (he : find thinkEnd body = none)
    (ht : find toolStart body = some t) : t = 0 := by
  have hpos := List.length_pos_iff.2 hne
  have hcut := cutAt_zero h hhead hfirst
  have hseen := (hcut.tool hhead hfirst he ht).2
  rw [List.drop_zero] at hseen
  have hocc := (find_eq_some.1 hseen).1
  have hlt : t < pre.length := by
    by_contra hle
    obtain ⟨d, rfl⟩ := Nat.exists_eq_add_of_le (Nat.le_of_not_lt hle)
    exact (find_eq_some.1 ht).2 d (by omega) (occursAt_append_left.1 hocc)
  have htool : toolStart <+: pre.drop t ++ body := by
    unfold OccursAt at hocc
    rwa [List.drop_append_of_le_length hlt.le] at hocc
  -- the prose, or the prose and the opener's `<`, begin the tool marker at `t`
  obtain ⟨u, hu⟩ : ∃ u, pre.drop t ++ (thinkStart ++ body) = "]<".toList ++ u := by
    cases hd : pre.drop t with
    | nil =>
        have := congrArg List.length hd
        rw [List.length_drop, List.length_nil] at this
        omega
    | cons c rest =>
        have hmarker : toolStart = ']' :: '<' :: toolStart.drop 2 := by decide
        have hopener : thinkStart = '<' :: thinkStart.drop 1 := by decide
        rw [hd, hmarker, List.cons_append, List.cons_prefix_cons] at htool
        obtain ⟨rfl, htool⟩ := htool
        cases rest with
        | nil =>
            rw [hopener]
            exact ⟨_, rfl⟩
        | cons d rest =>
            rw [List.cons_append, List.cons_prefix_cons] at htool
            obtain ⟨rfl, -⟩ := htool
            exact ⟨_, rfl⟩
  have htext : (pre.take t ++ "]<".toList) ++ u = pre ++ (thinkStart ++ body) := by
    rw [List.append_assoc, ← hu, ← List.append_assoc, List.take_append_drop]
  have hdiv : Diverges (pre.take t ++ "]<".toList) := by
    refine diverges_of_mem (c := ']') (y := u) (by decide) (by decide) ?_ (by rwa [htext])
    exact List.mem_append_right _ (by decide)
  have hlen : (pre.take t ++ "]<".toList).length = t + 2 := by
    rw [List.length_append, List.length_take_of_le hlt.le]
    rfl
  have hstart : thinkStart.length = 10 := by decide
  have hcut' := cutAt_two h hfirst htext (by omega) hdiv (k := t) (by
    rw [hlen, held_tool]
    omega)
  have hseen' := (hcut'.tool hhead hfirst he ht).2
  by_contra hzero
  exact (find_eq_some.1 hseen').2 0 (by omega) (occursAt_zero.2 htool)

end Opened

/-- A chunk that is a tool marker, before any reasoning, is answer. -/
theorem stream_toolChunk (streamReasoning : Bool) (chunks : List Text) :
    (base0 false streamReasoning).stream (toolStart :: chunks) =
      (before false toolStart).append ((base0 false streamReasoning).stream chunks) := by
  have hs : Settled (base0 false streamReasoning) false ([] ++ toolStart) :=
    .inr (show find thinkStart toolStart = none by decide)
  have hparse : (base0 false streamReasoning).parseStreamingIncrement toolStart =
      ((base0 false streamReasoning).at' false ([] ++ toolStart) false).parseCurrent
        ([] ++ toolStart) := hs.parse
  obtain ⟨k, -, hk, hquiet⟩ := parseCurrent_quiet
    ((base0 false streamReasoning).at' false ([] ++ toolStart) false) ([] ++ toolStart)
    (fun hr => by cases hr) (fun hr => by cases hr)
  have hheld : partialSuffix (base0 false true).pendingTokens toolStart = 0 := by decide
  have hlen : k = toolStart.length := by
    rcases hk with ⟨hr, -⟩ | hk
    · cases hr
    · rw [hk]
      exact congrArg (toolStart.length - ·) hheld
  rw [hlen] at hquiet
  rw [BaseReasoningParser.stream_cons, hparse.trans hquiet]
  rfl

/-- Prose that is streamed right whatever its cuts, before a tool block in the reasoning, is made of
tool markers. -/
theorem tools_of_stream (streamReasoning : Bool) {body : Text}
    (htool : toolStart <+: body) : ∀ (n : Nat) (pre : Text), pre.length ≤ n →
    find thinkStart (pre ++ (thinkStart ++ body)) = some pre.length →
    (∀ c cs, (c :: cs).flatten = pre ++ (thinkStart ++ body) → ']' ∈ c →
      (base0 false streamReasoning).stream (c :: cs) = { normalText := pre ++ body }) →
    ∃ m, pre = (List.replicate m toolStart).flatten := by
  intro n
  induction n with
  | zero =>
      intro pre hle _ _
      exact ⟨0, List.eq_nil_of_length_eq_zero (Nat.le_zero.1 hle)⟩
  | succ n ih =>
      intro pre hle hfirst hstream
      by_cases hne : pre = []
      · exact ⟨0, hne⟩
      have hpos := List.length_pos_iff.2 hne
      have hmem : ']' ∈ body := htool.subset (by decide)
      have hone := hstream (pre ++ (thinkStart ++ body)) [] (by simp)
        (List.mem_append_right _ (List.mem_append_right _ hmem))
      rw [show (base0 false streamReasoning).stream [pre ++ (thinkStart ++ body)] =
        (base0 false streamReasoning).whole (pre ++ body) from
          stream_one (base0_markers false streamReasoning) false hfirst] at hone
      have hwhole := whole_length false streamReasoning (pre ++ body)
      have hend : 0 < thinkEnd.length := by decide
      have hnone : find thinkEnd (pre ++ body) = none := by
        rcases hwhole with ⟨-, hnone⟩ | ⟨hshort, -⟩
        · exact hnone
        · rw [hone] at hshort
          simp only [List.length_nil] at hshort
          omega
      have hhead : toolStart <+: pre ++ body := by
        unfold whole answer at hone
        rw [base0_toolIdx, show (base0 false streamReasoning).thinkEndToken = thinkEnd from rfl,
          hnone] at hone
        cases hf : find toolStart (pre ++ body) with
        | none =>
            exact absurd (occursAt_append_left.2 (occursAt_zero.2 htool)) (find_eq_none.1 hf _)
        | some t =>
            rw [hf] at hone
            have hreason := congrArg (fun r => r.reasoningText.length) hone
            have hfle := find_le hf marker_toolStart.ne_nil
            have htlen : toolStart.length = 24 := by decide
            simp only [List.length_take, List.length_nil] at hreason
            have hzero : t = 0 := by omega
            rw [hzero] at hf
            exact occursAt_zero.1 (find_eq_some.1 hf).1
      by_cases hlong : toolStart.length ≤ pre.length
      · obtain ⟨pre', rfl⟩ : toolStart <+: pre :=
          List.prefix_of_prefix_length_le hhead (List.prefix_append _ _) hlong
        have htlen : toolStart.length = 24 := by decide
        rw [List.length_append] at hle
        have hfirst' : find thinkStart (pre' ++ (thinkStart ++ body)) = some pre'.length := by
          rw [List.append_assoc] at hfirst
          obtain ⟨hocc, hearly⟩ := find_eq_some.1 hfirst
          rw [List.length_append] at hocc hearly
          refine find_eq_some.2 ⟨occursAt_append_left.1 hocc, fun j hj hoccj => ?_⟩
          exact hearly (toolStart.length + j) (by omega) (occursAt_append_left.2 hoccj)
        have hstream' : ∀ c cs, (c :: cs).flatten = pre' ++ (thinkStart ++ body) → ']' ∈ c →
            (base0 false streamReasoning).stream (c :: cs) = { normalText := pre' ++ body } := by
          intro c cs htext _
          have hall := hstream toolStart (c :: cs)
            (by rw [List.flatten_cons, htext, List.append_assoc]) (by decide)
          rw [stream_toolChunk, List.append_assoc] at hall
          have hreason := congrArg ReasoningParseResult.reasoningText hall
          have hnormal := congrArg ReasoningParseResult.normalText hall
          simp only [before_false, ReasoningParseResult.append_reasoningText,
            ReasoningParseResult.append_normalText, List.nil_append,
            List.append_cancel_left_eq] at hreason hnormal
          generalize (base0 false streamReasoning).stream (c :: cs) = result at *
          obtain ⟨r, n⟩ := result
          dsimp only at hreason hnormal
          rw [hreason, hnormal]
        obtain ⟨m, hm⟩ := ih pre' (by omega) hfirst' hstream'
        refine ⟨m + 1, ?_⟩
        rw [List.replicate_succ, List.flatten_cons, ← hm]
      · -- a shorter prose would end inside a tool marker that starts again in the body
        have hfree : ∀ c < toolStart.length, 0 < c → ¬ toolStart.drop c <+: toolStart := by
          decide
        have htail : toolStart.drop pre.length <+: body := by
          obtain ⟨z, hz⟩ := hhead
          have hdrop := congrArg (List.drop pre.length) hz
          rw [List.drop_append_of_le_length (by omega), List.drop_left] at hdrop
          exact ⟨z, hdrop⟩
        refine absurd (List.prefix_of_prefix_length_le htail htool ?_)
          (hfree pre.length (by omega) hpos)
        rw [List.length_drop]
        omega

section Opened

variable {streamReasoning : Bool} {pre body : Text}
  (h : Faithful false streamReasoning (pre ++ (thinkStart ++ body)))
  (hhead : ¬ thinkEnd <+: lstrip (pre ++ (thinkStart ++ body)))
  (hfirst : find thinkStart (pre ++ (thinkStart ++ body)) = some pre.length)

include h hhead hfirst

theorem tight_of_opened {e : Nat} (he : find thinkEnd body = some e) : Tight body := by
  have hpre := pre_eq_nil_of_closer h hhead hfirst he
  subst hpre
  have hdetect := detectAndParse_opened streamReasoning hhead hfirst
  rw [if_neg (by rw [he]; exact fun h => Option.some_ne_none e h.1)] at hdetect
  have hs : Settled (base0 false streamReasoning) true body := .inl rfl
  refine tight_of_stream false streamReasoning thinkStart hs ?_ ?_
  · have hone := (cutAt_zero h hhead hfirst).2
    rw [hdetect] at hone
    exact hone.symm
  · rintro x y rfl
    have hdiv : Diverges (thinkStart ++ x) :=
      diverges_opener (x := []) fun hlead => hhead (by
        have := leading_append (y := y) hlead
        rwa [List.nil_append, List.append_assoc] at this)
    have htwo := h.1 [thinkStart ++ x, y] (by simp)
    have hfind : find (base0 false streamReasoning).thinkStartToken ([] ++ (thinkStart ++ x)) =
        some 0 :=
      find_eq_some.2 ⟨occursAt_zero.2 (List.prefix_append _ _),
        fun j hj => absurd hj (Nat.not_lt_zero j)⟩
    have hparse := parse_found false [] (thinkStart ++ x) hfind
    rw [List.take_zero, List.nil_append, Nat.zero_add,
      show (base0 false streamReasoning).thinkStartToken = thinkStart from rfl, List.nil_append,
      List.drop_left] at hparse
    have hparse' : (base0 false streamReasoning).parseStreamingIncrement (thinkStart ++ x) = _ :=
      hparse
    rw [hdiv.stream, BaseReasoningParser.stream_cons, hparse', hdetect] at htwo
    exact htwo

theorem tools_of_opened (hne : pre ≠ []) (he : find thinkEnd body = none) :
    toolStart <+: body ∧ ∃ n, pre = (List.replicate n toolStart).flatten := by
  cases ht : find toolStart body with
  | none =>
      -- the prose is in neither output
      have hlost := h.2.length
      rw [remaining_opened hhead hfirst, detectAndParse_opened streamReasoning hhead hfirst,
        if_pos ⟨he, ht⟩] at hlost
      unfold removeFirst at hlost
      rw [he, List.length_append] at hlost
      have := List.length_pos_iff.2 hne
      simp only [List.length_nil] at hlost
      omega
  | some t =>
      have hzero := tool_starts_body h hhead hfirst hne he ht
      rw [hzero] at ht
      have htool := occursAt_zero.1 (find_eq_some.1 ht).1
      refine ⟨htool, tools_of_stream streamReasoning htool pre.length pre le_rfl hfirst ?_⟩
      intro c cs htext hmem
      have hdiv : Diverges c :=
        diverges_of_mem (c := ']') (y := cs.flatten) (by decide) (by decide) hmem (by
          rw [List.flatten_cons] at htext
          rwa [htext])
      rw [← hdiv.stream, h.1 _ htext]
      exact detectAndParse_tool streamReasoning hfirst hhead he htool

end Opened

/-- Streamed and one-shot parse agree however the text is cut, and lose nothing, exactly on the
expected texts. -/
theorem faithful_iff_expected (forceReasoning streamReasoning : Bool) (text : Text) :
    Faithful forceReasoning streamReasoning text ↔ Expected forceReasoning text := by
  unfold Expected
  cases forceReasoning with
  | true => exact ⟨expected_of_force, fun h => faithful_force streamReasoning h.1 h.2⟩
  | false =>
      rw [if_neg Bool.false_ne_true]
      split
      · rename_i hhead
        exact ⟨fun h => expected_of_leading h hhead, faithful_leading streamReasoning hhead⟩
      · rename_i hhead
        constructor
        · intro h i hi
          obtain ⟨pre, body, rfl, rfl⟩ := exists_opened hi
          rw [← List.drop_drop, List.drop_left, List.drop_left, List.take_left]
          cases he : find thinkEnd body with
          | some e =>
              have hpre := pre_eq_nil_of_closer h hhead hi he
              have htight := tight_of_opened h hhead hi he
              subst hpre
              refine .inl ⟨rfl, ?_⟩
              rwa [List.nil_append, List.drop_left]
          | none =>
              by_cases hne : pre = []
              · subst hne
                refine .inl ⟨rfl, ?_⟩
                rw [List.nil_append, List.drop_left]
                exact .of_none he
              · obtain ⟨htool, hcopies⟩ := tools_of_opened h hhead hi hne he
                exact .inr ⟨rfl, htool, hcopies⟩
        · intro h
          cases hopen : find thinkStart text with
          | none => exact faithful_plain streamReasoning hhead hopen
          | some i =>
              have hi := h i hopen
              obtain ⟨pre, body, rfl, rfl⟩ := exists_opened hopen
              rw [← List.drop_drop, List.drop_left, List.drop_left, List.take_left] at hi
              rcases hi with ⟨hzero, htight⟩ | ⟨he, htool, n, hn⟩
              · have hpre := List.eq_nil_of_length_eq_zero hzero
                subst hpre
                rw [List.nil_append, List.drop_left] at htight
                exact faithful_opened streamReasoning hopen hhead htight
              · exact faithful_tools streamReasoning hn hopen hhead he htool

/-- Prose before an opener that nothing closes is lost by the one-shot parse, and a stream trims the
reasoning before its closer. -/
theorem faithful_not_all :
    ¬ Faithful false true "a<mm:think>b".toList ∧
      ¬ Faithful false true "<mm:think>a </mm:think>b".toList ∧
      ¬ Faithful true true "a <mm:think></mm:think>b".toList := by
  refine ⟨fun h => ?_, fun h => ?_, fun h => ?_⟩
  · have := h.1 ["a<mm:think>b".toList] rfl
    exact absurd this (by decide)
  · have := h.1 ["<mm:think>a </mm:think>b".toList] rfl
    exact absurd this (by decide)
  · have := h.1 ["a <mm:think></mm:think>b".toList] rfl
    exact absurd this (by decide)

end MiniMaxM3ReasoningParser

end FreeToken
