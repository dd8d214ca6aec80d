import FreeToken.Server.ThinkStream

/-!
# One-shot and streamed think blocks

The one-shot parse takes every opener out of the text and trims it; the stream takes out the first
and trims nothing but the reasoning before its closer.  On a text with one opener in its place, both
return the same reasoning and the same answer, up to white space around them.
-/

set_option autoImplicit false

namespace FreeToken

open Search Text

namespace Text

theorem lstrip_append (text : Text) : ∃ w, Blank w ∧ text = w ++ lstrip text := by
  refine ⟨text.takeWhile isSpace, fun c hc => List.mem_takeWhile_imp hc, ?_⟩
  exact List.takeWhile_append_dropWhile.symm

theorem lstrip_blank_append {w : Text} (hw : Blank w) (text : Text) :
    lstrip (w ++ text) = lstrip text := by
  unfold lstrip
  rw [List.dropWhile_append, List.dropWhile_eq_nil_iff.2 hw]
  rfl

theorem rstrip_append_blank {w : Text} (hw : Blank w) (text : Text) :
    rstrip (text ++ w) = rstrip text := by
  have hrev : (w.reverse.dropWhile isSpace) = [] :=
    List.dropWhile_eq_nil_iff.2 fun c hc => hw c (List.mem_reverse.1 hc)
  unfold rstrip List.rdropWhile
  rw [List.reverse_append, List.dropWhile_append, hrev]
  rfl

theorem strip_blank_append {w : Text} (hw : Blank w) (text : Text) :
    strip (w ++ text) = strip text := by
  unfold strip
  rw [lstrip_blank_append hw]

theorem strip_append_blank {w : Text} (hw : Blank w) (text : Text) :
    strip (text ++ w) = strip text := by
  unfold strip lstrip
  rw [List.dropWhile_append]
  split
  · rename_i hnil
    rw [List.isEmpty_iff.1 hnil, List.dropWhile_eq_nil_iff.2 hw]
  · exact rstrip_append_blank hw _

theorem Trimmed.strip {text full : Text} (h : Trimmed text full) :
    Text.strip full = Text.strip text := by
  obtain ⟨w, hw, rfl⟩ := h
  exact strip_append_blank hw text

/-- White space around a text, taken off by `strip`. -/
theorem strip_eq (text : Text) :
    ∃ w w', Blank w ∧ Blank w' ∧ text = w ++ (strip text ++ w') := by
  obtain ⟨w, hw, htext⟩ := lstrip_append text
  obtain ⟨w', hw', hstrip⟩ := rstrip_append (lstrip text)
  exact ⟨w, w', hw, hw', htext.trans (congrArg (w ++ ·) hstrip)⟩

theorem strip_strip (text : Text) : strip (strip text) = strip text := by
  obtain ⟨w, w', hw, hw', htext⟩ := strip_eq text
  have h := congrArg strip htext
  rw [strip_blank_append hw, strip_append_blank hw'] at h
  exact h.symm

/-- A marker that ends in no white space is not completed by it. -/
theorem Marker.find_append_blank {tok w : Text} (h : Marker tok) (hw : Blank w) (text : Text) :
    find tok (text ++ w) = find tok text := by
  cases hf : find tok text with
  | some i => exact find_append hf h.ne_nil w
  | none =>
      refine find_eq_none.2 fun i hi => ?_
      have hle := hi.le h.ne_nil
      have hend : text.length < i + tok.length := by
        by_contra hle'
        exact find_eq_none.1 hf i (hi.of_append (by omega))
      obtain ⟨c, body, htok, hc⟩ := h.last
      have hget : (text ++ w)[i + body.length]? = some c := by
        obtain ⟨s, hs⟩ := hi
        have := congrArg (fun l => l[body.length]?) hs
        simpa [htok, List.getElem?_drop] using this.symm
      rw [htok, List.length_append, List.length_singleton] at hend
      rw [List.getElem?_append_right (by omega)] at hget
      rw [hw c (List.mem_of_getElem? hget)] at hc
      cases hc

theorem remove_of_none {tok text : Text} (h : find tok text = none) (fuel : Nat) :
    remove tok fuel text = text := by
  cases fuel with
  | zero => rfl
  | succ fuel => rw [remove, h]

theorem removeAll_of_none {tok text : Text} (h : find tok text = none) :
    removeAll tok text = text := by
  unfold removeAll
  rw [remove_of_none h, ite_self]

theorem removeAll_once {tok a b : Text} (hne : tok ≠ [])
    (h : find tok (a ++ (tok ++ b)) = some a.length) (honce : find tok b = none) :
    removeAll tok (a ++ (tok ++ b)) = a ++ b := by
  have hpos := List.length_pos_iff.2 hne
  obtain ⟨n, hn⟩ : ∃ n, (a ++ (tok ++ b)).length = n + 1 :=
    Nat.exists_eq_succ_of_ne_zero (by simp only [List.length_append]; omega)
  unfold removeAll
  rw [if_neg hne, hn, remove, h]
  dsimp only
  rw [List.take_left, ← List.drop_drop, List.drop_left, List.drop_left, remove_of_none honce]

end Text

namespace BaseReasoningParser

variable {p : BaseReasoningParser}

/-- Equal up to white space around the reasoning and around the answer. -/
def SameStripped (a b : ReasoningParseResult) : Prop :=
  strip a.reasoningText = strip b.reasoningText ∧ strip a.normalText = strip b.normalText

instance (a b : ReasoningParseResult) : Decidable (SameStripped a b) :=
  inferInstanceAs (Decidable (_ ∧ _))

/-- White space around the text does not change where it is split. -/
theorem Markers.answer_blank (h : Markers p) {w w' : Text} (hw : Blank w) (hw' : Blank w')
    (x : Text) : SameStripped (p.answer (w ++ (x ++ w'))) (p.answer x) := by
  have htool : p.toolIdx (x ++ w') = p.toolIdx x := by
    rw [h.toolIdx_eq, h.toolIdx_eq]
    cases htok : p.toolStartToken with
    | none => rfl
    | some tok => exact (h.tool tok htok).find_append_blank hw' x
  rw [h.answer_clear (h.clear_blank hw)]
  unfold SameStripped before
  rw [if_pos rfl, ReasoningParseResult.append_reasoningText,
    ReasoningParseResult.append_normalText, strip_blank_append hw, List.nil_append]
  unfold answer
  rw [h.closer.find_append_blank hw', htool]
  cases hE : find p.thinkEndToken x with
  | some i =>
      have hle := find_le hE h.closer.ne_nil
      dsimp only
      rw [List.take_append_of_le_length (by omega), List.drop_append_of_le_length hle,
        strip_append_blank hw']
      exact ⟨rfl, rfl⟩
  | none =>
      cases hT : p.toolIdx x with
      | some i =>
          obtain ⟨tok, htok, hfind⟩ := h.toolIdx_some hT
          have hle := find_le hfind (h.tool tok htok).ne_nil
          dsimp only
          rw [List.take_append_of_le_length (by omega), List.drop_append_of_le_length (by omega),
            strip_append_blank hw']
          exact ⟨rfl, rfl⟩
      | none =>
          dsimp only
          rw [strip_append_blank hw']
          exact ⟨rfl, rfl⟩

/-- The one-shot parse is the answer of the text without its openers. -/
theorem detectAndParse_answer (h : Markers p) {text z : Text}
    (hgo : (p.inReasoning || contains p.thinkStartToken text) = true)
    (hz : removeAll p.thinkStartToken text = z) :
    SameStripped (p.detectAndParse text) (p.answer z) := by
  obtain ⟨w, w', hw, hw', hstrip⟩ := strip_eq z
  have hsame := h.answer_blank hw hw' (strip z)
  rw [← hstrip] at hsame
  unfold SameStripped at hsame ⊢
  rw [hsame.1, hsame.2]
  unfold detectAndParse answer
  rw [hgo, hz, h.toolIdx_eq, if_neg (show ¬(!true) = true by decide)]
  dsimp only
  cases find p.thinkEndToken (strip z) with
  | some i => exact ⟨rfl, strip_strip _⟩
  | none =>
      cases p.toolStartToken.bind fun tok => find tok (strip z) with
      | some i => exact ⟨strip_strip _, rfl⟩
      | none => exact ⟨rfl, rfl⟩

theorem detectAndParse_normal {text : Text} (hin : p.inReasoning = false)
    (hnone : find p.thinkStartToken text = none) :
    p.detectAndParse text = { normalText := text } := by
  unfold detectAndParse contains
  rw [hin, hnone]
  rfl

/-- The texts that are split the same way however they arrive: there is no opener, or there is one,
before any other marker, with at most white space before it where the reasoning does not begin by
itself. -/
inductive Regular (p : BaseReasoningParser) : Text → Prop
  | plain (text : Text) (hnone : find p.thinkStartToken text = none)
      (hb : p.inReasoning = true → Bounded p text) : Regular p text
  | opened (pre body : Text) (ho : Opened p pre body) (hb : Bounded p (pre ++ body))
      (hpre : p.inReasoning = false → Blank pre) :
      Regular p (pre ++ (p.thinkStartToken ++ body))

theorem Opened.contains {pre body : Text} (ho : Opened p pre body) :
    Text.contains p.thinkStartToken (pre ++ (p.thinkStartToken ++ body)) = true := by
  unfold Text.contains
  rw [ho.first]
  rfl

/-- A fresh parser streams a regular text to what it parses it to in one shot. -/
theorem Regular.stream (hm : Markers p) (hfresh : p = p.at' p.inReasoning [] false) {text : Text}
    (h : Regular p text) {chunks : List Text} (htext : chunks.flatten = text) :
    SameStripped (p.stream chunks) (p.detectAndParse text) := by
  cases h with
  | plain _ hnone hb =>
      subst htext
      cases hin : p.inReasoning with
      | false =>
          rw [hin] at hfresh
          have hstream := stream_normal (p := p) chunks [] false (.inr hnone)
          rw [← hfresh, List.nil_append] at hstream
          rw [hstream, detectAndParse_normal hin hnone]
          exact ⟨rfl, rfl⟩
      | true =>
          rw [hin] at hfresh
          have hanswered := stream_settled hm chunks (hb hin) (show Settled p false _ from .inr hnone)
          rw [← hfresh] at hanswered
          obtain ⟨hreason', hnormal'⟩ := detectAndParse_answer hm
            (Bool.or_eq_true_iff.2 (.inl hin)) (removeAll_of_none hnone)
          exact ⟨hanswered.reasoning.strip.symm.trans hreason'.symm,
            (congrArg strip hanswered.normal).trans hnormal'.symm⟩
  | opened pre body ho hb hpre =>
      obtain ⟨hreason', hnormal'⟩ := detectAndParse_answer hm
        (Bool.or_eq_true_iff.2 (.inr ho.contains)) (removeAll_once hm.opener ho.first ho.once)
      unfold SameStripped
      rw [hreason', hnormal']
      cases hin : p.inReasoning with
      | true =>
          rw [hin] at hfresh
          have hanswered := stream_opened_inside hm ho hb htext
          rw [← hfresh] at hanswered
          exact ⟨hanswered.reasoning.strip.symm, congrArg strip hanswered.normal⟩
      | false =>
          rw [hin] at hfresh
          have hblank := hpre hin
          have hbound : ∀ w, w <:+ pre → Bounded p (w ++ body) := by
            rintro w ⟨v, rfl⟩
            rw [List.append_assoc] at hb
            have hv : Blank v := fun c hc => hblank c (List.mem_append_left _ hc)
            exact hb.of_clear hm (hm.clear_blank hv)
          obtain ⟨w, w', result, rfl, hanswered, -, hstream⟩ :=
            stream_opened_outside hm ho.first hbound htext
          have hw : Blank w := fun c hc => hblank c (List.mem_append_left _ hc)
          have hw' : Blank w' := fun c hc => hblank c (List.mem_append_right _ hc)
          rw [← hfresh] at hstream
          have hreason := hanswered.reasoning.strip
          have hnormal := hanswered.normal
          rw [hm.answer_clear (hm.clear_blank hw')] at hreason hnormal
          rw [hm.answer_clear (hm.clear_blank hblank), hstream]
          simp only [before_true, before_false, ReasoningParseResult.append_reasoningText,
            ReasoningParseResult.append_normalText, List.nil_append] at hreason hnormal ⊢
          rw [strip_blank_append hblank, strip_blank_append hw, hnormal, ← hreason,
            strip_blank_append hw']
          exact ⟨rfl, rfl⟩

/-- Whatever its chunks, the text is streamed to the reasoning and the answer of the one-shot parse,
up to white space around them. -/
def ChunkInvariant (p : BaseReasoningParser) (text : Text) : Prop :=
  ∀ chunks, chunks.flatten = text → SameStripped (p.stream chunks) (p.detectAndParse text)

end BaseReasoningParser

open BaseReasoningParser

theorem thinkMarker_end : Marker thinkEndToken :=
  ⟨⟨_, _, rfl, by decide⟩, ⟨_, "</think".toList, rfl, by decide⟩⟩

theorem ThinkReasoningParser.markers (force stream : Bool) :
    Markers (ThinkReasoningParser force stream) where
  opener := show thinkStartToken ≠ [] by decide
  closer := thinkMarker_end
  tool := fun _ htok => by cases htok
  closer_opener := find_eq_none.1 (show find thinkEndToken thinkStartToken = none by decide)
  tool_opener := fun _ htok => by cases htok
  tool_closer := fun _ htok => by cases htok

theorem GemmaThoughtReasoningParser.markers (force stream : Bool) :
    Markers (GemmaThoughtReasoningParser force stream) where
  opener := show "<|channel>thought\n".toList ≠ [] by decide
  closer := ⟨⟨_, _, rfl, by decide⟩, ⟨_, "<channel|".toList, rfl, by decide⟩⟩
  tool := fun _ htok => by cases htok
  closer_opener := find_eq_none.1
    (show find "<channel|>".toList "<|channel>thought\n".toList = none by decide)
  tool_opener := fun _ htok => by cases htok
  tool_closer := fun _ htok => by cases htok

theorem DeepSeekV32ReasoningParser.markers (force stream : Bool) :
    Markers (DeepSeekV32ReasoningParser force stream) where
  opener := show thinkStartToken ≠ [] by decide
  closer := thinkMarker_end
  tool := fun tok htok => by
    cases htok
    exact ⟨⟨_, _, rfl, by decide⟩, ⟨_, "<｜DSML".toList, rfl, by decide⟩⟩
  closer_opener := find_eq_none.1 (show find thinkEndToken thinkStartToken = none by decide)
  tool_opener := fun tok htok => by
    cases htok
    exact find_eq_none.1 (show find ('<' :: dsmlToken) thinkStartToken = none by decide)
  tool_closer := fun tok htok => by
    cases htok
    exact find_eq_none.1 (show find ('<' :: dsmlToken) thinkEndToken = none by decide)

/-- The text `"\n<think>a</think>b"`. -/
theorem regular_openedBehindNewline (force : Bool) :
    Regular (DeepSeekV32ReasoningParser force true)
      ("\n".toList ++ (thinkStartToken ++ "a</think>b".toList)) := by
  have hblank : Blank "\n".toList := by decide
  have hclear : ∀ text, Clear (DeepSeekV32ReasoningParser force true) "\n".toList
      ("\n".toList ++ text) :=
    fun _ => (DeepSeekV32ReasoningParser.markers force true).clear_blank hblank
  refine .opened "\n".toList "a</think>b".toList ⟨?_, ?_, hclear _, hclear _⟩ ?_ fun _ => hblank
  · cases force <;> decide
  · cases force <;> decide
  · intro i j _ hj
    have hnone : (DeepSeekV32ReasoningParser force true).toolIdx
        ("\n".toList ++ "a</think>b".toList) = none := by
      cases force <;> decide
    rw [hnone] at hj
    cases hj

end FreeToken
