import FreeToken.Server.ThinkParsers

/-!
# The MiniMax-M3 reasoning parser

The one-shot parse is positional: what stands before the opener is answer, what stands between the
opener and the closer is reasoning, and nothing is trimmed.  The stream is the think stream behind
a head buffer that takes off a closer the text begins with.
-/

set_option autoImplicit false

namespace FreeToken

open Search Text BaseReasoningParser

namespace Text

/-- Every character of the text is in exactly one of the two parts, in order. -/
inductive Interleaved : Text → Text → Text → Prop
  | nil : Interleaved [] [] []
  | left {l r text : Text} (c : Char) (h : Interleaved l r text) :
      Interleaved (c :: l) r (c :: text)
  | right {l r text : Text} (c : Char) (h : Interleaved l r text) :
      Interleaved l (c :: r) (c :: text)

theorem Interleaved.all_left (text : Text) : Interleaved text [] text := by
  induction text with
  | nil => exact .nil
  | cons c text ih => exact ih.left c

theorem Interleaved.all_right (text : Text) : Interleaved [] text text := by
  induction text with
  | nil => exact .nil
  | cons c text ih => exact ih.right c

theorem Interleaved.append {l r text l' r' text' : Text} (h : Interleaved l r text)
    (h' : Interleaved l' r' text') : Interleaved (l ++ l') (r ++ r') (text ++ text') := by
  induction h with
  | nil => exact h'
  | left c _ ih => exact ih.left c
  | right c _ ih => exact ih.right c

theorem Interleaved.left_right (x y : Text) : Interleaved x y (x ++ y) := by
  have h := (Interleaved.all_left x).append (.all_right y)
  rwa [List.append_nil, List.nil_append] at h

theorem Interleaved.length {l r text : Text} (h : Interleaved l r text) :
    l.length + r.length = text.length := by
  induction h with
  | nil => rfl
  | left c _ ih =>
      simp only [List.length_cons]
      omega
  | right c _ ih =>
      simp only [List.length_cons]
      omega

end Text

structure MiniMaxM3ReasoningParser where
  base : BaseReasoningParser
  leadingCloserPending : Bool
  headBuffer : Text
  deriving DecidableEq, Repr

namespace MiniMaxM3ReasoningParser

def thinkStart : Text := "<mm:think>".toList

def thinkEnd : Text := "</mm:think>".toList

def toolStart : Text := "]<]minimax[>[<tool_call>".toList

def init (forceReasoning streamReasoning : Bool) : MiniMaxM3ReasoningParser where
  base := .init thinkStart thinkEnd forceReasoning streamReasoning (some toolStart)
  leadingCloserPending := !forceReasoning
  headBuffer := []

/-- One-shot parse, positional and verbatim. -/
def detectAndParse (p : MiniMaxM3ReasoningParser) (text : Text) : ReasoningParseResult :=
  let stop := p.base.thinkEndToken
  if p.base.forceReasoning then
    match find stop text with
    | some i =>
        { reasoningText := text.take i, normalText := text.drop (i + stop.length) }
    | none =>
        match p.base.toolStartToken.bind fun tok => find tok text with
        | some t => { reasoningText := text.take t, normalText := text.drop t }
        | none => { reasoningText := text }
  else
    let head := lstrip text
    if stop <+: head then { normalText := head.drop stop.length }
    else
      match find p.base.thinkStartToken text with
      | none => { normalText := text }
      | some start =>
          let before := text.take start
          let body := text.drop (start + p.base.thinkStartToken.length)
          match find stop body with
          | some i =>
              { reasoningText := body.take i
                normalText := before ++ body.drop (i + stop.length) }
          | none =>
              match p.base.toolStartToken.bind fun tok => find tok body with
              | some t =>
                  { reasoningText := body.take t, normalText := before ++ body.drop t }
              | none => { reasoningText := body }

/-- Hand a chunk to the base parser. -/
def parseBase (p : MiniMaxM3ReasoningParser) (newText : Text) :
    MiniMaxM3ReasoningParser × ReasoningParseResult :=
  let (base, out) := p.base.parseStreamingIncrement newText
  ({ p with base := base }, out)

def parseStreamingIncrement (p : MiniMaxM3ReasoningParser) (newText : Text) :
    MiniMaxM3ReasoningParser × ReasoningParseResult :=
  if p.leadingCloserPending then
    let headBuffer := p.headBuffer ++ newText
    let head := lstrip headBuffer
    if p.base.thinkEndToken <+: head then
      let p := { p with
        base := { p.base with inReasoning := false }
        leadingCloserPending := false
        headBuffer := [] }
      let rest := head.drop p.base.thinkEndToken.length
      if rest = [] then (p, {}) else p.parseBase rest
    else if head = [] ∨ head <+: p.base.thinkEndToken then
      ({ p with headBuffer := headBuffer }, {})
    else ({ p with leadingCloserPending := false, headBuffer := [] } : MiniMaxM3ReasoningParser)
      |>.parseBase headBuffer
  else p.parseBase newText

def flush (p : MiniMaxM3ReasoningParser) : MiniMaxM3ReasoningParser × ReasoningParseResult :=
  if p.leadingCloserPending ∧ p.headBuffer ≠ [] then
    let (p, first) := ({ p with leadingCloserPending := false, headBuffer := [] } :
      MiniMaxM3ReasoningParser).parseBase p.headBuffer
    let (base, rest) := p.base.flush
    ({ p with base := base }, first.append rest)
  else
    let (base, rest) := p.base.flush
    ({ p with base := base }, rest)

/-- The parser and everything it returned over the chunks of a stream. -/
def feed (p : MiniMaxM3ReasoningParser) :
    List Text → MiniMaxM3ReasoningParser × ReasoningParseResult
  | [] => (p, {})
  | chunk :: chunks =>
      let (p, first) := p.parseStreamingIncrement chunk
      let (p, rest) := p.feed chunks
      (p, first.append rest)

/-- A whole stream: its chunks, then the flush. -/
def stream (p : MiniMaxM3ReasoningParser) (chunks : List Text) : ReasoningParseResult :=
  let (p, out) := p.feed chunks
  out.append p.flush.2

theorem stream_nil (p : MiniMaxM3ReasoningParser) : p.stream [] = p.flush.2 := rfl

theorem stream_cons (p : MiniMaxM3ReasoningParser) (chunk : Text) (chunks : List Text) :
    p.stream (chunk :: chunks) = (p.parseStreamingIncrement chunk).2.append
      ((p.parseStreamingIncrement chunk).1.stream chunks) :=
  ReasoningParseResult.append_assoc _ _ _

/-! ## The head of the stream -/

/-- Behind the head, the stream is the one of the base parser. -/
theorem stream_base (p : BaseReasoningParser) (chunks : List Text) :
    stream { base := p, leadingCloserPending := false, headBuffer := [] } chunks =
      p.stream chunks := by
  induction chunks generalizing p with
  | nil => rfl
  | cons chunk chunks ih =>
      rw [stream_cons, BaseReasoningParser.stream_cons, ← ih]
      rfl

/-- What is left of a text when the closer it begins with is taken off. -/
def dropLeading (stop text : Text) : Text :=
  if stop <+: lstrip text then (lstrip text).drop stop.length else text

theorem lstrip_append_of_ne_nil {x : Text} (h : lstrip x ≠ []) (y : Text) :
    lstrip (x ++ y) = lstrip x ++ y := by
  unfold lstrip at h ⊢
  rw [List.dropWhile_append, if_neg (by rwa [List.isEmpty_iff])]

/-- The parser behind its head. -/
def behind (p : BaseReasoningParser) : MiniMaxM3ReasoningParser :=
  { base := p, leadingCloserPending := false, headBuffer := [] }

/-- The parser that holds the head of its stream. -/
def holding (p : BaseReasoningParser) (head : Text) : MiniMaxM3ReasoningParser :=
  { base := p, leadingCloserPending := true, headBuffer := head }

section Head

variable (p : BaseReasoningParser) (head : Text) {chunk : Text}

theorem parse_leading (hin : p.inReasoning = false)
    (h : p.thinkEndToken <+: lstrip (head ++ chunk)) :
    (holding p head).parseStreamingIncrement chunk =
      if (lstrip (head ++ chunk)).drop p.thinkEndToken.length = [] then (behind p, {})
      else (behind p).parseBase ((lstrip (head ++ chunk)).drop p.thinkEndToken.length) := by
  have hbase : ({ p with inReasoning := false } : BaseReasoningParser) = p := by rw [← hin]
  unfold parseStreamingIncrement holding behind
  rw [if_pos rfl]
  dsimp only
  rw [if_pos h]
  simp only [hbase]

theorem parse_held (h : ¬ p.thinkEndToken <+: lstrip (head ++ chunk))
    (hheld : lstrip (head ++ chunk) = [] ∨ lstrip (head ++ chunk) <+: p.thinkEndToken) :
    (holding p head).parseStreamingIncrement chunk = (holding p (head ++ chunk), {}) := by
  unfold parseStreamingIncrement holding
  rw [if_pos rfl]
  dsimp only
  rw [if_neg h, if_pos hheld]

theorem parse_diverged (h : ¬ p.thinkEndToken <+: lstrip (head ++ chunk))
    (hheld : ¬(lstrip (head ++ chunk) = [] ∨ lstrip (head ++ chunk) <+: p.thinkEndToken)) :
    (holding p head).parseStreamingIncrement chunk = (behind p).parseBase (head ++ chunk) := by
  unfold parseStreamingIncrement holding
  rw [if_pos rfl]
  dsimp only
  rw [if_neg h, if_neg hheld]
  rfl

theorem dropLeading_held (h : ¬ p.thinkEndToken <+: lstrip head)
    (hheld : ¬(lstrip head = [] ∨ lstrip head <+: p.thinkEndToken)) (rest : Text) :
    dropLeading p.thinkEndToken (head ++ rest) = head ++ rest := by
  rw [not_or] at hheld
  unfold dropLeading
  rw [lstrip_append_of_ne_nil hheld.1]
  refine if_neg fun hpre => ?_
  rcases Nat.le_total p.thinkEndToken.length (lstrip head).length with hle | hle
  · exact h (List.prefix_of_prefix_length_le hpre (List.prefix_append _ _) hle)
  · exact hheld.2 (List.prefix_of_prefix_length_le (List.prefix_append _ _) hpre hle)

theorem dropLeading_append (hne : p.thinkEndToken ≠ []) (h : p.thinkEndToken <+: lstrip head)
    (rest : Text) : dropLeading p.thinkEndToken (head ++ rest) =
      (lstrip head).drop p.thinkEndToken.length ++ rest := by
  have hpos : lstrip head ≠ [] := fun hnil => by
    rw [hnil, List.prefix_nil] at h
    exact hne h
  unfold dropLeading
  rw [lstrip_append_of_ne_nil hpos, if_pos (h.trans (List.prefix_append _ _)),
    List.drop_append_of_le_length h.length_le]

end Head

/-- The stream from a held head is a stream of the base parser, over the text without its leading
closer. -/
theorem stream_holding (p : BaseReasoningParser) (hne : p.thinkEndToken ≠ [])
    (hin : p.inReasoning = false) : ∀ (chunks : List Text) (head : Text),
    ¬ p.thinkEndToken <+: lstrip head →
    ∃ chunks', chunks'.flatten = dropLeading p.thinkEndToken (head ++ chunks.flatten) ∧
      (holding p head).stream chunks = p.stream chunks' := by
  intro chunks
  induction chunks with
  | nil =>
      intro head hhead
      have hdrop : dropLeading p.thinkEndToken head = head := if_neg hhead
      rw [List.flatten_nil, List.append_nil, hdrop, stream_nil]
      by_cases hnil : head = []
      · refine ⟨[], hnil.symm, ?_⟩
        rw [hnil]
        rfl
      · refine ⟨[head], List.flatten_singleton, ?_⟩
        unfold flush
        rw [if_pos ⟨rfl, hnil⟩, BaseReasoningParser.stream_cons]
        rfl
  | cons chunk chunks ih =>
      intro head hhead
      rw [stream_cons, List.flatten_cons, ← List.append_assoc]
      by_cases hstop : p.thinkEndToken <+: lstrip (head ++ chunk)
      · rw [parse_leading p head hin hstop, dropLeading_append p _ hne hstop]
        by_cases hrest : (lstrip (head ++ chunk)).drop p.thinkEndToken.length = []
        · refine ⟨chunks, by rw [hrest, List.nil_append], ?_⟩
          rw [if_pos hrest, ← stream_base]
          rfl
        · refine ⟨(lstrip (head ++ chunk)).drop p.thinkEndToken.length :: chunks,
            List.flatten_cons, ?_⟩
          rw [if_neg hrest, BaseReasoningParser.stream_cons, ← stream_base]
          rfl
      · by_cases hheld : lstrip (head ++ chunk) = [] ∨ lstrip (head ++ chunk) <+: p.thinkEndToken
        · obtain ⟨chunks', hflat, hstream⟩ := ih (head ++ chunk) hstop
          refine ⟨chunks', hflat, ?_⟩
          rw [parse_held p head hstop hheld, ← hstream]
          rfl
        · rw [parse_diverged p head hstop hheld, dropLeading_held p _ hstop hheld]
          refine ⟨(head ++ chunk) :: chunks, List.flatten_cons, ?_⟩
          rw [BaseReasoningParser.stream_cons, ← stream_base]
          rfl

end MiniMaxM3ReasoningParser

end FreeToken
