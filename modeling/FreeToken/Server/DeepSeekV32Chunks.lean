import FreeToken.Server.DeepSeekV32Stream

/-!
# When DSML streaming does not depend on the chunks

Two divisions of a text give the same content, names and arguments exactly when no closing token
stands in the text between blocks: such a token is taken out when it comes in one chunk, and stays
when it is cut.
-/

set_option autoImplicit false

namespace FreeToken

open Search Text Pattern Transducer

namespace DeepSeekV32Detector

/-- The whole stream of the detector. -/
def stream (cx : ToolContext) (chunks : List Text) : Py StreamOutcome :=
  streamTools (parseStreamingIncrement cx) buffer finishStreaming init chunks

theorem turn_takes {cx : ToolContext} {s s' : State} {b b' : Text} {o : List ToolEvent}
    (h : turn cx s b = some (s', b', o)) : Transducer.Takes b b' := (turn_steady h).2

theorem turn_shrinks (cx : ToolContext) : Shrinks (turn cx) fun _ => 0 := .of_takes turn_takes

/-- Every division of the text gives what the whole text gives. -/
def ChunkInvariant (cx : ToolContext) (text : Text) : Prop :=
  ∀ chunks : List Text, chunks.flatten = text → stream cx chunks = stream cx [text]

/-- What may be held back between blocks. -/
def holds : List Text :=
  (botToken.inits ++ altBotToken.inits).filter fun h => h ≠ botToken ∧ h ≠ altBotToken

theorem mem_holds (cx : ToolContext) {s : State} {b : Text} (hmode : s.mode = .idle)
    (h : turn cx s b = none) : b ∈ holds := by
  rw [turn_idle _ hmode] at h
  have hmark : ∀ m ∈ idleMarks s, ¬ m.tok <+: b := by
    intro m hm hpre
    rw [read_mark (idleMarks_apart s) hm hpre] at h
    simp only [idleMarks, List.mem_cons, List.not_mem_nil, or_false] at hm
    rcases hm with rfl | rfl <;> cases h
  have hpart : b <+: botToken ∨ b <+: altBotToken := by
    by_contra hnot
    rw [not_or] at hnot
    cases b with
    | nil => exact hnot.1 List.nil_prefix
    | cons c t =>
        rw [read_plain] at h
        · cases h
        · intro m hm hmeets
          have hnot' : ¬ m.tok <+: c :: t := hmark m hm
          simp only [idleMarks, List.mem_cons, List.not_mem_nil, or_false] at hm
          rcases hm with rfl | rfl
          · exact hmeets.elim hnot' hnot.1
          · exact hmeets.elim hnot' hnot.2
  unfold holds
  rw [List.mem_filter, List.mem_append, List.mem_inits, List.mem_inits]
  refine ⟨hpart, decide_eq_true ⟨?_, ?_⟩⟩
  · rintro rfl
    exact hmark _ List.mem_cons_self (List.prefix_refl _)
  · rintro rfl
    exact hmark _ (List.mem_cons_of_mem _ List.mem_cons_self) (List.prefix_refl _)

/-! ## Without stray closing tokens -/

theorem holds_finish : ∀ h ∈ holds, hasToolCall h = false ∧ removeClosers h = h ∧
    (strip h = [] → h = []) := by
  decide

/-- What is left between blocks is text; what is left in a block is none. -/
theorem finishStreaming_eq (cx : ToolContext) {d : DeepSeekV32Detector}
    (h : d.dsMode = .idle → turn cx d.state d.buffer = none) :
    d.finishStreaming = if d.dsMode = .idle then d.buffer else [] := by
  unfold finishStreaming
  by_cases hmode : d.dsMode = .idle
  · obtain ⟨hcall, hclean, hblank⟩ := holds_finish _ (mem_holds _ (s := d.state) hmode (h hmode))
    rw [if_neg (by simp [hmode, hcall]), if_pos hmode]
    dsimp only
    rw [hclean]
    split
    · rename_i hstrip
      rw [hblank hstrip.2]
    · rfl
  · rw [if_pos (.inl hmode), if_neg hmode]

/-- The outcome of a feed that follows the reader. -/
theorem stream_eq {cx : ToolContext} {chunks : List Text} {o : List ToolEvent} {s : State} {b : Text}
    (hfine : NoStrayCloser cx chunks.flatten)
    (hset : Settles (turn cx) init.state chunks.flatten o s b) :
    stream cx chunks = .ok (outcomeOf o (if s.mode = .idle then b else [])) := by
  have hnil : turn cx init.state [] = none := by
    rw [turn_idle _ rfl]
    exact read_wait (idleMarks_apart _) List.mem_cons_self List.nil_prefix (by decide)
  obtain ⟨d', rs, hfeed, hevents, hstate, -, hset', hexact⟩ :=
    ((follows cx).feed chunks rfl (.refl _ []) hfine (quiet_of_none hnil) hset).1 id
  have hfinish : d'.finishStreaming = if s.mode = .idle then b else [] := by
    have hmode : d'.dsMode = s.mode := by rw [hstate]; rfl
    rw [finishStreaming_eq cx, hmode]
    · split
      · rename_i hidle
        rw [hexact hidle]
      · rfl
    · intro hidle
      have hb := hexact (hmode.symm.trans hidle)
      rw [← hstate, ← hb]
      exact hset'.2
  unfold stream streamTools parseStreamingIncrement
  unfold parseStreamingIncrement at hfeed
  rw [hfeed]
  simp only [bind, Except.bind, pure, Except.pure, hevents, hfinish]

theorem chunkInvariant_of_noStray {cx : ToolContext} {text : Text} (h : NoStrayCloser cx text) :
    ChunkInvariant cx text := by
  rintro chunks rfl
  obtain ⟨o, s, b, hset⟩ := Settles.exists (turn_shrinks cx) init.state
    chunks.flatten
  rw [stream_eq h hset]
  have hone : [chunks.flatten].flatten = chunks.flatten := by simp
  rw [stream_eq (by rwa [hone]) (by rwa [hone])]

/-! ## The reader and the beginning of a text -/

theorem idleMarks_cuts (s : State) : ∀ m ∈ idleMarks s, m.Cuts := by
  intro m hm
  simp only [idleMarks, List.mem_cons, List.not_mem_nil, or_false] at hm
  rcases hm with rfl | rfl
  · exact Mark.pass_cuts _ _ _
  · exact Mark.pass_cuts _ _ _

theorem blockMarks_cuts (cx : ToolContext) (s : State) : ∀ m ∈ blockMarks cx s, m.Cuts := by
  intro m hm
  simp only [blockMarks, List.mem_cons, List.not_mem_nil, or_false] at hm
  rcases hm with rfl | rfl | rfl
  · exact Mark.tag_cuts invokeOpen_tight (fun _ => nameTag_length) _
  · exact Mark.pass_cuts _ _ _
  · exact Mark.pass_cuts _ _ _

theorem invokeMarks_cuts (s : State) : ∀ m ∈ invokeMarks s, m.Cuts := by
  intro m hm
  simp only [invokeMarks, List.mem_cons, List.not_mem_nil, or_false] at hm
  rcases hm with rfl | rfl
  · exact Mark.tag_cuts paramOpen_tight (fun _ => paramTag_length) _
  · exact Mark.pass_cuts _ _ _

theorem pstrMarks_cuts (s : State) : ∀ m ∈ pstrMarks s, m.Cuts := by
  intro m hm
  simp only [pstrMarks, List.mem_cons, List.not_mem_nil, or_false] at hm
  subst hm
  exact Mark.pass_cuts _ _ _

/-- Without the text it leaves, the reader does the same, or waits where it passed over the beginning
of what could have become a marker. -/
theorem turn_cut {cx : ToolContext} {s s' : State} {u u' z : Text} {o : List ToolEvent}
    (h : turn cx s (u ++ z) = some (s', u' ++ z, o)) :
    turn cx s u = some (s', u', o) ∨
      (turn cx s u = none ∧ s' = s ∧ ∃ d, u = d :: u' ∧ '<' ∉ u') := by
  have hvalue : (find paramEndToken (u ++ z)).map (fun stop =>
        ((closedValue cx s ((u ++ z).take stop)).1, (u ++ z).drop (stop + paramEndToken.length),
          (closedValue cx s ((u ++ z).take stop)).2)) = some (s', u' ++ z, o) →
      (find paramEndToken u).map (fun stop =>
        ((closedValue cx s (u.take stop)).1, u.drop (stop + paramEndToken.length),
          (closedValue cx s (u.take stop)).2)) = some (s', u', o) := by
    intro h
    obtain ⟨stop, hfind, heq⟩ := Option.map_eq_some_iff.1 h
    simp only [Prod.mk.injEq] at heq
    obtain ⟨rfl, hdrop, rfl⟩ := heq
    have hle := find_le hfind (by decide)
    have hlen := congrArg List.length hdrop
    rw [List.length_append] at hle
    rw [List.length_drop, List.length_append, List.length_append] at hlen
    have hstop : stop + paramEndToken.length ≤ u.length := by omega
    rw [find_of_append hfind hstop, Option.map_some, List.take_append_of_le_length (by omega)]
    rw [List.drop_append_of_le_length hstop, List.append_cancel_right_eq] at hdrop
    rw [hdrop]
  unfold turn at h ⊢
  cases hmode : s.mode <;> rw [hmode] at h
  case idle => exact read_cut (idleMarks_apart s) (idleMarks_cuts s) (idleMarks_start s) h
  case block =>
    exact read_cut (blockMarks_apart cx s) (blockMarks_cuts cx s) (blockMarks_start cx s) h
  case pstr => exact read_cut (pstrMarks_apart s) (pstrMarks_cuts s) (pstrMarks_start s) h
  case pbuf => exact .inl (hvalue h)
  case pskip => exact .inl (hvalue h)
  all_goals exact read_cut (invokeMarks_apart s) (invokeMarks_cuts s) (invokeMarks_start s) h

theorem StartsOnly.mem_of_prefix {c : Char} {tok t : Text} (h : StartsOnly c tok)
    (hpre : tok <+: t) : c ∈ t := by
  obtain ⟨body, rfl, -⟩ := h
  exact hpre.subset List.mem_cons_self

/-- A turn that leaves a state takes a marker. -/
theorem turn_leaves {cx : ToolContext} {s s' : State} {u u' z : Text} {o : List ToolEvent}
    (h : turn cx s (u ++ z) = some (s', u' ++ z, o)) (hne : s' ≠ s) : '<' ∈ u := by
  have hread : ∀ {marks : List DsMark} {emit : Char → List ToolEvent}, (∀ m ∈ marks, m.Cuts) →
      (∀ m ∈ marks, StartsOnly '<' m.tok) →
      read marks (fun c t => some (s, t, emit c)) (u ++ z) = some (s', u' ++ z, o) → '<' ∈ u := by
    intro marks emit hcuts hstart h
    rcases read_cases hcuts h with ⟨m, hm, hpre, -⟩ | ⟨d, -, hs, -⟩
    · exact StartsOnly.mem_of_prefix (hstart m hm) hpre
    · exact absurd hs hne
  have hcut := turn_cut h
  rcases hcut with hcut | ⟨-, hs, -⟩
  · unfold turn at h hcut
    cases hmode : s.mode <;> rw [hmode] at h hcut
    case idle => exact hread (idleMarks_cuts s) (idleMarks_start s) h
    case block => exact hread (blockMarks_cuts cx s) (blockMarks_start cx s) h
    case pstr => exact hread (pstrMarks_cuts s) (pstrMarks_start s) h
    case invoke => exact hread (invokeMarks_cuts s) (invokeMarks_start s) h
    case invokeSkip => exact hread (invokeMarks_cuts s) (invokeMarks_start s) h
    all_goals
      obtain ⟨stop, hfind, -⟩ := Option.map_eq_some_iff.1 hcut
      have hocc := (find_eq_some.1 hfind).1
      exact List.mem_of_mem_drop (hocc.subset List.mem_cons_self)
  · exact absurd hs hne

theorem turn_nil (cx : ToolContext) (s : State) : turn cx s [] = none := by
  cases h : turn cx s [] with
  | none => rfl
  | some p => exact absurd (turn_takes h).length_lt (Nat.not_lt_zero _)

/-- A run that changes the mode takes a marker. -/
theorem runs_leaves {cx : ToolContext} {s₀ s : State} {b₀ z : Text} {o : List ToolEvent}
    (h : Runs (turn cx) s₀ b₀ o s z) :
    ∀ {u}, b₀ = u ++ z → s.mode ≠ s₀.mode → '<' ∈ u := by
  induction h with
  | refl s b => exact fun _ hne => absurd rfl hne
  | step hturn hrest ih =>
      rename_i s₀ s₁ s b₀ b₁ z o₁ o
      intro u hu hne
      obtain ⟨u₁, rfl⟩ := hrest.suffix (turn_shrinks cx)
      obtain ⟨w, hw, rfl⟩ := turn_takes hturn
      rw [← List.append_assoc, List.append_cancel_right_eq] at hu
      subst hu
      by_cases hs : s₁ = s₀
      · subst hs
        exact List.mem_append_right w (ih rfl hne)
      · rw [← List.append_assoc] at hturn
        exact turn_leaves hturn hs

/-- Where the reader gets to between blocks, it gets to on the text so far. -/
theorem runs_cut {cx : ToolContext} {s₀ s : State} {b₀ z : Text} {o : List ToolEvent}
    (h : Runs (turn cx) s₀ b₀ o s z) :
    ∀ {u}, b₀ = u ++ z → s.mode = .idle →
      ∃ o' s' b', Settles (turn cx) s₀ u o' s' b' ∧ s'.mode = .idle := by
  induction h with
  | refl s b =>
      intro u hu hmode
      obtain rfl := List.append_cancel_right (hu.symm.trans (List.nil_append b).symm)
      exact ⟨[], s, [], ⟨.refl s [], turn_nil cx s⟩, hmode⟩
  | step hturn hrest ih =>
      rename_i s₀ s₁ s b₀ b₁ z o₁ o
      intro u hu hmode
      obtain ⟨u₁, rfl⟩ := hrest.suffix (turn_shrinks cx)
      subst hu
      rcases turn_cut hturn with hcut | ⟨hnone, rfl, d, rfl, hlt⟩
      · obtain ⟨o', s', b', ⟨hrun, hquiet⟩, hidle⟩ := ih rfl hmode
        exact ⟨_, s', b', ⟨.step hcut hrun, hquiet⟩, hidle⟩
      · refine ⟨[], s₁, _, ⟨.refl _ _, hnone⟩, ?_⟩
        by_contra hne
        exact hlt (runs_leaves hrest rfl (by rw [hmode]; exact Ne.symm hne))

/-! ## The first stray closing token -/

theorem closers_ne_nil {tok : Text} (h : tok ∈ closers) : tok ≠ [] := by
  simp only [closers, List.mem_cons, List.not_mem_nil, or_false] at h
  rcases h with rfl | rfl | rfl <;> decide

/-- A text with a stray closing token has a first one. -/
theorem exists_stray {cx : ToolContext} {text : Text} (h : ¬ NoStrayCloser cx text) :
    ∃ pre tok post, text = pre ++ (tok ++ post) ∧ tok ∈ closers ∧ NoStrayCloser cx pre ∧
      ∃ o s b, Settles (turn cx) init.state pre o s b ∧ s.mode = .idle := by
  classical
  let P : Nat → Prop := fun n => ∃ o s b tok, Runs (turn cx) init.state text o s b ∧
    s.mode = .idle ∧ tok ∈ closers ∧ tok <+: b ∧ n + b.length = text.length
  have hex : ∃ n, P n := by
    unfold NoStrayCloser at h
    push Not at h
    obtain ⟨o, s, b, hrun, hmode, tok, htok, hpre⟩ := h
    have hle := (hrun.suffix (turn_shrinks cx)).length_le
    exact ⟨text.length - b.length, o, s, b, tok, hrun, hmode, htok, hpre, by omega⟩
  obtain ⟨o, s, b, tok, hrun, hmode, htok, hpre, hlen⟩ := Nat.find_spec hex
  have hmin : ∀ m < Nat.find hex, ¬ P m := fun m hm => Nat.find_min hex hm
  obtain ⟨post, hpost⟩ := hpre
  obtain ⟨pre, htext⟩ := hrun.suffix (turn_shrinks cx)
  obtain ⟨o', s', b', hset, hidle⟩ := runs_cut hrun htext.symm hmode
  refine ⟨pre, tok, post, by rw [hpost, htext], htok, ?_, o', s', b', hset, hidle⟩
  intro o₁ s₁ b₁ hrun₁ hmode₁ tok₁ htok₁ hpre₁
  have hpos := List.length_pos_iff.2 (closers_ne_nil htok₁)
  have hle := hpre₁.length_le
  have hle₁ := (hrun₁.suffix (turn_shrinks cx)).length_le
  have htext' := congrArg List.length htext
  rw [List.length_append] at htext'
  refine hmin (Nat.find hex - b₁.length) (by omega) ⟨o₁, s₁, b₁ ++ b, tok₁, ?_, hmode₁, htok₁,
    hpre₁.trans (List.prefix_append _ _), ?_⟩
  · rw [← htext]
    exact hrun₁.append (turn_extends cx) b
  · rw [List.length_append]
    omega

/-- How the detector treats a closing token after what it holds, whole and cut. -/
theorem holds_closer : ∀ h ∈ holds, ∀ tok ∈ closers,
    firstExistingPos (h ++ tok) [botToken, altBotToken] = none ∧
    max (endsWithPartialToken (h ++ tok) botToken) (endsWithPartialToken (h ++ tok) altBotToken) = 0 ∧
    removeClosers (h ++ tok) = h ∧
    firstExistingPos (h ++ tok.take 2) [botToken, altBotToken] = none ∧
    max (endsWithPartialToken (h ++ tok.take 2) botToken)
      (endsWithPartialToken (h ++ tok.take 2) altBotToken) = 0 ∧
    removeClosers (h ++ tok.take 2) = h ++ tok.take 2 ∧
    firstExistingPos (tok.drop 2) [botToken, altBotToken] = none ∧
    max (endsWithPartialToken (tok.drop 2) botToken)
      (endsWithPartialToken (tok.drop 2) altBotToken) = 0 ∧
    removeClosers (tok.drop 2) = tok.drop 2 := by
  decide

/-- An increment of text without openers, between blocks. -/
theorem feed_plain (cx : ToolContext) {d : DeepSeekV32Detector} {x : Text} (hmode : d.dsMode = .idle)
    (hne : d.buffer ++ x ≠ []) (hpos : firstExistingPos (d.buffer ++ x) [botToken, altBotToken] = none)
    (hhold : max (endsWithPartialToken (d.buffer ++ x) botToken)
      (endsWithPartialToken (d.buffer ++ x) altBotToken) = 0) :
    feed (parseStreamingIncrement cx) StreamingParseResult.events (List.length ∘ buffer) d [x] =
      .ok ({ d with buffer := [] }, [{ normalText := removeClosers (d.buffer ++ x) }]) := by
  have hround : round cx (d.put x) false =
      (false, { d with buffer := [] }, { normalText := removeClosers (d.buffer ++ x) }) := by
    have hmode' : (d.put x).dsMode = .idle := hmode
    have hbuf : (d.put x).buffer = d.buffer ++ x := rfl
    unfold round
    rw [hbuf, if_neg hne, hmode']
    dsimp only
    unfold idleRound
    rw [hbuf, if_neg Bool.false_ne_true]
    dsimp only
    rw [hpos]
    dsimp only
    rw [hhold, Nat.sub_zero, List.take_length, if_neg hne, List.drop_length]
    rfl
  have hparse : parseStreamingIncrement cx d x =
      .ok ({ d with buffer := [] }, { normalText := removeClosers (d.buffer ++ x) }) := by
    unfold parseStreamingIncrement increment roundLoop
    simp only [List.isEmpty_nil, Bool.not_true, bind, Except.bind, hround]
    rfl
  have hagain : parseStreamingIncrement cx { d with buffer := [] } [] =
      .ok ({ d with buffer := [] }, {}) := rfl
  have hdrain : drain (parseStreamingIncrement cx) StreamingParseResult.events 1
      { d with buffer := [] } = .ok ({ d with buffer := [] }, []) := by
    unfold drain
    rw [hagain]
    rfl
  unfold feed Transducer.increment
  rw [hparse]
  simp only [bind, Except.bind, pure, Except.pure, Function.comp_apply, List.length_nil, Nat.zero_add,
    hdrain, feed, List.append_nil]

/-- A closing token between blocks is taken out when it is whole, and stays when it is cut. -/
theorem feed_closer (cx : ToolContext) {d : DeepSeekV32Detector} {tok : Text}
    (hmode : d.dsMode = .idle) (hbuf : d.buffer ∈ holds) (htok : tok ∈ closers) :
    feed (parseStreamingIncrement cx) StreamingParseResult.events (List.length ∘ buffer) d [tok] =
        .ok ({ d with buffer := [] }, [{ normalText := d.buffer }]) ∧
      feed (parseStreamingIncrement cx) StreamingParseResult.events (List.length ∘ buffer) d
        [tok.take 2, tok.drop 2] = .ok ({ d with buffer := [] },
          [{ normalText := d.buffer ++ tok.take 2 }, { normalText := tok.drop 2 }]) := by
  obtain ⟨hpos, hhold, hclean, hpos₁, hhold₁, hclean₁, hpos₂, hhold₂, hclean₂⟩ :=
    holds_closer _ hbuf _ htok
  have hcut : tok.take 2 ≠ [] ∧ tok.drop 2 ≠ [] := by
    simp only [closers, List.mem_cons, List.not_mem_nil, or_false] at htok
    rcases htok with rfl | rfl | rfl <;> decide
  constructor
  · rw [feed_plain _ hmode (by simp [closers_ne_nil htok]) hpos hhold, hclean]
  · have hfirst := feed_plain cx hmode (by simp [hcut.1]) hpos₁ hhold₁
    have hsecond := feed_plain cx (d := { d with buffer := [] }) (x := tok.drop 2) hmode
      (by simpa using hcut.2) hpos₂ hhold₂
    rw [show [tok.take 2, tok.drop 2] = [tok.take 2] ++ [tok.drop 2] from rfl, feed_append, hfirst]
    simp only [bind, Except.bind, hsecond, pure, Except.pure, List.nil_append, hclean₁, hclean₂,
      List.singleton_append]

theorem parse_ok (cx : ToolContext) (d : DeepSeekV32Detector) (x : Text) :
    ∃ p, parseStreamingIncrement cx d x = .ok p := roundLoop_ok (round cx) _ _ _

theorem not_chunkInvariant {cx : ToolContext} {text : Text} (h : ¬ NoStrayCloser cx text) :
    ¬ ChunkInvariant cx text := by
  obtain ⟨pre, tok, post, rfl, htok, hfine, o, s, b, hset, hidle⟩ := exists_stray h
  intro hinv
  -- what the detector is after the text before the token
  have hone : [pre].flatten = pre := by simp
  obtain ⟨d, rs, hfeed, -, hstate, -, hset', hexact⟩ := ((follows cx).feed [pre] rfl (.refl _ [])
    (by rwa [hone]) (quiet_of_none (turn_nil cx _)) (by rwa [hone])).1 id
  have hmode : d.dsMode = .idle := by
    have h := congrArg State.mode hstate
    exact h.symm.trans hidle
  have hbuf : d.buffer ∈ holds := by
    refine mem_holds cx (s := s) hidle ?_
    rw [← hexact hidle]
    exact hset'.2
  obtain ⟨hwhole, hcut⟩ := feed_closer cx hmode hbuf htok
  obtain ⟨⟨d', rs'⟩, hpost⟩ := feed_ok (parse_ok cx) StreamingParseResult.events
    (List.length ∘ buffer) [post] { d with buffer := [] }
  have h₁ : stream cx ([pre] ++ ([tok] ++ [post])) = stream cx [pre ++ (tok ++ post)] :=
    hinv _ (by simp)
  have h₂ : stream cx ([pre] ++ ([tok.take 2, tok.drop 2] ++ [post])) =
      stream cx [pre ++ (tok ++ post)] :=
    hinv _ (by simp [← List.append_assoc])
  rw [← h₂] at h₁
  unfold stream streamTools at h₁
  simp only [feed_append, hfeed, bind, Except.bind, hwhole, hcut, hpost, pure, Except.pure,
    Except.ok.injEq] at h₁
  have htext := congrArg (fun r => r.normalText.length) h₁
  have hpos := List.length_pos_iff.2 (closers_ne_nil htok)
  simp only [outcomeOf, List.flatMap_append, List.flatMap_cons, List.flatMap_nil,
    StreamingParseResult.events, List.append_nil, normalTextOf_append, normalTextOf_text,
    List.length_append, List.length_take, List.length_drop] at htext
  omega

theorem chunkInvariant_iff {cx : ToolContext} {text : Text} :
    ChunkInvariant cx text ↔ NoStrayCloser cx text :=
  ⟨fun h => by_contra fun hno => not_chunkInvariant hno h, chunkInvariant_of_noStray⟩

end DeepSeekV32Detector

end FreeToken
