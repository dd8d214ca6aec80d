import FreeToken.Server.Harmony

/-!
# Streaming a Harmony text

A scan of a part of a text with the partial markers held back is a prefix of the scan of the whole,
but for a tool block that the next segment's marker ends: its body is emitted with the beginning of
that marker.  So a stream gives the scan of its text exactly when the text has no such block.
-/

set_option autoImplicit false

namespace FreeToken

open Search Text

attribute [local instance] Text.lawfulBEq

namespace Harmony

variable {x y p text : Text} {s : Segment}

theorem boundary_free : PrefixFree harmonyBoundaryTokens := by decide

theorem startsOnly_of_mem {tok : Text} (h : tok ∈ harmonyAllTokens) : StartsOnly '<' tok := by
  have hall : ∀ tok ∈ harmonyAllTokens, tok.head? = some '<' ∧ '<' ∉ tok.tail := by decide
  obtain ⟨hhead, htail⟩ := hall tok h
  cases tok with
  | nil => cases hhead
  | cons c body =>
      cases hhead
      exact ⟨body, rfl, htail⟩

theorem mem_all_of_boundary {tok : Text} (h : tok ∈ harmonyBoundaryTokens) :
    tok ∈ harmonyAllTokens := List.mem_append_right _ h

theorem channel_ne_nil : harmonyChannel ≠ [] := by decide

theorem message_ne_nil : harmonyMessage ≠ [] := by decide

/-! ## Segments of a growing text -/

/-- The segment `s` opens in the text after `pre`. -/
structure Opens (text pre : Text) (s : Segment) : Prop where
  eq : text = pre ++ (s.opener ++ s.body)
  opener : s.opener = harmonyChannel ++ (s.header ++ harmonyMessage)
  first : find harmonyChannel text = some pre.length
  message : find harmonyMessage (s.header ++ (harmonyMessage ++ s.body)) = some s.header.length

theorem Opens.openSegment {pre : Text} (h : Opens text pre s) : openSegment text = some s := by
  have htext : text = pre ++ (harmonyChannel ++ (s.header ++ (harmonyMessage ++ s.body))) := by
    rw [h.eq, h.opener]
    simp only [List.append_assoc]
  have hchannel : text.drop pre.length =
      harmonyChannel ++ (s.header ++ harmonyMessage) ++ s.body := by
    rw [htext, List.drop_left]
    simp only [List.append_assoc]
  have hrest : text.drop (pre.length + harmonyChannel.length) =
      s.header ++ (harmonyMessage ++ s.body) := by
    rw [htext, ← List.drop_drop, List.drop_left, List.drop_left]
  unfold Harmony.openSegment
  rw [h.first]
  dsimp only
  rw [hrest, h.message]
  dsimp only
  have hopener : (text.drop pre.length).take
      (harmonyChannel.length + s.header.length + harmonyMessage.length) = s.opener := by
    rw [hchannel, h.opener]
    refine List.take_left' ?_
    simp only [List.length_append]
    omega
  have hbody : (s.header ++ (harmonyMessage ++ s.body)).drop
      (s.header.length + harmonyMessage.length) = s.body := by
    rw [← List.drop_drop, List.drop_left, List.drop_left]
  rw [hopener, hbody, List.take_left]

theorem opens_of_openSegment (h : openSegment text = some s) : ∃ pre, Opens text pre s := by
  unfold openSegment at h
  split at h
  · cases h
  · rename_i ch hch
    dsimp only at h
    split at h
    · cases h
    · rename_i msg hmsg
      have hlech := find_le hch channel_ne_nil
      have hlemsg := find_le hmsg message_ne_nil
      have heq := (find_eq_some.1 hch).1.eq
      have hrest := (find_eq_some.1 hmsg).1.eq
      generalize text.drop (ch + harmonyChannel.length) = rest at *
      cases h
      have hlen : (text.take ch).length = ch := by
        rw [List.length_take]
        omega
      have hheader : (rest.take msg).length = msg := by
        rw [List.length_take]
        omega
      have hopener : (text.drop ch).take
          (harmonyChannel.length + msg + harmonyMessage.length) =
          harmonyChannel ++ (rest.take msg ++ harmonyMessage) := by
        have hdrop : text.drop ch = harmonyChannel ++ (rest.take msg ++ harmonyMessage) ++
            rest.drop (msg + harmonyMessage.length) := by
          rw [heq, List.drop_left' hlen]
          simp only [List.append_assoc]
          rw [← hrest]
        rw [hdrop]
        refine List.take_left' ?_
        simp only [List.length_append, hheader]
        omega
      refine ⟨text.take ch, ?_, hopener, by rw [hch, hlen], ?_⟩
      · dsimp only
        rw [hopener]
        simp only [List.append_assoc]
        rw [← hrest]
        exact heq
      · dsimp only
        rw [← hrest, hmsg, hheader]

theorem Opens.append {pre : Text} (h : Opens x pre s) (y : Text) :
    Opens (x ++ y) pre { s with body := s.body ++ y } where
  eq := by
    rw [h.eq]
    simp only [List.append_assoc]
  opener := h.opener
  first := find_append h.first channel_ne_nil y
  message := by
    have := find_append h.message message_ne_nil y
    simpa only [List.append_assoc] using this

/-- A segment was open as soon as its header was complete. -/
theorem Opens.of_append {pre b : Text} (h : Opens text pre s) (hb : s.body = b ++ y) :
    Opens (pre ++ (s.opener ++ b)) pre { s with body := b } where
  eq := rfl
  opener := h.opener
  first := by
    have hfirst := h.first
    rw [h.eq, hb, ← List.append_assoc s.opener, ← List.append_assoc pre] at hfirst
    refine find_of_append hfirst ?_
    rw [h.opener]
    simp only [List.length_append]
    omega
  message := by
    have hmessage := h.message
    rw [hb, ← List.append_assoc harmonyMessage, ← List.append_assoc s.header] at hmessage
    refine find_of_append hmessage ?_
    simp only [List.length_append]
    omega

theorem Opens.length_lt {pre : Text} (h : Opens text pre s) : s.body.length < text.length := by
  have hpos := List.length_pos_iff.2 channel_ne_nil
  rw [h.eq, h.opener]
  simp only [List.length_append]
  omega

theorem segmentEnd_eq (body : Text) : segmentEnd body =
    match firstOf harmonyBoundaryTokens body with
    | none => (body.length, none)
    | some (pos, tok) => (pos, some tok) := rfl

/-! ## One round of a scan -/

theorem scanLoop_fuel (holdPartial : Bool) : ∀ (fuel fuel' : Nat) (text : Text),
    text.length < fuel → text.length < fuel' →
    scanLoop holdPartial fuel text = scanLoop holdPartial fuel' text := by
  intro fuel
  induction fuel with
  | zero => exact fun _ text h _ => absurd h (Nat.not_lt_zero _)
  | succ fuel ih =>
      intro fuel' text h h'
      obtain ⟨fuel', rfl⟩ : ∃ k, fuel' = k + 1 := ⟨fuel' - 1, by omega⟩
      rw [scanLoop, scanLoop]
      cases hs : openSegment text with
      | none => rfl
      | some s =>
          obtain ⟨pre, ho⟩ := opens_of_openSegment hs
          have hlt := ho.length_lt
          dsimp only
          split
          · rfl
          · rename_i stop _ _
            have hdrop : (s.body.drop stop).length ≤ s.body.length := by
              rw [List.length_drop]
              omega
            rw [ih fuel' (s.body.drop stop) (by omega) (by omega)]

theorem scan_none (holdPartial : Bool) (h : openSegment text = none) :
    scan text holdPartial = ([], []) := by
  rw [scan, scanLoop, h]

/-- The last segment of a text. -/
theorem scan_last (holdPartial : Bool) (h : openSegment text = some s)
    (hend : firstOf harmonyBoundaryTokens s.body = none) :
    scan text holdPartial = s.piece holdPartial := by
  rw [scan, scanLoop, h]
  dsimp only
  rw [segmentEnd_eq, hend]

theorem scan_more (holdPartial : Bool) (h : openSegment text = some s) {stop : Nat} {tok : Text}
    (hend : firstOf harmonyBoundaryTokens s.body = some (stop, tok)) :
    scan text holdPartial =
      ((s.piece holdPartial).1 ++ (scan (s.body.drop stop) holdPartial).1,
        (s.piece holdPartial).2 ++ (scan (s.body.drop stop) holdPartial).2) := by
  obtain ⟨pre, ho⟩ := opens_of_openSegment h
  have hlt := ho.length_lt
  have hdrop : (s.body.drop stop).length ≤ s.body.length := by
    rw [List.length_drop]
    omega
  have hfuel : scanLoop holdPartial text.length (s.body.drop stop) =
      scan (s.body.drop stop) holdPartial :=
    scanLoop_fuel holdPartial _ _ _ (by omega) (by omega)
  rw [scan, scanLoop, h]
  dsimp only
  rw [segmentEnd_eq, hend]
  dsimp only
  rw [hfuel]

/-! ## Tool blocks that the next marker ends -/

/-- A tool block that ends at a marker which opens the next segment. -/
def Segment.endsAbutting (s : Segment) : Bool :=
  s.isTool && match firstOf harmonyBoundaryTokens s.body with
    | some (_, tok) => decide (tok ∉ harmonyClosingTokens)
    | none => false

def abuttingLoop : Nat → Text → Bool
  | 0, _ => false
  | fuel + 1, text =>
      match openSegment text with
      | none => false
      | some s => s.endsAbutting || match firstOf harmonyBoundaryTokens s.body with
          | some (stop, _) => abuttingLoop fuel (s.body.drop stop)
          | none => false

/-- Some tool block of the text ends at an abutting `<|start|>` or `<|channel|>`. -/
def hasAbutting (text : Text) : Bool := abuttingLoop (text.length + 1) text

theorem abuttingLoop_fuel : ∀ (fuel fuel' : Nat) (text : Text), text.length < fuel →
    text.length < fuel' → abuttingLoop fuel text = abuttingLoop fuel' text := by
  intro fuel
  induction fuel with
  | zero => exact fun _ text h _ => absurd h (Nat.not_lt_zero _)
  | succ fuel ih =>
      intro fuel' text h h'
      obtain ⟨fuel', rfl⟩ : ∃ k, fuel' = k + 1 := ⟨fuel' - 1, by omega⟩
      rw [abuttingLoop, abuttingLoop]
      cases hs : openSegment text with
      | none => rfl
      | some s =>
          obtain ⟨pre, ho⟩ := opens_of_openSegment hs
          have hlt := ho.length_lt
          dsimp only
          split
          · rename_i stop _ _
            have hdrop : (s.body.drop stop).length ≤ s.body.length := by
              rw [List.length_drop]
              omega
            rw [ih fuel' (s.body.drop stop) (by omega) (by omega)]
          · rfl

theorem hasAbutting_none (h : openSegment text = none) : hasAbutting text = false := by
  rw [hasAbutting, abuttingLoop, h]

theorem hasAbutting_last (h : openSegment text = some s)
    (hend : firstOf harmonyBoundaryTokens s.body = none) : hasAbutting text = false := by
  rw [hasAbutting, abuttingLoop, h]
  dsimp only
  rw [Segment.endsAbutting, hend, Bool.and_false]
  rfl

theorem hasAbutting_more (h : openSegment text = some s) {stop : Nat} {tok : Text}
    (hend : firstOf harmonyBoundaryTokens s.body = some (stop, tok)) :
    hasAbutting text = (s.endsAbutting || hasAbutting (s.body.drop stop)) := by
  obtain ⟨pre, ho⟩ := opens_of_openSegment h
  have hlt := ho.length_lt
  have hdrop : (s.body.drop stop).length ≤ s.body.length := by
    rw [List.length_drop]
    omega
  rw [hasAbutting, abuttingLoop, h]
  dsimp only
  rw [hend]
  dsimp only
  have hfuel : abuttingLoop text.length (s.body.drop stop) = hasAbutting (s.body.drop stop) :=
    abuttingLoop_fuel _ _ _ (by omega) (by omega)
  rw [hfuel]

/-- The segments of a text, by induction on what is left of it. -/
theorem scan_induction {P : Text → Prop} (hnone : ∀ text, openSegment text = none → P text)
    (hlast : ∀ text s, openSegment text = some s →
      firstOf harmonyBoundaryTokens s.body = none → P text)
    (hmore : ∀ text s stop tok, openSegment text = some s →
      firstOf harmonyBoundaryTokens s.body = some (stop, tok) → P (s.body.drop stop) → P text)
    (text : Text) : P text := by
  induction hn : text.length using Nat.strong_induction_on generalizing text with
  | _ n ih =>
    subst hn
    cases hs : openSegment text with
    | none => exact hnone text hs
    | some s =>
        cases hend : firstOf harmonyBoundaryTokens s.body with
        | none => exact hlast text s hs hend
        | some x =>
            refine hmore text s x.1 x.2 hs hend (ih _ ?_ _ rfl)
            obtain ⟨pre, ho⟩ := opens_of_openSegment hs
            have hlt := ho.length_lt
            rw [List.length_drop]
            omega

section Growing

variable {stop : Nat} {tok : Text}

theorem openSegment_append (h : openSegment x = some s) (y : Text) :
    openSegment (x ++ y) = some { s with body := s.body ++ y } := by
  obtain ⟨pre, ho⟩ := opens_of_openSegment h
  exact (ho.append y).openSegment

theorem segment_end_append
    (h : firstOf harmonyBoundaryTokens x = some (stop, tok)) (y : Text) :
    firstOf harmonyBoundaryTokens (x ++ y) = some (stop, tok) :=
  firstOf_append boundary_free (fun _ ht => startsOnly_of_mem (mem_all_of_boundary ht)) h y

theorem segment_end_le (h : firstOf harmonyBoundaryTokens x = some (stop, tok)) :
    stop + tok.length ≤ x.length := by
  obtain ⟨hmem, hocc, -⟩ := (firstOf_eq_some boundary_free).1 h
  exact hocc.le (startsOnly_of_mem (mem_all_of_boundary hmem)).ne_nil

theorem Segment.endsAbutting_append (s : Segment) (y : Text)
    (h : firstOf harmonyBoundaryTokens s.body = some (stop, tok)) :
    Segment.endsAbutting { s with body := s.body ++ y } = s.endsAbutting := by
  unfold Segment.endsAbutting
  dsimp only
  rw [h, segment_end_append h y]
  rfl

theorem hasAbutting_append : ∀ (x y : Text), hasAbutting x = true → hasAbutting (x ++ y) = true := by
  intro x
  induction x using scan_induction with
  | hnone text hs =>
      intro y h
      rw [hasAbutting_none hs] at h
      cases h
  | hlast text s hs hend =>
      intro y h
      rw [hasAbutting_last hs hend] at h
      cases h
  | hmore text s stop tok hs hend ih =>
      intro y h
      rw [hasAbutting_more hs hend, Bool.or_eq_true] at h
      have hend' := segment_end_append hend y
      rw [hasAbutting_more (openSegment_append hs y) hend', Bool.or_eq_true,
        Segment.endsAbutting_append s y hend]
      refine h.imp_right fun hrest => ?_
      have hle := segment_end_le hend
      dsimp only
      rw [List.drop_append_of_le_length (by omega)]
      exact ih y hrest

/-- A terminated segment is not changed by what comes after it. -/
theorem Segment.piece_append (s : Segment) (y : Text)
    (h : firstOf harmonyBoundaryTokens s.body = some (stop, tok)) (holdPartial holdPartial' : Bool) :
    Segment.piece { s with body := s.body ++ y } holdPartial' = s.piece holdPartial := by
  have hle := segment_end_le h
  have htake : ∀ n, n ≤ stop + tok.length → (s.body ++ y).take n = s.body.take n := by
    intro n hn
    exact List.take_append_of_le_length (by omega)
  unfold Segment.piece
  dsimp only
  rw [segmentEnd_eq, segmentEnd_eq, h, segment_end_append h y]
  dsimp only
  rw [htake stop (by omega)]
  simp only [Option.isNone_some, Bool.false_and, Bool.false_eq_true, if_false]
  by_cases hclose : tok ∈ harmonyClosingTokens
  · simp only [if_pos hclose, htake _ le_rfl]
    rfl
  · simp only [if_neg hclose, htake stop (by omega)]
    rfl

/-- The partial markers held back of an open body are all a later boundary can take from it. -/
theorem open_body_prefix {body : Text} (h : firstOf harmonyBoundaryTokens body = none) (y : Text) :
    body.length - partialSuffix harmonyAllTokens body ≤ (segmentEnd (body ++ y)).1 := by
  rw [segmentEnd_eq]
  split
  · dsimp only
    rw [List.length_append]
    omega
  · rename_i stop tok hend
    by_contra hlt
    obtain ⟨hmem, hocc, -⟩ := (firstOf_eq_some boundary_free).1 hend
    have hlen : body.length < stop + tok.length := by
      by_contra hle
      rw [firstOf_of_append boundary_free hend (by omega)] at h
      cases h
    have hle : stop ≤ body.length := by
      dsimp only at hlt
      omega
    have hpre : tok.take (body.length - stop) <:+ body := by
      obtain ⟨z, hz⟩ := hocc
      rw [List.drop_append_of_le_length hle] at hz
      have htake := congrArg (List.take (body.length - stop)) hz
      rw [List.take_append_of_le_length (by omega),
        List.take_left' (by rw [List.length_drop])] at htake
      rw [htake]
      exact List.drop_suffix _ _
    have := partialSuffix_max (mem_all_of_boundary hmem) (by omega) hpre
    dsimp only at hlt
    omega

theorem open_body_emitted {body : Text} (h : firstOf harmonyBoundaryTokens body = none) (y : Text)
    (holdPartial : Bool) :
    body.take (body.length - partialSuffix harmonyAllTokens body) <+:
      if (segmentEnd (body ++ y)).2.isNone && holdPartial then
        ((body ++ y).take (segmentEnd (body ++ y)).1).take
          (((body ++ y).take (segmentEnd (body ++ y)).1).length -
            partialSuffix harmonyAllTokens ((body ++ y).take (segmentEnd (body ++ y)).1))
      else (body ++ y).take (segmentEnd (body ++ y)).1 := by
  have hbefore := open_body_prefix h y
  have hshort : body.take (body.length - partialSuffix harmonyAllTokens body) <+: body ++ y :=
    (List.take_prefix _ _).trans (List.prefix_append _ _)
  have hlen : (body.take (body.length - partialSuffix harmonyAllTokens body)).length ≤
      body.length - partialSuffix harmonyAllTokens body := List.length_take_le _ _
  have hall : ∀ n, body.length - partialSuffix harmonyAllTokens body ≤ n →
      body.take (body.length - partialSuffix harmonyAllTokens body) <+: (body ++ y).take n := by
    intro n hn
    refine List.prefix_of_prefix_length_le hshort (List.take_prefix _ _) ?_
    refine hlen.trans ?_
    rw [List.length_take, List.length_append]
    omega
  split
  · rename_i hheld
    rw [Bool.and_eq_true, Option.isNone_iff_eq_none] at hheld
    have hnone : firstOf harmonyBoundaryTokens (body ++ y) = none := by
      cases hend : firstOf harmonyBoundaryTokens (body ++ y) with
      | none => rfl
      | some next =>
          rw [segmentEnd_eq, hend] at hheld
          cases hheld.1
    have hgrow := partialSuffix_append harmonyAllTokens body y
    rw [segmentEnd_eq, hnone]
    dsimp only
    rw [List.take_length]
    refine hall _ ?_
    rw [List.length_append]
    omega
  · exact hall _ hbefore

/-- What an open segment has emitted is the beginning of what it will have emitted. -/
theorem Segment.piece_prefix (s : Segment) (y : Text)
    (hopen : firstOf harmonyBoundaryTokens s.body = none)
    (habut : Segment.endsAbutting { s with body := s.body ++ y } = false) (holdPartial : Bool) :
    (s.piece true).1 <+: (Segment.piece { s with body := s.body ++ y } holdPartial).1 ∧
      (s.piece true).2 <+: (Segment.piece { s with body := s.body ++ y } holdPartial).2 := by
  have hend : segmentEnd s.body = (s.body.length, none) := by
    rw [segmentEnd_eq, hopen]
  have htool : Segment.isTool { s with body := s.body ++ y } = s.isTool := rfl
  have hchannel : Segment.channel { s with body := s.body ++ y } = s.channel := rfl
  have hbefore := open_body_prefix hopen y
  unfold Segment.endsAbutting at habut
  unfold Segment.piece
  rw [hend, htool, hchannel]
  rw [htool] at habut
  dsimp only at habut ⊢
  by_cases htool' : s.isTool = true
  · rw [if_pos htool', if_pos htool']
    refine ⟨List.prefix_rfl, (List.prefix_append_right_inj _).2 ?_⟩
    rw [List.take_length, segmentEnd_eq]
    cases hnext : firstOf harmonyBoundaryTokens (s.body ++ y) with
    | none =>
        dsimp only
        rw [List.take_length]
        exact List.prefix_append _ _
    | some next =>
        rw [hnext, htool'] at habut
        have hclose : next.2 ∈ harmonyClosingTokens := by simpa using habut
        have hlen : s.body.length < next.1 + next.2.length := by
          by_contra hle
          rw [firstOf_of_append boundary_free hnext (by omega)] at hopen
          cases hopen
        dsimp only
        rw [if_pos hclose, List.take_append]
        rw [List.take_of_length_le hlen.le]
        exact List.prefix_append _ _
  · rw [if_neg htool', if_neg htool', List.take_length]
    have hbody := open_body_emitted hopen y holdPartial
    by_cases hanalysis : s.channel = "analysis".toList
    · rw [if_pos hanalysis, if_pos hanalysis]
      exact ⟨hbody, List.prefix_rfl⟩
    · rw [if_neg hanalysis, if_neg hanalysis]
      exact ⟨List.prefix_rfl, hbody⟩

end Growing

/-- The scan of a part with its partial markers held back is the beginning of a later scan. -/
theorem scan_mono (holdPartial : Bool) : ∀ (x y : Text), hasAbutting (x ++ y) = false →
    (scan x true).1 <+: (scan (x ++ y) holdPartial).1 ∧
      (scan x true).2 <+: (scan (x ++ y) holdPartial).2 := by
  intro x
  induction x using scan_induction with
  | hnone text hs =>
      intro y _
      rw [scan_none true hs]
      exact ⟨List.nil_prefix, List.nil_prefix⟩
  | hlast text s hs hopen =>
      intro y habut
      have hs' := openSegment_append hs y
      rw [scan_last true hs hopen]
      cases hend : firstOf harmonyBoundaryTokens (s.body ++ y) with
      | none =>
          rw [scan_last holdPartial hs' hend]
          refine s.piece_prefix y hopen ?_ holdPartial
          unfold Segment.endsAbutting
          dsimp only
          rw [hend, Bool.and_false]
      | some next =>
          rw [hasAbutting_more hs' hend, Bool.or_eq_false_iff] at habut
          obtain ⟨h1, h2⟩ := s.piece_prefix y hopen habut.1 holdPartial
          rw [scan_more holdPartial hs' hend]
          exact ⟨h1.trans (List.prefix_append _ _), h2.trans (List.prefix_append _ _)⟩
  | hmore text s stop tok hs hend ih =>
      intro y habut
      have hs' := openSegment_append hs y
      have hend' := segment_end_append hend y
      have hdrop : (s.body ++ y).drop stop = s.body.drop stop ++ y := by
        have := segment_end_le hend
        exact List.drop_append_of_le_length (by omega)
      rw [hasAbutting_more hs' hend', Bool.or_eq_false_iff] at habut
      rw [scan_more true hs hend, scan_more holdPartial hs' hend',
        s.piece_append y hend true holdPartial]
      dsimp only at habut ⊢
      rw [hdrop] at habut ⊢
      obtain ⟨h1, h2⟩ := ih y habut.2
      exact ⟨(List.prefix_append_right_inj _).2 h1, (List.prefix_append_right_inj _).2 h2⟩

/-! ## A delta that would have to be retracted -/

/-- A marker opens no segment by itself. -/
theorem scan_marker {tok : Text} (h : tok ∈ harmonyBoundaryTokens) : scan tok true = ([], []) := by
  have hall : ∀ tok ∈ harmonyBoundaryTokens, openSegment tok = none := by decide
  exact scan_none true (hall tok h)

theorem piece_tool_open (hopen : firstOf harmonyBoundaryTokens s.body = none)
    (h : s.isTool = true) (holdPartial : Bool) :
    (s.piece holdPartial).2 = s.opener ++ s.body := by
  unfold Segment.piece
  rw [segmentEnd_eq, hopen]
  dsimp only
  rw [if_pos h, List.take_length]

theorem piece_tool_abutting {stop : Nat} {tok : Text}
    (hend : firstOf harmonyBoundaryTokens s.body = some (stop, tok)) (h : s.isTool = true)
    (habut : tok ∉ harmonyClosingTokens) (holdPartial : Bool) :
    (s.piece holdPartial).2 = s.opener ++ s.body.take stop := by
  unfold Segment.piece
  rw [segmentEnd_eq, hend]
  dsimp only
  rw [if_pos h, if_neg habut]

/-- Before its last character arrives, the marker that ends a body is not seen. -/
theorem cut_open {a t z : Text} {c : Char}
    (hend : firstOf harmonyBoundaryTokens (a ++ (t ++ [c] ++ z)) = some (a.length, t ++ [c])) :
    firstOf harmonyBoundaryTokens (a ++ t) = none := by
  obtain ⟨hmem, hocc, hfirst⟩ := (firstOf_eq_some boundary_free).1 hend
  have hlen : (t ++ [c]).length = t.length + 1 := List.length_append
  refine firstOf_eq_none.2 fun tok htok => find_eq_none.2 fun i hi => ?_
  have hstart := startsOnly_of_mem (mem_all_of_boundary htok)
  have hle := hi.le hstart.ne_nil
  have hpos := List.length_pos_iff.2 hstart.ne_nil
  have hi' : OccursAt tok (a ++ (t ++ [c] ++ z)) i := by
    have := hi.append ([c] ++ z)
    simpa only [List.append_assoc] using this
  rw [List.length_append] at hle
  rcases Nat.lt_trichotomy i a.length with hlt | heq | hgt
  · exact hfirst tok htok i hlt hi'
  · rw [heq] at hi' hle
    have hpre := boundary_free tok htok _ hmem
      (List.prefix_of_prefix_length_le hi' hocc (by omega))
    rw [hpre] at hle
    omega
  · have := (startsOnly_of_mem (mem_all_of_boundary hmem)).le hstart hocc hi' hgt
    omega

/-- A block that was cut inside the marker that ends it was emitted with a part of the marker. -/
theorem cut_marker {pre tok : Text} {stop : Nat} (ho : Opens text pre s) (htool : s.isTool = true)
    (hend : firstOf harmonyBoundaryTokens s.body = some (stop, tok))
    (habut : tok ∉ harmonyClosingTokens) :
    ∃ p c rest, text = p ++ c :: rest ∧
      (scan (p ++ [c]) true).2.length < (scan p true).2.length := by
  obtain ⟨hmem, hocc, -⟩ := (firstOf_eq_some boundary_free).1 hend
  have hle := segment_end_le hend
  have hbody := hocc.eq
  have hstop : (s.body.take stop).length = stop := by
    rw [List.length_take]
    omega
  generalize s.body.take stop = a at *
  generalize s.body.drop (stop + tok.length) = z at *
  obtain ⟨t, c, rfl⟩ : ∃ t c, tok = t ++ [c] :=
    (List.eq_nil_or_concat' tok).resolve_left
      (startsOnly_of_mem (mem_all_of_boundary hmem)).ne_nil
  have htwo : t ≠ [] := by
    rintro rfl
    have hall : ∀ tok ∈ harmonyBoundaryTokens, 2 ≤ tok.length := by decide
    have := hall _ hmem
    simp at this
  rw [hbody, ← hstop] at hend
  have hcut := ho.of_append (b := a ++ t) (y := [c] ++ z) (by rw [hbody]; simp)
  have hdone := ho.of_append (b := a ++ (t ++ [c])) (y := z) (by rw [hbody]; simp)
  have hclosed : firstOf harmonyBoundaryTokens (a ++ (t ++ [c])) = some (a.length, t ++ [c]) := by
    refine firstOf_of_append boundary_free (y := z) (by simpa using hend) ?_
    simp only [List.length_append, le_refl]
  refine ⟨pre ++ (s.opener ++ (a ++ t)), c, z, ?_, ?_⟩
  · rw [ho.eq, hbody]
    simp
  · have hlong : pre ++ (s.opener ++ (a ++ t)) ++ [c] = pre ++ (s.opener ++ (a ++ (t ++ [c]))) := by
      simp
    have hcontent := piece_tool_open (s := { s with body := a ++ t }) (cut_open hend) htool true
    have hcontent' := piece_tool_abutting (s := { s with body := a ++ (t ++ [c]) }) hclosed htool
      habut true
    rw [hlong, scan_last true hcut.openSegment (cut_open hend),
      scan_more true hdone.openSegment hclosed, hcontent, hcontent']
    dsimp only
    rw [List.drop_left, scan_marker hmem, List.take_left]
    have := List.length_pos_iff.2 htwo
    simp only [List.length_append, List.length_nil]
    omega

/-- A part of a text whose scan has content holds the marker the text starts with. -/
theorem marker_le {tok : Text} (hmem : tok ∈ harmonyBoundaryTokens) (htok : tok <+: p ++ y)
    (h : openSegment p = some s) : tok.length ≤ p.length := by
  obtain ⟨pre, ho⟩ := opens_of_openSegment h
  have hocc := (find_eq_some.1 ho.first).1
  have hle := hocc.le channel_ne_nil
  have hocc' := hocc.append y
  rw [← occursAt_zero] at htok
  rcases Nat.eq_zero_or_pos pre.length with hz | hpos
  · have hchannel : harmonyChannel ∈ harmonyBoundaryTokens := by decide
    rw [hz] at hocc' hle
    rcases Nat.le_total tok.length harmonyChannel.length with hlen | hlen
    · omega
    · rw [boundary_free _ hchannel _ hmem (List.prefix_of_prefix_length_le hocc' htok hlen)] at hle
      omega
  · have := (startsOnly_of_mem (mem_all_of_boundary hmem)).le
      (startsOnly_of_mem (by decide : harmonyChannel ∈ harmonyAllTokens)) htok hocc' hpos
    omega

theorem exists_cut : ∀ text, hasAbutting text = true →
    ∃ p c rest, text = p ++ c :: rest ∧
      (scan (p ++ [c]) true).2.length < (scan p true).2.length := by
  intro text
  induction text using scan_induction with
  | hnone text hs =>
      intro h
      rw [hasAbutting_none hs] at h
      cases h
  | hlast text s hs hopen =>
      intro h
      rw [hasAbutting_last hs hopen] at h
      cases h
  | hmore text s stop tok hs hend ih =>
      intro h
      obtain ⟨pre, ho⟩ := opens_of_openSegment hs
      rw [hasAbutting_more hs hend, Bool.or_eq_true] at h
      rcases h with hhere | hlater
      · unfold Segment.endsAbutting at hhere
        rw [hend, Bool.and_eq_true, decide_eq_true_eq] at hhere
        exact cut_marker ho hhere.1 hend hhere.2
      · obtain ⟨p, c, rest, hrest, hshrink⟩ := ih hlater
        obtain ⟨hmem, hocc, -⟩ := (firstOf_eq_some boundary_free).1 hend
        have hopen : ∃ s', openSegment p = some s' := by
          rw [← Option.isSome_iff_exists, Option.isSome_iff_ne_none]
          intro hnone
          rw [scan_none true hnone] at hshrink
          exact absurd hshrink (Nat.not_lt_zero _)
        obtain ⟨s', hs'⟩ := hopen
        have htok : tok.length ≤ p.length := by
          unfold OccursAt at hocc
          rw [hrest] at hocc
          exact marker_le hmem hocc hs'
        have hle := segment_end_le hend
        have hstop : (s.body.take stop).length = stop := by
          rw [List.length_take]
          omega
        have hbody : s.body = s.body.take stop ++ p ++ c :: rest := by
          rw [List.append_assoc, ← hrest, List.take_append_drop]
        generalize s.body.take stop = a at *
        have hcut := ho.of_append hbody
        have hend' : firstOf harmonyBoundaryTokens (a ++ p) = some (stop, tok) := by
          rw [hbody] at hend
          refine firstOf_of_append boundary_free hend ?_
          rw [List.length_append]
          omega
        have hdrop : (a ++ p).drop stop = p := by rw [← hstop, List.drop_left]
        have hdrop' : (a ++ p ++ [c]).drop stop = p ++ [c] := by
          rw [← hstop, List.append_assoc, List.drop_left]
        refine ⟨pre ++ (s.opener ++ (a ++ p)), c, rest, ?_, ?_⟩
        · rw [ho.eq, hbody]
          simp
        · rw [scan_more true hcut.openSegment hend',
            scan_more true (openSegment_append hcut.openSegment [c]) (segment_end_append hend' [c]),
            Segment.piece_append _ [c] hend' true true]
          dsimp only
          rw [hdrop, hdrop', List.length_append, List.length_append]
          omega

end Harmony

namespace GptOssHarmonyReasoningParser

open Harmony

/-- The parser after the text `u`: it emitted the scan of `u` with its partial markers held. -/
structure Emitted (p : GptOssHarmonyReasoningParser) (u : Text) : Prop where
  buffer : p.buffer = u
  reasoning : p.emittedReasoning = (scan u true).1.length
  content : p.emittedContent = (scan u true).2.length

theorem emitted_init : Emitted init [] := ⟨rfl, rfl, rfl⟩

variable {p : GptOssHarmonyReasoningParser} {u text : Text}

theorem Emitted.parse (h : Emitted p u) (v : Text) :
    Emitted (p.parseStreamingIncrement v).1 (u ++ v) ∧
      (p.parseStreamingIncrement v).2.reasoningText =
        (scan (u ++ v) true).1.drop (scan u true).1.length ∧
      (p.parseStreamingIncrement v).2.normalText =
        (scan (u ++ v) true).2.drop (scan u true).2.length := by
  unfold parseStreamingIncrement emit
  rw [h.buffer, h.reasoning, h.content]
  exact ⟨⟨rfl, rfl, rfl⟩, rfl, rfl⟩

theorem feed_cons (p : GptOssHarmonyReasoningParser) (v : Text) (chunks : List Text) :
    p.feed (v :: chunks) =
      (((p.parseStreamingIncrement v).1.feed chunks).1,
        (p.parseStreamingIncrement v).2.append
          ((p.parseStreamingIncrement v).1.feed chunks).2) := rfl

/-- What the chunks of a text add is what their scan adds. -/
theorem Emitted.feed (chunks : List Text) : ∀ {p : GptOssHarmonyReasoningParser} {u : Text},
    Emitted p u → hasAbutting (u ++ chunks.flatten) = false →
    Emitted (p.feed chunks).1 (u ++ chunks.flatten) ∧
      (scan u true).1 ++ (p.feed chunks).2.reasoningText = (scan (u ++ chunks.flatten) true).1 ∧
      (scan u true).2 ++ (p.feed chunks).2.normalText = (scan (u ++ chunks.flatten) true).2 := by
  induction chunks with
  | nil =>
      intro p u h _
      rw [List.flatten_nil, List.append_nil]
      exact ⟨h, List.append_nil _, List.append_nil _⟩
  | cons v chunks ih =>
      intro p u h habut
      rw [List.flatten_cons, ← List.append_assoc] at habut ⊢
      obtain ⟨hnext, hreason, hcontent⟩ := h.parse v
      obtain ⟨hfin, h1, h2⟩ := ih hnext habut
      have hpart : hasAbutting (u ++ v) = false := by
        by_contra hyes
        rw [Bool.not_eq_false] at hyes
        rw [hasAbutting_append _ chunks.flatten hyes] at habut
        cases habut
      obtain ⟨hpre1, hpre2⟩ := scan_mono true u v hpart
      rw [feed_cons]
      refine ⟨hfin, ?_, ?_⟩
      · rw [← h1, ReasoningParseResult.append_reasoningText, hreason, ← List.append_assoc,
          List.prefix_iff_eq_append.1 hpre1]
      · rw [← h2, ReasoningParseResult.append_normalText, hcontent, ← List.append_assoc,
          List.prefix_iff_eq_append.1 hpre2]

theorem stream_eq (chunks : List Text) :
    stream chunks = (init.feed chunks).2.append (init.feed chunks).1.flush.2 := rfl

theorem Emitted.flush (h : Emitted p u) :
    p.flush.2 = { reasoningText := (scan u false).1.drop (scan u true).1.length,
                  normalText := (scan u false).2.drop (scan u true).2.length } := by
  unfold GptOssHarmonyReasoningParser.flush emit
  rw [h.buffer, h.reasoning, h.content]

theorem stream_eq_scan (chunks : List Text) (h : hasAbutting chunks.flatten = false) :
    stream chunks = { reasoningText := (scan chunks.flatten false).1,
                      normalText := (scan chunks.flatten false).2 } := by
  obtain ⟨hemit, h1, h2⟩ := emitted_init.feed chunks h
  rw [List.nil_append] at hemit h1 h2
  have hempty : scan [] true = ([], []) := scan_none true (by decide)
  rw [hempty, List.nil_append] at h1 h2
  obtain ⟨hpre1, hpre2⟩ := scan_mono false chunks.flatten [] (by rw [List.append_nil]; exact h)
  rw [List.append_nil] at hpre1 hpre2
  rw [stream_eq, hemit.flush, ReasoningParseResult.append, h1, h2,
    List.prefix_iff_eq_append.1 hpre1, List.prefix_iff_eq_append.1 hpre2]

/-- A stream that was cut inside the marker behind a tool block emits too much. -/
theorem stream_cut {q : Text} {c : Char} (rest : Text)
    (h : (scan (q ++ [c]) true).2.length < (scan q true).2.length) :
    (scan (q ++ c :: rest) false).2.length < (stream [q, [c], rest]).normalText.length := by
  obtain ⟨h1, -, n1⟩ := emitted_init.parse q
  rw [List.nil_append] at h1 n1
  obtain ⟨h2, -, n2⟩ := h1.parse [c]
  obtain ⟨h3, -, n3⟩ := h2.parse rest
  have hempty : scan [] true = ([], []) := scan_none true (by decide)
  have hall : q ++ [c] ++ rest = q ++ c :: rest := by simp
  rw [stream_eq, feed_cons, feed_cons, feed_cons]
  simp only [ReasoningParseResult.append_normalText, feed, List.append_nil, n1, n2, n3, h3.flush,
    hempty, List.length_append, List.length_drop, hall, List.length_nil, Nat.sub_zero]
  omega

/-- A stream gives the scan of its text for every division into chunks if and only if no tool block
of the text ends at the marker that opens the next segment; and then no delta is ever retracted. -/
theorem harmony_stream_eq_scan (text : Text) :
    ((∀ chunks : List Text, chunks.flatten = text →
        stream chunks = { reasoningText := (scan text false).1,
                          normalText := (scan text false).2 }) ↔
      hasAbutting text = false) ∧
    (hasAbutting text = false → ∀ q, q <+: text →
      (scan q true).1 <+: (scan text false).1 ∧ (scan q true).2 <+: (scan text false).2) := by
  refine ⟨⟨fun h => ?_, fun h chunks hchunks => ?_⟩, ?_⟩
  · by_contra hyes
    rw [Bool.not_eq_false] at hyes
    obtain ⟨q, c, rest, rfl, hshrink⟩ := exists_cut text hyes
    have heq := h [q, [c], rest] (by simp)
    have hlt := stream_cut rest hshrink
    rw [heq] at hlt
    exact absurd hlt (Nat.lt_irrefl _)
  · subst hchunks
    exact stream_eq_scan chunks h
  · rintro h q ⟨y, rfl⟩
    exact scan_mono false q y h

/-- A tool block that the final channel's marker ends, cut inside that marker. -/
def abuttingChunks : List Text :=
  ["<|channel|>commentary to=functions.f<|message|>{}<|ch".toList,
    "annel|>final<|message|>hello".toList]

theorem harmony_stream_ne_scan :
    ¬ ∀ chunks : List Text, stream chunks =
      { reasoningText := (scan chunks.flatten false).1,
        normalText := (scan chunks.flatten false).2 } := by
  intro h
  have hne : (stream abuttingChunks).normalText ≠ (scan abuttingChunks.flatten false).2 := by
    decide
  exact hne (congrArg ReasoningParseResult.normalText (h abuttingChunks))

end GptOssHarmonyReasoningParser

end FreeToken
