import FreeToken.Lib.Nesting
import FreeToken.Server.MiniMaxM3Args

/-!
# Nested arguments of a MiniMax-M3 call

The text of an argument tree, and what the scan for elements makes of it.  No tag begins inside
another one or inside a leaf, so that the searches of the scan go from tag to tag.
-/

set_option autoImplicit false

namespace FreeToken

namespace MiniMaxM3Detector

open Search Text Nesting

/-! ## Tags -/

/-- No quote, space, angle bracket or slash. -/
def TagName (name : Text) : Prop := ∀ c ∈ name, c ∉ tagBadChars

section Tags

variable {name body body' : Text}

theorem TagName.not_mem (h : TagName name) {c : Char} (hc : c ∈ tagBadChars) : c ∉ name :=
  fun hmem => h c hmem hc

theorem TagName.closing (h : TagName name) {c : Char} (hc : c ∈ tagBadChars) (hne : c ≠ '/') :
    c ∉ '/' :: name := by
  rw [List.mem_cons, not_or]
  exact ⟨hne, h.not_mem hc⟩

theorem ns_unbordered : Unbordered ns := by
  unfold Unbordered
  decide

/-- The marker's first two characters stand nowhere else before the text of a tag. -/
theorem ns_heads : ∀ i < 13, 0 < i →
    ¬ ((ns ++ ['<'])[i]? = some ']' ∧ (ns ++ ['<'])[i + 1]? = some '<') := by
  decide

theorem heads_of_occursAt {text : Text} {i : Nat} (h : OccursAt ns text i) :
    text[i]? = some ']' ∧ text[i + 1]? = some '<' := by
  obtain ⟨z, hz⟩ := h
  have hget (j : Nat) : text[i + j]? = (ns ++ z)[j]? := by
    rw [hz, List.getElem?_drop]
  exact ⟨hget 0, hget 1⟩

theorem tag_length (body : Text) : (tag body).length = body.length + 15 := by
  unfold tag
  rw [List.length_append, List.length_cons, List.length_append, List.length_singleton,
    show ns.length = 13 by decide]
  omega

/-- The marker stands only at the front of a tag. -/
theorem not_occursAt_tag (hbody : '<' ∉ body) (rest : Text) :
    ∀ i < (tag body).length, 0 < i → ¬ OccursAt ns (tag body ++ rest) i := by
  intro i hi hpos hocc
  obtain ⟨h0, h1⟩ := heads_of_occursAt hocc
  rw [tag_length] at hi
  have htag : tag body ++ rest = (ns ++ ['<']) ++ (body ++ '>' :: rest) := by
    unfold tag
    simp only [List.append_assoc, List.cons_append, List.nil_append]
  have hfront : (ns ++ ['<']).length = 14 := by decide
  rw [htag] at h0 h1
  by_cases hlt : i < 13
  · rw [List.getElem?_append_left (by omega)] at h0 h1
    exact ns_heads i hlt hpos ⟨h0, h1⟩
  · by_cases h13 : i = 13
    · rw [h13, List.getElem?_append_left (by omega)] at h0
      exact absurd h0 (by decide)
    · rw [List.getElem?_append_right (by omega), hfront] at h0 h1
      by_cases hin : i - 14 < body.length
      · rw [show body ++ '>' :: rest = (body ++ ['>']) ++ rest by simp,
          List.getElem?_append_left (by rw [List.length_append, List.length_singleton]; omega)] at h1
        have hmem := List.mem_of_getElem? h1
        rw [List.mem_append, List.mem_singleton] at hmem
        rcases hmem with hmem | hmem
        · exact hbody hmem
        · exact absurd hmem (by decide)
      · rw [List.getElem?_append_right (by omega), show i - 14 - body.length = 0 by omega,
          List.getElem?_cons_zero, Option.some.injEq] at h0
        exact absurd h0 (by decide)

/-- A text up to its first bracket is determined. -/
theorem eq_of_prefix_bracket {rest : Text} (hbody : '>' ∉ body) (hbody' : '>' ∉ body')
    (h : body ++ ['>'] <+: body' ++ '>' :: rest) : body = body' := by
  induction body generalizing body' with
  | nil =>
      cases body' with
      | nil => rfl
      | cons c body' =>
          rw [List.nil_append, List.cons_append, List.cons_prefix_cons] at h
          rw [← h.1] at hbody'
          exact absurd List.mem_cons_self hbody'
  | cons c body ih =>
      cases body' with
      | nil =>
          rw [List.nil_append, List.cons_append, List.cons_prefix_cons] at h
          rw [h.1] at hbody
          exact absurd List.mem_cons_self hbody
      | cons c' body' =>
          rw [List.cons_append, List.cons_append, List.cons_prefix_cons] at h
          rw [List.mem_cons, not_or] at hbody hbody'
          rw [h.1, ih hbody.2 hbody'.2 h.2]

theorem tag_prefix_iff {rest : Text} (hbody : '>' ∉ body) (hbody' : '>' ∉ body') :
    tag body <+: tag body' ++ rest ↔ body = body' := by
  constructor
  · intro h
    unfold tag at h
    rw [List.append_assoc, List.prefix_append_right_inj, List.cons_append, List.cons_prefix_cons,
      List.append_assoc, List.singleton_append] at h
    exact eq_of_prefix_bracket hbody hbody' h.2
  · rintro rfl
    exact List.prefix_append _ _

theorem occursAt_ns_of_tag {text : Text} {i : Nat} (h : OccursAt (tag body) text i) :
    OccursAt ns text i :=
  (List.prefix_append _ _).trans h

end Tags

/-! ## Texts of pieces -/

/-- What stands between the brackets of a tag. -/
def bodyOf : Piece Text Text → Option Text
  | .opening k => some k
  | .closing k => some ('/' :: k)
  | .leaf _ => none

def pieceText : Piece Text Text → Text
  | .opening k => openTag k
  | .closing k => closeTag k
  | .leaf s => s

def textOf (ps : List (Piece Text Text)) : Text := ps.flatMap pieceText

@[simp] theorem textOf_nil : textOf [] = [] := rfl

@[simp] theorem textOf_cons (p : Piece Text Text) (ps : List (Piece Text Text)) :
    textOf (p :: ps) = pieceText p ++ textOf ps := List.flatMap_cons

@[simp] theorem textOf_append (ps qs : List (Piece Text Text)) :
    textOf (ps ++ qs) = textOf ps ++ textOf qs := List.flatMap_append

/-- Tags have names, leaves hold no marker, and a tag stands between two leaves. -/
inductive Proper : List (Piece Text Text) → Prop
  | nil : Proper []
  | opening {k : Text} {ps : List (Piece Text Text)} (hk : TagName k) (h : Proper ps) :
      Proper (.opening k :: ps)
  | closing {k : Text} {ps : List (Piece Text Text)} (hk : TagName k) (h : Proper ps) :
      Proper (.closing k :: ps)
  | leaf {s : Text} {ps : List (Piece Text Text)} (hs : find ns s = none)
      (hps : ∀ a, ps.head? ≠ some (.leaf a)) (h : Proper ps) : Proper (.leaf s :: ps)

section Pieces

variable {p : Piece Text Text} {ps : List (Piece Text Text)} {body : Text}

theorem Proper.tail (h : Proper (p :: ps)) : Proper ps := by
  cases h with
  | opening _ h => exact h
  | closing _ h => exact h
  | leaf _ _ h => exact h

theorem pieceText_of_bodyOf (h : bodyOf p = some body) : pieceText p = tag body := by
  cases p with
  | opening k => rw [← Option.some.inj h]; rfl
  | closing k => rw [← Option.some.inj h]; rfl
  | leaf s => cases h

theorem Proper.bodyOf_not_mem (h : Proper (p :: ps)) (hbody : bodyOf p = some body) {c : Char}
    (hc : c ∈ tagBadChars) (hne : c ≠ '/') : c ∉ body := by
  cases h with
  | opening hk _ => rw [← Option.some.inj hbody]; exact hk.not_mem hc
  | closing hk _ => rw [← Option.some.inj hbody]; exact hk.closing hc hne
  | leaf _ _ _ => cases hbody

theorem pieceText_pos (h : bodyOf p = some body) : 0 < (pieceText p).length := by
  rw [pieceText_of_bodyOf h, tag_length]
  omega

/-- The text of a piece that is no leaf begins with the marker. -/
theorem textOf_cons_tag (h : bodyOf p = some body) (ps : List (Piece Text Text)) :
    ∃ rest, textOf (p :: ps) = ns ++ rest := by
  rw [textOf_cons, pieceText_of_bodyOf h]
  unfold tag
  rw [List.append_assoc]
  exact ⟨_, rfl⟩

/-- The marker stands at the front of every tag and nowhere else. -/
theorem Proper.occursAt_ns (h : Proper (p :: ps)) {i : Nat} (hi : i < (pieceText p).length)
    (hocc : OccursAt ns (textOf (p :: ps)) i) : i = 0 ∧ bodyOf p ≠ none := by
  cases hbody : bodyOf p with
  | some body =>
      by_contra hne
      rw [textOf_cons, pieceText_of_bodyOf hbody] at hocc
      rw [pieceText_of_bodyOf hbody] at hi
      apply not_occursAt_tag (h.bodyOf_not_mem hbody (by decide) (by decide)) _ i hi _ hocc
      apply Nat.pos_of_ne_zero
      intro hzero
      exact hne ⟨hzero, Option.some_ne_none _⟩
  | none =>
      exfalso
      cases h with
      | opening _ _ => cases hbody
      | closing _ _ => cases hbody
      | @leaf s _ hs hps _ =>
          rw [textOf_cons] at hocc
          cases ps with
          | nil =>
              rw [textOf_nil, List.append_nil] at hocc
              exact find_eq_none.1 hs i hocc
          | cons q qs =>
              cases hq : bodyOf q with
              | none =>
                  cases q with
                  | leaf a => exact hps a rfl
                  | opening _ => cases hq
                  | closing _ => cases hq
              | some body =>
                  obtain ⟨rest, hrest⟩ := textOf_cons_tag hq qs
                  rw [hrest] at hocc
                  exact ns_unbordered.not_occursAt hs rest i hi hocc

/-- A tag that the pieces begin with is found there. -/
theorem find_tag_of_eq (h : bodyOf p = some body) : find (tag body) (textOf (p :: ps)) = some 0 := by
  rw [find_eq_some, occursAt_zero, textOf_cons, pieceText_of_bodyOf h]
  exact ⟨List.prefix_append _ _, fun j hj => absurd hj (Nat.not_lt_zero j)⟩

/-- A search for a tag goes over another piece. -/
theorem Proper.find_tag_of_ne (h : Proper (p :: ps)) (hbody : '>' ∉ body)
    (hne : bodyOf p ≠ some body) : find (tag body) (textOf (p :: ps)) =
      (find (tag body) (textOf ps)).map ((pieceText p).length + ·) := by
  rw [textOf_cons]
  apply Skips.find
  intro i hi hocc
  rw [← textOf_cons] at hocc
  obtain ⟨hzero, htag⟩ := h.occursAt_ns hi (occursAt_ns_of_tag hocc)
  obtain ⟨body', hbody'⟩ := Option.ne_none_iff_exists'.1 htag
  rw [hzero, occursAt_zero, textOf_cons, pieceText_of_bodyOf hbody',
    tag_prefix_iff hbody (h.bodyOf_not_mem hbody' (by decide) (by decide))] at hocc
  rw [hocc] at hne
  exact hne hbody'

/-- A search for a tag of any name stops at a tag. -/
theorem find_open_of_tag (h : bodyOf p ≠ none) : find (ns ++ ['<']) (textOf (p :: ps)) = some 0 := by
  obtain ⟨body, hbody⟩ := Option.ne_none_iff_exists'.1 h
  rw [find_eq_some, occursAt_zero, textOf_cons, pieceText_of_bodyOf hbody]
  refine ⟨?_, fun j hj => absurd hj (Nat.not_lt_zero j)⟩
  unfold tag
  rw [List.append_assoc, List.prefix_append_right_inj, List.cons_append, List.cons_prefix_cons]
  exact ⟨rfl, List.nil_prefix⟩

end Pieces

/-! ## The tags of one name -/

/-- The rest of the text from a position, in pieces. -/
def At (text : Text) (pos : Nat) (ps : List (Piece Text Text)) : Prop :=
  text.drop pos = textOf ps

section Scan

variable {text name body : Text} {pos : Nat} {p : Piece Text Text}
  {ps inner : List (Piece Text Text)}

theorem At.next (h : At text pos (p :: ps)) : At text (pos + (pieceText p).length) ps := by
  unfold At at *
  rw [← List.drop_drop, h, textOf_cons, List.drop_left]

theorem At.span (h : At text pos (ps ++ inner)) :
    span text pos (pos + (textOf ps).length) = textOf ps := by
  unfold At at h
  unfold MiniMaxM3Detector.span
  rw [h, textOf_append, Nat.add_sub_cancel_left, List.take_left]

theorem findFrom_of_eq (h : At text pos (p :: ps)) (hp : bodyOf p = some body) :
    findFrom (tag body) text pos = some pos := by
  unfold findFrom
  rw [h, find_tag_of_eq hp]
  rfl

theorem findFrom_of_ne (h : At text pos (p :: ps)) (hps : Proper (p :: ps)) (hbody : '>' ∉ body)
    (hp : bodyOf p ≠ some body) :
    findFrom (tag body) text pos = findFrom (tag body) text (pos + (pieceText p).length) := by
  unfold findFrom
  rw [h, hps.find_tag_of_ne hbody hp, h.next, Option.map_map]
  congr 1
  funext j
  exact (Nat.add_assoc _ _ _).symm

/-- What is found stands at the position or behind it. -/
theorem le_of_findFrom {tok : Text} {i : Nat} (h : findFrom tok text pos = some i) : pos ≤ i := by
  obtain ⟨j, -, rfl⟩ := Option.map_eq_some_iff.1 h
  exact Nat.le_add_right _ _

theorem findFrom_closing (hname : TagName name) (h : At text pos ps) (hps : Proper ps)
    (hmem : .closing name ∈ ps) : ∃ i, findFrom (closeTag name) text pos = some i := by
  induction ps generalizing pos with
  | nil => cases hmem
  | cons p ps ih =>
      by_cases hp : bodyOf p = some ('/' :: name)
      · exact ⟨pos, findFrom_of_eq h hp⟩
      · unfold closeTag
        rw [findFrom_of_ne h hps (hname.closing (by decide) (by decide)) hp]
        apply ih h.next hps.tail
        rcases List.mem_cons.1 hmem with rfl | hmem
        · exact absurd rfl hp
        · exact hmem

/-- A step of the loop is determined by what the two searches find. -/
theorem matchClose_congr {pos' fuel depth : Nat}
    (hclose : findFrom (closeTag name) text pos = findFrom (closeTag name) text pos')
    (hopen : findFrom (openTag name) text pos = findFrom (openTag name) text pos') :
    matchClose text name fuel depth pos = matchClose text name fuel depth pos' := by
  cases fuel with
  | zero => rfl
  | succ fuel => rw [matchClose, matchClose, hclose, hopen]

/-- A piece that is no tag of the name is stepped over. -/
theorem matchClose_skip {fuel depth : Nat} (hname : TagName name) (h : At text pos (p :: ps))
    (hps : Proper (p :: ps)) (hopen : p ≠ .opening name) (hclose : p ≠ .closing name) :
    matchClose text name fuel depth pos =
      matchClose text name fuel depth (pos + (pieceText p).length) := by
  apply matchClose_congr
  · apply findFrom_of_ne h hps (hname.closing (by decide) (by decide))
    intro hbody
    cases hps with
    | @opening k _ hk _ =>
        rw [bodyOf, Option.some.injEq] at hbody
        exact hk.not_mem (show '/' ∈ tagBadChars by decide) (hbody ▸ List.mem_cons_self)
    | @closing k _ _ _ =>
        rw [bodyOf, Option.some.injEq, List.cons.injEq] at hbody
        exact hclose (congrArg Piece.closing hbody.2)
    | leaf _ _ _ => cases hbody
  · apply findFrom_of_ne h hps (hname.not_mem (by decide))
    intro hbody
    cases hps with
    | @opening k _ _ _ =>
        rw [bodyOf, Option.some.injEq] at hbody
        exact hopen (congrArg Piece.opening hbody)
    | @closing k _ _ _ =>
        rw [bodyOf, Option.some.injEq] at hbody
        exact hname.not_mem (show '/' ∈ tagBadChars by decide) (hbody ▸ List.mem_cons_self)
    | leaf _ _ _ => cases hbody

theorem matchClose_opening {fuel depth : Nat} (hname : TagName name)
    (h : At text pos (.opening name :: ps)) (hps : Proper (.opening name :: ps))
    (hmem : .closing name ∈ ps) :
    matchClose text name (fuel + 1) depth pos =
      matchClose text name fuel (depth + 1) (pos + (openTag name).length) := by
  have hne : bodyOf (.opening name) ≠ some ('/' :: name) := by
    intro hbody
    rw [bodyOf, Option.some.injEq] at hbody
    have := congrArg List.length hbody
    rw [List.length_cons] at this
    omega
  obtain ⟨cpos, hcpos⟩ := findFrom_closing hname h.next hps.tail hmem
  have hclose : findFrom (closeTag name) text pos = some cpos := by
    rw [← hcpos]
    exact findFrom_of_ne h hps (hname.closing (by decide) (by decide)) hne
  have hopen : findFrom (openTag name) text pos = some pos := findFrom_of_eq h rfl
  have hlt : pos < cpos := by
    have hle := le_of_findFrom hcpos
    have hpos := pieceText_pos (p := .opening name) rfl
    omega
  rw [matchClose, hclose, hopen]
  dsimp only [foundBefore]
  rw [if_pos hlt]

theorem matchClose_closing {fuel depth : Nat}
    (h : At text pos (.closing name :: ps)) :
    matchClose text name (fuel + 1) depth pos =
      if depth - 1 = 0 then some (pos, pos + (closeTag name).length)
      else matchClose text name fuel (depth - 1) (pos + (closeTag name).length) := by
  have hclose : findFrom (closeTag name) text pos = some pos := findFrom_of_eq h rfl
  have hbefore : foundBefore (findFrom (openTag name) text pos) (some pos) = none := by
    rw [foundBefore_eq_none]
    intro i hi
    exact ⟨pos, rfl, le_of_findFrom hi⟩
  rw [matchClose, hclose]
  dsimp only
  rw [hbefore]

/-- The loop ends at the tag that brings the counter to zero. -/
theorem matchClose_inside {fuel depth : Nat} (hname : TagName name) (h : At text pos ps)
    (hps : Proper ps) (hin : inside name depth ps = some inner)
    (hfuel : (textOf ps).length ≤ fuel) :
    matchClose text name fuel (depth + 1) pos = some (pos + (textOf inner).length,
      pos + (textOf inner).length + (closeTag name).length) := by
  induction ps generalizing pos fuel depth inner with
  | nil => cases hin
  | cons p ps ih =>
      rw [textOf_cons, List.length_append] at hfuel
      have hstep {fuel' depth' : Nat} {inner' : List (Piece Text Text)}
          (hfuel' : (textOf ps).length ≤ fuel') (hin' : inside name depth' ps = some inner') :
          matchClose text name fuel' (depth' + 1) (pos + (pieceText p).length) =
            some (pos + (textOf (p :: inner')).length,
              pos + (textOf (p :: inner')).length + (closeTag name).length) := by
        rw [ih h.next hps.tail hin' hfuel', textOf_cons, List.length_append, Nat.add_assoc pos]
      cases p with
      | leaf a =>
          obtain ⟨inner', hin', rfl⟩ := Option.map_eq_some_iff.1 hin
          rw [matchClose_skip hname h hps (by simp) (by simp)]
          exact hstep (by omega) hin'
      | opening j =>
          obtain ⟨inner', hin', rfl⟩ := Option.map_eq_some_iff.1 hin
          by_cases hj : j = name
          · rw [if_pos hj] at hin'
            rw [hj] at h hps hstep hfuel ⊢
            have hpos := pieceText_pos (p := .opening name) rfl
            obtain ⟨fuel, rfl⟩ : ∃ n, fuel = n + 1 := ⟨fuel - 1, by omega⟩
            rw [matchClose_opening hname h hps (closing_mem_of_inside hin')]
            exact hstep (by omega) hin'
          · rw [if_neg hj] at hin'
            rw [matchClose_skip hname h hps (by simpa using hj) (by simp)]
            exact hstep (by omega) hin'
      | closing j =>
          by_cases hj : j = name
          · rw [hj] at h hps hin hstep hfuel
            have hpos := pieceText_pos (p := .closing name) rfl
            obtain ⟨fuel, rfl⟩ : ∃ n, fuel = n + 1 := ⟨fuel - 1, by omega⟩
            rw [matchClose_closing h]
            cases depth with
            | zero =>
                rw [inside, if_pos rfl, Option.some.injEq] at hin
                rw [← hin]
                rfl
            | succ depth =>
                rw [inside, if_pos rfl] at hin
                obtain ⟨inner', hin', rfl⟩ := Option.map_eq_some_iff.1 hin
                exact hstep (by omega) hin'
          · have hin' : ∃ inner', inside name depth ps = some inner' ∧
                .closing j :: inner' = inner := by
              apply Option.map_eq_some_iff.1
              cases depth with
              | zero => rwa [inside, if_neg hj] at hin
              | succ depth => rwa [inside, if_neg hj] at hin
            obtain ⟨inner', hin', rfl⟩ := hin'
            rw [matchClose_skip hname h hps (by simp) (by simpa using hj)]
            exact hstep (by omega) hin'

/-- A text without a marker holds no elements. -/
theorem scanElements_leaf (h : find ns text = none) : scanElements text = ([], text) := by
  have hnone : find (ns ++ ['<']) text = none :=
    find_none_of_infix h (List.prefix_append _ _).isInfix
  unfold scanElements
  cases htext : text.length with
  | zero =>
      rw [List.length_eq_zero_iff.1 htext]
      rfl
  | succ n =>
      rw [scanFrom, if_neg (by omega), findFrom, List.drop_zero, hnone]
      rfl

/-- The head of an element, as the scan reads it. -/
theorem scanFrom_head {es : List (Piece Text Text)} (hname : TagName name)
    (h : At text pos (.opening name :: es)) :
    findFrom (ns ++ ['<']) text pos = some pos ∧ ¬ ns ++ ['<', '/'] <+: text.drop pos ∧
      findFrom ['>'] text (pos + ns.length + 1) = some (pos + ns.length + 1 + name.length) ∧
      span text (pos + ns.length + 1) (pos + ns.length + 1 + name.length) = name := by
  have hdrop : text.drop (pos + ns.length + 1) = name ++ '>' :: textOf es := by
    have hat := h
    unfold At at hat
    rw [textOf_cons, pieceText, openTag, tag, List.append_assoc] at hat
    rw [Nat.add_assoc, ← List.drop_drop, hat, ← List.drop_drop, List.drop_left]
    simp only [List.cons_append, List.append_assoc, List.nil_append, List.drop_succ_cons,
      List.drop_zero]
  refine ⟨?_, ?_, ?_, ?_⟩
  · unfold findFrom
    rw [h, find_open_of_tag (p := .opening name) (Option.some_ne_none name)]
    rfl
  · intro hpre
    rw [h, textOf_cons, pieceText, openTag, tag, List.append_assoc, List.prefix_append_right_inj,
      List.cons_append, List.cons_prefix_cons] at hpre
    cases hn : name with
    | nil =>
        rw [hn, List.nil_append, List.singleton_append, List.cons_prefix_cons] at hpre
        exact absurd hpre.2.1 (by decide)
    | cons c rest =>
        rw [hn, List.cons_append, List.cons_append, List.cons_prefix_cons] at hpre
        apply hname.not_mem (show '/' ∈ tagBadChars by decide)
        rw [hn, hpre.2.1]
        exact List.mem_cons_self
  · have hfind : find ['>'] (name ++ ['>'] ++ textOf es) = some name.length := by
      rw [find_eq_some]
      constructor
      · have : OccursAt ['>'] (name ++ (['>'] ++ textOf es)) (name.length + 0) :=
          occursAt_append_left.2 (occursAt_zero.2 (List.prefix_append _ _))
        rwa [Nat.add_zero, ← List.append_assoc] at this
      · intro j hj hocc
        have hmem := OccursAt.of_append (x := name) (by rwa [List.append_assoc] at hocc)
          (by rw [List.length_singleton]; omega)
        obtain ⟨z, hz⟩ := hmem
        apply hname.not_mem (show '>' ∈ tagBadChars by decide)
        apply List.mem_of_mem_drop (i := j)
        rw [← hz]
        exact List.mem_cons_self
    unfold findFrom
    rw [hdrop, show name ++ '>' :: textOf es = name ++ ['>'] ++ textOf es by simp, hfind]
    rfl
  · unfold span
    rw [hdrop, Nat.add_sub_cancel_left, List.take_left]

/-- Elements in a row are scanned in order, and nothing is left between them. -/
theorem scanFrom_elements {es : List (Text × List (Piece Text Text))} {fuel : Nat}
    (hname : ∀ e ∈ es, TagName e.1 ∧ e.1 ≠ []) (hinner : ∀ e ∈ es, Balanced e.2)
    (h : At text pos (es.flatMap fun e => element e.1 e.2))
    (hps : Proper (es.flatMap fun e => element e.1 e.2))
    (hfuel : (textOf (es.flatMap fun e => element e.1 e.2)).length ≤ fuel) :
    scanFrom text fuel pos = (es.map fun e => (e.1, textOf e.2), []) := by
  induction es generalizing pos fuel with
  | nil =>
      have hend : text.length ≤ pos := List.drop_eq_nil_iff.1 h
      cases fuel with
      | zero => rfl
      | succ fuel => rw [scanFrom, if_pos hend]; rfl
  | cons e es ih =>
      obtain ⟨k, inner⟩ := e
      rw [List.flatMap_cons, element_append] at h hps hfuel
      dsimp only at h hps hfuel
      obtain ⟨hk, hne⟩ := hname (k, inner) List.mem_cons_self
      obtain ⟨hopen, hclose, hgt, hspan⟩ := scanFrom_head hk h
      have hlen := congrArg List.length h
      rw [List.length_drop, textOf_cons, List.length_append] at hlen
      rw [textOf_cons, List.length_append] at hfuel
      have hpos := pieceText_pos (p := .opening k) rfl
      obtain ⟨fuel, rfl⟩ : ∃ n, fuel = n + 1 := ⟨fuel - 1, by omega⟩
      have hbad : ¬ (k = [] ∨ k.any (· ∈ tagBadChars) = true) := by
        rintro (hnil | hany)
        · exact hne hnil
        · obtain ⟨c, hc, hmem⟩ := List.any_eq_true.1 hany
          exact hk c hc (of_decide_eq_true hmem)
      have hstart : pos + ns.length + 1 + k.length + 1 = pos + (pieceText (.opening k)).length := by
        rw [pieceText, openTag, tag_length, show ns.length = 13 by decide]
        omega
      have hmatch : matchClose text k text.length 1 (pos + (pieceText (.opening k)).length) = _ :=
        matchClose_inside hk h.next hps.tail
          (inside_element (hinner (k, inner) List.mem_cons_self) k _) (by omega)
      have hrest : At text (pos + (pieceText (.opening k)).length + (textOf inner).length +
          (closeTag k).length) (es.flatMap fun e => element e.1 e.2) := by
        have hnext := h.next
        unfold At at hnext ⊢
        rw [textOf_append, textOf_cons] at hnext
        rw [← List.drop_drop, ← List.drop_drop, hnext, List.drop_left, pieceText, List.drop_left]
      have hproper : Proper (es.flatMap fun e => element e.1 e.2) := by
        have htail := hps.tail
        have hsuf {ps qs : List (Piece Text Text)} (h : Proper (ps ++ qs)) : Proper qs := by
          induction ps with
          | nil => exact h
          | cons p ps ih => exact ih h.tail
        exact (hsuf htail).tail
      rw [scanFrom, if_neg (by omega), hopen]
      dsimp only
      rw [if_neg hclose, hgt]
      dsimp only
      rw [hspan, if_neg hbad, hstart, hmatch]
      dsimp only
      rw [ih (fun e he => hname e (List.mem_cons_of_mem _ he))
        (fun e he => hinner e (List.mem_cons_of_mem _ he)) hrest hproper
        (by rw [textOf_append, List.length_append, textOf_cons, List.length_append] at hfuel; omega),
        h.next.span, List.map_cons, prepend, span, Nat.sub_self, List.take_zero, List.append_nil]

/-- A text of elements in a row has these elements and no other text. -/
theorem scanElements_elements {es : List (Text × List (Piece Text Text))}
    (hname : ∀ e ∈ es, TagName e.1 ∧ e.1 ≠ []) (hinner : ∀ e ∈ es, Balanced e.2)
    (hps : Proper (es.flatMap fun e => element e.1 e.2)) :
    scanElements (textOf (es.flatMap fun e => element e.1 e.2)) =
      (es.map fun e => (e.1, textOf e.2), []) :=
  scanFrom_elements hname hinner List.drop_zero hps le_rfl

end Scan

/-! ## Argument trees -/

/-- A string, a list of arguments or an object with arguments as members. -/
inductive Argument
  | leaf (s : Text)
  | list (xs : List Argument)
  | object (ms : List (Text × Argument))

namespace Argument

mutual

/-- The text of an argument. -/
def render : Argument → Text
  | .leaf s => s
  | .list xs => renderItems xs
  | .object ms => renderMembers ms

def renderItems : List Argument → Text
  | [] => []
  | x :: xs => openTag "item".toList ++ render x ++ closeTag "item".toList ++ renderItems xs

def renderMembers : List (Text × Argument) → Text
  | [] => []
  | (k, v) :: ms => openTag k ++ render v ++ closeTag k ++ renderMembers ms

end

mutual

/-- The value an argument stands for. -/
def value : Argument → ArgumentValue
  | .leaf s => .str s
  | .list xs => .list (valueItems xs)
  | .object ms => .dict (valueMembers ms)

def valueItems : List Argument → List ArgumentValue
  | [] => []
  | x :: xs => value x :: valueItems xs

def valueMembers : List (Text × Argument) → List (Text × ArgumentValue)
  | [] => []
  | (k, v) :: ms => (k, value v) :: valueMembers ms

end

mutual

/-- The pieces of an argument's text. -/
def pieces : Argument → List (Piece Text Text)
  | .leaf s => [.leaf s]
  | .list xs => piecesItems xs
  | .object ms => piecesMembers ms

def piecesItems : List Argument → List (Piece Text Text)
  | [] => []
  | x :: xs => element "item".toList (pieces x) ++ piecesItems xs

def piecesMembers : List (Text × Argument) → List (Piece Text Text)
  | [] => []
  | (k, v) :: ms => element k (pieces v) ++ piecesMembers ms

end

/-- The elements of a list or of an object. -/
def children : Argument → List (Text × Argument)
  | .leaf _ => []
  | .list xs => xs.map fun x => ("item".toList, x)
  | .object ms => ms

theorem valueItems_eq (xs : List Argument) : valueItems xs = xs.map value := by
  induction xs with
  | nil => rfl
  | cons x xs ih => rw [valueItems, ih, List.map_cons]

theorem valueMembers_eq (ms : List (Text × Argument)) :
    valueMembers ms = ms.map fun m => (m.1, value m.2) := by
  induction ms with
  | nil => rfl
  | cons m ms ih => rw [valueMembers, ih, List.map_cons]

theorem piecesMembers_eq (ms : List (Text × Argument)) :
    piecesMembers ms = (ms.map fun m => (m.1, pieces m.2)).flatMap fun e => element e.1 e.2 := by
  induction ms with
  | nil => rfl
  | cons m ms ih => rw [piecesMembers, ih, List.map_cons, List.flatMap_cons]

theorem piecesItems_eq (xs : List Argument) :
    piecesItems xs = piecesMembers (xs.map fun x => ("item".toList, x)) := by
  induction xs with
  | nil => rfl
  | cons x xs ih => rw [piecesItems, ih, List.map_cons, piecesMembers]

theorem textOf_element (k : Text) (ps : List (Piece Text Text)) :
    textOf (element k ps) = openTag k ++ textOf ps ++ closeTag k := by
  unfold element
  rw [textOf_cons, textOf_append, textOf_cons, textOf_nil, List.append_nil, pieceText, pieceText,
    List.append_assoc]

mutual

theorem textOf_pieces : ∀ v : Argument, textOf (pieces v) = render v
  | .leaf s => by rw [pieces, render, textOf_cons, textOf_nil, List.append_nil, pieceText]
  | .list xs => by rw [pieces, render, textOf_piecesItems xs]
  | .object ms => by rw [pieces, render, textOf_piecesMembers ms]

theorem textOf_piecesItems : ∀ xs : List Argument, textOf (piecesItems xs) = renderItems xs
  | [] => rfl
  | x :: xs => by
      rw [piecesItems, renderItems, textOf_append, textOf_element, textOf_pieces x,
        textOf_piecesItems xs]

theorem textOf_piecesMembers : ∀ ms : List (Text × Argument),
    textOf (piecesMembers ms) = renderMembers ms
  | [] => rfl
  | (k, v) :: ms => by
      rw [piecesMembers, renderMembers, textOf_append, textOf_element, textOf_pieces v,
        textOf_piecesMembers ms]

end

/-! ## The texts of declared arguments -/

/-- The schema of a leaf says that it is a string. -/
def DeclaredString (cx : TypedContext) (schema : Json) : Prop :=
  ∃ ms t, schema = .obj ms ∧ ms.lookup "type".toList = some t ∧
    lower (strip (cx.str t)) ∈ TypedContext.stringTypes

/-- A tree with names that tags have, with strings for leaves by the matching schema, without empty
lists and objects, and without an object whose only member is called `item`. -/
inductive Declared (cx : TypedContext) : Json → Argument → Prop
  | leaf {schema : Json} {s : Text} (hs : find ns s = none) (hstring : DeclaredString cx schema) :
      Declared cx schema (.leaf s)
  | list {schema : Json} {xs : List Argument} (hne : xs ≠ [])
      (hxs : ∀ x ∈ xs, Declared cx (itemSchema schema) x) : Declared cx schema (.list xs)
  | object {schema : Json} {ms : List (Text × Argument)} (hne : ms ≠ [])
      (hnames : ∀ m ∈ ms, TagName m.1 ∧ m.1 ≠ []) (hkeys : (ms.map Prod.fst).Nodup)
      (hitem : ms.map Prod.fst ≠ ["item".toList])
      (hms : ∀ m ∈ ms, Declared cx (subSchema schema m.1) m.2) : Declared cx schema (.object ms)

theorem tagName_of_all {name : Text} (h : (name.all fun c => decide (c ∉ tagBadChars)) = true) :
    TagName name := fun c hc => of_decide_eq_true (List.all_eq_true.1 h c hc)

theorem tagName_item : TagName "item".toList := tagName_of_all rfl

theorem tagNames_of_all {A : Type} {ms : List (Text × A)}
    (h : (ms.all fun m => (m.1.all fun c => decide (c ∉ tagBadChars)) && !m.1.isEmpty) = true) :
    ∀ m ∈ ms, TagName m.1 ∧ m.1 ≠ [] := by
  intro m hm
  have hname := Bool.and_eq_true_iff.1 (List.all_eq_true.1 h m hm)
  refine ⟨tagName_of_all hname.1, fun hnil => ?_⟩
  rw [hnil] at hname
  exact absurd hname.2 (by decide)

/-- The pieces can stand before others that do not begin with a leaf. -/
def ProperBefore (ps : List (Piece Text Text)) : Prop :=
  ∀ rest, Proper rest → (∀ a, rest.head? ≠ some (.leaf a)) → Proper (ps ++ rest)

theorem proper_piecesMembers {ms : List (Text × Argument)} (hnames : ∀ m ∈ ms, TagName m.1)
    (hms : ∀ m ∈ ms, ProperBefore (pieces m.2)) {rest : List (Piece Text Text)}
    (hrest : Proper rest) : Proper (piecesMembers ms ++ rest) := by
  induction ms with
  | nil => exact hrest
  | cons m ms ih =>
      have hk := hnames m List.mem_cons_self
      have hrest' := ih (fun m hm => hnames m (List.mem_cons_of_mem _ hm))
        (fun m hm => hms m (List.mem_cons_of_mem _ hm))
      rw [piecesMembers, List.append_assoc, element_append]
      apply Proper.opening hk
      apply hms m List.mem_cons_self _ (.closing hk hrest')
      simp

theorem balanced_piecesMembers {ms : List (Text × Argument)}
    (hms : ∀ m ∈ ms, Balanced (pieces m.2)) : Balanced (piecesMembers ms) := by
  rw [piecesMembers_eq]
  apply Balanced.flatMap_element
  intro e he
  obtain ⟨m, hm, rfl⟩ := List.mem_map.1 he
  exact hms m hm

/-- The pieces of a declared argument are nested and can be told apart. -/
theorem Declared.pieces {cx : TypedContext} {schema : Json} {v : Argument}
    (h : Declared cx schema v) : Balanced v.pieces ∧ ProperBefore v.pieces := by
  induction h with
  | leaf hs _ =>
      refine ⟨.leaf _ .nil, fun rest hrest hhead => ?_⟩
      exact .leaf hs hhead hrest
  | @list schema xs _ _ ih =>
      rw [Argument.pieces, piecesItems_eq]
      have hmem {m : Text × Argument} (hm : m ∈ xs.map fun x => ("item".toList, x)) :
          m.1 = "item".toList ∧ Balanced m.2.pieces ∧ ProperBefore m.2.pieces := by
        obtain ⟨x, hx, rfl⟩ := List.mem_map.1 hm
        exact ⟨rfl, ih x hx⟩
      refine ⟨balanced_piecesMembers fun m hm => (hmem hm).2.1, fun rest hrest _ => ?_⟩
      apply proper_piecesMembers _ (fun m hm => (hmem hm).2.2) hrest
      intro m hm
      rw [(hmem hm).1]
      exact tagName_item
  | object _ hnames _ _ _ ih =>
      refine ⟨balanced_piecesMembers fun m hm => (ih m hm).1, fun rest hrest _ => ?_⟩
      exact proper_piecesMembers (fun m hm => (hnames m hm).1) (fun m hm => (ih m hm).2) hrest

/-- The scan finds the members of an object whose members are declared. -/
theorem scanElements_renderMembers {ms : List (Text × Argument)}
    (hnames : ∀ m ∈ ms, TagName m.1 ∧ m.1 ≠ [])
    (hms : ∀ m ∈ ms, Balanced m.2.pieces ∧ ProperBefore m.2.pieces) :
    scanElements (renderMembers ms) = (ms.map fun m => (m.1, m.2.render), []) := by
  have hproper : Proper (piecesMembers ms) := by
    rw [← List.append_nil (piecesMembers ms)]
    exact proper_piecesMembers (fun m hm => (hnames m hm).1) (fun m hm => (hms m hm).2) .nil
  rw [piecesMembers_eq] at hproper
  rw [← textOf_piecesMembers, piecesMembers_eq, scanElements_elements _ _ hproper, List.map_map]
  · congr 1
    apply List.map_congr_left
    intro m _
    rw [← textOf_pieces m.2]
    rfl
  · intro e he
    obtain ⟨m, hm, rfl⟩ := List.mem_map.1 he
    exact hnames m hm
  · intro e he
    obtain ⟨m, hm, rfl⟩ := List.mem_map.1 he
    exact (hms m hm).1

theorem renderItems_eq (xs : List Argument) :
    renderItems xs = renderMembers (xs.map fun x => ("item".toList, x)) := by
  rw [← textOf_piecesItems, piecesItems_eq, textOf_piecesMembers]

/-! ## The values of declared arguments -/

theorem typedLeaf_of_string {cx : TypedContext} {schema : Json} (h : DeclaredString cx schema)
    (raw : Text) : typedLeaf cx raw schema = .ok (.str raw) := by
  obtain ⟨ms, t, rfl, ht, hmem⟩ := h
  have hunion : unionOf ms = none := by
    rw [unionOf, ht]
    rfl
  have htype : leafType cx (.obj ms) ∈ TypedContext.stringTypes := by
    rw [leafType, ht]
    exact hmem
  rw [typedLeaf, hunion]
  dsimp only
  rw [declaredLeaf, if_pos htype]

/-- Members with different keys are collected in order. -/
theorem foldlM_insert (read : Text × Text → Py ArgumentValue) {ms : List (Text × Argument)}
    (hread : ∀ m ∈ ms, read (m.1, m.2.render) = .ok m.2.value)
    (out : List (Text × ArgumentValue))
    (hkeys : (out.map Prod.fst ++ ms.map Prod.fst).Nodup) :
    (ms.map fun m => (m.1, m.2.render)).foldlM (fun out item => do
      let value ← read item
      return ArgumentValue.insert out item.1 value) out =
      .ok (out ++ ms.map fun m => (m.1, m.2.value)) := by
  induction ms generalizing out with
  | nil => rw [List.map_nil, List.map_nil, List.append_nil]; rfl
  | cons m ms ih =>
      have hnew : m.1 ∉ out.map Prod.fst := by
        intro hmem
        exact (List.nodup_append.1 hkeys).2.2 _ hmem _ (by simp) rfl
      have hinsert : ArgumentValue.insert out m.1 m.2.value = out ++ [(m.1, m.2.value)] := by
        have hlookup : out.lookup m.1 = none := by
          rw [List.lookup_eq_none_iff]
          intro p hp
          rw [bne_iff_ne]
          intro heq
          exact hnew (List.mem_map.2 ⟨p, hp, heq.symm⟩)
        have hany : out.any (fun p => decide (p.1 = m.1)) = false := by
          rw [List.any_eq_false]
          intro p hp hdec
          exact hnew (List.mem_map.2 ⟨p, hp, of_decide_eq_true hdec⟩)
        rw [ArgumentValue.insert, hlookup]
        dsimp only
        rw [Json.dictSet, hany]
        rfl
      rw [List.map_cons, List.foldlM_cons, hread m List.mem_cons_self]
      show List.foldlM _ (ArgumentValue.insert out m.1 m.2.value) _ = _
      rw [hinsert, ih (fun m hm => hread m (List.mem_cons_of_mem _ hm)), List.append_assoc,
        List.singleton_append, List.map_cons]
      rw [List.map_append, List.append_assoc]
      exact hkeys

/-- Texts that are all read give the list of what they are read as. -/
theorem mapM_item (read : Text → Py ArgumentValue) {xs : List Argument}
    (hread : ∀ x ∈ xs, read x.render = .ok x.value) :
    (xs.map fun x => ("item".toList, x.render)).mapM (fun item => read item.2) =
      .ok (xs.map value) := by
  induction xs with
  | nil => rfl
  | cons x xs ih =>
      rw [List.map_cons, List.mapM_cons, hread x List.mem_cons_self,
        ih fun y hy => hread y (List.mem_cons_of_mem _ hy)]
      rfl

/-- The text of a member is shorter than the text it stands in. -/
theorem render_length_lt {ms : List (Text × Argument)} {m : Text × Argument} (hm : m ∈ ms) :
    m.2.render.length < (renderMembers ms).length := by
  induction ms with
  | nil => cases hm
  | cons m' ms ih =>
      rw [renderMembers, List.length_append, List.length_append, List.length_append, openTag,
        tag_length]
      rcases List.mem_cons.1 hm with rfl | hm
      · omega
      · have := ih hm
        omega

/-- Keys that are different and are not just `item` are not all `item`. -/
theorem not_all_item {α : Type} (ms : List (Text × α)) (hkeys : (ms.map Prod.fst).Nodup)
    (hitem : ms.map Prod.fst ≠ ["item".toList]) :
    ¬ (ms ≠ [] ∧ ∀ m ∈ ms, m.1 = "item".toList) := by
  rintro ⟨hne, hall⟩
  cases ms with
  | nil => exact hne rfl
  | cons m ms =>
      cases ms with
      | nil =>
          apply hitem
          rw [List.map_cons, List.map_nil, hall m List.mem_cons_self]
      | cons m' ms =>
          rw [List.map_cons, List.map_cons, List.nodup_cons] at hkeys
          apply hkeys.1
          rw [hall m List.mem_cons_self,
            hall m' (List.mem_cons_of_mem _ List.mem_cons_self)]
          exact List.mem_cons_self

/-- The members of an object whose members are read by their schemas. -/
theorem structureOf_members {cx : TypedContext} {schema : Json} {ms : List (Text × Argument)}
    {read : Text → Json → Py ArgumentValue} (hkeys : (ms.map Prod.fst).Nodup)
    (hitem : ms.map Prod.fst ≠ ["item".toList])
    (hread : ∀ m ∈ ms, read m.2.render (subSchema schema m.1) = .ok m.2.value) :
    structureOf cx read (ms.map fun m => (m.1, m.2.render)) schema [] =
      .ok (.dict (ms.map fun m => (m.1, m.2.value))) := by
  have hfst : (ms.map fun m => (m.1, m.2.render)).map Prod.fst = ms.map Prod.fst := by
    rw [List.map_map]
    rfl
  have hnot := not_all_item (ms.map fun m => (m.1, m.2.render)) (by rwa [hfst]) (by rwa [hfst])
  rw [structureOf, if_neg hnot]
  -- every key stands once, and so keeps its schema
  let sub (item : Text × Text) : Json :=
    if 1 < ((ms.map fun m => (m.1, m.2.render)).map Prod.fst).count item.1 then
      repeatedSchema cx (subSchema schema item.1)
    else subSchema schema item.1
  have hsub : ∀ m ∈ ms, read m.2.render (sub (m.1, m.2.render)) = .ok m.2.value := by
    intro m hm
    have hcount : (ms.map Prod.fst).count m.1 = 1 :=
      List.count_eq_one_of_mem hkeys (List.mem_map_of_mem hm)
    have heq : sub (m.1, m.2.render) = subSchema schema m.1 := by
      dsimp only [sub]
      rw [hfst, hcount, if_neg (by omega)]
    rw [heq]
    exact hread m hm
  have hfold := foldlM_insert (fun item => read item.2 (sub item)) hsub [] (by simpa using hkeys)
  show (do
    let out ← (ms.map fun m => (m.1, m.2.render)).foldlM (fun out item => do
      let value ← read item.2 (sub item)
      return ArgumentValue.insert out item.1 value) []
    return ArgumentValue.dict out : Py ArgumentValue) = _
  rw [hfold]
  rfl

/-- A declared argument is read back from its text. -/
theorem Declared.nestedValue {cx : TypedContext} {schema : Json} {v : Argument}
    (h : Declared cx schema v) {fuel : Nat} (hfuel : v.render.length ≤ fuel) :
    nestedValue cx fuel v.render schema = .ok v.value := by
  induction h generalizing fuel with
  | @leaf schema s hs hstring =>
      have htyped := typedLeaf_of_string hstring s
      rw [render, value]
      cases fuel with
      | zero => exact htyped
      | succ fuel =>
          rw [MiniMaxM3Detector.nestedValue, scanElements_leaf hs]
          exact htyped
  | @list schema xs hne hxs ih =>
      have hscan : scanElements (renderMembers (xs.map fun x => ("item".toList, x))) =
          (xs.map fun x => ("item".toList, x.render), []) := by
        rw [scanElements_renderMembers, List.map_map]
        · rfl
        · intro m hm
          obtain ⟨x, -, rfl⟩ := List.mem_map.1 hm
          exact ⟨tagName_item, List.cons_ne_nil _ _⟩
        · intro m hm
          obtain ⟨x, hx, rfl⟩ := List.mem_map.1 hm
          exact (hxs x hx).pieces
      rw [render, renderItems_eq] at hfuel ⊢
      have hlt (x : Argument) (hx : x ∈ xs) : x.render.length < fuel :=
        (render_length_lt (m := ("item".toList, x)) (List.mem_map_of_mem hx)).trans_le hfuel
      obtain ⟨x, hx⟩ := List.exists_mem_of_ne_nil xs hne
      obtain ⟨fuel, rfl⟩ : ∃ n, fuel = n + 1 := ⟨fuel - 1, by have := hlt x hx; omega⟩
      have hall : (xs.map fun x => ("item".toList, x.render)) ≠ [] ∧
          ∀ item ∈ xs.map fun x => ("item".toList, x.render), item.1 = "item".toList := by
        refine ⟨by simpa using hne, fun item hitem => ?_⟩
        obtain ⟨y, -, rfl⟩ := List.mem_map.1 hitem
        rfl
      rw [MiniMaxM3Detector.nestedValue, hscan]
      dsimp only
      rw [if_neg hall.1, structureOf, if_pos hall,
        mapM_item (fun raw => MiniMaxM3Detector.nestedValue cx fuel raw (itemSchema schema))
          fun y hy => ih y hy (Nat.le_of_lt_succ (hlt y hy)), value, valueItems_eq]
      rfl
  | @object schema ms hne hnames hkeys hitem hms ih =>
      have hscan := scanElements_renderMembers hnames fun m hm => (hms m hm).pieces
      rw [render] at hfuel ⊢
      obtain ⟨m, hm⟩ := List.exists_mem_of_ne_nil ms hne
      obtain ⟨fuel, rfl⟩ : ∃ n, fuel = n + 1 :=
        ⟨fuel - 1, by have := render_length_lt hm; omega⟩
      rw [MiniMaxM3Detector.nestedValue, hscan]
      dsimp only
      rw [if_neg (by simpa using hne), structureOf_members hkeys hitem, value, valueMembers_eq]
      intro m hm
      exact ih m hm (by have := render_length_lt hm; omega)

/-- The scan of an object's text finds its members in order and no other text, and the object is
rebuilt from them. -/
theorem argsFromItems_render (cx : TypedContext) (funcName : Text) (ms : List (Text × Argument))
    (hnames : ∀ m ∈ ms, TagName m.1 ∧ m.1 ≠ []) (hkeys : (ms.map Prod.fst).Nodup)
    (hms : ∀ m ∈ ms,
      Declared cx (((cx.getParamConfig funcName).lookup m.1).getD .null) m.2) :
    scanElements (render (.object ms)) = (ms.map fun m => (m.1, render m.2), []) ∧
      argsFromItems cx funcName (scanElements (render (.object ms))).1 =
        .ok (ms.map fun m => (m.1, value m.2)) := by
  have hscan := scanElements_renderMembers hnames fun m hm => (hms m hm).pieces
  rw [render, hscan]
  refine ⟨rfl, ?_⟩
  let read (item : Text × Text) : Py ArgumentValue :=
    MiniMaxM3Detector.nestedValue cx (item.2.length + 1) item.2
      (((cx.getParamConfig funcName).lookup item.1).getD .null)
  have hread : ∀ m ∈ ms, read (m.1, m.2.render) = .ok m.2.value :=
    fun m hm => (hms m hm).nestedValue (Nat.le_succ _)
  exact foldlM_insert read hread [] (by simpa using hkeys)

/-! ## A tool with nested parameters -/

/-- A context with one tool, in which a type is written as a string. -/
def oneTool (properties : List Json.Member) : TypedContext where
  tools := [⟨"f".toList, some [("properties".toList, .obj properties)]⟩]
  forwardUnknownTools := false
  numbers := .keep
  str := fun
    | .str s => s
    | _ => []
  int _ := none
  float _ := none
  literalEval _ := none

def stringSchema : Json := .obj [("type".toList, .str "string".toList)]

def objectSchema (properties : List Json.Member) : Json :=
  .obj [("type".toList, .str "object".toList), ("properties".toList, .obj properties)]

theorem declared_leaf (properties : List Json.Member) {s : Text} (hs : find ns s = none) :
    Declared (oneTool properties) stringSchema (.leaf s) := by
  apply Declared.leaf hs
  refine ⟨_, _, rfl, rfl, ?_⟩
  show lower (strip "string".toList) ∈ TypedContext.stringTypes
  decide

/-- A parameter whose members have its own name and a list below it. -/
def nestedSchema : Json :=
  objectSchema [("a".toList, objectSchema [("a".toList, stringSchema), ("b".toList,
    .obj [("type".toList, .str "array".toList), ("items".toList, stringSchema)])])]

def nestedArgument : Argument :=
  .object [("a".toList, .object [("a".toList, .leaf "]<".toList),
    ("b".toList, .list [.leaf [], .leaf "<a>".toList])])]

theorem argsFromItems_render_nested :
    scanElements (render (.object [("a".toList, nestedArgument)])) =
        ([("a".toList, render nestedArgument)], []) ∧
      argsFromItems (oneTool [("a".toList, nestedSchema)]) "f".toList
        (scanElements (render (.object [("a".toList, nestedArgument)]))).1 =
          .ok [("a".toList, nestedArgument.value)] := by
  have hleaf {s : Text} (hs : find ns s = none) := declared_leaf [("a".toList, nestedSchema)] hs
  apply argsFromItems_render _ _ [("a".toList, nestedArgument)]
  · exact tagNames_of_all rfl
  · decide
  · rintro m hm
    rw [List.mem_singleton.1 hm]
    apply Declared.object (by simp) (tagNames_of_all rfl) (by decide) (by decide)
    rintro m hm
    rw [List.mem_singleton.1 hm]
    apply Declared.object (by simp) (tagNames_of_all rfl) (by decide) (by decide)
    rintro m hm
    rcases List.mem_cons.1 hm with rfl | hm
    · exact hleaf (by decide)
    · rw [List.mem_singleton.1 hm]
      apply Declared.list (by simp)
      rintro x hx
      rcases List.mem_cons.1 hx with rfl | hx
      · exact hleaf (by decide)
      · rw [List.mem_singleton.1 hx]
        exact hleaf (by decide)

/-- An object in an object whose only member is called `item` comes back as a list, and an element
without a name is stepped over. -/
theorem item_object_not_rebuilt :
    argsFromItems (oneTool [("a".toList, objectSchema [("item".toList, stringSchema)])]) "f".toList
        (scanElements (render (.object [("a".toList,
          .object [("item".toList, .leaf "x".toList)])]))).1 ≠
          .ok [("a".toList, value (.object [("item".toList, .leaf "x".toList)]))] ∧
      scanElements (render (.object [([], .leaf "x".toList)])) ≠ ([([], "x".toList)], []) := by
  constructor
  · have hlist : argsFromItems
        (oneTool [("a".toList, objectSchema [("item".toList, stringSchema)])]) "f".toList
        (scanElements (render (.object [("a".toList,
          .object [("item".toList, .leaf "x".toList)])]))).1 =
          .ok [("a".toList, .list [.str "x".toList])] := rfl
    rw [hlist]
    intro h
    injection h with h
    injection h with h _
    injection h with _ h
    cases h
  · decide

end Argument

end MiniMaxM3Detector

end FreeToken
