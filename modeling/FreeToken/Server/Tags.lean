import FreeToken.Lib.Pattern
import FreeToken.Server.ReasoningParser

/-!
# The tags of tool-call blocks

The regular expressions the detectors look for an opening tag with, as patterns on a text: what they
capture, and the text after the tag.
-/

set_option autoImplicit false

namespace FreeToken

open Search Text Pattern

/-- The rest of a text that begins with a word. -/
def word (w t : Text) : Option Text := if w <+: t then some (t.drop w.length) else none

/-- `\s+` before something that is no space. -/
def spaces (t : Text) : Option Text :=
  if t.takeWhile isSpace = [] then none else some (t.dropWhile isSpace)

/-- `([^"]+)"`. -/
def untilQuote (t : Text) : Option (Text × Text) :=
  if t.takeWhile (· ≠ '"') = [] then none
  else (word ['"'] (t.dropWhile (· ≠ '"'))).map fun r => (t.takeWhile (· ≠ '"'), r)

/-- `\s*>`. -/
def tagEnd (t : Text) : Option Text := word ['>'] (t.dropWhile isSpace)

def nameAttr : Text := "name=\"".toList

/-- `opener\s+name="([^"]+)"\s*>`. -/
def nameTag (opener t : Text) : Option (Text × Text) := do
  let t ← word opener t
  let t ← spaces t
  let t ← word nameAttr t
  let (name, t) ← untilQuote t
  let t ← tagEnd t
  return (name, t)

theorem word_eq_some {w t r : Text} : word w t = some r ↔ t = w ++ r := by
  unfold word
  split
  · rename_i hpre
    obtain ⟨s, rfl⟩ := hpre
    rw [List.drop_left, Option.some.injEq, List.append_cancel_left_eq]
  · rename_i hpre
    simp only [reduceCtorEq, false_iff]
    rintro rfl
    exact hpre (List.prefix_append _ _)

theorem takeWhile_blank {ws t : Text} {c : Char} (hws : Blank ws) (hc : isSpace c = false) :
    (ws ++ c :: t).takeWhile isSpace = ws ∧ (ws ++ c :: t).dropWhile isSpace = c :: t := by
  rw [List.takeWhile_append_of_pos hws, List.dropWhile_append_of_pos hws]
  simp [hc]

theorem spaces_word {t r : Text} {c : Char} {w : Text} (hc : isSpace c = false) :
    ((spaces t).bind (word (c :: w))) = some r ↔
      ∃ ws, ws ≠ [] ∧ Blank ws ∧ t = ws ++ (c :: w ++ r) := by
  constructor
  · intro h
    obtain ⟨t', ht', hword⟩ := Option.bind_eq_some_iff.1 h
    unfold spaces at ht'
    split at ht'
    · cases ht'
    · rename_i hne
      cases ht'
      refine ⟨t.takeWhile isSpace, hne, fun d hd => List.mem_takeWhile_imp hd, ?_⟩
      rw [← word_eq_some.1 hword, List.takeWhile_append_dropWhile]
  · rintro ⟨ws, hne, hws, rfl⟩
    rw [List.cons_append]
    obtain ⟨htake, hdrop⟩ := takeWhile_blank (t := w ++ r) hws hc
    unfold spaces
    rw [htake, if_neg hne, hdrop, Option.bind_some]
    exact word_eq_some.2 rfl

theorem untilQuote_eq_some {t n r : Text} :
    untilQuote t = some (n, r) ↔ n ≠ [] ∧ '"' ∉ n ∧ t = n ++ '"' :: r := by
  unfold untilQuote
  constructor
  · intro h
    split at h
    · cases h
    · rename_i hne
      obtain ⟨r', hword, heq⟩ := Option.map_eq_some_iff.1 h
      cases heq
      refine ⟨hne, fun hmem => ?_, ?_⟩
      · have := List.mem_takeWhile_imp hmem
        simp at this
      · have := word_eq_some.1 hword
        rw [List.singleton_append] at this
        rw [← this, List.takeWhile_append_dropWhile]
  · rintro ⟨hne, hmem, rfl⟩
    have hall : ∀ c ∈ n, decide (c ≠ '"') = true := by
      intro c hc
      rw [decide_eq_true_eq]
      rintro rfl
      exact hmem hc
    rw [List.takeWhile_append_of_pos hall, List.dropWhile_append_of_pos hall]
    simp [hne, word]

theorem tagEnd_eq_some {t r : Text} :
    tagEnd t = some r ↔ ∃ ws, Blank ws ∧ t = ws ++ '>' :: r := by
  unfold tagEnd
  rw [word_eq_some]
  constructor
  · intro h
    refine ⟨t.takeWhile isSpace, fun c hc => List.mem_takeWhile_imp hc, ?_⟩
    rw [List.singleton_append] at h
    rw [← h, List.takeWhile_append_dropWhile]
  · rintro ⟨ws, hws, rfl⟩
    rw [(takeWhile_blank hws (by decide)).2]
    rfl

/-- A tag that carries a name. -/
def IsNameTag (opener name w : Text) : Prop :=
  ∃ ws ws', ws ≠ [] ∧ Blank ws ∧ name ≠ [] ∧ '"' ∉ name ∧ Blank ws' ∧
    w = opener ++ (ws ++ (nameAttr ++ (name ++ '"' :: (ws' ++ ['>']))))

theorem nameTag_eq_some {opener t name r : Text} :
    nameTag opener t = some (name, r) ↔ ∃ w, IsNameTag opener name w ∧ t = w ++ r := by
  unfold nameTag
  constructor
  · intro h
    simp only [Option.bind_eq_bind, Option.bind_eq_some_iff, Option.pure_def] at h
    obtain ⟨t₁, h₁, t₂, h₂, t₃, h₃, ⟨n, t₄⟩, h₄, t₅, h₅, heq⟩ := h
    cases heq
    obtain ⟨ws, hne, hws, rfl⟩ := (spaces_word (by decide)).1 (Option.bind_eq_some_iff.2
      ⟨t₂, h₂, h₃⟩)
    obtain ⟨hn, hq, rfl⟩ := untilQuote_eq_some.1 h₄
    obtain ⟨ws', hws', rfl⟩ := tagEnd_eq_some.1 h₅
    refine ⟨_, ⟨ws, ws', hne, hws, hn, hq, hws', rfl⟩, ?_⟩
    rw [word_eq_some.1 h₁]
    simp only [List.append_assoc, List.cons_append, List.nil_append]
    rfl
  · rintro ⟨w, ⟨ws, ws', hne, hws, hn, hq, hws', rfl⟩, rfl⟩
    simp only [List.append_assoc, List.cons_append, List.nil_append]
    rw [word_eq_some.2 rfl]
    have hspaces := (spaces_word (t := ws ++ (nameAttr ++ (name ++ '"' :: (ws' ++ '>' :: r))))
      (show isSpace 'n' = false by decide)).2 ⟨ws, hne, hws, rfl⟩
    obtain ⟨t₂, h₂, h₃⟩ := Option.bind_eq_some_iff.1 hspaces
    simp only [Option.bind_eq_bind, Option.bind_some, h₂]
    have h₃' : word nameAttr t₂ = some (name ++ '"' :: (ws' ++ '>' :: r)) := h₃
    rw [h₃', Option.bind_some, untilQuote_eq_some.2 ⟨hn, hq, rfl⟩, Option.bind_some,
      tagEnd_eq_some.2 ⟨ws', hws', rfl⟩]
    rfl

def stringEq : Text := "string=\"".toList

def quotedBool : Bool → Text
  | true => "true\"".toList
  | false => "false\"".toList

/-- `(true|false)"`. -/
def boolWord (t : Text) : Option (Bool × Text) :=
  match word (quotedBool true) t with
  | some r => some (true, r)
  | none => (word (quotedBool false) t).map fun r => (false, r)

/-- `\s+string="(true|false)"`. -/
def stringAttr (t : Text) : Option (Bool × Text) := do
  let t ← spaces t
  let t ← word stringEq t
  boolWord t

/-- `opener\s+name="([^"]+)"(?:\s+string="(true|false)")?\s*>`. -/
def paramTag (opener t : Text) : Option ((Text × Option Bool) × Text) := do
  let t ← word opener t
  let t ← spaces t
  let t ← word nameAttr t
  let (name, t) ← untilQuote t
  match (stringAttr t).bind fun p => (tagEnd p.2).map fun r => (p.1, r) with
  | some (b, r) => return ((name, some b), r)
  | none => (tagEnd t).map fun r => ((name, none), r)

/-- The attribute that says whether the value is a string. -/
def attrText : Option Bool → Text
  | none => []
  | some b => stringEq ++ quotedBool b

theorem boolWord_eq_some {t r : Text} {b : Bool} :
    boolWord t = some (b, r) ↔ t = quotedBool b ++ r := by
  unfold boolWord
  constructor
  · intro h
    split at h
    · rename_i r' hr'
      cases h
      exact word_eq_some.1 hr'
    · obtain ⟨r', hr', heq⟩ := Option.map_eq_some_iff.1 h
      cases heq
      exact word_eq_some.1 hr'
  · rintro rfl
    cases b
    · have hnone : word (quotedBool true) (quotedBool false ++ r) = none := by
        simp [word, quotedBool, List.cons_prefix_cons]
      rw [hnone, word_eq_some.2 rfl]
      rfl
    · rw [word_eq_some.2 rfl]

theorem stringAttr_eq_some {t r : Text} {b : Bool} :
    stringAttr t = some (b, r) ↔
      ∃ ws, ws ≠ [] ∧ Blank ws ∧ t = ws ++ (stringEq ++ (quotedBool b ++ r)) := by
  unfold stringAttr
  simp only [Option.bind_eq_bind]
  rw [← Option.bind_assoc, Option.bind_eq_some_iff]
  constructor
  · rintro ⟨t', ht', hbool⟩
    obtain ⟨ws, hne, hws, rfl⟩ := (spaces_word (by decide)).1 ht'
    rw [boolWord_eq_some] at hbool
    rw [hbool]
    exact ⟨ws, hne, hws, rfl⟩
  · rintro ⟨ws, hne, hws, rfl⟩
    exact ⟨quotedBool b ++ r, (spaces_word (by decide)).2 ⟨ws, hne, hws, rfl⟩,
      boolWord_eq_some.2 rfl⟩

/-- A tag that carries a name and says, maybe, whether its value is a string. -/
def IsParamTag (opener : Text) (g : Text × Option Bool) (w : Text) : Prop :=
  ∃ ws ws' ws'', ws ≠ [] ∧ Blank ws ∧ g.1 ≠ [] ∧ '"' ∉ g.1 ∧ Blank ws' ∧
    (g.2 = none ↔ ws' = []) ∧ Blank ws'' ∧
    w = opener ++ (ws ++ (nameAttr ++ (g.1 ++ '"' :: (ws' ++ (attrText g.2 ++ (ws'' ++ ['>']))))))

theorem blank_append_inj {ws ws' t t' : Text} {c c' : Char} (hws : Blank ws) (hws' : Blank ws')
    (hc : isSpace c = false) (hc' : isSpace c' = false) (h : ws ++ c :: t = ws' ++ c' :: t') :
    ws = ws' ∧ c = c' ∧ t = t' := by
  obtain ⟨htake, hdrop⟩ := takeWhile_blank (t := t) hws hc
  obtain ⟨htake', hdrop'⟩ := takeWhile_blank (t := t') hws' hc'
  rw [h] at htake hdrop
  rw [htake] at htake'
  rw [hdrop] at hdrop'
  cases hdrop'
  exact ⟨htake', rfl, rfl⟩

theorem paramTag_eq_some {opener t r : Text} {g : Text × Option Bool} :
    paramTag opener t = some (g, r) ↔ ∃ w, IsParamTag opener g w ∧ t = w ++ r := by
  unfold paramTag
  constructor
  · intro h
    simp only [Option.bind_eq_bind, Option.bind_eq_some_iff, Option.pure_def] at h
    obtain ⟨t₁, h₁, t₂, h₂, t₃, h₃, ⟨n, t₄⟩, h₄, h⟩ := h
    obtain ⟨ws, hne, hws, rfl⟩ := (spaces_word (by decide)).1 (Option.bind_eq_some_iff.2
      ⟨t₂, h₂, h₃⟩)
    obtain ⟨hn, hq, rfl⟩ := untilQuote_eq_some.1 h₄
    rw [word_eq_some.1 h₁]
    split at h
    · rename_i b r' hattr
      cases h
      obtain ⟨⟨b', t₅⟩, hb', hend⟩ := Option.bind_eq_some_iff.1 hattr
      obtain ⟨r'', hr'', heq⟩ := Option.map_eq_some_iff.1 hend
      cases heq
      obtain ⟨ws', hne', hws', rfl⟩ := stringAttr_eq_some.1 hb'
      obtain ⟨ws'', hws'', rfl⟩ := tagEnd_eq_some.1 hr''
      refine ⟨_, ⟨ws, ws', ws'', hne, hws, hn, hq, hws', by simp [hne'], hws'', rfl⟩, ?_⟩
      simp only [attrText, List.append_assoc, List.cons_append, List.nil_append]
      rfl
    · obtain ⟨r', hr', heq⟩ := Option.map_eq_some_iff.1 h
      cases heq
      obtain ⟨ws'', hws'', rfl⟩ := tagEnd_eq_some.1 hr'
      refine ⟨_, ⟨ws, [], ws'', hne, hws, hn, hq, fun _ h => (by cases h), by simp, hws'', rfl⟩, ?_⟩
      simp only [attrText, List.append_assoc, List.cons_append, List.nil_append]
      rfl
  · rintro ⟨w, ⟨ws, ws', ws'', hne, hws, hn, hq, hws', hnone, hws'', rfl⟩, rfl⟩
    obtain ⟨n, s⟩ := g
    dsimp only at hn hq hnone ⊢
    simp only [List.append_assoc, List.cons_append, List.nil_append]
    rw [word_eq_some.2 rfl]
    have hspaces := (spaces_word
      (t := ws ++ (nameAttr ++ (n ++ '"' :: (ws' ++ (attrText s ++ (ws'' ++ '>' :: r))))))
      (show isSpace 'n' = false by decide)).2 ⟨ws, hne, hws, rfl⟩
    obtain ⟨t₂, h₂, h₃⟩ := Option.bind_eq_some_iff.1 hspaces
    simp only [Option.bind_eq_bind, Option.bind_some, h₂]
    have h₃' : word nameAttr t₂ =
        some (n ++ '"' :: (ws' ++ (attrText s ++ (ws'' ++ '>' :: r)))) := h₃
    have hend : tagEnd (ws'' ++ '>' :: r) = some r := tagEnd_eq_some.2 ⟨ws'', hws'', rfl⟩
    rw [h₃', Option.bind_some, untilQuote_eq_some.2 ⟨hn, hq, rfl⟩, Option.bind_some]
    cases s with
    | none =>
        have hattr : stringAttr (ws'' ++ '>' :: r) = none := by
          rw [Option.eq_none_iff_forall_not_mem]
          rintro ⟨b, r'⟩ hmem
          obtain ⟨ws₁, -, hws₁, heq⟩ := stringAttr_eq_some.1 hmem
          have := (blank_append_inj hws'' hws₁ (by decide) (by decide)
            (show ws'' ++ '>' :: r = ws₁ ++ 's' :: ("tring=\"".toList ++ (quotedBool b ++ r')) from
              heq)).2.1
          exact absurd this (by decide)
        rw [hnone.1 rfl]
        simp only [attrText, List.nil_append, hattr, Option.bind_none, hend, Option.map_some]
    | some b =>
        have hattr : stringAttr (ws' ++ (attrText (some b) ++ (ws'' ++ '>' :: r))) =
            some (b, ws'' ++ '>' :: r) := by
          refine stringAttr_eq_some.2 ⟨ws', fun h => ?_, hws', ?_⟩
          · exact absurd (hnone.2 h) (by simp)
          · simp only [attrText, List.append_assoc]
        simp only [hattr, Option.bind_some, hend, Option.map_some, Option.pure_def]

/-! ## A tag does not go on after another one -/

/-- What stands after the last quote of a tag is its end. -/
theorem tagEnd_unique {ws ws' v : Text} (hws : Blank ws) (hws' : Blank ws')
    (h : ws ++ ('>' :: v) = ws' ++ ['>']) : v = [] :=
  (blank_append_inj hws hws' (by decide) (by decide) h).2.2

theorem blank_no_quote {ws : Text} (hws : Blank ws) : '"' ∉ ws := by
  intro h
  exact absurd (hws _ h) (by decide)

theorem not_mem_count {c : Char} {x : Text} (h : c ∉ x) : x.count c = 0 := List.count_eq_zero.2 h

theorem count_nameAttr : nameAttr.count '"' = 1 := by decide

theorem IsNameTag.count {opener n w : Text} (hopener : '"' ∉ opener) (h : IsNameTag opener n w) :
    w.count '"' = 2 := by
  obtain ⟨ws, ws', -, hws, -, hq, hws', rfl⟩ := h
  simp only [List.count_append, List.count_cons, not_mem_count hopener,
    not_mem_count (blank_no_quote hws), not_mem_count (blank_no_quote hws'), not_mem_count hq,
    count_nameAttr]
  decide

/-- A tag split at its first quote. -/
theorem IsNameTag.split {opener n w : Text} (hopener : '"' ∉ opener) (h : IsNameTag opener n w) :
    ∃ a ws, '"' ∉ a ∧ '"' ∉ n ∧ Blank ws ∧ w = a ++ '"' :: (n ++ '"' :: (ws ++ ['>'])) := by
  obtain ⟨ws, ws', -, hws, -, hq, hws', rfl⟩ := h
  refine ⟨opener ++ (ws ++ "name=".toList), ws', ?_, hq, hws', ?_⟩
  · simp only [List.mem_append, not_or]
    exact ⟨hopener, blank_no_quote hws, by decide⟩
  · simp only [List.append_assoc]
    rfl

theorem nameTag_tight {opener : Text} (hopener : '"' ∉ opener) : Tight (nameTag opener) where
  extend := by
    intro b g r h x
    obtain ⟨w, hw, rfl⟩ := nameTag_eq_some.1 h
    exact nameTag_eq_some.2 ⟨w, hw, List.append_assoc _ _ _⟩
  word := by
    intro b g r h
    obtain ⟨w, hw, rfl⟩ := nameTag_eq_some.1 h
    refine ⟨w, ?_, rfl, nameTag_eq_some.2 ⟨w, hw, (List.append_nil w).symm⟩⟩
    obtain ⟨a, ws, -, -, -, rfl⟩ := hw.split hopener
    simp
  ends := by
    rintro u w v ⟨g, hg⟩ ⟨g', hg'⟩
    obtain ⟨w₁, hw₁, heq₁⟩ := nameTag_eq_some.1 hg
    obtain ⟨w₂, hw₂, heq₂⟩ := nameTag_eq_some.1 hg'
    rw [List.append_nil] at heq₁ heq₂
    subst heq₂
    have hcount := hw₁.count hopener
    rw [← heq₁, List.count_append, List.count_append, hw₂.count hopener] at hcount
    have hu : '"' ∉ u := List.count_eq_zero.1 (by omega)
    obtain ⟨a₁, ws₁, ha₁, hn₁, hws₁, rfl⟩ := hw₁.split hopener
    obtain ⟨a₂, ws₂, ha₂, hn₂, hws₂, rfl⟩ := hw₂.split hopener
    simp only [List.append_assoc, List.cons_append] at heq₁
    rw [← List.append_assoc] at heq₁
    have h₁ := append_cons_inj (by simp [hu, ha₂]) ha₁ heq₁
    have h₂ := append_cons_inj hn₂ hn₁ h₁.2
    exact tagEnd_unique hws₂ hws₁ h₂.2

theorem IsParamTag.nameTag {opener w : Text} {g : Text × Option Bool} (h : IsParamTag opener g w)
    (hg : g.2 = none) : IsNameTag opener g.1 w := by
  obtain ⟨ws, ws', ws'', hne, hws, hn, hq, -, hnone, hws'', rfl⟩ := h
  refine ⟨ws, ws'', hne, hws, hn, hq, hws'', ?_⟩
  rw [hnone.1 hg, hg]
  rfl

/-- A tag with both attributes, split at its quotes. -/
theorem IsParamTag.split {opener w : Text} {g : Text × Option Bool} {b : Bool}
    (hopener : '"' ∉ opener) (h : IsParamTag opener g w) (hg : g.2 = some b) :
    ∃ a ws' d ws, '"' ∉ a ∧ '"' ∉ g.1 ∧ Blank ws' ∧ (∃ c d', d = c :: d' ∧ isSpace c = false ∧
      c ≠ '>') ∧ '"' ∉ d ∧ Blank ws ∧
      w = a ++ '"' :: (g.1 ++ '"' :: (ws' ++ ("string=".toList ++ '"' :: (d ++ '"' ::
        (ws ++ ['>']))))) := by
  obtain ⟨ws, ws', ws'', -, hws, -, hq, hws', -, hws'', rfl⟩ := h
  have ha : '"' ∉ opener ++ (ws ++ "name=".toList) := by
    simp only [List.mem_append, not_or]
    exact ⟨hopener, blank_no_quote hws, by decide⟩
  rw [hg]
  cases b
  · refine ⟨_, ws', "false".toList, ws'', ha, hq, hws', ⟨'f', _, rfl, by decide, by decide⟩,
      by decide, hws'', ?_⟩
    simp only [attrText, List.append_assoc]
    rfl
  · refine ⟨_, ws', "true".toList, ws'', ha, hq, hws', ⟨'t', _, rfl, by decide, by decide⟩,
      by decide, hws'', ?_⟩
    simp only [attrText, List.append_assoc]
    rfl

theorem IsParamTag.count {opener w : Text} {g : Text × Option Bool} (hopener : '"' ∉ opener)
    (h : IsParamTag opener g w) : w.count '"' = if g.2 = none then 2 else 4 := by
  cases hg : g.2 with
  | none => exact (h.nameTag hg).count hopener
  | some b =>
      obtain ⟨a, ws', d, ws, ha, hn, hws', -, hd, hws, rfl⟩ := h.split hopener hg
      simp only [List.count_append, List.count_cons, not_mem_count ha, not_mem_count hn,
        not_mem_count (blank_no_quote hws'), not_mem_count hd, not_mem_count (blank_no_quote hws)]
      rw [if_neg (Option.some_ne_none b)]
      decide

/-- What stands after the last quote of a tag. -/
theorem IsParamTag.last {opener w : Text} {g : Text × Option Bool} (hopener : '"' ∉ opener)
    (h : IsParamTag opener g w) : ∃ a ws, Blank ws ∧ w = a ++ '"' :: (ws ++ ['>']) := by
  cases hg : g.2 with
  | none =>
      obtain ⟨a, ws, -, -, hws, rfl⟩ := (h.nameTag hg).split hopener
      exact ⟨a ++ '"' :: g.1, ws, hws, by simp only [List.append_assoc, List.cons_append]⟩
  | some b =>
      obtain ⟨a, ws', d, ws, -, -, -, -, -, hws, rfl⟩ := h.split hopener hg
      refine ⟨a ++ '"' :: (g.1 ++ '"' :: (ws' ++ ("string=".toList ++ '"' :: d))), ws, hws, ?_⟩
      simp only [List.append_assoc, List.cons_append]

/-- The part of a text after its last separator is decided by the separator. -/
theorem append_cons_inj_right {q : Char} {x x' y y' : Text} (hy : q ∉ y) (hy' : q ∉ y')
    (h : x ++ q :: y = x' ++ q :: y') : x = x' ∧ y = y' := by
  have hrev := congrArg List.reverse h
  simp only [List.reverse_append, List.reverse_cons, List.append_assoc, List.singleton_append]
    at hrev
  obtain ⟨hy₁, hx₁⟩ := append_cons_inj (by simpa using hy) (by simpa using hy') hrev
  exact ⟨List.reverse_injective hx₁, List.reverse_injective hy₁⟩

theorem paramTag_tight {opener : Text} (hopener : '"' ∉ opener) : Tight (paramTag opener) where
  extend := by
    intro b g r h x
    obtain ⟨w, hw, rfl⟩ := paramTag_eq_some.1 h
    exact paramTag_eq_some.2 ⟨w, hw, List.append_assoc _ _ _⟩
  word := by
    intro b g r h
    obtain ⟨w, hw, rfl⟩ := paramTag_eq_some.1 h
    refine ⟨w, ?_, rfl, paramTag_eq_some.2 ⟨w, hw, (List.append_nil w).symm⟩⟩
    obtain ⟨a, ws, -, rfl⟩ := hw.last hopener
    simp
  ends := by
    rintro u w v ⟨g, hg⟩ ⟨g', hg'⟩
    obtain ⟨w₁, hw₁, heq₁⟩ := paramTag_eq_some.1 hg
    obtain ⟨w₂, hw₂, heq₂⟩ := paramTag_eq_some.1 hg'
    rw [List.append_nil] at heq₁ heq₂
    subst heq₂
    by_cases hv : '"' ∈ v
    · -- the second quote of the inner tag is followed by its end, which the outer one has not
      exfalso
      have hcount : u.count '"' + (w.count '"' + v.count '"') = w₁.count '"' := by
        rw [← heq₁, List.count_append, List.count_append]
      have hpos := List.count_pos_iff.2 hv
      have hcount₂ := hw₂.count hopener
      cases hg₁ : g.2 with
      | none =>
          rw [hw₁.count hopener, hg₁, if_pos rfl] at hcount
          split at hcount₂ <;> omega
      | some b =>
          rw [hw₁.count hopener, hg₁, if_neg (by simp)] at hcount
          have hg₂ : g'.2 = none := by
            by_contra hne
            rw [if_neg hne] at hcount₂
            omega
          rw [if_pos hg₂] at hcount₂
          obtain ⟨a₁, ws₁, d, ws₂, ha₁, hn₁, hws₁, ⟨c, d', rfl, hc, hc'⟩, hd, hws₂, rfl⟩ :=
            hw₁.split hopener hg₁
          obtain ⟨a₂, ws₃, ha₂, hn₂, hws₃, rfl⟩ := (hw₂.nameTag hg₂).split hopener
          simp only [List.append_assoc, List.cons_append, List.nil_append] at heq₁
          by_cases hu : '"' ∈ u
          · obtain ⟨u₁, u₂, rfl⟩ := List.append_of_mem hu
            rw [List.count_append, List.count_cons_self] at hcount
            have hu₁ : '"' ∉ u₁ := List.count_eq_zero.1 (by omega)
            have hu₂ : '"' ∉ u₂ := List.count_eq_zero.1 (by omega)
            simp only [List.append_assoc, List.cons_append] at heq₁
            have h₁ := append_cons_inj hu₁ ha₁ heq₁
            have h₂ := append_cons_inj (x := u₂ ++ a₂) (by simp [hu₂, ha₂]) hn₁
              (by simpa only [List.append_assoc] using h₁.2)
            have hattr : '"' ∉ ws₁ ++ "string=".toList := by
              simp only [List.mem_append, not_or]
              exact ⟨blank_no_quote hws₁, by decide⟩
            have h₃ := append_cons_inj (x := g'.1) hn₂ hattr
              (by simpa only [List.append_assoc] using h₂.2)
            have hblank : Blank [] := by simp [Blank]
            have h₄ := blank_append_inj hws₃ hblank (by decide) hc h₃.2
            exact hc' h₄.2.1.symm
          · have h₁ := append_cons_inj (x := u ++ a₂) (by simp [hu, ha₂]) ha₁
              (by simpa only [List.append_assoc] using heq₁)
            have h₂ := append_cons_inj hn₂ hn₁ h₁.2
            have hs : ws₃ ++ '>' :: v = ws₁ ++ 's' :: ("tring=".toList ++ '"' :: (c :: d' ++ '"' ::
              (ws₂ ++ ['>']))) := h₂.2
            have h₃ := (blank_append_inj hws₃ hws₁ (by decide) (by decide) hs).2.1
            exact absurd h₃ (by decide)
    · obtain ⟨a₁, ws₁, hws₁, rfl⟩ := hw₁.last hopener
      obtain ⟨a₂, ws₂, hws₂, rfl⟩ := hw₂.last hopener
      simp only [List.append_assoc, List.cons_append, List.nil_append] at heq₁
      have hy : '"' ∉ ws₂ ++ '>' :: v := by
        simp [blank_no_quote hws₂, hv]
      have hy' : '"' ∉ ws₁ ++ ['>'] := by
        simp [blank_no_quote hws₁]
      have h₁ := append_cons_inj_right (x := u ++ a₂) hy hy'
        (by simpa only [List.append_assoc] using heq₁)
      exact tagEnd_unique hws₂ hws₁ h₁.2

theorem nameTag_length {opener w : Text} (h : Matches (nameTag opener) w) :
    opener.length ≤ w.length := by
  obtain ⟨g, hg⟩ := h
  obtain ⟨v, ⟨ws, ws', -, -, -, -, -, rfl⟩, rfl⟩ := nameTag_eq_some.1 hg
  simp only [List.length_append]
  omega

theorem paramTag_length {opener w : Text} (h : Matches (paramTag opener) w) :
    opener.length ≤ w.length := by
  obtain ⟨g, hg⟩ := h
  obtain ⟨v, ⟨ws, ws', ws'', -, -, -, -, -, -, -, rfl⟩, rfl⟩ := paramTag_eq_some.1 hg
  simp only [List.length_append]
  omega

end FreeToken
