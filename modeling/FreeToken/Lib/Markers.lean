import FreeToken.Lib.Pattern
import FreeToken.Lib.Transducer

/-!
# Reading a text up to its markers

A reader passes over text as long as no marker can start where it stands.  The position of the first
marker, and the partial marker a text ends with, say how far it gets.
-/

set_option autoImplicit false

namespace Search

variable {α : Type} {toks : List (List α)} {tok text out rest : List α}

/-- The marker and the text agree as far as both go. -/
def Meets (tok text : List α) : Prop := tok <+: text ∨ text <+: tok

instance [DecidableEq α] (tok text : List α) : Decidable (Meets tok text) :=
  inferInstanceAs (Decidable (_ ∨ _))

/-- No marker can start in `out`, whatever comes after `rest`. -/
def Clear (toks : List (List α)) (out rest : List α) : Prop :=
  ∀ i < out.length, ∀ t ∈ toks, ¬ Meets t (out.drop i ++ rest)

theorem Clear.nil (toks : List (List α)) (rest : List α) : Clear toks [] rest :=
  fun _ hi => absurd hi (Nat.not_lt_zero _)

theorem clear_cons {c : α} : Clear toks (c :: out) rest ↔
    (∀ t ∈ toks, ¬ Meets t (c :: (out ++ rest))) ∧ Clear toks out rest := by
  constructor
  · intro h
    refine ⟨fun t ht => h 0 (Nat.succ_pos _) t ht, fun i hi t ht => ?_⟩
    exact h (i + 1) (Nat.succ_lt_succ hi) t ht
  · rintro ⟨hhead, htail⟩ i hi t ht
    cases i with
    | zero => exact hhead t ht
    | succ i => exact htail i (Nat.lt_of_succ_lt_succ hi) t ht

theorem meets_append_iff {c : α} {x y : List α} (h : tok = c :: x) :
    Meets tok (c :: y) ↔ Meets x y := by
  subst h
  unfold Meets
  rw [List.cons_prefix_cons, List.cons_prefix_cons]
  simp

/-- A text that does not agree with the marker does not start to when it grows. -/
theorem Meets.of_append {x : List α} (h : Meets tok (text ++ x)) : Meets tok text := by
  rcases h with h | h
  · rcases Nat.le_total tok.length text.length with hle | hle
    · exact .inl (List.prefix_of_prefix_length_le h (List.prefix_append _ _) hle)
    · exact .inr (List.prefix_of_prefix_length_le (List.prefix_append _ _) h hle)
  · exact .inr ((List.prefix_append _ _).trans h)

theorem meets_of_both {t t' : List α} (h : t <+: text) (h' : t' <+: text) : Meets t t' := by
  rcases Nat.le_total t.length t'.length with hle | hle
  · exact .inl (List.prefix_of_prefix_length_le h h' hle)
  · exact .inr (List.prefix_of_prefix_length_le h' h hle)

theorem Meets.symm {t t' : List α} (h : Meets t t') : Meets t' t := Or.symm h

theorem Clear.append {x : List α} (h : Clear toks out rest) : Clear toks out (rest ++ x) := by
  intro i hi t ht hmeets
  rw [← List.append_assoc] at hmeets
  exact h i hi t ht hmeets.of_append

/-- A run of text with no marker in it is passed over, one element at a time. -/
theorem Clear.runs {S E : Type} {turn : S → List α → Option (S × List α × List E)} {s : S}
    {emit : α → List E} (hturn : ∀ c b, (∀ t ∈ toks, ¬ Meets t (c :: b)) →
      turn s (c :: b) = some (s, b, emit c)) (h : Clear toks out rest) :
    Transducer.Runs turn s (out ++ rest) (out.flatMap emit) s rest := by
  induction out with
  | nil => exact .refl s rest
  | cons c out ih =>
      obtain ⟨hhead, htail⟩ := clear_cons.1 h
      rw [List.flatMap_cons]
      exact .step (hturn c _ hhead) (ih htail)

/-! ## Where the first marker stands -/

variable {c : α}

theorem StartsOnly.not_mem_tail (h : StartsOnly c tok) {i : Nat} (hi : 0 < i) :
    tok[i]? ≠ some c := by
  obtain ⟨body, rfl, hbody⟩ := h
  intro hget
  obtain ⟨j, rfl⟩ := Nat.exists_eq_add_of_lt hi
  rw [Nat.zero_add, List.getElem?_cons_succ] at hget
  exact hbody (List.mem_of_getElem? hget)

theorem StartsOnly.getElem?_zero (h : StartsOnly c tok) : tok[0]? = some c := by
  obtain ⟨body, rfl, -⟩ := h
  rfl

/-- A marker that stands in the text makes what comes before it clear of the markers that do not
start there. -/
theorem clear_of_occursAt (hstart : ∀ t ∈ toks, StartsOnly c t) {pos : Nat}
    (htok : StartsOnly c tok) (hocc : OccursAt tok text pos)
    (hfirst : ∀ t ∈ toks, ∀ j < pos, ¬ OccursAt t text j) :
    Clear toks (text.take pos) (text.drop pos) := by
  intro i hi t ht hmeets
  rw [List.length_take] at hi
  have hdrop : (text.take pos).drop i ++ text.drop pos = text.drop i := by
    conv_rhs => rw [← List.take_append_drop pos text]
    rw [List.drop_append_of_le_length (by rw [List.length_take]; omega)]
  rw [hdrop] at hmeets
  rcases hmeets with h | h
  · exact hfirst t ht i (by omega) h
  · obtain ⟨s, hs⟩ := h
    have hget : text[pos]? = some c := by
      obtain ⟨z, hz⟩ := hocc
      have := congrArg (fun l => l[0]?) hz
      rw [List.getElem?_append_left (List.length_pos_iff.2 htok.ne_nil), htok.getElem?_zero,
        List.getElem?_drop, Nat.add_zero] at this
      exact this.symm
    refine (hstart t ht).not_mem_tail (i := pos - i) (by omega) ?_
    have hlen := (List.getElem?_eq_some_iff.1 hget).1
    rw [← hs, List.getElem?_append_left (by rw [List.length_drop]; omega), List.getElem?_drop,
      Nat.add_sub_cancel' (by omega), hget]

/-! ## Markers and their turns -/

section Marks

variable {S E : Type}

/-- A marker and the turn that is taken where it stands. -/
structure Mark (α S E : Type) where
  tok : List α
  act : List α → Option (S × List α × List E)

namespace Mark

/-- A marker that is passed over. -/
def pass (tok : List α) (s : S) (es : List E) : Mark α S E :=
  ⟨tok, fun b => some (s, b.drop tok.length, es)⟩

/-- A marker that opens a tag; the turn is taken when the tag is whole. -/
def tag {G : Type} (tok : List α) (p : List α → Option (G × List α)) (f : G → S × List E) :
    Mark α S E :=
  ⟨tok, fun b => (Pattern.search p b).map fun q => ((f q.1).1, q.2, (f q.1).2)⟩

@[simp] theorem pass_tok (tok : List α) (s : S) (es : List E) : (pass tok s es).tok = tok := rfl

@[simp] theorem tag_tok {G : Type} (tok : List α) (p : List α → Option (G × List α))
    (f : G → S × List E) : (tag tok p f).tok = tok := rfl

/-- The turn does not depend on what comes later, and takes something. -/
def Steady (m : Mark α S E) : Prop :=
  ∀ {b s b' o}, m.tok <+: b → m.act b = some (s, b', o) →
    (∀ x, m.act (b ++ x) = some (s, b' ++ x, o)) ∧ Transducer.Takes b b'

theorem pass_steady {tok : List α} (hne : tok ≠ []) (s : S) (es : List E) :
    (pass tok s es).Steady := by
  intro b s' b' o hpre h
  obtain ⟨t, rfl⟩ := hpre
  unfold pass at h ⊢
  cases h
  dsimp only
  refine ⟨fun x => ?_, tok, hne, ?_⟩
  · rw [List.append_assoc, List.drop_left, List.drop_left]
  · rw [List.drop_left]

theorem tag_steady {G : Type} {p : List α → Option (G × List α)} (hp : Pattern.Tight p)
    (tok : List α) (f : G → S × List E) : (tag tok p f).Steady := by
  intro b s' b' o _ h
  obtain ⟨⟨g, r⟩, hfind, heq⟩ := Option.map_eq_some_iff.1 h
  cases heq
  refine ⟨fun x => ?_, hp.search_word hfind⟩
  unfold tag
  dsimp only
  rw [hp.search_append hfind x]
  rfl

/-- A turn that leaves the text that was added is the turn without it. -/
def Cuts (m : Mark α S E) : Prop :=
  ∀ {u z s u' o}, m.tok <+: u ++ z → m.act (u ++ z) = some (s, u' ++ z, o) →
    m.tok <+: u ∧ m.act u = some (s, u', o)

theorem pass_cuts (tok : List α) (s : S) (es : List E) : (pass tok s es).Cuts := by
  intro u z s' u' o hpre h
  unfold pass at h
  simp only [Option.some.injEq, Prod.mk.injEq] at h
  obtain ⟨rfl, hdrop, rfl⟩ := h
  have hlen := congrArg List.length hdrop
  have hle := hpre.length_le
  rw [List.length_drop, List.length_append, List.length_append] at hlen
  rw [pass_tok, List.length_append] at hle
  have htok : tok.length ≤ u.length := by omega
  refine ⟨List.prefix_of_prefix_length_le hpre (List.prefix_append _ _) htok, ?_⟩
  rw [List.drop_append_of_le_length htok, List.append_cancel_right_eq] at hdrop
  unfold pass
  dsimp only
  rw [hdrop]

theorem tag_cuts {G : Type} {p : List α → Option (G × List α)} (hp : Pattern.Tight p)
    {tok : List α} (hlen : ∀ w, Pattern.Matches p w → tok.length ≤ w.length) (f : G → S × List E) :
    (tag tok p f).Cuts := by
  intro u z s' u' o hpre h
  unfold tag at h
  obtain ⟨⟨g, r⟩, hfind, heq⟩ := Option.map_eq_some_iff.1 h
  simp only [Prod.mk.injEq] at heq
  obtain ⟨rfl, rfl, rfl⟩ := heq
  have hcut := hp.search_of_append hfind
  refine ⟨List.prefix_of_prefix_length_le hpre (List.prefix_append _ _) ?_, ?_⟩
  · obtain ⟨v, t, rfl, ht, -⟩ := Pattern.search_eq_some hcut
    obtain ⟨w, -, rfl, hw⟩ := hp.word ht
    have := hlen w ⟨_, hw⟩
    rw [List.length_append, List.length_append, tag_tok]
    omega
  · unfold tag
    dsimp only
    rw [hcut]
    rfl

end Mark

end Marks

/-! ## The partial marker a text ends with -/

variable [DecidableEq α]

/-- The length of the shortest suffix that a token, longer than it, starts with. -/
def shortPartial (text tok : List α) : Nat :=
  ((List.range' 1 (min (text.length + 1) tok.length - 1)).find? fun i =>
    decide (text.drop (text.length - i) <+: tok)).getD 0

theorem shortPartial_spec (text tok : List α) (h : shortPartial text tok ≠ 0) :
    shortPartial text tok ≤ text.length ∧ shortPartial text tok < tok.length ∧
      text.drop (text.length - shortPartial text tok) <+: tok := by
  unfold shortPartial at h ⊢
  rcases Option.eq_none_or_eq_some ((List.range' 1 (min (text.length + 1) tok.length - 1)).find?
    fun i => decide (text.drop (text.length - i) <+: tok)) with hn | ⟨k, hk⟩
  · rw [hn] at h
    exact absurd rfl h
  · rw [hk, Option.getD_some]
    have hpre := List.find?_some hk
    have hmem := List.mem_of_find?_eq_some hk
    rw [List.mem_range'_1] at hmem
    exact ⟨by omega, by omega, by simpa using hpre⟩

theorem shortPartial_ne_zero {k : Nat} (hpos : 0 < k) (hle : k ≤ text.length) (hlt : k < tok.length)
    (hpre : text.drop (text.length - k) <+: tok) : shortPartial text tok ≠ 0 := by
  unfold shortPartial
  rcases Option.eq_none_or_eq_some ((List.range' 1 (min (text.length + 1) tok.length - 1)).find?
    fun i => decide (text.drop (text.length - i) <+: tok)) with hn | ⟨j, hj⟩
  · rw [List.find?_eq_none] at hn
    exact absurd (decide_eq_true hpre) (hn k (List.mem_range'_1.2 ⟨hpos, by omega⟩))
  · rw [hj, Option.getD_some]
    have := List.mem_of_find?_eq_some hj
    rw [List.mem_range'_1] at this
    omega

/-- A token that has its first element nowhere else leaves one length. -/
theorem StartsOnly.shortPartial_eq (h : StartsOnly c tok) {k : Nat} (hpos : 0 < k)
    (hle : k ≤ text.length) (hlt : k < tok.length)
    (hpre : text.drop (text.length - k) <+: tok) : shortPartial text tok = k := by
  have hne := shortPartial_ne_zero hpos hle hlt hpre
  obtain ⟨hle', hlt', hpre'⟩ := shortPartial_spec text tok hne
  generalize shortPartial text tok = j at *
  have hhead : ∀ m, 0 < m → m ≤ text.length → text.drop (text.length - m) <+: tok →
      text[text.length - m]? = some c := by
    rintro m hm hmle ⟨s, hs⟩
    have := h.getElem?_zero
    rwa [← hs, List.getElem?_append_left (by rw [List.length_drop]; omega), List.getElem?_drop,
      Nat.add_zero] at this
  have hlast : ∀ m n, 0 < m → m < n → n ≤ text.length → text.drop (text.length - m) <+: tok →
      text.drop (text.length - n) <+: tok → False := by
    rintro m n hm hmn hn hprem ⟨s, hs⟩
    have hget := hhead m hm (by omega) hprem
    refine h.not_mem_tail (i := n - m) (by omega) ?_
    rw [← hs, List.getElem?_append_left (by rw [List.length_drop]; omega), List.getElem?_drop,
      ← hget]
    congr 1
    omega
  rcases Nat.lt_trichotomy j k with hjk | hjk | hjk
  · exact (hlast j k (by omega) hjk hle hpre' hpre).elim
  · exact hjk
  · exact (hlast k j hpos hjk hle' hpre hpre').elim

/-- The text ends with `h` elements that a marker starts with, and no marker can start before. -/
structure Held (toks : List (List α)) (text : List α) (h : Nat) : Prop where
  le : h ≤ text.length
  clear : Clear toks (text.take (text.length - h)) (text.drop (text.length - h))
  grows : h = 0 ∨ ∃ t ∈ toks, text.drop (text.length - h) <+: t

theorem held_of_shortPartial (hstart : ∀ t ∈ toks, StartsOnly c t) {h : Nat}
    (hnone : ∀ t ∈ toks, find t text = none) (hmax : ∀ t ∈ toks, shortPartial text t ≤ h)
    (hspec : h = 0 ∨ ∃ t ∈ toks, h = shortPartial text t) : Held toks text h := by
  have hle : h ≤ text.length := by
    rcases hspec with rfl | ⟨t, ht, rfl⟩
    · exact Nat.zero_le _
    · by_cases hz : shortPartial text t = 0
      · omega
      · exact (shortPartial_spec text t hz).1
  refine ⟨hle, fun i hi t ht hmeets => ?_, ?_⟩
  · rw [List.length_take] at hi
    have hdrop : (text.take (text.length - h)).drop i ++ text.drop (text.length - h) =
        text.drop i := by
      conv_rhs => rw [← List.take_append_drop (text.length - h) text]
      rw [List.drop_append_of_le_length (by rw [List.length_take]; omega)]
    rw [hdrop] at hmeets
    have hocc : ¬ t <+: text.drop i := find_eq_none.1 (hnone t ht) i
    rcases hmeets with hpre | hpre
    · exact hocc hpre
    · have hlen := hpre.length_le
      rw [List.length_drop] at hlen
      by_cases hlt : text.length - i < t.length
      · have heq : shortPartial text t = text.length - i :=
          (hstart t ht).shortPartial_eq (by omega) (by omega) hlt
            (by rwa [Nat.sub_sub_self (by omega)])
        have := hmax t ht
        omega
      · have heq : text.drop i = t := hpre.eq_of_length (by rw [List.length_drop]; omega)
        exact hocc (by rw [heq])
  · rcases hspec with hz | ⟨t, ht, rfl⟩
    · exact .inl hz
    · by_cases hz : shortPartial text t = 0
      · exact .inl hz
      · exact .inr ⟨t, ht, (shortPartial_spec text t hz).2.2⟩

/-! ## Readers -/

section Reader

variable {S E : Type}

/-- No marker agrees with another one. -/
def Apart (marks : List (Mark α S E)) : Prop :=
  marks.Pairwise fun m m' => ¬ Meets m.tok m'.tok

/-- The turn of the marker the text begins with, or the turn of a plain element; none while a marker
may still come to stand here. -/
def read (marks : List (Mark α S E)) (plain : α → List α → Option (S × List α × List E))
    (b : List α) : Option (S × List α × List E) :=
  match marks.find? fun m => decide (m.tok <+: b) with
  | some m => m.act b
  | none =>
      if marks.any fun m => decide (b <+: m.tok) then none
      else
        match b with
        | [] => none
        | c :: t => plain c t

variable {marks : List (Mark α S E)} {plain : α → List α → Option (S × List α × List E)}
  {m : Mark α S E} {b : List α}

theorem Apart.find? (hapart : Apart marks) (hm : m ∈ marks) (hpre : m.tok <+: b) :
    marks.find? (fun m => decide (m.tok <+: b)) = some m := by
  induction marks with
  | nil => cases hm
  | cons m' marks ih =>
      obtain ⟨hhead, htail⟩ := List.pairwise_cons.1 hapart
      rw [List.find?_cons]
      rcases List.mem_cons.1 hm with rfl | hm
      · simp [hpre]
      · have hnot : ¬ m'.tok <+: b := fun h => hhead m hm (meets_of_both h hpre)
        simp only [hnot, decide_false]
        exact ih htail hm

/-- At a marker. -/
theorem read_mark (hapart : Apart marks) (hm : m ∈ marks) (hpre : m.tok <+: b) :
    read marks plain b = m.act b := by
  unfold read
  rw [hapart.find? hm hpre]

/-- At an element no marker agrees with. -/
theorem read_plain {c : α} {t : List α} (h : ∀ m ∈ marks, ¬ Meets m.tok (c :: t)) :
    read marks plain (c :: t) = plain c t := by
  unfold read
  have hnone : marks.find? (fun m => decide (m.tok <+: c :: t)) = none := by
    rw [List.find?_eq_none]
    intro m hm hpre
    exact h m hm (.inl (of_decide_eq_true hpre))
  have hany : marks.any (fun m => decide (c :: t <+: m.tok)) = false := by
    rw [List.any_eq_false]
    intro m hm hpre
    exact h m hm (.inr (of_decide_eq_true hpre))
  rw [hnone]
  simp [hany]

/-- Before a marker that is not whole yet. -/
theorem read_wait (hapart : Apart marks) (hm : m ∈ marks) (hpre : b <+: m.tok)
    (hlt : b.length < m.tok.length) : read marks plain b = none := by
  unfold read
  have hnone : marks.find? (fun m => decide (m.tok <+: b)) = none := by
    rw [List.find?_eq_none]
    intro m' hm' hpre'
    have hpre' := of_decide_eq_true hpre'
    have hfind := hapart.find? hm' (hpre'.trans hpre)
    rw [hapart.find? hm (List.prefix_refl _), Option.some.injEq] at hfind
    subst hfind
    have := hpre'.length_le
    omega
  rw [hnone]
  have hany : marks.any (fun m => decide (b <+: m.tok)) = true :=
    List.any_eq_true.2 ⟨m, hm, decide_eq_true hpre⟩
  simp [hany]

/-- What a reader can do stays the same when text is added. -/
theorem read_append (hapart : Apart marks) (hsteady : ∀ m ∈ marks, m.Steady)
    (hplain : ∀ {c t s b' o}, plain c t = some (s, b', o) →
      ∀ x, plain c (t ++ x) = some (s, b' ++ x, o))
    {s : S} {b' : List α} {o : List E} (h : read marks plain b = some (s, b', o)) (x : List α) :
    read marks plain (b ++ x) = some (s, b' ++ x, o) := by
  have hcopy := h
  unfold read at h
  split at h
  · rename_i m hfind
    have hm := List.mem_of_find?_eq_some hfind
    have hpre : m.tok <+: b := by simpa using List.find?_some hfind
    rw [read_mark hapart hm (hpre.trans (List.prefix_append b x))]
    exact (hsteady m hm hpre h).1 x
  · rename_i hfind
    split at h
    · cases h
    · rename_i hany
      cases b with
      | nil => cases h
      | cons c t =>
          rw [List.find?_eq_none] at hfind
          rw [Bool.not_eq_true, List.any_eq_false] at hany
          rw [List.cons_append, read_plain]
          · exact hplain h x
          · intro m hm hmeets
            rw [← List.cons_append] at hmeets
            rcases hmeets.of_append with hpre | hpre
            · exact hfind m hm (decide_eq_true hpre)
            · exact hany m hm (decide_eq_true hpre)

theorem read_takes (hsteady : ∀ m ∈ marks, m.Steady)
    (hplain : ∀ {c t s b' o}, plain c t = some (s, b', o) → b' <:+ t)
    {s : S} {b' : List α} {o : List E} (h : read marks plain b = some (s, b', o)) :
    Transducer.Takes b b' := by
  unfold read at h
  split at h
  · rename_i m hfind
    exact (hsteady m (List.mem_of_find?_eq_some hfind) (by simpa using List.find?_some hfind) h).2
  · split at h
    · cases h
    · cases b with
      | nil => cases h
      | cons c t =>
          obtain ⟨w, rfl⟩ := hplain h
          exact ⟨c :: w, List.cons_ne_nil c w, rfl⟩

/-- What a reader did before text that it leaves: the turn of a marker, or it passed over an
element. -/
theorem read_cases (hcuts : ∀ m ∈ marks, m.Cuts) {emit : α → List E} {s s' : S} {u u' z : List α}
    {o : List E}
    (h : read marks (fun c t => some (s, t, emit c)) (u ++ z) = some (s', u' ++ z, o)) :
    (∃ m ∈ marks, m.tok <+: u ∧ m.act u = some (s', u', o)) ∨
      (∃ d, u = d :: u' ∧ s' = s ∧ o = emit d ∧ ∀ m ∈ marks, ¬ Meets m.tok (u ++ z)) := by
  unfold read at h
  split at h
  · rename_i m hfind
    have hpre : m.tok <+: u ++ z := by simpa using List.find?_some hfind
    exact .inl ⟨m, List.mem_of_find?_eq_some hfind,
      hcuts m (List.mem_of_find?_eq_some hfind) hpre h⟩
  · rename_i hfind
    split at h
    · cases h
    · rename_i hany
      rw [List.find?_eq_none] at hfind
      rw [Bool.not_eq_true, List.any_eq_false] at hany
      split at h
      · cases h
      · rename_i c t heq
        simp only [Option.some.injEq, Prod.mk.injEq] at h
        obtain ⟨rfl, rfl, rfl⟩ := h
        right
        have hu : u = c :: u' := List.append_cancel_right (heq.trans (List.cons_append ..).symm)
        refine ⟨c, hu, rfl, rfl, fun m hm hmeets => ?_⟩
        rcases hmeets with hpre | hpre
        · exact hfind m hm (decide_eq_true hpre)
        · exact hany m hm (decide_eq_true hpre)

/-- Without the text it leaves, a reader does the same, or waits for a marker to come. -/
theorem read_cut (hapart : Apart marks) (hcuts : ∀ m ∈ marks, m.Cuts) {c : α}
    (hstart : ∀ m ∈ marks, StartsOnly c m.tok) {emit : α → List E} {s s' : S} {u u' z : List α}
    {o : List E}
    (h : read marks (fun c t => some (s, t, emit c)) (u ++ z) = some (s', u' ++ z, o)) :
    read marks (fun c t => some (s, t, emit c)) u = some (s', u', o) ∨
      (read marks (fun c t => some (s, t, emit c)) u = none ∧ s' = s ∧
        ∃ d, u = d :: u' ∧ c ∉ u') := by
  rcases read_cases hcuts h with ⟨m, hm, hpre, hact⟩ | ⟨d, rfl, rfl, rfl, hnot⟩
  · exact .inl ((read_mark hapart hm hpre).trans hact)
  · by_cases hmeets : ∃ m ∈ marks, Meets m.tok (d :: u')
    · right
      obtain ⟨m, hm, hpre | hpre⟩ := hmeets
      · exact absurd (.inl (hpre.trans (List.prefix_append _ _))) (hnot m hm)
      · obtain ⟨body, hbody, hc⟩ := hstart m hm
        refine ⟨read_wait hapart hm hpre (Nat.lt_of_not_le fun hle => ?_), rfl, d, rfl, ?_⟩
        · have heq := hpre.eq_of_length (Nat.le_antisymm hpre.length_le hle)
          refine hnot m hm (.inl ?_)
          rw [heq]
          exact List.prefix_append _ _
        · rw [hbody, List.cons_prefix_cons] at hpre
          exact fun hmem => hc (hpre.2.subset hmem)
    · left
      rw [read_plain fun m hm hm' => hmeets ⟨m, hm, hm'⟩]

/-! ## Passing over text -/

section Passing

variable {turn : S → List α → Option (S × List α × List E)} {s : S} {emit : α → List E} {c : α}

/-- The reader passes over text up to the first marker, and takes its turn there. -/
theorem runs_to_mark (hturn : ∀ b, turn s b = read marks (fun c t => some (s, t, emit c)) b)
    (hapart : Apart marks) (hstart : ∀ m ∈ marks, StartsOnly c m.tok) (hm : m ∈ marks) {pos : Nat}
    (hocc : OccursAt m.tok b pos) (hfirst : ∀ m' ∈ marks, ∀ j < pos, ¬ OccursAt m'.tok b j) :
    Transducer.Runs turn s b ((b.take pos).flatMap emit) s (b.drop pos) ∧
      turn s (b.drop pos) = m.act (b.drop pos) := by
  have hclear : Clear (marks.map Mark.tok) (b.take pos) (b.drop pos) := by
    refine clear_of_occursAt (c := c) ?_ (hstart m hm) hocc ?_
    · intro t ht
      obtain ⟨m', hm', rfl⟩ := List.mem_map.1 ht
      exact hstart m' hm'
    · intro t ht
      obtain ⟨m', hm', rfl⟩ := List.mem_map.1 ht
      exact hfirst m' hm'
  refine ⟨?_, ?_⟩
  · have hruns : Transducer.Runs turn s (b.take pos ++ b.drop pos) ((b.take pos).flatMap emit) s
        (b.drop pos) := hclear.runs fun c' t ht => by
      rw [hturn, read_plain]
      exact fun m' hm' => ht _ (List.mem_map.2 ⟨m', hm', rfl⟩)
    rwa [List.take_append_drop] at hruns
  · rw [hturn, read_mark hapart hm hocc]

/-- The reader passes over text without a marker up to the marker after it. -/
theorem runs_before_mark (hturn : ∀ b, turn s b = read marks (fun c t => some (s, t, emit c)) b)
    (hapart : Apart marks) (hstart : ∀ m ∈ marks, StartsOnly c m.tok) (hm : m ∈ marks) {x : List α}
    (hx : ∀ m' ∈ marks, find m'.tok x = none) {t : List α} (ht : m.tok <+: t) :
    Transducer.Runs turn s (x ++ t) (x.flatMap emit) s t ∧ turn s t = m.act t := by
  have hbegins : Begins c t := by
    obtain ⟨body, hbody, -⟩ := hstart m hm
    obtain ⟨r, rfl⟩ := ht
    rw [hbody]
    exact begins_cons c _
  have hocc : OccursAt m.tok (x ++ t) x.length := by
    unfold OccursAt
    rwa [List.drop_left]
  have h := runs_to_mark hturn hapart hstart hm hocc fun m' hm' =>
    (hstart m' hm').not_occursAt (hx m' hm') hbegins
  rwa [List.take_left, List.drop_left] at h

theorem held_of_marks (hstart : ∀ m ∈ marks, StartsOnly c m.tok) {h : Nat}
    (hnone : ∀ m ∈ marks, find m.tok b = none) (hmax : ∀ m ∈ marks, shortPartial b m.tok ≤ h)
    (hspec : h = 0 ∨ ∃ m ∈ marks, h = shortPartial b m.tok) : Held (marks.map Mark.tok) b h := by
  refine held_of_shortPartial (c := c) ?_ ?_ ?_ ?_
  · intro t ht
    obtain ⟨m', hm', rfl⟩ := List.mem_map.1 ht
    exact hstart m' hm'
  · intro t ht
    obtain ⟨m', hm', rfl⟩ := List.mem_map.1 ht
    exact hnone m' hm'
  · intro t ht
    obtain ⟨m', hm', rfl⟩ := List.mem_map.1 ht
    exact hmax m' hm'
  · exact hspec.imp_right fun ⟨m', hm', heq⟩ => ⟨_, List.mem_map.2 ⟨m', hm', rfl⟩, heq⟩

/-- The reader passes over text without markers. -/
theorem Held.runs (hturn : ∀ b, turn s b = read marks (fun c t => some (s, t, emit c)) b) {h : Nat}
    (hheld : Held (marks.map Mark.tok) b h) {i : Nat} (hi : i ≤ b.length - h) :
    Transducer.Runs turn s b ((b.take i).flatMap emit) s (b.drop i) := by
  have hclear : Clear (marks.map Mark.tok) (b.take i) (b.drop i) := by
    intro j hj t ht hmeets
    rw [List.length_take] at hj
    refine hheld.clear j (by rw [List.length_take]; omega) t ht ?_
    have hdrop : ∀ n, j ≤ n → n ≤ b.length → (b.take n).drop j ++ b.drop n = b.drop j := by
      intro n hjn hn
      conv_rhs => rw [← List.take_append_drop n b]
      rw [List.drop_append_of_le_length (by rw [List.length_take]; omega)]
    rw [hdrop i (by omega) (by omega)] at hmeets
    rwa [hdrop _ (by omega) (Nat.sub_le _ _)]
  have hruns : Transducer.Runs turn s (b.take i ++ b.drop i) ((b.take i).flatMap emit) s
      (b.drop i) := hclear.runs fun c' t ht => by
    rw [hturn, read_plain]
    exact fun m' hm' => ht _ (List.mem_map.2 ⟨m', hm', rfl⟩)
  rwa [List.take_append_drop] at hruns

/-- Before what it holds back, the reader waits. -/
theorem Held.quiet (hturn : ∀ b, turn s b = read marks (fun c t => some (s, t, emit c)) b)
    (hapart : Apart marks) (hstart : ∀ m ∈ marks, StartsOnly c m.tok) (hne : marks ≠ []) {h : Nat}
    (hnone : ∀ m ∈ marks, find m.tok b = none) (hheld : Held (marks.map Mark.tok) b h) :
    turn s (b.drop (b.length - h)) = none := by
  rw [hturn]
  have hle := hheld.le
  rcases hheld.grows with rfl | ⟨t, ht, hpre⟩
  · obtain ⟨m', hm'⟩ := List.exists_mem_of_ne_nil marks hne
    rw [Nat.sub_zero, List.drop_length]
    exact read_wait hapart hm' (List.nil_prefix) (List.length_pos_iff.2 (hstart m' hm').ne_nil)
  · obtain ⟨m', hm', rfl⟩ := List.mem_map.1 ht
    refine read_wait hapart hm' hpre ?_
    have hlen := hpre.length_le
    rcases Nat.lt_or_ge (b.drop (b.length - h)).length m'.tok.length with hlt | hge
    · exact hlt
    · exfalso
      refine find_eq_none.1 (hnone m' hm') (b.length - h) ?_
      have heq := hpre.eq_of_length (Nat.le_antisymm hlen hge)
      unfold OccursAt
      rw [heq]

theorem apart_one (m : Mark α S E) : Apart [m] := by
  simp [Apart]

theorem apart_two {m₁ m₂ : Mark α S E} (h : ¬ Meets m₁.tok m₂.tok) : Apart [m₁, m₂] := by
  simpa [Apart] using h

/-- The only marker is read where it comes first. -/
theorem runs_one (hturn : ∀ b, turn s b = read [m] (fun c t => some (s, t, emit c)) b)
    (hstart : StartsOnly c m.tok) {pos : Nat} (h : find m.tok b = some pos) :
    Transducer.Runs turn s b ((b.take pos).flatMap emit) s (b.drop pos) ∧
      turn s (b.drop pos) = m.act (b.drop pos) :=
  runs_to_mark hturn (apart_one m) (by simpa using hstart) List.mem_cons_self
    (find_eq_some.1 h).1 (by simpa using (find_eq_some.1 h).2)

/-- Without the only marker, the text is passed over up to what it holds back. -/
theorem runs_none (hturn : ∀ b, turn s b = read [m] (fun c t => some (s, t, emit c)) b)
    (hstart : StartsOnly c m.tok) (h : find m.tok b = none) :
    let n := b.length - shortPartial b m.tok
    Transducer.Runs turn s b ((b.take n).flatMap emit) s (b.drop n) ∧ turn s (b.drop n) = none := by
  have hheld : Held ([m].map Mark.tok) b (shortPartial b m.tok) :=
    held_of_marks (c := c) (by simpa using hstart) (by simpa using h) (by simp)
      (.inr ⟨m, List.mem_cons_self, rfl⟩)
  exact ⟨hheld.runs hturn le_rfl,
    hheld.quiet (c := c) hturn (apart_one m) (by simpa using hstart) (by simp)
      (by simpa using h)⟩

theorem forall_mem_two {β : Type} {p : β → Prop} {x y : β} (hx : p x) (hy : p y) :
    ∀ z ∈ [x, y], p z := by
  intro z hz
  simp only [List.mem_cons, List.not_mem_nil, or_false] at hz
  rcases hz with rfl | rfl
  · exact hx
  · exact hy

variable {m₁ m₂ : Mark α S E}

/-- Of two markers, the first one is read when the other does not come before it. -/
theorem runs_first (hturn : ∀ b, turn s b = read [m₁, m₂] (fun c t => some (s, t, emit c)) b)
    (hapart : ¬ Meets m₁.tok m₂.tok) (h₁ : StartsOnly c m₁.tok) (h₂ : StartsOnly c m₂.tok)
    {pos : Nat} (h : find m₁.tok b = some pos) (hle : ∀ i, find m₂.tok b = some i → pos ≤ i) :
    Transducer.Runs turn s b ((b.take pos).flatMap emit) s (b.drop pos) ∧
      turn s (b.drop pos) = m₁.act (b.drop pos) := by
  refine runs_to_mark (c := c) hturn (apart_two hapart)
    (forall_mem_two h₁ h₂) List.mem_cons_self (find_eq_some.1 h).1
    (forall_mem_two (find_eq_some.1 h).2 fun j hj hocc => ?_)
  cases hfind : find m₂.tok b with
  | none => exact find_eq_none.1 hfind j hocc
  | some i =>
      have hi := hle i hfind
      exact (find_eq_some.1 hfind).2 j (by omega) hocc

/-- Of two markers, the second one is read when it comes first. -/
theorem runs_second (hturn : ∀ b, turn s b = read [m₁, m₂] (fun c t => some (s, t, emit c)) b)
    (hapart : ¬ Meets m₁.tok m₂.tok) (h₁ : StartsOnly c m₁.tok) (h₂ : StartsOnly c m₂.tok)
    {pos : Nat} (h : find m₂.tok b = some pos) (hlt : ∀ i, find m₁.tok b = some i → pos < i) :
    Transducer.Runs turn s b ((b.take pos).flatMap emit) s (b.drop pos) ∧
      turn s (b.drop pos) = m₂.act (b.drop pos) := by
  refine runs_to_mark (c := c) hturn (apart_two hapart)
    (forall_mem_two h₁ h₂) (List.mem_cons_of_mem _ List.mem_cons_self)
    (find_eq_some.1 h).1 (forall_mem_two (fun j hj hocc => ?_) (find_eq_some.1 h).2)
  cases hfind : find m₁.tok b with
  | none => exact find_eq_none.1 hfind j hocc
  | some i =>
      have hi := hlt i hfind
      exact (find_eq_some.1 hfind).2 j (by omega) hocc

/-- Without either marker, the text is passed over up to what it holds back. -/
theorem runs_neither (hturn : ∀ b, turn s b = read [m₁, m₂] (fun c t => some (s, t, emit c)) b)
    (hapart : ¬ Meets m₁.tok m₂.tok) (h₁ : StartsOnly c m₁.tok) (h₂ : StartsOnly c m₂.tok)
    (hf₁ : find m₁.tok b = none) (hf₂ : find m₂.tok b = none) :
    let n := b.length - max (shortPartial b m₁.tok) (shortPartial b m₂.tok)
    Transducer.Runs turn s b ((b.take n).flatMap emit) s (b.drop n) ∧ turn s (b.drop n) = none := by
  have hstart : ∀ m ∈ [m₁, m₂], StartsOnly c m.tok := forall_mem_two h₁ h₂
  have hnone : ∀ m ∈ [m₁, m₂], find m.tok b = none := forall_mem_two hf₁ hf₂
  have hheld : Held ([m₁, m₂].map Mark.tok) b
      (max (shortPartial b m₁.tok) (shortPartial b m₂.tok)) := by
    refine held_of_marks hstart hnone
      (forall_mem_two (Nat.le_max_left _ _) (Nat.le_max_right _ _)) (.inr ?_)
    rcases Nat.le_total (shortPartial b m₁.tok) (shortPartial b m₂.tok) with hle | hle
    · exact ⟨m₂, List.mem_cons_of_mem _ List.mem_cons_self, Nat.max_eq_right hle⟩
    · exact ⟨m₁, List.mem_cons_self, Nat.max_eq_left hle⟩
  exact ⟨hheld.runs hturn le_rfl,
    hheld.quiet hturn (apart_two hapart) hstart (by simp) hnone⟩

end Passing

end Reader

end Search
