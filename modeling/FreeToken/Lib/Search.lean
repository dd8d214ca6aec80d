import Mathlib.Data.List.Infix
import Mathlib.Tactic.ByContra

/-!
# Searching a text that arrives in pieces

The first occurrence of a token in a text, and the suffix a stream has to hold back because it may
still grow into a token.  A search that restarts at the held suffix finds what a search of the whole
text finds.
-/

set_option autoImplicit false

namespace Search

variable {α : Type} {tok x y text : List α} {i j : Nat}

/-- The token starts at position `i` of the text. -/
def OccursAt (tok text : List α) (i : Nat) : Prop := tok <+: text.drop i

theorem occursAt_zero : OccursAt tok text 0 ↔ tok <+: text := by
  unfold OccursAt
  rw [List.drop_zero]

theorem occursAt_succ {c : α} : OccursAt tok (c :: text) (i + 1) ↔ OccursAt tok text i := Iff.rfl

theorem OccursAt.le (h : OccursAt tok text i) (hne : tok ≠ []) : i + tok.length ≤ text.length := by
  have hlen := h.length_le
  have hpos := List.length_pos_iff.2 hne
  rw [List.length_drop] at hlen
  omega

theorem OccursAt.append (h : OccursAt tok x i) (y : List α) : OccursAt tok (x ++ y) i := by
  unfold OccursAt at *
  rw [List.drop_append]
  exact h.trans (List.prefix_append _ _)

theorem OccursAt.of_append (h : OccursAt tok (x ++ y) i) (hle : i + tok.length ≤ x.length) :
    OccursAt tok x i := by
  unfold OccursAt at *
  rw [List.drop_append_of_le_length (by omega)] at h
  refine List.prefix_of_prefix_length_le h (List.prefix_append _ _) ?_
  rw [List.length_drop]
  omega

theorem occursAt_append_left : OccursAt tok (x ++ y) (x.length + i) ↔ OccursAt tok y i := by
  unfold OccursAt
  rw [List.drop_append, List.drop_of_length_le (Nat.le_add_right _ _), Nat.add_sub_cancel_left,
    List.nil_append]

/-- The text around an occurrence. -/
theorem OccursAt.eq (h : OccursAt tok text i) :
    text = text.take i ++ (tok ++ text.drop (i + tok.length)) := by
  obtain ⟨s, hs⟩ := h
  have hdrop : text.drop (i + tok.length) = s := by
    rw [← List.drop_drop, ← hs, List.drop_left]
  rw [hdrop, hs, List.take_append_drop]

/-- The token does not start in `out`, where `out` stands before the text. -/
def Skips (tok out text : List α) : Prop := ∀ i < out.length, ¬ OccursAt tok (out ++ text) i

/-- The token does not start in the first part `out` of the text. -/
def NoStart (tok out text : List α) : Prop := ∀ i < out.length, ¬ OccursAt tok text i

theorem noStart_nil (tok text : List α) : NoStart tok [] text :=
  fun _ hi => absurd hi (Nat.not_lt_zero _)

theorem NoStart.mono {out out' : List α} (h : NoStart tok out text) (hle : out'.length ≤ out.length) :
    NoStart tok out' text :=
  fun i hi => h i (hi.trans_le hle)

theorem NoStart.skips {out : List α} (h : NoStart tok out text) (hpre : out ++ x <+: text) :
    Skips tok out x := by
  obtain ⟨s, rfl⟩ := hpre
  exact fun i hi hocc => h i hi (hocc.append s)

/-! ## Tokens that do not overlap -/

/-- The element `c` starts the token and stands nowhere else in it. -/
def StartsOnly (c : α) (tok : List α) : Prop := ∃ body, tok = c :: body ∧ c ∉ body

theorem StartsOnly.ne_nil {c : α} (h : StartsOnly c tok) : tok ≠ [] := by
  obtain ⟨body, rfl, -⟩ := h
  exact List.cons_ne_nil c body

/-- Two tokens that start with the same element, and have it nowhere else, do not overlap. -/
theorem StartsOnly.le {c : α} {tok' : List α} (h : StartsOnly c tok) (h' : StartsOnly c tok')
    (hi : OccursAt tok text i) (hj : OccursAt tok' text j) (hij : i < j) :
    i + tok.length ≤ j := by
  obtain ⟨body, rfl, hbody⟩ := h
  obtain ⟨body', rfl, -⟩ := h'
  by_contra hlt
  obtain ⟨s, hs⟩ := hi
  obtain ⟨s', hs'⟩ := hj
  have hget : text[j]? = some c := by
    have := congrArg (fun l => l[0]?) hs'
    simpa [List.getElem?_drop] using this.symm
  have hget' : text[j]? = body[j - i - 1]? := by
    have := congrArg (fun l => l[j - i]?) hs
    simp only [List.getElem?_drop, Nat.add_sub_cancel' hij.le] at this
    rw [← this, List.getElem?_append_left (by simp only [List.length_cons] at hlt ⊢; omega)]
    obtain ⟨d, hd⟩ : ∃ d, j - i = d + 1 := ⟨j - i - 1, by omega⟩
    rw [hd, List.getElem?_cons_succ, Nat.add_sub_cancel]
  rw [hget] at hget'
  exact hbody (List.mem_of_getElem? hget'.symm)

/-! ## Copies of a token -/

/-- The first part of the text ends inside no occurrence of the token. -/
def Whole (tok out text : List α) : Prop :=
  ∀ i < out.length, OccursAt tok text i → i + tok.length ≤ out.length

/-- Copies of a token that are cut at a place inside none of them are copies on both sides. -/
theorem Whole.replicate {out mid rest : List α} {n : Nat}
    (h : Whole tok out ((List.replicate n tok).flatten ++ rest))
    (hsplit : (List.replicate n tok).flatten = out ++ mid) :
    ∃ m, mid = (List.replicate m tok).flatten := by
  induction n generalizing out with
  | zero =>
      rw [List.replicate_zero, List.flatten_nil, eq_comm, List.append_eq_nil_iff] at hsplit
      exact ⟨0, by rw [hsplit.2]; rfl⟩
  | succ n ih =>
      cases hout : out with
      | nil => exact ⟨n + 1, by rw [hsplit, hout, List.nil_append]⟩
      | cons c out' =>
          have hpos : 0 < out.length := by
            rw [hout]
            exact Nat.succ_pos _
          rw [List.replicate_succ, List.flatten_cons] at hsplit h
          have hzero : OccursAt tok (tok ++ (List.replicate n tok).flatten ++ rest) 0 := by
            rw [occursAt_zero, List.append_assoc]
            exact List.prefix_append _ _
          have hle := h 0 hpos hzero
          rw [Nat.zero_add] at hle
          have hpre : tok <+: out := by
            refine List.prefix_of_prefix_length_le ?_ (List.prefix_append out mid) hle
            rw [← hsplit]
            exact List.prefix_append _ _
          obtain ⟨out₂, rfl⟩ := hpre
          rw [List.append_assoc, List.append_cancel_left_eq] at hsplit
          refine ih (fun i hi hocc => ?_) hsplit
          rw [List.append_assoc] at h
          have := h (tok.length + i) (by rw [List.length_append]; omega)
            (occursAt_append_left.2 hocc)
          rw [List.length_append] at this
          omega

/-! ## The first occurrence -/

variable [DecidableEq α]

/-- The position of the first occurrence of a token. -/
def find (tok : List α) : List α → Option Nat
  | [] => if tok = [] then some 0 else none
  | c :: text => if tok <+: c :: text then some 0 else (find tok text).map (· + 1)

theorem find_eq_none : find tok text = none ↔ ∀ i, ¬ OccursAt tok text i := by
  induction text with
  | nil =>
      unfold find OccursAt
      by_cases htok : tok = []
      · simp [htok]
      · simp [htok]
  | cons c text ih =>
      rw [find]
      split
      · rename_i hpre
        simp only [reduceCtorEq, false_iff, not_forall, not_not]
        exact ⟨0, hpre⟩
      · rename_i hpre
        rw [Option.map_eq_none_iff, ih]
        constructor
        · intro h i
          cases i with
          | zero => exact hpre
          | succ i => exact h i
        · exact fun h i => h (i + 1)

theorem find_eq_some : find tok text = some i ↔
    OccursAt tok text i ∧ ∀ j < i, ¬ OccursAt tok text j := by
  induction text generalizing i with
  | nil =>
      unfold find OccursAt
      by_cases htok : tok = []
      · simp only [htok, if_true, Option.some.injEq, List.nil_prefix, true_and, not_true_eq_false]
        constructor
        · rintro rfl j hj
          exact absurd hj (Nat.not_lt_zero j)
        · intro h
          by_contra hne
          exact h 0 (Nat.pos_of_ne_zero (Ne.symm hne))
      · simp [htok]
  | cons c text ih =>
      rw [find]
      split
      · rename_i hpre
        rw [Option.some.injEq]
        constructor
        · rintro rfl
          exact ⟨hpre, fun j hj => absurd hj (Nat.not_lt_zero j)⟩
        · intro h
          by_contra hne
          exact h.2 0 (Nat.pos_of_ne_zero (Ne.symm hne)) hpre
      · rename_i hpre
        cases i with
        | zero => simpa [occursAt_zero] using hpre
        | succ i =>
            have hmap : (find tok text).map (· + 1) = some (i + 1) ↔ find tok text = some i := by
              cases find tok text <;> simp
            rw [hmap, ih]
            constructor
            · rintro ⟨hocc, hfirst⟩
              refine ⟨hocc, fun j hj => ?_⟩
              cases j with
              | zero => exact hpre
              | succ j => exact hfirst j (Nat.lt_of_succ_lt_succ hj)
            · rintro ⟨hocc, hfirst⟩
              exact ⟨hocc, fun j hj => hfirst (j + 1) (Nat.succ_lt_succ hj)⟩

theorem find_le (h : find tok text = some i) (hne : tok ≠ []) : i + tok.length ≤ text.length :=
  (find_eq_some.1 h).1.le hne

/-- What was found stays the first occurrence, whatever comes after. -/
theorem find_append (h : find tok x = some i) (hne : tok ≠ []) (y : List α) :
    find tok (x ++ y) = some i := by
  have hle := find_le h hne
  obtain ⟨hocc, hfirst⟩ := find_eq_some.1 h
  refine find_eq_some.2 ⟨hocc.append y, fun j hj hocc' => hfirst j hj ?_⟩
  exact hocc'.of_append (by omega)

/-- The part of a text before its first token holds no token. -/
theorem find_take (h : find tok text = some i) (hne : tok ≠ []) :
    find tok (text.take i) = none := by
  refine find_eq_none.2 fun j hj => ?_
  have hle := hj.le hne
  have hpos := List.length_pos_iff.2 hne
  rw [List.length_take] at hle
  refine (find_eq_some.1 h).2 j (by omega) ?_
  have := hj.append (text.drop i)
  rwa [List.take_append_drop] at this

theorem find_none_of_append (h : find tok (x ++ y) = none) (hne : tok ≠ []) :
    find tok x = none := by
  cases hx : find tok x with
  | none => rfl
  | some i => rw [find_append hx hne] at h; cases h

theorem Skips.find {out : List α} (h : Skips tok out text) :
    Search.find tok (out ++ text) = (Search.find tok text).map (out.length + ·) := by
  cases htext : Search.find tok text with
  | none =>
      refine find_eq_none.2 fun i hocc => find_eq_none.1 htext (i - out.length) ?_
      have hle : out.length ≤ i := Nat.le_of_not_lt fun hlt => h i hlt hocc
      rw [← Nat.add_sub_cancel' hle] at hocc
      exact occursAt_append_left.1 hocc
  | some i =>
      obtain ⟨hocc, hfirst⟩ := find_eq_some.1 htext
      refine find_eq_some.2 ⟨occursAt_append_left.2 hocc, fun j hj hoccj => ?_⟩
      have hle : out.length ≤ j := Nat.le_of_not_lt fun hlt => h j hlt hoccj
      rw [← Nat.add_sub_cancel' hle] at hoccj
      dsimp only at hj
      exact hfirst (j - out.length) (by omega) (occursAt_append_left.1 hoccj)

/-! ## The longest suffix that may grow -/

/-- The greatest `k` above `best`, and at most the last argument, such that the text ends with the
first `k` elements of the token; `best` if there is none. -/
def partialOf (tok text : List α) (best : Nat) : Nat → Nat
  | 0 => best
  | k + 1 =>
      if k + 1 ≤ best then best
      else if tok.take (k + 1) <:+ text then k + 1
      else partialOf tok text best k

/-- The length of the longest suffix of the text that is a proper prefix of a token. -/
def partialSuffix (toks : List (List α)) (text : List α) : Nat :=
  toks.foldl (fun best tok => partialOf tok text best (min (tok.length - 1) text.length)) 0

theorem le_partialOf (tok text : List α) (best k : Nat) : best ≤ partialOf tok text best k := by
  induction k with
  | zero => exact le_rfl
  | succ k ih =>
      rw [partialOf]
      split
      · exact le_rfl
      · split
        · omega
        · exact ih

theorem partialOf_max {best k n : Nat} (hk : k ≤ n) (h : tok.take k <:+ text) :
    k ≤ partialOf tok text best n := by
  induction n with
  | zero =>
      rw [Nat.le_zero.1 hk]
      exact Nat.zero_le _
  | succ n ih =>
      rw [partialOf]
      split
      · omega
      · split
        · exact hk
        · rename_i hnot
          refine ih (Nat.le_of_lt_succ (Nat.lt_of_le_of_ne hk ?_))
          rintro rfl
          exact hnot h

theorem partialOf_spec (tok text : List α) (best n : Nat) :
    partialOf tok text best n = best ∨
      (partialOf tok text best n ≤ n ∧ tok.take (partialOf tok text best n) <:+ text) := by
  induction n with
  | zero => exact .inl rfl
  | succ n ih =>
      rw [partialOf]
      split
      · exact .inl rfl
      · split
        · rename_i h
          exact .inr ⟨le_rfl, h⟩
        · exact ih.imp_right fun h => ⟨Nat.le_succ_of_le h.1, h.2⟩

/-- The value of the fold that searches the tokens one after another. -/
theorem foldl_partialOf (toks : List (List α)) (text : List α) (best : Nat) :
    let fold := toks.foldl
      (fun best tok => partialOf tok text best (min (tok.length - 1) text.length)) best
    best ≤ fold ∧
      (∀ tok ∈ toks, ∀ k < tok.length, tok.take k <:+ text → k ≤ fold) ∧
      (fold = best ∨ ∃ tok ∈ toks, fold < tok.length ∧ fold ≤ text.length ∧
        tok.take fold <:+ text) := by
  induction toks generalizing best with
  | nil => exact ⟨le_rfl, by simp, .inl rfl⟩
  | cons tok toks ih =>
      rw [List.foldl_cons]
      obtain ⟨hle, hmax, hspec⟩ := ih (partialOf tok text best (min (tok.length - 1) text.length))
      have hbest := le_partialOf tok text best (min (tok.length - 1) text.length)
      refine ⟨hbest.trans hle, ?_, ?_⟩
      · intro tok' htok' k hk hsuf
        rcases List.mem_cons.1 htok' with rfl | htok'
        · refine le_trans (partialOf_max ?_ hsuf) hle
          have hlen := hsuf.length_le
          rw [List.length_take] at hlen
          omega
        · exact hmax tok' htok' k hk hsuf
      · rcases hspec with hspec | ⟨tok', htok', hrest⟩
        · rw [hspec]
          rcases partialOf_spec tok text best (min (tok.length - 1) text.length) with hone | hone
          · exact .inl hone
          · by_cases hz : tok.length = 0
            · left
              have := hone.1
              omega
            · refine .inr ⟨tok, List.mem_cons_self, ?_, ?_, hone.2⟩
              · have := hone.1
                omega
              · have := hone.1
                omega
        · exact .inr ⟨tok', List.mem_cons_of_mem _ htok', hrest⟩

theorem partialSuffix_max {toks : List (List α)} {k : Nat} (htok : tok ∈ toks)
    (hk : k < tok.length) (h : tok.take k <:+ text) : k ≤ partialSuffix toks text :=
  (foldl_partialOf toks text 0).2.1 tok htok k hk h

theorem partialSuffix_spec (toks : List (List α)) (text : List α) :
    partialSuffix toks text = 0 ∨ ∃ tok ∈ toks, partialSuffix toks text < tok.length ∧
      partialSuffix toks text ≤ text.length ∧ tok.take (partialSuffix toks text) <:+ text :=
  (foldl_partialOf toks text 0).2.2

theorem partialSuffix_le (toks : List (List α)) (text : List α) :
    partialSuffix toks text ≤ text.length := by
  rcases partialSuffix_spec toks text with h | ⟨tok, -, -, h, -⟩
  · rw [h]
    exact Nat.zero_le _
  · exact h

/-- A token that was not seen yet starts in what is held back of the text so far. -/
theorem NoStart.hold {toks : List (List α)} {out : List α} (h : NoStart tok out text)
    (hpre : out ++ x <+: text) (hnone : find tok (out ++ x) = none) (htok : tok ∈ toks) :
    NoStart tok (out ++ x.take (x.length - partialSuffix toks x)) text := by
  intro i hi hocc
  have hle : out.length ≤ i := Nat.le_of_not_lt fun hlt => h i hlt hocc
  obtain ⟨s, rfl⟩ := hpre
  rw [List.length_append, List.length_take] at hi
  have hlen : (out ++ x).length = out.length + x.length := List.length_append
  have hend : (out ++ x).length < i + tok.length := by
    by_contra hle'
    exact find_eq_none.1 hnone i (hocc.of_append (by omega))
  have hsuf : tok.take (out.length + x.length - i) <:+ x := by
    unfold OccursAt at hocc
    rw [List.append_assoc, List.drop_append, List.drop_of_length_le hle, List.nil_append,
      List.drop_append_of_le_length (by omega)] at hocc
    obtain ⟨z, hz⟩ := hocc
    have htake := congrArg (List.take (out.length + x.length - i)) hz
    rw [List.take_append_of_le_length (by omega),
      List.take_left' (by rw [List.length_drop]; omega)] at htake
    rw [htake]
    exact List.drop_suffix _ _
  have := partialSuffix_max htok (by omega) hsuf
  omega

/-- The held suffix of a text that ends with the beginning of a token no other beginning ends
with. -/
theorem partialSuffix_eq {toks : List (List α)} {t held : List α} (ht : t ∈ toks)
    (hheld : t.take held.length = held) (hlt : held.length < t.length)
    (hfree : ∀ t' ∈ toks, ∀ k < t'.length, held.length < k → ¬ held <:+ t'.take k) (x : List α) :
    partialSuffix toks (x ++ held) = held.length := by
  refine le_antisymm (Nat.le_of_not_lt fun hgt => ?_) ?_
  · rcases partialSuffix_spec toks (x ++ held) with hzero | ⟨t', ht', hk, -, hsuf⟩
    · omega
    · refine hfree t' ht' _ hk hgt ?_
      refine List.suffix_of_suffix_length_le (List.suffix_append x held) hsuf ?_
      rw [List.length_take]
      omega
  · exact partialSuffix_max ht hlt (by rw [hheld]; exact List.suffix_append x held)

theorem partialSuffix_singleton {toks : List (List α)} {c : α}
    (h : ∀ t ∈ toks, t.head? ≠ some c) : partialSuffix toks [c] = 0 := by
  rcases partialSuffix_spec toks [c] with hzero | ⟨t, ht, hk, hle, hsuf⟩
  · exact hzero
  · by_contra hne
    have hone : partialSuffix toks [c] = 1 := by
      rw [List.length_singleton] at hle
      omega
    rw [hone] at hsuf
    refine h t ht ?_
    cases t with
    | nil => rw [List.length_nil] at hk; omega
    | cons d t =>
        rw [List.take_succ_cons, List.take_zero] at hsuf
        have := List.mem_of_mem_head? (hsuf.eq_of_length rfl ▸ rfl : [c].head? = some d)
        rw [List.mem_singleton] at this
        rw [List.head?_cons, this]

/-- No proper suffix of the token starts a token of the list. -/
def Solid (toks : List (List α)) (tok : List α) : Prop :=
  ∀ t ∈ toks, ∀ j < tok.length, 0 < j → ¬ tok.drop j <+: t

/-- A token that neither stands in `out` nor begins with one of its tails does not start in it. -/
theorem noStart_of_tails {out : List α} (hnone : find tok out = none)
    (htail : ∀ i < out.length, ¬ out.drop i <+: tok) : NoStart tok out (out ++ x) := by
  intro i hi hocc
  by_cases hle : i + tok.length ≤ out.length
  · exact find_eq_none.1 hnone i (hocc.of_append hle)
  · refine htail i hi ?_
    unfold OccursAt at hocc
    rw [List.drop_append_of_le_length hi.le] at hocc
    refine List.prefix_of_prefix_length_le (List.prefix_append _ _) hocc ?_
    rw [List.length_drop]
    omega

/-- What is held back is never the tail of a solid token. -/
theorem Whole.hold {toks : List (List α)} {out : List α} (h : Whole tok out text)
    (hpre : out ++ x <+: text) (htok : tok ∈ toks) (hsolid : Solid toks tok) :
    Whole tok (out ++ x.take (x.length - partialSuffix toks x)) text := by
  intro i hi hocc
  by_cases hlt : i < out.length
  · have := h i hlt hocc
    rw [List.length_append]
    omega
  obtain ⟨s, rfl⟩ := hpre
  obtain ⟨d, rfl⟩ := Nat.exists_eq_add_of_le (Nat.le_of_not_lt hlt)
  rw [List.length_append, List.length_take] at hi ⊢
  rw [List.append_assoc, occursAt_append_left] at hocc
  by_contra hcut
  by_cases hend : d + tok.length ≤ x.length
  · -- the token stands in `x` and the held suffix starts inside it
    have hoccx := hocc.of_append hend
    rcases partialSuffix_spec toks x with hzero | ⟨t, ht, hk, hle, hsuf⟩
    · omega
    · generalize partialSuffix toks x = k at *
      have hdrop : x.drop (x.length - k) = t.take k := by
        rw [List.suffix_iff_eq_drop.1 hsuf, List.length_take, Nat.min_eq_left hk.le]
      have htail : tok.drop (x.length - k - d) <+: t.take k := by
        have hsplit : x.drop (x.length - k) = (x.drop d).drop (x.length - k - d) := by
          rw [List.drop_drop]
          congr 1
          omega
        obtain ⟨z, hz⟩ := hoccx
        rw [← hdrop, hsplit, ← hz, List.drop_append_of_le_length (by omega)]
        exact List.prefix_append _ _
      exact hsolid t ht _ (by omega) (by omega) (htail.trans (List.take_prefix _ _))
  · -- the part of the token that stands in `x` is itself held
    have hsuf : tok.take (x.length - d) <:+ x := by
      unfold OccursAt at hocc
      rw [List.drop_append_of_le_length (by omega)] at hocc
      obtain ⟨z, hz⟩ := hocc
      have htake := congrArg (List.take (x.length - d)) hz
      rw [List.take_append_of_le_length (by omega),
        List.take_left' (by rw [List.length_drop])] at htake
      rw [htake]
      exact List.drop_suffix _ _
    have := partialSuffix_max htok (by omega) hsuf
    omega

/-- What is found after some text is found without it. -/
theorem find_of_append_left (h : find tok (x ++ y) = some (x.length + i)) : find tok y = some i := by
  obtain ⟨hocc, hfirst⟩ := find_eq_some.1 h
  refine find_eq_some.2 ⟨occursAt_append_left.1 hocc, fun j hj hoccj => ?_⟩
  exact hfirst (x.length + j) (by omega) (occursAt_append_left.2 hoccj)

theorem find_none_within (h : find tok text = none) (hx : x <:+: text) : find tok x = none := by
  obtain ⟨s, t, rfl⟩ := hx
  refine find_eq_none.2 fun i hi => find_eq_none.1 h (s.length + i) ?_
  rw [List.append_assoc]
  exact occursAt_append_left.2 (hi.append t)

/-- What is held of a longer text was held before, or came since. -/
theorem partialSuffix_append (toks : List (List α)) (x y : List α) :
    partialSuffix toks (x ++ y) ≤ partialSuffix toks x + y.length := by
  rcases partialSuffix_spec toks (x ++ y) with h | ⟨tok, htok, hlt, hle, hsuf⟩
  · omega
  · generalize partialSuffix toks (x ++ y) = k at *
    by_cases hk : k ≤ y.length
    · omega
    · have hpart : tok.take (k - y.length) <:+ x := by
        have hdrop := List.suffix_iff_eq_drop.1 hsuf
        rw [List.length_append] at hle
        rw [List.length_take, Nat.min_eq_left hlt.le, List.length_append,
          List.drop_append_of_le_length (by omega)] at hdrop
        have htake := congrArg (List.take (k - y.length)) hdrop
        rw [List.take_take, Nat.min_eq_left (Nat.sub_le _ _),
          List.take_left' (by rw [List.length_drop]; omega)] at htake
        rw [htake]
        exact List.drop_suffix _ _
      have := partialSuffix_max htok (by omega) hpart
      omega

/-! ## The earliest of several tokens -/

/-- The best occurrence so far, or an earlier one of the token. -/
def earlier (text : List α) (best : Option (Nat × List α)) (tok : List α) :
    Option (Nat × List α) :=
  match find tok text with
  | none => best
  | some pos =>
      match best with
      | none => some (pos, tok)
      | some (bestPos, _) => if pos < bestPos then some (pos, tok) else best

/-- The earliest occurrence of a token of the list, and the token; the list breaks ties. -/
def firstOf (toks : List (List α)) (text : List α) : Option (Nat × List α) :=
  toks.foldl (earlier text) none

/-- No token of the list starts another one. -/
def PrefixFree (toks : List (List α)) : Prop := ∀ t ∈ toks, ∀ t' ∈ toks, t <+: t' → t = t'

instance (toks : List (List α)) : Decidable (PrefixFree toks) :=
  inferInstanceAs (Decidable (∀ t ∈ toks, ∀ t' ∈ toks, t <+: t' → t = t'))

theorem earlier_eq_none {best : Option (Nat × List α)} (h : earlier text best tok = none) :
    best = none ∧ find tok text = none := by
  unfold earlier at h
  split at h
  · rename_i hfind
    exact ⟨h, hfind⟩
  · split at h
    · cases h
    · split at h <;> cases h

theorem earlier_eq_some {best : Option (Nat × List α)} {pos : Nat} {t : List α}
    (h : earlier text best tok = some (pos, t)) :
    (best = some (pos, t) ∨ (t = tok ∧ find tok text = some pos)) ∧
      (∀ p u, best = some (p, u) → pos ≤ p) ∧ ∀ p, find tok text = some p → pos ≤ p := by
  unfold earlier at h
  split at h
  · rename_i hfind
    refine ⟨.inl h, fun p u hb => ?_, fun p hp => ?_⟩
    · rw [hb] at h
      cases h
      exact le_rfl
    · rw [hfind] at hp
      cases hp
  · rename_i pos' hfind
    split at h
    · cases h
      exact ⟨.inr ⟨rfl, hfind⟩, fun p u hb => (by cases hb), fun p hp => by
        rw [hfind] at hp; cases hp; exact le_rfl⟩
    · rename_i bestPos u
      split at h
      · rename_i hlt
        cases h
        refine ⟨.inr ⟨rfl, hfind⟩, fun p w hb => ?_, fun p hp => ?_⟩
        · cases hb
          exact hlt.le
        · rw [hfind] at hp
          cases hp
          exact le_rfl
      · rename_i hle
        cases h
        refine ⟨.inl rfl, fun p w hb => ?_, fun p hp => ?_⟩
        · cases hb
          exact le_rfl
        · rw [hfind] at hp
          cases hp
          exact Nat.le_of_not_lt hle

theorem foldl_earlier (text : List α) (toks : List (List α)) :
    ∀ best : Option (Nat × List α),
      (toks.foldl (earlier text) best = none →
        best = none ∧ ∀ tok ∈ toks, find tok text = none) ∧
      ∀ pos t, toks.foldl (earlier text) best = some (pos, t) →
        (best = some (pos, t) ∨ (t ∈ toks ∧ find t text = some pos)) ∧
          (∀ p u, best = some (p, u) → pos ≤ p) ∧
          ∀ tok ∈ toks, ∀ p, find tok text = some p → pos ≤ p := by
  induction toks with
  | nil =>
      intro best
      refine ⟨fun h => ⟨h, by simp⟩, fun pos t h => ⟨.inl h, fun p u hb => ?_, by simp⟩⟩
      rw [List.foldl_nil, hb] at h
      cases h
      exact le_rfl
  | cons tok toks ih =>
      intro best
      rw [List.foldl_cons]
      obtain ⟨hnone, hsome⟩ := ih (earlier text best tok)
      constructor
      · intro h
        obtain ⟨hearlier, hrest⟩ := hnone h
        obtain ⟨hbest, hfind⟩ := earlier_eq_none hearlier
        refine ⟨hbest, fun tok' htok' => ?_⟩
        rcases List.mem_cons.1 htok' with rfl | htok'
        · exact hfind
        · exact hrest tok' htok'
      · intro pos t h
        obtain ⟨hwhere, hbest, hmin⟩ := hsome pos t h
        rcases hwhere with hearlier | ⟨ht, hfind⟩
        · obtain ⟨hone, hle, hle'⟩ := earlier_eq_some hearlier
          refine ⟨hone.imp_right fun ⟨he, hf⟩ => ⟨he ▸ List.mem_cons_self, he ▸ hf⟩, hle, ?_⟩
          intro tok' htok' p hp
          rcases List.mem_cons.1 htok' with rfl | htok'
          · exact hle' p hp
          · exact hmin tok' htok' p hp
        · have hfirst : ∀ p u, earlier text best tok = some (p, u) → pos ≤ p := hbest
          refine ⟨.inr ⟨List.mem_cons_of_mem _ ht, hfind⟩, ?_, ?_⟩
          · rintro p u rfl
            cases he : earlier text (some (p, u)) tok with
            | none => cases (earlier_eq_none he).1
            | some x => exact (hfirst x.1 x.2 he).trans ((earlier_eq_some he).2.1 p u rfl)
          · intro tok' htok' p hp
            rcases List.mem_cons.1 htok' with rfl | htok'
            · cases he : earlier text best tok' with
              | none => rw [(earlier_eq_none he).2] at hp; cases hp
              | some x => exact (hfirst x.1 x.2 he).trans ((earlier_eq_some he).2.2 p hp)
            · exact hmin tok' htok' p hp

theorem firstOf_eq_none {toks : List (List α)} :
    firstOf toks text = none ↔ ∀ tok ∈ toks, find tok text = none := by
  constructor
  · exact fun h => ((foldl_earlier text toks none).1 h).2
  · intro h
    cases hr : firstOf toks text with
    | none => rfl
    | some x =>
        obtain ⟨hx | ⟨hmem, hfind⟩, -⟩ := (foldl_earlier text toks none).2 x.1 x.2 hr
        · cases hx
        · rw [h _ hmem] at hfind
          cases hfind

theorem firstOf_eq_some {toks : List (List α)} (hfree : PrefixFree toks) {pos : Nat} :
    firstOf toks text = some (pos, tok) ↔
      tok ∈ toks ∧ OccursAt tok text pos ∧ ∀ t ∈ toks, ∀ j < pos, ¬ OccursAt t text j := by
  have hspec : ∀ pos tok, firstOf toks text = some (pos, tok) →
      tok ∈ toks ∧ OccursAt tok text pos ∧ ∀ t ∈ toks, ∀ j < pos, ¬ OccursAt t text j := by
    intro pos tok h
    obtain ⟨hx | ⟨hmem, hfind⟩, -, hmin⟩ := (foldl_earlier text toks none).2 pos tok h
    · cases hx
    refine ⟨hmem, (find_eq_some.1 hfind).1, fun t ht j hj hocc => ?_⟩
    cases hf : find t text with
    | none => exact find_eq_none.1 hf j hocc
    | some p =>
        have hpj : p ≤ j := Nat.le_of_not_lt fun hlt => (find_eq_some.1 hf).2 j hlt hocc
        have := hmin t ht p hf
        omega
  refine ⟨hspec pos tok, fun ⟨hmem, hocc, hfirst⟩ => ?_⟩
  cases hr : firstOf toks text with
  | none => exact absurd hocc (find_eq_none.1 (firstOf_eq_none.1 hr tok hmem) pos)
  | some x =>
      obtain ⟨hmem', hocc', hfirst'⟩ := hspec x.1 x.2 hr
      have hpos : x.1 = pos := by
        refine le_antisymm (Nat.le_of_not_lt fun hlt => ?_) (Nat.le_of_not_lt fun hlt => ?_)
        · exact hfirst' tok hmem pos hlt hocc
        · exact hfirst x.2 hmem' x.1 hlt hocc'
      rw [← hpos] at hocc
      have htok : x.2 = tok := by
        rcases Nat.le_total x.2.length tok.length with hle | hle
        · exact hfree _ hmem' _ hmem (List.prefix_of_prefix_length_le hocc' hocc hle)
        · exact (hfree _ hmem _ hmem' (List.prefix_of_prefix_length_le hocc hocc' hle)).symm
      rw [← hpos, ← htok]

/-- The earliest token stays the earliest, whatever comes after. -/
theorem firstOf_append {c : α} {toks : List (List α)} (hfree : PrefixFree toks)
    (hstart : ∀ t ∈ toks, StartsOnly c t) {pos : Nat} (h : firstOf toks x = some (pos, tok))
    (y : List α) : firstOf toks (x ++ y) = some (pos, tok) := by
  obtain ⟨hmem, hocc, hfirst⟩ := (firstOf_eq_some hfree).1 h
  refine (firstOf_eq_some hfree).2 ⟨hmem, hocc.append y, fun t ht j hj hoccj => ?_⟩
  have hle := (hstart t ht).le (hstart tok hmem) hoccj (hocc.append y) hj
  have hend := hocc.le (hstart tok hmem).ne_nil
  exact hfirst t ht j hj (hoccj.of_append (by omega))

theorem firstOf_of_append {toks : List (List α)} (hfree : PrefixFree toks) {pos : Nat}
    (h : firstOf toks (x ++ y) = some (pos, tok)) (hle : pos + tok.length ≤ x.length) :
    firstOf toks x = some (pos, tok) := by
  obtain ⟨hmem, hocc, hfirst⟩ := (firstOf_eq_some hfree).1 h
  exact (firstOf_eq_some hfree).2 ⟨hmem, hocc.of_append hle, fun t ht j hj hoccj =>
    hfirst t ht j hj (hoccj.append y)⟩

theorem find_of_append (h : find tok (x ++ y) = some i) (hle : i + tok.length ≤ x.length) :
    find tok x = some i := by
  obtain ⟨hocc, hfirst⟩ := find_eq_some.1 h
  exact find_eq_some.2 ⟨hocc.of_append hle, fun j hj hoccj => hfirst j hj (hoccj.append y)⟩


/-- The text that follows begins with the first element of the markers, or is empty. -/
def Begins (c : α) (rest : List α) : Prop := ∀ d ∈ rest.head?, d = c

omit [DecidableEq α] in
theorem begins_nil (c : α) : Begins c [] := by simp [Begins]

omit [DecidableEq α] in
theorem begins_cons (c : α) (rest : List α) : Begins c (c :: rest) := by simp [Begins]

/-- A text without a marker has none before what begins a marker. -/
theorem StartsOnly.not_occursAt {c : α} {tok x y : List α} (htok : StartsOnly c tok)
    (h : find tok x = none) (hy : Begins c y) : ∀ i < x.length, ¬ OccursAt tok (x ++ y) i := by
  intro i hi hocc
  by_cases hle : i + tok.length ≤ x.length
  · exact find_eq_none.1 h i (hocc.of_append hle)
  · obtain ⟨body, rfl, hbody⟩ := htok
    cases y with
    | nil =>
        rw [List.append_nil] at hocc
        exact find_eq_none.1 h i hocc
    | cons d y =>
        obtain rfl : d = c := hy d rfl
        obtain ⟨z, hz⟩ := hocc
        obtain ⟨k, hk⟩ := Nat.exists_eq_add_of_lt hi
        have hget := congrArg (fun l => l[k + 1]?) hz
        rw [List.length_cons] at hle
        rw [List.getElem?_append_left (by rw [List.length_cons]; omega), List.getElem?_cons_succ,
          List.getElem?_drop, List.getElem?_append_right (by omega),
          show i + (k + 1) - x.length = 0 by omega, List.getElem?_cons_zero] at hget
        exact hbody (List.mem_of_getElem? hget)

/-- The first marker stands after a text without one. -/
theorem StartsOnly.find_append {c : α} {tok x : List α} (htok : StartsOnly c tok)
    (h : find tok x = none) (r : List α) : find tok (x ++ (tok ++ r)) = some x.length := by
  have hbegins : Begins c (tok ++ r) := by
    obtain ⟨body, rfl, -⟩ := htok
    exact begins_cons c _
  refine find_eq_some.2 ⟨?_, htok.not_occursAt h hbegins⟩
  have : OccursAt tok (x ++ (tok ++ r)) (x.length + 0) ↔ _ := occursAt_append_left
  rw [Nat.add_zero, occursAt_zero] at this
  exact this.2 (List.prefix_append _ _)

/-- A text without a word has no marker that contains the word. -/
theorem find_none_of_infix {w tok x : List α} (h : find w x = none) (hw : w <:+: tok) :
    find tok x = none := by
  rw [find_eq_none]
  intro i hocc
  obtain ⟨p, q, rfl⟩ := hw
  obtain ⟨z, hz⟩ := hocc
  refine find_eq_none.1 h (i + p.length) ?_
  unfold OccursAt
  rw [← List.drop_drop, ← hz, List.append_assoc, List.append_assoc, List.drop_left]
  exact List.prefix_append _ _

/-- No marker goes over an element that is none of its own. -/
theorem not_occursAt_seam {c : α} {tok x : List α} (h : find tok x = none) (hc : c ∉ tok)
    (y : List α) : ∀ i < x.length, ¬ OccursAt tok (x ++ c :: y) i := by
  intro i hi hocc
  by_cases hle : i + tok.length ≤ x.length
  · exact find_eq_none.1 h i (hocc.of_append hle)
  · obtain ⟨z, hz⟩ := hocc
    obtain ⟨k, hk⟩ := Nat.exists_eq_add_of_lt hi
    have hget := congrArg (fun l => l[k + 1]?) hz
    rw [List.getElem?_append_left (by omega), List.getElem?_drop,
      List.getElem?_append_right (by omega), show i + (k + 1) - x.length = 0 by omega,
      List.getElem?_cons_zero] at hget
    exact hc (List.mem_of_getElem? hget)

/-- No proper beginning of the token is an end of it. -/
def Unbordered (tok : List α) : Prop := ∀ j < tok.length, 0 < j → ¬ tok.drop j <+: tok

/-- A token without borders does not start in a text that has none of it and stands before one. -/
theorem Unbordered.not_occursAt {tok x : List α} (htok : Unbordered tok) (h : find tok x = none)
    (y : List α) : ∀ i < x.length, ¬ OccursAt tok (x ++ (tok ++ y)) i := by
  intro i hi hocc
  by_cases hle : i + tok.length ≤ x.length
  · exact find_eq_none.1 h i (hocc.of_append hle)
  · have hdrop : tok.drop (x.length - i) <+: tok := by
      unfold OccursAt at hocc
      rw [List.drop_append_of_le_length hi.le] at hocc
      have hpre := hocc.drop (x.length - i)
      rw [List.drop_left' List.length_drop] at hpre
      apply List.prefix_of_prefix_length_le hpre (List.prefix_append tok y)
      rw [List.length_drop]
      omega
    exact htok (x.length - i) (by omega) (by omega) hdrop

/-- Two texts without a marker have none together, when the marker cannot go over the seam. -/
theorem find_append_none {c : α} {tok x y : List α} (h : find tok x = none)
    (h' : find tok (c :: y) = none) (hc : c ∉ tok) : find tok (x ++ c :: y) = none := by
  rw [find_eq_none]
  intro i hocc
  by_cases hi : i < x.length
  · exact not_occursAt_seam h hc y i hi hocc
  · obtain ⟨k, rfl⟩ := Nat.exists_eq_add_of_le (Nat.le_of_not_lt hi)
    exact find_eq_none.1 h' k (occursAt_append_left.1 hocc)

section Seams

variable {c : α} {tok x y : List α}

/-- Two texts without a marker have none together, when the second one begins as markers do. -/
theorem StartsOnly.find_append_begins (htok : StartsOnly c tok) (h : find tok x = none)
    (h' : find tok y = none) (hy : Begins c y) : find tok (x ++ y) = none := by
  rw [find_eq_none]
  intro i hocc
  by_cases hi : i < x.length
  · exact htok.not_occursAt h hy i hi hocc
  · obtain ⟨k, rfl⟩ := Nat.exists_eq_add_of_le (Nat.le_of_not_lt hi)
    exact find_eq_none.1 h' k (occursAt_append_left.1 hocc)

/-- No marker starts in a text without its first element. -/
theorem StartsOnly.find_append_clean (htok : StartsOnly c tok) (hx : c ∉ x) :
    find tok (x ++ y) = none ↔ find tok y = none := by
  rw [find_eq_none, find_eq_none]
  constructor
  · intro h i hocc
    exact h (x.length + i) (occursAt_append_left.2 hocc)
  · intro h i hocc
    by_cases hi : i < x.length
    · obtain ⟨body, rfl, -⟩ := htok
      obtain ⟨z, hz⟩ := hocc
      rw [List.drop_append_of_le_length (Nat.le_of_lt hi), List.drop_eq_getElem_cons hi] at hz
      rw [List.cons_append, List.cons_append, List.cons.injEq] at hz
      exact hx (hz.1 ▸ List.getElem_mem hi)
    · obtain ⟨k, rfl⟩ := Nat.exists_eq_add_of_le (Nat.le_of_not_lt hi)
      exact h k (occursAt_append_left.1 hocc)

omit [DecidableEq α] in
/-- A marker stands in no other marker. -/
theorem StartsOnly.not_occursAt_marker {t : List α} (htok : StartsOnly c tok) (ht : StartsOnly c t)
    (hmeets : ¬ (tok <+: t ∨ t <+: tok)) (y : List α) :
    ∀ i < t.length, ¬ OccursAt tok (t ++ y) i := by
  intro i hi hocc
  obtain ⟨body, rfl, hbody⟩ := ht
  cases i with
  | zero =>
      rw [occursAt_zero] at hocc
      rcases Nat.le_total tok.length (c :: body).length with hle | hle
      · exact hmeets (.inl (List.prefix_of_prefix_length_le hocc (List.prefix_append _ _) hle))
      · exact hmeets (.inr (List.prefix_of_prefix_length_le (List.prefix_append _ _) hocc hle))
  | succ i =>
      obtain ⟨body', rfl, -⟩ := htok
      obtain ⟨z, hz⟩ := hocc
      have hi' : i < body.length := Nat.lt_of_succ_lt_succ hi
      rw [List.cons_append, List.cons_append, List.drop_succ_cons,
        List.drop_append_of_le_length (Nat.le_of_lt hi'), List.drop_eq_getElem_cons hi',
        List.cons_append, List.cons.injEq] at hz
      exact hbody (hz.1 ▸ List.getElem_mem hi')

theorem StartsOnly.find_append_marker {t : List α} (htok : StartsOnly c tok) (ht : StartsOnly c t)
    (hmeets : ¬ (tok <+: t ∨ t <+: tok)) (h : find tok y = none) : find tok (t ++ y) = none := by
  rw [find_eq_none]
  intro i hocc
  by_cases hi : i < t.length
  · exact htok.not_occursAt_marker ht hmeets y i hi hocc
  · obtain ⟨k, rfl⟩ := Nat.exists_eq_add_of_le (Nat.le_of_not_lt hi)
    exact find_eq_none.1 h k (occursAt_append_left.1 hocc)

end Seams

end Search
