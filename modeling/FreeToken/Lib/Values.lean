import Mathlib.Data.List.DropRight
import FreeToken.Lib.Markers

/-!
# Reading a value that is trimmed

A value goes on up to its closing token, and is trimmed on both sides.  Elements that may have to be
trimmed are held back until something follows that stays.
-/

set_option autoImplicit false

namespace Search

open Transducer

variable {α : Type} {trim : α → Bool} {close b x y ws r : List α} {c : α}

/-- Take off at most one element, or all of them, at the beginning. -/
def trimLeading (trim : α → Bool) (single : Bool) (t : List α) : List α :=
  if single then
    match t with
    | [] => []
    | c :: r => if trim c then r else c :: r
  else t.dropWhile trim

/-- Take off at most one element, or all of them, at the end. -/
def trimTrailing (trim : α → Bool) (single : Bool) (t : List α) : List α :=
  (trimLeading trim single t.reverse).reverse

theorem trimTrailing_false (t : List α) : trimTrailing trim false t = t.rdropWhile trim := rfl

theorem trimLeading_length (single : Bool) (t : List α) :
    (trimLeading trim single t).length ≤ t.length := by
  unfold trimLeading
  split
  · split
    · exact le_rfl
    · split <;> simp
  · exact List.length_dropWhile_le _ _

theorem trimLeading_suffix (trim : α → Bool) (single : Bool) (t : List α) :
    trimLeading trim single t <:+ t := by
  unfold trimLeading
  split
  · split
    · exact List.suffix_refl _
    · rename_i c r
      split
      · exact List.suffix_cons c r
      · exact List.suffix_refl _
  · exact List.dropWhile_suffix _

/-- Where nothing is taken off, the first element stays. -/
theorem trimLeading_head (single : Bool) {c : α} {t : List α}
    (h : trimLeading trim single (c :: t) = c :: t) : trim c = false := by
  by_contra hc
  rw [Bool.not_eq_false] at hc
  have hlen := congrArg List.length h
  unfold trimLeading at hlen
  split at hlen
  · simp [hc] at hlen
  · rw [List.dropWhile_cons, if_pos hc] at hlen
    have hle := List.length_dropWhile_le trim t
    rw [hlen, List.length_cons] at hle
    exact absurd hle (Nat.not_succ_le_self _)

/-- The trim does not go on past an element that stays. -/
theorem trimLeading_append (single : Bool) (v : List α) {c : α} (hc : trim c = false)
    (r : List α) : trimLeading trim single (v ++ c :: r) = trimLeading trim single v ++ c :: r := by
  unfold trimLeading
  split
  · cases v with
    | nil => simp [hc]
    | cons d v =>
        rw [List.cons_append]
        dsimp only
        split <;> rfl
  · rw [List.dropWhile_append]
    split
    · rename_i hnil
      rw [List.isEmpty_iff.1 hnil, List.dropWhile_cons, if_neg (by simp [hc]), List.nil_append]
    · rfl

/-- A value before its closing token, after the trim at its beginning. -/
theorem find_trimLeading [DecidableEq α] (hclose : ∀ c t, close = c :: t → trim c = false)
    (hne : close ≠ []) (single : Bool) {stop : Nat} (h : find close b = some stop) :
    find close (trimLeading trim single b) =
        some (trimLeading trim single (b.take stop)).length ∧
      (trimLeading trim single b).take (trimLeading trim single (b.take stop)).length =
        trimLeading trim single (b.take stop) ∧
      (trimLeading trim single b).drop ((trimLeading trim single (b.take stop)).length +
        close.length) = b.drop (stop + close.length) := by
  obtain ⟨c, t, rfl⟩ := List.exists_cons_of_ne_nil hne
  obtain ⟨r, hr⟩ := (find_eq_some.1 h).1
  have hle := find_le h hne
  have hb : b = b.take stop ++ (c :: t ++ r) := by
    rw [hr, List.take_append_drop]
  have hlen : (b.take stop).length = stop := by
    rw [List.length_take]
    omega
  have hafter : b.drop (stop + (c :: t).length) = r := by
    rw [← List.drop_drop, ← hr, List.drop_left]
  have htrim : trimLeading trim single b =
      trimLeading trim single (b.take stop) ++ (c :: t ++ r) := by
    conv_lhs => rw [hb]
    exact trimLeading_append single _ (hclose c t rfl) (t ++ r)
  obtain ⟨w, hw⟩ := trimLeading_suffix trim single (b.take stop)
  rw [htrim, hafter]
  refine ⟨find_of_append_left (x := w) ?_, List.take_left, ?_⟩
  · rw [← List.append_assoc, hw, ← hb, h, ← List.length_append, hw, hlen]
  · rw [← List.drop_drop, List.drop_left, List.drop_left]

/-- Nothing is taken off at the end of a text that ends with an element that stays. -/
theorem trimTrailing_append (single : Bool) (x : List α) (hx : x.rdropWhile trim = x) (ws : List α)
    (hws : ∀ c ∈ ws, trim c = true) :
    trimTrailing trim single (x ++ ws) = x ++ trimTrailing trim single ws := by
  have hlast : ∀ c t, x.reverse = c :: t → trim c = false := by
    intro c t h
    have hx' : x = t.reverse ++ [c] := by
      rw [← List.reverse_reverse x, h, List.reverse_cons]
    rw [hx', List.rdropWhile_concat] at hx
    by_contra hc
    rw [Bool.not_eq_false] at hc
    rw [if_pos hc] at hx
    have hlen := (List.rdropWhile_prefix trim t.reverse).length_le
    rw [hx, List.length_append] at hlen
    exact absurd hlen (by simp)
  have hstay : ∀ (single : Bool), trimLeading trim single x.reverse = x.reverse := by
    intro single
    unfold trimLeading
    cases hrev : x.reverse with
    | nil => cases single <;> rfl
    | cons c t =>
        have hc := hlast c t hrev
        cases single
        · simp [hc]
        · simp [hc]
  unfold trimTrailing
  rw [List.reverse_append]
  cases single with
  | false =>
      have hall : ∀ c ∈ ws.reverse, trim c = true := fun c hc => hws c (List.mem_reverse.1 hc)
      have hleft := hstay false
      unfold trimLeading at hleft ⊢
      rw [if_neg Bool.false_ne_true] at hleft ⊢
      rw [List.dropWhile_append_of_pos hall, hleft, if_neg Bool.false_ne_true,
        List.dropWhile_eq_nil_iff.2 hall, List.reverse_reverse, List.reverse_nil, List.append_nil]
  | true =>
      cases hrev : ws.reverse with
      | nil =>
          rw [List.nil_append, hstay true, List.reverse_reverse]
          exact (List.append_nil x).symm
      | cons c t =>
          have hc := hws c (List.mem_reverse.1 (hrev ▸ List.mem_cons_self))
          have hleft : ∀ l : List α, trimLeading trim true (c :: l) = l := by
            intro l
            simp [trimLeading, hc]
          rw [List.cons_append, hleft, hleft, List.reverse_append, List.reverse_reverse]

theorem takeWhile_append_trim (hws : ∀ c ∈ ws, trim c = true) (hr : ∀ c t, r = c :: t →
    trim c = false) : (ws ++ r).takeWhile trim = ws ∧ (ws ++ r).dropWhile trim = r := by
  rw [List.takeWhile_append_of_pos hws, List.dropWhile_append_of_pos hws]
  cases r with
  | nil => simp
  | cons c t =>
      have hc := hr c t rfl
      simp [hc]

/-- An element that stays, with what was held back before it; or the end of the value, with what is
left after the trim. -/
def valueTurn [DecidableEq α] (trim : α → Bool) (single : Bool) (close b : List α) :
    Option (List α × List α × Bool) :=
  let held := b.takeWhile trim
  let rest := b.dropWhile trim
  if close <+: rest then some (trimTrailing trim single held, rest.drop close.length, true)
  else if rest <+: close then none
  else
    match rest with
    | [] => none
    | c :: t => some (held ++ [c], t, false)

section Turn

variable [DecidableEq α] {single : Bool}

theorem valueTurn_close (hws : ∀ c ∈ ws, trim c = true) (hclose : ∀ c t, close = c :: t →
    trim c = false) (hne : close ≠ []) (r : List α) :
    valueTurn trim single close (ws ++ (close ++ r)) =
      some (trimTrailing trim single ws, r, true) := by
  obtain ⟨htake, hdrop⟩ := takeWhile_append_trim (r := close ++ r) hws (by
    obtain ⟨c, t, rfl⟩ := List.exists_cons_of_ne_nil hne
    intro d t' h
    rw [List.cons_append, List.cons.injEq] at h
    exact h.1 ▸ hclose c t rfl)
  unfold valueTurn
  simp only [htake, hdrop]
  rw [if_pos (List.prefix_append _ _), List.drop_left]

theorem valueTurn_stay (hws : ∀ c ∈ ws, trim c = true) (hc : trim c = false)
    (hmeets : ¬ Meets close (c :: r)) :
    valueTurn trim single close (ws ++ c :: r) = some (ws ++ [c], r, false) := by
  obtain ⟨htake, hdrop⟩ := takeWhile_append_trim (r := c :: r) hws (by
    intro d t' h
    rw [List.cons.injEq] at h
    exact h.1 ▸ hc)
  unfold valueTurn
  simp only [htake, hdrop]
  rw [if_neg fun h => hmeets (.inl h), if_neg fun h => hmeets (.inr h)]

theorem valueTurn_wait (hws : ∀ c ∈ ws, trim c = true) (hclose : ∀ c t, close = c :: t →
    trim c = false) (hpre : r <+: close) (hlt : r.length < close.length) :
    valueTurn trim single close (ws ++ r) = none := by
  obtain ⟨htake, hdrop⟩ := takeWhile_append_trim (r := r) hws (by
    intro d t' h
    obtain ⟨z, hz⟩ := hpre
    rw [h] at hz
    exact hclose d (t' ++ z) hz.symm)
  unfold valueTurn
  simp only [htake, hdrop]
  rw [if_neg, if_pos hpre]
  intro h
  exact absurd h.length_le (Nat.not_le_of_lt hlt)

/-- The turns of a value. -/
theorem valueTurn_cases {e : List α} {k : Bool}
    (h : valueTurn trim single close b = some (e, r, k)) :
    ∃ ws, (∀ c ∈ ws, trim c = true) ∧
      ((k = true ∧ b = ws ++ (close ++ r) ∧ e = trimTrailing trim single ws) ∨
        (k = false ∧ ∃ c, trim c = false ∧ b = ws ++ c :: r ∧ e = ws ++ [c] ∧
          ¬ Meets close (c :: r))) := by
  unfold valueTurn at h
  have hsplit := List.takeWhile_append_dropWhile (p := trim) (l := b)
  have hws : ∀ c ∈ b.takeWhile trim, trim c = true := fun c hc => List.mem_takeWhile_imp hc
  refine ⟨b.takeWhile trim, hws, ?_⟩
  dsimp only at h
  split at h
  · rename_i hpre
    obtain ⟨z, hz⟩ := hpre
    simp only [Option.some.injEq, Prod.mk.injEq] at h
    obtain ⟨rfl, rfl, rfl⟩ := h
    refine .inl ⟨rfl, ?_, rfl⟩
    rw [← hz, List.drop_left, hz, hsplit]
  · rename_i hnot
    split at h
    · cases h
    · rename_i hnot'
      split at h
      · cases h
      · rename_i c t heq
        simp only [Option.some.injEq, Prod.mk.injEq] at h
        obtain ⟨rfl, rfl, rfl⟩ := h
        refine .inr ⟨rfl, c, ?_, ?_, rfl, ?_⟩
        · have hhead := List.head?_dropWhile_not trim b
          rw [heq] at hhead
          simpa using hhead
        · rw [← heq, hsplit]
        · rw [← heq]
          exact fun hm => hm.elim hnot hnot'

theorem valueTurn_append (hclose : ∀ c t, close = c :: t → trim c = false) (hne : close ≠ [])
    {e : List α} {k : Bool} (h : valueTurn trim single close b = some (e, r, k)) (x : List α) :
    valueTurn trim single close (b ++ x) = some (e, r ++ x, k) := by
  obtain ⟨ws, hws, ⟨rfl, rfl, rfl⟩ | ⟨rfl, c, hc, rfl, rfl, hmeets⟩⟩ := valueTurn_cases h
  · rw [List.append_assoc, List.append_assoc]
    exact valueTurn_close hws hclose hne (r ++ x)
  · rw [List.append_assoc, List.cons_append]
    exact valueTurn_stay hws hc fun hm => hmeets (hm.of_append (x := x))

theorem valueTurn_takes (hne : close ≠ []) {e : List α} {k : Bool} (h : valueTurn trim single close b = some (e, r, k)) : Takes b r := by
  obtain ⟨ws, hws, ⟨rfl, rfl, rfl⟩ | ⟨rfl, c, hc, rfl, rfl, -⟩⟩ := valueTurn_cases h
  · exact ⟨ws ++ close, by simp [hne], (List.append_assoc _ _ _).symm⟩
  · exact ⟨ws ++ [c], by simp, by simp⟩

/-! ## Passing over a value -/

section Passing

variable {S E : Type} {turn : S → List α → Option (S × List α × List E)} {s s' : S}
  {emit : α → List E} {done : List E}

/-- The reader takes the turns of a value. -/
def ReadsValue (trim : α → Bool) (single : Bool) (close : List α)
    (turn : S → List α → Option (S × List α × List E)) (s s' : S) (emit : α → List E)
    (done : List E) : Prop :=
  ∀ b, turn s b = (valueTurn trim single close b).map fun p =>
    (if p.2.2 then s' else s, p.2.1, p.1.flatMap emit ++ if p.2.2 then done else [])

/-- A text that ends with an element that stays is passed over. -/
theorem ReadsValue.runs (hread : ReadsValue trim single close turn s s' emit done)
    (x : List α) :
    x.rdropWhile trim = x → (∀ i < x.length, ¬ Meets close ((x ++ y).drop i)) →
      Runs turn s (x ++ y) (x.flatMap emit) s y := by
  induction hn : x.length using Nat.strongRecOn generalizing x with
  | ind n ih =>
      intro hx hclear
      rcases hx' : x.dropWhile trim with _ | ⟨c, t⟩
      · have hnil : x = [] := by
          rw [← hx, List.rdropWhile_eq_nil_iff]
          exact List.dropWhile_eq_nil_iff.1 hx'
        subst hnil
        exact .refl s y
      · have hsplit := List.takeWhile_append_dropWhile (p := trim) (l := x)
        rw [hx'] at hsplit
        generalize hws : x.takeWhile trim = ws at hsplit
        have hall : ∀ c ∈ ws, trim c = true := by
          rw [← hws]
          exact fun c hc => List.mem_takeWhile_imp hc
        have hc : trim c = false := by
          have hhead := List.head?_dropWhile_not trim x
          rw [hx'] at hhead
          simpa using hhead
        subst hsplit
        rw [List.length_append, List.length_cons] at hn
        have hmeets : ¬ Meets close (c :: (t ++ y)) := by
          have h := hclear ws.length (by omega)
          rwa [List.append_assoc, List.drop_left, List.cons_append] at h
        have hstep : turn s (ws ++ c :: t ++ y) = some (s, t ++ y, (ws ++ [c]).flatMap emit) := by
          rw [hread, List.append_assoc, List.cons_append, valueTurn_stay hall hc hmeets,
            Option.map_some]
          simp
        have hlast : t.rdropWhile trim = t := by
          rw [List.rdropWhile_eq_self_iff] at hx ⊢
          intro hne
          have h := hx (by simp)
          rwa [List.getLast_append_of_ne_nil _ (List.cons_ne_nil c t),
            List.getLast_cons hne] at h
        have hrest := ih t.length (by omega) t rfl hlast (by
          intro i hi
          have h := hclear (ws.length + 1 + i) (by omega)
          rwa [List.append_assoc, ← List.drop_drop, ← List.drop_drop, List.drop_left] at h)
        have hsplit : ws ++ [c] ++ t = ws ++ c :: t := by simp
        have hrun := Runs.step hstep hrest
        rwa [← List.flatMap_append, hsplit] at hrun

variable {tok : α} (hstart : StartsOnly tok close) (hclose : ∀ c t, close = c :: t → trim c = false)

include hstart hclose

/-- Before the closing token, a value is passed over up to what may still be trimmed. -/
theorem ReadsValue.passes (hread : ReadsValue trim single close turn s s' emit done)
    (h : find close b = none) {n : Nat} (hn : n = shortPartial b close) :
    let out := (b.take (b.length - n)).rdropWhile trim
    Runs turn s b (out.flatMap emit) s (b.drop out.length) ∧ turn s (b.drop out.length) = none := by
  intro out
  have hheld : Held [close] b n := held_of_shortPartial (c := tok) (by simpa using hstart)
    (by simpa using h) (by simp [hn]) (.inr ⟨close, by simp, hn⟩)
  have hsafe : out ++ (b.take (b.length - n)).rtakeWhile trim = b.take (b.length - n) :=
    List.rdropWhile_append_rtakeWhile
  have hall : ∀ c ∈ (b.take (b.length - n)).rtakeWhile trim, trim c = true := fun c hc =>
    List.mem_rtakeWhile_imp hc
  generalize (b.take (b.length - n)).rtakeWhile trim = ws at hsafe hall
  have hb : b = out ++ (ws ++ b.drop (b.length - n)) := by
    rw [← List.append_assoc, hsafe, List.take_append_drop]
  have hdrop : b.drop out.length = ws ++ b.drop (b.length - n) := by
    conv_lhs => rw [hb]
    rw [List.drop_left]
  have hlen : out.length ≤ b.length - n := by
    have := congrArg List.length hsafe
    rw [List.length_append, List.length_take] at this
    omega
  rw [hdrop]
  constructor
  · have hrun := hread.runs (y := ws ++ b.drop (b.length - n)) out (List.rdropWhile_idempotent _ _)
      (by
        intro i hi
        rw [← hb]
        have hclear := hheld.clear i (by rw [List.length_take]; omega) close (by simp)
        rwa [← List.drop_append_of_le_length (by rw [List.length_take]; omega),
          List.take_append_drop] at hclear)
    rwa [← hb] at hrun
  · rw [hread]
    rcases hheld.grows with hzero | ⟨t, ht, hpre⟩
    · rw [hzero, Nat.sub_zero, List.drop_length,
        valueTurn_wait hall hclose List.nil_prefix (List.length_pos_iff.2 hstart.ne_nil)]
      rfl
    · rw [List.mem_singleton.1 ht] at hpre
      rw [valueTurn_wait hall hclose hpre]
      · rfl
      · rcases Nat.lt_or_ge (b.drop (b.length - n)).length close.length with hlt | hge
        · exact hlt
        · exfalso
          have heq := hpre.eq_of_length (Nat.le_antisymm hpre.length_le hge)
          refine find_eq_none.1 h (b.length - n) ?_
          unfold OccursAt
          rw [heq]

/-- A value up to its closing token. -/
theorem ReadsValue.closes (hread : ReadsValue trim single close turn s s' emit done) {stop : Nat}
    (h : find close b = some stop) :
    Runs turn s b ((trimTrailing trim single (b.take stop)).flatMap emit ++ done) s'
      (b.drop (stop + close.length)) := by
  obtain ⟨hocc, hfirst⟩ := find_eq_some.1 h
  have hle := find_le h hstart.ne_nil
  obtain ⟨r, hr⟩ := hocc
  have hb : b = b.take stop ++ (close ++ r) := by
    rw [hr, List.take_append_drop]
  have hafter : b.drop (stop + close.length) = r := by
    rw [← List.drop_drop, ← hr, List.drop_left]
  have hsafe : (b.take stop).rdropWhile trim ++ (b.take stop).rtakeWhile trim = b.take stop :=
    List.rdropWhile_append_rtakeWhile
  have hall : ∀ c ∈ (b.take stop).rtakeWhile trim, trim c = true := fun c hc =>
    List.mem_rtakeWhile_imp hc
  have hlast := List.rdropWhile_idempotent trim (b.take stop)
  generalize (b.take stop).rdropWhile trim = out at hsafe hlast
  generalize (b.take stop).rtakeWhile trim = ws at hsafe hall
  have hlen : out.length ≤ stop := by
    have := congrArg List.length hsafe
    rw [List.length_append, List.length_take] at this
    omega
  have hrun := hread.runs (y := ws ++ (close ++ r)) out hlast (by
    intro i hi
    rw [← List.append_assoc, hsafe, ← hb]
    have hclear : Clear [close] (b.take stop) (b.drop stop) :=
      clear_of_occursAt (by simpa using hstart) hstart (find_eq_some.1 h).1 (by simpa using hfirst)
    have hclear := hclear i (by rw [List.length_take]; omega) close (by simp)
    rwa [← List.drop_append_of_le_length (by rw [List.length_take]; omega),
      List.take_append_drop] at hclear)
  have hstep : turn s (ws ++ (close ++ r)) =
      some (s', r, (trimTrailing trim single ws).flatMap emit ++ done) := by
    rw [hread, valueTurn_close hall hclose hstart.ne_nil, Option.map_some]
    rfl
  have hfinal := hrun.trans (.single hstep)
  rw [← List.append_assoc, hsafe, ← hb, ← List.append_assoc, ← List.flatMap_append,
    ← trimTrailing_append single out hlast ws hall, hsafe] at hfinal
  rw [hafter]
  exact hfinal

end Passing

end Turn

end Search
