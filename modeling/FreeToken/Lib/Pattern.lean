import FreeToken.Lib.Search

/-!
# Patterns and their leftmost match

A pattern looks at the beginning of a text and says what it captured and what is left.  A search
takes the leftmost match; what it finds in a text it finds in every longer one, when no match can
contain another one and go on after it.
-/

set_option autoImplicit false

namespace Pattern

variable {α G : Type} {m : List α → Option (G × List α)} {b r w : List α} {g : G}

/-- The leftmost match of a pattern that does not match the empty text. -/
def search (m : List α → Option (G × List α)) : List α → Option (G × List α)
  | [] => none
  | c :: t =>
      match m (c :: t) with
      | some p => some p
      | none => search m t

/-- The pattern matches the whole text. -/
def Matches (m : List α → Option (G × List α)) (w : List α) : Prop := ∃ g, m w = some (g, [])

/-- A match is decided by what it takes, and no match contains another one and goes on after it. -/
structure Tight (m : List α → Option (G × List α)) : Prop where
  extend : ∀ {b g r}, m b = some (g, r) → ∀ x, m (b ++ x) = some (g, r ++ x)
  word : ∀ {b g r}, m b = some (g, r) → ∃ w, w ≠ [] ∧ b = w ++ r ∧ m w = some (g, [])
  ends : ∀ {u w v}, Matches m (u ++ (w ++ v)) → Matches m w → v = []

theorem search_eq_some (h : search m b = some (g, r)) :
    ∃ u t, b = u ++ t ∧ m t = some (g, r) ∧ ∀ u' t', b = u' ++ t' → u'.length < u.length →
      m t' = none := by
  induction b with
  | nil => cases h
  | cons c b ih =>
      rw [search] at h
      cases hm : m (c :: b) with
      | some p =>
          rw [hm] at h
          cases h
          exact ⟨[], _, rfl, hm, fun u' t' _ hlt => absurd hlt (Nat.not_lt_zero _)⟩
      | none =>
          rw [hm] at h
          obtain ⟨u, t, rfl, ht, hfirst⟩ := ih h
          refine ⟨c :: u, t, rfl, ht, fun u' t' heq hlt => ?_⟩
          cases u' with
          | nil =>
              rw [List.nil_append] at heq
              rw [← heq]
              exact hm
          | cons d u' =>
              rw [List.cons_append, List.cons.injEq] at heq
              exact hfirst u' t' heq.2 (Nat.lt_of_succ_lt_succ hlt)

theorem Tight.search_append (hm : Tight m) (h : search m b = some (g, r)) (x : List α) :
    search m (b ++ x) = some (g, r ++ x) := by
  induction b with
  | nil => cases h
  | cons c b ih =>
      rw [search] at h
      rw [List.cons_append, search, ← List.cons_append]
      cases hhead : m (c :: b) with
      | some p =>
          rw [hhead] at h
          cases h
          rw [hm.extend hhead x]
      | none =>
          rw [hhead] at h
          rw [List.cons_append]
          cases hlong : m (c :: (b ++ x)) with
          | none => exact ih h
          | some p =>
              exfalso
              obtain ⟨u, t, rfl, ht, -⟩ := search_eq_some h
              obtain ⟨w', -, rfl, hw'⟩ := hm.word ht
              obtain ⟨w, hne, heq, hw⟩ := hm.word (b := c :: (u ++ (w' ++ r) ++ x)) hlong
              rw [← List.cons_append] at heq
              rcases List.append_eq_append_iff.1 heq with ⟨y, rfl, hy⟩ | ⟨y, hy, -⟩
              · -- the match goes on after the text, and contains the one found
                rw [← List.cons_append, List.append_assoc, List.append_assoc] at hw
                have hnil := hm.ends ⟨_, hw⟩ ⟨_, hw'⟩
                rw [hnil] at hw
                obtain ⟨rfl, rfl⟩ := List.append_eq_nil_iff.1 hnil
                rw [List.append_nil] at hw hhead
                rw [← List.cons_append, hw] at hhead
                cases hhead
              · have hext := hm.extend hw y
                rw [← hy, hhead] at hext
                cases hext

/-- A match that leaves the added text was there before. -/
theorem Tight.search_of_append (hm : Tight m) {x : List α} (h : search m (b ++ x) = some (g, r ++ x)) :
    search m b = some (g, r) := by
  obtain ⟨u, t, heq, ht, hfirst⟩ := search_eq_some h
  obtain ⟨w, hne, rfl, hw⟩ := hm.word ht
  have hb : b = u ++ (w ++ r) := by
    rw [← List.append_assoc, ← List.append_assoc, List.append_cancel_right_eq] at heq
    rw [heq, List.append_assoc]
  subst hb
  have hword := hm.extend hw r
  rw [List.nil_append] at hword
  clear ht h heq
  induction u with
  | nil =>
      obtain ⟨c, w, rfl⟩ := List.exists_cons_of_ne_nil hne
      rw [List.nil_append, List.cons_append, search, ← List.cons_append, hword]
  | cons c u ih =>
      have hhead : m (c :: (u ++ (w ++ r))) = none := by
        cases hc : m (c :: (u ++ (w ++ r))) with
        | none => rfl
        | some p =>
            have hlong := hm.extend hc x
            rw [hfirst [] _ (by simp) (Nat.succ_pos _)] at hlong
            cases hlong
      rw [List.cons_append, search, hhead]
      exact ih fun u' t' heq hlt => hfirst (c :: u') t' (by simp [← heq])
        (Nat.succ_lt_succ hlt)

/-- A search goes past what it found. -/
theorem Tight.search_word (hm : Tight m) (h : search m b = some (g, r)) :
    ∃ w, w ≠ [] ∧ b = w ++ r := by
  obtain ⟨u, t, rfl, ht, -⟩ := search_eq_some h
  obtain ⟨w, hne, rfl, -⟩ := hm.word ht
  exact ⟨u ++ w, by simp [hne], by rw [List.append_assoc]⟩

/-- The part of a text before a separator is decided by the separator. -/
theorem append_cons_inj {q : α} {x x' y y' : List α} (hx : q ∉ x) (hx' : q ∉ x')
    (h : x ++ q :: y = x' ++ q :: y') : x = x' ∧ y = y' := by
  induction x generalizing x' with
  | nil =>
      cases x' with
      | nil => exact ⟨rfl, by simpa using h⟩
      | cons c x' =>
          rw [List.nil_append, List.cons_append, List.cons.injEq] at h
          exact absurd (h.1 ▸ List.mem_cons_self) hx'
  | cons c x ih =>
      cases x' with
      | nil =>
          rw [List.nil_append, List.cons_append, List.cons.injEq] at h
          exact absurd (h.1 ▸ List.mem_cons_self) hx
      | cons c' x' =>
          rw [List.cons_append, List.cons_append, List.cons.injEq] at h
          obtain ⟨rfl, hyy⟩ := ih (fun hq => hx (List.mem_cons_of_mem _ hq))
            (fun hq => hx' (List.mem_cons_of_mem _ hq)) h.2
          exact ⟨by rw [h.1], hyy⟩

theorem search_match (hne : w ≠ []) (h : m (w ++ r) = some (g, r)) :
    search m (w ++ r) = some (g, r) := by
  obtain ⟨c, w, rfl⟩ := List.exists_cons_of_ne_nil hne
  rw [List.cons_append] at h ⊢
  rw [search, h]

/-! ## All matches -/

/-- The matches from the left, none overlapping, after some elements that a match has taken. -/
def findAllAfter (m : List α → Option (G × List α)) : Nat → List α → List G
  | _, [] => []
  | n + 1, _ :: t => findAllAfter m n t
  | 0, c :: t =>
      match m (c :: t) with
      | some (g, r) => g :: findAllAfter m (t.length - r.length) t
      | none => findAllAfter m 0 t

/-- All matches from the left, none overlapping. -/
def findAll (m : List α → Option (G × List α)) (t : List α) : List G := findAllAfter m 0 t

theorem findAllAfter_append (w r : List α) : findAllAfter m w.length (w ++ r) = findAll m r := by
  induction w with
  | nil => rfl
  | cons c w ih =>
      rw [List.length_cons, List.cons_append, findAllAfter]
      exact ih

theorem findAll_match (hne : w ≠ []) (h : m (w ++ r) = some (g, r)) :
    findAll m (w ++ r) = g :: findAll m r := by
  obtain ⟨c, w, rfl⟩ := List.exists_cons_of_ne_nil hne
  unfold findAll
  rw [List.cons_append] at h ⊢
  rw [findAllAfter, h]
  dsimp only
  rw [List.length_append, Nat.add_sub_cancel, findAllAfter_append]
  rfl

/-- Where nothing matches, the matches are those of what follows. -/
theorem findAll_skip (h : ∀ i < w.length, m ((w ++ r).drop i) = none) :
    findAll m (w ++ r) = findAll m r := by
  induction w with
  | nil => rfl
  | cons c w ih =>
      have hhead := h 0 (Nat.succ_pos _)
      rw [List.drop_zero, List.cons_append] at hhead
      unfold findAll
      rw [List.cons_append, findAllAfter, hhead]
      exact ih fun i hi => h (i + 1) (Nat.succ_lt_succ hi)

section Enclosed

variable [DecidableEq α] {tok body : List α}

/-- An opening pattern, and what stands between it and the closing token. -/
def enclosed (m : List α → Option (G × List α)) (tok b : List α) :
    Option ((G × List α) × List α) := do
  let (g, r) ← m b
  let stop ← Search.find tok r
  return ((g, r.take stop), r.drop (stop + tok.length))

theorem enclosed_eq (hopen : m (w ++ (body ++ (tok ++ r))) = some (g, body ++ (tok ++ r)))
    (hfind : Search.find tok (body ++ (tok ++ r)) = some body.length) :
    enclosed m tok (w ++ (body ++ (tok ++ r))) = some ((g, body), r) := by
  unfold enclosed
  simp only [Option.bind_eq_bind, hopen, Option.bind_some, hfind, Option.pure_def]
  rw [List.take_left, ← List.drop_drop, List.drop_left, List.drop_left]

theorem enclosed_none (h : m b = none) : enclosed m tok b = none := by
  unfold enclosed
  rw [h]
  rfl

end Enclosed

end Pattern
