import Mathlib.Data.List.Basic

/-!
# Elements nested by name

The pieces of a marked-up text: tags that open or close by name, and the text between them.  An
element ends at the tag that brings a counter of the tags of its own name to zero, whatever tags of
other names it holds.
-/

set_option autoImplicit false

namespace Nesting

variable {κ α : Type}

inductive Piece (κ α : Type)
  | opening (k : κ)
  | closing (k : κ)
  | leaf (a : α)

/-- The pieces of an element. -/
def element (k : κ) (inner : List (Piece κ α)) : List (Piece κ α) :=
  .opening k :: (inner ++ [.closing k])

/-- Every tag that opens is closed by a tag of its name, in the order of a nesting. -/
inductive Balanced : List (Piece κ α) → Prop
  | nil : Balanced []
  | leaf {ps : List (Piece κ α)} (a : α) (h : Balanced ps) : Balanced (.leaf a :: ps)
  | nest {inner ps : List (Piece κ α)} (k : κ) (hinner : Balanced inner) (h : Balanced ps) :
      Balanced (element k inner ++ ps)

theorem element_append (k : κ) (inner ps : List (Piece κ α)) :
    element k inner ++ ps = .opening k :: (inner ++ (.closing k :: ps)) := by
  unfold element
  rw [List.cons_append, List.append_assoc, List.singleton_append]

/-- Elements in a row are balanced. -/
theorem Balanced.flatMap_element {es : List (κ × List (Piece κ α))}
    (h : ∀ e ∈ es, Balanced e.2) :
    Balanced (es.flatMap fun e => element e.1 e.2) := by
  induction es with
  | nil => exact .nil
  | cons e es ih =>
      rw [List.flatMap_cons]
      exact .nest e.1 (h e List.mem_cons_self) (ih fun e he => h e (List.mem_cons_of_mem _ he))

variable [DecidableEq κ]

/-- What stands before the tag that closes `depth + 1` elements of the name. -/
def inside (k : κ) : Nat → List (Piece κ α) → Option (List (Piece κ α))
  | _, [] => none
  | depth, .leaf a :: ps => (inside k depth ps).map (.leaf a :: ·)
  | depth, .opening j :: ps =>
      (inside k (if j = k then depth + 1 else depth) ps).map (.opening j :: ·)
  | 0, .closing j :: ps =>
      if j = k then some [] else (inside k 0 ps).map (.closing j :: ·)
  | depth + 1, .closing j :: ps =>
      (inside k (if j = k then depth else depth + 1) ps).map (.closing j :: ·)

/-- What closes an element stands behind it. -/
theorem closing_mem_of_inside {k : κ} {depth : Nat} {ps inner : List (Piece κ α)}
    (h : inside k depth ps = some inner) : .closing k ∈ ps := by
  induction ps generalizing depth inner with
  | nil => cases h
  | cons p ps ih =>
      apply List.mem_cons.2
      cases p with
      | leaf a =>
          obtain ⟨inner, hin, -⟩ := Option.map_eq_some_iff.1 h
          exact .inr (ih hin)
      | opening j =>
          obtain ⟨inner, hin, -⟩ := Option.map_eq_some_iff.1 h
          exact .inr (ih hin)
      | closing j =>
          by_cases hj : j = k
          · left
            rw [hj]
          · right
            cases depth with
            | zero =>
                rw [inside, if_neg hj] at h
                obtain ⟨inner, hin, -⟩ := Option.map_eq_some_iff.1 h
                exact ih hin
            | succ depth =>
                obtain ⟨inner, hin, -⟩ := Option.map_eq_some_iff.1 h
                exact ih hin

/-- The counter is what it was behind balanced pieces. -/
theorem inside_balanced {ps : List (Piece κ α)} (h : Balanced ps) (k : κ) (depth : Nat)
    (rest : List (Piece κ α)) :
    inside k depth (ps ++ rest) = (inside k depth rest).map (ps ++ ·) := by
  induction h generalizing depth rest with
  | nil =>
      rw [List.nil_append]
      exact Option.map_id'.symm
  | leaf a _ ih =>
      rw [List.cons_append, inside, ih, Option.map_map]
      rfl
  | @nest inner ps j _ _ ihinner ih =>
      have hassoc (z : List (Piece κ α)) : element j inner ++ ps ++ z =
          .opening j :: (inner ++ (.closing j :: (ps ++ z))) := by
        rw [List.append_assoc, element_append]
      have hclose (d : Nat) : inside k (if j = k then d + 1 else d) (.closing j :: (ps ++ rest)) =
          (inside k d (ps ++ rest)).map (.closing j :: ·) := by
        by_cases hj : j = k
        · rw [if_pos hj, inside, if_pos hj]
        · rw [if_neg hj]
          cases d with
          | zero => rw [inside, if_neg hj]
          | succ d => rw [inside, if_neg hj]
      rw [hassoc, inside, ihinner, hclose, ih, Option.map_map, Option.map_map, Option.map_map]
      congr 1
      funext z
      exact (hassoc z).symm

/-- An element holds what its own tags enclose. -/
theorem inside_element {inner : List (Piece κ α)} (h : Balanced inner) (k : κ)
    (rest : List (Piece κ α)) :
    inside k 0 (inner ++ (.closing k :: rest)) = some inner := by
  rw [inside_balanced h, inside, if_pos rfl, Option.map_some, List.append_nil]

end Nesting
