import Mathlib.Data.List.Induction
import Mathlib.Logic.Function.Basic

/-!
# Copies in any order

Copies between the locations of a memory.  When no copy writes what another reads, and two that write
the same location read the same value, the outcome does not depend on their order.
-/

set_option autoImplicit false

namespace Copies

open Function

structure Copy (Loc : Type) where
  dst : Loc
  src : Loc

variable {Loc V : Type} [DecidableEq Loc]

def exec (mem : Loc → V) (copy : Copy Loc) : Loc → V := update mem copy.dst (mem copy.src)

def run (mem : Loc → V) (copies : List (Copy Loc)) : Loc → V := copies.foldl exec mem

/-- No copy writes a location that another reads. -/
def Apart (copies : List (Copy Loc)) : Prop :=
  ∀ r ∈ copies, ∀ w ∈ copies, r.src ≠ w.dst

theorem run_of_not_written (copies : List (Copy Loc)) : ∀ (mem : Loc → V) {a : Loc},
    (∀ w ∈ copies, a ≠ w.dst) → run mem copies a = mem a := by
  induction copies with
  | nil => exact fun _ _ _ => rfl
  | cons w rest ih =>
      intro mem a ha
      change run (exec mem w) rest a = mem a
      rw [ih (exec mem w) fun v hv => ha v (List.mem_cons_of_mem w hv)]
      exact update_of_ne (ha w List.mem_cons_self) _ _

/-- What is read is as it was before the first copy. -/
theorem Apart.run_src {copies : List (Copy Loc)} (h : Apart copies) {done : List (Copy Loc)}
    (hdone : ∀ w ∈ done, w ∈ copies) (mem : Loc → V) {r : Copy Loc} (hr : r ∈ copies) :
    run mem done r.src = mem r.src :=
  run_of_not_written done mem fun w hw => h r hr w (hdone w hw)

/-- A location that is written has the value every copy to it carries. -/
theorem Apart.run_dst {copies : List (Copy Loc)} (h : Apart copies) (mem : Loc → V) {a : Loc} {v : V}
    (hsame : ∀ w ∈ copies, w.dst = a → mem w.src = v) (hw : ∃ w ∈ copies, w.dst = a) :
    run mem copies a = v := by
  induction copies using List.reverseRecOn with
  | nil =>
      obtain ⟨w, hmem, -⟩ := hw
      cases hmem
  | append_singleton copies last ih =>
      have hsub : ∀ w ∈ copies, w ∈ copies ++ [last] := fun w => List.mem_append_left [last]
      have hlast : last ∈ copies ++ [last] := List.mem_append_right copies List.mem_cons_self
      have hread : run mem copies last.src = mem last.src := h.run_src hsub mem hlast
      change (copies ++ [last]).foldl exec mem a = v
      rw [List.foldl_append]
      change update (run mem copies) last.dst (run mem copies last.src) a = v
      by_cases hdst : last.dst = a
      · rw [hread, hdst, update_self]
        exact hsame last hlast hdst
      · rw [update_of_ne (Ne.symm hdst)]
        apply ih fun r hr w hw => h r (hsub r hr) w (hsub w hw)
        · exact fun w hw => hsame w (hsub w hw)
        · obtain ⟨w, hmem, hwa⟩ := hw
          rcases List.mem_append.1 hmem with hmem | hmem
          · exact ⟨w, hmem, hwa⟩
          · exact absurd (List.mem_singleton.1 hmem ▸ hwa) hdst

end Copies
