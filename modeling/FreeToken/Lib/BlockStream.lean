import FreeToken.Lib.Machine

/-!
# Streams of blocks

Blocks are numbered from zero; one is opened, takes its pieces and is closed before the next one is
opened.  A view is what a reader has of such a stream.
-/

set_option autoImplicit false

namespace BlockStream

variable {B D : Type}

inductive Frame (B D : Type)
  | start (index : Nat) (block : B)
  | delta (index : Nat) (piece : D)
  | stop (index : Nat)

/-- The blocks that are closed, and the one that is open. -/
structure View (B : Type) where
  closed : List B := []
  current : Option B := none

namespace View

def all (v : View B) : List B := v.closed ++ v.current.toList

/-- Read a frame; `extend` puts a piece to a block, if it is one for the block. -/
def step (extend : B → D → Option B) (v : View B) : Frame B D → Option (View B)
  | .start i b =>
      if v.current.isNone ∧ i = v.closed.length then some { v with current := some b } else none
  | .delta i p =>
      if i = v.closed.length then
        (v.current.bind fun b => extend b p).map fun b => { v with current := some b }
      else none
  | .stop i =>
      if i = v.closed.length then v.current.map fun b => ⟨v.closed ++ [b], none⟩ else none

variable {extend : B → D → Option B} {v : View B} {b b' : B} {p : D}

theorem step_start (h : v.current = none) (b : B) :
    step extend v (.start v.closed.length b) = some { v with current := some b } := by
  simp [step, h]

theorem step_delta (h : v.current = some b) (hp : extend b p = some b') :
    step extend v (.delta v.closed.length p) = some { v with current := some b' } := by
  simp [step, h, hp]

theorem step_stop (h : v.current = some b) :
    step extend v (.stop v.closed.length : Frame B D) = some ⟨v.closed ++ [b], none⟩ := by
  simp [step, h]

theorem all_of_none (h : v.current = none) : v.all = v.closed := by
  rw [all, h, Option.toList_none, List.append_nil]

theorem all_of_some (h : v.current = some b) : v.all = v.closed ++ [b] := by
  rw [all, h, Option.toList_some]

end View

end BlockStream
