import FreeToken.Core

/-!
# The second currencies

`LinearStatePool`: recurrent-state slots on one free list, last freed first out.  `SwaPool`: the
allocator of `HybridSWAKVCache`, which gives a sliding-window slot to every full-pool slot in use.
Each slot carries, beside the source's fields, the token prefix whose state or KV was last written
to it.
-/

set_option autoImplicit false

namespace FreeToken

structure LinearStatePool where
  numSlots : Nat
  freeSlots : List Nat
  states : Nat → List Token

namespace LinearStatePool

def init (numSlots : Nat) : LinearStatePool where
  numSlots := numSlots
  freeSlots := List.range' 1 (numSlots - 1)
  states := fun _ => []

def numFreeSlots (p : LinearStatePool) : Nat := p.freeSlots.length

/-- Pop `n` slots from the end of the list. -/
def alloc (p : LinearStatePool) (n : Nat) : Py (LinearStatePool × List Nat) :=
  if p.freeSlots.length < n then .error (.linearPoolExhausted n p.freeSlots.length)
  else
    let keep := p.freeSlots.length - n
    .ok ({ p with freeSlots := p.freeSlots.take keep }, (p.freeSlots.drop keep).reverse)

def free (p : LinearStatePool) (slots : List Nat) : LinearStatePool :=
  { p with freeSlots := p.freeSlots ++ slots }

def write (p : LinearStatePool) (slot : Nat) (ids : List Token) : LinearStatePool :=
  { p with states := Function.update p.states slot ids }

def copyFrom (p : LinearStatePool) (src dst : Nat) : LinearStatePool :=
  p.write dst (p.states src)

@[simp] theorem free_numSlots (p : LinearStatePool) (slots : List Nat) :
    (p.free slots).numSlots = p.numSlots := rfl

@[simp] theorem free_states (p : LinearStatePool) (slots : List Nat) :
    (p.free slots).states = p.states := rfl

@[simp] theorem free_freeSlots (p : LinearStatePool) (slots : List Nat) :
    (p.free slots).freeSlots = p.freeSlots ++ slots := rfl

@[simp] theorem write_freeSlots (p : LinearStatePool) (slot : Nat) (ids : List Token) :
    (p.write slot ids).freeSlots = p.freeSlots := rfl

@[simp] theorem write_numSlots (p : LinearStatePool) (slot : Nat) (ids : List Token) :
    (p.write slot ids).numSlots = p.numSlots := rfl

@[simp] theorem copyFrom_freeSlots (p : LinearStatePool) (src dst : Nat) :
    (p.copyFrom src dst).freeSlots = p.freeSlots := rfl

@[simp] theorem copyFrom_numSlots (p : LinearStatePool) (src dst : Nat) :
    (p.copyFrom src dst).numSlots = p.numSlots := rfl

theorem alloc_ok {p p' : LinearStatePool} {n : Nat} {slots : List Nat}
    (h : p.alloc n = .ok (p', slots)) :
    p.freeSlots.Perm (slots ++ p'.freeSlots) ∧ slots.length = n ∧ p'.numSlots = p.numSlots ∧
      p'.states = p.states := by
  unfold alloc at h
  split at h
  · cases h
  · rename_i hn
    cases h
    refine ⟨?_, by simp; omega, rfl, rfl⟩
    calc p.freeSlots.Perm (p.freeSlots.take (p.freeSlots.length - n) ++
          p.freeSlots.drop (p.freeSlots.length - n)) := by rw [List.take_append_drop]
      _ |>.Perm _ := List.perm_append_comm
      _ |>.Perm _ := (List.reverse_perm _).symm.append_right _

theorem alloc_of_le {p : LinearStatePool} {n : Nat} (h : n ≤ p.numFreeSlots) :
    ∃ r, p.alloc n = .ok r := by
  unfold alloc
  rw [if_neg (by simpa [numFreeSlots] using h)]
  exact ⟨_, rfl⟩

end LinearStatePool

/-- `fullToSwa` is the dense mapping, `0` its "no live slot" sentinel. -/
structure SwaPool where
  swaNumTokens : Nat
  swaFree : List Nat
  fullToSwa : Nat → Nat
  written : Nat → List Token

namespace SwaPool

def init (swaNumTokens : Nat) : SwaPool where
  swaNumTokens := swaNumTokens
  swaFree := List.range' 1 (swaNumTokens - 1)
  fullToSwa := fun _ => 0
  written := fun _ => []

def swaAvailableSize (p : SwaPool) : Nat := p.swaFree.length

/-- One slot of the free list for each full-pool slot, in order. -/
def allocSwa (p : SwaPool) (fullIndices : List Nat) : Py SwaPool :=
  if p.swaFree.length < fullIndices.length then
    .error (.swaPoolExhausted fullIndices.length p.swaFree.length)
  else
    .ok { p with
      swaFree := p.swaFree.drop fullIndices.length
      fullToSwa := (fullIndices.zip p.swaFree).foldl
        (fun m e => Function.update m e.1 e.2) p.fullToSwa }

/-- Return the slots behind `fullIndices`; entries already at the sentinel add nothing. -/
def freeSwa (p : SwaPool) (fullIndices : List Nat) : SwaPool :=
  { p with
    swaFree := p.swaFree ++ (fullIndices.map p.fullToSwa).filter (0 < ·)
    fullToSwa := fun i => if i ∈ fullIndices then 0 else p.fullToSwa i }

def write (p : SwaPool) (slot : Nat) (ids : List Token) : SwaPool :=
  { p with written := Function.update p.written slot ids }

end SwaPool

end FreeToken
