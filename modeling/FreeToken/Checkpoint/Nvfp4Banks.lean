import Mathlib.Data.List.Sort
import Mathlib.Logic.Function.Basic
import FreeToken.Checkpoint.FtwBanks

/-!
# NVFP4 expert banks

`models/nvfp4_banks.py`, with `LayerCompletionTracker` of `moe/host_banks.py` and the order in which
`iter_expert_tensors_parallel` hands out the tensors.  The weights and scales of the experts are copied
into six host banks, one buffer per layer; a tensor is a list of rows.  A layer and an expert of a bank
are indices that are in range, so a write out of range cannot be told from the model: it raises first.
-/

set_option autoImplicit false

namespace FreeToken

namespace Nvfp4

open Function

variable {Name Shard P S F G R : Type} {L E H I : Nat}

/-- What the loaders raise, without the text. -/
inductive Error
  | bankLayer (desc : String) (bankLayer : Int) (layer numLayers : Nat)
  | unknownProjection (desc proj : String)
  | unknownKind (desc kind : String)
  | unknownRole (desc role : String)
  | keyError
  | indexError
  | shapeMismatch
  | expectedPerLayer
  | placedCount (desc : String) (placed expected : Nat)
  deriving DecidableEq, Repr

/-! ## Configuration and index -/

/-- The groups of a name that matches the key pattern, the numbers as `int` reads them. -/
structure Match where
  layer : Nat
  expert : Nat
  proj : String
  kind : String
  deriving DecidableEq, Repr

structure Nvfp4ExpertSourceSpec (Name : Type) where
  keyPattern : Name → Option Match
  projToRole : List (String × String)
  layerToBank : Nat → Option Int
  desc : String

structure Config where
  numExperts : Nat
  hiddenSize : Nat
  moeIntermediateSize : Nat
  numMoeLayers : Option Nat
  numLayers : Nat
  firstKDenseReplace : Nat

/-- `_num_moe_layers`; there are not more dense layers than layers. -/
def Config.moeLayers (c : Config) : Nat := c.numMoeLayers.getD (c.numLayers - c.firstKDenseReplace)

/-- The index of a checkpoint, and its tensors as the banks of each kind take them. -/
structure Checkpoint (Name Shard P S F : Type) where
  weightMap : List (Name × Shard)
  packed : Name → List P
  scale : Name → List S
  global : Name → F

theorem toNat_lt_of {L : Nat} {b : Int} (h : 0 ≤ b ∧ b < L) : b.toNat < L := by omega

/-- `_bank_layer` -/
def bankLayer (spec : Nvfp4ExpertSourceSpec Name) (L layer : Nat) : Except Error (Option (Fin L)) :=
  match spec.layerToBank layer with
  | none => .ok none
  | some b =>
      if h : 0 ≤ b ∧ b < L then .ok (some ⟨b.toNat, toNat_lt_of h⟩)
      else .error (.bankLayer spec.desc b layer L)

/-- A name of the index that is to be loaded. -/
structure Item (Name Shard : Type) (L : Nat) where
  name : Name
  shard : Shard
  m : Match
  bank : Fin L

/-- The loop over the index; `checkProj` is the serial loader's check of the projection. -/
def selectItems (checkProj : Bool) (spec : Nvfp4ExpertSourceSpec Name) (L : Nat) :
    List (Name × Shard) → Except Error (List (Item Name Shard L))
  | [] => .ok []
  | (name, shard) :: rest =>
      match spec.keyPattern name with
      | none => selectItems checkProj spec L rest
      | some m => do
          match ← bankLayer spec L m.layer with
          | none => selectItems checkProj spec L rest
          | some bank =>
              if checkProj ∧ spec.projToRole.lookup m.proj = none then
                throw (.unknownProjection spec.desc m.proj)
              if m.kind ∈ ["weight_scale_2", "weight", "weight_scale"] then
                return ⟨name, shard, m, bank⟩ :: (← selectItems checkProj spec L rest)
              else throw (.unknownKind spec.desc m.kind)

def Item.isGlobal (x : Item Name Shard L) : Bool := x.m.kind = "weight_scale_2"

/-- `for shard in sorted(shards): for … in shards[shard]` -/
def byShard {A : Type} [LinearOrder Shard] (shard : A → Shard) (items : List A) : List A :=
  ((items.map shard).dedup.mergeSort fun a b => decide (a ≤ b)).flatMap fun s =>
    items.filter fun x => decide (shard x = s)

/-- `globals_map` -/
def globalsMap [LinearOrder Shard] (ck : Checkpoint Name Shard P S F) (toHalf : F → G)
    (items : List (Item Name Shard L)) : List ((Nat × Nat × String) × G) :=
  (byShard Item.shard (items.filter Item.isGlobal)).map fun x =>
    ((x.m.layer, x.m.expert, x.m.proj), toHalf (ck.global x.name))

/-! ## Banks -/

/-- One `[E, n]` tensor of rows per layer. -/
abbrev Bank (L E n : Nat) (R : Type) := Fin L → Fin E → Fin n → R

/-- A tensor of `n` rows as it is, one row for all of them. -/
def broadcast (n : Nat) (t : List R) : Option (List R) :=
  if t.length = n then some t
  else match t with
    | [x] => some (List.replicate n x)
    | _ => none

/-- `bank[layer][expert, lo:hi] = t` -/
def assignRows {n : Nat} (bank : Bank L E n R) (b : Fin L) (expert lo hi : Nat) (t : List R) :
    Except Error (Bank L E n R) :=
  if expert < E then
    match broadcast (hi - lo) t with
    | none => .error .shapeMismatch
    | some rows => .ok fun b' e r =>
        if b' = b ∧ e.val = expert ∧ lo ≤ r.val ∧ r.val < hi then rows.getD (r - lo) (bank b' e r)
        else bank b' e r
  else .error .indexError

/-- `gate_up_*` and `down_*` of one family. -/
structure Pair (L E H I : Nat) (R : Type) where
  gateUp : Bank L E (2 * I) R
  down : Bank L E H R

/-- The rows of a projection; `strict` is the serial loader's `raise` of an unknown role, which the
parallel loader takes for the down projection. -/
def Pair.assign (strict : Bool) (desc : String) (banks : Pair L E H I R) (role : String) (b : Fin L)
    (expert : Nat) (t : List R) : Except Error (Pair L E H I R) :=
  if role = "gate" then do return { banks with gateUp := ← assignRows banks.gateUp b expert 0 I t }
  else if role = "up" then do
    return { banks with gateUp := ← assignRows banks.gateUp b expert I (2 * I) t }
  else if role = "down" ∨ strict = false then do
    return { banks with down := ← assignRows banks.down b expert 0 H t }
  else .error (.unknownRole desc role)

/-- The six source banks. -/
structure SourceBanks (L E H I : Nat) (P S G : Type) where
  packed : Pair L E H I P
  scale : Pair L E H I S
  global : Pair L E H I G

/-! ## The completion tracker -/

structure LayerCompletionTracker (L : Nat) where
  expectedPerLayer : Nat
  counts : Fin L → Nat

def LayerCompletionTracker.init (expected : Nat) : Except Error (LayerCompletionTracker L) :=
  if 0 < expected then .ok ⟨expected, fun _ => 0⟩ else .error .expectedPerLayer

def LayerCompletionTracker.note (t : LayerCompletionTracker L) (b : Fin L) :
    LayerCompletionTracker L × Bool :=
  ({ t with counts := update t.counts b (t.counts b + 1) },
    decide (t.counts b + 1 = t.expectedPerLayer))

/-! ## The loaders -/

/-- What happens to a layer's banks, in order. -/
inductive Event (L : Nat)
  | wrote (b : Fin L)
  | layerSink (b : Fin L)
  deriving DecidableEq, Repr

structure Load (L E H I : Nat) (P S G : Type) where
  banks : SourceBanks L E H I P S G
  tracker : LayerCompletionTracker L
  placed : Nat
  events : List (Event L)

section Place

variable (strict : Bool) (spec : Nvfp4ExpertSourceSpec Name) (ck : Checkpoint Name Shard P S F)
  (globals : List ((Nat × Nat × String) × G))

/-- Copies a tensor, a scale together with its global scale. -/
def place (banks : SourceBanks L E H I P S G) (x : Item Name Shard L) :
    Except Error (SourceBanks L E H I P S G) :=
  match spec.projToRole.lookup x.m.proj with
  | none => .error .keyError
  | some role =>
      if x.m.kind = "weight" then do
        let packed ← banks.packed.assign strict spec.desc role x.bank x.m.expert (ck.packed x.name)
        return { banks with packed := packed }
      else
        match Ftw.assigned globals (x.m.layer, x.m.expert, x.m.proj) with
        | none => .error .keyError
        | some g => do
            let scale ← banks.scale.assign strict spec.desc role x.bank x.m.expert (ck.scale x.name)
            let global ← banks.global.assign strict spec.desc role x.bank x.m.expert [g]
            return { banks with scale := scale, global := global }

def loadStep (st : Load L E H I P S G) (x : Item Name Shard L) : Except Error (Load L E H I P S G) := do
  let banks ← place strict spec ck globals st.banks x
  let noted := st.tracker.note x.bank
  return {
    banks := banks
    tracker := noted.1
    placed := st.placed + 1
    events := st.events ++ .wrote x.bank :: if noted.2 then [.layerSink x.bank] else [] }

/-- `_load`, and the count at the end. -/
def load (fresh : SourceBanks L E H I P S G) (items : List (Item Name Shard L)) :
    Except Error (SourceBanks L E H I P S G × List (Event L)) := do
  let tracker ← LayerCompletionTracker.init (E * 6)
  let st ← items.foldlM (loadStep strict spec ck globals) ⟨fresh, tracker, 0, []⟩
  if st.placed = L * E * 6 then return (st.banks, st.events)
  else throw (.placedCount spec.desc st.placed (L * E * 6))

end Place

variable [LinearOrder Shard] (spec : Nvfp4ExpertSourceSpec Name) (c : Config)
  (ck : Checkpoint Name Shard P S F) (toHalf : F → G)

/-- The banks before the first write hold `fresh`. -/
def loadNvfp4ExpertSourceBanks
    (fresh : SourceBanks c.moeLayers c.numExperts c.hiddenSize c.moeIntermediateSize P S G) :
    Except Error (SourceBanks c.moeLayers c.numExperts c.hiddenSize c.moeIntermediateSize P S G ×
      List (Event c.moeLayers)) := do
  let items ← selectItems true spec c.moeLayers ck.weightMap
  load true spec ck (globalsMap ck toHalf items) fresh
    (byShard Item.shard (items.filter fun x => !x.isGlobal))

/-- `iter_expert_tensors_parallel`: the names, shard by shard. -/
def iterExpertTensorsParallel (isExpert : Name → Bool) : List Name :=
  (byShard Prod.snd (ck.weightMap.filter fun n => isExpert n.1)).map Prod.fst

/-- `weight_info[name]` of every name that is read. -/
def weightInfo [DecidableEq Name] (items : List (Item Name Shard L)) (name : Name) :
    Except Error (Item Name Shard L) :=
  match Ftw.assigned (items.map fun x => (x.name, x)) name with
  | none => .error .keyError
  | some x => .ok x

def loadNvfp4ExpertSourceBanksParallel [DecidableEq Name]
    (fresh : SourceBanks c.moeLayers c.numExperts c.hiddenSize c.moeIntermediateSize P S G) :
    Except Error (SourceBanks c.moeLayers c.numExperts c.hiddenSize c.moeIntermediateSize P S G ×
      List (Event c.moeLayers)) := do
  let items ← selectItems false spec c.moeLayers ck.weightMap
  let weights := items.filter fun x => !x.isGlobal
  let read ← (iterExpertTensorsParallel ck fun n => decide (n ∈ weights.map Item.name)).mapM
    (weightInfo weights)
  load false spec ck (globalsMap ck toHalf items) fresh read

end Nvfp4

end FreeToken
