import Mathlib.Data.List.Dedup
import Mathlib.Data.List.ProdSigma
import Mathlib.Data.List.Perm.Subperm
import FreeToken.Checkpoint.Nvfp4Banks

/-!
# Places of expert tensors

A name of the index stands for a place: layer, expert, projection and kind.  No two names stand for the
same one; a copy fills its place and leaves the others, and the counter of a layer reaches its end with
the last write to the layer.
-/

set_option autoImplicit false

namespace FreeToken

namespace Nvfp4

open Function

/-! ## Shard by shard -/

section Shards

variable {A Shard : Type}

theorem flatMap_filter_perm [DecidableEq Shard] (shard : A → Shard) (items : List A) :
    ∀ {shards : List Shard}, shards.Nodup →
      (shards.flatMap fun s => items.filter fun x => decide (shard x = s)).Perm
        (items.filter fun x => decide (shard x ∈ shards))
  | [], _ => by simp
  | s :: shards, h => by
      obtain ⟨hfresh, hnodup⟩ := List.nodup_cons.1 h
      have hsplit := List.filter_append_perm (fun x => decide (shard x = s))
        (items.filter fun x => decide (shard x ∈ s :: shards))
      rw [List.filter_filter, List.filter_filter] at hsplit
      have hone : (fun x => decide (shard x = s) && decide (shard x ∈ s :: shards)) =
          fun x => decide (shard x = s) := by
        funext x
        by_cases hx : shard x = s <;> simp [hx]
      have hothers : (fun x => !decide (shard x = s) && decide (shard x ∈ s :: shards)) =
          fun x => decide (shard x ∈ shards) := by
        funext x
        by_cases hx : shard x = s
        · simp [hx, hfresh]
        · simp [hx]
      rw [hone, hothers] at hsplit
      rw [List.flatMap_cons]
      exact ((flatMap_filter_perm shard items hnodup).append_left _).trans hsplit

theorem byShard_perm [LinearOrder Shard] (shard : A → Shard) (items : List A) :
    (byShard shard items).Perm items := by
  have hsorted := List.mergeSort_perm (items.map shard).dedup fun a b => decide (a ≤ b)
  have hnodup := hsorted.nodup_iff.2 (List.nodup_dedup _)
  apply (flatMap_filter_perm shard items hnodup).trans
  rw [List.filter_eq_self.2]
  intro x hx
  rw [decide_eq_true_eq, hsorted.mem_iff, List.mem_dedup]
  exact List.mem_map_of_mem hx

end Shards

variable {Name Shard P S F G R : Type} {L E H I : Nat}

/-! ## What an index lists -/

def roles : List String := ["gate", "up", "down"]

def kinds : List String := ["weight", "weight_scale", "weight_scale_2"]

/-- The rows of a projection. -/
def rowsOf (H I : Nat) (role : String) : Nat := if role = "down" then H else I

/-- The index has the tensor of this layer, expert, projection and kind under this name. -/
def Listed (spec : Nvfp4ExpertSourceSpec Name) (ck : Checkpoint Name Shard P S F) (b : Fin L) (e : Nat)
    (role kind : String) (name : Name) : Prop :=
  ∃ shard m, (name, shard) ∈ ck.weightMap ∧ spec.keyPattern name = some m ∧
    spec.layerToBank m.layer = some (b : Int) ∧ m.expert = e ∧
      spec.projToRole.lookup m.proj = some role ∧ m.kind = kind

/-- Nothing is missing. -/
def Complete (spec : Nvfp4ExpertSourceSpec Name) (ck : Checkpoint Name Shard P S F) (L E : Nat) : Prop :=
  ∀ (b : Fin L) (e : Fin E), ∀ role ∈ roles, ∀ kind ∈ kinds, ∃ name, Listed spec ck b e role kind name

/-- The index of a checkpoint whose expert tensors are those of `E` experts in `L` layers: an entry per
name and a name per tensor, in any order and any shards, and each tensor with the rows of its place. -/
structure Indexed (spec : Nvfp4ExpertSourceSpec Name) (ck : Checkpoint Name Shard P S F) (L E H I : Nat) :
    Prop where
  names : (ck.weightMap.map Prod.fst).Nodup
  layers : ∀ n s m b, (n, s) ∈ ck.weightMap → spec.keyPattern n = some m →
    spec.layerToBank m.layer = some b → 0 ≤ b ∧ b < L
  injective : ∀ l l' b, spec.layerToBank l = some b → spec.layerToBank l' = some b → l = l'
  known : ∀ n s m b, (n, s) ∈ ck.weightMap → spec.keyPattern n = some m →
    spec.layerToBank m.layer = some b →
      m.expert < E ∧ m.kind ∈ kinds ∧ ∃ role ∈ roles, spec.projToRole.lookup m.proj = some role
  oneProj : ∀ p p' role, spec.projToRole.lookup p = some role → spec.projToRole.lookup p' = some role →
    p = p'
  oneName : ∀ n s n' s' m, (n, s) ∈ ck.weightMap → (n', s') ∈ ck.weightMap →
    spec.keyPattern n = some m → spec.keyPattern n' = some m → n = n'
  packedRows : ∀ (b : Fin L) e role n, Listed spec ck b e role "weight" n →
    (ck.packed n).length = rowsOf H I role
  scaleRows : ∀ (b : Fin L) e role n, Listed spec ck b e role "weight_scale" n →
    (ck.scale n).length = rowsOf H I role

/-! ## The names that are loaded -/

section Select

variable {spec : Nvfp4ExpertSourceSpec Name} {ck : Checkpoint Name Shard P S F}

/-- The item of a name, if the name is one of an expert's tensor in a layer with a bank. -/
def itemOf (spec : Nvfp4ExpertSourceSpec Name) (L : Nat) (n : Name × Shard) :
    Option (Item Name Shard L) :=
  match spec.keyPattern n.1 with
  | none => none
  | some m =>
      match spec.layerToBank m.layer with
      | none => none
      | some b => if h : 0 ≤ b ∧ b < L then some ⟨n.1, n.2, m, ⟨b.toNat, toNat_lt_of h⟩⟩ else none

/-- An item and the entry of the index it is made of. -/
structure Of (spec : Nvfp4ExpertSourceSpec Name) (ck : Checkpoint Name Shard P S F)
    (x : Item Name Shard L) : Prop where
  entry : (x.name, x.shard) ∈ ck.weightMap
  key : spec.keyPattern x.name = some x.m
  layer : spec.layerToBank x.m.layer = some (x.bank : Int)

theorem itemOf_eq_some {n : Name × Shard} {x : Item Name Shard L} :
    itemOf spec L n = some x ↔ n = (x.name, x.shard) ∧ spec.keyPattern x.name = some x.m ∧
      spec.layerToBank x.m.layer = some (x.bank : Int) := by
  obtain ⟨name, shard⟩ := n
  unfold itemOf
  dsimp only
  constructor
  · intro h
    cases hm : spec.keyPattern name with
    | none =>
        rw [hm] at h
        cases h
    | some m =>
        rw [hm] at h
        dsimp only at h
        cases hb : spec.layerToBank m.layer with
        | none =>
            rw [hb] at h
            cases h
        | some b =>
            rw [hb] at h
            dsimp only at h
            split at h
            · rename_i hrange
              rw [← Option.some.inj h]
              refine ⟨rfl, hm, ?_⟩
              rw [hb]
              exact congrArg some (Int.toNat_of_nonneg hrange.1).symm
            · cases h
  · rintro ⟨heq, hm, hb⟩
    obtain ⟨rfl, rfl⟩ := Prod.mk.inj heq
    rw [hm]
    dsimp only
    rw [hb]
    dsimp only
    rw [dif_pos ⟨Int.natCast_nonneg _, Int.ofNat_lt.2 x.bank.isLt⟩]
    rfl

theorem selectItems_eq (checkProj : Bool) : ∀ {index : List (Name × Shard)},
    (∀ n s m, (n, s) ∈ index → spec.keyPattern n = some m → ∀ b, spec.layerToBank m.layer = some b →
      (0 ≤ b ∧ b < (L : Int)) ∧ m.kind ∈ kinds ∧
        ∃ role ∈ roles, spec.projToRole.lookup m.proj = some role) →
      selectItems checkProj spec L index = .ok (index.filterMap (itemOf spec L))
  | [], _ => rfl
  | (name, shard) :: index, h => by
      have ih : selectItems checkProj spec L index = .ok (index.filterMap (itemOf spec L)) :=
        selectItems_eq checkProj fun n s m hn => h n s m (List.mem_cons_of_mem _ hn)
      rw [selectItems, List.filterMap_cons]
      unfold itemOf
      dsimp only
      cases hm : spec.keyPattern name with
      | none => exact ih
      | some m =>
          dsimp only
          unfold bankLayer
          cases hb : spec.layerToBank m.layer with
          | none => exact ih
          | some b =>
              obtain ⟨hrange, hkind, role, -, hrole⟩ := h name shard m List.mem_cons_self hm b hb
              have hkinds : m.kind ∈ ["weight_scale_2", "weight", "weight_scale"] := by
                unfold kinds at hkind
                simp only [List.mem_cons, List.not_mem_nil, or_false] at hkind ⊢
                tauto
              dsimp only
              rw [dif_pos hrange, dif_pos hrange, hrole, ih]
              dsimp only [bind, Except.bind]
              rw [if_neg (by simp), if_pos hkinds]
              rfl

theorem mem_filterMap_itemOf {x : Item Name Shard L} :
    x ∈ ck.weightMap.filterMap (itemOf spec L) ↔ Of spec ck x := by
  rw [List.mem_filterMap]
  constructor
  · rintro ⟨n, hn, h⟩
    obtain ⟨rfl, hkey, hlayer⟩ := itemOf_eq_some.1 h
    exact ⟨hn, hkey, hlayer⟩
  · intro h
    exact ⟨_, h.entry, itemOf_eq_some.2 ⟨rfl, h.key, h.layer⟩⟩

theorem Of.listed {x : Item Name Shard L} {role : String} (h : Of spec ck x)
    (hrole : spec.projToRole.lookup x.m.proj = some role) :
    Listed spec ck x.bank x.m.expert role x.m.kind x.name :=
  ⟨x.shard, x.m, h.entry, h.key, h.layer, rfl, hrole, rfl⟩

theorem Listed.exists_of {b : Fin L} {e : Nat} {role kind : String} {name : Name}
    (h : Listed spec ck b e role kind name) : ∃ x : Item Name Shard L, Of spec ck x ∧ x.name = name ∧
      x.bank = b ∧ x.m.expert = e ∧ spec.projToRole.lookup x.m.proj = some role ∧ x.m.kind = kind := by
  obtain ⟨shard, m, hentry, hkey, hlayer, he, hrole, hkind⟩ := h
  exact ⟨⟨name, shard, m, b⟩, ⟨hentry, hkey, hlayer⟩, rfl, rfl, he, hrole, hkind⟩

/-! ## Places -/

/-- The layer, expert, projection and kind that an item is for. -/
def Item.slot (spec : Nvfp4ExpertSourceSpec Name) (x : Item Name Shard L) :
    Fin L × Nat × String × String :=
  (x.bank, x.m.expert, (spec.projToRole.lookup x.m.proj).getD "", x.m.kind)

theorem Item.slot_eq {x : Item Name Shard L} {role : String}
    (h : spec.projToRole.lookup x.m.proj = some role) :
    x.slot spec = (x.bank, x.m.expert, role, x.m.kind) := by
  unfold Item.slot
  rw [h]
  rfl

/-- The places of the tensors that are copied one by one. -/
def slots (L E : Nat) : List (Fin L × Nat × String × String) :=
  List.finRange L ×ˢ (List.range E ×ˢ (roles ×ˢ ["weight", "weight_scale"]))

theorem length_slots (L E : Nat) : (slots L E).length = L * E * 6 := by
  unfold slots
  rw [List.length_product, List.length_product, List.length_finRange, List.length_range, Nat.mul_assoc]
  rfl

theorem nodup_slots (L E : Nat) : (slots L E).Nodup :=
  (List.nodup_finRange L).product (List.nodup_range.product (by decide))

theorem mem_slots {b : Fin L} {e : Nat} {role kind : String} :
    (b, e, role, kind) ∈ slots L E ↔ e < E ∧ role ∈ roles ∧ (kind = "weight" ∨ kind = "weight_scale") := by
  unfold slots
  rw [List.mem_product, List.mem_product, List.mem_product, List.mem_range]
  simp only [List.mem_finRange, true_and, List.mem_cons, List.not_mem_nil, or_false]

namespace Indexed

variable (h : Indexed spec ck L E H I)
include h

theorem select (checkProj : Bool) :
    selectItems checkProj spec L ck.weightMap = .ok (ck.weightMap.filterMap (itemOf spec L)) := by
  apply selectItems_eq
  intro n s m hn hm b hb
  exact ⟨h.layers n s m b hn hm hb, (h.known n s m b hn hm hb).2⟩

theorem known_of {x : Item Name Shard L} (hx : Of spec ck x) :
    x.m.expert < E ∧ x.m.kind ∈ kinds ∧ ∃ role ∈ roles, spec.projToRole.lookup x.m.proj = some role :=
  h.known _ _ _ _ hx.entry hx.key hx.layer

theorem eq_of_name {x y : Item Name Shard L} (hx : Of spec ck x) (hy : Of spec ck y)
    (hname : x.name = y.name) : x = y := by
  have hentry := List.inj_on_of_nodup_map h.names hx.entry hy.entry hname
  obtain ⟨name, shard, m, bank⟩ := x
  obtain ⟨name', shard', m', bank'⟩ := y
  obtain ⟨rfl, rfl⟩ := Prod.mk.inj hentry
  have hm := hx.key.symm.trans hy.key
  obtain rfl : m = m' := Option.some.inj hm
  have hbank := Option.some.inj (hx.layer.symm.trans hy.layer)
  obtain rfl : bank = bank' := Fin.ext (Int.ofNat.inj hbank)
  rfl

/-- A layer, an expert, a projection and a kind have one name. -/
theorem eq_of_slot {x y : Item Name Shard L} (hx : Of spec ck x) (hy : Of spec ck y)
    (hslot : x.slot spec = y.slot spec) : x = y := by
  obtain ⟨-, -, role, -, hrole⟩ := h.known_of hx
  obtain ⟨-, -, role', -, hrole'⟩ := h.known_of hy
  rw [Item.slot_eq hrole, Item.slot_eq hrole', Prod.mk.injEq, Prod.mk.injEq, Prod.mk.injEq] at hslot
  obtain ⟨hbank, hexpert, hroles, hkind⟩ := hslot
  have hlayer : x.m.layer = y.m.layer := by
    apply h.injective _ _ _ hx.layer
    rw [hbank]
    exact hy.layer
  have hproj : x.m.proj = y.m.proj := by
    apply h.oneProj _ _ role hrole
    rw [hroles]
    exact hrole'
  have hm : x.m = y.m := by
    cases hxm : x.m
    cases hym : y.m
    simp_all
  apply h.eq_of_name hx hy
  apply h.oneName _ _ _ _ _ hx.entry hy.entry hx.key
  rw [hm]
  exact hy.key

theorem nodup_items : (ck.weightMap.filterMap (itemOf spec L)).Nodup := by
  apply List.Nodup.filterMap _ h.names.of_map
  intro n n' x hn hn'
  rw [(itemOf_eq_some.1 hn).1, (itemOf_eq_some.1 hn').1]

end Indexed

end Select

/-! ## Writes -/

/-- The rows of a projection in the bank: gate before up, down in a bank of its own. -/
def Pair.rows (p : Pair L E H I R) (role : String) (b : Fin L) (e : Fin E) : List R :=
  if role = "gate" then List.ofFn fun r : Fin I => p.gateUp b e ⟨r, by omega⟩
  else if role = "up" then List.ofFn fun r : Fin I => p.gateUp b e ⟨I + r, by omega⟩
  else List.ofFn (p.down b e)

theorem length_of_broadcast {n : Nat} {t rows : List R} (h : broadcast n t = some rows) :
    rows.length = n := by
  unfold broadcast at h
  split at h
  · rename_i hn
    rw [← Option.some.inj h, hn]
  · split at h
    · rw [← Option.some.inj h, List.length_replicate]
    · cases h

theorem broadcast_of_length {n : Nat} {t : List R} (h : t.length = n) : broadcast n t = some t :=
  if_pos h

theorem broadcast_singleton (n : Nat) (x : R) : broadcast n [x] = some (List.replicate n x) := by
  unfold broadcast
  split
  · rename_i hn
    rw [← hn]
    rfl
  · rfl

/-- The bank with other rows from `lo` on. -/
def putRows {n : Nat} (bank : Bank L E n R) (b : Fin L) (e : Fin E) (lo hi : Nat) (rows : List R) :
    Bank L E n R := fun b' e' r =>
  if b' = b ∧ e'.val = e.val ∧ lo ≤ r.val ∧ r.val < hi then rows.getD (r - lo) (bank b' e' r)
  else bank b' e' r

theorem assignRows_ok {n m : Nat} (bank : Bank L E n R) (b : Fin L) (e : Fin E) {lo hi : Nat}
    {t rows : List R} (hhi : hi = lo + m) (h : broadcast m t = some rows) :
    assignRows bank b e lo hi t = .ok (putRows bank b e lo hi rows) := by
  unfold assignRows
  rw [if_pos e.isLt, hhi, Nat.add_sub_cancel_left, h]
  rfl

theorem ofFn_putRows {n m : Nat} (bank : Bank L E n R) (b : Fin L) (e : Fin E) {lo hi : Nat}
    {rows : List R} (hm : rows.length = m) (hhi : hi = lo + m) (idx : Fin m → Fin n)
    (hidx : ∀ r, (idx r).val = lo + r) :
    (List.ofFn fun r => putRows bank b e lo hi rows b e (idx r)) = rows := by
  apply List.ext_getElem
  · rw [List.length_ofFn, hm]
  · intro i hi' hrows
    have hr := hidx ⟨i, by omega⟩
    rw [List.getElem_ofFn]
    unfold putRows
    rw [if_pos ⟨rfl, rfl, by omega, by omega⟩, hr, Nat.add_sub_cancel_left]
    unfold List.getD
    rw [List.getElem?_eq_getElem hrows]
    rfl

theorem putRows_other {n : Nat} (bank : Bank L E n R) {b b' : Fin L} {e e' : Fin E} {lo hi : Nat}
    {rows : List R} {r : Fin n} (h : (b', e') ≠ (b, e) ∨ r.val < lo ∨ hi ≤ r.val) :
    putRows bank b e lo hi rows b' e' r = bank b' e' r := by
  apply if_neg
  rintro ⟨hb, he, hlo, hhi⟩
  rcases h with h | h | h
  · exact h (by rw [hb, Fin.ext he])
  · omega
  · omega

/-- The first row of a projection in the fused bank. -/
def firstRow (I : Nat) (role : String) : Nat := if role = "up" then I else 0

theorem firstRow_le (I : Nat) (role : String) : firstRow I role + I ≤ 2 * I := by
  unfold firstRow
  split <;> omega

theorem Pair.rows_half (p : Pair L E H I R) {role : String} (h : role = "gate" ∨ role = "up") (b : Fin L)
    (e : Fin E) : p.rows role b e =
      List.ofFn fun r : Fin I =>
        p.gateUp b e ⟨firstRow I role + r, by have := firstRow_le I role; omega⟩ := by
  rcases h with rfl | rfl
  · unfold Pair.rows firstRow
    simp only [if_pos, String.reduceEq, if_false, Nat.zero_add]
  · unfold Pair.rows firstRow
    simp only [String.reduceEq, if_false, if_true]

theorem Pair.assign_half (strict : Bool) (desc : String) (p : Pair L E H I R) {role : String}
    (h : role = "gate" ∨ role = "up") (b : Fin L) (e : Fin E) {t rows : List R}
    (ht : broadcast I t = some rows) :
    p.assign strict desc role b e t =
      .ok { p with gateUp := putRows p.gateUp b e (firstRow I role) (firstRow I role + I) rows } := by
  unfold Pair.assign
  rcases h with rfl | rfl
  · rw [if_pos rfl, assignRows_ok p.gateUp b e (Nat.zero_add I).symm ht]
    simp only [firstRow, String.reduceEq, if_false, Nat.zero_add]
    rfl
  · rw [if_neg (by decide), if_pos rfl, assignRows_ok p.gateUp b e (Nat.two_mul I) ht]
    simp only [firstRow, if_true, Nat.two_mul]
    rfl

theorem Pair.assign_down (strict : Bool) (desc : String) (p : Pair L E H I R) (b : Fin L) (e : Fin E)
    {t rows : List R} (ht : broadcast H t = some rows) :
    p.assign strict desc "down" b e t = .ok { p with down := putRows p.down b e 0 H rows } := by
  unfold Pair.assign
  rw [if_neg (by decide), if_neg (by decide), if_pos (Or.inl rfl),
    assignRows_ok p.down b e (Nat.zero_add H).symm ht]
  rfl

theorem Pair.rows_down (p : Pair L E H I R) (b : Fin L) (e : Fin E) :
    p.rows "down" b e = List.ofFn (p.down b e) := by
  unfold Pair.rows
  rw [if_neg (by decide), if_neg (by decide)]

/-- A projection's rows are as written, those of every other place as before. -/
theorem Pair.assign_spec (strict : Bool) (desc : String) (p : Pair L E H I R) {role : String}
    (hrole : role ∈ roles) (b : Fin L) (e : Fin E) {t rows : List R}
    (ht : broadcast (rowsOf H I role) t = some rows) :
    ∃ p', p.assign strict desc role b e t = .ok p' ∧ p'.rows role b e = rows ∧
      ∀ role' ∈ roles, ∀ b' e', (b', e', role') ≠ (b, e, role) →
        p'.rows role' b' e' = p.rows role' b' e' := by
  have hlen := length_of_broadcast ht
  have hcases : ∀ role ∈ roles, (role = "gate" ∨ role = "up") ∨ role = "down" := by decide
  rcases hcases role hrole with hhalf | rfl
  · have hrows : rowsOf H I role = I := by
      unfold rowsOf
      rcases hhalf with rfl | rfl <;> rfl
    rw [hrows] at ht hlen
    refine ⟨_, p.assign_half strict desc hhalf b e ht, ?_, ?_⟩
    · rw [Pair.rows_half _ hhalf]
      exact ofFn_putRows p.gateUp b e hlen rfl _ fun _ => rfl
    · intro role' hrole' b' e' hne
      rcases hcases role' hrole' with hhalf' | rfl
      · rw [Pair.rows_half _ hhalf', Pair.rows_half _ hhalf']
        congr 1
        funext r
        apply putRows_other
        by_cases hplace : (b', e') = (b, e)
        · -- the other half of the same expert
          right
          obtain ⟨rfl, rfl⟩ := Prod.mk.inj hplace
          have hr := r.isLt
          unfold firstRow
          rcases hhalf with rfl | rfl <;> rcases hhalf' with rfl | rfl
          · exact absurd rfl hne
          · right
            simp only [String.reduceEq, if_false, if_true]
            omega
          · left
            simp only [String.reduceEq, if_false, if_true]
            omega
          · exact absurd rfl hne
        · exact .inl hplace
      · rw [Pair.rows_down, Pair.rows_down]
  · refine ⟨_, p.assign_down strict desc b e ht, ?_, ?_⟩
    · rw [Pair.rows_down]
      exact ofFn_putRows p.down b e hlen (Nat.zero_add H).symm id fun r => (Nat.zero_add r.val).symm
    · intro role' hrole' b' e' hne
      rcases hcases role' hrole' with hhalf' | rfl
      · rw [Pair.rows_half _ hhalf', Pair.rows_half _ hhalf']
      · rw [Pair.rows_down, Pair.rows_down]
        congr 1
        funext r
        apply putRows_other
        left
        rintro hplace
        obtain ⟨rfl, rfl⟩ := Prod.mk.inj hplace
        exact hne rfl

/-! ## The tracker -/

/-- What a tracker makes of writes to these layers. -/
def LayerCompletionTracker.events (t : LayerCompletionTracker L) : List (Fin L) → List (Event L)
  | [] => []
  | b :: bs =>
      (.wrote b :: if (t.note b).2 then [.layerSink b] else []) ++ (t.note b).1.events bs

/-- The sink gets layer `b` once, behind the last write to it. -/
def SinkOnce (events : List (Event L)) (b : Fin L) : Prop :=
  ∃ before after, events = before ++ .layerSink b :: after ∧ .layerSink b ∉ before ∧
    .layerSink b ∉ after ∧ .wrote b ∉ after

theorem mem_of_mem_events {b : Fin L} : ∀ {bs : List (Fin L)} {t : LayerCompletionTracker L},
    (.wrote b ∈ t.events bs ∨ .layerSink b ∈ t.events bs) → b ∈ bs
  | [], _, h => by
      rcases h with h | h <;> cases h
  | b' :: bs, t, h => by
      rw [LayerCompletionTracker.events] at h
      by_cases hb : b = b'
      · rw [hb]
        exact List.mem_cons_self
      · apply List.mem_cons_of_mem
        apply mem_of_mem_events (t := (t.note b').1)
        cases hfire : (t.note b').2 with
        | true =>
            rw [hfire, if_pos rfl] at h
            simpa [hb] using h
        | false =>
            rw [hfire, if_neg (by decide)] at h
            simpa [hb] using h

/-- The counter of a layer reaches the expected count with the last of the layer's writes. -/
theorem events_once (b : Fin L) : ∀ {bs : List (Fin L)} {t : LayerCompletionTracker L},
    t.counts b < t.expectedPerLayer → t.counts b + bs.count b = t.expectedPerLayer →
      SinkOnce (t.events bs) b
  | [], t, hlt, hcount => by
      rw [List.count_nil] at hcount
      omega
  | b' :: bs, t, hlt, hcount => by
      rw [LayerCompletionTracker.events]
      by_cases hb : b' = b
      · rw [hb] at hcount ⊢
        rw [List.count_cons_self] at hcount
        have hcounts : (t.note b).1.counts b = t.counts b + 1 := update_self b _ _
        by_cases hlast : t.counts b + 1 = t.expectedPerLayer
        · -- the last write
          have hfire : (t.note b).2 = true := decide_eq_true hlast
          have hnone : b ∉ bs := by
            rw [← List.count_eq_zero]
            omega
          rw [hfire, if_pos rfl]
          refine ⟨[.wrote b], (t.note b).1.events bs, rfl, by simp, ?_, ?_⟩
          · exact fun h => hnone (mem_of_mem_events (.inr h))
          · exact fun h => hnone (mem_of_mem_events (.inl h))
        · have hfire : (t.note b).2 = false := decide_eq_false hlast
          have hexpected : (t.note b).1.expectedPerLayer = t.expectedPerLayer := rfl
          rw [hfire, if_neg (by decide)]
          obtain ⟨before, after, heq, hbefore, hafter⟩ : SinkOnce ((t.note b).1.events bs) b :=
            events_once b (by omega) (by omega)
          refine ⟨.wrote b :: before, after, ?_, by simpa using hbefore, hafter⟩
          rw [heq]
          rfl
      · rw [List.count_cons_of_ne hb] at hcount
        have hcounts : (t.note b').1.counts b = t.counts b := update_of_ne (Ne.symm hb) _ _
        have hexpected : (t.note b').1.expectedPerLayer = t.expectedPerLayer := rfl
        obtain ⟨before, after, heq, hbefore, hafter⟩ : SinkOnce ((t.note b').1.events bs) b :=
          events_once b (by omega) (by omega)
        refine ⟨(.wrote b' :: if (t.note b').2 then [.layerSink b'] else []) ++ before, after, ?_, ?_,
          hafter⟩
        · rw [heq, List.append_assoc]
        · cases (t.note b').2 <;> simp [hbefore, Ne.symm hb]

/-! ## The copies -/

section Copies

variable {spec : Nvfp4ExpertSourceSpec Name} {ck : Checkpoint Name Shard P S F}
  {globals : List ((Nat × Nat × String) × G)} {strict : Bool}

/-- A scale has its global scale. -/
def Ready (globals : List ((Nat × Nat × String) × G)) (x : Item Name Shard L) : Prop :=
  x.m.kind = "weight" ∨ ∃ g, Ftw.assigned globals (x.m.layer, x.m.expert, x.m.proj) = some g

/-- The rows of the item are in its place. -/
structure Copied (spec : Nvfp4ExpertSourceSpec Name) (ck : Checkpoint Name Shard P S F)
    (globals : List ((Nat × Nat × String) × G)) (banks : SourceBanks L E H I P S G)
    (x : Item Name Shard L) : Prop where
  packed : ∀ role (e : Fin E), spec.projToRole.lookup x.m.proj = some role → e.val = x.m.expert →
    x.m.kind = "weight" → banks.packed.rows role x.bank e = ck.packed x.name
  scale : ∀ role (e : Fin E), spec.projToRole.lookup x.m.proj = some role → e.val = x.m.expert →
    x.m.kind = "weight_scale" → banks.scale.rows role x.bank e = ck.scale x.name
  global : ∀ role (e : Fin E) g, spec.projToRole.lookup x.m.proj = some role → e.val = x.m.expert →
    x.m.kind = "weight_scale" →
      Ftw.assigned globals (x.m.layer, x.m.expert, x.m.proj) = some g →
        banks.global.rows role x.bank e = List.replicate (rowsOf H I role) g

/-- Items that are copied one by one. -/
structure Weight (spec : Nvfp4ExpertSourceSpec Name) (ck : Checkpoint Name Shard P S F)
    (x : Item Name Shard L) : Prop extends Of spec ck x where
  kind : x.m.kind = "weight" ∨ x.m.kind = "weight_scale"

variable (h : Indexed spec ck L E H I)
include h

/-- A copy fills its place and leaves the others. -/
theorem place_spec (strict : Bool) (banks : SourceBanks L E H I P S G) {x : Item Name Shard L}
    (hx : Weight spec ck x) (hready : Ready globals x) :
    ∃ banks', place strict spec ck globals banks x = .ok banks' ∧ Copied spec ck globals banks' x ∧
      ∀ y, Weight spec ck y → y.slot spec ≠ x.slot spec → Copied spec ck globals banks y →
        Copied spec ck globals banks' y := by
  obtain ⟨hexpert, -, role, hrole, hlookup⟩ := h.known_of hx.toOf
  let e : Fin E := ⟨x.m.expert, hexpert⟩
  have hlisted := hx.toOf.listed hlookup
  -- another item of the same kind has another place
  have hother : ∀ y : Item Name Shard L, Weight spec ck y → y.slot spec ≠ x.slot spec →
      y.m.kind = x.m.kind → ∀ role' (e' : Fin E), spec.projToRole.lookup y.m.proj = some role' →
        e'.val = y.m.expert → (y.bank, e', role') ≠ (x.bank, e, role) := by
    intro y hy hslot hkind role' e' hrole' he' heq
    obtain ⟨hbank, he, rfl⟩ : y.bank = x.bank ∧ e' = e ∧ role' = role := by
      rw [Prod.mk.injEq, Prod.mk.injEq] at heq
      exact heq
    apply hslot
    rw [Item.slot_eq hrole', Item.slot_eq hlookup, hbank, hkind, ← he', he]
  have hroles : ∀ y : Item Name Shard L, Weight spec ck y → ∀ role',
      spec.projToRole.lookup y.m.proj = some role' → role' ∈ roles := by
    intro y hy role' hrole'
    obtain ⟨-, -, r, hr, hr'⟩ := h.known_of hy.toOf
    rw [hrole'] at hr'
    rwa [Option.some.inj hr']
  unfold place
  rw [hlookup]
  dsimp only
  rcases hx.kind with hkind | hkind
  · have hlen := h.packedRows x.bank x.m.expert role x.name (hkind ▸ hlisted)
    obtain ⟨p, hp, hrows, hframe⟩ := banks.packed.assign_spec strict spec.desc hrole x.bank e
      (broadcast_of_length hlen)
    refine ⟨{ banks with packed := p }, ?_, ?_, ?_⟩
    · rw [if_pos hkind, hp]
      rfl
    · constructor
      · intro role' e' hrole' he' _
        rw [hlookup] at hrole'
        obtain rfl := Option.some.inj hrole'
        obtain rfl : e' = e := Fin.ext he'
        exact hrows
      · intro _ _ _ _ hscale
        rw [hkind] at hscale
        exact absurd hscale (by decide)
      · intro _ _ _ _ _ hscale
        rw [hkind] at hscale
        exact absurd hscale (by decide)
    · intro y hy hslot hcopied
      constructor
      · intro role' e' hrole' he' hweight
        have hplace := hother y hy hslot (hweight.trans hkind.symm) role' e' hrole' he'
        show p.rows role' y.bank e' = _
        rw [hframe role' (hroles y hy role' hrole') y.bank e' hplace]
        exact hcopied.packed role' e' hrole' he' hweight
      · exact hcopied.scale
      · exact hcopied.global
  · have hne : x.m.kind ≠ "weight" := by
      rw [hkind]
      decide
    obtain ⟨g, hg⟩ := hready.resolve_left hne
    have hlen := h.scaleRows x.bank x.m.expert role x.name (hkind ▸ hlisted)
    obtain ⟨s, hs, hrows, hframe⟩ := banks.scale.assign_spec strict spec.desc hrole x.bank e
      (broadcast_of_length hlen)
    obtain ⟨gl, hgl, hglRows, hglFrame⟩ := banks.global.assign_spec strict spec.desc hrole x.bank e
      (broadcast_singleton (rowsOf H I role) g)
    refine ⟨{ banks with scale := s, global := gl }, ?_, ?_, ?_⟩
    · rw [if_neg hne, hg]
      dsimp only
      rw [hs]
      dsimp only [bind, Except.bind]
      rw [hgl]
      rfl
    · constructor
      · intro _ _ _ _ hweight
        exact absurd hweight hne
      · intro role' e' hrole' he' _
        rw [hlookup] at hrole'
        obtain rfl := Option.some.inj hrole'
        obtain rfl : e' = e := Fin.ext he'
        exact hrows
      · intro role' e' g' hrole' he' _ hg'
        rw [hlookup] at hrole'
        obtain rfl := Option.some.inj hrole'
        obtain rfl : e' = e := Fin.ext he'
        rw [hg] at hg'
        rw [← Option.some.inj hg']
        exact hglRows
    · intro y hy hslot hcopied
      constructor
      · exact hcopied.packed
      · intro role' e' hrole' he' hscale
        have hplace := hother y hy hslot (hscale.trans hkind.symm) role' e' hrole' he'
        show s.rows role' y.bank e' = _
        rw [hframe role' (hroles y hy role' hrole') y.bank e' hplace]
        exact hcopied.scale role' e' hrole' he' hscale
      · intro role' e' g' hrole' he' hscale hg'
        have hplace := hother y hy hslot (hscale.trans hkind.symm) role' e' hrole' he'
        show gl.rows role' y.bank e' = _
        rw [hglFrame role' (hroles y hy role' hrole') y.bank e' hplace]
        exact hcopied.global role' e' g' hrole' he' hscale hg'

omit h in
theorem place_ready {banks banks' : SourceBanks L E H I P S G} {x : Item Name Shard L}
    (hplace : place strict spec ck globals banks x = .ok banks') : Ready globals x := by
  unfold place at hplace
  cases hrole : spec.projToRole.lookup x.m.proj with
  | none =>
      rw [hrole] at hplace
      cases hplace
  | some role =>
      rw [hrole] at hplace
      dsimp only at hplace
      by_cases hkind : x.m.kind = "weight"
      · exact .inl hkind
      · rw [if_neg hkind] at hplace
        cases hg : Ftw.assigned globals (x.m.layer, x.m.expert, x.m.proj) with
        | none =>
            rw [hg] at hplace
            cases hplace
        | some g => exact .inr ⟨g, hg⟩

/-- A run copies all its items, whatever their order, and leaves other places. -/
theorem run_spec (strict : Bool) : ∀ {items : List (Item Name Shard L)} (st : Load L E H I P S G),
    (∀ x ∈ items, Weight spec ck x ∧ Ready globals x) → (items.map (Item.slot spec)).Nodup →
      ∃ st', items.foldlM (loadStep strict spec ck globals) st = .ok st' ∧
        st'.placed = st.placed + items.length ∧
        st'.events = st.events ++ st.tracker.events (items.map Item.bank) ∧
        (∀ x ∈ items, Copied spec ck globals st'.banks x) ∧
        ∀ y, Weight spec ck y → y.slot spec ∉ items.map (Item.slot spec) →
          Copied spec ck globals st.banks y → Copied spec ck globals st'.banks y
  | [], st, _, _ =>
      ⟨st, rfl, rfl, (List.append_nil _).symm, fun x hx => absurd hx List.not_mem_nil,
        fun _ _ _ hy => hy⟩
  | x :: items, st, hitems, hnodup => by
      obtain ⟨hfresh, hnodup⟩ := List.nodup_cons.1 hnodup
      obtain ⟨hx, hready⟩ := hitems x List.mem_cons_self
      obtain ⟨banks, hplace, hcopied, hframe⟩ := place_spec h strict st.banks hx hready
      let next : Load L E H I P S G :=
        { banks := banks
          tracker := (st.tracker.note x.bank).1
          placed := st.placed + 1
          events := st.events ++
            .wrote x.bank :: if (st.tracker.note x.bank).2 then [.layerSink x.bank] else [] }
      have hstep : loadStep strict spec ck globals st x = .ok next := by
        unfold loadStep
        rw [hplace]
        rfl
      obtain ⟨st', hrun, hplaced, hevents, hall, hrest⟩ := run_spec strict next
        (fun y hy => hitems y (List.mem_cons_of_mem x hy)) hnodup
      refine ⟨st', ?_, ?_, ?_, ?_, ?_⟩
      · rw [List.foldlM_cons, hstep]
        exact hrun
      · rw [hplaced, List.length_cons]
        show st.placed + 1 + items.length = _
        omega
      · rw [hevents, List.map_cons, LayerCompletionTracker.events, ← List.append_assoc]
      · intro y hy
        rcases List.mem_cons.1 hy with rfl | hy
        · exact hrest y hx hfresh hcopied
        · exact hall y hy
      · intro y hy hslot hcopiedY
        rw [List.map_cons, List.mem_cons, not_or] at hslot
        exact hrest y hy hslot.2 (hframe y hy hslot.1 hcopiedY)

omit h in
theorem run_ready : ∀ {items : List (Item Name Shard L)} {st st' : Load L E H I P S G},
    items.foldlM (loadStep strict spec ck globals) st = .ok st' →
      (∀ x ∈ items, Ready globals x) ∧ st'.placed = st.placed + items.length
  | [], st, st', hrun => by
      obtain rfl : st = st' := Except.ok.inj hrun
      exact ⟨fun x hx => absurd hx List.not_mem_nil, rfl⟩
  | x :: items, st, st', hrun => by
      rw [List.foldlM_cons] at hrun
      cases hplace : place strict spec ck globals st.banks x with
      | error err =>
          rw [loadStep, hplace] at hrun
          cases hrun
      | ok banks =>
          rw [loadStep, hplace] at hrun
          obtain ⟨hready, hplaced⟩ := run_ready hrun
          refine ⟨fun y hy => ?_, ?_⟩
          · rcases List.mem_cons.1 hy with rfl | hy
            · exact place_ready hplace
            · exact hready y hy
          · rw [hplaced, List.length_cons]
            show st.placed + 1 + items.length = _
            omega

theorem load_spec (strict : Bool) (fresh : SourceBanks L E H I P S G)
    {items : List (Item Name Shard L)} (hitems : ∀ x ∈ items, Weight spec ck x ∧ Ready globals x)
    (hnodup : (items.map (Item.slot spec)).Nodup) (hE : 0 < E) (hlen : items.length = L * E * 6) :
    ∃ banks, load strict spec ck globals fresh items =
        .ok (banks, LayerCompletionTracker.events ⟨E * 6, fun _ => 0⟩ (items.map Item.bank)) ∧
      ∀ x ∈ items, Copied spec ck globals banks x := by
  obtain ⟨st', hrun, hplaced, hevents, hall, -⟩ :=
    run_spec h strict ⟨fresh, ⟨E * 6, fun _ => 0⟩, 0, []⟩ hitems hnodup
  refine ⟨st'.banks, ?_, hall⟩
  have hcount : st'.placed = L * E * 6 := by
    rw [hplaced, hlen, Nat.zero_add]
  unfold load LayerCompletionTracker.init
  rw [if_pos (by omega)]
  dsimp only [bind, Except.bind]
  rw [hrun]
  dsimp only
  rw [if_pos hcount, hevents]
  rfl

omit h in
theorem load_ready {fresh : SourceBanks L E H I P S G} {items : List (Item Name Shard L)}
    {r : SourceBanks L E H I P S G × List (Event L)}
    (hload : load strict spec ck globals fresh items = .ok r) :
    0 < E ∧ (∀ x ∈ items, Ready globals x) ∧ items.length = L * E * 6 := by
  unfold load LayerCompletionTracker.init at hload
  by_cases hE : 0 < E * 6
  · rw [if_pos hE] at hload
    dsimp only [bind, Except.bind] at hload
    cases hrun : items.foldlM (loadStep strict spec ck globals)
        (⟨fresh, ⟨E * 6, fun _ => 0⟩, 0, []⟩ : Load L E H I P S G) with
    | error err =>
        rw [hrun] at hload
        cases hload
    | ok st =>
        rw [hrun] at hload
        dsimp only at hload
        obtain ⟨hready, hplaced⟩ := run_ready hrun
        by_cases hcount : st.placed = L * E * 6
        · refine ⟨by omega, hready, ?_⟩
          rw [← hcount, hplaced, Nat.zero_add]
        · rw [if_neg hcount] at hload
          cases hload
  · rw [if_neg hE] at hload
    cases hload

end Copies

end Nvfp4

end FreeToken
