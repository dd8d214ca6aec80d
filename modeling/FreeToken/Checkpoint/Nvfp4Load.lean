import FreeToken.Checkpoint.FtwBanksLoad
import FreeToken.Checkpoint.Nvfp4Places

/-!
# Both loaders fill the banks

As many copies as there are places fill them all, in any order.  The serial loader and the parallel one
copy the same names, so they return the same banks, and both count the same writes to a layer.
-/

set_option autoImplicit false

namespace FreeToken

namespace Nvfp4

open Function

variable {Name Shard P S F G R : Type} {L E H I : Nat}

/-! ## Coverage -/

section Coverage

variable {spec : Nvfp4ExpertSourceSpec Name} {ck : Checkpoint Name Shard P S F}

theorem mem_weights {items : List (Item Name Shard L)} {x : Item Name Shard L}
    (hperm : items.Perm ((ck.weightMap.filterMap (itemOf spec L)).filter fun x => !x.isGlobal))
    (h : Indexed spec ck L E H I) : x ∈ items ↔ Weight spec ck x := by
  rw [hperm.mem_iff, List.mem_filter, mem_filterMap_itemOf]
  constructor
  · rintro ⟨hx, hglobal⟩
    obtain ⟨-, hkind, -⟩ := h.known_of hx
    refine ⟨hx, ?_⟩
    simp only [kinds, List.mem_cons, List.not_mem_nil, or_false] at hkind
    rcases hkind with hkind | hkind | hkind
    · exact .inl hkind
    · exact .inr hkind
    · rw [Item.isGlobal, decide_eq_true hkind] at hglobal
      cases hglobal
  · intro hx
    refine ⟨hx.toOf, ?_⟩
    rw [Item.isGlobal]
    rcases hx.kind with hkind | hkind <;> rw [hkind] <;> rfl

variable (h : Indexed spec ck L E H I) {items : List (Item Name Shard L)}
  (hperm : items.Perm ((ck.weightMap.filterMap (itemOf spec L)).filter fun x => !x.isGlobal))
include h hperm

theorem nodup_map_slot : (items.map (Item.slot spec)).Nodup := by
  apply List.Nodup.map_on
  · intro x hx y hy heq
    exact h.eq_of_slot ((mem_weights hperm h).1 hx).toOf ((mem_weights hperm h).1 hy).toOf heq
  · exact hperm.nodup_iff.2 (h.nodup_items.filter _)

theorem map_slot_subset : items.map (Item.slot spec) ⊆ slots L E := by
  intro s hs
  obtain ⟨x, hx, rfl⟩ := List.mem_map.1 hs
  have hx := (mem_weights hperm h).1 hx
  obtain ⟨hexpert, -, role, hrole, hlookup⟩ := h.known_of hx.toOf
  rw [Item.slot_eq hlookup, mem_slots]
  exact ⟨hexpert, hrole, hx.kind⟩

/-- As many copies as places fill every place. -/
theorem slots_perm (hlen : items.length = L * E * 6) : (items.map (Item.slot spec)).Perm (slots L E) := by
  apply (List.subperm_of_subset (nodup_map_slot h hperm) (map_slot_subset h hperm)).perm_of_length_le
  rw [length_slots, List.length_map, hlen]

omit hperm in
/-- Another tensor of an item's layer, expert and projection. -/
theorem listed_of_slot {b : Fin L} {e : Nat} {role kind : String} {x y : Item Name Shard L}
    (hx : Of spec ck x) (hslot : x.slot spec = (b, e, role, kind)) (hy : Of spec ck y)
    (hlayer : y.m.layer = x.m.layer) (hexpert : y.m.expert = x.m.expert)
    (hproj : y.m.proj = x.m.proj) : x.m.kind = kind ∧ Listed spec ck b e role y.m.kind y.name := by
  obtain ⟨-, -, role', -, hlookup⟩ := h.known_of hx
  rw [Item.slot_eq hlookup, Prod.mk.injEq, Prod.mk.injEq, Prod.mk.injEq] at hslot
  obtain ⟨rfl, rfl, rfl, hkind⟩ := hslot
  refine ⟨hkind, y.shard, y.m, hy.entry, hy.key, ?_, hexpert, ?_, rfl⟩
  · rw [hlayer]
    exact hx.layer
  · rw [hproj, hlookup]

theorem length_of_complete (hcomplete : Complete spec ck L E) : items.length = L * E * 6 := by
  have hcover : slots L E ⊆ items.map (Item.slot spec) := by
    rintro ⟨b, e, role, kind⟩ hs
    obtain ⟨he, hrole, hkind⟩ := mem_slots.1 hs
    have hkinds : kind ∈ kinds := by rcases hkind with rfl | rfl <;> decide
    obtain ⟨name, hname⟩ := hcomplete b ⟨e, he⟩ role hrole kind hkinds
    obtain ⟨x, hx, -, hbank, hexpert, hlookup, hxkind⟩ := hname.exists_of
    rw [List.mem_map]
    refine ⟨x, (mem_weights hperm h).2 ⟨hx, hxkind ▸ hkind⟩, ?_⟩
    rw [Item.slot_eq hlookup, hbank, hexpert, hxkind]
  have hle := (List.subperm_of_subset (nodup_slots L E) hcover).length_le
  have hge := (List.subperm_of_subset (nodup_map_slot h hperm) (map_slot_subset h hperm)).length_le
  rw [length_slots, List.length_map] at hle hge
  omega

theorem exists_item_of_length (hlen : items.length = L * E * 6) (b : Fin L) (e : Fin E)
    {role kind : String} (hrole : role ∈ roles) (hkind : kind = "weight" ∨ kind = "weight_scale") :
    ∃ x ∈ items, Of spec ck x ∧ x.slot spec = (b, e.val, role, kind) := by
  have hmem : (b, e.val, role, kind) ∈ items.map (Item.slot spec) :=
    (slots_perm h hperm hlen).mem_iff.2 (mem_slots.2 ⟨e.isLt, hrole, hkind⟩)
  obtain ⟨x, hx, hslot⟩ := List.mem_map.1 hmem
  exact ⟨x, hx, ((mem_weights hperm h).1 hx).toOf, hslot⟩

variable [LinearOrder Shard] {toHalf : F → G}

omit h hperm in
theorem mem_globalsMap {items : List (Item Name Shard L)} {key : Nat × Nat × String} {g : G} :
    (key, g) ∈ globalsMap ck toHalf items ↔ ∃ y ∈ items, y.m.kind = "weight_scale_2" ∧
      key = (y.m.layer, y.m.expert, y.m.proj) ∧ g = toHalf (ck.global y.name) := by
  unfold globalsMap
  rw [List.mem_map]
  constructor
  · rintro ⟨y, hy, heq⟩
    rw [(byShard_perm _ _).mem_iff, List.mem_filter] at hy
    obtain ⟨rfl, rfl⟩ := Prod.mk.inj heq
    exact ⟨y, hy.1, of_decide_eq_true hy.2, rfl, rfl⟩
  · rintro ⟨y, hy, hkind, rfl, rfl⟩
    refine ⟨y, ?_, rfl⟩
    rw [(byShard_perm _ _).mem_iff, List.mem_filter]
    exact ⟨hy, decide_eq_true hkind⟩

variable (toHalf) in
omit hperm in
/-- The global scale of an item's layer, expert and projection. -/
theorem assigned_of_listed {x : Item Name Shard L} (hx : Of spec ck x) {role : String}
    (hlookup : spec.projToRole.lookup x.m.proj = some role) {name : Name}
    (hname : Listed spec ck x.bank x.m.expert role "weight_scale_2" name) :
    Ftw.assigned (globalsMap ck toHalf (ck.weightMap.filterMap (itemOf spec L)))
      (x.m.layer, x.m.expert, x.m.proj) = some (toHalf (ck.global name)) := by
  obtain ⟨y, hy, rfl, hbank, he, hrole, hkind⟩ := hname.exists_of
  have hlayer : x.m.layer = y.m.layer := by
    apply h.injective _ _ _ hx.layer
    rw [← hbank]
    exact hy.layer
  have hproj := h.oneProj _ _ role hlookup hrole
  apply Ftw.assigned_eq
  · exact ⟨_, mem_globalsMap.2 ⟨y, mem_filterMap_itemOf.2 hy, hkind, by rw [hlayer, ← he, hproj], rfl⟩⟩
  · intro w hw
    obtain ⟨z, hz, hzkind, hkey, rfl⟩ := mem_globalsMap.1 hw
    have hz := mem_filterMap_itemOf.1 hz
    rw [Prod.mk.injEq, Prod.mk.injEq] at hkey
    obtain ⟨hzlayer, hzexpert, hzproj⟩ := hkey
    have hzy : z.m = y.m := by
      cases hzm : z.m
      cases hym : y.m
      simp_all
    rw [h.oneName _ _ _ _ _ hz.entry hy.entry hz.key (by rw [hzy]; exact hy.key)]

variable (toHalf) in
/-- A counted run has every tensor, and an index with every tensor gives a counted run. -/
theorem complete_iff :
    Complete spec ck L E ↔
      (∀ x ∈ items, Ready (globalsMap ck toHalf (ck.weightMap.filterMap (itemOf spec L))) x) ∧
        items.length = L * E * 6 := by
  constructor
  · intro hcomplete
    refine ⟨fun x hx => ?_, length_of_complete h hperm hcomplete⟩
    have hx := (mem_weights hperm h).1 hx
    obtain ⟨hexpert, -, role, hrole, hlookup⟩ := h.known_of hx.toOf
    obtain ⟨name, hname⟩ := hcomplete x.bank ⟨x.m.expert, hexpert⟩ role hrole "weight_scale_2" (by decide)
    exact .inr ⟨_, assigned_of_listed h toHalf hx.toOf hlookup hname⟩
  · rintro ⟨hready, hlen⟩ b e role hrole kind hkind
    simp only [kinds, List.mem_cons, List.not_mem_nil, or_false, ← or_assoc] at hkind
    rcases hkind with hkind | rfl
    · obtain ⟨x, -, hx, hslot⟩ := exists_item_of_length h hperm hlen b e hrole hkind
      obtain ⟨hxkind, hlisted⟩ := listed_of_slot h hx hslot hx rfl rfl rfl
      exact ⟨x.name, hxkind ▸ hlisted⟩
    · -- the global scale that the scale was copied with
      obtain ⟨x, hxmem, hx, hslot⟩ := exists_item_of_length h hperm hlen b e hrole (.inr rfl)
      have hxkind := (listed_of_slot h hx hslot hx rfl rfl rfl).1
      obtain ⟨g, hg⟩ := (hready x hxmem).resolve_left (by rw [hxkind]; decide)
      obtain ⟨y, hy, hkind, hkey, -⟩ := mem_globalsMap.1 (Ftw.mem_of_assigned hg)
      rw [Prod.mk.injEq, Prod.mk.injEq] at hkey
      obtain ⟨hlayer, hexpert, hproj⟩ := hkey
      have hlisted := (listed_of_slot h hx hslot (mem_filterMap_itemOf.1 hy) hlayer.symm hexpert.symm
        hproj.symm).2
      exact ⟨y.name, hkind ▸ hlisted⟩

end Coverage

/-! ## The loaders -/

/-- The banks hold the listed tensors: the weights and scales of a projection in its rows, and the
global scale in each of them. -/
structure Placed (spec : Nvfp4ExpertSourceSpec Name) (ck : Checkpoint Name Shard P S F) (toHalf : F → G)
    (banks : SourceBanks L E H I P S G) : Prop where
  packed : ∀ (b : Fin L) (e : Fin E) role n, Listed spec ck b e role "weight" n →
    banks.packed.rows role b e = ck.packed n
  scale : ∀ (b : Fin L) (e : Fin E) role n, Listed spec ck b e role "weight_scale" n →
    banks.scale.rows role b e = ck.scale n
  global : ∀ (b : Fin L) (e : Fin E) role n, Listed spec ck b e role "weight_scale_2" n →
    banks.global.rows role b e = List.replicate (rowsOf H I role) (toHalf (ck.global n))

theorem Pair.ext_rows {p q : Pair L E H I R}
    (h : ∀ role ∈ roles, ∀ b e, p.rows role b e = q.rows role b e) : p = q := by
  have hdown : p.down = q.down := by
    funext b e
    have := h "down" (by decide) b e
    rw [Pair.rows_down, Pair.rows_down] at this
    exact List.ofFn_injective this
  have hup : p.gateUp = q.gateUp := by
    funext b e r
    by_cases hr : r.val < I
    · have := h "gate" (by decide) b e
      rw [Pair.rows_half _ (.inl rfl), Pair.rows_half _ (.inl rfl)] at this
      have hrow := congrFun (List.ofFn_injective this) ⟨r, hr⟩
      simpa only [firstRow, String.reduceEq, if_false, Nat.zero_add] using hrow
    · have := h "up" (by decide) b e
      rw [Pair.rows_half _ (.inr rfl), Pair.rows_half _ (.inr rfl)] at this
      have hrow := congrFun (List.ofFn_injective this) ⟨r - I, by omega⟩
      have hidx : I + (r.val - I) = r.val := by omega
      simpa only [firstRow, if_true, hidx] using hrow
  cases p
  cases q
  cases hdown
  cases hup
  rfl

/-- The tensors of a complete index determine the six banks. -/
theorem Placed.unique {spec : Nvfp4ExpertSourceSpec Name} {ck : Checkpoint Name Shard P S F}
    {toHalf : F → G} {banks banks' : SourceBanks L E H I P S G} (h : Placed spec ck toHalf banks)
    (h' : Placed spec ck toHalf banks') (hcomplete : Complete spec ck L E) : banks = banks' := by
  have hpacked : banks.packed = banks'.packed := by
    apply Pair.ext_rows
    intro role hrole b e
    obtain ⟨n, hn⟩ := hcomplete b e role hrole "weight" (by decide)
    rw [h.packed b e role n hn, h'.packed b e role n hn]
  have hscale : banks.scale = banks'.scale := by
    apply Pair.ext_rows
    intro role hrole b e
    obtain ⟨n, hn⟩ := hcomplete b e role hrole "weight_scale" (by decide)
    rw [h.scale b e role n hn, h'.scale b e role n hn]
  have hglobal : banks.global = banks'.global := by
    apply Pair.ext_rows
    intro role hrole b e
    obtain ⟨n, hn⟩ := hcomplete b e role hrole "weight_scale_2" (by decide)
    rw [h.global b e role n hn, h'.global b e role n hn]
  cases banks
  cases banks'
  cases hpacked
  cases hscale
  cases hglobal
  rfl

theorem count_product {A B : Type} [DecidableEq A] (a : A) (ys : List B) :
    ∀ xs : List A, ((xs ×ˢ ys).map Prod.fst).count a = xs.count a * ys.length
  | [] => by simp
  | x :: xs => by
      have hconst : (ys.map fun y => (x, y)).map Prod.fst = List.replicate ys.length x := by
        rw [List.map_map, ← List.map_const]
        rfl
      rw [List.product_cons, List.map_append, List.count_append, count_product a ys xs, hconst,
        List.count_replicate, List.count_cons]
      by_cases hx : x = a
      · rw [if_pos (by simpa using hx), if_pos (by simpa using hx), Nat.add_mul, Nat.one_mul,
          Nat.add_comm]
      · rw [if_neg (by simpa using hx), if_neg (by simpa using hx), Nat.add_zero, Nat.zero_add]

section Run

variable {spec : Nvfp4ExpertSourceSpec Name} {ck : Checkpoint Name Shard P S F}
  (h : Indexed spec ck L E H I) {items : List (Item Name Shard L)}
  (hperm : items.Perm ((ck.weightMap.filterMap (itemOf spec L)).filter fun x => !x.isGlobal))
include h hperm

theorem count_bank (hlen : items.length = L * E * 6) (b : Fin L) :
    (items.map Item.bank).count b = E * 6 := by
  have hbanks : items.map Item.bank = (items.map (Item.slot spec)).map Prod.fst := by
    rw [List.map_map]
    rfl
  rw [hbanks, ((slots_perm h hperm hlen).map Prod.fst).count_eq, slots, count_product,
    List.count_eq_one_of_mem (List.nodup_finRange L) (List.mem_finRange b), Nat.one_mul,
    List.length_product, List.length_range]
  rfl

variable [LinearOrder Shard] {toHalf : F → G}

theorem placed_of_copied {banks : SourceBanks L E H I P S G} (hlen : items.length = L * E * 6)
    (hcopied : ∀ x ∈ items,
      Copied spec ck (globalsMap ck toHalf (ck.weightMap.filterMap (itemOf spec L))) banks x) :
    Placed spec ck toHalf banks where
  packed := by
    intro b e role n hn
    obtain ⟨x, hx, rfl, rfl, he, hlookup, hkind⟩ := hn.exists_of
    have hmem := (mem_weights hperm h).2 ⟨hx, .inl hkind⟩
    exact (hcopied x hmem).packed role e hlookup he.symm hkind
  scale := by
    intro b e role n hn
    obtain ⟨x, hx, rfl, rfl, he, hlookup, hkind⟩ := hn.exists_of
    have hmem := (mem_weights hperm h).2 ⟨hx, .inr hkind⟩
    exact (hcopied x hmem).scale role e hlookup he.symm hkind
  global := by
    intro b e role n hn
    -- the scale of the same place brought the global scale along
    obtain ⟨y, hy, -, -, -, hylookup, -⟩ := hn.exists_of
    obtain ⟨-, -, role', hrole, hlookup'⟩ := h.known_of hy
    obtain rfl : role = role' := Option.some.inj (hylookup.symm.trans hlookup')
    obtain ⟨x, hmem, hx, hslot⟩ := exists_item_of_length h hperm hlen b e hrole (.inr rfl)
    obtain ⟨hkind, hlisted⟩ := listed_of_slot h hx hslot hx rfl rfl rfl
    obtain ⟨-, -, role', -, hlookup⟩ := h.known_of hx
    rw [Item.slot_eq hlookup, Prod.mk.injEq, Prod.mk.injEq, Prod.mk.injEq] at hslot
    obtain ⟨rfl, he, rfl, -⟩ := hslot
    have hassigned := assigned_of_listed h toHalf hx hlookup (he ▸ hn)
    exact (hcopied x hmem).global role' e _ hlookup he.symm hkind hassigned

variable (toHalf) in
/-- A run over the weights and scales in any order. -/
theorem load_iff (strict : Bool) (fresh : SourceBanks L E H I P S G) :
    ((∃ r, load strict spec ck (globalsMap ck toHalf (ck.weightMap.filterMap (itemOf spec L))) fresh
        items = .ok r) ↔ 0 < E ∧ Complete spec ck L E) ∧
      (0 < E → Complete spec ck L E → ∃ banks events,
        load strict spec ck (globalsMap ck toHalf (ck.weightMap.filterMap (itemOf spec L))) fresh
            items = .ok (banks, events) ∧
          Placed spec ck toHalf banks ∧ ∀ b, SinkOnce events b) := by
  have hok : 0 < E → Complete spec ck L E → ∃ banks events,
      load strict spec ck (globalsMap ck toHalf (ck.weightMap.filterMap (itemOf spec L))) fresh
          items = .ok (banks, events) ∧
        Placed spec ck toHalf banks ∧ ∀ b, SinkOnce events b := by
    intro hE hcomplete
    obtain ⟨hready, hlen⟩ := (complete_iff h hperm toHalf).1 hcomplete
    obtain ⟨banks, hload, hcopied⟩ := load_spec h strict fresh
      (fun x hx => ⟨(mem_weights hperm h).1 hx, hready x hx⟩) (nodup_map_slot h hperm) hE hlen
    refine ⟨banks, _, hload, placed_of_copied h hperm hlen hcopied, fun b => events_once b ?_ ?_⟩
    · show 0 < E * 6
      omega
    · show 0 + _ = E * 6
      rw [Nat.zero_add, count_bank h hperm hlen]
  refine ⟨⟨?_, ?_⟩, hok⟩
  · rintro ⟨r, hload⟩
    obtain ⟨hE, hready⟩ := load_ready hload
    exact ⟨hE, (complete_iff h hperm toHalf).2 hready⟩
  · rintro ⟨hE, hcomplete⟩
    obtain ⟨banks, events, hload, -⟩ := hok hE hcomplete
    exact ⟨_, hload⟩

end Run

section Read

variable {spec : Nvfp4ExpertSourceSpec Name} {ck : Checkpoint Name Shard P S F}
  (h : Indexed spec ck L E H I)
include h

theorem mapM_weightInfo [DecidableEq Name] {items : List (Item Name Shard L)}
    (hitems : ∀ x ∈ items, Of spec ck x) : ∀ {names : List Name}, names ⊆ items.map Item.name →
      ∃ read, names.mapM (weightInfo items) = .ok read ∧ read.map Item.name = names ∧
        ∀ x ∈ read, x ∈ items
  | [], _ => ⟨[], rfl, rfl, fun x hx => absurd hx List.not_mem_nil⟩
  | name :: names, hsub => by
      obtain ⟨x, hx, hname⟩ := List.mem_map.1 (hsub List.mem_cons_self)
      have hrest : names ⊆ items.map Item.name := fun n hn => hsub (List.mem_cons_of_mem name hn)
      obtain ⟨read, hrun, hnames, hmem⟩ := mapM_weightInfo hitems hrest
      have hassigned : Ftw.assigned (items.map fun x => (x.name, x)) name = some x := by
        apply Ftw.assigned_eq
        · exact ⟨x, List.mem_map.2 ⟨x, hx, by rw [hname]⟩⟩
        · intro w hw
          obtain ⟨y, hy, heq⟩ := List.mem_map.1 hw
          obtain ⟨hyname, rfl⟩ := Prod.mk.inj heq
          exact h.eq_of_name (hitems y hy) (hitems x hx) (hyname.trans hname.symm)
      refine ⟨x :: read, ?_, by rw [List.map_cons, hname, hnames], fun y hy => ?_⟩
      · rw [List.mapM_cons, weightInfo, hassigned, hrun]
        rfl
      · rcases List.mem_cons.1 hy with rfl | hy
        · exact hx
        · exact hmem y hy

/-- The reader hands out every weight and scale once. -/
theorem read_perm [DecidableEq Name] [LinearOrder Shard] {items : List (Item Name Shard L)}
    (hnodup : items.Nodup) (hitems : ∀ x ∈ items, Of spec ck x) :
    ∃ read, (iterExpertTensorsParallel ck fun n => decide (n ∈ items.map Item.name)).mapM
      (weightInfo items) = .ok read ∧ read.Perm items := by
  have hbyShard : (iterExpertTensorsParallel ck fun n => decide (n ∈ items.map Item.name)).Perm
      ((ck.weightMap.filter fun n => decide (n.1 ∈ items.map Item.name)).map Prod.fst) :=
    (byShard_perm Prod.snd _).map Prod.fst
  have hsub : (iterExpertTensorsParallel ck fun n => decide (n ∈ items.map Item.name)) ⊆
      items.map Item.name := by
    intro n hn
    obtain ⟨p, hp, rfl⟩ := List.mem_map.1 (hbyShard.mem_iff.1 hn)
    exact of_decide_eq_true (List.mem_filter.1 hp).2
  obtain ⟨read, hrun, hnames, hmem⟩ := mapM_weightInfo h hitems hsub
  refine ⟨read, hrun, ?_⟩
  have hread : read.Nodup := by
    apply List.Nodup.of_map Item.name
    rw [hnames, hbyShard.nodup_iff]
    exact h.names.sublist (List.filter_sublist.map Prod.fst)
  rw [List.perm_ext_iff_of_nodup hread hnodup]
  refine fun x => ⟨hmem x, fun hx => ?_⟩
  have hname : x.name ∈ read.map Item.name := by
    rw [hnames, hbyShard.mem_iff]
    refine List.mem_map.2 ⟨_, List.mem_filter.2 ⟨(hitems x hx).entry, ?_⟩, rfl⟩
    exact decide_eq_true (List.mem_map_of_mem hx)
  obtain ⟨y, hy, hyx⟩ := List.mem_map.1 hname
  rwa [← h.eq_of_name (hitems y (hmem y hy)) (hitems x hx) hyx]

end Read

def projSpec : Nvfp4ExpertSourceSpec Match where
  keyPattern := some
  projToRole := [("gate_proj", "gate"), ("up_proj", "up"), ("down_proj", "down")]
  layerToBank layer := some layer
  desc := "experts"

def smallConfig (numExperts : Nat) : Config where
  numExperts := numExperts
  hiddenSize := 2
  moeIntermediateSize := 1
  numMoeLayers := none
  numLayers := 1
  firstKDenseReplace := 0

/-- One layer and one expert: scales before weights, the global scales in a shard of their own. -/
def smallIndex : List (Match × Nat) :=
  ["weight_scale", "weight", "weight_scale_2"].flatMap fun kind =>
    ["down_proj", "gate_proj", "up_proj"].map fun proj =>
      (⟨0, 0, proj, kind⟩, if kind = "weight_scale_2" then 1 else 0)

def smallCheckpoint (index : List (Match × Nat)) : Checkpoint Match Nat Nat Nat Nat where
  weightMap := index
  packed m := if m.proj = "down_proj" then [1, 2] else [3]
  scale m := if m.proj = "down_proj" then [4, 5] else [6]
  global _ := 7

theorem lookup_projSpec {proj role : String} (h : projSpec.projToRole.lookup proj = some role) :
    (proj, role) ∈ [("gate_proj", "gate"), ("up_proj", "up"), ("down_proj", "down")] := by
  show (proj, role) ∈ projSpec.projToRole
  obtain ⟨l₁, l₂, heq, -⟩ := List.lookup_eq_some_iff.1 h
  rw [heq]
  simp

theorem indexed_small {E : Nat} {index : List (Match × Nat)} (hnodup : (index.map Prod.fst).Nodup)
    (hknown : ∀ n ∈ index, n.1.layer < 1 ∧ n.1.expert < E ∧ n.1.kind ∈ kinds ∧
      n.1.proj ∈ ["gate_proj", "up_proj", "down_proj"]) :
    Indexed projSpec (smallCheckpoint index) 1 E 2 1 where
  names := hnodup
  layers := by
    intro n s m b hn hm hb
    obtain rfl : n = m := Option.some.inj hm
    obtain rfl : (n.layer : Int) = b := Option.some.inj hb
    have := (hknown _ hn).1
    dsimp only at this
    omega
  injective := by
    intro l l' b hl hl'
    exact Int.ofNat.inj (Option.some.inj (hl.trans hl'.symm))
  known := by
    intro n s m b hn hm _
    obtain rfl : n = m := Option.some.inj hm
    obtain ⟨-, hexpert, hkind, hproj⟩ := hknown _ hn
    refine ⟨hexpert, hkind, ?_⟩
    simp only [List.mem_cons, List.not_mem_nil, or_false] at hproj
    rcases hproj with hproj | hproj | hproj
    · exact ⟨"gate", by decide, by rw [hproj]; rfl⟩
    · exact ⟨"up", by decide, by rw [hproj]; rfl⟩
    · exact ⟨"down", by decide, by rw [hproj]; rfl⟩
  oneProj := by
    intro p p' role hp hp'
    have hmem := lookup_projSpec hp
    have hmem' := lookup_projSpec hp'
    simp only [List.mem_cons, List.not_mem_nil, or_false, Prod.mk.injEq] at hmem hmem'
    rcases hmem with ⟨rfl, rfl⟩ | ⟨rfl, rfl⟩ | ⟨rfl, rfl⟩ <;> simp_all
  oneName := by
    intro n s n' s' m _ _ hn hn'
    exact Option.some.inj (hn.trans hn'.symm)
  packedRows := by
    rintro b e role n ⟨s, m, -, hm, -, -, hrole, -⟩
    obtain rfl : n = m := Option.some.inj hm
    have hmem := lookup_projSpec hrole
    simp only [List.mem_cons, List.not_mem_nil, or_false, Prod.mk.injEq] at hmem
    unfold smallCheckpoint
    rcases hmem with ⟨hp, rfl⟩ | ⟨hp, rfl⟩ | ⟨hp, rfl⟩ <;> simp [hp, rowsOf]
  scaleRows := by
    rintro b e role n ⟨s, m, -, hm, -, -, hrole, -⟩
    obtain rfl : n = m := Option.some.inj hm
    have hmem := lookup_projSpec hrole
    simp only [List.mem_cons, List.not_mem_nil, or_false, Prod.mk.injEq] at hmem
    unfold smallCheckpoint
    rcases hmem with ⟨hp, rfl⟩ | ⟨hp, rfl⟩ | ⟨hp, rfl⟩ <;> simp [hp, rowsOf]

def zeroBanks (E : Nat) : SourceBanks 1 E 2 1 Nat Nat Nat where
  packed := ⟨fun _ _ _ => 0, fun _ _ _ => 0⟩
  scale := ⟨fun _ _ _ => 0, fun _ _ _ => 0⟩
  global := ⟨fun _ _ _ => 0, fun _ _ _ => 0⟩

theorem complete_small : Complete projSpec (smallCheckpoint smallIndex) 1 1 := by
  intro b e role hrole kind hkind
  have hproj : ∃ proj ∈ ["down_proj", "gate_proj", "up_proj"],
      projSpec.projToRole.lookup proj = some role := by
    simp only [roles, List.mem_cons, List.not_mem_nil, or_false] at hrole
    rcases hrole with rfl | rfl | rfl
    · exact ⟨"gate_proj", by decide, rfl⟩
    · exact ⟨"up_proj", by decide, rfl⟩
    · exact ⟨"down_proj", by decide, rfl⟩
  obtain ⟨proj, hmem, hlookup⟩ := hproj
  have hkinds : kind ∈ ["weight_scale", "weight", "weight_scale_2"] := by
    simp only [kinds, List.mem_cons, List.not_mem_nil, or_false] at hkind ⊢
    tauto
  refine ⟨⟨0, 0, proj, kind⟩, if kind = "weight_scale_2" then 1 else 0, ⟨0, 0, proj, kind⟩, ?_, rfl,
    ?_, (Nat.lt_one_iff.1 e.isLt).symm, hlookup, rfl⟩
  · exact List.mem_flatMap.2 ⟨kind, hkinds, List.mem_map.2 ⟨proj, hmem, rfl⟩⟩
  · rw [show b = 0 from Subsingleton.elim _ _]
    rfl

end Nvfp4

end FreeToken
