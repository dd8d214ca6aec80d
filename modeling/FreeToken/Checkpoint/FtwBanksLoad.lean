import Mathlib.Data.List.Induction
import Mathlib.Data.List.Nodup
import FreeToken.Checkpoint.FtwBanks
import FreeToken.Checkpoint.FtwJobs

/-!
# Loading the expert banks

The name of a layer's entry is parsed back while its number has five digits.  A window holds the bytes
of its layer at the head pad, so every bank that was written, either way, comes back layer by layer.
-/

set_option autoImplicit false

namespace FreeToken

namespace Ftw

open Region

variable {D : Type} {T : Dtypes D} {U : Decimals}

/-! ## Names -/

theorem number_snoc (ds : List Char) (c : Char) :
    U.number (ds ++ [c]) = (U.number ds).bind fun n => (U.value c).map fun d => 10 * n + d := by
  unfold Decimals.number
  rw [List.foldlM_append]
  show (List.foldlM _ 0 ds >>= fun n => List.foldlM _ n [c]) = _
  congr 1
  funext n
  rw [List.foldlM_cons]
  cases U.value c <;> rfl

theorem number_lt {ds : List Char} {n : Nat} (h : U.number ds = some n) : n < 10 ^ ds.length := by
  induction ds using List.reverseRecOn generalizing n with
  | nil =>
      cases h
      exact Nat.one_pos
  | append_singleton ds c ih =>
      rw [number_snoc] at h
      obtain ⟨m, hm, hn⟩ := Option.bind_eq_some_iff.1 h
      obtain ⟨d, hd, rfl⟩ := Option.map_eq_some_iff.1 hn
      have hlt := ih hm
      have hdigit := U.value_lt c d hd
      rw [List.length_append, List.length_singleton, Nat.pow_succ]
      omega

theorem number_replicate_zero (k : Nat) (ds : List Char) :
    U.number (List.replicate k '0' ++ ds) = U.number ds := by
  induction k with
  | zero => rfl
  | succ k ih =>
      rw [List.replicate_succ, List.cons_append, ← ih]
      unfold Decimals.number
      rw [List.foldlM_cons]
      show ((U.value (Nat.digitChar 0)).map _ >>= _) = _
      rw [U.ascii 0 (by decide)]
      rfl

theorem number_toDigits (n : Nat) : U.number (Nat.toDigits 10 n) = some n := by
  induction n using Nat.strong_induction_on with
  | _ n ih =>
      by_cases hn : n < 10
      · rw [Nat.toDigits_of_lt_base hn]
        unfold Decimals.number
        rw [List.foldlM_cons, U.ascii n hn]
        show some (10 * 0 + n) = some n
        rw [Nat.mul_zero, Nat.zero_add]
      · rw [Nat.toDigits_of_base_le (by decide) (by omega), number_snoc, ih _ (by omega),
          Option.bind_some, U.ascii _ (by omega)]
        show some (10 * (n / 10) + n % 10) = some n
        rw [Nat.div_add_mod]

theorem length_pad5 {n : Nat} (h : n < 100000) : (pad5 n).length = 5 := by
  have hlen := (Nat.length_toDigits_le_iff (by decide : 1 < 10) (by decide : 0 < 5)).2 h
  unfold pad5
  rw [List.length_append, List.length_replicate]
  omega

theorem number_pad5 (n : Nat) : U.number (pad5 n) = some n := by
  unfold pad5
  rw [number_replicate_zero, number_toDigits]

theorem newline_notMem_pad5 (n : Nat) : '\n' ∉ pad5 n := by
  intro h
  rcases List.mem_append.1 h with h | h
  · exact absurd (List.eq_of_mem_replicate h) (by decide)
  · have hdigit := Nat.isDigit_of_mem_toDigits (by decide) (by decide) h
    exact absurd hdigit (by decide)

/-- A bank name that can be parsed back. -/
def PlainName (name : String) : Prop := name.toList ≠ [] ∧ '\n' ∉ name.toList

/-- The entry of a layer below 100000 is that layer's. -/
theorem match_layerBankEntryName {name : String} (hname : PlainName name) {layer : Nat}
    (hlayer : layer < 100000) :
    matchLayerEntry U (layerBankEntryName name layer) = some (name, layer) := by
  have hlen := length_pad5 hlayer
  have hnewline : (name.toList ++ '#' :: 'L' :: pad5 layer).getLast? ≠ some '\n' := by
    intro hlast
    have hmem := List.mem_of_getLast? hlast
    simp only [List.mem_append, List.mem_cons] at hmem
    rcases hmem with hmem | hmem | hmem | hmem
    · exact hname.2 hmem
    · exact absurd hmem (by decide)
    · exact absurd hmem (by decide)
    · exact newline_notMem_pad5 layer hmem
  have hcut : (name.toList ++ '#' :: 'L' :: pad5 layer).length - 7 = name.toList.length := by
    simp only [List.length_append, List.length_cons, hlen]
    omega
  have hvalue := number_pad5 (U := U) layer
  unfold matchLayerEntry layerBankEntryName
  simp only [String.toList_ofList, if_neg hnewline, hcut, List.drop_left, List.take_left]
  obtain ⟨a, b, c, d, e, hpad⟩ : ∃ a b c d e, pad5 layer = [a, b, c, d, e] := by
    match hds : pad5 layer, hlen with
    | [a, b, c, d, e], _ => exact ⟨a, b, c, d, e, rfl⟩
  rw [hpad] at hvalue ⊢
  simp only [hvalue, if_pos (show name.toList ≠ [] ∧ '\n' ∉ name.toList from hname), Option.map_some,
    String.ofList_toList]

/-- Five digits make no number of six. -/
theorem layer_lt_of_match {name base : String} {layer : Nat}
    (h : matchLayerEntry U name = some (base, layer)) : layer < 100000 := by
  unfold matchLayerEntry at h
  dsimp only at h
  generalize (if name.toList.getLast? = some '\n' then name.toList.dropLast else name.toList) = body at h
  split at h
  · split at h
    · obtain ⟨n, hn, heq⟩ := Option.map_eq_some_iff.1 h
      obtain ⟨-, rfl⟩ := Prod.mk.inj heq
      have hlt : n < 10 ^ 5 := number_lt hn
      omega
    · cases h
  · cases h

/-! ## Dictionaries and lists of reads -/

section Dictionary

variable {K V : Type} [DecidableEq K] {assigns : List (K × V)} {k : K}

theorem assigned_of_mem {v : V} (h : (k, v) ∈ assigns) : ∃ w, assigned assigns k = some w := by
  cases hfind : assigns.reverse.find? fun a => decide (a.1 = k) with
  | none =>
      have hnone := List.find?_eq_none.1 hfind (k, v) (List.mem_reverse.2 h)
      exact absurd (decide_eq_true rfl) hnone
  | some a => exact ⟨a.2, by rw [assigned, hfind, Option.map_some]⟩

theorem mem_of_assigned {v : V} (h : assigned assigns k = some v) : (k, v) ∈ assigns := by
  obtain ⟨a, ha, rfl⟩ := Option.map_eq_some_iff.1 h
  have hmem := List.mem_reverse.1 (List.mem_of_find?_eq_some ha)
  have hkey : a.1 = k := by simpa using List.find?_some ha
  rwa [← hkey]

/-- A key whose assignments agree. -/
theorem assigned_eq {v : V} (hmem : ∃ w, (k, w) ∈ assigns) (hsame : ∀ w, (k, w) ∈ assigns → w = v) :
    assigned assigns k = some v := by
  obtain ⟨w, hw⟩ := hmem
  obtain ⟨u, hu⟩ := assigned_of_mem hw
  rw [hu, hsame u (mem_of_assigned hu)]

theorem mem_keys : k ∈ keys assigns ↔ ∃ v, (k, v) ∈ assigns := by
  unfold keys
  rw [List.mem_eraseDups, List.mem_map]
  constructor
  · rintro ⟨a, ha, rfl⟩
    exact ⟨a.2, ha⟩
  · rintro ⟨v, hv⟩
    exact ⟨(k, v), hv, rfl⟩

theorem nodup_eraseDups : ∀ (n : Nat) (l : List K), l.length ≤ n → l.eraseDups.Nodup
  | _, [], _ => by rw [List.eraseDups_nil]; exact List.nodup_nil
  | 0, a :: l, h => absurd h (Nat.not_succ_le_zero _)
  | n + 1, a :: l, h => by
      rw [List.eraseDups_cons, List.nodup_cons]
      constructor
      · intro hmem
        have hfilter := List.mem_filter.1 (List.mem_eraseDups.1 hmem)
        simp at hfilter
      · apply nodup_eraseDups n
        have hle := List.length_filter_le (fun b => !b == a) l
        rw [List.length_cons] at h
        omega

end Dictionary

theorem bind_eq_ok {α β : Type} {x : Except Error α} {f : α → Except Error β} {b : β}
    (h : x >>= f = .ok b) : ∃ a, x = .ok a ∧ f a = .ok b := by
  cases x with
  | error e => cases h
  | ok a => exact ⟨a, rfl, h⟩

/-- A loop each of whose turns succeeds with a property of its result. -/
theorem mapM_exists {α β : Type} {f : α → Except Error β} {P : α → β → Prop} {xs : List α}
    (h : ∀ x ∈ xs, ∃ y, f x = .ok y ∧ P x y) :
    ∃ ys, xs.mapM f = .ok ys ∧ List.Forall₂ P xs ys := by
  induction xs with
  | nil => exact ⟨[], rfl, .nil⟩
  | cons x xs ih =>
      obtain ⟨y, hy, hp⟩ := h x List.mem_cons_self
      obtain ⟨ys, hys, hall⟩ := ih fun z hz => h z (List.mem_cons_of_mem x hz)
      refine ⟨y :: ys, ?_, .cons hp hall⟩
      rw [List.mapM_cons, hy]
      show (xs.mapM f >>= fun ys => pure (y :: ys)) = _
      rw [hys]
      rfl

/-- A turn of a loop that succeeded. -/
theorem mapM_ok_mem {α β : Type} {f : α → Except Error β} {xs : List α} {ys : List β}
    (h : xs.mapM f = .ok ys) : ∀ x ∈ xs, ∃ y, f x = .ok y := by
  induction xs generalizing ys with
  | nil => exact fun _ hx => absurd hx List.not_mem_nil
  | cons x xs ih =>
      rw [List.mapM_cons] at h
      intro z hz
      cases hx : f x with
      | error e =>
          rw [hx] at h
          cases h
      | ok y =>
          rw [hx] at h
          change (xs.mapM f >>= fun ys => pure (y :: ys)) = _ at h
          rcases List.mem_cons.1 hz with rfl | hz
          · exact ⟨y, hx⟩
          · cases hrest : xs.mapM f with
            | error e =>
                rw [hrest] at h
                cases h
            | ok zs => exact ih hrest z hz

theorem mapM_of_forall₂ {α β : Type} {f : α → Except Error β} {xs : List α} {ys : List β}
    (h : List.Forall₂ (fun x y => f x = .ok y) xs ys) : xs.mapM f = .ok ys := by
  induction h with
  | nil => rfl
  | @cons x y xs ys hy _ ih =>
      rw [List.mapM_cons, hy]
      show (xs.mapM f >>= fun ys => pure (y :: ys)) = _
      rw [ih]
      rfl

/-- Results of the turns over a range. -/
theorem forall₂_ofFn {β γ : Type} {n : Nat} {P : Nat → β → Prop} {Q : β → γ → Prop} {f : Fin n → γ}
    {ys : List β} (h : List.Forall₂ P (List.range n) ys) (hpq : ∀ (l : Fin n) y, P l y → Q y (f l)) :
    List.Forall₂ Q ys (List.ofFn f) := by
  obtain ⟨hlen, hget⟩ := List.forall₂_iff_get.1 h
  rw [List.length_range] at hlen
  apply List.forall₂_iff_get.2
  refine ⟨by rw [List.length_ofFn, ← hlen], ?_⟩
  intro i hi hi'
  have hin : i < n := by rwa [List.length_ofFn] at hi'
  have hp := hget i (by rwa [List.length_range]) hi
  simp only [List.get_eq_getElem, List.getElem_range] at hp
  simpa using hpq ⟨i, hin⟩ _ hp

theorem mem_of_forall₂ {α β : Type} {P : α → β → Prop} {xs : List α} {ys : List β}
    (h : List.Forall₂ P xs ys) {y : β} (hy : y ∈ ys) : ∃ x ∈ xs, P x y := by
  induction h with
  | nil => cases hy
  | cons hp _ ih =>
      rcases List.mem_cons.1 hy with rfl | hy
      · exact ⟨_, List.mem_cons_self, hp⟩
      · obtain ⟨x, hx, hxy⟩ := ih hy
        exact ⟨x, List.mem_cons_of_mem _ hx, hxy⟩

theorem exists_of_forall₂ {α β : Type} {P : α → β → Prop} {xs : List α} {ys : List β}
    (h : List.Forall₂ P xs ys) {x : α} (hx : x ∈ xs) : ∃ y ∈ ys, P x y := by
  obtain ⟨y, hy, hp⟩ := mem_of_forall₂ h.flip hx
  exact ⟨y, hy, hp⟩

/-! ## Banks that were written -/

/-- The rows of a bank over all layers, and how it is written. -/
structure ExpertBank (T : Dtypes D) (numLayers : Nat) where
  name : String
  perLayer : Bool
  dtype : D
  numExperts : Nat
  rowShape : List Nat
  bytes : Bytes
  size : bytes.length = numLayers * (numExperts * (rowShape.prod * T.elsize dtype))

namespace ExpertBank

variable {numLayers : Nat}

def layerBytes (b : ExpertBank T numLayers) : Nat := b.numExperts * (b.rowShape.prod * T.elsize b.dtype)

theorem layer_le (b : ExpertBank T numLayers) {l : Nat} (h : l < numLayers) :
    l * b.layerBytes + b.layerBytes ≤ b.bytes.length := by
  rw [b.size]
  calc l * b.layerBytes + b.layerBytes = (l + 1) * b.layerBytes := by rw [Nat.succ_mul]
    _ ≤ numLayers * b.layerBytes := Nat.mul_le_mul_right _ h

/-- The rows of one layer. -/
def layer (b : ExpertBank T numLayers) (l : Fin numLayers) : HostTensor T where
  dtype := b.dtype
  shape := b.numExperts :: b.rowShape
  bytes := slice b.bytes (l * b.layerBytes) b.layerBytes
  size := by
    rw [length_slice (b.layer_le l.isLt), List.prod_cons, Nat.mul_assoc]
    rfl

def layerCall (b : ExpertBank T numLayers) (l : Fin numLayers) : Call T :=
  ⟨layerBankEntryName b.name l, b.layer l, "experts_bank"⟩

def flatCall (b : ExpertBank T numLayers) : Call T where
  name := b.name
  tensor :=
    { dtype := b.dtype
      shape := (numLayers * b.numExperts) :: b.rowShape
      bytes := b.bytes
      size := by rw [b.size, List.prod_cons, Nat.mul_assoc, Nat.mul_assoc] }
  kind := "experts_bank"

/-- The calls that write the bank. -/
def calls (b : ExpertBank T numLayers) : List (Call T) :=
  if b.perLayer then List.ofFn b.layerCall else [b.flatCall]

/-- All calls of a bank are of the banks' kind. -/
theorem requested_calls (b : ExpertBank T numLayers) : requested ["experts_bank"] b.calls = b.calls := by
  unfold requested
  apply List.filter_eq_self.2
  intro c hc
  have hkind : c.kind = "experts_bank" := by
    unfold calls at hc
    split at hc
    · obtain ⟨l, rfl⟩ := List.mem_ofFn.1 hc
      rfl
    · rw [List.mem_singleton.1 hc]
      rfl
  rw [hkind]
  rfl

end ExpertBank

/-- Banks and alphas of a checkpoint: rows and alphas are not empty, no two banks and no two alphas have
the same name, a name can be parsed back, and that of a flat bank is neither an alpha's nor that of a
layer's entry. -/
structure WellNamed (U : Decimals) {numLayers : Nat} (banks : List (ExpertBank T numLayers))
    (alphas : List (Call T)) : Prop where
  banks_nodup : (banks.map ExpertBank.name).Nodup
  rows : ∀ b ∈ banks, 0 < b.numExperts ∧ 0 ∉ b.rowShape
  layered : ∀ b ∈ banks, b.perLayer = true → PlainName b.name
  flat : ∀ b ∈ banks, b.perLayer = false → b.name ∉ alphaNames ∧ matchLayerEntry U b.name = none
  alphas_nodup : (alphas.map Call.name).Nodup
  alphas : ∀ a ∈ alphas, a.name ∈ alphaNames ∧ a.kind = "experts_bank" ∧ a.tensor.shape ≠ [] ∧
    0 ∉ a.tensor.shape

/-! ## Reads of what was written -/

section Reads

variable {r : Reader} {chunk : Nat} {c : Call T} {e : Entry}

/-- The read's jobs are legal. -/
def BankRead.Legal (r : Reader) (chunk : Nat) (read : BankRead T) : Prop :=
  ∃ js, r.jobs chunk read.entry = .ok js ∧
    Reader.LegalJobs r.files read.bufLen read.entry.nbytes js

/-- The read is legal and hands out the tensor. -/
def Yields (r : Reader) (mode : Mode) (io : Preadv) (pool : Pool) (chunk : Nat) (read : BankRead T)
    (t : HostTensor T) : Prop :=
  read.Legal r chunk ∧ read.load r mode io pool chunk = .ok t

theorem dtypeOf_str (d : D) : dtypeOf T (T.str d) = .ok d := by
  unfold dtypeOf
  rw [T.ofStr_str]

theorem Placed.legal (hchunk : 0 < chunk) (hblock : chunk % align = 0) (h : Placed r c e) :
    ∃ js, r.jobs chunk e = .ok js ∧ Reader.LegalJobs r.files (alignUp e.nbytes) e.nbytes js := by
  obtain ⟨region, hstored, hle, -⟩ := h.stored
  exact Reader.jobs_legal hchunk hblock hstored h.off_mod hle

/-- An entry that is read as it is. -/
theorem Placed.entryRead (hchunk : 0 < chunk) (hblock : chunk % align = 0) (h : Placed r c e)
    (hdims : c.tensor.shape ≠ []) (hfull : 0 ∉ c.tensor.shape) (mode : Mode) (io : Preadv)
    (pool : Pool) : ∃ read, entryRead T e c.tensor.shape (T.str c.tensor.dtype) = .ok read ∧
      Yields r mode io pool chunk read c.tensor := by
  obtain ⟨region, hstored, hle, hslice⟩ := h.stored
  have hnbytes : e.nbytes = c.tensor.bytes.length := by rw [h.entry, Call.entry]
  have hpos := T.elsize_pos c.tensor.dtype
  have hsize := c.tensor.size
  have hprod : c.tensor.shape.prod ≠ 0 := fun hzero => hfull (List.prod_eq_zero_iff.1 hzero)
  have hne : alignUp (c.tensor.shape.prod * T.elsize c.tensor.dtype) ≠ 0 := by
    rw [Ne, alignUp_eq_zero]
    exact Nat.mul_ne_zero hprod (Nat.ne_of_gt hpos)
  have halloc : HostBank.alloc T c.tensor.shape c.tensor.dtype = .ok
      { shape := c.tensor.shape, dtype := c.tensor.dtype, nbytes := e.nbytes } := by
    unfold HostBank.alloc
    rw [hnbytes, hsize]
    exact (if_neg hne).trans (if_neg hdims)
  have hrun : Ftw.entryRead T e c.tensor.shape (T.str c.tensor.dtype) = .ok
      { bufLen := alignUp e.nbytes
        entry := e
        view := HostBank.tensor T
          { shape := c.tensor.shape, dtype := c.tensor.dtype, nbytes := e.nbytes } } := by
    unfold Ftw.entryRead
    rw [dtypeOf_str]
    show (HostBank.alloc T c.tensor.shape c.tensor.dtype >>= _) = _
    rw [halloc]
    rfl
  refine ⟨_, hrun, h.legal hchunk hblock, ?_⟩
  unfold BankRead.load
  show (r.readInto mode io pool chunk (List.replicate (alignUp e.nbytes) 0) e >>= _) = _
  rw [Reader.readInto_spec hchunk hblock hstored h.off_mod hle List.length_replicate, hslice]
  show (frombuffer T (padded c.tensor.bytes) c.tensor.dtype (e.nbytes / T.elsize c.tensor.dtype) >>=
    fun t => t.view c.tensor.shape) = _
  rw [hnbytes, frombuffer_padded c.tensor hprod]
  exact view_flat c.tensor

/-- The view of a slice that holds a tensor's bytes at a multiple of the element size. -/
theorem viewAs_flat (t : HostTensor T) {buf : Bytes} {off : Nat}
    (hslice : slice buf off t.bytes.length = t.bytes) (hoff : off % T.elsize t.dtype = 0) :
    viewAs T buf off t.bytes.length t.dtype = .ok t.flat := by
  have hpos := T.elsize_pos t.dtype
  have hmod : t.bytes.length % T.elsize t.dtype = 0 := by rw [t.size, Nat.mul_mod_left]
  have hcount : t.bytes.length / T.elsize t.dtype = t.shape.prod := by
    rw [t.size, Nat.mul_div_cancel _ hpos]
  have hif : (slice buf off t.bytes.length).length % T.elsize t.dtype = 0 ∧
      off % T.elsize t.dtype = 0 := by
    rw [hslice]
    exact ⟨hmod, hoff⟩
  unfold viewAs
  rw [dif_pos hif]
  congr 1
  ext1
  · rfl
  · show [(slice buf off t.bytes.length).length / T.elsize t.dtype] = [t.shape.prod]
    rw [hslice, hcount]
  · exact hslice

variable {numLayers : Nat}

/-- The window of a layer starts and ends at a block, inside the padded bank. -/
theorem window_bounds {off len g n : Nat} (hg : g % align = 0) (hhi : off + len ≤ g + n) (hlen : 0 < len) :
    off / align * align ≤ off ∧ off / align * align % align = 0 ∧
      (alignUp (off + len) - off / align * align) % align = 0 ∧
      off - off / align * align + len ≤ alignUp (off + len) - off / align * align ∧
      off / align * align + (alignUp (off + len) - off / align * align) ≤ g + alignUp n := by
  have hend : alignUp (off + len) ≤ g + alignUp n := by
    apply alignUp_le
    · have hmod := alignUp_mod n
      unfold align at *
      omega
    · have hle := le_alignUp n
      omega
  have hup := le_alignUp (off + len)
  have hmod := alignUp_mod (off + len)
  have hdown := Nat.div_mul_le_self off align
  have hblock : off / align * align % align = 0 := Nat.mul_mod_left _ _
  unfold align at *
  omega

theorem Placed.windowRead (hchunk : 0 < chunk) (hblock : chunk % align = 0)
    (helsize : ∀ d, T.elsize d ∣ align) {b : ExpertBank T numLayers} (h : Placed r b.flatCall e)
    (hrows : 0 < b.numExperts ∧ 0 ∉ b.rowShape) (mode : Mode) (io : Preadv) (pool : Pool)
    (l : Fin numLayers) :
    ∃ read, windowRead T e b.numExperts b.rowShape b.dtype b.layerBytes l = .ok read ∧
      Yields r mode io pool chunk read (b.layer l) := by
  obtain ⟨region, hstored, hle, hslice⟩ := h.stored
  have hnbytes : e.nbytes = b.bytes.length := by rw [h.entry]; rfl
  have hlayer := b.layer_le l.isLt
  have hlength : (b.layer l).bytes.length = b.layerBytes := length_slice hlayer
  have hpos : 0 < b.layerBytes := by
    have hprod : b.rowShape.prod ≠ 0 := fun hzero => hrows.2 (List.prod_eq_zero_iff.1 hzero)
    exact Nat.mul_pos hrows.1 (Nat.mul_pos (Nat.pos_of_ne_zero hprod) (T.elsize_pos b.dtype))
  -- the bytes of the layer in the region
  have hbytes : slice region (e.globalOff + l * b.layerBytes) b.layerBytes = (b.layer l).bytes := by
    have hpad : alignUp e.nbytes = (padded b.bytes).length := by rw [length_padded, hnbytes]
    have hup := le_alignUp e.nbytes
    have hin : l * b.layerBytes + b.layerBytes ≤ alignUp e.nbytes := by omega
    rw [← slice_slice region e.globalOff hin, hslice]
    exact slice_append _ hlayer
  have hdvd : T.elsize b.dtype ∣ e.globalOff + l * b.layerBytes := by
    apply Nat.dvd_add
    · exact (helsize b.dtype).trans (Nat.dvd_of_mod_eq_zero h.off_mod)
    · exact ((Nat.dvd_mul_left _ _).mul_left _).mul_left _
  obtain ⟨hdown, hdown_mod, hlen_mod, hfits, hend⟩ := window_bounds (n := e.nbytes) h.off_mod
    (by omega : e.globalOff + l * b.layerBytes + b.layerBytes ≤ e.globalOff + e.nbytes) hpos
  generalize hoff : e.globalOff + l * b.layerBytes = off at *
  generalize hwin : off / align * align = winOff at *
  generalize hwinLen : alignUp (off + b.layerBytes) - winOff = winLen at *
  have hround : alignUp winLen = winLen := alignUp_of_mod hlen_mod
  have hrun : Ftw.windowRead T e b.numExperts b.rowShape b.dtype b.layerBytes l = .ok
      { bufLen := winLen
        entry := { e with globalOff := winOff, nbytes := winLen }
        view := fun buf => do
          let raw ← viewAs T buf (off - winOff) b.layerBytes b.dtype
          raw.view (b.numExperts :: b.rowShape) } := by
    unfold Ftw.windowRead
    simp only [hoff, hwin, hwinLen]
    exact if_neg (by omega)
  have hhead : (off - winOff) % T.elsize b.dtype = 0 := by
    apply Nat.mod_eq_zero_of_dvd
    apply Nat.dvd_sub hdvd
    exact (helsize b.dtype).trans (Nat.dvd_of_mod_eq_zero hdown_mod)
  refine ⟨_, hrun, ?_, ?_⟩
  · obtain ⟨js, hjs, hlegal⟩ := Reader.jobs_legal (e := { e with globalOff := winOff, nbytes := winLen })
      hchunk hblock hstored hdown_mod (by show winOff + alignUp winLen ≤ _; omega)
    refine ⟨js, hjs, ?_⟩
    show Reader.LegalJobs r.files winLen winLen js
    have hbuf : alignUp ({ e with globalOff := winOff, nbytes := winLen } : Entry).nbytes = winLen :=
      hround
    rwa [hbuf] at hlegal
  · unfold BankRead.load
    show (r.readInto mode io pool chunk (List.replicate winLen 0)
      { e with globalOff := winOff, nbytes := winLen } >>= _) = _
    rw [Reader.readInto_spec hchunk hblock hstored hdown_mod (by show winOff + alignUp winLen ≤ _; omega)
      (by rw [List.length_replicate]; exact hround.symm)]
    show (viewAs T (slice region winOff (alignUp winLen)) (off - winOff) b.layerBytes b.dtype >>=
      fun raw => raw.view (b.numExperts :: b.rowShape)) = _
    have hcut : slice (slice region winOff (alignUp winLen)) (off - winOff) (b.layer l).bytes.length =
        (b.layer l).bytes := by
      rw [hlength, hround, slice_slice region winOff hfits, ← hbytes]
      congr 1
      omega
    have hview := viewAs_flat (b.layer l) hcut hhead
    rw [hlength] at hview
    change viewAs T _ _ b.layerBytes b.dtype = _ at hview
    rw [hview]
    exact view_flat (b.layer l)

/-- A flat bank is read as its layers. -/
theorem Placed.flatBank (hchunk : 0 < chunk) (hblock : chunk % align = 0)
    (helsize : ∀ d, T.elsize d ∣ align) (hlayers : 0 < numLayers) {b : ExpertBank T numLayers}
    (h : Placed r b.flatCall e) (hrows : 0 < b.numExperts ∧ 0 ∉ b.rowShape) (mode : Mode) (io : Preadv)
    (pool : Pool) : ∃ reads, flatBank T numLayers e = .ok reads ∧
      List.Forall₂ (Yields r mode io pool chunk) reads (List.ofFn b.layer) := by
  have hshape : e.shape = (numLayers * b.numExperts) :: b.rowShape := by rw [h.entry]; rfl
  have hdtype : e.dtype = T.str b.dtype := by rw [h.entry]; rfl
  have hnbytes : e.nbytes = b.bytes.length := by rw [h.entry]; rfl
  have hbytes : b.layerBytes * numLayers = e.nbytes := by
    rw [hnbytes, b.size, Nat.mul_comm]
    rfl
  have hread : ∀ l ∈ List.range numLayers, ∃ read,
      Ftw.windowRead T e b.numExperts b.rowShape b.dtype b.layerBytes l = .ok read ∧
        ∀ hl : l < numLayers, Yields r mode io pool chunk read (b.layer ⟨l, hl⟩) := by
    intro l hl
    have hl := List.mem_range.1 hl
    obtain ⟨read, hread, hyields⟩ := h.windowRead hchunk hblock helsize hrows mode io pool ⟨l, hl⟩
    exact ⟨read, hread, fun _ => hyields⟩
  obtain ⟨reads, hreads, hall⟩ := mapM_exists hread
  refine ⟨reads, ?_, forall₂_ofFn hall fun l _ hy => hy l.isLt⟩
  unfold Ftw.flatBank
  rw [hshape]
  dsimp only
  rw [if_neg (Nat.ne_of_gt hlayers), hdtype, dtypeOf_str, Nat.mul_div_cancel_left _ hlayers]
  show (if numLayers * b.numExperts % numLayers ≠ 0 then _ else
    if b.layerBytes * numLayers ≠ e.nbytes then _ else
      (List.range numLayers).mapM (Ftw.windowRead T e b.numExperts b.rowShape b.dtype b.layerBytes)) = _
  rw [if_neg (by rw [Nat.mul_mod_right]; exact fun h => h rfl), if_neg (not_not_intro hbytes), hreads]

/-- A bank with an entry for every layer and no other is read as its layers. -/
theorem layerBank_spec (hchunk : 0 < chunk) (hblock : chunk % align = 0) {b : ExpertBank T numLayers}
    (hrows : 0 < b.numExperts ∧ 0 ∉ b.rowShape) {assigns : List (Nat × Entry)}
    (hkeys : ∀ l, (∃ e, (l, e) ∈ assigns) ↔ l < numLayers)
    (hplaced : ∀ (l : Fin numLayers) e, (l.val, e) ∈ assigns → Placed r (b.layerCall l) e) (mode : Mode)
    (io : Preadv) (pool : Pool) : ∃ reads, layerBank T numLayers b.name assigns = .ok reads ∧
      List.Forall₂ (Yields r mode io pool chunk) reads (List.ofFn b.layer) := by
  have hsorted : (keys assigns).mergeSort (fun a b => decide (a ≤ b)) = List.range numLayers := by
    have hperm : (keys assigns).Perm (List.range numLayers) := by
      apply (List.perm_ext_iff_of_nodup (nodup_eraseDups _ _ (Nat.le_refl _)) List.nodup_range).2
      intro l
      show l ∈ keys assigns ↔ _
      rw [mem_keys, hkeys, List.mem_range]
    have hle : (keys assigns).mergeSort (fun a b => decide (a ≤ b)) |>.Pairwise (· ≤ ·) := by
      apply (List.pairwise_mergeSort _ _ (keys assigns)).imp
      · exact fun h => of_decide_eq_true h
      · intro a b c hab hbc
        simp only [decide_eq_true_eq] at *
        omega
      · intro a b
        simp only [Bool.or_eq_true, decide_eq_true_eq]
        omega
    exact List.Perm.eq_of_pairwise (fun _ _ _ _ hab hba => Nat.le_antisymm hab hba) hle
      List.pairwise_le_range ((List.mergeSort_perm _ _).trans hperm)
  have hread : ∀ l ∈ List.range numLayers, ∃ read,
      (assigned assigns l).elim (.error (.valueError b.name)) (fun e =>
        if e.globalOff % align ≠ 0 then .error (.assertion b.name)
        else entryRead T e e.shape e.dtype) = Except.ok read ∧
        ∀ hl : l < numLayers, Yields r mode io pool chunk read (b.layer ⟨l, hl⟩) := by
    intro l hl
    have hl := List.mem_range.1 hl
    obtain ⟨e, he⟩ := (hkeys l).2 hl
    obtain ⟨e, hassigned⟩ := assigned_of_mem he
    have h := hplaced ⟨l, hl⟩ e (mem_of_assigned hassigned)
    have hfull : 0 ∉ b.numExperts :: b.rowShape := by
      rw [List.mem_cons, not_or]
      exact ⟨Nat.ne_of_lt hrows.1, hrows.2⟩
    obtain ⟨read, hread, hyields⟩ :=
      h.entryRead hchunk hblock (List.cons_ne_nil _ _) hfull mode io pool
    have hshape : e.shape = (b.layerCall ⟨l, hl⟩).tensor.shape := by rw [h.entry]; rfl
    have hdtype : e.dtype = T.str (b.layerCall ⟨l, hl⟩).tensor.dtype := by rw [h.entry]; rfl
    refine ⟨read, ?_, fun _ => hyields⟩
    rw [← hshape, ← hdtype] at hread
    rw [hassigned, ← hread]
    exact if_neg (not_not_intro h.off_mod)
  obtain ⟨reads, hreads, hall⟩ := mapM_exists hread
  refine ⟨reads, ?_, forall₂_ofFn hall fun l _ hy => hy l.isLt⟩
  unfold layerBank
  rw [if_neg (not_not_intro hsorted), ← hreads]
  show (List.range numLayers).mapM _ = _
  congr 1
  funext l
  cases assigned assigns l <;> rfl

end Reads

/-! ## The entries of the banks -/

/-- The entries of the directory's banks and alphas. -/
structure BankEntries (U : Decimals) (r : Reader) {numLayers : Nat}
    (banks : List (ExpertBank T numLayers)) (alphas : List (Call T)) (es : List Entry) : Prop where
  named : WellNamed U banks alphas
  placed : ∃ cs, List.Forall₂ (Placed r) cs es ∧ cs.Perm (alphas ++ banks.flatMap ExpertBank.calls)

namespace BankEntries

variable {r : Reader} {numLayers : Nat} {banks : List (ExpertBank T numLayers)} {alphas : List (Call T)}
  {es : List Entry} {e : Entry}

theorem hash_mem (name : String) (l : Nat) : '#' ∈ (layerBankEntryName name l).toList := by
  unfold layerBankEntryName
  rw [String.toList_ofList]
  exact List.mem_append_right _ List.mem_cons_self

theorem layerName_notAlpha (name : String) (l : Nat) : layerBankEntryName name l ∉ alphaNames := by
  have hnone : ∀ a ∈ alphaNames, '#' ∉ a.toList := by decide
  exact fun h => hnone _ h (hash_mem name l)

/-- The call that wrote an entry which is no alpha. -/
theorem row (h : BankEntries U r banks alphas es) (he : e ∈ es) (hname : e.name ∉ alphaNames) :
    ∃ b ∈ banks, (b.perLayer = false ∧ Placed r b.flatCall e) ∨
      (b.perLayer = true ∧ ∃ l, Placed r (b.layerCall l) e) := by
  obtain ⟨cs, hall, hperm⟩ := h.placed
  obtain ⟨c, hc, hplaced⟩ := mem_of_forall₂ hall he
  have hcname : e.name = c.name := by rw [hplaced.entry]; rfl
  rcases List.mem_append.1 (hperm.mem_iff.1 hc) with hc | hc
  · exact absurd (hcname ▸ (h.named.alphas c hc).1) hname
  · obtain ⟨b, hb, hc⟩ := List.mem_flatMap.1 hc
    refine ⟨b, hb, ?_⟩
    unfold ExpertBank.calls at hc
    cases hlay : b.perLayer with
    | false =>
        rw [hlay] at hc
        obtain rfl := List.mem_singleton.1 hc
        exact .inl ⟨rfl, hplaced⟩
    | true =>
        rw [hlay] at hc
        obtain ⟨l, rfl⟩ := List.mem_ofFn.1 hc
        exact .inr ⟨rfl, l, hplaced⟩

theorem alpha (h : BankEntries U r banks alphas es) (he : e ∈ es) (hname : e.name ∈ alphaNames) :
    ∃ a ∈ alphas, Placed r a e := by
  obtain ⟨cs, hall, hperm⟩ := h.placed
  obtain ⟨c, hc, hplaced⟩ := mem_of_forall₂ hall he
  have hcname : e.name = c.name := by rw [hplaced.entry]; rfl
  rcases List.mem_append.1 (hperm.mem_iff.1 hc) with hc | hc
  · exact ⟨c, hc, hplaced⟩
  · obtain ⟨b, hb, hc⟩ := List.mem_flatMap.1 hc
    unfold ExpertBank.calls at hc
    rw [hcname] at hname
    cases hlay : b.perLayer with
    | false =>
        rw [hlay] at hc
        obtain rfl := List.mem_singleton.1 hc
        exact absurd hname (h.named.flat b hb hlay).1
    | true =>
        rw [hlay] at hc
        obtain ⟨l, rfl⟩ := List.mem_ofFn.1 hc
        exact absurd hname (layerName_notAlpha b.name l)

theorem written (h : BankEntries U r banks alphas es) {b : ExpertBank T numLayers} (hb : b ∈ banks)
    {c : Call T} (hc : c ∈ b.calls) : ∃ e ∈ es, Placed r c e := by
  obtain ⟨cs, hall, hperm⟩ := h.placed
  apply exists_of_forall₂ hall
  exact hperm.mem_iff.2 (List.mem_append_right _ (List.mem_flatMap.2 ⟨b, hb, hc⟩))

theorem bank_eq (h : BankEntries U r banks alphas es) {b b' : ExpertBank T numLayers} (hb : b ∈ banks)
    (hb' : b' ∈ banks) (hname : b.name = b'.name) : b = b' :=
  List.inj_on_of_nodup_map h.named.banks_nodup hb hb' hname

theorem layered_lt (hcond : numLayers ≤ 100000 ∨ ∀ b ∈ banks, b.perLayer = false)
    {b : ExpertBank T numLayers} (hb : b ∈ banks) (hlay : b.perLayer = true) {l : Nat}
    (hl : l < numLayers) : l < 100000 := by
  rcases hcond with hle | hall
  · exact Nat.lt_of_lt_of_le hl hle
  · rw [hall b hb] at hlay
    cases hlay

/-- What the names of the row entries say: a name without a layer is a flat bank's, any other that of a
layer of its bank. -/
theorem row_flat (h : BankEntries U r banks alphas es)
    (hcond : numLayers ≤ 100000 ∨ ∀ b ∈ banks, b.perLayer = false) (he : e ∈ es)
    (hname : e.name ∉ alphaNames) (hmatch : matchLayerEntry U e.name = none) :
    ∃ b ∈ banks, b.perLayer = false ∧ Placed r b.flatCall e := by
  obtain ⟨b, hb, ⟨hflat, hplaced⟩ | ⟨hlay, l, hplaced⟩⟩ := h.row he hname
  · exact ⟨b, hb, hflat, hplaced⟩
  · have hlt := layered_lt hcond hb hlay l.isLt
    have hentry : e.name = layerBankEntryName b.name l := by rw [hplaced.entry]; rfl
    rw [hentry, match_layerBankEntryName (h.named.layered b hb hlay) hlt] at hmatch
    cases hmatch

theorem row_layer (h : BankEntries U r banks alphas es)
    (hcond : numLayers ≤ 100000 ∨ ∀ b ∈ banks, b.perLayer = false) (he : e ∈ es)
    (hname : e.name ∉ alphaNames) {base : String} {layer : Nat}
    (hmatch : matchLayerEntry U e.name = some (base, layer)) :
    ∃ b ∈ banks, b.perLayer = true ∧ base = b.name ∧
      ∃ l : Fin numLayers, layer = l ∧ Placed r (b.layerCall l) e := by
  obtain ⟨b, hb, ⟨hflat, hplaced⟩ | ⟨hlay, l, hplaced⟩⟩ := h.row he hname
  · have hentry : e.name = b.name := by rw [hplaced.entry]; rfl
    rw [hentry, (h.named.flat b hb hflat).2] at hmatch
    cases hmatch
  · have hlt := layered_lt hcond hb hlay l.isLt
    have hentry : e.name = layerBankEntryName b.name l := by rw [hplaced.entry]; rfl
    rw [hentry, match_layerBankEntryName (h.named.layered b hb hlay) hlt] at hmatch
    obtain ⟨rfl, rfl⟩ := Prod.mk.inj (Option.some.inj hmatch)
    exact ⟨b, hb, hlay, rfl, l, rfl, hplaced⟩

/-- The entries whose names are no alpha's. -/
def rows (es : List Entry) : List Entry := es.filter fun e => !alphaNames.contains e.name

theorem mem_rows : e ∈ rows es ↔ e ∈ es ∧ e.name ∉ alphaNames := by
  unfold rows
  rw [List.mem_filter, Bool.not_eq_true', ← Bool.not_eq_true, List.contains_iff_mem]

theorem mem_layerEntries {rowEntries : List Entry} {base : String} {layer : Nat} :
    (base, layer, e) ∈ layerEntries U rowEntries ↔
      e ∈ rowEntries ∧ matchLayerEntry U e.name = some (base, layer) := by
  unfold layerEntries
  rw [List.mem_filterMap]
  constructor
  · rintro ⟨a, ha, hmap⟩
    obtain ⟨m, hm, heq⟩ := Option.map_eq_some_iff.1 hmap
    obtain ⟨rfl, hrest⟩ := Prod.mk.inj heq
    obtain ⟨rfl, rfl⟩ := Prod.mk.inj hrest
    exact ⟨ha, hm⟩
  · rintro ⟨ha, hm⟩
    exact ⟨e, ha, by rw [hm]; rfl⟩

theorem mem_byLayer {layered : List (String × Nat × Entry)} {base : String} {layer : Nat} :
    (layer, e) ∈ byLayer layered base ↔ (base, layer, e) ∈ layered := by
  unfold byLayer
  rw [List.mem_map]
  constructor
  · rintro ⟨m, hm, heq⟩
    obtain ⟨hm, hbase⟩ := List.mem_filter.1 hm
    rwa [← of_decide_eq_true hbase, ← heq]
  · exact fun hm => ⟨_, List.mem_filter.2 ⟨hm, decide_eq_true rfl⟩, rfl⟩

/-- The layers of a bank that is written per layer. -/
theorem byLayer_spec (h : BankEntries U r banks alphas es)
    (hcond : numLayers ≤ 100000 ∨ ∀ b ∈ banks, b.perLayer = false) {b : ExpertBank T numLayers}
    (hb : b ∈ banks) (hlay : b.perLayer = true) :
    (∀ l, (∃ e, (l, e) ∈ byLayer (layerEntries U (rows es)) b.name) ↔ l < numLayers) ∧
      ∀ (l : Fin numLayers) e, (l.val, e) ∈ byLayer (layerEntries U (rows es)) b.name →
        Placed r (b.layerCall l) e := by
  have hentry : ∀ l e, (l, e) ∈ byLayer (layerEntries U (rows es)) b.name →
      ∃ i : Fin numLayers, l = i ∧ Placed r (b.layerCall i) e := by
    intro l e hmem
    obtain ⟨he, hmatch⟩ := mem_layerEntries.1 (mem_byLayer.1 hmem)
    obtain ⟨he, hname⟩ := mem_rows.1 he
    obtain ⟨b', hb', -, hbase, i, hi, hplaced⟩ := h.row_layer hcond he hname hmatch
    rw [← h.bank_eq hb hb' hbase] at hplaced
    exact ⟨i, hi, hplaced⟩
  constructor
  · intro l
    constructor
    · rintro ⟨e, hmem⟩
      obtain ⟨i, rfl, -⟩ := hentry l e hmem
      exact i.isLt
    · intro hl
      have hlt := layered_lt hcond hb hlay hl
      have hcall : b.layerCall ⟨l, hl⟩ ∈ b.calls := by
        unfold ExpertBank.calls
        rw [if_pos hlay]
        exact List.mem_ofFn.2 ⟨_, rfl⟩
      obtain ⟨e, he, hplaced⟩ := h.written hb hcall
      have hname : e.name = layerBankEntryName b.name l := by rw [hplaced.entry]; rfl
      refine ⟨e, mem_byLayer.2 (mem_layerEntries.2 ⟨mem_rows.2 ⟨he, ?_⟩, ?_⟩)⟩
      · rw [hname]
        exact layerName_notAlpha b.name l
      · rw [hname]
        exact match_layerBankEntryName (h.named.layered b hb hlay) hlt
  · intro l e hmem
    obtain ⟨i, hi, hplaced⟩ := hentry l e hmem
    rwa [Fin.ext hi]

theorem alpha_read (h : BankEntries U r banks alphas es) {chunk : Nat} (hchunk : 0 < chunk)
    (hblock : chunk % align = 0) (mode : Mode) (io : Preadv) (pool : Pool)
    (he : e ∈ es.filter fun e => alphaNames.contains e.name) :
    ∃ read, alphaRead T (es.filter fun e => alphaNames.contains e.name) e = .ok read ∧
      ∃ t, Yields r mode io pool chunk read t := by
  have hmem : ∀ a ∈ es.filter (fun e => alphaNames.contains e.name), a ∈ es ∧ a.name ∈ alphaNames := by
    intro a ha
    obtain ⟨ha, hname⟩ := List.mem_filter.1 ha
    exact ⟨ha, List.contains_iff_mem.1 hname⟩
  obtain ⟨a, ha, hplaced⟩ := h.alpha (hmem e he).1 (hmem e he).2
  obtain ⟨spec, hspec⟩ := assigned_of_mem
    (List.mem_map.2 ⟨e, he, rfl⟩ : (e.name, e) ∈ (es.filter _).map fun a => (a.name, a))
  obtain ⟨e', he', heq⟩ := List.mem_map.1 (mem_of_assigned hspec)
  obtain ⟨hname, rfl⟩ := Prod.mk.inj heq
  -- the alpha of the last entry of the name is this one
  obtain ⟨a', ha', hplaced'⟩ := h.alpha (hmem e' he').1 (hmem e' he').2
  have hsame : a' = a := by
    apply List.inj_on_of_nodup_map h.named.alphas_nodup ha' ha
    have h1 : e.name = a.name := by rw [hplaced.entry]; rfl
    have h2 : e'.name = a'.name := by rw [hplaced'.entry]; rfl
    rw [← h1, ← h2, hname]
  have hshape : e'.shape = a.tensor.shape := by rw [hplaced'.entry, hsame]; rfl
  have hdtype : e'.dtype = T.str a.tensor.dtype := by rw [hplaced'.entry, hsame]; rfl
  obtain ⟨-, -, hdims, hfull⟩ := h.named.alphas a ha
  obtain ⟨read, hread, hyields⟩ := hplaced.entryRead hchunk hblock hdims hfull mode io pool
  refine ⟨read, ?_, a.tensor, hyields⟩
  unfold alphaRead
  rw [hspec]
  show entryRead T e e'.shape e'.dtype = _
  rw [hshape, hdtype, hread]

/-- What the plan says of a bank: the reads of its layers. -/
def Planned (r : Reader) (mode : Mode) (io : Preadv) (pool : Pool) (chunk : Nat)
    (banks : List (ExpertBank T numLayers)) (row : String × List (BankRead T)) : Prop :=
  ∃ b ∈ banks, row.1 = b.name ∧ List.Forall₂ (Yields r mode io pool chunk) row.2 (List.ofFn b.layer)

theorem flat_reads (h : BankEntries U r banks alphas es) {chunk : Nat} (hchunk : 0 < chunk)
    (hblock : chunk % align = 0) (helsize : ∀ d, T.elsize d ∣ align) (hlayers : 0 < numLayers)
    (hcond : numLayers ≤ 100000 ∨ ∀ b ∈ banks, b.perLayer = false) (mode : Mode) (io : Preadv)
    (pool : Pool) (he : e ∈ (rows es).filter fun e => (matchLayerEntry U e.name).isNone) :
    ∃ reads, flatBank T numLayers e = .ok reads ∧
      Planned r mode io pool chunk banks (e.name, reads) := by
  obtain ⟨he, hmatch⟩ := List.mem_filter.1 he
  obtain ⟨he, hname⟩ := mem_rows.1 he
  obtain ⟨b, hb, -, hplaced⟩ := h.row_flat hcond he hname (Option.isNone_iff_eq_none.1 hmatch)
  have hentry : e.name = b.name := by rw [hplaced.entry]; rfl
  obtain ⟨reads, hreads, hall⟩ :=
    hplaced.flatBank hchunk hblock helsize hlayers (h.named.rows b hb) mode io pool
  exact ⟨reads, hreads, b, hb, hentry, hall⟩

theorem layer_reads (h : BankEntries U r banks alphas es) {chunk : Nat} (hchunk : 0 < chunk)
    (hblock : chunk % align = 0) (hcond : numLayers ≤ 100000 ∨ ∀ b ∈ banks, b.perLayer = false)
    (mode : Mode) (io : Preadv) (pool : Pool) {base : String}
    (hbase : base ∈ keys (layerEntries U (rows es))) :
    ∃ reads, layerBank T numLayers base (byLayer (layerEntries U (rows es)) base) = .ok reads ∧
      Planned r mode io pool chunk banks (base, reads) := by
  obtain ⟨⟨layer, e⟩, hmem⟩ := mem_keys.1 hbase
  obtain ⟨he, hmatch⟩ := mem_layerEntries.1 hmem
  obtain ⟨he, hname⟩ := mem_rows.1 he
  obtain ⟨b, hb, hlay, rfl, -⟩ := h.row_layer hcond he hname hmatch
  obtain ⟨hkeys, hplaced⟩ := h.byLayer_spec hcond hb hlay
  obtain ⟨reads, hreads, hall⟩ :=
    layerBank_spec hchunk hblock (h.named.rows b hb) hkeys hplaced mode io pool
  exact ⟨reads, hreads, b, hb, rfl, hall⟩

/-- No name is that of a flat entry and of a bank written per layer. -/
theorem not_mixed (h : BankEntries U r banks alphas es)
    (hcond : numLayers ≤ 100000 ∨ ∀ b ∈ banks, b.perLayer = false) :
    (((rows es).filter fun e => (matchLayerEntry U e.name).isNone).any fun e =>
      (keys (layerEntries U (rows es))).contains e.name) = false := by
  apply Bool.eq_false_iff.2
  intro hany
  obtain ⟨e, he, hkey⟩ := List.any_eq_true.1 hany
  obtain ⟨he, hmatch⟩ := List.mem_filter.1 he
  obtain ⟨he, hname⟩ := mem_rows.1 he
  obtain ⟨b, hb, hflat, hplaced⟩ := h.row_flat hcond he hname (Option.isNone_iff_eq_none.1 hmatch)
  have hentry : e.name = b.name := by rw [hplaced.entry]; rfl
  obtain ⟨⟨layer, e'⟩, hmem⟩ := mem_keys.1 (List.contains_iff_mem.1 hkey)
  obtain ⟨he', hmatch'⟩ := mem_layerEntries.1 hmem
  obtain ⟨he', hname'⟩ := mem_rows.1 he'
  obtain ⟨b', hb', hlay, hbase, -⟩ := h.row_layer hcond he' hname' hmatch'
  rw [h.bank_eq hb hb' (hentry.symm.trans hbase), hlay] at hflat
  cases hflat

/-- Every bank has its flat entry or a group. -/
theorem bank_listed (h : BankEntries U r banks alphas es) (hlayers : 0 < numLayers)
    (hcond : numLayers ≤ 100000 ∨ ∀ b ∈ banks, b.perLayer = false) {b : ExpertBank T numLayers}
    (hb : b ∈ banks) :
    (∃ e ∈ (rows es).filter (fun e => (matchLayerEntry U e.name).isNone), e.name = b.name) ∨
      b.name ∈ keys (layerEntries U (rows es)) := by
  cases hlay : b.perLayer with
  | false =>
      left
      have hcall : b.flatCall ∈ b.calls := by
        unfold ExpertBank.calls
        rw [hlay]
        exact List.mem_singleton.2 rfl
      obtain ⟨e, he, hplaced⟩ := h.written hb hcall
      have hentry : e.name = b.name := by rw [hplaced.entry]; rfl
      obtain ⟨hname, hmatch⟩ := h.named.flat b hb hlay
      rw [← hentry] at hname hmatch
      exact ⟨e, List.mem_filter.2 ⟨mem_rows.2 ⟨he, hname⟩, Option.isNone_iff_eq_none.2 hmatch⟩, hentry⟩
  | true =>
      right
      obtain ⟨e, hmem⟩ := ((h.byLayer_spec hcond hb hlay).1 0).2 hlayers
      exact mem_keys.2 ⟨_, mem_byLayer.1 hmem⟩

/-- The plan reads every alpha and every bank. -/
theorem plan_spec (h : BankEntries U r banks alphas es) (hes : r.entries ["experts_bank"] = es)
    {chunk : Nat} (hchunk : 0 < chunk) (hblock : chunk % align = 0) (helsize : ∀ d, T.elsize d ∣ align)
    (hlayers : 0 < numLayers) (hcond : numLayers ≤ 100000 ∨ ∀ b ∈ banks, b.perLayer = false)
    {metaLayers : Option Nat} (hmeta : metaLayers = none ∨ metaLayers = some numLayers) (mode : Mode)
    (io : Preadv) (pool : Pool) :
    (es = [] ∧ bankPlan T U r numLayers metaLayers = .ok none) ∨
      ∃ plan, bankPlan T U r numLayers metaLayers = .ok (some plan) ∧
        (∀ a ∈ plan.alphas, ∃ t, Yields r mode io pool chunk a.2 t) ∧
        (∀ row ∈ plan.rows, Planned r mode io pool chunk banks row) ∧
        ∀ b ∈ banks, ∃ reads, (b.name, reads) ∈ plan.rows := by
  by_cases hnil : es = []
  · left
    refine ⟨hnil, ?_⟩
    unfold bankPlan
    rw [hes, hnil]
    rfl
  right
  have halphas : ∀ e ∈ es.filter (fun e => alphaNames.contains e.name), ∃ y,
      (do
        let read ← alphaRead T (es.filter fun e => alphaNames.contains e.name) e
        return (e.name, read)) = Except.ok y ∧ ∃ t, Yields r mode io pool chunk y.2 t := by
    intro e he
    obtain ⟨read, hread, hyields⟩ := h.alpha_read hchunk hblock mode io pool he
    exact ⟨(e.name, read), by rw [hread]; rfl, hyields⟩
  have hflats : ∀ e ∈ (rows es).filter (fun e => (matchLayerEntry U e.name).isNone), ∃ y,
      (do
        let reads ← flatBank T numLayers e
        return (e.name, reads)) = Except.ok y ∧ y.1 = e.name ∧
          Planned r mode io pool chunk banks y := by
    intro e he
    obtain ⟨reads, hreads, hplanned⟩ :=
      h.flat_reads hchunk hblock helsize hlayers hcond mode io pool he
    exact ⟨(e.name, reads), by rw [hreads]; rfl, rfl, hplanned⟩
  have hgroups : ∀ base ∈ keys (layerEntries U (rows es)), ∃ y,
      (do
        let reads ← layerBank T numLayers base (byLayer (layerEntries U (rows es)) base)
        return (base, reads)) = Except.ok y ∧ y.1 = base ∧
          Planned r mode io pool chunk banks y := by
    intro base hbase
    obtain ⟨reads, hreads, hplanned⟩ := h.layer_reads hchunk hblock hcond mode io pool hbase
    exact ⟨(base, reads), by rw [hreads]; rfl, rfl, hplanned⟩
  obtain ⟨alphaReads, halpha, halpha_all⟩ := mapM_exists halphas
  obtain ⟨flats, hflat, hflat_all⟩ := mapM_exists hflats
  obtain ⟨groups, hgroup, hgroup_all⟩ := mapM_exists hgroups
  refine ⟨⟨alphaReads, flats ++ groups⟩, ?_, ?_, ?_, ?_⟩
  · unfold bankPlan
    rw [hes]
    have hany : (metaLayers.any fun n => decide (n ≠ numLayers)) = false := by
      rcases hmeta with rfl | rfl <;> simp
    have hmixed := h.not_mixed hcond
    have hempty : es.isEmpty = false := by
      rw [List.isEmpty_eq_false_iff]
      exact hnil
    simp only [hempty, hany, Bool.false_eq_true, if_false]
    show ((es.filter fun e => alphaNames.contains e.name).mapM _ >>= _) = _
    rw [halpha]
    rw [show es.filter (fun e => !alphaNames.contains e.name) = rows es from rfl]
    show (if _ then _ else _ : Except Error (Option (BankPlan T))) = _
    rw [if_neg (Bool.eq_false_iff.1 hmixed), hflat]
    show ((keys (layerEntries U (rows es))).mapM (m := Except Error) _ >>= _) = _
    rw [hgroup]
    rfl
  · intro a ha
    obtain ⟨e, -, ht⟩ := mem_of_forall₂ halpha_all ha
    exact ht
  · intro row hrow
    rcases List.mem_append.1 hrow with hrow | hrow
    · obtain ⟨e, -, -, hplanned⟩ := mem_of_forall₂ hflat_all hrow
      exact hplanned
    · obtain ⟨base, -, -, hplanned⟩ := mem_of_forall₂ hgroup_all hrow
      exact hplanned
  · intro b hb
    rcases h.bank_listed hlayers hcond hb with ⟨e, he, hname⟩ | hbase
    · obtain ⟨⟨name, reads⟩, hrow, hy, -⟩ := exists_of_forall₂ hflat_all he
      exact ⟨reads, List.mem_append_left _ (hname ▸ hy ▸ hrow)⟩
    · obtain ⟨⟨name, reads⟩, hrow, hy, -⟩ := exists_of_forall₂ hgroup_all hbase
      exact ⟨reads, List.mem_append_right _ (hy ▸ hrow)⟩

/-- More layers than five digits count are not found again. -/
theorem plan_fails (h : BankEntries U r banks alphas es) (hes : r.entries ["experts_bank"] = es)
    (hmany : 100000 < numLayers) {b : ExpertBank T numLayers} (hb : b ∈ banks)
    (hlay : b.perLayer = true) (metaLayers : Option Nat) (plan : Option (BankPlan T)) :
    bankPlan T U r numLayers metaLayers ≠ .ok plan := by
  intro hplan
  -- the entry of layer 0 makes a group of the bank's name
  have hlt : 0 < numLayers := by omega
  have hcall : b.layerCall ⟨0, hlt⟩ ∈ b.calls := by
    unfold ExpertBank.calls
    rw [if_pos hlay]
    exact List.mem_ofFn.2 ⟨_, rfl⟩
  obtain ⟨e, he, hplaced⟩ := h.written hb hcall
  have hname : e.name = layerBankEntryName b.name 0 := by rw [hplaced.entry]; rfl
  have hmatch : matchLayerEntry U e.name = some (b.name, 0) := by
    rw [hname]
    exact match_layerBankEntryName (h.named.layered b hb hlay) (by decide)
  have hrow : e ∈ rows es := mem_rows.2 ⟨he, hname ▸ layerName_notAlpha b.name 0⟩
  have hkey : b.name ∈ keys (layerEntries U (rows es)) :=
    mem_keys.2 ⟨_, mem_layerEntries.2 ⟨hrow, hmatch⟩⟩
  have hgroups : ∃ groups, ((keys (layerEntries U (rows es))).mapM fun base => do
      let reads ← layerBank T numLayers base (byLayer (layerEntries U (rows es)) base)
      return (base, reads)) = Except.ok groups := by
    have hne : es.isEmpty = false := by
      cases es with
      | nil => cases he
      | cons _ _ => rfl
    unfold bankPlan at hplan
    rw [hes] at hplan
    simp only [hne, Bool.false_eq_true, if_false] at hplan
    split at hplan
    · cases hplan
    · obtain ⟨alphaReads, -, hplan⟩ := bind_eq_ok hplan
      rw [show es.filter (fun e => !alphaNames.contains e.name) = rows es from rfl] at hplan
      split at hplan
      · cases hplan
      · obtain ⟨flats, -, hplan⟩ := bind_eq_ok hplan
        obtain ⟨groups, hgroups, -⟩ := bind_eq_ok hplan
        exact ⟨groups, hgroups⟩
  obtain ⟨groups, hgroups⟩ := hgroups
  obtain ⟨row, hread⟩ := mapM_ok_mem hgroups b.name hkey
  have hsorted : (keys (byLayer (layerEntries U (rows es)) b.name)).mergeSort
      (fun a b => decide (a ≤ b)) = List.range numLayers := by
    by_contra hne
    unfold layerBank at hread
    rw [if_pos hne] at hread
    cases hread
  -- which has no layer 100000
  have hmem : 100000 ∈ List.range numLayers := List.mem_range.2 hmany
  rw [← hsorted, List.mem_mergeSort] at hmem
  obtain ⟨e', hlast⟩ := mem_keys.1 hmem
  have hbad := layer_lt_of_match (mem_layerEntries.1 (mem_byLayer.1 hlast)).2
  omega

theorem load_fails (h : BankEntries U r banks alphas es) (hes : r.entries ["experts_bank"] = es) {d : Disk}
    (hinit : Reader.init d = .ok r) (hmany : 100000 < numLayers) {b : ExpertBank T numLayers}
    (hb : b ∈ banks) (hlay : b.perLayer = true) (mode : Mode) (io : Preadv) (pool : Pool) (chunk : Nat)
    (metaLayers : Option Nat) (out : Option (LoadedBanks T)) :
    loadFtwBanks T U mode io pool chunk numLayers metaLayers d ≠ .ok out := by
  intro hload
  unfold loadFtwBanks at hload
  rw [hinit] at hload
  change (bankPlan T U r numLayers metaLayers >>= _) = _ at hload
  obtain ⟨plan, hplan, -⟩ := bind_eq_ok hload
  exact h.plan_fails hes hmany hb hlay metaLayers plan hplan

/-- What is loaded when the plan goes through. -/
theorem load_spec (h : BankEntries U r banks alphas es) (hes : r.entries ["experts_bank"] = es) {d : Disk}
    (hinit : Reader.init d = .ok r) {chunk : Nat} (hchunk : 0 < chunk) (hblock : chunk % align = 0)
    (helsize : ∀ d, T.elsize d ∣ align) (hlayers : 0 < numLayers)
    (hcond : numLayers ≤ 100000 ∨ ∀ b ∈ banks, b.perLayer = false) {metaLayers : Option Nat}
    (hmeta : metaLayers = none ∨ metaLayers = some numLayers) (mode : Mode) (io : Preadv) (pool : Pool) :
    ∃ out, loadFtwBanks T U mode io pool chunk numLayers metaLayers d = .ok out ∧
      ∀ b ∈ banks, out.bind (fun banks => banks.source b.name) = some (List.ofFn b.layer) := by
  rcases h.plan_spec hes hchunk hblock helsize hlayers hcond hmeta mode io pool with
    ⟨hnil, hplan⟩ | ⟨plan, hplan, halphas, hrows, hlisted⟩
  · refine ⟨none, ?_, fun b hb => ?_⟩
    · unfold loadFtwBanks
      rw [hinit]
      show (bankPlan T U r numLayers metaLayers >>= _) = _
      rw [hplan]
      rfl
    · rcases h.bank_listed hlayers hcond hb with ⟨e, he, -⟩ | hkey
      · rw [hnil] at he
        cases he
      · rw [hnil] at hkey
        cases hkey
  · have halpha : ∀ a ∈ plan.alphas, ∃ y, (do
        let t ← a.2.load r mode io pool chunk
        return (a.1, t)) = Except.ok y ∧ True := by
      intro a ha
      obtain ⟨t, -, ht⟩ := halphas a ha
      exact ⟨(a.1, t), by rw [ht]; rfl, trivial⟩
    have hsource : ∀ row ∈ plan.rows, ∃ y, (do
        let ts ← row.2.mapM fun read => read.load r mode io pool chunk
        return (row.1, ts)) = Except.ok y ∧ y.1 = row.1 ∧
          ∃ b ∈ banks, y.1 = b.name ∧ y.2 = List.ofFn b.layer := by
      intro row hrow
      obtain ⟨b, hb, hname, hall⟩ := hrows row hrow
      have hload := mapM_of_forall₂ (hall.imp fun _ _ hy => hy.2)
      exact ⟨(row.1, List.ofFn b.layer), by rw [hload]; rfl, rfl, b, hb, hname, rfl⟩
    obtain ⟨ts, hts, -⟩ := mapM_exists halpha
    obtain ⟨sources, hsources, hall⟩ := mapM_exists hsource
    refine ⟨some { sources := sources, alphas := ts }, ?_, fun b hb => ?_⟩
    · unfold loadFtwBanks
      rw [hinit]
      show (bankPlan T U r numLayers metaLayers >>= _) = _
      rw [hplan]
      show (plan.alphas.mapM (m := Except Error) _ >>= _) = _
      rw [hts]
      show (plan.rows.mapM (m := Except Error) _ >>= _) = _
      rw [hsources]
      rfl
    · show assigned sources b.name = some (List.ofFn b.layer)
      apply assigned_eq
      · obtain ⟨reads, hmem⟩ := hlisted b hb
        obtain ⟨⟨name, w⟩, hw, hname, -⟩ := exists_of_forall₂ hall hmem
        change name = b.name at hname
        exact ⟨w, hname ▸ hw⟩
      · intro w hw
        obtain ⟨row, -, -, b', hb', hname, hrows'⟩ := mem_of_forall₂ hall hw
        rw [h.bank_eq hb hb' hname]
        exact hrows'

end BankEntries

/-! ## The round trip -/

theorem exists_layered_of_not {numLayers : Nat} {banks : List (ExpertBank T numLayers)}
    (h : ¬(numLayers ≤ 100000 ∨ ∀ b ∈ banks, b.perLayer = false)) :
    ∃ b ∈ banks, b.perLayer = true ∧ 100000 < numLayers := by
  obtain ⟨hmany, hsome⟩ := not_or.1 h
  by_contra hnone
  apply hsome
  intro b hb
  cases hlay : b.perLayer with
  | false => rfl
  | true => exact absurd ⟨b, hb, hlay, Nat.lt_of_not_le hmany⟩ hnone

/-- Banks written flat or per layer, among other tensors: the jobs of every read are legal and cover its
range once, and each bank comes back layer by layer just when no bank written per layer has more layers
than five digits count. -/
theorem banks_roundTrip_iff (T : Dtypes D) (helsize : ∀ d, T.elsize d ∣ align) (U : Decimals)
    {limit chunk numLayers : Nat} (hlimit : 0 < limit) (hlimit_block : limit % align = 0)
    (hchunk : 0 < chunk) (hchunk_block : chunk % align = 0) (hlayers : 0 < numLayers)
    {banks : List (ExpertBank T numLayers)} {alphas : List (Call T)} (hnamed : WellNamed U banks alphas)
    {calls : List (Call T)}
    (hcalls : (requested ["experts_bank"] calls).Perm (alphas ++ banks.flatMap ExpertBank.calls))
    {metaLayers : Option Nat} (hmeta : metaLayers = none ∨ metaLayers = some numLayers) (d : Disk)
    (mode : Mode) (io : Preadv) (pool : Pool) :
    ∃ d' r, writeAll limit calls d = .ok d' ∧ Reader.init d' = .ok r ∧
      (∀ kinds, ∀ e ∈ r.entries kinds, ∃ js, r.jobs chunk e = .ok js ∧
        Reader.LegalJobs d'.files (alignUp e.nbytes) e.nbytes js) ∧
      (∀ plan, bankPlan T U r numLayers metaLayers = .ok (some plan) → ∀ read ∈ plan.reads,
        ∃ js, r.jobs chunk read.entry = .ok js ∧
          Reader.LegalJobs d'.files read.bufLen read.entry.nbytes js) ∧
      ((∃ out, loadFtwBanks T U mode io pool chunk numLayers metaLayers d' = .ok out ∧
          ∀ b ∈ banks, out.bind (fun banks => banks.source b.name) = some (List.ofFn b.layer)) ↔
        (numLayers ≤ 100000 ∨ ∀ b ∈ banks, b.perLayer = false)) := by
  obtain ⟨d', hwrite, hcomplete⟩ := writeAll_spec hlimit hlimit_block calls d
  obtain ⟨r, hinit, hfiles, hentries⟩ := hcomplete.reader
  have hbanks : BankEntries U r banks alphas (r.entries ["experts_bank"]) :=
    ⟨hnamed, _, hentries ["experts_bank"], hcalls⟩
  refine ⟨d', r, hwrite, hinit, ?_, ?_, ?_⟩
  · intro kinds e he
    obtain ⟨c, -, hplaced⟩ := mem_of_forall₂ (hentries kinds) he
    rw [← hfiles]
    exact hplaced.legal hchunk hchunk_block
  · intro plan hplan read hread
    rw [← hfiles]
    by_cases hcond : numLayers ≤ 100000 ∨ ∀ b ∈ banks, b.perLayer = false
    · rcases hbanks.plan_spec rfl hchunk hchunk_block helsize hlayers hcond hmeta mode io pool with
        ⟨-, hnone⟩ | ⟨plan', hplan', halphas, hrows, -⟩
      · rw [hplan] at hnone
        cases hnone
      · rw [hplan] at hplan'
        obtain rfl := Option.some.inj (Except.ok.inj hplan')
        rcases List.mem_append.1 hread with hread | hread
        · obtain ⟨a, ha, rfl⟩ := List.mem_map.1 hread
          obtain ⟨t, hlegal, -⟩ := halphas a ha
          exact hlegal
        · obtain ⟨row, hrow, hread⟩ := List.mem_flatMap.1 hread
          obtain ⟨b, -, -, hall⟩ := hrows row hrow
          obtain ⟨t, -, hlegal, -⟩ := exists_of_forall₂ hall hread
          exact hlegal
    · obtain ⟨b, hb, hlay, hmany⟩ := exists_layered_of_not hcond
      exact absurd hplan (hbanks.plan_fails rfl hmany hb hlay metaLayers (some plan))
  · constructor
    · rintro ⟨out, hload, -⟩
      by_contra hcond
      obtain ⟨b, hb, hlay, hmany⟩ := exists_layered_of_not hcond
      exact hbanks.load_fails rfl hinit hmany hb hlay mode io pool chunk metaLayers out hload
    · exact fun hcond => hbanks.load_spec rfl hinit hchunk hchunk_block helsize hlayers hcond hmeta
        mode io pool

def asciiDecimals : Decimals where
  value c := if '0' ≤ c ∧ c ≤ '9' then some (c.toNat - 48) else none
  value_lt := by
    intro c d h
    split at h
    · rename_i hc
      have hle : c.toNat ≤ 57 := hc.2
      have hd := Option.some.inj h
      omega
    · cases h
  ascii := by decide
  newline := by decide

/-- Two layers of one expert, in one region. -/
def gateUp : ExpertBank torch 2 :=
  ⟨"gate_up", false, .uint8, 1, [3], [1, 2, 3, 4, 5, 6], rfl⟩

theorem down_size : ([128, 63, 0, 64] : List UInt8).length = 4 := rfl

/-- Two layers of one expert, an entry each. -/
def down : ExpertBank torch 2 :=
  ⟨"down", true, .bfloat16, 1, [1], [128, 63, 0, 64], down_size⟩

def alpha : Call torch :=
  ⟨"gate_up_alpha", ⟨.bfloat16, [2], [128, 63, 0, 64], down_size⟩, "experts_bank"⟩

theorem torch_elsize : ∀ d, torch.elsize d ∣ align := by
  intro d
  cases d <;> decide

theorem wellNamed_two : WellNamed asciiDecimals [gateUp, down] [alpha] where
  banks_nodup := by decide
  rows := by decide
  layered := by
    intro b hb hlay
    rcases List.mem_cons.1 hb with rfl | hb
    · cases hlay
    · rw [List.mem_singleton.1 hb]
      exact ⟨by decide, by decide⟩
  flat := by
    intro b hb hlay
    rcases List.mem_cons.1 hb with rfl | hb
    · exact ⟨by decide, by decide⟩
    · rw [List.mem_singleton.1 hb] at hlay
      cases hlay
  alphas_nodup := by decide
  alphas := by
    intro a ha
    rw [List.mem_singleton.1 ha]
    exact ⟨by decide, rfl, List.cons_ne_nil _ _, by decide⟩

theorem banks_roundTrip_iff_two :
    ∃ d' r, writeAll 4096 [bias, alpha, gateUp.flatCall, down.layerCall 0, down.layerCall 1, bias]
        emptyDisk = .ok d' ∧ Reader.init d' = .ok r ∧
      (∀ kinds, ∀ e ∈ r.entries kinds, ∃ js, r.jobs 8192 e = .ok js ∧
        Reader.LegalJobs d'.files (alignUp e.nbytes) e.nbytes js) ∧
      (∀ plan, bankPlan torch asciiDecimals r 2 (some 2) = .ok (some plan) → ∀ read ∈ plan.reads,
        ∃ js, r.jobs 8192 read.entry = .ok js ∧
          Reader.LegalJobs d'.files read.bufLen read.entry.nbytes js) ∧
      ((∃ out, loadFtwBanks torch asciiDecimals .direct wholeReads inOrder 8192 2 (some 2) d' = .ok out ∧
          ∀ b ∈ [gateUp, down], out.bind (fun banks => banks.source b.name) = some (List.ofFn b.layer)) ↔
        (2 ≤ 100000 ∨ ∀ b ∈ [gateUp, down], b.perLayer = false)) :=
  banks_roundTrip_iff torch torch_elsize asciiDecimals (by decide) (by decide) (by decide) (by decide)
    (by decide) wellNamed_two (.refl _) (.inr rfl) emptyDisk .direct wholeReads inOrder

/-- A bank of one byte a layer. -/
def manyLayers : ExpertBank torch 100001 :=
  ⟨"down", true, .uint8, 1, [1], List.replicate 100001 0, List.length_replicate⟩

theorem wellNamed_many : WellNamed asciiDecimals [manyLayers] [] where
  banks_nodup := List.nodup_singleton _
  rows := by
    intro b hb
    rw [List.mem_singleton.1 hb]
    exact ⟨Nat.one_pos, by decide⟩
  layered := by
    intro b hb _
    rw [List.mem_singleton.1 hb]
    exact ⟨by decide, by decide⟩
  flat := by
    intro b hb hlay
    rw [List.mem_singleton.1 hb] at hlay
    cases hlay
  alphas_nodup := List.nodup_nil
  alphas := by
    intro a ha
    cases ha

/-- The entry of layer 100000 has a name of six digits, and nothing is loaded. -/
theorem manyLayers_not_loaded : ∃ d', writeAll 4096 manyLayers.calls emptyDisk = .ok d' ∧
    ¬∃ out, loadFtwBanks torch asciiDecimals .direct wholeReads inOrder 8192 100001 none d' = .ok out ∧
      out.bind (fun banks => banks.source "down") = some (List.ofFn manyLayers.layer) := by
  obtain ⟨d', hwrite, hcomplete⟩ :=
    writeAll_spec (by decide : 0 < 4096) (by decide) manyLayers.calls emptyDisk
  obtain ⟨r, hinit, -, hentries⟩ := hcomplete.reader
  have hall : requested ["experts_bank"] manyLayers.calls = manyLayers.calls := manyLayers.requested_calls
  have hbanks : BankEntries asciiDecimals r [manyLayers] [] (r.entries ["experts_bank"]) := by
    refine ⟨wellNamed_many, _, hentries ["experts_bank"], ?_⟩
    rw [hall, List.nil_append, List.flatMap_cons, List.flatMap_nil, List.append_nil]
  refine ⟨d', hwrite, ?_⟩
  rintro ⟨out, hload, -⟩
  exact hbanks.load_fails rfl hinit (by decide) (List.mem_singleton.2 rfl) rfl _ _ _ _ none out hload

end Ftw

end FreeToken
