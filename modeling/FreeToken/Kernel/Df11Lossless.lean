import Mathlib.Algebra.Order.BigOperators.Group.Finset
import FreeToken.Lib.BitPack
import FreeToken.Kernel.Df11Codes

/-!
# Lossless compression

Every weight's code is read back at its place, in both layouts, so the matrix comes back bit for bit.
-/

set_option autoImplicit false

namespace FreeToken

namespace Df11

open Region BitPack

/-! ## Bits of a weight -/

theorem word_eq (w : BitVec 16) : word w = w.toNat := by
  have hlt := w.isLt
  have hint : w.toInt % 0x10000 = (w.toNat : Int) := by
    rw [BitVec.toInt_eq_toNat_cond]
    split <;> omega
  unfold word
  rw [hint, Int.toNat_natCast]

theorem expOf_eq (w : BitVec 16) : expOf w = w.toNat / 2 ^ 7 % 2 ^ 8 := by
  unfold expOf
  rw [word_eq, Nat.shiftRight_eq_div_pow]
  exact Nat.and_two_pow_sub_one_eq_mod _ 8

theorem expOf_lt (w : BitVec 16) : expOf w < 256 := by
  rw [expOf_eq]
  omega

theorem signedExpOf_eq (w : BitVec 16) : signedExpOf w = expOf w := by
  have hlt := w.isLt
  unfold signedExpOf
  rw [expOf_eq, Int.shiftRight_eq_div_pow, BitVec.toInt_eq_toNat_cond]
  split <;> omega

theorem low8Of_eq (w : BitVec 16) : low8Of w = w.toNat / 2 ^ 15 % 2 * 2 ^ 7 + w.toNat % 2 ^ 7 := by
  have hmant : word w &&& 0x7F = w.toNat % 2 ^ 7 := by
    rw [word_eq]
    exact Nat.and_two_pow_sub_one_eq_mod _ 7
  have hsign : (word w >>> 15) &&& 1 = w.toNat / 2 ^ 15 % 2 := by
    rw [word_eq, Nat.shiftRight_eq_div_pow]
    exact Nat.and_two_pow_sub_one_eq_mod _ 1
  unfold low8Of
  rw [hmant, hsign, ← Nat.shiftLeft_add_eq_or_of_lt (Nat.mod_lt _ (by omega)), Nat.shiftLeft_eq]

theorem joinBits_eq (w : BitVec 16) : joinBits (expOf w) (low8Of w) = w := by
  have hlt := w.isLt
  have hmant : low8Of w &&& 0x7F = w.toNat % 2 ^ 7 := by
    rw [show (0x7F : Nat) = 2 ^ 7 - 1 from rfl, Nat.and_two_pow_sub_one_eq_mod, low8Of_eq]
    omega
  have hsign : (low8Of w >>> 7) &&& 1 = w.toNat / 2 ^ 15 := by
    rw [Nat.shiftRight_eq_div_pow, show (1 : Nat) = 2 ^ 1 - 1 from rfl,
      Nat.and_two_pow_sub_one_eq_mod, low8Of_eq]
    omega
  have hexp : expOf w <<< 7 < 2 ^ 15 := by
    rw [Nat.shiftLeft_eq]
    have := expOf_lt w
    omega
  have hhigh : w.toNat / 2 ^ 15 * 2 ^ 15 + expOf w * 2 ^ 7 =
      (w.toNat / 2 ^ 15 * 2 ^ 8 + expOf w) <<< 7 := by
    rw [Nat.shiftLeft_eq]
    omega
  apply BitVec.eq_of_toNat_eq
  unfold joinBits
  rw [BitVec.toNat_ofNat, hmant, hsign, ← Nat.shiftLeft_add_eq_or_of_lt hexp, Nat.shiftLeft_eq,
    Nat.shiftLeft_eq, hhigh, ← Nat.shiftLeft_add_eq_or_of_lt (Nat.mod_lt _ (by omega)),
    Nat.shiftLeft_eq, expOf_eq]
  omega

/-! ## Words -/

theorem highPart_eq (p : Item) : highPart p = high 32 p.1 p.2.1 p.2.2 := by
  unfold highPart bitsInW high
  rw [show p.1 &&& 31 = p.1 % 32 from Nat.and_two_pow_sub_one_eq_mod _ 5, Nat.shiftLeft_eq,
    Nat.shiftRight_eq_div_pow]

theorem lowPart_eq (p : Item) : lowPart p = low 32 p.1 p.2.1 p.2.2 := by
  unfold lowPart bitsInW low
  rw [show p.1 &&& 31 = p.1 % 32 from Nat.and_two_pow_sub_one_eq_mod _ 5, Nat.shiftLeft_eq,
    Nat.one_shiftLeft, Nat.and_two_pow_sub_one_eq_mod]

/-- The words as a function, 0 past the end. -/
def wordsOf (words : List Nat) (w : Nat) : Nat := words.getD w 0

theorem wordsOf_replicate (n v : Nat) : wordsOf (List.replicate n 0) v = 0 := by
  unfold wordsOf
  rw [List.getD_eq_getElem?_getD, List.getElem?_replicate]
  split <;> rfl

theorem getD_modify (words : List Nat) (i x w : Nat) (hi : i < words.length) :
    (words.modify i (· + x)).getD w 0 = words.getD w 0 + if w = i then x else 0 := by
  rw [List.getD_eq_getElem?_getD, List.getElem?_modify, List.getD_eq_getElem?_getD]
  by_cases hw : w = i
  · subst hw
    rw [List.getElem?_eq_getElem hi, if_pos rfl]
    show (if w = w then words[w] + x else words[w]) = words[w] + x
    rw [if_pos rfl]
  · rw [if_neg hw]
    cases words[w]? with
    | none => rfl
    | some y =>
        show (if i = w then y + x else y) = y + 0
        rw [if_neg (Ne.symm hw), Nat.add_zero]

theorem indexAdd_spec {words : List Nat} {adds : List (Nat × Nat)}
    (h : ∀ a ∈ adds, a.1 < words.length) :
    ∃ words', indexAdd words adds = some words' ∧ words'.length = words.length ∧
      ∀ w, wordsOf words' w = wordsOf words w +
        (adds.map fun a => if w = a.1 then a.2 else 0).sum := by
  refine ⟨_, if_pos (List.all_eq_true.mpr fun a ha => decide_eq_true (h a ha)), ?_⟩
  induction adds generalizing words with
  | nil => exact ⟨rfl, fun w => rfl⟩
  | cons a adds ih =>
      have hlen : (words.modify a.1 (· + a.2)).length = words.length := List.length_modify ..
      obtain ⟨hlen', hsum⟩ := @ih (words.modify a.1 (· + a.2)) (by
        intro b hb
        rw [hlen]
        exact h b (List.mem_cons_of_mem a hb))
      refine ⟨hlen'.trans hlen, fun w => ?_⟩
      rw [List.foldl_cons, hsum, List.map_cons, List.sum_cons, ← Nat.add_assoc]
      congr 1
      exact getD_modify words a.1 a.2 w (h a List.mem_cons_self)

/-- Both parts of every code are added to its words. -/
theorem scatter_spec {words : List Nat} {items : List Item}
    (h : ∀ p ∈ items, p.1 / 32 + 1 < words.length) :
    ∃ words', scatter words items = some words' ∧ words'.length = words.length ∧
      ∀ w, wordsOf words' w = wordsOf words w +
        (items.map fun p => part 32 p.1 p.2.1 p.2.2 w).sum := by
  have hshift : ∀ x : Nat, x >>> 5 = x / 32 := fun x => Nat.shiftRight_eq_div_pow x 5
  obtain ⟨high', hhigh, hlen, hsum⟩ := @indexAdd_spec words
    (items.map fun p => (p.1 >>> 5, highPart p)) (by
      intro a ha
      obtain ⟨p, hp, rfl⟩ := List.mem_map.mp ha
      have := h p hp
      show p.1 >>> 5 < _
      rw [hshift]
      omega)
  obtain ⟨low', hlow, hlen', hsum'⟩ := @indexAdd_spec high'
    (items.map fun p => ((p.1 >>> 5) + 1, lowPart p)) (by
      intro a ha
      obtain ⟨p, hp, rfl⟩ := List.mem_map.mp ha
      show p.1 >>> 5 + 1 < _
      rw [hshift, hlen]
      exact h p hp)
  refine ⟨low', ?_, hlen'.trans hlen, fun w => ?_⟩
  · unfold scatter
    rw [hhigh]
    exact hlow
  · rw [hsum', hsum, List.map_map, List.map_map, Nat.add_assoc, ← List.sum_map_add]
    congr 2
    apply List.map_congr_left
    intro p _
    show (if w = p.1 >>> 5 then highPart p else 0) + (if w = p.1 >>> 5 + 1 then lowPart p else 0) = _
    rw [hshift, highPart_eq, lowPart_eq]
    rfl

/-! ## Peeks -/

theorem streamAt_nat (stream : List Nat) (w : Nat) :
    streamAt stream (w : Int) = some (wordsOf stream w) := by
  unfold streamAt wordsOf
  by_cases hw : stream.length ≤ w
  · rw [if_pos (by omega), List.getD_eq_getElem?_getD, List.getElem?_eq_none hw]
    rfl
  · rw [if_neg (by omega), if_pos (by omega), Int.toNat_natCast, List.getD_eq_getElem?_getD,
      List.getElem?_eq_getElem (by omega)]
    rfl

/-- The decoder's peek reads two words. -/
theorem peek_nat {stream : List Nat} {lmax : Nat} (hwords : ∀ w, wordsOf stream w < 2 ^ 32)
    (pos : Nat) :
    Df11.peek stream lmax (pos : Int) = some (BitPack.peek 32 (wordsOf stream) pos lmax) := by
  have hshift : (pos : Int) >>> (5 : Nat) = ((pos / 32 : Nat) : Int) := by
    rw [Int.shiftRight_eq_div_pow]
    rfl
  have hmod : ((pos : Int) % 32).toNat = pos % 32 := by omega
  unfold Df11.peek
  rw [hshift, streamAt_nat, show ((pos / 32 : Nat) : Int) + 1 = ((pos / 32 + 1 : Nat) : Int) from rfl,
    streamAt_nat, hmod]
  show some _ = some _
  congr 1
  rw [Nat.one_shiftLeft, Nat.and_two_pow_sub_one_eq_mod, Nat.shiftRight_eq_div_pow,
    ← Nat.shiftLeft_add_eq_or_of_lt (hwords _), Nat.shiftLeft_eq]
  rfl

theorem fromInt32_toInt32 {x : Nat} (hx : x < 2 ^ 32) : fromInt32 (toInt32 x) = x := by
  unfold fromInt32 toInt32
  rw [BitVec.toInt_eq_toNat_cond, BitVec.toNat_ofNat, Nat.mod_eq_of_lt hx]
  split <;> omega

/-- The words survive the way through 32-bit integers. -/
theorem stream_eq {words : List Nat} (h : ∀ w, wordsOf words w < 2 ^ 32) :
    (words.map fun x => toInt32 (x % 0x100000000)).map fromInt32 = words := by
  rw [List.map_map]
  conv_rhs => rw [← List.map_id words]
  apply List.map_congr_left
  intro x hx
  obtain ⟨i, hi, rfl⟩ := List.mem_iff_getElem.mp hx
  have hlt := h i
  unfold wordsOf at hlt
  rw [List.getD_eq_getElem?_getD, List.getElem?_eq_getElem hi, Option.getD_some] at hlt
  show fromInt32 (toInt32 (words[i] % 0x100000000)) = words[i]
  rw [Nat.mod_eq_of_lt (by omega), fromInt32_toInt32 hlt]

/-- At this bit the decoder finds this exponent, and a code of this length. -/
def ReadsAt (stream lut : List Nat) (lmax pos e l : Nat) : Prop :=
  ∃ v, Df11.peek stream lmax (pos : Int) = some v ∧ lut[v]? = some (e <<< 8 ||| l)

theorem entry_exp {e l : Nat} (hl : l < 256) : (e <<< 8 ||| l) >>> 8 = e := by
  rw [← Nat.shiftLeft_add_eq_or_of_lt hl, Nat.shiftLeft_eq, Nat.shiftRight_eq_div_pow]
  omega

theorem entry_len {e l : Nat} (hl : l < 256) : (e <<< 8 ||| l) &&& 0xFF = l := by
  rw [← Nat.shiftLeft_add_eq_or_of_lt hl, Nat.shiftLeft_eq,
    show (0xFF : Nat) = 2 ^ 8 - 1 from rfl, Nat.and_two_pow_sub_one_eq_mod]
  omega

/-- What one turn of a decoder sees. -/
theorem ReadsAt.turn {stream lut : List Nat} {lmax pos e l : Nat} (h : ReadsAt stream lut lmax pos e l)
    (hl : l < 256) :
    ∃ v combined, Df11.peek stream lmax (pos : Int) = some v ∧ lut[v]? = some combined ∧
      combined >>> 8 = e ∧ combined &&& 0xFF = l := by
  obtain ⟨v, hpeek, hlut⟩ := h
  exact ⟨v, e <<< 8 ||| l, hpeek, hlut, entry_exp hl, entry_len hl⟩

/-- The rule for a loop over `range`: the invariant goes from each turn to the next. -/
theorem foldlM_range {σ : Type} {f : σ → Nat → Option σ} {P : Nat → σ → Prop} {init : σ} (m : Nat)
    (hinit : P 0 init) (hstep : ∀ j < m, ∀ s, P j s → ∃ s', f s j = some s' ∧ P (j + 1) s') :
    ∃ s, (List.range m).foldlM f init = some s ∧ P m s := by
  induction m with
  | zero => exact ⟨init, rfl, hinit⟩
  | succ m ih =>
      obtain ⟨s, hrun, hs⟩ := ih fun j hj => hstep j (by omega)
      obtain ⟨s', hturn, hs'⟩ := hstep m (by omega) s hs
      refine ⟨s', ?_, hs'⟩
      rw [List.range_succ, List.foldlM_append, hrun]
      show ([m].foldlM f s) = some s'
      rw [List.foldlM_cons, hturn]
      rfl

/-- A stream packed from the codes of bytes is read at the place of each. -/
theorem readsAt_packed {t : Tables} {lmax e : Nat} {words : List Nat} {pre post : List (Nat × Nat)}
    (hlmax : lmax ≤ 32) (hcoded : Coded t lmax e)
    (hfits : ∀ c ∈ pre ++ (t.codeArr.getD e 0, t.lenArr.getD e 0) :: post, Fits 32 c)
    (hwords : wordsOf words = packFrom 32 (fun _ => 0) 0
      (pre ++ (t.codeArr.getD e 0, t.lenArr.getD e 0) :: post))
    (hlt : ∀ w, wordsOf words w < 2 ^ 32) :
    ReadsAt words t.lut lmax (bitLength pre) e (t.lenArr.getD e 0) := by
  refine ⟨_, peek_nat hlt _, hcoded.hit _ ?_⟩
  have hread := peek_packFrom (by omega) (n := lmax) hcoded.len_le hlmax (clean_zero 32) hfits
  rw [Nat.zero_add] at hread
  rw [hwords]
  exact hread

/-! ## Sums -/

theorem getElem?_exclusiveCumsum (xs : List Nat) (acc k : Nat) :
    (exclusiveCumsum acc xs)[k]? = if k < xs.length then some (acc + (xs.take k).sum) else none := by
  induction xs generalizing acc k with
  | nil => rfl
  | cons x xs ih =>
      rw [exclusiveCumsum]
      cases k with
      | zero => rfl
      | succ k =>
          rw [List.getElem?_cons_succ, ih, List.take_succ_cons, List.sum_cons, List.length_cons]
          by_cases hk : k < xs.length
          · rw [if_pos hk, if_pos (by omega), Nat.add_assoc]
          · rw [if_neg hk, if_neg (by omega)]

theorem exclusiveCumsum_last (xs : List Nat) (acc : Nat) (h : xs ≠ []) :
    (exclusiveCumsum acc xs).getLastD 0 + xs.getLastD 0 = acc + xs.sum := by
  induction xs generalizing acc with
  | nil => exact absurd rfl h
  | cons x xs ih =>
      cases xs with
      | nil => rfl
      | cons y ys =>
          have hrest := ih (acc + x) (List.cons_ne_nil y ys)
          rw [List.sum_cons, ← Nat.add_assoc, ← hrest]
          rfl

/-- A table of bytes holds codes for all exponents of a matrix. -/
def CodesAll (t : Tables) (lmax : Nat) (w : Matrix) : Prop :=
  ∀ x ∈ w.data, Coded t lmax (expOf x)

theorem length_bincount (exp : List Nat) : (bincount exp).length = 256 := by
  unfold bincount
  rw [List.length_map, List.length_range]

theorem bincount_getD (exp : List Nat) {s : Nat} (hs : s < 256) :
    (bincount exp).getD s 0 = exp.count s := by
  unfold bincount
  rw [List.getD_eq_getElem?_getD, List.getElem?_map, List.getElem?_range hs]
  rfl

theorem tables_spec {w : Matrix} {lmax : Nat} (hne : w.data ≠ []) (hlmax : 8 ≤ lmax) :
    ∃ t, huffmanTables (bincount (w.data.map expOf)) lmax = some t ∧ CodesAll t lmax w := by
  have hcount : ∀ x ∈ w.data, (bincount (w.data.map expOf)).getD (expOf x) 0 ≠ 0 := by
    intro x hx
    rw [bincount_getD _ (expOf_lt x)]
    exact Nat.pos_iff_ne_zero.mp (List.count_pos_iff.mpr (List.mem_map_of_mem hx))
  obtain ⟨x, hx⟩ := List.exists_mem_of_ne_nil _ hne
  obtain ⟨t, hrun, hcoded⟩ := huffmanTables_spec (length_bincount (w.data.map expOf))
    ⟨expOf x, expOf_lt x, hcount x hx⟩ hlmax
  exact ⟨t, hrun, fun y hy => hcoded _ (expOf_lt y) (hcount y hy)⟩

/-- Code and length of the weight at a place; nothing past the end. -/
def codeAt (t : Tables) (w : Matrix) (p : Nat) : Nat × Nat :=
  match w.data[p]? with
  | some x => (t.codeArr.getD (expOf x) 0, t.lenArr.getD (expOf x) 0)
  | none => (0, 0)

section Stream

variable {t : Tables} {lmax : Nat} {w : Matrix}

theorem codeAt_of_lt {p : Nat} (hp : p < w.data.length) :
    codeAt t w p =
      (t.codeArr.getD (expOf w.data[p]) 0, t.lenArr.getD (expOf w.data[p]) 0) := by
  unfold codeAt
  rw [List.getElem?_eq_getElem hp]

theorem codeAt_fits (h : CodesAll t lmax w) (hlmax : lmax ≤ 32) (p : Nat) :
    Fits 32 (codeAt t w p) := by
  by_cases hp : p < w.data.length
  · rw [codeAt_of_lt hp]
    have hcoded := h _ (List.getElem_mem hp)
    exact ⟨Nat.le_trans hcoded.len_le hlmax, hcoded.code_lt⟩
  · unfold codeAt
    rw [List.getElem?_eq_none (by omega)]
    exact ⟨Nat.zero_le _, Nat.one_pos⟩

theorem part_none (off w : Nat) : part 32 off 0 0 w = 0 := by
  unfold part high low
  rw [Nat.zero_div, Nat.zero_mul, Nat.zero_mod, Nat.zero_mul, ite_self, ite_self]

theorem mapIdx_eq_range {α : Type} (f : Nat → BitVec 16 → α) (g : Nat → α)
    (h : ∀ p (hp : p < w.data.length), f p w.data[p] = g p) :
    w.data.mapIdx f = (List.range w.data.length).map g := by
  apply List.ext_getElem
  · rw [List.length_mapIdx, List.length_map, List.length_range]
  · intro p hp _
    rw [List.length_mapIdx] at hp
    rw [List.getElem_mapIdx, List.getElem_map, List.getElem_range, h p hp]

/-- All exponents and the raw bits give the matrix back. -/
theorem assemble_spec {exp : List Nat} (hlen : exp.length = w.data.length)
    (h : ∀ p (hp : p < w.data.length), exp[p]? = some (expOf w.data[p])) :
    assemble w.rows w.cols exp (w.data.map low8Of) = some w := by
  have hexp : exp = w.data.map expOf := by
    apply List.ext_getElem?
    intro p
    rw [List.getElem?_map]
    by_cases hp : p < w.data.length
    · rw [h p hp, List.getElem?_eq_getElem hp]
      rfl
    · rw [List.getElem?_eq_none (by omega), List.getElem?_eq_none (by omega)]
      rfl
  have hdata : List.zipWith joinBits exp (w.data.map low8Of) = w.data := by
    rw [hexp, List.zipWith_map, List.zipWith_self]
    conv_rhs => rw [← List.map_id w.data]
    apply List.map_congr_left
    intro x _
    exact joinBits_eq x
  unfold assemble
  show (if h : (List.zipWith joinBits exp (w.data.map low8Of)).length = w.rows * w.cols then
    some (Matrix.mk w.rows w.cols _ h) else none) = some w
  rw [dif_pos (by rw [hdata]; exact w.size)]
  congr 1
  exact Matrix.ext rfl rfl hdata

theorem len_lt (h : CodesAll t lmax w) (hlmax : lmax < 256) (p : Nat) : (codeAt t w p).2 < 256 := by
  by_cases hp : p < w.data.length
  · rw [codeAt_of_lt hp]
    exact Nat.lt_of_le_of_lt (h _ (List.getElem_mem hp)).len_le hlmax
  · unfold codeAt
    rw [List.getElem?_eq_none (by omega)]
    show 0 < 256
    decide

end Stream

/-! ## The interleaved layout -/

section Interleaved

open Finset

variable {t : Tables} {lmax chunk : Nat} {w : Matrix}

/-- The codes of one chunk. -/
def column (t : Tables) (w : Matrix) (chunk j : Nat) : List (Nat × Nat) :=
  (List.range (grid t.lenArr w chunk).rows).map fun i =>
    codeAt t w (i * (grid t.lenArr w chunk).num + j)

def stream (t : Tables) (w : Matrix) (chunk : Nat) : List (Nat × Nat) :=
  (List.range (grid t.lenArr w chunk).num).flatMap (column t w chunk)

theorem num_pos (hne : w.data ≠ []) (hchunk : 0 < chunk) : 0 < (grid t.lenArr w chunk).num := by
  show 0 < (w.data.length + chunk - 1) / chunk
  have := List.length_pos_iff.mpr hne
  exact Nat.div_pos (by omega) hchunk

theorem covers (hnum : 0 < (grid t.lenArr w chunk).num) :
    w.data.length ≤ (grid t.lenArr w chunk).rows * (grid t.lenArr w chunk).num := by
  show w.data.length ≤ (w.data.length + (grid t.lenArr w chunk).num - 1) /
    (grid t.lenArr w chunk).num * (grid t.lenArr w chunk).num
  have hdm := Nat.div_add_mod (w.data.length + (grid t.lenArr w chunk).num - 1)
    (grid t.lenArr w chunk).num
  have hmod := Nat.mod_lt (w.data.length + (grid t.lenArr w chunk).num - 1) hnum
  rw [Nat.mul_comm] at hdm
  omega

theorem len2d_eq (i j : Nat) : (grid t.lenArr w chunk).len2d i j =
    (codeAt t w (i * (grid t.lenArr w chunk).num + j)).2 := by
  show (w.data.map fun x => t.lenArr.getD (expOf x) 0).getD _ 0 = _
  rw [List.getD_eq_getElem?_getD, List.getElem?_map]
  unfold codeAt
  cases w.data[i * (grid t.lenArr w chunk).num + j]? <;> rfl

theorem colPrefix_eq (i j : Nat) : (grid t.lenArr w chunk).colPrefix i j =
    ∑ r ∈ range i, (codeAt t w (r * (grid t.lenArr w chunk).num + j)).2 := by
  unfold Grid.colPrefix
  simp only [len2d_eq]
  rfl

theorem bitLength_column (j : Nat) : bitLength (column t w chunk j) =
    (grid t.lenArr w chunk).colPrefix (grid t.lenArr w chunk).rows j := by
  unfold column
  rw [bitLength_range, colPrefix_eq]

theorem chunkStart_getD {j : Nat} (hj : j < (grid t.lenArr w chunk).num) :
    (grid t.lenArr w chunk).chunkStart[j]? =
      some (∑ k ∈ range j, bitLength (column t w chunk k)) := by
  unfold Grid.chunkStart
  have hlen : (grid t.lenArr w chunk).colBits.length = (grid t.lenArr w chunk).num := by
    unfold Grid.colBits
    rw [List.length_map, List.length_range]
  rw [getElem?_exclusiveCumsum, if_pos (by rw [hlen]; exact hj), Nat.zero_add]
  congr 1
  unfold Grid.colBits
  rw [← List.map_take, List.take_range, Nat.min_eq_left (Nat.le_of_lt hj)]
  simp only [bitLength_column]
  rfl

/-- The codes before a place, in stream order. -/
def before (t : Tables) (w : Matrix) (chunk i j : Nat) : List (Nat × Nat) :=
  (List.range j).flatMap (column t w chunk) ++ (List.range i).map fun r =>
    codeAt t w (r * (grid t.lenArr w chunk).num + j)

theorem place_mod {g j : Nat} (hj : j < g) (i : Nat) : (i * g + j) % g = j := by
  rw [Nat.mul_comm, Nat.mul_add_mod, Nat.mod_eq_of_lt hj]

theorem place_div {g j : Nat} (hj : j < g) (i : Nat) : (i * g + j) / g = i := by
  rw [Nat.mul_comm, Nat.mul_add_div (Nat.lt_of_le_of_lt (Nat.zero_le j) hj), Nat.div_eq_of_lt hj,
    Nat.add_zero]

theorem off_eq {i j : Nat} (hj : j < (grid t.lenArr w chunk).num) :
    (grid t.lenArr w chunk).off (i * (grid t.lenArr w chunk).num + j) =
      bitLength (before t w chunk i j) := by
  unfold Grid.off before
  rw [place_mod hj, place_div hj, bitLength_append, bitLength_columns, bitLength_range,
    List.getD_eq_getElem?_getD, chunkStart_getD hj, colPrefix_eq]
  rfl

/-- The stream, cut at a place. -/
theorem stream_split {i j : Nat} (hi : i < (grid t.lenArr w chunk).rows)
    (hj : j < (grid t.lenArr w chunk).num) :
    ∃ post, stream t w chunk = before t w chunk i j ++
      codeAt t w (i * (grid t.lenArr w chunk).num + j) :: post := by
  obtain ⟨rest, hrest⟩ := exists_range_split hj
  obtain ⟨below, hbelow⟩ := exists_range_split hi
  unfold stream
  rw [hrest, List.flatMap_append, List.flatMap_cons]
  conv in column t w chunk j => unfold column
  rw [hbelow, List.map_append, List.map_cons]
  exact ⟨_, by rw [before, List.append_assoc, List.append_assoc, List.cons_append]⟩

theorem totalBits_eq (hnum : 0 < (grid t.lenArr w chunk).num) :
    (grid t.lenArr w chunk).totalBits = bitLength (stream t w chunk) := by
  have hne : (grid t.lenArr w chunk).colBits ≠ [] := by
    unfold Grid.colBits
    intro h
    rw [List.map_eq_nil_iff, List.range_eq_nil] at h
    omega
  unfold Grid.totalBits Grid.chunkStart
  rw [exclusiveCumsum_last _ 0 hne, Nat.zero_add]
  unfold stream Grid.colBits
  rw [bitLength_columns]
  simp only [bitLength_column]
  rfl

theorem sum_range_mul {M : Type} [AddCommMonoid M] (F : Nat → M) (rows g : Nat) :
    ∑ p ∈ range (rows * g), F p = ∑ i ∈ range rows, ∑ j ∈ range g, F (i * g + j) := by
  induction rows with
  | zero => rw [Nat.zero_mul, sum_range_zero, sum_range_zero]
  | succ rows ih => rw [Nat.add_mul, Nat.one_mul, sum_range_add, ih, sum_range_succ]

/-- No code is longer than `lmax`, and the padding has none. -/
theorem streamBits_le (hne : w.data ≠ []) (hchunk : 0 < chunk) (h8 : 8 ≤ lmax) :
    streamBits w chunk lmax ≤ w.data.length * lmax := by
  obtain ⟨t, hrun, hcodes⟩ := tables_spec hne h8
  have hnum := @num_pos t chunk w hne hchunk
  have hlen : ∀ p, (codeAt t w p).2 ≤ if p < w.data.length then lmax else 0 := by
    intro p
    by_cases hp : p < w.data.length
    · rw [if_pos hp, codeAt_of_lt hp]
      exact (hcodes _ (List.getElem_mem hp)).len_le
    · unfold codeAt
      rw [if_neg hp, List.getElem?_eq_none (by omega)]
  unfold streamBits
  rw [hrun]
  show (grid t.lenArr w chunk).totalBits ≤ _
  rw [totalBits_eq hnum, stream, bitLength_columns]
  simp only [bitLength_column, colPrefix_eq]
  rw [sum_comm, ← sum_range_mul fun p => (codeAt t w p).2]
  calc ∑ p ∈ range ((grid t.lenArr w chunk).rows * (grid t.lenArr w chunk).num), (codeAt t w p).2
      ≤ ∑ p ∈ range ((grid t.lenArr w chunk).rows * (grid t.lenArr w chunk).num),
          if p < w.data.length then lmax else 0 := sum_le_sum fun p _ => hlen p
    _ = ∑ p ∈ range w.data.length, if p < w.data.length then lmax else 0 := by
        symm
        apply sum_subset
        · intro p hp
          exact mem_range.mpr (Nat.lt_of_lt_of_le (mem_range.mp hp) (covers hnum))
        · intro p _ hp
          exact if_neg fun h => hp (mem_range.mpr h)
    _ = w.data.length * lmax := by
        rw [sum_congr rfl fun p hp => if_pos (mem_range.mp hp), sum_const, card_range, smul_eq_mul]

/-- What the codes add to a word, taken in matrix order and in stream order. -/
theorem sum_items (hnum : 0 < (grid t.lenArr w chunk).num) (v : Nat) :
    ∑ p ∈ range w.data.length,
        part 32 ((grid t.lenArr w chunk).off p) (codeAt t w p).1 (codeAt t w p).2 v =
      ((placed 0 (stream t w chunk)).map fun q => part 32 q.1 q.2.1 q.2.2 v).sum := by
  let F : Nat → Nat := fun p =>
    part 32 ((grid t.lenArr w chunk).off p) (codeAt t w p).1 (codeAt t w p).2 v
  have hpad : ∑ p ∈ range w.data.length, F p =
      ∑ p ∈ range ((grid t.lenArr w chunk).rows * (grid t.lenArr w chunk).num), F p := by
    apply sum_subset
    · intro p hp
      exact mem_range.mpr (Nat.lt_of_lt_of_le (mem_range.mp hp) (covers hnum))
    · intro p _ hp
      have hge : w.data.length ≤ p := Nat.le_of_not_lt fun h => hp (mem_range.mpr h)
      show part 32 _ (codeAt t w p).1 (codeAt t w p).2 v = 0
      unfold codeAt
      rw [List.getElem?_eq_none hge]
      exact part_none _ v
  show ∑ p ∈ range w.data.length, F p = _
  rw [hpad, sum_range_mul, sum_comm]
  unfold stream
  rw [sum_placed_columns]
  apply sum_congr rfl
  intro j hj
  unfold column
  rw [sum_placed_range]
  apply sum_congr rfl
  intro i _
  show part 32 _ _ _ v = part 32 _ _ _ v
  rw [off_eq (mem_range.mp hj), before, bitLength_append, bitLength_columns, bitLength_range]
  rfl

/-- The result of `compress` with these words as its stream. -/
def packed (t : Tables) (w : Matrix) (chunk lmax : Nat) (words : List Nat) : Compressed :=
  { low8 := w.data.map low8Of
    bitstream := words.map fun x => toInt32 (x % 0x100000000)
    chunkStart := (grid t.lenArr w chunk).chunkStart.map toInt32
    lut := t.lut
    outFeatures := w.rows
    inFeatures := w.cols
    n := w.data.length
    numChunks := (grid t.lenArr w chunk).num
    rows := (grid t.lenArr w chunk).rows
    lmax := lmax }

/-- The compressed matrix: its stream is packed from the codes in stream order. -/
theorem compress_spec (hne : w.data ≠ []) (hchunk : 0 < chunk) (hlmax : lmax ≤ 32)
    (hrun : huffmanTables (bincount (w.data.map expOf)) lmax = some t)
    (hcodes : CodesAll t lmax w) :
    ∃ words, compress w chunk lmax = some (packed t w chunk lmax words) ∧
      wordsOf words = packFrom 32 (fun _ => 0) 0 (stream t w chunk) ∧
      ∀ v, wordsOf words v < 2 ^ 32 := by
  have hnum := @num_pos t chunk w hne hchunk
  have hitems : (w.data.mapIdx fun p x =>
      ((grid t.lenArr w chunk).off p, t.codeArr.getD (expOf x) 0, t.lenArr.getD (expOf x) 0)) =
        (List.range w.data.length).map fun p => ((grid t.lenArr w chunk).off p, codeAt t w p) := by
    apply mapIdx_eq_range
    intro p hp
    rw [codeAt_of_lt hp]
  have hfits : ∀ c ∈ stream t w chunk, Fits 32 c := by
    intro c hc
    obtain ⟨j, -, hc⟩ := List.mem_flatMap.mp hc
    obtain ⟨i, -, rfl⟩ := List.mem_map.mp hc
    exact codeAt_fits hcodes hlmax _
  have hroom : ∀ p ∈ (List.range w.data.length).map
      (fun p => ((grid t.lenArr w chunk).off p, codeAt t w p)),
      p.1 / 32 + 1 < (List.replicate (numWords (grid t.lenArr w chunk).totalBits) 0).length := by
    intro q hq
    obtain ⟨p, hp, rfl⟩ := List.mem_map.mp hq
    have hp' : p < (grid t.lenArr w chunk).rows * (grid t.lenArr w chunk).num :=
      Nat.lt_of_lt_of_le (List.mem_range.mp hp) (covers hnum)
    have hi : p / (grid t.lenArr w chunk).num < (grid t.lenArr w chunk).rows :=
      Nat.div_lt_of_lt_mul (by rw [Nat.mul_comm]; exact hp')
    obtain ⟨post, hpost⟩ := @stream_split t chunk w _ _ hi (Nat.mod_lt p hnum)
    have hoff := @off_eq t chunk w (p / (grid t.lenArr w chunk).num) _ (Nat.mod_lt p hnum)
    rw [Nat.div_add_mod'] at hoff
    have htotal : (grid t.lenArr w chunk).off p ≤ (grid t.lenArr w chunk).totalBits := by
      rw [totalBits_eq hnum, hpost, bitLength_append, hoff]
      exact Nat.le_add_right _ _
    rw [List.length_replicate]
    show (grid t.lenArr w chunk).off p / 32 + 1 < numWords _
    unfold numWords
    omega
  obtain ⟨words, hscatter, -, hsum⟩ := scatter_spec hroom
  have hwords : wordsOf words = packFrom 32 (fun _ => 0) 0 (stream t w chunk) := by
    funext v
    rw [hsum, wordsOf_replicate, packFrom_eq_sum, ← sum_items hnum v, List.map_map]
    rfl
  refine ⟨words, ?_, hwords, ?_⟩
  · unfold compress
    rw [hrun]
    have hguard : (guard (chunk ≠ 0) : Option Unit) = some () := if_pos (Nat.ne_of_gt hchunk)
    rw [hguard]
    show (scatter _ _ >>= _) = _
    rw [hitems, hscatter]
    rfl
  · rw [hwords]
    exact (packFrom_clean (by omega) (clean_zero 32) hfits).lt

/-- Every place of the matrix is read at its offset. -/
theorem readsAt_stream {words : List Nat} (hlmax : lmax ≤ 32) (hcodes : CodesAll t lmax w)
    (hwords : wordsOf words = packFrom 32 (fun _ => 0) 0 (stream t w chunk))
    (hlt : ∀ v, wordsOf words v < 2 ^ 32) {i j : Nat} (hi : i < (grid t.lenArr w chunk).rows)
    (hj : j < (grid t.lenArr w chunk).num)
    (hp : i * (grid t.lenArr w chunk).num + j < w.data.length) :
    ReadsAt words t.lut lmax (bitLength (before t w chunk i j))
      (expOf w.data[i * (grid t.lenArr w chunk).num + j])
      (codeAt t w (i * (grid t.lenArr w chunk).num + j)).2 := by
  obtain ⟨post, hpost⟩ := @stream_split t chunk w _ _ hi hj
  have hfits : ∀ c ∈ stream t w chunk, Fits 32 c := by
    intro c hc
    obtain ⟨j, -, hc⟩ := List.mem_flatMap.mp hc
    obtain ⟨i, -, rfl⟩ := List.mem_map.mp hc
    exact codeAt_fits hcodes hlmax _
  rw [hpost] at hwords hfits
  rw [codeAt_of_lt hp] at hwords hfits ⊢
  exact readsAt_packed hlmax (hcodes _ (List.getElem_mem hp)) hfits hwords hlt

/-- A chunk decoded from row `i` on fills its own places and no other. -/
theorem decodeChunk_spec {c : Compressed} {words : List Nat} {j start : Nat} {e l : Nat → Nat}
    (hj : j < c.numChunks) (hcov : c.n ≤ c.rows * c.numChunks) (hl : ∀ i, l i < 256)
    (hread : ∀ i < c.rows, i * c.numChunks + j < c.n →
      ReadsAt words c.lut c.lmax (start + ∑ r ∈ range i, l r) (e (i * c.numChunks + j)) (l i))
    (more i : Nat) (expOut : List Nat) (hi : i + more = c.rows) (hlen : expOut.length = c.n) :
    ∃ out, decodeChunk c words j more i ((start + ∑ r ∈ range i, l r : Nat) : Int) expOut = some out ∧
      out.length = c.n ∧
      ∀ p < c.n, out[p]? =
        if p % c.numChunks = j ∧ i ≤ p / c.numChunks then some (e p) else expOut[p]? := by
  have hnum : 0 < c.numChunks := Nat.lt_of_le_of_lt (Nat.zero_le j) hj
  have hplace : ∀ p, p % c.numChunks = j → p = p / c.numChunks * c.numChunks + j := by
    intro p hp
    rw [← hp, Nat.div_add_mod']
  induction more generalizing i expOut with
  | zero =>
      refine ⟨expOut, rfl, hlen, fun p hp => ?_⟩
      rw [if_neg]
      rintro ⟨-, hdiv⟩
      have hlt : p / c.numChunks < c.rows :=
        Nat.div_lt_of_lt_mul (by rw [Nat.mul_comm]; exact Nat.lt_of_lt_of_le hp hcov)
      omega
  | succ more ih =>
      by_cases hp₀ : c.n ≤ i * c.numChunks + j
      · -- the ragged end: this chunk has no place in row `i` or below
        refine ⟨expOut, if_pos hp₀, hlen, fun p hp => ?_⟩
        rw [if_neg]
        rintro ⟨hmod, hdiv⟩
        have hle := Nat.mul_le_mul_right c.numChunks hdiv
        have := hplace p hmod
        omega
      · obtain ⟨v, combined, hpeek, hlut, hexp, hcode⟩ :=
          (hread i (by omega) (by omega)).turn (hl i)
        have hpos : start + ∑ r ∈ range i, l r + l i = start + ∑ r ∈ range (i + 1), l r := by
          rw [sum_range_succ, Nat.add_assoc]
        obtain ⟨out, hrun, hlen', hout⟩ := ih (i + 1)
          (expOut.set (i * c.numChunks + j) (e (i * c.numChunks + j))) (by omega)
          (by rw [List.length_set]; exact hlen)
        refine ⟨out, ?_, hlen', fun p hp => ?_⟩
        · rw [decodeChunk]
          show (if c.n ≤ i * c.numChunks + j then _ else _) = _
          rw [if_neg hp₀, hpeek]
          show (c.lut[v]? >>= _) = _
          rw [hlut]
          show decodeChunk c words j more (i + 1) (_ + ((combined &&& 0xFF : Nat) : Int))
            (expOut.set _ (combined >>> 8)) = _
          rw [hexp, hcode, ← Nat.cast_add, hpos]
          exact hrun
        · rw [hout p hp, List.getElem?_set]
          by_cases hown : i * c.numChunks + j = p
          · subst hown
            rw [place_mod hj, place_div hj, if_neg (by omega), if_pos rfl, if_pos (by omega),
              if_pos ⟨rfl, Nat.le_refl i⟩]
          · rw [if_neg hown]
            by_cases hmod : p % c.numChunks = j
            · have hne : p / c.numChunks ≠ i := by
                rintro rfl
                exact hown (hplace p hmod).symm
              by_cases hdiv : i ≤ p / c.numChunks
              · rw [if_pos ⟨hmod, by omega⟩, if_pos ⟨hmod, hdiv⟩]
              · rw [if_neg (by omega), if_neg (by omega)]
            · rw [if_neg fun h => hmod h.1, if_neg fun h => hmod h.1]

theorem toInt32_of_lt {x : Nat} (hx : x < 2 ^ 31) : toInt32 x = (x : Int) := by
  unfold toInt32
  rw [BitVec.toInt_eq_toNat_cond, BitVec.toNat_ofNat, Nat.mod_eq_of_lt (by omega), if_pos (by omega)]

/-- What is compressed in interleaved chunks decompresses to itself, as long as the offsets fit. -/
theorem decompressRef_compress (hne : w.data ≠ []) (hchunk : 0 < chunk) (h8 : 8 ≤ lmax)
    (hlmax : lmax ≤ 32) (hbits : streamBits w chunk lmax < 2 ^ 31) :
    (compress w chunk lmax).bind decompressRef = some w := by
  obtain ⟨t, hrun, hcodes⟩ := tables_spec hne h8
  obtain ⟨words, hc, hwords, hlt⟩ := compress_spec hne hchunk hlmax hrun hcodes
  have hnum := @num_pos t chunk w hne hchunk
  have htotal : streamBits w chunk lmax = (grid t.lenArr w chunk).totalBits := by
    unfold streamBits
    rw [hrun]
  let c := packed t w chunk lmax words
  let e : Nat → Nat := fun p => (w.data[p]?.map expOf).getD 0
  have he : ∀ p (hp : p < w.data.length), e p = expOf w.data[p] := by
    intro p hp
    show (w.data[p]?.map expOf).getD 0 = _
    rw [List.getElem?_eq_getElem hp]
    rfl
  have hstart : ∀ j < c.numChunks, c.chunkStart[j]? =
      some ((∑ k ∈ range j, bitLength (column t w chunk k) : Nat) : Int) := by
    intro j hj
    have hle : ∑ k ∈ range j, bitLength (column t w chunk k) ≤ bitLength (stream t w chunk) := by
      unfold stream
      rw [bitLength_columns]
      show _ ≤ ∑ k ∈ range c.numChunks, bitLength (column t w chunk k)
      rw [← sum_range_add_sum_Ico _ (Nat.le_of_lt hj)]
      exact Nat.le_add_right _ _
    show ((grid t.lenArr w chunk).chunkStart.map toInt32)[j]? = _
    rw [List.getElem?_map, chunkStart_getD hj]
    rw [htotal, totalBits_eq hnum] at hbits
    exact congrArg some (toInt32_of_lt (by omega))
  have hreads : ∀ j < c.numChunks, ∀ i < c.rows, i * c.numChunks + j < c.n →
      ReadsAt words c.lut c.lmax (∑ k ∈ range j, bitLength (column t w chunk k) +
        ∑ r ∈ range i, (codeAt t w (r * c.numChunks + j)).2)
        (e (i * c.numChunks + j)) (codeAt t w (i * c.numChunks + j)).2 := by
    intro j hj i hi hp
    have hread := readsAt_stream hlmax hcodes hwords hlt hi hj hp
    rw [before, bitLength_append, bitLength_columns, bitLength_range] at hread
    rw [he _ hp]
    exact hread
  -- after `j` chunks the places of the first `j` columns hold their exponents
  obtain ⟨expOut, hfold, hlen, hout⟩ := @foldlM_range _
    (fun expOut j => c.chunkStart[j]?.bind fun pos => decodeChunk c words j c.rows 0 pos expOut)
    (fun j expOut => expOut.length = c.n ∧
      ∀ p < c.n, p % c.numChunks < j → expOut[p]? = some (e p))
    (List.replicate c.n 0) c.numChunks
    ⟨List.length_replicate, fun p _ h => absurd h (Nat.not_lt_zero _)⟩ (by
      intro j hj expOut hprev
      obtain ⟨out, hdec, hlen, hout⟩ := @decodeChunk_spec c words j _ e _ hj (covers hnum)
        (fun i => len_lt hcodes (by omega) (i * c.numChunks + j)) (hreads j hj) c.rows 0 expOut
        (Nat.zero_add _) hprev.1
      refine ⟨out, ?_, hlen, fun p hp hmod => ?_⟩
      · rw [hstart j hj]
        rw [sum_range_zero, Nat.add_zero] at hdec
        exact hdec
      · rw [hout p hp]
        by_cases hown : p % c.numChunks = j
        · rw [if_pos ⟨hown, Nat.zero_le _⟩]
        · rw [if_neg fun h => hown h.1]
          exact hprev.2 p hp (by omega))
  rw [hc]
  show decompressRef c = some w
  unfold decompressRef
  rw [show c.bitstream.map fromInt32 = words from stream_eq hlt]
  show ((List.range c.numChunks).foldlM
    (fun expOut j => c.chunkStart[j]?.bind fun pos => decodeChunk c words j c.rows 0 pos expOut)
    (List.replicate c.n 0) >>= _) = _
  rw [hfold]
  show assemble w.rows w.cols expOut (w.data.map low8Of) = some w
  apply assemble_spec hlen
  intro p hp
  rw [hout p hp (Nat.mod_lt p hnum), he p hp]

end Interleaved

end Df11

end FreeToken
