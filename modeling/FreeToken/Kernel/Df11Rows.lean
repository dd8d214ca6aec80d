import FreeToken.Kernel.Df11Lossless

/-!
# The row layout

`df11_compress_rows` goes through the matrix a block of rows at a time.  The blocks tile the rows, so
what it gathers over them is what one pass over the whole matrix would give.
-/

set_option autoImplicit false

namespace FreeToken

namespace Df11

open Region BitPack

/-! ## Blocks -/

/-- A block of rows in cells of `C` to a row. -/
abbrev blockOff (C : Nat) (b : Nat × Nat) : Nat := b.1 * C

abbrev blockLen (C : Nat) (b : Nat × Nat) : Nat := (b.2 - b.1) * C

theorem blocks_laid (rows rowBlock C k : Nat) (hk : k * rowBlock ≤ rows + rowBlock) :
    Laid (blockOff C) (blockLen C) 0 ((List.range k).map fun i =>
      (i * rowBlock, min (i * rowBlock + rowBlock) rows)) ∧
    total (blockLen C) ((List.range k).map fun i =>
      (i * rowBlock, min (i * rowBlock + rowBlock) rows)) = min (k * rowBlock) rows * C := by
  induction k with
  | zero =>
      rw [Nat.zero_mul, Nat.zero_min, Nat.zero_mul]
      exact ⟨trivial, rfl⟩
  | succ k ih =>
      rw [Nat.succ_mul] at hk
      obtain ⟨hlaid, htotal⟩ := ih (by omega)
      have hstart : k * rowBlock ≤ rows := by omega
      rw [Nat.min_eq_left hstart] at htotal
      rw [List.range_succ, List.map_append, List.map_singleton]
      refine ⟨hlaid.snoc ?_, ?_⟩
      · rw [htotal, Nat.zero_add]
      · rw [total_append, total_cons, total_nil, htotal, Nat.add_zero, Nat.succ_mul]
        show k * rowBlock * C + (min (k * rowBlock + rowBlock) rows - k * rowBlock) * C = _
        rw [← Nat.add_mul]
        congr 1
        omega

/-- The blocks tile the rows. -/
theorem rowBlocks_spec {rows rowBlock : Nat} (hblock : 0 < rowBlock) :
    ∃ blocks, rowBlocks rows rowBlock = some blocks ∧ (∀ b ∈ blocks, b.1 ≤ b.2 ∧ b.2 ≤ rows) ∧
      ∀ C, Laid (blockOff C) (blockLen C) 0 blocks ∧ total (blockLen C) blocks = rows * C := by
  have hdm := Nat.div_add_mod (rows + rowBlock - 1) rowBlock
  have hmod := Nat.mod_lt (rows + rowBlock - 1) hblock
  rw [Nat.mul_comm] at hdm
  refine ⟨_, if_neg (Nat.ne_of_gt hblock), fun b hb => ?_, fun C => ?_⟩
  · obtain ⟨k, hk, rfl⟩ := List.mem_map.mp hb
    have hle := Nat.mul_le_mul_right rowBlock (List.mem_range.mp hk)
    rw [Nat.succ_mul] at hle
    exact ⟨by omega, by omega⟩
  · have hlaid := blocks_laid rows rowBlock C ((rows + rowBlock - 1) / rowBlock) (by omega)
    rw [Nat.min_eq_right (by omega)] at hlaid
    exact hlaid

/-! ## One pass for all blocks -/

theorem zipWith_bincount (xs ys : List Nat) :
    List.zipWith (· + ·) (bincount xs) (bincount ys) = bincount (xs ++ ys) := by
  unfold bincount
  rw [List.zipWith_map, List.zipWith_self]
  apply List.map_congr_left
  intro s _
  rw [List.count_append]

theorem foldl_bincount {ι : Type} (f : ι → List Nat) (bs : List ι) (xs : List Nat) :
    bs.foldl (fun hist b => List.zipWith (· + ·) hist (bincount (f b))) (bincount xs) =
      bincount (xs ++ bs.flatMap f) := by
  induction bs generalizing xs with
  | nil => rw [List.foldl_nil, List.flatMap_nil, List.append_nil]
  | cons b bs ih =>
      rw [List.foldl_cons, zipWith_bincount, ih, List.flatMap_cons, List.append_assoc]

/-- Scattering block by block adds what all blocks hold. -/
theorem scatter_blocks {ι : Type} {f : ι → List Item} (bs : List ι) {words : List Nat}
    (h : ∀ b ∈ bs, ∀ p ∈ f b, p.1 / 32 + 1 < words.length) :
    ∃ words', bs.foldlM (fun words b => scatter words (f b)) words = some words' ∧
      ∀ v, wordsOf words' v = wordsOf words v +
        ((bs.flatMap f).map fun p => part 32 p.1 p.2.1 p.2.2 v).sum := by
  induction bs generalizing words with
  | nil => exact ⟨words, rfl, fun v => rfl⟩
  | cons b bs ih =>
      obtain ⟨words₁, hrun, hlen, hsum⟩ := scatter_spec (h b List.mem_cons_self)
      obtain ⟨words', hrest, hsum'⟩ := @ih words₁ (by
        intro c hc
        rw [hlen]
        exact h c (List.mem_cons_of_mem b hc))
      refine ⟨words', ?_, fun v => ?_⟩
      · rw [List.foldlM_cons, hrun]
        exact hrest
      · rw [hsum', hsum, List.flatMap_cons, List.map_append, List.sum_append, Nat.add_assoc]

theorem block_eq {w : Matrix} {α : Type} (f : BitVec 16 → α) (b : Nat × Nat) :
    (w.block b.1 b.2).map f = slice (w.data.map f) (blockOff w.cols b) (blockLen w.cols b) := by
  unfold Matrix.block slice
  rw [List.map_take, List.map_drop]

/-- What is gathered over the blocks is gathered over the matrix. -/
theorem blocks_flatMap {w : Matrix} {α : Type} {blocks : List (Nat × Nat)} (f : BitVec 16 → α)
    (h : Laid (blockOff w.cols) (blockLen w.cols) 0 blocks)
    (htotal : total (blockLen w.cols) blocks = w.rows * w.cols) :
    blocks.flatMap (fun b => (w.block b.1 b.2).map f) = w.data.map f := by
  have hall := h.flatMap_slice (w.data.map f)
  rw [List.take_zero, List.nil_append, Nat.zero_add, htotal, List.take_of_length_le (by
    rw [List.length_map, w.size])] at hall
  simp only [block_eq]
  exact hall

/-! ## Codes in the order of the data -/

/-- Code and length of a weight. -/
def codeOf (t : Tables) (x : BitVec 16) : Nat × Nat :=
  (t.codeArr.getD (expOf x) 0, t.lenArr.getD (expOf x) 0)

def codes (t : Tables) (w : Matrix) : List (Nat × Nat) := w.data.map (codeOf t)

def lens (t : Tables) (w : Matrix) : List Nat := w.data.map fun x => t.lenArr.getD (expOf x) 0

variable {t : Tables} {lmax : Nat} {w : Matrix}

theorem length_lens : (lens t w).length = w.rows * w.cols := by
  unfold lens
  rw [List.length_map, w.size]

theorem bitLength_take (p : Nat) : bitLength ((codes t w).take p) = ((lens t w).take p).sum := by
  unfold bitLength codes lens
  rw [List.map_take, List.map_map]
  rfl

theorem codes_fits (h : CodesAll t lmax w) (hlmax : lmax ≤ 32) : ∀ c ∈ codes t w, Fits 32 c := by
  intro c hc
  obtain ⟨x, hx, rfl⟩ := List.mem_map.mp hc
  exact ⟨Nat.le_trans (h x hx).len_le hlmax, (h x hx).code_lt⟩

/-- The codes, cut at a place. -/
theorem codes_split {p : Nat} (hp : p < w.data.length) :
    codes t w = (codes t w).take p ++ codeOf t w.data[p] :: (codes t w).drop (p + 1) := by
  have hlen : p < (codes t w).length := by
    unfold codes
    rw [List.length_map]
    exact hp
  have hget : (codes t w)[p] = codeOf t w.data[p] := List.getElem_map ..
  rw [← hget, List.getElem_cons_drop, List.take_append_drop]

theorem length_rowSums (ls : List Nat) (count cols : Nat) : (rowSums ls count cols).length = count := by
  unfold rowSums
  rw [List.length_map, List.length_range]

/-- The first rows together have the bits of their weights. -/
theorem sum_take_rowSums (ls : List Nat) {r count : Nat} (cols : Nat) (hr : r ≤ count) :
    ((rowSums ls count cols).take r).sum = (ls.take (r * cols)).sum := by
  unfold rowSums
  rw [← List.map_take, List.take_range, Nat.min_eq_left hr]
  induction r with
  | zero => rw [Nat.zero_mul, List.take_zero, List.range_zero, List.map_nil]
  | succ r ih =>
      rw [List.range_succ, List.map_append, List.sum_append, ih (by omega), List.map_singleton,
        List.sum_singleton, ← List.sum_append, take_append_slice, Nat.succ_mul]

theorem rowSums_slice (ls : List Nat) {r0 r1 rows : Nat} (cols : Nat) (hr : r0 ≤ r1)
    (hrows : r1 ≤ rows) :
    rowSums (slice ls (r0 * cols) ((r1 - r0) * cols)) (r1 - r0) cols =
      slice (rowSums ls rows cols) r0 (r1 - r0) := by
  apply List.ext_getElem?
  intro i
  rw [getElem?_slice]
  unfold rowSums
  by_cases hi : i < r1 - r0
  · have hroom : i * cols + cols ≤ (r1 - r0) * cols := by
      rw [← Nat.succ_mul]
      exact Nat.mul_le_mul_right cols hi
    rw [if_pos hi, List.getElem?_map, List.getElem?_range hi, List.getElem?_map,
      List.getElem?_range (by omega)]
    show some (slice _ (i * cols) cols).sum = some (slice _ ((r0 + i) * cols) cols).sum
    rw [slice_slice _ _ hroom, ← Nat.add_mul]
  · rw [if_neg hi, List.getElem?_eq_none]
    rw [List.length_map, List.length_range]
    omega

/-- Where a row starts in the stream. -/
theorem rowStart_eq {r : Nat} (hr : r < w.rows) :
    (exclusiveCumsum 0 (rowSums (lens t w) w.rows w.cols))[r]? =
      some ((lens t w).take (r * w.cols)).sum := by
  rw [getElem?_exclusiveCumsum, length_rowSums, if_pos hr, Nat.zero_add,
    sum_take_rowSums _ _ (Nat.le_of_lt hr)]

/-- A block's items are the placed codes of its rows. -/
theorem blockItems_eq {b : Nat × Nat} (hb : b.1 ≤ b.2) (hrows : b.2 ≤ w.rows) :
    blockItems t (exclusiveCumsum 0 (rowSums (lens t w) w.rows w.cols)) w b.1 b.2 =
      slice (placed 0 (codes t w)) (blockOff w.cols b) (blockLen w.cols b) := by
  have hcells : blockOff w.cols b + blockLen w.cols b ≤ w.data.length := by
    rw [← Nat.add_mul, w.size]
    exact Nat.mul_le_mul_right _ (by omega)
  have hlens : ((w.block b.1 b.2).map expOf).map (fun e => t.lenArr.getD e 0) =
      slice (lens t w) (blockOff w.cols b) (blockLen w.cols b) := by
    rw [List.map_map]
    exact block_eq _ b
  apply List.ext_getElem?
  intro p
  unfold blockItems
  dsimp only
  rw [hlens, getElem?_slice, List.getElem?_mapIdx, block_eq, getElem?_slice]
  by_cases hp : p < blockLen w.cols b
  · have hcols : 0 < w.cols := by
      apply Nat.pos_of_ne_zero
      intro h
      rw [show blockLen w.cols b = (b.2 - b.1) * w.cols from rfl, h] at hp
      exact absurd hp (Nat.not_lt_zero _)
    have hrow : p / w.cols < b.2 - b.1 := Nat.div_lt_of_lt_mul (by rw [Nat.mul_comm]; exact hp)
    have hdm := Nat.div_add_mod' p w.cols
    have hplace : (b.1 + p / w.cols) * w.cols + p % w.cols = blockOff w.cols b + p := by
      rw [Nat.add_mul, Nat.add_assoc, hdm]
    have hsum : ((lens t w).take (blockOff w.cols b + p)).sum =
        ((lens t w).take ((b.1 + p / w.cols) * w.cols)).sum +
          (slice (lens t w) ((b.1 + p / w.cols) * w.cols) (p % w.cols)).sum := by
      rw [← hplace, ← take_append_slice, List.sum_append]
    rw [if_pos hp, if_pos hp, getElem?_placed, Nat.zero_add, bitLength_take,
      List.getD_eq_getElem?_getD, rowStart_eq (by omega), slice_slice _ _ (by omega), ← Nat.add_mul,
      hsum]
    unfold codes
    rw [List.getElem?_map, List.getElem?_map, List.getElem?_eq_getElem (by omega)]
    rfl
  · rw [if_neg hp, if_neg hp]
    rfl

theorem exclusiveCumsum_rowSums_last (hne : w.data ≠ []) :
    (exclusiveCumsum 0 (rowSums (lens t w) w.rows w.cols)).getLastD 0 +
      (rowSums (lens t w) w.rows w.cols).getLastD 0 = bitLength (codes t w) := by
  have hrows : 0 < w.rows := by
    apply Nat.pos_of_ne_zero
    intro h
    have hlen := w.size
    rw [h, Nat.zero_mul] at hlen
    exact hne (List.length_eq_zero_iff.mp hlen)
  rw [exclusiveCumsum_last, Nat.zero_add]
  · have hsum := sum_take_rowSums (lens t w) w.cols (Nat.le_refl w.rows)
    rw [← length_lens (t := t), List.take_length, List.take_of_length_le (by
      rw [length_rowSums])] at hsum
    rw [hsum]
    unfold bitLength codes lens
    rw [List.map_map]
    rfl
  · apply List.ne_nil_of_length_pos
    rw [length_rowSums]
    exact hrows

/-- The result of `compressRows` with these words as its stream. -/
def packedRows (t : Tables) (w : Matrix) (lmax : Nat) (words : List Nat) : CompressedRows :=
  { low8 := w.data.map low8Of
    bitstream := words.map fun x => toInt32 (x % 0x100000000)
    chunkStart := exclusiveCumsum 0 (rowSums (lens t w) w.rows w.cols)
    lut := t.lut
    rows := w.rows
    cols := w.cols
    n := w.rows * w.cols
    lmax := lmax }

theorem hist_blocks {blocks : List (Nat × Nat)} (h : Laid (blockOff w.cols) (blockLen w.cols) 0 blocks)
    (htotal : total (blockLen w.cols) blocks = w.rows * w.cols) :
    blocks.foldl (fun hist b =>
      List.zipWith (· + ·) hist (bincount ((w.block b.1 b.2).map expOf))) (List.replicate 256 0) =
        bincount (w.data.map expOf) := by
  have hzero : List.replicate 256 0 = bincount [] := by
    unfold bincount
    simp only [List.count_nil, List.map_const', List.length_range]
  rw [hzero, foldl_bincount, blocks_flatMap expOf h htotal, List.nil_append]

theorem low8_blocks {blocks : List (Nat × Nat)} (h : Laid (blockOff w.cols) (blockLen w.cols) 0 blocks)
    (htotal : total (blockLen w.cols) blocks = w.rows * w.cols) :
    blocks.foldl (fun low8 b =>
      Region.paste low8 (b.1 * w.cols) ((w.block b.1 b.2).map low8Of))
        (List.replicate (w.rows * w.cols) 0) = w.data.map low8Of := by
  apply h.foldl_paste
  · rw [List.length_replicate, List.length_map, w.size]
  · rw [List.length_map, w.size, htotal]
  · intro b _
    exact block_eq low8Of b

theorem rowBits_blocks {blocks : List (Nat × Nat)} (hin : ∀ b ∈ blocks, b.1 ≤ b.2 ∧ b.2 ≤ w.rows)
    (h : Laid (blockOff 1) (blockLen 1) 0 blocks) (htotal : total (blockLen 1) blocks = w.rows * 1) :
    blocks.foldl (fun rowBits b =>
      Region.paste rowBits b.1 (rowSums
        ((w.block b.1 b.2).map fun x => t.lenArr.getD (signedExpOf x) 0) (b.2 - b.1) w.cols))
      (List.replicate w.rows 0) = rowSums (lens t w) w.rows w.cols := by
  have hpaste := @Laid.foldl_paste _ _ _ _ (rowSums (lens t w) w.rows w.cols)
    (List.replicate w.rows 0) _ (fun b : Nat × Nat => rowSums
      ((w.block b.1 b.2).map fun x => t.lenArr.getD (signedExpOf x) 0) (b.2 - b.1) w.cols) h
    (by rw [List.length_replicate, length_rowSums])
    (by rw [length_rowSums, htotal, Nat.mul_one]) (by
      intro b hb
      simp only [signedExpOf_eq]
      rw [block_eq, show blockOff 1 b = b.1 from Nat.mul_one _,
        show blockLen 1 b = b.2 - b.1 from Nat.mul_one _]
      exact rowSums_slice (lens t w) w.cols (hin b hb).1 (hin b hb).2)
  simp only [blockOff, Nat.mul_one] at hpaste
  exact hpaste

/-- The compressed matrix: its stream is packed from the codes in the order of the data. -/
theorem compressRows_spec {rowBlock : Nat} (hne : w.data ≠ []) (hblock : 0 < rowBlock)
    (hlmax : lmax ≤ 32) (hrun : huffmanTables (bincount (w.data.map expOf)) lmax = some t)
    (hcodes : CodesAll t lmax w) :
    ∃ words, compressRows w lmax rowBlock = some (packedRows t w lmax words) ∧
      wordsOf words = packFrom 32 (fun _ => 0) 0 (codes t w) ∧
      ∀ v, wordsOf words v < 2 ^ 32 := by
  obtain ⟨blocks, hblocks, hin, htiles⟩ := @rowBlocks_spec w.rows rowBlock hblock
  obtain ⟨hlaid, htotal⟩ := htiles w.cols
  obtain ⟨hlaid₁, htotal₁⟩ := htiles 1
  have hhist := hist_blocks hlaid htotal
  have hlow8 := low8_blocks hlaid htotal
  have hbits := @rowBits_blocks t w blocks hin hlaid₁ htotal₁
  have hitems : blocks.flatMap (fun b => blockItems t
      (exclusiveCumsum 0 (rowSums (lens t w) w.rows w.cols)) w b.1 b.2) = placed 0 (codes t w) := by
    have hall := hlaid.flatMap_slice (placed 0 (codes t w))
    rw [List.take_zero, List.nil_append, Nat.zero_add, htotal, List.take_of_length_le (by
      rw [length_placed, codes, List.length_map, w.size])] at hall
    rw [← hall]
    apply List.flatMap_congr
    intro b hb
    exact blockItems_eq (hin b hb).1 (hin b hb).2
  have hroom : ∀ b ∈ blocks, ∀ p ∈ blockItems t
      (exclusiveCumsum 0 (rowSums (lens t w) w.rows w.cols)) w b.1 b.2,
      p.1 / 32 + 1 < (List.replicate (numWords (bitLength (codes t w))) 0).length := by
    intro b hb p hp
    have hmem : p ∈ placed 0 (codes t w) := by
      rw [← hitems]
      exact List.mem_flatMap.mpr ⟨b, hb, hp⟩
    obtain ⟨i, hi⟩ := List.getElem?_of_mem hmem
    rw [getElem?_placed] at hi
    obtain ⟨c, -, rfl⟩ := Option.map_eq_some_iff.mp hi
    have hle : bitLength ((codes t w).take i) ≤ bitLength (codes t w) := by
      conv_rhs => rw [← List.take_append_drop i (codes t w), bitLength_append]
      exact Nat.le_add_right _ _
    rw [List.length_replicate]
    unfold numWords
    show (0 + bitLength ((codes t w).take i)) / 32 + 1 < _
    omega
  obtain ⟨words, hscatter, hsum⟩ := scatter_blocks blocks hroom
  have hwords : wordsOf words = packFrom 32 (fun _ => 0) 0 (codes t w) := by
    funext v
    rw [hsum, wordsOf_replicate, packFrom_eq_sum, hitems]
  refine ⟨words, ?_, hwords, ?_⟩
  · unfold compressRows
    simp only [hblocks, Option.bind_eq_bind, Option.bind_some, hhist, hrun, hlow8, hbits,
      exclusiveCumsum_rowSums_last hne, hscatter]
    rfl
  · rw [hwords]
    exact (packFrom_clean (by omega) (clean_zero 32) (codes_fits hcodes hlmax)).lt

/-! ## Reading the rows back -/

/-- A row decoded from column `k` on fills its own places and no other. -/
theorem decodeRow_spec {c : CompressedRows} {words : List Nat} {r : Nat} {pos e l : Nat → Nat}
    (hr : r < c.rows) (hn : c.n = c.rows * c.cols) (hl : ∀ k < c.cols, l k < 256)
    (hpos : ∀ k < c.cols, pos (k + 1) = pos k + l k)
    (hread : ∀ k < c.cols, ReadsAt words c.lut c.lmax (pos k) (e (r * c.cols + k)) (l k))
    (more k : Nat) (expOut : List Nat) (hk : k + more = c.cols) (hlen : expOut.length = c.n) :
    ∃ out, decodeRow c words r more k (pos k : Int) expOut = some out ∧ out.length = c.n ∧
      ∀ p < c.n, out[p]? =
        if p / c.cols = r ∧ k ≤ p % c.cols then some (e p) else expOut[p]? := by
  induction more generalizing k expOut with
  | zero =>
      refine ⟨expOut, rfl, hlen, fun p hp => ?_⟩
      rw [if_neg]
      intro hin
      have hcols : 0 < c.cols := by
        apply Nat.pos_of_ne_zero
        intro h
        rw [hn, h, Nat.mul_zero] at hp
        exact absurd hp (Nat.not_lt_zero p)
      have := Nat.mod_lt p hcols
      omega
  | succ more ih =>
      have hlt : k < c.cols := by omega
      have hplace : r * c.cols + k < c.n := by
        have hle := Nat.mul_le_mul_right c.cols hr
        rw [Nat.succ_mul] at hle
        omega
      obtain ⟨v, combined, hpeek, hlut, hexp, hcode⟩ := (hread k hlt).turn (hl k hlt)
      obtain ⟨out, hrun, hlen', hout⟩ := ih (k + 1)
        (expOut.set (r * c.cols + k) (e (r * c.cols + k))) (by omega)
        (by rw [List.length_set]; exact hlen)
      refine ⟨out, ?_, hlen', fun p hp => ?_⟩
      · rw [decodeRow, hpeek]
        show (c.lut[v]? >>= _) = _
        rw [hlut]
        show decodeRow c words r more (k + 1) (_ + ((combined &&& 0xFF : Nat) : Int))
          (expOut.set _ (combined >>> 8)) = _
        rw [hexp, hcode, ← Nat.cast_add, ← hpos k hlt]
        exact hrun
      · rw [hout p hp, List.getElem?_set]
        by_cases hown : r * c.cols + k = p
        · subst hown
          rw [place_div hlt, place_mod hlt, if_neg (by omega), if_pos rfl, if_pos (by omega),
            if_pos ⟨rfl, Nat.le_refl k⟩]
        · rw [if_neg hown]
          have hdm := Nat.div_add_mod' p c.cols
          by_cases hrow : p / c.cols = r
          · rw [hrow] at hdm
            by_cases hcol : k ≤ p % c.cols
            · rw [if_pos ⟨hrow, by omega⟩, if_pos ⟨hrow, hcol⟩]
            · rw [if_neg (by omega), if_neg (by omega)]
          · rw [if_neg fun h => hrow h.1, if_neg fun h => hrow h.1]

/-- What is compressed row by row decompresses to itself. -/
theorem decompressRowsRef_compressRows {rowBlock : Nat} (hne : w.data ≠ []) (hblock : 0 < rowBlock)
    (h8 : 8 ≤ lmax) (hlmax : lmax ≤ 32) :
    (compressRows w lmax rowBlock).bind decompressRowsRef = some w := by
  obtain ⟨t, hrun, hcodes⟩ := tables_spec hne h8
  obtain ⟨words, hc, hwords, hlt⟩ := compressRows_spec hne hblock hlmax hrun hcodes
  let c := packedRows t w lmax words
  let e : Nat → Nat := fun p => (w.data[p]?.map expOf).getD 0
  let l : Nat → Nat := fun p => (w.data[p]?.map fun x => t.lenArr.getD (expOf x) 0).getD 0
  have hn : c.n = w.data.length := w.size.symm
  have hat : ∀ p (hp : p < w.data.length),
      e p = expOf w.data[p] ∧ l p = t.lenArr.getD (expOf w.data[p]) 0 := by
    intro p hp
    show (w.data[p]?.map expOf).getD 0 = _ ∧ (w.data[p]?.map _).getD 0 = _
    rw [List.getElem?_eq_getElem hp]
    exact ⟨rfl, rfl⟩
  have hplace : ∀ r < c.rows, ∀ k < c.cols, r * c.cols + k < w.data.length := by
    intro r hr k hk
    have hle := Nat.mul_le_mul_right c.cols hr
    rw [Nat.succ_mul] at hle
    have hsize : w.data.length = c.rows * c.cols := w.size
    omega
  have hreads : ∀ p, p < w.data.length →
      ReadsAt words c.lut c.lmax ((lens t w).take p).sum (e p) (l p) := by
    intro p hp
    have hsplit := @codes_split t w p hp
    have hfits := codes_fits hcodes hlmax
    rw [hsplit] at hwords hfits
    rw [(hat p hp).1, (hat p hp).2, ← bitLength_take]
    exact readsAt_packed hlmax (hcodes _ (List.getElem_mem hp)) hfits hwords hlt
  have hnext : ∀ p, p < w.data.length →
      ((lens t w).take (p + 1)).sum = ((lens t w).take p).sum + l p := by
    intro p hp
    rw [List.take_add_one, List.sum_append, (hat p hp).2, lens, List.getElem?_map,
      List.getElem?_eq_getElem hp]
    rfl
  have hshort : ∀ p, p < w.data.length → l p < 256 := by
    intro p hp
    rw [(hat p hp).2]
    exact Nat.lt_of_le_of_lt (hcodes _ (List.getElem_mem hp)).len_le (by omega)
  -- after `r` rows the places of the first `r` rows hold their exponents
  obtain ⟨expOut, hfold, hlen, hout⟩ := @foldlM_range _
    (fun expOut r => c.chunkStart[r]?.bind fun pos =>
      decodeRow c words r c.cols 0 (Int.ofNat pos) expOut)
    (fun r expOut => expOut.length = c.n ∧ ∀ p < c.n, p / c.cols < r → expOut[p]? = some (e p))
    (List.replicate c.n 0) c.rows
    ⟨List.length_replicate, fun p _ h => absurd h (Nat.not_lt_zero _)⟩ (by
      intro r hr expOut hprev
      obtain ⟨out, hdec, hlen, hout⟩ := @decodeRow_spec c words r
        (fun k => ((lens t w).take (r * c.cols + k)).sum) e (fun k => l (r * c.cols + k)) hr rfl
        (fun k hk => hshort _ (hplace r hr k hk)) (fun k hk => hnext _ (hplace r hr k hk))
        (fun k hk => hreads _ (hplace r hr k hk)) c.cols 0 expOut (Nat.zero_add _) hprev.1
      refine ⟨out, ?_, hlen, fun p hp hrow => ?_⟩
      · rw [show c.chunkStart[r]? = _ from rowStart_eq hr]
        exact hdec
      · rw [hout p hp]
        by_cases hown : p / c.cols = r
        · rw [if_pos ⟨hown, Nat.zero_le _⟩]
        · rw [if_neg fun h => hown h.1]
          exact hprev.2 p hp (by omega))
  rw [hc]
  show decompressRowsRef c = some w
  unfold decompressRowsRef
  rw [show c.bitstream.map fromInt32 = words from stream_eq hlt]
  show ((List.range c.rows).foldlM (fun expOut r => c.chunkStart[r]?.bind fun pos =>
    decodeRow c words r c.cols 0 (Int.ofNat pos) expOut) (List.replicate c.n 0) >>= _) = _
  rw [hfold]
  show assemble w.rows w.cols expOut (w.data.map low8Of) = some w
  apply assemble_spec (hlen.trans hn)
  intro p hp
  have hrow : p / c.cols < c.rows :=
    Nat.div_lt_of_lt_mul (by rw [Nat.mul_comm]; exact Nat.lt_of_lt_of_eq hp w.size)
  rw [hout p (by rw [hn]; exact hp) hrow, (hat p hp).1]

/-- Compression loses no bit, in either layout. -/
theorem df11_lossless (w : Matrix) (lmax : Nat) (hne : w.data ≠ []) (h8 : 8 ≤ lmax)
    (h12 : lmax ≤ 12) :
    (∀ chunk, 1 ≤ chunk → streamBits w chunk lmax < 2 ^ 31 →
      (compress w chunk lmax).bind decompressRef = some w) ∧
    ∀ rowBlock, 1 ≤ rowBlock → (compressRows w lmax rowBlock).bind decompressRowsRef = some w :=
  ⟨fun _ hchunk hbits => decompressRef_compress hne hchunk h8 (by omega) hbits,
    fun _ hblock => decompressRowsRef_compressRows hne hblock h8 (by omega)⟩

/-- A signed zero and a NaN with a payload. -/
def zeroAndNan : Matrix := ⟨1, 2, [0x8000#16, 0x7FC1#16], rfl⟩

theorem df11_lossless_zeroAndNan : (compress zeroAndNan 1 8).bind decompressRef = some zeroAndNan ∧
    (compressRows zeroAndNan 8 1).bind decompressRowsRef = some zeroAndNan := by
  have h := df11_lossless zeroAndNan 8 (by decide) (by decide) (by decide)
  have hbits : streamBits zeroAndNan 1 8 ≤ 2 * 8 :=
    streamBits_le (by decide) (by decide) (by decide)
  exact ⟨h.1 1 (by decide) (by omega), h.2 1 (by decide)⟩

end Df11

end FreeToken
