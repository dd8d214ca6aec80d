import FreeToken.Kernel.Df11Gather

/-!
# What compression hands to the kernels

A bundle of either layout has a table whose entries are bytes with lengths up to `lmax`, and tensors of
the sizes its numbers say.
-/

set_option autoImplicit false

namespace FreeToken

namespace Df11

/-! ## The table -/

/-- Whatever turn the loop stops in, its lengths are limited and belong to its symbols. -/
theorem lengthLimitedLoop_lengths {lmax : Nat} : ∀ {fuel floor : Nat} {f lengths : List (Nat × Nat)},
    lengthLimitedLoop lmax fuel floor f = some lengths →
      f ≠ [] ∧ (∀ p ∈ lengths, p.2 ≤ lmax) ∧ (lengths.map Prod.fst).Perm (f.map Prod.fst) := by
  intro fuel
  induction fuel with
  | zero =>
      intro floor f lengths h
      cases h
  | succ fuel ih =>
      intro floor f lengths h
      cases hrun : huffmanLengths f with
      | none =>
          rw [lengthLimitedLoop, hrun] at h
          cases h
      | some found =>
          have hne : f ≠ [] := by
            rintro rfl
            cases hrun
          rw [lengthLimitedLoop_succ hrun] at h
          by_cases hle : maxLength found ≤ lmax
          · rw [if_pos hle] at h
            obtain ⟨lengths', hrun', hlengths⟩ := huffmanLengths_spec hne
            rw [hrun] at hrun'
            rw [← Option.some.inj h]
            refine ⟨hne, maxLength_le_iff.1 hle, ?_⟩
            rw [Option.some.inj hrun']
            exact hlengths.keys
          · -- the floor keeps the symbols
            rw [if_neg hle] at h
            obtain ⟨-, hlen, hkeys⟩ := ih h
            refine ⟨hne, hlen, ?_⟩
            rwa [List.map_map] at hkeys

theorem length_fillSlice (xs : List Nat) (base span v : Nat) :
    (fillSlice xs base span v).length = xs.length := by
  unfold fillSlice
  exact List.length_mapIdx

theorem length_buildLut (codes : List (Nat × Nat × Nat)) (lmax : Nat) :
    (buildLut codes lmax).length = 2 ^ lmax := by
  have hfill : ∀ (codes : List (Nat × Nat × Nat)) (lut : List Nat),
      (codes.foldl (fillCode lmax) lut).length = lut.length := by
    intro codes
    induction codes with
    | nil => exact fun _ => rfl
    | cons c codes ih =>
        intro lut
        rw [List.foldl_cons, ih, fillCode, length_fillSlice]
  show (codes.foldl (fillCode lmax) (List.replicate (1 <<< lmax) 0)).length = _
  rw [hfill, List.length_replicate, Nat.one_shiftLeft]

/-- The table has nothing but entries of codes, and the 0 it began with. -/
theorem mem_buildLut {codes : List (Nat × Nat × Nat)} {lmax x : Nat} (hx : x ∈ buildLut codes lmax) :
    x = 0 ∨ ∃ c ∈ codes, x = c.1 <<< 8 ||| c.2.2 := by
  have hfill : ∀ (codes : List (Nat × Nat × Nat)) (lut : List Nat),
      x ∈ codes.foldl (fillCode lmax) lut → x ∈ lut ∨ ∃ c ∈ codes, x = c.1 <<< 8 ||| c.2.2 := by
    intro codes
    induction codes with
    | nil => exact fun _ h => .inl h
    | cons c codes ih =>
        intro lut h
        rcases ih _ h with h | ⟨d, hd, h⟩
        · obtain ⟨i, hi⟩ := List.getElem?_of_mem h
          rw [getElem?_fillCode] at hi
          split at hi
          · obtain ⟨y, -, hy⟩ := Option.map_eq_some_iff.1 hi
            exact .inr ⟨c, List.mem_cons_self, hy.symm⟩
          · exact .inl (List.mem_of_getElem? hi)
        · exact .inr ⟨d, List.mem_cons_of_mem c hd, h⟩
  rcases hfill codes _ hx with h | h
  · exact .inl (List.eq_of_mem_replicate h)
  · exact .inr h

/-- A table of codes whose lengths are limited. -/
theorem huffmanTables_lut {hist : List Nat} {lmax : Nat} {t : Tables} (hlen : hist.length = 256)
    (hlmax : lmax < 256) (hrun : huffmanTables hist lmax = some t) :
    t.lut.length = 2 ^ lmax ∧ (∀ x ∈ t.lut, x &&& 0xFF ≤ lmax) ∧ ∀ x ∈ t.lut, x >>> 8 < 256 := by
  unfold huffmanTables at hrun
  obtain ⟨lengths, hlengths, hrun⟩ := Option.bind_eq_some_iff.1 hrun
  obtain ⟨-, hle, hkeys⟩ := lengthLimitedLoop_lengths hlengths
  have hcodes := canonicalCodes_spec hle
  rw [← Option.some.inj hrun]
  have hcode : ∀ c ∈ canonicalCodes lengths, c.2.2 ≤ lmax ∧ c.1 < 256 := by
    intro c hc
    have hmem : (c.1, c.2.2) ∈ lengths := hcodes.items.mem_iff.1 (List.mem_map_of_mem hc)
    have hkey := hkeys.mem_iff.1 (List.mem_map_of_mem (f := Prod.fst) hmem)
    obtain ⟨p, hp, hpc⟩ := List.mem_map.1 hkey
    have hlt := (mem_frequencies.1 hp).1
    rw [hpc, hlen] at hlt
    exact ⟨hle (c.1, c.2.2) hmem, hlt⟩
  refine ⟨length_buildLut _ _, ?_, ?_⟩
  · intro x hx
    rcases mem_buildLut hx with rfl | ⟨c, hc, rfl⟩
    · exact Nat.zero_le _
    · have hclen := (hcode c hc).1
      rw [entry_len (by omega)]
      exact hclen
  · intro x hx
    rcases mem_buildLut hx with rfl | ⟨c, hc, rfl⟩
    · decide
    · have hclen := (hcode c hc).1
      rw [entry_exp (by omega)]
      exact (hcode c hc).2

theorem huffmanTables_ne_nil {w : Matrix} {lmax : Nat} {t : Tables}
    (hrun : huffmanTables (bincount (w.data.map expOf)) lmax = some t) : w.data ≠ [] := by
  unfold huffmanTables at hrun
  obtain ⟨lengths, hlengths, -⟩ := Option.bind_eq_some_iff.1 hrun
  obtain ⟨hne, -, -⟩ := lengthLimitedLoop_lengths hlengths
  obtain ⟨p, hp⟩ := List.exists_mem_of_ne_nil _ hne
  obtain ⟨hlt, hcount, -⟩ := mem_frequencies.1 hp
  rw [length_bincount] at hlt
  rw [bincount_getD _ hlt] at hcount
  intro hnil
  rw [hnil] at hcount
  exact hcount rfl

theorem length_exclusiveCumsum (acc : Nat) (xs : List Nat) :
    (exclusiveCumsum acc xs).length = xs.length := by
  induction xs generalizing acc with
  | nil => rfl
  | cons x xs ih => rw [exclusiveCumsum, List.length_cons, ih, List.length_cons]

/-! ## Interleaved chunks -/

section Interleaved

variable {w : Matrix} {chunk lmax : Nat} {c : Compressed}

/-- A bundle has the table and the grid of its matrix. -/
theorem of_compress (h : compress w chunk lmax = some c) :
    ∃ t words, 0 < chunk ∧ huffmanTables (bincount (w.data.map expOf)) lmax = some t ∧
      c = packed t w chunk lmax words := by
  unfold compress at h
  by_cases hchunk : chunk = 0
  · rw [hchunk] at h
    cases h
  · obtain ⟨-, -, h⟩ := Option.bind_eq_some_iff.1 h
    obtain ⟨t, ht, h⟩ := Option.bind_eq_some_iff.1 h
    obtain ⟨words, -, h⟩ := Option.bind_eq_some_iff.1 h
    exact ⟨t, words, Nat.pos_of_ne_zero hchunk, ht, (Option.some.inj h).symm⟩

theorem readable_of_compress (h : compress w chunk lmax = some c) (hlmax : lmax ≤ 32) :
    c.source.Readable := by
  obtain ⟨t, words, -, ht, rfl⟩ := of_compress h
  obtain ⟨hsize, hlen, hsym⟩ := huffmanTables_lut (length_bincount _) (by omega) ht
  exact ⟨hlmax, hsize, hlen, hsym⟩

theorem wellFormed_of_compress (h : compress w chunk lmax = some c) :
    c.WellFormed ∧ 0 < c.n ∧ c.lmax = lmax := by
  obtain ⟨t, words, hchunk, ht, rfl⟩ := of_compress h
  have hne := huffmanTables_ne_nil ht
  have hnum := @num_pos t chunk w hne hchunk
  refine ⟨?_, List.length_pos_iff.2 hne, rfl⟩
  constructor
  · show ((grid t.lenArr w chunk).chunkStart.map toInt32).length = _
    rw [List.length_map, Grid.chunkStart, length_exclusiveCumsum, Grid.colBits, List.length_map,
      List.length_range]
    rfl
  · exact List.length_map _
  · exact w.size
  · exact covers hnum

/-- The first chunk begins at bit 0. -/
theorem chunkStart_of_compress (h : compress w chunk lmax = some c) : c.chunkStart[0]? = some 0 := by
  obtain ⟨t, words, hchunk, ht, rfl⟩ := of_compress h
  have hnum := @num_pos t chunk w (huffmanTables_ne_nil ht) hchunk
  show ((grid t.lenArr w chunk).chunkStart.map toInt32)[0]? = _
  rw [List.getElem?_map, chunkStart_getD hnum]
  rfl

end Interleaved

/-! ## Rows -/

section Rows

variable {w : Matrix} {lmax rowBlock : Nat} {c : CompressedRows}

/-- A bundle has the table and the row offsets of its matrix. -/
theorem of_compressRows (h : compressRows w lmax rowBlock = some c) :
    ∃ t words, 0 < rowBlock ∧ huffmanTables (bincount (w.data.map expOf)) lmax = some t ∧
      c = packedRows t w lmax words := by
  by_cases hblock : rowBlock = 0
  · rw [hblock] at h
    cases h
  · obtain ⟨blocks, hblocks, hin, htiles⟩ := @rowBlocks_spec w.rows rowBlock (Nat.pos_of_ne_zero hblock)
    obtain ⟨hlaid, htotal⟩ := htiles w.cols
    obtain ⟨hlaid₁, htotal₁⟩ := htiles 1
    unfold compressRows at h
    simp only [hblocks, Option.bind_eq_bind, Option.bind_some, hist_blocks hlaid htotal,
      low8_blocks hlaid htotal] at h
    obtain ⟨t, ht, h⟩ := Option.bind_eq_some_iff.1 h
    rw [rowBits_blocks hin hlaid₁ htotal₁] at h
    obtain ⟨words, -, h⟩ := Option.bind_eq_some_iff.1 h
    exact ⟨t, words, Nat.pos_of_ne_zero hblock, ht, (Option.some.inj h).symm⟩

theorem readable_of_compressRows (h : compressRows w lmax rowBlock = some c) (hlmax : lmax ≤ 32) :
    c.source.Readable := by
  obtain ⟨t, words, -, ht, rfl⟩ := of_compressRows h
  obtain ⟨hsize, hlen, hsym⟩ := huffmanTables_lut (length_bincount _) (by omega) ht
  exact ⟨hlmax, hsize, hlen, hsym⟩

theorem wellFormed_of_compressRows (h : compressRows w lmax rowBlock = some c) :
    c.WellFormed ∧ 0 < c.n ∧ c.lmax = lmax := by
  obtain ⟨t, words, -, ht, rfl⟩ := of_compressRows h
  have hne := List.length_pos_iff.2 (huffmanTables_ne_nil ht)
  rw [w.size] at hne
  refine ⟨?_, hne, rfl⟩
  constructor
  · show (exclusiveCumsum 0 (rowSums (lens t w) w.rows w.cols)).length = _
    rw [length_exclusiveCumsum, length_rowSums]
    rfl
  · show (w.data.map low8Of).length = _
    rw [List.length_map, w.size]
    rfl
  · rfl

/-- The first row begins at bit 0. -/
theorem chunkStart_of_compressRows (h : compressRows w lmax rowBlock = some c) (hrows : 0 < c.rows) :
    c.chunkStart[0]? = some 0 := by
  obtain ⟨t, words, -, -, rfl⟩ := of_compressRows h
  show (exclusiveCumsum 0 (rowSums (lens t w) w.rows w.cols))[0]? = _
  rw [rowStart_eq hrows, Nat.zero_mul]
  rfl

end Rows

end Df11

end FreeToken
