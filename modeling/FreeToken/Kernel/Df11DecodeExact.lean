import FreeToken.Kernel.Df11Bundles

/-!
# When the kernels are the reference decoders

On a bundle of `df11_compress` the kernel agrees with `df11_decompress_ref` if and only if no chunk
offset wrapped to a negative 32-bit integer, the lanes and the places fit their 32-bit numbers, and no
table index is negative.  The row layout keeps 64-bit offsets and asks for the lanes and the indices only.
-/

set_option autoImplicit false

namespace FreeToken

namespace Df11

open Region Finset BitPack

/-! ## Interleaved chunks -/

/-- The kernel writes what the reference decoder gives, and every peek has its bits: the next ones of
the lane's stream. -/
structure Compressed.DecodeAgrees (c : Compressed) (block : Nat) : Prop where
  writes : ∀ out : List (BitVec 16), out.length = c.n →
    ∃ m, decompressRef c = some m ∧ c.decodeKernel block out = some m.data
  peeks : ∀ cid < c.numChunks, ∃ start ps, c.chunkStart[cid]? = some start ∧
    c.chunkPeeks cid = some ps ∧ ps.length = c.rows ∧ PeeksValid c.source.stream c.lmax start ps

/-- The first peek of a lane at bit 0 has 32 bits. -/
theorem not_peeksValid {s : Source} {lut : List Nat} {lmax count : Nat} {ps : List Peek}
    (hwide : 32 < lmax) (hcount : 0 < count)
    (hrun : lanePeeks s.bitstream lut lmax true 0 count = some ps) : ¬ PeeksValid s.stream lmax 0 ps := by
  intro hvalid
  obtain ⟨more, rfl⟩ := Nat.exists_eq_add_one_of_ne_zero (Nat.ne_of_gt hcount)
  cases ps with
  | nil =>
      have hlen := length_lanePeeks hrun
      cases hlen
  | cons p ps =>
      have hbits := (hvalid 0 p rfl).1
      rw [nbits_of_first hrun] at hbits
      omega

section Interleaved

variable {w : Matrix} {chunk lmax block : Nat} {c : Compressed}

theorem decodeAgrees_of_decodable (hc : compress w chunk lmax = some c) (hblock : 0 < block)
    (hdec : c.Decodable block) : c.DecodeAgrees block := by
  obtain ⟨hform, hn, hlmax⟩ := wellFormed_of_compress hc
  have h32 : lmax ≤ 32 := by
    rcases hdec.window with hle | ⟨heq, -⟩ <;> omega
  have hread := readable_of_compress hc h32
  constructor
  · intro out hlen
    obtain ⟨m, hm, hdata⟩ := Compressed.decompressRef_spec hread hform hdec.starts
    refine ⟨m, hm, ?_⟩
    rw [Compressed.decodeKernel_spec hread hform hdec hblock hlen, hdata]
  · intro cid hcid
    obtain ⟨ps, hps, hfollows⟩ := Compressed.chunkPeeks_follows hread hform hdec hcid
    exact ⟨_, ps, Compressed.chunkStart_eq hform hdec.starts hcid, hps, hfollows.length,
      hfollows.valid hread⟩

/-- What a kernel that agrees has got through. -/
theorem decodable_of_decodeAgrees (hc : compress w chunk lmax = some c) (hblock : 0 < block)
    (hagrees : c.DecodeAgrees block) : c.Decodable block := by
  obtain ⟨hform, hn, hlmax⟩ := wellFormed_of_compress hc
  obtain ⟨m, -, hrun⟩ := hagrees.writes (List.replicate c.n 0) List.length_replicate
  constructor
  case starts => exact Compressed.starts_of_decodeKernel hrun hblock hform
  case lanes => exact Compressed.lanes_of_decodeKernel hrun
  case index => exact Compressed.index_of_decodeKernel hrun hblock
  case window =>
    have hnum := hform.num_pos hn
    have hrows : 0 < c.rows := by
      apply Nat.pos_of_ne_zero
      intro hzero
      have hcov := hform.covers
      rw [hzero, Nat.zero_mul] at hcov
      omega
    by_cases hwide : 32 < c.lmax
    · obtain ⟨start, ps, hstart, hps, -, hvalid⟩ := hagrees.peeks 0 hnum
      rw [chunkStart_of_compress hc] at hstart
      obtain rfl := Option.some.inj hstart
      rw [Compressed.chunkPeeks_of_lt hnum (chunkStart_of_compress hc)] at hps
      exact absurd hvalid (not_peeksValid (s := c.source) hwide hrows hps)
    · have hread := readable_of_compress hc (by omega)
      by_cases hle : c.lmax ≤ 31
      · exact .inl hle
      · exact .inr ⟨by omega, fun j hj => Compressed.narrow_of_decodeKernel hrun hblock hread hform hj⟩

end Interleaved

/-! ## Rows -/

/-- The kernel writes, for every id, the row that the reference decoder has under it, and every peek has
its bits: the next ones of the row's stream. -/
structure CompressedRows.GatherAgrees (c : CompressedRows) (ids : List Nat) (block : Nat) : Prop where
  writes : ∀ out : List (BitVec 16), out.length = ids.length * c.cols →
    ∃ out', c.gatherKernel ids block out = some out' ∧ out'.length = out.length ∧
      ∀ t r : Nat, ids[t]? = some r → ∃ m, decompressRowsRef c = some m ∧
        slice out' (t * c.cols) c.cols = slice m.data (r * c.cols) c.cols
  peeks : ∀ t r : Nat, ids[t]? = some r → ∃ start ps, c.chunkStart[r]? = some start ∧
    c.gatherPeeks ids t = some ps ∧ ps.length = c.cols ∧
      PeeksValid c.source.stream c.lmax (start : Int) ps

section Rows

variable {w : Matrix} {lmax rowBlock block : Nat} {c : CompressedRows} {ids : List Nat}

theorem gatherAgrees_of_decodable (hc : compressRows w lmax rowBlock = some c) (hlmax : lmax ≤ 32)
    (hblock : 0 < block) (hids : ∀ r ∈ ids, r < c.rows) (hdec : c.Decodable ids block) :
    c.GatherAgrees ids block := by
  obtain ⟨hform, -, -⟩ := wellFormed_of_compressRows hc
  have hread := readable_of_compressRows hc hlmax
  constructor
  · intro out hlen
    refine ⟨_, CompressedRows.gatherKernel_spec hread hform hdec hids hblock hlen, ?_, ?_⟩
    · rw [List.length_map, List.length_range, hlen]
    · intro t r ht
      have hr := hids r (List.mem_of_getElem? ht)
      obtain ⟨m, hm, hdata⟩ := CompressedRows.decompressRowsRef_spec hread hform
      refine ⟨m, hm, ?_⟩
      rw [hdata]
      exact CompressedRows.slice_gathered hform ht hr
  · intro t r ht
    have hr := hids r (List.mem_of_getElem? ht)
    obtain ⟨ps, hps, hfollows⟩ := CompressedRows.gatherPeeks_follows hread hform hdec ht hr
    exact ⟨_, ps, CompressedRows.chunkStart_eq hform hr, hps, hfollows.length, hfollows.valid hread⟩

theorem decodable_of_gatherAgrees (hc : compressRows w lmax rowBlock = some c) (hlmax : lmax ≤ 32)
    (hblock : 0 < block) (hids : ∀ r ∈ ids, r < c.rows) (hagrees : c.GatherAgrees ids block) :
    c.Decodable ids block := by
  obtain ⟨hform, -, heq⟩ := wellFormed_of_compressRows hc
  have hread := readable_of_compressRows hc hlmax
  obtain ⟨out', hrun, -⟩ :=
    hagrees.writes (List.replicate (ids.length * c.cols) 0) List.length_replicate
  constructor
  · exact CompressedRows.lanes_of_gatherKernel hrun
  · intro r hr
    by_cases hle : c.lmax ≤ 31
    · exact .inl hle
    · exact .inr ⟨by omega, CompressedRows.narrow_of_gatherKernel hrun hread hform hids hblock hr⟩

/-- Past 32 bits the row at the start of the stream has too few. -/
theorem not_gatherAgrees_of_wide (hc : compressRows w lmax rowBlock = some c) (hwide : 32 < lmax) :
    0 < c.rows ∧ ¬ c.GatherAgrees [0] block := by
  obtain ⟨hform, hn, hlmax⟩ := wellFormed_of_compressRows hc
  rw [hform.size] at hn
  have hrows : 0 < c.rows := Nat.pos_of_mul_pos_right hn
  have hcols : 0 < c.cols := Nat.pos_of_mul_pos_left hn
  refine ⟨hrows, fun hagrees => ?_⟩
  obtain ⟨start, ps, hstart, hps, -, hvalid⟩ := hagrees.peeks 0 0 rfl
  have hzero := chunkStart_of_compressRows hc hrows
  rw [hzero] at hstart
  obtain rfl := Option.some.inj hstart
  have hat : c.startAt 0 = 0 := by
    unfold CompressedRows.startAt
    rw [List.getD_eq_getElem?_getD, hzero]
    rfl
  rw [CompressedRows.gatherPeeks_of_lt hform (show ([0] : List Nat)[0]? = some 0 from rfl) hrows,
    hat] at hps
  exact not_peeksValid (s := c.source) (by omega) hcols hps hvalid

end Rows

/-! ## The result -/

theorem decoders_agree_iff (w : Matrix) (lmax block : Nat) (hblock : 0 < block) :
    (∀ chunk c, compress w chunk lmax = some c → (c.DecodeAgrees block ↔ c.Decodable block)) ∧
    ∀ rowBlock c, compressRows w lmax rowBlock = some c →
      (lmax ≤ 32 → ∀ ids : List Nat, (∀ r ∈ ids, r < c.rows) →
        (c.GatherAgrees ids block ↔ c.Decodable ids block)) ∧
      (32 < lmax → 0 < c.rows ∧ ¬ c.GatherAgrees [0] block) := by
  constructor
  · intro chunk c hc
    exact ⟨decodable_of_decodeAgrees hc hblock, decodeAgrees_of_decodable hc hblock⟩
  · intro rowBlock c hc
    constructor
    · intro hlmax ids hids
      exact ⟨decodable_of_gatherAgrees hc hlmax hblock hids,
        gatherAgrees_of_decodable hc hlmax hblock hids⟩
    · exact fun hwide => not_gatherAgrees_of_wide hc hwide

/-- A stream below `2 ^ 31` bits has no offset that wraps. -/
theorem starts_of_streamBits {w : Matrix} {chunk lmax : Nat} {c : Compressed}
    (hc : compress w chunk lmax = some c) (hbits : streamBits w chunk lmax < 2 ^ 31) :
    ∀ s ∈ c.chunkStart, 0 ≤ s := by
  obtain ⟨t, words, hchunk, ht, rfl⟩ := of_compress hc
  have hnum := @num_pos t chunk w (huffmanTables_ne_nil ht) hchunk
  have htotal : streamBits w chunk lmax = (grid t.lenArr w chunk).totalBits := by
    unfold streamBits
    rw [ht]
  rw [htotal, totalBits_eq hnum] at hbits
  intro s hs
  obtain ⟨x, hx, rfl⟩ := List.mem_map.1 hs
  obtain ⟨j, hj⟩ := List.getElem?_of_mem hx
  have hlt : j < (grid t.lenArr w chunk).num := by
    have hlen := (List.getElem?_eq_some_iff.1 hj).1
    rwa [Grid.chunkStart, length_exclusiveCumsum, Grid.colBits, List.length_map,
      List.length_range] at hlen
  have hle : ∑ k ∈ range j, bitLength (column t w chunk k) ≤ bitLength (stream t w chunk) := by
    unfold stream
    rw [bitLength_columns, ← sum_range_add_sum_Ico _ (Nat.le_of_lt hlt)]
    exact Nat.le_add_right _ _
  rw [chunkStart_getD hlt] at hj
  rw [← Option.some.inj hj, toInt32_of_lt (by omega)]
  exact Int.natCast_nonneg _

/-- Two weights, and the first row gathered twice. -/
theorem decoders_agree_iff_zeroAndNan :
    (∃ c, compress zeroAndNan 1 8 = some c ∧ c.DecodeAgrees 128) ∧
    ∃ c, compressRows zeroAndNan 8 1 = some c ∧ c.GatherAgrees [0, 0] 128 := by
  obtain ⟨hchunks, hrows⟩ := decoders_agree_iff zeroAndNan 8 128 (by decide)
  obtain ⟨t, hrun, hcodes⟩ := @tables_spec zeroAndNan 8 (by decide) (by decide)
  constructor
  · obtain ⟨words, hc, -⟩ := compress_spec (by decide) (by decide : 0 < 1) (by decide) hrun hcodes
    have hbits : streamBits zeroAndNan 1 8 ≤ 2 * 8 :=
      streamBits_le (by decide) (by decide) (by decide)
    refine ⟨_, hc, (hchunks 1 _ hc).2 ?_⟩
    exact ⟨starts_of_streamBits hc (by omega), show lanes 2 128 ≤ 2 ^ 31 by decide,
      fun _ _ => show 1 * 2 ≤ 2 ^ 31 by decide, .inl (show 8 ≤ 31 by decide)⟩
  · obtain ⟨words, hc, -⟩ :=
      compressRows_spec (by decide) (by decide : 0 < 1) (by decide) hrun hcodes
    refine ⟨_, hc, ((hrows 1 _ hc).1 (by decide) [0, 0] ?_).2 ?_⟩
    · show ∀ r ∈ [0, 0], r < 1
      decide
    · exact ⟨show lanes 2 128 ≤ 2 ^ 31 by decide, fun _ _ => .inl (show 8 ≤ 31 by decide)⟩

/-! ## A stream past `2 ^ 31` bits -/

/-- The length of a symbol that occurs. -/
theorem huffmanTables_len {hist : List Nat} {lmax : Nat} {lengths : List (Nat × Nat)} {t : Tables}
    (hlen : hist.length = 256) (hlengths : lengthLimitedLengths (frequencies hist) lmax = some lengths)
    (hrun : huffmanTables hist lmax = some t) {s : Nat} (hs : s < 256) (hnz : hist.getD s 0 ≠ 0) :
    (s, t.lenArr.getD s 0) ∈ lengths := by
  obtain ⟨-, hle, hkeys⟩ := lengthLimitedLoop_lengths hlengths
  have hcodes := canonicalCodes_spec hle
  unfold huffmanTables at hrun
  rw [hlengths] at hrun
  rw [← Option.some.inj hrun]
  have hperm := (hcodes.items.map Prod.fst).trans hkeys
  rw [List.map_map] at hperm
  have hnodup : ((canonicalCodes lengths).map Prod.fst).Nodup :=
    hperm.nodup_iff.2 (frequencies_nodup hist)
  have hkey : s ∈ (frequencies hist).map Prod.fst :=
    List.mem_map.2 ⟨(s, hist.getD s 0), mem_frequencies.2 ⟨by rw [hlen]; exact hs, hnz, rfl⟩, rfl⟩
  obtain ⟨c, hc, rfl⟩ := List.mem_map.1 (hperm.mem_iff.2 hkey)
  have hget := @getD_foldl_set (fun c => c.2.2) c _ (List.replicate 256 0) hnodup hc
    (by rw [List.length_replicate]; exact hs)
  show (c.1, ((canonicalCodes lengths).foldl (fun arr c => arr.set c.1 c.2.2)
    (List.replicate 256 0)).getD c.1 0) ∈ lengths
  rw [hget]
  exact hcodes.items.mem_iff.1 (List.mem_map_of_mem (f := fun c => (c.1, c.2.2)) hc)

/-- Four exponents, each `k` times. -/
def fourExponents (k : Nat) : Matrix where
  rows := 4
  cols := k
  data := List.replicate k 0#16 ++ List.replicate k 0x80#16 ++ List.replicate k 0x100#16 ++
    List.replicate k 0x180#16
  size := by
    rw [List.length_append, List.length_append, List.length_append, List.length_replicate,
      List.length_replicate, List.length_replicate, List.length_replicate]
    omega

theorem bincount_fourExponents (k : Nat) : bincount ((fourExponents k).data.map expOf) =
    (List.range 256).map fun s => if s < 4 then k else 0 := by
  have hexp : (fourExponents k).data.map expOf = List.replicate k 0 ++ List.replicate k 1 ++
      List.replicate k 2 ++ List.replicate k 3 := by
    show List.map expOf (_ ++ _ ++ _ ++ _) = _
    rw [List.map_append, List.map_append, List.map_append, List.map_replicate, List.map_replicate,
      List.map_replicate, List.map_replicate]
    rfl
  unfold bincount
  apply List.map_congr_left
  intro s _
  rw [hexp, List.count_append, List.count_append, List.count_append, List.count_replicate,
    List.count_replicate, List.count_replicate, List.count_replicate]
  simp only [beq_iff_eq]
  split <;> split <;> split <;> split <;> split <;> omega

theorem frequencies_four :
    frequencies ((List.range 256).map fun s => if s < 4 then 2 ^ 28 + 64 else 0) =
      [(0, 2 ^ 28 + 64), (1, 2 ^ 28 + 64), (2, 2 ^ 28 + 64), (3, 2 ^ 28 + 64)] := by
  decide +kernel

theorem lengthLimitedLengths_four :
    lengthLimitedLengths [(0, 2 ^ 28 + 64), (1, 2 ^ 28 + 64), (2, 2 ^ 28 + 64), (3, 2 ^ 28 + 64)] 12 =
      some [(0, 2), (1, 2), (2, 2), (3, 2)] := by
  have hlengths : huffmanLengths [(0, 2 ^ 28 + 64), (1, 2 ^ 28 + 64), (2, 2 ^ 28 + 64),
      (3, 2 ^ 28 + 64)] = some [(0, 2), (1, 2), (2, 2), (3, 2)] := by decide +kernel
  unfold lengthLimitedLengths
  rw [lengthLimitedLoop_succ hlengths, if_pos (by decide)]

section FourExponents

variable {k g : Nat} {t : Tables}

/-- Codes of two bits alike for all four exponents. -/
theorem codeAt_fourExponents {lengths : List (Nat × Nat)}
    (hlengths : lengthLimitedLengths [(0, k), (1, k), (2, k), (3, k)] 12 = some lengths)
    (htwo : ∀ p ∈ lengths, p.2 = 2)
    (hfreq : frequencies ((List.range 256).map fun s => if s < 4 then k else 0) =
      [(0, k), (1, k), (2, k), (3, k)])
    (hrun : huffmanTables (bincount ((fourExponents k).data.map expOf)) 12 = some t) {p : Nat}
    (hp : p < (fourExponents k).data.length) : (codeAt t (fourExponents k) p).2 = 2 := by
  rw [codeAt_of_lt hp]
  have hmem := List.getElem_mem hp
  rw [← hfreq, ← bincount_fourExponents] at hlengths
  have hcount := Nat.ne_of_gt (List.count_pos_iff.2 (List.mem_map_of_mem (f := expOf) hmem))
  rw [← bincount_getD _ (expOf_lt _)] at hcount
  have hlen := huffmanTables_len (length_bincount _) hlengths hrun (expOf_lt _) hcount
  exact htwo (expOf (fourExponents k).data[p], _) hlen

/-- Then every chunk of 256 weights has 512 bits. -/
theorem chunkStart_fourExponents (hlength : (fourExponents k).data.length = 256 * g)
    (hcode : ∀ p < (fourExponents k).data.length, (codeAt t (fourExponents k) p).2 = 2) {j : Nat}
    (hj : j < g) : (grid t.lenArr (fourExponents k) 256).chunkStart[j]? = some (j * 512) := by
  have hnum : (grid t.lenArr (fourExponents k) 256).num = g := by
    show ((fourExponents k).data.length + 256 - 1) / 256 = g
    omega
  have hrows : (grid t.lenArr (fourExponents k) 256).rows = 256 := by
    show ((fourExponents k).data.length + (grid t.lenArr (fourExponents k) 256).num - 1) /
      (grid t.lenArr (fourExponents k) 256).num = 256
    rw [hnum, hlength]
    apply Nat.div_eq_of_lt_le <;> omega
  have hcolumn : ∀ i ∈ range j, bitLength (column t (fourExponents k) 256 i) = 512 := by
    intro i hi
    have hi := mem_range.1 hi
    rw [bitLength_column, colPrefix_eq, hrows, hnum]
    have htwo : ∀ r ∈ range 256, (codeAt t (fourExponents k) (r * g + i)).2 = 2 := by
      intro r hr
      have hrow := Nat.mul_le_mul_right g (mem_range.1 hr)
      apply hcode
      rw [hlength]
      rw [Nat.succ_mul] at hrow
      omega
    rw [sum_congr rfl htwo, sum_const, card_range, smul_eq_mul]
  rw [chunkStart_getD (by rw [hnum]; exact hj), sum_congr rfl hcolumn, sum_const, card_range,
    smul_eq_mul]

end FourExponents

theorem toInt32_wrapped : toInt32 (2 ^ 22 * 512) < 0 := by decide

/-- Chunk `2 ^ 22` begins at bit `2 ^ 31`, which the bundle holds as a negative offset: the kernel loads
before the stream. -/
theorem not_decodeAgrees_fourExponents :
    ∃ c, compress (fourExponents (2 ^ 28 + 64)) 256 12 = some c ∧ ¬ c.DecodeAgrees 128 := by
  have hfreq := frequencies_four
  have hlengths := lengthLimitedLengths_four
  have hsize : 4 * (2 ^ 28 + 64) = 256 * (2 ^ 22 + 1) := by decide
  generalize 2 ^ 28 + 64 = k at hfreq hlengths hsize ⊢
  have hlength : (fourExponents k).data.length = 256 * (2 ^ 22 + 1) :=
    (fourExponents k).size.trans hsize
  have hne : (fourExponents k).data ≠ [] := by
    apply List.ne_nil_of_length_pos
    rw [hlength]
    decide
  obtain ⟨t, hrun, hcodes⟩ := tables_spec hne (by decide : 8 ≤ 12)
  obtain ⟨words, hc, -⟩ := compress_spec hne (by decide : 0 < 256) (by decide) hrun hcodes
  have hstart := chunkStart_fourExponents hlength (fun p hp =>
    codeAt_fourExponents hlengths (by decide) hfreq hrun hp) (by decide : 2 ^ 22 < 2 ^ 22 + 1)
  refine ⟨_, hc, fun hagrees => ?_⟩
  have hdec := decodable_of_decodeAgrees hc (by decide) hagrees
  have hmem : toInt32 (2 ^ 22 * 512) ∈ (packed t (fourExponents k) 256 12 words).chunkStart :=
    List.mem_map_of_mem (List.mem_of_getElem? hstart)
  exact absurd (hdec.starts _ hmem) (Int.not_le.2 toInt32_wrapped)

end Df11

end FreeToken
