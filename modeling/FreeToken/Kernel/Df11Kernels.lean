import FreeToken.Kernel.Df11Lanes
import FreeToken.Kernel.Df11Rows

/-!
# The kernels and the reference decoders

Every place of a bundle has one entry of its lane's walk.  The reference decoders write the entry's
exponent there, and so do the kernels; a kernel that gets through has started every lane in the stream,
looked up no negative index and stored at no negative place.
-/

set_option autoImplicit false

namespace FreeToken

namespace Df11

open Region Finset

/-! ## Loops that store -/

/-- Every turn of a loop that gets through gets through. -/
theorem of_foldlM_eq_some {σ α : Type} {f : σ → α → Option σ} : ∀ {xs : List α} {a b : σ},
    xs.foldlM f a = some b → ∀ x ∈ xs, ∃ a' b', f a' x = some b'
  | [], _, _, _, x, hx => nomatch hx
  | y :: ys, a, b, h, x, hx => by
      rw [List.foldlM_cons] at h
      obtain ⟨a', hstep, hrest⟩ := Option.bind_eq_some_iff.1 h
      rcases List.mem_cons.1 hx with rfl | hx
      · exact ⟨a, a', hstep⟩
      · exact of_foldlM_eq_some hrest x hx

section Stores

variable {β : Type} {n count : Nat} {f : List β → Peek × Nat → Option (List β)} {on : Nat → Prop}
  [DecidablePred on] {addr : Nat → Nat} {val : Peek → Nat → β}

/-- The turns of a lane that store, each at its own place. -/
theorem foldlM_stores
    (hf : ∀ out p i, out.length = n → i < count →
      f out (p, i) = some (if on i then out.set (addr i) (val p i) else out))
    (hlt : ∀ i < count, on i → addr i < n)
    (hinj : ∀ i < count, ∀ i' < count, addr i = addr i' → i = i') :
    ∀ (ps : List Peek) (k : Nat) (out : List β), k + ps.length = count → out.length = n →
      ∃ out', (ps.zipIdx k).foldlM f out = some out' ∧ out'.length = n ∧
        (∀ q, (∀ i, k ≤ i → i < count → on i → addr i ≠ q) → out'[q]? = out[q]?) ∧
        ∀ i p, ps[i]? = some p → on (k + i) → out'[addr (k + i)]? = some (val p (k + i)) := by
  intro ps
  induction ps with
  | nil => exact fun k out _ hlen => ⟨out, rfl, hlen, fun _ _ => rfl, fun i p hp => nomatch hp⟩
  | cons p ps ih =>
      intro k out hk hlen
      rw [List.length_cons] at hk
      have hlen₁ : (if on k then out.set (addr k) (val p k) else out).length = n := by
        split
        · rw [List.length_set, hlen]
        · exact hlen
      obtain ⟨out', hrun, hlen', hkeep, hput⟩ := ih (k + 1) _ (by omega) hlen₁
      refine ⟨out', ?_, hlen', ?_, ?_⟩
      · rw [List.zipIdx_cons, List.foldlM_cons, hf out p k hlen (by omega)]
        exact hrun
      · intro q hq
        rw [hkeep q fun i hi => hq i (by omega)]
        split
        · rename_i hon
          exact List.getElem?_set_ne (hq k (Nat.le_refl k) (by omega) hon)
        · rfl
      · intro i p' hp' hon
        cases i with
        | zero =>
            obtain rfl := Option.some.inj hp'
            rw [Nat.add_zero] at hon ⊢
            rw [hkeep (addr k), if_pos hon]
            · exact List.getElem?_set_self (by rw [hlen]; exact hlt k (by omega) hon)
            · intro i hi hic _ heq
              have := hinj i hic k (by omega) heq
              omega
        | succ i =>
            have hsum : k + (i + 1) = k + 1 + i := by omega
            rw [hsum] at hon ⊢
            exact hput i p' hp' hon

end Stores

theorem length_peeks {bitstream : List Int} {lut : List Nat} {lmax : Nat} {valid : Bool} :
    ∀ {count : Nat} {b : Buffer} {ps : List Peek},
      peeks bitstream lut lmax valid count b = some ps → ps.length = count
  | 0, _, _, h => Option.some.inj h ▸ rfl
  | count + 1, b, ps, h => by
      rw [peeks] at h
      obtain ⟨b', -, h⟩ := Option.bind_eq_some_iff.1 h
      obtain ⟨combined, -, h⟩ := Option.bind_eq_some_iff.1 h
      obtain ⟨rest, hrest, h⟩ := Option.bind_eq_some_iff.1 h
      rw [← Option.some.inj h, List.length_cons, length_peeks hrest]

theorem length_lanePeeks {bitstream : List Int} {lut : List Nat} {lmax count : Nat} {valid : Bool}
    {start : Int} {ps : List Peek} (h : lanePeeks bitstream lut lmax valid start count = some ps) :
    ps.length = count := by
  rw [lanePeeks] at h
  obtain ⟨b, -, h⟩ := Option.bind_eq_some_iff.1 h
  exact length_peeks h

/-! ## Lanes -/

/-- The lanes of a grid cover what it is launched for. -/
theorem le_lanes (n : Nat) {block : Nat} (hblock : 0 < block) : n ≤ lanes n block := by
  have := Nat.lt_div_mul_add hblock (a := n + block - 1)
  unfold lanes
  omega

theorem laneId_of_lt {k : Nat} (hk : k < 2 ^ 31) : laneId k = k := by
  unfold laneId
  apply Int.bmod_eq_of_le_mul_two <;> omega

/-- The first lane with a number that is negative. -/
theorem laneId_first_neg : laneId (2 ^ 31) < 0 := by decide

section LoadAt

variable {α : Type} [OfNat α 0] {xs : List α}

theorem loadAt_true_nat (i : Nat) : loadAt xs true (i : Int) = xs[i]? := by
  unfold loadAt
  rw [if_pos rfl, if_pos (Int.natCast_nonneg i), Int.toNat_natCast]

theorem loadAt_true_neg {i : Int} (hi : i < 0) : loadAt xs true i = none := by
  unfold loadAt
  rw [if_pos rfl, if_neg (Int.not_le.2 hi)]

theorem loadAt_false (i : Int) : loadAt xs false i = some 0 := rfl

end LoadAt

/-- An entry's symbol has eight bits. -/
theorem Follows.sym {s : Source} (hread : s.Readable) {start count : Nat} {ps : List Peek}
    (h : Follows s start count ps) {i : Nat} {p : Peek} (hp : ps[i]? = some p) :
    p.sym = s.entryAt (s.walk start i) >>> 8 := by
  have hlt := hread.sym_lt _ (hread.entryAt_mem (s.walk start i))
  unfold Peek.sym
  rw [h.combined i p hp, Nat.and_two_pow_sub_one_eq_mod _ 8, Nat.mod_eq_of_lt hlt]

/-- Exponents and raw bits of every place make a matrix. -/
theorem assemble_entries {rows cols n : Nat} {exp low8 : List Nat} {e : Nat → Nat}
    (hexp : exp.length = n) (hlow : low8.length = n) (hn : n = rows * cols)
    (h : ∀ p < n, exp[p]? = some (e p)) :
    ∃ m, assemble rows cols exp low8 = some m ∧
      m.data = (List.range n).map fun p => joinBits (e p) (low8.getD p 0) := by
  have hdata : List.zipWith joinBits exp low8 =
      (List.range n).map fun p => joinBits (e p) (low8.getD p 0) := by
    apply List.ext_getElem?
    intro p
    rw [List.getElem?_zipWith, List.getElem?_map]
    by_cases hp : p < n
    · have hlt : p < low8.length := by
        rw [hlow]
        exact hp
      rw [h p hp, List.getElem?_eq_getElem hlt, List.getElem?_range hp]
      show some (joinBits _ _) = some (joinBits _ (low8.getD p 0))
      rw [List.getD_eq_getElem?_getD, List.getElem?_eq_getElem hlt]
      rfl
    · have hrange : (List.range n)[p]? = none :=
        List.getElem?_eq_none (by rw [List.length_range]; omega)
      rw [List.getElem?_eq_none (by rw [hexp]; omega), hrange]
      rfl
  have hsize : (List.zipWith joinBits exp low8).length = rows * cols := by
    rw [hdata, List.length_map, List.length_range, hn]
  exact ⟨⟨rows, cols, _, hsize⟩, dif_pos hsize, hdata⟩

/-! ## Interleaved chunks -/

namespace Compressed

variable (c : Compressed)

def source : Source := ⟨c.bitstream, c.lut, c.lmax⟩

/-- The first bit of a chunk, when it is not negative. -/
def startAt (j : Nat) : Nat := (c.chunkStart.getD j 0).toNat

/-- The entry at a place: chunk `p % G` walks to its turn `p / G`. -/
def entryOf (p : Nat) : Nat :=
  c.source.entryAt (c.source.walk (c.startAt (p % c.numChunks)) (p / c.numChunks))

def element (p : Nat) : BitVec 16 := joinBits (c.entryOf p >>> 8) (c.low8.getD p 0)

/-- What the tensors of a bundle have to do with its sizes. -/
structure WellFormed : Prop where
  starts : c.chunkStart.length = c.numChunks
  low8 : c.low8.length = c.n
  size : c.n = c.outFeatures * c.inFeatures
  covers : c.n ≤ c.rows * c.numChunks

variable {c}

theorem chunkStart_eq (h : c.WellFormed) (hstarts : ∀ s ∈ c.chunkStart, 0 ≤ s) {j : Nat}
    (hj : j < c.numChunks) : c.chunkStart[j]? = some (c.startAt j : Int) := by
  have hlt : j < c.chunkStart.length := by
    rw [h.starts]
    exact hj
  have hpos := hstarts _ (List.getElem_mem hlt)
  unfold startAt
  rw [List.getD_eq_getElem?_getD, List.getElem?_eq_getElem hlt, Option.getD_some,
    Int.toNat_of_nonneg hpos]

/-- The reference decoder fills the column of a chunk with the entries of its walk. -/
theorem decodeColumn_spec (hread : c.source.Readable) (h : c.WellFormed)
    (hstarts : ∀ s ∈ c.chunkStart, 0 ≤ s) {j : Nat} (hj : j < c.numChunks) {expOut : List Nat}
    (hlen : expOut.length = c.n) :
    ∃ out, (c.chunkStart[j]?.bind fun pos =>
        decodeChunk c c.source.stream j c.rows 0 pos expOut) = some out ∧ out.length = c.n ∧
      ∀ p < c.n, out[p]? = if p % c.numChunks = j then some (c.entryOf p >>> 8) else expOut[p]? := by
  let l : Nat → Nat := fun i => c.source.entryAt (c.source.walk (c.startAt j) i) &&& 0xFF
  let e : Nat → Nat := fun p => c.entryOf p >>> 8
  have hl : ∀ i, l i < 256 := by
    intro i
    have hmem := hread.len_le _ (hread.entryAt_mem (c.source.walk (c.startAt j) i))
    have hlmax := hread.lmax_le
    show c.source.entryAt (c.source.walk (c.startAt j) i) &&& 0xFF < 256
    omega
  have hreads : ∀ i < c.rows, i * c.numChunks + j < c.n →
      ReadsAt c.source.stream c.lut c.lmax (c.startAt j + ∑ r ∈ range i, l r)
        (e (i * c.numChunks + j)) (l i) := by
    intro i _ _
    have hwalk : c.source.walk (c.startAt j) i = c.startAt j + ∑ r ∈ range i, l r :=
      c.source.walk_eq_sum _ _
    have hentry : e (i * c.numChunks + j) =
        c.source.entryAt (c.source.walk (c.startAt j) i) >>> 8 := by
      show c.entryOf (i * c.numChunks + j) >>> 8 = _
      unfold entryOf
      rw [place_mod hj, place_div hj]
    rw [← hwalk, hentry]
    exact hread.readsAt _
  obtain ⟨out, hdec, hlen', hout⟩ := decodeChunk_spec hj h.covers hl hreads c.rows 0 expOut
    (Nat.zero_add _) hlen
  refine ⟨out, ?_, hlen', ?_⟩
  · rw [chunkStart_eq h hstarts hj]
    rw [sum_range_zero, Nat.add_zero] at hdec
    exact hdec
  · intro p hp
    rw [hout p hp]
    by_cases hown : p % c.numChunks = j
    · rw [if_pos ⟨hown, Nat.zero_le _⟩, if_pos hown]
    · rw [if_neg fun hin => hown hin.1, if_neg hown]

theorem WellFormed.num_pos (h : c.WellFormed) (hn : 0 < c.n) : 0 < c.numChunks := by
  apply Nat.pos_of_ne_zero
  intro hzero
  have hcov := h.covers
  rw [hzero, Nat.mul_zero] at hcov
  omega

/-- The reference decoder takes every entry of the walks. -/
theorem decompressRef_spec (hread : c.source.Readable) (h : c.WellFormed)
    (hstarts : ∀ s ∈ c.chunkStart, 0 ≤ s) :
    ∃ m, decompressRef c = some m ∧ m.data = (List.range c.n).map c.element := by
  -- after `j` chunks the places of the first `j` columns hold their exponents
  let P : Nat → List Nat → Prop := fun j expOut => expOut.length = c.n ∧
    ∀ p < c.n, p % c.numChunks < j → expOut[p]? = some (c.entryOf p >>> 8)
  have hinit : P 0 (List.replicate c.n 0) :=
    ⟨List.length_replicate, fun p _ hp => absurd hp (Nat.not_lt_zero _)⟩
  have hstep : ∀ j < c.numChunks, ∀ expOut, P j expOut →
      ∃ out, (c.chunkStart[j]?.bind fun pos =>
        decodeChunk c c.source.stream j c.rows 0 pos expOut) = some out ∧ P (j + 1) out := by
    intro j hj expOut hprev
    obtain ⟨out, hrun, hlen, hout⟩ := decodeColumn_spec hread h hstarts hj hprev.1
    refine ⟨out, hrun, hlen, fun p hp hmod => ?_⟩
    rw [hout p hp]
    by_cases hown : p % c.numChunks = j
    · rw [if_pos hown]
    · rw [if_neg hown]
      exact hprev.2 p hp (by omega)
  obtain ⟨expOut, hfold, hlen, hout⟩ := foldlM_range c.numChunks hinit hstep
  obtain ⟨m, hm, hdata⟩ := assemble_entries hlen h.low8 h.size fun p hp =>
    hout p hp (Nat.mod_lt p (h.num_pos (Nat.lt_of_le_of_lt (Nat.zero_le p) hp)))
  refine ⟨m, ?_, hdata⟩
  unfold decompressRef
  show ((List.range c.numChunks).foldlM (fun expOut j => c.chunkStart[j]?.bind fun pos =>
    decodeChunk c c.source.stream j c.rows 0 pos expOut) (List.replicate c.n 0) >>= _) = _
  rw [hfold]
  exact hm

/-! ### The kernel -/

/-- What the kernel asks of a bundle: offsets that are not negative, lanes and places that fit their
32-bit numbers, and table indices that are not negative as 32-bit integers. -/
structure Decodable (c : Compressed) (block : Nat) : Prop where
  starts : ∀ s ∈ c.chunkStart, 0 ≤ s
  lanes : lanes c.numChunks block ≤ 2 ^ 31
  index : c.numChunks < 2 ^ 31 → c.rows < 2 ^ 31 → c.rows * c.numChunks ≤ 2 ^ 31
  window : c.lmax ≤ 31 ∨
    (c.lmax = 32 ∧ ∀ j < c.numChunks, c.source.Narrow (c.startAt j) c.rows)

variable {block : Nat}

theorem Decodable.narrow (h : c.Decodable block) {j : Nat} (hj : j < c.numChunks) :
    c.source.Narrow (c.startAt j) c.rows := by
  rcases h.window with hlmax | ⟨-, hnarrow⟩
  · exact Source.narrow_of_le hlmax _ _
  · exact hnarrow j hj

theorem Decodable.elementIndex_eq (h : c.Decodable block) {i cid : Nat} (hi : i < c.rows)
    (hcid : cid < c.numChunks) : c.elementIndex i cid = ((i * c.numChunks + cid : Nat) : Int) := by
  unfold elementIndex
  rw [← Nat.cast_add]
  split
  · rename_i hsmall
    have hle := h.index hsmall.1 hsmall.2
    have hrow := Nat.mul_le_mul_right c.numChunks hi
    rw [Nat.succ_mul] at hrow
    apply Int.bmod_eq_of_le_mul_two <;> omega
  · rfl

theorem chunkPeeks_of_lt {cid : Nat} {start : Int} (hcid : cid < c.numChunks)
    (hstart : c.chunkStart[cid]? = some start) :
    c.chunkPeeks cid = lanePeeks c.bitstream c.lut c.lmax true start c.rows := by
  unfold chunkPeeks
  rw [decide_eq_true (Int.ofNat_lt.2 hcid)]
  dsimp only
  rw [loadAt_true_nat, hstart]
  rfl

theorem length_chunkPeeks {cid : Int} {ps : List Peek} (h : c.chunkPeeks cid = some ps) :
    ps.length = c.rows := by
  unfold chunkPeeks at h
  obtain ⟨start, -, h⟩ := Option.bind_eq_some_iff.1 h
  exact length_lanePeeks h

theorem chunkPeeks_follows (hread : c.source.Readable) (h : c.WellFormed)
    (hdec : c.Decodable block) {cid : Nat} (hcid : cid < c.numChunks) :
    ∃ ps, c.chunkPeeks cid = some ps ∧ Follows c.source (c.startAt cid) c.rows ps := by
  obtain ⟨ps, hrun, hps⟩ := lanePeeks_spec hread (hdec.narrow hcid)
  exact ⟨ps, by rw [chunkPeeks_of_lt hcid (chunkStart_eq h hdec.starts hcid)]; exact hrun, hps⟩

/-- The lane of a chunk writes the elements of its column. -/
theorem decodeLane_spec (hread : c.source.Readable) (h : c.WellFormed) (hdec : c.Decodable block)
    {cid : Nat} (hcid : cid < c.numChunks) (hlane : cid < 2 ^ 31) {out : List (BitVec 16)} (hlen : out.length = c.n) :
    ∃ out', c.decodeLane out cid = some out' ∧ out'.length = c.n ∧
      ∀ p < c.n, out'[p]? = if p % c.numChunks = cid then some (c.element p) else out[p]? := by
  obtain ⟨ps, hrun, hps⟩ := chunkPeeks_follows hread h hdec hcid
  have hf : ∀ (out : List (BitVec 16)) (p : Peek) (i : Nat), out.length = c.n → i < c.rows →
      c.storeElement cid out (p, i) = some (if i * c.numChunks + cid < c.n then
        out.set (i * c.numChunks + cid) (joinBits p.sym (c.low8.getD (i * c.numChunks + cid) 0))
        else out) := by
    intro out p i _ hi
    unfold storeElement
    dsimp only
    rw [hdec.elementIndex_eq hi hcid]
    by_cases hlt : i * c.numChunks + cid < c.n
    · have hlow : i * c.numChunks + cid < c.low8.length := by
        rw [h.low8]
        exact hlt
      rw [if_pos (by omega), if_pos (by omega), if_pos hlt, Int.toNat_natCast,
        List.getElem?_eq_getElem hlow, List.getD_eq_getElem?_getD, List.getElem?_eq_getElem hlow]
      rfl
    · rw [if_neg fun hin => hlt (by omega), if_neg hlt]
  have hinj : ∀ i < c.rows, ∀ i' < c.rows,
      i * c.numChunks + cid = i' * c.numChunks + cid → i = i' := by
    intro i _ i' _ heq
    rw [← place_div hcid i, heq, place_div hcid i']
  obtain ⟨out', hfold, hlen', hkeep, hput⟩ := foldlM_stores hf (fun _ _ hon => hon) hinj ps 0 out
    (by rw [hps.length, Nat.zero_add]) hlen
  refine ⟨out', by rw [decodeLane, laneId_of_lt hlane, hrun]; exact hfold, hlen', fun p hp => ?_⟩
  by_cases hown : p % c.numChunks = cid
  · have hplace : p / c.numChunks * c.numChunks + cid = p := by
      rw [← hown, Nat.div_add_mod']
    have hi : p / c.numChunks < ps.length := by
      rw [hps.length]
      apply Nat.div_lt_of_lt_mul
      rw [Nat.mul_comm]
      exact Nat.lt_of_lt_of_le hp h.covers
    have hget := hput (p / c.numChunks) ps[p / c.numChunks] (List.getElem?_eq_getElem hi)
      (by rw [Nat.zero_add, hplace]; exact hp)
    rw [Nat.zero_add, hplace, hps.sym hread (List.getElem?_eq_getElem hi)] at hget
    rw [hget, if_pos hown]
    unfold element entryOf
    rw [hown]
  · rw [if_neg hown]
    apply hkeep p
    intro i _ _ _ heq
    apply hown
    rw [← heq, place_mod hcid]

/-- A lane past the chunks writes nothing. -/
theorem decodeLane_idle (hread : c.source.Readable) {cid : Nat} (hcid : c.numChunks ≤ cid)
    (hlane : cid < 2 ^ 31) (out : List (BitVec 16)) : c.decodeLane out cid = some out := by
  have hlut : c.lut ≠ [] := by
    apply List.ne_nil_of_length_pos
    rw [show c.lut.length = 2 ^ c.lmax from hread.size]
    exact Nat.two_pow_pos _
  obtain ⟨ps, hrun⟩ := @lanePeeks_idle c.bitstream c.lut hlut c.lmax c.rows
  have hpeeks : c.chunkPeeks cid = some ps := by
    unfold chunkPeeks
    rw [decide_eq_false (by omega)]
    exact hrun
  have hstore : ∀ turns : List (Peek × Nat), turns.foldlM (c.storeElement cid) out = some out := by
    intro turns
    induction turns with
    | nil => rfl
    | cons turn turns ih =>
        rw [List.foldlM_cons, storeElement]
        rw [if_neg (by omega)]
        exact ih
  rw [decodeLane, laneId_of_lt hlane, hpeeks]
  exact hstore _

/-- The kernel writes the elements that the reference decoder puts together. -/
theorem decodeKernel_spec (hread : c.source.Readable) (h : c.WellFormed) (hdec : c.Decodable block)
    (hblock : 0 < block) {out : List (BitVec 16)} (hlen : out.length = c.n) :
    c.decodeKernel block out = some ((List.range c.n).map c.element) := by
  obtain ⟨out', hrun, hlen', hout⟩ := @foldlM_range _ c.decodeLane
    (fun j out => out.length = c.n ∧
      ∀ p < c.n, p % c.numChunks < j → out[p]? = some (c.element p)) out
    (lanes c.numChunks block)
    ⟨hlen, fun p _ hp => absurd hp (Nat.not_lt_zero _)⟩ (by
      intro j hlt out hprev
      have hj31 := Nat.lt_of_lt_of_le hlt hdec.lanes
      by_cases hj : j < c.numChunks
      · obtain ⟨out', hlane, hlen', hout'⟩ := decodeLane_spec hread h hdec hj hj31 hprev.1
        refine ⟨out', hlane, hlen', fun p hp hmod => ?_⟩
        rw [hout' p hp]
        by_cases hown : p % c.numChunks = j
        · rw [if_pos hown]
        · rw [if_neg hown]
          exact hprev.2 p hp (by omega)
      · refine ⟨out, decodeLane_idle hread (Nat.le_of_not_lt hj) hj31 out, hprev.1, fun p hp _ => ?_⟩
        apply hprev.2 p hp
        have hnum := h.num_pos (Nat.lt_of_le_of_lt (Nat.zero_le p) hp)
        have := Nat.mod_lt p hnum
        omega)
  have hgrid := le_lanes c.numChunks hblock
  rw [decodeKernel, hrun]
  congr 1
  apply List.ext_getElem?
  intro p
  by_cases hp : p < c.n
  · have hnum := h.num_pos (Nat.lt_of_le_of_lt (Nat.zero_le p) hp)
    have hmod := Nat.mod_lt p hnum
    rw [hout p hp (by omega), List.getElem?_map, List.getElem?_range hp]
    rfl
  · rw [List.getElem?_eq_none (by omega), List.getElem?_eq_none (by simpa using hp)]

/-! ### A kernel that gets through -/

section Through

variable {out out' : List (BitVec 16)} (hrun : c.decodeKernel block out = some out')
include hrun

theorem of_decodeKernel {k : Nat} (hk : k < lanes c.numChunks block) :
    ∃ ps, c.chunkPeeks (laneId k) = some ps ∧
      ∀ turn ∈ ps.zipIdx, ∃ out₁ out₂, c.storeElement (laneId k) out₁ turn = some out₂ := by
  obtain ⟨out₁, out₂, hlane⟩ := of_foldlM_eq_some hrun k (List.mem_range.2 hk)
  rw [decodeLane] at hlane
  obtain ⟨ps, hps, hfold⟩ := Option.bind_eq_some_iff.1 hlane
  exact ⟨ps, hps, of_foldlM_eq_some hfold⟩

/-- No lane has a negative number. -/
theorem lanes_of_decodeKernel : lanes c.numChunks block ≤ 2 ^ 31 := by
  by_contra hover
  obtain ⟨ps, hps, -⟩ := of_decodeKernel hrun (Nat.lt_of_not_le hover)
  have hneg := laneId_first_neg
  rw [chunkPeeks, decide_eq_true (by omega), loadAt_true_neg hneg] at hps
  cases hps

variable (hblock : 0 < block)
include hblock

theorem lane_of_decodeKernel {cid : Nat} (hcid : cid < c.numChunks) :
    ∃ ps, c.chunkPeeks cid = some ps ∧
      ∀ turn ∈ ps.zipIdx, ∃ out₁ out₂, c.storeElement cid out₁ turn = some out₂ := by
  have hlanes := lanes_of_decodeKernel hrun
  have hk := Nat.lt_of_lt_of_le hcid (le_lanes c.numChunks hblock)
  have hlane := of_decodeKernel hrun hk
  rwa [laneId_of_lt (Nat.lt_of_lt_of_le hk hlanes)] at hlane

/-- Every lane started in the stream. -/
theorem starts_of_decodeKernel (h : c.WellFormed) : ∀ s ∈ c.chunkStart, 0 ≤ s := by
  intro s hs
  obtain ⟨j, hj, rfl⟩ := List.mem_iff_getElem.1 hs
  have hcid : j < c.numChunks := by rwa [← h.starts]
  obtain ⟨ps, hps, -⟩ := lane_of_decodeKernel hrun hblock hcid
  by_contra hneg
  rw [chunkPeeks_of_lt hcid (List.getElem?_eq_getElem hj),
    lanePeeks_of_neg (Int.lt_of_not_ge hneg)] at hps
  cases hps

/-- No place wrapped to a negative one. -/
theorem index_of_decodeKernel (hnum : c.numChunks < 2 ^ 31) (hrows : c.rows < 2 ^ 31) :
    c.rows * c.numChunks ≤ 2 ^ 31 := by
  by_contra hover
  have hpos : 0 < c.numChunks := by
    apply Nat.pos_of_ne_zero
    intro hzero
    rw [hzero, Nat.mul_zero] at hover
    omega
  -- the place `2 ^ 31` has a lane and a turn
  have hcid := Nat.mod_lt (2 ^ 31) hpos
  have hi : 2 ^ 31 / c.numChunks < c.rows := by
    apply Nat.div_lt_of_lt_mul
    rw [Nat.mul_comm]
    omega
  obtain ⟨ps, hps, hstores⟩ := lane_of_decodeKernel hrun hblock hcid
  have hturn : 2 ^ 31 / c.numChunks < ps.length := by
    rw [length_chunkPeeks hps]
    exact hi
  have hmem : (ps[2 ^ 31 / c.numChunks], 2 ^ 31 / c.numChunks) ∈ ps.zipIdx := by
    rw [List.mem_zipIdx_iff_getElem?]
    exact List.getElem?_eq_getElem hturn
  obtain ⟨out₁, out₂, hstore⟩ := hstores _ hmem
  have hidx : c.elementIndex (2 ^ 31 / c.numChunks) (2 ^ 31 % c.numChunks : Nat) = -2 ^ 31 := by
    unfold elementIndex
    rw [if_pos ⟨hnum, hrows⟩, ← Nat.cast_add, Nat.div_add_mod']
    decide
  unfold storeElement at hstore
  dsimp only at hstore
  rw [hidx, if_pos (by omega), if_neg (by decide)] at hstore
  cases hstore

/-- No lane looked up a negative index. -/
theorem narrow_of_decodeKernel (hread : c.source.Readable) (h : c.WellFormed) {j : Nat}
    (hj : j < c.numChunks) : c.source.Narrow (c.startAt j) c.rows := by
  have hstarts := starts_of_decodeKernel hrun hblock h
  obtain ⟨ps, hps, -⟩ := lane_of_decodeKernel hrun hblock hj
  rw [chunkPeeks_of_lt hj (chunkStart_eq h hstarts hj)] at hps
  exact narrow_of_lanePeeks hread hps

end Through

end Compressed

end Df11

end FreeToken
