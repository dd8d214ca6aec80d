import FreeToken.Kernel.Df11Decode
import FreeToken.Kernel.Df11Lossless
import FreeToken.Lib.BitBuffer

/-!
# The bit buffer of a lane

A lane that starts at a bit of the stream keeps the next bits at the top of its buffer, from the middle
of a word and past the end of the stream alike.  Its peeks are those of a reader that looks at any two
words it likes, and it never consumes more than it has.
-/

set_option autoImplicit false

namespace FreeToken

namespace Df11

open BitPack BitBuffer

/-! ## Reading at random -/

/-- A code stream and the table that reads it. -/
structure Source where
  bitstream : List Int
  lut : List Nat
  lmax : Nat

namespace Source

variable (s : Source)

def stream : List Nat := s.bitstream.map fromInt32

def words : Nat → Nat := wordsOf s.stream

/-- The table index at a bit of the stream. -/
def windowAt (pos : Nat) : Nat := BitPack.peek 32 s.words pos s.lmax

def entryAt (pos : Nat) : Nat := s.lut.getD (s.windowAt pos) 0

/-- The bit that the `i`-th code after `start` begins at. -/
def walk (start : Nat) : Nat → Nat
  | 0 => start
  | i + 1 => walk start i + (s.entryAt (walk start i) &&& 0xFF)

/-- No index of the walk is negative as a 32-bit integer. -/
def Narrow (start count : Nat) : Prop := ∀ i < count, s.windowAt (s.walk start i) < 2 ^ 31

/-- A full table of symbols of a byte, no code longer than the peeks. -/
structure Readable : Prop where
  lmax_le : s.lmax ≤ 32
  size : s.lut.length = 2 ^ s.lmax
  len_le : ∀ x ∈ s.lut, x &&& 0xFF ≤ s.lmax
  sym_lt : ∀ x ∈ s.lut, x >>> 8 < 256

variable {s}

theorem fromInt32_lt (x : Int) : fromInt32 x < 2 ^ 32 := by
  unfold fromInt32
  omega

theorem words_lt (w : Nat) : s.words w < 2 ^ 32 := by
  unfold words wordsOf stream
  rw [List.getD_eq_getElem?_getD, List.getElem?_map]
  cases s.bitstream[w]? with
  | none => exact Nat.two_pow_pos 32
  | some x => exact fromInt32_lt x

theorem windowAt_lt (pos : Nat) : s.windowAt pos < 2 ^ s.lmax :=
  Nat.mod_lt _ (Nat.two_pow_pos s.lmax)

theorem narrow_of_le (h : s.lmax ≤ 31) (start count : Nat) : s.Narrow start count := by
  intro i _
  exact Nat.lt_of_lt_of_le (windowAt_lt _) (Nat.pow_le_pow_right (by decide) h)

theorem walk_next (start i : Nat) :
    s.walk (start + (s.entryAt start &&& 0xFF)) i = s.walk start (i + 1) := by
  induction i with
  | zero => rfl
  | succ i ih => rw [walk, ih, ← walk]

theorem walk_eq_sum (start i : Nat) : s.walk start i =
    start + ∑ r ∈ Finset.range i, (s.entryAt (s.walk start r) &&& 0xFF) := by
  induction i with
  | zero => rfl
  | succ i ih => rw [Finset.sum_range_succ, ← Nat.add_assoc, ← ih, walk]

theorem peek_eq (pos : Nat) : Df11.peek s.stream s.lmax (pos : Int) = some (s.windowAt pos) :=
  peek_nat words_lt pos

namespace Readable

variable (h : s.Readable)
include h

theorem getElem?_windowAt (pos : Nat) : s.lut[s.windowAt pos]? = some (s.entryAt pos) := by
  have hlt : s.windowAt pos < s.lut.length := by
    rw [h.size]
    exact windowAt_lt pos
  unfold entryAt
  rw [List.getD_eq_getElem?_getD, List.getElem?_eq_getElem hlt]
  rfl

theorem entryAt_mem (pos : Nat) : s.entryAt pos ∈ s.lut :=
  List.mem_of_getElem? (h.getElem?_windowAt pos)

/-- The reference decoder reads the same entry. -/
theorem readsAt (pos : Nat) :
    ReadsAt s.stream s.lut s.lmax pos (s.entryAt pos >>> 8) (s.entryAt pos &&& 0xFF) := by
  refine ⟨_, peek_eq pos, ?_⟩
  have hentry : (s.entryAt pos >>> 8) <<< 8 ||| (s.entryAt pos &&& 0xFF) = s.entryAt pos := by
    have hmod : s.entryAt pos &&& 0xFF = s.entryAt pos % 2 ^ 8 := Nat.and_two_pow_sub_one_eq_mod _ 8
    have hlt : s.entryAt pos % 2 ^ 8 < 2 ^ 8 := Nat.mod_lt _ (by decide)
    rw [hmod, ← Nat.shiftLeft_add_eq_or_of_lt hlt, Nat.shiftLeft_eq, Nat.shiftRight_eq_div_pow,
      Nat.div_add_mod']
  rw [hentry]
  exact h.getElem?_windowAt pos

end Readable

end Source

/-! ## Loads -/

variable {s : Source}

theorem loadWord_false (bitstream : List Int) (w : Int) : loadWord bitstream false w = some 0#32 := rfl

theorem loadWord_nat (w : Nat) :
    ∃ word, loadWord s.bitstream true (w : Int) = some word ∧ word.toNat = s.words w := by
  unfold loadWord Source.words wordsOf Source.stream
  rw [List.getD_eq_getElem?_getD, List.getElem?_map, Bool.true_and]
  by_cases hw : w < s.bitstream.length
  · refine ⟨BitVec.ofInt 32 s.bitstream[w], ?_, ?_⟩
    · rw [if_pos (decide_eq_true (by omega)), if_pos (by omega), Int.toNat_natCast,
        List.getElem?_eq_getElem hw]
      rfl
    · rw [List.getElem?_eq_getElem hw, BitVec.toNat_ofInt]
      rfl
  · refine ⟨0#32, ?_, ?_⟩
    · rw [if_neg (by rw [decide_eq_true_iff]; omega)]
    · rw [List.getElem?_eq_none (by omega)]
      rfl

theorem loadLut_nat (lut : List Nat) (v : Nat) : loadLut lut (v : Int) = lut[v]? := by
  unfold loadLut
  rw [if_pos (Int.natCast_nonneg v), Int.toNat_natCast]

/-! ## The buffer -/

/-- The buffer stands at bit `pos`, with `n` bits loaded and the next word behind them. -/
structure Buffer.Holds (s : Source) (b : Buffer) (pos n : Nat) : Prop where
  nbits : b.nbits = n
  le : n ≤ 64
  shows : Shows s.words b.acc pos n
  wordidx : b.wordidx = ((pos + n) / 32 : Nat)
  aligned : (pos + n) % 32 = 0

theorem ofStart_spec (start : Nat) :
    ∃ b, Buffer.ofStart s.bitstream true (start : Int) = some b ∧
      b.Holds s start (32 - start % 32) := by
  have hshift : (start : Int) >>> (5 : Nat) = ((start / 32 : Nat) : Int) := by
    rw [Int.shiftRight_eq_div_pow]
    rfl
  have hoff : ((start : Int) % 32).toNat = start % 32 := by omega
  obtain ⟨word, hload, hword⟩ := loadWord_nat (s := s) (start / 32)
  refine ⟨_, by rw [Buffer.ofStart, hshift, hload, hoff]; rfl, ?_⟩
  have hmod := Nat.mod_lt start (by decide : 0 < 32)
  constructor
  · show 32 - (start : Int) % 32 = _
    omega
  · omega
  · have hshows := Shows.start hword hmod
    rwa [Nat.div_add_mod] at hshows
  · show ((start / 32 : Nat) : Int) + 1 = _
    omega
  · omega

theorem Buffer.Holds.refill {b : Buffer} {pos n : Nat} (h : b.Holds s pos n) :
    ∃ b' n', b.refill s.bitstream true = some b' ∧ b'.Holds s pos n' ∧ 32 ≤ n' := by
  by_cases hn : n < 32
  · have hneed : decide (b.nbits < 32) = true := decide_eq_true (by rw [h.nbits]; omega)
    obtain ⟨word, hload, hword⟩ := loadWord_nat (s := s) ((pos + n) / 32)
    have hins : (max (32 - b.nbits) 0).toNat = 32 - n := by
      rw [h.nbits]
      omega
    refine ⟨⟨b.acc ||| word.setWidth 64 <<< (32 - n), b.nbits + 32, b.wordidx + 1⟩, n + 32, ?_, ?_,
      Nat.le_add_left 32 n⟩
    · rw [Buffer.refill, hneed, h.wordidx, Bool.and_true, hload]
      dsimp only [bind, Option.bind, pure]
      rw [if_pos rfl, if_pos rfl, if_pos rfl, hins]
    · have haligned := h.aligned
      have hnbits := h.nbits
      have hidx := h.wordidx
      constructor
      · show b.nbits + 32 = _
        omega
      · omega
      · exact h.shows.refill hn.le haligned hword
      · show b.wordidx + 1 = _
        omega
      · omega
  · have hneed : decide (b.nbits < 32) = false := decide_eq_false (by rw [h.nbits]; omega)
    refine ⟨b, n, ?_, h, by omega⟩
    rw [Buffer.refill, hneed, Bool.false_and, loadWord_false]
    dsimp only [bind, Option.bind, pure]
    rw [if_neg Bool.false_ne_true, if_neg Bool.false_ne_true, if_neg Bool.false_ne_true, BitVec.or_zero]

theorem Buffer.Holds.consume {b : Buffer} {pos n len : Nat} (h : b.Holds s pos n) (hlen : len ≤ n) :
    (b.consume len).Holds s (pos + len) (n - len) := by
  have hle := h.le
  have haligned := h.aligned
  have hnbits := h.nbits
  have hidx := h.wordidx
  have hend : pos + len + (n - len) = pos + n := by omega
  constructor
  · show b.nbits - len = _
    omega
  · omega
  · exact h.shows.consume hle
  · rw [hend]
    exact hidx
  · rw [hend]
    exact haligned

/-- The index of a peek, as the 32-bit integer it becomes. -/
theorem Buffer.Holds.window {b : Buffer} {pos n : Nat} (h : b.Holds s pos n) (hn : 32 ≤ n)
    (h32 : s.lmax ≤ 32) : b.window s.lmax = toInt32 (s.windowAt pos) := by
  unfold Buffer.window toInt32
  rw [h.shows.window Source.words_lt (by omega) h32, BitVec.setWidth_ofNat_of_le (by decide)]
  rfl

theorem toInt32_nonneg_iff {x : Nat} (hx : x < 2 ^ 32) : 0 ≤ toInt32 x ↔ x < 2 ^ 31 := by
  unfold toInt32
  rw [BitVec.toInt_eq_toNat_cond, BitVec.toNat_ofNat, Nat.mod_eq_of_lt hx]
  split <;> omega

/-! ## The peeks of a lane -/

/-- Every peek has its bits, and they are the next ones of the stream. -/
def PeeksValid (stream : List Nat) (lmax : Nat) (start : Int) (ps : List Peek) : Prop :=
  ∀ (i : Nat) (p : Peek), ps[i]? = some p → (lmax : Int) ≤ p.nbits ∧
    ∃ v : Nat, p.window = v ∧
      peek stream lmax (start + ((ps.take i).map Peek.length).sum) = some v

/-- The peeks of a walk. -/
structure Follows (s : Source) (start count : Nat) (ps : List Peek) : Prop where
  length : ps.length = count
  nbits : ∀ (i : Nat) (p : Peek), ps[i]? = some p → (32 : Int) ≤ p.nbits
  window : ∀ (i : Nat) (p : Peek), ps[i]? = some p → p.window = s.windowAt (s.walk start i)
  combined : ∀ (i : Nat) (p : Peek), ps[i]? = some p → p.combined = s.entryAt (s.walk start i)

theorem Follows.cons {start count : Nat} {ps : List Peek} {p : Peek}
    (h : Follows s (start + (s.entryAt start &&& 0xFF)) count ps) (hnbits : 32 ≤ p.nbits)
    (hwindow : p.window = s.windowAt start) (hcombined : p.combined = s.entryAt start) :
    Follows s start (count + 1) (p :: ps) := by
  constructor
  · rw [List.length_cons, h.length]
  · intro i q hq
    cases i with
    | zero => exact Option.some.inj hq ▸ hnbits
    | succ i => exact h.nbits i q hq
  · intro i q hq
    cases i with
    | zero => exact Option.some.inj hq ▸ hwindow
    | succ i =>
        rw [← Source.walk_next]
        exact h.window i q hq
  · intro i q hq
    cases i with
    | zero => exact Option.some.inj hq ▸ hcombined
    | succ i =>
        rw [← Source.walk_next]
        exact h.combined i q hq

theorem Follows.walk_eq {start count : Nat} {ps : List Peek} (h : Follows s start count ps) :
    ∀ i ≤ count, s.walk start i = start + ((ps.take i).map Peek.length).sum := by
  intro i
  induction i with
  | zero => exact fun _ => rfl
  | succ i ih =>
      intro hi
      have hlt : i < ps.length := by
        rw [h.length]
        omega
      have hcombined := h.combined i ps[i] (List.getElem?_eq_getElem hlt)
      rw [List.take_add_one, List.getElem?_eq_getElem hlt, List.map_append, List.sum_append,
        ← Nat.add_assoc, ← ih (by omega), Source.walk, ← hcombined]
      rfl

theorem Follows.valid (hread : s.Readable) {start count : Nat} {ps : List Peek}
    (h : Follows s start count ps) : PeeksValid s.stream s.lmax start ps := by
  intro i p hp
  have hlt : i < ps.length := (List.getElem?_eq_some_iff.1 hp).1
  have hlmax := hread.lmax_le
  have hnbits := h.nbits i p hp
  refine ⟨by omega, _, h.window i p hp, ?_⟩
  have hpos := h.walk_eq i (by rw [← h.length]; omega)
  rw [← Nat.cast_add, ← hpos]
  exact Source.peek_eq _

/-- The lane goes on as long as its indices are not negative, and then reads what the walk reads. -/
theorem peeks_spec (hread : s.Readable) (count : Nat) : ∀ {b : Buffer} {pos n : Nat},
    b.Holds s pos n →
      (s.Narrow pos count → ∃ ps, peeks s.bitstream s.lut s.lmax true count b = some ps ∧
        Follows s pos count ps) ∧
      ∀ ps, peeks s.bitstream s.lut s.lmax true count b = some ps → s.Narrow pos count := by
  induction count with
  | zero =>
      intro b pos n _
      refine ⟨fun _ => ⟨[], rfl, rfl, ?_, ?_, ?_⟩, fun ps _ i hi => absurd hi (Nat.not_lt_zero i)⟩
      · exact fun i p hp => nomatch hp
      · exact fun i p hp => nomatch hp
      · exact fun i p hp => nomatch hp
  | succ count ih =>
      intro b pos n hb
      obtain ⟨b', n', hrefill, hb', hn'⟩ := hb.refill
      have hlmax := hread.lmax_le
      have hlen := hread.len_le _ (hread.entryAt_mem pos)
      have hwindow := hb'.window hn' hlmax
      have hlt : s.windowAt pos < 2 ^ 32 :=
        Nat.lt_of_lt_of_le (Source.windowAt_lt pos) (Nat.pow_le_pow_right (by decide) hlmax)
      obtain ⟨hgo, hback⟩ := ih (hb'.consume (show s.entryAt pos &&& 0xFF ≤ n' by omega))
      have hnarrow : ∀ i < count, s.windowAt (s.walk (pos + (s.entryAt pos &&& 0xFF)) i) =
          s.windowAt (s.walk pos (i + 1)) := fun i _ => by rw [Source.walk_next]
      by_cases hfirst : s.windowAt pos < 2 ^ 31
      · have hload : loadLut s.lut (b'.window s.lmax) = some (s.entryAt pos) := by
          rw [hwindow, toInt32_of_lt hfirst, loadLut_nat]
          exact hread.getElem?_windowAt pos
        have hturn : peeks s.bitstream s.lut s.lmax true (count + 1) b =
            (peeks s.bitstream s.lut s.lmax true count (b'.consume (s.entryAt pos &&& 0xFF))).map
              (⟨b'.nbits, b'.window s.lmax, s.entryAt pos⟩ :: ·) := by
          rw [peeks, hrefill]
          dsimp only [bind, Option.bind, pure]
          rw [hload]
          dsimp only [Peek.length]
          cases peeks s.bitstream s.lut s.lmax true count (b'.consume (s.entryAt pos &&& 0xFF)) <;> rfl
        constructor
        · intro hall
          obtain ⟨ps, hrun, hps⟩ := hgo fun i hi => by
            rw [hnarrow i hi]
            exact hall (i + 1) (by omega)
          refine ⟨_, by rw [hturn, hrun]; rfl, hps.cons ?_ ?_ rfl⟩
          · show 32 ≤ b'.nbits
            rw [hb'.nbits]
            omega
          · show b'.window s.lmax = _
            rw [hwindow, toInt32_of_lt hfirst]
        · intro ps hrun i hi
          cases i with
          | zero => exact hfirst
          | succ i =>
              rw [hturn] at hrun
              obtain ⟨rest, hrest, -⟩ := Option.map_eq_some_iff.1 hrun
              rw [← hnarrow i (by omega)]
              exact hback rest hrest i (by omega)
      · -- the index is negative: the load is outside the table
        have hload : loadLut s.lut (b'.window s.lmax) = none := by
          rw [hwindow]
          exact if_neg (mt (toInt32_nonneg_iff hlt).1 hfirst)
        constructor
        · exact fun hall => absurd (hall 0 (by omega)) hfirst
        · intro ps hrun
          rw [peeks, hrefill] at hrun
          dsimp only [bind, Option.bind] at hrun
          rw [hload] at hrun
          cases hrun

/-- A lane that starts in the stream. -/
theorem lanePeeks_spec (hread : s.Readable) {start count : Nat} (hnarrow : s.Narrow start count) :
    ∃ ps, lanePeeks s.bitstream s.lut s.lmax true (start : Int) count = some ps ∧
      Follows s start count ps := by
  obtain ⟨b, hstart, hb⟩ := ofStart_spec (s := s) start
  obtain ⟨ps, hrun, hps⟩ := (peeks_spec hread count hb).1 hnarrow
  exact ⟨ps, by rw [lanePeeks, hstart]; exact hrun, hps⟩

theorem narrow_of_lanePeeks (hread : s.Readable) {start count : Nat} {ps : List Peek}
    (hrun : lanePeeks s.bitstream s.lut s.lmax true (start : Int) count = some ps) :
    s.Narrow start count := by
  obtain ⟨b, hstart, hb⟩ := ofStart_spec (s := s) start
  rw [lanePeeks, hstart] at hrun
  exact (peeks_spec hread count hb).2 ps hrun

/-- A lane that starts before the stream loads outside it. -/
theorem lanePeeks_of_neg {start : Int} (hneg : start < 0) (bitstream : List Int) (lut : List Nat)
    (lmax count : Nat) : lanePeeks bitstream lut lmax true start count = none := by
  have hword : start >>> (5 : Nat) < 0 := by
    rw [Int.shiftRight_eq_div_pow]
    omega
  have hload : loadWord bitstream true (start >>> (5 : Nat)) = none := by
    unfold loadWord
    rw [Bool.true_and, if_pos (decide_eq_true (by omega)), if_neg (by omega)]
  rw [lanePeeks, Buffer.ofStart, hload]
  rfl

/-- The first peek of the first lane has one word. -/
theorem nbits_of_first {lut : List Nat} {lmax count : Nat} {p : Peek} {ps : List Peek}
    (hrun : lanePeeks s.bitstream lut lmax true 0 (count + 1) = some (p :: ps)) : p.nbits = 32 := by
  obtain ⟨b, hstart, hb⟩ := ofStart_spec (s := s) 0
  have hnbits : b.nbits = 32 := hb.nbits
  have hneed : decide (b.nbits < 32) = false := decide_eq_false (by omega)
  have hrefill : b.refill s.bitstream true = some b := by
    rw [Buffer.refill, hneed, Bool.false_and, loadWord_false]
    dsimp only [bind, Option.bind, pure]
    rw [if_neg Bool.false_ne_true, if_neg Bool.false_ne_true, if_neg Bool.false_ne_true, BitVec.or_zero]
  rw [lanePeeks, show Buffer.ofStart s.bitstream true 0 = some b from hstart] at hrun
  dsimp only [bind, Option.bind] at hrun
  rw [peeks, hrefill] at hrun
  dsimp only [bind, Option.bind, pure] at hrun
  cases hload : loadLut lut (b.window lmax) with
  | none =>
      rw [hload] at hrun
      cases hrun
  | some combined =>
      rw [hload] at hrun
      dsimp only at hrun
      cases hrest : peeks s.bitstream lut lmax true count
          (b.consume (Peek.length ⟨b.nbits, b.window lmax, combined⟩)) with
      | none =>
          rw [hrest] at hrun
          cases hrun
      | some rest =>
          rw [hrest] at hrun
          rw [← (List.cons.inj (Option.some.inj hrun)).1]
          exact hnbits

/-! ## Lanes past the end of the grid -/

theorem peeks_idle {bitstream : List Int} {lut : List Nat} (hlut : lut ≠ []) (lmax count : Nat) :
    ∀ {b : Buffer}, b.acc = 0#64 → ∃ ps, peeks bitstream lut lmax false count b = some ps := by
  induction count with
  | zero => exact fun _ => ⟨[], rfl⟩
  | succ count ih =>
      intro b hacc
      obtain ⟨x, hx⟩ : ∃ x, lut[0]? = some x :=
        ⟨_, List.getElem?_eq_getElem (List.length_pos_iff.2 hlut)⟩
      obtain ⟨b', hrefill, hacc'⟩ : ∃ b', b.refill bitstream false = some b' ∧ b'.acc = 0#64 := by
        refine ⟨_, by rw [Buffer.refill, Bool.and_false, loadWord_false]; rfl, ?_⟩
        show b.acc ||| (if _ then (0#32).setWidth 64 <<< _ else 0#64) = 0#64
        rw [hacc, BitVec.zero_or]
        split
        · rw [BitVec.setWidth_zero, BitVec.zero_shiftLeft]
        · rfl
      have hwindow : b'.window lmax = 0 := by
        unfold Buffer.window
        rw [hacc', BitVec.zero_sshiftRight, BitVec.zero_and]
        rfl
      obtain ⟨ps, hrun⟩ := ih (b := b'.consume (Peek.length ⟨b'.nbits, 0, x⟩))
        (show b'.acc <<< _ = 0#64 by rw [hacc', BitVec.zero_shiftLeft])
      refine ⟨⟨b'.nbits, 0, x⟩ :: ps, ?_⟩
      rw [peeks, hrefill]
      dsimp only [bind, Option.bind, pure]
      rw [hwindow, show loadLut lut 0 = some x from hx]
      dsimp only
      rw [hrun]

theorem lanePeeks_idle {bitstream : List Int} {lut : List Nat} (hlut : lut ≠ []) (lmax count : Nat) :
    ∃ ps, lanePeeks bitstream lut lmax false 0 count = some ps := by
  have hstart : Buffer.ofStart bitstream false 0 = some ⟨0#64, 32, 1⟩ := rfl
  rw [lanePeeks, hstart]
  exact peeks_idle hlut lmax count rfl

end Df11

end FreeToken
