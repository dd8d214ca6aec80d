import FreeToken.Kernel.GatedDecode

/-!
# Serving a layer of the gated delta rule

Prefills, chunked or not, and decodes of a request alternate with those of other requests, and a request
may go on from the snapshot that another one left.  Its outputs are the reference's over all its tokens.
-/

set_option autoImplicit false
set_option linter.unusedSectionVars false

namespace FreeToken

open DeltaRule (Entry dot run)
open GridMemory (storeAll storeAll_apply storeAll_of_ne)

namespace GatedDelta

variable {R : Type} [Field R] [LinearOrder R]

/-- The states of a layer by slot, head, column of the value and column of the key. -/
abbrev StatePool (R : Type) := Nat → Nat → Nat → Nat → R

/-- A snapshot: the slot it goes to, the sequence and the chunk it is taken before. -/
structure LayerTrack where
  dst : Nat
  seq : Nat
  chunk : Nat

/-- A forward's packed tokens, the slots of its sequences, those that start anew and the snapshots. -/
structure LayerBatch (R : Type) extends Packed where
  tokens : Nat → LayerToken R
  totalTokens : Nat
  indices : Nat → Nat
  fresh : Nat → Bool
  track : List LayerTrack

/-- `F.softplus`, with its default threshold -/
def softplus (N : Arith R) (x : R) : R := if ((20 : Nat) : R) < x then x else N.log (1 + N.exp x)

namespace LayerBatch

variable (b : LayerBatch R)

/-- `index_fill_` over `fresh_state_indices` -/
def cleared (pool : StatePool R) : StatePool R := fun slot h v d =>
  if b.fresh slot then 0 else pool slot h v d

/-- `_write_track_snapshot`: `index_copy_` of rows of `h` -/
def tracked (states : ChunkArgs.HAddr → R) (pool : StatePool R) : StatePool R :=
  storeAll pool (b.track.map fun x =>
    (x.dst, fun h v d => states (.h (b.prepareChunkOffsets chunkSize x.seq + x.chunk) h v d)))

/-- What the scheduler promises: no empty sequence, a slot for each, only theirs start anew, and
snapshots go to slots of their own. -/
structure Sound : Prop extends b.toPacked.Sound where
  total : ∀ n < b.numSeqs, b.len n ≤ b.totalTokens
  slots : ∀ m < b.numSeqs, ∀ n < b.numSeqs, b.indices m = b.indices n → m = n
  fresh : ∀ slot, (∀ n < b.numSeqs, b.indices n ≠ slot) → b.fresh slot = false
  inChunk : ∀ x ∈ b.track, x.chunk * chunkSize < b.len x.seq
  apart : ∀ x ∈ b.track, ∀ n < b.numSeqs, b.indices n ≠ x.dst
  dst_inj : ∀ x ∈ b.track, ∀ y ∈ b.track, x.dst = y.dst → x = y

/-- The batch takes a request on by the tokens of one of its sequences. -/
structure Extends (slot : Nat) (xs : Nat → LayerToken R) (count n : Nat) : Prop where
  lt : n < b.numSeqs
  slot_eq : b.indices n = slot
  tokens : ∀ r < b.len n, b.tokens (b.bos n + r) = xs (count + r)
  fresh : b.fresh slot = decide (count = 0)

/-- The outputs of a request once the batch has taken it on. -/
def outputs (n count : Nat) (out o : Nat → Nat → Nat → R) : Nat → Nat → Nat → R := fun i =>
  if i < count then out i else o (b.bos n + (i - count))

variable {b}

theorem tracked_dst (hb : b.Sound) {x : LayerTrack} (hx : x ∈ b.track) (states : ChunkArgs.HAddr → R)
    (pool : StatePool R) (h v d : Nat) : b.tracked states pool x.dst h v d =
      states (.h (b.prepareChunkOffsets chunkSize x.seq + x.chunk) h v d) := by
  have hstored : b.tracked states pool x.dst = fun h v d =>
      states (.h (b.prepareChunkOffsets chunkSize x.seq + x.chunk) h v d) := by
    apply storeAll_apply
    · exact List.mem_map.2 ⟨x, hx, rfl⟩
    · intro s hs hdst
      obtain ⟨y, hy, rfl⟩ := List.mem_map.1 hs
      rw [hb.dst_inj y hy x hx hdst]
  rw [hstored]

theorem tracked_of_ne {slot : Nat} (hslot : ∀ x ∈ b.track, x.dst ≠ slot) (states : ChunkArgs.HAddr → R)
    (pool : StatePool R) : b.tracked states pool slot = pool slot := by
  apply storeAll_of_ne
  intro s hs
  obtain ⟨x, hx, rfl⟩ := List.mem_map.1 hs
  exact hslot x hx

end LayerBatch

namespace GatedLayer

variable (L : GatedLayer R) (N : Arith R)

def kHead (h : Nat) : Nat := h / (L.numHeads / L.numKHeads)

/-- `_gate_params`: `g` and `beta` -/
def gateParams (x : LayerToken R) (h : Nat) : R × R :=
  (-N.exp (L.aLog h) * softplus N (x.a h + L.dtBias h), 1 / (1 + N.exp (-x.b h)))

/-- `gdn_prefill_chunk_fla` -/
def prefillArgs (b : LayerBatch R) (blockK blockV : Nat) : ChunkArgs R where
  toPacked := b.toPacked
  numHeads := L.numHeads
  numKHeads := L.numKHeads
  keyDim := L.keyDim
  valueDim := L.valueDim
  totalTokens := b.totalTokens
  q tok := (b.tokens tok).q
  k tok := (b.tokens tok).k
  v tok := (b.tokens tok).v
  g tok h := (L.gateParams N (b.tokens tok) h).1
  beta tok h := (L.gateParams N (b.tokens tok) h).2
  scale := 1 / N.sqrt L.keyDim
  indices := b.indices
  blockK := blockK
  blockV := blockV

/-- `gdn_decode_fla` -/
def decodeArgs (b : LayerBatch R) : DecodeArgs R where
  toPacked := b.toPacked
  layer := L
  tokens := b.tokens
  softplusBeta := 1
  softplusThreshold := ((20 : Nat) : R)
  scale := 1 / N.sqrt L.keyDim
  indices n := (b.indices n : Int)

/-- `Qwen3_5GatedDeltaNet.forward`, between the convolution and the norm; the kernels run their
programs in any order and with any block sizes. -/
inductive Forward (b : LayerBatch R) (pool : StatePool R) : StatePool R → (Nat → Nat → Nat → R) → Prop
  | prefill {blockK blockV : Nat} (hK : 0 < blockK) (hV : 0 < blockV)
      (f : ((L.prefillArgs N b blockK blockV).normalized N).Forward N (b.cleared pool)) :
      Forward b pool (b.tracked f.states f.pool') f.o
  | decode {mem : DecodeArgs.Addr → R} (hpool : ∀ slot h v d, mem (.state slot h v d) = pool slot h v d)
      (hfresh : ∀ slot, b.fresh slot = false) (htrack : b.track = []) (r : ((L.decodeArgs N b).launch N).Run mem) :
      Forward b pool (fun slot h v d => r.final (.state slot h v d)) fun tok h v => r.final (.o tok h v)

/-- What a slot has got so far: the tokens of a request, their count, the pool and the outputs for them. -/
inductive Served : Nat → (Nat → LayerToken R) → Nat → StatePool R → (Nat → Nat → Nat → R) → Prop
  | start (slot : Nat) (xs : Nat → LayerToken R) (pool : StatePool R) (out : Nat → Nat → Nat → R) :
      Served slot xs 0 pool out
  | turn {slot count n : Nat} {xs : Nat → LayerToken R} {b : LayerBatch R} {pool pool' : StatePool R}
      {out o : Nat → Nat → Nat → R} (h : Served slot xs count pool out) (hb : b.Sound)
      (hf : L.Forward N b pool pool' o) (he : b.Extends slot xs count n) :
      Served slot xs (count + b.len n) pool' (b.outputs n count out o)
  | away {slot count : Nat} {xs : Nat → LayerToken R} {b : LayerBatch R} {pool pool' : StatePool R}
      {out o : Nat → Nat → Nat → R} (h : Served slot xs count pool out) (hb : b.Sound)
      (hf : L.Forward N b pool pool' o) (hslot : ∀ n < b.numSeqs, b.indices n ≠ slot)
      (htrack : ∀ x ∈ b.track, x.dst ≠ slot) : Served slot xs count pool' out
  | snapshot {slot count : Nat} {xs : Nat → LayerToken R} {b : LayerBatch R} {x : LayerTrack}
      {pool pool' : StatePool R} {out o : Nat → Nat → Nat → R} (h : Served slot xs count pool out)
      (hb : b.Sound) (hf : L.Forward N b pool pool' o) (he : b.Extends slot xs count x.seq)
      (hx : x ∈ b.track) :
      Served x.dst xs (count + x.chunk * chunkSize) pool' (b.outputs x.seq count out o)
  | copied {src count : Nat} {xs : Nat → LayerToken R} {pool : StatePool R} {out : Nat → Nat → Nat → R}
      (h : Served src xs count pool out) (dst : Nat) :
      Served dst xs count (Function.update pool dst (pool src)) out
  | beside {slot count : Nat} {xs : Nat → LayerToken R} {pool : StatePool R} {out : Nat → Nat → Nat → R}
      (h : Served slot xs count pool out) {dst : Nat} (src : Nat) (hne : dst ≠ slot) :
      Served slot xs count (Function.update pool dst (pool src)) out
  | shared {slot count : Nat} {xs ys : Nat → LayerToken R} {pool : StatePool R}
      {out : Nat → Nat → Nat → R} (h : Served slot xs count pool out) (hxs : ∀ i < count, xs i = ys i) :
      Served slot ys count pool out

/-- The reference over all tokens of a request. -/
def reference (xs : Nat → LayerToken R) (h count : Nat) : (Nat → Nat → R) × (Nat → Nat → R) :=
  recurrentGatedDeltaRule N L.keyDim count (fun i => (xs i).q (L.kHead h)) (fun i => (xs i).k (L.kHead h))
    (fun i => (xs i).v h) (fun i => (L.gateParams N (xs i) h).1) (fun i => (L.gateParams N (xs i) h).2)
    fun _ _ => 0

/-- A token, for one head and one row of the state. -/
def entry (h v : Nat) (x : LayerToken R) : Entry R Nat where
  key := referenceNorm N L.keyDim (x.k (L.kHead h))
  value := x.v h v
  decay := N.exp (L.gateParams N x h).1
  beta := (L.gateParams N x h).2

/-- A row of the state after the first tokens, from any state. -/
def state (h v : Nat) (S : Nat → R) (xs : Nat → LayerToken R) (count : Nat) : Nat → R :=
  run (Finset.range L.keyDim) S (fun i => L.entry N h v (xs i)) count

/-- What the query of a token finds. -/
def readout (h : Nat) (S : Nat → R) (x : LayerToken R) : R :=
  ∑ d ∈ Finset.range L.keyDim,
    S d * (referenceNorm N L.keyDim (x.q (L.kHead h)) d * (1 / N.sqrt L.keyDim))

variable {L} {N} {b : LayerBatch R} {pool pool' : StatePool R} {o : Nat → Nat → Nat → R} {n h v : Nat}

theorem softplus_nonneg [IsStrictOrderedRing R] (x : R) : 0 ≤ softplus N x := by
  unfold softplus
  split
  · next hlarge => exact (Nat.cast_nonneg 20).trans hlarge.le
  · have hone : N.exp 0 < 1 + N.exp x := by
      rw [Arith.exp_zero]
      exact lt_add_of_pos_right 1 (N.exp_pos x)
    have hlog : N.exp (N.log (1 + N.exp x)) = 1 + N.exp x :=
      N.exp_log _ (add_pos one_pos (N.exp_pos x))
    rw [← hlog] at hone
    exact (N.exp_strictMono.lt_iff_lt.1 hone).le

/-- The gates of a layer only forget. -/
theorem gateParams_nonpos [IsStrictOrderedRing R] (x : LayerToken R) (h : Nat) :
    (L.gateParams N x h).1 ≤ 0 := by
  unfold gateParams
  rw [neg_mul]
  exact neg_nonpos_of_nonneg (mul_nonneg (N.exp_pos _).le (softplus_nonneg _))

/-- The decode kernel's gates are those of the prefill. -/
theorem softplusX_eq (x : R) : (L.decodeArgs N b).softplusX N x = softplus N x := by
  unfold DecodeArgs.softplusX softplus decodeArgs
  dsimp only
  rw [one_mul]
  by_cases hlarge : ((20 : Nat) : R) < x
  · rw [if_neg (not_le.2 hlarge), if_pos hlarge]
  · rw [if_pos (not_lt.1 hlarge), if_neg hlarge, one_div_one, one_mul]

theorem prefill_sound [IsStrictOrderedRing R] (hb : b.Sound) (hdim : L.keyDim ≤ 256) {blockK blockV : Nat}
    (hK : 0 < blockK) (hV : 0 < blockV) : ((L.prefillArgs N b blockK blockV).normalized N).Sound where
  lt := hb.lt
  total := hb.total
  forget _ _ := gateParams_nonpos _ _
  slots := hb.slots
  keyDim := hdim
  blockK := hK
  blockV := hV

theorem decode_sound (hb : b.Sound) : (L.decodeArgs N b).Sound where
  lt := hb.lt
  slots m hm n hn _ heq := hb.slots m hm n hn (Int.ofNat_inj.1 heq)

theorem prefill_entry {blockK blockV : Nat} : ((L.prefillArgs N b blockK blockV).normalized N).entry N n h v =
    fun i => L.entry N h v (b.tokens (b.bos n + i)) := by
  ext i
  unfold entry
  rw [referenceNorm_eq]
  rfl

theorem prefill_recurrence {blockK blockV : Nat} (count : Nat) :
    ((L.prefillArgs N b blockK blockV).normalized N).recurrence N pool n h v count =
      L.state N h v (pool (b.indices n) h v) (fun i => b.tokens (b.bos n + i)) count := by
  unfold ChunkArgs.recurrence
  rw [prefill_entry]
  rfl

theorem decode_entry (i : Nat) {d : Nat} (hd : d ∈ Finset.range L.keyDim) :
    ((L.decodeArgs N b).entry N n h v i).key d = (L.entry N h v (b.tokens (b.bos n + i))).key d :=
  DecodeArgs.unit_eq _ (Finset.mem_range.1 hd)

theorem decode_run {S S' : Nat → R} (hS : ∀ d ∈ Finset.range L.keyDim, S d = S' d) (i : Nat) :
    ∀ d ∈ Finset.range L.keyDim, run (Finset.range L.keyDim) S ((L.decodeArgs N b).entry N n h v) i d =
      L.state N h v S' (fun i => b.tokens (b.bos n + i)) i d := by
  apply DeltaRule.run_congr hS
  intro i _
  refine ⟨fun d hd => decode_entry i hd, rfl, ?_, rfl⟩
  show N.exp (-N.exp (L.aLog h) * (L.decodeArgs N b).softplusX N _) = _
  rw [softplusX_eq]
  rfl

/-- The state that the decode kernel loads. -/
theorem decode_load {mem : DecodeArgs.Addr → R}
    (hpool : ∀ slot h v d, mem (.state slot h v d) = pool slot h v d) (hv : v < L.valueDim) :
    ∀ d ∈ Finset.range L.keyDim,
      (L.decodeArgs N b).loadState n h v mem d = pool (b.indices n) h v d := by
  intro d hd
  have hload : (L.decodeArgs N b).loadState n h v mem d = mem (.state (b.indices n) h v d) := by
    have hslot : (0 : Int) ≤ (L.decodeArgs N b).indices n := Int.natCast_nonneg _
    unfold DecodeArgs.loadState
    rw [if_pos hslot]
    unfold PagedAttention.load decodeArgs
    dsimp only
    rw [decide_eq_true (Finset.mem_range.1 hd), decide_eq_true hv, Int.toNat_natCast]
    rfl
  rw [hload, hpool]

theorem cleared_of_not_fresh (hfresh : ∀ slot, b.fresh slot = false) : b.cleared pool = pool := by
  ext slot h v d
  exact if_neg (by rw [hfresh]; decide)

/-! ## One forward -/

section Step

variable [IsStrictOrderedRing R] (hb : b.Sound) (hdim : L.keyDim ≤ 256) (hf : L.Forward N b pool pool' o)

include hb hdim hf

theorem Forward.state_eq (hn : n < b.numSeqs) (hh : h < L.numHeads) (hv : v < L.valueDim) {d : Nat}
    (hd : d < L.keyDim) : pool' (b.indices n) h v d =
      L.state N h v (b.cleared pool (b.indices n) h v) (fun i => b.tokens (b.bos n + i)) (b.len n) d := by
  cases hf with
  | prefill hK hV f =>
      rw [LayerBatch.tracked_of_ne (fun x hx => (hb.apart x hx n hn).symm), ← prefill_recurrence]
      exact f.pool_eq (prefill_sound hb hdim hK hV) hn hh hv hd
  | @decode mem hpool hfresh htrack r =>
      have hslot : (0 : Int) ≤ (L.decodeArgs N b).indices n := Int.natCast_nonneg _
      have hfinal := (decode_sound hb).final_state r hn hh hv hd hslot
      rw [cleared_of_not_fresh hfresh]
      refine hfinal.trans ?_
      rw [DecodeArgs.stateAt_eq hv]
      exact decode_run (decode_load hpool hv) _ d (Finset.mem_range.2 hd)

theorem Forward.out_eq (hn : n < b.numSeqs) (hh : h < L.numHeads) (hv : v < L.valueDim) {r : Nat}
    (hr : r < b.len n) : o (b.bos n + r) h v =
      L.readout N h (L.state N h v (b.cleared pool (b.indices n) h v) (fun i => b.tokens (b.bos n + i))
        (r + 1)) (b.tokens (b.bos n + r)) := by
  cases hf with
  | @prefill blockK blockV hK hV f =>
      refine (f.o_eq (prefill_sound hb hdim hK hV) hn hh hv hr).trans ?_
      rw [prefill_recurrence, dot, Finset.sum_mul]
      apply Finset.sum_congr rfl
      intro d _
      rw [referenceNorm_eq]
      exact mul_assoc (G := R) _ _ _
  | @decode mem hpool hfresh htrack run =>
      rw [cleared_of_not_fresh hfresh]
      refine ((decode_sound hb).final_o run hn hh hv hr).trans ?_
      rw [DecodeArgs.outAt_eq hv]
      apply Finset.sum_congr rfl
      intro d hd
      have hunit := DecodeArgs.unit_eq (a := L.decodeArgs N b) (N := N)
        ((b.tokens (b.bos n + r)).q (L.kHead h)) (Finset.mem_range.1 hd)
      exact congrArg₂ (· * ·) (decode_run (decode_load hpool hv) _ d hd) (congrArg (· * _) hunit)

/-- A snapshot is the state before its chunk. -/
theorem Forward.track_eq {x : LayerTrack} (hx : x ∈ b.track) (hn : x.seq < b.numSeqs) (hh : h < L.numHeads)
    (hv : v < L.valueDim) {d : Nat} (hd : d < L.keyDim) : pool' x.dst h v d =
      L.state N h v (b.cleared pool (b.indices x.seq) h v) (fun i => b.tokens (b.bos x.seq + i))
        (x.chunk * chunkSize) d := by
  cases hf with
  | prefill hK hV f =>
      rw [LayerBatch.tracked_dst hb hx, ← prefill_recurrence]
      exact f.h_eq (prefill_sound hb hdim hK hV) hn hh hv (hb.inChunk x hx) hd
  | decode hpool hfresh htrack r =>
      rw [htrack] at hx
      cases hx

/-- A slot that the batch does not name keeps its state. -/
theorem Forward.other {slot : Nat} (hslot : ∀ n < b.numSeqs, b.indices n ≠ slot)
    (htrack : ∀ x ∈ b.track, x.dst ≠ slot) (h v d : Nat) : pool' slot h v d = pool slot h v d := by
  have hkept : b.cleared pool slot h v d = pool slot h v d := if_neg (by rw [hb.fresh slot hslot]; decide)
  cases hf with
  | prefill hK hV f =>
      rw [LayerBatch.tracked_of_ne htrack, ← hkept, ← f.hPool slot h v d]
      exact (prefill_sound hb hdim hK hV).final_other f.hRun hslot h v d
  | decode hpool hfresh hnone r =>
      rw [← hpool slot h v d]
      exact (decode_sound hb).final_other r (fun n hn heq => hslot n hn (Int.ofNat_inj.1 heq)) h v d

end Step

/-! ## All forwards -/

theorem reference_state (xs : Nat → LayerToken R) (h count d v : Nat) :
    (L.reference N xs h count).2 d v = L.state N h v (fun _ => 0) xs count d := referenceState_eq ..

theorem reference_out (xs : Nat → LayerToken R) (h count i v : Nat) :
    (L.reference N xs h count).1 i v =
      L.readout N h (L.state N h v (fun _ => 0) xs (i + 1)) (xs i) := by
  unfold reference recurrentGatedDeltaRule readout
  dsimp only
  apply Finset.sum_congr rfl
  intro d _
  exact congrArg (· * _) (reference_state xs h (i + 1) d v)

/-- A state depends on the tokens so far only. -/
theorem state_congr {S S' : Nat → R} {xs ys : Nat → LayerToken R} {count : Nat}
    (hS : ∀ d ∈ Finset.range L.keyDim, S d = S' d) (hxs : ∀ i < count, xs i = ys i) :
    ∀ d ∈ Finset.range L.keyDim, L.state N h v S xs count d = L.state N h v S' ys count d := by
  apply DeltaRule.run_congr hS
  intro i hi
  rw [hxs i hi]
  exact ⟨fun _ _ => rfl, rfl, rfl, rfl⟩

theorem readout_congr {S S' : Nat → R} (hS : ∀ d ∈ Finset.range L.keyDim, S d = S' d)
    (x : LayerToken R) : L.readout N h S x = L.readout N h S' x :=
  Finset.sum_congr rfl fun d hd => by rw [hS d hd]

section Extends

variable {slot count : Nat} {xs : Nat → LayerToken R} (he : b.Extends slot xs count n)
  (hpool : 0 < count → ∀ d < L.keyDim, pool slot h v d = L.state N h v (fun _ => 0) xs count d)

include he hpool

/-- A forward starts from the state of the tokens before it. -/
theorem extends_state {m : Nat} (hm : m ≤ b.len n) : ∀ d ∈ Finset.range L.keyDim,
    L.state N h v (b.cleared pool (b.indices n) h v) (fun i => b.tokens (b.bos n + i)) m d =
      L.state N h v (fun _ => 0) xs (count + m) d := by
  have hstart : ∀ d ∈ Finset.range L.keyDim,
      b.cleared pool (b.indices n) h v d = L.state N h v (fun _ => 0) xs count d := by
    intro d hd
    unfold LayerBatch.cleared
    rw [he.slot_eq, he.fresh]
    by_cases hzero : count = 0
    · rw [decide_eq_true hzero, if_pos rfl, hzero]
      rfl
    · rw [decide_eq_false hzero, if_neg Bool.false_ne_true]
      exact hpool (Nat.pos_of_ne_zero hzero) d (Finset.mem_range.1 hd)
  have hadd : L.state N h v (fun _ => 0) xs (count + m) =
      L.state N h v (L.state N h v (fun _ => 0) xs count) (fun i => xs (count + i)) m :=
    DeltaRule.run_add _ _ _ _
  rw [hadd]
  exact state_congr hstart fun i hi => he.tokens i (hi.trans_le hm)

theorem extends_outputs [IsStrictOrderedRing R] (hb : b.Sound) (hdim : L.keyDim ≤ 256)
    (hf : L.Forward N b pool pool' o) (hh : h < L.numHeads) (hv : v < L.valueDim)
    {out : Nat → Nat → Nat → R}
    (hout : ∀ i < count, out i h v = L.readout N h (L.state N h v (fun _ => 0) xs (i + 1)) (xs i)) :
    ∀ i < count + b.len n, b.outputs n count out o i h v =
      L.readout N h (L.state N h v (fun _ => 0) xs (i + 1)) (xs i) := by
  intro i hi
  unfold LayerBatch.outputs
  by_cases hold : i < count
  · rw [if_pos hold]
    exact hout i hold
  · have hplace : count + (i - count) = i := Nat.add_sub_cancel' (not_lt.1 hold)
    have hr : i - count < b.len n := by omega
    have hend : count + (i - count + 1) = i + 1 := by omega
    rw [if_neg hold, hf.out_eq hb hdim he.lt hh hv hr, he.tokens _ hr, hplace,
      readout_congr (extends_state he hpool hr), hend]

end Extends

/-- A layer with one head and one column. -/
def sampleLayer : GatedLayer ℝ where
  numHeads := 1
  numKHeads := 1
  keyDim := 1
  valueDim := 1
  aLog _ := 0
  dtBias _ := 0

def sampleToken : LayerToken ℝ where
  q _ _ := 1
  k _ _ := 1
  v _ _ := 1
  a _ := 1
  b _ := 1

/-- Tokens of the request in slot 0. -/
def sampleBatch (len : Nat) (fresh : Bool) : LayerBatch ℝ where
  numSeqs := 1
  cuSeqlens n := len * n
  tokens _ := sampleToken
  totalTokens := len
  indices n := n
  fresh slot := decide (slot = 0) && fresh
  track := []

theorem sampleBatch_sound {len : Nat} (hlen : 0 < len) (fresh : Bool) : (sampleBatch len fresh).Sound where
  lt n _ := Nat.mul_lt_mul_of_pos_left (Nat.lt_succ_self n) hlen
  total n hn := by
    have hzero : n = 0 := Nat.lt_one_iff.1 hn
    rw [hzero]
    show len * (0 + 1) - len * 0 ≤ len
    omega
  slots _ _ _ _ heq := heq
  fresh slot hslot := by
    have hne : slot ≠ 0 := fun hzero => hslot 0 Nat.one_pos hzero.symm
    show (decide (slot = 0) && fresh) = false
    rw [decide_eq_false hne, Bool.false_and]
  inChunk _ hx := absurd hx List.not_mem_nil
  apart _ hx := absurd hx List.not_mem_nil
  dst_inj _ hx := absurd hx List.not_mem_nil

/-- The request in slot 0 is the batch's only one. -/
theorem sampleBatch_extends (len : Nat) (fresh : Bool) {count : Nat} (hfresh : fresh = decide (count = 0)) :
    (sampleBatch len fresh).Extends 0 (fun _ => sampleToken) count 0 where
  lt := Nat.one_pos
  slot_eq := rfl
  tokens _ _ := rfl
  fresh := hfresh

end GatedLayer

end GatedDelta

end FreeToken
