import Mathlib.Algebra.BigOperators.Ring.List
import Mathlib.Algebra.Ring.Nat
import FreeToken.Checkpoint.FtwWriter

/-!
# Reading a tensor back

The jobs of a read carry slices of the region to their place in the buffer and leave no block out, so
the buffer ends as the padded tensor, in whatever order a pool runs them.
-/

set_option autoImplicit false

namespace FreeToken

namespace Ftw

open Region

/-! ## Monadic loops that do not fail -/

theorem mapM_ok {α β ε : Type} (g : α → β) (xs : List α) :
    xs.mapM (fun x => (.ok (g x) : Except ε β)) = .ok (xs.map g) := List.mapM_pure

theorem forM_ok {α ε : Type} {f : α → Except ε PUnit} :
    ∀ {xs : List α}, (∀ x ∈ xs, f x = .ok ⟨⟩) → xs.forM f = .ok ⟨⟩
  | [], _ => rfl
  | x :: xs, h => by
      show (f x >>= fun _ => xs.forM f) = _
      rw [h x List.mem_cons_self]
      exact forM_ok fun y hy => h y (List.mem_cons_of_mem x hy)

/-! ## Pieces -/

namespace Reader

variable {shards : List Shard} {off n start dest chunk : Nat} {p j : Piece}

/-- `n` bytes of the region from `off` on are wanted; the piece is some of them, inside a shard. -/
structure PieceOf (shards : List Shard) (off n : Nat) (p : Piece) : Prop where
  shard : ∃ s ∈ shards, p.file = s.file ∧ s.globalOff + p.fileOff = off + p.destOff ∧
    p.fileOff + p.length ≤ s.nbytes
  file_mod : p.fileOff % align = 0
  dest_mod : p.destOff % align = 0
  le : p.destOff + p.length ≤ n

theorem PieceOf.mono {more : List Shard} (h : PieceOf shards off n p) (hsub : shards ⊆ more) :
    PieceOf more off n p := by
  obtain ⟨s, hs, hfacts⟩ := h.shard
  exact ⟨⟨s, hsub hs, hfacts⟩, h.file_mod, h.dest_mod, h.le⟩

/-- `dest` bytes are dealt with, `off + dest` is where the next ones are. -/
theorem piecesLoop_spec : ∀ {shards : List Shard} {start dest : Nat},
    Laid Shard.globalOff Shard.nbytes start shards →
    (∀ s ∈ shards, s.globalOff % align = 0 ∧ s.nbytes % align = 0) → dest ≤ n →
    off + n ≤ start + total Shard.nbytes shards →
    (dest < n → start ≤ off + dest ∧ (off + dest) % align = 0 ∧ dest % align = 0) →
    ∃ ps, piecesLoop shards (off + dest) dest (n - dest) = .ok ps ∧
      (∀ p ∈ ps, PieceOf shards off n p) ∧
      ∀ i, dest ≤ i → i < n → ∃ p ∈ ps, p.destOff ≤ i ∧ i < p.destOff + p.length
  | [], start, dest, _, _, hle, htotal, hnext => by
      rw [total_nil] at htotal
      have hdone : n - dest = 0 := by
        by_contra hmore
        have := (hnext (by omega)).1
        omega
      refine ⟨[], by rw [piecesLoop, if_pos hdone], fun p hp => absurd hp List.not_mem_nil, ?_⟩
      intro i hi hin
      omega
  | sh :: rest, start, dest, hlaid, hblocks, hle, htotal, hnext => by
      rw [total_cons] at htotal
      have hstart : sh.globalOff = start := hlaid.1
      have hsh := hblocks sh List.mem_cons_self
      have hrest : ∀ s ∈ rest, s.globalOff % align = 0 ∧ s.nbytes % align = 0 :=
        fun s hs => hblocks s (List.mem_cons_of_mem sh hs)
      by_cases hskip : sh.globalOff + sh.nbytes ≤ off + dest ∨ n - dest = 0
      · have hnext' : dest < n → start + sh.nbytes ≤ off + dest ∧ (off + dest) % align = 0 ∧
            dest % align = 0 := by
          intro hlt
          refine ⟨?_, (hnext hlt).2⟩
          omega
        obtain ⟨ps, hps, hof, hcov⟩ := piecesLoop_spec hlaid.2 hrest hle (by omega) hnext'
        refine ⟨ps, ?_, fun p hp => (hof p hp).mono (List.subset_cons_self _ _), hcov⟩
        rw [piecesLoop, if_pos hskip, hps]
      · have hlt : dest < n := by omega
        obtain ⟨hge, hmod, hdest⟩ := hnext hlt
        have htake : min (n - dest) (sh.globalOff + sh.nbytes - (off + dest)) ≤ n - dest :=
          Nat.min_le_left _ _
        have hroom : min (n - dest) (sh.globalOff + sh.nbytes - (off + dest)) ≤
            sh.globalOff + sh.nbytes - (off + dest) := Nat.min_le_right _ _
        have hsplit : min (n - dest) (sh.globalOff + sh.nbytes - (off + dest)) = n - dest ∨
            min (n - dest) (sh.globalOff + sh.nbytes - (off + dest)) =
              sh.globalOff + sh.nbytes - (off + dest) := by omega
        revert htake hroom hsplit
        generalize htake_def : min (n - dest) (sh.globalOff + sh.nbytes - (off + dest)) = take
        intro htake hroom hsplit
        -- either the rest of the tensor is taken, or the rest of the shard
        have hnext' : dest + take < n → start + sh.nbytes ≤ off + (dest + take) ∧
            (off + (dest + take)) % align = 0 ∧ (dest + take) % align = 0 := by
          intro hmore
          have hend : off + (dest + take) = sh.globalOff + sh.nbytes := by omega
          refine ⟨by omega, ?_, ?_⟩
          · rw [hend]
            have h₁ := hsh.1
            have h₂ := hsh.2
            unfold align at *
            omega
          · have h₁ := hsh.1
            have h₂ := hsh.2
            unfold align at *
            omega
        obtain ⟨ps, hps, hof, hcov⟩ :=
          piecesLoop_spec hlaid.2 hrest (by omega) (by omega) hnext'
        refine ⟨⟨sh.file, off + dest - sh.globalOff, dest, take⟩ :: ps, ?_, ?_, ?_⟩
        · rw [piecesLoop, if_neg hskip, if_neg (by omega), htake_def]
          rw [← Nat.add_assoc, ← Nat.sub_sub] at hps
          show (piecesLoop rest (off + dest + take) (dest + take) (n - dest - take) >>= _) = _
          rw [hps]
          rfl
        · intro p hp
          rcases List.mem_cons.mp hp with rfl | hp
          · refine ⟨⟨sh, List.mem_cons_self, rfl, ?_, ?_⟩, ?_, hdest, ?_⟩
            · show sh.globalOff + (off + dest - sh.globalOff) = off + dest
              omega
            · show off + dest - sh.globalOff + take ≤ sh.nbytes
              omega
            · show (off + dest - sh.globalOff) % align = 0
              have h₁ := hsh.1
              unfold align at *
              omega
            · show dest + take ≤ n
              omega
          · exact (hof p hp).mono (List.subset_cons_self _ _)
        · intro i hi hin
          by_cases hfirst : i < dest + take
          · exact ⟨_, List.mem_cons_self, hi, hfirst⟩
          · obtain ⟨p, hp, hpi⟩ := hcov i (by omega) hin
            exact ⟨p, List.mem_cons_of_mem _ hp, hpi⟩

/-- A read of whole blocks that starts at one, inside a shard and inside the buffer. -/
structure JobOf (shards : List Shard) (off n : Nat) (j : Piece) : Prop extends
    PieceOf shards off n j where
  length_mod : j.length % align = 0
  pos : 0 < j.length

/-- The reads of a piece; `range` has a step. -/
def chunkList (chunk : Nat) (p : Piece) : List Piece :=
  ((List.range ((alignUp p.length + chunk - 1) / chunk)).map (· * chunk)).map fun c =>
    ⟨p.file, p.fileOff + c, p.destOff + c, min chunk (alignUp p.length - c)⟩

theorem chunks_eq (hchunk : 0 < chunk) (p : Piece) : chunks chunk p = .ok (chunkList chunk p) := by
  have hrange : ∀ stop, pyRange stop chunk =
      .ok ((List.range ((stop + chunk - 1) / chunk)).map (· * chunk)) :=
    fun stop => if_neg (Nat.ne_of_gt hchunk)
  unfold chunks
  simp only [hrange]
  rfl

theorem mem_chunkList (hchunk : 0 < chunk) (p : Piece) :
    j ∈ chunkList chunk p ↔ ∃ k, k * chunk < alignUp p.length ∧
      j = ⟨p.file, p.fileOff + k * chunk, p.destOff + k * chunk,
        min chunk (alignUp p.length - k * chunk)⟩ := by
  have hrange : ∀ k, k < (alignUp p.length + chunk - 1) / chunk ↔ k * chunk < alignUp p.length := by
    intro k
    rw [Nat.lt_iff_add_one_le, Nat.le_div_iff_mul_le hchunk, Nat.add_mul, Nat.one_mul]
    omega
  unfold chunkList
  rw [List.map_map, List.mem_map]
  constructor
  · rintro ⟨k, hk, rfl⟩
    exact ⟨k, (hrange k).mp (List.mem_range.mp hk), rfl⟩
  · rintro ⟨k, hk, rfl⟩
    exact ⟨k, List.mem_range.mpr ((hrange k).mpr hk), rfl⟩

theorem mul_chunk_mod (hblock : chunk % align = 0) (k : Nat) : k * chunk % align = 0 := by
  rw [Nat.mul_mod, hblock, Nat.mul_zero, Nat.zero_mod]

/-- Rounded up, a piece stays in its shard and in the rounded buffer. -/
theorem PieceOf.room (h : PieceOf shards off n p)
    (hblocks : ∀ s ∈ shards, s.globalOff % align = 0 ∧ s.nbytes % align = 0) :
    (∃ s ∈ shards, p.file = s.file ∧ s.globalOff + p.fileOff = off + p.destOff ∧
      p.fileOff + alignUp p.length ≤ s.nbytes) ∧ p.destOff + alignUp p.length ≤ alignUp n := by
  obtain ⟨s, hs, hfile, heq, hle⟩ := h.shard
  constructor
  · refine ⟨s, hs, hfile, heq, ?_⟩
    rw [← alignUp_add h.file_mod]
    exact alignUp_le (hblocks s hs).2 hle
  · rw [← alignUp_add h.dest_mod]
    apply alignUp_le (alignUp_mod n)
    exact Nat.le_trans h.le (le_alignUp n)

theorem PieceOf.jobs (hchunk : 0 < chunk) (hblock : chunk % align = 0)
    (hblocks : ∀ s ∈ shards, s.globalOff % align = 0 ∧ s.nbytes % align = 0)
    (h : PieceOf shards off n p) (hj : j ∈ chunkList chunk p) :
    JobOf shards off (alignUp n) j := by
  obtain ⟨k, hk, rfl⟩ := (mem_chunkList hchunk p).mp hj
  obtain ⟨⟨s, hs, hfile, heq, hle⟩, hdest⟩ := h.room hblocks
  have hmul := mul_chunk_mod hblock k
  have hfile_mod := h.file_mod
  have hdest_mod := h.dest_mod
  have hlen_mod := alignUp_mod p.length
  refine ⟨⟨⟨s, hs, hfile, ?_, ?_⟩, ?_, ?_, ?_⟩, ?_, ?_⟩
  · show s.globalOff + (p.fileOff + k * chunk) = off + (p.destOff + k * chunk)
    omega
  · show p.fileOff + k * chunk + min chunk (alignUp p.length - k * chunk) ≤ s.nbytes
    omega
  · show (p.fileOff + k * chunk) % align = 0
    unfold align at *
    omega
  · show (p.destOff + k * chunk) % align = 0
    unfold align at *
    omega
  · show p.destOff + k * chunk + min chunk (alignUp p.length - k * chunk) ≤ alignUp n
    omega
  · show min chunk (alignUp p.length - k * chunk) % align = 0
    unfold align at *
    omega
  · show 0 < min chunk (alignUp p.length - k * chunk)
    omega

/-- A byte of a rounded piece is read by one of its jobs. -/
theorem exists_chunk (hchunk : 0 < chunk) (p : Piece) {i : Nat} (hl : p.destOff ≤ i)
    (hr : i < p.destOff + alignUp p.length) :
    ∃ j ∈ chunkList chunk p, j.destOff ≤ i ∧ i < j.destOff + j.length := by
  have hdiv := Nat.div_add_mod' (i - p.destOff) chunk
  have hmod := Nat.mod_lt (i - p.destOff) hchunk
  refine ⟨_, (mem_chunkList hchunk p).mpr ⟨(i - p.destOff) / chunk, by omega, rfl⟩, ?_, ?_⟩
  · show p.destOff + (i - p.destOff) / chunk * chunk ≤ i
    omega
  · show i < p.destOff + (i - p.destOff) / chunk * chunk +
      min chunk (alignUp p.length - (i - p.destOff) / chunk * chunk)
    omega

variable {r : Reader} {files : String → Option Bytes} {region : Bytes} {e : Entry}

theorem jobs_spec (hchunk : 0 < chunk) (hblock : chunk % align = 0)
    (hstored : Stored r.shards files region) (hoff : e.globalOff % align = 0)
    (hle : e.globalOff + alignUp e.nbytes ≤ region.length) :
    ∃ js, r.jobs chunk e = .ok js ∧
      (∀ j ∈ js, JobOf r.shards e.globalOff (alignUp e.nbytes) j) ∧
      ∀ i < alignUp e.nbytes, ∃ j ∈ js, j.destOff ≤ i ∧ i < j.destOff + j.length := by
  have hup := le_alignUp e.nbytes
  have hnext : 0 < e.nbytes → 0 ≤ e.globalOff + 0 ∧ (e.globalOff + 0) % align = 0 ∧
      0 % align = 0 := fun _ => ⟨Nat.zero_le _, hoff, rfl⟩
  obtain ⟨ps, hps, hof, hcov⟩ := piecesLoop_spec hstored.laid hstored.blocks (Nat.zero_le e.nbytes)
    (by rw [hstored.total]; omega) hnext
  refine ⟨(ps.map (chunkList chunk)).flatten, ?_, ?_, ?_⟩
  · unfold Reader.jobs pieces
    rw [show piecesLoop r.shards e.globalOff 0 e.nbytes = .ok ps from hps]
    show (ps.mapM (chunks chunk) >>= fun js => pure js.flatten) = _
    rw [show chunks chunk = fun p => .ok (chunkList chunk p) from
      funext fun p => chunks_eq hchunk p, mapM_ok]
    rfl
  · intro j hj
    obtain ⟨js, hjs, hj⟩ := List.mem_flatten.mp hj
    obtain ⟨p, hp, rfl⟩ := List.mem_map.mp hjs
    exact (hof p hp).jobs hchunk hblock hstored.blocks hj
  · intro i hi
    -- the piece that holds the first byte of the block of `i`
    have hstart : i / align * align < e.nbytes := by
      unfold alignUp at hi
      unfold align at *
      omega
    obtain ⟨p, hp, hl, hr⟩ := hcov (i / align * align) (Nat.zero_le _) hstart
    have hdest := (hof p hp).dest_mod
    have hin : i < p.destOff + alignUp p.length := by
      unfold alignUp
      unfold align at *
      omega
    have hle' : p.destOff ≤ i := Nat.le_trans hl (Nat.div_mul_le_self i align)
    obtain ⟨j, hj, hji⟩ := exists_chunk hchunk p hle' hin
    exact ⟨j, List.mem_flatten.mpr ⟨_, List.mem_map.mpr ⟨p, hp, rfl⟩, hj⟩, hji⟩

/-! ## Reads -/

/-- The loop of positional reads goes on until the job is done; short reads end at blocks. -/
theorem preadLoop_spec (io : Preadv) {bytes : Bytes} (hroom : j.fileOff + j.length ≤ bytes.length)
    (hfile : j.fileOff % align = 0) (hdest : j.destOff % align = 0) (hlen : j.length % align = 0) :
    ∀ (fuel : Nat) {got : Bytes}, j.length - got.length ≤ fuel → got.length ≤ j.length →
      got.length % align = 0 → got = slice bytes j.fileOff got.length →
      preadLoop io j bytes fuel got = .ok (slice bytes j.fileOff j.length)
  | 0, got, hfuel, hle, _, hgot => by
      have hdone : got.length = j.length := by omega
      rw [preadLoop, ← hdone, ← hgot]
  | fuel + 1, got, hfuel, hle, hmod, hgot => by
      rw [preadLoop]
      by_cases hlt : got.length < j.length
      · have hthere : (slice bytes (j.fileOff + got.length) (j.length - got.length)).length =
            j.length - got.length := length_slice (by omega)
        have hle' := io.got_le j.file (j.fileOff + got.length) (j.length - got.length)
        have hpos := io.got_pos j.file (j.fileOff + got.length) (j.length - got.length) (by omega)
        have hblock := io.got_block j.file (j.fileOff + got.length) (j.length - got.length)
        revert hle' hpos hblock
        rw [if_pos hlt]
        simp only [hthere]
        generalize io.got j.file (j.fileOff + got.length) (j.length - got.length) = m
        intro hle' hpos hblock
        have hblocks : (j.fileOff + got.length) % align = 0 ∧ (j.destOff + got.length) % align = 0 ∧
            (j.length - got.length) % align = 0 := by
          unfold align at *
          omega
        rw [if_pos hblocks, if_neg (by omega)]
        have hlen' : (got ++ (slice bytes (j.fileOff + got.length)
            (j.length - got.length)).take m).length = got.length + m := by
          rw [List.length_append, List.length_take, hthere]
          omega
        apply preadLoop_spec io hroom hfile hdest hlen
        · omega
        · omega
        · rw [hlen']
          unfold align at *
          omega
        · rw [hlen']
          conv_lhs => rw [hgot]
          apply List.ext_getElem?
          intro i
          have hgl : (slice bytes j.fileOff got.length).length = got.length := by rw [← hgot]
          rw [getElem?_slice]
          by_cases hi : i < got.length
          · rw [List.getElem?_append_left (by omega), getElem?_slice, if_pos hi, if_pos (by omega)]
          · rw [List.getElem?_append_right (by omega), hgl, List.getElem?_take, getElem?_slice]
            by_cases him : i - got.length < m
            · rw [if_pos him, if_pos (by omega), if_pos (by omega)]
              congr 1
              omega
            · rw [if_neg him, if_neg (by omega)]
      · have hdone : got.length = j.length := by omega
        rw [if_neg hlt, ← hdone, ← hgot]

variable {m : Nat} {buf : Bytes}

theorem touch_spec (hstored : Stored shards r.files region) (hj : JobOf shards off m j)
    (mode : Mode) :
    ∃ s ∈ shards, r.touch mode j.file = .ok (slice region s.globalOff s.nbytes) ∧
      s.globalOff + j.fileOff = off + j.destOff ∧ j.fileOff + j.length ≤ s.nbytes := by
  obtain ⟨s, hs, hfile, heq, hle⟩ := hj.shard
  refine ⟨s, hs, ?_, heq, hle⟩
  have hpos := hj.pos
  have hlen := length_slice (hstored.bounds hs)
  have hne : ¬ (mode = .mmap ∧ slice region s.globalOff s.nbytes = []) := by
    rintro ⟨-, hnil⟩
    rw [hnil, List.length_nil] at hlen
    omega
  unfold touch
  rw [hfile, hstored.files s hs]
  exact if_neg hne

/-- A job carries a slice of the region to its place, either way. -/
theorem rd_spec (hstored : Stored shards r.files region) (hj : JobOf shards off m j)
    (hbuf : buf.length = m) (mode : Mode) (io : Preadv) :
    r.rd mode io buf j = .ok (paste buf j.destOff (slice region (off + j.destOff) j.length)) := by
  obtain ⟨s, hs, htouch, heq, hle⟩ := touch_spec hstored hj mode
  have hslice : slice (slice region s.globalOff s.nbytes) j.fileOff j.length =
      slice region (off + j.destOff) j.length := by
    rw [slice_slice _ _ hle, heq]
  have hlen := length_slice (hstored.bounds hs)
  unfold rd
  rw [htouch]
  cases mode with
  | direct =>
      show (preadLoop io j (slice region s.globalOff s.nbytes) j.length [] >>= _) = _
      rw [preadLoop_spec io (by omega) hj.file_mod hj.dest_mod hj.length_mod j.length (Nat.sub_le _ _)
        (Nat.zero_le _) rfl rfl, hslice]
      rfl
  | mmap =>
      have hdest : (slice buf j.destOff j.length).length = j.length := by
        apply length_slice
        rw [hbuf]
        exact hj.le
      have hsrc : (slice (slice region s.globalOff s.nbytes) j.fileOff j.length).length = j.length :=
        length_slice (by omega)
      show (if (slice (slice region s.globalOff s.nbytes) j.fileOff j.length).length =
        (slice buf j.destOff j.length).length then _ else _) = _
      rw [if_pos (hsrc.trans hdest.symm), hslice]
      rfl

theorem length_job_slice (hstored : Stored shards r.files region) (hj : JobOf shards off m j) :
    (slice region (off + j.destOff) j.length).length = j.length := by
  obtain ⟨s, hs, -, heq, hle⟩ := hj.shard
  have hbounds := hstored.bounds hs
  apply length_slice
  omega

theorem foldlM_rd (hstored : Stored shards r.files region) (mode : Mode) (io : Preadv) :
    ∀ {js : List Piece} {buf : Bytes}, (∀ j ∈ js, JobOf shards off m j) → buf.length = m →
      js.foldlM (r.rd mode io) buf = .ok ((js.map fun j =>
        (j.destOff, slice region (off + j.destOff) j.length)).foldl
          (fun d p => paste d p.1 p.2) buf)
  | [], _, _, _ => rfl
  | j :: js, buf, hjs, hbuf => by
      have hj := hjs j List.mem_cons_self
      rw [List.foldlM_cons, rd_spec hstored hj hbuf]
      apply foldlM_rd hstored mode io fun k hk => hjs k (List.mem_cons_of_mem j hk)
      rw [length_paste, hbuf]
      rw [length_job_slice hstored hj, hbuf]
      exact hj.le

/-- The buffer ends as the region from the tensor's start on, up to a block. -/
theorem readInto_spec (hchunk : 0 < chunk) (hblock : chunk % align = 0)
    (hstored : Stored r.shards r.files region) (hoff : e.globalOff % align = 0)
    (hle : e.globalOff + alignUp e.nbytes ≤ region.length) (hbuf : buf.length = alignUp e.nbytes)
    (mode : Mode) (io : Preadv) (pool : Pool) :
    r.readInto mode io pool chunk buf e = .ok (slice region e.globalOff (alignUp e.nbytes)) := by
  obtain ⟨js, hjs, hjob, hcov⟩ := jobs_spec hchunk hblock hstored hoff hle
  have hrun : ∀ order : List Piece, order.Perm js →
      order.foldlM (r.rd mode io) buf = .ok (slice region e.globalOff (alignUp e.nbytes)) := by
    intro order hperm
    have hjob' : ∀ j ∈ order, JobOf r.shards e.globalOff (alignUp e.nbytes) j :=
      fun j hj => hjob j (hperm.mem_iff.mp hj)
    rw [foldlM_rd hstored mode io hjob' hbuf]
    congr 1
    have hlen := length_slice hle
    apply foldl_paste
    · rw [hbuf, hlen]
    · intro p hp
      obtain ⟨j, hj, rfl⟩ := List.mem_map.mp hp
      have hlenj := length_job_slice hstored (hjob' j hj)
      have hin := (hjob' j hj).le
      refine ⟨?_, ?_⟩
      · rw [hlenj, hlen]
        exact hin
      · rw [hlenj, slice_slice _ _ hin]
    · intro i hi
      rw [hlen] at hi
      obtain ⟨j, hj, hji⟩ := hcov i hi
      have hj' := hperm.mem_iff.mpr hj
      refine .inl ⟨_, List.mem_map.mpr ⟨j, hj', rfl⟩, ?_⟩
      rw [length_job_slice hstored (hjob j hj)]
      exact hji
  have htouch : (js.forM fun j => do let _ ← r.touch mode j.file) = .ok ⟨⟩ := by
    apply forM_ok
    intro j hj
    obtain ⟨s, -, hs, -⟩ := touch_spec hstored (hjob j hj) mode
    rw [hs]
    rfl
  unfold readInto
  rw [hjs]
  show (js.forM (fun j => do let _ ← r.touch mode j.file) >>= fun _ =>
    if js.length ≤ 1 then js.foldlM (r.rd mode io) buf
    else (pool.order js).foldlM (r.rd mode io) buf) = _
  rw [htouch]
  show (if js.length ≤ 1 then js.foldlM (r.rd mode io) buf
    else (pool.order js).foldlM (r.rd mode io) buf) = _
  split
  · exact hrun js (.refl js)
  · exact hrun (pool.order js) (pool.perm js)

end Reader

/-! ## Tensors -/

variable {D : Type} {T : Dtypes D} {r : Reader} {e : Entry} {chunk : Nat} {c : Call T}

theorem take_padded (bytes : Bytes) : (padded bytes).take bytes.length = bytes := List.take_left

theorem HostTensor.bytes_nil_iff (t : HostTensor T) : t.bytes = [] ↔ 0 ∈ t.shape := by
  have hpos := T.elsize_pos t.dtype
  rw [← List.length_eq_zero_iff, t.size, Nat.mul_eq_zero, List.prod_eq_zero_iff]
  constructor
  · rintro (h | h)
    · exact h
    · omega
  · exact .inl

/-- The reader holds the padded bytes of the call where its entry says. -/
structure Placed (r : Reader) (c : Call T) (e : Entry) : Prop where
  entry : e = c.entry e.globalOff
  off_mod : e.globalOff % align = 0
  stored : ∃ region, Stored r.shards r.files region ∧
    e.globalOff + alignUp e.nbytes ≤ region.length ∧
    slice region e.globalOff (alignUp e.nbytes) = padded c.tensor.bytes

/-- What comes back for a call: a tensor without dimensions gets one. -/
def Call.returned (c : Call T) : HostTensor T where
  dtype := c.tensor.dtype
  shape := if c.tensor.shape = [] then [1] else c.tensor.shape
  bytes := c.tensor.bytes
  size := by
    rw [c.tensor.size]
    split
    · rename_i h
      rw [h]
      rfl
    · rfl

theorem returned_eq_iff (c : Call T) : c.returned = c.tensor ↔ c.tensor.shape ≠ [] := by
  constructor
  · intro h hnil
    have hshape := congrArg HostTensor.shape h
    rw [show c.returned.shape = [1] from if_pos hnil, hnil] at hshape
    cases hshape
  · intro h
    ext1
    · rfl
    · exact if_neg h
    · rfl

/-- The elements of a tensor in one dimension. -/
def HostTensor.flat (t : HostTensor T) : HostTensor T where
  dtype := t.dtype
  shape := [t.shape.prod]
  bytes := t.bytes
  size := by rw [List.prod_singleton, t.size]

theorem frombuffer_padded (t : HostTensor T) (h : t.shape.prod ≠ 0) :
    frombuffer T (padded t.bytes) t.dtype (t.bytes.length / T.elsize t.dtype) = .ok t.flat := by
  have hcount : t.bytes.length / T.elsize t.dtype = t.shape.prod := by
    rw [t.size, Nat.mul_div_cancel _ (T.elsize_pos t.dtype)]
  have hfits : t.shape.prod * T.elsize t.dtype ≤ (padded t.bytes).length := by
    rw [← t.size, length_padded]
    exact le_alignUp _
  unfold frombuffer HostTensor.flat
  rw [hcount, dif_pos hfits, if_neg h]
  simp only [← t.size, take_padded]

theorem view_flat (t : HostTensor T) : t.flat.view t.shape = .ok t := by
  have hprod : t.shape.prod = t.flat.shape.prod := List.prod_singleton.symm
  unfold HostTensor.view
  rw [dif_pos hprod]
  rfl

theorem readTensor_spec (hchunk : 0 < chunk) (hblock : chunk % align = 0) (h : Placed r c e)
    (mode : Mode) (io : Preadv) (pool : Pool) :
    readTensor T r mode io pool chunk e =
      if 0 ∈ c.tensor.shape then .error .invalidArgument else .ok c.returned := by
  obtain ⟨region, hstored, hle, hslice⟩ := h.stored
  have hnbytes : e.nbytes = c.tensor.bytes.length := by rw [h.entry, Call.entry]
  have hshape : e.shape = c.tensor.shape := by rw [h.entry, Call.entry]
  have hdtype : e.dtype = T.str c.tensor.dtype := by rw [h.entry, Call.entry]
  have hpos := T.elsize_pos c.tensor.dtype
  unfold readTensor transientBuffer
  by_cases hzero : 0 ∈ c.tensor.shape
  · -- an anonymous mapping of no bytes
    have hempty : alignUp e.nbytes = 0 := by
      rw [alignUp_eq_zero, hnbytes, (c.tensor.bytes_nil_iff).mpr hzero, List.length_nil]
    rw [if_pos hempty, if_pos hzero]
    rfl
  · have hne : c.tensor.bytes.length ≠ 0 := fun hnil =>
      hzero ((c.tensor.bytes_nil_iff).mp (List.length_eq_zero_iff.mp hnil))
    have hfull : alignUp e.nbytes ≠ 0 := by
      rw [Ne, alignUp_eq_zero, hnbytes]
      exact hne
    have hprod : c.tensor.shape.prod ≠ 0 := by
      intro hprod
      rw [c.tensor.size, hprod, Nat.zero_mul] at hne
      exact hne rfl
    have hbuffer : frombuffer T (padded c.tensor.bytes) c.tensor.dtype
        (e.nbytes / T.elsize c.tensor.dtype) = .ok c.tensor.flat := by
      rw [hnbytes]
      exact frombuffer_padded c.tensor hprod
    rw [if_neg hfull, if_neg hzero]
    show (r.readInto mode io pool chunk (List.replicate (alignUp e.nbytes) 0) e >>= _) = _
    rw [Reader.readInto_spec hchunk hblock hstored h.off_mod hle List.length_replicate, hslice]
    dsimp only [bind, Except.bind]
    rw [hdtype, T.ofStr_str]
    show (frombuffer T (padded c.tensor.bytes) c.tensor.dtype _ >>= _) = _
    rw [hbuffer, hshape]
    show (if c.tensor.shape ≠ [] then _ else _) = _
    by_cases hdims : c.tensor.shape = []
    · rw [if_neg (not_not_intro hdims)]
      show Except.ok _ = Except.ok _
      congr 1
      ext1
      · rfl
      · show [c.tensor.shape.prod] = if c.tensor.shape = [] then [1] else c.tensor.shape
        rw [if_pos hdims, hdims, List.prod_nil]
      · rfl
    · rw [if_pos hdims, view_flat, (returned_eq_iff c).mpr hdims]

/-- Everything comes back as it was iff no tensor has no dimensions and none has no elements. -/
theorem produce_iff (hchunk : 0 < chunk) (hblock : chunk % align = 0) (mode : Mode) (io : Preadv)
    (pool : Pool) {calls : List (Call T)} {es : List Entry}
    (h : List.Forall₂ (Placed r) calls es) :
    produce T r mode io pool chunk es = ⟨calls.map fun c => (c.name, c.tensor), none⟩ ↔
      ∀ c ∈ calls, c.tensor.shape ≠ [] ∧ 0 ∉ c.tensor.shape := by
  induction h with
  | nil => exact ⟨fun _ c hc => absurd hc List.not_mem_nil, fun _ => rfl⟩
  | @cons c e cs es hplaced _ ih =>
      have hname : e.name = c.name := by rw [hplaced.entry, Call.entry]
      rw [produce, readTensor_spec hchunk hblock hplaced, List.forall_mem_cons]
      by_cases hzero : 0 ∈ c.tensor.shape
      · rw [if_pos hzero]
        constructor
        · intro h
          exact absurd (congrArg Yielded.raised h) (by simp)
        · rintro ⟨⟨-, hpos⟩, -⟩
          exact absurd hzero hpos
      · rw [if_neg hzero]
        constructor
        · intro h
          have hitems := congrArg Yielded.items h
          have hraised := congrArg Yielded.raised h
          rw [List.map_cons, List.cons.injEq, Prod.mk.injEq] at hitems
          refine ⟨⟨(returned_eq_iff c).mp hitems.1.2, hzero⟩, ih.mp ?_⟩
          have hrest : (produce T r mode io pool chunk es).raised = none := hraised
          rw [← hitems.2, ← hrest]
        · rintro ⟨⟨hdims, -⟩, hrest⟩
          show Yielded.mk ((e.name, c.returned) :: (produce T r mode io pool chunk es).items)
            (produce T r mode io pool chunk es).raised = _
          rw [ih.mpr hrest, (returned_eq_iff c).mpr hdims, hname]
          rfl

/-- The calls of the kinds that are asked for; no kind asks for all. -/
def requested (kinds : List String) (calls : List (Call T)) : List (Call T) :=
  calls.filter fun c => kinds.isEmpty || kinds.contains c.kind

/-- The reader of a finished directory has the entries of the requested kinds at their places. -/
theorem Complete.reader {limit : Nat} {calls : List (Call T)} {d : Disk} (h : Complete limit calls d) :
    ∃ r, Reader.init d = .ok r ∧ r.files = d.files ∧
      ∀ kinds, List.Forall₂ (Placed r) (requested kinds calls) (r.entries kinds) := by
  obtain ⟨index, hindex, hformat, htensors, hstored, -⟩ := h.index
  have hsorted : index.shards.mergeSort (fun a b => decide (a.globalOff ≤ b.globalOff)) =
      index.shards := by
    apply List.mergeSort_of_pairwise
    apply hstored.laid.pairwise.imp
    intro a b hab
    exact decide_eq_true hab
  have hinit : Reader.init d = .ok ⟨index, d.files, index.shards⟩ := by
    unfold Reader.init
    rw [hindex]
    show (if index.format = formatTag then Except.ok (Reader.mk _ _ _) else _) = _
    rw [if_pos hformat, hsorted]
  refine ⟨_, hinit, rfl, fun kinds => ?_⟩
  show List.Forall₂ _ _ (index.tensors.filter _)
  rw [htensors]
  have hlayout := @layout_slice _ T [] rfl calls
  apply List.rel_filter (R := Placed ⟨index, d.files, index.shards⟩) _ (hlayout.imp ?_)
  · intro c e hplaced
    have hkind : e.kind = c.kind := by rw [hplaced.entry, Call.entry]
    show (kinds.isEmpty || kinds.contains c.kind) = true ↔
      (kinds.isEmpty || kinds.contains e.kind) = true
    rw [hkind]
  · rintro c e ⟨hentry, hmod, hle, hslice⟩
    exact ⟨hentry, hmod, ⟨region calls, hstored, hle, hslice⟩⟩

theorem Complete.read_iff {limit : Nat} {calls : List (Call T)} {d : Disk}
    (h : Complete limit calls d)
    (hchunk : 0 < chunk) (hblock : chunk % align = 0) (mode : Mode) (io : Preadv) (pool : Pool)
    (kinds : List String) :
    iterFtwWeights T mode io pool chunk kinds d =
        ⟨(requested kinds calls).map fun c => (c.name, c.tensor), none⟩ ↔
      ∀ c ∈ requested kinds calls, c.tensor.shape ≠ [] ∧ 0 ∉ c.tensor.shape := by
  obtain ⟨r, hinit, -, hentries⟩ := h.reader
  unfold iterFtwWeights
  rw [hinit]
  exact produce_iff hchunk hblock mode io pool (hentries kinds)

/-! ## The round trip -/

/-- The tensors of the requested kinds come back in writing order, with name, type, shape and bytes,
just when each has a dimension and an element. -/
theorem roundTrip_iff (T : Dtypes D) (limit chunk : Nat) (hlimit : 0 < limit)
    (hlimit_block : limit % align = 0) (hchunk : 0 < chunk) (hchunk_block : chunk % align = 0)
    (calls : List (Call T)) (d : Disk) (kinds : List String) (mode : Mode) (io : Preadv)
    (pool : Pool) :
    ∃ d', writeAll limit calls d = .ok d' ∧
      (iterFtwWeights T mode io pool chunk kinds d' =
          ⟨(requested kinds calls).map fun c => (c.name, c.tensor), none⟩ ↔
        ∀ c ∈ requested kinds calls, c.tensor.shape ≠ [] ∧ 0 ∉ c.tensor.shape) := by
  obtain ⟨d', hwrite, hcomplete⟩ := writeAll_spec hlimit hlimit_block calls d
  exact ⟨d', hwrite, hcomplete.read_iff hchunk hchunk_block mode io pool kinds⟩

inductive TorchDtype
  | float32 | float64 | float16 | bfloat16 | float8_e4m3fn | float8_e5m2 | uint8 | int8 | int16
  | int32 | int64 | bool
  deriving DecidableEq, Repr

namespace TorchDtype

def all : List TorchDtype :=
  [float32, float64, float16, bfloat16, float8_e4m3fn, float8_e5m2, uint8, int8, int16, int32, int64,
    bool]

def name : TorchDtype → String
  | float32 => "float32"
  | float64 => "float64"
  | float16 => "float16"
  | bfloat16 => "bfloat16"
  | float8_e4m3fn => "float8_e4m3fn"
  | float8_e5m2 => "float8_e5m2"
  | uint8 => "uint8"
  | int8 => "int8"
  | int16 => "int16"
  | int32 => "int32"
  | int64 => "int64"
  | bool => "bool"

def elementSize : TorchDtype → Nat
  | float8_e4m3fn | float8_e5m2 | uint8 | int8 | bool => 1
  | float16 | bfloat16 | int16 => 2
  | float32 | int32 => 4
  | float64 | int64 => 8

end TorchDtype

def torch : Dtypes TorchDtype where
  str := TorchDtype.name
  ofStr s := TorchDtype.all.find? fun d => d.name = s
  elsize := TorchDtype.elementSize
  ofStr_str := by
    intro d
    cases d <;> rfl
  elsize_pos := by
    intro d
    cases d <;> decide

def emptyDisk : Disk := ⟨fun _ => none, none, none⟩

def wholeReads : Preadv where
  got _ _ avail := avail
  got_le _ _ _ := Nat.le_refl _
  got_pos _ _ _ h := h
  got_block _ _ _ := .inr rfl

def inOrder : Pool := ⟨id, .refl⟩

/-- A scalar, as a learned scale is. -/
def scale : Call torch := ⟨"scale", ⟨.bfloat16, [], [128, 63], rfl⟩, "weight"⟩

def noRows : Call torch := ⟨"rows", ⟨.bfloat16, [0, 7], [], rfl⟩, "weight"⟩

def bias : Call torch := ⟨"bias", ⟨.bfloat16, [2], [128, 63, 0, 64], rfl⟩, "weight"⟩

theorem roundTrip_iff_bias :
    ∃ d', writeAll 4096 [bias] emptyDisk = .ok d' ∧
      (iterFtwWeights torch .direct wholeReads inOrder 8192 ["weight"] d' =
          ⟨(requested ["weight"] [bias]).map fun c => (c.name, c.tensor), none⟩ ↔
        ∀ c ∈ requested ["weight"] [bias], c.tensor.shape ≠ [] ∧ 0 ∉ c.tensor.shape) :=
  roundTrip_iff torch 4096 8192 (by decide) (by decide) (by decide) (by decide) [bias] emptyDisk
    ["weight"] .direct wholeReads inOrder

theorem Complete.not_returned {limit : Nat} {c : Call torch} {d : Disk} (h : Complete limit [c] d)
    (hkind : c.kind = "weight") (hshape : c.tensor.shape = [] ∨ 0 ∈ c.tensor.shape) (mode : Mode) :
    iterFtwWeights torch mode wholeReads inOrder 8192 ["weight"] d ≠ ⟨[(c.name, c.tensor)], none⟩ := by
  intro hread
  have hrequested : requested ["weight"] [c] = [c] := by
    simp [requested, hkind]
  have hiff := h.read_iff (by decide : 0 < 8192) (by decide) mode wholeReads inOrder ["weight"]
  rw [hrequested] at hiff
  have hgood := hiff.mp hread c (List.mem_singleton.mpr rfl)
  rcases hshape with hnil | hzero
  · exact hgood.1 hnil
  · exact hgood.2 hzero

/-- Neither a scalar nor a tensor of no elements comes back as it went in. -/
theorem scale_and_noRows_change :
    (∃ d', writeAll 4096 [scale] emptyDisk = .ok d' ∧
      iterFtwWeights torch .direct wholeReads inOrder 8192 ["weight"] d' ≠
        ⟨[("scale", scale.tensor)], none⟩) ∧
    ∃ d', writeAll 4096 [noRows] emptyDisk = .ok d' ∧
      iterFtwWeights torch .mmap wholeReads inOrder 8192 ["weight"] d' ≠
        ⟨[("rows", noRows.tensor)], none⟩ := by
  obtain ⟨d, hd, hcomplete⟩ := writeAll_spec (by decide : 0 < 4096) (by decide) [scale] emptyDisk
  obtain ⟨e, he, hcomplete'⟩ := writeAll_spec (by decide : 0 < 4096) (by decide) [noRows] emptyDisk
  refine ⟨⟨d, hd, ?_⟩, ⟨e, he, ?_⟩⟩
  · exact hcomplete.not_returned rfl (.inl rfl) .direct
  · exact hcomplete'.not_returned rfl (.inr List.mem_cons_self) .mmap

end Ftw

end FreeToken
