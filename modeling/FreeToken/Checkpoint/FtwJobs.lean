import FreeToken.Checkpoint.FtwReader

/-!
# The jobs of a read

The jobs follow each other in the buffer, so each byte of the rounded range is in one of them; offsets
and lengths are whole blocks, inside the file and inside the buffer.
-/

set_option autoImplicit false

namespace FreeToken

namespace Ftw

open Region

namespace Reader

variable {r : Reader} {shards : List Shard} {chunk : Nat} {region : Bytes} {e : Entry}

/-- Every job is legal for direct reads, and each byte of the rounded range is in one job. -/
structure LegalJobs (files : String → Option Bytes) (bufLen nbytes : Nat) (js : List Piece) : Prop where
  aligned : ∀ j ∈ js, j.fileOff % align = 0 ∧ j.destOff % align = 0 ∧ j.length % align = 0
  in_file : ∀ j ∈ js, ∃ bytes, files j.file = some bytes ∧ j.fileOff + j.length ≤ bytes.length
  in_buffer : ∀ j ∈ js, j.destOff + j.length ≤ bufLen
  once : ∀ i, (js.countP fun j => decide (j.destOff ≤ i ∧ i < j.destOff + j.length)) =
    if i < alignUp nbytes then 1 else 0

/-- In consecutive stripes a cell lies in one, or behind them all. -/
theorem countP_laid {i : Nat} : ∀ {start : Nat} {js : List Piece},
    Laid Piece.destOff Piece.length start js →
    (js.countP fun j => decide (j.destOff ≤ i ∧ i < j.destOff + j.length)) =
      if start ≤ i ∧ i < start + total Piece.length js then 1 else 0
  | start, [], _ => by
      rw [List.countP_nil, total_nil, if_neg (by omega)]
  | start, j :: js, h => by
      have hstart : j.destOff = start := h.1
      simp only [List.countP_cons, countP_laid h.2, total_cons, hstart, decide_eq_true_eq]
      by_cases hin : start ≤ i ∧ i < start + j.length
      · rw [if_pos hin, if_neg (by omega), if_pos (by omega)]
      · rw [if_neg hin, Nat.add_zero]
        by_cases hlater : start + j.length ≤ i ∧ i < start + j.length + total Piece.length js
        · rw [if_pos hlater, if_pos (by omega)]
        · rw [if_neg hlater, if_neg (by omega)]

theorem piecesLoop_done (pos dest : Nat) : ∀ shards : List Shard,
    piecesLoop shards pos dest 0 = .ok []
  | [] => rfl
  | sh :: rest => by
      unfold piecesLoop
      rw [if_pos (.inr rfl)]
      exact piecesLoop_done pos dest rest

/-- Rounded up, the pieces follow each other in the buffer: only the last does not end at a block. -/
theorem piecesLoop_laid : ∀ {shards : List Shard} {pos dest remaining : Nat} {ps : List Piece},
    (∀ s ∈ shards, s.globalOff % align = 0 ∧ s.nbytes % align = 0) →
    (remaining ≠ 0 → pos % align = 0) →
    piecesLoop shards pos dest remaining = .ok ps →
    Laid Piece.destOff (fun p => alignUp p.length) dest ps ∧
      total (fun p : Piece => alignUp p.length) ps = alignUp remaining
  | [], pos, dest, remaining, ps, _, _, hrun => by
      unfold piecesLoop at hrun
      by_cases hdone : remaining = 0
      · rw [if_pos hdone] at hrun
        rw [← Except.ok.inj hrun, hdone]
        exact ⟨trivial, rfl⟩
      · rw [if_neg hdone] at hrun
        cases hrun
  | sh :: rest, pos, dest, remaining, ps, hblocks, hpos, hrun => by
      have hrest : ∀ s ∈ rest, s.globalOff % align = 0 ∧ s.nbytes % align = 0 :=
        fun s hs => hblocks s (List.mem_cons_of_mem sh hs)
      have hsh := hblocks sh List.mem_cons_self
      unfold piecesLoop at hrun
      by_cases hskip : sh.globalOff + sh.nbytes ≤ pos ∨ remaining = 0
      · rw [if_pos hskip] at hrun
        exact piecesLoop_laid hrest hpos hrun
      · rw [if_neg hskip] at hrun
        by_cases hgap : pos < sh.globalOff
        · rw [if_pos hgap] at hrun
          cases hrun
        · rw [if_neg hgap] at hrun
          dsimp only at hrun
          have hmod := hpos (by omega)
          generalize htake : min remaining (sh.globalOff + sh.nbytes - pos) = take at hrun
          cases hmore : piecesLoop rest (pos + take) (dest + take) (remaining - take) with
          | error err =>
              rw [hmore] at hrun
              cases hrun
          | ok more =>
              rw [hmore] at hrun
              obtain rfl := Except.ok.inj hrun
              -- what is left starts at the next shard
              have hnext : remaining - take ≠ 0 → (pos + take) % align = 0 := by
                intro hleft
                have hend : pos + take = sh.globalOff + sh.nbytes := by omega
                rw [hend]
                unfold align at *
                omega
              obtain ⟨hlaid, htotal⟩ := piecesLoop_laid hrest hnext hmore
              rw [total_cons]
              by_cases hlast : remaining - take = 0
              · have hall : take = remaining := by omega
                rw [hlast, piecesLoop_done] at hmore
                obtain rfl := Except.ok.inj hmore
                exact ⟨⟨rfl, trivial⟩, by rw [total_nil, Nat.add_zero, hall]⟩
              · have htake_mod : take % align = 0 := by
                  have hend : pos + take = sh.globalOff + sh.nbytes := by omega
                  unfold align at *
                  omega
                have hup : alignUp take = take := alignUp_of_mod htake_mod
                have hsum : alignUp remaining = take + alignUp (remaining - take) := by
                  rw [← alignUp_add htake_mod]
                  congr 1
                  omega
                rw [hup, htotal, hsum]
                refine ⟨⟨rfl, ?_⟩, rfl⟩
                show Laid Piece.destOff (fun p => alignUp p.length) (dest + alignUp take) more
                rw [hup]
                exact hlaid

/-- The jobs of a piece follow each other over the rounded piece. -/
theorem chunkList_laid (hchunk : 0 < chunk) (p : Piece) :
    Laid Piece.destOff Piece.length p.destOff (chunkList chunk p) ∧
      total Piece.length (chunkList chunk p) = alignUp p.length := by
  generalize hr : alignUp p.length = rounded
  have hrange : ∀ k, k < (rounded + chunk - 1) / chunk ↔ k * chunk < rounded := by
    intro k
    rw [Nat.lt_iff_add_one_le, Nat.le_div_iff_mul_le hchunk, Nat.add_mul, Nat.one_mul]
    omega
  -- the first `k` jobs
  have hfirst : ∀ k ≤ (rounded + chunk - 1) / chunk,
      Laid Piece.destOff Piece.length p.destOff (((List.range k).map (· * chunk)).map fun c =>
        (⟨p.file, p.fileOff + c, p.destOff + c, min chunk (rounded - c)⟩ : Piece)) ∧
      total Piece.length (((List.range k).map (· * chunk)).map fun c =>
        (⟨p.file, p.fileOff + c, p.destOff + c, min chunk (rounded - c)⟩ : Piece)) =
          min (k * chunk) rounded := by
    intro k
    induction k with
    | zero =>
        intro _
        exact ⟨trivial, by rw [Nat.zero_mul, Nat.zero_min]; rfl⟩
    | succ k ih =>
        intro hk
        obtain ⟨hlaid, htotal⟩ := ih (by omega)
        have hlt := (hrange k).mp hk
        rw [Nat.min_eq_left (by omega)] at htotal
        rw [List.range_succ, List.map_append, List.map_append, total_append, htotal]
        refine ⟨hlaid.snoc (by rw [htotal]), ?_⟩
        show k * chunk + (min chunk (rounded - k * chunk) + 0) = min ((k + 1) * chunk) rounded
        rw [Nat.succ_mul]
        omega
  obtain ⟨hlaid, htotal⟩ := hfirst _ (Nat.le_refl _)
  have hend : rounded ≤ (rounded + chunk - 1) / chunk * chunk := by
    have hnot := (hrange ((rounded + chunk - 1) / chunk)).not.mp (Nat.lt_irrefl _)
    omega
  unfold chunkList
  rw [hr]
  exact ⟨hlaid, htotal.trans (Nat.min_eq_right hend)⟩

theorem laid_append {js ks : List Piece} : ∀ {start : Nat},
    Laid Piece.destOff Piece.length start js →
    Laid Piece.destOff Piece.length (start + total Piece.length js) ks →
    Laid Piece.destOff Piece.length start (js ++ ks) := by
  induction js with
  | nil => exact fun _ h => h
  | cons j js ih =>
      intro start hj hk
      refine ⟨hj.1, ih hj.2 ?_⟩
      rwa [total_cons, ← Nat.add_assoc] at hk

theorem chunked_laid (hchunk : 0 < chunk) : ∀ {dest : Nat} {ps : List Piece},
    Laid Piece.destOff (fun p => alignUp p.length) dest ps →
    Laid Piece.destOff Piece.length dest (ps.map (chunkList chunk)).flatten ∧
      total Piece.length (ps.map (chunkList chunk)).flatten =
        total (fun p : Piece => alignUp p.length) ps
  | dest, [], _ => ⟨trivial, rfl⟩
  | dest, p :: ps, h => by
      have hdest : p.destOff = dest := h.1
      obtain ⟨hfirst, hsize⟩ := chunkList_laid hchunk p
      obtain ⟨hlaid, htotal⟩ := chunked_laid hchunk h.2
      rw [List.map_cons, List.flatten_cons, total_append, hsize, htotal, total_cons]
      refine ⟨laid_append (hdest ▸ hfirst) ?_, rfl⟩
      rw [hsize]
      exact hlaid

/-- The jobs of a read of stored bytes from a block on, into a buffer of the rounded size. -/
theorem jobs_legal (hchunk : 0 < chunk) (hblock : chunk % align = 0)
    (hstored : Stored r.shards r.files region) (hoff : e.globalOff % align = 0)
    (hle : e.globalOff + alignUp e.nbytes ≤ region.length) :
    ∃ js, r.jobs chunk e = .ok js ∧ LegalJobs r.files (alignUp e.nbytes) e.nbytes js := by
  obtain ⟨js, hjs, hjob, -⟩ := jobs_spec hchunk hblock hstored hoff hle
  have hlaid : Laid Piece.destOff Piece.length 0 js ∧ total Piece.length js = alignUp e.nbytes := by
    unfold jobs pieces at hjs
    cases hps : piecesLoop r.shards e.globalOff 0 e.nbytes with
    | error err =>
        rw [hps] at hjs
        cases hjs
    | ok ps =>
        obtain ⟨hlaid, htotal⟩ := piecesLoop_laid hstored.blocks (fun _ => hoff) hps
        have hchunks : chunks chunk = fun p => .ok (chunkList chunk p) :=
          funext fun p => chunks_eq hchunk p
        rw [hps, hchunks] at hjs
        change (ps.mapM (fun p => Except.ok (chunkList chunk p)) >>= fun js => pure js.flatten) = _ at hjs
        rw [mapM_ok] at hjs
        obtain rfl := Except.ok.inj hjs
        rw [← htotal]
        exact chunked_laid hchunk hlaid
  refine ⟨js, hjs, ?_, ?_, fun j hj => (hjob j hj).le, ?_⟩
  · intro j hj
    exact ⟨(hjob j hj).file_mod, (hjob j hj).dest_mod, (hjob j hj).length_mod⟩
  · intro j hj
    obtain ⟨s, hs, hfile, -, hlen⟩ := (hjob j hj).shard
    refine ⟨slice region s.globalOff s.nbytes, ?_, ?_⟩
    · rw [hfile]
      exact hstored.files s hs
    · rw [length_slice (hstored.bounds hs)]
      exact hlen
  · intro i
    rw [countP_laid hlaid.1, hlaid.2]
    by_cases hi : i < alignUp e.nbytes
    · rw [if_pos hi, if_pos (by omega)]
    · rw [if_neg hi, if_neg (by omega)]

end Reader

end Ftw

end FreeToken
