import FreeToken.Checkpoint.Ftw

/-!
# The region a writer lays down

The shards of a writer, one after the other, are the tensors in call order, each padded to a block.
-/

set_option autoImplicit false

namespace FreeToken

namespace Ftw

open Region

/-! ## Blocks and names -/

theorem le_alignUp (n : Nat) : n ≤ alignUp n := by
  unfold alignUp align
  omega

theorem alignUp_mod (n : Nat) : alignUp n % align = 0 := by
  unfold alignUp align
  omega

theorem alignUp_of_mod {n : Nat} (h : n % align = 0) : alignUp n = n := by
  unfold alignUp
  unfold align at *
  omega

theorem alignUp_add {m : Nat} (h : m % align = 0) (n : Nat) : alignUp (m + n) = m + alignUp n := by
  unfold alignUp
  unfold align at *
  omega

theorem alignUp_le {m n : Nat} (h : m % align = 0) (hn : n ≤ m) : alignUp n ≤ m := by
  unfold alignUp
  unfold align at *
  omega

theorem alignUp_eq_zero {n : Nat} : alignUp n = 0 ↔ n = 0 := by
  unfold alignUp align
  omega

theorem shardFile_injective : Function.Injective shardFile := by
  have hread : ∀ n, Nat.ofDigitChars 10
      (List.replicate (5 - (Nat.toDigits 10 n).length) '0' ++ Nat.toDigits 10 n) 0 = n := by
    intro n
    rw [Nat.ofDigitChars_append, Nat.ofDigitChars_replicate_zero, Nat.mul_zero]
    exact Nat.ofDigitChars_toDigits (by omega) (by omega)
  intro i j h
  have hchars := String.ofList_injective h
  have hdigits := List.append_cancel_left (List.append_cancel_right hchars)
  rw [← hread i, ← hread j, hdigits]

/-! ## The directory under file operations -/

namespace Disk

variable (d : Disk)

theorem replay_append (ops more : List FileOp) :
    d.replay (ops ++ more) = (d.replay ops).replay more := List.foldl_append

theorem replay_snoc (ops : List FileOp) (op : FileOp) :
    d.replay (ops ++ [op]) = (d.replay ops).apply op := by
  rw [replay_append]
  rfl

@[simp] theorem setFile_files_self (file : String) (data : Bytes) :
    (d.setFile file data).files file = some data := if_pos rfl

theorem setFile_files_ne {file g : String} (data : Bytes) (h : g ≠ file) :
    (d.setFile file data).files g = d.files g := if_neg h

end Disk

/-! ## Regions in shards -/

/-- The shards keep the region, cut at blocks. -/
structure Stored (shards : List Shard) (files : String → Option Bytes) (region : Bytes) : Prop where
  laid : Laid Shard.globalOff Shard.nbytes 0 shards
  total : total Shard.nbytes shards = region.length
  files : ∀ s ∈ shards, files s.file = some (slice region s.globalOff s.nbytes)
  blocks : ∀ s ∈ shards, s.globalOff % align = 0 ∧ s.nbytes % align = 0

namespace Stored

variable {shards : List Shard} {files files' : String → Option Bytes} {region : Bytes}

theorem nil (files : String → Option Bytes) : Stored [] files [] where
  laid := trivial
  total := rfl
  files := fun _ hs => absurd hs List.not_mem_nil
  blocks := fun _ hs => absurd hs List.not_mem_nil

theorem congr (h : Stored shards files region) (heq : ∀ s ∈ shards, files' s.file = files s.file) :
    Stored shards files' region where
  laid := h.laid
  total := h.total
  files := fun s hs => by rw [heq s hs, h.files s hs]
  blocks := h.blocks

theorem bounds (h : Stored shards files region) {s : Shard} (hs : s ∈ shards) :
    s.globalOff + s.nbytes ≤ region.length := by
  have hb := h.laid.bounds hs
  rw [h.total] at hb
  omega

/-- One more shard behind the others. -/
theorem snoc (h : Stored shards files region) {file : String} {data : Bytes}
    (hfile : files file = some data) (hoff : region.length % align = 0)
    (hdata : data.length % align = 0) :
    Stored (shards ++ [⟨file, region.length, data.length⟩]) files (region ++ data) where
  laid := by
    apply h.laid.snoc
    rw [h.total, Nat.zero_add]
  total := by rw [total_append, total_cons, total_nil, h.total, List.length_append, Nat.add_zero]
  files := by
    intro s hs
    rcases List.mem_append.mp hs with hs | hs
    · rw [h.files s hs, slice_append data (h.bounds hs)]
    · rw [List.mem_singleton.mp hs]
      show files file = some (slice (region ++ data) region.length data.length)
      rw [slice_append_self, hfile]
  blocks := by
    intro s hs
    rcases List.mem_append.mp hs with hs | hs
    · exact h.blocks s hs
    · rw [List.mem_singleton.mp hs]
      exact ⟨hoff, hdata⟩

end Stored

/-! ## How far the shards are filled -/

/-- The number of shards opened, and the bytes in the last one. -/
structure Fill where
  count : Nat
  cur : Nat

namespace Fill

variable {limit : Nat}

/-- `n` more bytes; a full shard is left only when a byte is to be written. -/
def put (limit : Nat) (s : Fill) (n : Nat) : Fill :=
  if n = 0 then s else ⟨s.count + (s.cur + n - 1) / limit, (s.cur + n - 1) % limit + 1⟩

/-- A tensor of `n` bytes and its padding. -/
def add (limit : Nat) (s : Fill) (n : Nat) : Fill :=
  let s := if s.count = 0 ∨ (n ≤ limit ∧ limit < s.cur + n) then ⟨s.count + 1, 0⟩ else s
  (s.put limit n).put limit (alignUp n - n)

theorem put_zero (s : Fill) : s.put limit 0 = s := if_pos rfl

theorem put_full (hpos : 0 < limit) (k : Nat) {n : Nat} (hn : n ≠ 0) :
    put limit ⟨k, limit⟩ n = put limit ⟨k + 1, 0⟩ n := by
  unfold put
  rw [if_neg hn, if_neg hn]
  have hshift : limit + n - 1 = (0 + n - 1) + limit := by omega
  show Fill.mk (k + (limit + n - 1) / limit) ((limit + n - 1) % limit + 1) =
    Fill.mk (k + 1 + (0 + n - 1) / limit) ((0 + n - 1) % limit + 1)
  rw [hshift, Nat.add_div_right _ hpos, Nat.add_mod_right]
  congr 1
  omega

theorem put_split (k : Nat) {c t n : Nat} (ht : 0 < t) (htn : t ≤ n) (hroom : c + t ≤ limit) :
    put limit ⟨k, c⟩ n = put limit ⟨k, c + t⟩ (n - t) := by
  unfold put
  rw [if_neg (by omega)]
  show Fill.mk (k + (c + n - 1) / limit) ((c + n - 1) % limit + 1) = _
  split
  · have hlt : c + n - 1 < limit := by omega
    rw [Nat.div_eq_of_lt hlt, Nat.mod_eq_of_lt hlt]
    congr 1
    omega
  · show _ = Fill.mk (k + (c + t + (n - t) - 1) / limit) ((c + t + (n - t) - 1) % limit + 1)
    rw [show c + t + (n - t) = c + n by omega]

end Fill

/-- How many shards tensors of these sizes take. -/
def shardCount (limit : Nat) (sizes : List Nat) : Nat :=
  (sizes.foldl (Fill.add limit) ⟨0, 0⟩).count

/-! ## The writer between two writes -/

/-- The file of a handle that is opened, written or closed. -/
def FileOp.file : FileOp → Option String
  | .openWb file | .write file _ | .close file => some file
  | .replaceFile _ _ _ | .dumpTmp _ | .replaceTmp => none

def FileOp.keepsOpen (file : String) (isOpen : Bool) : FileOp → Bool
  | .openWb g => decide (g = file) || isOpen
  | .close g => !decide (g = file) && isOpen
  | _ => isOpen

/-- After these operations a handle on `file` is open. -/
def openAfter (file : String) (ops : List FileOp) : Bool := ops.foldl (FileOp.keepsOpen file) false

theorem openAfter_snoc (file : String) (ops : List FileOp) (op : FileOp) :
    openAfter file (ops ++ [op]) = op.keepsOpen file (openAfter file ops) := by
  unfold openAfter
  rw [List.foldl_append]
  rfl

namespace FTWWriter

variable {limit : Nat} {d : Disk} {w w' : FTWWriter} {base tail data : Bytes}

/-- `base` is in closed shards, `tail` in the open one. -/
structure Writing (limit : Nat) (d : Disk) (w : FTWWriter) (base tail : Bytes) : Prop where
  shardLimit : w.shardLimit = limit
  f : w.f = some (shardFile w.shards.length)
  shardIdx : w.shardIdx = w.shards.length
  shardStart : w.shardStart = base.length
  cur : w.cur = tail.length
  global : w.global = (base ++ tail).length
  le : tail.length ≤ limit
  base_mod : base.length % align = 0
  stored : Stored w.shards (d.replay w.ops).files base
  names : ∀ s ∈ w.shards, ∃ i < w.shards.length, s.file = shardFile i
  handle : (d.replay w.ops).files (shardFile w.shards.length) = some tail
  ops : ∀ op ∈ w.ops, ∃ i ≤ w.shards.length, op.file = some (shardFile i)
  opened : ∀ i ≤ w.shards.length, FileOp.openWb (shardFile i) ∈ w.ops
  handles : ∀ file, openAfter file w.ops = true → file = shardFile w.shards.length

/-- Only the region has grown. -/
structure Kept (w w' : FTWWriter) : Prop where
  tensors : w'.tensors = w.tensors
  written : w'.written = w.written

theorem Kept.trans {w'' : FTWWriter} (h : Kept w w') (h' : Kept w' w'') : Kept w w'' where
  tensors := h'.tensors.trans h.tensors
  written := h'.written.trans h.written

def fill (w : FTWWriter) : Fill := ⟨w.shards.length + 1, w.cur⟩

theorem kept_roll (w : FTWWriter) : Kept w w.roll := by
  unfold roll closeShard
  split <;> exact ⟨rfl, rfl⟩

theorem Writing.ne_open (h : Writing limit d w base tail) {s : Shard} (hs : s ∈ w.shards) {j : Nat}
    (hj : w.shards.length ≤ j) : s.file ≠ shardFile j := by
  obtain ⟨i, hi, hfile⟩ := h.names s hs
  intro heq
  have hij : i = j := shardFile_injective (hfile.symm.trans heq)
  omega

/-- The shards with the open one appended. -/
theorem Writing.stored_close (h : Writing limit d w base tail) (ht : tail.length % align = 0) :
    Stored (w.shards ++ [⟨shardFile w.shards.length, base.length, tail.length⟩])
      (d.replay w.ops).files (base ++ tail) :=
  h.stored.snoc h.handle h.base_mod ht

theorem Writing.closeShard_eq (h : Writing limit d w base tail) :
    w.closeShard =
      { w with
        shards := w.shards ++ [⟨shardFile w.shards.length, base.length, tail.length⟩]
        ops := w.ops ++ [.close (shardFile w.shards.length)] } := by
  unfold closeShard
  rw [h.f, h.shardIdx, h.shardStart, h.cur]
  rfl

theorem roll_fresh (limit : Nat) (d : Disk) :
    Writing limit d (roll { shardLimit := limit }) [] [] where
  shardLimit := rfl
  f := rfl
  shardIdx := rfl
  shardStart := rfl
  cur := rfl
  global := rfl
  le := Nat.zero_le limit
  base_mod := rfl
  stored := .nil _
  names := fun _ hs => absurd hs List.not_mem_nil
  handle := Disk.setFile_files_self _ _ _
  ops := by
    intro op hop
    rw [List.mem_singleton.mp hop]
    exact ⟨0, Nat.le_refl 0, rfl⟩
  opened := by
    intro i hi
    obtain rfl : i = 0 := Nat.le_zero.mp hi
    exact List.mem_singleton.mpr rfl
  handles := by
    intro file hopen
    rw [show openAfter file _ = (decide (shardFile 0 = file) || false) from rfl, Bool.or_false,
      decide_eq_true_eq] at hopen
    exact hopen.symm

theorem Writing.roll_eq (h : Writing limit d w base tail) :
    w.roll =
      { w with
        shards := w.shards ++ [⟨shardFile w.shards.length, base.length, tail.length⟩]
        shardIdx := (w.shards.length : Int) + 1
        shardStart := w.global
        cur := 0
        f := some (shardFile (w.shards.length + 1))
        ops := w.ops ++ [.close (shardFile w.shards.length)] ++
          [.openWb (shardFile (w.shards.length + 1))] } := by
  unfold roll
  rw [h.closeShard_eq]
  simp only [h.shardIdx]
  rfl

theorem Writing.roll (h : Writing limit d w base tail) (ht : tail.length % align = 0) :
    Writing limit d w.roll (base ++ tail) [] := by
  rw [h.roll_eq]
  have hlen : (w.shards ++
      [(⟨shardFile w.shards.length, base.length, tail.length⟩ : Shard)]).length =
        w.shards.length + 1 := List.length_append
  have hfiles : ∀ s ∈ w.shards ++ [⟨shardFile w.shards.length, base.length, tail.length⟩],
      ∃ i < w.shards.length + 1, s.file = shardFile i := by
    intro s hs
    rcases List.mem_append.mp hs with hs | hs
    · obtain ⟨i, hi, hfile⟩ := h.names s hs
      exact ⟨i, by omega, hfile⟩
    · rw [List.mem_singleton.mp hs]
      exact ⟨w.shards.length, Nat.lt_succ_self _, rfl⟩
  constructor
  case shardLimit => exact h.shardLimit
  case f => simp only [hlen]
  case shardIdx =>
    simp only [hlen]
    rfl
  case shardStart => exact h.global
  case cur => rfl
  case global =>
    rw [List.append_nil]
    exact h.global
  case le => exact Nat.zero_le limit
  case base_mod =>
    have := h.base_mod
    rw [List.length_append]
    unfold align at *
    omega
  case stored =>
    apply (h.stored_close ht).congr
    intro s hs
    obtain ⟨i, hi, hfile⟩ := hfiles s hs
    rw [Disk.replay_snoc, Disk.replay_snoc]
    show (Disk.setFile _ _ _).files s.file = _
    rw [Disk.setFile_files_ne]
    · rfl
    · intro heq
      have hij : i = w.shards.length + 1 := shardFile_injective (hfile.symm.trans heq)
      omega
  case names =>
    simp only [hlen]
    exact hfiles
  case handle =>
    simp only [hlen]
    rw [Disk.replay_snoc]
    exact Disk.setFile_files_self _ _ _
  case ops =>
    simp only [hlen]
    intro op hop
    rcases List.mem_append.mp hop with hop | hop
    · rcases List.mem_append.mp hop with hop | hop
      · obtain ⟨i, hi, hfile⟩ := h.ops op hop
        exact ⟨i, by omega, hfile⟩
      · rw [List.mem_singleton.mp hop]
        exact ⟨w.shards.length, by omega, rfl⟩
    · rw [List.mem_singleton.mp hop]
      exact ⟨w.shards.length + 1, Nat.le_refl _, rfl⟩
  case opened =>
    simp only [hlen]
    intro i hi
    by_cases hlt : i ≤ w.shards.length
    · exact List.mem_append_left _ (List.mem_append_left _ (h.opened i hlt))
    · obtain rfl : i = w.shards.length + 1 := by omega
      exact List.mem_append_right _ (List.mem_singleton.mpr rfl)
  case handles =>
    simp only [hlen]
    intro file hopen
    rw [openAfter_snoc, openAfter_snoc] at hopen
    rcases Bool.or_eq_true_iff.mp hopen with heq | hold
    · exact (of_decide_eq_true heq).symm
    · -- the one that was open has been closed
      obtain ⟨hne, hwas⟩ := Bool.and_eq_true_iff.mp hold
      rw [h.handles file hwas] at hne
      simp at hne

theorem Writing.fill_roll (h : Writing limit d w base tail) :
    w.roll.fill = ⟨w.shards.length + 2, 0⟩ := by
  rw [h.roll_eq]
  simp only [fill, List.length_append, List.length_singleton]

theorem put_spec (h : Writing limit d w base tail) (hroom : tail.length + data.length ≤ limit) :
    ∃ w', w.put data = .ok w' ∧ Writing limit d w' base (tail ++ data) ∧ Kept w w' ∧
      w'.fill = ⟨w.shards.length + 1, w.cur + data.length⟩ := by
  unfold put
  rw [h.f]
  refine ⟨_, rfl, ?_, ⟨rfl, rfl⟩, rfl⟩
  constructor
  case shardLimit => exact h.shardLimit
  case f => rfl
  case shardIdx => exact h.shardIdx
  case shardStart => exact h.shardStart
  case cur =>
    show w.cur + data.length = _
    rw [List.length_append, h.cur]
  case global =>
    show w.global + data.length = _
    rw [h.global, ← List.append_assoc]
    exact List.length_append.symm
  case le =>
    rw [List.length_append]
    exact hroom
  case base_mod => exact h.base_mod
  case stored =>
    apply h.stored.congr
    intro s hs
    rw [Disk.replay_snoc]
    exact Disk.setFile_files_ne _ _ (h.ne_open hs (Nat.le_refl _))
  case names => exact h.names
  case handle =>
    show (d.replay (w.ops ++ _)).files (shardFile w.shards.length) = _
    rw [Disk.replay_snoc]
    show (Disk.setFile _ _ _).files _ = _
    rw [Disk.setFile_files_self, h.handle]
    rfl
  case ops =>
    intro op hop
    rcases List.mem_append.mp hop with hop | hop
    · exact h.ops op hop
    · rw [List.mem_singleton.mp hop]
      exact ⟨w.shards.length, Nat.le_refl _, rfl⟩
  case opened =>
    intro i hi
    exact List.mem_append_left _ (h.opened i hi)
  case handles =>
    intro file hopen
    rw [openAfter_snoc] at hopen
    exact h.handles file hopen

/-- The open shard is left at its limit only, so the cuts are at blocks. -/
theorem writeLoop_spec (hpos : 0 < limit) (hblock : limit % align = 0) :
    ∀ (fuel : Nat) {w : FTWWriter} {base tail data : Bytes}, data.length ≤ fuel →
      Writing limit d w base tail →
      ∃ w' base' tail', writeLoop fuel w data = .ok w' ∧ Writing limit d w' base' tail' ∧
        base' ++ tail' = base ++ tail ++ data ∧ Kept w w' ∧
        w'.fill = w.fill.put limit data.length
  | _, w, base, tail, [], _, h => by
      refine ⟨w, base, tail, ?_, h, (List.append_nil _).symm, ⟨rfl, rfl⟩, (Fill.put_zero _).symm⟩
      rw [writeLoop]
  | 0, _, _, _, _ :: _, hfuel, _ => by
      rw [List.length_cons] at hfuel
      omega
  | fuel + 1, w, base, tail, b :: bs, hfuel, h => by
      rw [List.length_cons] at hfuel
      -- the shard the next bytes go to
      obtain ⟨v, base₁, tail₁, hv, hw, hregion, hkept, hlt, hfill⟩ :
          ∃ v base₁ tail₁, (if w.cur = w.shardLimit then w.roll else w) = v ∧
            Writing limit d v base₁ tail₁ ∧ base₁ ++ tail₁ = base ++ tail ∧ Kept w v ∧
            tail₁.length < limit ∧
            v.fill.put limit (b :: bs).length = w.fill.put limit (b :: bs).length := by
        by_cases hfull : w.cur = w.shardLimit
        · have hcur : w.cur = limit := hfull.trans h.shardLimit
          have ht : tail.length % align = 0 := by rw [← h.cur, hcur, hblock]
          refine ⟨w.roll, base ++ tail, [], if_pos hfull, h.roll ht, List.append_nil _, kept_roll w,
            hpos, ?_⟩
          rw [h.fill_roll]
          show _ = Fill.put limit ⟨w.shards.length + 1, w.cur⟩ _
          rw [hcur]
          exact (Fill.put_full hpos _ (Nat.succ_ne_zero bs.length)).symm
        · refine ⟨w, base, tail, if_neg hfull, h, rfl, ⟨rfl, rfl⟩, ?_, rfl⟩
          have := h.le
          have := h.cur
          have := h.shardLimit
          omega
      let take := min (b :: bs).length (v.shardLimit - v.cur)
      have htake : take = min (b :: bs).length (limit - tail₁.length) := by
        show min _ (v.shardLimit - v.cur) = _
        rw [hw.shardLimit, hw.cur]
      have hlen : (b :: bs).length = bs.length + 1 := List.length_cons
      have hput : ((b :: bs).take take).length = take := by
        rw [List.length_take]
        omega
      have hroom : tail₁.length + ((b :: bs).take take).length ≤ limit := by omega
      obtain ⟨u, hu, hwu, hkeptu, hfillu⟩ := put_spec hw hroom
      have hrest : ((b :: bs).drop take).length ≤ fuel := by
        rw [List.length_drop]
        omega
      obtain ⟨w', base', tail', hrun, hw', hregion', hkept', hfill'⟩ :=
        writeLoop_spec hpos hblock fuel hrest hwu
      refine ⟨w', base', tail', ?_, hw', ?_, (hkept.trans hkeptu).trans hkept', ?_⟩
      · rw [writeLoop, hv]
        show (v.put ((b :: bs).take take) >>= fun w => writeLoop fuel w ((b :: bs).drop take)) = _
        rw [hu]
        exact hrun
      · rw [hregion', ← List.append_assoc, hregion, List.append_assoc (base ++ tail),
          List.take_append_drop]
      · rw [hfill', hfillu, hput, List.length_drop, ← hfill]
        symm
        apply Fill.put_split
        · omega
        · omega
        · rw [hw.cur]
          omega

theorem writeRaw_spec (hpos : 0 < limit) (hblock : limit % align = 0)
    (h : Writing limit d w base tail) (data : Bytes) :
    ∃ w' base' tail', w.writeRaw data = .ok w' ∧ Writing limit d w' base' tail' ∧
      base' ++ tail' = base ++ tail ++ data ∧ Kept w w' ∧ w'.fill = w.fill.put limit data.length := by
  unfold writeRaw
  rw [h.f]
  exact writeLoop_spec hpos hblock data.length (Nat.le_refl _) h

/-- A fresh writer has no file; any other has a region in shards, the last one open. -/
inductive Holds (limit : Nat) (d : Disk) : FTWWriter → Bytes → Fill → Prop
  | fresh : Holds limit d { shardLimit := limit } [] ⟨0, 0⟩
  | writing {w : FTWWriter} {base tail : Bytes} (h : Writing limit d w base tail) :
      Holds limit d w (base ++ tail) w.fill

/-- The early roll of `add_tensor`. -/
theorem Holds.rolled {region : Bytes} {s : Fill} (h : Holds limit d w region s)
    (hmod : region.length % align = 0) (n : Nat) :
    ∃ v base tail, (if w.f.isNone ∨ (n ≤ w.shardLimit ∧ w.shardLimit < w.cur + n) then w.roll
        else w) = v ∧
      Writing limit d v base tail ∧ base ++ tail = region ∧ Kept w v ∧
      v.fill = if s.count = 0 ∨ (n ≤ limit ∧ limit < s.cur + n) then ⟨s.count + 1, 0⟩ else s := by
  cases h with
  | fresh =>
      exact ⟨_, [], [], if_pos (.inl rfl), roll_fresh limit d, rfl, ⟨rfl, rfl⟩, rfl⟩
  | writing h =>
      rename_i base tail
      have hcond : (w.f.isNone ∨ (n ≤ w.shardLimit ∧ w.shardLimit < w.cur + n)) ↔
          (w.fill.count = 0 ∨ (n ≤ limit ∧ limit < w.fill.cur + n)) := by
        rw [h.f, h.shardLimit]
        simp [fill]
      by_cases hc : w.f.isNone ∨ (n ≤ w.shardLimit ∧ w.shardLimit < w.cur + n)
      · have ht : tail.length % align = 0 := by
          have := h.base_mod
          rw [List.length_append] at hmod
          unfold align at *
          omega
        refine ⟨w.roll, base ++ tail, [], if_pos hc, h.roll ht, List.append_nil _, kept_roll w, ?_⟩
        rw [if_pos (hcond.mp hc), h.fill_roll]
        rfl
      · refine ⟨w, base, tail, if_neg hc, h, rfl, ⟨rfl, rfl⟩, ?_⟩
        rw [if_neg fun hc' => hc (hcond.mpr hc')]

theorem Writing.noted (h : Writing limit d w base tail) (tensors : List Entry)
    (written : List Bytes) :
    Writing limit d { w with tensors := tensors, written := written } base tail :=
  ⟨h.shardLimit, h.f, h.shardIdx, h.shardStart, h.cur, h.global, h.le, h.base_mod, h.stored, h.names,
    h.handle, h.ops, h.opened, h.handles⟩

end FTWWriter

/-! ## Tensors in the region -/

variable {D : Type} {T : Dtypes D}

def padded (bytes : Bytes) : Bytes :=
  bytes ++ List.replicate (alignUp bytes.length - bytes.length) 0

def region (calls : List (Call T)) : Bytes := (calls.map fun c => padded c.tensor.bytes).flatten

def Call.entry (off : Nat) (c : Call T) : Entry :=
  ⟨c.name, c.kind, T.str c.tensor.dtype, c.tensor.shape, off, c.tensor.bytes.length⟩

/-- The index entries of tensors that follow each other from `off` on. -/
def layout : Nat → List (Call T) → List Entry
  | _, [] => []
  | off, c :: cs => c.entry off :: layout (off + alignUp c.tensor.bytes.length) cs

theorem length_padded (bytes : Bytes) : (padded bytes).length = alignUp bytes.length := by
  have := le_alignUp bytes.length
  unfold padded
  rw [List.length_append, List.length_replicate]
  omega

theorem length_region_mod (calls : List (Call T)) : (region calls).length % align = 0 := by
  induction calls with
  | nil => rfl
  | cons c cs ih =>
      have hpad := alignUp_mod c.tensor.bytes.length
      show (padded c.tensor.bytes ++ region cs).length % align = 0
      rw [List.length_append, length_padded]
      unfold align at *
      omega

/-- Every entry starts at a block, and its padded bytes are there. -/
theorem layout_slice {pre : Bytes} (hpre : pre.length % align = 0) :
    ∀ (calls : List (Call T)), List.Forall₂ (fun c e =>
      e = c.entry e.globalOff ∧ e.globalOff % align = 0 ∧
        e.globalOff + alignUp e.nbytes ≤ (pre ++ region calls).length ∧
        slice (pre ++ region calls) e.globalOff (alignUp e.nbytes) = padded c.tensor.bytes)
      calls (layout pre.length calls) := by
  intro calls
  induction calls generalizing pre with
  | nil => exact .nil
  | cons c cs ih =>
      have hsplit : pre ++ region (c :: cs) = (pre ++ padded c.tensor.bytes) ++ region cs := by
        show pre ++ (padded c.tensor.bytes ++ region cs) = _
        rw [List.append_assoc]
      have hlen : (pre ++ padded c.tensor.bytes).length =
          pre.length + alignUp c.tensor.bytes.length := by
        rw [List.length_append, length_padded]
      rw [hsplit]
      refine .cons ⟨rfl, hpre, ?_, ?_⟩ ?_
      · show pre.length + alignUp c.tensor.bytes.length ≤ _
        rw [List.length_append, hlen]
        omega
      · show slice _ pre.length (alignUp c.tensor.bytes.length) = _
        rw [slice_append _ (Nat.le_of_eq hlen.symm), ← length_padded, slice_append_self]
      · rw [← hlen]
        apply ih
        have := alignUp_mod c.tensor.bytes.length
        rw [hlen]
        unfold align at *
        omega

namespace FTWWriter

variable {limit : Nat} {d : Disk} {w : FTWWriter}

theorem addTensor_spec (hpos : 0 < limit) (hblock : limit % align = 0) {r : Bytes} {s : Fill}
    (h : Holds limit d w r s) (hmod : r.length % align = 0) (c : Call T) :
    ∃ w', w.addTensor c.name c.tensor c.kind = .ok w' ∧
      Holds limit d w' (r ++ padded c.tensor.bytes) (s.add limit c.tensor.bytes.length) ∧
      w'.tensors = w.tensors ++ [c.entry r.length] ∧
      w'.written = w.written ++ [c.tensor.bytes] := by
  obtain ⟨v, base, tail, hv, hw, hregion, hkept, hfill⟩ := h.rolled hmod c.tensor.bytes.length
  have hglobal : v.global = r.length := by rw [hw.global, hregion]
  obtain ⟨u, base₁, tail₁, hu, hwu, hregion₁, hkept₁, hfill₁⟩ :=
    writeRaw_spec hpos hblock hw c.tensor.bytes
  rw [hregion] at hregion₁
  have hnoted := hwu.noted (u.tensors ++ [c.entry v.global]) (u.written ++ [c.tensor.bytes])
  have hpad : alignUp u.global - u.global =
      alignUp c.tensor.bytes.length - c.tensor.bytes.length := by
    rw [hwu.global, hregion₁, List.length_append, alignUp_add hmod]
    omega
  have hrun : w.addTensor c.name c.tensor c.kind =
      if alignUp u.global - u.global = 0 then
        .ok { u with tensors := u.tensors ++ [c.entry v.global]
                     written := u.written ++ [c.tensor.bytes] }
      else
        writeRaw { u with tensors := u.tensors ++ [c.entry v.global]
                          written := u.written ++ [c.tensor.bytes] }
          (List.replicate (alignUp u.global - u.global) 0) := by
    unfold addTensor
    simp only [hv, hglobal, hmod]
    show (v.writeRaw c.tensor.bytes >>= _) = _
    rw [hu]
    rfl
  rw [hrun, hkept₁.tensors, hkept.tensors, hkept₁.written, hkept.written, hglobal, hpad]
  rw [hkept₁.tensors, hkept.tensors, hkept₁.written, hkept.written, hglobal] at hnoted
  have hadd : s.add limit c.tensor.bytes.length =
      (u.fill).put limit (alignUp c.tensor.bytes.length - c.tensor.bytes.length) := by
    rw [hfill₁, hfill]
    rfl
  by_cases hzero : alignUp c.tensor.bytes.length - c.tensor.bytes.length = 0
  · refine ⟨_, if_pos hzero, ?_, rfl, rfl⟩
    have hsame : padded c.tensor.bytes = c.tensor.bytes := by
      unfold padded
      rw [hzero]
      exact List.append_nil _
    rw [hadd, hzero, Fill.put_zero, hsame, ← hregion₁]
    exact .writing hnoted
  · obtain ⟨w', base₂, tail₂, hw', hwriting, hregion₂, hkept₂, hfill₂⟩ :=
      writeRaw_spec hpos hblock hnoted
        (List.replicate (alignUp c.tensor.bytes.length - c.tensor.bytes.length) 0)
    refine ⟨w', (if_neg hzero).trans hw', ?_, hkept₂.tensors, hkept₂.written⟩
    have hall : r ++ padded c.tensor.bytes = base₂ ++ tail₂ := by
      rw [hregion₂, hregion₁, List.append_assoc]
      rfl
    have hfill' : s.add limit c.tensor.bytes.length = w'.fill := by
      rw [hadd, hfill₂, List.length_replicate]
      rfl
    rw [hall, hfill']
    exact .writing hwriting

theorem addAll_spec (hpos : 0 < limit) (hblock : limit % align = 0) :
    ∀ (calls : List (Call T)) {w : FTWWriter} {r : Bytes} {s : Fill}, Holds limit d w r s →
      r.length % align = 0 →
      ∃ w', addAll w calls = .ok w' ∧
        Holds limit d w' (r ++ region calls)
          ((calls.map fun c => c.tensor.bytes.length).foldl (Fill.add limit) s) ∧
        w'.tensors = w.tensors ++ layout r.length calls ∧
        w'.written = w.written ++ calls.map fun c => c.tensor.bytes
  | [], w, r, s, h, _ => by
      refine ⟨w, rfl, ?_, (List.append_nil _).symm, (List.append_nil _).symm⟩
      rw [show region ([] : List (Call T)) = [] from rfl, List.append_nil]
      exact h
  | c :: cs, w, r, s, h, hmod => by
      obtain ⟨v, hv, hholds, htensors, hwritten⟩ := addTensor_spec hpos hblock h hmod c
      have hlen : (r ++ padded c.tensor.bytes).length =
          r.length + alignUp c.tensor.bytes.length := by
        rw [List.length_append, length_padded]
      have hmod' : (r ++ padded c.tensor.bytes).length % align = 0 := by
        have := alignUp_mod c.tensor.bytes.length
        rw [hlen]
        unfold align at *
        omega
      obtain ⟨w', hw', hholds', htensors', hwritten'⟩ := addAll_spec hpos hblock cs hholds hmod'
      refine ⟨w', ?_, ?_, ?_, ?_⟩
      · show (w.addTensor c.name c.tensor c.kind >>= fun w => addAll w cs) = _
        rw [hv]
        exact hw'
      · show Holds limit d w' (r ++ (padded c.tensor.bytes ++ region cs)) _
        rw [← List.append_assoc]
        exact hholds'
      · rw [htensors', htensors, hlen, List.append_assoc]
        rfl
      · rw [hwritten', hwritten, List.append_assoc]
        rfl

/-- `finalize` up to the index: the last shard is in the table, nothing is open. -/
theorem Holds.closed {r : Bytes} {s : Fill} (h : Holds limit d w r s)
    (hmod : r.length % align = 0) :
    Stored w.closeShard.shards (d.replay w.closeShard.ops).files r := by
  cases h with
  | fresh => exact .nil _
  | writing h =>
      rename_i base tail
      have ht : tail.length % align = 0 := by
        have := h.base_mod
        rw [List.length_append] at hmod
        unfold align at *
        omega
      rw [h.closeShard_eq]
      apply (h.stored_close ht).congr
      intro s _
      rw [Disk.replay_snoc]
      rfl

theorem Holds.closed_names {r : Bytes} {s : Fill} (h : Holds limit d w r s) :
    ∀ t ∈ w.closeShard.shards, ∃ i < s.count, t.file = shardFile i := by
  cases h with
  | fresh => exact fun t ht => absurd ht List.not_mem_nil
  | writing h =>
      rw [h.closeShard_eq]
      intro t ht
      rcases List.mem_append.mp ht with ht | ht
      · obtain ⟨i, hi, hfile⟩ := h.names t ht
        exact ⟨i, Nat.lt_succ_of_lt hi, hfile⟩
      · rw [List.mem_singleton.mp ht]
        exact ⟨w.shards.length, Nat.lt_succ_self _, rfl⟩

theorem closeShard_written (w : FTWWriter) : w.closeShard.written = w.written := by
  unfold closeShard
  split <;> rfl

theorem closeShard_tensors (w : FTWWriter) : w.closeShard.tensors = w.tensors := by
  unfold closeShard
  split <;> rfl

theorem finalize_ops (w : FTWWriter) :
    w.finalize.1.ops =
      w.closeShard.ops ++ [.dumpTmp ⟨some w.finalize.2, w.written⟩, .replaceTmp] := by
  show w.closeShard.ops ++ [.dumpTmp ⟨some _, w.closeShard.written⟩, .replaceTmp] = _
  rw [closeShard_written]
  rfl

theorem replay_finalize (w : FTWWriter) (d : Disk) :
    d.replay w.finalize.1.ops =
      { d.replay w.closeShard.ops with
        index := some ⟨some w.finalize.2, w.written⟩
        tmp := none } := by
  rw [finalize_ops, Disk.replay_append]
  rfl

end FTWWriter

/-- What a finished directory says: the tensors in call order, and the region in its shards. -/
structure Complete (limit : Nat) (calls : List (Call T)) (d : Disk) : Prop where
  index : ∃ index, d.index = some ⟨some index, calls.map fun c => c.tensor.bytes⟩ ∧
    index.format = formatTag ∧ index.tensors = layout 0 calls ∧
    Stored index.shards d.files (region calls) ∧
    ∀ s ∈ index.shards, ∃ i < shardCount limit (calls.map fun c => c.tensor.bytes.length),
      s.file = shardFile i

theorem writeAll_spec {limit : Nat} (hpos : 0 < limit) (hblock : limit % align = 0)
    (calls : List (Call T)) (d : Disk) :
    ∃ d', writeAll limit calls d = .ok d' ∧ Complete limit calls d' := by
  have hfresh : FTWWriter.Holds limit d { shardLimit := limit } [] ⟨0, 0⟩ := .fresh
  obtain ⟨w, hw, hholds, htensors, hwritten⟩ := FTWWriter.addAll_spec hpos hblock calls hfresh rfl
  refine ⟨d.replay w.finalize.1.ops, ?_, ⟨w.finalize.2, ?_, rfl, ?_, ?_, ?_⟩⟩
  · unfold writeAll FTWWriter.init
    rw [if_pos hblock]
    show (addAll { shardLimit := limit } calls >>= fun w => pure (d.replay w.finalize.1.ops)) = _
    rw [hw]
    rfl
  · rw [FTWWriter.replay_finalize, hwritten]
    rfl
  · exact (FTWWriter.closeShard_tensors w).trans htensors
  · rw [FTWWriter.replay_finalize]
    exact hholds.closed (length_region_mod calls)
  · exact hholds.closed_names

end Ftw

end FreeToken
