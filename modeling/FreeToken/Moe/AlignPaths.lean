import FreeToken.Moe.AlignScatter

/-!
# The two paths

The stores of the small kernel before its barrier, and the first three kernels of the large path, leave
the memory that the scatter starts from.  The histogram is one sum over the lanes or the sum of the
programs' atomic additions; the owner of a block is stored by its expert's lane or found by binary
search.
-/

set_option autoImplicit false

namespace FreeToken

open GridMemory Finset

open OffloadMoeCache.HybridKernel (nextPowerOf2 le_nextPowerOf2)

namespace MoeAlign

/-! ## Vectors -/

theorem mem_tlStore {n : Nat} {buf : Buf} {off val : Nat → Int} {mask : Nat → Bool} {op : Op Addr} :
    op ∈ tlStore n buf off val mask ↔
      ∃ l < n, mask l = true ∧ op = .store (buf, off l) (val l) := by
  unfold tlStore
  simp only [List.mem_map, List.mem_filter, List.mem_range, and_assoc, eq_comm]

theorem mem_tlAtomicAdd {n : Nat} {buf : Buf} {off val : Nat → Int} {mask : Nat → Bool}
    {op : Op Addr} :
    op ∈ tlAtomicAdd n buf off val mask ↔
      ∃ l < n, mask l = true ∧ op = .add (buf, off l) (val l) := by
  unfold tlAtomicAdd
  simp only [List.mem_map, List.mem_filter, List.mem_range, and_assoc, eq_comm]

theorem mem_tlRange {stop step s : Int} (hstep : 0 < step) :
    s ∈ tlRange stop step ↔ ∃ k : Nat, s = k * step ∧ s < stop := by
  have hk : ∀ k : Nat, k < ((stop + step - 1) / step).toNat ↔ (k : Int) * step < stop := by
    intro k
    have hle := Int.le_ediv_iff_mul_le (a := (k : Int) + 1) (b := stop + step - 1) hstep
    have hmul : ((k : Int) + 1) * step = k * step + step := by rw [Int.add_mul, Int.one_mul]
    omega
  unfold tlRange
  simp only [List.mem_map, List.mem_range, hk]
  constructor
  · rintro ⟨k, hlt, rfl⟩
    exact ⟨k, rfl, hlt⟩
  · rintro ⟨k, rfl, hlt⟩
    exact ⟨k, hlt, rfl⟩

theorem le_tlMax {n : Nat} {x : Nat → Int} {l : Nat} (hl : l < n) : x l ≤ tlMax n x := by
  have hfold : ∀ xs : List Int, ∀ a ∈ xs, a ≤ xs.foldr max 0 := by
    intro xs
    induction xs with
    | nil => exact fun a ha => nomatch ha
    | cons b xs ih =>
        intro a ha
        rw [List.foldr_cons]
        rcases List.mem_cons.1 ha with rfl | ha
        · exact le_max_left _ _
        · exact (ih a ha).trans (le_max_right _ _)
  exact hfold _ _ (List.mem_map.2 ⟨l, List.mem_range.2 hl, rfl⟩)

/-- Every element of a vector is a lane of a program of its grid. -/
theorem exists_program {n block p : Nat} (hblock : 0 < block) (hp : p < n) :
    ∃ pid < divCeil n block, ∃ l < block, pid * block + l = p := by
  refine ⟨p / block, ?_, p % block, Nat.mod_lt p hblock, Nat.div_add_mod' p block⟩
  rw [Nat.div_lt_iff_lt_mul hblock]
  exact Nat.lt_of_lt_of_le hp (le_divCeil_mul hblock)

namespace Launch

variable {g : Launch}

/-! ## The padded prefix sum -/

theorem nblk_of_count (hb : 0 < g.blockSize) {cnt : Nat → Int} {e : Nat} (h : cnt e = g.count e) :
    g.nblk cnt e = g.blocks e := by
  unfold nblk blocks
  rw [h, divCeil_cast hb]

theorem nblk_of_zero (hb : 0 < g.blockSize) {cnt : Nat → Int} {e : Nat} (h : cnt e = 0) :
    g.nblk cnt e = 0 := by
  unfold nblk
  rw [h]
  apply Int.ediv_eq_zero_of_lt <;> omega

theorem tlCumsum_sub {x : Nat → Int} (hx : ∀ e < g.effectiveE, x e = g.blocks e) {e : Nat}
    (he : e < g.effectiveE) : tlCumsum x e - x e = g.blockStart e := by
  have hsum : ∑ i ∈ range e, x i = ∑ i ∈ range e, (g.blocks i : Int) := by
    apply sum_congr rfl
    intro i hi
    exact hx i ((mem_range.1 hi).trans he)
  unfold tlCumsum blockStart
  rw [sum_range_succ, Int.add_sub_cancel, hsum, Nat.cast_sum]

theorem tlSum_eq {x : Nat → Int} {n : Nat} (hn : g.effectiveE ≤ n)
    (hx : ∀ e < g.effectiveE, x e = g.blocks e) (hz : ∀ e, g.effectiveE ≤ e → x e = 0) :
    tlSum n x = g.blockStart g.effectiveE := by
  have hsum : ∑ i ∈ range n, x i = ∑ i ∈ range g.effectiveE, x i := by
    symm
    apply sum_subset (range_subset_range.2 hn)
    intro i _ hi
    exact hz i (by simpa using hi)
  unfold tlSum blockStart
  rw [hsum, Nat.cast_sum]
  exact sum_congr rfl fun i hi => hx i (mem_range.1 hi)

/-! ## The small kernel -/

variable {nPad fill : Nat}

/-- What the lanes of the small kernel hold. -/
theorem small_nblk (hb : 0 < g.blockSize) (hpad : g.numel ≤ nPad) {x : Nat → Int}
    (hx : x = g.nblk fun le =>
      if decide (le < g.effectiveE) = true then tlHistogram nPad g.bin le else 0) :
    (∀ e < g.effectiveE, x e = g.blocks e) ∧ ∀ e, g.effectiveE ≤ e → x e = 0 := by
  subst hx
  constructor
  · intro e he
    apply nblk_of_count hb
    show (if decide (e < g.effectiveE) = true then tlHistogram nPad g.bin e else 0) = _
    rw [if_pos (decide_eq_true he)]
    exact congrArg Nat.cast (countP_bin hpad he)
  · intro e he
    apply nblk_of_zero hb
    exact if_neg (by simpa using he)

theorem mem_smallStores (hb : 0 < g.blockSize) (hpad : g.numel ≤ nPad) (hfill : 0 < fill)
    (op : Op Addr) : op ∈ g.smallStores nPad fill ↔ g.Prologue op := by
  have hE := effectiveE_lt_hist (g := g)
  unfold smallStores
  generalize hx : (g.nblk fun le =>
    if decide (le < g.effectiveE) = true then tlHistogram nPad g.bin le else 0) = x
  obtain ⟨hblocks, hzero⟩ := small_nblk hb hpad hx.symm
  have hstart : ∀ e < g.effectiveE, tlCumsum x e - x e = g.blockStart e :=
    fun e he => tlCumsum_sub hblocks he
  have hsum : tlSum g.hist x = g.blockStart g.effectiveE := tlSum_eq hE.le hblocks hzero
  have hnpp : tlSum g.hist x * g.blockSize = ((g.blockStart g.effectiveE * g.blockSize : Nat) : Int) := by
    rw [hsum, Nat.cast_mul]
  dsimp only
  rw [hx, hnpp]
  simp only [List.mem_append, List.mem_flatMap, mem_tlStore, List.mem_cons, List.not_mem_nil, or_false,
    decide_eq_true_iff, Bool.and_eq_true, mem_tlRange (show (0 : Int) < 1 by decide),
    mem_tlRange (show (0 : Int) < fill by omega)]
  constructor
  · rintro ((((⟨e, _, he, rfl⟩ | rfl | rfl) | ⟨e, _, he, rfl⟩) |
      ⟨_, ⟨j, rfl, _⟩, e, _, ⟨he, hj⟩, rfl⟩) | ⟨_, ⟨c, rfl, _⟩, fo, _, hp, rfl⟩)
    · rw [hstart e he, ← Nat.cast_mul]
      exact .cumsum e he.le
    · exact .cumsum _ le_rfl
    · exact .postPad
    · exact .counter e he
    · rw [hblocks e he] at hj
      have haddr : tlCumsum x e - x e + (j : Int) * 1 = ((g.blockStart e + j : Nat) : Int) := by
        rw [hstart e he]
        omega
      rw [haddr]
      apply Prologue.owner e _ he (Nat.le_add_right _ _)
      rw [blockStart_succ]
      omega
    · have haddr : (c : Int) * fill + fo = ((c * fill + fo : Nat) : Int) := by
        rw [Nat.cast_add, Nat.cast_mul]
      rw [haddr] at hp ⊢
      exact .sentinel _ (by omega)
  · intro h
    cases h with
    | cumsum e he =>
        refine .inl (.inl (.inl ?_))
        rcases Nat.lt_or_eq_of_le he with he | rfl
        · refine .inl ⟨e, he.trans hE, he, ?_⟩
          rw [hstart e he, Nat.cast_mul]
        · exact .inr (.inl rfl)
    | postPad => exact .inl (.inl (.inl (.inr (.inr rfl))))
    | counter e he => exact .inl (.inl (.inr ⟨e, he.trans hE, he, rfl⟩))
    | owner e b he hle hlt =>
        obtain ⟨j, rfl⟩ := Nat.exists_eq_add_of_le hle
        rw [blockStart_succ] at hlt
        have hj : ((j : Nat) : Int) * 1 < x e := by
          rw [hblocks e he]
          omega
        refine .inl (.inr ⟨_, ⟨j, rfl, hj.trans_le (le_tlMax (he.trans hE))⟩, e, he.trans hE,
          ⟨he, hj⟩, ?_⟩)
        rw [hstart e he, Nat.cast_add, Int.mul_one]
    | sentinel p hp =>
        have haddr : ((p / fill : Nat) : Int) * fill + ((p % fill : Nat) : Int) = p := by
          rw [← Nat.cast_mul, ← Nat.cast_add, Nat.div_add_mod']
        refine .inr ⟨_, ⟨p / fill, rfl, ?_⟩, p % fill, Nat.mod_lt p hfill, ?_, ?_⟩
        · omega
        · omega
        · rw [haddr]

theorem moeAlignSmall_spec (hb : 0 < g.blockSize) (hpad : g.numel ≤ nPad) (hfill : 0 < fill)
    (σ : Schedule) (mem : Mem) :
    ∃ mem', g.moeAlignSmall σ nPad fill mem = some mem' ∧ g.Aligned mem' := by
  have hmem : ∀ op, op ∈ σ.ops .smallStores (g.smallStores nPad fill) ↔ g.Prologue op :=
    fun op => (σ.ops_perm _ _).mem_iff.trans (mem_smallStores hb hpad hfill op)
  obtain ⟨mem₁, hrun, hready, -⟩ := run_stores hmem (fun _ _ h h' => h.inj h')
    (fun _ h => h.inBounds hb) mem
  obtain ⟨mem', hscatter, haligned⟩ := scatter_spec hb σ hready List.nodup_range
    fun t ht => List.mem_range.2 (ht.trans_le hpad)
  refine ⟨mem', ?_, haligned⟩
  rw [moeAlignSmall, hrun]
  exact hscatter

/-! ## The histogram of the large path -/

variable {block grid : Nat}

theorem mem_fillAndCountProgram {pid : Nat} {op : Op Addr} :
    op ∈ g.fillAndCountProgram block pid ↔
      (∃ l < block, pid * block + l < g.maxNumTokensPadded ∧
        op = .store (.sortedTokenIds, ((pid * block + l : Nat) : Int)) g.numel) ∨
      (∃ l < block, pid * block + l < g.effectiveE ∧
        op = .store (.fillCounter, ((pid * block + l : Nat) : Int)) 0) ∨
      ∃ e < g.effectiveE, ∃ v, op = .add (.counts, (e : Int)) v ∧ 0 < v ∧
        v = tlHistogram block (fun l => g.bin (pid * block + l)) e := by
  have hE := effectiveE_lt_hist (g := g)
  unfold fillAndCountProgram
  simp only [List.mem_append, mem_tlStore, mem_tlAtomicAdd, decide_eq_true_iff, Bool.and_eq_true,
    or_assoc]
  apply or_congr_right
  apply or_congr_right
  constructor
  · rintro ⟨e, _, ⟨he, hv⟩, rfl⟩
    exact ⟨e, he, _, rfl, hv, rfl⟩
  · rintro ⟨e, he, _, rfl, hv, rfl⟩
    exact ⟨e, he.trans hE, ⟨he, hv⟩, rfl⟩

/-- A program adds its own histogram. -/
theorem sum_amount_program (pid : Nat) {e : Nat} (he : e < g.effectiveE) :
    ((g.fillAndCountProgram block pid).map (Op.amount (.counts, (e : Int)))).sum =
      tlHistogram block (fun l => g.bin (pid * block + l)) e := by
  have hstores : ∀ (buf : Buf) (off val : Nat → Int) (mask : Nat → Bool),
      ((tlStore block buf off val mask).map (Op.amount (Buf.counts, (e : Int)))).sum = 0 := by
    intro buf off val mask
    apply sum_amount_eq_zero
    intro op hop
    obtain ⟨l, -, -, rfl⟩ := mem_tlStore.1 hop
    rfl
  unfold fillAndCountProgram
  dsimp only
  rw [List.map_append, List.sum_append, List.map_append, List.sum_append, hstores, hstores,
    Int.zero_add, Int.zero_add]
  generalize hh : tlHistogram block (fun l => g.bin (pid * block + l)) = h
  have hinj : Function.Injective fun le : Nat => (Buf.counts, (le : Int)) := by
    intro a b hab
    have := congrArg Prod.snd hab
    dsimp only at this
    omega
  have hlanes : ((List.range g.hist).filter
      fun le => decide (le < g.effectiveE) && decide (0 < h le)).Nodup := List.nodup_range.filter _
  apply (sum_amount_add hinj h e hlanes).trans
  have hmem : (e ∈ (List.range g.hist).filter
      fun le => decide (le < g.effectiveE) && decide (0 < h le)) ↔ 0 < h e := by
    rw [List.mem_filter, List.mem_range, Bool.and_eq_true, decide_eq_true_iff, decide_eq_true_iff]
    exact ⟨fun hm => hm.2.2, fun hpos => ⟨he.trans effectiveE_lt_hist, he, hpos⟩⟩
  by_cases hpos : 0 < h e
  · rw [if_pos (hmem.2 hpos)]
  · rw [if_neg (mt hmem.1 hpos)]
    have hnonneg : 0 ≤ h e := by
      rw [← hh]
      exact Int.natCast_nonneg _
    omega

/-- All programs together add the histogram of all their lanes. -/
theorem sum_amount_fillAndCount {e : Nat} (he : e < g.effectiveE) :
    ((g.fillAndCount grid block).map (Op.amount (.counts, (e : Int)))).sum =
      tlHistogram (grid * block) g.bin e := by
  induction grid with
  | zero =>
      rw [Nat.zero_mul]
      rfl
  | succ grid ih =>
      have happ : g.fillAndCount (grid + 1) block =
          g.fillAndCount grid block ++ g.fillAndCountProgram block grid := by
        unfold fillAndCount
        rw [List.range_succ, List.flatMap_append, List.flatMap_cons, List.flatMap_nil, List.append_nil]
      rw [happ, List.map_append, List.sum_append, ih, sum_amount_program grid he]
      unfold tlHistogram
      rw [Nat.succ_mul, List.range_add, List.countP_append, List.countP_map, Nat.cast_add]
      rfl

/-- What `_fill_and_count` leaves. -/
theorem fillAndCount_spec (hblock : 0 < block)
    (hgrid : max (max g.maxNumTokensPadded g.numel) g.effectiveE ≤ grid * block) (σ : Schedule)
    {mem : Mem} (hzero : ∀ i, mem (.counts, i) = 0) :
    ∃ mem', run g.inBounds (σ.ops .fillAndCount (g.fillAndCount grid block)) mem = some mem' ∧
      (∀ p : Nat, p < g.maxNumTokensPadded → mem' (.sortedTokenIds, (p : Int)) = g.numel) ∧
      (∀ e : Nat, e < g.effectiveE → mem' (.fillCounter, (e : Int)) = 0) ∧
      ∀ e : Nat, e < g.effectiveE → mem' (.counts, (e : Int)) = g.count e := by
  have hperm := σ.ops_perm .fillAndCount (g.fillAndCount grid block)
  have hmem : ∀ op, op ∈ σ.ops .fillAndCount (g.fillAndCount grid block) ↔
      ∃ pid < grid, op ∈ g.fillAndCountProgram block pid := by
    intro op
    rw [hperm.mem_iff, fillAndCount, List.mem_flatMap]
    simp only [List.mem_range]
  have hlane : ∀ p < grid * block, ∃ pid < grid, ∃ l < block, pid * block + l = p := by
    intro p hp
    exact ⟨p / block, (Nat.div_lt_iff_lt_mul hblock).2 hp, p % block, Nat.mod_lt p hblock,
      Nat.div_add_mod' p block⟩
  refine ⟨_, run_eq_some ?_ mem, ?_, ?_, ?_⟩
  · intro op hop
    obtain ⟨pid, -, hop⟩ := (hmem op).1 hop
    rcases mem_fillAndCountProgram.1 hop with ⟨l, -, hlt, rfl⟩ | ⟨l, -, hlt, rfl⟩ | ⟨e, he, v, rfl, -⟩
    · exact inBounds_iff.2 hlt
    · exact inBounds_iff.2 hlt
    · exact inBounds_iff.2 he
  · intro p hp
    apply foldl_exec_store
    · obtain ⟨pid, hpid, l, hl, rfl⟩ := hlane p (by omega)
      exact (hmem _).2 ⟨pid, hpid, mem_fillAndCountProgram.2 (.inl ⟨l, hl, hp, rfl⟩)⟩
    · intro op hop haddr
      obtain ⟨pid, -, hop⟩ := (hmem op).1 hop
      rcases mem_fillAndCountProgram.1 hop with ⟨l, -, -, rfl⟩ | ⟨l, -, -, rfl⟩ | ⟨e, -, v, rfl, -⟩
      · exact congrArg (fun q => Op.store q (g.numel : Int)) haddr
      · cases congrArg Prod.fst haddr
      · cases congrArg Prod.fst haddr
  · intro e he
    apply foldl_exec_store
    · obtain ⟨pid, hpid, l, hl, rfl⟩ := hlane e (by omega)
      exact (hmem _).2 ⟨pid, hpid, mem_fillAndCountProgram.2 (.inr (.inl ⟨l, hl, he, rfl⟩))⟩
    · intro op hop haddr
      obtain ⟨pid, -, hop⟩ := (hmem op).1 hop
      rcases mem_fillAndCountProgram.1 hop with ⟨l, -, -, rfl⟩ | ⟨l, -, -, rfl⟩ | ⟨e', -, v, rfl, -⟩
      · cases congrArg Prod.fst haddr
      · exact congrArg (fun q => Op.store q 0) haddr
      · cases congrArg Prod.fst haddr
  · intro e he
    rw [foldl_exec_add, hzero, Int.zero_add, (hperm.map _).sum_eq, sum_amount_fillAndCount he]
    · exact congrArg Nat.cast (countP_bin (by omega) he)
    · intro op hop haddr
      obtain ⟨pid, -, hop⟩ := (hmem op).1 hop
      rcases mem_fillAndCountProgram.1 hop with ⟨l, -, -, rfl⟩ | ⟨l, -, -, rfl⟩ | ⟨e', -, v, rfl, -⟩
      · cases congrArg Prod.fst haddr
      · cases congrArg Prod.fst haddr
      · exact ⟨v, congrArg (fun q => Op.add q v) haddr⟩

/-! ## The prefix sum of the large path -/

theorem mem_cumsumExperts (hb : 0 < g.blockSize) {ePadded : Nat} (hpadded : g.effectiveE ≤ ePadded)
    {mem : Mem} (hcounts : ∀ e : Nat, e < g.effectiveE → mem (.counts, (e : Int)) = g.count e)
    (op : Op Addr) :
    op ∈ g.cumsumExperts ePadded mem ↔
      g.Prologue op ∧ (op.addr.1 = .cumsum ∨ op.addr.1 = .numTokensPostPad) := by
  have hblocks : ∀ e < g.effectiveE, g.paddedBlocks mem e = g.blocks e := by
    intro e he
    unfold paddedBlocks
    rw [if_pos he]
    apply nblk_of_count hb
    rw [if_pos he]
    exact hcounts e he
  have hzero : ∀ e, g.effectiveE ≤ e → g.paddedBlocks mem e = 0 :=
    fun e he => if_neg (Nat.not_lt.2 he)
  have hstart : ∀ e < g.effectiveE,
      tlCumsum (g.paddedBlocks mem) e - g.paddedBlocks mem e = g.blockStart e :=
    fun e he => tlCumsum_sub hblocks he
  unfold cumsumExperts
  dsimp only
  rw [tlSum_eq hpadded hblocks hzero, ← Nat.cast_mul]
  simp only [List.mem_append, mem_tlStore, List.mem_cons, List.not_mem_nil, or_false,
    decide_eq_true_iff]
  constructor
  · rintro (⟨e, _, he, rfl⟩ | rfl | rfl)
    · rw [hstart e he, ← Nat.cast_mul]
      exact ⟨.cumsum e he.le, .inl rfl⟩
    · exact ⟨.cumsum _ le_rfl, .inl rfl⟩
    · exact ⟨.postPad, .inr rfl⟩
  · rintro ⟨h, hbuf⟩
    cases h with
    | cumsum e he =>
        rcases Nat.lt_or_eq_of_le he with he | rfl
        · refine .inl ⟨e, he.trans_le hpadded, he, ?_⟩
          rw [hstart e he, Nat.cast_mul]
        · exact .inr (.inl rfl)
    | postPad => exact .inr (.inr rfl)
    | counter e he => simp [Op.addr] at hbuf
    | owner e b he hle hlt => simp [Op.addr] at hbuf
    | sentinel p hp => simp [Op.addr] at hbuf

/-! ## The binary search -/

/-- The bounds of the search of a block that has an owner: the owner is below `hi` and not below `lo - 1`,
and every round halves what is between them. -/
theorem search_inv (hb : 0 < g.blockSize) {mem : Mem}
    (hcumsum : ∀ e : Nat, e ≤ g.effectiveE →
      mem (.cumsum, (e : Int)) = ((g.blockStart e * g.blockSize : Nat) : Int))
    {b : Nat} (hown : b < g.blockStart g.effectiveE) (k : Nat) :
    ∃ lo hi : Nat, g.search mem b k = ((lo : Int), (hi : Int)) ∧ lo ≤ hi ∧ hi ≤ g.effectiveE ∧
      (hi - lo) * 2 ^ k ≤ g.effectiveE ∧ (∀ e < lo, g.blockStart e ≤ b) ∧ b < g.blockStart hi := by
  induction k with
  | zero =>
      refine ⟨0, g.effectiveE, rfl, Nat.zero_le _, le_rfl, ?_, fun e he => absurd he (Nat.not_lt_zero e),
        hown⟩
      rw [pow_zero, Nat.mul_one, Nat.sub_zero]
  | succ k ih =>
      obtain ⟨lo, hi, hs, hle, hhi, hlen, hlo, hlt⟩ := ih
      have hmid : ((lo : Int) + hi) / 2 = ((lo + hi) / 2 : Nat) := by omega
      have hoff : mem (.cumsum, (((lo + hi) / 2 : Nat) : Int)) / g.blockSize =
          g.blockStart ((lo + hi) / 2) := by
        rw [hcumsum _ (by omega), ← Int.natCast_ediv, Nat.mul_div_cancel _ hb]
      have hhalve : ∀ n, n * 2 ≤ hi - lo → n * 2 ^ (k + 1) ≤ g.effectiveE := by
        intro n hn
        calc n * 2 ^ (k + 1) = n * 2 * 2 ^ k := by rw [pow_succ, Nat.mul_assoc, Nat.mul_comm 2]
          _ ≤ (hi - lo) * 2 ^ k := Nat.mul_le_mul_right _ hn
          _ ≤ g.effectiveE := hlen
      rw [search, hs, searchRound, hmid, hoff]
      by_cases hgo : (g.blockStart ((lo + hi) / 2) : Int) ≤ b
      · rw [if_pos hgo]
        have hmidlt : (lo + hi) / 2 < hi := by
          by_contra hge
          have hmono := blockStart_mono (g := g) (Nat.le_of_not_lt hge)
          omega
        refine ⟨(lo + hi) / 2 + 1, hi, by rw [Nat.cast_add]; rfl, hmidlt, hhi, ?_, ?_, hlt⟩
        · apply hhalve
          omega
        · intro e he
          have hmono := blockStart_mono (g := g) (Nat.le_of_lt_succ he)
          omega
      · rw [if_neg hgo]
        refine ⟨lo, (lo + hi) / 2, rfl, by omega, by omega, ?_, hlo, by omega⟩
        apply hhalve
        omega

/-- With as many rounds as `effective_E` has bits, the search ends at the owner. -/
theorem search_owner (hb : 0 < g.blockSize) {mem : Mem}
    (hcumsum : ∀ e : Nat, e ≤ g.effectiveE →
      mem (.cumsum, (e : Int)) = ((g.blockStart e * g.blockSize : Nat) : Int))
    {b : Nat} (hown : b < g.blockStart g.effectiveE) :
    ∃ e < g.effectiveE, (g.search mem b g.effectiveE.size).1 - 1 = (e : Nat) ∧
      g.blockStart e ≤ b ∧ b < g.blockStart (e + 1) := by
  obtain ⟨lo, hi, hs, hle, hhi, hlen, hlo, hlt⟩ := search_inv hb hcumsum hown g.effectiveE.size
  have hsize : g.effectiveE < 2 ^ g.effectiveE.size := Nat.lt_size_self _
  have heq : hi = lo := by
    by_contra hne
    have hpos : 1 * 2 ^ g.effectiveE.size ≤ (hi - lo) * 2 ^ g.effectiveE.size :=
      Nat.mul_le_mul_right _ (by omega)
    omega
  subst heq
  have hpos : hi ≠ 0 := by
    rintro rfl
    exact absurd hlt (Nat.not_lt_zero b)
  obtain ⟨e, rfl⟩ := Nat.exists_eq_succ_of_ne_zero hpos
  refine ⟨e, hhi, ?_, hlo e (Nat.lt_succ_self e), hlt⟩
  rw [hs]
  show ((e + 1 : Nat) : Int) - 1 = e
  omega

theorem mem_fillExpertIds (hb : 0 < g.blockSize) (hblock : 0 < block)
    (hgrid : g.maxNumMBlocks ≤ grid * block) {mem : Mem}
    (hcumsum : ∀ e : Nat, e ≤ g.effectiveE →
      mem (.cumsum, (e : Int)) = ((g.blockStart e * g.blockSize : Nat) : Int))
    (hpost : mem (.numTokensPostPad, 0) = ((g.blockStart g.effectiveE * g.blockSize : Nat) : Int))
    (op : Op Addr) :
    op ∈ g.fillExpertIds grid g.effectiveE.size block mem ↔
      g.Prologue op ∧ op.addr.1 = .expertIds := by
  have htotal : mem (.numTokensPostPad, 0) / g.blockSize = g.blockStart g.effectiveE := by
    rw [hpost, ← Int.natCast_ediv, Nat.mul_div_cancel _ hb]
  unfold fillExpertIds
  simp only [List.mem_flatMap, List.mem_range, fillExpertIdsProgram, mem_tlStore, decide_eq_true_iff,
    htotal, Nat.cast_lt]
  constructor
  · rintro ⟨pid, _, l, _, hlt, rfl⟩
    obtain ⟨e, he, hs, hle, hlt⟩ := search_owner hb hcumsum hlt
    rw [hs]
    exact ⟨.owner e _ he hle hlt, rfl⟩
  · rintro ⟨h, hbuf⟩
    cases h with
    | owner e b he hle hlt =>
        have hmono := blockStart_mono (g := g) (show e + 1 ≤ g.effectiveE from he)
        have hown : b < g.blockStart g.effectiveE := by omega
        have hmax := blockStart_le_maxNumMBlocks hb
        obtain ⟨e', _, hs, hle', hlt'⟩ := search_owner hb hcumsum hown
        rw [owner_unique hle hlt hle' hlt', ← hs]
        refine ⟨b / block, (Nat.div_lt_iff_lt_mul hblock).2 (by omega), b % block, Nat.mod_lt b hblock, ?_⟩
        rw [Nat.div_add_mod']
        exact ⟨hown, rfl⟩
    | cumsum e he => simp [Op.addr] at hbuf
    | postPad => simp [Op.addr] at hbuf
    | counter e he => simp [Op.addr] at hbuf
    | sentinel p hp => simp [Op.addr] at hbuf

/-! ## The large path -/

theorem moeAlignLarge_spec (hb : 0 < g.blockSize) (hblock : 0 < block) (σ : Schedule) (mem : Mem) :
    ∃ mem', g.moeAlignLarge σ block mem = some mem' ∧ g.Aligned mem' := by
  have hzero : ∀ i, zeroCounts mem (.counts, i) = 0 := fun i => if_pos rfl
  obtain ⟨mem₁, hrun₁, hsorted, hfill, hcounts⟩ := fillAndCount_spec (g := g) hblock
    (le_divCeil_mul hblock) σ hzero
  have hmem₂ : ∀ op, op ∈ σ.ops .cumsumExperts (g.cumsumExperts (nextPowerOf2 g.effectiveE) mem₁) ↔
      g.Prologue op ∧ (op.addr.1 = .cumsum ∨ op.addr.1 = .numTokensPostPad) :=
    fun op => (σ.ops_perm _ _).mem_iff.trans (mem_cumsumExperts hb (le_nextPowerOf2 _) hcounts op)
  obtain ⟨mem₂, hrun₂, hput₂, hkeep₂⟩ := run_stores hmem₂ (fun _ _ h h' => h.1.inj h'.1)
    (fun _ h => h.1.inBounds hb) mem₁
  have hcumsum : ∀ e : Nat, e ≤ g.effectiveE →
      mem₂ (.cumsum, (e : Int)) = ((g.blockStart e * g.blockSize : Nat) : Int) :=
    fun e he => hput₂ _ _ ⟨.cumsum e he, .inl rfl⟩
  have hpost : mem₂ (.numTokensPostPad, 0) =
      ((g.blockStart g.effectiveE * g.blockSize : Nat) : Int) := hput₂ _ _ ⟨.postPad, .inr rfl⟩
  have hgrid : g.maxNumMBlocks ≤ divCeil (max g.maxNumMBlocks 1) block * block :=
    (le_max_left _ _).trans (le_divCeil_mul hblock)
  have hmem₃ : ∀ op, op ∈ σ.ops .fillExpertIds
      (g.fillExpertIds (divCeil (max g.maxNumMBlocks 1) block) g.effectiveE.size block mem₂) ↔
      g.Prologue op ∧ op.addr.1 = .expertIds :=
    fun op => (σ.ops_perm _ _).mem_iff.trans (mem_fillExpertIds hb hblock hgrid hcumsum hpost op)
  obtain ⟨mem₃, hrun₃, hput₃, hkeep₃⟩ := run_stores hmem₃ (fun _ _ h h' => h.1.inj h'.1)
    (fun _ h => h.1.inBounds hb) mem₂
  -- a kernel leaves the buffers that it does not write
  have hkept₃ : ∀ b i, b ≠ Buf.expertIds → mem₃ (b, i) = mem₂ (b, i) :=
    fun b i hbuf => hkeep₃ (b, i) fun op hop haddr =>
      hbuf ((congrArg Prod.fst haddr).symm.trans hop.2)
  have hkept₂ : ∀ b i, b ≠ Buf.cumsum → b ≠ Buf.numTokensPostPad → mem₂ (b, i) = mem₁ (b, i) :=
    fun b i hbuf hbuf' => hkeep₂ (b, i) fun op hop haddr =>
      hop.2.elim (fun h => hbuf ((congrArg Prod.fst haddr).symm.trans h))
        fun h => hbuf' ((congrArg Prod.fst haddr).symm.trans h)
  have hready : g.Ready mem₃ := by
    intro p v hp
    cases hp with
    | cumsum e he => rw [hkept₃ _ _ (by decide), hcumsum e he]
    | postPad => rw [hkept₃ _ _ (by decide), hpost]
    | counter e he => rw [hkept₃ _ _ (by decide), hkept₂ _ _ (by decide) (by decide), hfill e he]
    | owner e b he hle hlt => exact hput₃ _ _ ⟨.owner e b he hle hlt, rfl⟩
    | sentinel p hp =>
        rw [hkept₃ _ _ (by decide), hkept₂ _ _ (by decide) (by decide)]
        exact hsorted p (hp.trans_le (blockStart_mul_le hb))
  have hcover : ∀ t < g.numel, t ∈ List.range (divCeil (max g.numel 1) block * block) :=
    fun t ht => List.mem_range.2 (ht.trans_le ((le_max_left _ _).trans (le_divCeil_mul hblock)))
  obtain ⟨mem', hscatter, haligned⟩ := scatter_spec hb σ hready List.nodup_range hcover
  refine ⟨mem', ?_, haligned⟩
  rw [moeAlignLarge]
  simp only [hrun₁, hrun₂, hrun₃, Option.bind_eq_bind, Option.bind_some]
  exact hscatter

end Launch

end MoeAlign

end FreeToken
