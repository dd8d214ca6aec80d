import Mathlib

/-!
# The memory of a grid

The lanes of a grid write to one memory in an order that nobody chooses.  Lanes that only store and
add are a list of operations; lanes that draw a number from a counter and then write where that number
says are interleaved turn by turn.  A write out of bounds is a fault.
-/

set_option autoImplicit false

namespace GridMemory

open Function

variable {Addr : Type} [DecidableEq Addr]

/-! ## Stores and atomic additions -/

inductive Op (Addr : Type) where
  | store (p : Addr) (v : Int)
  | add (p : Addr) (v : Int)

namespace Op

def addr : Op Addr → Addr
  | store p _ => p
  | add p _ => p

def exec (mem : Addr → Int) : Op Addr → Addr → Int
  | store p v => update mem p v
  | add p v => update mem p (mem p + v)

/-- What the operation adds at an address. -/
def amount (p : Addr) : Op Addr → Int
  | store _ _ => 0
  | add q v => if q = p then v else 0

theorem exec_of_ne {op : Op Addr} {p : Addr} (h : op.addr ≠ p) (mem : Addr → Int) :
    op.exec mem p = mem p := by
  cases op with
  | store q v => exact update_of_ne (Ne.symm h) _ _
  | add q v => exact update_of_ne (Ne.symm h) _ _

end Op

variable (ok : Addr → Bool)

def run : List (Op Addr) → (Addr → Int) → Option (Addr → Int)
  | [], mem => some mem
  | op :: ops, mem => if ok op.addr then run ops (op.exec mem) else none

variable {ok}

theorem run_eq_some {ops : List (Op Addr)} (h : ∀ op ∈ ops, ok op.addr) :
    ∀ mem, run ok ops mem = some (ops.foldl Op.exec mem) := by
  induction ops with
  | nil => exact fun mem => rfl
  | cons op ops ih =>
      intro mem
      rw [run, if_pos (h op List.mem_cons_self), List.foldl_cons]
      exact ih (fun op' hop' => h op' (List.mem_cons_of_mem op hop')) (op.exec mem)

theorem foldl_exec_of_ne {ops : List (Op Addr)} {p : Addr} (h : ∀ op ∈ ops, op.addr ≠ p) :
    ∀ mem : Addr → Int, ops.foldl Op.exec mem p = mem p := by
  induction ops with
  | nil => exact fun mem => rfl
  | cons op ops ih =>
      intro mem
      rw [List.foldl_cons, ih (fun op' hop' => h op' (List.mem_cons_of_mem op hop'))]
      exact Op.exec_of_ne (h op List.mem_cons_self) mem

/-- An address where every operation stores the same value. -/
theorem foldl_exec_store {ops : List (Op Addr)} {p : Addr} {v : Int} (hmem : Op.store p v ∈ ops)
    (hsame : ∀ op ∈ ops, op.addr = p → op = .store p v) (mem : Addr → Int) :
    ops.foldl Op.exec mem p = v := by
  induction ops using List.reverseRecOn with
  | nil => cases hmem
  | append_singleton ops last ih =>
      rw [List.foldl_append, List.foldl_cons, List.foldl_nil]
      by_cases hlast : last.addr = p
      · rw [hsame last (by simp) hlast]
        exact update_self _ _ _
      · rw [Op.exec_of_ne hlast]
        apply ih
        · rcases List.mem_append.1 hmem with hmem | hmem
          · exact hmem
          · exact absurd (congrArg Op.addr (List.mem_singleton.1 hmem)).symm hlast
        · exact fun op hop => hsame op (List.mem_append_left _ hop)

/-- An address where every operation adds. -/
theorem foldl_exec_add {ops : List (Op Addr)} {p : Addr}
    (hadd : ∀ op ∈ ops, op.addr = p → ∃ v, op = .add p v) : ∀ mem : Addr → Int,
    ops.foldl Op.exec mem p = mem p + (ops.map (Op.amount p)).sum := by
  induction ops with
  | nil => exact fun mem => (Int.add_zero _).symm
  | cons op ops ih =>
      intro mem
      rw [List.foldl_cons, ih (fun op' hop' => hadd op' (List.mem_cons_of_mem op hop')),
        List.map_cons, List.sum_cons, ← Int.add_assoc]
      congr 1
      by_cases hop : op.addr = p
      · obtain ⟨v, rfl⟩ := hadd op List.mem_cons_self hop
        show update mem p (mem p + v) p = mem p + if p = p then v else 0
        rw [update_self, if_pos rfl]
      · rw [Op.exec_of_ne hop]
        cases op with
        | store q v => exact (Int.add_zero _).symm
        | add q v =>
            have hne : q ≠ p := hop
            show mem p = mem p + if q = p then v else 0
            rw [if_neg hne, Int.add_zero]

/-- The amount at the address of one lane of a vector of additions. -/
theorem sum_amount_add {addr : Nat → Addr} (haddr : Injective addr) (v : Nat → Int) (e : Nat)
    {lanes : List Nat} (hnodup : lanes.Nodup) :
    ((lanes.map fun l => Op.add (addr l) (v l)).map (Op.amount (addr e))).sum =
      if e ∈ lanes then v e else 0 := by
  induction lanes with
  | nil => rfl
  | cons l lanes ih =>
      have hnot : l ∉ lanes := (List.nodup_cons.1 hnodup).1
      rw [List.map_cons, List.map_cons, List.sum_cons, ih (List.nodup_cons.1 hnodup).2]
      show (if addr l = addr e then v l else 0) + _ = _
      by_cases hl : l = e
      · rw [if_pos (congrArg addr hl), if_neg (hl ▸ hnot), if_pos (hl ▸ List.mem_cons_self), hl]
        omega
      · have hmem : e ∈ l :: lanes ↔ e ∈ lanes := by
          rw [List.mem_cons, or_iff_right (Ne.symm hl)]
        rw [if_neg fun h => hl (haddr h), Int.zero_add]
        simp only [hmem]

theorem sum_amount_eq_zero {ops : List (Op Addr)} {p : Addr} (h : ∀ op ∈ ops, op.amount p = 0) :
    (ops.map (Op.amount p)).sum = 0 := by
  induction ops with
  | nil => rfl
  | cons op ops ih =>
      rw [List.map_cons, List.sum_cons, h op List.mem_cons_self,
        ih fun op' hop' => h op' (List.mem_cons_of_mem op hop')]
      rfl

/-- Stores that do not contradict one another all hold afterwards, whatever their order. -/
theorem run_stores {ops : List (Op Addr)} {Stored : Op Addr → Prop}
    (hmem : ∀ op, op ∈ ops ↔ Stored op)
    (hinj : ∀ op op', Stored op → Stored op' → op.addr = op'.addr → op = op')
    (hok : ∀ op, Stored op → ok op.addr) (mem : Addr → Int) :
    ∃ mem', run ok ops mem = some mem' ∧ (∀ p v, Stored (.store p v) → mem' p = v) ∧
      ∀ p, (∀ op, Stored op → op.addr ≠ p) → mem' p = mem p := by
  refine ⟨_, run_eq_some (fun op hop => hok op ((hmem op).1 hop)) mem, ?_, ?_⟩
  · intro p v hp
    apply foldl_exec_store ((hmem _).2 hp)
    intro op hop haddr
    exact hinj op _ ((hmem op).1 hop) hp haddr
  · intro p hp
    exact foldl_exec_of_ne (fun op hop => hp op ((hmem op).1 hop)) mem

/-! ## Numbers drawn from counters -/

variable {Lane : Type}

/-- What a lane does: it draws a number from `counter`, and writes `value` to the place `slot` of the
number added to what `base` holds. -/
structure Draw (Addr : Type) where
  counter : Addr
  base : Addr
  slot : Int → Addr
  value : Int

structure State (Addr Lane : Type) where
  mem : Addr → Int
  number : Lane → Option Int

variable (ok) (draw : Lane → Draw Addr)

section

variable [DecidableEq Lane]

/-- The first turn of a lane draws, a later one writes. -/
def turn (s : State Addr Lane) (i : Lane) : Option (State Addr Lane) :=
  match s.number i with
  | none =>
      if ok (draw i).counter then
        some { mem := update s.mem (draw i).counter (s.mem (draw i).counter + 1)
               number := update s.number i (some (s.mem (draw i).counter)) }
      else none
  | some r =>
      let p := (draw i).slot (s.mem (draw i).base + r)
      if ok p then some { s with mem := update s.mem p (draw i).value } else none

def turns (s : State Addr Lane) (order : List Lane) : Option (State Addr Lane) :=
  order.foldlM (turn ok draw) s

end

/-- The lanes of one counter, in the order of the list. -/
def line (order : List Lane) (c : Addr) : List Lane :=
  order.filter fun i => decide ((draw i).counter = c)

variable {draw}

theorem mem_line {order : List Lane} {c : Addr} {i : Lane} :
    i ∈ line draw order c ↔ i ∈ order ∧ (draw i).counter = c := by
  unfold line
  rw [List.mem_filter, decide_eq_true_iff]

theorem line_append (order : List Lane) (i : Lane) (c : Addr) :
    line draw (order ++ [i]) c =
      line draw order c ++ if (draw i).counter = c then [i] else [] := by
  unfold line
  rw [List.filter_append]
  congr 1
  by_cases h : (draw i).counter = c
  · rw [if_pos h]
    exact List.filter_eq_self.2 fun j hj => decide_eq_true (List.mem_singleton.1 hj ▸ h)
  · rw [if_neg h]
    exact List.filter_eq_nil_iff.2 fun j hj => by simpa [List.mem_singleton.1 hj] using h

variable [DecidableEq Lane]

/-- A lane keeps its place when others come after it. -/
theorem idxOf_line_append {order : List Lane} {i j : Lane} (hi : i ∈ order) :
    (line draw (order ++ [j]) (draw i).counter).idxOf i =
      (line draw order (draw i).counter).idxOf i := by
  rw [line_append]
  exact List.idxOf_append_of_mem (mem_line.2 ⟨hi, rfl⟩)

variable (draw) in
/-- The lanes `lanes` of a memory on which they do not meet: the counters start at zero, and the places
of a line are its own. -/
structure Apart (lanes : List Lane) (mem : Addr → Int) : Prop where
  nodup : lanes.Nodup
  zero : ∀ i ∈ lanes, mem (draw i).counter = 0
  counter_ok : ∀ i ∈ lanes, ok (draw i).counter
  slot_ok : ∀ i ∈ lanes, ∀ r < (line draw lanes (draw i).counter).length,
    ok ((draw i).slot (mem (draw i).base + r))
  base_counter : ∀ i ∈ lanes, ∀ j ∈ lanes, (draw i).base ≠ (draw j).counter
  base_slot : ∀ i ∈ lanes, ∀ j ∈ lanes, ∀ q, (draw i).base ≠ (draw j).slot q
  counter_slot : ∀ i ∈ lanes, ∀ j ∈ lanes, ∀ q, (draw i).counter ≠ (draw j).slot q
  slot_inj : ∀ i ∈ lanes, ∀ j ∈ lanes, ∀ r < (line draw lanes (draw i).counter).length,
    ∀ r' < (line draw lanes (draw j).counter).length,
    (draw i).slot (mem (draw i).base + r) = (draw j).slot (mem (draw j).base + r') →
      (draw i).counter = (draw j).counter ∧ r = r'

variable (draw) in
/-- The place of a lane once the lanes have drawn in the order `order`. -/
def place (order : List Lane) (mem : Addr → Int) (i : Lane) : Addr :=
  (draw i).slot (mem (draw i).base + (line draw order (draw i).counter).idxOf i)

variable (draw) in
/-- Where `mem` stands after the turns `done`, of which `order` are the first ones. -/
structure Reached (lanes : List Lane) (mem : Addr → Int) (order done : List Lane)
    (s : State Addr Lane) : Prop where
  nodup : order.Nodup
  sub : ∀ i ∈ order, i ∈ lanes
  mem_order : ∀ i, i ∈ order ↔ i ∈ done
  counter : ∀ i ∈ lanes, s.mem (draw i).counter = (line draw order (draw i).counter).length
  number : ∀ i, s.number i =
    if i ∈ order then some ((line draw order (draw i).counter).idxOf i : Int) else none
  stored : ∀ i, 2 ≤ done.count i → s.mem (place draw order mem i) = (draw i).value
  frame : ∀ p, (∀ i ∈ lanes, p ≠ (draw i).counter) →
    (∀ i ∈ lanes, ∀ r < (line draw lanes (draw i).counter).length,
      p ≠ (draw i).slot (mem (draw i).base + r)) → s.mem p = mem p

variable {ok} {lanes order done : List Lane} {mem : Addr → Int} {s : State Addr Lane} {i j : Lane}

theorem Reached.line_le (h : Reached draw lanes mem order done s) (c : Addr) :
    (line draw order c).length ≤ (line draw lanes c).length :=
  ((List.subperm_of_subset h.nodup h.sub).filter _).length_le

theorem Reached.idxOf_lt (h : Reached draw lanes mem order done s) (hi : i ∈ order) :
    (line draw order (draw i).counter).idxOf i < (line draw lanes (draw i).counter).length :=
  Nat.lt_of_lt_of_le (List.idxOf_lt_length_iff.2 (mem_line.2 ⟨hi, rfl⟩)) (h.line_le _)

/-- Two lanes that have drawn have two places. -/
theorem Reached.place_ne (h : Reached draw lanes mem order done s) (hap : Apart ok draw lanes mem)
    (hi : i ∈ order) (hj : j ∈ order) (hij : i ≠ j) :
    place draw order mem i ≠ place draw order mem j := by
  intro heq
  obtain ⟨hc, hidx⟩ := hap.slot_inj i (h.sub i hi) j (h.sub j hj) _ (h.idxOf_lt hi) _
    (h.idxOf_lt hj) heq
  rw [hc] at hidx
  apply hij
  exact (List.idxOf_inj (mem_line.2 ⟨hi, hc⟩)).1 hidx

/-- The first turn of a lane. -/
theorem Reached.draws (h : Reached draw lanes mem order done s) (hap : Apart ok draw lanes mem)
    (hi : i ∈ lanes) (hnot : i ∉ order) :
    ∃ s', turn ok draw s i = some s' ∧
      Reached draw lanes mem (order ++ [i]) (done ++ [i]) s' := by
  have hnum : s.number i = none := by rw [h.number, if_neg hnot]
  have hdone : i ∉ done := fun hd => hnot ((h.mem_order i).2 hd)
  have hlt : ∀ j ∈ order, (line draw (order ++ [i]) (draw j).counter).idxOf j =
      (line draw order (draw j).counter).idxOf j := fun j => idxOf_line_append
  refine ⟨_, by rw [turn, hnum]; exact if_pos (hap.counter_ok i hi), ?_⟩
  constructor
  · exact List.nodup_append.2 ⟨h.nodup, List.nodup_singleton i, fun j hj k hk =>
      List.mem_singleton.1 hk ▸ fun hji => hnot (hji ▸ hj)⟩
  · intro j hj
    rcases List.mem_append.1 hj with hj | hj
    · exact h.sub j hj
    · rwa [List.mem_singleton.1 hj]
  · intro j
    simp only [List.mem_append, h.mem_order j]
  · intro j hj
    show update s.mem _ _ (draw j).counter = _
    rw [line_append]
    by_cases hc : (draw j).counter = (draw i).counter
    · rw [hc, update_self, if_pos rfl, List.length_append, List.length_singleton, h.counter i hi]
      omega
    · rw [update_of_ne hc, if_neg (Ne.symm hc), List.append_nil, h.counter j hj]
  · intro j
    show update s.number i _ j = _
    by_cases hji : j = i
    · rw [hji, update_self, if_pos (by simp), line_append, if_pos rfl,
        List.idxOf_append_of_notMem fun hm => hnot (mem_line.1 hm).1, List.idxOf_cons_self,
        h.counter i hi, Nat.add_zero]
    · rw [update_of_ne hji, h.number j]
      by_cases hj : j ∈ order
      · rw [if_pos hj, if_pos (List.mem_append_left _ hj), hlt j hj]
      · rw [if_neg hj, if_neg (by simp [hj, hji])]
  · intro j hj
    have hji : j ≠ i := by
      intro hji
      rw [hji, List.count_append, List.count_eq_zero_of_not_mem hdone, List.count_singleton_self] at hj
      omega
    have hcount : 2 ≤ done.count j := by
      rwa [List.count_append, List.count_eq_zero_of_not_mem fun hm => hji (List.mem_singleton.1 hm),
        Nat.add_zero] at hj
    have hjo : j ∈ order := (h.mem_order j).2 (List.count_pos_iff.1 (by omega))
    have hplace : place draw (order ++ [i]) mem j = place draw order mem j := by
      unfold place
      rw [hlt j hjo]
    show update s.mem _ _ (place draw (order ++ [i]) mem j) = _
    have hne : place draw order mem j ≠ (draw i).counter :=
      Ne.symm (hap.counter_slot i hi j (h.sub j hjo) _)
    rw [hplace, update_of_ne hne]
    exact h.stored j hcount
  · intro p hp hq
    show update s.mem _ _ p = _
    rw [update_of_ne (hp i hi)]
    exact h.frame p hp hq

/-- A later turn of a lane. -/
theorem Reached.writes (h : Reached draw lanes mem order done s) (hap : Apart ok draw lanes mem)
    (hi : i ∈ order) :
    ∃ s', turn ok draw s i = some s' ∧ Reached draw lanes mem order (done ++ [i]) s' := by
  have hil : i ∈ lanes := h.sub i hi
  have hnum : s.number i = some ((line draw order (draw i).counter).idxOf i : Int) := by
    rw [h.number, if_pos hi]
  have hbase : s.mem (draw i).base = mem (draw i).base :=
    h.frame _ (fun j hj => hap.base_counter i hil j hj) fun j hj r _ => hap.base_slot i hil j hj _
  refine ⟨{ s with mem := update s.mem (place draw order mem i) (draw i).value }, ?_, ?_⟩
  · rw [turn, hnum]
    dsimp only
    rw [hbase]
    exact if_pos (hap.slot_ok i hil _ (h.idxOf_lt hi))
  constructor
  · exact h.nodup
  · exact h.sub
  · intro j
    rw [h.mem_order j, List.mem_append, List.mem_singleton]
    constructor
    · exact Or.inl
    · rintro (hj | rfl)
      · exact hj
      · exact (h.mem_order j).1 hi
  · intro j hj
    show update s.mem _ _ (draw j).counter = _
    have hne : (draw j).counter ≠ place draw order mem i := hap.counter_slot j hj i hil _
    rw [update_of_ne hne]
    exact h.counter j hj
  · exact h.number
  · intro j hj
    show update s.mem _ _ (place draw order mem j) = _
    by_cases hji : j = i
    · rw [hji, update_self]
    · have hcount : 2 ≤ done.count j := by
        rwa [List.count_append, List.count_eq_zero_of_not_mem fun hm => hji (List.mem_singleton.1 hm),
          Nat.add_zero] at hj
      have hjo : j ∈ order := (h.mem_order j).2 (List.count_pos_iff.1 (by omega))
      rw [update_of_ne (h.place_ne hap hjo hi hji)]
      exact h.stored j hcount
  · intro p hp hq
    show update s.mem _ _ p = _
    have hne : p ≠ place draw order mem i := hq i hil _ (h.idxOf_lt hi)
    rw [update_of_ne hne]
    exact h.frame p hp hq

theorem turns_reached (hap : Apart ok draw lanes mem) (rest : List Lane) :
    ∀ {order done : List Lane} {s : State Addr Lane}, Reached draw lanes mem order done s →
      (∀ i ∈ rest, i ∈ lanes) →
      ∃ order' s', turns ok draw s rest = some s' ∧
        Reached draw lanes mem order' (done ++ rest) s' := by
  induction rest with
  | nil =>
      intro order done s h _
      exact ⟨order, s, rfl, by rwa [List.append_nil]⟩
  | cons i rest ih =>
      intro order done s h hrest
      obtain ⟨order₁, s₁, hturn, h₁⟩ : ∃ order₁ s₁, turn ok draw s i = some s₁ ∧
          Reached draw lanes mem order₁ (done ++ [i]) s₁ := by
        by_cases hi : i ∈ order
        · obtain ⟨s₁, hturn, h₁⟩ := h.writes hap hi
          exact ⟨order, s₁, hturn, h₁⟩
        · obtain ⟨s₁, hturn, h₁⟩ := h.draws hap (hrest i List.mem_cons_self) hi
          exact ⟨order ++ [i], s₁, hturn, h₁⟩
      obtain ⟨order', s', hrun, h'⟩ := ih h₁ fun j hj => hrest j (List.mem_cons_of_mem i hj)
      refine ⟨order', s', ?_, ?_⟩
      · unfold turns at hrun ⊢
        rw [List.foldlM_cons, hturn]
        exact hrun
      · rwa [List.append_assoc] at h'

/-- When every lane has had its two turns, the lanes of a line have written to its first places. -/
theorem turns_spec (hap : Apart ok draw lanes mem) {order : List Lane}
    (horder : order.Perm (lanes ++ lanes)) :
    ∃ drawn s', turns ok draw ⟨mem, fun _ => none⟩ order = some s' ∧ drawn.Perm lanes ∧
      (∀ i ∈ lanes, s'.mem (place draw drawn mem i) = (draw i).value) ∧
      ∀ p, (∀ i ∈ lanes, p ≠ (draw i).counter) →
        (∀ i ∈ lanes, ∀ r < (line draw lanes (draw i).counter).length,
          p ≠ (draw i).slot (mem (draw i).base + r)) → s'.mem p = mem p := by
  have hstart : Reached draw lanes mem [] [] ⟨mem, fun _ => none⟩ := by
    constructor
    · exact List.nodup_nil
    · exact fun i hi => nomatch hi
    · exact fun i => Iff.rfl
    · exact fun i hi => hap.zero i hi
    · exact fun i => rfl
    · intro i hi
      rw [List.count_nil] at hi
      omega
    · exact fun p _ _ => rfl
  have hmem : ∀ i, i ∈ order ↔ i ∈ lanes := by
    intro i
    rw [horder.mem_iff, List.mem_append, or_self]
  obtain ⟨drawn, s', hrun, h⟩ := turns_reached hap order hstart fun i hi => (hmem i).1 hi
  rw [List.nil_append] at h
  refine ⟨drawn, s', hrun, ?_, ?_, h.frame⟩
  · apply (List.perm_ext_iff_of_nodup h.nodup hap.nodup).2
    exact fun i => (h.mem_order i).trans (hmem i)
  · intro i hi
    apply h.stored i
    have hone : 1 ≤ lanes.count i := List.one_le_count_iff.2 hi
    rw [horder.count_eq, List.count_append]
    omega

/-! ## Stores in any order -/

variable {V : Type}

/-- The memory after stores, one after the other. -/
def storeAll (mem : Addr → V) (stores : List (Addr × V)) : Addr → V :=
  stores.foldl (fun mem s => update mem s.1 s.2) mem

/-- An address to which only one value is stored. -/
theorem storeAll_apply {stores : List (Addr × V)} {p : Addr} {v : V} (hmem : (p, v) ∈ stores)
    (hone : ∀ s ∈ stores, s.1 = p → s.2 = v) (mem : Addr → V) : storeAll mem stores p = v := by
  unfold storeAll
  induction stores using List.reverseRecOn with
  | nil => cases hmem
  | append_singleton stores last ih =>
      rw [List.foldl_append, List.foldl_cons, List.foldl_nil]
      by_cases hlast : last.1 = p
      · rw [hlast, hone last (by simp) hlast]
        exact update_self _ _ _
      · rw [update_of_ne (Ne.symm hlast)]
        apply ih
        · rcases List.mem_append.1 hmem with hmem | hmem
          · exact hmem
          · exact absurd (congrArg Prod.fst (List.mem_singleton.1 hmem)).symm hlast
        · exact fun s hs => hone s (List.mem_append_left _ hs)

theorem storeAll_of_ne {stores : List (Addr × V)} {p : Addr} (h : ∀ s ∈ stores, s.1 ≠ p)
    (mem : Addr → V) : storeAll mem stores p = mem p := by
  unfold storeAll
  induction stores generalizing mem with
  | nil => rfl
  | cons s stores ih =>
      rw [List.foldl_cons, ih fun s' hs' => h s' (List.mem_cons_of_mem s hs')]
      exact update_of_ne (Ne.symm (h s List.mem_cons_self)) _ _

/-! ## Programs that read the memory they write -/

/-- A grid of programs; what each stores depends on what it reads. -/
structure Launch (Prog Addr V : Type) where
  programs : List Prog
  stores : Prog → (Addr → V) → List (Addr × V)

namespace Launch

variable {Prog : Type} (L : Launch Prog Addr V)

/-- What all programs store, where each reads this memory. -/
def allStores (mem : Addr → V) : List (Addr × V) := L.programs.flatMap fun p => L.stores p mem

/-- The programs run at once: each reads an address at some moment before its own first store. -/
structure Run (mem : Addr → V) where
  view : Prog → Addr → V
  events : List (Prog × Addr × V)
  perm : events.Perm (L.programs.flatMap fun p => (L.stores p (view p)).map (Prod.mk p))
  sees : ∀ p ∈ L.programs, ∀ x, ∃ k, (∀ e ∈ events.take k, e.1 ≠ p) ∧
    view p x = storeAll mem ((events.take k).map Prod.snd) x

/-- The run in which all programs read first and then store one after the other. -/
def Run.atOnce (L : Launch Prog Addr V) (mem : Addr → V) : L.Run mem where
  view _ := mem
  events := L.programs.flatMap fun p => (L.stores p mem).map (Prod.mk p)
  perm := List.Perm.refl _
  sees _ _ _ := ⟨0, fun _ he => absurd he List.not_mem_nil, rfl⟩

/-- No program stores where another one reads. -/
structure Apart (reads : Prog → Addr → Prop) : Prop where
  agree : ∀ p mem mem', (∀ x, reads p x → mem x = mem' x) → L.stores p mem = L.stores p mem'
  apart : ∀ p ∈ L.programs, ∀ p' ∈ L.programs, p' ≠ p → ∀ mem, ∀ s ∈ L.stores p' mem, ¬ reads p s.1

variable {L} {mem : Addr → V}

def Run.final (r : L.Run mem) : Addr → V := storeAll mem (r.events.map Prod.snd)

theorem Run.stores_view {reads : Prog → Addr → Prop} (h : L.Apart reads) (r : L.Run mem) {p : Prog}
    (hp : p ∈ L.programs) : L.stores p (r.view p) = L.stores p mem := by
  apply h.agree
  intro x hx
  obtain ⟨k, hother, hview⟩ := r.sees p hp x
  rw [hview]
  apply storeAll_of_ne
  intro s hs
  obtain ⟨e, he, rfl⟩ := List.mem_map.1 hs
  have hmem := r.perm.mem_iff.1 (List.mem_of_mem_take he)
  obtain ⟨p', hp', hstore⟩ := List.mem_flatMap.1 hmem
  obtain ⟨s', hs', rfl⟩ := List.mem_map.1 hstore
  intro hsame
  exact h.apart p hp p' hp' (hother _ he) _ s' hs' (hsame ▸ hx)

/-- Then the programs may as well all read the memory from before the launch. -/
theorem Run.final_eq {reads : Prog → Addr → Prop} (h : L.Apart reads) (r : L.Run mem) :
    ∃ ss, ss.Perm (L.allStores mem) ∧ r.final = storeAll mem ss := by
  refine ⟨r.events.map Prod.snd, ?_, rfl⟩
  have hperm := r.perm.map Prod.snd
  rw [List.map_flatMap] at hperm
  refine hperm.trans (List.Perm.of_eq ?_)
  apply List.flatMap_congr
  intro p hp
  rw [r.stores_view h hp, List.map_map]
  exact List.map_id _

theorem Run.final_apply {reads : Prog → Addr → Prop} (h : L.Apart reads) (r : L.Run mem) {p : Addr} {v : V}
    (hmem : (p, v) ∈ L.allStores mem) (hone : ∀ s ∈ L.allStores mem, s.1 = p → s.2 = v) :
    r.final p = v := by
  obtain ⟨ss, hperm, hfinal⟩ := r.final_eq h
  rw [hfinal]
  exact storeAll_apply (hperm.mem_iff.2 hmem) (fun s hs => hone s (hperm.mem_iff.1 hs)) mem

theorem Run.final_of_ne {reads : Prog → Addr → Prop} (h : L.Apart reads) (r : L.Run mem) {p : Addr}
    (hne : ∀ s ∈ L.allStores mem, s.1 ≠ p) : r.final p = mem p := by
  obtain ⟨ss, hperm, hfinal⟩ := r.final_eq h
  rw [hfinal]
  exact storeAll_of_ne (fun s hs => hne s (hperm.mem_iff.1 hs)) mem

end Launch

end GridMemory
