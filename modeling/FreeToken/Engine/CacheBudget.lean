import Mathlib.Algebra.Order.Ring.Int
import Mathlib.Tactic.Linarith

/-!
# The split of GPU memory between experts and KV pages

`engine/cache_budget.py`: experts take what the reserve of KV pages leaves, pages take the rest.
-/

set_option autoImplicit false

namespace FreeToken

namespace CacheBudget

structure Plan where
  moeCacheSize : Int
  numPages : Int
  prefillOverlap : Bool

def requiredBytes (moeCacheSize numPages perExpertBytes cachePerPage : Int) : Int :=
  moeCacheSize * perExpertBytes + numPages * cachePerPage

/-- An assertion that fails raises. -/
def planCacheBudget (budgetBytes perExpertBytes cachePerPage numExperts totalExperts : Int)
    (prefillOverlap : Bool) (kvReservePages maxSlots : Int) : Option Plan := do
  guard (0 < perExpertBytes)
  guard (0 < cachePerPage)
  let hi := min totalExperts maxSlots
  let overlap := prefillOverlap && decide (2 * numExperts ≤ hi)
  let lo := if overlap then 2 * numExperts else numExperts
  guard (lo ≤ hi)
  let kvReserveBytes := kvReservePages * cachePerPage
  let raw := (budgetBytes - kvReserveBytes) / perExpertBytes
  let moeCacheSize := max lo (min raw hi)
  let overlap := overlap && decide (2 * numExperts ≤ moeCacheSize)
  let remaining := budgetBytes - moeCacheSize * perExpertBytes
  let numPages := max (remaining / cachePerPage) kvReservePages
  guard (requiredBytes moeCacheSize numPages perExpertBytes cachePerPage ≤ budgetBytes)
  guard (1 < numPages)
  pure ⟨moeCacheSize, numPages, overlap⟩

section

variable (budgetBytes perExpertBytes cachePerPage numExperts totalExperts : Int)
  (prefillOverlap : Bool) (kvReservePages maxSlots : Int)

/-! ## What a plan is for -/

/-- A split that stays within the caps, the reserve and the budget. -/
def Admits (moe pages : Int) : Prop :=
  numExperts ≤ moe ∧ moe ≤ min totalExperts maxSlots ∧ max 2 kvReservePages ≤ pages ∧
    requiredBytes moe pages perExpertBytes cachePerPage ≤ budgetBytes

/-- No admitted split has more slots, and none with these slots has more pages. -/
structure Best (plan : Plan) : Prop where
  admits : Admits budgetBytes perExpertBytes cachePerPage numExperts totalExperts kvReservePages
    maxSlots plan.moeCacheSize plan.numPages
  slots : ∀ moe pages, Admits budgetBytes perExpertBytes cachePerPage numExperts totalExperts
    kvReservePages maxSlots moe pages → moe ≤ plan.moeCacheSize
  pages : ∀ pages, Admits budgetBytes perExpertBytes cachePerPage numExperts totalExperts
    kvReservePages maxSlots plan.moeCacheSize pages → pages ≤ plan.numPages
  overlap : plan.prefillOverlap = true → prefillOverlap = true ∧ 2 * numExperts ≤ plan.moeCacheSize

/-- A best plan is returned where some split is admitted, and none where none is. -/
def OptimalAndComplete : Prop :=
  ((∃ moe pages, Admits budgetBytes perExpertBytes cachePerPage numExperts totalExperts
      kvReservePages maxSlots moe pages) →
    ∃ plan, planCacheBudget budgetBytes perExpertBytes cachePerPage numExperts totalExperts
        prefillOverlap kvReservePages maxSlots = some plan ∧
      Best budgetBytes perExpertBytes cachePerPage numExperts totalExperts prefillOverlap
        kvReservePages maxSlots plan) ∧
  ((¬ ∃ moe pages, Admits budgetBytes perExpertBytes cachePerPage numExperts totalExperts
      kvReservePages maxSlots moe pages) →
    planCacheBudget budgetBytes perExpertBytes cachePerPage numExperts totalExperts
      prefillOverlap kvReservePages maxSlots = none)

/-- The floor of overlap fits beside the reserve, and two pages are left by the experts: because the
reserve has them, or all slots fit beside them, or the bytes below one more expert pay for them. -/
def RoomLeft : Prop :=
  (prefillOverlap = true → 2 * numExperts ≤ min totalExperts maxSlots →
    requiredBytes (2 * numExperts) kvReservePages perExpertBytes cachePerPage ≤ budgetBytes) ∧
  (2 ≤ kvReservePages ∨
    requiredBytes (min totalExperts maxSlots) 2 perExpertBytes cachePerPage ≤ budgetBytes ∨
    (2 - kvReservePages) * cachePerPage ≤
      (budgetBytes - kvReservePages * cachePerPage) % perExpertBytes)

end

/-! ## The planner, read once -/

theorem guard_bind_eq_some {α : Type} {p : Prop} [Decidable p] {f : Unit → Option α} {a : α} :
    (guard p >>= f) = some a ↔ p ∧ f () = some a := by
  by_cases hp : p
  · rw [show (guard p : Option Unit) = some () from if_pos hp]
    exact ⟨fun h => ⟨hp, h⟩, fun h => h.2⟩
  · rw [show (guard p : Option Unit) = none from if_neg hp]
    constructor
    · intro h
      cases h
    · intro h
      exact absurd h.1 hp

section

variable {budgetBytes perExpertBytes cachePerPage numExperts totalExperts : Int}
  {prefillOverlap : Bool} {kvReservePages maxSlots : Int}

/-- The least number of slots the planner settles for. -/
def floorSlots (numExperts totalExperts : Int) (prefillOverlap : Bool) (maxSlots : Int) : Int :=
  if prefillOverlap && decide (2 * numExperts ≤ min totalExperts maxSlots) then 2 * numExperts
  else numExperts

/-- The experts the budget holds beside the reserve. -/
def rawSlots (budgetBytes perExpertBytes cachePerPage kvReservePages : Int) : Int :=
  (budgetBytes - kvReservePages * cachePerPage) / perExpertBytes

theorem planCacheBudget_eq_some {plan : Plan} (hpe : 0 < perExpertBytes) (hcpp : 0 < cachePerPage) :
    planCacheBudget budgetBytes perExpertBytes cachePerPage numExperts totalExperts prefillOverlap
        kvReservePages maxSlots = some plan ↔
      floorSlots numExperts totalExperts prefillOverlap maxSlots ≤ min totalExperts maxSlots ∧
      plan.moeCacheSize = max (floorSlots numExperts totalExperts prefillOverlap maxSlots)
        (min (rawSlots budgetBytes perExpertBytes cachePerPage kvReservePages)
          (min totalExperts maxSlots)) ∧
      plan.numPages =
        max ((budgetBytes - plan.moeCacheSize * perExpertBytes) / cachePerPage) kvReservePages ∧
      plan.prefillOverlap = (prefillOverlap && decide (2 * numExperts ≤ min totalExperts maxSlots) &&
        decide (2 * numExperts ≤ plan.moeCacheSize)) ∧
      requiredBytes plan.moeCacheSize plan.numPages perExpertBytes cachePerPage ≤ budgetBytes ∧
      1 < plan.numPages := by
  unfold planCacheBudget
  rw [guard_bind_eq_some, guard_bind_eq_some]
  dsimp only
  rw [guard_bind_eq_some, guard_bind_eq_some, guard_bind_eq_some]
  constructor
  · intro h
    obtain ⟨-, -, hlo, hbudget, hpages, hplan⟩ := h
    cases hplan
    exact ⟨hlo, rfl, rfl, rfl, hbudget, hpages⟩
  · intro h
    obtain ⟨moe, pages, overlap⟩ := plan
    obtain ⟨hlo, hmoe, hnum, hoverlap, hbudget, hpages⟩ := h
    dsimp only at hmoe hnum hoverlap hbudget hpages
    subst hmoe
    subst hnum
    rw [hoverlap]
    exact ⟨hpe, hcpp, hlo, hbudget, hpages, rfl⟩

theorem floorSlots_ge (hn : 0 < numExperts) :
    numExperts ≤ floorSlots numExperts totalExperts prefillOverlap maxSlots := by
  unfold floorSlots
  split <;> omega

theorem le_rawSlots_iff {m : Int} (hpe : 0 < perExpertBytes) :
    m ≤ rawSlots budgetBytes perExpertBytes cachePerPage kvReservePages ↔
      requiredBytes m kvReservePages perExpertBytes cachePerPage ≤ budgetBytes := by
  unfold rawSlots requiredBytes
  rw [Int.le_ediv_iff_mul_le hpe]
  omega

/-- What the experts that fit beside the reserve leave over. -/
theorem rawSlots_mul :
    rawSlots budgetBytes perExpertBytes cachePerPage kvReservePages * perExpertBytes =
      budgetBytes - kvReservePages * cachePerPage -
        (budgetBytes - kvReservePages * cachePerPage) % perExpertBytes := by
  unfold rawSlots
  have hdm := Int.ediv_mul_add_emod (budgetBytes - kvReservePages * cachePerPage) perExpertBytes
  omega

theorem requiredBytes_mono {m m' p p' : Int} (hpe : 0 < perExpertBytes) (hcpp : 0 < cachePerPage)
    (hm : m ≤ m') (hp : p ≤ p') :
    requiredBytes m p perExpertBytes cachePerPage ≤ requiredBytes m' p' perExpertBytes cachePerPage := by
  have hslots := Int.mul_le_mul_of_nonneg_right hm (Int.le_of_lt hpe)
  have hpages := Int.mul_le_mul_of_nonneg_right hp (Int.le_of_lt hcpp)
  unfold requiredBytes
  omega

/-- The smallest split decides whether one is admitted. -/
theorem exists_admits_iff (hpe : 0 < perExpertBytes) (hcpp : 0 < cachePerPage) :
    (∃ moe pages, Admits budgetBytes perExpertBytes cachePerPage numExperts totalExperts
      kvReservePages maxSlots moe pages) ↔
    numExperts ≤ min totalExperts maxSlots ∧
      requiredBytes numExperts (max 2 kvReservePages) perExpertBytes cachePerPage ≤ budgetBytes := by
  constructor
  · intro h
    obtain ⟨m, p, hfloor, hcap, hpages, hcost⟩ := h
    exact ⟨Int.le_trans hfloor hcap,
      Int.le_trans (requiredBytes_mono hpe hcpp hfloor hpages) hcost⟩
  · intro h
    exact ⟨numExperts, max 2 kvReservePages, Int.le_refl _, h.1, Int.le_refl _, h.2⟩

/-! ## What is returned is best -/

theorem planCacheBudget_best {plan : Plan} (hpe : 0 < perExpertBytes) (hcpp : 0 < cachePerPage)
    (hn : 0 < numExperts)
    (h : planCacheBudget budgetBytes perExpertBytes cachePerPage numExperts totalExperts
      prefillOverlap kvReservePages maxSlots = some plan) :
    Best budgetBytes perExpertBytes cachePerPage numExperts totalExperts prefillOverlap
      kvReservePages maxSlots plan := by
  obtain ⟨hlo, hmoe, hnum, hoverlap, hbudget, hpages⟩ :=
    (planCacheBudget_eq_some hpe hcpp).mp h
  have hfloor := @floorSlots_ge numExperts totalExperts prefillOverlap maxSlots hn
  constructor
  · exact ⟨by omega, by omega, by omega, hbudget⟩
  · intro m p hadmits
    obtain ⟨-, hcap, hreserve, hcost⟩ := hadmits
    have hraw : m ≤ rawSlots budgetBytes perExpertBytes cachePerPage kvReservePages := by
      rw [le_rawSlots_iff hpe]
      exact Int.le_trans (requiredBytes_mono hpe hcpp (Int.le_refl m) (by omega)) hcost
    omega
  · intro p hadmits
    have hcost := hadmits.2.2.2
    have hfits : p ≤ (budgetBytes - plan.moeCacheSize * perExpertBytes) / cachePerPage := by
      rw [Int.le_ediv_iff_mul_le hcpp]
      unfold requiredBytes at hcost
      omega
    omega
  · intro hplan
    rw [hoverlap] at hplan
    simp only [Bool.and_eq_true, decide_eq_true_eq] at hplan
    exact ⟨hplan.1.1, hplan.2⟩

/-! ## When a plan is returned -/

theorem roomLeft_of_returned {plan : Plan} (hpe : 0 < perExpertBytes) (hcpp : 0 < cachePerPage)
    (h : planCacheBudget budgetBytes perExpertBytes cachePerPage numExperts totalExperts
      prefillOverlap kvReservePages maxSlots = some plan) :
    RoomLeft budgetBytes perExpertBytes cachePerPage numExperts totalExperts prefillOverlap
      kvReservePages maxSlots := by
  obtain ⟨hlo, hmoe, hnum, -, hbudget, hpages⟩ := (planCacheBudget_eq_some hpe hcpp).mp h
  constructor
  · intro hprefill hcap
    have hfloor : floorSlots numExperts totalExperts prefillOverlap maxSlots = 2 * numExperts := by
      unfold floorSlots
      rw [hprefill, decide_eq_true hcap]
      rfl
    apply Int.le_trans (requiredBytes_mono hpe hcpp _ _) hbudget
    · omega
    · omega
  · by_cases hreserve : 2 ≤ kvReservePages
    · exact .inl hreserve
    · right
      by_cases hall : min totalExperts maxSlots ≤
          rawSlots budgetBytes perExpertBytes cachePerPage kvReservePages
      · left
        apply Int.le_trans (requiredBytes_mono hpe hcpp _ _) hbudget
        · omega
        · omega
      · right
        have htwo : requiredBytes
            (rawSlots budgetBytes perExpertBytes cachePerPage kvReservePages) 2 perExpertBytes
            cachePerPage ≤ budgetBytes := by
          apply Int.le_trans (requiredBytes_mono hpe hcpp _ _) hbudget
          · omega
          · omega
        unfold requiredBytes at htwo
        rw [rawSlots_mul] at htwo
        rw [Int.sub_mul]
        omega

theorem returned_of_roomLeft (hpe : 0 < perExpertBytes) (hcpp : 0 < cachePerPage)
    (hfeasible : ∃ moe pages, Admits budgetBytes perExpertBytes cachePerPage numExperts totalExperts
      kvReservePages maxSlots moe pages)
    (hroom : RoomLeft budgetBytes perExpertBytes cachePerPage numExperts totalExperts prefillOverlap
      kvReservePages maxSlots) :
    ∃ plan, planCacheBudget budgetBytes perExpertBytes cachePerPage numExperts totalExperts
      prefillOverlap kvReservePages maxSlots = some plan := by
  obtain ⟨hcap, hcost⟩ := (exists_admits_iff hpe hcpp).mp hfeasible
  obtain ⟨hoverlap, htwo⟩ := hroom
  have hfloor : floorSlots numExperts totalExperts prefillOverlap maxSlots ≤
        min totalExperts maxSlots ∧
      floorSlots numExperts totalExperts prefillOverlap maxSlots ≤
        rawSlots budgetBytes perExpertBytes cachePerPage kvReservePages := by
    rw [le_rawSlots_iff hpe]
    unfold floorSlots
    by_cases hov : (prefillOverlap && decide (2 * numExperts ≤ min totalExperts maxSlots)) = true
    · rw [if_pos hov]
      simp only [Bool.and_eq_true, decide_eq_true_eq] at hov
      exact ⟨hov.2, hoverlap hov.1 hov.2⟩
    · rw [if_neg hov]
      exact ⟨hcap, Int.le_trans (requiredBytes_mono hpe hcpp (Int.le_refl _) (by omega)) hcost⟩
  obtain ⟨moe, hmoe⟩ : ∃ moe, moe = min
      (rawSlots budgetBytes perExpertBytes cachePerPage kvReservePages)
      (min totalExperts maxSlots) := ⟨_, rfl⟩
  have hreserve : requiredBytes moe kvReservePages perExpertBytes cachePerPage ≤ budgetBytes := by
    rw [← le_rawSlots_iff hpe]
    omega
  have hpages : kvReservePages ≤ (budgetBytes - moe * perExpertBytes) / cachePerPage := by
    rw [Int.le_ediv_iff_mul_le hcpp]
    unfold requiredBytes at hreserve
    omega
  have hpages₂ : 2 ≤ (budgetBytes - moe * perExpertBytes) / cachePerPage := by
    rcases htwo with hbig | hall | hleft
    · omega
    · rw [Int.le_ediv_iff_mul_le hcpp]
      have hle : moe ≤ min totalExperts maxSlots := by omega
      have htwo := Int.le_trans (requiredBytes_mono hpe hcpp hle (Int.le_refl 2)) hall
      unfold requiredBytes at htwo
      omega
    · rw [Int.le_ediv_iff_mul_le hcpp]
      have hle : moe ≤ rawSlots budgetBytes perExpertBytes cachePerPage kvReservePages := by omega
      have hmul := Int.mul_le_mul_of_nonneg_right hle (Int.le_of_lt hpe)
      rw [rawSlots_mul] at hmul
      rw [Int.sub_mul] at hleft
      omega
  refine ⟨⟨moe, (budgetBytes - moe * perExpertBytes) / cachePerPage,
      prefillOverlap && decide (2 * numExperts ≤ min totalExperts maxSlots) &&
        decide (2 * numExperts ≤ moe)⟩,
    (planCacheBudget_eq_some hpe hcpp).mpr ⟨hfloor.1, ?_, ?_, rfl, ?_, ?_⟩⟩
  · dsimp only
    omega
  · dsimp only
    omega
  · have hdiv := Int.ediv_mul_le (budgetBytes - moe * perExpertBytes) (Int.ne_of_gt hcpp)
    unfold requiredBytes
    dsimp only
    omega
  · dsimp only
    omega

/-- The planner is optimal and complete exactly where overlap and two pages find room. -/
theorem optimalAndComplete_iff (hpe : 0 < perExpertBytes) (hcpp : 0 < cachePerPage)
    (hn : 0 < numExperts) :
    OptimalAndComplete budgetBytes perExpertBytes cachePerPage numExperts totalExperts
        prefillOverlap kvReservePages maxSlots ↔
      ((∃ moe pages, Admits budgetBytes perExpertBytes cachePerPage numExperts totalExperts
          kvReservePages maxSlots moe pages) →
        RoomLeft budgetBytes perExpertBytes cachePerPage numExperts totalExperts prefillOverlap
          kvReservePages maxSlots) := by
  constructor
  · intro h hfeasible
    obtain ⟨plan, hrun, -⟩ := h.1 hfeasible
    exact roomLeft_of_returned hpe hcpp hrun
  · intro h
    refine ⟨fun hfeasible => ?_, fun hnone => ?_⟩
    · obtain ⟨plan, hrun⟩ := returned_of_roomLeft hpe hcpp hfeasible (h hfeasible)
      exact ⟨plan, hrun, planCacheBudget_best hpe hcpp hn hrun⟩
    · cases hrun : planCacheBudget budgetBytes perExpertBytes cachePerPage numExperts totalExperts
          prefillOverlap kvReservePages maxSlots with
      | none => rfl
      | some plan =>
          exact absurd ⟨_, _, (planCacheBudget_best hpe hcpp hn hrun).admits⟩ hnone

theorem optimalAndComplete_iff_small :
    OptimalAndComplete 4 1 1 1 2 true 2 2 ↔
      ((∃ moe pages, Admits 4 1 1 1 2 2 2 moe pages) → RoomLeft 4 1 1 1 2 true 2 2) :=
  optimalAndComplete_iff (by decide) (by decide) (by decide)

/-- Overlap is asked for and its floor does not fit; no page is reserved and the experts take all. -/
theorem overlap_or_experts_take_all :
    ¬ OptimalAndComplete 3 1 1 1 2 true 2 2 ∧ ¬ OptimalAndComplete 3 1 1 1 3 false 0 3 := by
  constructor
  · intro h
    obtain ⟨plan, hrun, -⟩ := h.1 ⟨1, 2, by decide, by decide, by decide, by decide⟩
    exact nomatch hrun
  · intro h
    obtain ⟨plan, hrun, -⟩ := h.1 ⟨1, 2, by decide, by decide, by decide, by decide⟩
    exact nomatch hrun

end

end CacheBudget

end FreeToken
