import FreeToken.Moe.OffloadSpec

/-!
# Runs of the expert slot cache

Any sequence of ensures, materializations, prefetches, releases, resets and rebuilds, each with the
copy it stages.  In every state reached the two maps undo each other and each resident expert's slot
holds its rows.
-/

set_option autoImplicit false

namespace FreeToken

namespace OffloadMoeCache

variable {Bank Row : Type}

inductive Op (Bank Row : Type)
  | ensureExpertsHybrid (layer : Nat) (expertIds : List Nat) (maxFetch fetchFraction : Int)
  | materializeLayer (layer : Nat)
  | beginPrefill
  | prefetchPrefillLayer (layer : Int)
  | releasePrefillLayer (layer : Int)
  | reset
  | rebuild (cacheSize : Nat) (fresh : FreshTensors Bank Row)

/-- Layers and experts are those of the model. -/
def Op.InRange (config : OffloadConfig Bank Row) : Op Bank Row → Prop
  | .ensureExpertsHybrid layer expertIds _ _ =>
      layer < config.numLayers ∧ ∀ e ∈ expertIds, e < config.numExperts
  | .materializeLayer layer => layer < config.numLayers
  | _ => True

/-- The state after a call, which is the old one if the call raised before it changed anything. -/
def settle (c : OffloadMoeCache Bank Row) :
    Py (OffloadMoeCache Bank Row) → OffloadMoeCache Bank Row
  | .ok c' => c'
  | .error _ => c

/-- The staged copy after an ensure or a materialization. -/
def afterCopy (c : OffloadMoeCache Bank Row) : OffloadMoeCache Bank Row := settle c (copyMissing c)

def exec (c : OffloadMoeCache Bank Row) : Op Bank Row → OffloadMoeCache Bank Row
  | .ensureExpertsHybrid layer expertIds maxFetch fetchFraction =>
      match ensureExpertsHybrid c layer expertIds maxFetch fetchFraction with
      | .ok (c', _) => afterCopy c'
      | .error _ => c
  | .materializeLayer layer => afterCopy (materializeLayer c layer)
  | .beginPrefill => beginPrefill c
  | .prefetchPrefillLayer layer => settle c (prefetchPrefillLayer c layer)
  | .releasePrefillLayer layer => releasePrefillLayer c layer
  | .reset => reset c
  | .rebuild cacheSize fresh => settle c (rebuild c cacheSize fresh)

theorem Staged.afterCopy {c : OffloadMoeCache Bank Row} {layer : Nat} (h : Staged c layer) :
    Coherent (afterCopy c) ∧ (OffloadMoeCache.afterCopy c).slots = c.slots ∧
      (OffloadMoeCache.afterCopy c).config = c.config := by
  unfold OffloadMoeCache.afterCopy
  rcases h.copyMissing with hrun | ⟨⟨e, hrun⟩, hneg, -⟩
  · rw [hrun]
    exact ⟨h.coherent_copyRows, rfl, rfl⟩
  · rw [hrun]
    exact ⟨h.coherent_of_neg hneg, rfl, rfl⟩

theorem config_materializeLayer (c : OffloadMoeCache Bank Row) (layer : Nat) :
    (materializeLayer c layer).config = c.config := rfl

theorem config_prefetchPrefillLayer {c c' : OffloadMoeCache Bank Row} {layer : Int}
    (h : prefetchPrefillLayer c layer = .ok c') : c'.config = c.config := by
  unfold prefetchPrefillLayer at h
  split at h
  · exact Except.ok.inj h ▸ rfl
  · split at h
    · cases h
    · dsimp only at h
      by_cases hsame : c.prefillBufferLayer (layer.toNat % 2) = some layer
      · rw [if_pos hsame] at h
        exact Except.ok.inj h ▸ rfl
      · rw [if_neg hsame] at h
        obtain ⟨_, -, h⟩ := Py.bind_eq_ok.1 h
        obtain rfl := Py.pure_eq_ok.1 h
        change (if c.prefillHitD2dActive = true then _ else _ : OffloadMoeCache Bank Row).config = _
        split <;> rfl

/-- One operation. -/
theorem exec_spec {c : OffloadMoeCache Bank Row} (h : Coherent c) {op : Op Bank Row}
    (hop : op.InRange c.config) : Coherent (exec c op) ∧ (exec c op).config = c.config := by
  cases op with
  | ensureExpertsHybrid layer expertIds maxFetch fetchFraction =>
      obtain ⟨c', out, hrun, hconfig, hstaged, -⟩ :=
        ensureExpertsHybrid_spec h hop.1 hop.2 maxFetch fetchFraction
      obtain ⟨hcoh, -, hcfg⟩ := hstaged.afterCopy
      unfold exec
      dsimp only
      rw [hrun]
      exact ⟨hcoh, hcfg.trans hconfig⟩
  | materializeLayer layer =>
      obtain ⟨hcoh, -, hcfg⟩ := (materializeLayer_spec h hop).afterCopy
      exact ⟨hcoh, hcfg⟩
  | beginPrefill =>
      refine ⟨beginPrefill_spec h, ?_⟩
      change (beginPrefill c).config = c.config
      unfold beginPrefill
      split <;> rfl
  | prefetchPrefillLayer layer =>
      unfold exec
      dsimp only
      cases hrun : prefetchPrefillLayer c layer with
      | error e => exact ⟨h, rfl⟩
      | ok c' => exact ⟨prefetchPrefillLayer_spec h hrun, config_prefetchPrefillLayer hrun⟩
  | releasePrefillLayer layer =>
      refine ⟨releasePrefillLayer_spec h layer, ?_⟩
      change (releasePrefillLayer c layer).config = c.config
      unfold releasePrefillLayer
      dsimp only
      split <;> rfl
  | reset => exact ⟨reset_spec h, rfl⟩
  | rebuild cacheSize fresh =>
      unfold exec
      dsimp only
      cases hrun : rebuild c cacheSize fresh with
      | error e => exact ⟨h, rfl⟩
      | ok c' =>
          obtain ⟨hcfg, hcoh⟩ := rebuild_spec hrun
          exact ⟨hcoh, hcfg⟩

theorem foldl_exec_spec (ops : List (Op Bank Row)) : ∀ c : OffloadMoeCache Bank Row, Coherent c →
    (∀ op ∈ ops, op.InRange c.config) →
    Coherent (ops.foldl exec c) ∧ (ops.foldl exec c).config = c.config := by
  induction ops with
  | nil => exact fun c h _ => ⟨h, rfl⟩
  | cons op ops ih =>
      intro c h hops
      obtain ⟨hcoh, hcfg⟩ := exec_spec h (hops op (by simp))
      obtain ⟨h1, h2⟩ := ih (exec c op) hcoh fun o ho =>
        hcfg ▸ hops o (List.mem_cons_of_mem _ ho)
      exact ⟨h1, h2.trans hcfg⟩

/-- In every state a run reaches, the maps undo each other and every resident expert's slot holds its
rows; an ensure there names experts truly, fetches at most its cap, evicts no expert of the call, and
leaves such a state after its copy. -/
theorem slot_cache_coherent {config : OffloadConfig Bank Row} {cacheSize : Nat} {overlap : Bool}
    {fresh : FreshTensors Bank Row} {c₀ : OffloadMoeCache Bank Row}
    (h₀ : create config cacheSize overlap fresh = .ok c₀) {ops : List (Op Bank Row)}
    (hops : ∀ op ∈ ops, op.InRange config) :
    Coherent (ops.foldl exec c₀) ∧
      ∀ (layer : Nat) (expertIds : List Nat) (maxFetch fetchFraction : Int),
        layer < config.numLayers → (∀ e ∈ expertIds, e < config.numExperts) →
        ∃ c' out,
          ensureExpertsHybrid (ops.foldl exec c₀) layer expertIds maxFetch fetchFraction =
            .ok (c', out) ∧
          Ensured (ops.foldl exec c₀) layer expertIds
            (fetchCap (missing (ops.foldl exec c₀) layer expertIds).length maxFetch
              (clampFraction fetchFraction)) c' out ∧
          Coherent (afterCopy c') ∧ (afterCopy c').slots = c'.slots := by
  obtain ⟨hcfg₀, hcoh₀⟩ := create_spec h₀
  obtain ⟨hcoh, hcfg⟩ := foldl_exec_spec ops c₀ hcoh₀ (hcfg₀ ▸ hops)
  refine ⟨hcoh, fun layer expertIds maxFetch fetchFraction hlayer hids => ?_⟩
  rw [← hcfg₀, ← hcfg] at hlayer hids
  obtain ⟨c', out, hrun, -, hstaged, hensured⟩ :=
    ensureExpertsHybrid_spec hcoh hlayer hids maxFetch fetchFraction
  obtain ⟨hafter, hslots, -⟩ := hstaged.afterCopy
  exact ⟨c', out, hrun, hensured, hafter, hslots⟩

/-- Two layers of two experts. -/
def smallConfig : OffloadConfig Unit Nat :=
  { numLayers := 2
    numExperts := 2
    quantFormat := .bf16
    prefillHitD2d := false
    hybridFetchByRecency := true
    hitD2dAvailable := false
    safeOffloadCopy := fun _ => true
    smallBank := fun _ => false
    bankSources := fun _ layer expert => 10 * layer + expert }

def smallFresh : FreshTensors Unit Nat :=
  { bankCaches := fun _ _ => 99
    evictSlots := fun _ => 0
    srcIndices := fun _ => 0
    prefillSlotSnapshot := fun _ => none }

def smallOps : List (Op Unit Nat) :=
  [.ensureExpertsHybrid 0 [1, 0, 1] 1 0, .beginPrefill, .prefetchPrefillLayer 1,
    .materializeLayer 1, .releasePrefillLayer 1]

theorem slot_cache_coherent_small : ∃ c₀, create smallConfig 4 true smallFresh = .ok c₀ ∧
    Coherent (smallOps.foldl exec c₀) ∧ (smallOps.foldl exec c₀).idOfSlot 1 = some 3 := by
  have hops : ∀ op ∈ smallOps, op.InRange smallConfig := by
    intro op hop
    simp only [smallOps, List.mem_cons, List.not_mem_nil, or_false] at hop
    rcases hop with rfl | rfl | rfl | rfl | rfl <;> simp [Op.InRange, smallConfig]
  have hcreate : create smallConfig 4 true smallFresh = .ok _ := rfl
  exact ⟨_, hcreate, (slot_cache_coherent hcreate hops).1, rfl⟩

end OffloadMoeCache

end FreeToken
