import FreeToken.Lib.WindowScan
import FreeToken.KvCache.RadixMap
import FreeToken.KvCache.SwaRuns

/-!
# What a match of the sliding-window cache returns

The longest prefix in the tree, cut back to the longest front whose window is live or that is live
throughout.  Apart from one split and the stamps of the returned path the tree stays as it is.
-/

set_option autoImplicit false

namespace FreeToken

open BlockTrie Blocks WindowScan

variable {ps w : Nat} {t t' : RadixTree} {ids : List Token} {k : Nat}

/-- `p` tokens of `ids` are whole pages of the tree. -/
structure Present (ps : Nat) (t : RadixTree) (ids : List Token) (p : Nat) : Prop where
  le : p ≤ ids.length
  dvd : ps ∣ p
  mem : ids.take p = [] ∨ ∃ n ∈ t, ids.take p <+: n.path

theorem Reshape.blockOf_eq (hw : WF ps t) (h : Reshape ps t t') (q : List Token) :
    blockOf ps t' q = blockOf ps t q := by
  have hm : Represents ps t (toMap hw) := ⟨hw, rfl⟩
  rw [← (hm.reshape h).block q, hm.block q]

/-- Where a walk ends nothing more of `ids` is in the tree. -/
theorem Walked.greatest (hw : WF ps t) (h : Walked ps t ids t' k) :
    IsGreatest {p | Present ps t ids p} k := by
  have hw' := h.reshape.wf hw
  have hklen : (ids.take k).length = k := List.length_take_of_le h.le
  constructor
  · refine ⟨h.le, h.dvd hw, ?_⟩
    by_cases hnil : ids.take k = []
    · exact .inl hnil
    · have hsome := hw'.isSome_front h.bound List.prefix_rfl hnil (hw'.boundary_dvd h.bound)
      rw [h.reshape.blockOf_eq hw] at hsome
      obtain ⟨n, hn, hc⟩ := isSome_blockOf.1 hsome
      exact .inr ⟨n, hn, hc.le⟩
  · rintro p ⟨hle, hdvd, hmem⟩
    by_contra hlt
    have hkp : k < p := Nat.lt_of_not_le hlt
    have hplen : (ids.take p).length = p := List.length_take_of_le hle
    rcases hmem with hnil | ⟨n, hn, hp⟩
    · rw [hnil] at hplen
      exact absurd hplen (by simp only [List.length_nil]; omega)
    · -- the next node on the way to `n` starts with the next page of `ids`
      have hkn : ids.take k <+: n.path := (List.take_prefix_take_left hkp.le).trans hp
      have hlen := hp.length_le
      obtain ⟨m, hm, hmp, hmn⟩ := hw'.exists_child h.bound
        (h.reshape.boundary hw (.inr ⟨n, hn, rfl⟩)) hkn (by omega)
      refine h.stop (by omega) m hm hmp ?_
      rw [Node.block_eq (hw'.block_le hm) hmn, hmp, hklen]
      obtain ⟨a, ha⟩ := h.dvd hw
      obtain ⟨b, hb⟩ := hdvd
      have hpage : k + ps ≤ p := by
        rw [ha, hb] at hkp ⊢
        have hab : a < b := Nat.lt_of_mul_lt_mul_left hkp
        calc ps * a + ps = ps * (a + 1) := by rw [Nat.mul_add, Nat.mul_one]
          _ ≤ ps * b := Nat.mul_le_mul_left ps hab
      obtain ⟨rest, hrest⟩ := hp
      rw [← hrest, List.drop_append_of_le_length (by omega), List.take_append_of_le_length (by
        rw [List.length_drop]; omega), List.drop_take, List.take_take, Nat.min_eq_left (by omega)]

namespace SwaRadixCache

/-- Token `i` of `ids` is in the tree with its window KV. -/
def LiveToken (ps : Nat) (t : RadixTree) (ids : List Token) (i : Nat) : Prop :=
  ∃ n ∈ t, n.Covers ps (ids.take ((i / ps + 1) * ps)) ∧ n.data.swaTombstone = false

/-- The page of a token is in the node the walk went through. -/
theorem covers_page (hps : 0 < ps) {n : RadixTreeNode} {l : Nat} (hpre : n.pre = ids.take k)
    (hk : ps ∣ k) (hl : ps ∣ l) (hfits : k + l ≤ ids.length) (hkey : ids.take (k + l) <+: n.path)
    {i : Nat} (hi : k ≤ i) (hil : i < k + l) : n.Covers ps (ids.take ((i / ps + 1) * ps)) := by
  have hend : (i / ps + 1) * ps ≤ k + l := by
    obtain ⟨a, ha⟩ := Nat.dvd_add hk hl
    rw [ha] at hil ⊢
    rw [Nat.mul_comm]
    apply Nat.mul_le_mul_left
    exact (Nat.div_lt_iff_lt_mul hps).2 (by rwa [Nat.mul_comm])
  have hstart : i < (i / ps + 1) * ps := Nat.lt_mul_of_div_lt (Nat.lt_succ_self _) hps
  have hlen : (ids.take ((i / ps + 1) * ps)).length = (i / ps + 1) * ps :=
    List.length_take_of_le (hend.trans hfits)
  refine ⟨?_, (List.take_prefix_take_left hend).trans hkey, ?_⟩
  · rw [hpre, List.length_take, hlen]
    omega
  · rw [hlen]
    exact Nat.dvd_mul_left ps _

/-! ## The walk -/

theorem coversWindow_iff {s : MatchState} : s.coversWindow w = true ↔ Covers w s.matchSinceTomb := by
  unfold MatchState.coversWindow Covers
  cases s.matchSinceTomb <;> simp

/-- The state of a match that has read the boundary `ids[:prefixPos]`; `b` is the best front so
far. -/
structure Matching (ps w : Nat) (t : RadixTree) (ids : List Token) (s : MatchState) (b : Nat) :
    Prop where
  le : s.prefixPos ≤ ids.length
  bound : Boundary s.nodes (ids.take s.prefixPos)
  value : s.value = pathValues s.nodes (ids.take s.prefixPos)
  bestNode : s.bestNode = ids.take b
  bestBound : Boundary s.nodes (ids.take b)
  bestValue : s.bestValue = pathValues s.nodes (ids.take b)
  scan : Scan (LiveToken ps t ids) w s.prefixPos s.matchSinceTomb b

namespace Matching

variable {s : MatchState} {b : Nat}

theorem commitBest (h : Matching ps w t ids s b) :
    Matching ps w t ids (s.commitBest w ids) (Scan.commit w s.prefixPos s.matchSinceTomb b) := by
  obtain ⟨hle, hbound, hvalue, hnode, hbb, hbv, hscan⟩ := h
  have hcommitted := hscan.committed
  unfold MatchState.commitBest
  unfold Scan.commit at hcommitted ⊢
  by_cases hc : Covers w s.matchSinceTomb
  · rw [if_pos (coversWindow_iff.2 hc)]
    rw [if_pos hc] at hcommitted ⊢
    exact ⟨hle, hbound, hvalue, rfl, hbound, hvalue, hcommitted⟩
  · rw [if_neg fun h => hc (coversWindow_iff.1 h)]
    rw [if_neg hc] at hcommitted ⊢
    exact ⟨hle, hbound, hvalue, hnode, hbb, hbv, hcommitted⟩

theorem commitBest_greatest (h : Matching ps w t ids s b) :
    IsGreatest {p | p ≤ s.prefixPos ∧ Safe (LiveToken ps t ids) w p}
      (Scan.commit w s.prefixPos s.matchSinceTomb b) :=
  h.scan.commit_greatest

end Matching

@[simp] theorem commitBest_nodes (s : MatchState) (w : Nat) (ids : List Token) :
    (s.commitBest w ids).nodes = s.nodes := by
  unfold MatchState.commitBest
  split <;> rfl

@[simp] theorem commitBest_prefixPos (s : MatchState) (w : Nat) (ids : List Token) :
    (s.commitBest w ids).prefixPos = s.prefixPos := by
  unfold MatchState.commitBest
  split <;> rfl

/-- Before a tombstone the best front is taken and the run starts over. -/
def openSegment (s : MatchState) (w : Nat) (ids : List Token) (tombstone : Bool) : MatchState :=
  if tombstone then { s.commitBest w ids with matchSinceTomb := some 0 } else s

@[simp] theorem openSegment_nodes (s : MatchState) (w : Nat) (ids : List Token) (tombstone : Bool) :
    (openSegment s w ids tombstone).nodes = s.nodes := by
  unfold openSegment
  split
  · exact commitBest_nodes s w ids
  · rfl

@[simp] theorem openSegment_prefixPos (s : MatchState) (w : Nat) (ids : List Token)
    (tombstone : Bool) : (openSegment s w ids tombstone).prefixPos = s.prefixPos := by
  unfold openSegment
  split
  · exact commitBest_prefixPos s w ids
  · rfl

/-- One segment of the walk: the tokens of the node `x` of the tree `t'` behind the front read so
far. -/
theorem Matching.segment (hw : 0 < w) {s : MatchState} {b : Nat} (h : Matching ps w t ids s b)
    {u : RadixTree} (hwu : WF ps u) (hbound : ∀ r, Boundary s.nodes r → Boundary u r)
    (hvalues : ∀ r, Boundary s.nodes r → pathValues u r = pathValues s.nodes r)
    {x : RadixTreeNode} (hx : x ∈ u) (hpre : x.pre = ids.take s.prefixPos)
    (hpath : x.path = ids.take (s.prefixPos + x.value.length))
    (hfits : s.prefixPos + x.value.length ≤ ids.length) {tombstone : Bool}
    (hlive : ∀ i, s.prefixPos ≤ i → i < s.prefixPos + x.value.length →
      (LiveToken ps t ids i ↔ tombstone = false)) :
    ∃ b', Matching ps w t ids
      ({ openSegment s w ids tombstone with nodes := u }.advance x.value tombstone) b' := by
  have hvalue : pathValues u (ids.take (s.prefixPos + x.value.length)) =
      pathValues s.nodes (ids.take s.prefixPos) ++ x.value := by
    rw [← hpath, hwu.pathValues_path hx, hpre, hvalues _ h.bound]
  have hb : Boundary u (ids.take (s.prefixPos + x.value.length)) := .inr ⟨x, hx, hpath⟩
  have hlen : x.value.length = x.key.length := hwu.value_length x hx
  have hpos := List.length_pos_iff.2 (hwu.key_ne x hx)
  cases tombstone with
  | false =>
      refine ⟨b, hfits, hb, ?_, h.bestNode, hbound _ h.bestBound, ?_, ?_⟩
      · show s.value ++ x.value = _
        rw [h.value, ← hvalue]
        rfl
      · show s.bestValue = pathValues u (ids.take b)
        rw [h.bestValue, hvalues _ h.bestBound]
      · exact h.scan.live_segment fun i hi hil => (hlive i hi hil).2 rfl
  | true =>
      have hc := h.commitBest
      have hval := hc.value
      have hbb := hc.bestBound
      have hbv := hc.bestValue
      rw [commitBest_nodes] at hval hbb hbv
      rw [commitBest_prefixPos] at hval
      have hdead : ∀ i, s.prefixPos ≤ i → i < s.prefixPos + x.value.length →
          ¬ LiveToken ps t ids i := fun i hi hil hl => by
        cases (hlive i hi hil).1 hl
      have hkept : (s.commitBest w ids).prefixPos + x.value.length =
          s.prefixPos + x.value.length := by
        rw [commitBest_prefixPos]
      have hscan := h.scan.committed.dead_segment hw
        (fun p hp hps => h.commitBest_greatest.2 ⟨hp, hps⟩) (by omega) hdead
      rw [← hkept] at hfits hb hvalue hscan
      refine ⟨_, hfits, hb, ?_, hc.bestNode, hbound _ hbb, ?_, hscan⟩
      · show (s.commitBest w ids).value ++ x.value = _
        rw [hval, ← hvalue]
        rfl
      · show (s.commitBest w ids).bestValue = pathValues u _
        rw [hbv, hvalues _ hbb]

/-- Where the walk stops: no child goes on with the rest of `ids`. -/
def Stops (ps : Nat) (ids : List Token) (s : MatchState) : Prop :=
  s.prefixPos < ids.length → ∀ m ∈ s.nodes, m.pre = ids.take s.prefixPos →
    m.key.take ps ≠ (ids.drop s.prefixPos).take ps

/-- `t'` is `t`, or `t` with one node cut in two at `ids[:k]`. -/
def CutAt (ps : Nat) (t t' : RadixTree) (p : NodeRef) : Prop :=
  t' = t ∨ ∃ n pos, Cut ps t n pos ∧ p = n.pre ++ n.key.take pos ∧ t' = t.splitAt n.path pos

theorem CutAt.reshape {p : NodeRef} (h : CutAt ps t t' p) : Reshape ps t t' := by
  rcases h with rfl | ⟨n, pos, hc, -, rfl⟩
  · exact .refl
  · exact Reshape.refl.cut hc

/-- The matched tokens of an edge are live unless the child is a tombstone. -/
theorem live_iff_of_descent (hps : 0 < ps) (hwf : WF ps t) {child : RadixTreeNode} {m : Nat}
    (d : Descent ps t ids k child m) (hk : ps ∣ k) {i : Nat} (hi : k ≤ i) (hil : i < k + m) :
    LiveToken ps t ids i ↔ child.data.swaTombstone = false := by
  have hkey : ids.take (k + m) <+: child.path := by
    rw [← d.key]
    exact (List.prefix_append_right_inj _).2 (List.take_prefix _ _)
  have hc := covers_page hps d.pre hk d.dvd d.fits hkey hi hil
  constructor
  · rintro ⟨n, hn, hcn, hln⟩
    rw [← hwf.covers_unique hn d.mem hcn hc]
    exact hln
  · exact fun hl => ⟨child, d.mem, hc, hl⟩

/-- The last step of a walk, into the head of an edge. -/
theorem Matching.cut (hps : 0 < ps) (hw : 0 < w) {s : MatchState} {b m : Nat} (hwf : WF ps s.nodes)
    (h : Matching ps w s.nodes ids s b) {child : RadixTreeNode}
    (d : Descent ps s.nodes ids s.prefixPos child m) (hlt : m < child.key.length)
    {s' : MatchState} (hs' : s' = { openSegment s w ids child.data.swaTombstone with
      nodes := s.nodes.splitAt child.path m }.advance (child.value.take m)
        child.data.swaTombstone) :
    (∃ b', Matching ps w s.nodes ids s' b') ∧ Stops ps ids s' ∧
      CutAt ps s.nodes s'.nodes (ids.take s'.prefixPos) := by
  have hcut := d.cut hps hlt
  have hreshape : Reshape ps s.nodes (s.nodes.splitAt child.path m) := Reshape.refl.cut hcut
  have hmlen : (child.value.take m).length = m := by
    rw [List.length_take, hwf.value_length child d.mem]
    exact Nat.min_eq_left d.le
  have hhead : (Node.mk child.pre (child.key.take m) (child.value.take m)
      child.data.splitPrefix : RadixTreeNode) ∈ s.nodes.splitAt child.path m :=
    mem_split.2 (.inr ⟨child, d.mem, rfl, Node.mem_halves.2 (.inl rfl)⟩)
  have hdvdk : ps ∣ s.prefixPos := by
    have := hwf.boundary_dvd h.bound
    rwa [List.length_take_of_le h.le] at this
  have hnext : s.prefixPos + (child.value.take m).length = s.prefixPos + m := by rw [hmlen]
  have hend : s'.prefixPos = s.prefixPos + m := by
    rw [hs']
    show (openSegment s w ids child.data.swaTombstone).prefixPos + (child.value.take m).length = _
    rw [openSegment_prefixPos, hmlen]
  refine ⟨?_, ?_, ?_⟩
  · rw [hs']
    apply h.segment hw (hreshape.wf hwf) (fun r => hreshape.boundary hwf)
      (fun r => hreshape.pathValues_eq hwf) hhead d.pre
    · rw [hnext, ← d.key]
      rfl
    · rw [hnext]
      exact d.fits
    · intro i hi hil
      apply live_iff_of_descent hps hwf d hdvdk hi
      rwa [hnext] at hil
  · intro _
    rw [hend, hs']
    exact d.cut_stop hps hwf hlt _ _
  · rw [hend, hs']
    exact .inr ⟨child, m, hcut, d.key.symm, rfl⟩

/-- A step of the walk over a whole edge. -/
theorem Matching.descend (hps : 0 < ps) (hw : 0 < w) {s : MatchState} {b m : Nat}
    (hwf : WF ps s.nodes) (h : Matching ps w s.nodes ids s b) {child : RadixTreeNode}
    (d : Descent ps s.nodes ids s.prefixPos child m) (hfull : m = child.key.length) :
    ∃ b', Matching ps w s.nodes ids ((openSegment s w ids child.data.swaTombstone).advance
      child.value child.data.swaTombstone) b' := by
  have hlen := hwf.value_length child d.mem
  have hnext : s.prefixPos + child.value.length = s.prefixPos + m := by rw [hlen, hfull]
  have hdvdk : ps ∣ s.prefixPos := by
    have := hwf.boundary_dvd h.bound
    rwa [List.length_take_of_le h.le] at this
  have hsame : ({ openSegment s w ids child.data.swaTombstone with nodes := s.nodes } :
      MatchState) = openSegment s w ids child.data.swaTombstone := by
    rw [← openSegment_nodes s w ids child.data.swaTombstone]
  rw [← hsame]
  apply h.segment hw hwf (fun _ hr => hr) (fun _ _ => rfl) d.mem d.pre
  · rw [hnext]
    exact d.path hfull
  · rw [hnext]
    exact d.fits
  · intro i hi hil
    apply live_iff_of_descent hps hwf d hdvdk hi
    rwa [hnext] at hil

theorem matchLoop_spec (hps : 0 < ps) (hw : 0 < w) :
    ∀ (fuel : Nat) (s : MatchState) (b : Nat), WF ps s.nodes → Matching ps w s.nodes ids s b →
      ids.length ≤ fuel + s.prefixPos →
      (∃ b', Matching ps w s.nodes ids (matchLoop ps w ids fuel s) b') ∧
        Stops ps ids (matchLoop ps w ids fuel s) ∧
        CutAt ps s.nodes (matchLoop ps w ids fuel s).nodes
          (ids.take (matchLoop ps w ids fuel s).prefixPos) := by
  intro fuel
  induction fuel with
  | zero =>
      intro s b _ h hfuel
      rw [matchLoop]
      exact ⟨⟨b, h⟩, fun hlt => by omega, .inl rfl⟩
  | succ fuel ih =>
      intro s b hwf h hfuel
      rw [matchLoop]
      split
      · split
        · rename_i hnone
          exact ⟨⟨b, h⟩, fun _ m hm => child?_eq_none.1 hnone m hm, .inl rfl⟩
        · rename_i child hchild
          have d := hwf.descent hps h.le hchild
          have hblk := d.block_le
          have hlen := hwf.value_length child d.mem
          have hopen : (if child.data.swaTombstone = true then
              { s.commitBest w ids with matchSinceTomb := some 0 } else s) =
              openSegment s w ids child.data.swaTombstone := rfl
          rw [hopen]
          dsimp only
          rw [openSegment_prefixPos]
          generalize alignDown (commonLength child.key (ids.drop s.prefixPos)) ps = m at d hblk ⊢
          split
          · omega
          · split
            · rename_i hlt
              rw [openSegment_nodes]
              exact h.cut hps hw hwf d hlt (by simp only [openSegment_prefixPos])
            · rename_i hge
              have hfull : m = child.key.length := le_antisymm d.le (Nat.le_of_not_lt hge)
              obtain ⟨b', hb'⟩ := h.descend hps hw hwf d hfull
              have hnodes : ((openSegment s w ids child.data.swaTombstone).advance child.value
                  child.data.swaTombstone).nodes = s.nodes := openSegment_nodes _ _ _ _
              have hpos : ((openSegment s w ids child.data.swaTombstone).advance child.value
                  child.data.swaTombstone).prefixPos = s.prefixPos + child.value.length := by
                show (openSegment s w ids child.data.swaTombstone).prefixPos + _ = _
                rw [openSegment_prefixPos]
              have hnext := ih _ b' (by rw [hnodes]; exact hwf) (by rw [hnodes]; exact hb')
                (by rw [hpos]; omega)
              rw [hnodes] at hnext
              exact hnext
      · rename_i hdone
        exact ⟨⟨b, h⟩, fun hlt => absurd hlt hdone, .inl rfl⟩

/-! ## What stays -/

/-- Two nodes hold the page `q` in the same way. -/
structure SamePage (ps : Nat) (q : List Token) (n n' : RadixTreeNode) : Prop where
  value : n'.blockAt ps q = n.blockAt ps q
  refCount : n'.data.refCount = n.data.refCount
  swaTombstone : n'.data.swaTombstone = n.data.swaTombstone
  swaRefCount : n'.data.swaRefCount = n.data.swaRefCount

/-- `c'` holds what `c` holds: its counters, every boundary and at most the one at `p` more, every
page with its index, counts and tombstone, the lock handles at their boundaries, and the stamps off
the path of `node`. -/
structure Unchanged (ps : Nat) (c c' : PrefixCache) (p node : NodeRef) : Prop where
  counters : c' = { c with nodes := c'.nodes, clk := c.clk + 1 }
  bounds : ∀ r, Boundary c.nodes r → Boundary c'.nodes r
  newBound : ∀ r, Boundary c'.nodes r → Boundary c.nodes r ∨ r = p
  pages : ∀ q, ∀ n ∈ c.nodes, n.Covers ps q → ∃ n' ∈ c'.nodes, n'.Covers ps q ∧
    SamePage ps q n n' ∧ (¬ q <+: node → n'.data.timestamp = n.data.timestamp)
  noPages : ∀ q, ∀ n' ∈ c'.nodes, n'.Covers ps q → ∃ n ∈ c.nodes, n.Covers ps q
  handles : ∀ u r, (∃ n ∈ c'.nodes, n.data.swaUuid = some u ∧ n.pre = r) ↔
    ∃ n ∈ c.nodes, n.data.swaUuid = some u ∧ n.pre = r

/-- Stamping rewrites the stamps of the nodes stamped and nothing else. -/
theorem foldl_touch (base : Nat) : ∀ (ns : List (RadixTreeNode × Nat)) (t : RadixTree),
    ∃ τ : RadixTreeNode → Nat,
      ns.foldl (fun t nd => t.touch nd.1.path (base - nd.2)) t =
        retag t (fun n => { n.data with timestamp := τ n }) ∧
      ∀ n : RadixTreeNode, (∀ nd ∈ ns, n.path ≠ nd.1.path) → τ n = n.data.timestamp := by
  intro ns
  induction ns with
  | nil =>
      intro t
      refine ⟨fun n => n.data.timestamp, ?_, fun _ _ => rfl⟩
      show t = t.map _
      rw [List.map_id'']
      exact fun _ => rfl
  | cons nd ns ih =>
      intro t
      obtain ⟨τ, hfold, hτ⟩ := ih (t.touch nd.1.path (base - nd.2))
      rw [List.foldl_cons, hfold, RadixTree.touch_eq, retag_retag]
      refine ⟨fun n => τ { n with data := onlyAt nd.1.path (fun d =>
        { d with timestamp := base - nd.2 }) n }, ?_, fun n hn => ?_⟩
      · refine retag_congr fun n _ => ?_
        dsimp only [onlyAt]
        by_cases hp : n.path = nd.1.path
        · simp only [if_pos hp]
        · simp only [if_neg hp]
      · have hne : n.path ≠ nd.1.path := hn nd List.mem_cons_self
        have hsame : onlyAt nd.1.path (fun d => { d with timestamp := base - nd.2 }) n = n.data :=
          if_neg hne
        show τ { n with data := onlyAt nd.1.path (fun d =>
          { d with timestamp := base - nd.2 }) n } = _
        rw [hsame]
        exact hτ n fun x hx => hn x (List.mem_cons_of_mem _ hx)

theorem SamePage.refl (q : List Token) (n : RadixTreeNode) : SamePage ps q n n :=
  ⟨rfl, rfl, rfl, rfl⟩

/-- A cut hands every page on as it is. -/
theorem CutAt.pages (hw : WF ps t) {p : NodeRef} (h : CutAt ps t t' p) {q : List Token}
    {n : RadixTreeNode} (hn : n ∈ t) (hq : n.Covers ps q) :
    ∃ n' ∈ t', n'.Covers ps q ∧ SamePage ps q n n' ∧ n'.data.timestamp = n.data.timestamp := by
  rcases h with rfl | ⟨x, pos, hc, -, rfl⟩
  · exact ⟨n, hn, hq, .refl q n, rfl⟩
  · by_cases hp : n.path = x.path
    · obtain rfl := hw.eq_of_path hn hc.mem hp
      obtain ⟨m, hm, hmq⟩ := hq.exists_half hc.lt NodeData.splitPrefix NodeData.splitSuffix
      refine ⟨m, mem_split.2 (.inr ⟨n, hn, rfl, hm⟩), hmq, ?_⟩
      have hblock := hw.blockAt_half hn hc.lt hc.dvd hm hmq
      rcases Node.mem_halves.1 hm with rfl | rfl
      · exact ⟨⟨hblock, rfl, rfl, rfl⟩, rfl⟩
      · exact ⟨⟨hblock, rfl, rfl, rfl⟩, rfl⟩
    · exact ⟨n, mem_split.2 (.inl ⟨hn, hp⟩), hq, .refl q n, rfl⟩

theorem CutAt.noPages (hw : WF ps t) {p : NodeRef} (h : CutAt ps t t' p) {q : List Token}
    {n' : RadixTreeNode} (hn : n' ∈ t') (hq : n'.Covers ps q) : ∃ n ∈ t, n.Covers ps q := by
  rcases h with rfl | ⟨x, pos, hc, -, rfl⟩
  · exact ⟨n', hn, hq⟩
  · rcases mem_split.1 hn with ⟨hnt, -⟩ | ⟨k, hk, -, hmk⟩
    · exact ⟨n', hnt, hq⟩
    · exact ⟨k, hk, hq.of_half hmk⟩

/-- A cut moves the handle of a window boundary to the half that starts where the node did. -/
theorem CutAt.handles (hw : WF ps t) {p : NodeRef} (h : CutAt ps t t' p) (u : Nat) (r : NodeRef) :
    (∃ n ∈ t', n.data.swaUuid = some u ∧ n.pre = r) ↔
      ∃ n ∈ t, n.data.swaUuid = some u ∧ n.pre = r := by
  rcases h with rfl | ⟨x, pos, hc, -, rfl⟩
  · exact Iff.rfl
  · constructor
    · rintro ⟨n', hn, hu, hr⟩
      rcases mem_split.1 hn with ⟨hnt, -⟩ | ⟨k, hk, -, hmk⟩
      · exact ⟨n', hnt, hu, hr⟩
      · rcases Node.mem_halves.1 hmk with rfl | rfl
        · exact ⟨k, hk, hu, hr⟩
        · cases hu
    · rintro ⟨n, hn, hu, hr⟩
      by_cases hp : n.path = x.path
      · obtain rfl := hw.eq_of_path hn hc.mem hp
        exact ⟨_, mem_split.2 (.inr ⟨n, hn, rfl, Node.mem_halves.2 (.inl rfl)⟩), hu, hr⟩
      · exact ⟨n, mem_split.2 (.inl ⟨hn, hp⟩), hu, hr⟩

theorem CutAt.newBound (hw : WF ps t) {p : NodeRef} (h : CutAt ps t t' p) {r : NodeRef}
    (hr : Boundary t' r) : Boundary t r ∨ r = p := by
  rcases h with rfl | ⟨x, pos, hc, rfl, rfl⟩
  · exact .inl hr
  · exact (hc.boundary hw _ _).1 hr

/-- A cut and the stamps of a path. -/
theorem CutAt.unchanged {c : PrefixCache} (hw : WF ps c.nodes) {p node : NodeRef} {u : RadixTree}
    (h : CutAt ps c.nodes u p) (hnode : Boundary u node) :
    Unchanged ps c (stampPath { c with nodes := u } node) p node := by
  have hwu := h.reshape.wf hw
  obtain ⟨τ, hfold, hτ⟩ := foldl_touch ((c.clk + 1) * eventStride) (chain u node).zipIdx u
  have hnodes : (stampPath { c with nodes := u } node).nodes =
      retag u (fun n => { n.data with timestamp := τ n }) := hfold
  constructor
  · rfl
  · intro r hr
    rw [hnodes]
    exact boundary_retag.2 (h.reshape.boundary hw hr)
  · intro r hr
    rw [hnodes] at hr
    exact h.newBound hw (boundary_retag.1 hr)
  · intro q n hn hq
    obtain ⟨n', hn', hq', hsame, hstamp⟩ := h.pages hw hn hq
    rw [hnodes]
    refine ⟨_, mem_retag.2 ⟨n', hn', rfl⟩, ⟨hq'.lt, hq'.le, hq'.dvd⟩,
      ⟨hsame.value, hsame.refCount, hsame.swaTombstone, hsame.swaRefCount⟩, fun hoff => ?_⟩
    -- only the nodes of the returned path are stamped
    show τ n' = n.data.timestamp
    rw [← hstamp]
    apply hτ
    intro nd hnd hpath
    have hmem := List.fst_mem_of_mem_zipIdx hnd
    have hon := ((hwu.mem_chain hnode).1 hmem).2
    rw [← hpath] at hon
    exact hoff (hq'.le.trans hon)
  · intro q n' hn' hq
    rw [hnodes] at hn'
    obtain ⟨m, hm, rfl⟩ := mem_retag.1 hn'
    exact h.noPages hw hm ⟨hq.lt, hq.le, hq.dvd⟩
  · intro v r
    rw [hnodes, ← h.handles hw]
    constructor
    · rintro ⟨n, hn, hu, hr⟩
      obtain ⟨m, hm, rfl⟩ := mem_retag.1 hn
      exact ⟨m, hm, hu, hr⟩
    · rintro ⟨n, hn, hu, hr⟩
      exact ⟨_, mem_retag.2 ⟨n, hn, rfl⟩, hu, hr⟩

/-! ## The match -/

/-- A front that may be reused: the path is live throughout, or over the last window. -/
def Reusable (ps w : Nat) (t : RadixTree) (ids : List Token) (p : Nat) : Prop :=
  ps ∣ p ∧ Safe (LiveToken ps t ids) w p

/-- A match of `ids` in `c` that left `c'`: `k` tokens are in the tree and as many of them as
possible are reused. -/
structure BestMatch (ps w : Nat) (c : PrefixCache) (ids : List Token) (c' : PrefixCache)
    (m : SwaMatch) (k : Nat) : Prop where
  longest : IsGreatest {p | Present ps c.nodes ids p} k
  cachedLen : IsGreatest {p | p ≤ k ∧ Reusable ps w c.nodes ids p} m.cachedLen
  node : m.node = ids.take m.cachedLen
  bound : Boundary c'.nodes m.node
  indices : m.kvIndices = pathValues c'.nodes m.node
  length : m.kvIndices.length = m.cachedLen
  stored : ∀ q, q <+: m.node → ∀ n ∈ c.nodes, n.Covers ps q →
    BlockMap.lastBlock ps m.kvIndices q = n.blockAt ps q
  unchanged : Unchanged ps c c' (ids.take k) m.node

theorem matchPrefix_best (hps : 0 < ps) (hw : 0 < w) {c : PrefixCache} (hsize : c.pageSize = ps)
    (hwin : c.slidingWindowSize = w) (hwf : WF ps c.nodes) (ids : List Token) :
    ∃ k, BestMatch ps w c ids (matchPrefix c ids).1 (matchPrefix c ids).2 k := by
  subst hsize hwin
  have hstart : Matching c.pageSize c.slidingWindowSize c.nodes ids
      { nodes := c.nodes, prefixPos := 0, value := [], matchSinceTomb := none, bestValue := [],
        bestNode := [] } 0 :=
    ⟨Nat.zero_le _, .inl List.take_zero, rfl, rfl, .inl List.take_zero, rfl, Scan.start _ _⟩
  obtain ⟨⟨b, hmatch⟩, hstops, hcut⟩ := matchLoop_spec hps hw ids.length
    { nodes := c.nodes, prefixPos := 0, value := [], matchSinceTomb := none, bestValue := [],
      bestNode := [] } 0 hwf hstart (Nat.le_add_right _ _)
  unfold matchPrefix
  dsimp only at hmatch hstops hcut ⊢
  generalize matchLoop c.pageSize c.slidingWindowSize ids ids.length
    { nodes := c.nodes, prefixPos := 0, value := [], matchSinceTomb := none, bestValue := [],
      bestNode := [] } = s at hmatch hstops hcut ⊢
  rw [commitBest_nodes]
  have hbest := hmatch.commitBest
  have hgreatest := hmatch.commitBest_greatest
  generalize Scan.commit c.slidingWindowSize s.prefixPos s.matchSinceTomb b = b' at hbest hgreatest
  have hwalked : Walked c.pageSize c.nodes ids s.nodes s.prefixPos :=
    ⟨hcut.reshape, hmatch.le, hmatch.bound, hstops⟩
  have hwu := hwalked.reshape.wf hwf
  have hnode := hbest.bestNode
  have hbound := hbest.bestBound
  have hvalue := hbest.bestValue
  rw [commitBest_nodes] at hbound hvalue
  have hlen : (s.commitBest c.slidingWindowSize ids).bestValue.length = b' := by
    rw [hvalue, hwu.length_pathValues hbound]
    exact List.length_take_of_le (hgreatest.1.1.trans hmatch.le)
  have hdvd := hwu.boundary_dvd hbound
  rw [List.length_take_of_le (hgreatest.1.1.trans hmatch.le)] at hdvd
  have hunchanged := hcut.unchanged hwf hbound
  have hstamp : Reshape c.pageSize s.nodes _ := stampPath_reshape { c with nodes := s.nodes }
    (s.commitBest c.slidingWindowSize ids).bestNode
  rw [← hnode] at hbound hvalue hunchanged
  refine ⟨s.prefixPos, hwalked.greatest hwf, ⟨⟨?_, ?_⟩, ?_⟩, ?_, hstamp.boundary hwu hbound, ?_, rfl,
    ?_, hunchanged⟩
  · rw [hlen]
    exact hgreatest.1.1
  · rw [hlen]
    exact ⟨hdvd, hgreatest.1.2⟩
  · rintro p ⟨hle, -, hsafe⟩
    rw [hlen]
    exact hgreatest.2 ⟨hle, hsafe⟩
  · rw [hlen]
    exact hnode
  · show (s.commitBest c.slidingWindowSize ids).bestValue = _
    rw [hvalue]
    exact (hstamp.pathValues_eq hwu hbound).symm
  · intro q hq n hn hc
    show BlockMap.lastBlock _ (s.commitBest c.slidingWindowSize ids).bestValue q = _
    obtain ⟨n', hn', hc', hsame, -⟩ := hcut.pages hwf hn hc
    rw [hvalue, hwu.lastBlock_pathValues hbound hq hn' hc', hsame.value]

/-- In every reachable state a match returns the longest reusable front of what the tree has, and
leaves the tree as it is but for one cut and the stamps of the returned path. -/
theorem match_best (hps : 0 < ps) (hw : 0 < w) {s : State} (h : Run (State.init ps w) s)
    (ids : List Token) :
    ∃ k, BestMatch ps w s.cache ids (matchPrefix s.cache ids).1 (matchPrefix s.cache ids).2 k := by
  have hinv := (h.inv hps hw).inv
  exact matchPrefix_best hps hw hinv.pageSize hinv.window hinv.wf ids

/-- Behind a tombstone a match inside an edge is reused once the live run covers the window. -/
theorem match_best_tombstone : ∃ s : State, Run (State.init 1 2) s ∧
    (matchPrefix s.cache [1, 2, 3, 9]).2.cachedLen = 0 ∧
    (matchPrefix s.cache [1, 2, 3, 4, 9]).2.kvIndices = [10, 11, 12, 13] ∧
    ∃ k, BestMatch 1 2 s.cache [1, 2, 3, 4, 9] (matchPrefix s.cache [1, 2, 3, 4, 9]).1
      (matchPrefix s.cache [1, 2, 3, 4, 9]).2 k := by
  have hhead := (Run.refl (State.init 1 2)).snoc
    (.insert _ [1, 2] [10, 11] 0 0 (by decide) (by decide) rfl)
  have htail := hhead.snoc
    (.insert _ [1, 2, 3, 4, 5] [10, 11, 12, 13, 14] 0 2 (by decide) (by decide) rfl)
  have hevict := htail.snoc (.evictSwa _ 2)
  exact ⟨_, hevict, by decide, by decide,
    match_best (by decide) (by decide) hevict [1, 2, 3, 4, 9]⟩

end SwaRadixCache

end FreeToken
