import Mathlib.Algebra.Order.Group.Multiset
import FreeToken.KvCache.SwaRuns
import FreeToken.Lib.BlockTrieMap
import FreeToken.Lib.BlockTriePieces

/-!
# Slots in an insert of the sliding-window cache

Every span of the walk puts the request's slots either into the tree, for those of a tombstone, or
into the freed list.  The locked nodes are only cut, and what becomes live holds the request's own
slots.
-/

set_option autoImplicit false

namespace FreeToken

open BlockTrie Blocks

variable {ps w : Nat} {L : List SwaLock} {c : PrefixCache} {t t' t'' : RadixTree}
  {ids : List Token} {kv : List Nat} {evicted : Nat}

namespace SwaRadixCache

/-- The elements from position `a` up to `b`. -/
def span (l : List Nat) (a b : Nat) : List Nat := (l.drop a).take (b - a)

theorem span_self (l : List Nat) (a : Nat) : span l a a = [] := by
  unfold span
  rw [Nat.sub_self, List.take_zero]

theorem span_append (l : List Nat) {a b d : Nat} (hab : a ≤ b) (hbd : b ≤ d) :
    span l a b ++ span l b d = span l a d := by
  unfold span
  rw [show d - a = (b - a) + (d - b) by omega, List.take_add, List.drop_drop,
    show a + (b - a) = b by omega]

/-- A locked node holds `x` at position `k` of the path `p`. -/
def LockedAt (t : RadixTree) (p : NodeRef) (k x : Nat) : Prop :=
  ∃ n ∈ t, (n.path <+: p ∧ n.pre.length ≤ k ∧ n.value[k - n.pre.length]? = some x) ∧
    0 < n.data.refCount

/-- The node holds the request's slots, from the request's own free frontier on or for the last
page. -/
structure NewlyLive (ps : Nat) (ids : List Token) (kv : List Nat) (evicted : Nat)
    (m : RadixTreeNode) : Prop where
  path : m.path <+: ids
  value : m.value = (kv.drop m.pre.length).take m.key.length
  frontier : evicted ≤ m.pre.length ∨ ids.length ≤ m.pre.length + ps

theorem NewlyLive.piece {m n : RadixTreeNode} (h : NewlyLive ps ids kv evicted n)
    (hm : Piece m n) : NewlyLive ps ids kv evicted m where
  path := hm.below.trans h.path
  value := hm.value_of (a := 0) h.value (Nat.zero_le _)
  frontier := h.frontier.imp (fun he => he.trans hm.above) fun hl =>
    hl.trans (Nat.add_le_add_right hm.above ps)

/-- What a part of an insert does with the slots `fresh` of the request. -/
structure Conserves (ps : Nat) (ids : List Token) (kv : List Nat) (evicted : Nat) (fresh : List Nat)
    (t t' : RadixTree) (freed freed' : List Nat) : Prop where
  perm : (contents t' ++ freed').Perm (contents t ++ freed ++ fresh)
  locked : ∀ p k x, LockedAt t p k x → LockedAt t' p k x
  live : ∀ m ∈ t', m.data.swaTombstone = false →
    (∃ n ∈ t, n.data.swaTombstone = false ∧ Piece m n) ∨ NewlyLive ps ids kv evicted m
  kept : ∀ q, (blockOf ps t q).isSome → (blockOf ps t' q).isSome
  gained : ∀ q, (blockOf ps t' q).isSome → (blockOf ps t q).isSome ∨ BlockMap.Fronts ps ids q

namespace Conserves

variable {fresh fresh' freed freed' freed'' : List Nat}

theorem trans (h : Conserves ps ids kv evicted fresh t t' freed freed')
    (h' : Conserves ps ids kv evicted fresh' t' t'' freed' freed'') :
    Conserves ps ids kv evicted (fresh ++ fresh') t t'' freed freed'' where
  perm := by
    rw [← List.append_assoc]
    exact h'.perm.trans (h.perm.append_right fresh')
  locked := fun p k x hx => h'.locked p k x (h.locked p k x hx)
  live := by
    intro m hm hlive
    rcases h'.live m hm hlive with ⟨n, hn, hnlive, hp⟩ | hnew
    · rcases h.live n hn hnlive with ⟨o, ho, holive, hp'⟩ | hnew
      · exact Or.inl ⟨o, ho, holive, hp.trans hp'⟩
      · exact Or.inr (hnew.piece hp)
    · exact Or.inr hnew
  kept := fun q hq => h'.kept q (h.kept q hq)
  gained := fun q hq => (h'.gained q hq).elim (h.gained q) Or.inr

/-- Slots that go to the freed list at once. -/
theorem drop_dup (hw : WF ps t) (freed dup : List Nat) :
    Conserves ps ids kv evicted dup t t freed (freed ++ dup) where
  perm := by
    rw [List.append_assoc]
  locked := fun _ _ _ hx => hx
  live := fun m hm hlive => Or.inl ⟨m, hm, hlive, Piece.refl (hw.value_length m hm)⟩
  kept := fun _ hq => hq
  gained := fun _ hq => Or.inl hq

theorem refl (hw : WF ps t) (freed : List Nat) :
    Conserves ps ids kv evicted [] t t freed freed := by
  have h : Conserves ps ids kv evicted [] t t freed (freed ++ []) := drop_dup hw freed []
  rwa [List.append_nil] at h

theorem perm_fresh (h : Conserves ps ids kv evicted fresh t t' freed freed')
    (hp : fresh.Perm fresh') : Conserves ps ids kv evicted fresh' t t' freed freed' :=
  { h with perm := h.perm.trans (hp.append_left _) }

theorem cut (hw : WF ps t) {n : RadixTreeNode} {pos : Nat} (hc : Cut ps t n pos)
    (freed : List Nat) :
    Conserves ps ids kv evicted [] t (t.splitAt n.path pos) freed freed where
  perm := by
    rw [List.append_nil]
    exact (hw.contents_split hc.mem pos _ _).append_right freed
  locked := by
    rintro p k x ⟨m, hm, ⟨hp, hle, hv⟩, href⟩
    by_cases hmn : m.path = n.path
    · obtain rfl := hw.eq_of_path hm hc.mem hmn
      by_cases hk : k - m.pre.length < pos
      · refine ⟨_, mem_split.2 (.inr ⟨m, hm, rfl, Node.mem_halves.2 (.inl rfl)⟩),
          ⟨(m.path_left pos _ _).trans hp, hle, ?_⟩, href⟩
        rw [← hv]
        exact List.getElem?_take_of_lt hk
      · have hlen : (m.pre ++ m.key.take pos).length = m.pre.length + pos := by
          rw [List.length_append, List.length_take_of_le hc.lt.le]
        refine ⟨_, mem_split.2 (.inr ⟨m, hm, rfl, Node.mem_halves.2 (.inr rfl)⟩),
          ⟨(m.path_right pos _ _) ▸ hp, ?_, ?_⟩, href⟩
        · rw [hlen]
          omega
        · dsimp only
          rw [hlen, List.getElem?_drop, ← hv]
          congr 1
          omega
    · exact ⟨m, mem_split.2 (.inl ⟨hm, hmn⟩), ⟨hp, hle, hv⟩, href⟩
  live := by
    intro m hm hlive
    rcases mem_split.1 hm with ⟨hmt, -⟩ | ⟨x, hx, hxp, hmx⟩
    · exact Or.inl ⟨m, hmt, hlive, Piece.refl (hw.value_length m hmt)⟩
    · obtain rfl := hw.eq_of_path hx hc.mem hxp
      refine Or.inl ⟨x, hx, ?_, Piece.of_half (hw.value_length x hx) hmx hc.lt⟩
      rcases Node.mem_halves.1 hmx with rfl | rfl <;> exact hlive
  kept := fun q hq => (hc.blockOf hw _ _ q).symm ▸ hq
  gained := fun q hq => Or.inl (hc.blockOf hw NodeData.splitPrefix NodeData.splitSuffix q ▸ hq)

/-- An unlocked node gives up its slots and takes the request's. -/
theorem revive {c : PrefixCache} (hw : WF ps c.nodes) {n : RadixTreeNode} (hn : n ∈ c.nodes)
    (href : n.data.refCount = 0) {seg : List Nat}
    (hnew : NewlyLive ps ids kv evicted { n with value := seg }) (freed : List Nat) :
    Conserves ps ids kv evicted seg c.nodes (revive c n.path seg).nodes freed
      (freed ++ n.value) where
  perm := by
    have hafter := hw.contents_modify hn fun m : RadixTreeNode =>
      { m with value := seg
               data := SwaInv.revivedData m.data ((c.clk + 1) * eventStride) }
    have hbefore := hw.contents_perm hn
    show (contents (modify c.nodes n.path fun m : RadixTreeNode =>
      { m with value := seg
               data := SwaInv.revivedData m.data ((c.clk + 1) * eventStride) }) ++
        (freed ++ n.value)).Perm _
    generalize contents (BlockTrie.prune c.nodes n.path) = rest at hafter hbefore
    apply (hafter.append_right _).trans
    apply List.Perm.trans _ ((hbefore.symm.append_right freed).append_right seg)
    simp only [← Multiset.coe_eq_coe, ← Multiset.coe_add]
    ac_rfl
  locked := by
    rintro p k x ⟨m, hm, hat, hpos⟩
    have hne : m.path ≠ n.path := by
      intro hmn
      rw [hw.eq_of_path hm hn hmn, href] at hpos
      exact absurd hpos (Nat.lt_irrefl 0)
    refine ⟨m, List.mem_map.2 ⟨m, hm, if_neg hne⟩, hat, hpos⟩
  live := by
    intro m hm hlive
    obtain ⟨x, hx, rfl⟩ := List.mem_map.1 hm
    by_cases hxn : x.path = n.path
    · obtain rfl := hw.eq_of_path hx hn hxn
      rw [if_pos rfl]
      exact Or.inr ⟨hnew.path, hnew.value, hnew.frontier⟩
    · rw [if_neg hxn] at hlive ⊢
      exact Or.inl ⟨x, hx, hlive, Piece.refl (hw.value_length x hx)⟩
  kept := by
    intro q hq
    obtain ⟨m, hm, hcov⟩ := isSome_blockOf.1 hq
    refine isSome_blockOf.2 ⟨_, List.mem_map.2 ⟨m, hm, rfl⟩, ?_⟩
    split <;> exact ⟨hcov.lt, hcov.le, hcov.dvd⟩
  gained := by
    intro q hq
    obtain ⟨m, hm, hcov⟩ := isSome_blockOf.1 hq
    obtain ⟨x, hx, rfl⟩ := List.mem_map.1 hm
    refine Or.inl (isSome_blockOf.2 ⟨x, hx, ?_⟩)
    split at hcov <;> exact ⟨hcov.lt, hcov.le, hcov.dvd⟩

/-- A new node below the others. -/
theorem addChild {c : PrefixCache} (hw : WF ps c.nodes) {parent : NodeRef} {key : List Token}
    {seg : List Nat} {tombstone : Bool} (hpath : parent ++ key <+: ids)
    (hnew : tombstone = false → ∀ n : RadixTreeNode, n.pre = parent → n.key = key →
      n.value = seg → NewlyLive ps ids kv evicted n) (freed : List Nat) :
    Conserves ps ids kv evicted seg c.nodes (addChild c parent key seg tombstone).nodes freed
      freed where
  perm := by
    unfold SwaRadixCache.addChild tick
    dsimp only
    rw [contents_graft, List.append_assoc, List.append_assoc]
    exact List.perm_append_comm.append_left _
  locked := by
    rintro p k x ⟨m, hm, hat, hpos⟩
    exact ⟨m, List.mem_append_left _ hm, hat, hpos⟩
  live := by
    intro m hm hlive
    rcases List.mem_append.1 hm with hm | hm
    · exact Or.inl ⟨m, hm, hlive, Piece.refl (hw.value_length m hm)⟩
    · rw [List.mem_singleton.1 hm] at hlive ⊢
      exact Or.inr (hnew hlive _ rfl rfl rfl)
  kept := by
    intro q hq
    obtain ⟨m, hm, hcov⟩ := isSome_blockOf.1 hq
    exact isSome_blockOf.2 ⟨m, List.mem_append_left _ hm, hcov⟩
  gained := by
    intro q hq
    obtain ⟨m, hm, hcov⟩ := isSome_blockOf.1 hq
    rcases List.mem_append.1 hm with hm | hm
    · exact Or.inl (isSome_blockOf.2 ⟨m, hm, hcov⟩)
    · obtain rfl := List.mem_singleton.1 hm
      exact Or.inr ⟨hcov.le.trans hpath, hcov.ne_nil, hcov.dvd⟩

end Conserves

/-- The reconcile of one span of the walk. -/
theorem reconcile_conserves (h : SwaInv ps w L c) {child : RadixTreeNode} (hn : child ∈ c.nodes)
    (hpath : child.path <+: ids) (hlen : kv.length = ids.length) (hevicted : ps ∣ evicted)
    {freed freed' : List Nat} {c' : PrefixCache}
    (hrun : reconcile c child ((kv.drop child.pre.length).take child.key.length) evicted
      child.pre.length child.key.length freed = .ok (c', freed')) :
    Conserves ps ids kv evicted ((kv.drop child.pre.length).take child.key.length) c.nodes c'.nodes
      freed freed' := by
  generalize hseg : (kv.drop child.pre.length).take child.key.length = seg at hrun ⊢
  have hkeep : Conserves ps ids kv evicted seg c.nodes c.nodes freed (freed ++ seg) :=
    Conserves.drop_dup h.wf freed seg
  unfold reconcile at hrun
  split at hrun
  · rename_i hdead
    have hassert : pyAssert (decide (child.data.swaRefCount = 0))
        "a tombstoned node cannot hold a swa lock" = .ok () := by
      rw [pyAssert_eq_ok, decide_eq_true_eq]
      exact h.locks.swaRefCount_eq_zero hn hdead
    rw [hassert] at hrun
    change (if 0 < child.data.refCount then _ else _) = Except.ok (c', freed') at hrun
    split at hrun
    · cases hrun
      exact hkeep
    · rename_i href
      have hzero : child.data.refCount = 0 := Nat.eq_zero_of_not_pos href
      split at hrun
      · rename_i hlow
        cases hrun
        have hnew : NewlyLive ps ids kv evicted { child with value := seg } :=
          ⟨hpath, hseg.symm, Or.inl hlow⟩
        exact Conserves.revive h.wf hn hzero hnew freed
      · rename_i hlow
        split at hrun
        · rename_i hhigh
          cases hrun
          have hc : Cut ps c.nodes child (evicted - child.pre.length) :=
            ⟨hn, by omega, by omega, Nat.dvd_sub hevicted (h.wf.pre_dvd child hn)⟩
          generalize hstart : evicted - child.pre.length = start at hc
          -- the tail of the node is the suffix half of the split
          generalize htail : (Node.mk (child.pre ++ child.key.take start) (child.key.drop start)
            (child.value.drop start) child.data.splitSuffix : RadixTreeNode) = tail
          have hmem : tail ∈ c.nodes.splitAt child.path start := by
            rw [← htail]
            exact mem_split.2 (.inr ⟨child, hn, rfl, Node.mem_halves.2 (.inr rfl)⟩)
          have htpath : tail.path = child.path := by
            rw [← htail]
            exact child.path_right start _ _
          have hpre : tail.pre.length = evicted := by
            rw [← htail, List.length_append, List.length_take_of_le hc.lt.le]
            omega
          have hnew : NewlyLive ps ids kv evicted { tail with value := seg.drop start } := by
            refine ⟨?_, ?_, Or.inl hpre.ge⟩
            · show tail.path <+: ids
              rw [htpath]
              exact hpath
            · show seg.drop start = (kv.drop tail.pre.length).take tail.key.length
              rw [hpre, ← hseg, List.drop_take, List.drop_drop, ← htail, List.length_drop,
                show child.pre.length + start = evicted by omega]
          have hcut : Conserves ps ids kv evicted [] c.nodes (c.nodes.splitAt child.path start) freed
              freed := Conserves.cut h.wf hc freed
          have hzero' : tail.data.refCount = 0 := by
            rw [← htail]
            exact hzero
          have hrev := Conserves.revive (c := { c with nodes := c.nodes.splitAt child.path start })
            (hc.wf h.wf _ _) hmem hzero' hnew freed
          have hkv : (seg.drop start).length = tail.key.length := by
            have hle := hpath.length_le
            rw [Node.path_length] at hle
            rw [← hseg, ← htail, List.length_drop, List.length_drop, List.length_take,
              List.length_drop]
            omega
          have hdead' : tail.data.swaTombstone = true := by
            rw [← htail]
            exact hdead
          have hwf := ((h.cut hc).revive hmem hdead' hzero' hkv).wf
          rw [htpath] at hrev hwf
          have hall := (hcut.trans hrev).trans (Conserves.drop_dup hwf _ (seg.take start))
          rw [List.nil_append, show tail.value = child.value.drop start from by rw [← htail]] at hall
          apply hall.perm_fresh
          have hcomm : (seg.drop start ++ seg.take start).Perm (seg.take start ++ seg.drop start) :=
            List.perm_append_comm
          rwa [List.take_append_drop] at hcomm
        · cases hrun
          exact hkeep
  · cases hrun
    exact hkeep

/-- The request's slots up to `after` are those of the tree, which stay. -/
theorem span_conserves (h : SwaInv ps w L c) {child : RadixTreeNode} (hn : child ∈ c.nodes)
    (hpath : child.path <+: ids) (hlen : kv.length = ids.length) (hevicted : ps ∣ evicted)
    {total m after : Nat} (hpre : child.pre.length = total) (hkey : child.key.length = m)
    (hafter : after ≤ total ∨ total + m ≤ after) {freed freed' : List Nat} {c' : PrefixCache}
    (hrun : (if after < total + m then
      reconcile c child ((kv.drop total).take m) evicted total m freed
        else .ok (c, freed)) = .ok (c', freed')) :
    Conserves ps ids kv evicted (span kv (max total after) (max (total + m) after)) c.nodes c'.nodes
      freed freed' := by
  subst hpre hkey
  split at hrun
  · have hle : after ≤ child.pre.length := by omega
    rw [Nat.max_eq_left hle, Nat.max_eq_left (by omega)]
    unfold span
    rw [Nat.add_sub_cancel_left]
    exact reconcile_conserves h hn hpath hlen hevicted hrun
  · cases hrun
    rw [Nat.max_eq_right (by omega), Nat.max_eq_right (by omega), span_self]
    exact Conserves.refl h.wf freed

/-- An edge of the walk does not go over a boundary on the path of `ids`. -/
theorem edge_beside (hw : WF ps t) {child : RadixTreeNode} (hn : child ∈ t) {total m after : Nat}
    (hle : total ≤ ids.length) (hafter : after ≤ ids.length) (d : Descent ps t ids total child m)
    (hb : Boundary t (ids.take total)) (hb' : Boundary t (ids.take after)) :
    after ≤ total ∨ total + m ≤ after := by
  by_cases hlt : total < after
  · right
    have hlen : (ids.take total).length = total := List.length_take_of_le hle
    have hlen' : (ids.take after).length = after := List.length_take_of_le hafter
    obtain ⟨x, hx, hxp, hxle⟩ := hw.exists_child hb hb' (List.take_prefix_take_left hlt.le)
      (by omega)
    have hpage : ps ≤ m := d.block_le
    have hxpage : ps ≤ x.key.length := hw.block_le hx
    have hxids : x.path <+: ids := hxle.trans (List.take_prefix after ids)
    have hchild : child.key.take ps = (ids.drop total).take ps := by
      have hkey := d.key
      rw [d.pre, List.take_add] at hkey
      have hm := List.append_cancel_left hkey
      have hps := congrArg (List.take ps) hm
      rwa [List.take_take, List.take_take, Nat.min_eq_left hpage] at hps
    have hxblock : x.key.take ps = (ids.drop total).take ps := by
      rw [Node.block_eq hxpage hxids, hxp, hlen]
    obtain rfl := hw.eq_of_block hn hx (d.pre.trans hxp.symm) (hchild.trans hxblock.symm)
    have hend := hxle.length_le
    rw [hlen', Node.path_length, hxp, hlen] at hend
    have hm := d.le
    omega
  · left
    omega

/-- The walk of an insert. -/
theorem insertLoop_conserves (hps : 0 < ps) (hlen : kv.length = ids.length) (hevicted : ps ∣ evicted)
    {after : Nat} (hafter : after ≤ ids.length) : ∀ (fuel : Nat) (c : PrefixCache) (total : Nat)
    (freed : List Nat), SwaInv ps w L c → total ≤ ids.length → Boundary c.nodes (ids.take total) →
      Boundary c.nodes (ids.take after) → ∀ (c' : PrefixCache) (k : Nat) (freed' : List Nat),
      insertLoop ids kv evicted after fuel c total freed = .ok (c', k, freed') →
      total ≤ k ∧ Boundary c'.nodes (ids.take after) ∧
        Conserves ps ids kv evicted (span kv (max total after) (max k after)) c.nodes c'.nodes
          freed freed' := by
  intro fuel
  induction fuel with
  | zero =>
      intro c total freed h hle hb hb' c' k freed' hrun
      cases hrun
      refine ⟨Nat.le_refl _, hb', ?_⟩
      rw [span_self]
      exact Conserves.refl h.wf _
  | succ fuel ih =>
      intro c total freed h hle hb hb' c' k freed' hrun
      obtain ⟨hpage, -, -, -, -⟩ := id h
      subst hpage
      have hstay : total ≤ total ∧ Boundary c.nodes (ids.take after) ∧
          Conserves c.pageSize ids kv evicted (span kv (max total after) (max total after)) c.nodes
            c.nodes freed freed := by
        refine ⟨Nat.le_refl _, hb', ?_⟩
        rw [span_self]
        exact Conserves.refl h.wf _
      rw [insertLoop] at hrun
      split at hrun
      · rename_i hlt
        split at hrun
        · cases hrun
          exact hstay
        · rename_i child hchild
          have d := h.wf.descent hps hle hchild
          have hpre : child.pre.length = total := by rw [d.pre, List.length_take_of_le hle]
          have hblk := d.block_le
          have hfits := d.fits
          dsimp only at hrun
          generalize hm : alignDown (commonLength child.key (ids.drop total)) c.pageSize = m at d hrun
          rw [hm] at hblk hfits
          rw [if_neg (by omega)] at hrun
          have hbeside := edge_beside h.wf d.mem hle hafter d hb hb'
          have hseg : ((kv.drop total).take m).length = m := by
            rw [List.length_take, List.length_drop]
            omega
          by_cases hpart : m < child.length
          · simp only [hpart, decide_true, if_true] at hrun
            have hcut := d.cut hps hpart
            have hhead : splitHead child m ∈ c.nodes.splitAt child.path m :=
              mem_split.2 (.inr ⟨child, d.mem, rfl, Node.mem_halves.2 (.inl rfl)⟩)
            have hpath : (splitHead child m).path = ids.take (total + m) := d.key
            have hcons : Conserves c.pageSize ids kv evicted [] c.nodes
                (c.nodes.splitAt child.path m) freed freed := Conserves.cut h.wf hcut freed
            obtain ⟨d', freed'', hspan, hinv, ha⟩ := span_spec (h.cut hcut) hhead hpre
              (List.length_take_of_le d.le) hseg hevicted after freed
            have hhpath : (splitHead child m).path <+: ids := hpath ▸ List.take_prefix _ _
            have hspanned := span_conserves (h.cut hcut) hhead hhpath hlen hevicted hpre (List.length_take_of_le d.le) hbeside
              hspan
            rw [hspan] at hrun
            cases hrun
            refine ⟨by omega, ha.bound _ ((hcut.boundary h.wf _ _).2 (.inl hb')), ?_⟩
            exact hcons.trans hspanned
          · simp only [hpart, decide_false, Bool.false_eq_true, if_false] at hrun
            have hfull : m = child.key.length := le_antisymm d.le (Nat.le_of_not_lt hpart)
            have hpath := d.path hfull
            obtain ⟨d', freed'', hspan, hinv, ha⟩ := span_spec h d.mem hpre hfull.symm hseg hevicted
              after freed
            have hcpath : child.path <+: ids := hpath ▸ List.take_prefix _ _
            have hspanned := span_conserves h d.mem hcpath hlen hevicted hpre hfull.symm hbeside hspan
            rw [hspan] at hrun
            obtain ⟨hk, hbound, hrest⟩ := ih d' (total + m) freed'' hinv hfits
              (ha.bound _ (.inr ⟨child, d.mem, hpath⟩)) (ha.bound _ hb') c' k freed' hrun
            refine ⟨by omega, hbound, ?_⟩
            have hall := hspanned.trans hrest
            rwa [span_append kv (by omega) (by omega)] at hall
      · cases hrun
        exact hstay

/-- The missing part of the prefix takes the rest of the request's slots. -/
theorem insertSuffix_conserves (hps : 0 < ps) (h : SwaInv ps w L c) (hlen : kv.length = ids.length)
    (hdvd : ps ∣ ids.length) (hevicted : ps ∣ evicted) {k : Nat} (hs : Stopped ps c.nodes ids k)
    (freed : List Nat) :
    Conserves ps ids kv evicted (span kv k ids.length) c.nodes
      (insertSuffix c ids kv evicted k).nodes freed freed ∧
      Boundary (insertSuffix c ids kv evicted k).nodes ids := by
  obtain ⟨hpage, -, -, -, -⟩ := id h
  subst hpage
  have hk : (ids.take k).length = k := List.length_take_of_le hs.le
  have hkdvd := h.wf.boundary_dvd hs.bound
  rw [hk] at hkdvd
  unfold insertSuffix
  split
  · rename_i hlt
    have hroom : c.pageSize ≤ ids.length - k :=
      Nat.le_of_dvd (by omega) (Nat.dvd_sub hdvd hkdvd)
    dsimp only
    rw [List.length_drop]
    generalize hbdef : min (min evicted ids.length - k) (ids.length - k - c.pageSize) = b
    have hblt : b + c.pageSize ≤ ids.length - k := by omega
    rw [if_pos (by omega)]
    have hleaf : ids.take (k + b) ++ (ids.drop k).drop b = ids := by
      rw [List.drop_drop, List.take_append_drop]
    have hwhole : ids.take (k + b) ++ (ids.drop k).drop b <+: ids := by
      rw [hleaf]
    have hseg : (kv.drop k).drop b = span kv (k + b) ids.length := by
      unfold span
      rw [List.drop_drop, List.take_of_length_le]
      rw [List.length_drop]
      omega
    -- the leaf starts at the free frontier, or is the last page
    have hnew : ∀ n : RadixTreeNode, n.pre = ids.take (k + b) → n.key = (ids.drop k).drop b →
        n.value = (kv.drop k).drop b → NewlyLive c.pageSize ids kv evicted n := by
      intro n hpre hkey hval
      have hnlen : n.pre.length = k + b := by
        rw [hpre]
        exact List.length_take_of_le (by omega)
      refine ⟨?_, ?_, ?_⟩
      · unfold Node.path
        rw [hpre, hkey, hleaf]
      · rw [hval, hnlen, List.drop_drop, hkey, List.drop_drop, List.take_of_length_le]
        rw [List.length_drop, List.length_drop, hlen]
      · rw [hnlen]
        omega
    have hbound : ∀ (c' : PrefixCache), Boundary (addChild c' (ids.take (k + b))
        ((ids.drop k).drop b) ((kv.drop k).drop b) false).nodes ids := by
      intro c'
      exact boundary_graft.2 (.inr hleaf.symm)
    split
    · rename_i hb
      have hstop := hs.stop hlt
      have hbd : c.pageSize ∣ b := by
        rw [← hbdef]
        rcases Nat.le_total (min evicted ids.length - k) (ids.length - k - c.pageSize) with hle | hle
        · rw [Nat.min_eq_left hle]
          refine Nat.dvd_sub ?_ hkdvd
          rcases Nat.le_total evicted ids.length with he | he
          · rwa [Nat.min_eq_left he]
          · rwa [Nat.min_eq_right he]
        · rw [Nat.min_eq_right hle]
          exact Nat.dvd_sub (Nat.dvd_sub hdvd hkdvd) (dvd_refl _)
      have htlen : ((ids.drop k).take b).length = b := by
        rw [List.length_take, List.length_drop]
        omega
      have htne : (ids.drop k).take b ≠ [] := by
        rw [← List.length_pos_iff, htlen]
        exact hb
      have htdvd : c.pageSize ∣ ((ids.drop k).take b).length := by rwa [htlen]
      have htkv : ((kv.drop k).take b).length = ((ids.drop k).take b).length := by
        rw [htlen, List.length_take, List.length_drop]
        omega
      have hdead := h.addChild hs.bound htne htdvd htkv (fun m hm hp => by
        rw [List.take_take, Nat.min_eq_left (Nat.le_of_dvd hb hbd)]
        exact hstop m hm hp) true
      have hpath : ids.take k ++ (ids.drop k).take b <+: ids := by
        rw [← List.take_add]
        exact List.take_prefix _ _
      have htomb : Conserves c.pageSize ids kv evicted ((kv.drop k).take b) c.nodes
          (addChild c (ids.take k) ((ids.drop k).take b) ((kv.drop k).take b) true).nodes freed
            freed := Conserves.addChild h.wf hpath (fun hd => by cases hd) freed
      have hlive := Conserves.addChild hdead.wf hwhole (fun _ : false = false => hnew) freed
      refine ⟨(htomb.trans hlive).perm_fresh ?_, hbound _⟩
      have hfirst : (kv.drop k).take b = span kv k (k + b) := by
        unfold span
        rw [Nat.add_sub_cancel_left]
      rw [hseg, hfirst, span_append kv (by omega) (by omega)]
    · rename_i hb
      obtain rfl : b = 0 := by omega
      have hlive := Conserves.addChild h.wf hwhole (fun _ : false = false => hnew) freed
      refine ⟨hlive.perm_fresh ?_, hbound _⟩
      rw [hseg]
      rfl
  · rename_i hge
    obtain rfl : k = ids.length := by
      have := hs.le
      omega
    refine ⟨?_, ?_⟩
    · rw [span_self]
      exact Conserves.refl h.wf freed
    · have hb := hs.bound
      rwa [List.take_length] at hb

/-! ## An insert conserves the slots -/

/-- What an insert of whole pages does with the slots, from position `after` on the request's own. -/
structure SlotsConserved (ps : Nat) (ids : List Token) (kv : List Nat) (evicted after : Nat)
    (t t' : RadixTree) (freed : List Nat) : Prop where
  perm : (contents t' ++ freed).Perm (contents t ++ span kv after ids.length)
  apart : (contents t ++ span kv after ids.length).Nodup → ∀ x ∈ contents t', x ∉ freed
  locked : ∀ n ∈ t, 0 < n.data.refCount → ∀ k x, n.pre.length ≤ k →
    n.value[k - n.pre.length]? = some x → LockedAt t' n.path k x
  live : ∀ m ∈ t', m.data.swaTombstone = false →
    (∃ n ∈ t, n.data.swaTombstone = false ∧ Piece m n) ∨ NewlyLive ps ids kv evicted m
  fronts : ∀ q, (blockOf ps t' q).isSome ↔ (blockOf ps t q).isSome ∨ BlockMap.Fronts ps ids q

theorem swaInsert_conserves (hps : 0 < ps) (hw : 0 < w) {s : State} (h : Run (State.init ps w) s)
    (ids : List Token) (kv : List Nat) (hkv : alignDown ids.length ps ≤ kv.length) (evicted : Nat)
    (hevicted : ps ∣ evicted) (after : Nat) (hafter : after ≤ ids.length)
    (hbound : Boundary s.cache.nodes (ids.take after)) :
    ∃ c k freed, insert s.cache ids kv evicted after = .ok (c, k, freed) ∧
      SlotsConserved ps (ids.take (alignDown ids.length ps)) (kv.take (alignDown ids.length ps))
        evicted after s.cache.nodes c.nodes freed := by
  have hinv := (h.inv hps hw).inv
  obtain ⟨hpage, -, -, -, -⟩ := id hinv
  have halen : (ids.take after).length = after := List.length_take_of_le hafter
  have hdvd := hinv.wf.boundary_dvd hbound
  rw [halen] at hdvd
  have hle : after ≤ alignDown ids.length ps := le_alignDown hps hdvd hafter
  unfold insert
  dsimp only
  rw [hpage]
  have hdown := alignDown_le ids.length ps
  have hdiv := dvd_alignDown ids.length ps
  generalize alignDown ids.length ps = len at hle hkv hdown hdiv ⊢
  have hidslen : (ids.take len).length = len := List.length_take_of_le hdown
  have hkvlen : (kv.take len).length = (ids.take len).length := by
    rw [hidslen, List.length_take_of_le hkv]
  have hcut : (ids.take len).take after = ids.take after := by
    rw [List.take_take, Nat.min_eq_left hle]
  generalize ids.take len = cut at hidslen hkvlen hcut ⊢
  generalize kv.take len = slots at hkvlen ⊢
  subst hidslen
  rw [← hcut] at hbound
  obtain ⟨c, k, freed, hrun, hinv', hstop, -⟩ := insertLoop_spec hps hkvlen hevicted after
    cut.length s.cache 0 [] hinv (Nat.zero_le _) (.inl List.take_zero) (by omega)
  obtain ⟨-, hbound', hloop⟩ := insertLoop_conserves hps hkvlen hevicted hle cut.length s.cache 0 []
    hinv (Nat.zero_le _) (.inl List.take_zero) hbound c k freed hrun
  obtain ⟨hsuffix, hwhole⟩ := insertSuffix_conserves hps hinv' hkvlen hdiv hevicted hstop freed
  -- the walk went on past `after`
  have hk : after ≤ k := by
    by_contra hlt
    have hklen : (cut.take k).length = k := List.length_take_of_le hstop.le
    obtain ⟨x, hx, hxp, hxle⟩ := hinv'.wf.exists_child hstop.bound hbound'
      (List.take_prefix_take_left (by omega)) (by
        rw [hklen, List.length_take_of_le hle]
        omega)
    apply hstop.stop (by omega) x hx hxp
    rw [Node.block_eq (hinv'.wf.block_le hx) (hxle.trans (List.take_prefix _ _)), hxp, hklen]
  have hall := hloop.trans hsuffix
  rw [Nat.zero_max, Nat.max_eq_left hk, span_append slots hk hstop.le] at hall
  rw [hrun]
  refine ⟨_, k, freed, rfl, ?_⟩
  have hperm := hall.perm
  rw [List.append_nil] at hperm
  refine ⟨hperm, ?_, ?_, hall.live, ?_⟩
  · intro hnodup x hx hxf
    have hsplit := List.nodup_append.1 (hperm.nodup_iff.2 hnodup)
    exact hsplit.2.2 x hx x hxf rfl
  · intro n hn href i x hi hx
    exact hall.locked n.path i x ⟨n, hn, ⟨List.prefix_rfl, hi, hx⟩, href⟩
  · intro q
    constructor
    · exact hall.gained q
    · rintro (hq | ⟨hq, hne, hd⟩)
      · exact hall.kept q hq
      · have hwf : WF ps (insertSuffix c cut slots evicted k).nodes :=
          (insertSuffix_spec hps hinv' hkvlen hdiv hevicted hstop).1.wf
        exact hwf.isSome_front hwhole hq hne hd

/-- A tombstone in the middle of the path is revived, a live node keeps its slots, and a leaf is
added below them. -/
theorem swaInsert_conserves_revive : ∃ s : State, Run (State.init 1 2) s ∧
    ∃ c k freed, insert s.cache [1, 2, 4] [20, 21, 22] 0 0 = .ok (c, k, freed) ∧
      SlotsConserved 1 [1, 2, 4] [20, 21, 22] 0 0 s.cache.nodes c.nodes freed := by
  have hinsert := (Run.refl (State.init 1 2)).snoc
    (.insert _ [1, 2, 3] [10, 11, 12] 0 0 (by decide) (by decide) rfl)
  have hevict := (hinsert.snoc (.matchPrefix _ [1])).snoc (.evictSwa _ 1)
  exact ⟨_, hevict, swaInsert_conserves (by decide) (by decide) hevict [1, 2, 4] [20, 21, 22]
    (by decide) 0 (by decide) 0 (by decide) (.inl rfl)⟩

/-- A request that brings a slot the tree already holds sees it both freed and in the tree. -/
theorem swaInsert_not_apart : ∃ s : State, Run (State.init 1 2) s ∧
    ∃ c k freed, insert s.cache [1, 2] [10, 11] 0 0 = .ok (c, k, freed) ∧
      Boundary s.cache.nodes (([1, 2] : List Token).take 0) ∧ ∃ x ∈ contents c.nodes, x ∈ freed := by
  have hinsert := (Run.refl (State.init 1 2)).snoc
    (.insert _ [1, 2] [10, 11] 0 0 (by decide) (by decide) rfl)
  exact ⟨_, hinsert, _, _, _, rfl, .inl rfl, 10, by decide, by decide⟩

end SwaRadixCache

end FreeToken
