import Mathlib.Data.List.Induction
import FreeToken.Checkpoint.Convert
import FreeToken.Checkpoint.FtwReader

/-!
# Stopping a conversion

The index takes its place at the very end, but shard files are truncated from the start.  A directory
whose index lists bytes of a file that is opened says something wrong until the new index is there.
-/

set_option autoImplicit false

namespace FreeToken

namespace Ftw

open Region

variable {D : Type} {T : Dtypes D}

/-! ## What an index describes -/

def Shard.Covers (s : Shard) (pos : Nat) : Prop :=
  s.globalOff ≤ pos ∧ pos < s.globalOff + s.nbytes

def HasByte (files : String → Option Bytes) (file : String) (k : Nat) (b : UInt8) : Prop :=
  ∃ data, files file = some data ∧ data[k]? = some b

/-- The shards have `b` at a place of the region; the index file and its copy are no shards. -/
structure ByteAt (files : String → Option Bytes) (shards : List Shard) (pos : Nat) (b : UInt8) :
    Prop where
  covered : ∃ s ∈ shards, s.Covers pos
  present : ∀ s ∈ shards, s.Covers pos →
    s.file ≠ indexName ∧ s.file ≠ indexName ++ ".tmp" ∧ HasByte files s.file (pos - s.globalOff) b

/-- Every tensor range of the index lies in shard bytes that exist, and they are those written for the
tensor. -/
structure Describes (files : String → Option Bytes) (f : IndexFile) : Prop where
  index : ∃ index, f.json = some index ∧ List.Forall₂ (fun e bytes => e.nbytes = bytes.length ∧
    ∀ i b, bytes[i]? = some b → ByteAt files index.shards (e.globalOff + i) b)
      index.tensors f.written

/-- If this is a checkpoint, its index describes the shards. -/
def Safe (d : Disk) : Prop := ∀ f, d.index = some f → Describes d.files f

/-- The index lists a byte of `file`. -/
def Listed (f : IndexFile) (file : String) (k : Nat) (b : UInt8) : Prop :=
  ∃ index, f.json = some index ∧ ∃ p ∈ index.tensors.zip f.written, ∃ i, p.2[i]? = some b ∧
    ∃ s ∈ index.shards, s.Covers (p.1.globalOff + i) ∧ s.file = file ∧
      k = p.1.globalOff + i - s.globalOff

theorem Describes.listed {files : String → Option Bytes} {f : IndexFile} {file : String} {k : Nat}
    {b : UInt8} (h : Describes files f) (hl : Listed f file k b) : HasByte files file k b := by
  obtain ⟨index, hjson, htensors⟩ := h.index
  obtain ⟨index', hjson', p, hp, i, hi, s, hs, hcov, rfl, rfl⟩ := hl
  obtain rfl : index = index' := Option.some.inj (hjson.symm.trans hjson')
  have hbyte := ((List.forall₂_iff_zip.mp htensors).2 hp).2 i b hi
  exact (hbyte.present s hs hcov).2.2

theorem Describes.congr {files files' : String → Option Bytes} {f : IndexFile}
    (h : Describes files f)
    (hsame : ∀ file k b, Listed f file k b → HasByte files' file k b) : Describes files' f := by
  obtain ⟨index, hjson, htensors⟩ := h.index
  obtain ⟨hlen, hzip⟩ := List.forall₂_iff_zip.mp htensors
  refine ⟨index, hjson, List.forall₂_iff_zip.mpr ⟨hlen, ?_⟩⟩
  intro e bytes hp
  refine ⟨(hzip hp).1, fun i b hi => ?_⟩
  have hbyte := (hzip hp).2 i b hi
  refine ⟨hbyte.covered, fun s hs hcov => ?_⟩
  obtain ⟨hindex, htmp, -⟩ := hbyte.present s hs hcov
  exact ⟨hindex, htmp, hsame _ _ _ ⟨index, hjson, (e, bytes), hp, i, hi, s, hs, hcov, rfl, rfl⟩⟩

theorem endsWith_ftw_shardFile (i : Nat) : endsWith (shardFile i) ".ftw" = true := by
  have hchars : (shardFile i).toList = ("freetoken-".toList ++
      (List.replicate (5 - (Nat.toDigits 10 i).length) '0' ++ Nat.toDigits 10 i)) ++ ".ftw".toList :=
    String.toList_ofList
  unfold endsWith
  rw [List.isSuffixOf_iff_suffix, hchars]
  exact List.suffix_append _ _

theorem shardFile_ne {i : Nat} {name : String} (h : endsWith name ".ftw" = false) :
    name ≠ shardFile i := by
  rintro rfl
  rw [endsWith_ftw_shardFile] at h
  cases h

/-- The region in shards is what an index of its layout describes. -/
theorem describes_of_stored {files : String → Option Bytes} {index : Index} {calls : List (Call T)}
    (htensors : index.tensors = layout 0 calls) (hstored : Stored index.shards files (region calls))
    (hnames : ∀ s ∈ index.shards, ∃ i, s.file = shardFile i) :
    Describes files ⟨some index, calls.map fun c => c.tensor.bytes⟩ := by
  refine ⟨index, rfl, ?_⟩
  show List.Forall₂ _ index.tensors (calls.map fun c => c.tensor.bytes)
  rw [htensors, List.forall₂_map_right_iff]
  apply List.Forall₂.flip
  have hlayout := @layout_slice _ T [] rfl calls
  rw [List.nil_append] at hlayout
  apply hlayout.imp
  rintro c e ⟨hentry, -, hle, hslice⟩
  have hnbytes : e.nbytes = c.tensor.bytes.length := by rw [hentry, Call.entry]
  refine ⟨hnbytes, fun i b hi => ?_⟩
  have hilt : i < c.tensor.bytes.length := (List.getElem?_eq_some_iff.mp hi).1
  have hup := le_alignUp e.nbytes
  have hbyte : (region calls)[e.globalOff + i]? = some b := by
    have hat : (slice (region calls) e.globalOff (alignUp e.nbytes))[i]? =
        (region calls)[e.globalOff + i]? := by
      rw [getElem?_slice, if_pos (by omega)]
    rw [← hat, hslice, padded, List.getElem?_append_left hilt, hi]
  constructor
  case covered =>
    have hlt : e.globalOff + i < 0 + total Shard.nbytes index.shards := by
      rw [hstored.total]
      omega
    exact hstored.laid.exists_stripe (Nat.zero_le _) hlt
  case present =>
    intro s hs hcov
    obtain ⟨j, hj⟩ := hnames s hs
    obtain ⟨hge, hlt⟩ := hcov
    rw [hj]
    refine ⟨(shardFile_ne (by decide)).symm, (shardFile_ne (by decide)).symm, ?_⟩
    refine ⟨_, hj ▸ hstored.files s hs, ?_⟩
    rw [getElem?_slice, if_pos (by omega), ← hbyte]
    congr 1
    omega

theorem Complete.safe {limit : Nat} {calls : List (Call T)} {d : Disk}
    (h : Complete limit calls d) : Safe d := by
  obtain ⟨index, hindex, -, htensors, hstored, hnames⟩ := h.index
  intro f hf
  obtain rfl := Option.some.inj (hindex.symm.trans hf)
  apply describes_of_stored htensors hstored
  intro s hs
  obtain ⟨i, -, hi⟩ := hnames s hs
  exact ⟨i, hi⟩

/-! ## Stops -/

/-- The operations have been made up to some point; of a file that is open then, a tail may not have
reached the disk. -/
def Stopped (d : Disk) (ops : List FileOp) (d' : Disk) : Prop :=
  ∃ done, done <+: ops ∧ d'.index = (d.replay done).index ∧
    ∀ file, d'.files file = (d.replay done).files file ∨
      (openAfter file done = true ∧
        ∃ data kept, (d.replay done).files file = some data ∧ kept <+: data ∧
          d'.files file = some kept)

/-- The operation leaves this byte of the file as it is. -/
def FileOp.Spares (file : String) (k : Nat) (b : UInt8) : FileOp → Prop
  | .openWb g | .write g _ => g ≠ file
  | .replaceFile tmp g data => tmp ≠ file ∧ (g = file → data[k]? = some b)
  | .close _ | .dumpTmp _ | .replaceTmp => True

/-- The operation takes this byte of the file away. -/
def FileOp.Breaks (file : String) (k : Nat) (b : UInt8) : FileOp → Prop
  | .openWb g => g = file
  | .replaceFile _ g data => g = file ∧ data[k]? ≠ some b
  | .write _ _ | .close _ | .dumpTmp _ | .replaceTmp => False

/-- The operation is not on the index. -/
def FileOp.OnFile : FileOp → Prop
  | .dumpTmp _ | .replaceTmp => False
  | _ => True

variable {d : Disk} {ops : List FileOp} {file : String} {k : Nat} {b : UInt8}

theorem HasByte.apply {op : FileOp} (h : HasByte d.files file k b) (hop : op.Spares file k b) :
    HasByte (d.apply op).files file k b := by
  obtain ⟨data, hfile, hb⟩ := h
  cases op with
  | openWb g => exact ⟨data, (if_neg (Ne.symm hop)).trans hfile, hb⟩
  | write g more => exact ⟨data, (if_neg (Ne.symm hop)).trans hfile, hb⟩
  | close g => exact ⟨data, hfile, hb⟩
  | replaceFile tmp g more =>
      by_cases heq : file = g
      · exact ⟨more, if_pos heq, hop.2 heq.symm⟩
      · refine ⟨data, ?_, hb⟩
        show (if file = g then some more else if file = tmp then none else d.files file) = some data
        rw [if_neg heq, if_neg (Ne.symm hop.1), hfile]
  | dumpTmp x => exact ⟨data, hfile, hb⟩
  | replaceTmp =>
      simp only [Disk.apply]
      split <;> exact ⟨data, hfile, hb⟩

theorem HasByte.replay (h : HasByte d.files file k b) (hops : ∀ op ∈ ops, op.Spares file k b) :
    HasByte (d.replay ops).files file k b := by
  induction ops generalizing d with
  | nil => exact h
  | cons op ops ih =>
      apply ih (h.apply (hops op List.mem_cons_self))
      intro q hq
      exact hops q (List.mem_cons_of_mem op hq)

theorem not_hasByte_of_breaks {op : FileOp} (hop : op.Breaks file k b) :
    ¬ HasByte (d.apply op).files file k b := by
  rintro ⟨data, hfile, hb⟩
  cases op with
  | openWb g =>
      obtain rfl : g = file := hop
      rw [show (d.apply (.openWb g)).files g = some [] from Disk.setFile_files_self d g []] at hfile
      obtain rfl := Option.some.inj hfile
      cases hb
  | replaceFile tmp g more =>
      obtain ⟨rfl, hne⟩ := hop
      have hnew : (d.apply (.replaceFile tmp g more)).files g = some more := if_pos rfl
      obtain rfl := Option.some.inj (hfile.symm.trans hnew)
      exact hne hb
  | write g more => exact hop
  | close g => exact hop
  | dumpTmp x => exact hop
  | replaceTmp => exact hop

theorem apply_index {op : FileOp} (h : op ≠ .replaceTmp) : (d.apply op).index = d.index := by
  cases op with
  | replaceTmp => exact absurd rfl h
  | _ => rfl

theorem replay_index (h : ∀ op ∈ ops, op ≠ FileOp.replaceTmp) : (d.replay ops).index = d.index := by
  induction ops generalizing d with
  | nil => rfl
  | cons op ops ih =>
      show ((d.apply op).replay ops).index = d.index
      rw [ih fun q hq => h q (List.mem_cons_of_mem op hq), apply_index (h op List.mem_cons_self)]

/-- A file that is spared has not been opened. -/
theorem openAfter_of_spares (h : ∀ op ∈ ops, op.Spares file k b) : openAfter file ops = false := by
  induction ops using List.reverseRecOn with
  | nil => rfl
  | append_singleton ops op ih =>
      have hop := h op (List.mem_append_right _ (List.mem_singleton.mpr rfl))
      rw [openAfter_snoc, ih fun q hq => h q (List.mem_append_left _ hq)]
      cases op with
      | openWb g =>
          show (decide (g = file) || false) = false
          rw [decide_eq_false hop, Bool.or_false]
      | close g =>
          show (!decide (g = file) && false) = false
          rw [Bool.and_false]
      | _ => rfl

/-- Up to a point where all that is listed is spared, the old index stays right. -/
theorem safe_of_spares {done : List FileOp} {d' : Disk} (hd : Safe d)
    (hindex : d'.index = d.index)
    (hfiles : ∀ file, d'.files file = (d.replay done).files file ∨ openAfter file done = true)
    (hspares : ∀ f, d.index = some f → ∀ file k b, Listed f file k b →
      ∀ op ∈ done, op.Spares file k b) : Safe d' := by
  intro f hf
  rw [hindex] at hf
  apply (hd f hf).congr
  intro file k b hl
  have hops := hspares f hf file k b hl
  obtain ⟨data, hfile, hb⟩ := ((hd f hf).listed hl).replay hops
  rcases hfiles file with hsame | hopen
  · exact ⟨data, hsame.trans hfile, hb⟩
  · rw [openAfter_of_spares hops] at hopen
    cases hopen

/-- At the operation that takes a listed byte away, the old index is wrong. -/
theorem not_safe_of_breaks {f : IndexFile} {before after : List FileOp} {op : FileOp}
    (hindex : d.index = some f) (hl : Listed f file k b)
    (hbefore : ∀ q ∈ before, q ≠ FileOp.replaceTmp) (hop : op.Breaks file k b) :
    ∃ d', Stopped d (before ++ op :: after) d' ∧ ¬ Safe d' := by
  have hne : op ≠ .replaceTmp := by
    rintro rfl
    exact hop
  have hnow : (d.replay (before ++ [op])).index = some f := by
    rw [Disk.replay_snoc, apply_index hne, replay_index hbefore, hindex]
  refine ⟨d.replay (before ++ [op]), ⟨before ++ [op], ?_, rfl, fun _ => .inl rfl⟩, fun hsafe => ?_⟩
  · exact ⟨after, by rw [List.append_assoc, List.singleton_append]⟩
  · have hbyte := (hsafe f hnow).listed hl
    rw [Disk.replay_snoc] at hbyte
    exact not_hasByte_of_breaks hop hbyte

/-! ## Metadata -/

/-- The metadata of this model path leaves a byte as it is. -/
def ModelPath.Spares (file : String) (k : Nat) (b : UInt8) : ModelPath → Prop
  | .file none => True
  | .file (some data) =>
      file ≠ ftwMetadataGguf ++ ".tmp" ∧ (file = ftwMetadataGguf → data[k]? = some b)
  | .dir tree isOut => isOut [] = true ∨ ∀ f ∈ walk isOut [] tree, f.1 ≠ file

theorem copy2_spares {f : String × Bytes} (h : f.1 ≠ file) :
    ∀ op ∈ copy2 f, op.Spares file k b := by
  intro op hop
  unfold copy2 at hop
  simp only [List.mem_cons, List.not_mem_nil, or_false] at hop
  rcases hop with rfl | rfl | rfl
  · exact h
  · exact h
  · exact trivial

theorem ModelPath.spares_ops {m : ModelPath} (h : m.Spares file k b) :
    ∀ op ∈ (copyMetadata m).1, op.Spares file k b := by
  intro op hop
  match m, h with
  | .file none, _ => exact absurd hop List.not_mem_nil
  | .file (some data), ⟨htmp, hdata⟩ =>
      rcases List.mem_append.mp hop with hop | hop
      · exact copy2_spares (Ne.symm htmp) op hop
      · rw [List.mem_singleton.mp hop]
        exact ⟨Ne.symm htmp, fun heq => hdata heq.symm⟩
  | .dir tree isOut, h =>
      unfold copyMetadata at hop
      simp only at hop
      split at hop
      · exact absurd hop List.not_mem_nil
      · rename_i hcond
        obtain ⟨f, hf, hop⟩ := List.mem_flatMap.mp hop
        rcases h with hout | hnames
        · exact absurd ⟨hout, List.ne_nil_of_mem hf⟩ hcond
        · exact copy2_spares (hnames f hf) op hop

theorem ModelPath.breaks_of_not_spares {m : ModelPath} (h : ¬ m.Spares file k b) :
    ∃ op ∈ (copyMetadata m).1, op.Breaks file k b := by
  match m, h with
  | .file none, h => exact absurd trivial h
  | .file (some data), h =>
      by_cases htmp : file = ftwMetadataGguf ++ ".tmp"
      · exact ⟨.openWb (ftwMetadataGguf ++ ".tmp"), List.mem_append_left _ List.mem_cons_self,
          htmp.symm⟩
      · refine ⟨_, List.mem_append_right _ (List.mem_singleton.mpr rfl), ?_⟩
        by_contra hspared
        apply h
        refine ⟨htmp, fun heq => ?_⟩
        by_contra hne
        exact hspared ⟨heq.symm, hne⟩
  | .dir tree isOut, h =>
      have hin : ¬ isOut [] = true := fun hout => h (.inl hout)
      have hsome : ∃ f ∈ walk isOut [] tree, f.1 = file := by
        by_contra hnone
        apply h
        refine .inr fun f hf heq => ?_
        exact hnone ⟨f, hf, heq⟩
      obtain ⟨f, hf, hfile⟩ := hsome
      refine ⟨.openWb f.1, ?_, hfile⟩
      unfold copyMetadata
      simp only
      rw [if_neg fun hc => hin hc.1]
      exact List.mem_flatMap.mpr ⟨f, hf, List.mem_cons_self⟩

/-- A name that ends in `.ftw` does so in its last component. -/
theorem endsWith_relName (root : List String) (name : String)
    (h : endsWith (relName root name) ".ftw" = true) : endsWith name ".ftw" = true := by
  induction root with
  | nil => exact h
  | cons d root ih =>
      apply ih
      unfold endsWith at h ⊢
      rw [List.isSuffixOf_iff_suffix] at h ⊢
      have hchars : (relName (d :: root) name).toList =
          d.toList ++ '/' :: (relName root name).toList := by
        show (d ++ "/" ++ relName root name).toList = _
        rw [String.toList_append, String.toList_append, List.append_assoc]
        rfl
      rw [hchars] at h
      have htail := List.suffix_append d.toList ('/' :: (relName root name).toList)
      rcases List.suffix_or_suffix_of_suffix h htail with hin | hout
      · rcases List.suffix_cons_iff.mp hin with heq | hin
        · cases heq
        · exact hin
      · have hslash : '/' ∈ ".ftw".toList := hout.subset List.mem_cons_self
        exact absurd hslash (by decide)

theorem isMetadata_ftw {name : String} (h : isMetadata name = true) :
    endsWith name ".ftw" = false := by
  unfold isMetadata at h
  obtain ⟨hsuffix, -⟩ := Bool.and_eq_true_iff.mp h
  by_contra hends
  rw [Bool.not_eq_false] at hends
  have hany : weightSuffixes.any (fun s => endsWith name s) = true :=
    List.any_eq_true.mpr ⟨".ftw", by decide, hends⟩
  rw [hany] at hsuffix
  cases hsuffix

mutual

theorem walk_ftw (isOut : List String → Bool) (root : List String) (t : Tree) :
    ∀ f ∈ walk isOut root t, endsWith f.1 ".ftw" = false := by
  cases t with
  | node files dirs =>
      intro f hf
      rw [walk] at hf
      rcases List.mem_append.mp hf with hf | hf
      · obtain ⟨g, hg, rfl⟩ := List.mem_map.mp hf
        have hmeta := isMetadata_ftw (List.mem_filter.mp hg).2
        by_contra hends
        rw [Bool.not_eq_false] at hends
        rw [endsWith_relName root g.1 hends] at hmeta
        cases hmeta
      · exact walkDirs_ftw isOut root dirs f hf

theorem walkDirs_ftw (isOut : List String → Bool) (root : List String)
    (dirs : List (String × Tree)) :
    ∀ f ∈ walkDirs isOut root dirs, endsWith f.1 ".ftw" = false := by
  cases dirs with
  | nil =>
      intro f hf
      rw [walkDirs] at hf
      exact absurd hf List.not_mem_nil
  | cons p rest =>
      obtain ⟨d, t⟩ := p
      intro f hf
      rw [walkDirs] at hf
      split at hf
      · exact walkDirs_ftw isOut root rest f hf
      · rcases List.mem_append.mp hf with hf | hf
        · exact walk_ftw isOut (root ++ [d]) t f hf
        · exact walkDirs_ftw isOut root rest f hf

end

/-- No metadata goes into a shard. -/
theorem ModelPath.spares_shard (m : ModelPath) (i k : Nat) (b : UInt8) :
    m.Spares (shardFile i) k b := by
  match m with
  | .file none => exact trivial
  | .file (some data) =>
      refine ⟨(shardFile_ne (by decide)).symm, fun heq => ?_⟩
      exact absurd heq.symm (shardFile_ne (by decide))
  | .dir tree isOut =>
      refine .inr fun f hf => ?_
      exact shardFile_ne (walk_ftw isOut [] tree f hf)

theorem replay_files (h : ∀ k b, ∀ op ∈ ops, FileOp.Spares file k b op) :
    (d.replay ops).files file = d.files file := by
  induction ops generalizing d with
  | nil => rfl
  | cons op ops ih =>
      show ((d.apply op).replay ops).files file = d.files file
      rw [ih fun k b q hq => h k b q (List.mem_cons_of_mem op hq)]
      have hop := fun k b => h k b op List.mem_cons_self
      cases op with
      | openWb g => exact if_neg (Ne.symm (hop 0 0))
      | write g more => exact if_neg (Ne.symm (hop 0 0))
      | close g => rfl
      | replaceFile tmp g more =>
          -- no bytes are the same as all bytes
          have hne : file ≠ g := by
            rintro rfl
            have hzero := (hop 0 0).2 rfl
            have hone := (hop 0 1).2 rfl
            rw [hzero] at hone
            exact absurd (Option.some.inj hone) (by decide)
          show (if file = g then some more else if file = tmp then none else d.files file) = _
          rw [if_neg hne, if_neg (Ne.symm (hop 0 0).1)]
      | dumpTmp x => rfl
      | replaceTmp =>
          simp only [Disk.apply]
          split <;> rfl

theorem copy2_closes (f : String × Bytes) (isOpen : Bool)
    (h : (copy2 f).foldl (FileOp.keepsOpen file) isOpen = true) : isOpen = true := by
  have hrun : (copy2 f).foldl (FileOp.keepsOpen file) isOpen =
      (!decide (f.1 = file) && (decide (f.1 = file) || isOpen)) := rfl
  rw [hrun] at h
  obtain ⟨hne, hor⟩ := Bool.and_eq_true_iff.mp h
  rcases Bool.or_eq_true_iff.mp hor with heq | hopen
  · rw [heq] at hne
    cases hne
  · exact hopen

/-- Every file of the metadata is closed again. -/
theorem copyMetadata_closes (m : ModelPath) (isOpen : Bool)
    (h : (copyMetadata m).1.foldl (FileOp.keepsOpen file) isOpen = true) : isOpen = true := by
  match m with
  | .file none => exact h
  | .file (some data) =>
      apply copy2_closes (ftwMetadataGguf ++ ".tmp", data)
      exact h
  | .dir tree isOut =>
      unfold copyMetadata at h
      simp only at h
      split at h
      · exact h
      · revert h
        generalize walk isOut [] tree = found
        intro h
        induction found generalizing isOpen with
        | nil => exact h
        | cons f fs ih =>
            rw [List.flatMap_cons, List.foldl_append] at h
            exact copy2_closes f isOpen (ih _ h)

theorem copyMetadata_ne_replaceTmp (m : ModelPath) :
    ∀ op ∈ (copyMetadata m).1, op ≠ FileOp.replaceTmp := by
  have hcopy : ∀ f, ∀ op ∈ copy2 f, op ≠ FileOp.replaceTmp := by
    intro f op hop
    unfold copy2 at hop
    simp only [List.mem_cons, List.not_mem_nil, or_false] at hop
    rcases hop with rfl | rfl | rfl <;> exact FileOp.noConfusion
  intro op hop
  match m with
  | .file none => exact absurd hop List.not_mem_nil
  | .file (some data) =>
      rcases List.mem_append.mp hop with hop | hop
      · exact hcopy _ op hop
      · rw [List.mem_singleton.mp hop]
        exact FileOp.noConfusion
  | .dir tree isOut =>
      unfold copyMetadata at hop
      simp only at hop
      split at hop
      · exact absurd hop List.not_mem_nil
      · obtain ⟨f, -, hop⟩ := List.mem_flatMap.mp hop
        exact hcopy f op hop

/-! ## The writer's operations -/

namespace FTWWriter

variable {limit : Nat} {w : FTWWriter} {r : Bytes} {s : Fill}

theorem Holds.ops_file (h : Holds limit d w r s) :
    ∀ op ∈ w.ops, ∃ i < s.count, op.file = some (shardFile i) := by
  cases h with
  | fresh => exact fun op hop => absurd hop List.not_mem_nil
  | writing h =>
      intro op hop
      obtain ⟨i, hi, hfile⟩ := h.ops op hop
      exact ⟨i, Nat.lt_succ_of_le hi, hfile⟩

theorem Holds.opened (h : Holds limit d w r s) {i : Nat} (hi : i < s.count) :
    FileOp.openWb (shardFile i) ∈ w.ops := by
  cases h with
  | fresh => exact absurd hi (Nat.not_lt_zero i)
  | writing h => exact h.opened i (Nat.le_of_lt_succ hi)

theorem Holds.spares (h : Holds limit d w r s) (hfile : ∀ i < s.count, file ≠ shardFile i) :
    ∀ op ∈ w.ops, op.Spares file k b := by
  intro op hop
  obtain ⟨i, hi, hop⟩ := h.ops_file op hop
  have hne : ∀ g, some g = some (shardFile i) → g ≠ file := by
    intro g hg heq
    exact hfile i hi (heq.symm.trans (Option.some.inj hg))
  cases op with
  | openWb g => exact hne g hop
  | write g data => exact hne g hop
  | close g => exact trivial
  | replaceFile tmp g data => cases hop
  | dumpTmp x => cases hop
  | replaceTmp => cases hop

theorem Holds.ne_replaceTmp (h : Holds limit d w r s) : ∀ op ∈ w.ops, op ≠ FileOp.replaceTmp := by
  rintro op hop rfl
  obtain ⟨i, -, hfile⟩ := h.ops_file _ hop
  cases hfile

/-- More operations, then the last shard is closed. -/
theorem Holds.closeShard_ops (h : Holds limit d w r s) (more : List FileOp) :
    { w with ops := w.ops ++ more }.closeShard.shards = w.closeShard.shards ∧
      ∃ last, { w with ops := w.ops ++ more }.closeShard.ops = w.ops ++ more ++ last ∧
        w.closeShard.ops = w.ops ++ last ∧ (last = [] ∨ ∃ i, last = [.close (shardFile i)]) ∧
        ∀ file, openAfter file w.ops = true → last = [.close file] := by
  cases h with
  | fresh =>
      refine ⟨rfl, [], (List.append_nil _).symm, rfl, .inl rfl, fun file hopen => ?_⟩
      cases hopen
  | writing h =>
      refine ⟨?_, [.close (shardFile w.shards.length)], ?_, ?_, .inr ⟨_, rfl⟩, ?_⟩
      · unfold closeShard
        rw [h.f]
      · unfold closeShard
        rw [h.f]
      · unfold closeShard
        rw [h.f]
      · intro file hopen
        rw [h.handles file hopen]

end FTWWriter

/-! ## The run -/

variable {limit : Nat} {src : Source T}
  (cat : List (HostTensor T) → Except Error (HostTensor T))

/-- The conversion is refused, or its shards and its metadata leave a byte of the directory as it is. -/
def Source.Spares (src : Source T) (limit : Nat) (file : String) (k : Nat) (b : UInt8) : Prop :=
  src.model.isFtw = true ∨ src.tpSize.getD 1 ≠ 1 ∨ limit % align ≠ 0 ∨
    ((∀ i < shardCount limit ((src.calls cat).1.map fun c => c.tensor.bytes.length),
        file ≠ shardFile i) ∧
      ((src.calls cat).2 = none → src.model.Spares file k b))

/-- What a run does before it touches the index. -/
structure Front (src : Source T) (limit : Nat) (front : List FileOp) : Prop where
  spares : ∀ {file k b}, src.Spares cat limit file k b → ∀ op ∈ front, op.Spares file k b
  breaks : ∀ {file k b}, ¬ src.Spares cat limit file k b → ∃ op ∈ front, op.Breaks file k b
  ne_replaceTmp : ∀ op ∈ front, op ≠ FileOp.replaceTmp

theorem addCalls_eq : ∀ {calls : List (Call T)} {w w' : FTWWriter}, addAll w calls = .ok w' →
    addCalls w calls = (w', none)
  | [], w, w', h => by rw [addCalls, ← Except.ok.inj h]
  | c :: cs, w, w', h => by
      rw [addCalls]
      cases hc : w.addTensor c.name c.tensor c.kind with
      | error err =>
          have hrun : addAll w (c :: cs) = .error err := by
            show (w.addTensor c.name c.tensor c.kind >>= fun w => addAll w cs) = _
            rw [hc]
            rfl
          rw [hrun] at h
          cases h
      | ok v =>
          have hrun : addAll w (c :: cs) = addAll v cs := by
            show (w.addTensor c.name c.tensor c.kind >>= fun w => addAll w cs) = _
            rw [hc]
            rfl
          rw [hrun] at h
          exact addCalls_eq h

/-- Nothing is done. -/
theorem Front.refused
    (h : src.model.isFtw = true ∨ src.tpSize.getD 1 ≠ 1 ∨ limit % align ≠ 0) :
    Front cat src limit [] where
  spares := fun _ _ hop => absurd hop List.not_mem_nil
  breaks := by
    intro file k b hns
    exact absurd (h.imp_right (Or.imp_right Or.inl)) hns
  ne_replaceTmp := fun _ hop => absurd hop List.not_mem_nil

section Writer

variable {w : FTWWriter} {fill : Fill}

theorem Front.shards (h : FTWWriter.Holds limit d w (region (src.calls cat).1) fill)
    (hcount : fill.count = shardCount limit ((src.calls cat).1.map fun c => c.tensor.bytes.length))
    (hgo : ¬ (src.model.isFtw = true ∨ src.tpSize.getD 1 ≠ 1 ∨ limit % align ≠ 0))
    {err : Error} (herr : (src.calls cat).2 = some err) : Front cat src limit w.ops where
  spares := by
    rintro file k b (h₁ | h₁ | h₁ | ⟨hfile, -⟩)
    · exact absurd (.inl h₁) hgo
    · exact absurd (.inr (.inl h₁)) hgo
    · exact absurd (.inr (.inr h₁)) hgo
    · exact h.spares (hcount ▸ hfile)
  breaks := by
    intro file k b hns
    by_contra hnone
    apply hns
    refine .inr (.inr (.inr ⟨fun i hi heq => ?_, fun hok => ?_⟩))
    · rw [← hcount] at hi
      exact hnone ⟨_, h.opened hi, heq.symm⟩
    · rw [herr] at hok
      cases hok
  ne_replaceTmp := h.ne_replaceTmp

theorem Front.metadata (h : FTWWriter.Holds limit d w (region (src.calls cat).1) fill)
    (hcount : fill.count = shardCount limit ((src.calls cat).1.map fun c => c.tensor.bytes.length))
    (hgo : ¬ (src.model.isFtw = true ∨ src.tpSize.getD 1 ≠ 1 ∨ limit % align ≠ 0))
    (herr : (src.calls cat).2 = none) {last : List FileOp}
    (hlast : last = [] ∨ ∃ i, last = [.close (shardFile i)]) :
    Front cat src limit (w.ops ++ (copyMetadata src.model).1 ++ last) where
  spares := by
    rintro file k b (h₁ | h₁ | h₁ | ⟨hfile, hmodel⟩) op hop
    · exact absurd (.inl h₁) hgo
    · exact absurd (.inr (.inl h₁)) hgo
    · exact absurd (.inr (.inr h₁)) hgo
    · rcases List.mem_append.mp hop with hop | hop
      · rcases List.mem_append.mp hop with hop | hop
        · exact h.spares (hcount ▸ hfile) op hop
        · exact ModelPath.spares_ops (hmodel herr) op hop
      · rcases hlast with rfl | ⟨i, rfl⟩
        · exact absurd hop List.not_mem_nil
        · rw [List.mem_singleton.mp hop]
          exact trivial
  breaks := by
    intro file k b hns
    by_contra hnone
    apply hns
    refine .inr (.inr (.inr ⟨fun i hi heq => ?_, fun _ => ?_⟩))
    · rw [← hcount] at hi
      exact hnone ⟨_, List.mem_append_left _ (List.mem_append_left _ (h.opened hi)), heq.symm⟩
    · by_contra hmodel
      obtain ⟨op, hop, hbreaks⟩ := ModelPath.breaks_of_not_spares hmodel
      exact hnone ⟨op, List.mem_append_left _ (List.mem_append_right _ hop), hbreaks⟩
  ne_replaceTmp := by
    intro op hop
    rcases List.mem_append.mp hop with hop | hop
    · rcases List.mem_append.mp hop with hop | hop
      · exact h.ne_replaceTmp op hop
      · exact copyMetadata_ne_replaceTmp src.model op hop
    · rcases hlast with rfl | ⟨i, rfl⟩
      · exact absurd hop List.not_mem_nil
      · rw [List.mem_singleton.mp hop]
        exact FileOp.noConfusion

/-- With the last shard closed the new index describes the directory, and no handle is open. -/
theorem FTWWriter.Holds.finished {calls : List (Call T)}
    (h : FTWWriter.Holds limit d w (region calls) fill)
    (htensors : w.tensors = layout 0 calls) (m : ModelPath) {last : List FileOp}
    (hlast : last = [] ∨ ∃ i, last = [.close (shardFile i)])
    (hclose : w.closeShard.ops = w.ops ++ last)
    (hopen : ∀ file, openAfter file w.ops = true → last = [.close file]) {index : Index}
    (hindex : index.tensors = w.tensors) (hshards : index.shards = w.closeShard.shards) :
    Describes (d.replay (w.ops ++ (copyMetadata m).1 ++ last)).files
        ⟨some index, calls.map fun c => c.tensor.bytes⟩ ∧
      ∀ file, openAfter file (w.ops ++ (copyMetadata m).1 ++ last) = false := by
  have hnames := h.closed_names
  have hlast_files : ∀ e : Disk, (e.replay last).files = e.files := by
    intro e
    rcases hlast with rfl | ⟨i, rfl⟩ <;> rfl
  constructor
  · apply describes_of_stored (hindex.trans htensors)
    · rw [hshards]
      apply (h.closed (length_region_mod calls)).congr
      intro s hs
      obtain ⟨i, -, hfile⟩ := hnames s hs
      rw [hclose, Disk.replay_append, Disk.replay_append, Disk.replay_append, hlast_files, hlast_files,
        hfile]
      apply replay_files
      intro k b
      exact ModelPath.spares_ops (m.spares_shard i k b)
    · rw [hshards]
      intro s hs
      obtain ⟨i, -, hfile⟩ := hnames s hs
      exact ⟨i, hfile⟩
  · intro file
    by_contra hstill
    rw [Bool.not_eq_false] at hstill
    unfold openAfter at hstill
    rw [List.foldl_append, List.foldl_append] at hstill
    -- what is open after the metadata was open before, and is closed last
    have hmeta : (copyMetadata m).1.foldl (FileOp.keepsOpen file)
        (w.ops.foldl (FileOp.keepsOpen file) false) = true := by
      rcases hlast with rfl | ⟨i, rfl⟩
      · exact hstill
      · exact (Bool.and_eq_true_iff.mp hstill).2
    have hwas := copyMetadata_closes m _ hmeta
    rw [hopen file hwas, hmeta] at hstill
    have hself : FileOp.keepsOpen file true (.close file) = true := hstill
    rw [show FileOp.keepsOpen file true (.close file) = (!decide (file = file) && true) from rfl,
      decide_eq_true rfl] at hself
    cases hself

end Writer

/-- A run does its front, and then perhaps puts an index in place that describes what is there. -/
theorem convert_spec (hlimit : 0 < limit) (src : Source T) (d : Disk) :
    ∃ front, Front cat src limit front ∧
      ((convertCheckpoint cat src limit).ops = front ∨
        ∃ x, (convertCheckpoint cat src limit).ops = front ++ [.dumpTmp x, .replaceTmp] ∧
          Describes (d.replay front).files x ∧ ∀ file, openAfter file front = false) := by
  by_cases hftw : src.model.isFtw = true
  · refine ⟨[], .refused cat (.inl hftw), .inl ?_⟩
    unfold convertCheckpoint
    rw [if_pos hftw]
  by_cases htp : src.tpSize.getD 1 ≠ 1
  · refine ⟨[], .refused cat (.inr (.inl htp)), .inl ?_⟩
    unfold convertCheckpoint
    rw [if_neg hftw, if_pos htp]
  by_cases hblock : limit % align = 0
  case neg =>
    refine ⟨[], .refused cat (.inr (.inr hblock)), .inl ?_⟩
    unfold convertCheckpoint FTWWriter.init
    rw [if_neg hftw, if_neg htp, if_neg hblock]
  have hgo : ¬ (src.model.isFtw = true ∨ src.tpSize.getD 1 ≠ 1 ∨ limit % align ≠ 0) := by
    rintro (h | h | h)
    · exact hftw h
    · exact htp h
    · exact h hblock
  have hfresh : FTWWriter.Holds limit d { shardLimit := limit } [] ⟨0, 0⟩ := .fresh
  obtain ⟨w, hw, hholds, htensors, hwritten⟩ :=
    FTWWriter.addAll_spec hlimit hblock (src.calls cat).1 hfresh rfl
  rw [List.nil_append] at hholds
  obtain ⟨hshards, last, hops, hclose, hlast, hopen⟩ :=
    hholds.closeShard_ops (copyMetadata src.model).1
  have hrun : convertCheckpoint cat src limit =
      (src.calls cat).2.elim
        ((copyMetadata src.model).2.elim
          ⟨({ w with ops := w.ops ++ (copyMetadata src.model).1 } : FTWWriter).finalize.1.ops, none⟩
          fun err => ⟨w.ops ++ (copyMetadata src.model).1, some err⟩)
        fun err => ⟨w.ops, some err⟩ := by
    unfold convertCheckpoint FTWWriter.init
    rw [if_neg hftw, if_neg htp, if_pos hblock]
    dsimp only
    rewrite [addCalls_eq hw]
    cases (src.calls cat).2 with
    | some err => rfl
    | none => cases (copyMetadata src.model).2 <;> rfl
  rw [hrun]
  cases herr : (src.calls cat).2 with
  | some err => exact ⟨w.ops, .shards cat hholds rfl hgo herr, .inl rfl⟩
  | none =>
      cases hcopy : (copyMetadata src.model).2 with
      | some err =>
          refine ⟨_, .metadata cat hholds rfl hgo herr (.inl rfl), .inl ?_⟩
          exact (List.append_nil _).symm
      | none =>
          refine ⟨_, .metadata cat hholds rfl hgo herr hlast, .inr ?_⟩
          refine ⟨⟨some ({ w with ops := w.ops ++ (copyMetadata src.model).1 } :
            FTWWriter).finalize.2, (src.calls cat).1.map fun c => c.tensor.bytes⟩, ?_, ?_⟩
          · rw [FTWWriter.finalize_ops, hops]
            show _ ++ [FileOp.dumpTmp ⟨some _, w.written⟩, .replaceTmp] = _
            rw [hwritten]
            rfl
          · apply hholds.finished htensors src.model hlast hclose hopen
            · exact FTWWriter.closeShard_tensors _
            · exact hshards

/-- While the index is not yet in place, the old one stays right if what it lists is spared. -/
theorem safe_before_index {front done : List FileOp} {d' : Disk} (hfront : Front cat src limit front)
    (hd : Safe d) (hdone : ∀ op ∈ done, op ∈ front ∨ ∃ x, op = .dumpTmp x)
    (hspares : ∀ f, d.index = some f → ∀ file k b, Listed f file k b →
      src.Spares cat limit file k b)
    (hindex : d'.index = (d.replay done).index)
    (hfiles : ∀ file, d'.files file = (d.replay done).files file ∨ openAfter file done = true) :
    Safe d' := by
  apply safe_of_spares hd _ hfiles
  · intro f hf file k b hl op hop
    rcases hdone op hop with hop | ⟨x, rfl⟩
    · exact hfront.spares (hspares f hf file k b hl) op hop
    · exact trivial
  · rw [hindex]
    apply replay_index
    intro op hop
    rcases hdone op hop with hop | ⟨x, rfl⟩
    · exact hfront.ne_replaceTmp op hop
    · exact FileOp.noConfusion

/-- A byte that the old index lists is taken away before the new one is in place. -/
theorem exists_unsafe_stop (hlimit : 0 < limit) {src : Source T} {d : Disk} {f : IndexFile}
    (hf : d.index = some f) {file : String} {k : Nat} {b : UInt8} (hl : Listed f file k b)
    (hns : ¬ src.Spares cat limit file k b) :
    ∃ d', Stopped d (convertCheckpoint cat src limit).ops d' ∧ ¬ Safe d' := by
  obtain ⟨front, hfront, hops⟩ := convert_spec cat hlimit src d
  obtain ⟨op, hop, hbreaks⟩ := hfront.breaks hns
  obtain ⟨before, after, rfl⟩ := List.append_of_mem hop
  have hbefore : ∀ q ∈ before, q ≠ FileOp.replaceTmp :=
    fun q hq => hfront.ne_replaceTmp q (List.mem_append_left _ hq)
  have hrest : ∃ rest, (convertCheckpoint cat src limit).ops = before ++ op :: rest := by
    rcases hops with hops | ⟨x, hops, -⟩
    · exact ⟨after, hops⟩
    · exact ⟨after ++ [.dumpTmp x, .replaceTmp], by rw [hops, List.append_assoc, List.cons_append]⟩
  obtain ⟨rest, hrest⟩ := hrest
  rw [hrest]
  exact not_safe_of_breaks hf hl hbefore hbreaks

/-- Wherever a conversion stops the directory is no checkpoint or one that is described by its index,
just when it was so at first and every byte the first index lists is left alone. -/
theorem convert_crash_safe_iff (hlimit : 0 < limit) (src : Source T) (d : Disk) :
    (∀ d', Stopped d (convertCheckpoint cat src limit).ops d' → Safe d') ↔
      Safe d ∧ ∀ f, d.index = some f → ∀ file k b, Listed f file k b →
        src.Spares cat limit file k b := by
  obtain ⟨front, hfront, hops⟩ := convert_spec cat hlimit src d
  constructor
  · intro hsafe
    constructor
    · exact hsafe d ⟨[], List.nil_prefix, rfl, fun _ => .inl rfl⟩
    · intro f hf file k b hl
      by_contra hns
      obtain ⟨d', hd', hunsafe⟩ := exists_unsafe_stop cat hlimit hf hl hns
      exact hunsafe (hsafe d' hd')
  · rintro ⟨hd, hspares⟩ d' ⟨done, hdone, hindex, hfiles⟩
    have hfiles' : ∀ file, d'.files file = (d.replay done).files file ∨
        openAfter file done = true := fun file => (hfiles file).imp_right And.left
    rcases hops with hops | ⟨x, hops, hx, hclosed⟩
    · rw [hops] at hdone
      exact safe_before_index cat hfront hd (fun op hop => .inl (hdone.subset hop)) hspares hindex
        hfiles'
    · rw [hops] at hdone
      by_cases hall : done = front ++ [.dumpTmp x, .replaceTmp]
      · -- the new index is in place
        subst hall
        have hreplay : d.replay (front ++ [.dumpTmp x, .replaceTmp]) =
            { d.replay front with index := some x, tmp := none } := by
          rw [Disk.replay_append]
          rfl
        rw [hreplay] at hindex hfiles'
        intro f hf
        obtain rfl : x = f := Option.some.inj (hindex.symm.trans hf)
        apply hx.congr
        intro file k b hl
        obtain ⟨data, hfile, hb⟩ := hx.listed hl
        refine ⟨data, ?_, hb⟩
        rcases hfiles' file with hsame | hopen
        · exact hsame.trans hfile
        · have hshut : openAfter file (front ++ [.dumpTmp x, .replaceTmp]) = openAfter file front := by
            rw [show front ++ [FileOp.dumpTmp x, .replaceTmp] =
              (front ++ [.dumpTmp x]) ++ [.replaceTmp] by rw [List.append_assoc]; rfl,
              openAfter_snoc, openAfter_snoc]
            rfl
          rw [hshut, hclosed file] at hopen
          cases hopen
      · have hsplit : front ++ [FileOp.dumpTmp x, .replaceTmp] =
            (front ++ [.dumpTmp x]) ++ [.replaceTmp] := by
          rw [List.append_assoc]
          rfl
        rw [hsplit] at hdone hall
        have hshort : done <+: front ++ [.dumpTmp x] := by
          rcases List.prefix_concat_iff.mp hdone with heq | hshort
          · exact absurd heq hall
          · exact hshort
        refine safe_before_index cat hfront hd (fun op hop => ?_) hspares hindex hfiles'
        rcases List.mem_append.mp (hshort.subset hop) with hop | hop
        · exact .inl hop
        · exact .inr ⟨x, List.mem_singleton.mp hop⟩

/-- A model of one tensor and one metadata file. -/
def small : Source torch where
  model := .dir (.node [("config.json", [123, 125])] []) fun _ => false
  tpSize := none
  dense := [("bias", bias.tensor)]
  banks := none

def noCat (_ : List (HostTensor torch)) : Except Error (HostTensor torch) := .error .runtimeError

theorem convert_crash_safe_iff_small :
    (∀ d', Stopped emptyDisk (convertCheckpoint noCat small 4096).ops d' → Safe d') ↔
      Safe emptyDisk ∧ ∀ f, emptyDisk.index = some f → ∀ file k b, Listed f file k b →
        small.Spares noCat 4096 file k b :=
  convert_crash_safe_iff noCat (by decide) small emptyDisk

/-- A finished checkpoint is converted over and the conversion stops: the old index is still there, its
shard is not. -/
theorem convert_over_checkpoint_unsafe :
    ∃ d, writeAll 4096 [bias] emptyDisk = .ok d ∧ isFtwCheckpoint d = true ∧ Safe d ∧
      ∃ d', Stopped d (convertCheckpoint noCat small 4096).ops d' ∧ isFtwCheckpoint d' = true ∧
        ¬ Safe d' := by
  obtain ⟨d, hwrite, hcomplete⟩ := writeAll_spec (by decide : 0 < 4096) (by decide) [bias] emptyDisk
  obtain ⟨index, hindex, -, htensors, hstored, hnames⟩ := hcomplete.index
  have htotal : 0 < 0 + total Shard.nbytes index.shards := by
    rw [hstored.total, show region [bias] = padded bias.tensor.bytes ++ [] from rfl, List.append_nil,
      length_padded]
    decide
  obtain ⟨s, hs, hcov⟩ := hstored.laid.exists_stripe (Nat.le_refl 0) htotal
  obtain ⟨i, hi, hfile⟩ := hnames s hs
  obtain rfl : i = 0 := by
    have hcount : shardCount 4096 ([bias].map fun c => c.tensor.bytes.length) = 1 := by decide
    omega
  have hl : Listed ⟨some index, [bias].map fun c => c.tensor.bytes⟩ (shardFile 0)
      (0 + 0 - s.globalOff) 128 := by
    refine ⟨index, rfl, (bias.entry 0, bias.tensor.bytes), ?_, 0, rfl, s, hs, hcov, hfile, rfl⟩
    rw [htensors]
    exact List.mem_cons_self
  have hns : ¬ small.Spares noCat 4096 (shardFile 0) (0 + 0 - s.globalOff) 128 := by
    rintro (h | h | h | ⟨h, -⟩)
    · exact absurd h (by decide)
    · exact absurd h (by decide)
    · exact absurd h (by decide)
    · exact h 0 (by decide) rfl
  obtain ⟨d', hstop, hunsafe⟩ := exists_unsafe_stop noCat (by decide) hindex hl hns
  refine ⟨d, hwrite, ?_, hcomplete.safe, d', hstop, ?_, hunsafe⟩
  · unfold isFtwCheckpoint
    rw [hindex]
    rfl
  · unfold isFtwCheckpoint
    by_contra hnone
    apply hunsafe
    intro f hf
    rw [hf] at hnone
    exact absurd rfl hnone

end Ftw

end FreeToken
