import Pinx.Analysis.FileOverwrite
import Pinx.Analysis.TidyTrees

/-!
# How a call rewrites an inode

A call that grows a file or a directory counts the blocks of its tree again and writes the
inode back.  `Resized` says what that does to the inode table: one slot gets the bytes of the
inode, with the root of the new tree and the count of its records, and all other slots stay.
-/

namespace Pinx.Analysis

open Pinx.Foundation Pinx.Model

variable {v : Ext4} {L : Layout} {s s' s₁ : FsState} {O O' : ℕ → Option Use} {i k d base : ℕ}
  {b raw raw' : Bytes} {inode : Inode}

/-! ## The records of a tree and their count -/

/-- The records of an inode's tree. -/
def treeExtents (v : Ext4) (s : FsState) (raw : Bytes) : List Extent :=
  if HasMagic raw iblock then extentsUnder v s (rootDepth raw) raw iblock else []

/-- The sectors the driver counts for a tree.
SOURCE: ext4.rs:1060-1088 -/
def countedBlocks (v : Ext4) (s : FsState) (raw : Bytes) : ℕ :=
  ((treeExtents v s raw).map writtenLen).sum * (v.bs / 512)

theorem mapsUnder_eq : mapsUnder v s d b base = (extentsUnder v s d b base).flatMap extentMaps := by
  induction d generalizing b base with
  | zero => rfl
  | succ d ih =>
    rw [mapsUnder, extentsUnder, List.flatMap_assoc]
    exact List.flatMap_congr fun x _ => ih

theorem treeMaps_eq : treeMaps v s raw = (treeExtents v s raw).flatMap extentMaps := by
  unfold treeMaps treeExtents
  split
  · exact mapsUnder_eq
  · rfl

theorem treeExtents_same (hsame : ∀ n ∈ treeNodes v s raw, block v s' n = block v s n) :
    treeExtents v s' raw = treeExtents v s raw := by
  unfold treeNodes at hsame
  unfold treeExtents
  split
  · rename_i hmagic
    rw [if_pos hmagic] at hsame
    exact extentsUnder_congr hsame
  · rfl

theorem treeExtents_agree (hagree : NodeAgree raw raw' iblock iblock 4) (hok : RootOk v s raw) :
    treeExtents v s raw' = treeExtents v s raw := by
  have hdepth : rootDepth raw' = rootDepth raw := by
    unfold rootDepth
    rw [hagree.hdrOf_eq]
  unfold treeExtents
  by_cases hmagic : HasMagic raw iblock
  · obtain ⟨hrecs, hkids⟩ := node_agree hagree (hok hmagic).headOk
    rw [if_pos hmagic, if_pos (hagree.hasMagic.mp hmagic), hdepth]
    cases rootDepth raw with
    | zero => exact hrecs
    | succ d => rw [extentsUnder, extentsUnder, hkids]
  · rw [if_neg hmagic, if_neg fun h => hmagic (hagree.hasMagic.mpr h)]

/-- The records are a matter of the root and the nodes. -/
theorem treeExtents_congr (hc : Covers v s O i raw) (hagree : NodeAgree raw raw' iblock iblock 4)
    (hnodes : ∀ n, O n = some (.node i) → block v s' n = block v s n) :
    treeExtents v s' raw' = treeExtents v s raw := by
  obtain ⟨-, hkids, -⟩ := @root_agree v s 0 _ _ hagree hc.ok
  rw [treeExtents_same (fun n hn => hnodes n (hc.nodes n (hkids ▸ hn))), treeExtents_agree hagree hc.ok]

theorem countedBlocks_congr (hc : Covers v s O i raw) (hagree : NodeAgree raw raw' iblock iblock 4)
    (hnodes : ∀ n, O n = some (.node i) → block v s' n = block v s n) :
    countedBlocks v s' raw' = countedBlocks v s raw := by
  rw [countedBlocks, treeExtents_congr hc hagree hnodes, countedBlocks]

/-- SOURCE: ext4.rs:1060-1066 -/
theorem recountBlocks_counted (hv : GeometryOk v) (hok : RootOk v s inode.raw) :
    recountBlocks v inode s = (.ok (countedBlocks v s inode.raw), s) := by
  unfold countedBlocks treeExtents
  by_cases hmagic : HasMagic inode.raw iblock
  · rw [if_pos hmagic, recountBlocks_eq hv.bs_le hmagic ((hok hmagic).walkable hv)]
  · rw [if_neg hmagic, recountBlocks, rdHdr_none hmagic, List.map_nil, List.sum_nil, Nat.zero_mul]
    rfl

/-- A shallow tree has few records. -/
theorem length_treeExtents_le (hok : RootOk v s raw)
    (hshallow : HasMagic raw iblock → rootDepth raw ≤ 1) :
    (treeExtents v s raw).length ≤ 4 * (v.leafMax + 1) := by
  unfold treeExtents
  by_cases hmagic : HasMagic raw iblock
  · rw [if_pos hmagic]
    have htree := hok hmagic
    have hdepth := hshallow hmagic
    have hentries := htree.headOk.entries_le.trans htree.headOk.max_le
    generalize rootDepth raw = d at htree hdepth
    rcases Nat.le_one_iff_eq_zero_or_eq_one.mp hdepth with rfl | rfl
    · rw [extentsUnder, leafRecs, length_recordsOf]
      omega
    · rw [extentsUnder, List.length_flatMap]
      have hleaf : ∀ n ∈ (kidsOf raw iblock).map fun x => (extentsUnder v s 0 (block v s x.2) 0).length,
          n ≤ v.leafMax := by
        intro n hn
        obtain ⟨x, hx, rfl⟩ := List.mem_map.mp hn
        have hhead : HeadOk (block v s x.2) 0 v.leafMax 0 := (htree.2 x hx).2.2
        rw [extentsUnder, leafRecs, length_recordsOf]
        exact hhead.entries_le.trans hhead.max_le
      refine (List.sum_le_card_nsmul _ _ hleaf).trans ?_
      rw [List.length_map, kidsOf, length_indexOf]
      exact Nat.mul_le_mul hentries (Nat.le_succ _)
  · rw [if_neg hmagic]
    exact Nat.zero_le _

theorem countedBlocks_lt (hv : GeometryOk v) (hok : RootOk v s raw)
    (hshallow : HasMagic raw iblock → rootDepth raw ≤ 1) : countedBlocks v s raw < 2 ^ 32 := by
  have hlen := length_treeExtents_le hok hshallow
  have hlens : ∀ n ∈ (treeExtents v s raw).map writtenLen, n ≤ 0x7FFF := by
    intro n hn
    obtain ⟨e, -, rfl⟩ := List.mem_map.mp hn
    unfold writtenLen
    split
    · rename_i hw
      have := hw.2
      omega
    · exact Nat.zero_le _
  have hmax : v.leafMax ≤ 340 := by
    have hbs := hv.bs_le
    unfold Ext4.leafMax
    unfold maxBlockSize at hbs
    omega
  have hunit : v.bs / 512 ≤ 8 := by
    have hbs := hv.bs_le
    unfold maxBlockSize at hbs
    omega
  have htotal : ((treeExtents v s raw).map writtenLen).sum ≤ 4 * 341 * 0x7FFF := by
    refine (List.sum_le_card_nsmul _ _ hlens).trans ?_
    rw [List.length_map]
    exact Nat.mul_le_mul_right _ (hlen.trans (Nat.mul_le_mul_left _ (by omega)))
  calc countedBlocks v s raw ≤ 4 * 341 * 0x7FFF * 8 := Nat.mul_le_mul htotal hunit
    _ < 2 ^ 32 := by omega

/-! ## Inodes that are written back -/

/-- The count that is read back from an inode that was written. -/
theorem blocks_encode (v : Ext4) (inode : Inode) (j : ℕ) :
    (v.parseInode j (v.encodeInode inode)).blocks =
      inode.blocks % if v.has64bit then 2 ^ 64 else 2 ^ 32 := by
  have hfield : ∀ a n, a + n ≤ 0x7C → (v.encodeInode inode).getLE a n =
      (encodeFields v inode).getLE a n :=
    fun a n h => Bytes.getLE_congr fun j hj => encodeInode_fields (by omega) (by omega)
  unfold Ext4.parseInode
  dsimp only
  rw [hfield 0x1C 4 (by omega), hfield 0x74 4 (by omega)]
  unfold encodeFields
  by_cases h64 : v.has64bit = true
  · simp only [h64, if_true]
    rw [Bytes.getLE_putLE_outside (by omega), Bytes.getLE_putLE_outside (by omega),
      Bytes.getLE_putLE_outside (by omega), Bytes.getLE_putLE, Bytes.getLE_putLE]
    omega
  · simp only [h64, if_false, Bool.false_eq_true]
    rw [Bytes.getLE_putLE_outside (by omega), Bytes.getLE_putLE]
    rfl

/-- The slot of inode `i` is rewritten: its root and its sizes change, with the count of the
records of the new tree. -/
structure Resized (v : Ext4) (L : Layout) (i : ℕ) (s s' : FsState) (inode : Inode) : Prop where
  self : slot v L s' i = Bytes.clip v.inodeSize (v.encodeInode inode)
  around : SameAround (slot v L s i) inode.raw
  mode : inode.mode = (inodeOf v L s i).mode
  flags : inode.flags = (inodeOf v L s i).flags
  blocks : inode.blocks = countedBlocks v s' (slot v L s' i)

/-- What a call that works on the tree of inode `i` leaves when it returns. -/
structure Worked (v : Ext4) (L : Layout) (O : ℕ → Option Use) (i : ℕ) (s : FsState)
    (O' : ℕ → Option Use) (s' : FsState) : Prop where
  good : Good v L O' s'
  ext : ∀ p u, O p = some u → O' p = some u
  slots : ∀ j, IsInode v j → j ≠ i → slot v L s' j = slot v L s j
  others : ∀ p u, O p = some u → u.ino ≠ i → block v s' p = block v s p
  inUse : InUse v L s' i
  shallow : HasMagic (slot v L s' i) iblock → rootDepth (slot v L s' i) ≤ 1
  tidy : Tidy v s (slot v L s i) → Tidy v s' (slot v L s' i)
  self : slot v L s' i = slot v L s i ∧ (∀ n, O n = some (.node i) → block v s' n = block v s n) ∨
    ∃ inode, Resized v L i s s' inode

section Work

variable (hv : GeometryOk v) (hL : LayoutOk v L) (hgood : Good v L O s) (hi : InUse v L s i)
  (hdepth : HasMagic (slot v L s i) iblock → rootDepth (slot v L s i) ≤ 1)

theorem Worked.refl (hgood : Good v L O s) (hi : InUse v L s i)
    (hdepth : HasMagic (slot v L s i) iblock → rootDepth (slot v L s i) ≤ 1) :
    Worked v L O i s O s :=
  ⟨hgood, fun _ _ => id, fun _ _ _ => rfl, fun _ _ _ _ => rfl, hi, hdepth, id,
    Or.inl ⟨rfl, fun _ _ => rfl⟩⟩

include hv hL hgood hi

/-- The end of a call: the blocks are counted again and the inode is written back. -/
theorem finish_resized (hstep : Step v L False i O s O' s₁) (hino : inode.ino = i)
    (hcov : Covers v s₁ O' i inode.raw) (haround : SameAround (slot v L s₁ i) inode.raw)
    (hmode : inode.mode = (inodeOf v L s₁ i).mode) (hflags : inode.flags = (inodeOf v L s₁ i).flags)
    (hrun : (recountBlocks v inode >>= fun total => writeInode v { inode with blocks := total }) s₁ =
      (.ok (), s')) :
    s' = putSlot v L s₁ i (v.encodeInode { inode with blocks := countedBlocks v s₁ inode.raw }) ∧
      Good v L O' s' ∧ InUse v L s' i ∧
      (∀ j, IsInode v j → j ≠ i → slot v L s' j = slot v L s j) ∧
      Resized v L i s s' { inode with blocks := countedBlocks v s₁ inode.raw } := by
  have hslot := hstep.touch.slots i hi.1
  obtain ⟨total, htotal, hput, hvol', huse⟩ := finish_inode hv hL False.elim inode
    (hstep.vol False.elim (Or.inl hi) ⟨hgood, False.elim⟩) (hi.congr hslot) hino hcov haround hmode hflags
  rw [recountBlocks_counted hv hcov.ok] at htotal
  cases htotal
  rw [Prog.bind_ok (recountBlocks_counted hv hcov.ok), hput] at hrun
  cases hrun
  generalize hlast : { inode with blocks := countedBlocks v s₁ inode.raw } = last at *
  have hraw : last.raw = inode.raw := by rw [← hlast]
  obtain ⟨hagree, -⟩ := slot_written (s := s₁) hv hL hi.1 last
  rw [hraw] at hagree
  refine ⟨rfl, hvol'.toGood, huse, fun j hj hne => ?_, ?_, ?_, ?_, ?_, ?_⟩
  · rw [slot_putSlot hv hL hi.1 hj, if_neg hne, hstep.touch.slots j hj]
  · rw [slot_putSlot hv hL hi.1 hi.1, if_pos rfl]
  · rw [hraw, ← hslot]
    exact haround
  · rw [← hlast, ← inodeOf_congr hslot]
    exact hmode
  · rw [← hlast, ← inodeOf_congr hslot]
    exact hflags
  · have hblock : ∀ n, O' n = some (.node i) →
        block v (putSlot v L s₁ i (v.encodeInode last)) n = block v s₁ n :=
      fun n hn => block_putSlot hv hL hi.1 (hvol'.used n _ hn).2.2.1
    rw [countedBlocks_congr hcov hagree hblock, ← hlast]

theorem finish_worked (hstep : Step v L False i O s O' s₁) (hop : Opened v L O' i s₁ inode)
    (htidy : Tidy v s (slot v L s i) → Tidy v s₁ inode.raw)
    (hrun : (recountBlocks v inode >>= fun total => writeInode v { inode with blocks := total }) s₁ =
      (.ok (), s')) :
    Worked v L O i s O' s' ∧ ∃ inode, Resized v L i s s' inode := by
  obtain ⟨rfl, hgood', huse, hslots, hresized⟩ := finish_resized hv hL hgood hi hstep hop.ino hop.covers
    hop.around hop.mode hop.flags hrun
  obtain ⟨hagree, -⟩ := slot_written (s := s₁) hv hL hi.1
    { inode with blocks := countedBlocks v s₁ inode.raw }
  have hblock : ∀ p u, O' p = some u → block v (putSlot v L s₁ i (v.encodeInode
      { inode with blocks := countedBlocks v s₁ inode.raw })) p = block v s₁ p :=
    fun p u hp => block_putSlot hv hL hi.1 (hgood'.used p u hp).2.2.1
  refine ⟨⟨hgood', hstep.ext, hslots, fun p u hp hu => ?_, huse, fun hmagic => ?_, fun h => ?_,
    Or.inr ⟨_, hresized⟩⟩, _, hresized⟩
  · rw [hblock p u (hstep.ext p u hp), hstep.others hgood hp hu]
  · have hroot := hop.shallow (hagree.hasMagic.mpr hmagic)
    unfold rootDepth at hroot ⊢
    rwa [← hagree.hdrOf_eq]
  · exact (htidy h).congr hop.covers hagree fun n hn => hblock n _ hn

/-- A write that returns has run its loop on a regular file. -/
theorem writeFile_ran {offset : ℕ} {buf : List UInt8} (hne : buf ≠ [])
    (hrun : writeFile v i offset buf s = (.ok (), s')) :
    (inodeOf v L s i).isFile = true ∧ ∃ inode s₁,
      writeLoop v buf.length (inodeOf v L s i) offset buf s = (.ok inode, s₁) ∧
      (recountBlocks v (sizedInode inode (offset + buf.length)) >>= fun total =>
        writeInode v { sizedInode inode (offset + buf.length) with blocks := total }) s₁ =
          (.ok (), s') := by
  unfold writeFile at hrun
  rw [if_neg hne, Prog.bind_ok (readInode_ok hv hL hgood.placed hi.1), Prog.ite_apply] at hrun
  rcases ite_eq_iff.mp hrun with ⟨-, hrun⟩ | ⟨hfile, hrun⟩
  · cases hrun
  rw [Prog.ite_apply] at hrun
  rcases ite_eq_iff.mp hrun with ⟨-, hrun⟩ | ⟨-, hrun⟩
  · cases hrun
  obtain ⟨inode, s₁, hloop, hrun⟩ := Prog.bind_eq_ok.mp hrun
  exact ⟨Bool.eq_true_of_not_eq_false hfile, inode, s₁, hloop, hrun⟩

include hdepth

/-- SOURCE: ext4.rs:1282-1320 -/
theorem writeFile_worked {offset : ℕ} {buf : List UInt8}
    (hrun : writeFile v i offset buf s = (.ok (), s')) :
    ∃ O', Worked v L O i s O' s' ∧ (buf = [] ∧ s' = s ∨ ∃ inode, Resized v L i s s' inode) := by
  by_cases hnil : buf = []
  · unfold writeFile at hrun
    rw [if_pos hnil] at hrun
    cases hrun
    exact ⟨O, Worked.refl hgood hi hdepth, Or.inl ⟨hnil, rfl⟩⟩
  have hvol : Vol v L False O s := ⟨hgood, False.elim⟩
  obtain ⟨hfile, inode, s₁, hloop, hrun⟩ := writeFile_ran hv hL hgood hi hnil hrun
  obtain ⟨O₁, hstep, hop⟩ := (writeLoop_works hv hL False.elim buf.length hvol hi
    (opened_slot hvol hi hdepth) (not_isDir_of_isFile hfile) offset buf).ok hloop
  have hsized : Opened v L O₁ i s₁ (sizedInode inode (offset + buf.length)) :=
    ⟨hop.ino, hop.covers, hop.shallow, hop.around, hop.mode, hop.flags⟩
  have htidy : Tidy v s (slot v L s i) → Tidy v s₁ inode.raw := by
    intro h
    rw [← raw_inodeOf] at h
    exact writeLoop_tidy hv hL hgood (opened_slot hvol hi hdepth) h hi (not_isDir_of_isFile hfile) hloop
  obtain ⟨hworked, hresized⟩ := finish_worked hv hL hgood hi hstep hsized htidy hrun
  exact ⟨O₁, hworked, Or.inr hresized⟩

omit hdepth in
/-- A write over mapped blocks leaves the tree and its count, of any depth. -/
theorem writeFile_rewritten {offset : ℕ} {buf : List UInt8} (hne : buf ≠ [])
    (hmapped : Mapped v s (slot v L s i) (offset / v.bs) (endBlock v offset buf.length))
    (hrun : writeFile v i offset buf s = (.ok (), s')) :
    (∀ j, IsInode v j → j ≠ i → slot v L s' j = slot v L s j) ∧
      ∃ inode, Resized v L i s s' inode ∧ inode.blocks = countedBlocks v s (slot v L s i) := by
  obtain ⟨hfile, inode, s₁, hloop, hrun⟩ := writeFile_ran hv hL hgood hi hne hrun
  have hraw := raw_inodeOf v L s i
  have hend := hmapped.endBlock_le hne
  have hc := hgood.slots i hi
  rw [← hraw] at hc hmapped
  obtain ⟨s₂, hloop', hover, hstep, -⟩ := writeLoop_overwrites hv hL hi.1 buf.length (le_refl _) hgood hi
    hc hmapped hend (endBlock_end hv hne)
  rw [hloop'] at hloop
  cases hloop
  have hslot := hstep.touch.slots i hi.1
  have haround : SameAround (slot v L s₁ i) (inodeOf v L s i).raw := by
    rw [hslot, hraw]
    exact fun _ _ => rfl
  have hcount : countedBlocks v s₁ (inodeOf v L s i).raw = countedBlocks v s (slot v L s i) := by
    rw [countedBlocks_congr hc (fun _ _ => rfl) fun n hn => hover.nodes hn, hraw]
  have hmode : (inodeOf v L s i).mode = (inodeOf v L s₁ i).mode := by rw [inodeOf_congr hslot]
  have hflags : (inodeOf v L s i).flags = (inodeOf v L s₁ i).flags := by rw [inodeOf_congr hslot]
  have hcov := hstep.covers hc
  have hino : (sizedInode (inodeOf v L s i) (offset + buf.length)).ino = i := rfl
  generalize inodeOf v L s i = inode at *
  obtain ⟨-, -, -, hslots, hresized⟩ := finish_resized hv hL hgood hi hstep hino hcov haround hmode
    hflags hrun
  exact ⟨hslots, _, hresized, hcount⟩

omit hdepth in
/-- SOURCE: ext4.rs:1234-1245 -/
theorem growDir_worked (hop : Opened v L O i s inode)
    (htidy : Tidy v s (slot v L s i) → Tidy v s inode.raw) {blocks target ft : ℕ} {name : List UInt8}
    (hrun : growDir v inode blocks target ft name s = (.ok (), s')) :
    ∃ O', Worked v L O i s O' s' := by
  have hvol : Vol v L False O s := ⟨hgood, False.elim⟩
  unfold growDir at hrun
  obtain ⟨p, s₁, halloc, hrun⟩ := Prog.bind_eq_ok.mp hrun
  obtain ⟨nb, -, hrun⟩ := (reads_fillEntry _ _ _ _ _ _).bind_eq_ok.mp hrun
  have htaken := allocBlock_taken hv hL hgood.placed halloc
  obtain ⟨hstep₁, hheld⟩ := htaken.step (T := False) hv hL hgood i
  have hvol₁ := hstep₁.vol False.elim (Or.inr rfl) hvol
  rw [Prog.bind_ok (writeFsb_ok hv hheld.isBlock.2)] at hrun
  obtain ⟨hstep₂, hheld₂⟩ := hheld.write (T := False) hv hL hvol₁.toGood i
    (v.dirTailCsum inode.ino inode.gen nb)
  have hstep := hstep₁.trans hi.1 hstep₂
  obtain ⟨inode', s₃, hins, hrun⟩ := Prog.bind_eq_ok.mp hrun
  obtain ⟨O₃, hstep₃, hop₃, -⟩ := (insertExtent_step hv hL False.elim
    (hstep₂.vol False.elim (Or.inr rfl) hvol₁) (hi.congr (hstep.touch.slots i hi.1))
    (hop.step hi.1 hstep) hheld₂ (fun hf => hf.elim)
    (show blocks % 2 ^ 32 < 2 ^ 32 from Nat.mod_lt _ (by omega))).ok hins
  have hsized : Opened v L O₃ i s₃ { inode' with size := inode'.size + v.bs } :=
    ⟨hop₃.ino, hop₃.covers, hop₃.shallow, hop₃.around, hop₃.mode, hop₃.flags⟩
  have htidy₃ : Tidy v s (slot v L s i) → Tidy v s₃ inode'.raw := by
    intro h
    refine Tidy.insert hv hL (hstep₂.vol False.elim (Or.inr rfl) hvol₁).toGood (hop.step hi.1 hstep) ?_
      hheld₂ (Nat.mod_lt _ (by omega)) hins
    refine ((htidy h).same hop.covers fun n hn => ?_).write (hop.step hi.1 hstep₁).covers _ ?_
    · exact htaken.data_eq (hgood.used n _ hn).2.2.1
    · rw [hheld.free]
      exact nofun
  exact ⟨O₃, (finish_worked hv hL hgood hi (hstep.trans hi.1 hstep₃) hsized htidy₃ hrun).1⟩

/-- SOURCE: ext4.rs:1180-1246 -/
theorem addDirent_worked {name : List UInt8} {target ft : ℕ}
    (hrun : addDirent v i name target ft s = (.ok (), s')) : ∃ O', Worked v L O i s O' s' := by
  have hvol : Vol v L False O s := ⟨hgood, False.elim⟩
  have hop := opened_slot hvol hi hdepth
  unfold addDirent at hrun
  rw [Prog.ite_apply] at hrun
  rcases ite_eq_iff.mp hrun with ⟨-, hrun⟩ | ⟨-, hrun⟩
  · cases hrun
  rw [Prog.bind_ok (readInode_ok hv hL hgood.placed hi.1), Prog.ite_apply] at hrun
  rcases ite_eq_iff.mp hrun with ⟨-, hrun⟩ | ⟨-, hrun⟩
  · cases hrun
  rw [Prog.ite_apply] at hrun
  rcases ite_eq_iff.mp hrun with ⟨-, hrun⟩ | ⟨-, hrun⟩
  · cases hrun
  obtain ⟨blocks, -, hrun⟩ := (reads_dirBlocks v _).bind_eq_ok.mp hrun
  obtain ⟨found, s₂, hloop, hrun⟩ := Prog.bind_eq_ok.mp hrun
  obtain ⟨rfl, hfound⟩ := (slotLoop_ends hv hvol hop.covers _ blocks 0).ok hloop
  match found, hfound, hrun with
  | none, _, hrun =>
    exact growDir_worked hv hL hgood hi hop (fun h => by rwa [raw_inodeOf]) hrun
  | some (fsb, blk, place), hfound, hrun =>
    -- the entry goes into a block of the directory, which is not a node of its tree
    obtain ⟨lb, howner⟩ := hfound fsb blk place rfl
    obtain ⟨blk', -, hrun⟩ := (reads_fillSlot _ _ _ _ _).bind_eq_ok.mp hrun
    rw [writeFsb_ok hv (hgood.used fsb _ howner).2.1.2] at hrun
    cases hrun
    have hstep := data_write (T := False) hv hL hgood howner
      (v.dirTailCsum (inodeOf v L s i).ino (inodeOf v L s i).gen blk') fun hf => hf.elim
    have hslot := hstep.touch.slots i hi.1
    refine ⟨O, (hstep.vol False.elim (Or.inl hi) hvol).toGood, fun _ _ => id,
      fun j hj _ => hstep.touch.slots j hj, fun p u hp hu => hstep.others hgood hp hu,
      hi.congr hslot, ?_, fun h => ?_, Or.inl ⟨hslot, fun n hn => ?_⟩⟩
    · rwa [hslot]
    · rw [hslot]
      exact h.write (hgood.slots i hi) _ (by rw [howner]; exact nofun)
    · refine block_setBlock_ne fun heq => ?_
      rw [heq, howner] at hn
      cases hn

end Work

end Pinx.Analysis
