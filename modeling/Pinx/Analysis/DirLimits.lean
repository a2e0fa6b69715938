import Mathlib.Tactic.IntervalCases
import Pinx.Analysis.AllocGuard
import Pinx.Analysis.DirCreate

/-!
# Directories at their limit

A directory block that goes right behind the last extent record is merged into it.  A
record of `0x7FFF` blocks becomes one of `0x8000`, which is how an unwritten record looks:
from then on none of its blocks is found, the new one included.
-/

namespace Pinx.Analysis

open Pinx.Foundation Pinx.Model

variable {v : Ext4} {L : Layout} {s s' : FsState} {O : ℕ → Option Use} {dir ino p : ℕ}
  {name : List UInt8} {isDir : Bool}

/-! ## Calls that return -/

section Returns

variable (hv : GeometryOk v) (hL : LayoutOk v L) (hgood : Good v L O s)
  (hd : LinearDir v L s dir) (hsmall : SmallCounts s)
include hv hL hgood hd hsmall

/-- A directory grows by a block that goes right behind the last record of its root. -/
theorem growDir_ok (ft : ℕ) (hname : name.length ≤ 255) (hp : Takes v L s 0 p)
    (hflat : rootDepth (slot v L s dir) = 0) {e : Extent}
    (hmerge : mergeRecs (leafRecs (slot v L s dir) iblock)
      (dirCount v (inodeOf v L s dir).size) p = .ok (some e)) :
    ∃ s', growDir v (inodeOf v L s dir) (dirCount v (inodeOf v L s dir).size) ino ft name s =
      (.ok (), s') := by
  have hraw : (inodeOf v L s dir).raw = slot v L s dir := Bytes.clip_clip _
  have hi := hd.inUse
  have hvol : Vol v L False O s := ⟨hgood, False.elim⟩
  have hhead : HeadOk (inodeOf v L s dir).raw iblock 4 0 := by
    have htree := (hgood.slots dir hi).ok hd.magic
    rw [hflat] at htree
    exact hraw ▸ htree
  obtain ⟨hisBlock, hroom, -⟩ := (freeBlock_iff hv).mp hp.1
  have hbit : freeBit v L s false ((p - v.firstDataBlock) / v.bpg)
      ((p - v.firstDataBlock) % v.bpg) = true := by
    have hfree := hp.1
    unfold freeBlock at hfree
    exact (Bool.and_eq_true_iff.mp hfree).2
  obtain ⟨q, s₁, halloc, htaken⟩ := allocBlock_ok hv hL hgood.placed hsmall
    (hisBlock.group_lt hv) hroom hbit
  cases htaken.takes.unique hp
  obtain ⟨hstep₁, hheld⟩ := htaken.step (T := False) hv hL hgood dir
  have hvol₁ := hstep₁.vol False.elim (Or.inr rfl) hvol
  obtain ⟨hstep₂, hheld₂⟩ := hheld.write (T := False) hv hL hvol₁.toGood dir
    (v.dirTailCsum dir (inodeOf v L s dir).gen (putEntry (fun _ => 0) 0 v.dirLimit ino ft name))
  have hstep := hstep₁.trans hi.1 hstep₂
  have hvol₂ := hstep.vol False.elim (Or.inr rfl) hvol
  have hop := (opened_slot hvol hi fun _ => hd.shallow).step hi.1 hstep
  rw [← hraw] at hmerge
  have hinsert := insertExtent_merge (v := v) (s := setBlock v s₁ p (v.dirTailCsum dir
    (inodeOf v L s dir).gen (putEntry (fun _ => 0) 0 v.dirLimit ino ft name))) hhead hmerge
  obtain ⟨O', hstep₃, hop₃, -⟩ := (insertExtent_step hv hL False.elim hvol₂
    (hi.congr (hstep.touch.slots dir hi.1)) hop hheld₂ False.elim hd.count).ok hinsert
  obtain ⟨total, hfin, -, -⟩ := finish_vol hv hL False.elim
    { inodeOf v L s dir with
      raw := wrExtent (inodeOf v L s dir).raw iblock
        ((hdrOf (inodeOf v L s dir).raw iblock).entries - 1) e
      size := (inodeOf v L s dir).size + v.bs }
    (hstep₃.vol False.elim (Or.inl (hi.congr (hstep.touch.slots dir hi.1))) hvol₂)
    (hi.congr ((hstep.trans hi.1 hstep₃).touch.slots dir hi.1))
    ⟨hop₃.ino, hop₃.covers, hop₃.shallow, hop₃.around, hop₃.mode, hop₃.flags⟩
  unfold growDir
  rw [Nat.mod_eq_of_lt hd.count, Prog.bind_ok halloc,
    Prog.bind_ok (fillEntry_ok s₁ (by unfold maxBlockSize; omega)),
    Prog.bind_ok (writeFsb_ok hv hheld.isBlock.2)]
  exact ⟨_, (Prog.bind_ok hinsert).trans hfin⟩

omit hsmall in
/-- A full directory is asked to grow. -/
theorem addDirent_full (ft : ℕ) (hne : name ≠ []) (hname : name.length ≤ 255)
    (hflags : (inodeOf v L s dir).flags &&& 0x1000 = 0) (hfull : Crowded v L s dir name) :
    addDirent v dir name ino ft s = growDir v (inodeOf v L s dir)
      (dirCount v (inodeOf v L s dir).size) ino ft name s := by
  have hraw : (inodeOf v L s dir).raw = slot v L s dir := Bytes.clip_clip _
  have hcount := hd.count
  have hok : RootOk v s (inodeOf v L s dir).raw := hraw ▸ (hgood.slots dir hd.inUse).ok
  have hread : BlocksRead v s (inodeOf v L s dir).raw 0
      (0 + dirCount v (inodeOf v L s dir).size) := by
    rw [Nat.zero_add, hraw]
    exact hd.read hgood
  unfold addDirent
  rw [if_neg (by rintro (h | h); exacts [hne h, absurd h (by omega)]),
    Prog.bind_ok (readInode_ok hv hL hgood.placed hd.inUse.1), if_neg (by rw [hd.isDir]; decide),
    if_neg (not_not_intro hflags), Prog.bind_ok (hd.dirBlocks_ok hv)]
  rcases slotLoop_cases hv hok (roundDirSize name.length) hread (by omega) with
    ⟨x, p, slot, -, hx, hlook, hslot, -⟩ | ⟨-, hloop⟩
  · rw [hraw] at hlook
    rw [hfull x p (by omega) hlook] at hslot
    cases hslot
  · rw [Prog.bind_ok hloop]

/-- SOURCE: ext4.rs:1324-1370 -/
theorem createFile_ok (hne : name ≠ []) (hname : name.length ≤ 255)
    (hfresh : binding name (dirListing v L s dir) = none)
    (hflags : (inodeOf v L s dir).flags &&& 0x1000 = 0) {g j : ℕ} (hg : g < v.numGroups)
    (hj : j < v.ipg / 8 * 8) (hfree : freeBit v L s true g j = true)
    (hfull : Crowded v L s dir name) (hp : Takes v L s 0 p)
    (hflat : rootDepth (slot v L s dir) = 0) {e : Extent}
    (hmerge : mergeRecs (leafRecs (slot v L s dir) iblock)
      (dirCount v (inodeOf v L s dir).size) p = .ok (some e)) :
    ∃ ino s', create v dir name false s = (.ok ino, s') := by
  have hvol : Vol v L False O s := ⟨hgood, False.elim⟩
  have hlook : lookup v dir name s = (.ok none, s) := by
    rw [lookup_linear hv hL hgood hd, hfresh]
  obtain ⟨i, s₁, halloc, htaken⟩ := allocInode_ok hv hL hgood.placed hsmall false hg hj hfree
  have hwrite : writeInode v (newInode i false) s₁ =
      (.ok (), putSlot v L s₁ i (v.encodeInode (newInode i false))) :=
    writeInode_ok hv hL htaken.placed htaken.isInode
  have hcreate : createInode v dir name false s =
      (.ok i, putSlot v L s₁ i (v.encodeInode (newInode i false))) := by
    unfold createInode
    rw [Prog.bind_ok hlook]
    dsimp only
    rw [Prog.bind_ok halloc, if_neg (by simp), Prog.bind_ok (Prog.pure_apply _ _)]
    show (writeInode v (newInode i false) >>= fun _ => pure i) s₁ = _
    rw [Prog.bind_ok hwrite]
    rfl
  obtain ⟨-, O₁, hmade⟩ := (createInode_made hv hL False.elim hvol dir name false).ok hcreate
  have hsmall₁ : SmallCounts (putSlot v L s₁ i (v.encodeInode (newInode i false))) :=
    hsmall.mono htaken.counts
  generalize putSlot v L s₁ i (v.encodeInode (newInode i false)) = s₂ at hcreate hmade hsmall₁
  -- the directory is as it was
  have hslot := hmade.slots dir hd.inUse
  have hinode := inodeOf_congr hslot
  have hd₂ := (hmade.same hd.inUse).linear (hgood.slots dir hd.inUse) hd
  have hgrow : ∃ s', growDir v (inodeOf v L s₂ dir) (dirCount v (inodeOf v L s₂ dir).size) i 1 name
      s₂ = (.ok (), s') :=
    growDir_ok hv hL hmade.sound.toGood hd₂ hsmall₁ 1 hname ((hmade.takes 0 p).mpr hp)
      (by rw [hslot]; exact hflat) (by rw [hslot, hinode]; exact hmerge)
  obtain ⟨s', hadd⟩ := hgrow
  rw [← addDirent_full hv hL hmade.sound.toGood hd₂ 1 hne hname (by rw [hinode]; exact hflags)
    ((hmade.crowded_iff hgood hd).mpr hfull)] at hadd
  refine ⟨i, s', ?_⟩
  unfold create
  rw [Prog.bind_ok hcreate, if_neg (by simp), Prog.bind_ok hadd, if_neg (by simp)]
  rfl

end Returns

/-! ## A volume with one directory

Five groups of 8192 blocks, with the superblock, the descriptors, the bitmaps and the inode
tables in blocks 1 to 17.  The directory, inode 2, has the `n` blocks from 18 on, in one
extent.  All its files are deleted, and the unused entries have at most 260 bytes each.  The
block behind the last one is the only free block of the volume.
-/

def crowdVolume : Ext4 := { sampleVolume 5 8192 40960 with csumSeed := 0xBD8F6515 }

def crowdLayout : Layout where
  blockBitmap g := 3 + g
  inodeBitmap g := 8 + g
  inodeTable g := 13 + g
  role b :=
    if b = 1 then .super
    else if b = 2 then .groupTable
    else if 3 ≤ b ∧ b < 8 then .blockBitmap (b - 3)
    else if 8 ≤ b ∧ b < 13 then .inodeBitmap (b - 8)
    else if 13 ≤ b ∧ b < 18 then .inodeTable (b - 13)
    else .data

def crowdSuper : Bytes :=
  ((sampleSuper 40 40960 8192 0x42).putLE 0x0C 4 1).putLE 0x10 4 38

/-- The superblock is the one `mount` takes for this volume. -/
theorem readSuper_crowd : readSuper 81920 1024 (Bytes.clip 1024 crowdSuper) = .ok (crowdVolume, 1, 38) := by
  decide +kernel

/-- The descriptors: three block numbers each. -/
def crowdDescriptors : Bytes := fun k =>
  if k % 32 = 0 then UInt8.ofNat (3 + k / 32)
  else if k % 32 = 4 then UInt8.ofNat (8 + k / 32)
  else if k % 32 = 8 then UInt8.ofNat (13 + k / 32)
  else 0

/-- The block bitmap of a group when block `18 + n` is free. -/
def crowdBits (n g : ℕ) : Bytes :=
  if (17 + n) / 8192 = g then allBut ((17 + n) % 8192) else fun _ => 255

/-- A block of unused entries, and the first block of the directory. -/
def unusedBlock : Bytes :=
  (((Bytes.putLE (fun _ => 0) 4 2 260).putLE 264 2 260).putLE 524 2 260).putLE 784 2 244
def firstBlock : Bytes :=
  let b := (((Bytes.putLE (fun _ => 0) 28 2 260).putLE 288 2 260).putLE 548 2 260).putLE 808 2 220
  putEntry (putEntry b 0 12 2 2 [0x2E]) 12 12 2 2 [0x2E, 0x2E]

/-- The volume without its directory. -/
def crowdBase (n : ℕ) : FsState where
  disk b :=
    if b = 1 then crowdSuper
    else if b = 2 then crowdDescriptors
    else if 3 ≤ b ∧ b < 8 then crowdBits n (b - 3)
    else if b = 8 then fun k => if k = 0 then 0x03 else 0
    else if b = 18 then firstBlock
    else if 18 < b then unusedBlock
    else fun _ => 0
  freeBlocks := 1
  freeInodes := 38

/-- The inode of the directory. -/
def crowdInode (n : ℕ) : Inode where
  ino := 2
  mode := 0x4000 ||| 0o755
  size := n * 1024
  blocks := n * 2
  flags := 0x80000
  raw := wrExtent (wrHdr (Bytes.putLE (fun _ => 0) 0x1A 2 2) iblock 1 4 0) iblock 0 ⟨0, n, 18⟩

def crowdState (n : ℕ) : FsState :=
  putSlot crowdVolume crowdLayout (crowdBase n) 2 (crowdVolume.encodeInode (crowdInode n))

theorem geometryOk_crowd : GeometryOk crowdVolume := by
  simp [geometryOk_iff, crowdVolume, sampleVolume]

theorem role_crowd {b : ℕ} (h : 18 ≤ b) : crowdLayout.role b = .data := by
  unfold crowdLayout
  dsimp only
  repeat rw [if_neg (by omega)]

theorem role_crowd_zero : crowdLayout.role 0 = .data := rfl

theorem layoutOk_crowd : LayoutOk crowdVolume crowdLayout where
  super := rfl
  groupTable := by decide
  blockBitmap := by decide
  inodeBitmap := by decide
  inodeTable := by decide
  range b hb := by
    have hlow : b < 18 := by
      by_contra h
      exact hb (role_crowd (not_lt.mp h))
    have hpos : b ≠ 0 := by
      rintro rfl
      exact hb role_crowd_zero
    show 1 ≤ b ∧ b < 40960
    omega

section Crowd

variable {n : ℕ}

theorem isInode_crowd : IsInode crowdVolume 2 := ⟨by omega, by decide⟩

/-- The directory's inode is the only thing in the inode tables. -/
theorem block_crowd {b : ℕ} (hb : b ≠ 13) :
    block crowdVolume (crowdState n) b = Bytes.clip 1024 ((crowdBase n).disk b) :=
  block_setBlock_ne hb

theorem descriptors_crowd : ∀ g < 5,
    crowdVolume.gdBlockBitmap (fun k => Bytes.clip 1024 crowdDescriptors (32 * g + k)) = 3 + g ∧
      crowdVolume.gdInodeBitmap (fun k => Bytes.clip 1024 crowdDescriptors (32 * g + k)) = 8 + g ∧
      crowdVolume.gdInodeTable (fun k => Bytes.clip 1024 crowdDescriptors (32 * g + k)) = 13 + g := by
  decide

theorem placedAt_crowd : PlacedAt crowdVolume crowdLayout (crowdState n) := by
  intro g hg
  replace hg : g < 5 := hg
  have hdesc : descriptor crowdVolume (crowdState n) g =
      fun k => Bytes.clip 1024 crowdDescriptors (32 * g + k) := by
    have hblock : crowdVolume.gdBlock g = 2 := by
      interval_cases g <;> rfl
    have hoffset : crowdVolume.gdOffset g = 32 * g := by
      interval_cases g <;> rfl
    unfold descriptor
    rw [hblock, hoffset, block_crowd (by omega)]
    rfl
  rw [hdesc]
  exact descriptors_crowd g hg

/-- One block is free. -/
theorem marked_crowd {p : ℕ} (hp : IsBlock crowdVolume p) :
    marked crowdVolume crowdLayout (crowdState n) p = decide (p ≠ 18 + n) := by
  obtain ⟨hlo, hhi⟩ := hp
  replace hlo : 1 ≤ p := hlo
  replace hhi : p < 40960 := hhi
  have hblock : block crowdVolume (crowdState n) (3 + (p - 1) / 8192) =
      Bytes.clip 1024 (crowdBits n ((p - 1) / 8192)) := by
    rw [block_crowd (by omega)]
    unfold crowdBase
    dsimp only
    rw [if_neg (by omega), if_neg (by omega), if_pos (by omega), Nat.add_sub_cancel_left]
  show (block crowdVolume (crowdState n) (3 + (p - 1) / 8192)).testBit ((p - 1) % 8192) = _
  rw [hblock, Bytes.testBit_clip (by omega)]
  unfold crowdBits
  by_cases hg : (17 + n) / 8192 = (p - 1) / 8192
  · rw [if_pos hg, testBit_allBut, decide_eq_decide]
    omega
  · rw [if_neg hg, testBit_full, eq_comm, decide_eq_true_eq]
    rintro rfl
    exact hg (by omega)

theorem placed_crowd : Placed crowdVolume crowdLayout (crowdState n) where
  placed := placedAt_crowd
  metadata b hb := by
    have hlow : b < 18 := by
      by_contra h
      exact hb (role_crowd (not_lt.mp h))
    rw [marked_crowd (layoutOk_crowd.range b hb), decide_eq_true_eq]
    omega

/-! The directory -/

theorem inode_crowd (hn : n ≤ 0x7FFF) :
    (inodeOf crowdVolume crowdLayout (crowdState n) 2).mode = 0x4000 ||| 0o755 ∧
      (inodeOf crowdVolume crowdLayout (crowdState n) 2).flags = 0x80000 ∧
      (inodeOf crowdVolume crowdLayout (crowdState n) 2).size = n * 1024 := by
  obtain ⟨-, hinode⟩ := slot_written (s := crowdBase n) geometryOk_crowd layoutOk_crowd
    isInode_crowd (crowdInode n)
  obtain ⟨hmode, hflags, hsize⟩ := parseInode_encode (v := crowdVolume) (crowdInode n) 2
  unfold crowdState
  rw [hinode, hmode, hflags, hsize]
  refine ⟨show (0x4000 ||| 0o755) % 2 ^ 16 = 0x4000 ||| 0o755 by simp,
    show 0x80000 % 2 ^ 32 = 0x80000 by omega, ?_⟩
  rw [if_neg (by decide)]
  exact Nat.mod_eq_of_lt (show n * 1024 < 2 ^ 32 by omega)

theorem root_crowd (hn : n ≤ 0x7FFF) :
    HeadOk (slot crowdVolume crowdLayout (crowdState n) 2) iblock 4 0 ∧
      leafRecs (slot crowdVolume crowdLayout (crowdState n) 2) iblock = [⟨0, n, 18⟩] := by
  obtain ⟨hagree, -⟩ := slot_written (s := crowdBase n) geometryOk_crowd layoutOk_crowd
    isInode_crowd (crowdInode n)
  obtain ⟨hhead, hrecs, -⟩ := oneRecord_head (Bytes.putLE (fun _ => 0) 0x1A 2 2)
    (show Fits ⟨0, n, 18⟩ from ⟨show 0 < 2 ^ 32 by omega, show n < 2 ^ 16 by omega,
      show 18 < 2 ^ 48 by omega⟩)
  exact ⟨hagree.headOk hhead, (node_agree hagree hhead).1.trans hrecs⟩

theorem inUse_crowd : InUse crowdVolume crowdLayout (crowdState n) 2 := by
  refine ⟨isInode_crowd, ?_⟩
  have hlinks : linksOf (crowdInode n).raw = 2 := by
    refine (Bytes.getLE_congr fun k hk => ?_).trans (Bytes.getLE_putLE (fun _ => 0) 0x1A 2 2)
    unfold crowdInode iblock
    dsimp only
    rw [wrExtent_outside (by omega), wrHdr_outside (by omega)]
  unfold crowdState linksOf
  rw [slot_putSlot geometryOk_crowd layoutOk_crowd isInode_crowd isInode_crowd, if_pos rfl,
    clip_fields crowdVolume geometryOk_crowd _ (by omega)]
  refine ((linksOf_encode (crowdInode n)).trans hlinks).trans_ne (by omega)

theorem eq_two_of_inUse {i : ℕ} (hi : InUse crowdVolume crowdLayout (crowdState n) i) : i = 2 := by
  by_contra hne
  obtain ⟨⟨hpos, hle⟩, hlinks⟩ := hi
  replace hle : i ≤ 40 := hle
  apply hlinks
  unfold crowdState linksOf
  rw [slot_putSlot geometryOk_crowd layoutOk_crowd isInode_crowd ⟨hpos, hle⟩, if_neg hne]
  refine Bytes.getLE_eq_zero fun k hk => ?_
  have hblock : slotBlock crowdVolume crowdLayout i = 13 + (i - 1) / 8 := by
    show 13 + (i - 1) / 8 + (i - 1) % 8 * 128 / 1024 = _
    omega
  unfold slot block
  rw [hblock]
  show Bytes.clip 128 (fun k => Bytes.clip 1024 ((crowdBase n).disk (13 + (i - 1) / 8)) _) _ = 0
  have hblank : (crowdBase n).disk (13 + (i - 1) / 8) = fun _ => 0 := by
    unfold crowdBase
    dsimp only
    repeat rw [if_neg (by omega)]
  rw [hblank]
  simp only [Bytes.clip, ite_self]

/-- The owners of the directory's blocks. -/
def crowdOwner (n p : ℕ) : Option Use :=
  if 18 ≤ p ∧ p < 18 + n then some (.data 2 (p - 18)) else none

theorem covers_crowd (hn : n ≤ 0x7FFF) : Covers crowdVolume (crowdState n) (crowdOwner n) 2
    (slot crowdVolume crowdLayout (crowdState n) 2) := by
  obtain ⟨hhead, hrecs⟩ := root_crowd hn
  refine covers_flat hhead fun x hx => ?_
  rw [hrecs, List.flatMap_singleton, extentMaps, if_pos (show n ≤ 0x8000 by omega),
    List.mem_map] at hx
  obtain ⟨k, hk, rfl⟩ := hx
  replace hk : k < n := List.mem_range.mp hk
  show crowdOwner n (18 + k) = some (.data 2 (0 + k))
  rw [crowdOwner, if_pos (by omega), Nat.add_sub_cancel_left, Nat.zero_add]

theorem good_crowd (hn : n ≤ 0x7FFF) :
    Good crowdVolume crowdLayout (crowdOwner n) (crowdState n) where
  toPlaced := placed_crowd
  used p u hp := by
    unfold crowdOwner at hp
    split at hp
    · rename_i hrange
      cases hp
      have hisBlock : IsBlock crowdVolume p := by
        refine ⟨?_, ?_⟩
        · show 1 ≤ p
          omega
        · show p < 40960
          omega
      refine ⟨inUse_crowd, hisBlock, role_crowd hrange.1, ?_⟩
      rw [marked_crowd hisBlock, decide_eq_true_eq]
      omega
    · cases hp
  slots i hi := by
    cases eq_two_of_inUse hi
    exact covers_crowd hn
  inodes i hi := by
    cases eq_two_of_inUse hi
    show (block crowdVolume (crowdState n) 8).testBit 1 = true
    rw [block_crowd (by omega), Bytes.testBit_clip (by omega)]
    exact show Bytes.testBit (fun k => if k = 0 then 0x03 else 0) 1 = true by decide

theorem look_crowd (hpos : 0 < n) (hn : n ≤ 0x7FFF) {x : ℕ} (hx : x < n) :
    treeLook crowdVolume (crowdState n) (slot crowdVolume crowdLayout (crowdState n) 2) x =
      .ok (some (18 + x)) := by
  obtain ⟨hhead, hrecs⟩ := root_crowd hn
  unfold treeLook
  rw [if_pos hhead.magic, show rootDepth (slot crowdVolume crowdLayout (crowdState n) 2) = 0 from
    hhead.depth, look, hrecs, scanRecs, if_pos ⟨⟨hpos, show n < 0x8000 by omega⟩,
    Nat.zero_le x⟩, if_neg (show ¬2 ^ 32 ≤ 0 + n by omega), if_pos (show x < 0 + n by omega)]
  rfl

/-- Neither block has room for a name of 255 bytes. -/
theorem blocks_crowd :
    (BlockOk crowdVolume (Bytes.clip 1024 unusedBlock) ∧
      listed crowdVolume (Bytes.clip 1024 unusedBlock) = [] ∧
      findSlot crowdVolume (Bytes.clip 1024 unusedBlock) 264 (maxBlockSize + 1) 0 0 0 0 = none) ∧
    BlockOk crowdVolume (Bytes.clip 1024 firstBlock) ∧
      listed crowdVolume (Bytes.clip 1024 firstBlock) = dots 2 2 ∧
      findSlot crowdVolume (Bytes.clip 1024 firstBlock) 264 (maxBlockSize + 1) 0 0 0 0 = none := by
  decide +kernel

theorem block_directory (n x : ℕ) :
    block crowdVolume (crowdState n) (18 + x) =
      Bytes.clip 1024 (if x = 0 then firstBlock else unusedBlock) := by
  rw [block_crowd (by omega)]
  unfold crowdBase
  dsimp only
  rw [if_neg (by omega), if_neg (by omega), if_neg (by omega), if_neg (by omega)]
  by_cases hzero : x = 0
  · rw [if_pos (by omega), if_pos hzero]
  · rw [if_neg (by omega), if_pos (by omega), if_neg hzero]

theorem count_crowd (hn : n ≤ 0x7FFF) :
    dirCount crowdVolume (inodeOf crowdVolume crowdLayout (crowdState n) 2).size = n := by
  rw [(inode_crowd hn).2.2]
  show (n * 1024 + 1024 - 1) / 1024 = n
  omega

theorem listing_crowd (hpos : 0 < n) (hn : n ≤ 0x7FFF) :
    dirListing crowdVolume crowdLayout (crowdState n) 2 = dots 2 2 := by
  obtain ⟨⟨-, hunused, -⟩, -, hfirst, -⟩ := blocks_crowd
  have hlisted : ∀ x < n, listedAt crowdVolume (crowdState n)
      (slot crowdVolume crowdLayout (crowdState n) 2) x = if x = 0 then dots 2 2 else [] := by
    intro x hx
    unfold listedAt
    rw [look_crowd hpos hn hx]
    dsimp only
    rw [block_directory n x]
    split
    · exact hfirst
    · exact hunused
  obtain ⟨m, rfl⟩ : ∃ m, n = m + 1 := ⟨n - 1, by omega⟩
  unfold dirListing
  rw [count_crowd hn, List.range_succ_eq_map, List.flatMap_cons, hlisted 0 (by omega), if_pos rfl,
    List.flatMap_map]
  have hrest : (List.range m).flatMap (fun x => listedAt crowdVolume (crowdState (m + 1))
      (slot crowdVolume crowdLayout (crowdState (m + 1)) 2) (x + 1)) = [] := by
    rw [List.flatMap_eq_nil_iff]
    intro x hx
    rw [List.mem_range] at hx
    rw [hlisted (x + 1) (by omega), if_neg (Nat.succ_ne_zero x)]
  exact (congrArg (dots 2 2 ++ ·) hrest).trans (List.append_nil _)

theorem linearDir_crowd (hpos : 0 < n) (hn : n ≤ 0x7FFF) :
    LinearDir crowdVolume crowdLayout (crowdState n) 2 := by
  obtain ⟨hhead, -⟩ := root_crowd hn
  obtain ⟨-, hleaves⟩ := leafTable_flat (v := crowdVolume) (s := crowdState n) hhead
  have hcount := count_crowd hn
  refine ⟨inUse_crowd, ?_, hhead.magic, ?_, ?_, ?_, ?_, ?_, ?_⟩
  · unfold Inode.isDir
    rw [(inode_crowd hn).1]
    decide
  · exact hhead.depth.trans_le (Nat.zero_le 1)
  · rw [hcount]
    omega
  · rw [hleaves]
    exact List.nodup_nil
  · rw [hcount]
    exact fun x hx => ⟨_, look_crowd hpos hn hx⟩
  · rw [hcount]
    intro x hx p hp
    rw [look_crowd hpos hn hx] at hp
    cases hp
    rw [block_directory n x]
    split
    · exact blocks_crowd.2.1
    · exact blocks_crowd.1.1
  · rw [listing_crowd hpos hn]
    decide

/-- A name of 255 bytes. -/
def longName : List UInt8 := List.replicate 255 0x61

theorem crowded_crowd (hpos : 0 < n) (hn : n ≤ 0x7FFF) :
    Crowded crowdVolume crowdLayout (crowdState n) 2 longName := by
  intro x p hx hlook
  rw [count_crowd hn] at hx
  rw [look_crowd hpos hn hx] at hlook
  cases hlook
  rw [block_directory n x, longName, List.length_replicate, show roundDirSize 255 = 264 by decide]
  split
  · exact blocks_crowd.2.2.2
  · exact blocks_crowd.1.2.2

/-- The block behind the directory is the one that is handed out. -/
theorem takes_crowd (hn : n ≤ 0x7FFF) : Takes crowdVolume crowdLayout (crowdState n) 0 (18 + n) := by
  have hisBlock : IsBlock crowdVolume (18 + n) := by
    refine ⟨?_, ?_⟩
    · show 1 ≤ 18 + n
      omega
    · show 18 + n < 40960
      omega
  refine ⟨(freeBlock_iff geometryOk_crowd).mpr ⟨hisBlock, ?_, ?_, ?_⟩, ?_⟩
  · exact Nat.mod_lt _ (by decide)
  · rw [marked_crowd hisBlock, decide_eq_false_iff_not]
    exact not_not_intro rfl
  · -- the block is behind all metadata
    have hg : (18 + n - 1) / 8192 < 5 := by omega
    obtain ⟨hbb, hib, hit⟩ := placedAt_crowd (n := n) _ hg
    show reserved crowdVolume (crowdState n) ((18 + n - 1) / 8192) (18 + n) = false
    have hend : crowdVolume.reservedEnd = 3 := by decide
    have htable : crowdVolume.itBlocks = 1 := by decide
    unfold reserved Ext4.reservedBy
    rw [hbb, hib, hit, hend, htable]
    simp only [crowdLayout, Bool.or_eq_false_iff, Bool.and_eq_false_iff,
      decide_eq_false_iff_not, beq_eq_false_iff_ne]
    exact ⟨by omega, by omega, Or.inr (decide_eq_false (by omega))⟩
  · rw [Nat.count_eq_card_filter_range, Finset.card_eq_zero, Finset.filter_eq_empty_iff]
    intro q hq hfree
    obtain ⟨hblock, -, hmark, -⟩ := (freeBlock_iff geometryOk_crowd).mp hfree
    rw [marked_crowd hblock, decide_eq_false_iff_not, not_not] at hmark
    rw [Finset.mem_range] at hq
    omega

/-- The block is shown as long as the extent is not too long. -/
theorem shown_crowd (hpos : 0 < n) (hn : n < 0x7FFF) (new : DirEnt) :
    Shown crowdVolume crowdLayout (crowdState n) 2 (18 + n) new := by
  obtain ⟨hhead, hrecs⟩ := root_crowd hn.le
  have hcount := count_crowd hn.le
  have htable := (leafTable_flat (v := crowdVolume) (s := crowdState n) hhead).1
  have hshort := root_short (s := crowdState n) geometryOk_crowd hhead
  rw [hrecs] at htable hshort
  refine shown_of_order geometryOk_crowd (good_crowd hn.le) (linearDir_crowd hpos hn.le)
    (takes_crowd hn.le) htable ?_ (Or.inr hshort) ?_ (fun _ => ?_) ?_ new
  · rw [hcount]
    refine ⟨⟨⟨hpos, show n < 0x8000 by omega⟩, le_refl 0, ?_⟩, trivial⟩
    exact (Nat.zero_add n).le
  · omega
  · rw [(inode_crowd hn.le).2.2]
    show n * 1024 + 1024 < 2 ^ 32
    omega
  · rintro ⟨e, he, hlen, -⟩
    cases he
    exact absurd hlen hn.ne

/-- With one block more the extent counts as unwritten, and nothing is found. -/
theorem grownLook_crowd (x : ℕ) :
    grownLook crowdVolume crowdLayout (crowdState 0x7FFF) 2 (18 + 0x7FFF) x = .ok none := by
  obtain ⟨hhead, hrecs⟩ := root_crowd (le_refl 0x7FFF)
  have htable := (leafTable_flat (v := crowdVolume) (s := crowdState 0x7FFF) hhead).1
  have hput : putRecs [⟨0, 0x7FFF, 18⟩] 0x7FFF (18 + 0x7FFF) = [⟨0, 0x8000, 18⟩] := by decide
  rw [grownLook, count_crowd (le_refl _), htable, hrecs, growTable_put fun h => ?_, hput]
  · unfold lookTable
    rw [route_concat]
    cases hroute : route 0 x ([] : List (ℕ × List Extent)) with
    | some recs => cases hroute
    | none =>
      rw [Option.none_or]
      split
      · rfl
      · rename_i hin
        split at hin
        · cases hin
          exact if_neg fun h => absurd h.1 (by decide)
        · cases hin
  · exact absurd h (by decide)

/-- The one directory names itself and its parent, which is itself. -/
theorem entriesMarked_crowd (hpos : 0 < n) (hn : n ≤ 0x7FFF) :
    EntriesMarked crowdVolume crowdLayout (crowdState n) := by
  intro d m i hd hlook _
  cases eq_two_of_inUse hd
  rw [lookup_linear geometryOk_crowd layoutOk_crowd (good_crowd hn) (linearDir_crowd hpos hn),
    listing_crowd hpos hn] at hlook
  have htwo : i = 2 := by
    unfold binding at hlook
    obtain ⟨e, hfind, rfl⟩ := Option.map_eq_some_iff.mp (Except.ok.inj hlook)
    have hmem := List.mem_of_find?_eq_some hfind
    unfold dots at hmem
    simp only [List.mem_cons, List.not_mem_nil, or_false] at hmem
    rcases hmem with rfl | rfl <;> rfl
  cases htwo
  exact (good_crowd hn).inodes 2 inUse_crowd

/-- The new file gets inode 3 and block `18 + n`. -/
theorem created_crowd (hpos : 0 < n) (hn : n ≤ 0x7FFF) :
    ∃ ino s', create crowdVolume 2 longName false (crowdState n) = (.ok ino, s') := by
  obtain ⟨hhead, hrecs⟩ := root_crowd hn
  have hfree : freeBit crowdVolume crowdLayout (crowdState n) true 0 2 = true := by
    unfold freeBit
    rw [show bitmapAt crowdLayout true 0 = 8 from rfl, block_crowd (by omega),
      Bytes.testBit_clip (by omega), Bool.true_or, Bool.and_true]
    exact show (!Bytes.testBit (fun k => if k = 0 then 0x03 else 0) 2) = true by decide
  have hfresh : binding longName (dirListing crowdVolume crowdLayout (crowdState n) 2) = none := by
    rw [listing_crowd hpos hn]
    rfl
  have hmerge : mergeRecs (leafRecs (slot crowdVolume crowdLayout (crowdState n) 2) iblock)
      (dirCount crowdVolume (inodeOf crowdVolume crowdLayout (crowdState n) 2).size) (18 + n) =
      .ok (some ⟨0, n + 1, 18⟩) := by
    rw [hrecs, count_crowd hn]
    unfold mergeRecs
    dsimp only [List.getLast?_singleton]
    rw [if_pos (show Written ⟨0, n, 18⟩ from ⟨hpos, show n < 0x8000 by omega⟩), if_neg (show ¬2 ^ 32 ≤ 0 + n by omega),
      if_pos ⟨Nat.zero_add n, rfl⟩]
  exact createFile_ok geometryOk_crowd layoutOk_crowd (good_crowd hn) (linearDir_crowd hpos hn)
    ⟨show 1 < 2 ^ 63 by omega, show 38 < 2 ^ 63 by omega⟩ (List.cons_ne_nil _ _)
    (List.length_replicate ..).le hfresh
    (by rw [(inode_crowd hn).2.1]; decide) (show 0 < 5 by omega) (show 2 < 8 / 8 * 8 by omega)
    hfree (crowded_crowd hpos hn) (takes_crowd hn) hhead.depth hmerge

end Crowd

/-! ## Creating a file or a directory -/

end Pinx.Analysis
