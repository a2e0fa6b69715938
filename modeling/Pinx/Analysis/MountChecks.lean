import Pinx.Model.Mount
import Pinx.Analysis.BlockAddressing
import Pinx.Analysis.BitmapSearch

/-!
# What a mount has checked

`mount` bounds some fields of the superblock and takes others as they are.  Whether descriptors
and inodes stay inside the block that was read, whether a bitmap fits in its block and whether
the number of groups fits in 32 bits is left to the superblock, and the places of the bitmaps and
inode tables are left to the descriptors.  Here it is said exactly which volumes no routine
panics on.
-/

namespace Pinx.Analysis

open Pinx.Foundation Pinx.Model

/-! ## The fields of a mounted volume -/

/-- What holds of the fields of every mounted volume. -/
structure MountFields (v : Ext4) : Prop where
  bs : v.bs = 1024 ∨ v.bs = 2048 ∨ v.bs = 4096
  bpg : 0 < v.bpg ∧ v.bpg < 2 ^ 32
  ipg : 0 < v.ipg ∧ v.ipg < 2 ^ 32
  inodeSize : 128 ≤ v.inodeSize ∧ v.inodeSize ≤ 256
  descSize : 32 ≤ v.descSize ∧ v.descSize < 2 ^ 16
  numGroups : v.numGroups = (v.blocksTotal + v.bpg - 1) / v.bpg % 2 ^ 32
  firstDataBlock : v.firstDataBlock < 2 ^ 32
  gdtFsb : v.gdtFsb = v.firstDataBlock + 1
  inodesTotal : v.inodesTotal < 2 ^ 32

variable {dev : Device} {v : Ext4} {s s₀ : FsState}

theorem sbDescSize_lt (sb : Bytes) : sbDescSize sb < 2 ^ 16 := by
  have hlt := Bytes.getLE_lt sb 0xFE 2
  unfold sbDescSize
  split <;> omega

/-- A superblock the driver takes, and what it takes from it. -/
structure SuperTaken (sectors bs : ℕ) (sb : Bytes) (v : Ext4) (fb fi : ℕ) : Prop where
  volume : v = volumeOf sectors bs sb
  counts : ¬(v.inodesTotal = 0 ∨ v.bpg = 0 ∨ v.ipg = 0)
  inodeSize : v.inodeSize ≤ 256
  descSize : 32 ≤ v.descSize
  sum : v.metaCsum = true → sb.getLE 0x3FC 4 = crc32c 0xFFFFFFFF (sb.slice 0 0x3FC)
  freeBlocks : fb = sbCount v.has64bit sb 0x0C 0x158
  freeInodes : fi = sb.getLE 0x10 4

variable {sectors bs fb fi : ℕ} {sb : Bytes}

theorem readSuper_taken (h : readSuper sectors bs sb = .ok (v, fb, fi)) :
    SuperTaken sectors bs sb v fb fi := by
  unfold readSuper at h
  dsimp only at h
  simp only [check_eq_ok] at h
  obtain ⟨hcounts, -, hinode, -, -, -, hdesc, -, hsum, htaken⟩ := h
  cases htaken
  exact ⟨rfl, hcounts, not_lt.mp hinode, not_lt.mp (not_or.mp hdesc).1,
    fun hmeta => of_not_not fun hne => hsum ⟨hmeta, hne⟩, rfl, rfl⟩

/-- The checks of the fields, and the widths of those that are not checked. -/
theorem readSuper_fields (hbs : bs = 1024 ∨ bs = 2048 ∨ bs = 4096)
    (h : readSuper sectors bs sb = .ok (v, fb, fi)) : MountFields v := by
  have htaken := readSuper_taken h
  obtain ⟨-, hbpg, hipg⟩ := not_or.mp htaken.counts |>.imp_right not_or.mp
  obtain rfl := htaken.volume
  exact {
    bs := hbs
    bpg := ⟨Nat.pos_of_ne_zero hbpg, Bytes.getLE_lt sb 0x20 4⟩
    ipg := ⟨Nat.pos_of_ne_zero hipg, Bytes.getLE_lt sb 0x28 4⟩
    inodeSize := ⟨Nat.le_max_right _ _, htaken.inodeSize⟩
    descSize := ⟨htaken.descSize, sbDescSize_lt sb⟩
    numGroups := rfl
    firstDataBlock := Bytes.getLE_lt sb 0x14 4
    gdtFsb := rfl
    inodesTotal := Bytes.getLE_lt sb 0x00 4 }

/-- The fields that say where the superblock was, and the two counts. -/
theorem readSuper_volume (h : readSuper sectors bs sb = .ok (v, fb, fi)) :
    v.bs = bs ∧ v.sectors = sectors ∧ fb < 2 ^ 64 ∧ fi = sb.getLE 0x10 4 := by
  have htaken := readSuper_taken h
  obtain rfl := htaken.volume
  refine ⟨rfl, rfl, ?_, htaken.freeInodes⟩
  have hlo := Bytes.getLE_lt sb 0x0C 4
  have hhi := Bytes.getLE_lt sb 0x158 4
  rw [htaken.freeBlocks]
  unfold sbCount
  split <;> omega

theorem readBlockSize_cases (h : readBlockSize sb = .ok bs) :
    bs = 1024 ∨ bs = 2048 ∨ bs = 4096 := by
  unfold readBlockSize at h
  split at h
  · cases h
  split at h
  · cases h
  rename_i hlog
  split at h
  · cases h
  cases h
  have hcases : sb.getLE 0x18 4 = 0 ∨ sb.getLE 0x18 4 = 1 ∨ sb.getLE 0x18 4 = 2 := by omega
  rcases hcases with h | h | h <;> rw [h] <;> omega

/-- The four steps of a mount. -/
theorem mount_ok (h : mount dev = .ok (v, s)) : ∃ sb bs sb' fb fi,
    dev.readBlocks 2 1024 = .ok sb ∧ readBlockSize sb = .ok bs ∧ readSuperBlock dev bs sb = .ok sb' ∧
      readSuper dev.sectors bs sb' = .ok (v, fb, fi) ∧ s = dev.state bs fb fi := by
  obtain ⟨-, h⟩ := check_eq_ok.mp h
  obtain ⟨sb, hread, h⟩ := except_bind_eq_ok.mp h
  obtain ⟨bs, hbs, h⟩ := except_bind_eq_ok.mp h
  obtain ⟨sb', hblock, h⟩ := except_bind_eq_ok.mp h
  obtain ⟨⟨v', fb, fi⟩, hsuper, h⟩ := except_bind_eq_ok.mp h
  cases h
  exact ⟨sb, bs, sb', fb, fi, hread, hbs, hblock, hsuper, rfl⟩

/-- A mount checks the fields.
SOURCE: ext4.rs:290-413 -/
theorem mount_fields (h : mount dev = .ok (v, s)) : MountFields v := by
  obtain ⟨sb, bs, sb', fb, fi, -, hbs, -, hsuper, rfl⟩ := mount_ok h
  exact readSuper_fields (readBlockSize_cases hbs) hsuper

/-- The state after a mount is the device in blocks. -/
theorem mount_state (h : mount dev = .ok (v, s)) :
    v.sectors = dev.sectors ∧ ∀ b k, s.disk b k = dev.bytes (b * v.bs + k) := by
  obtain ⟨sb, bs, sb', fb, fi, -, -, -, hsuper, rfl⟩ := mount_ok h
  obtain ⟨rfl, hsectors, -⟩ := readSuper_volume hsuper
  exact ⟨hsectors, fun _ _ => rfl⟩

/-! ## Mounting a partition -/

/-- The device a partition is. -/
def deviceOf (part : GptPartition) (bus : Bus) : Device where
  blockSize := 512
  sectors := partSectors part
  bytes k := bus.content part.disk (part.startLba * 512 + k)

/-- A mounted partition is one whose sectors are the blocks of the volume. -/
theorem mount_onPartition {part : GptPartition} {bus : Bus} (h : Serves part bus)
    (hmount : mount (deviceOf part bus) = .ok (v, s)) : OnPartition v part bus s := by
  obtain ⟨hsectors, hblocks⟩ := mount_state hmount
  refine ⟨h, (mount_fields hmount).bs, hsectors, fun b k _ _ => (hblocks b k).trans ?_⟩
  show bus.content part.disk (part.startLba * 512 + (b * v.bs + k)) = _
  rw [Nat.add_assoc]

/-! ## What is asked of a volume -/

/-- A routine ends with a result or an error value. -/
def Calm {α : Type} (r : Except FsFail α × FsState) : Prop :=
  Prog.Ends (fun _ _ => True) (fun e _ => ∀ f, e ≠ .fault f) r

/-- Descriptors and inodes are inside the block that was read, bitmaps are inside their blocks, and
no routine that looks for them panics.  A search for a free bit may start at any group. -/
structure Contained (v : Ext4) (s : FsState) : Prop where
  groups : v.numGroups = (v.blocksTotal + v.bpg - 1) / v.bpg
  bitmaps : v.bpg / 8 ≤ v.bs ∧ v.ipg / 8 ≤ v.bs
  descriptors : ∀ g < v.numGroups, v.gdOffset g + v.descSize ≤ v.bs
  inodes : ∀ ino b off s', ino < 2 ^ 32 → inodeLocation v ino s = (.ok (b, off), s') →
    off + v.inodeSize ≤ v.bs
  groupCalls : ∀ g < v.numGroups, Calm (groupDescriptor v g s) ∧ ∀ f, Calm (withGroup v g f s)
  inodeCalls : ∀ ino, 0 < ino → ino < 2 ^ 32 →
    Calm (readInode v ino s) ∧ ∀ inode : Inode, inode.ino = ino → Calm (writeInode v inode s)
  scans : ∀ w, ∀ g ≤ v.numGroups, Calm (allocGroups v w (v.numGroups - g) g s)

/-- The device has the block with the group's descriptor. -/
def HasDescriptor (v : Ext4) (g : ℕ) : Prop := v.fsbLba (v.gdBlock g) + v.bs / 512 ≤ v.sectors

/-- The byte of the device an inode starts at. -/
def inodeByte (v : Ext4) (s : FsState) (ino : ℕ) : ℕ :=
  v.gdInodeTable (descriptor v s ((ino - 1) / v.ipg)) * v.bs + (ino - 1) % v.ipg * v.inodeSize

/-- An inode with a checksum has the two bytes of the upper half, or neither. -/
def ChecksumFits (v : Ext4) : Prop :=
  v.metaCsum = true → v.inodeSize = goodOldInodeSize ∨ 0x84 ≤ v.inodeSize

/-- What `mount` leaves to the superblock and the descriptors. -/
structure SoundGeometry (v : Ext4) (s : FsState) : Prop where
  groups : (v.blocksTotal + v.bpg - 1) / v.bpg < 2 ^ 32
  bitmaps : v.bpg / 8 ≤ v.bs ∧ v.ipg / 8 ≤ v.bs
  descSize : v.bs % v.descSize = 0 ∨ v.numGroups ≤ v.bs / v.descSize
  inodeSize : 0 < v.numGroups → HasDescriptor v 0 →
    v.bs % v.inodeSize = 0 ∨ v.ipg ≤ v.bs / v.inodeSize
  bitmapAt : ∀ g < v.numGroups, HasDescriptor v g →
    v.gdBlockBitmap (descriptor v s g) * v.bs < 2 ^ 64 ∧
      v.gdInodeBitmap (descriptor v s g) * v.bs < 2 ^ 64
  tableAt : ∀ ino, 0 < ino → ino < 2 ^ 32 → (ino - 1) / v.ipg < v.numGroups →
    HasDescriptor v ((ino - 1) / v.ipg) → inodeByte v s ino < 2 ^ 64
  checksum : ∀ ino, 0 < ino → ino < 2 ^ 32 → (ino - 1) / v.ipg < v.numGroups →
    HasDescriptor v ((ino - 1) / v.ipg) →
    v.fsbLba (inodeByte v s ino / v.bs) + v.bs / 512 ≤ v.sectors → ChecksumFits v

/-- Slots of one size, one behind the other, are each inside one block if the size divides the
block, or if all of them are in the first one. -/
theorem slots_inside_iff {n m k : ℕ} (hn : 0 < n) (hm : 0 < m) :
    (∀ i < k, i * n % m + n ≤ m) ↔ m % n = 0 ∨ k ≤ m / n := by
  constructor
  · intro h
    by_contra hnot
    obtain ⟨hmod, hlt⟩ := not_or.mp hnot
    have hlast := h (m / n) (not_le.mp hlt)
    have hdiv := Nat.div_add_mod' m n
    have hrest := Nat.mod_lt m hn
    rw [Nat.mod_eq_of_lt (by omega)] at hlast
    omega
  · rintro (hdvd | hle) i hi
    · exact slot_inside hdvd hm
    · have hfits : (i + 1) * n ≤ m :=
        le_trans (Nat.mul_le_mul_right n (show i + 1 ≤ m / n by omega)) (Nat.div_mul_le_self m n)
      rw [Nat.add_mul, Nat.one_mul] at hfits
      rw [Nat.mod_eq_of_lt (by omega)]
      exact hfits

/-! ## The routines -/

section Routines

theorem readFsb_in {b : ℕ} (hfit : b * v.bs < 2 ^ 64) (hin : v.fsbLba b + v.bs / 512 ≤ v.sectors) :
    readFsb v b s = (.ok (block v s b), s) := by
  rw [readFsb, if_neg (not_le.mpr hfit), if_neg (not_lt.mpr hin)]
  rfl

theorem readFsb_out {b : ℕ} (hfit : b * v.bs < 2 ^ 64) (hout : ¬v.fsbLba b + v.bs / 512 ≤ v.sectors) :
    readFsb v b s = (.error (.error .io), s) := by
  rw [readFsb, if_neg (not_le.mpr hfit), if_pos (not_le.mp hout)]
  rfl

/-- A block whose first byte has a 64-bit number is read, or is not there. -/
theorem readFsb_calm {b : ℕ} (hfit : b * v.bs < 2 ^ 64) :
    Prog.Ends (fun buf s' => buf = block v s b ∧ s' = s) (fun e _ => ∀ f, e ≠ .fault f)
      (readFsb v b s) := by
  by_cases hin : v.fsbLba b + v.bs / 512 ≤ v.sectors
  · rw [readFsb_in hfit hin]
    exact Prog.ends_ok.mpr ⟨rfl, rfl⟩
  · rw [readFsb_out hfit hin]
    exact Prog.ends_error.mpr (by rintro f ⟨⟩)

theorem writeFsb_calm {b : ℕ} (hfit : b * v.bs < 2 ^ 64) (buf : Bytes) : Calm (writeFsb v b buf s) := by
  rw [writeFsb, if_neg (not_le.mpr hfit)]
  refine .ite (fun _ => ?_) fun _ => ?_
  · exact Prog.ends_error.mpr (by rintro f ⟨⟩)
  · exact Prog.ends_ok.mpr trivial

variable (hf : MountFields v)
include hf

theorem MountFields.bs_pos : 0 < v.bs := by
  have := hf.bs
  omega

theorem MountFields.bs_le : v.bs ≤ maxBlockSize := by
  have := hf.bs
  unfold maxBlockSize
  omega

theorem MountFields.numGroups_lt : v.numGroups < 2 ^ 32 := by
  rw [hf.numGroups]
  exact Nat.mod_lt _ (by omega)

theorem MountFields.gdBlock_fits {g : ℕ} (hg : g < v.numGroups) : v.gdBlock g * v.bs < 2 ^ 64 := by
  have hle : v.gdBlock g * v.bs ≤ v.gdtFsb * v.bs + g * v.descSize := Nat.div_mul_le_self _ _
  have hgdt : v.gdtFsb * v.bs ≤ 2 ^ 32 * 4096 := by
    have hfirst := hf.firstDataBlock
    exact Nat.mul_le_mul (by rw [hf.gdtFsb]; omega) hf.bs_le
  have hdesc : g * v.descSize ≤ 2 ^ 32 * 2 ^ 16 :=
    Nat.mul_le_mul (le_of_lt (lt_trans hg hf.numGroups_lt)) (le_of_lt hf.descSize.2)
  omega

theorem groupDescriptor_there {g : ℕ} (hg : g < v.numGroups) (hin : v.gdOffset g + v.descSize ≤ v.bs)
    (hthere : HasDescriptor v g) : groupDescriptor v g s = (.ok (descriptor v s g), s) := by
  rw [groupDescriptor, if_neg (not_le.mpr hg), Prog.bind_ok (readFsb_in (hf.gdBlock_fits hg) hthere),
    sliceBuf_ok (le_trans hin hf.bs_le)]
  rfl

/-- A descriptor inside its block is read, or its block is not there. -/
theorem groupDescriptor_calm {g : ℕ} (hg : g < v.numGroups) (hin : v.gdOffset g + v.descSize ≤ v.bs) :
    Prog.Ends (fun gd s' => HasDescriptor v g ∧ gd = descriptor v s g ∧ s' = s)
      (fun e _ => ∀ f, e ≠ .fault f) (groupDescriptor v g s) := by
  by_cases hthere : HasDescriptor v g
  · rw [groupDescriptor_there hf hg hin hthere]
    exact Prog.ends_ok.mpr ⟨hthere, rfl, rfl⟩
  · rw [groupDescriptor, if_neg (not_le.mpr hg),
      Prog.bind_error (readFsb_out (hf.gdBlock_fits hg) hthere)]
    exact Prog.ends_error.mpr (by rintro f ⟨⟩)

/-- SOURCE: ext4.rs:504-525 -/
theorem withGroup_calm {g : ℕ} (hg : g < v.numGroups) (hin : v.gdOffset g + v.descSize ≤ v.bs)
    (f : Bytes → Bytes) : Calm (withGroup v g f s) := by
  have hfit := hf.gdBlock_fits hg
  unfold withGroup pushGroup
  refine (groupDescriptor_calm hf hg hin).bind fun gd s₁ _ => ?_
  refine (readFsb_calm hfit).bind fun buf s₂ _ => ?_
  rw [Prog.bind_ok (sliceBuf_ok (le_trans hin hf.bs_le))]
  exact writeFsb_calm hfit _

/-! ### On a volume with a sound geometry -/

variable (h : SoundGeometry v s)
include h

theorem SoundGeometry.descriptor_inside {g : ℕ} (hg : g < v.numGroups) :
    v.gdOffset g + v.descSize ≤ v.bs := by
  have hpos : 0 < v.descSize := lt_of_lt_of_le (by omega) hf.descSize.1
  rw [(gdOffset_of_pos hf.bs_pos g).2]
  exact (slots_inside_iff hpos hf.bs_pos).mpr h.descSize g hg

omit h in
/-- The descriptors stand one behind the other. -/
theorem HasDescriptor.first {g : ℕ} (hthere : HasDescriptor v g) : HasDescriptor v 0 := by
  refine le_trans (Nat.add_le_add_right (Nat.div_le_div_right ?_) _) hthere
  refine Nat.mul_le_mul_right _ ?_
  rw [(gdOffset_of_pos hf.bs_pos 0).1, (gdOffset_of_pos hf.bs_pos g).1, Nat.zero_mul, Nat.zero_div]
  exact Nat.le_add_right _ _

omit hf h in
/-- The checksum has its place in every inode, or it has none in an inode with an upper half. -/
theorem checksumFits_iff (hf : MountFields v) :
    ChecksumFits v ↔ ∀ raw, v.tailOutside raw = false := by
  have hsize := hf.inodeSize.1
  unfold ChecksumFits Ext4.tailOutside
  constructor
  · intro h raw
    have htail : (if v.fitsHi raw then 0x84 else 0x82) ≤ 0x84 := by split <;> omega
    rw [Bool.and_assoc, Bool.and_eq_false_imp]
    intro hcsum
    rw [Bool.and_eq_false_imp, decide_eq_true_iff, decide_eq_false_iff_not]
    have := h hcsum
    omega
  · intro h hcsum
    have hhi : v.fitsHi (Bytes.putLE (fun _ => 0) 0x80 2 4) = decide (goodOldInodeSize < v.inodeSize) :=
      Bool.and_true _
    have htail := h (Bytes.putLE (fun _ => 0) 0x80 2 4)
    rw [hcsum, hhi] at htail
    by_cases hlong : goodOldInodeSize < v.inodeSize
    · simp [hlong] at htail
      exact Or.inr htail
    · exact Or.inl (le_antisymm (not_lt.mp hlong) hsize)

/-- SOURCE: ext4.rs:563-572 -/
theorem inodeLocation_calm {ino : ℕ} (hpos : 0 < ino) (hlt : ino < 2 ^ 32) :
    Prog.Ends (fun loc s' => loc.1 * v.bs < 2 ^ 64 ∧ loc.2 + v.inodeSize ≤ v.bs ∧
        (v.fsbLba loc.1 + v.bs / 512 ≤ v.sectors → ChecksumFits v) ∧ s' = s)
      (fun e _ => ∀ f, e ≠ .fault f) (inodeLocation v ino s) := by
  unfold inodeLocation
  rw [if_neg (Nat.ne_of_gt hpos)]
  by_cases hg : (ino - 1) / v.ipg < v.numGroups
  · refine (groupDescriptor_calm hf hg (h.descriptor_inside hf hg)).bind ?_
    rintro gd s' ⟨hthere, rfl, rfl⟩
    have hbyte := h.tableAt ino hpos hlt hg hthere
    unfold inodeByte at hbyte
    dsimp only
    rw [if_neg (not_le.mpr hbyte)]
    refine Prog.ends_ok.mpr ⟨lt_of_le_of_lt (Nat.div_mul_le_self _ _) hbyte, ?_,
      h.checksum ino hpos hlt hg hthere, rfl⟩
    have hsize : 0 < v.inodeSize := lt_of_lt_of_le (by omega) hf.inodeSize.1
    have hslots := (slots_inside_iff hsize hf.bs_pos).mpr
      (h.inodeSize (Nat.zero_lt_of_lt hg) (hthere.first hf))
    dsimp only
    rw [Nat.mul_comm (v.gdInodeTable _), Nat.mul_add_mod]
    exact hslots _ (Nat.mod_lt _ hf.ipg.1)
  · rw [groupDescriptor, if_pos (not_lt.mp hg)]
    exact Prog.ends_error.mpr (by rintro f ⟨⟩)

/-- SOURCE: ext4.rs:574-599 -/
theorem readInode_calm {ino : ℕ} (hpos : 0 < ino) (hlt : ino < 2 ^ 32) : Calm (readInode v ino s) := by
  unfold readInode
  refine (inodeLocation_calm hf h hpos hlt).bind fun loc s₁ hloc => ?_
  refine (readFsb_calm hloc.1).bind fun buf s₂ _ => ?_
  rw [Prog.bind_ok (sliceBuf_ok (le_trans hloc.2.1 hf.bs_le))]
  exact Prog.ends_ok.mpr trivial

/-- SOURCE: ext4.rs:601-649 -/
theorem writeInode_calm {inode : Inode} (hpos : 0 < inode.ino) (hlt : inode.ino < 2 ^ 32) :
    Calm (writeInode v inode s) := by
  unfold writeInode
  refine (inodeLocation_calm hf h hpos hlt).bind ?_
  rintro ⟨b, off⟩ s₁ ⟨hfit, hslot, hcsum, -⟩
  dsimp only at hfit hslot hcsum ⊢
  by_cases hin : v.fsbLba b + v.bs / 512 ≤ v.sectors
  · rw [Prog.bind_ok (readFsb_in hfit hin), (checksumFits_iff hf).mp (hcsum hin),
      if_neg Bool.false_ne_true, Prog.bind_ok (sliceBuf_ok (le_trans hslot hf.bs_le))]
    exact writeFsb_calm hfit _
  · rw [Prog.bind_error (readFsb_out hfit hin)]
    exact Prog.ends_error.mpr (by rintro f ⟨⟩)

omit h in
/-- The end of an inode table that starts before `2 ^ 50` has a 64-bit number. -/
theorem tableEnd_small {fsb : ℕ} (hfsb : fsb < 2 ^ 50) (gd : Bytes) :
    v.tableEndOverflows gd fsb = false := by
  have hper : v.inodesTotal / v.numGroups ≤ 2 ^ 32 :=
    le_trans (Nat.div_le_self _ _) (le_of_lt hf.inodesTotal)
  have hsize : v.inodesTotal / v.numGroups * v.inodeSize ≤ 2 ^ 32 * 256 :=
    Nat.mul_le_mul hper hf.inodeSize.2
  have hblocks : v.itBlocks ≤ v.inodesTotal / v.numGroups * v.inodeSize + v.bs - 1 := Nat.div_le_self _ _
  have hbs := hf.bs
  unfold Ext4.tableEndOverflows
  rw [Bool.and_eq_false_iff, Bool.and_eq_false_iff, decide_eq_false_iff_not, decide_eq_false_iff_not]
  omega

/-- SOURCE: ext4.rs:664-692 -/
theorem blockReserved_calm {g fsb : ℕ} (hg : g < v.numGroups) (hfsb : fsb < 2 ^ 50) :
    Prog.Ends (fun _ s' => s' = s) (fun e _ => ∀ f, e ≠ .fault f) (blockReserved v g fsb s) := by
  refine .ite (fun _ => Prog.ends_ok.mpr rfl) fun _ => ?_
  refine Prog.Ends.handle (Q := fun _ s' => s' = s) (E := fun e s' => (∀ f, e ≠ .fault f) ∧ s' = s)
    ?_ (fun e s' he => ?_) fun _ _ hs => hs
  · have hrun := (groupDescriptor_calm (s := s) hf hg (h.descriptor_inside hf hg)).reads
      (reads_groupDescriptor v g)
    refine hrun.bind ?_
    rintro gd s' ⟨-, rfl⟩
    rw [tableEnd_small hf hfsb]
    exact Prog.ends_ok.mpr rfl
  · cases e with
    | error e => exact Prog.ends_ok.mpr he.2
    | fault f => exact absurd rfl (he.1 f)

omit hf h in
/-- A block number that a scan looks at. -/
theorem unit_small (hf : MountFields v) (hbpg : v.bpg / 8 ≤ v.bs) {g idx : ℕ} (hg : g < v.numGroups)
    (hidx : idx < maxBlockSize * 8) : v.firstDataBlock + g * v.bpg + idx < 2 ^ 50 := by
  have hfirst := hf.firstDataBlock
  have hbs := hf.bs
  have hprod : g * v.bpg ≤ 2 ^ 32 * 32775 :=
    Nat.mul_le_mul (le_of_lt (lt_trans hg hf.numGroups_lt)) (by omega)
  unfold maxBlockSize at hidx
  omega

/-- SOURCE: ext4.rs:653-662 -/
theorem readBitmap_calm {g : ℕ} (hg : g < v.numGroups) (w : Bool) :
    Prog.Ends (fun b s' => b * v.bs < 2 ^ 64 ∧ s' = s) (fun e _ => ∀ f, e ≠ .fault f)
      (readBitmap v g w s) := by
  refine (groupDescriptor_calm hf hg (h.descriptor_inside hf hg)).bind ?_
  rintro gd s' ⟨hthere, rfl, rfl⟩
  refine Prog.ends_ok.mpr ⟨?_, rfl⟩
  split
  · exact (h.bitmapAt g hg hthere).2
  · exact (h.bitmapAt g hg hthere).1

omit hf h in
theorem scannedBits_le (hf : MountFields v) (hbitmaps : v.bpg / 8 ≤ v.bs ∧ v.ipg / 8 ≤ v.bs)
    (w : Bool) : scannedBits v w ≤ maxBlockSize * 8 := by
  have hbs := hf.bs_le
  cases w
  · exact Nat.mul_le_mul_right 8 (le_trans hbitmaps.1 hbs)
  · exact Nat.mul_le_mul_right 8 (le_trans hbitmaps.2 hbs)

/-- What keeps a search from getting past a group is an error value. -/
theorem SearchStops.calm {w : Bool} {g : ℕ} {e : FsFail} (hg : g < v.numGroups) (hstops : SearchStops v s w g e)
    (f : Fault) : e ≠ .fault f := by
  have hplace := readBitmap_calm (s := s) hf h hg w
  cases hstops with
  | place hrun =>
    rw [hrun] at hplace
    exact Prog.ends_error.mp hplace f
  | content hb hrun =>
    rw [hb] at hplace
    have hcontent := readFsb_calm (s := s) (Prog.ends_ok.mp hplace).1
    rw [hrun] at hcontent
    exact Prog.ends_error.mp hcontent f
  | bits hbits => exact absurd hbits (not_lt.mpr (scannedBits_le hf h.bitmaps w))
  | guard hguard =>
    obtain ⟨-, j, hj, -, hrun⟩ := hguard
    have hle := scannedBits_le hf h.bitmaps false
    have hcalm := blockReserved_calm (s := s) hf h hg
      (show unitAt v false g j < 2 ^ 50 from unit_small hf h.bitmaps.1 hg (by omega))
    rw [hrun] at hcalm
    exact Prog.ends_error.mp hcalm f

/-- SOURCE: ext4.rs:696-740 -/
theorem allocGroups_calm (w : Bool) (n g : ℕ) (hn : g + n ≤ v.numGroups) :
    Calm (allocGroups v w n g s) := by
  have hrun := allocGroups_searched v s w n g
  generalize allocGroups v w n g s = r at hrun ⊢
  cases hrun with
  | found => exact Prog.ends_ok.mpr trivial
  | full => exact Prog.ends_error.mpr (by rintro f ⟨⟩)
  | stopped _ hhi hstops _ => exact Prog.ends_error.mpr (SearchStops.calm hf h (by omega) hstops)

/-- Nothing panics on a volume with a sound geometry. -/
theorem SoundGeometry.contained : Contained v s where
  groups := hf.numGroups.trans (Nat.mod_eq_of_lt h.groups)
  bitmaps := h.bitmaps
  descriptors _ hg := h.descriptor_inside hf hg
  inodes ino b off s' hlt hrun := by
    rcases Nat.eq_zero_or_pos ino with rfl | hpos
    · cases hrun
    · exact ((inodeLocation_calm hf h hpos hlt).ok hrun).2.1
  groupCalls g hg := by
    have hin := h.descriptor_inside hf hg
    exact ⟨(groupDescriptor_calm hf hg hin).weaken (fun _ _ _ => trivial) fun _ _ he => he,
      withGroup_calm hf hg hin⟩
  inodeCalls ino hpos hlt := by
    refine ⟨readInode_calm hf h hpos hlt, ?_⟩
    rintro inode rfl
    exact writeInode_calm hf h hpos hlt
  scans w g hg := allocGroups_calm hf h w _ g (by omega)

end Routines

/-! ## Which volumes these are -/

section Needed

variable (hf : MountFields v) (h : Contained v s)
include hf h

/-- An inode of the volume is found. -/
theorem Contained.location {ino : ℕ} (hpos : 0 < ino) (hlt : ino < 2 ^ 32)
    (hg : (ino - 1) / v.ipg < v.numGroups) (hthere : HasDescriptor v ((ino - 1) / v.ipg)) :
    inodeByte v s ino < 2 ^ 64 ∧
      inodeLocation v ino s = (.ok (inodeByte v s ino / v.bs, inodeByte v s ino % v.bs), s) := by
  have hgd := groupDescriptor_there (s := s) hf hg (h.descriptors _ hg) hthere
  have hcalm := (h.inodeCalls ino hpos hlt).1
  have hbyte : inodeByte v s ino < 2 ^ 64 := by
    by_contra hover
    have hcrash : inodeLocation v ino s = (.error (.fault .overflow), s) := by
      rw [inodeLocation, if_neg (Nat.ne_of_gt hpos), Prog.bind_ok hgd]
      exact congrFun (if_pos (not_lt.mp hover)) s
    rw [readInode, Prog.bind_error hcrash] at hcalm
    exact Prog.ends_error.mp hcalm .overflow rfl
  refine ⟨hbyte, ?_⟩
  rw [inodeLocation, if_neg (Nat.ne_of_gt hpos), Prog.bind_ok hgd]
  exact congrFun (if_neg (not_le.mpr hbyte)) s

/-- The checksum of an inode on the device has its place.  The inode with an upper half for it is
the one that needs most. -/
theorem Contained.checksum {ino : ℕ} (hpos : 0 < ino) (hlt : ino < 2 ^ 32)
    (hg : (ino - 1) / v.ipg < v.numGroups) (hthere : HasDescriptor v ((ino - 1) / v.ipg))
    (hin : v.fsbLba (inodeByte v s ino / v.bs) + v.bs / 512 ≤ v.sectors) : ChecksumFits v := by
  obtain ⟨hbyte, hrun⟩ := h.location hf hpos hlt hg hthere
  refine (checksumFits_iff hf).mpr fun raw => Bool.eq_false_iff.mpr fun hout => ?_
  have hcalm := (h.inodeCalls ino hpos hlt).2 ⟨ino, 0, 0, 0, 0, raw⟩ rfl
  rw [writeInode, Prog.bind_ok hrun] at hcalm
  dsimp only at hcalm
  rw [Prog.bind_ok (readFsb_in (lt_of_le_of_lt (Nat.div_mul_le_self _ _) hbyte) hin), hout] at hcalm
  exact Prog.ends_error.mp hcalm .outOfBounds rfl

/-- The search of a group reads its bitmap first. -/
theorem Contained.bitmap {g : ℕ} (hg : g < v.numGroups) (hthere : HasDescriptor v g) (w : Bool) :
    (if w then v.gdInodeBitmap (descriptor v s g) else v.gdBlockBitmap (descriptor v s g)) * v.bs <
      2 ^ 64 := by
  by_contra hover
  have hgd := groupDescriptor_there (s := s) hf hg (h.descriptors _ hg) hthere
  have hcalm := h.scans w g (le_of_lt hg)
  obtain ⟨n, hn⟩ : ∃ n, v.numGroups - g = n + 1 := ⟨v.numGroups - g - 1, by omega⟩
  have hcrash : readFsb v (if w then v.gdInodeBitmap (descriptor v s g)
      else v.gdBlockBitmap (descriptor v s g)) s = (.error (.fault .overflow), s) := by
    rw [readFsb, if_pos (not_lt.mp hover)]
    rfl
  have hbitmap : readBitmap v g w s = (.ok (if w then v.gdInodeBitmap (descriptor v s g)
      else v.gdBlockBitmap (descriptor v s g)), s) := by
    rw [readBitmap, Prog.bind_ok hgd]
    rfl
  rw [hn, allocGroups, Prog.bind_ok hbitmap, Prog.bind_error hcrash] at hcalm
  exact Prog.ends_error.mp hcalm .overflow rfl

theorem Contained.sound : SoundGeometry v s where
  groups := by
    rw [← h.groups]
    exact hf.numGroups_lt
  bitmaps := h.bitmaps
  descSize := by
    have hpos : 0 < v.descSize := lt_of_lt_of_le (by omega) hf.descSize.1
    refine (slots_inside_iff hpos hf.bs_pos).mp fun g hg => ?_
    have hin := h.descriptors g hg
    rwa [(gdOffset_of_pos hf.bs_pos g).2] at hin
  inodeSize hgroups hthere := by
    have hpos : 0 < v.inodeSize := lt_of_lt_of_le (by omega) hf.inodeSize.1
    refine (slots_inside_iff hpos hf.bs_pos).mp fun i hi => ?_
    -- the inode is one of the first group
    have hdiv : (i + 1 - 1) / v.ipg = 0 := Nat.div_eq_of_lt hi
    have hlt : i + 1 < 2 ^ 32 := lt_of_le_of_lt hi hf.ipg.2
    have hin := h.inodes _ _ _ _ hlt (h.location hf (show 0 < i + 1 from Nat.succ_pos i) hlt
      (by rwa [hdiv]) (by rwa [hdiv])).2
    rwa [inodeByte, Nat.mul_comm (v.gdInodeTable _), Nat.mul_add_mod, Nat.add_sub_cancel,
      Nat.mod_eq_of_lt hi] at hin
  bitmapAt g hg hthere := ⟨h.bitmap hf hg hthere false, h.bitmap hf hg hthere true⟩
  tableAt ino hpos hlt hg hthere := (h.location hf hpos hlt hg hthere).1
  checksum ino hpos hlt hg hthere hin := h.checksum hf hpos hlt hg hthere hin

end Needed

/-- What `mount` checks suffices exactly for the volumes with a sound geometry. -/
theorem mount_suffices_iff (hmount : mount dev = .ok (v, s₀)) (s : FsState) :
    Contained v s ↔ SoundGeometry v s :=
  have hf := mount_fields hmount
  ⟨fun h => h.sound hf, fun h => h.contained hf⟩

/-- A device with nothing on it but a superblock: 16384 blocks of 1024 bytes in two groups, with
descriptors of `n` bytes. -/
def emptyDevice (n : ℕ) : Device where
  blockSize := 512
  sectors := 32768
  bytes := Bytes.blit (fun _ => 0) 1024 1024 ((sampleSuper 16 16384 8192 0x42).putLE 0xFE 2 n)

/-- The volume on it. -/
def emptyVolume (n : ℕ) : Ext4 :=
  { sampleVolume 2 8192 16384 with descSize := n, csumSeed := 0xBD8F6515 }

theorem mount_empty : (mount (emptyDevice 32)).toOption.map Prod.fst = some (emptyVolume 32) ∧
    (mount (emptyDevice 4000)).toOption.map Prod.fst = some (emptyVolume 4000) := by
  decide +kernel

theorem mount_of_volume (h : (mount dev).toOption.map Prod.fst = some v) :
    ∃ s, mount dev = .ok (v, s) := by
  cases hrun : mount dev with
  | error e =>
    rw [hrun] at h
    cases h
  | ok r =>
    rw [hrun] at h
    cases h
    exact ⟨r.2, rfl⟩

/-- The descriptors are empty ones. -/
theorem descriptor_empty {g : ℕ} (hg : g < 2) (fb fi k : ℕ) (hk : k < 32) :
    descriptor (emptyVolume 32) ((emptyDevice 32).state 1024 fb fi) g k = 0 := by
  have hblock : (emptyVolume 32).gdBlock g = 2 ∧ (emptyVolume 32).gdOffset g = 32 * g := by
    unfold Ext4.gdBlock Ext4.gdOffset
    show (2 * 1024 + g * 32) / 1024 = 2 ∧ (2 * 1024 + g * 32) % 1024 = 32 * g
    omega
  unfold descriptor
  rw [hblock.1, hblock.2]
  refine (Bytes.clip_inside (show 32 * g + k < 1024 by omega)).trans ?_
  show (emptyDevice 32).bytes (2 * 1024 + (32 * g + k)) = 0
  unfold emptyDevice
  dsimp only
  rw [Bytes.blit_outside (Or.inr (by omega))]

theorem sound_empty (fb fi : ℕ) :
    SoundGeometry (emptyVolume 32) ((emptyDevice 32).state 1024 fb fi) := by
  have hzero : ∀ g < 2, ∀ a, a + 4 ≤ 32 →
      (descriptor (emptyVolume 32) ((emptyDevice 32).state 1024 fb fi) g).getLE a 4 = 0 :=
    fun g hg a ha => Bytes.getLE_eq_zero fun j hj => descriptor_empty hg fb fi _ (by omega)
  have hptr : ∀ g < 2, ∀ lo hi, lo + 4 ≤ 32 → (emptyVolume 32).gdU32
      (descriptor (emptyVolume 32) ((emptyDevice 32).state 1024 fb fi) g) lo hi = 0 := by
    intro g hg lo hi hlo
    rw [Ext4.gdU32, hzero g hg lo hlo]
    rfl
  refine ⟨by decide, by decide, by decide, fun _ _ => by decide, fun g hg _ => ?_,
    fun ino _ _ hg _ => ?_, fun _ _ _ _ _ _ => (nomatch ·)⟩
  · rw [Ext4.gdBlockBitmap, Ext4.gdInodeBitmap, hptr g hg _ _ (by omega), hptr g hg _ _ (by omega)]
    omega
  · rw [inodeByte, Ext4.gdInodeTable, hptr _ hg _ _ (by omega)]
    show 0 * 1024 + (ino - 1) % 8 * 128 < 2 ^ 64
    omega

/-- Descriptors of 32 bytes. -/
theorem mount_suffices_empty : ∃ s, mount (emptyDevice 32) = .ok (emptyVolume 32, s) ∧
    Contained (emptyVolume 32) ((emptyDevice 32).state 1024 0 0) := by
  obtain ⟨s, hmount⟩ := mount_of_volume mount_empty.1
  exact ⟨s, hmount, (mount_suffices_iff hmount _).mpr (sound_empty 0 0)⟩

/-- With descriptors of 4000 bytes the second one is asked for past the end of the buffer. -/
theorem mount_accepts_long_descriptors : ∃ s, mount (emptyDevice 4000) = .ok (emptyVolume 4000, s) ∧
    (groupDescriptor (emptyVolume 4000) 1 s).1 = .error (.fault .outOfBounds) ∧
      ¬Contained (emptyVolume 4000) s := by
  obtain ⟨s, hmount⟩ := mount_of_volume mount_empty.2
  have hcrash : groupDescriptor (emptyVolume 4000) 1 s = (.error (.fault .outOfBounds), s) := rfl
  refine ⟨s, hmount, congrArg Prod.fst hcrash, fun h => ?_⟩
  have hcalm := (h.groupCalls 1 (by decide)).1
  rw [hcrash] at hcalm
  exact Prog.ends_error.mp hcalm .outOfBounds rfl

end Pinx.Analysis
