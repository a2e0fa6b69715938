import Pinx.Model.Ext4Files
import Mathlib.Tactic.MkIffOfInductiveProp

/-!
# Where things are on a volume

`Layout` gives every block of the volume one role: superblock, group descriptors, a
bitmap, an inode table, or data.  The group descriptors on disk point to the bitmaps
and inode tables of the layout, and no call moves them.

Here are the equations of the primitive operations on a volume with a layout: what
they return and which block they change.
-/

namespace Pinx.Analysis

open Pinx.Foundation Pinx.Model

/-- What a block of the volume is for. -/
inductive Role where
  | super
  | groupTable
  | blockBitmap (group : ℕ)
  | inodeBitmap (group : ℕ)
  | inodeTable (group : ℕ)
  | data
deriving DecidableEq, Repr

/-- The places of the bitmaps and inode tables, and the role of every block. -/
structure Layout where
  blockBitmap : ℕ → ℕ
  inodeBitmap : ℕ → ℕ
  inodeTable : ℕ → ℕ
  role : ℕ → Role

/-- The sizes and counts of a volume as the format has them.  The inode count is the
one the number of groups implies. -/
@[mk_iff]
structure GeometryOk (v : Ext4) : Prop where
  bs : v.bs = 1024 ∨ v.bs = 2048 ∨ v.bs = 4096
  inodeSize : v.inodeSize = 128 ∨ v.inodeSize = 256
  descSize : 32 ≤ v.descSize
  descSize_dvd : v.bs % v.descSize = 0
  desc64 : v.has64bit = true → 64 ≤ v.descSize
  bpg_pos : 0 < v.bpg
  bpg_le : v.bpg ≤ 8 * v.bs
  ipg_pos : 0 < v.ipg
  ipg_le : v.ipg ≤ 8 * v.bs
  groups : v.blocksTotal ≤ v.firstDataBlock + v.numGroups * v.bpg
  inodes : v.inodesTotal = v.ipg * v.numGroups
  inodes_lt : v.inodesTotal < 2 ^ 32
  blocks : v.blocksTotal ≤ 2 ^ 48
  device : v.blocksTotal * v.bs ≤ v.sectors * 512

instance (v : Ext4) : Decidable (GeometryOk v) := decidable_of_iff' _ (geometryOk_iff v)

/-- The blocks an inode table takes up. -/
def itBlocks (v : Ext4) : ℕ := (v.ipg * v.inodeSize + v.bs - 1) / v.bs

/-- Every metadata block has the role the layout says, and metadata is on the volume. -/
structure LayoutOk (v : Ext4) (L : Layout) : Prop where
  super : L.role v.sblockFsb = .super
  groupTable : ∀ g < v.numGroups, L.role (v.gdBlock g) = .groupTable
  blockBitmap : ∀ g < v.numGroups, L.role (L.blockBitmap g) = .blockBitmap g
  inodeBitmap : ∀ g < v.numGroups, L.role (L.inodeBitmap g) = .inodeBitmap g
  inodeTable : ∀ g < v.numGroups, ∀ k < itBlocks v, L.role (L.inodeTable g + k) = .inodeTable g
  range : ∀ b, L.role b ≠ .data → v.firstDataBlock ≤ b ∧ b < v.blocksTotal

/-! ## Blocks -/

/-- The content of a block. -/
def block (v : Ext4) (s : FsState) (b : ℕ) : Bytes := (s.disk b).clip v.bs

/-- The state after a block was written. -/
def setBlock (v : Ext4) (s : FsState) (b : ℕ) (buf : Bytes) : FsState :=
  { s with disk := Function.update s.disk b (buf.clip v.bs) }

variable {v : Ext4} {L : Layout} {s s' : FsState} {b b' : ℕ} {buf : Bytes}

theorem block_setBlock_self : block v (setBlock v s b buf) b = buf.clip v.bs := by
  simp only [block, setBlock, Function.update_self, Bytes.clip_clip]

theorem block_setBlock_ne (h : b' ≠ b) : block v (setBlock v s b buf) b' = block v s b' := by
  simp only [block, setBlock, Function.update_of_ne h]

theorem block_clip (v : Ext4) (s : FsState) (b : ℕ) : (block v s b).clip v.bs = block v s b :=
  Bytes.clip_clip _

/-- Errors that say nothing about the volume: the device failed, or the call did not
return. -/
def Skips : FsFail → Prop
  | .error .io => True
  | .fault _ => True
  | _ => False

theorem readFsb_cases (v : Ext4) (s : FsState) (b : ℕ) :
    readFsb v b s = (.ok (block v s b), s) ∨ ∃ e, Skips e ∧ readFsb v b s = (.error e, s) := by
  unfold readFsb
  split
  · exact Or.inr ⟨.fault .overflow, trivial, rfl⟩
  · split
    · exact Or.inr ⟨.error .io, trivial, rfl⟩
    · exact Or.inl rfl

theorem writeFsb_cases (v : Ext4) (s : FsState) (b : ℕ) (buf : Bytes) :
    writeFsb v b buf s = (.ok (), setBlock v s b buf) ∨
      ∃ e, Skips e ∧ writeFsb v b buf s = (.error e, s) := by
  unfold writeFsb
  split
  · exact Or.inr ⟨.fault .overflow, trivial, rfl⟩
  · split
    · exact Or.inr ⟨.error .io, trivial, rfl⟩
    · exact Or.inl rfl

section Geometry

variable (hv : GeometryOk v)
include hv

theorem GeometryOk.bs_pos : 0 < v.bs := by
  obtain h | h | h := hv.bs <;> omega

theorem GeometryOk.bs_le : v.bs ≤ maxBlockSize := by
  have := hv.bs
  unfold maxBlockSize
  omega

theorem GeometryOk.inBlock (hb : b < v.blocksTotal) :
    ¬2 ^ 64 ≤ b * v.bs ∧ ¬v.sectors < v.fsbLba b + v.bs / 512 := by
  have hdev := hv.device
  have hblocks := hv.blocks
  have hbs := hv.bs_le
  have hmul : (b + 1) * v.bs ≤ v.blocksTotal * v.bs := Nat.mul_le_mul_right _ hb
  have hbig : b * v.bs ≤ 2 ^ 48 * 4096 := Nat.mul_le_mul (by omega) hbs
  rw [Nat.add_mul, Nat.one_mul] at hmul
  have hdvd : v.bs % 512 = 0 := by
    obtain h | h | h := hv.bs <;> rw [h]
  refine ⟨by omega, ?_⟩
  unfold Ext4.fsbLba
  omega

theorem readFsb_ok (hb : b < v.blocksTotal) : readFsb v b s = (.ok (block v s b), s) := by
  obtain ⟨h₁, h₂⟩ := hv.inBlock hb
  rw [readFsb, if_neg h₁, if_neg h₂]
  rfl

theorem writeFsb_ok (hb : b < v.blocksTotal) :
    writeFsb v b buf s = (.ok (), setBlock v s b buf) := by
  obtain ⟨h₁, h₂⟩ := hv.inBlock hb
  rw [writeFsb, if_neg h₁, if_neg h₂]
  rfl

end Geometry

theorem sliceBuf_ok {off n : ℕ} (h : off + n ≤ maxBlockSize) :
    sliceBuf buf off n s = (.ok (fun k => buf (off + k)), s) := by
  rw [sliceBuf, if_pos h]
  rfl

/-! ## Group descriptors -/

/-- The descriptor of a group. -/
def descriptor (v : Ext4) (s : FsState) (g : ℕ) : Bytes :=
  fun k => block v s (v.gdBlock g) (v.gdOffset g + k)

/-- The descriptors point to the places of the layout. -/
def PlacedAt (v : Ext4) (L : Layout) (s : FsState) : Prop :=
  ∀ g < v.numGroups, v.gdBlockBitmap (descriptor v s g) = L.blockBitmap g ∧
    v.gdInodeBitmap (descriptor v s g) = L.inodeBitmap g ∧
    v.gdInodeTable (descriptor v s g) = L.inodeTable g

theorem gdOffset_of_pos (hbs : 0 < v.bs) (g : ℕ) :
    v.gdBlock g = v.gdtFsb + g * v.descSize / v.bs ∧ v.gdOffset g = g * v.descSize % v.bs := by
  unfold Ext4.gdBlock Ext4.gdOffset
  rw [Nat.mul_comm v.gdtFsb v.bs, Nat.mul_add_div hbs, Nat.mul_add_mod]
  exact ⟨rfl, rfl⟩

theorem gdOffset_eq (hv : GeometryOk v) (g : ℕ) :
    v.gdBlock g = v.gdtFsb + g * v.descSize / v.bs ∧ v.gdOffset g = g * v.descSize % v.bs :=
  gdOffset_of_pos hv.bs_pos g

/-- A slot of a size that divides the block lies inside one block. -/
theorem slot_inside {n i m : ℕ} (hdvd : m % n = 0) (hm : 0 < m) : i * n % m + n ≤ m := by
  obtain ⟨k, rfl⟩ := Nat.dvd_of_mod_eq_zero hdvd
  have hk : 0 < k := Nat.pos_of_mul_pos_left hm
  rw [Nat.mul_comm i n, Nat.mul_mod_mul_left]
  have hlt := Nat.mod_lt i hk
  calc n * (i % k) + n = n * (i % k + 1) := by ring
    _ ≤ n * k := Nat.mul_le_mul_left _ hlt

/-- Different slots do not overlap. -/
theorem slot_apart {n i j m : ℕ} (hne : i ≠ j) (hblock : i * n / m = j * n / m) :
    i * n % m + n ≤ j * n % m ∨ j * n % m + n ≤ i * n % m := by
  have hi := Nat.div_add_mod (i * n) m
  have hj := Nat.div_add_mod (j * n) m
  rw [hblock] at hi
  rcases Nat.lt_or_gt_of_ne hne with hlt | hlt
  · have : i * n + n ≤ j * n := by
      calc i * n + n = (i + 1) * n := by ring
        _ ≤ j * n := Nat.mul_le_mul_right _ hlt
    omega
  · have : j * n + n ≤ i * n := by
      calc j * n + n = (j + 1) * n := by ring
        _ ≤ i * n := Nat.mul_le_mul_right _ hlt
    omega

section Descriptors

variable (hv : GeometryOk v) (hL : LayoutOk v L)

include hv in
theorem descriptor_inside (g : ℕ) : v.gdOffset g + v.descSize ≤ v.bs := by
  rw [(gdOffset_eq hv g).2]
  exact slot_inside hv.descSize_dvd hv.bs_pos

include hL in
theorem gdBlock_lt {g : ℕ} (hg : g < v.numGroups) : v.gdBlock g < v.blocksTotal := by
  refine (hL.range _ ?_).2
  rw [hL.groupTable g hg]
  exact fun h => nomatch h

include hv hL

theorem groupDescriptor_ok {g : ℕ} (hg : g < v.numGroups) :
    groupDescriptor v g s = (.ok (descriptor v s g), s) := by
  have hinside := descriptor_inside hv g
  have hle := hv.bs_le
  rw [groupDescriptor, if_neg (by omega), Prog.bind_ok (readFsb_ok hv (gdBlock_lt hL hg)),
    sliceBuf_ok (by omega)]
  rfl

/-- The descriptor `with_group` writes back. -/
def stampGroup (v : Ext4) (g : ℕ) (gd : Bytes) : Bytes :=
  if v.metaCsum then gd.putLE 0x1E 2 (v.groupCsum g gd) else gd

/-- SOURCE: ext4.rs:504-525 -/
theorem withGroup_ok {g : ℕ} {f : Bytes → Bytes} (hg : g < v.numGroups) :
    withGroup v g f s = (.ok (), setBlock v s (v.gdBlock g)
      ((block v s (v.gdBlock g)).blit (v.gdOffset g) v.descSize
        (stampGroup v g (f ((descriptor v s g).clip v.descSize))))) := by
  have hinside := descriptor_inside hv g
  have hle := hv.bs_le
  have hlt := gdBlock_lt hL hg
  rw [withGroup, Prog.bind_ok (groupDescriptor_ok hv hL hg), pushGroup,
    Prog.bind_ok (readFsb_ok hv hlt), Prog.bind_ok (sliceBuf_ok (by omega)), writeFsb_ok hv hlt]
  rfl

end Descriptors

/-- What a write of one descriptor does to the descriptors. -/
theorem descriptor_setBlock (hv : GeometryOk v) {g g' : ℕ} {gd : Bytes} {k : ℕ}
    (hk : k < v.descSize) :
    descriptor v (setBlock v s (v.gdBlock g)
        ((block v s (v.gdBlock g)).blit (v.gdOffset g) v.descSize gd)) g' k =
      if g' = g then gd k else descriptor v s g' k := by
  have hinside := descriptor_inside hv g'
  have hinside' := descriptor_inside hv g
  unfold descriptor
  by_cases hblock : v.gdBlock g' = v.gdBlock g
  · rw [hblock, block_setBlock_self, Bytes.clip_inside (by omega)]
    by_cases hg : g' = g
    · subst hg
      rw [if_pos rfl, Bytes.blit_inside (by omega) (by omega), Nat.add_sub_cancel_left]
    · have hapart := slot_apart (n := v.descSize) (m := v.bs) hg (by
        have h := (gdOffset_eq hv g').1
        have h' := (gdOffset_eq hv g).1
        omega)
      have h := (gdOffset_eq hv g').2
      have h' := (gdOffset_eq hv g).2
      rw [if_neg hg, Bytes.blit_outside (by omega)]
  · have hg : g' ≠ g := by
      rintro rfl
      exact hblock rfl
    rw [if_neg hg, block_setBlock_ne hblock]

/-! ## Inodes -/

/-- An inode number of the volume. -/
def IsInode (v : Ext4) (i : ℕ) : Prop := 0 < i ∧ i ≤ v.inodesTotal

/-- The block and the offset of an inode. -/
def slotBlock (v : Ext4) (L : Layout) (i : ℕ) : ℕ :=
  L.inodeTable ((i - 1) / v.ipg) + (i - 1) % v.ipg * v.inodeSize / v.bs
def slotOffset (v : Ext4) (i : ℕ) : ℕ := (i - 1) % v.ipg * v.inodeSize % v.bs

/-- The bytes of an inode on disk. -/
def slot (v : Ext4) (L : Layout) (s : FsState) (i : ℕ) : Bytes :=
  Bytes.clip v.inodeSize fun k => block v s (slotBlock v L i) (slotOffset v i + k)

/-- The inode on disk. -/
def inodeOf (v : Ext4) (L : Layout) (s : FsState) (i : ℕ) : Inode := v.parseInode i (slot v L s i)

section Inodes

variable (hv : GeometryOk v) (hL : LayoutOk v L) {i j : ℕ}

include hv in
theorem IsInode.group_lt (hi : IsInode v i) : (i - 1) / v.ipg < v.numGroups := by
  obtain ⟨hpos, hle⟩ := hi
  rw [hv.inodes] at hle
  rw [Nat.div_lt_iff_lt_mul hv.ipg_pos, Nat.mul_comm]
  omega

include hv in
theorem slotOffset_le (i : ℕ) : slotOffset v i + v.inodeSize ≤ v.bs := by
  apply slot_inside _ hv.bs_pos
  obtain h | h | h := hv.bs <;> obtain h' | h' := hv.inodeSize <;> rw [h, h']

include hv hL in
theorem role_slotBlock (hi : IsInode v i) :
    L.role (slotBlock v L i) = .inodeTable ((i - 1) / v.ipg) := by
  apply hL.inodeTable _ (hi.group_lt hv)
  have hmod := Nat.mod_lt (i - 1) hv.ipg_pos
  have hpos : 0 < v.inodeSize := by
    have := hv.inodeSize
    omega
  have hlt : (i - 1) % v.ipg * v.inodeSize < v.ipg * v.inodeSize :=
    Nat.mul_lt_mul_of_pos_right hmod hpos
  have hbs := hv.bs_pos
  rw [itBlocks, Nat.div_lt_iff_lt_mul hbs]
  have hceil := Nat.lt_div_mul_add (a := v.ipg * v.inodeSize + v.bs - 1) hbs
  omega

include hv hL in
theorem slotBlock_lt (hi : IsInode v i) : slotBlock v L i < v.blocksTotal := by
  refine (hL.range _ ?_).2
  rw [role_slotBlock hv hL hi]
  exact fun h => nomatch h

include hv hL in
/-- Where an inode is. -/
theorem inodeLocation_ok (hp : PlacedAt v L s) (hi : IsInode v i) :
    inodeLocation v i s = (.ok (slotBlock v L i, slotOffset v i), s) := by
  have hg := hi.group_lt hv
  have hlt := slotBlock_lt hv hL hi
  have hbs := hv.bs_pos
  have hle := hv.bs_le
  have hblocks := hv.blocks
  have hoff := slotOffset_le hv i
  have hdiv : (L.inodeTable ((i - 1) / v.ipg) * v.bs + (i - 1) % v.ipg * v.inodeSize) / v.bs =
      slotBlock v L i := by
    rw [Nat.mul_comm _ v.bs, Nat.mul_add_div hbs, slotBlock]
  have hmod : (L.inodeTable ((i - 1) / v.ipg) * v.bs + (i - 1) % v.ipg * v.inodeSize) % v.bs =
      slotOffset v i := by
    rw [Nat.mul_comm _ v.bs, Nat.mul_add_mod, slotOffset]
  have hbyte : ¬2 ^ 64 ≤ L.inodeTable ((i - 1) / v.ipg) * v.bs + (i - 1) % v.ipg * v.inodeSize := by
    have hsplit := Nat.div_add_mod
      (L.inodeTable ((i - 1) / v.ipg) * v.bs + (i - 1) % v.ipg * v.inodeSize) v.bs
    rw [hdiv, hmod] at hsplit
    have hbig : v.bs * slotBlock v L i ≤ 4096 * 2 ^ 48 := Nat.mul_le_mul hle (by omega)
    unfold maxBlockSize at hle
    omega
  rw [inodeLocation, if_neg (Nat.ne_of_gt hi.1), Prog.bind_ok (groupDescriptor_ok hv hL hg),
    (hp _ hg).2.2, if_neg hbyte, hdiv, hmod]
  rfl

theorem clip_fields (v : Ext4) (hv : GeometryOk v) (raw : Bytes) {a n : ℕ} (h : a + n ≤ 128) :
    (raw.clip v.inodeSize).getLE a n = raw.getLE a n := by
  apply Bytes.getLE_clip
  have := hv.inodeSize
  omega

include hv in
theorem parseInode_clip (raw : Bytes) :
    v.parseInode i (raw.clip v.inodeSize) = v.parseInode i raw := by
  simp only [Ext4.parseInode, clip_fields v hv raw (by omega : 0x00 + 2 ≤ 128),
    clip_fields v hv raw (by omega : 0x04 + 4 ≤ 128),
    clip_fields v hv raw (by omega : 0x6C + 4 ≤ 128),
    clip_fields v hv raw (by omega : 0x1C + 4 ≤ 128),
    clip_fields v hv raw (by omega : 0x74 + 4 ≤ 128),
    clip_fields v hv raw (by omega : 0x20 + 4 ≤ 128), Bytes.clip_clip]

include hv hL in
/-- SOURCE: ext4.rs:574-599 -/
theorem readInode_ok (hp : PlacedAt v L s) (hi : IsInode v i) :
    readInode v i s = (.ok (inodeOf v L s i), s) := by
  have hoff := slotOffset_le hv i
  have hle := hv.bs_le
  rw [readInode, Prog.bind_ok (inodeLocation_ok hv hL hp hi)]
  dsimp only
  rw [Prog.bind_ok (readFsb_ok hv (slotBlock_lt hv hL hi)), Prog.bind_ok (sliceBuf_ok (by omega)),
    inodeOf, slot, parseInode_clip hv]
  rfl

include hv hL in
omit hL in
/-- In a slot of 128 or 256 bytes the checksum has its place. -/
theorem tailOutside_ok (raw : Bytes) : v.tailOutside raw = false := by
  unfold Ext4.tailOutside goodOldInodeSize
  obtain h | h := hv.inodeSize <;> rw [h]
  · simp
  · cases v.fitsHi raw <;> simp

include hv hL in
/-- SOURCE: ext4.rs:601-649 -/
theorem writeInode_ok {inode : Inode} (hp : PlacedAt v L s) (hi : IsInode v inode.ino) :
    writeInode v inode s = (.ok (), setBlock v s (slotBlock v L inode.ino)
      ((block v s (slotBlock v L inode.ino)).blit (slotOffset v inode.ino) v.inodeSize
        (v.encodeInode inode))) := by
  have hoff := slotOffset_le hv inode.ino
  have hle := hv.bs_le
  have hlt := slotBlock_lt hv hL hi
  rw [writeInode, Prog.bind_ok (inodeLocation_ok hv hL hp hi)]
  dsimp only
  rw [Prog.bind_ok (readFsb_ok hv hlt), tailOutside_ok hv]
  exact (Prog.bind_ok (sliceBuf_ok (by omega))).trans (writeFsb_ok hv hlt)

/-- An inode outside the volume is not read. -/
theorem readInode_outside (hi : ¬IsInode v i) (hv : GeometryOk v) (hgt : i ≠ 0) :
    readInode v i s = (.error (.error .corrupt), s) := by
  have hg : v.numGroups ≤ (i - 1) / v.ipg := by
    rw [Nat.le_div_iff_mul_le hv.ipg_pos, Nat.mul_comm, ← hv.inodes]
    unfold IsInode at hi
    omega
  have hgd : groupDescriptor v ((i - 1) / v.ipg) s = (.error (.error .corrupt), s) := by
    rw [groupDescriptor, if_pos hg]
    rfl
  have hloc : inodeLocation v i s = (.error (.error .corrupt), s) := by
    rw [inodeLocation, if_neg hgt, Prog.bind_error hgd]
  rw [readInode, Prog.bind_error hloc]

/-- A number that is no inode number is refused. -/
theorem readInode_refused (hv : GeometryOk v) (hi : ¬IsInode v i) :
    ∃ e, readInode v i s = (.error e, s) := by
  by_cases hzero : i = 0
  · subst hzero
    exact ⟨.fault .overflow, rfl⟩
  · exact ⟨_, readInode_outside hi hv hzero⟩

include hv hL in
/-- What writing one inode does to the inodes on disk. -/
theorem slot_setBlock {raw : Bytes} (hi : IsInode v i) (hj : IsInode v j) :
    slot v L (setBlock v s (slotBlock v L i)
        ((block v s (slotBlock v L i)).blit (slotOffset v i) v.inodeSize raw)) j =
      if j = i then raw.clip v.inodeSize else slot v L s j := by
  have hoff := slotOffset_le hv i
  have hoff' := slotOffset_le hv j
  unfold slot
  by_cases hblock : slotBlock v L j = slotBlock v L i
  · have hgroup : (j - 1) / v.ipg = (i - 1) / v.ipg := by
      have hrole := role_slotBlock hv hL hj
      rw [hblock, role_slotBlock hv hL hi] at hrole
      exact (Role.inodeTable.inj hrole).symm
    rw [hblock, block_setBlock_self]
    by_cases hji : j = i
    · subst hji
      rw [if_pos rfl]
      apply Bytes.clip_congr
      intro k hk
      rw [Bytes.clip_inside (by omega), Bytes.blit_inside (by omega) (by omega),
        Nat.add_sub_cancel_left]
    · have hidx : (j - 1) % v.ipg ≠ (i - 1) % v.ipg := by
        intro hmod
        have h₁ := Nat.div_add_mod (j - 1) v.ipg
        have h₂ := Nat.div_add_mod (i - 1) v.ipg
        rw [hgroup, hmod] at h₁
        have hpos := hi.1
        have hpos' := hj.1
        omega
      have hapart := slot_apart (n := v.inodeSize) (m := v.bs) hidx (by
        unfold slotBlock at hblock
        rw [hgroup] at hblock
        omega)
      rw [if_neg hji]
      apply Bytes.clip_congr
      intro k hk
      rw [Bytes.clip_inside (by omega), Bytes.blit_outside (by unfold slotOffset; omega)]
  · have hji : j ≠ i := by
      rintro rfl
      exact hblock rfl
    rw [if_neg hji, block_setBlock_ne hblock]

end Inodes

/-! ## Routines that only read -/

theorem reads_readFsb (v : Ext4) (fsb : ℕ) : Prog.Reads (readFsb v fsb) :=
  (Prog.reads_fail _).ite ((Prog.reads_fail _).ite fun _ => rfl)

theorem reads_sliceBuf (buf : Bytes) (off n : ℕ) : Prog.Reads (sliceBuf buf off n) :=
  (Prog.reads_pure _).ite (Prog.reads_fail _)

theorem reads_groupDescriptor (v : Ext4) (g : ℕ) : Prog.Reads (groupDescriptor v g) :=
  (Prog.reads_fail _).ite ((reads_readFsb v _).bind fun _ => reads_sliceBuf _ _ _)

theorem reads_inodeLocation (v : Ext4) (ino : ℕ) : Prog.Reads (inodeLocation v ino) :=
  (Prog.reads_fail _).ite ((reads_groupDescriptor v _).bind fun _ =>
    (Prog.reads_fail _).ite (Prog.reads_pure _))

theorem reads_readInode (v : Ext4) (ino : ℕ) : Prog.Reads (readInode v ino) :=
  (reads_inodeLocation v ino).bind fun _ => (reads_readFsb v _).bind fun _ =>
    (reads_sliceBuf _ _ _).bind fun _ => Prog.reads_pure _

/-! ## A sample -/

/-- A volume of blocks of 1024 bytes, with eight inodes in each of its groups. -/
def sampleVolume (groups bpg blocks : ℕ) : Ext4 where
  sectors := 2 * blocks
  bs := 1024
  bpg := bpg
  ipg := 8
  inodeSize := 128
  descSize := 32
  numGroups := groups
  firstDataBlock := 1
  gdtFsb := 2
  reservedGdtBlocks := 0
  csumSeed := 0
  metaCsum := false
  has64bit := false
  blocksTotal := blocks
  inodesTotal := 8 * groups

/-- The superblock of such a volume. -/
def sampleSuper (inodes blocks bpg incompat : ℕ) : Bytes :=
  let sb := ((Bytes.putLE (fun _ => 0) 0x00 4 inodes).putLE 0x04 4 blocks).putLE 0x14 4 1
  let sb := ((sb.putLE 0x20 4 bpg).putLE 0x28 4 8).putLE 0x38 2 0xEF53
  Bytes.clip 0x64 (((sb.putLE 0x4C 4 1).putLE 0x58 2 128).putLE 0x60 4 incompat)

/-- One group, with its inode bitmap and its inode table in the given blocks. -/
def oneGroupLayout (bitmap table : ℕ) : Layout where
  blockBitmap _ := 3
  inodeBitmap _ := bitmap
  inodeTable _ := table
  role b :=
    if b = 1 then .super else if b = 2 then .groupTable else if b = 3 then .blockBitmap 0
    else if b = bitmap then .inodeBitmap 0 else if b = table then .inodeTable 0 else .data

/-- The inode bitmap is among the data blocks. -/
def sampleLayout : Layout := oneGroupLayout 10 4

variable {bitmap table : ℕ}

theorem role_oneGroup (h : (oneGroupLayout bitmap table).role b ≠ .data) :
    b ∈ [1, 2, 3, bitmap, table] := by
  by_contra hb
  simp only [List.mem_cons, List.not_mem_nil, or_false, not_or] at hb
  exact h (by simp only [oneGroupLayout, hb, if_false])

theorem layoutOk_oneGroup (hsuper : v.sblockFsb = 1) (hgroups : v.numGroups = 1)
    (htable : v.gdBlock 0 = 2) (hblocks : itBlocks v = 1) (hfirst : v.firstDataBlock = 1)
    (hlow : 3 < bitmap ∧ 3 < table) (hne : table ≠ bitmap)
    (htotal : bitmap < v.blocksTotal ∧ table < v.blocksTotal) :
    LayoutOk v (oneGroupLayout bitmap table) := by
  have hone : ∀ g < v.numGroups, g = 0 := fun g hg => by omega
  refine ⟨by rw [hsuper]; rfl, fun g hg => ?_, fun g hg => ?_, fun g hg => ?_, fun g hg k hk => ?_,
    fun b hb => ?_⟩
  · rw [hone g hg, htable]
    rfl
  · rw [hone g hg]
    rfl
  · rw [hone g hg]
    simp only [oneGroupLayout, show bitmap ≠ 1 by omega, show bitmap ≠ 2 by omega,
      show bitmap ≠ 3 by omega, if_false, if_true]
  · rw [hblocks, Nat.lt_one_iff] at hk
    simp only [oneGroupLayout, hone g hg, hk, Nat.add_zero, hne, show table ≠ 1 by omega,
      show table ≠ 2 by omega, show table ≠ 3 by omega, if_false, if_true]
  · have hmem := role_oneGroup hb
    simp only [List.mem_cons, List.not_mem_nil, or_false] at hmem
    omega

end Pinx.Analysis
