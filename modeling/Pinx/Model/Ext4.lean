import Mathlib.Logic.Function.Basic
import Pinx.Foundation.Bytes
import Pinx.Foundation.Fault
import Pinx.Foundation.Prog
import Pinx.Model.Crc

/-!
# ext4: the volume, its metadata and allocation

The device is seen in blocks of the file system: `read_fsb` and `write_fsb` move whole
blocks, and nothing else touches the device after the mount.  A buffer is 4096 bytes
long and zero past the block.  Accesses past the end of the device are the I/O errors
of this model.

A slice bound past the end of a buffer panics, and so does an overflowing sum.
-/

namespace Pinx.Model

open Pinx.Foundation

/-- SOURCE: ext4.rs:107-116 -/
inductive FsError where
  | io
  | noSpace
  | notFound
  | alreadyExists
  | corrupt
  | readOnly
  | unsupported
  | invalid
deriving DecidableEq, Repr

/-- How a call ends without a result: with an error value, or not at all. -/
inductive FsFail where
  | error (e : FsError)
  | fault (f : Fault)
deriving DecidableEq, Repr

/-- The fields of a mounted volume that no call changes, and the size of the device in
sectors.
SOURCE: ext4.rs:267-287 -/
structure Ext4 where
  sectors : ℕ
  bs : ℕ
  bpg : ℕ
  ipg : ℕ
  inodeSize : ℕ
  descSize : ℕ
  numGroups : ℕ
  firstDataBlock : ℕ
  gdtFsb : ℕ
  reservedGdtBlocks : ℕ
  csumSeed : ℕ
  metaCsum : Bool
  has64bit : Bool
  blocksTotal : ℕ
  inodesTotal : ℕ
deriving DecidableEq, Repr

/-- What calls change: the blocks of the device and the two running counts. -/
structure FsState where
  disk : ℕ → Bytes
  freeBlocks : ℕ
  freeInodes : ℕ

/-- A routine of the driver. -/
abbrev Fs := Prog FsState FsFail

section Primitives

variable {α : Type}

def failWith (e : FsError) : Fs α := Prog.fail (.error e)

def crash (f : Fault) : Fs α := Prog.fail (.fault f)

end Primitives

/-- SOURCE: ext4.rs:25-32 -/
def maxBlockSize : ℕ := 4096
def maxInodeSize : ℕ := 256
def goodOldInodeSize : ℕ := 128

/-! ## Blocks -/

variable (v : Ext4)

/-- SOURCE: ext4.rs:446-448 -/
def Ext4.fsbLba (fsb : ℕ) : ℕ := fsb * v.bs / 512

/-- SOURCE: ext4.rs:450-456 -/
def Ext4.sblockFsb : ℕ := if v.bs = 1024 then 1 else 0

/-- SOURCE: ext4.rs:458-462 -/
def readFsb (fsb : ℕ) : Fs Bytes :=
  if 2 ^ 64 ≤ fsb * v.bs then crash .overflow
  else if v.sectors < v.fsbLba fsb + v.bs / 512 then failWith .io
  else Prog.read fun s => (s.disk fsb).clip v.bs

/-- SOURCE: ext4.rs:464-468 -/
def writeFsb (fsb : ℕ) (buf : Bytes) : Fs Unit :=
  if 2 ^ 64 ≤ fsb * v.bs then crash .overflow
  else if v.sectors < v.fsbLba fsb + v.bs / 512 then failWith .io
  else Prog.modify fun s => { s with disk := Function.update s.disk fsb (buf.clip v.bs) }

/-- `&buf[off..off + n]` for a buffer of `maxBlockSize` bytes. -/
def sliceBuf (buf : Bytes) (off n : ℕ) : Fs Bytes :=
  if off + n ≤ maxBlockSize then pure fun k => buf (off + k) else crash .outOfBounds

/-! ## Group descriptors -/

/-- The block and the offset of a group's descriptor.
SOURCE: ext4.rs:485-487, 493-495 -/
def Ext4.gdBlock (group : ℕ) : ℕ := (v.gdtFsb * v.bs + group * v.descSize) / v.bs
def Ext4.gdOffset (group : ℕ) : ℕ := (v.gdtFsb * v.bs + group * v.descSize) % v.bs

/-- The descriptor of a group.
SOURCE: ext4.rs:481-490, with the slice every caller takes -/
def groupDescriptor (group : ℕ) : Fs Bytes :=
  if v.numGroups ≤ group then failWith .corrupt
  else do
    let buf ← readFsb v (v.gdBlock group)
    sliceBuf buf (v.gdOffset group) v.descSize

/-- SOURCE: ext4.rs:492-500 -/
def pushGroup (group : ℕ) (gd : Bytes) : Fs Unit := do
  let buf ← readFsb v (v.gdBlock group)
  let _ ← sliceBuf buf (v.gdOffset group) v.descSize
  writeFsb v (v.gdBlock group) (buf.blit (v.gdOffset group) v.descSize gd)

/-- The checksum of a descriptor, its own field left out.
SOURCE: ext4.rs:515-521 -/
def Ext4.groupCsum (group : ℕ) (d : Bytes) : ℕ :=
  let crc := crc32c v.csumSeed (Bytes.slice (fun k => UInt8.ofNat (group / 256 ^ k)) 0 4)
  let crc := crc32c crc (d.slice 0 0x1E)
  let crc := crc32c crc [0, 0]
  if 0x20 < v.descSize then crc32c crc (d.slice 0x20 (v.descSize - 0x20)) else crc

/-- SOURCE: ext4.rs:504-525 -/
def withGroup (group : ℕ) (f : Bytes → Bytes) : Fs Unit := do
  let gd ← groupDescriptor v group
  let gd := f (gd.clip v.descSize)
  let gd := if v.metaCsum then gd.putLE 0x1E 2 (v.groupCsum group gd) else gd
  pushGroup v group gd

/-- SOURCE: ext4.rs:527-533 -/
def Ext4.gdU32 (gd : Bytes) (lo hi : ℕ) : ℕ :=
  gd.getLE lo 4 + if v.has64bit ∧ hi < v.descSize then gd.getLE hi 4 * 2 ^ 32 else 0

/-- SOURCE: ext4.rs:535-541 -/
def Ext4.gdU16 (gd : Bytes) (lo hi : ℕ) : ℕ :=
  gd.getLE lo 2 + if v.has64bit ∧ hi < v.descSize then gd.getLE hi 2 * 2 ^ 16 else 0

/-- The three locations a descriptor holds.
SOURCE: ext4.rs:65-67, 75-77 -/
def Ext4.gdBlockBitmap (gd : Bytes) : ℕ := v.gdU32 gd 0x00 0x20
def Ext4.gdInodeBitmap (gd : Bytes) : ℕ := v.gdU32 gd 0x04 0x24
def Ext4.gdInodeTable (gd : Bytes) : ℕ := v.gdU32 gd 0x08 0x28

/-- `(n as i64 + d).max(0) as u64`. -/
def addCount (n : ℕ) (d : ℤ) : Except FsFail ℕ :=
  let x : ℤ := (if n < 2 ^ 63 then (n : ℤ) else n - 2 ^ 64) + d
  if x < -2 ^ 63 ∨ 2 ^ 63 ≤ x then .error (.fault .overflow) else .ok (max x 0).toNat

/-- The superblock with both counts and the checksum that goes with them.
SOURCE: ext4.rs:549-557 -/
def Ext4.superCounts (freeBlocks freeInodes : ℕ) (sb : Bytes) : Bytes :=
  let sb := sb.putLE 0x0C 4 freeBlocks
  let sb := sb.putLE 0x10 4 freeInodes
  let sb := if v.has64bit then sb.putLE 0x158 4 (freeBlocks / 2 ^ 32) else sb
  if v.metaCsum then sb.putLE 0x3FC 4 (crc32c 0xFFFFFFFF (sb.slice 0 0x3FC)) else sb

/-- SOURCE: ext4.rs:543-559 -/
def persistSuperCounts (dblk dino : ℤ) : Fs Unit := do
  let freeBlocks ← Prog.read FsState.freeBlocks
  let freeBlocks ← Prog.lift (addCount freeBlocks dblk)
  Prog.modify fun s => { s with freeBlocks := freeBlocks }
  let freeInodes ← Prog.read FsState.freeInodes
  let freeInodes ← Prog.lift (addCount freeInodes dino)
  Prog.modify fun s => { s with freeInodes := freeInodes }
  let sb ← readFsb v v.sblockFsb
  writeFsb v v.sblockFsb (v.superCounts freeBlocks freeInodes sb)

/-! ## Inodes -/

/-- SOURCE: ext4.rs:140-147 -/
structure Inode where
  ino : ℕ
  mode : ℕ
  size : ℕ
  blocks : ℕ
  flags : ℕ
  raw : Bytes

/-- SOURCE: ext4.rs:150-155 -/
def Inode.isDir (inode : Inode) : Bool := inode.mode &&& 0xF000 == 0x4000
def Inode.isFile (inode : Inode) : Bool := inode.mode &&& 0xF000 == 0x8000

/-- The generation an inode carries. -/
def Inode.gen (inode : Inode) : ℕ := inode.raw.getLE 0x64 4

/-- The block and the offset an inode is at.
SOURCE: ext4.rs:563-572 -/
def inodeLocation (ino : ℕ) : Fs (ℕ × ℕ) :=
  if ino = 0 then crash .overflow
  else do
    let gd ← groupDescriptor v ((ino - 1) / v.ipg)
    let byte := v.gdInodeTable gd * v.bs + (ino - 1) % v.ipg * v.inodeSize
    if 2 ^ 64 ≤ byte then crash .overflow else pure (byte / v.bs, byte % v.bs)

/-- The inode in a slot of the inode table.
SOURCE: ext4.rs:580-598 -/
def Ext4.parseInode (ino : ℕ) (raw : Bytes) : Inode where
  ino := ino
  mode := raw.getLE 0x00 2
  size := raw.getLE 0x04 4 + if v.has64bit then raw.getLE 0x6C 4 * 2 ^ 32 else 0
  blocks := raw.getLE 0x1C 4 + if v.has64bit then raw.getLE 0x74 4 * 2 ^ 32 else 0
  flags := raw.getLE 0x20 4
  raw := raw.clip v.inodeSize

/-- SOURCE: ext4.rs:574-599 -/
def readInode (ino : ℕ) : Fs Inode := do
  let (block, off) ← inodeLocation v ino
  let buf ← readFsb v block
  let raw ← sliceBuf buf off v.inodeSize
  return v.parseInode ino raw

/-- `crc32c` of the inode number and the generation, from the seed of the volume. -/
def Ext4.inodeSeed (ino gen : ℕ) : ℕ :=
  let seed := crc32c v.csumSeed (Bytes.slice (fun k => UInt8.ofNat (ino / 256 ^ k)) 0 4)
  crc32c seed (Bytes.slice (fun k => UInt8.ofNat (gen / 256 ^ k)) 0 4)

/-- Whether the inode has room for the upper half of its checksum.
SOURCE: ext4.rs:621-622 -/
def Ext4.fitsHi (raw : Bytes) : Bool :=
  decide (goodOldInodeSize < v.inodeSize) && decide (4 ≤ raw.getLE 0x80 2)

/-- The checksum of an inode, its own fields left out.
SOURCE: ext4.rs:616-638 -/
def Ext4.inodeCsum (ino : ℕ) (raw : Bytes) : ℕ :=
  let csum := v.inodeSeed ino (raw.getLE 0x64 4)
  let csum := crc32c csum (raw.slice 0 0x7C)
  let csum := crc32c csum [0, 0]
  let csum := crc32c csum (raw.slice 0x7E 2)
  if goodOldInodeSize < v.inodeSize then
    let csum := crc32c csum (raw.slice 0x80 2)
    if v.fitsHi raw then crc32c (crc32c csum [0, 0]) (raw.slice 0x84 (v.inodeSize - 0x84))
    else crc32c csum (raw.slice 0x82 (v.inodeSize - 0x82))
  else csum

/-- The bytes `write_inode` stores.
SOURCE: ext4.rs:606-644 -/
def Ext4.encodeInode (inode : Inode) : Bytes :=
  let raw := inode.raw.putLE 0x00 2 inode.mode
  let raw := raw.putLE 0x04 4 inode.size
  let raw := raw.putLE 0x1C 4 inode.blocks
  let raw := raw.putLE 0x20 4 inode.flags
  let raw := if v.has64bit then
    (raw.putLE 0x6C 4 (inode.size / 2 ^ 32)).putLE 0x74 4 (inode.blocks / 2 ^ 32) else raw
  if v.metaCsum then
    let csum := v.inodeCsum inode.ino raw
    let stamped := raw.putLE 0x7C 2 csum
    if v.fitsHi raw then stamped.putLE 0x82 2 (csum / 2 ^ 16) else stamped
  else raw

/-- Whether the slice behind the upper half of the checksum starts past the end of the inode.  The
fields written before do not reach the two bytes `fitsHi` looks at.
SOURCE: ext4.rs:628-637 -/
def Ext4.tailOutside (raw : Bytes) : Bool :=
  v.metaCsum && decide (goodOldInodeSize < v.inodeSize) &&
    decide (v.inodeSize < if v.fitsHi raw then 0x84 else 0x82)

/-- SOURCE: ext4.rs:601-649 -/
def writeInode (inode : Inode) : Fs Unit := do
  let (block, off) ← inodeLocation v inode.ino
  let buf ← readFsb v block
  if v.tailOutside inode.raw then crash .outOfBounds
  else do
    let _ ← sliceBuf buf off v.inodeSize
    writeFsb v block (buf.blit off v.inodeSize (v.encodeInode inode))

/-! ## Allocation -/

/-- SOURCE: ext4.rs:653-662 -/
def readBitmap (group : ℕ) (wantInode : Bool) : Fs ℕ := do
  let gd ← groupDescriptor v group
  return if wantInode then v.gdInodeBitmap gd else v.gdBlockBitmap gd

/-- SOURCE: ext4.rs:681-684 -/
def Ext4.itBlocks : ℕ := (v.inodesTotal / v.numGroups * v.inodeSize + v.bs - 1) / v.bs

/-- What `block_reserved` decides from the descriptor.
SOURCE: ext4.rs:677-687 -/
def Ext4.reservedBy (gd : Bytes) (fsb : ℕ) : Bool :=
  let it := v.gdInodeTable gd
  fsb == v.gdBlockBitmap gd || fsb == v.gdInodeBitmap gd ||
    (decide (it ≤ fsb) && decide (fsb < it + v.itBlocks))

/-- The end of the inode table is only computed for a block behind its start.
SOURCE: ext4.rs:685 -/
def Ext4.tableEndOverflows (gd : Bytes) (fsb : ℕ) : Bool :=
  let it := v.gdInodeTable gd
  fsb != v.gdBlockBitmap gd && fsb != v.gdInodeBitmap gd && decide (it ≤ fsb) &&
    decide (2 ^ 64 ≤ it + v.itBlocks)

/-- The end of the descriptors and the blocks reserved for more of them.
SOURCE: ext4.rs:666-669 -/
def Ext4.reservedEnd : ℕ :=
  v.gdtFsb + (v.numGroups * v.descSize + v.bs - 1) / v.bs + v.reservedGdtBlocks

/-- A block of a descriptor that cannot be read counts as reserved.
SOURCE: ext4.rs:664-692 -/
def blockReserved (group fsb : ℕ) : Fs Bool :=
  if group = 0 ∧ fsb < v.reservedEnd then pure true
  else Prog.handle (do
      let gd ← groupDescriptor v group
      if v.tableEndOverflows gd fsb then crash .overflow else return v.reservedBy gd fsb) fun
    | .error _ => .ok true
    | .fault f => .error (.fault f)

/-- The bits of one group's bitmap, `n` of them from bit `idx` on.  The source skips a
byte of eight set bits at once.
SOURCE: ext4.rs:705-735 -/
def allocScan (wantInode : Bool) (group bitmapFsb : ℕ) (bm : Bytes) : ℕ → ℕ → Fs (Option ℕ)
  | 0, _ => pure none
  | n + 1, idx =>
    if maxBlockSize * 8 ≤ idx then crash .outOfBounds
    else if bm.testBit idx then allocScan wantInode group bitmapFsb bm n (idx + 1)
    else if wantInode then do
      writeFsb v bitmapFsb (bm.setBit idx)
      return some (group * v.ipg + idx + 1)
    else
      let fsb := v.firstDataBlock + group * v.bpg + idx
      if v.blocksTotal ≤ fsb then allocScan wantInode group bitmapFsb bm n (idx + 1)
      else do
        if ← blockReserved v group fsb then allocScan wantInode group bitmapFsb bm n (idx + 1)
        else do
          writeFsb v bitmapFsb (bm.setBit idx)
          return some fsb

/-- The groups, `n` of them from `group` on.
SOURCE: ext4.rs:696-740 -/
def allocGroups (wantInode : Bool) : ℕ → ℕ → Fs ℕ
  | 0, _ => failWith .noSpace
  | n + 1, group => do
    let bitmapFsb ← readBitmap v group wantInode
    let bm ← readFsb v bitmapFsb
    let units := if wantInode then v.ipg else v.bpg
    match ← allocScan v wantInode group bitmapFsb bm (units / 8 * 8) 0 with
    | some unit => return unit
    | none => allocGroups wantInode n (group + 1)

/-- SOURCE: ext4.rs:696-740 -/
def allocBit (wantInode : Bool) : Fs ℕ := allocGroups v wantInode v.numGroups 0

/-- A value kept in two 16-bit halves, the upper one only in 64-bit descriptors. -/
def putSplit (desc64 : Bool) (gd : Bytes) (lo hi value : ℕ) : Bytes :=
  let gd := gd.putLE lo 2 value
  if desc64 then gd.putLE hi 2 (value / 2 ^ 16) else gd

/-- Add to a count kept in two halves.
SOURCE: ext4.rs:748-754, 756-762, 764-772 -/
def bumpCount (desc64 : Bool) (gd : Bytes) (lo hi : ℕ) (d : ℤ) : Bytes :=
  let count := gd.getLE lo 2 + if desc64 then gd.getLE hi 2 * 2 ^ 16 else 0
  putSplit desc64 gd lo hi (((count : ℤ) + d) % 2 ^ 32).toNat

/-- A new bitmap checksum, if there is one.
SOURCE: ext4.rs:774-785 -/
def putSum (desc64 : Bool) (gd : Bytes) (lo hi : ℕ) : Option ℕ → Bytes
  | some c => putSplit desc64 gd lo hi c
  | none => gd

/-- A new count of inodes never used, if there is one.
SOURCE: ext4.rs:787-792 -/
def putUnused (desc64 : Bool) (gd : Bytes) : Option ℕ → Bytes
  | some u => if desc64 then (gd.putLE 0x1C 2 u).putLE 0x32 2 0 else gd.putLE 0x1C 2 u
  | none => gd

/-- What an allocation changes in its group's descriptor.
SOURCE: ext4.rs:747-792 -/
def commitGd (desc64 : Bool) (dblk dino ddir : ℤ) (bb ib itu : Option ℕ) (gd : Bytes) : Bytes :=
  let gd := bumpCount desc64 gd 0x0C 0x2C dblk
  let gd := bumpCount desc64 gd 0x0E 0x2E dino
  let gd := if ddir ≠ 0 then bumpCount desc64 gd 0x10 0x30 ddir else gd
  let gd := putSum desc64 gd 0x18 0x38 bb
  let gd := putSum desc64 gd 0x1A 0x3A ib
  putUnused desc64 gd itu

/-- SOURCE: ext4.rs:742-797 -/
def commitAlloc (group : ℕ) (dblk dino ddir : ℤ) (bb ib itu : Option ℕ) : Fs Unit := do
  withGroup v group (commitGd v.has64bit dblk dino ddir bb ib itu)
  persistSuperCounts v dblk dino

/-- The checksum of the first `n` bytes of a bitmap. -/
def Ext4.bitmapCsum (bm : Bytes) (n : ℕ) : ℕ :=
  if v.metaCsum then crc32c v.csumSeed (bm.slice 0 n) else 0

/-- The slice is only taken where there are checksums.
SOURCE: ext4.rs:805-809, 820-824 -/
def checksumBitmap (bm : Bytes) (n : ℕ) : Fs ℕ :=
  if v.metaCsum ∧ maxBlockSize < n then crash .outOfBounds else pure (v.bitmapCsum bm n)

/-- SOURCE: ext4.rs:799-812 -/
def allocBlock : Fs ℕ := do
  let fsb ← allocBit v false
  let group := (fsb - v.firstDataBlock) / v.bpg
  let bmFsb ← readBitmap v group false
  let bm ← readFsb v bmFsb
  let bb ← checksumBitmap v bm (v.bpg / 8)
  commitAlloc v group (-1) 0 0 (some bb) none none
  return fsb

/-- SOURCE: ext4.rs:814-848 -/
def allocInode (isDir : Bool) : Fs ℕ := do
  let ino ← allocBit v true
  let ino := ino % 2 ^ 32
  if ino = 0 then crash .overflow
  else do
    let group := (ino - 1) / v.ipg
    let index := (ino - 1) % v.ipg
    let bmFsb ← readBitmap v group true
    let bm ← readFsb v bmFsb
    let ib ← checksumBitmap v bm (v.ipg / 8)
    let gd ← groupDescriptor v group
    let current := v.gdU16 gd 0x1C 0x32
    let newUnused := min current (v.ipg - index - 1)
    commitAlloc v group 0 (-1) (if isDir then 1 else 0) none (some ib) (some newUnused)
    return ino

end Pinx.Model
