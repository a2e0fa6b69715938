import Pinx.Model.Ext4

/-!
# ext4: the mount

`mount` reads the superblock at byte 1024, learns the block size from it, and reads the block
it takes the superblock to be in once more if the blocks are larger than 1024 bytes.  All other
fields come from the buffer that is there then.
-/

namespace Pinx.Model

open Pinx.Foundation

/-- A device: the size of its sectors, their number, and its bytes. -/
structure Device where
  blockSize : ℕ
  sectors : ℕ
  bytes : Bytes

/-- `len` bytes from the start of a sector on.
SOURCE: gpt.rs:238-251 -/
def Device.readBlocks (dev : Device) (lba len : ℕ) : Except FsFail Bytes :=
  if dev.sectors < lba + len / 512 then .error (.error .io)
  else .ok (Bytes.clip len fun k => dev.bytes (lba * 512 + k))

/-- The device in blocks of `bs` bytes. -/
def Device.state (dev : Device) (bs freeBlocks freeInodes : ℕ) : FsState where
  disk b k := dev.bytes (b * bs + k)
  freeBlocks := freeBlocks
  freeInodes := freeInodes

/-- SOURCE: ext4.rs:23, 32-39 -/
def ext4Magic : ℕ := 0xEF53
def incompatFiletype : ℕ := 0x0002
def incompatExtents : ℕ := 0x0040
def incompat64bit : ℕ := 0x0080
def incompatFlexBg : ℕ := 0x0200
def incompatCsumSeed : ℕ := 0x2000
def roCompatMetadataCsum : ℕ := 0x0400
def roCompatReject : ℕ := 0x1000

/-- A feature word has a bit of this mask. -/
def hasBit (features mask : ℕ) : Bool := features &&& mask != 0

/-- The features the driver knows. -/
def incompatKnown : ℕ :=
  incompatFiletype ||| incompatExtents ||| incompat64bit ||| incompatFlexBg ||| incompatCsumSeed

/-- SOURCE: ext4.rs:41-62 -/
def sbInodeSize (sb : Bytes) : ℕ := max (sb.getLE 0x58 2) goodOldInodeSize
def sbIncompat (sb : Bytes) : ℕ := sb.getLE 0x60 4
def sbRoCompat (sb : Bytes) : ℕ := sb.getLE 0x64 4
def sbDescSize (sb : Bytes) : ℕ := if sb.getLE 0xFE 2 = 0 then 32 else sb.getLE 0xFE 2

/-- A 64-bit count in two halves, the upper one only with 64-bit block numbers.
SOURCE: ext4.rs:362-367 -/
def sbCount (has64bit : Bool) (sb : Bytes) (lo hi : ℕ) : ℕ :=
  sb.getLE lo 4 + if has64bit then sb.getLE hi 4 * 2 ^ 32 else 0

/-- The volume a superblock describes.
SOURCE: ext4.rs:322-412 -/
def volumeOf (sectors bs : ℕ) (sb : Bytes) : Ext4 where
  sectors := sectors
  bs := bs
  bpg := sb.getLE 0x20 4
  ipg := sb.getLE 0x28 4
  inodeSize := sbInodeSize sb
  descSize := sbDescSize sb
  numGroups :=
    (sbCount (hasBit (sbIncompat sb) incompat64bit) sb 0x04 0x150 + sb.getLE 0x20 4 - 1) /
      sb.getLE 0x20 4 % 2 ^ 32
  firstDataBlock := sb.getLE 0x14 4
  gdtFsb := sb.getLE 0x14 4 + 1
  reservedGdtBlocks := sb.getLE 0xCE 2
  csumSeed :=
    if hasBit (sbIncompat sb) incompatCsumSeed then sb.getLE 0x270 4
    else crc32c 0xFFFFFFFF (sb.slice 0x68 16)
  metaCsum :=
    hasBit (sbRoCompat sb) roCompatMetadataCsum && hasBit (sbIncompat sb) incompatCsumSeed
  has64bit := hasBit (sbIncompat sb) incompat64bit
  blocksTotal := sbCount (hasBit (sbIncompat sb) incompat64bit) sb 0x04 0x150
  inodesTotal := sb.getLE 0x00 4

/-- The volume and the two counts, if the superblock is one the driver takes.
SOURCE: ext4.rs:322-413 -/
def readSuper (sectors bs : ℕ) (sb : Bytes) : Except FsFail (Ext4 × ℕ × ℕ) :=
  let v := volumeOf sectors bs sb
  if v.inodesTotal = 0 ∨ v.bpg = 0 ∨ v.ipg = 0 then .error (.error .corrupt)
  else if sb.getLE 0x4C 4 ≠ 1 then .error (.error .unsupported)
  else if maxInodeSize < v.inodeSize then .error (.error .unsupported)
  else if hasBit (sbIncompat sb) (0xFFFFFFFF ^^^ incompatKnown) then .error (.error .unsupported)
  else if hasBit (sbIncompat sb) incompatExtents = false ∨
      hasBit (sbIncompat sb) incompatFiletype = false then .error (.error .unsupported)
  else if hasBit (sbRoCompat sb) roCompatReject then .error (.error .unsupported)
  else if v.descSize < 32 ∨ v.has64bit ∧ v.descSize < 64 then .error (.error .corrupt)
  else if 2 ^ 64 ≤ v.blocksTotal + v.bpg then .error (.fault .overflow)
  else if v.metaCsum ∧ sb.getLE 0x3FC 4 ≠ crc32c 0xFFFFFFFF (sb.slice 0 0x3FC) then
    .error (.error .corrupt)
  else .ok (v, sbCount v.has64bit sb 0x0C 0x158, sb.getLE 0x10 4)

/-- The block size in a superblock.
SOURCE: ext4.rs:298-311 -/
def readBlockSize (sb : Bytes) : Except FsFail ℕ :=
  if sb.getLE 0x38 2 ≠ ext4Magic then .error (.error .corrupt)
  else if 2 < sb.getLE 0x18 4 then .error (.error .unsupported)
  else if sb.getLE 0x1C 4 ≠ sb.getLE 0x18 4 then .error (.error .unsupported)
  else .ok (1024 * 2 ^ sb.getLE 0x18 4)

/-- The buffer the other fields are taken from.
SOURCE: ext4.rs:313-320 -/
def readSuperBlock (dev : Device) (bs : ℕ) (sb : Bytes) : Except FsFail Bytes :=
  if bs = 1024 then .ok sb
  else do
    let sb ← dev.readBlocks 0 bs
    if sb.getLE 0x38 2 ≠ ext4Magic then .error (.error .corrupt) else .ok sb

/-- SOURCE: ext4.rs:290-413 -/
def mount (dev : Device) : Except FsFail (Ext4 × FsState) :=
  if dev.blockSize ≠ 512 then .error (.error .unsupported)
  else do
    let sb ← dev.readBlocks 2 1024
    let bs ← readBlockSize sb
    let sb ← readSuperBlock dev bs sb
    let (v, freeBlocks, freeInodes) ← readSuper dev.sectors bs sb
    return (v, dev.state bs freeBlocks freeInodes)

end Pinx.Model
