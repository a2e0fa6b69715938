import Pinx.Model.Ext4

/-!
# Disks, partitions and sectors

The way a block of the file system takes to the disk: `ext4.rs` makes a sector of the
partition of it, `gpt.rs` a sector of the disk, and `ahci.rs` a command for the controller.
What the controller makes of a command is not up to the driver: it may refuse it, fail it
after part of the transfer, or complete it.
-/

namespace Pinx.Model

open Pinx.Foundation

/-- SOURCE: block.rs:8-15 -/
inductive BlockError where
  | io
  | noSpace
  | notFound
  | corrupt
  | unsupported
deriving DecidableEq, Repr

/-- How a transfer ends without a result: with an error value, or not at all. -/
inductive BlockFail where
  | error (e : BlockError)
  | fault (f : Fault)
deriving DecidableEq, Repr

/-! ## The controller -/

/-- A registered disk.
SOURCE: ahci.rs:60-66 -/
structure AhciDevice where
  present : Bool
  sectors : ℕ

/-- A command as the registers of the controller have it: 48 bits of address and 16 of count.
SOURCE: ahci.rs:300-314 -/
structure Command where
  disk : ℕ
  write : Bool
  lba : ℕ
  count : ℕ
deriving DecidableEq, Repr

/-- What the controller makes of a command.  A write that fails leaves something in the sectors. -/
inductive Answer where
  | refuses
  | fails (left : Bytes)
  | completes

/-- The disks and the controller: the registered disks, the bytes on them, the commands issued so
far, and what the controller makes of the next ones. -/
structure Bus where
  devices : List AhciDevice
  content : ℕ → Bytes
  issued : List Command
  answers : ℕ → Answer
  turn : ℕ

/-- A routine of the storage stack. -/
abbrev Io := Prog Bus BlockFail

/-- SOURCE: ahci.rs:40-45 -/
def maxTransfer : ℕ := 64 * 0x1000
def sectorMax : ℕ := maxTransfer / 512

/-- The bus after a command was issued, with what it left on the disk. -/
def Bus.issue (bus : Bus) (cmd : Command) (left : Bytes) : Bus where
  devices := bus.devices
  content := fun disk =>
    if cmd.write ∧ disk = cmd.disk then (bus.content disk).blit (cmd.lba * 512) (cmd.count * 512) left
    else bus.content disk
  issued := cmd :: bus.issued
  answers := bus.answers
  turn := bus.turn + 1

/-- The sectors a command names. -/
def Bus.sectorsOf (bus : Bus) (cmd : Command) : Bytes :=
  Bytes.clip (cmd.count * 512) fun k => bus.content cmd.disk (cmd.lba * 512 + k)

/-- One transfer: the bytes read, or those written.
SOURCE: ahci.rs:225-350 -/
def xfer (disk : ℕ) (write : Bool) (lba len : ℕ) (buf : Bytes) : Io (Option Bytes) := fun bus =>
  if len = 0 ∨ len % 512 ≠ 0 ∨ maxTransfer < len then (.ok none, bus)
  else if sectorMax < len / 512 then (.ok none, bus)
  else
    let cmd : Command := ⟨disk, write, lba % 2 ^ 48, len / 512 % 2 ^ 16⟩
    match bus.answers bus.turn with
    | .refuses => (.ok none, { bus with turn := bus.turn + 1 })
    | .fails left => (.ok none, bus.issue cmd left)
    | .completes => (.ok (some (if write then buf else bus.sectorsOf cmd)), bus.issue cmd buf)

/-- SOURCE: ahci.rs:517-525 -/
def Bus.device (bus : Bus) (disk : ℕ) : Option AhciDevice :=
  match bus.devices[disk]? with
  | some dev => if dev.present then some dev else none
  | none => none

/-- A transfer that is checked against the size of the disk.
SOURCE: ahci.rs:527-553 -/
def ahciTransfer (disk : ℕ) (write : Bool) (lba len : ℕ) (buf : Bytes) : Io (Option Bytes) := fun bus =>
  match bus.device disk with
  | none => (.ok none, bus)
  | some dev =>
    if 2 ^ 48 ≤ lba ∨ dev.sectors < lba + len / 512 then (.ok none, bus)
    else xfer disk write lba len buf bus

/-- SOURCE: ahci.rs:527-539 -/
def ahciRead (disk lba len : ℕ) : Io (Option Bytes) := ahciTransfer disk false lba len fun _ => 0

/-- SOURCE: ahci.rs:541-553 -/
def ahciWrite (disk lba len : ℕ) (buf : Bytes) : Io (Option Bytes) :=
  ahciTransfer disk true lba len buf

/-! ## Partitions -/

/-- SOURCE: gpt.rs:14-22 -/
structure GptPartition where
  disk : ℕ
  startLba : ℕ
  lastLba : ℕ
  typeGuid : List UInt8
  guid : List UInt8
  name : List UInt8
deriving DecidableEq, Repr

/-- What `detect` remembers of a disk.
SOURCE: gpt.rs:33-40 -/
structure GptDisk where
  parsed : Bool
  partCount : ℕ
  entriesLba : ℕ
  numEntries : ℕ
  entrySize : ℕ
  parts : List GptPartition
deriving DecidableEq, Repr

/-- SOURCE: gpt.rs:42 -/
def maxPartitions : ℕ := 16

/-- SOURCE: gpt.rs:45-52, 129-136 -/
def emptyPartition (disk : ℕ) : GptPartition :=
  ⟨disk, 0, 0, List.replicate 16 0, List.replicate 16 0, List.replicate 72 0⟩

/-- `GPT_DISKS` before the first call of `detect`.
SOURCE: gpt.rs:44-62 -/
def gptDisks : Vector GptDisk 8 :=
  .replicate 8 ⟨false, 0, 0, 0, 0, List.replicate maxPartitions (emptyPartition 0)⟩

/-- SOURCE: gpt.rs:64-66 -/
def gptCrc (data : List UInt8) : ℕ := crc32 0xFFFFFFFF data ^^^ 0xFFFFFFFF

/-- `b"EFI PART"` -/
def gptSignature : List UInt8 := [0x45, 0x46, 0x49, 0x20, 0x50, 0x41, 0x52, 0x54]

/-- The bounds check of `&buf[a..b]` for a buffer of `len` bytes. -/
def checkSlice (len a b : ℕ) : Except BlockFail Unit :=
  if a ≤ b ∧ b ≤ len then .ok () else .error (.fault .outOfBounds)

/-- The name in an entry, as far as the entry goes.
SOURCE: gpt.rs:180-185 -/
def entryName (entrySize : ℕ) (e : Bytes) : Except BlockFail (List UInt8) :=
  let nameLen := min (entrySize - 56) 72
  if 0 < nameLen then do
    checkSlice entrySize 56 (56 + nameLen)
    return e.slice 56 nameLen ++ List.replicate (72 - nameLen) 0
  else .ok (List.replicate 72 0)

/-- One entry of the table: an unused one, one with a bad range and those after the sixteenth are
passed over.
SOURCE: gpt.rs:161-187 -/
def addEntry (disk entrySize : ℕ) (e : Bytes) (parts : List GptPartition) :
    Except BlockFail (List GptPartition) := do
  checkSlice entrySize 0 16
  if (e.slice 0 16).all (· == 0) then return parts
  else
    checkSlice entrySize 32 40
    checkSlice entrySize 40 48
    let start := e.getLE 32 8
    let last := e.getLE 40 8
    if start = 0 ∨ last < start ∨ maxPartitions ≤ parts.length then return parts
    else
      checkSlice entrySize 16 32
      let name ← entryName entrySize e
      return parts ++ [⟨disk, start, last, e.slice 0 16, e.slice 16 16, name⟩]

/-- The entries of one sector, `n` of them from `slot` on.
SOURCE: gpt.rs:153-187 -/
def scanSlots (disk : ℕ) (esec : Bytes) (entrySize numEntries : ℕ) :
    ℕ → ℕ → ℕ → List GptPartition → Except BlockFail (ℕ × List GptPartition)
  | 0, _, index, parts => .ok (index, parts)
  | n + 1, slot, index, parts =>
    if numEntries ≤ index then .ok (index, parts)
    else do
      let off := slot * entrySize
      checkSlice 512 off (off + entrySize)
      let parts ← addEntry disk entrySize (fun k => esec (off + k)) parts
      scanSlots disk esec entrySize numEntries n (slot + 1) (index + 1) parts

/-- The sectors of the table, `n` of them from sector `s` on, with their checksum.
SOURCE: gpt.rs:146-188 -/
def scanEntries (disk entriesLba entriesBytes entrySize numEntries : ℕ) :
    ℕ → ℕ → ℕ → ℕ → List GptPartition → Io (Option (ℕ × List GptPartition))
  | 0, _, crc, _, parts => pure (some (crc, parts))
  | n + 1, s, crc, index, parts =>
    if 2 ^ 64 ≤ entriesLba + s then Prog.fail (.fault .overflow)
    else do
      match ← ahciRead disk (entriesLba + s) 512 with
      | none => return none
      | some esec =>
        if entriesBytes < s * 512 then Prog.fail (.fault .overflow)
        else do
          let remaining := min (entriesBytes - s * 512) 512
          let (index, parts) ←
            Prog.lift (scanSlots disk esec entrySize numEntries (512 / entrySize) 0 index parts)
          scanEntries disk entriesLba entriesBytes entrySize numEntries n (s + 1)
            (crc32 crc (esec.slice 0 remaining)) index parts

/-- The table as it is stored, if the checksum over its entries is right.
SOURCE: gpt.rs:190-202 -/
def finishTable (disk : ℕ) (sector : Bytes) :
    Option (ℕ × List GptPartition) → Io (Option GptDisk)
  | none => pure none
  | some (crc, parts) =>
    if crc ^^^ 0xFFFFFFFF ≠ sector.getLE 88 4 then pure none
    else pure (some ⟨true, parts.length, sector.getLE 72 8, sector.getLE 80 4, sector.getLE 84 4,
      parts ++ List.replicate (maxPartitions - parts.length) (emptyPartition disk)⟩)

/-- The table behind a header, if both are valid.
SOURCE: gpt.rs:95-202 -/
def parseTable (disk : ℕ) (sector : Bytes) : Io (Option GptDisk) :=
  let headerSize := sector.getLE 12 4
  let entriesLba := sector.getLE 72 8
  let numEntries := sector.getLE 80 4
  let entrySize := sector.getLE 84 4
  if sector.slice 0 8 ≠ gptSignature then pure none
  else if headerSize < 92 ∨ numEntries = 0 ∨ entrySize < 128 then pure none
  else do
    Prog.lift (checkSlice 512 0 headerSize)
    if gptCrc ((sector.putLE 16 4 0).slice 0 headerSize) ≠ sector.getLE 16 4 then return none
    else if entrySize = 0 ∨ 512 < entrySize ∨ 512 % entrySize ≠ 0 then return none
    else if 2 ^ 64 ≤ numEntries * entrySize then Prog.fail (.fault .overflow)
    else do
      let entriesBytes := numEntries * entrySize
      let found ← scanEntries disk entriesLba entriesBytes entrySize numEntries
        ((entriesBytes + 511) / 512) 0 0xFFFFFFFF 0 []
      finishTable disk sector found

/-- The valid table of a disk as `detect` stores it, if the disk has one.
SOURCE: gpt.rs:89-202 -/
def readTable (disk : ℕ) : Io (Option GptDisk) := do
  match ← ahciRead disk 1 512 with
  | none => return none
  | some sector => parseTable disk sector

/-- `detect`, with `GPT_DISKS` handed on.
SOURCE: gpt.rs:84-205 -/
def detectCached (disks : Vector GptDisk 8) (disk : ℕ) : Io (Bool × Vector GptDisk 8) :=
  if h : disk < 8 then do
    match ← readTable disk with
    | none => return (false, disks)
    | some table => return (true, disks.set disk table h)
  else pure (false, disks)

/-- SOURCE: gpt.rs:208-216 -/
def partitionCount (disks : Vector GptDisk 8) (disk : ℕ) : ℕ :=
  if h : disk < 8 then
    if disks[disk].parsed then disks[disk].partCount else 0
  else 0

/-- SOURCE: gpt.rs:219-227 -/
def partition (disks : Vector GptDisk 8) (disk index : ℕ) :
    Except BlockFail (Option GptPartition) :=
  if h : disk < 8 then
    if disks[disk].parsed = false ∨ disks[disk].partCount ≤ index then .ok none
    else
      match disks[disk].parts[index]? with
      | some part => .ok (some part)
      | none => .error (.fault .outOfBounds)
  else .ok none

/-- The partitions of a disk, if it has a valid table.
SOURCE: gpt.rs:84-205 -/
def detect (disk : ℕ) : Io (Option (List GptPartition)) :=
  if 8 ≤ disk then pure none
  else do
    match ← readTable disk with
    | none => return none
    | some table => return some (table.parts.take table.partCount)

/-- SOURCE: gpt.rs:230-232 -/
def GptPartition.blockCount (part : GptPartition) : Except BlockFail ℕ :=
  if part.lastLba < part.startLba ∨ 2 ^ 64 ≤ part.lastLba - part.startLba + 1 then
    .error (.fault .overflow)
  else .ok (part.lastLba - part.startLba + 1)

/-- A transfer inside a partition.
SOURCE: gpt.rs:238-266 -/
def partTransfer (part : GptPartition) (write : Bool) (lba len : ℕ) (buf : Bytes) : Io Bytes :=
  if len % 512 ≠ 0 then Prog.fail (.error .io)
  else if 2 ^ 64 ≤ lba + len / 512 then Prog.fail (.fault .overflow)
  else do
    let count ← Prog.lift part.blockCount
    if count < lba + len / 512 then Prog.fail (.error .io)
    else if 2 ^ 64 ≤ part.startLba + lba then Prog.fail (.fault .overflow)
    else do
      match ← ahciTransfer part.disk write (part.startLba + lba) len buf with
      | some data => return data
      | none => Prog.fail (.error .io)

/-- SOURCE: gpt.rs:238-251 -/
def readBlocks (part : GptPartition) (lba len : ℕ) : Io Bytes :=
  partTransfer part false lba len fun _ => 0

/-- SOURCE: gpt.rs:253-266 -/
def writeBlocks (part : GptPartition) (lba len : ℕ) (buf : Bytes) : Io Unit := do
  let _ ← partTransfer part true lba len buf
  return ()

/-! ## Blocks of the file system -/

/-- SOURCE: ext4.rs:181-189 -/
def mapBlockErr : BlockFail → FsFail
  | .error .io => .error .io
  | .error .noSpace => .error .noSpace
  | .error .notFound => .error .notFound
  | .error .corrupt => .error .corrupt
  | .error .unsupported => .error .unsupported
  | .fault f => .fault f

/-- SOURCE: ext4.rs:446-448 -/
def fsbLba (bs fsb : ℕ) : Except BlockFail ℕ :=
  if 2 ^ 64 ≤ fsb * bs then .error (.fault .overflow) else .ok (fsb * bs / 512)

/-- SOURCE: ext4.rs:458-462 -/
def readBlockOf (part : GptPartition) (bs fsb : ℕ) : Io Bytes := do
  readBlocks part (← Prog.lift (fsbLba bs fsb)) bs

/-- SOURCE: ext4.rs:464-468 -/
def writeBlockOf (part : GptPartition) (bs fsb : ℕ) (buf : Bytes) : Io Unit := do
  writeBlocks part (← Prog.lift (fsbLba bs fsb)) bs buf

end Pinx.Model
