import Pinx.Analysis.Ext4Layout
import Pinx.Analysis.GptTable

/-!
# The way of a block to the disk

Each layer scales or shifts the number it is given and checks the sum it has computed.  For a
partition of the table no sum wraps but the first product: a block number whose bytes do not
fit in 64 bits stops the machine.  Every other transfer either ends with an error or is one
command for exactly the sectors of the block, inside the partition and inside the disk.  The
blocks the file system sees are these sectors.
-/

namespace Pinx.Analysis

open Pinx.Foundation Pinx.Model

variable {disk bs fsb lba len : ℕ} {part : GptPartition} {parts parts' : List GptPartition}
  {bus bus' : Bus} {buf : Bytes} {write : Bool}

/-! ## Partitions of the table -/

/-- A table that is found is that of the disk. -/
theorem readTable_of_detect (h : detect disk bus = (.ok (some parts), bus')) :
    disk < 8 ∧ parts = tablePartitions disk (bus.content disk) ∧
      readTable disk bus = (.ok (some (gptTable disk (bus.content disk))), bus') := by
  unfold detect at h
  split at h
  · cases h
  rename_i hdisk
  obtain ⟨r, bus₁, hread, hrest⟩ := Prog.bind_eq_ok.mp h
  cases r with
  | none => cases hrest
  | some table =>
    cases hrest
    obtain rfl := readTable_some hread
    exact ⟨not_le.mp hdisk, gptTable_parts_take disk _, hread⟩

/-- The partitions found are those `partition` returns afterwards. -/
theorem detect_partition (disks : Vector GptDisk 8) (h : detect disk bus = (.ok (some parts), bus')) :
    ∃ disks', detectCached disks disk bus = (.ok (true, disks'), bus') ∧
      partitionCount disks' disk = parts.length ∧
      ∀ index, partition disks' disk index = .ok parts[index]? := by
  obtain ⟨hdisk, rfl, hread⟩ := readTable_of_detect h
  have htable : (disks.set disk (gptTable disk (bus.content disk)))[disk] =
      gptTable disk (bus.content disk) := Vector.getElem_set_self hdisk
  exact ⟨_, detectCached_some hdisk hread, partitionCount_table hdisk htable,
    partition_table hdisk htable⟩

theorem detect_accepted (h : detect disk bus = (.ok (some parts), bus')) :
    ∀ part ∈ parts, Accepted disk part := by
  obtain ⟨-, rfl, -⟩ := readTable_of_detect h
  exact fun part => tablePartitions_accepted

/-! ## One transfer -/

/-- How a transfer ends: nothing was done, the command failed, or it is done. -/
inductive Transfer (cmd : Command) (buf : Bytes) (bus : Bus) : Option Bytes → Bus → Prop
  | refused {bus' : Bus} (hissued : bus'.issued = bus.issued) : Transfer cmd buf bus none bus'
  | failed (left : Bytes) : Transfer cmd buf bus none (bus.issue cmd left)
  | done : Transfer cmd buf bus (some (if cmd.write then buf else bus.sectorsOf cmd))
      (bus.issue cmd buf)

/-- The registers hold what they are given. -/
theorem xfer_ends (write : Bool) (buf : Bytes) (bus : Bus) (hlba : lba < 2 ^ 48) :
    ∃ r bus', xfer disk write lba len buf bus = (.ok r, bus') ∧
      Transfer ⟨disk, write, lba, len / 512⟩ buf bus r bus' := by
  unfold xfer
  split
  · exact ⟨_, _, rfl, .refused rfl⟩
  · split
    · exact ⟨_, _, rfl, .refused rfl⟩
    · rename_i hmax
      have hcount : len / 512 % 2 ^ 16 = len / 512 := by
        unfold sectorMax maxTransfer at hmax
        omega
      rw [Nat.mod_eq_of_lt hlba, hcount]
      cases bus.answers bus.turn with
      | refuses => exact ⟨_, _, rfl, .refused rfl⟩
      | fails left => exact ⟨_, _, rfl, .failed left⟩
      | completes => exact ⟨_, _, rfl, .done⟩

/-- A transfer that is not refused is inside the disk. -/
theorem ahciTransfer_ends (disk : ℕ) (write : Bool) (lba len : ℕ) (buf : Bytes) (bus : Bus) :
    ∃ r bus', ahciTransfer disk write lba len buf bus = (.ok r, bus') ∧
      (r = none ∧ bus' = bus ∨
        (∃ dev, bus.device disk = some dev ∧ lba + len / 512 ≤ dev.sectors) ∧
          Transfer ⟨disk, write, lba, len / 512⟩ buf bus r bus') := by
  unfold ahciTransfer
  cases hdev : bus.device disk with
  | none => exact ⟨_, _, rfl, Or.inl ⟨rfl, rfl⟩⟩
  | some dev =>
    dsimp only
    split
    · exact ⟨_, _, rfl, Or.inl ⟨rfl, rfl⟩⟩
    · rename_i hrange
      rw [not_or, not_le, not_lt] at hrange
      obtain ⟨r, bus', hrun, hends⟩ := xfer_ends write buf bus hrange.1
      exact ⟨r, bus', hrun, Or.inr ⟨⟨dev, rfl, hrange.2⟩, hends⟩⟩

/-- The sectors of a block are in the partition and on the disk. -/
def InBounds (part : GptPartition) (bs fsb : ℕ) (bus : Bus) : Prop :=
  part.startLba + fsb * bs / 512 + bs / 512 ≤ part.lastLba + 1 ∧
    ∃ dev, bus.device part.disk = some dev ∧
      part.startLba + fsb * bs / 512 + bs / 512 ≤ dev.sectors

/-- The one command for the sectors of a block. -/
def blockCommand (part : GptPartition) (write : Bool) (bs fsb : ℕ) : Command :=
  ⟨part.disk, write, part.startLba + fsb * bs / 512, bs / 512⟩

/-- A transfer of a block does not stop the machine.  It issues no command and ends with an error,
or issues one for exactly the sectors of the block. -/
def ExactAccess {α : Type} (part : GptPartition) (write : Bool) (bs fsb : ℕ) (bus : Bus)
    (r : Except BlockFail α × Bus) : Prop :=
  (∀ f, r.1 ≠ .error (.fault f)) ∧
    (r.2.issued = bus.issued ∧ (∃ e, r.1 = .error (.error e)) ∨
      r.2.issued = blockCommand part write bs fsb :: bus.issued ∧ InBounds part bs fsb bus)

/-- A block size the driver mounts. -/
def BlockSize (bs : ℕ) : Prop := bs = 1024 ∨ bs = 2048 ∨ bs = 4096

theorem BlockSize.sectors (h : BlockSize bs) : bs / 512 * 512 = bs ∧ 2 ≤ bs / 512 ∧ bs / 512 ≤ 8 := by
  unfold BlockSize at h
  omega

section Block

variable (hpart : Accepted disk part) (hbs : BlockSize bs) (hfit : fsb * bs < 2 ^ 64)
include hpart hbs hfit

/-- SOURCE: gpt.rs:238-266 -/
theorem partTransfer_exact (write : Bool) (buf : Bytes) (bus : Bus) :
    ExactAccess part write bs fsb bus (partTransfer part write (fsb * bs / 512) bs buf bus) := by
  obtain ⟨-, hpos, hle, hlast⟩ := hpart
  have hsize := hbs.sectors
  have hcount : part.blockCount = .ok (part.lastLba - part.startLba + 1) := by
    unfold GptPartition.blockCount
    rw [if_neg (by omega)]
  unfold partTransfer
  rw [if_neg (by omega), if_neg (by omega), hcount,
    Prog.bind_ok (Prog.lift_apply _ _), Prog.ite_apply]
  split
  · exact ⟨fun f h => (nomatch h), Or.inl ⟨rfl, _, rfl⟩⟩
  · rename_i hin
    rw [if_neg (by omega)]
    obtain ⟨r, bus', hrun, hends⟩ := ahciTransfer_ends part.disk write
      (part.startLba + fsb * bs / 512) bs buf bus
    rw [Prog.bind_ok hrun]
    rcases hends with ⟨rfl, rfl⟩ | ⟨hdev, hends⟩
    · exact ⟨fun f h => (nomatch h), Or.inl ⟨rfl, _, rfl⟩⟩
    · have hbounds : InBounds part bs fsb bus := ⟨by omega, hdev⟩
      cases hends with
      | refused hissued => exact ⟨fun f h => (nomatch h), Or.inl ⟨hissued, _, rfl⟩⟩
      | failed left => exact ⟨fun f h => (nomatch h), Or.inr ⟨rfl, hbounds⟩⟩
      | done => exact ⟨fun f h => (nomatch h), Or.inr ⟨rfl, hbounds⟩⟩

theorem readBlockOf_exact (bus : Bus) :
    ExactAccess part false bs fsb bus (readBlockOf part bs fsb bus) := by
  unfold readBlockOf fsbLba
  rw [if_neg (not_le.mpr hfit), Prog.bind_ok (Prog.lift_apply _ _)]
  exact partTransfer_exact hpart hbs hfit false _ bus

theorem writeBlockOf_exact (buf : Bytes) (bus : Bus) :
    ExactAccess part true bs fsb bus (writeBlockOf part bs fsb buf bus) := by
  have hexact := partTransfer_exact hpart hbs hfit true buf bus
  unfold writeBlockOf fsbLba writeBlocks
  rw [if_neg (not_le.mpr hfit), Prog.bind_ok (Prog.lift_apply _ _), Prog.bind_apply]
  generalize partTransfer part true (fsb * bs / 512) bs buf bus = r at hexact ⊢
  obtain ⟨r | r, bus'⟩ := r
  · obtain ⟨hfault, hends⟩ := hexact
    refine ⟨fun f h => ?_, hends.imp_left fun ⟨hissued, e, he⟩ => ⟨hissued, e, ?_⟩⟩
    · cases h
      exact hfault f rfl
    · cases he
      rfl
  · obtain ⟨-, ⟨-, e, he⟩ | hends⟩ := hexact
    · cases he
    · exact ⟨fun f h => (nomatch h), Or.inr hends⟩

end Block

/-- A block number whose bytes do not fit in 64 bits stops the machine. -/
theorem readBlockOf_wraps (part : GptPartition) (hwrap : 2 ^ 64 ≤ fsb * bs) (bus : Bus) :
    readBlockOf part bs fsb bus = (.error (.fault .overflow), bus) := by
  unfold readBlockOf fsbLba
  rw [if_pos hwrap, Prog.bind_error (Prog.lift_apply _ _)]

/-- For a partition of the table, a block is reached exactly if its first byte has a 64-bit
number. -/
theorem block_access_exact_iff {bus₀ bus₁ : Bus} (hdetect : detect disk bus₀ = (.ok (some parts), bus₁))
    (hpart : part ∈ parts) (hbs : BlockSize bs) (fsb : ℕ) (buf : Bytes) (bus : Bus) :
    (ExactAccess part false bs fsb bus (readBlockOf part bs fsb bus) ∧
      ExactAccess part true bs fsb bus (writeBlockOf part bs fsb buf bus)) ↔ fsb * bs < 2 ^ 64 := by
  have haccepted : Accepted disk part := detect_accepted hdetect part hpart
  constructor
  · rintro ⟨⟨hfault, -⟩, -⟩
    by_contra hwrap
    exact hfault .overflow (congrArg Prod.fst (readBlockOf_wraps part (not_lt.mp hwrap) bus))
  · intro hfit
    exact ⟨readBlockOf_exact haccepted hbs hfit bus, writeBlockOf_exact haccepted hbs hfit buf bus⟩

theorem detect_table :
    detect 0 tableBus = (.ok (some [tablePartition]), (detect 0 tableBus).2) := by
  have hparts : (detect 0 tableBus).1 = .ok (some [tablePartition]) := by decide +kernel
  rw [← hparts]

theorem block_access_exact_table :
    ExactAccess tablePartition false 1024 7 tableBus (readBlockOf tablePartition 1024 7 tableBus) ∧
      ExactAccess tablePartition true 1024 7 tableBus
        (writeBlockOf tablePartition 1024 7 (fun _ => 1) tableBus) :=
  (block_access_exact_iff detect_table (List.mem_singleton.mpr rfl) (Or.inl rfl) 7 _ tableBus).mpr
    (by omega)

/-- Block 2 ^ 54 of blocks of 1024 bytes. -/
theorem block_access_overflows :
    detect 0 tableBus = (.ok (some [tablePartition]), (detect 0 tableBus).2) ∧
      (readBlockOf tablePartition 1024 (2 ^ 54) tableBus).1 = .error (.fault .overflow) ∧
        ¬ExactAccess tablePartition false 1024 (2 ^ 54) tableBus
          (readBlockOf tablePartition 1024 (2 ^ 54) tableBus) := by
  have hrun := readBlockOf_wraps tablePartition
    (show 2 ^ 64 ≤ 2 ^ 54 * 1024 by omega) tableBus
  refine ⟨detect_table, congrArg Prod.fst hrun, fun h => ?_⟩
  exact h.1 .overflow (congrArg Prod.fst hrun)

/-! ## The blocks of the file system -/

/-- A partition that is on its disk, and a controller that completes every command. -/
structure Serves (part : GptPartition) (bus : Bus) : Prop where
  start : part.startLba ≤ part.lastLba
  lba : part.lastLba < 2 ^ 48
  disk : ∃ dev, bus.device part.disk = some dev ∧ part.lastLba < dev.sectors
  completes : ∀ n, bus.answers n = .completes

/-- The sectors of a partition. -/
def partSectors (part : GptPartition) : ℕ := part.lastLba - part.startLba + 1

theorem Serves.blockCount (h : Serves part bus) : part.blockCount = .ok (partSectors part) := by
  have hle := h.start
  have hlba := h.lba
  unfold GptPartition.blockCount
  rw [if_neg (by omega)]
  rfl

theorem Serves.issue (h : Serves part bus) (cmd : Command) (left : Bytes) :
    Serves part (bus.issue cmd left) :=
  ⟨h.start, h.lba, h.disk, h.completes⟩

/-- Sectors past the end of the partition. -/
theorem Serves.transfer_out (h : Serves part bus) (hlen : len % 512 = 0) (hfit : lba + len / 512 < 2 ^ 64)
    (hout : partSectors part < lba + len / 512) (write : Bool) (buf : Bytes) :
    partTransfer part write lba len buf bus = (.error (.error .io), bus) := by
  unfold partTransfer
  rw [if_neg (by omega), if_neg (by omega), Prog.bind_ok (by rw [h.blockCount, Prog.lift_apply]),
    if_pos hout, Prog.fail_apply]

/-- Sectors of the partition. -/
theorem Serves.transfer_in (h : Serves part bus) (hlen : len % 512 = 0) (hpos : 0 < len)
    (hmax : len ≤ maxTransfer) (hin : lba + len / 512 ≤ partSectors part) (write : Bool) (buf : Bytes) :
    partTransfer part write lba len buf bus =
      (.ok (if write then buf else bus.sectorsOf ⟨part.disk, write, part.startLba + lba, len / 512⟩),
        bus.issue ⟨part.disk, write, part.startLba + lba, len / 512⟩ buf) := by
  have hstart := h.start
  have hlba := h.lba
  have hcount := h.blockCount
  obtain ⟨dev, hdev, hlast⟩ := h.disk
  unfold partSectors at hin hcount
  have hsmall : ¬sectorMax < len / 512 ∧ len / 512 < 2 ^ 16 := by
    unfold sectorMax maxTransfer at *
    omega
  have htransfer : ahciTransfer part.disk write (part.startLba + lba) len buf bus =
      (.ok (some (if write then buf
        else bus.sectorsOf ⟨part.disk, write, part.startLba + lba, len / 512⟩)),
        bus.issue ⟨part.disk, write, part.startLba + lba, len / 512⟩ buf) := by
    unfold ahciTransfer xfer
    rw [hdev]
    dsimp only
    rw [if_neg (by omega), if_neg (by omega), if_neg hsmall.1, h.completes]
    rw [Nat.mod_eq_of_lt hsmall.2, Nat.mod_eq_of_lt (show part.startLba + lba < 2 ^ 48 by omega)]
  unfold partTransfer
  rw [if_neg (by omega), if_neg (by omega), hcount, Prog.bind_ok (Prog.lift_apply _ _),
    if_neg (by omega), if_neg (by omega), Prog.bind_ok htransfer]
  rfl

/-- The blocks of a volume are the sectors of a partition. -/
structure OnPartition (v : Ext4) (part : GptPartition) (bus : Bus) (s : FsState) : Prop
    extends Serves part bus where
  size : BlockSize v.bs
  sectors : v.sectors = partSectors part
  blocks : ∀ b k, k < v.bs → v.fsbLba b + v.bs / 512 ≤ v.sectors →
    s.disk b k = bus.content part.disk (part.startLba * 512 + b * v.bs + k)

section Refinement

variable {v : Ext4} {s : FsState}

/-- The first byte of a block's first sector. -/
theorem BlockSize.first_byte (h : BlockSize bs) (start b : ℕ) :
    (start + b * bs / 512) * 512 = start * 512 + b * bs := by
  have hdiv : b * bs / 512 * 512 = b * bs := by
    refine Nat.div_mul_cancel (Dvd.dvd.mul_left ?_ b)
    exact ⟨bs / 512, by rw [Nat.mul_comm, h.sectors.1]⟩
  rw [Nat.add_mul, hdiv]

/-- A block past the end of the partition. -/
theorem OnPartition.partTransfer_out (h : OnPartition v part bus s) (hfit : fsb * v.bs < 2 ^ 64)
    (hout : v.sectors < v.fsbLba fsb + v.bs / 512) (write : Bool) (buf : Bytes) :
    partTransfer part write (fsb * v.bs / 512) v.bs buf bus = (.error (.error .io), bus) := by
  have hsize := h.size.sectors
  rw [h.sectors, Ext4.fsbLba] at hout
  exact h.toServes.transfer_out (by omega) (by omega) hout write buf

/-- A block of the partition. -/
theorem OnPartition.partTransfer_in (h : OnPartition v part bus s)
    (hin : v.fsbLba fsb + v.bs / 512 ≤ v.sectors) (write : Bool) (buf : Bytes) :
    partTransfer part write (fsb * v.bs / 512) v.bs buf bus =
      (.ok (if write then buf else bus.sectorsOf (blockCommand part write v.bs fsb)),
        bus.issue (blockCommand part write v.bs fsb) buf) := by
  have hsize := h.size.sectors
  rw [h.sectors] at hin
  exact h.toServes.transfer_in (by omega) (by omega) (by unfold maxTransfer; omega) hin write buf

/-- Reading a block of the volume is reading its sectors. -/
theorem readBlockOf_refines (h : OnPartition v part bus s) (fsb : ℕ) :
    ∃ r bus', readBlockOf part v.bs fsb bus = (r, bus') ∧
      readFsb v fsb s = (r.mapError mapBlockErr, s) ∧ OnPartition v part bus' s := by
  by_cases hfit : fsb * v.bs < 2 ^ 64
  · have hrun : readBlockOf part v.bs fsb bus =
        partTransfer part false (fsb * v.bs / 512) v.bs (fun _ => 0) bus := by
      unfold readBlockOf fsbLba
      rw [if_neg (not_le.mpr hfit), Prog.bind_ok (Prog.lift_apply _ _)]
      rfl
    unfold readFsb
    rw [hrun, if_neg (not_le.mpr hfit)]
    by_cases hin : v.fsbLba fsb + v.bs / 512 ≤ v.sectors
    · rw [h.partTransfer_in hin, if_neg (not_lt.mpr hin)]
      refine ⟨_, _, rfl, ?_, ⟨h.toServes.issue _ _, h.size, h.sectors, h.blocks⟩⟩
      rw [Prog.read_apply]
      refine congrArg (fun bytes => (Except.ok bytes, s)) ?_
      change Bytes.clip v.bs (s.disk fsb) = Bytes.clip (v.bs / 512 * 512) fun k =>
        bus.content part.disk ((part.startLba + fsb * v.bs / 512) * 512 + k)
      rw [h.size.sectors.1, h.size.first_byte]
      exact Bytes.clip_congr fun k hk => h.blocks fsb k hk hin
    · rw [h.partTransfer_out hfit (not_le.mp hin), if_pos (not_le.mp hin)]
      exact ⟨_, _, rfl, rfl, h⟩
  · refine ⟨_, _, readBlockOf_wraps part (not_lt.mp hfit) bus, ?_, h⟩
    unfold readFsb
    rw [if_pos (not_lt.mp hfit)]
    rfl

/-- Writing a block of the volume is writing its sectors. -/
theorem writeBlockOf_refines (h : OnPartition v part bus s) (fsb : ℕ) (buf : Bytes) :
    ∃ r bus' s', writeBlockOf part v.bs fsb buf bus = (r, bus') ∧
      writeFsb v fsb buf s = (r.mapError mapBlockErr, s') ∧ OnPartition v part bus' s' := by
  unfold writeBlockOf fsbLba writeBlocks writeFsb
  by_cases hfit : fsb * v.bs < 2 ^ 64
  · rw [if_neg (not_le.mpr hfit), if_neg (not_le.mpr hfit), Prog.bind_ok (Prog.lift_apply _ _)]
    by_cases hin : v.fsbLba fsb + v.bs / 512 ≤ v.sectors
    · rw [Prog.bind_ok (h.partTransfer_in hin true buf), if_neg (not_lt.mpr hin)]
      refine ⟨_, _, _, rfl, rfl, ⟨h.toServes.issue _ _, h.size, h.sectors, fun b k hk hb => ?_⟩⟩
      change (Function.update s.disk fsb (buf.clip v.bs)) b k =
        (if true ∧ part.disk = part.disk then (bus.content part.disk).blit
          ((part.startLba + fsb * v.bs / 512) * 512) (v.bs / 512 * 512) buf else bus.content part.disk)
          (part.startLba * 512 + b * v.bs + k)
      rw [if_pos ⟨rfl, rfl⟩, h.size.sectors.1, h.size.first_byte]
      rcases lt_trichotomy b fsb with hlt | rfl | hgt
      · have hstep : (b + 1) * v.bs ≤ fsb * v.bs := Nat.mul_le_mul_right _ hlt
        rw [Nat.add_mul, Nat.one_mul] at hstep
        rw [Function.update_of_ne (Nat.ne_of_lt hlt), Bytes.blit_outside (Or.inl (by omega))]
        exact h.blocks b k hk hb
      · rw [Function.update_self, Bytes.clip_inside hk, Bytes.blit_inside (by omega) (by omega),
          Nat.add_sub_cancel_left]
      · have hstep : (fsb + 1) * v.bs ≤ b * v.bs := Nat.mul_le_mul_right _ hgt
        rw [Nat.add_mul, Nat.one_mul] at hstep
        rw [Function.update_of_ne (Nat.ne_of_gt hgt), Bytes.blit_outside (Or.inr (by omega))]
        exact h.blocks b k hk hb
    · rw [Prog.bind_error (h.partTransfer_out hfit (not_le.mp hin) true buf), if_pos (not_le.mp hin)]
      exact ⟨_, _, _, rfl, rfl, h⟩
  · rw [if_pos (not_lt.mp hfit), if_pos (not_lt.mp hfit), Prog.bind_error (Prog.lift_apply _ _)]
    exact ⟨_, _, _, rfl, rfl, h⟩

end Refinement

end Pinx.Analysis
