import Pinx.Analysis.MountChecks

/-!
# Programs over the block layer

What the file system does with a volume it does by reading and writing blocks, the next one
chosen by what the last one returned.  Every such program gets from the sectors of its
partition what an array of blocks would give it, and leaves all other sectors alone.  The
controller is one that completes what the command register says.
-/

namespace Pinx.Analysis

open Pinx.Foundation Pinx.Model

/-- A program that reads and writes blocks. -/
inductive BlockClient (α : Type)
  | done (a : α)
  | read (fsb : ℕ) (next : Except FsFail Bytes → BlockClient α)
  | write (fsb : ℕ) (buf : Bytes) (next : Except FsFail Unit → BlockClient α)

variable {α : Type} {v : Ext4} {s : FsState} {part : GptPartition} {bus : Bus}

/-- The program over the partition and the controller.
SOURCE: ext4.rs:458-468, gpt.rs:238-266, ahci.rs:527-553 -/
def BlockClient.onBus (part : GptPartition) (bs : ℕ) : BlockClient α → Bus → α × Bus
  | .done a, bus => (a, bus)
  | .read fsb next, bus =>
    (next ((readBlockOf part bs fsb bus).1.mapError mapBlockErr)).onBus part bs
      (readBlockOf part bs fsb bus).2
  | .write fsb buf next, bus =>
    (next ((writeBlockOf part bs fsb buf bus).1.mapError mapBlockErr)).onBus part bs
      (writeBlockOf part bs fsb buf bus).2

/-- The program over an array of blocks. -/
def BlockClient.onVolume (v : Ext4) : BlockClient α → FsState → α × FsState
  | .done a, s => (a, s)
  | .read fsb next, s => (next (readFsb v fsb s).1).onVolume v (readFsb v fsb s).2
  | .write fsb buf next, s => (next (writeFsb v fsb buf s).1).onVolume v (writeFsb v fsb buf s).2

/-- Every byte that is not on the partition. -/
def SameOutside (part : GptPartition) (bus bus' : Bus) : Prop :=
  ∀ disk x, disk ≠ part.disk ∨ x < part.startLba * 512 ∨ (part.lastLba + 1) * 512 ≤ x →
    bus'.content disk x = bus.content disk x

theorem OnPartition.transfer_outside (h : OnPartition v part bus s) {fsb : ℕ}
    (hfit : fsb * v.bs < 2 ^ 64) (write : Bool) (buf : Bytes) :
    SameOutside part bus (partTransfer part write (fsb * v.bs / 512) v.bs buf bus).2 := by
  intro disk x hx
  by_cases hin : v.fsbLba fsb + v.bs / 512 ≤ v.sectors
  · rw [h.partTransfer_in hin]
    dsimp only [Bus.issue, blockCommand]
    split
    · rename_i hdisk
      have hsectors := h.sectors
      have hstart := h.start
      unfold partSectors at hsectors
      unfold Ext4.fsbLba at hin
      have hend : part.startLba + fsb * v.bs / 512 + v.bs / 512 ≤ part.lastLba + 1 := by omega
      refine Bytes.blit_outside ((hx.resolve_left (not_not_intro hdisk.2)).imp ?_ ?_) <;> omega
    · rfl
  · rw [h.partTransfer_out hfit (not_le.mp hin)]

theorem OnPartition.outside (h : OnPartition v part bus s) (fsb : ℕ) (buf : Bytes) :
    SameOutside part bus (readBlockOf part v.bs fsb bus).2 ∧
      SameOutside part bus (writeBlockOf part v.bs fsb buf bus).2 := by
  unfold readBlockOf writeBlockOf writeBlocks fsbLba
  by_cases hfit : fsb * v.bs < 2 ^ 64
  · rw [if_neg (not_le.mpr hfit), Prog.bind_ok (Prog.lift_apply _ _),
      Prog.bind_ok (Prog.lift_apply _ _), Prog.bind_apply]
    have hwrite := h.transfer_outside hfit true buf
    refine ⟨h.transfer_outside hfit false _, ?_⟩
    generalize partTransfer part true (fsb * v.bs / 512) v.bs buf bus = r at hwrite ⊢
    obtain ⟨r | r, bus'⟩ := r <;> exact hwrite
  · rw [if_pos (not_lt.mp hfit), Prog.bind_error (Prog.lift_apply _ _),
      Prog.bind_error (Prog.lift_apply _ _)]
    exact ⟨fun _ _ _ => rfl, fun _ _ _ => rfl⟩

theorem SameOutside.trans {bus₁ bus₂ : Bus} (h : SameOutside part bus bus₁)
    (h' : SameOutside part bus₁ bus₂) : SameOutside part bus bus₂ := fun disk x hx =>
  (h' disk x hx).trans (h disk x hx)

theorem OnPartition.client (c : BlockClient α) (h : OnPartition v part bus s) :
    ∃ a bus' s', c.onBus part v.bs bus = (a, bus') ∧ c.onVolume v s = (a, s') ∧
      OnPartition v part bus' s' ∧ SameOutside part bus bus' := by
  induction c generalizing bus s with
  | done a => exact ⟨a, bus, s, rfl, rfl, h, fun _ _ _ => rfl⟩
  | read fsb next ih =>
    obtain ⟨r, bus₁, hbus, hvol, h₁⟩ := readBlockOf_refines h fsb
    have hout := (h.outside fsb fun _ => 0).1
    obtain ⟨a, bus', s', hrun, hrunv, h', hrest⟩ := ih (r.mapError mapBlockErr) h₁
    rw [hbus] at hout
    rw [BlockClient.onBus, BlockClient.onVolume, hbus, hvol]
    exact ⟨a, bus', s', hrun, hrunv, h', hout.trans hrest⟩
  | write fsb buf next ih =>
    obtain ⟨r, bus₁, s₁, hbus, hvol, h₁⟩ := writeBlockOf_refines h fsb buf
    have hout := (h.outside fsb buf).2
    obtain ⟨a, bus', s', hrun, hrunv, h', hrest⟩ := ih (r.mapError mapBlockErr) h₁
    rw [hbus] at hout
    rw [BlockClient.onBus, BlockClient.onVolume, hbus, hvol]
    exact ⟨a, bus', s', hrun, hrunv, h', hout.trans hrest⟩

/-- Every program over a mounted partition returns what it returns over the blocks that
`mount` found, and writes nothing outside the partition. -/
theorem block_clients_refine (hserves : Serves part bus)
    (hmount : mount (deviceOf part bus) = .ok (v, s)) (c : BlockClient α) :
    (c.onBus part v.bs bus).1 = (c.onVolume v s).1 ∧
      SameOutside part bus (c.onBus part v.bs bus).2 := by
  obtain ⟨a, bus', s', hbus, hvol, -, hout⟩ := (mount_onPartition hserves hmount).client c
  rw [hbus, hvol]
  exact ⟨rfl, hout⟩

/-- The empty volume from sector 40 of a disk on. -/
def lonePartition : GptPartition := ⟨0, 40, 32807, [], [], []⟩

def loneBus : Bus where
  devices := [⟨true, 32848⟩]
  content _ x := (emptyDevice 32).bytes (x - 20480)
  issued := []
  answers _ := .completes
  turn := 0

/-- A block is written with the bytes of another, and read back. -/
theorem block_clients_refine_empty : ∃ s, mount (deviceOf lonePartition loneBus) =
    .ok (emptyVolume 32, s) ∧ ∀ a b : ℕ,
      let c := BlockClient.read a fun r => .write b (r.toOption.getD fun _ => 0) fun _ => .read b .done
      (c.onBus lonePartition 1024 loneBus).1 = (c.onVolume (emptyVolume 32) s).1 ∧
        SameOutside lonePartition loneBus (c.onBus lonePartition 1024 loneBus).2 := by
  have hdevice : deviceOf lonePartition loneBus = emptyDevice 32 := by
    unfold deviceOf loneBus lonePartition
    dsimp only
    rw [funext fun k => congrArg (emptyDevice 32).bytes (Nat.add_sub_cancel_left (n := 20480) (m := k))]
    rfl
  obtain ⟨s, hmount⟩ := mount_of_volume mount_empty.1
  rw [hdevice]
  exact ⟨s, hmount, fun a b => block_clients_refine
    ⟨by decide, by decide, ⟨⟨true, 32848⟩, rfl, by decide⟩, fun _ => rfl⟩ (hdevice ▸ hmount) _⟩

end Pinx.Analysis
