import Pinx.Analysis.SuperLocation

/-!
# Ownership, checksums and counts over whole runs

Each of the three survives every run whose calls work on inodes in use with trees of depth
at most 1.  It does not survive a call on a deeper tree: `insert_extent` walks one level
down, takes the index node it finds there for a leaf, and what was a child pointer becomes
an extent that starts at block 0.
-/

namespace Pinx.Analysis

open Pinx.Foundation Pinx.Model

variable {v : Ext4} {L : Layout} {s s₀ : FsState}

/-- A volume mounted with checksums has a valid superblock. -/
theorem readSuper_sum {sectors bs fb fi : ℕ} {sb : Bytes}
    (h : readSuper sectors bs sb = .ok (v, fb, fi)) (hmeta : v.metaCsum = true) : SuperSum sb := by
  rw [SuperSum, ← (readSuper_taken h).sum hmeta]
  exact (Nat.mod_eq_of_lt (Bytes.getLE_lt _ _ _)).symm

/-- The three properties together. -/
structure Sound (v : Ext4) (L : Layout) (s : FsState) : Prop where
  ownership : Ownership v L s
  checksums : Checksums v L s
  accounts : Accounts v L s

/-! ## A volume with a deep file

One group of 256 blocks, with the superblock, the descriptors, the block bitmap and the
inode table in blocks 1 to 4 and the inode bitmap in block 10.  The tree of inode 3 has an
index node at 20 over leaves at 7 and 22; inode 4 is an empty file.
-/

def deepVolume : Ext4 := { sampleVolume 1 256 256 with metaCsum := true }

def blank : Bytes := fun _ => 0

/-- Blocks 1 to 24 and the bit behind the last block are marked, and inodes 1 to 4. -/
def deepBlockBitmap : Bytes := fun k => if k < 3 then 0xFF else if k = 31 then 0x80 else 0
def deepInodeBitmap : Bytes := fun k => if k = 0 then 0x0F else 0xFF

def deepDescriptor : Bytes :=
  let gd := ((blank.putLE 0x00 4 3).putLE 0x04 4 10).putLE 0x08 4 4
  let gd := ((gd.putLE 0x0C 2 231).putLE 0x0E 2 4).putLE 0x1C 2 4
  (gd.putLE 0x18 2 (deepVolume.bitmapCsum deepBlockBitmap 32)).putLE 0x1A 2
    (deepVolume.bitmapCsum deepInodeBitmap 1)

def deepFile : Inode where
  ino := 3
  mode := 0x8000 ||| 0o644
  size := 11 * 1024
  blocks := 4
  flags := 0x80000
  raw := wrHdr (wrIndex (blank.putLE 0x1A 2 1) iblock 0 0 20) iblock 1 4 2

def deepTable : Bytes :=
  (blank.blit (2 * 128) 128 (deepVolume.encodeInode deepFile)).blit (3 * 128) 128
    (deepVolume.encodeInode (newInode 4 false))

/-- An index node with two children, and its two leaves with one block each. -/
def deepIndex : Bytes := wrHdr (wrIndex (wrIndex blank 0 0 0 7) 0 1 10 22) 0 2 2 1
def deepLeaf (lb p : ℕ) : Bytes := wrHdr (wrExtent blank 0 0 ⟨lb, 1, p⟩) 0 1 84 0

def deepSuper : Bytes :=
  let sb := ((sampleSuper 8 256 256 0x2042).putLE 0x0C 4 231).putLE 0x10 4 4
  (sb.putLE 0x64 4 0x400).putLE 0x3FC 4 0xD8ED839A

def deepDisk : ℕ → Bytes
  | 1 => deepSuper
  | 2 => stampGroup deepVolume 0 deepDescriptor
  | 3 => deepBlockBitmap
  | 4 => deepTable
  | 7 => stampExtent deepVolume 3 0 (deepLeaf 0 23) 84
  | 10 => deepInodeBitmap
  | 20 => stampExtent deepVolume 3 0 deepIndex 2
  | 22 => stampExtent deepVolume 3 0 (deepLeaf 10 24) 84
  | _ => blank

def deepDevice : Device := blockDevice 512 deepDisk
def deepState : FsState := deepDevice.state 1024 231 4

theorem geometryOk_deep : GeometryOk deepVolume := by
  simp [geometryOk_iff, deepVolume, sampleVolume]

theorem layoutOk_deep : LayoutOk deepVolume sampleLayout :=
  layoutOk_oneGroup rfl rfl rfl rfl rfl (by omega) (by omega) (show 10 < 256 ∧ 4 < 256 by omega)

theorem block_deep (b : ℕ) : block deepVolume deepState b = Bytes.clip 1024 (deepDisk b) :=
  block_blockDevice rfl b

theorem super_deep : readBlockSize (Bytes.clip 1024 deepSuper) = .ok 1024 ∧
    readSuper 512 1024 (Bytes.clip 1024 deepSuper) = .ok (deepVolume, 231, 4) := by
  decide +kernel

theorem mount_deep : mount deepDevice = .ok (deepVolume, deepState) :=
  mount_blockDevice (by omega) super_deep

theorem sound_deep : Sound deepVolume sampleLayout deepState := by
  have howned : OwnedAt deepVolume sampleLayout deepState [1, 2, 3, 10, 4] [3, 4] := by decide +kernel
  -- both inodes are files, and the nodes are those of inode 3
  have hinodes : ∀ i ∈ [3, 4], InodeSum deepVolume i (slot deepVolume sampleLayout deepState i) ∧
      (inodeOf deepVolume sampleLayout deepState i).isDir = false ∧
      genOf (slot deepVolume sampleLayout deepState i) = 0 ∧
      ∀ n ∈ treeNodes deepVolume deepState (slot deepVolume sampleLayout deepState i),
        i = 3 ∧ n ∈ [7, 20, 22] := by
    decide +kernel
  have hmetadata : MetaSums deepVolume sampleLayout deepState := by
    refine ⟨?_, by decide +kernel, by decide +kernel, by decide +kernel⟩
    rw [block_deep]
    exact readSuper_sum super_deep.2 rfl
  refine ⟨howned.ownership role_oneGroup, ⟨hmetadata, fun i hi => (hinodes i (howned.mem hi)).1,
    fun i hi n hn => ?_, fun i hi hdir => ?_⟩, ⟨?_, ?_, ?_, ?_, ?_⟩⟩
  · obtain ⟨-, -, hgen, hnodes⟩ := hinodes i (howned.mem hi)
    obtain ⟨rfl, hmem⟩ := hnodes n hn
    rw [hgen, block_deep]
    simp only [List.mem_cons, List.not_mem_nil, or_false] at hmem
    rcases hmem with rfl | rfl | rfl <;> exact extentSum_stamp geometryOk_deep 3 0 (by decide) rfl rfl
  · rw [(hinodes i (howned.mem hi)).2.1] at hdir
    cases hdir
  all_goals decide +kernel

/-- A byte for block 20 of the deep file, and one for block 0 of the empty one. -/
def deepWrite : FsCall := .writeFile 3 (20 * 1024) [1]
def flatWrite : FsCall := .writeFile 4 0 [1]

/-- The state after the deep write, which returns `Ok`. -/
@[irreducible] def deepAfter : FsState := (deepWrite.run deepVolume deepState).2

theorem deepWrite_ok : deepWrite.run deepVolume deepState = (.ok (), deepAfter) := by
  unfold deepAfter
  exact ends_of_isOk (by decide +kernel)

theorem flatWrite_step : ∃ s, ShallowCall deepVolume sampleLayout deepState flatWrite s ∧
    treeMaps deepVolume s (slot deepVolume sampleLayout s 4) = [(0, 25)] := by
  have hwork : Workable deepVolume sampleLayout deepState 4 := by
    refine fun _ => ⟨?_, fun _ => ?_⟩ <;> decide +kernel
  have hany : ((flatWrite.exec deepVolume deepState).any fun s =>
      decide (treeMaps deepVolume s (slot deepVolume sampleLayout s 4) = [(0, 25)])) = true := by
    decide +kernel
  cases hexec : flatWrite.exec deepVolume deepState with
  | none =>
    rw [hexec] at hany
    cases hany
  | some s =>
    rw [hexec] at hany
    exact ⟨s, ⟨hwork, hexec⟩, of_decide_eq_true hany⟩

/-! ## Ownership -/

/-- No block gets two owners, and none becomes metadata or loses its mark, in a run of calls
on inodes in use with shallow trees. -/
theorem run_keeps_ownership (hv : GeometryOk v) (hL : LayoutOk v L) (h₀ : Ownership v L s₀)
    (hrun : Reaches (ShallowCall v L) s₀ s) : Ownership v L s := by
  refine hrun.invariant h₀ fun s c s' hown hcall => ?_
  obtain ⟨O, hvol⟩ := (shallowCall_settled (T := False) hv hL False.elim hown False.elim hcall).vol
  exact hvol.toGood.ownership

theorem flatWrite_keeps_ownership : ∃ s, Reaches (ShallowCall deepVolume sampleLayout) deepState s ∧
    treeMaps deepVolume s (slot deepVolume sampleLayout s 4) = [(0, 25)] ∧
    Ownership deepVolume sampleLayout s := by
  obtain ⟨s, hcall, hmaps⟩ := flatWrite_step
  have hrun := (Reaches.refl deepState).tail hcall
  exact ⟨s, hrun, hmaps, run_keeps_ownership geometryOk_deep layoutOk_deep (Sound.ownership sound_deep)
    hrun⟩

/-- After the deep write, block 20 of the file is the block with the inode bitmap, and block 1
of it the superblock. -/
theorem deepWrite_maps_metadata : mount deepDevice = .ok (deepVolume, deepState) ∧
    Ownership deepVolume sampleLayout deepState ∧
    deepWrite.run deepVolume deepState = (.ok (), deepAfter) ∧
    (mapBlock deepVolume (inodeOf deepVolume sampleLayout deepAfter 3) 20 deepAfter).1 =
      .ok (some 10) ∧
    sampleLayout.role 10 = .inodeBitmap 0 ∧ ¬Ownership deepVolume sampleLayout deepAfter := by
  have hmem : InUse deepVolume sampleLayout deepAfter 3 ∧
      (1, 1) ∈ treeMaps deepVolume deepAfter (slot deepVolume sampleLayout deepAfter 3) := by
    decide +kernel
  refine ⟨mount_deep, Sound.ownership sound_deep, deepWrite_ok, by decide +kernel, rfl, fun hown => ?_⟩
  exact absurd (hown.maps 3 hmem.1 (1, 1) hmem.2).2.1 (by decide)

/-! ## Checksums -/

/-- All checksums are valid in every state of such a run if they were at the start. -/
theorem run_keeps_checksums (hv : GeometryOk v) (hL : LayoutOk v L) (hmeta : v.metaCsum = true)
    (h₀ : Ownership v L s₀) (hsums : Checksums v L s₀) (hrun : Reaches (ShallowCall v L) s₀ s) :
    Checksums v L s := by
  refine (hrun.invariant (I := fun s => Ownership v L s ∧ Checksums v L s) ⟨h₀, hsums⟩ ?_).2
  rintro s c s' ⟨hown, hsums⟩ hcall
  obtain ⟨O, hvol⟩ := (shallowCall_settled (T := True) hv hL (fun _ => hmeta) hown (fun _ => hsums)
    hcall).vol
  exact ⟨hvol.toGood.ownership, (hvol.checked trivial).checksums hvol.toGood⟩

theorem flatWrite_keeps_checksums : ∃ s, Reaches (ShallowCall deepVolume sampleLayout) deepState s ∧
    treeMaps deepVolume s (slot deepVolume sampleLayout s 4) = [(0, 25)] ∧
    Checksums deepVolume sampleLayout s := by
  obtain ⟨s, hcall, hmaps⟩ := flatWrite_step
  have hrun := (Reaches.refl deepState).tail hcall
  exact ⟨s, hrun, hmaps, run_keeps_checksums geometryOk_deep layoutOk_deep rfl
    (Sound.ownership sound_deep) (Sound.checksums sound_deep) hrun⟩

/-- The deep write puts data over the inode bitmap, and the checksum of that bitmap is no
longer that of the bytes there. -/
theorem deepWrite_breaks_checksum : mount deepDevice = .ok (deepVolume, deepState) ∧
    Ownership deepVolume sampleLayout deepState ∧
    Checksums deepVolume sampleLayout deepState ∧
    deepWrite.run deepVolume deepState = (.ok (), deepAfter) ∧
    ¬Checksums deepVolume sampleLayout deepAfter := by
  have hne : ¬BitmapSum deepVolume (descriptor deepVolume deepAfter 0) 0x1A 0x3A
      (block deepVolume deepAfter 10) 1 := by
    decide +kernel
  exact ⟨mount_deep, Sound.ownership sound_deep, Sound.checksums sound_deep, deepWrite_ok,
    fun hsums => hne (hsums.metadata.inodes 0 (by decide))⟩

/-! ## Counts -/

/-- The counts of free blocks and inodes are right in every state of such a run if they were at
the start, with 32-byte and with 64-byte descriptors. -/
theorem run_keeps_accounts (hv : GeometryOk v) (hL : LayoutOk v L) (h₀ : Ownership v L s₀)
    (hacct : Accounts v L s₀) (hrun : Reaches (ShallowCall v L) s₀ s) : Accounts v L s := by
  refine (hrun.invariant (I := fun s => Ownership v L s ∧ Accounts v L s) ⟨h₀, hacct⟩ ?_).2
  rintro s c s' ⟨hown, hacct⟩ hcall
  have hset := shallowCall_settled (T := False) hv hL False.elim hown False.elim hcall
  obtain ⟨O, hvol⟩ := hset.vol
  exact ⟨hvol.toGood.ownership, hset.accounts hacct⟩

theorem flatWrite_keeps_accounts : ∃ s, Reaches (ShallowCall deepVolume sampleLayout) deepState s ∧
    treeMaps deepVolume s (slot deepVolume sampleLayout s 4) = [(0, 25)] ∧
    Accounts deepVolume sampleLayout s := by
  obtain ⟨s, hcall, hmaps⟩ := flatWrite_step
  have hrun := (Reaches.refl deepState).tail hcall
  exact ⟨s, hrun, hmaps, run_keeps_accounts geometryOk_deep layoutOk_deep
    (Sound.ownership sound_deep) (Sound.accounts sound_deep) hrun⟩

/-- After the deep write the descriptor still counts four free inodes, and the bitmap has seven
clear bits. -/
theorem deepWrite_breaks_count : mount deepDevice = .ok (deepVolume, deepState) ∧
    Ownership deepVolume sampleLayout deepState ∧
    Accounts deepVolume sampleLayout deepState ∧
    deepWrite.run deepVolume deepState = (.ok (), deepAfter) ∧
    freeField deepVolume deepAfter true 0 = 4 ∧ clearOf deepVolume sampleLayout deepAfter true 0 = 7 ∧
    ¬Accounts deepVolume sampleLayout deepAfter := by
  have hfield : freeField deepVolume deepAfter true 0 = 4 := by decide +kernel
  have hclear : clearOf deepVolume sampleLayout deepAfter true 0 = 7 := by decide +kernel
  refine ⟨mount_deep, Sound.ownership sound_deep, Sound.accounts sound_deep, deepWrite_ok, hfield,
    hclear, fun hacct => ?_⟩
  have heq := hacct.fields true 0 (by decide)
  rw [hfield, hclear] at heq
  cases heq

end Pinx.Analysis
