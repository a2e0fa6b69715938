import Pinx.Analysis.InodeWrites
import Pinx.Analysis.UnsealedVolume

/-!
# The bytes of an inode a write changes

A write of file data should change the size, the block count, the root of the tree and the
checksum of one inode, and no other byte of the inode table.  `write_inode` stores the high
part of the block count as 32 bits at 0x74 where the format has 16: the two bytes behind it
belong to `i_file_acl_high`, and a write on a volume with the 64bit feature clears them.
-/

namespace Pinx.Analysis

open Pinx.Foundation Pinx.Model

variable {v : Ext4} {L : Layout} {s s' : FsState} {O : ℕ → Option Use} {i k : ℕ} {inode : Inode}

/-- The size, block count, tree and checksum fields of an inode. -/
def FieldByte (k : ℕ) : Prop :=
  0x04 ≤ k ∧ k < 0x08 ∨ 0x6C ≤ k ∧ k < 0x70 ∨ 0x1C ≤ k ∧ k < 0x20 ∨ 0x74 ≤ k ∧ k < 0x76 ∨
    0x28 ≤ k ∧ k < 0x64 ∨ 0x7C ≤ k ∧ k < 0x7E ∨ 0x82 ≤ k ∧ k < 0x84

instance (k : ℕ) : Decidable (FieldByte k) :=
  inferInstanceAs (Decidable (_ ∧ _ ∨ _ ∧ _ ∨ _ ∧ _ ∨ _ ∧ _ ∨ _ ∧ _ ∨ _ ∧ _ ∨ _ ∧ _))

/-- Of the inode table only these fields of inode `i` change. -/
def OnlyFields (v : Ext4) (L : Layout) (i : ℕ) (s s' : FsState) : Prop :=
  (∀ k < v.inodeSize, ¬FieldByte k → slot v L s' i k = slot v L s i k) ∧
    ∀ j, IsInode v j → j ≠ i → slot v L s' j = slot v L s j

/-- `i_file_acl_high`. -/
def fileAclHigh (raw : Bytes) : ℕ := raw.getLE 0x76 2

theorem fileAclHigh_eq_zero {raw : Bytes} : fileAclHigh raw = 0 ↔ raw 0x76 = 0 ∧ raw 0x77 = 0 := by
  constructor
  · intro h
    have hsum : (raw 0x76).toNat + 256 * ((raw 0x77).toNat + 256 * 0) = 0 := h
    have hlow : (raw 0x76).toNat = (0 : UInt8).toNat := by
      change _ = 0
      omega
    have hhigh : (raw 0x77).toNat = (0 : UInt8).toNat := by
      change _ = 0
      omega
    exact ⟨UInt8.toNat_inj.mp hlow, UInt8.toNat_inj.mp hhigh⟩
  · rintro ⟨hlow, hhigh⟩
    refine Bytes.getLE_eq_zero fun j hj => ?_
    rcases Nat.le_one_iff_eq_zero_or_eq_one.mp (Nat.le_of_lt_succ hj) with rfl | rfl
    · exact hlow
    · exact hhigh

/-- The bytes outside the fields stay, except for the two behind the high part of the block
count. -/
theorem encodeInode_byte (hmode : inode.mode = inode.raw.getLE 0x00 2)
    (hflags : inode.flags = inode.raw.getLE 0x20 4) (hk : ¬FieldByte k) :
    v.encodeInode inode k = if v.has64bit = true ∧ 0x76 ≤ k ∧ k < 0x78 then
      UInt8.ofNat (inode.blocks / 2 ^ 32 / 256 ^ (k - 0x74)) else inode.raw k := by
  have hputMode : inode.raw.putLE 0x00 2 inode.mode = inode.raw :=
    Bytes.putLE_getLE (by rw [hmode]; exact Nat.mod_eq_of_lt (Bytes.getLE_lt _ _ _))
  have hputFlags : ((inode.raw.putLE 0x04 4 inode.size).putLE 0x1C 4 inode.blocks).putLE 0x20 4
      inode.flags = (inode.raw.putLE 0x04 4 inode.size).putLE 0x1C 4 inode.blocks := by
    refine Bytes.putLE_getLE ?_
    rw [hflags, Nat.mod_eq_of_lt (Bytes.getLE_lt _ _ _), Bytes.getLE_putLE_outside (by omega),
      Bytes.getLE_putLE_outside (by omega)]
  unfold FieldByte at hk
  rw [encodeInode_fields (by omega) (by omega)]
  unfold encodeFields
  rw [hputMode, hputFlags]
  by_cases h64 : v.has64bit = true
  · rw [if_pos h64]
    by_cases hbehind : 0x76 ≤ k ∧ k < 0x78
    · rw [if_pos ⟨h64, hbehind⟩]
      exact Bytes.blit_inside (by omega) (by omega)
    · rw [if_neg fun h => hbehind h.2, Bytes.putLE_outside (by omega), Bytes.putLE_outside (by omega),
        Bytes.putLE_outside (by omega), Bytes.putLE_outside (by omega)]
  · rw [if_neg h64, if_neg fun h => h64 h.1, Bytes.putLE_outside (by omega),
      Bytes.putLE_outside (by omega)]

/-- An inode that is written back keeps its other fields if the bytes behind the block count
are zero or not touched. -/
theorem Resized.fields_iff (hv : GeometryOk v) (h : Resized v L i s s' inode)
    (hblocks : inode.blocks < 2 ^ 48) :
    (∀ k < v.inodeSize, ¬FieldByte k → slot v L s' i k = slot v L s i k) ↔
      (v.has64bit = true → fileAclHigh (slot v L s i) = 0) := by
  have hraw : ∀ k, ¬FieldByte k → inode.raw k = slot v L s i k := by
    intro k hk
    unfold FieldByte at hk
    exact h.around k (by unfold iblock; omega)
  have hbyte : ∀ k < v.inodeSize, ¬FieldByte k → slot v L s' i k =
      if v.has64bit = true ∧ 0x76 ≤ k ∧ k < 0x78 then 0 else slot v L s i k := by
    intro k hlt hk
    have hmode : inode.mode = inode.raw.getLE 0x00 2 := by
      rw [h.mode]
      exact Bytes.getLE_congr fun j hj => (hraw _ (by unfold FieldByte; omega)).symm
    have hflags : inode.flags = inode.raw.getLE 0x20 4 := by
      rw [h.flags]
      exact Bytes.getLE_congr fun j hj => (hraw _ (by unfold FieldByte; omega)).symm
    rw [h.self, Bytes.clip_inside hlt, encodeInode_byte hmode hflags hk, hraw k hk]
    split
    · rename_i hbehind
      have hpow : 256 ^ 2 ≤ 256 ^ (k - 0x74) := Nat.pow_le_pow_right (by omega) (by omega)
      rw [Nat.div_eq_of_lt (by omega)]
      rfl
    · rfl
  have hsize : 0x78 ≤ v.inodeSize := by
    rcases hv.inodeSize with h | h <;> omega
  rw [show (v.has64bit = true → fileAclHigh (slot v L s i) = 0) ↔
    (v.has64bit = true → slot v L s i 0x76 = 0 ∧ slot v L s i 0x77 = 0) from
      forall_congr' fun _ => fileAclHigh_eq_zero]
  constructor
  · intro hkeep h64
    have hlow := hbyte 0x76 (by omega) (by unfold FieldByte; omega)
    have hhigh := hbyte 0x77 (by omega) (by unfold FieldByte; omega)
    rw [hkeep _ (by omega) (by unfold FieldByte; omega), if_pos ⟨h64, by omega⟩] at hlow hhigh
    exact ⟨hlow, hhigh⟩
  · intro hzero k hlt hk
    rw [hbyte k hlt hk]
    split
    · rename_i hbehind
      obtain ⟨hlow, hhigh⟩ := hzero hbehind.1
      obtain rfl | rfl : k = 0x76 ∨ k = 0x77 := by omega
      · exact hlow.symm
      · exact hhigh.symm
    · rfl

/-! ## Writes -/

/-- The trees on which a write returns only after it has used no block but its own: those the
driver makes, and any tree whose blocks are mapped where the write goes. -/
def Writable (v : Ext4) (L : Layout) (s : FsState) (i offset n : ℕ) : Prop :=
  (HasMagic (slot v L s i) iblock → rootDepth (slot v L s i) ≤ 1) ∨
    Mapped v s (slot v L s i) (offset / v.bs) (endBlock v offset n) ∧
      countedBlocks v s (slot v L s i) < 2 ^ 48

/-- A write that returns changes only its fields of the inode table if it has nothing to write,
and otherwise exactly if there is no `i_file_acl_high` to clear. -/
theorem write_fields_iff (hv : GeometryOk v) (hL : LayoutOk v L) (hown : Ownership v L s)
    (hi : InUse v L s i) {offset : ℕ} {buf : List UInt8} (hwritable : Writable v L s i offset buf.length)
    (hrun : writeFile v i offset buf s = (.ok (), s')) :
    OnlyFields v L i s s' ↔
      buf = [] ∨ (v.has64bit = true → fileAclHigh (slot v L s i) = 0) := by
  by_cases hnil : buf = []
  · unfold writeFile at hrun
    rw [if_pos hnil] at hrun
    cases hrun
    exact ⟨fun _ => Or.inl hnil, fun _ => ⟨fun _ _ _ => rfl, fun _ _ _ => rfl⟩⟩
  have hresized : (∀ j, IsInode v j → j ≠ i → slot v L s' j = slot v L s j) ∧
      ∃ inode, Resized v L i s s' inode ∧ inode.blocks < 2 ^ 48 := by
    rcases hwritable with hdepth | ⟨hmapped, hcount⟩
    · obtain ⟨O', hworked, ⟨hempty, -⟩ | ⟨inode, hresized⟩⟩ :=
        writeFile_worked hv hL hown.good hi hdepth hrun
      · exact absurd hempty hnil
      · have hlt := countedBlocks_lt hv (hworked.good.slots i hworked.inUse).ok hworked.shallow
        rw [← hresized.blocks] at hlt
        exact ⟨hworked.slots, inode, hresized, by omega⟩
    · obtain ⟨hslots, inode, hresized, hblocks⟩ :=
        writeFile_rewritten hv hL hown.good hi hnil hmapped hrun
      exact ⟨hslots, inode, hresized, hblocks ▸ hcount⟩
  obtain ⟨hslots, inode, hresized, hblocks⟩ := hresized
  rw [← hresized.fields_iff hv hblocks]
  exact ⟨fun h => Or.inr h.1, fun h => ⟨h.resolve_left hnil, hslots⟩⟩

/-! ## A file with an attribute block -/

/-- The sample volume with 64bit descriptors. -/
def wideVolume : Ext4 := { noSeedVolume with descSize := 64, has64bit := true }

def aclSuper : Bytes :=
  (((sampleSuper 8 16 16 0xC2).putLE 0xFE 2 64).putLE 0x0C 4 8).putLE 0x10 4 5

/-- A volume with a root directory and a file with the given `i_file_acl_high`. -/
def aclDevice (acl : ℕ) : Device :=
  blockDevice 32 fun
    | 1 => aclSuper
    | 2 =>
      let gd := ((zeros.putLE 0x00 4 3).putLE 0x04 4 4).putLE 0x08 4 5
      ((gd.putLE 0x0C 2 8).putLE 0x0E 2 5).putLE 0x10 2 1
    | 3 => noSeedBlockBitmap
    | 4 => noSeedInodeBitmap
    | 5 =>
      let root := wideVolume.encodeInode (noSeedInode 2 true 1024 6)
      let file := (wideVolume.encodeInode (noSeedInode 3 false 4 7)).putLE 0x76 2 acl
      (zeros.blit (1 * 128) 128 root).blit (2 * 128) 128 file
    | 6 => putEntry (putEntry (dotsBlock wideVolume 2 2) 12 12 2 2 [0x2E, 0x2E]) 24 1000 3 1 [0x66]
    | _ => zeros

def aclState (acl : ℕ) : FsState := (aclDevice acl).state 1024 8 5

theorem super_acl : readBlockSize (Bytes.clip 1024 aclSuper) = .ok 1024 ∧
    readSuper 32 1024 (Bytes.clip 1024 aclSuper) = .ok (wideVolume, 8, 5) := by
  decide +kernel

theorem owned_acl : ∀ acl ∈ [0, 5],
    OwnedAt wideVolume noSeedLayout (aclState acl) [1, 2, 3, 4, 5] [2, 3] := by
  decide +kernel

theorem inUse_acl : ∀ acl ∈ [0, 5], InUse wideVolume noSeedLayout (aclState acl) 3 := by
  decide +kernel

theorem geometryOk_wide : GeometryOk wideVolume := by
  simp [geometryOk_iff, wideVolume, noSeedVolume, sampleVolume]

theorem layoutOk_wide : LayoutOk wideVolume noSeedLayout :=
  layoutOk_oneGroup rfl rfl rfl rfl rfl (by omega) (by omega) (show 4 < 16 ∧ 5 < 16 by omega)

theorem ownership_acl {acl : ℕ} (hacl : acl ∈ [0, 5]) :
    Ownership wideVolume noSeedLayout (aclState acl) :=
  (owned_acl acl hacl).ownership role_oneGroup

theorem mount_acl : mount (aclDevice 5) = .ok (wideVolume, aclState 5) :=
  mount_blockDevice (by omega) super_acl

theorem write_acl : ∀ acl ∈ [0, 5], (writeFile wideVolume 3 0 [1] (aclState acl)).1.isOk = true := by
  decide +kernel

theorem write_fields_plain : OnlyFields wideVolume noSeedLayout 3 (aclState 0)
    (writeFile wideVolume 3 0 [1] (aclState 0)).2 := by
  have hhigh : fileAclHigh (slot wideVolume noSeedLayout (aclState 0) 3) = 0 := by decide +kernel
  exact (write_fields_iff geometryOk_wide layoutOk_wide (ownership_acl (by simp))
    (inUse_acl 0 (by simp)) (Or.inl fun _ => by decide +kernel)
    (ends_of_isOk (write_acl 0 (by simp)))).mpr (Or.inr fun _ => hhigh)

/-- One byte written to the file clears the high part of the block number of its attributes. -/
theorem write_clears_acl :
    mount (aclDevice 5) = .ok (wideVolume, aclState 5) ∧
      Ownership wideVolume noSeedLayout (aclState 5) ∧
      InUse wideVolume noSeedLayout (aclState 5) 3 ∧
      ∃ s', writeFile wideVolume 3 0 [1] (aclState 5) = (.ok (), s') ∧
        slot wideVolume noSeedLayout (aclState 5) 3 0x76 = 5 ∧
        slot wideVolume noSeedLayout s' 3 0x76 = 0 ∧
        ¬OnlyFields wideVolume noSeedLayout 3 (aclState 5) s' := by
  have hbefore : slot wideVolume noSeedLayout (aclState 5) 3 0x76 = 5 := by decide +kernel
  have hafter : slot wideVolume noSeedLayout (writeFile wideVolume 3 0 [1] (aclState 5)).2 3 0x76 = 0 := by
    decide +kernel
  refine ⟨mount_acl, ownership_acl (by simp), inUse_acl 5 (by simp), _,
    ends_of_isOk (write_acl 5 (by simp)), hbefore, hafter, fun honly => ?_⟩
  have hsame := honly.1 0x76 (by decide) (by decide)
  rw [hbefore, hafter] at hsame
  exact absurd hsame (by simp)

end Pinx.Analysis
