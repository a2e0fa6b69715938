import Pinx.Analysis.Ext4Metadata

/-!
# Checksums of inodes and directory blocks

The rules for the checksums in inodes and in the tails of directory blocks, and that
`write_inode` and `dir_tail_csum` follow them.
-/

namespace Pinx.Analysis

open Pinx.Foundation Pinx.Model

variable {v : Ext4} {raw raw' : Bytes} {i : ℕ}

/-! ## Inodes -/

/-- The generation in an inode on disk. -/
def genOf (raw : Bytes) : ℕ := raw.getLE 0x64 4

/-- An inode with its checksum taken as zero. -/
def inodeZeroed (v : Ext4) (raw : Bytes) : Bytes :=
  if v.fitsHi raw then (raw.putLE 0x7C 2 0).putLE 0x82 2 0 else raw.putLE 0x7C 2 0

/-- The checksum an inode has to carry: of its number, its generation and the inode itself
with the checksum taken as zero. -/
def inodeRule (v : Ext4) (i : ℕ) (raw : Bytes) : ℕ :=
  crc32c v.csumSeed (le4 i ++ le4 (genOf raw) ++ (inodeZeroed v raw).slice 0 v.inodeSize)

/-- An inode carries its checksum, or the lower half of it when it has no room for more. -/
def InodeSum (v : Ext4) (i : ℕ) (raw : Bytes) : Prop :=
  raw.getLE 0x7C 2 + (if v.fitsHi raw then raw.getLE 0x82 2 * 2 ^ 16 else 0) =
    inodeRule v i raw % if v.fitsHi raw then 2 ^ 32 else 2 ^ 16

instance (v : Ext4) (i : ℕ) (raw : Bytes) : Decidable (InodeSum v i raw) :=
  inferInstanceAs (Decidable (_ = _))

theorem fitsHi_congr (hv : GeometryOk v) (h : ∀ k < v.inodeSize, raw' k = raw k) :
    v.fitsHi raw' = v.fitsHi raw := by
  unfold Ext4.fitsHi goodOldInodeSize
  rcases hv.inodeSize with hsize | hsize
  · rw [hsize]
    rfl
  · rw [Bytes.getLE_congr fun j hj => h (0x80 + j) (by omega)]

theorem slice_zero_two {m : Bytes} {a : ℕ} (h₀ : m a = 0) (h₁ : m (a + 1) = 0) :
    m.slice a 2 = [0, 0] := by
  simp [Bytes.slice, List.range_succ, h₀, h₁]

theorem putLE_zero {m : Bytes} {a n k : ℕ} (hlo : a ≤ k) (hhi : k < a + n) :
    m.putLE a n 0 k = 0 := by
  rw [Bytes.putLE, Bytes.blit_inside hlo hhi, Nat.zero_div]
  rfl

/-- The checksum of the source is the rule's. -/
theorem inodeCsum_eq (hv : GeometryOk v) : v.inodeCsum i raw = inodeRule v i raw := by
  have hz : ∀ k, ¬(0x7C ≤ k ∧ k < 0x7E) → ¬(0x82 ≤ k ∧ k < 0x84) → inodeZeroed v raw k = raw k := by
    intro k hlo hhi
    unfold inodeZeroed
    split
    · rw [Bytes.putLE_outside (by omega), Bytes.putLE_outside (by omega)]
    · rw [Bytes.putLE_outside (by omega)]
  have hlow : ∀ k, 0x7C ≤ k → k < 0x7E → inodeZeroed v raw k = 0 := by
    intro k hlo hhi
    unfold inodeZeroed
    split
    · rw [Bytes.putLE_outside (by omega), putLE_zero hlo (by omega)]
    · rw [putLE_zero hlo (by omega)]
  have hslice : ∀ a n, (∀ j < n, ¬(0x7C ≤ a + j ∧ a + j < 0x7E) ∧ ¬(0x82 ≤ a + j ∧ a + j < 0x84)) →
      (inodeZeroed v raw).slice a n = raw.slice a n :=
    fun a n h => Bytes.slice_congr fun j hj => hz _ (h j hj).1 (h j hj).2
  have hzero : (inodeZeroed v raw).slice 0x7C 2 = [0, 0] :=
    slice_zero_two (hlow _ (by omega) (by omega)) (hlow _ (by omega) (by omega))
  -- the first 128 bytes
  have hold : (inodeZeroed v raw).slice 0 0x80 = raw.slice 0 0x7C ++ [0, 0] ++ raw.slice 0x7E 2 := by
    rw [show (0x80 : ℕ) = 0x7C + 2 + 2 from rfl, Bytes.slice_append, Bytes.slice_append]
    simp only [Nat.zero_add, Nat.reduceAdd]
    rw [hzero, hslice 0 0x7C fun j hj => by omega, hslice 0x7E 2 fun j hj => by omega]
  unfold Ext4.inodeCsum inodeRule Ext4.inodeSeed goodOldInodeSize
  dsimp only
  rcases hv.inodeSize with hsize | hsize
  · rw [if_neg (by omega), hsize, hold]
    simp only [crc32c_append]
    rfl
  · have hnew : (inodeZeroed v raw).slice 0 256 =
        raw.slice 0 0x7C ++ [0, 0] ++ raw.slice 0x7E 2 ++ raw.slice 0x80 2 ++
          if v.fitsHi raw then [0, 0] ++ raw.slice 0x84 124 else raw.slice 0x82 126 := by
      rw [show (256 : ℕ) = 0x80 + 2 + 126 from rfl, Bytes.slice_append, Bytes.slice_append, hold]
      simp only [Nat.zero_add, Nat.reduceAdd]
      rw [hslice 0x80 2 fun j hj => by omega]
      congr 1
      split
      · rename_i hfits
        have hhigh : ∀ k, 0x82 ≤ k → k < 0x84 → inodeZeroed v raw k = 0 := by
          intro k hlo hhi
          rw [inodeZeroed, if_pos hfits, putLE_zero hlo (by omega)]
        rw [show (126 : ℕ) = 2 + 124 from rfl, Bytes.slice_append,
          slice_zero_two (hhigh 0x82 (by omega) (by omega)) (hhigh 0x83 (by omega) (by omega)),
          hslice 0x84 124 fun j hj => by omega]
      · rename_i hfits
        have : inodeZeroed v raw = raw.putLE 0x7C 2 0 := by
          rw [inodeZeroed, if_neg hfits]
        rw [this, Bytes.slice_putLE_outside (by omega)]
    rw [if_pos (by omega), hsize, hnew]
    split <;> simp only [crc32c_append] <;> rfl

theorem InodeSum.congr (hv : GeometryOk v) (h : InodeSum v i raw)
    (heq : ∀ k < v.inodeSize, raw' k = raw k) : InodeSum v i raw' := by
  have hfits := fitsHi_congr hv heq
  have hsize : 128 ≤ v.inodeSize := by
    have := hv.inodeSize
    omega
  have hrule : inodeRule v i raw' = inodeRule v i raw := by
    have hgen : genOf raw' = genOf raw := Bytes.getLE_congr fun j hj => heq _ (by omega)
    have hput : ∀ {a n k : ℕ} {m m' : Bytes}, m' k = m k → m'.putLE a n 0 k = m.putLE a n 0 k := by
      intro a n k m m' hk
      unfold Bytes.putLE Bytes.blit
      split
      · rfl
      · exact hk
    unfold inodeRule inodeZeroed
    rw [hgen, hfits]
    congr 2
    apply Bytes.slice_congr
    intro j hj
    have hbyte := heq (0 + j) (by omega)
    split
    · exact hput (hput hbyte)
    · exact hput hbyte
  have hlow : raw'.getLE 0x7C 2 = raw.getLE 0x7C 2 := Bytes.getLE_congr fun j hj => heq _ (by omega)
  have hhigh : v.fitsHi raw = true → raw'.getLE 0x82 2 = raw.getLE 0x82 2 := by
    intro hf
    have : 128 < v.inodeSize := by
      unfold Ext4.fitsHi goodOldInodeSize at hf
      simp only [Bool.and_eq_true, decide_eq_true_eq] at hf
      exact hf.1
    have := hv.inodeSize
    exact Bytes.getLE_congr fun j hj => heq _ (by omega)
  unfold InodeSum at h ⊢
  rw [hrule, hfits, hlow, ← h]
  split
  · rename_i hf
    rw [hhigh hf]
  · rfl

/-- The fields of an inode before the checksum is put in. -/
def encodeFields (v : Ext4) (inode : Inode) : Bytes :=
  let raw := inode.raw.putLE 0x00 2 inode.mode
  let raw := raw.putLE 0x04 4 inode.size
  let raw := raw.putLE 0x1C 4 inode.blocks
  let raw := raw.putLE 0x20 4 inode.flags
  if v.has64bit then
    (raw.putLE 0x6C 4 (inode.size / 2 ^ 32)).putLE 0x74 4 (inode.blocks / 2 ^ 32) else raw

theorem encodeInode_eq (v : Ext4) (inode : Inode) :
    v.encodeInode inode = if v.metaCsum then
      (if v.fitsHi (encodeFields v inode) then
        ((encodeFields v inode).putLE 0x7C 2 (v.inodeCsum inode.ino (encodeFields v inode))).putLE
          0x82 2 (v.inodeCsum inode.ino (encodeFields v inode) / 2 ^ 16)
      else (encodeFields v inode).putLE 0x7C 2 (v.inodeCsum inode.ino (encodeFields v inode)))
      else encodeFields v inode := rfl

/-- The checksum fields are all that stamping changes. -/
theorem encodeInode_fields {inode : Inode} {k : ℕ} (hlow : k < 0x7C ∨ 0x7E ≤ k)
    (hhigh : k < 0x82 ∨ 0x84 ≤ k) : v.encodeInode inode k = encodeFields v inode k := by
  rw [encodeInode_eq]
  split
  · split
    · rw [Bytes.putLE_outside (by omega), Bytes.putLE_outside (by omega)]
    · rw [Bytes.putLE_outside (by omega)]
  · rfl

/-- `write_inode` stores a valid checksum. -/
theorem inodeSum_encode (hv : GeometryOk v) (hmeta : v.metaCsum = true) (inode : Inode) :
    InodeSum v inode.ino (v.encodeInode inode) := by
  have hfits : v.fitsHi (v.encodeInode inode) = v.fitsHi (encodeFields v inode) := by
    unfold Ext4.fitsHi
    rw [Bytes.getLE_congr fun j hj => encodeInode_fields (by omega) (by omega)]
  have hgen : genOf (v.encodeInode inode) = genOf (encodeFields v inode) :=
    Bytes.getLE_congr fun j hj => encodeInode_fields (by omega) (by omega)
  have hzeroed : inodeZeroed v (v.encodeInode inode) = inodeZeroed v (encodeFields v inode) := by
    funext k
    unfold inodeZeroed
    rw [hfits, encodeInode_eq, if_pos hmeta]
    split
    · unfold Bytes.putLE Bytes.blit
      split
      · rfl
      · split
        · rfl
        · rfl
    · unfold Bytes.putLE Bytes.blit
      split <;> rfl
  have hrule : inodeRule v inode.ino (v.encodeInode inode) =
      v.inodeCsum inode.ino (encodeFields v inode) := by
    rw [inodeCsum_eq hv, inodeRule, inodeRule, hgen, hzeroed]
  unfold InodeSum
  rw [hrule, hfits, encodeInode_eq, if_pos hmeta]
  split
  · rw [Bytes.getLE_putLE_outside (by omega), Bytes.getLE_putLE, Bytes.getLE_putLE]
    omega
  · rw [Bytes.getLE_putLE]
    rfl

/-- What `write_inode` leaves as it is in the inode. -/
theorem encodeInode_outside {inode : Inode} {k : ℕ}
    (h : 2 ≤ k ∧ k < 4 ∨ 8 ≤ k ∧ k < 0x1C ∨ 0x24 ≤ k ∧ k < 0x6C) :
    v.encodeInode inode k = inode.raw k := by
  rw [encodeInode_fields (by omega) (by omega)]
  unfold encodeFields
  split
  · rw [Bytes.putLE_outside (by omega), Bytes.putLE_outside (by omega),
      Bytes.putLE_outside (by omega), Bytes.putLE_outside (by omega),
      Bytes.putLE_outside (by omega), Bytes.putLE_outside (by omega)]
  · rw [Bytes.putLE_outside (by omega), Bytes.putLE_outside (by omega),
      Bytes.putLE_outside (by omega), Bytes.putLE_outside (by omega)]

/-- What is read back from an inode that was written. -/
theorem parseInode_encode (inode : Inode) (j : ℕ) :
    (v.parseInode j (v.encodeInode inode)).mode = inode.mode % 2 ^ 16 ∧
      (v.parseInode j (v.encodeInode inode)).flags = inode.flags % 2 ^ 32 ∧
      (v.parseInode j (v.encodeInode inode)).size =
        inode.size % if v.has64bit then 2 ^ 64 else 2 ^ 32 := by
  have hfield : ∀ a n, a + n ≤ 0x7C → (v.encodeInode inode).getLE a n =
      (encodeFields v inode).getLE a n :=
    fun a n h => Bytes.getLE_congr fun j hj => encodeInode_fields (by omega) (by omega)
  unfold Ext4.parseInode
  dsimp only
  rw [hfield 0x00 2 (by omega), hfield 0x20 4 (by omega), hfield 0x04 4 (by omega),
    hfield 0x6C 4 (by omega)]
  unfold encodeFields
  by_cases h64 : v.has64bit = true
  · simp only [h64, if_true]
    refine ⟨?_, ?_, ?_⟩
    · rw [Bytes.getLE_putLE_outside (by omega), Bytes.getLE_putLE_outside (by omega),
        Bytes.getLE_putLE_outside (by omega), Bytes.getLE_putLE_outside (by omega),
        Bytes.getLE_putLE_outside (by omega), Bytes.getLE_putLE]
      rfl
    · rw [Bytes.getLE_putLE_outside (by omega), Bytes.getLE_putLE_outside (by omega),
        Bytes.getLE_putLE]
      rfl
    · rw [Bytes.getLE_putLE_outside (by omega), Bytes.getLE_putLE_outside (by omega),
        Bytes.getLE_putLE_outside (by omega), Bytes.getLE_putLE_outside (by omega),
        Bytes.getLE_putLE, Bytes.getLE_putLE_outside (by omega), Bytes.getLE_putLE]
      omega
  · simp only [h64, if_false, Bool.false_eq_true]
    refine ⟨?_, ?_, ?_⟩
    · rw [Bytes.getLE_putLE_outside (by omega), Bytes.getLE_putLE_outside (by omega),
        Bytes.getLE_putLE_outside (by omega), Bytes.getLE_putLE]
      rfl
    · rw [Bytes.getLE_putLE]
      rfl
    · rw [Bytes.getLE_putLE_outside (by omega), Bytes.getLE_putLE_outside (by omega),
        Bytes.getLE_putLE]
      rfl

/-! ## Directory blocks -/

/-- The tail of a directory block carries the checksum of the bytes before it. -/
def DirSum (v : Ext4) (ino gen : ℕ) (blk : Bytes) : Prop :=
  blk.getLE (v.bs - 4) 4 = v.dirCsum ino gen blk % 2 ^ 32

instance (v : Ext4) (ino gen : ℕ) (blk : Bytes) : Decidable (DirSum v ino gen blk) :=
  inferInstanceAs (Decidable (_ = _))

/-- A directory block that has a tail. -/
def HasTail (v : Ext4) (blk : Bytes) : Prop :=
  blk.getLE (v.bs - 12) 4 = 0 ∧ blk.getLE (v.bs - 8) 2 = 12 ∧ blk.getLE (v.bs - 6) 1 = 0 ∧
    blk.getLE (v.bs - 5) 1 = 0xDE

instance (v : Ext4) (blk : Bytes) : Decidable (HasTail v blk) :=
  inferInstanceAs (Decidable (_ ∧ _))

/-- SOURCE: ext4.rs:1092-1105 -/
theorem dirSum_tail (hv : GeometryOk v) (hmeta : v.metaCsum = true) {ino gen : ℕ} {blk : Bytes} :
    DirSum v ino gen (Bytes.clip v.bs (v.dirTailCsum ino gen blk)) := by
  have hbs : 1024 ≤ v.bs := by
    obtain h | h | h := hv.bs <;> omega
  unfold DirSum Ext4.dirCsum
  rw [Bytes.getLE_clip (by omega), Bytes.slice_congr fun j hj => Bytes.clip_inside (by omega)]
  unfold Ext4.dirTailCsum
  rw [if_pos hmeta]
  dsimp only
  rw [Bytes.getLE_putLE, Bytes.slice_putLE_outside (by omega)]
  rfl

end Pinx.Analysis
