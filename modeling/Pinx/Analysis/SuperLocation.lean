import Pinx.Analysis.Ext4Runs
import Pinx.Analysis.MountChecks

/-!
# Where the superblock is

The format has the superblock in bytes 1024 to 2047 of the volume, whatever the block size.  The
driver looks for the block size there, but takes the rest from the start of block 0 if blocks are
larger than 1024 bytes, and keeps the counts there.  So it finds the superblock of the format
exactly if blocks have 1024 bytes.
-/

namespace Pinx.Analysis

open Pinx.Foundation Pinx.Model

variable {dev : Device} {v : Ext4} {s : FsState} {bs fb fi : ℕ}

/-- The superblock of the format. -/
def primarySuper (dev : Device) : Bytes := Bytes.clip 1024 fun k => dev.bytes (1024 + k)

/-- A byte of the volume. -/
def volumeByte (v : Ext4) (s : FsState) (x : ℕ) : UInt8 := s.disk (x / v.bs) (x % v.bs)

/-- The bytes of the counts and of the checksum in a superblock. -/
def CounterByte (v : Ext4) (k : ℕ) : Prop :=
  0x0C ≤ k ∧ k < 0x14 ∨ v.has64bit = true ∧ 0x158 ≤ k ∧ k < 0x15C ∨
    v.metaCsum = true ∧ 0x3FC ≤ k ∧ k < 0x400

/-- The volume is mounted with the fields of the format's superblock, and in every later state the
counts are kept there and nowhere else. -/
structure SuperLocated (dev : Device) (v : Ext4) (fb fi : ℕ) : Prop where
  mounts : mount dev = .ok (v, dev.state v.bs fb fi)
  persists : ∀ s, Reaches (fun s c s' => FsCall.exec v s c = some s') (dev.state v.bs fb fi) s →
    ∀ dblk dino x, volumeByte v (persistSuperCounts v dblk dino s).2 x ≠ volumeByte v s x →
      1024 ≤ x ∧ CounterByte v (x - 1024)

/-! ## Keeping the counts -/

/-- The counts are put into a copy of the superblock, in four places. -/
theorem superCounts_outside {k : ℕ} (sb : Bytes) (hk : ¬CounterByte v k) :
    v.superCounts fb fi sb k = sb k := by
  obtain ⟨hcounts, hhi, hsum⟩ := (not_or.mp hk).imp_right not_or.mp
  have hbase : ((sb.putLE 0x0C 4 fb).putLE 0x10 4 fi) k = sb k := by
    rw [Bytes.putLE_outside (by omega), Bytes.putLE_outside (by omega)]
  have hwide : (if v.has64bit = true then
      ((sb.putLE 0x0C 4 fb).putLE 0x10 4 fi).putLE 0x158 4 (fb / 2 ^ 32)
      else (sb.putLE 0x0C 4 fb).putLE 0x10 4 fi) k = sb k := by
    split
    · rename_i h64
      have hout : ¬(0x158 ≤ k ∧ k < 0x15C) := fun hin => hhi ⟨h64, hin⟩
      rw [Bytes.putLE_outside (by omega), hbase]
    · exact hbase
  unfold Ext4.superCounts
  split
  · rename_i hmeta
    have hout : ¬(0x3FC ≤ k ∧ k < 0x400) := fun hin => hsum ⟨hmeta, hin⟩
    rw [Bytes.putLE_outside (by omega), hwide]
  · exact hwide

/-- Nothing is written but the block the driver takes for the superblock. -/
theorem persistSuperCounts_disk (v : Ext4) (dblk dino : ℤ) (s : FsState) :
    (persistSuperCounts v dblk dino s).2.disk = s.disk ∨
      ∃ fb fi, (persistSuperCounts v dblk dino s).2.disk = Function.update s.disk v.sblockFsb
        (Bytes.clip v.bs (v.superCounts fb fi (block v s v.sblockFsb))) := by
  unfold persistSuperCounts
  rw [Prog.bind_ok (Prog.read_apply _ s)]
  cases hfb : addCount s.freeBlocks dblk with
  | error e =>
    rw [Prog.bind_error (Prog.lift_apply _ s)]
    exact Or.inl rfl
  | ok fb =>
    rw [Prog.bind_ok (Prog.lift_apply _ s), Prog.bind_ok (Prog.modify_apply _ s),
      Prog.bind_ok (Prog.read_apply _ _)]
    cases hfi : addCount s.freeInodes dino with
    | error e =>
      rw [Prog.bind_error (Prog.lift_apply _ _)]
      exact Or.inl rfl
    | ok fi =>
      rw [Prog.bind_ok (Prog.lift_apply _ _), Prog.bind_ok (Prog.modify_apply _ _)]
      generalize hnew : ({ s with freeBlocks := fb, freeInodes := fi } : FsState) = s₁
      have hdisk : s₁.disk = s.disk := by rw [← hnew]
      rcases readFsb_cases v s₁ v.sblockFsb with hread | ⟨e, -, hread⟩
      · rw [Prog.bind_ok hread]
        rcases writeFsb_cases v s₁ v.sblockFsb (v.superCounts fb fi (block v s₁ v.sblockFsb)) with
          hwrite | ⟨e, -, hwrite⟩
        · refine Or.inr ⟨fb, fi, ?_⟩
          rw [hwrite, ← hnew]
          rfl
        · rw [hwrite]
          exact Or.inl hdisk
      · rw [Prog.bind_error hread]
        exact Or.inl hdisk

/-- With blocks of 1024 bytes the superblock is block 1. -/
theorem persists_in_place (hbs : v.bs = 1024) (dblk dino : ℤ) (s : FsState) {x : ℕ}
    (h : volumeByte v (persistSuperCounts v dblk dino s).2 x ≠ volumeByte v s x) :
    1024 ≤ x ∧ CounterByte v (x - 1024) := by
  have hblock : v.sblockFsb = 1 := if_pos hbs
  unfold volumeByte at h
  rcases persistSuperCounts_disk v dblk dino s with hdisk | ⟨fb, fi, hdisk⟩
  · rw [hdisk] at h
    exact absurd rfl h
  · rw [hdisk, hblock, hbs] at h
    by_cases hx : x / 1024 = 1
    · refine ⟨by omega, ?_⟩
      by_contra hk
      rw [hx, Function.update_self, Bytes.clip_inside (by omega), show x % 1024 = x - 1024 by omega,
        superCounts_outside _ hk, block, hbs, Bytes.clip_inside (by omega)] at h
      exact h rfl
    · rw [Function.update_of_ne hx] at h
      exact absurd rfl h

/-! ## Mounting -/

/-- A mount is a mount with the superblock it finds. -/
theorem mount_eq (hsize : dev.blockSize = 512) (hsectors : 4 ≤ dev.sectors)
    (hbs : readBlockSize (primarySuper dev) = .ok bs) :
    mount dev = (readSuperBlock dev bs (primarySuper dev) >>= fun sb =>
      readSuper dev.sectors bs sb >>= fun r => pure (r.1, dev.state bs r.2.1 r.2.2)) := by
  have hread : dev.readBlocks 2 1024 = .ok (primarySuper dev) := by
    rw [Device.readBlocks, if_neg (by omega)]
    rfl
  rw [mount, if_neg (not_not_intro hsize), hread]
  show (readBlockSize (primarySuper dev) >>= _) = _
  rw [hbs]
  rfl

/-- With blocks of 1024 bytes the superblock found is the one the mount takes. -/
theorem mount_small (hsize : dev.blockSize = 512) (hsectors : 4 ≤ dev.sectors)
    (hbs : readBlockSize (primarySuper dev) = .ok 1024)
    (hsuper : readSuper dev.sectors 1024 (primarySuper dev) = .ok (v, fb, fi)) :
    mount dev = .ok (v, dev.state 1024 fb fi) := by
  rw [mount_eq hsize hsectors hbs, readSuperBlock, if_pos rfl]
  exact except_bind_eq_ok.mpr ⟨_, rfl, except_bind_eq_ok.mpr ⟨_, hsuper, rfl⟩⟩

/-- A device of blocks of 1024 bytes. -/
def blockDevice (sectors : ℕ) (disk : ℕ → Bytes) : Device where
  blockSize := 512
  sectors := sectors
  bytes k := disk (k / 1024) (k % 1024)

theorem primarySuper_blockDevice (sectors : ℕ) (disk : ℕ → Bytes) :
    primarySuper (blockDevice sectors disk) = Bytes.clip 1024 (disk 1) := by
  apply Bytes.clip_congr
  intro k hk
  change disk ((1024 + k) / 1024) ((1024 + k) % 1024) = disk 1 k
  rw [show (1024 + k) / 1024 = 1 by omega, show (1024 + k) % 1024 = k by omega]

theorem mount_blockDevice {sectors : ℕ} {disk : ℕ → Bytes} (hsectors : 4 ≤ sectors)
    (h : readBlockSize (Bytes.clip 1024 (disk 1)) = .ok 1024 ∧
      readSuper sectors 1024 (Bytes.clip 1024 (disk 1)) = .ok (v, fb, fi)) :
    mount (blockDevice sectors disk) = .ok (v, (blockDevice sectors disk).state 1024 fb fi) := by
  rw [← primarySuper_blockDevice sectors disk] at h
  exact mount_small rfl hsectors h.1 h.2

theorem block_blockDevice {sectors : ℕ} {disk : ℕ → Bytes} (hbs : v.bs = 1024) (b : ℕ) :
    block v ((blockDevice sectors disk).state 1024 fb fi) b = Bytes.clip 1024 (disk b) := by
  rw [block, hbs]
  apply Bytes.clip_congr
  intro k hk
  change disk ((b * 1024 + k) / 1024) ((b * 1024 + k) % 1024) = _
  rw [show (b * 1024 + k) / 1024 = b by omega, show (b * 1024 + k) % 1024 = k by omega]

/-- With larger blocks everything but the block size is read from block 0. -/
theorem mount_large (hmount : mount dev = .ok (v, s)) (hlarge : v.bs ≠ 1024) :
    v.sectors = dev.sectors ∧ v.bs / 512 ≤ dev.sectors ∧ s.freeBlocks < 2 ^ 64 ∧
      s.freeInodes = (block v s 0).getLE 0x10 4 := by
  obtain ⟨sb, bs, sb', fb, fi, -, -, hblock, hsuper, rfl⟩ := mount_ok hmount
  obtain ⟨rfl, hsectors, hfb, hfi⟩ := readSuper_volume hsuper
  rw [readSuperBlock, if_neg hlarge] at hblock
  obtain ⟨sb₀, hread, hblock⟩ := except_bind_eq_ok.mp hblock
  split at hblock
  · cases hblock
  cases hblock
  unfold Device.readBlocks at hread
  split at hread
  · cases hread
  rename_i hin
  cases hread
  refine ⟨hsectors, by omega, hfb, hfi.trans ?_⟩
  simp only [block, Device.state, Nat.zero_mul]

theorem addCount_fits {n : ℕ} (hn : n < 2 ^ 64) : ∃ m, addCount n 0 = .ok m := by
  refine ⟨(max (if n < 2 ^ 63 then (n : ℤ) else n - 2 ^ 64) 0).toNat, ?_⟩
  unfold addCount
  simp only [add_zero]
  rw [if_neg (by split <;> omega)]

theorem addCount_succ {n : ℕ} (hn : n < 2 ^ 32) : addCount n 1 = .ok (n + 1) := by
  unfold addCount
  simp only [if_pos (show n < 2 ^ 63 by omega)]
  rw [if_neg (by omega)]
  congr 1

/-- The counts then go to bytes 0 to 1023: one inode more is free, and some byte there says so. -/
theorem persists_elsewhere (hmount : mount dev = .ok (v, s)) (hlarge : v.bs ≠ 1024) :
    ∃ x < 1024, volumeByte v (persistSuperCounts v 0 1 s).2 x ≠ volumeByte v s x := by
  obtain ⟨hsectors, hin, hfb, hfi⟩ := mount_large hmount hlarge
  have hbs : 1024 < v.bs := by
    have := (mount_fields hmount).bs
    omega
  have hlt : s.freeInodes < 2 ^ 32 := by
    rw [hfi]
    exact Bytes.getLE_lt _ _ 4
  have hzero : v.sblockFsb = 0 := if_neg hlarge
  have hbyte : v.sblockFsb * v.bs < 2 ^ 64 ∧ v.fsbLba v.sblockFsb + v.bs / 512 ≤ v.sectors := by
    rw [Ext4.fsbLba, hzero, Nat.zero_mul, Nat.zero_div, hsectors]
    omega
  obtain ⟨fb, hfb⟩ := addCount_fits hfb
  have hrun := persistSuperCounts_ok hfb (addCount_succ hlt) (fun s => readFsb_in hbyte.1 hbyte.2)
    fun s buf => by
      rw [writeFsb, if_neg (not_le.mpr hbyte.1), if_neg (not_lt.mpr hbyte.2)]
      rfl
  by_contra hsame
  have hold : ∀ k < 0x400, v.superCounts fb (s.freeInodes + 1) (block v s 0) k = block v s 0 k := by
    intro k hk
    by_contra hne
    refine hsame ⟨k, hk, fun h => hne ?_⟩
    rw [hrun, hzero, volumeByte, volumeByte, Nat.div_eq_of_lt (by omega),
      Nat.mod_eq_of_lt (by omega)] at h
    rw [block, Bytes.clip_inside (by omega), ← h]
    simp only [setBlock, Function.update_self]
    rw [Bytes.clip_inside (by omega)]
    rfl
  have hcount := superCount_congr (v := v) true hold
  rw [superCount_counts] at hcount
  replace hcount : (s.freeInodes + 1) % 2 ^ 32 = (block v s 0).getLE 0x10 4 := hcount
  omega

/-- The driver finds and keeps the superblock of the format exactly if blocks have 1024 bytes. -/
theorem super_location_iff (hsize : dev.blockSize = 512) (hsectors : 4 ≤ dev.sectors)
    (hbs : readBlockSize (primarySuper dev) = .ok bs)
    (hsuper : readSuper dev.sectors bs (primarySuper dev) = .ok (v, fb, fi)) :
    SuperLocated dev v fb fi ↔ bs = 1024 := by
  have hvbs := (readSuper_volume hsuper).1
  constructor
  · intro h
    by_contra hlarge
    rw [← hvbs] at hlarge
    obtain ⟨x, hx, hne⟩ := persists_elsewhere h.mounts hlarge
    have hin := (h.persists _ (Reaches.refl _) 0 1 x hne).1
    omega
  · rintro rfl
    refine ⟨?_, fun s _ dblk dino x hne => persists_in_place hvbs dblk dino s hne⟩
    rw [hvbs]
    exact mount_small hsize hsectors hbs hsuper

/-- The device with nothing on it but a superblock. -/
theorem super_location_empty : ∃ fb fi, SuperLocated (emptyDevice 32) (emptyVolume 32) fb fi := by
  have hfields : readBlockSize (primarySuper (emptyDevice 32)) = .ok 1024 ∧
      readSuper 32768 1024 (primarySuper (emptyDevice 32)) = .ok (emptyVolume 32, 0, 0) := by
    decide +kernel
  exact ⟨0, 0, (super_location_iff rfl (by decide) hfields.1 hfields.2).mpr rfl⟩

/-- The same with blocks of 2048 bytes and an empty boot area. -/
def largeDevice : Device where
  blockSize := 512
  sectors := 65536
  bytes :=
    (((emptyDevice 32).bytes.putLE (1024 + 0x14) 4 0).putLE (1024 + 0x18) 4 1).putLE (1024 + 0x1C) 4 1

/-- The superblock is one the driver supports, but it does not look for it there. -/
theorem large_blocks_not_mounted : ∃ v fb fi,
    readBlockSize (primarySuper largeDevice) = .ok 2048 ∧
      readSuper largeDevice.sectors 2048 (primarySuper largeDevice) = .ok (v, fb, fi) ∧
      mount largeDevice = .error (.error .corrupt) ∧ ¬SuperLocated largeDevice v fb fi := by
  have hfields : readBlockSize (primarySuper largeDevice) = .ok 2048 ∧
      (readSuper largeDevice.sectors 2048 (primarySuper largeDevice)).isOk = true ∧
      (mount largeDevice).map (fun _ => ()) = .error (.error .corrupt) := by
    decide +kernel
  obtain ⟨hbs, hok, hmount⟩ := hfields
  replace hmount : mount largeDevice = .error (.error .corrupt) := by
    cases hrun : mount largeDevice with
    | error e =>
      rw [hrun] at hmount
      cases hmount
      rfl
    | ok r =>
      rw [hrun] at hmount
      cases hmount
  cases hsuper : readSuper largeDevice.sectors 2048 (primarySuper largeDevice) with
  | error e =>
    rw [hsuper] at hok
    cases hok
  | ok r =>
    refine ⟨r.1, r.2.1, r.2.2, hbs, rfl, hmount, fun h => ?_⟩
    have hmounts := h.mounts
    rw [hmount] at hmounts
    cases hmounts

end Pinx.Analysis
