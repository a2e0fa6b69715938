import Pinx.Analysis.FileOverwrite
import Pinx.Analysis.SuperLocation

/-!
# Volumes with checksums and no stored seed

A volume may have metadata checksums without a stored seed: the seed is then the checksum of
the volume's identifier.  The driver computes that seed, but takes such a volume for one
without checksums: it renews none of them, and puts directory entries where their checksums
are kept.  What stays valid is what no call touches, so checksums are safe only as long as
files are overwritten in place.
-/

namespace Pinx.Analysis

open Pinx.Foundation Pinx.Model

variable {dev : Device} {v : Ext4} {L : Layout} {s s₀ s' : FsState} {O : ℕ → Option Use} {i j : ℕ}

/-! ## The volume -/

/-- The superblock sets the feature for metadata checksums, but not the one for a stored seed. -/
structure Unsealed (sb : Bytes) : Prop where
  sums : hasBit (sbRoCompat sb) roCompatMetadataCsum = true
  seed : hasBit (sbIncompat sb) incompatCsumSeed = false

/-- The seed of the checksums on such a volume. -/
def uuidSeed (sb : Bytes) : ℕ := crc32c 0xFFFFFFFF (sb.slice 0x68 16)

/-- A mounted volume is the one its superblock describes. -/
theorem mount_super (hmount : mount dev = .ok (v, s)) :
    v = volumeOf dev.sectors v.bs (block v s v.sblockFsb) := by
  obtain ⟨sb, bs, sb', fb, fi, hread, -, hblock, hsuper, rfl⟩ := mount_ok hmount
  have hvolume := (readSuper_taken hsuper).volume
  obtain ⟨rfl, -⟩ := readSuper_volume hsuper
  suffices hsb : block v (dev.state v.bs fb fi) v.sblockFsb = sb' by rw [hsb, ← hvolume]
  unfold Ext4.sblockFsb
  rw [readSuperBlock] at hblock
  split at hblock
  · rename_i hsmall
    cases hblock
    unfold Device.readBlocks at hread
    split at hread
    · cases hread
    cases hread
    rw [if_pos hsmall]
    simp only [block, Device.state, hsmall]
  · rename_i hlarge
    obtain ⟨sb₀, hread', hblock⟩ := except_bind_eq_ok.mp hblock
    split at hblock
    · cases hblock
    cases hblock
    unfold Device.readBlocks at hread'
    split at hread'
    · cases hread'
    cases hread'
    rw [if_neg hlarge]
    simp only [block, Device.state, Nat.zero_mul]

/-- The driver computes the seed, and keeps no checksums. -/
theorem mount_unsealed (hmount : mount dev = .ok (v, s)) (h : Unsealed (block v s v.sblockFsb)) :
    v.csumSeed = uuidSeed (block v s v.sblockFsb) ∧ v.metaCsum = false := by
  have hvolume := mount_super hmount
  refine ⟨(congrArg Ext4.csumSeed hvolume).trans ?_, (congrArg Ext4.metaCsum hvolume).trans ?_⟩
  · rw [volumeOf, h.seed]
    rfl
  · rw [volumeOf, h.seed, Bool.and_false]

/-! ## Writes in place -/

/-- The call overwrites bytes of a file that are there, and the file's count of blocks is the one
the driver comes to. -/
def Overwrites (v : Ext4) (L : Layout) (s : FsState) : FsCall → Prop
  | .writeFile i offset buf => buf = [] ∨ InUse v L s i ∧
      offset + buf.length ≤ (inodeOf v L s i).size ∧
      Mapped v s (slot v L s i) (offset / v.bs) (endBlock v offset buf.length) ∧
      recountBlocks v (inodeOf v L s i) s = (.ok (inodeOf v L s i).blocks, s)
  | _ => False

/-- The two halves of a number are written as they were read. -/
theorem halves_eq {lo hi : ℕ} (w : Bool) (hlo : lo < 2 ^ 32) (hhi : hi < 2 ^ 32) :
    (lo + if w then hi * 2 ^ 32 else 0) % 256 ^ 4 = lo ∧
      (w = true → (lo + if w then hi * 2 ^ 32 else 0) / 2 ^ 32 % 256 ^ 4 = hi) := by
  cases w with
  | false =>
    simp only [Bool.false_eq_true, if_false, Nat.add_zero, false_implies, and_true]
    omega
  | true =>
    simp only [if_true, true_implies]
    omega

/-- Without checksums an inode is written as it was read. -/
theorem encode_inodeOf (hmeta : v.metaCsum = false) (s : FsState) (i : ℕ) :
    v.encodeInode (inodeOf v L s i) = slot v L s i := by
  have hlt : ∀ a, (slot v L s i).getLE a 4 < 2 ^ 32 := fun a => Bytes.getLE_lt _ a 4
  have hmode : (inodeOf v L s i).mode % 256 ^ 2 = (slot v L s i).getLE 0x00 2 :=
    Nat.mod_eq_of_lt (mode_lt v L s i)
  have hflags : (inodeOf v L s i).flags % 256 ^ 4 = (slot v L s i).getLE 0x20 4 :=
    Nat.mod_eq_of_lt (flags_lt v L s i)
  obtain ⟨hsize, hsizeHi⟩ := halves_eq v.has64bit (hlt 0x04) (hlt 0x6C)
  obtain ⟨hblocks, hblocksHi⟩ := halves_eq v.has64bit (hlt 0x1C) (hlt 0x74)
  change (inodeOf v L s i).size % _ = _ at hsize
  change _ → (inodeOf v L s i).size / _ % _ = _ at hsizeHi
  change (inodeOf v L s i).blocks % _ = _ at hblocks
  change _ → (inodeOf v L s i).blocks / _ % _ = _ at hblocksHi
  have hsame : encodeFields v (inodeOf v L s i) = slot v L s i := by
    unfold encodeFields
    dsimp only
    rw [raw_inodeOf, Bytes.putLE_getLE hmode, Bytes.putLE_getLE hsize, Bytes.putLE_getLE hblocks,
      Bytes.putLE_getLE hflags]
    split
    · rename_i h64
      rw [Bytes.putLE_getLE (hsizeHi h64), Bytes.putLE_getLE (hblocksHi h64)]
    · rfl
  rw [encodeInode_eq, hsame, hmeta]
  rfl

/-- Writing the bytes of an inode back changes nothing. -/
theorem block_putSlot_same (b : ℕ) : block v (putSlot v L s i (slot v L s i)) b = block v s b := by
  unfold putSlot
  by_cases hb : b = slotBlock v L i
  · rw [hb, block_setBlock_self]
    refine (Bytes.clip_congr fun k hk => ?_).trans (block_clip v s (slotBlock v L i))
    unfold Bytes.blit
    split
    · rename_i hin
      unfold slot
      rw [Bytes.clip_inside (by omega), Nat.add_sub_cancel' hin.1]
    · rfl
  · exact block_setBlock_ne hb

section Step

variable (hv : GeometryOk v) (hL : LayoutOk v L) (hmeta : v.metaCsum = false) (hgood : Good v L O s)
  {c : FsCall} (hcall : Overwrites v L s c) (hrun : c.run v s = (.ok (), s'))
include hv hL hmeta hgood hcall hrun

/-- Such a call changes blocks of one file and nothing else. -/
theorem Overwrites.step :
    s' = s ∨ ∃ i, (inodeOf v L s i).isDir = false ∧ Overwritten v O i s s' ∧ Good v L O s' := by
  cases c with
  | createFile dir name => exact hcall.elim
  | createDir dir name => exact hcall.elim
  | writeFile i offset buf =>
    by_cases hnil : buf = []
    · subst hnil
      exact Or.inl (Prod.mk.inj hrun).2.symm
    obtain ⟨hiu, hsize, hmapped, hcount⟩ := hcall.resolve_left hnil
    change writeFile v i offset buf s = (.ok (), s') at hrun
    cases hfile : (inodeOf v L s i).isFile with
    | false =>
      unfold writeFile at hrun
      rw [if_neg hnil, Prog.bind_ok (readInode_ok hv hL hgood.placed hiu.1), if_pos hfile] at hrun
      cases hrun
    | true =>
      obtain ⟨s₁, total, htotal, hwrite, hover, hslot, hgood'⟩ :=
        writeFile_overwrites hv hL hgood hiu hnil hmapped hfile
      rw [hcount] at htotal
      cases htotal
      have hinode : ({ sizedInode (inodeOf v L s i) (offset + buf.length) with
          blocks := (inodeOf v L s i).blocks } : Inode) = inodeOf v L s i := by
        unfold sizedInode
        rw [Nat.max_eq_left hsize]
      rw [hinode, encode_inodeOf hmeta, ← hslot] at hwrite hgood'
      rw [hrun] at hwrite
      cases hwrite
      refine Or.inr ⟨i, not_isDir_of_isFile hfile, ⟨fun b hb => ?_, hover.counts⟩, hgood'⟩
      rw [block_putSlot_same, hover.other b hb]

end Step

/-! ## Runs -/

/-- Every block of a directory that has no index ends with a checksum record. -/
def Tails (v : Ext4) (L : Layout) (s : FsState) : Prop :=
  ∀ j, InUse v L s j → (inodeOf v L s j).isDir = true → (inodeOf v L s j).flags &&& 0x1000 = 0 →
    ∀ x ∈ treeMaps v s (slot v L s j), HasTail v (block v s x.2)

/-- The same in terms of what blocks are used for. -/
def TailedBy (v : Ext4) (L : Layout) (O : ℕ → Option Use) (s : FsState) : Prop :=
  ∀ p j lb, O p = some (.data j lb) → (inodeOf v L s j).isDir = true →
    (inodeOf v L s j).flags &&& 0x1000 = 0 → HasTail v (block v s p)

theorem Tails.tailedBy (h : Tails v L s) : TailedBy v L (ownerOf v L s) s := by
  intro p j lb hp hdir hflags
  obtain ⟨hj, hmem⟩ := ownerOf_data hp
  exact h j hj hdir hflags _ hmem

theorem TailedBy.tails (hgood : Good v L O s) (h : TailedBy v L O s) : Tails v L s :=
  fun j hj hdir hflags x hx => h x.2 j x.1 ((hgood.slots j hj).maps x hx) hdir hflags

section Sealed

variable (hv : GeometryOk v) (hL : LayoutOk v L) (hgood : Good v L O s) (h : Overwritten v O i s s')
include hgood h

/-- Metadata is not overwritten. -/
theorem Overwritten.metadata {b : ℕ} (hb : L.role b ≠ .data) : block v s' b = block v s b :=
  h.other b fun _ hx => hb (hgood.used b _ hx).2.2.1

theorem Overwritten.sameBooks : SameBooks v L s s' :=
  ⟨fun _ hb => h.metadata hgood fun hdata => not_bookkeeping_data hdata hb, h.counts⟩

include hv hL

theorem Overwritten.slot_eq (hj : IsInode v j) : slot v L s' j = slot v L s j := by
  unfold slot
  rw [h.metadata hgood (by rw [role_slotBlock hv hL hj]; exact nofun)]

/-- Checksums and tails stay valid when blocks of a file are overwritten. -/
theorem Overwritten.seals (hfile : (inodeOf v L s i).isDir = false) (hs : Sealed v L O s)
    (ht : TailedBy v L O s) : Sealed v L O s' ∧ TailedBy v L O s' := by
  have hslot : ∀ p u, O p = some u → slot v L s' u.ino = slot v L s u.ino := fun p u hp =>
    h.slot_eq hv hL hgood (hgood.used p u hp).1.1
  have hdir : ∀ p j lb, O p = some (.data j lb) → (inodeOf v L s j).isDir = true →
      block v s' p = block v s p := by
    intro p j lb hp hdir
    refine h.other p fun x hx => ?_
    rw [hp] at hx
    cases hx
    rw [hfile] at hdir
    cases hdir
  refine ⟨⟨(h.sameBooks hgood).metaSums hL hs.metadata, fun j hj => ?_, fun n j hn => ?_,
    fun p j lb hp => ?_⟩, fun p j lb hp => ?_⟩
  · have hsame := h.slot_eq hv hL hgood hj.1
    rw [hsame]
    exact hs.inodes j (hj.congr hsame.symm)
  · have hsame : slot v L s' j = slot v L s j := hslot n (.node j) hn
    rw [hsame, h.nodes hn]
    exact hs.nodes n j hn
  · have hsame : slot v L s' j = slot v L s j := hslot p (.data j lb) hp
    rw [inodeOf_congr hsame, hsame]
    intro hisDir
    rw [hdir p j lb hp hisDir]
    exact hs.dirs p j lb hp hisDir
  · have hsame : slot v L s' j = slot v L s j := hslot p (.data j lb) hp
    rw [inodeOf_congr hsame]
    intro hisDir
    rw [hdir p j lb hp hisDir]
    exact ht p j lb hp hisDir

end Sealed

/-! ## A volume without a stored seed -/

/-- A volume of 16 blocks with the root directory and a file in it. -/
def noSeedVolume : Ext4 := { sampleVolume 1 16 16 with csumSeed := 0xBD8F6515 }

def stamper : Ext4 := { noSeedVolume with metaCsum := true }

def noSeedLayout : Layout := oneGroupLayout 4 5

def zeros : Bytes := fun _ => 0

def noSeedSuper : Bytes :=
  stamper.superCounts 8 5 ((sampleSuper 8 16 16 0x42).putLE 0x64 4 0x400)

def noSeedBlockBitmap : Bytes := fun k => if k = 0 then 0x7F else 0x80
def noSeedInodeBitmap : Bytes := fun _ => 0x07

def noSeedDescriptor : Bytes :=
  let gd := ((zeros.putLE 0x00 4 3).putLE 0x04 4 4).putLE 0x08 4 5
  let gd := (((gd.putLE 0x0C 2 8).putLE 0x0E 2 5).putLE 0x10 2 1).putLE 0x1C 2 5
  (gd.putLE 0x18 2 (stamper.bitmapCsum noSeedBlockBitmap 2)).putLE 0x1A 2
    (stamper.bitmapCsum noSeedInodeBitmap 1)

def noSeedInode (ino : ℕ) (isDir : Bool) (size p : ℕ) : Inode :=
  { newInode ino isDir with
    size := size
    blocks := 2
    raw := firstRoot (newInode ino isDir).raw p }

def noSeedTable : Bytes :=
  (zeros.blit (1 * 128) 128 (stamper.encodeInode (noSeedInode 2 true 1024 6))).blit (2 * 128) 128
    (stamper.encodeInode (noSeedInode 3 false 4 7))

def noSeedRoot : Bytes :=
  stamper.dirTailCsum 2 0 (putEntry (putEntry (dotsBlock stamper 2 2) 12 12 2 2 [0x2E, 0x2E])
    24 988 3 1 [0x66])

def noSeedDisk : ℕ → Bytes
  | 1 => noSeedSuper
  | 2 => stampGroup stamper 0 noSeedDescriptor
  | 3 => noSeedBlockBitmap
  | 4 => noSeedInodeBitmap
  | 5 => noSeedTable
  | 6 => noSeedRoot
  | _ => zeros

def noSeedDevice : Device := blockDevice 32 noSeedDisk

def noSeedState : FsState := noSeedDevice.state 1024 8 5

/-- The volume after a file has been created in the root directory. -/
@[irreducible] def noSeedAfter : FsState := (createFile noSeedVolume 2 [0x61] noSeedState).2

theorem super_noSeed : readBlockSize (Bytes.clip 1024 noSeedSuper) = .ok 1024 ∧
    readSuper 32 1024 (Bytes.clip 1024 noSeedSuper) = .ok (noSeedVolume, 8, 5) := by
  decide +kernel

theorem unsealed_noSeed : Unsealed (block noSeedVolume noSeedState noSeedVolume.sblockFsb) :=
  ⟨rfl, rfl⟩

theorem owned_noSeed : OwnedAt noSeedVolume noSeedLayout noSeedState [1, 2, 3, 4, 5] [2, 3] := by
  decide +kernel

theorem file_noSeed : InUse noSeedVolume noSeedLayout noSeedState 3 ∧
    (inodeOf noSeedVolume noSeedLayout noSeedState 3).isFile = true ∧
    (inodeOf noSeedVolume noSeedLayout noSeedState 3).isDir = false ∧
    (inodeOf noSeedVolume noSeedLayout noSeedState 3).size = 4 :=
  ⟨⟨⟨show 0 < 3 by omega, show 3 ≤ 8 by omega⟩, Nat.one_ne_zero⟩, rfl, rfl, rfl⟩

/-- The root directory after the file has been created. -/
theorem root_noSeedAfter : ¬HasTail noSeedVolume (block noSeedVolume noSeedAfter 6) ∧
    InUse noSeedVolume noSeedLayout noSeedAfter 2 ∧
    (inodeOf noSeedVolume noSeedLayout noSeedAfter 2).isDir = true ∧
    (inodeOf noSeedVolume noSeedLayout noSeedAfter 2).flags &&& 0x1000 = 0 ∧
    (0, 6) ∈ treeMaps noSeedVolume noSeedAfter (slot noSeedVolume noSeedLayout noSeedAfter 2) := by
  decide +kernel

theorem geometryOk_noSeed : GeometryOk noSeedVolume := by
  simp [geometryOk_iff, noSeedVolume, sampleVolume]

theorem geometryOk_stamper : GeometryOk stamper := by
  simp [geometryOk_iff, stamper, noSeedVolume, sampleVolume]

theorem layoutOk_noSeed : LayoutOk noSeedVolume noSeedLayout :=
  layoutOk_oneGroup rfl rfl rfl rfl rfl (by omega) (by omega) (show 4 < 16 ∧ 5 < 16 by omega)

theorem mount_noSeed : mount noSeedDevice = .ok (noSeedVolume, noSeedState) :=
  mount_blockDevice (by omega) super_noSeed

theorem block_noSeed (b : ℕ) : block noSeedVolume noSeedState b = Bytes.clip 1024 (noSeedDisk b) :=
  block_blockDevice rfl b

theorem ownership_noSeed : Ownership noSeedVolume noSeedLayout noSeedState :=
  OwnedAt.ownership owned_noSeed role_oneGroup

/-- A block that is mapped is that of the directory or that of the file. -/
theorem maps_noSeed {i : ℕ} (hi : InUse noSeedVolume noSeedLayout noSeedState i)
    (hdir : (inodeOf noSeedVolume noSeedLayout noSeedState i).isDir = true) {x : ℕ × ℕ}
    (hx : x ∈ treeMaps noSeedVolume noSeedState (slot noSeedVolume noSeedLayout noSeedState i)) :
    i = 2 ∧ x = (0, 6) := by
  have hroot : treeMaps noSeedVolume noSeedState (slot noSeedVolume noSeedLayout noSeedState 2) =
      [(0, 6)] := rfl
  have hmem := OwnedAt.mem owned_noSeed hi
  simp only [List.mem_cons, List.not_mem_nil, or_false] at hmem
  rcases hmem with rfl | rfl
  · rw [hroot, List.mem_singleton] at hx
    exact ⟨rfl, hx⟩
  · rw [file_noSeed.2.2.1] at hdir
    cases hdir

theorem dirSum_noSums {v : Ext4} {m : Bool} {ino gen : ℕ} {blk : Bytes} :
    DirSum { v with metaCsum := m } ino gen blk ↔ DirSum v ino gen blk := Iff.rfl

theorem checksums_noSeed : Checksums noSeedVolume noSeedLayout noSeedState := by
  have hinodes : ∀ i ∈ [2, 3], InodeSum noSeedVolume i (slot noSeedVolume noSeedLayout noSeedState i) ∧
      genOf (slot noSeedVolume noSeedLayout noSeedState i) = 0 ∧
      treeNodes noSeedVolume noSeedState (slot noSeedVolume noSeedLayout noSeedState i) = [] := by
    decide +kernel
  refine ⟨⟨?_, by decide +kernel, by decide +kernel, by decide +kernel⟩,
    fun i hi => (hinodes i (OwnedAt.mem owned_noSeed hi)).1, fun i hi n hn => ?_,
    fun i hi hdir x hx _ => ?_⟩
  · change SuperSum (block noSeedVolume noSeedState 1)
    rw [block_noSeed]
    exact (superSum_counts (v := stamper) rfl 8 5 _).congr fun k hk => Bytes.clip_inside hk
  · rw [(hinodes i (OwnedAt.mem owned_noSeed hi)).2.2] at hn
    cases hn
  · obtain ⟨rfl, rfl⟩ := maps_noSeed hi hdir hx
    change DirSum noSeedVolume 2 _ (block noSeedVolume noSeedState 6)
    rw [(hinodes 2 (List.mem_cons_self ..)).2.1, block_noSeed]
    exact dirSum_noSums.mp (dirSum_tail geometryOk_stamper rfl)

theorem tails_noSeed : Tails noSeedVolume noSeedLayout noSeedState := by
  intro i hi hdir _ x hx
  obtain ⟨rfl, rfl⟩ := maps_noSeed hi hdir hx
  exact ⟨rfl, rfl, rfl, rfl⟩

/-- The volume with the checksums of its seed. -/
theorem seeded_noSeed : { noSeedVolume with
    csumSeed := uuidSeed (block noSeedVolume noSeedState noSeedVolume.sblockFsb) } = noSeedVolume := by
  have hseed : uuidSeed (block noSeedVolume noSeedState 1) = 0xBD8F6515 := rfl
  change { noSeedVolume with csumSeed := uuidSeed (block noSeedVolume noSeedState 1) } = _
  rw [hseed]
  rfl

/-- The count of a file's blocks does not change the volume. -/
theorem recountBlocks_fst (hv : GeometryOk v) {n : ℕ} (hok : RootOk v s (slot v L s i))
    (h : (recountBlocks v (inodeOf v L s i) s).1 = .ok n) :
    recountBlocks v (inodeOf v L s i) s = (.ok n, s) := by
  rw [← raw_inodeOf] at hok
  obtain ⟨total, htotal⟩ := recountBlocks_ok hv hok
  rw [htotal] at h ⊢
  cases h
  rfl

theorem overwrite_noSeed : Overwrites noSeedVolume noSeedLayout noSeedState (.writeFile 3 0 [1]) := by
  obtain ⟨hiu, -, -, hsize⟩ := file_noSeed
  refine Or.inr ⟨hiu, ?_, ?_, ?_⟩
  · rw [hsize]
    decide
  · intro x _ hx
    cases Nat.lt_one_iff.mp (show x < 1 from hx)
    exact ⟨7, by decide +kernel⟩
  · exact recountBlocks_fst geometryOk_noSeed (Ownership.trees ownership_noSeed 3 hiu) (by decide +kernel)

/-! ## The result -/

/-- On a volume with checksums and no stored seed, in every run of calls that only overwrite, all
checksums stay valid and no checksum record of a directory is lost. -/
theorem overwrites_keep_sums (hmount : mount dev = .ok (v, s₀))
    (hunsealed : Unsealed (block v s₀ v.sblockFsb)) (hv : GeometryOk v) (hL : LayoutOk v L)
    (hown : Ownership v L s₀)
    (hsums : Checksums { v with csumSeed := uuidSeed (block v s₀ v.sblockFsb) } L s₀)
    (htails : Tails v L s₀)
    (hrun : Reaches (fun s c s' => Overwrites v L s c ∧ c.run v s = (.ok (), s')) s₀ s) :
    Checksums { v with csumSeed := uuidSeed (block v s₀ v.sblockFsb) } L s ∧ Tails v L s := by
  obtain ⟨hseed, hmeta⟩ := mount_unsealed hmount hunsealed
  rw [← hseed] at hsums ⊢
  have hinv := hrun.invariant
    (I := fun s => Good v L (ownerOf v L s₀) s ∧ Sealed v L (ownerOf v L s₀) s ∧
      TailedBy v L (ownerOf v L s₀) s) ⟨hown.good, hsums.sealed, htails.tailedBy⟩ ?_
  · exact ⟨hinv.2.1.checksums hinv.1, hinv.2.2.tails hinv.1⟩
  · rintro s c s' ⟨hgood, hsealed, htailed⟩ ⟨hcall, hok⟩
    rcases hcall.step hv hL hmeta hgood hok with rfl | ⟨i, hfile, hover, hgood'⟩
    · exact ⟨hgood, hsealed, htailed⟩
    · exact ⟨hgood', hover.seals hv hL hgood hfile hsealed htailed⟩

/-- Overwriting the first byte of the file. -/
theorem overwrite_noSeed_keeps : ∃ s, (FsCall.writeFile 3 0 [1]).run noSeedVolume noSeedState =
      (.ok (), s) ∧
    Checksums { noSeedVolume with
      csumSeed := uuidSeed (block noSeedVolume noSeedState noSeedVolume.sblockFsb) } noSeedLayout s ∧
    Tails noSeedVolume noSeedLayout s := by
  obtain ⟨hiu, -, hmapped, -⟩ := overwrite_noSeed.resolve_left (List.cons_ne_nil 1 [])
  obtain ⟨s₁, total, -, hrun, -⟩ := writeFile_overwrites geometryOk_noSeed layoutOk_noSeed
    (Ownership.good ownership_noSeed) hiu (List.cons_ne_nil 1 []) hmapped file_noSeed.2.1
  refine ⟨_, hrun, ?_⟩
  refine overwrites_keep_sums mount_noSeed unsealed_noSeed geometryOk_noSeed layoutOk_noSeed
    ownership_noSeed ?_ tails_noSeed ((Reaches.refl noSeedState).tail ⟨overwrite_noSeed, hrun⟩)
  rw [seeded_noSeed]
  exact checksums_noSeed

/-- Creating a file leaves the old checksum on the changed descriptor, and puts the entry over
the directory's checksum record. -/
theorem create_noSeed_breaks : mount noSeedDevice = .ok (noSeedVolume, noSeedState) ∧
    Unsealed (block noSeedVolume noSeedState noSeedVolume.sblockFsb) ∧
    Ownership noSeedVolume noSeedLayout noSeedState ∧
    Checksums { noSeedVolume with
      csumSeed := uuidSeed (block noSeedVolume noSeedState noSeedVolume.sblockFsb) } noSeedLayout
      noSeedState ∧
    Tails noSeedVolume noSeedLayout noSeedState ∧
    (FsCall.createFile 2 [0x61]).run noSeedVolume noSeedState = (.ok (), noSeedAfter) ∧
    ¬Checksums { noSeedVolume with
      csumSeed := uuidSeed (block noSeedVolume noSeedState noSeedVolume.sblockFsb) } noSeedLayout
      noSeedAfter ∧
    ¬Tails noSeedVolume noSeedLayout noSeedAfter := by
  have hok : (createFile noSeedVolume 2 [0x61] noSeedState).1 = .ok 4 := by decide +kernel
  have hgroup : ¬GroupSum noSeedVolume 0 (descriptor noSeedVolume noSeedAfter 0) := by decide +kernel
  obtain ⟨htail, hiu, hdir, hflags, hmem⟩ := root_noSeedAfter
  rw [seeded_noSeed]
  refine ⟨mount_noSeed, unsealed_noSeed, ownership_noSeed, checksums_noSeed, tails_noSeed, ?_,
    fun hsums => hgroup (hsums.metadata.group 0 (by decide)),
    fun htails => htail (htails 2 hiu hdir hflags (0, 6) hmem)⟩
  have hcreate : createFile noSeedVolume 2 [0x61] noSeedState = (.ok 4, noSeedAfter) := by
    unfold noSeedAfter
    rw [← hok]
  exact Prog.bind_ok hcreate

end Pinx.Analysis
