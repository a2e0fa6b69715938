import Pinx.Analysis.Ext4Alloc
import Pinx.Analysis.SuperLocation

/-!
# The guard of block allocation

Before a block is handed out `block_reserved` compares it with the bitmaps and the inode
table of its own group, and in group 0 with the end of the group descriptors.  Whatever the
bitmaps say, no metadata block is handed out exactly if each metadata block is covered by
the guard of the group it lies in.  Where a group keeps its metadata in another group, as
with flexible groups, it is not.
-/

namespace Pinx.Analysis

open Pinx.Foundation Pinx.Model

variable {v : Ext4} {L : Layout} {s s' : FsState} {g p q n idx : ℕ}

/-! ## Metadata -/

/-- The groups the blocks of a volume make up. -/
def groupCount (v : Ext4) : ℕ := (v.blocksTotal - v.firstDataBlock + v.bpg - 1) / v.bpg

/-- The end of the descriptors of these groups and of the blocks kept for more of them. -/
def descriptorsEnd (v : Ext4) : ℕ :=
  v.gdtFsb + (groupCount v * v.descSize + v.bs - 1) / v.bs + v.reservedGdtBlocks

/-- Block `p` is a bitmap or a block of the inode table of a group, by its descriptor. -/
def GroupMetadata (v : Ext4) (s : FsState) (g p : ℕ) : Prop :=
  p = v.gdBlockBitmap (descriptor v s g) ∨ p = v.gdInodeBitmap (descriptor v s g) ∨
    v.gdInodeTable (descriptor v s g) ≤ p ∧ p < v.gdInodeTable (descriptor v s g) + itBlocks v

/-- Block `p` belongs to the metadata of the volume. -/
def Metadata (v : Ext4) (s : FsState) (p : ℕ) : Prop :=
  p < descriptorsEnd v ∨ ∃ g < groupCount v, GroupMetadata v s g p

/-- A block that is handed out is on the volume and no metadata. -/
def Spares (v : Ext4) (s : FsState) : Prop :=
  ∀ p s', allocBlock v s = (.ok p, s') → p < v.blocksTotal ∧ ¬Metadata v s p

/-- Each metadata block a bitmap has a bit for is covered by the guard of its own group. -/
def Guarded (v : Ext4) (s : FsState) : Prop :=
  ∀ p, IsBlock v p → (p - v.firstDataBlock) % v.bpg < v.bpg / 8 * 8 → Metadata v s p →
    reserved v s ((p - v.firstDataBlock) / v.bpg) p = true

/-! ## What is handed out on any volume -/

theorem groupDescriptor_eq {gd : Bytes} (h : groupDescriptor v g s = (.ok gd, s')) :
    gd = descriptor v s g ∧ s' = s := by
  unfold groupDescriptor at h
  rw [Prog.ite_apply] at h
  rcases ite_eq_iff.mp h with ⟨-, h⟩ | ⟨-, h⟩
  · cases h
  obtain ⟨buf, hread, h⟩ := (reads_readFsb v _).bind_eq_ok.mp h
  rcases readFsb_cases v s (v.gdBlock g) with hok | ⟨e, -, herr⟩
  · rw [hok] at hread
    cases hread
    unfold sliceBuf at h
    rw [Prog.ite_apply] at h
    rcases ite_eq_iff.mp h with ⟨-, h⟩ | ⟨-, h⟩
    · cases h
      exact ⟨rfl, rfl⟩
    · cases h
  · rw [herr] at hread
    cases hread

/-- A block the guard lets through is not covered by it. -/
theorem blockReserved_false (h : blockReserved v g p s = (.ok false, s')) :
    reserved v s g p = false ∧ s' = s := by
  unfold blockReserved at h
  rw [Prog.ite_apply] at h
  rcases ite_eq_iff.mp h with ⟨-, h⟩ | ⟨hend, h⟩
  · cases h
  unfold Prog.handle at h
  split at h
  · rename_i s₁ hrun
    cases h
    obtain ⟨gd, hgd, hres⟩ := (reads_groupDescriptor v g).bind_eq_ok.mp hrun
    obtain ⟨rfl, -⟩ := groupDescriptor_eq hgd
    rw [Prog.ite_apply] at hres
    rcases ite_eq_iff.mp hres with ⟨-, hres⟩ | ⟨-, hres⟩
    · cases hres
    · obtain ⟨hby, hstate⟩ := Prod.mk.inj hres
      refine ⟨?_, hstate.symm⟩
      rw [reserved, decide_eq_false hend, Bool.false_or]
      exact Except.ok.inj hby
  · rename_i e s₁ hrun
    cases e with
    | error e => cases h
    | fault f => cases h

/-- The block of a bit that a scan stops at. -/
structure Passed (v : Ext4) (s : FsState) (g p : ℕ) : Prop where
  bit : ∃ j < v.bpg / 8 * 8, p = v.firstDataBlock + g * v.bpg + j
  below : p < v.blocksTotal
  free : reserved v s g p = false

/-- SOURCE: ext4.rs:696-740 -/
theorem allocBit_passed (h : allocBit v false s = (.ok p, s')) : ∃ g, Passed v s g p := by
  have hrun := allocBit_searched v s false
  rw [h] at hrun
  cases hrun with
  | found _ _ hj _ htakes _ =>
    exact ⟨_, ⟨_, hj, rfl⟩, htakes.below rfl, (blockReserved_false (htakes.spare rfl)).1⟩

/-- A block that is handed out has passed the guard of its group. -/
theorem allocBlock_passed (h : allocBlock v s = (.ok p, s')) :
    IsBlock v p ∧ (p - v.firstDataBlock) % v.bpg < v.bpg / 8 * 8 ∧
      reserved v s ((p - v.firstDataBlock) / v.bpg) p = false := by
  obtain ⟨fsb, s₁, halloc, h⟩ := Prog.bind_eq_ok.mp h
  have hsame : fsb = p := by
    obtain ⟨_, s₂, -, h⟩ := Prog.bind_eq_ok.mp h
    obtain ⟨_, s₃, -, h⟩ := Prog.bind_eq_ok.mp h
    obtain ⟨_, s₄, -, h⟩ := Prog.bind_eq_ok.mp h
    obtain ⟨_, s₅, -, h⟩ := Prog.bind_eq_ok.mp h
    cases h
    rfl
  subst hsame
  obtain ⟨g, ⟨j, hj, hpos⟩, hbelow, hfree⟩ := allocBit_passed halloc
  have hle := Nat.div_mul_le_self v.bpg 8
  obtain ⟨hdiv, hmod⟩ := (unit_iff (a := v.firstDataBlock) (n := v.bpg) (g := g) (j := j) (k := fsb)
    (by omega) (by omega)).mpr hpos
  rw [hdiv, hmod]
  exact ⟨⟨by omega, hbelow⟩, hj, hfree⟩

/-- The guard of each group is enough on any volume if it covers the metadata in the group. -/
theorem Guarded.spares (h : Guarded v s) : Spares v s := by
  intro p s' halloc
  obtain ⟨hp, hbit, hfree⟩ := allocBlock_passed halloc
  refine ⟨hp.2, fun hmeta => ?_⟩
  rw [h p hp hbit hmeta] at hfree
  cases hfree

/-! ## A bitmap with one free bit -/

/-- A bitmap in which all bits but one are set. -/
def allBut (i : ℕ) : Bytes := fun k => if k = i / 8 then UInt8.ofNat (255 - 2 ^ (i % 8)) else 255

/-- All bits but one are set. -/
theorem testBit_allBut (i j : ℕ) : (allBut i).testBit j = decide (j ≠ i) := by
  have hbits : ∀ r < 8, ∀ k < 8,
      Nat.testBit (UInt8.ofNat (255 - 2 ^ r)).toNat k = decide (k ≠ r) := by decide
  have hones : ∀ k < 8, Nat.testBit (255 : UInt8).toNat k = true := by decide
  have hi := Nat.mod_lt i (show 0 < 8 by omega)
  have hj := Nat.mod_lt j (show 0 < 8 by omega)
  unfold Bytes.testBit allBut
  by_cases hbyte : j / 8 = i / 8
  · rw [if_pos hbyte, hbits _ hi _ hj, decide_eq_decide]
    omega
  · rw [if_neg hbyte, hones _ hj, eq_comm, decide_eq_true_eq]
    rintro rfl
    exact hbyte rfl

theorem testBit_full (j : ℕ) : Bytes.testBit (fun _ => 255) j = true := by
  have hones : ∀ k < 8, Nat.testBit (255 : UInt8).toNat k = true := by decide
  exact hones _ (Nat.mod_lt j (by omega))

/-- The volume with all bits of its block bitmaps set but the one of block `q`. -/
def onlyFree (v : Ext4) (L : Layout) (s : FsState) (q : ℕ) : FsState where
  disk b := match L.role b with
    | .blockBitmap g =>
      if g = (q - v.firstDataBlock) / v.bpg then allBut ((q - v.firstDataBlock) % v.bpg)
      else fun _ => 255
    | _ => s.disk b
  freeBlocks := 0
  freeInodes := 0

section OnlyFree

variable (hv : GeometryOk v) (hL : LayoutOk v L)
include hL

theorem descriptor_onlyFree (hg : g < v.numGroups) :
    descriptor v (onlyFree v L s q) g = descriptor v s g := by
  unfold descriptor block onlyFree
  dsimp only
  rw [hL.groupTable g hg]

include hv

theorem marked_onlyFree (hp : IsBlock v p) (hq : IsBlock v q) :
    marked v L (onlyFree v L s q) p = decide (p ≠ q) := by
  have hg := hp.group_lt hv
  have hmod := Nat.mod_lt (p - v.firstDataBlock) hv.bpg_pos
  have hle := hv.bpg_le
  have hiff : p = q ↔ (p - v.firstDataBlock) / v.bpg = (q - v.firstDataBlock) / v.bpg ∧
      (p - v.firstDataBlock) % v.bpg = (q - v.firstDataBlock) % v.bpg := by
    constructor
    · rintro rfl
      exact ⟨rfl, rfl⟩
    · rintro ⟨hdiv, hrest⟩
      have hp' := Nat.div_add_mod (p - v.firstDataBlock) v.bpg
      have hq' := Nat.div_add_mod (q - v.firstDataBlock) v.bpg
      rw [hdiv, hrest] at hp'
      have := hp.1
      have := hq.1
      omega
  unfold marked block onlyFree
  dsimp only
  rw [hL.blockBitmap _ hg, Bytes.testBit_clip (by omega)]
  dsimp only
  by_cases hgroup : (p - v.firstDataBlock) / v.bpg = (q - v.firstDataBlock) / v.bpg
  · rw [if_pos hgroup, testBit_allBut, decide_eq_decide, ne_eq, ne_eq, hiff, hgroup, eq_self_iff_true,
      true_and]
  · have hne : p ≠ q := fun heq => hgroup (hiff.mp heq).1
    rw [if_neg hgroup, decide_eq_true hne, testBit_full]

/-- The one block left free is handed out, unless the guard covers it. -/
theorem allocBlock_onlyFree (hp : PlacedAt v L s) (hq : IsBlock v q)
    (hbit : (q - v.firstDataBlock) % v.bpg < v.bpg / 8 * 8)
    (hfree : reserved v s ((q - v.firstDataBlock) / v.bpg) q = false) :
    ∃ s', allocBlock v (onlyFree v L s q) = (.ok q, s') := by
  have hg := hq.group_lt hv
  have hplaced : PlacedAt v L (onlyFree v L s q) := by
    intro g hg
    rw [descriptor_onlyFree hL hg]
    exact hp g hg
  have hclear : marked v L (onlyFree v L s q) q = false := by
    rw [marked_onlyFree hv hL hq hq]
    exact decide_eq_false fun h => h rfl
  have hres : reserved v (onlyFree v L s q) ((q - v.firstDataBlock) / v.bpg) q = false := by
    unfold reserved at hfree ⊢
    rwa [descriptor_onlyFree hL hg]
  have hfreeBlock : freeBlock v L (onlyFree v L s q) q = true :=
    (freeBlock_iff hv).mpr ⟨hq, hbit, hclear, hres⟩
  unfold freeBlock at hfreeBlock
  rw [Bool.and_eq_true] at hfreeBlock
  obtain ⟨p, s', hrun, htaken⟩ := allocBlock_ok hv hL hplaced
    ⟨Nat.two_pow_pos 63, Nat.two_pow_pos 63⟩ hg hbit hfreeBlock.2
  have hfresh := htaken.fresh
  rw [marked_onlyFree hv hL htaken.isBlock hq, decide_eq_false_iff_not, not_not] at hfresh
  rw [hfresh] at hrun
  exact ⟨s', hrun⟩

end OnlyFree

/-! ## The guard and every bitmap content -/

/-- Two states whose descriptors are the same. -/
def SameDescriptors (v : Ext4) (s s' : FsState) : Prop :=
  ∀ g < v.numGroups, descriptor v s' g = descriptor v s g

theorem groupCount_le (hv : GeometryOk v) : groupCount v ≤ v.numGroups := by
  have hbpg := hv.bpg_pos
  have hgroups := hv.groups
  unfold groupCount
  rw [Nat.div_le_iff_le_mul hbpg]
  omega

theorem SameDescriptors.metadata_iff (hv : GeometryOk v) (h : SameDescriptors v s s') :
    Metadata v s' p ↔ Metadata v s p := by
  unfold Metadata GroupMetadata
  refine or_congr_right (exists_congr fun g => and_congr_right fun hg => ?_)
  rw [h g (by have := groupCount_le hv; omega)]

theorem SameDescriptors.guarded (hv : GeometryOk v) (h : SameDescriptors v s s')
    (hguard : Guarded v s) : Guarded v s' := by
  intro p hp hbit hmeta
  unfold reserved
  rw [h _ (hp.group_lt hv)]
  exact hguard p hp hbit ((h.metadata_iff hv).mp hmeta)

/-- When the guard is enough.  The first part is for any device; the second, for volumes whose
descriptors place every group's metadata in blocks of its own, over all other contents. -/
theorem guard_spares_iff (v : Ext4) :
    (∀ s, Guarded v s → Spares v s) ∧
      ∀ L s, GeometryOk v → LayoutOk v L → PlacedAt v L s →
        ((∀ s', SameDescriptors v s s' → Spares v s') ↔ Guarded v s) := by
  refine ⟨fun s => Guarded.spares, fun L s hv hL hp => ⟨?_, ?_⟩⟩
  · intro hspares q hq hbit hmeta
    by_contra hfree
    rw [Bool.not_eq_true] at hfree
    obtain ⟨s', hrun⟩ := allocBlock_onlyFree hv hL hp hq hbit hfree
    have hsame : SameDescriptors v s (onlyFree v L s q) := fun g hg => descriptor_onlyFree hL hg
    exact (hspares _ hsame q s' hrun).2 ((hsame.metadata_iff hv).mpr hmeta)
  · intro hguard s' hsame
    exact (hsame.guarded hv hguard).spares

/-- A volume of two groups of 16 blocks of 1024 bytes. -/
def twoGroupVolume : Ext4 := { sampleVolume 2 16 32 with csumSeed := 0xBD8F6515 }

/-- The places of both bitmaps and the table, in a descriptor at `k`. -/
def putPlaces (b : Bytes) (k : ℕ) (places : ℕ × ℕ × ℕ) : Bytes :=
  ((b.putLE k 4 places.1).putLE (k + 4) 4 places.2.1).putLE (k + 8) 4 places.2.2

/-- The volume with these places, and bitmaps never written. -/
def twoGroupDevice (first second : ℕ × ℕ × ℕ) : Device :=
  blockDevice 64 fun
    | 1 => sampleSuper 16 32 16 0x242
    | 2 => putPlaces (putPlaces (fun _ => 0) 0 first) 32 second
    | _ => fun _ => 0

def twoGroupState (first second : ℕ × ℕ × ℕ) : FsState := (twoGroupDevice first second).state 1024 0 0

instance (v : Ext4) (s : FsState) (p : ℕ) : Decidable (Metadata v s p) :=
  inferInstanceAs (Decidable (_ ∨ ∃ g < _, _ ∨ _ ∨ _))

theorem super_twoGroup : readBlockSize (Bytes.clip 1024 (sampleSuper 16 32 16 0x242)) = .ok 1024 ∧
    readSuper 64 1024 (Bytes.clip 1024 (sampleSuper 16 32 16 0x242)) = .ok (twoGroupVolume, 0, 0) := by
  decide +kernel

theorem mount_twoGroup (first second : ℕ × ℕ × ℕ) : mount (twoGroupDevice first second) =
    .ok (twoGroupVolume, twoGroupState first second) :=
  mount_blockDevice (by omega) super_twoGroup

theorem guard_spares_plain : Spares twoGroupVolume (twoGroupState (3, 4, 5) (17, 18, 19)) := by
  have hguard : ∀ p < 32, 1 ≤ p →
      Metadata twoGroupVolume (twoGroupState (3, 4, 5) (17, 18, 19)) p →
      reserved twoGroupVolume (twoGroupState (3, 4, 5) (17, 18, 19)) ((p - 1) / 16) p = true := by
    decide +kernel
  exact (guard_spares_iff twoGroupVolume).1 _ fun p hp _ hmeta => hguard p hp.2 hp.1 hmeta

/-- With the metadata of both groups in the first one, the block bitmap of the second is handed
out as a data block. -/
theorem flex_bitmap_handed_out :
    mount (twoGroupDevice (3, 5, 7) (4, 6, 8)) =
        .ok (twoGroupVolume, twoGroupState (3, 5, 7) (4, 6, 8)) ∧
      (allocBlock twoGroupVolume (twoGroupState (3, 5, 7) (4, 6, 8))).1 = .ok 4 ∧
      4 = twoGroupVolume.gdBlockBitmap
        (descriptor twoGroupVolume (twoGroupState (3, 5, 7) (4, 6, 8)) 1) ∧
      ¬Spares twoGroupVolume (twoGroupState (3, 5, 7) (4, 6, 8)) := by
  have halloc : (allocBlock twoGroupVolume (twoGroupState (3, 5, 7) (4, 6, 8))).1 = .ok 4 := by
    decide +kernel
  have hmeta : Metadata twoGroupVolume (twoGroupState (3, 5, 7) (4, 6, 8)) 4 := by decide +kernel
  exact ⟨mount_twoGroup _ _, halloc, rfl, fun h => (h 4 _ (Prod.ext halloc rfl)).2 hmeta⟩

end Pinx.Analysis
