import Pinx.Analysis.AllocGuard

/-!
# The number of groups

`mount` divides the number of all blocks by the blocks per group and rounds up, without
taking off the blocks before the first data block.  On a volume whose first data block is 1
that is one group too many if the last group is full.  Otherwise the count is right, every
inode that is handed out is one of the volume, and allocation keeps to the groups there are.
-/

namespace Pinx.Analysis

open Pinx.Foundation Pinx.Model

variable {v : Ext4} {s s' : FsState} {dev : Device} {g n idx G : ℕ} {α β : Type}

/-- The counts of a superblock that fit one another. -/
structure Consistent (v : Ext4) : Prop where
  bpg : 0 < v.bpg
  ipg : 0 < v.ipg
  inodes : v.inodesTotal = v.ipg * groupCount v
  firstDataBlock : v.firstDataBlock = if v.bs = 1024 then 1 else 0

/-! ## The count -/

/-- Rounding up before and after a block is taken off. -/
theorem ceil_pred {t k : ℕ} (ht : 0 < t) (hk : 0 < k) :
    (t + k - 1) / k = (t - 1 + k - 1) / k + if (t - 1) % k = 0 then 1 else 0 := by
  obtain ⟨t, rfl⟩ : ∃ u, t = u + 1 := ⟨t - 1, by omega⟩
  have hdiv := Nat.div_add_mod t k
  have hmod := Nat.mod_lt t hk
  rw [show t + 1 + k - 1 = t + k by omega, Nat.add_sub_cancel, Nat.add_div_right t hk]
  by_cases hzero : t % k = 0
  · rw [if_pos hzero, show t + k - 1 = k * (t / k) + (k - 1) by omega, Nat.mul_add_div hk,
      Nat.div_eq_of_lt (show k - 1 < k by omega)]
  · rw [if_neg hzero, show t + k - 1 = k * (t / k + 1) + (t % k - 1) by rw [Nat.mul_succ]; omega,
      Nat.mul_add_div hk, Nat.div_eq_of_lt (show t % k - 1 < k by omega)]

/-- `mount` takes no superblock without inodes. -/
theorem mount_inodes_pos {s₀ : FsState} (h : mount dev = .ok (v, s₀)) : 0 < v.inodesTotal := by
  obtain ⟨sb, bs, sb', fb, fi, -, -, -, hsuper, rfl⟩ := mount_ok h
  exact Nat.pos_of_ne_zero (not_or.mp (readSuper_taken hsuper).counts).1

/-- Where `mount` counts the groups right. -/
theorem numGroups_eq_iff (hf : MountFields v) (hc : Consistent v) (hpos : 0 < v.inodesTotal) :
    v.numGroups = groupCount v ↔ ¬(v.firstDataBlock = 1 ∧ v.bpg ∣ v.blocksTotal - 1) := by
  have hcount : 0 < groupCount v := by
    rw [hc.inodes] at hpos
    exact Nat.pos_of_mul_pos_left hpos
  have hsmall : groupCount v < 2 ^ 32 := by
    have hlt := hf.inodesTotal
    rw [hc.inodes] at hlt
    exact lt_of_le_of_lt (Nat.le_mul_of_pos_left _ hc.ipg) hlt
  rw [hf.numGroups]
  have hfirst := hc.firstDataBlock
  by_cases hbs : v.bs = 1024
  · rw [if_pos hbs] at hfirst
    have htotal : 0 < v.blocksTotal := by
      by_contra hzero
      have hnone : groupCount v = 0 := by
        unfold groupCount
        rw [Nat.div_eq_of_lt (by have := hc.bpg; omega)]
      omega
    have hceil := ceil_pred htotal hc.bpg
    rw [Nat.dvd_iff_mod_eq_zero, hceil]
    unfold groupCount at hsmall ⊢
    rw [hfirst] at hsmall ⊢
    by_cases hfull : (v.blocksTotal - 1) % v.bpg = 0
    · rw [if_pos hfull]
      simp only [hfull, and_self, not_true_eq_false, iff_false]
      omega
    · rw [if_neg hfull, Nat.add_zero, Nat.mod_eq_of_lt hsmall]
      simp only [hfull, and_false, not_false_eq_true]
  · rw [if_neg hbs] at hfirst
    unfold groupCount at hsmall ⊢
    rw [hfirst, Nat.sub_zero] at hsmall ⊢
    rw [Nat.mod_eq_of_lt hsmall]
    exact iff_of_true rfl fun h => absurd h.1 (by omega)

/-! ## Inodes that are handed out -/

/-- A bit the search finds is one of a group counted. -/
theorem allocBit_inode {unit : ℕ} (h : allocBit v true s = (.ok unit, s')) :
    ∃ g < v.numGroups, ∃ j < v.ipg, unit = g * v.ipg + j + 1 := by
  have hrun := allocBit_searched v s true
  rw [h] at hrun
  cases hrun with
  | @found g j _ _ _ hg hj =>
    exact ⟨g, hg, j, lt_of_lt_of_le hj (Nat.div_mul_le_self v.ipg 8), rfl⟩

/-- An inode that is handed out belongs to one of the groups counted. -/
theorem allocInode_range {isDir : Bool} {ino : ℕ} (hsmall : v.ipg * v.numGroups < 2 ^ 32)
    (h : allocInode v isDir s = (.ok ino, s')) : 1 ≤ ino ∧ ino ≤ v.ipg * v.numGroups := by
  obtain ⟨unit, s₁, halloc, h⟩ := Prog.bind_eq_ok.mp h
  obtain ⟨g, hg, j, hj, hunit⟩ := allocBit_inode halloc
  have hle : (g + 1) * v.ipg ≤ v.numGroups * v.ipg := Nat.mul_le_mul_right _ (by omega)
  rw [Nat.succ_mul, Nat.mul_comm v.numGroups] at hle
  have hmod : unit % 2 ^ 32 = unit := Nat.mod_eq_of_lt (by omega)
  have hsame : unit = ino := by
    rw [hmod, if_neg (by omega)] at h
    obtain ⟨_, s₂, -, h⟩ := Prog.bind_eq_ok.mp h
    obtain ⟨_, s₃, -, h⟩ := Prog.bind_eq_ok.mp h
    obtain ⟨_, s₄, -, h⟩ := Prog.bind_eq_ok.mp h
    obtain ⟨_, s₅, -, h⟩ := Prog.bind_eq_ok.mp h
    obtain ⟨_, s₆, -, h⟩ := Prog.bind_eq_ok.mp h
    cases h
    rfl
  omega

/-! ## The groups allocation uses -/

/-- A routine put together from steps that use the groups below `G` only: it reads and writes
their descriptors, the bitmaps these descriptors name and the blocks in `A`, and the counts in
memory. -/
inductive Within (v : Ext4) (G : ℕ) : Set ℕ → (α : Type) → Fs α → Prop
  | ret (A : Set ℕ) (α : Type) (a : α) : Within v G A α (pure a)
  | fail (A : Set ℕ) (α : Type) (e : FsFail) : Within v G A α (Prog.fail e)
  | lift (A : Set ℕ) (α : Type) (r : Except FsFail α) : Within v G A α (Prog.lift r)
  | counts (A : Set ℕ) (α : Type) (f : ℕ → ℕ → α) :
    Within v G A α (Prog.read fun s => f s.freeBlocks s.freeInodes)
  | setCounts (A : Set ℕ) (fb fi : ℕ → ℕ) : Within v G A Unit
    (Prog.modify fun s => { s with freeBlocks := fb s.freeBlocks, freeInodes := fi s.freeInodes })
  | bind (A : Set ℕ) (α β : Type) (x : Fs α) (f : α → Fs β) (hx : Within v G A α x)
    (hf : ∀ a, Within v G A β (f a)) : Within v G A β (x >>= f)
  | handle (A : Set ℕ) (α : Type) (x : Fs α) (h : FsFail → Except FsFail α)
    (hx : Within v G A α x) : Within v G A α (Prog.handle x h)
  | read (A : Set ℕ) (b : ℕ) (hb : b ∈ A) : Within v G A Bytes (readFsb v b)
  | write (A : Set ℕ) (b : ℕ) (buf : Bytes) (hb : b ∈ A) : Within v G A Unit (writeFsb v b buf)
  | descriptor (A : Set ℕ) (g : ℕ) (hg : g < G) : Within v G A Bytes (groupDescriptor v g)
  | push (A : Set ℕ) (g : ℕ) (gd : Bytes) (hg : g < G) : Within v G A Unit (pushGroup v g gd)
  | bitmap (A : Set ℕ) (α : Type) (g : ℕ) (w : Bool) (f : ℕ → Fs α) (hg : g < G)
    (hf : ∀ b, Within v G (insert b A) α (f b)) : Within v G A α (readBitmap v g w >>= f)

namespace Within

variable {A : Set ℕ} {x y : Fs α} {f : α → Fs β}

theorem ite {c : Prop} [Decidable c] (hx : c → Within v G A α x) (hy : ¬c → Within v G A α y) :
    Within v G A α (if c then x else y) := by
  split
  · exact hx ‹_›
  · exact hy ‹_›

theorem mono {B : Set ℕ} (hsub : A ⊆ B) (h : Within v G A α x) : Within v G B α x := by
  induction h generalizing B with
  | ret A α a => exact .ret B α a
  | fail A α e => exact .fail B α e
  | lift A α r => exact .lift B α r
  | counts A α f => exact .counts B α f
  | setCounts A fb fi => exact .setCounts B fb fi
  | bind A α β x f hx hf ihx ihf => exact .bind B α β x f (ihx hsub) fun a => ihf a hsub
  | handle A α x h hx ih => exact .handle B α x h (ih hsub)
  | read A b hb => exact .read B b (hsub hb)
  | write A b buf hb => exact .write B b buf (hsub hb)
  | descriptor A g hg => exact .descriptor B g hg
  | push A g gd hg => exact .push B g gd hg
  | bitmap A α g w f hg hf ih =>
    exact .bitmap B α g w f hg fun b => ih b (Set.insert_subset_insert hsub)

end Within

/-- Nothing is read for a group that is not counted. -/
theorem groupDescriptor_beyond (hg : v.numGroups ≤ g) : groupDescriptor v g = failWith .corrupt :=
  if_pos hg

section Groups

variable {A : Set ℕ} (hcount : v.numGroups = G)
include hcount

theorem within_groupDescriptor (g : ℕ) : Within v G A Bytes (groupDescriptor v g) := by
  by_cases hg : g < G
  · exact .descriptor A g hg
  · rw [groupDescriptor_beyond (by omega)]
    exact .fail A _ _

theorem within_bitmap {w : Bool} {f : ℕ → Fs α} (hf : ∀ b, Within v G (insert b A) α (f b)) (g : ℕ) :
    Within v G A α (readBitmap v g w >>= f) := by
  by_cases hg : g < G
  · exact .bitmap A α g w f hg hf
  · have hnone : readBitmap v g w >>= f = failWith .corrupt := by
      rw [readBitmap, groupDescriptor_beyond (by omega)]
      rfl
    rw [hnone]
    exact .fail A _ _

theorem within_withGroup (g : ℕ) (change : Bytes → Bytes) :
    Within v G A Unit (withGroup v g change) := by
  by_cases hg : g < G
  · exact .bind A _ _ _ _ (.descriptor A g hg) fun gd => .push A g _ hg
  · have hnone : withGroup v g change = failWith .corrupt := by
      rw [withGroup, groupDescriptor_beyond (by omega)]
      rfl
    rw [hnone]
    exact .fail A _ _

theorem within_blockReserved (g p : ℕ) : Within v G A Bool (blockReserved v g p) :=
  Within.ite (fun _ => .ret A _ _) fun _ => .handle A _ _ _ (.bind A _ _ _ _
    (within_groupDescriptor hcount g) fun _ => Within.ite (fun _ => .fail A _ _) fun _ => .ret A _ _)

theorem within_allocScan (w : Bool) (g fsb : ℕ) (bm : Bytes) (hfsb : fsb ∈ A) (n idx : ℕ) :
    Within v G A (Option ℕ) (allocScan v w g fsb bm n idx) := by
  induction n generalizing idx with
  | zero => exact .ret A _ _
  | succ n ih =>
    have htake : ∀ buf unit, Within v G A (Option ℕ) (do writeFsb v fsb buf; return some unit) :=
      fun buf unit => .bind A _ _ _ _ (.write A fsb buf hfsb) fun _ => .ret A _ _
    rw [allocScan]
    refine Within.ite (fun _ => .fail A _ _) fun _ => Within.ite (fun _ => ih _) fun _ =>
      Within.ite (fun _ => htake _ _) fun _ => Within.ite (fun _ => ih _) fun _ => ?_
    refine .bind A _ _ _ _ (within_blockReserved hcount g _) fun answer => ?_
    exact Within.ite (fun _ => ih _) fun _ => htake _ _

theorem within_allocGroups (w : Bool) (n g : ℕ) : Within v G A ℕ (allocGroups v w n g) := by
  induction n generalizing g with
  | zero => exact .fail A _ _
  | succ n ih =>
    rw [allocGroups]
    refine within_bitmap hcount (fun fsb => ?_) g
    refine .bind _ _ _ _ _ (.read _ fsb (Set.mem_insert fsb A)) fun bm => ?_
    refine .bind _ _ _ _ _ (within_allocScan hcount w g fsb bm (Set.mem_insert fsb A) _ _) fun found => ?_
    cases found with
    | none => exact (ih _).mono (Set.subset_insert fsb A)
    | some unit => exact .ret _ _ _

theorem within_commitAlloc (hsuper : v.sblockFsb ∈ A) (g : ℕ) (dblk dino ddir : ℤ)
    (bb ib itu : Option ℕ) : Within v G A Unit (commitAlloc v g dblk dino ddir bb ib itu) := by
  refine .bind A _ _ _ _ (within_withGroup hcount g _) fun _ => ?_
  refine .bind A _ _ _ _ (.counts A _ fun fb _ => fb) fun fb => ?_
  refine .bind A _ _ _ _ (.lift A _ _) fun fb => ?_
  refine .bind A _ _ _ _ (.setCounts A (fun _ => fb) id) fun _ => ?_
  refine .bind A _ _ _ _ (.counts A _ fun _ fi => fi) fun fi => ?_
  refine .bind A _ _ _ _ (.lift A _ _) fun fi => ?_
  refine .bind A _ _ _ _ (.setCounts A id fun _ => fi) fun _ => ?_
  exact .bind A _ _ _ _ (.read A _ hsuper) fun sb => .write A _ _ hsuper

omit hcount in
theorem within_checksumBitmap (bm : Bytes) (n : ℕ) : Within v G A ℕ (checksumBitmap v bm n) :=
  Within.ite (fun _ => .fail A _ _) fun _ => .ret A _ _

/-- SOURCE: ext4.rs:799-812 -/
theorem within_allocBlock : Within v G {v.sblockFsb} ℕ (allocBlock v) := by
  refine .bind _ _ _ _ _ (within_allocGroups hcount _ _ _) fun fsb => ?_
  refine within_bitmap hcount (fun bmFsb => ?_) _
  refine .bind _ _ _ _ _ (.read _ bmFsb (Set.mem_insert _ _)) fun bm => ?_
  refine .bind _ _ _ _ _ (within_checksumBitmap bm _) fun bb => ?_
  exact .bind _ _ _ _ _ (within_commitAlloc hcount (Or.inr rfl) _ _ _ _ _ _ _)
    fun _ => .ret _ _ _

/-- SOURCE: ext4.rs:814-848 -/
theorem within_allocInode (isDir : Bool) : Within v G {v.sblockFsb} ℕ (allocInode v isDir) := by
  refine .bind _ _ _ _ _ (within_allocGroups hcount _ _ _) fun ino => ?_
  refine Within.ite (fun _ => .fail _ _ _) fun _ => within_bitmap hcount (fun bmFsb => ?_) _
  refine .bind _ _ _ _ _ (.read _ bmFsb (Set.mem_insert _ _)) fun bm => ?_
  refine .bind _ _ _ _ _ (within_checksumBitmap bm _) fun ib => ?_
  refine .bind _ _ _ _ _ (within_groupDescriptor hcount _) fun gd => ?_
  exact .bind _ _ _ _ _ (within_commitAlloc hcount (Or.inr rfl) _ _ _ _ _ _ _)
    fun _ => .ret _ _ _

end Groups

/-- The descriptors place the metadata on the device, and the counts in memory are small. -/
def SoundlyPlaced (v : Ext4) (s : FsState) : Prop :=
  GeometryOk v ∧ SmallCounts s ∧ ∃ L, LayoutOk v L ∧ PlacedAt v L s

theorem consistent_twoGroup : Consistent twoGroupVolume where
  bpg := by decide
  ipg := by decide
  inodes := by decide
  firstDataBlock := by decide

/-- A volume of one full group of 16 blocks behind the boot block, all inodes in use. -/
def fullGroupVolume : Ext4 := { twoGroupVolume with sectors := 34, blocksTotal := 17, inodesTotal := 8 }

def fullGroupDevice : Device :=
  blockDevice 34 fun
    | 1 => sampleSuper 8 17 16 0x42
    | 2 => putPlaces (fun _ => 0) 0 (3, 4, 5)
    | 4 => fun _ => 0xFF
    | _ => fun _ => 0

def fullGroupState : FsState := fullGroupDevice.state 1024 0 0

theorem super_fullGroup : readBlockSize (Bytes.clip 1024 (sampleSuper 8 17 16 0x42)) = .ok 1024 ∧
    readSuper 34 1024 (Bytes.clip 1024 (sampleSuper 8 17 16 0x42)) = .ok (fullGroupVolume, 0, 0) := by
  decide +kernel

theorem allocInode_fullGroup : (allocInode fullGroupVolume false fullGroupState).1 = .ok 9 ∧
    fullGroupState.disk 0 0 = 0 ∧ (allocInode fullGroupVolume false fullGroupState).2.disk 0 0 = 1 := by
  decide +kernel

end Pinx.Analysis
