import Pinx.Analysis.Ext4Layout

/-!
# Checksums and counts of the metadata

The rules for the checksums of the superblock, the group descriptors and the bitmaps
(`MetaSums`), and what `commit_alloc` does to all of these (`Committed`): it changes one
descriptor and the superblock, keeps the locations and makes the checksums valid.
-/

namespace Pinx.Analysis

open Pinx.Foundation Pinx.Model

variable {v : Ext4} {L : Layout} {s s' : FsState}

/-! ## Checksums of the metadata -/

/-- The four bytes of a number. -/
def le4 (n : ℕ) : List UInt8 := Bytes.slice (fun k => UInt8.ofNat (n / 256 ^ k)) 0 4

/-- The superblock's checksum is that of the bytes before it. -/
def SuperSum (sb : Bytes) : Prop :=
  sb.getLE 0x3FC 4 = crc32c 0xFFFFFFFF (sb.slice 0 0x3FC) % 2 ^ 32

instance (sb : Bytes) : Decidable (SuperSum sb) := inferInstanceAs (Decidable (_ = _))

/-- A descriptor's checksum covers the group number and the descriptor with the checksum
taken as zero. -/
def GroupSum (v : Ext4) (g : ℕ) (gd : Bytes) : Prop :=
  gd.getLE 0x1E 2 =
    crc32c v.csumSeed (le4 g ++ (gd.putLE 0x1E 2 0).slice 0 v.descSize) % 2 ^ 16

instance (v : Ext4) (g : ℕ) (gd : Bytes) : Decidable (GroupSum v g gd) :=
  inferInstanceAs (Decidable (_ = _))

/-- A value kept in two halves, as it is read. -/
def splitField (desc64 : Bool) (gd : Bytes) (lo hi : ℕ) : ℕ :=
  gd.getLE lo 2 + if desc64 then gd.getLE hi 2 * 2 ^ 16 else 0

/-- The checksum of a bitmap, of which descriptors without 64-bit fields keep the lower
half. -/
def BitmapSum (v : Ext4) (gd : Bytes) (lo hi : ℕ) (bm : Bytes) (n : ℕ) : Prop :=
  splitField v.has64bit gd lo hi =
    crc32c v.csumSeed (bm.slice 0 n) % if v.has64bit then 2 ^ 32 else 2 ^ 16

instance (v : Ext4) (gd : Bytes) (lo hi : ℕ) (bm : Bytes) (n : ℕ) :
    Decidable (BitmapSum v gd lo hi bm n) :=
  inferInstanceAs (Decidable (_ = _))

/-- Superblock, descriptors and bitmaps carry their checksums. -/
structure MetaSums (v : Ext4) (L : Layout) (s : FsState) : Prop where
  super : SuperSum (block v s v.sblockFsb)
  group : ∀ g < v.numGroups, GroupSum v g (descriptor v s g)
  blocks : ∀ g < v.numGroups,
    BitmapSum v (descriptor v s g) 0x18 0x38 (block v s (L.blockBitmap g)) (v.bpg / 8)
  inodes : ∀ g < v.numGroups,
    BitmapSum v (descriptor v s g) 0x1A 0x3A (block v s (L.inodeBitmap g)) (v.ipg / 8)

/-- The checksum of the source is the rule's. -/
theorem groupCsum_eq (hsize : 32 ≤ v.descSize) (g : ℕ) (gd : Bytes) :
    v.groupCsum g gd =
      crc32c v.csumSeed (le4 g ++ (gd.putLE 0x1E 2 0).slice 0 v.descSize) := by
  have hzero : (gd.putLE 0x1E 2 0).slice 0x1E 2 = [0, 0] := by
    simp [Bytes.slice, List.range_succ, Bytes.putLE, Bytes.blit]
  have hhead : (gd.putLE 0x1E 2 0).slice 0 0x1E = gd.slice 0 0x1E :=
    Bytes.slice_putLE_outside (by omega)
  have htail : (gd.putLE 0x1E 2 0).slice 0x20 (v.descSize - 0x20) =
      gd.slice 0x20 (v.descSize - 0x20) := Bytes.slice_putLE_outside (by omega)
  have hsplit : (gd.putLE 0x1E 2 0).slice 0 v.descSize =
      gd.slice 0 0x1E ++ [0, 0] ++ gd.slice 0x20 (v.descSize - 0x20) := by
    rw [show v.descSize = 0x1E + 2 + (v.descSize - 0x20) by omega, Bytes.slice_append,
      Bytes.slice_append, hhead, Nat.zero_add, hzero, Nat.zero_add,
      show 0x1E + 2 + (v.descSize - 0x20) - 0x20 = v.descSize - 0x20 by omega]
    exact congrArg _ htail
  rw [hsplit, crc32c_append, crc32c_append, crc32c_append]
  unfold Ext4.groupCsum
  by_cases hlt : 0x20 < v.descSize
  · rw [if_pos hlt]
    rfl
  · have hnil : gd.slice 0x20 (v.descSize - 0x20) = [] := by
      rw [show v.descSize - 0x20 = 0 by omega]
      rfl
    rw [if_neg hlt, hnil]
    rfl

theorem groupSum_stamp (hsize : 32 ≤ v.descSize) (hmeta : v.metaCsum = true) (g : ℕ) (gd : Bytes) :
    GroupSum v g (stampGroup v g gd) := by
  have hzero : ∀ c, (gd.putLE 0x1E 2 c).putLE 0x1E 2 0 = gd.putLE 0x1E 2 0 := by
    intro c
    funext k
    unfold Bytes.putLE Bytes.blit
    split <;> rfl
  rw [GroupSum, stampGroup, if_pos hmeta, hzero, ← groupCsum_eq hsize, Bytes.getLE_putLE]
  rfl

theorem stampGroup_outside {g k : ℕ} {gd : Bytes} (hk : k < 0x1E ∨ 0x20 ≤ k) :
    stampGroup v g gd k = gd k := by
  unfold stampGroup
  split
  · exact Bytes.putLE_outside (by omega)
  · rfl

/-! ## What an allocation changes in a descriptor -/

theorem putSplit_outside {desc64 : Bool} {gd : Bytes} {lo hi c k : ℕ}
    (hlo : k < lo ∨ lo + 2 ≤ k) (hhi : k < hi ∨ hi + 2 ≤ k) : putSplit desc64 gd lo hi c k = gd k := by
  unfold putSplit
  split
  · rw [Bytes.putLE_outside hhi, Bytes.putLE_outside hlo]
  · rw [Bytes.putLE_outside hlo]

theorem splitField_putSplit {desc64 : Bool} {gd : Bytes} {lo hi c : ℕ} (hlh : lo + 2 ≤ hi) :
    splitField desc64 (putSplit desc64 gd lo hi c) lo hi =
      c % if desc64 then 2 ^ 32 else 2 ^ 16 := by
  cases desc64 with
  | false => simp [splitField, putSplit, Bytes.getLE_putLE]
  | true =>
    have hlow : ((gd.putLE lo 2 c).putLE hi 2 (c / 2 ^ 16)).getLE lo 2 = c % 2 ^ 16 := by
      rw [Bytes.getLE_putLE_outside (by omega), Bytes.getLE_putLE]
      rfl
    have hhigh : ((gd.putLE lo 2 c).putLE hi 2 (c / 2 ^ 16)).getLE hi 2 = c / 2 ^ 16 % 2 ^ 16 := by
      rw [Bytes.getLE_putLE]
      rfl
    simp only [splitField, putSplit, if_true, hlow, hhigh]
    omega

theorem splitField_congr {desc64 : Bool} {gd gd' : Bytes} {lo hi : ℕ}
    (hlo : ∀ j < 2, gd (lo + j) = gd' (lo + j))
    (hhi : desc64 = true → ∀ j < 2, gd (hi + j) = gd' (hi + j)) :
    splitField desc64 gd lo hi = splitField desc64 gd' lo hi := by
  unfold splitField
  rw [Bytes.getLE_congr hlo]
  split
  · rename_i h
    rw [Bytes.getLE_congr (hhi h)]
  · rfl

/-- The locations and, but for the ones asked for, the bitmap checksums stay. -/
theorem commitGd_outside {desc64 : Bool} {dblk dino ddir : ℤ} {bb ib itu : Option ℕ} {gd : Bytes}
    {k : ℕ} (hcounts : (k < 0x0C ∨ 0x12 ≤ k) ∧ (k < 0x2C ∨ 0x32 ≤ k))
    (hbb : bb = none ∨ (k < 0x18 ∨ 0x1A ≤ k) ∧ (k < 0x38 ∨ 0x3A ≤ k))
    (hib : ib = none ∨ (k < 0x1A ∨ 0x1C ≤ k) ∧ (k < 0x3A ∨ 0x3C ≤ k))
    (hitu : itu = none ∨ (k < 0x1C ∨ 0x1E ≤ k) ∧ (k < 0x32 ∨ 0x34 ≤ k)) :
    commitGd desc64 dblk dino ddir bb ib itu gd k = gd k := by
  have hbump : ∀ (gd : Bytes) lo hi d, (k < lo ∨ lo + 2 ≤ k) → (k < hi ∨ hi + 2 ≤ k) →
      bumpCount desc64 gd lo hi d k = gd k :=
    fun gd lo hi d hlo hhi => putSplit_outside hlo hhi
  have h₁ : ∀ gd : Bytes, bumpCount desc64 gd 0x0C 0x2C dblk k = gd k :=
    fun gd => hbump gd _ _ _ (by omega) (by omega)
  have h₂ : ∀ gd : Bytes, bumpCount desc64 gd 0x0E 0x2E dino k = gd k :=
    fun gd => hbump gd _ _ _ (by omega) (by omega)
  have h₃ : ∀ gd : Bytes, (if ddir ≠ 0 then bumpCount desc64 gd 0x10 0x30 ddir else gd) k = gd k := by
    intro gd
    split
    · exact hbump gd _ _ _ (by omega) (by omega)
    · rfl
  have h₄ : ∀ gd : Bytes, putSum desc64 gd 0x18 0x38 bb k = gd k := by
    intro gd
    cases bb with
    | none => rfl
    | some c =>
      obtain ⟨hlo, hhi⟩ := hbb.resolve_left (fun h => nomatch h)
      exact putSplit_outside hlo hhi
  have h₅ : ∀ gd : Bytes, putSum desc64 gd 0x1A 0x3A ib k = gd k := by
    intro gd
    cases ib with
    | none => rfl
    | some c =>
      obtain ⟨hlo, hhi⟩ := hib.resolve_left (fun h => nomatch h)
      exact putSplit_outside hlo hhi
  have h₆ : ∀ gd : Bytes, putUnused desc64 gd itu k = gd k := by
    intro gd
    cases itu with
    | none => rfl
    | some u =>
      obtain ⟨hlo, hhi⟩ := hitu.resolve_left (fun h => nomatch h)
      unfold putUnused
      dsimp only
      split
      · rw [Bytes.putLE_outside hhi, Bytes.putLE_outside hlo]
      · rw [Bytes.putLE_outside hlo]
  unfold commitGd
  rw [h₆, h₅, h₄, h₃, h₂, h₁]

/-! ## Writing descriptors and counts -/

theorem addCount_error {n : ℕ} {d : ℤ} {e : FsFail} (h : addCount n d = .error e) : Skips e := by
  unfold addCount at h
  dsimp only at h
  generalize (if n < 2 ^ 63 then (n : ℤ) else n - 2 ^ 64) + d = x at h
  split at h
  · cases h
    trivial
  · cases h

theorem addCount_ok {n : ℕ} {d : ℤ} (hn : n < 2 ^ 63) (hlo : -1 ≤ d) (hhi : d ≤ 0) :
    ∃ m ≤ n, addCount n d = .ok m := by
  refine ⟨(max ((n : ℤ) + d) 0).toNat, by omega, ?_⟩
  unfold addCount
  rw [if_pos hn]
  exact if_neg (by omega)

/-- SOURCE: ext4.rs:543-559 -/
theorem persistSuperCounts_ok {dblk dino : ℤ} {fb fi : ℕ} (hfb : addCount s.freeBlocks dblk = .ok fb)
    (hfi : addCount s.freeInodes dino = .ok fi)
    (hread : ∀ s, readFsb v v.sblockFsb s = (.ok (block v s v.sblockFsb), s))
    (hwrite : ∀ s buf, writeFsb v v.sblockFsb buf s = (.ok (), setBlock v s v.sblockFsb buf)) :
    persistSuperCounts v dblk dino s = (.ok (), setBlock v
      { s with freeBlocks := fb, freeInodes := fi } v.sblockFsb
      (v.superCounts fb fi (block v s v.sblockFsb))) := by
  unfold persistSuperCounts
  rw [Prog.bind_ok (Prog.read_apply _ s), hfb, Prog.bind_ok (Prog.lift_apply _ s),
    Prog.bind_ok (Prog.modify_apply _ s), Prog.bind_ok (Prog.read_apply _ _)]
  rw [hfi, Prog.bind_ok (Prog.lift_apply _ _), Prog.bind_ok (Prog.modify_apply _ _),
    Prog.bind_ok (hread _), hwrite]
  rfl

/-- `persist_super_counts` writes the superblock, if the counts stay in range. -/
theorem persistSuperCounts_cases (hv : GeometryOk v) (hL : LayoutOk v L) (dblk dino : ℤ) :
    (∃ fb fi, addCount s.freeBlocks dblk = .ok fb ∧ addCount s.freeInodes dino = .ok fi ∧
      persistSuperCounts v dblk dino s = (.ok (), setBlock v
        { s with freeBlocks := fb, freeInodes := fi } v.sblockFsb
        (v.superCounts fb fi (block v s v.sblockFsb)))) ∨
    (∀ fb fi, ¬(addCount s.freeBlocks dblk = .ok fb ∧ addCount s.freeInodes dino = .ok fi)) ∧
      ∃ e s', Skips e ∧ persistSuperCounts v dblk dino s = (.error e, s') := by
  have hlt : v.sblockFsb < v.blocksTotal := by
    refine (hL.range _ ?_).2
    rw [hL.super]
    exact fun h => nomatch h
  cases hfb : addCount s.freeBlocks dblk with
  | error e =>
    refine Or.inr ⟨fun fb fi h => (nomatch h.1), e, s, addCount_error hfb, ?_⟩
    rw [persistSuperCounts, Prog.bind_ok (Prog.read_apply _ s), hfb,
      Prog.bind_error (Prog.lift_apply _ s)]
  | ok fb =>
    cases hfi : addCount s.freeInodes dino with
    | error e =>
      refine Or.inr ⟨fun fb fi h => (nomatch h.2), e, { s with freeBlocks := fb },
        addCount_error hfi, ?_⟩
      rw [persistSuperCounts, Prog.bind_ok (Prog.read_apply _ s), hfb,
        Prog.bind_ok (Prog.lift_apply _ s), Prog.bind_ok (Prog.modify_apply _ s),
        Prog.bind_ok (Prog.read_apply _ _), hfi, Prog.bind_error (Prog.lift_apply _ _)]
    | ok fi =>
      exact Or.inl ⟨fb, fi, rfl, rfl, persistSuperCounts_ok hfb hfi (fun _ => readFsb_ok hv hlt)
        fun _ _ => writeFsb_ok hv hlt⟩

theorem superSum_counts (hmeta : v.metaCsum = true) (fb fi : ℕ) (sb : Bytes) :
    SuperSum (v.superCounts fb fi sb) := by
  unfold SuperSum Ext4.superCounts
  rw [if_pos hmeta, Bytes.getLE_putLE, Bytes.slice_putLE_outside (by omega)]
  rfl

/-- The count of free inodes or of free blocks in a superblock, and the running one. -/
def superCount (v : Ext4) (sb : Bytes) (wantInode : Bool) : ℕ :=
  if wantInode then sb.getLE 0x10 4
  else sb.getLE 0x0C 4 + if v.has64bit then sb.getLE 0x158 4 * 2 ^ 32 else 0

def totalOf (s : FsState) (wantInode : Bool) : ℕ := if wantInode then s.freeInodes else s.freeBlocks

/-- One more than the largest count a superblock has room for. -/
def superLimit (v : Ext4) (wantInode : Bool) : ℕ :=
  if wantInode = false ∧ v.has64bit = true then 2 ^ 64 else 2 ^ 32

theorem superCount_lt (sb : Bytes) (w : Bool) : superCount v sb w < superLimit v w := by
  have hget : ∀ a, sb.getLE a 4 < 2 ^ 32 := fun a => Bytes.getLE_lt sb a 4
  have h₁ := hget 0x10
  have h₂ := hget 0x0C
  have h₃ := hget 0x158
  unfold superCount superLimit
  cases w <;> cases v.has64bit <;> simp only [if_true, if_false, Bool.false_eq_true, and_self,
    and_false, reduceCtorEq, false_and] <;> omega

theorem superCount_congr {sb sb' : Bytes} (w : Bool) (heq : ∀ k < 0x400, sb' k = sb k) :
    superCount v sb' w = superCount v sb w := by
  have hget : ∀ a, a + 4 ≤ 0x400 → sb'.getLE a 4 = sb.getLE a 4 := by
    intro a ha
    exact Bytes.getLE_congr fun j hj => heq (a + j) (by omega)
  unfold superCount
  rw [hget 0x10 (by omega), hget 0x0C (by omega), hget 0x158 (by omega)]

theorem superCount_counts (fb fi : ℕ) (sb : Bytes) (w : Bool) :
    superCount v (v.superCounts fb fi sb) w = (if w then fi else fb) % superLimit v w := by
  -- the checksum stands behind all counts
  have hsum : ∀ (m : Bytes) (a : ℕ), a + 4 ≤ 0x3FC →
      (if v.metaCsum then m.putLE 0x3FC 4 (crc32c 0xFFFFFFFF (m.slice 0 0x3FC)) else m).getLE a 4 =
        m.getLE a 4 := by
    intro m a ha
    split
    · exact Bytes.getLE_putLE_outside (by omega)
    · rfl
  unfold superCount Ext4.superCounts superLimit
  simp only [hsum _ 0x10 (by omega), hsum _ 0x0C (by omega), hsum _ 0x158 (by omega)]
  cases w with
  | true =>
    cases h64 : v.has64bit with
    | false => simp [Bytes.getLE_putLE]
    | true =>
      simp only [if_true, reduceCtorEq, false_and, if_false]
      rw [Bytes.getLE_putLE_outside (by omega), Bytes.getLE_putLE]
      rfl
  | false =>
    cases h64 : v.has64bit with
    | false => simp [Bytes.getLE_putLE_outside, Bytes.getLE_putLE]
    | true =>
      simp only [if_true, Bytes.getLE_putLE, and_self, Bool.false_eq_true, if_false]
      rw [Bytes.getLE_putLE_outside (by omega), Bytes.getLE_putLE_outside (by omega),
        Bytes.getLE_putLE]
      omega

/-! ## Committing an allocation -/

theorem SuperSum.congr {sb sb' : Bytes} (h : SuperSum sb) (heq : ∀ k < 0x400, sb' k = sb k) :
    SuperSum sb' := by
  unfold SuperSum at h ⊢
  rw [Bytes.getLE_congr (fun j hj => heq (0x3FC + j) (by omega)),
    Bytes.slice_congr (fun j hj => heq (0 + j) (by omega)), h]

theorem GroupSum.congr {g : ℕ} {gd gd' : Bytes} (h : GroupSum v g gd) (hsize : 32 ≤ v.descSize)
    (heq : ∀ k < v.descSize, gd' k = gd k) : GroupSum v g gd' := by
  unfold GroupSum at h ⊢
  have hzero : ∀ j < v.descSize, (gd'.putLE 0x1E 2 0) (0 + j) = (gd.putLE 0x1E 2 0) (0 + j) := by
    intro j hj
    unfold Bytes.putLE Bytes.blit
    split
    · rfl
    · exact heq _ (by omega)
  rw [Bytes.getLE_congr (fun j hj => heq (0x1E + j) (by omega)), Bytes.slice_congr hzero, h]

theorem BitmapSum.congr {gd gd' bm bm' : Bytes} {lo hi n : ℕ} (h : BitmapSum v gd lo hi bm n)
    (hlo : ∀ j < 2, gd' (lo + j) = gd (lo + j))
    (hhi : v.has64bit = true → ∀ j < 2, gd' (hi + j) = gd (hi + j))
    (hbm : ∀ k < n, bm' k = bm k) : BitmapSum v gd' lo hi bm' n := by
  unfold BitmapSum at h ⊢
  rw [splitField_congr hlo hhi, h, Bytes.slice_congr (fun j hj => hbm (0 + j) (by omega))]

/-- What `commit_alloc` does: the descriptor of one group and the superblock. -/
structure Committed (v : Ext4) (L : Layout) (g : ℕ) (f : Bytes → Bytes) (s s' : FsState) : Prop where
  other : ∀ b, L.role b ≠ .super → L.role b ≠ .groupTable → block v s' b = block v s b
  desc : ∀ g' < v.numGroups, ∀ k < v.descSize, descriptor v s' g' k =
    if g' = g then stampGroup v g (f ((descriptor v s g).clip v.descSize)) k
    else descriptor v s g' k
  super : v.metaCsum = true → SuperSum (block v s' v.sblockFsb)
  counts : ∀ w, superCount v (block v s' v.sblockFsb) w = totalOf s' w % superLimit v w

section Commit

variable (hv : GeometryOk v) (hL : LayoutOk v L) {g : ℕ} (hg : g < v.numGroups)
include hv hL hg

/-- SOURCE: ext4.rs:742-797 -/
theorem commitAlloc_cases (dblk dino ddir : ℤ) (bb ib itu : Option ℕ) :
    (∃ s' fb fi, addCount s.freeBlocks dblk = .ok fb ∧ addCount s.freeInodes dino = .ok fi ∧
      commitAlloc v g dblk dino ddir bb ib itu s = (.ok (), s') ∧
      s'.freeBlocks = fb ∧ s'.freeInodes = fi ∧
      Committed v L g (commitGd v.has64bit dblk dino ddir bb ib itu) s s') ∨
    (∀ fb fi, ¬(addCount s.freeBlocks dblk = .ok fb ∧ addCount s.freeInodes dino = .ok fi)) ∧
      ∃ e s', Skips e ∧ commitAlloc v g dblk dino ddir bb ib itu s = (.error e, s') := by
  have hgroup := hL.groupTable
  have hsuper := hL.super
  have hne : ∀ g' < v.numGroups, v.gdBlock g' ≠ v.sblockFsb := by
    intro g' hg' heq
    have := hgroup g' hg'
    rw [heq, hsuper] at this
    cases this
  unfold commitAlloc
  rw [Prog.bind_ok (withGroup_ok hv hL hg)]
  rcases persistSuperCounts_cases (s := setBlock v s (v.gdBlock g) _) hv hL dblk dino with
    ⟨fb, fi, hfb, hfi, hrun⟩ | ⟨hnone, e, s', he, hrun⟩
  · have hclip : ∀ (sb : Bytes), ∀ k < 0x400, sb.clip v.bs k = sb k := by
      intro sb k hk
      apply Bytes.clip_inside
      have := hv.bs
      omega
    refine Or.inl ⟨_, fb, fi, hfb, hfi, hrun, rfl, rfl, ?_, ?_, ?_, ?_⟩
    · intro b hsb hgb
      have hb : b ≠ v.sblockFsb := by
        rintro rfl
        exact hsb hsuper
      have hb' : b ≠ v.gdBlock g := by
        rintro rfl
        exact hgb (hgroup g hg)
      rw [block_setBlock_ne hb]
      exact block_setBlock_ne hb'
    · intro g' hg' k hk
      rw [← descriptor_setBlock hv hk]
      unfold descriptor
      rw [block_setBlock_ne (hne g' hg')]
      rfl
    · intro hmeta
      rw [block_setBlock_self]
      exact (superSum_counts hmeta fb fi _).congr (hclip _)
    · intro w
      rw [block_setBlock_self, superCount_congr w (hclip _), superCount_counts]
      rfl
  · exact Or.inr ⟨hnone, e, s', he, hrun⟩

end Commit

section Committed

variable {g : ℕ} {dblk dino ddir : ℤ} {bb ib itu : Option ℕ} (hv : GeometryOk v)
  (hc : Committed v L g (commitGd v.has64bit dblk dino ddir bb ib itu) s s')
include hc

/-- The bytes of the descriptors that stay. -/
theorem Committed.keeps {g' k : ℕ} (hg' : g' < v.numGroups) (hk : k < v.descSize)
    (hsum : k < 0x1E ∨ 0x20 ≤ k) (hcounts : (k < 0x0C ∨ 0x12 ≤ k) ∧ (k < 0x2C ∨ 0x32 ≤ k))
    (hbb : bb = none ∨ (k < 0x18 ∨ 0x1A ≤ k) ∧ (k < 0x38 ∨ 0x3A ≤ k))
    (hib : ib = none ∨ (k < 0x1A ∨ 0x1C ≤ k) ∧ (k < 0x3A ∨ 0x3C ≤ k))
    (hitu : itu = none ∨ (k < 0x1C ∨ 0x1E ≤ k) ∧ (k < 0x32 ∨ 0x34 ≤ k)) :
    descriptor v s' g' k = descriptor v s g' k := by
  rw [hc.desc g' hg' k hk]
  split
  · rename_i heq
    rw [stampGroup_outside hsum, commitGd_outside hcounts hbb hib hitu, Bytes.clip_inside hk, heq]
  · rfl

include hv

/-- The locations stay. -/
theorem Committed.placed (hp : PlacedAt v L s) : PlacedAt v L s' := by
  have hsize := hv.descSize
  have hfield : ∀ g' < v.numGroups, ∀ lo hi, lo + 4 ≤ 0x0C → 0x20 ≤ hi → hi + 4 ≤ 0x2C →
      v.gdU32 (descriptor v s' g') lo hi = v.gdU32 (descriptor v s g') lo hi := by
    intro g' hg' lo hi hlo hhi hhi'
    have hsame : ∀ k < v.descSize, k < 0x0C ∨ 0x20 ≤ k ∧ k < 0x2C →
        descriptor v s' g' k = descriptor v s g' k := fun k hk hplace =>
      hc.keeps hg' hk (by omega) (by omega) (by omega) (by omega) (by omega)
    unfold Ext4.gdU32
    rw [Bytes.getLE_congr fun j hj => hsame (lo + j) (by omega) (by omega)]
    split
    · rename_i h64
      have := hv.desc64 h64.1
      rw [Bytes.getLE_congr fun j hj => hsame (hi + j) (by omega) (by omega)]
    · rfl
  intro g' hg'
  obtain ⟨hb, hi, ht⟩ := hp g' hg'
  refine ⟨?_, ?_, ?_⟩
  · rw [Ext4.gdBlockBitmap, hfield g' hg' _ _ (by omega) (by omega) (by omega)]
    exact hb
  · rw [Ext4.gdInodeBitmap, hfield g' hg' _ _ (by omega) (by omega) (by omega)]
    exact hi
  · rw [Ext4.gdInodeTable, hfield g' hg' _ _ (by omega) (by omega) (by omega)]
    exact ht

/-- The descriptors' own checksums are valid again. -/
theorem Committed.groupSum (hmeta : v.metaCsum = true) {g' : ℕ} (hg' : g' < v.numGroups)
    (hold : GroupSum v g' (descriptor v s g')) : GroupSum v g' (descriptor v s' g') := by
  by_cases heq : g' = g
  · subst heq
    exact (groupSum_stamp hv.descSize hmeta g' _).congr hv.descSize fun k hk =>
      (hc.desc g' hg' k hk).trans (if_pos rfl)
  · refine hold.congr hv.descSize fun k hk => ?_
    rw [hc.desc g' hg' k hk, if_neg heq]

/-- A bitmap checksum that `commit_alloc` did not write is still there. -/
theorem Committed.bitmapSum {g' lo hi n : ℕ} {bm bm' : Bytes} (hg' : g' < v.numGroups)
    (hold : BitmapSum v (descriptor v s g') lo hi bm n) (hbm : ∀ k < n, bm' k = bm k)
    (hfield : g' ≠ g ∨ lo = 0x18 ∧ hi = 0x38 ∧ bb = none ∨ lo = 0x1A ∧ hi = 0x3A ∧ ib = none)
    (hlo : lo + 2 ≤ 0x1C) (hhi : hi + 2 ≤ 0x3C) : BitmapSum v (descriptor v s' g') lo hi bm' n := by
  have hsize := hv.descSize
  have hsame : ∀ k < v.descSize, lo ≤ k ∧ k < lo + 2 ∨ hi ≤ k ∧ k < hi + 2 →
      descriptor v s' g' k = descriptor v s g' k := by
    intro k hk hplace
    rcases hfield with hne | ⟨rfl, rfl, hbb⟩ | ⟨rfl, rfl, hib⟩
    · rw [hc.desc g' hg' k hk, if_neg hne]
    · exact hc.keeps hg' hk (by omega) (by omega) (.inl hbb) (by omega) (by omega)
    · exact hc.keeps hg' hk (by omega) (by omega) (by omega) (.inl hib) (by omega)
  refine hold.congr (fun j hj => hsame _ (by omega) (by omega)) (fun h64 j hj => ?_) hbm
  have := hv.desc64 h64
  exact hsame _ (by omega) (by omega)

/-- A bitmap checksum that `commit_alloc` wrote. -/
theorem Committed.splitField_eq (hg : g < v.numGroups) {lo hi : ℕ} (hlo : lo + 2 ≤ 0x1E)
    (hhi : 0x20 ≤ hi) (hhi' : hi + 2 ≤ 64) :
    splitField v.has64bit (descriptor v s' g) lo hi =
      splitField v.has64bit (commitGd v.has64bit dblk dino ddir bb ib itu
        ((descriptor v s g).clip v.descSize)) lo hi := by
  have hsize := hv.descSize
  have hsame : ∀ k < v.descSize, k < 0x1E ∨ 0x20 ≤ k → descriptor v s' g k =
      commitGd v.has64bit dblk dino ddir bb ib itu ((descriptor v s g).clip v.descSize) k := by
    intro k hk hout
    rw [hc.desc g hg k hk, if_pos rfl, stampGroup_outside hout]
  refine splitField_congr (fun j hj => hsame _ (by omega) (by omega)) (fun h64 j hj => ?_)
  have := hv.desc64 h64
  exact hsame _ (by omega) (by omega)

end Committed

end Pinx.Analysis
