import Mathlib.Data.Nat.Count
import Pinx.Analysis.BitmapSearch

/-!
# Taking blocks and inodes

`alloc_block` sets the bit of a block that was free, and changes bitmaps, group
descriptors and the superblock only (`BlockTaken`); `alloc_inode` does the same for
inodes (`InodeTaken`).  When nothing is free, nothing changes.
-/

namespace Pinx.Analysis

open Pinx.Foundation Pinx.Model

variable {v : Ext4} {L : Layout} {s s' : FsState}

/-! ## Marks -/

/-- The blocks an allocation may change. -/
def Bookkeeping (L : Layout) (b : ℕ) : Prop :=
  L.role b = .super ∨ L.role b = .groupTable ∨ (∃ g, L.role b = .blockBitmap g) ∨
    ∃ g, L.role b = .inodeBitmap g

/-- Whether a block, and an inode, is marked as used. -/
def marked (v : Ext4) (L : Layout) (s : FsState) (p : ℕ) : Bool :=
  (block v s (L.blockBitmap ((p - v.firstDataBlock) / v.bpg))).testBit
    ((p - v.firstDataBlock) % v.bpg)
def inodeMarked (v : Ext4) (L : Layout) (s : FsState) (i : ℕ) : Bool :=
  (block v s (L.inodeBitmap ((i - 1) / v.ipg))).testBit ((i - 1) % v.ipg)

/-- A block of the volume. -/
def IsBlock (v : Ext4) (p : ℕ) : Prop := v.firstDataBlock ≤ p ∧ p < v.blocksTotal

theorem IsBlock.group_lt (hv : GeometryOk v) {p : ℕ} (hp : IsBlock v p) :
    (p - v.firstDataBlock) / v.bpg < v.numGroups := by
  have hgroups := hv.groups
  obtain ⟨hlo, hhi⟩ := hp
  rw [Nat.div_lt_iff_lt_mul hv.bpg_pos]
  omega

/-! ## The scan for a free bit -/

/-- Whether `block_reserved` keeps a block from being taken. -/
def reserved (v : Ext4) (s : FsState) (g fsb : ℕ) : Bool :=
  decide (g = 0 ∧ fsb < v.reservedEnd) || v.reservedBy (descriptor v s g) fsb

/-- Whether the scan takes bit `j` of group `g`. -/
def freeBit (v : Ext4) (L : Layout) (s : FsState) (wantInode : Bool) (g j : ℕ) : Bool :=
  !(block v s (bitmapAt L wantInode g)).testBit j &&
    (wantInode || (decide (unitAt v false g j < v.blocksTotal) &&
      !reserved v s g (unitAt v false g j)))

section Scan

variable (hv : GeometryOk v) (hL : LayoutOk v L) {g : ℕ} (hg : g < v.numGroups)
include hL hg

theorem bitmapAt_lt (w : Bool) : bitmapAt L w g < v.blocksTotal := by
  refine (hL.range _ ?_).2
  cases w with
  | false =>
    rw [bitmapAt, if_neg Bool.false_ne_true, hL.blockBitmap g hg]
    exact fun h => nomatch h
  | true =>
    rw [bitmapAt, if_pos rfl, hL.inodeBitmap g hg]
    exact fun h => nomatch h

include hv

omit hL hg in
/-- The end of an inode table that starts on the volume has a 64-bit number. -/
theorem tableEnd_fits {fsb : ℕ} (hfsb : fsb < v.blocksTotal) (gd : Bytes) :
    v.tableEndOverflows gd fsb = false := by
  have htotal := hv.blocks
  have hinodes := hv.inodes_lt
  have hper : v.inodesTotal / v.numGroups ≤ v.inodesTotal := Nat.div_le_self _ _
  have hblocks : v.itBlocks ≤ v.inodesTotal / v.numGroups * v.inodeSize + v.bs - 1 := Nat.div_le_self _ _
  have hbs := hv.bs_le
  have hsmall : v.itBlocks < 2 ^ 48 := by
    unfold maxBlockSize at hbs
    rcases hv.inodeSize with hsize | hsize <;> rw [hsize] at hblocks <;> omega
  unfold Ext4.tableEndOverflows
  rw [Bool.and_eq_false_iff, Bool.and_eq_false_iff, decide_eq_false_iff_not, decide_eq_false_iff_not]
  omega

/-- SOURCE: ext4.rs:664-692 -/
theorem blockReserved_ok {fsb : ℕ} (hfsb : fsb < v.blocksTotal) :
    blockReserved v g fsb s = (.ok (reserved v s g fsb), s) := by
  unfold blockReserved reserved
  by_cases h : g = 0 ∧ fsb < v.reservedEnd
  · rw [if_pos h, decide_eq_true h, Bool.true_or]
    rfl
  · rw [if_neg h, decide_eq_false h, Bool.false_or]
    apply Prog.handle_ok
    rw [Prog.bind_ok (groupDescriptor_ok hv hL hg), tableEnd_fits hv hfsb]
    rfl

/-- SOURCE: ext4.rs:653-662 -/
theorem readBitmap_ok (hp : PlacedAt v L s) (w : Bool) :
    readBitmap v g w s = (.ok (bitmapAt L w g), s) := by
  rw [readBitmap, Prog.bind_ok (groupDescriptor_ok hv hL hg), (hp g hg).1, (hp g hg).2.1]
  rfl

theorem bitmapRead_layout (hp : PlacedAt v L s) (w : Bool) :
    BitmapRead v s w g (bitmapAt L w g) (block v s (bitmapAt L w g)) :=
  ⟨readBitmap_ok hv hL hg hp w, readFsb_ok hv (bitmapAt_lt hL hg w)⟩

/-- The bits the search takes are the free ones. -/
theorem freeAt_iff_freeBit (hp : PlacedAt v L s) {w : Bool} {j : ℕ} :
    FreeAt v s w g j ↔ freeBit v L s w g j = true := by
  rw [(bitmapRead_layout hv hL hg hp w).freeAt_iff]
  cases w with
  | true =>
    simp only [freeBit, Bool.true_or, Bool.and_true, Bool.not_eq_true']
    exact ⟨TakesBit.clear, fun h => ⟨h, fun h => (nomatch h), fun h => (nomatch h)⟩⟩
  | false =>
    simp only [freeBit, Bool.false_or, Bool.and_eq_true, Bool.not_eq_true', decide_eq_true_eq]
    constructor
    · intro h
      have hspare := h.spare rfl
      rw [blockReserved_ok hv hL hg (h.below rfl)] at hspare
      exact ⟨h.clear, h.below rfl, Except.ok.inj (Prod.mk.inj hspare).1⟩
    · rintro ⟨hclear, hbelow, hspare⟩
      refine ⟨hclear, fun _ => hbelow, fun _ => ?_⟩
      rw [blockReserved_ok hv hL hg hbelow, hspare]

end Scan

theorem unitsOf_le (hv : GeometryOk v) (w : Bool) : unitsOf v w ≤ maxBlockSize * 8 := by
  have hbs := hv.bs_le
  have hbpg := hv.bpg_le
  have hipg := hv.ipg_le
  unfold unitsOf
  split <;> omega

/-- An inode number has 32 bits. -/
theorem unitAt_inode_lt (hv : GeometryOk v) {g j : ℕ} (hg : g < v.numGroups) (hj : j < v.ipg) :
    0 < unitAt v true g j ∧ unitAt v true g j < 2 ^ 32 := by
  have hlt := hv.inodes_lt
  have hgroups : (g + 1) * v.ipg ≤ v.numGroups * v.ipg := Nat.mul_le_mul_right _ hg
  rw [hv.inodes, Nat.mul_comm] at hlt
  rw [Nat.add_mul, Nat.one_mul] at hgroups
  rw [unitAt, if_pos rfl]
  omega

theorem checksumBitmap_ok (bm : Bytes) {n : ℕ} (hn : n ≤ maxBlockSize) :
    checksumBitmap v bm n s = (.ok (v.bitmapCsum bm n), s) := by
  unfold checksumBitmap
  rw [if_neg fun h => absurd h.2 (not_lt.mpr hn)]
  rfl

/-- A search gets past every group of a volume with a layout. -/
theorem not_stops (hv : GeometryOk v) (hL : LayoutOk v L) (hp : PlacedAt v L s) {w : Bool} {g : ℕ}
    (hg : g < v.numGroups) {e : FsFail} : ¬SearchStops v s w g e := by
  intro h
  have hread := bitmapRead_layout hv hL hg hp w
  cases h with
  | place h =>
    rw [hread.place] at h
    cases h
  | content hb h =>
    rw [hread.place] at hb
    cases hb
    rw [hread.content] at h
    cases h
  | bits h =>
    have hunits := unitsOf_le hv w
    unfold scannedBits at h
    omega
  | guard h =>
    obtain ⟨-, j, -, hbelow, h⟩ := h
    rw [blockReserved_ok hv hL hg hbelow] at h
    cases h

/-! ## Taking a bit -/

/-- Bit `j` of a bitmap of group `g` was taken. -/
structure Taken (v : Ext4) (L : Layout) (w : Bool) (g j : ℕ) (s s' : FsState) : Prop where
  bits : block v s' (bitmapAt L w g) = Bytes.clip v.bs ((block v s (bitmapAt L w g)).setBit j)
  other : ∀ b, b ≠ bitmapAt L w g → L.role b ≠ .super → L.role b ≠ .groupTable →
    block v s' b = block v s b
  placed : PlacedAt v L s'
  sums : v.metaCsum = true → MetaSums v L s → MetaSums v L s'
  counts : s'.freeBlocks ≤ s.freeBlocks ∧ s'.freeInodes ≤ s.freeInodes
  counted : Counted v w g j s s'

theorem addCount_le {n m : ℕ} {d : ℤ} (h : addCount n d = .ok m) (hd : d ≤ 0) : m ≤ n := by
  unfold addCount at h
  dsimp only at h
  have hle : (if n < 2 ^ 63 then (n : ℤ) else n - 2 ^ 64) + d ≤ n := by
    split <;> omega
  generalize (if n < 2 ^ 63 then (n : ℤ) else n - 2 ^ 64) + d = x at h hle
  split at h
  · cases h
  · cases h
    omega

theorem role_bitmapAt (hL : LayoutOk v L) {g : ℕ} (hg : g < v.numGroups) (w : Bool) :
    L.role (bitmapAt L w g) = if w then .inodeBitmap g else .blockBitmap g := by
  cases w with
  | false => exact hL.blockBitmap g hg
  | true => exact hL.inodeBitmap g hg

section Taking

variable (hv : GeometryOk v) (hL : LayoutOk v L) (hp : PlacedAt v L s) {g j : ℕ}
  (hg : g < v.numGroups)

/-- The state in which a bit is set and nothing else has changed yet. -/
def bitSet (v : Ext4) (L : Layout) (w : Bool) (g j : ℕ) (s : FsState) : FsState :=
  setBlock v s (bitmapAt L w g) ((block v s (bitmapAt L w g)).setBit j)

include hL hg in
theorem descriptor_bitSet (w : Bool) {g' : ℕ} (hg' : g' < v.numGroups) :
    descriptor v (bitSet v L w g j s) g' = descriptor v s g' := by
  have hne : v.gdBlock g' ≠ bitmapAt L w g := by
    intro heq
    have hrole := hL.groupTable g' hg'
    rw [heq, role_bitmapAt hL hg] at hrole
    cases w <;> cases hrole
  unfold descriptor bitSet
  rw [block_setBlock_ne hne]

include hL hg in
theorem placedAt_bitSet (w : Bool) (hp : PlacedAt v L s) : PlacedAt v L (bitSet v L w g j s) := by
  intro g' hg'
  rw [descriptor_bitSet hL hg w hg']
  exact hp g' hg'

include hv hL hp hg in
/-- What setting a bit and committing it comes to.  The checksum committed is that of the
bitmap as it is now. -/
theorem taken_of_committed {w : Bool} {dblk dino ddir : ℤ} {bb ib itu : Option ℕ}
    (hc : Committed v L g (commitGd v.has64bit dblk dino ddir bb ib itu) (bitSet v L w g j s) s')
    (hnew : v.metaCsum = true → BitmapSum v (descriptor v s' g) (if w then 0x1A else 0x18)
      (if w then 0x3A else 0x38) (block v (bitSet v L w g j s) (bitmapAt L w g)) (unitsOf v w / 8))
    (hone : if w then bb = none else ib = none)
    (hd : if w then dblk = 0 ∧ dino = -1 else dblk = -1 ∧ dino = 0)
    (hfb : addCount s.freeBlocks dblk = .ok s'.freeBlocks)
    (hfi : addCount s.freeInodes dino = .ok s'.freeInodes)
    (hitu : if w then itu = some (min (v.gdU16 (descriptor v s g) 0x1C 0x32) (v.ipg - j - 1))
      else itu = none) :
    Taken v L w g j s s' := by
  have hrole := role_bitmapAt hL hg w
  have hother : ∀ b, b ≠ bitmapAt L w g → L.role b ≠ .super → L.role b ≠ .groupTable →
      block v s' b = block v s b := by
    intro b hb hsuper htable
    rw [hc.other b hsuper htable]
    exact block_setBlock_ne hb
  have hbits : block v s' (bitmapAt L w g) = block v (bitSet v L w g j s) (bitmapAt L w g) := by
    apply hc.other <;> rw [hrole] <;> cases w <;> exact fun h => nomatch h
  have hcounts : s'.freeBlocks ≤ s.freeBlocks ∧ s'.freeInodes ≤ s.freeInodes := by
    cases w with
    | false =>
      obtain ⟨rfl, rfl⟩ := hd
      exact ⟨addCount_le hfb (by omega), addCount_le hfi (by omega)⟩
    | true =>
      obtain ⟨rfl, rfl⟩ := hd
      exact ⟨addCount_le hfb (by omega), addCount_le hfi (by omega)⟩
  have hcounted : Counted v w g j s s' :=
    hc.counted hv hg (fun g' hg' => descriptor_bitSet hL hg w hg') hd hfb hfi hitu
  refine ⟨hbits.trans block_setBlock_self, hother, hc.placed hv (placedAt_bitSet hL hg w hp), ?_,
    hcounts, hcounted⟩
  intro hmeta hold
  -- the bitmap of the other kind is as it was, and so are those of the other groups
  have hkeep : ∀ g' < v.numGroups, ∀ w', (g' ≠ g ∨ w' ≠ w) →
      block v s' (bitmapAt L w' g') = block v s (bitmapAt L w' g') := by
    intro g' hg' w' hne
    have hrole' := role_bitmapAt hL hg' w'
    refine hother _ (fun heq => ?_) ?_ ?_
    · rw [heq, hrole] at hrole'
      cases w <;> cases w' <;> simp_all
    all_goals
      rw [hrole']
      cases w' <;> exact fun h => nomatch h
  refine ⟨hc.super hmeta, ?_, ?_, ?_⟩
  · intro g' hg'
    apply hc.groupSum hv hmeta hg'
    rw [descriptor_bitSet hL hg w hg']
    exact hold.group g' hg'
  · intro g' hg'
    by_cases hnew' : g' = g ∧ w = false
    · obtain ⟨rfl, rfl⟩ := hnew'
      have h := hnew hmeta
      rw [← hbits] at h
      exact h
    · have hblock := hkeep g' hg' false (by cases w <;> simp_all)
      have hsum := hold.blocks g' hg'
      rw [← descriptor_bitSet hL hg w hg'] at hsum
      refine hc.bitmapSum hv hg' hsum (fun k _ => congrFun hblock k) ?_ (by omega) (by omega)
      cases w <;> simp_all
  · intro g' hg'
    by_cases hnew' : g' = g ∧ w = true
    · obtain ⟨rfl, rfl⟩ := hnew'
      have h := hnew hmeta
      rw [← hbits] at h
      exact h
    · have hblock := hkeep g' hg' true (by cases w <;> simp_all)
      have hsum := hold.inodes g' hg'
      rw [← descriptor_bitSet hL hg w hg'] at hsum
      refine hc.bitmapSum hv hg' hsum (fun k _ => congrFun hblock k) ?_ (by omega) (by omega)
      cases w <;> simp_all

/-- The counts in the superblock are small enough to be counted down. -/
def SmallCounts (s : FsState) : Prop := s.freeBlocks < 2 ^ 63 ∧ s.freeInodes < 2 ^ 63

/-- How an allocation may end: with the first unit that was free, with none free and nothing
changed, or not at all. -/
def AllocEnds (v : Ext4) (L : Layout) (s : FsState) (w : Bool) (r : Except FsFail ℕ × FsState) :
    Prop :=
  (∃ g j s', g < v.numGroups ∧ j < unitsOf v w / 8 * 8 ∧ freeBit v L s w g j = true ∧
    (∀ h k, h < g ∨ h = g ∧ k < j → k < unitsOf v w / 8 * 8 → freeBit v L s w h k = false) ∧
    r = (.ok (unitAt v w g j), s') ∧ Taken v L w g j s s') ∨
  ((∀ g j, g < v.numGroups → j < unitsOf v w / 8 * 8 → freeBit v L s w g j = false) ∧
    r = (.error (.error .noSpace), s)) ∨
  ¬SmallCounts s ∧ ∃ e s', Skips e ∧ r = (.error e, s')

theorem counts_of_small {s : FsState} {dblk dino : ℤ} (hs : SmallCounts s) (hblk : -1 ≤ dblk)
    (hblk' : dblk ≤ 0) (hino : -1 ≤ dino) (hino' : dino ≤ 0)
    (hnone : ∀ fb fi, ¬(addCount s.freeBlocks dblk = .ok fb ∧ addCount s.freeInodes dino = .ok fi)) :
    False := by
  obtain ⟨fb, -, hfb⟩ := addCount_ok hs.1 hblk hblk'
  obtain ⟨fi, -, hfi⟩ := addCount_ok hs.2 hino hino'
  exact hnone fb fi ⟨hfb, hfi⟩

include hv hL hp

/-- SOURCE: ext4.rs:696-740 -/
theorem allocBit_cases (w : Bool) :
    (∃ g j, g < v.numGroups ∧ j < unitsOf v w / 8 * 8 ∧ freeBit v L s w g j = true ∧
      (∀ h k, h < g ∨ h = g ∧ k < j → k < unitsOf v w / 8 * 8 → freeBit v L s w h k = false) ∧
      allocBit v w s = (.ok (unitAt v w g j), bitSet v L w g j s)) ∨
    (∀ g j, g < v.numGroups → j < unitsOf v w / 8 * 8 → freeBit v L s w g j = false) ∧
      allocBit v w s = (.error (.error .noSpace), s) := by
  have hrun := allocBit_searched v s w
  have hunfree : ∀ {g j}, g < v.numGroups → ¬FreeAt v s w g j → freeBit v L s w g j = false :=
    fun hg h => Bool.eq_false_of_not_eq_true fun hfree => h ((freeAt_iff_freeBit hv hL hg hp).mpr hfree)
  generalize allocBit v w s = r at hrun ⊢
  cases hrun with
  | @found g j b bm _ hg hj hread htakes hfirst =>
    have hb : b = bitmapAt L w g :=
      Except.ok.inj (Prod.mk.inj (hread.place.symm.trans (readBitmap_ok hv hL hg hp w))).1
    subst hb
    have hbm : bm = block v s (bitmapAt L w g) := Except.ok.inj
      (Prod.mk.inj (hread.content.symm.trans (readFsb_ok hv (bitmapAt_lt hL hg w)))).1
    subst hbm
    have hfree := (freeAt_iff_freeBit hv hL hg hp).mp ⟨_, _, hread, htakes⟩
    exact Or.inl ⟨g, j, hg, hj, hfree, fun h k hbefore hk =>
      hunfree (by omega) (hfirst h k (Nat.zero_le h) hbefore hk), rfl⟩
  | full _ hnone =>
    exact Or.inr ⟨fun g j hg hj => hunfree hg (hnone g j (Nat.zero_le g) hg hj), rfl⟩
  | stopped _ hg hstops _ => exact absurd hstops (not_stops hv hL hp hg)

/-- SOURCE: ext4.rs:799-812 -/
theorem allocBlock_ends : AllocEnds v L s false (allocBlock v s) := by
  rcases allocBit_cases hv hL hp false with ⟨g, j, hg', hj, hfree, hfirst, hbit⟩ | ⟨hfull, hbit⟩
  · have hj' : j < v.bpg := lt_of_lt_of_le hj (Nat.div_mul_le_self v.bpg 8)
    have hgroup : (unitAt v false g j - v.firstDataBlock) / v.bpg = g := by
      rw [unitAt, if_neg Bool.false_ne_true, Nat.add_assoc, Nat.add_sub_cancel_left, Nat.mul_comm,
        Nat.mul_add_div hv.bpg_pos, Nat.div_eq_of_lt hj', Nat.add_zero]
    rw [allocBlock, Prog.bind_ok hbit, hgroup,
      Prog.bind_ok (readBitmap_ok hv hL hg' (placedAt_bitSet (j := j) hL hg' false hp) false),
      Prog.bind_ok (readFsb_ok hv (bitmapAt_lt hL hg' false)),
      Prog.bind_ok (checksumBitmap_ok _ (Nat.div_le_of_le_mul (by
        rw [Nat.mul_comm]
        exact unitsOf_le hv false)))]
    rcases commitAlloc_cases (s := bitSet v L false g j s) hv hL hg' (-1) 0 0
        (some (v.bitmapCsum (block v (bitSet v L false g j s) (bitmapAt L false g)) (v.bpg / 8)))
        none none with ⟨s', fb, fi, hfb, hfi, hrun, hfb', hfi', hc⟩ | ⟨hnone, e, s', he, hrun⟩
    · refine Or.inl ⟨g, j, s', hg', hj, hfree, hfirst, (Prog.bind_ok hrun).trans rfl, ?_⟩
      rw [← hfb'] at hfb
      rw [← hfi'] at hfi
      refine taken_of_committed hv hL hp hg' hc (fun hmeta => ?_) rfl ⟨rfl, rfl⟩ hfb hfi rfl
      unfold BitmapSum
      rw [if_neg Bool.false_ne_true, if_neg Bool.false_ne_true,
        hc.splitField_eq hv hg' (by omega) (by omega) (by omega)]
      refine (splitField_putSplit (by omega)).trans ?_
      rw [Ext4.bitmapCsum, if_pos hmeta]
      rfl
    · refine Or.inr (Or.inr ⟨fun hsmall => ?_, e, s', he, Prog.bind_error hrun⟩)
      exact counts_of_small hsmall (by omega) (by omega) (by omega) (by omega) hnone
  · refine Or.inr (Or.inl ⟨hfull, ?_⟩)
    rw [allocBlock, Prog.bind_error hbit]

/-- SOURCE: ext4.rs:814-848 -/
theorem allocInode_ends (isDir : Bool) : AllocEnds v L s true (allocInode v isDir s) := by
  rcases allocBit_cases hv hL hp true with ⟨g, j, hg', hj, hfree, hfirst, hbit⟩ | ⟨hfull, hbit⟩
  · have hj' : j < v.ipg := lt_of_lt_of_le hj (Nat.div_mul_le_self v.ipg 8)
    have hgroup : (unitAt v true g j - 1) / v.ipg = g := by
      rw [unitAt, if_pos rfl, Nat.add_sub_cancel, Nat.mul_comm, Nat.mul_add_div hv.ipg_pos,
        Nat.div_eq_of_lt hj', Nat.add_zero]
    have hp' := placedAt_bitSet (j := j) hL hg' true hp
    obtain ⟨hpos, hlt⟩ := unitAt_inode_lt hv hg' hj'
    rw [allocInode, Prog.bind_ok hbit, Nat.mod_eq_of_lt hlt, if_neg (Nat.ne_of_gt hpos), hgroup,
      Prog.bind_ok (readBitmap_ok hv hL hg' hp' true),
      Prog.bind_ok (readFsb_ok hv (bitmapAt_lt hL hg' true)),
      Prog.bind_ok (checksumBitmap_ok _ (Nat.div_le_of_le_mul (by
        rw [Nat.mul_comm]
        exact unitsOf_le hv true))),
      Prog.bind_ok (groupDescriptor_ok hv hL hg')]
    have hindex : (unitAt v true g j - 1) % v.ipg = j := by
      rw [unitAt, if_pos rfl, Nat.add_sub_cancel, Nat.mul_comm, Nat.mul_add_mod,
        Nat.mod_eq_of_lt hj']
    rw [descriptor_bitSet hL hg' true hg', hindex]
    generalize hunused : min (v.gdU16 _ 0x1C 0x32) (v.ipg - _ - 1) = unused
    generalize hddir : (if isDir = true then (1 : ℤ) else 0) = ddir
    rcases commitAlloc_cases (s := bitSet v L true g j s) hv hL hg' 0 (-1) ddir none
        (some (v.bitmapCsum (block v (bitSet v L true g j s) (bitmapAt L true g)) (v.ipg / 8)))
        (some unused) with ⟨s', fb, fi, hfb, hfi, hrun, hfb', hfi', hc⟩ | ⟨hnone, e, s', he, hrun⟩
    · refine Or.inl ⟨g, j, s', hg', hj, hfree, hfirst, (Prog.bind_ok hrun).trans rfl, ?_⟩
      rw [← hfb'] at hfb
      rw [← hfi'] at hfi
      refine taken_of_committed hv hL hp hg' hc (fun hmeta => ?_) rfl ⟨rfl, rfl⟩ hfb hfi
        (congrArg some hunused.symm)
      unfold BitmapSum
      rw [if_pos rfl, if_pos rfl, hc.splitField_eq hv hg' (by omega) (by omega) (by omega)]
      -- the count of unused inodes stands elsewhere
      have hsame : ∀ gd : Bytes, ∀ k, (k < 0x1C ∨ 0x1E ≤ k) → (k < 0x32 ∨ 0x34 ≤ k) →
          putUnused v.has64bit gd (some unused) k = gd k := by
        intro gd k hlo hhi
        unfold putUnused
        dsimp only
        split
        · rw [Bytes.putLE_outside hhi, Bytes.putLE_outside hlo]
        · rw [Bytes.putLE_outside hlo]
      refine (splitField_congr (fun j hj => hsame _ _ (by omega) (by omega))
        (fun _ j hj => hsame _ _ (by omega) (by omega))).trans ?_
      refine (splitField_putSplit (by omega)).trans ?_
      rw [Ext4.bitmapCsum, if_pos hmeta]
      rfl
    · refine Or.inr (Or.inr ⟨fun hsmall => ?_, e, s', he, Prog.bind_error hrun⟩)
      exact counts_of_small hsmall (by omega) (by omega) (by omega) (by omega) hnone
  · refine Or.inr (Or.inl ⟨hfull, ?_⟩)
    rw [allocInode, Prog.bind_error hbit]

end Taking

/-! ## Taking a block, taking an inode -/

/-- What every allocation leaves alone or makes valid again. -/
structure Kept (v : Ext4) (L : Layout) (s s' : FsState) : Prop where
  other : ∀ b, ¬Bookkeeping L b → block v s' b = block v s b
  placed : PlacedAt v L s'
  sums : v.metaCsum = true → MetaSums v L s → MetaSums v L s'
  counts : s'.freeBlocks ≤ s.freeBlocks ∧ s'.freeInodes ≤ s.freeInodes
  accounts : Accounts v L s → Accounts v L s'

/-- Whether the allocator may hand out block `q`. -/
def freeBlock (v : Ext4) (L : Layout) (s : FsState) (q : ℕ) : Bool :=
  decide (v.firstDataBlock ≤ q) && decide ((q - v.firstDataBlock) % v.bpg < v.bpg / 8 * 8) &&
    freeBit v L s false ((q - v.firstDataBlock) / v.bpg) ((q - v.firstDataBlock) % v.bpg)

/-- Block `p`, the first free one, is marked as used. -/
structure BlockTaken (v : Ext4) (L : Layout) (p : ℕ) (s s' : FsState) : Prop
    extends Kept v L s s' where
  isBlock : IsBlock v p
  nonzero : p ≠ 0
  fresh : marked v L s p = false
  free : freeBlock v L s p = true
  first : ∀ q, freeBlock v L s q = true → p ≤ q
  marks : ∀ q, IsBlock v q → marked v L s' q = (marked v L s q || decide (q = p))
  inodes : ∀ i, IsInode v i → inodeMarked v L s' i = inodeMarked v L s i

/-- Inode `i`, which was free, is marked as used. -/
structure InodeTaken (v : Ext4) (L : Layout) (i : ℕ) (s s' : FsState) : Prop
    extends Kept v L s s' where
  isInode : IsInode v i
  fresh : inodeMarked v L s i = false
  marks : ∀ q, IsBlock v q → marked v L s' q = marked v L s q
  inodes : ∀ k, IsInode v k → inodeMarked v L s' k = (inodeMarked v L s k || decide (k = i))

section TakenUnit

variable {w : Bool} {g j : ℕ} (hv : GeometryOk v) (hL : LayoutOk v L) (hg : g < v.numGroups)
  (ht : Taken v L w g j s s')
include hL hg ht

include hv

/-- The bits of all bitmaps after one was set. -/
theorem Taken.testBit {g' k : ℕ} (w' : Bool) (hg' : g' < v.numGroups) (hk : k < unitsOf v w') :
    (block v s' (bitmapAt L w' g')).testBit k =
      ((block v s (bitmapAt L w' g')).testBit k || decide (w' = w ∧ g' = g ∧ k = j)) := by
  have hunits : unitsOf v w' ≤ 8 * v.bs := by
    cases w' with
    | false => exact hv.bpg_le
    | true => exact hv.ipg_le
  by_cases hsame : w' = w ∧ g' = g
  · obtain ⟨rfl, rfl⟩ := hsame
    rw [ht.bits, Bytes.testBit_clip (by omega), Bytes.testBit_setBit]
    simp only [true_and, eq_comm]
  · have hrole' := role_bitmapAt hL hg' w'
    have hne : bitmapAt L w' g' ≠ bitmapAt L w g := by
      intro heq
      rw [heq, role_bitmapAt hL hg w] at hrole'
      cases w <;> cases w' <;> simp_all
    have hkeep : block v s' (bitmapAt L w' g') = block v s (bitmapAt L w' g') := by
      apply ht.other _ hne <;> rw [hrole'] <;> cases w' <;> exact fun h => nomatch h
    have hfalse : decide (w' = w ∧ g' = g ∧ k = j) = false := by
      apply decide_eq_false
      exact fun h => hsame ⟨h.1, h.2.1⟩
    rw [hkeep, hfalse, Bool.or_false]

theorem Taken.kept (hj : j < unitsOf v w) (hclear : (block v s (bitmapAt L w g)).testBit j = false) :
    Kept v L s s' := by
  refine ⟨fun b hb => ht.other b ?_ ?_ ?_, ht.placed, ht.sums, ht.counts,
    ht.counted.accounts hv hg hj hclear fun w' g' k hg' hk => ht.testBit hv hL hg w' hg' hk⟩
  · rintro rfl
    have hrole := role_bitmapAt hL hg w
    cases w with
    | false => exact hb (.inr (.inr (.inl ⟨g, hrole⟩)))
    | true => exact hb (.inr (.inr (.inr ⟨g, hrole⟩)))
  · exact fun h => hb (.inl h)
  · exact fun h => hb (.inr (.inl h))

theorem Taken.marked_eq {q : ℕ} (hq : IsBlock v q) : marked v L s' q = (marked v L s q ||
    decide (false = w ∧ (q - v.firstDataBlock) / v.bpg = g ∧ (q - v.firstDataBlock) % v.bpg = j)) :=
  ht.testBit hv hL hg false (hq.group_lt hv) (Nat.mod_lt _ hv.bpg_pos)

theorem Taken.inodeMarked_eq {i : ℕ} (hi : IsInode v i) : inodeMarked v L s' i =
    (inodeMarked v L s i || decide (true = w ∧ (i - 1) / v.ipg = g ∧ (i - 1) % v.ipg = j)) :=
  ht.testBit hv hL hg true (hi.group_lt hv) (Nat.mod_lt _ hv.ipg_pos)

end TakenUnit

/-- A number is given by its group and its place there. -/
theorem unit_iff {a n g j k : ℕ} (ha : a ≤ k) (hj : j < n) :
    (k - a) / n = g ∧ (k - a) % n = j ↔ k = a + g * n + j := by
  have hn : 0 < n := by omega
  constructor
  · rintro ⟨rfl, rfl⟩
    have := Nat.div_add_mod' (k - a) n
    omega
  · rintro rfl
    rw [Nat.add_assoc, Nat.add_sub_cancel_left, Nat.mul_comm, Nat.mul_add_div hn, Nat.mul_add_mod,
      Nat.div_eq_of_lt hj, Nat.mod_eq_of_lt hj]
    exact ⟨Nat.add_zero g, rfl⟩

/-- A smaller number is in an earlier group, or at an earlier place of the same one. -/
theorem unit_before {a n k k' : ℕ} (h : k < k') (ha : a ≤ k) :
    (k - a) / n < (k' - a) / n ∨ (k - a) / n = (k' - a) / n ∧ (k - a) % n < (k' - a) % n := by
  rcases Nat.lt_or_eq_of_le (Nat.div_le_div_right (c := n) (show k - a ≤ k' - a by omega)) with
    hlt | heq
  · exact Or.inl hlt
  · refine Or.inr ⟨heq, ?_⟩
    have hk := Nat.div_add_mod (k - a) n
    have hk' := Nat.div_add_mod (k' - a) n
    rw [heq] at hk
    omega

section TakenCases

variable {g j : ℕ} (hv : GeometryOk v) (hL : LayoutOk v L) (hg : g < v.numGroups)
include hv hL hg

theorem Taken.blockTaken (hj : j < v.bpg / 8 * 8) (hfree : freeBit v L s false g j = true)
    (hfirst : ∀ h k, h < g ∨ h = g ∧ k < j → k < v.bpg / 8 * 8 → freeBit v L s false h k = false)
    (ht : Taken v L false g j s s') : BlockTaken v L (unitAt v false g j) s s' := by
  have hroom : j < v.bpg / 8 * 8 := hj
  replace hj : j < v.bpg := lt_of_lt_of_le hj (Nat.div_mul_le_self v.bpg 8)
  have hfree' := hfree
  simp only [freeBit, Bool.false_or, Bool.and_eq_true, Bool.not_eq_true', decide_eq_true_eq] at hfree'
  obtain ⟨hbit, hlt, hres⟩ := hfree'
  have hlo : v.firstDataBlock ≤ unitAt v false g j := by
    unfold unitAt
    simp only [Bool.false_eq_true, if_false]
    omega
  obtain ⟨hdiv, hmod⟩ := (unit_iff hlo hj).mpr rfl
  refine ⟨ht.kept hv hL hg hj hbit, ⟨hlo, hlt⟩, ?_, ?_, ?_, fun q hq => ?_, fun q hq => ?_,
    fun i hi => ?_⟩
  · intro hzero
    have hg0 : g = 0 := by
      rw [hzero] at hdiv
      simpa using hdiv.symm
    have hend : 0 < v.reservedEnd := by
      unfold Ext4.reservedEnd
      have hdesc : 0 < (v.numGroups * v.descSize + v.bs - 1) / v.bs := by
        apply Nat.div_pos _ hv.bs_pos
        have := Nat.mul_le_mul (Nat.one_le_of_lt hg) hv.descSize
        omega
      omega
    rw [hzero] at hres
    simp [reserved, hg0, hend] at hres
  · rw [marked, hdiv, hmod]
    exact hbit
  · simp only [freeBlock, hdiv, hmod, hfree, decide_eq_true hlo, decide_eq_true hroom, Bool.and_self]
  · -- a smaller free block would have a smaller group, or a smaller place in this one
    simp only [freeBlock, Bool.and_eq_true, decide_eq_true_eq] at hq
    obtain ⟨⟨hqlo, hqroom⟩, hqfree⟩ := hq
    by_contra hlt
    have hunit := unit_before (n := v.bpg) (not_le.mp hlt) hqlo
    rw [hdiv, hmod] at hunit
    have hbefore := hfirst _ _ hunit hqroom
    rw [hqfree] at hbefore
    cases hbefore
  · rw [ht.marked_eq hv hL hg hq]
    congr 2
    simp only [true_and, eq_iff_iff]
    exact unit_iff hq.1 hj
  · rw [ht.inodeMarked_eq hv hL hg hi]
    simp

theorem Taken.inodeTaken (hj : j < v.ipg) (hfree : freeBit v L s true g j = true)
    (ht : Taken v L true g j s s') : InodeTaken v L (unitAt v true g j) s s' := by
  simp only [freeBit, Bool.true_or, Bool.and_true, Bool.not_eq_true'] at hfree
  have heq : unitAt v true g j = 1 + g * v.ipg + j := by
    unfold unitAt
    rw [if_pos rfl]
    omega
  obtain ⟨hdiv, hmod⟩ := (unit_iff (by omega) hj).mpr heq
  refine ⟨ht.kept hv hL hg hj hfree, ⟨by omega, ?_⟩, ?_, fun q hq => ?_, fun i hi => ?_⟩
  · rw [heq, hv.inodes]
    have := Nat.mul_le_mul_right v.ipg (Nat.succ_le_of_lt hg)
    rw [Nat.succ_mul] at this
    rw [Nat.mul_comm v.ipg]
    omega
  · rw [inodeMarked, hdiv, hmod]
    exact hfree
  · rw [ht.marked_eq hv hL hg hq]
    simp
  · rw [ht.inodeMarked_eq hv hL hg hi]
    congr 2
    simp only [true_and, eq_iff_iff]
    rw [unit_iff hi.1 hj, heq]

end TakenCases

/-! ## Volumes with their metadata in place -/

/-- The descriptors point to the places of the layout, and metadata is marked as used. -/
structure Placed (v : Ext4) (L : Layout) (s : FsState) : Prop where
  placed : PlacedAt v L s
  metadata : ∀ b, L.role b ≠ .data → marked v L s b = true

/-- Superblock, descriptors, bitmaps and counts are as they were. -/
structure SameBooks (v : Ext4) (L : Layout) (s s' : FsState) : Prop where
  blocks : ∀ b, Bookkeeping L b → block v s' b = block v s b
  counts : s'.freeBlocks = s.freeBlocks ∧ s'.freeInodes = s.freeInodes

theorem sameBooks_setBlock {b : ℕ} (w : Bytes) (hb : ¬Bookkeeping L b) :
    SameBooks v L s (setBlock v s b w) := by
  refine ⟨fun b' hb' => block_setBlock_ne ?_, rfl, rfl⟩
  rintro rfl
  exact hb hb'

section SameBooks

variable (hv : GeometryOk v) (hL : LayoutOk v L) (h : SameBooks v L s s')
include hL h

theorem SameBooks.descriptor_eq {g : ℕ} (hg : g < v.numGroups) :
    descriptor v s' g = descriptor v s g := by
  unfold descriptor
  rw [h.blocks _ (.inr (.inl (hL.groupTable g hg)))]

theorem SameBooks.bitmap_eq {g : ℕ} (hg : g < v.numGroups) (kind : Bool) :
    block v s' (bitmapAt L kind g) = block v s (bitmapAt L kind g) := by
  have hrole := role_bitmapAt hL hg kind
  apply h.blocks
  cases kind with
  | false => exact .inr (.inr (.inl ⟨g, hrole⟩))
  | true => exact .inr (.inr (.inr ⟨g, hrole⟩))

theorem SameBooks.super_eq : block v s' v.sblockFsb = block v s v.sblockFsb :=
  h.blocks _ (.inl hL.super)

theorem SameBooks.metaSums (hs : MetaSums v L s) : MetaSums v L s' := by
  refine ⟨?_, fun g hg => ?_, fun g hg => ?_, fun g hg => ?_⟩
  · rw [h.super_eq hL]
    exact hs.super
  · rw [h.descriptor_eq hL hg]
    exact hs.group g hg
  · rw [h.descriptor_eq hL hg]
    exact h.bitmap_eq hL hg false ▸ hs.blocks g hg
  · rw [h.descriptor_eq hL hg]
    exact h.bitmap_eq hL hg true ▸ hs.inodes g hg

theorem SameBooks.accounts (hs : Accounts v L s) : Accounts v L s' := by
  have hclear : ∀ w, ∀ g < v.numGroups, clearOf v L s' w g = clearOf v L s w g := fun w g hg =>
    congrArg (clearBits · (unitsOf v w)) (h.bitmap_eq hL hg w)
  have htotal : ∀ w, totalOf s' w = totalOf s w := by
    intro w
    unfold totalOf
    rw [h.counts.1, h.counts.2]
  refine ⟨fun w g hg => ?_, fun w => ?_, fun w => ?_, fun g hg => ?_, fun g hg k hk hbit => ?_⟩
  · rw [hclear w g hg, ← hs.fields w g hg, freeField, h.descriptor_eq hL hg]
    rfl
  · rw [htotal, hs.totals w]
    exact Finset.sum_congr rfl fun g hg => (hclear w g (Finset.mem_range.mp hg)).symm
  · rw [htotal, h.super_eq hL]
    exact hs.super w
  · rw [unusedField, h.descriptor_eq hL hg]
    exact hs.unused_le g hg
  · rw [unusedField, h.descriptor_eq hL hg]
    refine hs.unused g hg k hk ?_
    exact (congrArg (Bytes.testBit · k) (h.bitmap_eq hL hg true)).symm.trans hbit

include hv

theorem SameBooks.marked_eq {q : ℕ} (hq : IsBlock v q) : marked v L s' q = marked v L s q :=
  congrArg (Bytes.testBit · _) (h.bitmap_eq hL (hq.group_lt hv) false)

theorem SameBooks.inodeMarked_eq {i : ℕ} (hi : IsInode v i) :
    inodeMarked v L s' i = inodeMarked v L s i :=
  congrArg (Bytes.testBit · _) (h.bitmap_eq hL (hi.group_lt hv) true)

theorem SameBooks.keepsPlaced (hs : Placed v L s) : Placed v L s' := by
  constructor
  · intro g hg
    rw [h.descriptor_eq hL hg]
    exact hs.placed g hg
  · intro q hq
    rw [h.marked_eq hv hL (hL.range q hq)]
    exact hs.metadata q hq

end SameBooks

theorem not_bookkeeping_data {b : ℕ} (hb : L.role b = .data) : ¬Bookkeeping L b := by
  rintro (h | h | ⟨g, h⟩ | ⟨g, h⟩) <;> rw [hb] at h <;> cases h

theorem marked_dataWrite (hv : GeometryOk v) (hL : LayoutOk v L) {b q : ℕ} {w : Bytes}
    (hb : L.role b = .data) (hq : IsBlock v q) :
    marked v L (setBlock v s b w) q = marked v L s q :=
  (sameBooks_setBlock w (not_bookkeeping_data hb)).marked_eq hv hL hq

theorem slot_dataWrite (hv : GeometryOk v) (hL : LayoutOk v L) {b i : ℕ} {w : Bytes}
    (hb : L.role b = .data) (hi : IsInode v i) :
    slot v L (setBlock v s b w) i = slot v L s i := by
  have hne : slotBlock v L i ≠ b := by
    rintro rfl
    rw [role_slotBlock hv hL hi] at hb
    cases hb
  unfold slot
  rw [block_setBlock_ne hne]

theorem Kept.slot_eq (hv : GeometryOk v) (hL : LayoutOk v L) (h : Kept v L s s') {i : ℕ}
    (hi : IsInode v i) : slot v L s' i = slot v L s i := by
  unfold slot
  rw [h.other]
  have hrole := role_slotBlock hv hL hi
  rintro (h' | h' | ⟨g, h'⟩ | ⟨g, h'⟩) <;> rw [hrole] at h' <;> cases h'

theorem Kept.data_eq (h : Kept v L s s') {b : ℕ} (hb : L.role b = .data) :
    block v s' b = block v s b :=
  h.other b (not_bookkeeping_data hb)

/-- A block that was free is no metadata. -/
theorem BlockTaken.role_eq {q : ℕ} (h : BlockTaken v L q s s') (hs : Placed v L s) :
    L.role q = .data := by
  by_contra hrole
  have := hs.metadata q hrole
  rw [h.fresh] at this
  cases this

theorem BlockTaken.marked_self {q : ℕ} (h : BlockTaken v L q s s') : marked v L s' q = true := by
  rw [h.marks q h.isBlock, decide_eq_true rfl, Bool.or_true]

theorem BlockTaken.keepsPlaced (hL : LayoutOk v L) {q : ℕ} (h : BlockTaken v L q s s')
    (hs : Placed v L s) : Placed v L s' := by
  refine ⟨h.placed, fun b hb => ?_⟩
  rw [h.marks b (hL.range b hb), hs.metadata b hb, Bool.true_or]

theorem InodeTaken.keepsPlaced (hL : LayoutOk v L) {i : ℕ} (h : InodeTaken v L i s s')
    (hs : Placed v L s) : Placed v L s' := by
  refine ⟨h.placed, fun b hb => ?_⟩
  rw [h.marks b (hL.range b hb), hs.metadata b hb]

/-! ## What changes while a call works on a file -/

/-- Of the data blocks only those in `W` may have changed; inodes are as they were and
marks were only added. -/
structure Touches (v : Ext4) (L : Layout) (W : ℕ → Prop) (s s' : FsState) : Prop where
  placed : Placed v L s → Placed v L s'
  other : ∀ b, L.role b = .data → ¬W b → block v s' b = block v s b
  slots : ∀ i, IsInode v i → slot v L s' i = slot v L s i
  marks : ∀ q, IsBlock v q → marked v L s q = true → marked v L s' q = true
  inodes : ∀ i, IsInode v i → inodeMarked v L s' i = inodeMarked v L s i
  sums : v.metaCsum = true → MetaSums v L s → MetaSums v L s'
  counts : s'.freeBlocks ≤ s.freeBlocks ∧ s'.freeInodes ≤ s.freeInodes
  accounts : Accounts v L s → Accounts v L s'

variable {W W' : ℕ → Prop} {s'' : FsState}

theorem Touches.refl (v : Ext4) (L : Layout) (W : ℕ → Prop) (s : FsState) : Touches v L W s s :=
  ⟨id, fun _ _ _ => rfl, fun _ _ => rfl, fun _ _ => id, fun _ _ => rfl, fun _ => id,
    ⟨le_refl _, le_refl _⟩, id⟩

theorem Touches.trans (h : Touches v L W s s') (h' : Touches v L W s' s'') : Touches v L W s s'' where
  placed := h'.placed ∘ h.placed
  other b hb hw := (h'.other b hb hw).trans (h.other b hb hw)
  slots i hi := (h'.slots i hi).trans (h.slots i hi)
  marks q hq hm := h'.marks q hq (h.marks q hq hm)
  inodes i hi := (h'.inodes i hi).trans (h.inodes i hi)
  sums hmeta := h'.sums hmeta ∘ h.sums hmeta
  counts := ⟨h'.counts.1.trans h.counts.1, h'.counts.2.trans h.counts.2⟩
  accounts := h'.accounts ∘ h.accounts

theorem Touches.mono (h : Touches v L W s s') (hw : ∀ b, W b → W' b) : Touches v L W' s s' :=
  { h with other := fun b hb hnot => h.other b hb fun hin => hnot (hw b hin) }

theorem BlockTaken.touches (hv : GeometryOk v) (hL : LayoutOk v L) {q : ℕ}
    (h : BlockTaken v L q s s') (W : ℕ → Prop) : Touches v L W s s' where
  placed := h.keepsPlaced hL
  other b hb _ := h.toKept.data_eq hb
  slots i hi := h.toKept.slot_eq hv hL hi
  marks q hq hm := by rw [h.marks q hq, hm, Bool.true_or]
  inodes := h.inodes
  sums := h.sums
  counts := h.counts
  accounts := h.accounts

theorem touches_dataWrite (hv : GeometryOk v) (hL : LayoutOk v L) {b : ℕ} {w : Bytes}
    (hb : L.role b = .data) (hw : W b) : Touches v L W s (setBlock v s b w) := by
  have hbooks : SameBooks v L s (setBlock v s b w) := sameBooks_setBlock w (not_bookkeeping_data hb)
  exact
    { placed := hbooks.keepsPlaced hv hL
      other := fun b' _ hnot => block_setBlock_ne fun heq => hnot (heq ▸ hw)
      slots := fun i hi => slot_dataWrite hv hL hb hi
      marks := fun q hq hm => (hbooks.marked_eq hv hL hq).trans hm
      inodes := fun i hi => hbooks.inodeMarked_eq hv hL hi
      sums := fun _ => hbooks.metaSums hL
      counts := ⟨le_refl _, le_refl _⟩
      accounts := hbooks.accounts hL }

/-! ## The allocators -/

/-- SOURCE: ext4.rs:799-812 -/
theorem allocBlock_cases (hv : GeometryOk v) (hL : LayoutOk v L) (hp : PlacedAt v L s) :
    (∃ p s', allocBlock v s = (.ok p, s') ∧ BlockTaken v L p s s') ∨
    allocBlock v s = (.error (.error .noSpace), s) ∨
    ∃ e s', Skips e ∧ allocBlock v s = (.error e, s') := by
  rcases allocBlock_ends hv hL hp with ⟨g, j, s', hg, hj, hfree, hfirst, hrun, ht⟩ | ⟨-, hrun⟩ |
    ⟨-, e, s', he, hrun⟩
  · exact Or.inl ⟨_, s', hrun, ht.blockTaken hv hL hg hj hfree hfirst⟩
  · exact Or.inr (Or.inl hrun)
  · exact Or.inr (Or.inr ⟨e, s', he, hrun⟩)

theorem allocBlock_taken (hv : GeometryOk v) (hL : LayoutOk v L) (hp : PlacedAt v L s) {p : ℕ}
    (hrun : allocBlock v s = (.ok p, s')) : BlockTaken v L p s s' := by
  rcases allocBlock_cases hv hL hp with ⟨p', s₁, hrun', htaken⟩ | hrun' | ⟨e, s₁, -, hrun'⟩ <;>
    rw [hrun'] at hrun <;> cases hrun
  exact htaken

/-- A free block is found. -/
theorem allocBlock_ok (hv : GeometryOk v) (hL : LayoutOk v L) (hp : PlacedAt v L s)
    (hsmall : SmallCounts s) {g j : ℕ} (hg : g < v.numGroups) (hj : j < v.bpg / 8 * 8)
    (hfree : freeBit v L s false g j = true) :
    ∃ p s', allocBlock v s = (.ok p, s') ∧ BlockTaken v L p s s' := by
  rcases allocBlock_ends hv hL hp with ⟨g, j, s', hg, hj, hfree, hfirst, hrun, ht⟩ | ⟨hfull, -⟩ |
    ⟨hbig, -⟩
  · exact ⟨_, s', hrun, ht.blockTaken hv hL hg hj hfree hfirst⟩
  · exact absurd (hfull g j hg hj) (by rw [hfree]; decide)
  · exact absurd hsmall hbig

/-- SOURCE: ext4.rs:814-848 -/
theorem allocInode_cases (hv : GeometryOk v) (hL : LayoutOk v L) (hp : PlacedAt v L s)
    (isDir : Bool) :
    (∃ i s', allocInode v isDir s = (.ok i, s') ∧ InodeTaken v L i s s') ∨
    allocInode v isDir s = (.error (.error .noSpace), s) ∨
    ∃ e s', Skips e ∧ allocInode v isDir s = (.error e, s') := by
  rcases allocInode_ends hv hL hp isDir with ⟨g, j, s', hg, hj, hfree, -, hrun, ht⟩ | ⟨-, hrun⟩ |
    ⟨-, e, s', he, hrun⟩
  · have hj' : j < v.ipg := lt_of_lt_of_le hj (Nat.div_mul_le_self v.ipg 8)
    exact Or.inl ⟨_, s', hrun, ht.inodeTaken hv hL hg hj' hfree⟩
  · exact Or.inr (Or.inl hrun)
  · exact Or.inr (Or.inr ⟨e, s', he, hrun⟩)

theorem allocInode_taken (hv : GeometryOk v) (hL : LayoutOk v L) (hp : PlacedAt v L s) {isDir : Bool}
    {i : ℕ} (hrun : allocInode v isDir s = (.ok i, s')) : InodeTaken v L i s s' := by
  rcases allocInode_cases hv hL hp isDir with ⟨k, s₁, hrun', htaken⟩ | hrun' | ⟨e, s₁, -, hrun'⟩ <;>
    rw [hrun'] at hrun <;> cases hrun
  exact htaken

/-- A free inode is found. -/
theorem allocInode_ok (hv : GeometryOk v) (hL : LayoutOk v L) (hp : PlacedAt v L s)
    (hsmall : SmallCounts s) (isDir : Bool) {g j : ℕ} (hg : g < v.numGroups)
    (hj : j < v.ipg / 8 * 8) (hfree : freeBit v L s true g j = true) :
    ∃ i s', allocInode v isDir s = (.ok i, s') ∧ InodeTaken v L i s s' := by
  rcases allocInode_ends hv hL hp isDir with ⟨g, j, s', hg, hj, hfree, -, hrun, ht⟩ | ⟨hfull, -⟩ |
    ⟨hbig, -⟩
  · have hj' : j < v.ipg := lt_of_lt_of_le hj (Nat.div_mul_le_self v.ipg 8)
    exact ⟨_, s', hrun, ht.inodeTaken hv hL hg hj' hfree⟩
  · exact absurd (hfull g j hg hj) (by rw [hfree]; decide)
  · exact absurd hsmall hbig

/-! ## The order in which blocks are handed out -/

section FreeBlocks

variable (hv : GeometryOk v)
include hv

/-- A free block is on the volume, and its mark is clear. -/
theorem freeBlock_iff {q : ℕ} : freeBlock v L s q = true ↔ IsBlock v q ∧
    (q - v.firstDataBlock) % v.bpg < v.bpg / 8 * 8 ∧ marked v L s q = false ∧
      reserved v s ((q - v.firstDataBlock) / v.bpg) q = false := by
  have hunit : v.firstDataBlock ≤ q → unitAt v false ((q - v.firstDataBlock) / v.bpg)
      ((q - v.firstDataBlock) % v.bpg) = q := fun hlo =>
    ((unit_iff hlo (Nat.mod_lt _ hv.bpg_pos)).mp ⟨rfl, rfl⟩).symm
  simp only [freeBlock, freeBit, marked, IsBlock, bitmapAt, Bool.false_or, Bool.and_eq_true,
    Bool.not_eq_true', decide_eq_true_eq, Bool.false_eq_true, if_false]
  constructor
  · rintro ⟨⟨hlo, hroom⟩, hbit, hlt, hres⟩
    rw [hunit hlo] at hlt hres
    exact ⟨⟨hlo, hlt⟩, hroom, hbit, hres⟩
  · rintro ⟨⟨hlo, hlt⟩, hroom, hbit, hres⟩
    rw [hunit hlo]
    exact ⟨⟨hlo, hroom⟩, hbit, hlt, hres⟩

/-- Whether a block is free is a matter of its mark. -/
theorem freeBlock_congr {q : ℕ} (hp : PlacedAt v L s) (hp' : PlacedAt v L s')
    (hmarks : IsBlock v q → marked v L s' q = marked v L s q) :
    freeBlock v L s' q = freeBlock v L s q := by
  rw [Bool.eq_iff_iff, freeBlock_iff hv, freeBlock_iff hv]
  refine and_congr_right fun hq => ?_
  obtain ⟨hbb, hib, hit⟩ := hp _ (hq.group_lt hv)
  obtain ⟨hbb', hib', hit'⟩ := hp' _ (hq.group_lt hv)
  unfold reserved Ext4.reservedBy
  rw [hmarks hq, hbb, hib, hit, hbb', hib', hit']

theorem BlockTaken.freeBlock_eq {p q : ℕ} (hp : PlacedAt v L s) (h : BlockTaken v L p s s') :
    freeBlock v L s' q = (freeBlock v L s q && decide (q ≠ p)) := by
  by_cases hqp : q = p
  · subst hqp
    have hmark : marked v L s' q = true := by
      rw [h.marks q h.isBlock, decide_eq_true rfl, Bool.or_true]
    have hfull : freeBlock v L s' q ≠ true := by
      rw [Ne, freeBlock_iff hv, hmark]
      simp
    simpa using hfull
  · rw [freeBlock_congr hv hp h.placed fun hq => by rw [h.marks q hq, decide_eq_false hqp, Bool.or_false],
      decide_eq_true hqp, Bool.and_true]

end FreeBlocks

/-- The block that is handed out after `k` others. -/
def Takes (v : Ext4) (L : Layout) (s : FsState) (k p : ℕ) : Prop :=
  freeBlock v L s p = true ∧ Nat.count (fun q => freeBlock v L s q = true) p = k

theorem Takes.unique {k p p' : ℕ} (h : Takes v L s k p) (h' : Takes v L s k p') : p = p' :=
  Nat.count_injective h.1 h'.1 (h.2.trans h'.2.symm)

theorem takes_congr {k p : ℕ} (h : ∀ q, freeBlock v L s' q = freeBlock v L s q) :
    Takes v L s' k p ↔ Takes v L s k p := by
  unfold Takes
  simp only [h]

theorem SameBooks.takes_iff (hv : GeometryOk v) (hL : LayoutOk v L) {k p : ℕ}
    (hp : PlacedAt v L s) (h : SameBooks v L s s') : Takes v L s' k p ↔ Takes v L s k p :=
  takes_congr fun _ => freeBlock_congr hv hp (fun g hg => by rw [h.descriptor_eq hL hg]; exact hp g hg)
    (h.marked_eq hv hL)

theorem InodeTaken.takes_iff (hv : GeometryOk v) {i k p : ℕ} (hp : PlacedAt v L s)
    (h : InodeTaken v L i s s') : Takes v L s' k p ↔ Takes v L s k p :=
  takes_congr fun q => freeBlock_congr hv hp h.placed (h.marks q)

theorem BlockTaken.takes {p : ℕ} (h : BlockTaken v L p s s') : Takes v L s 0 p := by
  refine ⟨h.free, ?_⟩
  rw [Nat.count_eq_card_filter_range, Finset.card_eq_zero, Finset.filter_eq_empty_iff]
  intro q hq hfree
  have hle := h.first q hfree
  rw [Finset.mem_range] at hq
  omega

/-- The next one after a block that was taken. -/
theorem BlockTaken.takes_next (hv : GeometryOk v) {p q k : ℕ} (hp : PlacedAt v L s)
    (h : BlockTaken v L p s s') : Takes v L s' k q ↔ Takes v L s (k + 1) q := by
  have heq : ∀ q, freeBlock v L s' q = (freeBlock v L s q && decide (q ≠ p)) :=
    fun q => h.freeBlock_eq hv hp
  -- behind the block there is one free block less
  have hcount : ∀ n, p < n → Nat.count (fun q => freeBlock v L s q = true) n =
      Nat.count (fun q => freeBlock v L s' q = true) n + 1 := by
    intro n hn
    induction n, hn using Nat.le_induction with
    | base =>
      have hbefore : Nat.count (fun q => freeBlock v L s' q = true) p = 0 := by
        rw [Nat.count_eq_card_filter_range, Finset.card_eq_zero, Finset.filter_eq_empty_iff]
        intro q hq hfree
        rw [heq, Bool.and_eq_true] at hfree
        have hle := h.first q hfree.1
        rw [Finset.mem_range] at hq
        omega
      rw [Nat.count_succ, Nat.count_succ, h.takes.2, hbefore, if_pos h.free, if_neg (by simp [heq])]
    | succ n hn ih =>
      have hne : n ≠ p := by omega
      rw [Nat.count_succ, Nat.count_succ, ih]
      simp only [heq, decide_eq_true hne, Bool.and_true]
      omega
  unfold Takes
  rw [heq q, Bool.and_eq_true, decide_eq_true_eq]
  constructor
  · rintro ⟨⟨hfree, hne⟩, hk⟩
    rw [hcount q (lt_of_le_of_ne (h.first q hfree) hne.symm), hk]
    exact ⟨hfree, rfl⟩
  · rintro ⟨hfree, hk⟩
    have hne : q ≠ p := by
      rintro rfl
      rw [h.takes.2] at hk
      cases hk
    rw [hcount q (lt_of_le_of_ne (h.first q hfree) hne.symm)] at hk
    exact ⟨⟨hfree, hne⟩, Nat.succ.inj hk⟩

end Pinx.Analysis
