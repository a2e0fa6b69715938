import Pinx.Analysis.InodeWrites
import Pinx.Analysis.UnsealedVolume

/-!
# The block count of an inode

The format counts in an inode all blocks it owns, those of its data and those of its tree.
The driver counts, at the end of a call, the lengths of the records of the tree.  So what it
stores is right as long as the records are in the inode itself, and wrong from the first leaf
block on; a record of 32768 blocks, which the driver reads as an unwritten one, is left out too.
-/

namespace Pinx.Analysis

open Pinx.Foundation Pinx.Model

variable {v : Ext4} {L : Layout} {s s₀ s' s'' : FsState} {O O' : ℕ → Option Use} {i j dir : ℕ}
  {raw : Bytes} {name : List UInt8} {isDir : Bool}

/-! ## What is stored and what is owned -/

/-- The blocks of data a tree maps, and the blocks its nodes are in. -/
def mappedBlocks (v : Ext4) (s : FsState) (raw : Bytes) : ℕ :=
  ((treeMaps v s raw).map Prod.snd).toFinset.card
def leafBlocks (v : Ext4) (s : FsState) (raw : Bytes) : ℕ := (treeNodes v s raw).toFinset.card

/-- The inode stores the count of the records of its tree. -/
structure Recounted (v : Ext4) (L : Layout) (s : FsState) (i : ℕ) : Prop where
  tidy : Tidy v s (slot v L s i)
  blocks : (inodeOf v L s i).blocks = countedBlocks v s (slot v L s i)

/-- The records that are counted in full: all but those of 32768 blocks and the unwritten. -/
theorem writtenLen_eq_iff (e : Extent) :
    writtenLen e ≤ (extentMaps e).length ∧
      (writtenLen e = (extentMaps e).length ↔ e.len < 0x8000) := by
  unfold writtenLen extentMaps
  rw [List.length_map, List.length_range]
  by_cases hw : Written e
  · obtain ⟨hpos, hlt⟩ := hw
    rw [if_pos ⟨hpos, hlt⟩, if_pos (by omega)]
    omega
  · rw [if_neg hw]
    unfold Written at hw
    by_cases hle : e.len ≤ 0x8000
    · rw [if_pos hle]
      omega
    · rw [if_neg hle]
      omega

theorem sum_writtenLen_eq_iff (recs : List Extent) :
    (recs.map writtenLen).sum ≤ (recs.flatMap extentMaps).length ∧
      ((recs.map writtenLen).sum = (recs.flatMap extentMaps).length ↔ ∀ e ∈ recs, e.len < 0x8000) := by
  induction recs with
  | nil => exact ⟨le_refl 0, fun _ _ h => (List.not_mem_nil h).elim, fun _ => rfl⟩
  | cons e es ih =>
    obtain ⟨hle, hiff⟩ := ih
    obtain ⟨hle₁, hiff₁⟩ := writtenLen_eq_iff e
    rw [List.map_cons, List.sum_cons, List.flatMap_cons, List.length_append, List.forall_mem_cons,
      ← hiff, ← hiff₁]
    omega

/-- Where the stored count is the right one. -/
theorem Recounted.right_iff (hv : GeometryOk v) (hgood : Good v L O s) (hi : InUse v L s i)
    (h : Recounted v L s i) :
    (inodeOf v L s i).blocks =
        v.bs / 512 * (mappedBlocks v s (slot v L s i) + leafBlocks v s (slot v L s i)) ↔
      rootDepth (slot v L s i) = 0 ∧ ∀ e ∈ leafRecs (slot v L s i) iblock, e.len < 0x8000 := by
  have hc := hgood.slots i hi
  have htidy := h.tidy
  rw [h.blocks, countedBlocks]
  generalize slot v L s i = raw at hc htidy ⊢
  have hmaps : mappedBlocks v s raw = (treeMaps v s raw).length := by
    have hnodup : ((treeMaps v s raw).map Prod.snd).Nodup := by
      refine List.Nodup.map_on (fun x hx y hy heq => ?_) ?_
      · have howner := hc.maps x hx
        rw [heq, hc.maps y hy] at howner
        injection howner with howner
        injection howner with _ hlb
        exact Prod.ext hlb.symm heq
      · rw [treeMaps_eq_table htidy.magic htidy.shallow]
        exact htidy.maps
    rw [mappedBlocks, List.toFinset_card_of_nodup hnodup, List.length_map]
  have hnodes : leafBlocks v s raw = (leafNodes raw).length := by
    rw [leafBlocks, treeNodes_eq_leaves htidy.magic htidy.shallow, List.toFinset_card_of_nodup htidy.leaves]
  have hunit : 0 < v.bs / 512 := by
    rcases hv.bs with h | h | h <;> rw [h] <;> omega
  obtain ⟨hle, hiff⟩ := sum_writtenLen_eq_iff (treeExtents v s raw)
  rw [← treeMaps_eq] at hle hiff
  rw [hmaps, hnodes, Nat.mul_comm, Nat.mul_left_cancel_iff hunit]
  -- with a leaf block the count is too small, without one it is that of the records
  rcases Nat.le_one_iff_eq_zero_or_eq_one.mp htidy.shallow with hroot | hroot
  · have hrecs : treeExtents v s raw = leafRecs raw iblock := by
      rw [treeExtents, if_pos htidy.magic, hroot]
      rfl
    have hleaves : leafNodes raw = [] := if_pos hroot
    rw [hleaves, List.length_nil, Nat.add_zero, hiff, hrecs]
    exact ⟨fun h => ⟨hroot, h⟩, fun h => h.2⟩
  · have hkids : leafNodes raw ≠ [] := by
      have hfilled := htidy.filled
      rw [leafTable, if_neg (by omega)] at hfilled
      rw [leafNodes, if_neg (by omega)]
      exact fun h => hfilled (by rw [List.map_eq_nil_iff.mp h]; rfl)
    have hpos := List.length_pos_iff.mpr hkids
    constructor
    · intro heq
      omega
    · rintro ⟨hzero, -⟩
      omega

/-! ## Calls that return -/

/-- Inodes whose count was right for their records, or that were not in use, have a right one. -/
def CountsKept (v : Ext4) (L : Layout) (s s' : FsState) : Prop :=
  ∀ j, (InUse v L s j → Recounted v L s j) → InUse v L s' j → Recounted v L s' j

theorem CountsKept.trans (h : CountsKept v L s s') (h' : CountsKept v L s' s'') :
    CountsKept v L s s'' :=
  fun j hj => h' j (h j hj)

theorem Recounted.same (h : Recounted v L s j) (hc : Covers v s O j (slot v L s j))
    (hslot : slot v L s' j = slot v L s j)
    (hnodes : ∀ n, O n = some (.node j) → block v s' n = block v s n) : Recounted v L s' j := by
  refine ⟨?_, ?_⟩
  · rw [hslot]
    exact h.tidy.same hc hnodes
  · rw [inodeOf_congr hslot, h.blocks, hslot, countedBlocks_congr hc (fun _ _ => rfl) hnodes]

theorem countedBlocks_flat (hhead : HeadOk raw iblock 4 0) :
    countedBlocks v s raw = ((leafRecs raw iblock).map writtenLen).sum * (v.bs / 512) := by
  rw [countedBlocks, treeExtents, if_pos hhead.magic, show rootDepth raw = 0 from hhead.depth]
  rfl

section Calls

variable (hv : GeometryOk v) (hL : LayoutOk v L)
include hv hL

/-- An inode that is written with the count of its tree. -/
theorem recounted_putSlot (hroles : ∀ n, O n = some (.node i) → L.role n = .data) (hi : IsInode v i)
    {inode : Inode} (hcov : Covers v s O i inode.raw) (htidy : Tidy v s inode.raw)
    (hblocks : inode.blocks = countedBlocks v s inode.raw) :
    Recounted v L (putSlot v L s i (v.encodeInode inode)) i := by
  obtain ⟨hagree, hinode⟩ := slot_written (s := s) hv hL hi inode
  have hnodes : ∀ n, O n = some (.node i) →
      block v (putSlot v L s i (v.encodeInode inode)) n = block v s n :=
    fun n hn => block_putSlot hv hL hi (hroles n hn)
  have hlt := countedBlocks_lt hv hcov.ok fun _ => htidy.shallow
  refine ⟨htidy.congr hcov hagree hnodes, ?_⟩
  rw [hinode, blocks_encode, hblocks, countedBlocks_congr hcov hagree hnodes]
  refine Nat.mod_eq_of_lt ?_
  split <;> omega

omit hL in
theorem Worked.countsKept (h : Worked v L O i s O' s') (hgood : Good v L O s) (hi : InUse v L s i) :
    CountsKept v L s s' := by
  intro j hold hj
  by_cases hne : j = i
  · subst hne
    have hcount := hold hi
    rcases h.self with ⟨hslot, hnodes⟩ | ⟨inode, hresized⟩
    · exact hcount.same (hgood.slots j hi) hslot hnodes
    · have htidy := h.tidy hcount.tidy
      have hlt := countedBlocks_lt hv (h.good.slots j hj).ok h.shallow
      refine ⟨htidy, ?_⟩
      unfold inodeOf
      rw [hresized.self, parseInode_clip hv, blocks_encode, ← hresized.self, ← hresized.blocks]
      rw [← hresized.blocks] at hlt
      refine Nat.mod_eq_of_lt ?_
      split <;> omega
  · have hslot := h.slots j hj.1 hne
    have huse := hj.congr hslot.symm
    exact (hold huse).same (hgood.slots j huse) hslot fun n hn => h.others n _ hn hne

/-- One slot is written, and the rest is as it was. -/
theorem countsKept_putSlot {s₁ : FsState} {inode : Inode} (hgood : Good v L O s) (hi : IsInode v i)
    (hslots : ∀ j, IsInode v j → slot v L s₁ j = slot v L s j)
    (hblocks : ∀ p u, O p = some u → u.ino ≠ i → block v s₁ p = block v s p)
    (hnew : (InUse v L s i → Recounted v L s i) →
      Recounted v L (putSlot v L s₁ i (v.encodeInode inode)) i) :
    CountsKept v L s (putSlot v L s₁ i (v.encodeInode inode)) := by
  intro j hold hj
  by_cases hne : j = i
  · subst hne
    exact hnew hold
  · have hslot : slot v L (putSlot v L s₁ i (v.encodeInode inode)) j = slot v L s j := by
      rw [slot_putSlot hv hL hi hj.1, if_neg hne, hslots j hj.1]
    have huse := hj.congr hslot.symm
    refine (hold huse).same (hgood.slots j huse) hslot fun n hn => ?_
    rw [block_putSlot hv hL hi (hgood.used n _ hn).2.2.1, hblocks n _ hn hne]

/-- SOURCE: ext4.rs:1325-1355 -/
theorem createInode_countsKept (hgood : Good v L O s)
    (hrun : createInode v dir name isDir s = (.ok i, s')) : CountsKept v L s s' := by
  unfold createInode at hrun
  obtain ⟨found, -, hrun⟩ := (reads_lookup v dir name).bind_eq_ok.mp hrun
  cases found with
  | some k => cases hrun
  | none =>
    obtain ⟨ino, s₁, halloc, hrun⟩ := Prog.bind_eq_ok.mp hrun
    have htaken := allocInode_taken hv hL hgood.placed halloc
    have hi := htaken.isInode
    have hvol₁ := htaken.vol (T := False) hv hL False.elim ⟨hgood, False.elim⟩
    have hslots₁ : ∀ j, IsInode v j → slot v L s₁ j = slot v L s j := fun j =>
      htaken.toKept.slot_eq hv hL
    have hblocks₁ : ∀ p u, O p = some u → block v s₁ p = block v s p := fun p u hp =>
      htaken.data_eq (hgood.used p u hp).2.2.1
    cases isDir with
    | false =>
      rw [if_neg (by simp), Prog.bind_ok (Prog.pure_apply _ _)] at hrun
      obtain ⟨_, s₃, hwrite, hrun⟩ := Prog.bind_eq_ok.mp hrun
      cases hrun
      obtain ⟨hhead, hrecs⟩ := newInode_head i false
      rw [writeInode_ok hv hL hvol₁.placed hi] at hwrite
      cases hwrite
      refine countsKept_putSlot hv hL hgood hi hslots₁ (fun p u hp _ => hblocks₁ p u hp) fun _ => ?_
      refine recounted_putSlot (O := O) hv hL (fun n hn => (hgood.used n _ hn).2.2.1) hi
        (covers_flat hhead ?_) (Tidy.flat hhead ?_) ?_
      · rw [hrecs]
        exact fun x hx => (List.not_mem_nil hx).elim
      · rw [hrecs]
        exact List.nodup_nil
      · rw [countedBlocks_flat hhead, hrecs, List.map_nil, List.sum_nil, Nat.zero_mul]
        rfl
    | true =>
      rw [if_pos rfl] at hrun
      obtain ⟨inode, s₂, hinode, hrun⟩ := Prog.bind_eq_ok.mp hrun
      obtain ⟨_, s₃, hwrite, hrun⟩ := Prog.bind_eq_ok.mp hrun
      cases hrun
      obtain ⟨hstep, p, hheld, -, -, -, rfl⟩ :=
        (firstDirBlock_ends (T := False) hv hL False.elim hvol₁ hi dir).ok hinode
      obtain ⟨hhead, hrecs, -⟩ := firstRoot_head (newInode i true).raw
        (hheld.isBlock.2.trans_le hv.blocks)
      have hvol₂ := hstep.vol False.elim (Or.inr rfl) hvol₁
      rw [writeInode_ok hv hL hvol₂.placed hi] at hwrite
      cases hwrite
      refine countsKept_putSlot hv hL hgood hi
        (fun j hj => (hstep.touch.slots j hj).trans (hslots₁ j hj))
        (fun q u hq hu => (hstep.others hvol₁.toGood hq hu).trans (hblocks₁ q u hq)) fun _ => ?_
      refine recounted_putSlot (O := give O p (.data i 0)) hv hL (fun n hn => ?_) hi
        (covers_flat hhead ?_) (Tidy.flat hhead ?_) ?_
      · rcases give_cases hn with ⟨-, heq⟩ | ⟨-, hold⟩
        · cases heq
        · exact (hgood.used n _ hold).2.2.1
      · rw [hrecs]
        intro x hx
        have hx' : x = (0, p) := by simpa [extentMaps] using hx
        rw [hx']
        exact give_self O p _
      · rw [hrecs]
        exact List.nodup_singleton _
      · rw [countedBlocks_flat hhead, hrecs]
        exact (Nat.one_mul _).symm

/-- The parent keeps its count when it gets a link more. -/
theorem linkParent_countsKept (hgood : Good v L O s) (hi : InUse v L s i)
    (hrun : linkParent v i s = (.ok (), s')) : CountsKept v L s s' := by
  have hvol : Vol v L False O s := ⟨hgood, False.elim⟩
  obtain ⟨raw, hagree, rfl, -, -⟩ := (linkParent_ends hv hL False.elim hvol hi).ok hrun
  refine countsKept_putSlot hv hL hgood hi.1 (fun _ _ => rfl) (fun _ _ _ _ => rfl) fun hold => ?_
  have hc := hgood.slots i hi
  have hcount := hold hi
  refine recounted_putSlot hv hL (fun n hn => (hgood.used n _ hn).2.2.1) hi.1 (hc.agree hagree)
    (hcount.tidy.congr hc hagree fun _ _ => rfl) ?_
  rw [countedBlocks_congr hc hagree fun _ _ => rfl]
  exact hcount.blocks

/-- SOURCE: ext4.rs:1324-1366 -/
theorem create_countsKept (hgood : Good v L O s) (hdir : InUse v L s dir)
    (hdepth : HasMagic (slot v L s dir) iblock → rootDepth (slot v L s dir) ≤ 1)
    (hrun : create v dir name isDir s = (.ok i, s')) : CountsKept v L s s' := by
  have hvol : Vol v L False O s := ⟨hgood, False.elim⟩
  unfold create at hrun
  obtain ⟨ino, s₁, hmake, hrun⟩ := Prog.bind_eq_ok.mp hrun
  obtain ⟨_, s₂, hadd, hrun⟩ := Prog.bind_eq_ok.mp hrun
  obtain ⟨-, O₁, hmade⟩ := (createInode_made hv hL False.elim hvol dir name isDir).ok hmake
  have hslot := hmade.slots dir hdir
  have hdir₁ := hdir.congr hslot
  have hgood₁ := hmade.sound.toGood
  obtain ⟨O₂, hworked⟩ := addDirent_worked hv hL hgood₁ hdir₁ (by rwa [hslot]) hadd
  have hkept := (createInode_countsKept hv hL hgood hmake).trans (hworked.countsKept hv hgood₁ hdir₁)
  cases isDir with
  | false =>
    rw [if_neg (by simp)] at hrun
    cases hrun
    exact hkept
  | true =>
    rw [if_pos rfl] at hrun
    obtain ⟨_, s₃, hlink, hrun⟩ := Prog.bind_eq_ok.mp hrun
    cases hrun
    exact hkept.trans (linkParent_countsKept hv hL hworked.good hworked.inUse hlink)

/-- SOURCE: ext4.rs:1282-1320 -/
theorem writeFile_countsKept (hgood : Good v L O s) (hok : Workable v L s i) {offset : ℕ}
    {buf : List UInt8} (hrun : writeFile v i offset buf s = (.ok (), s')) : CountsKept v L s s' := by
  by_cases hi : IsInode v i
  · obtain ⟨huse, hdepth⟩ := hok hi
    obtain ⟨O', hworked, -⟩ := writeFile_worked hv hL hgood huse hdepth hrun
    exact hworked.countsKept hv hgood huse
  · unfold writeFile at hrun
    by_cases hnil : buf = []
    · rw [if_pos hnil] at hrun
      cases hrun
      exact fun _ => id
    · rw [if_neg hnil] at hrun
      obtain ⟨inode, s₁, hread, -⟩ := Prog.bind_eq_ok.mp hrun
      obtain ⟨e, hfail⟩ := readInode_refused (s := s) hv hi
      rw [hfail] at hread
      cases hread

end Calls

/-! ## Runs -/

/-- A call that returns, on an inode that is in use and has a shallow tree. -/
def DoneCall (v : Ext4) (L : Layout) (s : FsState) (c : FsCall) (s' : FsState) : Prop :=
  Workable v L s c.inode ∧ c.run v s = (.ok (), s')

theorem DoneCall.shallowCall {c : FsCall} (h : DoneCall v L s c s') : ShallowCall v L s c s' := by
  refine ⟨h.1, ?_⟩
  unfold FsCall.exec
  rw [h.2]

theorem DoneCall.countsKept (hv : GeometryOk v) (hL : LayoutOk v L) (hown : Ownership v L s)
    {c : FsCall} (h : DoneCall v L s c s') : CountsKept v L s s' := by
  obtain ⟨hok, hrun⟩ := h
  have hcreate : ∀ {dir name isDir ino}, Workable v L s dir →
      create v dir name isDir s = (.ok ino, s') → CountsKept v L s s' := by
    intro dir name isDir ino hok hrun
    by_cases hdir : IsInode v dir
    · exact create_countsKept hv hL hown.good (hok hdir).1 (hok hdir).2 hrun
    · obtain ⟨e, hfail⟩ := createInode_outside (s := s) hv hdir name isDir
      unfold create at hrun
      rw [Prog.bind_error hfail] at hrun
      cases hrun
  cases c with
  | createFile dir name =>
    obtain ⟨ino, s₁, hrun, hdone⟩ := Prog.bind_eq_ok.mp hrun
    cases hdone
    exact hcreate hok hrun
  | createDir dir name =>
    obtain ⟨ino, s₁, hrun, hdone⟩ := Prog.bind_eq_ok.mp hrun
    cases hdone
    exact hcreate hok hrun
  | writeFile ino offset buf => exact writeFile_countsKept hv hL hown.good hok hrun

/-- The count of an inode that was created in a run of calls that return is right in a state of
the run if and only if its records are in the inode itself, none of them of 32768 blocks. -/
theorem block_count_iff (hv : GeometryOk v) (hL : LayoutOk v L) (hown : Ownership v L s₀)
    (hnew : ¬InUse v L s₀ i) (hrun : Reaches (DoneCall v L) s₀ s) (hi : InUse v L s i) :
    (inodeOf v L s i).blocks =
        v.bs / 512 * (mappedBlocks v s (slot v L s i) + leafBlocks v s (slot v L s i)) ↔
      rootDepth (slot v L s i) = 0 ∧ ∀ e ∈ leafRecs (slot v L s i) iblock, e.len < 0x8000 := by
  obtain ⟨hown', hcount⟩ : Ownership v L s ∧ (InUse v L s i → Recounted v L s i) := by
    refine hrun.invariant (I := fun s => Ownership v L s ∧ (InUse v L s i → Recounted v L s i))
      ⟨hown, fun h => absurd h hnew⟩ ?_
    rintro s₁ c s₂ ⟨hown₁, hcount₁⟩ hcall
    obtain ⟨O, hvol⟩ :=
      (shallowCall_settled (T := False) hv hL False.elim hown₁ False.elim hcall.shallowCall).vol
    exact ⟨hvol.toGood.ownership, hcall.countsKept hv hL hown₁ i hcount₁⟩
  exact (hcount hi).right_iff hv hown'.good hi

/-! ## A volume with no two free blocks in a row -/

def doneExec (v : Ext4) (L : Layout) (s : FsState) (c : FsCall) : Option FsState :=
  if Workable v L s c.inode then
    match c.run v s with
    | (.ok _, s') => some s'
    | (.error _, _) => none
  else none

theorem doneCall_of_exec {c : FsCall} (h : doneExec v L s c = some s') : DoneCall v L s c s' := by
  unfold doneExec at h
  split at h
  · rename_i hok
    split at h
    · rename_i hrun
      cases h
      exact ⟨hok, hrun⟩
    · cases h
  · cases h

/-- A volume of 32 blocks with an empty root directory. -/
def gapsVolume : Ext4 := { noSeedVolume with sectors := 64, bpg := 32, blocksTotal := 32 }

/-- Blocks 8, 10, 12 and so on are free. -/
def gapsBitmap : Bytes := fun k => if k = 0 then 0x7F else if k < 3 then 0x55 else 0xD5

def gapsState : FsState where
  disk
    | 2 => (((zeros.putLE 0x00 4 3).putLE 0x04 4 4).putLE 0x08 4 5).putLE 0x0C 4 12
    | 3 => gapsBitmap
    | 4 => fun _ => 0x03
    | 5 => zeros.blit (1 * 128) 128 (gapsVolume.encodeInode (noSeedInode 2 true 1024 6))
    | 6 => dotsBlock gapsVolume 2 2
    | _ => zeros
  freeBlocks := 12
  freeInodes := 6

/-- A file is created, and a byte is written to every other block of it. -/
def gapsCalls (n : ℕ) : List FsCall :=
  .createFile 2 [0x61] :: (List.range n).map fun k => .writeFile 3 (2048 * k) [1]

/-- The state with the bytes at some places (a block, an offset and a length) given by a number,
so that they are evaluated only once. -/
def packed : List (ℕ × ℕ × ℕ) → FsState → (FsState → Bool) → Bool
  | [], s, test => test s
  | (b, a, n) :: places, s, test =>
    match (s.disk b).getLE a n with
    | 0 => packed places { s with disk := Function.update s.disk b ((s.disk b).putLE a n 0) } test
    | x + 1 =>
      packed places { s with disk := Function.update s.disk b ((s.disk b).putLE a n (x + 1)) } test

theorem packed_eq (places : List (ℕ × ℕ × ℕ)) (s : FsState) (test : FsState → Bool) :
    packed places s test = test s := by
  induction places generalizing s with
  | nil => rfl
  | cons place places ih =>
    obtain ⟨b, a, n⟩ := place
    have hsame : ∀ x, (s.disk b).getLE a n = x →
        { s with disk := Function.update s.disk b ((s.disk b).putLE a n x) } = s := by
      rintro x rfl
      rw [Bytes.putLE_getLE (Nat.mod_eq_of_lt (Bytes.getLE_lt _ _ _)), Function.update_eq_self]
    unfold packed
    split
    · rename_i hx
      rw [hsame _ hx, ih]
    · rename_i x hx
      rw [hsame _ hx, ih]

/-- Run the calls, with the descriptor, the block bitmap and the slot of the new inode packed. -/
def gapsRun (n : ℕ) (test : FsState → Bool) : Bool :=
  testRun (doneExec gapsVolume noSeedLayout) (packed [(2, 0, 32), (3, 0, 4), (5, 256, 128)]) test
    (gapsCalls n) gapsState

theorem owned_gaps : OwnedAt gapsVolume noSeedLayout gapsState [1, 2, 3, 4, 5] [2] := by
  decide +kernel

theorem gapsRun_one : gapsRun 1 (fun s => decide (InUse gapsVolume noSeedLayout s 3 ∧
    rootDepth (slot gapsVolume noSeedLayout s 3) = 0 ∧
    ∀ e ∈ leafRecs (slot gapsVolume noSeedLayout s 3) iblock, e.len < 0x8000)) = true := by
  decide +kernel

theorem gapsRun_five : gapsRun 5 (fun s => decide (InUse gapsVolume noSeedLayout s 3 ∧
    (inodeOf gapsVolume noSeedLayout s 3).blocks = 10 ∧
    mappedBlocks gapsVolume s (slot gapsVolume noSeedLayout s 3) = 5 ∧
    leafBlocks gapsVolume s (slot gapsVolume noSeedLayout s 3) = 1)) = true := by
  decide +kernel

theorem geometryOk_gaps : GeometryOk gapsVolume := by
  simp [geometryOk_iff, gapsVolume, noSeedVolume, sampleVolume]

theorem layoutOk_gaps : LayoutOk gapsVolume noSeedLayout :=
  layoutOk_oneGroup rfl rfl rfl rfl rfl (by omega) (by omega) (show 4 < 32 ∧ 5 < 32 by omega)

theorem ownership_gaps : Ownership gapsVolume noSeedLayout gapsState :=
  OwnedAt.ownership owned_gaps role_oneGroup

theorem unused_gaps : ¬InUse gapsVolume noSeedLayout gapsState 3 := fun h =>
  absurd (owned_gaps.mem h) (by simp)

theorem gapsRun_reaches {n : ℕ} {test : FsState → Bool} (h : gapsRun n test = true) :
    ∃ s, Reaches (DoneCall gapsVolume noSeedLayout) gapsState s ∧ test s = true := by
  obtain ⟨s, hrun, htest⟩ := runEvents_of_testRun (packed_eq _) h
  exact ⟨s, (reaches_of_runEvents hrun).mono fun _ _ _ => doneCall_of_exec, htest⟩

/-- With one block the count is right. -/
theorem block_count_one : ∃ s, Reaches (DoneCall gapsVolume noSeedLayout) gapsState s ∧
    InUse gapsVolume noSeedLayout s 3 ∧
    (inodeOf gapsVolume noSeedLayout s 3).blocks =
      gapsVolume.bs / 512 * (mappedBlocks gapsVolume s (slot gapsVolume noSeedLayout s 3) +
        leafBlocks gapsVolume s (slot gapsVolume noSeedLayout s 3)) := by
  obtain ⟨s, hrun, htest⟩ := gapsRun_reaches gapsRun_one
  obtain ⟨hi, hflat⟩ := of_decide_eq_true htest
  exact ⟨s, hrun, hi, (block_count_iff geometryOk_gaps layoutOk_gaps ownership_gaps unused_gaps hrun
    hi).mpr hflat⟩

/-- With five blocks apart there is a leaf block, which is not counted: 10 sectors are stored for
six blocks of two sectors. -/
theorem leaf_not_counted : Ownership gapsVolume noSeedLayout gapsState ∧
    ¬InUse gapsVolume noSeedLayout gapsState 3 ∧
    ∃ s, Reaches (DoneCall gapsVolume noSeedLayout) gapsState s ∧
      InUse gapsVolume noSeedLayout s 3 ∧
      (inodeOf gapsVolume noSeedLayout s 3).blocks = 10 ∧
      gapsVolume.bs / 512 * (mappedBlocks gapsVolume s (slot gapsVolume noSeedLayout s 3) +
        leafBlocks gapsVolume s (slot gapsVolume noSeedLayout s 3)) = 12 := by
  obtain ⟨s, hrun, htest⟩ := gapsRun_reaches gapsRun_five
  obtain ⟨hi, hblocks, hmapped, hleaf⟩ := of_decide_eq_true htest
  refine ⟨ownership_gaps, unused_gaps, s, hrun, hi, hblocks, ?_⟩
  rw [hmapped, hleaf]
  rfl

end Pinx.Analysis
