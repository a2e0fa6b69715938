import Pinx.Analysis.Directories

/-!
# Adding an entry to a directory

`add_dirent` puts the entry into the first block with room for it, and a directory without
one grows by a block.  Either way a linear directory lists one entry more, and no other
file or directory changes.  The exception is a directory that does not show the block it has got:
because of its size field, of the numbers of its blocks, of the length field of the record the
block is merged into, or of a block that is already mapped behind the end of the directory.
-/

namespace Pinx.Analysis

open Pinx.Foundation Pinx.Model

variable {v : Ext4} {L : Layout} {s s' : FsState} {O O' : ℕ → Option Use} {dir ino ft k : ℕ}
  {name : List UInt8}

/-! ## The two ways -/

/-- No block of the directory has room for an entry of this name. -/
def Crowded (v : Ext4) (L : Layout) (s : FsState) (dir : ℕ) (name : List UInt8) : Prop :=
  ∀ x p, x < dirCount v (inodeOf v L s dir).size →
    treeLook v s (slot v L s dir) x = .ok (some p) →
    findSlot v (block v s p) (roundDirSize name.length) (maxBlockSize + 1) 0 0 0 0 = none

/-- The directory lists one entry more, and everything else is as it was. -/
structure Entered (v : Ext4) (L : Layout) (O : ℕ → Option Use) (dir : ℕ) (new : DirEnt)
    (s : FsState) (O' : ℕ → Option Use) (s' : FsState) : Prop where
  good : Good v L O' s'
  ext : ∀ p u, O p = some u → O' p = some u
  others : ∀ j, InUse v L s j → j ≠ dir → SameFile v L O j s s'
  linear : LinearDir v L s' dir
  listing : OneMore new (dirListing v L s dir) (dirListing v L s' dir)

section Add

variable (hv : GeometryOk v) (hL : LayoutOk v L) (hgood : Good v L O s)
  (hd : LinearDir v L s dir)
include hv hL hgood hd

/-- SOURCE: ext4.rs:1180-1246 -/
theorem addDirent_cases (hrun : addDirent v dir name ino ft s = (.ok (), s')) :
    name.length ≤ 255 ∧
    ((∃ x p slot, x < dirCount v (inodeOf v L s dir).size ∧
      treeLook v s (Analysis.slot v L s dir) x = .ok (some p) ∧
      findSlot v (block v s p) (roundDirSize name.length) (maxBlockSize + 1) 0 0 0 0 = some slot ∧
      (fillSlot (block v s p) slot ino ft name >>= fun blk =>
        writeFsb v p (v.dirTailCsum dir (inodeOf v L s dir).gen blk)) s = (.ok (), s')) ∨
    Crowded v L s dir name ∧ growDir v (inodeOf v L s dir)
      (dirCount v (inodeOf v L s dir).size) ino ft name s = (.ok (), s')) := by
  have hraw : (inodeOf v L s dir).raw = slot v L s dir := Bytes.clip_clip _
  have hcount := hd.count
  have hok : RootOk v s (inodeOf v L s dir).raw := hraw ▸ (hgood.slots dir hd.inUse).ok
  have hread : BlocksRead v s (inodeOf v L s dir).raw 0
      (0 + dirCount v (inodeOf v L s dir).size) := by
    rw [Nat.zero_add, hraw]
    exact hd.read hgood
  unfold addDirent at hrun
  by_cases hname : name = [] ∨ 255 < name.length
  · rw [if_pos hname] at hrun
    cases hrun
  rw [if_neg hname, Prog.bind_ok (readInode_ok hv hL hgood.placed hd.inUse.1),
    if_neg (by rw [hd.isDir]; decide)] at hrun
  by_cases hindexed : (inodeOf v L s dir).flags &&& 0x1000 ≠ 0
  · rw [if_pos hindexed] at hrun
    cases hrun
  rw [if_neg hindexed, Prog.bind_ok (hd.dirBlocks_ok hv)] at hrun
  refine ⟨by omega, ?_⟩
  rcases slotLoop_cases hv hok (roundDirSize name.length) hread (by omega) with
    ⟨x, p, slot, -, hx, hlook, hslot, hloop⟩ | ⟨hfull, hloop⟩
  · rw [Prog.bind_ok hloop] at hrun
    rw [hraw] at hlook
    exact Or.inl ⟨x, p, slot, by omega, hlook, hslot, hrun⟩
  · rw [Prog.bind_ok hloop] at hrun
    rw [hraw] at hfull
    exact Or.inr ⟨fun x p hx hlook => hfull x p (Nat.zero_le x) (by omega) hlook, hrun⟩

/-! ## A block with room -/

/-- A data block of the directory gets an entry more. -/
theorem entered_write {x p : ℕ} {b' : Bytes} {es' : List Dirent} {new : DirEnt}
    (hx : x < dirCount v (inodeOf v L s dir).size)
    (hlook : treeLook v s (slot v L s dir) x = .ok (some p))
    (hchain : EntryChain (b'.clip v.bs) v.dirLimit 0 es')
    (hone : OneMore new (listed v (block v s p)) (liveOf es'))
    (hfresh : binding new.name (dirListing v L s dir) = none) :
    Entered v L O dir new s O (setBlock v s p b') := by
  have hc := hgood.slots dir hd.inUse
  have howner := hc.maps _ (treeLook_mem hlook)
  have hstep : Step v L False dir O s O (setBlock v s p b') :=
    data_write hv hL hgood howner b' False.elim
  have hslots := hstep.touch.slots
  have hvol : Vol v L False O (setBlock v s p b') :=
    hstep.vol False.elim (Or.inr rfl) ⟨hgood, False.elim⟩
  obtain ⟨hblockOk, hlisted⟩ := hchain.blockOk hv
  -- the tree is as it was, and of its blocks only this one has changed
  have hother : ∀ q, q ≠ p → block v (setBlock v s p b') q = block v s q :=
    fun q hq => block_setBlock_ne hq
  have hnodes : ∀ n, O n = some (.node dir) → block v (setBlock v s p b') n = block v s n := by
    intro n hn
    refine hother n ?_
    rintro rfl
    rw [howner] at hn
    cases hn
  have hlooks : ∀ y, treeLook v (setBlock v s p b') (slot v L s dir) y =
      treeLook v s (slot v L s dir) y := treeLook_congr hc (fun _ _ => rfl) hnodes
  have hinode := inodeOf_congr (hslots dir hd.inUse.1)
  have hlisting : OneMore new (dirListing v L s dir) (dirListing v L (setBlock v s p b') dir) := by
    unfold dirListing
    rw [hinode, hslots dir hd.inUse.1]
    refine oneMore_flatMap hx ?_ fun y hy => listedAt_congr (hlooks y) fun q hq => hother q ?_
    · unfold listedAt
      rw [hlooks, hlook]
      dsimp only
      rw [block_setBlock_self, hlisted]
      exact hone
    · rintro rfl
      have howner' := hc.maps _ (treeLook_mem hq)
      rw [howner] at howner'
      cases howner'
      exact hy rfl
  refine ⟨hvol.toGood, fun _ _ => id, fun j hj hne => ?_, ?_, hlisting⟩
  · exact sameFile_of_slot hj (hslots j hj.1) fun q u hq hu => hstep.others hgood hq (hu ▸ hne)
  · refine ⟨hd.inUse.congr (hslots dir hd.inUse.1), ?_, ?_, ?_, ?_, ?_, ?_, ?_, ?_⟩
    · rw [hinode]
      exact hd.isDir
    · rw [hslots dir hd.inUse.1]
      exact hd.magic
    · rw [hslots dir hd.inUse.1]
      exact hd.shallow
    · rw [hinode]
      exact hd.count
    · rw [hslots dir hd.inUse.1]
      exact hd.apart
    · rw [hinode, hslots dir hd.inUse.1]
      intro y hy
      rw [hlooks]
      exact hd.found y hy
    · rw [hinode, hslots dir hd.inUse.1]
      intro y hy q hq
      rw [hlooks] at hq
      by_cases hqp : q = p
      · rw [hqp, block_setBlock_self]
        exact hblockOk
      · rw [hother q hqp]
        exact hd.blocks y hy q hq
    · exact hlisting.nodup hfresh hd.names

/-! ## A block more -/

/-- The number of blocks a directory has once it has got one more. -/
def grownCount (v : Ext4) (L : Layout) (s : FsState) (dir : ℕ) : ℕ :=
  dirCount v (((inodeOf v L s dir).size + v.bs) % if v.has64bit then 2 ^ 64 else 2 ^ 32)

/-- Where block `x` of a directory is once block `p` is in its tree. -/
def grownLook (v : Ext4) (L : Layout) (s : FsState) (dir p x : ℕ) : Except FsFail (Option ℕ) :=
  lookTable (2 ^ 32 - 1) x (growTable (lastCap v s (slot v L s dir)) (leafTable v s (slot v L s dir))
    (dirCount v (inodeOf v L s dir).size) p)

/-- The entries in use in block `x` of a directory once block `p`, with the entry `new` in it, is in
its tree. -/
def grownAt (v : Ext4) (L : Layout) (s : FsState) (dir p : ℕ) (new : DirEnt) (x : ℕ) : List DirEnt :=
  match grownLook v L s dir p x with
  | .ok (some q) => if q = p then [new] else listed v (block v s q)
  | _ => []

/-- The directory has taken block `p`, with one entry in it, into its tree, and everything
else is as it was. -/
structure Grown (v : Ext4) (L : Layout) (O : ℕ → Option Use) (dir p ino ft : ℕ) (name : List UInt8)
    (s : FsState) (O' : ℕ → Option Use) (s' : FsState) : Prop where
  takes : Takes v L s 0 p
  good : Good v L O' s'
  ext : ∀ q u, O q = some u → O' q = some u
  others : ∀ j, InUse v L s j → j ≠ dir → SameFile v L O j s s'
  inUse : InUse v L s' dir
  isDir : (inodeOf v L s' dir).isDir = true
  size : (inodeOf v L s' dir).size =
    ((inodeOf v L s dir).size + v.bs) % if v.has64bit then 2 ^ 64 else 2 ^ 32
  magic : HasMagic (slot v L s' dir) iblock
  shallow : rootDepth (slot v L s' dir) ≤ 1
  apart : (leafNodes (slot v L s' dir)).Nodup
  look : ∀ x, lookTable (2 ^ 32 - 1) x (leafTable v s' (slot v L s' dir)) = grownLook v L s dir p x
  old : ∀ q x, O q = some (.data dir x) → block v s' q = block v s q
  new : block v s' p = Bytes.clip v.bs (v.dirTailCsum dir (inodeOf v L s dir).gen
    (putEntry (fun _ => 0) 0 v.dirLimit ino ft name))

/-- A block with the entry in it, which nothing uses, is taken into the tree. -/
theorem insertDir_grown {s₂ : FsState} {p : ℕ} (htakes : Takes v L s 0 p)
    (hstep : Step v L False dir O s O s₂) (hheld : Held v L O s₂ p)
    (hkeep : ∀ q u, O q = some u → block v s₂ q = block v s q)
    (hnew : block v s₂ p = Bytes.clip v.bs (v.dirTailCsum dir (inodeOf v L s dir).gen
      (putEntry (fun _ => 0) 0 v.dirLimit ino ft name)))
    (hrun : (insertExtent v (inodeOf v L s dir) (dirCount v (inodeOf v L s dir).size) p >>=
      fun inode => recountBlocks v { inode with size := inode.size + v.bs } >>= fun total =>
        writeInode v { inode with size := inode.size + v.bs, blocks := total }) s₂ = (.ok (), s')) :
    ∃ O', Grown v L O dir p ino ft name s O' s' := by
  have hraw : (inodeOf v L s dir).raw = slot v L s dir := Bytes.clip_clip _
  have hi := hd.inUse
  have hvol : Vol v L False O s := ⟨hgood, False.elim⟩
  have hvol₂ := hstep.vol False.elim (Or.inr rfl) hvol
  have hop := (opened_slot hvol hi fun _ => hd.shallow).step hi.1 hstep
  have hmagic : HasMagic (inodeOf v L s dir).raw iblock := hraw ▸ hd.magic
  have hused : ∀ n ∈ treeNodes v s₂ (inodeOf v L s dir).raw,
      IsBlock v n ∧ L.role n = .data ∧ marked v L s₂ n = true :=
    fun n hn => (hvol₂.used n _ (hop.covers.nodes n hn)).2
  have hapart : LeavesApart v L s₂ (inodeOf v L s dir).raw :=
    ⟨hraw ▸ hd.apart, fun n hn => (hused n (mem_treeNodes_leaf hmagic (hop.shallow hmagic) hn)).2⟩
  cases hins : insertExtent v (inodeOf v L s dir) (dirCount v (inodeOf v L s dir).size) p s₂ with
  | mk r s₃ =>
  cases r with
  | error e =>
    rw [Prog.bind_error hins] at hrun
    cases hrun
  | ok inode =>
    have hstepped := insertExtent_step hv hL False.elim hvol₂
      (hi.congr (hstep.touch.slots dir hi.1)) hop hheld False.elim hd.count
    have hends := insertExtent_ends hv hL hvol₂.toPlaced hd.count
      (hheld.isBlock.2.trans_le hv.blocks) hop.covers.ok hop.shallow hused
    rw [hins] at hstepped
    rw [hins, withHeader, if_pos hmagic] at hends
    obtain ⟨O', hstep₃, hop₃, howner⟩ := Prog.ends_ok.mp hstepped
    have hinserts := hends.inserts hv hL hvol₂.toPlaced hapart
    have hall := hstep.trans hi.1 hstep₃
    obtain ⟨total, hfin, hvol', huse⟩ := finish_vol hv hL False.elim
      { inode with size := inode.size + v.bs } (hall.vol False.elim (Or.inl hi) hvol)
      (hi.congr (hall.touch.slots dir hi.1))
      ⟨hop₃.ino, hop₃.covers, hop₃.shallow, hop₃.around, hop₃.mode, hop₃.flags⟩
    rw [Prog.bind_ok hins, hfin] at hrun
    cases hrun
    obtain ⟨hagree, hinode⟩ := slot_written (s := s₃) hv hL hi.1
      { inode with size := inode.size + v.bs, blocks := total }
    obtain ⟨hmode, -, hsize⟩ := parseInode_encode (v := v)
      { inode with size := inode.size + v.bs, blocks := total } dir
    -- the blocks of files are not in the inode table
    have hput : ∀ q u, O' q = some u → block v (putSlot v L s₃ dir (v.encodeInode
        { inode with size := inode.size + v.bs, blocks := total })) q = block v s₃ q :=
      fun q u hq => block_putSlot hv hL hi.1 (hvol'.used q u hq).2.2.1
    obtain ⟨htable, hleaves, hdepth, -⟩ := leafTable_agree hop₃.covers hinserts.magic
      hinserts.shallow hagree fun n hn => hput n _ hn
    obtain ⟨htable₂, -, -, hcap₂⟩ := leafTable_agree (hgood.slots dir hi) hd.magic hd.shallow
      (fun _ _ => rfl) fun n hn => hkeep n _ hn
    have hmode' : inode.mode = (inodeOf v L s dir).mode :=
      hop₃.mode.trans (congrArg Inode.mode (inodeOf_congr (hall.touch.slots dir hi.1)))
    have hdata : ∀ q x, O' q = some (.data dir x) → L.role q = .data → marked v L s₂ q = true →
        q ∉ leafNodes (inodeOf v L s dir).raw → block v (putSlot v L s₃ dir (v.encodeInode
          { inode with size := inode.size + v.bs, blocks := total })) q = block v s₂ q :=
      fun q x hq hrole hmark hleaf => (hput q _ hq).trans (hinserts.data q hrole hmark hleaf)
    have hnotLeaf : ∀ q, O q ≠ some (.node dir) → q ∉ leafNodes (inodeOf v L s dir).raw :=
      fun q hq hmem => hq (hop.covers.nodes q (mem_treeNodes_leaf hmagic (hop.shallow hmagic) hmem))
    refine ⟨O', htakes, hvol'.toGood, hstep₃.ext, fun j hj hne => ?_, huse, ?_, ?_,
      hagree.hasMagic.mp hinserts.magic, ?_, ?_, fun x => ?_, fun q x hq => ?_, ?_⟩
    · refine sameFile_of_slot hj ?_ fun q u hq hu => ?_
      · rw [slot_putSlot hv hL hi.1 hj.1, if_neg hne, hall.touch.slots j hj.1]
      · rw [hput q u (hstep₃.ext q u hq), hall.others hgood hq (hu ▸ hne)]
    · have hdir := hd.isDir
      unfold Inode.isDir at hdir ⊢
      rw [hinode, hmode, hmode', Nat.mod_eq_of_lt (mode_lt v L s dir)]
      exact hdir
    · rw [hinode, hsize, hinserts.same]
    · rw [hdepth]
      exact hinserts.shallow
    · rw [hleaves]
      exact hinserts.nodup
    · rw [htable, hinserts.look, grownLook, ← htable₂, ← hcap₂, ← hraw]
    · obtain ⟨-, -, hrole, hmark⟩ := hvol₂.used q _ hq
      rw [hdata q x (hstep₃.ext q _ hq) hrole hmark (hnotLeaf q (by rw [hq]; simp)), hkeep q _ hq]
    · rw [hdata p _ howner hheld.role hheld.mark (hnotLeaf p (by rw [hheld.free]; simp)), hnew]

/-- SOURCE: ext4.rs:1234-1245 -/
theorem growDir_grown (hname : name.length ≤ 255)
    (hrun : growDir v (inodeOf v L s dir) (dirCount v (inodeOf v L s dir).size) ino ft name s =
      (.ok (), s')) : ∃ p O', Grown v L O dir p ino ft name s O' s' := by
  have hvol : Vol v L False O s := ⟨hgood, False.elim⟩
  unfold growDir at hrun
  rw [Nat.mod_eq_of_lt hd.count] at hrun
  rcases allocBlock_cases hv hL hgood.placed with ⟨p, s₁, halloc, htaken⟩ | halloc | ⟨e, s₁, -, halloc⟩
  case inr.inl =>
    rw [Prog.bind_error halloc] at hrun
    cases hrun
  case inr.inr =>
    rw [Prog.bind_error halloc] at hrun
    cases hrun
  obtain ⟨hstep₁, hheld⟩ := htaken.step (T := False) hv hL hgood dir
  have hvol₁ := hstep₁.vol False.elim (Or.inr rfl) hvol
  rw [Prog.bind_ok halloc, Prog.bind_ok (fillEntry_ok s₁ (by unfold maxBlockSize; omega)),
    Prog.bind_ok (writeFsb_ok hv hheld.isBlock.2)] at hrun
  obtain ⟨hstep₂, hheld₂⟩ := hheld.write (T := False) hv hL hvol₁.toGood dir
    (v.dirTailCsum dir (inodeOf v L s dir).gen (putEntry (fun _ => 0) 0 v.dirLimit ino ft name))
  refine ⟨p, insertDir_grown hv hL hgood hd htaken.takes (hstep₁.trans hd.inUse.1 hstep₂) hheld₂
    (fun q u hq => ?_) block_setBlock_self hrun⟩
  rw [block_setBlock_ne, htaken.data_eq (hgood.used q u hq).2.2.1]
  rintro rfl
  rw [hheld.free] at hq
  cases hq

end Add

/-! ## A directory that does not show its new block -/

/-- The blocks a directory finds below its new size, once block `p` is in its tree, can be read, and
they list what it listed before and the new entry. -/
structure Shown (v : Ext4) (L : Layout) (s : FsState) (dir p : ℕ) (new : DirEnt) : Prop where
  count : grownCount v L s dir < 2 ^ 32
  found : ∀ x < grownCount v L s dir, ∃ r, grownLook v L s dir p x = .ok r ∧
    ∀ q, r = some q → q ≠ p → BlockOk v (block v s q)
  listing : OneMore new (dirListing v L s dir)
    ((List.range (grownCount v L s dir)).flatMap (grownAt v L s dir p new))

/-- The directory is full, and it does not show the block it gets.  `k` blocks are handed out before
that one. -/
def Outgrows (v : Ext4) (L : Layout) (s : FsState) (dir : ℕ) (new : DirEnt) (k : ℕ) : Prop :=
  Crowded v L s dir new.name ∧ ∃ p, Takes v L s k p ∧ ¬Shown v L s dir p new

theorem dirCount_add (hv : GeometryOk v) (size : ℕ) :
    dirCount v (size + v.bs) = dirCount v size + 1 := by
  unfold dirCount
  rw [show size + v.bs + v.bs - 1 = size + v.bs - 1 + v.bs by have := hv.bs_pos; omega,
    Nat.add_div_right _ hv.bs_pos]

/-- A directory in the order of the format, with nothing behind its end, shows its new block unless
it has reached the last block number, its size has no place in the inode, or the last record has no
room for one block more. -/
theorem shown_of_order (hv : GeometryOk v) (hgood : Good v L O s) (hd : LinearDir v L s dir)
    {p key : ℕ} {init : List (ℕ × List Extent)} {recs : List Extent} (hp : Takes v L s k p)
    (htable : leafTable v s (slot v L s dir) = init ++ [(key, recs)])
    (horder : AscendTable (dirCount v (inodeOf v L s dir).size) (init ++ [(key, recs)]))
    (hroom : 2 ≤ recs.length ∨ recs.length < lastCap v s (slot v L s dir))
    (hnumber : dirCount v (inodeOf v L s dir).size + 1 < 2 ^ 32)
    (hsize : v.has64bit = false → (inodeOf v L s dir).size + v.bs < 2 ^ 32)
    (hbrim : ¬Brims recs (dirCount v (inodeOf v L s dir).size) p) (new : DirEnt) :
    Shown v L s dir p new := by
  have hcount : grownCount v L s dir = dirCount v (inodeOf v L s dir).size + 1 := by
    rw [grownCount, Nat.mod_eq_of_lt, dirCount_add hv]
    split
    · exact size_small hv hd.count
    · rename_i h64
      exact hsize (Bool.not_eq_true _ ▸ h64)
  obtain ⟨r, hmerge⟩ : ∃ r, mergeRecs recs (dirCount v (inodeOf v L s dir).size) p = .ok r := by
    cases hm : mergeRecs recs (dirCount v (inodeOf v L s dir).size) p with
    | ok r => exact ⟨r, rfl⟩
    | error e =>
      obtain ⟨-, e, he, hlong⟩ := mergeRecs_error hm
      have := ((ascendTable_concat.mp horder).2.bounds he).2.2
      omega
  have hlooks := (growTable_grows hmerge hroom).look horder (le_refl _) hnumber
    (brimsAt_concat.not.mpr hbrim)
  have hlook : ∀ x < 2 ^ 32 - 1, grownLook v L s dir p x =
      if x = dirCount v (inodeOf v L s dir).size then .ok (some p)
      else treeLook v s (slot v L s dir) x := by
    intro x hx
    rw [grownLook, treeLook_eq_table hd.magic hd.shallow hx, htable, hlooks.2 x hx]
  -- the block is a free one
  have hfree : ∀ x q, treeLook v s (slot v L s dir) x = .ok (some q) → q ≠ p := by
    rintro x q hq rfl
    have hmark := (hgood.used q _ ((hgood.slots dir hd.inUse).maps _ (treeLook_mem hq))).2.2.2
    rw [((freeBlock_iff hv).mp hp.1).2.2.1] at hmark
    cases hmark
  refine ⟨by omega, fun x hx => ?_, dirListing v L s dir, [], (List.append_nil _).symm, ?_⟩
  · rw [hlook x (by omega)]
    split
    · exact ⟨some p, rfl, fun q hq hne => absurd (Option.some.inj hq).symm hne⟩
    · obtain ⟨r, hr⟩ := hd.found x (by omega)
      refine ⟨r, hr, fun q hq _ => hd.blocks x (by omega) q ?_⟩
      rw [hr, hq]
  · rw [hcount, List.range_succ, List.flatMap_append, List.flatMap_singleton]
    congr 1
    · refine List.flatMap_congr fun x hx => ?_
      rw [List.mem_range] at hx
      unfold grownAt listedAt
      rw [hlook x (by omega), if_neg (by omega)]
      cases hfound : treeLook v s (slot v L s dir) x with
      | error e => rfl
      | ok r =>
        cases r with
        | none => rfl
        | some q => exact if_neg (hfree x q hfound)
    · unfold grownAt
      rw [hlook _ (by omega), if_pos rfl]
      exact if_pos rfl

section Same

variable (h : SameFile v L O dir s s') (hgood : Good v L O s) (hd : LinearDir v L s dir)
include h hgood hd

/-- Where the blocks of a directory are once it has got one more is a matter of its inode and its
tree. -/
theorem SameFile.grown : grownCount v L s' dir = grownCount v L s dir ∧
    grownLook v L s' dir = grownLook v L s dir := by
  obtain ⟨htable, -, -, hcap⟩ := leafTable_agree (hgood.slots dir hd.inUse) hd.magic hd.shallow h.tree
    fun n hn => h.blocks n _ hn rfl
  refine ⟨by rw [grownCount, h.size, grownCount], ?_⟩
  funext p x
  rw [grownLook, htable, hcap, h.size, grownLook]

/-- Whether a directory shows the block it gets is a matter of its inode, its tree and its blocks. -/
theorem SameFile.shown (p : ℕ) (new : DirEnt) :
    Shown v L s' dir p new ↔ Shown v L s dir p new := by
  have hc := hgood.slots dir hd.inUse
  obtain ⟨hcount, hlook⟩ := h.grown hgood hd
  have hblock : ∀ x q, grownLook v L s dir p x = .ok (some q) → q ≠ p →
      block v s' q = block v s q := by
    intro x q hq hne
    rcases growTable_maps (lookTable_mem hq) with hold | hnew
    · rw [← treeMaps_eq_table hd.magic hd.shallow] at hold
      exact h.blocks q _ (hc.maps _ hold) rfl
    · exact absurd (Prod.mk.inj hnew).2 hne
  have hat : grownAt v L s' dir p new = grownAt v L s dir p new := by
    funext x
    unfold grownAt
    rw [hlook]
    split
    · rename_i q hq
      split
      · rfl
      · rename_i hne
        rw [hblock x q hq hne]
    · rfl
  have hfound : ∀ x, (∃ r, grownLook v L s dir p x = .ok r ∧
        ∀ q, r = some q → q ≠ p → BlockOk v (block v s' q)) ↔
      ∃ r, grownLook v L s dir p x = .ok r ∧ ∀ q, r = some q → q ≠ p → BlockOk v (block v s q) := by
    refine fun x => exists_congr fun r => and_congr_right fun hr => forall_congr' fun q => ?_
    refine imp_congr_right fun hq => imp_congr_right fun hne => ?_
    rw [hblock x q (hr.trans (congrArg _ hq)) hne]
  constructor
  · rintro ⟨h₁, h₂, h₃⟩
    rw [hcount, h.listing hc, hat] at h₃
    rw [hcount] at h₁ h₂
    rw [hlook] at h₂
    exact ⟨h₁, fun x hx => (hfound x).mp (h₂ x hx), h₃⟩
  · rintro ⟨h₁, h₂, h₃⟩
    refine ⟨hcount ▸ h₁, ?_, ?_⟩
    · rw [hcount, hlook]
      exact fun x hx => (hfound x).mpr (h₂ x hx)
    · rw [hcount, h.listing hc, hat]
      exact h₃

end Same

section Grown

variable {p : ℕ} (hv : GeometryOk v) (hgood : Good v L O s) (hd : LinearDir v L s dir)
  (h : Grown v L O dir p ino ft name s O' s')
include hv hgood hd h

omit hv hgood hd in
/-- The number of blocks, and where they are. -/
theorem Grown.looks : dirCount v (inodeOf v L s' dir).size = grownCount v L s dir ∧
    ∀ x < 2 ^ 32 - 1, treeLook v s' (slot v L s' dir) x = grownLook v L s dir p x :=
  ⟨by rw [h.size]; rfl, fun x hx => (treeLook_eq_table h.magic h.shallow hx).trans (h.look x)⟩

/-- The blocks of the directory: the new one has the new entry, the others are as they were. -/
theorem Grown.block_eq (hfits : EntryFits 0 ino ft name) {x q : ℕ}
    (hq : grownLook v L s dir p x = .ok (some q)) :
    if q = p then BlockOk v (block v s' q) ∧ listed v (block v s' q) = [⟨ino, ft, name⟩]
    else block v s' q = block v s q := by
  split
  · rename_i heq
    obtain ⟨hblockOk, hlisted⟩ := ((chain_fresh hv hfits).tail hv dir).blockOk hv
    rw [heq, h.new]
    refine ⟨hblockOk, hlisted.trans ?_⟩
    rw [liveOf_cons hfits.ino_pos]
    rfl
  · rename_i hne
    rcases growTable_maps (lookTable_mem hq) with hold | hnew
    · rw [← treeMaps_eq_table hd.magic hd.shallow] at hold
      exact h.old q x ((hgood.slots dir hd.inUse).maps _ hold)
    · exact absurd (Prod.mk.inj hnew).2 hne

/-- What the directory lists can be told before it grows. -/
theorem Grown.listing_eq (hfits : EntryFits 0 ino ft name) (hcount : grownCount v L s dir < 2 ^ 32) :
    dirListing v L s' dir = (List.range (grownCount v L s dir)).flatMap
      (grownAt v L s dir p ⟨ino, ft, name⟩) := by
  unfold dirListing
  rw [h.looks.1]
  refine List.flatMap_congr fun x hx => ?_
  rw [List.mem_range] at hx
  unfold listedAt grownAt
  rw [h.looks.2 x (by omega)]
  cases hfound : grownLook v L s dir p x with
  | error e => rfl
  | ok r =>
    cases r with
    | none => rfl
    | some q =>
      have hblock := h.block_eq hv hgood hd hfits hfound
      dsimp only
      split at hblock
      · rename_i heq
        rw [if_pos heq, hblock.2]
      · rename_i hne
        rw [if_neg hne, hblock]

/-- A directory whose blocks are found and list no name twice is linear again. -/
theorem Grown.linear (hfits : EntryFits 0 ino ft name) (hcount : grownCount v L s dir < 2 ^ 32)
    (hfound : ∀ x < grownCount v L s dir, ∃ r, grownLook v L s dir p x = .ok r ∧
      ∀ q, r = some q → q ≠ p → BlockOk v (block v s q))
    (hnames : ((dirListing v L s' dir).map DirEnt.name).Nodup) : LinearDir v L s' dir := by
  refine ⟨h.inUse, h.isDir, h.magic, h.shallow, ?_, h.apart, fun x hx => ?_, fun x hx q hq => ?_, hnames⟩
  · rw [h.looks.1]
    exact hcount
  · rw [h.looks.1] at hx
    obtain ⟨r, hr, -⟩ := hfound x hx
    exact ⟨r, (h.looks.2 x (by omega)).trans hr⟩
  · rw [h.looks.1] at hx
    rw [h.looks.2 x (by omega)] at hq
    have hblock := h.block_eq hv hgood hd hfits hq
    split at hblock
    · exact hblock.1
    · rename_i hne
      obtain ⟨r, hr, hok⟩ := hfound x hx
      rw [hblock]
      exact hok q (Except.ok.inj (hr.symm.trans hq)) hne

/-- The directory shows its new block if, and only if, it is a linear directory again and lists one
entry more. -/
theorem Grown.shown_iff (hfits : EntryFits 0 ino ft name)
    (hfresh : binding name (dirListing v L s dir) = none) :
    Shown v L s dir p ⟨ino, ft, name⟩ ↔ LinearDir v L s' dir ∧
      OneMore ⟨ino, ft, name⟩ (dirListing v L s dir) (dirListing v L s' dir) := by
  constructor
  · rintro ⟨hcount, hfound, hone⟩
    rw [← h.listing_eq hv hgood hd hfits hcount] at hone
    exact ⟨h.linear hv hgood hd hfits hcount hfound (hone.nodup hfresh hd.names), hone⟩
  · rintro ⟨hd', hone⟩
    have hcount := hd'.count
    rw [h.looks.1] at hcount
    refine ⟨hcount, fun x hx => ?_, h.listing_eq hv hgood hd hfits hcount ▸ hone⟩
    have hx' := hx
    rw [← h.looks.1] at hx'
    obtain ⟨r, hr⟩ := hd'.found x hx'
    refine ⟨r, (h.looks.2 x (by omega)).symm.trans hr, ?_⟩
    rintro q rfl hne
    have hblock := h.block_eq hv hgood hd hfits ((h.looks.2 x (by omega)).symm.trans hr)
    rw [if_neg hne] at hblock
    rw [← hblock]
    exact hd'.blocks x hx' q hr

end Grown

/-! ## The whole of `add_dirent` -/

section Whole

variable (hv : GeometryOk v) (hL : LayoutOk v L) (hgood : Good v L O s)
  (hd : LinearDir v L s dir) (hfresh : binding name (dirListing v L s dir) = none)
  (hrun : addDirent v dir name ino ft s = (.ok (), s'))
include hv hL hgood hd hfresh hrun

/-- SOURCE: ext4.rs:1180-1246 -/
theorem addDirent_entered (hino : ino ≠ 0) (hlt : ino < 2 ^ 32) (hft : ft < 256)
    (hok : ¬Outgrows v L s dir ⟨ino, ft, name⟩ 0) :
    ∃ O', Entered v L O dir ⟨ino, ft, name⟩ s O' s' := by
  obtain ⟨hname, hroom | ⟨hfull, hgrow⟩⟩ := addDirent_cases hv hL hgood hd hrun
  · obtain ⟨x, p, slot, hx, hlook, hslot, hwrite⟩ := hroom
    have howner := (hgood.slots dir hd.inUse).maps _ (treeLook_mem hlook)
    obtain ⟨b', es', hfill, hchain, hone⟩ := fillSlot_chain hv (hd.blocks x hx p hlook) s hslot
      ⟨hino, hlt, hft, hname, by omega⟩
    rw [Prog.bind_ok hfill, writeFsb_ok hv (hgood.used p _ howner).2.1.2] at hwrite
    cases hwrite
    exact ⟨O, entered_write hv hL hgood hd hx hlook (hchain.tail hv dir) hone hfresh⟩
  · obtain ⟨p, O', hgrown⟩ := growDir_grown hv hL hgood hd hname hgrow
    have hshown : Shown v L s dir p ⟨ino, ft, name⟩ := by
      by_contra hnot
      exact hok ⟨hfull, p, hgrown.takes, hnot⟩
    obtain ⟨hlinear, hone⟩ := (hgrown.shown_iff hv hgood hd ⟨hino, hlt, hft, hname, by omega⟩ hfresh).mp hshown
    exact ⟨O', hgrown.good, hgrown.ext, hgrown.others, hlinear, hone⟩

omit hfresh in
/-- A full directory has grown. -/
theorem addDirent_grown (hfull : Crowded v L s dir name) :
    name.length ≤ 255 ∧ ∃ p O', Grown v L O dir p ino ft name s O' s' := by
  obtain ⟨hname, ⟨x, p, slot, hx, hlook, hslot, -⟩ | ⟨-, hgrow⟩⟩ := addDirent_cases hv hL hgood hd hrun
  · rw [hfull x p hx hlook] at hslot
    cases hslot
  · exact ⟨hname, growDir_grown hv hL hgood hd hname hgrow⟩

end Whole

end Pinx.Analysis
