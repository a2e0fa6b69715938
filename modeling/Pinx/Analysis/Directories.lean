import Pinx.Analysis.DirChain
import Pinx.Analysis.LeafTables
import Pinx.Analysis.Ext4Calls

/-!
# Directories as lists of entries

A linear directory denotes the list of the entries in its blocks, in the order of the
blocks.  `lookup` and `read_dir` are functions of that list, and `add_dirent` looks for the
first block with room.
-/

namespace Pinx.Analysis

open Pinx.Foundation Pinx.Model

variable {v : Ext4} {L : Layout} {s s' : FsState} {O : ℕ → Option Use} {b : Bytes}
  {es : List Dirent} {pos stop fuel d lb n : ℕ} {raw : Bytes}

/-! ## Blocks -/

/-- The entries of a block from `pos` on. -/
def entriesFrom (b : Bytes) (stop : ℕ) : ℕ → ℕ → List Dirent
  | 0, _ => []
  | fuel + 1, pos =>
    if stop ≤ pos then []
    else direntAt b pos :: entriesFrom b stop fuel (pos + (direntAt b pos).reclen)

theorem EntryChain.entriesFrom_eq (h : EntryChain b stop pos es) (hfuel : es.length ≤ fuel) :
    entriesFrom b stop fuel pos = es := by
  induction es generalizing pos fuel with
  | nil =>
    cases fuel with
    | zero => rfl
    | succ fuel => exact if_pos (le_of_eq (Eq.symm h))
  | cons e es ih =>
    obtain ⟨fuel, rfl⟩ : ∃ n, fuel = n + 1 := ⟨fuel - 1, by rw [List.length_cons] at hfuel; omega⟩
    have hroom := h.head.1
    rw [entriesFrom, if_neg (by omega), h.1, ih h.2.2.2 (Nat.le_of_succ_le_succ hfuel)]

def entriesOf (v : Ext4) (b : Bytes) : List Dirent := entriesFrom b v.dirLimit maxBlockSize 0

/-- The entries of a block are a chain that ends at the limit. -/
def BlockOk (v : Ext4) (b : Bytes) : Prop := EntryChain b v.dirLimit 0 (entriesOf v b)

instance (v : Ext4) (b : Bytes) : Decidable (BlockOk v b) :=
  inferInstanceAs (Decidable (EntryChain b v.dirLimit 0 (entriesOf v b)))

/-- The entries in use in a block. -/
def listed (v : Ext4) (b : Bytes) : List DirEnt := liveOf (entriesOf v b)

theorem EntryChain.blockOk (hv : GeometryOk v) (h : EntryChain b v.dirLimit 0 es) :
    BlockOk v b ∧ listed v b = liveOf es := by
  have heq : entriesOf v b = es := h.entriesFrom_eq (h.turns_le hv)
  refine ⟨?_, congrArg liveOf heq⟩
  unfold BlockOk
  rw [heq]
  exact h

/-! ## Directories -/

/-- The number of blocks of a directory of this size. -/
def dirCount (v : Ext4) (size : ℕ) : ℕ := (size + v.bs - 1) / v.bs

/-- A size of fewer than `2 ^ 32` blocks is far from `2 ^ 64`. -/
theorem size_small (hv : GeometryOk v) {size : ℕ} (h : dirCount v size < 2 ^ 32) :
    size + v.bs < 2 ^ 64 := by
  unfold dirCount at h
  have hbs := hv.bs_le
  unfold maxBlockSize at hbs
  have hlt : size + v.bs - 1 < 2 ^ 32 * v.bs := (Nat.div_lt_iff_lt_mul hv.bs_pos).mp h
  have := Nat.mul_le_mul_left (2 ^ 32) hbs
  omega

/-- The entries in use in block `lb` of a directory. -/
def listedAt (v : Ext4) (s : FsState) (raw : Bytes) (lb : ℕ) : List DirEnt :=
  match treeLook v s raw lb with
  | .ok (some p) => listed v (block v s p)
  | _ => []

/-- The entries in use in a directory. -/
def dirListing (v : Ext4) (L : Layout) (s : FsState) (d : ℕ) : List DirEnt :=
  (List.range (dirCount v (inodeOf v L s d).size)).flatMap (listedAt v s (slot v L s d))

/-- A directory without an index: an extent tree of depth at most 1 with its leaves in blocks of
their own, in which every block below the size can be looked up, chains of entries in all of the
blocks found and no name twice. -/
structure LinearDir (v : Ext4) (L : Layout) (s : FsState) (d : ℕ) : Prop where
  inUse : InUse v L s d
  isDir : (inodeOf v L s d).isDir = true
  magic : HasMagic (slot v L s d) iblock
  shallow : rootDepth (slot v L s d) ≤ 1
  count : dirCount v (inodeOf v L s d).size < 2 ^ 32
  apart : (leafNodes (slot v L s d)).Nodup
  found : ∀ lb < dirCount v (inodeOf v L s d).size, ∃ r, treeLook v s (slot v L s d) lb = .ok r
  blocks : ∀ lb < dirCount v (inodeOf v L s d).size, ∀ p,
    treeLook v s (slot v L s d) lb = .ok (some p) → BlockOk v (block v s p)
  names : ((dirListing v L s d).map DirEnt.name).Nodup

/-- The directory blocks `lo`, .., `hi - 1` can be read, and are chains of entries. -/
def BlocksRead (v : Ext4) (s : FsState) (raw : Bytes) (lo hi : ℕ) : Prop :=
  ∀ x, lo ≤ x → x < hi → ∃ r, treeLook v s raw x = .ok r ∧
    ∀ p, r = some p → p < v.blocksTotal ∧ BlockOk v (block v s p)

theorem BlocksRead.mono {lo lo' hi hi' : ℕ} (h : BlocksRead v s raw lo hi) (hlo : lo ≤ lo')
    (hhi : hi' ≤ hi) : BlocksRead v s raw lo' hi' :=
  fun x hx hx' => h x (by omega) (by omega)

section Loops

variable (hv : GeometryOk v) {inode : Inode} (hok : RootOk v s inode.raw)
include hv hok

/-- One turn of the loops over a directory: the block is a hole, or it is read. -/
theorem dirTurn_cases (hread : BlocksRead v s inode.raw lb (lb + (n + 1)))
    (hlt : lb + (n + 1) ≤ 2 ^ 32) :
    (mapBlock v inode (lb % 2 ^ 32) s = (.ok none, s) ∧ listedAt v s inode.raw lb = [] ∧
      treeLook v s inode.raw lb = .ok none) ∨
    ∃ p, mapBlock v inode (lb % 2 ^ 32) s = (.ok (some p), s) ∧
      treeLook v s inode.raw lb = .ok (some p) ∧ readFsb v p s = (.ok (block v s p), s) ∧
      BlockOk v (block v s p) ∧ listedAt v s inode.raw lb = listed v (block v s p) := by
  obtain ⟨r, hlook, hr⟩ := hread lb (le_refl lb) (by omega)
  rw [mapBlock_eq hv hok, Nat.mod_eq_of_lt (by omega), hlook]
  unfold listedAt
  rw [hlook]
  cases r with
  | none => exact Or.inl ⟨rfl, rfl, rfl⟩
  | some p =>
    obtain ⟨hp, hblk⟩ := hr p rfl
    exact Or.inr ⟨p, rfl, rfl, readFsb_ok hv hp, hblk, rfl⟩

/-- SOURCE: ext4.rs:1156-1176 -/
theorem lookupLoop_eq (name : List UInt8) (hread : BlocksRead v s inode.raw lb (lb + n))
    (hlt : lb + n ≤ 2 ^ 32) : lookupLoop v inode name n lb s =
      (.ok (binding name ((List.range' lb n).flatMap (listedAt v s inode.raw))), s) := by
  induction n generalizing lb with
  | zero => rfl
  | succ n ih =>
    have hnext := ih (hread.mono (Nat.le_succ lb) (by omega)) (by omega)
    rw [List.range'_succ, List.flatMap_cons, binding_append, lookupLoop]
    rcases dirTurn_cases hv hok hread hlt with ⟨hmap, hnone, -⟩ | ⟨p, hmap, -, hrd, hblk, hsome⟩
    · rw [Prog.bind_ok hmap, hnone]
      exact hnext
    · rw [Prog.bind_ok hmap]
      dsimp only
      rw [Prog.bind_ok hrd, lookupBlk_chain (dirLimit_le hv).2.2.2 hblk (hblk.turns_le hv),
        Prog.bind_ok (Prog.lift_apply _ _), hsome]
      unfold listed
      cases binding name (liveOf (entriesOf v (block v s p))) with
      | none => exact hnext
      | some ino => rfl

/-- SOURCE: ext4.rs:1120-1142 -/
theorem readDirLoop_eq (cap : ℕ) (out : List DirEnt) (k : ℕ)
    (hread : BlocksRead v s inode.raw lb (lb + n)) (hlt : lb + n ≤ 2 ^ 32) :
    readDirLoop v inode cap n lb out k s =
      (.ok (out ++ ((List.range' lb n).flatMap (listedAt v s inode.raw)).take (cap - k),
        k + ((List.range' lb n).flatMap (listedAt v s inode.raw)).length), s) := by
  induction n generalizing lb out k with
  | zero =>
    rw [List.range'_zero, List.flatMap_nil, List.take_nil, List.append_nil]
    rfl
  | succ n ih =>
    have hnext := fun out k => ih out k (hread.mono (Nat.le_succ lb) (by omega)) (by omega)
    rw [List.range'_succ, List.flatMap_cons, readDirLoop]
    rcases dirTurn_cases hv hok hread hlt with ⟨hmap, hnone, -⟩ | ⟨p, hmap, -, hrd, hblk, hsome⟩
    · rw [Prog.bind_ok hmap, hnone]
      exact hnext out k
    · rw [Prog.bind_ok hmap]
      dsimp only
      rw [Prog.bind_ok hrd, listBlk_chain (dirLimit_le hv).2.2.2 hblk cap out k (hblk.turns_le hv),
        Prog.bind_ok (Prog.lift_apply _ _), hsome]
      dsimp only
      rw [hnext, List.take_append, List.length_append, List.append_assoc, Nat.sub_sub, Nat.add_assoc]
      rfl

/-- The first block with room for an entry, if there is one. -/
theorem slotLoop_cases (needed : ℕ) (hread : BlocksRead v s inode.raw lb (lb + n))
    (hlt : lb + n ≤ 2 ^ 32) :
    (∃ x p slot, lb ≤ x ∧ x < lb + n ∧ treeLook v s inode.raw x = .ok (some p) ∧
      findSlot v (block v s p) needed (maxBlockSize + 1) 0 0 0 0 = some slot ∧
      slotLoop v inode needed n lb s = (.ok (some (p, block v s p, slot)), s)) ∨
    (∀ x p, lb ≤ x → x < lb + n → treeLook v s inode.raw x = .ok (some p) →
      findSlot v (block v s p) needed (maxBlockSize + 1) 0 0 0 0 = none) ∧
      slotLoop v inode needed n lb s = (.ok none, s) := by
  induction n generalizing lb with
  | zero => exact Or.inr ⟨fun x p hle hlt => absurd hle (by omega), rfl⟩
  | succ n ih =>
    -- the other blocks decide if this one has no room
    have hskip : (∀ p, treeLook v s inode.raw lb = .ok (some p) →
          findSlot v (block v s p) needed (maxBlockSize + 1) 0 0 0 0 = none) →
        slotLoop v inode needed (n + 1) lb s = slotLoop v inode needed n (lb + 1) s →
        (∃ x p slot, lb ≤ x ∧ x < lb + (n + 1) ∧ treeLook v s inode.raw x = .ok (some p) ∧
          findSlot v (block v s p) needed (maxBlockSize + 1) 0 0 0 0 = some slot ∧
          slotLoop v inode needed (n + 1) lb s = (.ok (some (p, block v s p, slot)), s)) ∨
        (∀ x p, lb ≤ x → x < lb + (n + 1) → treeLook v s inode.raw x = .ok (some p) →
          findSlot v (block v s p) needed (maxBlockSize + 1) 0 0 0 0 = none) ∧
          slotLoop v inode needed (n + 1) lb s = (.ok none, s) := by
      intro hfull hrun
      rw [hrun]
      rcases ih (hread.mono (Nat.le_succ lb) (by omega)) (by omega) with
        ⟨x, p, slot, hle, hlt', hlook, hslot, hrun'⟩ | ⟨hall, hrun'⟩
      · exact Or.inl ⟨x, p, slot, by omega, by omega, hlook, hslot, hrun'⟩
      · refine Or.inr ⟨fun x p hle hlt' hlook => ?_, hrun'⟩
        rcases Nat.eq_or_lt_of_le hle with rfl | hlt''
        · exact hfull p hlook
        · exact hall x p hlt'' (by omega) hlook
    rcases dirTurn_cases hv hok hread hlt with ⟨hmap, -, hlook⟩ | ⟨p, hmap, hlook, hrd, -⟩
    · refine hskip (fun p hp => ?_) ?_
      · rw [hlook] at hp
        cases hp
      · rw [slotLoop, Prog.bind_ok hmap]
    · cases hslot : findSlot v (block v s p) needed (maxBlockSize + 1) 0 0 0 0 with
      | some slot =>
        refine Or.inl ⟨lb, p, slot, le_refl lb, by omega, hlook, hslot, ?_⟩
        rw [slotLoop, Prog.bind_ok hmap]
        refine (Prog.bind_ok hrd).trans ?_
        rw [hslot]
        rfl
      | none =>
        refine hskip (fun p' hp' => ?_) ?_
        · cases hlook.symm.trans hp'
          exact hslot
        · rw [slotLoop, Prog.bind_ok hmap]
          refine (Prog.bind_ok hrd).trans ?_
          rw [hslot]

end Loops

/-! ## Lookups and listings -/

section Linear

variable (hv : GeometryOk v) (hL : LayoutOk v L) (hgood : Good v L O s) (hd : LinearDir v L s d)
include hgood hd

/-- All blocks of a linear directory can be read. -/
theorem LinearDir.read :
    BlocksRead v s (slot v L s d) 0 (dirCount v (inodeOf v L s d).size) := by
  intro x _ hx
  obtain ⟨r, hlook⟩ := hd.found x hx
  refine ⟨r, hlook, ?_⟩
  rintro p rfl
  have howner := (hgood.slots d hd.inUse).maps _ (treeLook_mem hlook)
  exact ⟨(hgood.used p _ howner).2.1.2, hd.blocks x hx p hlook⟩

include hv

omit hgood in
theorem LinearDir.dirBlocks_ok : dirBlocks v (inodeOf v L s d).size s =
    (.ok (dirCount v (inodeOf v L s d).size), s) := by
  have hsmall := size_small hv hd.count
  unfold dirBlocks
  rw [if_neg (by omega)]
  rfl

include hL

/-- SOURCE: ext4.rs:1146-1177 -/
theorem lookup_linear (name : List UInt8) :
    lookup v d name s = (.ok (binding name (dirListing v L s d)), s) := by
  have hraw : (inodeOf v L s d).raw = slot v L s d := Bytes.clip_clip _
  have hread := hd.read hgood
  rw [← hraw] at hread
  unfold lookup
  rw [Prog.bind_ok (readInode_ok hv hL hgood.placed hd.inUse.1), if_neg (by rw [hd.isDir]; decide),
    Prog.bind_ok (hd.dirBlocks_ok hv), lookupLoop_eq hv (hraw ▸ (hgood.slots d hd.inUse).ok) name
      (by rw [Nat.zero_add]; exact hread) (by rw [Nat.zero_add]; exact le_of_lt hd.count), hraw,
    ← List.range_eq_range']
  rfl

theorem LinearDir.unbound {name : List UInt8} (h : lookup v d name s = (.ok none, s)) :
    binding name (dirListing v L s d) = none := by
  rw [lookup_linear hv hL hgood hd] at h
  exact Except.ok.inj (Prod.mk.inj h).1

/-- SOURCE: ext4.rs:1107-1144 -/
theorem readDir_linear (cap : ℕ) : readDir v d cap s =
    (.ok ((dirListing v L s d).take cap, (dirListing v L s d).length), s) := by
  have hraw : (inodeOf v L s d).raw = slot v L s d := Bytes.clip_clip _
  have hread := hd.read hgood
  rw [← hraw] at hread
  unfold readDir
  rw [Prog.bind_ok (readInode_ok hv hL hgood.placed hd.inUse.1), if_neg (by rw [hd.isDir]; decide),
    Prog.bind_ok (hd.dirBlocks_ok hv), readDirLoop_eq hv (hraw ▸ (hgood.slots d hd.inUse).ok) cap [] 0
      (by rw [Nat.zero_add]; exact hread) (by rw [Nat.zero_add]; exact le_of_lt hd.count), hraw,
    ← List.range_eq_range', List.nil_append, Nat.sub_zero, Nat.zero_add]
  rfl

/-- What `read_dir` returns, for every length of the output, is the list of the entries. -/
theorem listing_of_readDir {entries : List DirEnt}
    (h : ∀ cap, (readDir v d cap s).1 = .ok (entries.take cap, entries.length)) :
    entries = dirListing v L s d := by
  have hall := h entries.length
  rw [readDir_linear hv hL hgood hd, List.take_length] at hall
  obtain ⟨htake, hlen⟩ := Prod.mk.inj (Except.ok.inj hall)
  rw [← htake, ← hlen, List.take_length]

end Linear

/-! ## What a file or directory is read from -/

/-- What a directory block lists is a matter of where it is and what is there. -/
theorem listedAt_congr {raw' : Bytes} {x : ℕ}
    (hlook : treeLook v s' raw' x = treeLook v s raw x)
    (hblk : ∀ p, treeLook v s raw x = .ok (some p) → block v s' p = block v s p) :
    listedAt v s' raw' x = listedAt v s raw x := by
  unfold listedAt
  rw [hlook]
  cases hfound : treeLook v s raw x with
  | error e => rfl
  | ok r =>
    cases r with
    | none => rfl
    | some p =>
      dsimp only
      rw [hblk p hfound]

/-- A leaf is a node of the tree. -/
theorem mem_treeNodes_leaf (hmagic : HasMagic raw iblock) (hdepth : rootDepth raw ≤ 1) {k : ℕ}
    (hk : k ∈ leafNodes raw) : k ∈ treeNodes v s raw := by
  rw [treeNodes_eq_leaves hmagic hdepth]
  exact hk

variable {O' : ℕ → Option Use} {s'' : FsState} {i : ℕ}

/-- Lookups are a matter of the root and the nodes below it. -/
theorem treeLook_congr {raw' : Bytes} (hc : Covers v s O i raw)
    (hagree : NodeAgree raw raw' iblock iblock 4)
    (hnodes : ∀ n, O n = some (.node i) → block v s' n = block v s n) (x : ℕ) :
    treeLook v s' raw' x = treeLook v s raw x := by
  have hc' : Covers v s' O i raw := hc.step (fun _ _ => id) fun n hn => Or.inl (hnodes n hn)
  rw [(root_agree hagree hc'.ok).2.2.2]
  unfold treeLook
  split
  · rename_i hmagic
    refine look_congr (hc.ok hmagic) fun n hn => hnodes n (hc.nodes n ?_)
    rw [treeNodes, if_pos hmagic]
    exact hn
  · rfl

/-- So is the table of a shallow tree. -/
theorem leafTable_agree {raw' : Bytes} (hc : Covers v s O i raw) (hmagic : HasMagic raw iblock)
    (hdepth : rootDepth raw ≤ 1) (hagree : NodeAgree raw raw' iblock iblock 4)
    (hnodes : ∀ n, O n = some (.node i) → block v s' n = block v s n) :
    leafTable v s' raw' = leafTable v s raw ∧ leafNodes raw' = leafNodes raw ∧
      rootDepth raw' = rootDepth raw ∧ lastCap v s' raw' = lastCap v s raw :=
  leafTable_congr hagree (hc.ok hmagic).headOk fun n hn =>
    hnodes n (hc.nodes n (mem_treeNodes_leaf hmagic hdepth hn))

/-- Everything that inode `i` is read from is as it was: its size and its kind, its tree and
its blocks. -/
structure SameFile (v : Ext4) (L : Layout) (O : ℕ → Option Use) (i : ℕ) (s s' : FsState) : Prop where
  inUse : InUse v L s' i
  size : (inodeOf v L s' i).size = (inodeOf v L s i).size
  mode : (inodeOf v L s' i).mode = (inodeOf v L s i).mode
  tree : NodeAgree (slot v L s i) (slot v L s' i) iblock iblock 4
  blocks : ∀ p u, O p = some u → u.ino = i → block v s' p = block v s p

/-- An inode whose slot and whose blocks are as they were. -/
theorem sameFile_of_slot (hi : InUse v L s i) (hslot : slot v L s' i = slot v L s i)
    (hblocks : ∀ p u, O p = some u → u.ino = i → block v s' p = block v s p) :
    SameFile v L O i s s' :=
  ⟨hi.congr hslot, by rw [inodeOf_congr hslot], by rw [inodeOf_congr hslot],
    fun _ _ => by rw [hslot], hblocks⟩

/-- The size of an inode fits into its field. -/
theorem inodeSize_lt (v : Ext4) (L : Layout) (s : FsState) (i : ℕ) :
    (inodeOf v L s i).size < if v.has64bit then 2 ^ 64 else 2 ^ 32 := by
  have hlo : (slot v L s i).getLE 0x04 4 < 2 ^ 32 := Bytes.getLE_lt _ _ 4
  have hhi : (slot v L s i).getLE 0x6C 4 < 2 ^ 32 := Bytes.getLE_lt _ _ 4
  unfold inodeOf Ext4.parseInode
  cases v.has64bit with
  | true =>
    simp only [if_true]
    omega
  | false =>
    simp only [Bool.false_eq_true, if_false]
    omega

/-- Writing an inode back with the same size, kind and tree changes no file. -/
theorem sameFile_putSlot (hv : GeometryOk v) (hL : LayoutOk v L) (hgood : Good v L O s)
    (hi : IsInode v i) (inode : Inode) (hmode : inode.mode = (inodeOf v L s i).mode)
    (hsize : inode.size = (inodeOf v L s i).size)
    (hagree : NodeAgree (slot v L s i) inode.raw iblock iblock 4)
    (huse : InUse v L (putSlot v L s i (v.encodeInode inode)) i) {j : ℕ} (hj : InUse v L s j) :
    SameFile v L O j s (putSlot v L s i (v.encodeInode inode)) := by
  have hblocks : ∀ p u, O p = some u → u.ino = j →
      block v (putSlot v L s i (v.encodeInode inode)) p = block v s p := fun p u hp _ =>
    block_putSlot hv hL hi (hgood.used p u hp).2.2.1
  by_cases hji : j = i
  · subst hji
    obtain ⟨hwritten, hinode⟩ := slot_written (s := s) hv hL hi inode
    obtain ⟨hmode', -, hsize'⟩ := parseInode_encode (v := v) inode j
    refine ⟨huse, ?_, ?_, fun k hk => (hagree k hk).trans (hwritten k hk), hblocks⟩
    · rw [hinode, hsize', hsize]
      exact Nat.mod_eq_of_lt (inodeSize_lt v L s j)
    · rw [hinode, hmode', hmode]
      exact Nat.mod_eq_of_lt (mode_lt v L s j)
  · refine sameFile_of_slot hj ?_ hblocks
    rw [slot_putSlot hv hL hi hj.1, if_neg hji]

theorem SameFile.trans (h : SameFile v L O i s s') (h' : SameFile v L O' i s' s'')
    (hext : ∀ p u, O p = some u → O' p = some u) : SameFile v L O i s s'' where
  inUse := h'.inUse
  size := h'.size.trans h.size
  mode := h'.mode.trans h.mode
  tree k hk := (h.tree k hk).trans (h'.tree k hk)
  blocks p u hp hu := (h'.blocks p u (hext p u hp) hu).trans (h.blocks p u hp hu)

/-- A search over the same blocks ends the same way. -/
theorem lookupLoop_congr (hv : GeometryOk v) {inode inode' : Inode} (hok : RootOk v s inode.raw)
    (hok' : RootOk v s' inode'.raw)
    (hlook : ∀ x, treeLook v s' inode'.raw x = treeLook v s inode.raw x)
    (hblk : ∀ x p, treeLook v s inode.raw x = .ok (some p) →
      p < v.blocksTotal ∧ block v s' p = block v s p) (name : List UInt8) :
    (lookupLoop v inode' name n lb s').1 = (lookupLoop v inode name n lb s).1 := by
  induction n generalizing lb with
  | zero => rfl
  | succ n ih =>
    have hmap : mapBlock v inode (lb % 2 ^ 32) s = (treeLook v s inode.raw (lb % 2 ^ 32), s) :=
      mapBlock_eq hv hok
    have hmap' : mapBlock v inode' (lb % 2 ^ 32) s' = (treeLook v s' inode'.raw (lb % 2 ^ 32), s') :=
      mapBlock_eq hv hok'
    rw [hlook] at hmap'
    rw [lookupLoop, lookupLoop]
    cases hfound : treeLook v s inode.raw (lb % 2 ^ 32) with
    | error e =>
      rw [hfound] at hmap hmap'
      rw [Prog.bind_error hmap, Prog.bind_error hmap']
    | ok r =>
      rw [hfound] at hmap hmap'
      rw [Prog.bind_ok hmap, Prog.bind_ok hmap']
      cases r with
      | none => exact ih
      | some p =>
        obtain ⟨hp, hsame⟩ := hblk _ p hfound
        dsimp only
        rw [Prog.bind_ok (readFsb_ok hv hp), Prog.bind_ok (readFsb_ok hv hp), hsame]
        cases hin : lookupBlk v (block v s p) name maxBlockSize 0 with
        | error e =>
          rw [Prog.bind_error (Prog.lift_apply _ _), Prog.bind_error (Prog.lift_apply _ _)]
        | ok r =>
          rw [Prog.bind_ok (Prog.lift_apply _ _), Prog.bind_ok (Prog.lift_apply _ _)]
          cases r with
          | none => exact ih
          | some ino => rfl

section Same

variable (h : SameFile v L O i s s') (hc : Covers v s O i (slot v L s i))
include h hc

omit hc in
/-- Nothing has changed from `s'` back to `s` either. -/
theorem SameFile.symm (hi : InUse v L s i) : SameFile v L O i s' s :=
  ⟨hi, h.size.symm, h.mode.symm, fun k hk => (h.tree k hk).symm,
    fun p u hp hu => (h.blocks p u hp hu).symm⟩

/-- The tree is as it was in every respect. -/
theorem SameFile.covers : Covers v s' O i (slot v L s' i) :=
  (hc.step (fun _ _ => id) fun n hn => Or.inl (h.blocks n _ hn rfl)).agree h.tree

theorem SameFile.look (x : ℕ) :
    treeLook v s' (slot v L s' i) x = treeLook v s (slot v L s i) x :=
  treeLook_congr hc h.tree (fun n hn => h.blocks n _ hn rfl) x

theorem SameFile.listing :
    dirListing v L s' i = dirListing v L s i := by
  unfold dirListing
  rw [h.size]
  refine List.flatMap_congr fun x _ => listedAt_congr (h.look hc x) fun p hlook => ?_
  exact h.blocks p _ (hc.maps _ (treeLook_mem hlook)) rfl

theorem SameFile.linear (hd : LinearDir v L s i) : LinearDir v L s' i := by
  have hdir : (inodeOf v L s' i).isDir = true := by
    unfold Inode.isDir
    rw [h.mode]
    exact hd.isDir
  obtain ⟨-, hleaves, hdepth, -⟩ := leafTable_agree hc hd.magic hd.shallow h.tree
    fun n hn => h.blocks n _ hn rfl
  refine ⟨h.inUse, hdir, h.tree.hasMagic.mp hd.magic, ?_, ?_, ?_, fun lb hlb => ?_,
    fun lb hlb p hlook => ?_, ?_⟩
  · rw [hdepth]
    exact hd.shallow
  · rw [h.size]
    exact hd.count
  · rw [hleaves]
    exact hd.apart
  · rw [h.size] at hlb
    rw [h.look hc]
    exact hd.found lb hlb
  · rw [h.size] at hlb
    rw [h.look hc] at hlook
    rw [h.blocks p _ (hc.maps _ (treeLook_mem hlook)) rfl]
    exact hd.blocks lb hlb p hlook
  · rw [h.listing hc]
    exact hd.names

omit hc in
/-- SOURCE: ext4.rs:1146-1177 -/
theorem SameFile.lookup_eq (hv : GeometryOk v) (hL : LayoutOk v L) (hgood : Good v L O s)
    (hp' : PlacedAt v L s') (hi : InUse v L s i) (name : List UInt8) :
    (lookup v i name s').1 = (lookup v i name s).1 := by
  have hc := hgood.slots i hi
  have hraw : ∀ s, (inodeOf v L s i).raw = slot v L s i := fun s => Bytes.clip_clip _
  have hdir : (inodeOf v L s' i).isDir = (inodeOf v L s i).isDir := by
    unfold Inode.isDir
    rw [h.mode]
  have hblk : ∀ x p, treeLook v s (slot v L s i) x = .ok (some p) →
      p < v.blocksTotal ∧ block v s' p = block v s p := by
    intro x p hlook
    have howner := hc.maps _ (treeLook_mem hlook)
    exact ⟨(hgood.used p _ howner).2.1.2, h.blocks p _ howner rfl⟩
  unfold lookup
  rw [Prog.bind_ok (readInode_ok hv hL hgood.placed hi.1),
    Prog.bind_ok (readInode_ok hv hL hp' hi.1), hdir, h.size]
  by_cases hfile : (inodeOf v L s i).isDir = false
  · rw [if_pos hfile, if_pos hfile]
    rfl
  · rw [if_neg hfile, if_neg hfile]
    unfold dirBlocks
    by_cases hbig : 2 ^ 64 ≤ (inodeOf v L s i).size + v.bs
    · rw [if_pos hbig]
      rfl
    · rw [if_neg hbig]
      refine lookupLoop_congr hv ?_ ?_ (fun x => ?_) ?_ name
      · rw [hraw]
        exact hc.ok
      · rw [hraw]
        exact (h.covers hc).ok
      · rw [hraw, hraw]
        exact h.look hc x
      · rw [hraw]
        exact hblk

end Same

end Pinx.Analysis
