import Pinx.Analysis.LeafTables

/-!
# Appending to an extent tree

The driver keeps a tree in one shape: up to four records in the inode, or up to four leaves
below it, none of them empty, with the records in ascending order and each leaf inside the
range of its index entry.  An insertion behind the last mapped block keeps the shape, maps
that block and moves no other one.
-/

namespace Pinx.Analysis

open Pinx.Foundation Pinx.Model

variable {v : Ext4} {L : Layout} {s s' s₁ : FsState} {recs recs' : List Extent}
  {table table' init : List (ℕ × List Extent)} {lb p x lo hi n m key : ℕ}

/-! ## The records of a table -/

/-- All records of a table, in the order of its leaves. -/
def tableRecs (table : List (ℕ × List Extent)) : List Extent := table.flatMap Prod.snd

theorem tableRecs_concat : tableRecs (init ++ [(key, recs)]) = tableRecs init ++ recs := by
  unfold tableRecs
  rw [List.flatMap_append, List.flatMap_singleton]

theorem Put.ne_nil (h : Put recs lb p recs') : recs' ≠ [] := by
  cases h <;> exact List.concat_ne_nil _ _

/-- Only the last record of a list is written when a block is put into it. -/
theorem Put.dropLast_sub (h : Put recs lb p recs') {e : Extent} (he : e ∈ recs'.dropLast) :
    e ∈ recs := by
  cases h with
  | append hno =>
    rwa [List.dropLast_concat] at he
  | merge hrecs =>
    rw [List.dropLast_concat] at he
    rw [hrecs]
    exact List.mem_append_left _ he

/-- Only the last record of a table is written when it grows. -/
theorem TableGrows.dropLast_sub (h : TableGrows table lb p table') (ha : AscendTable n table)
    {e : Extent} (he : e ∈ (tableRecs table').dropLast) : e ∈ tableRecs table := by
  cases h with
  | put htable hput =>
    rw [tableRecs_concat, List.dropLast_append_of_ne_nil hput.ne_nil] at he
    rw [htable, tableRecs_concat]
    exact List.mem_append.mpr ((List.mem_append.mp he).imp_right hput.dropLast_sub)
  | @deepen recs recs' htable hput =>
    subst htable
    rw [ha.1.copied_eq] at hput
    have hone : ∀ l : List Extent, tableRecs [(0, l)] = l := fun l => List.flatMap_singleton ..
    rw [hone] at he ⊢
    exact hput.dropLast_sub he
  | @split init key recs recs' htable htwo hput =>
    subst htable
    have hcopied : (recs.drop (recs.length / 2)).map copied = recs.drop (recs.length / 2) := by
      rw [List.map_drop, (ascendTable_concat.mp ha).2.copied_eq]
    rw [hcopied] at hput
    rw [tableRecs_concat, tableRecs_concat, List.dropLast_append_of_ne_nil hput.ne_nil] at he
    rw [tableRecs_concat]
    rcases List.mem_append.mp he with he | he
    · exact List.mem_append.mpr ((List.mem_append.mp he).imp_right List.mem_of_mem_take)
    · exact List.mem_append_right _ (List.mem_of_mem_drop (hput.dropLast_sub he))

/-- The end of records in order may be any number behind the blocks they map. -/
theorem Ascend.shorten (h : Ascend hi lo recs) (hempty : recs = [] → lo ≤ m)
    (hmaps : ∀ y ∈ recs.flatMap extentMaps, y.1 < m) : Ascend m lo recs := by
  induction recs generalizing lo with
  | nil => exact hempty rfl
  | cons e es ih =>
    obtain ⟨hw, hle, hrest⟩ := h
    obtain ⟨hpos, hlen⟩ := hw
    have hlast : e.lb + (e.len - 1) < m := by
      refine hmaps (e.lb + (e.len - 1), e.pb + (e.len - 1)) ?_
      rw [List.flatMap_cons, List.mem_append]
      left
      rw [show e.pb + (e.len - 1) = e.pb + (e.lb + (e.len - 1) - e.lb) by omega]
      exact mem_extentMaps ⟨hpos, hlen⟩ (by omega) (by omega)
    refine ⟨⟨hpos, hlen⟩, hle, ih hrest (fun _ => by omega) fun y hy => hmaps y ?_⟩
    rw [List.flatMap_cons]
    exact List.mem_append_right _ hy

theorem AscendTable.shorten (h : AscendTable n table)
    (hempty : ∀ key, table.getLast? = some (key, []) → key ≤ m)
    (hmaps : ∀ y ∈ tableMaps table, y.1 < m) : AscendTable m table := by
  rcases List.eq_nil_or_concat table with rfl | ⟨init, ⟨key, recs⟩, rfl⟩
  · trivial
  · rw [List.concat_eq_append] at *
    obtain ⟨hinit, hlast⟩ := ascendTable_concat.mp h
    refine ascendTable_concat.mpr ⟨hinit, hlast.shorten (fun hnil => ?_) fun y hy => ?_⟩
    · exact hempty key (by rw [List.getLast?_concat, hnil])
    · exact hmaps y (tableMaps_concat.mpr (Or.inr hy))

theorem Ascend.mono (h : Ascend hi lo recs) (hle : hi ≤ m) : Ascend m lo recs := by
  have happ : Ascend m lo (recs ++ []) := ascend_append.mpr ⟨hi, h, hle⟩
  rwa [List.append_nil] at happ

theorem AscendTable.mono (h : AscendTable n table) (hle : n ≤ m) : AscendTable m table := by
  rcases List.eq_nil_or_concat table with rfl | ⟨init, ⟨key, recs⟩, rfl⟩
  · trivial
  · rw [List.concat_eq_append] at *
    obtain ⟨hinit, hlast⟩ := ascendTable_concat.mp h
    exact ascendTable_concat.mpr ⟨hinit, hlast.mono hle⟩

/-! ## The shape of a tree -/

/-- A leaf as the driver writes it. -/
structure LeafShape (v : Ext4) (b : Bytes) : Prop where
  head : HeadOk b 0 v.leafMax 0
  capacity : (hdrOf b 0).max = v.leafMax
  filled : leafRecs b 0 ≠ []

/-- A tree as the driver writes it: records in the inode, or leaves below it.  All records are
written ones, and they ascend inside the ranges of the index entries. -/
structure DriverShape (v : Ext4) (s : FsState) (raw : Bytes) : Prop where
  shallow : rootDepth raw ≤ 1
  root : HeadOk raw iblock 4 (rootDepth raw)
  leaves : ∀ c ∈ leafNodes raw, c ≠ 0 ∧ c < v.blocksTotal ∧ LeafShape v (block v s c)
  order : AscendTable (2 ^ 32 - 1) (leafTable v s raw)

/-- No record is longer than `0x7FFE` blocks. -/
def ShortRecs (recs : List Extent) : Prop := ∀ e ∈ recs, e.len ≤ 0x7FFE

section Shape

variable {raw : Bytes} (h : DriverShape v s raw)
include h

theorem DriverShape.depth_cases : HeadOk raw iblock 4 0 ∨ HeadOk raw iblock 4 1 := by
  have hroot := h.root
  rcases Nat.le_one_iff_eq_zero_or_eq_one.mp h.shallow with hd | hd
  · exact Or.inl (hd ▸ hroot)
  · exact Or.inr (hd ▸ hroot)

theorem DriverShape.treeOk : TreeOk v s (rootDepth raw) raw iblock 4 := by
  rcases h.depth_cases with hhead | hhead
  · rw [show rootDepth raw = 0 from hhead.depth]
    exact hhead
  · rw [show rootDepth raw = 1 from hhead.depth]
    refine ⟨hhead, fun y hy => ?_⟩
    obtain ⟨hne, hlt, hleaf⟩ := h.leaves y.2 (by
      rw [(leafTable_deep (v := v) (s := s) hhead).2]
      exact List.mem_map_of_mem hy)
    exact ⟨hne, hlt, hleaf.head⟩

theorem DriverShape.rootOk : RootOk v s raw := fun _ => h.treeOk

/-- What is below a root is its leaves. -/
theorem DriverShape.treeNodes_eq : treeNodes v s raw = leafNodes raw := by
  unfold treeNodes
  rw [if_pos h.root.magic]
  rcases h.depth_cases with hhead | hhead
  · rw [show rootDepth raw = 0 from hhead.depth, (leafTable_flat (v := v) (s := s) hhead).2]
    rfl
  · rw [show rootDepth raw = 1 from hhead.depth, (leafTable_deep (v := v) (s := s) hhead).2,
      nodesUnder, List.map_eq_flatMap]
    rfl

/-- Two leaves are in two blocks: their records are in two ranges. -/
theorem DriverShape.nodup : (leafNodes raw).Nodup := by
  rcases h.depth_cases with hhead | hhead
  · rw [(leafTable_flat (v := v) (s := s) hhead).2]
    exact List.nodup_nil
  · have horder := h.order
    have hleaves := h.leaves
    obtain ⟨htable, hnodes⟩ := leafTable_deep (v := v) (s := s) hhead
    rw [htable] at horder
    rw [hnodes] at hleaves ⊢
    generalize kidsOf raw iblock = kids at horder hleaves
    generalize 2 ^ 32 - 1 = top at horder
    clear htable hnodes
    induction kids using List.reverseRecOn generalizing top with
    | nil => exact List.nodup_nil
    | append_singleton kids last ih =>
      rw [List.map_append, List.map_singleton] at horder hleaves ⊢
      obtain ⟨hinit, hlast⟩ := ascendTable_concat.mp horder
      refine List.nodup_append.mpr ⟨ih (fun c hc => hleaves c (List.mem_append_left _ hc)) _ hinit,
        List.nodup_singleton _, fun c hc d hd heq => ?_⟩
      cases List.mem_singleton.mp hd
      subst heq
      -- the first record of the block is in the range of an earlier leaf and behind it
      obtain ⟨y, hy, heq⟩ := List.mem_map.mp hc
      obtain ⟨e, he⟩ := List.exists_mem_of_ne_nil _ (hleaves last.2 (by simp)).2.2.filled
      obtain ⟨hi, hle, hrecs⟩ := hinit.leaf (List.mem_map.mpr ⟨y, hy, rfl⟩)
      rw [heq] at hrecs
      obtain ⟨⟨hpos, -⟩, -, hend⟩ := hrecs.bounds he
      obtain ⟨-, hstart, -⟩ := hlast.bounds he
      omega

/-- The lookup of the code is the one in the table. -/
theorem DriverShape.mapBlock_eq (hv : GeometryOk v) {inode : Inode} (hraw : inode.raw = raw)
    (x : ℕ) : mapBlock v inode x s = (lookTable (2 ^ 32 - 1) x (leafTable v s raw), s) := by
  rw [Pinx.Analysis.mapBlock_eq hv (hraw ▸ h.rootOk), hraw]
  by_cases htop : x < 2 ^ 32 - 1
  · rw [treeLook_eq_table h.root.magic h.shallow htop]
  · rw [h.order.look_none (by omega) (not_lt.mp htop)]
    have horder := h.order
    unfold treeLook
    rcases h.depth_cases with hhead | hhead
    · rw [(leafTable_flat (v := v) (s := s) hhead).1] at horder
      rw [if_pos hhead.magic, show rootDepth raw = 0 from hhead.depth, look,
        horder.1.scan_none (by decide) (Or.inr (not_lt.mp htop))]
    · rw [(leafTable_deep (v := v) (s := s) hhead).1] at horder
      rw [if_pos hhead.magic, show rootDepth raw = 1 from hhead.depth, look,
        route_eq_none (not_lt.mp htop)]
      intro entry he
      exact (horder.keys_le _ (List.mem_map_of_mem he)).trans (not_lt.mp htop)

end Shape

/-! ## Insertion keeps the shape -/

theorem HeadOk.rootDepth {raw : Bytes} {d : ℕ} (h : HeadOk raw iblock 4 d) :
    HeadOk raw iblock 4 (rootDepth raw) := by
  rwa [show Pinx.Analysis.rootDepth raw = d from h.depth]

theorem LeafPut.shape {ino gen c : ℕ} (h : LeafPut v ino gen c lb p s s')
    (hmax : (hdrOf (block v s c) 0).max = v.leafMax) : LeafShape v (block v s' c) := by
  obtain ⟨recs, hput, hleaf⟩ := h.put
  refine ⟨hleaf.head, hleaf.max_eq.trans hmax, ?_⟩
  rw [hleaf.recs_eq]
  exact hput.ne_nil

/-- The leaves of a tree are in use. -/
def LeavesUsed (v : Ext4) (L : Layout) (s : FsState) (raw : Bytes) : Prop :=
  ∀ c ∈ leafNodes raw, IsBlock v c ∧ L.role c = .data ∧ marked v L s c = true

section Insert

variable (hv : GeometryOk v) (hL : LayoutOk v L) (hs : Placed v L s) {inode inode' : Inode}
  (hused : LeavesUsed v L s inode.raw) (hshape : DriverShape v s inode.raw)
include hv hL hs hused hshape

theorem InsertEnds.leafShapes (h : InsertEnds v L s inode lb p (.ok inode', s')) :
    HeadOk inode'.raw iblock 4 (rootDepth inode'.raw) ∧
      ∀ c ∈ leafNodes inode'.raw, c ≠ 0 ∧ c < v.blocksTotal ∧ LeafShape v (block v s' c) := by
  have hleaves := hshape.leaves
  cases h with
  | root hhead hhead' hput haround =>
    rw [(leafTable_flat (v := v) (s := s) hhead').2]
    exact ⟨hhead'.rootDepth, fun c hc => nomatch hc⟩
  | deepened hhead hdeep hput =>
    obtain ⟨-, -, hq, hq0, -, -⟩ := hdeep.touches hv hL hs
    obtain ⟨hhead', hkids, -⟩ := deepRoot_kids hhead (hq.2.trans_le hv.blocks)
    refine ⟨hhead'.rootDepth, fun c hc => ?_⟩
    rw [(leafTable_deep (v := v) (s := s) hhead').2, hkids, List.map_singleton,
      List.mem_singleton] at hc
    subst hc
    exact ⟨hq0, hq.2, hput.shape hdeep.leaf.max_eq⟩
  | @leaf c _ htree hlast hput =>
    obtain ⟨first, hlast⟩ := hlast
    have hnodes := (leafTable_deep (v := v) (s := s) htree.headOk).2
    have hc : c ∈ leafNodes inode.raw := by
      rw [hnodes]
      exact List.mem_map_of_mem (List.mem_of_getLast? hlast)
    have htouch := hput.touches hv hL (hused c hc).2.1
    refine ⟨hshape.root, fun n hn => ?_⟩
    obtain ⟨hne, hlt, hold⟩ := hleaves n hn
    refine ⟨hne, hlt, ?_⟩
    by_cases heq : n = c
    · subst heq
      exact hput.shape hold.capacity
    · rw [htouch.other n (hused n hn).2.1 heq]
      exact hold
  | @split c q s₁ _ htree hlast hroom hsplit hput =>
    obtain ⟨first, hlast⟩ := hlast
    have hnodes := (leafTable_deep (v := v) (s := s) htree.headOk).2
    have hc : c ∈ leafNodes inode.raw := by
      rw [hnodes]
      exact List.mem_map_of_mem (List.mem_of_getLast? hlast)
    obtain ⟨htouch, hrole, hq, hq0, hfree, -⟩ := hsplit.touches hv hL hs (hused c hc).2.1
    have htouch' := hput.touches hv hL hrole
    obtain ⟨hhead', hkids', -⟩ := grownRoot_kids htree.headOk hroom
      (splitKey_lt (leafRecs (block v s c) 0) fun e he => leafRecs_lt he) (hq.2.trans_le hv.blocks)
    have hcap := (hleaves c hc).2.2.capacity
    refine ⟨hhead'.rootDepth, fun n hn => ?_⟩
    rw [(leafTable_deep (v := v) (s := s) hhead').2, hkids', List.map_append, ← hnodes,
      List.map_singleton, List.mem_append, List.mem_singleton] at hn
    rcases hn with hn | rfl
    · obtain ⟨hne, hlt, hold⟩ := hleaves n hn
      have hnq : n ≠ q := by
        rintro rfl
        rw [(hused n hn).2.2] at hfree
        cases hfree
      refine ⟨hne, hlt, ?_⟩
      rw [htouch'.other n (hused n hn).2.1 hnq]
      by_cases heq : n = c
      · -- the lower half
        subst heq
        refine ⟨hsplit.lower.head, hsplit.lower.max_eq.trans hcap, ?_⟩
        have htwo := hsplit.two
        rw [hsplit.lower.recs_eq, ← List.length_pos_iff, List.length_take]
        omega
      · rw [htouch.other n (hused n hn).2.1 (not_or.mpr ⟨heq, hnq⟩)]
        exact hold
    · exact ⟨hq0, hq.2, hput.shape (hsplit.upper.max_eq.trans hcap)⟩

/-- An insertion that went well, behind everything that is mapped. -/
theorem InsertEnds.appends (h : InsertEnds v L s inode lb p (.ok inode', s'))
    (hshort : ShortRecs (tableRecs (leafTable v s inode.raw)))
    (hbehind : ∀ y ∈ tableMaps (leafTable v s inode.raw), y.1 < lb) (hlt : lb < 2 ^ 32 - 1) :
    DriverShape v s' inode'.raw ∧ ShortRecs (tableRecs (leafTable v s' inode'.raw)).dropLast ∧
      (mapBlock v inode' lb s').1 = .ok (some p) ∧
      ∀ x ≠ lb, (mapBlock v inode' x s').1 = (mapBlock v inode x s).1 := by
  obtain ⟨hhead', hleaves'⟩ := h.leafShapes hv hL hs hused hshape
  have hins := h.inserts hv hL hs ⟨hshape.nodup, fun c hc => (hused c hc).2⟩
  -- the table ends where the new block goes
  have horder : AscendTable lb (leafTable v s inode.raw) := by
    refine hshape.order.shorten (fun key hkey => ?_) hbehind
    rcases hshape.depth_cases with hhead | hhead
    · rw [(leafTable_flat (v := v) (s := s) hhead).1, List.getLast?_concat] at hkey
      rw [← (Prod.mk.inj (Option.some.inj hkey)).1]
      exact Nat.zero_le lb
    · obtain ⟨htable, hnodes⟩ := leafTable_deep (v := v) (s := s) hhead
      rw [htable] at hkey
      obtain ⟨y, hy, heq⟩ := List.mem_map.mp (List.mem_of_getLast? hkey)
      refine absurd (congrArg Prod.snd heq) (hshape.leaves y.2 ?_).2.2.filled
      rw [hnodes]
      exact List.mem_map_of_mem hy
  have hbrim : ¬BrimsAt (leafTable v s inode.raw) lb p := by
    rintro ⟨entry, hlast, e, he, hlen, -⟩
    have hle := hshort e (List.mem_flatMap.mpr
      ⟨entry, List.mem_of_getLast? hlast, List.mem_of_getLast? he⟩)
    omega
  obtain ⟨horder', hlook⟩ := hins.grows.look horder (le_refl lb) (by omega) hbrim
  have hshape' : DriverShape v s' inode'.raw :=
    ⟨hins.shallow, hhead', hleaves', horder'.mono (by omega)⟩
  refine ⟨hshape', fun e he => hshort e (hins.grows.dropLast_sub horder he), ?_, fun x hx => ?_⟩
  · rw [hshape'.mapBlock_eq hv rfl]
    dsimp only
    rw [hlook lb hlt, if_pos rfl]
  · rw [hshape'.mapBlock_eq hv rfl, hshape.mapBlock_eq hv rfl]
    dsimp only
    by_cases htop : x < 2 ^ 32 - 1
    · rw [hlook x htop, if_neg hx]
    · rw [hshape'.order.look_none (by omega) (not_lt.mp htop),
        hshape.order.look_none (by omega) (not_lt.mp htop)]

end Insert

/-- Where the loop of two attempts starts: at the inode as it is, or with its records moved to a
leaf.
SOURCE: ext4.rs:956-985 -/
inductive LoopStart (v : Ext4) (inode : Inode) (s : FsState) : Inode → FsState → Prop
  | deep (h : rootDepth inode.raw ≠ 0) : LoopStart v inode s inode s
  | deepened {inode₀ : Inode} {s₀ : FsState} (h : rootDepth inode.raw = 0)
      (hrun : deepen v inode (hdrOf inode.raw iblock).entries (hdrOf inode.raw iblock).max s =
        (.ok inode₀, s₀)) : LoopStart v inode s inode₀ s₀

section Insert

variable (hv : GeometryOk v) (hL : LayoutOk v L) (hs : Placed v L s) {inode inode₀ inode₁ : Inode}
  {s₀ : FsState} (hused : LeavesUsed v L s inode.raw) (hshape : DriverShape v s inode.raw)
  (hlb : lb < 2 ^ 32) (hp : p < 2 ^ 48)
include hv hL hs hused hshape hlb hp

/-- A split is followed by an attempt that finds room: the loop does not run out. -/
theorem placeTwice_after_split (hstart : LoopStart v inode s inode₀ s₀)
    (hfirst : placeInRightmostLeaf v inode₀ lb p s₀ = (.ok (false, inode₁), s₁)) :
    (placeTwice v inode₀ lb p s₀).1 ≠ .error (.error .noSpace) := by
  cases hstart with
  | deep hdeep =>
    have htree : TreeOk v s 1 inode.raw iblock 4 := by
      have h := hshape.treeOk
      rwa [show rootDepth inode.raw = 1 by have := hshape.shallow; omega] at h
    have hkids : ∀ y ∈ kidsOf inode.raw iblock,
        IsBlock v y.2 ∧ L.role y.2 = .data ∧ marked v L s y.2 = true := by
      intro y hy
      refine hused y.2 ?_
      rw [(leafTable_deep (v := v) (s := s) htree.headOk).2]
      exact List.mem_map_of_mem hy
    have hkid : kidsOf inode.raw iblock ≠ [] := by
      intro hnil
      have hzero : (hdrOf inode.raw iblock).entries = 0 := by
        have hlen : (kidsOf inode.raw iblock).length = (hdrOf inode.raw iblock).entries :=
          length_indexOf _ _ _
        rw [hnil] at hlen
        exact hlen.symm
      rw [placeInRightmostLeaf, rdHdr_eq (by decide) htree.headOk.magic] at hfirst
      dsimp only at hfirst
      rw [if_pos hzero] at hfirst
      cases hfirst
    obtain ⟨⟨first, c⟩, hlast⟩ := Option.ne_none_iff_exists'.mp
      (mt List.getLast?_eq_none_iff.mp hkid)
    have hmem := List.mem_of_getLast? hlast
    obtain ⟨hc, hrole, hmark⟩ := hkids _ hmem
    have hends := place_ends hv hL hs.placed htree hlast hc hmark hlb hp
    rw [hfirst] at hends
    cases hends with
    | split hsplit hroom =>
      unfold placeTwice
      rw [Prog.bind_ok hfirst]
      dsimp only
      rw [if_neg Bool.false_ne_true]
      rcases place_again hv hL hs hlb hp htree hkids hmem hroom hsplit with
        ⟨s', hrun, -⟩ | ⟨-, e, s', he, hrun⟩
      · rw [Prog.bind_ok hrun]
        rintro ⟨⟩
      · rw [Prog.bind_error hrun]
        rintro ⟨⟩
        exact he
  | deepened hflat hrun =>
    -- a leaf of at most four records is not split
    have hhead : HeadOk inode.raw iblock 4 0 := hflat ▸ hshape.root
    have hends := deepen_ends hv hL hs.placed hhead
    rw [hrun] at hends
    cases hends with
    | deepened hdeep =>
      rcases place_deepened hv hL hs hlb hp hhead hdeep with ⟨s', hrun', -⟩ | ⟨-, e, s', -, hrun'⟩
      · rw [hrun'] at hfirst
        cases hfirst
      · rw [hrun'] at hfirst
        cases hfirst

end Insert

/-! ## A full leaf

One group of 512 blocks, with the superblock, the descriptors, the block bitmap and the inode
table in blocks 1 to 4 and the inode bitmap in block 10.  The file's one leaf, block 20, has 84
records of one block each and no room for another one.  All blocks but one are marked.
-/

def plainVolume : Ext4 := sampleVolume 1 512 512

theorem geometryOk_plain : GeometryOk plainVolume := by
  simp [geometryOk_iff, plainVolume, sampleVolume]

theorem layoutOk_plain : LayoutOk plainVolume sampleLayout :=
  layoutOk_oneGroup rfl rfl rfl rfl rfl (by omega) (by omega) (show 10 < 512 ∧ 4 < 512 by omega)

/-- Block `2 * i` of the file is block `22 + 2 * i` of the volume. -/
def fullLeaf : Bytes := fun k =>
  if k < 12 then wrHdr (fun _ => 0) 0 84 84 0 k
  else if k % 12 = 0 then UInt8.ofNat (2 * (k / 12 - 1))
  else if k % 12 = 4 then 1
  else if k % 12 = 8 then UInt8.ofNat (20 + 2 * (k / 12))
  else 0

/-- The records of that leaf. -/
def fullRecs : List Extent := (List.range 84).map fun j => ⟨2 * j, 1, 22 + 2 * j⟩

/-- Block `17 + i` is free and the others are marked. -/
def leafState (i : ℕ) : FsState where
  disk
    | 2 => ((Bytes.putLE (fun _ => 0) 0 4 3).putLE 4 4 10).putLE 8 4 4
    | 3 => fun k => if k = 2 then UInt8.ofNat (255 - 2 ^ i) else 255
    | 20 => fullLeaf
    | _ => fun _ => 0
  freeBlocks := 1
  freeInodes := 4

def leafInode : Inode where
  ino := 3
  mode := 0x8000 ||| 0o644
  size := 167 * 1024
  blocks := 168
  flags := 0x80000
  raw := wrIndex (wrHdr (fun _ => 0) iblock 1 4 1) iblock 0 0 20

theorem placed_leaf {i : ℕ} (hi : i ∈ [3, 4]) : Placed plainVolume sampleLayout (leafState i) := by
  have hall : ∀ i ∈ [3, 4],
      (∀ g < 1, plainVolume.gdBlockBitmap (descriptor plainVolume (leafState i) g) = 3 ∧
        plainVolume.gdInodeBitmap (descriptor plainVolume (leafState i) g) = 10 ∧
        plainVolume.gdInodeTable (descriptor plainVolume (leafState i) g) = 4) ∧
      ∀ b ∈ [1, 2, 3, 10, 4], marked plainVolume sampleLayout (leafState i) b = true := by
    decide +kernel
  exact ⟨(hall i hi).1, fun b hb => (hall i hi).2 b (role_oneGroup hb)⟩

theorem headOk_leaf : HeadOk leafInode.raw iblock 4 1 :=
  ⟨rfl, show 1 ≤ 4 by omega, show 0 < 4 by omega, le_refl 4, rfl⟩

theorem kids_leaf : kidsOf leafInode.raw iblock = [(0, 20)] := rfl

theorem block_leaf (i : ℕ) : block plainVolume (leafState i) 20 = Bytes.clip 1024 fullLeaf := rfl

theorem recs_leaf : leafRecs (Bytes.clip 1024 fullLeaf) 0 = fullRecs := by decide +kernel

theorem table_leaf (i : ℕ) : leafTable plainVolume (leafState i) leafInode.raw = [(0, fullRecs)] := by
  rw [(leafTable_deep headOk_leaf).1, kids_leaf, List.map_singleton, block_leaf, recs_leaf]

theorem leafNodes_leaf : leafNodes leafInode.raw = [20] := by
  rw [(leafTable_deep (v := plainVolume) (s := leafState 3) headOk_leaf).2, kids_leaf]
  rfl

theorem ascend_leaf : AscendTable 200 [(0, fullRecs)] := by decide +kernel

theorem shape_leaf (i : ℕ) : DriverShape plainVolume (leafState i) leafInode.raw := by
  have hdepth : rootDepth leafInode.raw = 1 := rfl
  refine ⟨hdepth.le, hdepth.symm ▸ headOk_leaf, fun c hc => ?_, ?_⟩
  · rw [leafNodes_leaf, List.mem_singleton] at hc
    subst hc
    rw [block_leaf]
    refine ⟨by omega, show 20 < 512 by omega,
      ⟨⟨rfl, le_refl 84, show 0 < 84 by omega, le_refl 84, rfl⟩, rfl, ?_⟩⟩
    rw [recs_leaf]
    exact List.cons_ne_nil _ _
  · rw [table_leaf]
    exact AscendTable.mono ascend_leaf (by omega)

theorem short_leaf (i : ℕ) :
    ShortRecs (tableRecs (leafTable plainVolume (leafState i) leafInode.raw)) := by
  intro e he
  rw [table_leaf, tableRecs, List.flatMap_singleton] at he
  obtain ⟨j, -, rfl⟩ := List.mem_map.mp he
  exact show 1 ≤ 0x7FFE by simp

theorem behind_leaf (i x q : ℕ)
    (h : (mapBlock plainVolume leafInode x (leafState i)).1 = .ok (some q)) : x < 200 := by
  rw [(shape_leaf i).mapBlock_eq geometryOk_plain rfl, table_leaf] at h
  by_contra hx
  rw [AscendTable.look_none ascend_leaf (by simp) (not_lt.mp hx)] at h
  cases h

/-! ## The insertion of the driver -/

/-- An insertion behind everything that is mapped keeps the shape of the tree, but for the length
of the last record, and maps the new block and no other one.  The loop does not run out after a
split. -/
theorem insertExtent_appends (hv : GeometryOk v) (hL : LayoutOk v L) (hs : Placed v L s)
    (inode : Inode) (hused : LeavesUsed v L s inode.raw) (hshape : DriverShape v s inode.raw)
    (hshort : ShortRecs (tableRecs (leafTable v s inode.raw)))
    (hbehind : ∀ x q, (mapBlock v inode x s).1 = .ok (some q) → x < lb) (hlt : lb < 2 ^ 32 - 1)
    (hp : p < 2 ^ 48) :
    (∀ inode' s', insertExtent v inode lb p s = (.ok inode', s') →
      DriverShape v s' inode'.raw ∧ ShortRecs (tableRecs (leafTable v s' inode'.raw)).dropLast ∧
        (mapBlock v inode' lb s').1 = .ok (some p) ∧
        ∀ x ≠ lb, (mapBlock v inode' x s').1 = (mapBlock v inode x s).1) ∧
    ∀ inode₀ s₀ inode₁ s₁, LoopStart v inode s inode₀ s₀ →
      placeInRightmostLeaf v inode₀ lb p s₀ = (.ok (false, inode₁), s₁) →
      (placeTwice v inode₀ lb p s₀).1 ≠ .error (.error .noSpace) := by
  have hlb : lb < 2 ^ 32 := by omega
  refine ⟨fun inode' s' hrun => ?_, fun inode₀ s₀ inode₁ s₁ hstart hfirst =>
    placeTwice_after_split hv hL hs hused hshape hlb hp hstart hfirst⟩
  have hends := insertExtent_ends hv hL hs hlb hp hshape.rootOk (fun _ => hshape.shallow)
    (by rw [hshape.treeNodes_eq]; exact hused)
  rw [hrun, show withHeader inode = inode from if_pos hshape.root.magic] at hends
  refine hends.appends hv hL hs hused hshape hshort (fun y hy => hbehind y.1 y.2 ?_) hlt
  rw [hshape.mapBlock_eq hv rfl]
  exact (hshape.order.look_mem (by omega) (le_refl _) hy).2

/-- The full leaf is split, and block 21 becomes the second one. -/
theorem insertExtent_appends_split : ∃ inode' s',
    insertExtent plainVolume leafInode 200 250 (leafState 4) = (.ok inode', s') ∧
      DriverShape plainVolume s' inode'.raw ∧
      (mapBlock plainVolume inode' 200 s').1 = .ok (some 250) ∧
      ∀ x ≠ 200, (mapBlock plainVolume inode' x s').1 =
        (mapBlock plainVolume leafInode x (leafState 4)).1 := by
  have hmarked : marked plainVolume sampleLayout (leafState 4) 20 = true := by decide +kernel
  have hok : (insertExtent plainVolume leafInode 200 250 (leafState 4)).1.isOk = true := by
    decide +kernel
  have hused : LeavesUsed plainVolume sampleLayout (leafState 4) leafInode.raw := by
    intro c hc
    rw [leafNodes_leaf, List.mem_singleton] at hc
    subst hc
    exact ⟨⟨show 1 ≤ 20 by omega, show 20 < 512 by omega⟩, rfl, hmarked⟩
  have happends := insertExtent_appends geometryOk_plain layoutOk_plain (placed_leaf (by simp))
    leafInode hused (shape_leaf 4) (short_leaf 4) (behind_leaf 4) (show 200 < 2 ^ 32 - 1 by omega)
    (show 250 < 2 ^ 48 by omega)
  cases hrun : insertExtent plainVolume leafInode 200 250 (leafState 4) with
  | mk r s' =>
    rw [hrun] at hok
    cases r with
    | error e => cases hok
    | ok inode' =>
      obtain ⟨hshape, -, hself, hother⟩ := happends.1 inode' s' hrun
      exact ⟨inode', s', rfl, hshape, hself, hother⟩

/-- The leaf itself is not marked, and the split hands it out as the second leaf: the upper half of
the records is written over the lower one. -/
theorem insertExtent_loses_blocks : ∃ inode' s',
    DriverShape plainVolume (leafState 3) leafInode.raw ∧
      ShortRecs (tableRecs (leafTable plainVolume (leafState 3) leafInode.raw)) ∧
      (∀ x q, (mapBlock plainVolume leafInode x (leafState 3)).1 = .ok (some q) → x < 200) ∧
      insertExtent plainVolume leafInode 200 250 (leafState 3) = (.ok inode', s') ∧
      (mapBlock plainVolume leafInode 0 (leafState 3)).1 = .ok (some 22) ∧
      (mapBlock plainVolume inode' 0 s').1 = .ok none := by
  have hafter : ((insertExtent plainVolume leafInode 200 250 (leafState 3)).1.toOption.map
      fun inode' => (mapBlock plainVolume inode' 0
        (insertExtent plainVolume leafInode 200 250 (leafState 3)).2).1.toOption) =
      some (some none) := by
    decide +kernel
  have hbefore : (mapBlock plainVolume leafInode 0 (leafState 3)).1 = .ok (some 22) := by
    rw [(shape_leaf 3).mapBlock_eq geometryOk_plain rfl, table_leaf]
    decide +kernel
  cases hrun : insertExtent plainVolume leafInode 200 250 (leafState 3) with
  | mk r s' =>
    rw [hrun] at hafter
    cases r with
    | error e => cases hafter
    | ok inode' =>
      refine ⟨inode', s', shape_leaf 3, short_leaf 3, behind_leaf 3, rfl, hbefore, ?_⟩
      replace hafter : (mapBlock plainVolume inode' 0 s').1.toOption = some none :=
        Option.some.inj hafter
      cases hmap : (mapBlock plainVolume inode' 0 s').1 with
      | error e =>
        rw [hmap] at hafter
        cases hafter
      | ok r =>
        rw [hmap] at hafter
        cases hafter
        rfl

end Pinx.Analysis
