import Pinx.Analysis.ExtentNodes

/-!
# Extent trees

The tree under a node: the blocks of its inner nodes (`nodesUnder`), the logical blocks
it maps (`mapsUnder`) and what a lookup finds (`look`), each by recursion on the depth.
On a tree with sound headers `map_block` is `look` (`mapBlock_eq`).

Writing a block that is no inner node of a tree leaves the tree as it is, and writing a
leaf changes only what that leaf maps (`tree_step`).
-/

namespace Pinx.Analysis

open Pinx.Foundation Pinx.Model

/-- The records of a leaf, and of an index node, as many as its header says. -/
def leafRecs (b : Bytes) (base : ℕ) : List Extent := recordsOf b base (hdrOf b base).entries
def kidsOf (b : Bytes) (base : ℕ) : List (ℕ × ℕ) := indexOf b base (hdrOf b base).entries

/-- The logical blocks of a record and where they are.  Lengths above `0x8000` are those
of unwritten records, which own their blocks all the same. -/
def extentMaps (e : Extent) : List (ℕ × ℕ) :=
  (List.range (if e.len ≤ 0x8000 then e.len else e.len - 0x8000)).map fun k => (e.lb + k, e.pb + k)

/-- The blocks of the nodes below a node of depth `d`. -/
def nodesUnder (v : Ext4) (s : FsState) : ℕ → Bytes → ℕ → List ℕ
  | 0, _, _ => []
  | d + 1, b, base => (kidsOf b base).flatMap fun x => x.2 :: nodesUnder v s d (block v s x.2) 0

/-- The logical blocks mapped below a node of depth `d`, and where they are. -/
def mapsUnder (v : Ext4) (s : FsState) : ℕ → Bytes → ℕ → List (ℕ × ℕ)
  | 0, b, base => (leafRecs b base).flatMap extentMaps
  | d + 1, b, base => (kidsOf b base).flatMap fun x => mapsUnder v s d (block v s x.2) 0

/-- The headers of a tree are sound, and its nodes are on the volume. -/
def TreeOk (v : Ext4) (s : FsState) : ℕ → Bytes → ℕ → ℕ → Prop
  | 0, b, base, cap => HeadOk b base cap 0
  | d + 1, b, base, cap => HeadOk b base cap (d + 1) ∧ ∀ x ∈ kidsOf b base,
      x.2 ≠ 0 ∧ x.2 < v.blocksTotal ∧ TreeOk v s d (block v s x.2) 0 v.leafMax

instance decidableTreeOk (v : Ext4) (s : FsState) :
    (d : ℕ) → (b : Bytes) → (base cap : ℕ) → Decidable (TreeOk v s d b base cap)
  | 0, b, base, cap => inferInstanceAs (Decidable (HeadOk b base cap 0))
  | d + 1, b, base, cap =>
    have (x : ℕ × ℕ) : Decidable (TreeOk v s d (block v s x.2) 0 v.leafMax) :=
      decidableTreeOk v s d (block v s x.2) 0 v.leafMax
    inferInstanceAs (Decidable (HeadOk b base cap (d + 1) ∧ ∀ x ∈ kidsOf b base,
      x.2 ≠ 0 ∧ x.2 < v.blocksTotal ∧ TreeOk v s d (block v s x.2) 0 v.leafMax))

/-- What a lookup finds below a node of depth `d`. -/
def look (v : Ext4) (s : FsState) (lb : ℕ) : ℕ → Bytes → ℕ → Except FsFail (Option ℕ)
  | 0, b, base => scanRecs lb (leafRecs b base)
  | d + 1, b, base =>
    match route (2 ^ 32 - 1) lb (kidsOf b base) with
    | none => .ok none
    | some c => look v s lb d (block v s c) 0

variable {v : Ext4} {s s' : FsState} {d base cap lb p : ℕ} {b b' : Bytes}

theorem TreeOk.headOk (h : TreeOk v s d b base cap) : HeadOk b base cap d := by
  cases d with
  | zero => exact h
  | succ d => exact h.1

theorem leafMax_room (hv : GeometryOk v) : 12 + 12 * v.leafMax + 4 ≤ v.bs := by
  unfold Ext4.leafMax
  obtain h | h | h := hv.bs <;> omega

/-! ## What a lookup finds is mapped -/

theorem mem_extentMaps {e : Extent} (hw : Written e) (hlo : e.lb ≤ lb) (hhi : lb < e.lb + e.len) :
    (lb, e.pb + (lb - e.lb)) ∈ extentMaps e := by
  obtain ⟨-, hlen⟩ := hw
  rw [extentMaps, if_pos (by omega), List.mem_map]
  refine ⟨lb - e.lb, List.mem_range.mpr (by omega), ?_⟩
  rw [Nat.add_sub_cancel' hlo]

theorem scanRecs_mem {recs : List Extent} (h : scanRecs lb recs = .ok (some p)) :
    (lb, p) ∈ recs.flatMap extentMaps := by
  induction recs with
  | nil => cases h
  | cons e es ih =>
    rw [List.flatMap_cons, List.mem_append]
    rw [scanRecs] at h
    split at h
    · rename_i hcov
      split at h
      · cases h
      · split at h
        · rename_i hlt
          cases h
          exact Or.inl (mem_extentMaps hcov.1 hcov.2 hlt)
        · exact Or.inr (ih h)
    · exact Or.inr (ih h)

theorem look_mem (h : look v s lb d b base = .ok (some p)) : (lb, p) ∈ mapsUnder v s d b base := by
  induction d generalizing b base with
  | zero => exact scanRecs_mem h
  | succ d ih =>
    rw [look] at h
    split at h
    · cases h
    · rename_i c hroute
      obtain ⟨first, hmem⟩ := mem_of_route hroute
      exact List.mem_flatMap.mpr ⟨(first, c), hmem, ih h⟩

/-- The last block number of all is never found. -/
theorem scanRecs_lt {recs : List Extent} (h : scanRecs lb recs = .ok (some p)) :
    lb + 1 < 2 ^ 32 := by
  induction recs with
  | nil => cases h
  | cons e es ih =>
    rw [scanRecs] at h
    split at h
    · split at h
      · cases h
      · split at h
        · omega
        · exact ih h
    · exact ih h

theorem look_lt (h : look v s lb d b base = .ok (some p)) : lb + 1 < 2 ^ 32 := by
  induction d generalizing b base with
  | zero => exact scanRecs_lt h
  | succ d ih =>
    rw [look] at h
    split at h
    · cases h
    · exact ih h

theorem scanRecs_skips {recs : List Extent} {e : FsFail} (h : scanRecs lb recs = .error e) :
    Skips e := by
  induction recs with
  | nil => cases h
  | cons r rs ih =>
    rw [scanRecs] at h
    split at h
    · split at h
      · cases h
        trivial
      · split at h
        · cases h
        · exact ih h
    · exact ih h

theorem look_skips {e : FsFail} (h : look v s lb d b base = .error e) : Skips e := by
  induction d generalizing b base with
  | zero => exact scanRecs_skips h
  | succ d ih =>
    rw [look] at h
    split at h
    · cases h
    · exact ih h

/-! ## The tree of an inode -/

/-- The depth of an inode's tree. -/
def rootDepth (raw : Bytes) : ℕ := (hdrOf raw iblock).depth

/-- The nodes, the mapped blocks, the soundness and the lookup of an inode's tree.  An
inode without a header has no tree. -/
def treeNodes (v : Ext4) (s : FsState) (raw : Bytes) : List ℕ :=
  if HasMagic raw iblock then nodesUnder v s (rootDepth raw) raw iblock else []
def treeMaps (v : Ext4) (s : FsState) (raw : Bytes) : List (ℕ × ℕ) :=
  if HasMagic raw iblock then mapsUnder v s (rootDepth raw) raw iblock else []
def RootOk (v : Ext4) (s : FsState) (raw : Bytes) : Prop :=
  HasMagic raw iblock → TreeOk v s (rootDepth raw) raw iblock 4
def treeLook (v : Ext4) (s : FsState) (raw : Bytes) (lb : ℕ) : Except FsFail (Option ℕ) :=
  if HasMagic raw iblock then look v s lb (rootDepth raw) raw iblock else .ok none

instance (v : Ext4) (s : FsState) (raw : Bytes) : Decidable (RootOk v s raw) :=
  inferInstanceAs (Decidable (HasMagic raw iblock → TreeOk v s (rootDepth raw) raw iblock 4))

theorem treeLook_mem {raw : Bytes} (h : treeLook v s raw lb = .ok (some p)) :
    (lb, p) ∈ treeMaps v s raw := by
  unfold treeLook at h
  unfold treeMaps
  split at h
  · rename_i hmagic
    rw [if_pos hmagic]
    exact look_mem h
  · cases h

theorem treeLook_lt {raw : Bytes} (h : treeLook v s raw lb = .ok (some p)) : lb + 1 < 2 ^ 32 := by
  unfold treeLook at h
  split at h
  · exact look_lt h
  · cases h

theorem treeLook_skips {raw : Bytes} {e : FsFail} (h : treeLook v s raw lb = .error e) :
    Skips e := by
  unfold treeLook at h
  split at h
  · exact look_skips h
  · cases h

/-! ## Walking a tree -/

/-- The records a block has room for. -/
def nodeCap (v : Ext4) : ℕ := (v.bs - 12) / 12

/-- A tree that can be walked: the headers are where they should be and leave the records inside
their block, the depths count down, and the blocks of the nodes can be read. -/
def Walkable (v : Ext4) (s : FsState) : ℕ → Bytes → ℕ → ℕ → Prop
  | 0, b, base, cap =>
    HasMagic b base ∧ (hdrOf b base).entries ≤ cap ∧ (hdrOf b base).depth = 0
  | d + 1, b, base, cap =>
    (HasMagic b base ∧ (hdrOf b base).entries ≤ cap ∧ (hdrOf b base).depth = d + 1) ∧
      ∀ x ∈ kidsOf b base, x.2 ≠ 0 ∧ readFsb v x.2 s = (.ok (block v s x.2), s) ∧
        Walkable v s d (block v s x.2) 0 (nodeCap v)

theorem Walkable.head (h : Walkable v s d b base cap) :
    HasMagic b base ∧ (hdrOf b base).entries ≤ cap ∧ (hdrOf b base).depth = d := by
  cases d with
  | zero => exact h
  | succ d => exact h.1

theorem Walkable.mono {cap' : ℕ} (h : Walkable v s d b base cap) (hle : cap ≤ cap') :
    Walkable v s d b base cap' := by
  obtain ⟨hmagic, hentries, hdepth⟩ := h.head
  cases d with
  | zero => exact ⟨hmagic, hentries.trans hle, hdepth⟩
  | succ d => exact ⟨⟨hmagic, hentries.trans hle, hdepth⟩, h.2⟩

theorem nodeCap_room (hbs : v.bs ≤ maxBlockSize) : 0 + 12 + 12 * nodeCap v ≤ maxBlockSize := by
  unfold nodeCap
  unfold maxBlockSize at hbs ⊢
  omega

theorem TreeOk.walkable (hv : GeometryOk v) (h : TreeOk v s d b base cap) :
    Walkable v s d b base cap := by
  have hhead := h.headOk
  have hroom := leafMax_room hv
  induction d generalizing b base cap with
  | zero => exact ⟨hhead.magic, hhead.entries_le.trans hhead.max_le, hhead.depth⟩
  | succ d ih =>
    refine ⟨⟨hhead.magic, hhead.entries_le.trans hhead.max_le, hhead.depth⟩, fun x hx => ?_⟩
    obtain ⟨hne, hlt, hchild⟩ := h.2 x hx
    refine ⟨hne, readFsb_ok hv hlt, ?_⟩
    have hcap : v.leafMax ≤ nodeCap v := by
      unfold nodeCap
      omega
    exact (ih hchild hchild.headOk).mono hcap

/-- SOURCE: ext4.rs:887-937 -/
theorem mapLoop_eq (hbs : v.bs ≤ maxBlockSize) {inode : Inode} {node : Node} {fuel : ℕ}
    (hfuel : d < fuel) (hlen : node.base + 12 + 12 * cap ≤ node.len)
    (hok : Walkable v s d node.bytes node.base cap) :
    mapLoop v inode lb fuel node (hdrOf node.bytes node.base).entries d s =
      (look v s lb d node.bytes node.base, s) := by
  obtain ⟨fuel, rfl⟩ : ∃ f, fuel = f + 1 := ⟨fuel - 1, by omega⟩
  induction d generalizing node cap fuel with
  | zero =>
    obtain ⟨-, hle, -⟩ := hok.head
    rw [mapLoop, if_pos rfl, scanLeaf_eq (by omega), ← List.range_eq_range']
    rfl
  | succ d ih =>
    obtain ⟨-, hle, -⟩ := hok.head
    have hroute : scanIndex node lb (hdrOf node.bytes node.base).entries 0 =
        route (2 ^ 32 - 1) lb (kidsOf node.bytes node.base) := by
      rw [scanIndex_eq (by omega), ← List.range_eq_range']
      rfl
    rw [mapLoop, if_neg (Nat.succ_ne_zero d), hroute, look]
    cases hr : route (2 ^ 32 - 1) lb (kidsOf node.bytes node.base) with
    | none => rfl
    | some c =>
      obtain ⟨first, hmem⟩ := mem_of_route hr
      obtain ⟨hne, hread, hchild⟩ := hok.2 _ hmem
      obtain ⟨hmagic, -, hdepth⟩ := hchild.head
      obtain ⟨fuel, rfl⟩ : ∃ f, fuel = f + 1 := ⟨fuel - 1, by omega⟩
      dsimp only
      rw [Prog.bind_ok hread, rdHdr_eq (by unfold maxBlockSize; omega) hmagic]
      dsimp only
      rw [if_neg hne, hdepth]
      exact @ih (nodeCap v) (blockNode (block v s c)) (nodeCap_room hbs) hchild fuel (by omega)

/-- The lookup in a tree that can be walked. -/
theorem mapBlock_walk (hbs : v.bs ≤ maxBlockSize) {inode : Inode}
    (hok : HasMagic inode.raw iblock → Walkable v s (rootDepth inode.raw) inode.raw iblock 4) :
    mapBlock v inode lb s = (treeLook v s inode.raw lb, s) := by
  unfold mapBlock treeLook
  by_cases hmagic : HasMagic inode.raw iblock
  · rw [rdHdr_eq (by decide) hmagic, if_pos hmagic]
    have hdepth : (hdrOf inode.raw iblock).depth < 2 ^ 16 := Bytes.getLE_lt _ _ 2
    exact @mapLoop_eq v s _ 4 lb hbs inode inode.root _
      (show (hdrOf inode.raw iblock).depth < 2 ^ 48 + 1 by omega)
      (show iblock + 12 + 12 * 4 ≤ maxInodeSize by decide) (hok hmagic)
  · rw [rdHdr_none hmagic, if_neg hmagic]
    rfl

/-- `map_block` is the lookup in the tree. -/
theorem mapBlock_eq (hv : GeometryOk v) {inode : Inode} (hok : RootOk v s inode.raw) :
    mapBlock v inode lb s = (treeLook v s inode.raw lb, s) :=
  mapBlock_walk hv.bs_le fun hmagic => (hok hmagic).walkable hv

/-! ## Counting the blocks -/

/-- The records of the leaves of a tree. -/
def extentsUnder (v : Ext4) (s : FsState) : ℕ → Bytes → ℕ → List Extent
  | 0, b, base => leafRecs b base
  | d + 1, b, base => (kidsOf b base).flatMap fun x => extentsUnder v s d (block v s x.2) 0

/-- The blocks of a record that are counted. -/
def writtenLen (e : Extent) : ℕ := if Written e then e.len else 0

theorem sumRange_eq {f : ℕ → Fs ℕ} {g : ℕ → ℕ} {n i : ℕ}
    (hf : ∀ j, i ≤ j → j < i + n → f j s = (.ok (g j), s)) :
    sumRange f n i s = (.ok ((List.range' i n).map g).sum, s) := by
  induction n generalizing i with
  | zero => rfl
  | succ n ih =>
    rw [sumRange, Prog.bind_ok (hf i (le_refl i) (by omega)),
      Prog.bind_ok (ih fun j hle hlt => hf j (by omega) (by omega)), List.range'_succ,
      List.map_cons, List.sum_cons]
    rfl

/-- SOURCE: ext4.rs:1068-1088 -/
theorem nodeSum_eq (hbs : v.bs ≤ maxBlockSize) {node : Node}
    (hlen : node.base + 12 + 12 * cap ≤ node.len) (hok : Walkable v s d node.bytes node.base cap) :
    nodeSum v d node s =
      (.ok ((extentsUnder v s d node.bytes node.base).map writtenLen).sum, s) := by
  induction d generalizing node cap with
  | zero =>
    obtain ⟨hmagic, hle, -⟩ := hok.head
    rw [nodeSum, rdHdr_eq (by omega) hmagic]
    dsimp only
    rw [sumRange_eq (g := fun i => writtenLen (extentAt node.bytes node.base i)),
      ← List.range_eq_range', extentsUnder, leafRecs, recordsOf, List.map_map]
    · rfl
    · intro j _ hj
      rw [rdExtent_eq (by omega)]
      unfold writtenLen
      by_cases hw : Written (extentAt node.bytes node.base j)
      · rw [if_pos hw, if_pos hw]
        rfl
      · rw [if_neg hw, if_neg hw]
        rfl
  | succ d ih =>
    obtain ⟨hmagic, hle, -⟩ := hok.head
    rw [nodeSum, rdHdr_eq (by omega) hmagic]
    dsimp only
    rw [sumRange_eq (g := fun i => ((extentsUnder v s d
        (block v s (indexAt node.bytes node.base i).2) 0).map writtenLen).sum),
      ← List.range_eq_range', extentsUnder, kidsOf, indexOf, List.flatMap_map, List.map_flatMap,
      List.flatMap_def, List.sum_flatten, List.map_map]
    · rfl
    · intro j _ hj
      obtain ⟨-, hread, hchild⟩ := hok.2 (indexAt node.bytes node.base j)
        (mem_indexOf.mpr ⟨j, by omega, rfl⟩)
      rw [rdIndex_eq (by omega)]
      dsimp only
      rw [Prog.bind_ok hread]
      exact ih (nodeCap_room hbs) hchild

/-- SOURCE: ext4.rs:1060-1066 -/
theorem recountBlocks_eq (hbs : v.bs ≤ maxBlockSize) {inode : Inode}
    (hmagic : HasMagic inode.raw iblock)
    (hok : Walkable v s (rootDepth inode.raw) inode.raw iblock 4) :
    recountBlocks v inode s = (.ok (((extentsUnder v s (rootDepth inode.raw) inode.raw iblock).map
      writtenLen).sum * (v.bs / 512)), s) := by
  have hsum := @nodeSum_eq v s _ 4 hbs inode.root
    (show iblock + 12 + 12 * 4 ≤ maxInodeSize by decide) hok
  unfold recountBlocks
  rw [rdHdr_eq (by decide) hmagic]
  exact Prog.bind_ok hsum

theorem recountBlocks_ok (hv : GeometryOk v) {inode : Inode} (hok : RootOk v s inode.raw) :
    ∃ total, recountBlocks v inode s = (.ok total, s) := by
  by_cases hmagic : HasMagic inode.raw iblock
  · exact ⟨_, recountBlocks_eq hv.bs_le hmagic ((hok hmagic).walkable hv)⟩
  · unfold recountBlocks
    rw [rdHdr_none hmagic]
    exact ⟨0, rfl⟩

/-- A node that a step keeps, or a leaf that it rewrites. -/
def LeafStep (v : Ext4) (s s' : FsState) (n : ℕ) : Prop :=
  block v s' n = block v s n ∨
    HeadOk (block v s n) 0 v.leafMax 0 ∧ HeadOk (block v s' n) 0 v.leafMax 0

/-- A step that keeps the inner nodes of a tree and rewrites leaves at most keeps the shape
of the tree; what it maps now it mapped before, or a rewritten leaf maps it. -/
theorem tree_step (hok : TreeOk v s d b base cap)
    (hstep : ∀ n ∈ nodesUnder v s d b base, LeafStep v s s' n) :
    TreeOk v s' d b base cap ∧ nodesUnder v s' d b base = nodesUnder v s d b base ∧
      ∀ x ∈ mapsUnder v s' d b base, x ∈ mapsUnder v s d b base ∨
        ∃ n ∈ nodesUnder v s d b base, block v s' n ≠ block v s n ∧
          x ∈ (leafRecs (block v s' n) 0).flatMap extentMaps := by
  induction d generalizing b base cap with
  | zero => exact ⟨hok, rfl, fun x hx => Or.inl hx⟩
  | succ d ih =>
    -- a kid, under the step: the same node, or a leaf before and after
    have hkid : ∀ x ∈ kidsOf b base,
        TreeOk v s' d (block v s' x.2) 0 v.leafMax ∧
        nodesUnder v s' d (block v s' x.2) 0 = nodesUnder v s d (block v s x.2) 0 ∧
        ∀ y ∈ mapsUnder v s' d (block v s' x.2) 0, y ∈ mapsUnder v s d (block v s x.2) 0 ∨
          ∃ n ∈ x.2 :: nodesUnder v s d (block v s x.2) 0, block v s' n ≠ block v s n ∧
            y ∈ (leafRecs (block v s' n) 0).flatMap extentMaps := by
      intro x hx
      have hin : ∀ n ∈ x.2 :: nodesUnder v s d (block v s x.2) 0, LeafStep v s s' n :=
        fun n hn => hstep n (List.mem_flatMap.mpr ⟨x, hx, hn⟩)
      have hchild := (hok.2 x hx).2.2
      by_cases hsame : block v s' x.2 = block v s x.2
      · obtain ⟨htree, hnodes, hmaps⟩ := ih hchild fun n hn => hin n (List.mem_cons_of_mem _ hn)
        rw [hsame]
        refine ⟨htree, hnodes, fun y hy => (hmaps y hy).imp_right ?_⟩
        rintro ⟨n, hn, hne, hmem⟩
        exact ⟨n, List.mem_cons_of_mem _ hn, hne, hmem⟩
      · obtain ⟨hleaf, hleaf'⟩ := (hin x.2 List.mem_cons_self).resolve_left hsame
        have hd : d = 0 := by
          rw [← hchild.headOk.depth, hleaf.depth]
        subst hd
        exact ⟨hleaf', rfl, fun y hy => Or.inr ⟨x.2, List.mem_cons_self, hsame, hy⟩⟩
    refine ⟨⟨hok.1, fun x hx => ⟨(hok.2 x hx).1, (hok.2 x hx).2.1, (hkid x hx).1⟩⟩, ?_, ?_⟩
    · unfold nodesUnder
      exact List.flatMap_congr fun x hx => by rw [(hkid x hx).2.1]
    · intro y hy
      obtain ⟨x, hx, hmem⟩ := List.mem_flatMap.mp hy
      rcases (hkid x hx).2.2 y hmem with hold | ⟨n, hn, hne, hnew⟩
      · exact Or.inl (List.mem_flatMap.mpr ⟨x, hx, hold⟩)
      · exact Or.inr ⟨n, List.mem_flatMap.mpr ⟨x, hx, hn⟩, hne, hnew⟩

/-- A lookup depends on the nodes of the tree only. -/
theorem look_congr (hok : TreeOk v s d b base cap)
    (hsame : ∀ n ∈ nodesUnder v s d b base, block v s' n = block v s n) :
    look v s' lb d b base = look v s lb d b base := by
  induction d generalizing b base cap with
  | zero => rfl
  | succ d ih =>
    rw [look, look]
    cases hr : route (2 ^ 32 - 1) lb (kidsOf b base) with
    | none => rfl
    | some c =>
      obtain ⟨first, hmem⟩ := mem_of_route hr
      have hin : ∀ n ∈ c :: nodesUnder v s d (block v s c) 0, block v s' n = block v s n :=
        fun n hn => hsame n (List.mem_flatMap.mpr ⟨(first, c), hmem, hn⟩)
      dsimp only
      rw [hin c List.mem_cons_self]
      exact ih (hok.2 _ hmem).2.2 fun n hn => hin n (List.mem_cons_of_mem _ hn)

/-- So is the list of the records below it. -/
theorem extentsUnder_congr (hsame : ∀ n ∈ nodesUnder v s d b base, block v s' n = block v s n) :
    extentsUnder v s' d b base = extentsUnder v s d b base := by
  induction d generalizing b base with
  | zero => rfl
  | succ d ih =>
    rw [extentsUnder, extentsUnder]
    refine List.flatMap_congr fun x hx => ?_
    have hin : ∀ n ∈ x.2 :: nodesUnder v s d (block v s x.2) 0, block v s' n = block v s n :=
      fun n hn => hsame n (List.mem_flatMap.mpr ⟨x, hx, hn⟩)
    rw [hin x.2 List.mem_cons_self]
    exact ih fun n hn => hin n (List.mem_cons_of_mem _ hn)

/-- Nodes that agree have the same records. -/
theorem node_agree (h : NodeAgree b b' base base cap) (hok : HeadOk b base cap d) :
    leafRecs b' base = leafRecs b base ∧ kidsOf b' base = kidsOf b base := by
  have hle := hok.entries_le
  have hmax := hok.max_le
  have hhdr := h.hdrOf_eq
  unfold leafRecs kidsOf
  rw [← hhdr]
  exact ⟨recordsOf_congr fun i hi => (h.extentAt_eq (by omega)).symm,
    indexOf_congr fun i hi => (h.indexAt_eq (by omega)).symm⟩

/-- The tree under a node is a matter of the node's bytes. -/
theorem tree_agree (h : NodeAgree b b' base base cap) (hok : HeadOk b base cap d) :
    (TreeOk v s d b base cap → TreeOk v s d b' base cap) ∧
      nodesUnder v s d b' base = nodesUnder v s d b base ∧
      mapsUnder v s d b' base = mapsUnder v s d b base ∧
      look v s lb d b' base = look v s lb d b base := by
  obtain ⟨hrecs, hkids⟩ := node_agree h hok
  cases d with
  | zero =>
    refine ⟨fun htree => h.headOk htree, rfl, ?_, ?_⟩
    · rw [mapsUnder, mapsUnder, hrecs]
    · rw [look, look, hrecs]
  | succ d =>
    refine ⟨fun htree => ⟨h.headOk htree.1, ?_⟩, ?_, ?_, ?_⟩
    · rw [hkids]
      exact htree.2
    · rw [nodesUnder, nodesUnder, hkids]
    · rw [mapsUnder, mapsUnder, hkids]
    · rw [look, look, hkids]

/-- The tree of an inode is a matter of the bytes of its root. -/
theorem root_agree {raw raw' : Bytes} (h : NodeAgree raw raw' iblock iblock 4)
    (hok : RootOk v s raw) :
    RootOk v s raw' ∧ treeNodes v s raw' = treeNodes v s raw ∧
      treeMaps v s raw' = treeMaps v s raw ∧ treeLook v s raw' lb = treeLook v s raw lb := by
  have hmagic := h.hasMagic
  have hdepth : rootDepth raw' = rootDepth raw := by
    unfold rootDepth
    rw [h.hdrOf_eq]
  unfold RootOk treeNodes treeMaps treeLook
  by_cases hm : HasMagic raw iblock
  · obtain ⟨h₁, h₂, h₃, h₄⟩ := @tree_agree v s _ _ _ lb _ _ h (hok hm).headOk
    rw [if_pos hm, if_pos hm, if_pos hm, if_pos (hmagic.mp hm), if_pos (hmagic.mp hm),
      if_pos (hmagic.mp hm), hdepth]
    exact ⟨fun _ => h₁ (hok hm), h₂, h₃, h₄⟩
  · have hm' := fun h' => hm (hmagic.mpr h')
    rw [if_neg hm, if_neg hm, if_neg hm, if_neg hm', if_neg hm', if_neg hm']
    exact ⟨fun h' => absurd h' hm', rfl, rfl, rfl⟩

end Pinx.Analysis
