import Mathlib.Data.Set.Card
import Pinx.Analysis.ExtentAppend

/-!
# Lookup and counting in valid trees

A valid tree may have any depth.  Its index keys ascend, the records below an index entry are
in the range of that entry, and written records do not overlap.  In such a tree a lookup finds
a block exactly if a written record has it, and the recount counts exactly the blocks that are
found: the loop that trusts the depth stored in each node and the recursion that counts down
from the root agree.
-/

namespace Pinx.Analysis

open Pinx.Foundation Pinx.Model

variable {v : Ext4} {s : FsState} {recs : List Extent} {b : Bytes} {d base cap x p : ℕ}

/-! ## Valid trees -/

/-- Two written records have no block in common. -/
def RecsApart (e e' : Extent) : Prop :=
  Written e → Written e' → e.lb + e.len ≤ e'.lb ∨ e'.lb + e'.len ≤ e.lb

/-- The written record `e` has block `x`, at `p`. -/
def MapsAt (e : Extent) (x p : ℕ) : Prop :=
  Written e ∧ e.lb ≤ x ∧ x < e.lb + e.len ∧ p = e.pb + x - e.lb

/-- The header is where it should be, its records are inside the block, and its depth is `d`. -/
def HeaderIn (b : Bytes) (base cap d : ℕ) : Prop :=
  HasMagic b base ∧ (hdrOf b base).entries ≤ cap ∧ (hdrOf b base).depth = d

/-- A valid tree of depth `d`. -/
def ValidTree (v : Ext4) (s : FsState) : ℕ → Bytes → ℕ → ℕ → Prop
  | 0, b, base, cap =>
    HeaderIn b base cap 0 ∧ (leafRecs b base).Pairwise RecsApart ∧
      ∀ e ∈ leafRecs b base, Written e → e.lb + e.len ≤ 2 ^ 32 - 1
  | d + 1, b, base, cap =>
    HeaderIn b base cap (d + 1) ∧ ((kidsOf b base).map Prod.fst).Pairwise (· < ·) ∧
      ∀ r ∈ ranges (2 ^ 32 - 1) (kidsOf b base),
        r.2.2 ≠ 0 ∧ readFsb v r.2.2 s = (.ok (block v s r.2.2), s) ∧
          ValidTree v s d (block v s r.2.2) 0 (nodeCap v) ∧
          ∀ e ∈ extentsUnder v s d (block v s r.2.2) 0, Written e →
            r.1 ≤ e.lb ∧ e.lb + e.len ≤ r.2.1

/-- The records below an index node, range by range. -/
theorem extentsUnder_succ : extentsUnder v s (d + 1) b base =
    (ranges (2 ^ 32 - 1) (kidsOf b base)).flatMap
      fun r => extentsUnder v s d (block v s r.2.2) 0 := by
  rw [extentsUnder]
  conv_lhs => rw [← map_ranges (2 ^ 32 - 1) (kidsOf b base)]
  rw [List.flatMap_map]

theorem ValidTree.walkable (h : ValidTree v s d b base cap) : Walkable v s d b base cap := by
  induction d generalizing b base cap with
  | zero => exact h.1
  | succ d ih =>
    refine ⟨h.1, fun y hy => ?_⟩
    rw [← map_ranges (2 ^ 32 - 1) (kidsOf b base)] at hy
    obtain ⟨r, hr, rfl⟩ := List.mem_map.mp hy
    obtain ⟨hne, hread, hchild, -⟩ := h.2.2 r hr
    exact ⟨hne, hread, ih hchild⟩

/-- No two written records of a valid tree have a block in common. -/
theorem ValidTree.apart (h : ValidTree v s d b base cap) :
    (extentsUnder v s d b base).Pairwise RecsApart := by
  induction d generalizing b base cap with
  | zero => exact h.2.1
  | succ d ih =>
    rw [extentsUnder_succ, List.pairwise_flatMap]
    refine ⟨fun r hr => ih (h.2.2 r hr).2.2.1, ?_⟩
    refine (ranges_apart h.2.1).imp_of_mem fun {r r'} hr hr' hle e he e' he' hw hw' => ?_
    have hend := ((h.2.2 r hr).2.2.2 e he hw).2
    have hstart := ((h.2.2 r' hr').2.2.2 e' he' hw').1
    exact Or.inl (hend.trans (hle.trans hstart))

theorem ValidTree.ends (h : ValidTree v s d b base cap) {e : Extent}
    (he : e ∈ extentsUnder v s d b base) (hw : Written e) : e.lb + e.len ≤ 2 ^ 32 - 1 := by
  induction d generalizing b base cap with
  | zero => exact h.2.2 e he hw
  | succ d ih =>
    rw [extentsUnder_succ] at he
    obtain ⟨r, hr, he⟩ := List.mem_flatMap.mp he
    exact ih (h.2.2 r hr).2.2.1 he

/-! ## Lookup -/

/-- A scan of records that do not overlap finds the one that has the block. -/
theorem scanRecs_iff (hapart : recs.Pairwise RecsApart)
    (hends : ∀ e ∈ recs, Written e → e.lb + e.len ≤ 2 ^ 32 - 1) :
    (∃ r, scanRecs x recs = .ok r) ∧
      ∀ p, scanRecs x recs = .ok (some p) ↔ ∃ e ∈ recs, MapsAt e x p := by
  induction recs with
  | nil => exact ⟨⟨none, rfl⟩, fun p => ⟨fun h => (nomatch h), fun ⟨_, he, _⟩ => (nomatch he)⟩⟩
  | cons e es ih =>
    obtain ⟨hhead, htail⟩ := List.pairwise_cons.mp hapart
    obtain ⟨hok, hiff⟩ := ih htail fun e' he' => hends e' (List.mem_cons_of_mem _ he')
    rw [scanRecs]
    -- a record that does not have the block is passed over
    have hpass : ¬(Written e ∧ e.lb ≤ x ∧ x < e.lb + e.len) → ∀ p,
        (∃ e' ∈ e :: es, MapsAt e' x p) ↔ ∃ e' ∈ es, MapsAt e' x p := by
      intro hnot p
      constructor
      · rintro ⟨e', he', hw, hlo, hhi, hp⟩
        rcases List.mem_cons.mp he' with rfl | he'
        · exact absurd ⟨hw, hlo, hhi⟩ hnot
        · exact ⟨e', he', hw, hlo, hhi, hp⟩
      · rintro ⟨e', he', hmaps⟩
        exact ⟨e', List.mem_cons_of_mem _ he', hmaps⟩
    by_cases hin : Written e ∧ e.lb ≤ x
    · have hend := hends e List.mem_cons_self hin.1
      rw [if_pos hin, if_neg (by omega)]
      by_cases hlt : x < e.lb + e.len
      · rw [if_pos hlt]
        refine ⟨⟨_, rfl⟩, fun p => ?_⟩
        constructor
        · intro h
          cases h
          exact ⟨e, List.mem_cons_self, hin.1, hin.2, hlt, (Nat.add_sub_assoc hin.2 _).symm⟩
        · rintro ⟨e', he', hw, hlo, hhi, rfl⟩
          rcases List.mem_cons.mp he' with rfl | he'
          · rw [Nat.add_sub_assoc hin.2]
          · rcases hhead e' he' hin.1 hw with h | h <;> omega
      · rw [if_neg hlt]
        exact ⟨hok, fun p => (hiff p).trans (hpass (fun h => hlt h.2.2) p).symm⟩
    · rw [if_neg hin]
      exact ⟨hok, fun p => (hiff p).trans (hpass (fun h => hin ⟨h.1, h.2.1⟩) p).symm⟩

/-- A lookup in a valid tree finds the record that has the block, at every depth. -/
theorem ValidTree.look_iff (h : ValidTree v s d b base cap) (x : ℕ) :
    (∃ r, look v s x d b base = .ok r) ∧
      ∀ p, look v s x d b base = .ok (some p) ↔ ∃ e ∈ extentsUnder v s d b base, MapsAt e x p := by
  induction d generalizing b base cap with
  | zero => exact scanRecs_iff h.2.1 h.2.2
  | succ d ih =>
    obtain ⟨-, hsorted, hkids⟩ := h
    -- a record that has the block is below the entry the block is routed to
    have hroute : ∀ r ∈ ranges (2 ^ 32 - 1) (kidsOf b base), ∀ e ∈ extentsUnder v s d
        (block v s r.2.2) 0, ∀ p, MapsAt e x p → route (2 ^ 32 - 1) x (kidsOf b base) = some r.2.2 := by
      rintro r hr e he p ⟨hw, hlo, hhi, -⟩
      obtain ⟨hstart, hend⟩ := (hkids r hr).2.2.2 e he hw
      exact route_of_range hsorted hr (hstart.trans hlo) (hhi.trans_le hend)
    rw [look, extentsUnder_succ]
    cases hr : route (2 ^ 32 - 1) x (kidsOf b base) with
    | none =>
      refine ⟨⟨none, rfl⟩, fun p => ⟨by rintro ⟨⟩, ?_⟩⟩
      rintro ⟨e, he, hmaps⟩
      obtain ⟨r, hmem, he⟩ := List.mem_flatMap.mp he
      rw [hroute r hmem e he p hmaps] at hr
      cases hr
    | some c =>
      obtain ⟨r, hmem, rfl, -⟩ := range_of_route hr
      obtain ⟨hok, hiff⟩ := ih (hkids r hmem).2.2.1
      refine ⟨hok, fun p => (hiff p).trans ⟨?_, ?_⟩⟩
      · rintro ⟨e, he, hmaps⟩
        exact ⟨e, List.mem_flatMap.mpr ⟨r, hmem, he⟩, hmaps⟩
      · rintro ⟨e, he, hmaps⟩
        obtain ⟨r', hmem', he⟩ := List.mem_flatMap.mp he
        rw [hroute r' hmem' e he p hmaps] at hr
        rw [Option.some.inj hr] at he
        exact ⟨e, he, hmaps⟩

/-! ## Counting -/

/-- The blocks of a record that are found. -/
def writtenBlocks (e : Extent) : List ℕ :=
  if Written e then (List.range e.len).map (e.lb + ·) else []

theorem length_writtenBlocks (e : Extent) : (writtenBlocks e).length = writtenLen e := by
  unfold writtenBlocks writtenLen
  split
  · rw [List.length_map, List.length_range]
  · rfl

theorem mem_writtenBlocks {e : Extent} : x ∈ writtenBlocks e ↔ ∃ p, MapsAt e x p := by
  unfold writtenBlocks
  split
  · rename_i hw
    rw [List.mem_map]
    constructor
    · rintro ⟨k, hk, rfl⟩
      rw [List.mem_range] at hk
      exact ⟨_, hw, Nat.le_add_right _ _, by omega, rfl⟩
    · rintro ⟨p, -, hlo, hhi, -⟩
      exact ⟨x - e.lb, List.mem_range.mpr (by omega), by omega⟩
  · rename_i hw
    exact ⟨fun h => (nomatch h), fun ⟨p, h, _⟩ => absurd h hw⟩

/-- The blocks of records that do not overlap are counted once each. -/
theorem nodup_writtenBlocks (hapart : recs.Pairwise RecsApart) : (recs.flatMap writtenBlocks).Nodup := by
  refine List.pairwise_flatMap.mpr ⟨fun e _ => ?_, hapart.imp fun {e e'} he y hy z hz hyz => ?_⟩
  · unfold writtenBlocks
    split
    · exact List.Nodup.map (fun i j h => Nat.add_left_cancel h) List.nodup_range
    · exact List.nodup_nil
  · subst hyz
    obtain ⟨p, hw, hlo, hhi, -⟩ := mem_writtenBlocks.mp hy
    obtain ⟨p', hw', hlo', hhi', -⟩ := mem_writtenBlocks.mp hz
    rcases he hw hw' with h | h <;> omega

/-- The lengths of the written records of a valid tree add up to the number of blocks found. -/
theorem ValidTree.ncard_eq (h : ValidTree v s d b base cap) :
    Set.ncard {x | x < 2 ^ 32 ∧ ∃ p, look v s x d b base = .ok (some p)} =
      ((extentsUnder v s d b base).map writtenLen).sum := by
  have hset : {x | x < 2 ^ 32 ∧ ∃ p, look v s x d b base = .ok (some p)} =
      ↑((extentsUnder v s d b base).flatMap writtenBlocks).toFinset := by
    ext x
    simp only [Set.mem_ofPred_eq, List.coe_toFinset, List.mem_flatMap, mem_writtenBlocks,
      (h.look_iff x).2]
    constructor
    · rintro ⟨-, p, e, he, hmaps⟩
      exact ⟨e, he, p, hmaps⟩
    · rintro ⟨e, he, p, hmaps⟩
      have hend := h.ends he hmaps.1
      have hlt := hmaps.2.2.1
      exact ⟨by omega, p, e, he, hmaps⟩
  rw [hset, Set.ncard_coe_finset, List.toFinset_card_of_nodup (nodup_writtenBlocks h.apart),
    List.length_flatMap, List.map_congr_left fun e _ => length_writtenBlocks e]

/-! ## Trees of the driver's shape -/

theorem Ascend.apart {hi lo : ℕ} (h : Ascend hi lo recs) : recs.Pairwise RecsApart := by
  induction recs generalizing lo with
  | nil => exact .nil
  | cons e es ih =>
    obtain ⟨-, -, hrest⟩ := h
    exact .cons (fun e' he' _ _ => Or.inl (hrest.bounds he').2.1) (ih hrest)

theorem AscendTable.range {n : ℕ} {table : List (ℕ × List Extent)} (h : AscendTable n table)
    {r : ℕ × ℕ × List Extent} (hr : r ∈ ranges n table) : Ascend r.2.1 r.1 r.2.2 := by
  induction table with
  | nil => cases hr
  | cons entry rest ih =>
    rcases List.mem_cons.mp hr with rfl | hr
    · exact h.1
    · exact ih h.2 hr

theorem AscendTable.sorted {n : ℕ} {table : List (ℕ × List Extent)} (h : AscendTable n table)
    (hfilled : ∀ entry ∈ table, entry.2 ≠ []) : (table.map Prod.fst).Pairwise (· < ·) := by
  induction table using List.reverseRecOn generalizing n with
  | nil => exact .nil
  | append_singleton init last ih =>
    obtain ⟨key, recs⟩ := last
    obtain ⟨hinit, -⟩ := ascendTable_concat.mp h
    have hfilled' := fun entry he => hfilled entry (List.mem_append_left _ he)
    rw [List.map_append, List.map_singleton]
    refine List.pairwise_append.mpr ⟨ih hinit hfilled', .cons (fun _ hm => (nomatch hm)) .nil,
      fun k hk key' hkey => ?_⟩
    rw [List.mem_singleton.mp hkey]
    -- a leaf has a record between its key and the next one
    obtain ⟨entry, he, rfl⟩ := List.mem_map.mp hk
    obtain ⟨e, hmem⟩ := List.exists_mem_of_ne_nil _ (hfilled' entry he)
    obtain ⟨hi, hle, hrecs⟩ := hinit.leaf he
    obtain ⟨⟨hpos, -⟩, hstart, hend⟩ := hrecs.bounds hmem
    show entry.1 < key
    omega

/-- What the driver writes is valid. -/
theorem DriverShape.valid (hv : GeometryOk v) {raw : Bytes} (h : DriverShape v s raw) :
    ValidTree v s (rootDepth raw) raw iblock 4 := by
  have horder := h.order
  have hroom := leafMax_room hv
  have hcap : v.leafMax ≤ nodeCap v := by
    unfold nodeCap
    omega
  rcases h.depth_cases with hhead | hhead
  · rw [(leafTable_flat (v := v) (s := s) hhead).1] at horder
    rw [show rootDepth raw = 0 from hhead.depth]
    exact ⟨⟨hhead.magic, hhead.entries_le.trans hhead.max_le, hhead.depth⟩, horder.1.apart,
      fun e he _ => (horder.1.bounds he).2.2⟩
  · obtain ⟨htable, hnodes⟩ := leafTable_deep (v := v) (s := s) hhead
    have hleaves := h.leaves
    rw [htable] at horder
    rw [hnodes] at hleaves
    have hsorted := horder.sorted fun entry he => by
      obtain ⟨y, hy, rfl⟩ := List.mem_map.mp he
      exact (hleaves y.2 (List.mem_map_of_mem hy)).2.2.filled
    rw [List.map_map] at hsorted
    rw [show rootDepth raw = 1 from hhead.depth]
    refine ⟨⟨hhead.magic, hhead.entries_le.trans hhead.max_le, hhead.depth⟩, hsorted,
      fun r hr => ?_⟩
    obtain ⟨hne, hlt, hleaf⟩ := hleaves r.2.2
      (List.mem_map.mpr ⟨_, mem_of_ranges hr, rfl⟩)
    have hrecs : Ascend r.2.1 r.1 (leafRecs (block v s r.2.2) 0) := by
      have hmem := List.mem_map_of_mem
        (f := fun r : ℕ × ℕ × ℕ => (r.1, r.2.1, leafRecs (block v s r.2.2) 0)) hr
      rw [← ranges_map (2 ^ 32 - 1) (fun c => leafRecs (block v s c) 0)] at hmem
      exact horder.range hmem
    obtain ⟨hi, hle, hin⟩ := horder.leaf (List.mem_map.mpr ⟨_, mem_of_ranges hr, rfl⟩)
    have hhead' := hleaf.head
    refine ⟨hne, readFsb_ok hv hlt, ⟨⟨hhead'.magic,
      (hhead'.entries_le.trans hhead'.max_le).trans hcap, hhead'.depth⟩, hrecs.apart,
      fun e he _ => (hin.bounds he).2.2.trans hle⟩, fun e he _ => (hrecs.bounds he).2⟩

/-! ## The two walks of the driver -/

/-- In a valid tree of any depth `map_block` finds a block exactly if a written record has it, and
`recount_blocks` counts the blocks that are found. -/
theorem lookup_and_recount_agree (hbs : v.bs ≤ maxBlockSize) (inode : Inode)
    (hvalid : ValidTree v s (rootDepth inode.raw) inode.raw iblock 4) :
    (∀ lb, ∃ r, mapBlock v inode lb s = (.ok r, s)) ∧
      (∀ lb p, (mapBlock v inode lb s).1 = .ok (some p) ↔
        ∃ e ∈ extentsUnder v s (rootDepth inode.raw) inode.raw iblock,
          Written e ∧ e.lb ≤ lb ∧ lb < e.lb + e.len ∧ p = e.pb + lb - e.lb) ∧
      recountBlocks v inode s = (.ok (v.bs / 512 *
        Set.ncard {lb | lb < 2 ^ 32 ∧ ∃ p, (mapBlock v inode lb s).1 = .ok (some p)}), s) := by
  have hmagic := hvalid.walkable.head.1
  have hmap : ∀ lb, mapBlock v inode lb s =
      (look v s lb (rootDepth inode.raw) inode.raw iblock, s) := by
    intro lb
    rw [mapBlock_walk hbs fun _ => hvalid.walkable, treeLook, if_pos hmagic]
  refine ⟨fun lb => ?_, fun lb p => ?_, ?_⟩
  · obtain ⟨r, hr⟩ := (hvalid.look_iff lb).1
    exact ⟨r, by rw [hmap, hr]⟩
  · rw [hmap]
    exact (hvalid.look_iff lb).2 p
  · simp only [hmap]
    rw [recountBlocks_eq hbs hmagic hvalid.walkable, hvalid.ncard_eq, Nat.mul_comm]

/-- The tree with the full leaf. -/
theorem lookup_and_recount_leaf :
    (mapBlock plainVolume leafInode 166 (leafState 4)).1 = .ok (some 188) ∧
      recountBlocks plainVolume leafInode (leafState 4) = (.ok (2 * Set.ncard {lb | lb < 2 ^ 32 ∧
        ∃ p, (mapBlock plainVolume leafInode lb (leafState 4)).1 = .ok (some p)}), leafState 4) := by
  obtain ⟨-, hiff, hcount⟩ := lookup_and_recount_agree (v := plainVolume) (s := leafState 4)
    (by decide) leafInode ((shape_leaf 4).valid geometryOk_plain)
  refine ⟨(hiff 166 188).mpr ⟨⟨166, 1, 188⟩, by decide, ⟨by simp, by simp⟩, by simp,
    by simp, by simp⟩, hcount⟩

end Pinx.Analysis
