import Pinx.Analysis.Directories

/-!
# Trees in which no block is mapped twice

Every record that is inserted is for a block that was free before, so no block gets into a
tree a second time: not where a leaf gets one more record, and not where the records of the
root are moved to a leaf or a leaf is split.
-/

namespace Pinx.Analysis

open Pinx.Foundation Pinx.Model

variable {v : Ext4} {L : Layout} {s s' s₁ : FsState} {O O' : ℕ → Option Use} {i lb p : ℕ}
  {raw raw' : Bytes} {inode inode' : Inode} {recs : List Extent} {table table' : List (ℕ × List Extent)}

/-! ## Tables that grow -/

theorem maps_copied_sublist (recs : List Extent) :
    ((recs.map copied).flatMap extentMaps).Sublist (recs.flatMap extentMaps) := by
  induction recs with
  | nil => exact List.Sublist.refl _
  | cons e es ih =>
    rw [List.map_cons, List.flatMap_cons, List.flatMap_cons]
    refine List.Sublist.append ?_ ih
    unfold copied
    split
    · exact List.Sublist.refl _
    · exact List.nil_sublist _

theorem tableMaps_append (xs ys : List (ℕ × List Extent)) :
    tableMaps (xs ++ ys) = tableMaps xs ++ tableMaps ys := List.flatMap_append

theorem tableMaps_one (key : ℕ) (recs : List Extent) :
    tableMaps [(key, recs)] = recs.flatMap extentMaps := List.flatMap_singleton _ _

/-- A table that grows keeps some of its pairs, in their order, and gets the new one. -/
theorem TableGrows.maps_append (h : TableGrows table lb p table') :
    ∃ kept, kept.Sublist (tableMaps table) ∧ tableMaps table' = kept ++ [(lb, p)] := by
  cases h with
  | @put init key recs recs' htable hput =>
    refine ⟨tableMaps table, List.Sublist.refl _, ?_⟩
    rw [htable, tableMaps_append, tableMaps_append, tableMaps_one, tableMaps_one, hput.maps_eq,
      List.append_assoc]
  | @deepen recs recs' htable hput =>
    refine ⟨_, ?_, (tableMaps_one 0 recs').trans hput.maps_eq⟩
    rw [htable, tableMaps_one]
    exact maps_copied_sublist recs
  | @split init key recs recs' htable htwo hput =>
    refine ⟨tableMaps init ++ ((recs.take (recs.length / 2)).flatMap extentMaps ++
      ((recs.drop (recs.length / 2)).map copied).flatMap extentMaps), ?_, ?_⟩
    · have hparts : recs.flatMap extentMaps = (recs.take (recs.length / 2)).flatMap extentMaps ++
          (recs.drop (recs.length / 2)).flatMap extentMaps := by
        rw [← List.flatMap_append, List.take_append_drop]
      rw [htable, tableMaps_append, tableMaps_one, hparts]
      exact (List.Sublist.refl _).append ((List.Sublist.refl _).append (maps_copied_sublist _))
    · rw [tableMaps_append, tableMaps_append, tableMaps_one, tableMaps_one, hput.maps_eq]
      simp only [List.append_assoc]

/-! ## Shallow trees -/

/-- A shallow tree whose leaves are different blocks and in which no block is mapped twice. -/
structure Tidy (v : Ext4) (s : FsState) (raw : Bytes) : Prop where
  magic : HasMagic raw iblock
  shallow : rootDepth raw ≤ 1
  filled : leafTable v s raw ≠ []
  leaves : (leafNodes raw).Nodup
  maps : (tableMaps (leafTable v s raw)).Nodup

theorem Tidy.congr (h : Tidy v s raw) (hc : Covers v s O i raw)
    (hagree : NodeAgree raw raw' iblock iblock 4)
    (hnodes : ∀ n, O n = some (.node i) → block v s' n = block v s n) : Tidy v s' raw' := by
  obtain ⟨htable, hleaves, hdepth, -⟩ := leafTable_agree hc h.magic h.shallow hagree hnodes
  refine ⟨hagree.hasMagic.mp h.magic, ?_, ?_, ?_, ?_⟩
  · rw [hdepth]
    exact h.shallow
  · rw [htable]
    exact h.filled
  · rw [hleaves]
    exact h.leaves
  · rw [htable]
    exact h.maps

/-- The nodes are as they were. -/
theorem Tidy.same (h : Tidy v s raw) (hc : Covers v s O i raw)
    (hnodes : ∀ n, O n = some (.node i) → block v s' n = block v s n) : Tidy v s' raw :=
  h.congr hc (fun _ _ => rfl) hnodes

/-- Bytes that go into another block than the nodes. -/
theorem Tidy.write (h : Tidy v s raw) (hc : Covers v s O i raw) (w : Bytes)
    (hp : O p ≠ some (.node i)) : Tidy v (setBlock v s p w) raw := by
  refine h.same hc fun n hn => block_setBlock_ne ?_
  rintro rfl
  exact hp hn

theorem Tidy.flat (hhead : HeadOk raw iblock 4 0)
    (hmaps : ((leafRecs raw iblock).flatMap extentMaps).Nodup) : Tidy v s raw := by
  obtain ⟨htable, hleaves⟩ := leafTable_flat (v := v) (s := s) hhead
  refine ⟨hhead.magic, ?_, ?_, ?_, ?_⟩
  · rw [show rootDepth raw = 0 from hhead.depth]
    exact Nat.zero_le 1
  · rw [htable]
    exact List.cons_ne_nil _ _
  · rw [hleaves]
    exact List.nodup_nil
  · rw [htable, List.nil_append, tableMaps_one]
    exact hmaps

/-! ## Calls that insert records -/

section Calls

variable (hv : GeometryOk v) (hL : LayoutOk v L) (hgood : Good v L O s)
  (hop : Opened v L O i s inode) (htidy : Tidy v s inode.raw)
include hv hL hgood hop htidy

/-- SOURCE: ext4.rs:944-992 -/
theorem Tidy.insert (hp : Held v L O s p) (hlb : lb < 2 ^ 32)
    (hrun : insertExtent v inode lb p s = (.ok inode', s')) : Tidy v s' inode'.raw := by
  have hused : ∀ n ∈ treeNodes v s inode.raw, IsBlock v n ∧ L.role n = .data ∧ marked v L s n = true :=
    fun n hn => (hgood.used n _ (hop.covers.nodes n hn)).2
  have hends := insertExtent_ends hv hL hgood.toPlaced hlb (hp.isBlock.2.trans_le hv.blocks)
    hop.covers.ok hop.shallow hused
  have hapart : LeavesApart v L s inode.raw :=
    ⟨htidy.leaves, fun n hn => (hused n (mem_treeNodes_leaf htidy.magic htidy.shallow hn)).2⟩
  rw [hrun, show withHeader inode = inode from if_pos htidy.magic] at hends
  have hinserts := hends.inserts hv hL hgood.toPlaced hapart
  refine ⟨hinserts.magic, hinserts.shallow, ?_, hinserts.nodup, ?_⟩
  · intro hnil
    obtain ⟨kept, -, hmaps⟩ := hinserts.grows.maps_append
    rw [hnil] at hmaps
    exact List.append_ne_nil_of_right_ne_nil kept (List.cons_ne_nil _ _) hmaps.symm
  · -- the block was free, so no record of the tree has it
    obtain ⟨kept, hkept, hmaps⟩ := hinserts.grows.maps_append
    have hnew : (lb, p) ∉ kept := by
      intro hmem
      have howner := hop.covers.maps (lb, p)
        (treeMaps_eq_table htidy.magic htidy.shallow ▸ hkept.subset hmem)
      rw [hp.free] at howner
      cases howner
    rw [hmaps]
    exact List.nodup_append.mpr ⟨htidy.maps.sublist hkept, List.nodup_singleton _,
      fun x hx y hy heq => hnew (List.mem_singleton.mp hy ▸ heq ▸ hx)⟩

/-- SOURCE: ext4.rs:1301-1307 -/
theorem openBlock_tidy (hi : InUse v L s i) (hlb : lb < 2 ^ 32) {blk : Bytes}
    (hrun : openBlock v inode lb s = (.ok (inode', blk), s')) : Tidy v s' inode'.raw := by
  unfold openBlock at hrun
  obtain ⟨found, -, hrun⟩ := (reads_mapBlock v inode lb).bind_eq_ok.mp hrun
  cases found with
  | some fsb =>
    obtain ⟨blk', -, hrun⟩ := (reads_readFsb v fsb).bind_eq_ok.mp hrun
    cases hrun
    exact htidy
  | none =>
    obtain ⟨p, s₁, halloc, hrun⟩ := Prog.bind_eq_ok.mp hrun
    obtain ⟨node, s₂, hins, hrun⟩ := Prog.bind_eq_ok.mp hrun
    cases hrun
    have htaken := allocBlock_taken hv hL hgood.placed halloc
    obtain ⟨hstep, hheld⟩ := htaken.step (T := False) hv hL hgood i
    have hgood₁ := (hstep.vol False.elim (Or.inr rfl) ⟨hgood, False.elim⟩).toGood
    refine (htidy.same hop.covers fun n hn => ?_).insert hv hL hgood₁ (hop.step hi.1 hstep) hheld hlb hins
    exact htaken.data_eq (hgood.used n _ hn).2.2.1

/-- SOURCE: ext4.rs:1296-1312 -/
theorem writeTurn_tidy (hi : InUse v L s i) (hfile : (inodeOf v L s i).isDir = false) {cur count : ℕ}
    {bytes : List UInt8} (hrun : writeTurn v inode cur count bytes s = (.ok inode', s')) :
    Tidy v s' inode'.raw := by
  have hvol : Vol v L False O s := ⟨hgood, False.elim⟩
  have hlb : cur / v.bs % 2 ^ 32 < 2 ^ 32 := Nat.mod_lt _ (by omega)
  unfold writeTurn at hrun
  obtain ⟨⟨node, blk⟩, s₁, hopen, hrun⟩ := Prog.bind_eq_ok.mp hrun
  have htidy₁ := openBlock_tidy hv hL hgood hop htidy hi hlb hopen
  obtain ⟨O₁, hstep, hop₁⟩ := (openBlock_works hv hL False.elim hvol hi hop hfile hlb).ok hopen
  obtain ⟨found, hmap, hrun⟩ := (reads_mapBlock v node _).bind_eq_ok.mp hrun
  cases found with
  | none => cases hrun
  | some fsb =>
    rw [mapBlock_eq hv hop₁.covers.ok] at hmap
    have howner := hop₁.covers.maps _ (treeLook_mem (congrArg Prod.fst hmap))
    have hgood₁ := (hstep.vol False.elim (Or.inl hi) hvol).toGood
    dsimp only at hrun
    rw [Prog.bind_ok (writeFsb_ok hv (hgood₁.used fsb _ howner).2.1.2)] at hrun
    cases hrun
    exact htidy₁.write hop₁.covers _ (by rw [howner]; exact nofun)

/-- SOURCE: ext4.rs:1295-1313 -/
theorem writeLoop_tidy (hi : InUse v L s i) (hfile : (inodeOf v L s i).isDir = false) {fuel cur : ℕ}
    {bytes : List UInt8} (hrun : writeLoop v fuel inode cur bytes s = (.ok inode', s')) :
    Tidy v s' inode'.raw := by
  induction fuel generalizing O s inode cur bytes with
  | zero =>
    cases hrun
    exact htidy
  | succ fuel ih =>
    unfold writeLoop at hrun
    by_cases hnil : bytes = []
    · rw [if_pos hnil] at hrun
      cases hrun
      exact htidy
    · rw [if_neg hnil] at hrun
      obtain ⟨node, s₁, hturn, hrun⟩ := Prog.bind_eq_ok.mp hrun
      have hvol : Vol v L False O s := ⟨hgood, False.elim⟩
      obtain ⟨O₁, hstep, hop₁⟩ := (writeTurn_works hv hL False.elim hvol hi hop hfile _ _ _).ok hturn
      have hslot := hstep.touch.slots i hi.1
      exact ih (hstep.vol False.elim (Or.inl hi) hvol).toGood hop₁
        (writeTurn_tidy hv hL hgood hop htidy hi hfile hturn) (hi.congr hslot)
        ((congrArg Inode.isDir (inodeOf_congr hslot)).trans hfile) hrun

end Calls

end Pinx.Analysis
