import Pinx.Analysis.Ext4Insert

/-!
# Extent trees as tables of leaves

A tree of depth at most 1 denotes a table: the first key of each leaf, with the records
of the leaf.  A root that holds records itself is one leaf with key 0.  A lookup is a
function of the table, and an insertion puts one more block into the last leaf, which is
cut in two first if it is full.
-/

namespace Pinx.Analysis

open Pinx.Foundation Pinx.Model

variable {v : Ext4} {L : Layout} {s s' s₁ : FsState} {recs recs' : List Extent}
  {lb p x lo hi key : ℕ}

/-! ## Scanning a list of records -/

theorem scanRecs_append (x : ℕ) (xs ys : List Extent) :
    scanRecs x (xs ++ ys) = match scanRecs x xs with
      | .ok none => scanRecs x ys
      | r => r := by
  induction xs with
  | nil => rfl
  | cons e es ih =>
    rw [List.cons_append, scanRecs, scanRecs]
    split
    · split
      · rfl
      · split
        · rfl
        · exact ih
    · exact ih

/-- A list in front that does not have the block is passed over. -/
theorem scanRecs_skip {xs ys : List Extent} (h : scanRecs x xs = .ok none) :
    scanRecs x (xs ++ ys) = scanRecs x ys := by
  rw [scanRecs_append, h]

theorem scanRecs_none_left {xs ys : List Extent} (h : scanRecs x (xs ++ ys) = .ok none) :
    scanRecs x xs = .ok none := by
  rw [scanRecs_append] at h
  split at h
  · assumption
  · exact h

/-- Records that are not written are not found, so that a copy may leave them out. -/
theorem scanRecs_copied (x : ℕ) (recs : List Extent) :
    scanRecs x (recs.map copied) = scanRecs x recs := by
  induction recs with
  | nil => rfl
  | cons e es ih =>
    rw [List.map_cons, scanRecs, scanRecs, ih]
    by_cases hw : Written e
    · rw [copied, if_pos hw]
    · have hzero : ¬Written ⟨0, 0, 0⟩ := by decide
      rw [copied, if_neg hw, if_neg (fun h => hzero h.1), if_neg (fun h => hw h.1)]

theorem written_one (lb p : ℕ) : Written ⟨lb, 1, p⟩ :=
  ⟨show 0 < 1 by omega, show 1 < 0x8000 by omega⟩

/-- The block goes behind a last record that already has the most blocks a written record
can have. -/
def Brims (recs : List Extent) (lb p : ℕ) : Prop :=
  ∃ e, recs.getLast? = some e ∧ e.len = 0x7FFF ∧ e.lb + 0x7FFF = lb ∧ e.pb + 0x7FFF = p

/-- A record is one block longer and still written, unless it brims. -/
theorem written_longer {init : List Extent} {e : Extent} (hw : Written e) (hend : e.lb + e.len = lb)
    (hpb : e.pb + e.len = p) (hbrim : ¬Brims (init ++ [e]) lb p) :
    Written { e with len := e.len + 1 } := by
  have hlen : e.len ≠ 0x7FFF := fun hlen =>
    hbrim ⟨e, List.getLast?_concat, hlen, by omega, by omega⟩
  unfold Written at hw ⊢
  simp only
  omega

/-- Putting a block into a list changes the place of no other block. -/
theorem Put.scan_other (h : Put recs lb p recs') (hbrim : ¬Brims recs lb p) (hlt : lb + 1 < 2 ^ 32)
    (hx : x ≠ lb) : scanRecs x recs' = scanRecs x recs := by
  cases h with
  | append hmerge =>
    have hone : scanRecs x [⟨lb, 1, p⟩] = .ok none := by
      simp only [scanRecs]
      split
      · rw [if_neg (by omega), if_neg (by omega)]
      · rfl
    rw [scanRecs_append, hone]
    split
    · exact Eq.symm ‹_›
    · rfl
  | @merge init e hrecs hw hend hpb hlt' =>
    subst hrecs
    have hw' := written_longer hw hend hpb hbrim
    have hone : scanRecs x [{ e with len := e.len + 1 }] = scanRecs x [e] := by
      simp only [scanRecs, hw, hw', true_and]
      by_cases hle : e.lb ≤ x
      · rw [if_pos hle, if_pos hle, if_neg (show ¬2 ^ 32 ≤ e.lb + (e.len + 1) by omega),
          if_neg (show ¬2 ^ 32 ≤ e.lb + e.len by omega)]
        have hiff : x < e.lb + (e.len + 1) ↔ x < e.lb + e.len := by omega
        simp only [hiff]
      · rw [if_neg hle, if_neg hle]
    rw [scanRecs_append, scanRecs_append, hone]

/-- A block that was not there is found after it was put into a list. -/
theorem Put.scan_self (h : Put recs lb p recs') (hbrim : ¬Brims recs lb p) (hlt : lb + 1 < 2 ^ 32)
    (hno : scanRecs lb recs = .ok none) : scanRecs lb recs' = .ok (some p) := by
  cases h with
  | append hmerge =>
    rw [scanRecs_skip hno]
    simp only [scanRecs]
    rw [if_pos ⟨written_one lb p, le_refl lb⟩, if_neg (by omega), if_pos (by omega),
      Nat.sub_self, Nat.add_zero]
  | @merge init e hrecs hw hend hpb hlt' =>
    subst hrecs
    rw [scanRecs_skip (scanRecs_none_left hno)]
    simp only [scanRecs]
    rw [if_pos ⟨written_longer hw hend hpb hbrim, by omega⟩, if_neg (by omega), if_pos (by omega)]
    congr 2
    omega

/-! ## Records in ascending order -/

/-- Written records in ascending order, from block `lo` on and up to block `hi`. -/
def Ascend (hi : ℕ) : ℕ → List Extent → Prop
  | lo, [] => lo ≤ hi
  | lo, e :: es => Written e ∧ lo ≤ e.lb ∧ Ascend hi (e.lb + e.len) es

instance decidableAscend (hi : ℕ) : (lo : ℕ) → (recs : List Extent) → Decidable (Ascend hi lo recs)
  | lo, [] => inferInstanceAs (Decidable (lo ≤ hi))
  | lo, e :: es =>
    have := decidableAscend hi (e.lb + e.len) es
    inferInstanceAs (Decidable (Written e ∧ lo ≤ e.lb ∧ Ascend hi (e.lb + e.len) es))

theorem ascend_append {xs ys : List Extent} :
    Ascend hi lo (xs ++ ys) ↔ ∃ mid, Ascend mid lo xs ∧ Ascend hi mid ys := by
  induction xs generalizing lo with
  | nil =>
    constructor
    · exact fun h => ⟨lo, le_refl lo, h⟩
    · rintro ⟨mid, hle, h⟩
      cases ys with
      | nil => exact le_trans hle h
      | cons e es => exact ⟨h.1, le_trans hle h.2.1, h.2.2⟩
  | cons e es ih =>
    constructor
    · rintro ⟨hw, hle, h⟩
      obtain ⟨mid, h₁, h₂⟩ := ih.mp h
      exact ⟨mid, ⟨hw, hle, h₁⟩, h₂⟩
    · rintro ⟨mid, ⟨hw, hle, h₁⟩, h₂⟩
      exact ⟨hw, hle, ih.mpr ⟨mid, h₁, h₂⟩⟩

theorem Ascend.le (h : Ascend hi lo recs) : lo ≤ hi := by
  induction recs generalizing lo with
  | nil => exact h
  | cons e es ih =>
    have := ih h.2.2
    have := h.2.1
    omega

theorem Ascend.bounds (h : Ascend hi lo recs) {e : Extent} (he : e ∈ recs) :
    Written e ∧ lo ≤ e.lb ∧ e.lb + e.len ≤ hi := by
  induction recs generalizing lo with
  | nil => cases he
  | cons e' es ih =>
    rcases List.mem_cons.mp he with rfl | he
    · exact ⟨h.1, h.2.1, h.2.2.le⟩
    · obtain ⟨hw, hle, hhi⟩ := ih h.2.2 he
      have := h.2.1
      exact ⟨hw, by omega, hhi⟩

/-- Ascending records have no block below or above their bounds. -/
theorem Ascend.scan_none (h : Ascend hi lo recs) (hhi : hi < 2 ^ 32) (hx : x < lo ∨ hi ≤ x) :
    scanRecs x recs = .ok none := by
  induction recs generalizing lo with
  | nil => rfl
  | cons e es ih =>
    have hle := h.2.1
    have htail := h.2.2.le
    have hes : scanRecs x es = .ok none := ih h.2.2 (by omega)
    rw [scanRecs, hes]
    by_cases hin : Written e ∧ e.lb ≤ x
    · rw [if_pos hin, if_neg (by omega), if_neg (by omega)]
    · rw [if_neg hin]

/-- Every block of ascending records is found. -/
theorem Ascend.scan_mem (h : Ascend hi lo recs) (hhi : hi < 2 ^ 32)
    (hx : (x, p) ∈ recs.flatMap extentMaps) : scanRecs x recs = .ok (some p) := by
  induction recs generalizing lo with
  | nil => cases hx
  | cons e es ih =>
    obtain ⟨hw, hle, hes⟩ := h
    have htail := hes.le
    rw [List.flatMap_cons, List.mem_append] at hx
    rw [scanRecs]
    rcases hx with hx | hx
    · rw [extentMaps, if_pos (le_of_lt hw.2), List.mem_map] at hx
      obtain ⟨k, hk, heq⟩ := hx
      rw [List.mem_range] at hk
      obtain ⟨rfl, rfl⟩ := Prod.mk.inj heq
      rw [if_pos ⟨hw, by omega⟩, if_neg (by omega), if_pos (by omega)]
      congr 2
      omega
    · have hfound := ih hes hx
      have hlow : e.lb + e.len ≤ x := by
        by_contra hlt
        rw [hes.scan_none hhi (Or.inl (not_le.mp hlt))] at hfound
        cases hfound
      rw [if_pos ⟨hw, by omega⟩, if_neg (by omega), if_neg (by omega), hfound]

theorem Ascend.found_between (h : Ascend hi lo recs) (hhi : hi < 2 ^ 32)
    (hfound : scanRecs x recs = .ok (some p)) : lo ≤ x ∧ x < hi := by
  by_contra hout
  rw [h.scan_none hhi (by omega)] at hfound
  cases hfound

theorem Ascend.copied_eq (h : Ascend hi lo recs) : recs.map copied = recs := by
  refine (List.map_congr_left fun e he => ?_).trans (List.map_id recs)
  exact if_pos (h.bounds he).1

/-- A block at or behind the end keeps the order. -/
theorem Put.ascend (h : Put recs lb p recs') (ha : Ascend hi lo recs) (hle : hi ≤ lb)
    (hbrim : ¬Brims recs lb p) : Ascend (lb + 1) lo recs' := by
  cases h with
  | append hmerge =>
    refine ascend_append.mpr ⟨hi, ha, written_one lb p, hle, ?_⟩
    exact le_refl (lb + 1)
  | @merge init e hrecs hw hend hpb hlt' =>
    subst hrecs
    obtain ⟨mid, hinit, -, hmid, -⟩ := ascend_append.mp ha
    have hw' := written_longer hw hend hpb hbrim
    refine ascend_append.mpr ⟨mid, hinit, hw', hmid, ?_⟩
    show e.lb + (e.len + 1) ≤ lb + 1
    omega

/-! ## Tables -/

/-- The leaves of a tree of depth at most 1, with their first keys. -/
def leafTable (v : Ext4) (s : FsState) (raw : Bytes) : List (ℕ × List Extent) :=
  if rootDepth raw = 0 then [(0, leafRecs raw iblock)]
  else (kidsOf raw iblock).map fun x => (x.1, leafRecs (block v s x.2) 0)

/-- A lookup in a table whose last leaf reaches up to `top`. -/
def lookTable (top x : ℕ) (table : List (ℕ × List Extent)) : Except FsFail (Option ℕ) :=
  match route top x table with
  | none => .ok none
  | some recs => scanRecs x recs

/-- All blocks but the last one a number exists for are looked up in the table. -/
theorem treeLook_eq_table {raw : Bytes} (hmagic : HasMagic raw iblock) (hdepth : rootDepth raw ≤ 1)
    (hx : x < 2 ^ 32 - 1) : treeLook v s raw x = lookTable (2 ^ 32 - 1) x (leafTable v s raw) := by
  unfold treeLook leafTable lookTable
  rw [if_pos hmagic]
  by_cases hzero : rootDepth raw = 0
  · rw [if_pos hzero, hzero, look, route, if_pos ⟨Nat.zero_le x, hx⟩]
  · rw [if_neg hzero, show rootDepth raw = 1 by omega, look,
      route_map fun c => leafRecs (block v s c) 0]
    cases route (2 ^ 32 - 1) x (kidsOf raw iblock) with
    | none => rfl
    | some c => rfl

/-- The blocks the leaves of a tree of depth at most 1 are in. -/
def leafNodes (raw : Bytes) : List ℕ :=
  if rootDepth raw = 0 then [] else (kidsOf raw iblock).map Prod.snd

/-- The records the last leaf holds; a root becomes a leaf when it is full. -/
def lastCap (v : Ext4) (s : FsState) (raw : Bytes) : ℕ :=
  if rootDepth raw = 0 then v.leafMax
  else match (kidsOf raw iblock).getLast? with
    | some x => (hdrOf (block v s x.2) 0).max
    | none => 0

/-- The table of a tree is a matter of its root and the blocks of its leaves. -/
theorem leafTable_congr {raw raw' : Bytes} {d : ℕ} (h : NodeAgree raw raw' iblock iblock 4)
    (hok : HeadOk raw iblock 4 d) (hblocks : ∀ n ∈ leafNodes raw, block v s' n = block v s n) :
    leafTable v s' raw' = leafTable v s raw ∧ leafNodes raw' = leafNodes raw ∧
      rootDepth raw' = rootDepth raw ∧ lastCap v s' raw' = lastCap v s raw := by
  obtain ⟨hrecs, hkids⟩ := node_agree h hok
  have hdepth : rootDepth raw' = rootDepth raw := by
    unfold rootDepth
    rw [h.hdrOf_eq]
  unfold leafNodes at hblocks
  unfold leafTable leafNodes lastCap
  rw [hdepth, hrecs, hkids]
  refine ⟨?_, rfl, rfl, ?_⟩
  · split
    · rfl
    · rename_i hdeep
      rw [if_neg hdeep] at hblocks
      refine List.map_congr_left fun x hx => ?_
      rw [hblocks x.2 (List.mem_map_of_mem hx)]
  · split
    · rfl
    · rename_i hdeep
      rw [if_neg hdeep] at hblocks
      split
      · rename_i x hlast
        rw [hblocks x.2 (List.mem_map_of_mem (List.mem_of_getLast? hlast))]
      · rfl

/-- The records of each leaf ascend from its key up to the next one, and the last ones
up to `n`. -/
def AscendTable (n : ℕ) : List (ℕ × List Extent) → Prop
  | [] => True
  | (key, recs) :: rest => Ascend (nextKey n rest) key recs ∧ AscendTable n rest

instance decidableAscendTable (n : ℕ) :
    (table : List (ℕ × List Extent)) → Decidable (AscendTable n table)
  | [] => inferInstanceAs (Decidable True)
  | (key, recs) :: rest =>
    have := decidableAscendTable n rest
    inferInstanceAs (Decidable (Ascend (nextKey n rest) key recs ∧ AscendTable n rest))

variable {init table table' : List (ℕ × List Extent)} {n top : ℕ}

theorem ascendTable_concat :
    AscendTable n (init ++ [(key, recs)]) ↔ AscendTable key init ∧ Ascend n key recs := by
  induction init with
  | nil => exact ⟨fun h => ⟨trivial, h.1⟩, fun h => ⟨h.2, trivial⟩⟩
  | cons entry rest ih =>
    rw [List.cons_append, AscendTable, AscendTable, nextKey_concat, ih, and_assoc]

theorem AscendTable.keys_le (h : AscendTable n table) : ∀ entry ∈ table, entry.1 ≤ n := by
  induction table using List.reverseRecOn generalizing n with
  | nil => exact fun _ he => nomatch he
  | append_singleton init last ih =>
    obtain ⟨key, recs⟩ := last
    obtain ⟨hinit, hlast⟩ := ascendTable_concat.mp h
    intro entry he
    rcases List.mem_append.mp he with he | he
    · exact (ih hinit entry he).trans hlast.le
    · rw [List.mem_singleton.mp he]
      exact hlast.le

/-- Every leaf of a table in order is in order. -/
theorem AscendTable.leaf (h : AscendTable n table) (hmem : (key, recs) ∈ table) :
    ∃ hi ≤ n, Ascend hi key recs := by
  induction table using List.reverseRecOn generalizing n with
  | nil => cases hmem
  | append_singleton init last ih =>
    obtain ⟨key', recs'⟩ := last
    obtain ⟨hinit, hlast⟩ := ascendTable_concat.mp h
    rcases List.mem_append.mp hmem with hmem | hmem
    · obtain ⟨hi, hle, hrecs⟩ := ih hinit hmem
      exact ⟨hi, hle.trans hlast.le, hrecs⟩
    · cases List.mem_singleton.mp hmem
      exact ⟨n, le_refl n, hlast⟩

/-- A lookup goes to the last leaf from its key on, and to the leaves before it below. -/
theorem lookTable_concat (hkeys : ∀ entry ∈ init, entry.1 ≤ key) (htop : x < top) :
    lookTable top x (init ++ [(key, recs)]) =
      if key ≤ x then scanRecs x recs else lookTable key x init := by
  unfold lookTable
  rw [route_concat]
  by_cases hle : key ≤ x
  · rw [if_pos hle, route_eq_none hle fun entry he => (hkeys entry he).trans hle,
      if_pos ⟨hle, htop⟩]
    rfl
  · rw [if_neg hle, if_neg (fun h => hle h.1), Option.or_none]

/-- What a lookup finds is a matter of the leaf it goes to. -/
theorem lookTable_last (h : scanRecs x recs' = scanRecs x recs) :
    lookTable top x (init ++ [(key, recs')]) = lookTable top x (init ++ [(key, recs)]) := by
  unfold lookTable
  rw [route_concat, route_concat]
  cases route key x init with
  | some a => rfl
  | none =>
    rw [Option.none_or, Option.none_or]
    split
    · rename_i hnone
      split at hnone
      · cases hnone
      · rename_i hout
        rw [if_neg hout]
    · rename_i hsome
      split at hsome
      · rename_i hin
        cases hsome
        rw [if_pos hin]
        exact h
      · cases hsome

/-- The logical blocks the leaves of a table map, and where they are. -/
def tableMaps (table : List (ℕ × List Extent)) : List (ℕ × ℕ) :=
  table.flatMap fun entry => entry.2.flatMap extentMaps

theorem mem_tableMaps {y : ℕ × ℕ} :
    y ∈ tableMaps table ↔ ∃ entry ∈ table, y ∈ entry.2.flatMap extentMaps :=
  List.mem_flatMap

theorem tableMaps_concat {y : ℕ × ℕ} : y ∈ tableMaps (init ++ [(key, recs)]) ↔
    y ∈ tableMaps init ∨ y ∈ recs.flatMap extentMaps := by
  simp only [tableMaps, List.flatMap_append, List.flatMap_singleton, List.mem_append]

theorem lookTable_mem (h : lookTable top x table = .ok (some p)) : (x, p) ∈ tableMaps table := by
  unfold lookTable at h
  split at h
  · cases h
  · rename_i recs hroute
    obtain ⟨first, hmem⟩ := mem_of_route hroute
    exact mem_tableMaps.mpr ⟨(first, recs), hmem, scanRecs_mem h⟩

/-- What a table in order maps is found. -/
theorem AscendTable.look_mem (h : AscendTable n table) (hn : n < 2 ^ 32) (htop : n ≤ top)
    (hx : (x, p) ∈ tableMaps table) : x < n ∧ lookTable top x table = .ok (some p) := by
  induction table using List.reverseRecOn generalizing n top with
  | nil => cases hx
  | append_singleton init last ih =>
    obtain ⟨key, recs⟩ := last
    obtain ⟨hinit, hlast⟩ := ascendTable_concat.mp h
    have hkey := hlast.le
    rcases tableMaps_concat.mp hx with hx | hx
    · obtain ⟨hlt, hfound⟩ := ih hinit (by omega) (le_refl key) hx
      refine ⟨by omega, ?_⟩
      rw [lookTable_concat (fun entry he => hinit.keys_le entry he) (by omega), if_neg (by omega)]
      exact hfound
    · have hfound := hlast.scan_mem hn hx
      obtain ⟨hle, hlt⟩ := hlast.found_between hn hfound
      refine ⟨hlt, ?_⟩
      rw [lookTable_concat (fun entry he => hinit.keys_le entry he) (by omega), if_pos hle]
      exact hfound

/-- Nothing is found at or behind the end of a table in order. -/
theorem AscendTable.look_none (h : AscendTable n table) (hn : n < 2 ^ 32) (hx : n ≤ x) :
    lookTable top x table = .ok none := by
  induction table using List.reverseRecOn generalizing n with
  | nil => rfl
  | append_singleton init last ih =>
    obtain ⟨key, recs⟩ := last
    obtain ⟨hinit, hlast⟩ := ascendTable_concat.mp h
    have hkey := hlast.le
    by_cases htop : x < top
    · rw [lookTable_concat (fun entry he => hinit.keys_le entry he) htop, if_pos (by omega)]
      exact hlast.scan_none hn (Or.inr hx)
    · unfold lookTable
      rw [route_concat, route_eq_none (hkey.trans hx)
        fun entry he => (hinit.keys_le entry he).trans (hkey.trans hx), if_neg (fun h => htop h.2)]
      rfl

/-- The blocks a shallow tree maps are those of its table. -/
theorem treeMaps_eq_table {raw : Bytes} (hmagic : HasMagic raw iblock) (hdepth : rootDepth raw ≤ 1) :
    treeMaps v s raw = tableMaps (leafTable v s raw) := by
  unfold treeMaps leafTable tableMaps
  rw [if_pos hmagic]
  rcases Nat.le_one_iff_eq_zero_or_eq_one.mp hdepth with hroot | hroot
  · rw [hroot, if_pos rfl, List.flatMap_singleton]
    rfl
  · rw [hroot, if_neg Nat.one_ne_zero, List.flatMap_map]
    rfl

/-- The nodes below the root of a shallow tree are its leaves. -/
theorem treeNodes_eq_leaves {raw : Bytes} (hmagic : HasMagic raw iblock) (hdepth : rootDepth raw ≤ 1) :
    treeNodes v s raw = leafNodes raw := by
  unfold treeNodes leafNodes
  rw [if_pos hmagic]
  rcases Nat.le_one_iff_eq_zero_or_eq_one.mp hdepth with hroot | hroot
  · rw [hroot, if_pos rfl]
    rfl
  · rw [hroot, if_neg Nat.one_ne_zero, List.map_eq_flatMap]
    rfl

/-! ## Insertion into a table -/

/-- One more block in a table: in the last leaf, in the leaf a full root became, or in the
upper half of a last leaf that was cut in two. -/
inductive TableGrows (table : List (ℕ × List Extent)) (lb p : ℕ) : List (ℕ × List Extent) → Prop
  | put {init : List (ℕ × List Extent)} {key : ℕ} {recs recs' : List Extent}
      (htable : table = init ++ [(key, recs)]) (hput : Put recs lb p recs') :
      TableGrows table lb p (init ++ [(key, recs')])
  | deepen {recs recs' : List Extent} (htable : table = [(0, recs)])
      (hput : Put (recs.map copied) lb p recs') : TableGrows table lb p [(0, recs')]
  | split {init : List (ℕ × List Extent)} {key : ℕ} {recs recs' : List Extent}
      (htable : table = init ++ [(key, recs)]) (htwo : 2 ≤ recs.length)
      (hput : Put ((recs.drop (recs.length / 2)).map copied) lb p recs') :
      TableGrows table lb p
        (init ++ [(key, recs.take (recs.length / 2))] ++ [(splitKey recs, recs')])

/-- The table with one more block, if its last leaf holds up to `cap` records.
SOURCE: ext4.rs:956-991, 1008-1055 -/
def growTable (cap : ℕ) (table : List (ℕ × List Extent)) (lb p : ℕ) : List (ℕ × List Extent) :=
  match table.getLast? with
  | none => []
  | some (key, recs) => table.dropLast ++ match mergeRecs recs lb p with
    | .ok none =>
      if recs.length < cap then [(key, putRecs recs lb p)]
      else [(key, recs.take (recs.length / 2)),
        (splitKey recs, putRecs ((recs.drop (recs.length / 2)).map copied) lb p)]
    | _ => [(key, putRecs recs lb p)]

/-- A last leaf with room takes the block. -/
theorem growTable_put {cap : ℕ} (hroom : mergeRecs recs lb p = .ok none → recs.length < cap) :
    growTable cap (init ++ [(key, recs)]) lb p = init ++ [(key, putRecs recs lb p)] := by
  unfold growTable
  rw [List.getLast?_concat, List.dropLast_concat]
  dsimp only
  split
  · rename_i hno
    rw [if_pos (hroom hno)]
  · rfl

/-- A full last leaf is cut in two. -/
theorem growTable_split {cap : ℕ} (hno : mergeRecs recs lb p = .ok none) (hfull : cap ≤ recs.length) :
    growTable cap (init ++ [(key, recs)]) lb p = init ++ [(key, recs.take (recs.length / 2))] ++
      [(splitKey recs, putRecs ((recs.drop (recs.length / 2)).map copied) lb p)] := by
  unfold growTable
  rw [List.getLast?_concat, List.dropLast_concat]
  dsimp only
  rw [hno]
  dsimp only
  rw [if_neg (not_lt.mpr hfull), List.append_assoc]
  rfl

/-- Whether a block is merged is a matter of the records that are written. -/
theorem mergeRecs_copied (recs : List Extent) (lb p : ℕ) :
    mergeRecs (recs.map copied) lb p = mergeRecs recs lb p := by
  unfold mergeRecs
  rw [List.getLast?_map]
  cases recs.getLast? with
  | none => rfl
  | some e =>
    have hzero : ¬Written ⟨0, 0, 0⟩ := by decide
    simp only [Option.map_some, copied]
    by_cases hw : Written e
    · simp only [if_pos hw]
    · simp only [if_neg hw, if_neg hzero]

/-- One more block in a list of records maps nothing else that is new. -/
theorem putRecs_maps {y : ℕ × ℕ} (hy : y ∈ (putRecs recs lb p).flatMap extentMaps) :
    y ∈ recs.flatMap extentMaps ∨ y = (lb, p) := by
  unfold putRecs at hy
  split at hy
  · rename_i hmerge
    obtain ⟨init, e₀, rfl, hw, hend, hpb, hlt, rfl⟩ := mergeRecs_some hmerge
    rw [List.dropLast_concat] at hy
    exact (Put.merge rfl hw hend hpb hlt).maps hy
  · rw [List.flatMap_append, List.mem_append] at hy
    exact hy.imp_right fun hy => List.mem_singleton.mp hy

/-- The blocks of a copy with one more block are found where they are in the list itself. -/
theorem scan_putRecs_copied (x lb p : ℕ) (recs : List Extent) :
    scanRecs x (putRecs (recs.map copied) lb p) = scanRecs x (putRecs recs lb p) := by
  unfold putRecs
  rw [mergeRecs_copied]
  split
  · rw [scanRecs_append, scanRecs_append, ← List.map_dropLast, scanRecs_copied]
  · rw [scanRecs_append, scanRecs_append, scanRecs_copied]

/-- The table with one more block maps nothing else that is new. -/
theorem growTable_maps {cap : ℕ} {y : ℕ × ℕ} (hy : y ∈ tableMaps (growTable cap table lb p)) :
    y ∈ tableMaps table ∨ y = (lb, p) := by
  rcases List.eq_nil_or_concat table with rfl | ⟨init, ⟨key, recs⟩, rfl⟩
  · cases hy
  · rw [List.concat_eq_append] at hy ⊢
    rw [tableMaps_concat, or_assoc]
    by_cases hroom : mergeRecs recs lb p = .ok none → recs.length < cap
    · rw [growTable_put hroom] at hy
      exact (tableMaps_concat.mp hy).imp_right putRecs_maps
    · obtain ⟨hno, hfull⟩ := Classical.not_imp.mp hroom
      rw [growTable_split hno (not_lt.mp hfull)] at hy
      rcases tableMaps_concat.mp hy with hold | hnew
      · exact (tableMaps_concat.mp hold).imp_right fun hlow =>
          Or.inl (maps_sub (fun _ => List.mem_of_mem_take) hlow)
      · exact Or.inr ((putRecs_maps hnew).imp_left fun hup =>
          maps_sub (fun _ => List.mem_of_mem_drop) (maps_copied hup))

/-- A block that does not meet an overlong record is put. -/
theorem put_putRecs {r : Option Extent} (h : mergeRecs recs lb p = .ok r) :
    Put recs lb p (putRecs recs lb p) := by
  unfold putRecs
  rw [h]
  cases r with
  | none => exact .append h
  | some e =>
    obtain ⟨init, e₀, rfl, hw, hend, hpb, hlt, rfl⟩ := mergeRecs_some h
    rw [List.dropLast_concat]
    exact .merge rfl hw hend hpb hlt

/-- The table grows to the table with one more block. -/
theorem growTable_grows {cap : ℕ} {r : Option Extent} (h : mergeRecs recs lb p = .ok r)
    (hroom : 2 ≤ recs.length ∨ recs.length < cap) :
    TableGrows (init ++ [(key, recs)]) lb p (growTable cap (init ++ [(key, recs)]) lb p) := by
  by_cases hput : mergeRecs recs lb p = .ok none → recs.length < cap
  · rw [growTable_put hput]
    exact .put rfl (put_putRecs h)
  · obtain ⟨hno, hfull⟩ := Classical.not_imp.mp hput
    have hlast : ((recs.drop (recs.length / 2)).map copied).getLast? = (recs.map copied).getLast? := by
      rw [List.getLast?_map, List.getLast?_map, List.getLast?_drop, if_neg (by omega)]
    have hno' : mergeRecs ((recs.drop (recs.length / 2)).map copied) lb p = .ok none := by
      rw [← hno, ← mergeRecs_copied recs]
      unfold mergeRecs
      rw [hlast]
    rw [growTable_split hno (not_lt.mp hfull)]
    exact .split rfl (by omega) (put_putRecs hno')

/-- The last leaf of a table brims. -/
def BrimsAt (table : List (ℕ × List Extent)) (lb p : ℕ) : Prop :=
  ∃ entry, table.getLast? = some entry ∧ Brims entry.2 lb p

theorem brimsAt_concat : BrimsAt (init ++ [(key, recs)]) lb p ↔ Brims recs lb p := by
  unfold BrimsAt
  rw [List.getLast?_concat]
  exact ⟨fun ⟨_, heq, h⟩ => by cases heq; exact h, fun h => ⟨_, rfl, h⟩⟩

theorem brims_drop {k : ℕ} (hk : k < recs.length) : Brims (recs.drop k) lb p ↔ Brims recs lb p := by
  unfold Brims
  rw [List.getLast?_drop, if_neg (by omega)]

/-- What a block put into the last leaf of an ordered table does to lookups. -/
theorem look_put (ha : AscendTable n (init ++ [(key, recs)])) (hput : Put recs lb p recs')
    (hn : n ≤ lb) (hlt : lb + 1 < 2 ^ 32) (hbrim : ¬Brims recs lb p) :
    AscendTable (lb + 1) (init ++ [(key, recs')]) ∧ ∀ x < 2 ^ 32 - 1,
      lookTable (2 ^ 32 - 1) x (init ++ [(key, recs')]) =
        if x = lb then .ok (some p) else lookTable (2 ^ 32 - 1) x (init ++ [(key, recs)]) := by
  obtain ⟨hinit, hrecs⟩ := ascendTable_concat.mp ha
  have hkey := hrecs.le
  have hkeys := hinit.keys_le
  have hno : scanRecs lb recs = .ok none := hrecs.scan_none (by omega) (Or.inr hn)
  refine ⟨ascendTable_concat.mpr ⟨hinit, hput.ascend hrecs hn hbrim⟩, fun x hx => ?_⟩
  rw [lookTable_concat hkeys hx, lookTable_concat hkeys hx]
  by_cases heq : x = lb
  · rw [if_pos heq, heq, if_pos (by omega)]
    exact hput.scan_self hbrim hlt hno
  · rw [if_neg heq, hput.scan_other hbrim hlt heq]

/-- Cutting the last leaf of an ordered table in two changes no lookup. -/
theorem look_split (top : ℕ) (ha : AscendTable n (init ++ [(key, recs)])) (htwo : 2 ≤ recs.length)
    (hn : n < 2 ^ 32) :
    AscendTable n (init ++ [(key, recs.take (recs.length / 2))] ++
        [(splitKey recs, recs.drop (recs.length / 2))]) ∧
      ∀ x < top, lookTable top x (init ++ [(key, recs.take (recs.length / 2))] ++
        [(splitKey recs, recs.drop (recs.length / 2))]) =
          lookTable top x (init ++ [(key, recs)]) := by
  obtain ⟨hinit, hrecs⟩ := ascendTable_concat.mp ha
  have hhalf : recs.length / 2 < recs.length := by omega
  -- the key of the upper half is its first block
  have hdrop : recs.drop (recs.length / 2) =
      recs[recs.length / 2] :: recs.drop (recs.length / 2 + 1) := List.drop_eq_getElem_cons hhalf
  have hkey : splitKey recs = recs[recs.length / 2].lb := by
    unfold splitKey
    rw [List.getElem?_eq_getElem hhalf]
    exact congrArg Extent.lb (if_pos (hrecs.bounds (List.getElem_mem hhalf)).1)
  have hcut := hrecs
  rw [← List.take_append_drop (recs.length / 2) recs] at hcut
  obtain ⟨mid, hlower, hupper⟩ := ascend_append.mp hcut
  have hmid : mid ≤ splitKey recs := by
    rw [hdrop] at hupper
    rw [hkey]
    exact hupper.2.1
  have hlower' : Ascend (splitKey recs) key (recs.take (recs.length / 2)) := by
    have h : Ascend (splitKey recs) key (recs.take (recs.length / 2) ++ []) :=
      ascend_append.mpr ⟨mid, hlower, hmid⟩
    rwa [List.append_nil] at h
  have hupper' : Ascend n (splitKey recs) (recs.drop (recs.length / 2)) := by
    rw [hdrop] at hupper ⊢
    exact ⟨hupper.1, le_of_eq hkey, hupper.2.2⟩
  have hlower'' : AscendTable (splitKey recs) (init ++ [(key, recs.take (recs.length / 2))]) :=
    ascendTable_concat.mpr ⟨hinit, hlower'⟩
  refine ⟨ascendTable_concat.mpr ⟨hlower'', hupper'⟩, fun x hx => ?_⟩
  have hle := hlower'.le
  have hend := hupper'.le
  rw [lookTable_concat hlower''.keys_le hx, lookTable_concat hinit.keys_le hx]
  by_cases hup : splitKey recs ≤ x
  · have hnone : scanRecs x (recs.take (recs.length / 2)) = .ok none :=
      hlower'.scan_none (by omega) (Or.inr hup)
    have hsplit : scanRecs x (recs.take (recs.length / 2) ++ recs.drop (recs.length / 2)) =
        scanRecs x (recs.drop (recs.length / 2)) := scanRecs_skip hnone
    rw [List.take_append_drop] at hsplit
    rw [if_pos hup, if_pos (by omega), hsplit]
  · have hnone : scanRecs x (recs.drop (recs.length / 2)) = .ok none :=
      hupper'.scan_none hn (Or.inl (by omega))
    have hsplit := scanRecs_append x (recs.take (recs.length / 2)) (recs.drop (recs.length / 2))
    rw [List.take_append_drop, hnone] at hsplit
    rw [if_neg hup, lookTable_concat hinit.keys_le (by omega), hsplit]
    by_cases hin : key ≤ x
    · rw [if_pos hin, if_pos hin]
      split
      · assumption
      · rfl
    · rw [if_neg hin, if_neg hin]

/-- What an insertion at or behind the end of an ordered table does to lookups. -/
theorem TableGrows.look (h : TableGrows table lb p table') (ha : AscendTable n table) (hn : n ≤ lb)
    (hlt : lb + 1 < 2 ^ 32) (hbrim : ¬BrimsAt table lb p) :
    AscendTable (lb + 1) table' ∧ ∀ x < 2 ^ 32 - 1, lookTable (2 ^ 32 - 1) x table' =
      if x = lb then .ok (some p) else lookTable (2 ^ 32 - 1) x table := by
  cases h with
  | put htable hput =>
    subst htable
    exact look_put ha hput hn hlt (brimsAt_concat.not.mp hbrim)
  | @deepen recs recs' htable hput =>
    have htable' : table = [] ++ [(0, recs)] := htable
    subst htable'
    rw [ha.1.copied_eq] at hput
    exact look_put ha hput hn hlt (brimsAt_concat.not.mp hbrim)
  | @split init key recs recs' htable htwo hput =>
    subst htable
    obtain ⟨ha', hsame⟩ := look_split (2 ^ 32 - 1) ha htwo (by omega)
    obtain ⟨-, hupper⟩ := ascendTable_concat.mp ha'
    rw [hupper.copied_eq] at hput
    rw [brimsAt_concat, ← brims_drop (show recs.length / 2 < recs.length by omega)] at hbrim
    obtain ⟨hasc, hlook⟩ := look_put ha' hput hn hlt hbrim
    refine ⟨hasc, fun x hx => ?_⟩
    rw [hlook x hx, hsame x hx]

/-! ## Insertion into a tree -/

/-- The leaves of a tree are in blocks of their own that are in use. -/
structure LeavesApart (v : Ext4) (L : Layout) (s : FsState) (raw : Bytes) : Prop where
  nodup : (leafNodes raw).Nodup
  used : ∀ n ∈ leafNodes raw, L.role n = .data ∧ marked v L s n = true

/-- An insertion that went well, on the table of the tree and on everything else. -/
structure Inserts (v : Ext4) (L : Layout) (s : FsState) (inode : Inode) (lb p : ℕ) (inode' : Inode)
    (s' : FsState) : Prop where
  grows : TableGrows (leafTable v s inode.raw) lb p (leafTable v s' inode'.raw)
  look : ∀ top x, lookTable top x (leafTable v s' inode'.raw) =
    lookTable top x (growTable (lastCap v s inode.raw) (leafTable v s inode.raw) lb p)
  magic : HasMagic inode'.raw iblock
  shallow : rootDepth inode'.raw ≤ 1
  nodup : (leafNodes inode'.raw).Nodup
  same : inode' = { inode with raw := inode'.raw }
  around : SameAround inode.raw inode'.raw
  data : ∀ b, L.role b = .data → marked v L s b = true → b ∉ leafNodes inode.raw →
    block v s' b = block v s b

theorem leafTable_flat {raw : Bytes} (hhead : HeadOk raw iblock 4 0) :
    leafTable v s raw = [] ++ [(0, leafRecs raw iblock)] ∧ leafNodes raw = [] :=
  ⟨if_pos hhead.depth, if_pos hhead.depth⟩

theorem leafTable_deep {raw : Bytes} (hhead : HeadOk raw iblock 4 1) :
    leafTable v s raw = (kidsOf raw iblock).map (fun x => (x.1, leafRecs (block v s x.2) 0)) ∧
      leafNodes raw = (kidsOf raw iblock).map Prod.snd := by
  have hdepth : ¬rootDepth raw = 0 := by
    unfold rootDepth
    rw [hhead.depth]
    omega
  exact ⟨if_neg hdepth, if_neg hdepth⟩

theorem lastCap_flat {raw : Bytes} (hhead : HeadOk raw iblock 4 0) : lastCap v s raw = v.leafMax :=
  if_pos hhead.depth

theorem lastCap_deep {raw : Bytes} {first c : ℕ} (hhead : HeadOk raw iblock 4 1)
    (hlast : (kidsOf raw iblock).getLast? = some (first, c)) :
    lastCap v s raw = (hdrOf (block v s c) 0).max := by
  have hdepth : ¬rootDepth raw = 0 := by
    unfold rootDepth
    rw [hhead.depth]
    omega
  rw [lastCap, if_neg hdepth, hlast]

/-- The records of a root are few. -/
theorem root_short (hv : GeometryOk v) {raw : Bytes} (hhead : HeadOk raw iblock 4 0) :
    (leafRecs raw iblock).length < lastCap v s raw := by
  have hle := hhead.entries_le
  have hcap := hhead.max_le
  rw [lastCap_flat hhead, leafRecs, length_recordsOf]
  unfold Ext4.leafMax
  obtain h | h | h := hv.bs <;> omega

/-- Leaves whose blocks are as they were have the records they had. -/
theorem leaves_congr {kids : List (ℕ × ℕ)}
    (h : ∀ n ∈ kids.map Prod.snd, block v s' n = block v s n) :
    kids.map (fun x => (x.1, leafRecs (block v s' x.2) 0)) =
      kids.map fun x => (x.1, leafRecs (block v s x.2) 0) := by
  refine List.map_congr_left fun x hx => ?_
  rw [h x.2 (List.mem_map_of_mem hx)]

section Inserts

variable (hv : GeometryOk v) (hL : LayoutOk v L) (hs : Placed v L s) {inode : Inode}
include hv hL hs

theorem inserts_deepened {q : ℕ} (hhead : HeadOk inode.raw iblock 4 0)
    (hdeep : Deepened v L inode q s s₁) (hput : LeafPut v inode.ino inode.gen q lb p s₁ s') :
    Inserts v L s inode lb p (deepRoot inode q) s' := by
  obtain ⟨htouch, hrole, hisBlock, -, hfree, -⟩ := hdeep.touches hv hL hs
  have htouch' := hput.touches hv hL hrole
  obtain ⟨hhead', hkids, haround⟩ := deepRoot_kids hhead (hisBlock.2.trans_le hv.blocks)
  obtain ⟨htable, hnodes⟩ := leafTable_flat (v := v) (s := s) hhead
  obtain ⟨htable', hnodes'⟩ := leafTable_deep (v := v) (s := s') hhead'
  obtain ⟨recs, hrecs, hleaf⟩ := hput.put
  rw [hdeep.leaf.recs_eq] at hrecs
  refine ⟨?_, fun top x => ?_, hhead'.magic, le_of_eq hhead'.depth, ?_, rfl, haround,
    fun b hb hmark _ => ?_⟩
  · rw [htable, htable', hkids, List.map_singleton, hleaf.recs_eq]
    exact .deepen rfl hrecs
  · rw [htable, htable', hkids, List.map_singleton, hleaf.recs_eq, hrecs.eq,
      growTable_put fun _ => root_short hv hhead]
    show lookTable top x ([] ++ [_]) = lookTable top x ([] ++ [_])
    exact lookTable_last (scan_putRecs_copied x lb p _)
  · rw [hnodes', hkids]
    exact List.nodup_singleton q
  · have hne : b ≠ q := by
      rintro rfl
      rw [hfree] at hmark
      cases hmark
    rw [htouch'.other b hb hne, htouch.other b hb hne]

omit hs in
theorem inserts_leaf {c first : ℕ} (hapart : LeavesApart v L s inode.raw)
    (htree : TreeOk v s 1 inode.raw iblock 4)
    (hlast : (kidsOf inode.raw iblock).getLast? = some (first, c))
    (hput : LeafPut v inode.ino inode.gen c lb p s s') : Inserts v L s inode lb p inode s' := by
  obtain ⟨htable, hnodes⟩ := leafTable_deep (v := v) (s := s) htree.headOk
  obtain ⟨htable', -⟩ := leafTable_deep (v := v) (s := s') htree.headOk
  obtain ⟨init, hkids⟩ := List.getLast?_eq_some_iff.mp hlast
  obtain ⟨hnodup', hused⟩ := hapart
  have hnodup := hnodup'
  rw [hnodes, hkids, List.map_append, List.map_singleton] at hnodup hused
  have hc := hused c (by simp)
  have htouch := hput.touches hv hL hc.1
  obtain ⟨recs, hrecs, hleaf⟩ := hput.put
  -- the other leaves are elsewhere
  have hinit : ∀ n ∈ init.map Prod.snd, block v s' n = block v s n := by
    intro n hn
    refine htouch.other n (hused n (List.mem_append_left _ hn)).1 ?_
    rintro rfl
    exact (List.nodup_append.mp hnodup).2.2 n hn n (List.mem_singleton_self n) rfl
  have hgrown : leafTable v s' inode.raw =
      init.map (fun x => (x.1, leafRecs (block v s x.2) 0)) ++ [(first, recs)] := by
    rw [htable', hkids, List.map_append, leaves_congr hinit, List.map_singleton, hleaf.recs_eq]
  have hold : leafTable v s inode.raw = init.map (fun x => (x.1, leafRecs (block v s x.2) 0)) ++
      [(first, leafRecs (block v s c) 0)] := by
    rw [htable, hkids, List.map_append, List.map_singleton]
  refine ⟨?_, fun top x => ?_, htree.headOk.magic, le_of_eq htree.headOk.depth, hnodup', rfl,
    fun _ _ => rfl, fun b hb _ hnot => htouch.other b hb ?_⟩
  · rw [hgrown, hold]
    exact .put rfl hrecs
  · rw [hgrown, hold, growTable_put fun hno => ?_, hrecs.eq]
    have hle := hleaf.head.entries_le
    have hlen : recs.length = (hdrOf (block v s' c) 0).entries := by
      rw [← hleaf.recs_eq]
      exact length_recordsOf _ _ _
    rw [hrecs.eq, putRecs, hno, List.length_append, List.length_singleton] at hlen
    rw [lastCap_deep htree.headOk hlast, ← hleaf.max_eq]
    omega
  · rintro rfl
    rw [hnodes, hkids] at hnot
    exact hnot (by simp)

theorem inserts_split {c q first : ℕ} (hapart : LeavesApart v L s inode.raw)
    (htree : TreeOk v s 1 inode.raw iblock 4)
    (hlast : (kidsOf inode.raw iblock).getLast? = some (first, c))
    (hroom : (hdrOf inode.raw iblock).entries < (hdrOf inode.raw iblock).max)
    (hsplit : LeafSplit v L inode.ino inode.gen c q s s₁)
    (hput : LeafPut v inode.ino inode.gen q lb p s₁ s')
    (hno : mergeRecs (leafRecs (block v s c) 0) lb p = .ok none) :
    Inserts v L s inode lb p (grownRoot inode (splitKey (leafRecs (block v s c) 0)) q) s' := by
  obtain ⟨htable, hnodes⟩ := leafTable_deep (v := v) (s := s) htree.headOk
  obtain ⟨init, hkids⟩ := List.getLast?_eq_some_iff.mp hlast
  obtain ⟨hnodup, hused⟩ := hapart
  rw [hnodes, hkids, List.map_append, List.map_singleton] at hnodup hused
  have hc := hused c (by simp)
  obtain ⟨htouch, hrole, hisBlock, -, hfree, -⟩ := hsplit.touches hv hL hs hc.1
  have htouch' := hput.touches hv hL hrole
  have hfresh : ∀ n, marked v L s n = true → n ≠ q := by
    rintro n hn rfl
    rw [hfree] at hn
    cases hn
  obtain ⟨hhead', hkids', haround⟩ := grownRoot_kids htree.headOk hroom
    (splitKey_lt (leafRecs (block v s c) 0) fun e he => leafRecs_lt he)
    (hisBlock.2.trans_le hv.blocks)
  obtain ⟨htable', hnodes'⟩ := leafTable_deep (v := v) (s := s') hhead'
  obtain ⟨recs, hrecs, hleaf⟩ := hput.put
  rw [hsplit.upper.recs_eq] at hrecs
  have hkeep : ∀ n, L.role n = .data → marked v L s n = true → n ≠ c →
      block v s' n = block v s n := by
    intro n hn hmark hne
    rw [htouch'.other n hn (hfresh n hmark), htouch.other n hn (not_or.mpr ⟨hne, hfresh n hmark⟩)]
  have hinit : ∀ n ∈ init.map Prod.snd, block v s' n = block v s n := by
    intro n hn
    obtain ⟨hdata, hmark⟩ := hused n (List.mem_append_left _ hn)
    refine hkeep n hdata hmark ?_
    rintro rfl
    exact (List.nodup_append.mp hnodup).2.2 n hn n (List.mem_singleton_self n) rfl
  have hlower : leafRecs (block v s' c) 0 = (leafRecs (block v s c) 0).take
      ((leafRecs (block v s c) 0).length / 2) := by
    rw [htouch'.other c hc.1 (hfresh c hc.2), hsplit.lower.recs_eq]
  have hgrown : leafTable v s' (grownRoot inode (splitKey (leafRecs (block v s c) 0)) q).raw =
      init.map (fun x => (x.1, leafRecs (block v s x.2) 0)) ++
        [(first, (leafRecs (block v s c) 0).take ((leafRecs (block v s c) 0).length / 2))] ++
        [(splitKey (leafRecs (block v s c) 0), recs)] := by
    rw [htable', hkids', hkids, List.map_append, List.map_append, leaves_congr hinit,
      List.map_singleton, List.map_singleton, hleaf.recs_eq, hlower]
  have hold : leafTable v s inode.raw = init.map (fun x => (x.1, leafRecs (block v s x.2) 0)) ++
      [(first, leafRecs (block v s c) 0)] := by
    rw [htable, hkids, List.map_append, List.map_singleton]
  refine ⟨?_, fun top x => ?_, hhead'.magic, le_of_eq hhead'.depth, ?_, rfl, haround,
    fun b hb hmark hnot => ?_⟩
  · rw [hgrown, hold]
    exact .split rfl hsplit.two hrecs
  · rw [hgrown, hold, growTable_split hno, hrecs.eq]
    rw [lastCap_deep htree.headOk hlast, hsplit.full]
  · rw [hnodes', hkids', hkids, List.map_append, List.map_append, List.map_singleton,
      List.map_singleton]
    refine List.nodup_append.mpr ⟨hnodup, List.nodup_singleton q, fun n hn m hm => ?_⟩
    rw [List.mem_singleton.mp hm]
    exact hfresh n (hused n hn).2
  · refine hkeep b hb hmark ?_
    rintro rfl
    rw [hnodes, hkids] at hnot
    exact hnot (by simp)

/-- SOURCE: ext4.rs:944-992 -/
theorem InsertEnds.inserts {inode' : Inode} (hapart : LeavesApart v L s inode.raw)
    (hends : InsertEnds v L s inode lb p (.ok inode', s')) : Inserts v L s inode lb p inode' s' := by
  cases hends with
  | root hhead hhead' hput haround =>
    obtain ⟨htable, hnodes⟩ := leafTable_flat (v := v) (s := s) hhead
    obtain ⟨htable', hnodes'⟩ := leafTable_flat (v := v) (s := s) hhead'
    refine ⟨?_, fun top x => ?_, hhead'.magic, ?_, ?_, rfl, haround, fun _ _ _ _ => rfl⟩
    · rw [htable, htable']
      exact .put rfl hput
    · rw [htable, htable', growTable_put fun _ => root_short hv hhead, hput.eq]
    · exact (le_of_eq hhead'.depth).trans (Nat.zero_le 1)
    · rw [hnodes']
      exact List.nodup_nil
  | deepened hhead hdeep hput => exact inserts_deepened hv hL hs hhead hdeep hput
  | leaf htree hlast hput =>
    obtain ⟨first, hlast⟩ := hlast
    exact inserts_leaf hv hL hapart htree hlast hput
  | split htree hlast hroom hsplit hput hno =>
    obtain ⟨first, hlast⟩ := hlast
    exact inserts_split hv hL hs hapart htree hlast hroom hsplit hput hno

end Inserts

end Pinx.Analysis
