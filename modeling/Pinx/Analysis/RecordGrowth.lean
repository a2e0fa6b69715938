import Pinx.Analysis.ExtentAppend

/-!
# Contiguous growth

Blocks that follow each other in the file and on the volume go into one record of the root.
The record grows block by block, up to `0x8000` blocks: a record of that length is taken for
an unwritten one, so that the next block starts a new record and none of the first `0x8000`
blocks is found.
-/

namespace Pinx.Analysis

open Pinx.Foundation Pinx.Model

variable {v : Ext4} {s : FsState} {recs recs' recs'' : List Extent} {inode : Inode}
  {lb p n x : ℕ}

/-! ## One insertion into the root -/

/-- A block goes into the records of a root that has room, and nowhere else. -/
theorem insertExtent_root (hhead : HeadOk inode.raw iblock 4 0)
    (hroom : (leafRecs inode.raw iblock).length < (hdrOf inode.raw iblock).max ∨
      mergeRecs (leafRecs inode.raw iblock) lb p ≠ .ok none)
    (hput : Put (leafRecs inode.raw iblock) lb p recs) (hlb : lb < 2 ^ 32) (hp : p < 2 ^ 48) :
    ∃ inode', insertExtent v inode lb p s = (.ok inode', s) ∧ HeadOk inode'.raw iblock 4 0 ∧
      (hdrOf inode'.raw iblock).max = (hdrOf inode.raw iblock).max ∧
      leafRecs inode'.raw iblock = recs := by
  have hentries : (leafRecs inode.raw iblock).length = (hdrOf inode.raw iblock).entries :=
    length_recordsOf _ _ _
  cases hput with
  | append hno =>
    rw [hentries, or_iff_left (not_not_intro hno)] at hroom
    obtain ⟨hhead', hmax, hnew⟩ := node_append hhead (by omega) hroom hno hlb hp
    refine ⟨{ inode with
      raw := wrHdr (wrExtent inode.raw iblock (hdrOf inode.raw iblock).entries ⟨lb, 1, p⟩) iblock
        ((hdrOf inode.raw iblock).entries + 1) (hdrOf inode.raw iblock).max 0 },
      ?_, hhead', hmax, hnew.eq.trans (Put.append hno).eq.symm⟩
    unfold insertExtent
    rw [rdHdr_eq (by decide) hhead.magic]
    dsimp only
    unfold insertBelow
    rw [if_pos hhead.depth, mergeLast_root hhead, hno, Prog.bind_ok (Prog.lift_apply _ _)]
    dsimp only
    rw [if_pos hroom, Prog.bind_ok (wroteRecord_root hhead hroom)]
    rfl
  | @merge init e hrecs hw hend hpb hlt =>
    have hmerge : mergeRecs (leafRecs inode.raw iblock) lb p =
        .ok (some { e with len := e.len + 1 }) := by
      rw [hrecs, mergeRecs_behind hw hend hpb hlt]
    obtain ⟨hhead', hmax, hnew⟩ := node_merge hhead hmerge
    exact ⟨_, insertExtent_merge hhead hmerge, hhead', hmax,
      hnew.eq.trans (Put.merge hrecs hw hend hpb hlt).eq.symm⟩

/-- A lookup in a root that holds records. -/
theorem mapBlock_root (hhead : HeadOk inode.raw iblock 4 0) (x : ℕ) :
    mapBlock v inode x s = (scanRecs x (leafRecs inode.raw iblock), s) := by
  have hle := hhead.entries_le
  have hmax := hhead.max_le
  have hsize : iblock + 60 ≤ maxInodeSize := by decide
  have hlen : inode.root.base + 12 + 12 * (0 + (hdrOf inode.raw iblock).entries) ≤ inode.root.len := by
    change iblock + _ + _ ≤ maxInodeSize
    omega
  unfold mapBlock
  rw [rdHdr_eq (by omega) hhead.magic]
  dsimp only
  rw [mapLoop, if_pos hhead.depth]
  rw [scanLeaf_eq hlen, ← List.range_eq_range']
  rfl

/-! ## A run of insertions -/

/-- Blocks `0`, .., `n - 1` of a file go to the blocks from `p` on, one call each. -/
def insertRun (v : Ext4) (inode : Inode) (p : ℕ) : ℕ → Fs Inode
  | 0 => pure inode
  | n + 1 => do
    let inode ← insertRun v inode p n
    insertExtent v inode n (p + n)

/-- A record for blocks `0x8000 * j` on. -/
def runRec (p j len : ℕ) : Extent := ⟨0x8000 * j, len, p + 0x8000 * j⟩

/-- The records after `n` blocks: full ones, and the rest in one that is not full. -/
def runRecs (p n : ℕ) : List Extent :=
  (List.range (n / 0x8000)).map (fun j => runRec p j 0x8000) ++
    if n % 0x8000 = 0 then [] else [runRec p (n / 0x8000) (n % 0x8000)]

theorem runRecs_length (p n : ℕ) : (runRecs p n).length = (n + 0x7FFF) / 0x8000 := by
  unfold runRecs
  split
  · simp only [List.append_nil, List.length_map, List.length_range]
    omega
  · simp only [List.length_append, List.length_map, List.length_range, List.length_singleton]
    omega

/-- One more block is put behind a full record or into the last one. -/
theorem runRecs_put (p : ℕ) (hn : n < 2 ^ 32) : Put (runRecs p n) n (p + n) (runRecs p (n + 1)) := by
  by_cases hfull : n % 0x8000 = 0
  · have hdiv : (n + 1) / 0x8000 = n / 0x8000 := by omega
    have hnext : runRecs p (n + 1) = runRecs p n ++ [⟨n, 1, p + n⟩] := by
      unfold runRecs
      rw [hdiv, if_pos hfull, if_neg (by omega), List.append_nil, runRec,
        show (n + 1) % 0x8000 = 1 by omega, show 0x8000 * (n / 0x8000) = n by omega]
    rw [hnext]
    refine .append ?_
    -- a full record is not taken for a written one
    unfold runRecs mergeRecs
    rw [if_pos hfull, List.append_nil, List.getLast?_map]
    cases (List.range (n / 0x8000)).getLast? with
    | none => rfl
    | some j => exact if_neg (fun hw => absurd hw.2 (lt_irrefl _))
  · have hlast : runRecs p n = (List.range (n / 0x8000)).map (fun j => runRec p j 0x8000) ++
        [runRec p (n / 0x8000) (n % 0x8000)] := by
      unfold runRecs
      rw [if_neg hfull]
    have hnext : runRecs p (n + 1) = (List.range (n / 0x8000)).map (fun j => runRec p j 0x8000) ++
        [runRec p (n / 0x8000) (n % 0x8000 + 1)] := by
      unfold runRecs
      by_cases hbrim : (n + 1) % 0x8000 = 0
      · rw [if_pos hbrim, show (n + 1) / 0x8000 = n / 0x8000 + 1 by omega, List.range_succ,
          List.map_append, List.map_singleton, List.append_nil, show n % 0x8000 + 1 = 0x8000 by omega]
      · rw [if_neg hbrim, show (n + 1) / 0x8000 = n / 0x8000 by omega,
          show (n + 1) % 0x8000 = n % 0x8000 + 1 by omega]
    rw [hnext]
    refine .merge hlast ⟨?_, ?_⟩ ?_ ?_ hn <;> dsimp only [runRec] <;> omega

/-- Every call of the run returns `Ok`. -/
theorem insertRun_ok (hmagic : HasMagic inode.raw iblock)
    (hempty : hdrOf inode.raw iblock = ⟨0, 4, 0⟩) (hn : n ≤ 4 * 0x7FFF) (hp : p + n ≤ 2 ^ 48) :
    ∃ inode', insertRun v inode p n s = (.ok inode', s) ∧ HeadOk inode'.raw iblock 4 0 ∧
      (hdrOf inode'.raw iblock).max = 4 ∧ leafRecs inode'.raw iblock = runRecs p n := by
  induction n with
  | zero =>
    refine ⟨inode, rfl, ⟨hmagic, ?_, ?_, ?_, ?_⟩, ?_, ?_⟩
    · rw [hempty]
      exact Nat.zero_le 4
    · rw [hempty]
      exact show 0 < 4 by omega
    · rw [hempty]
    · rw [hempty]
    · rw [hempty]
    · unfold leafRecs
      rw [hempty]
      rfl
  | succ n ih =>
    obtain ⟨inode₁, hrun, hhead, hmax, hrecs⟩ := ih (by omega) (by omega)
    have hroom : (leafRecs inode₁.raw iblock).length < (hdrOf inode₁.raw iblock).max ∨
        mergeRecs (leafRecs inode₁.raw iblock) n (p + n) ≠ .ok none := by
      rw [hrecs, hmax, runRecs_length]
      by_cases hfull : n % 0x8000 = 0
      · left
        omega
      · right
        intro hno
        have hput := (runRecs_put p (show n < 2 ^ 32 by omega)).eq.trans (Put.append hno).eq.symm
        have hlen := congrArg List.length hput
        rw [List.length_append, runRecs_length, runRecs_length, List.length_singleton] at hlen
        omega
    obtain ⟨inode', hrun', hhead', hmax', hrecs'⟩ := insertExtent_root (v := v) (s := s) hhead hroom
      (hrecs ▸ runRecs_put p (show n < 2 ^ 32 by omega)) (by omega) (show p + n < 2 ^ 48 by omega)
    refine ⟨inode', ?_, hhead', hmax'.trans hmax, hrecs'⟩
    rw [insertRun, Prog.bind_ok hrun, hrun']

/-! ## What is found afterwards -/

theorem scanRecs_eq_none (h : ∀ e ∈ recs, ¬(Written e ∧ e.lb ≤ x)) : scanRecs x recs = .ok none := by
  induction recs with
  | nil => rfl
  | cons e es ih =>
    rw [scanRecs, if_neg (h e List.mem_cons_self)]
    exact ih fun e' he' => h e' (List.mem_cons_of_mem _ he')

/-- A record that is not full maps its blocks. -/
theorem scan_short (hn : n ≤ 0x7FFF) (hx : x < n) :
    scanRecs x (runRecs p n) = .ok (some (p + x)) := by
  have hrecs : runRecs p n = [⟨0, n, p⟩] := by
    unfold runRecs
    rw [show n / 0x8000 = 0 by omega, show n % 0x8000 = n by omega, if_neg (by omega)]
    rfl
  rw [hrecs, scanRecs, if_pos ⟨⟨by dsimp only; omega, by dsimp only; omega⟩, Nat.zero_le x⟩,
    if_neg (by dsimp only; omega), if_pos (by dsimp only; omega)]
  rfl

/-- Once the first record is full, block 0 is not found. -/
theorem scan_full (hn : 0x8000 ≤ n) : scanRecs 0 (runRecs p n) = .ok none := by
  refine scanRecs_eq_none fun e he => ?_
  unfold runRecs at he
  rw [List.mem_append] at he
  rcases he with he | he
  · obtain ⟨j, -, rfl⟩ := List.mem_map.mp he
    exact fun h => absurd h.1.2 (lt_irrefl _)
  · split at he
    · cases he
    · rw [List.mem_singleton] at he
      subst he
      rintro ⟨-, hle⟩
      replace hle : 0x8000 * (n / 0x8000) ≤ 0 := hle
      omega

/-- The blocks of a run are found, one for one, as long as one record that reads back holds them.
The lengths that read back are those below `0x8000`. -/
theorem contiguous_growth_iff (hmagic : HasMagic inode.raw iblock)
    (hempty : hdrOf inode.raw iblock = ⟨0, 4, 0⟩) (hn : n ≤ 4 * 0x7FFF) (hp : p + n ≤ 2 ^ 48) :
    ((∃ inode' s', insertRun v inode p n s = (.ok inode', s') ∧
        ∀ i < n, (mapBlock v inode' i s').1 = .ok (some (p + i))) ↔ n ≤ 0x7FFF) ∧
      ∀ (b : Bytes) (len base i : ℕ) (e : Extent), base + 12 + 12 * i + 12 ≤ len → Fits e →
        1 ≤ e.len → e.len ≤ 0x8000 →
        (rdExtent (wrExtent b base i e) len base i = some e ↔ e.len ≤ 0x7FFF) := by
  constructor
  · obtain ⟨inode₁, hrun, hhead, -, hrecs⟩ := insertRun_ok (v := v) (s := s) hmagic hempty hn hp
    constructor
    · rintro ⟨inode', s', hrun', hmap⟩
      cases hrun.symm.trans hrun'
      by_contra hlong
      have hzero := hmap 0 (by omega)
      rw [mapBlock_root hhead, hrecs, scan_full (by omega)] at hzero
      cases hzero
    · intro hshort
      refine ⟨inode₁, s, hrun, fun i hi => ?_⟩
      rw [mapBlock_root hhead, hrecs, scan_short hshort hi]
  · intro b len base i e hlen hfits hpos hle
    rw [rdExtent_eq hlen, extentAt_wrExtent hfits]
    constructor
    · intro h
      split at h
      · rename_i hw
        have hlt := hw.2
        omega
      · cases h
    · intro h
      exact if_pos ⟨hpos, show e.len < 0x8000 by omega⟩

/-- Three blocks in a new file. -/
theorem contiguous_growth_three : ∃ inode' s',
    insertRun plainVolume (newInode 3 false) 100 3 (leafState 4) = (.ok inode', s') ∧
      ∀ i < 3, (mapBlock plainVolume inode' i s').1 = .ok (some (100 + i)) :=
  (contiguous_growth_iff (by decide) (by decide) (by omega)
    (show 100 + 3 ≤ 2 ^ 48 by omega)).1.mpr (by omega)

/-- With `0x8000` blocks in a new file, block 0 is no longer found. -/
theorem contiguous_growth_cliff : ∃ inode' s',
    insertRun plainVolume (newInode 3 false) 100 0x8000 (leafState 4) = (.ok inode', s') ∧
      (mapBlock plainVolume inode' 0 s').1 = .ok none ∧
      rdExtent (wrExtent (fun _ => 0) 0 0 ⟨0, 0x8000, 100⟩) 24 0 0 = none := by
  obtain ⟨inode', hrun, hhead, -, hrecs⟩ := @insertRun_ok plainVolume (leafState 4)
    (newInode 3 false) 100 0x8000 (by decide) (by decide) (by omega) (by omega)
  refine ⟨inode', _, hrun, ?_, by decide⟩
  rw [mapBlock_root hhead, hrecs, scan_full (le_refl _)]

end Pinx.Analysis
