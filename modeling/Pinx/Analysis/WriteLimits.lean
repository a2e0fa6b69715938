import Pinx.Analysis.FileOverwrite
import Pinx.Analysis.InodeFrame

/-!
# Writes at the limits of the format

An offset is a number of 64 bits, a logical block a number of 32 bits, and without the 64bit
feature the size of a file is stored in 32 bits.  `write_file` checks none of these: the end of
the write is computed by an addition that may overflow, the number of a block is cut to 32 bits,
and the size is cut when the inode is written.
-/

namespace Pinx.Analysis

open Pinx.Foundation Pinx.Model

variable {v : Ext4} {L : Layout} {s s' : FsState} {O O' : ℕ → Option Use} {i offset n : ℕ}
  {buf : List UInt8}

/-- What a write of `n` bytes that ended so is asked for: it did not crash, and if it returned,
the size is the larger of the old one and the end of the write, and every byte outside of the
range that could be read is read as it was. -/
def SoundWrite (v : Ext4) (i offset n : ℕ) (s : FsState) : Except FsFail Unit × FsState → Prop
  | (.ok (), s') =>
    (readInode v i s').1.map Inode.size =
        (readInode v i s).1.map (fun inode => max inode.size (offset + n)) ∧
      ∀ x c, x < offset ∨ offset + n ≤ x → (readFile v i x 1 s).1 = .ok [c] →
        (readFile v i x 1 s').1 = .ok [c]
  | (.error (.error _), _) => True
  | (.error (.fault _), _) => False

/-- The end of the write is a number of 64 bits and can be stored in the size, no byte lands in the
block with the last number, and where bytes land elsewhere than they are asked to, the file had
them there or ends before. -/
structure WithinLimits (v : Ext4) (L : Layout) (s : FsState) (i offset : ℕ) (buf : List UInt8) :
    Prop where
  last : offset + buf.length < 2 ^ 64
  stored : v.has64bit = false → offset + buf.length < 2 ^ 32
  blocks : endBlock v (landing v offset) buf.length ≤ 2 ^ 32 - 1
  same : landing v offset ≠ offset → ∀ j < buf.length,
    landing v offset + j < (inodeOf v L s i).size →
      byteAt v s (slot v L s i) (landing v offset + j) = .ok (buf.getD j 0)

/-- The blocks the bytes of a write land in are all there, or the tree has at most one level of
leaves under its root and takes those that are not. -/
def CanLand (v : Ext4) (L : Layout) (s : FsState) (i offset n : ℕ) : Prop :=
  Mapped v s (slot v L s i) (landing v offset / v.bs) (endBlock v (landing v offset) n) ∨
    (HasMagic (slot v L s i) iblock → rootDepth (slot v L s i) ≤ 1) ∧
      Ready v s (slot v L s i) (landing v offset / v.bs) (endBlock v (landing v offset) n)

theorem inode_size_lt (v : Ext4) (L : Layout) (s : FsState) (i : ℕ) :
    (inodeOf v L s i).size < if v.has64bit then 2 ^ 64 else 2 ^ 32 := by
  have hlow := Bytes.getLE_lt (slot v L s i) 0x04 4
  have hhigh := Bytes.getLE_lt (slot v L s i) 0x6C 4
  show (slot v L s i).getLE 0x04 4 +
    (if v.has64bit then (slot v L s i).getLE 0x6C 4 * 2 ^ 32 else 0) < _
  cases v.has64bit with
  | true =>
    rw [if_pos rfl, if_pos rfl]
    omega
  | false =>
    rw [if_neg (by simp), if_neg (by simp)]
    omega

/-- Sizes are lost only without the 64bit feature. -/
theorem size_fits_iff {last : ℕ} (hlast : last < 2 ^ 64) :
    max (inodeOf v L s i).size last < (if v.has64bit then 2 ^ 64 else 2 ^ 32) ↔
      (v.has64bit = false → last < 2 ^ 32) := by
  have hsize := inode_size_lt v L s i
  cases hwide : v.has64bit with
  | true =>
    rw [hwide, if_pos rfl] at hsize
    rw [if_pos rfl]
    exact ⟨nofun, fun _ => max_lt hsize hlast⟩
  | false =>
    rw [hwide, if_neg (by simp)] at hsize
    rw [if_neg (by simp)]
    exact ⟨fun h _ => (le_max_right _ _).trans_lt h, fun h => max_lt hsize (h rfl)⟩

/-! ## The block with the last number -/

section Found

variable {inode inode' : Inode} {lb p fuel cur count : ℕ} {bytes : List UInt8}

/-- A record that holds a block ends below 2^32, so no record holds the last one. -/
theorem scanLeaf_found {node : Node} {k : ℕ} (h : scanLeaf node lb n k = .ok (some p)) :
    lb + 1 < 2 ^ 32 := by
  induction n generalizing k with
  | zero => cases h
  | succ n ih =>
    unfold scanLeaf at h
    split at h
    · exact ih h
    · split at h
      · split at h
        · cases h
        · split at h
          · omega
          · exact ih h
      · exact ih h

theorem mapLoop_found {node : Node} {entries depth : ℕ}
    (h : mapLoop v inode lb fuel node entries depth s = (.ok (some p), s')) : lb + 1 < 2 ^ 32 := by
  induction fuel generalizing s node entries depth with
  | zero => cases h
  | succ fuel ih =>
    unfold mapLoop at h
    split at h
    · exact scanLeaf_found (Prod.mk.inj h).1
    · cases hchild : scanIndex node lb entries 0 with
      | none =>
        rw [hchild] at h
        cases h
      | some child =>
        rw [hchild] at h
        obtain ⟨buf, s₁, -, h⟩ := Prog.bind_eq_ok.mp h
        cases hhdr : rdHdr buf maxBlockSize 0 with
        | none =>
          rw [hhdr] at h
          cases h
        | some hdr =>
          rw [hhdr] at h
          exact ih h

/-- SOURCE: ext4.rs:877-938 -/
theorem mapBlock_found (h : mapBlock v inode lb s = (.ok (some p), s')) : lb + 1 < 2 ^ 32 := by
  unfold mapBlock at h
  cases hhdr : rdHdr inode.raw maxInodeSize iblock with
  | none =>
    rw [hhdr] at h
    cases h
  | some hdr =>
    rw [hhdr] at h
    exact mapLoop_found h

/-- SOURCE: ext4.rs:1296-1312 -/
theorem writeTurn_found (h : writeTurn v inode cur count bytes s = (.ok inode', s')) :
    cur / v.bs % 2 ^ 32 + 1 < 2 ^ 32 := by
  unfold writeTurn at h
  obtain ⟨⟨inode₁, blk⟩, s₁, -, h⟩ := Prog.bind_eq_ok.mp h
  obtain ⟨found, s₂, hmap, h⟩ := Prog.bind_eq_ok.mp h
  cases found with
  | none => cases h
  | some fsb => exact mapBlock_found hmap

/-- A write that gets to the block with the last number does not return. -/
theorem writeLoop_found (hbs : 0 < v.bs) (hfuel : bytes.length ≤ fuel) (hne : bytes ≠ [])
    (hcur : cur / v.bs < 2 ^ 32) (h : writeLoop v fuel inode cur bytes s = (.ok inode', s')) :
    endBlock v cur bytes.length ≤ 2 ^ 32 - 1 := by
  have hpos := List.length_pos_iff.mpr hne
  induction fuel generalizing s inode cur bytes with
  | zero => omega
  | succ fuel ih =>
    unfold writeLoop at h
    rw [if_neg hne] at h
    obtain ⟨inode₁, s₁, hturn, h⟩ := Prog.bind_eq_ok.mp h
    have hlb := writeTurn_found hturn
    rw [Nat.mod_eq_of_lt hcur] at hlb
    have hcount : 0 < v.turnCount cur bytes := turnCount_pos hbs hne
    have hle : v.turnCount cur bytes ≤ bytes.length := Nat.min_le_right _ _
    by_cases hlast : v.turnCount cur bytes = bytes.length
    · -- all bytes are in one block
      have hfit : cur % v.bs + v.turnCount cur bytes ≤ v.bs := turnCount_fit hbs
      have hdiv := Nat.div_add_mod cur v.bs
      have hend : (cur + bytes.length - 1) / v.bs = cur / v.bs := by
        rw [Nat.div_eq_iff hbs, Nat.mul_comm]
        omega
      unfold endBlock
      omega
    · have hrest : (bytes.drop (v.turnCount cur bytes)).length =
          bytes.length - v.turnCount cur bytes := List.length_drop
      have hnext := turnCount_next hbs hlast
      have hih := ih (by omega) (List.length_pos_iff.mp (by omega)) (by omega) h (by omega)
      unfold endBlock at hih ⊢
      rwa [hrest, show cur + v.turnCount cur bytes + (bytes.length - v.turnCount cur bytes) =
        cur + bytes.length by omega] at hih

end Found

section Calls

variable (hv : GeometryOk v) (hL : LayoutOk v L) (hgood : Good v L O s) (hi : InUse v L s i)
  (hfile : (inodeOf v L s i).isFile = true) (hne : buf ≠ [])
include hv hL hgood hi

theorem map_readInode (f : Inode → ℕ) : (readInode v i s).1.map f = .ok (f (inodeOf v L s i)) := by
  rw [readInode_ok hv hL hgood.placed hi.1]
  rfl

include hfile

omit hv hL hgood hi hfile in
/-- Every byte of the blocks a write lands in can be read. -/
theorem CanLand.byteAt {k : ℕ} (h : CanLand v L s i offset n)
    (hend : endBlock v (landing v offset) n ≤ 2 ^ 32 - 1) (hk : k < n) :
    ∃ c, byteAt v s (slot v L s i) (landing v offset + k) = .ok c := by
  have hlt : (landing v offset + k) / v.bs < endBlock v (landing v offset) n :=
    Nat.lt_succ_of_le (Nat.div_le_div_right (by omega))
  have hlo : landing v offset / v.bs ≤ (landing v offset + k) / v.bs :=
    Nat.div_le_div_right (Nat.le_add_right _ k)
  obtain ⟨r, hr⟩ : ∃ r, treeLook v s (slot v L s i) ((landing v offset + k) / v.bs) = .ok r :=
    h.elim (fun hm => (hm _ hlo hlt).imp' some fun _ => id) fun hr => hr.2.found _ hlo hlt
  obtain ⟨b, hb⟩ : ∃ b, blockAt v s (slot v L s i) ((landing v offset + k) / v.bs) = .ok b := by
    cases r with
    | none => exact ⟨_, blockAt_none hr⟩
    | some p => exact ⟨_, blockAt_some hr⟩
  refine ⟨b ((landing v offset + k) % v.bs), byteAt_eq_ok.mpr ⟨b, ?_, rfl⟩⟩
  rw [Nat.mod_eq_of_lt (by omega), hb]

/-- What a write that returned is asked for, in terms of the bytes of the file. -/
theorem sound_iff_bytes (hgood' : Good v L O' s') (hi' : InUse v L s' i)
    (hmode : (inodeOf v L s' i).mode = (inodeOf v L s i).mode)
    (hsize : (inodeOf v L s' i).size =
      max (inodeOf v L s i).size (offset + n) % if v.has64bit then 2 ^ 64 else 2 ^ 32) :
    SoundWrite v i offset n s (.ok (), s') ↔
      max (inodeOf v L s i).size (offset + n) < (if v.has64bit then 2 ^ 64 else 2 ^ 32) ∧
        ∀ x c, x < offset ∨ offset + n ≤ x → x < (inodeOf v L s i).size →
          byteAt v s (slot v L s i) x = .ok c → byteAt v s' (slot v L s' i) x = .ok c := by
  have hfile' : (inodeOf v L s' i).isFile = true := by
    unfold Inode.isFile at hfile ⊢
    rwa [hmode]
  have hstored : max (inodeOf v L s i).size (offset + n) % (if v.has64bit then 2 ^ 64 else 2 ^ 32) =
      max (inodeOf v L s i).size (offset + n) ↔
        max (inodeOf v L s i).size (offset + n) < (if v.has64bit then 2 ^ 64 else 2 ^ 32) := by
    refine ⟨fun h => ?_, Nat.mod_eq_of_lt⟩
    rw [← h]
    exact Nat.mod_lt _ (by split <;> omega)
  dsimp only [SoundWrite]
  rw [map_readInode hv hL hgood hi, map_readInode hv hL hgood' hi', Except.ok.injEq, hsize, hstored]
  refine and_congr_right fun hlt => forall₃_congr fun x c _ => ?_
  rw [readFile_one hv hL hgood hi hfile, readFile_one hv hL hgood' hi' hfile', hsize,
    Nat.mod_eq_of_lt hlt]
  constructor
  · intro h hx hbyte
    exact (h ⟨hx, hbyte⟩).2
  · rintro h ⟨hx, hbyte⟩
    exact ⟨by omega, h hx hbyte⟩

include hne

/-- The end of a write that leaves the numbers of 64 bits. -/
theorem writeFile_overflows (hend : 2 ^ 64 ≤ offset + buf.length) :
    writeFile v i offset buf s = (.error (.fault .overflow), s) := by
  unfold writeFile
  rw [if_neg hne, Prog.bind_ok (readInode_ok hv hL hgood.placed hi.1),
    if_neg (by rw [hfile]; decide), if_pos hend]
  rfl

/-- A write that returns has not got to the block with the last number, and its end is a number of
64 bits. -/
theorem writeFile_inside (hrun : writeFile v i offset buf s = (.ok (), s')) :
    offset + buf.length < 2 ^ 64 ∧ endBlock v (landing v offset) buf.length ≤ 2 ^ 32 - 1 := by
  have hlt : offset + buf.length < 2 ^ 64 := by
    by_contra hend
    rw [writeFile_overflows hv hL hgood hi hfile hne (Nat.not_lt.mp hend)] at hrun
    cases hrun
  rw [writeFile_begin hv hL hgood hi hfile hne hlt] at hrun
  obtain ⟨inode', s₁, hloop, -⟩ := Prog.bind_eq_ok.mp hrun
  rw [writeLoop_landing hv.bs_pos] at hloop
  refine ⟨hlt, writeLoop_found hv.bs_pos (le_refl _) hne ?_ hloop⟩
  rw [Nat.div_lt_iff_lt_mul hv.bs_pos]
  exact Nat.mod_lt _ (Nat.mul_pos (Nat.two_pow_pos 32) hv.bs_pos)

/-- A write that can land stores its bytes there, or fails with an error. -/
theorem CanLand.ends (h : CanLand v L s i offset buf.length) (hlt : offset + buf.length < 2 ^ 64)
    (hend : endBlock v (landing v offset) buf.length ≤ 2 ^ 32 - 1) :
    Prog.Ends (fun _ s' => ∃ O', FileStored v L O i s (landing v offset) buf (offset + buf.length) O' s')
      (fun e _ => Stops s e) (writeFile v i offset buf s) := by
  rcases h with hmapped | ⟨hdepth, hready⟩
  · obtain ⟨s₁, hloop, -, hdone⟩ := writeLoop_done hv hL hgood hi hne hmapped
    obtain ⟨total, s', htotal, -, hrun, hstored⟩ := hdone.store hv hL hgood hi (offset + buf.length)
    rw [writeFile_begin hv hL hgood hi hfile hne hlt, writeLoop_landing hv.bs_pos, Prog.bind_ok hloop,
      Prog.bind_ok htotal, hrun]
    exact Prog.ends_ok.mpr ⟨O, hstored⟩
  · exact writeFile_lands hv hL hgood hi hfile hne hdepth hlt hend hready

/-- A write that stored its bytes where they land is sound if and only if its size fits and, where
that is elsewhere, the bytes it overwrote were the same or lay behind the end of the file. -/
theorem stored_sound_iff (hlt : offset + buf.length < 2 ^ 64)
    (hend : endBlock v (landing v offset) buf.length ≤ 2 ^ 32 - 1)
    (hland : CanLand v L s i offset buf.length) (hsize : (inodeOf v L s i).size ≤ (2 ^ 32 - 1) * v.bs)
    (hstored : FileStored v L O i s (landing v offset) buf (offset + buf.length) O' s') :
    SoundWrite v i offset buf.length s (.ok (), s') ↔
      (v.has64bit = false → offset + buf.length < 2 ^ 32) ∧
        (landing v offset ≠ offset → ∀ j < buf.length,
          landing v offset + j < (inodeOf v L s i).size →
            byteAt v s (slot v L s i) (landing v offset + j) = .ok (buf.getD j 0)) := by
  have hlast : landing v offset + buf.length ≤ (2 ^ 32 - 1) * v.bs :=
    (endBlock_end hv hne).trans (Nat.mul_le_mul_right _ hend)
  rw [sound_iff_bytes hv hL hgood hi hfile hstored.good hstored.inUse hstored.mode hstored.size]
  refine and_congr (size_fits_iff hlt) ⟨fun hkept hcut j hj hin => ?_, fun hsame x c hout hx hbyte => ?_⟩
  · obtain ⟨c, hbyte⟩ := hland.byteAt hend hj
    have hfar : 2 ^ 32 * v.bs ≤ offset := by
      by_contra hnear
      exact hcut (Nat.mod_eq_of_lt (Nat.not_le.mp hnear))
    have hafter := hkept (landing v offset + j) c (Or.inl (by omega)) hin hbyte
    rw [hbyte, ← hafter]
    exact hstored.writes.written j hj
  · by_cases hin : landing v offset ≤ x ∧ x < landing v offset + buf.length
    · -- the bytes the write has hit instead of its own
      have hcut : landing v offset ≠ offset := by omega
      obtain ⟨j, rfl⟩ := Nat.exists_eq_add_of_le hin.1
      rw [hstored.writes.written j (by omega), ← hsame hcut j (by omega) hx, hbyte]
    · exact hstored.writes.keeps x c (by omega) (by omega) hbyte

end Calls

/-! ## A write behind the last block number -/

/-- The file of the sample volume: one block, the first of its four bytes 0. -/
theorem farFile :
    (inodeOf wideVolume noSeedLayout (aclState 0) 3).isFile = true ∧
      (inodeOf wideVolume noSeedLayout (aclState 0) 3).size = 4 ∧
      treeLook wideVolume (aclState 0) (slot wideVolume noSeedLayout (aclState 0) 3) 0 = .ok (some 7) ∧
      byteAt wideVolume (aclState 0) (slot wideVolume noSeedLayout (aclState 0) 3) 0 = .ok 0 := by
  decide +kernel

/-- A write of one byte at byte 2^42: block 2^32 of the file is taken for block 0. -/
theorem farWrite_run :
    (readFile wideVolume 3 0 1 (aclState 0)).1 = .ok [0] ∧
    (writeFile wideVolume 3 (2 ^ 42) [9] (aclState 0)).1.isOk = true ∧
    (readFile wideVolume 3 0 1 (writeFile wideVolume 3 (2 ^ 42) [9] (aclState 0)).2).1 = .ok [9] := by
  decide +kernel

end Pinx.Analysis
