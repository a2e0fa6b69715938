import Pinx.Analysis.Ext4Alloc
import Pinx.Analysis.ExtentTree

/-!
# What `insert_extent` does

On a tree of depth at most one, `insert_extent` adds one block to the last leaf: to the
root itself, to the rightmost leaf, or to a leaf that a deepened root or a split has
made.  Each of these steps is described by the lists of records before and after it.
-/

namespace Pinx.Analysis

open Pinx.Foundation Pinx.Model

variable {v : Ext4} {L : Layout} {s s' : FsState}

/-! ## Leaves as they are written -/

/-- The checksum behind the records of an extent block is that of the bytes before it. -/
def ExtentSum (v : Ext4) (ino gen : ℕ) (w : Bytes) : Prop :=
  w.getLE (12 + 12 * (hdrOf w 0).max) 4 = v.extentCsum ino gen w (hdrOf w 0).max % 2 ^ 32

/-- A leaf of inode `ino` with these records. -/
structure LeafWritten (v : Ext4) (ino gen : ℕ) (w : Bytes) (max : ℕ) (recs : List Extent) :
    Prop where
  head : HeadOk w 0 v.leafMax 0
  max_eq : (hdrOf w 0).max = max
  recs_eq : leafRecs w 0 = recs
  sum : v.metaCsum = true → ExtentSum v ino gen w

/-- The bytes `extent_block_csum` leaves. -/
def stampExtent (v : Ext4) (ino gen : ℕ) (b : Bytes) (max : ℕ) : Bytes :=
  if v.metaCsum then b.putLE (12 + 12 * max) 4 (v.extentCsum ino gen b max) else b

/-- SOURCE: ext4.rs:865-874 -/
theorem extentBlockCsum_ok (hv : GeometryOk v) {ino gen max : ℕ} {b : Bytes}
    (hmax : max ≤ v.leafMax) :
    extentBlockCsum v ino gen b max s = (.ok (stampExtent v ino gen b max), s) := by
  have hroom := leafMax_room hv
  have hbs := hv.bs_le
  unfold extentBlockCsum stampExtent
  by_cases hmeta : v.metaCsum = true
  · rw [if_neg (by rw [hmeta]; decide), if_neg (by omega), if_pos hmeta]
    rfl
  · rw [if_pos (by simpa using hmeta), if_neg hmeta]
    rfl

section Stamp

variable (hv : GeometryOk v) {max : ℕ} (ino gen : ℕ) {b : Bytes} (hle : max ≤ v.leafMax)
include hv hle

theorem stampExtent_agree (b : Bytes) : NodeAgree b (Bytes.clip v.bs (stampExtent v ino gen b max)) 0 0 max := by
  have hroom := leafMax_room hv
  intro k hk
  rw [Nat.zero_add, Bytes.clip_inside (by omega), stampExtent]
  split
  · rw [Bytes.putLE_outside (by omega)]
  · rfl

theorem extentSum_stamp (hmeta : v.metaCsum = true) (hmax : (hdrOf b 0).max = max) :
    ExtentSum v ino gen (Bytes.clip v.bs (stampExtent v ino gen b max)) := by
  have hroom := leafMax_room hv
  have hagree := stampExtent_agree hv ino gen hle b
  have hcsum : v.extentCsum ino gen (Bytes.clip v.bs (stampExtent v ino gen b max)) max =
      v.extentCsum ino gen b max := by
    unfold Ext4.extentCsum
    congr 1
    exact Bytes.slice_congr fun j hj => (hagree j (by omega)).symm
  unfold ExtentSum
  rw [← hagree.hdrOf_eq, hmax, hcsum, Bytes.getLE_clip (by omega), stampExtent, if_pos hmeta,
    Bytes.getLE_putLE]
  rfl

end Stamp

/-- A leaf, stamped and written, has the records it was given. -/
theorem leafWritten_stamp (hv : GeometryOk v) {ino gen max : ℕ} {b : Bytes} {recs : List Extent}
    (hhead : HeadOk b 0 v.leafMax 0) (hmax : (hdrOf b 0).max = max) (hrecs : leafRecs b 0 = recs) :
    LeafWritten v ino gen (Bytes.clip v.bs (stampExtent v ino gen b max)) max recs := by
  have hle : max ≤ v.leafMax := hmax ▸ hhead.max_le
  have hagree := stampExtent_agree hv ino gen hle b
  have hhdr := hagree.hdrOf_eq
  have hentries := hhead.entries_le
  have hhead' : HeadOk (Bytes.clip v.bs (stampExtent v ino gen b max)) 0 v.leafMax 0 :=
    hhead.of_header fun k hk => (hagree k (by omega)).symm
  refine ⟨hhead', by rw [← hhdr, hmax], ?_, fun hmeta => extentSum_stamp hv ino gen hle hmeta hmax⟩
  rw [← hrecs]
  unfold leafRecs
  rw [← hhdr]
  exact recordsOf_congr fun i hi => (hagree.extentAt_eq (by omega)).symm

/-! ## One more block in a list of records -/

/-- The records with one more block: a longer last record, or a record of its own if the
block does not go behind the last one. -/
inductive Put (recs : List Extent) (lb p : ℕ) : List Extent → Prop
  | append (hno : mergeRecs recs lb p = .ok none) : Put recs lb p (recs ++ [⟨lb, 1, p⟩])
  | merge {init : List Extent} {e : Extent} (hrecs : recs = init ++ [e]) (hw : Written e)
      (hend : e.lb + e.len = lb) (hpb : e.pb + e.len = p) (hlt : lb < 2 ^ 32) :
      Put recs lb p (init ++ [{ e with len := e.len + 1 }])

variable {recs recs' : List Extent} {lb p : ℕ}

/-- The records with one more block, as a function. -/
def putRecs (recs : List Extent) (lb p : ℕ) : List Extent :=
  match mergeRecs recs lb p with
  | .ok (some e) => recs.dropLast ++ [e]
  | _ => recs ++ [⟨lb, 1, p⟩]

/-- A block right behind the last record is merged into it. -/
theorem mergeRecs_behind {init : List Extent} {e : Extent} (hw : Written e)
    (hend : e.lb + e.len = lb) (hpb : e.pb + e.len = p) (hlt : lb < 2 ^ 32) :
    mergeRecs (init ++ [e]) lb p = .ok (some { e with len := e.len + 1 }) := by
  unfold mergeRecs
  rw [List.getLast?_concat]
  dsimp only
  rw [if_pos hw, if_neg (by omega), if_pos ⟨hend, hpb⟩]

/-- There is one way to put a block into a list. -/
theorem Put.eq (h : Put recs lb p recs') : recs' = putRecs recs lb p := by
  unfold putRecs
  cases h with
  | append hno => rw [hno]
  | merge hrecs hw hend hpb hlt => rw [hrecs, mergeRecs_behind hw hend hpb hlt, List.dropLast_concat]

theorem Put.maps_eq (h : Put recs lb p recs') :
    recs'.flatMap extentMaps = recs.flatMap extentMaps ++ [(lb, p)] := by
  cases h with
  | append hno =>
    rw [List.flatMap_append]
    rfl
  | @merge init e hrecs hw hend hpb =>
    obtain ⟨-, hlen⟩ := hw
    rw [hrecs, List.flatMap_append, List.flatMap_append, List.append_assoc, List.flatMap_singleton,
      List.flatMap_singleton, extentMaps, extentMaps, if_pos (by simp only; omega), if_pos (by omega),
      List.range_succ, List.map_append, List.map_singleton, ← hend, ← hpb]

theorem Put.maps (h : Put recs lb p recs') {x : ℕ × ℕ} (hx : x ∈ recs'.flatMap extentMaps) :
    x ∈ recs.flatMap extentMaps ∨ x = (lb, p) := by
  rw [h.maps_eq, List.mem_append, List.mem_singleton] at hx
  exact hx

theorem extentMaps_copied {e : Extent} {x : ℕ × ℕ} (hx : x ∈ extentMaps (copied e)) :
    x ∈ extentMaps e := by
  unfold copied at hx
  split at hx
  · exact hx
  · simp [extentMaps] at hx

theorem maps_copied {recs : List Extent} {x : ℕ × ℕ}
    (hx : x ∈ (recs.map copied).flatMap extentMaps) : x ∈ recs.flatMap extentMaps := by
  obtain ⟨e', he', hmem⟩ := List.mem_flatMap.mp hx
  obtain ⟨e, he, rfl⟩ := List.mem_map.mp he'
  exact List.mem_flatMap.mpr ⟨e, he, extentMaps_copied hmem⟩

theorem maps_sub {recs recs' : List Extent} (hsub : ∀ e ∈ recs', e ∈ recs) {x : ℕ × ℕ}
    (hx : x ∈ recs'.flatMap extentMaps) : x ∈ recs.flatMap extentMaps := by
  obtain ⟨e, he, hmem⟩ := List.mem_flatMap.mp hx
  exact List.mem_flatMap.mpr ⟨e, hsub e he, hmem⟩

/-- What `mergeLast` finds is the last record, one block longer. -/
theorem mergeRecs_some {e : Extent} (h : mergeRecs recs lb p = .ok (some e)) :
    ∃ init e₀, recs = init ++ [e₀] ∧ Written e₀ ∧ e₀.lb + e₀.len = lb ∧ e₀.pb + e₀.len = p ∧
      lb < 2 ^ 32 ∧ e = { e₀ with len := e₀.len + 1 } := by
  unfold mergeRecs at h
  split at h
  · cases h
  · rename_i e₀ hlast
    split at h
    · rename_i hw
      split at h
      · cases h
      · rename_i hlt
        split at h
        · rename_i hmatch
          cases h
          obtain ⟨init, rfl⟩ := List.getLast?_eq_some_iff.mp hlast
          exact ⟨init, e₀, rfl, hw, hmatch.1, hmatch.2, by omega, rfl⟩
        · cases h
    · cases h

/-- Some record ends behind the last block number. -/
def Overlong (recs : List Extent) : Prop := ∃ e ∈ recs, 2 ^ 32 ≤ e.lb + e.len

theorem mergeRecs_error {e : FsFail} (h : mergeRecs recs lb p = .error e) :
    Skips e ∧ Overlong recs := by
  unfold mergeRecs at h
  split at h
  · cases h
  · rename_i e₀ hlast
    split at h
    · split at h
      · rename_i hlong
        cases h
        exact ⟨trivial, e₀, List.mem_of_getLast? hlast, hlong⟩
      · split at h <;> cases h
    · cases h

theorem Overlong.of_copied (h : Overlong (recs.map copied)) : Overlong recs := by
  obtain ⟨e', hmem, hlong⟩ := h
  obtain ⟨e, he, rfl⟩ := List.mem_map.mp hmem
  unfold copied at hlong
  split at hlong
  · exact ⟨e, he, hlong⟩
  · exact absurd hlong (by simp)

theorem Overlong.of_sublist (h : Overlong recs) (hsub : ∀ e ∈ recs, e ∈ recs') : Overlong recs' :=
  h.imp fun e he => ⟨hsub e he.1, he.2⟩

/-! ## One more block in a node -/

variable {b : Bytes} {base cap d : ℕ}

theorem leafMax_lt (hv : GeometryOk v) : v.leafMax < 2 ^ 16 := by
  have hroom := leafMax_room hv
  have hbs := hv.bs_le
  unfold maxBlockSize at hbs
  omega

/-- The last record of a node, one block longer. -/
theorem node_merge {e : Extent} (hhead : HeadOk b base cap d)
    (hmerge : mergeRecs (leafRecs b base) lb p = .ok (some e)) :
    HeadOk (wrExtent b base ((hdrOf b base).entries - 1) e) base cap d ∧
      (hdrOf (wrExtent b base ((hdrOf b base).entries - 1) e) base).max = (hdrOf b base).max ∧
      Put (leafRecs b base) lb p (leafRecs (wrExtent b base ((hdrOf b base).entries - 1) e) base) := by
  obtain ⟨init, e₀, hrecs, hw, hend, hpb, hlt, rfl⟩ := mergeRecs_some hmerge
  have hlen : (hdrOf b base).entries = init.length + 1 := by
    have := congrArg List.length hrecs
    simpa [leafRecs] using this
  have hsplit : recordsOf b base init.length = init ∧ extentAt b base init.length = e₀ := by
    have h := hrecs
    rw [leafRecs, hlen, recordsOf_succ] at h
    obtain ⟨h₁, h₂⟩ := List.append_inj' h rfl
    exact ⟨h₁, by simpa using h₂⟩
  have hfits : Fits { e₀ with len := e₀.len + 1 } := by
    have h := extentAt_fits b base init.length
    rw [hsplit.2] at h
    obtain ⟨-, hlt'⟩ := hw
    exact ⟨h.1, by simp only; omega, h.2.2⟩
  rw [hlen, Nat.add_sub_cancel]
  -- the header is where it was
  have hagree : NodeAgree (wrExtent b base init.length { e₀ with len := e₀.len + 1 }) b base base 0 :=
    fun k hk => wrExtent_outside (by omega)
  have hhdr := hagree.hdrOf_eq
  refine ⟨hhead.of_header hagree, by rw [hhdr], ?_⟩
  · have hnew : leafRecs (wrExtent b base init.length { e₀ with len := e₀.len + 1 }) base =
        init ++ [{ e₀ with len := e₀.len + 1 }] := by
      rw [leafRecs, hhdr, hlen, recordsOf_wrExtent hfits, hsplit.1]
    rw [hnew]
    exact .merge hrecs hw hend hpb hlt

/-- A new record behind the last one of a node that has room. -/
theorem node_append (hhead : HeadOk b base cap d) (hcap : cap < 2 ^ 16)
    (hroom : (hdrOf b base).entries < (hdrOf b base).max)
    (hno : mergeRecs (leafRecs b base) lb p = .ok none) (hlb : lb < 2 ^ 32) (hp : p < 2 ^ 48) :
    HeadOk (wrHdr (wrExtent b base (hdrOf b base).entries ⟨lb, 1, p⟩) base
        ((hdrOf b base).entries + 1) (hdrOf b base).max 0) base cap 0 ∧
      (hdrOf (wrHdr (wrExtent b base (hdrOf b base).entries ⟨lb, 1, p⟩) base
        ((hdrOf b base).entries + 1) (hdrOf b base).max 0) base).max = (hdrOf b base).max ∧
      Put (leafRecs b base) lb p (leafRecs (wrHdr (wrExtent b base (hdrOf b base).entries ⟨lb, 1, p⟩)
        base ((hdrOf b base).entries + 1) (hdrOf b base).max 0) base) := by
  have hmax := hhead.max_le
  have hhdr := @hdrOf_wrHdr (wrExtent b base (hdrOf b base).entries ⟨lb, 1, p⟩) base 0 _ _
    (show (hdrOf b base).entries + 1 < 2 ^ 16 by omega)
    (show (hdrOf b base).max < 2 ^ 16 by omega) (by omega)
  refine ⟨headOk_wrHdr hroom hhead.max_pos hmax hcap (by omega), by rw [hhdr], ?_⟩
  have hnew : leafRecs (wrHdr (wrExtent b base (hdrOf b base).entries ⟨lb, 1, p⟩) base
      ((hdrOf b base).entries + 1) (hdrOf b base).max 0) base = leafRecs b base ++ [⟨lb, 1, p⟩] := by
    rw [leafRecs, hhdr, recordsOf_wrHdr, recordsOf_wrExtent ⟨hlb, show 1 < 2 ^ 16 by omega, hp⟩, leafRecs]
  rw [hnew]
  exact .append hno

/-! ## The rightmost leaf -/

/-- One more block in the leaf at `c`. -/
structure LeafPut (v : Ext4) (ino gen c lb p : ℕ) (s s' : FsState) : Prop where
  write : ∃ w, s' = setBlock v s c w
  put : ∃ recs, Put (leafRecs (block v s c) 0) lb p recs ∧
    LeafWritten v ino gen (block v s' c) (hdrOf (block v s c) 0).max recs

/-- The upper half of the full leaf at `c` moved to the new leaf `q`. -/
structure LeafSplit (v : Ext4) (L : Layout) (ino gen c q : ℕ) (s s' : FsState) : Prop where
  taken : ∃ s₁ w w', BlockTaken v L q s s₁ ∧ s' = setBlock v (setBlock v s₁ c w) q w'
  full : (leafRecs (block v s c) 0).length = (hdrOf (block v s c) 0).max
  two : 2 ≤ (leafRecs (block v s c) 0).length
  lower : LeafWritten v ino gen (block v s' c) (hdrOf (block v s c) 0).max
    ((leafRecs (block v s c) 0).take ((leafRecs (block v s c) 0).length / 2))
  upper : LeafWritten v ino gen (block v s' q) (hdrOf (block v s c) 0).max
    (((leafRecs (block v s c) 0).drop ((leafRecs (block v s c) 0).length / 2)).map copied)

/-- The first logical block `place_in_rightmost_leaf` gives the new leaf. -/
def splitKey (recs : List Extent) : ℕ :=
  match recs[recs.length / 2]? with
  | some e => (copied e).lb
  | none => 0

/-- The root with an entry for the new leaf. -/
def grownRoot (inode : Inode) (first q : ℕ) : Inode :=
  { inode with
    raw := wrHdr (wrIndex inode.raw iblock (hdrOf inode.raw iblock).entries first q) iblock
      ((hdrOf inode.raw iblock).entries + 1) (hdrOf inode.raw iblock).max 1 }

/-- No block is left. -/
def NoRoom (v : Ext4) (L : Layout) (s : FsState) : Prop :=
  ∀ g j, g < v.numGroups → j < v.bpg / 8 * 8 → freeBit v L s false g j = false

/-- How `place_in_rightmost_leaf` may end, when the last entry of the root leads to `c`. -/
inductive PlaceEnds (v : Ext4) (L : Layout) (s : FsState) (inode : Inode) (c lb p : ℕ) :
    Except FsFail (Bool × Inode) × FsState → Prop
  | put {s' : FsState} (h : LeafPut v inode.ino inode.gen c lb p s s') :
      PlaceEnds v L s inode c lb p (.ok (true, inode), s')
  | noRoom (hfull : (leafRecs (block v s c) 0).length = (hdrOf (block v s c) 0).max)
      (h : (leafRecs (block v s c) 0).length < 2 ∨ NoRoom v L s) :
      PlaceEnds v L s inode c lb p (.error (.error .noSpace), s)
  | split {q : ℕ} {s' : FsState} (h : LeafSplit v L inode.ino inode.gen c q s s')
      (hroot : (hdrOf inode.raw iblock).entries < (hdrOf inode.raw iblock).max)
      (hno : mergeRecs (leafRecs (block v s c) 0) lb p = .ok none) :
      PlaceEnds v L s inode c lb p
        (.ok (false, grownRoot inode (splitKey (leafRecs (block v s c) 0)) q), s')
  | rootFull {q : ℕ} {s' : FsState} (h : LeafSplit v L inode.ino inode.gen c q s s')
      (hroot : (hdrOf inode.raw iblock).max ≤ (hdrOf inode.raw iblock).entries) :
      PlaceEnds v L s inode c lb p (.error (.error .noSpace), s')
  | skips {e : FsFail} {s' : FsState} (he : Skips e)
      (h : Overlong (leafRecs (block v s c) 0) ∨ ¬SmallCounts s) :
      PlaceEnds v L s inode c lb p (.error e, s')

section Place

variable (hv : GeometryOk v)
include hv

theorem leafPut_merge {ino gen c : ℕ} {e : Extent} (hhead : HeadOk (block v s c) 0 v.leafMax 0)
    (hmerge : mergeRecs (leafRecs (block v s c) 0) lb p = .ok (some e)) :
    LeafPut v ino gen c lb p s (setBlock v s c (stampExtent v ino gen
      (wrExtent (block v s c) 0 ((hdrOf (block v s c) 0).entries - 1) e)
      (hdrOf (block v s c) 0).max)) := by
  obtain ⟨hhead', hmax, hput⟩ := node_merge hhead hmerge
  refine ⟨⟨_, rfl⟩, _, hput, ?_⟩
  rw [block_setBlock_self]
  exact leafWritten_stamp hv hhead' hmax rfl

theorem leafPut_append {ino gen c : ℕ} (hhead : HeadOk (block v s c) 0 v.leafMax 0)
    (hroom : (hdrOf (block v s c) 0).entries < (hdrOf (block v s c) 0).max)
    (hno : mergeRecs (leafRecs (block v s c) 0) lb p = .ok none) (hlb : lb < 2 ^ 32)
    (hp : p < 2 ^ 48) : LeafPut v ino gen c lb p s (setBlock v s c (stampExtent v ino gen
      (wrHdr (wrExtent (block v s c) 0 (hdrOf (block v s c) 0).entries ⟨lb, 1, p⟩) 0
        ((hdrOf (block v s c) 0).entries + 1) (hdrOf (block v s c) 0).max 0)
      (hdrOf (block v s c) 0).max)) := by
  obtain ⟨hhead', hmax, hput⟩ := node_append hhead (leafMax_lt hv) hroom hno hlb hp
  refine ⟨⟨_, rfl⟩, _, hput, ?_⟩
  rw [block_setBlock_self]
  exact leafWritten_stamp hv hhead' hmax rfl

/-- The two halves of a full leaf. -/
theorem leafSplit_intro {ino gen c q : ℕ} {s₁ : FsState}
    (hhead : HeadOk (block v s c) 0 v.leafMax 0)
    (hfull : (hdrOf (block v s c) 0).entries = (hdrOf (block v s c) 0).max)
    (htwo : 2 ≤ (hdrOf (block v s c) 0).entries) (ht : BlockTaken v L q s s₁) (hne : c ≠ q) :
    LeafSplit v L ino gen c q s (setBlock v (setBlock v s₁ c (stampExtent v ino gen
        (wrHdr (block v s c) 0 ((hdrOf (block v s c) 0).entries / 2) (hdrOf (block v s c) 0).max 0)
        (hdrOf (block v s c) 0).max)) q (stampExtent v ino gen
        (wrHdr (copyExtents (blockNode (block v s c))
            ((hdrOf (block v s c) 0).entries - (hdrOf (block v s c) 0).entries / 2)
            ((hdrOf (block v s c) 0).entries / 2) 0 fun _ => 0) 0
          ((hdrOf (block v s c) 0).entries - (hdrOf (block v s c) 0).entries / 2)
          (hdrOf (block v s c) 0).max 0) (hdrOf (block v s c) 0).max)) := by
  have hlt := leafMax_lt hv
  have hroom := leafMax_room hv
  have hbs := hv.bs_le
  have hmax := hhead.max_le
  have hlen : (leafRecs (block v s c) 0).length = (hdrOf (block v s c) 0).entries :=
    length_recordsOf _ _ _
  refine ⟨⟨s₁, _, _, ht, rfl⟩, by rw [hlen, hfull], by rw [hlen]; exact htwo, ?_, ?_⟩
  · rw [block_setBlock_ne hne, block_setBlock_self, hlen]
    have hhdr := @hdrOf_wrHdr (block v s c) 0 0 _ _
      (show (hdrOf (block v s c) 0).entries / 2 < 2 ^ 16 by omega)
      (show (hdrOf (block v s c) 0).max < 2 ^ 16 by omega) (by omega)
    refine leafWritten_stamp hv (headOk_wrHdr (by omega) hhead.max_pos hmax hlt (by omega))
      (by rw [hhdr]) ?_
    rw [leafRecs, hhdr, recordsOf_wrHdr, leafRecs, recordsOf_take (by omega)]
  · rw [block_setBlock_self, hlen]
    generalize hcopy : copyExtents (blockNode (block v s c)) _ _ 0 (fun _ => 0) = upper
    have hhdr := @hdrOf_wrHdr upper 0 0 _ _
      (show (hdrOf (block v s c) 0).entries - (hdrOf (block v s c) 0).entries / 2 < 2 ^ 16 by omega)
      (show (hdrOf (block v s c) 0).max < 2 ^ 16 by omega) (by omega)
    refine leafWritten_stamp hv (headOk_wrHdr (by omega) hhead.max_pos hmax hlt (by omega))
      (by rw [hhdr]) ?_
    rw [leafRecs, hhdr, recordsOf_wrHdr, ← hcopy, recordsOf_copyExtents]
    · rw [leafRecs, Nat.add_sub_cancel' (Nat.div_le_self _ 2)]
      rfl
    · show 0 + 12 + 12 * _ ≤ maxBlockSize
      omega

theorem firstLb_eq {c : ℕ} (hhead : HeadOk (block v s c) 0 v.leafMax 0)
    (htwo : 2 ≤ (hdrOf (block v s c) 0).entries) :
    firstLb (block v s c) ((hdrOf (block v s c) 0).entries / 2) =
      splitKey (leafRecs (block v s c) 0) := by
  have hroom := leafMax_room hv
  have hbs := hv.bs_le
  have hmax := hhead.max_le
  have hle := hhead.entries_le
  have hget : (leafRecs (block v s c) 0)[(hdrOf (block v s c) 0).entries / 2]? =
      some (extentAt (block v s c) 0 ((hdrOf (block v s c) 0).entries / 2)) := by
    rw [leafRecs, recordsOf, List.getElem?_map, List.getElem?_range (by omega)]
    rfl
  rw [splitKey, show (leafRecs (block v s c) 0).length = (hdrOf (block v s c) 0).entries from
    length_recordsOf _ _ _, hget, firstLb, rdExtent_eq (by omega)]
  dsimp only
  unfold copied
  by_cases hw : Written (extentAt (block v s c) 0 ((hdrOf (block v s c) 0).entries / 2))
  · rw [if_pos hw, if_pos hw]
  · rw [if_neg hw, if_neg hw]

/-- SOURCE: ext4.rs:994-1057 -/
theorem place_ends (hL : LayoutOk v L) (hp : PlacedAt v L s) {inode : Inode} {first c : ℕ}
    (htree : TreeOk v s 1 inode.raw iblock 4)
    (hlast : (kidsOf inode.raw iblock).getLast? = some (first, c)) (hc : IsBlock v c)
    (hmark : marked v L s c = true) (hlb : lb < 2 ^ 32) (hpb : p < 2 ^ 48) :
    PlaceEnds v L s inode c lb p (placeInRightmostLeaf v inode lb p s) := by
  have hroom := leafMax_room hv
  have hbs := hv.bs_le
  have hentries := htree.headOk.entries_le
  have hcap := htree.headOk.max_le
  -- the last entry of the root
  have hkids : kidsOf inode.raw iblock ≠ [] := by
    intro h
    rw [h] at hlast
    cases hlast
  obtain ⟨n, hn⟩ : ∃ n, (hdrOf inode.raw iblock).entries = n + 1 := by
    refine ⟨(hdrOf inode.raw iblock).entries - 1, ?_⟩
    have : (kidsOf inode.raw iblock).length = (hdrOf inode.raw iblock).entries := length_indexOf _ _ _
    have := List.length_pos_of_ne_nil hkids
    omega
  have hidx : indexAt inode.raw iblock n = (first, c) := by
    rw [kidsOf, hn, indexOf_succ, List.getLast?_concat] at hlast
    exact Option.some.inj hlast
  have hleaf : HeadOk (block v s c) 0 v.leafMax 0 := by
    refine (htree.2 (first, c) ?_).2.2
    exact mem_indexOf.mpr ⟨n, by omega, hidx⟩
  have hmerge : mergeLast (blockNode (block v s c)) (hdrOf (block v s c) 0).entries lb p =
      mergeRecs (leafRecs (block v s c) 0) lb p := by
    apply mergeLast_eq
    have h₁ := hleaf.entries_le
    have h₂ := hleaf.max_le
    show 0 + 12 + 12 * _ ≤ maxBlockSize
    omega
  rw [placeInRightmostLeaf, rdHdr_eq (by decide) htree.headOk.magic]
  dsimp only
  rw [if_neg (by omega), hn, Nat.add_sub_cancel, rdIndex_eq (by
    unfold maxInodeSize iblock; omega), hidx]
  dsimp only
  rw [Prog.bind_ok (readFsb_ok hv hc.2), rdHdr_eq (by unfold maxBlockSize; omega) hleaf.magic]
  dsimp only
  rw [hmerge]
  cases hm : mergeRecs (leafRecs (block v s c) 0) lb p with
  | error e =>
    rw [Prog.bind_error (Prog.lift_apply _ s)]
    exact .skips (mergeRecs_error hm).1 (.inl (mergeRecs_error hm).2)
  | ok o =>
    rw [Prog.bind_ok (Prog.lift_apply _ s)]
    cases o with
    | some e =>
      dsimp only
      rw [Prog.bind_ok (extentBlockCsum_ok hv hleaf.max_le), Prog.bind_ok (writeFsb_ok hv hc.2)]
      exact .put (leafPut_merge hv hleaf hm)
    | none =>
      dsimp only
      by_cases hlt : (hdrOf (block v s c) 0).entries < (hdrOf (block v s c) 0).max
      · have hin := hleaf.max_le
        rw [if_pos hlt, Prog.bind_ok (wroteRecord_ok (by omega)),
          Prog.bind_ok (extentBlockCsum_ok hv hleaf.max_le), Prog.bind_ok (writeFsb_ok hv hc.2)]
        exact .put (leafPut_append hv hleaf hlt hm hlb hpb)
      · have hfull : (hdrOf (block v s c) 0).entries = (hdrOf (block v s c) 0).max := by
          have := hleaf.entries_le
          omega
        have hfull' : (leafRecs (block v s c) 0).length = (hdrOf (block v s c) 0).max := by
          rw [← hfull]
          exact length_recordsOf _ _ _
        rw [if_neg hlt]
        by_cases hhalf : (hdrOf (block v s c) 0).entries / 2 = 0
        · rw [if_pos hhalf]
          exact .noRoom hfull' (.inl (by omega))
        · rw [if_neg hhalf]
          rcases allocBlock_ends hv hL hp with ⟨g, j, s₁, hg, hj, hfree, hfirst, hrun, ht⟩ | ⟨hno, hrun⟩ |
            ⟨hbig, e, s₁, he, hrun⟩
          · have hq := ht.blockTaken hv hL hg hj hfree hfirst
            generalize unitAt v false g j = q at hrun hq
            have hne : c ≠ q := by
              rintro rfl
              rw [hq.fresh] at hmark
              cases hmark
            have hsplit := @leafSplit_intro v L s hv inode.ino inode.gen _ _ _ hleaf hfull
              (by omega) hq hne
            rw [Prog.bind_ok hrun, Prog.bind_ok (extentBlockCsum_ok hv hleaf.max_le),
              Prog.bind_ok (extentBlockCsum_ok hv hleaf.max_le), Prog.bind_ok (writeFsb_ok hv hc.2),
              Prog.bind_ok (writeFsb_ok hv hq.isBlock.2), firstLb_eq hv hleaf (by omega)]
            by_cases hroot : (hdrOf inode.raw iblock).max ≤ n + 1
            · rw [if_pos hroot]
              exact .rootFull hsplit (by omega)
            · rw [if_neg hroot, ← hn, Prog.bind_ok (wroteRecord_root htree.headOk (by omega))]
              exact .split hsplit (by omega) hm
          · rw [Prog.bind_error hrun]
            exact .noRoom hfull' (.inr hno)
          · rw [Prog.bind_error hrun]
            exact .skips he (.inr hbig)

end Place

/-! ## The root -/

/-- The bytes of an inode around its root are the same. -/
def SameAround (raw raw' : Bytes) : Prop := ∀ k, k < iblock ∨ iblock + 60 ≤ k → raw' k = raw k

theorem SameAround.trans {raw raw' raw'' : Bytes} (h : SameAround raw raw')
    (h' : SameAround raw' raw'') : SameAround raw raw'' :=
  fun k hk => (h' k hk).trans (h k hk)

theorem SameAround.gen_eq {inode inode' : Inode} (h : SameAround inode.raw inode'.raw) :
    inode'.gen = inode.gen :=
  Bytes.getLE_congr fun j _ => h _ (Or.inr (by unfold iblock; omega))

/-- The root with a leaf of its own for all it had. -/
def deepRoot (inode : Inode) (q : ℕ) : Inode :=
  { inode with
    raw := wrIndex (wrHdr inode.raw iblock 1 (hdrOf inode.raw iblock).max 1) iblock 0 0 q }

/-- The root of an inode that gets its first block. -/
def withHeader (inode : Inode) : Inode :=
  if HasMagic inode.raw iblock then inode
  else { inode with raw := wrHdr inode.raw iblock 0 4 0 }

theorem grownRoot_kids {inode : Inode} {first q : ℕ} (hhead : HeadOk inode.raw iblock 4 1)
    (hroom : (hdrOf inode.raw iblock).entries < (hdrOf inode.raw iblock).max)
    (hfirst : first < 2 ^ 32) (hq : q < 2 ^ 48) :
    HeadOk (grownRoot inode first q).raw iblock 4 1 ∧
      kidsOf (grownRoot inode first q).raw iblock = kidsOf inode.raw iblock ++ [(first, q)] ∧
      SameAround inode.raw (grownRoot inode first q).raw := by
  have hmax := hhead.max_le
  have hhdr := @hdrOf_wrHdr (wrIndex inode.raw iblock (hdrOf inode.raw iblock).entries first q)
    iblock 1 _ _ (show (hdrOf inode.raw iblock).entries + 1 < 2 ^ 16 by omega)
    (show (hdrOf inode.raw iblock).max < 2 ^ 16 by omega) (by omega)
  refine ⟨headOk_wrHdr hroom hhead.max_pos hmax (by omega) (by omega), ?_, fun k hk => ?_⟩
  · unfold kidsOf grownRoot
    dsimp only
    rw [hhdr, indexOf_wrHdr, indexOf_wrIndex hfirst hq]
  · unfold grownRoot
    dsimp only
    rw [wrHdr_outside (by omega), wrIndex_outside (by omega)]

theorem deepRoot_kids {inode : Inode} {q : ℕ} (hhead : HeadOk inode.raw iblock 4 0)
    (hq : q < 2 ^ 48) :
    HeadOk (deepRoot inode q).raw iblock 4 1 ∧ kidsOf (deepRoot inode q).raw iblock = [(0, q)] ∧
      SameAround inode.raw (deepRoot inode q).raw := by
  have hmax := hhead.max_le
  have hpos := hhead.max_pos
  have hhdr := @hdrOf_wrHdr inode.raw iblock 1 1 _
    (by omega) (show (hdrOf inode.raw iblock).max < 2 ^ 16 by omega) (by omega)
  have hagree : NodeAgree (deepRoot inode q).raw
      (wrHdr inode.raw iblock 1 (hdrOf inode.raw iblock).max 1) iblock iblock 0 := by
    intro k hk
    unfold deepRoot
    dsimp only
    apply wrIndex_outside
    omega
  have hold := @headOk_wrHdr inode.raw iblock _ 1 1 _ hpos hpos hmax
    (by omega) (by omega)
  refine ⟨hold.of_header hagree, ?_, fun k hk => ?_⟩
  · rw [kidsOf, hagree.hdrOf_eq, hhdr]
    exact indexOf_wrIndex (n := 0) (by omega) hq
  · unfold deepRoot
    dsimp only
    rw [wrIndex_outside (by omega), wrHdr_outside (by omega)]

theorem withHeader_head {inode : Inode} (hok : RootOk v s inode.raw)
    (hdepth : HasMagic inode.raw iblock → rootDepth inode.raw ≤ 1) :
    (HeadOk (withHeader inode).raw iblock 4 0 ∧
        (leafRecs (withHeader inode).raw iblock).flatMap extentMaps = treeMaps v s inode.raw ∨
      withHeader inode = inode ∧ TreeOk v s 1 inode.raw iblock 4) ∧
      SameAround inode.raw (withHeader inode).raw := by
  by_cases hmagic : HasMagic inode.raw iblock
  · have hwith : withHeader inode = inode := if_pos hmagic
    have htree := hok hmagic
    have hle := hdepth hmagic
    rw [hwith]
    refine ⟨?_, fun k _ => rfl⟩
    unfold treeMaps
    rw [if_pos hmagic]
    cases hd : rootDepth inode.raw with
    | zero =>
      rw [hd] at htree
      exact Or.inl ⟨htree, rfl⟩
    | succ d =>
      have hd0 : d = 0 := by omega
      rw [hd, hd0] at htree
      exact Or.inr ⟨rfl, htree⟩
  · have hraw : (withHeader inode).raw = wrHdr inode.raw iblock 0 4 0 := by
      rw [withHeader, if_neg hmagic]
    refine ⟨Or.inl ⟨?_, ?_⟩, fun k hk => ?_⟩
    · rw [hraw]
      exact headOk_wrHdr (by omega) (by omega) (by omega) (by omega) (by omega)
    · rw [hraw, leafRecs, hdrOf_wrHdr (by omega) (by omega) (by omega), treeMaps, if_neg hmagic]
      rfl
    · rw [hraw, wrHdr_outside (by omega)]

/-! ## Deepening -/

/-- The records of a full root are in the new leaf `q`. -/
structure Deepened (v : Ext4) (L : Layout) (inode : Inode) (q : ℕ) (s s' : FsState) : Prop where
  taken : ∃ s₁ w, BlockTaken v L q s s₁ ∧ s' = setBlock v s₁ q w
  leaf : LeafWritten v inode.ino inode.gen (block v s' q) v.leafMax
    ((leafRecs inode.raw iblock).map copied)

/-- How `deepen` may end. -/
inductive DeepenEnds (v : Ext4) (L : Layout) (s : FsState) (inode : Inode) :
    Except FsFail Inode × FsState → Prop
  | deepened {q : ℕ} {s' : FsState} (h : Deepened v L inode q s s') :
      DeepenEnds v L s inode (.ok (deepRoot inode q), s')
  | noRoom (h : NoRoom v L s) : DeepenEnds v L s inode (.error (.error .noSpace), s)
  | skips {e : FsFail} {s' : FsState} (he : Skips e) (h : ¬SmallCounts s) :
      DeepenEnds v L s inode (.error e, s')

/-- SOURCE: ext4.rs:969-981 -/
theorem deepen_ends (hv : GeometryOk v) (hL : LayoutOk v L) (hp : PlacedAt v L s) {inode : Inode}
    (hhead : HeadOk inode.raw iblock 4 0) :
    DeepenEnds v L s inode
      (deepen v inode (hdrOf inode.raw iblock).entries (hdrOf inode.raw iblock).max s) := by
  have hlt := leafMax_lt hv
  have hle := hhead.entries_le
  have hcap := hhead.max_le
  have hfour : 4 ≤ v.leafMax := by
    unfold Ext4.leafMax
    obtain h | h | h := hv.bs <;> rw [h] <;> omega
  unfold deepen
  rcases allocBlock_ends hv hL hp with ⟨g, j, s₁, hg, hj, hfree, hfirst, hrun, ht⟩ | ⟨hno, hrun⟩ |
    ⟨hbig, e, s₁, he, hrun⟩
  · have hq := ht.blockTaken hv hL hg hj hfree hfirst
    generalize unitAt v false g j = q at hrun hq
    rw [Prog.bind_ok hrun, Prog.bind_ok (extentBlockCsum_ok hv (le_refl _)),
      Prog.bind_ok (writeFsb_ok hv hq.isBlock.2)]
    refine .deepened ⟨⟨s₁, _, hq, rfl⟩, ?_⟩
    rw [block_setBlock_self]
    generalize hcopy : copyExtents inode.root _ 0 0 (fun _ => 0) = blk
    have hhdr := @hdrOf_wrHdr blk 0 0 _ _
      (show (hdrOf inode.raw iblock).entries < 2 ^ 16 by omega) hlt (by omega)
    refine leafWritten_stamp hv (headOk_wrHdr (by omega) (by omega) (le_refl _) hlt (by omega))
      (by rw [hhdr]) ?_
    rw [leafRecs, hhdr, recordsOf_wrHdr, ← hcopy, recordsOf_copyExtents]
    · rw [Nat.zero_add, List.drop_zero]
      rfl
    · have hroot : iblock + 12 + 12 * 4 ≤ maxInodeSize := by decide
      show iblock + 12 + 12 * _ ≤ maxInodeSize
      omega
  · rw [Prog.bind_error hrun]
    exact .noRoom hno
  · rw [Prog.bind_error hrun]
    exact .skips he hbig

/-! ## The whole insertion -/

/-- The records the next block is put behind. -/
def lastRecs (v : Ext4) (s : FsState) (raw : Bytes) : List Extent :=
  if rootDepth raw = 0 then leafRecs raw iblock
  else match (kidsOf raw iblock).getLast? with
    | some x => leafRecs (block v s x.2) 0
    | none => []

/-- Why an insertion may not come to an end. -/
def Stuck (v : Ext4) (s : FsState) (raw : Bytes) : Prop :=
  Overlong (lastRecs v s raw) ∨ ¬SmallCounts s ∨ 0 < rootDepth raw ∧ kidsOf raw iblock = []

/-- Why an insertion may find no room: no block is free, or the last leaf is full and too
small to be split. -/
def Cramped (v : Ext4) (L : Layout) (s : FsState) (raw : Bytes) : Prop :=
  NoRoom v L s ∨ 0 < rootDepth raw ∧ (lastRecs v s raw).length < 2

/-- How `insert_extent` may end on an inode with a root. -/
inductive InsertEnds (v : Ext4) (L : Layout) (s : FsState) (inode : Inode) (lb p : ℕ) :
    Except FsFail Inode × FsState → Prop
  | root {raw : Bytes} (hhead : HeadOk inode.raw iblock 4 0) (hhead' : HeadOk raw iblock 4 0)
      (hput : Put (leafRecs inode.raw iblock) lb p (leafRecs raw iblock))
      (haround : SameAround inode.raw raw) :
      InsertEnds v L s inode lb p (.ok { inode with raw := raw }, s)
  | deepened {q : ℕ} {s₁ s' : FsState} (hhead : HeadOk inode.raw iblock 4 0)
      (hdeep : Deepened v L inode q s s₁) (hput : LeafPut v inode.ino inode.gen q lb p s₁ s') :
      InsertEnds v L s inode lb p (.ok (deepRoot inode q), s')
  | leaf {c : ℕ} {s' : FsState} (htree : TreeOk v s 1 inode.raw iblock 4)
      (hlast : ∃ first, (kidsOf inode.raw iblock).getLast? = some (first, c))
      (hput : LeafPut v inode.ino inode.gen c lb p s s') :
      InsertEnds v L s inode lb p (.ok inode, s')
  | split {c q : ℕ} {s₁ s' : FsState} (htree : TreeOk v s 1 inode.raw iblock 4)
      (hlast : ∃ first, (kidsOf inode.raw iblock).getLast? = some (first, c))
      (hroom : (hdrOf inode.raw iblock).entries < (hdrOf inode.raw iblock).max)
      (hsplit : LeafSplit v L inode.ino inode.gen c q s s₁)
      (hput : LeafPut v inode.ino inode.gen q lb p s₁ s')
      (hno : mergeRecs (leafRecs (block v s c) 0) lb p = .ok none) :
      InsertEnds v L s inode lb p
        (.ok (grownRoot inode (splitKey (leafRecs (block v s c) 0)) q), s')
  | noRoom (h : Cramped v L s inode.raw) :
      InsertEnds v L s inode lb p (.error (.error .noSpace), s)
  | rootFull {c q : ℕ} {s' : FsState} (htree : TreeOk v s 1 inode.raw iblock 4)
      (hlast : ∃ first, (kidsOf inode.raw iblock).getLast? = some (first, c))
      (hsplit : LeafSplit v L inode.ino inode.gen c q s s') :
      InsertEnds v L s inode lb p (.error (.error .noSpace), s')
  | skips {e : FsFail} {s' : FsState} (he : Skips e) (h : Stuck v s inode.raw) :
      InsertEnds v L s inode lb p (.error e, s')

theorem LeafPut.touches (hv : GeometryOk v) (hL : LayoutOk v L) {ino gen c : ℕ}
    (h : LeafPut v ino gen c lb p s s') (hc : L.role c = .data) : Touches v L (· = c) s s' := by
  obtain ⟨w, rfl⟩ := h.write
  exact touches_dataWrite hv hL hc rfl

theorem LeafSplit.touches (hv : GeometryOk v) (hL : LayoutOk v L) {ino gen c q : ℕ}
    (h : LeafSplit v L ino gen c q s s') (hs : Placed v L s) (hc : L.role c = .data) :
    Touches v L (fun b => b = c ∨ b = q) s s' ∧ L.role q = .data ∧ IsBlock v q ∧ q ≠ 0 ∧
      marked v L s q = false ∧ marked v L s' q = true := by
  obtain ⟨s₁, w, w', ht, rfl⟩ := h.taken
  have hq := ht.role_eq hs
  refine ⟨((ht.touches hv hL _).trans (touches_dataWrite hv hL hc (Or.inl rfl))).trans
    (touches_dataWrite hv hL hq (Or.inr rfl)), hq, ht.isBlock, ht.nonzero, ht.fresh, ?_⟩
  rw [marked_dataWrite hv hL hq ht.isBlock, marked_dataWrite hv hL hc ht.isBlock, ht.marked_self]

theorem Deepened.touches (hv : GeometryOk v) (hL : LayoutOk v L) {inode : Inode} {q : ℕ}
    (h : Deepened v L inode q s s') (hs : Placed v L s) :
    Touches v L (· = q) s s' ∧ L.role q = .data ∧ IsBlock v q ∧ q ≠ 0 ∧
      marked v L s q = false ∧ marked v L s' q = true := by
  obtain ⟨s₁, w, ht, rfl⟩ := h.taken
  have hq := ht.role_eq hs
  refine ⟨(ht.touches hv hL _).trans (touches_dataWrite hv hL hq rfl), hq, ht.isBlock, ht.nonzero,
    ht.fresh, ?_⟩
  rw [marked_dataWrite hv hL hq ht.isBlock, ht.marked_self]

theorem SmallCounts.mono (h : SmallCounts s)
    (hle : s'.freeBlocks ≤ s.freeBlocks ∧ s'.freeInodes ≤ s.freeInodes) : SmallCounts s' :=
  ⟨lt_of_le_of_lt hle.1 h.1, lt_of_le_of_lt hle.2 h.2⟩

theorem splitKey_lt (recs : List Extent) (h : ∀ e ∈ recs, e.lb < 2 ^ 32) :
    splitKey recs < 2 ^ 32 := by
  unfold splitKey
  split
  · rename_i e he
    unfold copied
    split
    · exact h e (List.mem_of_getElem? he)
    · decide
  · omega

theorem leafRecs_lt {b : Bytes} {base : ℕ} {e : Extent} (he : e ∈ leafRecs b base) :
    e.lb < 2 ^ 32 := by
  obtain ⟨i, -, rfl⟩ := mem_recordsOf.mp he
  exact (extentAt_fits b base i).1

/-- The tree after a split, with the new leaf in it. -/
theorem LeafSplit.treeOk (hv : GeometryOk v) (hL : LayoutOk v L) (hs : Placed v L s)
    {inode : Inode} {ino gen c q : ℕ} (h : LeafSplit v L ino gen c q s s') (hc : L.role c = .data)
    (htree : TreeOk v s 1 inode.raw iblock 4)
    (hkids : ∀ x ∈ kidsOf inode.raw iblock,
      IsBlock v x.2 ∧ L.role x.2 = .data ∧ marked v L s x.2 = true)
    (hroom : (hdrOf inode.raw iblock).entries < (hdrOf inode.raw iblock).max) :
    TreeOk v s' 1 (grownRoot inode (splitKey (leafRecs (block v s c) 0)) q).raw iblock 4 := by
  obtain ⟨htouch, -, hq, hq0, hfresh, -⟩ := h.touches hv hL hs hc
  obtain ⟨hhead, hkids', -⟩ := grownRoot_kids htree.headOk hroom
    (splitKey_lt (leafRecs (block v s c) 0) fun e => leafRecs_lt) (lt_of_lt_of_le hq.2 hv.blocks)
  refine ⟨hhead, fun x hx => ?_⟩
  rw [hkids', List.mem_append, List.mem_singleton] at hx
  rcases hx with hx | rfl
  · obtain ⟨hne, hlt, hleaf⟩ := htree.2 x hx
    obtain ⟨-, hrole, hmark⟩ := hkids x hx
    refine ⟨hne, hlt, ?_⟩
    by_cases hxc : x.2 = c
    · rw [hxc]
      exact h.lower.head
    · have hxq : x.2 ≠ q := by
        intro heq
        rw [heq, hfresh] at hmark
        cases hmark
      rw [htouch.other x.2 hrole (not_or_intro hxc hxq)]
      exact hleaf
  · exact ⟨hq0, hq.2, h.upper.head⟩

theorem mergeLast_root {inode : Inode} (hhead : HeadOk inode.raw iblock 4 0) :
    mergeLast inode.root (hdrOf inode.raw iblock).entries lb p =
      mergeRecs (leafRecs inode.raw iblock) lb p := by
  have hle := hhead.entries_le
  have hcap := hhead.max_le
  have hroot : iblock + 12 + 12 * 4 ≤ maxInodeSize := by decide
  apply mergeLast_eq
  show iblock + 12 + 12 * _ ≤ maxInodeSize
  omega

/-- A block that goes right behind the last record of the root makes it longer. -/
theorem insertExtent_merge {inode : Inode} {e : Extent} (hhead : HeadOk inode.raw iblock 4 0)
    (hmerge : mergeRecs (leafRecs inode.raw iblock) lb p = .ok (some e)) :
    insertExtent v inode lb p s = (.ok { inode with
      raw := wrExtent inode.raw iblock ((hdrOf inode.raw iblock).entries - 1) e }, s) := by
  unfold insertExtent
  rw [rdHdr_eq (by decide) hhead.magic]
  dsimp only
  unfold insertBelow
  rw [if_pos hhead.depth, mergeLast_root hhead, hmerge, Prog.bind_ok (Prog.lift_apply _ _)]
  rfl

section Insert

variable (hv : GeometryOk v) (hL : LayoutOk v L) (hs : Placed v L s) {inode : Inode}
  (hlb : lb < 2 ^ 32) (hpb : p < 2 ^ 48)
include hv hL hs hlb hpb

/-- A leaf that was just made has room for one block more. -/
theorem place_fresh {q : ℕ}
    (hroom : (leafRecs (block v s q) 0).length < (hdrOf (block v s q) 0).max)
    (htree : TreeOk v s 1 inode.raw iblock 4) {first : ℕ}
    (hlast : (kidsOf inode.raw iblock).getLast? = some (first, q)) (hq : IsBlock v q)
    (hmark : marked v L s q = true) :
    (∃ s', placeInRightmostLeaf v inode lb p s = (.ok (true, inode), s') ∧
      LeafPut v inode.ino inode.gen q lb p s s') ∨
    (Overlong (leafRecs (block v s q) 0) ∨ ¬SmallCounts s) ∧
      ∃ e s', Skips e ∧ placeInRightmostLeaf v inode lb p s = (.error e, s') := by
  have hnot := Nat.ne_of_lt hroom
  have hends := place_ends hv hL hs.placed htree hlast hq hmark hlb hpb
  generalize hr : placeInRightmostLeaf v inode lb p s = r at hends
  cases hends with
  | put hput => exact Or.inl ⟨_, rfl, hput⟩
  | noRoom hfull => exact absurd hfull hnot
  | split hsplit => exact absurd hsplit.full hnot
  | rootFull hsplit => exact absurd hsplit.full hnot
  | skips he hwhy => exact Or.inr ⟨hwhy, _, _, he, rfl⟩

/-- The attempt after a split finds room in the leaf the split has made. -/
theorem place_again {c q first : ℕ} {s₁ : FsState} (htree : TreeOk v s 1 inode.raw iblock 4)
    (hkids : ∀ x ∈ kidsOf inode.raw iblock,
      IsBlock v x.2 ∧ L.role x.2 = .data ∧ marked v L s x.2 = true)
    (hmem : (first, c) ∈ kidsOf inode.raw iblock)
    (hroom : (hdrOf inode.raw iblock).entries < (hdrOf inode.raw iblock).max)
    (hsplit : LeafSplit v L inode.ino inode.gen c q s s₁) :
    (∃ s', placeInRightmostLeaf v (grownRoot inode (splitKey (leafRecs (block v s c) 0)) q) lb p s₁ =
        (.ok (true, grownRoot inode (splitKey (leafRecs (block v s c) 0)) q), s') ∧
      LeafPut v inode.ino inode.gen q lb p s₁ s') ∨
    (Overlong (leafRecs (block v s c) 0) ∨ ¬SmallCounts s) ∧ ∃ e s', Skips e ∧
      placeInRightmostLeaf v (grownRoot inode (splitKey (leafRecs (block v s c) 0)) q) lb p s₁ =
        (.error e, s') := by
  have hrole := (hkids _ hmem).2.1
  obtain ⟨htouch, -, hq, -, -, hqmark⟩ := hsplit.touches hv hL hs hrole
  obtain ⟨-, hkids', haround⟩ := grownRoot_kids htree.headOk hroom
    (splitKey_lt (leafRecs (block v s c) 0) fun e => leafRecs_lt) (lt_of_lt_of_le hq.2 hv.blocks)
  have htree' := hsplit.treeOk hv hL hs hrole htree hkids hroom
  have hlast' : (kidsOf (grownRoot inode (splitKey (leafRecs (block v s c) 0)) q).raw
      iblock).getLast? = some (splitKey (leafRecs (block v s c) 0), q) := by
    rw [hkids', List.getLast?_concat]
  have hhalf : (leafRecs (block v s₁ q) 0).length < (hdrOf (block v s₁ q) 0).max := by
    have htwo := hsplit.two
    rw [hsplit.upper.recs_eq, hsplit.upper.max_eq, ← hsplit.full, List.length_map,
      List.length_drop]
    omega
  rcases place_fresh hv hL (htouch.placed hs) hlb hpb hhalf htree' hlast' hq hqmark with
    ⟨s', hrun, hput⟩ | ⟨hwhy, e, s', he, hrun⟩
  · rw [haround.gen_eq] at hput
    exact Or.inl ⟨s', hrun, hput⟩
  · refine Or.inr ⟨hwhy.imp (fun hlong => ?_) fun hbig hsmall => hbig ?_, e, s', he, hrun⟩
    · rw [hsplit.upper.recs_eq] at hlong
      exact hlong.of_copied.of_sublist fun e he => List.mem_of_mem_drop he
    · exact hsmall.mono htouch.counts

/-- SOURCE: ext4.rs:984-991 -/
theorem placeTwice_ends (htree : TreeOk v s 1 inode.raw iblock 4)
    (hkids : ∀ x ∈ kidsOf inode.raw iblock,
      IsBlock v x.2 ∧ L.role x.2 = .data ∧ marked v L s x.2 = true) :
    InsertEnds v L s inode lb p (placeTwice v inode lb p s) := by
  have hdepth : 0 < rootDepth inode.raw := by
    unfold rootDepth
    rw [htree.headOk.depth]
    exact Nat.one_pos
  unfold placeTwice
  cases hlast : (kidsOf inode.raw iblock).getLast? with
  | none =>
    -- an index node without entries: the last index underflows
    have hzero : (hdrOf inode.raw iblock).entries = 0 := by
      have hnil := List.getLast?_eq_none_iff.mp hlast
      have hlen : (kidsOf inode.raw iblock).length = (hdrOf inode.raw iblock).entries :=
        length_indexOf _ _ _
      rw [hnil] at hlen
      exact hlen.symm
    have hrun : placeInRightmostLeaf v inode lb p s = (.error (.fault .overflow), s) := by
      rw [placeInRightmostLeaf, rdHdr_eq (by decide) htree.headOk.magic]
      dsimp only
      rw [if_pos hzero]
      rfl
    rw [Prog.bind_error hrun]
    exact .skips trivial (.inr (.inr ⟨hdepth, List.getLast?_eq_none_iff.mp hlast⟩))
  | some x =>
    obtain ⟨first, c⟩ := x
    have hrecs : lastRecs v s inode.raw = leafRecs (block v s c) 0 := by
      rw [lastRecs, if_neg (Nat.ne_of_gt hdepth), hlast]
    have hmem := List.mem_of_getLast? hlast
    obtain ⟨hc, hrole, hmark⟩ := hkids _ hmem
    have hends := place_ends hv hL hs.placed htree hlast hc hmark hlb hpb
    generalize hr : placeInRightmostLeaf v inode lb p s = r at hends
    cases hends with
    | put hput =>
      rw [Prog.bind_ok hr]
      exact .leaf htree ⟨first, hlast⟩ hput
    | noRoom hfull h =>
      rw [Prog.bind_error hr]
      refine .noRoom (h.symm.imp_right fun hsmall => ⟨hdepth, ?_⟩)
      rw [hrecs]
      exact hsmall
    | rootFull hsplit =>
      rw [Prog.bind_error hr]
      exact .rootFull htree ⟨first, hlast⟩ hsplit
    | skips he h =>
      rw [Prog.bind_error hr]
      refine .skips he (h.imp (fun hlong => ?_) .inl)
      rw [hrecs]
      exact hlong
    | @split q s₁ hsplit hroom hno =>
      rw [Prog.bind_ok hr]
      dsimp only
      rw [if_neg Bool.false_ne_true]
      rcases place_again hv hL hs hlb hpb htree hkids hmem hroom hsplit with
        ⟨s', hrun, hput⟩ | ⟨hwhy, e, s', he, hrun⟩
      · rw [Prog.bind_ok hrun]
        exact .split htree ⟨first, hlast⟩ hroom hsplit hput hno
      · rw [Prog.bind_error hrun]
        refine .skips he (hwhy.imp (fun hlong => ?_) .inl)
        rw [hrecs]
        exact hlong

/-- The first attempt after the records of the root were moved finds room. -/
theorem place_deepened {q : ℕ} {s₁ : FsState} (hhead : HeadOk inode.raw iblock 4 0)
    (hdeep : Deepened v L inode q s s₁) :
    (∃ s', placeInRightmostLeaf v (deepRoot inode q) lb p s₁ = (.ok (true, deepRoot inode q), s') ∧
      LeafPut v inode.ino inode.gen q lb p s₁ s') ∨
    (Overlong (leafRecs inode.raw iblock) ∨ ¬SmallCounts s) ∧
      ∃ e s', Skips e ∧ placeInRightmostLeaf v (deepRoot inode q) lb p s₁ = (.error e, s') := by
  obtain ⟨htouch, -, hq, hq0, -, hqmark⟩ := hdeep.touches hv hL hs
  obtain ⟨hhead', hkids', haround⟩ := @deepRoot_kids inode _ hhead
    (lt_of_lt_of_le hq.2 hv.blocks)
  have htree' : TreeOk v s₁ 1 (deepRoot inode q).raw iblock 4 := by
    refine ⟨hhead', fun x hx => ?_⟩
    rw [hkids', List.mem_singleton] at hx
    subst hx
    exact ⟨hq0, hq.2, hdeep.leaf.head⟩
  have hroom : (leafRecs (block v s₁ q) 0).length < (hdrOf (block v s₁ q) 0).max := by
    have hle := hhead.entries_le
    have hcap := hhead.max_le
    rw [hdeep.leaf.recs_eq, hdeep.leaf.max_eq, List.length_map, leafRecs, length_recordsOf]
    unfold Ext4.leafMax
    obtain h | h | h := hv.bs <;> omega
  have hlast : (kidsOf (deepRoot inode q).raw iblock).getLast? = some (0, q) := by
    rw [hkids']
    rfl
  rcases place_fresh hv hL (htouch.placed hs) hlb hpb hroom htree' hlast hq hqmark with
    ⟨s', hrun, hput⟩ | ⟨hwhy, e, s', he, hrun⟩
  · rw [haround.gen_eq] at hput
    exact Or.inl ⟨s', hrun, hput⟩
  · refine Or.inr ⟨hwhy.imp (fun hlong => ?_) fun hbig hsmall => hbig ?_, e, s', he, hrun⟩
    · rw [hdeep.leaf.recs_eq] at hlong
      exact hlong.of_copied
    · exact hsmall.mono htouch.counts

/-- SOURCE: ext4.rs:944-992, for a full root -/
theorem deepenPlace_ends (hhead : HeadOk inode.raw iblock 4 0) :
    InsertEnds v L s inode lb p ((deepen v inode (hdrOf inode.raw iblock).entries
      (hdrOf inode.raw iblock).max >>= fun inode => placeTwice v inode lb p) s) := by
  have hdepth : rootDepth inode.raw = 0 := hhead.depth
  have hrecs : lastRecs v s inode.raw = leafRecs inode.raw iblock := by
    rw [lastRecs, if_pos hdepth]
  have hends := deepen_ends hv hL hs.placed hhead
  generalize hr : deepen v inode (hdrOf inode.raw iblock).entries (hdrOf inode.raw iblock).max s = r
    at hends
  cases hends with
  | noRoom h =>
    rw [Prog.bind_error hr]
    exact .noRoom (.inl h)
  | skips he h =>
    rw [Prog.bind_error hr]
    exact .skips he (.inr (.inl h))
  | @deepened q s₁ hdeep =>
    rw [Prog.bind_ok hr]
    unfold placeTwice
    rcases place_deepened hv hL hs hlb hpb hhead hdeep with
      ⟨s', hrun, hput⟩ | ⟨hwhy, e, s', he, hrun⟩
    · rw [Prog.bind_ok hrun]
      exact .deepened hhead hdeep hput
    · rw [Prog.bind_error hrun]
      refine .skips he (hwhy.imp (fun hlong => ?_) .inl)
      rw [hrecs]
      exact hlong

/-- SOURCE: ext4.rs:956-991 -/
theorem insertBelow_ends (hhead : HeadOk inode.raw iblock 4 0 ∨ TreeOk v s 1 inode.raw iblock 4)
    (hkids : TreeOk v s 1 inode.raw iblock 4 → ∀ x ∈ kidsOf inode.raw iblock,
      IsBlock v x.2 ∧ L.role x.2 = .data ∧ marked v L s x.2 = true) :
    InsertEnds v L s inode lb p (insertBelow v inode (hdrOf inode.raw iblock) lb p s) := by
  unfold insertBelow
  rcases hhead with hhead | htree
  · have hrecs : lastRecs v s inode.raw = leafRecs inode.raw iblock := by
      rw [lastRecs, if_pos (show rootDepth inode.raw = 0 from hhead.depth)]
    rw [if_pos hhead.depth, mergeLast_root hhead]
    cases hm : mergeRecs (leafRecs inode.raw iblock) lb p with
    | error e =>
      rw [Prog.bind_error (Prog.lift_apply _ s)]
      refine .skips (mergeRecs_error hm).1 (.inl ?_)
      rw [hrecs]
      exact (mergeRecs_error hm).2
    | ok o =>
      rw [Prog.bind_ok (Prog.lift_apply _ s)]
      have hle := hhead.entries_le
      have hcap := hhead.max_le
      cases o with
      | some e =>
        obtain ⟨hhead', -, hput⟩ := node_merge hhead hm
        refine .root hhead hhead' hput fun k hk => wrExtent_outside ?_
        omega
      | none =>
        dsimp only
        by_cases hroom : (hdrOf inode.raw iblock).entries < (hdrOf inode.raw iblock).max
        · obtain ⟨hhead', -, hput⟩ := node_append hhead (by omega) hroom hm hlb hpb
          rw [if_pos hroom, Prog.bind_ok (wroteRecord_root hhead hroom)]
          refine .root hhead hhead' hput fun k hk => ?_
          rw [wrHdr_outside (by omega), wrExtent_outside (by omega)]
        · rw [if_neg hroom]
          exact deepenPlace_ends hv hL hs hlb hpb hhead
  · rw [if_neg (by rw [htree.headOk.depth]; decide)]
    exact placeTwice_ends hv hL hs hlb hpb htree (hkids htree)

/-- SOURCE: ext4.rs:944-992 -/
theorem insertExtent_ends (hok : RootOk v s inode.raw)
    (hdepth : HasMagic inode.raw iblock → rootDepth inode.raw ≤ 1)
    (hnodes : ∀ n ∈ treeNodes v s inode.raw,
      IsBlock v n ∧ L.role n = .data ∧ marked v L s n = true) :
    InsertEnds v L s (withHeader inode) lb p (insertExtent v inode lb p s) := by
  have hcall : insertExtent v inode lb p =
      insertBelow v (withHeader inode) (hdrOf (withHeader inode).raw iblock) lb p := by
    unfold insertExtent
    by_cases hmagic : HasMagic inode.raw iblock
    · rw [rdHdr_eq (by decide) hmagic, show withHeader inode = inode from if_pos hmagic]
    · have hwith : withHeader inode = { inode with raw := wrHdr inode.raw iblock 0 4 0 } :=
        if_neg hmagic
      rw [rdHdr_none hmagic, hwith, hdrOf_wrHdr (by omega) (by omega) (by omega)]
  rw [hcall]
  rcases (withHeader_head hok hdepth).1 with ⟨hhead, -⟩ | ⟨hwith, htree⟩
  · refine insertBelow_ends hv hL hs hlb hpb (Or.inl hhead) fun htree => ?_
    have hd := htree.headOk.depth
    rw [hhead.depth] at hd
    cases hd
  · rw [hwith]
    refine insertBelow_ends hv hL hs hlb hpb (Or.inr htree) fun _ x hx => hnodes x.2 ?_
    have hmagic := htree.headOk.magic
    unfold treeNodes
    rw [if_pos hmagic, show rootDepth inode.raw = 0 + 1 from htree.headOk.depth]
    exact List.mem_flatMap.mpr ⟨x, hx, List.mem_cons_self⟩

end Insert

end Pinx.Analysis
