import Mathlib.Data.Nat.Bitwise
import Pinx.Analysis.Ext4Layout
import Pinx.Foundation.Routing

/-!
# Extent nodes as lists of records

A node is read as its header and the list of its records.  What `wr_hdr`, `wr_extent`
and `wr_index` do to a node is said in terms of that list, once for the node in an
inode and the nodes in blocks of their own.
-/

namespace Pinx.Analysis

open Pinx.Foundation Pinx.Model

/-! ## Headers -/

/-- The header of a node. -/
def hdrOf (b : Bytes) (base : ℕ) : Header :=
  ⟨b.getLE (base + 2) 2, b.getLE (base + 4) 2, b.getLE (base + 6) 2⟩

/-- Whether a node is there at all. -/
def HasMagic (b : Bytes) (base : ℕ) : Prop := b.getLE base 2 = extMagic

instance (b : Bytes) (base : ℕ) : Decidable (HasMagic b base) := inferInstanceAs (Decidable (_ = _))

/-- The header of a node of depth `d` with room for at most `cap` records. -/
structure HeadOk (b : Bytes) (base cap d : ℕ) : Prop where
  magic : HasMagic b base
  entries_le : (hdrOf b base).entries ≤ (hdrOf b base).max
  max_pos : 0 < (hdrOf b base).max
  max_le : (hdrOf b base).max ≤ cap
  depth : (hdrOf b base).depth = d

instance (b : Bytes) (base cap d : ℕ) : Decidable (HeadOk b base cap d) :=
  decidable_of_iff (HasMagic b base ∧ (hdrOf b base).entries ≤ (hdrOf b base).max ∧
      0 < (hdrOf b base).max ∧ (hdrOf b base).max ≤ cap ∧ (hdrOf b base).depth = d)
    ⟨fun h => ⟨h.1, h.2.1, h.2.2.1, h.2.2.2.1, h.2.2.2.2⟩,
      fun h => ⟨h.magic, h.entries_le, h.max_pos, h.max_le, h.depth⟩⟩

variable {b b' : Bytes} {base base' cap d n i k len : ℕ}

theorem rdHdr_eq (hlen : base + 12 ≤ len) (hmagic : HasMagic b base) :
    rdHdr b len base = some (hdrOf b base) := by
  unfold HasMagic at hmagic
  rw [rdHdr, if_neg (by omega), if_neg (not_not_intro hmagic), hdrOf]

/-- A record inside the buffer is written. -/
theorem wroteRecord_ok {s : FsState} (h : base + 12 + 12 * i + 12 ≤ len) :
    wroteRecord len base i b s = (.ok b, s) := by
  rw [wroteRecord, if_neg (not_lt.mpr h)]
  rfl

/-- A root with room is inside its inode. -/
theorem wroteRecord_root {s : FsState} (hhead : HeadOk b iblock 4 d)
    (hroom : (hdrOf b iblock).entries < (hdrOf b iblock).max) :
    wroteRecord maxInodeSize iblock (hdrOf b iblock).entries b' s = (.ok b', s) := by
  have hmax := hhead.max_le
  have hsize : iblock + 60 ≤ maxInodeSize := by decide
  exact wroteRecord_ok (by omega)

theorem rdHdr_none (hmagic : ¬HasMagic b base) : rdHdr b len base = none := by
  unfold rdHdr
  split
  · rfl
  · exact if_pos hmagic

/-- Two nodes with room for `cap` records have the same bytes. -/
def NodeAgree (b b' : Bytes) (base base' cap : ℕ) : Prop :=
  ∀ k < 12 + 12 * cap, b (base + k) = b' (base' + k)

section Agree

variable (h : NodeAgree b b' base base' cap)
include h

theorem NodeAgree.getLE (hk : k + n ≤ 12 + 12 * cap) :
    b.getLE (base + k) n = b'.getLE (base' + k) n := by
  apply Bytes.getLE_congr
  intro j hj
  have := h (k + j) (by omega)
  rwa [← Nat.add_assoc, ← Nat.add_assoc] at this

theorem NodeAgree.hdrOf_eq : hdrOf b base = hdrOf b' base' := by
  unfold hdrOf
  rw [h.getLE (by omega), h.getLE (by omega), h.getLE (by omega)]

theorem NodeAgree.hasMagic : HasMagic b base ↔ HasMagic b' base' := by
  have := h.getLE (k := 0) (n := 2) (by omega)
  unfold HasMagic
  rw [Nat.add_zero, Nat.add_zero] at this
  rw [this]

theorem NodeAgree.headOk (hb : HeadOk b base cap d) : HeadOk b' base' cap d := by
  obtain ⟨hmagic, hle, hpos, hmax, hdepth⟩ := hb
  rw [h.hdrOf_eq] at hle hpos hmax hdepth
  exact ⟨h.hasMagic.mp hmagic, hle, hpos, hmax, hdepth⟩

theorem NodeAgree.extentAt_eq (hi : i < cap) : extentAt b base i = extentAt b' base' i := by
  unfold extentAt
  simp only [Nat.add_assoc base, Nat.add_assoc base', h.getLE (show 12 + 12 * i + 4 ≤ _ by omega),
    h.getLE (show 12 + (12 * i + 4) + 2 ≤ _ by omega),
    h.getLE (show 12 + (12 * i + 6) + 2 ≤ _ by omega),
    h.getLE (show 12 + (12 * i + 8) + 4 ≤ _ by omega), Nat.add_assoc 12]

theorem NodeAgree.indexAt_eq (hi : i < cap) : indexAt b base i = indexAt b' base' i := by
  unfold indexAt
  simp only [Nat.add_assoc base, Nat.add_assoc base', h.getLE (show 12 + 12 * i + 4 ≤ _ by omega),
    h.getLE (show 12 + (12 * i + 4) + 4 ≤ _ by omega),
    h.getLE (show 12 + (12 * i + 8) + 2 ≤ _ by omega), Nat.add_assoc 12]

end Agree

/-- Two nodes with the same header. -/
theorem HeadOk.of_header (hb : HeadOk b base cap d) (h : NodeAgree b' b base base 0) :
    HeadOk b' base cap d := by
  have hhdr := h.hdrOf_eq
  exact ⟨h.hasMagic.mpr hb.magic, hhdr ▸ hb.entries_le, hhdr ▸ hb.max_pos, hhdr ▸ hb.max_le,
    hhdr ▸ hb.depth⟩

/-! ## Writing headers and records -/

theorem wrHdr_outside {e m : ℕ} (h : k < base ∨ base + 12 ≤ k) : wrHdr b base e m d k = b k := by
  unfold wrHdr
  rw [Bytes.putLE_outside (by omega), Bytes.putLE_outside (by omega), Bytes.putLE_outside (by omega),
    Bytes.putLE_outside (by omega), Bytes.putLE_outside (by omega)]

theorem hasMagic_wrHdr (b : Bytes) (base e m d : ℕ) : HasMagic (wrHdr b base e m d) base := by
  unfold HasMagic wrHdr
  rw [Bytes.getLE_putLE_outside (by omega), Bytes.getLE_putLE_outside (by omega),
    Bytes.getLE_putLE_outside (by omega), Bytes.getLE_putLE_outside (by omega), Bytes.getLE_putLE]
  rfl

theorem hdrOf_wrHdr {e m : ℕ} (he : e < 2 ^ 16) (hm : m < 2 ^ 16) (hd : d < 2 ^ 16) :
    hdrOf (wrHdr b base e m d) base = ⟨e, m, d⟩ := by
  have hentries : (wrHdr b base e m d).getLE (base + 2) 2 = e := by
    unfold wrHdr
    rw [Bytes.getLE_putLE_outside (by omega), Bytes.getLE_putLE_outside (by omega),
      Bytes.getLE_putLE_outside (by omega), Bytes.getLE_putLE]
    exact Nat.mod_eq_of_lt he
  have hmax : (wrHdr b base e m d).getLE (base + 4) 2 = m := by
    unfold wrHdr
    rw [Bytes.getLE_putLE_outside (by omega), Bytes.getLE_putLE_outside (by omega),
      Bytes.getLE_putLE]
    exact Nat.mod_eq_of_lt hm
  have hdepth : (wrHdr b base e m d).getLE (base + 6) 2 = d := by
    unfold wrHdr
    rw [Bytes.getLE_putLE_outside (by omega), Bytes.getLE_putLE]
    exact Nat.mod_eq_of_lt hd
  rw [hdrOf, hentries, hmax, hdepth]

theorem headOk_wrHdr {e m : ℕ} (he : e ≤ m) (hpos : 0 < m) (hm : m ≤ cap) (hcap : cap < 2 ^ 16)
    (hd : d < 2 ^ 16) : HeadOk (wrHdr b base e m d) base cap d := by
  have hhdr := @hdrOf_wrHdr b base d _ _ (show e < 2 ^ 16 by omega)
    (show m < 2 ^ 16 by omega) hd
  refine ⟨hasMagic_wrHdr b base e m d, ?_, ?_, ?_, ?_⟩ <;> rw [hhdr] <;> assumption

theorem wrExtent_outside {e : Extent} (h : k < base + 12 + 12 * i ∨ base + 12 + 12 * i + 12 ≤ k) :
    wrExtent b base i e k = b k := by
  unfold wrExtent
  rw [Bytes.putLE_outside (by omega), Bytes.putLE_outside (by omega), Bytes.putLE_outside (by omega),
    Bytes.putLE_outside (by omega)]

theorem wrIndex_outside {lb child : ℕ}
    (h : k < base + 12 + 12 * i ∨ base + 12 + 12 * i + 12 ≤ k) :
    wrIndex b base i lb child k = b k := by
  unfold wrIndex
  rw [Bytes.putLE_outside (by omega), Bytes.putLE_outside (by omega), Bytes.putLE_outside (by omega),
    Bytes.putLE_outside (by omega)]

/-- Records whose fields fit. -/
def Fits (e : Extent) : Prop := e.lb < 2 ^ 32 ∧ e.len < 2 ^ 16 ∧ e.pb < 2 ^ 48

theorem extentAt_fits (b : Bytes) (base i : ℕ) : Fits (extentAt b base i) := by
  unfold Fits extentAt
  have h₁ := Bytes.getLE_lt b (base + 12 + 12 * i) 4
  have h₂ := Bytes.getLE_lt b (base + 12 + 12 * i + 4) 2
  have h₃ := Bytes.getLE_lt b (base + 12 + 12 * i + 6) 2
  have h₄ := Bytes.getLE_lt b (base + 12 + 12 * i + 8) 4
  refine ⟨h₁, h₂, ?_⟩
  dsimp only
  omega

theorem extentAt_wrExtent {e : Extent} (he : Fits e) :
    extentAt (wrExtent b base i e) base i = e := by
  obtain ⟨hlb, hlen, hpb⟩ := he
  unfold extentAt wrExtent
  dsimp only
  rw [Bytes.getLE_putLE_outside (by omega), Bytes.getLE_putLE_outside (by omega),
    Bytes.getLE_putLE_outside (by omega), Bytes.getLE_putLE,
    Bytes.getLE_putLE_outside (by omega), Bytes.getLE_putLE_outside (by omega), Bytes.getLE_putLE,
    Bytes.getLE_putLE_outside (by omega), Bytes.getLE_putLE, Bytes.getLE_putLE]
  have h₁ : e.lb % 256 ^ 4 = e.lb := Nat.mod_eq_of_lt hlb
  have h₂ : e.len % 256 ^ 2 = e.len := Nat.mod_eq_of_lt hlen
  have h₃ : e.pb / 2 ^ 32 % 256 ^ 2 * 2 ^ 32 + e.pb % 256 ^ 4 = e.pb := by omega
  rw [h₁, h₂, h₃]

theorem indexAt_wrIndex {lb child : ℕ} (hlb : lb < 2 ^ 32) (hchild : child < 2 ^ 48) :
    indexAt (wrIndex b base i lb child) base i = (lb, child) := by
  unfold indexAt wrIndex
  dsimp only
  rw [Bytes.getLE_putLE_outside (by omega), Bytes.getLE_putLE_outside (by omega),
    Bytes.getLE_putLE_outside (by omega), Bytes.getLE_putLE,
    Bytes.getLE_putLE_outside (by omega), Bytes.getLE_putLE,
    Bytes.getLE_putLE_outside (by omega), Bytes.getLE_putLE_outside (by omega), Bytes.getLE_putLE]
  have h₁ : lb % 256 ^ 4 = lb := Nat.mod_eq_of_lt hlb
  have h₂ : child / 2 ^ 32 % 256 ^ 2 * 2 ^ 32 + child % 256 ^ 4 = child := by omega
  rw [h₁, h₂]

/-! ## Records -/

/-- The records of a leaf, and of an index node. -/
def recordsOf (b : Bytes) (base n : ℕ) : List Extent := (List.range n).map (extentAt b base)
def indexOf (b : Bytes) (base n : ℕ) : List (ℕ × ℕ) := (List.range n).map (indexAt b base)

/-- The records `rd_extent` returns: not empty and not marked as unwritten. -/
def Written (e : Extent) : Prop := 0 < e.len ∧ e.len < 0x8000

instance (e : Extent) : Decidable (Written e) := inferInstanceAs (Decidable (_ ∧ _))

@[simp] theorem length_recordsOf (b : Bytes) (base n : ℕ) : (recordsOf b base n).length = n := by
  simp [recordsOf]

@[simp] theorem length_indexOf (b : Bytes) (base n : ℕ) : (indexOf b base n).length = n := by
  simp [indexOf]

theorem recordsOf_congr (h : ∀ i < n, extentAt b base i = extentAt b' base' i) :
    recordsOf b base n = recordsOf b' base' n :=
  List.map_congr_left fun i hi => h i (List.mem_range.mp hi)

theorem indexOf_congr (h : ∀ i < n, indexAt b base i = indexAt b' base' i) :
    indexOf b base n = indexOf b' base' n :=
  List.map_congr_left fun i hi => h i (List.mem_range.mp hi)

theorem recordsOf_succ (b : Bytes) (base n : ℕ) :
    recordsOf b base (n + 1) = recordsOf b base n ++ [extentAt b base n] := by
  rw [recordsOf, List.range_succ, List.map_append]
  rfl

theorem indexOf_succ (b : Bytes) (base n : ℕ) :
    indexOf b base (n + 1) = indexOf b base n ++ [indexAt b base n] := by
  rw [indexOf, List.range_succ, List.map_append]
  rfl

theorem recordsOf_take (hn : k ≤ n) : (recordsOf b base n).take k = recordsOf b base k := by
  rw [recordsOf, ← List.map_take, List.take_range, Nat.min_eq_left hn]
  rfl

theorem mem_recordsOf {e : Extent} :
    e ∈ recordsOf b base n ↔ ∃ i < n, extentAt b base i = e := by
  simp [recordsOf]

theorem mem_indexOf {x : ℕ × ℕ} : x ∈ indexOf b base n ↔ ∃ i < n, indexAt b base i = x := by
  simp [indexOf]

/-- Records read the same when their bytes are the same. -/
theorem extentAt_congr (h : ∀ k, base + 12 + 12 * i ≤ k → k < base + 12 + 12 * i + 12 → b' k = b k) :
    extentAt b' base i = extentAt b base i := by
  have hget : ∀ off w, off + w ≤ 12 →
      b'.getLE (base + 12 + 12 * i + off) w = b.getLE (base + 12 + 12 * i + off) w :=
    fun off w hw => Bytes.getLE_congr fun j hj => h _ (by omega) (by omega)
  have h₀ := hget 0 4 (by omega)
  rw [Nat.add_zero] at h₀
  unfold extentAt
  dsimp only
  rw [h₀, hget 4 2 (by omega), hget 6 2 (by omega), hget 8 4 (by omega)]

theorem indexAt_congr (h : ∀ k, base + 12 + 12 * i ≤ k → k < base + 12 + 12 * i + 12 → b' k = b k) :
    indexAt b' base i = indexAt b base i := by
  have hget : ∀ off w, off + w ≤ 12 →
      b'.getLE (base + 12 + 12 * i + off) w = b.getLE (base + 12 + 12 * i + off) w :=
    fun off w hw => Bytes.getLE_congr fun j hj => h _ (by omega) (by omega)
  have h₀ := hget 0 4 (by omega)
  rw [Nat.add_zero] at h₀
  unfold indexAt
  dsimp only
  rw [h₀, hget 4 4 (by omega), hget 8 2 (by omega)]

theorem recordsOf_wrHdr {e m : ℕ} :
    recordsOf (wrHdr b base e m d) base n = recordsOf b base n :=
  recordsOf_congr fun _ _ => extentAt_congr fun _ _ _ => wrHdr_outside (by omega)

theorem indexOf_wrHdr {e m : ℕ} : indexOf (wrHdr b base e m d) base n = indexOf b base n :=
  indexOf_congr fun _ _ => indexAt_congr fun _ _ _ => wrHdr_outside (by omega)

/-- A record written behind the others. -/
theorem recordsOf_wrExtent {e : Extent} (he : Fits e) :
    recordsOf (wrExtent b base n e) base (n + 1) = recordsOf b base n ++ [e] := by
  rw [recordsOf_succ, extentAt_wrExtent he]
  congr 1
  exact recordsOf_congr fun i hi => extentAt_congr fun k _ _ => wrExtent_outside (by omega)

theorem indexOf_wrIndex {lb child : ℕ} (hlb : lb < 2 ^ 32) (hchild : child < 2 ^ 48) :
    indexOf (wrIndex b base n lb child) base (n + 1) = indexOf b base n ++ [(lb, child)] := by
  rw [indexOf_succ, indexAt_wrIndex hlb hchild]
  congr 1
  exact indexOf_congr fun i hi => indexAt_congr fun k _ _ => wrIndex_outside (by omega)

theorem and_unwritten {x : ℕ} (hx : x < 2 ^ 16) : x &&& 0x8000 ≠ 0 ↔ 0x8000 ≤ x := by
  have hand : x &&& 2 ^ 15 = (x.testBit 15).toNat * 2 ^ 15 := Nat.and_two_pow x 15
  have hbit : x.testBit 15 = decide (x / 2 ^ 15 % 2 = 1) := Nat.testBit_eq_decide_div_mod_eq
  rw [show (0x8000 : ℕ) = 2 ^ 15 from rfl, hand, hbit]
  by_cases h : x / 2 ^ 15 % 2 = 1
  · simp only [h, decide_true, Bool.toNat_true]
    omega
  · simp only [h, decide_false, Bool.toNat_false]
    omega

/-- SOURCE: ext4.rs:214-229 -/
theorem rdExtent_eq (hlen : base + 12 + 12 * i + 12 ≤ len) :
    rdExtent b len base i =
      if Written (extentAt b base i) then some (extentAt b base i) else none := by
  have hiff := and_unwritten (extentAt_fits b base i).2.1
  rw [rdExtent, if_neg (by omega)]
  dsimp only
  by_cases h : Written (extentAt b base i)
  · rw [if_pos h, if_neg]
    rw [hiff]
    unfold Written at h
    omega
  · rw [if_neg h, if_pos]
    rw [hiff]
    unfold Written at h
    omega

theorem rdIndex_eq (hlen : base + 12 + 12 * i + 12 ≤ len) :
    rdIndex b len base i = some (indexAt b base i) := by
  rw [rdIndex, if_neg (by omega)]

/-! ## The scans over lists of records -/

/-- What the scan of a leaf finds for `lb`. -/
def scanRecs (lb : ℕ) : List Extent → Except FsFail (Option ℕ)
  | [] => .ok none
  | e :: es =>
    if Written e ∧ e.lb ≤ lb then
      if 2 ^ 32 ≤ e.lb + e.len then .error (.fault .overflow)
      else if lb < e.lb + e.len then .ok (some (e.pb + (lb - e.lb)))
      else scanRecs lb es
    else scanRecs lb es

/-- The record a block is merged into, if there is one. -/
def mergeRecs (recs : List Extent) (lb p : ℕ) : Except FsFail (Option Extent) :=
  match recs.getLast? with
  | none => .ok none
  | some e =>
    if Written e then
      if 2 ^ 32 ≤ e.lb + e.len then .error (.fault .overflow)
      else if e.lb + e.len = lb ∧ e.pb + e.len = p then .ok (some { e with len := e.len + 1 })
      else .ok none
    else .ok none

/-- A record as it is copied: an unwritten one is left out. -/
def copied (e : Extent) : Extent := if Written e then e else ⟨0, 0, 0⟩

variable {node : Node} {lb p j : ℕ} {dst : Bytes}

/-- SOURCE: ext4.rs:888-902 -/
theorem scanLeaf_eq (hlen : node.base + 12 + 12 * (i + n) ≤ node.len) :
    scanLeaf node lb n i =
      scanRecs lb ((List.range' i n).map (extentAt node.bytes node.base)) := by
  induction n generalizing i with
  | zero => rfl
  | succ n ih =>
    rw [scanLeaf, List.range'_succ, List.map_cons, scanRecs, rdExtent_eq (by omega),
      ih (i := i + 1) (by omega)]
    by_cases hw : Written (extentAt node.bytes node.base i)
    · simp only [hw, if_true, true_and]
    · simp only [hw, if_false, false_and]

/-- SOURCE: ext4.rs:905-926 -/
theorem scanIndex_eq (hlen : node.base + 12 + 12 * (i + n) ≤ node.len) :
    scanIndex node lb n i =
      route (2 ^ 32 - 1) lb ((List.range' i n).map (indexAt node.bytes node.base)) := by
  induction n generalizing i with
  | zero => rfl
  | succ n ih =>
    rw [scanIndex, List.range'_succ, List.map_cons, rdIndex_eq (by omega), ih (i := i + 1) (by omega)]
    dsimp only
    rw [show indexAt node.bytes node.base i =
      ((indexAt node.bytes node.base i).1, (indexAt node.bytes node.base i).2) from rfl, route]
    cases n with
    | zero => rfl
    | succ n =>
      rw [if_neg (Nat.succ_ne_zero n), rdIndex_eq (by omega), List.range'_succ, List.map_cons]
      rfl

/-- SOURCE: ext4.rs:957-964, 1008-1017 -/
theorem mergeLast_eq (hlen : node.base + 12 + 12 * n ≤ node.len) :
    mergeLast node n lb p = mergeRecs (recordsOf node.bytes node.base n) lb p := by
  cases n with
  | zero => rfl
  | succ n =>
    rw [mergeLast, if_neg (Nat.succ_ne_zero n), Nat.add_sub_cancel, rdExtent_eq (by omega),
      mergeRecs, recordsOf_succ, List.getLast?_concat]
    by_cases hw : Written (extentAt node.bytes node.base n)
    · simp only [hw, if_true]
    · simp only [hw, if_false]

theorem copyExtents_outside {node : Node} {dst : Bytes} {n i j k : ℕ}
    (h : k < 12 + 12 * j ∨ 12 + 12 * (j + n) ≤ k) : copyExtents node n i j dst k = dst k := by
  induction n generalizing i j dst with
  | zero => rfl
  | succ n ih =>
    rw [copyExtents, ih (by omega)]
    cases rdExtent node.bytes node.len node.base i with
    | some e => exact wrExtent_outside (by omega)
    | none => rfl

/-- The records of the copy. -/
theorem extentAt_copyExtents {node : Node} {n i j m : ℕ} {dst : Bytes}
    (hlen : node.base + 12 + 12 * (i + n) ≤ node.len) (hm : m < n)
    (hzero : ∀ k, 12 + 12 * j ≤ k → dst k = 0) :
    extentAt (copyExtents node n i j dst) 0 (j + m) =
      copied (extentAt node.bytes node.base (i + m)) := by
  induction n generalizing i j m dst with
  | zero => omega
  | succ n ih =>
    rw [copyExtents]
    cases m with
    | zero =>
      rw [extentAt_congr fun k _ _ => copyExtents_outside (by omega), rdExtent_eq (by omega),
        Nat.add_zero, Nat.add_zero]
      by_cases hw : Written (extentAt node.bytes node.base i)
      · rw [if_pos hw, copied, if_pos hw, extentAt_wrExtent (extentAt_fits _ _ _)]
      · rw [if_neg hw, copied, if_neg hw]
        have hget : ∀ off w, dst.getLE (0 + 12 + 12 * j + off) w = 0 :=
          fun off w => Bytes.getLE_eq_zero fun x _ => hzero _ (by omega)
        have h₀ := hget 0 4
        rw [Nat.add_zero] at h₀
        simp only [extentAt, h₀, hget, Nat.zero_mul, Nat.add_zero]
    | succ m =>
      rw [show j + (m + 1) = j + 1 + m by omega, show i + (m + 1) = i + 1 + m by omega]
      refine ih (by omega) (by omega) fun k hk => ?_
      cases rdExtent node.bytes node.len node.base i with
      | some e => exact (wrExtent_outside (by omega)).trans (hzero k (by omega))
      | none => exact hzero k (by omega)

theorem recordsOf_copyExtents {node : Node} {n i : ℕ}
    (hlen : node.base + 12 + 12 * (i + n) ≤ node.len) :
    recordsOf (copyExtents node n i 0 fun _ => 0) 0 n =
      ((recordsOf node.bytes node.base (i + n)).drop i).map copied := by
  apply List.ext_getElem
  · simp
  · intro m hm hm'
    simp only [length_recordsOf] at hm
    have h := extentAt_copyExtents (j := 0) hlen hm fun _ _ => rfl
    rw [Nat.zero_add] at h
    simpa [recordsOf] using h

end Pinx.Analysis
