import Mathlib.Algebra.BigOperators.Group.Finset.Basic
import Mathlib.Algebra.Order.BigOperators.Group.Finset
import Pinx.Analysis.Ext4Metadata

/-!
# The counts of free blocks and inodes

A group counts its free units in its descriptor, the superblock holds the totals, and the
mounted volume carries them along.  An allocation that sets one clear bit takes one from
each of them.
-/

namespace Pinx.Analysis

open Pinx.Foundation Pinx.Model

variable {v : Ext4} {L : Layout} {s s₁ s' : FsState}

/-- The bitmap of a group, for inodes or for blocks. -/
def bitmapAt (L : Layout) (wantInode : Bool) (g : ℕ) : ℕ :=
  if wantInode then L.inodeBitmap g else L.blockBitmap g

/-- The number of inodes or blocks in a group. -/
def unitsOf (v : Ext4) (wantInode : Bool) : ℕ := if wantInode then v.ipg else v.bpg

/-- The number of clear bits among the first `n`. -/
def clearBits (bm : Bytes) (n : ℕ) : ℕ := ((Finset.range n).filter fun k => bm.testBit k = false).card

/-- The count of free inodes or blocks in a group's descriptor. -/
def freeField (v : Ext4) (s : FsState) (wantInode : Bool) (g : ℕ) : ℕ :=
  splitField v.has64bit (descriptor v s g) (if wantInode then 0x0E else 0x0C)
    (if wantInode then 0x2E else 0x2C)

/-- The count of inodes at the end of a group that were never used. -/
def unusedField (v : Ext4) (s : FsState) (g : ℕ) : ℕ :=
  splitField v.has64bit (descriptor v s g) 0x1C 0x32

/-- The clear bits of one group. -/
def clearOf (v : Ext4) (L : Layout) (s : FsState) (wantInode : Bool) (g : ℕ) : ℕ :=
  clearBits (block v s (bitmapAt L wantInode g)) (unitsOf v wantInode)

/-- All counts are right: in the descriptors, in the superblock and in memory. -/
structure Accounts (v : Ext4) (L : Layout) (s : FsState) : Prop where
  fields : ∀ w, ∀ g < v.numGroups, freeField v s w g = clearOf v L s w g
  totals : ∀ w, totalOf s w = ∑ g ∈ Finset.range v.numGroups, clearOf v L s w g
  super : ∀ w, superCount v (block v s v.sblockFsb) w = totalOf s w
  unused_le : ∀ g < v.numGroups, unusedField v s g ≤ v.ipg
  unused : ∀ g < v.numGroups, ∀ k < v.ipg, (block v s (L.inodeBitmap g)).testBit k = true →
    unusedField v s g ≤ v.ipg - (k + 1)

/-! ## Setting a clear bit -/

theorem clearBits_congr {bm bm' : Bytes} {n : ℕ} (h : ∀ k < n, bm'.testBit k = bm.testBit k) :
    clearBits bm' n = clearBits bm n := by
  unfold clearBits
  congr 1
  apply Finset.filter_congr
  intro k hk
  rw [h k (Finset.mem_range.mp hk)]

theorem clearBits_set {bm bm' : Bytes} {n j : ℕ} (hj : j < n) (hclear : bm.testBit j = false)
    (h : ∀ k < n, bm'.testBit k = (bm.testBit k || decide (k = j))) :
    clearBits bm' n + 1 = clearBits bm n := by
  have herase : (Finset.range n).filter (fun k => bm'.testBit k = false) =
      ((Finset.range n).filter fun k => bm.testBit k = false).erase j := by
    ext k
    simp only [Finset.mem_filter, Finset.mem_erase, Finset.mem_range]
    constructor
    · rintro ⟨hk, hbit⟩
      rw [h k hk, Bool.or_eq_false_iff, decide_eq_false_iff_not] at hbit
      exact ⟨hbit.2, hk, hbit.1⟩
    · rintro ⟨hne, hk, hbit⟩
      rw [h k hk, hbit, decide_eq_false hne]
      exact ⟨hk, rfl⟩
  unfold clearBits
  rw [herase]
  apply Finset.card_erase_add_one
  exact Finset.mem_filter.mpr ⟨Finset.mem_range.mpr hj, hclear⟩

theorem clearBits_le (bm : Bytes) (n : ℕ) : clearBits bm n ≤ n := by
  unfold clearBits
  exact (Finset.card_filter_le _ _).trans (Finset.card_range n).le

/-! ## The counts in a descriptor -/

theorem splitField_lt (desc64 : Bool) (gd : Bytes) (lo hi : ℕ) :
    splitField desc64 gd lo hi < if desc64 then 2 ^ 32 else 2 ^ 16 := by
  have hlo : gd.getLE lo 2 < 2 ^ 16 := Bytes.getLE_lt gd lo 2
  have hhi : gd.getLE hi 2 < 2 ^ 16 := Bytes.getLE_lt gd hi 2
  unfold splitField
  cases desc64 <;> simp only [if_true, if_false, Bool.false_eq_true] <;> omega

section Bump

variable {desc64 : Bool} {gd : Bytes} {lo hi : ℕ} (hlh : lo + 2 ≤ hi)
include hlh

theorem splitField_bump (d : ℤ) : splitField desc64 (bumpCount desc64 gd lo hi d) lo hi =
    (((splitField desc64 gd lo hi : ℤ) + d) % 2 ^ 32).toNat % if desc64 then 2 ^ 32 else 2 ^ 16 :=
  splitField_putSplit hlh

theorem splitField_bump_zero :
    splitField desc64 (bumpCount desc64 gd lo hi 0) lo hi = splitField desc64 gd lo hi := by
  have hlt := splitField_lt desc64 gd lo hi
  rw [splitField_bump hlh]
  generalize splitField desc64 gd lo hi = n at hlt ⊢
  cases desc64 <;> simp only [if_true, if_false, Bool.false_eq_true] at hlt ⊢ <;> omega

theorem splitField_bump_down (hpos : 0 < splitField desc64 gd lo hi) :
    splitField desc64 (bumpCount desc64 gd lo hi (-1)) lo hi + 1 = splitField desc64 gd lo hi := by
  have hlt := splitField_lt desc64 gd lo hi
  rw [splitField_bump hlh]
  generalize splitField desc64 gd lo hi = n at hlt hpos ⊢
  cases desc64 <;> simp only [if_true, if_false, Bool.false_eq_true] at hlt ⊢ <;> omega

end Bump

/-- The two counts of free units are written by their own steps only. -/
theorem commitGd_counts {desc64 : Bool} {dblk dino ddir : ℤ} {bb ib itu : Option ℕ} {gd : Bytes}
    {k : ℕ} (hk : k < 0x10 ∨ 0x20 ≤ k ∧ k < 0x30) :
    commitGd desc64 dblk dino ddir bb ib itu gd k =
      bumpCount desc64 (bumpCount desc64 gd 0x0C 0x2C dblk) 0x0E 0x2E dino k := by
  have hdirs : ∀ gd : Bytes, (if ddir ≠ 0 then bumpCount desc64 gd 0x10 0x30 ddir else gd) k =
      gd k := by
    intro gd
    split
    · exact putSplit_outside (by omega) (by omega)
    · rfl
  have hsum : ∀ (gd : Bytes) lo hi c, 0x10 ≤ lo → lo + 2 ≤ 0x20 → 0x30 ≤ hi →
      putSum desc64 gd lo hi c k = gd k := by
    intro gd lo hi c h₁ h₂ h₃
    cases c with
    | none => rfl
    | some c => exact putSplit_outside (by omega) (by omega)
  have hunused : ∀ gd : Bytes, putUnused desc64 gd itu k = gd k := by
    intro gd
    cases itu with
    | none => rfl
    | some u =>
      unfold putUnused
      dsimp only
      split
      · rw [Bytes.putLE_outside (by omega), Bytes.putLE_outside (by omega)]
      · rw [Bytes.putLE_outside (by omega)]
  unfold commitGd
  rw [hunused, hsum _ _ _ _ (by omega) (by omega) (by omega),
    hsum _ _ _ _ (by omega) (by omega) (by omega), hdirs]

theorem splitField_commitGd_blocks {desc64 : Bool} {dblk dino ddir : ℤ} {bb ib itu : Option ℕ}
    {gd : Bytes} : splitField desc64 (commitGd desc64 dblk dino ddir bb ib itu gd) 0x0C 0x2C =
      splitField desc64 (bumpCount desc64 gd 0x0C 0x2C dblk) 0x0C 0x2C := by
  refine (splitField_congr (fun j hj => commitGd_counts (by omega))
    (fun _ j hj => commitGd_counts (by omega))).trans ?_
  exact splitField_congr (fun j hj => putSplit_outside (by omega) (by omega))
    fun _ j hj => putSplit_outside (by omega) (by omega)

theorem splitField_commitGd_inodes {desc64 : Bool} {dblk dino ddir : ℤ} {bb ib itu : Option ℕ}
    {gd : Bytes} : splitField desc64 (commitGd desc64 dblk dino ddir bb ib itu gd) 0x0E 0x2E =
      splitField desc64 (bumpCount desc64 (bumpCount desc64 gd 0x0C 0x2C dblk) 0x0E 0x2E dino)
        0x0E 0x2E :=
  splitField_congr (fun j hj => commitGd_counts (by omega)) fun _ j hj => commitGd_counts (by omega)

theorem splitField_bump_apart {desc64 : Bool} {gd : Bytes} {d : ℤ} :
    splitField desc64 (bumpCount desc64 gd 0x0C 0x2C d) 0x0E 0x2E =
      splitField desc64 gd 0x0E 0x2E :=
  splitField_congr (fun j hj => putSplit_outside (by omega) (by omega))
    fun _ j hj => putSplit_outside (by omega) (by omega)

theorem splitField_putUnused {desc64 : Bool} {gd : Bytes} {u : ℕ} (hu : u < 2 ^ 16) :
    splitField desc64 (putUnused desc64 gd (some u)) 0x1C 0x32 = u := by
  unfold splitField putUnused
  cases desc64 with
  | false => simpa [Bytes.getLE_putLE] using hu
  | true =>
    simp only [if_true, Bytes.getLE_putLE]
    rw [Bytes.getLE_putLE_outside (by omega), Bytes.getLE_putLE]
    omega

/-! ## What an allocation does to the counts -/

/-- The counts after unit `j` of group `g` was taken. -/
structure Counted (v : Ext4) (w : Bool) (g j : ℕ) (s s' : FsState) : Prop where
  self : 0 < freeField v s w g → freeField v s' w g + 1 = freeField v s w g
  other : ∀ w' g', g' < v.numGroups → (w' ≠ w ∨ g' ≠ g) → freeField v s' w' g' = freeField v s w' g'
  total : totalOf s w < 2 ^ 63 → 0 < totalOf s w → totalOf s' w + 1 = totalOf s w
  total_other : ∀ w' ≠ w, totalOf s w' < 2 ^ 63 → totalOf s' w' = totalOf s w'
  super : ∀ w', superCount v (block v s' v.sblockFsb) w' = totalOf s' w' % superLimit v w'
  unused : ∀ g' < v.numGroups, unusedField v s' g' ≤ unusedField v s g'
  unused_self : w = true → unusedField v s' g ≤ v.ipg - (j + 1)

theorem addCount_eq {n m : ℕ} {d : ℤ} (hn : n < 2 ^ 63)
    (h : addCount n d = .ok m) : m = ((n : ℤ) + d).toNat := by
  unfold addCount at h
  rw [if_pos hn] at h
  dsimp only at h
  split at h
  · cases h
  · cases h
    omega

section Counting

variable {w : Bool} {g j : ℕ} (hv : GeometryOk v) (hg : g < v.numGroups)
include hv

theorem Accounts.total_lt (h : Accounts v L s) (w : Bool) : totalOf s w < 2 ^ 63 := by
  have hunits : unitsOf v w ≤ 8 * v.bs := by
    cases w with
    | false => exact hv.bpg_le
    | true => exact hv.ipg_le
  have hsum : totalOf s w ≤ v.numGroups * (8 * v.bs) := by
    rw [h.totals w]
    calc ∑ g ∈ Finset.range v.numGroups, clearOf v L s w g
        ≤ ∑ _g ∈ Finset.range v.numGroups, 8 * v.bs :=
          Finset.sum_le_sum fun g _ => (clearBits_le _ _).trans hunits
      _ = v.numGroups * (8 * v.bs) := by
        rw [Finset.sum_const_nat fun _ _ => rfl, Finset.card_range]
  have hgroups : v.numGroups < 2 ^ 32 := by
    have hle : v.numGroups ≤ v.ipg * v.numGroups := Nat.le_mul_of_pos_left _ hv.ipg_pos
    have := hv.inodes
    have := hv.inodes_lt
    omega
  have hprod : v.numGroups * (8 * v.bs) ≤ 2 ^ 32 * (8 * 4096) := by
    have := hv.bs
    exact Nat.mul_le_mul (by omega) (by omega)
  omega

include hg

/-- What `commit_alloc` counts, for a block or for an inode.  The descriptors it finds are
those of `s`. -/
theorem Committed.counted {dblk dino ddir : ℤ} {bb ib itu : Option ℕ}
    (hc : Committed v L g (commitGd v.has64bit dblk dino ddir bb ib itu) s₁ s')
    (hdesc : ∀ g' < v.numGroups, descriptor v s₁ g' = descriptor v s g')
    (hd : if w then dblk = 0 ∧ dino = -1 else dblk = -1 ∧ dino = 0)
    (hfb : addCount s.freeBlocks dblk = .ok s'.freeBlocks)
    (hfi : addCount s.freeInodes dino = .ok s'.freeInodes)
    (hitu : if w then itu = some (min (v.gdU16 (descriptor v s g) 0x1C 0x32) (v.ipg - j - 1))
      else itu = none) : Counted v w g j s s' := by
  have hclip : ∀ lo hi, lo + 2 ≤ 0x1E → 0x20 ≤ hi → hi + 2 ≤ 64 →
      splitField v.has64bit ((descriptor v s₁ g).clip v.descSize) lo hi =
        splitField v.has64bit (descriptor v s g) lo hi := by
    intro lo hi hlo hhi hhi'
    have hsize := hv.descSize
    rw [hdesc g hg]
    refine splitField_congr (fun k hk => Bytes.clip_inside (by omega)) fun h64 k hk => ?_
    have := hv.desc64 h64
    exact Bytes.clip_inside (by omega)
  -- the fields of the other groups are as they were
  have hothers : ∀ g' < v.numGroups, g' ≠ g → ∀ lo hi, lo + 2 ≤ 0x20 → hi + 2 ≤ 64 →
      splitField v.has64bit (descriptor v s' g') lo hi =
        splitField v.has64bit (descriptor v s g') lo hi := by
    intro g' hg' hne lo hi hlo hhi
    have hsize := hv.descSize
    have hsame : ∀ k < v.descSize, descriptor v s' g' k = descriptor v s g' k := by
      intro k hk
      rw [hc.desc g' hg' k hk, if_neg hne, hdesc g' hg']
    refine splitField_congr (fun k hk => hsame _ (by omega)) fun h64 k hk => ?_
    have := hv.desc64 h64
    exact hsame _ (by omega)
  have hblocks : splitField v.has64bit (descriptor v s' g) 0x0C 0x2C = splitField v.has64bit
      (bumpCount v.has64bit ((descriptor v s₁ g).clip v.descSize) 0x0C 0x2C dblk) 0x0C 0x2C := by
    rw [hc.splitField_eq hv hg (by omega) (by omega) (by omega), splitField_commitGd_blocks]
  have hinodes : splitField v.has64bit (descriptor v s' g) 0x0E 0x2E = splitField v.has64bit
      (bumpCount v.has64bit (bumpCount v.has64bit ((descriptor v s₁ g).clip v.descSize) 0x0C 0x2C
        dblk) 0x0E 0x2E dino) 0x0E 0x2E := by
    rw [hc.splitField_eq hv hg (by omega) (by omega) (by omega), splitField_commitGd_inodes]
  have hunused := hc.splitField_eq hv hg (show 0x1C + 2 ≤ 0x1E by omega)
    (show 0x20 ≤ 0x32 by omega) (by omega)
  cases w with
  | false =>
    obtain ⟨rfl, rfl⟩ := hd
    have hsame : unusedField v s' g = unusedField v s g := by
      cases hitu
      refine hunused.trans ((splitField_congr (fun k hk => ?_) fun _ k hk => ?_).trans
        (hclip _ _ (by omega) (by omega) (by omega)))
      all_goals
        exact commitGd_outside (by omega) (Or.inr (by omega)) (Or.inr (by omega)) (Or.inl rfl)
    refine ⟨fun hpos => ?_, fun w' g' hg' hne => ?_, fun hlt hpos => ?_, fun w' hw hlt => ?_,
      hc.counts, fun g' hg' => ?_, fun h => nomatch h⟩
    · refine (congrArg (· + 1) hblocks).trans ?_
      rw [splitField_bump_down (by omega)] <;> rw [hclip _ _ (by omega) (by omega) (by omega)]
      · rfl
      · exact hpos
    · by_cases hgg : g' = g
      · subst hgg
        cases w' with
        | false => exact absurd rfl (hne.resolve_right fun h => h rfl)
        | true =>
          refine hinodes.trans ?_
          rw [splitField_bump_zero (by omega), splitField_bump_apart,
            hclip _ _ (by omega) (by omega) (by omega)]
          rfl
      · cases w' <;> exact hothers g' hg' hgg _ _ (by decide) (by decide)
    · have hcount := addCount_eq hlt hfb
      simp only [totalOf, Bool.false_eq_true, if_false] at hcount hpos ⊢
      omega
    · cases w' with
      | false => exact absurd rfl hw
      | true =>
        have hcount := addCount_eq hlt hfi
        simp only [totalOf, if_true] at hcount ⊢
        omega
    · by_cases hgg : g' = g
      · subst hgg
        exact hsame.le
      · exact (hothers g' hg' hgg _ _ (by omega) (by omega)).le
  | true =>
    obtain ⟨rfl, rfl⟩ := hd
    have hsmall : v.ipg < 2 ^ 16 := by
      have := hv.ipg_le
      have := hv.bs
      omega
    have hnew : unusedField v s' g =
        min (v.gdU16 (descriptor v s g) 0x1C 0x32) (v.ipg - j - 1) := by
      cases hitu
      refine hunused.trans (splitField_putUnused ?_)
      omega
    have hfield : v.gdU16 (descriptor v s g) 0x1C 0x32 = unusedField v s g := by
      unfold Ext4.gdU16 unusedField splitField
      congr 1
      by_cases h64 : v.has64bit = true
      · have := hv.desc64 h64
        rw [if_pos h64, if_pos ⟨h64, by omega⟩]
      · rw [if_neg h64, if_neg fun h => h64 h.1]
    refine ⟨fun hpos => ?_, fun w' g' hg' hne => ?_, fun hlt hpos => ?_, fun w' hw hlt => ?_,
      hc.counts, fun g' hg' => ?_, fun _ => by omega⟩
    · refine (congrArg (· + 1) hinodes).trans ?_
      rw [splitField_bump_down (by omega)] <;>
        rw [splitField_bump_apart, hclip _ _ (by omega) (by omega) (by omega)]
      · rfl
      · exact hpos
    · by_cases hgg : g' = g
      · subst hgg
        cases w' with
        | true => exact absurd rfl (hne.resolve_right fun h => h rfl)
        | false =>
          refine hblocks.trans ?_
          rw [splitField_bump_zero (by omega), hclip _ _ (by omega) (by omega) (by omega)]
          rfl
      · cases w' <;> exact hothers g' hg' hgg _ _ (by decide) (by decide)
    · have hcount := addCount_eq hlt hfi
      simp only [totalOf, if_true] at hcount hpos ⊢
      omega
    · cases w' with
      | true => exact absurd rfl hw
      | false =>
        have hcount := addCount_eq hlt hfb
        simp only [totalOf, Bool.false_eq_true, if_false] at hcount ⊢
        omega
    · by_cases hgg : g' = g
      · subst hgg
        rw [hnew, hfield]
        exact Nat.min_le_left _ _
      · exact (hothers g' hg' hgg _ _ (by omega) (by omega)).le

/-- The counts stay right if the one bit counted is the one bit set. -/
theorem Counted.accounts (hc : Counted v w g j s s') (hj : j < unitsOf v w)
    (hclear : (block v s (bitmapAt L w g)).testBit j = false)
    (hbits : ∀ w' g' k, g' < v.numGroups → k < unitsOf v w' →
      (block v s' (bitmapAt L w' g')).testBit k =
        ((block v s (bitmapAt L w' g')).testBit k || decide (w' = w ∧ g' = g ∧ k = j)))
    (h : Accounts v L s) : Accounts v L s' := by
  have hself : clearOf v L s' w g + 1 = clearOf v L s w g := by
    refine clearBits_set hj hclear fun k hk => ?_
    rw [hbits w g k hg hk]
    simp only [true_and]
  have hother : ∀ w' g', g' < v.numGroups → (w' ≠ w ∨ g' ≠ g) →
      clearOf v L s' w' g' = clearOf v L s w' g' := by
    intro w' g' hg' hne
    refine clearBits_congr fun k hk => ?_
    have hnot : ¬(w' = w ∧ g' = g ∧ k = j) := fun heq => hne.elim (· heq.1) (· heq.2.1)
    rw [hbits w' g' k hg' hk, decide_eq_false hnot, Bool.or_false]
  -- of the sum over all groups only the term of this one changes
  have hsum : ∑ g ∈ Finset.range v.numGroups, clearOf v L s' w g + 1 =
      ∑ g ∈ Finset.range v.numGroups, clearOf v L s w g := by
    have hmem := Finset.mem_range.mpr hg
    rw [← Finset.add_sum_erase _ _ hmem, ← Finset.add_sum_erase _ (clearOf v L s w) hmem, ← hself]
    have hrest : ∑ g' ∈ (Finset.range v.numGroups).erase g, clearOf v L s' w g' =
        ∑ g' ∈ (Finset.range v.numGroups).erase g, clearOf v L s w g' := by
      refine Finset.sum_congr rfl fun g' hg' => ?_
      obtain ⟨hne, hlt⟩ := Finset.mem_erase.mp hg'
      exact hother w g' (Finset.mem_range.mp hlt) (Or.inr hne)
    omega
  have htotal : ∀ w', totalOf s' w' = ∑ g ∈ Finset.range v.numGroups, clearOf v L s' w' g := by
    intro w'
    have hlt := h.total_lt hv w'
    have hold := h.totals w'
    by_cases hw : w' = w
    · subst hw
      have := hc.total hlt (by omega)
      omega
    · rw [hc.total_other w' hw hlt, hold]
      refine Finset.sum_congr rfl fun g' hg' => ?_
      exact (hother w' g' (Finset.mem_range.mp hg') (Or.inl hw)).symm
  have htotal_le : ∀ w', totalOf s' w' ≤ totalOf s w' := by
    intro w'
    have hlt := h.total_lt hv w'
    have hold := h.totals w'
    by_cases hw : w' = w
    · subst hw
      have := hc.total hlt (by omega)
      omega
    · exact (hc.total_other w' hw hlt).le
  refine ⟨fun w' g' hg' => ?_, htotal, fun w' => ?_, fun g' hg' => ?_, fun g' hg' k hk hbit => ?_⟩
  · have hold := h.fields w' g' hg'
    by_cases hsame : w' = w ∧ g' = g
    · obtain ⟨rfl, rfl⟩ := hsame
      have := hc.self (by omega)
      omega
    · have hne : w' ≠ w ∨ g' ≠ g := by
        by_contra hnot
        push Not at hnot
        exact hsame hnot
      rw [hc.other w' g' hg' hne, hother w' g' hg' hne, hold]
  · rw [hc.super w']
    apply Nat.mod_eq_of_lt
    refine (htotal_le w').trans_lt ?_
    rw [← h.super w']
    exact superCount_lt _ _
  · exact (hc.unused g' hg').trans (h.unused_le g' hg')
  · have hbit' := hbits true g' k hg' hk
    rw [show bitmapAt L true g' = L.inodeBitmap g' from rfl, hbit, eq_comm, Bool.or_eq_true,
      decide_eq_true_eq] at hbit'
    rcases hbit' with hold | ⟨hw, rfl, rfl⟩
    · exact (hc.unused g' hg').trans (h.unused g' hg' k hk hold)
    · exact hc.unused_self hw.symm

end Counting

end Pinx.Analysis
