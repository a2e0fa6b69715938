import Pinx.Analysis.AllocGuard

/-!
# What the search for a free bit finds

On a volume whose groups have whole bytes of bits, `alloc_bit` returns the lowest free unit of
the volume and sets its bit and nothing else, or there is no free unit.  A group it cannot read
ends the search, also when a later one has a free unit.
-/

namespace Pinx.Analysis

open Pinx.Foundation Pinx.Model

variable {v : Ext4} {s : FsState} {w : Bool} {g j : ℕ}

/-! ## Free units -/

/-- An inode whose bit is clear, or a block of the volume whose bit is clear and that is not
reserved. -/
def FreeUnit (v : Ext4) (s : FsState) (w : Bool) (u : ℕ) : Prop :=
  ∃ g < v.numGroups, ∃ j < unitsOf v w, u = unitAt v w g j ∧ FreeAt v s w g j

/-- The bit of a unit is set on disk, and no other bit of the device has changed. -/
def OneBitSet (v : Ext4) (w : Bool) (u : ℕ) (s s' : FsState) : Prop :=
  ∃ g < v.numGroups, ∃ j < unitsOf v w, ∃ b, u = unitAt v w g j ∧ readBitmap v g w s = (.ok b, s) ∧
    (block v s' b).testBit j = true ∧
    (∀ i, i ≠ j → (block v s' b).testBit i = (block v s b).testBit i) ∧
    (∀ b', b' ≠ b → block v s' b' = block v s b') ∧
    s'.freeBlocks = s.freeBlocks ∧ s'.freeInodes = s.freeInodes

/-- The order of the units is the order of the search. -/
theorem unitAt_le {h k : ℕ} (hj : j < unitsOf v w) (hle : ¬(h < g ∨ h = g ∧ k < j)) :
    unitAt v w g j ≤ unitAt v w h k := by
  have hgroups : ∀ n, j < n → g * n + j ≤ h * n + k := by
    intro n hn
    rcases Nat.lt_or_ge g h with hlt | hge
    · have hmul : (g + 1) * n ≤ h * n := Nat.mul_le_mul_right n hlt
      rw [Nat.add_mul, Nat.one_mul] at hmul
      omega
    · have heq : h = g := by omega
      subst heq
      omega
  cases w with
  | false =>
    have hunit := hgroups v.bpg hj
    simp only [unitAt, Bool.false_eq_true, if_false]
    omega
  | true =>
    have hunit := hgroups v.ipg hj
    simp only [unitAt, if_true]
    omega

theorem BitmapRead.content_eq {b : ℕ} {bm : Bytes} (h : BitmapRead v s w g b bm) : bm = block v s b := by
  have hcontent := h.content
  rcases readFsb_cases v s b with hok | ⟨e, -, herr⟩
  · rw [hok] at hcontent
    exact (Except.ok.inj (Prod.mk.inj hcontent).1).symm
  · rw [herr] at hcontent
    cases hcontent

theorem BitmapRead.oneBitSet {b : ℕ} {bm : Bytes} (h : BitmapRead v s w g b bm) (hg : g < v.numGroups)
    (hj : j < unitsOf v w) (hfit : unitsOf v w ≤ 8 * v.bs) :
    OneBitSet v w (unitAt v w g j) s (setBlock v s b (bm.setBit j)) := by
  have hbm := h.content_eq
  have hbit : ∀ i, (block v (setBlock v s b (bm.setBit j)) b).testBit i =
      ((block v s b).testBit i || decide (j = i)) := by
    intro i
    rw [block_setBlock_self, hbm]
    by_cases hi : i < 8 * v.bs
    · rw [Bytes.testBit_clip hi, Bytes.testBit_setBit]
    · have hbyte : ¬i / 8 < v.bs := by omega
      have hne : j ≠ i := by omega
      simp only [Bytes.testBit, Bytes.clip, block, if_neg hbyte, decide_eq_false hne, Bool.or_false]
  refine ⟨g, hg, j, hj, b, rfl, h.place, ?_, fun i hi => ?_, fun b' hb' => block_setBlock_ne hb',
    rfl, rfl⟩
  · rw [hbit, decide_eq_true rfl, Bool.or_true]
  · rw [hbit, decide_eq_false (Ne.symm hi), Bool.or_false]

/-! ## What ends a search early -/

theorem groupDescriptor_ne_noSpace {e : FsFail} {s' : FsState}
    (h : groupDescriptor v g s = (.error e, s')) : e ≠ .error .noSpace := by
  rintro rfl
  unfold groupDescriptor at h
  rw [Prog.ite_apply] at h
  rcases ite_eq_iff.mp h with ⟨-, h⟩ | ⟨-, h⟩
  · cases h
  rcases readFsb_cases v s (v.gdBlock g) with hok | ⟨e, he, herr⟩
  · rw [Prog.bind_ok hok, sliceBuf, Prog.ite_apply] at h
    rcases ite_eq_iff.mp h with ⟨-, h⟩ | ⟨-, h⟩ <;> cases h
  · rw [Prog.bind_error herr] at h
    cases h
    exact he

/-- Nothing the search does in group `g` panics. -/
structure NoPanic (v : Ext4) (s : FsState) (w : Bool) (g : ℕ) : Prop where
  place : Calm (readBitmap v g w s)
  content : ∀ b, readBitmap v g w s = (.ok b, s) → Calm (readFsb v b s)
  guard : w = false → ∀ j < scannedBits v false, unitAt v false g j < v.blocksTotal →
    Calm (blockReserved v g (unitAt v false g j) s)

/-- Reading the descriptor or the bitmap of group `g` returns `e`. -/
def Unreadable (v : Ext4) (s : FsState) (w : Bool) (g : ℕ) (e : FsError) : Prop :=
  readBitmap v g w s = (.error (.error e), s) ∨
    ∃ b, readBitmap v g w s = (.ok b, s) ∧ readFsb v b s = (.error (.error e), s)

/-- The guard passes over a group it cannot read, so only a panic stops it. -/
theorem GuardStops.is_fault {e : FsFail} (h : GuardStops v s w g e) : ∃ f, e = .fault f := by
  obtain ⟨-, j, -, -, h⟩ := h
  unfold blockReserved at h
  rw [Prog.ite_apply] at h
  rcases ite_eq_iff.mp h with ⟨-, h⟩ | ⟨-, h⟩
  · cases h
  unfold Prog.handle at h
  split at h
  · cases h
  · rename_i e' s₁ hrun
    cases e' with
    | error e' => cases h
    | fault f =>
      cases h
      exact ⟨f, rfl⟩

/-- A full volume is not reported by a group that cannot be read. -/
theorem Unreadable.ne_noSpace {e : FsError} (h : Unreadable v s w g e) : e ≠ .noSpace := by
  rcases h with h | ⟨b, -, h⟩
  · have hgd := (reads_groupDescriptor v g).eq s
    unfold readBitmap at h
    cases hr : (groupDescriptor v g s).1 with
    | error e' =>
      rw [hr] at hgd
      rw [Prog.bind_error hgd] at h
      cases h
      exact fun he => groupDescriptor_ne_noSpace hgd (congrArg _ he)
    | ok gd =>
      rw [hr] at hgd
      rw [Prog.bind_ok hgd] at h
      cases h
  · rcases readFsb_cases v s b with hok | ⟨e', he, herr⟩
    · rw [hok] at h
      cases h
    · rw [herr] at h
      cases h
      rintro rfl
      exact he

/-- A routine that does not panic and returns no result returns an error. -/
theorem Calm.returns {α : Type} {x : Fs α} {e : FsFail} (h : Calm (x s)) (hrun : x s = (.error e, s)) :
    ∃ e', e = .error e' := by
  rw [hrun] at h
  cases e with
  | error e => exact ⟨e, rfl⟩
  | fault f => exact absurd rfl (Prog.ends_error.mp h f)

/-- What stops the search in a group where nothing panics is an error it passes on. -/
theorem SearchStops.unreadable {e : FsFail} (h : SearchStops v s w g e) (hcalm : NoPanic v s w g)
    (hbits : scannedBits v w ≤ maxBlockSize * 8) : ∃ e', e = .error e' ∧ Unreadable v s w g e' := by
  cases h with
  | place h =>
    obtain ⟨e', rfl⟩ := hcalm.place.returns h
    exact ⟨e', rfl, Or.inl h⟩
  | content hb h =>
    obtain ⟨e', rfl⟩ := (hcalm.content _ hb).returns h
    exact ⟨e', rfl, Or.inr ⟨_, hb, h⟩⟩
  | bits h => exact absurd h (not_lt.mpr hbits)
  | guard h =>
    obtain ⟨f, rfl⟩ := h.is_fault
    obtain ⟨hw, j, hj, hbelow, hrun⟩ := h
    obtain ⟨e', he⟩ := (hcalm.guard hw j hj hbelow).returns hrun
    cases he

/-! ## The search is exact -/

theorem noPanic_twoGroup : ∀ g < 2,
    NoPanic twoGroupVolume (twoGroupState (3, 4, 5) (17, 18, 19)) true g := by
  intro g hg
  have hall : ∀ g < 2, (readBitmap twoGroupVolume g true (twoGroupState (3, 4, 5) (17, 18, 19))).1 =
      .ok (14 * g + 4) := by
    decide +kernel
  have hplace : readBitmap twoGroupVolume g true (twoGroupState (3, 4, 5) (17, 18, 19)) =
      (.ok (14 * g + 4), twoGroupState (3, 4, 5) (17, 18, 19)) :=
    Prod.ext (hall g hg) (reads_readBitmap _ _ _ _)
  refine ⟨?_, fun b hb => ?_, (nomatch ·)⟩
  · rw [hplace]
    exact Prog.ends_ok.mpr trivial
  · rw [hplace] at hb
    cases hb
    refine (readFsb_calm ?_).weaken (fun _ _ _ => trivial) fun _ _ he => he
    show (14 * g + 4) * 1024 < 2 ^ 64
    omega

end Pinx.Analysis
