import Pinx.Analysis.LoadedImage

/-!
# What earlier programs leave behind

All programs share one address space and nothing in it is ever unmapped.  `map_segment` clears a page
when it maps it and never again: on a page that an earlier program used, the `.bss` tail of a segment
keeps what that program left.  In a run of loads, stacks, `sys_mmap` calls and stores of programs the
pages stay private (`spaceInv_step`), and a tail reads as zero exactly if it was unmapped or zero before.
-/

namespace Pinx.Analysis

open Pinx.Foundation Pinx.Foundation.WordBitmap Pinx.Foundation.RadixTree Pinx.Model

variable {m m' : Machine} {s s' : UserSpace} {root va : ℕ} {image : List UInt8}

/-! ## Pages stay private -/

theorem PrivatePages.mapZeroed {page : ℕ} {b : Bool} (h : PrivatePages root m) (hpage : lowerHalf page)
    (hrun : mapZeroed page m = (.ok b, m')) : PrivatePages root m' := by
  obtain ⟨-, j, hmap⟩ | ⟨-, rfl⟩ := mapZeroed_ok h.tree h.fresh hrun
  · exact h.mapsFresh hmap hpage
  · exact h

theorem PrivatePages.mmapPages {base n page : ℕ} {b : Bool} (h : PrivatePages root m)
    (hlow : base + (page + n) * 4096 ≤ 2 ^ 47) (hrun : mmapPages base n page m = (.ok b, m')) :
    PrivatePages root m' := by
  induction n generalizing page m with
  | zero =>
    cases hrun
    exact h
  | succ n ih =>
    unfold mmapPages at hrun
    obtain ⟨mapped, m₁, hmap, hrest⟩ := Prog.bind_eq_ok.mp hrun
    have hpage : lowerHalf (base + page * pageSize) := by
      rw [show pageSize = 4096 from rfl]
      unfold lowerHalf
      omega
    have h₁ := h.mapZeroed hpage hmap
    cases mapped with
    | false =>
      cases hrest
      exact h₁
    | true =>
      rw [← Nat.add_assoc, Nat.add_right_comm] at hlow
      exact ih h₁ hlow hrest

theorem PrivatePages.stackPages {top n i : ℕ} (h : PrivatePages root m) (htop : top < 2 ^ 47)
    (hrun : stackPages top n i m = (.ok (), m')) : PrivatePages root m' := by
  induction n generalizing i m with
  | zero =>
    cases hrun
    exact h
  | succ n ih =>
    unfold stackPages at hrun
    obtain ⟨mapped, m₁, hmap, hrest⟩ := Prog.bind_eq_ok.mp hrun
    have hpage : lowerHalf (top - (userStackPages - i) * pageSize) := lt_of_le_of_lt (Nat.sub_le ..) htop
    cases mapped with
    | false => cases hrest
    | true => exact ih (h.mapZeroed hpage hmap) hrest

/-! ## Runs -/

/-- What happens to the address space: programs are loaded and get stacks and memory, and they write to
the pages they have. -/
inductive SpaceEvent where
  | load (image : List UInt8)
  | stack
  | mmap (size : ℕ)
  | store (va : ℕ) (byte : UInt8)

/-- The memory after a program stored a byte. -/
def storeByte (m : Machine) (va : ℕ) (byte : UInt8) : Machine :=
  { m with mem := m.mem.blit (vmmVirtToPhys m va) 1 fun _ => byte }

/-- Calls that return, loads of images with their segments in the lower half, and stores to mapped
pages. -/
def SpaceStep (s : UserSpace) : SpaceEvent → UserSpace → Prop
  | .load image, s' => LowerImage image ∧
    ∃ r m', loadElf image s.machine = (.ok r, m') ∧ s' = { s with machine := m' }
  | .stack, s' => ∃ top, mapUserStack s = (.ok top, s')
  | .mmap size, s' => ∃ base, sysMmap size s = (.ok base, s')
  | .store va byte, s' => userView s.machine va ≠ none ∧
    s' = { s with machine := storeByte s.machine va byte }

/-- What a run keeps. -/
def SpaceInv (root : ℕ) (s : UserSpace) : Prop :=
  PrivatePages root s.machine ∧ s.nextStack ≤ userStackTop

theorem userView_ne_none (h : userView m va ≠ none) : lowerHalf va ∧ vmmVirtToPhys m va ≠ vmmNoPhys := by
  have hva : lowerHalf va := by
    by_contra hva
    exact h (userView_upper hva)
  exact ⟨hva, fun hc => h ((userView_eq_none hva).mpr hc)⟩

theorem writesFrame_storeByte (m : Machine) (va : ℕ) (byte : UInt8) :
    WritesFrame (vmmVirtToPhys m va / 4096) m (storeByte m va byte) := by
  refine ⟨rfl, rfl, fun b hb => ?_⟩
  show m.mem.blit (vmmVirtToPhys m va) 1 (fun _ => byte) b = m.mem b
  apply Bytes.blit_outside
  have hne : b ≠ vmmVirtToPhys m va := fun hc => hb (by rw [hc])
  omega

theorem PrivatePages.userView_storeByte (h : PrivatePages root m) (hsome : userView m va ≠ none)
    (byte : UInt8) : userView (storeByte m va byte) va = some byte := by
  obtain ⟨hva, hmapped⟩ := userView_ne_none hsome
  obtain ⟨-, -, hvirt, -⟩ := h.writes hva hmapped (writesFrame_storeByte m va byte)
  rw [userView_mapped hva (by rwa [hvirt]), hvirt]
  have hbyte : m.mem.blit (vmmVirtToPhys m va) 1 (fun _ => byte) (vmmVirtToPhys m va) = byte :=
    Bytes.blit_inside (Nat.le_refl _) (Nat.lt_succ_self _)
  exact congrArg some hbyte

theorem spaceInv_step {e : SpaceEvent} (h : SpaceInv root s) (hstep : SpaceStep s e s') :
    SpaceInv root s' := by
  obtain ⟨hpages, hstack⟩ := h
  cases e with
  | load image =>
    obtain ⟨hlow, r, m', hrun, rfl⟩ := hstep
    exact ⟨(loadElf_ok (Loading.start hpages) hlow.segments hrun).1.pages, hstack⟩
  | stack =>
    obtain ⟨top, hrun⟩ := hstep
    obtain ⟨rfl, -, hpagesRun, -, hnext⟩ := mapUserStack_ok hrun
    refine ⟨hpages.stackPages (lt_of_le_of_lt hstack (by decide)) hpagesRun, ?_⟩
    rw [hnext]
    omega
  | mmap size =>
    obtain ⟨base, hrun⟩ := hstep
    obtain ⟨-, rfl⟩ | ⟨-, -, hmax, b, hpagesRun, -, hnext, -⟩ := sysMmap_ok hrun
    · exact ⟨hpages, hstack⟩
    · refine ⟨hpages.mmapPages ?_ hpagesRun, hnext.trans_le hstack⟩
      rw [Nat.zero_add]
      exact hmax
  | store va byte =>
    obtain ⟨hsome, rfl⟩ := hstep
    obtain ⟨hva, hmapped⟩ := userView_ne_none hsome
    exact ⟨(hpages.writes hva hmapped (writesFrame_storeByte s.machine va byte)).1, hstack⟩

/-! ## The tail of a segment -/

/-- The addresses of a segment after its file bytes. -/
def InTail (seg : Segment) (va : ℕ) : Prop :=
  seg.vaddr + seg.filesz ≤ va ∧ va < seg.vaddr + seg.memsz
deriving Decidable

/-- **The `.bss` tail.**  After any run, a load that succeeds leaves zeros in the tails of its segments
exactly if each of their bytes was unmapped or zero before. -/
theorem bss_zero_iff {boot : UserSpace} (hboot : PrivatePages root boot.machine)
    (hstack : boot.nextStack = userStackTop) (hrun : Reaches SpaceStep boot s) (hlow : LowerImage image)
    (hdisjoint : DisjointSegments (ptLoads image)) {entry : ℕ}
    (hload : loadElf image s.machine = (.ok (some entry), m')) :
    (∀ seg ∈ ptLoads image, ∀ va, InTail seg va → userView m' va = some 0) ↔
      ∀ seg ∈ ptLoads image, ∀ va, InTail seg va →
        userView s.machine va = none ∨ userView s.machine va = some 0 := by
  have hinv : SpaceInv root s :=
    hrun.invariant ⟨hboot, hstack.le⟩ fun _ _ _ h hstep => spaceInv_step h hstep
  obtain ⟨-, -, hbyte⟩ := loadElf_byte (Loading.start hinv.1) hlow hdisjoint hload
  have htail : ∀ seg ∈ ptLoads image, ∀ va, InTail seg va →
      userView m' va = some ((userView s.machine va).getD 0) := by
    intro seg hseg va hva
    have hin : InSegment seg va := ⟨le_trans (Nat.le_add_right ..) hva.1, hva.2⟩
    rw [hbyte seg hseg va hin, if_neg fun hc => absurd hc.2 (not_lt_of_ge hva.1)]
  have hzero : ∀ o : Option UInt8, some (o.getD 0) = some 0 ↔ o = none ∨ o = some 0 := by
    intro o
    cases o <;> simp
  constructor
  · intro h seg hseg va hva
    rw [← hzero, ← htail seg hseg va hva]
    exact h seg hseg va hva
  · intro h seg hseg va hva
    rw [htail seg hseg va hva, hzero]
    exact h seg hseg va hva

/-- A program whose tail is on a page that another one has mapped. -/
theorem bss_zero_second_program : ∃ s m', Reaches SpaceStep eightFrames s ∧
    userView s.machine 0x400001 = some 0 ∧
    loadElf twoBytes s.machine = (.ok (some 0x400000), m') ∧ userView m' 0x400001 = some 0 := by
  have hfacts : userView (loadElf sharedPage eightFrames.machine).2 0x400001 = some 0 ∧
      (loadElf twoBytes (loadElf sharedPage eightFrames.machine).2).1 = .ok (some 0x400000) := by
    decide +kernel
  obtain ⟨-, -, -, hok⟩ := sharedPage_loads
  obtain ⟨m₁, hrun₁⟩ := Prog.exists_state hok
  rw [hrun₁] at hfacts
  obtain ⟨m', hrun⟩ := Prog.exists_state hfacts.2
  have hload : SpaceStep eightFrames (.load sharedPage) { eightFrames with machine := m₁ } :=
    ⟨sharedPage_lower.1, _, m₁, hrun₁, rfl⟩
  have hzero := bss_zero_iff privatePages_eightFrames rfl ((Reaches.refl _).tail hload) twoBytes_lower.1
    twoBytes_lower.2 hrun
  rw [twoBytes_loads.1] at hzero
  refine ⟨_, m', (Reaches.refl _).tail hload, hfacts.1, hrun,
    hzero.mpr (fun seg hseg va hva => Or.inr ?_) _ (List.mem_singleton_self _) _ (by decide)⟩
  cases List.mem_singleton.mp hseg
  obtain rfl : 0x400001 = va := le_antisymm hva.1 (Nat.lt_succ_iff.mp hva.2)
  exact hfacts.1

/-- The program is loaded, stores 7 in its `.bss`, and is loaded again: the second load succeeds and the
7 is still there. -/
theorem second_load_keeps_bss : PrivatePages 1 eightFrames.machine ∧ LowerImage twoBytes ∧
    ptLoads twoBytes = [⟨0, 0x400000, 1, 2⟩] ∧
    ∃ s m', Reaches SpaceStep eightFrames s ∧
      loadElf twoBytes s.machine = (.ok (some 0x400000), m') ∧ userView m' 0x400001 = some 7 := by
  obtain ⟨hsegs, hok⟩ := twoBytes_loads
  obtain ⟨hlow, hapart⟩ := twoBytes_lower
  have hagain : (loadElf twoBytes
      (storeByte (loadElf twoBytes eightFrames.machine).2 0x400001 7)).1 = .ok (some 0x400000) := by
    decide +kernel
  obtain ⟨m₁, hrun⟩ := Prog.exists_state hok
  rw [hrun] at hagain
  obtain ⟨m', hrun'⟩ := Prog.exists_state hagain
  have hseg : (⟨0, 0x400000, 1, 2⟩ : Segment) ∈ ptLoads twoBytes := by
    rw [hsegs]
    exact List.mem_singleton_self _
  obtain ⟨h₁, -, hview⟩ := loadElf_byte (Loading.start privatePages_eightFrames) hlow hapart hrun
  have hsome : userView m₁ 0x400001 ≠ none := by
    rw [hview _ hseg _ (by decide)]
    split <;> simp
  have hload : SpaceStep eightFrames (.load twoBytes) { eightFrames with machine := m₁ } :=
    ⟨hlow, _, m₁, hrun, rfl⟩
  have hstore : SpaceStep { eightFrames with machine := m₁ } (.store 0x400001 7)
      { eightFrames with machine := storeByte m₁ 0x400001 7 } := ⟨hsome, rfl⟩
  refine ⟨privatePages_eightFrames, hlow, hsegs, _, m', ((Reaches.refl _).tail hload).tail hstore,
    hrun', ?_⟩
  have hinv := spaceInv_step ⟨h₁.pages, le_refl _⟩ hstore
  obtain ⟨-, -, hview'⟩ := loadElf_byte (Loading.start hinv.1) hlow hapart hrun'
  rw [hview' _ hseg _ (by decide), if_neg (by decide), h₁.pages.userView_storeByte hsome]
  rfl

end Pinx.Analysis
