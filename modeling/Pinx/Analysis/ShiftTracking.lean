import Pinx.Analysis.KeyDelivery

/-!
# The shift keys

`SHIFT_HELD` is one flag for two keys.  A release of either clears it, and so does the code
`0xE0 0x2A` with which a keyboard takes a fake release of shift back after an extended key.  The
flag says whether a shift key is down after every code of a keyboard exactly when no shift key is
released while the other is down and no such code comes while one is down
(`shift_flag_iff`).
-/

namespace Pinx.Analysis

open Pinx.Foundation Pinx.Model

/-! ## What a keyboard sends -/

inductive ShiftKey where
  | left
  | right
deriving DecidableEq, Repr

/-- The byte of a press; a release has bit 7 set. -/
def ShiftKey.make : ShiftKey → UInt8
  | .left => 0x2A
  | .right => 0x36

def ShiftKey.break : ShiftKey → UInt8
  | .left => 0xAA
  | .right => 0xB6

/-- A byte that is no prefix and no press or release of a shift key. -/
def PlainByte (b : UInt8) : Prop :=
  b ≠ 0xE0 ∧ b &&& 0x7F ≠ 0x2A ∧ b &&& 0x7F ≠ 0x36
deriving Decidable

/-- A complete code: a shift key going down or up, a press or release of another key, with or without
the prefix, and a fake press or release of shift. -/
inductive ScanCode where
  | press (key : ShiftKey)
  | release (key : ShiftKey)
  | plain (b : UInt8) (h : PlainByte b)
  | extended (b : UInt8) (h : PlainByte b)
  | fakePress (key : ShiftKey)
  | fakeRelease (key : ShiftKey)

/-- The bytes of a code. -/
def ScanCode.bytes : ScanCode → List UInt8
  | .press key => [key.make]
  | .release key => [key.break]
  | .plain b _ => [b]
  | .extended b _ => [0xE0, b]
  | .fakePress key => [0xE0, key.make]
  | .fakeRelease key => [0xE0, key.break]

/-- The shift keys that are down after a code. -/
def ScanCode.holds (down : ShiftKey → Bool) : ScanCode → ShiftKey → Bool
  | .press key => Function.update down key true
  | .release key => Function.update down key false
  | _ => down

/-- The shift keys that are down after some codes; none is at first. -/
def heldAfter (codes : List ScanCode) : ShiftKey → Bool :=
  codes.foldl ScanCode.holds fun _ => false

/-- The bytes of some codes, one interrupt each. -/
def irqs (k : Keyboard) (bytes : List UInt8) : Except Fault Keyboard := bytes.foldlM Keyboard.irq k

/-- A code that leaves the flag right: no shift key is released while the other one is down, and no
fake press comes while one is down. -/
def Trackable (down : ShiftKey → Bool) : ScanCode → Prop
  | .release key => ∀ other, other ≠ key → down other = false
  | .fakePress _ => ∀ key, down key = false
  | _ => True

/-! ## The flag after a code -/

/-- The flag after a code of the keyboard. -/
def flagAfter (flag : UInt8) : ScanCode → UInt8
  | .press _ => 1
  | .release _ => 0
  | .fakePress _ => 0
  | _ => flag

/-- The modifiers after some bytes. -/
def modsAfter (m : Modifiers) (bytes : List UInt8) : Modifiers :=
  bytes.foldl (fun m b => (translateScancode m b).1) m

/-- A byte that is no shift key's leaves the flag alone. -/
theorem plain_shiftHeld {m : Modifiers} {b : UInt8} (hplain : PlainByte b)
    (hidle : m.extendedPrefix = 0) :
    (translateScancode m b).1.shiftHeld = m.shiftHeld ∧
      (translateScancode m b).1.extendedPrefix = 0 := by
  obtain ⟨hE0, hleft, hright⟩ := hplain
  have hmake : ¬(b = 0x2A ∨ b = 0x36) := by
    rintro (rfl | rfl)
    · exact hleft rfl
    · exact hright rfl
  have hbreak : ¬(b &&& 0x7F = 0x2A ∨ b &&& 0x7F = 0x36) := not_or.mpr ⟨hleft, hright⟩
  unfold translateScancode
  rw [if_neg hE0, if_neg (not_not_intro hidle), if_neg hmake]
  by_cases hctrl : b = 0x1D
  · rw [if_pos hctrl]
    exact ⟨rfl, hidle⟩
  rw [if_neg hctrl]
  by_cases halt : b = 0x38
  · rw [if_pos halt]
    exact ⟨rfl, hidle⟩
  rw [if_neg halt]
  by_cases hcaps : b = 0x3A
  · rw [if_pos hcaps]
    exact ⟨rfl, hidle⟩
  rw [if_neg hcaps]
  by_cases hreleased : b &&& 0x80 ≠ 0
  · rw [if_pos hreleased]
    dsimp only
    rw [if_neg hbreak]
    by_cases h1D : b &&& 0x7F = 0x1D
    · rw [if_pos h1D]
      exact ⟨rfl, hidle⟩
    rw [if_neg h1D]
    by_cases h38 : b &&& 0x7F = 0x38
    · rw [if_pos h38]
      exact ⟨rfl, hidle⟩
    · rw [if_neg h38]
      exact ⟨rfl, hidle⟩
  · rw [if_neg hreleased]
    by_cases hhigh : b ≥ 128
    · rw [if_pos hhigh]
      exact ⟨rfl, hidle⟩
    · rw [if_neg hhigh]
      exact ⟨rfl, hidle⟩

/-- Behind a prefix, too. -/
theorem extended_shiftHeld {m : Modifiers} {b : UInt8} (hplain : PlainByte b)
    (hseen : m.extendedPrefix = 1) :
    (translateScancode m b).1.shiftHeld = m.shiftHeld ∧
      (translateScancode m b).1.extendedPrefix = 0 := by
  obtain ⟨hE0, hleft, hright⟩ := hplain
  have hmake : ¬(b = 0x2A ∨ b = 0x36) := by
    rintro (rfl | rfl)
    · exact hleft rfl
    · exact hright rfl
  have hne : m.extendedPrefix ≠ 0 := by
    rw [hseen]
    decide
  unfold translateScancode
  rw [if_neg hE0, if_pos hne, if_neg hmake]
  by_cases hreleased : b &&& 0x80 ≠ 0
  · rw [if_pos hreleased]
    exact ⟨rfl, rfl⟩
  · rw [if_neg hreleased]
    exact ⟨rfl, rfl⟩

/-- What a complete code makes of the flag; it leaves no prefix behind. -/
theorem modsAfter_code {m : Modifiers} (hidle : m.extendedPrefix = 0) (code : ScanCode) :
    (modsAfter m code.bytes).shiftHeld = flagAfter m.shiftHeld code ∧
      (modsAfter m code.bytes).extendedPrefix = 0 := by
  obtain ⟨shift, ctrl, alt, caps, extended⟩ := m
  dsimp only at hidle
  subst hidle
  cases code with
  | press key => cases key <;> exact ⟨rfl, rfl⟩
  | release key => cases key <;> exact ⟨rfl, rfl⟩
  | plain b hplain => exact plain_shiftHeld hplain rfl
  | extended b hplain => exact extended_shiftHeld (m := ⟨shift, ctrl, alt, caps, 1⟩) hplain rfl
  | fakePress key => cases key <;> exact ⟨rfl, rfl⟩
  | fakeRelease key => cases key <;> exact ⟨rfl, rfl⟩

/-- The flag says whether a shift key is down. -/
def FlagRight (flag : UInt8) (down : ShiftKey → Bool) : Prop := flag ≠ 0 ↔ ∃ key, down key = true

/-- From a right flag a code leads to a right flag exactly when it is trackable. -/
theorem flagRight_step {flag : UInt8} {down : ShiftKey → Bool} (h : FlagRight flag down)
    (code : ScanCode) :
    FlagRight (flagAfter flag code) (code.holds down) ↔ Trackable down code := by
  unfold FlagRight at h ⊢
  cases code with
  | press key =>
    have hone : (1 : UInt8) ≠ 0 := by simp
    have hdown : Function.update down key true key = true := Function.update_self ..
    exact ⟨fun _ => trivial, fun _ => ⟨fun _ => ⟨key, hdown⟩, fun _ => hone⟩⟩
  | release key =>
    have hzero : ¬(0 : UInt8) ≠ 0 := fun hne => hne rfl
    simp only [flagAfter, ScanCode.holds, Trackable, hzero, false_iff, not_exists, Bool.not_eq_true]
    constructor
    · intro hdown other hother
      have := hdown other
      rwa [Function.update_of_ne hother] at this
    · intro hdown other
      by_cases hother : other = key
      · rw [hother, Function.update_self]
      · rw [Function.update_of_ne hother]
        exact hdown other hother
  | fakePress key =>
    have hzero : ¬(0 : UInt8) ≠ 0 := fun hne => hne rfl
    simp only [flagAfter, ScanCode.holds, Trackable, hzero, false_iff, not_exists, Bool.not_eq_true]
  | plain b _ => exact ⟨fun _ => trivial, fun _ => h⟩
  | extended b _ => exact ⟨fun _ => trivial, fun _ => h⟩
  | fakeRelease key => exact ⟨fun _ => trivial, fun _ => h⟩

/-! ## Runs -/

theorem irqs_shows {k : Keyboard} {q : KeyQueue} (h : Shows k q) (bytes : List UInt8) :
    ∃ k', irqs k bytes = .ok k' ∧ k'.mods = modsAfter q.mods bytes := by
  induction bytes generalizing k q with
  | nil =>
    obtain ⟨r, rfl, -⟩ := h.ring
    exact ⟨_, rfl, rfl⟩
  | cons b bytes ih =>
    obtain ⟨k₁, hirq, hshows⟩ := h.irq b
    obtain ⟨k₂, hrun, hmods⟩ := ih hshows
    refine ⟨k₂, ?_, hmods⟩
    unfold irqs
    rw [List.foldlM_cons, hirq]
    exact hrun

/-- The modifiers after some codes. -/
def modsOf (codes : List ScanCode) : Modifiers :=
  modsAfter ⟨0, 0, 0, 0, 0⟩ (codes.flatMap ScanCode.bytes)

theorem modsOf_concat (codes : List ScanCode) (code : ScanCode) :
    modsOf (codes ++ [code]) = modsAfter (modsOf codes) code.bytes := by
  simp only [modsOf, modsAfter, List.flatMap_append, List.flatMap_singleton, List.foldl_append]

theorem modsOf_plain (codes : List ScanCode) : (modsOf codes).extendedPrefix = 0 := by
  induction codes using List.reverseRecOn with
  | nil => rfl
  | append_singleton codes code ih =>
    rw [modsOf_concat]
    exact (modsAfter_code ih code).2

/-- After every complete code the flag is right, exactly when every code is trackable. -/
theorem flagRight_iff (codes : List ScanCode) :
    (∀ pre, pre <+: codes → FlagRight (modsOf pre).shiftHeld (heldAfter pre)) ↔
      ∀ pre code, pre ++ [code] <+: codes → Trackable (heldAfter pre) code := by
  induction codes using List.reverseRecOn with
  | nil =>
    constructor
    · intro _ pre code hpre
      exact absurd (List.prefix_nil.mp hpre) (List.append_ne_nil_of_right_ne_nil pre (by simp))
    · intro _ pre hpre
      rw [List.prefix_nil.mp hpre]
      exact ⟨fun h => absurd rfl h, fun ⟨_, h⟩ => Bool.noConfusion h⟩
  | append_singleton codes code ih =>
    have hstep : FlagRight (modsOf codes).shiftHeld (heldAfter codes) →
        (FlagRight (modsOf (codes ++ [code])).shiftHeld (heldAfter (codes ++ [code])) ↔
          Trackable (heldAfter codes) code) := by
      intro h
      rw [modsOf_concat, (modsAfter_code (modsOf_plain codes) code).1, heldAfter,
        List.foldl_append]
      exact flagRight_step h code
    constructor
    · intro h pre c hpre
      rcases List.prefix_concat_iff.mp hpre with heq | hshort
      · obtain ⟨rfl, hc⟩ := List.append_inj' heq rfl
        cases hc
        exact (hstep (h pre (List.prefix_append pre _))).mp (h _ List.prefix_rfl)
      · refine ih.mp (fun p hp => h p ?_) pre c hshort
        exact hp.trans (List.prefix_append codes [code])
    · intro h pre hpre
      have hbefore := ih.mpr fun p c hp => h p c (hp.trans (List.prefix_append codes [code]))
      rcases List.prefix_concat_iff.mp hpre with rfl | hshort
      · exact (hstep (hbefore codes List.prefix_rfl)).mpr (h codes code List.prefix_rfl)
      · exact hbefore pre hshort

/-- After every complete code of a keyboard `SHIFT_HELD` says whether a shift key is down, exactly
when no shift key is released while the other one is down and no fake press comes while one is
down. -/
theorem shift_flag_iff (k₀ : Keyboard) (codes : List ScanCode) :
    (∀ pre, pre <+: codes → ∃ k, irqs k₀.init (pre.flatMap ScanCode.bytes) = .ok k ∧
      (k.mods.shiftHeld ≠ 0 ↔ ∃ key, heldAfter pre key = true)) ↔
    ∀ pre code, pre ++ [code] <+: codes → Trackable (heldAfter pre) code := by
  rw [← flagRight_iff]
  refine forall₂_congr fun pre _ => ?_
  obtain ⟨k, hrun, hmods⟩ := irqs_shows (shows_init k₀) (pre.flatMap ScanCode.bytes)
  have hflag : k.mods.shiftHeld = (modsOf pre).shiftHeld := congrArg Modifiers.shiftHeld hmods
  unfold FlagRight
  rw [← hflag]
  constructor
  · rintro ⟨k', hrun', hright⟩
    cases hrun.symm.trans hrun'
    exact hright
  · exact fun hright => ⟨k, hrun, hright⟩

/-- Both shift keys go down and one goes up; and an arrow key is pressed and released while shift is
down.  In both cases a shift key is down and the flag says that none is. -/
theorem shift_flag_lost :
    (∃ k, irqs (Keyboard.init ⟨fun _ => 0, 0, 0, ⟨0, 0, 0, 0, 0⟩⟩) [0x2A, 0x36, 0xB6] = .ok k ∧
      k.mods.shiftHeld = 0 ∧
      heldAfter [.press .left, .press .right, .release .right] .left = true) ∧
    ∃ k, irqs (Keyboard.init ⟨fun _ => 0, 0, 0, ⟨0, 0, 0, 0, 0⟩⟩)
        [0x2A, 0xE0, 0xAA, 0xE0, 0x48, 0xE0, 0xC8, 0xE0, 0x2A] = .ok k ∧
      k.mods.shiftHeld = 0 ∧
      heldAfter [.press .left, .fakeRelease .left, .extended 0x48 (by decide),
        .extended 0xC8 (by decide), .fakePress .left] .left = true :=
  ⟨⟨_, rfl, rfl, rfl⟩, ⟨_, rfl, rfl, rfl⟩⟩

end Pinx.Analysis
