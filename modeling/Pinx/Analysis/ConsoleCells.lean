import Pinx.Model.Terminal

/-!
# Where the console draws

A glyph goes to the cell at the cursor.  The right edge is checked for the width of a glyph, but
the bottom edge only for the top of the line: a line that starts above the bottom and ends below it
is used.  Whether there is such a line is a matter of the height alone.
-/

namespace Pinx.Analysis

open Pinx.Foundation Pinx.Model

variable {fb : Framebuffer} {font : ℕ → ℕ → UInt8} {s s' : Screen} {x y color k : ℕ} {c : UInt8}

/-! ## Drawing -/

/-- What drawing leaves alone: the framebuffer, the cursor and all memory that is not its own. -/
structure Drawn (fb : Framebuffer) (s s' : Screen) : Prop where
  same : s'.fb = some fb
  cursor : s'.cursorX = s.cursorX ∧ s'.cursorY = s.cursorY
  outside : ∀ k, fb.height * fb.pitchPixels ≤ k → s'.pixels k = s.pixels k

theorem Drawn.refl (h : s.fb = some fb) : Drawn fb s s := ⟨h, ⟨rfl, rfl⟩, fun _ _ => rfl⟩

theorem Drawn.trans {s'' : Screen} (h : Drawn fb s s') (h' : Drawn fb s' s'') : Drawn fb s s'' :=
  ⟨h'.same, ⟨h'.cursor.1.trans h.cursor.1, h'.cursor.2.trans h.cursor.2⟩,
    fun k hk => (h'.outside k hk).trans (h.outside k hk)⟩

/-- A routine that only draws, and does not stop. -/
def Draws (fb : Framebuffer) (p : Term Unit) : Prop :=
  ∀ s, s.fb = some fb → Prog.Ends (fun _ s' => Drawn fb s s') (fun _ _ => False) (p s)

theorem draws_pure : Draws fb (pure ()) := fun _ h => Prog.ends_pure (Drawn.refl h)

theorem draws_storePixel (hk : k < fb.height * fb.pitchPixels) : Draws fb (storePixel k color) := by
  intro s h
  refine Prog.ends_ok.mpr ⟨h, ⟨rfl, rfl⟩, fun j hj => ?_⟩
  exact Function.update_of_ne (by omega) _ _

theorem Draws.forRange {n : ℕ} {body : ℕ → Term Unit} (h : ∀ i < n, Draws fb (body i)) :
    Draws fb (Prog.forRange n body) := by
  intro s hs
  refine Prog.forRange_rule (I := fun _ s' => Drawn fb s s') (Drawn.refl hs) fun i hi s' hs' => ?_
  exact (h i hi s' hs'.same).weaken (fun _ _ h' => hs'.trans h') fun _ _ => id

theorem Draws.bind {p q : Term Unit} (hp : Draws fb p) (hq : Draws fb q) :
    Draws fb (p >>= fun _ => q) := by
  intro s hs
  refine (hp s hs).bind fun _ s' hs' => ?_
  exact (hq s' hs'.same).weaken (fun _ _ h => hs'.trans h) fun _ _ => id

/-- A routine that asks for the framebuffer first. -/
theorem Draws.ask {f : Option Framebuffer → Term Unit} (h : Draws fb (f (some fb))) :
    Draws fb (Prog.read Screen.fb >>= f) := by
  intro s hs
  rw [Prog.bind_ok (Prog.read_apply _ _), hs]
  exact h s hs

/-- The index of a pixel is in the framebuffer, and a number of 64 bits. -/
theorem pixel_index (hx : x < fb.pitchPixels) (hy : y < fb.height) :
    y * fb.pitchPixels + x < fb.height * fb.pitchPixels := by
  calc y * fb.pitchPixels + x < y * fb.pitchPixels + fb.pitchPixels := Nat.add_lt_add_left hx _
    _ = (y + 1) * fb.pitchPixels := (Nat.succ_mul _ _).symm
    _ ≤ fb.height * fb.pitchPixels := Nat.mul_le_mul_right _ hy

theorem area_lt (fb : Framebuffer) : fb.height * fb.pitchPixels < 2 ^ 64 := by
  have hspace := fb.space
  have hmul : 4 * (fb.height * fb.pitchPixels) ≤ fb.pitch * fb.height := by
    rw [Nat.mul_left_comm, Nat.mul_comm fb.pitch]
    exact Nat.mul_le_mul_left _ (Nat.mul_div_le fb.pitch 4)
  omega

theorem width_le (fb : Framebuffer) : fb.width ≤ fb.pitchPixels := by
  have hrow := fb.row
  unfold Framebuffer.pitchPixels
  omega

/-- SOURCE: graphics.rs:22-37 -/
theorem draws_drawPixel (x y color : ℕ) : Draws fb (drawPixel x y color) := by
  refine Draws.ask ?_
  by_cases hout : fb.width ≤ x ∨ fb.height ≤ y
  · simp only [if_pos hout]
    exact draws_pure
  · have hwidth := width_le fb
    have hindex := pixel_index (show x < fb.pitchPixels by omega) (show y < fb.height by omega)
    have harea := area_lt fb
    simp only [if_neg hout, if_neg (show ¬2 ^ 64 ≤ y * fb.pitchPixels + x by omega)]
    exact draws_storePixel hindex

/-- SOURCE: graphics.rs:39-52 -/
theorem draws_drawChar (hx : x + 8 ≤ 2 ^ 64) (hy : y + 8 ≤ 2 ^ 64) :
    Draws fb (drawChar font c x y color) := by
  refine Draws.forRange fun row hrow => ?_
  dsimp only
  split
  · exact draws_pure
  · refine Draws.forRange fun col hcol => ?_
    unfold drawBit
    split
    · exact draws_pure
    · rw [if_neg (by omega)]
      exact draws_drawPixel _ _ _

/-- SOURCE: graphics.rs:68-79 -/
theorem draws_clearScreen (color : ℕ) : Draws fb (clearScreen color) :=
  Draws.ask (Draws.forRange fun _ _ => Draws.forRange fun _ _ => draws_drawPixel _ _ _)

/-- SOURCE: graphics.rs:81-103 -/
theorem draws_scrollFramebuffer (rows color : ℕ) : Draws fb (scrollFramebuffer rows color) := by
  refine Draws.ask ?_
  have harea := area_lt fb
  have hrows : min rows fb.height ≤ fb.height := Nat.min_le_right _ _
  dsimp only
  generalize min rows fb.height = rows at hrows ⊢
  have hcopied : (fb.height - rows) * fb.pitchPixels + rows * fb.pitchPixels =
      fb.height * fb.pitchPixels := by
    rw [← Nat.add_mul, Nat.sub_add_cancel hrows]
  rw [if_neg (by omega)]
  refine Draws.bind (Draws.forRange fun i hi => ?_)
    (Draws.forRange fun k hk => Draws.forRange fun x hx => ?_)
  · intro s hs
    unfold copyPixel
    rw [if_neg (by omega), Prog.bind_ok (Prog.read_apply _ _)]
    exact draws_storePixel (by omega) s hs
  · have hindex := pixel_index hx (show fb.height - rows + k < fb.height by omega)
    rw [if_neg (by omega)]
    exact draws_storePixel hindex

/-- A drawing routine as it is run. -/
theorem Draws.run {p : Term Unit} (h : Draws fb p) (hs : s.fb = some fb) :
    ∃ s', p s = (.ok (), s') ∧ Drawn fb s s' := by
  have hends := h s hs
  generalize p s = r at hends
  obtain ⟨r, s'⟩ := r
  cases r with
  | ok a =>
    rw [Prog.ends_ok] at hends
    exact ⟨s', rfl, hends⟩
  | error e => exact (Prog.ends_error.mp hends).elim

/-! ## The cursor -/

section Cursor

variable (hs : s.fb = some fb)
include hs

theorem framebufferHeight_apply : framebufferHeight s = (.ok fb.height, s) := by
  rw [framebufferHeight, Prog.read_apply, hs]
  rfl

theorem framebufferWidth_apply : framebufferWidth s = (.ok fb.width, s) := by
  rw [framebufferWidth, Prog.read_apply, hs]
  rfl

/-- Above the bottom the next line follows. -/
theorem newline_next (hlt : s.cursorY + 30 < 2 ^ 64) (habove : s.cursorY + 30 < fb.height) :
    newline s = (.ok (), { s with cursorX := 0, cursorY := s.cursorY + 30 }) := by
  unfold newline lineHeight
  rw [Prog.bind_ok (Prog.read_apply _ _), if_neg (Nat.not_le.mpr hlt),
    Prog.bind_ok (framebufferHeight_apply hs), if_neg (Nat.not_le.mpr habove)]
  rfl

/-- At the bottom the screen is scrolled, and the cursor is set by the height. -/
theorem newline_bottom (hlt : s.cursorY + 30 < 2 ^ 64) (hbottom : fb.height ≤ s.cursorY + 30) :
    ∃ s₁, Drawn fb s s₁ ∧ newline s = if fb.height < 30 then (.error .overflow, s₁)
      else (.ok (), { s₁ with cursorX := 0, cursorY := fb.height - 30 }) := by
  obtain ⟨s₁, hscroll, hdrawn⟩ := (draws_scrollFramebuffer 30 scrollColor).run hs
  refine ⟨s₁, hdrawn, ?_⟩
  unfold newline lineHeight
  rw [Prog.bind_ok (Prog.read_apply _ _), if_neg (Nat.not_le.mpr hlt),
    Prog.bind_ok (framebufferHeight_apply hs), if_pos hbottom, Prog.bind_ok hscroll,
    Prog.bind_ok (framebufferHeight_apply hdrawn.same), Prog.ite_apply]
  rfl

end Cursor

/-- The cell at the cursor is inside of the framebuffer. -/
def CellInside (fb : Framebuffer) (s : Screen) : Prop :=
  s.cursorX + 8 ≤ fb.width ∧ s.cursorY + 8 ≤ fb.height

/-- Writing `bytes` does not stop, and every glyph is drawn inside of the framebuffer. -/
def DrawsInside (font : ℕ → ℕ → UInt8) (fb : Framebuffer) : List UInt8 → Screen → Prop
  | [], _ => True
  | c :: bytes, s => (c ≠ 0x0A → CellInside fb s) ∧
    ∃ s', putc font c s = (.ok (), s') ∧ DrawsInside font fb bytes s'

/-- No line starts above the bottom and ends below it. -/
def LinesFit (height : ℕ) : Prop := 30 ≤ height ∧ (height % 30 = 0 ∨ 8 ≤ height % 30)

instance (height : ℕ) : Decidable (LinesFit height) :=
  inferInstanceAs (Decidable (30 ≤ height ∧ (height % 30 = 0 ∨ 8 ≤ height % 30)))

/-- The cursor is at a column with room for a glyph, on a line counted from the top or on the
last one. -/
structure OnLine (fb : Framebuffer) (s : Screen) : Prop where
  same : s.fb = some fb
  column : s.cursorX + 8 ≤ fb.width
  line : s.cursorY % 30 = 0 ∧ s.cursorY < fb.height ∨ s.cursorY + 30 = fb.height

theorem OnLine.inside (h : OnLine fb s) (hfit : LinesFit fb.height) : CellInside fb s := by
  obtain ⟨h30, hrest⟩ := hfit
  have hline := h.line
  exact ⟨h.column, by omega⟩

/-- Lines and columns are far from the end of the numbers. -/
theorem screen_small (hwidth : 8 ≤ fb.width) (hheight : 8 ≤ fb.height) :
    fb.width + 8 < 2 ^ 64 ∧ fb.height + 30 < 2 ^ 64 := by
  have hrow := fb.row
  have hspace := fb.space
  have htall : 32 * fb.height ≤ fb.pitch * fb.height := Nat.mul_le_mul_right _ (by omega)
  have hwide : fb.pitch * 8 ≤ fb.pitch * fb.height := Nat.mul_le_mul_left _ hheight
  omega

section Step

variable (hwidth : 8 ≤ fb.width) (hfit : LinesFit fb.height)
include hwidth hfit

/-- SOURCE: terminal.rs:38-47 -/
theorem OnLine.newline (h : OnLine fb s) : ∃ s', newline s = (.ok (), s') ∧ OnLine fb s' := by
  obtain ⟨hx, hy⟩ := h.inside hfit
  obtain ⟨-, hsmall⟩ := screen_small hwidth (by omega)
  have hline := h.line
  by_cases habove : s.cursorY + 30 < fb.height
  · refine ⟨_, newline_next h.same (by omega) habove, h.same, by omega, Or.inl ?_⟩
    show (s.cursorY + 30) % 30 = 0 ∧ s.cursorY + 30 < fb.height
    omega
  · obtain ⟨s₁, hdrawn, hrun⟩ := newline_bottom h.same (by omega) (Nat.not_lt.mp habove)
    rw [if_neg (Nat.not_lt.mpr hfit.1)] at hrun
    refine ⟨_, hrun, hdrawn.same, by omega, Or.inr ?_⟩
    exact Nat.sub_add_cancel hfit.1

/-- SOURCE: terminal.rs:49-57 -/
theorem OnLine.advance (h : OnLine fb s) : ∃ s', advance s = (.ok (), s') ∧ OnLine fb s' := by
  obtain ⟨hx, hy⟩ := h.inside hfit
  obtain ⟨hsmall, -⟩ := screen_small hwidth (by omega)
  unfold Model.advance fontWidth
  rw [Prog.bind_ok (Prog.read_apply _ _), Prog.bind_ok (Prog.read_apply _ _), if_neg (by omega),
    Prog.bind_ok (framebufferWidth_apply h.same)]
  by_cases hedge : fb.width - 8 < s.cursorX + 8
  · rw [if_pos hedge]
    exact h.newline hwidth hfit
  · rw [if_neg hedge]
    refine ⟨_, rfl, h.same, ?_, h.line⟩
    show s.cursorX + 8 + 8 ≤ fb.width
    omega

/-- SOURCE: terminal.rs:64-72 -/
theorem OnLine.putc (h : OnLine fb s) (c : UInt8) :
    ∃ s', putc font c s = (.ok (), s') ∧ OnLine fb s' := by
  unfold Model.putc putcColor
  by_cases hnew : c = 0x0A
  · rw [if_pos hnew]
    exact h.newline hwidth hfit
  · obtain ⟨hx, hy⟩ := h.inside hfit
    have hsmall := screen_small hwidth (show 8 ≤ fb.height by omega)
    have hdraws : Draws fb (drawChar font c s.cursorX s.cursorY textColor) :=
      draws_drawChar (by omega) (by omega)
    obtain ⟨s₁, hchar, hdrawn⟩ := hdraws.run h.same
    have h₁ : OnLine fb s₁ := by
      refine ⟨hdrawn.same, ?_, ?_⟩
      · rw [hdrawn.cursor.1]
        exact h.column
      · rw [hdrawn.cursor.2]
        exact h.line
    rw [if_neg hnew, Prog.bind_ok (Prog.read_apply _ _), Prog.bind_ok (Prog.read_apply _ _),
      Prog.bind_ok hchar]
    exact h₁.advance hwidth hfit

/-- Every run from a line draws inside. -/
theorem OnLine.drawsInside (bytes : List UInt8) (h : OnLine fb s) : DrawsInside font fb bytes s := by
  induction bytes generalizing s with
  | nil => exact trivial
  | cons c bytes ih =>
    obtain ⟨s', hrun, h'⟩ : ∃ s', Model.putc font c s = (.ok (), s') ∧ OnLine fb s' :=
      h.putc hwidth hfit c
    exact ⟨fun _ => h.inside hfit, s', hrun, ih h'⟩

end Step

/-! ## Heights with a line across the bottom -/

/-- The cursor after `n` line feeds from the top, as long as they are above the bottom. -/
theorem putc_lineFeeds (hfb : fb.height + 30 < 2 ^ 64) {rest : List UInt8} (n : ℕ)
    (hs : s.fb = some fb) (habove : s.cursorY + 30 * n < fb.height)
    (h : DrawsInside font fb (List.replicate n 0x0A ++ rest) s) :
    ∃ s', s'.cursorY = s.cursorY + 30 * n ∧ DrawsInside font fb rest s' := by
  induction n generalizing s with
  | zero => exact ⟨s, rfl, h⟩
  | succ n ih =>
    obtain ⟨-, s', hrun, hrest⟩ := h
    have hfeed : putc font 0x0A s = newline s := rfl
    rw [hfeed, newline_next hs (by omega) (by omega)] at hrun
    cases hrun
    obtain ⟨s'', hy, hdraws⟩ := ih (s := { s with cursorX := 0, cursorY := s.cursorY + 30 }) hs
      (show s.cursorY + 30 + 30 * n < fb.height by omega) hrest
    refine ⟨s'', ?_, hdraws⟩
    rw [hy]
    show s.cursorY + 30 + 30 * n = s.cursorY + 30 * (n + 1)
    omega

section Cut

variable (hwidth : 8 ≤ fb.width) (hheight : 8 ≤ fb.height) (hs : s.fb = some fb) (hy : s.cursorY = 0)
include hwidth hheight hs hy

/-- On a screen of less than a line, the first line feed stops the console. -/
theorem lineFeed_stops (hlow : fb.height < 30) : ¬DrawsInside font fb [0x0A] s := by
  rintro ⟨-, s', hrun, -⟩
  obtain ⟨-, hsmall⟩ := screen_small hwidth hheight
  obtain ⟨s₁, -, hstop⟩ := newline_bottom hs (by omega) (by omega)
  have hfeed : putc font 0x0A s = newline s := rfl
  rw [hfeed, hstop, if_pos hlow] at hrun
  cases hrun

/-- Where a line starts less than a glyph above the bottom, a glyph on it is cut. -/
theorem glyph_cut (hrest : 0 < fb.height % 30 ∧ fb.height % 30 < 8) :
    ¬DrawsInside font fb (List.replicate (fb.height / 30) 0x0A ++ [0x41]) s := by
  intro h
  obtain ⟨-, hsmall⟩ := screen_small hwidth hheight
  obtain ⟨s', hy', hcell, -⟩ := putc_lineFeeds hsmall (fb.height / 30) hs (by omega) h
  obtain ⟨-, hbottom⟩ := hcell (by simp)
  omega

end Cut

/-- SOURCE: terminal.rs:59-62 -/
theorem clear_run (color : ℕ) (hs : s.fb = some fb) : ∃ s₀, clear color s = (.ok (), s₀) ∧
    s₀.fb = some fb ∧ s₀.cursorX = 0 ∧ s₀.cursorY = 0 := by
  obtain ⟨s₀, hrun, hdrawn⟩ := (draws_clearScreen color).run
    (show ({ s with cursorX := 0, cursorY := 0 } : Screen).fb = some fb from hs)
  exact ⟨s₀, hrun, hdrawn.same, hdrawn.cursor.1, hdrawn.cursor.2⟩

/-- After the screen was cleared, every run of bytes is written without a fault and with every glyph
inside of the framebuffer, if and only if the height has room for a line and no line across the
bottom. -/
theorem glyphs_inside_iff (font : ℕ → ℕ → UInt8) (fb : Framebuffer) (hwidth : 8 ≤ fb.width)
    (hheight : 8 ≤ fb.height) :
    (∀ color s, s.fb = some fb → ∃ s₀, clear color s = (.ok (), s₀) ∧
      ∀ bytes, DrawsInside font fb bytes s₀) ↔ LinesFit fb.height := by
  constructor
  · intro h
    obtain ⟨s₀, hrun, hs, -, hy⟩ := clear_run 0 (show (⟨some fb, fun _ => 0, 0, 0⟩ : Screen).fb = _ from rfl)
    obtain ⟨s₁, hrun₁, hdraws⟩ := h 0 ⟨some fb, fun _ => 0, 0, 0⟩ rfl
    rw [hrun] at hrun₁
    cases hrun₁
    by_contra hcut
    unfold LinesFit at hcut
    by_cases hlow : fb.height < 30
    · exact lineFeed_stops hwidth hheight hs hy hlow (hdraws _)
    · exact glyph_cut hwidth hheight hs hy (by omega) (hdraws _)
  · intro hfit color s hs
    obtain ⟨s₀, hrun, hs₀, hx, hy⟩ := clear_run color hs
    refine ⟨s₀, hrun, fun bytes => OnLine.drawsInside hwidth hfit bytes ⟨hs₀, by omega, Or.inl ?_⟩⟩
    rw [hy]
    exact ⟨rfl, by omega⟩

/-- A screen of 1024 by 768 pixels. -/
def xgaScreen : Framebuffer := ⟨1024, 768, 4096, by omega, by omega⟩

/-- A screen of 1280 by 1024 pixels. -/
def sxgaScreen : Framebuffer := ⟨1280, 1024, 5120, by omega, by omega⟩

/-- The letter A alone. -/
def letterFont (c row : ℕ) : UInt8 :=
  if c = 0x41 then [0x0C, 0x1E, 0x33, 0x33, 0x3F, 0x33, 0x33, 0x00].getD row 0 else 0

/-- 768 pixels are 25 lines and 18 pixels. -/
theorem glyphs_inside_xga : ∃ s₀, clear 0 ⟨some xgaScreen, fun _ => 0, 0, 0⟩ = (.ok (), s₀) ∧
    ∀ bytes, DrawsInside letterFont xgaScreen bytes s₀ :=
  (glyphs_inside_iff letterFont xgaScreen (by decide) (by decide)).mpr (by decide) 0 _ rfl

/-- 1024 pixels are 34 lines and 4 pixels: after 34 line feeds, a letter is drawn from row 1020 on. -/
theorem glyph_across_bottom : ∃ s₀, clear 0 ⟨some sxgaScreen, fun _ => 0, 0, 0⟩ = (.ok (), s₀) ∧
    ¬DrawsInside letterFont sxgaScreen (List.replicate 34 0x0A ++ [0x41]) s₀ := by
  obtain ⟨s₀, hrun, hs, -, hy⟩ :=
    clear_run 0 (show (⟨some sxgaScreen, fun _ => 0, 0, 0⟩ : Screen).fb = some sxgaScreen from rfl)
  exact ⟨s₀, hrun, glyph_cut (by decide) (by decide) hs hy (by decide)⟩

end Pinx.Analysis
