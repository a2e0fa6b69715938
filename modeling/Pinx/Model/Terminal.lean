import Mathlib.Algebra.Group.Nat.Defs
import Mathlib.Logic.Function.Basic
import Pinx.Foundation.Fault
import Pinx.Foundation.Prog

/-!
# The text console

The drawing routines of `graphics.rs` and the console of `terminal.rs` on top of them.  The
framebuffer is a linear array of 32-bit pixels, and the console owns the place of the next glyph.
The glyphs themselves (`font.rs`) are a parameter: `font c row` is a row of a glyph, the lowest bit
the leftmost pixel.
-/

namespace Pinx.Model

open Pinx.Foundation

/-- A framebuffer of the boot loader: its rows hold their pixels, and all rows are in memory.
SOURCE: limine.rs:44-64, graphics.rs:1-6 -/
structure Framebuffer where
  width : ℕ
  height : ℕ
  pitch : ℕ
  row : 4 * width ≤ pitch
  space : pitch * height ≤ 2 ^ 64

/-- The framebuffer, if there is one, its pixels from the first one on, and the cursor.
SOURCE: graphics.rs:11, terminal.rs:17-18 -/
structure Screen where
  fb : Option Framebuffer
  pixels : ℕ → ℕ
  cursorX : ℕ
  cursorY : ℕ

/-- A routine of the console. -/
abbrev Term := Prog Screen Fault

/-- The cells of a row.
SOURCE: graphics.rs:34, 90 -/
def Framebuffer.pitchPixels (fb : Framebuffer) : ℕ := fb.pitch / 4

/-! ## Drawing -/

def storePixel (k color : ℕ) : Term Unit :=
  Prog.modify fun s => { s with pixels := Function.update s.pixels k color }

/-- SOURCE: graphics.rs:22-37 -/
def drawPixel (x y color : ℕ) : Term Unit := do
  match ← Prog.read Screen.fb with
  | none => pure ()
  | some fb =>
    if fb.width ≤ x ∨ fb.height ≤ y then pure ()
    else if 2 ^ 64 ≤ y * fb.pitchPixels + x then Prog.fail .overflow
    else storePixel (y * fb.pitchPixels + x) color

/-- One pixel of a glyph.
SOURCE: graphics.rs:46-49 -/
def drawBit (bits : UInt8) (x y color col : ℕ) : Term Unit :=
  if bits.toNat.testBit col = false then pure ()
  else if 2 ^ 64 ≤ x + col ∨ 2 ^ 64 ≤ y then Prog.fail .overflow
  else drawPixel (x + col) y color

/-- SOURCE: graphics.rs:39-52 -/
def drawChar (font : ℕ → ℕ → UInt8) (c : UInt8) (x y color : ℕ) : Term Unit :=
  Prog.forRange 8 fun row =>
    let bits := font (c.toNat &&& 0x7F) row
    if bits = 0 then pure ()
    else Prog.forRange 8 (drawBit bits x (y + row) color)

/-- SOURCE: graphics.rs:68-79 -/
def clearScreen (color : ℕ) : Term Unit := do
  match ← Prog.read Screen.fb with
  | none => pure ()
  | some fb => Prog.forRange fb.height fun y => Prog.forRange fb.width fun x => drawPixel x y color

/-- SOURCE: graphics.rs:93-95 -/
def copyPixel (shift i : ℕ) : Term Unit :=
  if 2 ^ 64 ≤ i + shift then Prog.fail .overflow
  else do
    let color ← Prog.read fun s => s.pixels (i + shift)
    storePixel i color

/-- SOURCE: graphics.rs:81-103 -/
def scrollFramebuffer (rows fillColor : ℕ) : Term Unit := do
  match ← Prog.read Screen.fb with
  | none => pure ()
  | some fb =>
    let rows := min rows fb.height
    let pitch := fb.pitchPixels
    if 2 ^ 64 ≤ (fb.height - rows) * pitch then Prog.fail .overflow
    else do
      Prog.forRange ((fb.height - rows) * pitch) (copyPixel (rows * pitch))
      Prog.forRange rows fun k => Prog.forRange pitch fun x =>
        if 2 ^ 64 ≤ (fb.height - rows + k) * pitch + x then Prog.fail .overflow
        else storePixel ((fb.height - rows + k) * pitch + x) fillColor

/-- SOURCE: graphics.rs:105-121 -/
def framebufferWidth : Term ℕ := Prog.read fun s => (s.fb.map Framebuffer.width).getD 0
def framebufferHeight : Term ℕ := Prog.read fun s => (s.fb.map Framebuffer.height).getD 0

/-! ## The console -/

/-- SOURCE: terminal.rs:12-15 -/
def lineHeight : ℕ := 30
def fontWidth : ℕ := 8
def scrollColor : ℕ := 0x000000
def textColor : ℕ := 0xFFFFFF

/-- SOURCE: terminal.rs:31-36 -/
def setCursorRaw (x y : ℕ) : Term Unit := Prog.modify fun s => { s with cursorX := x, cursorY := y }

/-- SOURCE: terminal.rs:38-47 -/
def newline : Term Unit := do
  let y ← Prog.read Screen.cursorY
  if 2 ^ 64 ≤ y + lineHeight then Prog.fail .overflow
  else do
    let height ← framebufferHeight
    if height ≤ y + lineHeight then do
      scrollFramebuffer lineHeight scrollColor
      let height ← framebufferHeight
      if height < lineHeight then Prog.fail .overflow
      else setCursorRaw 0 (height - lineHeight)
    else setCursorRaw 0 (y + lineHeight)

/-- The width saturates at zero when the glyph is taken from it.
SOURCE: terminal.rs:49-57 -/
def advance : Term Unit := do
  let x ← Prog.read Screen.cursorX
  let y ← Prog.read Screen.cursorY
  if 2 ^ 64 ≤ x + fontWidth then Prog.fail .overflow
  else do
    let width ← framebufferWidth
    if width - fontWidth < x + fontWidth then newline
    else setCursorRaw (x + fontWidth) y

/-- SOURCE: terminal.rs:59-62 -/
def clear (color : ℕ) : Term Unit := do
  setCursorRaw 0 0
  clearScreen color

/-- SOURCE: terminal.rs:74-82 -/
def putcColor (font : ℕ → ℕ → UInt8) (c : UInt8) (color : ℕ) : Term Unit :=
  if c = 0x0A then newline
  else do
    let x ← Prog.read Screen.cursorX
    let y ← Prog.read Screen.cursorY
    drawChar font c x y color
    advance

/-- SOURCE: terminal.rs:64-72 -/
def putc (font : ℕ → ℕ → UInt8) (c : UInt8) : Term Unit := putcColor font c textColor

end Pinx.Model
