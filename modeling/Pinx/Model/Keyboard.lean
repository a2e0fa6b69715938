import Pinx.Model.UserMemory

/-!
# The keyboard

The interrupt handler of `keyboard.rs` keeps track of the modifier keys, translates scancodes
and pushes the keys at `KB_HEAD`; `sys_event_read` takes them at `KB_TAIL`.  One slot of the ring
stays empty, so that equal indices mean an empty ring.

`KeyRing` is the ring with its indices in range; the driver itself keeps them as `u32`.
-/

namespace Pinx.Model

open Pinx.Foundation

/-- SOURCE: keyboard.rs:13 -/
abbrev bufferSize : ℕ := 256

instance neZero_bufferSize : NeZero bufferSize := ⟨by simp⟩

/-- SOURCE: keyboard.rs:15 -/
def keyNone : UInt8 := 0

/-- `KB_BUFFER`, `KB_HEAD` and `KB_TAIL`.  The indices are kept below `BUFFER_SIZE` by
the `%` of every update. -/
structure KeyRing where
  buffer : Fin bufferSize → UInt8
  head : Fin bufferSize
  tail : Fin bufferSize

namespace KeyRing

/-- SOURCE: keyboard.rs:109-111, 204-205 -/
def empty : KeyRing := ⟨fun _ => 0, 0, 0⟩

/-- SOURCE: keyboard.rs:119-127 -/
def bufferPush (r : KeyRing) (key : UInt8) : KeyRing :=
  let next := r.head + 1
  if next ≠ r.tail then
    { r with buffer := Function.update r.buffer r.head key, head := next }
  else r

/-- SOURCE: keyboard.rs:302-311 -/
def input (r : KeyRing) : UInt8 × KeyRing :=
  if r.head = r.tail then (keyNone, r)
  else (r.buffer r.tail, { r with tail := r.tail + 1 })

/-- SOURCE: keyboard.rs:313-315 -/
def hasInput (r : KeyRing) : Bool := r.head ≠ r.tail

/-- The loop of `sys_event_read` with room for `max` more events: the codes it writes.
SOURCE: syscall.rs:293-307 -/
def readEvents : ℕ → KeyRing → List UInt8 × KeyRing
  | 0, r => ([], r)
  | max + 1, r =>
    if r.hasInput then
      let (code, r) := r.input
      if code = keyNone then ([], r)
      else
        let (codes, r) := readEvents max r
        (code :: codes, r)
    else ([], r)

end KeyRing

/-! ## Scancodes -/

/-- SOURCE: keyboard.rs:16-43 -/
def keyBackspace : UInt8 := 0x08
def keyTab : UInt8 := 0x09
def keyEnter : UInt8 := 0x0A
def keyEsc : UInt8 := 0x1B
def keySpace : UInt8 := 0x20
def keyExtUp : UInt8 := 0x80
def keyExtDown : UInt8 := 0x81
def keyExtLeft : UInt8 := 0x82
def keyExtRight : UInt8 := 0x83
def keyExtHome : UInt8 := 0x84
def keyExtEnd : UInt8 := 0x85
def keyExtPgup : UInt8 := 0x86
def keyExtPgdn : UInt8 := 0x87
def keyExtInsert : UInt8 := 0x88
def keyExtDelete : UInt8 := 0x89
def keyExtF1 : UInt8 := 0x8A
def keyExtF2 : UInt8 := 0x8B
def keyExtF3 : UInt8 := 0x8C
def keyExtF4 : UInt8 := 0x8D
def keyExtF5 : UInt8 := 0x8E
def keyExtF6 : UInt8 := 0x8F
def keyExtF7 : UInt8 := 0x90
def keyExtF8 : UInt8 := 0x91
def keyExtF9 : UInt8 := 0x92
def keyExtF10 : UInt8 := 0x93
def keyExtF11 : UInt8 := 0x94
def keyExtF12 : UInt8 := 0x95

/-- A byte literal `b'c'`. -/
def ascii (c : Char) : UInt8 := c.toUInt8

/-- A table from `(scancode, value)` pairs; every scancode not named is `KEY_NONE`.
SOURCE: keyboard.rs:47-55 -/
def table (entries : List (ℕ × UInt8)) : ℕ → UInt8 :=
  entries.foldl (fun out e => Function.update out e.1 e.2) fun _ => keyNone

-- quotes, braces, the backslash and the backtick are given by their codes

/-- SOURCE: keyboard.rs:57-76 -/
def scancodeToAscii : ℕ → UInt8 := table [
  (0x01, keyEsc),
  (0x02, ascii '1'), (0x03, ascii '2'), (0x04, ascii '3'), (0x05, ascii '4'), (0x06, ascii '5'),
  (0x07, ascii '6'), (0x08, ascii '7'), (0x09, ascii '8'), (0x0A, ascii '9'), (0x0B, ascii '0'),
  (0x0C, ascii '-'), (0x0D, ascii '='), (0x0E, keyBackspace), (0x0F, keyTab),
  (0x10, ascii 'q'), (0x11, ascii 'w'), (0x12, ascii 'e'), (0x13, ascii 'r'), (0x14, ascii 't'),
  (0x15, ascii 'y'), (0x16, ascii 'u'), (0x17, ascii 'i'), (0x18, ascii 'o'), (0x19, ascii 'p'),
  (0x1A, ascii '['), (0x1B, ascii ']'), (0x1C, keyEnter),
  (0x1E, ascii 'a'), (0x1F, ascii 's'), (0x20, ascii 'd'), (0x21, ascii 'f'), (0x22, ascii 'g'),
  (0x23, ascii 'h'), (0x24, ascii 'j'), (0x25, ascii 'k'), (0x26, ascii 'l'),
  (0x27, ascii ';'), (0x28, 0x27), (0x29, 0x60),
  (0x2B, 0x5C),
  (0x2C, ascii 'z'), (0x2D, ascii 'x'), (0x2E, ascii 'c'), (0x2F, ascii 'v'), (0x30, ascii 'b'),
  (0x31, ascii 'n'), (0x32, ascii 'm'),
  (0x33, ascii ','), (0x34, ascii '.'), (0x35, ascii '/'),
  (0x37, ascii '*'), (0x39, keySpace),
  (0x47, ascii '7'), (0x48, ascii '8'), (0x49, ascii '9'), (0x4A, ascii '-'),
  (0x4B, ascii '4'), (0x4C, ascii '5'), (0x4D, ascii '6'), (0x4E, ascii '+'),
  (0x4F, ascii '1'), (0x50, ascii '2'), (0x51, ascii '3'), (0x52, ascii '0'), (0x53, ascii '.')]

/-- SOURCE: keyboard.rs:78-97 -/
def scancodeToAsciiShift : ℕ → UInt8 := table [
  (0x01, keyEsc),
  (0x02, ascii '!'), (0x03, ascii '@'), (0x04, ascii '#'), (0x05, ascii '$'), (0x06, ascii '%'),
  (0x07, ascii '^'), (0x08, ascii '&'), (0x09, ascii '*'), (0x0A, ascii '('), (0x0B, ascii ')'),
  (0x0C, ascii '_'), (0x0D, ascii '+'), (0x0E, keyBackspace), (0x0F, keyTab),
  (0x10, ascii 'Q'), (0x11, ascii 'W'), (0x12, ascii 'E'), (0x13, ascii 'R'), (0x14, ascii 'T'),
  (0x15, ascii 'Y'), (0x16, ascii 'U'), (0x17, ascii 'I'), (0x18, ascii 'O'), (0x19, ascii 'P'),
  (0x1A, 0x7B), (0x1B, 0x7D), (0x1C, keyEnter),
  (0x1E, ascii 'A'), (0x1F, ascii 'S'), (0x20, ascii 'D'), (0x21, ascii 'F'), (0x22, ascii 'G'),
  (0x23, ascii 'H'), (0x24, ascii 'J'), (0x25, ascii 'K'), (0x26, ascii 'L'),
  (0x27, ascii ':'), (0x28, 0x22), (0x29, ascii '~'),
  (0x2B, ascii '|'),
  (0x2C, ascii 'Z'), (0x2D, ascii 'X'), (0x2E, ascii 'C'), (0x2F, ascii 'V'), (0x30, ascii 'B'),
  (0x31, ascii 'N'), (0x32, ascii 'M'),
  (0x33, ascii '<'), (0x34, ascii '>'), (0x35, ascii '?'),
  (0x37, ascii '*'), (0x39, keySpace),
  (0x47, ascii '7'), (0x48, ascii '8'), (0x49, ascii '9'), (0x4A, ascii '-'),
  (0x4B, ascii '4'), (0x4C, ascii '5'), (0x4D, ascii '6'), (0x4E, ascii '+'),
  (0x4F, ascii '1'), (0x50, ascii '2'), (0x51, ascii '3'), (0x52, ascii '0'), (0x53, ascii '.')]

/-- SOURCE: keyboard.rs:99-107 -/
def extendedToKey : ℕ → UInt8 := table [
  (0x48, keyExtUp), (0x50, keyExtDown), (0x4B, keyExtLeft), (0x4D, keyExtRight),
  (0x47, keyExtHome), (0x4F, keyExtEnd), (0x49, keyExtPgup), (0x51, keyExtPgdn),
  (0x52, keyExtInsert), (0x53, keyExtDelete),
  (0x3B, keyExtF1), (0x3C, keyExtF2), (0x3D, keyExtF3), (0x3E, keyExtF4),
  (0x3F, keyExtF5), (0x40, keyExtF6), (0x41, keyExtF7), (0x42, keyExtF8),
  (0x43, keyExtF9), (0x44, keyExtF10), (0x57, keyExtF11), (0x5D, keyExtF12),
  (0x1D, keyNone), (0x38, keyNone), (0x5B, keyNone)]

/-- `SHIFT_HELD`, `CTRL_HELD`, `ALT_HELD`, `CAPS_LOCK` and `EXTENDED_PREFIX`. -/
structure Modifiers where
  shiftHeld : UInt8
  ctrlHeld : UInt8
  altHeld : UInt8
  capsLock : UInt8
  extendedPrefix : UInt8
deriving DecidableEq, Repr

def isAsciiLowercase (c : UInt8) : Bool := ascii 'a' ≤ c ∧ c ≤ ascii 'z'
def isAsciiUppercase (c : UInt8) : Bool := ascii 'A' ≤ c ∧ c ≤ ascii 'Z'

/-- SOURCE: keyboard.rs:129-142 -/
def applyCapsLock (capsLock c : UInt8) (isAlpha : Bool) : UInt8 :=
  if capsLock = 0 ∨ !isAlpha then c
  else if isAsciiLowercase c then c - 32
  else if isAsciiUppercase c then c + 32
  else c

/-- SOURCE: keyboard.rs:270-272 -/
def isAlphaCode (scancode : UInt8) : Bool :=
  0x10 ≤ scancode ∧ scancode ≤ 0x19 ∨ 0x1E ≤ scancode ∧ scancode ≤ 0x26 ∨
    0x2C ≤ scancode ∧ scancode ≤ 0x32

/-- SOURCE: keyboard.rs:290-296 -/
def applyCtrl (ctrlHeld c : UInt8) : UInt8 :=
  if ctrlHeld ≠ 0 then
    if isAsciiLowercase c then c - ascii 'a' + 1
    else if isAsciiUppercase c then c - ascii 'A' + 1
    else c
  else c

/-- A byte that is no prefix, no modifier and no release.
SOURCE: keyboard.rs:269-298 -/
def translateKey (m : Modifiers) (scancode : UInt8) : Option UInt8 :=
  let isShift := m.shiftHeld ≠ 0
  let isAlpha := isAlphaCode scancode
  let c := if isShift then scancodeToAsciiShift scancode.toNat else scancodeToAscii scancode.toNat
  if c = keyNone then none
  else
    let c := if isAlpha then applyCapsLock m.capsLock c true
      else if m.capsLock ≠ 0 ∧ isShift then applyCapsLock m.capsLock c false
      else c
    some (applyCtrl m.ctrlHeld c)

/-- What the handler makes of a byte: the modifiers after it, and the key it pushes.
SOURCE: keyboard.rs:212-299 -/
def translateScancode (m : Modifiers) (scancode : UInt8) : Modifiers × Option UInt8 :=
  if scancode = 0xE0 then ({ m with extendedPrefix := 1 }, none)
  else if m.extendedPrefix ≠ 0 then
    let m := { m with extendedPrefix := 0 }
    if scancode = 0x2A ∨ scancode = 0x36 then ({ m with shiftHeld := 0 }, none)
    else if scancode &&& 0x80 ≠ 0 then (m, none)
    else
      let key := extendedToKey scancode.toNat
      (m, if key ≠ keyNone then some key else none)
  else if scancode = 0x2A ∨ scancode = 0x36 then ({ m with shiftHeld := 1 }, none)
  else if scancode = 0x1D then ({ m with ctrlHeld := 1 }, none)
  else if scancode = 0x38 then ({ m with altHeld := 1 }, none)
  else if scancode = 0x3A then ({ m with capsLock := m.capsLock ^^^ 1 }, none)
  else if scancode &&& 0x80 ≠ 0 then
    let released := scancode &&& 0x7F
    (if released = 0x2A ∨ released = 0x36 then { m with shiftHeld := 0 }
      else if released = 0x1D then { m with ctrlHeld := 0 }
      else if released = 0x38 then { m with altHeld := 0 }
      else m, none)
  else if scancode ≥ 128 then (m, none)
  else (m, translateKey m scancode)

/-! ## The driver -/

/-- The statics of `keyboard.rs`; `KB_HEAD` and `KB_TAIL` are `u32`. -/
structure Keyboard where
  kbBuffer : Fin bufferSize → UInt8
  kbHead : ℕ
  kbTail : ℕ
  mods : Modifiers

/-- `(i + 1) % BUFFER_SIZE as u32`. -/
def nextIndex (i : ℕ) : Except Fault ℕ :=
  if i + 1 < 2 ^ 32 then .ok ((i + 1) % bufferSize) else .error .overflow

/-- An index of `KB_BUFFER`. -/
def bufferIndex (i : ℕ) : Except Fault (Fin bufferSize) :=
  if h : i < bufferSize then .ok ⟨i, h⟩ else .error .outOfBounds

namespace Keyboard

/-- What `init` makes of the statics; the rest of it programs the controller.
SOURCE: keyboard.rs:198-206 -/
def init (k : Keyboard) : Keyboard :=
  { k with kbHead := 0, kbTail := 0, mods := ⟨0, 0, 0, 0, 0⟩ }

/-- SOURCE: keyboard.rs:119-127 -/
def bufferPush (k : Keyboard) (key : UInt8) : Except Fault Keyboard := do
  let next ← nextIndex k.kbHead
  if next ≠ k.kbTail then
    let slot ← bufferIndex k.kbHead
    return { k with kbBuffer := Function.update k.kbBuffer slot key, kbHead := next }
  else return k

/-- SOURCE: keyboard.rs:209-300 -/
def irq (k : Keyboard) (scancode : UInt8) : Except Fault Keyboard :=
  let (mods, key) := translateScancode k.mods scancode
  let k := { k with mods := mods }
  match key with
  | some key => k.bufferPush key
  | none => .ok k

/-- SOURCE: keyboard.rs:302-311 -/
def input (k : Keyboard) : Except Fault (UInt8 × Keyboard) := do
  if k.kbHead = k.kbTail then return (keyNone, k)
  else
    let slot ← bufferIndex k.kbTail
    let next ← nextIndex k.kbTail
    return (k.kbBuffer slot, { k with kbTail := next })

/-- SOURCE: keyboard.rs:313-315 -/
def hasInput (k : Keyboard) : Bool := k.kbHead ≠ k.kbTail

/-- The loop of `sys_event_read` with room for `max` more events: the codes it writes.
SOURCE: syscall.rs:292-306 -/
def readEvents : ℕ → Keyboard → Except Fault (List UInt8 × Keyboard)
  | 0, k => .ok ([], k)
  | max + 1, k =>
    if k.hasInput then do
      let (code, k) ← k.input
      if code = keyNone then return ([], k)
      else
        let (codes, k) ← readEvents max k
        return (code :: codes, k)
    else .ok ([], k)

end Keyboard

/-- `size_of::<PinxEvent>()`. -/
def pinxEventSize : ℕ := 16

/-- `Err(())` is `none`; otherwise the codes of the events written to the buffer, of which the
call returns the number.
SOURCE: syscall.rs:280-308 -/
def sysEventRead (m : Machine) (buffer maxEvents : ℕ) (k : Keyboard) :
    Except Fault (Option (List UInt8) × Keyboard) := do
  if maxEvents = 0 then return (some [], k)
  -- `checked_mul` fails
  else if maxEvents * pinxEventSize ≥ 2 ^ 64 then return (none, k)
  else if ← userRangeValid m buffer (maxEvents * pinxEventSize) then
    let (codes, k) ← k.readEvents maxEvents
    return (some codes, k)
  else return (none, k)

end Pinx.Model
