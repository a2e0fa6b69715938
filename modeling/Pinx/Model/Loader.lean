import Pinx.Model.Vmm

/-!
# The program loader

`user.rs` parses an x86-64 ELF image and maps its `PT_LOAD` segments for ring 3.
Before that `find_header` looks for the tag that says for which ABI it was built.
Reading the headers touches no state: `elfHeader` and `segmentAt` decide from the
image alone what `load_elf` does next, and only `map_segment` changes the machine.

A slice index past the end of the image panics, and so do the sums of the header
loop when they overflow.
-/

namespace Pinx.Model

open Pinx.Foundation

/-- SOURCE: user.rs:19-21 -/
def ptLoad : ℕ := 1
def etExec : ℕ := 2
def emX8664 : ℕ := 0x3E

/-- The bytes of an image, past the end of which nothing is read. -/
def imageBytes (image : List UInt8) : Bytes := fun k => image.getD k 0

/-- `read_u16`, `read_u32` and `read_u64` for 2, 4 and 8 bytes.
SOURCE: user.rs:338-355 -/
def readImage (image : List UInt8) (offset n : ℕ) : Except Fault ℕ :=
  if offset + n ≤ image.length then .ok ((imageBytes image).getLE offset n)
  else .error .outOfBounds

/-- `image[offset..offset + n]`. -/
def sliceImage (image : List UInt8) (offset n : ℕ) : Except Fault (List UInt8) :=
  if offset + n ≤ image.length then .ok ((imageBytes image).slice offset n)
  else .error .outOfBounds

/-- `size_of::<PinxProgramHeader>()`: twelve bytes of magic and the version.
SOURCE: pinx_abi.rs:70-77 -/
def programHeaderSize : ℕ := 16

/-- The scan of `find_header` with `n` offsets left from `i` on.  The first match of the magic
decides.
SOURCE: user.rs:187-203 -/
def scanHeader (image : List UInt8) (magic : Vector UInt8 12) (version : UInt32) :
    ℕ → ℕ → Except Fault Bool
  | 0, _ => .ok false
  | n + 1, i => do
    if (← sliceImage image i 12) = magic.toList then
      let found ← readImage image (i + 12) 4
      return found = version.toNat
    else scanHeader image magic version n (i + 1)

/-- SOURCE: user.rs:180-204 -/
def findHeader (image : List UInt8) (magic : Vector UInt8 12) (version : UInt32) :
    Except Fault Bool :=
  if image.length < programHeaderSize then .ok false
  else scanHeader image magic version (image.length - programHeaderSize + 1) 0

/-- What `load_elf` needs of the ELF header. -/
structure ElfHeader where
  entry : ℕ
  phoff : ℕ
  phentsize : ℕ
  phnum : ℕ
deriving DecidableEq, Repr

/-- The checks on the ELF header; `none` where `load_elf` gives up.
SOURCE: user.rs:209-228 -/
def elfHeader (image : List UInt8) : Except Fault (Option ElfHeader) := do
  if image.length < 64 then return none
  if image.take 4 ≠ [0x7F, 0x45, 0x4C, 0x46] ∨ image.getD 4 0 ≠ 2 ∨ image.getD 5 0 ≠ 1 then
    return none
  let type ← readImage image 16 2
  let machine ← readImage image 18 2
  if type ≠ etExec ∨ machine ≠ emX8664 then return none
  let entry ← readImage image 24 8
  let phoff ← readImage image 32 8
  let phentsize ← readImage image 54 2
  let phnum ← readImage image 56 2
  if phentsize < 56 then return none
  return some ⟨entry, phoff, phentsize, phnum⟩

/-- A segment `load_elf` passes to `map_segment`. -/
structure Segment where
  offset : ℕ
  vaddr : ℕ
  filesz : ℕ
  memsz : ℕ
deriving DecidableEq, Repr

/-- What `load_elf` does with one program header. -/
inductive HeaderAction where
  | giveUp
  | skip
  | map (seg : Segment)
deriving DecidableEq, Repr

/-- The checks on program header `i`.
SOURCE: user.rs:231-252 -/
def segmentAt (image : List UInt8) (h : ElfHeader) (i : ℕ) : Except Fault HeaderAction := do
  let ph ← addU64 h.phoff (i * h.phentsize)
  let stop ← addU64 ph 56
  if stop > image.length then return .giveUp
  let type ← readImage image ph 4
  if type ≠ ptLoad then return .skip
  let offset ← readImage image (ph + 8) 8
  let vaddr ← readImage image (ph + 16) 8
  let filesz ← readImage image (ph + 32) 8
  let memsz ← readImage image (ph + 40) 8
  if filesz > memsz then return .giveUp
  -- `checked_add` fails, or the file part leaves the image
  if offset + filesz ≥ 2 ^ 64 ∨ offset + filesz > image.length then return .giveUp
  if memsz = 0 then return .skip
  return .map ⟨offset, vaddr, filesz, memsz⟩

/-- The first page of a segment.
SOURCE: user.rs:270 -/
def Segment.firstPage (seg : Segment) : ℕ := seg.vaddr / pageSize * pageSize

/-- How often the page loop of `map_segment` runs.
SOURCE: user.rs:271, 307 -/
def Segment.pages (seg : Segment) : ℕ :=
  (seg.vaddr + seg.memsz - seg.firstPage + (pageSize - 1)) / pageSize

/-- The frame behind a page, mapped now if there is none; `none` when out of memory.
SOURCE: user.rs:277-288 -/
def pageFrame (page : ℕ) : Kernel (Option ℕ) := do
  let frame ← Prog.read fun m => vmmVirtToPhys m page
  if frame = vmmNoPhys then
    let frame ← allocPage
    if frame = pmmNoPage then return none
    else do
      zeroFrame frame
      vmmMapUserPage page frame
      return some frame
  else return some frame

/-- The part of the page that the file provides.
SOURCE: user.rs:293-305 -/
def copyPage (image : List UInt8) (seg : Segment) (page frame : ℕ) : Kernel Unit := do
  let pageEnd ← Prog.lift (addU64 page pageSize)
  let copyStart := max page seg.vaddr
  let copyEnd := min pageEnd (seg.vaddr + seg.filesz)
  if copyStart < copyEnd then
    Prog.modify fun m => { m with
      mem := m.mem.blit (frame + (copyStart - page)) (copyEnd - copyStart)
        fun k => imageBytes image (seg.offset + (copyStart - seg.vaddr) + k) }
  else pure ()

/-- The page loop, with `n` pages left from `page` on.
SOURCE: user.rs:271-308 -/
def mapPages (image : List UInt8) (seg : Segment) : ℕ → ℕ → Kernel Bool
  | 0, _ => pure true
  | n + 1, page => do
    match ← pageFrame page with
    | none => return false
    | some frame =>
      copyPage image seg page frame
      mapPages image seg n (page + pageSize)

/-- SOURCE: user.rs:263-311 -/
def mapSegment (image : List UInt8) (seg : Segment) : Kernel Bool :=
  if seg.vaddr + seg.memsz < 2 ^ 64 then mapPages image seg seg.pages seg.firstPage
  else pure false

/-- The header loop, with `n` headers left from header `i` on.
SOURCE: user.rs:230-258 -/
def loadSegments (image : List UInt8) (h : ElfHeader) : ℕ → ℕ → Kernel (Option ℕ)
  | 0, _ => pure (some h.entry)
  | n + 1, i => do
    match ← Prog.lift (segmentAt image h i) with
    | .giveUp => return none
    | .skip => loadSegments image h n (i + 1)
    | .map seg =>
      if ← mapSegment image seg then loadSegments image h n (i + 1) else return none

/-- SOURCE: user.rs:208-259 -/
def loadElf (image : List UInt8) : Kernel (Option ℕ) := do
  match ← Prog.lift (elfHeader image) with
  | none => return none
  | some h => loadSegments image h h.phnum 0

end Pinx.Model
