import Pinx.Foundation.Fault
import Pinx.Foundation.WordBitmap
import Pinx.Model.Heap

/-!
# The physical frame allocator

`mm.rs` keeps one bit per 4 KiB frame, set while the frame is in use, in a bitmap
that `pmm_init` carves out of the largest usable region.  The bitmap is the list
of its `BITMAP_ENTRIES` words; touching a word outside it is a fault of its own,
so that staying inside is something to prove.

Page counts are below `2 ^ 52` because addresses are below `2 ^ 64`, so only the
sums the source forms from entries and cursors can overflow.
-/

namespace Pinx.Model

open Pinx.Foundation

/-- One entry of the bootloader's memory map.
SOURCE: limine.rs:85-89 -/
structure MemmapEntry where
  base : ℕ
  length : ℕ
  type : ℕ
deriving DecidableEq, Repr

/-- SOURCE: limine.rs:81 -/
def memmapUsable : ℕ := 0

/-- Returned by `pmm_alloc_page` when the bitmap is exhausted.
SOURCE: mm.rs:23 -/
def pmmNoPage : ℕ := 2 ^ 64 - 1

/-- `BITMAP` (by its physical address and its words), `BITMAP_ENTRIES` and
`ALLOC_HINT`. -/
structure Pmm where
  bitmapPhysical : ℕ
  entries : ℕ
  words : List (BitVec 64)
  hint : ℕ
deriving DecidableEq, Repr

/-- `u64` addition in a checked build. -/
def addU64 (a b : ℕ) : Except Fault ℕ :=
  if a + b < 2 ^ 64 then .ok (a + b) else .error .overflow

/-- The running maxima of the first pass over the memory map. -/
structure MemmapScan where
  highest : ℕ
  largestBase : ℕ
  largestLen : ℕ

/-- One usable entry, whose end is `stop`, in the first pass.
SOURCE: mm.rs:127-134 -/
def MemmapScan.record (acc : MemmapScan) (e : MemmapEntry) (stop : ℕ) : MemmapScan where
  largestLen := if e.length > acc.largestLen then e.length else acc.largestLen
  largestBase := if e.length > acc.largestLen then e.base else acc.largestBase
  highest := if stop > acc.highest then stop else acc.highest

/-- SOURCE: mm.rs:117-135 -/
def scanMemmap : List (Option MemmapEntry) → MemmapScan → Except Fault MemmapScan
  | [], acc => .ok acc
  | none :: es, acc => scanMemmap es acc
  | some e :: es, acc =>
    if e.type ≠ memmapUsable then scanMemmap es acc
    else do
      let stop ← addU64 e.base e.length
      scanMemmap es (acc.record e stop)

/-- `*bitmap.add(page / 64) &= !(1 << (page % 64))`. -/
def clearPage (words : List (BitVec 64)) (page : ℕ) : Except Fault (List (BitVec 64)) :=
  if page / 64 < words.length then .ok (WordBitmap.clear words page) else .error .outOfBounds

/-- `*bitmap.add(page / 64) |= 1 << (page % 64)`. -/
def markPage (words : List (BitVec 64)) (page : ℕ) : Except Fault (List (BitVec 64)) :=
  if page / 64 < words.length then .ok (WordBitmap.mark words page) else .error .outOfBounds

/-- One bitmap update for each of the pages `start, .., start + n - 1`, in order. -/
def forPages (update : List (BitVec 64) → ℕ → Except Fault (List (BitVec 64)))
    (start : ℕ) : ℕ → List (BitVec 64) → Except Fault (List (BitVec 64))
  | 0, words => .ok words
  | n + 1, words => do
    let words ← forPages update start n words
    update words (start + n)

/-- Free every page the memory map calls usable.
SOURCE: mm.rs:166-183 -/
def freeUsable : List (Option MemmapEntry) → List (BitVec 64) → Except Fault (List (BitVec 64))
  | [], words => .ok words
  | none :: es, words => freeUsable es words
  | some e :: es, words =>
    if e.type ≠ memmapUsable then freeUsable es words
    else do
      let words ← forPages clearPage (e.base / pageSize) (e.length / pageSize) words
      freeUsable es words

/-- How many frames a bitmap of `entries` words occupies.
SOURCE: mm.rs:142-143 -/
def bitmapPages (entries : ℕ) : ℕ := (entries * 8 + pageSize - 1) / pageSize

/-- `memmap` and `hhdm` are the bootloader's responses; a null response is `none`,
as is a null entry of the map.
SOURCE: mm.rs:102-190 -/
def pmmInit (memmap : Option (List (Option MemmapEntry))) (hhdm : Option ℕ) : Except Fault Pmm :=
  match memmap with
  | none => .error (.panic "Limine returned no memmap response")
  | some map =>
    match hhdm with
    | none => .error (.panic "Limine returned no HHDM response")
    | some hhdm => do
      let acc ← scanMemmap map ⟨0, 0, 0⟩
      if acc.largestLen = 0 then
        throw (.panic "memmap reports no usable memory")
      let totalPages := acc.highest / pageSize
      let entries := (totalPages + 63) / 64
      let pages := bitmapPages entries
      -- clamping here would let the allocator index past its own end
      if pages > acc.largestLen / pageSize then
        throw (.panic "pmm: largest usable region cannot hold the page bitmap")
      let top ← addU64 acc.largestBase acc.largestLen
      let physical := (top - pages * pageSize) / pageSize * pageSize
      let _ ← addU64 physical hhdm
      let words := List.replicate entries (BitVec.allOnes 64)
      let words ← freeUsable map words
      let words ← forPages markPage (physical / pageSize) pages words
      return ⟨physical, entries, words, 0⟩

/-- The wrapped scan of `pmm_alloc_page`, `n` words from offset `scanned` on: the
first word with a clear bit and its lowest clear bit.
SOURCE: mm.rs:202-218 -/
def pmmScan (p : Pmm) : ℕ → ℕ → Except Fault (Option (ℕ × ℕ))
  | 0, _ => .ok none
  | n + 1, scanned => do
    let cursor ← addU64 p.hint scanned
    let index := cursor % p.entries
    match p.words[index]? with
    | none => throw .outOfBounds
    | some word =>
      if word = BitVec.allOnes 64 then pmmScan p n (scanned + 1)
      else
        match WordBitmap.lowestClear word with
        | some bit => return some (index, bit)
        | none => pmmScan p n (scanned + 1)

/-- SOURCE: mm.rs:192-223 -/
def pmmAllocPage (p : Pmm) : Except Fault (ℕ × Pmm) :=
  if p.entries ≠ 0 then do
    match ← pmmScan p p.entries 0 with
    | some (index, bit) =>
      let words ← markPage p.words (index * 64 + bit)
      -- the cursor is a page number reduced modulo the number of words
      return ((index * 64 + bit) * pageSize,
        { p with words := words, hint := (index * 64 + bit + 1) % p.entries })
    | none => return (pmmNoPage, p)
  else .ok (pmmNoPage, p)

/-- SOURCE: mm.rs:225-248 -/
def pmmFreePage (p : Pmm) (page : ℕ) : Except Fault Pmm :=
  if page % pageSize ≠ 0 then .error (.panic "pmm_free_page: address is not page aligned")
  else
    let pageNumber := page / pageSize
    if pageNumber / 64 ≥ p.entries then
      .error (.panic "pmm_free_page: frame is outside the bitmap")
    else do
      let words ← clearPage p.words pageNumber
      return { p with
        words := words, hint := if pageNumber / 64 < p.hint then pageNumber / 64 else p.hint }

end Pinx.Model
