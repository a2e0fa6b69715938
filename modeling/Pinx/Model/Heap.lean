import Pinx.Foundation.Fault
import Mathlib.Algebra.Group.Nat.Defs
import Mathlib.Data.Nat.Notation
import Mathlib.Logic.Function.Basic

/-!
# The kernel heap

`mm.rs` keeps the heap as a singly linked list of `HeapBlock` headers inside the
window that starts at `KHEAP_START`.  The memory of the window is a map from
addresses to 8-byte words; a header occupies the four words at its address:

```text
+0   size      payload bytes behind the header
+8   next      address of the next header, 0 for null
+16  free      0 while the payload is handed out
+24  reserved
```

The list is reached only through these words, so a loop over it need not end on
an arbitrary memory: every loop below takes the number of turns it may make.
Sums of sizes stay below the window's size, so `u64` arithmetic is the
arithmetic of `ℕ`.
-/

namespace Pinx.Model

open Pinx.Foundation

/-- SOURCE: mm.rs:18 -/
def pageSize : ℕ := 4096

/-- SOURCE: mm.rs:25 -/
def kheapStart : ℕ := 0xFFFF900000000000

/-- `size_of::<HeapBlock>()`.
SOURCE: mm.rs:61 -/
def heapBlockSize : ℕ := 32

/-- SOURCE: mm.rs:62 -/
def heapAlign : ℕ := 16

/-- Memory as 8-byte words at their addresses. -/
abbrev Words := ℕ → ℕ

/-- `HEAP_HEAD` and the memory the headers live in. -/
structure Heap where
  head : ℕ
  mem : Words

namespace Words

/-- The `size` field of the header at `a`. -/
def size (m : Words) (a : ℕ) : ℕ := m a

/-- The `next` field of the header at `a`. -/
def next (m : Words) (a : ℕ) : ℕ := m (a + 8)

/-- The `free` field of the header at `a`. -/
def free (m : Words) (a : ℕ) : ℕ := m (a + 16)

/-- Store one word. -/
def store (m : Words) (a v : ℕ) : Words := Function.update m a v

end Words

/-- Pages `1, 2, ..` of the heap window are mapped until the frame allocator has
none left; `avail i` says whether it has one for page `i`.
SOURCE: mm.rs:525-539 -/
def kheapMapped (avail : ℕ → Bool) : ℕ → ℕ → ℕ
  | 0, mapped => mapped
  | n + 1, mapped => if avail mapped then kheapMapped avail n (mapped + 1) else mapped

/-- The single free block `kheap_init` leaves behind once `mapped` pages are in
place.
SOURCE: mm.rs:513-545 -/
def kheapFormat (m : Words) (mapped : ℕ) : Heap :=
  let heapStart := kheapStart
  let m := m.store heapStart 0
  let m := m.store (heapStart + 16) 0
  let m := m.store (heapStart + 8) 0
  let m := m.store (heapStart + 24) 0
  let m := m.store heapStart (mapped * pageSize - heapBlockSize)
  let m := m.store (heapStart + 16) 1
  let m := m.store (heapStart + 8) 0
  ⟨heapStart, m⟩

/-- SOURCE: mm.rs:500-548 -/
def kheapInit (avail : ℕ → Bool) (m : Words) : Except Fault Heap :=
  let heapPages := 2048
  if avail 0 then
    .ok (kheapFormat m (kheapMapped avail (heapPages - 1) 1))
  else
    .error (.panic "kheap_init: out of memory for the first kernel heap page")

/-- Round a request up to the alignment.
SOURCE: mm.rs:561 -/
def roundUp16 (size : ℕ) : ℕ := (size + (heapAlign - 1)) / heapAlign * heapAlign

/-- The scan of `kmalloc`: the first free block that is large enough is split when
more than a header is left over, and handed out.
SOURCE: mm.rs:565-595 -/
def kmallocScan (size : ℕ) : ℕ → Words → ℕ → Except Fault (ℕ × Words)
  | 0, _, _ => .error .outOfFuel
  | fuel + 1, m, current =>
    if current = 0 then .ok (0, m)
    else if m.free current ≠ 0 ∧ m.size current ≥ size then
      if m.size current > size + heapBlockSize then
        let split := current + heapBlockSize + size
        let m := m.store (split + 16) 1
        let m := m.store (split + 8) (m.next current)
        let m := m.store split (m.size current - size - heapBlockSize)
        let m := m.store (split + 24) 0
        let m := m.store current size
        let m := m.store (current + 8) split
        .ok (current + heapBlockSize, m.store (current + 16) 0)
      else .ok (current + heapBlockSize, m.store (current + 16) 0)
    else kmallocScan size fuel m (m.next current)

/-- `kmalloc`; the null pointer is 0.
SOURCE: mm.rs:550-596 -/
def kmalloc (fuel : ℕ) (h : Heap) (size : ℕ) : Except Fault (ℕ × Heap) :=
  if size = 0 ∨ size > 2 ^ 64 - 1 - (heapAlign - 1) then .ok (0, h)
  else if h.head = 0 then .error (.panic "kmalloc: kheap_init was not called")
  else do
    let (p, m) ← kmallocScan (roundUp16 size) fuel h.mem h.head
    .ok (p, { h with mem := m })

/-- SOURCE: mm.rs:598-620 -/
def coalesce : ℕ → Words → ℕ → Except Fault Words
  | 0, _, _ => .error .outOfFuel
  | fuel + 1, m, current =>
    if current = 0 then .ok m
    else
      let next := m.next current
      if next = 0 then .ok m
      else if m.free current ≠ 0 ∧ m.free next ≠ 0 ∧
          current + heapBlockSize + m.size current = next then
        -- the merged block is looked at again: `continue` without advancing
        let m := m.store current (m.size current + (heapBlockSize + m.size next))
        let m := m.store (current + 8) (m.next next)
        coalesce fuel m current
      else coalesce fuel m next

/-- SOURCE: mm.rs:622-642 -/
def kfree (fuel : ℕ) (h : Heap) (ptr : ℕ) : Except Fault Heap :=
  if ptr = 0 then .ok h
  else
    let block := ptr - heapBlockSize
    if h.mem.free block ≠ 0 then .ok h
    else do
      let m ← coalesce fuel (h.mem.store (block + 16) 1) h.head
      .ok { h with mem := m }

end Pinx.Model
