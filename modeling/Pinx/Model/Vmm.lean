import Pinx.Foundation.Bytes
import Pinx.Foundation.Prog
import Pinx.Model.Pmm

/-!
# The page tables

`mm.rs` walks and builds four-level page tables.  A table is one 4 KiB frame of
512 little-endian words; the HHDM is a window onto all of physical memory, so a
table is reached by its physical address.  `virtual_address >> k & 0x1FF` is
`va / 2 ^ k % 512`.

The three interior levels are one routine, `ensureTable`, with the panic texts of
each level.  Flushing the TLB has no effect on memory.
-/

namespace Pinx.Model

open Pinx.Foundation

/-- Physical memory, the frame allocator and `PML4` (its physical address, `none`
while `vmm_init` was not called). -/
structure Machine where
  mem : Bytes
  pmm : Pmm
  pml4 : Option ℕ

/-- A table has an entry 0. -/
instance neZero_entries : NeZero 512 := ⟨by simp⟩

/-- Code of the kernel: it may panic, and leaves memory as it was then. -/
abbrev Kernel := Prog Machine Fault

/-- SOURCE: mm.rs:29-39 -/
def ptePresent : ℕ := 1
def pteWritable : ℕ := 2
def pteUser : ℕ := 4
def ptePwt : ℕ := 8
def ptePcd : ℕ := 16
def pteHuge : ℕ := 0x80
def pteAddrMask : ℕ := 0x000FFFFFFFFFF000
def pteAddrMask1G : ℕ := 0x000FFFFFC0000000
def pteAddrMask2M : ℕ := 0x000FFFFFFFE00000

/-- Returned by `vmm_virt_to_phys` when the address is not mapped.
SOURCE: mm.rs:21 -/
def vmmNoPhys : ℕ := 2 ^ 64 - 1

def pml4Index (va : ℕ) : ℕ := va / 2 ^ 39 % 512
def pdptIndex (va : ℕ) : ℕ := va / 2 ^ 30 % 512
def pdIndex (va : ℕ) : ℕ := va / 2 ^ 21 % 512
def ptIndex (va : ℕ) : ℕ := va / 2 ^ 12 % 512

/-- `*table.add(index)`. -/
def entryAt (mem : Bytes) (table index : ℕ) : ℕ := mem.getLE (table + 8 * index) 8

def readEntry (table index : ℕ) : Kernel ℕ := Prog.read fun m => entryAt m.mem table index

def writeEntry (table index value : ℕ) : Kernel Unit :=
  Prog.modify fun m => { m with mem := m.mem.putLE (table + 8 * index) 8 value }

/-- `write_bytes(phys_to_ptr(page), 0, 512)`. -/
def zeroFrame (page : ℕ) : Kernel Unit :=
  Prog.modify fun m => { m with mem := m.mem.blit page pageSize fun _ => 0 }

/-- `pmm_alloc_page` on the machine's allocator. -/
def allocPage : Kernel ℕ := fun m =>
  match pmmAllocPage m.pmm with
  | .ok (page, pmm) => (.ok page, { m with pmm := pmm })
  | .error e => (.error e, m)

/-- One interior level of `vmm_map_page_flags`: allocate a table if the entry has none,
and open the entry to ring 3 for a user mapping.
SOURCE: mm.rs:299-314, 318-333, 337-352 -/
def ensureEntry (hugeText oomText : String) (flags table index : ℕ) : Kernel Unit := do
  let tableFlags := ptePresent ||| pteWritable ||| (flags &&& pteUser)
  let entry ← readEntry table index
  if entry &&& ptePresent ≠ 0 then
    if entry &&& pteHuge ≠ 0 then
      Prog.fail (.panic hugeText)
    else if flags &&& pteUser ≠ 0 then
      writeEntry table index (entry ||| pteUser)
    else pure ()
  else
    let newPage ← allocPage
    if newPage = pmmNoPage then
      Prog.fail (.panic oomText)
    else do
      writeEntry table index (newPage ||| tableFlags)
      zeroFrame newPage

/-- The table behind an entry, read back once the entry is there.
SOURCE: mm.rs:299-316, 318-335, 337-354 -/
def ensureTable (hugeText oomText : String) (flags table index : ℕ) : Kernel ℕ := do
  ensureEntry hugeText oomText flags table index
  let entry ← readEntry table index
  return entry &&& pteAddrMask

/-- The three interior levels of `vmm_map_page_flags`, down to the page table.
SOURCE: mm.rs:298-354 -/
def ensurePath (flags pml4 va : ℕ) : Kernel ℕ := do
  let pdpt ← ensureTable "vmm_map_page: PML4 entry covers 512GiB, split it first"
    "vmm_map_page: out of memory allocating a PML4 entry" flags pml4 (pml4Index va)
  let pd ← ensureTable "vmm_map_page: PDPT entry covers 1GiB, split it first"
    "vmm_map_page: out of memory allocating a PDPT entry" flags pdpt (pdptIndex va)
  ensureTable "vmm_map_page: PD entry covers 2MiB, split it first"
    "vmm_map_page: out of memory allocating a PD entry" flags pd (pdIndex va)

/-- SOURCE: mm.rs:276-360 -/
def vmmMapPageFlags (va physical flags : ℕ) : Kernel Unit := do
  match ← Prog.read Machine.pml4 with
  | none => Prog.fail (.panic "vmm_map_page: vmm_init was not called")
  | some pml4 =>
    if va % pageSize ≠ 0 ∨ physical % pageSize ≠ 0 then
      Prog.fail (.panic "vmm_map_page: address is not page aligned")
    else
      let pt ← ensurePath flags pml4 va
      writeEntry pt (ptIndex va) ((physical &&& pteAddrMask) ||| ptePresent ||| flags)

/-- SOURCE: mm.rs:362-364 -/
def vmmMapPage (va physical : ℕ) : Kernel Unit :=
  vmmMapPageFlags va physical (ptePresent ||| pteWritable)

/-- SOURCE: mm.rs:368-374 -/
def vmmMapUserPage (va physical : ℕ) : Kernel Unit :=
  vmmMapPageFlags va physical (ptePresent ||| pteWritable ||| pteUser)

/-- SOURCE: mm.rs:378-380 -/
def vmmMapUserPageFlags (va physical flags : ℕ) : Kernel Unit :=
  vmmMapPageFlags va physical (flags ||| pteUser)

/-- SOURCE: mm.rs:384-390 -/
def vmmMapUserMmio (va physical : ℕ) : Kernel Unit :=
  vmmMapPageFlags va physical (ptePresent ||| pteWritable ||| ptePwt ||| ptePcd ||| pteUser)

/-- SOURCE: mm.rs:392-399 -/
def vmmMapMmio (va physical : ℕ) : Kernel Unit :=
  vmmMapPageFlags va physical (ptePresent ||| pteWritable ||| ptePwt ||| ptePcd)

/-- One interior level of `vmm_unmap_page`: the table behind an entry, if there is one.
SOURCE: mm.rs:414-421, 423-430, 432-439 -/
def findTable (hugeText : String) (table index : ℕ) : Kernel (Option ℕ) := do
  let entry ← readEntry table index
  if entry &&& ptePresent = 0 then return none
  else if entry &&& pteHuge ≠ 0 then Prog.fail (.panic hugeText)
  else return some (entry &&& pteAddrMask)

/-- SOURCE: mm.rs:401-450 -/
def vmmUnmapPage (va : ℕ) : Kernel Unit := do
  match ← Prog.read Machine.pml4 with
  | none => Prog.fail (.panic "vmm_unmap_page: vmm_init was not called")
  | some pml4 =>
    match ← findTable "vmm_unmap_page: PML4 entry covers 512GiB, not a page table"
      pml4 (pml4Index va) with
    | none => return ()
    | some pdpt =>
      match ← findTable "vmm_unmap_page: PDPT entry covers 1GiB, not a page table"
        pdpt (pdptIndex va) with
      | none => return ()
      | some pd =>
        match ← findTable "vmm_unmap_page: PD entry covers 2MiB, not a page table"
          pd (pdIndex va) with
        | none => return ()
        | some pt =>
          let entry ← readEntry pt (ptIndex va)
          if entry &&& ptePresent = 0 then return ()
          else writeEntry pt (ptIndex va) 0

/-- Any address, not just a page-aligned one.
SOURCE: mm.rs:455-496 -/
def vmmVirtToPhys (m : Machine) (va : ℕ) : ℕ :=
  match m.pml4 with
  | none => vmmNoPhys
  | some pml4 =>
    let offset := va % pageSize
    let addr := va / pageSize * pageSize
    let e4 := entryAt m.mem pml4 (pml4Index addr)
    if e4 &&& ptePresent = 0 ∨ e4 &&& pteHuge ≠ 0 then vmmNoPhys
    else
      let e3 := entryAt m.mem (e4 &&& pteAddrMask) (pdptIndex addr)
      if e3 &&& ptePresent = 0 then vmmNoPhys
      else if e3 &&& pteHuge ≠ 0 then (e3 &&& pteAddrMask1G) ||| (addr % 2 ^ 30) ||| offset
      else
        let e2 := entryAt m.mem (e3 &&& pteAddrMask) (pdIndex addr)
        if e2 &&& ptePresent = 0 then vmmNoPhys
        else if e2 &&& pteHuge ≠ 0 then (e2 &&& pteAddrMask2M) ||| (addr % 2 ^ 21) ||| offset
        else
          let e1 := entryAt m.mem (e2 &&& pteAddrMask) (ptIndex addr)
          if e1 &&& ptePresent = 0 then vmmNoPhys
          else (e1 &&& pteAddrMask) ||| offset

end Pinx.Model
