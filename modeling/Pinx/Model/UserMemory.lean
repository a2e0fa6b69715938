import Pinx.Model.Vmm

/-!
# Memory of user programs

`syscall.rs` checks the pointers a program passes and hands out anonymous memory
from `MMAP_BASE` upwards; `user.rs` hands out stacks from `USER_STACK_TOP`
downwards.  All programs share one address space.

`MMAP_LOCK` makes a call of `sys_mmap` one step.  The sums `base + page * PAGE_SIZE`
of its loop stay below `end`, which is at most `USER_ADDRESS_MAX`, so only the
additions below that can overflow are checked.
-/

namespace Pinx.Model

open Pinx.Foundation

/-- The split between user and kernel addresses.
SOURCE: syscall.rs:29 -/
def userAddressMax : ℕ := 0x0000_8000_0000_0000

/-- SOURCE: syscall.rs:33 -/
def einval : ℕ := 2 ^ 64 - 1

/-- The page loop of `user_range_valid`, from `page` on.
SOURCE: syscall.rs:322-328 -/
def pagesMapped (m : Machine) (stop page : ℕ) : Except Fault Bool :=
  if page < stop then
    if vmmVirtToPhys m page = vmmNoPhys then .ok false
    else if page + pageSize < 2 ^ 64 then pagesMapped m stop (page + pageSize)
    else .error .overflow
  else .ok true
termination_by stop - page
decreasing_by
  simp only [pageSize]
  omega

/-- SOURCE: syscall.rs:313-331 -/
def userRangeValid (m : Machine) (address length : ℕ) : Except Fault Bool :=
  -- `checked_add` fails
  if address + length ≥ 2 ^ 64 then .ok false
  else if address = 0 ∨ address + length > userAddressMax then .ok false
  else pagesMapped m (address + length) (address / pageSize * pageSize)

/-- The machine, `MMAP_NEXT` and `NEXT_STACK`. -/
structure UserSpace where
  machine : Machine
  mmapNext : ℕ
  nextStack : ℕ

/-- SOURCE: syscall.rs:156 -/
def mmapBase : ℕ := 0x0000_6000_0000_0000

/-- SOURCE: user.rs:31-34 -/
def userStackTop : ℕ := 0x0000_7FFF_0000_0000
def userStackPages : ℕ := 16
def userStackSpan : ℕ := (userStackPages + 2) * pageSize

/-- Kernel code on the machine of the address space. -/
def UserSpace.on {α : Type} (k : Kernel α) : Prog UserSpace Fault α := fun s =>
  let (r, machine) := k s.machine
  (r, { s with machine })

/-- A fresh zeroed frame behind `page`; `false` when out of memory.
SOURCE: syscall.rs:188-201, user.rs:322-332 -/
def mapZeroed (page : ℕ) : Kernel Bool := do
  let frame ← allocPage
  if frame = pmmNoPage then return false
  else do
    zeroFrame frame
    vmmMapUserPage page frame
    return true

/-- The page loop of `sys_mmap`, with `n` pages left from page `page` on.
SOURCE: syscall.rs:186-202 -/
def mmapPages (base : ℕ) : ℕ → ℕ → Kernel Bool
  | 0, _ => pure true
  | n + 1, page => do
    if ← mapZeroed (base + page * pageSize) then mmapPages base n (page + 1) else return false

/-- How many pages `sys_mmap` hands out.
SOURCE: syscall.rs:173 -/
def mmapCount (size : ℕ) : ℕ := (size + pageSize - 1) / pageSize

/-- SOURCE: syscall.rs:167-205 -/
def sysMmap (size : ℕ) : Prog UserSpace Fault ℕ := do
  if size = 0 ∨ size > 2 ^ 40 then return einval
  else do
    let length := mmapCount size * pageSize
    let base ← Prog.read UserSpace.mmapNext
    -- `checked_add` fails, or the region leaves user space
    if base + length ≥ 2 ^ 64 ∨ base + length > userAddressMax then return einval
    else do
      Prog.modify fun s => { s with mmapNext := base + length }
      if ← UserSpace.on (mmapPages base (mmapCount size) 0) then return base else return einval

/-- The page loop of `map_user_stack`, with `n` pages left from page `i` on.
SOURCE: user.rs:321-333 -/
def stackPages (top : ℕ) : ℕ → ℕ → Kernel Unit
  | 0, _ => pure ()
  | n + 1, i => do
    if ← mapZeroed (top - (userStackPages - i) * pageSize) then stackPages top n (i + 1)
    else Prog.fail (.panic "user: out of memory for a user stack")

/-- SOURCE: user.rs:316-336 -/
def mapUserStack : Prog UserSpace Fault ℕ := do
  let top ← Prog.read UserSpace.nextStack
  if top < userStackSpan then Prog.fail .overflow
  else do
    Prog.modify fun s => { s with nextStack := top - userStackSpan }
    UserSpace.on (stackPages top userStackPages 0)
    return top

end Pinx.Model
