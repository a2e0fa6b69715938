import Mathlib.Logic.Function.Basic
import Pinx.Foundation.Sections

/-!
# Spinlocks and the interrupt flag

`SpinLock::lock` of `spinlock.rs` reads the flags, clears the interrupt flag and spins on an
atomic swap; dropping the guard clears the lock and then restores the flags.  `irq_save` and
`irq_restore` of `io.rs` bracket code with interrupts off and take no lock.

A CPU is in ring 3, in the kernel code that it runs as its idle task, or in interrupt handlers
on top of either.  An interrupt comes between any two instructions while the flag is set, its gate
clears the flag, and the `iretq` at the end of a handler loads flags in which it is set.  What a
handler returns to is up to the scheduler: ring 3, or the CPU's own idle task.

The code under the lock is a parameter here; it touches the shared data one access at a time.
-/

namespace Pinx.Model

open Pinx.Foundation

/-- Where an activation stands: between the `pushfq` and the `cli` of `irq_save`, between those
of `lock`, at the swap, in the guarded code, or before the `popfq` of the guard. -/
inductive Phase (Λ : Type*) where
  | outside
  | saving
  | entering (l : Λ)
  | spinning (l : Λ)
  | inside (l : Λ)
  | leaving
deriving DecidableEq, Repr

/-- Kernel code that was entered and has not returned; `saves` are the flags it has yet to restore,
the last one first. -/
structure Activation (Λ : Type*) where
  phase : Phase Λ
  saves : List Bool
deriving DecidableEq, Repr

/-- A CPU: its interrupt flag, whether it left its idle task for ring 3, the activation of the idle
task, and the handlers on top, the last one first. -/
structure LockCpu (Λ : Type*) where
  interruptFlag : Bool
  user : Bool
  main : Activation Λ
  handlers : List (Activation Λ)
deriving DecidableEq, Repr

/-- The shared data, `locked`, and the CPUs. -/
structure LockSys (P σ Λ : Type*) where
  data : σ
  locked : Bool
  cpus : P → LockCpu Λ

/-- What a CPU does next; it calls `lock` for a section that `ρ` names. -/
inductive LockAct (ρ : Type*) where
  | irqSaveFlags
  | irqDisable
  | irqRestore
  | lockFlags (r : ρ)
  | lockCli
  | swap
  | access
  | unlock
  | popfq
  | interrupt
  | iretq (toUser : Bool)
deriving DecidableEq, Repr

variable {P σ Λ ρ : Type*}

/-- The kernel code a CPU executes; there is none in ring 3. -/
def LockCpu.top (c : LockCpu Λ) : Option (Activation Λ) :=
  match c.handlers with
  | a :: _ => some a
  | [] => if c.user then none else some c.main

/-- The kernel code a CPU executes has moved on. -/
def LockCpu.setTop (c : LockCpu Λ) (a : Activation Λ) : LockCpu Λ :=
  match c.handlers with
  | _ :: rest => { c with handlers := a :: rest }
  | [] => { c with main := a }

/-- The instructions that only concern the CPU itself; `sections` is where the guarded code begins.
SOURCE: io.rs:57-71, spinlock.rs:26-35, 44-49 -/
def LockCpu.act (sections : ρ → Λ) (c : LockCpu Λ) : LockAct ρ → Option (LockCpu Λ)
  | .irqSaveFlags =>
    match c.top with
    | some ⟨.outside, saves⟩ => some (c.setTop ⟨.saving, c.interruptFlag :: saves⟩)
    | _ => none
  | .irqDisable =>
    match c.top with
    | some ⟨.saving, saves⟩ => some { c.setTop ⟨.outside, saves⟩ with interruptFlag := false }
    | _ => none
  | .irqRestore =>
    match c.top with
    | some ⟨.outside, flag :: saves⟩ =>
      -- the flag is set when it was set before, and left alone otherwise
      some { c.setTop ⟨.outside, saves⟩ with interruptFlag := flag || c.interruptFlag }
    | _ => none
  | .lockFlags r =>
    match c.top with
    | some ⟨.outside, saves⟩ => some (c.setTop ⟨.entering (sections r), c.interruptFlag :: saves⟩)
    | _ => none
  | .lockCli =>
    match c.top with
    | some ⟨.entering l, saves⟩ => some { c.setTop ⟨.spinning l, saves⟩ with interruptFlag := false }
    | _ => none
  | .popfq =>
    match c.top with
    | some ⟨.leaving, flag :: saves⟩ => some { c.setTop ⟨.outside, saves⟩ with interruptFlag := flag }
    | _ => none
  | .interrupt =>
    if c.interruptFlag then
      some { c with interruptFlag := false, handlers := ⟨.outside, []⟩ :: c.handlers }
    else none
  | .iretq toUser =>
    match c.handlers with
    | [⟨.outside, []⟩] => some { c with interruptFlag := true, user := toUser, handlers := [] }
    | ⟨.outside, []⟩ :: below => some { c with interruptFlag := true, handlers := below }
    | _ => none
  | _ => none

/-- One instruction of a CPU.
SOURCE: spinlock.rs:31-33, 45 -/
def LockSys.exec [DecidableEq P] (code : Code σ Λ) (sections : P → ρ → Λ) (s : LockSys P σ Λ) :
    P × LockAct ρ → Option (LockSys P σ Λ)
  | (p, .swap) =>
    match (s.cpus p).top with
    | some ⟨.spinning l, saves⟩ =>
      if s.locked then some s
      else some { s with
        locked := true, cpus := Function.update s.cpus p ((s.cpus p).setTop ⟨.inside l, saves⟩) }
    | _ => none
  | (p, .access) =>
    match (s.cpus p).top with
    | some ⟨.inside l, saves⟩ =>
      match code l s.data with
      | some (l', data) =>
        some { s with
          data := data, cpus := Function.update s.cpus p ((s.cpus p).setTop ⟨.inside l', saves⟩) }
      | none => none
    | _ => none
  | (p, .unlock) =>
    match (s.cpus p).top with
    | some ⟨.inside l, saves⟩ =>
      match code l s.data with
      | some _ => none
      | none =>
        some { s with
          locked := false, cpus := Function.update s.cpus p ((s.cpus p).setTop ⟨.leaving, saves⟩) }
    | _ => none
  | (p, a) =>
    ((s.cpus p).act (sections p) a).map fun c => { s with cpus := Function.update s.cpus p c }

/-- One step of a run. -/
def LockStep [DecidableEq P] (code : Code σ Λ) (sections : P → ρ → Λ) (s : LockSys P σ Λ)
    (e : P × LockAct ρ) (s' : LockSys P σ Λ) : Prop :=
  s.exec code sections e = some s'

/-- The CPUs have enabled interrupts and run their idle tasks; the lock is `SpinLock::new()`.
SOURCE: spinlock.rs:19-23, main.rs:107, smp.rs:115 -/
def lockStart (data : σ) : LockSys P σ Λ where
  data := data
  locked := false
  cpus _ := ⟨true, false, ⟨.outside, []⟩, []⟩

end Pinx.Model
