import Mathlib.Data.Fin.Basic
import Mathlib.Data.List.FinRange
import Mathlib.Logic.Function.Basic
import Pinx.Model.Pmm

/-!
# The scheduler

`scheduler.rs` keeps one table of user tasks, one idle task per CPU and, per CPU,
the task it runs and a task whose publication is deferred.  `T` stands for
`MAX_TASKS` and `C` for `MAX_CPUS`; both are parameters here.  A `*mut Task` is a slot of the
table or an idle task, with `none` for null, and a `*mut InterruptFrame` is an
address.

Each function below is the body the source runs while it holds `RUNQ`.
-/

namespace Pinx.Model

open Pinx.Foundation

/-- Systems of one and of two CPUs have a CPU 0. -/
instance neZero_oneCpu : NeZero 1 := ⟨by simp⟩
instance neZero_twoCpus : NeZero 2 := ⟨by simp⟩

/-- SOURCE: scheduler.rs:29-37 -/
inductive TaskState where
  | unused
  | ready
  | running
  | blocked
  | dead
deriving DecidableEq, Repr

/-- SOURCE: scheduler.rs:40-43 -/
inductive TaskKind where
  | user
  | idle
deriving DecidableEq, Repr

/-- SOURCE: scheduler.rs:46-59 -/
structure Task where
  state : TaskState
  kind : TaskKind
  cpu : ℕ
  frame : ℕ
  kstack : ℕ
  wakeTick : ℕ
  waitInput : Bool
deriving DecidableEq, Repr

/-- SOURCE: scheduler.rs:61-69 -/
def emptyTask : Task := ⟨.unused, .idle, 0, 0, 0, 0, false⟩

/-- A pointer into `TASKS` or into `IDLE`. -/
inductive TaskRef (T C : ℕ) where
  | slot (i : Fin T)
  | idle (c : Fin C)
deriving DecidableEq, Repr

/-- `INITIALIZED`, `TASKS` and `IDLE`, `PERCPU`, and the `rsp0` of each CPU's TSS. -/
structure Sched (T C : ℕ) where
  initialized : Bool
  tasks : TaskRef T C → Task
  current : Fin C → Option (TaskRef T C)
  deferred : Fin C → Option (TaskRef T C)
  rsp0 : Fin C → ℕ

/-- SOURCE: scheduler.rs:25 -/
abbrev maxTasks : ℕ := 64

/-- SOURCE: gdt.rs:95 -/
abbrev maxCpus : ℕ := 32

/-- SOURCE: scheduler.rs:26 -/
def kernelStackSize : ℕ := 64 * 1024

/-- SOURCE: scheduler.rs:96 -/
def frameWords : ℕ := 22

/-- SOURCE: gdt.rs:108 -/
def ring0StackSize : ℕ := 16 * 1024

/-- Top of a CPU's ring-0 stack, with the array `RING0_STACKS` at `base`.
SOURCE: gdt.rs:157-162 -/
def kstackTop (base cpu : ℕ) : ℕ :=
  (base + cpu * ring0StackSize + ring0StackSize) / 16 * 16

namespace Sched

variable {T C : ℕ}

/-- Update the task behind a pointer. -/
def modify (s : Sched T C) (t : TaskRef T C) (f : Task → Task) : Sched T C :=
  { s with tasks := Function.update s.tasks t (f (s.tasks t)) }

/-- Update the task behind a pointer that may be null. -/
def modifyOpt (s : Sched T C) (t : Option (TaskRef T C)) (f : Task → Task) : Sched T C :=
  match t with
  | some t => s.modify t f
  | none => s

/-- SOURCE: scheduler.rs:110-112 -/
def frameAt (kstackTop : ℕ) : ℕ := kstackTop - frameWords * 8

/-- The tables before any CPU has run `init_cpu`; CPUs below `cpuCount` have an idle
task whose stack top is `kstackTop`.
SOURCE: scheduler.rs:159-176 -/
def initGlobal (cpuCount : ℕ) (kstackTop : Fin C → ℕ) (rsp0 : Fin C → ℕ) : Sched T C where
  initialized := true
  tasks
    | .slot _ => emptyTask
    | .idle c =>
      if c.val < cpuCount then
        ⟨.unused, .idle, c, frameAt (kstackTop c), kstackTop c, 0, false⟩
      else emptyTask
  current _ := none
  deferred _ := none
  rsp0 := rsp0

/-- SOURCE: scheduler.rs:180-189 -/
def initCpu (s : Sched T C) (cpu : Fin C) : Sched T C :=
  let s := s.modify (.idle cpu) fun t => { t with state := .running }
  { s with
    current := Function.update s.current cpu (some (.idle cpu))
    deferred := Function.update s.deferred cpu none
    rsp0 := Function.update s.rsp0 cpu (s.tasks (.idle cpu)).kstack }

/-- The first `Ready` task of the table other than `cur`.
SOURCE: scheduler.rs:146-154 -/
def pick (s : Sched T C) (cur : Option (TaskRef T C)) : Option (TaskRef T C) :=
  ((List.finRange T).find? fun i =>
    (s.tasks (.slot i)).state = .ready ∧ some (TaskRef.slot i) ≠ cur).map .slot

/-- `spawn_user` once its kernel stack was allocated at `stack`.
SOURCE: scheduler.rs:209-229 -/
def spawnUser (s : Sched T C) (stack : ℕ) : Sched T C × Option (Fin T) :=
  let top := (stack + kernelStackSize) / 16 * 16
  match (List.finRange T).find? fun i => (s.tasks (.slot i)).state = .unused with
  | some i =>
    (s.modify (.slot i) fun t => { t with
      state := .ready, kind := .user, cpu := 0, kstack := top, frame := frameAt top,
      wakeTick := 0, waitInput := false }, some i)
  | none => (s, none)

/-- SOURCE: scheduler.rs:232-241 -/
def markCurrentDead (s : Sched T C) (cpu : Fin C) : Sched T C :=
  s.modifyOpt (s.current cpu) fun t => { t with state := .dead }

/-- SOURCE: scheduler.rs:245-256 -/
def blockCurrentUntil (s : Sched T C) (cpu : Fin C) (wakeTick : ℕ) : Sched T C :=
  s.modifyOpt (s.current cpu) fun t =>
    { t with state := .blocked, wakeTick := wakeTick, waitInput := false }

/-- SOURCE: scheduler.rs:260-271 -/
def blockCurrentInput (s : Sched T C) (cpu : Fin C) : Sched T C :=
  s.modifyOpt (s.current cpu) fun t =>
    { t with state := .blocked, wakeTick := 0, waitInput := true }

/-- Whether `wake_sleepers(now)` makes the task runnable.
SOURCE: scheduler.rs:280-284 -/
def sleeperDue (now : ℕ) (t : Task) : Bool :=
  t.state = .blocked ∧ ¬t.waitInput ∧ t.wakeTick ≠ 0 ∧ t.wakeTick ≤ now

/-- SOURCE: scheduler.rs:275-290 -/
def wakeSleepers (s : Sched T C) (now : ℕ) : Sched T C :=
  { s with tasks := fun
    | .slot i =>
      if sleeperDue now (s.tasks (.slot i)) then
        { s.tasks (.slot i) with state := .ready, wakeTick := 0 }
      else s.tasks (.slot i)
    | .idle c => s.tasks (.idle c) }

/-- Whether `wake_input_waiters` makes the task runnable.
SOURCE: scheduler.rs:299 -/
def inputWaiter (t : Task) : Bool := t.state = .blocked ∧ t.waitInput

/-- SOURCE: scheduler.rs:294-305 -/
def wakeInputWaiters (s : Sched T C) : Sched T C :=
  { s with tasks := fun
    | .slot i =>
      if inputWaiter (s.tasks (.slot i)) then
        { s.tasks (.slot i) with state := .ready, waitInput := false }
      else s.tasks (.slot i)
    | .idle c => s.tasks (.idle c) }

/-- A task switched away from on the last pass has left this CPU by now: publish it.
SOURCE: scheduler.rs:326-329 -/
def publish (s : Sched T C) (cpu : Fin C) : Sched T C :=
  match s.deferred cpu with
  | some t =>
    { s.modify t (fun t => { t with state := .ready }) with
      deferred := Function.update s.deferred cpu none }
  | none => s

/-- A user task that is still `Running`.
SOURCE: scheduler.rs:339-341, 356 -/
def stillRunning (s : Sched T C) : Option (TaskRef T C) → Bool
  | some t => (s.tasks t).kind = .user ∧ (s.tasks t).state = .running
  | none => false

/-- Leave `cur` for `next` on this CPU, if they differ, and resume `next`.
SOURCE: scheduler.rs:355-367 -/
def switchTo (s : Sched T C) (cpu : Fin C) (cur : Option (TaskRef T C)) (next : TaskRef T C) :
    Sched T C × ℕ :=
  let s := if some next ≠ cur then
    { s with
      -- `cur` executes on its stack until the caller's `iretq`, so it is published later
      deferred := if s.stillRunning cur then Function.update s.deferred cpu cur else s.deferred
      current := Function.update s.current cpu (some next)
      rsp0 := Function.update s.rsp0 cpu (s.tasks next).kstack }
    else s
  let s := s.modify next fun t => { t with state := .running, cpu := cpu }
  (s, (s.tasks next).frame)

/-- What this CPU runs next, given the frame it was interrupted on, and the frame to
resume.
SOURCE: scheduler.rs:312-368 -/
def schedule (s : Sched T C) (cpu : Fin C) (frame : ℕ) : Sched T C × ℕ :=
  if s.initialized then
    let s := s.publish cpu
    let cur := s.current cpu
    let s := s.modifyOpt cur fun t => { t with frame := frame }
    match s.pick cur with
    | some next => s.switchTo cpu cur next
    | none =>
      match cur with
      | some t =>
        if s.stillRunning cur then s.switchTo cpu cur t
        else if (s.tasks t).kind = .idle then (s, frame)
        else s.switchTo cpu cur (.idle cpu)
      | none => s.switchTo cpu cur (.idle cpu)
  else (s, frame)

end Sched

/-- The tick up to which `SYS_SLEEP` parks its task; `sleep(0)` only yields.
SOURCE: syscall.rs:91-100 -/
def sleepDeadline (uptime ms : ℕ) : Except Fault (Option ℕ) :=
  if ms = 0 then .ok none else do return some (← addU64 uptime ms)

end Pinx.Model
