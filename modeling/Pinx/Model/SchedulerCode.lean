import Pinx.Foundation.Sections
import Pinx.Model.Scheduler

/-!
# The scheduler, one access at a time

The bodies that `scheduler.rs` runs under `RUNQ`, as the tree of their accesses: each read is of
one field, and each assignment is a store of its own.
-/

namespace Pinx.Model

open Pinx.Foundation

/-- A call that takes `RUNQ`; `spawn` comes with the stack that was allocated before. -/
inductive SchedCall where
  | spawn (stack : ℕ)
  | exit
  | blockUntil (wakeTick : ℕ)
  | blockInput
  | wakeSleepers (now : ℕ)
  | wakeInput
  | schedule (frame : ℕ)
deriving DecidableEq, Repr

namespace Sched

variable {T C : ℕ}

/-- An assignment to a field of a task. -/
def assign (t : TaskRef T C) (f : Task → Task) (next : Script (Sched T C)) : Script (Sched T C) :=
  .store (fun s => s.modify t f) next

/-- SOURCE: scheduler.rs:213-228 -/
def spawnScript (stack : ℕ) : List (Fin T) → Script (Sched T C)
  | [] => .done
  | i :: rest =>
    .read (fun s => (s.tasks (.slot i)).state) fun state =>
      if state ≠ .unused then spawnScript stack rest
      else
        let top := (stack + kernelStackSize) / 16 * 16
        assign (.slot i) (fun t => { t with state := .ready }) <|
        assign (.slot i) (fun t => { t with kind := .user }) <|
        assign (.slot i) (fun t => { t with cpu := 0 }) <|
        assign (.slot i) (fun t => { t with kstack := top }) <|
        assign (.slot i) (fun t => { t with frame := frameAt top }) <|
        assign (.slot i) (fun t => { t with wakeTick := 0 }) <|
        assign (.slot i) (fun t => { t with waitInput := false }) .done

/-- SOURCE: scheduler.rs:236-239 -/
def markCurrentDeadScript (cpu : Fin C) : Script (Sched T C) :=
  .read (fun s => s.current cpu) fun
    | some cur => assign cur (fun t => { t with state := .dead }) .done
    | none => .done

/-- The body of both functions that park a task.
SOURCE: scheduler.rs:249-254, 264-269 -/
def blockCurrentScript (cpu : Fin C) (wakeTick : ℕ) (waitInput : Bool) : Script (Sched T C) :=
  .read (fun s => s.current cpu) fun
    | some cur =>
      assign cur (fun t => { t with state := .blocked }) <|
      assign cur (fun t => { t with wakeTick := wakeTick }) <|
      assign cur (fun t => { t with waitInput := waitInput }) .done
    | none => .done

/-- SOURCE: scheduler.rs:280-283 -/
def sleeperDueScript (now : ℕ) (i : Fin T) (next : Bool → Script (Sched T C)) : Script (Sched T C) :=
  .read (fun s => (s.tasks (.slot i)).state) fun state =>
  if state ≠ .blocked then next false else
  .read (fun s => (s.tasks (.slot i)).waitInput) fun waitInput =>
  if waitInput then next false else
  .read (fun s => (s.tasks (.slot i)).wakeTick) fun wakeTick =>
  if wakeTick = 0 then next false else
  .read (fun s => (s.tasks (.slot i)).wakeTick) fun wakeTick => next (wakeTick ≤ now)

/-- SOURCE: scheduler.rs:299 -/
def inputWaiterScript (i : Fin T) (next : Bool → Script (Sched T C)) : Script (Sched T C) :=
  .read (fun s => (s.tasks (.slot i)).state) fun state =>
  if state ≠ .blocked then next false else
  .read (fun s => (s.tasks (.slot i)).waitInput) next

/-- The loop of both wakers: a task that is `due` is made `Ready`, and `clear` forgets what it
waited for. -/
def wakeScript (due : Fin T → (Bool → Script (Sched T C)) → Script (Sched T C))
    (clear : Task → Task) : List (Fin T) → Script (Sched T C)
  | [] => .done
  | i :: rest => due i fun isDue =>
    if isDue then
      assign (.slot i) (fun t => { t with state := .ready }) <|
      assign (.slot i) clear <|
      wakeScript due clear rest
    else wakeScript due clear rest

/-- SOURCE: scheduler.rs:278-288 -/
def wakeSleepersScript (now : ℕ) : Script (Sched T C) :=
  wakeScript (sleeperDueScript now) (fun t => { t with wakeTick := 0 }) (List.finRange T)

/-- SOURCE: scheduler.rs:297-303 -/
def wakeInputWaitersScript : Script (Sched T C) :=
  wakeScript inputWaiterScript (fun t => { t with waitInput := false }) (List.finRange T)

/-- SOURCE: scheduler.rs:146-154 -/
def pickScript (cur : Option (TaskRef T C)) (next : Option (TaskRef T C) → Script (Sched T C)) :
    List (Fin T) → Script (Sched T C)
  | [] => next none
  | i :: rest =>
    .read (fun s => (s.tasks (.slot i)).state) fun state =>
      if state = .ready ∧ some (TaskRef.slot i) ≠ cur then next (some (.slot i))
      else pickScript cur next rest

/-- SOURCE: scheduler.rs:365-367 -/
def resumeScript (cpu : Fin C) (next : TaskRef T C) : Script (Sched T C) :=
  assign next (fun t => { t with state := .running }) <|
  assign next (fun t => { t with cpu := cpu }) .done

/-- SOURCE: scheduler.rs:361-362 -/
def moveScript (cpu : Fin C) (next : TaskRef T C) : Script (Sched T C) :=
  .store (fun s => { s with current := Function.update s.current cpu (some next) }) <|
  .read (fun s => (s.tasks next).kstack) fun kstack =>
  .store (fun s => { s with rsp0 := Function.update s.rsp0 cpu kstack }) <|
  resumeScript cpu next

/-- SOURCE: scheduler.rs:340-342, 356 -/
def stillRunningScript (cur : Option (TaskRef T C)) (next : Bool → Script (Sched T C)) :
    Script (Sched T C) :=
  match cur with
  | some t =>
    .read (fun s => (s.tasks t).kind) fun kind =>
    if kind ≠ .user then next false else
    .read (fun s => (s.tasks t).state) fun state => next (state = .running)
  | none => next false

/-- SOURCE: scheduler.rs:355-363 -/
def switchScript (cpu : Fin C) (cur : Option (TaskRef T C)) (next : TaskRef T C) :
    Script (Sched T C) :=
  if some next ≠ cur then
    stillRunningScript cur fun running =>
      if running then
        .store (fun s => { s with deferred := Function.update s.deferred cpu cur }) <|
        moveScript cpu next
      else moveScript cpu next
  else resumeScript cpu next

/-- SOURCE: scheduler.rs:337-353 -/
def chooseScript (cpu : Fin C) (cur : Option (TaskRef T C)) :
    Option (TaskRef T C) → Script (Sched T C)
  | some next => switchScript cpu cur next
  | none =>
    match cur with
    | some t =>
      stillRunningScript cur fun running =>
        if running then switchScript cpu cur t
        else .read (fun s => (s.tasks t).kind) fun kind =>
          if kind = .idle then .done else switchScript cpu cur (.idle cpu)
    | none => switchScript cpu cur (.idle cpu)

/-- SOURCE: scheduler.rs:331-336 -/
def enterScript (cpu : Fin C) (frame : ℕ) : Script (Sched T C) :=
  .read (fun s => s.current cpu) fun cur =>
    match cur with
    | some t =>
      assign t (fun t => { t with frame := frame }) <|
      pickScript cur (chooseScript cpu cur) (List.finRange T)
    | none => pickScript cur (chooseScript cpu cur) (List.finRange T)

/-- `schedule` once `INITIALIZED` was found set.
SOURCE: scheduler.rs:326-368 -/
def scheduleScript (cpu : Fin C) (frame : ℕ) : Script (Sched T C) :=
  .read (fun s => s.deferred cpu) fun
    | some t =>
      assign t (fun t => { t with state := .ready }) <|
      .store (fun s => { s with deferred := Function.update s.deferred cpu none }) <|
      enterScript cpu frame
    | none => enterScript cpu frame

end Sched

/-- The guarded code of a call on a CPU. -/
def SchedCall.script {T C : ℕ} (cpu : Fin C) : SchedCall → Script (Sched T C)
  | .spawn stack => Sched.spawnScript stack (List.finRange T)
  | .exit => Sched.markCurrentDeadScript cpu
  | .blockUntil wakeTick => Sched.blockCurrentScript cpu wakeTick false
  | .blockInput => Sched.blockCurrentScript cpu 0 true
  | .wakeSleepers now => Sched.wakeSleepersScript now
  | .wakeInput => Sched.wakeInputWaitersScript
  | .schedule frame => Sched.scheduleScript cpu frame

end Pinx.Model
