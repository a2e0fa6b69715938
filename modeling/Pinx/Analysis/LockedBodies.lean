import Pinx.Analysis.KernelStacks
import Pinx.Analysis.LockSafety
import Pinx.Model.SchedulerCode

/-!
# A body under the lock is one step

The analysis of the scheduler takes each body it runs under `RUNQ` as one step.  Here the bodies
run one access at a time, on any number of CPUs, with `SpinLock::lock` and the guard's drop around
them and interrupts in between, and the lock makes that the same thing.
-/

namespace Pinx.Analysis

open Pinx.Foundation Pinx.Model

variable {T C : ℕ} {s : Sched T C}

/-! ## What the scripts do -/

@[simp] theorem effect_assign (t : TaskRef T C) (f : Task → Task) (next : Script (Sched T C))
    (s : Sched T C) : (Sched.assign t f next).effect s = next.effect (s.modify t f) := rfl

@[simp] theorem modify_modify (s : Sched T C) (t : TaskRef T C) (f g : Task → Task) :
    (s.modify t f).modify t g = s.modify t fun x => g (f x) := by
  simp [Sched.modify]

theorem effect_spawnScript (stack : ℕ) (slots : List (Fin T)) (s : Sched T C) :
    (Sched.spawnScript stack slots).effect s =
      match slots.find? fun i => (s.tasks (.slot i)).state = .unused with
      | some i => s.modify (.slot i) fun t => { t with
          state := .ready, kind := .user, cpu := 0,
          kstack := (stack + kernelStackSize) / 16 * 16,
          frame := Sched.frameAt ((stack + kernelStackSize) / 16 * 16),
          wakeTick := 0, waitInput := false }
      | none => s := by
  induction slots with
  | nil => rfl
  | cons i rest ih =>
    rw [Sched.spawnScript, Script.effect_read]
    by_cases hunused : (s.tasks (.slot i)).state = .unused
    · rw [if_neg (not_not.mpr hunused), List.find?_cons_of_pos (by simpa using hunused)]
      simp
    · rw [if_pos hunused, List.find?_cons_of_neg (by simpa using hunused), ih]

/-- What a waker makes of a task of the table. -/
def wakened (due : Task → Bool) (clear : Task → Task) (t : Task) : Task :=
  if due t then clear { t with state := .ready } else t

/-- All but the tasks of the table is the same. -/
structure SameRest (s s' : Sched T C) : Prop where
  up : s'.initialized = s.initialized
  idle : ∀ c, s'.tasks (.idle c) = s.tasks (.idle c)
  current : s'.current = s.current
  deferred : s'.deferred = s.deferred
  rsp0 : s'.rsp0 = s.rsp0

theorem SameRest.trans {s₁ s₂ s₃ : Sched T C} (h : SameRest s₁ s₂) (h' : SameRest s₂ s₃) :
    SameRest s₁ s₃ :=
  ⟨h'.up.trans h.up, fun c => (h'.idle c).trans (h.idle c), h'.current.trans h.current,
    h'.deferred.trans h.deferred, h'.rsp0.trans h.rsp0⟩

theorem SameRest.eq {s₁ s₂ : Sched T C} (h : SameRest s₁ s₂)
    (htask : ∀ i, s₂.tasks (.slot i) = s₁.tasks (.slot i)) : s₂ = s₁ := by
  obtain ⟨up₁, tasks₁, current₁, deferred₁, rsp0₁⟩ := s₁
  obtain ⟨up₂, tasks₂, current₂, deferred₂, rsp0₂⟩ := s₂
  have htasks : tasks₂ = tasks₁ := by
    funext t
    cases t with
    | slot i => exact htask i
    | idle c => exact h.idle c
  obtain ⟨hup, -, hcurrent, hdeferred, hrsp0⟩ := h
  dsimp only at hup hcurrent hdeferred hrsp0
  rw [htasks, hup, hcurrent, hdeferred, hrsp0]

theorem sameRest_modify (s : Sched T C) (i : Fin T) (f : Task → Task) :
    SameRest s (s.modify (.slot i) f) := by
  refine ⟨rfl, fun c => ?_, rfl, rfl, rfl⟩
  rw [tasks_modify, if_neg (by rintro ⟨⟩)]

theorem effect_sleeperDueScript (now : ℕ) (i : Fin T) (next : Bool → Script (Sched T C))
    (s : Sched T C) : (Sched.sleeperDueScript now i next).effect s =
      (next (Sched.sleeperDue now (s.tasks (.slot i)))).effect s := by
  simp only [Sched.sleeperDueScript, Script.effect_read, Sched.sleeperDue]
  split
  · simp [*]
  · rw [Script.effect_read]
    split
    · simp [*]
    · rw [Script.effect_read]
      split <;> simp_all

theorem effect_inputWaiterScript (i : Fin T) (next : Bool → Script (Sched T C)) (s : Sched T C) :
    (Sched.inputWaiterScript i next).effect s =
      (next (Sched.inputWaiter (s.tasks (.slot i)))).effect s := by
  simp only [Sched.inputWaiterScript, Script.effect_read, Sched.inputWaiter]
  split <;> simp_all

theorem effect_stillRunningScript (cur : Option (TaskRef T C)) (next : Bool → Script (Sched T C))
    (s : Sched T C) :
    (Sched.stillRunningScript cur next).effect s = (next (s.stillRunning cur)).effect s := by
  cases cur with
  | none => rfl
  | some t =>
    simp only [Sched.stillRunningScript, Script.effect_read, Sched.stillRunning]
    split <;> simp_all

/-- A script that finds out whether a task is due. -/
def Tests (test : Fin T → (Bool → Script (Sched T C)) → Script (Sched T C)) (due : Task → Bool) :
    Prop :=
  ∀ i next s, (test i next).effect s = (next (due (s.tasks (.slot i)))).effect s

theorem effect_wakeScript {test : Fin T → (Bool → Script (Sched T C)) → Script (Sched T C)}
    {due : Task → Bool} {clear : Task → Task} (htest : Tests test due)
    (hclear : ∀ t : Task, due (clear { t with state := .ready }) = false) (slots : List (Fin T))
    (s : Sched T C) :
    SameRest s ((Sched.wakeScript test clear slots).effect s) ∧
      ∀ i, ((Sched.wakeScript test clear slots).effect s).tasks (.slot i) =
        if i ∈ slots then wakened due clear (s.tasks (.slot i)) else s.tasks (.slot i) := by
  induction slots generalizing s with
  | nil => exact ⟨⟨rfl, fun _ => rfl, rfl, rfl, rfl⟩, fun i => by simp [Sched.wakeScript]⟩
  | cons i rest ih =>
    rw [Sched.wakeScript, htest]
    by_cases hdue : due (s.tasks (.slot i)) = true
    · rw [if_pos hdue, effect_assign, effect_assign, modify_modify]
      obtain ⟨hrest, htask⟩ := ih (s.modify (.slot i) fun t => clear { t with state := .ready })
      refine ⟨(sameRest_modify s i _).trans hrest, fun j => ?_⟩
      rw [htask, tasks_modify]
      by_cases hj : j = i
      · -- a task that was woken is not due again
        subst hj
        simp [wakened, hdue, hclear]
      · simp [hj]
    · rw [if_neg hdue]
      obtain ⟨hrest, htask⟩ := ih s
      refine ⟨hrest, fun j => ?_⟩
      rw [htask]
      by_cases hj : j = i
      · subst hj
        simp [wakened, hdue]
      · simp [hj]

/-- A waker's loop over the whole table. -/
theorem effect_wakeScript_all {test : Fin T → (Bool → Script (Sched T C)) → Script (Sched T C)}
    {due : Task → Bool} {clear : Task → Task} {s s' : Sched T C} (htest : Tests test due)
    (hclear : ∀ t : Task, due (clear { t with state := .ready }) = false) (hrest : SameRest s s')
    (htask : ∀ i, s'.tasks (.slot i) = wakened due clear (s.tasks (.slot i))) :
    (Sched.wakeScript test clear (List.finRange T)).effect s = s' := by
  obtain ⟨hrest', htask'⟩ := effect_wakeScript htest hclear (List.finRange T) s
  refine SameRest.eq ⟨hrest'.up.trans hrest.up.symm, fun c => (hrest'.idle c).trans (hrest.idle c).symm,
    hrest'.current.trans hrest.current.symm, hrest'.deferred.trans hrest.deferred.symm,
    hrest'.rsp0.trans hrest.rsp0.symm⟩ fun i => ?_
  rw [htask', if_pos (List.mem_finRange i), htask]

theorem effect_pickScript (cur : Option (TaskRef T C))
    (next : Option (TaskRef T C) → Script (Sched T C)) (slots : List (Fin T)) (s : Sched T C) :
    (Sched.pickScript cur next slots).effect s =
      (next ((slots.find? fun i =>
        (s.tasks (.slot i)).state = .ready ∧ some (TaskRef.slot i) ≠ cur).map .slot)).effect s := by
  induction slots with
  | nil => rfl
  | cons i rest ih =>
    rw [Sched.pickScript, Script.effect_read]
    by_cases hready : (s.tasks (.slot i)).state = .ready ∧ some (TaskRef.slot i) ≠ cur
    · rw [if_pos hready, List.find?_cons_of_pos (by simpa using hready)]
      rfl
    · rw [if_neg hready, List.find?_cons_of_neg (by simpa using hready), ih]

theorem effect_switchScript (cpu : Fin C) (cur : Option (TaskRef T C)) (next : TaskRef T C)
    (s : Sched T C) :
    (Sched.switchScript cpu cur next).effect s = (s.switchTo cpu cur next).1 := by
  unfold Sched.switchScript Sched.switchTo
  by_cases hne : some next ≠ cur
  · simp only [if_pos hne, effect_stillRunningScript]
    by_cases hrun : s.stillRunning cur = true
    · simp [hrun, Sched.moveScript, Sched.resumeScript, Sched.modify]
    · simp [hrun, Sched.moveScript, Sched.resumeScript, Sched.modify]
  · simp [if_neg hne, Sched.resumeScript]

theorem effect_scheduleScript (hup : s.initialized = true) (cpu : Fin C) (frame : ℕ) :
    (Sched.scheduleScript cpu frame).effect s = (s.schedule cpu frame).1 := by
  have hpublish : (Sched.scheduleScript cpu frame).effect s =
      (Sched.enterScript cpu frame).effect (s.publish cpu) := by
    unfold Sched.scheduleScript Sched.publish
    rw [Script.effect_read]
    cases s.deferred cpu with
    | none => rfl
    | some t => rfl
  have hup' : (s.publish cpu).initialized = true := by
    rw [(publish_kept s cpu).1, hup]
  have henter : ∀ s : Sched T C, (Sched.enterScript cpu frame).effect s =
      (Sched.pickScript (s.current cpu) (Sched.chooseScript cpu (s.current cpu))
        (List.finRange T)).effect
        (s.modifyOpt (s.current cpu) fun t => { t with frame := frame }) := by
    intro s
    rw [Sched.enterScript, Script.effect_read]
    cases s.current cpu <;> rfl
  rw [hpublish, henter, effect_pickScript]
  unfold Sched.schedule
  rw [if_pos hup]
  dsimp only
  generalize (s.publish cpu).current cpu = cur
  generalize (s.publish cpu).modifyOpt cur (fun t => { t with frame := frame }) = s₁
  change (Sched.chooseScript cpu cur (s₁.pick cur)).effect s₁ = _
  cases s₁.pick cur with
  | some next => exact effect_switchScript cpu cur next s₁
  | none =>
    cases cur with
    | none => exact effect_switchScript cpu none (.idle cpu) s₁
    | some t =>
      simp only [Sched.chooseScript, effect_stillRunningScript]
      by_cases hrun : s₁.stillRunning (some t) = true
      · rw [if_pos hrun, if_pos hrun, effect_switchScript]
      · rw [if_neg hrun, if_neg hrun, Script.effect_read]
        by_cases hidle : (s₁.tasks t).kind = .idle
        · rw [if_pos hidle, if_pos hidle, Script.effect_done]
        · rw [if_neg hidle, if_neg hidle, effect_switchScript]

/-- The body a call on a CPU runs. -/
def callEvent (cpu : Fin C) : SchedCall → SchedEvent C
  | .spawn stack => .spawn cpu stack
  | .exit => .exit cpu
  | .blockUntil wakeTick => .blockUntil cpu wakeTick
  | .blockInput => .blockInput cpu
  | .wakeSleepers now => .wakeSleepers cpu now
  | .wakeInput => .wakeInput cpu
  | .schedule frame => .schedule cpu frame

/-- A whole script is the body. -/
theorem effect_script (hup : s.initialized = true) (cpu : Fin C) (call : SchedCall) :
    (call.script cpu).effect s = lockedBody s (callEvent cpu call) := by
  have hblock : ∀ wakeTick waitInput,
      (Sched.blockCurrentScript cpu wakeTick waitInput).effect s =
        s.modifyOpt (s.current cpu) fun t =>
          { t with state := .blocked, wakeTick := wakeTick, waitInput := waitInput } := by
    intro wakeTick waitInput
    rw [Sched.blockCurrentScript, Script.effect_read]
    cases s.current cpu with
    | none => rfl
    | some t => simp [Sched.modifyOpt]
  cases call with
  | spawn stack =>
    refine (effect_spawnScript stack _ s).trans ?_
    simp only [lockedBody, callEvent, Sched.spawnUser]
    cases (List.finRange T).find? fun i => decide ((s.tasks (.slot i)).state = .unused) <;> rfl
  | exit =>
    simp only [SchedCall.script, Sched.markCurrentDeadScript, Script.effect_read, lockedBody,
      callEvent, Sched.markCurrentDead]
    cases s.current cpu <;> rfl
  | blockUntil wakeTick => exact hblock wakeTick false
  | blockInput => exact hblock 0 true
  | wakeSleepers now =>
    exact effect_wakeScript_all (effect_sleeperDueScript now) (fun t => by simp [Sched.sleeperDue])
      ⟨rfl, fun _ => rfl, rfl, rfl, rfl⟩ fun _ => rfl
  | wakeInput =>
    exact effect_wakeScript_all effect_inputWaiterScript (fun t => by simp [Sched.inputWaiter])
      ⟨rfl, fun _ => rfl, rfl, rfl, rfl⟩ fun _ => rfl
  | schedule frame => exact effect_scheduleScript hup cpu frame

theorem lockedBody_initialized (s : Sched T C) (e : SchedEvent C) :
    (lockedBody s e).initialized = s.initialized := by
  have hopt : ∀ t f, (s.modifyOpt t f).initialized = s.initialized := by
    intro t f
    cases t <;> rfl
  cases e with
  | initCpu | wakeSleepers | wakeInput => rfl
  | spawn cpu stack =>
    obtain heq | ⟨i, -, -, heq⟩ := spawnUser_fills s stack
    · rw [lockedBody, heq]
    · rw [lockedBody, heq]
      rfl
  | exit | blockUntil | blockInput => exact hopt _ _
  | schedule cpu frame =>
    cases hup : s.initialized with
    | true =>
      obtain ⟨next, hp⟩ := schedule_pass hup cpu frame
      exact hp.up.trans hup
    | false => simp [lockedBody, Sched.schedule, hup]

/-! ## The whole system -/

/-- The scheduler under its lock: the CPUs run the bodies one access at a time. -/
abbrev LockedStep (s : LockSys (Fin C) (Sched T C) (Script (Sched T C)))
    (e : Fin C × LockAct SchedCall) (s' : LockSys (Fin C) (Sched T C) (Script (Sched T C))) : Prop :=
  LockStep Script.code (fun cpu call => call.script cpu) s e s'

/-- One body as one step. -/
def BodyStep (s : Sched T C) (e : Fin C × SchedCall) (s' : Sched T C) : Prop :=
  s' = lockedBody s (callEvent e.1 e.2)

/-- Whole sections are bodies. -/
theorem bodies_of_sections {s₀ : Sched T C} (hup : s₀.initialized = true)
    (h : Reaches (SectionStep Script.code.tagged (Begins fun cpu call => SchedCall.script cpu call))
      s₀ s) :
    Reaches BodyStep s₀ s ∧ s.initialized = true := by
  refine h.invariant (I := fun s => Reaches BodyStep s₀ s ∧ s.initialized = true)
    ⟨Reaches.refl s₀, hup⟩ ?_
  rintro s _ s' ⟨hreach, hs⟩ ⟨⟨cpu, call, rfl⟩, hends⟩
  have hbody : s' = lockedBody s (callEvent cpu call) := by
    rw [← effect_script hs]
    exact (Code.tagged_ends hends).unique (Script.code_ends _ _)
  refine ⟨hreach.tail (e := (cpu, call)) hbody, ?_⟩
  rw [hbody, lockedBody_initialized, hs]

/-- **The lock makes every body one step.**  However the CPUs interleave their accesses, their lock
code and their interrupts: some bodies, each run as a whole, lead from the tables the run began
with to tables `base`.  While the lock is free the tables are `base`.  While a CPU holds it they
are `base` as far as a body of that CPU has changed it, and the rest of that body makes of them
what the whole body makes of `base`. -/
theorem locked_bodies_atomic {s₀ : Sched T C} (hup : s₀.initialized = true)
    {s : LockSys (Fin C) (Sched T C) (Script (Sched T C))}
    (h : Reachable (· = lockStart s₀) LockedStep s) :
    ∃ base, Reaches BodyStep s₀ base ∧ (s.locked = false → s.data = base) ∧
      ∀ cpu l, Inside (s.cpus cpu) l → ∃ call : SchedCall,
        Script.code.Gets (call.script cpu) base l s.data ∧
        l.effect s.data = lockedBody base (callEvent cpu call) := by
  obtain ⟨holder, base, hinv, hserial⟩ := lock_serial h
  obtain ⟨hbodies, hbase⟩ := bodies_of_sections hup hserial.reached
  refine ⟨base, hbodies, fun hfree => hserial.idle ?_, fun cpu l hin => ?_⟩
  · rw [hinv.locked] at hfree
    cases holder with
    | none => rfl
    | some => cases hfree
  · rw [hinv.inside] at hin
    obtain ⟨_, ⟨cpu', call, rfl⟩, htagged⟩ := hserial.busy (cpu, l) hin
    obtain ⟨rfl, hgets⟩ := Code.tagged_gets htagged
    refine ⟨call, hgets, ?_⟩
    rw [← effect_script hbase]
    exact (Script.code_ends l s.data).unique ((Script.code_ends _ base).of_gets hgets)

/-- Two CPUs that have run `init_cpu`, and no task. -/
def twoIdleCpus : Sched 1 2 :=
  ((Sched.initGlobal 2 (fun _ => 0) fun _ => 0).initCpu 0).initCpu 1

/-- CPU 0 has made the first task `Ready` and not yet a user task when the timer interrupts CPU 1,
whose handler wants to wake sleepers. -/
def halfSpawned : Option (LockSys (Fin 2) (Sched 1 2) (Script (Sched 1 2))) :=
  runEvents (LockSys.exec Script.code fun cpu call => SchedCall.script cpu call)
    (lockStart twoIdleCpus)
    [(0, .lockFlags (.spawn 4096)), (0, .lockCli), (0, .swap), (0, .access), (0, .access),
      (1, .interrupt), (1, .lockFlags (.wakeSleepers 7)), (1, .lockCli), (1, .swap)]

/-- The rest of that spawn ends as a whole spawn would. -/
theorem locked_bodies_atomic_halfSpawned :
    ∃ s : LockSys (Fin 2) (Sched 1 2) (Script (Sched 1 2)), s.locked = true ∧
      (s.data.tasks (.slot 0)).state = .ready ∧ (s.data.tasks (.slot 0)).kind = .idle ∧
      ∃ base, Reaches BodyStep twoIdleCpus base ∧ ∀ cpu l, Inside (s.cpus cpu) l →
        ∃ call, l.effect s.data = lockedBody base (callEvent cpu call) := by
  have hrun : halfSpawned.map (fun s => (s.locked, (s.data.tasks (.slot 0)).state,
      (s.data.tasks (.slot 0)).kind)) = some (true, .ready, .idle) := by decide
  obtain ⟨s, hs, hfacts⟩ := Option.map_eq_some_iff.mp hrun
  simp only [Prod.mk.injEq] at hfacts
  have hreach : Reachable (· = lockStart twoIdleCpus) LockedStep s :=
    ⟨_, rfl, reaches_of_runEvents hs⟩
  obtain ⟨base, hbase, -, hbusy⟩ := locked_bodies_atomic rfl hreach
  refine ⟨s, hfacts.1, hfacts.2.1, hfacts.2.2, base, hbase, fun cpu l hin => ?_⟩
  obtain ⟨call, -, heffect⟩ := hbusy cpu l hin
  exact ⟨call, heffect⟩

/-- **A CPU that wants the run queue gets it.**  In every reachable state, steps of a single CPU,
the one that holds the lock, let a spinning CPU in: no interrupt, and no CPU that waits, can keep
the holder from finishing. -/
theorem run_queue_lock_progress {s₀ : Sched T C}
    {s : LockSys (Fin C) (Sched T C) (Script (Sched T C))}
    (h : Reachable (· = lockStart s₀) LockedStep s) {cpu : Fin C} {l : Script (Sched T C)}
    {saves : List Bool} (htop : (s.cpus cpu).top = some ⟨.spinning l, saves⟩) :
    ∃ q s₁ s₂, Reaches (StepOf Script.code (fun cpu call => SchedCall.script cpu call) q) s s₁ ∧
      LockedStep s₁ (cpu, .swap) s₂ ∧ (s₂.cpus cpu).top = some ⟨.inside l, saves⟩ :=
  spinner_enters (fun cpu call d => ⟨_, Script.code_ends (call.script cpu) d⟩) h htop

/-- The flags that a CPU at the swap has saved. -/
def savesAtSwap {Λ : Type*} (c : LockCpu Λ) : Option (List Bool) :=
  match c.top with
  | some ⟨.spinning _, saves⟩ => some saves
  | _ => none

/-- Above, the handler of CPU 1 is let in. -/
theorem run_queue_lock_progress_halfSpawned :
    ∃ (s : LockSys (Fin 2) (Sched 1 2) (Script (Sched 1 2))) (l : Script (Sched 1 2)),
      s.locked = true ∧ ∃ q s₁ s₂,
        Reaches (StepOf Script.code (fun cpu call => SchedCall.script cpu call) q) s s₁ ∧
        LockedStep s₁ (1, .swap) s₂ ∧ (s₂.cpus 1).top = some ⟨.inside l, [false]⟩ := by
  have hrun : halfSpawned.map (fun s => (s.locked, savesAtSwap (s.cpus 1))) =
      some (true, some [false]) := by decide
  obtain ⟨s, hs, hfacts⟩ := Option.map_eq_some_iff.mp hrun
  obtain ⟨hlocked, hspin⟩ := Prod.mk.inj hfacts
  have hreach : Reachable (· = lockStart twoIdleCpus) LockedStep s :=
    ⟨_, rfl, reaches_of_runEvents hs⟩
  unfold savesAtSwap at hspin
  split at hspin
  · rename_i l saves htop
    cases hspin
    exact ⟨s, l, hlocked, run_queue_lock_progress hreach htop⟩
  · cases hspin

end Pinx.Analysis
