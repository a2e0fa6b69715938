import Pinx.Foundation.Transition
import Pinx.Model.Scheduler

/-!
# One CPU per task under fine interleaving

Every body the scheduler runs under `RUNQ` is one atomic step of one CPU.  A CPU
that has parked or retired its current task, or that has woken sleepers in the
timer interrupt, owes a call of `schedule`: `owes` keeps the program order of
`dispatch` and `irq_common_handler`, and between the two steps every other CPU
may take steps of its own.

The lock is free between `block_current_*` and the `schedule` that follows, so a
waker on another CPU can make the parked task `Ready` while its own CPU still
runs on it, and a third pass then picks it (`parked_task_runs_twice`).  In runs
where no waker hits that gap the invariant `SchedInv` holds: a `Ready` task is
current nowhere.
-/

namespace Pinx.Analysis

open Pinx.Foundation Pinx.Model

variable {T C : ℕ}

/-- The scheduler and the CPUs that owe a call of `schedule`. -/
structure SchedSys (T C : ℕ) where
  sched : Sched T C
  owes : Fin C → Bool

/-- The locked bodies, with the CPU that runs them. -/
inductive SchedEvent (C : ℕ) where
  | initCpu (cpu : Fin C)
  | spawn (cpu : Fin C) (stack : ℕ)
  | exit (cpu : Fin C)
  | blockUntil (cpu : Fin C) (wakeTick : ℕ)
  | blockInput (cpu : Fin C)
  | wakeSleepers (cpu : Fin C) (now : ℕ)
  | wakeInput (cpu : Fin C)
  | schedule (cpu : Fin C) (frame : ℕ)

/-- A body that `schedule` must follow on the same CPU. -/
def SchedSys.thenSchedule (s : SchedSys T C) (cpu : Fin C) (next : Sched T C) :
    Option (SchedSys T C) :=
  if s.owes cpu then none else some ⟨next, Function.update s.owes cpu true⟩

/-- A body after which the CPU is free to do anything. -/
def SchedSys.thenReturn (s : SchedSys T C) (cpu : Fin C) (next : Sched T C) :
    Option (SchedSys T C) :=
  if s.owes cpu then none else some ⟨next, s.owes⟩

theorem SchedSys.sched_of_then {s s' : SchedSys T C} {cpu : Fin C} {next : Sched T C}
    (h : s.thenReturn cpu next = some s' ∨ s.thenSchedule cpu next = some s') :
    s'.sched = next := by
  obtain heq | heq := h
  · unfold SchedSys.thenReturn at heq
    split at heq <;> cases heq
    rfl
  · unfold SchedSys.thenSchedule at heq
    split at heq <;> cases heq
    rfl

/-- One step of one CPU; `none` when its program order does not allow it.
SOURCE: syscall.rs:43-105, interrupts.rs:43-59 -/
def SchedSys.exec (s : SchedSys T C) : SchedEvent C → Option (SchedSys T C)
  | .initCpu cpu =>
    if s.sched.current cpu = none then s.thenReturn cpu (s.sched.initCpu cpu) else none
  | .spawn cpu stack => s.thenReturn cpu (s.sched.spawnUser stack).1
  | .exit cpu => s.thenSchedule cpu (s.sched.markCurrentDead cpu)
  | .blockUntil cpu wakeTick => s.thenSchedule cpu (s.sched.blockCurrentUntil cpu wakeTick)
  | .blockInput cpu => s.thenSchedule cpu (s.sched.blockCurrentInput cpu)
  | .wakeSleepers cpu now => s.thenSchedule cpu (s.sched.wakeSleepers now)
  | .wakeInput cpu => s.thenReturn cpu s.sched.wakeInputWaiters
  | .schedule cpu frame =>
    some ⟨(s.sched.schedule cpu frame).1, Function.update s.owes cpu false⟩

/-- The start of a run: `init_global` has finished and no CPU owes anything. -/
def SchedStart (s : SchedSys T C) : Prop :=
  ∃ cpuCount kstackTop rsp0, s = ⟨Sched.initGlobal cpuCount kstackTop rsp0, fun _ => false⟩

/-- One step of the interleaving. -/
def SchedStep (s : SchedSys T C) (e : SchedEvent C) (s' : SchedSys T C) : Prop :=
  s.exec e = some s'

/-- The tasks an event makes runnable. -/
def wakes (s : Sched T C) : SchedEvent C → Fin T → Bool
  | .wakeSleepers _ now, i => Sched.sleeperDue now (s.tasks (.slot i))
  | .wakeInput _, i => Sched.inputWaiter (s.tasks (.slot i))
  | _, _ => false

/-- The event wakes no task that is still the current task of a CPU, that is, no task
whose CPU is between `block_current_*` and `schedule`. -/
def WakesOnlyLeft (s : SchedSys T C) (e : SchedEvent C) : Prop :=
  ∀ i cpu, wakes s.sched e i = true → s.sched.current cpu ≠ some (.slot i)

instance (s : SchedSys T C) (e : SchedEvent C) : Decidable (WakesOnlyLeft s e) :=
  inferInstanceAs (Decidable (∀ i cpu, wakes s.sched e i = true →
    s.sched.current cpu ≠ some (.slot i)))

/-- One step of the interleaving that does not hit the gap. -/
def SchedStepLeft (s : SchedSys T C) (e : SchedEvent C) (s' : SchedSys T C) : Prop :=
  SchedStep s e s' ∧ WakesOnlyLeft s e

/-! ## A waker in the gap -/

/-- CPU 0 starts the only task and parks it for input; the key arrives on CPU 1 before
CPU 0 has called `schedule`. -/
def parkedThenWoken : Option (SchedSys 1 2) :=
  runEvents SchedSys.exec ⟨Sched.initGlobal 2 (fun _ => 0) (fun _ => 0), fun _ => false⟩
    [.initCpu 0, .initCpu 1, .spawn 0 4096, .schedule 0 1000, .blockInput 0, .wakeInput 1]

/-- **A parked task is resumed while its CPU still runs on it.**  In the state above
CPU 1's `schedule` returns the frame of the task that is current on CPU 0, and
leaves it current on both. -/
theorem parked_task_runs_twice :
    ∃ s : SchedSys 1 2, Reachable SchedStart SchedStep s ∧
      s.sched.current 0 = some (.slot 0) ∧
      (s.sched.schedule 1 2000).1.current 0 = some (.slot 0) ∧
      (s.sched.schedule 1 2000).1.current 1 = some (.slot 0) ∧
      (s.sched.schedule 1 2000).2 = (s.sched.tasks (.slot 0)).frame := by
  have hrun : parkedThenWoken.isSome = true := by decide
  obtain ⟨s, hs⟩ := Option.isSome_iff_exists.mp hrun
  have hfacts : parkedThenWoken.map (fun s => (s.sched.current 0,
      (s.sched.schedule 1 2000).1.current 0, (s.sched.schedule 1 2000).1.current 1,
      decide ((s.sched.schedule 1 2000).2 = (s.sched.tasks (.slot 0)).frame))) =
      some (some (.slot 0), some (.slot 0), some (.slot 0), true) := by decide
  simp only [hs, Option.map_some, Option.some.injEq, Prod.mk.injEq, decide_eq_true_eq] at hfacts
  exact ⟨s, ⟨_, ⟨2, _, _, rfl⟩, reaches_of_runEvents hs⟩, hfacts⟩

/-! ## The invariant of runs without such a waker -/

/-- What holds between two locked bodies. -/
structure SchedInv (s : Sched T C) : Prop where
  up : s.initialized = true
  excl : ∀ c c' i, s.current c = some (.slot i) → s.current c' = some (.slot i) → c = c'
  current_state : ∀ c i, s.current c = some (.slot i) →
    (s.tasks (.slot i)).state ≠ .ready ∧ (s.tasks (.slot i)).state ≠ .unused
  deferred_slot : ∀ c t, s.deferred c = some t → ∃ i, t = .slot i
  deferred_running : ∀ c t, s.deferred c = some t → (s.tasks t).state = .running
  deferred_left : ∀ c t, s.deferred c = some t → ∀ c', s.current c' ≠ some t
  deferred_excl : ∀ c c' t, s.deferred c = some t → s.deferred c' = some t → c = c'
  idle_own : ∀ c c', s.current c = some (.idle c') → c' = c
  idle_kind : ∀ c, (s.tasks (.idle c)).kind = .idle

variable {s s' : Sched T C}

theorem tasks_modify (s : Sched T C) (t u : TaskRef T C) (f : Task → Task) :
    (s.modify t f).tasks u = if u = t then f (s.tasks t) else s.tasks u := by
  simp only [Sched.modify, Function.update_apply]

/-- A body that only edits tasks keeps the invariant if it keeps the kinds of the idle
tasks, makes no current task `Ready` or `Unused`, and leaves deferred tasks
`Running`. -/
theorem SchedInv.of_tasks (h : SchedInv s) (hup : s'.initialized = s.initialized)
    (hcur : s'.current = s.current)
    (hdef : s'.deferred = s.deferred) (hkind : ∀ c, (s'.tasks (.idle c)).kind = .idle)
    (hstate : ∀ c i, s.current c = some (.slot i) →
      (s'.tasks (.slot i)).state ≠ .ready ∧ (s'.tasks (.slot i)).state ≠ .unused)
    (hrunning : ∀ c t, s.deferred c = some t → (s'.tasks t).state = .running) :
    SchedInv s' where
  up := hup.trans h.up
  excl := by rw [hcur]; exact h.excl
  current_state := by rw [hcur]; exact hstate
  deferred_slot := by rw [hdef]; exact h.deferred_slot
  deferred_running := by rw [hdef]; exact hrunning
  deferred_left := by rw [hdef, hcur]; exact h.deferred_left
  deferred_excl := by rw [hdef]; exact h.deferred_excl
  idle_own := by rw [hcur]; exact h.idle_own
  idle_kind := hkind

/-- A task that is current or deferred somewhere is neither `Ready` nor `Unused`. -/
theorem SchedInv.held_state (h : SchedInv s) {i : Fin T}
    (hheld : (∃ c, s.current c = some (.slot i)) ∨ ∃ c, s.deferred c = some (.slot i)) :
    (s.tasks (.slot i)).state ≠ .ready ∧ (s.tasks (.slot i)).state ≠ .unused := by
  obtain ⟨c, hc⟩ | ⟨c, hc⟩ := hheld
  · exact h.current_state c i hc
  · simp [h.deferred_running c _ hc]

theorem schedInv_init (cpuCount : ℕ) (kstackTop rsp0 : Fin C → ℕ) :
    SchedInv (Sched.initGlobal cpuCount kstackTop rsp0 : Sched T C) where
  up := rfl
  excl := by simp [Sched.initGlobal]
  current_state := by simp [Sched.initGlobal]
  deferred_slot := by simp [Sched.initGlobal]
  deferred_running := by simp [Sched.initGlobal]
  deferred_left := by simp [Sched.initGlobal]
  deferred_excl := by simp [Sched.initGlobal]
  idle_own := by simp [Sched.initGlobal]
  idle_kind c := by
    simp only [Sched.initGlobal]
    split <;> rfl

/-- `init_cpu` on a CPU that has no current task yet. -/
theorem SchedInv.initCpu (h : SchedInv s) (cpu : Fin C) : SchedInv (s.initCpu cpu) := by
  have hslot : ∀ c i, (s.initCpu cpu).current c = some (.slot i) → s.current c = some (.slot i) := by
    intro c i hc
    simp only [Sched.initCpu, Sched.modify, Function.update_apply] at hc
    split at hc
    · simp at hc
    · exact hc
  have hdef : ∀ c t, (s.initCpu cpu).deferred c = some t → s.deferred c = some t := by
    intro c t hc
    simp only [Sched.initCpu, Sched.modify, Function.update_apply] at hc
    split at hc
    · simp at hc
    · exact hc
  have htask : ∀ i, (s.initCpu cpu).tasks (.slot i) = s.tasks (.slot i) := by
    intro i
    simp [Sched.initCpu, tasks_modify]
  refine ⟨h.up, ?_, ?_, ?_, ?_, ?_, ?_, ?_, ?_⟩
  · exact fun c c' i hc hc' => h.excl c c' i (hslot c i hc) (hslot c' i hc')
  · intro c i hc
    rw [htask]
    exact h.current_state c i (hslot c i hc)
  · exact fun c t hc => h.deferred_slot c t (hdef c t hc)
  · intro c t hc
    obtain ⟨i, rfl⟩ := h.deferred_slot c t (hdef c t hc)
    rw [htask]
    exact h.deferred_running c _ (hdef c _ hc)
  · intro c t hc c' hc'
    obtain ⟨i, rfl⟩ := h.deferred_slot c t (hdef c t hc)
    exact h.deferred_left c _ (hdef c _ hc) c' (hslot c' i hc')
  · exact fun c c' t hc hc' => h.deferred_excl c c' t (hdef c t hc) (hdef c' t hc')
  · intro c c' hc
    simp only [Sched.initCpu, Sched.modify, Function.update_apply] at hc
    split at hc
    · rename_i hcc
      simp only [Option.some.injEq, TaskRef.idle.injEq] at hc
      rw [hcc, hc]
    · exact h.idle_own c c' hc
  · intro c
    simp only [Sched.initCpu, tasks_modify]
    split
    · exact h.idle_kind cpu
    · exact h.idle_kind c

/-- `spawn_user` only takes an `Unused` slot. -/
theorem SchedInv.spawnUser (h : SchedInv s) (stack : ℕ) : SchedInv (s.spawnUser stack).1 := by
  unfold Sched.spawnUser
  cases hfind : (List.finRange T).find? fun i => decide ((s.tasks (.slot i)).state = .unused) with
  | none => exact h
  | some i =>
    have hunused : (s.tasks (.slot i)).state = .unused := by
      have := List.find?_some hfind
      simpa using this
    have hfree : ∀ j, ((∃ c, s.current c = some (.slot j)) ∨ ∃ c, s.deferred c = some (.slot j)) →
        TaskRef.slot j ≠ (TaskRef.slot i : TaskRef T C) := by
      rintro j hj ⟨⟩
      exact (h.held_state hj).2 hunused
    refine h.of_tasks rfl rfl rfl (fun c => ?_) (fun c j hj => ?_) (fun c t ht => ?_)
    · simp [tasks_modify, h.idle_kind]
    · rw [tasks_modify, if_neg (hfree j (Or.inl ⟨c, hj⟩))]
      exact h.current_state c j hj
    · obtain ⟨j, rfl⟩ := h.deferred_slot c t ht
      rw [tasks_modify, if_neg (hfree j (Or.inr ⟨c, ht⟩))]
      exact h.deferred_running c _ ht

/-- An edit of a CPU's current task that neither makes it `Ready` or `Unused` nor
changes its kind. -/
theorem SchedInv.modifyCurrent (h : SchedInv s) (cpu : Fin C) {f : Task → Task}
    (hkind : ∀ t, (f t).kind = t.kind)
    (hstate : ∀ t, t.state ≠ .ready ∧ t.state ≠ .unused →
      (f t).state ≠ .ready ∧ (f t).state ≠ .unused) :
    SchedInv (s.modifyOpt (s.current cpu) f) := by
  cases hcur : s.current cpu with
  | none => exact h
  | some u =>
    refine h.of_tasks rfl rfl rfl (fun c => ?_) (fun c j hj => ?_) (fun c t ht => ?_)
    · simp only [Sched.modifyOpt, tasks_modify]
      split
      · rename_i heq
        rw [hkind, ← heq, h.idle_kind]
      · exact h.idle_kind c
    · simp only [Sched.modifyOpt, tasks_modify]
      split
      · rename_i heq
        subst heq
        exact hstate _ (h.current_state c j hj)
      · exact h.current_state c j hj
    · simp only [Sched.modifyOpt, tasks_modify]
      rw [if_neg]
      · exact h.deferred_running c t ht
      · rintro rfl
        exact h.deferred_left c _ ht cpu hcur

/-- A waker that wakes no current task. -/
theorem SchedInv.wake (h : SchedInv s) (due : Task → Bool) (f : Task → Task)
    (hdue : ∀ t, due t = true → t.state = .blocked)
    (hleft : ∀ i c, due (s.tasks (.slot i)) = true → s.current c ≠ some (.slot i))
    (hs' : s' = { s with tasks := s'.tasks })
    (hslot : ∀ i, s'.tasks (.slot i) =
      if due (s.tasks (.slot i)) then f (s.tasks (.slot i)) else s.tasks (.slot i))
    (hidle : ∀ c, s'.tasks (.idle c) = s.tasks (.idle c)) : SchedInv s' := by
  refine h.of_tasks (by rw [hs']) (by rw [hs']) (by rw [hs']) (fun c => ?_) (fun c i hi => ?_) (fun c t ht => ?_)
  · rw [hidle, h.idle_kind]
  · have hno : ¬due (s.tasks (.slot i)) = true := fun hd => hleft i c hd hi
    rw [hslot, if_neg hno]
    exact h.current_state c i hi
  · obtain ⟨i, rfl⟩ := h.deferred_slot c t ht
    have hrunning := h.deferred_running c _ ht
    have hno : ¬due (s.tasks (.slot i)) = true := by
      intro hd
      rw [hdue _ hd] at hrunning
      cases hrunning
    rw [hslot, if_neg hno]
    exact hrunning

/-- Publishing a deferred task: it is current nowhere. -/
theorem SchedInv.publish (h : SchedInv s) (cpu : Fin C) : SchedInv (s.publish cpu) := by
  unfold Sched.publish
  cases ht : s.deferred cpu with
  | none => exact h
  | some t =>
    have hleft := h.deferred_left cpu t ht
    have hdef : ∀ c u, Function.update s.deferred cpu none c = some u →
        s.deferred c = some u ∧ u ≠ t := by
      intro c u hc
      rw [Function.update_apply] at hc
      split at hc
      · cases hc
      · rename_i hne
        refine ⟨hc, ?_⟩
        rintro rfl
        exact hne (h.deferred_excl c cpu u hc ht)
    refine ⟨h.up, h.excl, ?_, ?_, ?_, ?_, ?_, h.idle_own, ?_⟩
    · intro c i hc
      have hne : TaskRef.slot i ≠ t := by
        rintro rfl
        exact hleft c hc
      simp only [tasks_modify, if_neg hne]
      exact h.current_state c i hc
    · exact fun c u hu => h.deferred_slot c u (hdef c u hu).1
    · intro c u hu
      simp only [tasks_modify, if_neg (hdef c u hu).2]
      exact h.deferred_running c u (hdef c u hu).1
    · exact fun c u hu => h.deferred_left c u (hdef c u hu).1
    · exact fun c c' u hu hu' => h.deferred_excl c c' u (hdef c u hu).1 (hdef c' u hu').1
    · intro c
      obtain ⟨i, rfl⟩ := h.deferred_slot cpu t ht
      simp [tasks_modify, h.idle_kind]

/-- A task that is still `Running` and current on a CPU is a slot of the table. -/
theorem SchedInv.stillRunning_slot (h : SchedInv s) {t : TaskRef T C}
    (hrun : s.stillRunning (some t) = true) :
    (∃ i, t = .slot i) ∧ (s.tasks t).state = .running := by
  simp only [Sched.stillRunning, decide_eq_true_eq] at hrun
  refine ⟨?_, hrun.2⟩
  cases t with
  | slot i => exact ⟨i, rfl⟩
  | idle c =>
    rw [h.idle_kind] at hrun
    cases hrun.1

/-- What a CPU may switch to: a `Ready` task or its own idle task. -/
def Runnable (s : Sched T C) (cpu : Fin C) (next : TaskRef T C) : Prop :=
  (∃ i, next = .slot i ∧ (s.tasks (.slot i)).state = .ready) ∨ next = .idle cpu

theorem Runnable.not_current {cpu : Fin C} {next : TaskRef T C} (hnext : Runnable s cpu next)
    (h : SchedInv s) {c : Fin C} (hc : c ≠ cpu) : s.current c ≠ some next := by
  intro hcur
  obtain ⟨i, rfl, hready⟩ | rfl := hnext
  · exact (h.current_state c i hcur).1 hready
  · exact hc (h.idle_own c cpu hcur).symm

theorem Runnable.not_deferred {cpu : Fin C} {next : TaskRef T C} (hnext : Runnable s cpu next)
    (h : SchedInv s) (c : Fin C) : s.deferred c ≠ some next := by
  intro hdef
  obtain ⟨i, rfl, hready⟩ | rfl := hnext
  · rw [h.deferred_running c _ hdef] at hready
    cases hready
  · obtain ⟨i, hi⟩ := h.deferred_slot c _ hdef
    cases hi

/-- Switching a CPU from its current task to a runnable one. -/
theorem SchedInv.switchTo_of_ne (h : SchedInv s) {cpu : Fin C} {next : TaskRef T C}
    (hnext : Runnable s cpu next) (hne : some next ≠ s.current cpu) :
    SchedInv (s.switchTo cpu (s.current cpu) next).1 := by
  unfold Sched.switchTo
  simp only [if_pos hne]
  -- what is deferred afterwards was deferred before, or is the task just left
  have hdef : ∀ c t,
      (if s.stillRunning (s.current cpu) = true
        then Function.update s.deferred cpu (s.current cpu) else s.deferred) c = some t →
      (∃ i, t = .slot i) ∧ (s.tasks t).state = .running ∧ t ≠ next ∧
        (∀ c' ≠ cpu, s.current c' ≠ some t) ∧
        ((c = cpu ∧ s.current cpu = some t) ∨ s.deferred c = some t) := by
    intro c t ht
    have hsrc : (c = cpu ∧ s.current cpu = some t ∧ s.stillRunning (some t) = true) ∨
        s.deferred c = some t := by
      split at ht
      · rename_i hrun
        rw [Function.update_apply] at ht
        split at ht
        · rename_i hc
          exact Or.inl ⟨hc, ht, ht ▸ hrun⟩
        · exact Or.inr ht
      · exact Or.inr ht
    obtain ⟨hc, hcur, hrun⟩ | hold := hsrc
    · obtain ⟨⟨i, rfl⟩, hstate⟩ := h.stillRunning_slot hrun
      refine ⟨⟨i, rfl⟩, hstate, ?_, ?_, Or.inl ⟨hc, hcur⟩⟩
      · rintro rfl
        exact hne hcur.symm
      · exact fun c' hc' hcur' => hc' (h.excl c' cpu i hcur' hcur)
    · exact ⟨h.deferred_slot c t hold, h.deferred_running c t hold,
        fun heq => hnext.not_deferred h c (heq ▸ hold),
        fun c' _ => h.deferred_left c t hold c', Or.inr hold⟩
  have hcur : ∀ c t, Function.update s.current cpu (some next) c = some t →
      (c = cpu ∧ t = next) ∨ (c ≠ cpu ∧ s.current c = some t ∧ t ≠ next) := by
    intro c t ht
    rw [Function.update_apply] at ht
    split at ht
    · rename_i hc
      exact Or.inl ⟨hc, (Option.some.inj ht).symm⟩
    · rename_i hc
      exact Or.inr ⟨hc, ht, fun heq => hnext.not_current h hc (heq ▸ ht)⟩
  refine ⟨h.up, ?_, ?_, ?_, ?_, ?_, ?_, ?_, ?_⟩
  · intro c c' i hc hc'
    obtain ⟨rfl, hi⟩ | ⟨-, hold, hi⟩ := hcur c _ hc <;>
      obtain ⟨rfl, hi'⟩ | ⟨-, hold', hi'⟩ := hcur c' _ hc'
    · rfl
    · exact absurd hi hi'
    · exact absurd hi' hi
    · exact h.excl c c' i hold hold'
  · intro c i hc
    obtain ⟨-, hi⟩ | ⟨-, hold, hi⟩ := hcur c _ hc
    · simp [tasks_modify, hi]
    · simp only [tasks_modify, if_neg hi]
      exact h.current_state c i hold
  · exact fun c t ht => (hdef c t ht).1
  · intro c t ht
    obtain ⟨-, hstate, hne', -⟩ := hdef c t ht
    simp only [tasks_modify, if_neg hne']
    exact hstate
  · intro c t ht c' hc'
    obtain ⟨-, -, hne', hleft, -⟩ := hdef c t ht
    obtain ⟨-, heq⟩ | ⟨hcc, hold, -⟩ := hcur c' t hc'
    · exact hne' heq
    · exact hleft c' hcc hold
  · intro c c' t ht ht'
    obtain ⟨-, -, -, -, ⟨rfl, hc⟩ | hold⟩ := hdef c t ht <;>
      obtain ⟨-, -, -, -, ⟨rfl, hc'⟩ | hold'⟩ := hdef c' t ht'
    · rfl
    · exact absurd hc (h.deferred_left c' t hold' c)
    · exact absurd hc' (h.deferred_left c t hold c')
    · exact h.deferred_excl c c' t hold hold'
  · intro c c' hc
    obtain ⟨rfl, hi⟩ | ⟨-, hold, -⟩ := hcur c _ hc
    · obtain ⟨i, rfl, -⟩ | rfl := hnext
      · cases hi
      · exact TaskRef.idle.inj hi
    · exact h.idle_own c c' hold
  · intro c
    simp only [tasks_modify]
    split
    · rename_i heq
      rw [← heq]
      exact h.idle_kind c
    · exact h.idle_kind c

@[simp] theorem current_modifyOpt (s : Sched T C) (t : Option (TaskRef T C)) (f : Task → Task) :
    (s.modifyOpt t f).current = s.current := by
  cases t <;> rfl

@[simp] theorem current_publish (s : Sched T C) (cpu : Fin C) :
    (s.publish cpu).current = s.current := by
  unfold Sched.publish
  split <;> rfl

theorem current_switchTo (s : Sched T C) {cpu c : Fin C} (cur : Option (TaskRef T C))
    (next : TaskRef T C) (hc : c ≠ cpu) : (s.switchTo cpu cur next).1.current c = s.current c := by
  simp only [Sched.switchTo, Sched.modify]
  split
  · exact Function.update_of_ne hc _ _
  · rfl

/-- `schedule` leaves the current tasks of the other CPUs alone. -/
theorem current_schedule (s : Sched T C) {cpu c : Fin C} (frame : ℕ) (hc : c ≠ cpu) :
    (s.schedule cpu frame).1.current c = s.current c := by
  unfold Sched.schedule
  split
  · dsimp only
    repeat' split
    all_goals simp [current_switchTo _ _ _ hc]
  · rfl

theorem pick_spec {cur : Option (TaskRef T C)} {next : TaskRef T C} (h : s.pick cur = some next) :
    (∃ i, next = .slot i ∧ (s.tasks (.slot i)).state = .ready) ∧ some next ≠ cur := by
  obtain ⟨i, hi, rfl⟩ := Option.map_eq_some_iff.mp h
  have hprop := List.find?_some hi
  simp only [ne_eq, decide_eq_true_eq] at hprop
  exact ⟨⟨i, rfl, hprop.1⟩, hprop.2⟩

/-- Resuming the task the CPU is on. -/
theorem SchedInv.switchTo_self (h : SchedInv s) {cpu : Fin C} {t : TaskRef T C}
    (ht : s.current cpu = some t) : SchedInv (s.switchTo cpu (some t) t).1 := by
  have hmod := h.modifyCurrent cpu (f := fun t => { t with state := .running, cpu := cpu })
    (fun _ => rfl) (fun _ _ => by simp)
  rw [ht] at hmod
  simpa [Sched.switchTo, Sched.modifyOpt] using hmod

/-- A whole scheduling pass. -/
theorem SchedInv.schedule (h : SchedInv s) (cpu : Fin C) (frame : ℕ) :
    SchedInv (s.schedule cpu frame).1 := by
  unfold Sched.schedule
  split
  case isFalse => exact h
  have hsaved := (h.publish cpu).modifyCurrent cpu (f := fun t => { t with frame := frame })
    (fun _ => rfl) (fun _ ht => ht)
  dsimp only
  have hcur : ((s.publish cpu).modifyOpt ((s.publish cpu).current cpu)
      fun t => { t with frame := frame }).current cpu = (s.publish cpu).current cpu := by
    rw [current_modifyOpt]
  generalize (s.publish cpu).current cpu = cur at hsaved hcur ⊢
  generalize (s.publish cpu).modifyOpt cur (fun t => { t with frame := frame }) = s₂
    at hsaved hcur ⊢
  subst hcur
  split
  · rename_i next hpick
    obtain ⟨hready, hne⟩ := pick_spec hpick
    exact hsaved.switchTo_of_ne (Or.inl hready) hne
  · split
    · rename_i t ht
      rw [ht]
      split
      · exact hsaved.switchTo_self ht
      · split
        · exact hsaved
        · rename_i hkind
          rw [← ht]
          refine hsaved.switchTo_of_ne (Or.inr rfl) ?_
          rw [ht]
          rintro ⟨⟩
          exact hkind (hsaved.idle_kind cpu)
    · rename_i hnone
      refine hsaved.switchTo_of_ne (Or.inr rfl) ?_
      simp [hnone]

/-! ## Whole runs -/

/-- **Step lemma.**  Every locked body that hits no gap keeps the invariant. -/
theorem SchedInv.step {s s' : SchedSys T C} {e : SchedEvent C} (h : SchedInv s.sched)
    (hstep : SchedStepLeft s e s') : SchedInv s'.sched := by
  obtain ⟨hexec, hleft⟩ := hstep
  cases e with
  | initCpu cpu =>
    simp only [SchedStep, SchedSys.exec] at hexec
    split at hexec
    · rw [SchedSys.sched_of_then (Or.inl hexec)]
      exact h.initCpu cpu
    · cases hexec
  | spawn cpu stack =>
    rw [SchedSys.sched_of_then (Or.inl hexec)]
    exact h.spawnUser stack
  | exit cpu =>
    rw [SchedSys.sched_of_then (Or.inr hexec)]
    exact h.modifyCurrent cpu (fun _ => rfl) (fun _ _ => by simp)
  | blockUntil cpu wakeTick =>
    rw [SchedSys.sched_of_then (Or.inr hexec)]
    exact h.modifyCurrent cpu (fun _ => rfl) (fun _ _ => by simp)
  | blockInput cpu =>
    rw [SchedSys.sched_of_then (Or.inr hexec)]
    exact h.modifyCurrent cpu (fun _ => rfl) (fun _ _ => by simp)
  | wakeSleepers cpu now =>
    rw [SchedSys.sched_of_then (Or.inr hexec)]
    exact h.wake (Sched.sleeperDue now)
      (fun t => { t with state := .ready, wakeTick := 0 }) (fun t ht => by
      simp only [Sched.sleeperDue, decide_eq_true_eq] at ht
      exact ht.1) hleft rfl (fun _ => rfl) (fun _ => rfl)
  | wakeInput cpu =>
    rw [SchedSys.sched_of_then (Or.inl hexec)]
    exact h.wake Sched.inputWaiter
      (fun t => { t with state := .ready, waitInput := false }) (fun t ht => by
      simp only [Sched.inputWaiter, decide_eq_true_eq] at ht
      exact ht.1) hleft rfl (fun _ => rfl) (fun _ => rfl)
  | schedule cpu frame =>
    obtain rfl := Option.some.inj hexec
    exact h.schedule cpu frame

/-- **Run lemma.**  The invariant holds throughout every run that hits no gap. -/
theorem schedInv_of_reachable {s : SchedSys T C} (h : Reachable SchedStart SchedStepLeft s) :
    SchedInv s.sched := by
  refine h.invariant (I := fun s => SchedInv s.sched) ?_
    (fun _ _ _ hinv hstep => hinv.step hstep)
  rintro _ ⟨cpuCount, kstackTop, rsp0, rfl⟩
  exact schedInv_init cpuCount kstackTop rsp0

/-- Where a switch leaves its CPU, and the frame it resumes. -/
theorem switchTo_resumes (s : Sched T C) (cpu : Fin C) (next : TaskRef T C) :
    (s.switchTo cpu (s.current cpu) next).1.current cpu = some next ∧
      (s.switchTo cpu (s.current cpu) next).2 =
        ((s.switchTo cpu (s.current cpu) next).1.tasks next).frame := by
  refine ⟨?_, rfl⟩
  simp only [Sched.switchTo, Sched.modify]
  split
  · exact Function.update_self _ _ _
  · rename_i heq
    exact (not_not.mp heq).symm

/-- A scheduling pass leaves its CPU on some task and resumes that task's frame. -/
theorem schedule_resumes (hup : s.initialized = true) (cpu : Fin C) (frame : ℕ) :
    ∃ t, (s.schedule cpu frame).1.current cpu = some t ∧
      (s.schedule cpu frame).2 = ((s.schedule cpu frame).1.tasks t).frame := by
  unfold Sched.schedule
  rw [if_pos hup]
  dsimp only
  generalize hsaved : (s.publish cpu).modifyOpt ((s.publish cpu).current cpu)
      (fun t => { t with frame := frame }) = s₂
  have hcur : (s.publish cpu).current cpu = s₂.current cpu := by
    rw [← hsaved, current_modifyOpt]
  rw [hcur] at hsaved ⊢
  split
  · exact ⟨_, switchTo_resumes s₂ cpu _⟩
  · split
    · rename_i t ht
      split
      · exact ⟨_, switchTo_resumes s₂ cpu t⟩
      · split
        · refine ⟨t, ht, ?_⟩
          rw [ht] at hsaved
          rw [← hsaved]
          simp [Sched.modifyOpt, tasks_modify]
        · exact ⟨_, switchTo_resumes s₂ cpu _⟩
    · exact ⟨_, switchTo_resumes s₂ cpu _⟩

/-- **A task runs on one CPU at a time.**  In every state of every interleaving in which
no waker hits the gap between `block_current_*` and `schedule`, no task of the
table is current on two CPUs.  The second clause adds what is resumed, for idle tasks too: the frame
`schedule` returns is that of the task it leaves current, and no other CPU had that task before. -/
theorem one_cpu_per_task {s : SchedSys T C} (h : Reachable SchedStart SchedStepLeft s) :
    (∀ c c' i, s.sched.current c = some (.slot i) → s.sched.current c' = some (.slot i) →
      c = c') ∧
    (∀ cpu frame, ∃ t, (s.sched.schedule cpu frame).1.current cpu = some t ∧
      (s.sched.schedule cpu frame).2 = ((s.sched.schedule cpu frame).1.tasks t).frame ∧
      ∀ c ≠ cpu, s.sched.current c ≠ some t) := by
  have hinv := schedInv_of_reachable h
  refine ⟨hinv.excl, fun cpu frame => ?_⟩
  obtain ⟨t, hpicked, hframe⟩ := schedule_resumes hinv.up cpu frame
  have hinv' := hinv.schedule cpu frame
  refine ⟨t, hpicked, hframe, fun c hc hcur => hc ?_⟩
  rw [← current_schedule s.sched frame hc] at hcur
  cases t with
  | slot i => exact hinv'.excl c cpu i hcur hpicked
  | idle c' => rw [← hinv'.idle_own c c' hcur, hinv'.idle_own cpu c' hpicked]

/-- A run in which CPU 0 parks its task and calls `schedule` before the key arrives on
CPU 1; it stops at a waker in the gap. -/
def parkedScheduledWoken : Option (SchedSys 1 2) :=
  runEvents (fun s e => if WakesOnlyLeft s e then s.exec e else none)
    ⟨Sched.initGlobal 2 (fun _ => 0) (fun _ => 0), fun _ => false⟩
    [.initCpu 0, .initCpu 1, .spawn 0 4096, .schedule 0 1000, .blockInput 0, .schedule 0 1100,
      .wakeInput 1]

/-- At the end of that run CPU 1 resumes the task, which is current on no other CPU. -/
theorem one_cpu_per_task_after_wake :
    ∃ s : SchedSys 1 2, Reachable SchedStart SchedStepLeft s ∧
      (s.sched.schedule 1 2000).1.current 1 = some (.slot 0) ∧
      s.sched.current 0 ≠ some (.slot 0) := by
  have hrun : parkedScheduledWoken.isSome = true := by decide
  obtain ⟨s, hs⟩ := Option.isSome_iff_exists.mp hrun
  have hpicked : parkedScheduledWoken.map (fun s => (s.sched.schedule 1 2000).1.current 1) =
      some (some (.slot 0)) := by decide
  simp only [hs, Option.map_some, Option.some.injEq] at hpicked
  have hreach : Reachable SchedStart SchedStepLeft s := by
    refine ⟨_, ⟨2, _, _, rfl⟩, (reaches_of_runEvents hs).mono fun a e b hab => ?_⟩
    split at hab
    · exact ⟨hab, ‹_›⟩
    · cases hab
  obtain ⟨t, ht, -, hother⟩ := (one_cpu_per_task hreach).2 1 2000
  rw [hpicked] at ht
  exact ⟨s, hreach, hpicked, Option.some.inj ht ▸ hother 0 (by omega)⟩

end Pinx.Analysis
