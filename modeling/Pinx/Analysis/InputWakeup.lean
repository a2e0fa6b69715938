import Pinx.Analysis.KeyDelivery
import Pinx.Analysis.RunQueue

/-!
# Input wake-ups

A blocking `read_events` drains the ring, finds it empty, parks its task and
reschedules; a key interrupt pushes the key and then wakes the waiters.  The
emptiness check and the parking are separate critical sections, so a whole key
interrupt fits between them: the key is in the ring and its reader sleeps
(`key_arrives_before_parking`).

In runs where the last waker finds no reader between the two, no wake-up is lost.
-/

namespace Pinx.Analysis

open Pinx.Foundation Pinx.Model

variable {T C : ℕ}

/-! ## Readers and key interrupts -/

/-- Where a CPU is between the locked bodies of a `read_events` or a key interrupt. -/
inductive InputPhase where
  /-- in neither -/
  | free
  /-- `sys_event_read` has found the ring empty; the task is about to be parked -/
  | drained
  /-- the key is pushed; the waiters are about to be woken -/
  | pushed
deriving DecidableEq, Repr

/-- The scheduler, the ring and the CPUs' phases. -/
structure InputSys (T C : ℕ) where
  sys : SchedSys T C
  ring : KeyRing
  phase : Fin C → InputPhase

/-- `read` is a blocking `read_events` with room for `max` events up to its check, and
`keyIrq` a key interrupt up to its push; a scancode that translates to no key
pushes none. -/
inductive InputEvent (C : ℕ) where
  | read (cpu : Fin C) (max : ℕ)
  | block (cpu : Fin C)
  | keyIrq (cpu : Fin C) (key : Option UInt8)
  | wake (cpu : Fin C)
  | other (e : SchedEvent C)

/-- The CPU of a scheduler step that belongs to neither a reader nor a key interrupt. -/
def SchedEvent.otherCpu : SchedEvent C → Option (Fin C)
  | .initCpu cpu => some cpu
  | .spawn cpu _ => some cpu
  | .exit cpu => some cpu
  | .blockUntil cpu _ => some cpu
  | .blockInput _ => none
  | .wakeSleepers cpu _ => some cpu
  | .wakeInput _ => none
  | .schedule cpu _ => some cpu

/-- Leave `cpu` in a phase, its scheduler step taken. -/
def InputSys.advance (s : InputSys T C) (cpu : Fin C) (phase : InputPhase)
    (sys : Option (SchedSys T C)) : Option (InputSys T C) :=
  sys.map fun sys => { s with sys := sys, phase := Function.update s.phase cpu phase }

/-- One step of one CPU; interrupts are off inside a syscall or an interrupt, so a CPU
finishes one before it begins another.  The keyboard's tables translate no
scancode to `KEY_NONE`.
SOURCE: syscall.rs:67-86, 280-308, interrupts.rs:52-59 -/
def InputSys.exec (s : InputSys T C) : InputEvent C → Option (InputSys T C)
  | .read cpu max =>
    if s.phase cpu = .free ∧ s.sys.owes cpu = false ∧ 0 < max then
      let (codes, ring) := s.ring.readEvents max
      if codes = [] then
        some { s with ring := ring, phase := Function.update s.phase cpu .drained }
      else some { s with ring := ring }
    else none
  | .block cpu =>
    if s.phase cpu = .drained then s.advance cpu .free (s.sys.exec (.blockInput cpu)) else none
  | .keyIrq cpu key =>
    if s.phase cpu = .free ∧ s.sys.owes cpu = false ∧ key ≠ some keyNone then
      some { s with
        ring := (key.map s.ring.bufferPush).getD s.ring
        phase := Function.update s.phase cpu .pushed }
    else none
  | .wake cpu =>
    if s.phase cpu = .pushed then s.advance cpu .free (s.sys.exec (.wakeInput cpu)) else none
  | .other e =>
    match SchedEvent.otherCpu e with
    | some cpu => if s.phase cpu = .free then s.advance cpu .free (s.sys.exec e) else none
    | none => none

/-- The start of a run: the scheduler's, with the ring as `keyboard::init` leaves it. -/
def InputStart (s : InputSys T C) : Prop :=
  SchedStart s.sys ∧ s.ring = KeyRing.empty ∧ s.phase = fun _ => .free

/-- One step of the interleaving. -/
def InputStep (s : InputSys T C) (e : InputEvent C) (s' : InputSys T C) : Prop :=
  s.exec e = some s'

/-- A key waits in the ring for a sleeping reader, and no key interrupt is under way to
wake it.  The reader found the ring empty, so the key was pushed since. -/
def LostWakeup (s : InputSys T C) : Prop :=
  (∀ c, s.phase c ≠ .pushed) ∧ (∃ i, Sched.inputWaiter (s.sys.sched.tasks (.slot i)) = true) ∧
    s.ring.hasInput = true

/-- A waker that finds a key in the ring finds no reader between its check and its
parking, unless another key interrupt still has to wake. -/
def WakesAll (s : InputSys T C) : InputEvent C → Prop
  | .wake cpu => s.ring.hasInput = true → (∀ c, s.phase c ≠ .drained) ∨
      ∃ c ≠ cpu, s.phase c = .pushed
  | _ => True

instance (s : InputSys T C) : (e : InputEvent C) → Decidable (WakesAll s e)
  | .wake cpu => inferInstanceAs (Decidable (s.ring.hasInput = true →
      (∀ c, s.phase c ≠ .drained) ∨ ∃ c ≠ cpu, s.phase c = .pushed))
  | .read _ _ => .isTrue trivial
  | .block _ => .isTrue trivial
  | .keyIrq _ _ => .isTrue trivial
  | .other _ => .isTrue trivial

/-- One step whose waker, if it is one, meets the condition. -/
def InputStepAll (s : InputSys T C) (e : InputEvent C) (s' : InputSys T C) : Prop :=
  InputStep s e s' ∧ WakesAll s e

/-! ## Who waits for input -/

theorem inputWaiter_iff (t : Task) :
    Sched.inputWaiter t = true ↔ t.state = .blocked ∧ t.waitInput = true := by
  simp [Sched.inputWaiter]

/-- A pass parks no task. -/
theorem waiter_schedule {s : Sched T C} {cpu : Fin C} {frame : ℕ} {i : Fin T}
    (h : Sched.inputWaiter ((s.schedule cpu frame).1.tasks (.slot i)) = true) :
    Sched.inputWaiter (s.tasks (.slot i)) = true := by
  by_cases hup : s.initialized = true
  · obtain ⟨next, hp⟩ := schedule_pass hup cpu frame
    rw [inputWaiter_iff] at h ⊢
    rw [(hp.kept _).waitInput] at h
    refine ⟨?_, h.2⟩
    have hpub : ((s.publish cpu).tasks (.slot i)).state = .blocked := by
      by_cases hne : TaskRef.slot i = next
      · obtain hrun | ⟨-, -, hstate⟩ := hp.chosen
        · rw [hne, hrun] at h
          cases h.1
        · rw [hne, ← hstate, ← hne, h.1]
      · rw [← hp.others _ hne, h.1]
    rw [state_publish] at hpub
    split at hpub
    · cases hpub
    · exact hpub
  · simpa [Sched.schedule, hup] using h

/-- Only `block_current_input` makes a task wait for input. -/
theorem waiter_exec {s s' : SchedSys T C} {e : SchedEvent C} {cpu : Fin C} {i : Fin T}
    (he : e.otherCpu = some cpu) (hexec : s.exec e = some s')
    (h : Sched.inputWaiter (s'.sched.tasks (.slot i)) = true) :
    Sched.inputWaiter (s.sched.tasks (.slot i)) = true := by
  cases e with
  | blockInput | wakeInput => cases he
  | initCpu c =>
    simp only [SchedSys.exec] at hexec
    split at hexec
    · rw [SchedSys.sched_of_then (Or.inl hexec)] at h
      simpa [Sched.initCpu, tasks_modify] using h
    · cases hexec
  | spawn c stack =>
    rw [SchedSys.sched_of_then (Or.inl hexec)] at h
    unfold Sched.spawnUser at h
    split at h
    · simp only [tasks_modify] at h
      split at h
      · simp [Sched.inputWaiter] at h
      · exact h
    · exact h
  | exit c =>
    rw [SchedSys.sched_of_then (Or.inr hexec), Sched.markCurrentDead, tasks_modifyOpt] at h
    split at h
    · simp [Sched.inputWaiter] at h
    · exact h
  | blockUntil c wakeTick =>
    rw [SchedSys.sched_of_then (Or.inr hexec), Sched.blockCurrentUntil, tasks_modifyOpt] at h
    split at h
    · simp [Sched.inputWaiter] at h
    · exact h
  | wakeSleepers c now =>
    rw [SchedSys.sched_of_then (Or.inr hexec)] at h
    simp only [Sched.wakeSleepers] at h
    split at h
    · simp [Sched.inputWaiter] at h
    · exact h
  | schedule c frame =>
    cases hexec
    exact waiter_schedule h

/-- After `wake_input_waiters` no task waits for input. -/
theorem no_waiter_woken (s : Sched T C) (i : Fin T) :
    Sched.inputWaiter (s.wakeInputWaiters.tasks (.slot i)) = false := by
  simp only [Sched.wakeInputWaiters]
  split
  · simp [Sched.inputWaiter]
  · exact Bool.not_eq_true _ ▸ ‹_›

/-! ## No wake-up is lost -/

/-- What holds between two steps: a key in the ring is announced by a waker that is
still to come, or nobody waits or is about to wait. -/
structure InputInv (s : InputSys T C) : Prop where
  keys : keyNone ∉ contents s.ring
  awake : s.ring.hasInput = true → (∃ c, s.phase c = .pushed) ∨
    (∀ i, Sched.inputWaiter (s.sys.sched.tasks (.slot i)) = false) ∧ ∀ c, s.phase c ≠ .drained

theorem InputInv.not_lost {s : InputSys T C} (h : InputInv s) : ¬LostWakeup s := by
  rintro ⟨hnone, ⟨i, hi⟩, hin⟩
  obtain ⟨c, hc⟩ | ⟨hno, -⟩ := h.awake hin
  · exact hnone c hc
  · rw [hno i] at hi
    cases hi

theorem advance_eq {s s' : InputSys T C} {cpu : Fin C} {phase : InputPhase}
    {sys : Option (SchedSys T C)} (h : s.advance cpu phase sys = some s') :
    ∃ sys', sys = some sys' ∧
      s' = { s with sys := sys', phase := Function.update s.phase cpu phase } := by
  obtain ⟨sys', hsys, heq⟩ := Option.map_eq_some_iff.mp h
  exact ⟨sys', hsys, heq.symm⟩

/-- A phase that only one CPU leaves is kept by the others. -/
theorem pushed_update {phase : Fin C → InputPhase} {cpu c : Fin C} {p : InputPhase}
    (hc : phase c = .pushed) (hcpu : phase cpu ≠ .pushed) :
    Function.update phase cpu p c = .pushed := by
  rw [Function.update_of_ne, hc]
  rintro rfl
  exact hcpu hc

/-- **Step lemma.** -/
theorem InputInv.step {s s' : InputSys T C} {e : InputEvent C} (h : InputInv s)
    (hstep : InputStepAll s e s') : InputInv s' := by
  obtain ⟨hexec, hall⟩ := hstep
  cases e with
  | read cpu max =>
    simp only [InputStep, InputSys.exec] at hexec
    split at hexec
    · rename_i hguard
      have hsplit := contents_readEvents max h.keys
      have hkeys : keyNone ∉ contents (s.ring.readEvents max).2 := by
        intro hmem
        exact h.keys (hsplit ▸ List.mem_append_right _ hmem)
      split at hexec
      · rename_i hnil
        -- the check: the ring is empty
        cases hexec
        refine ⟨hkeys, fun hin => absurd hin ?_⟩
        rw [empty_of_readEvents h.keys hguard.2.2 hnil, hnil, List.nil_append] at hsplit
        rw [hasInput_iff]
        exact not_not.mpr hsplit.symm
      · cases hexec
        refine ⟨hkeys, fun hin => h.awake ?_⟩
        rw [hasInput_iff] at hin ⊢
        rw [hsplit]
        exact List.append_ne_nil_of_right_ne_nil _ hin
    · cases hexec
  | block cpu =>
    simp only [InputStep, InputSys.exec] at hexec
    split at hexec
    · rename_i hphase
      obtain ⟨sys', -, rfl⟩ := advance_eq hexec
      refine ⟨h.keys, fun hin => Or.inl ?_⟩
      obtain ⟨c, hc⟩ | ⟨-, hno⟩ := h.awake hin
      · exact ⟨c, pushed_update hc (by simp [hphase])⟩
      · exact absurd hphase (hno cpu)
    · cases hexec
  | keyIrq cpu key =>
    simp only [InputStep, InputSys.exec] at hexec
    split at hexec
    · rename_i hguard
      cases hexec
      refine ⟨?_, fun _ => Or.inl ⟨cpu, Function.update_self _ _ _⟩⟩
      cases key with
      | none => exact h.keys
      | some k =>
        have hk : keyNone ≠ k := fun heq => hguard.2.2 (by rw [heq])
        simp only [Option.map_some, Option.getD_some, contents_bufferPush]
        split
        · simp [h.keys, hk]
        · exact h.keys
    · cases hexec
  | wake cpu =>
    simp only [InputStep, InputSys.exec] at hexec
    split at hexec
    · obtain ⟨sys', hsys, rfl⟩ := advance_eq hexec
      refine ⟨h.keys, fun hin => ?_⟩
      obtain hno | ⟨c, hne, hc⟩ := hall hin
      · refine Or.inr ⟨fun i => ?_, fun c => ?_⟩
        · simp only [SchedSys.exec, SchedSys.thenReturn] at hsys
          split at hsys
          · cases hsys
          · cases hsys
            exact no_waiter_woken _ i
        · dsimp only
          rw [Function.update_apply]
          split
          · rintro ⟨⟩
          · exact hno c
      · exact Or.inl ⟨c, (Function.update_of_ne hne _ _).trans hc⟩
    · cases hexec
  | other e =>
    simp only [InputStep, InputSys.exec] at hexec
    split at hexec
    · rename_i cpu hcpu
      split at hexec
      · rename_i hphase
        obtain ⟨sys', hsys, rfl⟩ := advance_eq hexec
        have hsame : Function.update s.phase cpu .free = s.phase :=
          Function.update_eq_self_iff.mpr hphase.symm
        refine ⟨h.keys, fun hin => ?_⟩
        simp only [hsame]
        refine (h.awake hin).imp_right fun hno => ⟨fun i => ?_, hno.2⟩
        by_contra hwait
        rw [Bool.not_eq_false] at hwait
        have := waiter_exec hcpu hsys hwait
        rw [hno.1 i] at this
        cases this
      · cases hexec
    · cases hexec

/-- **No wake-up is lost.**  In every interleaving of readers and key interrupts in which
each waker meets the condition, no key waits in the ring for a sleeping reader
without a key interrupt under way. -/
theorem no_lost_wakeup {s : InputSys T C} (h : Reachable InputStart InputStepAll s) :
    ¬LostWakeup s := by
  refine (h.invariant (I := InputInv) ?_ fun _ _ _ hinv hstep => hinv.step hstep).not_lost
  rintro s ⟨-, hring, -⟩
  have hempty : contents s.ring = [] := by
    rw [hring]
    rfl
  refine ⟨by simp [hempty], fun hin => ?_⟩
  rw [hasInput_iff] at hin
  exact absurd hempty hin

/-- Two CPUs after boot. -/
def inputBoot : InputSys 1 2 :=
  ⟨⟨Sched.initGlobal 2 (fun _ => 0) (fun _ => 0), fun _ => false⟩, KeyRing.empty, fun _ => .free⟩

theorem inputBoot_start : InputStart inputBoot :=
  ⟨⟨2, _, _, rfl⟩, rfl, rfl⟩

/-- A reader parks on CPU 0 and leaves it; then a key arrives on CPU 1. -/
def keyAfterParking : Option (InputSys 1 2) :=
  runEvents (fun s e => if WakesAll s e then s.exec e else none) inputBoot
    [.other (.initCpu 0), .other (.initCpu 1), .other (.spawn 0 4096), .other (.schedule 0 1000),
      .read 0 1, .block 0, .other (.schedule 0 1100), .keyIrq 1 (some 97), .wake 1]

/-- The key is in the ring and the reader is awake. -/
theorem no_lost_wakeup_key_after_parking :
    ∃ s : InputSys 1 2, Reachable InputStart InputStepAll s ∧ s.ring.hasInput = true ∧
      ¬LostWakeup s := by
  have hrun : keyAfterParking.map (fun s => s.ring.hasInput) = some true := by decide
  obtain ⟨s, hs, hin⟩ := Option.map_eq_some_iff.mp hrun
  have hreach : Reachable InputStart InputStepAll s := by
    refine ⟨_, inputBoot_start, (reaches_of_runEvents hs).mono fun a e b hab => ?_⟩
    split at hab
    · exact ⟨hab, ‹_›⟩
    · cases hab
  exact ⟨s, hreach, hin, no_lost_wakeup hreach⟩

/-- A reader finds the ring empty on CPU 0; a whole key interrupt runs on CPU 1; then the
reader parks. -/
def keyBeforeParking : Option (InputSys 1 2) :=
  runEvents InputSys.exec inputBoot
    [.other (.initCpu 0), .other (.initCpu 1), .other (.spawn 0 4096), .other (.schedule 0 1000),
      .read 0 1, .keyIrq 1 (some 97), .wake 1, .block 0]

/-- **A wake-up is lost.** -/
theorem key_arrives_before_parking :
    ∃ s : InputSys 1 2, Reachable InputStart InputStep s ∧ LostWakeup s := by
  have hrun : keyBeforeParking.map (fun s => (decide (∀ c, s.phase c ≠ .pushed),
      Sched.inputWaiter (s.sys.sched.tasks (.slot 0)), s.ring.hasInput)) =
      some (true, true, true) := by decide
  obtain ⟨s, hs, hfacts⟩ := Option.map_eq_some_iff.mp hrun
  simp only [Prod.mk.injEq, decide_eq_true_eq] at hfacts
  exact ⟨s, ⟨_, inputBoot_start, reaches_of_runEvents hs⟩, hfacts.1, ⟨0, hfacts.2.1⟩, hfacts.2.2⟩

end Pinx.Analysis
