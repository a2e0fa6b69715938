import Pinx.Analysis.RunQueue

/-!
# The order of selection on one CPU

`pick` scans the table from slot 0 and skips only the task the CPU is on, and a
preempted task is back in the table at the next pass.  Two low slots therefore
take turns for ever while a third task waits (`third_task_starves`).  The order is
round-robin when at most one task waits for the place of the task the CPU is on.
-/

namespace Pinx.Analysis

open Pinx.Foundation Pinx.Model

variable {T : ℕ} {s s' : SchedSys T 1}

/-- A task that waits for the CPU: `Ready`, or preempted and not yet published. -/
def Waiting (s : SchedSys T 1) (i : Fin T) : Prop :=
  (s.sched.tasks (.slot i)).state = .ready ∨ s.sched.deferred 0 = some (.slot i)

instance (s : SchedSys T 1) (i : Fin T) : Decidable (Waiting s i) :=
  inferInstanceAs (Decidable (_ ∨ _))

/-- The CPU is on a user task and at most one other task waits, or it is on none. -/
def OneWaits (s : SchedSys T 1) : Prop :=
  ∀ i j k, s.sched.current 0 = some (.slot k) → Waiting s i → Waiting s j → i ≠ k → j ≠ k → i = j

instance (s : SchedSys T 1) : Decidable (OneWaits s) :=
  inferInstanceAs (Decidable (∀ i j k, s.sched.current 0 = some (.slot k) → Waiting s i →
    Waiting s j → i ≠ k → j ≠ k → i = j))

/-- A step that is a scheduling pass. -/
def IsPass : SchedEvent 1 → Prop
  | .schedule _ _ => True
  | _ => False

instance : (e : SchedEvent 1) → Decidable (IsPass e)
  | .schedule _ _ => .isTrue trivial
  | .initCpu _ => .isFalse id
  | .spawn _ _ => .isFalse id
  | .exit _ => .isFalse id
  | .blockUntil _ _ => .isFalse id
  | .blockInput _ => .isFalse id
  | .wakeSleepers _ _ => .isFalse id
  | .wakeInput _ => .isFalse id

/-- Step `k` of a run is a pass and selects `t`. -/
def Selects (ss : ℕ → SchedSys T 1) (es : ℕ → SchedEvent 1) (k : ℕ) (t : TaskRef T 1) : Prop :=
  IsPass (es k) ∧ (ss (k + 1)).sched.current 0 = some t

theorem state_ready_of_waiting {i : Fin T} :
    ((s.sched.publish 0).tasks (.slot i)).state = .ready ↔ Waiting s i := by
  rw [state_publish, Waiting]
  by_cases hdef : s.sched.deferred 0 = some (.slot i)
  · simp [hdef]
  · simp [hdef]

/-- A pass that finds the CPU on a user task selects the one task that waits. -/
theorem pass_selects_waiting (hup : s.sched.initialized = true) {i j : Fin T} (hone : OneWaits s)
    (hwait : Waiting s i) (hcur : s.sched.current 0 = some (.slot j)) (hij : i ≠ j) (frame : ℕ) :
    (s.sched.schedule 0 frame).1.current 0 = some (.slot i) := by
  obtain ⟨next, hp⟩ := schedule_pass hup 0 frame
  rw [hp.current, Function.update_self]
  have hfound : ((List.finRange T).find? fun k => decide
      (((s.sched.publish 0).tasks (.slot k)).state = .ready ∧
        some (TaskRef.slot k) ≠ s.sched.current 0)).isSome = true := by
    rw [List.find?_isSome]
    exact ⟨i, List.mem_finRange i, by simp [state_ready_of_waiting, hwait, hcur, hij]⟩
  obtain ⟨k, hk⟩ := Option.isSome_iff_exists.mp hfound
  have hpick : (s.sched.publish 0).pick (s.sched.current 0) = some (.slot k) := by
    unfold Sched.pick
    rw [hk]
    rfl
  have hprop := List.find?_some hk
  simp only [state_ready_of_waiting, hcur, ne_eq, Option.some.injEq, TaskRef.slot.injEq,
    decide_eq_true_eq] at hprop
  have hki : k = i := hone k i j hcur hprop.1 hwait hprop.2 hij
  obtain hchoice | ⟨hnone, -⟩ := hp.choice
  · rw [hpick] at hchoice
    rw [← hchoice, hki]
  · rw [hpick] at hnone
    cases hnone

/-- A step that is no pass leaves the CPU on its task. -/
theorem current_of_not_pass {e : SchedEvent 1} {t : TaskRef T 1} (hstep : SchedStep s e s')
    (he : ¬IsPass e) (hcur : s.sched.current 0 = some t) : s'.sched.current 0 = some t := by
  cases e with
  | schedule cpu frame => exact absurd trivial he
  | initCpu cpu =>
    simp only [SchedStep, SchedSys.exec, Subsingleton.elim cpu 0, hcur, reduceCtorEq,
      if_false] at hstep
  | spawn cpu stack =>
    rw [SchedSys.sched_of_then (Or.inl hstep)]
    unfold Sched.spawnUser
    split <;> exact hcur
  | exit cpu =>
    rw [SchedSys.sched_of_then (Or.inr hstep), Sched.markCurrentDead, current_modifyOpt, hcur]
  | blockUntil cpu wakeTick =>
    rw [SchedSys.sched_of_then (Or.inr hstep), Sched.blockCurrentUntil, current_modifyOpt, hcur]
  | blockInput cpu =>
    rw [SchedSys.sched_of_then (Or.inr hstep), Sched.blockCurrentInput, current_modifyOpt, hcur]
  | wakeSleepers cpu now =>
    rw [SchedSys.sched_of_then (Or.inr hstep)]
    exact hcur
  | wakeInput cpu =>
    rw [SchedSys.sched_of_then (Or.inl hstep)]
    exact hcur

theorem initialized_step {e : SchedEvent 1} (hup : s.sched.initialized = true)
    (hstep : SchedStep s e s') : s'.sched.initialized = true := by
  cases e with
  | initCpu cpu =>
    simp only [SchedStep, SchedSys.exec] at hstep
    split at hstep
    · rw [SchedSys.sched_of_then (Or.inl hstep)]
      exact hup
    · cases hstep
  | spawn cpu stack =>
    rw [SchedSys.sched_of_then (Or.inl hstep)]
    unfold Sched.spawnUser
    split <;> exact hup
  | exit cpu =>
    rw [SchedSys.sched_of_then (Or.inr hstep), Sched.markCurrentDead]
    cases s.sched.current cpu <;> exact hup
  | blockUntil cpu wakeTick =>
    rw [SchedSys.sched_of_then (Or.inr hstep), Sched.blockCurrentUntil]
    cases s.sched.current cpu <;> exact hup
  | blockInput cpu =>
    rw [SchedSys.sched_of_then (Or.inr hstep), Sched.blockCurrentInput]
    cases s.sched.current cpu <;> exact hup
  | wakeSleepers cpu now =>
    rw [SchedSys.sched_of_then (Or.inr hstep)]
    exact hup
  | wakeInput cpu =>
    rw [SchedSys.sched_of_then (Or.inl hstep)]
    exact hup
  | schedule cpu frame =>
    cases hstep
    obtain ⟨next, hp⟩ := schedule_pass hup cpu frame
    exact hp.up.trans hup

theorem initialized_of_reachable (h : Reachable SchedStart SchedStep s) :
    s.sched.initialized = true := by
  refine h.invariant (I := fun s => s.sched.initialized = true) ?_
    fun _ _ _ hup hstep => initialized_step hup hstep
  rintro _ ⟨cpuCount, kstackTop, rsp0, rfl⟩
  rfl

/-- Up to the next pass the CPU stays on the task it was left on. -/
theorem current_until_pass {n p r : ℕ} {ss : ℕ → SchedSys T 1} {es : ℕ → SchedEvent 1}
    {t : TaskRef T 1} (hrun : IsRun SchedStart SchedStep n ss es) (hp : Selects ss es p t)
    (hpr : p < r) (hrn : r ≤ n) (hno : ∀ k, p < k → k < r → ¬IsPass (es k)) :
    (ss r).sched.current 0 = some t := by
  induction r, hpr using Nat.le_induction with
  | base => exact hp.2
  | succ r hpr ih =>
    exact current_of_not_pass (hrun.step r hrn) (hno r hpr (Nat.lt_succ_self r))
      (ih (Nat.le_of_succ_le hrn) fun k hk hkr => hno k hk (Nat.lt_succ_of_lt hkr))

/-- **Round-robin order.**  In a run on one CPU in which every pass that finds it on a user
task finds at most one other task waiting, if a task is selected at two passes, every
other task that waits or runs all the time in between is selected in between. -/
theorem round_robin {n p q : ℕ} {ss : ℕ → SchedSys T 1} {es : ℕ → SchedEvent 1}
    {i j : Fin T} (hrun : IsRun SchedStart SchedStep n ss es)
    (hone : ∀ k < n, IsPass (es k) → OneWaits (ss k)) (hpq : p < q) (hqn : q < n)
    (hp : Selects ss es p (.slot j)) (hq : Selects ss es q (.slot j)) (hij : i ≠ j)
    (hwait : ∀ k, p < k → k ≤ q → Waiting (ss k) i ∨ (ss k).sched.current 0 = some (.slot i)) :
    ∃ r, p < r ∧ r < q ∧ Selects ss es r (.slot i) := by
  classical
  -- the first pass after `p`
  have hex : ∃ r, p < r ∧ IsPass (es r) := ⟨q, hpq, hq.1⟩
  obtain ⟨hpr, hpass⟩ := Nat.find_spec hex
  have hrq : Nat.find hex ≤ q := Nat.find_min' hex ⟨hpq, hq.1⟩
  have hno : ∀ k, p < k → k < Nat.find hex → ¬IsPass (es k) :=
    fun k hpk hkr hpass' => Nat.find_min hex hkr ⟨hpk, hpass'⟩
  generalize Nat.find hex = r at hpr hpass hrq hno
  have hrn : r < n := lt_of_le_of_lt hrq hqn
  have hcur : (ss r).sched.current 0 = some (.slot j) :=
    current_until_pass hrun hp hpr hrn.le hno
  have hw : Waiting (ss r) i := by
    obtain hw | hbad := hwait r hpr hrq
    · exact hw
    · rw [hcur] at hbad
      cases hbad
      exact absurd rfl hij
  have hsel : (ss (r + 1)).sched.current 0 = some (.slot i) := by
    have hstep := hrun.step r hrn
    have hup := initialized_of_reachable (hrun.reachable hrn.le)
    cases he : es r with
    | schedule cpu frame =>
      rw [he] at hstep
      rw [← Option.some.inj hstep, Subsingleton.elim cpu 0]
      exact pass_selects_waiting hup (hone r hrn hpass) hw hcur hij frame
    | _ =>
      rw [he] at hpass
      exact hpass.elim
  refine ⟨r, hpr, lt_of_le_of_ne hrq ?_, hpass, hsel⟩
  rintro rfl
  have heq := hq.2.symm.trans hsel
  cases heq
  exact hij rfl

/-- Two tasks on one CPU, three passes. -/
def twoTakeTurns : List (SchedEvent 1) :=
  [.initCpu 0, .spawn 0 4096, .spawn 0 8192, .schedule 0 1000, .schedule 0 1100, .schedule 0 1200]

/-- The CPU of `twoTakeTurns` and `threeShare` before any of their steps. -/
def oneCpuBoot : SchedSys T 1 :=
  ⟨Sched.initGlobal 1 (fun _ => 0) (fun _ => 0), fun _ => false⟩

/-- The first task is selected at the first and at the third pass, the second in
between. -/
theorem round_robin_two_tasks :
    let ss := statesOf SchedSys.exec (oneCpuBoot (T := 2)) twoTakeTurns
    let es := fun k => twoTakeTurns.getD k (.wakeInput 0)
    Selects ss es 3 (.slot 0) ∧ Selects ss es 5 (.slot 0) ∧
      ∃ r, 3 < r ∧ r < 5 ∧ Selects ss es r (.slot 1) := by
  intro ss es
  have hend : (runEvents SchedSys.exec (oneCpuBoot (T := 2)) twoTakeTurns).isSome = true := by decide
  obtain ⟨s', hs'⟩ := Option.isSome_iff_exists.mp hend
  have hrun : IsRun SchedStart SchedStep 6 ss es :=
    isRun_of_runEvents (.wakeInput 0) ⟨1, _, _, rfl⟩ hs'
  have hp : Selects ss es 3 (.slot 0) := ⟨trivial, by decide⟩
  have hq : Selects ss es 5 (.slot 0) := ⟨trivial, by decide⟩
  have hone : ∀ k < 6, IsPass (es k) → OneWaits (ss k) := by decide
  have hwait : ∀ k, 3 < k → k ≤ 5 →
      Waiting (ss k) 1 ∨ (ss k).sched.current 0 = some (.slot 1) := by
    intro k hk hk'
    obtain rfl | rfl : k = 4 ∨ k = 5 := by omega
    · exact Or.inl (by decide)
    · exact Or.inr (by decide)
  exact ⟨hp, hq, round_robin hrun hone (by omega) (by omega) hp hq (by omega) hwait⟩

/-- Three tasks on one CPU, three passes. -/
def threeShare : List (SchedEvent 1) :=
  [.initCpu 0, .spawn 0 4096, .spawn 0 8192, .spawn 0 12288, .schedule 0 1000, .schedule 0 1100,
    .schedule 0 1200]

/-- **The third task starves.**  The first task is selected at two passes; the third is
`Ready` throughout and not selected in between. -/
theorem third_task_starves :
    ∃ (ss : ℕ → SchedSys 3 1) (es : ℕ → SchedEvent 1), IsRun SchedStart SchedStep 7 ss es ∧
      Selects ss es 4 (.slot 0) ∧ Selects ss es 6 (.slot 0) ∧
      (∀ k, 4 < k → k ≤ 6 → ((ss k).sched.tasks (.slot 2)).state = .ready) ∧
      ∀ r, 4 < r → r < 6 → ¬Selects ss es r (.slot 2) := by
  have hend : (runEvents SchedSys.exec (oneCpuBoot (T := 3)) threeShare).isSome = true := by decide
  obtain ⟨s', hs'⟩ := Option.isSome_iff_exists.mp hend
  refine ⟨statesOf SchedSys.exec oneCpuBoot threeShare, fun k => threeShare.getD k (.wakeInput 0),
    isRun_of_runEvents (.wakeInput 0) ⟨1, _, _, rfl⟩ hs', ⟨trivial, by decide⟩,
    ⟨trivial, by decide⟩, fun k hk hk' => ?_, fun r hr hr' => ?_⟩
  · obtain rfl | rfl : k = 5 ∨ k = 6 := by omega
    · decide
    · decide
  · obtain rfl : r = 5 := by omega
    rintro ⟨-, hsel⟩
    exact absurd hsel (by decide)

end Pinx.Analysis
