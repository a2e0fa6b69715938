import Pinx.Analysis.RunQueue

/-!
# Sleeping tasks

`SYS_SLEEP` parks its task up to `uptime + ms`.  The sum is not checked: it overflows for a
program that asks to sleep long enough.  Where it fits, the task sleeps until the deadline and is
woken by the first `wake_sleepers` after it, in every run in which no waker hits the gap between
`block_current_*` and `schedule` (`sleep_deadlines`).  A run that does can leave a
task on two CPUs, and a task that one of them puts to sleep is then published by the other
(`sleep_ends_early`).
-/

namespace Pinx.Analysis

open Pinx.Foundation Pinx.Model

variable {T C : ℕ}

theorem sleepDeadline_iff {uptime ms : ℕ} (hms : 0 < ms) :
    sleepDeadline uptime ms = .ok (some (uptime + ms)) ↔ uptime + ms < 2 ^ 64 := by
  unfold sleepDeadline addU64
  rw [if_neg hms.ne']
  by_cases hfit : uptime + ms < 2 ^ 64
  · simp only [hfit, iff_true]
    rfl
  · simp only [hfit, iff_false]
    nofun

theorem sleepDeadline_pos {uptime ms d : ℕ} (h : sleepDeadline uptime ms = .ok (some d)) : d ≠ 0 := by
  unfold sleepDeadline addU64 at h
  split at h
  · cases h
  · rename_i hms
    split at h
    · cases h
      omega
    · cases h

/-- One step of the interleaving that hits no gap, every `block_current_until` coming from
`SYS_SLEEP`. -/
def SleepStep (s : SchedSys T C) (e : SchedEvent C) (s' : SchedSys T C) : Prop :=
  SchedStepLeft s e s' ∧
    ∀ cpu d, e = .blockUntil cpu d → ∃ uptime ms, sleepDeadline uptime ms = .ok (some d)

theorem schedInv_of_sleepSteps {s : SchedSys T C} (h : Reachable SchedStart SleepStep s) :
    SchedInv s.sched := by
  obtain ⟨s₀, hstart, hrun⟩ := h
  exact schedInv_of_reachable ⟨s₀, hstart, hrun.mono fun _ _ _ hstep => hstep.1⟩

/-! ## What a step makes of a task -/

theorem thenReturn_eq {s s' : SchedSys T C} {cpu : Fin C} {next : Sched T C}
    (h : s.thenReturn cpu next = some s') : s.owes cpu = false ∧ s' = ⟨next, s.owes⟩ := by
  unfold SchedSys.thenReturn at h
  split at h
  · cases h
  · rename_i hfree
    cases h
    exact ⟨by simpa using hfree, rfl⟩

theorem thenSchedule_eq {s s' : SchedSys T C} {cpu : Fin C} {next : Sched T C}
    (h : s.thenSchedule cpu next = some s') :
    s.owes cpu = false ∧ s' = ⟨next, Function.update s.owes cpu true⟩ := by
  unfold SchedSys.thenSchedule at h
  split at h
  · cases h
  · rename_i hfree
    cases h
    exact ⟨by simpa using hfree, rfl⟩

/-- What a step can make of a task: `a` before, `b` after. -/
inductive TaskChange (s : SchedSys T C) (e : SchedEvent C) (t : TaskRef T C) (a b : Task) : Prop
  | kept (state : b.state = a.state) (fields : SameFields a b)
  | woken (i : Fin T) (slot : t = .slot i) (due : wakes s.sched e i = true) (state : b.state = .ready)
      (kind : b.kind = a.kind)
  | moved (was : ∀ i, t = .slot i → a.state = .ready ∨ a.state = .running)
      (state : b.state = .ready ∨ b.state = .running) (kind : b.kind = a.kind)
  | spawned (was : a.state = .unused) (state : b.state = .ready) (kind : b.kind = .user)
  | retired (cpu : Fin C) (free : s.owes cpu = false) (on : s.sched.current cpu = some t)
      (state : b.state = .dead) (kind : b.kind = a.kind)
  | parked (cpu : Fin C) (free : s.owes cpu = false) (on : s.sched.current cpu = some t)
      (state : b.state = .blocked) (kind : b.kind = a.kind)
      (waits : (∃ d, e = .blockUntil cpu d ∧ b.wakeTick = d ∧ b.waitInput = false) ∨
        e = .blockInput cpu ∧ b.waitInput = true)

theorem TaskChange.refl (s : SchedSys T C) (e : SchedEvent C) (t : TaskRef T C) (a : Task) :
    TaskChange s e t a a := .kept rfl (SameFields.refl a)

/-- What a pass makes of a task, if the tasks of the table are user tasks. -/
theorem taskChange_schedule {s : SchedSys T C} (h : SchedInv s.sched)
    (huser : ∀ i, (s.sched.tasks (.slot i)).state ≠ .unused → (s.sched.tasks (.slot i)).kind = .user)
    (cpu : Fin C) (frame : ℕ) (t : TaskRef T C) :
    TaskChange s (.schedule cpu frame) t (s.sched.tasks t)
      ((s.sched.schedule cpu frame).1.tasks t) := by
  obtain ⟨next, hp⟩ := schedule_pass h.up cpu frame
  have hkept := hp.kept t
  by_cases hnext : t = next
  · subst hnext
    rcases hp.chosen with hrun | ⟨-, -, hsame⟩
    · refine .moved (fun i hi => ?_) (Or.inr hrun) hkept.kind
      subst hi
      -- the pass chose a task of the table: it was ready, deferred or still running
      rcases hp.choice with hpick | ⟨-, ⟨hcur, hstill | hidle⟩ | ⟨hidle, -⟩⟩
      · obtain ⟨j, hj, hdef | hready⟩ := picked_state hpick
        · exact Or.inr (h.deferred_running cpu _ (hj ▸ hdef))
        · exact Or.inl (hj ▸ hready)
      · rw [← hcur] at hstill
        simp only [Sched.stillRunning, decide_eq_true_eq] at hstill
        exact Or.inr ((state_publish_current h hcur.symm).symm.trans hstill.2)
      · have hstate := (h.current_state cpu i hcur.symm).2
        rw [huser i hstate] at hidle
        cases hidle
      · cases hidle
    · rw [state_publish] at hsame
      split at hsame
      · rename_i hdef
        exact .moved (fun _ _ => Or.inr (h.deferred_running cpu _ hdef)) (Or.inl hsame) hkept.kind
      · exact .kept hsame hkept
  · have hstate := hp.others t hnext
    rw [state_publish] at hstate
    split at hstate
    · rename_i hdef
      exact .moved (fun _ _ => Or.inr (h.deferred_running cpu _ hdef)) (Or.inl hstate) hkept.kind
    · exact .kept hstate hkept

/-- An edit of a CPU's current task leaves every other task alone. -/
theorem taskChange_current {s : SchedSys T C} {e : SchedEvent C} {cpu : Fin C} {f : Task → Task}
    (t : TaskRef T C)
    (hf : s.sched.current cpu = some t → TaskChange s e t (s.sched.tasks t) (f (s.sched.tasks t))) :
    TaskChange s e t (s.sched.tasks t) ((s.sched.modifyOpt (s.sched.current cpu) f).tasks t) := by
  rw [tasks_modifyOpt]
  split
  · rename_i hcur
    exact hf hcur
  · exact TaskChange.refl s e t _

/-- **Inversion of a step.** -/
theorem taskChange_step {s s' : SchedSys T C} {e : SchedEvent C} (h : SchedInv s.sched)
    (huser : ∀ i, (s.sched.tasks (.slot i)).state ≠ .unused → (s.sched.tasks (.slot i)).kind = .user)
    (hstep : SchedStep s e s') (t : TaskRef T C) :
    TaskChange s e t (s.sched.tasks t) (s'.sched.tasks t) := by
  cases e with
  | initCpu cpu =>
    simp only [SchedStep, SchedSys.exec] at hstep
    split at hstep
    · obtain ⟨-, rfl⟩ := thenReturn_eq hstep
      simp only [Sched.initCpu, tasks_modify]
      split
      · rename_i ht
        subst ht
        exact .moved (fun i hi => by cases hi) (Or.inr rfl) rfl
      · exact TaskChange.refl ..
    · cases hstep
  | spawn cpu stack =>
    obtain ⟨-, rfl⟩ := thenReturn_eq hstep
    unfold Sched.spawnUser
    cases hfind : (List.finRange T).find? fun i =>
      decide ((s.sched.tasks (.slot i)).state = .unused) with
    | none => exact TaskChange.refl ..
    | some i =>
      have hunused : (s.sched.tasks (.slot i)).state = .unused := by
        simpa using List.find?_some hfind
      simp only [tasks_modify]
      split
      · rename_i ht
        subst ht
        exact .spawned hunused rfl rfl
      · exact TaskChange.refl ..
  | exit cpu =>
    obtain ⟨hfree, rfl⟩ := thenSchedule_eq hstep
    exact taskChange_current t fun hcur => .retired cpu hfree hcur rfl rfl
  | blockUntil cpu d =>
    obtain ⟨hfree, rfl⟩ := thenSchedule_eq hstep
    exact taskChange_current t fun hcur =>
      .parked cpu hfree hcur rfl rfl (Or.inl ⟨d, rfl, rfl, rfl⟩)
  | blockInput cpu =>
    obtain ⟨hfree, rfl⟩ := thenSchedule_eq hstep
    exact taskChange_current t fun hcur => .parked cpu hfree hcur rfl rfl (Or.inr ⟨rfl, rfl⟩)
  | wakeSleepers cpu now =>
    obtain ⟨-, rfl⟩ := thenSchedule_eq hstep
    cases t with
    | idle c => exact TaskChange.refl ..
    | slot i =>
      dsimp only [Sched.wakeSleepers]
      split
      · rename_i hdue
        exact .woken i rfl hdue rfl rfl
      · exact TaskChange.refl ..
  | wakeInput cpu =>
    obtain ⟨-, rfl⟩ := thenReturn_eq hstep
    cases t with
    | idle c => exact TaskChange.refl ..
    | slot i =>
      dsimp only [Sched.wakeInputWaiters]
      split
      · rename_i hdue
        exact .woken i rfl hdue rfl rfl
      · exact TaskChange.refl ..
  | schedule cpu frame =>
    obtain rfl := Option.some.inj hstep
    exact taskChange_schedule h huser cpu frame t

/-! ## No task is forgotten -/

/-- The tasks of the table are user tasks, and a parked task waits for a tick or for input. -/
structure Awaited (s : Sched T C) : Prop where
  user : ∀ i, (s.tasks (.slot i)).state ≠ .unused → (s.tasks (.slot i)).kind = .user
  waits : ∀ t, (s.tasks t).state = .blocked → (s.tasks t).wakeTick ≠ 0 ∨ (s.tasks t).waitInput = true

theorem wakes_blocked {s : Sched T C} {e : SchedEvent C} {i : Fin T} (h : wakes s e i = true) :
    (s.tasks (.slot i)).state = .blocked := by
  cases e with
  | wakeSleepers cpu now =>
    simp only [wakes, Sched.sleeperDue, decide_eq_true_eq] at h
    exact h.1
  | wakeInput cpu =>
    simp only [wakes, Sched.inputWaiter, decide_eq_true_eq] at h
    exact h.1
  | _ => cases h

theorem Awaited.step {s s' : SchedSys T C} {e : SchedEvent C} (ha : Awaited s.sched)
    (h : SchedInv s.sched) (hstep : SleepStep s e s') : Awaited s'.sched := by
  have hchange := taskChange_step h ha.user hstep.1.1
  refine ⟨fun i hi => ?_, fun t ht => ?_⟩
  · cases hchange (.slot i) with
    | kept hstate hfields =>
      rw [hstate] at hi
      rw [hfields.kind]
      exact ha.user i hi
    | woken j hj hdue _ hkind =>
      cases hj
      rw [hkind]
      exact ha.user i (by rw [wakes_blocked hdue]; nofun)
    | moved hwas _ hkind =>
      rw [hkind]
      refine ha.user i ?_
      rcases hwas i rfl with hwas | hwas <;> rw [hwas] <;> nofun
    | spawned _ _ hkind => exact hkind
    | retired cpu _ hon _ hkind =>
      rw [hkind]
      exact ha.user i (h.current_state cpu i hon).2
    | parked cpu _ hon _ hkind _ =>
      rw [hkind]
      exact ha.user i (h.current_state cpu i hon).2
  · cases hchange t with
    | kept hstate hfields =>
      rw [hfields.wakeTick, hfields.waitInput]
      exact ha.waits t (hstate ▸ ht)
    | woken _ _ _ hstate _ =>
      rw [hstate] at ht
      cases ht
    | moved _ hstate _ => rcases hstate with hstate | hstate <;> rw [hstate] at ht <;> cases ht
    | spawned _ hstate _ =>
      rw [hstate] at ht
      cases ht
    | retired _ _ _ hstate _ =>
      rw [hstate] at ht
      cases ht
    | parked cpu _ _ _ _ hwaits =>
      rcases hwaits with ⟨d, he, htick, -⟩ | ⟨-, hinput⟩
      · obtain ⟨uptime, ms, hdeadline⟩ := hstep.2 cpu d he
        rw [htick]
        exact Or.inl (sleepDeadline_pos hdeadline)
      · exact Or.inr hinput

theorem awaited_init (cpuCount : ℕ) (kstackTop rsp0 : Fin C → ℕ) :
    Awaited (Sched.initGlobal cpuCount kstackTop rsp0 : Sched T C) where
  user := (partition_init cpuCount kstackTop rsp0).user
  waits t ht := by
    cases t with
    | slot i => cases ht
    | idle c =>
      rcases (partition_init (T := T) cpuCount kstackTop rsp0).idle_state c with hc | hc <;>
        rw [hc] at ht <;> cases ht

theorem awaited_of_reachable {s : SchedSys T C} (h : Reachable SchedStart SleepStep s) :
    Awaited s.sched := by
  refine (h.invariant (I := fun s => SchedInv s.sched ∧ Awaited s.sched) ?_ ?_).2
  · rintro _ ⟨cpuCount, kstackTop, rsp0, rfl⟩
    exact ⟨schedInv_init cpuCount kstackTop rsp0, awaited_init cpuCount kstackTop rsp0⟩
  · rintro s e s' ⟨hinv, ha⟩ hstep
    exact ⟨hinv.step hstep.1, ha.step hinv hstep⟩

/-! ## The sleep of one task -/

/-- A task asleep up to `d`; a CPU that is still on it owes a call of `schedule`. -/
structure Asleep (s : SchedSys T C) (i : Fin T) (d : ℕ) : Prop where
  state : (s.sched.tasks (.slot i)).state = .blocked
  wakeTick : (s.sched.tasks (.slot i)).wakeTick = d
  waitInput : (s.sched.tasks (.slot i)).waitInput = false
  gap : ∀ c, s.sched.current c = some (.slot i) → s.owes c = true

theorem owes_update {owes : Fin C → Bool} (cpu : Fin C) {c : Fin C} (h : owes c = true) :
    Function.update owes cpu true c = true := by
  rw [Function.update_apply]
  split
  · rfl
  · exact h

/-- Only `schedule` puts a CPU on a task of the table or pays what it owes. -/
theorem current_step {s s' : SchedSys T C} {e : SchedEvent C} (hstep : SchedStep s e s')
    (hother : ∀ cpu frame, e ≠ .schedule cpu frame) {c : Fin C} {i : Fin T}
    (hc : s'.sched.current c = some (.slot i)) :
    s.sched.current c = some (.slot i) ∧ (s.owes c = true → s'.owes c = true) := by
  cases e with
  | initCpu cpu =>
    simp only [SchedStep, SchedSys.exec] at hstep
    split at hstep
    · obtain ⟨-, rfl⟩ := thenReturn_eq hstep
      simp only [Sched.initCpu, Sched.modify, Function.update_apply] at hc
      split at hc
      · cases hc
      · exact ⟨hc, id⟩
    · cases hstep
  | spawn cpu stack =>
    obtain ⟨-, rfl⟩ := thenReturn_eq hstep
    unfold Sched.spawnUser at hc
    split at hc
    · exact ⟨hc, id⟩
    · exact ⟨hc, id⟩
  | exit cpu =>
    obtain ⟨-, rfl⟩ := thenSchedule_eq hstep
    simp only [Sched.markCurrentDead, current_modifyOpt] at hc
    exact ⟨hc, owes_update cpu⟩
  | blockUntil cpu d =>
    obtain ⟨-, rfl⟩ := thenSchedule_eq hstep
    simp only [Sched.blockCurrentUntil, current_modifyOpt] at hc
    exact ⟨hc, owes_update cpu⟩
  | blockInput cpu =>
    obtain ⟨-, rfl⟩ := thenSchedule_eq hstep
    simp only [Sched.blockCurrentInput, current_modifyOpt] at hc
    exact ⟨hc, owes_update cpu⟩
  | wakeSleepers cpu now =>
    obtain ⟨-, rfl⟩ := thenSchedule_eq hstep
    exact ⟨hc, owes_update cpu⟩
  | wakeInput cpu =>
    obtain ⟨-, rfl⟩ := thenReturn_eq hstep
    exact ⟨hc, id⟩
  | schedule cpu frame => exact absurd rfl (hother cpu frame)

/-- A step before the deadline leaves a sleeping task asleep. -/
theorem Asleep.step {s s' : SchedSys T C} {e : SchedEvent C} {i : Fin T} {d : ℕ}
    (ha : Asleep s i d) (h : SchedInv s.sched) (hawaited : Awaited s.sched) (hstep : SchedStep s e s')
    (hearly : ∀ c now, e = .wakeSleepers c now → now < d) : Asleep s' i d := by
  have hnotDue : wakes s.sched e i = false := by
    cases e with
    | wakeSleepers cpu now =>
      have hlt := hearly cpu now rfl
      simp only [wakes, Sched.sleeperDue, ha.wakeTick, decide_eq_false_iff_not]
      omega
    | wakeInput cpu => simp only [wakes, Sched.inputWaiter, ha.waitInput]; simp
    | _ => rfl
  -- a CPU on the task owes a call of `schedule`, so it can neither retire nor park it
  have hkept : (s'.sched.tasks (.slot i)).state = (s.sched.tasks (.slot i)).state ∧
      SameFields (s.sched.tasks (.slot i)) (s'.sched.tasks (.slot i)) := by
    cases taskChange_step h hawaited.user hstep (.slot i) with
    | kept hstate hfields => exact ⟨hstate, hfields⟩
    | woken j hj hdue _ _ =>
      cases hj
      rw [hnotDue] at hdue
      cases hdue
    | moved hwas _ _ =>
      rcases hwas i rfl with hwas | hwas <;> rw [ha.state] at hwas <;> cases hwas
    | spawned hwas _ _ =>
      rw [ha.state] at hwas
      cases hwas
    | retired cpu hfree hon _ _ =>
      rw [ha.gap cpu hon] at hfree
      cases hfree
    | parked cpu hfree hon _ _ _ =>
      rw [ha.gap cpu hon] at hfree
      cases hfree
  obtain ⟨hstate, hfields⟩ := hkept
  refine ⟨hstate.trans ha.state, hfields.wakeTick.trans ha.wakeTick,
    hfields.waitInput.trans ha.waitInput, fun c hc => ?_⟩
  by_cases hsched : ∃ cpu frame, e = .schedule cpu frame
  · obtain ⟨cpu, frame, rfl⟩ := hsched
    obtain rfl := Option.some.inj hstep
    by_cases hcpu : c = cpu
    · subst hcpu
      obtain ⟨next, hp⟩ := schedule_pass h.up c frame
      have hnext : next = .slot i := by
        have := hp.current ▸ hc
        rw [Function.update_self, Option.some.injEq] at this
        exact this
      subst hnext
      have huser := hawaited.user i (by rw [ha.state]; rintro ⟨⟩)
      rcases hp.chosen with hrun | ⟨-, hidle, -⟩
      · rw [hstate, ha.state] at hrun
        cases hrun
      · rw [huser] at hidle
        cases hidle
    · rw [current_schedule _ _ hcpu] at hc
      change Function.update s.owes cpu false c = true
      rw [Function.update_of_ne hcpu]
      exact ha.gap c hc
  · obtain ⟨hbefore, howes⟩ := current_step hstep (fun cpu frame he => hsched ⟨cpu, frame, he⟩) hc
    exact howes (ha.gap c hbefore)

/-- `block_current_until` puts its CPU's task to sleep. -/
theorem asleep_of_blockUntil {s s' : SchedSys T C} {cpu : Fin C} {i : Fin T} {d : ℕ}
    (h : SchedInv s.sched) (hcur : s.sched.current cpu = some (.slot i))
    (hstep : SchedStep s (.blockUntil cpu d) s') : Asleep s' i d := by
  obtain ⟨-, rfl⟩ := thenSchedule_eq hstep
  have htask : ((s.sched.blockCurrentUntil cpu d).tasks (.slot i)) =
      { s.sched.tasks (.slot i) with state := .blocked, wakeTick := d, waitInput := false } := by
    unfold Sched.blockCurrentUntil
    rw [tasks_modifyOpt, if_pos hcur]
  refine ⟨by rw [htask], by rw [htask], by rw [htask], fun c hc => ?_⟩
  simp only [Sched.blockCurrentUntil, current_modifyOpt] at hc
  rw [h.excl c cpu i hc hcur]
  exact Function.update_self ..

/-- The first `wake_sleepers` from the deadline on wakes the task. -/
theorem Asleep.wake {s s' : SchedSys T C} {cpu : Fin C} {i : Fin T} {d now : ℕ} (ha : Asleep s i d)
    (hd : d ≠ 0) (hnow : d ≤ now) (hstep : SchedStep s (.wakeSleepers cpu now) s') :
    (s'.sched.tasks (.slot i)).state = .ready := by
  obtain ⟨-, rfl⟩ := thenSchedule_eq hstep
  have hdue : Sched.sleeperDue now (s.sched.tasks (.slot i)) = true := by
    simp only [Sched.sleeperDue, ha.state, ha.waitInput, ha.wakeTick]
    simp [hd, hnow]
  dsimp only [Sched.wakeSleepers]
  rw [if_pos hdue]

/-- One step that is no `wake_sleepers` with a tick from `d` on. -/
def StepBefore (d : ℕ) (s : SchedSys T C) (e : SchedEvent C) (s' : SchedSys T C) : Prop :=
  SleepStep s e s' ∧ ∀ c now, e = .wakeSleepers c now → now < d

/-- The deadline of `SYS_SLEEP` is computed exactly when `uptime + ms` is a `u64`.  In every run from
boot in which no waker hits the gap, a parked task waits for a tick or for input; and after a sleep
whose deadline fits, its task stays parked as long as no `wake_sleepers` comes with a tick from the
deadline on, whatever else happens, and the first one makes it ready. -/
theorem sleep_deadlines {s : SchedSys T C} (h : Reachable SchedStart SleepStep s) :
    (∀ uptime ms, 0 < ms →
      (sleepDeadline uptime ms = .ok (some (uptime + ms)) ↔ uptime + ms < 2 ^ 64)) ∧
    (∀ t, (s.sched.tasks t).state = .blocked →
      (s.sched.tasks t).wakeTick ≠ 0 ∨ (s.sched.tasks t).waitInput = true) ∧
    ∀ cpu uptime ms i s₁, 0 < ms → uptime + ms < 2 ^ 64 → s.sched.current cpu = some (.slot i) →
      SleepStep s (.blockUntil cpu (uptime + ms)) s₁ →
      ∀ s₂, Reaches (StepBefore (uptime + ms)) s₁ s₂ →
        (s₂.sched.tasks (.slot i)).state = .blocked ∧
        ∀ c now s₃, SleepStep s₂ (.wakeSleepers c now) s₃ → uptime + ms ≤ now →
          (s₃.sched.tasks (.slot i)).state = .ready := by
  have hinv := schedInv_of_sleepSteps h
  have hawaited := awaited_of_reachable h
  refine ⟨fun uptime ms => sleepDeadline_iff, hawaited.waits, ?_⟩
  intro cpu uptime ms i s₁ hms _ hcur hsleep s₂ hrun
  have hstart : SchedInv s₁.sched ∧ Awaited s₁.sched ∧ Asleep s₁ i (uptime + ms) :=
    ⟨hinv.step hsleep.1, hawaited.step hinv hsleep, asleep_of_blockUntil hinv hcur hsleep.1.1⟩
  obtain ⟨-, -, hasleep⟩ := hrun.invariant
    (I := fun s => SchedInv s.sched ∧ Awaited s.sched ∧ Asleep s i (uptime + ms)) hstart
    (fun s e s' ⟨hinv, hawaited, ha⟩ ⟨hstep, hearly⟩ =>
      ⟨hinv.step hstep.1, hawaited.step hinv hstep, ha.step hinv hawaited hstep.1.1 hearly⟩)
  exact ⟨hasleep.state, fun c now s₃ hwake hnow =>
    hasleep.wake (by omega) hnow hwake.1.1⟩

/-- A step that hits no gap, with deadlines that `SYS_SLEEP` can compute. -/
def sleepExec (s : SchedSys T C) (e : SchedEvent C) : Option (SchedSys T C) :=
  match e with
  | .blockUntil _ d => if 0 < d ∧ d < 2 ^ 64 then s.exec e else none
  | _ => if WakesOnlyLeft s e then s.exec e else none

theorem sleepStep_of_exec {s s' : SchedSys T C} {e : SchedEvent C} (h : sleepExec s e = some s') :
    SleepStep s e s' := by
  unfold sleepExec at h
  split at h
  · rename_i cpu d
    obtain ⟨⟨hpos, hfit⟩, hexec⟩ := Option.ite_none_right_eq_some.mp h
    refine ⟨⟨hexec, fun _ _ hwakes => by cases hwakes⟩, fun _ _ he => ?_⟩
    cases he
    refine ⟨0, d, ?_⟩
    rw [← Nat.zero_add d] at hfit
    have := (sleepDeadline_iff hpos).mpr hfit
    rwa [Nat.zero_add] at this
  · rename_i hother
    obtain ⟨hleft, hexec⟩ := Option.ite_none_right_eq_some.mp h
    exact ⟨⟨hexec, hleft⟩, fun cpu d he => absurd he (hother cpu d)⟩

/-- One CPU and its task. -/
def beforeSleep : Option (SchedSys 1 1) :=
  runEvents sleepExec ⟨Sched.initGlobal 1 (fun _ => 0) (fun _ => 0), fun _ => false⟩
    [.initCpu 0, .spawn 0 4096, .schedule 0 1000]

/-- The task sleeps for 10 ms at uptime 5: the tick 14 leaves it parked, the tick 15 wakes it. -/
theorem sleep_deadlines_ten_ms :
    ∃ s s₁ s₂ s₃ : SchedSys 1 1, Reachable SchedStart SleepStep s ∧
      SleepStep s (.blockUntil 0 15) s₁ ∧ Reaches SleepStep s₁ s₂ ∧
      SleepStep s₂ (.wakeSleepers 0 15) s₃ ∧ (s₂.sched.tasks (.slot 0)).state = .blocked ∧
      (s₃.sched.tasks (.slot 0)).state = .ready := by
  have hrun : (beforeSleep.bind fun s => runEvents sleepExec s [.blockUntil 0 15, .schedule 0 1100,
      .wakeSleepers 0 14, .schedule 0 1200, .wakeSleepers 0 15]).isSome = true := by decide
  obtain ⟨s₃, hs₃⟩ := Option.isSome_iff_exists.mp hrun
  obtain ⟨s, hs, hrest⟩ := Option.bind_eq_some_iff.mp hs₃
  simp only [runEvents, Option.bind_eq_some_iff, Option.some.injEq, exists_eq_right] at hrest
  obtain ⟨s₁, hsleep, a, ha, b, hb, s₂, hs₂, hwake⟩ := hrest
  have hreach : Reachable SchedStart SleepStep s :=
    ⟨_, ⟨1, _, _, rfl⟩, (reaches_of_runEvents hs).mono fun _ _ _ => sleepStep_of_exec⟩
  have hcur : s.sched.current 0 = some (.slot 0) := by
    have : beforeSleep.map (fun s => s.sched.current 0) = some (some (.slot 0)) := by decide
    rw [hs] at this
    exact Option.some.inj this
  have hsteps : Reaches (StepBefore (5 + 10)) s₁ s₂ := by
    have hfirst : StepBefore (5 + 10) s₁ (.schedule 0 1100) a := ⟨sleepStep_of_exec ha, by rintro _ _ ⟨⟩⟩
    have hlast : StepBefore (5 + 10) b (.schedule 0 1200) s₂ := ⟨sleepStep_of_exec hs₂, by rintro _ _ ⟨⟩⟩
    have htick : StepBefore (5 + 10) a (.wakeSleepers 0 14) b := by
      refine ⟨sleepStep_of_exec hb, ?_⟩
      rintro c now ⟨⟩
      omega
    exact (((Reaches.refl s₁).tail hfirst).tail htick).tail hlast
  obtain ⟨hblocked, hready⟩ := (sleep_deadlines hreach).2.2 0 5 10 0 s₁ (by omega) (by omega) hcur
    (sleepStep_of_exec hsleep) s₂ hsteps
  exact ⟨s, s₁, s₂, s₃, hreach, sleepStep_of_exec hsleep, hsteps.mono fun _ _ _ h => h.1,
    sleepStep_of_exec hwake, hblocked, hready 0 15 s₃ (sleepStep_of_exec hwake) (by omega)⟩

/-- CPU 0 parks its task for input and a key on CPU 1 hits the gap: both CPUs go on with the task.
CPU 1 leaves it for another one and is to publish it. -/
def onTwoCpus : Option (SchedSys 2 2) :=
  runEvents SchedSys.exec ⟨Sched.initGlobal 2 (fun _ => 0) (fun _ => 0), fun _ => false⟩
    [.initCpu 0, .initCpu 1, .spawn 0 4096, .schedule 0 1000, .blockInput 0, .wakeInput 1,
      .schedule 1 2000, .schedule 0 3000, .spawn 0 8192, .schedule 1 4000]

/-- The deadline overflows; and the task above, put to sleep by CPU 0 for 10 ms, is running again
after the next pass of CPU 1, without any waker. -/
theorem sleep_ends_early :
    sleepDeadline (2 ^ 64 - 1) 1 = .error .overflow ∧
    ∃ s s₁ s₂ : SchedSys 2 2, Reachable SchedStart SchedStep s ∧
      s.sched.current 0 = some (.slot 0) ∧ SchedStep s (.blockUntil 0 10) s₁ ∧
      SchedStep s₁ (.schedule 1 5000) s₂ ∧ (s₂.sched.tasks (.slot 0)).state = .running := by
  refine ⟨by decide, ?_⟩
  have hrun : (onTwoCpus.bind fun s =>
      runEvents SchedSys.exec s [.blockUntil 0 10, .schedule 1 5000]).map (fun s₂ =>
      (s₂.sched.tasks (.slot 0)).state) = some .running := by decide
  obtain ⟨s₂, hs₂, hrunning⟩ := Option.map_eq_some_iff.mp hrun
  obtain ⟨s, hs, hrest⟩ := Option.bind_eq_some_iff.mp hs₂
  simp only [runEvents, Option.bind_eq_some_iff, Option.some.injEq, exists_eq_right] at hrest
  obtain ⟨s₁, hsleep, hpass⟩ := hrest
  have hcur : s.sched.current 0 = some (.slot 0) := by
    have : onTwoCpus.map (fun s => s.sched.current 0) = some (some (.slot 0)) := by decide
    rw [hs] at this
    exact Option.some.inj this
  exact ⟨s, s₁, s₂, ⟨_, ⟨2, _, _, rfl⟩, reaches_of_runEvents hs⟩, hcur, hsleep, hpass, hrunning⟩

end Pinx.Analysis
