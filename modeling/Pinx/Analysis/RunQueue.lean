import Pinx.Analysis.OneCpuPerTask

/-!
# The run queue as a partition

Here an interrupt or a syscall is one step, the parking of a task and the
`schedule` that follows it included.  `Pass` says once what a scheduling pass
does; the invariant `Partition` and the facts about deferred publication are read
off it.

A task is deferred only if it is still `Running` when its CPU leaves it.  A parked
task is not, so a waker can hand it to another CPU before its own CPU has begun
another pass (`parked_task_selected_early`).
-/

namespace Pinx.Analysis

open Pinx.Foundation Pinx.Model

variable {T C : ℕ} {s s' : Sched T C} {cpu : Fin C} {next : TaskRef T C}

/-! ## One scheduling pass -/

theorem state_publish (s : Sched T C) (cpu : Fin C) (t : TaskRef T C) :
    ((s.publish cpu).tasks t).state =
      if s.deferred cpu = some t then .ready else (s.tasks t).state := by
  unfold Sched.publish
  cases hdef : s.deferred cpu with
  | none => simp
  | some u =>
    simp only [tasks_modify, Option.some.injEq, eq_comm (a := u)]
    split <;> rfl

/-- What a pass leaves of a task. -/
structure SameFields (a b : Task) : Prop where
  kind : b.kind = a.kind
  kstack : b.kstack = a.kstack
  wakeTick : b.wakeTick = a.wakeTick
  waitInput : b.waitInput = a.waitInput

theorem SameFields.refl (a : Task) : SameFields a a := ⟨rfl, rfl, rfl, rfl⟩

theorem SameFields.trans {a b c : Task} (h : SameFields a b) (h' : SameFields b c) :
    SameFields a c :=
  ⟨h'.kind.trans h.kind, h'.kstack.trans h.kstack, h'.wakeTick.trans h.wakeTick,
    h'.waitInput.trans h.waitInput⟩

/-- What a pass of `cpu` does that leaves it on `next`.  The candidates are those of the
table after the deferred task was published. -/
structure Pass (s : Sched T C) (cpu : Fin C) (next : TaskRef T C) (s' : Sched T C) : Prop where
  up : s'.initialized = s.initialized
  current : s'.current = Function.update s.current cpu (some next)
  deferred : s'.deferred = Function.update s.deferred cpu
    (if some next ≠ s.current cpu ∧ (s.publish cpu).stillRunning (s.current cpu) = true
      then s.current cpu else none)
  rsp0 : s'.rsp0 = if some next ≠ s.current cpu
    then Function.update s.rsp0 cpu (s.tasks next).kstack else s.rsp0
  others : ∀ t ≠ next, (s'.tasks t).state = ((s.publish cpu).tasks t).state
  chosen : (s'.tasks next).state = .running ∨
    some next = s.current cpu ∧ (s.tasks next).kind = .idle ∧
      (s'.tasks next).state = ((s.publish cpu).tasks next).state
  kept : ∀ t, SameFields (s.tasks t) (s'.tasks t)
  choice : (s.publish cpu).pick (s.current cpu) = some next ∨
    (s.publish cpu).pick (s.current cpu) = none ∧
      (some next = s.current cpu ∧
          ((s.publish cpu).stillRunning (s.current cpu) = true ∨ (s.tasks next).kind = .idle) ∨
        next = .idle cpu ∧ (s.publish cpu).stillRunning (s.current cpu) = false ∧
          ∀ t, s.current cpu = some t → (s.tasks t).kind ≠ .idle)

@[simp] theorem deferred_modifyOpt (s : Sched T C) (t : Option (TaskRef T C)) (f : Task → Task) :
    (s.modifyOpt t f).deferred = s.deferred := by
  cases t <;> rfl

theorem tasks_modifyOpt (s : Sched T C) (t : Option (TaskRef T C)) (u : TaskRef T C)
    (f : Task → Task) :
    (s.modifyOpt t f).tasks u = if t = some u then f (s.tasks u) else s.tasks u := by
  cases t with
  | none => simp [Sched.modifyOpt]
  | some t =>
    simp only [Sched.modifyOpt, tasks_modify, Option.some.injEq, eq_comm (a := u)]
    split
    · rename_i h
      rw [h]
    · rfl

theorem deferred_publish (s : Sched T C) (cpu : Fin C) :
    (s.publish cpu).deferred = Function.update s.deferred cpu none := by
  unfold Sched.publish
  cases hdef : s.deferred cpu with
  | none => exact (Function.update_eq_self_iff.mpr hdef.symm).symm
  | some u => rfl

/-- The table as `pick` finds it: the deferred task published, the frame saved. -/
def entered (s : Sched T C) (cpu : Fin C) (frame : ℕ) : Sched T C :=
  (s.publish cpu).modifyOpt (s.current cpu) fun t => { t with frame := frame }

/-- What a table shares with the one `pick` finds; all that the choice depends on. -/
structure SameChoice (s s' : Sched T C) : Prop where
  up : s'.initialized = s.initialized
  current : s'.current = s.current
  rsp0 : s'.rsp0 = s.rsp0
  state : ∀ t, (s'.tasks t).state = (s.tasks t).state
  kept : ∀ t, SameFields (s.tasks t) (s'.tasks t)

theorem SameChoice.pick_eq (h : SameChoice s s') (cur : Option (TaskRef T C)) :
    s'.pick cur = s.pick cur := by
  simp only [Sched.pick, h.state]

theorem SameChoice.stillRunning_eq (h : SameChoice s s') (cur : Option (TaskRef T C)) :
    s'.stillRunning cur = s.stillRunning cur := by
  cases cur with
  | none => rfl
  | some t => simp only [Sched.stillRunning, h.state, (h.kept t).kind]

theorem sameChoice_entered (s : Sched T C) (cpu : Fin C) (frame : ℕ) :
    SameChoice (s.publish cpu) (entered s cpu frame) := by
  have htask : ∀ t, (entered s cpu frame).tasks t = if s.current cpu = some t
      then { (s.publish cpu).tasks t with frame := frame } else (s.publish cpu).tasks t :=
    fun t => tasks_modifyOpt _ _ _ _
  refine ⟨?_, current_modifyOpt _ _ _, ?_, fun t => ?_, fun t => ?_⟩
  · unfold entered
    cases s.current cpu <;> rfl
  · unfold entered
    cases s.current cpu <;> rfl
  · rw [htask]
    split <;> rfl
  · rw [htask]
    split
    · exact ⟨rfl, rfl, rfl, rfl⟩
    · exact SameFields.refl _

theorem publish_kept (s : Sched T C) (cpu : Fin C) :
    (s.publish cpu).initialized = s.initialized ∧ (s.publish cpu).rsp0 = s.rsp0 ∧
      ∀ t, SameFields (s.tasks t) ((s.publish cpu).tasks t) := by
  unfold Sched.publish
  cases s.deferred cpu with
  | none => exact ⟨rfl, rfl, fun t => SameFields.refl _⟩
  | some u =>
    refine ⟨rfl, rfl, fun t => ?_⟩
    simp only [tasks_modify]
    split
    · rename_i h
      rw [h]
      exact ⟨rfl, rfl, rfl, rfl⟩
    · exact SameFields.refl _

/-- A switch is a pass, whatever made `schedule` choose `next`. -/
theorem pass_switchTo (frame : ℕ)
    (hchoice : (s.publish cpu).pick (s.current cpu) = some next ∨
      (s.publish cpu).pick (s.current cpu) = none ∧
        (some next = s.current cpu ∧
            ((s.publish cpu).stillRunning (s.current cpu) = true ∨ (s.tasks next).kind = .idle) ∨
          next = .idle cpu ∧ (s.publish cpu).stillRunning (s.current cpu) = false ∧
            ∀ t, s.current cpu = some t → (s.tasks t).kind ≠ .idle)) :
    Pass s cpu next ((entered s cpu frame).switchTo cpu (s.current cpu) next).1 := by
  have hsame := sameChoice_entered s cpu frame
  have hdef : (entered s cpu frame).deferred = Function.update s.deferred cpu none := by
    rw [entered, deferred_modifyOpt, deferred_publish]
  obtain ⟨hup, hrsp0, hkept⟩ := publish_kept s cpu
  have htask : ∀ t, (((entered s cpu frame).switchTo cpu (s.current cpu) next).1).tasks t =
      if t = next then { (entered s cpu frame).tasks next with state := .running, cpu := cpu }
      else (entered s cpu frame).tasks t := by
    intro t
    by_cases hne : some next ≠ s.current cpu
    · simp only [Sched.switchTo, if_pos hne, tasks_modify]
    · simp only [Sched.switchTo, if_neg hne, tasks_modify]
  have hcur : (entered s cpu frame).current = s.current := by
    rw [hsame.current, current_publish]
  refine ⟨?_, ?_, ?_, ?_, fun t ht => ?_, Or.inl ?_, fun t => ?_, hchoice⟩
  · simp only [Sched.switchTo]
    split
    · exact hsame.up.trans hup
    · exact hsame.up.trans hup
  · simp only [Sched.switchTo, Sched.modify]
    split
    · simp only [hcur]
    · rename_i heq
      rw [hcur, not_not.mp heq, Function.update_eq_self]
  · simp only [Sched.switchTo, Sched.modify, hsame.stillRunning_eq]
    by_cases hne : some next ≠ s.current cpu
    · rw [if_pos hne]
      by_cases hrun : (s.publish cpu).stillRunning (s.current cpu) = true
      · simp only [if_pos hrun, hdef, Function.update_idem]
        rw [if_pos ⟨hne, hrun⟩]
      · simp only [if_neg hrun, hdef]
        rw [if_neg (fun h => hrun h.2)]
    · rw [if_neg hne, if_neg (fun h => hne h.1), hdef]
  · simp only [Sched.switchTo]
    split
    · rw [show ∀ (a : Sched T C) t f, (a.modify t f).rsp0 = a.rsp0 from fun _ _ _ => rfl]
      simp only [hsame.rsp0, hrsp0, (hsame.kept next).kstack, (hkept next).kstack]
    · exact hsame.rsp0.trans hrsp0
  · rw [htask, if_neg ht, hsame.state]
  · rw [htask, if_pos rfl]
  · rw [htask]
    split
    · rename_i h
      rw [h]
      exact ((hkept next).trans (hsame.kept next)).trans ⟨rfl, rfl, rfl, rfl⟩
    · exact (hkept t).trans (hsame.kept t)

/-- **A scheduling pass.**  Whatever branch `schedule` takes, it is a pass that leaves the
CPU on some task. -/
theorem schedule_pass (hup : s.initialized = true) (cpu : Fin C) (frame : ℕ) :
    ∃ next, Pass s cpu next (s.schedule cpu frame).1 := by
  have hsame := sameChoice_entered s cpu frame
  obtain ⟨hup', hrsp0, hkept⟩ := publish_kept s cpu
  unfold Sched.schedule
  rw [if_pos hup]
  dsimp only
  rw [current_publish]
  have hent : (s.publish cpu).modifyOpt (s.current cpu) (fun t => { t with frame := frame }) =
      entered s cpu frame := rfl
  rw [hent, hsame.pick_eq]
  cases hpick : (s.publish cpu).pick (s.current cpu) with
  | some next => exact ⟨next, pass_switchTo frame (Or.inl hpick)⟩
  | none =>
    cases hcur : s.current cpu with
    | none =>
      have hsw : Pass s cpu (.idle cpu)
          ((entered s cpu frame).switchTo cpu (s.current cpu) (.idle cpu)).1 :=
        pass_switchTo frame (Or.inr ⟨hpick, Or.inr ⟨rfl, by rw [hcur]; rfl, by simp [hcur]⟩⟩)
      rw [hcur] at hsw
      exact ⟨.idle cpu, hsw⟩
    | some t =>
      simp only [hsame.stillRunning_eq, (hsame.kept t).kind, (hkept t).kind]
      by_cases hrun : (s.publish cpu).stillRunning (some t) = true
      · have hsw : Pass s cpu t ((entered s cpu frame).switchTo cpu (s.current cpu) t).1 :=
          pass_switchTo frame
            (Or.inr ⟨hpick, Or.inl ⟨hcur.symm, Or.inl (by rw [hcur]; exact hrun)⟩⟩)
        rw [hcur] at hsw
        rw [if_pos hrun]
        exact ⟨t, hsw⟩
      · rw [if_neg hrun]
        by_cases hidle : (s.tasks t).kind = .idle
        · -- nowhere better to go: only the frame and the publication remain
          rw [if_pos hidle]
          refine ⟨t, hsame.up.trans hup', ?_, ?_, ?_, fun u _ => hsame.state u,
            Or.inr ⟨hcur.symm, hidle, hsame.state t⟩, fun u => (hkept u).trans (hsame.kept u),
            Or.inr ⟨hpick, Or.inl ⟨hcur.symm, Or.inr hidle⟩⟩⟩
          · rw [hsame.current, current_publish, ← hcur, Function.update_eq_self]
          · rw [if_neg (fun h => h.1 hcur.symm), entered, deferred_modifyOpt, deferred_publish]
          · rw [if_neg (not_not.mpr hcur.symm)]
            exact hsame.rsp0.trans hrsp0
        · have hsw : Pass s cpu (.idle cpu)
              ((entered s cpu frame).switchTo cpu (s.current cpu) (.idle cpu)).1 := by
            refine pass_switchTo frame (Or.inr ⟨hpick, Or.inr ⟨rfl, ?_, ?_⟩⟩)
            · rw [hcur]
              exact Bool.not_eq_true _ ▸ hrun
            · intro u hu
              rw [hcur] at hu
              cases hu
              exact hidle
          rw [hcur] at hsw
          rw [if_neg hidle]
          exact ⟨.idle cpu, hsw⟩

/-! ## Interrupts and syscalls as single steps -/

/-- What enters the kernel after `init_global`; `yield` is also `sleep(0)`. -/
inductive KernelEntry (C : ℕ) where
  | initCpu (cpu : Fin C)
  | spawn (stack : ℕ)
  | timer (cpu : Fin C) (now frame : ℕ)
  | yield (cpu : Fin C) (frame : ℕ)
  | exit (cpu : Fin C) (frame : ℕ)
  | sleep (cpu : Fin C) (wakeTick frame : ℕ)
  | readEvents (cpu : Fin C) (frame : ℕ)
  | keyIrq

/-- A syscall that reschedules.  It comes from ring 3, so its CPU is on a user task. -/
def fromUser (s : Sched T C) (cpu : Fin C) (next : Sched T C) : Option (Sched T C) :=
  match s.current cpu with
  | some (.slot _) => some next
  | _ => none

/-- One interrupt or syscall.  A CPU runs `init_cpu` before it is handed a task.
SOURCE: syscall.rs:43-105, interrupts.rs:43-59 -/
def enter (s : Sched T C) : KernelEntry C → Option (Sched T C)
  | .initCpu cpu =>
    if s.current cpu = none ∨ s.current cpu = some (.idle cpu) then some (s.initCpu cpu) else none
  | .spawn stack => some (s.spawnUser stack).1
  | .timer cpu now frame => some ((s.wakeSleepers now).schedule cpu frame).1
  | .yield cpu frame => fromUser s cpu (s.schedule cpu frame).1
  | .exit cpu frame => fromUser s cpu ((s.markCurrentDead cpu).schedule cpu frame).1
  | .sleep cpu wakeTick frame =>
    fromUser s cpu ((s.blockCurrentUntil cpu wakeTick).schedule cpu frame).1
  | .readEvents cpu frame => fromUser s cpu ((s.blockCurrentInput cpu).schedule cpu frame).1
  | .keyIrq => some s.wakeInputWaiters

/-- The start of a run: `init_global` has finished. -/
def QueueStart (s : Sched T C) : Prop :=
  ∃ cpuCount kstackTop rsp0, s = Sched.initGlobal cpuCount kstackTop rsp0

/-- One step of a run. -/
def QueueStep (s : Sched T C) (e : KernelEntry C) (s' : Sched T C) : Prop :=
  enter s e = some s'

/-- What holds of the queue; a CPU that `owes` a pass may have parked or retired its
task already. -/
structure QueueInv (owes : Fin C → Prop) (s : Sched T C) : Prop where
  inv : SchedInv s
  current_running : ∀ c t, s.current c = some t →
    (s.tasks t).state = .running ∨ owes c ∧ ∃ i, t = .slot i
  held : ∀ i, (s.tasks (.slot i)).state = .running →
    (∃ c, s.current c = some (.slot i)) ∨ ∃ c, s.deferred c = some (.slot i)
  rest : ∀ c, (∀ i, s.current c ≠ some (.slot i)) → s.deferred c = none
  user : ∀ i, (s.tasks (.slot i)).state ≠ .unused → (s.tasks (.slot i)).kind = .user
  idle_state : ∀ c, (s.tasks (.idle c)).state = .unused ∨ (s.tasks (.idle c)).state = .running

/-- What holds between two entries. -/
abbrev Partition (s : Sched T C) : Prop := QueueInv (fun _ => False) s

theorem QueueInv.running (h : Partition s) {c : Fin C} {t : TaskRef T C}
    (hc : s.current c = some t) : (s.tasks t).state = .running := by
  obtain hrun | ⟨hno, -⟩ := h.current_running c t hc
  · exact hrun
  · exact hno.elim

theorem QueueInv.mono {owes owes' : Fin C → Prop} (h : QueueInv owes s)
    (hsub : ∀ c, owes c → owes' c) : QueueInv owes' s :=
  ⟨h.inv, fun c t hc => (h.current_running c t hc).imp_right fun ho => ⟨hsub c ho.1, ho.2⟩,
    h.held, h.rest, h.user, h.idle_state⟩

theorem partition_init (cpuCount : ℕ) (kstackTop rsp0 : Fin C → ℕ) :
    Partition (Sched.initGlobal cpuCount kstackTop rsp0 : Sched T C) where
  inv := schedInv_init cpuCount kstackTop rsp0
  current_running := by simp [Sched.initGlobal]
  held := by simp [Sched.initGlobal, emptyTask]
  rest := by simp [Sched.initGlobal]
  user := by simp [Sched.initGlobal, emptyTask]
  idle_state c := by
    refine Or.inl ?_
    simp only [Sched.initGlobal]
    split <;> rfl

/-- A picked task was `Ready`, or deferred and just published. -/
theorem picked_state {cur : Option (TaskRef T C)} (h : (s.publish cpu).pick cur = some next) :
    ∃ i, next = .slot i ∧ (s.deferred cpu = some (.slot i) ∨ (s.tasks (.slot i)).state = .ready) := by
  obtain ⟨⟨i, rfl, hready⟩, -⟩ := pick_spec h
  rw [state_publish] at hready
  refine ⟨i, rfl, ?_⟩
  split at hready
  · exact Or.inl ‹_›
  · exact Or.inr hready

/-- Publication leaves a task that is current somewhere alone. -/
theorem state_publish_current (h : SchedInv s) {c : Fin C} {t : TaskRef T C}
    (ht : s.current c = some t) : ((s.publish cpu).tasks t).state = (s.tasks t).state := by
  rw [state_publish, if_neg]
  exact fun hdef => h.deferred_left cpu t hdef c ht

/-- The idle task is never deferred, so publication leaves it alone. -/
theorem state_publish_idle (h : SchedInv s) (c : Fin C) :
    ((s.publish cpu).tasks (.idle c)).state = (s.tasks (.idle c)).state := by
  rw [state_publish, if_neg]
  intro hdef
  obtain ⟨i, hi⟩ := h.deferred_slot cpu _ hdef
  cases hi

/-- The task a pass chooses is not `Unused`, and it is a task of the table or the CPU's
own idle task. -/
theorem Pass.next_cases {owes : Fin C → Prop} (h : QueueInv owes s) (hp : Pass s cpu next s') :
    (∃ i, next = .slot i ∧ (s.tasks (.slot i)).state ≠ .unused) ∨ next = .idle cpu := by
  obtain hpick | ⟨-, ⟨hcur, -⟩ | ⟨hidle, -⟩⟩ := hp.choice
  · obtain ⟨i, rfl, hdef | hready⟩ := picked_state hpick
    · exact Or.inl ⟨i, rfl, by simp [h.inv.deferred_running cpu _ hdef]⟩
    · exact Or.inl ⟨i, rfl, by simp [hready]⟩
  · cases next with
    | slot i => exact Or.inl ⟨i, rfl, (h.inv.current_state cpu i hcur.symm).2⟩
    | idle c => exact Or.inr (by rw [h.inv.idle_own cpu c hcur.symm])
  · exact Or.inr hidle

/-- A pass of the CPU that owes one restores the invariant. -/
theorem QueueInv.pass (h : QueueInv (· = cpu) s) (hinv : SchedInv s') (hp : Pass s cpu next s') :
    Partition s' := by
  have hcur : ∀ c, c ≠ cpu → s'.current c = s.current c := by
    intro c hc
    rw [hp.current, Function.update_of_ne hc]
  have hdef : ∀ c, c ≠ cpu → s'.deferred c = s.deferred c := by
    intro c hc
    rw [hp.deferred, Function.update_of_ne hc]
  have hself : s'.current cpu = some next := by
    rw [hp.current, Function.update_self]
  have hnext : (s'.tasks next).state = .running := by
    obtain hrun | ⟨hnc, hkind, hstate⟩ := hp.chosen
    · exact hrun
    · -- the idle loop was interrupted and goes on
      obtain hrun | ⟨-, i, rfl⟩ := h.current_running cpu next hnc.symm
      · rw [hstate, state_publish_current h.inv hnc.symm, hrun]
      · rw [h.user i (h.inv.current_state cpu i hnc.symm).2] at hkind
        cases hkind
  refine ⟨hinv, fun c t hc => Or.inl ?_, fun i hi => ?_, fun c hc => ?_, fun i hi => ?_,
    fun c => ?_⟩
  · by_cases hcc : c = cpu
    · rw [hcc, hself] at hc
      cases hc
      exact hnext
    · have hold := hcur c hcc ▸ hc
      have hne : t ≠ next := by
        rintro rfl
        cases t with
        | slot i => exact hcc (hinv.excl c cpu i hc hself)
        | idle c' => exact hcc ((hinv.idle_own c c' hc).symm.trans (hinv.idle_own cpu c' hself))
      rw [hp.others t hne, state_publish_current h.inv hold]
      obtain hrun | ⟨hcpu, -⟩ := h.current_running c t hold
      · exact hrun
      · exact absurd hcpu hcc
  · by_cases hne : TaskRef.slot i = next
    · exact Or.inl ⟨cpu, by rw [hself, hne]⟩
    · have hpub := hp.others _ hne ▸ hi
      have hold := hpub
      rw [state_publish] at hold
      split at hold
      · cases hold
      rename_i hnd
      obtain ⟨c, hc⟩ | ⟨c, hc⟩ := h.held i hold
      · by_cases hcc : c = cpu
        · -- still `Running` on the CPU that leaves it: deferred
          subst hcc
          refine Or.inr ⟨c, ?_⟩
          rw [hp.deferred, Function.update_self, if_pos, hc]
          refine ⟨fun heq => hne (Option.some.inj (heq.trans hc)).symm, ?_⟩
          rw [hc]
          simp only [Sched.stillRunning, hpub, decide_eq_true_eq, and_true]
          rw [((publish_kept s c).2.2 _).kind]
          exact h.user i (by simp [hold])
        · exact Or.inl ⟨c, by rw [hcur c hcc, hc]⟩
      · by_cases hcc : c = cpu
        · exact absurd (hcc ▸ hc) hnd
        · exact Or.inr ⟨c, by rw [hdef c hcc, hc]⟩
  · by_cases hcc : c = cpu
    · subst hcc
      rw [hp.deferred, Function.update_self]
      obtain hpick | ⟨-, ⟨heq, -⟩ | ⟨-, hno, -⟩⟩ := hp.choice
      · obtain ⟨i, hi, -⟩ := picked_state hpick
        exact absurd (hself.trans (by rw [hi])) (hc i)
      · rw [if_neg (fun hh => hh.1 heq)]
      · rw [if_neg (fun hh => by simp [hno] at hh)]
    · rw [hdef c hcc]
      exact h.rest c (by rw [← hcur c hcc]; exact hc)
  · rw [(hp.kept _).kind]
    refine h.user i fun hun => hi ?_
    obtain ⟨j, hj, hstate⟩ | hidle := hp.next_cases h
    · have hne : TaskRef.slot i ≠ next := by
        rw [hj]
        rintro ⟨⟩
        exact hstate hun
      rw [hp.others _ hne, state_publish, if_neg, hun]
      exact fun hd => by simp [h.inv.deferred_running cpu _ hd] at hun
    · rw [hp.others _ (by rw [hidle]; rintro ⟨⟩), state_publish, if_neg, hun]
      exact fun hd => by simp [h.inv.deferred_running cpu _ hd] at hun
  · by_cases hne : TaskRef.idle c = next
    · exact Or.inr (hne ▸ hnext)
    · rw [hp.others _ hne, state_publish_idle h.inv]
      exact h.idle_state c

/-! ## Every step keeps the partition -/

theorem QueueInv.initCpu (h : Partition s) (hcur : ∀ i, s.current cpu ≠ some (.slot i)) :
    Partition (s.initCpu cpu) := by
  have hslot : ∀ i, (s.initCpu cpu).tasks (.slot i) = s.tasks (.slot i) := by
    intro i
    simp [Sched.initCpu, tasks_modify]
  have hcurrent : ∀ c, (s.initCpu cpu).current c =
      if c = cpu then some (.idle cpu) else s.current c :=
    fun c => Function.update_apply _ _ _ c
  have hdef : (s.initCpu cpu).deferred = s.deferred :=
    Function.update_eq_self_iff.mpr (h.rest cpu hcur).symm
  have hidle : ∀ c, ((s.initCpu cpu).tasks (.idle c)).state =
      if c = cpu then .running else (s.tasks (.idle c)).state := by
    intro c
    simp only [Sched.initCpu, tasks_modify, TaskRef.idle.injEq]
    split <;> rfl
  refine ⟨h.inv.initCpu cpu, fun c t hc => Or.inl ?_, fun i hi => ?_, fun c hc => ?_,
    fun i => ?_, fun c => ?_⟩
  · rw [hcurrent] at hc
    split at hc
    · cases hc
      rw [hidle, if_pos rfl]
    · cases t with
      | slot i => rw [hslot, h.running hc]
      | idle c' =>
        rw [hidle]
        split
        · rfl
        · exact h.running hc
  · rw [hslot] at hi
    rw [hdef]
    obtain ⟨c, hc⟩ | hd := h.held i hi
    · refine Or.inl ⟨c, ?_⟩
      rw [hcurrent, if_neg, hc]
      rintro rfl
      exact hcur i hc
    · exact Or.inr hd
  · rw [hdef]
    by_cases hcc : c = cpu
    · rw [hcc]
      exact h.rest cpu hcur
    · refine h.rest c fun i hi => hc i ?_
      rw [hcurrent, if_neg hcc, hi]
  · rw [hslot]
    exact h.user i
  · rw [hidle]
    split
    · exact Or.inr rfl
    · exact h.idle_state c

/-- A step that edits tasks of the table only, none of them held by a CPU, and makes none
`Running`. -/
theorem QueueInv.of_slots {owes : Fin C → Prop} (h : QueueInv owes s) (hinv : SchedInv s')
    (hcur : s'.current = s.current) (hdef : s'.deferred = s.deferred)
    (hidle : ∀ c, s'.tasks (.idle c) = s.tasks (.idle c))
    (hslot : ∀ i, s'.tasks (.slot i) = s.tasks (.slot i) ∨
      (s.tasks (.slot i)).state ≠ .running ∧ (∀ c, s.current c ≠ some (.slot i)) ∧
        (s'.tasks (.slot i)).state ≠ .running ∧ (s'.tasks (.slot i)).kind = .user) :
    QueueInv owes s' := by
  refine ⟨hinv, fun c t hc => ?_, fun i hi => ?_, fun c hc => ?_, fun i hi => ?_, fun c => ?_⟩
  · rw [hcur] at hc
    cases t with
    | slot i =>
      obtain heq | ⟨-, hno, -⟩ := hslot i
      · rw [heq]
        exact h.current_running c _ hc
      · exact absurd hc (hno c)
    | idle c' =>
      rw [hidle]
      exact h.current_running c _ hc
  · rw [hcur, hdef]
    obtain heq | ⟨-, -, hno, -⟩ := hslot i
    · exact h.held i (heq ▸ hi)
    · exact absurd hi hno
  · rw [hdef]
    exact h.rest c (hcur ▸ hc)
  · obtain heq | ⟨-, -, -, huser⟩ := hslot i
    · rw [heq] at hi ⊢
      exact h.user i hi
    · exact huser
  · rw [hidle]
    exact h.idle_state c

theorem QueueInv.spawnUser (h : Partition s) (stack : ℕ) : Partition (s.spawnUser stack).1 := by
  have hinv := h.inv.spawnUser stack
  unfold Sched.spawnUser at hinv ⊢
  cases hfind : (List.finRange T).find? fun i => decide ((s.tasks (.slot i)).state = .unused) with
  | none => exact h
  | some i =>
    have hunused : (s.tasks (.slot i)).state = .unused := by
      have := List.find?_some hfind
      simpa using this
    rw [hfind] at hinv
    refine h.of_slots hinv rfl rfl (fun c => ?_) (fun j => ?_)
    · simp [tasks_modify]
    · by_cases hj : j = i
      · refine Or.inr ⟨by simp [hj, hunused], fun c hc => ?_, ?_, ?_⟩
        · exact (h.inv.current_state c j hc).2 (hj ▸ hunused)
        · simp [tasks_modify, hj]
        · simp [tasks_modify, hj]
      · exact Or.inl (by simp [tasks_modify, hj])

/-- A waker that makes `Blocked` tasks `Ready`. -/
theorem QueueInv.wake (h : Partition s) (due : Task → Bool) (f : Task → Task)
    (hdue : ∀ t, due t = true → t.state = .blocked)
    (hf : ∀ t, (f t).state = .ready ∧ (f t).kind = t.kind)
    (hs' : s' = { s with tasks := s'.tasks })
    (hslot : ∀ i, s'.tasks (.slot i) =
      if due (s.tasks (.slot i)) then f (s.tasks (.slot i)) else s.tasks (.slot i))
    (hidle : ∀ c, s'.tasks (.idle c) = s.tasks (.idle c)) : Partition s' := by
  have hleft : ∀ i c, due (s.tasks (.slot i)) = true → s.current c ≠ some (.slot i) := by
    intro i c hd hc
    have hrun := h.running hc
    rw [hdue _ hd] at hrun
    cases hrun
  refine h.of_slots (h.inv.wake due f hdue hleft hs' hslot hidle) (by rw [hs']) (by rw [hs']) hidle
    fun i => ?_
  by_cases hd : due (s.tasks (.slot i)) = true
  · rw [hslot, if_pos hd]
    refine Or.inr ⟨by simp [hdue _ hd], fun c => hleft i c hd, by simp [(hf _).1], ?_⟩
    rw [(hf _).2]
    exact h.user i (by simp [hdue _ hd])
  · exact Or.inl (by rw [hslot, if_neg hd])

theorem QueueInv.wakeSleepers (h : Partition s) (now : ℕ) : Partition (s.wakeSleepers now) :=
  h.wake (Sched.sleeperDue now) (fun t => { t with state := .ready, wakeTick := 0 })
    (fun t ht => by
      simp only [Sched.sleeperDue, decide_eq_true_eq] at ht
      exact ht.1)
    (fun _ => ⟨rfl, rfl⟩) rfl (fun _ => rfl) (fun _ => rfl)

theorem QueueInv.wakeInputWaiters (h : Partition s) : Partition s.wakeInputWaiters :=
  h.wake Sched.inputWaiter (fun t => { t with state := .ready, waitInput := false })
    (fun t ht => by
      simp only [Sched.inputWaiter, decide_eq_true_eq] at ht
      exact ht.1)
    (fun _ => ⟨rfl, rfl⟩) rfl (fun _ => rfl) (fun _ => rfl)

/-- A CPU on a user task that parks or retires it owes a pass. -/
theorem QueueInv.park (h : Partition s) {i : Fin T} (hcur : s.current cpu = some (.slot i))
    {f : Task → Task} (hkind : ∀ t, (f t).kind = t.kind)
    (hstate : ∀ t, (f t).state = .blocked ∨ (f t).state = .dead) :
    QueueInv (· = cpu) (s.modifyOpt (s.current cpu) f) := by
  have hno : ∀ t, (f t).state ≠ .running ∧ (f t).state ≠ .ready ∧ (f t).state ≠ .unused := by
    intro t
    obtain heq | heq := hstate t <;> simp [heq]
  have htask := fun u => tasks_modifyOpt s (s.current cpu) u f
  refine ⟨h.inv.modifyCurrent cpu hkind (fun t _ => (hno t).2), fun c t hc => ?_, fun j hj => ?_,
    fun c hc => ?_, fun j hj => ?_, fun c => ?_⟩
  · rw [current_modifyOpt] at hc
    rw [htask]
    split
    · rename_i heq
      cases hcur.symm.trans heq
      exact Or.inr ⟨h.inv.excl c cpu i hc hcur, i, rfl⟩
    · exact Or.inl (h.running hc)
  · rw [current_modifyOpt, deferred_modifyOpt]
    rw [htask] at hj
    split at hj
    · exact absurd hj (hno _).1
    · exact h.held j hj
  · rw [current_modifyOpt] at hc
    rw [deferred_modifyOpt]
    exact h.rest c hc
  · rw [htask] at hj ⊢
    split
    · rename_i heq
      rw [hkind]
      exact h.user j (h.inv.current_state cpu j heq).2
    · rename_i heq
      rw [if_neg heq] at hj
      exact h.user j hj
  · rw [htask, if_neg (by rw [hcur]; nofun)]
    exact h.idle_state c

/-- `schedule` on the CPU that owes a pass. -/
theorem QueueInv.schedule (h : QueueInv (· = cpu) s) (frame : ℕ) :
    Partition (s.schedule cpu frame).1 := by
  obtain ⟨next, hp⟩ := schedule_pass h.inv.up cpu frame
  exact h.pass (h.inv.schedule cpu frame) hp

theorem fromUser_eq {t : Sched T C} (h : fromUser s cpu t = some s') :
    s' = t ∧ ∃ i, s.current cpu = some (.slot i) := by
  unfold fromUser at h
  split at h
  · rename_i i hcur
    exact ⟨(Option.some.inj h).symm, i, hcur⟩
  · cases h

/-- The CPU that makes a scheduling pass in the entry. -/
def KernelEntry.passOf : KernelEntry C → Option (Fin C)
  | .timer cpu _ _ => some cpu
  | .yield cpu _ => some cpu
  | .exit cpu _ => some cpu
  | .sleep cpu _ _ => some cpu
  | .readEvents cpu _ => some cpu
  | _ => none

/-- The tasks the waker in an entry makes runnable. -/
def rouses (s : Sched T C) : KernelEntry C → Fin T → Bool
  | .timer _ now _, i => Sched.sleeperDue now (s.tasks (.slot i))
  | .keyIrq, i => Sched.inputWaiter (s.tasks (.slot i))
  | _, _ => false

/-- What an entry of `cpu` has done when it calls `schedule`: it has woken sleepers, or
parked or retired the task the CPU is on. -/
structure Prepared (s : Sched T C) (e : KernelEntry C) (cpu : Fin C) (mid : Sched T C) : Prop where
  inv : QueueInv (· = cpu) mid
  current : mid.current = s.current
  deferred : mid.deferred = s.deferred
  others : ∀ i, s.current cpu ≠ some (.slot i) → rouses s e i = false →
    mid.tasks (.slot i) = s.tasks (.slot i)
  own : ∀ i, s.current cpu = some (.slot i) → (mid.tasks (.slot i)).state = .running ∨
    (mid.tasks (.slot i)).state = .blocked ∨ (mid.tasks (.slot i)).state = .dead

theorem QueueInv.prepared_park {e : KernelEntry C} (h : Partition s) {i : Fin T}
    (hcur : s.current cpu = some (.slot i)) {f : Task → Task} (hkind : ∀ t, (f t).kind = t.kind)
    (hstate : ∀ t, (f t).state = .blocked ∨ (f t).state = .dead) :
    Prepared s e cpu (s.modifyOpt (s.current cpu) f) := by
  refine ⟨h.park hcur hkind hstate, current_modifyOpt _ _ _, deferred_modifyOpt _ _ _,
    fun j hj _ => ?_, fun j hj => Or.inr ?_⟩
  · rw [tasks_modifyOpt, if_neg hj]
  · rw [tasks_modifyOpt, if_pos hj]
    exact hstate _

/-- **Inversion.**  An entry that makes a pass prepares it and calls `schedule`. -/
theorem pass_entry {e : KernelEntry C} (h : Partition s) (hpass : e.passOf = some cpu)
    (hstep : QueueStep s e s') :
    ∃ mid frame, Prepared s e cpu mid ∧ s' = (mid.schedule cpu frame).1 := by
  have hself : ∀ {e : KernelEntry C}, Prepared s e cpu s := fun {_} =>
    ⟨h.mono fun c hc => hc.elim, rfl, rfl, fun _ _ _ => rfl, fun i hi => Or.inl (h.running hi)⟩
  cases e with
  | initCpu | spawn | keyIrq => cases hpass
  | timer c now frame =>
    cases hpass
    cases hstep
    refine ⟨_, frame, ⟨(h.wakeSleepers now).mono fun c hc => hc.elim, rfl, rfl, fun i _ hi => ?_,
      fun i hi => Or.inl ((h.wakeSleepers now).running hi)⟩, rfl⟩
    exact if_neg (Bool.not_eq_true _ ▸ hi)
  | yield c frame =>
    cases hpass
    obtain ⟨rfl, -⟩ := fromUser_eq hstep
    exact ⟨s, frame, hself, rfl⟩
  | exit c frame =>
    cases hpass
    obtain ⟨rfl, i, hcur⟩ := fromUser_eq hstep
    exact ⟨_, frame, h.prepared_park hcur (f := fun t => { t with state := .dead })
      (fun _ => rfl) (fun _ => Or.inr rfl), rfl⟩
  | sleep c wakeTick frame =>
    cases hpass
    obtain ⟨rfl, i, hcur⟩ := fromUser_eq hstep
    exact ⟨_, frame, h.prepared_park hcur
      (f := fun t => { t with state := .blocked, wakeTick := wakeTick, waitInput := false })
      (fun _ => rfl) (fun _ => Or.inl rfl), rfl⟩
  | readEvents c frame =>
    cases hpass
    obtain ⟨rfl, i, hcur⟩ := fromUser_eq hstep
    exact ⟨_, frame, h.prepared_park hcur
      (f := fun t => { t with state := .blocked, wakeTick := 0, waitInput := true })
      (fun _ => rfl) (fun _ => Or.inl rfl), rfl⟩

/-- **Step lemma.**  Every interrupt and every syscall keeps the partition. -/
theorem QueueInv.step {e : KernelEntry C} (h : Partition s) (hstep : QueueStep s e s') :
    Partition s' := by
  cases hpass : e.passOf with
  | some cpu =>
    obtain ⟨mid, frame, hmid, rfl⟩ := pass_entry h hpass hstep
    exact hmid.inv.schedule frame
  | none =>
    cases e with
    | timer | yield | exit | sleep | readEvents => cases hpass
    | initCpu cpu =>
      simp only [QueueStep, enter] at hstep
      split at hstep
      · rename_i hguard
        cases hstep
        refine h.initCpu fun i hi => ?_
        simp [hi] at hguard
      · cases hstep
    | spawn stack =>
      cases hstep
      exact h.spawnUser stack
    | keyIrq =>
      cases hstep
      exact h.wakeInputWaiters

/-- **Run lemma.**  The partition holds throughout every run. -/
theorem partition_of_reachable (h : Reachable QueueStart QueueStep s) : Partition s := by
  refine h.invariant ?_ (fun _ _ _ hinv hstep => hinv.step hstep)
  rintro _ ⟨cpuCount, kstackTop, rsp0, rfl⟩
  exact partition_init cpuCount kstackTop rsp0

/-! ## Tasks no step takes -/

/-- A task that is parked or retired, so held by no CPU. -/
def Off (s : Sched T C) (i : Fin T) : Prop :=
  (s.tasks (.slot i)).state = .blocked ∨ (s.tasks (.slot i)).state = .dead

theorem Off.not_running {i : Fin T} (h : Off s i) : (s.tasks (.slot i)).state ≠ .running := by
  obtain heq | heq := h <;> simp [heq]

theorem Off.not_held {i : Fin T} (hoff : Off s i) (h : Partition s) (c : Fin C) :
    s.current c ≠ some (.slot i) ∧ s.deferred c ≠ some (.slot i) :=
  ⟨fun hc => hoff.not_running (h.running hc),
    fun hc => hoff.not_running (h.inv.deferred_running c _ hc)⟩

/-- A pass leaves a task alone that its CPU does not hold and that is not `Ready`. -/
theorem Pass.state_eq (hp : Pass s cpu next s') {i : Fin T}
    (hcur : s.current cpu ≠ some (.slot i)) (hdef : s.deferred cpu ≠ some (.slot i))
    (hready : (s.tasks (.slot i)).state ≠ .ready) :
    (s'.tasks (.slot i)).state = (s.tasks (.slot i)).state := by
  have hne : TaskRef.slot i ≠ next := by
    rintro rfl
    obtain hpick | ⟨-, ⟨heq, -⟩ | ⟨hidle, -⟩⟩ := hp.choice
    · obtain ⟨j, hj, hd | hr⟩ := picked_state hpick
      · exact hdef (hj ▸ hd)
      · exact hready (hj ▸ hr)
    · exact hcur heq.symm
    · cases hidle
  rw [hp.others _ hne, state_publish, if_neg hdef]

/-- A parked or retired task stays as it is unless a waker rouses it. -/
theorem Off.step {i : Fin T} {e : KernelEntry C} (hoff : Off s i) (h : Partition s)
    (hstep : QueueStep s e s') (hno : rouses s e i = false) :
    (s'.tasks (.slot i)).state = (s.tasks (.slot i)).state := by
  cases hpass : e.passOf with
  | some cpu =>
    obtain ⟨mid, frame, hmid, rfl⟩ := pass_entry h hpass hstep
    obtain ⟨hcur, hdef⟩ := hoff.not_held h cpu
    have htask := hmid.others i hcur hno
    obtain ⟨next, hp⟩ := schedule_pass hmid.inv.inv.up cpu frame
    rw [← htask]
    refine hp.state_eq (by rwa [hmid.current]) (by rwa [hmid.deferred]) ?_
    rw [htask]
    obtain heq | heq := hoff <;> simp [heq]
  | none =>
    cases e with
    | timer | yield | exit | sleep | readEvents => cases hpass
    | initCpu cpu =>
      simp only [QueueStep, enter] at hstep
      split at hstep
      · cases hstep
        simp [Sched.initCpu, tasks_modify]
      · cases hstep
    | spawn stack =>
      cases hstep
      unfold Sched.spawnUser
      cases hfind : (List.finRange T).find?
          fun i => decide ((s.tasks (.slot i)).state = .unused) with
      | none => rfl
      | some j =>
        have hunused : (s.tasks (.slot j)).state = .unused := by
          have := List.find?_some hfind
          simpa using this
        have hne : TaskRef.slot i ≠ (TaskRef.slot j : TaskRef T C) := by
          rintro ⟨⟩
          obtain heq | heq := hoff
          · simp [heq] at hunused
          · simp [heq] at hunused
        simp only [tasks_modify, if_neg hne]
    | keyIrq =>
      cases hstep
      exact congrArg Task.state (if_neg (Bool.not_eq_true _ ▸ hno))

/-- A retired task stays retired. -/
theorem dead_step {t : TaskRef T C} {e : KernelEntry C} (h : Partition s)
    (hdead : (s.tasks t).state = .dead) (hstep : QueueStep s e s') : (s'.tasks t).state = .dead := by
  cases t with
  | slot i =>
    have hno : rouses s e i = false := by
      cases e <;> simp [rouses, Sched.sleeperDue, Sched.inputWaiter, hdead]
    rw [Off.step (Or.inr hdead) h hstep hno, hdead]
  | idle c =>
    obtain hidle | hidle := h.idle_state c
    · rw [hidle] at hdead
      cases hdead
    · rw [hidle] at hdead
      cases hdead

/-- **The run queue is a partition.**  In every reachable state a `Running` user task is the
current of exactly one CPU or the deferred of exactly one CPU, and not both; any task
in another state is neither; an idle task is current on its own CPU only; and a
`Dead` task is `Dead` ever after. -/
theorem run_queue_partition (h : Reachable QueueStart QueueStep s) :
    (∀ i, (s.tasks (.slot i)).state = .running →
      (∃! c, s.current c = some (.slot i)) ∧ (∀ c, s.deferred c ≠ some (.slot i)) ∨
        (∃! c, s.deferred c = some (.slot i)) ∧ ∀ c, s.current c ≠ some (.slot i)) ∧
    (∀ t c, (s.tasks t).state ≠ .running → s.current c ≠ some t ∧ s.deferred c ≠ some t) ∧
    (∀ c c', s.current c = some (.idle c') → c' = c) ∧
    (∀ t s', (s.tasks t).state = .dead → Reaches QueueStep s s' → (s'.tasks t).state = .dead) := by
  have hp := partition_of_reachable h
  refine ⟨fun i hi => ?_, fun t c ht => ⟨?_, ?_⟩, hp.inv.idle_own, fun t s' ht hrun => ?_⟩
  · obtain ⟨c, hc⟩ | ⟨c, hc⟩ := hp.held i hi
    · exact Or.inl ⟨⟨c, hc, fun c' hc' => hp.inv.excl c' c i hc' hc⟩,
        fun c' hc' => hp.inv.deferred_left c' _ hc' c hc⟩
    · exact Or.inr ⟨⟨c, hc, fun c' hc' => hp.inv.deferred_excl c' c _ hc' hc⟩,
        hp.inv.deferred_left c _ hc⟩
  · exact fun hc => ht (hp.running hc)
  · exact fun hc => ht (hp.inv.deferred_running c t hc)
  · have hkeep : Partition s' ∧ (s'.tasks t).state = .dead :=
      hrun.invariant (I := fun s => Partition s ∧ (s.tasks t).state = .dead) ⟨hp, ht⟩
        fun a e b hab hstep => ⟨hab.1.step hstep, dead_step hab.1 hab.2 hstep⟩
    exact hkeep.2

/-- Three tasks on two CPUs: one preempted, one running, one parked. -/
def threeTasks : Option (Sched 3 2) :=
  runEvents enter (Sched.initGlobal 2 (fun _ => 0) (fun _ => 0))
    [.initCpu 0, .initCpu 1, .spawn 4096, .spawn 8192, .spawn 12288, .timer 0 1 1000,
      .timer 0 2 1100, .timer 1 2 1200, .readEvents 1 1300]

/-- In that run the first task is deferred on CPU 0, which is on the second, and the third
has left CPU 1 for good. -/
theorem run_queue_partition_three_tasks :
    ∃ s : Sched 3 2, Reachable QueueStart QueueStep s ∧
      s.deferred 0 = some (.slot 0) ∧ (∀ c, s.current c ≠ some (.slot 0)) ∧
      (∀ c, s.current c ≠ some (.slot 2) ∧ s.deferred c ≠ some (.slot 2)) := by
  have hrun : threeTasks.isSome = true := by decide
  obtain ⟨s, hs⟩ := Option.isSome_iff_exists.mp hrun
  have hfacts : threeTasks.map (fun s => (s.deferred 0, (s.tasks (.slot 0)).state,
      (s.tasks (.slot 2)).state)) = some (some (.slot 0), .running, .blocked) := by decide
  simp only [hs, Option.map_some, Option.some.injEq, Prod.mk.injEq] at hfacts
  obtain ⟨hdef, hrunning, hblocked⟩ := hfacts
  have hreach : Reachable QueueStart QueueStep s := ⟨_, ⟨2, _, _, rfl⟩, reaches_of_runEvents hs⟩
  obtain ⟨hheld, hfree, -, -⟩ := run_queue_partition hreach
  refine ⟨s, hreach, hdef, ?_, fun c => hfree _ c (by simp [hblocked])⟩
  obtain ⟨-, hno⟩ | ⟨-, hcur⟩ := hheld 0 hrunning
  · exact absurd hdef (hno 0)
  · exact hcur

/-! ## Deferred publication -/

/-- The task a CPU has left is out of reach: it is deferred there, or parked or retired. -/
def OutOfReach (s : Sched T C) (cpu : Fin C) (i : Fin T) : Prop :=
  s.deferred cpu = some (.slot i) ∨ Off s i

theorem OutOfReach.not_current {i : Fin T} (hout : OutOfReach s cpu i) (h : Partition s)
    (c : Fin C) : s.current c ≠ some (.slot i) := by
  obtain hdef | hoff := hout
  · exact h.inv.deferred_left cpu _ hdef c
  · exact (hoff.not_held h c).1

/-- A pass that leaves a task puts it out of reach. -/
theorem outOfReach_of_left {e : KernelEntry C} {i : Fin T} (h : Partition s)
    (hpass : e.passOf = some cpu) (hstep : QueueStep s e s') (hcur : s.current cpu = some (.slot i))
    (hleft : s'.current cpu ≠ some (.slot i)) : OutOfReach s' cpu i := by
  have hpart := h.step hstep
  obtain ⟨mid, frame, hmid, rfl⟩ := pass_entry h hpass hstep
  obtain ⟨next, hp⟩ := schedule_pass hmid.inv.inv.up cpu frame
  have hne : TaskRef.slot i ≠ next := by
    rintro rfl
    exact hleft (by rw [hp.current, Function.update_self])
  have hmcur : mid.current cpu = some (.slot i) := by rw [hmid.current, hcur]
  have hstate := (hp.others _ hne).trans (state_publish_current hmid.inv.inv hmcur)
  obtain hrun | hoff := hmid.own i hcur
  · refine Or.inl ?_
    rw [hp.deferred, Function.update_self, if_pos, hmcur]
    rw [hmcur]
    refine ⟨fun heq => hne (Option.some.inj heq).symm, ?_⟩
    simp only [Sched.stillRunning, state_publish_current hmid.inv.inv hmcur, hrun,
      decide_eq_true_eq, and_true]
    rw [((publish_kept mid cpu).2.2 _).kind]
    exact hmid.inv.user i (by simp [hrun])
  · refine Or.inr ?_
    rw [← hstate] at hoff
    exact hoff

/-- A step keeps a task out of reach if it is no pass of the CPU that left it and rouses
no such task. -/
theorem OutOfReach.step {e : KernelEntry C} {i : Fin T} (hout : OutOfReach s cpu i)
    (h : Partition s) (hstep : QueueStep s e s') (hpass : e.passOf ≠ some cpu)
    (hno : rouses s e i = false) : OutOfReach s' cpu i := by
  obtain hdef | hoff := hout
  · refine Or.inl ?_
    cases hp : e.passOf with
    | some c =>
      obtain ⟨mid, frame, hmid, rfl⟩ := pass_entry h hp hstep
      obtain ⟨next, hpass'⟩ := schedule_pass hmid.inv.inv.up c frame
      have hc : cpu ≠ c := fun heq => hpass (by rw [hp, heq])
      rw [hpass'.deferred, Function.update_of_ne hc, hmid.deferred, hdef]
    | none =>
      cases e with
      | timer | yield | exit | sleep | readEvents => cases hp
      | initCpu c =>
        simp only [QueueStep, enter] at hstep
        split at hstep
        · rename_i hguard
          cases hstep
          have hc : cpu ≠ c := by
            rintro rfl
            rw [h.rest cpu fun j hj => by simp [hj] at hguard] at hdef
            cases hdef
          exact (Function.update_of_ne hc _ _).trans hdef
        · cases hstep
      | spawn stack =>
        cases hstep
        unfold Sched.spawnUser
        split <;> exact hdef
      | keyIrq =>
        cases hstep
        exact hdef
  · have hstate := hoff.step h hstep hno
    refine Or.inr ?_
    unfold Off
    rw [hstate]
    exact hoff

/-- **Deferred publication.**  Once a pass of `cpu` has left a task, the task is current on
no CPU until `cpu` begins another pass, if no waker rouses it in between; a pass that
selects a task leaves it current, so no pass selects it.  A preempted or yielding
task is `Running`, and no waker rouses it. -/
theorem left_task_not_selected {s₁ s₂ s₃ : Sched T C} {e : KernelEntry C} {i : Fin T}
    (hreach : Reachable QueueStart QueueStep s₁) (hstep : QueueStep s₁ e s₂)
    (hpass : e.passOf = some cpu) (hcur : s₁.current cpu = some (.slot i))
    (hleft : s₂.current cpu ≠ some (.slot i))
    (hrun : Reaches (fun s e s' => QueueStep s e s' ∧ KernelEntry.passOf e ≠ some cpu ∧
      rouses s e i = false) s₂ s₃) (c : Fin C) : s₃.current c ≠ some (.slot i) := by
  have hpart := partition_of_reachable hreach
  have hend : Partition s₃ ∧ OutOfReach s₃ cpu i :=
    hrun.invariant (I := fun s => Partition s ∧ OutOfReach s cpu i)
      ⟨hpart.step hstep, outOfReach_of_left hpart hpass hstep hcur hleft⟩
      fun a e b hab hst => ⟨hab.1.step hst.1, hab.2.step hab.1 hst.1 hst.2.1 hst.2.2⟩
  exact hend.2.not_current hend.1 c

/-- One task on CPU 0 of two. -/
def oneTask : Option (Sched 1 2) :=
  runEvents enter (Sched.initGlobal 2 (fun _ => 0) (fun _ => 0))
    [.initCpu 0, .initCpu 1, .spawn 4096, .timer 0 1 1000]

theorem oneTask_reachable {s : Sched 1 2} (h : oneTask = some s) :
    Reachable QueueStart QueueStep s :=
  ⟨_, ⟨2, _, _, rfl⟩, reaches_of_runEvents h⟩

/-- CPU 0 parks its task for input; a timer interrupt on CPU 1 then leaves it alone. -/
theorem left_task_not_selected_without_key :
    ∃ s₁ s₂ s₃ : Sched 1 2, Reachable QueueStart QueueStep s₁ ∧
      QueueStep s₁ (.readEvents 0 1100) s₂ ∧ QueueStep s₂ (.timer 1 2 1200) s₃ ∧
      s₁.current 0 = some (.slot 0) ∧ s₂.current 0 ≠ some (.slot 0) ∧
      s₃.current 1 ≠ some (.slot 0) := by
  have hrun : (oneTask.bind fun s₁ => (enter s₁ (.readEvents 0 1100)).bind fun s₂ =>
      (enter s₂ (.timer 1 2 1200)).map fun _ => (s₁.current 0, s₂.current 0,
        rouses s₂ (.timer 1 2 1200) 0)) = some (some (.slot 0), some (.idle 0), false) := by decide
  simp only [Option.bind_eq_some_iff, Option.map_eq_some_iff, Prod.mk.injEq] at hrun
  obtain ⟨s₁, h₁, s₂, h₂, s₃, h₃, hcur, hidle, hno⟩ := hrun
  have hleft : s₂.current 0 ≠ some (.slot 0) := by simp [hidle]
  refine ⟨s₁, s₂, s₃, oneTask_reachable h₁, h₂, h₃, hcur, hleft, ?_⟩
  exact left_task_not_selected (oneTask_reachable h₁) h₂ rfl hcur hleft
    ((Reaches.refl s₂).tail ⟨h₃, by decide, hno⟩) 1

/-- **A parked task is selected before its CPU has left it for certain.**  CPU 0 parks its
task for input, a key arrives, and CPU 1 selects the task; CPU 0 has begun no pass
since the one that parked it. -/
theorem parked_task_selected_early :
    ∃ s₁ s₂ s₃ s₄ : Sched 1 2, Reachable QueueStart QueueStep s₁ ∧
      QueueStep s₁ (.readEvents 0 1100) s₂ ∧ QueueStep s₂ .keyIrq s₃ ∧
      QueueStep s₃ (.timer 1 2 1200) s₄ ∧
      s₁.current 0 = some (.slot 0) ∧ s₂.current 0 ≠ some (.slot 0) ∧
      (s₂.tasks (.slot 0)).state ≠ .dead ∧ s₄.current 1 = some (.slot 0) := by
  have hrun : (oneTask.bind fun s₁ => (enter s₁ (.readEvents 0 1100)).bind fun s₂ =>
      (enter s₂ .keyIrq).bind fun s₃ => (enter s₃ (.timer 1 2 1200)).map fun s₄ =>
        (s₁.current 0, s₂.current 0, (s₂.tasks (.slot 0)).state, s₄.current 1)) =
      some (some (.slot 0), some (.idle 0), .blocked, some (.slot 0)) := by decide
  simp only [Option.bind_eq_some_iff, Option.map_eq_some_iff, Prod.mk.injEq] at hrun
  obtain ⟨s₁, h₁, s₂, h₂, s₃, h₃, s₄, h₄, hcur, hidle, hblocked, hsel⟩ := hrun
  exact ⟨s₁, s₂, s₃, s₄, oneTask_reachable h₁, h₂, h₃, h₄, hcur, by simp [hidle],
    by simp [hblocked], hsel⟩

end Pinx.Analysis
