import Pinx.Analysis.RunQueue

/-!
# Ring-0 stacks

A trap out of ring 3 lands on the stack `rsp0` names.  `schedule` rewrites `rsp0`
only when it changes tasks, and `current` also moves in `init_cpu` and in the
fallback to the idle task; `StackInv` says that the two move together.

The bodies the scheduler runs under its lock come in any order here, on any CPU.
`kmalloc` hands out blocks of a heap window that do not meet, and the idle tasks'
stacks are an array outside it.
-/

namespace Pinx.Analysis

open Pinx.Foundation Pinx.Model

variable {T C : ℕ} {s s' : Sched T C}

/-! ## `rsp0` follows the current task -/

/-- The body an event runs. -/
def lockedBody (s : Sched T C) : SchedEvent C → Sched T C
  | .initCpu cpu => s.initCpu cpu
  | .spawn _ stack => (s.spawnUser stack).1
  | .exit cpu => s.markCurrentDead cpu
  | .blockUntil cpu wakeTick => s.blockCurrentUntil cpu wakeTick
  | .blockInput cpu => s.blockCurrentInput cpu
  | .wakeSleepers _ now => s.wakeSleepers now
  | .wakeInput _ => s.wakeInputWaiters
  | .schedule cpu frame => (s.schedule cpu frame).1

/-- What holds between two locked bodies: `rsp0` is the current task's stack, and no CPU
holds a slot that was never filled. -/
structure StackInv (s : Sched T C) : Prop where
  up : s.initialized = true
  rsp0 : ∀ c t, s.current c = some t → s.rsp0 c = (s.tasks t).kstack
  current_used : ∀ c i, s.current c = some (.slot i) → (s.tasks (.slot i)).state ≠ .unused
  deferred_used : ∀ c i, s.deferred c = some (.slot i) → (s.tasks (.slot i)).state ≠ .unused

/-- A body that fills no slot: stacks stay where they are. -/
structure FillsNone (s s' : Sched T C) : Prop where
  kstack : ∀ t, (s'.tasks t).kstack = (s.tasks t).kstack
  unused : ∀ i, (s'.tasks (.slot i)).state = .unused ↔ (s.tasks (.slot i)).state = .unused

theorem FillsNone.inv (h : FillsNone s s') (hinv : StackInv s) (hup : s'.initialized = s.initialized)
    (hcur : s'.current = s.current) (hdef : s'.deferred = s.deferred) (hrsp0 : s'.rsp0 = s.rsp0) :
    StackInv s' := by
  refine ⟨hup.trans hinv.up, fun c t hc => ?_, fun c i hc => ?_, fun c i hc => ?_⟩
  · rw [hrsp0, h.kstack]
    exact hinv.rsp0 c t (hcur ▸ hc)
  · rw [ne_eq, h.unused]
    exact hinv.current_used c i (hcur ▸ hc)
  · rw [ne_eq, h.unused]
    exact hinv.deferred_used c i (hdef ▸ hc)

/-- An edit of a CPU's own task. -/
theorem fillsNone_modifyOpt (hinv : StackInv s) (cpu : Fin C) {f : Task → Task}
    (hkstack : ∀ t, (f t).kstack = t.kstack) (hstate : ∀ t, (f t).state ≠ .unused) :
    FillsNone s (s.modifyOpt (s.current cpu) f) ∧
      StackInv (s.modifyOpt (s.current cpu) f) := by
  have hfills : FillsNone s (s.modifyOpt (s.current cpu) f) := by
    refine ⟨fun t => ?_, fun i => ?_⟩
    · rw [tasks_modifyOpt]
      split
      · exact hkstack _
      · rfl
    · rw [tasks_modifyOpt]
      split
      · rename_i hc
        exact iff_of_false (hstate _) (hinv.current_used cpu i hc)
      · rfl
  refine ⟨hfills, hfills.inv hinv ?_ (current_modifyOpt _ _ _) (deferred_modifyOpt _ _ _) ?_⟩
  · cases s.current cpu <;> rfl
  · cases s.current cpu <;> rfl

/-- A waker only makes `Blocked` tasks `Ready`. -/
theorem fillsNone_wake (due : Task → Bool) (f : Task → Task)
    (hdue : ∀ t, due t = true → t.state = .blocked)
    (hf : ∀ t, (f t).state = .ready ∧ (f t).kstack = t.kstack)
    (hslot : ∀ i, s'.tasks (.slot i) =
      if due (s.tasks (.slot i)) then f (s.tasks (.slot i)) else s.tasks (.slot i))
    (hidle : ∀ c, s'.tasks (.idle c) = s.tasks (.idle c)) : FillsNone s s' := by
  refine ⟨fun t => ?_, fun i => ?_⟩
  · cases t with
    | slot i =>
      rw [hslot]
      split
      · exact (hf _).2
      · rfl
    | idle c => rw [hidle]
  · rw [hslot]
    split
    · rename_i hd
      rw [(hf _).1, hdue _ hd]
      exact iff_of_false nofun nofun
    · rfl

/-- A pass selects a task that was spawned, and `rsp0` follows it. -/
theorem fillsNone_schedule (hinv : StackInv s) (cpu : Fin C) (frame : ℕ) :
    FillsNone s (s.schedule cpu frame).1 ∧ StackInv (s.schedule cpu frame).1 := by
  obtain ⟨next, hp⟩ := schedule_pass hinv.up cpu frame
  generalize (s.schedule cpu frame).1 = s' at hp
  have hpub : ∀ i, ((s.publish cpu).tasks (.slot i)).state = .unused ↔
      (s.tasks (.slot i)).state = .unused := by
    intro i
    rw [state_publish]
    split
    · rename_i hd
      exact iff_of_false nofun (hinv.deferred_used cpu i hd)
    · rfl
  have hnext : ∀ i, next = .slot i → (s.tasks (.slot i)).state ≠ .unused := by
    rintro i rfl
    obtain hpick | ⟨-, ⟨hcur, -⟩ | ⟨hidle, -⟩⟩ := hp.choice
    · obtain ⟨j, hj, hd | hready⟩ := picked_state hpick
      · cases hj
        exact hinv.deferred_used cpu i hd
      · cases hj
        rw [hready]
        nofun
    · exact hinv.current_used cpu i hcur.symm
    · cases hidle
  have hfills : FillsNone s s' := by
    refine ⟨fun t => (hp.kept t).kstack, fun i => ?_⟩
    by_cases hi : TaskRef.slot i = next
    · refine iff_of_false ?_ (hnext i hi.symm)
      obtain hrun | ⟨-, -, hstate⟩ := hp.chosen
      · rw [hi, hrun]
        nofun
      · rw [hi, hstate, ← hi, hpub]
        exact hnext i hi.symm
    · rw [hp.others _ hi, hpub]
  refine ⟨hfills, hp.up.trans hinv.up, fun c t hc => ?_, fun c i hc => ?_, fun c i hc => ?_⟩
  · rw [(hp.kept t).kstack, hp.rsp0]
    rw [hp.current, Function.update_apply] at hc
    split at hc
    · rename_i hcpu
      subst hcpu
      cases hc
      split
      · exact Function.update_self _ _ _
      · rename_i heq
        exact hinv.rsp0 c next (not_not.mp heq).symm
    · rename_i hcpu
      split
      · rw [Function.update_of_ne hcpu]
        exact hinv.rsp0 c t hc
      · exact hinv.rsp0 c t hc
  · rw [ne_eq, hfills.unused]
    rw [hp.current, Function.update_apply] at hc
    split at hc
    · exact hnext i (Option.some.inj hc)
    · exact hinv.current_used c i hc
  · rw [ne_eq, hfills.unused]
    rw [hp.deferred, Function.update_apply] at hc
    split at hc
    · split at hc
      · exact hinv.current_used cpu i hc
      · cases hc
    · exact hinv.deferred_used c i hc

theorem fillsNone_initCpu (hinv : StackInv s) (cpu : Fin C) :
    FillsNone s (s.initCpu cpu) ∧ StackInv (s.initCpu cpu) := by
  have hkstack : ∀ t, ((s.initCpu cpu).tasks t).kstack = (s.tasks t).kstack := by
    intro t
    simp only [Sched.initCpu, tasks_modify]
    split
    · rename_i ht
      rw [ht]
    · rfl
  have hslot : ∀ i, (s.initCpu cpu).tasks (.slot i) = s.tasks (.slot i) := by
    intro i
    simp [Sched.initCpu, tasks_modify]
  refine ⟨⟨hkstack, fun i => by rw [hslot]⟩, hinv.up, fun c t hc => ?_, fun c i hc => ?_,
    fun c i hc => ?_⟩
  · rw [hkstack]
    simp only [Sched.initCpu, Sched.modify, Function.update_apply] at hc ⊢
    split at hc
    · rename_i hcpu
      cases hc
      rw [if_pos hcpu, if_pos trivial]
    · rename_i hcpu
      rw [if_neg hcpu]
      exact hinv.rsp0 c t hc
  · rw [hslot]
    simp only [Sched.initCpu, Sched.modify, Function.update_apply] at hc
    split at hc
    · cases hc
    · exact hinv.current_used c i hc
  · rw [hslot]
    simp only [Sched.initCpu, Sched.modify, Function.update_apply] at hc
    split at hc
    · cases hc
    · exact hinv.deferred_used c i hc

/-- Every locked body but `spawn_user` fills no slot and keeps the invariant. -/
theorem fillsNone_lockedBody (hinv : StackInv s) {e : SchedEvent C}
    (he : ∀ cpu stack, e ≠ .spawn cpu stack) :
    FillsNone s (lockedBody s e) ∧ StackInv (lockedBody s e) := by
  cases e with
  | initCpu cpu => exact fillsNone_initCpu hinv cpu
  | spawn cpu stack => exact absurd rfl (he cpu stack)
  | exit cpu => exact fillsNone_modifyOpt hinv cpu (fun _ => rfl) (fun _ => nofun)
  | blockUntil cpu wakeTick => exact fillsNone_modifyOpt hinv cpu (fun _ => rfl) (fun _ => nofun)
  | blockInput cpu => exact fillsNone_modifyOpt hinv cpu (fun _ => rfl) (fun _ => nofun)
  | wakeSleepers cpu now =>
    have hfills : FillsNone s (s.wakeSleepers now) :=
      fillsNone_wake (Sched.sleeperDue now) (fun t => { t with state := .ready, wakeTick := 0 })
        (fun t ht => by
          simp only [Sched.sleeperDue, decide_eq_true_eq] at ht
          exact ht.1)
        (fun _ => ⟨rfl, rfl⟩) (fun _ => rfl) (fun _ => rfl)
    exact ⟨hfills, hfills.inv hinv rfl rfl rfl rfl⟩
  | wakeInput cpu =>
    have hfills : FillsNone s s.wakeInputWaiters :=
      fillsNone_wake Sched.inputWaiter (fun t => { t with state := .ready, waitInput := false })
        (fun t ht => by
          simp only [Sched.inputWaiter, decide_eq_true_eq] at ht
          exact ht.1)
        (fun _ => ⟨rfl, rfl⟩) (fun _ => rfl) (fun _ => rfl)
    exact ⟨hfills, hfills.inv hinv rfl rfl rfl rfl⟩
  | schedule cpu frame => exact fillsNone_schedule hinv cpu frame

/-- `spawn_user` fills the slot it returns, which was never filled, and no other. -/
theorem spawnUser_fills (s : Sched T C) (stack : ℕ) :
    (s.spawnUser stack = (s, none)) ∨
      ∃ i, (s.spawnUser stack).2 = some i ∧ (s.tasks (.slot i)).state = .unused ∧
        (s.spawnUser stack).1 = s.modify (.slot i) fun t => { t with
          state := .ready, kind := .user, cpu := 0,
          kstack := (stack + kernelStackSize) / 16 * 16,
          frame := Sched.frameAt ((stack + kernelStackSize) / 16 * 16),
          wakeTick := 0, waitInput := false } := by
  unfold Sched.spawnUser
  cases hfind : (List.finRange T).find? fun i => decide ((s.tasks (.slot i)).state = .unused) with
  | none => exact Or.inl rfl
  | some i =>
    refine Or.inr ⟨i, rfl, ?_, rfl⟩
    have := List.find?_some hfind
    simpa using this

theorem StackInv.spawnUser (hinv : StackInv s) (stack : ℕ) : StackInv (s.spawnUser stack).1 := by
  obtain heq | ⟨i, -, hunused, heq⟩ := spawnUser_fills s stack
  · rw [heq]
    exact hinv
  · have hother : ∀ {t : TaskRef T C}, (∀ j, t = .slot j → (s.tasks t).state ≠ .unused) →
        (s.spawnUser stack).1.tasks t = s.tasks t := by
      intro t ht
      rw [heq, tasks_modify, if_neg]
      rintro rfl
      exact ht i rfl hunused
    have hsame : (s.spawnUser stack).1.current = s.current ∧
        (s.spawnUser stack).1.deferred = s.deferred ∧ (s.spawnUser stack).1.rsp0 = s.rsp0 ∧
        (s.spawnUser stack).1.initialized = s.initialized := by
      rw [heq]
      exact ⟨rfl, rfl, rfl, rfl⟩
    obtain ⟨hcur, hdef, hrsp0, hup⟩ := hsame
    refine ⟨hup.trans hinv.up, fun c t hc => ?_, fun c j hc => ?_, fun c j hc => ?_⟩
    · rw [hcur] at hc
      rw [hrsp0, hother, hinv.rsp0 c t hc]
      rintro j rfl
      exact hinv.current_used c j hc
    · rw [hcur] at hc
      have hused := hinv.current_used c j hc
      rwa [hother (by rintro _ ⟨⟩; exact hused)]
    · rw [hdef] at hc
      have hused := hinv.deferred_used c j hc
      rwa [hother (by rintro _ ⟨⟩; exact hused)]

/-! ## Stacks that do not meet -/

/-- Two address ranges without a common byte. -/
def Apart (a b : ℕ × ℕ) : Prop := a.2 ≤ b.1 ∨ b.2 ≤ a.1

theorem Apart.symm {a b : ℕ × ℕ} (h : Apart a b) : Apart b a := Or.symm h

/-- The block `kmalloc` returned at `stack` for a kernel stack. -/
def stackBlock (stack : ℕ) : ℕ × ℕ := (stack, stack + kernelStackSize)

/-- The scheduler, the stacks `kmalloc` has returned, and the one each slot was given. -/
structure StackSys (T C : ℕ) where
  sched : Sched T C
  blocks : List ℕ
  given : Fin T → ℕ

/-- What `kmalloc` may return: a block of the heap window apart from those returned
before.  Kernel stacks are never freed. -/
def KmallocMay (heap : ℕ × ℕ) (blocks : List ℕ) (stack : ℕ) : Prop :=
  heap.1 ≤ stack ∧ stack + kernelStackSize ≤ heap.2 ∧
    ∀ b ∈ blocks, Apart (stackBlock stack) (stackBlock b)

instance (heap : ℕ × ℕ) (blocks : List ℕ) (stack : ℕ) : Decidable (KmallocMay heap blocks stack) :=
  inferInstanceAs (Decidable (_ ∧ _ ∧ ∀ b ∈ blocks, _ ∨ _))

/-- One locked body, in any order and on any CPU. -/
def StackSys.exec (heap : ℕ × ℕ) (s : StackSys T C) : SchedEvent C → Option (StackSys T C)
  | .spawn cpu stack =>
    if KmallocMay heap s.blocks stack then
      some
        { sched := lockedBody s.sched (.spawn cpu stack)
          blocks := stack :: s.blocks
          given := match (s.sched.spawnUser stack).2 with
            | some i => Function.update s.given i stack
            | none => s.given }
    else none
  | e => some { s with sched := lockedBody s.sched e }

/-- The start of a run: `init_global` has given each CPU's idle task its stack out of
`RING0_STACKS`, which stands at `ring0`. -/
def StackStart (cpuCount ring0 : ℕ) (s : StackSys T C) : Prop :=
  ∃ rsp0, s.sched = Sched.initGlobal cpuCount (fun c => kstackTop ring0 c) rsp0 ∧ s.blocks = []

/-- One step of a run. -/
def StackStep (heap : ℕ × ℕ) (s : StackSys T C) (e : SchedEvent C) (s' : StackSys T C) : Prop :=
  s.exec heap e = some s'

/-- The kernel stack of a task. -/
def stackOf (ring0 : ℕ) (s : StackSys T C) : TaskRef T C → ℕ × ℕ
  | .slot i => stackBlock (s.given i)
  | .idle c => (ring0 + c * ring0StackSize, ring0 + c * ring0StackSize + ring0StackSize)

/-- The tasks that have a stack: the spawned ones and the idle tasks of the CPUs. -/
def HasStack (cpuCount : ℕ) (s : StackSys T C) : TaskRef T C → Prop
  | .slot i => (s.sched.tasks (.slot i)).state ≠ .unused
  | .idle c => c.val < cpuCount

/-- What holds of the stacks in every state of a run. -/
structure StacksApart (cpuCount ring0 : ℕ) (heap : ℕ × ℕ) (s : StackSys T C) : Prop where
  inv : StackInv s.sched
  inside : ∀ b ∈ s.blocks, heap.1 ≤ b ∧ b + kernelStackSize ≤ heap.2
  apart : ∀ b ∈ s.blocks, ∀ b' ∈ s.blocks, b ≠ b' → Apart (stackBlock b) (stackBlock b')
  given_mem : ∀ i, (s.sched.tasks (.slot i)).state ≠ .unused → s.given i ∈ s.blocks
  given_inj : ∀ i j, (s.sched.tasks (.slot i)).state ≠ .unused →
    (s.sched.tasks (.slot j)).state ≠ .unused → s.given i = s.given j → i = j
  slot_top : ∀ i, (s.sched.tasks (.slot i)).state ≠ .unused →
    (s.sched.tasks (.slot i)).kstack = (s.given i + kernelStackSize) / 16 * 16
  idle_top : ∀ c : Fin C, c.val < cpuCount →
    (s.sched.tasks (.idle c)).kstack = kstackTop ring0 c

theorem stacksApart_init {cpuCount ring0 : ℕ} {heap : ℕ × ℕ} {s : StackSys T C}
    (h : StackStart cpuCount ring0 s) : StacksApart cpuCount ring0 heap s := by
  obtain ⟨rsp0, hsched, hblocks⟩ := h
  have hunused : ∀ i, (s.sched.tasks (.slot i)).state = .unused := by
    intro i
    rw [hsched]
    rfl
  refine ⟨?_, by simp [hblocks], by simp [hblocks], fun i hi => absurd (hunused i) hi,
    fun i _ hi => absurd (hunused i) hi, fun i hi => absurd (hunused i) hi, fun c hc => ?_⟩
  · rw [hsched]
    exact ⟨rfl, by simp [Sched.initGlobal], by simp [Sched.initGlobal], by simp [Sched.initGlobal]⟩
  · rw [hsched]
    simp only [Sched.initGlobal, if_pos hc]

/-- A block `kmalloc` may return joins those of the heap. -/
theorem StacksApart.blocks_cons {cpuCount ring0 : ℕ} {heap : ℕ × ℕ} {s : StackSys T C} {stack : ℕ}
    (h : StacksApart cpuCount ring0 heap s) (hmay : KmallocMay heap s.blocks stack) :
    (∀ b ∈ stack :: s.blocks, heap.1 ≤ b ∧ b + kernelStackSize ≤ heap.2) ∧
      ∀ b ∈ stack :: s.blocks, ∀ b' ∈ stack :: s.blocks, b ≠ b' →
        Apart (stackBlock b) (stackBlock b') := by
  refine ⟨fun b hb => ?_, fun b hb b' hb' hne => ?_⟩
  · obtain rfl | hb := List.mem_cons.mp hb
    · exact ⟨hmay.1, hmay.2.1⟩
    · exact h.inside b hb
  · obtain heq | hmem := List.mem_cons.mp hb <;> obtain heq' | hmem' := List.mem_cons.mp hb'
    · exact absurd (heq.trans heq'.symm) hne
    · exact heq ▸ hmay.2.2 b' hmem'
    · exact heq' ▸ (hmay.2.2 b hmem).symm
    · exact h.apart b hmem b' hmem' hne

/-- Filling slot `i` with a stack that `kmalloc` may return. -/
theorem StacksApart.fill {cpuCount ring0 : ℕ} {heap : ℕ × ℕ} {s s' : StackSys T C} {stack : ℕ}
    {i : Fin T} (h : StacksApart cpuCount ring0 heap s) (hmay : KmallocMay heap s.blocks stack)
    (hinv : StackInv s'.sched) (hblocks : s'.blocks = stack :: s.blocks)
    (hgiven : s'.given = Function.update s.given i stack)
    (hself : (s'.sched.tasks (.slot i)).kstack = (stack + kernelStackSize) / 16 * 16)
    (hother : ∀ t, t ≠ .slot i → s'.sched.tasks t = s.sched.tasks t) :
    StacksApart cpuCount ring0 heap s' := by
  obtain ⟨hinside, hapart⟩ := h.blocks_cons hmay
  -- the new block is none of the old ones, since a block is not empty
  have hnew : stack ∉ s.blocks := by
    intro hmem
    have hbad := hmay.2.2 stack hmem
    simp only [Apart, stackBlock, kernelStackSize] at hbad
    omega
  have hgiven_self : s'.given i = stack := by rw [hgiven, Function.update_self]
  have hgiven_other : ∀ j, j ≠ i → s'.given j = s.given j := by
    intro j hj
    rw [hgiven, Function.update_of_ne hj]
  have htask : ∀ j, j ≠ i → s'.sched.tasks (.slot j) = s.sched.tasks (.slot j) :=
    fun j hj => hother _ fun heq => hj (TaskRef.slot.inj heq)
  have hmem : ∀ j, j ≠ i → (s'.sched.tasks (.slot j)).state ≠ .unused → s'.given j ∈ s.blocks := by
    intro j hj hused
    rw [hgiven_other j hj]
    exact h.given_mem j (htask j hj ▸ hused)
  refine ⟨hinv, hblocks ▸ hinside, hblocks ▸ hapart, fun j hj => ?_, fun j k hj hk hjk => ?_,
    fun j hj => ?_, fun c hc => ?_⟩
  · rw [hblocks]
    by_cases hji : j = i
    · rw [hji, hgiven_self]
      exact List.mem_cons_self
    · exact List.mem_cons_of_mem _ (hmem j hji hj)
  · by_cases hji : j = i <;> by_cases hki : k = i
    · rw [hji, hki]
    · rw [hji, hgiven_self] at hjk
      exact absurd (hjk ▸ hmem k hki hk) hnew
    · rw [hki, hgiven_self] at hjk
      exact absurd (hjk ▸ hmem j hji hj) hnew
    · rw [hgiven_other j hji, hgiven_other k hki] at hjk
      exact h.given_inj j k (htask j hji ▸ hj) (htask k hki ▸ hk) hjk
  · by_cases hji : j = i
    · rw [hji, hself, hgiven_self]
    · rw [hgiven_other j hji, htask j hji]
      exact h.slot_top j (htask j hji ▸ hj)
  · rw [hother (.idle c) nofun]
    exact h.idle_top c hc

/-- **Step lemma.** -/
theorem StacksApart.step {cpuCount ring0 : ℕ} {heap : ℕ × ℕ} {s s' : StackSys T C}
    {e : SchedEvent C} (h : StacksApart cpuCount ring0 heap s) (hstep : StackStep heap s e s') :
    StacksApart cpuCount ring0 heap s' := by
  by_cases he : ∃ cpu stack, e = .spawn cpu stack
  · obtain ⟨cpu, stack, rfl⟩ := he
    simp only [StackStep, StackSys.exec] at hstep
    split at hstep
    swap
    · cases hstep
    rename_i hmay
    cases hstep
    obtain heq | ⟨i, hi, hunused, heq⟩ := spawnUser_fills s.sched stack
    · -- the table is full: the stack is lost, nothing else happens
      obtain ⟨hinside, hapart⟩ := h.blocks_cons hmay
      simp only [lockedBody, heq]
      exact ⟨h.inv, hinside, hapart, fun j hj => List.mem_cons_of_mem _ (h.given_mem j hj),
        h.given_inj, h.slot_top, h.idle_top⟩
    · refine h.fill (i := i) hmay (h.inv.spawnUser stack) rfl (by simp only [hi]) ?_ fun t ht => ?_
      · simp only [lockedBody, heq, tasks_modify, if_true]
      · simp only [lockedBody, heq, tasks_modify, if_neg ht]
  · have hs' : s' = { s with sched := lockedBody s.sched e } := by
      cases e with
      | spawn cpu stack => exact absurd ⟨cpu, stack, rfl⟩ he
      | _ => exact (Option.some.inj hstep).symm
    obtain ⟨hfills, hinv⟩ := fillsNone_lockedBody h.inv
      (fun cpu stack heq => he ⟨cpu, stack, heq⟩)
    have hused : ∀ i, (s'.sched.tasks (.slot i)).state ≠ .unused →
        (s.sched.tasks (.slot i)).state ≠ .unused := by
      intro i hi
      rwa [hs', ne_eq, hfills.unused] at hi
    subst hs'
    exact ⟨hinv, h.inside, h.apart, fun i hi => h.given_mem i (hused i hi),
      fun i j hi hj => h.given_inj i j (hused i hi) (hused j hj),
      fun i hi => (hfills.kstack _).trans (h.slot_top i (hused i hi)),
      fun c hc => (hfills.kstack _).trans (h.idle_top c hc)⟩

/-- A CPU that has run `init_cpu` is on some task ever after. -/
theorem current_some_step {heap : ℕ × ℕ} {s s' : StackSys T C} {e : SchedEvent C} {c : Fin C}
    (hinv : StackInv s.sched) (hc : s.sched.current c ≠ none) (hstep : StackStep heap s e s') :
    s'.sched.current c ≠ none := by
  have hs' : s'.sched = lockedBody s.sched e := by
    cases e with
    | spawn cpu stack =>
      simp only [StackStep, StackSys.exec] at hstep
      split at hstep
      · cases hstep
        rfl
      · cases hstep
    | _ =>
      cases hstep
      rfl
  rw [hs']
  cases e with
  | initCpu cpu =>
    simp only [lockedBody, Sched.initCpu, Sched.modify, Function.update_apply]
    split
    · rintro ⟨⟩
    · exact hc
  | spawn cpu stack =>
    obtain heq | ⟨i, -, -, heq⟩ := spawnUser_fills s.sched stack
    · simpa only [lockedBody, heq] using hc
    · simpa only [lockedBody, heq, Sched.modify] using hc
  | exit | blockUntil | blockInput =>
    simpa only [lockedBody, Sched.markCurrentDead, Sched.blockCurrentUntil,
      Sched.blockCurrentInput, current_modifyOpt] using hc
  | wakeSleepers | wakeInput => exact hc
  | schedule cpu frame =>
    obtain ⟨next, hp⟩ := schedule_pass hinv.up cpu frame
    simp only [lockedBody, hp.current, Function.update_apply]
    split
    · rintro ⟨⟩
    · exact hc

/-- **Ring-0 stacks are coherent.**  After any locked bodies in any order, every CPU that
has run `init_cpu` has in `rsp0` the stack top of its current task; each task's stack
top lies at the end of its stack; and the stacks of different tasks do not meet. -/
theorem ring0_stacks_coherent {cpuCount ring0 : ℕ} {heap : ℕ × ℕ}
    (houtside : Apart heap (ring0, ring0 + C * ring0StackSize)) {s : StackSys T C}
    (h : Reachable (StackStart cpuCount ring0) (StackStep heap) s) :
    (∀ c s₀ s₁, Reachable (StackStart cpuCount ring0) (StackStep heap) s₀ →
      StackStep heap s₀ (.initCpu c) s₁ → Reaches (StackStep heap) s₁ s →
      ∃ t, s.sched.current c = some t ∧ s.sched.rsp0 c = (s.sched.tasks t).kstack) ∧
    (∀ t, HasStack cpuCount s t → (stackOf ring0 s t).2 < (s.sched.tasks t).kstack + 16 ∧
      (s.sched.tasks t).kstack ≤ (stackOf ring0 s t).2) ∧
    (∀ t u, t ≠ u → HasStack cpuCount s t → HasStack cpuCount s u →
      Apart (stackOf ring0 s t) (stackOf ring0 s u)) := by
  have hkeep : ∀ {s : StackSys T C}, Reachable (StackStart cpuCount ring0) (StackStep heap) s →
      StacksApart cpuCount ring0 heap s := fun hr =>
    hr.invariant (fun _ h₀ => stacksApart_init h₀) (fun _ _ _ hinv hstep => hinv.step hstep)
  have hinv := hkeep h
  refine ⟨fun c s₀ s₁ h₀ hinit hrun => ?_, fun t ht => ?_, fun t u hne ht hu => ?_⟩
  · have hcur : s.sched.current c ≠ none := by
      have hend : StacksApart cpuCount ring0 heap s ∧ s.sched.current c ≠ none := by
        refine hrun.invariant
          (I := fun s => StacksApart cpuCount ring0 heap s ∧ s.sched.current c ≠ none) ?_
          fun a e b hab hstep => ⟨hab.1.step hstep, current_some_step hab.1.inv hab.2 hstep⟩
        refine ⟨(hkeep h₀).step hinit, ?_⟩
        cases hinit
        simp [lockedBody, Sched.initCpu]
      exact hend.2
    obtain ⟨t, ht⟩ := Option.ne_none_iff_exists'.mp hcur
    exact ⟨t, ht, hinv.inv.rsp0 c t ht⟩
  · cases t with
    | slot i =>
      rw [hinv.slot_top i ht]
      simp only [stackOf, stackBlock]
      omega
    | idle c =>
      rw [hinv.idle_top c ht]
      simp only [stackOf, kstackTop]
      omega
  · have hheap : ∀ (i : Fin T) (c : Fin C), HasStack cpuCount s (.slot i) →
        Apart (stackOf ring0 s (.slot i)) (stackOf ring0 s (.idle c)) := by
      intro i c hi
      have hin := hinv.inside _ (hinv.given_mem i hi)
      have hc : c.val * ring0StackSize + ring0StackSize ≤ C * ring0StackSize := by
        rw [← Nat.succ_mul]
        exact Nat.mul_le_mul_right _ c.isLt
      simp only [Apart, stackOf, stackBlock] at houtside ⊢
      omega
    cases t with
    | slot i =>
      cases u with
      | slot j =>
        refine hinv.apart _ (hinv.given_mem i ht) _ (hinv.given_mem j hu) fun heq => hne ?_
        rw [hinv.given_inj i j ht hu heq]
      | idle c => exact hheap i c ht
    | idle c =>
      cases u with
      | slot j => exact (hheap j c hu).symm
      | idle d =>
        have hcd : c.val ≠ d.val := fun heq => hne (by rw [Fin.ext heq])
        simp only [Apart, stackOf, ring0StackSize]
        omega

/-- A heap window of one megabyte below `RING0_STACKS`, and two tasks on one CPU; the
second preempts the first. -/
def twoStacks : Option (StackSys 2 1) :=
  runEvents (StackSys.exec (0x100000, 0x200000))
    ⟨Sched.initGlobal 1 (fun c => kstackTop 0x300000 c) (fun _ => 0), [], fun _ => 0⟩
    [.initCpu 0, .spawn 0 0x100000, .spawn 0 0x110000, .schedule 0 1000, .schedule 0 1100]

/-- In that run `rsp0` is the top of the second task's stack, which is apart from the
first's. -/
theorem ring0_stacks_coherent_two_tasks :
    ∃ s : StackSys 2 1, s.sched.current 0 = some (.slot 1) ∧
      s.sched.rsp0 0 = (s.sched.tasks (.slot 1)).kstack ∧
      Apart (stackOf 0x300000 s (.slot 0)) (stackOf 0x300000 s (.slot 1)) := by
  have hrun : twoStacks.map (fun s => (s.sched.current 0, (s.sched.tasks (.slot 0)).state,
      (s.sched.tasks (.slot 1)).state)) = some (some (.slot 1), .running, .running) := by decide
  obtain ⟨s, hs, hfacts⟩ := Option.map_eq_some_iff.mp hrun
  simp only [Prod.mk.injEq] at hfacts
  obtain ⟨hcur, h₀, h₁⟩ := hfacts
  have hstart : StackStart 1 0x300000 (⟨Sched.initGlobal 1 (fun c => kstackTop 0x300000 c)
      (fun _ => 0), [], fun _ => 0⟩ : StackSys 2 1) := ⟨_, rfl, rfl⟩
  have hrun' := hs
  rw [twoStacks, runEvents] at hrun'
  obtain ⟨s₁, hinit, hrest⟩ := Option.bind_eq_some_iff.mp hrun'
  have hreach : Reachable (StackStart 1 0x300000) (StackStep (0x100000, 0x200000)) s :=
    ⟨_, hstart, reaches_of_runEvents hs⟩
  obtain ⟨hrsp0, -, hapart⟩ := ring0_stacks_coherent (by unfold Apart; decide) hreach
  obtain ⟨t, ht, htop⟩ := hrsp0 0 _ s₁ ⟨_, hstart, Reaches.refl _⟩ hinit
    (reaches_of_runEvents hrest)
  rw [hcur] at ht
  cases ht
  exact ⟨s, hcur, htop, hapart _ _ (by rintro ⟨⟩) (by simp [HasStack, h₀]) (by simp [HasStack, h₁])⟩

end Pinx.Analysis
