import Mathlib.Algebra.BigOperators.Ring.Finset
import Mathlib.Data.Fintype.Card
import Pinx.Analysis.KernelStacks

/-!
# Slots of the task table

`spawn_user` takes an `Unused` slot, and nothing makes a slot `Unused` again: a task
that exits leaves its slot `Dead`.  After `MAX_TASKS` programs have come and gone no
task is alive and none can be spawned (`table_fills_with_dead`).
-/

namespace Pinx.Analysis

open Pinx.Foundation Pinx.Model

variable {T C : ℕ} {s s' : Sched T C}

/-- A task that has been spawned and has not exited. -/
def Live (s : Sched T C) (i : Fin T) : Prop :=
  (s.tasks (.slot i)).state = .ready ∨ (s.tasks (.slot i)).state = .running ∨
    (s.tasks (.slot i)).state = .blocked

/-- A slot that was never filled. -/
def Fresh (s : Sched T C) (i : Fin T) : Prop := (s.tasks (.slot i)).state = .unused

/-- A slot whose task has exited. -/
def Retired (s : Sched T C) (i : Fin T) : Prop := (s.tasks (.slot i)).state = .dead

instance (s : Sched T C) : DecidablePred (Live s) := fun _ => inferInstanceAs (Decidable (_ ∨ _ ∨ _))
instance (s : Sched T C) : DecidablePred (Fresh s) := fun _ => inferInstanceAs (Decidable (_ = _))
instance (s : Sched T C) : DecidablePred (Retired s) := fun _ => inferInstanceAs (Decidable (_ = _))

/-- How many slots satisfy `P`. -/
def slots (P : Fin T → Prop) [DecidablePred P] : ℕ := (Finset.univ.filter P).card

/-- The live, the retired and the fresh slots are all there are. -/
theorem slots_total (s : Sched T C) :
    slots (Live s) + slots (Retired s) + slots (Fresh s) = T := by
  have hone : ∀ i, ((if Live s i then 1 else 0) + (if Retired s i then 1 else 0)) +
      (if Fresh s i then 1 else 0) = 1 := by
    intro i
    obtain ⟨x, hx⟩ : ∃ x, (s.tasks (.slot i)).state = x := ⟨_, rfl⟩
    cases x <;> simp [Live, Retired, Fresh, hx]
  simp only [slots, Finset.card_filter, ← Finset.sum_add_distrib, hone,
    ← Finset.card_eq_sum_ones, Finset.card_univ, Fintype.card_fin]

theorem slots_pos_iff {P : Fin T → Prop} [DecidablePred P] : 0 < slots P ↔ ∃ i, P i := by
  simp [slots, Finset.card_pos, Finset.filter_nonempty_iff]

/-- `spawn_user` succeeds exactly when some slot was never filled, and returns such a
slot. -/
theorem spawnUser_some_iff (s : Sched T C) (stack : ℕ) :
    (∃ i, (s.spawnUser stack).2 = some i ∧ Fresh s i) ↔ ∃ i, Fresh s i := by
  refine ⟨fun ⟨i, _, hi⟩ => ⟨i, hi⟩, fun ⟨i, hi⟩ => ?_⟩
  obtain heq | ⟨j, hj, hfresh, -⟩ := spawnUser_fills s stack
  · have hfind : ((List.finRange T).find? fun i => decide
        ((s.tasks (.slot i)).state = .unused)).isSome = true := by
      rw [List.find?_isSome]
      exact ⟨i, List.mem_finRange i, decide_eq_true hi⟩
    obtain ⟨j, hj⟩ := Option.isSome_iff_exists.mp hfind
    unfold Sched.spawnUser at heq
    rw [hj] at heq
    exact nomatch congrArg Prod.snd heq
  · exact ⟨j, hj, hfresh⟩

/-- **When slots are recycled.**  In any state, "fewer than `MAX_TASKS` live tasks mean that
`spawn_user` returns a slot, and not that of a live task" holds exactly if the
retired tasks do not fill the rest of the table. -/
theorem slots_recycled_iff (s : Sched T C) (stack : ℕ) :
    (slots (Live s) < T → ∃ i, (s.spawnUser stack).2 = some i ∧ ¬Live s i) ↔
      (slots (Live s) < T → slots (Live s) + slots (Retired s) < T) := by
  have htotal := slots_total s
  have hfresh : slots (Live s) + slots (Retired s) < T ↔ ∃ i, Fresh s i := by
    rw [← slots_pos_iff]
    omega
  rw [hfresh, ← spawnUser_some_iff s stack]
  refine imp_congr_right fun _ => ⟨fun ⟨i, hi, _⟩ => ?_, fun ⟨i, hi, hf⟩ => ⟨i, hi, ?_⟩⟩
  · obtain heq | ⟨j, hj, hf, -⟩ := spawnUser_fills s stack
    · rw [heq] at hi
      cases hi
    · exact ⟨j, hj, hf⟩
  · unfold Live
    rw [Fresh] at hf
    simp [hf]

/-! ## A table full of retired tasks -/

/-- The CPU idles and every slot is fresh or retired. -/
structure Quiet (cpu : Fin C) (s : Sched T C) : Prop where
  part : Partition s
  idle : s.current cpu = some (.idle cpu)
  settled : ∀ i, Fresh s i ∨ Retired s i

/-- A pass that finds one `Ready` task and the CPU on no other selects it. -/
theorem Pass.selects_ready {cpu : Fin C} {next : TaskRef T C} (hp : Pass s cpu next s') {i : Fin T}
    (hdef : s.deferred cpu = none) (hcur : s.current cpu ≠ some (.slot i))
    (hready : (s.tasks (.slot i)).state = .ready)
    (hother : ∀ j, (s.tasks (.slot j)).state = .ready → j = i) : next = .slot i := by
  have hpub : ∀ t, ((s.publish cpu).tasks t).state = (s.tasks t).state := by
    intro t
    rw [state_publish, hdef, if_neg nofun]
  obtain hpick | ⟨hnone, -⟩ := hp.choice
  · obtain ⟨⟨j, rfl, hj⟩, -⟩ := pick_spec hpick
    rw [hpub] at hj
    rw [hother j hj]
  · have hfind : ((List.finRange T).find? fun j => decide
        (((s.publish cpu).tasks (.slot j)).state = .ready ∧
          some (TaskRef.slot j) ≠ s.current cpu)).isSome = true := by
      rw [List.find?_isSome]
      exact ⟨i, List.mem_finRange i, by simp [hpub, hready, Ne.symm hcur]⟩
    obtain ⟨j, hj⟩ := Option.isSome_iff_exists.mp hfind
    unfold Sched.pick at hnone
    rw [hj] at hnone
    cases hnone

/-- A pass that finds no `Ready` task and its own retired goes idle. -/
theorem Pass.goes_idle {cpu : Fin C} {next : TaskRef T C} (hp : Pass s cpu next s') {i : Fin T}
    (hdef : s.deferred cpu = none) (hcur : s.current cpu = some (.slot i))
    (hdead : (s.tasks (.slot i)).state = .dead) (huser : (s.tasks (.slot i)).kind = .user)
    (hother : ∀ j, (s.tasks (.slot j)).state ≠ .ready) : next = .idle cpu := by
  have hpub : ∀ t, ((s.publish cpu).tasks t).state = (s.tasks t).state := by
    intro t
    rw [state_publish, hdef, if_neg nofun]
  obtain hpick | ⟨-, ⟨heq, hkeep⟩ | ⟨hidle, -⟩⟩ := hp.choice
  · obtain ⟨⟨j, rfl, hj⟩, -⟩ := pick_spec hpick
    exact absurd (hpub _ ▸ hj) (hother j)
  · rw [hcur] at heq hkeep
    cases heq
    obtain hstill | hkind := hkeep
    · simp [Sched.stillRunning, hpub, hdead] at hstill
    · rw [huser] at hkind
      cases hkind
  · exact hidle

theorem Quiet.not_ready {cpu : Fin C} (h : Quiet cpu s) (k : Fin T) :
    (s.tasks (.slot k)).state ≠ .ready ∧ (s.tasks (.slot k)).state ≠ .blocked := by
  obtain hk | hk := h.settled k
  · rw [Fresh] at hk
    simp [hk]
  · rw [Retired] at hk
    simp [hk]

/-- The table of `s₀`, with a task in state `st` in slot `j`. -/
structure Busy (s₀ : Sched T C) (j : Fin T) (st : TaskState) (s : Sched T C) : Prop where
  part : Partition s
  own : (s.tasks (.slot j)).state = st
  others : ∀ k ≠ j, (s.tasks (.slot k)).state = (s₀.tasks (.slot k)).state

/-- A program is spawned into a fresh slot. -/
theorem Quiet.spawn {cpu : Fin C} (h : Quiet cpu s) (hfresh : ∃ i, Fresh s i) :
    ∃ j s₁, Fresh s j ∧ QueueStep s (.spawn 0) s₁ ∧ Busy s j .ready s₁ ∧
      s₁.current cpu = some (.idle cpu) := by
  obtain ⟨j, hj, hf⟩ := (spawnUser_some_iff s 0).mpr hfresh
  refine ⟨j, (s.spawnUser 0).1, hf, rfl, ?_⟩
  have hpart := h.part.spawnUser 0
  obtain heq | ⟨j', hj', -, heq⟩ := spawnUser_fills s 0
  · rw [heq] at hj
    cases hj
  · obtain rfl : j' = j := Option.some.inj (hj'.symm.trans hj)
    rw [heq] at hpart ⊢
    refine ⟨⟨hpart, by rw [tasks_modify, if_pos rfl], fun k hk => ?_⟩, h.idle⟩
    rw [tasks_modify, if_neg (fun hkj => hk (TaskRef.slot.inj hkj))]

/-- The timer finds it and the idle CPU runs it. -/
theorem Busy.start {cpu : Fin C} {s₀ : Sched T C} {j : Fin T} (h₀ : Quiet cpu s₀)
    (h : Busy s₀ j .ready s) (hidle : s.current cpu = some (.idle cpu)) :
    ∃ s₂, QueueStep s (.timer cpu 0 0) s₂ ∧ Busy s₀ j .running s₂ ∧
      s₂.current cpu = some (.slot j) ∧ s₂.deferred cpu = none := by
  have hstep : QueueStep s (.timer cpu 0 0) ((s.wakeSleepers 0).schedule cpu 0).1 := rfl
  refine ⟨_, hstep, ?_⟩
  have hpart := h.part.step hstep
  obtain ⟨mid, frame, hmid, hs₂⟩ := pass_entry h.part rfl hstep
  rw [hs₂] at hpart ⊢
  obtain ⟨next, hp⟩ := schedule_pass hmid.inv.inv.up cpu frame
  have hmidle : mid.current cpu = some (.idle cpu) := by rw [hmid.current, hidle]
  have hdef : mid.deferred cpu = none :=
    hmid.inv.rest cpu fun i hc => by cases hmidle.symm.trans hc
  have hstate : ∀ k, (mid.tasks (.slot k)).state = (s.tasks (.slot k)).state := by
    intro k
    refine congrArg Task.state (hmid.others k (by rw [hidle]; rintro ⟨⟩) ?_)
    by_cases hk : k = j
    · simp [rouses, Sched.sleeperDue, hk, h.own]
    · simp [rouses, Sched.sleeperDue, h.others k hk, (h₀.not_ready k).2]
  have hnext : next = .slot j := by
    refine hp.selects_ready hdef (by rw [hmidle]; rintro ⟨⟩) (by rw [hstate, h.own]) fun k hk => ?_
    by_contra hkj
    rw [hstate, h.others k hkj] at hk
    exact (h₀.not_ready k).1 hk
  subst hnext
  have hcur : (mid.schedule cpu frame).1.current cpu = some (.slot j) := by
    rw [hp.current, Function.update_self]
  refine ⟨⟨hpart, hpart.running hcur, fun k hk => ?_⟩, hcur, ?_⟩
  · rw [hp.others _ (fun hkj => hk (TaskRef.slot.inj hkj)), state_publish, hdef, if_neg (by rintro ⟨⟩),
      hstate, h.others k hk]
  · rw [hp.deferred, Function.update_self, if_neg]
    rintro ⟨-, hstill⟩
    rw [hmidle] at hstill
    simp only [Sched.stillRunning, decide_eq_true_eq] at hstill
    rw [((publish_kept mid cpu).2.2 _).kind, hmid.inv.inv.idle_kind] at hstill
    cases hstill.1

/-- It exits and the CPU goes idle. -/
theorem Busy.finish {cpu : Fin C} {s₀ : Sched T C} {j : Fin T} (h₀ : Quiet cpu s₀)
    (h : Busy s₀ j .running s) (hcur : s.current cpu = some (.slot j))
    (hdef : s.deferred cpu = none) :
    ∃ s₃, QueueStep s (.exit cpu 0) s₃ ∧ Busy s₀ j .dead s₃ ∧
      s₃.current cpu = some (.idle cpu) := by
  have hstep : QueueStep s (.exit cpu 0) ((s.markCurrentDead cpu).schedule cpu 0).1 := by
    simp [QueueStep, enter, fromUser, hcur]
  refine ⟨_, hstep, ?_⟩
  have hpart := h.part.step hstep
  have htask : ∀ t, (s.markCurrentDead cpu).tasks t =
      if s.current cpu = some t then { s.tasks t with state := .dead } else s.tasks t :=
    fun t => tasks_modifyOpt _ _ _ _
  have hown : ((s.markCurrentDead cpu).tasks (.slot j)).state = .dead := by
    rw [htask, if_pos hcur]
  have hothers : ∀ k ≠ j, ((s.markCurrentDead cpu).tasks (.slot k)).state =
      (s₀.tasks (.slot k)).state := by
    intro k hk
    rw [htask, if_neg, h.others k hk]
    rw [hcur]
    exact fun hkj => hk (TaskRef.slot.inj (Option.some.inj hkj)).symm
  have hdef' : (s.markCurrentDead cpu).deferred cpu = none := by
    rw [Sched.markCurrentDead, deferred_modifyOpt, hdef]
  have hcur' : (s.markCurrentDead cpu).current cpu = some (.slot j) := by
    rw [Sched.markCurrentDead, current_modifyOpt, hcur]
  have hup : (s.markCurrentDead cpu).initialized = true := by
    rw [Sched.markCurrentDead, hcur]
    exact h.part.inv.up
  obtain ⟨next, hp⟩ := schedule_pass hup cpu 0
  have hnext : next = .idle cpu := by
    refine hp.goes_idle hdef' hcur' hown ?_ fun k => ?_
    · rw [htask, if_pos hcur]
      exact h.part.user j (by simp [h.own])
    · by_cases hk : k = j
      · rw [hk, hown]
        rintro ⟨⟩
      · rw [hothers k hk]
        exact (h₀.not_ready k).1
  subst hnext
  have hstate : ∀ k, ((((s.markCurrentDead cpu).schedule cpu 0).1).tasks (.slot k)).state =
      ((s.markCurrentDead cpu).tasks (.slot k)).state := by
    intro k
    rw [hp.others (.slot k) (by rintro ⟨⟩), state_publish, hdef', if_neg (by rintro ⟨⟩)]
  exact ⟨⟨hpart, (hstate j).trans hown, fun k hk => (hstate k).trans (hothers k hk)⟩,
    by rw [hp.current, Function.update_self]⟩

/-- One program comes and goes, and its slot is lost. -/
theorem Quiet.cycle {cpu : Fin C} (h : Quiet cpu s) (hfresh : ∃ i, Fresh s i) :
    ∃ s', Reaches QueueStep s s' ∧ Quiet cpu s' ∧ slots (Fresh s') < slots (Fresh s) := by
  obtain ⟨j, s₁, hj, hstep₁, hbusy₁, hidle⟩ := h.spawn hfresh
  obtain ⟨s₂, hstep₂, hbusy₂, hcur, hdef⟩ := hbusy₁.start h hidle
  obtain ⟨s₃, hstep₃, hbusy₃, hidle₃⟩ := hbusy₂.finish h hcur hdef
  refine ⟨s₃, (((Reaches.refl s).tail hstep₁).tail hstep₂).tail hstep₃,
    ⟨hbusy₃.part, hidle₃, fun k => ?_⟩, Finset.card_lt_card ?_⟩
  · by_cases hk : k = j
    · exact Or.inr (hk ▸ hbusy₃.own)
    · unfold Fresh Retired
      rw [hbusy₃.others k hk]
      exact h.settled k
  · have hnot : ¬Fresh s₃ j := by
      rw [Fresh, hbusy₃.own]
      nofun
    refine Finset.ssubset_iff_subset_ne.mpr ⟨fun k hk => ?_, fun heq => hnot ?_⟩
    · rw [Finset.mem_filter] at hk ⊢
      refine ⟨hk.1, ?_⟩
      by_cases hkj : k = j
      · exact absurd (hkj ▸ hk.2) hnot
      · rw [Fresh, ← hbusy₃.others k hkj]
        exact hk.2
    · have hmem : j ∈ Finset.univ.filter (Fresh s) := by simp [hj]
      rw [← heq, Finset.mem_filter] at hmem
      exact hmem.2

/-- From a quiet table a run leads to one whose slots are all retired. -/
theorem Quiet.fills {cpu : Fin C} (n : ℕ) (h : Quiet cpu s) (hn : slots (Fresh s) ≤ n) :
    ∃ s', Reaches QueueStep s s' ∧ ∀ i, Retired s' i := by
  induction n generalizing s with
  | zero =>
    refine ⟨s, Reaches.refl s, fun i => (h.settled i).resolve_left fun hi => ?_⟩
    have := slots_pos_iff.mpr ⟨i, hi⟩
    omega
  | succ n ih =>
    by_cases hfresh : ∃ i, Fresh s i
    · obtain ⟨s₁, hrun, hquiet, hlt⟩ := h.cycle hfresh
      obtain ⟨s₂, hrun', hall⟩ := ih hquiet (by omega)
      exact ⟨s₂, Relation.ReflTransGen.trans hrun hrun', hall⟩
    · exact ⟨s, Reaches.refl s, fun i => (h.settled i).resolve_left fun hi => hfresh ⟨i, hi⟩⟩

/-- **The table fills with retired tasks.**  `MAX_TASKS` programs come and go on CPU 0;
then no task is alive, and `spawn_user` fails. -/
theorem table_fills_with_dead :
    ∃ s : Sched maxTasks maxCpus, Reachable QueueStart QueueStep s ∧
      slots (Live s) < maxTasks ∧ ∀ stack, (s.spawnUser stack).2 = none := by
  have hboot : QueueStart (Sched.initGlobal 1 (fun _ => 0) (fun _ => 0) : Sched maxTasks maxCpus) :=
    ⟨1, _, _, rfl⟩
  have hstep : QueueStep (Sched.initGlobal 1 (fun _ => 0) (fun _ => 0) : Sched maxTasks maxCpus)
      (.initCpu 0) ((Sched.initGlobal 1 (fun _ => 0) (fun _ => 0)).initCpu 0) := rfl
  have hquiet : Quiet (0 : Fin maxCpus)
      ((Sched.initGlobal 1 (fun _ => 0) (fun _ => 0) : Sched maxTasks maxCpus).initCpu 0) := by
    refine ⟨(partition_init 1 _ _).step hstep, by simp [Sched.initCpu], fun i => Or.inl ?_⟩
    simp [Fresh, Sched.initCpu, tasks_modify, Sched.initGlobal, emptyTask]
  obtain ⟨s, hrun, hall⟩ := hquiet.fills _ le_rfl
  refine ⟨s, ⟨_, hboot, Relation.ReflTransGen.head ⟨_, hstep⟩ hrun⟩, ?_, fun stack => ?_⟩
  · have hlive : slots (Live s) = 0 := by
      rw [← Nat.le_zero, ← not_lt, slots_pos_iff]
      rintro ⟨i, hi⟩
      have hdead := hall i
      rw [Retired] at hdead
      simp [Live, hdead] at hi
    rw [hlive]
    decide
  · obtain heq | ⟨i, -, hunused, -⟩ := spawnUser_fills s stack
    · rw [heq]
    · have hdead := hall i
      rw [Retired, hunused] at hdead
      cases hdead

end Pinx.Analysis
