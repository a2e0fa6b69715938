import Pinx.Model.SpinLock

/-!
# The lock excludes, and interrupts do not get in its way

`Agrees` says what the interrupt flag is in terms of the flags an activation has saved; from it
follows that handlers do not nest and that lock code is never interrupted.  `LockInv` joins the
CPUs with the lock: it is set exactly while one activation, on one CPU, is in the guarded code.
-/

namespace Pinx.Analysis

open Pinx.Foundation Pinx.Model

variable {P σ Λ ρ : Type*}

/-! ## What one step can do -/

/-- One step of the kernel code a CPU executes, with the interrupt flag, the lock and the data
before and after it. -/
inductive TopStep (code : Code σ Λ) (sections : ρ → Λ) :
    Activation Λ → Bool → Bool → σ → Activation Λ → Bool → Bool → σ → Prop where
  | irqSaveFlags {saves flag k data} :
      TopStep code sections ⟨.outside, saves⟩ flag k data ⟨.saving, flag :: saves⟩ flag k data
  | irqDisable {saves flag k data} :
      TopStep code sections ⟨.saving, saves⟩ flag k data ⟨.outside, saves⟩ false k data
  | irqRestore {old saves flag k data} :
      TopStep code sections ⟨.outside, old :: saves⟩ flag k data ⟨.outside, saves⟩ (old || flag) k data
  | lockFlags {saves flag k data} (r : ρ) :
      TopStep code sections ⟨.outside, saves⟩ flag k data ⟨.entering (sections r), flag :: saves⟩ flag k data
  | lockCli {l saves flag k data} :
      TopStep code sections ⟨.entering l, saves⟩ flag k data ⟨.spinning l, saves⟩ false k data
  | spin {l saves flag data} :
      TopStep code sections ⟨.spinning l, saves⟩ flag true data ⟨.spinning l, saves⟩ flag true data
  | swap {l saves flag data} :
      TopStep code sections ⟨.spinning l, saves⟩ flag false data ⟨.inside l, saves⟩ flag true data
  | access {l l' saves flag k data data'} (h : code l data = some (l', data')) :
      TopStep code sections ⟨.inside l, saves⟩ flag k data ⟨.inside l', saves⟩ flag k data'
  | unlock {l saves flag k data} (h : code l data = none) :
      TopStep code sections ⟨.inside l, saves⟩ flag k data ⟨.leaving, saves⟩ flag false data
  | popfq {old saves flag k data} :
      TopStep code sections ⟨.leaving, old :: saves⟩ flag k data ⟨.outside, saves⟩ old k data

/-- What becomes of a CPU when its kernel code takes a step, is interrupted or returns. -/
inductive CpuStep (code : Code σ Λ) (sections : ρ → Λ) :
    LockCpu Λ → Bool → σ → LockCpu Λ → Bool → σ → Prop where
  | top {c k data t t' flag' k' data'} (htop : c.top = some t)
      (h : TopStep code sections t c.interruptFlag k data t' flag' k' data') :
      CpuStep code sections c k data { c.setTop t' with interruptFlag := flag' } k' data'
  | interrupt {user main handlers k data} :
      CpuStep code sections ⟨true, user, main, handlers⟩ k data
        ⟨false, user, main, ⟨.outside, []⟩ :: handlers⟩ k data
  | iretq {flag user main toUser k data} :
      CpuStep code sections ⟨flag, user, main, [⟨.outside, []⟩]⟩ k data ⟨true, toUser, main, []⟩ k data
  | iretqNested {flag user main below k data} (hbelow : below ≠ []) :
      CpuStep code sections ⟨flag, user, main, ⟨.outside, []⟩ :: below⟩ k data
        ⟨true, user, main, below⟩ k data

variable {code : Code σ Λ} {c : LockCpu Λ} {t t' : Activation Λ} {flag flag' k k' : Bool}
  {data data' : σ}

theorem setTop_self (h : c.top = some t) :
    { c.setTop t with interruptFlag := c.interruptFlag } = c := by
  obtain ⟨flag, user, main, handlers⟩ := c
  cases handlers with
  | nil =>
    cases user with
    | true => cases h
    | false =>
      cases h
      rfl
  | cons b rest =>
    cases h
    rfl

theorem interruptFlag_setTop (c : LockCpu Λ) (t : Activation Λ) :
    (c.setTop t).interruptFlag = c.interruptFlag := by
  unfold LockCpu.setTop
  cases c.handlers <;> rfl

/-- The instructions that only concern the CPU itself are among the steps. -/
theorem act_cases {sections : ρ → Λ} {act : LockAct ρ} {c' : LockCpu Λ}
    (h : c.act sections act = some c') :
    CpuStep code sections c k data c' k data := by
  have hkeep : ∀ t, c.setTop t = { c.setTop t with interruptFlag := c.interruptFlag } := by
    intro t
    rw [← interruptFlag_setTop c t]
  cases act with
  | irqSaveFlags =>
    simp only [LockCpu.act] at h
    split at h
    · cases h
      rw [hkeep]
      exact .top ‹_› .irqSaveFlags
    · cases h
  | irqDisable =>
    simp only [LockCpu.act] at h
    split at h
    · cases h
      exact .top ‹_› .irqDisable
    · cases h
  | irqRestore =>
    simp only [LockCpu.act] at h
    split at h
    · cases h
      exact .top ‹_› .irqRestore
    · cases h
  | lockFlags r =>
    simp only [LockCpu.act] at h
    split at h
    · cases h
      rw [hkeep]
      exact .top ‹_› (.lockFlags r)
    · cases h
  | lockCli =>
    simp only [LockCpu.act] at h
    split at h
    · cases h
      exact .top ‹_› .lockCli
    · cases h
  | popfq =>
    simp only [LockCpu.act] at h
    split at h
    · cases h
      exact .top ‹_› .popfq
    · cases h
  | interrupt =>
    obtain ⟨flag, user, main, handlers⟩ := c
    simp only [LockCpu.act] at h
    split at h
    · rename_i hflag
      cases h
      subst hflag
      exact .interrupt
    · cases h
  | iretq toUser =>
    obtain ⟨flag, user, main, handlers⟩ := c
    simp only [LockCpu.act] at h
    split at h
    · cases h
      exact .iretq
    · rename_i below hne
      cases h
      refine .iretqNested ?_
      rintro rfl
      exact hne rfl
    · cases h
  | swap | access | unlock => cases h

/-- **What one step can do.** -/
theorem exec_cases [DecidableEq P] {sections : P → ρ → Λ} {s s' : LockSys P σ Λ} {p : P}
    {act : LockAct ρ} (h : s.exec code sections (p, act) = some s') :
    ∃ c', s'.cpus = Function.update s.cpus p c' ∧
      CpuStep code (sections p) (s.cpus p) s.locked s.data c' s'.locked s'.data := by
  have hkeep : ∀ t, (s.cpus p).setTop t =
      { (s.cpus p).setTop t with interruptFlag := (s.cpus p).interruptFlag } := by
    intro t
    rw [← interruptFlag_setTop (s.cpus p) t]
  cases act with
  | swap =>
    simp only [LockSys.exec] at h
    split at h
    · rename_i l saves htop
      split at h
      · rename_i hlocked
        cases h
        refine ⟨_, (Function.update_eq_self p s.cpus).symm, ?_⟩
        have hspin : TopStep code (sections p) ⟨.spinning l, saves⟩ (s.cpus p).interruptFlag s.locked
            s.data ⟨.spinning l, saves⟩ (s.cpus p).interruptFlag s.locked s.data := by
          rw [hlocked]
          exact .spin
        have hstep := CpuStep.top htop hspin
        rwa [setTop_self htop] at hstep
      · rename_i hfree
        cases h
        refine ⟨_, rfl, ?_⟩
        rw [hkeep]
        refine .top htop ?_
        rw [Bool.not_eq_true] at hfree
        rw [hfree]
        exact .swap
    · cases h
  | access =>
    simp only [LockSys.exec] at h
    split at h
    · rename_i l saves htop
      split at h
      · rename_i hacc
        cases h
        refine ⟨_, rfl, ?_⟩
        rw [hkeep]
        exact .top htop (.access hacc)
      · cases h
    · cases h
  | unlock =>
    simp only [LockSys.exec] at h
    split at h
    · rename_i l saves htop
      split at h
      · cases h
      · rename_i hdone
        cases h
        refine ⟨_, rfl, ?_⟩
        rw [hkeep]
        exact .top htop (.unlock hdone)
    · cases h
  | irqSaveFlags | irqDisable | irqRestore | lockFlags | lockCli | popfq | interrupt | iretq =>
    obtain ⟨c', hc', rfl⟩ := Option.map_eq_some_iff.mp h
    exact ⟨c', rfl, act_cases hc'⟩

/-! ## The interrupt flag -/

/-- The flag of code that began with `base` and has saved `saves`: off inside any bracket. -/
def bracketFlag (base : Bool) (saves : List Bool) : Bool := saves.isEmpty && base

/-- Each saved flag is the one its bracket found. -/
def Saved (base : Bool) : List Bool → Prop
  | [] => True
  | flag :: saves => flag = bracketFlag base saves ∧ Saved base saves

/-- The interrupt flag is what the brackets of an activation that began with `base` make of it. -/
def Agrees (base : Bool) (a : Activation Λ) (flag : Bool) : Prop :=
  Saved base a.saves ∧
    match a.phase with
    | .outside => flag = bracketFlag base a.saves
    | .saving | .entering _ => ∃ saves, a.saves = flag :: saves
    | .spinning _ | .inside _ | .leaving => a.saves ≠ [] ∧ flag = false

/-- What holds of a CPU: its idle task, or a handler on top of it, agrees with the flag, and
an idle task that is not executing was left with the flag set. -/
inductive CpuInv : LockCpu Λ → Prop where
  | main {flag main} (h : Agrees true main flag) : CpuInv ⟨flag, false, main, []⟩
  | user {main} (hmain : Agrees true main true) : CpuInv ⟨true, true, main, []⟩
  | handler {flag user main a} (hmain : Agrees true main true) (h : Agrees false a flag) :
      CpuInv ⟨flag, user, main, [a]⟩

theorem bracketFlag_cons (base flag : Bool) (saves : List Bool) :
    bracketFlag base (flag :: saves) = false := rfl

theorem Agrees.step {sections : ρ → Λ} {base : Bool} (h : Agrees base t flag)
    (hstep : TopStep code sections t flag k data t' flag' k' data') : Agrees base t' flag' := by
  cases hstep with
  | irqSaveFlags => exact ⟨⟨h.2, h.1⟩, _, rfl⟩
  | irqDisable =>
    obtain ⟨hsaved, saves, rfl⟩ := h
    exact ⟨hsaved, rfl⟩
  | irqRestore =>
    obtain ⟨⟨hold, hsaved⟩, hflag⟩ := h
    refine ⟨hsaved, ?_⟩
    dsimp only at hflag ⊢
    rw [hflag, bracketFlag_cons, Bool.or_false, hold]
  | lockFlags => exact ⟨⟨h.2, h.1⟩, _, rfl⟩
  | lockCli =>
    obtain ⟨hsaved, saves, rfl⟩ := h
    exact ⟨hsaved, List.cons_ne_nil _ _, rfl⟩
  | spin | swap | access | unlock => exact h
  | popfq => exact ⟨h.1.2, h.1.1⟩

/-- Lock code runs with the flag off. -/
theorem Agrees.flag_off {base : Bool} (h : Agrees base t true) :
    t.phase = .outside ∨ t.phase = .saving ∨ ∃ l, t.phase = .entering l := by
  obtain ⟨phase, saves⟩ := t
  cases phase with
  | outside => exact Or.inl rfl
  | saving => exact Or.inr (Or.inl rfl)
  | entering l => exact Or.inr (Or.inr ⟨l, rfl⟩)
  | spinning | inside | leaving => cases h.2.2

/-- A handler never runs with the flag set. -/
theorem Agrees.handler_off (h : Agrees false t flag) : flag = false := by
  have hall : ∀ saves, bracketFlag false saves = false := fun saves => Bool.and_false _
  obtain ⟨phase, saves⟩ := t
  cases phase with
  | outside => exact h.2.trans (hall saves)
  | saving | entering =>
    obtain ⟨hsaved, rest, hrest⟩ := h
    dsimp only at hsaved hrest
    rw [hrest] at hsaved
    exact hsaved.1.trans (hall rest)
  | spinning | inside | leaving => exact h.2.2

/-- **Step lemma for a CPU.** -/
theorem CpuInv.step {sections : ρ → Λ} {c' : LockCpu Λ} (h : CpuInv c)
    (hstep : CpuStep code sections c k data c' k' data') : CpuInv c' := by
  cases hstep with
  | top htop hstep =>
    cases h with
    | main hmain =>
      cases htop
      exact .main (hmain.step hstep)
    | user => cases htop
    | handler hmain ha =>
      cases htop
      exact .handler hmain (ha.step hstep)
  | interrupt =>
    cases h with
    | main hmain => exact .handler hmain ⟨trivial, rfl⟩
    | user hmain => exact .handler hmain ⟨trivial, rfl⟩
    | handler _ ha => cases ha.handler_off
  | @iretq _ _ _ toUser =>
    cases h with
    | handler hmain =>
      cases toUser with
      | true => exact .user hmain
      | false => exact .main hmain
  | iretqNested hbelow =>
    cases h with
    | handler => exact absurd rfl hbelow

/-! ## The lock -/

/-- Some kernel code that was entered on the CPU, executing or not, is in the guarded code. -/
def Inside (c : LockCpu Λ) (l : Λ) : Prop := ∃ a ∈ c.main :: c.handlers, a.phase = .inside l

/-- Only the code a CPU executes can be in the guarded code. -/
theorem CpuInv.inside_iff (h : CpuInv c) (l : Λ) :
    Inside c l ↔ ∃ t, c.top = some t ∧ t.phase = .inside l := by
  have hparked : ∀ {main : Activation Λ}, Agrees true main true → main.phase ≠ .inside l := by
    intro main hmain heq
    obtain ho | ho | ⟨l', ho⟩ := hmain.flag_off <;> rw [heq] at ho <;> cases ho
  cases h with
  | main hmain =>
    constructor
    · rintro ⟨a, ha, hin⟩
      rw [List.mem_singleton] at ha
      exact ⟨_, rfl, ha ▸ hin⟩
    · rintro ⟨t, ht, hin⟩
      cases ht
      exact ⟨_, List.mem_singleton_self _, hin⟩
  | user hmain =>
    constructor
    · rintro ⟨a, ha, hin⟩
      rw [List.mem_singleton.mp ha] at hin
      exact absurd hin (hparked hmain)
    · rintro ⟨t, ⟨⟩, -⟩
  | handler hmain ha =>
    constructor
    · rintro ⟨b, hb, hin⟩
      obtain rfl | hb := List.mem_cons.mp hb
      · exact absurd hin (hparked hmain)
      · rw [List.mem_singleton] at hb
        exact ⟨_, rfl, hb ▸ hin⟩
    · rintro ⟨t, ht, hin⟩
      cases ht
      exact ⟨_, List.mem_cons_of_mem _ (List.mem_singleton_self _), hin⟩

theorem top_setFlag (c : LockCpu Λ) (flag : Bool) :
    LockCpu.top { c with interruptFlag := flag } = c.top := rfl

theorem top_setTop (h : c.top = some t) (t' : Activation Λ) : (c.setTop t').top = some t' := by
  obtain ⟨flag', user, main, handlers⟩ := c
  cases handlers with
  | nil =>
    cases user with
    | true => cases h
    | false => rfl
  | cons => rfl

theorem top_mem (h : c.top = some t) : t ∈ c.main :: c.handlers := by
  obtain ⟨flag, user, main, handlers⟩ := c
  cases handlers with
  | nil =>
    cases user with
    | true => cases h
    | false =>
      cases h
      exact List.mem_singleton_self _
  | cons b rest =>
    cases h
    exact List.mem_cons_of_mem _ List.mem_cons_self

theorem mem_setTop {a : Activation Λ} (h : a ∈ (c.setTop t).main :: (c.setTop t).handlers) :
    a = t ∨ a ∈ c.main :: c.handlers := by
  obtain ⟨flag, user, main, handlers⟩ := c
  cases handlers with
  | nil => exact Or.inl (List.mem_singleton.mp h)
  | cons b rest =>
    simp only [LockCpu.setTop, List.mem_cons] at h ⊢
    obtain rfl | rfl | h := h
    · exact Or.inr (Or.inl rfl)
    · exact Or.inl rfl
    · exact Or.inr (Or.inr (Or.inr h))

/-- The code on a CPU that wants the lock wants it for the beginning of a section. -/
def Asked (sections : ρ → Λ) (c : LockCpu Λ) : Prop :=
  ∀ a ∈ c.main :: c.handlers, ∀ l, a.phase = .entering l ∨ a.phase = .spinning l →
    ∃ r, l = sections r

theorem Asked.step {sections : ρ → Λ} {c' : LockCpu Λ} (h : Asked sections c)
    (hstep : CpuStep code sections c k data c' k' data') : Asked sections c' := by
  cases hstep with
  | top htop hstep =>
    intro a ha l hl
    obtain rfl | ha := mem_setTop ha
    · have hold := h _ (top_mem htop) l
      cases hstep with
      | lockFlags r =>
        obtain ⟨⟨⟩⟩ | ⟨⟨⟩⟩ := hl
        exact ⟨r, rfl⟩
      | lockCli =>
        obtain ⟨⟨⟩⟩ | ⟨⟨⟩⟩ := hl
        exact hold (Or.inl rfl)
      | spin => exact hold hl
      | irqSaveFlags | irqDisable | irqRestore | swap | access | unlock | popfq =>
        obtain ⟨⟨⟩⟩ | ⟨⟨⟩⟩ := hl
    · exact h a ha l hl
  | interrupt =>
    intro a ha l hl
    simp only [List.mem_cons] at ha
    obtain ha | rfl | ha := ha
    · exact h a (List.mem_cons.mpr (Or.inl ha)) l hl
    · obtain ⟨⟨⟩⟩ | ⟨⟨⟩⟩ := hl
    · exact h a (List.mem_cons_of_mem _ ha) l hl
  | iretq =>
    intro a ha l hl
    rw [List.mem_singleton.mp ha] at hl
    exact h _ List.mem_cons_self l hl
  | iretqNested =>
    intro a ha l hl
    obtain rfl | ha := List.mem_cons.mp ha
    · exact h _ List.mem_cons_self l hl
    · exact h a (List.mem_cons_of_mem _ (List.mem_cons_of_mem _ ha)) l hl

/-- What a step means for the guarded code: nothing, or the CPU comes into it, makes an access
or leaves it. -/
inductive Turn (code : Code σ Λ) (sections : ρ → Λ) (c c' : LockCpu Λ) :
    Bool → σ → Bool → σ → Prop where
  | keep {k : Bool} {data : σ} (hsame : ∀ l, Inside c' l ↔ Inside c l) :
      Turn code sections c c' k data k data
  | enter {l : Λ} {data : σ} (hl : ∃ r, l = sections r) (hplace : ∀ l', Inside c' l' ↔ l = l') :
      Turn code sections c c' false data true data
  | access {l l' : Λ} {k : Bool} {data data' : σ} (hin : Inside c l)
      (h : code l data = some (l', data')) (hplace : ∀ l'', Inside c' l'' ↔ l' = l'') : Turn code sections c c' k data k data'
  | leave {l : Λ} {k : Bool} {data : σ} (hin : Inside c l) (h : code l data = none)
      (hplace : ∀ l', ¬Inside c' l') : Turn code sections c c' k data false data

theorem CpuInv.turn {sections : ρ → Λ} {c' : LockCpu Λ} (h : CpuInv c) (hasked : Asked sections c)
    (hstep : CpuStep code sections c k data c' k' data') : Turn code sections c c' k data k' data' := by
  have hafter := (h.step hstep).inside_iff
  cases hstep with
  | top htop hstep =>
    have hin : ∀ l, Inside c l ↔ _ := fun l => (h.inside_iff l).trans (by rw [htop])
    have hin' := fun l => (hafter l).trans (by rw [top_setFlag, top_setTop htop])
    simp only [Option.some.injEq, exists_eq_left'] at hin hin'
    cases hstep with
    | swap =>
      refine .enter (hasked _ (top_mem htop) _ (Or.inr rfl)) fun l' => (hin' l').trans ?_
      exact ⟨fun heq => Phase.inside.inj heq, fun heq => heq ▸ rfl⟩
    | access hacc =>
      refine .access ((hin _).mpr rfl) hacc fun l' => (hin' l').trans ?_
      exact ⟨fun heq => Phase.inside.inj heq, fun heq => heq ▸ rfl⟩
    | unlock hdone =>
      refine .leave ((hin _).mpr rfl) hdone fun l' hl' => ?_
      cases (hin' l').mp hl'
    | irqSaveFlags | irqDisable | irqRestore | lockFlags | lockCli | spin | popfq =>
      refine .keep fun l => (hin' l).trans (Iff.trans ?_ (hin l).symm)
      exact iff_of_false (by rintro ⟨⟩) (by rintro ⟨⟩)
  | interrupt => exact .keep fun l => by simp [Inside]
  | iretq => exact .keep fun l => by simp [Inside]
  | iretqNested => exact .keep fun l => by simp [Inside]

/-- The lock is set exactly while `holder`, a CPU and the place in the guarded code where it
stands, is there. -/
structure LockInv (sections : P → ρ → Λ) (s : LockSys P σ Λ) (holder : Option (P × Λ)) : Prop where
  cpus : ∀ p, CpuInv (s.cpus p)
  asked : ∀ p, Asked (sections p) (s.cpus p)
  locked : s.locked = holder.isSome
  inside : ∀ p l, Inside (s.cpus p) l ↔ holder = some (p, l)

theorem lockInv_start (sections : P → ρ → Λ) (data : σ) :
    LockInv sections (lockStart data : LockSys P σ Λ) none where
  cpus _ := .main ⟨trivial, rfl⟩
  asked p a ha l hl := by
    rw [List.mem_singleton.mp ha] at hl
    obtain ⟨⟨⟩⟩ | ⟨⟨⟩⟩ := hl
  locked := rfl
  inside p l := by simp [Inside, lockStart]

/-- The beginning of a section that a CPU locks for. -/
def Begins (sections : P → ρ → Λ) (l : P × Λ) : Prop := ∃ p r, l = (p, sections p r)

variable [DecidableEq P] {sections : P → ρ → Λ} {s s' : LockSys P σ Λ} {holder : Option (P × Λ)}
  {e : P × LockAct ρ}

/-- A CPU that is not in the guarded code before or after a step. -/
theorem LockInv.keep {p : P} {c' : LockCpu Λ} (h : LockInv sections s holder) (hinv : CpuInv c')
    (hasked : Asked (sections p) c') (hcpus : s'.cpus = Function.update s.cpus p c')
    (hlocked : s'.locked = s.locked) (hsame : ∀ l, Inside c' l ↔ Inside (s.cpus p) l) :
    LockInv sections s' holder := by
  refine ⟨fun q => ?_, fun q => ?_, hlocked.trans h.locked, fun q l => ?_⟩
  · rw [hcpus, Function.update_apply]
    split
    · exact hinv
    · exact h.cpus q
  · rw [hcpus, Function.update_apply]
    split
    · rename_i hq
      exact hq ▸ hasked
    · exact h.asked q
  · rw [← h.inside q l, hcpus, Function.update_apply]
    split
    · rename_i hq
      rw [hq]
      exact hsame l
    · exact Iff.rfl

/-- A CPU that is in the guarded code before a step, or comes into it; no other is. -/
theorem LockInv.move {p : P} {c' : LockCpu Λ} (place : Option Λ) (h : LockInv sections s holder)
    (hinv : CpuInv c') (hasked : Asked (sections p) c')
    (hcpus : s'.cpus = Function.update s.cpus p c') (hlocked : s'.locked = place.isSome)
    (halone : ∀ q l, holder = some (q, l) → q = p) (hplace : ∀ l, Inside c' l ↔ place = some l) :
    LockInv sections s' (place.map (p, ·)) := by
  refine ⟨fun q => ?_, fun q => ?_, by rw [hlocked]; cases place <;> rfl, fun q l => ?_⟩
  · rw [hcpus, Function.update_apply]
    split
    · exact hinv
    · exact h.cpus q
  · rw [hcpus, Function.update_apply]
    split
    · rename_i hq
      exact hq ▸ hasked
    · exact h.asked q
  · have hmap : place.map (p, ·) = some (q, l) ↔ p = q ∧ place = some l := by
      cases place with
      | none => simp
      | some l' => simp [Prod.ext_iff]
    rw [hmap, hcpus, Function.update_apply]
    split
    · rename_i hq
      rw [hplace, hq]
      exact ⟨fun hl => ⟨rfl, hl⟩, fun hl => hl.2⟩
    · rename_i hq
      rw [h.inside]
      exact ⟨fun hl => absurd (halone q l hl) hq, fun hl => absurd hl.1.symm hq⟩

/-- **Step lemma.**  A step keeps the invariant; in the guarded system that a state stands for it
is a step of the section under way, or nothing. -/
theorem LockInv.step (h : LockInv sections s holder) (hstep : LockStep code sections s e s') :
    ∃ holder', LockInv sections s' holder' ∧ (s'.data = s.data ∧ holder' = holder ∨
      Guarded.Step code.tagged (Begins sections) ⟨s.data, holder⟩ ⟨s'.data, holder'⟩) := by
  obtain ⟨p, act⟩ := e
  obtain ⟨c', hcpus, hc⟩ := exec_cases hstep
  have hinv := (h.cpus p).step hc
  have hasked := (h.asked p).step hc
  have hturn := (h.cpus p).turn (h.asked p) hc
  have hlocked := h.locked
  generalize s.locked = k at hturn hlocked
  generalize hk' : s'.locked = k' at hturn
  generalize s.data = d at hturn ⊢
  generalize s'.data = d' at hturn ⊢
  cases hturn with
  | keep hsame => exact ⟨holder, h.keep hinv hasked hcpus (by rw [hk', hlocked, h.locked]) hsame, Or.inl ⟨rfl, rfl⟩⟩
  | @enter l _ hl hplace =>
    obtain ⟨r, rfl⟩ := hl
    obtain rfl : holder = none := by
      cases holder with
      | none => rfl
      | some => cases hlocked
    refine ⟨some (p, sections p r), ?_, Or.inr (.enter ⟨p, r, rfl⟩)⟩
    exact h.move (some (sections p r)) hinv hasked hcpus hk' (by rintro _ _ ⟨⟩) (by simpa using hplace)
  | @access l l' _ _ _ hin hacc hplace =>
    obtain rfl := (h.inside p l).mp hin
    refine ⟨some (p, l'), ?_, Or.inr (.access (Option.map_eq_some_iff.mpr ⟨_, hacc, rfl⟩))⟩
    exact h.move (some l') hinv hasked hcpus (hk'.trans hlocked) (by rintro _ _ ⟨⟩; rfl)
      (by simpa using hplace)
  | @leave l _ _ hin hdone hplace =>
    obtain rfl := (h.inside p l).mp hin
    refine ⟨none, ?_, Or.inr (.leave (Option.map_eq_none_iff.mpr hdone))⟩
    exact h.move none hinv hasked hcpus hk' (by rintro _ _ ⟨⟩; rfl) (by simpa using hplace)

/-- **Run lemma.**  In every reachable state the invariant holds, and the data are those of whole
sections one after the other, up to the section under way. -/
theorem lock_serial {data : σ} (h : Reachable (· = lockStart data) (LockStep code sections) s) :
    ∃ holder base, LockInv sections s holder ∧
      Serial code.tagged (Begins sections) data base ⟨s.data, holder⟩ := by
  refine h.invariant (I := fun s => ∃ holder base, LockInv sections s holder ∧
    Serial code.tagged (Begins sections) data base ⟨s.data, holder⟩) (fun s₀ h₀ => ?_) ?_
  · subst h₀
    exact ⟨none, data, lockInv_start sections data, serial_start data⟩
  · rintro s e s' ⟨holder, base, hinv, hserial⟩ hstep
    obtain ⟨holder', hinv', ⟨hdata, rfl⟩ | hmove⟩ := hinv.step hstep
    · exact ⟨holder', base, hinv', hdata ▸ hserial⟩
    · obtain ⟨base', hserial'⟩ := hserial.step hmove
      exact ⟨holder', base', hinv', hserial'⟩

/-! ## What the lock guarantees -/

/-- Code between the `cli` of `lock` and the `popfq` of the guard. -/
def InLockCode (a : Activation Λ) : Prop :=
  match a.phase with
  | .spinning _ | .inside _ | .leaving => True
  | _ => False

/-- Lock code is what its CPU executes, with interrupts off. -/
theorem CpuInv.lockCode (h : CpuInv c) {a : Activation Λ} (ha : a ∈ c.main :: c.handlers)
    (hlock : InLockCode a) : c.top = some a ∧ c.interruptFlag = false := by
  have hoff : ∀ {base flag : Bool}, Agrees base a flag → flag = false := by
    intro base flag hagrees
    cases flag with
    | false => rfl
    | true =>
      unfold InLockCode at hlock
      obtain ho | ho | ⟨l, ho⟩ := hagrees.flag_off <;> rw [ho] at hlock <;> exact hlock.elim
  cases h with
  | main hmain =>
    cases List.mem_singleton.mp ha
    exact ⟨rfl, hoff hmain⟩
  | user hmain =>
    cases List.mem_singleton.mp ha
    cases hoff hmain
  | handler hmain hhandler =>
    obtain rfl | ha := List.mem_cons.mp ha
    · cases hoff hmain
    · cases List.mem_singleton.mp ha
      exact ⟨rfl, hoff hhandler⟩

/-- A CPU in ring 3, or in code of its idle task outside all brackets, takes interrupts. -/
theorem CpuInv.flag_on (h : CpuInv c) (hnone : c.handlers = [])
    (hout : c.user = true ∨ c.main = ⟨.outside, []⟩) : c.interruptFlag = true := by
  cases h with
  | main hmain =>
    obtain ⟨⟨⟩⟩ | rfl := hout
    exact hmain.2
  | user => rfl
  | handler => cases hnone

theorem CpuInv.handlers_le (h : CpuInv c) : c.handlers.length ≤ 1 := by
  cases h with
  | main | user => exact Nat.zero_le 1
  | handler => exact Nat.le_refl 1

/-- **The lock excludes, and no CPU waits for itself.**  However the CPUs, their interrupts and
their brackets interleave: the lock is set exactly while some code is in the guarded section, and
never two; lock code is always what its CPU executes, with interrupts off; a CPU that finds the lock
set waits for another CPU; handlers do not nest; and outside all brackets interrupts are on. -/
theorem spinlock_excludes {data : σ}
    (h : Reachable (· = lockStart data) (LockStep code sections) s) :
    (s.locked = true ↔ ∃ p l, Inside (s.cpus p) l) ∧
    (∀ p q l l', Inside (s.cpus p) l → Inside (s.cpus q) l' → p = q ∧ l = l') ∧
    (∀ p, ∀ a ∈ (s.cpus p).main :: (s.cpus p).handlers, InLockCode a →
      (s.cpus p).top = some a ∧ (s.cpus p).interruptFlag = false) ∧
    (∀ p l saves, (s.cpus p).top = some ⟨.spinning l, saves⟩ → s.locked = true →
      ∃ q l', q ≠ p ∧ Inside (s.cpus q) l') ∧
    (∀ p, (s.cpus p).handlers.length ≤ 1) ∧
    (∀ p, (s.cpus p).handlers = [] → (s.cpus p).user = true ∨ (s.cpus p).main = ⟨.outside, []⟩ →
      (s.cpus p).interruptFlag = true) := by
  obtain ⟨holder, base, hinv, -⟩ := lock_serial h
  have hholder : s.locked = true → ∃ p l, holder = some (p, l) := by
    intro hlocked
    rw [hinv.locked, Option.isSome_iff_exists] at hlocked
    obtain ⟨⟨p, l⟩, hpl⟩ := hlocked
    exact ⟨p, l, hpl⟩
  refine ⟨⟨fun hlocked => ?_, ?_⟩, fun p q l l' hp hq => ?_,
    fun p a ha hlock => (hinv.cpus p).lockCode ha hlock, fun p l saves htop hlocked => ?_,
    fun p => (hinv.cpus p).handlers_le, fun p => (hinv.cpus p).flag_on⟩
  · obtain ⟨p, l, hpl⟩ := hholder hlocked
    exact ⟨p, l, (hinv.inside p l).mpr hpl⟩
  · rintro ⟨p, l, hin⟩
    rw [hinv.locked, (hinv.inside p l).mp hin]
    rfl
  · have heq := ((hinv.inside p l).mp hp).symm.trans ((hinv.inside q l').mp hq)
    cases heq
    exact ⟨rfl, rfl⟩
  · obtain ⟨q, l', hql⟩ := hholder hlocked
    have hin := (hinv.inside q l').mpr hql
    refine ⟨q, l', ?_, hin⟩
    rintro rfl
    obtain ⟨t, ht, hphase⟩ := ((hinv.cpus q).inside_iff l').mp hin
    rw [htop] at ht
    cases ht
    cases hphase

/-- Code that adds one to the data as often as its local state says. -/
def countingCode : Code ℕ ℕ
  | 0, _ => none
  | l + 1, data => some (l, data + 1)

/-- The first CPU is in the guarded code; the second was interrupted, and its handler finds the
lock set. -/
def contendedRun : Option (LockSys Bool ℕ ℕ) :=
  runEvents (LockSys.exec countingCode fun _ r => r) (lockStart 0)
    [(false, .lockFlags 2), (false, .lockCli), (false, .swap), (false, .access),
      (true, .irqSaveFlags), (true, .interrupt), (true, .lockFlags 1), (true, .lockCli),
      (true, .swap)]

/-- There the second waits for the first. -/
theorem spinlock_excludes_contended :
    ∃ s : LockSys Bool ℕ ℕ, (s.cpus true).top = some ⟨.spinning 1, [false]⟩ ∧
      ∃ q l, q ≠ true ∧ Inside (s.cpus q) l := by
  have hrun : contendedRun.map (fun s => (s.locked, (s.cpus true).top)) =
      some (true, some ⟨.spinning 1, [false]⟩) := by decide
  obtain ⟨s, hs, hfacts⟩ := Option.map_eq_some_iff.mp hrun
  obtain ⟨hlocked, htop⟩ := Prod.mk.inj hfacts
  have hreach : Reachable (· = lockStart 0) (LockStep countingCode fun _ r => r) s :=
    ⟨_, rfl, reaches_of_runEvents hs⟩
  obtain ⟨-, -, -, hwait, -⟩ := spinlock_excludes hreach
  exact ⟨s, htop, hwait true 1 _ htop hlocked⟩

/-! ## Progress -/

/-- The steps of one CPU alone. -/
def StepOf (code : Code σ Λ) (sections : P → ρ → Λ) (q : P) (s : LockSys P σ Λ)
    (e : P × LockAct ρ) (s' : LockSys P σ Λ) : Prop :=
  e.1 = q ∧ LockStep code sections s e s'

/-- The CPU in the guarded code comes out of it by its own steps. -/
theorem release_of_ends (sections : P → ρ → Λ) {q : P} {l : Λ} {saves : List Bool} {d : σ}
    (hends : code.Ends l s.data d) (htop : (s.cpus q).top = some ⟨.inside l, saves⟩) :
    ∃ s', Reaches (StepOf code sections q) s s' ∧ s'.locked = false ∧ s'.data = d ∧
      ∀ p, p ≠ q → s'.cpus p = s.cpus p := by
  generalize hdata : s.data = data at hends
  induction hends generalizing s with
  | done hdone =>
    have hstep : LockStep code sections s (q, .unlock) { s with
        locked := false
        cpus := Function.update s.cpus q ((s.cpus q).setTop ⟨.leaving, saves⟩) } := by
      unfold LockStep
      simp only [LockSys.exec, htop, hdata, hdone]
    exact ⟨_, (Reaches.refl s).tail ⟨rfl, hstep⟩, rfl, hdata, fun p hp => Function.update_of_ne hp _ _⟩
  | @next l l' data data' t hacc _ ih =>
    have hstep : LockStep code sections s (q, .access) { s with
        data := data'
        cpus := Function.update s.cpus q ((s.cpus q).setTop ⟨.inside l', saves⟩) } := by
      unfold LockStep
      simp only [LockSys.exec, htop, hdata, hacc]
    have htop' := top_setTop htop ⟨.inside l', saves⟩
    obtain ⟨s', hrun, hfree, hd, hrest⟩ := ih (s := { s with
        data := data'
        cpus := Function.update s.cpus q ((s.cpus q).setTop ⟨.inside l', saves⟩) })
      (by simpa only [Function.update_self] using htop') rfl
    refine ⟨s', Relation.ReflTransGen.head ⟨_, rfl, hstep⟩ hrun, hfree, hd, fun p hp => ?_⟩
    exact (hrest p hp).trans (Function.update_of_ne hp _ _)

/-- A CPU at the swap takes the lock if it is free. -/
theorem swap_of_free (code : Code σ Λ) (sections : P → ρ → Λ) {p : P} {l : Λ} {saves : List Bool} (hfree : s.locked = false)
    (htop : (s.cpus p).top = some ⟨.spinning l, saves⟩) :
    ∃ s', LockStep code sections s (p, .swap) s' ∧ (s'.cpus p).top = some ⟨.inside l, saves⟩ := by
  have hstep : LockStep code sections s (p, .swap) { s with
      locked := true
      cpus := Function.update s.cpus p ((s.cpus p).setTop ⟨.inside l, saves⟩) } := by
    unfold LockStep
    simp only [LockSys.exec, htop, hfree]
    rfl
  refine ⟨_, hstep, ?_⟩
  simpa only [Function.update_self] using top_setTop htop ⟨.inside l, saves⟩

/-- If the sections end, a CPU at the swap is let in after steps of a single other CPU: the one
in the guarded code, which no interrupt holds up. -/
theorem spinner_enters {data : σ}
    (hends : ∀ p r d, ∃ d', code.Ends (sections p r) d d')
    (h : Reachable (· = lockStart data) (LockStep code sections) s) {p : P} {l : Λ}
    {saves : List Bool} (htop : (s.cpus p).top = some ⟨.spinning l, saves⟩) :
    ∃ q s₁ s₂, Reaches (StepOf code sections q) s s₁ ∧ LockStep code sections s₁ (p, .swap) s₂ ∧
      (s₂.cpus p).top = some ⟨.inside l, saves⟩ := by
  obtain ⟨holder, base, hinv, hserial⟩ := lock_serial h
  cases holder with
  | none =>
    obtain ⟨s₂, hswap, hin⟩ := swap_of_free code sections hinv.locked htop
    exact ⟨p, s, s₂, Reaches.refl s, hswap, hin⟩
  | some holder =>
    obtain ⟨q, lq⟩ := holder
    obtain ⟨t, hq, hphase⟩ := ((hinv.cpus q).inside_iff lq).mp ((hinv.inside q lq).mpr rfl)
    obtain ⟨phase, savesq⟩ := t
    subst hphase
    have hne : p ≠ q := by
      rintro rfl
      rw [htop] at hq
      cases hq
    obtain ⟨_, ⟨p', r, rfl⟩, hgets⟩ := hserial.busy (q, lq) rfl
    obtain ⟨d, hd⟩ := hends p' r base
    obtain ⟨s₁, hrun, hfree, -, hrest⟩ :=
      release_of_ends sections (hd.of_gets (Code.tagged_gets hgets).2) hq
    obtain ⟨s₂, hswap, hin⟩ := swap_of_free code sections hfree
      (by rw [hrest p hne]; exact htop)
    exact ⟨q, s₁, s₂, hrun, hswap, hin⟩

end Pinx.Analysis
