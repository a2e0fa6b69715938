import Mathlib.Data.Nat.Notation
import Mathlib.Logic.Relation

/-!
# Runs of a labelled transition system

`Reachable init step s` says that some finite run of labelled steps leads from
an initial state to `s`.  An invariant is shown once: it holds initially and
every step keeps it.
-/

namespace Pinx.Foundation

variable {σ ε : Type*} {init : σ → Prop} {step : σ → ε → σ → Prop}

/-- Some run of `step` leads from `s` to `s'`. -/
def Reaches (step : σ → ε → σ → Prop) (s s' : σ) : Prop :=
  Relation.ReflTransGen (fun a b => ∃ e, step a e b) s s'

/-- Some run of `step` leads from an initial state to `s`. -/
def Reachable (init : σ → Prop) (step : σ → ε → σ → Prop) (s : σ) : Prop :=
  ∃ s₀, init s₀ ∧ Reaches step s₀ s

theorem Reaches.refl (s : σ) : Reaches step s s := Relation.ReflTransGen.refl

theorem Reaches.tail {s t u : σ} {e : ε} (h : Reaches step s t) (he : step t e u) :
    Reaches step s u :=
  Relation.ReflTransGen.tail h ⟨e, he⟩

theorem Reaches.mono {step' : σ → ε → σ → Prop} (hsub : ∀ s e s', step s e s' → step' s e s')
    {s s' : σ} (h : Reaches step s s') : Reaches step' s s' := by
  induction h with
  | refl => exact Reaches.refl s
  | tail _ hst ih =>
    obtain ⟨e, he⟩ := hst
    exact ih.tail (hsub _ e _ he)

/-- What every step keeps holds at the end of a run that starts with it. -/
theorem Reaches.invariant {I : σ → Prop} {s s' : σ} (h : Reaches step s s')
    (hs : I s) (hstep : ∀ s e s', I s → step s e s' → I s') : I s' := by
  induction h with
  | refl => exact hs
  | tail _ hst ih =>
    obtain ⟨e, he⟩ := hst
    exact hstep _ e _ ih he

/-- What holds initially and is kept by every step holds in every reachable state. -/
theorem Reachable.invariant {I : σ → Prop} {s : σ} (h : Reachable init step s)
    (hinit : ∀ s, init s → I s) (hstep : ∀ s e s', I s → step s e s' → I s') : I s := by
  obtain ⟨s₀, h₀, hr⟩ := h
  exact hr.invariant (hinit s₀ h₀) hstep

/-- Run a list of events of a deterministic system. -/
def runEvents (exec : σ → ε → Option σ) : σ → List ε → Option σ
  | s, [] => some s
  | s, e :: es => (exec s e).bind fun s' => runEvents exec s' es

theorem runEvents_append (exec : σ → ε → Option σ) (s : σ) (es fs : List ε) :
    runEvents exec s (es ++ fs) = (runEvents exec s es).bind fun s' => runEvents exec s' fs := by
  induction es generalizing s with
  | nil => rfl
  | cons e es ih =>
    simp only [List.cons_append, runEvents]
    cases exec s e with
    | none => rfl
    | some s' => exact ih s'

/-- The state a list of events leads to is reached. -/
theorem reaches_of_runEvents {exec : σ → ε → Option σ} {s s' : σ} {es : List ε}
    (h : runEvents exec s es = some s') : Reaches (fun a e b => exec a e = some b) s s' := by
  induction es generalizing s with
  | nil =>
    simp only [runEvents, Option.some.injEq] at h
    subst h
    exact Reaches.refl s
  | cons e es ih =>
    simp only [runEvents, Option.bind_eq_some_iff] at h
    obtain ⟨t, ht, hrest⟩ := h
    exact Relation.ReflTransGen.head ⟨e, ht⟩ (ih hrest)

/-- Run a list of events and test the last state.  Every state is handed on by `pass`, which may
bring it into another form. -/
def testRun (exec : σ → ε → Option σ) (pass : σ → (σ → Bool) → Bool) (test : σ → Bool) :
    List ε → σ → Bool
  | [], s => test s
  | e :: es, s =>
    match exec s e with
    | some s' => pass s' (testRun exec pass test es)
    | none => false

theorem runEvents_of_testRun {exec : σ → ε → Option σ} {pass : σ → (σ → Bool) → Bool}
    {test : σ → Bool} (hpass : ∀ s k, pass s k = k s) {es : List ε} {s : σ}
    (h : testRun exec pass test es s = true) : ∃ s', runEvents exec s es = some s' ∧ test s' = true := by
  induction es generalizing s with
  | nil => exact ⟨s, rfl, h⟩
  | cons e es ih =>
    unfold testRun at h
    cases hexec : exec s e with
    | none =>
      rw [hexec] at h
      cases h
    | some t =>
      rw [hexec] at h
      dsimp only at h
      rw [hpass] at h
      rw [runEvents, hexec]
      exact ih h

/-- A run of `n` steps from an initial state: `ss k` is the state after `k` of them. -/
structure IsRun (init : σ → Prop) (step : σ → ε → σ → Prop) (n : ℕ) (ss : ℕ → σ) (es : ℕ → ε) :
    Prop where
  start : init (ss 0)
  step : ∀ k < n, step (ss k) (es k) (ss (k + 1))

theorem IsRun.reachable {n : ℕ} {ss : ℕ → σ} {es : ℕ → ε} (h : IsRun init step n ss es) {k : ℕ}
    (hk : k ≤ n) : Reachable init step (ss k) := by
  refine ⟨ss 0, h.start, ?_⟩
  induction k with
  | zero => exact Reaches.refl _
  | succ k ih => exact (ih (Nat.le_of_succ_le hk)).tail (h.step k hk)

/-- The states a list of events leads through, one after each event. -/
def statesOf (exec : σ → ε → Option σ) : σ → List ε → ℕ → σ
  | s, _, 0 => s
  | s, [], _ + 1 => s
  | s, e :: es, k + 1 => statesOf exec ((exec s e).getD s) es k

/-- A list of events that runs to its end is a run. -/
theorem isRun_of_runEvents {exec : σ → ε → Option σ} {s s' : σ} {es : List ε} (e₀ : ε)
    (hinit : init s) (h : runEvents exec s es = some s') :
    IsRun init (fun a e b => exec a e = some b) es.length (statesOf exec s es)
      (fun k => es.getD k e₀) := by
  have hstep : ∀ k < es.length, exec (statesOf exec s es k) (es.getD k e₀) =
      some (statesOf exec s es (k + 1)) := by
    clear hinit
    induction es generalizing s with
    | nil => exact fun k hk => absurd hk (Nat.not_lt_zero k)
    | cons e es ih =>
      obtain ⟨t, ht, hrest⟩ := Option.bind_eq_some_iff.mp h
      intro k hk
      cases k with
      | zero => simp [statesOf, ht]
      | succ k =>
        have := ih hrest k (Nat.lt_of_succ_lt_succ hk)
        simpa [statesOf, ht] using this
  refine ⟨?_, hstep⟩
  cases es <;> exact hinit

end Pinx.Foundation
