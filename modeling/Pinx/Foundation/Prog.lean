import Mathlib.Data.Nat.Notation

/-!
# Programs that change a state and may stop

`Prog σ ε α` takes a state to a result or an error, and to the state it leaves in
either case: what was written before an error stays written.  `Triple` gives a
program a precondition, a postcondition for results and one for errors.
-/

namespace Pinx.Foundation

/-- A program over states `σ` with errors `ε` and results `α`. -/
def Prog (σ ε α : Type) : Type := σ → Except ε α × σ

namespace Prog

variable {σ ε α β : Type}

/-- The program that returns at once. -/
def ret (a : α) : Prog σ ε α := fun s => (.ok a, s)

/-- Run one program, then another on its result; an error ends both. -/
def andThen (x : Prog σ ε α) (f : α → Prog σ ε β) : Prog σ ε β := fun s =>
  match x s with
  | (.ok a, s') => f a s'
  | (.error e, s') => (.error e, s')

instance : Monad (Prog σ ε) where
  pure := ret
  bind := andThen

/-- The program that stops with an error. -/
def fail (e : ε) : Prog σ ε α := fun s => (.error e, s)

/-- Read the state. -/
def read (f : σ → α) : Prog σ ε α := fun s => (.ok (f s), s)

/-- Change the state. -/
def modify (f : σ → σ) : Prog σ ε Unit := fun s => (.ok (), f s)

/-- A computation that touches no state. -/
def lift (x : Except ε α) : Prog σ ε α := fun s => (x, s)

/-- Turn an error into another outcome. -/
def handle (x : Prog σ ε α) (h : ε → Except ε α) : Prog σ ε α := fun s =>
  match x s with
  | (.ok a, s') => (.ok a, s')
  | (.error e, s') => (h e, s')

variable {s s' : σ} {x : Prog σ ε α} {f : α → Prog σ ε β}

@[simp] theorem pure_apply (a : α) (s : σ) : (pure a : Prog σ ε α) s = (.ok a, s) := rfl

@[simp] theorem fail_apply (e : ε) (s : σ) : (fail e : Prog σ ε α) s = (.error e, s) := rfl

@[simp] theorem read_apply (f : σ → α) (s : σ) : (read f : Prog σ ε α) s = (.ok (f s), s) := rfl

@[simp] theorem modify_apply (f : σ → σ) (s : σ) :
    (modify f : Prog σ ε Unit) s = (.ok (), f s) := rfl

@[simp] theorem lift_apply (x : Except ε α) (s : σ) : (lift x : Prog σ ε α) s = (x, s) := rfl

theorem ite_apply {c : Prop} [Decidable c] (x y : Prog σ ε α) (s : σ) :
    (if c then x else y) s = if c then x s else y s := by
  split <;> rfl

theorem bind_apply (x : Prog σ ε α) (f : α → Prog σ ε β) (s : σ) :
    (x >>= f) s = match x s with
      | (.ok a, s') => f a s'
      | (.error e, s') => (.error e, s') := rfl

theorem bind_ok {a : α} (h : x s = (.ok a, s')) : (x >>= f) s = f a s' := by
  rw [bind_apply, h]

theorem bind_error {e : ε} (h : x s = (.error e, s')) : (x >>= f) s = (.error e, s') := by
  rw [bind_apply, h]

theorem handle_ok {a : α} {h : ε → Except ε α} (hx : x s = (.ok a, s')) :
    handle x h s = (.ok a, s') := by
  rw [handle, hx]

/-- A sequence returns exactly when both parts do. -/
theorem bind_eq_ok {b : β} :
    (x >>= f) s = (.ok b, s') ↔ ∃ a s₁, x s = (.ok a, s₁) ∧ f a s₁ = (.ok b, s') := by
  constructor
  · intro h
    rw [bind_apply] at h
    split at h
    · exact ⟨_, _, ‹_›, h⟩
    · cases h
  · rintro ⟨a, s₁, hx, hf⟩
    rw [bind_ok hx, hf]

theorem exists_state {r : Except ε α} (h : (x s).1 = r) : ∃ s', x s = (r, s') :=
  ⟨(x s).2, Prod.ext h rfl⟩

/-- A result satisfies `Q`, an error `E`, each with the state it leaves. -/
@[irreducible] def Ends (Q : α → σ → Prop) (E : ε → σ → Prop) (r : Except ε α × σ) : Prop :=
  match r with
  | (.ok a, s) => Q a s
  | (.error e, s) => E e s

/-- From a state with `P`, a result satisfies `Q` and an error leaves a state with `E`. -/
def Triple (P : σ → Prop) (x : Prog σ ε α) (Q : α → σ → Prop) (E : ε → σ → Prop) : Prop :=
  ∀ s, P s → Ends Q E (x s)

variable {P P' : σ → Prop} {Q Q' : α → σ → Prop} {R : β → σ → Prop} {E E' : ε → σ → Prop}

@[simp] theorem ends_ok {a : α} : Ends Q E (.ok a, s) ↔ Q a s := by
  rw [Ends]

@[simp] theorem ends_error {e : ε} : Ends Q E (.error e, s) ↔ E e s := by
  rw [Ends]

theorem Ends.ok {a : α} (h : Ends Q E (x s)) (hx : x s = (.ok a, s')) : Q a s' := by
  rw [hx] at h
  exact ends_ok.mp h

theorem Ends.error {e : ε} (h : Ends Q E (x s)) (hx : x s = (.error e, s')) : E e s' := by
  rw [hx] at h
  exact ends_error.mp h

theorem ends_pure {a : α} (h : Q a s) : Ends Q E ((pure a : Prog σ ε α) s) := ends_ok.mpr h

theorem Ends.bind (hx : Ends Q E (x s)) (hf : ∀ a s', Q a s' → Ends R E (f a s')) :
    Ends R E ((x >>= f) s) := by
  cases hrun : x s with
  | mk r s' =>
    cases r with
    | ok a =>
      rw [bind_ok hrun]
      exact hf a s' (hx.ok hrun)
    | error e =>
      rw [bind_error hrun]
      exact ends_error.mpr (hx.error hrun)

theorem Ends.ite {c : Prop} [Decidable c] {y : Prog σ ε α} (hx : c → Ends Q E (x s))
    (hy : ¬c → Ends Q E (y s)) : Ends Q E ((if c then x else y) s) := by
  split
  · exact hx ‹_›
  · exact hy ‹_›

theorem Ends.handle {h : ε → Except ε α} (hx : Ends Q E (x s))
    (hh : ∀ e s', E e s' → Ends Q' E' (h e, s')) (hQ : ∀ a s', Q a s' → Q' a s') :
    Ends Q' E' (handle x h s) := by
  cases hrun : x s with
  | mk r s' =>
    rw [Prog.handle, hrun]
    cases r with
    | ok a => exact ends_ok.mpr (hQ a s' (hx.ok hrun))
    | error e => exact hh e s' (hx.error hrun)

theorem Ends.weaken {r : Except ε α × σ} (h : Ends Q E r) (hQ : ∀ a s, Q a s → Q' a s)
    (hE : ∀ e s, E e s → E' e s) : Ends Q' E' r := by
  match r, h with
  | (.ok a, s), h => exact ends_ok.mpr (hQ a s (ends_ok.mp h))
  | (.error e, s), h => exact ends_error.mpr (hE e s (ends_error.mp h))

/-- What results and errors have in common holds at the end. -/
theorem Ends.state {S : σ → Prop} {r : Except ε α × σ} (h : Ends (fun _ => S) (fun _ => S) r) :
    S r.2 := by
  match r, h with
  | (.ok a, s), h => exact ends_ok.mp h
  | (.error e, s), h => exact ends_error.mp h

/-! ## Counted loops -/

/-- `for i in 0..n`. -/
def forRange : ℕ → (ℕ → Prog σ ε Unit) → Prog σ ε Unit
  | 0, _ => pure ()
  | n + 1, body => do
    forRange n body
    body n

/-- The rule for a counted loop: `I i` holds before turn `i`. -/
theorem forRange_rule {n : ℕ} {body : ℕ → Prog σ ε Unit} {I : ℕ → σ → Prop} (hstart : I 0 s)
    (hturn : ∀ i < n, ∀ s, I i s → Ends (fun _ => I (i + 1)) E (body i s)) :
    Ends (fun _ => I n) E (forRange n body s) := by
  induction n with
  | zero => exact ends_pure hstart
  | succ n ih =>
    exact (ih fun i hi => hturn i (Nat.lt_succ_of_lt hi)).bind fun _ s' hs' =>
      hturn n (Nat.lt_succ_self n) s' hs'

/-! ## Routines that only read -/

/-- The state is the same afterwards, however the routine ends. -/
def Reads (x : Prog σ ε α) : Prop := ∀ s, (x s).2 = s

theorem reads_pure (a : α) : Reads (pure a : Prog σ ε α) := fun _ => rfl

theorem reads_fail (e : ε) : Reads (fail e : Prog σ ε α) := fun _ => rfl

theorem reads_lift (r : Except ε α) : Reads (lift r : Prog σ ε α) := fun _ => rfl

theorem Reads.bind (hx : Reads x) (hf : ∀ a, Reads (f a)) : Reads (x >>= f) := by
  intro s
  have hs := hx s
  rw [bind_apply]
  generalize x s = r at hs ⊢
  obtain ⟨r, s'⟩ := r
  subst hs
  cases r with
  | ok a => exact hf a _
  | error e => rfl

theorem Reads.ite {c : Prop} [Decidable c] {y : Prog σ ε α} (hx : Reads x) (hy : Reads y) :
    Reads (if c then x else y) := by
  split
  · exact hx
  · exact hy

theorem Reads.handle {h : ε → Except ε α} (hx : Reads x) : Reads (handle x h) := by
  intro s
  have hs := hx s
  unfold Prog.handle
  split
  · rename_i hrun
    rwa [hrun] at hs
  · rename_i hrun
    rwa [hrun] at hs

theorem Ends.reads (h : Ends Q E (x s)) (hx : Reads x) :
    Ends (fun a s' => Q a s' ∧ s' = s) (fun e s' => E e s' ∧ s' = s) (x s) := by
  have hs := hx s
  generalize x s = r at h hs ⊢
  obtain ⟨r, s'⟩ := r
  cases r with
  | ok a => exact ends_ok.mpr ⟨ends_ok.mp h, hs⟩
  | error e => exact ends_error.mpr ⟨ends_error.mp h, hs⟩

theorem Reads.eq (h : Reads x) (s : σ) : x s = ((x s).1, s) := Prod.ext rfl (h s)

/-- A sequence that starts with a routine of this kind returns from the same state. -/
theorem Reads.bind_eq_ok {b : β} (h : Reads x) :
    (x >>= f) s = (.ok b, s') ↔ ∃ a, x s = (.ok a, s) ∧ f a s = (.ok b, s') := by
  rw [Prog.bind_eq_ok]
  constructor
  · rintro ⟨a, s₁, hx, hf⟩
    have hs : s₁ = s := by rw [← h s, hx]
    subst hs
    exact ⟨a, hx, hf⟩
  · rintro ⟨a, hx, hf⟩
    exact ⟨a, s, hx, hf⟩

end Prog

/-- A sequence without a state returns exactly when both parts do. -/
theorem except_bind_eq_ok {ε α β : Type} {x : Except ε α} {f : α → Except ε β} {b : β} :
    (x >>= f) = .ok b ↔ ∃ a, x = .ok a ∧ f a = .ok b := by
  cases x with
  | error e => exact ⟨fun h => (nomatch h), fun ⟨_, h, _⟩ => (nomatch h)⟩
  | ok a =>
    constructor
    · intro h
      exact ⟨a, rfl, h⟩
    · rintro ⟨a', ha, h⟩
      cases ha
      exact h

/-- Behind a check that stops with an error, the check is passed. -/
theorem check_eq_ok {ε α : Type} {p : Prop} [Decidable p] {e : ε} {x : Except ε α} {a : α} :
    (if p then .error e else x) = .ok a ↔ ¬p ∧ x = .ok a := by
  by_cases hp : p
  · rw [if_pos hp]
    exact ⟨fun h => (nomatch h), fun h => absurd hp h.1⟩
  · rw [if_neg hp]
    exact ⟨fun h => ⟨hp, h⟩, And.right⟩

end Pinx.Foundation
