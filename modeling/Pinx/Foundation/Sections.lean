import Pinx.Foundation.Transition

/-!
# Sections of code on shared data

`Code σ Λ` is a program with local state `Λ` that works on shared data, one access at a time.
In a `Guarded` system at most one section is under way.  `Serial` says what that is
good for: the data are those that whole sections, one after the other, lead to, or lie on the
way of the section that is under way.
-/

namespace Pinx.Foundation

variable {σ Λ : Type*}

/-- One access of the shared data: the local state and the data after it, or `none` at the end of
the section. -/
abbrev Code (σ Λ : Type*) := Λ → σ → Option (Λ × σ)

namespace Code

variable {code : Code σ Λ}

/-- From `l` on, and with the data `s`, the section comes to its end and leaves `t`. -/
inductive Ends (code : Code σ Λ) : Λ → σ → σ → Prop where
  | done {l : Λ} {s : σ} (h : code l s = none) : Ends code l s s
  | next {l l' : Λ} {s s' t : σ} (h : code l s = some (l', s')) (hrest : Ends code l' s' t) :
      Ends code l s t

/-- Some accesses lead from `l` and `s` to `l'` and `s'`. -/
def Gets (code : Code σ Λ) (l : Λ) (s : σ) (l' : Λ) (s' : σ) : Prop :=
  Relation.ReflTransGen (fun a b => code a.1 a.2 = some b) (l, s) (l', s')

theorem Ends.after {l l' : Λ} {s s' t : σ} (h : Ends code l s t)
    (hstep : code l s = some (l', s')) : Ends code l' s' t := by
  cases h with
  | done hdone =>
    rw [hdone] at hstep
    cases hstep
  | next hnext hrest =>
    rw [hnext] at hstep
    cases hstep
    exact hrest

theorem Ends.of_gets {l l' : Λ} {s s' t : σ} (hgets : Gets code l s l' s')
    (h : Ends code l s t) : Ends code l' s' t := by
  have hall : ∀ a b, Relation.ReflTransGen (fun a b => code a.1 a.2 = some b) a b →
      Ends code a.1 a.2 t → Ends code b.1 b.2 t := by
    intro a b hab
    induction hab with
    | refl => exact id
    | tail _ hstep ih => exact fun ha => (ih ha).after hstep
  exact hall _ _ hgets h

theorem Gets.ends {l l' : Λ} {s s' : σ} (hgets : Gets code l s l' s') (hdone : code l' s' = none) :
    Ends code l s s' := by
  have hall : ∀ a, Relation.ReflTransGen (fun a b => code a.1 a.2 = some b) a (l', s') →
      Ends code a.1 a.2 s' := by
    intro a ha
    induction ha using Relation.ReflTransGen.head_induction_on with
    | refl => exact Ends.done hdone
    | head hstep _ ih => exact Ends.next hstep ih
  exact hall _ hgets

theorem Ends.unique {l : Λ} {s t u : σ} (h : Ends code l s t) (h' : Ends code l s u) : t = u := by
  induction h with
  | done hdone =>
    cases h' with
    | done => rfl
    | next hnext => rw [hdone] at hnext; cases hnext
  | next hnext _ ih => exact ih (h'.after hnext)

/-- The same code, with the name of whoever runs it. -/
def tagged {P : Type*} (code : Code σ Λ) : Code σ (P × Λ) := fun l s =>
  (code l.2 s).map fun r => ((l.1, r.1), r.2)

theorem tagged_eq_some {P : Type*} {l l' : P × Λ} {s s' : σ}
    (h : code.tagged l s = some (l', s')) : l'.1 = l.1 ∧ code l.2 s = some (l'.2, s') := by
  obtain ⟨⟨m, t⟩, hm, heq⟩ := Option.map_eq_some_iff.mp h
  cases heq
  exact ⟨rfl, hm⟩

theorem tagged_gets {P : Type*} {l l' : P × Λ} {s s' : σ} (h : code.tagged.Gets l s l' s') :
    l'.1 = l.1 ∧ code.Gets l.2 s l'.2 s' := by
  have hall : ∀ a b : (P × Λ) × σ,
      Relation.ReflTransGen (fun a b => code.tagged a.1 a.2 = some b) a b →
      b.1.1 = a.1.1 ∧ code.Gets a.1.2 a.2 b.1.2 b.2 := by
    intro a b hab
    induction hab with
    | refl => exact ⟨rfl, Relation.ReflTransGen.refl⟩
    | tail _ hstep ih =>
      obtain ⟨htag, hcode⟩ := tagged_eq_some hstep
      exact ⟨htag.trans ih.1, ih.2.tail hcode⟩
  exact hall _ _ h

theorem tagged_ends {P : Type*} {l : P × Λ} {s t : σ} (h : code.tagged.Ends l s t) :
    code.Ends l.2 s t := by
  induction h with
  | done hdone => exact .done (Option.map_eq_none_iff.mp hdone)
  | next hnext _ ih => exact .next (tagged_eq_some hnext).2 ih

end Code

/-- A program as the tree of its accesses: what the next one does to the data, and how the program
goes on with what it found. -/
inductive Script (σ : Type*) where
  | done
  | access (write : σ → σ) (next : σ → Script σ)

namespace Script

/-- The accesses of a script, one at a time. -/
def code : Code σ (Script σ)
  | .done, _ => none
  | .access write next, s => some (next s, write s)

/-- What a whole script does. -/
def effect : Script σ → σ → σ
  | .done, s => s
  | .access write next, s => effect (next s) (write s)

theorem code_ends (p : Script σ) (s : σ) : code.Ends p s (p.effect s) := by
  induction p generalizing s with
  | done => exact .done rfl
  | access write next ih => exact .next rfl (ih s (write s))

/-- Read, and go on with what was found. -/
def read {α : Type*} (f : σ → α) (next : α → Script σ) : Script σ := .access id fun s => next (f s)

/-- Write, and go on. -/
def store (write : σ → σ) (next : Script σ) : Script σ := .access write fun _ => next

@[simp] theorem effect_done (s : σ) : (Script.done).effect s = s := rfl

@[simp] theorem effect_read {α : Type*} (f : σ → α) (next : α → Script σ) (s : σ) :
    (read f next).effect s = (next (f s)).effect s := rfl

@[simp] theorem effect_store (write : σ → σ) (next : Script σ) (s : σ) :
    (store write next).effect s = next.effect (write s) := rfl

end Script

/-! ## One section at a time -/

/-- Shared data, and the section that is under way on them. -/
structure Guarded (σ Λ : Type*) where
  data : σ
  active : Option Λ

/-- A section begins, makes an access, or is over. -/
inductive Guarded.Step (code : Code σ Λ) (starts : Λ → Prop) :
    Guarded σ Λ → Guarded σ Λ → Prop where
  | enter {s : σ} {l : Λ} (hl : starts l) : Step code starts ⟨s, none⟩ ⟨s, some l⟩
  | access {s s' : σ} {l l' : Λ} (h : code l s = some (l', s')) :
      Step code starts ⟨s, some l⟩ ⟨s', some l'⟩
  | leave {s : σ} {l : Λ} (h : code l s = none) : Step code starts ⟨s, some l⟩ ⟨s, none⟩

/-- A whole section as one step. -/
def SectionStep (code : Code σ Λ) (starts : Λ → Prop) (s : σ) (l : Λ) (s' : σ) : Prop :=
  starts l ∧ code.Ends l s s'

/-- Whole sections lead from `s₀` to `base`; the data are `base`, or the section under way found
`base` and has come to the data. -/
structure Serial (code : Code σ Λ) (starts : Λ → Prop) (s₀ base : σ) (g : Guarded σ Λ) : Prop where
  reached : Reaches (SectionStep code starts) s₀ base
  idle : g.active = none → g.data = base
  busy : ∀ l, g.active = some l → ∃ l₀, starts l₀ ∧ code.Gets l₀ base l g.data

variable {code : Code σ Λ} {starts : Λ → Prop} {s₀ base : σ} {g g' : Guarded σ Λ}

theorem serial_start (s₀ : σ) : Serial code starts s₀ s₀ ⟨s₀, none⟩ :=
  ⟨Reaches.refl _, fun _ => rfl, by simp⟩

/-- **Step lemma.**  Only the end of a section moves `base`. -/
theorem Serial.step (h : Serial code starts s₀ base g) (hstep : Guarded.Step code starts g g') :
    ∃ base', Serial code starts s₀ base' g' := by
  cases hstep with
  | enter hl =>
    have hdata := h.idle rfl
    refine ⟨base, h.reached, by simp, fun l hactive => ?_⟩
    cases hactive
    subst hdata
    exact ⟨_, hl, Relation.ReflTransGen.refl⟩
  | access hacc =>
    obtain ⟨l₀, hl₀, hgets⟩ := h.busy _ rfl
    refine ⟨base, h.reached, by simp, fun l hactive => ?_⟩
    cases hactive
    exact ⟨l₀, hl₀, hgets.tail hacc⟩
  | leave hdone =>
    obtain ⟨l₀, hl₀, hgets⟩ := h.busy _ rfl
    exact ⟨_, h.reached.tail ⟨hl₀, hgets.ends hdone⟩, fun _ => rfl, by simp⟩

end Pinx.Foundation
