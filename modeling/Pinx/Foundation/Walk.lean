import Mathlib.Data.Fintype.Pigeonhole
import Mathlib.Data.Nat.Notation
import Mathlib.Data.Set.Finite.Basic
import Mathlib.Logic.Relation

/-!
# Walks along a partial function

A walk follows `next : α → Option α` until it gives nothing.  Among finitely many places a
walk ends exactly if none of the places it comes to leads back to itself.
-/

namespace Pinx.Foundation

variable {α : Type*} {next : α → Option α} {a b : α} {m n : ℕ}

/-- Where a walk along `next` is after some steps. -/
def stepsFrom (next : α → Option α) : ℕ → α → Option α
  | 0, a => some a
  | n + 1, a => (next a).bind (stepsFrom next n)

/-- One step of a walk. -/
def Leads (next : α → Option α) (a b : α) : Prop := next a = some b

theorem stepsFrom_add (m n : ℕ) (a : α) :
    stepsFrom next (m + n) a = (stepsFrom next m a).bind (stepsFrom next n) := by
  induction m generalizing a with
  | zero => rw [Nat.zero_add, stepsFrom, Option.bind_some]
  | succ m ih =>
    rw [Nat.add_right_comm, stepsFrom, stepsFrom, Option.bind_assoc]
    exact congrArg _ (funext ih)

theorem stepsFrom_succ (n : ℕ) (a : α) : stepsFrom next (n + 1) a = (stepsFrom next n a).bind next := by
  rw [stepsFrom_add]
  refine congrArg _ (funext fun b => ?_)
  rw [stepsFrom]
  cases next b <;> rfl

/-- A walk that has ended stays so. -/
theorem stepsFrom_none_mono (h : stepsFrom next m a = none) (hle : m ≤ n) : stepsFrom next n a = none := by
  rw [← Nat.add_sub_cancel' hle, stepsFrom_add, h, Option.bind_none]

/-- A walk that comes back to where it was goes round for ever. -/
theorem stepsFrom_round (h : stepsFrom next n b = some b) (k : ℕ) : stepsFrom next (k * n) b = some b := by
  induction k with
  | zero => rw [Nat.zero_mul, stepsFrom]
  | succ k ih => rw [Nat.succ_mul, stepsFrom_add, ih, Option.bind_some, h]

theorem reflTransGen_leads_iff :
    Relation.ReflTransGen (Leads next) a b ↔ ∃ n, stepsFrom next n a = some b := by
  constructor
  · intro h
    induction h with
    | refl => exact ⟨0, rfl⟩
    | tail _ hstep ih =>
      obtain ⟨n, hn⟩ := ih
      exact ⟨n + 1, by rw [stepsFrom_succ, hn]; exact hstep⟩
  · rintro ⟨n, h⟩
    induction n generalizing b with
    | zero => exact Option.some.inj h ▸ Relation.ReflTransGen.refl
    | succ n ih =>
      rw [stepsFrom_succ, Option.bind_eq_some_iff] at h
      obtain ⟨c, hc, hstep⟩ := h
      exact (ih hc).tail hstep

theorem transGen_leads_iff :
    Relation.TransGen (Leads next) a b ↔ ∃ n, stepsFrom next (n + 1) a = some b := by
  rw [Relation.TransGen.tail'_iff]
  constructor
  · rintro ⟨c, hc, hstep⟩
    obtain ⟨n, hn⟩ := reflTransGen_leads_iff.mp hc
    exact ⟨n, by rw [stepsFrom_succ, hn]; exact hstep⟩
  · rintro ⟨n, h⟩
    rw [stepsFrom_succ, Option.bind_eq_some_iff] at h
    obtain ⟨c, hc, hstep⟩ := h
    exact ⟨c, reflTransGen_leads_iff.mpr ⟨n, hc⟩, hstep⟩

/-- A walk among finitely many places ends unless it comes to one that leads back to itself. -/
theorem stepsFrom_ends_iff {S : Set α} (hS : S.Finite) (hin : ∀ n b, stepsFrom next n a = some b → b ∈ S) :
    (∃ n, stepsFrom next n a = none) ↔
      ∀ b, Relation.ReflTransGen (Leads next) a b → ¬Relation.TransGen (Leads next) b b := by
  constructor
  · rintro ⟨n, hn⟩ b hb hround
    obtain ⟨m, hm⟩ := reflTransGen_leads_iff.mp hb
    obtain ⟨k, hk⟩ := transGen_leads_iff.mp hround
    have hlong : stepsFrom next (m + n * (k + 1)) a = some b := by
      rw [stepsFrom_add, hm, Option.bind_some, stepsFrom_round hk]
    have hle : n ≤ n * (k + 1) := Nat.le_mul_of_pos_right n (Nat.succ_pos k)
    rw [stepsFrom_none_mono hn (by omega)] at hlong
    cases hlong
  · intro hacyclic
    by_contra hnever
    have hsome : ∀ n, ∃ b, stepsFrom next n a = some b := fun n =>
      Option.ne_none_iff_exists'.mp fun h => hnever ⟨n, h⟩
    choose place hplace using hsome
    -- infinitely many steps among finitely many places
    have := hS.to_subtype
    obtain ⟨m, n, hne, heq⟩ := Finite.exists_ne_map_eq_of_infinite
      fun n => (⟨place n, hin n _ (hplace n)⟩ : S)
    have hsame : place m = place n := congrArg Subtype.val heq
    obtain ⟨m, n, hlt, hsame⟩ : ∃ m n, m < n ∧ place m = place n := by
      rcases Nat.lt_or_gt_of_ne hne with h | h
      · exact ⟨m, n, h, hsame⟩
      · exact ⟨n, m, h, hsame.symm⟩
    refine hacyclic (place m) (reflTransGen_leads_iff.mpr ⟨m, hplace m⟩)
      (transGen_leads_iff.mpr ⟨n - m - 1, ?_⟩)
    have hlong := hplace n
    rwa [show n = m + (n - m - 1 + 1) by omega, stepsFrom_add, hplace m, Option.bind_some,
      show m + (n - m - 1 + 1) = n by omega, ← hsame] at hlong

end Pinx.Foundation
