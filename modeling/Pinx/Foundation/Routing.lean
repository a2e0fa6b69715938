import Mathlib.Data.Nat.Notation
import Mathlib.Data.List.Basic

/-!
# Routing by first keys

A routing table is a list of first keys with what they lead to.  A key goes to the
entry whose first key is at most it and whose successor's is above it; the last entry
reaches up to a bound `top`.  Nothing is assumed of the order of the entries: a table
whose keys do not ascend has entries that are never reached.
-/

namespace Pinx.Foundation

variable {α : Type}

/-- Where the range of an entry ends: at the first key of the next one. -/
def nextKey (top : ℕ) : List (ℕ × α) → ℕ
  | [] => top
  | (first, _) :: _ => first

/-- The first entry whose range has `x`. -/
def route (top x : ℕ) : List (ℕ × α) → Option α
  | [] => none
  | (first, a) :: rest => if first ≤ x ∧ x < nextKey top rest then some a else route top x rest

variable {β : Type} {top x key : ℕ} {table : List (ℕ × α)} {a : α}

/-- A key is routed to an entry of the table. -/
theorem mem_of_route (h : route top x table = some a) : ∃ first, (first, a) ∈ table := by
  induction table with
  | nil => cases h
  | cons entry rest ih =>
    obtain ⟨first, a'⟩ := entry
    rw [route] at h
    split at h
    · cases h
      exact ⟨first, List.mem_cons_self⟩
    · obtain ⟨first', hmem⟩ := ih h
      exact ⟨first', List.mem_cons_of_mem _ hmem⟩

theorem nextKey_map (f : α → β) :
    nextKey top (table.map fun entry => (entry.1, f entry.2)) = nextKey top table := by
  cases table <;> rfl

/-- What the keys lead to may be replaced before or after the routing. -/
theorem route_map (f : α → β) :
    route top x (table.map fun entry => (entry.1, f entry.2)) = (route top x table).map f := by
  induction table with
  | nil => rfl
  | cons entry rest ih =>
    obtain ⟨first, a⟩ := entry
    rw [List.map_cons, route, route, nextKey_map]
    split
    · rfl
    · exact ih

theorem nextKey_concat : nextKey top (table ++ [(key, a)]) = nextKey key table := by
  cases table <;> rfl

/-- The last entry takes what the entries before it leave, and bounds the last of them. -/
theorem route_concat :
    route top x (table ++ [(key, a)]) =
      (route key x table).or (if key ≤ x ∧ x < top then some a else none) := by
  induction table with
  | nil => rfl
  | cons entry rest ih =>
    obtain ⟨first, a'⟩ := entry
    rw [List.cons_append, route, route, nextKey_concat]
    split
    · rfl
    · exact ih

/-- Entries whose ranges all end at or before `x` do not have it. -/
theorem route_eq_none (htop : top ≤ x) (hkeys : ∀ entry ∈ table, entry.1 ≤ x) :
    route top x table = none := by
  induction table with
  | nil => rfl
  | cons entry rest ih =>
    obtain ⟨first, a⟩ := entry
    have hnext : nextKey top rest ≤ x := by
      cases rest with
      | nil => exact htop
      | cons entry' rest' => exact hkeys _ (List.mem_cons_of_mem _ List.mem_cons_self)
    rw [route, if_neg (by omega)]
    exact ih fun entry' hmem => hkeys entry' (List.mem_cons_of_mem _ hmem)

/-! ## The ranges of a table -/

/-- Each entry with the range of keys that are routed to it. -/
def ranges (top : ℕ) : List (ℕ × α) → List (ℕ × ℕ × α)
  | [] => []
  | (first, a) :: rest => (first, nextKey top rest, a) :: ranges top rest

theorem map_ranges (top : ℕ) (table : List (ℕ × α)) :
    (ranges top table).map (fun r => (r.1, r.2.2)) = table := by
  induction table with
  | nil => rfl
  | cons entry rest ih => exact congrArg (entry :: ·) ih

theorem mem_of_ranges {r : ℕ × ℕ × α} (h : r ∈ ranges top table) : (r.1, r.2.2) ∈ table := by
  have hmem := List.mem_map_of_mem (f := fun r : ℕ × ℕ × α => (r.1, r.2.2)) h
  rwa [map_ranges] at hmem

theorem ranges_map (top : ℕ) (f : α → β) (table : List (ℕ × α)) :
    ranges top (table.map fun entry => (entry.1, f entry.2)) =
      (ranges top table).map fun r => (r.1, r.2.1, f r.2.2) := by
  induction table with
  | nil => rfl
  | cons entry rest ih => rw [List.map_cons, ranges, ranges, List.map_cons, nextKey_map, ih]

/-- A key is in the range of the entry it is routed to. -/
theorem range_of_route (h : route top x table = some a) :
    ∃ r ∈ ranges top table, r.2.2 = a ∧ r.1 ≤ x ∧ x < r.2.1 := by
  induction table with
  | nil => cases h
  | cons entry rest ih =>
    obtain ⟨first, a'⟩ := entry
    rw [route] at h
    split at h
    · rename_i hin
      cases h
      exact ⟨_, List.mem_cons_self, rfl, hin.1, hin.2⟩
    · obtain ⟨r, hmem, hr⟩ := ih h
      exact ⟨r, List.mem_cons_of_mem _ hmem, hr⟩

section Sorted

variable (hsorted : (table.map Prod.fst).Pairwise (· < ·))
include hsorted

/-- The ranges of a table in order follow each other. -/
theorem ranges_apart : (ranges top table).Pairwise fun r r' => r.2.1 ≤ r'.1 := by
  induction table with
  | nil => exact .nil
  | cons entry rest ih =>
    obtain ⟨first, a⟩ := entry
    rw [List.map_cons, List.pairwise_cons] at hsorted
    refine .cons (fun r hr => ?_) (ih hsorted.2)
    have hkey : r.1 ∈ rest.map Prod.fst := List.mem_map_of_mem (f := Prod.fst) (mem_of_ranges hr)
    cases rest with
    | nil => cases hr
    | cons entry' rest' =>
      obtain ⟨hrest, -⟩ := List.pairwise_cons.mp hsorted.2
      rcases List.mem_cons.mp hkey with heq | hmem
      · exact Nat.le_of_eq heq.symm
      · exact Nat.le_of_lt (hrest _ hmem)

/-- A key in the range of an entry of a table in order is routed to that entry. -/
theorem route_of_range {r : ℕ × ℕ × α} (hr : r ∈ ranges top table) (hlo : r.1 ≤ x) (hhi : x < r.2.1) :
    route top x table = some r.2.2 := by
  have hapart := @ranges_apart _ top _ hsorted
  induction table with
  | nil => cases hr
  | cons entry rest ih =>
    obtain ⟨first, a⟩ := entry
    rw [List.map_cons, List.pairwise_cons] at hsorted
    obtain ⟨hhead, htail⟩ := List.pairwise_cons.mp hapart
    rw [route]
    rcases List.mem_cons.mp hr with rfl | hmem
    · exact if_pos ⟨hlo, hhi⟩
    · have hle : nextKey top rest ≤ r.1 := hhead r hmem
      rw [if_neg (by omega)]
      exact ih hsorted.2 hmem htail

end Sorted

end Pinx.Foundation
