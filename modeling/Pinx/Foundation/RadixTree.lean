import Mathlib.Data.List.Induction
import Mathlib.Data.Nat.Notation
import Mathlib.Logic.Basic

/-!
# Radix trees in a store

A node is a table of cells; `child` says which node, if any, a cell refers to.
`descend` follows a path of indices and `walk` follows one until it ends in a
cell: a cell of the last level, or the first cell that refers to no node.

In a tree no node is at two paths, so writing one cell is felt only by the paths
that go through it.  The two ways a table is extended, changing a cell without
changing what it refers to and attaching a fresh empty node, keep it a tree.
-/

namespace Pinx.Foundation.RadixTree

variable {N I E : Type}

section Walk

variable (child : E → Option N) (cell : N → I → E)

/-- The node at the end of a path. -/
@[grind =] def descend : N → List I → Option N
  | n, [] => some n
  | n, i :: p => (child (cell n i)).bind fun n' => descend n' p

/-- The cell a walk along `p` and then `i` ends in, and how many levels it is above the
last one. -/
@[grind =] def walk : N → List I → I → ℕ × E
  | n, [], i => (0, cell n i)
  | n, j :: p, i =>
    match child (cell n j) with
    | some n' => walk n' p i
    | none => (p.length + 1, cell n j)

/-- No node is at two paths of at most `d` indices. -/
def IsTree (d : ℕ) (root : N) : Prop :=
  ∀ p q n, p.length ≤ d → q.length ≤ d → descend child cell root p = some n →
    descend child cell root q = some n → p = q

end Walk

variable {child : E → Option N} {cell cell' : N → I → E} {root n m : N} {p q : List I} {i j : I}
  {d : ℕ}

theorem descend_append (n : N) (p q : List I) :
    descend child cell n (p ++ q) =
      (descend child cell n p).bind fun m => descend child cell m q := by
  induction p generalizing n with
  | nil => rfl
  | cons i p ih =>
    simp only [List.cons_append, descend]
    cases child (cell n i) with
    | none => rfl
    | some n' => exact ih n'

theorem descend_concat (n : N) (p : List I) (i : I) :
    descend child cell n (p ++ [i]) =
      (descend child cell n p).bind fun m => child (cell m i) := by
  rw [descend_append]
  simp [descend]

/-- Paths only depend on what the cells refer to. -/
theorem descend_congr (h : ∀ n i, child (cell' n i) = child (cell n i)) (n : N) (p : List I) :
    descend child cell' n p = descend child cell n p := by
  induction p generalizing n with
  | nil => rfl
  | cons i p ih =>
    simp only [descend, h]
    congr 1
    funext m
    exact ih m

theorem walk_of_descend (h : descend child cell root p = some n) (i : I) :
    walk child cell root p i = (0, cell n i) := by
  induction p generalizing root with
  | nil =>
    cases h
    rfl
  | cons j p ih =>
    obtain ⟨n', hchild, hrest⟩ := Option.bind_eq_some_iff.mp h
    simp only [walk, hchild]
    exact ih hrest

/-- A walk through a path that leads to `n` goes on from `n`. -/
theorem walk_append (h : descend child cell root p = some n) (q : List I) (i : I) :
    walk child cell root (p ++ q) i = walk child cell n q i := by
  induction p generalizing root with
  | nil =>
    cases h
    rfl
  | cons j p ih =>
    obtain ⟨n', hchild, hrest⟩ := Option.bind_eq_some_iff.mp h
    simp only [List.cons_append, walk, hchild]
    exact ih hrest

/-- A walk depends only on the cells it visits. -/
theorem walk_congr (h : ∀ q j r m, p ++ [i] = q ++ j :: r →
      descend child cell root q = some m → cell' m j = cell m j) :
    walk child cell' root p i = walk child cell root p i := by
  induction p generalizing root with
  | nil => simp only [walk, h [] i [] root rfl rfl]
  | cons k p ih =>
    have hhead : cell' root k = cell root k := h [] k (p ++ [i]) root rfl rfl
    simp only [walk, hhead]
    cases hchild : child (cell root k) with
    | none => rfl
    | some n' =>
      apply ih
      intro q j r m hsplit hdesc
      apply h (k :: q) j r m
      · rw [List.cons_append, hsplit, List.cons_append]
      · simp only [descend, hchild, Option.bind_some, hdesc]

/-- Writing the cell `i` of the node at `p` is not felt by walks that do not go through
`p` and `i`. -/
theorem IsTree.walk_frame (ht : IsTree child cell d root) (hp : descend child cell root p = some n)
    (hpd : p.length ≤ d) (hcell : ∀ m j, m ≠ n ∨ j ≠ i → cell' m j = cell m j)
    {k : I} (hq : q.length ≤ d) (hout : ¬p ++ [i] <+: q ++ [k]) :
    walk child cell' root q k = walk child cell root q k := by
  apply walk_congr
  intro q' j r m hsplit hdesc
  apply hcell
  by_contra hboth
  simp only [not_or, ne_eq, not_not] at hboth
  obtain ⟨rfl, rfl⟩ := hboth
  have hlen : q'.length ≤ d := by
    have := congrArg List.length hsplit
    simp only [List.length_append, List.length_cons, List.length_nil] at this
    omega
  obtain rfl := ht q' p m hlen hpd hdesc hp
  exact hout ⟨r, by rw [hsplit, List.append_assoc, List.singleton_append]⟩

/-- What leaves every path as it was keeps the tree. -/
theorem IsTree.of_descend (ht : IsTree child cell d root)
    (h : ∀ q, q.length ≤ d → descend child cell' root q = descend child cell root q) :
    IsTree child cell' d root := by
  intro p q n hp hq hdp hdq
  rw [h p hp] at hdp
  rw [h q hq] at hdq
  exact ht p q n hp hq hdp hdq

/-- Writing a node of the last level leaves every path as it was. -/
theorem IsTree.descend_last (ht : IsTree child cell d root)
    (hp : descend child cell root p = some n) (hpd : p.length = d)
    (hcell : ∀ m j, m ≠ n → cell' m j = cell m j) (q : List I) (hq : q.length ≤ d) :
    descend child cell' root q = descend child cell root q := by
  induction q using List.reverseRecOn with
  | nil => rfl
  | append_singleton q j ih =>
    rw [List.length_append, List.length_singleton] at hq
    rw [descend_concat, descend_concat, ih (by omega)]
    cases hm : descend child cell root q with
    | none => rfl
    | some m =>
      have hne : m ≠ n := by
        rintro rfl
        have hqp := ht q p m (by omega) (by omega) hm hp
        rw [hqp] at hq
        omega
      simp only [Option.bind_some, hcell m j hne]

/-- A walk is unchanged by such a write to a cell that refers to a node. -/
theorem walk_of_child (h : ∀ n i, child (cell' n i) = child (cell n i))
    (hcell : ∀ m j, child (cell m j) = none → cell' m j = cell m j)
    (hlast : ∀ m, descend child cell root p = some m → cell' m i = cell m i) :
    walk child cell' root p i = walk child cell root p i := by
  induction p generalizing root with
  | nil => simp only [walk, hlast root rfl]
  | cons k p ih =>
    simp only [walk, h]
    cases hchild : child (cell root k) with
    | none => simp only [hcell root k hchild]
    | some n' =>
      apply ih
      intro m hm
      apply hlast
      simp only [descend, hchild, Option.bind_some, hm]

/-- A fresh empty node `new` is attached at cell `i` of the node `n` at `p`. -/
structure Attach (child : E → Option N) (cell cell' : N → I → E) (root : N) (d : ℕ) (p : List I)
    (n : N) (i : I) (new : N) : Prop where
  at_path : descend child cell root p = some n
  depth : p.length < d
  was_none : child (cell n i) = none
  now_new : child (cell' n i) = some new
  fresh : ∀ q, q.length ≤ d → descend child cell root q ≠ some new
  empty : ∀ j, child (cell' new j) = none
  frame : ∀ m j, m ≠ new → m ≠ n ∨ j ≠ i → cell' m j = cell m j

variable {new : N}

/-- Attaching adds exactly one path. -/
theorem Attach.descend_eq (ha : Attach child cell cell' root d p n i new)
    (ht : IsTree child cell d root) (q : List I) (hq : q.length ≤ d) [DecidableEq I] :
    descend child cell' root q =
      if q = p ++ [i] then some new else descend child cell root q := by
  induction q using List.reverseRecOn with
  | nil => simp [descend]
  | append_singleton q j ih =>
    have hqd : q.length ≤ d := by
      rw [List.length_append] at hq
      omega
    rw [descend_concat, descend_concat, ih hqd]
    by_cases hthrough : q = p ++ [i]
    · -- below the new node there is nothing, and there was nothing before
      have hne : q ++ [j] ≠ p ++ [i] := by
        intro heq
        have := congrArg List.length heq
        rw [hthrough] at this
        simp at this
      rw [if_pos hthrough, if_neg hne, hthrough, descend_concat, ha.at_path]
      simp [ha.empty, ha.was_none]
    · rw [if_neg hthrough]
      cases hm : descend child cell root q with
      | none =>
        have hne : q ++ [j] ≠ p ++ [i] := by
          intro heq
          obtain ⟨rfl, -⟩ := List.append_inj' heq rfl
          rw [ha.at_path] at hm
          cases hm
        simp [hne]
      | some m =>
        have hnew : m ≠ new := fun heq => ha.fresh q hqd (heq ▸ hm)
        by_cases hcell : q ++ [j] = p ++ [i]
        · obtain ⟨rfl, hji⟩ := List.append_inj' hcell rfl
          obtain rfl : j = i := by simpa using hji
          rw [ha.at_path] at hm
          obtain rfl := Option.some.inj hm
          simp [ha.now_new]
        · have hside : m ≠ n ∨ j ≠ i := by
            by_contra hboth
            simp only [not_or, ne_eq, not_not] at hboth
            obtain ⟨rfl, rfl⟩ := hboth
            exact hcell (by rw [ht q p m hqd (Nat.le_of_lt ha.depth) hm ha.at_path])
          simp [hcell, ha.frame m j hnew hside]

/-- Attaching keeps the tree. -/
theorem Attach.isTree (ha : Attach child cell cell' root d p n i new)
    (ht : IsTree child cell d root) : IsTree child cell' d root := by
  classical
  intro q r m hq hr hdq hdr
  rw [ha.descend_eq ht q hq] at hdq
  rw [ha.descend_eq ht r hr] at hdr
  split at hdq <;> split at hdr
  · simp_all
  · obtain rfl := Option.some.inj hdq
    exact absurd hdr (ha.fresh r hr)
  · obtain rfl := Option.some.inj hdr
    exact absurd hdq (ha.fresh q hq)
  · exact ht q r m hq hr hdq hdr

/-- Walks that do not go through the new node are unchanged. -/
theorem Attach.walk_frame (ha : Attach child cell cell' root d p n i new)
    (ht : IsTree child cell d root) {k : I} (hq : q.length ≤ d)
    (hout : ¬p ++ [i] <+: q ++ [k]) :
    walk child cell' root q k = walk child cell root q k := by
  apply walk_congr
  intro q' j r m hsplit hdesc
  have hlen : q'.length ≤ d := by
    have := congrArg List.length hsplit
    simp only [List.length_append, List.length_cons, List.length_nil] at this
    omega
  apply ha.frame
  · rintro rfl
    exact ha.fresh q' hlen hdesc
  · by_contra hboth
    simp only [not_or, ne_eq, not_not] at hboth
    obtain ⟨rfl, rfl⟩ := hboth
    obtain rfl := ht q' p m hlen (Nat.le_of_lt ha.depth) hdesc ha.at_path
    exact hout ⟨r, by rw [hsplit, List.append_assoc, List.singleton_append]⟩

/-- A walk through the new node used to end in the cell it hangs from, and now ends in
one of its empty cells. -/
theorem Attach.walk_through (ha : Attach child cell cell' root d p n i new)
    (ht : IsTree child cell d root) (r : List I) (k : I) :
    walk child cell root (p ++ i :: r) k = (r.length + 1, cell n i) ∧
      walk child cell' root (p ++ i :: r) k = (r.length, cell' new ((r ++ [k]).head (by simp))) := by
  classical
  have hnew : descend child cell' root (p ++ [i]) = some new := by
    rw [ha.descend_eq ht _ (by rw [List.length_append]; exact ha.depth), if_pos rfl]
  constructor
  · rw [walk_append ha.at_path]
    simp [walk, ha.was_none]
  · rw [show p ++ i :: r = (p ++ [i]) ++ r by simp, walk_append hnew]
    cases r with
    | nil => rfl
    | cons j r => simp [walk, ha.empty]

end Pinx.Foundation.RadixTree
