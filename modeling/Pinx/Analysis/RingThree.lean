import Pinx.Analysis.MapRefinement
import Pinx.Foundation.Transition

/-!
# What ring 3 can reach

A page is reachable from ring 3 when every entry of its walk is present with the
user bit.  `vmm_map_page_flags` adds the user bit to interior entries that kernel
pages share, so the invariant speaks about leaves: a leaf carries the user bit
exactly while the last call on its page was a user variant, and then every entry
above it carries it too (`RingThreeInv`).

Without the tree property the law fails: two entries that share a table share its
leaves (`shared_table_exposes_page`).
-/

namespace Pinx.Analysis

open Pinx.Foundation Pinx.Foundation.WordBitmap Pinx.Foundation.RadixTree Pinx.Model

/-- An entry that lets ring 3 through. -/
def userEntry (e : ℕ) : Bool := e &&& ptePresent ≠ 0 ∧ e &&& pteUser ≠ 0

/-- Every entry on the walk of the address, down to its page or huge page, lets ring 3
through. -/
def ring3Reachable (m : Machine) (va : ℕ) : Bool :=
  match m.pml4 with
  | none => false
  | some pml4 =>
    let e4 := entryAt m.mem pml4 (pml4Index va)
    userEntry e4 && e4 &&& pteHuge == 0 &&
    let e3 := entryAt m.mem (e4 &&& pteAddrMask) (pdptIndex va)
    userEntry e3 && (e3 &&& pteHuge != 0 ||
      let e2 := entryAt m.mem (e3 &&& pteAddrMask) (pdIndex va)
      userEntry e2 && (e2 &&& pteHuge != 0 ||
        userEntry (entryAt m.mem (e2 &&& pteAddrMask) (ptIndex va))))

theorem or_user_and (e : ℕ) : (e ||| pteUser) &&& pteUser ≠ 0 := by
  intro hzero
  rw [Nat.and_or_distrib_right, Nat.and_self] at hzero
  have hle : pteUser ≤ (e &&& pteUser) ||| pteUser := Nat.right_le_or
  rw [hzero] at hle
  exact absurd hle (by decide)

/-- The calls that change mappings. -/
inductive MapCall where
  | mapPage (va pa : ℕ)
  | mapMmio (va pa : ℕ)
  | mapUserPage (va pa : ℕ)
  | mapUserPageFlags (va pa : ℕ) (flags : BitVec 64)
  | mapUserMmio (va pa : ℕ)
  | unmap (va : ℕ)

namespace MapCall

/-- The address a call is about. -/
def va : MapCall → ℕ
  | mapPage va _ | mapMmio va _ | mapUserPage va _ | mapUserPageFlags va _ _
  | mapUserMmio va _ | unmap va => va

/-- Whether the call is one of the user variants. -/
def user : MapCall → Bool
  | mapUserPage .. | mapUserPageFlags .. | mapUserMmio .. => true
  | _ => false

def run : MapCall → Kernel Unit
  | mapPage va pa => vmmMapPage va pa
  | mapMmio va pa => vmmMapMmio va pa
  | mapUserPage va pa => vmmMapUserPage va pa
  | mapUserPageFlags va pa flags => vmmMapUserPageFlags va pa flags.toNat
  | mapUserMmio va pa => vmmMapUserMmio va pa
  | unmap va => vmmUnmapPage va

/-- The machine after a call that did not panic. -/
def exec (m : Machine) (c : MapCall) : Option Machine :=
  match c.run m with
  | (.ok (), m') => some m'
  | (.error _, _) => none

/-- A call either maps its page with some flags, which have the user bit exactly for the
user variants, or unmaps it. -/
theorem run_cases (c : MapCall) :
    (∃ pa flags, c.run = vmmMapPageFlags c.va pa flags ∧ flags < 2 ^ 64 ∧
      (flags &&& pteUser ≠ 0 ↔ c.user = true)) ∨
    (c.run = vmmUnmapPage c.va ∧ c.user = false) := by
  cases c with
  | mapPage va pa => exact Or.inl ⟨pa, _, rfl, by decide, iff_of_false (by decide) (by simp [user])⟩
  | mapMmio va pa => exact Or.inl ⟨pa, _, rfl, by decide, iff_of_false (by decide) (by simp [user])⟩
  | mapUserPage va pa => exact Or.inl ⟨pa, _, rfl, by decide, iff_of_true (by decide) rfl⟩
  | mapUserPageFlags va pa flags =>
    have hlt : flags.toNat ||| pteUser < 2 ^ 64 := Nat.or_lt_two_pow flags.isLt (by decide)
    exact Or.inl ⟨pa, _, rfl, hlt, iff_of_true (or_user_and flags.toNat) rfl⟩
  | mapUserMmio va pa => exact Or.inl ⟨pa, _, rfl, by decide, iff_of_true (by decide) rfl⟩
  | unmap va => exact Or.inr ⟨rfl, rfl⟩

end MapCall

variable {m m' : Machine} {root t t' flags va : ℕ} {p : List (Fin 512)} {i : Fin 512}

theorem userEntry_or_user {e : ℕ} (h : userEntry e = true) : userEntry (e ||| pteUser) = true := by
  simp only [userEntry, decide_eq_true_eq] at h ⊢
  refine ⟨?_, ?_⟩
  · rw [or_and_mask (by decide)]
    exact h.1
  · exact or_user_and e

theorem userEntry_zero : userEntry 0 = false := by decide

/-- Every entry along the interior path `p` lets ring 3 through. -/
def OpenTo (m : Machine) (root : ℕ) (p : List (Fin 512)) : Prop :=
  ∀ q j r n, p = q ++ j :: r → tableAt m root q = some n → userEntry (tableCell m.mem n j) = true

/-- The leaf of the address lets ring 3 through, and so does every entry above it. -/
def Exposed (m : Machine) (root va : ℕ) : Prop :=
  ∃ n, tableAt m root (vaPath va) = some n ∧ userEntry (tableCell m.mem n (idx1 va)) = true ∧
    OpenTo m root (vaPath va)

/-- The law that every call keeps; `last` says which pages a user variant was last
called on. -/
structure RingThreeInv (root : ℕ) (m : Machine) (last : ℕ → Bool) : Prop where
  tree : TableTree m root
  fresh : FramesFresh m root
  exposed : ∀ va, last (pageOf va) = true → ∃ n, tableAt m root (vaPath va) = some n ∧
    userEntry (tableCell m.mem n (idx1 va)) = true ∧ OpenTo m root (vaPath va)
  hidden : ∀ va n, last (pageOf va) = false → tableAt m root (vaPath va) = some n →
    userEntry (tableCell m.mem n (idx1 va)) = false
  huge : ∀ q n j, q.length < 3 → tableAt m root q = some n →
    tableRef (tableCell m.mem n j) = none → userEntry (tableCell m.mem n j) = false

/-! ## The interior levels -/

/-- On an entry that refers to a table, a level at most sets the user bit. -/
theorem LevelStep.userEntry_of_ref (hfresh : FramesFresh m root) (h : LevelStep flags m m' t i t')
    {q : List (Fin 512)} {n : ℕ} {j : Fin 512} (hq : q.length ≤ 3) (hn : tableAt m root q = some n)
    (href : tableRef (tableCell m.mem n j) ≠ none) (huser : userEntry (tableCell m.mem n j) = true) :
    userEntry (tableCell m'.mem n j) = true := by
  cases h with
  | opened _ _ _ hcell _ =>
    rw [hcell]
    split
    · exact userEntry_or_user huser
    · exact huser
  | attached habsent hfree _ _ hcell _ =>
    have hnew : n ≠ t' := by
      rintro rfl
      exact (hfresh n hfree).2 q hq hn
    have hside : ¬(n = t ∧ j = i) := by
      rintro ⟨rfl, rfl⟩
      exact href (tableRef_absent habsent)
    rw [hcell, if_neg hnew, if_neg hside]
    exact huser

/-- A level leaves the tables of the last level alone. -/
theorem LevelStep.cell_last (htree : TableTree m root) (hfresh : FramesFresh m root)
    (hp : tableAt m root p = some t) (hlen : p.length < 3) (h : LevelStep flags m m' t i t')
    {q : List (Fin 512)} {n : ℕ} (hq : q.length = 3) (hn : tableAt m root q = some n)
    (j : Fin 512) : tableCell m'.mem n j = tableCell m.mem n j := by
  have hnt : n ≠ t := by
    rintro rfl
    have hqp := htree.tree q p n hq.le (Nat.le_of_lt hlen) hn hp
    rw [← hqp] at hlen
    omega
  cases h with
  | opened _ _ _ hcell _ => rw [hcell, if_neg fun h => hnt h.1.1]
  | attached _ hfree _ _ hcell _ =>
    have hnew : n ≠ t' := by
      rintro rfl
      exact (hfresh n hfree).2 q hq.le hn
    rw [hcell, if_neg hnew, if_neg fun h => hnt h.1]

/-- A level keeps an open path that leads somewhere open. -/
theorem LevelStep.openTo (hfresh : FramesFresh m root) (hgrows : Grows root m m')
    (h : LevelStep flags m m' t i t') {q : List (Fin 512)} {n : ℕ} (hq : q.length ≤ 3)
    (hn : tableAt m root q = some n) (hopen : OpenTo m root q) : OpenTo m' root q := by
  rintro q' j r n' rfl hn'
  have hq' : q'.length ≤ 3 := by
    rw [List.length_append] at hq
    omega
  -- the prefix already led to this table, and its entry to the next one
  rw [tableAt, descend_append] at hn
  obtain ⟨n₀, hn₀, hrest⟩ := Option.bind_eq_some_iff.mp hn
  obtain rfl : n₀ = n' := by
    have := hgrows.mono q' n₀ hq' hn₀
    rw [hn'] at this
    exact (Option.some.inj this).symm
  have href : tableRef (tableCell m.mem n₀ j) ≠ none := by
    intro hnone
    simp [descend, hnone] at hrest
  exact h.userEntry_of_ref hfresh hq' hn₀ href (hopen q' j r n₀ rfl hn₀)

theorem LevelStep.exposed (htree : TableTree m root) (hfresh : FramesFresh m root)
    (hp : tableAt m root p = some t) (hlen : p.length < 3) (h : LevelStep flags m m' t i t')
    (hva : Exposed m root va) : Exposed m' root va := by
  obtain ⟨n, hn, huser, hopen⟩ := hva
  obtain ⟨hgrows, -⟩ := h.grows htree hfresh hp hlen
  have hle := (length_vaPath va).le
  refine ⟨n, hgrows.mono _ n hle hn, ?_, h.openTo hfresh hgrows hle hn hopen⟩
  rw [h.cell_last htree hfresh hp hlen (length_vaPath va) hn]
  exact huser

/-- An entry without a table behind it, after a level, is one from before or empty. -/
theorem LevelStep.cell_of_none (hp : tableAt m root p = some t) (hlen : p.length < 3)
    (hfresh : FramesFresh m root) (h : LevelStep flags m m' t i t') {n : ℕ} {j : Fin 512}
    (hnone : tableRef (tableCell m'.mem n j) = none) :
    tableCell m'.mem n j = tableCell m.mem n j ∨ tableCell m'.mem n j = 0 := by
  have href := h.tableRef_eq (hfresh.freeOf (Nat.le_of_lt hlen) hp)
  have hside : ¬(n = t ∧ j = i) := by
    rintro ⟨rfl, rfl⟩
    rw [href] at hnone
    cases hnone
  cases h with
  | opened _ _ _ hcell _ => exact Or.inl (by rw [hcell, if_neg fun h => hside h.1])
  | attached _ _ _ _ hcell _ =>
    rw [hcell]
    split
    · exact Or.inr rfl
    · exact Or.inl rfl

/-- An interior level keeps the law. -/
theorem RingThreeInv.level {last : ℕ → Bool} (hinv : RingThreeInv root m last)
    (hp : tableAt m root p = some t) (hlen : p.length < 3) (h : LevelStep flags m m' t i t') :
    RingThreeInv root m' last := by
  obtain ⟨hgrows, -⟩ := h.grows hinv.tree hinv.fresh hp hlen
  refine ⟨hgrows.tree, hgrows.fresh, ?_, ?_, ?_⟩
  · intro va hlast
    exact h.exposed hinv.tree hinv.fresh hp hlen (hinv.exposed va hlast)
  · intro va n hlast hn
    obtain hold | ⟨-, hempty⟩ :=
      h.tableAt_cases hinv.tree hinv.fresh hp hlen (length_vaPath va).le hn
    · rw [h.cell_last hinv.tree hinv.fresh hp hlen (length_vaPath va) hold]
      exact hinv.hidden va n hlast hold
    · rw [hempty]
      exact userEntry_zero
  · intro q n j hq hn hnone
    obtain hold | ⟨-, hempty⟩ := h.tableAt_cases hinv.tree hinv.fresh hp hlen (Nat.le_of_lt hq) hn
    · obtain hsame | hzero := h.cell_of_none hp hlen hinv.fresh hnone
      · rw [hsame] at hnone ⊢
        exact hinv.huge q n j hq hold hnone
      · rw [hzero]
        exact userEntry_zero
    · rw [hempty]
      exact userEntry_zero

/-- The entry a level of a user mapping leaves lets ring 3 through. -/
theorem LevelStep.userEntry_new (hfresh : FreeOf m t) (h : LevelStep flags m m' t i t')
    (huser : flags &&& pteUser ≠ 0) : userEntry (tableCell m'.mem t i) = true := by
  simp only [userEntry, decide_eq_true_eq]
  have href := h.tableRef_eq hfresh
  refine ⟨fun habsent => ?_, ?_⟩
  · rw [tableRef_absent habsent] at href
    cases href
  · cases h with
    | opened _ _ _ hcell _ =>
      rw [hcell, if_pos ⟨⟨rfl, rfl⟩, huser⟩]
      exact or_user_and _
    | attached _ hfree _ _ hcell _ =>
      rw [hcell, if_neg (Ne.symm (hfresh t' hfree).2), if_pos ⟨rfl, rfl⟩]
      intro hzero
      apply huser
      have hor : (t' * pageSize ||| tableFlags flags) &&& pteUser =
          (t' * pageSize ||| (ptePresent ||| pteWritable)) &&& pteUser ||| flags &&& pteUser := by
        rw [tableFlags, ← Nat.or_assoc, Nat.and_or_distrib_right, Nat.and_assoc, Nat.and_self]
      rw [hor] at hzero
      exact Nat.le_zero.mp (Nat.le_trans Nat.right_le_or hzero.le)

/-- A level of a user mapping opens one more entry of the path. -/
theorem OpenTo.step (hopen : OpenTo m root p) (hfresh : FramesFresh m root)
    (hgrows : Grows root m m') (hp : tableAt m root p = some t) (hlen : p.length < 3)
    (h : LevelStep flags m m' t i t') (huser : flags &&& pteUser ≠ 0) :
    OpenTo m' root (p ++ [i]) := by
  intro q j r n hq hn
  rcases List.eq_nil_or_concat r with rfl | ⟨r', k, rfl⟩
  · obtain ⟨rfl, hij⟩ := List.append_inj' hq rfl
    rw [hgrows.mono p t (Nat.le_of_lt hlen) hp] at hn
    obtain rfl := Option.some.inj hn
    rw [← List.singleton_inj.mp hij]
    exact h.userEntry_new (hfresh.freeOf (Nat.le_of_lt hlen) hp) huser
  · rw [List.concat_eq_append, ← List.cons_append, ← List.append_assoc] at hq
    obtain ⟨hpq, -⟩ := List.append_inj' hq rfl
    exact h.openTo hfresh hgrows (Nat.le_of_lt hlen) hp hopen q j r' n hpq hn

/-- The interior levels keep the law, and those of a user mapping open the path. -/
theorem RingThreeInv.ensurePath {last : ℕ → Bool} {pt : ℕ} (hinv : RingThreeInv root m last)
    (h : ensurePath flags (4096 * root) va m = (.ok pt, m')) :
    RingThreeInv root m' last ∧ (flags &&& pteUser ≠ 0 → OpenTo m' root (vaPath va)) := by
  have hopen : OpenTo m root [] := by
    intro q j r n hq
    simp at hq
  obtain ⟨-, -, -, hend⟩ := ensurePath_rule
    (P := fun p m₁ => RingThreeInv root m₁ last ∧ (flags &&& pteUser ≠ 0 → OpenTo m₁ root p))
    hinv.tree hinv.fresh h ⟨hinv, fun _ => hopen⟩ (by
      rintro p t i t' m₁ m₂ - hlen htree hfresh hat hstep ⟨hinv₁, hopen₁⟩
      have hgrows := (hstep.grows htree hfresh hat hlen).1
      exact ⟨hinv₁.level hat hlen hstep,
        fun huser => (hopen₁ huser).step hfresh hgrows hat hlen hstep huser⟩)
  exact hend

/-! ## The leaf -/

theorem path_of_page {va va' : ℕ} (hpage : pageOf va' = pageOf va) :
    vaPath va' = vaPath va ∧ idx1 va' = idx1 va := by
  obtain ⟨hpath, hidx⟩ := List.append_inj' ((vaPath_eq_iff va' va).mpr hpage) rfl
  exact ⟨hpath, List.singleton_inj.mp hidx⟩

section Leaf

variable {n v va' : ℕ} (htree : TableTree m root) (hat : tableAt m root (vaPath va) = some n)
  (hv : v < 2 ^ 64)

theorem withLeaf_cell (hv : v < 2 ^ 64) (n' : ℕ) (j : Fin 512) :
    tableCell (withLeaf m n va v).mem n' j =
      if n' = n ∧ j = idx1 va then v else tableCell m.mem n' j := by
  rw [withLeaf, tableCell_putLE, Nat.mod_eq_of_lt hv]

include htree hat hv

/-- Interior tables are not the page table. -/
theorem withLeaf_interior {q : List (Fin 512)} {n' : ℕ} (hq : q.length < 3)
    (hn' : tableAt m root q = some n') (j : Fin 512) :
    tableCell (withLeaf m n va v).mem n' j = tableCell m.mem n' j := by
  rw [withLeaf_cell hv, if_neg]
  rintro ⟨rfl, -⟩
  have hqp := htree.tree q (vaPath va) n' (Nat.le_of_lt hq) (length_vaPath va).le hn' hat
  rw [hqp, length_vaPath] at hq
  omega

/-- The leaf of another page is another cell. -/
theorem withLeaf_other {n' : ℕ} (hpage : pageOf va' ≠ pageOf va)
    (hn' : tableAt m root (vaPath va') = some n') :
    tableCell (withLeaf m n va v).mem n' (idx1 va') = tableCell m.mem n' (idx1 va') := by
  rw [withLeaf_cell hv, if_neg]
  rintro ⟨rfl, hidx⟩
  have hpath := htree.tree _ _ n' (length_vaPath va').le (length_vaPath va).le hn' hat
  exact hpage ((vaPath_eq_iff va' va).mp (by rw [hpath, hidx]))

theorem OpenTo.withLeaf (hopen : OpenTo m root (vaPath va')) :
    OpenTo (withLeaf m n va v) root (vaPath va') := by
  intro q j r n' hq hn'
  have hlt : q.length < 3 := by
    have := congrArg List.length hq
    rw [length_vaPath, List.length_append, List.length_cons] at this
    omega
  rw [tableAt_withLeaf htree hat q (Nat.le_of_lt hlt)] at hn'
  rw [withLeaf_interior htree hat hv hlt hn']
  exact hopen q j r n' hq hn'

theorem Exposed.withLeaf (h : Exposed m root va') (hpage : pageOf va' ≠ pageOf va) :
    Exposed (withLeaf m n va v) root va' := by
  obtain ⟨n', hn', huser, hopen⟩ := h
  refine ⟨n', ?_, ?_, hopen.withLeaf htree hat hv⟩
  · rw [tableAt_withLeaf htree hat _ (length_vaPath va').le, hn']
  · rw [withLeaf_other htree hat hv hpage hn', huser]

theorem exposed_withLeaf (huser : userEntry v = true) (hopen : OpenTo m root (vaPath va))
    (hpage : pageOf va' = pageOf va) : Exposed (withLeaf m n va v) root va' := by
  obtain ⟨hpath, hidx⟩ := path_of_page hpage
  refine ⟨n, ?_, ?_, ?_⟩
  · rw [hpath, tableAt_withLeaf htree hat _ (length_vaPath va).le, hat]
  · rw [hidx, withLeaf_cell hv, if_pos ⟨rfl, rfl⟩, huser]
  · rw [hpath]
    exact hopen.withLeaf htree hat hv

end Leaf

/-- Writing a leaf keeps the law, with the page's standing set by the leaf. -/
theorem RingThreeInv.withLeaf {last : ℕ → Bool} {n v : ℕ} (hinv : RingThreeInv root m last)
    (hat : tableAt m root (vaPath va) = some n) (hv : v < 2 ^ 64)
    (hopen : userEntry v = true → OpenTo m root (vaPath va)) :
    RingThreeInv root (withLeaf m n va v) (Function.update last (pageOf va) (userEntry v)) := by
  have hdesc := fun q hq => tableAt_withLeaf (v := v) hinv.tree hat q hq
  refine ⟨(withLeaf_spec hinv.tree hat hv).1, ?_, ?_, ?_, ?_⟩
  · intro j hj
    refine ⟨(hinv.fresh j hj).1, fun q hq => ?_⟩
    rw [hdesc q hq]
    exact (hinv.fresh j hj).2 q hq
  · intro va' hlast
    rw [Function.update_apply] at hlast
    split at hlast
    · rename_i hpage
      exact exposed_withLeaf hinv.tree hat hv hlast (hopen hlast) hpage
    · rename_i hpage
      exact Exposed.withLeaf hinv.tree hat hv (hinv.exposed va' hlast) hpage
  · intro va' n' hlast hn'
    rw [hdesc _ (length_vaPath va').le] at hn'
    rw [Function.update_apply] at hlast
    split at hlast
    · rename_i hpage
      obtain ⟨hpath, hidx⟩ := path_of_page hpage
      rw [hpath, hat] at hn'
      obtain rfl := Option.some.inj hn'
      rw [hidx, withLeaf_cell hv, if_pos ⟨rfl, rfl⟩, hlast]
    · rename_i hpage
      rw [withLeaf_other hinv.tree hat hv hpage hn']
      exact hinv.hidden va' n' hlast hn'
  · intro q n' j hq hn' hnone
    rw [hdesc q (Nat.le_of_lt hq)] at hn'
    rw [withLeaf_interior hinv.tree hat hv hq hn'] at hnone ⊢
    exact hinv.huge q n' j hq hn' hnone

/-! ## Whole calls -/

/-- The leaf `vmm_map_page_flags` writes lets ring 3 through exactly for user flags. -/
theorem userEntry_leaf (pa flags : ℕ) :
    userEntry ((pa &&& pteAddrMask) ||| ptePresent ||| flags) = decide (flags &&& pteUser ≠ 0) := by
  have hpresent : ((pa &&& pteAddrMask) ||| ptePresent ||| flags) &&& ptePresent ≠ 0 := by
    intro hzero
    have hbit := congrArg (fun x => Nat.testBit x 0) hzero
    simp [ptePresent] at hbit
  have huser : ((pa &&& pteAddrMask) ||| ptePresent ||| flags) &&& pteUser = flags &&& pteUser := by
    rw [Nat.and_or_distrib_right, Nat.and_or_distrib_right, Nat.and_assoc,
      show pteAddrMask &&& pteUser = 0 by decide, show ptePresent &&& pteUser = 0 by decide,
      Nat.and_zero, Nat.or_zero, Nat.zero_or]
  rw [userEntry, huser]
  simp [hpresent]

/-- A page whose walk meets an absent entry has no user leaf. -/
theorem MeetsAbsent.hidden {n : ℕ} (h : MeetsAbsent m root va)
    (hn : tableAt m root (vaPath va) = some n) : userEntry (tableCell m.mem n (idx1 va)) = false := by
  obtain ⟨p, t, i, r, hpath, hp, habsent⟩ := h
  rcases List.eq_nil_or_concat r with rfl | ⟨r', k, rfl⟩
  · obtain ⟨rfl, hi⟩ := List.append_inj' hpath rfl
    rw [hp] at hn
    obtain rfl := Option.some.inj hn
    rw [List.singleton_inj.mp hi]
    simp [userEntry, habsent]
  · rw [List.concat_eq_append, ← List.cons_append, ← List.append_assoc] at hpath
    obtain ⟨hq, -⟩ := List.append_inj' hpath rfl
    rw [hq, tableAt, descend_append, show descend tableRef (tableCell m.mem) root p = some t from hp]
      at hn
    simp [descend, tableRef_absent habsent] at hn

/-- **Step lemma.**  A call keeps the law, with its page's standing set by its variant. -/
theorem RingThreeInv.call {last : ℕ → Bool} {c : MapCall} (hinv : RingThreeInv root m last)
    (h : c.exec m = some m') :
    RingThreeInv root m' (Function.update last (pageOf c.va) c.user) := by
  have hrun : c.run m = (.ok (), m') := by
    unfold MapCall.exec at h
    split at h
    · rename_i hrun
      rw [hrun, Option.some.inj h]
    · cases h
  obtain ⟨pa, flags, hcall, hflags, huser⟩ | ⟨hcall, huser⟩ := c.run_cases
  · rw [hcall] at hrun
    obtain ⟨-, -, m₁, n, -, hpath, hat, rfl⟩ := vmmMapPageFlags_ok hinv.tree hinv.fresh hrun
    obtain ⟨hinv₁, hopen⟩ := hinv.ensurePath hpath
    have hlt : (pa &&& pteAddrMask) ||| ptePresent ||| flags < 2 ^ 64 := by
      have haddr := addr_lt pa
      exact Nat.or_lt_two_pow (Nat.or_lt_two_pow (by omega) (by decide)) hflags
    have hleaf : userEntry ((pa &&& pteAddrMask) ||| ptePresent ||| flags) = c.user := by
      rw [userEntry_leaf, Bool.eq_iff_iff, decide_eq_true_eq]
      exact huser
    rw [← hleaf]
    apply hinv₁.withLeaf hat hlt
    intro hopened
    apply hopen
    rw [userEntry_leaf] at hopened
    exact of_decide_eq_true hopened
  · rw [hcall] at hrun
    rw [huser]
    obtain ⟨rfl, habsent⟩ | ⟨n, hat, rfl⟩ := vmmUnmapPage_ok hinv.tree hrun
    · refine ⟨hinv.tree, hinv.fresh, ?_, ?_, hinv.huge⟩
      · intro va hlast
        rw [Function.update_apply] at hlast
        split at hlast
        · cases hlast
        · exact hinv.exposed va hlast
      · intro va n hlast hn
        rw [Function.update_apply] at hlast
        split at hlast
        · rename_i hpage
          obtain ⟨hpath, hidx⟩ := List.append_inj' ((vaPath_eq_iff va c.va).mpr hpage) rfl
          rw [hpath] at hn
          rw [List.singleton_inj.mp hidx]
          exact habsent.hidden hn
        · exact hinv.hidden va n hlast hn
    · rw [← userEntry_zero]
      apply hinv.withLeaf hat (by omega)
      intro hopened
      rw [userEntry_zero] at hopened
      cases hopened

/-! ## Reachability -/

theorem tableRef_small {e n : ℕ} (h : tableRef e = some n) : e &&& pteHuge = 0 := by
  unfold tableRef at h
  split at h
  · rename_i hentry
    exact hentry.2
  · cases h

theorem entryAt_cells (m : Machine) (va n : ℕ) :
    entryAt m.mem (4096 * n) (pml4Index va) = tableCell m.mem n (idx4 va) ∧
      entryAt m.mem (4096 * n) (pdptIndex va) = tableCell m.mem n (idx3 va) ∧
      entryAt m.mem (4096 * n) (pdIndex va) = tableCell m.mem n (idx2 va) ∧
      entryAt m.mem (4096 * n) (ptIndex va) = tableCell m.mem n (idx1 va) := by
  simp only [← entryAt_tableCell]
  exact ⟨rfl, rfl, rfl, rfl⟩

/-- Ring 3 reaches the pages that are exposed. -/
theorem Exposed.reachable (h : Exposed m root va) (hroot : m.pml4 = some (4096 * root)) :
    ring3Reachable m va = true := by
  obtain ⟨n, hn, huser, hopen⟩ := h
  have hat₀ : tableAt m root [] = some root := rfl
  -- the tables on the way
  rw [show vaPath va = [idx4 va, idx3 va] ++ [idx2 va] from rfl, tableAt_concat] at hn
  obtain ⟨n₂, hat₂, href₂⟩ := Option.bind_eq_some_iff.mp hn
  have hat₂' := hat₂
  rw [show [idx4 va, idx3 va] = [idx4 va] ++ [idx3 va] from rfl, tableAt_concat] at hat₂'
  obtain ⟨n₁, hat₁, href₁⟩ := Option.bind_eq_some_iff.mp hat₂'
  have href₀ : tableRef (tableCell m.mem root (idx4 va)) = some n₁ := by
    have hat₁' := hat₁
    rw [show [idx4 va] = [] ++ [idx4 va] from rfl, tableAt_concat, hat₀] at hat₁'
    exact hat₁'
  unfold ring3Reachable
  simp only [hroot, (entryAt_cells m va root).1, Bool.and_eq_true, Bool.or_eq_true, beq_iff_eq,
    bne_iff_ne, ne_eq]
  refine ⟨⟨hopen [] (idx4 va) _ root rfl hat₀, tableRef_small href₀⟩, ?_⟩
  rw [tableRef_addr href₀, (entryAt_cells m va n₁).2.1]
  refine ⟨hopen [idx4 va] (idx3 va) _ n₁ rfl hat₁, Or.inr ?_⟩
  rw [tableRef_addr href₁, (entryAt_cells m va n₂).2.2.1]
  refine ⟨hopen [idx4 va, idx3 va] (idx2 va) _ n₂ rfl hat₂, Or.inr ?_⟩
  rw [tableRef_addr href₂, (entryAt_cells m va n).2.2.2]
  exact huser

/-- One level of the walk: an interior entry that lets ring 3 through leads to a table. -/
theorem RingThreeInv.tableRef_of_user {last : ℕ → Bool} (hinv : RingThreeInv root m last)
    {q : List (Fin 512)} {n : ℕ} {j : Fin 512} (hq : q.length < 3)
    (hn : tableAt m root q = some n) (huser : userEntry (tableCell m.mem n j) = true) :
    tableCell m.mem n j &&& pteHuge = 0 ∧ ∃ n', tableAt m root (q ++ [j]) = some n' ∧
      tableCell m.mem n j &&& pteAddrMask = 4096 * n' := by
  cases href : tableRef (tableCell m.mem n j) with
  | none =>
    rw [hinv.huge q n j hq hn href] at huser
    cases huser
  | some n' =>
    refine ⟨tableRef_small href, n', ?_, tableRef_addr href⟩
    rw [tableAt_concat, hn, Option.bind_some, href]

/-- Under the law, ring 3 reaches exactly the pages a user variant was last called on. -/
theorem RingThreeInv.reachable_iff {last : ℕ → Bool} (hinv : RingThreeInv root m last) (va : ℕ) :
    ring3Reachable m va = true ↔ last (pageOf va) = true := by
  refine ⟨fun hreach => ?_, fun hlast => Exposed.reachable (hinv.exposed va hlast) hinv.tree.pml4⟩
  have hat₀ : tableAt m root [] = some root := rfl
  unfold ring3Reachable at hreach
  simp only [hinv.tree.pml4, (entryAt_cells m va root).1, Bool.and_eq_true, Bool.or_eq_true,
    beq_iff_eq, bne_iff_ne, ne_eq] at hreach
  obtain ⟨⟨h4, -⟩, h3, hrest⟩ := hreach
  obtain ⟨-, n₁, hat₁, haddr₁⟩ := hinv.tableRef_of_user (by simp) hat₀ h4
  simp only [haddr₁, (entryAt_cells m va n₁).2.1] at h3 hrest
  obtain ⟨hhuge, n₂, hat₂, haddr₂⟩ := hinv.tableRef_of_user (by simp) hat₁ h3
  simp only [hhuge, not_true_eq_false, false_or, haddr₂, (entryAt_cells m va n₂).2.2.1] at hrest
  obtain ⟨h2, hrest⟩ := hrest
  obtain ⟨hhuge, n₃, hat₃, haddr₃⟩ := hinv.tableRef_of_user (by simp) hat₂ h2
  simp only [hhuge, not_true_eq_false, false_or, haddr₃, (entryAt_cells m va n₃).2.2.2] at hrest
  by_contra hlast
  rw [hinv.hidden va n₃ (by simpa using hlast) hat₃] at hrest
  cases hrest

/-! ## Whole runs -/

/-- The last call of a list on a page. -/
def lastOn (cs : List MapCall) (page : ℕ) : Option MapCall :=
  (cs.filter fun c => pageOf c.va = page).getLast?

/-- Whether the last call on a page was a user variant. -/
def lastUser (cs : List MapCall) (page : ℕ) : Bool := (lastOn cs page).any MapCall.user

theorem lastUser_concat (cs : List MapCall) (c : MapCall) :
    lastUser (cs ++ [c]) = Function.update (lastUser cs) (pageOf c.va) c.user := by
  funext page
  rw [Function.update_apply, lastUser, lastOn, List.filter_append]
  split
  · rename_i h
    simp [h]
  · rename_i h
    have hne : ¬pageOf c.va = page := fun heq => h heq.symm
    simp [hne, lastUser, lastOn]

/-- No entry of any table has the user bit. -/
def NoUserBit (m : Machine) (root : ℕ) : Prop :=
  ∀ (q : List (Fin 512)) n j, q.length ≤ 3 → tableAt m root q = some n →
    tableCell m.mem n j &&& pteUser = 0

/-- The law holds at boot, when no page was called on. -/
theorem ringThreeInv_boot (htree : TableTree m root) (hfresh : FramesFresh m root)
    (hboot : NoUserBit m root) : RingThreeInv root m (lastUser []) where
  tree := htree
  fresh := hfresh
  exposed va hlast := by cases hlast
  hidden va n _ hn := by simp [userEntry, hboot _ n (idx1 va) (length_vaPath va).le hn]
  huge q n j hq hn _ := by simp [userEntry, hboot q n j (Nat.le_of_lt hq) hn]

/-- **Run lemma.**  The law holds after any list of calls that do not panic. -/
theorem ringThreeInv_run (htree : TableTree m root) (hfresh : FramesFresh m root)
    (hboot : NoUserBit m root) {cs : List MapCall} (h : runEvents MapCall.exec m cs = some m') :
    RingThreeInv root m' (lastUser cs) := by
  induction cs using List.reverseRecOn generalizing m' with
  | nil =>
    obtain rfl : m = m' := Option.some.inj h
    exact ringThreeInv_boot htree hfresh hboot
  | append_singleton cs c ih =>
    rw [runEvents_append] at h
    obtain ⟨m₁, hrun, hlast⟩ := Option.bind_eq_some_iff.mp h
    have hcall : c.exec m₁ = some m' := by
      simpa [runEvents] using hlast
    rw [lastUser_concat]
    exact (ih hrun).call hcall

/-- **Ring-3 reachability.**  Starting from tables that are a tree without any user bit,
after any list of calls that do not panic a page is reachable from ring 3 if and only
if the last call on it was a user variant. -/
theorem reachable_iff_last_user (htree : TableTree m root) (hfresh : FramesFresh m root)
    (hboot : NoUserBit m root) {cs : List MapCall} (h : runEvents MapCall.exec m cs = some m')
    (va : ℕ) :
    ring3Reachable m' va = true ↔ ∃ c, lastOn cs (pageOf va) = some c ∧ c.user = true := by
  rw [(ringThreeInv_run htree hfresh hboot h).reachable_iff va, lastUser, Option.any_eq_true]

/-- A kernel page and a user page below the same page table: only the user page is
reachable. -/
theorem reachable_iff_last_user_shared_table :
    ∃ m', runEvents MapCall.exec emptyTables
        [.mapPage 0x1000 0x10000, .mapUserPage 0x2000 0x20000] = some m' ∧
      ring3Reachable m' 0x2000 = true ∧ ring3Reachable m' 0x1000 = false := by
  have hrun : (runEvents MapCall.exec emptyTables
      [.mapPage 0x1000 0x10000, .mapUserPage 0x2000 0x20000]).isSome = true := by
    decide +kernel
  obtain ⟨m', hm'⟩ := Option.isSome_iff_exists.mp hrun
  have hboot : NoUserBit emptyTables 1 := by
    intro q n j _ _
    rw [tableCell_emptyTables]
    rfl
  have hiff := reachable_iff_last_user emptyTables_tree emptyTables_fresh hboot hm'
  refine ⟨m', hm', ?_, ?_⟩
  · rw [hiff]
    exact ⟨.mapUserPage 0x2000 0x20000, rfl, rfl⟩
  · rw [Bool.eq_false_iff, Ne, hiff]
    rintro ⟨c, hlast, huser⟩
    obtain rfl : MapCall.mapPage 0x1000 0x10000 = c := Option.some.inj hlast
    cases huser

/-! ## Tables that are not a tree -/

/-- Two entries of `PML4`, in frame 1, share the table in frame 2. -/
def sharedTables : Machine where
  mem := Bytes.putLE (Bytes.putLE (fun _ => 0) (4096 * 1 + 8 * (0 : Fin 512)) 8 0x2003)
    (4096 * 1 + 8 * (1 : Fin 512)) 8 0x2003
  pmm := ⟨0, 1, [0xFFFFFFFFFFFFF007#64], 0⟩
  pml4 := some 4096

theorem tableCell_sharedTables (n : ℕ) (j : Fin 512) :
    tableCell sharedTables.mem n j = 0x2003 ∧ n = 1 ∨ tableCell sharedTables.mem n j = 0 := by
  have hzero : tableCell (fun _ => 0) n j = 0 := tableCell_of_zero (fun _ => rfl) j
  rw [sharedTables, tableCell_putLE, tableCell_putLE, hzero]
  split
  · rename_i h
    exact Or.inl ⟨rfl, h.1⟩
  · split
    · rename_i h
      exact Or.inl ⟨rfl, h.1⟩
    · exact Or.inr rfl

/-- The allocator's free frames are no part of these tables. -/
theorem sharedTables_fresh : FramesFresh sharedTables 1 := by
  have htables : ∀ (q : List (Fin 512)) n, (n = 1 ∨ n = 2) → ∀ t,
      descend tableRef (tableCell sharedTables.mem) n q = some t → t = 1 ∨ t = 2 := by
    intro q
    induction q with
    | nil =>
      intro n hn t ht
      rwa [← Option.some.inj ht]
    | cons j q ih =>
      intro n _ t ht
      obtain ⟨n', href, hrest⟩ := Option.bind_eq_some_iff.mp ht
      apply ih n' _ t hrest
      obtain ⟨hcell, -⟩ | hcell := tableCell_sharedTables n j
      · rw [hcell] at href
        exact Or.inr (Option.some.inj href).symm
      · rw [hcell, tableRef_zero] at href
        cases href
  intro j hj
  have hlt : j < 64 := by
    by_contra hge
    rw [test_of_length_le (by omega) (by simp [sharedTables]; omega)] at hj
    cases hj
  refine ⟨by omega, fun q _ hq => ?_⟩
  obtain rfl | rfl := htables q 1 (Or.inl rfl) j hq <;>
  · revert hj
    decide

/-- **A shared table exposes a page nothing was called on.**  No entry has the user bit
at first.  Mapping a user page below the first entry and another one below the second
makes a page reachable that no call was about. -/
theorem shared_table_exposes_page :
    NoUserBit sharedTables 1 ∧ FramesFresh sharedTables 1 ∧
      ∃ m', runEvents MapCall.exec sharedTables
          [.mapUserPage 0x1000 0x10000, .mapUserPage 0x8000200000 0x20000] = some m' ∧
        ring3Reachable m' 0x8000001000 = true ∧
        lastOn [.mapUserPage 0x1000 0x10000, .mapUserPage 0x8000200000 0x20000]
          (pageOf 0x8000001000) = none := by
  refine ⟨?_, sharedTables_fresh, ?_⟩
  · intro q n j _ _
    obtain ⟨hcell, -⟩ | hcell := tableCell_sharedTables n j <;>
    · rw [hcell]
      rfl
  · have hrun : ((runEvents MapCall.exec sharedTables
        [.mapUserPage 0x1000 0x10000, .mapUserPage 0x8000200000 0x20000]).any
        fun m' => ring3Reachable m' 0x8000001000) = true := by
      decide +kernel
    obtain ⟨m', hm', hreach⟩ := (Option.any_eq_true _ _).mp hrun
    exact ⟨m', hm', hreach, rfl⟩

end Pinx.Analysis
