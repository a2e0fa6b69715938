import Pinx.Analysis.MapRefinement

/-!
# The two halves of the address space

The lower half is what ring 3 programs live in, the upper half is the kernel's.
`HalvesApart` says that each frame has one use: the table `PML4`, a table or a page
of the lower half, a table or a page of the upper half, or free.  Every operation on
the lower half keeps this, and leaves the frames and the translations of the upper
half as they were (`UpperSame`).
-/

namespace Pinx.Analysis

open Pinx.Foundation Pinx.Foundation.WordBitmap Pinx.Foundation.RadixTree Pinx.Model

/-- Addresses below `0x0000_8000_0000_0000`. -/
def lowerHalf (va : ℕ) : Prop := va < 2 ^ 47

/-- The canonical addresses at or above `0x0000_8000_0000_0000`. -/
def upperHalf (va : ℕ) : Prop := 2 ^ 64 - 2 ^ 47 ≤ va ∧ va < 2 ^ 64

/-- A table below one of the `PML4` entries with `half`. -/
def TableIn (half : Fin 512 → Prop) (m : Machine) (root n : ℕ) : Prop :=
  ∃ i q, half i ∧ q.length ≤ 2 ∧ tableAt m root (i :: q) = some n

/-- A frame some address of `half` translates into. -/
def MappedIn (half : ℕ → Prop) (m : Machine) (f : ℕ) : Prop :=
  ∃ va, half va ∧ vmmVirtToPhys m va ≠ vmmNoPhys ∧ vmmVirtToPhys m va / 4096 = f

/-- A frame the lower half uses, as a table or as memory. -/
def LowerUse (m : Machine) (root f : ℕ) : Prop :=
  TableIn (fun i => i.val < 256) m root f ∨ MappedIn lowerHalf m f

/-- A frame the upper half uses, as a table or as memory. -/
def UpperUse (m : Machine) (root f : ℕ) : Prop :=
  TableIn (fun i => 256 ≤ i.val) m root f ∨ MappedIn upperHalf m f

/-- The two halves use disjoint frames, a lower page is no table, and free frames are
physical frames without a use. -/
structure HalvesApart (m : Machine) (root : ℕ) : Prop where
  tree : TableTree m root
  apart : ∀ f, LowerUse m root f → ¬UpperUse m root f
  root_lower : ¬LowerUse m root root
  root_upper : ¬UpperUse m root root
  own : ∀ f, MappedIn lowerHalf m f → ¬TableIn (fun i => i.val < 256) m root f
  free : ∀ j, test m.pmm.words j = false →
    j < 2 ^ 40 ∧ j ≠ root ∧ ¬LowerUse m root j ∧ ¬UpperUse m root j

/-- The frames the upper half used, and the upper entries of `PML4`, are as before. -/
structure UpperSame (root : ℕ) (m m' : Machine) : Prop where
  pml4 : m'.pml4 = m.pml4
  bytes : ∀ f, UpperUse m root f → ∀ b, b / 4096 = f → m'.mem b = m.mem b
  entries : ∀ i : Fin 512, 256 ≤ i.val → tableCell m'.mem root i = tableCell m.mem root i

variable {m m' m'' : Machine} {root : ℕ}

/-- A path leads to `PML4`, to a table of the lower half or to one of the upper half. -/
theorem tableAt_use {q : List (Fin 512)} {n : ℕ} (hq : q.length ≤ 3)
    (hn : tableAt m root q = some n) : n = root ∨ LowerUse m root n ∨ UpperUse m root n := by
  cases q with
  | nil => exact Or.inl (Option.some.inj hn).symm
  | cons i q =>
    rw [List.length_cons] at hq
    by_cases hi : i.val < 256
    · exact Or.inr (Or.inl (Or.inl ⟨i, q, hi, by omega, hn⟩))
    · exact Or.inr (Or.inr (Or.inl ⟨i, q, by omega, by omega, hn⟩))

theorem HalvesApart.fresh (h : HalvesApart m root) : FramesFresh m root := by
  intro j hj
  obtain ⟨hlt, hroot, hlower, hupper⟩ := h.free j hj
  refine ⟨hlt, fun q hq hn => ?_⟩
  obtain heq | hl | hu := tableAt_use hq hn
  · exact hroot heq
  · exact hlower hl
  · exact hupper hu

/-! ## The upper half under lower operations -/

/-- The upper paths of a machine whose upper half is as before. -/
theorem UpperSame.tableAt (h : UpperSame root m m') {i : Fin 512} (hi : 256 ≤ i.val)
    (q : List (Fin 512)) (hq : q.length ≤ 2) :
    tableAt m' root (i :: q) = tableAt m root (i :: q) := by
  induction q using List.reverseRecOn with
  | nil => simp only [Analysis.tableAt, descend, h.entries i hi]
  | append_singleton q j ih =>
    rw [List.length_append, List.length_singleton] at hq
    rw [← List.cons_append, tableAt_concat, tableAt_concat, ih (by omega)]
    cases hn : Analysis.tableAt m root (i :: q) with
    | none => rfl
    | some n =>
      have huse : UpperUse m root n := Or.inl ⟨i, q, hi, by omega, hn⟩
      simp only [Option.bind_some, tableCell_of_bytes (h.bytes n huse) j]

/-- An address whose walk starts in the upper half of `PML4` translates as before. -/
theorem UpperSame.virtToPhys (h : UpperSame root m m') (hroot : m.pml4 = some (4096 * root))
    {va : ℕ} (hva : 256 ≤ pml4Index va) : vmmVirtToPhys m' va = vmmVirtToPhys m va := by
  rw [vmmVirtToPhys_eq hroot, vmmVirtToPhys_eq (h.pml4.trans hroot)]
  refine congrArg (translate va) (walk_congr fun q j r n hsplit hn => ?_)
  cases q with
  | nil =>
    obtain rfl : root = n := Option.some.inj hn
    obtain rfl : idx4 va = j := by
      simp only [vaPath, List.cons_append, List.nil_append, List.cons.injEq] at hsplit
      exact hsplit.1
    exact h.entries _ hva
  | cons i q =>
    have hi : idx4 va = i := by
      simp only [vaPath, List.cons_append, List.nil_append, List.cons.injEq] at hsplit
      exact hsplit.1
    have hlen := congrArg List.length hsplit
    simp only [List.length_append, List.length_cons, length_vaPath, List.length_nil] at hlen
    have huse : UpperUse m root n := Or.inl ⟨i, q, by rw [← hi]; exact hva, by omega, hn⟩
    exact tableCell_of_bytes (h.bytes n huse) j

theorem pml4Index_upper {va : ℕ} (h : upperHalf va) : 256 ≤ pml4Index va := by
  unfold upperHalf at h
  unfold pml4Index
  omega

theorem pml4Index_lower {va : ℕ} (h : lowerHalf va) : pml4Index va < 256 := by
  unfold lowerHalf at h
  unfold pml4Index
  omega

/-- The upper half uses the same frames. -/
theorem UpperSame.use_iff (h : UpperSame root m m') (hroot : m.pml4 = some (4096 * root)) (f : ℕ) :
    UpperUse m' root f ↔ UpperUse m root f := by
  unfold UpperUse TableIn MappedIn
  constructor
  · rintro (⟨i, q, hi, hq, hn⟩ | ⟨va, hva, hmap, hf⟩)
    · exact Or.inl ⟨i, q, hi, hq, (h.tableAt hi q hq).symm.trans hn⟩
    · rw [h.virtToPhys hroot (pml4Index_upper hva)] at hmap hf
      exact Or.inr ⟨va, hva, hmap, hf⟩
  · rintro (⟨i, q, hi, hq, hn⟩ | ⟨va, hva, hmap, hf⟩)
    · exact Or.inl ⟨i, q, hi, hq, (h.tableAt hi q hq).trans hn⟩
    · rw [← h.virtToPhys hroot (pml4Index_upper hva)] at hmap hf
      exact Or.inr ⟨va, hva, hmap, hf⟩

theorem UpperSame.refl (root : ℕ) (m : Machine) : UpperSame root m m :=
  ⟨rfl, fun _ _ _ _ => rfl, fun _ _ => rfl⟩

theorem UpperSame.trans (h : UpperSame root m m') (hroot : m.pml4 = some (4096 * root))
    (h' : UpperSame root m' m'') : UpperSame root m m'' where
  pml4 := h'.pml4.trans h.pml4
  bytes f hf b hb := (h'.bytes f ((h.use_iff hroot f).mpr hf) b hb).trans (h.bytes f hf b hb)
  entries i hi := (h'.entries i hi).trans (h.entries i hi)

/-! ## Writes to a frame that is no table -/

/-- A write to one frame that is no table moves no table and no page. -/
theorem same_of_frame (htree : TableTree m root) {f : ℕ}
    (hf : ∀ q : List (Fin 512), q.length ≤ 3 → tableAt m root q ≠ some f)
    (hpml4 : m'.pml4 = m.pml4) (hbyte : ∀ b, b / 4096 ≠ f → m'.mem b = m.mem b) :
    (∀ q : List (Fin 512), q.length ≤ 3 → tableAt m' root q = tableAt m root q) ∧
      ∀ va, vmmVirtToPhys m' va = vmmVirtToPhys m va := by
  have hcell : ∀ (q : List (Fin 512)) n j, q.length ≤ 3 → tableAt m root q = some n →
      tableCell m'.mem n j = tableCell m.mem n j := by
    intro q n j hq hn
    apply tableCell_of_bytes
    intro b hb
    apply hbyte
    intro heq
    apply hf q hq
    rw [← heq, hb, hn]
  constructor
  · intro q hq
    induction q using List.reverseRecOn with
    | nil => rfl
    | append_singleton q j ih =>
      rw [List.length_append, List.length_singleton] at hq
      rw [tableAt_concat, tableAt_concat, ih (by omega)]
      cases hn : tableAt m root q with
      | none => rfl
      | some n => simp only [Option.bind_some, hcell q n j (by omega) hn]
  · intro va
    rw [vmmVirtToPhys_eq htree.pml4, vmmVirtToPhys_eq (hpml4.trans htree.pml4)]
    refine congrArg (translate va) (walk_congr fun q j r n hsplit hn => ?_)
    have hlen := congrArg List.length hsplit
    simp only [List.length_append, List.length_cons, length_vaPath, List.length_nil] at hlen
    exact hcell q n j (by omega) hn

/-- The tables of a half depend on the paths only. -/
theorem tableIn_congr
    (htable : ∀ q : List (Fin 512), q.length ≤ 3 → tableAt m' root q = tableAt m root q)
    (half : Fin 512 → Prop) (f : ℕ) : TableIn half m' root f ↔ TableIn half m root f := by
  have hpath : ∀ i q, q.length ≤ 2 → tableAt m' root (i :: q) = tableAt m root (i :: q) :=
    fun i q hq => htable (i :: q) (by rw [List.length_cons]; omega)
  constructor
  · rintro ⟨i, q, hi, hq, hn⟩
    exact ⟨i, q, hi, hq, (hpath i q hq).symm.trans hn⟩
  · rintro ⟨i, q, hi, hq, hn⟩
    exact ⟨i, q, hi, hq, (hpath i q hq).trans hn⟩

/-- The pages of a half depend on the translations only. -/
theorem mappedIn_congr (hvirt : ∀ va, vmmVirtToPhys m' va = vmmVirtToPhys m va)
    (half : ℕ → Prop) (f : ℕ) : MappedIn half m' f ↔ MappedIn half m f := by
  unfold MappedIn
  simp only [hvirt]

/-- What depends on the tables and the translations only. -/
theorem HalvesApart.of_same (h : HalvesApart m root) (hpml4 : m'.pml4 = m.pml4)
    (hfree : ∀ j, test m'.pmm.words j = false → test m.pmm.words j = false)
    (htable : ∀ q : List (Fin 512), q.length ≤ 3 → tableAt m' root q = tableAt m root q)
    (hvirt : ∀ va, vmmVirtToPhys m' va = vmmVirtToPhys m va) : HalvesApart m' root := by
  have hlower : ∀ f, LowerUse m' root f ↔ LowerUse m root f := fun f =>
    or_congr (tableIn_congr htable _ f) (mappedIn_congr hvirt _ f)
  have hupper : ∀ f, UpperUse m' root f ↔ UpperUse m root f := fun f =>
    or_congr (tableIn_congr htable _ f) (mappedIn_congr hvirt _ f)
  refine ⟨⟨hpml4.trans h.tree.pml4, h.tree.tree.of_descend htable⟩, ?_, ?_, ?_, ?_, ?_⟩
  · intro f
    rw [hlower, hupper]
    exact h.apart f
  · rw [hlower]
    exact h.root_lower
  · rw [hupper]
    exact h.root_upper
  · intro f
    rw [tableIn_congr htable, mappedIn_congr hvirt]
    exact h.own f
  · intro j hj
    rw [hlower, hupper]
    exact h.free j (hfree j hj)

/-- Writing a frame that is no table and that the upper half does not use. -/
theorem HalvesApart.quiet (h : HalvesApart m root) {f : ℕ} (hroot : f ≠ root)
    (htable : ¬TableIn (fun i => i.val < 256) m root f) (hupper : ¬UpperUse m root f)
    (hpml4 : m'.pml4 = m.pml4)
    (hfree : ∀ j, test m'.pmm.words j = false → test m.pmm.words j = false)
    (hbyte : ∀ b, b / 4096 ≠ f → m'.mem b = m.mem b) :
    HalvesApart m' root ∧ UpperSame root m m' ∧
      (∀ q : List (Fin 512), q.length ≤ 3 → tableAt m' root q = tableAt m root q) ∧
      ∀ va, vmmVirtToPhys m' va = vmmVirtToPhys m va := by
  have hnone : ∀ q : List (Fin 512), q.length ≤ 3 → tableAt m root q ≠ some f := by
    intro q hq hn
    cases q with
    | nil => exact hroot (Option.some.inj hn).symm
    | cons i q =>
      rw [List.length_cons] at hq
      by_cases hi : i.val < 256
      · exact htable ⟨i, q, hi, by omega, hn⟩
      · exact hupper (Or.inl ⟨i, q, by omega, by omega, hn⟩)
  obtain ⟨hpath, hvirt⟩ := same_of_frame h.tree hnone hpml4 hbyte
  refine ⟨h.of_same hpml4 hfree hpath hvirt, ⟨hpml4, ?_, ?_⟩, hpath, hvirt⟩
  · intro g hg b hb
    apply hbyte
    intro heq
    apply hupper
    rw [← heq, hb]
    exact hg
  · intro i _
    apply tableCell_of_bytes
    intro b hb
    apply hbyte
    rw [hb]
    exact Ne.symm hroot

/-- A frame that was handed out and has no use yet. -/
structure InHand (m : Machine) (root j : ℕ) : Prop where
  physical : j < 2 ^ 40
  taken : test m.pmm.words j = true
  not_root : j ≠ root
  not_lower : ¬LowerUse m root j
  not_upper : ¬UpperUse m root j

/-- A frame just handed out may be filled before it is mapped. -/
theorem HalvesApart.take {j : ℕ} (h : HalvesApart m root) (hpml4 : m'.pml4 = m.pml4)
    (hfree : test m.pmm.words j = false) (hmark : m'.pmm.words = mark m.pmm.words j)
    (hbyte : ∀ b, b / 4096 ≠ j → m'.mem b = m.mem b) :
    HalvesApart m' root ∧ UpperSame root m m' ∧ InHand m' root j := by
  obtain ⟨hlt, hroot, hlower, hupper⟩ := h.free j hfree
  have hword : j / 64 < m.pmm.words.length := by
    by_contra hge
    rw [test_of_length_le (by omega) (Nat.le_of_not_lt hge)] at hfree
    cases hfree
  have htest := fun k => test_mark (j := k) (by omega) hword
  obtain ⟨hapart, hsame, htable, hvirt⟩ :=
    h.quiet hroot (fun ht => hlower (Or.inl ht)) hupper hpml4 (by
      intro k hk
      rw [hmark, htest, Bool.or_eq_false_iff] at hk
      exact hk.1) hbyte
  refine ⟨hapart, hsame, hlt, ?_, hroot, ?_, ?_⟩
  · rw [hmark, htest, decide_eq_true rfl, Bool.or_true]
  · exact fun hl => hlower
      (hl.imp (tableIn_congr htable _ j).mp (mappedIn_congr hvirt _ j).mp)
  · exact fun hu => hupper
      (hu.imp (tableIn_congr htable _ j).mp (mappedIn_congr hvirt _ j).mp)

/-! ## An interior level of a lower address -/

/-- The path starts in the lower half of `PML4`. -/
def LowerPath (q : List (Fin 512)) : Prop := ∀ i ∈ q.head?, i.val < 256

variable {p : List (Fin 512)} {t t' flags : ℕ} {i : Fin 512}

/-- The tables below an interior level of a lower address. -/
theorem LevelStep.tableIn (h : HalvesApart m root) (hp : tableAt m root p = some t)
    (hlen : p.length < 3) (hlow : LowerPath (p ++ [i])) (hstep : LevelStep flags m m' t i t') :
    (∀ n, TableIn (fun i => i.val < 256) m' root n →
      TableIn (fun i => i.val < 256) m root n ∨ test m.pmm.words n = false) ∧
    (∀ n, TableIn (fun i => 256 ≤ i.val) m' root n → TableIn (fun i => 256 ≤ i.val) m root n) ∧
    ∀ j, test m'.pmm.words j = false → test m.pmm.words j = false ∧
      (TableIn (fun i => i.val < 256) m' root j → TableIn (fun i => i.val < 256) m root j) := by
  cases hstep with
  | opened href hpmm hpml4 hcell hbyte =>
    have hdesc : ∀ q, tableAt m' root q = tableAt m root q :=
      descend_congr (tableRef_opened hcell) root
    have hin : ∀ half n, TableIn half m' root n → TableIn half m root n := by
      rintro half n ⟨k, q, hk, hq, hn⟩
      exact ⟨k, q, hk, hq, (hdesc _).symm.trans hn⟩
    refine ⟨fun n hn => Or.inl (hin _ n hn), hin _, fun j hj => ⟨?_, hin _ j⟩⟩
    rwa [hpmm] at hj
  | attached habsent hfree hmark hpml4 hcell hbyte =>
    have ha := attach_of_cells h.fresh hp hlen habsent hfree hcell
    have hdesc : ∀ q : List (Fin 512), q.length ≤ 3 →
        tableAt m' root q = if q = p ++ [i] then some t' else tableAt m root q :=
      fun q hq => ha.descend_eq h.tree.tree q hq
    have hin : ∀ half n, TableIn half m' root n → TableIn half m root n ∨
        (n = t' ∧ ∃ k q, half k ∧ k :: q = p ++ [i]) := by
      rintro half n ⟨k, q, hk, hq, hn⟩
      rw [hdesc (k :: q) (by rw [List.length_cons]; omega)] at hn
      split at hn
      · rename_i heq
        exact Or.inr ⟨(Option.some.inj hn).symm, k, q, hk, heq⟩
      · exact Or.inl ⟨k, q, hk, hq, hn⟩
    have hword : t' / 64 < m.pmm.words.length := by
      by_contra hge
      rw [test_of_length_le (by omega) (Nat.le_of_not_lt hge)] at hfree
      cases hfree
    refine ⟨?_, ?_, ?_⟩
    · intro n hn
      obtain hold | ⟨rfl, -⟩ := hin _ n hn
      · exact Or.inl hold
      · exact Or.inr hfree
    · intro n hn
      obtain hold | ⟨-, k, q, hk, heq⟩ := hin _ n hn
      · exact hold
      · have := hlow k (by rw [← heq]; rfl)
        omega
    · intro j hj
      rw [hmark, test_mark (by omega) hword, Bool.or_eq_false_iff, decide_eq_false_iff_not] at hj
      refine ⟨hj.1, fun hn => ?_⟩
      obtain hold | ⟨heq, -⟩ := hin _ j hn
      · exact hold
      · exact absurd heq hj.2

/-- A level changes the table it is at and at most one free frame. -/
theorem LevelStep.bytes (hstep : LevelStep flags m m' t i t') (b : ℕ) (hb : b / 4096 ≠ t)
    (hfree : test m.pmm.words (b / 4096) ≠ false) : m'.mem b = m.mem b := by
  cases hstep with
  | opened _ _ _ _ hbyte => exact hbyte b hb
  | attached _ hfree' _ _ _ hbyte =>
    apply hbyte b hb
    rintro rfl
    exact hfree hfree'

theorem LevelStep.pml4 (hstep : LevelStep flags m m' t i t') : m'.pml4 = m.pml4 := by
  cases hstep with
  | opened _ _ hpml4 _ _ => exact hpml4
  | attached _ _ _ hpml4 _ _ => exact hpml4

/-- The tables a lower path goes through are not the upper half's. -/
theorem HalvesApart.not_upper (h : HalvesApart m root) (hp : tableAt m root p = some t)
    (hlen : p.length ≤ 3) (hlow : LowerPath p) : ¬UpperUse m root t := by
  cases p with
  | nil =>
    obtain rfl : root = t := Option.some.inj hp
    exact h.root_upper
  | cons k q =>
    rw [List.length_cons] at hlen
    exact h.apart t (Or.inl ⟨k, q, hlow k rfl, by omega, hp⟩)

theorem LowerPath.of_append (h : LowerPath (p ++ [i])) : LowerPath p := by
  intro k hk
  apply h
  cases p with
  | nil => cases hk
  | cons j p => exact hk

/-- A level of a lower address does not write the upper entries of `PML4`. -/
theorem LevelStep.entries (h : HalvesApart m root) (hp : tableAt m root p = some t)
    (hlen : p.length < 3) (hlow : LowerPath (p ++ [i])) (hstep : LevelStep flags m m' t i t')
    (k : Fin 512) (hk : 256 ≤ k.val) : tableCell m'.mem root k = tableCell m.mem root k := by
  have hside : ¬(root = t ∧ k = i) := by
    rintro ⟨rfl, rfl⟩
    have hnil := h.tree.tree p [] root (Nat.le_of_lt hlen) (by simp) hp rfl
    rw [hnil] at hlow
    have := hlow k rfl
    omega
  cases hstep with
  | opened _ _ _ hcell _ => rw [hcell, if_neg fun hc => hside hc.1]
  | attached _ hfree _ _ hcell _ =>
    rw [hcell, if_neg (Ne.symm (h.free t' hfree).2.1), if_neg hside]

/-- An interior level of a lower address keeps the halves apart and the upper half as it
was, and gives frames in hand no use. -/
theorem HalvesApart.level (h : HalvesApart m root) (hp : tableAt m root p = some t)
    (hlen : p.length < 3) (hlow : LowerPath (p ++ [i])) (hstep : LevelStep flags m m' t i t') :
    HalvesApart m' root ∧ UpperSame root m m' ∧ ∀ j, InHand m root j → InHand m' root j := by
  obtain ⟨hgrows, -⟩ := hstep.grows h.tree h.fresh hp hlen
  obtain ⟨hlowerT, hupperT, hfreeT⟩ := hstep.tableIn h hp hlen hlow
  have hmapped : ∀ half f, MappedIn half m' f → MappedIn half m f := by
    rintro half f ⟨va, hva, hmap, hf⟩
    rw [hgrows.same] at hmap hf
    exact ⟨va, hva, hmap, hf⟩
  have hlower : ∀ f, LowerUse m' root f → LowerUse m root f ∨ test m.pmm.words f = false := by
    rintro f (ht | hm)
    · exact (hlowerT f ht).imp Or.inl id
    · exact Or.inl (Or.inr (hmapped _ f hm))
  have hupper : ∀ f, UpperUse m' root f → UpperUse m root f := by
    rintro f (ht | hm)
    · exact Or.inl (hupperT f ht)
    · exact Or.inr (hmapped _ f hm)
  refine ⟨⟨hgrows.tree, ?_, ?_, ?_, ?_, ?_⟩, ⟨hstep.pml4, ?_, ?_⟩, ?_⟩
  · intro f hl hu
    obtain hold | hfree := hlower f hl
    · exact h.apart f hold (hupper f hu)
    · exact (h.free f hfree).2.2.2 (hupper f hu)
  · intro hl
    obtain hold | hfree := hlower root hl
    · exact h.root_lower hold
    · exact (h.free root hfree).2.1 rfl
  · exact fun hu => h.root_upper (hupper root hu)
  · intro f hm ht
    obtain hold | hfree := hlowerT f ht
    · exact h.own f (hmapped _ f hm) hold
    · exact (h.free f hfree).2.2.1 (Or.inr (hmapped _ f hm))
  · intro j hj
    obtain ⟨hfree, htable⟩ := hfreeT j hj
    obtain ⟨hlt, hroot, hnl, hnu⟩ := h.free j hfree
    refine ⟨hlt, hroot, ?_, fun hu => hnu (hupper j hu)⟩
    rintro (ht | hm)
    · exact hnl (Or.inl (htable ht))
    · exact hnl (Or.inr (hmapped _ j hm))
  · intro f hu b hb
    apply hstep.bytes b
    · intro heq
      apply h.not_upper hp (Nat.le_of_lt hlen) hlow.of_append
      rw [← heq, hb]
      exact hu
    · intro hfree
      rw [hb] at hfree
      exact (h.free f hfree).2.2.2 hu
  · exact hstep.entries h hp hlen hlow
  · intro j hj
    refine ⟨hj.physical, ?_, hj.not_root, ?_, fun hu => hj.not_upper (hupper j hu)⟩
    · by_contra hclear
      have := (hfreeT j (by simpa using hclear)).1
      rw [hj.taken] at this
      cases this
    · intro hl
      obtain hold | hfree := hlower j hl
      · exact hj.not_lower hold
      · rw [hj.taken] at hfree
        cases hfree

/-! ## The leaf of a lower address -/

theorem pml4Index_of_pageOf {va va' : ℕ} (h : pageOf va = pageOf va') :
    pml4Index va = pml4Index va' := by
  unfold pageOf at h
  unfold pml4Index
  omega

theorem vmmNoPhys_ne {x : ℕ} (h : x < 2 ^ 52) : x ≠ vmmNoPhys := by
  unfold vmmNoPhys
  omega

/-- Writing a frame in hand into the leaf of a lower address makes it a page of the lower
half. -/
theorem HalvesApart.leaf {va n j : ℕ} (h : HalvesApart m root)
    (hat : tableAt m root (vaPath va) = some n) (hva : pml4Index va < 256) (hj : InHand m root j)
    (hflags : flags < 2 ^ 64) (hmask : flags &&& pteAddrMask = 0) :
    HalvesApart (withLeaf m n va ((j * 4096 &&& pteAddrMask) ||| ptePresent ||| flags)) root ∧
      UpperSame root m (withLeaf m n va ((j * 4096 &&& pteAddrMask) ||| ptePresent ||| flags)) ∧
      MappedIn lowerHalf
        (withLeaf m n va ((j * 4096 &&& pteAddrMask) ||| ptePresent ||| flags)) j := by
  have hjlt := hj.physical
  have hlt : (j * 4096 &&& pteAddrMask) ||| ptePresent ||| flags < 2 ^ 64 := by
    have haddr := addr_lt (j * 4096)
    exact Nat.or_lt_two_pow (Nat.or_lt_two_pow (by omega) (by decide)) hflags
  obtain ⟨htree', hpage, hother⟩ := withLeaf_spec h.tree hat hlt
  have hdesc : ∀ q : List (Fin 512), q.length ≤ 3 → tableAt (withLeaf m n va
      ((j * 4096 &&& pteAddrMask) ||| ptePresent ||| flags)) root q = tableAt m root q :=
    fun q hq => tableAt_withLeaf h.tree hat q hq
  generalize hm' : withLeaf m n va ((j * 4096 &&& pteAddrMask) ||| ptePresent ||| flags) = m'
    at htree' hpage hother hdesc ⊢
  have hphys : ∀ va', pageOf va' = pageOf va → vmmVirtToPhys m' va' = j * 4096 + va' % 4096 := by
    intro va' heq
    rw [hpage va' heq, translate_leaf (by omega) (by omega) hmask]
  have hin : ∀ half f, TableIn half m' root f → TableIn half m root f := by
    rintro half f ⟨k, q, hk, hq, hn⟩
    exact ⟨k, q, hk, hq, (hdesc (k :: q) (by rw [List.length_cons]; omega)).symm.trans hn⟩
  have hlower : ∀ f, MappedIn lowerHalf m' f → MappedIn lowerHalf m f ∨ f = j := by
    rintro f ⟨va', hva', hmap, hf⟩
    by_cases heq : pageOf va' = pageOf va
    · rw [hphys va' heq] at hf
      exact Or.inr (by omega)
    · rw [hother va' heq] at hmap hf
      exact Or.inl ⟨va', hva', hmap, hf⟩
  have hupper : ∀ f, UpperUse m' root f → UpperUse m root f := by
    rintro f (ht | ⟨va', hva', hmap, hf⟩)
    · exact Or.inl (hin _ f ht)
    · have heq : pageOf va' ≠ pageOf va := by
        intro heq
        have hidx := pml4Index_of_pageOf heq
        have := pml4Index_upper hva'
        omega
      rw [hother va' heq] at hmap hf
      exact Or.inr ⟨va', hva', hmap, hf⟩
  have huse : ∀ f, LowerUse m' root f → LowerUse m root f ∨ f = j := by
    rintro f (ht | hm)
    · exact Or.inl (Or.inl (hin _ f ht))
    · exact (hlower f hm).imp Or.inr id
  have hn : LowerUse m root n :=
    Or.inl ⟨idx4 va, [idx3 va, idx2 va], hva, by simp, hat⟩
  have hidx1 := (idx1 va).isLt
  refine ⟨⟨htree', ?_, ?_, fun hu => h.root_upper (hupper root hu), ?_, ?_⟩, ⟨?_, ?_, ?_⟩, ?_⟩
  · intro f hl hu
    obtain hold | rfl := huse f hl
    · exact h.apart f hold (hupper f hu)
    · exact hj.not_upper (hupper f hu)
  · intro hl
    obtain hold | heq := huse root hl
    · exact h.root_lower hold
    · exact hj.not_root heq.symm
  · intro f hm ht
    obtain hold | rfl := hlower f hm
    · exact h.own f hold (hin _ f ht)
    · exact hj.not_lower (Or.inl (hin _ f ht))
  · intro k hk
    rw [← hm'] at hk
    obtain ⟨hlt', hroot, hnl, hnu⟩ := h.free k hk
    refine ⟨hlt', hroot, fun hl => ?_, fun hu => hnu (hupper k hu)⟩
    obtain hold | rfl := huse k hl
    · exact hnl hold
    · have htaken := hj.taken
      rw [show test m.pmm.words k = false from hk] at htaken
      cases htaken
  · rw [← hm']
    rfl
  · intro f hu b hb
    have hne : f ≠ n := by
      rintro rfl
      exact h.apart f hn hu
    rw [← hm']
    apply Bytes.putLE_outside
    omega
  · intro k _
    have hne : root ≠ n := by
      rintro rfl
      exact h.root_lower hn
    rw [← hm', withLeaf, tableCell_putLE, if_neg fun hc => hne hc.1]
  · have hmod : pageOf (va % 2 ^ 48) = pageOf va := by
      unfold pageOf
      omega
    have hphys' := hphys (va % 2 ^ 48) hmod
    refine ⟨va % 2 ^ 48, ?_, ?_, ?_⟩
    · unfold pml4Index at hva
      unfold lowerHalf
      omega
    · rw [hphys']
      exact vmmNoPhys_ne (by omega)
    · rw [hphys']
      omega

end Pinx.Analysis
