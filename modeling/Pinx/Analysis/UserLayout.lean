import Pinx.Analysis.LoaderIsolation
import Pinx.Foundation.Transition
import Pinx.Model.UserMemory

/-!
# The layout of user memory

Regions of `sys_mmap` grow up from `MMAP_BASE`, stacks grow down from
`USER_STACK_TOP`.  Every page of either is a fresh zeroed frame (`MapsFresh`), and as
long as a page is mapped once its frame has no other use (`Backed`).

Nothing keeps the two from meeting: `sys_mmap` compares with `USER_ADDRESS_MAX`, which
is above the stacks, and `map_user_stack` compares with nothing.
-/

namespace Pinx.Analysis

open Pinx.Foundation Pinx.Foundation.WordBitmap Pinx.Foundation.RadixTree Pinx.Model

variable {m m' m'' : Machine} {root t t' flags va j : ℕ} {p : List (Fin 512)} {i : Fin 512}

/-! ## One fresh page -/

/-- The tables may have grown into free frames; frames in use that are no tables are as
before. -/
structure GrowsFresh (root : ℕ) (m m' : Machine) : Prop extends Grows root m m' where
  kept : ∀ k, test m.pmm.words k = true → test m'.pmm.words k = true
  bytes : ∀ b, test m.pmm.words (b / 4096) = true →
    (∀ q : List (Fin 512), q.length ≤ 3 → tableAt m root q ≠ some (b / 4096)) →
    m'.mem b = m.mem b
  tables : ∀ (q : List (Fin 512)) n, q.length ≤ 3 → tableAt m' root q = some n →
    tableAt m root q = some n ∨ test m.pmm.words n = false

theorem free_of_kept (h : ∀ k, test m.pmm.words k = true → test m'.pmm.words k = true) {k : ℕ}
    (hk : test m'.pmm.words k = false) : test m.pmm.words k = false := by
  by_contra hne
  rw [h k (by simpa using hne)] at hk
  cases hk

theorem GrowsFresh.refl (htree : TableTree m root) (hfresh : FramesFresh m root) :
    GrowsFresh root m m :=
  ⟨Grows.refl htree hfresh, fun _ hk => hk, fun _ _ _ => rfl, fun _ _ _ hn => Or.inl hn⟩

theorem GrowsFresh.trans (h : GrowsFresh root m m') (h' : GrowsFresh root m' m'') :
    GrowsFresh root m m'' where
  toGrows := h.toGrows.trans h'.toGrows
  kept k hk := h'.kept k (h.kept k hk)
  bytes b hb hno := by
    rw [h'.bytes b (h.kept _ hb), h.bytes b hb hno]
    intro q hq hn
    obtain hold | hfree := h.tables q _ hq hn
    · exact hno q hq hold
    · rw [hb] at hfree
      cases hfree
  tables q n hq hn := by
    obtain hold | hfree := h'.tables q n hq hn
    · exact h.tables q n hq hold
    · exact Or.inr (free_of_kept h.kept hfree)

/-- Marking a free frame keeps the marks. -/
theorem test_of_mark {words : List (BitVec 64)} (hfree : test words j = false) (k : ℕ) :
    test (mark words j) k = (test words k || decide (k = j)) := by
  apply test_mark (by omega)
  by_contra hge
  rw [test_of_length_le (by omega) (Nat.le_of_not_lt hge)] at hfree
  cases hfree

/-- SOURCE: mm.rs:299-316 -/
theorem LevelStep.growsFresh (htree : TableTree m root) (hfresh : FramesFresh m root)
    (hp : tableAt m root p = some t) (hlen : p.length < 3) (h : LevelStep flags m m' t i t') :
    GrowsFresh root m m' := by
  refine ⟨(h.grows htree hfresh hp hlen).1, fun k hk => ?_, fun b hb hno => ?_, fun q n hq hn => ?_⟩
  · cases h with
    | opened _ hpmm _ _ _ => rwa [hpmm]
    | attached _ hfree hmark _ _ _ => rw [hmark, test_of_mark hfree, hk, Bool.true_or]
  · apply h.bytes b
    · rintro rfl
      exact hno p (Nat.le_of_lt hlen) hp
    · rw [hb]
      simp
  · exact (h.tableAt_cases htree hfresh hp hlen hq hn).imp_right And.left

/-- SOURCE: mm.rs:298-354 -/
theorem ensurePath_growsFresh (htree : TableTree m root) (hfresh : FramesFresh m root) {pt : ℕ}
    (h : ensurePath flags (4096 * root) va m = (.ok pt, m')) : GrowsFresh root m m' := by
  obtain ⟨-, -, -, hgrows⟩ := ensurePath_rule (P := fun _ m₁ => GrowsFresh root m m₁) htree hfresh h
    (GrowsFresh.refl htree hfresh) fun p t i t' m₁ m₂ _ hlen htree₁ hfresh₁ hat hstep hgrows =>
      hgrows.trans (hstep.growsFresh htree₁ hfresh₁ hat hlen)
  exact hgrows

/-- The page of `va`, and no other, was mapped to the free frame `j`, which is zeroed. -/
structure MapsFresh (root va j : ℕ) (m m' : Machine) : Prop where
  tree : TableTree m' root
  fresh : FramesFresh m' root
  aligned : va % 4096 = 0
  free : test m.pmm.words j = false
  taken : test m'.pmm.words j = true
  kept : ∀ k, test m.pmm.words k = true → test m'.pmm.words k = true
  here : ∀ va', pageOf va' = pageOf va → vmmVirtToPhys m' va' = 4096 * j + va' % 4096
  others : ∀ va', pageOf va' ≠ pageOf va → vmmVirtToPhys m' va' = vmmVirtToPhys m va'
  bytes : ∀ b, test m.pmm.words (b / 4096) = true →
    (∀ q : List (Fin 512), q.length ≤ 3 → tableAt m root q ≠ some (b / 4096)) →
    m'.mem b = m.mem b
  zero : ∀ b, b / 4096 = j → m'.mem b = 0
  tables : ∀ (q : List (Fin 512)) n, q.length ≤ 3 → tableAt m' root q = some n →
    tableAt m root q = some n ∨ test m.pmm.words n = false ∧ n ≠ j

/-- A frame is taken and zeroed; no table is touched. -/
structure Zeroed (root j : ℕ) (m m' : Machine) : Prop where
  tree : TableTree m' root
  fresh : FramesFresh m' root
  free : test m.pmm.words j = false
  mark : ∀ k, test m'.pmm.words k = (test m.pmm.words k || decide (k = j))
  physical : j < 2 ^ 40
  unmapped : ∀ q : List (Fin 512), q.length ≤ 3 → tableAt m' root q ≠ some j
  same : ∀ va', vmmVirtToPhys m' va' = vmmVirtToPhys m va'
  paths : ∀ q : List (Fin 512), q.length ≤ 3 → tableAt m' root q = tableAt m root q
  bytes : ∀ b, b / 4096 ≠ j → m'.mem b = m.mem b
  zero : ∀ b, b / 4096 = j → m'.mem b = 0

/-- SOURCE: syscall.rs:188-199 -/
theorem zeroed_of_alloc {m₁ : Machine} (htree : TableTree m root) (hfresh : FramesFresh m root)
    (hmem : m₁.mem = m.mem) (hpml4 : m₁.pml4 = m.pml4) (hfree : test m.pmm.words j = false)
    (hmark : m₁.pmm.words = mark m.pmm.words j) :
    ∃ m₂, zeroFrame (4096 * j) m₁ = (.ok (), m₂) ∧ m₂.pmm = m₁.pmm ∧ Zeroed root j m m₂ := by
  have hsize : pageSize = 4096 := rfl
  obtain ⟨hlt, hno⟩ := hfresh j hfree
  have htest : ∀ k, test (mark m.pmm.words j) k = (test m.pmm.words k || decide (k = j)) :=
    test_of_mark hfree
  let m₂ : Machine := { m₁ with mem := m₁.mem.blit (4096 * j) pageSize fun _ => 0 }
  have hbytes : ∀ b, b / 4096 ≠ j → m₂.mem b = m.mem b := by
    intro b hb
    rw [← hmem]
    show m₁.mem.blit (4096 * j) pageSize (fun _ => 0) b = m₁.mem b
    apply Bytes.blit_outside
    omega
  obtain ⟨hpath, hvirt⟩ := same_of_frame htree hno (show m₂.pml4 = m.pml4 from hpml4) hbytes
  have hwords : ∀ k, test m₂.pmm.words k = (test m.pmm.words k || decide (k = j)) := by
    intro k
    rw [← htest, ← hmark]
  refine ⟨m₂, rfl, rfl, ⟨hpml4.trans htree.pml4, htree.tree.of_descend hpath⟩, ?_, hfree, hwords, hlt,
    ?_, hvirt, hpath, hbytes, ?_⟩
  · intro k hk
    rw [hwords, Bool.or_eq_false_iff] at hk
    refine ⟨(hfresh k hk.1).1, fun q hq => ?_⟩
    rw [hpath q hq]
    exact (hfresh k hk.1).2 q hq
  · intro q hq
    rw [hpath q hq]
    exact hno q hq
  · intro b hb
    show m₁.mem.blit (4096 * j) pageSize (fun _ => 0) b = 0
    rw [Bytes.blit_inside (by omega) (by omega)]

/-- What mapping the zeroed frame adds. -/
theorem Zeroed.map {m₂ : Machine} (h : Zeroed root j m m₂)
    (hrun : vmmMapUserPage va (4096 * j) m₂ = (.ok (), m')) : MapsFresh root va j m m' := by
  unfold vmmMapUserPage at hrun
  obtain ⟨haligned, -, m₃, n, -, hpath, hat, rfl⟩ := vmmMapPageFlags_ok h.tree h.fresh hrun
  have hgrows := ensurePath_growsFresh h.tree h.fresh hpath
  have hphysical := h.physical
  generalize hleaf : (4096 * j &&& pteAddrMask) ||| ptePresent |||
    (ptePresent ||| pteWritable ||| pteUser) = leaf at hrun ⊢
  have hlt : leaf < 2 ^ 64 := by
    rw [← hleaf]
    exact Nat.or_lt_two_pow (Nat.or_lt_two_pow (by have := addr_lt (4096 * j); omega) (by decide))
      (by decide)
  obtain ⟨htree', hpage, hother⟩ := withLeaf_spec hgrows.tree hat hlt
  have hdesc := fun q hq => tableAt_withLeaf (v := leaf) hgrows.tree hat q hq
  have htables : ∀ (q : List (Fin 512)) n', q.length ≤ 3 → tableAt m₃ root q = some n' →
      tableAt m root q = some n' ∨ test m.pmm.words n' = false ∧ n' ≠ j := by
    intro q n' hq hn'
    obtain hold | hfree := hgrows.tables q n' hq hn'
    · exact Or.inl ((h.paths q hq).symm.trans hold)
    · rw [h.mark, Bool.or_eq_false_iff, decide_eq_false_iff_not] at hfree
      exact Or.inr hfree
  have htaken : test m₂.pmm.words j = true := by
    rw [h.mark, decide_eq_true rfl, Bool.or_true]
  have hkept : ∀ k, test m.pmm.words k = true → test m₂.pmm.words k = true := by
    intro k hk
    rw [h.mark, hk, Bool.true_or]
  -- the leaf is in a table, so it is outside the frames that are none
  have hsame : ∀ b, (∀ q : List (Fin 512), q.length ≤ 3 → tableAt m₃ root q ≠ some (b / 4096)) →
      (withLeaf m₃ n va leaf).mem b = m₃.mem b := by
    intro b hno
    have hidx := (idx1 va).isLt
    have hne : b / 4096 ≠ n := fun heq => hno _ (length_vaPath va).le (heq ▸ hat)
    apply Bytes.putLE_outside
    omega
  refine ⟨htree', fun k hk => ⟨(hgrows.fresh k hk).1, fun q hq => ?_⟩, haligned, h.free,
    hgrows.kept j htaken, fun k hk => hgrows.kept k (hkept k hk), fun va' heq => ?_,
    fun va' hne => ?_, fun b hb hno => ?_, fun b hb => ?_, fun q n' hq hn' => ?_⟩
  · rw [hdesc q hq]
    exact (hgrows.fresh k hk).2 q hq
  · rw [hpage va' heq, ← hleaf, translate_leaf (by omega) (by omega) (by decide)]
  · rw [hother va' hne, hgrows.same, h.same]
  · have hbj : b / 4096 ≠ j := by
      rintro rfl
      rw [h.free] at hb
      cases hb
    rw [hsame b, hgrows.bytes b (hkept _ hb), h.bytes b hbj]
    · intro q hq
      rw [h.paths q hq]
      exact hno q hq
    · intro q hq hn'
      obtain hold | ⟨hfree, -⟩ := htables q _ hq hn'
      · exact hno q hq hold
      · rw [hb] at hfree
        cases hfree
  · subst hb
    rw [hsame b, hgrows.bytes b htaken h.unmapped, h.zero b rfl]
    intro q hq hn'
    obtain hold | ⟨-, hne⟩ := htables q _ hq hn'
    · rw [← h.paths q hq] at hold
      exact h.unmapped q hq hold
    · exact hne rfl
  · rw [hdesc q hq] at hn'
    exact htables q n' hq hn'

/-- What `mapZeroed` does when it does not panic. -/
theorem mapZeroed_ok {b : Bool} (htree : TableTree m root) (hfresh : FramesFresh m root)
    (h : mapZeroed va m = (.ok b, m')) :
    b = true ∧ (∃ j, MapsFresh root va j m m') ∨ b = false ∧ m' = m := by
  unfold mapZeroed at h
  obtain ⟨frame, m₁, halloc, h⟩ := Prog.bind_eq_ok.mp h
  obtain ⟨e, herr⟩ | hnone | ⟨j, m₂, hsome, hmem, hpml4, hfree, hmark⟩ := allocPage_cases m
  · rw [herr] at halloc
    cases halloc
  · rw [hnone] at halloc
    cases halloc
    rw [if_pos rfl] at h
    cases h
    exact Or.inr ⟨rfl, rfl⟩
  · rw [hsome] at halloc
    cases halloc
    have hne : 4096 * j ≠ pmmNoPage := by
      have := (hfresh j hfree).1
      unfold pmmNoPage
      omega
    rw [if_neg hne] at h
    obtain ⟨m₂, hzero, -, hzeroed⟩ := zeroed_of_alloc htree hfresh hmem hpml4 hfree hmark
    rw [Prog.bind_ok hzero] at h
    obtain ⟨_, m₃, hmap, h⟩ := Prog.bind_eq_ok.mp h
    cases h
    exact Or.inl ⟨rfl, j, hzeroed.map hmap⟩

/-! ## Pages with a frame of their own -/

section Backed

-- `hhdm` are the addresses of the window onto all of memory; `words₀` is the bitmap at the start
variable {root : ℕ} {hhdm : ℕ → Prop} {words₀ : List (BitVec 64)}

/-- The address reads frame `f`, which is zero, was free at the start, and has no other use:
it is no page table, and no other page outside the window is mapped to it. -/
structure BackedBy (root : ℕ) (hhdm : ℕ → Prop) (words₀ : List (BitVec 64)) (m : Machine)
    (va f : ℕ) : Prop where
  phys : vmmVirtToPhys m va = 4096 * f + va % 4096
  was_free : test words₀ f = false
  taken : test m.pmm.words f = true
  no_table : ∀ q : List (Fin 512), q.length ≤ 3 → tableAt m root q ≠ some f
  alone : ∀ va', ¬hhdm va' → pageOf va' ≠ pageOf va → vmmVirtToPhys m va' ≠ vmmNoPhys →
    vmmVirtToPhys m va' / 4096 ≠ f
  zero : ∀ b, b / 4096 = f → m.mem b = 0

/-- Each page number with `P` has a frame of its own. -/
structure Backed (root : ℕ) (hhdm : ℕ → Prop) (words₀ : List (BitVec 64)) (P : ℕ → Prop)
    (m : Machine) : Prop where
  tree : TableTree m root
  fresh : FramesFresh m root
  free : ∀ k, test m.pmm.words k = false → test words₀ k = false
  used : ∀ va, ¬hhdm va → vmmVirtToPhys m va ≠ vmmNoPhys →
    test m.pmm.words (vmmVirtToPhys m va / 4096) = true
  backs : ∀ va, P (va / 4096) → ∃ f, BackedBy root hhdm words₀ m va f

variable {P P' : ℕ → Prop}

theorem Backed.mono (h : Backed root hhdm words₀ P m) (hP : ∀ k, P' k → P k) :
    Backed root hhdm words₀ P' m :=
  { h with backs := fun va hva => h.backs va (hP _ hva) }

/-- A page that is mapped elsewhere leaves the pages that have a frame alone. -/
theorem BackedBy.step {f page : ℕ} (h : BackedBy root hhdm words₀ m va f)
    (hmap : MapsFresh root page j m m') (hne : pageOf va ≠ pageOf page) :
    BackedBy root hhdm words₀ m' va f where
  phys := (hmap.others va hne).trans h.phys
  was_free := h.was_free
  taken := hmap.kept f h.taken
  no_table q hq hn := by
    obtain hold | ⟨hfree, -⟩ := hmap.tables q f hq hn
    · exact h.no_table q hq hold
    · rw [h.taken] at hfree
      cases hfree
  alone va' hout hva' hmapped := by
    by_cases hpage : pageOf va' = pageOf page
    · have hfree := hmap.free
      rw [hmap.here va' hpage, show (4096 * j + va' % 4096) / 4096 = j by omega]
      rintro rfl
      rw [h.taken] at hfree
      cases hfree
    · rw [hmap.others va' hpage] at hmapped ⊢
      exact h.alone va' hout hva' hmapped
  zero b hb := by
    subst hb
    rw [hmap.bytes b h.taken h.no_table, h.zero b rfl]

/-- A fresh page has a frame of its own. -/
theorem Backed.backs_new {page : ℕ} (h : Backed root hhdm words₀ P m)
    (hmap : MapsFresh root page j m m') (hva : pageOf va = pageOf page) :
    BackedBy root hhdm words₀ m' va j where
  phys := hmap.here va hva
  was_free := h.free j hmap.free
  taken := hmap.taken
  no_table q hq hn := by
    obtain hold | ⟨-, hne⟩ := hmap.tables q j hq hn
    · exact (h.fresh j hmap.free).2 q hq hold
    · exact hne rfl
  alone va' hout hva' hmapped := by
    rw [hmap.others va' (hva ▸ hva')] at hmapped ⊢
    intro heq
    have hused := h.used va' hout hmapped
    rw [heq, hmap.free] at hused
    cases hused
  zero := hmap.zero

/-- **Step lemma.**  A fresh page joins the pages with a frame of their own. -/
theorem Backed.step {page : ℕ} (h : Backed root hhdm words₀ P m)
    (hmap : MapsFresh root page j m m') (hpage : page < 2 ^ 47) (hP : ∀ k, P k → k < 2 ^ 35)
    (hnew : ¬P (page / 4096)) :
    Backed root hhdm words₀ (fun k => P k ∨ k = page / 4096) m' where
  tree := hmap.tree
  fresh := hmap.fresh
  free k hk := h.free k (free_of_kept hmap.kept hk)
  used va hout hmapped := by
    by_cases heq : pageOf va = pageOf page
    · rw [hmap.here va heq, show (4096 * j + va % 4096) / 4096 = j by omega]
      exact hmap.taken
    · rw [hmap.others va heq] at hmapped ⊢
      exact hmap.kept _ (h.used va hout hmapped)
  backs va hva := by
    rcases hva with hold | heq
    · obtain ⟨f, hf⟩ := h.backs va hold
      refine ⟨f, hf.step hmap ?_⟩
      intro hsame
      apply hnew
      have hlt := hP _ hold
      unfold pageOf at hsame
      rwa [show page / 4096 = va / 4096 by omega]
    · refine ⟨j, h.backs_new hmap ?_⟩
      unfold pageOf
      rw [heq]

/-- The page loop of `sys_mmap`: on success its pages join, on failure the others are as
they were. -/
theorem Backed.mmapPages {base n page : ℕ} {b : Bool} (h : Backed root hhdm words₀ P m)
    (hbase : base % 4096 = 0) (htop : base + (page + n) * 4096 ≤ 2 ^ 47)
    (hP : ∀ k, P k → k < 2 ^ 35)
    (hnew : ∀ k, P k → k < base / 4096 + page ∨ base / 4096 + page + n ≤ k)
    (hrun : mmapPages base n page m = (.ok b, m')) :
    Backed root hhdm words₀ (fun k => P k ∨
      b = true ∧ base / 4096 + page ≤ k ∧ k < base / 4096 + page + n) m' := by
  induction n generalizing m page P with
  | zero =>
    cases hrun
    exact h.mono fun k hk => hk.resolve_right fun hk => by omega
  | succ n ih =>
    have hsize : pageSize = 4096 := rfl
    unfold Model.mmapPages at hrun
    obtain ⟨ok, m₁, hmap, hrest⟩ := Prog.bind_eq_ok.mp hrun
    obtain ⟨rfl, j, hfresh⟩ | ⟨rfl, rfl⟩ := mapZeroed_ok h.tree h.fresh hmap
    · have hdiv : (base + page * pageSize) / 4096 = base / 4096 + page := by
        rw [hsize]
        omega
      have hstep := h.step hfresh (by rw [hsize]; omega) hP fun hk => by
        have := hnew _ hk
        omega
      rw [hdiv] at hstep
      have htop' : base + (page + 1 + n) * 4096 ≤ 2 ^ 47 := by
        rwa [Nat.add_right_comm]
      refine (ih hstep htop' ?_ ?_ hrest).mono ?_
      · rintro k (hk | rfl)
        · exact hP k hk
        · omega
      · rintro k (hk | rfl)
        · have := hnew k hk
          omega
        · omega
      · rintro k (hk | ⟨rfl, hge, hlt⟩)
        · exact Or.inl (Or.inl hk)
        · by_cases heq : k = base / 4096 + page
          · exact Or.inl (Or.inr heq)
          · exact Or.inr ⟨rfl, by omega, by omega⟩
    · cases hrest
      exact h.mono fun k hk => hk.resolve_right fun hk => by simp at hk

/-- The page loop of `map_user_stack` leaves the pages outside the slice as they were. -/
theorem Backed.stackPages {top n i : ℕ} (h : Backed root hhdm words₀ P m)
    (hi : i + n = userStackPages) (htop : top ≤ 2 ^ 47) (hroom : userStackSpan ≤ top)
    (hP : ∀ k, P k → k < 2 ^ 35)
    (hnew : ∀ k, P k → 4096 * k + 4096 ≤ top - userStackSpan)
    (hrun : stackPages top n i m = (.ok (), m')) : Backed root hhdm words₀ P m' := by
  have hsize : pageSize = 4096 := rfl
  have hpages : userStackPages = 16 := rfl
  have hspan : userStackSpan = 18 * 4096 := rfl
  induction n generalizing m i with
  | zero =>
    cases hrun
    exact h
  | succ n ih =>
    unfold Model.stackPages at hrun
    obtain ⟨ok, m₁, hmap, hrest⟩ := Prog.bind_eq_ok.mp hrun
    obtain ⟨rfl, j, hfresh⟩ | ⟨rfl, rfl⟩ := mapZeroed_ok h.tree h.fresh hmap
    · have hlow : top - userStackSpan ≤ top - (userStackPages - i) * pageSize := by
        rw [hsize]
        omega
      have hhigh : top - (userStackPages - i) * pageSize < top := by
        rw [hsize]
        omega
      have hstep := h.step hfresh (by omega) hP fun hk => by
        have := hnew _ hk
        omega
      exact ih (hstep.mono fun k hk => Or.inl hk) (by omega) hrest
    · cases hrest

end Backed

/-! ## Whole calls -/

variable {s s' : UserSpace} {size : ℕ}

/-- What `sys_mmap` does when it does not panic: it refuses, or it moves `MMAP_NEXT` and runs its
page loop. -/
theorem sysMmap_ok {base : ℕ} (h : sysMmap size s = (.ok base, s')) :
    base = einval ∧ s' = s ∨
      size ≠ 0 ∧ size ≤ 2 ^ 40 ∧ s.mmapNext + mmapCount size * pageSize ≤ userAddressMax ∧
        ∃ b, mmapPages s.mmapNext (mmapCount size) 0 s.machine = (.ok b, s'.machine) ∧
          s'.mmapNext = s.mmapNext + mmapCount size * pageSize ∧ s'.nextStack = s.nextStack ∧
          base = if b = true then s.mmapNext else einval := by
  unfold sysMmap at h
  simp only [Prog.ite_apply] at h
  split at h
  · cases h
    exact Or.inl ⟨rfl, rfl⟩
  rename_i hsize
  rw [Prog.bind_ok (Prog.read_apply _ s), Prog.ite_apply] at h
  split at h
  · cases h
    exact Or.inl ⟨rfl, rfl⟩
  rename_i hfits
  rw [Prog.bind_ok (Prog.modify_apply _ s)] at h
  obtain ⟨b, s₁, hpages, h⟩ := Prog.bind_eq_ok.mp h
  unfold UserSpace.on at hpages
  obtain ⟨hres, rfl⟩ := Prod.mk.inj hpages
  refine Or.inr ⟨by omega, by omega, by omega, b, ?_⟩
  rw [Prog.ite_apply] at h
  cases b with
  | true =>
    cases h
    exact ⟨Prod.ext hres rfl, rfl, rfl, rfl⟩
  | false =>
    cases h
    exact ⟨Prod.ext hres rfl, rfl, rfl, rfl⟩

/-- What `map_user_stack` does when it does not panic. -/
theorem mapUserStack_ok {top : ℕ} (h : mapUserStack s = (.ok top, s')) :
    top = s.nextStack ∧ userStackSpan ≤ top ∧
      stackPages top userStackPages 0 s.machine = (.ok (), s'.machine) ∧
      s'.mmapNext = s.mmapNext ∧ s'.nextStack = top - userStackSpan := by
  unfold mapUserStack at h
  rw [Prog.bind_ok (Prog.read_apply _ s), Prog.ite_apply] at h
  split at h
  · cases h
  rename_i hroom
  rw [Prog.bind_ok (Prog.modify_apply _ s)] at h
  obtain ⟨_, s₁, hpages, h⟩ := Prog.bind_eq_ok.mp h
  unfold UserSpace.on at hpages
  obtain ⟨hres, rfl⟩ := Prod.mk.inj hpages
  cases h
  exact ⟨rfl, by omega, Prod.ext hres rfl, rfl, rfl⟩

/-! ## Runs -/

/-- Addresses `base, .., base + length - 1`. -/
structure Region where
  base : ℕ
  length : ℕ
deriving DecidableEq, Repr

def Region.Contains (r : Region) (va : ℕ) : Prop := r.base ≤ va ∧ va < r.base + r.length

def Region.Disjoint (r r' : Region) : Prop :=
  r.base + r.length ≤ r'.base ∨ r'.base + r'.length ≤ r.base

/-- The slice below a stack top: the mapped pages and the guard gap. -/
def stackSlice (top : ℕ) : Region := ⟨top - userStackSpan, userStackSpan⟩

/-- The address space, the regions `sys_mmap` returned and the tops `map_user_stack`
returned. -/
structure LayoutRun where
  space : UserSpace
  regions : List Region
  tops : List ℕ

inductive LayoutEvent where
  | mmap (size : ℕ)
  | spawn
deriving DecidableEq, Repr

/-- One call that does not panic. -/
def LayoutRun.exec (s : LayoutRun) : LayoutEvent → Option LayoutRun
  | .mmap size =>
    match sysMmap size s.space with
    | (.ok base, space) =>
      if base = einval then some { s with space }
      else some { s with space, regions := ⟨base, mmapCount size * pageSize⟩ :: s.regions }
    | (.error _, _) => none
  | .spawn =>
    match mapUserStack s.space with
    | (.ok top, space) => some { s with space, tops := top :: s.tops }
    | (.error _, _) => none

/-- A region that `sys_mmap` would hand out ends below the stacks, and a stack slice starts above
the regions. -/
def LayoutEvent.Fits (s : UserSpace) : LayoutEvent → Prop
  | .mmap size => size ≠ 0 → size ≤ 2 ^ 40 →
    s.mmapNext + mmapCount size * pageSize ≤ userAddressMax →
    s.mmapNext + mmapCount size * pageSize ≤ s.nextStack
  | .spawn => s.mmapNext + userStackSpan ≤ s.nextStack

/-- A step that fits. -/
def LayoutStep (s : LayoutRun) (e : LayoutEvent) (s' : LayoutRun) : Prop :=
  e.Fits s.space ∧ s.exec e = some s'

/-- Page number `k` is in one of the regions. -/
def InRegions (rs : List Region) (k : ℕ) : Prop := ∃ r ∈ rs, r.Contains (4096 * k)

section Runs

variable {root : ℕ} {hhdm : ℕ → Prop} {words₀ : List (BitVec 64)}

/-- Regions lie below `MMAP_NEXT`, which is below `NEXT_STACK`, which is below the slices. -/
structure LayoutInv (root : ℕ) (hhdm : ℕ → Prop) (words₀ : List (BitVec 64)) (s : LayoutRun) :
    Prop where
  backed : Backed root hhdm words₀ (InRegions s.regions) s.space.machine
  aligned : ∀ r ∈ s.regions, r.base % 4096 = 0 ∧ r.length % 4096 = 0
  next_aligned : s.space.mmapNext % 4096 = 0
  below : ∀ r ∈ s.regions, r.base + r.length ≤ s.space.mmapNext
  apart : s.regions.Pairwise Region.Disjoint
  meet : s.space.mmapNext ≤ s.space.nextStack
  top : s.space.nextStack ≤ userStackTop
  slices : ∀ top ∈ s.tops, s.space.nextStack + userStackSpan ≤ top

variable {s s' : LayoutRun}

/-- Pages of regions are below `MMAP_NEXT`. -/
theorem LayoutInv.page_lt (h : LayoutInv root hhdm words₀ s) {k : ℕ} (hk : InRegions s.regions k) :
    4096 * k + 4096 ≤ s.space.mmapNext := by
  obtain ⟨r, hr, hin⟩ := hk
  unfold Region.Contains at hin
  have hbelow := h.below r hr
  have haligned := h.aligned r hr
  omega

/-- SOURCE: syscall.rs:167-205 -/
theorem LayoutInv.mmap {size base : ℕ} {space : UserSpace} (h : LayoutInv root hhdm words₀ s)
    (hfits : (LayoutEvent.mmap size).Fits s.space) (hrun : sysMmap size s.space = (.ok base, space)) :
    LayoutInv root hhdm words₀ (if base = einval then { s with space }
      else { s with space, regions := ⟨base, mmapCount size * pageSize⟩ :: s.regions }) := by
  have hpage : pageSize = 4096 := rfl
  have hnext := h.next_aligned
  have htop := h.top
  have hmax : userStackTop < 2 ^ 47 := by decide
  obtain ⟨rfl, rfl⟩ | ⟨hpos, hle, hend, b, hpages, hmoved, hsame, hbase⟩ := sysMmap_ok hrun
  · rw [if_pos rfl]
    exact h
  have hbelow := hfits hpos hle hend
  rw [hpage] at hend hmoved hbelow
  have hlt : ∀ k, InRegions s.regions k → k < 2 ^ 35 := by
    intro k hk
    have := h.page_lt hk
    omega
  have hroom : s.space.mmapNext + (0 + mmapCount size) * 4096 ≤ 2 ^ 47 := by
    rw [Nat.zero_add]
    exact hend
  have hbacked := h.backed.mmapPages hnext hroom hlt (fun k hk => by
    have := h.page_lt hk
    omega) hpages
  cases b with
  | false =>
    rw [if_neg (by simp)] at hbase
    rw [if_pos hbase]
    refine ⟨hbacked.mono fun k hk => Or.inl hk, h.aligned, ?_, ?_, h.apart, ?_, ?_, ?_⟩
    · show space.mmapNext % 4096 = 0
      omega
    · intro r hr
      have := h.below r hr
      show _ ≤ space.mmapNext
      omega
    · show space.mmapNext ≤ space.nextStack
      omega
    · show space.nextStack ≤ userStackTop
      omega
    · intro top hin
      show space.nextStack + _ ≤ top
      rw [hsame]
      exact h.slices top hin
  | true =>
    rw [if_pos rfl] at hbase
    have hne : base ≠ einval := by
      have : einval = 2 ^ 64 - 1 := rfl
      omega
    rw [if_neg hne]
    refine ⟨hbacked.mono ?_, ?_, ?_, ?_, ?_, ?_, ?_, ?_⟩
    · rintro k ⟨r, hr, hin⟩
      obtain rfl | hold := List.mem_cons.mp hr
      · unfold Region.Contains at hin
        dsimp only at hin
        rw [hpage] at hin
        exact Or.inr ⟨rfl, by omega, by omega⟩
      · exact Or.inl ⟨r, hold, hin⟩
    · intro r hr
      obtain rfl | hold := List.mem_cons.mp hr
      · dsimp only
        rw [hpage]
        omega
      · exact h.aligned r hold
    · show space.mmapNext % 4096 = 0
      omega
    · intro r hr
      show _ ≤ space.mmapNext
      obtain rfl | hold := List.mem_cons.mp hr
      · dsimp only
        rw [hpage]
        omega
      · have := h.below r hold
        omega
    · refine List.pairwise_cons.mpr ⟨fun r hr => ?_, h.apart⟩
      have := h.below r hr
      unfold Region.Disjoint
      dsimp only
      omega
    · show space.mmapNext ≤ space.nextStack
      omega
    · show space.nextStack ≤ userStackTop
      omega
    · intro top hin
      show space.nextStack + _ ≤ top
      rw [hsame]
      exact h.slices top hin

/-- SOURCE: user.rs:316-336 -/
theorem LayoutInv.spawn {top : ℕ} {space : UserSpace} (h : LayoutInv root hhdm words₀ s)
    (hfits : LayoutEvent.spawn.Fits s.space) (hrun : mapUserStack s.space = (.ok top, space)) :
    LayoutInv root hhdm words₀ { s with space, tops := top :: s.tops } := by
  have htop := h.top
  have hmax : userStackTop < 2 ^ 47 := by decide
  obtain ⟨rfl, hroom, hpages, hmmap, hnext⟩ := mapUserStack_ok hrun
  unfold LayoutEvent.Fits at hfits
  have hbacked := h.backed.stackPages rfl (by omega) hroom (fun k hk => by
    have := h.page_lt hk
    omega) (fun k hk => by
    have := h.page_lt hk
    omega) hpages
  refine ⟨hbacked, h.aligned, ?_, ?_, h.apart, ?_, ?_, ?_⟩
  · show space.mmapNext % 4096 = 0
    rw [hmmap]
    exact h.next_aligned
  · intro r hr
    show _ ≤ space.mmapNext
    rw [hmmap]
    exact h.below r hr
  · show space.mmapNext ≤ space.nextStack
    omega
  · show space.nextStack ≤ userStackTop
    omega
  · intro top hin
    show space.nextStack + _ ≤ top
    obtain rfl | hold := List.mem_cons.mp hin
    · omega
    · have := h.slices top hold
      omega

/-- **Step lemma.**  A step that fits keeps the layout. -/
theorem LayoutInv.step {e : LayoutEvent} (h : LayoutInv root hhdm words₀ s)
    (hstep : LayoutStep s e s') : LayoutInv root hhdm words₀ s' := by
  obtain ⟨hfits, hexec⟩ := hstep
  cases e with
  | mmap size =>
    unfold LayoutRun.exec at hexec
    dsimp only at hexec
    split at hexec
    · rename_i base space hrun
      have hinv := h.mmap hfits hrun
      split at hexec <;> rename_i hbase <;> obtain rfl := Option.some.inj hexec
      · rwa [if_pos hbase] at hinv
      · rwa [if_neg hbase] at hinv
    · cases hexec
  | spawn =>
    unfold LayoutRun.exec at hexec
    dsimp only at hexec
    split at hexec
    · rename_i top space hrun
      obtain rfl := Option.some.inj hexec
      exact h.spawn hfits hrun
    · cases hexec

end Runs

/-! ## Regions and stacks stay apart -/

/-- What is true of the regions handed out so far. -/
structure RegionsApart (root : ℕ) (hhdm : ℕ → Prop) (words₀ : List (BitVec 64)) (s : LayoutRun) :
    Prop where
  aligned : ∀ r ∈ s.regions, r.base % pageSize = 0
  backed : ∀ r ∈ s.regions, ∀ va, r.Contains va → ∃ f, BackedBy root hhdm words₀ s.space.machine va f
  apart : s.regions.Pairwise Region.Disjoint
  slices : ∀ r ∈ s.regions, ∀ top ∈ s.tops, r.Disjoint (stackSlice top)

/-- The address space before the first call: the tables are a tree, no frame of theirs is
free, and no page outside the window is mapped to a free frame. -/
structure LayoutBoot (root : ℕ) (hhdm : ℕ → Prop) (s : UserSpace) : Prop where
  tree : TableTree s.machine root
  fresh : FramesFresh s.machine root
  used : ∀ va, ¬hhdm va → vmmVirtToPhys s.machine va ≠ vmmNoPhys →
    test s.machine.pmm.words (vmmVirtToPhys s.machine va / 4096) = true
  mmapNext : s.mmapNext = mmapBase
  nextStack : s.nextStack = userStackTop

/-- Before the first call. -/
theorem layoutInv_boot {root : ℕ} {hhdm : ℕ → Prop} {boot : UserSpace}
    (h : LayoutBoot root hhdm boot) :
    LayoutInv root hhdm boot.machine.pmm.words ⟨boot, [], []⟩ where
  backed := ⟨h.tree, h.fresh, fun _ hk => hk, h.used, fun _ ⟨_, hr, _⟩ => by cases hr⟩
  aligned _ hr := by cases hr
  next_aligned := by
    show boot.mmapNext % 4096 = 0
    rw [h.mmapNext]
    rfl
  below _ hr := by cases hr
  apart := List.Pairwise.nil
  meet := by
    show boot.mmapNext ≤ boot.nextStack
    rw [h.mmapNext, h.nextStack]
    decide
  top := h.nextStack.le
  slices _ hr := by cases hr

/-- **The layout of user memory.**  In every run of `sys_mmap` and `map_user_stack` calls
whose regions and slices fit between `MMAP_NEXT` and `NEXT_STACK`, every region that was
returned is page aligned, zero, backed by frames with no other use, and disjoint from every other
region and from every stack slice. -/
theorem mmap_regions_apart {root : ℕ} {hhdm : ℕ → Prop} {boot : UserSpace}
    (hboot : LayoutBoot root hhdm boot) {s : LayoutRun}
    (hrun : Reaches LayoutStep ⟨boot, [], []⟩ s) :
    RegionsApart root hhdm boot.machine.pmm.words s := by
  have hinv : LayoutInv root hhdm boot.machine.pmm.words s :=
    hrun.invariant (layoutInv_boot hboot) fun _ _ _ h hstep => h.step hstep
  refine ⟨fun r hr => (hinv.aligned r hr).1, fun r hr va hva => ?_, hinv.apart,
    fun r hr top htop => ?_⟩
  · apply hinv.backed.backs
    refine ⟨r, hr, ?_⟩
    have haligned := hinv.aligned r hr
    unfold Region.Contains at hva ⊢
    omega
  · have hbelow := hinv.below r hr
    have hmeet := hinv.meet
    have hslice := hinv.slices top htop
    unfold Region.Disjoint stackSlice
    dsimp only
    omega

/-- Empty tables in frame 1, with the allocator `pmm`, before the first call. -/
def emptySpace (pmm : Pmm) : UserSpace := ⟨{ emptyTables with pmm }, mmapBase, userStackTop⟩

theorem tableTree_emptySpace (pmm : Pmm) : TableTree (emptySpace pmm).machine 1 :=
  ⟨rfl, emptyTables_tree.tree⟩

/-- Nothing is mapped there. -/
theorem virtToPhys_emptySpace (pmm : Pmm) (va : ℕ) :
    vmmVirtToPhys (emptySpace pmm).machine va = vmmNoPhys := by
  have habsent : tableCell (emptySpace pmm).machine.mem 1 (idx4 va) &&& ptePresent = 0 := by
    rw [show (emptySpace pmm).machine.mem = emptyTables.mem from rfl, tableCell_emptyTables]
    rfl
  have hmeets : MeetsAbsent (emptySpace pmm).machine 1 va :=
    meetsAbsent (p := []) (t := 1) (r := [idx3 va, idx2 va, idx1 va]) rfl rfl habsent
  exact hmeets.virtToPhys (tableTree_emptySpace pmm) va rfl

theorem layoutBoot_emptySpace {pmm : Pmm}
    (hfree : ∀ j, test pmm.words j = false → j < 2 ^ 40 ∧ j ≠ 1) :
    LayoutBoot 1 (fun _ => False) (emptySpace pmm) := by
  refine ⟨tableTree_emptySpace pmm, fun j hj => ⟨(hfree j hj).1, fun q _ hn => ?_⟩,
    fun va _ hmapped => absurd (virtToPhys_emptySpace pmm va) hmapped, rfl, rfl⟩
  rw [show tableAt (emptySpace pmm).machine 1 q = tableAt emptyTables 1 q from rfl,
    tableAt_emptyTables] at hn
  split at hn
  · exact (hfree j hj).2 (Option.some.inj hn).symm
  · cases hn

/-- Frame 1 is one of the first 64 frames, and it is in use. -/
theorem free_word {w : BitVec 64} (hused : w.getLsbD 1 = true) {j : ℕ} (hj : test [w] j = false) :
    j < 2 ^ 40 ∧ j ≠ 1 := by
  have hlt : j < 64 := by
    by_contra hge
    rw [test_of_length_le (by omega) (by simp; omega)] at hj
    cases hj
  refine ⟨by omega, ?_⟩
  rintro rfl
  exact absurd (hused.symm.trans hj) (by simp)

instance (s : UserSpace) : (e : LayoutEvent) → Decidable (e.Fits s)
  | .mmap _ => inferInstanceAs (Decidable (_ → _ → _ → _))
  | .spawn => inferInstanceAs (Decidable (_ ≤ _))

/-- One call that fits and does not panic. -/
def LayoutRun.execFits (s : LayoutRun) (e : LayoutEvent) : Option LayoutRun :=
  if e.Fits s.space then s.exec e else none

theorem layoutStep_of_execFits {s s' : LayoutRun} {e : LayoutEvent} (h : s.execFits e = some s') :
    LayoutStep s e s' := by
  unfold LayoutRun.execFits at h
  split at h
  · rename_i hfits
    exact ⟨hfits, h⟩
  · cases h

/-- A region, a stack and a second region, on a machine where frames 4 to 35 are free. -/
theorem mmap_regions_apart_stack :
    ∃ s, runEvents LayoutRun.execFits ⟨emptySpace ⟨0, 1, [0xFFFFFFF00000000F#64], 0⟩, [], []⟩
        [.mmap 1, .spawn, .mmap 5000] = some s ∧
      s.regions = [⟨0x6000_0000_1000, 8192⟩, ⟨0x6000_0000_0000, 4096⟩] ∧ s.tops = [userStackTop] ∧
      RegionsApart 1 (fun _ => False) [0xFFFFFFF00000000F#64] s := by
  have hboot : LayoutBoot 1 (fun _ => False) (emptySpace ⟨0, 1, [0xFFFFFFF00000000F#64], 0⟩) :=
    layoutBoot_emptySpace fun _ hj => free_word (by simp) hj
  have hrun : (runEvents LayoutRun.execFits ⟨emptySpace ⟨0, 1, [0xFFFFFFF00000000F#64], 0⟩, [], []⟩
      [.mmap 1, .spawn, .mmap 5000]).map (fun s => (s.regions, s.tops)) =
      some ([⟨0x6000_0000_1000, 8192⟩, ⟨0x6000_0000_0000, 4096⟩], [userStackTop]) := by
    decide +kernel
  obtain ⟨s, hs, hlists⟩ := Option.map_eq_some_iff.mp hrun
  obtain ⟨hregions, htops⟩ := Prod.ext_iff.mp hlists
  have hreach := (reaches_of_runEvents hs).mono fun _ _ _ => layoutStep_of_execFits
  exact ⟨s, hs, hregions, htops, mmap_regions_apart hboot hreach⟩

end Pinx.Analysis
