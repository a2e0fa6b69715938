import Mathlib.Order.Interval.Finset.Nat
import Pinx.Analysis.RingThree
import Pinx.Analysis.UserLayout

/-!
# Where regions and stacks meet

With enough free frames no call fails (`Stocked`): a page takes one frame, and at most three
tables if it is the first of its two megabytes.  So on a machine with `2 ^ 46` bytes of memory one
spawned program and 32 calls of `sys_mmap` for a tebibyte each all succeed, and the last region
covers the stack.
-/

namespace Pinx.Analysis

open Pinx.Foundation Pinx.Foundation.WordBitmap Pinx.Foundation.RadixTree Pinx.Model

variable {m m' : Machine} {root t t' flags va k c : ℕ} {p : List (Fin 512)} {i : Fin 512}

/-- The allocator is in order and has `k` free frames. -/
structure Supply (k : ℕ) (p : Pmm) : Prop where
  length : p.words.length = p.entries
  pos : 0 < p.entries
  hint : p.hint + p.entries ≤ 2 ^ 64
  bound : p.entries ≤ 2 ^ 63
  free : ∃ S : Finset ℕ, k ≤ S.card ∧ ∀ j ∈ S, test p.words j = false

theorem Supply.mono {p : Pmm} {k' : ℕ} (h : Supply k p) (hle : k' ≤ k) : Supply k' p := by
  obtain ⟨S, hcard, hfree⟩ := h.free
  exact { h with free := ⟨S, hle.trans hcard, hfree⟩ }

/-- With a free frame `pmm_alloc_page` hands one out. -/
theorem Supply.alloc {m : Machine} (h : Supply (k + 1) m.pmm) :
    ∃ j m', allocPage m = (.ok (4096 * j), m') ∧ m'.mem = m.mem ∧ m'.pml4 = m.pml4 ∧
      test m.pmm.words j = false ∧ m'.pmm.words = mark m.pmm.words j ∧ Supply k m'.pmm := by
  obtain ⟨S, hcard, hfree⟩ := h.free
  have hbound := h.bound
  obtain ⟨j, p', halloc, hj, hclear, hmark, hentries, -, hhint⟩ | ⟨-, hfull⟩ :=
    pmmAllocPage_spec h.length h.pos h.hint
  · refine ⟨j, { m with pmm := p' }, ?_, rfl, rfl, hclear, hmark, ?_, ?_, ?_, ?_, S.erase j, ?_, ?_⟩
    · rw [allocPage, halloc, Nat.mul_comm 4096 j]
      rfl
    · rw [hmark, hentries, length_mark, h.length]
    · rw [hentries]
      exact h.pos
    · show p'.hint + p'.entries ≤ 2 ^ 64
      omega
    · rw [hentries]
      exact hbound
    · have := Finset.pred_card_le_card_erase (s := S) (a := j)
      omega
    · intro l hl
      obtain ⟨hne, hmem⟩ := Finset.mem_erase.mp hl
      rw [hmark, test_of_mark hclear, hfree l hmem, decide_eq_false hne]
      rfl
  · obtain ⟨l, hl⟩ := Finset.card_pos.mp (show 0 < S.card by omega)
    have := hfree l hl
    rw [hfull] at this
    cases this

/-- Tables that are a tree without huge entries above the last level, and `k` free frames
outside them. -/
structure Stocked (root k : ℕ) (m : Machine) : Prop where
  tree : TableTree m root
  fresh : FramesFresh m root
  small : ∀ (q : List (Fin 512)) n j, q.length < 3 → tableAt m root q = some n →
    tableCell m.mem n j &&& ptePresent ≠ 0 → tableCell m.mem n j &&& pteHuge = 0
  supply : Supply k m.pmm

theorem Stocked.mono {k' : ℕ} (h : Stocked root k m) (hle : k' ≤ k) : Stocked root k' m :=
  { h with supply := h.supply.mono hle }

/-- An interior level returns: the entry is there, or there is a frame for a table. -/
theorem Supply.ensureTable (h : Supply (k + c) m.pmm) (hfresh : FramesFresh m root)
    (hp : tableAt m root p = some t) (hlen : p.length < 3) (hugeText oomText : String) (flags : ℕ)
    (hc : tableCell m.mem t i &&& ptePresent = 0 → 1 ≤ c)
    (hsmall : tableCell m.mem t i &&& ptePresent ≠ 0 → tableCell m.mem t i &&& pteHuge = 0) :
    ∃ t' m', ensureTable hugeText oomText flags (4096 * t) i m = (.ok (4096 * t'), m') ∧
      LevelStep flags m m' t i t' ∧ Supply k m'.pmm := by
  have hfreeOf := hfresh.freeOf (Nat.le_of_lt hlen) hp
  have hentry : ∃ m', ensureEntry hugeText oomText flags (4096 * t) i m = (.ok (), m') ∧
      Supply k m'.pmm := by
    simp only [ensureEntry, readEntry_bind, entryAt_tableCell, Prog.ite_apply]
    split
    · rename_i hpresent
      rw [if_neg (not_not.mpr (hsmall hpresent))]
      split
      · exact ⟨_, rfl, h.mono (Nat.le_add_right k c)⟩
      · exact ⟨_, rfl, h.mono (Nat.le_add_right k c)⟩
    · rename_i habsent
      have hpos := hc (not_not.mp habsent)
      obtain ⟨j, m₁, halloc, -, -, hfree, -, hsupply⟩ := (h.mono (show k + 1 ≤ k + c by omega)).alloc
      have hne : 4096 * j ≠ pmmNoPage := by
        have := (hfresh j hfree).1
        unfold pmmNoPage
        omega
      rw [Prog.bind_ok halloc, Prog.ite_apply, if_neg hne]
      exact ⟨_, rfl, hsupply⟩
  obtain ⟨m', hrun, hsupply⟩ := hentry
  obtain ⟨t', hstep⟩ := ensureEntry_ok hfreeOf hrun
  refine ⟨t', m', ?_, hstep, hsupply⟩
  unfold Model.ensureTable
  rw [Prog.bind_ok hrun, readEntry_bind, entryAt_tableCell, Prog.pure_apply,
    tableRef_addr (hstep.tableRef_eq hfreeOf)]

/-- A level leaves no huge entry where none was: an entry that refers to a table is small, another one
is as before or empty. -/
theorem LevelStep.small (htree : TableTree m root) (hfresh : FramesFresh m root)
    (hp : tableAt m root p = some t) (hlen : p.length < 3) (hstep : LevelStep flags m m' t i t')
    {q : List (Fin 512)} {n : ℕ} {j : Fin 512} (hq : q.length ≤ 3) (hn : tableAt m' root q = some n)
    (hsmall : tableAt m root q = some n → tableCell m.mem n j &&& ptePresent ≠ 0 →
      tableCell m.mem n j &&& pteHuge = 0)
    (hpresent : tableCell m'.mem n j &&& ptePresent ≠ 0) : tableCell m'.mem n j &&& pteHuge = 0 := by
  cases href : tableRef (tableCell m'.mem n j) with
  | some n' =>
    unfold tableRef at href
    split at href
    · rename_i hplain
      exact hplain.2
    · cases href
  | none =>
    obtain hold | ⟨-, hzero⟩ := hstep.tableAt_cases htree hfresh hp hlen hq hn
    · obtain hsame | hzero := hstep.cell_of_none hp hlen hfresh href
      · rw [hsame] at hpresent ⊢
        exact hsmall hold hpresent
      · rw [hzero] at hpresent
        exact absurd rfl hpresent
    · rw [hzero] at hpresent
      exact absurd rfl hpresent

/-- A level takes a frame only for a table that is not there. -/
theorem Stocked.ensureTable (h : Stocked root (k + c) m) (hugeText oomText : String) (flags : ℕ)
    (i : Fin 512) (hp : tableAt m root p = some t) (hlen : p.length < 3)
    (hc : tableAt m root (p ++ [i]) = none → 1 ≤ c) :
    ∃ t' m', ensureTable hugeText oomText flags (4096 * t) i m = (.ok (4096 * t'), m') ∧
      Stocked root k m' ∧ Grows root m m' ∧ tableAt m' root (p ++ [i]) = some t' := by
  have habsent : tableCell m.mem t i &&& ptePresent = 0 → 1 ≤ c := fun hzero =>
    hc (by rw [tableAt_concat, hp, Option.bind_some, tableRef, if_neg fun hboth => hboth.1 hzero])
  obtain ⟨t', m', hrun, hstep, hsupply⟩ := h.supply.ensureTable h.fresh hp hlen hugeText oomText flags
    habsent (h.small p t i hlen hp)
  obtain ⟨hgrows, hat⟩ := hstep.grows h.tree h.fresh hp hlen
  refine ⟨t', m', hrun, ⟨hgrows.tree, hgrows.fresh, fun q n j hq hn => ?_, hsupply⟩, hgrows, hat⟩
  exact hstep.small h.tree h.fresh hp hlen (Nat.le_of_lt hq) hn (h.small q n j hq)

/-- The three levels take no frame if the page table is there. -/
theorem Stocked.ensurePath (h : Stocked root (k + 3 * c) m) (flags va : ℕ)
    (hc : tableAt m root (vaPath va) = none → 1 ≤ c) :
    ∃ n m', ensurePath flags (4096 * root) va m = (.ok (4096 * n), m') ∧ Stocked root k m' ∧
      tableAt m' root (vaPath va) = some n := by
  have hlevel : ∀ (q : List (Fin 512)) m₁, q <+: vaPath va → Grows root m m₁ →
      tableAt m₁ root q = none → 1 ≤ c := by
    rintro q m₁ ⟨r, hr⟩ hgrows hnone
    have hq : q.length ≤ 3 := by
      have := congrArg List.length hr
      rw [List.length_append, length_vaPath] at this
      omega
    apply hc
    rw [← hr]
    cases hold : tableAt m root q with
    | none => exact (descend_append root q r).trans (by rw [show descend _ _ root q = none from hold]; rfl)
    | some n =>
      rw [hgrows.mono q n hq hold] at hnone
      cases hnone
  have hat₀ : tableAt m root [] = some root := rfl
  have hg₀ := Grows.refl h.tree h.fresh
  obtain ⟨t₁, m₁, h₄, hs₁, hg₁, hat₁⟩ := (h.mono (show k + c + c + c ≤ _ by omega)).ensureTable
    "vmm_map_page: PML4 entry covers 512GiB, split it first"
    "vmm_map_page: out of memory allocating a PML4 entry" flags (idx4 va) hat₀ (by simp)
    (hlevel _ _ ⟨[idx3 va, idx2 va], rfl⟩ hg₀)
  obtain ⟨t₂, m₂, h₃, hs₂, hg₂, hat₂⟩ := hs₁.ensureTable
    "vmm_map_page: PDPT entry covers 1GiB, split it first"
    "vmm_map_page: out of memory allocating a PDPT entry" flags (idx3 va) hat₁ (by simp)
    (hlevel _ _ ⟨[idx2 va], rfl⟩ hg₁)
  obtain ⟨t₃, m₃, h₂, hs₃, -, hat₃⟩ := hs₂.ensureTable
    "vmm_map_page: PD entry covers 2MiB, split it first"
    "vmm_map_page: out of memory allocating a PD entry" flags (idx2 va) hat₂ (by simp)
    (hlevel _ _ ⟨[], rfl⟩ (hg₁.trans hg₂))
  refine ⟨t₃, m₃, ?_, hs₃, hat₃⟩
  exact (Prog.bind_ok h₄).trans ((Prog.bind_ok h₃).trans h₂)

/-- Writing a leaf keeps the stock. -/
theorem Stocked.withLeaf {n v : ℕ} (h : Stocked root k m)
    (hat : tableAt m root (vaPath va) = some n) (hv : v < 2 ^ 64) :
    Stocked root k (withLeaf m n va v) := by
  have hdesc := fun q hq => tableAt_withLeaf (v := v) h.tree hat q hq
  refine ⟨(withLeaf_spec h.tree hat hv).1, fun j hj => ⟨(h.fresh j hj).1, fun q hq => ?_⟩,
    fun q n' j hq hn hpresent => ?_, h.supply⟩
  · rw [hdesc q hq]
    exact (h.fresh j hj).2 q hq
  · rw [hdesc q (Nat.le_of_lt hq)] at hn
    rw [withLeaf_interior h.tree hat hv hq hn] at hpresent ⊢
    exact h.small q n' j hq hn hpresent

/-- With the tables in place a page is mapped. -/
theorem vmmMapUserPage_of_path {n pa : ℕ} (hroot : m.pml4 = some (4096 * root)) (hva : va % 4096 = 0)
    (hpa : pa % 4096 = 0)
    (hpath : ensurePath (ptePresent ||| pteWritable ||| pteUser) (4096 * root) va m = (.ok (4096 * n), m')) :
    ∃ v < 2 ^ 64, vmmMapUserPage va pa m = (.ok (), withLeaf m' n va v) := by
  have haligned : ¬(va % pageSize ≠ 0 ∨ pa % pageSize ≠ 0) := by
    rw [show pageSize = 4096 from rfl]
    omega
  refine ⟨(pa &&& pteAddrMask) ||| ptePresent ||| (ptePresent ||| pteWritable ||| pteUser), ?_, ?_⟩
  · exact Nat.or_lt_two_pow (Nat.or_lt_two_pow (by have := addr_lt pa; omega) (by decide)) (by decide)
  · unfold vmmMapUserPage vmmMapPageFlags
    rw [Prog.bind_ok (Prog.read_apply _ m), hroot]
    dsimp only
    rw [if_neg haligned, Prog.bind_ok hpath, writeEntry_apply]
    rfl

theorem Stocked.mapUserPage {pa : ℕ} (h : Stocked root (k + 3 * c) m) (hva : va % 4096 = 0)
    (hpa : pa % 4096 = 0) (hc : tableAt m root (vaPath va) = none → 1 ≤ c) :
    ∃ m', vmmMapUserPage va pa m = (.ok (), m') ∧ Stocked root k m' ∧
      tableAt m' root (vaPath va) ≠ none := by
  obtain ⟨n, m₁, hpath, hs₁, hat⟩ := h.ensurePath (ptePresent ||| pteWritable ||| pteUser) va hc
  obtain ⟨v, hv, hrun⟩ := vmmMapUserPage_of_path h.tree.pml4 hva hpa hpath
  refine ⟨_, hrun, hs₁.withLeaf hat hv, ?_⟩
  rw [tableAt_withLeaf hs₁.tree hat _ (length_vaPath va).le, hat]
  exact Option.some_ne_none n

/-- Zeroing a fresh frame changes no table. -/
theorem Zeroed.cell {j n : ℕ} (h : Zeroed root j m m') {q : List (Fin 512)} (hq : q.length ≤ 3)
    (hn : tableAt m' root q = some n) (i : Fin 512) : tableCell m'.mem n i = tableCell m.mem n i := by
  apply tableCell_of_bytes
  intro b hb
  apply h.bytes
  rintro rfl
  exact h.unmapped q hq (hb ▸ hn)

/-- A zeroed page is mapped. -/
theorem Stocked.mapZeroed (h : Stocked root (k + 3 * c + 1) m) (hva : va % 4096 = 0)
    (hc : tableAt m root (vaPath va) = none → 1 ≤ c) :
    ∃ m', mapZeroed va m = (.ok true, m') ∧ Stocked root k m' ∧
      tableAt m' root (vaPath va) ≠ none := by
  obtain ⟨j, m₁, halloc, hmem, hpml4, hfree, hmark, hsupply⟩ := h.supply.alloc
  have hne : 4096 * j ≠ pmmNoPage := by
    have := (h.fresh j hfree).1
    unfold pmmNoPage
    omega
  obtain ⟨m₂, hzero, hpmm, hzeroed⟩ := zeroed_of_alloc h.tree h.fresh hmem hpml4 hfree hmark
  have hstocked : Stocked root (k + 3 * c) m₂ := by
    refine ⟨hzeroed.tree, hzeroed.fresh, fun q n j' hq hn hpresent => ?_, hpmm ▸ hsupply⟩
    have hold := hzeroed.paths q (Nat.le_of_lt hq) ▸ hn
    rw [hzeroed.cell (Nat.le_of_lt hq) hn] at hpresent ⊢
    exact h.small q n j' hq hold hpresent
  rw [← hzeroed.paths _ (length_vaPath va).le] at hc
  obtain ⟨m₃, hmap, hs₃, hat₃⟩ := hstocked.mapUserPage hva (show 4096 * j % 4096 = 0 by omega) hc
  refine ⟨m₃, ?_, hs₃, hat₃⟩
  unfold Model.mapZeroed
  rw [Prog.bind_ok halloc, Prog.ite_apply, if_neg hne, Prog.bind_ok hzero, Prog.bind_ok hmap]
  rfl

/-- Two pages of the same two megabytes have one page table. -/
theorem vaPath_congr {va' : ℕ} (h : va / 2 ^ 21 = va' / 2 ^ 21) : vaPath va = vaPath va' := by
  simp only [vaPath, idx4, idx3, idx2, pml4Index, pdptIndex, pdIndex, List.cons.injEq, Fin.ext_iff,
    and_true]
  omega

/-- The frames for `n` pages from page `page` of a region on: one for each, and three for each page
table that is begun. -/
def pagesCost (page n : ℕ) : ℕ := n + 3 * ((page + n + 511) / 512 - (page + 511) / 512)

/-- The pages of a region, if the first one begins a page table or follows one. -/
theorem Stocked.mmapPages {base n page : ℕ} (h : Stocked root (k + pagesCost page n) m)
    (hbase : base % 2 ^ 21 = 0)
    (hc : page % 512 = 0 ∨ tableAt m root (vaPath (base + page * pageSize)) ≠ none) :
    ∃ m', mmapPages base n page m = (.ok true, m') ∧ Stocked root k m' := by
  have hsize : pageSize = 4096 := rfl
  induction n generalizing m page with
  | zero => exact ⟨m, rfl, h.mono (Nat.le_add_right k _)⟩
  | succ n ih =>
    have hva : (base + page * pageSize) % 4096 = 0 := by
      rw [hsize]
      omega
    have hcost : k + pagesCost (page + 1) n + 3 * (if page % 512 = 0 then 1 else 0) + 1 ≤
        k + pagesCost page (n + 1) := by
      unfold pagesCost
      split <;> omega
    obtain ⟨m₁, hmap, hs₁, hat⟩ := (h.mono hcost).mapZeroed hva fun hnone => by
      rw [if_pos (hc.resolve_right (not_not_intro hnone))]
    have hnext : (page + 1) % 512 = 0 ∨
        tableAt m₁ root (vaPath (base + (page + 1) * pageSize)) ≠ none := by
      by_cases hfirst : (page + 1) % 512 = 0
      · exact Or.inl hfirst
      · have hsame : vaPath (base + (page + 1) * pageSize) = vaPath (base + page * pageSize) :=
          vaPath_congr (by rw [hsize]; omega)
        rw [hsame]
        exact Or.inr hat
    obtain ⟨m', hrest, hs'⟩ := ih hs₁ hnext
    refine ⟨m', ?_, hs'⟩
    unfold Model.mmapPages
    rw [Prog.bind_ok hmap]
    exact hrest

/-- The pages of a stack, with four frames for each. -/
theorem Stocked.stackPages {top n : ℕ} (h : Stocked root (k + 4 * n) m)
    (htop : top % 4096 = 0) (i : ℕ) :
    ∃ m', stackPages top n i m = (.ok (), m') ∧ Stocked root k m' := by
  induction n generalizing m i with
  | zero => exact ⟨m, rfl, h⟩
  | succ n ih =>
    have hva : (top - (userStackPages - i) * pageSize) % 4096 = 0 := by
      rw [show pageSize = 4096 from rfl]
      omega
    obtain ⟨m₁, hmap, hs₁, -⟩ := (h.mono (show k + 4 * n + 3 * 1 + 1 ≤ _ by omega)).mapZeroed hva
      fun _ => le_refl 1
    obtain ⟨m', hrest, hs'⟩ := ih hs₁ (i + 1)
    refine ⟨m', ?_, hs'⟩
    unfold Model.stackPages
    rw [Prog.bind_ok hmap]
    exact hrest

/-! ## A run that collides -/

/-- A region is handed out. -/
theorem Stocked.sysMmap {s : LayoutRun} {size : ℕ}
    (h : Stocked root (k + pagesCost 0 (mmapCount size)) s.space.machine) (hpos : size ≠ 0)
    (hle : size ≤ 2 ^ 40) (haligned : s.space.mmapNext % 2 ^ 21 = 0)
    (hroom : s.space.mmapNext + mmapCount size * pageSize ≤ userAddressMax) :
    ∃ s', s.exec (.mmap size) = some s' ∧ Stocked root k s'.space.machine ∧
      s'.space.mmapNext = s.space.mmapNext + mmapCount size * pageSize ∧ s'.tops = s.tops ∧
      s'.regions = ⟨s.space.mmapNext, mmapCount size * pageSize⟩ :: s.regions := by
  have hmax : userAddressMax = 2 ^ 47 := rfl
  obtain ⟨m', hpages, hs'⟩ := h.mmapPages haligned (Or.inl rfl)
  have hon : UserSpace.on (Model.mmapPages s.space.mmapNext (mmapCount size) 0)
      { s.space with mmapNext := s.space.mmapNext + mmapCount size * pageSize } =
      (.ok true, { s.space with
        machine := m', mmapNext := s.space.mmapNext + mmapCount size * pageSize }) := by
    unfold UserSpace.on
    rw [hpages]
  have hrun : Model.sysMmap size s.space = (.ok s.space.mmapNext, { s.space with
      machine := m', mmapNext := s.space.mmapNext + mmapCount size * pageSize }) := by
    unfold Model.sysMmap
    rw [Prog.ite_apply, if_neg (by omega), Prog.bind_ok (Prog.read_apply _ _), Prog.ite_apply,
      if_neg (by omega), Prog.bind_ok (Prog.modify_apply _ _), Prog.bind_ok hon]
    rfl
  have hne : s.space.mmapNext ≠ einval := by
    have : einval = 2 ^ 64 - 1 := rfl
    omega
  refine ⟨{ s with
    space := { s.space with
      machine := m', mmapNext := s.space.mmapNext + mmapCount size * pageSize }
    regions := ⟨s.space.mmapNext, mmapCount size * pageSize⟩ :: s.regions }, ?_, hs', rfl, rfl, rfl⟩
  unfold LayoutRun.exec
  dsimp only
  rw [hrun]
  dsimp only
  rw [if_neg hne]

/-- As many regions as fit into user space. -/
theorem Stocked.mmaps {s : LayoutRun} {size n : ℕ}
    (h : Stocked root (k + pagesCost 0 (mmapCount size) * n) s.space.machine) (hpos : size ≠ 0)
    (hle : size ≤ 2 ^ 40) (hcount : mmapCount size % 512 = 0)
    (haligned : s.space.mmapNext % 2 ^ 21 = 0)
    (hroom : s.space.mmapNext + mmapCount size * pageSize * n ≤ userAddressMax) :
    ∃ s', runEvents LayoutRun.exec s (List.replicate n (.mmap size)) = some s' ∧
      Stocked root k s'.space.machine ∧
      s'.space.mmapNext = s.space.mmapNext + mmapCount size * pageSize * n ∧ s'.tops = s.tops := by
  have hsize : pageSize = 4096 := rfl
  induction n generalizing s with
  | zero => exact ⟨s, rfl, h, rfl, rfl⟩
  | succ n ih =>
    rw [Nat.mul_succ] at hroom h
    obtain ⟨s₁, hexec, hs₁, hnext₁, htops₁, -⟩ :=
      (h.mono (show k + pagesCost 0 (mmapCount size) * n + pagesCost 0 (mmapCount size) ≤ _ by omega)).sysMmap
        hpos hle haligned (by omega)
    have haligned₁ : s₁.space.mmapNext % 2 ^ 21 = 0 := by
      rw [hsize] at hnext₁
      omega
    obtain ⟨s', hrun, hs', hnext', htops'⟩ := ih hs₁ haligned₁ (by omega)
    refine ⟨s', ?_, hs', ?_, htops'.trans htops₁⟩
    · rw [List.replicate_succ, runEvents, hexec]
      exact hrun
    · rw [Nat.mul_succ]
      omega

/-- A stack is handed out. -/
theorem Stocked.mapUserStack {s : LayoutRun} (h : Stocked root (k + 64) s.space.machine)
    (haligned : s.space.nextStack % 4096 = 0) (hroom : userStackSpan ≤ s.space.nextStack) :
    ∃ s', s.exec .spawn = some s' ∧ Stocked root k s'.space.machine ∧
      s'.space.mmapNext = s.space.mmapNext ∧ s'.tops = s.space.nextStack :: s.tops := by
  obtain ⟨m', hpages, hs'⟩ :=
    (h.mono (show k + 4 * 16 ≤ k + 64 by omega)).stackPages haligned 0
  have hrun : Model.mapUserStack s.space = (.ok s.space.nextStack,
      { s.space with machine := m', nextStack := s.space.nextStack - userStackSpan }) := by
    have hon : UserSpace.on (Model.stackPages s.space.nextStack userStackPages 0)
        { s.space with nextStack := s.space.nextStack - userStackSpan } =
        (.ok (), { s.space with machine := m', nextStack := s.space.nextStack - userStackSpan }) := by
      unfold UserSpace.on
      rw [show userStackPages = 16 from rfl, hpages]
    unfold Model.mapUserStack
    rw [Prog.bind_ok (Prog.read_apply _ _), Prog.ite_apply, if_neg (by omega),
      Prog.bind_ok (Prog.modify_apply _ _), Prog.bind_ok hon]
    rfl
  refine ⟨{ s with
    space := { s.space with machine := m', nextStack := s.space.nextStack - userStackSpan }
    tops := s.space.nextStack :: s.tops }, ?_, hs', rfl, rfl⟩
  unfold LayoutRun.exec
  dsimp only
  rw [hrun]

/-- An allocator for `2 ^ 46` bytes: all frames but the one of `PML4` are free, and the
bitmap is behind them. -/
@[irreducible] def largePmm : Pmm where
  bitmapPhysical := 2 ^ 46
  entries := 2 ^ 28
  words := mark (List.replicate (2 ^ 28) 0#64) 1
  hint := 0

theorem test_largePmm (j : ℕ) : test largePmm.words j = decide (2 ^ 34 ≤ j ∨ j = 1) := by
  have hzero : ∀ l, test (List.replicate (2 ^ 28) 0#64) l = decide (2 ^ 34 ≤ l) := by
    intro l
    unfold test
    rw [List.getD_eq_getElem?_getD, List.getElem?_replicate]
    split
    · rename_i hlt
      rw [Option.getD_some, BitVec.getLsbD_zero, eq_comm, decide_eq_false_iff_not]
      omega
    · rename_i hge
      rw [Option.getD_none, BitVec.getLsbD_allOnes]
      have : l % 64 < 64 := Nat.mod_lt _ (by omega)
      rw [decide_eq_true this, eq_comm, decide_eq_true_eq]
      omega
  unfold largePmm
  dsimp only
  rw [test_of_mark (by rw [hzero]; decide), hzero, Bool.decide_or]

/-- Memory for a stack and 32 regions of a tebibyte. -/
theorem stocked_large : Stocked 1 (2 ^ 33 + 2 ^ 26 + 64) (emptySpace largePmm).machine := by
  have hboot : LayoutBoot 1 (fun _ => False) (emptySpace largePmm) := by
    apply layoutBoot_emptySpace
    intro j hj
    rw [test_largePmm, decide_eq_false_iff_not] at hj
    omega
  refine ⟨hboot.tree, hboot.fresh, fun q n j _ _ hpresent => ?_, ?_⟩
  · rw [show (emptySpace largePmm).machine.mem = emptyTables.mem from rfl, tableCell_emptyTables]
      at hpresent
    exact absurd rfl hpresent
  · show Supply (2 ^ 33 + 2 ^ 26 + 64) largePmm
    refine ⟨?_, ?_, ?_, ?_, Finset.Ico 2 (2 ^ 34), ?_, fun j hj => ?_⟩
    · unfold largePmm
      rw [length_mark, List.length_replicate]
    · unfold largePmm
      decide
    · unfold largePmm
      decide
    · unfold largePmm
      decide
    · rw [Nat.card_Ico]
      omega
    · rw [test_largePmm, decide_eq_false_iff_not]
      have := Finset.mem_Ico.mp hj
      omega

/-- **A region over a stack.**  One spawn and 32 calls `sys_mmap(1 << 40)`, on a machine with
`2 ^ 46` bytes of memory: every call succeeds, and the last region covers the stack slice. -/
theorem mmap_covers_stack :
    ∃ s r top, runEvents LayoutRun.exec ⟨emptySpace largePmm, [], []⟩
        (.spawn :: (List.replicate 31 (.mmap (2 ^ 40)) ++ [.mmap (2 ^ 40)])) = some s ∧
      r ∈ s.regions ∧ top ∈ s.tops ∧ ¬r.Disjoint (stackSlice top) := by
  have hcount : mmapCount (2 ^ 40) = 2 ^ 28 := by decide
  have hcost : pagesCost 0 (mmapCount (2 ^ 40)) = 2 ^ 28 + 3 * 2 ^ 19 := by decide
  have hsize : pageSize = 4096 := rfl
  have hbase : mmapBase = 0x6000_0000_0000 := rfl
  have hmax : userAddressMax = 2 ^ 47 := rfl
  generalize hlarge : 2 ^ 40 = size at hcount hcost ⊢
  obtain ⟨s₁, hspawn, hs₁, hnext₁, htops₁⟩ :=
    Stocked.mapUserStack (s := ⟨emptySpace largePmm, [], []⟩) stocked_large rfl (by decide)
  have hnext₁ : s₁.space.mmapNext = mmapBase := hnext₁
  obtain ⟨s₂, hmmaps, hs₂, hnext₂, htops₂⟩ :=
    (hs₁.mono (show pagesCost 0 (mmapCount size) + pagesCost 0 (mmapCount size) * 31 ≤
      2 ^ 33 + 2 ^ 26 by omega)).mmaps (by omega) (by omega) (by omega) (by omega) (by rw [hsize]; omega)
  rw [hsize] at hnext₂
  obtain ⟨s₃, hlast, -, -, htops₃, hregions⟩ :=
    (hs₂.mono (Nat.zero_add _).le).sysMmap
      (by omega) (by omega) (by omega) (by rw [hsize]; omega)
  refine ⟨s₃, ⟨s₂.space.mmapNext, mmapCount size * pageSize⟩, userStackTop, ?_, ?_, ?_, ?_⟩
  · rw [runEvents, hspawn, Option.bind_some, runEvents_append, hmmaps, Option.bind_some, runEvents,
      hlast, Option.bind_some, runEvents]
  · rw [hregions]
    exact List.mem_cons_self
  · rw [htops₃, htops₂, htops₁]
    exact List.mem_cons_self
  · have hspan : userStackSpan = 18 * 4096 := rfl
    have htop : userStackTop = 0x7FFF_0000_0000 := rfl
    unfold Region.Disjoint stackSlice
    dsimp only
    rw [hsize]
    omega

end Pinx.Analysis
