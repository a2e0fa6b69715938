import Pinx.Analysis.PageTables

/-!
# Mapping and unmapping one page

Seen through `vmm_virt_to_phys`, `vmm_map_page_flags` changes the translation of one
page and `vmm_unmap_page` removes one page.  The interior levels change no
translation (`Grows`): a new table is empty, and the entry it hangs from was not
present.  The leaf is a cell of the last level, which only one page's walk visits.
-/

namespace Pinx.Analysis

open Pinx.Foundation Pinx.Foundation.WordBitmap Pinx.Foundation.RadixTree Pinx.Model

/-- The frame of the table at the end of a path. -/
abbrev tableAt (m : Machine) (root : ℕ) (p : List (Fin 512)) : Option ℕ :=
  descend tableRef (tableCell m.mem) root p

theorem tableAt_concat (m : Machine) (root : ℕ) (p : List (Fin 512)) (i : Fin 512) :
    tableAt m root (p ++ [i]) =
      (tableAt m root p).bind fun n => tableRef (tableCell m.mem n i) :=
  descend_concat root p i

/-- The page tables below `PML4` are a tree: no table is referenced twice.  Entries of
the first three levels may be huge. -/
structure TableTree (m : Machine) (root : ℕ) : Prop where
  pml4 : m.pml4 = some (4096 * root)
  tree : IsTree tableRef (tableCell m.mem) 3 root

/-- The frames `pmm_alloc_page` may return are physical frames that are no part of the
page tables. -/
def FramesFresh (m : Machine) (root : ℕ) : Prop :=
  ∀ j, test m.pmm.words j = false → j < 2 ^ 40 ∧
    ∀ q : List (Fin 512), q.length ≤ 3 → tableAt m root q ≠ some j

theorem FramesFresh.freeOf {m : Machine} {root t : ℕ} {p : List (Fin 512)}
    (h : FramesFresh m root) (hp : p.length ≤ 3) (ht : tableAt m root p = some t) : FreeOf m t := by
  intro j hj
  refine ⟨(h j hj).1, ?_⟩
  rintro rfl
  exact (h j hj).2 p hp ht

/-- The tables may have grown, and no translation has changed. -/
structure Grows (root : ℕ) (m m' : Machine) : Prop where
  tree : TableTree m' root
  fresh : FramesFresh m' root
  mono : ∀ q n, q.length ≤ 3 → tableAt m root q = some n → tableAt m' root q = some n
  same : ∀ va, vmmVirtToPhys m' va = vmmVirtToPhys m va

variable {m m' m'' : Machine} {root t t' flags va : ℕ} {p : List (Fin 512)} {i : Fin 512}

theorem Grows.refl (htree : TableTree m root) (hfresh : FramesFresh m root) : Grows root m m :=
  ⟨htree, hfresh, fun _ _ _ hn => hn, fun _ => rfl⟩

theorem Grows.trans (h : Grows root m m') (h' : Grows root m' m'') : Grows root m m'' where
  tree := h'.tree
  fresh := h'.fresh
  mono q n hq hn := h'.mono q n hq (h.mono q n hq hn)
  same va := (h'.same va).trans (h.same va)

/-- A new table is attached as the library attaches a node. -/
theorem attach_of_cells (hfresh : FramesFresh m root) (hp : tableAt m root p = some t)
    (hlen : p.length < 3) (habsent : tableCell m.mem t i &&& ptePresent = 0)
    (hfree : test m.pmm.words t' = false)
    (hcell : ∀ n j, tableCell m'.mem n j =
      if n = t' then 0
      else if n = t ∧ j = i then t' * pageSize ||| tableFlags flags
      else tableCell m.mem n j) :
    Attach tableRef (tableCell m.mem) (tableCell m'.mem) root 3 p t i t' where
  at_path := hp
  depth := hlen
  was_none := tableRef_absent habsent
  now_new := by
    obtain ⟨hj, hjt⟩ := hfresh.freeOf (Nat.le_of_lt hlen) hp t' hfree
    rw [hcell, if_neg (Ne.symm hjt), if_pos ⟨rfl, rfl⟩, tableRef_new hj]
  fresh := (hfresh t' hfree).2
  empty j := by rw [hcell, if_pos rfl, tableRef_zero]
  frame n j hnew hside := by
    rw [hcell, if_neg hnew, if_neg]
    rintro ⟨hn, hj⟩
    exact hside.elim (fun h => h hn) (fun h => h hj)

/-- Setting a user bit moves no table. -/
theorem tableRef_opened (hcell : ∀ n j, tableCell m'.mem n j =
      if (n = t ∧ j = i) ∧ flags &&& pteUser ≠ 0 then tableCell m.mem n j ||| pteUser
      else tableCell m.mem n j) (n : ℕ) (j : Fin 512) :
    tableRef (tableCell m'.mem n j) = tableRef (tableCell m.mem n j) := by
  rw [hcell]
  split
  · exact tableRef_or_user _
  · rfl

/-- Setting the user bit of an interior entry changes no full walk. -/
theorem walk_opened (htree : TableTree m root) (hp : tableAt m root p = some t)
    (hlen : p.length < 3) (href : tableRef (tableCell m.mem t i) = some t')
    (hcell : ∀ n j, tableCell m'.mem n j =
      if (n = t ∧ j = i) ∧ flags &&& pteUser ≠ 0 then tableCell m.mem n j ||| pteUser
      else tableCell m.mem n j) {q : List (Fin 512)} (hq : q.length = 3) (k : Fin 512) :
    walk tableRef (tableCell m'.mem) root q k = walk tableRef (tableCell m.mem) root q k := by
  apply walk_of_child (tableRef_opened hcell)
  · intro n j hnone
    rw [hcell, if_neg]
    rintro ⟨⟨rfl, rfl⟩, -⟩
    rw [href] at hnone
    cases hnone
  · -- the table at the end of a full path is not one of the interior ones
    intro n hn
    rw [hcell, if_neg]
    rintro ⟨⟨rfl, -⟩, -⟩
    have hqp := htree.tree q p n hq.le (Nat.le_of_lt hlen) hn hp
    rw [← hqp] at hlen
    omega

/-- A walk that meets the new table ended in the absent entry it hangs from, and ends in
an empty entry now: it translates nothing either way. -/
theorem translate_attached (htree : TableTree m root)
    (ha : Attach tableRef (tableCell m.mem) (tableCell m'.mem) root 3 p t i t')
    (habsent : tableCell m.mem t i &&& ptePresent = 0)
    (hempty : ∀ j, tableCell m'.mem t' j = 0) {q : List (Fin 512)} (hq : q.length = 3)
    (k : Fin 512) (va : ℕ) :
    translate va (walk tableRef (tableCell m'.mem) root q k) =
      translate va (walk tableRef (tableCell m.mem) root q k) := by
  by_cases hthrough : p ++ [i] <+: q ++ [k]
  · have hle : (p ++ [i]).length ≤ q.length := by
      have := ha.depth
      rw [List.length_append, List.length_singleton]
      omega
    obtain ⟨r, rfl⟩ := List.prefix_of_prefix_length_le hthrough (List.prefix_append q [k]) hle
    rw [List.append_assoc, List.singleton_append]
    obtain ⟨hold, hnew⟩ := ha.walk_through htree.tree r k
    rw [hold, hnew, hempty, translate_absent va _ habsent, translate_absent va _ rfl]
  · rw [ha.walk_frame htree.tree hq.le hthrough]

theorem length_vaPath (va : ℕ) : (vaPath va).length = 3 := rfl

/-- One interior level only grows the tables. -/
theorem LevelStep.grows (htree : TableTree m root) (hfresh : FramesFresh m root)
    (hp : tableAt m root p = some t) (hlen : p.length < 3) (h : LevelStep flags m m' t i t') :
    Grows root m m' ∧ tableAt m' root (p ++ [i]) = some t' := by
  cases h with
  | opened href hpmm hpml4 hcell hbyte =>
    have hdesc : ∀ q, tableAt m' root q = tableAt m root q :=
      descend_congr (tableRef_opened hcell) root
    refine ⟨⟨⟨hpml4.trans htree.pml4, htree.tree.of_descend fun q _ => hdesc q⟩, ?_, ?_, ?_⟩, ?_⟩
    · intro j hj
      rw [hpmm] at hj
      refine ⟨(hfresh j hj).1, fun q hq => ?_⟩
      rw [hdesc q]
      exact (hfresh j hj).2 q hq
    · exact fun q n _ hn => (hdesc q).trans hn
    · intro va
      rw [vmmVirtToPhys_eq htree.pml4, vmmVirtToPhys_eq (hpml4.trans htree.pml4),
        walk_opened htree hp hlen href hcell (length_vaPath va)]
    · rw [hdesc, tableAt_concat, hp, Option.bind_some, href]
  | attached habsent hfree hmark hpml4 hcell hbyte =>
    have ha := attach_of_cells hfresh hp hlen habsent hfree hcell
    have hdesc : ∀ q : List (Fin 512), q.length ≤ 3 →
        tableAt m' root q = if q = p ++ [i] then some t' else tableAt m root q :=
      fun q hq => ha.descend_eq htree.tree q hq
    have hword : t' / 64 < m.pmm.words.length := by
      by_contra hge
      rw [test_of_length_le (by omega) (Nat.le_of_not_lt hge)] at hfree
      cases hfree
    refine ⟨⟨⟨hpml4.trans htree.pml4, ha.isTree htree.tree⟩, ?_, ?_, ?_⟩, ?_⟩
    · intro j hj
      rw [hmark, test_mark (by omega) hword, Bool.or_eq_false_iff, decide_eq_false_iff_not] at hj
      obtain ⟨hj, hne⟩ := hj
      refine ⟨(hfresh j hj).1, fun q hq => ?_⟩
      rw [hdesc q hq]
      split
      · exact fun heq => hne (Option.some.inj heq).symm
      · exact (hfresh j hj).2 q hq
    · intro q n hq hn
      rw [hdesc q hq, if_neg]
      · exact hn
      · rintro rfl
        rw [tableAt_concat, hp, Option.bind_some, tableRef_absent habsent] at hn
        cases hn
    · intro va
      rw [vmmVirtToPhys_eq htree.pml4, vmmVirtToPhys_eq (hpml4.trans htree.pml4),
        translate_attached htree ha habsent _ (length_vaPath va)]
      intro j
      rw [hcell, if_pos rfl]
    · rw [hdesc _ (by rw [List.length_append]; exact hlen), if_pos rfl]

/-- Tables behind a level: those there were before, and the new one, which was free and
is empty. -/
theorem LevelStep.tableAt_cases (htree : TableTree m root) (hfresh : FramesFresh m root)
    (hp : tableAt m root p = some t) (hlen : p.length < 3) (h : LevelStep flags m m' t i t')
    {q : List (Fin 512)} {n : ℕ} (hq : q.length ≤ 3) (hn : tableAt m' root q = some n) :
    tableAt m root q = some n ∨
      test m.pmm.words n = false ∧ ∀ j, tableCell m'.mem n j = 0 := by
  cases h with
  | opened _ _ _ hcell _ =>
    left
    rwa [tableAt, descend_congr (tableRef_opened hcell)] at hn
  | attached habsent hfree _ _ hcell _ =>
    have ha := attach_of_cells hfresh hp hlen habsent hfree hcell
    rw [tableAt, ha.descend_eq htree.tree q hq] at hn
    split at hn
    · obtain rfl := Option.some.inj hn
      exact Or.inr ⟨hfree, fun j => by rw [hcell, if_pos rfl]⟩
    · exact Or.inl hn

/-- The interior levels one after another: what each of them adds for one more entry of the path
holds for the whole path, which leads to the page table. -/
theorem ensurePath_rule {P : List (Fin 512) → Machine → Prop} {pt : ℕ} (htree : TableTree m root)
    (hfresh : FramesFresh m root) (h : ensurePath flags (4096 * root) va m = (.ok pt, m'))
    (hstart : P [] m)
    (hlevel : ∀ (p : List (Fin 512)) t (i : Fin 512) t' m₁ m₂, p ++ [i] <+: vaPath va →
      p.length < 3 → TableTree m₁ root → FramesFresh m₁ root → tableAt m₁ root p = some t →
      LevelStep flags m₁ m₂ t i t' → P p m₁ → P (p ++ [i]) m₂) :
    ∃ n, pt = 4096 * n ∧ tableAt m' root (vaPath va) = some n ∧ P (vaPath va) m' := by
  unfold ensurePath at h
  obtain ⟨pdpt, m₁, h₄, h⟩ := Prog.bind_eq_ok.mp h
  obtain ⟨pd, m₂, h₃, h₂⟩ := Prog.bind_eq_ok.mp h
  have hat₀ : tableAt m root [] = some root := rfl
  obtain ⟨t₁, rfl, hstep₁⟩ := ensureTable_ok (i := idx4 va) (hfresh.freeOf (by simp) hat₀) h₄
  obtain ⟨hg₁, hat₁⟩ := hstep₁.grows htree hfresh hat₀ (by simp)
  have hP₁ := hlevel _ _ _ _ _ _ ⟨[idx3 va, idx2 va], rfl⟩ (by simp) htree hfresh hat₀ hstep₁ hstart
  obtain ⟨t₂, rfl, hstep₂⟩ := ensureTable_ok (i := idx3 va) (hg₁.fresh.freeOf (by simp) hat₁) h₃
  obtain ⟨hg₂, hat₂⟩ := hstep₂.grows hg₁.tree hg₁.fresh hat₁ (by simp)
  have hP₂ := hlevel _ _ _ _ _ _ ⟨[idx2 va], rfl⟩ (by simp) hg₁.tree hg₁.fresh hat₁ hstep₂ hP₁
  obtain ⟨t₃, rfl, hstep₃⟩ := ensureTable_ok (i := idx2 va) (hg₂.fresh.freeOf (by simp) hat₂) h₂
  obtain ⟨hg₃, hat₃⟩ := hstep₃.grows hg₂.tree hg₂.fresh hat₂ (by simp)
  exact ⟨t₃, rfl, hat₃, hlevel _ _ _ _ _ _ ⟨[], rfl⟩ (by simp) hg₂.tree hg₂.fresh hat₂ hstep₃ hP₂⟩

/-- The interior levels lead to the page table of the address and only grow the tables. -/
theorem ensurePath_ok (htree : TableTree m root) (hfresh : FramesFresh m root) {pt : ℕ}
    (h : ensurePath flags (4096 * root) va m = (.ok pt, m')) :
    ∃ n, pt = 4096 * n ∧ Grows root m m' ∧ tableAt m' root (vaPath va) = some n := by
  obtain ⟨n, hpt, hat, hgrows⟩ := ensurePath_rule (P := fun _ m₁ => Grows root m m₁) htree hfresh h
    (Grows.refl htree hfresh) fun p t i t' m₁ m₂ _ hlen htree₁ hfresh₁ hat hstep hgrows =>
      hgrows.trans (hstep.grows htree₁ hfresh₁ hat hlen).1
  exact ⟨n, hpt, hgrows, hat⟩

/-! ## The leaf -/

theorem pageOf_of_walk {va va' : ℕ} (h : vaPath va ++ [idx1 va] <+: vaPath va' ++ [idx1 va']) :
    pageOf va = pageOf va' :=
  (vaPath_eq_iff va va').mp (List.IsPrefix.eq_of_length h rfl)

/-- The machine after the leaf entry of `va`, in the page table in frame `n`, was
written. -/
def withLeaf (m : Machine) (n va v : ℕ) : Machine :=
  { m with mem := m.mem.putLE (4096 * n + 8 * idx1 va) 8 v }

/-- Writing a leaf moves no table. -/
theorem tableAt_withLeaf {n v : ℕ} (htree : TableTree m root)
    (hat : tableAt m root (vaPath va) = some n) (q : List (Fin 512)) (hq : q.length ≤ 3) :
    tableAt (withLeaf m n va v) root q = tableAt m root q := by
  apply htree.tree.descend_last hat (length_vaPath va) _ q hq
  intro t j hne
  rw [withLeaf, tableCell_putLE, if_neg fun h => hne h.1]

/-- Writing a leaf keeps the tree and is felt by one page. -/
theorem withLeaf_spec {n v : ℕ} (htree : TableTree m root)
    (hat : tableAt m root (vaPath va) = some n) (hv : v < 2 ^ 64) :
    TableTree (withLeaf m n va v) root ∧
      (∀ va', pageOf va' = pageOf va →
        vmmVirtToPhys (withLeaf m n va v) va' = translate va' (0, v)) ∧
      ∀ va', pageOf va' ≠ pageOf va →
        vmmVirtToPhys (withLeaf m n va v) va' = vmmVirtToPhys m va' := by
  have hat' : tableAt (withLeaf m n va v) root (vaPath va) = some n := by
    rw [tableAt_withLeaf htree hat _ (length_vaPath va).le, hat]
  refine ⟨⟨htree.pml4, htree.tree.of_descend fun q hq => tableAt_withLeaf htree hat q hq⟩,
    fun va' hpage => ?_, fun va' hpage => ?_⟩
  · have hpath := (vaPath_eq_iff va' va).mpr hpage
    obtain ⟨hinterior, hleaf⟩ := List.append_inj' hpath rfl
    have hcell : tableCell (withLeaf m n va v).mem n (idx1 va) = v := by
      rw [withLeaf, tableCell_putLE, if_pos ⟨rfl, rfl⟩, Nat.mod_eq_of_lt hv]
    have hroot : (withLeaf m n va v).pml4 = some (4096 * root) := htree.pml4
    rw [vmmVirtToPhys_eq hroot, hinterior, List.singleton_inj.mp hleaf, walk_of_descend hat', hcell]
  · have hroot : (withLeaf m n va v).pml4 = some (4096 * root) := htree.pml4
    rw [vmmVirtToPhys_eq hroot, vmmVirtToPhys_eq htree.pml4,
      htree.tree.walk_frame (i := idx1 va) hat (length_vaPath va).le _ (length_vaPath va').le]
    · exact fun hprefix => hpage (pageOf_of_walk hprefix).symm
    · intro t j hside
      rw [withLeaf, tableCell_putLE, if_neg]
      rintro ⟨ht, hj⟩
      exact hside.elim (fun h => h ht) (fun h => h hj)

/-! ## vmm_map_page_flags -/

/-- A call that returns grew the tables and wrote one leaf. -/
theorem vmmMapPageFlags_ok {pa : ℕ} (htree : TableTree m root) (hfresh : FramesFresh m root)
    (h : vmmMapPageFlags va pa flags m = (.ok (), m')) :
    va % 4096 = 0 ∧ pa % 4096 = 0 ∧ ∃ m₁ n, Grows root m m₁ ∧
      ensurePath flags (4096 * root) va m = (.ok (4096 * n), m₁) ∧
      tableAt m₁ root (vaPath va) = some n ∧
      m' = withLeaf m₁ n va ((pa &&& pteAddrMask) ||| ptePresent ||| flags) := by
  unfold vmmMapPageFlags at h
  obtain ⟨pml4, m₀, hread, h⟩ := Prog.bind_eq_ok.mp h
  rw [Prog.read_apply, Prod.mk.injEq, Except.ok.injEq] at hread
  obtain ⟨rfl, rfl⟩ := hread
  rw [htree.pml4] at h
  simp only [Prog.ite_apply] at h
  split at h
  · cases h
  · rename_i haligned
    simp only [not_or, ne_eq, not_not] at haligned
    obtain ⟨pt, m₁, hpath, hwrite⟩ := Prog.bind_eq_ok.mp h
    obtain ⟨n, rfl, hgrows, hat⟩ := ensurePath_ok htree hfresh hpath
    rw [writeEntry_apply, Prod.mk.injEq] at hwrite
    exact ⟨haligned.1, haligned.2, m₁, n, hgrows, hpath, hat, hwrite.2.symm⟩

/-- The leaf `vmm_map_page_flags` writes translates the page to `pa`. -/
theorem translate_leaf {pa : ℕ} (hpa : pa < 2 ^ 52) (haligned : pa % 4096 = 0)
    (hflags : flags &&& pteAddrMask = 0) (va : ℕ) :
    translate va (0, (pa &&& pteAddrMask) ||| ptePresent ||| flags) = pa + va % 4096 := by
  have hpresent : ((pa &&& pteAddrMask) ||| ptePresent ||| flags) &&& ptePresent ≠ 0 := by
    intro hzero
    have hbit := congrArg (fun x => Nat.testBit x 0) hzero
    simp [ptePresent] at hbit
  have haddr : ((pa &&& pteAddrMask) ||| ptePresent ||| flags) &&& pteAddrMask = pa := by
    rw [or_and_mask hflags, or_and_mask (by decide), and_addrMask haligned hpa,
      and_addrMask haligned hpa]
  have hadd := Nat.two_pow_add_eq_or_of_lt (i := 12) (Nat.mod_lt va (by omega)) (pa / 4096)
  rw [show 2 ^ 12 * (pa / 4096) = pa by omega] at hadd
  rw [translate, if_neg hpresent, haddr, show pageSize = 2 ^ 12 from rfl, ← hadd]

/-! ## vmm_unmap_page -/

theorem findTable_ok {res : Option ℕ} {text : String}
    (h : findTable text (4096 * t) i m = (.ok res, m')) :
    m' = m ∧ ((res = none ∧ tableCell m.mem t i &&& ptePresent = 0) ∨
      ∃ t', res = some (4096 * t') ∧ tableRef (tableCell m.mem t i) = some t') := by
  simp only [findTable, readEntry_bind, entryAt_tableCell, Prog.ite_apply] at h
  split at h
  · rename_i habsent
    rw [Prog.pure_apply, Prod.mk.injEq, Except.ok.injEq] at h
    exact ⟨h.2.symm, Or.inl ⟨h.1.symm, habsent⟩⟩
  · rename_i hpresent
    split at h
    · cases h
    · rename_i hhuge
      rw [Prog.pure_apply, Prod.mk.injEq, Except.ok.injEq] at h
      have href := tableRef_some hpresent (not_not.mp hhuge)
      refine ⟨h.2.symm, Or.inr ⟨_, ?_, href⟩⟩
      exact h.1.symm.trans (congrArg some (tableRef_addr href))

/-- The walk of the address meets an entry that is not present. -/
def MeetsAbsent (m : Machine) (root va : ℕ) : Prop :=
  ∃ p t i r, vaPath va ++ [idx1 va] = p ++ i :: r ∧ tableAt m root p = some t ∧
    tableCell m.mem t i &&& ptePresent = 0

theorem meetsAbsent {r : List (Fin 512)} (hp : tableAt m root p = some t)
    (hpath : vaPath va ++ [idx1 va] = p ++ i :: r)
    (habsent : tableCell m.mem t i &&& ptePresent = 0) : MeetsAbsent m root va :=
  ⟨p, t, i, r, hpath, hp, habsent⟩

/-- Such an address is not mapped. -/
theorem MeetsAbsent.virtToPhys (htree : TableTree m root) (h : MeetsAbsent m root va) (va' : ℕ)
    (hpage : pageOf va' = pageOf va) : vmmVirtToPhys m va' = vmmNoPhys := by
  obtain ⟨p, t, i, r, hpath, hp, habsent⟩ := h
  have hpath' := (vaPath_eq_iff va' va).mpr hpage
  obtain ⟨hinterior, hleaf⟩ := List.append_inj' hpath' rfl
  rw [vmmVirtToPhys_eq htree.pml4, hinterior, List.singleton_inj.mp hleaf]
  rcases List.eq_nil_or_concat r with rfl | ⟨r', k, rfl⟩
  · obtain ⟨rfl, hi⟩ := List.append_inj' hpath rfl
    rw [walk_of_descend hp, List.singleton_inj.mp hi]
    exact translate_absent va' _ habsent
  · rw [List.concat_eq_append, ← List.cons_append, ← List.append_assoc] at hpath
    obtain ⟨hq, hk⟩ := List.append_inj' hpath rfl
    rw [hq, walk_append hp]
    simp only [walk, tableRef_absent habsent]
    exact translate_absent va' _ habsent

/-- A call that returns found the page unmapped, or cleared its leaf. -/
theorem vmmUnmapPage_ok (htree : TableTree m root) (h : vmmUnmapPage va m = (.ok (), m')) :
    (m' = m ∧ MeetsAbsent m root va) ∨
      ∃ n, tableAt m root (vaPath va) = some n ∧ m' = withLeaf m n va 0 := by
  unfold vmmUnmapPage at h
  obtain ⟨pml4, m₀, hread, h⟩ := Prog.bind_eq_ok.mp h
  rw [Prog.read_apply, Prod.mk.injEq, Except.ok.injEq] at hread
  obtain ⟨rfl, rfl⟩ := hread
  rw [htree.pml4] at h
  have hat₀ : tableAt m root [] = some root := rfl
  -- one level after the other: an absent entry ends the call
  obtain ⟨res, m₀, hfind, h⟩ := Prog.bind_eq_ok.mp h
  obtain ⟨rfl, ⟨rfl, habsent⟩ | ⟨t₁, rfl, href₁⟩⟩ := findTable_ok (i := idx4 va) hfind
  · cases h
    exact Or.inl ⟨rfl, meetsAbsent hat₀ rfl habsent⟩
  have hat₁ : tableAt m₀ root [idx4 va] = some t₁ := (tableAt_concat m₀ root [] _).trans href₁
  obtain ⟨res, m₁, hfind, h⟩ := Prog.bind_eq_ok.mp h
  obtain ⟨rfl, ⟨rfl, habsent⟩ | ⟨t₂, rfl, href₂⟩⟩ := findTable_ok (i := idx3 va) hfind
  · cases h
    exact Or.inl ⟨rfl, meetsAbsent hat₁ rfl habsent⟩
  have hat₂ : tableAt m₁ root [idx4 va, idx3 va] = some t₂ := by
    rw [show [idx4 va, idx3 va] = [idx4 va] ++ [idx3 va] from rfl, tableAt_concat, hat₁]
    exact href₂
  obtain ⟨res, m₂, hfind, h⟩ := Prog.bind_eq_ok.mp h
  obtain ⟨rfl, ⟨rfl, habsent⟩ | ⟨t₃, rfl, href₃⟩⟩ := findTable_ok (i := idx2 va) hfind
  · cases h
    exact Or.inl ⟨rfl, meetsAbsent hat₂ rfl habsent⟩
  have hat₃ : tableAt m₂ root (vaPath va) = some t₃ := by
    rw [show vaPath va = [idx4 va, idx3 va] ++ [idx2 va] from rfl, tableAt_concat, hat₂]
    exact href₃
  have hleaf : entryAt m₂.mem (4096 * t₃) (ptIndex va) = tableCell m₂.mem t₃ (idx1 va) := by
    rw [← entryAt_tableCell]
    rfl
  simp only [readEntry_bind, hleaf, Prog.ite_apply] at h
  split at h
  · rename_i habsent
    cases h
    exact Or.inl ⟨rfl, meetsAbsent hat₃ rfl habsent⟩
  · rw [writeEntry_apply, Prod.mk.injEq] at h
    exact Or.inr ⟨t₃, hat₃, h.2.symm⟩

/-! ## The refinement -/

/-- **Mapping and unmapping, seen through `vmm_virt_to_phys`.**  On a tree of tables,
a call of `vmm_map_page_flags` that returns yields a tree in which the page goes to
its frame and every other page translates as before; a call of `vmm_unmap_page` that
returns yields a tree in which the page is not mapped and every other page
translates as before. -/
theorem map_and_unmap_change_one_page (htree : TableTree m root) (hfresh : FramesFresh m root) :
    (∀ va pa flags m', pa < 2 ^ 52 → flags < 2 ^ 64 → flags &&& pteAddrMask = 0 →
      vmmMapPageFlags va pa flags m = (.ok (), m') →
      TableTree m' root ∧ (∀ o < 4096, vmmVirtToPhys m' (va + o) = pa + o) ∧
        ∀ va', pageOf va' ≠ pageOf va → vmmVirtToPhys m' va' = vmmVirtToPhys m va') ∧
    (∀ va m', vmmUnmapPage va m = (.ok (), m') →
      TableTree m' root ∧ (∀ va', pageOf va' = pageOf va → vmmVirtToPhys m' va' = vmmNoPhys) ∧
        ∀ va', pageOf va' ≠ pageOf va → vmmVirtToPhys m' va' = vmmVirtToPhys m va') := by
  constructor
  · intro va pa flags m' hpa hflags hmask hrun
    obtain ⟨hva, haligned, m₁, n, hgrows, -, hat, rfl⟩ := vmmMapPageFlags_ok htree hfresh hrun
    have hlt : (pa &&& pteAddrMask) ||| ptePresent ||| flags < 2 ^ 64 := by
      have haddr := addr_lt pa
      exact Nat.or_lt_two_pow (Nat.or_lt_two_pow (by omega) (by decide)) hflags
    obtain ⟨htree', hpage, hother⟩ := withLeaf_spec hgrows.tree hat hlt
    refine ⟨htree', fun o ho => ?_, fun va' hne => (hother va' hne).trans (hgrows.same va')⟩
    rw [hpage (va + o) (by unfold pageOf; omega), translate_leaf hpa haligned hmask]
    omega
  · intro va m' hrun
    obtain ⟨rfl, hnone⟩ | ⟨n, hat, rfl⟩ := vmmUnmapPage_ok htree hrun
    · exact ⟨htree, hnone.virtToPhys htree, fun _ _ => rfl⟩
    · obtain ⟨htree', hpage, hother⟩ := withLeaf_spec htree hat (by omega : (0 : ℕ) < 2 ^ 64)
      exact ⟨htree', fun va' heq => (hpage va' heq).trans (translate_absent va' 0 rfl), hother⟩

/-- Empty tables in frame 1, and three free frames. -/
def emptyTables : Machine where
  mem _ := 0
  pmm := ⟨0, 1, [0xFFFFFFFFFFFFFF8F#64], 0⟩
  pml4 := some 4096

theorem tableCell_emptyTables (n : ℕ) (i : Fin 512) : tableCell emptyTables.mem n i = 0 :=
  tableCell_of_zero (fun _ => rfl) i

theorem tableAt_emptyTables (p : List (Fin 512)) :
    tableAt emptyTables 1 p = if p = [] then some 1 else none := by
  cases p with
  | nil => rfl
  | cons i p => simp [tableAt, descend, tableCell_emptyTables, tableRef_zero]

theorem emptyTables_tree : TableTree emptyTables 1 where
  pml4 := rfl
  tree p q n _ _ hp hq := by
    have hp' := (tableAt_emptyTables p).symm.trans hp
    have hq' := (tableAt_emptyTables q).symm.trans hq
    split at hp' <;> split at hq' <;> simp_all

theorem emptyTables_fresh : FramesFresh emptyTables 1 := by
  intro j hj
  have hlt : j < 64 := by
    by_contra hge
    rw [test_of_length_le (by omega) (by simp [emptyTables]; omega)] at hj
    cases hj
  refine ⟨by omega, fun q _ hq => ?_⟩
  rw [tableAt_emptyTables] at hq
  split at hq
  · obtain rfl := Option.some.inj hq
    revert hj
    decide
  · cases hq

/-- Mapping a user page in the empty tables. -/
theorem map_changes_one_page_in_empty_tables :
    ∃ m', vmmMapPageFlags 0x400000 0x200000 7 emptyTables = (.ok (), m') ∧
      vmmVirtToPhys m' 0x400008 = 0x200008 ∧
      vmmVirtToPhys m' 0x600000 = vmmVirtToPhys emptyTables 0x600000 := by
  have hrun : (vmmMapPageFlags 0x400000 0x200000 7 emptyTables).1.toBool = true := by
    decide +kernel
  cases hcall : vmmMapPageFlags 0x400000 0x200000 7 emptyTables with
  | mk res m' =>
    cases res with
    | error e =>
      rw [hcall] at hrun
      cases hrun
    | ok u =>
      obtain ⟨-, hpage, hother⟩ :=
        (map_and_unmap_change_one_page emptyTables_tree emptyTables_fresh).1 0x400000 0x200000 7 m'
          (by omega) (by omega) (by decide) hcall
      refine ⟨m', rfl, ?_, ?_⟩
      · exact hpage 8 (by omega)
      · apply hother
        decide

end Pinx.Analysis
