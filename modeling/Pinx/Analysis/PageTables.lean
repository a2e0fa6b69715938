import Pinx.Analysis.FrameAllocator
import Pinx.Foundation.RadixTree
import Pinx.Model.Vmm

/-!
# The page tables as a radix tree

Nodes are frame numbers, a node's cells are the 512 entries of the frame, and an
entry refers to a table when it is present and not huge.  `vmm_virt_to_phys` reads
the cell its walk ends in.  Each interior level of `vmm_map_page_flags` either sets
the user bit of an entry or attaches a fresh empty table, and the last write only
concerns one page.
-/

namespace Pinx.Analysis

open Pinx.Foundation Pinx.Foundation.WordBitmap Pinx.Foundation.RadixTree Pinx.Model

/-! ## Entries -/

/-- Page-aligned addresses have no low bits. -/
theorem and_low_eq_zero {x c : ℕ} (hx : x % 4096 = 0) (hc : c < 4096) : x &&& c = 0 := by
  have hle : x &&& c < 4096 := Nat.lt_of_le_of_lt Nat.and_le_right hc
  have hmod := Nat.and_mod_two_pow (a := x) (b := c) (n := 12)
  rw [Nat.mod_eq_of_lt hle, show x % 2 ^ 12 = 0 from hx, Nat.zero_and] at hmod
  exact hmod

theorem and_addrMask {x : ℕ} (hx : x % 4096 = 0) (hlt : x < 2 ^ 52) : x &&& pteAddrMask = x := by
  have hshift : x = (x / 4096) <<< 12 := by
    rw [Nat.shiftLeft_eq]
    omega
  have hmask : pteAddrMask = (2 ^ 40 - 1) <<< 12 := by decide
  rw [hshift, hmask, ← Nat.shiftLeft_and_distrib, Nat.and_two_pow_sub_one_eq_mod,
    Nat.mod_eq_of_lt (by omega)]

theorem addr_aligned (e : ℕ) : (e &&& pteAddrMask) % 4096 = 0 := by
  have hmod := Nat.and_mod_two_pow (a := e) (b := pteAddrMask) (n := 12)
  rwa [show pteAddrMask % 2 ^ 12 = 0 by decide, Nat.and_zero] at hmod

theorem addr_lt (e : ℕ) : e &&& pteAddrMask < 2 ^ 52 :=
  Nat.lt_of_le_of_lt Nat.and_le_right (by decide)

/-- Bits outside a mask do not show through it. -/
theorem or_and_mask {e u mask : ℕ} (h : u &&& mask = 0) : (e ||| u) &&& mask = e &&& mask := by
  rw [Nat.and_or_distrib_right, h, Nat.or_zero]

/-- The frame of the table an entry refers to. -/
def tableRef (e : ℕ) : Option ℕ :=
  if e &&& ptePresent ≠ 0 ∧ e &&& pteHuge = 0 then some ((e &&& pteAddrMask) / 4096) else none

/-- Entry `i` of the table in frame `n`. -/
@[irreducible] def tableCell (mem : Bytes) (n : ℕ) (i : Fin 512) : ℕ := entryAt mem (4096 * n) i

theorem entryAt_tableCell (mem : Bytes) (n : ℕ) (i : Fin 512) :
    entryAt mem (4096 * n) i = tableCell mem n i := by
  rw [tableCell]

theorem tableRef_or_user (e : ℕ) : tableRef (e ||| pteUser) = tableRef e := by
  unfold tableRef
  rw [or_and_mask (show pteUser &&& ptePresent = 0 by decide),
    or_and_mask (show pteUser &&& pteHuge = 0 by decide),
    or_and_mask (show pteUser &&& pteAddrMask = 0 by decide)]

theorem tableRef_some {e : ℕ} (hp : ¬e &&& ptePresent = 0) (hh : e &&& pteHuge = 0) :
    tableRef e = some ((e &&& pteAddrMask) / 4096) :=
  if_pos ⟨hp, hh⟩

theorem tableRef_addr {e n : ℕ} (h : tableRef e = some n) : e &&& pteAddrMask = 4096 * n := by
  unfold tableRef at h
  split at h
  · have haligned := addr_aligned e
    simp only [Option.some.injEq] at h
    omega
  · cases h

theorem tableRef_absent {e : ℕ} (hp : e &&& ptePresent = 0) : tableRef e = none :=
  if_neg fun h => h.1 hp

theorem tableRef_zero : tableRef 0 = none := rfl

/-- The flags an entry for a new table gets. -/
def tableFlags (flags : ℕ) : ℕ := ptePresent ||| pteWritable ||| (flags &&& pteUser)

theorem tableFlags_lt (flags : ℕ) : tableFlags flags < 8 := by
  have huser : flags &&& pteUser < 2 ^ 3 := Nat.lt_of_le_of_lt Nat.and_le_right (by decide)
  exact Nat.or_lt_two_pow (n := 3) (by decide) huser

theorem tableFlags_and (flags : ℕ) {c : ℕ} (h₁ : (ptePresent ||| pteWritable) &&& c = 0)
    (h₂ : pteUser &&& c = 0) : tableFlags flags &&& c = 0 := by
  rw [tableFlags, Nat.and_or_distrib_right, h₁, Nat.and_assoc, h₂, Nat.and_zero, Nat.or_zero]

/-- The entry `vmm_map_page_flags` writes for a new table in frame `j`. -/
theorem tableRef_new {j : ℕ} (hj : j < 2 ^ 40) (flags : ℕ) :
    tableRef (j * pageSize ||| tableFlags flags) = some j := by
  have hmod : j * pageSize % 4096 = 0 := by
    rw [show pageSize = 4096 from rfl]
    omega
  have hlt : j * pageSize < 2 ^ 52 := by
    rw [show pageSize = 4096 from rfl]
    omega
  have hpresent : (j * pageSize ||| tableFlags flags) &&& ptePresent ≠ 0 := by
    rw [Nat.and_or_distrib_right, and_low_eq_zero hmod (by decide), Nat.zero_or, tableFlags,
      Nat.and_or_distrib_right, Nat.and_assoc, show pteUser &&& ptePresent = 0 by decide,
      Nat.and_zero, Nat.or_zero]
    decide
  have hhuge : (j * pageSize ||| tableFlags flags) &&& pteHuge = 0 := by
    rw [Nat.and_or_distrib_right, and_low_eq_zero hmod (by decide), Nat.zero_or]
    exact tableFlags_and flags (by decide) (by decide)
  have haddr : (j * pageSize ||| tableFlags flags) &&& pteAddrMask = j * pageSize := by
    rw [or_and_mask (tableFlags_and flags (by decide) (by decide)), and_addrMask hmod hlt]
  rw [tableRef, if_pos ⟨hpresent, hhuge⟩, haddr, show pageSize = 4096 from rfl]
  simp

/-! ## Cells under writes -/

theorem tableCell_putLE (mem : Bytes) (t : ℕ) (i : Fin 512) (v n : ℕ) (j : Fin 512) :
    tableCell (mem.putLE (4096 * t + 8 * i) 8 v) n j =
      if n = t ∧ j = i then v % 2 ^ 64 else tableCell mem n j := by
  unfold tableCell entryAt
  split
  · rename_i h
    obtain ⟨rfl, rfl⟩ := h
    rw [Bytes.getLE_putLE]
    rfl
  · rename_i h
    have hi := i.isLt
    have hj := j.isLt
    apply Bytes.getLE_putLE_outside
    by_cases hn : n = t
    · have hne : (j : ℕ) ≠ i := fun heq => h ⟨hn, Fin.ext heq⟩
      omega
    · omega

theorem tableCell_zero (mem : Bytes) (f n : ℕ) (j : Fin 512) :
    tableCell (mem.blit (4096 * f) pageSize fun _ => 0) n j =
      if n = f then 0 else tableCell mem n j := by
  have hj := j.isLt
  unfold tableCell entryAt
  rw [show pageSize = 4096 from rfl]
  split
  · rename_i h
    subst h
    apply Bytes.getLE_eq_zero
    intro k hk
    exact Bytes.blit_inside (by omega) (by omega)
  · apply Bytes.getLE_blit_outside
    omega

theorem tableCell_of_zero {mem : Bytes} {n : ℕ} (h : ∀ b, mem b = 0) (j : Fin 512) :
    tableCell mem n j = 0 := by
  rw [tableCell]
  exact Bytes.getLE_eq_zero fun _ _ => h _

/-- The bytes of a frame determine its entries. -/
theorem tableCell_of_bytes {mem mem' : Bytes} {n : ℕ}
    (h : ∀ b, b / 4096 = n → mem' b = mem b) (j : Fin 512) :
    tableCell mem' n j = tableCell mem n j := by
  have hj := j.isLt
  rw [tableCell, tableCell]
  apply Bytes.getLE_congr
  intro k hk
  apply h
  omega

/-! ## Translation -/

def idx4 (va : ℕ) : Fin 512 := ⟨pml4Index va, Nat.mod_lt _ (by omega)⟩
def idx3 (va : ℕ) : Fin 512 := ⟨pdptIndex va, Nat.mod_lt _ (by omega)⟩
def idx2 (va : ℕ) : Fin 512 := ⟨pdIndex va, Nat.mod_lt _ (by omega)⟩
def idx1 (va : ℕ) : Fin 512 := ⟨ptIndex va, Nat.mod_lt _ (by omega)⟩

/-- The indices a walk takes through the interior levels. -/
def vaPath (va : ℕ) : List (Fin 512) := [idx4 va, idx3 va, idx2 va]

/-- Bits 12 to 47 of an address. -/
def pageOf (va : ℕ) : ℕ := va / 4096 % 2 ^ 36

/-- The path of an address is its page. -/
theorem vaPath_eq_iff (va va' : ℕ) :
    vaPath va ++ [idx1 va] = vaPath va' ++ [idx1 va'] ↔ pageOf va = pageOf va' := by
  simp only [vaPath, List.cons_append, List.nil_append, List.cons.injEq, Fin.ext_iff, idx4, idx3,
    idx2, idx1, pml4Index, pdptIndex, pdIndex, ptIndex, pageOf, and_true]
  omega

/-- What `vmm_virt_to_phys` makes of the cell its walk ends in. -/
def translate (va : ℕ) : ℕ × ℕ → ℕ
  | (0, e) => if e &&& ptePresent = 0 then vmmNoPhys else (e &&& pteAddrMask) ||| va % pageSize
  | (1, e) =>
    if e &&& ptePresent = 0 then vmmNoPhys
    else (e &&& pteAddrMask2M) ||| (va / pageSize * pageSize % 2 ^ 21) ||| va % pageSize
  | (2, e) =>
    if e &&& ptePresent = 0 then vmmNoPhys
    else (e &&& pteAddrMask1G) ||| (va / pageSize * pageSize % 2 ^ 30) ||| va % pageSize
  | _ => vmmNoPhys

theorem translate_absent (va k : ℕ) {e : ℕ} (he : e &&& ptePresent = 0) :
    translate va (k, e) = vmmNoPhys := by
  match k with
  | 0 => exact if_pos he
  | 1 => exact if_pos he
  | 2 => exact if_pos he
  | _ + 3 => rfl

/-- `vmm_virt_to_phys` follows its address through the tree. -/
theorem vmmVirtToPhys_eq {m : Machine} {root : ℕ} (hroot : m.pml4 = some (4096 * root)) (va : ℕ) :
    vmmVirtToPhys m va =
      translate va (walk tableRef (tableCell m.mem) root (vaPath va) (idx1 va)) := by
  have h4 : pml4Index (va / pageSize * pageSize) = idx4 va := by
    simp only [pml4Index, idx4, pageSize]
    omega
  have h3 : pdptIndex (va / pageSize * pageSize) = idx3 va := by
    simp only [pdptIndex, idx3, pageSize]
    omega
  have h2 : pdIndex (va / pageSize * pageSize) = idx2 va := by
    simp only [pdIndex, idx2, pageSize]
    omega
  have h1 : ptIndex (va / pageSize * pageSize) = idx1 va := by
    simp only [ptIndex, idx1, pageSize]
    omega
  have hnext : ∀ e (i : Fin 512), entryAt m.mem (e &&& pteAddrMask) i =
      tableCell m.mem ((e &&& pteAddrMask) / 4096) i := by
    intro e i
    have := addr_aligned e
    rw [tableCell, show 4096 * ((e &&& pteAddrMask) / 4096) = e &&& pteAddrMask by omega]
  unfold vmmVirtToPhys
  simp only [hroot, h4, h3, h2, h1, hnext, entryAt_tableCell, vaPath, walk]
  -- one split for each level: absent, huge, or on to the next table
  generalize tableCell m.mem root (idx4 va) = e4
  by_cases hp4 : e4 &&& ptePresent = 0
  · simp [tableRef, hp4, translate]
  by_cases hh4 : e4 &&& pteHuge = 0
  case neg => simp [tableRef, hp4, hh4, translate]
  simp only [tableRef_some hp4 hh4, hp4, hh4, ne_eq, not_true_eq_false, or_self, if_false]
  generalize tableCell m.mem _ (idx3 va) = e3
  by_cases hp3 : e3 &&& ptePresent = 0
  · simp [tableRef, hp3, translate]
  by_cases hh3 : e3 &&& pteHuge = 0
  case neg => simp [tableRef, hp3, hh3, translate]
  simp only [tableRef_some hp3 hh3, hp3, hh3, not_true_eq_false, if_false]
  generalize tableCell m.mem _ (idx2 va) = e2
  by_cases hp2 : e2 &&& ptePresent = 0
  · simp [tableRef, hp2, translate]
  by_cases hh2 : e2 &&& pteHuge = 0
  case neg => simp [tableRef, hp2, hh2, translate]
  simp only [tableRef_some hp2 hh2, hp2, hh2, not_true_eq_false, if_false, translate]

/-! ## One interior level -/

/-- Everything one interior level of `vmm_map_page_flags` can do to entry `i` of the
table in frame `t`; the next table is in frame `t'`. -/
inductive LevelStep (flags : ℕ) (m m' : Machine) (t : ℕ) (i : Fin 512) (t' : ℕ) : Prop
  | opened (href : tableRef (tableCell m.mem t i) = some t')
      (hpmm : m'.pmm = m.pmm) (hpml4 : m'.pml4 = m.pml4)
      (hcell : ∀ n j, tableCell m'.mem n j =
        if (n = t ∧ j = i) ∧ flags &&& pteUser ≠ 0 then tableCell m.mem n j ||| pteUser
        else tableCell m.mem n j)
      (hbyte : ∀ b, b / 4096 ≠ t → m'.mem b = m.mem b)
  | attached (habsent : tableCell m.mem t i &&& ptePresent = 0)
      (hfree : test m.pmm.words t' = false) (hmark : m'.pmm.words = mark m.pmm.words t')
      (hpml4 : m'.pml4 = m.pml4)
      (hcell : ∀ n j, tableCell m'.mem n j =
        if n = t' then 0
        else if n = t ∧ j = i then t' * pageSize ||| tableFlags flags
        else tableCell m.mem n j)
      (hbyte : ∀ b, b / 4096 ≠ t → b / 4096 ≠ t' → m'.mem b = m.mem b)

variable {m m' : Machine} {hugeText oomText : String} {flags t r : ℕ} {i : Fin 512}

theorem tableCell_lt (mem : Bytes) (n : ℕ) (i : Fin 512) : tableCell mem n i < 2 ^ 64 := by
  rw [tableCell]
  exact Bytes.getLE_lt mem _ 8

@[simp] theorem writeEntry_apply (m : Machine) (table index value : ℕ) :
    writeEntry table index value m =
      (.ok (), { m with mem := m.mem.putLE (table + 8 * index) 8 value }) := rfl

/-- Reading an entry and going on with it. -/
theorem readEntry_bind {α : Type} (table index : ℕ) (f : ℕ → Kernel α) (m : Machine) :
    (readEntry table index >>= f) m = f (entryAt m.mem table index) m := rfl

theorem allocPage_ok {page : ℕ} (h : allocPage m = (.ok page, m')) (hne : page ≠ pmmNoPage) :
    ∃ j, page = j * pageSize ∧ test m.pmm.words j = false ∧
      m'.pmm.words = mark m.pmm.words j ∧ m'.mem = m.mem ∧ m'.pml4 = m.pml4 := by
  unfold allocPage at h
  split at h
  · rename_i page' pmm' halloc
    simp only [Prod.mk.injEq, Except.ok.injEq] at h
    obtain ⟨rfl, rfl⟩ := h
    obtain ⟨hno, -⟩ | ⟨j, hpage, hfree, hmark⟩ := pmmAllocPage_ok halloc
    · exact absurd hno hne
    · exact ⟨j, hpage, hfree, hmark, rfl, rfl⟩
  · cases h

/-- Frames the allocator may hand out are physical frames, and none of them is in use
as `t`. -/
def FreeOf (m : Machine) (t : ℕ) : Prop :=
  ∀ j, test m.pmm.words j = false → j < 2 ^ 40 ∧ j ≠ t

/-- What a level that does not panic has done. -/
theorem ensureEntry_ok (hfresh : FreeOf m t)
    (h : ensureEntry hugeText oomText flags (4096 * t) i m = (.ok (), m')) :
    ∃ t', LevelStep flags m m' t i t' := by
  simp only [ensureEntry, readEntry_bind, entryAt_tableCell, Prog.ite_apply] at h
  split at h
  · rename_i hpresent
    split at h
    · cases h
    rename_i hhuge
    have href := tableRef_some hpresent (not_not.mp hhuge)
    split at h
    · rename_i huser
      simp only [writeEntry_apply, Prod.mk.injEq, true_and] at h
      subst h
      have hlt : tableCell m.mem t i ||| pteUser < 2 ^ 64 :=
        Nat.or_lt_two_pow (tableCell_lt _ _ _) (by decide)
      refine ⟨_, .opened href rfl rfl (fun n j => ?_) (fun b hb => ?_)⟩
      · simp only [tableCell_putLE]
        by_cases hnj : n = t ∧ j = i
        · rw [if_pos hnj, if_pos ⟨hnj, huser⟩, hnj.1, hnj.2, Nat.mod_eq_of_lt hlt]
        · rw [if_neg hnj, if_neg fun h => hnj h.1]
      · have hi := i.isLt
        apply Bytes.putLE_outside
        omega
    · rename_i huser
      simp only [Prog.pure_apply, Prod.mk.injEq, true_and] at h
      subst h
      refine ⟨_, .opened href rfl rfl (fun n j => ?_) (fun _ _ => rfl)⟩
      rw [if_neg fun h => huser h.2]
  · rename_i habsent
    obtain ⟨page, m₁, halloc, hwrite⟩ := Prog.bind_eq_ok.mp h
    rw [Prog.ite_apply] at hwrite
    split at hwrite
    · cases hwrite
    rename_i hne
    obtain ⟨j, rfl, hfree, hmark, hmem, hpml4⟩ := allocPage_ok halloc hne
    obtain ⟨hj, hjt⟩ := hfresh j hfree
    obtain ⟨_, m₂, hput, hzero⟩ := Prog.bind_eq_ok.mp hwrite
    simp only [writeEntry_apply, zeroFrame, Prog.modify_apply, Prod.mk.injEq, true_and] at hput hzero
    subst hput hzero
    have hpage : j * pageSize = 4096 * j := Nat.mul_comm j 4096
    have hlt : j * pageSize ||| tableFlags flags < 2 ^ 64 := by
      have := tableFlags_lt flags
      exact Nat.or_lt_two_pow (by omega) (by omega)
    refine ⟨j, .attached (not_not.mp habsent) hfree hmark hpml4 (fun n k => ?_)
      (fun b hb hbj => ?_)⟩
    · have hflags : ptePresent ||| pteWritable ||| flags &&& pteUser = tableFlags flags := rfl
      simp only [hpage, hflags, ← hmem] at hlt ⊢
      rw [tableCell_zero, tableCell_putLE, Nat.mod_eq_of_lt hlt]
    · have hi := i.isLt
      have hsize : pageSize = 4096 := rfl
      dsimp only
      rw [Bytes.blit_outside (by omega), Bytes.putLE_outside (by omega), hmem]

/-- A level that panics has written nothing. -/
theorem ensureEntry_error {e : Fault}
    (h : ensureEntry hugeText oomText flags (4096 * t) i m = (.error e, m')) :
    m'.mem = m.mem ∧ m'.pml4 = m.pml4 := by
  simp only [ensureEntry, readEntry_bind, Prog.ite_apply] at h
  split at h
  · split at h
    · cases h
      exact ⟨rfl, rfl⟩
    · split at h
      · simp [writeEntry_apply] at h
      · cases h
  · cases halloc : allocPage m with
    | mk res m₁ =>
      have hsame : m₁.mem = m.mem ∧ m₁.pml4 = m.pml4 := by
        unfold allocPage at halloc
        split at halloc <;>
        · simp only [Prod.mk.injEq] at halloc
          rw [← halloc.2]
          exact ⟨rfl, rfl⟩
      cases res with
      | error e' =>
        rw [Prog.bind_error halloc] at h
        cases h
        exact hsame
      | ok page =>
        rw [Prog.bind_ok halloc, Prog.ite_apply] at h
        split at h
        · cases h
          exact hsame
        · simp [Prog.bind_apply, zeroFrame] at h

/-- The entry a level leaves refers to the next table. -/
theorem LevelStep.tableRef_eq {t' : ℕ} (h : LevelStep flags m m' t i t') (hfresh : FreeOf m t) :
    tableRef (tableCell m'.mem t i) = some t' := by
  cases h with
  | opened href _ _ hcell _ =>
    rw [hcell]
    split
    · rw [tableRef_or_user, href]
    · exact href
  | attached habsent hfree _ _ hcell _ =>
    obtain ⟨hj, hjt⟩ := hfresh t' hfree
    rw [hcell, if_neg (Ne.symm hjt), if_pos ⟨rfl, rfl⟩, tableRef_new hj]

/-- SOURCE: mm.rs:299-316 -/
theorem ensureTable_ok (hfresh : FreeOf m t)
    (h : ensureTable hugeText oomText flags (4096 * t) i m = (.ok r, m')) :
    ∃ t', r = 4096 * t' ∧ LevelStep flags m m' t i t' := by
  unfold ensureTable at h
  obtain ⟨_, m₁, hentry, hread⟩ := Prog.bind_eq_ok.mp h
  simp only [readEntry_bind, entryAt_tableCell, Prog.pure_apply, Prod.mk.injEq,
    Except.ok.injEq] at hread
  obtain ⟨rfl, rfl⟩ := hread
  obtain ⟨t', hstep⟩ := ensureEntry_ok hfresh hentry
  exact ⟨t', tableRef_addr (hstep.tableRef_eq hfresh), hstep⟩

end Pinx.Analysis
