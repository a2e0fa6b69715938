import Pinx.Analysis.HalvesApart
import Pinx.Analysis.RingThree
import Pinx.Model.UserMemory

/-!
# Checking user pointers

`user_range_valid` walks the tables without looking at the user bit.  That is enough
because every present entry below the lower half of `PML4` carries the bit
(`LowerOpen`): the tables of the lower half are reached by no other path, and only
the user variants add to them.

The tables have to be a tree.  Through a `PML4` entry that refers to `PML4` itself, a
kernel mapping of the upper half writes an entry of the lower half
(`recursive_entry_hides_page`).
-/

namespace Pinx.Analysis

open Pinx.Foundation Pinx.Foundation.WordBitmap Pinx.Foundation.RadixTree Pinx.Model

/-- Every entry on the walk of the address, down to its page or huge page, is present. -/
def mapped (m : Machine) (va : ℕ) : Bool :=
  match m.pml4 with
  | none => false
  | some pml4 =>
    let e4 := entryAt m.mem pml4 (pml4Index va)
    e4 &&& ptePresent != 0 && e4 &&& pteHuge == 0 &&
    let e3 := entryAt m.mem (e4 &&& pteAddrMask) (pdptIndex va)
    e3 &&& ptePresent != 0 && (e3 &&& pteHuge != 0 ||
      let e2 := entryAt m.mem (e3 &&& pteAddrMask) (pdIndex va)
      e2 &&& ptePresent != 0 && (e2 &&& pteHuge != 0 ||
        entryAt m.mem (e2 &&& pteAddrMask) (ptIndex va) &&& ptePresent != 0))

variable {m m' : Machine} {root t t' flags va : ℕ} {p : List (Fin 512)} {i : Fin 512}

/-! ## What the page loop finds -/

theorem index_page (va : ℕ) :
    pml4Index (va / pageSize * pageSize) = pml4Index va ∧
      pdptIndex (va / pageSize * pageSize) = pdptIndex va ∧
      pdIndex (va / pageSize * pageSize) = pdIndex va ∧
      ptIndex (va / pageSize * pageSize) = ptIndex va := by
  simp only [pml4Index, pdptIndex, pdIndex, ptIndex, pageSize]
  omega

/-- An address is mapped when its page is. -/
theorem mapped_page (m : Machine) (va : ℕ) :
    mapped m (va / pageSize * pageSize) = mapped m va := by
  obtain ⟨h4, h3, h2, h1⟩ := index_page va
  simp only [mapped, h4, h3, h2, h1]

/-- No translation is the value that says there is none. -/
theorem or_ne_vmmNoPhys {a b : ℕ} (ha : a < 2 ^ 52) (hb : b < 2 ^ 52) : a ||| b ≠ vmmNoPhys :=
  vmmNoPhys_ne (Nat.or_lt_two_pow ha hb)

/-- `vmm_virt_to_phys` finds a translation exactly for the mapped addresses. -/
theorem virtToPhys_ne_iff (m : Machine) (va : ℕ) :
    vmmVirtToPhys m va ≠ vmmNoPhys ↔ mapped m va = true := by
  have hoff : va % pageSize < 2 ^ 52 := by
    simp only [pageSize]
    omega
  have h1G : ∀ e, e &&& pteAddrMask1G < 2 ^ 52 := fun e =>
    Nat.lt_of_le_of_lt Nat.and_le_right (by decide)
  have h2M : ∀ e, e &&& pteAddrMask2M < 2 ^ 52 := fun e =>
    Nat.lt_of_le_of_lt Nat.and_le_right (by decide)
  have hmod : ∀ k, k ≤ 52 → va / pageSize * pageSize % 2 ^ k < 2 ^ 52 := fun k hk =>
    Nat.lt_of_lt_of_le (Nat.mod_lt _ (Nat.two_pow_pos k)) (Nat.pow_le_pow_right (by omega) hk)
  obtain ⟨h4, h3, h2, h1⟩ := index_page va
  unfold vmmVirtToPhys mapped
  cases m.pml4 with
  | none => simp
  | some pml4 =>
    simp only [h4, h3, h2, h1]
    generalize entryAt m.mem pml4 (pml4Index va) = e4
    by_cases hp4 : e4 &&& ptePresent = 0
    · simp [hp4]
    by_cases hh4 : e4 &&& pteHuge = 0
    case neg => simp [hh4]
    generalize entryAt m.mem (e4 &&& pteAddrMask) (pdptIndex va) = e3
    by_cases hp3 : e3 &&& ptePresent = 0
    · simp [hp4, hh4, hp3]
    by_cases hh3 : e3 &&& pteHuge = 0
    case neg =>
      have hne := or_ne_vmmNoPhys (Nat.or_lt_two_pow (h1G e3) (hmod 30 (by omega))) hoff
      simpa [hp4, hh4, hp3, hh3] using hne
    generalize entryAt m.mem (e3 &&& pteAddrMask) (pdIndex va) = e2
    by_cases hp2 : e2 &&& ptePresent = 0
    · simp [hp4, hh4, hp3, hh3, hp2]
    by_cases hh2 : e2 &&& pteHuge = 0
    case neg =>
      have hne := or_ne_vmmNoPhys (Nat.or_lt_two_pow (h2M e2) (hmod 21 (by omega))) hoff
      simpa [hp4, hh4, hp3, hh3, hp2, hh2] using hne
    generalize entryAt m.mem (e2 &&& pteAddrMask) (ptIndex va) = e1
    by_cases hp1 : e1 &&& ptePresent = 0
    · simp [hp4, hh4, hp3, hh3, hp2, hh2, hp1]
    · have hne := or_ne_vmmNoPhys (addr_lt e1) hoff
      simp [hp4, hh4, hp3, hh3, hp2, hh2, hp1, hne]

/-- The page loop ends, without overflow below `2 ^ 63`, and finds whether every page
from `page` on is mapped. -/
theorem pagesMapped_spec (m : Machine) {stop : ℕ} (hstop : stop ≤ 2 ^ 63) (page : ℕ) :
    ∃ b, pagesMapped m stop page = .ok b ∧
      (b = true ↔ ∀ k, page + k * pageSize < stop → mapped m (page + k * pageSize) = true) := by
  have hsize : pageSize = 4096 := rfl
  fun_induction pagesMapped m stop page with
  | case1 page hlt hnone =>
    refine ⟨false, rfl, iff_of_false (by simp) fun hall => ?_⟩
    have hmapped := hall 0 (by omega)
    rw [Nat.zero_mul, Nat.add_zero, ← virtToPhys_ne_iff] at hmapped
    exact hmapped hnone
  | case2 page hlt hsome hroom ih =>
    obtain ⟨b, hrun, hiff⟩ := ih
    refine ⟨b, hrun, hiff.trans ⟨fun hall k hk => ?_, fun hall k hk => ?_⟩⟩
    · cases k with
      | zero =>
        rw [Nat.zero_mul, Nat.add_zero, ← virtToPhys_ne_iff]
        exact hsome
      | succ k =>
        have heq : page + (k + 1) * pageSize = page + pageSize + k * pageSize := by
          rw [Nat.succ_mul]
          omega
        rw [heq] at hk ⊢
        exact hall k hk
    · have heq : page + pageSize + k * pageSize = page + (k + 1) * pageSize := by
        rw [Nat.succ_mul]
        omega
      rw [heq] at hk ⊢
      exact hall (k + 1) hk
  | case3 page hlt hsome hroom => omega
  | case4 page hge =>
    refine ⟨true, rfl, iff_of_true rfl fun k hk => ?_⟩
    omega

/-- The pages that meet a range. -/
def Meets (page address length : ℕ) : Prop :=
  page % pageSize = 0 ∧ page < address + length ∧ address < page + pageSize

/-- What `user_range_valid` answers, on any tables. -/
theorem userRangeValid_spec (m : Machine) (address length : ℕ) :
    ∃ b, userRangeValid m address length = .ok b ∧
      (b = true ↔ address ≠ 0 ∧ address + length < 2 ^ 64 ∧ address + length ≤ userAddressMax ∧
        ∀ page, Meets page address length → mapped m page = true) := by
  have hsize : pageSize = 4096 := rfl
  have hmax : userAddressMax = 2 ^ 47 := rfl
  unfold userRangeValid
  split
  · exact ⟨false, rfl, iff_of_false (by simp) fun h => by omega⟩
  rename_i hfits
  split
  · exact ⟨false, rfl, iff_of_false (by simp) fun h => by omega⟩
  rename_i hlow
  obtain ⟨b, hrun, hiff⟩ := pagesMapped_spec m (show address + length ≤ 2 ^ 63 by omega)
    (address / pageSize * pageSize)
  refine ⟨b, hrun, hiff.trans ⟨fun hall => ?_, fun hall k hk => ?_⟩⟩
  · refine ⟨by omega, by omega, by omega, fun page hmeets => ?_⟩
    obtain ⟨haligned, hbelow, habove⟩ := hmeets
    rw [hsize] at haligned habove
    have heq : page = address / pageSize * pageSize +
        (page / pageSize - address / pageSize) * pageSize := by
      rw [hsize]
      omega
    rw [heq] at hbelow ⊢
    exact hall _ hbelow
  · apply hall.2.2.2
    refine ⟨?_, hk, ?_⟩ <;>
    · rw [hsize]
      omega

/-! ## The lower half is open to ring 3 -/

/-- Every present entry of `PML4` and of the tables below, on a path that starts in the
lower half, lets ring 3 through. -/
structure LowerOpen (root : ℕ) (m : Machine) : Prop where
  tree : TableTree m root
  fresh : FramesFresh m root
  user : ∀ (q : List (Fin 512)) n j, q.length ≤ 3 → LowerPath (q ++ [j]) →
    tableAt m root q = some n → tableCell m.mem n j &&& ptePresent ≠ 0 →
    userEntry (tableCell m.mem n j) = true

/-- No entry of the lower half of `PML4` is present. -/
def LowerEmpty (m : Machine) (root : ℕ) : Prop :=
  ∀ i : Fin 512, i.val < 256 → tableCell m.mem root i &&& ptePresent = 0

/-- Before the first mapping there is nothing to let through. -/
theorem lowerOpen_boot (htree : TableTree m root) (hfresh : FramesFresh m root)
    (hempty : LowerEmpty m root) : LowerOpen root m where
  tree := htree
  fresh := hfresh
  user q n j _ hlow hn hpresent := by
    cases q with
    | nil =>
      obtain rfl : root = n := Option.some.inj hn
      exact absurd (hempty j (hlow j rfl)) hpresent
    | cons k q =>
      have habsent := hempty k (hlow k rfl)
      simp [tableAt, descend, tableRef_absent habsent] at hn

/-- One interior level keeps the lower half open, if it is a user mapping wherever its
path starts in the lower half. -/
theorem LowerOpen.level (h : LowerOpen root m) (hp : tableAt m root p = some t)
    (hlen : p.length < 3) (hstep : LevelStep flags m m' t i t')
    (huser : LowerPath (p ++ [i]) → flags &&& pteUser ≠ 0) : LowerOpen root m' := by
  obtain ⟨hgrows, -⟩ := hstep.grows h.tree h.fresh hp hlen
  refine ⟨hgrows.tree, hgrows.fresh, fun q n j hq hlow hn hpresent => ?_⟩
  obtain hold | ⟨-, hzero⟩ := hstep.tableAt_cases h.tree h.fresh hp hlen hq hn
  · by_cases hhere : n = t ∧ j = i
    · -- the entry of this level: the tree says that it is on this path only
      obtain ⟨rfl, rfl⟩ := hhere
      obtain rfl := h.tree.tree q p n hq (Nat.le_of_lt hlen) hold hp
      exact hstep.userEntry_new (h.fresh.freeOf hq hold) (huser hlow)
    · have hsame : tableCell m'.mem n j = tableCell m.mem n j := by
        cases hstep with
        | opened _ _ _ hcell _ => rw [hcell, if_neg fun hc => hhere hc.1]
        | attached _ hfree _ _ hcell _ =>
          have hnew : n ≠ t' := by
            rintro rfl
            exact (h.fresh n hfree).2 q hq hold
          rw [hcell, if_neg hnew, if_neg hhere]
      rw [hsame] at hpresent ⊢
      exact h.user q n j hq hlow hold hpresent
  · rw [hzero] at hpresent
    exact absurd rfl hpresent

/-- The interior levels of a call keep the lower half open. -/
theorem LowerOpen.ensurePath {pt : ℕ} (h : LowerOpen root m)
    (huser : pml4Index va < 256 → flags &&& pteUser ≠ 0)
    (hrun : ensurePath flags (4096 * root) va m = (.ok pt, m')) : LowerOpen root m' := by
  obtain ⟨-, -, -, hopen⟩ := ensurePath_rule (P := fun _ m₁ => LowerOpen root m₁) h.tree h.fresh hrun h
    fun p t i t' m₁ m₂ hpath hlen _ _ hat hstep hopen => hopen.level hat hlen hstep fun hlow => by
      obtain ⟨r, hr⟩ := hpath
      refine huser (hlow (idx4 va) ?_)
      have hhead : ((p ++ [i]) ++ r).head? = (p ++ [i]).head? :=
        List.head?_append_of_ne_nil _ (List.append_ne_nil_of_right_ne_nil p (List.cons_ne_nil i []))
      rw [← hhead, hr]
      rfl
  exact hopen

/-- Writing a leaf keeps the lower half open, if a leaf of the lower half is absent or
lets ring 3 through. -/
theorem LowerOpen.withLeaf {n v : ℕ} (h : LowerOpen root m)
    (hat : tableAt m root (vaPath va) = some n) (hv : v < 2 ^ 64)
    (huser : pml4Index va < 256 → v &&& ptePresent ≠ 0 → userEntry v = true) :
    LowerOpen root (withLeaf m n va v) := by
  have hdesc := fun q hq => tableAt_withLeaf (v := v) h.tree hat q hq
  refine ⟨(withLeaf_spec h.tree hat hv).1, fun j hj => ⟨(h.fresh j hj).1, fun q hq => ?_⟩,
    fun q n' j hq hlow hn hpresent => ?_⟩
  · rw [hdesc q hq]
    exact (h.fresh j hj).2 q hq
  · rw [hdesc q hq] at hn
    rw [withLeaf_cell hv] at hpresent ⊢
    split at hpresent
    · rename_i hhere
      rw [if_pos hhere]
      obtain ⟨rfl, -⟩ := hhere
      obtain rfl := h.tree.tree q (vaPath va) n' hq (length_vaPath va).le hn hat
      exact huser (hlow (idx4 va) rfl) hpresent
    · rename_i hhere
      rw [if_neg hhere]
      exact h.user q n' j hq hlow hn hpresent

/-! ## Whole calls and runs -/

/-- A call that maps a page of the lower half is a user variant. -/
def MapCall.keepsLower (c : MapCall) : Prop :=
  pml4Index c.va < 256 → c.user = true ∨ ∃ va, c = .unmap va

/-- Such a call unmaps a page, or maps one with flags that have the user bit if it is in
the lower half. -/
theorem MapCall.keepsLower.run_cases {c : MapCall} (h : c.keepsLower) :
    (∃ va, c.run = vmmUnmapPage va) ∨
      ∃ pa flags, c.run = vmmMapPageFlags c.va pa flags ∧ flags < 2 ^ 64 ∧
        (pml4Index c.va < 256 → flags &&& pteUser ≠ 0) := by
  by_cases hunmap : ∃ va, c = .unmap va
  · obtain ⟨va, rfl⟩ := hunmap
    exact Or.inl ⟨va, rfl⟩
  · obtain ⟨pa, flags, hcall, hflags, huser⟩ | ⟨hcall, -⟩ := MapCall.run_cases c
    · refine Or.inr ⟨pa, flags, hcall, hflags, fun hva => huser.mpr ?_⟩
      exact (h hva).resolve_right hunmap
    · exact Or.inl ⟨c.va, hcall⟩

/-- **Step lemma.**  Such a call keeps the lower half open. -/
theorem LowerOpen.call {c : MapCall} (h : LowerOpen root m) (hlow : c.keepsLower)
    (hexec : c.exec m = some m') : LowerOpen root m' := by
  have hrun : c.run m = (.ok (), m') := by
    unfold MapCall.exec at hexec
    split at hexec
    · rename_i hrun
      rw [hrun, Option.some.inj hexec]
    · cases hexec
  obtain ⟨va, hcall⟩ | ⟨pa, flags, hcall, hflags, huser⟩ := hlow.run_cases
  · rw [hcall] at hrun
    obtain ⟨rfl, -⟩ | ⟨n, hat, rfl⟩ := vmmUnmapPage_ok h.tree hrun
    · exact h
    · exact h.withLeaf hat (by omega) fun _ hpresent => absurd rfl hpresent
  · rw [hcall] at hrun
    obtain ⟨-, -, m₁, n, -, hpath, hat, rfl⟩ := vmmMapPageFlags_ok h.tree h.fresh hrun
    have hlt : (pa &&& pteAddrMask) ||| ptePresent ||| flags < 2 ^ 64 := by
      have haddr := addr_lt pa
      exact Nat.or_lt_two_pow (Nat.or_lt_two_pow (by omega) (by decide)) hflags
    apply (h.ensurePath huser hpath).withLeaf hat hlt
    intro hva _
    rw [userEntry_leaf]
    exact decide_eq_true (huser hva)

/-- **Run lemma.**  The lower half stays open over any list of such calls. -/
theorem LowerOpen.run {cs : List MapCall} (h : LowerOpen root m) (hlow : ∀ c ∈ cs, c.keepsLower)
    (hrun : runEvents MapCall.exec m cs = some m') : LowerOpen root m' := by
  induction cs generalizing m with
  | nil =>
    obtain rfl : m = m' := Option.some.inj hrun
    exact h
  | cons c cs ih =>
    obtain ⟨m₁, hcall, hrest⟩ := Option.bind_eq_some_iff.mp hrun
    exact ih (h.call (hlow c List.mem_cons_self) hcall)
      (fun c' hc' => hlow c' (List.mem_cons_of_mem c hc')) hrest

/-- A present entry of an open lower half lets ring 3 through, and leads to the next
table unless it is huge. -/
theorem LowerOpen.entry (h : LowerOpen root m) {q : List (Fin 512)} {n : ℕ} (j : Fin 512)
    (hq : q.length ≤ 3) (hlow : LowerPath (q ++ [j])) (hn : tableAt m root q = some n)
    (hpresent : entryAt m.mem (4096 * n) j &&& ptePresent ≠ 0) :
    userEntry (entryAt m.mem (4096 * n) j) = true ∧
      (entryAt m.mem (4096 * n) j &&& pteHuge = 0 → ∃ n', tableAt m root (q ++ [j]) = some n' ∧
        entryAt m.mem (4096 * n) j &&& pteAddrMask = 4096 * n') := by
  rw [entryAt_tableCell] at hpresent ⊢
  refine ⟨h.user q n j hq hlow hn hpresent, fun hhuge => ?_⟩
  have href := tableRef_some hpresent hhuge
  refine ⟨_, ?_, tableRef_addr href⟩
  rw [tableAt_concat, hn, Option.bind_some, href]

/-- In an open lower half a mapped address is reachable from ring 3. -/
theorem LowerOpen.reachable (h : LowerOpen root m) (hva : pml4Index va < 256)
    (hmapped : mapped m va = true) : ring3Reachable m va = true := by
  have hlow : ∀ r, LowerPath (idx4 va :: r) := by
    intro r k hk
    obtain rfl : idx4 va = k := Option.some.inj hk
    exact hva
  unfold mapped at hmapped
  unfold ring3Reachable
  simp only [h.tree.pml4, Bool.and_eq_true, Bool.or_eq_true, beq_iff_eq, bne_iff_ne] at hmapped ⊢
  obtain ⟨⟨h4, hh4⟩, h3, hrest⟩ := hmapped
  obtain ⟨hu4, hnext⟩ := h.entry (q := []) (idx4 va) (by simp) (hlow []) rfl h4
  obtain ⟨n₁, hat₁, haddr₁⟩ := hnext hh4
  have heq₁ : entryAt m.mem (4096 * root) (pml4Index va) &&& pteAddrMask = 4096 * n₁ := haddr₁
  refine ⟨⟨hu4, hh4⟩, ?_⟩
  rw [heq₁] at h3 hrest ⊢
  obtain ⟨hu3, hnext⟩ := h.entry (idx3 va) (by simp) (hlow [idx3 va]) hat₁ h3
  refine ⟨hu3, ?_⟩
  by_cases hh3 : entryAt m.mem (4096 * n₁) (pdptIndex va) &&& pteHuge = 0
  case neg => exact Or.inl hh3
  obtain ⟨n₂, hat₂, haddr₂⟩ := hnext hh3
  have heq₂ : entryAt m.mem (4096 * n₁) (pdptIndex va) &&& pteAddrMask = 4096 * n₂ := haddr₂
  obtain ⟨h2, hrest⟩ := hrest.resolve_left fun hne => hne hh3
  rw [heq₂] at h2 hrest ⊢
  obtain ⟨hu2, hnext⟩ := h.entry (idx2 va) (by simp) (hlow [idx3 va, idx2 va]) hat₂ h2
  refine Or.inr ⟨hu2, ?_⟩
  by_cases hh2 : entryAt m.mem (4096 * n₂) (pdIndex va) &&& pteHuge = 0
  case neg => exact Or.inl hh2
  obtain ⟨n₃, hat₃, haddr₃⟩ := hnext hh2
  have heq₃ : entryAt m.mem (4096 * n₂) (pdIndex va) &&& pteAddrMask = 4096 * n₃ := haddr₃
  have h1 := hrest.resolve_left fun hne => hne hh2
  rw [heq₃] at h1 ⊢
  exact Or.inr (h.entry (idx1 va) (by simp) (hlow [idx3 va, idx2 va, idx1 va]) hat₃ h1).1

/-- **User pointers.**  Start from tables that are a tree with an empty lower half, none
of whose frames the allocator hands out, and take any list of calls that map pages of
the lower half through the user variants only.  Then `user_range_valid` ends without
overflow; it accepts exactly the ranges that start above 0, end in user space and
meet mapped pages only; and every byte of an accepted range is reachable from
ring 3. -/
theorem user_range_valid_iff (htree : TableTree m root) (hfresh : FramesFresh m root)
    (hempty : LowerEmpty m root) {cs : List MapCall} (hlow : ∀ c ∈ cs, c.keepsLower)
    (hrun : runEvents MapCall.exec m cs = some m') (address length : ℕ) :
    ∃ b, userRangeValid m' address length = .ok b ∧
      (b = true ↔ address ≠ 0 ∧ address + length < 2 ^ 64 ∧ address + length ≤ userAddressMax ∧
        ∀ page, Meets page address length → mapped m' page = true) ∧
      (b = true → ∀ va, address ≤ va → va < address + length → ring3Reachable m' va = true) := by
  obtain ⟨b, hvalid, hiff⟩ := userRangeValid_spec m' address length
  refine ⟨b, hvalid, hiff, fun hb va hge hlt => ?_⟩
  obtain ⟨-, -, hmax, hall⟩ := hiff.mp hb
  have hsize : pageSize = 4096 := rfl
  have hopen := (lowerOpen_boot htree hfresh hempty).run hlow hrun
  have hmeets : Meets (va / pageSize * pageSize) address length := by
    unfold Meets
    rw [hsize]
    omega
  apply hopen.reachable
  · apply pml4Index_lower
    unfold lowerHalf
    have : userAddressMax = 2 ^ 47 := rfl
    omega
  · rw [← mapped_page]
    exact hall _ hmeets

/-- A program's page, checked with a range that ends inside it and with one that leaves
it. -/
theorem user_range_valid_one_page :
    ∃ m', runEvents MapCall.exec emptyTables [.mapUserPage 0x400000 0x200000] = some m' ∧
      userRangeValid m' 0x400ff0 16 = .ok true ∧ userRangeValid m' 0x400ff0 17 = .ok false ∧
      ring3Reachable m' 0x400fff = true := by
  have hrun : (runEvents MapCall.exec emptyTables
      [.mapUserPage 0x400000 0x200000]).map
        (fun m' => (mapped m' 0x400000, mapped m' 0x401000)) = some (true, false) := by
    decide +kernel
  obtain ⟨m', hm', hpages⟩ := Option.map_eq_some_iff.mp hrun
  obtain ⟨hin, hout⟩ := Prod.mk.inj hpages
  have hlow : ∀ c ∈ [MapCall.mapUserPage 0x400000 0x200000], c.keepsLower := by
    intro c hc _
    obtain rfl := List.mem_singleton.mp hc
    exact Or.inl rfl
  have hempty : LowerEmpty emptyTables 1 := by
    intro i _
    rw [tableCell_emptyTables]
    rfl
  have hvalid := user_range_valid_iff emptyTables_tree emptyTables_fresh hempty hlow hm'
  have hsize : pageSize = 4096 := rfl
  refine ⟨m', hm', ?_, ?_, ?_⟩
  · obtain ⟨b, hb, hiff, -⟩ := hvalid 0x400ff0 16
    rw [hb, hiff.mpr]
    refine ⟨by omega, by omega, by decide, fun page hmeets => ?_⟩
    obtain ⟨haligned, hlt, hgt⟩ := hmeets
    rw [hsize] at haligned hgt
    obtain rfl : page = 0x400000 := by omega
    exact hin
  · obtain ⟨b, hb, hiff, -⟩ := hvalid 0x400ff0 17
    rw [hb, Except.ok.injEq, Bool.eq_false_iff]
    intro htrue
    rw [(hiff.mp htrue).2.2.2 0x401000 (by unfold Meets; decide)] at hout
    cases hout
  · obtain ⟨b, hb, hiff, hreach⟩ := hvalid 0x400fff 1
    refine hreach (hiff.mpr ⟨by omega, by omega, by decide, fun page hmeets => ?_⟩) _
      le_rfl (by omega)
    obtain ⟨haligned, hlt, hgt⟩ := hmeets
    rw [hsize] at haligned hgt
    obtain rfl : page = 0x400000 := by omega
    exact hin

/-! ## Tables that are not a tree -/

/-- A `PML4` in frame 1 whose last entry refers to itself. -/
def recursiveTables : Machine where
  mem := Bytes.putLE (fun _ => 0) (4096 * 1 + 8 * (511 : Fin 512)) 8 0x1003
  pmm := ⟨0, 1, [0xFFFFFFFFFFFFFF8F#64], 0⟩
  pml4 := some 4096

theorem lowerEmpty_recursiveTables : LowerEmpty recursiveTables 1 := by
  intro i hi
  have hne : ¬(1 = 1 ∧ i = 511) := by
    rintro ⟨-, rfl⟩
    exact absurd hi (by omega)
  rw [recursiveTables, tableCell_putLE, if_neg hne, tableCell_of_zero fun _ => rfl]
  rfl

/-- **A recursive entry.**  `vmm_map_page` on a page of the upper half, mapping frame 1,
writes entry 0 of `PML4`.  The page `0x1FF000` of the lower half is mapped then, without the
user bit, and `user_range_valid` accepts it. -/
theorem recursive_entry_hides_page :
    LowerEmpty recursiveTables 1 ∧ (MapCall.mapPage 0xFFFFFFFFFFE00000 0x1000).keepsLower ∧
    ∃ m', runEvents MapCall.exec recursiveTables [.mapPage 0xFFFFFFFFFFE00000 0x1000] = some m' ∧
      userRangeValid m' 0x1FF000 1 = .ok true ∧ ring3Reachable m' 0x1FF000 = false := by
  have hrun : (runEvents MapCall.exec recursiveTables
      [.mapPage 0xFFFFFFFFFFE00000 0x1000]).map
        (fun m' => (mapped m' 0x1FF000, ring3Reachable m' 0x1FF000)) = some (true, false) := by
    decide +kernel
  obtain ⟨m', hm', hpages⟩ := Option.map_eq_some_iff.mp hrun
  obtain ⟨hin, hout⟩ := Prod.mk.inj hpages
  have hsize : pageSize = 4096 := rfl
  refine ⟨lowerEmpty_recursiveTables, fun hlow => absurd hlow (by decide), m', hm', ?_, hout⟩
  obtain ⟨b, hb, hiff⟩ := userRangeValid_spec m' 0x1FF000 1
  rw [hb, hiff.mpr]
  refine ⟨by omega, by omega, by decide, fun page hmeets => ?_⟩
  obtain ⟨haligned, hlt, hgt⟩ := hmeets
  rw [hsize] at haligned hgt
  obtain rfl : page = 0x1FF000 := by omega
  exact hin

end Pinx.Analysis
