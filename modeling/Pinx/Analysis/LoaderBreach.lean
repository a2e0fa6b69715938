import Pinx.Analysis.LoaderIsolation

/-!
# An image with an upper page reaches the upper half

Whatever else an image asks for, one page with address bit 47 set is enough: there is
a machine on which `load_elf` maps that page.  In `probe` the whole lower half is
mapped by 1 GiB pages, nothing of the upper half is, and four frames are free, so the
pages before the first upper page find their frames and the first upper page takes the
last ones.  From then on no translation can change (`Breached`), and the new mapping is
still there when `load_elf` ends.
-/

namespace Pinx.Analysis

open Pinx.Foundation Pinx.Foundation.WordBitmap Pinx.Foundation.RadixTree Pinx.Model

/-! ## The machine -/

/-- Entry `j` of frame `n`: `PML4` is in frame 1, the tables of its lower entries are in
the frames behind it. -/
def probeEntry (n j : ℕ) : ℕ :=
  if n = 1 then (if j < 256 then (2 + j) * pageSize ||| tableFlags 0 else 0)
  else if 2 ≤ n ∧ n < 258 then 0x40000083
  else 0

/-- The allocator with the frames from `300 + k` to `303` free. -/
def probePmm (k : ℕ) : Pmm where
  bitmapPhysical := 0
  entries := 5
  words := List.replicate 4 (BitVec.allOnes 64) ++
    [BitVec.ofNat 64 (2 ^ 64 - 1 - (2 ^ 48 - 2 ^ (44 + k)))]
  hint := if k = 0 then 0 else (300 + k) % 5

def probe : Machine where
  mem a := UInt8.ofNat (probeEntry (a / 4096) (a % 4096 / 8) / 256 ^ (a % 8))
  pmm := probePmm 0
  pml4 := some (4096 * 1)

theorem probeEntry_lt (n j : ℕ) : probeEntry n j < 2 ^ 64 := by
  unfold probeEntry
  split
  · split
    · have hsize : pageSize = 4096 := rfl
      exact Nat.or_lt_two_pow (by rw [hsize]; omega) (by decide)
    · omega
  · split <;> omega

/-- Memory that is given by the entries of its frames. -/
theorem tableCell_entries {entry : ℕ → ℕ → ℕ} (hlt : ∀ n j, entry n j < 2 ^ 64) {mem : Bytes}
    (hmem : ∀ a, mem a = UInt8.ofNat (entry (a / 4096) (a % 4096 / 8) / 256 ^ (a % 8))) (n : ℕ)
    (j : Fin 512) : tableCell mem n j = entry n j := by
  have hj := j.isLt
  have hdigits := Bytes.getLE_digits (entry n j) 8
  rw [show (256 : ℕ) ^ 8 = 2 ^ 64 by omega, Nat.mod_eq_of_lt (hlt n j)] at hdigits
  rw [tableCell, entryAt, ← hdigits]
  apply Bytes.getLE_congr
  intro k hk
  simp only [hmem, Nat.zero_add]
  rw [show (4096 * n + 8 * j.val + k) / 4096 = n by omega,
    show (4096 * n + 8 * j.val + k) % 4096 / 8 = j by omega,
    show (4096 * n + 8 * j.val + k) % 8 = k by omega]

theorem tableCell_probe (n : ℕ) (j : Fin 512) : tableCell probe.mem n j = probeEntry n j :=
  tableCell_entries probeEntry_lt (fun _ => rfl) n j

/-- The allocator hands out the four frames and is empty then. -/
theorem probePmm_alloc :
    (∀ k < 4, pmmAllocPage (probePmm k) = .ok ((300 + k) * 4096, probePmm (k + 1))) ∧
      pmmAllocPage (probePmm 4) = .ok (pmmNoPage, probePmm 4) := by
  decide +kernel

theorem probePmm_free {k j : ℕ} (hk : k ≤ 4) (h : test (probePmm k).words j = false) :
    300 + k ≤ j ∧ j < 304 := by
  have hj : j < 320 := by
    by_contra hge
    rw [test_of_length_le (by omega) (by simp [probePmm]; omega)] at h
    cases h
  have hall : ∀ k < 5, ∀ j < 320, test (probePmm k).words j = false → 300 + k ≤ j ∧ j < 304 := by
    decide +kernel
  exact hall k (by omega) j hj h

/-- What holds until the first upper page: the tables and the allocator are as in
`probe`. -/
structure Probing (m : Machine) : Prop where
  pml4 : m.pml4 = some (4096 * 1)
  pmm : m.pmm = probePmm 0
  bytes : ∀ b < 2 ^ 30, m.mem b = probe.mem b

theorem probing_probe : Probing probe := ⟨rfl, rfl, fun _ _ => rfl⟩

variable {m m' : Machine}

theorem Probing.cell (h : Probing m) {n : ℕ} (hn : n < 2 ^ 18) (j : Fin 512) :
    tableCell m.mem n j = probeEntry n j := by
  rw [← tableCell_probe]
  apply tableCell_of_bytes
  intro b hb
  apply h.bytes
  omega

theorem Probing.tableRef_root (h : Probing m) (i : Fin 512) :
    tableRef (tableCell m.mem 1 i) = if i.val < 256 then some (2 + i.val) else none := by
  rw [h.cell (by omega), probeEntry, if_pos rfl]
  split
  · exact tableRef_new (by omega) 0
  · rfl

theorem Probing.tableRef_second (h : Probing m) {n : ℕ} (hn : 2 ≤ n ∧ n < 258) (j : Fin 512) :
    tableCell m.mem n j = 0x40000083 ∧ tableRef (tableCell m.mem n j) = none := by
  have hcell : tableCell m.mem n j = 0x40000083 := by
    rw [h.cell (by omega), probeEntry, if_neg (by omega), if_pos hn]
  rw [hcell]
  exact ⟨rfl, rfl⟩

/-- The tables are `PML4` and those of its lower entries. -/
theorem Probing.tableAt_cases (h : Probing m) {q : List (Fin 512)} {n : ℕ}
    (hn : tableAt m 1 q = some n) :
    (q = [] ∧ n = 1) ∨ ∃ i : Fin 512, q = [i] ∧ i.val < 256 ∧ n = 2 + i.val := by
  cases q with
  | nil => exact Or.inl ⟨rfl, (Option.some.inj hn).symm⟩
  | cons i q =>
    obtain ⟨n₁, href, hrest⟩ := Option.bind_eq_some_iff.mp hn
    rw [h.tableRef_root] at href
    split at href
    · rename_i hi
      obtain rfl := Option.some.inj href
      cases q with
      | nil => exact Or.inr ⟨i, rfl, hi, (Option.some.inj hrest).symm⟩
      | cons j q =>
        obtain ⟨n₂, href₂, -⟩ := Option.bind_eq_some_iff.mp hrest
        rw [(h.tableRef_second (by omega) j).2] at href₂
        cases href₂
    · cases href

theorem Probing.tree (h : Probing m) : TableTree m 1 where
  pml4 := h.pml4
  tree p q n _ _ hp hq := by
    obtain ⟨rfl, rfl⟩ | ⟨i, rfl, hi, rfl⟩ := h.tableAt_cases hp <;>
      obtain ⟨rfl, hn⟩ | ⟨j, rfl, hj, hn⟩ := h.tableAt_cases hq
    · rfl
    · omega
    · omega
    · rw [Fin.ext (show i.val = j.val by omega)]

/-- A 1 GiB page at 1 GiB. -/
theorem translate_gigabyte (va : ℕ) : 2 ^ 18 ≤ translate va (2, 0x40000083) / 4096 ∧
    translate va (2, 0x40000083) / 4096 < 2 ^ 19 := by
  have hor : translate va (2, 0x40000083) =
      2 ^ 30 ||| va / pageSize * pageSize % 2 ^ 30 ||| va % pageSize := rfl
  have hlow : va / pageSize * pageSize % 2 ^ 30 ||| va % pageSize < 2 ^ 30 := by
    have hoff : va % pageSize < pageSize := Nat.mod_lt _ (by decide)
    have hsize : pageSize = 4096 := rfl
    exact Nat.or_lt_two_pow (by omega) (by omega)
  have hadd := Nat.two_pow_add_eq_or_of_lt hlow 1
  rw [Nat.mul_one] at hadd
  rw [hor, Nat.or_assoc, ← hadd]
  omega

/-- Lower addresses are in the 1 GiB page at `2 ^ 30`, upper ones are not mapped. -/
theorem Probing.virtToPhys (h : Probing m) (va : ℕ) :
    (pml4Index va < 256 → 2 ^ 18 ≤ vmmVirtToPhys m va / 4096 ∧
      vmmVirtToPhys m va / 4096 < 2 ^ 19) ∧
    (256 ≤ pml4Index va → vmmVirtToPhys m va = vmmNoPhys) := by
  have hidx : (idx4 va).val = pml4Index va := rfl
  have hroot := h.tableRef_root (idx4 va)
  rw [hidx] at hroot
  rw [vmmVirtToPhys_eq h.pml4, vaPath, walk, hroot]
  constructor
  · intro hva
    obtain ⟨hcell, href⟩ := h.tableRef_second (n := 2 + pml4Index va) (by omega) (idx3 va)
    rw [if_pos hva]
    dsimp only
    rw [walk, href, hcell]
    exact translate_gigabyte va
  · intro hva
    rw [if_neg (by omega), h.cell (by omega), probeEntry, if_pos rfl, if_neg (by omega)]
    rfl

/-- The probe is a machine of the kind the loader is started on. -/
theorem halvesApart_probe : HalvesApart probe 1 := by
  have h := probing_probe
  have htable : ∀ half f, TableIn half probe 1 f → 2 ≤ f ∧ f < 258 ∧ ∃ i, half i ∧ i.val < 256 := by
    rintro half f ⟨i, q, hi, -, hn⟩
    obtain ⟨hnil, -⟩ | ⟨j, hcons, hj, rfl⟩ := h.tableAt_cases hn
    · cases hnil
    · obtain ⟨rfl, -⟩ := List.cons.inj hcons
      exact ⟨by omega, by omega, i, hi, hj⟩
  have hlower : ∀ f, MappedIn lowerHalf probe f → 2 ^ 18 ≤ f := by
    rintro f ⟨va, hva, -, rfl⟩
    exact ((h.virtToPhys va).1 (pml4Index_lower hva)).1
  have huse : ∀ f, LowerUse probe 1 f → f ≠ 1 ∧ (f < 258 ∨ 2 ^ 18 ≤ f) := by
    rintro f (ht | hm)
    · have := htable _ f ht
      omega
    · have := hlower f hm
      omega
  have hupper : ∀ f, ¬UpperUse probe 1 f := by
    rintro f (ht | ⟨va, hva, hmap, -⟩)
    · obtain ⟨-, -, i, hi, hlt⟩ := htable _ f ht
      omega
    · exact hmap ((h.virtToPhys va).2 (pml4Index_upper hva))
  refine ⟨h.tree, fun f _ => hupper f, fun hl => (huse 1 hl).1 rfl, hupper 1, ?_, ?_⟩
  · intro f hm ht
    have hf := hlower f hm
    have := htable _ f ht
    omega
  · intro j hj
    have hfree := probePmm_free (k := 0) (by omega) hj
    refine ⟨by omega, by omega, fun hl => ?_, hupper j⟩
    have := huse j hl
    omega

/-! ## The first upper page

It is not mapped, so the loader takes frame 300 for it and the three frames left for
the tables on the way to it. -/

/-- The allocator's `k`-th page of the probe. -/
theorem allocPage_probe {k : ℕ} (hk : k < 4) (hpmm : m.pmm = probePmm k) :
    allocPage m = (.ok ((300 + k) * 4096), { m with pmm := probePmm (k + 1) }) := by
  unfold allocPage
  rw [hpmm, probePmm_alloc.1 k hk]

/-- A level whose entry is absent takes the next page. -/
theorem ensureTable_probe (flags : ℕ) {t k : ℕ} {i : Fin 512} (hk : k < 4)
    (hpmm : m.pmm = probePmm k) (habsent : tableCell m.mem t i &&& ptePresent = 0) :
    ∃ r m', (∀ hugeText oomText,
        ensureTable hugeText oomText flags (4096 * t) i m = (.ok r, m')) ∧
      m'.pmm = probePmm (k + 1) := by
  have hne : (300 + k) * 4096 ≠ pmmNoPage := by
    unfold pmmNoPage
    omega
  have hentry : ∃ m', (∀ hugeText oomText,
      ensureEntry hugeText oomText flags (4096 * t) i m = (.ok (), m')) ∧
      m'.pmm = probePmm (k + 1) := by
    refine ⟨((writeEntry (4096 * t) i ((300 + k) * 4096 ||| tableFlags flags) >>= fun _ =>
      zeroFrame ((300 + k) * 4096)) { m with pmm := probePmm (k + 1) }).2, ?_, rfl⟩
    intro hugeText oomText
    simp only [ensureEntry, readEntry_bind, entryAt_tableCell, Prog.ite_apply]
    rw [if_neg (not_not.mpr habsent), Prog.bind_ok (allocPage_probe hk hpmm), if_neg hne]
    rfl
  obtain ⟨m', hrun, hpmm'⟩ := hentry
  refine ⟨entryAt m'.mem (4096 * t) i &&& pteAddrMask, m', fun hugeText oomText => ?_, hpmm'⟩
  rw [ensureTable, Prog.bind_ok (hrun hugeText oomText)]
  rfl

/-- The tables while the loader makes its way to the first upper page: frame 300 is no
table, and neither are the frames lower addresses are in. -/
structure Opening (k : ℕ) (m : Machine) : Prop where
  tree : TableTree m 1
  fresh : FramesFresh m 1
  pmm : m.pmm = probePmm k
  tables : ∀ (q : List (Fin 512)) n, q.length ≤ 3 → tableAt m 1 q = some n → n < 304 ∧ n ≠ 300

/-- One level on the way to the first upper page. -/
theorem Opening.level (flags : ℕ) {t k : ℕ} {p : List (Fin 512)} {i : Fin 512}
    (h : Opening k m) (hk : 1 ≤ k ∧ k < 4) (hp : tableAt m 1 p = some t) (hlen : p.length < 3)
    (habsent : tableCell m.mem t i &&& ptePresent = 0) :
    ∃ t' m', (∀ hugeText oomText,
        ensureTable hugeText oomText flags (4096 * t) i m = (.ok (4096 * t'), m')) ∧
      Opening (k + 1) m' ∧ tableAt m' 1 (p ++ [i]) = some t' ∧
      (∀ j, tableCell m'.mem t' j = 0) ∧ ∀ va, vmmVirtToPhys m' va = vmmVirtToPhys m va := by
  obtain ⟨r, m', hrun, hpmm⟩ := ensureTable_probe flags hk.2 h.pmm habsent
  obtain ⟨t', rfl, hstep⟩ := ensureTable_ok (h.fresh.freeOf (Nat.le_of_lt hlen) hp) (hrun "" "")
  obtain ⟨hgrows, hat⟩ := hstep.grows h.tree h.fresh hp hlen
  refine ⟨t', m', hrun, ⟨hgrows.tree, hgrows.fresh, hpmm, ?_⟩, hat, ?_, hgrows.same⟩
  · intro q n hq hn
    obtain hold | ⟨hfree, -⟩ := hstep.tableAt_cases h.tree h.fresh hp hlen hq hn
    · exact h.tables q n hq hold
    · rw [h.pmm] at hfree
      have := probePmm_free (by omega) hfree
      omega
  · intro j
    cases hstep with
    | opened href _ _ _ _ =>
      rw [tableRef_absent habsent] at href
      cases href
    | attached _ _ _ _ hcell _ => rw [hcell, if_pos rfl]

/-- The tables are on their way to the first upper page once its frame was taken and
zeroed. -/
theorem Probing.opening (h : Probing m) (hpml4 : m'.pml4 = m.pml4) (hpmm : m'.pmm = probePmm 1)
    (hbyte : ∀ b, b / 4096 ≠ 300 → m'.mem b = m.mem b) :
    Opening 1 m' ∧ (∀ i, tableCell m'.mem 1 i = tableCell m.mem 1 i) ∧
      ∀ va, vmmVirtToPhys m' va = vmmVirtToPhys m va := by
  have hnone : ∀ q : List (Fin 512), q.length ≤ 3 → tableAt m 1 q ≠ some 300 := by
    intro q _ hn
    have := h.tableAt_cases hn
    omega
  obtain ⟨htable, hvirt⟩ := same_of_frame h.tree hnone hpml4 hbyte
  have hbound : ∀ (q : List (Fin 512)) n, q.length ≤ 3 → tableAt m' 1 q = some n → n < 258 := by
    intro q n hq hn
    have := h.tableAt_cases ((htable q hq).symm.trans hn)
    omega
  refine ⟨⟨⟨hpml4.trans h.pml4, h.tree.tree.of_descend htable⟩, ?_, hpmm, ?_⟩, ?_, hvirt⟩
  · intro j hj
    rw [hpmm] at hj
    have hfree := probePmm_free (by omega) hj
    refine ⟨by omega, fun q hq hn => ?_⟩
    have := hbound q j hq hn
    omega
  · intro q n hq hn
    have := hbound q n hq hn
    omega
  · intro i
    apply tableCell_of_bytes
    intro b hb
    apply hbyte
    omega

/-- The upper half has a page that was not there, and nothing the loader still does
takes it away: no frame is left, and what is mapped is no table. -/
structure Breached (m : Machine) : Prop where
  tree : TableTree m 1
  pmm : m.pmm = probePmm 4
  pages : ∀ va, vmmVirtToPhys m va ≠ vmmNoPhys →
    ∀ q : List (Fin 512), q.length ≤ 3 → tableAt m 1 q ≠ some (vmmVirtToPhys m va / 4096)
  upper : ∃ va, upperHalf va ∧ vmmVirtToPhys m va ≠ vmmNoPhys

/-- The three tables on the way to the first upper page. -/
theorem Opening.path (flags : ℕ) {page : ℕ} (h : Opening 1 m)
    (habsent : tableCell m.mem 1 (idx4 page) &&& ptePresent = 0) :
    ∃ n m', ensurePath flags (4096 * 1) page m = (.ok (4096 * n), m') ∧ Opening 4 m' ∧
      tableAt m' 1 (vaPath page) = some n ∧ ∀ va, vmmVirtToPhys m' va = vmmVirtToPhys m va := by
  obtain ⟨t₁, m₁, hrun₁, h₁, hat₁, hzero₁, hsame₁⟩ :=
    h.level flags (p := []) (i := idx4 page) (by omega) rfl (by simp) habsent
  obtain ⟨t₂, m₂, hrun₂, h₂, hat₂, hzero₂, hsame₂⟩ :=
    h₁.level flags (i := idx3 page) (by omega) hat₁ (by simp) (by rw [hzero₁]; rfl)
  obtain ⟨t₃, m₃, hrun₃, h₃, hat₃, -, hsame₃⟩ :=
    h₂.level flags (i := idx2 page) (by omega) hat₂ (by simp) (by rw [hzero₂]; rfl)
  refine ⟨t₃, m₃, ?_, h₃, hat₃, fun va => ?_⟩
  · have hidx : (idx4 page).val = pml4Index page ∧ (idx3 page).val = pdptIndex page ∧
        (idx2 page).val = pdIndex page := ⟨rfl, rfl, rfl⟩
    rw [ensurePath, ← hidx.1, ← hidx.2.1, ← hidx.2.2, Prog.bind_ok (hrun₁ _ _),
      Prog.bind_ok (hrun₂ _ _), hrun₃]
  · rw [hsame₃, hsame₂, hsame₁]

/-- The first upper page is mapped for ring 3. -/
theorem Opening.map_upper {page : ℕ} (h : Opening 1 m) (hpage : page % 4096 = 0)
    (hva : 256 ≤ pml4Index page) (habsent : tableCell m.mem 1 (idx4 page) &&& ptePresent = 0)
    (hfar : ∀ va, vmmVirtToPhys m va ≠ vmmNoPhys → 2 ^ 18 ≤ vmmVirtToPhys m va / 4096) :
    ∃ m', vmmMapUserPage page (300 * 4096) m = (.ok (), m') ∧ Breached m' ∧
      vmmVirtToPhys m' page = 300 * 4096 := by
  obtain ⟨n, m₁, hrun, h₁, hat, hsame⟩ := h.path (ptePresent ||| pteWritable ||| pteUser) habsent
  have hmap : vmmMapUserPage page (300 * 4096) m = (.ok (), withLeaf m₁ n page
      ((300 * 4096 &&& pteAddrMask) ||| ptePresent ||| (ptePresent ||| pteWritable ||| pteUser))) := by
    have hread : (Prog.read Machine.pml4 : Kernel _) m = (.ok (some (4096 * 1)), m) := by
      rw [Prog.read_apply, h.tree.pml4]
    have haligned : ¬(page % pageSize ≠ 0 ∨ 300 * 4096 % pageSize ≠ 0) := by
      rw [show pageSize = 4096 from rfl]
      omega
    unfold vmmMapUserPage vmmMapPageFlags
    rw [Prog.bind_ok hread]
    dsimp only
    rw [if_neg haligned, Prog.bind_ok hrun]
    rfl
  obtain ⟨htree, hin, hout⟩ := withLeaf_spec (v := (300 * 4096 &&& pteAddrMask) ||| ptePresent |||
    (ptePresent ||| pteWritable ||| pteUser)) h₁.tree hat (by decide)
  have htable := tableAt_withLeaf (v := (300 * 4096 &&& pteAddrMask) ||| ptePresent |||
    (ptePresent ||| pteWritable ||| pteUser)) h₁.tree hat
  have hpmm := h₁.pmm
  generalize hm' : withLeaf m₁ n page ((300 * 4096 &&& pteAddrMask) ||| ptePresent |||
    (ptePresent ||| pteWritable ||| pteUser)) = m' at hmap htree hin hout htable
  have hleaf : ∀ va, pageOf va = pageOf page → vmmVirtToPhys m' va = 300 * 4096 + va % 4096 := by
    intro va hva
    rw [hin va hva, translate_leaf (by omega) (by omega) (by decide)]
  refine ⟨m', hmap, ⟨htree, ?_, ?_, ?_⟩, ?_⟩
  · rw [← hm']
    exact hpmm
  · intro va hne q hq hn
    rw [htable q hq] at hn
    have hbound := h₁.tables q _ hq hn
    by_cases hva' : pageOf va = pageOf page
    · rw [hleaf va hva'] at hbound
      omega
    · rw [hout va hva', hsame] at hbound hne
      have := hfar va hne
      omega
  · -- the canonical form of the address
    have hidx : pml4Index page = page / 2 ^ 39 % 512 := rfl
    have hsame' : pageOf (page % 2 ^ 48 + (2 ^ 64 - 2 ^ 48)) = pageOf page := by
      unfold pageOf
      omega
    refine ⟨page % 2 ^ 48 + (2 ^ 64 - 2 ^ 48), ?_, ?_⟩
    · unfold upperHalf
      omega
    · rw [hleaf _ hsame']
      exact vmmNoPhys_ne (by omega)
  · rw [hleaf page rfl, hpage]

/-! ## The loops -/

/-- A page of the probe: a lower one is there, an upper one is put there. -/
theorem Probing.pageFrame {page : ℕ} (h : Probing m) (hpage : page % 4096 = 0) :
    ∃ f m', pageFrame page m = (.ok (some (4096 * f)), m') ∧
      (pml4Index page < 256 ∧ Probing m' ∧ 2 ^ 18 ≤ f ∨
        256 ≤ pml4Index page ∧ Breached m' ∧ vmmVirtToPhys m' page = 4096 * f) := by
  have hread : (Prog.read fun m => vmmVirtToPhys m page : Kernel _) m =
      (.ok (vmmVirtToPhys m page), m) := rfl
  obtain ⟨hlow, hup⟩ := h.virtToPhys page
  by_cases hva : pml4Index page < 256
  · obtain ⟨hge, hlt⟩ := hlow hva
    have hne : vmmVirtToPhys m page ≠ vmmNoPhys := vmmNoPhys_ne (by omega)
    have haligned := virtToPhys_aligned h.pml4 hpage hne
    refine ⟨vmmVirtToPhys m page / 4096, m, ?_, Or.inl ⟨hva, h, hge⟩⟩
    rw [Model.pageFrame, Prog.bind_ok hread, if_neg hne,
      show 4096 * (vmmVirtToPhys m page / 4096) = vmmVirtToPhys m page by omega]
    rfl
  · have hva' : 256 ≤ pml4Index page := Nat.le_of_not_lt hva
    have halloc : allocPage m = (.ok (300 * 4096), { m with pmm := probePmm 1 }) :=
      allocPage_probe (k := 0) (by omega) h.pmm
    obtain ⟨m₁, hzero, hpml4, hpmm, hbyte⟩ := zeroFrame_spec 300 { m with pmm := probePmm 1 }
    obtain ⟨hopen, hcell, hsame⟩ := h.opening hpml4 hpmm hbyte
    have habsent : tableCell m.mem 1 (idx4 page) &&& ptePresent = 0 := by
      have hidx : (idx4 page).val = pml4Index page := rfl
      rw [h.cell (by omega), probeEntry, if_pos rfl, if_neg (by omega), Nat.zero_and]
    obtain ⟨m', hmap, hbreach, hphys⟩ := hopen.map_upper hpage hva' (by rw [hcell, habsent]) (by
      intro va hmapped
      rw [hsame] at hmapped ⊢
      obtain hlow' | hup' := Nat.lt_or_ge (pml4Index va) 256
      · exact ((h.virtToPhys va).1 hlow').1
      · exact absurd ((h.virtToPhys va).2 hup') hmapped)
    refine ⟨300, m', ?_, Or.inr ⟨hva', hbreach, by omega⟩⟩
    rw [Model.pageFrame, Prog.bind_ok hread, if_pos (hup hva'), Prog.bind_ok halloc,
      if_neg (by decide), Prog.bind_ok hzero, Prog.bind_ok hmap]
    rfl

/-- A page after the breach: it is there, or there is no frame for it. -/
theorem Breached.pageFrame {page : ℕ} (h : Breached m) (hpage : page % 4096 = 0) :
    pageFrame page m = (.ok none, m) ∨
      ∃ f, pageFrame page m = (.ok (some (4096 * f)), m) ∧ vmmVirtToPhys m page = 4096 * f := by
  have hread : (Prog.read fun m => vmmVirtToPhys m page : Kernel _) m =
      (.ok (vmmVirtToPhys m page), m) := rfl
  by_cases hne : vmmVirtToPhys m page = vmmNoPhys
  · have halloc : allocPage m = (.ok pmmNoPage, m) := by
      unfold allocPage
      rw [h.pmm, probePmm_alloc.2, ← h.pmm]
    refine Or.inl ?_
    rw [Model.pageFrame, Prog.bind_ok hread, if_pos hne, Prog.bind_ok halloc, if_pos rfl]
    rfl
  · have haligned := virtToPhys_aligned h.tree.pml4 hpage hne
    refine Or.inr ⟨vmmVirtToPhys m page / 4096, ?_, by omega⟩
    rw [Model.pageFrame, Prog.bind_ok hread, if_neg hne,
      show 4096 * (vmmVirtToPhys m page / 4096) = vmmVirtToPhys m page by omega]
    rfl

theorem Probing.write {f : ℕ} (h : Probing m) (hf : 2 ^ 18 ≤ f) (hpml4 : m'.pml4 = m.pml4)
    (hpmm : m'.pmm = m.pmm) (hbyte : ∀ b, b / 4096 ≠ f → m'.mem b = m.mem b) : Probing m' where
  pml4 := hpml4.trans h.pml4
  pmm := hpmm.trans h.pmm
  bytes b hb := (hbyte b (by omega)).trans (h.bytes b hb)

theorem Breached.write {f va : ℕ} (h : Breached m) (hf : vmmVirtToPhys m va = 4096 * f)
    (hpml4 : m'.pml4 = m.pml4) (hpmm : m'.pmm = m.pmm)
    (hbyte : ∀ b, b / 4096 ≠ f → m'.mem b = m.mem b) : Breached m' := by
  have hva : vmmVirtToPhys m va ≠ vmmNoPhys := by
    rw [hf, vmmNoPhys]
    omega
  have hnone : ∀ q : List (Fin 512), q.length ≤ 3 → tableAt m 1 q ≠ some f := by
    intro q hq
    have := h.pages va hva q hq
    rwa [hf, show 4096 * f / 4096 = f by omega] at this
  obtain ⟨htable, hvirt⟩ := same_of_frame h.tree hnone hpml4 hbyte
  refine ⟨⟨hpml4.trans h.tree.pml4, h.tree.tree.of_descend htable⟩, hpmm.trans h.pmm, ?_, ?_⟩
  · intro va' hva' q hq
    rw [hvirt] at hva' ⊢
    rw [htable q hq]
    exact h.pages va' hva' q hq
  · obtain ⟨va', hupper, hmapped⟩ := h.upper
    exact ⟨va', hupper, by rwa [hvirt]⟩

/-- Copying into a page after the breach. -/
theorem Breached.copy {image : List UInt8} {seg : Segment} {page f va : ℕ} (h : Breached m)
    (hf : vmmVirtToPhys m va = 4096 * f) :
    Prog.Ends (fun _ m => Breached m) (fun _ m => Breached m)
      (copyPage image seg page (4096 * f) m) := by
  obtain ⟨-, hrun⟩ | ⟨-, m', hrun, hpml4, hpmm, hbyte⟩ := copyPage_cases image seg page (4096 * f) m
  · rw [hrun]
    exact Prog.ends_error.mpr h
  · rw [hrun]
    exact Prog.ends_ok.mpr (h.write hf hpml4 hpmm fun b hb => hbyte b (by omega))

/-- One turn of the page loop after the breach. -/
theorem triple_page_breached {image : List UInt8} {seg : Segment} {page : ℕ} {rest : Kernel Bool}
    (hpage : page % 4096 = 0)
    (hrest : Prog.Triple Breached rest (fun _ m => Breached m) (fun _ m => Breached m)) :
    Prog.Triple Breached
      (pageFrame page >>= fun r => match r with
        | none => pure false
        | some frame => copyPage image seg page frame >>= fun _ => rest)
      (fun _ m => Breached m) (fun _ m => Breached m) := by
  intro m hm
  obtain hnone | ⟨f, hsome, hphys⟩ := hm.pageFrame hpage
  · rw [Prog.bind_ok hnone]
    exact Prog.ends_pure hm
  · rw [Prog.bind_ok hsome]
    exact (hm.copy hphys).bind fun _ m₁ h₁ => hrest m₁ h₁

/-- One turn of the page loop on the probe: it goes on after a lower page, and an upper
page is the breach. -/
theorem triple_page_probing {image : List UInt8} {seg : Segment} {page : ℕ} {rest : Kernel Bool}
    {P : Prop} (hpage : page % 4096 = 0) (hlt : page < 2 ^ 64)
    (hbreached : Prog.Triple Breached rest (fun _ m => Breached m) (fun _ m => Breached m))
    (hprobing : Prog.Triple Probing rest
      (fun ok m => Breached m ∨ ok = true ∧ Probing m ∧ P) (fun _ m => Breached m)) :
    Prog.Triple Probing
      (pageFrame page >>= fun r => match r with
        | none => pure false
        | some frame => copyPage image seg page frame >>= fun _ => rest)
      (fun ok m => Breached m ∨ ok = true ∧ Probing m ∧ pml4Index page < 256 ∧ P)
      (fun _ m => Breached m) := by
  intro m hm
  obtain ⟨f, m₁, hsome, ⟨hva, hprobe, hf⟩ | ⟨hva, hbreach, hphys⟩⟩ := hm.pageFrame hpage
  · rw [Prog.bind_ok hsome]
    obtain ⟨hlast, -⟩ | ⟨-, m₂, hrun, hpml4, hpmm, hbyte⟩ := copyPage_cases image seg page (4096 * f) m₁
    · -- the last page of the address space is an upper one
      unfold pml4Index at hva
      omega
    · dsimp only
      rw [Prog.bind_ok hrun]
      have hprobe₂ := hprobe.write hf hpml4 hpmm fun b hb => hbyte b (by omega)
      refine (hprobing m₂ hprobe₂).weaken ?_ fun _ _ h => h
      exact fun ok m h => h.imp id fun ⟨hok, hm, hP⟩ => ⟨hok, hm, hva, hP⟩
  · rw [Prog.bind_ok hsome]
    refine (hbreach.copy hphys).bind fun _ m₂ h₂ => ?_
    exact (hbreached m₂ h₂).weaken (fun _ _ h => Or.inl h) fun _ _ h => h

theorem triple_mapPages_breached {image : List UInt8} {seg : Segment} {n page : ℕ}
    (hpage : page % 4096 = 0) :
    Prog.Triple Breached (mapPages image seg n page) (fun _ m => Breached m)
      (fun _ m => Breached m) := by
  induction n generalizing page with
  | zero => exact fun m hm => Prog.ends_pure hm
  | succ n ih =>
    have hnext : (page + pageSize) % 4096 = 0 := by
      rw [show pageSize = 4096 from rfl]
      omega
    exact triple_page_breached hpage (ih hnext)

/-- The page loop of `map_segment` on the probe. -/
theorem triple_mapPages_probing {image : List UInt8} {seg : Segment} {n page : ℕ}
    (hpage : page % 4096 = 0) (hlt : page + 4096 * n < 2 ^ 64 + 4096) :
    Prog.Triple Probing (mapPages image seg n page)
      (fun ok m => Breached m ∨
        ok = true ∧ Probing m ∧ ∀ k < n, pml4Index (page + 4096 * k) < 256)
      (fun _ m => Breached m) := by
  induction n generalizing page with
  | zero => exact fun m hm => Prog.ends_pure (Or.inr ⟨rfl, hm, fun _ hk => absurd hk (by omega)⟩)
  | succ n ih =>
    have hsize : pageSize = 4096 := rfl
    have hnext : (page + pageSize) % 4096 = 0 := by omega
    intro m hm
    refine (triple_page_probing hpage (by omega) (triple_mapPages_breached hnext)
      (ih hnext (by omega)) m hm).weaken ?_ fun _ _ h => h
    rintro ok m' (hbreach | ⟨hok, hprobe, hva, hrest⟩)
    · exact Or.inl hbreach
    · refine Or.inr ⟨hok, hprobe, fun k hk => ?_⟩
      cases k with
      | zero => exact hva
      | succ k =>
        have := hrest k (by omega)
        rwa [show page + pageSize + 4096 * k = page + 4096 * (k + 1) by omega] at this

/-- `map_segment` on the probe: the breach, or a segment with lower pages only. -/
theorem triple_mapSegment_probing {image : List UInt8} {seg : Segment}
    (hend : seg.vaddr + seg.memsz < 2 ^ 64) :
    Prog.Triple Probing (mapSegment image seg)
      (fun ok m => Breached m ∨ ok = true ∧ Probing m ∧ LowerPages seg) (fun _ m => Breached m) := by
  intro m hm
  rw [mapSegment, if_pos hend]
  have hlast := lastPage_end seg
  exact triple_mapPages_probing (firstPage_aligned seg) (by omega) m hm

theorem triple_mapSegment_breached {image : List UInt8} {seg : Segment} :
    Prog.Triple Breached (mapSegment image seg) (fun _ m => Breached m) (fun _ m => Breached m) := by
  intro m hm
  unfold mapSegment
  split
  · exact triple_mapPages_breached (firstPage_aligned seg) m hm
  · exact Prog.ends_pure hm

/-- Loading an image with an upper page on the probe. -/
theorem loadElf_breaches {image : List UInt8}
    (hupper : ∃ seg ∈ elfSegments image, ¬LowerPages seg) : Breached (loadElf image probe).2 := by
  -- the breach has happened, or a segment that is left has an upper page
  let I : List Segment → Machine → Prop := fun segs m =>
    Breached m ∨ Probing m ∧ ∃ seg ∈ segs, ¬LowerPages seg
  have hnil : ∀ m, I [] m → Breached m := by
    rintro m (hbreach | ⟨-, seg, hseg, -⟩)
    · exact hbreach
    · cases hseg
  have hends : Prog.Ends (fun _ m => Breached m) (fun _ m => Breached m) (loadElf image probe) := by
    refine loadElf_rule (I := I) (fun seg rest m hend h => ?_) hnil (fun _ _ => hnil)
      (fun _ _ _ _ _ _ _ => hnil) (Or.inr ⟨probing_probe, hupper⟩)
    rcases h with hbreach | ⟨hprobe, hupper⟩
    · refine (triple_mapSegment_breached m hbreach).weaken (fun ok m₁ h₁ => ?_) (fun _ _ h => h)
      cases ok with
      | false => exact h₁
      | true => exact Or.inl h₁
    · refine (triple_mapSegment_probing hend m hprobe).weaken (fun ok m₁ h₁ => ?_) (fun _ _ h => h)
      rcases h₁ with hbreach | ⟨rfl, hprobe, hlow⟩
      · cases ok with
        | false => exact hbreach
        | true => exact Or.inl hbreach
      · obtain ⟨seg', hmem, hup⟩ := hupper
        rcases List.mem_cons.mp hmem with rfl | hmem
        · exact absurd hlow hup
        · exact Or.inr ⟨hprobe, seg', hmem, hup⟩
  exact hends.state

/-! ## What the loader may not do -/

/-- No byte of a frame mapped in the upper half has changed, and no upper address
translates differently. -/
def KeepsUpper (m m' : Machine) : Prop :=
  (∀ f, MappedIn upperHalf m f → ∀ b, b / 4096 = f → m'.mem b = m.mem b) ∧
    ∀ va, upperHalf va → vmmVirtToPhys m' va = vmmVirtToPhys m va

theorem Breached.not_keepsUpper (h : Breached m) : ¬KeepsUpper probe m := by
  rintro ⟨-, hsame⟩
  obtain ⟨va, hva, hmapped⟩ := h.upper
  apply hmapped
  rw [hsame va hva]
  exact (probing_probe.virtToPhys va).2 (pml4Index_upper hva)

/-- The loader leaves the upper half alone, on every machine whose halves are apart,
exactly for the images none of whose segments has an upper page. -/
theorem load_keeps_upper_iff (image : List UInt8) :
    (∀ m root, HalvesApart m root → KeepsUpper m (loadElf image m).2) ↔
      ∀ seg ∈ elfSegments image, LowerPages seg := by
  constructor
  · intro hkeeps seg hseg
    by_contra hup
    exact (loadElf_breaches ⟨seg, hseg, hup⟩).not_keepsUpper (hkeeps probe 1 halvesApart_probe)
  · intro hlow m root hapart
    have hsame := loadElf_keeps hlow hapart
    refine ⟨fun f hf b hb => hsame.bytes f (Or.inr hf) b hb, fun va hva => ?_⟩
    exact hsame.virtToPhys hapart.tree.pml4 (pml4Index_upper hva)

/-- One byte of memory at 0xFFFF_8000_0000_0000, none of it in the file. -/
def upperImage : List UInt8 := elfImage 64 [⟨0, 0xFFFF800000000000, 0, 1⟩]

theorem elfSegments_upperImage :
    elfSegments upperImage = [⟨0, 0xFFFF800000000000, 0, 1⟩] := by
  decide +kernel

/-- A 120 byte image puts a ring 3 page at the first address of the kernel's half. -/
theorem load_maps_kernel_half :
    HalvesApart probe 1 ∧ ¬KeepsUpper probe (loadElf upperImage probe).2 := by
  refine ⟨halvesApart_probe, (loadElf_breaches ?_).not_keepsUpper⟩
  rw [elfSegments_upperImage]
  refine ⟨_, List.mem_singleton_self _, fun hlow => ?_⟩
  exact absurd (hlow 0 (by decide)) (by decide)

end Pinx.Analysis
