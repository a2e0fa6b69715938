import Pinx.Analysis.LayoutCollision
import Pinx.Analysis.LoadedImage
import Pinx.Analysis.LoaderBreach

/-!
# Which images the loader gets through

Most of what `load_elf` reads is checked before it is used.  Two sums are not: the end of the first
program header, and the end of the page that `map_segment` is at.  An image is `WellPlaced` if neither
overflows.  Loading it never faults on any machine; at worst the memory manager gives up for lack of
frames, and with enough frames the load returns.  For every other image there is a machine on which the
kernel stops: in `fullMachine` every address is mapped already, so the page loop gets as far as it can.
-/

namespace Pinx.Analysis

open Pinx.Foundation Pinx.Foundation.WordBitmap Pinx.Foundation.RadixTree Pinx.Model

variable {m m' : Machine} {image : List UInt8} {seg : Segment} {root page k : ℕ}

/-- SOURCE: user.rs:25 -/
def maxInitSize : ℕ := 4 * 1024 * 1024

/-- Neither of the unchecked sums overflows: the end of the first program header, and the end of the
last page of a segment. -/
def WellPlaced (image : List UInt8) : Prop :=
  (∀ header, elfHeader image = .ok (some header) → header.phnum = 0 ∨ header.phoff + 56 < 2 ^ 64) ∧
    ∀ seg ∈ elfSegments image, seg.vaddr + seg.memsz ≤ 2 ^ 64 - 4096

/-- The loader returned, or the memory manager stopped the kernel with a message of its own. -/
def NoFault (r : Except Fault (Option ℕ) × Machine) : Prop :=
  ∀ e m', r = (.error e, m') → ∃ text, e = .panic text

/-! ## Faults of the memory manager -/

/-- The allocator never faults. -/
theorem allocPage_supply (h : Supply 0 m.pmm) :
    ∃ page m', allocPage m = (.ok page, m') ∧ Supply 0 m'.pmm := by
  obtain ⟨j, p', halloc, -, -, hmark, hentries, -, hhint⟩ | ⟨halloc, -⟩ :=
    pmmAllocPage_spec h.length h.pos h.hint
  · have hbound := h.bound
    refine ⟨_, { m with pmm := p' }, by rw [allocPage, halloc], ?_, ?_, ?_, ?_, ∅, Nat.zero_le _, ?_⟩
    · rw [hmark, hentries, length_mark, h.length]
    · rw [hentries]
      exact h.pos
    · show p'.hint + p'.entries ≤ 2 ^ 64
      omega
    · rw [hentries]
      exact hbound
    · exact fun j hj => absurd hj (Finset.notMem_empty j)
  · exact ⟨_, m, by rw [allocPage, halloc], h⟩

/-- A routine of the memory manager: the allocator stays in order, and it only stops with a message. -/
def Managed {α : Type} (x : Kernel α) : Prop :=
  Prog.Triple (fun m => Supply 0 m.pmm) x (fun _ m => Supply 0 m.pmm) (fun e _ => ∃ text, e = .panic text)

theorem Managed.bind {α β : Type} {x : Kernel α} {f : α → Kernel β} (hx : Managed x)
    (hf : ∀ a, Managed (f a)) : Managed (x >>= f) :=
  fun m hm => (hx m hm).bind fun a m₁ h₁ => hf a m₁ h₁

theorem managed_pure {α : Type} (a : α) : Managed (pure a : Kernel α) := fun _ hm => Prog.ends_pure hm

theorem managed_panic {α : Type} (text : String) : Managed (Prog.fail (.panic text) : Kernel α) :=
  fun _ _ => Prog.ends_error.mpr ⟨text, rfl⟩

theorem managed_read {α : Type} (f : Machine → α) : Managed (Prog.read f : Kernel α) :=
  fun _ hm => Prog.ends_ok.mpr hm

/-- Writes to memory. -/
theorem managed_modify {f : Machine → Machine} (hf : ∀ m, (f m).pmm = m.pmm) :
    Managed (Prog.modify f : Kernel Unit) := by
  intro m hm
  apply Prog.ends_ok.mpr
  rw [hf]
  exact hm

theorem managed_writeEntry (table index value : ℕ) : Managed (writeEntry table index value) :=
  managed_modify fun _ => rfl

theorem managed_zeroFrame (frame : ℕ) : Managed (zeroFrame frame) := managed_modify fun _ => rfl

theorem managed_allocPage : Managed allocPage := by
  intro m hm
  obtain ⟨page, m', hrun, hsupply⟩ := allocPage_supply hm
  rw [hrun]
  exact Prog.ends_ok.mpr hsupply

theorem managed_ite {α : Type} {c : Prop} [Decidable c] {x y : Kernel α} (hx : Managed x)
    (hy : Managed y) : Managed (if c then x else y) := by
  split
  · exact hx
  · exact hy

/-- SOURCE: mm.rs:299-314 -/
theorem managed_ensureEntry (hugeText oomText : String) (flags table index : ℕ) :
    Managed (ensureEntry hugeText oomText flags table index) := by
  unfold ensureEntry
  refine Managed.bind (managed_read _) fun entry => managed_ite (managed_ite (managed_panic _) ?_) ?_
  · exact managed_ite (managed_writeEntry _ _ _) (managed_pure _)
  · refine managed_allocPage.bind fun page => managed_ite (managed_panic _) ?_
    exact (managed_writeEntry _ _ _).bind fun _ => managed_zeroFrame _

theorem managed_ensureTable (hugeText oomText : String) (flags table index : ℕ) :
    Managed (ensureTable hugeText oomText flags table index) := by
  unfold ensureTable
  exact (managed_ensureEntry _ _ _ _ _).bind fun _ => (managed_read _).bind fun _ => managed_pure _

/-- SOURCE: mm.rs:276-360 -/
theorem managed_vmmMapPageFlags (va pa flags : ℕ) : Managed (vmmMapPageFlags va pa flags) := by
  unfold vmmMapPageFlags ensurePath
  refine (managed_read _).bind fun pml4 => ?_
  cases pml4 with
  | none => exact managed_panic _
  | some pml4 =>
    refine managed_ite (managed_panic _) (Managed.bind ?_ fun pt => managed_writeEntry _ _ _)
    exact (managed_ensureTable _ _ _ _ _).bind fun _ => (managed_ensureTable _ _ _ _ _).bind fun _ =>
      managed_ensureTable _ _ _ _ _

/-- SOURCE: user.rs:277-288 -/
theorem managed_pageFrame (page : ℕ) : Managed (pageFrame page) := by
  unfold pageFrame
  refine (managed_read _).bind fun frame => managed_ite ?_ (managed_pure _)
  refine managed_allocPage.bind fun frame => managed_ite (managed_pure _) ?_
  exact (managed_zeroFrame _).bind fun _ => (managed_vmmMapPageFlags _ _ _).bind fun _ => managed_pure _

/-! ## Well placed images -/

/-- SOURCE: user.rs:263-311 -/
theorem mapSegment_managed (hend : seg.vaddr + seg.memsz ≤ 2 ^ 64 - 4096) :
    Managed (mapSegment image seg) := by
  intro m hm
  have hlast : seg.firstPage + 4096 * seg.pages < 2 ^ 64 := by
    have := lastPage_end seg
    omega
  unfold mapSegment
  rw [if_pos (by omega)]
  refine mapPages_rule (J := fun n page m => Supply 0 m.pmm ∧ page + 4096 * n < 2 ^ 64)
    (fun n page m h => ?_) (fun _ _ h => h.1) ⟨hm, hlast⟩
  refine (managed_pageFrame page m h.1).weaken (fun r m₁ h₁ => ?_) (fun _ _ h => h)
  cases r with
  | none => exact h₁
  | some frame =>
    have hnext := h.2
    obtain ⟨hover, -⟩ | ⟨-, m₂, hrun, -, hpmm, -⟩ := copyPage_cases image seg page frame m₁
    · omega
    · dsimp only
      rw [hrun]
      refine Prog.ends_ok.mpr ⟨hpmm ▸ h₁, ?_⟩
      rw [show pageSize = 4096 from rfl]
      omega

/-- Behind a header in the image the next one cannot overflow. -/
theorem segmentAt_no_error (hlen : image.length ≤ maxInitSize) {header : ElfHeader}
    (hheader : elfHeader image = .ok (some header)) (hfirst : header.phoff + 56 < 2 ^ 64)
    (hpassed : ∀ j < k, HeaderPassed image header j) (e : Fault) : segmentAt image header k ≠ .error e := by
  have hsize : header.phentsize < 2 ^ 16 := by
    obtain ⟨r, hr, hfields⟩ := elfHeader_spec image
    rw [hheader] at hr
    rw [(hfields header (Except.ok.inj hr).symm).2.2.1]
    exact Bytes.getLE_lt _ 54 2
  have hsum : header.phoff + k * header.phentsize + 56 < 2 ^ 64 := by
    cases k with
    | zero => omega
    | succ k =>
      obtain ⟨action, haction, hgo⟩ := hpassed k (Nat.lt_succ_self k)
      rw [segmentAt_eq] at haction
      split at haction
      · obtain rfl := Except.ok.inj haction
        unfold headerAction at hgo
        have hin : ¬image.length < header.phoff + k * header.phentsize + 56 := by
          intro hc
          rw [if_pos hc] at hgo
          exact hgo rfl
        unfold maxInitSize at hlen
        rw [Nat.succ_mul]
        omega
      · cases haction
  rw [segmentAt_eq, if_pos hsum]
  exact nofun

theorem loadElf_noFault (hlen : image.length ≤ maxInitSize) (hplaced : WellPlaced image)
    (h : Supply 0 m.pmm) : NoFault (loadElf image m) := by
  have hends : Prog.Ends (fun _ m' => Supply 0 m'.pmm) (fun e _ => ∃ text, e = .panic text)
      (loadElf image m) := by
    refine loadElf_rule (I := fun segs m' => (∀ seg ∈ segs, seg.vaddr + seg.memsz ≤ 2 ^ 64 - 4096) ∧
      Supply 0 m'.pmm) (fun seg rest m₁ _ h₁ => ?_) (fun _ h => h.2) (fun _ _ _ h => h.2)
      (fun header hheader k hk e he hpassed => ?_) ⟨hplaced.2, h⟩
    · obtain ⟨hend, hsupply⟩ := h₁
      refine (mapSegment_managed (hend seg List.mem_cons_self) m₁ hsupply).weaken (fun ok m₂ h₂ => ?_)
        (fun _ _ h => h)
      cases ok with
      | false => exact h₂
      | true => exact ⟨fun seg' hseg' => hend seg' (List.mem_cons_of_mem _ hseg'), h₂⟩
    · have hfirst := (hplaced.1 header hheader).resolve_left (by omega)
      exact absurd he (segmentAt_no_error hlen hheader hfirst hpassed e)
  exact fun e m' hrun => hends.error hrun

/-! ## The other images -/

/-- `PML4` is in frame 1 and all its entries lead to frame 2, where every entry is a 1 GiB page at
1 GiB. -/
def fullEntry (n _j : ℕ) : ℕ := if n = 1 then 0x2003 else if n = 2 then 0x40000083 else 0

def fullMachine : Machine where
  mem a := UInt8.ofNat (fullEntry (a / 4096) (a % 4096 / 8) / 256 ^ (a % 8))
  pmm := ⟨0, 1, [BitVec.allOnes 64], 0⟩
  pml4 := some (4096 * 1)

theorem supply_fullMachine : Supply 0 fullMachine.pmm := by
  refine ⟨rfl, Nat.one_pos, by decide, by decide, ∅, Nat.zero_le _, ?_⟩
  exact fun j hj => absurd hj (Finset.notMem_empty j)

/-- The tables are still those of `fullMachine`. -/
structure AllMapped (m : Machine) : Prop where
  pml4 : m.pml4 = some (4096 * 1)
  bytes : ∀ b < 2 ^ 30, m.mem b = fullMachine.mem b

theorem AllMapped.cell (h : AllMapped m) {n : ℕ} (hn : n < 2 ^ 18) (j : Fin 512) :
    tableCell m.mem n j = fullEntry n j := by
  have hlt : ∀ n j, fullEntry n j < 2 ^ 64 := by
    intro n j
    unfold fullEntry
    split_ifs <;> omega
  have hfull : tableCell fullMachine.mem n j = fullEntry n j := tableCell_entries hlt (fun _ => rfl) n j
  rw [← hfull]
  apply tableCell_of_bytes
  intro b hb
  apply h.bytes
  omega

theorem AllMapped.virtToPhys (h : AllMapped m) (va : ℕ) :
    2 ^ 18 ≤ vmmVirtToPhys m va / 4096 ∧ vmmVirtToPhys m va / 4096 < 2 ^ 19 := by
  have hroot : tableRef (tableCell m.mem 1 (idx4 va)) = some 2 := by
    rw [h.cell (by omega), show fullEntry 1 (idx4 va) = 0x2003 from rfl]
    decide
  have hcell : tableCell m.mem 2 (idx3 va) = 0x40000083 := h.cell (by omega) _
  have href : tableRef (tableCell m.mem 2 (idx3 va)) = none := by
    rw [hcell]
    rfl
  rw [vmmVirtToPhys_eq h.pml4, vaPath, walk, hroot]
  dsimp only
  rw [walk, href, hcell]
  exact translate_gigabyte va

theorem AllMapped.pageFrame (h : AllMapped m) (page : ℕ) :
    pageFrame page m = (.ok (some (vmmVirtToPhys m page)), m) := by
  have hne : vmmVirtToPhys m page ≠ vmmNoPhys := by
    have := (h.virtToPhys page).2
    exact vmmNoPhys_ne (by omega)
  unfold Model.pageFrame
  rw [Prog.bind_ok (Prog.read_apply _ m), if_neg hne]
  rfl

/-- SOURCE: user.rs:263-311 -/
theorem AllMapped.mapSegment (h : AllMapped m) (hend : seg.vaddr + seg.memsz < 2 ^ 64)
    (hpos : 0 < seg.memsz) :
    Prog.Ends (fun ok m' => ok = true ∧ AllMapped m' ∧ seg.vaddr + seg.memsz ≤ 2 ^ 64 - 4096)
      (fun e _ => e = .overflow) (mapSegment image seg m) := by
  have hsize : pageSize = 4096 := rfl
  have hpages : 0 < seg.pages ∧ seg.vaddr + seg.memsz ≤ seg.firstPage + 4096 * seg.pages := by
    unfold Segment.pages Segment.firstPage
    rw [hsize]
    omega
  unfold Model.mapSegment
  rw [if_pos hend]
  -- at a page the end of the one before has been computed
  refine mapPages_rule (J := fun n page m => AllMapped m ∧
      page + 4096 * n = seg.firstPage + 4096 * seg.pages ∧ (n < seg.pages → page < 2 ^ 64))
    (fun n page m h => ?_) (fun page m h => ?_) ⟨h, rfl, fun hc => absurd hc (lt_irrefl _)⟩
  · obtain ⟨hall, hleft, -⟩ := h
    rw [hall.pageFrame page]
    apply Prog.ends_ok.mpr
    have hfar := (hall.virtToPhys page).1
    obtain ⟨-, hrun⟩ | ⟨hlt, m₂, hrun, hpml4, -, hbyte⟩ :=
      copyPage_cases image seg page (vmmVirtToPhys m page) m
    · dsimp only
      rw [hrun]
      exact Prog.ends_error.mpr rfl
    · dsimp only
      rw [hrun]
      refine Prog.ends_ok.mpr ⟨⟨hpml4.trans hall.pml4, fun b hb => ?_⟩, ?_, fun _ => ?_⟩
      · rw [hbyte b (Or.inl (by omega))]
        exact hall.bytes b hb
      · rw [hsize]
        omega
      · rw [hsize]
        exact hlt
  · obtain ⟨hall, hleft, hlt⟩ := h
    have hstop := hlt hpages.1
    have haligned := firstPage_aligned seg
    exact ⟨rfl, hall, by omega⟩

/-- A first header at the end of the address space stops the kernel, on any machine. -/
theorem loadElf_high_header {header : ElfHeader} (hheader : elfHeader image = .ok (some header))
    (hnum : header.phnum ≠ 0) (hfirst : 2 ^ 64 ≤ header.phoff + 56) (m : Machine) :
    loadElf image m = (.error .overflow, m) := by
  obtain ⟨n, hn⟩ := Nat.exists_eq_succ_of_ne_zero hnum
  have hat : segmentAt image header 0 = .error .overflow := by
    rw [segmentAt_eq, if_neg (by omega)]
  unfold loadElf
  rw [hheader, Prog.bind_ok (Prog.lift_apply _ m)]
  dsimp only
  rw [hn, loadSegments, hat, Prog.bind_error (Prog.lift_apply _ m)]

/-- On `fullMachine` an image that is not well placed stops the kernel. -/
theorem loadElf_fullMachine (image : List UInt8) :
    Prog.Ends (fun _ _ => WellPlaced image) (fun e _ => e = .overflow) (loadElf image fullMachine) := by
  by_cases hfirst : ∀ header, elfHeader image = .ok (some header) →
      header.phnum = 0 ∨ header.phoff + 56 < 2 ^ 64
  case neg =>
    push Not at hfirst
    obtain ⟨header, hheader, hnum, hhigh⟩ := hfirst
    rw [loadElf_high_header hheader hnum hhigh]
    exact Prog.ends_error.mpr rfl
  -- the segments that are done are well placed
  let I : List Segment → Machine → Prop := fun segs m => AllMapped m ∧ (∀ seg ∈ segs, 0 < seg.memsz) ∧
    ∀ seg ∈ elfSegments image, seg ∈ segs ∨ seg.vaddr + seg.memsz ≤ 2 ^ 64 - 4096
  have hnil : ∀ m, I [] m → WellPlaced image := fun m h =>
    ⟨hfirst, fun seg hseg => (h.2.2 seg hseg).resolve_left (List.not_mem_nil)⟩
  refine loadElf_rule (I := I) (fun seg rest m hend h => ?_) hnil (fun _ _ => hnil)
    (fun header _ k _ e he _ _ _ => ?_) ⟨⟨rfl, fun _ _ => rfl⟩, fun seg hseg => ?_, fun seg hseg => Or.inl hseg⟩
  · obtain ⟨hall, hpos, hplaced⟩ := h
    refine (hall.mapSegment hend (hpos seg List.mem_cons_self)).weaken (fun ok m₁ h₁ => ?_) (fun _ _ h => h)
    obtain ⟨rfl, hall₁, hlast⟩ := h₁
    refine ⟨hall₁, fun seg' hseg' => hpos seg' (List.mem_cons_of_mem _ hseg'), fun seg' hseg' => ?_⟩
    obtain hmem | hdone := hplaced seg' hseg'
    · rcases List.mem_cons.mp hmem with rfl | hmem
      · exact Or.inr hlast
      · exact Or.inl hmem
    · exact Or.inr hdone
  · rw [segmentAt_eq] at he
    split at he
    · cases he
    · exact (Except.error.inj he).symm
  · exact (elfSegments_map hseg).2.2.1

/-! ## Enough memory -/

/-- The tables are a tree, no entry of `PML4` is marked as a page (the bit is reserved there), and `k`
frames are free. -/
structure Supplied (root k : ℕ) (m : Machine) : Prop where
  tree : TableTree m root
  fresh : FramesFresh m root
  plain : ∀ j, tableCell m.mem root j &&& ptePresent ≠ 0 → tableCell m.mem root j &&& pteHuge = 0
  supply : Supply k m.pmm

theorem Supplied.mono {k' : ℕ} (h : Supplied root k m) (hle : k' ≤ k) : Supplied root k' m :=
  { h with supply := h.supply.mono hle }

/-- Below `PML4`, an entry on the way to an address that is not mapped is no huge page. -/
theorem small_of_unmapped {va t : ℕ} {p r : List (Fin 512)} {i : Fin 512} (hroot : m.pml4 = some (4096 * root))
    (hva : vmmVirtToPhys m va = vmmNoPhys) (hpath : vaPath va = p ++ i :: r) (hdeep : p ≠ [])
    (hp : tableAt m root p = some t) (hpresent : tableCell m.mem t i &&& ptePresent ≠ 0) :
    tableCell m.mem t i &&& pteHuge = 0 := by
  by_contra hhuge
  have href : tableRef (tableCell m.mem t i) = none := if_neg fun hc => hhuge hc.2
  have hlen := congrArg List.length hpath
  rw [length_vaPath, List.length_append, List.length_cons] at hlen
  have hpos := List.length_pos_iff.mpr hdeep
  rw [vmmVirtToPhys_eq hroot, hpath, walk_append hp, walk, href] at hva
  exact vmmNoPhys_ne (translate_present va (by omega) hpresent).2.1 hva

/-- SOURCE: mm.rs:298-354 -/
theorem Supplied.ensurePath {va : ℕ} (h : Supplied root (k + 3) m) (flags : ℕ)
    (hva : vmmVirtToPhys m va = vmmNoPhys) :
    ∃ n m', ensurePath flags (4096 * root) va m = (.ok (4096 * n), m') ∧ Supplied root k m' ∧
      tableAt m' root (vaPath va) = some n := by
  -- one level: the tables grow, so the address stays unmapped
  have hlevel : ∀ {k p t} (i : Fin 512) (r : List (Fin 512)) {m : Machine} (hugeText oomText : String),
      Supplied root (k + 1) m → vmmVirtToPhys m va = vmmNoPhys → vaPath va = p ++ i :: r →
      tableAt m root p = some t →
      ∃ t' m', ensureTable hugeText oomText flags (4096 * t) i m = (.ok (4096 * t'), m') ∧
        Supplied root k m' ∧ vmmVirtToPhys m' va = vmmNoPhys ∧ tableAt m' root (p ++ [i]) = some t' := by
    intro k p t i r m hugeText oomText h hva hpath hp
    have hlen : p.length < 3 := by
      have := congrArg List.length hpath
      rw [length_vaPath, List.length_append, List.length_cons] at this
      omega
    have hsmall : tableCell m.mem t i &&& ptePresent ≠ 0 → tableCell m.mem t i &&& pteHuge = 0 := by
      by_cases hnil : p = []
      · subst hnil
        obtain rfl := Option.some.inj hp
        exact h.plain i
      · exact small_of_unmapped h.tree.pml4 hva hpath hnil hp
    obtain ⟨t', m', hrun, hstep, hsupply⟩ :=
      h.supply.ensureTable h.fresh hp hlen hugeText oomText flags
        (fun _ => le_refl 1) hsmall
    obtain ⟨hgrows, hat⟩ := hstep.grows h.tree h.fresh hp hlen
    refine ⟨t', m', hrun, ⟨hgrows.tree, hgrows.fresh, fun j => ?_, hsupply⟩, (hgrows.same va).trans hva, hat⟩
    exact hstep.small h.tree h.fresh hp hlen (q := []) (by simp) rfl fun _ => h.plain j
  obtain ⟨t₁, m₁, h₄, hs₁, hva₁, hat₁⟩ := hlevel (p := []) (idx4 va) [idx3 va, idx2 va]
    "vmm_map_page: PML4 entry covers 512GiB, split it first"
    "vmm_map_page: out of memory allocating a PML4 entry" h hva rfl rfl
  obtain ⟨t₂, m₂, h₃, hs₂, hva₂, hat₂⟩ := hlevel (idx3 va) [idx2 va]
    "vmm_map_page: PDPT entry covers 1GiB, split it first"
    "vmm_map_page: out of memory allocating a PDPT entry" hs₁ hva₁ rfl hat₁
  obtain ⟨t₃, m₃, h₂, hs₃, -, hat₃⟩ := hlevel (idx2 va) []
    "vmm_map_page: PD entry covers 2MiB, split it first"
    "vmm_map_page: out of memory allocating a PD entry" hs₂ hva₂ rfl hat₂
  exact ⟨t₃, m₃, (Prog.bind_ok h₄).trans ((Prog.bind_ok h₃).trans h₂), hs₃, hat₃⟩

theorem Supplied.mapUserPage {va pa : ℕ} (h : Supplied root (k + 3) m) (hva : va % 4096 = 0)
    (hpa : pa % 4096 = 0) (hnone : vmmVirtToPhys m va = vmmNoPhys) :
    ∃ m', vmmMapUserPage va pa m = (.ok (), m') ∧ Supplied root k m' := by
  obtain ⟨n, m₁, hpath, hs₁, hat⟩ := h.ensurePath (ptePresent ||| pteWritable ||| pteUser) hnone
  obtain ⟨v, hv, hrun⟩ := vmmMapUserPage_of_path h.tree.pml4 hva hpa hpath
  refine ⟨_, hrun, (withLeaf_spec hs₁.tree hat hv).1, fun j hj => ⟨(hs₁.fresh j hj).1, fun q hq => ?_⟩,
    fun j => ?_, hs₁.supply⟩
  · rw [tableAt_withLeaf hs₁.tree hat q hq]
    exact (hs₁.fresh j hj).2 q hq
  · rw [withLeaf_interior hs₁.tree hat hv (q := []) (by simp) rfl]
    exact hs₁.plain j

/-- SOURCE: user.rs:277-288 -/
theorem Supplied.pageFrame (h : Supplied root (k + 4) m) (hpage : page % 4096 = 0) :
    ∃ f m', pageFrame page m = (.ok (some f), m') ∧ Supplied root k m' := by
  unfold Model.pageFrame
  rw [Prog.bind_ok (Prog.read_apply _ m)]
  by_cases hnone : vmmVirtToPhys m page = vmmNoPhys
  case neg =>
    rw [if_neg hnone]
    exact ⟨_, m, rfl, h.mono (by omega)⟩
  rw [if_pos hnone]
  obtain ⟨j, m₁, halloc, hmem, hpml4, hfree, hmark, hsupply⟩ := h.supply.alloc
  have hne : 4096 * j ≠ pmmNoPage := by
    have := (h.fresh j hfree).1
    unfold pmmNoPage
    omega
  obtain ⟨m₂, hzero, hpmm, hzeroed⟩ := zeroed_of_alloc h.tree h.fresh hmem hpml4 hfree hmark
  have hs₂ : Supplied root (k + 3) m₂ := by
    refine ⟨hzeroed.tree, hzeroed.fresh, fun i => ?_, hpmm ▸ hsupply⟩
    rw [hzeroed.cell (q := []) (by simp) rfl]
    exact h.plain i
  obtain ⟨m₃, hmap, hs₃⟩ := hs₂.mapUserPage hpage (show 4096 * j % 4096 = 0 by omega)
    ((hzeroed.same page).trans hnone)
  refine ⟨4096 * j, m₃, ?_, hs₃⟩
  rw [Prog.bind_ok halloc, if_neg hne, Prog.bind_ok hzero, Prog.bind_ok hmap]
  rfl

/-- Copying into a page of the program. -/
theorem Supplied.writes {f : ℕ} (h : Supplied root k m) (hpages : PrivatePages root m)
    (hpages' : PrivatePages root m') (hlow : lowerHalf page) (hf : vmmVirtToPhys m page = 4096 * f)
    (hphysical : f < 2 ^ 40) (hw : WritesFrame f m m') : Supplied root k m' := by
  refine ⟨hpages'.tree, hpages'.fresh, fun j => ?_, hw.pmm ▸ h.supply⟩
  have hcell : tableCell m'.mem root j = tableCell m.mem root j := by
    refine tableCell_of_bytes (fun b hb => hw.bytes b ?_) j
    rw [hb]
    rintro rfl
    have hmapped : vmmVirtToPhys m page ≠ vmmNoPhys := by
      rw [hf]
      exact vmmNoPhys_ne (by omega)
    refine hpages.no_table page hlow hmapped [] (by simp) ?_
    rw [hf, Nat.mul_div_cancel_left _ (by omega)]
    rfl
  rw [hcell]
  exact h.plain j

/-- SOURCE: user.rs:263-311 -/
theorem Supplied.mapSegment {m₀ : Machine} (h : Supplied root (k + 4 * seg.pages) m)
    (hloading : Loading root m₀ m) (hlow : LowerSegment seg) :
    Prog.Ends (fun ok m' => ok = true ∧ Supplied root k m' ∧ Loading root m₀ m') (fun _ _ => False)
      (mapSegment image seg m) := by
  have hsize : pageSize = 4096 := rfl
  have hend := lastPage_end seg
  have haligned := firstPage_aligned seg
  unfold LowerSegment at hlow
  unfold Model.mapSegment
  rw [if_pos (by omega)]
  refine mapPages_rule (J := fun n page m => Supplied root (k + 4 * n) m ∧ Loading root m₀ m ∧
      page % 4096 = 0 ∧ page + 4096 * n ≤ 2 ^ 47) (fun n page m h => ?_)
    (fun page m h => ⟨rfl, h.1, h.2.1⟩) ⟨h, hloading, haligned, by omega⟩
  obtain ⟨hs, hloading, hpage, hlast⟩ := h
  have hpagelow : lowerHalf page := by
    unfold lowerHalf
    omega
  obtain ⟨frame, m₁, hrun, hs₁⟩ := (hs.mono (show k + 4 * n + 4 ≤ k + 4 * (n + 1) by omega)).pageFrame hpage
  obtain ⟨hnone, -⟩ | ⟨f, hf, hloading₁, hphys, hphysical, -⟩ := pageFrame_ok hloading hpage hpagelow hrun
  · cases hnone
  · obtain rfl := Option.some.inj hf
    rw [hrun]
    apply Prog.ends_ok.mpr
    obtain ⟨hover, -⟩ | ⟨-, m₂, hcopy, -⟩ := copyPage_cases image seg page (4096 * f) m₁
    · omega
    · have hw := (copyPage_writes hpage hcopy).1
      have hloading₂ := (copyPage_ok hloading₁ hpage hpagelow hphys hphysical hcopy).1
      dsimp only
      rw [hcopy]
      refine Prog.ends_ok.mpr
        ⟨hs₁.writes hloading₁.pages hloading₂.pages hpagelow hphys hphysical hw, hloading₂, ?_, ?_⟩
      · rw [hsize]
        omega
      · rw [hsize]
        omega

/-- How many pages the segments of an image touch, each counted as often as it is touched. -/
def imagePages (image : List UInt8) : ℕ := ((elfSegments image).map Segment.pages).sum

/-- With four frames for every page, a well placed image for the lower half is loaded or refused. -/
theorem loadElf_returns (hlen : image.length ≤ maxInitSize) (hplaced : WellPlaced image)
    (hlow : LowerImage image) (hpages : PrivatePages root m)
    (hs : Supplied root (4 * imagePages image) m) : ∃ r m', loadElf image m = (.ok r, m') := by
  have hends : Prog.Ends (fun _ _ => True) (fun _ _ => False) (loadElf image m) := by
    refine loadElf_rule (I := fun segs m' => (∀ seg ∈ segs, LowerSegment seg) ∧ Loading root m m' ∧
        Supplied root (4 * (segs.map Segment.pages).sum) m')
      (fun seg rest m₁ _ h₁ => ?_) (fun _ _ => trivial) (fun _ _ _ _ => trivial)
      (fun header hheader k hk e he hpassed => ?_) ⟨hlow.segments, Loading.start hpages, hs⟩
    · obtain ⟨hlow, hloading, hs⟩ := h₁
      rw [List.map_cons, List.sum_cons, Nat.mul_add, Nat.add_comm] at hs
      refine (hs.mapSegment hloading (hlow seg List.mem_cons_self)).weaken (fun ok m₂ h₂ => ?_)
        (fun _ _ h => h)
      obtain ⟨rfl, hs₂, hloading₂⟩ := h₂
      exact ⟨fun seg' hseg' => hlow seg' (List.mem_cons_of_mem _ hseg'), hloading₂, hs₂⟩
    · have hfirst := (hplaced.1 header hheader).resolve_left (by omega)
      exact absurd he (segmentAt_no_error hlen hheader hfirst hpassed e)
  cases hrun : loadElf image m with
  | mk r m' =>
    cases r with
    | ok r => exact ⟨r, m', rfl⟩
    | error e => exact absurd (hends.error hrun) id

/-! ## All images -/

/-- **Totality of the loader.**  For an image of at most `MAX_INIT_SIZE` bytes, `load_elf` is free of
faults on every machine exactly if the image is well placed.  What it copies from the image is always in
the image, and with enough memory it returns. -/
theorem load_elf_total_iff (hlen : image.length ≤ maxInitSize) :
    ((∀ m, Supply 0 m.pmm → NoFault (loadElf image m)) ↔ WellPlaced image) ∧
    (∀ seg ∈ elfSegments image, seg.offset + seg.filesz ≤ image.length) ∧
    (WellPlaced image → LowerImage image → ∀ m root, PrivatePages root m →
      Supplied root (4 * imagePages image) m → ∃ r m', loadElf image m = (.ok r, m')) := by
  refine ⟨⟨fun htotal => ?_, fun hplaced m hm => loadElf_noFault hlen hplaced hm⟩,
    fun seg hseg => (elfSegments_map hseg).2.1,
    fun hplaced hlow m root hpages hs => loadElf_returns hlen hplaced hlow hpages hs⟩
  have hends := loadElf_fullMachine image
  cases hrun : loadElf image fullMachine with
  | mk r m' =>
    cases r with
    | ok r => exact hends.ok hrun
    | error e =>
      obtain ⟨text, htext⟩ := htotal fullMachine supply_fullMachine e m' hrun
      rw [hends.error hrun] at htext
      cases htext

/-- The sample image is well placed. -/
theorem load_elf_total_two_bytes :
    twoBytes.length ≤ maxInitSize ∧ WellPlaced twoBytes ∧ NoFault (loadElf twoBytes fullMachine) := by
  have hheader : elfHeader twoBytes = .ok (some ⟨0x400000, 64, 56, 1⟩) ∧
      elfSegments twoBytes = [⟨0, 0x400000, 1, 2⟩] ∧ twoBytes.length ≤ maxInitSize := by
    decide +kernel
  obtain ⟨hheader, hsegs, hlen⟩ := hheader
  have hplaced : WellPlaced twoBytes := by
    refine ⟨fun header h => ?_, fun seg hseg => ?_⟩
    · rw [hheader] at h
      obtain rfl := Option.some.inj (Except.ok.inj h)
      exact Or.inr (by simp)
    · rw [hsegs] at hseg
      obtain rfl := List.mem_singleton.mp hseg
      decide
  exact ⟨hlen, hplaced, (load_elf_total_iff hlen).1.mpr hplaced fullMachine supply_fullMachine⟩

/-- One segment on the last page of the address space, or a header table behind its end: the kernel stops
in the middle of the load. -/
theorem load_elf_overflows :
    (elfImage 64 [⟨0, 0xFFFFFFFFFFFFF000, 0, 0xFFF⟩]).length = 120 ∧
    (loadElf (elfImage 64 [⟨0, 0xFFFFFFFFFFFFF000, 0, 0xFFF⟩]) eightFrames.machine).1 = .error .overflow ∧
    (elfImage 0xFFFFFFFFFFFFFFFF [⟨0, 0x400000, 1, 2⟩]).length = 120 ∧
    (loadElf (elfImage 0xFFFFFFFFFFFFFFFF [⟨0, 0x400000, 1, 2⟩]) eightFrames.machine).1 =
      .error .overflow := by
  decide +kernel

end Pinx.Analysis
