import Pinx.Analysis.HalvesApart
import Pinx.Model.Loader

/-!
# The loader and the upper half

`map_segment` has no check on the addresses a program header asks for: a page whose
address has bit 47 set is walked, mapped and written in the upper half.  The loader
leaves the upper half alone exactly for images none of whose segments has such a page
(`load_keeps_upper_iff`).
-/

namespace Pinx.Analysis

open Pinx.Foundation Pinx.Foundation.WordBitmap Pinx.Foundation.RadixTree Pinx.Model

/-- The segments `load_elf` maps from header `i` on, if none runs out of memory: it stops
at the first header it rejects and at the first segment whose end overflows. -/
def plannedSegments (image : List UInt8) (h : ElfHeader) : ℕ → ℕ → List Segment
  | 0, _ => []
  | n + 1, i =>
    match segmentAt image h i with
    | .ok .skip => plannedSegments image h n (i + 1)
    | .ok (.map seg) =>
      if seg.vaddr + seg.memsz < 2 ^ 64 then seg :: plannedSegments image h n (i + 1) else []
    | _ => []

/-- The segments of an image that `load_elf` gets to. -/
def elfSegments (image : List UInt8) : List Segment :=
  match elfHeader image with
  | .ok (some h) => plannedSegments image h h.phnum 0
  | _ => []

/-! ## The loops of the loader -/

theorem readImage_ok {image : List UInt8} {offset n : ℕ} (h : offset + n ≤ image.length) :
    readImage image offset n = .ok ((imageBytes image).getLE offset n) := if_pos h

/-- Reading the ELF header never faults, and gives the fields at their places. -/
theorem elfHeader_spec (image : List UInt8) :
    ∃ r, elfHeader image = .ok r ∧ ∀ header, r = some header →
      header.entry = (imageBytes image).getLE 24 8 ∧ header.phoff = (imageBytes image).getLE 32 8 ∧
      header.phentsize = (imageBytes image).getLE 54 2 ∧
      header.phnum = (imageBytes image).getLE 56 2 ∧ 56 ≤ header.phentsize := by
  unfold elfHeader
  by_cases hlen : image.length < 64
  · rw [if_pos hlen]
    exact ⟨none, rfl, nofun⟩
  rw [if_neg hlen, readImage_ok (by omega), readImage_ok (by omega), readImage_ok (by omega),
    readImage_ok (by omega), readImage_ok (by omega), readImage_ok (by omega)]
  dsimp only [bind, Except.bind, pure, Except.pure]
  split_ifs with hmagic htype hsize
  · exact ⟨none, rfl, nofun⟩
  · exact ⟨none, rfl, nofun⟩
  · exact ⟨none, rfl, nofun⟩
  refine ⟨_, rfl, fun header hheader => ?_⟩
  obtain rfl := Option.some.inj hheader
  exact ⟨rfl, rfl, rfl, rfl, Nat.le_of_not_lt hsize⟩

/-- The header loop goes on past header `k`. -/
def HeaderPassed (image : List UInt8) (header : ElfHeader) (k : ℕ) : Prop :=
  ∃ action, segmentAt image header k = .ok action ∧ action ≠ .giveUp

section Rules

variable {image : List UInt8} {seg : Segment} {I : List Segment → Machine → Prop}
  {Q : Option ℕ → Machine → Prop} {E : Fault → Machine → Prop} {m : Machine}

/-- An invariant of the page loop, with the number of pages left and the next page. -/
theorem mapPages_rule {J : ℕ → ℕ → Machine → Prop} {R : Bool → Machine → Prop} {n page : ℕ}
    (hpage : ∀ n page m, J (n + 1) page m → Prog.Ends (fun r m₁ => match r with
      | none => R false m₁
      | some frame => Prog.Ends (fun _ m₂ => J n (page + pageSize) m₂) E
          (copyPage image seg page frame m₁)) E (pageFrame page m))
    (hdone : ∀ page m, J 0 page m → R true m) (h : J n page m) :
    Prog.Ends R E (mapPages image seg n page m) := by
  induction n generalizing page m with
  | zero => exact Prog.ends_pure (hdone page m h)
  | succ n ih =>
    unfold mapPages
    refine (hpage n page m h).bind fun r m₁ h₁ => ?_
    cases r with
    | none => exact Prog.ends_pure h₁
    | some frame => exact h₁.bind fun _ m₂ h₂ => ih h₂

/-- An invariant of the header loop, with the segments that are left. -/
theorem loadSegments_rule {header : ElfHeader} {n i : ℕ}
    (hmap : ∀ seg rest m, seg.vaddr + seg.memsz < 2 ^ 64 → I (seg :: rest) m → Prog.Ends
      (fun ok m' => if ok = true then I rest m' else Q none m') E (mapSegment image seg m))
    (hnone : ∀ m, I [] m → Q none m) (hdone : ∀ m, I [] m → Q (some header.entry) m)
    (herror : ∀ k < n, ∀ e, segmentAt image header (i + k) = .error e →
      (∀ j < k, HeaderPassed image header (i + j)) → ∀ m, I [] m → E e m)
    (h : I (plannedSegments image header n i) m) :
    Prog.Ends Q E (loadSegments image header n i m) := by
  induction n generalizing i m with
  | zero => exact Prog.ends_pure (hdone m h)
  | succ n ih =>
    unfold loadSegments
    unfold plannedSegments at h
    cases haction : segmentAt image header i with
    | error e =>
      rw [Prog.bind_error (Prog.lift_apply _ m)]
      rw [haction] at h
      exact Prog.ends_error.mpr (herror 0 (Nat.succ_pos n) e haction (fun j hj => by omega) m h)
    | ok action =>
      rw [Prog.bind_ok (Prog.lift_apply _ m)]
      rw [haction] at h
      have hrest : action ≠ .giveUp → ∀ {m}, I (plannedSegments image header n (i + 1)) m →
          Prog.Ends Q E (loadSegments image header n (i + 1) m) := by
        intro hgo m h
        refine ih (fun k hk e he hpassed => ?_) h
        rw [Nat.add_assoc, Nat.add_comm 1] at he
        refine herror (k + 1) (Nat.succ_lt_succ hk) e he fun j hj => ?_
        cases j with
        | zero => exact ⟨action, haction, hgo⟩
        | succ j =>
          rw [Nat.add_comm j 1, ← Nat.add_assoc]
          exact hpassed j (Nat.lt_of_succ_lt_succ hj)
      cases action with
      | giveUp => exact Prog.ends_pure (hnone m h)
      | skip => exact hrest (by simp) h
      | map seg =>
        dsimp only at h ⊢
        by_cases hend : seg.vaddr + seg.memsz < 2 ^ 64
        · rw [if_pos hend] at h
          refine (hmap seg _ m hend h).bind fun ok m₁ h₁ => ?_
          cases ok with
          | false => exact Prog.ends_pure h₁
          | true => exact hrest (by simp) h₁
        · rw [if_neg hend] at h
          rw [Prog.bind_ok (show mapSegment image seg m = (.ok false, m) by
            rw [mapSegment, if_neg hend]
            rfl)]
          exact Prog.ends_pure (hnone m h)

/-- The same for `load_elf`. -/
theorem loadElf_rule
    (hmap : ∀ seg rest m, seg.vaddr + seg.memsz < 2 ^ 64 → I (seg :: rest) m → Prog.Ends
      (fun ok m' => if ok = true then I rest m' else Q none m') E (mapSegment image seg m))
    (hnone : ∀ m, I [] m → Q none m)
    (hdone : ∀ header, elfHeader image = .ok (some header) → ∀ m, I [] m → Q (some header.entry) m)
    (herror : ∀ header, elfHeader image = .ok (some header) → ∀ k < header.phnum, ∀ e,
      segmentAt image header k = .error e → (∀ j < k, HeaderPassed image header j) → ∀ m, I [] m → E e m)
    (h : I (elfSegments image) m) : Prog.Ends Q E (loadElf image m) := by
  unfold loadElf
  unfold elfSegments at h
  obtain ⟨r, hheader, -⟩ := elfHeader_spec image
  rw [hheader] at h ⊢
  rw [Prog.bind_ok (Prog.lift_apply _ m)]
  cases r with
  | none => exact Prog.ends_pure (hnone m h)
  | some header =>
    refine loadSegments_rule hmap hnone (hdone header hheader) (fun k hk e he hpassed => ?_) h
    simp only [Nat.zero_add] at he hpassed
    exact herror header hheader k hk e he hpassed

end Rules

/-- No page of the segment has address bit 47 set: every page is walked from the lower
half of `PML4`. -/
def LowerPages (seg : Segment) : Prop :=
  ∀ k < seg.pages, pml4Index (seg.firstPage + 4096 * k) < 256

theorem firstPage_aligned (seg : Segment) : seg.firstPage % 4096 = 0 := by
  simp only [Segment.firstPage, pageSize]
  omega

/-- The last page of a segment ends within a page of the segment's end. -/
theorem lastPage_end (seg : Segment) :
    seg.firstPage + 4096 * seg.pages ≤ seg.vaddr + seg.memsz + 4095 := by
  simp only [Segment.pages, Segment.firstPage, pageSize]
  omega

/-- Between the pages of a load that started in `m₀`. -/
def LowerInv (root : ℕ) (m₀ m : Machine) : Prop := HalvesApart m root ∧ UpperSame root m₀ m

/-- Translations only depend on the low 48 bits of an address. -/
theorem virtToPhys_mod {m : Machine} {root : ℕ} (hroot : m.pml4 = some (4096 * root)) (va : ℕ) :
    vmmVirtToPhys m (va % 2 ^ 48) = vmmVirtToPhys m va := by
  have hpage : pageOf (va % 2 ^ 48) = pageOf va := by
    unfold pageOf
    omega
  obtain ⟨hpath, hidx⟩ := List.append_inj' ((vaPath_eq_iff (va % 2 ^ 48) va).mpr hpage) rfl
  rw [vmmVirtToPhys_eq hroot, vmmVirtToPhys_eq hroot, hpath, List.singleton_inj.mp hidx]
  generalize walk tableRef (tableCell m.mem) root (vaPath va) (idx1 va) = r
  have h12 : va % 2 ^ 48 % pageSize = va % pageSize := by
    simp only [pageSize]
    omega
  have h21 : va % 2 ^ 48 / pageSize * pageSize % 2 ^ 21 = va / pageSize * pageSize % 2 ^ 21 := by
    simp only [pageSize]
    omega
  have h30 : va % 2 ^ 48 / pageSize * pageSize % 2 ^ 30 = va / pageSize * pageSize % 2 ^ 30 := by
    simp only [pageSize]
    omega
  unfold translate
  split <;> simp only [h12, h21, h30]

/-- A page translates to a whole frame. -/
theorem virtToPhys_aligned {m : Machine} {root page : ℕ} (hroot : m.pml4 = some (4096 * root))
    (hpage : page % 4096 = 0) (hmap : vmmVirtToPhys m page ≠ vmmNoPhys) :
    vmmVirtToPhys m page % 4096 = 0 := by
  have hmask : ∀ e mask, mask % 2 ^ 12 = 0 → (e &&& mask) % 2 ^ 12 = 0 := by
    intro e mask h
    rw [Nat.and_mod_two_pow, h, Nat.and_zero]
  rw [vmmVirtToPhys_eq hroot] at hmap ⊢
  generalize walk tableRef (tableCell m.mem) root (vaPath page) (idx1 page) = r at hmap ⊢
  unfold translate at hmap ⊢
  have hoff : page % pageSize = 0 := hpage
  have h21 : page / pageSize * pageSize % 2 ^ 21 % 2 ^ 12 = 0 := by
    simp only [pageSize]
    omega
  have h30 : page / pageSize * pageSize % 2 ^ 30 % 2 ^ 12 = 0 := by
    simp only [pageSize]
    omega
  split at hmap
  · split at hmap
    · exact absurd rfl hmap
    · rename_i hp
      rw [if_neg hp, show 4096 = 2 ^ 12 from rfl, Nat.or_mod_two_pow, hmask _ _ (by decide), hoff]
      rfl
  · split at hmap
    · exact absurd rfl hmap
    · rename_i hp
      rw [if_neg hp, show 4096 = 2 ^ 12 from rfl, Nat.or_mod_two_pow, Nat.or_mod_two_pow,
        hmask _ _ (by decide), hoff, h21]
      rfl
  · split at hmap
    · exact absurd rfl hmap
    · rename_i hp
      rw [if_neg hp, show 4096 = 2 ^ 12 from rfl, Nat.or_mod_two_pow, Nat.or_mod_two_pow,
        hmask _ _ (by decide), hoff, h30]
      rfl
  · exact absurd rfl hmap

theorem addU64_ok {a b c : ℕ} (h : addU64 a b = .ok c) : c = a + b := by
  unfold addU64 at h
  split at h
  · exact (Except.ok.inj h).symm
  · cases h

/-- What `pmm_alloc_page` does to the machine. -/
theorem allocPage_cases (m : Machine) :
    (∃ e, allocPage m = (.error e, m)) ∨ allocPage m = (.ok pmmNoPage, m) ∨
      ∃ j m', allocPage m = (.ok (4096 * j), m') ∧ m'.mem = m.mem ∧ m'.pml4 = m.pml4 ∧
        test m.pmm.words j = false ∧ m'.pmm.words = mark m.pmm.words j := by
  unfold allocPage
  cases halloc : pmmAllocPage m.pmm with
  | error e => exact Or.inl ⟨e, rfl⟩
  | ok r =>
    obtain ⟨page, pmm'⟩ := r
    obtain ⟨rfl, rfl⟩ | ⟨j, rfl, hfree, hmark⟩ := pmmAllocPage_ok halloc
    · exact Or.inr (Or.inl rfl)
    · refine Or.inr (Or.inr ⟨j, { m with pmm := pmm' }, ?_, rfl, rfl, hfree, hmark⟩)
      rw [Nat.mul_comm 4096 j]
      rfl

/-- `write_bytes` on a frame. -/
theorem zeroFrame_spec (j : ℕ) (m : Machine) :
    ∃ m', zeroFrame (4096 * j) m = (.ok (), m') ∧ m'.pml4 = m.pml4 ∧ m'.pmm = m.pmm ∧
      ∀ b, b / 4096 ≠ j → m'.mem b = m.mem b := by
  refine ⟨_, rfl, rfl, rfl, fun b hb => ?_⟩
  have hsize : pageSize = 4096 := rfl
  dsimp only
  apply Bytes.blit_outside
  omega

/-- What `copyPage` does to the machine: it writes inside the frame, unless the page is
the last one of the address space. -/
theorem copyPage_cases (image : List UInt8) (seg : Segment) (page frame : ℕ) (m : Machine) :
    (2 ^ 64 ≤ page + 4096 ∧ copyPage image seg page frame m = (.error .overflow, m)) ∨
      page + 4096 < 2 ^ 64 ∧ ∃ m', copyPage image seg page frame m = (.ok (), m') ∧
        m'.pml4 = m.pml4 ∧ m'.pmm = m.pmm ∧
        ∀ b, b < frame ∨ frame + 4096 ≤ b → m'.mem b = m.mem b := by
  unfold copyPage
  have hsize : pageSize = 4096 := rfl
  by_cases hend : page + pageSize < 2 ^ 64
  · have hadd : addU64 page pageSize = .ok (page + pageSize) := if_pos hend
    refine Or.inr ⟨hend, ?_⟩
    simp only [hadd]
    rw [Prog.bind_ok (Prog.lift_apply _ m)]
    simp only [Prog.ite_apply]
    split
    · refine ⟨_, rfl, rfl, rfl, fun b hb => ?_⟩
      dsimp only
      apply Bytes.blit_outside
      omega
    · exact ⟨m, rfl, rfl, rfl, fun _ _ => rfl⟩
  · have hadd : addU64 page pageSize = .error .overflow := if_neg hend
    refine Or.inl ⟨by omega, ?_⟩
    simp only [hadd]
    rw [Prog.bind_error (Prog.lift_apply _ m)]

section Pages

variable {root : ℕ} {m₀ : Machine} (hroot : m₀.pml4 = some (4096 * root))
include hroot

/-- One interior level of a lower address, in the middle of a load. -/
theorem triple_ensureTable {hugeText oomText : String} {flags t j : ℕ} {i : Fin 512}
    {p : List (Fin 512)} (hlen : p.length < 3) (hlow : LowerPath (p ++ [i])) :
    Prog.Triple (fun m => LowerInv root m₀ m ∧ tableAt m root p = some t ∧ InHand m root j)
      (ensureTable hugeText oomText flags (4096 * t) i)
      (fun r m => ∃ t', r = 4096 * t' ∧ LowerInv root m₀ m ∧
        tableAt m root (p ++ [i]) = some t' ∧ InHand m root j)
      (fun _ m => UpperSame root m₀ m) := by
  rintro m ⟨⟨hapart, hsame⟩, hp, hhand⟩
  cases hrun : ensureTable hugeText oomText flags (4096 * t) i m with
  | mk res m' =>
    cases res with
    | ok r =>
      obtain ⟨t', rfl, hstep⟩ :=
        ensureTable_ok (hapart.fresh.freeOf (Nat.le_of_lt hlen) hp) hrun
      obtain ⟨hapart', hsame', hhands⟩ := hapart.level hp hlen hlow hstep
      exact Prog.ends_ok.mpr ⟨t', rfl, ⟨hapart', hsame.trans hroot hsame'⟩,
        (hstep.grows hapart.tree hapart.fresh hp hlen).2, hhands j hhand⟩
    | error e =>
      have hmem : m'.mem = m.mem ∧ m'.pml4 = m.pml4 := by
        unfold ensureTable at hrun
        cases hentry : ensureEntry hugeText oomText flags (4096 * t) i m with
        | mk res₁ m₁ =>
          cases res₁ with
          | ok u =>
            rw [Prog.bind_ok hentry] at hrun
            cases hrun
          | error e' =>
            rw [Prog.bind_error hentry] at hrun
            cases hrun
            exact ensureEntry_error hentry
      refine Prog.ends_error.mpr (hsame.trans hroot ⟨hmem.2, fun _ _ _ _ => ?_, fun _ _ => ?_⟩) <;>
        rw [hmem.1]

/-- The interior levels of a lower address, in the middle of a load. -/
theorem triple_ensurePath {flags va j : ℕ} (hva : pml4Index va < 256) :
    Prog.Triple (fun m => LowerInv root m₀ m ∧ InHand m root j)
      (ensurePath flags (4096 * root) va)
      (fun pt m => ∃ n, pt = 4096 * n ∧ LowerInv root m₀ m ∧
        tableAt m root (vaPath va) = some n ∧ InHand m root j)
      (fun _ m => UpperSame root m₀ m) := by
  have hlow : ∀ q : List (Fin 512), LowerPath (idx4 va :: q) := by
    intro q i hi
    obtain rfl : idx4 va = i := Option.some.inj hi
    exact hva
  rintro m ⟨hinv, hhand⟩
  refine Prog.Ends.bind (triple_ensureTable hroot (i := idx4 va) (p := []) (by simp) (hlow _) m
    ⟨hinv, rfl, hhand⟩) ?_
  rintro _ m ⟨t₁, rfl, hinv, hat, hhand⟩
  refine Prog.Ends.bind (triple_ensureTable hroot (i := idx3 va) (p := [idx4 va]) (by simp)
    (hlow _) m ⟨hinv, hat, hhand⟩) ?_
  rintro _ m ⟨t₂, rfl, hinv, hat, hhand⟩
  exact triple_ensureTable hroot (i := idx2 va) (p := [idx4 va, idx3 va]) (by simp) (hlow _) m
    ⟨hinv, hat, hhand⟩

/-- Mapping a frame in hand at a lower address. -/
theorem triple_vmmMapUserPage {va j : ℕ} (hva : pml4Index va < 256) :
    Prog.Triple (fun m => LowerInv root m₀ m ∧ InHand m root j)
      (vmmMapUserPage va (4096 * j))
      (fun _ m => LowerInv root m₀ m ∧ MappedIn lowerHalf m j)
      (fun _ m => UpperSame root m₀ m) := by
  rintro m ⟨hinv, hhand⟩
  have hpml4 : (Prog.read Machine.pml4 : Kernel _) m = (.ok (some (4096 * root)), m) := by
    rw [Prog.read_apply, hinv.1.tree.pml4]
  unfold vmmMapUserPage vmmMapPageFlags
  rw [Prog.bind_ok hpml4]
  simp only [Prog.ite_apply]
  split
  · exact Prog.ends_error.mpr hinv.2
  · refine Prog.Ends.bind (triple_ensurePath hroot hva m ⟨hinv, hhand⟩) ?_
    rintro _ m ⟨n, rfl, hinv, hat, hhand⟩
    have hleaf := hinv.1.leaf hat hva hhand
      (show ptePresent ||| pteWritable ||| pteUser < 2 ^ 64 by decide) (by decide)
    rw [Nat.mul_comm j 4096] at hleaf
    exact Prog.ends_ok.mpr ⟨⟨hleaf.1, hinv.2.trans hroot hleaf.2.1⟩, hleaf.2.2⟩

/-- The frame behind a lower page, in the middle of a load. -/
theorem triple_pageFrame {page : ℕ} (hpage : page % 4096 = 0) (hva : pml4Index page < 256) :
    Prog.Triple (LowerInv root m₀) (pageFrame page)
      (fun r m => LowerInv root m₀ m ∧
        ∀ frame, r = some frame → ∃ f, frame = 4096 * f ∧ MappedIn lowerHalf m f)
      (fun _ m => UpperSame root m₀ m) := by
  rintro m ⟨hapart, hsame⟩
  have hread : (Prog.read fun m => vmmVirtToPhys m page : Kernel _) m =
      (.ok (vmmVirtToPhys m page), m) := rfl
  rw [pageFrame, Prog.bind_ok hread]
  by_cases hmap : vmmVirtToPhys m page = vmmNoPhys
  · rw [if_pos hmap]
    obtain ⟨e, halloc⟩ | halloc | ⟨j, m', halloc, hmem, hpml4, hfree, hmark⟩ := allocPage_cases m
    · rw [Prog.bind_error halloc]
      exact Prog.ends_error.mpr hsame
    · rw [Prog.bind_ok halloc, if_pos rfl]
      exact Prog.ends_pure ⟨⟨hapart, hsame⟩, fun _ h => nomatch h⟩
    · rw [Prog.bind_ok halloc]
      have hne : 4096 * j ≠ pmmNoPage := by
        unfold pmmNoPage
        omega
      rw [if_neg hne]
      -- the new frame is zeroed first and mapped then
      obtain ⟨m₁, hzero, hpml4₁, hpmm₁, hbyte⟩ := zeroFrame_spec j m'
      obtain ⟨hapart₁, hsame₁, hhand⟩ := hapart.take (hpml4₁.trans hpml4) hfree
        (by rw [hpmm₁, hmark]) fun b hb => by rw [hbyte b hb, hmem]
      rw [Prog.bind_ok hzero]
      have h₁ : LowerInv root m₀ m₁ ∧ InHand m₁ root j :=
        ⟨⟨hapart₁, hsame.trans hroot hsame₁⟩, hhand⟩
      refine Prog.Ends.bind (triple_vmmMapUserPage hroot hva m₁ h₁) fun _ m₂ h₂ => ?_
      exact Prog.ends_pure ⟨h₂.1, fun frame hframe => ⟨j, (Option.some.inj hframe).symm, h₂.2⟩⟩
  · rw [if_neg hmap]
    refine Prog.ends_pure ⟨⟨hapart, hsame⟩, fun frame hframe => ?_⟩
    obtain rfl := Option.some.inj hframe
    have haligned := virtToPhys_aligned hapart.tree.pml4 hpage hmap
    have hmod := virtToPhys_mod hapart.tree.pml4 page
    refine ⟨vmmVirtToPhys m page / 4096, by omega, page % 2 ^ 48, ?_, ?_, ?_⟩
    · unfold pml4Index at hva
      unfold lowerHalf
      omega
    · rwa [hmod]
    · rw [hmod]

/-- Copying file bytes into a page of the lower half. -/
theorem triple_copyPage {image : List UInt8} {seg : Segment} {page f : ℕ} :
    Prog.Triple (fun m => LowerInv root m₀ m ∧ MappedIn lowerHalf m f)
      (copyPage image seg page (4096 * f)) (fun _ m => LowerInv root m₀ m)
      (fun _ m => UpperSame root m₀ m) := by
  rintro m ⟨⟨hapart, hsame⟩, hmapped⟩
  obtain ⟨-, hrun⟩ | ⟨-, m', hrun, hpml4, hpmm, hbyte⟩ := copyPage_cases image seg page (4096 * f) m
  · rw [hrun]
    exact Prog.ends_error.mpr hsame
  · have hroot' : f ≠ root := by
      rintro rfl
      exact hapart.root_lower (Or.inr hmapped)
    obtain ⟨hapart', hsame', -⟩ := hapart.quiet hroot' (hapart.own f hmapped)
      (hapart.apart f (Or.inr hmapped)) hpml4 (by rw [hpmm]; exact fun _ h => h)
      (fun b hb => hbyte b (by omega))
    rw [hrun]
    exact Prog.ends_ok.mpr ⟨hapart', hsame.trans hroot hsame'⟩

/-- One turn of the page loop, on a lower page. -/
theorem triple_page {image : List UInt8} {seg : Segment} {page : ℕ} {rest : Kernel Bool}
    (hpage : page % 4096 = 0) (hva : pml4Index page < 256)
    (hrest : Prog.Triple (LowerInv root m₀) rest (fun _ m => LowerInv root m₀ m)
      (fun _ m => UpperSame root m₀ m)) :
    Prog.Triple (LowerInv root m₀)
      (pageFrame page >>= fun r => match r with
        | none => pure false
        | some frame => copyPage image seg page frame >>= fun _ => rest)
      (fun _ m => LowerInv root m₀ m) (fun _ m => UpperSame root m₀ m) := by
  intro m hm
  refine (triple_pageFrame hroot hpage hva m hm).bind fun r m₁ h₁ => ?_
  cases r with
  | none => exact Prog.ends_pure h₁.1
  | some frame =>
    obtain ⟨f, rfl, hmapped⟩ := h₁.2 frame rfl
    exact (triple_copyPage hroot m₁ ⟨h₁.1, hmapped⟩).bind fun _ m₂ h₂ => hrest m₂ h₂

/-- The page loop of `map_segment`, over lower pages. -/
theorem triple_mapPages {image : List UInt8} {seg : Segment} {n page : ℕ}
    (hpage : page % 4096 = 0) (hlow : ∀ k < n, pml4Index (page + 4096 * k) < 256) :
    Prog.Triple (LowerInv root m₀) (mapPages image seg n page) (fun _ m => LowerInv root m₀ m)
      (fun _ m => UpperSame root m₀ m) := by
  induction n generalizing page with
  | zero => exact fun m hm => Prog.ends_pure hm
  | succ n ih =>
    have hnext : (page + pageSize) % 4096 = 0 := by
      rw [show pageSize = 4096 from rfl]
      omega
    have hrest := ih hnext (fun k hk => by
      have := hlow (k + 1) (Nat.succ_lt_succ hk)
      rwa [show page + pageSize + 4096 * k = page + 4096 * (k + 1) by
        rw [show pageSize = 4096 from rfl]; omega])
    exact triple_page hroot hpage (hlow 0 (Nat.succ_pos n)) hrest

/-- SOURCE: user.rs:263-311 -/
theorem triple_mapSegment {image : List UInt8} {seg : Segment} (hlow : LowerPages seg) :
    Prog.Triple (LowerInv root m₀) (mapSegment image seg) (fun _ m => LowerInv root m₀ m)
      (fun _ m => UpperSame root m₀ m) := by
  intro m hm
  unfold mapSegment
  split
  · exact triple_mapPages hroot (firstPage_aligned seg) hlow m hm
  · exact Prog.ends_pure hm

end Pages

/-- A load of an image with lower pages only. -/
theorem loadElf_keeps {image : List UInt8} (hlow : ∀ seg ∈ elfSegments image, LowerPages seg)
    {m : Machine} {root : ℕ} (hapart : HalvesApart m root) :
    UpperSame root m (loadElf image m).2 := by
  have hends : Prog.Ends (fun _ m' => UpperSame root m m') (fun _ m' => UpperSame root m m')
      (loadElf image m) := by
    refine loadElf_rule (I := fun segs m' => (∀ seg ∈ segs, LowerPages seg) ∧ LowerInv root m m')
      (fun seg rest m' _ h => ?_) (fun m' h => h.2.2) (fun _ _ m' h => h.2.2)
      (fun _ _ _ _ _ _ _ m' h => h.2.2) ⟨hlow, hapart, UpperSame.refl root m⟩
    obtain ⟨hlow, hinv⟩ := h
    refine (triple_mapSegment hapart.tree.pml4 (hlow seg List.mem_cons_self) m' hinv).weaken
      (fun ok m₁ h₁ => ?_) (fun _ _ h => h)
    cases ok with
    | false => exact h₁.2
    | true => exact ⟨fun seg' hseg' => hlow seg' (List.mem_cons_of_mem _ hseg'), h₁⟩
  exact hends.state

/-! ## Images -/

/-- Eight bytes of a header field. -/
def fieldBytes (x : ℕ) : List UInt8 := (List.range 8).map fun k => UInt8.ofNat (x / 256 ^ k)

/-- A `PT_LOAD` program header. -/
def loadHeader (seg : Segment) : List UInt8 :=
  [1, 0, 0, 0, 6, 0, 0, 0] ++ fieldBytes seg.offset ++ fieldBytes seg.vaddr ++ fieldBytes 0 ++
    fieldBytes seg.filesz ++ fieldBytes seg.memsz ++ fieldBytes 0x1000

/-- An ELF image with `PT_LOAD` headers behind the ELF header; `phoff` is where the ELF header says
they are. -/
def elfImage (phoff : ℕ) (segs : List Segment) : List UInt8 :=
  [0x7F, 0x45, 0x4C, 0x46, 2, 1, 1, 0, 0, 0, 0, 0, 0, 0, 0, 0] ++ [2, 0, 0x3E, 0, 1, 0, 0, 0] ++
  fieldBytes 0x400000 ++ fieldBytes phoff ++ fieldBytes 0 ++
  -- flags, header size, program headers of 56 bytes
  [0, 0, 0, 0, 64, 0, 56, 0, UInt8.ofNat segs.length, 0, 0, 0, 0, 0, 0, 0] ++ segs.flatMap loadHeader

end Pinx.Analysis
