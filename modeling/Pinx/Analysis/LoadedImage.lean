import Pinx.Analysis.UserView

/-!
# The image in memory

`map_segment` works page by page: a page that is not mapped is mapped to a zeroed frame, one that is
mapped is used as it is, and the part of the file that belongs on it is copied.  Seen through
`userView` the pages of a segment compose to one map of addresses to bytes (`withSegment`), and the
segments of an image to their composition in order (`loadElf_ok`).  On pages that were unmapped this
is the image, with zeros after the file bytes.  On pages that were mapped before, what stood there
stays wherever no file bytes are copied.
-/

namespace Pinx.Analysis

open Pinx.Foundation Pinx.Foundation.WordBitmap Pinx.Foundation.RadixTree Pinx.Model

variable {m m₀ m' : Machine} {root page : ℕ} {image : List UInt8} {seg : Segment}

/-! ## One page -/

/-- What ring 3 has in its memory while a load that started in `m₀` goes on: its pages are its own, and
the new ones are open to it. -/
structure Loading (root : ℕ) (m₀ m : Machine) : Prop where
  pages : PrivatePages root m
  exposed : ∀ va, userView m₀ va = none → userView m va ≠ none → Exposed m root va

theorem Loading.start (h : PrivatePages root m) : Loading root m m :=
  ⟨h, fun _ hnone hsome => absurd hnone hsome⟩

/-- The page is there; where nothing was mapped, it is a page of zeros. -/
def touchPage (page : ℕ) (u : ℕ → Option UInt8) (va : ℕ) : Option UInt8 :=
  if va / 4096 = page / 4096 then some ((u va).getD 0) else u va

/-- Addresses of a page are mapped together. -/
theorem mapped_iff_page (h : PrivatePages root m) {va : ℕ} (hpage : page % 4096 = 0)
    (hva : va / 4096 = page / 4096) :
    vmmVirtToPhys m va = vmmNoPhys ↔ vmmVirtToPhys m page = vmmNoPhys := by
  have heq : va / 4096 * 4096 = page := by omega
  obtain ⟨hpage', hva'⟩ | ⟨-, hlt, hphys⟩ := virtToPhys_offset h.tree.pml4 va
  · rw [heq] at hpage'
    exact iff_of_true hva' hpage'
  · rw [heq] at hphys
    refine iff_of_false (vmmNoPhys_ne hlt) (vmmNoPhys_ne ?_)
    omega

/-- SOURCE: user.rs:277-288 -/
theorem pageFrame_ok {r : Option ℕ} (h : Loading root m₀ m) (hpage : page % 4096 = 0)
    (hlow : lowerHalf page) (hrun : pageFrame page m = (.ok r, m')) :
    (r = none ∧ m' = m) ∨ ∃ f, r = some (4096 * f) ∧ Loading root m₀ m' ∧
      vmmVirtToPhys m' page = 4096 * f ∧ f < 2 ^ 40 ∧
      ∀ va, userView m' va = touchPage page (userView m) va := by
  have hread : (Prog.read fun m => vmmVirtToPhys m page : Kernel _) m =
      (.ok (vmmVirtToPhys m page), m) := rfl
  rw [pageFrame, Prog.bind_ok hread] at hrun
  have hlower : ∀ va, va / 4096 = page / 4096 → lowerHalf va := by
    intro va hva
    unfold lowerHalf at hlow ⊢
    omega
  by_cases hmap : vmmVirtToPhys m page = vmmNoPhys
  · rw [if_pos hmap] at hrun
    obtain ⟨e, halloc⟩ | halloc | ⟨j, m₁, halloc, hmem, hpml4, hfree, hmark⟩ := allocPage_cases m
    · rw [Prog.bind_error halloc] at hrun
      cases hrun
    · rw [Prog.bind_ok halloc, if_pos rfl] at hrun
      cases hrun
      exact Or.inl ⟨rfl, rfl⟩
    · have hne : 4096 * j ≠ pmmNoPage := by
        unfold pmmNoPage
        omega
      obtain ⟨m₂, hzero, -, hzeroed⟩ :=
        zeroed_of_alloc h.pages.tree h.pages.fresh hmem hpml4 hfree hmark
      rw [Prog.bind_ok halloc, if_neg hne, Prog.bind_ok hzero] at hrun
      obtain ⟨_, m₃, hmapRun, hret⟩ := Prog.bind_eq_ok.mp hrun
      cases hret
      have hfresh := hzeroed.map hmapRun
      obtain ⟨hnew, hold⟩ := vmmMapUserPage_exposed hzeroed.tree hzeroed.fresh hmapRun
      have hview := h.pages.userView_mapsFresh hfresh hlow
      refine Or.inr ⟨j, rfl, ⟨h.pages.mapsFresh hfresh hlow, fun va hnone hsome => ?_⟩, ?_,
        hzeroed.physical, fun va => ?_⟩
      · by_cases hva : va / 4096 = page / 4096
        · exact hnew va ((pageOf_lower (hlower va hva) hlow).mpr hva)
        · rw [hview, if_neg hva] at hsome
          have hvalow : lowerHalf va := by
            by_contra hupper
            exact hsome (userView_upper hupper)
          refine hold va (fun hc => hva ((pageOf_lower hvalow hlow).mp hc)) ?_
          exact (h.exposed va hnone hsome).of_frame (h.pages.fresh j hfree).2 hzeroed.paths
            hzeroed.bytes
      · rw [hfresh.here page rfl]
        omega
      · rw [hview, touchPage]
        by_cases hva : va / 4096 = page / 4096
        · have hnone := (userView_eq_none (hlower va hva)).mpr
            ((mapped_iff_page h.pages hpage hva).mpr hmap)
          rw [if_pos hva, if_pos hva, hnone]
          rfl
        · rw [if_neg hva, if_neg hva]
  · rw [if_neg hmap] at hrun
    cases hrun
    have haligned := virtToPhys_aligned h.pages.tree.pml4 hpage hmap
    refine Or.inr ⟨vmmVirtToPhys m page / 4096, ?_, h, ?_, ?_, fun va => ?_⟩
    · rw [Nat.mul_div_cancel' (Nat.dvd_of_mod_eq_zero haligned)]
    · rw [Nat.mul_div_cancel' (Nat.dvd_of_mod_eq_zero haligned)]
    · obtain ⟨hnone, hnone'⟩ | ⟨-, hlt, -⟩ := virtToPhys_offset h.pages.tree.pml4 page
      · exact absurd hnone' hmap
      · omega
    · unfold touchPage
      split
      · rename_i hva
        rw [userView_mapped (hlower va hva) fun hc => hmap ((mapped_iff_page h.pages hpage hva).mp hc)]
        rfl
      · rfl

/-- The addresses of a segment that the file provides. -/
def InFile (seg : Segment) (va : ℕ) : Prop :=
  seg.vaddr ≤ va ∧ va < seg.vaddr + seg.filesz
deriving Decidable

/-- The byte of the file at an address. -/
def segByte (image : List UInt8) (seg : Segment) (va : ℕ) : UInt8 :=
  imageBytes image (seg.offset + (va - seg.vaddr))

/-- What a copy leaves of memory, on the page and elsewhere. -/
theorem copyPage_writes {f : ℕ} (hpage : page % 4096 = 0)
    (hrun : copyPage image seg page (4096 * f) m = (.ok (), m')) :
    WritesFrame f m m' ∧ ∀ o < 4096, m'.mem (4096 * f + o) =
      if InFile seg (page + o) then segByte image seg (page + o) else m.mem (4096 * f + o) := by
  have hsize : pageSize = 4096 := rfl
  unfold copyPage at hrun
  obtain ⟨pageEnd, m₁, hadd, hrest⟩ := Prog.bind_eq_ok.mp hrun
  obtain ⟨hend, rfl⟩ := Prod.mk.inj hadd
  obtain rfl := addU64_ok hend
  split at hrest
  · cases hrest
    refine ⟨⟨rfl, rfl, fun b hb => ?_⟩, fun o ho => ?_⟩
    · dsimp only
      apply Bytes.blit_outside
      omega
    · by_cases hin : InFile seg (page + o)
      · rw [if_pos hin, segByte]
        unfold InFile at hin
        dsimp only
        rw [Bytes.blit_inside (by omega) (by omega)]
        exact congrArg _ (by omega)
      · rw [if_neg hin]
        unfold InFile at hin
        dsimp only
        apply Bytes.blit_outside
        omega
  · cases hrest
    refine ⟨⟨rfl, rfl, fun b hb => rfl⟩, fun o ho => ?_⟩
    rw [if_neg]
    unfold InFile
    omega

theorem copyPage_ok {f : ℕ} (h : Loading root m₀ m) (hpage : page % 4096 = 0) (hlow : lowerHalf page)
    (hf : vmmVirtToPhys m page = 4096 * f) (hphysical : f < 2 ^ 40)
    (hrun : copyPage image seg page (4096 * f) m = (.ok (), m')) :
    Loading root m₀ m' ∧ ∀ va, userView m' va =
      if va / 4096 = page / 4096 ∧ InFile seg va then some (segByte image seg va)
      else userView m va := by
  have hmapped : vmmVirtToPhys m page ≠ vmmNoPhys := by
    rw [hf]
    exact vmmNoPhys_ne (by omega)
  have hframe : vmmVirtToPhys m page / 4096 = f := by omega
  obtain ⟨hw, hbyte⟩ := copyPage_writes hpage hrun
  rw [← hframe] at hw
  obtain ⟨hpages, hpath, hvirt, hother⟩ := h.pages.writes hlow hmapped hw
  have hview : ∀ va, userView m' va = if va / 4096 = page / 4096 ∧ InFile seg va then
      some (segByte image seg va) else userView m va := by
    intro va
    by_cases hva : va / 4096 = page / 4096
    case neg => rw [if_neg fun hc => hva hc.1, hother va hva]
    have hvalow : lowerHalf va := by
      unfold lowerHalf at hlow ⊢
      omega
    have hphys : vmmVirtToPhys m va = 4096 * f + va % 4096 := by
      obtain ⟨hnone, -⟩ | ⟨-, -, hphys⟩ := virtToPhys_offset h.pages.tree.pml4 va
      · rw [show va / 4096 * 4096 = page by omega] at hnone
        exact absurd hnone hmapped
      · rw [hphys, show va / 4096 * 4096 = page by omega, hf]
    have hvamapped : vmmVirtToPhys m va ≠ vmmNoPhys := by
      rw [hphys]
      exact vmmNoPhys_ne (by omega)
    have hva' : page + va % 4096 = va := by omega
    rw [userView_mapped hvalow (by rwa [hvirt]), userView_mapped hvalow hvamapped, hvirt, hphys,
      hbyte _ (Nat.mod_lt _ (by omega)), hva']
    by_cases hin : InFile seg va
    · rw [if_pos hin, if_pos ⟨hva, hin⟩]
    · rw [if_neg hin, if_neg fun hc => hin hc.2]
  refine ⟨⟨hpages, fun va hnone hsome => ?_⟩, hview⟩
  have hsome' : userView m va ≠ none := by
    intro hc
    by_cases hvalow : lowerHalf va
    · rw [userView_eq_none hvalow, ← hvirt, ← userView_eq_none hvalow] at hc
      exact hsome hc
    · exact hsome (userView_upper hvalow)
  exact (h.exposed va hnone hsome').of_frame (h.pages.no_table page hlow hmapped) hpath hw.bytes

/-! ## Segments -/

/-- `n` pages from `page` on with what the file provides, and for the rest what was there. -/
def withPages (image : List UInt8) (seg : Segment) (n page : ℕ) (u : ℕ → Option UInt8) (va : ℕ) :
    Option UInt8 :=
  if page ≤ va ∧ va < page + 4096 * n then
    if InFile seg va then some (segByte image seg va) else some ((u va).getD 0)
  else u va

/-- The pages of a segment. -/
def withSegment (image : List UInt8) (seg : Segment) (u : ℕ → Option UInt8) : ℕ → Option UInt8 :=
  withPages image seg seg.pages seg.firstPage u

/-- SOURCE: user.rs:271-308 -/
theorem mapPages_ok {n : ℕ} {b : Bool} (h : Loading root m₀ m) (hpage : page % 4096 = 0)
    (hlow : page + 4096 * n ≤ 2 ^ 47) (hrun : mapPages image seg n page m = (.ok b, m')) :
    Loading root m₀ m' ∧
      (b = true → ∀ va, userView m' va = withPages image seg n page (userView m) va) := by
  induction n generalizing page m with
  | zero =>
    cases hrun
    refine ⟨h, fun _ va => ?_⟩
    rw [withPages, if_neg (by omega)]
  | succ n ih =>
    have hsize : pageSize = 4096 := rfl
    have hpagelow : lowerHalf page := by
      unfold lowerHalf
      omega
    unfold mapPages at hrun
    obtain ⟨r, m₁, hframe, hrest⟩ := Prog.bind_eq_ok.mp hrun
    obtain ⟨rfl, rfl⟩ | ⟨f, rfl, h₁, hphys, hlt, hview₁⟩ := pageFrame_ok h hpage hpagelow hframe
    · cases hrest
      exact ⟨h, fun hb => absurd hb Bool.false_ne_true⟩
    · obtain ⟨_, m₂, hcopy, hrest⟩ := Prog.bind_eq_ok.mp hrest
      obtain ⟨h₂, hview₂⟩ := copyPage_ok h₁ hpage hpagelow hphys hlt hcopy
      obtain ⟨h', hview'⟩ := ih h₂ (by omega) (by omega) hrest
      refine ⟨h', fun hb va => ?_⟩
      rw [hview' hb, withPages, withPages, hview₂, hview₁, touchPage, hsize]
      -- the address is on this page, on a later one or on none
      by_cases hthis : va / 4096 = page / 4096
      · have hlater : ¬(page + 4096 ≤ va ∧ va < page + 4096 + 4096 * n) := by omega
        have hall : page ≤ va ∧ va < page + 4096 * (n + 1) := by omega
        rw [if_neg hlater, if_pos hall, if_pos hthis]
        by_cases hin : InFile seg va
        · rw [if_pos ⟨hthis, hin⟩, if_pos hin]
        · rw [if_neg fun hc => hin hc.2, if_neg hin]
      · have hnot : ¬(va / 4096 = page / 4096 ∧ InFile seg va) := fun hc => hthis hc.1
        rw [if_neg hnot, if_neg hthis]
        by_cases hlater : page + 4096 ≤ va ∧ va < page + 4096 + 4096 * n
        · have hall : page ≤ va ∧ va < page + 4096 * (n + 1) := by omega
          rw [if_pos hlater, if_pos hall]
        · have hall : ¬(page ≤ va ∧ va < page + 4096 * (n + 1)) := by omega
          rw [if_neg hlater, if_neg hall]

/-- The byte ranges of a segment, which end below the upper half. -/
def LowerSegment (seg : Segment) : Prop := seg.vaddr + seg.memsz ≤ 2 ^ 47
deriving Decidable

/-- SOURCE: user.rs:263-311 -/
theorem mapSegment_ok {b : Bool} (h : Loading root m₀ m) (hlow : LowerSegment seg)
    (hrun : mapSegment image seg m = (.ok b, m')) :
    Loading root m₀ m' ∧
      (b = true → ∀ va, userView m' va = withSegment image seg (userView m) va) := by
  unfold LowerSegment at hlow
  unfold mapSegment at hrun
  rw [if_pos (by omega)] at hrun
  refine mapPages_ok h (firstPage_aligned seg) ?_ hrun
  have hlast := lastPage_end seg
  have haligned := firstPage_aligned seg
  omega

/-- SOURCE: user.rs:208-259 -/
theorem loadElf_ok {r : Option ℕ} (h : Loading root m₀ m)
    (hlow : ∀ seg ∈ elfSegments image, LowerSegment seg) (hrun : loadElf image m = (.ok r, m')) :
    Loading root m₀ m' ∧ ∀ entry, r = some entry →
      (∃ header, elfHeader image = .ok (some header) ∧ entry = header.entry) ∧
      userView m' = (elfSegments image).foldl (fun u seg => withSegment image seg u) (userView m) := by
  -- the segments that are left lead to the same view from here as all of them from the start
  let whole := (elfSegments image).foldl (fun u seg => withSegment image seg u) (userView m)
  let I : List Segment → Machine → Prop := fun segs m₁ => Loading root m₀ m₁ ∧
    (∀ seg ∈ segs, LowerSegment seg) ∧
    segs.foldl (fun u seg => withSegment image seg u) (userView m₁) = whole
  have hends : Prog.Ends (fun r m' => Loading root m₀ m' ∧ ∀ entry, r = some entry →
      (∃ header, elfHeader image = .ok (some header) ∧ entry = header.entry) ∧ userView m' = whole)
      (fun _ _ => True) (loadElf image m) := by
    refine loadElf_rule (I := I) (fun seg rest m₁ _ h₁ => ?_) (fun m₁ h₁ => ⟨h₁.1, nofun⟩)
      (fun header hheader m₁ h₁ => ?_) (fun _ _ _ _ _ _ _ _ _ => trivial) ⟨h, hlow, rfl⟩
    · obtain ⟨hloading, hlow, hfold⟩ := h₁
      cases hmap : mapSegment image seg m₁ with
      | mk r m₂ =>
        cases r with
        | error e => exact Prog.ends_error.mpr trivial
        | ok b =>
          obtain ⟨h₂, hview⟩ := mapSegment_ok hloading (hlow seg List.mem_cons_self) hmap
          apply Prog.ends_ok.mpr
          cases b with
          | false => exact ⟨h₂, nofun⟩
          | true =>
            rw [List.foldl_cons, ← funext (hview rfl)] at hfold
            exact ⟨h₂, fun seg' hseg' => hlow seg' (List.mem_cons_of_mem _ hseg'), hfold⟩
    · refine ⟨h₁.1, fun entry hentry => ⟨⟨header, hheader, (Option.some.inj hentry).symm⟩, h₁.2.2⟩⟩
  exact hends.ok hrun

/-! ## Disjoint segments -/

/-- The addresses of a segment. -/
def InSegment (seg : Segment) (va : ℕ) : Prop := seg.vaddr ≤ va ∧ va < seg.vaddr + seg.memsz
deriving Decidable

/-- No address is in two segments. -/
def DisjointSegments (segs : List Segment) : Prop :=
  segs.Pairwise fun seg seg' => ∀ va, InSegment seg va → ¬InSegment seg' va

variable {segs : List Segment} {u : ℕ → Option UInt8} {va : ℕ}

/-- Segments whose file bytes are elsewhere at most put a zero where nothing was. -/
theorem foldl_withSegment_outside (h : ∀ seg ∈ segs, ¬InFile seg va) :
    ((segs.foldl (fun u seg => withSegment image seg u) u) va).getD 0 = (u va).getD 0 ∧
      (u va ≠ none → (segs.foldl (fun u seg => withSegment image seg u) u) va = u va) := by
  induction segs generalizing u with
  | nil => exact ⟨rfl, fun _ => rfl⟩
  | cons seg segs ih =>
    have hstep : withSegment image seg u va = u va ∨
        withSegment image seg u va = some ((u va).getD 0) := by
      unfold withSegment withPages
      rw [if_neg (h seg List.mem_cons_self)]
      split
      · exact Or.inr rfl
      · exact Or.inl rfl
    obtain ⟨hget, hsome⟩ := ih (u := withSegment image seg u)
      fun seg' hseg' => h seg' (List.mem_cons_of_mem _ hseg')
    rw [List.foldl_cons]
    rcases hstep with hsame | htouched
    · rw [hsame] at hget hsome
      exact ⟨hget, hsome⟩
    · rw [htouched] at hget hsome
      refine ⟨hget, fun hne => ?_⟩
      obtain ⟨b, hb⟩ := Option.ne_none_iff_exists'.mp hne
      rw [hsome (by simp), hb]
      rfl

/-- Addresses of a segment are on its pages. -/
theorem InSegment.pages (h : InSegment seg va) :
    seg.firstPage ≤ va ∧ va < seg.firstPage + 4096 * seg.pages := by
  unfold InSegment at h
  unfold Segment.pages Segment.firstPage
  rw [show pageSize = 4096 from rfl]
  omega

theorem withSegment_inside (h : InSegment seg va) : withSegment image seg u va =
    if InFile seg va then some (segByte image seg va) else some ((u va).getD 0) :=
  if_pos h.pages

/-- Every address of a segment ends up with its file byte, or with what was there before. -/
theorem foldl_withSegment (hfile : ∀ seg ∈ segs, seg.filesz ≤ seg.memsz)
    (hdisjoint : DisjointSegments segs) (hseg : seg ∈ segs) (hva : InSegment seg va) :
    (segs.foldl (fun u seg => withSegment image seg u) u) va =
      if InFile seg va then some (segByte image seg va) else some ((u va).getD 0) := by
  have hin : ∀ seg ∈ segs, InFile seg va → InSegment seg va := by
    intro seg hseg h
    have := hfile seg hseg
    unfold InFile at h
    unfold InSegment
    omega
  obtain ⟨pre, post, rfl⟩ := List.append_of_mem hseg
  have hparts := List.pairwise_append.mp hdisjoint
  have hpre : ∀ seg' ∈ pre, ¬InFile seg' va := fun seg' hseg' hc =>
    hparts.2.2 seg' hseg' seg List.mem_cons_self va
      (hin seg' (List.mem_append_left _ hseg') hc) hva
  have hpost : ∀ seg' ∈ post, ¬InFile seg' va := fun seg' hseg' hc =>
    (List.pairwise_cons.mp hparts.2.1).1 seg' hseg' va hva
      (hin seg' (List.mem_append_right _ (List.mem_cons_of_mem _ hseg')) hc)
  rw [List.foldl_append, List.foldl_cons]
  have hget : ((pre.foldl (fun u seg => withSegment image seg u) u) va).getD 0 = (u va).getD 0 :=
    (foldl_withSegment_outside hpre).1
  have hhere : withSegment image seg (pre.foldl (fun u seg => withSegment image seg u) u) va =
      if InFile seg va then some (segByte image seg va) else some ((u va).getD 0) := by
    rw [withSegment_inside hva, hget]
  rw [(foldl_withSegment_outside hpost).2 (by rw [hhere]; split <;> simp), hhere]

/-! ## Program headers -/

/-- The segment a program header at `ph` describes.
SOURCE: user.rs:240-243 -/
def headerSegment (image : List UInt8) (ph : ℕ) : Segment :=
  ⟨(imageBytes image).getLE (ph + 8) 8, (imageBytes image).getLE (ph + 16) 8,
    (imageBytes image).getLE (ph + 32) 8, (imageBytes image).getLE (ph + 40) 8⟩

/-- What is done with the header at `ph`. -/
def headerAction (image : List UInt8) (ph : ℕ) : HeaderAction :=
  let seg := headerSegment image ph
  if image.length < ph + 56 then .giveUp
  else if (imageBytes image).getLE ph 4 ≠ ptLoad then .skip
  else if seg.memsz < seg.filesz then .giveUp
  else if seg.offset + seg.filesz ≥ 2 ^ 64 ∨ seg.offset + seg.filesz > image.length then .giveUp
  else if seg.memsz = 0 then .skip
  else .map seg

/-- Only the two sums at the start can go wrong. -/
theorem segmentAt_eq (image : List UInt8) (header : ElfHeader) (i : ℕ) :
    segmentAt image header i =
      if header.phoff + i * header.phentsize + 56 < 2 ^ 64 then
        .ok (headerAction image (header.phoff + i * header.phentsize))
      else .error .overflow := by
  generalize hph : header.phoff + i * header.phentsize = ph
  unfold segmentAt
  rw [addU64, hph]
  by_cases hsum : ph + 56 < 2 ^ 64
  case neg =>
    rw [if_neg hsum]
    split
    · show (addU64 ph 56 >>= _) = _
      rw [addU64, if_neg hsum]
      rfl
    · rfl
  rw [if_pos hsum, if_pos (by omega)]
  show (addU64 ph 56 >>= _) = _
  rw [addU64, if_pos hsum]
  unfold headerAction headerSegment
  dsimp only [bind, Except.bind, pure, Except.pure]
  by_cases hlen : image.length < ph + 56
  · rw [if_pos hlen, if_pos hlen]
  rw [if_neg hlen, if_neg hlen, readImage_ok (by omega), readImage_ok (by omega),
    readImage_ok (by omega), readImage_ok (by omega), readImage_ok (by omega)]
  dsimp only
  split_ifs <;> rfl

/-- The file part of a segment is in the image, and not longer than the segment. -/
theorem segmentAt_map {header : ElfHeader} {i : ℕ} (h : segmentAt image header i = .ok (.map seg)) :
    seg.filesz ≤ seg.memsz ∧ seg.offset + seg.filesz ≤ image.length ∧ 0 < seg.memsz := by
  rw [segmentAt_eq] at h
  split at h
  · have haction := Except.ok.inj h
    unfold headerAction at haction
    dsimp only at haction
    split_ifs at haction with _ _ hsize hend hzero
    obtain rfl := HeaderAction.map.inj haction
    omega
  · cases h

/-- What `load_elf` asks of the segments it maps. -/
theorem plannedSegments_map {header : ElfHeader} {n i : ℕ} (h : seg ∈ plannedSegments image header n i) :
    (∃ k < n, segmentAt image header (i + k) = .ok (.map seg)) ∧ seg.vaddr + seg.memsz < 2 ^ 64 := by
  induction n generalizing i with
  | zero => cases h
  | succ n ih =>
    have hlater : seg ∈ plannedSegments image header n (i + 1) →
        (∃ k < n + 1, segmentAt image header (i + k) = .ok (.map seg)) ∧
          seg.vaddr + seg.memsz < 2 ^ 64 := by
      intro h
      obtain ⟨⟨k, hk, hseg⟩, hend⟩ := ih h
      refine ⟨⟨k + 1, by omega, ?_⟩, hend⟩
      rwa [Nat.add_comm k 1, ← Nat.add_assoc]
    unfold plannedSegments at h
    split at h
    · exact hlater h
    · rename_i seg' hseg'
      split at h
      · rename_i hend
        rcases List.mem_cons.mp h with rfl | h
        · exact ⟨⟨0, Nat.succ_pos n, hseg'⟩, hend⟩
        · exact hlater h
      · cases h
    · cases h

theorem elfSegments_map (h : seg ∈ elfSegments image) :
    seg.filesz ≤ seg.memsz ∧ seg.offset + seg.filesz ≤ image.length ∧ 0 < seg.memsz ∧
      seg.vaddr + seg.memsz < 2 ^ 64 := by
  unfold elfSegments at h
  split at h
  · obtain ⟨⟨k, -, hseg⟩, hend⟩ := plannedSegments_map h
    obtain ⟨hsize, hfile, hpos⟩ := segmentAt_map hseg
    exact ⟨hsize, hfile, hpos, hend⟩
  · cases h

/-! ## Whole loads -/

/-- The segment of program header `i`, if it is a `PT_LOAD` header. -/
def ptLoadAt (image : List UInt8) (header : ElfHeader) (i : ℕ) : Option Segment :=
  let ph := header.phoff + i * header.phentsize
  if (imageBytes image).getLE ph 4 = ptLoad then some (headerSegment image ph) else none

/-- The `PT_LOAD` segments of an image, as its headers give them. -/
def ptLoads (image : List UInt8) : List Segment :=
  match elfHeader image with
  | .ok (some header) => (List.range header.phnum).filterMap (ptLoadAt image header)
  | _ => []

/-- A header that is passed over gives no segment, or an empty one. -/
theorem segmentAt_skip {header : ElfHeader} {i : ℕ} (h : segmentAt image header i = .ok .skip) :
    ∀ seg, ptLoadAt image header i = some seg → seg.memsz = 0 := by
  rw [segmentAt_eq] at h
  split at h
  · intro seg hseg
    have haction := Except.ok.inj h
    unfold headerAction at haction
    dsimp only at haction
    unfold ptLoadAt at hseg
    dsimp only at hseg
    split_ifs at haction hseg with _ _ _ _ hzero
    obtain rfl := Option.some.inj hseg
    exact hzero
  · cases h

theorem ptLoadAt_map {header : ElfHeader} {i : ℕ} (h : segmentAt image header i = .ok (.map seg)) :
    ptLoadAt image header i = some seg := by
  rw [segmentAt_eq] at h
  split at h
  · have haction := Except.ok.inj h
    unfold headerAction at haction
    dsimp only at haction
    unfold ptLoadAt
    dsimp only
    split_ifs at haction ⊢ with _ htype
    exact congrArg some (HeaderAction.map.inj haction)
  · cases h

/-- A header loop that gets to its end has passed every header. -/
theorem plannedSegments_of_loaded {header : ElfHeader} {n i entry : ℕ}
    (hrun : loadSegments image header n i m = (.ok (some entry), m')) :
    plannedSegments image header n i =
      ((List.range' i n).filterMap (ptLoadAt image header)).filter (0 < ·.memsz) := by
  induction n generalizing i m with
  | zero => rfl
  | succ n ih =>
    unfold loadSegments at hrun
    unfold plannedSegments
    obtain ⟨action, m₁, hlift, hrest⟩ := Prog.bind_eq_ok.mp hrun
    obtain ⟨haction, rfl⟩ := Prod.mk.inj hlift
    rw [haction, List.range'_succ, List.filterMap_cons]
    cases action with
    | giveUp => cases hrest
    | skip =>
      dsimp only
      rw [ih hrest]
      cases hat : ptLoadAt image header i with
      | none => rfl
      | some seg =>
        have hzero := segmentAt_skip haction seg hat
        dsimp only
        rw [List.filter_cons_of_neg (by simp [hzero])]
    | map seg =>
      obtain ⟨b, m₂, hmap, hrest⟩ := Prog.bind_eq_ok.mp hrest
      have hpos := (segmentAt_map haction).2.2
      by_cases hend : seg.vaddr + seg.memsz < 2 ^ 64
      · cases b with
        | false => cases hrest
        | true =>
          rw [ptLoadAt_map haction]
          dsimp only
          rw [if_pos hend, ih hrest, List.filter_cons_of_pos (by simpa using hpos)]
      · rw [mapSegment, if_neg hend] at hmap
        cases hmap
        cases hrest

/-- `load_elf` maps exactly the segments that are not empty. -/
theorem elfSegments_of_loaded {entry : ℕ} (hrun : loadElf image m = (.ok (some entry), m')) :
    elfSegments image = (ptLoads image).filter (0 < ·.memsz) := by
  unfold loadElf at hrun
  unfold elfSegments ptLoads
  obtain ⟨header, m₁, hlift, hrest⟩ := Prog.bind_eq_ok.mp hrun
  obtain ⟨hheader, rfl⟩ := Prod.mk.inj hlift
  rw [hheader]
  cases header with
  | none => cases hrest
  | some header =>
    dsimp only
    rw [plannedSegments_of_loaded hrest, List.range_eq_range']

/-- The segments of the image are in the lower half. -/
def LowerImage (image : List UInt8) : Prop :=
  ∀ seg ∈ ptLoads image, ∀ va, InSegment seg va → lowerHalf va

theorem LowerImage.segments (h : LowerImage image) : ∀ seg ∈ elfSegments image, LowerSegment seg := by
  intro seg hseg
  have hpos := (elfSegments_map hseg).2.2.1
  have hmem : seg ∈ ptLoads image := by
    unfold elfSegments at hseg
    split at hseg
    · rename_i header hheader
      obtain ⟨⟨k, hk, hat⟩, -⟩ := plannedSegments_map hseg
      rw [Nat.zero_add] at hat
      rw [ptLoads, hheader]
      exact List.mem_filterMap.mpr ⟨k, List.mem_range.mpr hk, ptLoadAt_map hat⟩
    · cases hseg
  have hlast := h seg hmem (seg.vaddr + seg.memsz - 1) ⟨by omega, by omega⟩
  unfold lowerHalf at hlast
  unfold LowerSegment
  omega

/-- What a load that succeeds leaves at the addresses of the segments. -/
theorem loadElf_byte {entry : ℕ} (h : Loading root m₀ m) (hlow : LowerImage image)
    (hdisjoint : DisjointSegments (ptLoads image))
    (hrun : loadElf image m = (.ok (some entry), m')) :
    Loading root m₀ m' ∧ entry = (imageBytes image).getLE 24 8 ∧
      ∀ seg ∈ ptLoads image, ∀ va, InSegment seg va → userView m' va =
        if InFile seg va then some (segByte image seg va) else some ((userView m va).getD 0) := by
  have hsegments := elfSegments_of_loaded hrun
  have hapart : DisjointSegments (elfSegments image) := by
    rw [hsegments]
    exact hdisjoint.filter _
  obtain ⟨hend, hloaded⟩ := loadElf_ok h hlow.segments hrun
  obtain ⟨⟨header, hheader, hentry⟩, hview⟩ := hloaded entry rfl
  obtain ⟨r, hr, hfields⟩ := elfHeader_spec image
  rw [hheader] at hr
  refine ⟨hend, by rw [hentry, (hfields header (Except.ok.inj hr).symm).1], fun seg hseg va hva => ?_⟩
  have hmem : seg ∈ elfSegments image := by
    rw [hsegments]
    have := hva.1.trans_lt hva.2
    exact List.mem_filter.mpr ⟨hseg, by simpa using this⟩
  rw [hview, foldl_withSegment (fun seg hseg => (elfSegments_map hseg).1) hapart hmem hva]

/-- **The program image.**  A load that succeeds puts every segment where its header says: the bytes of
the file, and zeros after them.  Each page is open to ring 3 and has a frame of its own, and the entry
point is the one in the ELF header. -/
theorem image_loaded_exactly (hpages : PrivatePages root m) (hlow : LowerImage image)
    (hdisjoint : DisjointSegments (ptLoads image))
    (hunmapped : ∀ seg ∈ ptLoads image, ∀ va, InSegment seg va → vmmVirtToPhys m va = vmmNoPhys)
    {entry : ℕ} (hrun : loadElf image m = (.ok (some entry), m')) :
    entry = (imageBytes image).getLE 24 8 ∧
    (∀ seg ∈ ptLoads image, ∀ k < seg.memsz, userView m' (seg.vaddr + k) =
      some (if k < seg.filesz then imageBytes image (seg.offset + k) else 0)) ∧
    (∀ seg ∈ ptLoads image, ∀ va, InSegment seg va → ring3Reachable m' va = true) ∧
    ∀ seg ∈ ptLoads image, ∀ seg' ∈ ptLoads image, ∀ va va', InSegment seg va →
      InSegment seg' va' → va / 4096 ≠ va' / 4096 →
      vmmVirtToPhys m' va / 4096 ≠ vmmVirtToPhys m' va' / 4096 := by
  have hnone : ∀ seg ∈ ptLoads image, ∀ va, InSegment seg va → userView m va = none :=
    fun seg hseg va hva => (userView_eq_none (hlow seg hseg va hva)).mpr (hunmapped seg hseg va hva)
  obtain ⟨hend, hentry, hbyte⟩ := loadElf_byte (Loading.start hpages) hlow hdisjoint hrun
  have hsome : ∀ seg ∈ ptLoads image, ∀ va, InSegment seg va → userView m' va ≠ none := by
    intro seg hseg va hva
    rw [hbyte seg hseg va hva]
    split <;> simp
  have hmapped : ∀ seg ∈ ptLoads image, ∀ va, InSegment seg va → vmmVirtToPhys m' va ≠ vmmNoPhys :=
    fun seg hseg va hva hc =>
      hsome seg hseg va hva ((userView_eq_none (hlow seg hseg va hva)).mpr hc)
  refine ⟨hentry, ?_, ?_, ?_⟩
  · intro seg hseg k hk
    have hva : InSegment seg (seg.vaddr + k) := ⟨by omega, by omega⟩
    rw [hbyte seg hseg _ hva, hnone seg hseg _ hva]
    by_cases hfile : k < seg.filesz
    · have hin : InFile seg (seg.vaddr + k) := ⟨by omega, by omega⟩
      rw [if_pos hin, if_pos hfile, segByte, Nat.add_sub_cancel_left]
    · have hout : ¬ InFile seg (seg.vaddr + k) := fun hin => hfile (by have := hin.2; omega)
      rw [if_neg hout, if_neg hfile]
      rfl
  · intro seg hseg va hva
    exact (hend.exposed va (hnone seg hseg va hva) (hsome seg hseg va hva)).reachable
      hend.pages.tree.pml4
  · intro seg hseg seg' hseg' va va' hva hva' hne heq
    exact hne (hend.pages.distinct va va' (hlow seg hseg va hva) (hlow seg' hseg' va' hva')
      (hmapped seg hseg va hva) (hmapped seg' hseg' va' hva') heq)

theorem lowerImage_of {segs : List Segment} (hsegs : ptLoads image = segs)
    (hlow : ∀ seg ∈ segs, LowerSegment seg) : LowerImage image := by
  unfold LowerImage
  rw [hsegs]
  exact fun seg hseg va hva => lt_of_lt_of_le hva.2 (hlow seg hseg)

/-- One byte of the file and one zero byte. -/
def twoBytes : List UInt8 := elfImage 64 [⟨0, 0x400000, 1, 2⟩]

/-- Two segments on one page. -/
def sharedPage : List UInt8 := elfImage 64 [⟨0, 0x400000, 1, 2⟩, ⟨1, 0x400010, 1, 2⟩]

/-- Empty tables and eight free frames. -/
def eightFrames : UserSpace := emptySpace ⟨0, 1, [0xFFFFFFFFFFFFF00F#64], 0⟩

theorem privatePages_eightFrames : PrivatePages 1 eightFrames.machine :=
  privatePages_emptySpace fun _ hj => free_word (by simp) hj

theorem twoBytes_loads : ptLoads twoBytes = [⟨0, 0x400000, 1, 2⟩] ∧
    (loadElf twoBytes eightFrames.machine).1 = .ok (some 0x400000) := by
  decide +kernel

theorem twoBytes_lower : LowerImage twoBytes ∧ DisjointSegments (ptLoads twoBytes) := by
  refine ⟨lowerImage_of twoBytes_loads.1 (by decide), ?_⟩
  rw [twoBytes_loads.1]
  exact List.pairwise_singleton _ _

theorem sharedPage_loads : ptLoads sharedPage = [⟨0, 0x400000, 1, 2⟩, ⟨1, 0x400010, 1, 2⟩] ∧
    imageBytes sharedPage 0 = 0x7F ∧ imageBytes sharedPage 1 = 0x45 ∧
    (loadElf sharedPage eightFrames.machine).1 = .ok (some 0x400000) := by
  decide +kernel

theorem sharedPage_lower : LowerImage sharedPage ∧ DisjointSegments (ptLoads sharedPage) := by
  refine ⟨lowerImage_of sharedPage_loads.1 (by decide), ?_⟩
  rw [sharedPage_loads.1]
  refine List.pairwise_pair.mpr fun va hva hva' => absurd hva.2 (not_lt_of_ge ?_)
  exact le_trans (by simp) hva'.1

/-- The bytes of both segments, on a machine with eight free frames. -/
theorem image_loaded_exactly_shared_page :
    ∃ m', loadElf sharedPage eightFrames.machine = (.ok (some 0x400000), m') ∧
      userView m' 0x400000 = some 0x7F ∧ userView m' 0x400001 = some 0 ∧
      userView m' 0x400010 = some 0x45 ∧ userView m' 0x400011 = some 0 ∧
      ring3Reachable m' 0x400011 = true := by
  obtain ⟨hsegs, hbyte, hbyte', hok⟩ := sharedPage_loads
  obtain ⟨m', hrun⟩ := Prog.exists_state hok
  obtain ⟨-, hbytes, hreach, -⟩ := image_loaded_exactly privatePages_eightFrames sharedPage_lower.1
    sharedPage_lower.2 (fun _ _ va _ => virtToPhys_emptySpace _ va) hrun
  rw [hsegs] at hbytes hreach
  have hfirst := hbytes _ List.mem_cons_self
  have hsecond := hbytes ⟨1, 0x400010, 1, 2⟩ (List.mem_cons_of_mem _ List.mem_cons_self)
  refine ⟨m', hrun, ?_, hfirst 1 (by simp), ?_, hsecond 1 (by simp),
    hreach ⟨1, 0x400010, 1, 2⟩ (List.mem_cons_of_mem _ List.mem_cons_self) _ (by decide)⟩
  · rw [← hbyte]
    exact hfirst 0 (by simp)
  · rw [← hbyte']
    exact hsecond 0 (by simp)

end Pinx.Analysis
