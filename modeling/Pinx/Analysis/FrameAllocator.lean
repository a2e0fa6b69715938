import Pinx.Foundation.Transition
import Pinx.Model.Pmm
import Pinx.Foundation.Prog

/-!
# Frames are handed out once

`pmm_init` leaves clear exactly the bits of the frames that lie in a usable entry
of the memory map and do not hold the bitmap itself.  From there on a clear bit
is an available frame that is not handed out, whatever the cursor is: the
cursor only chooses where the wrapped scan begins.
-/

namespace Pinx.Analysis

open Pinx.Foundation Pinx.Foundation.WordBitmap Pinx.Model

/-- What the bootloader promises of the usable entries of its map. -/
structure LimineMemmap (map : List (Option MemmapEntry)) : Prop where
  aligned : ∀ e, some e ∈ map → e.type = memmapUsable →
    e.base % pageSize = 0 ∧ e.length % pageSize = 0
  bounded : ∀ e, some e ∈ map → e.type = memmapUsable → e.base + e.length < 2 ^ 64
  disjoint : map.Pairwise fun x y => ∀ e f, x = some e → y = some f →
    e.type = memmapUsable → f.type = memmapUsable →
    e.base + e.length ≤ f.base ∨ f.base + f.length ≤ e.base

/-- Page `j` lies in a usable entry. -/
def UsablePage (map : List (Option MemmapEntry)) (j : ℕ) : Prop :=
  ∃ e, some e ∈ map ∧ e.type = memmapUsable ∧
    e.base / pageSize ≤ j ∧ j < e.base / pageSize + e.length / pageSize

/-- Page `j` holds a part of the bitmap. -/
def BitmapPage (p : Pmm) (j : ℕ) : Prop :=
  p.bitmapPhysical / pageSize ≤ j ∧ j < p.bitmapPhysical / pageSize + bitmapPages p.entries

/-- The frames the allocator may hand out: page aligned, wholly inside a usable
entry, and none of the bitmap's own. -/
def Frame (map : List (Option MemmapEntry)) (p : Pmm) (f : ℕ) : Prop :=
  f % pageSize = 0 ∧
  (∃ e, some e ∈ map ∧ e.type = memmapUsable ∧ e.base ≤ f ∧ f + pageSize ≤ e.base + e.length) ∧
  (f + pageSize ≤ p.bitmapPhysical ∨
    p.bitmapPhysical + bitmapPages p.entries * pageSize ≤ f)

variable {map : List (Option MemmapEntry)} {words : List (BitVec 64)}

/-! ## The passes of `pmm_init` -/

theorem addU64_eq_ok {a b : ℕ} (h : a + b < 2 ^ 64) : addU64 a b = .ok (a + b) := if_pos h

/-- Clearing a range of pages clears their bits and no other. -/
theorem forPages_clearPage (words : List (BitVec 64)) (start n : ℕ) (h : ∀ k < n, (start + k) / 64 < words.length) :
    ∃ words', forPages clearPage start n words = .ok words' ∧ words'.length = words.length ∧
      ∀ j, test words' j = (test words j && !decide (start ≤ j ∧ j < start + n)) := by
  induction n with
  | zero => exact ⟨words, rfl, rfl, fun j => by simp; omega⟩
  | succ n ih =>
    obtain ⟨words', hrun, hlen, htest⟩ := ih fun k hk => h k (by omega)
    have hin : (start + n) / 64 < words'.length := by rw [hlen]; exact h n (by omega)
    refine ⟨clear words' (start + n), ?_, by simp [hlen], fun j => ?_⟩
    · simp [forPages, hrun, bind, Except.bind, clearPage, hin]
    · rw [test_clear (by omega) hin, htest, Bool.and_assoc]
      congr 1
      rw [← Bool.not_or]
      congr 1
      rw [← Bool.decide_or]
      exact decide_eq_decide.mpr (by omega)

/-- Setting a range of pages sets their bits and no other. -/
theorem forPages_markPage (words : List (BitVec 64)) (start n : ℕ) (h : ∀ k < n, (start + k) / 64 < words.length) :
    ∃ words', forPages markPage start n words = .ok words' ∧ words'.length = words.length ∧
      ∀ j, test words' j = (test words j || decide (start ≤ j ∧ j < start + n)) := by
  induction n with
  | zero => exact ⟨words, rfl, rfl, fun j => by simp⟩
  | succ n ih =>
    obtain ⟨words', hrun, hlen, htest⟩ := ih fun k hk => h k (by omega)
    have hin : (start + n) / 64 < words'.length := by rw [hlen]; exact h n (by omega)
    refine ⟨mark words' (start + n), ?_, by simp [hlen], fun j => ?_⟩
    · simp [forPages, hrun, bind, Except.bind, markPage, hin]
    · rw [test_mark (by omega) hin, htest, Bool.or_assoc]
      congr 1
      rw [← Bool.decide_or]
      exact decide_eq_decide.mpr (by omega)

/-- The second pass clears exactly the usable pages. -/
theorem freeUsable_spec (h : ∀ j, UsablePage map j → j / 64 < words.length) :
    ∃ words', freeUsable map words = .ok words' ∧ words'.length = words.length ∧
      ∀ j, test words' j = false ↔ test words j = false ∨ UsablePage map j := by
  induction map generalizing words with
  | nil => exact ⟨words, rfl, rfl, fun j => by simp [UsablePage]⟩
  | cons x es ih =>
    have hskip : (∀ j, UsablePage (x :: es) j ↔ UsablePage es j) →
        freeUsable (x :: es) words = freeUsable es words →
        ∃ words', freeUsable (x :: es) words = .ok words' ∧ words'.length = words.length ∧
          ∀ j, test words' j = false ↔ test words j = false ∨ UsablePage (x :: es) j := by
      intro hiff heq
      obtain ⟨words', hrun, hlen, htest⟩ := ih fun j hj => h j ((hiff j).mpr hj)
      exact ⟨words', by rw [heq, hrun], hlen, fun j => by rw [htest, hiff]⟩
    cases x with
    | none => exact hskip (fun j => by simp [UsablePage]) rfl
    | some e =>
      by_cases husable : e.type = memmapUsable
      · have hpage : ∀ j, UsablePage (some e :: es) j ↔
            (e.base / pageSize ≤ j ∧ j < e.base / pageSize + e.length / pageSize) ∨
              UsablePage es j := by
          intro j
          simp only [UsablePage, List.mem_cons, Option.some.injEq]
          constructor
          · rintro ⟨f, rfl | hf, hrest⟩
            · exact Or.inl hrest.2
            · exact Or.inr ⟨f, hf, hrest⟩
          · rintro (hj | ⟨f, hf, hrest⟩)
            · exact ⟨e, Or.inl rfl, husable, hj⟩
            · exact ⟨f, Or.inr hf, hrest⟩
        obtain ⟨words₁, hrun₁, hlen₁, htest₁⟩ := forPages_clearPage words
          (e.base / pageSize) (e.length / pageSize) fun k hk =>
            h _ ((hpage _).mpr (Or.inl ⟨by omega, by omega⟩))
        obtain ⟨words', hrun, hlen, htest⟩ := ih fun j hj => by
          show j / 64 < words₁.length
          rw [hlen₁]
          exact h j ((hpage j).mpr (Or.inr hj))
        refine ⟨words', ?_, hlen.trans hlen₁, fun j => ?_⟩
        · simp [freeUsable, husable, hrun₁, hrun, bind, Except.bind]
        · rw [htest, htest₁, hpage]
          simp only [Bool.and_eq_false_iff, Bool.not_eq_false', decide_eq_true_eq, or_assoc]
      · refine hskip (fun j => ?_) (by simp [freeUsable, husable])
        simp only [UsablePage, List.mem_cons, Option.some.injEq]
        constructor
        · rintro ⟨f, rfl | hf, hrest⟩
          · exact absurd hrest.1 husable
          · exact ⟨f, hf, hrest⟩
        · rintro ⟨f, hf, hrest⟩
          exact ⟨f, Or.inr hf, hrest⟩

/-- What the first pass establishes: `highest` bounds every usable entry, and the
largest region, if there is one, is an entry of the map. -/
structure ScanSpec (map : List (Option MemmapEntry)) (acc : MemmapScan) : Prop where
  highest : ∀ e, some e ∈ map → e.type = memmapUsable → e.base + e.length ≤ acc.highest
  bounded : acc.highest < 2 ^ 64
  largest : acc.largestLen ≠ 0 → ∃ e, some e ∈ map ∧ e.type = memmapUsable ∧
    e.base = acc.largestBase ∧ e.length = acc.largestLen

/-- SOURCE: mm.rs:117-135 -/
theorem scanMemmap_spec (hmap : ∀ e, some e ∈ map → e.type = memmapUsable →
    e.base + e.length < 2 ^ 64) :
    ∃ acc, scanMemmap map ⟨0, 0, 0⟩ = .ok acc ∧ ScanSpec map acc := by
  -- the entries already seen are carried along as `seen`
  suffices hgen : ∀ (es seen : List (Option MemmapEntry)) (acc : MemmapScan),
      (∀ e, some e ∈ es → e.type = memmapUsable → e.base + e.length < 2 ^ 64) →
      ScanSpec seen acc → ∃ acc', scanMemmap es acc = .ok acc' ∧ ScanSpec (seen ++ es) acc' by
    simpa using hgen map [] ⟨0, 0, 0⟩ hmap ⟨by simp, by simp, by simp⟩
  intro es
  induction es with
  | nil => exact fun seen acc _ h => ⟨acc, rfl, by simpa using h⟩
  | cons x es ih =>
    intro seen acc hes h
    have hskip : (∀ e, x = some e → e.type ≠ memmapUsable) → ScanSpec (seen ++ [x]) acc := by
      intro hx
      refine ⟨fun e he hu => ?_, h.bounded, fun hl => ?_⟩
      · simp only [List.mem_append, List.mem_singleton] at he
        rcases he with he | he
        · exact h.highest e he hu
        · exact absurd hu (hx e he.symm)
      · obtain ⟨e, he, hrest⟩ := h.largest hl
        exact ⟨e, by simp [he], hrest⟩
    have htail := fun acc' (h' : ScanSpec (seen ++ [x]) acc') =>
      ih (seen ++ [x]) acc' (fun e he => hes e (List.mem_cons_of_mem _ he)) h'
    simp only [List.append_assoc, List.cons_append, List.nil_append] at htail
    cases x with
    | none => simpa [scanMemmap] using htail acc (hskip (by simp))
    | some e =>
      by_cases husable : e.type = memmapUsable
      · have hsum := hes e List.mem_cons_self husable
        simp only [scanMemmap, husable, ne_eq, not_true_eq_false, if_false, addU64_eq_ok hsum,
          bind, Except.bind]
        refine htail _ ⟨fun f hf hu => ?_, ?_, fun hl => ?_⟩
        · simp only [List.mem_append, List.mem_singleton, Option.some.injEq] at hf
          simp only [MemmapScan.record]
          rcases hf with hf | rfl
          · have := h.highest f hf hu
            split <;> omega
          · split <;> omega
        · have := h.bounded
          simp only [MemmapScan.record]
          split <;> omega
        · simp only [MemmapScan.record] at hl ⊢
          by_cases hlen : e.length > acc.largestLen
          · exact ⟨e, by simp, husable, by simp [hlen], by simp [hlen]⟩
          · simp only [if_neg hlen] at hl ⊢
            obtain ⟨f, hf, hrest⟩ := h.largest hl
            exact ⟨f, by simp [hf], hrest⟩
      · have := htail acc (hskip (by rintro f ⟨⟩; exact husable))
        simpa [scanMemmap, husable] using this

/-- What `pmm_init` leaves when it returns. -/
structure PmmInit (map : List (Option MemmapEntry)) (p : Pmm) : Prop where
  aligned : p.bitmapPhysical % pageSize = 0
  length : p.words.length = p.entries
  entries_pos : 0 < p.entries
  entries_lt : p.entries < 2 ^ 47
  hint : p.hint = 0
  clear_iff : ∀ j, test p.words j = false ↔ UsablePage map j ∧ ¬BitmapPage p j

/-- `pmm_init` touches no word outside the bitmap: unless it panics it returns, with
the bits of exactly the available frames clear. -/
theorem pmmInit_spec (hmap : LimineMemmap map) {hhdm : ℕ}
    (hrun : ∀ f, pmmInit (some map) (some hhdm) = .error f → f = .outOfBounds) :
    ∃ p, pmmInit (some map) (some hhdm) = .ok p ∧ PmmInit map p := by
  obtain ⟨acc, hscan, hacc⟩ := scanMemmap_spec hmap.bounded
  have hhigh := hacc.bounded
  simp only [pmmInit, hscan, bind, Except.bind] at hrun ⊢
  by_cases hlen : acc.largestLen = 0
  · simp [hlen, throw, throwThe, MonadExceptOf.throw] at hrun
  obtain ⟨e, he, hu, hbase, hlength⟩ := hacc.largest hlen
  have hal := hmap.aligned e he hu
  have htop := hacc.highest e he hu
  rw [hbase, hlength] at hal htop
  simp only [hlen, if_false] at hrun ⊢
  by_cases hfit : bitmapPages ((acc.highest / pageSize + 63) / 64) > acc.largestLen / pageSize
  · simp [hfit, throw, throwThe, MonadExceptOf.throw] at hrun
  simp only [hfit, if_false, addU64_eq_ok (show acc.largestBase + acc.largestLen < 2 ^ 64 by omega)]
    at hrun ⊢
  by_cases hvirt : (acc.largestBase + acc.largestLen -
      bitmapPages ((acc.highest / pageSize + 63) / 64) * pageSize) / pageSize * pageSize + hhdm <
        2 ^ 64
  swap
  · have hov := hrun .overflow (by simp only [addU64, if_neg hvirt])
    cases hov
  simp only [pure, Except.pure, addU64_eq_ok hvirt]
  -- the geometry of the bitmap, with the page size a literal for the arithmetic
  generalize hentries : (acc.highest / pageSize + 63) / 64 = entries at *
  generalize hpages : bitmapPages entries = pages at *
  simp only [pageSize] at *
  have hpos : 0 < entries := by omega
  have husable : ∀ j, UsablePage map j → j / 64 < entries := by
    rintro j ⟨f, hf, hfu, h₁, h₂⟩
    have := hacc.highest f hf hfu
    simp only [pageSize] at h₁ h₂
    omega
  obtain ⟨words₁, hfree, hlen₁, htest₁⟩ := freeUsable_spec
    (show ∀ j, UsablePage map j →
      j / 64 < (List.replicate entries (BitVec.allOnes 64)).length by simpa using husable)
  have hphys : (acc.largestBase + acc.largestLen - pages * 4096) / 4096 * 4096 / 4096 + pages ≤
      acc.highest / 4096 := by omega
  obtain ⟨words₂, hmark, hlen₂, htest₂⟩ := forPages_markPage words₁
    ((acc.largestBase + acc.largestLen - pages * 4096) / 4096 * 4096 / 4096) pages (by
      intro k hk
      rw [hlen₁, List.length_replicate]
      omega)
  refine ⟨⟨(acc.largestBase + acc.largestLen - pages * 4096) / 4096 * 4096, entries, words₂, 0⟩,
    ?_, ?_, ?_, hpos, ?_, rfl, fun j => ?_⟩
  · simp only [hfree, hmark]
  · simp only [pageSize]
    omega
  · simpa [hlen₁] using hlen₂
  · show entries < 2 ^ 47
    omega
  · have hones : test (List.replicate entries (BitVec.allOnes 64)) j = true := by
      unfold test
      rw [List.getD_eq_getElem?_getD, List.getElem?_replicate]
      split <;>
        simp only [Option.getD_some, Option.getD_none, BitVec.getLsbD_allOnes, decide_eq_true_eq] <;>
        exact Nat.mod_lt _ (by omega)
    rw [htest₂, Bool.or_eq_false_iff, htest₁, hones]
    simp only [Bool.true_eq_false, false_or, decide_eq_false_iff_not, BitmapPage, hpages, pageSize]

/-- An available frame, read as a page number. -/
theorem PmmInit.frame_iff {p : Pmm} (h : PmmInit map p) (hmap : LimineMemmap map) {f : ℕ} :
    Frame map p f ↔ f % pageSize = 0 ∧ UsablePage map (f / pageSize) ∧
      ¬BitmapPage p (f / pageSize) := by
  have hal := h.aligned
  unfold Frame BitmapPage UsablePage
  simp only [pageSize] at *
  constructor
  · rintro ⟨hf, ⟨e, he, hu, h₁, h₂⟩, hb⟩
    have := hmap.aligned e he hu
    simp only [pageSize] at this
    exact ⟨hf, ⟨e, he, hu, by omega, by omega⟩, by omega⟩
  · rintro ⟨hf, ⟨e, he, hu, h₁, h₂⟩, hb⟩
    have := hmap.aligned e he hu
    simp only [pageSize] at this
    exact ⟨hf, ⟨e, he, hu, by omega, by omega⟩, by omega⟩

/-! ## One call -/

/-- One turn of the scan, at a word of the bitmap. -/
theorem pmmScan_succ {p : Pmm} {n scanned : ℕ} {word : BitVec 64}
    (hhint : p.hint + scanned < 2 ^ 64)
    (hword : p.words[(p.hint + scanned) % p.entries]? = some word) :
    pmmScan p (n + 1) scanned =
      if word = BitVec.allOnes 64 then pmmScan p n (scanned + 1)
      else match lowestClear word with
        | some bit => .ok (some ((p.hint + scanned) % p.entries, bit))
        | none => pmmScan p n (scanned + 1) := by
  rw [pmmScan, addU64_eq_ok hhint]
  dsimp only [bind, Except.bind]
  rw [hword]
  rfl

/-- The scan finds a clear bit, or every bit of the words it looked at is set.  No
word outside the bitmap is read. -/
theorem pmmScan_spec {p : Pmm} (hlen : p.words.length = p.entries) (hpos : 0 < p.entries)
    (n scanned : ℕ) (hhint : p.hint + scanned + n ≤ 2 ^ 64) :
    (∃ index bit, pmmScan p n scanned = .ok (some (index, bit)) ∧ bit < 64 ∧
      index < p.entries ∧ test p.words (index * 64 + bit) = false) ∨
    (pmmScan p n scanned = .ok none ∧ ∀ k < n, ∀ bit < 64,
      test p.words ((p.hint + (scanned + k)) % p.entries * 64 + bit) = true) := by
  induction n generalizing scanned with
  | zero => exact Or.inr ⟨rfl, by simp⟩
  | succ n ih =>
    have hidx : (p.hint + scanned) % p.entries < p.words.length := by
      rw [hlen]
      exact Nat.mod_lt _ hpos
    have hword := List.getElem?_eq_getElem hidx
    -- when this word is full, the result is that of the words behind it
    have hnext : pmmScan p (n + 1) scanned = pmmScan p n (scanned + 1) →
        (∀ bit < 64, test p.words ((p.hint + scanned) % p.entries * 64 + bit) = true) →
        (∃ index bit, pmmScan p (n + 1) scanned = .ok (some (index, bit)) ∧ bit < 64 ∧
          index < p.entries ∧ test p.words (index * 64 + bit) = false) ∨
        (pmmScan p (n + 1) scanned = .ok none ∧ ∀ k < n + 1, ∀ bit < 64,
          test p.words ((p.hint + (scanned + k)) % p.entries * 64 + bit) = true) := by
      intro hstep hfull
      rw [hstep]
      refine (ih (scanned + 1) (by omega)).imp id fun ⟨hnone, hrest⟩ => ⟨hnone, fun k hk => ?_⟩
      rcases Nat.eq_zero_or_pos k with rfl | hk0
      · simpa using hfull
      · have := hrest (k - 1) (by omega)
        rwa [show scanned + 1 + (k - 1) = scanned + k by omega] at this
    have hstep := pmmScan_succ (n := n) (show p.hint + scanned < 2 ^ 64 by omega) hword
    by_cases hones : p.words[(p.hint + scanned) % p.entries] = BitVec.allOnes 64
    · refine hnext (by rw [hstep, if_pos hones]) fun bit hbit => ?_
      rw [test_word hword hbit, hones, BitVec.getLsbD_allOnes]
      exact decide_eq_true hbit
    · rw [if_neg hones] at hstep
      cases hclear : lowestClear p.words[(p.hint + scanned) % p.entries] with
      | some bit =>
        obtain ⟨hbit, hfree⟩ := lowestClear_eq_some hclear
        refine Or.inl ⟨_, bit, ?_, hbit, hlen ▸ hidx, by rw [test_word hword hbit, hfree]⟩
        rw [hstep, hclear]
      | none =>
        refine hnext (by rw [hstep, hclear]) fun bit hbit => ?_
        rw [test_word hword hbit]
        exact lowestClear_eq_none hclear hbit

/-- A call of `pmm_alloc_page` returns, whatever the cursor: a page whose bit was
clear, now set, or `PMM_NO_PAGE` when every bit is set. -/
theorem pmmAllocPage_spec {p : Pmm} (hlen : p.words.length = p.entries) (hpos : 0 < p.entries)
    (hhint : p.hint + p.entries ≤ 2 ^ 64) :
    (∃ j p', pmmAllocPage p = .ok (j * pageSize, p') ∧ j / 64 < p.entries ∧
      test p.words j = false ∧ p'.words = mark p.words j ∧ p'.entries = p.entries ∧
      p'.bitmapPhysical = p.bitmapPhysical ∧ p'.hint < p.entries) ∨
    (pmmAllocPage p = .ok (pmmNoPage, p) ∧ ∀ j, test p.words j = true) := by
  obtain ⟨index, bit, hscan, hbit, hidx, hfree⟩ | ⟨hscan, hfull⟩ :=
    pmmScan_spec hlen hpos p.entries 0 (by omega)
  · left
    have hpage : (index * 64 + bit) / 64 = index := by omega
    refine ⟨index * 64 + bit, { p with
      words := mark p.words (index * 64 + bit), hint := (index * 64 + bit + 1) % p.entries },
      ?_, by omega, hfree, rfl, rfl, rfl, Nat.mod_lt _ hpos⟩
    simp [pmmAllocPage, hpos.ne', hscan, bind, Except.bind, pure, Except.pure, markPage, hpage,
      hlen, hidx]
  · right
    refine ⟨by simp [pmmAllocPage, hpos.ne', hscan, bind, Except.bind, pure, Except.pure], ?_⟩
    intro j
    by_cases hj : j / 64 < p.entries
    · obtain ⟨k, hk, hkj⟩ := exists_offset p.hint hj
      have := hfull k hk (j % 64) (Nat.mod_lt _ (by omega))
      rwa [Nat.zero_add, hkj, Nat.mul_comm, Nat.div_add_mod] at this
    · exact test_of_length_le (by omega) (by omega)

/-- A bit the scan returns is clear, in any state of the allocator. -/
theorem pmmScan_clear {p : Pmm} {n scanned index bit : ℕ}
    (h : pmmScan p n scanned = .ok (some (index, bit))) :
    test p.words (index * 64 + bit) = false := by
  induction n generalizing scanned with
  | zero => cases h
  | succ n ih =>
    unfold pmmScan addU64 at h
    by_cases hsum : p.hint + scanned < 2 ^ 64
    · simp only [if_pos hsum, bind, Except.bind] at h
      split at h
      · cases h
      · rename_i word hword
        split at h
        · exact ih h
        · split at h
          · rename_i b hclear
            cases h
            obtain ⟨hbit, hfree⟩ := lowestClear_eq_some hclear
            rw [test_word hword hbit, hfree]
          · exact ih h
    · simp only [if_neg hsum, bind, Except.bind] at h
      cases h

/-- What a call of `pmm_alloc_page` that returns has done, in any state of the
allocator. -/
theorem pmmAllocPage_ok {p p' : Pmm} {page : ℕ} (h : pmmAllocPage p = .ok (page, p')) :
    (page = pmmNoPage ∧ p' = p) ∨
      ∃ j, page = j * pageSize ∧ test p.words j = false ∧ p'.words = mark p.words j := by
  unfold pmmAllocPage at h
  split at h
  · cases hscan : pmmScan p p.entries 0 with
    | error e =>
      simp only [hscan, bind, Except.bind] at h
      cases h
    | ok r =>
      cases r with
      | none =>
        simp only [hscan, bind, Except.bind, pure, Except.pure, Except.ok.injEq,
          Prod.mk.injEq] at h
        exact Or.inl ⟨h.1.symm, h.2.symm⟩
      | some r =>
        simp only [hscan, bind, Except.bind, markPage] at h
        split at h
        · cases h
        · rename_i words hmark
          split at hmark
          · cases hmark
            simp only [pure, Except.pure, Except.ok.injEq, Prod.mk.injEq] at h
            obtain ⟨rfl, rfl⟩ := h
            exact Or.inr ⟨_, rfl, pmmScan_clear hscan, rfl⟩
          · cases hmark
  · simp only [Except.ok.injEq, Prod.mk.injEq] at h
    exact Or.inl ⟨h.1.symm, h.2.symm⟩

/-- A call of `pmm_free_page` on a frame of the bitmap clears its bit. -/
theorem pmmFreePage_spec {p : Pmm} (hlen : p.words.length = p.entries) {f : ℕ}
    (hf : f % pageSize = 0) (hin : f / pageSize / 64 < p.entries) :
    ∃ p', pmmFreePage p f = .ok p' ∧ p'.words = clear p.words (f / pageSize) ∧
      p'.entries = p.entries ∧ p'.bitmapPhysical = p.bitmapPhysical ∧ p'.hint ≤ p.hint := by
  have hclear : clearPage p.words (f / pageSize) = .ok (clear p.words (f / pageSize)) :=
    if_pos (hlen ▸ hin)
  simp only [pmmFreePage, hf, ne_eq, not_true_eq_false, if_false,
    if_neg (show ¬f / pageSize / 64 ≥ p.entries by omega), hclear, bind, Except.bind]
  refine ⟨_, rfl, rfl, rfl, rfl, ?_⟩
  simp only
  split <;> omega

/-! ## Runs -/

/-- The allocator with the frames handed out and not yet freed. -/
structure PmmRun where
  pmm : Pmm
  out : List ℕ

/-- The calls of a run. -/
inductive PmmEvent where
  | alloc (page : ℕ)
  | free (page : ℕ)

/-- One returned call; only frames that are handed out are freed. -/
inductive PmmStep : PmmRun → PmmEvent → PmmRun → Prop
  | alloc {s : PmmRun} {page : ℕ} {p : Pmm} :
      pmmAllocPage s.pmm = .ok (page, p) →
      PmmStep s (.alloc page) ⟨p, if page = pmmNoPage then s.out else page :: s.out⟩
  | free {s : PmmRun} {page : ℕ} {p : Pmm} :
      page ∈ s.out → pmmFreePage s.pmm page = .ok p →
      PmmStep s (.free page) ⟨p, s.out.erase page⟩

/-- The invariant: a bit is clear exactly when its frame is available and not handed
out. -/
structure PmmInv (map : List (Option MemmapEntry)) (p₀ : Pmm) (s : PmmRun) : Prop where
  entries : s.pmm.entries = p₀.entries
  physical : s.pmm.bitmapPhysical = p₀.bitmapPhysical
  length : s.pmm.words.length = s.pmm.entries
  hint : s.pmm.hint < p₀.entries
  nodup : s.out.Nodup
  frames : ∀ f ∈ s.out, Frame map p₀ f
  clear_iff : ∀ j, test s.pmm.words j = false ↔
    Frame map p₀ (j * pageSize) ∧ j * pageSize ∉ s.out

variable {p₀ : Pmm} {s : PmmRun}

/-- The page of an available frame is a bit of the bitmap. -/
theorem PmmInit.page_lt (h : PmmInit map p₀) (hmap : LimineMemmap map) {f : ℕ}
    (hf : Frame map p₀ f) : f / pageSize / 64 < p₀.entries := by
  by_contra hge
  have htrue : test p₀.words (f / pageSize) = true :=
    test_of_length_le (by omega) (by rw [h.length]; omega)
  have hfalse := (h.clear_iff (f / pageSize)).mpr ((h.frame_iff hmap).mp hf).2
  rw [htrue] at hfalse
  cases hfalse

theorem PmmInit.inv (h : PmmInit map p₀) (hmap : LimineMemmap map) :
    PmmInv map p₀ ⟨p₀, []⟩ where
  entries := rfl
  physical := rfl
  length := h.length
  hint := by rw [h.hint]; exact h.entries_pos
  nodup := List.nodup_nil
  frames := by simp
  clear_iff j := by
    rw [h.clear_iff, h.frame_iff hmap]
    simp [pageSize]

/-- What one `pmm_alloc_page` does from a state of the invariant, for any cursor. -/
theorem PmmInv.alloc_spec (h₀ : PmmInit map p₀) (h : PmmInv map p₀ s) {hint : ℕ}
    (hhint : hint + p₀.entries ≤ 2 ^ 64) :
    (∃ j p', pmmAllocPage { s.pmm with hint := hint } = .ok (j * pageSize, p') ∧
      Frame map p₀ (j * pageSize) ∧ j * pageSize ∉ s.out ∧ j * pageSize ≠ pmmNoPage ∧
      PmmInv map p₀ ⟨p', j * pageSize :: s.out⟩) ∨
    (pmmAllocPage { s.pmm with hint := hint } = .ok (pmmNoPage, { s.pmm with hint := hint }) ∧
      ∀ f, Frame map p₀ f → f ∈ s.out) := by
  have hpos := h₀.entries_pos
  obtain ⟨j, p', hrun, hj, hfree, hwords, hent, hphys, hhint'⟩ | ⟨hrun, hfull⟩ :=
    pmmAllocPage_spec (p := { s.pmm with hint := hint }) h.length
      (by simp only [h.entries]; exact hpos) (by simp only [h.entries]; exact hhint)
  · left
    simp only [h.entries] at hj hent hhint'
    obtain ⟨hframe, hout⟩ := (h.clear_iff j).mp hfree
    have hne : j * pageSize ≠ pmmNoPage := by
      simp only [pmmNoPage, pageSize]
      omega
    have hbit : j / 64 < s.pmm.words.length := by rw [h.length, h.entries]; exact hj
    refine ⟨j, p', hrun, hframe, hout, hne, hent, hphys.trans h.physical, ?_, hhint', ?_, ?_, ?_⟩
    · rw [hwords, hent, length_mark, h.length, h.entries]
    · exact List.nodup_cons.mpr ⟨hout, h.nodup⟩
    · intro f hf
      rcases List.mem_cons.mp hf with rfl | hf
      · exact hframe
      · exact h.frames f hf
    · intro k
      rw [hwords, test_mark (by omega) hbit, Bool.or_eq_false_iff, h.clear_iff]
      simp only [decide_eq_false_iff_not, List.mem_cons, not_or, pageSize]
      constructor
      · rintro ⟨⟨h₁, h₂⟩, h₃⟩
        exact ⟨h₁, by omega, h₂⟩
      · rintro ⟨h₁, h₂, h₃⟩
        exact ⟨⟨h₁, h₃⟩, by omega⟩
  · right
    refine ⟨hrun, fun f hf => ?_⟩
    by_contra hout
    have heq : f / pageSize * pageSize = f := by
      have := hf.1
      simp only [pageSize] at this ⊢
      omega
    have := (h.clear_iff (f / pageSize)).mpr (by rw [heq]; exact ⟨hf, hout⟩)
    simp only at hfull
    rw [hfull] at this
    cases this

/-- Freeing a frame that is handed out keeps the invariant. -/
theorem PmmInv.free_spec (h₀ : PmmInit map p₀) (hmap : LimineMemmap map) (h : PmmInv map p₀ s)
    {f : ℕ} (hf : f ∈ s.out) :
    ∃ p', pmmFreePage s.pmm f = .ok p' ∧ PmmInv map p₀ ⟨p', s.out.erase f⟩ := by
  have hframe := h.frames f hf
  have hlt := h₀.page_lt hmap hframe
  rw [← h.entries] at hlt
  obtain ⟨p', hrun, hwords, hent, hphys, hhint⟩ := pmmFreePage_spec h.length hframe.1 hlt
  have hfeq : f / pageSize * pageSize = f := by
    have := hframe.1
    simp only [pageSize] at this ⊢
    omega
  refine ⟨p', hrun, hent.trans h.entries, hphys.trans h.physical, ?_, lt_of_le_of_lt hhint h.hint,
    h.nodup.erase f, fun g hg => h.frames g (List.mem_of_mem_erase hg), fun k => ?_⟩
  · rw [hwords, hent, length_clear, h.length]
  · have hmem : k * pageSize ∈ s.out.erase f ↔ k * pageSize ≠ f ∧ k * pageSize ∈ s.out :=
      h.nodup.mem_erase_iff
    have hkf : k = f / pageSize ↔ k * pageSize = f := by
      simp only [pageSize] at hfeq ⊢
      omega
    rw [hwords, test_clear (by omega) (by rw [h.length]; exact hlt), Bool.and_eq_false_iff,
      h.clear_iff, hmem, Bool.not_eq_false', decide_eq_true_eq, hkf]
    constructor
    · rintro (⟨h₁, h₂⟩ | rfl)
      · exact ⟨h₁, fun h₃ => h₂ h₃.2⟩
      · exact ⟨hframe, fun h₃ => h₃.1 rfl⟩
    · rintro ⟨h₁, h₂⟩
      by_cases hk : k * pageSize = f
      · exact Or.inr hk
      · exact Or.inl ⟨h₁, fun h₃ => h₂ ⟨hk, h₃⟩⟩

theorem pmmInv_step (h₀ : PmmInit map p₀) (hmap : LimineMemmap map) {e : PmmEvent} {s' : PmmRun}
    (h : PmmInv map p₀ s) (hstep : PmmStep s e s') : PmmInv map p₀ s' := by
  cases hstep with
  | alloc hrun =>
    have hhint := h.hint
    have hbound := h₀.entries_lt
    obtain ⟨j, p', hrun', -, -, hne, hinv⟩ | ⟨hrun', -⟩ :=
      h.alloc_spec h₀ (show s.pmm.hint + p₀.entries ≤ 2 ^ 64 by omega)
    · rw [hrun, Except.ok.injEq, Prod.mk.injEq] at hrun'
      obtain ⟨rfl, rfl⟩ := hrun'
      rwa [if_neg hne]
    · rw [hrun, Except.ok.injEq, Prod.mk.injEq] at hrun'
      obtain ⟨rfl, rfl⟩ := hrun'
      rwa [if_pos rfl]
  | free hf hrun =>
    obtain ⟨p', hrun', hinv⟩ := h.free_spec h₀ hmap hf
    rw [hrun, Except.ok.injEq] at hrun'
    subst hrun'
    exact hinv

/-- **The frame allocator.**  On every memory map the bootloader may pass and on
which `pmm_init` does not panic, `pmm_init` returns without touching a word
outside the bitmap; and after any run of allocations and of frees of frames
handed out, the frames handed out are distinct available frames, every further
call returns, and `pmm_alloc_page` reports exhaustion exactly when every
available frame is handed out, for every value of the cursor. -/
theorem frames_handed_out_once (map : List (Option MemmapEntry)) (hmap : LimineMemmap map)
    (hhdm : ℕ) (hrun : ∀ f, pmmInit (some map) (some hhdm) = .error f → f = .outOfBounds) :
    ∃ p₀, pmmInit (some map) (some hhdm) = .ok p₀ ∧
      ∀ s, Reachable (fun s => s = ⟨p₀, []⟩) PmmStep s →
        s.out.Nodup ∧ (∀ f ∈ s.out, Frame map p₀ f) ∧
        s.pmm.hint + p₀.entries ≤ 2 ^ 64 ∧
        (∀ hint, hint + p₀.entries ≤ 2 ^ 64 → ∃ page p,
          pmmAllocPage { s.pmm with hint := hint } = .ok (page, p) ∧
          (page = pmmNoPage ↔ ∀ f, Frame map p₀ f → f ∈ s.out) ∧
          (page ≠ pmmNoPage → Frame map p₀ page ∧ page ∉ s.out)) ∧
        ∀ f ∈ s.out, ∃ p, pmmFreePage s.pmm f = .ok p := by
  obtain ⟨p₀, hinit, h₀⟩ := pmmInit_spec hmap hrun
  refine ⟨p₀, hinit, fun s hs => ?_⟩
  have h : PmmInv map p₀ s := by
    refine hs.invariant ?_ fun _ _ _ h hstep => pmmInv_step h₀ hmap h hstep
    rintro _ rfl
    exact h₀.inv hmap
  have hhint := h.hint
  have hbound := h₀.entries_lt
  refine ⟨h.nodup, h.frames, by omega, fun hint hle => ?_, fun f hf => ?_⟩
  · obtain ⟨j, p', halloc, hframe, hout, hne, -⟩ | ⟨halloc, hall⟩ := h.alloc_spec h₀ hle
    · exact ⟨_, p', halloc, ⟨fun heq => absurd heq hne, fun hall => absurd (hall _ hframe) hout⟩,
        fun _ => ⟨hframe, hout⟩⟩
    · exact ⟨_, _, halloc, ⟨fun _ => hall, fun _ => rfl⟩, fun hne => absurd rfl hne⟩
  · obtain ⟨p', hfree, -⟩ := h.free_spec h₀ hmap hf
    exact ⟨p', hfree⟩

theorem PmmStep.take {p p' : Pmm} {out : List ℕ} {page : ℕ} (hrun : pmmAllocPage p = .ok (page, p'))
    (hne : page ≠ pmmNoPage) : PmmStep ⟨p, out⟩ (.alloc page) ⟨p', page :: out⟩ := by
  have hstep := PmmStep.alloc (s := ⟨p, out⟩) hrun
  rwa [if_neg hne] at hstep

/-- Four pages, one of them for the bitmap.  Two frames are taken, the first is given back and taken
again, and then the third: these are all frames there are. -/
theorem frames_handed_out_once_four_pages :
    LimineMemmap [some ⟨0, 16384, 0⟩, none] ∧
    ∃ p₀ s, pmmInit (some [some ⟨0, 16384, 0⟩, none]) (some 0) = .ok p₀ ∧
      Reachable (fun s => s = ⟨p₀, []⟩) PmmStep s ∧ s.out = [8192, 0, 4096] ∧ s.out.Nodup ∧
      ∀ f, Frame [some ⟨0, 16384, 0⟩, none] p₀ f ↔ f ∈ s.out := by
  have hmap : LimineMemmap [some ⟨0, 16384, 0⟩, none] := by
    refine ⟨?_, ?_, ?_⟩
    · rintro e he -
      simp only [List.mem_cons, Option.some.injEq, reduceCtorEq, List.not_mem_nil, or_false] at he
      subst he
      decide
    · rintro e he -
      simp only [List.mem_cons, Option.some.injEq, reduceCtorEq, List.not_mem_nil, or_false] at he
      subst he
      decide
    · simp
  have hcalls : (pmmInit (some [some ⟨0, 16384, 0⟩, none]) (some 0) >>= fun p₀ =>
      pmmAllocPage p₀ >>= fun r₁ => pmmAllocPage r₁.2 >>= fun r₂ => pmmFreePage r₂.2 0 >>= fun p₃ =>
      pmmAllocPage p₃ >>= fun r₄ => pmmAllocPage r₄.2 >>= fun r₅ => pmmAllocPage r₅.2 >>= fun r₆ =>
      pure [r₁.1, r₂.1, r₄.1, r₅.1, r₆.1]) = .ok [0, 4096, 0, 8192, pmmNoPage] := by
    decide +kernel
  obtain ⟨p₀, hinit, hcalls⟩ := except_bind_eq_ok.mp hcalls
  obtain ⟨⟨_, p₁⟩, h₁, hcalls⟩ := except_bind_eq_ok.mp hcalls
  obtain ⟨⟨_, p₂⟩, h₂, hcalls⟩ := except_bind_eq_ok.mp hcalls
  obtain ⟨p₃, h₃, hcalls⟩ := except_bind_eq_ok.mp hcalls
  obtain ⟨⟨_, p₄⟩, h₄, hcalls⟩ := except_bind_eq_ok.mp hcalls
  obtain ⟨⟨_, p₅⟩, h₅, hcalls⟩ := except_bind_eq_ok.mp hcalls
  obtain ⟨⟨_, p₆⟩, h₆, hcalls⟩ := except_bind_eq_ok.mp hcalls
  cases hcalls
  have hreach : Reaches PmmStep ⟨p₀, []⟩ ⟨p₅, [8192, 0, 4096]⟩ :=
    (((((Reaches.refl _).tail (.take h₁ (by decide))).tail (.take h₂ (by decide))).tail
      (.free (show 0 ∈ [4096, 0] by simp) h₃)).tail (.take h₄ (by decide))).tail
      (.take h₅ (by decide))
  obtain ⟨p₀', hinit', hall⟩ := frames_handed_out_once _ hmap 0 fun f hf => by
    rw [hinit] at hf
    cases hf
  cases hinit.symm.trans hinit'
  obtain ⟨hnodup, hframes, hhint, hnext, -⟩ := hall _ ⟨_, rfl, hreach⟩
  obtain ⟨page, p, halloc, hnone, -⟩ := hnext p₅.hint hhint
  cases h₆.symm.trans halloc
  exact ⟨hmap, p₀, _, hinit, ⟨_, rfl, hreach⟩, rfl, hnodup, fun f => ⟨hnone.mp rfl f, hframes f⟩⟩

end Pinx.Analysis
