import Pinx.Analysis.HeapInvariant

/-!
# The heap gives back what is freed

Between live blocks no memory is stranded: a request is refused only where no gap between
them has room for it and a header, and with nothing live the heap is the block it started as.
Both follow from the invariant.  The blocks tile the window, and every gap is one free block,
since no two neighbours are free.
-/

namespace Pinx.Analysis

open Pinx.Foundation Pinx.Foundation.FreeList Pinx.Model

variable {pages : ℕ} {s : HeapRun} {bs : List Block}

/-- The `len` bytes from `a` on meet no live block, each taken with its header and with the size
the header has. -/
def ClearOfLive (s : HeapRun) (a len : ℕ) : Prop :=
  ∀ e ∈ s.live, a + len ≤ e.1 - heapBlockSize ∨ e.1 + s.heap.mem.size (e.1 - heapBlockSize) ≤ a

/-- The live blocks are the blocks in use. -/
theorem HeapInv.clearOfLive_iff (h : HeapInv pages s bs) {a len : ℕ} :
    ClearOfLive s a len ↔ Vacant heapBlockSize bs a len := by
  have hsize : ∀ b ∈ bs, ∀ e, Backs b e →
      e.1 - heapBlockSize = b.addr ∧ s.heap.mem.size (e.1 - heapBlockSize) = b.size := by
    rintro b hb e ⟨-, hptr, -⟩
    rw [hptr, Nat.add_sub_cancel]
    exact ⟨rfl, h.chain.size_eq hb⟩
  constructor
  · intro hclear b hb hused
    obtain ⟨e, he, hback⟩ := h.used b hb hused
    have hclear := hclear e he
    rwa [(hsize b hb e hback).2, (hsize b hb e hback).1, hback.2.1] at hclear
  · intro hvac e he
    obtain ⟨b, hb, hback⟩ := h.backed e he
    rw [(hsize b hb e hback).2, (hsize b hb e hback).1, hback.2.1]
    exact hvac b hb hback.1

/-- A request is refused exactly when no gap between live blocks has room for it. -/
theorem HeapInv.kmalloc_null_iff (h : HeapInv pages s bs) {size fuel ptr : ℕ} {h' : Heap}
    (hpos : 0 < size) (hle : size ≤ 2 ^ 64 - 16)
    (hrun : kmalloc fuel s.heap size = .ok (ptr, h')) :
    ptr = 0 ↔ ¬∃ a, kheapStart ≤ a ∧
      a + (heapBlockSize + roundUp16 size) ≤ kheapStart + pages * pageSize ∧
      ClearOfLive s a (heapBlockSize + roundUp16 size) := by
  have hroom : (∃ a, kheapStart ≤ a ∧
      a + (heapBlockSize + roundUp16 size) ≤ kheapStart + pages * pageSize ∧
      ClearOfLive s a (heapBlockSize + roundUp16 size)) ↔
      ∃ b ∈ bs, b.free = true ∧ roundUp16 size ≤ b.size := by
    simp only [h.clearOfLive_iff]
    exact h.tiles.vacant_iff (by decide) h.separated
  rw [hroom]
  obtain ⟨rfl, -, hnone⟩ | ⟨r, m', -, hsome, rfl, -⟩ := h.kmalloc_eq hrun
  · refine iff_of_true rfl ?_
    rintro ⟨b, hb, hfree, hfit⟩
    have := firstFit_eq_none.mp (hnone hpos hle) b hb hfree
    omega
  · obtain ⟨pre, post, hbs, -, hfree, hfit⟩ := firstFit_eq_some hsome
    refine iff_of_false (by simp [heapBlockSize]) (not_not_intro ⟨r.1, ?_, hfree, hfit⟩)
    rw [hbs]
    exact List.mem_append_right pre List.mem_cons_self

/-- With nothing live the heap is one free block. -/
theorem HeapInv.single (h : HeapInv pages s bs) (hpages : 1 ≤ pages) (hlive : s.live = []) :
    bs = [⟨kheapStart, pages * pageSize - heapBlockSize, true⟩] := by
  have hlt : kheapStart < kheapStart + pages * pageSize := by
    unfold pageSize
    omega
  rw [h.tiles.eq_single h.separated hlt fun b hb => ?_, Nat.add_sub_cancel_left]
  cases hfree : b.free with
  | true => rfl
  | false =>
    obtain ⟨e, he, -⟩ := h.used b hb hfree
    rw [hlive] at he
    cases he

/-- **Recovery of the heap.**  Whatever was allocated, freed and stored since `kheap_init`,
`kmalloc` returns, and it returns null exactly when no stretch of the window outside the live
blocks has room for a header and the rounded size.  Once every pointer has been freed, the heap
is again the single free block it was. -/
theorem heap_recovers {avail : ℕ → Bool} {m : Words} {h₀ : Heap}
    (hinit : kheapInit avail m = .ok h₀) :
    ∃ pages, 1 ≤ pages ∧ Chain h₀.mem h₀.head
        [⟨kheapStart, pages * pageSize - heapBlockSize, true⟩] ∧
      ∀ s, Reaches HeapStep ⟨h₀, []⟩ s →
        (∀ size, 0 < size → size ≤ 2 ^ 64 - 16 → (∃ fuel r, kmalloc fuel s.heap size = .ok r) ∧
          ∀ fuel ptr h, kmalloc fuel s.heap size = .ok (ptr, h) →
            (ptr = 0 ↔ ¬∃ a, kheapStart ≤ a ∧
              a + (heapBlockSize + roundUp16 size) ≤ kheapStart + pages * pageSize ∧
              ClearOfLive s a (heapBlockSize + roundUp16 size))) ∧
        (s.live = [] → Chain s.heap.mem s.heap.head
          [⟨kheapStart, pages * pageSize - heapBlockSize, true⟩]) := by
  obtain ⟨pages, hpages, -, hstart⟩ := kheapInit_start hinit
  have hinv₀ := heapInv_init m hpages
  rw [← hstart] at hinv₀
  refine ⟨pages, hpages, hinv₀.chain, fun s hs => ?_⟩
  obtain ⟨bs, hinv⟩ := heapInv_reachable hpages ⟨_, hstart, hs⟩
  refine ⟨fun size hpos hle => ⟨hinv.kmalloc_returns size, fun fuel ptr h hrun =>
    hinv.kmalloc_null_iff hpos hle hrun⟩, fun hlive => ?_⟩
  have hchain := hinv.chain
  rwa [hinv.single hpages hlive] at hchain

/-- One page, `kmalloc(100)` and the `kfree` of what it returned. -/
theorem heap_recovers_after_free :
    ∃ h₀ h, kheapInit (fun i => i == 0) (fun _ => 0) = .ok h₀ ∧
      Reaches HeapStep ⟨h₀, []⟩ ⟨h, []⟩ ∧
      ∃ pages, Chain h.mem h.head [⟨kheapStart, pages * pageSize - heapBlockSize, true⟩] := by
  have hinit : kheapInit (fun i => i == 0) (fun _ => 0) = .ok (kheapFormat (fun _ => 0) 1) := rfl
  obtain ⟨h₁, hmalloc⟩ : ∃ h, kmalloc 1 (kheapFormat (fun _ => 0) 1) 100 =
    .ok (kheapStart + 32, h) := ⟨_, rfl⟩
  have hrun₁ : Reaches HeapStep ⟨kheapFormat (fun _ => 0) 1, []⟩ ⟨h₁, [(kheapStart + 32, 100)]⟩ := by
    have hstep := HeapStep.malloc (s := ⟨kheapFormat (fun _ => 0) 1, []⟩) hmalloc
    rw [if_neg (by omega)] at hstep
    exact (Reaches.refl _).tail hstep
  obtain ⟨bs, hinv⟩ := heapInv_reachable le_rfl ⟨_, rfl, hrun₁⟩
  obtain ⟨b, hb, hused, hptr, -⟩ := hinv.backed _ List.mem_cons_self
  obtain ⟨m, hfree, -⟩ := hinv.kfree_returns hb hused (Nat.lt_succ_self bs.length)
  rw [← hptr] at hfree
  have hrun : Reaches HeapStep ⟨kheapFormat (fun _ => 0) 1, []⟩ ⟨⟨h₁.head, m⟩, []⟩ := by
    have hstep := HeapStep.free (List.mem_cons_self (a := (kheapStart + 32, 100)) (l := [])) hfree
    simpa using hrun₁.tail hstep
  obtain ⟨pages, -, -, hall⟩ := heap_recovers hinit
  exact ⟨_, _, hinit, hrun, pages, (hall _ hrun).2 rfl⟩

end Pinx.Analysis
