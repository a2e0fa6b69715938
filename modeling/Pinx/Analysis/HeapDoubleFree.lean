import Pinx.Analysis.HeapInvariant

/-!
# Freeing a pointer twice

After `coalesce` the header of a freed block may be stale bytes inside a larger block, which is
split again, handed out and written to.  `kfree` looks at one word of it, `free`, at a multiple of
16.  There it meets the `size` of another header, which is not 0, the `free` of a free block, or a
payload.  In a free payload it may find a 0 that an owner left, and stores a 1; no two neighbours
are free, so `coalesce` then finds nothing to join (`double_free_harmless`).
-/

namespace Pinx.Analysis

open Pinx.Foundation Pinx.Foundation.FreeList Pinx.Model

variable {pages : ℕ} {s : HeapRun} {bs : List Block}

/-- Without free neighbours `coalesce` stores nothing. -/
theorem coalesce_separated {m : Words} {p fuel : ℕ} (hc : Chain m p bs) (hsep : Separated bs)
    (hfuel : bs.length < fuel) : coalesce fuel m p = .ok m := by
  induction bs generalizing p fuel with
  | nil =>
    obtain ⟨fuel, rfl⟩ := Nat.exists_eq_succ_of_ne_zero (Nat.ne_zero_of_lt hfuel)
    exact if_pos hc
  | cons b bs ih =>
    obtain ⟨fuel, rfl⟩ := Nat.exists_eq_succ_of_ne_zero (Nat.ne_zero_of_lt hfuel)
    obtain ⟨rfl, hp, -, hfree, hrest⟩ := hc
    rw [coalesce, if_neg hp]
    dsimp only
    cases bs with
    | nil =>
      have hnext : m.next b.addr = 0 := hrest
      rw [if_pos hnext]
    | cons c cs =>
      obtain ⟨-, hc0, -, hcfree, -⟩ := id hrest
      obtain ⟨hbc, hsep'⟩ := List.isChain_cons_cons.mp hsep
      have hno : ¬(m.free b.addr ≠ 0 ∧ m.free (m.next b.addr) ≠ 0 ∧
          b.addr + heapBlockSize + m.size b.addr = m.next b.addr) := by
        rintro ⟨hb, hn, -⟩
        exact hbc ⟨by simpa [hb] using hfree, by simpa [hn] using hcfree⟩
      rw [if_neg hc0, if_neg hno]
      exact ih hrest hsep' (by simpa using hfuel)

/-- An address that `kmalloc` can return: aligned, with room for a header in front of it. -/
structure PointerLike (pages p : ℕ) : Prop where
  aligned : heapAlign ∣ p
  low : kheapStart + heapBlockSize ≤ p
  high : p ≤ kheapStart + pages * pageSize

theorem HeapInv.pointerLike (h : HeapInv pages s bs) {e : ℕ × ℕ} (he : e ∈ s.live) :
    PointerLike pages e.1 := by
  obtain ⟨b, hb, -, hptr, -⟩ := h.backed e he
  have hal : heapAlign ∣ b.addr := h.tiles.aligned (by decide) h.sized (by decide) hb
  have hbounds := h.tiles.bounds hb
  rw [hptr]
  exact ⟨Nat.dvd_add hal (by decide), by omega, by omega⟩

/-- Freeing a pointer that is not live changes nothing, or one word that is in no header. -/
theorem HeapInv.kfree_stale (h : HeapInv pages s bs) {p : ℕ} (hp : PointerLike pages p)
    (hdead : ∀ e ∈ s.live, e.1 ≠ p) {fuel : ℕ} (hfuel : bs.length < fuel) :
    kfree fuel s.heap p = .ok s.heap ∨
      (kfree fuel s.heap p = .ok { s.heap with mem := s.heap.mem.store (p - 16) 1 } ∧
        ∀ b ∈ bs, p - 16 < b.addr ∨ b.addr + heapBlockSize ≤ p - 16) := by
  obtain ⟨hal, hlow, hhigh⟩ := hp
  have hpos : 32 ≤ p := by
    simp only [kheapStart, heapBlockSize] at hlow
    omega
  have hword : p - heapBlockSize + 16 = p - 16 := by
    simp only [heapBlockSize]
    omega
  unfold kfree
  rw [if_neg (by omega)]
  dsimp only
  by_cases hguard : s.heap.mem.free (p - heapBlockSize) ≠ 0
  · exact Or.inl (if_pos hguard)
  rw [if_neg hguard, hword]
  simp only [Words.free, ne_eq, not_not, hword] at hguard
  -- the word is 0, so it is in a payload: a size is not 0, and neither is the flag of a free block
  have hout : ∀ b ∈ bs, p - 16 < b.addr ∨ b.addr + heapBlockSize ≤ p - 16 := by
    intro b hb
    by_contra hin
    have hbal : heapAlign ∣ b.addr := h.tiles.aligned (by decide) h.sized (by decide) hb
    simp only [heapAlign, heapBlockSize] at hal hbal hin
    have hcase : p - 16 = b.addr ∨ p - 16 = b.addr + 16 := by omega
    rcases hcase with hsize | hfree
    · have hbsize := h.chain.size_eq hb
      rw [Words.size, ← hsize, hguard] at hbsize
      exact absurd hbsize.symm (h.sized b hb).1.ne'
    · have hbfree := h.chain.free_eq hb
      rw [Words.free, ← hfree, hguard] at hbfree
      obtain ⟨e, he, -, hptr, -⟩ := h.used b hb (by simpa using hbfree)
      refine hdead e he ?_
      rw [hptr, heapBlockSize]
      omega
  refine Or.inr ⟨?_, hout⟩
  have hstored : HeapInv pages ⟨{ s.heap with mem := s.heap.mem.store (p - 16) 1 }, s.live⟩ bs :=
    h.store hout
  rw [coalesce_separated hstored.chain h.separated hfuel]
  rfl

/-- The heap, and the pointers that were freed while they were live. -/
structure HeapHistory where
  run : HeapRun
  freed : List ℕ

/-- A call of `kmalloc` or `kfree` or a store by an owner.  A pointer may be freed again at any time,
and so may the null pointer. -/
inductive HistoryStep : HeapHistory → HeapEvent → HeapHistory → Prop
  | malloc {s : HeapHistory} {size ptr : ℕ} {run : HeapRun} :
      HeapStep s.run (.malloc size ptr) run → HistoryStep s (.malloc size ptr) ⟨run, s.freed⟩
  | write {s : HeapHistory} {addr value : ℕ} {run : HeapRun} :
      HeapStep s.run (.write addr value) run → HistoryStep s (.write addr value) ⟨run, s.freed⟩
  | free {s : HeapHistory} {ptr : ℕ} {run : HeapRun} :
      HeapStep s.run (.free ptr) run → HistoryStep s (.free ptr) ⟨run, ptr :: s.freed⟩
  | again {s : HeapHistory} {ptr fuel : ℕ} {h : Heap} :
      ptr = 0 ∨ ptr ∈ s.freed ∧ (∀ e ∈ s.run.live, e.1 ≠ ptr) →
      kfree fuel s.run.heap ptr = .ok h → HistoryStep s (.free ptr) ⟨⟨h, s.run.live⟩, s.freed⟩

/-- The heap invariant, and what is known of the freed pointers. -/
def HistoryInv (pages : ℕ) (s : HeapHistory) : Prop :=
  (∃ bs, HeapInv pages s.run bs) ∧ ∀ p ∈ s.freed, PointerLike pages p

theorem historyInv_step {s s' : HeapHistory} {e : HeapEvent} (h : HistoryInv pages s)
    (hstep : HistoryStep s e s') : HistoryInv pages s' := by
  obtain ⟨hinv, hfreed⟩ := h
  cases hstep with
  | malloc hstep => exact ⟨heapInv_step hinv hstep, hfreed⟩
  | write hstep => exact ⟨heapInv_step hinv hstep, hfreed⟩
  | free hstep =>
    refine ⟨heapInv_step hinv hstep, List.forall_mem_cons.mpr ⟨?_, hfreed⟩⟩
    obtain ⟨bs, hinv⟩ := hinv
    cases hstep with
    | free hlive _ => exact hinv.pointerLike hlive
  | again hptr hrun =>
    refine ⟨?_, hfreed⟩
    obtain ⟨bs, hinv⟩ := hinv
    rcases hptr with rfl | ⟨hptr, hdead⟩
    · cases hrun
      exact ⟨bs, hinv⟩
    · have hmono := kfree_mono (k := bs.length + 1) hrun
      rcases hinv.kfree_stale (hfreed _ hptr) hdead (Nat.lt_add_left _ (Nat.lt_succ_self _)) with
        hsame | ⟨hstored, hout⟩
      · cases hmono.symm.trans hsame
        exact ⟨bs, hinv⟩
      · cases hmono.symm.trans hstored
        exact ⟨bs, hinv.store hout⟩

/-- **A double free is harmless.**  After any calls of `kmalloc` and `kfree` and any stores of owners,
`kfree` of a pointer that was freed and is not live returns; if its word at `p - 16` is in no live
payload, the head, every word of every header on the list and every live payload are what they
were. -/
theorem double_free_harmless {avail : ℕ → Bool} {m : Words} {h₀ : Heap}
    (hinit : kheapInit avail m = .ok h₀) {s : HeapHistory}
    (hs : Reaches HistoryStep ⟨⟨h₀, []⟩, []⟩ s) {p : ℕ} (hfreed : p ∈ s.freed)
    (hdead : ∀ e ∈ s.run.live, e.1 ≠ p)
    (hword : ∀ e ∈ s.run.live, p - 8 ≤ e.1 ∨ e.1 + e.2 ≤ p - 16) :
    (∃ fuel h, kfree fuel s.run.heap p = .ok h) ∧
    ∃ bs, Chain s.run.heap.mem s.run.heap.head bs ∧
      ∀ fuel h, kfree fuel s.run.heap p = .ok h →
        h.head = s.run.heap.head ∧ Chain h.mem h.head bs ∧
        (∀ b ∈ bs, ∀ a, b.addr ≤ a → a < b.addr + heapBlockSize → h.mem a = s.run.heap.mem a) ∧
        ∀ e ∈ s.run.live, ∀ a, e.1 ≤ a → a < e.1 + e.2 → h.mem a = s.run.heap.mem a := by
  obtain ⟨pages, hpages, -, hstart⟩ := kheapInit_start hinit
  have hinv₀ := heapInv_init m hpages
  rw [← hstart] at hinv₀
  obtain ⟨⟨bs, hinv⟩, hlike⟩ := hs.invariant (I := HistoryInv pages)
    ⟨⟨_, hinv₀⟩, fun _ hp => absurd hp List.not_mem_nil⟩ (fun _ _ _ => historyInv_step)
  have hp := hlike p hfreed
  have hcases := fun fuel (hfuel : bs.length < fuel) => hinv.kfree_stale hp hdead hfuel
  refine ⟨⟨bs.length + 1, ?_⟩, bs, hinv.chain, ?_⟩
  · rcases hcases _ (Nat.lt_succ_self _) with hsame | ⟨hstored, -⟩
    · exact ⟨_, hsame⟩
    · exact ⟨_, hstored⟩
  · intro fuel h hrun
    have hmono := kfree_mono (k := bs.length + 1) hrun
    rcases hcases _ (Nat.lt_add_left fuel (Nat.lt_succ_self bs.length)) with hsame | ⟨hstored, hout⟩
    · cases hmono.symm.trans hsame
      exact ⟨rfl, hinv.chain, fun _ _ _ _ _ => rfl, fun _ _ _ _ _ => rfl⟩
    · cases hmono.symm.trans hstored
      refine ⟨rfl, (hinv.store hout).chain, fun b hb a hlo hhi => ?_, fun e he a hlo hhi => ?_⟩
      · refine store_ne _ _ ?_
        rintro rfl
        have := hout b hb
        omega
      · refine store_ne _ _ ?_
        rintro rfl
        have hlow := hp.low
        have := hword e he
        simp only [kheapStart] at hlow
        omega

theorem HistoryStep.alloc {h h' : Heap} {live : List (ℕ × ℕ)} {freed : List ℕ} {fuel size ptr : ℕ}
    (hrun : kmalloc fuel h size = .ok (ptr, h')) (hptr : ptr ≠ 0) :
    HistoryStep ⟨⟨h, live⟩, freed⟩ (.malloc size ptr) ⟨⟨h', (ptr, size) :: live⟩, freed⟩ := by
  have hstep := HeapStep.malloc (s := ⟨h, live⟩) hrun
  rw [if_neg hptr] at hstep
  exact .malloc hstep

theorem HistoryStep.release {h h' : Heap} {live live' : List (ℕ × ℕ)} {freed : List ℕ}
    {fuel size ptr : ℕ} (hrun : kfree fuel h ptr = .ok h') (hmem : (ptr, size) ∈ live)
    (hlive : (live.filter fun e => e.1 ≠ ptr) = live') :
    HistoryStep ⟨⟨h, live⟩, freed⟩ (.free ptr) ⟨⟨h', live'⟩, ptr :: freed⟩ := by
  subst hlive
  exact .free (.free hmem hrun)

/-- Two neighbours are freed and merged, and a larger block is made of them, whose owner clears the
flag of the old second header and frees it.  Then the second pointer is freed again. -/
theorem double_free_of_stale_header :
    ∃ h₀ s, kheapInit (fun i => i == 0) (fun _ => 0) = .ok h₀ ∧
      Reaches HistoryStep ⟨⟨h₀, []⟩, []⟩ s ∧ kheapStart + 176 ∈ s.freed ∧
      s.run.heap.mem (kheapStart + 160) = 0 ∧
      ∃ fuel h, kfree fuel s.run.heap (kheapStart + 176) = .ok h := by
  have hinit : kheapInit (fun i => i == 0) (fun _ => 0) = .ok (kheapFormat (fun _ => 0) 1) := rfl
  obtain ⟨h₁, hmalloc₁, h₂, hmalloc₂, h₃, hfree₁, h₄, hfree₂, h₅, hmalloc₃, h₆, hfree₃, hzero⟩ :
      ∃ h₁, kmalloc 1 (kheapFormat (fun _ => 0) 1) 100 = .ok (kheapStart + 32, h₁) ∧
        ∃ h₂, kmalloc 2 h₁ 100 = .ok (kheapStart + 176, h₂) ∧
        ∃ h₃, kfree 4 h₂ (kheapStart + 32) = .ok h₃ ∧
        ∃ h₄, kfree 4 h₃ (kheapStart + 176) = .ok h₄ ∧
        ∃ h₅, kmalloc 1 h₄ 500 = .ok (kheapStart + 32, h₅) ∧
        ∃ h₆, kfree 3 { h₅ with mem := h₅.mem.store (kheapStart + 160) 0 } (kheapStart + 32) = .ok h₆ ∧
          h₆.mem (kheapStart + 160) = 0 :=
    ⟨_, rfl, _, rfl, _, rfl, _, rfl, _, rfl, _, rfl, rfl⟩
  have hmerged : Reaches HistoryStep ⟨⟨kheapFormat (fun _ => 0) 1, []⟩, []⟩
      ⟨⟨h₄, []⟩, [kheapStart + 176, kheapStart + 32]⟩ :=
    ((((Reaches.refl _).tail (.alloc hmalloc₁ (by omega))).tail (.alloc hmalloc₂ (by omega))).tail
      (.release hfree₁ (List.mem_cons_of_mem _ List.mem_cons_self) rfl)).tail
      (.release hfree₂ List.mem_cons_self rfl)
  have hrun : Reaches HistoryStep ⟨⟨kheapFormat (fun _ => 0) 1, []⟩, []⟩
      ⟨⟨h₆, []⟩, [kheapStart + 32, kheapStart + 176, kheapStart + 32]⟩ :=
    ((hmerged.tail (.alloc hmalloc₃ (by omega))).tail
      (.write (.write List.mem_cons_self (by decide) (by omega) (by omega)))).tail
      (.release hfree₃ List.mem_cons_self rfl)
  have hmem : kheapStart + 176 ∈ [kheapStart + 32, kheapStart + 176, kheapStart + 32] := by simp
  exact ⟨_, _, hinit, hrun, hmem, hzero, (double_free_harmless hinit hrun hmem
    (fun e he => absurd he List.not_mem_nil) fun e he => absurd he List.not_mem_nil).1⟩

end Pinx.Analysis
