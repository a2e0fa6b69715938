import Pinx.Analysis.HeapRefinement
import Pinx.Foundation.Transition

/-!
# The heap's representation invariant over whole runs

A run of the heap starts from what `kheap_init` leaves and consists of `kmalloc`
calls of any size, `kfree` calls of live pointers, and stores by the owners of
live payloads into them.  `live` records the pointers handed out and not yet
freed, with the size that was asked for.

`HeapInv` is the invariant: the memory represents a list of blocks that tiles
the window, whose sizes are positive multiples of 16 and of which no two
neighbours are free, and the blocks in use are exactly the live payloads.
-/

namespace Pinx.Analysis

open Pinx.Foundation Pinx.Foundation.FreeList Pinx.Model

/-- The heap with the pointers handed out and not yet freed. -/
structure HeapRun where
  heap : Heap
  live : List (ℕ × ℕ)

/-- What can happen to the heap. -/
inductive HeapEvent where
  | malloc (size ptr : ℕ)
  | free (ptr : ℕ)
  | write (addr value : ℕ)

/-- One event of a run.  A call appears once it has returned. -/
inductive HeapStep : HeapRun → HeapEvent → HeapRun → Prop
  | malloc {s : HeapRun} {size ptr fuel : ℕ} {h : Heap} :
      kmalloc fuel s.heap size = .ok (ptr, h) →
      HeapStep s (.malloc size ptr) ⟨h, if ptr = 0 then s.live else (ptr, size) :: s.live⟩
  | free {s : HeapRun} {ptr size fuel : ℕ} {h : Heap} :
      (ptr, size) ∈ s.live → kfree fuel s.heap ptr = .ok h →
      HeapStep s (.free ptr) ⟨h, s.live.filter fun e => e.1 ≠ ptr⟩
  | write {s : HeapRun} {ptr size addr value : ℕ} :
      (ptr, size) ∈ s.live → 8 ∣ addr → ptr ≤ addr → addr < ptr + size →
      HeapStep s (.write addr value) ⟨{ s.heap with mem := s.heap.mem.store addr value }, s.live⟩

/-- What `kheap_init` leaves with `pages` pages mapped; nothing is live. -/
def HeapStart (m : Words) (pages : ℕ) (s : HeapRun) : Prop :=
  s = ⟨kheapFormat m pages, []⟩

/-- The block behind a live pointer. -/
def Backs (b : Block) (e : ℕ × ℕ) : Prop :=
  b.free = false ∧ e.1 = b.addr + heapBlockSize ∧ e.2 ≤ b.size

/-- The invariant of the heap, with the list of blocks it represents. -/
structure HeapInv (pages : ℕ) (s : HeapRun) (bs : List Block) : Prop where
  head : s.heap.head = kheapStart
  chain : Chain s.heap.mem s.heap.head bs
  tiles : Tiles heapBlockSize kheapStart (kheapStart + pages * pageSize) bs
  sized : Sized heapAlign bs
  separated : Separated bs
  backed : ∀ e ∈ s.live, ∃ b ∈ bs, Backs b e
  nodup : (s.live.map Prod.fst).Nodup
  used : ∀ b ∈ bs, b.free = false → ∃ e ∈ s.live, Backs b e

theorem roundUp16_spec (n : ℕ) : n ≤ roundUp16 n ∧ heapAlign ∣ roundUp16 n := by
  simp only [roundUp16, heapAlign]
  omega

/-- `kheap_init` establishes the invariant. -/
theorem heapInv_init (m : Words) {pages : ℕ} (hpages : 1 ≤ pages) :
    HeapInv pages ⟨kheapFormat m pages, []⟩
      [⟨kheapStart, pages * pageSize - heapBlockSize, true⟩] where
  head := rfl
  chain := by
    refine ⟨rfl, by simp [kheapFormat, kheapStart], ?_, ?_, ?_⟩
    · simp (disch := decide) only [kheapFormat, Words.size, store_ne, store_self]
    · simp (disch := decide) only [kheapFormat, Words.free, store_ne, store_self]
      simp
    · show Words.next _ _ = 0
      simp (disch := decide) only [kheapFormat, Words.next, store_self]
  tiles := by
    refine ⟨rfl, ?_⟩
    simp only [Tiles, pageSize, heapBlockSize]
    omega
  sized := by
    intro b hb
    simp only [List.mem_singleton] at hb
    subst hb
    simp only [pageSize, heapBlockSize, heapAlign]
    omega
  separated := List.isChain_singleton _
  backed := by simp
  nodup := List.nodup_nil
  used := by simp

variable {pages : ℕ} {s : HeapRun} {bs : List Block}

theorem HeapInv.head_ne_zero (h : HeapInv pages s bs) : s.heap.head ≠ 0 := by
  rw [h.head]
  decide

/-- What a call of `kmalloc` that reaches the scan returns: nothing if no free block
is large enough, and otherwise the block first fit chooses. -/
theorem HeapInv.kmalloc_eq (h : HeapInv pages s bs) {size fuel ptr : ℕ} {h' : Heap}
    (hrun : kmalloc fuel s.heap size = .ok (ptr, h')) :
    (ptr = 0 ∧ h' = s.heap ∧ (0 < size → size ≤ 2 ^ 64 - 16 →
      firstFit heapBlockSize (roundUp16 size) bs = none)) ∨
    ∃ r m', 0 < size ∧ firstFit heapBlockSize (roundUp16 size) bs = some r ∧
      ptr = r.1.addr + heapBlockSize ∧ h' = ⟨s.heap.head, m'⟩ ∧
      Chain m' s.heap.head r.2 := by
  unfold kmalloc at hrun
  split at hrun
  · rename_i hsize
    simp only [Except.ok.injEq, Prod.mk.injEq] at hrun
    refine Or.inl ⟨hrun.1.symm, hrun.2.symm, fun hpos hle => ?_⟩
    unfold heapAlign at hsize
    omega
  · rename_i hsize
    rw [if_neg h.head_ne_zero] at hrun
    cases hscan : kmallocScan (roundUp16 size) fuel s.heap.mem s.heap.head with
    | error e => simp [hscan, bind, Except.bind] at hrun
    | ok r =>
      simp only [hscan, bind, Except.bind, Except.ok.injEq, Prod.mk.injEq] at hrun
      obtain ⟨rfl, rfl⟩ := hrun
      -- the scan has ended, so it also ends with fuel for every block
      have hmono := kmallocScan_mono (k := bs.length + 1) hscan
      have hspec := kmallocScan_firstFit (n := roundUp16 size) h.chain h.tiles
        (show bs.length < fuel + (bs.length + 1) by omega)
      cases hff : firstFit heapBlockSize (roundUp16 size) bs with
      | none =>
        simp only [hff, hmono, Except.ok.injEq] at hspec
        subst hspec
        exact Or.inl ⟨rfl, rfl, fun _ _ => rfl⟩
      | some b =>
        simp only [hff, hmono, Except.ok.injEq] at hspec
        obtain ⟨m', rfl, hchain, -⟩ := hspec
        exact Or.inr ⟨b, m', by omega, rfl, rfl, rfl, hchain⟩

/-- `kmalloc` keeps the invariant. -/
theorem HeapInv.malloc (h : HeapInv pages s bs) {size fuel ptr : ℕ} {h' : Heap}
    (hrun : kmalloc fuel s.heap size = .ok (ptr, h')) :
    ∃ bs', HeapInv pages ⟨h', if ptr = 0 then s.live else (ptr, size) :: s.live⟩ bs' := by
  obtain ⟨rfl, rfl, -⟩ | ⟨r, m', hpos, hff, rfl, rfl, hchain⟩ := h.kmalloc_eq hrun
  · exact ⟨bs, by simpa using h⟩
  have hround := roundUp16_spec size
  rw [if_neg (by simp [heapBlockSize])]
  obtain ⟨pre, post, hbs, hr, hfree, hle⟩ := firstFit_eq_some hff
  -- the block first fit chose was free, so nothing live lies in it
  have hmem : ∀ b, b ∈ bs → b.free = false → b ∈ r.2 := by
    intro b hb hused
    rw [hbs] at hb
    rw [hr]
    have hne : b ≠ r.1 := by rintro rfl; simp [hused] at hfree
    simp only [List.mem_append, List.mem_cons, hne, false_or] at hb ⊢
    tauto
  have hchosen : ∃ b ∈ r.2, Backs b (r.1.addr + heapBlockSize, size) := by
    rw [hr]
    unfold carve
    split
    · exact ⟨⟨r.1.addr, roundUp16 size, false⟩, by simp, rfl, rfl, hround.1⟩
    · exact ⟨⟨r.1.addr, r.1.size, false⟩, by simp, rfl, rfl, hround.1.trans hle⟩
  have hused : ∀ b ∈ r.2, b.free = false → b ∈ bs ∨ Backs b (r.1.addr + heapBlockSize, size) := by
    intro b hb hf
    rw [hr] at hb
    simp only [List.mem_append] at hb
    rcases hb with hb | hb | hb
    · exact Or.inl (by simp [hbs, hb])
    · right
      unfold carve at hb
      split at hb
      · simp only [List.mem_cons, List.not_mem_nil, or_false] at hb
        rcases hb with rfl | rfl
        · exact ⟨rfl, rfl, hround.1⟩
        · simp [remainder] at hf
      · simp only [List.mem_singleton] at hb
        subst hb
        exact ⟨rfl, rfl, hround.1.trans hle⟩
    · exact Or.inl (by simp [hbs, hb])
  refine ⟨r.2, h.head, hchain, h.tiles.firstFit hff, ?_, h.separated.firstFit hff, ?_, ?_, ?_⟩
  · exact h.sized.firstFit (by decide) (by omega) hround.2 hff
  · intro e he
    rcases List.mem_cons.mp he with rfl | he
    · exact hchosen
    · obtain ⟨b, hb, hback⟩ := h.backed e he
      exact ⟨b, hmem b hb hback.1, hback⟩
  · rw [List.map_cons, List.nodup_cons]
    refine ⟨?_, h.nodup⟩
    intro hin
    obtain ⟨e, he, heq⟩ := List.mem_map.mp hin
    obtain ⟨b, hb, hback⟩ := h.backed e he
    have haddr : b.addr = r.1.addr := by
      have := hback.2.1
      simp only [heapBlockSize] at this heq
      omega
    have : b = r.1 := h.tiles.eq_of_addr (by decide) hb (by simp [hbs]) haddr
    rw [this] at hback
    simp [hback.1] at hfree
  · intro b hb hf
    rcases hused b hb hf with hb | hback
    · obtain ⟨e, he, hback⟩ := h.used b hb hf
      exact ⟨e, List.mem_cons_of_mem _ he, hback⟩
    · exact ⟨_, List.mem_cons_self, hback⟩

/-- Freeing a live pointer marks its block free and joins neighbours, and does so
with one turn of fuel per block and one more. -/
theorem HeapInv.kfree_returns (h : HeapInv pages s bs) {b : Block} (hb : b ∈ bs)
    (hused : b.free = false) {fuel : ℕ} (hfuel : bs.length < fuel) :
    ∃ m', kfree fuel s.heap (b.addr + heapBlockSize) = .ok ⟨s.heap.head, m'⟩ ∧
      Chain m' s.heap.head (merge heapBlockSize (release b.addr bs)) := by
  have hfree := h.chain.free_eq hb
  rw [hused] at hfree
  obtain ⟨m', hrun, hchain, -⟩ := coalesce_merge (h.chain.release h.tiles hb)
    (tiles_release.mpr h.tiles) (by simpa [release] using hfuel)
  refine ⟨m', ?_, hchain⟩
  unfold kfree
  rw [if_neg (by simp [heapBlockSize])]
  simp only [Nat.add_sub_cancel]
  rw [if_neg (by simpa using hfree), hrun]
  rfl

/-- A call of `kfree` that has returned also returns, with the same heap, given more
fuel. -/
theorem kfree_mono {h h' : Heap} {ptr fuel k : ℕ} (hrun : kfree fuel h ptr = .ok h') :
    kfree (fuel + k) h ptr = .ok h' := by
  unfold kfree at hrun ⊢
  split at hrun
  · rename_i hp
    rwa [if_pos hp]
  · rename_i hp
    rw [if_neg hp]
    simp only at hrun ⊢
    split at hrun
    · rename_i hf
      rwa [if_pos hf]
    · rename_i hf
      rw [if_neg hf]
      cases hc : coalesce fuel (h.mem.store (ptr - heapBlockSize + 16) 1) h.head with
      | error e => simp [hc, bind, Except.bind] at hrun
      | ok m =>
        rw [hc] at hrun
        rw [coalesce_mono hc]
        exact hrun

/-- `kfree` of a live pointer keeps the invariant. -/
theorem HeapInv.free (h : HeapInv pages s bs) {ptr size fuel : ℕ} {h' : Heap}
    (hlive : (ptr, size) ∈ s.live) (hrun : kfree fuel s.heap ptr = .ok h') :
    ∃ bs', HeapInv pages ⟨h', s.live.filter fun e => e.1 ≠ ptr⟩ bs' := by
  obtain ⟨b, hb, hused, hptr, -⟩ := h.backed _ hlive
  simp only at hptr
  subst hptr
  obtain ⟨m', hrun', hchain⟩ := h.kfree_returns hb hused
    (show bs.length < fuel + (bs.length + 1) by omega)
  rw [kfree_mono hrun, Except.ok.injEq] at hrun'
  subst hrun'
  -- a block in use is left alone unless it is the one being freed
  have hkeep : ∀ c, c.free = false →
      (c ∈ merge heapBlockSize (release b.addr bs) ↔ c ∈ bs ∧ c.addr ≠ b.addr) := by
    intro c hc
    rw [mem_merge_of_used hc, release, List.mem_map]
    constructor
    · rintro ⟨x, hx, rfl⟩
      by_cases hxb : x.addr = b.addr
      · simp [hxb] at hc
      · simp only [if_neg hxb] at hc ⊢
        exact ⟨hx, hxb⟩
    · rintro ⟨hin, hne⟩
      exact ⟨c, hin, by rw [if_neg hne]⟩
  refine ⟨merge heapBlockSize (release b.addr bs), h.head, hchain,
    (tiles_release.mpr h.tiles).merge, h.sized.release.merge (by decide), separated_merge _,
    ?_, ?_, ?_⟩
  · intro e he
    obtain ⟨he, hne⟩ := List.mem_filter.mp he
    obtain ⟨c, hc, hback⟩ := h.backed e he
    refine ⟨c, (hkeep c hback.1).mpr ⟨hc, ?_⟩, hback⟩
    intro haddr
    have := hback.2.1
    rw [haddr] at this
    simp [this] at hne
  · exact h.nodup.sublist (List.filter_sublist.map _)
  · intro c hc hf
    obtain ⟨hin, hne⟩ := (hkeep c hf).mp hc
    obtain ⟨e, he, hback⟩ := h.used c hin hf
    have hother : e.1 ≠ b.addr + heapBlockSize := by
      rw [hback.2.1]
      omega
    exact ⟨e, List.mem_filter.mpr ⟨he, decide_eq_true hother⟩, hback⟩

/-- A live payload meets no header. -/
theorem HeapInv.payload_header_disjoint (h : HeapInv pages s bs) {e : ℕ × ℕ}
    (he : e ∈ s.live) {c : Block} (hc : c ∈ bs) :
    e.1 + e.2 ≤ c.addr ∨ c.addr + heapBlockSize ≤ e.1 := by
  obtain ⟨b, hb, -, hbp, hbs⟩ := h.backed e he
  by_cases hbc : b = c
  · subst hbc
    omega
  · have := h.tiles.disjoint hb hc hbc
    omega

/-- A store outside the headers keeps the invariant. -/
theorem HeapInv.store (h : HeapInv pages s bs) {addr value : ℕ}
    (hout : ∀ b ∈ bs, addr < b.addr ∨ b.addr + heapBlockSize ≤ addr) :
    HeapInv pages ⟨{ s.heap with mem := s.heap.mem.store addr value }, s.live⟩ bs := by
  refine { h with chain := h.chain.congr fun c hc a h₁ h₂ => store_ne _ _ ?_ }
  rintro rfl
  have := hout c hc
  simp only [heapBlockSize] at this
  omega

/-- A store inside a live payload keeps the invariant: no header lies there. -/
theorem HeapInv.write (h : HeapInv pages s bs) {ptr size addr value : ℕ}
    (hlive : (ptr, size) ∈ s.live) (hlo : ptr ≤ addr) (hhi : addr < ptr + size) :
    HeapInv pages ⟨{ s.heap with mem := s.heap.mem.store addr value }, s.live⟩ bs := by
  refine h.store fun b hb => ?_
  have := h.payload_header_disjoint hlive hb
  simp only at this
  omega

/-- Every event keeps the invariant. -/
theorem heapInv_step {e : HeapEvent} {s' : HeapRun} (h : ∃ bs, HeapInv pages s bs)
    (hstep : HeapStep s e s') : ∃ bs, HeapInv pages s' bs := by
  obtain ⟨bs, h⟩ := h
  cases hstep with
  | malloc hrun => exact h.malloc hrun
  | free hlive hrun => exact h.free hlive hrun
  | write hlive _ hlo hhi => exact ⟨bs, h.write hlive hlo hhi⟩

/-- The invariant holds in every state a run of the heap reaches. -/
theorem heapInv_reachable {m : Words} (hpages : 1 ≤ pages)
    (hs : Reachable (HeapStart m pages) HeapStep s) : ∃ bs, HeapInv pages s bs := by
  refine hs.invariant ?_ fun _ _ _ h hstep => heapInv_step h hstep
  rintro _ rfl
  exact ⟨_, heapInv_init m hpages⟩

/-- `kmalloc` returns whatever is asked for. -/
theorem HeapInv.kmalloc_returns (h : HeapInv pages s bs) (size : ℕ) :
    ∃ fuel r, kmalloc fuel s.heap size = .ok r := by
  unfold kmalloc
  split
  · exact ⟨0, _, rfl⟩
  · have hspec := kmallocScan_firstFit (n := roundUp16 size) h.chain h.tiles
      (Nat.lt_succ_self bs.length)
    refine ⟨bs.length + 1, ?_⟩
    rw [if_neg h.head_ne_zero]
    cases hff : firstFit heapBlockSize (roundUp16 size) bs with
    | none =>
      simp only [hff] at hspec
      exact ⟨_, by rw [hspec]; rfl⟩
    | some r =>
      simp only [hff] at hspec
      obtain ⟨m', hrun, -⟩ := hspec
      exact ⟨_, by rw [hrun]; rfl⟩

/-- Two live pointers have disjoint payloads, blocks counted in full. -/
theorem HeapInv.payloads_disjoint (h : HeapInv pages s bs) :
    s.live.Pairwise fun e f => e.1 + e.2 ≤ f.1 ∨ f.1 + f.2 ≤ e.1 := by
  refine (List.pairwise_map.mp h.nodup).imp_of_mem ?_
  intro e f he hf hne
  obtain ⟨b, hb, -, hbp, hbs⟩ := h.backed e he
  obtain ⟨c, hc, -, hcp, hcs⟩ := h.backed f hf
  have hbc : b ≠ c := by
    rintro rfl
    exact hne (hbp.trans hcp.symm)
  have := h.tiles.disjoint hb hc hbc
  omega

/-- **The heap's representation invariant.**  However many pages were mapped and
whatever was allocated, freed and stored since, the list from `HEAP_HEAD` tiles
the window in address order, sizes are positive multiples of 16, no two
neighbours are free, and the live payloads are aligned, as long as asked for,
pairwise disjoint and clear of every header.  Every further call returns. -/
theorem heap_tiled_and_payloads_disjoint (m : Words) (pages : ℕ) (hpages : 1 ≤ pages)
    (s : HeapRun) (hs : Reachable (HeapStart m pages) HeapStep s) :
    (∃ bs, Chain s.heap.mem s.heap.head bs ∧
      Tiles heapBlockSize kheapStart (kheapStart + pages * pageSize) bs ∧
      Sized heapAlign bs ∧ Separated bs ∧
      (∀ e ∈ s.live, heapAlign ∣ e.1 ∧ ∃ b ∈ bs, b.free = false ∧
        e.1 = b.addr + heapBlockSize ∧ e.2 ≤ b.size) ∧
      (s.live.Pairwise fun e f => e.1 + e.2 ≤ f.1 ∨ f.1 + f.2 ≤ e.1) ∧
      ∀ e ∈ s.live, ∀ b ∈ bs, e.1 + e.2 ≤ b.addr ∨ b.addr + heapBlockSize ≤ e.1) ∧
    (∀ size, ∃ fuel r, kmalloc fuel s.heap size = .ok r) ∧
    ∀ e ∈ s.live, ∃ fuel h, kfree fuel s.heap e.1 = .ok h := by
  obtain ⟨bs, h⟩ := heapInv_reachable hpages hs
  refine ⟨⟨bs, h.chain, h.tiles, h.sized, h.separated, ?_, h.payloads_disjoint,
    fun e he b hb => h.payload_header_disjoint he hb⟩, h.kmalloc_returns, ?_⟩
  · intro e he
    obtain ⟨b, hb, hback⟩ := h.backed e he
    refine ⟨?_, b, hb, hback⟩
    rw [hback.2.1]
    exact Nat.dvd_add (h.tiles.aligned (by decide) h.sized (by decide) hb) (by decide)
  · intro e he
    obtain ⟨b, hb, hused, hptr, -⟩ := h.backed e he
    obtain ⟨m', hrun, -⟩ := h.kfree_returns hb hused (Nat.lt_succ_self bs.length)
    exact ⟨bs.length + 1, _, by rw [hptr]; exact hrun⟩

theorem kheapMapped_bounds (avail : ℕ → Bool) (n mapped : ℕ) :
    mapped ≤ kheapMapped avail n mapped ∧ kheapMapped avail n mapped ≤ mapped + n := by
  induction n generalizing mapped with
  | zero => simp [kheapMapped]
  | succ n ih =>
    rw [kheapMapped]
    split
    · have := ih (mapped + 1)
      omega
    · omega

/-- Whatever the frame allocator can give, `kheap_init` leaves such a start. -/
theorem kheapInit_start {avail : ℕ → Bool} {m : Words} {h : Heap}
    (hrun : kheapInit avail m = .ok h) :
    ∃ pages, 1 ≤ pages ∧ pages ≤ 2048 ∧ HeapStart m pages ⟨h, []⟩ := by
  unfold kheapInit at hrun
  simp only at hrun
  split at hrun
  · have hb := kheapMapped_bounds avail (2048 - 1) 1
    rw [Except.ok.injEq] at hrun
    exact ⟨_, hb.1, hb.2, by rw [HeapStart, hrun]⟩
  · cases hrun

/-- The theorem at one mapped page after one `kmalloc(100)`. -/
theorem heap_tiled_after_malloc :
    ∃ s : HeapRun, s.live = [(kheapStart + 32, 100)] ∧
      Reachable (HeapStart (fun _ => 0) 1) HeapStep s ∧
      ∃ bs, Chain s.heap.mem s.heap.head bs ∧ Tiles 32 kheapStart (kheapStart + 4096) bs := by
  have hrun : ∃ h, kmalloc 1 (kheapFormat (fun _ => 0) 1) 100 = .ok (kheapStart + 32, h) :=
    ⟨_, rfl⟩
  obtain ⟨h, hrun⟩ := hrun
  have hs : Reachable (HeapStart (fun _ => 0) 1) HeapStep
      ⟨h, if kheapStart + 32 = 0 then [] else (kheapStart + 32, 100) :: []⟩ :=
    ⟨_, rfl, (Reaches.refl _).tail (.malloc hrun)⟩
  obtain ⟨⟨bs, hc, ht, -⟩, -⟩ := heap_tiled_and_payloads_disjoint (fun _ => 0) 1 le_rfl _ hs
  exact ⟨_, rfl, hs, bs, hc, ht⟩

end Pinx.Analysis
