import Pinx.Foundation.FreeList
import Pinx.Model.Heap

/-!
# The heap's memory represents a first-fit free list

`Chain m p bs` says that following the `next` words from address `p` visits the
blocks `bs`.  On such a memory `kmallocScan` computes `firstFit` and `coalesce`
computes `merge`, each with one turn of fuel per block and one for the null
pointer, and each writes only where the list operation changes something.
-/

namespace Pinx.Analysis

open Pinx.Foundation Pinx.Foundation.FreeList Pinx.Model

/-- The list of headers reached from address `p`. -/
def Chain (m : Words) : ℕ → List Block → Prop
  | p, [] => p = 0
  | p, b :: bs => p = b.addr ∧ p ≠ 0 ∧ m.size p = b.size ∧ b.free = decide (m.free p ≠ 0) ∧
      Chain m (m.next p) bs

theorem store_self (m : Words) (a v : ℕ) : m.store a v a = v :=
  Function.update_self ..

theorem store_ne (m : Words) {a x : ℕ} (v : ℕ) (h : x ≠ a) : m.store a v x = m x :=
  Function.update_of_ne h ..

/-- A chain is read from the first three words of its headers only. -/
theorem Chain.congr {m m' : Words} {p : ℕ} {bs : List Block} (h : Chain m p bs)
    (hag : ∀ b ∈ bs, ∀ a, b.addr ≤ a → a < b.addr + 24 → m' a = m a) : Chain m' p bs := by
  induction bs generalizing p with
  | nil => exact h
  | cons b bs ih =>
    obtain ⟨rfl, hp, hsize, hfree, hrest⟩ := h
    have hb := hag b List.mem_cons_self
    have hnext : m'.next b.addr = m.next b.addr := hb _ (by omega) (by omega)
    refine ⟨rfl, hp, ?_, ?_, ?_⟩
    · rw [← hsize]
      exact hb _ (by omega) (by omega)
    · rw [hfree, Words.free, Words.free, hb _ (by omega) (by omega)]
    · rw [hnext]
      exact ih hrest fun c hc => hag c (List.mem_cons_of_mem _ hc)

/-- The scan of `kmalloc` is first fit, and it writes only inside the block it
hands out. -/
theorem kmallocScan_firstFit {m : Words} {p n fuel start stop : ℕ} {bs : List Block}
    (hc : Chain m p bs) (ht : Tiles heapBlockSize start stop bs) (hfuel : bs.length < fuel) :
    match firstFit heapBlockSize n bs with
    | none => kmallocScan n fuel m p = .ok (0, m)
    | some r => ∃ m', kmallocScan n fuel m p = .ok (r.1.addr + heapBlockSize, m') ∧
        Chain m' p r.2 ∧
        ∀ a, a < r.1.addr ∨ r.1.addr + heapBlockSize + r.1.size ≤ a → m' a = m a := by
  induction bs generalizing p fuel start with
  | nil =>
    obtain ⟨fuel, rfl⟩ := Nat.exists_eq_succ_of_ne_zero (Nat.ne_zero_of_lt hfuel)
    have hp : p = 0 := hc
    simp [firstFit, kmallocScan, hp]
  | cons b bs ih =>
    obtain ⟨fuel, rfl⟩ := Nat.exists_eq_succ_of_ne_zero (Nat.ne_zero_of_lt hfuel)
    obtain ⟨rfl, hp, hsize, hfree, hrest⟩ := hc
    obtain ⟨rfl, ht'⟩ := ht
    have hafter : ∀ c ∈ bs, b.addr + heapBlockSize + b.size ≤ c.addr := fun c hc =>
      (ht'.bounds hc).1
    by_cases hfit : b.free = true ∧ n ≤ b.size
    · have hfit' : m.free b.addr ≠ 0 ∧ m.size b.addr ≥ n := by
        refine ⟨?_, by rw [hsize]; exact hfit.2⟩
        simpa [hfit.1] using hfree
      simp only [firstFit, if_pos hfit]
      by_cases hsplit : b.size > n + heapBlockSize
      · rw [kmallocScan, if_neg hp, if_pos hfit', if_pos (by rwa [hsize])]
        refine ⟨_, rfl, ?_, ?_⟩
        · rw [carve, if_pos hsplit]
          simp only [heapBlockSize, List.cons_append, List.nil_append] at hsplit hafter ⊢
          refine ⟨rfl, hp, ?_, ?_, ?_⟩
          · simp (disch := omega) only [Words.size, store_ne, store_self]
          · simp (disch := omega) only [Words.free, store_self]
            simp
          · refine ⟨?_, ?_, ?_, ?_, ?_⟩
            · simp (disch := omega) only [Words.next, store_ne, store_self, remainder]
            · simp (disch := omega) only [Words.next, store_ne, store_self]
              omega
            · simp (disch := omega) only [Words.next, Words.size, store_ne, store_self, remainder]
              rw [Words.size] at hsize
              rw [hsize]
            · simp (disch := omega) only [Words.next, Words.free, store_ne, store_self, remainder]
              simp
            · simp (disch := omega) only [Words.next, store_ne, store_self]
              refine hrest.congr fun c hc a h₁ h₂ => ?_
              have := hafter c hc
              simp (disch := omega) only [store_ne]
        · intro a ha
          simp only [heapBlockSize] at hsplit ha ⊢
          simp (disch := omega) only [store_ne]
      · rw [kmallocScan, if_neg hp, if_pos hfit', if_neg (by rwa [hsize])]
        refine ⟨_, rfl, ?_, ?_⟩
        · rw [carve, if_neg hsplit]
          simp only [heapBlockSize] at hafter
          refine ⟨rfl, hp, ?_, ?_, ?_⟩
          · simp (disch := omega) only [Words.size, store_ne]
            exact hsize
          · simp [Words.free, store_self]
          · simp (disch := omega) only [Words.next, store_ne]
            refine hrest.congr fun c hc a h₁ h₂ => ?_
            have := hafter c hc
            simp (disch := omega) only [store_ne]
        · intro a ha
          simp only [heapBlockSize] at ha
          simp (disch := omega) only [store_ne]
    · have hfit' : ¬(m.free b.addr ≠ 0 ∧ m.size b.addr ≥ n) := by
        rintro ⟨h₁, h₂⟩
        exact hfit ⟨by simpa [h₁] using hfree, by rwa [← hsize]⟩
      have hlen : bs.length < fuel := by simpa using hfuel
      have hih := ih hrest ht' hlen
      rw [kmallocScan, if_neg hp, if_neg hfit']
      simp only [firstFit, if_neg hfit]
      cases hff : firstFit heapBlockSize n bs with
      | none => simpa [hff] using hih
      | some r =>
        simp only [hff] at hih
        obtain ⟨m', hscan, hchain, hframe⟩ := hih
        obtain ⟨pre, post, hbs, -, -, -⟩ := firstFit_eq_some hff
        have hr : b.addr + heapBlockSize + b.size ≤ r.1.addr := hafter r.1 (by simp [hbs])
        simp only [heapBlockSize] at hr hframe
        refine ⟨m', hscan, ?_, fun a ha => hframe a ha⟩
        have hag : ∀ a, b.addr ≤ a → a < b.addr + 32 → m' a = m a := fun a h₁ h₂ =>
          hframe a (Or.inl (by omega))
        refine ⟨rfl, hp, ?_, ?_, ?_⟩
        · rw [← hsize]
          exact hag _ (by omega) (by omega)
        · rw [hfree, Words.free, Words.free, hag _ (by omega) (by omega)]
        · rwa [Words.next, hag _ (by omega) (by omega)]

/-- `coalesce` joins free neighbours, and it writes only to headers of the list. -/
theorem coalesce_merge {m : Words} {p fuel start stop : ℕ} {bs : List Block}
    (hc : Chain m p bs) (ht : Tiles heapBlockSize start stop bs) (hfuel : bs.length < fuel) :
    ∃ m', coalesce fuel m p = .ok m' ∧ Chain m' p (merge heapBlockSize bs) ∧
      ∀ a, (∀ b ∈ bs, a < b.addr ∨ b.addr + heapBlockSize ≤ a) → m' a = m a := by
  induction bs using merge.induct heapBlockSize generalizing m p fuel start with
  | case1 =>
    obtain ⟨fuel, rfl⟩ := Nat.exists_eq_succ_of_ne_zero (Nat.ne_zero_of_lt hfuel)
    have hp : p = 0 := hc
    exact ⟨m, by simp [coalesce, hp], by simpa [merge] using hc, fun a _ => rfl⟩
  | case2 b =>
    obtain ⟨fuel, rfl⟩ := Nat.exists_eq_succ_of_ne_zero (Nat.ne_zero_of_lt hfuel)
    have hp : p ≠ 0 := hc.2.1
    have hnext : m.next p = 0 := hc.2.2.2.2
    exact ⟨m, by simp [coalesce, hp, hnext], by simpa [merge] using hc, fun a _ => rfl⟩
  | case3 b c bs hfree ih =>
    obtain ⟨fuel, rfl⟩ := Nat.exists_eq_succ_of_ne_zero (Nat.ne_zero_of_lt hfuel)
    obtain ⟨rfl, hp, hsize, hbfree, hnext, hq, hcsize, hcfree, hrest⟩ := hc
    obtain ⟨rfl, hcaddr, ht'⟩ := ht
    have hafter : ∀ x ∈ bs, b.addr + heapBlockSize + b.size + heapBlockSize + c.size ≤ x.addr :=
      fun x hx => (ht'.bounds hx).1
    have hboth : m.free b.addr ≠ 0 ∧ m.free (m.next b.addr) ≠ 0 ∧
        b.addr + heapBlockSize + m.size b.addr = m.next b.addr := by
      refine ⟨by simpa [hfree.1] using hbfree, by simpa [hfree.2] using hcfree, ?_⟩
      rw [hsize, hnext, hcaddr]
    have hmerged : Chain ((m.store b.addr (m.size b.addr + (heapBlockSize +
        m.size (m.next b.addr)))).store (b.addr + 8) (m.next (m.next b.addr))) b.addr
        (⟨b.addr, b.size + (heapBlockSize + c.size), true⟩ :: bs) := by
      simp only [heapBlockSize] at hafter ⊢
      refine ⟨rfl, hp, ?_, ?_, ?_⟩
      · simp (disch := omega) only [Words.size, store_ne, store_self] at hsize hcsize ⊢
        rw [hsize, hcsize]
      · simp (disch := omega) only [Words.free, store_ne]
        simpa [Words.free] using hboth.1
      · show Chain _ (Words.store _ _ _ _) bs
        rw [store_self]
        refine hrest.congr fun x hx a h₁ h₂ => ?_
        have := hafter x hx
        simp (disch := omega) only [store_ne]
    have htiles : Tiles heapBlockSize b.addr stop
        (⟨b.addr, b.size + (heapBlockSize + c.size), true⟩ :: bs) := by
      refine ⟨rfl, ?_⟩
      rwa [show b.addr + heapBlockSize + (b.size + (heapBlockSize + c.size)) =
        b.addr + heapBlockSize + b.size + heapBlockSize + c.size by ring]
    have hstep : (m.store b.addr (m.size b.addr + (heapBlockSize +
        m.size (m.next b.addr)))).next (m.next b.addr) = m.next (m.next b.addr) := by
      rw [hnext, hcaddr]
      simp (disch := omega) only [Words.next, store_ne]
    obtain ⟨m', hrun, hchain, hframe⟩ := ih hmerged htiles (by simpa using hfuel)
    refine ⟨m', ?_, ?_, ?_⟩
    · rw [coalesce, if_neg hp]
      simp only [if_neg hq, if_pos hboth, hstep]
      exact hrun
    · rwa [merge, if_pos hfree]
    · intro a ha
      have hb := ha b (by simp)
      rw [hframe a fun x hx => ?_]
      · simp only [heapBlockSize] at hb
        simp (disch := omega) only [store_ne]
      · rcases List.mem_cons.mp hx with rfl | hx
        · exact hb
        · exact ha x (by simp [hx])
  | case4 b c bs hfree ih =>
    obtain ⟨fuel, rfl⟩ := Nat.exists_eq_succ_of_ne_zero (Nat.ne_zero_of_lt hfuel)
    obtain ⟨rfl, hp, hsize, hbfree, hrest⟩ := hc
    obtain ⟨rfl, ht'⟩ := ht
    have hq : m.next b.addr ≠ 0 := hrest.2.1
    have hnot : ¬(m.free b.addr ≠ 0 ∧ m.free (m.next b.addr) ≠ 0 ∧
        b.addr + heapBlockSize + m.size b.addr = m.next b.addr) := by
      rintro ⟨h₁, h₂, -⟩
      refine hfree ⟨by simpa [h₁] using hbfree, ?_⟩
      simpa [h₂] using hrest.2.2.2.1
    obtain ⟨m', hrun, hchain, hframe⟩ := ih hrest ht' (by simpa using hfuel)
    have hag : ∀ a, b.addr ≤ a → a < b.addr + 32 → m' a = m a := by
      intro a h₁ h₂
      refine hframe a fun x hx => Or.inl ?_
      have := (ht'.bounds hx).1
      simp only [heapBlockSize] at this
      omega
    refine ⟨m', ?_, ?_, fun a ha => hframe a fun x hx => ha x (List.mem_cons_of_mem _ hx)⟩
    · rw [coalesce, if_neg hp]
      simp only [if_neg hq, if_neg hnot]
      exact hrun
    · rw [merge, if_neg hfree]
      refine ⟨rfl, hp, ?_, ?_, ?_⟩
      · rw [← hsize]
        exact hag _ (by omega) (by omega)
      · rw [hbfree, Words.free, Words.free, hag _ (by omega) (by omega)]
      · rwa [Words.next, hag _ (by omega) (by omega)]

/-- The `free` word of a block on the list. -/
theorem Chain.free_eq {m : Words} {p : ℕ} {bs : List Block} {b : Block} (h : Chain m p bs)
    (hb : b ∈ bs) : b.free = decide (m.free b.addr ≠ 0) := by
  induction bs generalizing p with
  | nil => simp at hb
  | cons c cs ih =>
    obtain ⟨rfl, -, -, hfree, hrest⟩ := h
    rcases List.mem_cons.mp hb with rfl | hb
    · exact hfree
    · exact ih hrest hb

theorem Chain.size_eq {m : Words} {p : ℕ} {bs : List Block} {b : Block} (h : Chain m p bs)
    (hb : b ∈ bs) : m.size b.addr = b.size := by
  induction bs generalizing p with
  | nil => simp at hb
  | cons c cs ih =>
    obtain ⟨rfl, -, hsize, -, hrest⟩ := h
    rcases List.mem_cons.mp hb with rfl | hb
    · exact hsize
    · exact ih hrest hb

/-- Setting a block's `free` word releases it. -/
theorem Chain.release {m : Words} {p start stop : ℕ} {bs : List Block} {b : Block}
    (h : Chain m p bs) (ht : Tiles heapBlockSize start stop bs) (hb : b ∈ bs) :
    Chain (m.store (b.addr + 16) 1) p (release b.addr bs) := by
  have hfar : ∀ c ∈ bs, c.addr ≠ b.addr →
      c.addr + heapBlockSize ≤ b.addr ∨ b.addr + heapBlockSize ≤ c.addr := by
    intro c hc hne
    have := ht.disjoint hc hb (by rintro rfl; exact hne rfl)
    omega
  clear ht hb
  induction bs generalizing p with
  | nil => exact h
  | cons c cs ih =>
    obtain ⟨rfl, hp, hsize, hfree, hrest⟩ := h
    have hc := hfar c List.mem_cons_self
    have hih := ih hrest fun x hx => hfar x (List.mem_cons_of_mem _ hx)
    simp only [heapBlockSize] at hc
    simp only [FreeList.release, List.map_cons] at hih ⊢
    by_cases heq : c.addr = b.addr
    · rw [if_pos heq]
      refine ⟨rfl, hp, ?_, ?_, ?_⟩
      · simp (disch := omega) only [Words.size, store_ne] at hsize ⊢
        exact hsize
      · simp [Words.free, heq, store_self]
      · simp (disch := omega) only [Words.next, store_ne] at hih ⊢
        exact hih
    · have := hc heq
      rw [if_neg heq]
      refine ⟨rfl, hp, ?_, ?_, ?_⟩
      · simp (disch := omega) only [Words.size, store_ne] at hsize ⊢
        exact hsize
      · simp (disch := omega) only [Words.free, store_ne] at hfree ⊢
        exact hfree
      · simp (disch := omega) only [Words.next, store_ne] at hih ⊢
        exact hih

/-- More fuel does not change a scan that has ended. -/
theorem kmallocScan_mono {m : Words} {p n fuel k : ℕ} {r : ℕ × Words}
    (h : kmallocScan n fuel m p = .ok r) : kmallocScan n (fuel + k) m p = .ok r := by
  induction fuel generalizing p with
  | zero => simp [kmallocScan] at h
  | succ fuel ih =>
    rw [Nat.add_right_comm, kmallocScan]
    rw [kmallocScan] at h
    by_cases hp : p = 0
    · simpa [hp] using h
    · rw [if_neg hp] at h ⊢
      by_cases hfit : m.free p ≠ 0 ∧ m.size p ≥ n
      · rwa [if_pos hfit] at h ⊢
      · rw [if_neg hfit] at h ⊢
        exact ih h

/-- More fuel does not change a pass of `coalesce` that has ended. -/
theorem coalesce_mono {m m' : Words} {p fuel k : ℕ}
    (h : coalesce fuel m p = .ok m') : coalesce (fuel + k) m p = .ok m' := by
  induction fuel generalizing m p with
  | zero => simp [coalesce] at h
  | succ fuel ih =>
    rw [Nat.add_right_comm, coalesce]
    rw [coalesce] at h
    by_cases hp : p = 0
    · simpa [hp] using h
    · rw [if_neg hp] at h ⊢
      by_cases hq : m.next p = 0
      · simpa [hq] using h
      · simp only [if_neg hq] at h ⊢
        split at h
        · rename_i hboth
          rw [if_pos hboth]
          exact ih h
        · rename_i hboth
          rw [if_neg hboth]
          exact ih h

end Pinx.Analysis
