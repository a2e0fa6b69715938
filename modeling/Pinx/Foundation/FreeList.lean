import Mathlib.Data.List.Basic
import Mathlib.Data.List.Chain
import Mathlib.Data.List.Pairwise
import Mathlib.Tactic.Linarith
import Mathlib.Tactic.Ring

/-!
# First-fit free lists over a tiled window

A window of addresses is cut into consecutive blocks, each a header of `hdr`
bytes followed by its payload.  The list of blocks is the whole state; an
allocation takes the first free block that is large enough and splits off what
is left over, and `merge` joins every run of neighbouring free blocks.

The three facts a representation invariant needs are kept apart: the blocks
tile the window (`Tiles`), their sizes stay positive multiples of the alignment
(`Sized`), and no two neighbours are free (`Separated`).
-/

namespace Pinx.Foundation.FreeList

/-- One block of the window: where its header starts, how many payload bytes
follow the header, and whether it may be handed out. -/
structure Block where
  addr : ℕ
  size : ℕ
  free : Bool
deriving DecidableEq, Repr

/-- The blocks cover `[start, stop)` exactly, in address order. -/
def Tiles (hdr : ℕ) : ℕ → ℕ → List Block → Prop
  | start, stop, [] => start = stop
  | start, stop, b :: bs => b.addr = start ∧ Tiles hdr (start + hdr + b.size) stop bs

/-- Every payload is a positive multiple of the alignment. -/
def Sized (al : ℕ) (bs : List Block) : Prop :=
  ∀ b ∈ bs, 0 < b.size ∧ al ∣ b.size

/-- No two neighbouring blocks are both free. -/
def Separated (bs : List Block) : Prop :=
  bs.IsChain fun b c => ¬(b.free = true ∧ c.free = true)

/-- The block that stays behind once `n` payload bytes were cut off its front. -/
def remainder (hdr n : ℕ) (b : Block) : Block :=
  ⟨b.addr + hdr + n, b.size - n - hdr, true⟩

/-- What a block turns into when `n` bytes of it are handed out: it is split only
when something is left over behind the new header. -/
def carve (hdr n : ℕ) (b : Block) : List Block :=
  if n + hdr < b.size then [⟨b.addr, n, false⟩, remainder hdr n b]
  else [⟨b.addr, b.size, false⟩]

/-- First fit: the block chosen for `n` bytes and the list that replaces `bs`. -/
def firstFit (hdr n : ℕ) : List Block → Option (Block × List Block)
  | [] => none
  | b :: bs =>
    if b.free = true ∧ n ≤ b.size then some (b, carve hdr n b ++ bs)
    else (firstFit hdr n bs).map fun r => (r.1, b :: r.2)

/-- Join neighbouring free blocks, looking at the joined block again. -/
def merge (hdr : ℕ) : List Block → List Block
  | [] => []
  | [b] => [b]
  | b :: c :: bs =>
    if b.free = true ∧ c.free = true then
      merge hdr (⟨b.addr, b.size + (hdr + c.size), true⟩ :: bs)
    else b :: merge hdr (c :: bs)
termination_by bs => bs.length

/-- Mark the block at `a` free. -/
def release (a : ℕ) (bs : List Block) : List Block :=
  bs.map fun b => if b.addr = a then ⟨b.addr, b.size, true⟩ else b

variable {hdr al n start stop : ℕ} {b c : Block} {bs cs : List Block}

/-! ## Tilings -/

theorem tiles_cons :
    Tiles hdr start stop (b :: bs) ↔
      b.addr = start ∧ Tiles hdr (start + hdr + b.size) stop bs := Iff.rfl

/-- A tiling is cut at any point of its list. -/
theorem tiles_append :
    Tiles hdr start stop (bs ++ cs) ↔
      ∃ mid, Tiles hdr start mid bs ∧ Tiles hdr mid stop cs := by
  induction bs generalizing start with
  | nil => simp [Tiles]
  | cons b bs ih =>
    simp only [List.cons_append, tiles_cons, ih]
    constructor
    · rintro ⟨hb, mid, h₁, h₂⟩
      exact ⟨mid, ⟨hb, h₁⟩, h₂⟩
    · rintro ⟨mid, ⟨hb, h₁⟩, h₂⟩
      exact ⟨hb, mid, h₁, h₂⟩

theorem Tiles.start_le (h : Tiles hdr start stop bs) : start ≤ stop := by
  induction bs generalizing start with
  | nil => exact le_of_eq h
  | cons b bs ih =>
    have := ih h.2
    omega

/-- Every block of a tiling lies inside the window. -/
theorem Tiles.bounds (h : Tiles hdr start stop bs) (hb : b ∈ bs) :
    start ≤ b.addr ∧ b.addr + hdr + b.size ≤ stop := by
  induction bs generalizing start with
  | nil => simp at hb
  | cons c cs ih =>
    obtain ⟨hc, ht⟩ := h
    rcases List.mem_cons.mp hb with rfl | hb
    · have := ht.start_le
      omega
    · have := ih ht hb
      omega

/-- Blocks of a tiling follow one another without overlap. -/
theorem Tiles.pairwise (h : Tiles hdr start stop bs) :
    bs.Pairwise fun b c => b.addr + hdr + b.size ≤ c.addr := by
  induction bs generalizing start with
  | nil => exact List.Pairwise.nil
  | cons b bs ih =>
    obtain ⟨hb, ht⟩ := h
    refine List.Pairwise.cons (fun c hc => ?_) (ih ht)
    have := (ht.bounds hc).1
    omega

/-- Two different blocks of a tiling occupy disjoint ranges. -/
theorem Tiles.disjoint (h : Tiles hdr start stop bs) (hb : b ∈ bs) (hc : c ∈ bs)
    (hne : b ≠ c) :
    b.addr + hdr + b.size ≤ c.addr ∨ c.addr + hdr + c.size ≤ b.addr := by
  have hp := h.pairwise
  clear h
  induction bs with
  | nil => simp at hb
  | cons x xs ih =>
    obtain ⟨hx, hxs⟩ := List.pairwise_cons.mp hp
    rcases List.mem_cons.mp hb with hb | hb <;> rcases List.mem_cons.mp hc with hc | hc
    · exact absurd (hb.trans hc.symm) hne
    · exact Or.inl (hb ▸ hx c hc)
    · exact Or.inr (hc ▸ hx b hb)
    · exact ih hb hc hxs

/-- A block of a tiling is known by its address. -/
theorem Tiles.eq_of_addr (hh : 0 < hdr) (h : Tiles hdr start stop bs) (hb : b ∈ bs)
    (hc : c ∈ bs) (hbc : b.addr = c.addr) : b = c := by
  by_contra hne
  have := h.disjoint hb hc hne
  omega

/-- The addresses of a tiling are multiples of the alignment once the window, the
header and the sizes are. -/
theorem Tiles.aligned (hal : al ∣ hdr) (h : Tiles hdr start stop bs) (hs : Sized al bs)
    (hstart : al ∣ start) (hb : b ∈ bs) : al ∣ b.addr := by
  induction bs generalizing start with
  | nil => simp at hb
  | cons c cs ih =>
    obtain ⟨hc, ht⟩ := h
    have hsize := (hs c List.mem_cons_self).2
    rcases List.mem_cons.mp hb with rfl | hb
    · exact hc ▸ hstart
    · exact ih ht (fun x hx => hs x (List.mem_cons_of_mem _ hx))
        (Nat.dvd_add (Nat.dvd_add hstart hal) hsize) hb

/-! ## Handing out a block -/

/-- The chosen block is free and large enough, and the list changes only there. -/
theorem firstFit_eq_some {r : Block × List Block} (h : firstFit hdr n bs = some r) :
    ∃ pre post, bs = pre ++ r.1 :: post ∧ r.2 = pre ++ (carve hdr n r.1 ++ post) ∧
      r.1.free = true ∧ n ≤ r.1.size := by
  induction bs generalizing r with
  | nil => simp [firstFit] at h
  | cons b bs ih =>
    by_cases hfit : b.free = true ∧ n ≤ b.size
    · simp only [firstFit, if_pos hfit, Option.some.injEq] at h
      subst h
      exact ⟨[], bs, rfl, rfl, hfit.1, hfit.2⟩
    · simp only [firstFit, if_neg hfit, Option.map_eq_some_iff] at h
      obtain ⟨r', hr', rfl⟩ := h
      obtain ⟨pre, post, hbs, hr, hfree, hsize⟩ := ih hr'
      refine ⟨b :: pre, post, ?_, ?_, hfree, hsize⟩
      · simp [hbs]
      · simp [hr]

/-- First fit fails exactly when no free block is large enough. -/
theorem firstFit_eq_none :
    firstFit hdr n bs = none ↔ ∀ b ∈ bs, b.free = true → b.size < n := by
  induction bs with
  | nil => simp [firstFit]
  | cons b bs ih =>
    by_cases hfit : b.free = true ∧ n ≤ b.size
    · simp only [firstFit, if_pos hfit, List.mem_cons, reduceCtorEq, false_iff]
      intro h
      exact absurd (h b (Or.inl rfl) hfit.1) (Nat.not_lt.mpr hfit.2)
    · simp only [firstFit, if_neg hfit, Option.map_eq_none_iff, ih, List.mem_cons,
        forall_eq_or_imp, iff_and_self]
      intro _ hfree
      by_contra hle
      exact hfit ⟨hfree, Nat.not_lt.mp hle⟩

theorem tiles_carve :
    Tiles hdr b.addr (b.addr + hdr + b.size) (carve hdr n b) := by
  unfold carve
  split
  · simp only [Tiles, remainder, true_and]
    omega
  · simp [Tiles]

theorem sized_carve (hal : al ∣ hdr) (hpos : 0 < n) (hn : al ∣ n)
    (hb : 0 < b.size ∧ al ∣ b.size) : Sized al (carve hdr n b) := by
  unfold carve
  intro x hx
  split at hx
  · simp only [List.mem_cons, List.not_mem_nil, or_false] at hx
    rcases hx with rfl | rfl
    · exact ⟨hpos, hn⟩
    · refine ⟨by simp only [remainder]; omega, ?_⟩
      exact Nat.dvd_sub (Nat.dvd_sub hb.2 hn) hal
  · simp only [List.mem_singleton] at hx
    subst hx
    exact hb

/-- Handing out a block keeps the tiling. -/
theorem Tiles.firstFit {r : Block × List Block} (h : Tiles hdr start stop bs)
    (hr : firstFit hdr n bs = some r) : Tiles hdr start stop r.2 := by
  obtain ⟨pre, post, rfl, hr2, -, -⟩ := firstFit_eq_some hr
  rw [hr2]
  obtain ⟨mid, hpre, hmid, hpost⟩ := tiles_append.mp h
  refine tiles_append.mpr ⟨mid, hpre, tiles_append.mpr ⟨_, ?_, hpost⟩⟩
  rw [← hmid]
  exact tiles_carve

/-- Handing out a positive multiple of the alignment keeps the sizes. -/
theorem Sized.firstFit {r : Block × List Block} (hal : al ∣ hdr) (hpos : 0 < n)
    (hn : al ∣ n) (h : Sized al bs) (hr : firstFit hdr n bs = some r) : Sized al r.2 := by
  obtain ⟨pre, post, rfl, hr2, -, -⟩ := firstFit_eq_some hr
  rw [hr2]
  intro x hx
  simp only [List.mem_append] at hx
  rcases hx with hx | hx | hx
  · exact h x (by simp [hx])
  · exact sized_carve hal hpos hn (h r.1 (by simp)) x hx
  · exact h x (by simp [hx])

/-- Separation of a list, read at one of its seams. -/
theorem separated_append :
    Separated (bs ++ cs) ↔ Separated bs ∧ Separated cs ∧
      ∀ b ∈ bs.getLast?, ∀ c ∈ cs.head?, ¬(b.free = true ∧ c.free = true) :=
  List.isChain_append

/-- Handing out a block keeps free blocks apart: the block that is split was free,
so the block behind its remainder is not. -/
theorem Separated.firstFit {r : Block × List Block} (h : Separated bs)
    (hr : firstFit hdr n bs = some r) : Separated r.2 := by
  obtain ⟨pre, post, rfl, hr2, hfree, -⟩ := firstFit_eq_some hr
  rw [hr2]
  obtain ⟨hpre, hrest, hseam⟩ := separated_append.mp h
  have hpost : Separated post ∧ ∀ c ∈ post.head?, ¬(r.1.free = true ∧ c.free = true) := by
    have hcons : Separated ([r.1] ++ post) := by simpa using hrest
    obtain ⟨-, hpost, hnext⟩ := separated_append.mp hcons
    exact ⟨hpost, by simpa using hnext⟩
  refine separated_append.mpr ⟨hpre, separated_append.mpr ⟨?_, hpost.1, ?_⟩, ?_⟩
  · unfold carve
    split <;> simp [Separated]
  · intro x hx y hy
    unfold carve at hx
    split at hx
    · simp only [List.getLast?_cons_cons, List.getLast?_singleton, Option.mem_def,
        Option.some.injEq] at hx
      subst hx
      have := hpost.2 y hy
      simpa [remainder, hfree] using this
    · simp only [List.getLast?_singleton, Option.mem_def, Option.some.injEq] at hx
      subst hx
      simp
  · intro x _ y hy
    have : y.free = false := by
      unfold carve at hy
      split at hy <;> simp only [List.cons_append, List.head?_cons, Option.mem_def,
        Option.some.injEq] at hy <;> subst hy <;> rfl
    simp [this]

/-! ## Giving a block back -/

theorem tiles_release {a : ℕ} :
    Tiles hdr start stop (release a bs) ↔ Tiles hdr start stop bs := by
  induction bs generalizing start with
  | nil => rfl
  | cons b bs ih =>
    simp only [release, List.map_cons, tiles_cons] at ih ⊢
    split <;> simp only [ih]

theorem Sized.release {a : ℕ} (h : Sized al bs) : Sized al (release a bs) := by
  intro x hx
  simp only [FreeList.release, List.mem_map] at hx
  obtain ⟨y, hy, rfl⟩ := hx
  split
  · exact h y hy
  · exact h y hy

/-- Joining free neighbours keeps the tiling. -/
theorem Tiles.merge (h : Tiles hdr start stop bs) : Tiles hdr start stop (merge hdr bs) := by
  induction bs using merge.induct hdr generalizing start with
  | case1 => simpa [FreeList.merge] using h
  | case2 b => simpa [FreeList.merge] using h
  | case3 b c bs hfree ih =>
    rw [FreeList.merge, if_pos hfree]
    obtain ⟨hb, hc, ht⟩ := h
    refine ih ⟨hb, ?_⟩
    rwa [show start + hdr + (b.size + (hdr + c.size)) = start + hdr + b.size + hdr + c.size by
      ring]
  | case4 b c bs hfree ih =>
    rw [FreeList.merge, if_neg hfree]
    exact ⟨h.1, ih h.2⟩

/-- Joining free neighbours keeps the sizes. -/
theorem Sized.merge (hal : al ∣ hdr) (h : Sized al bs) : Sized al (merge hdr bs) := by
  induction bs using merge.induct hdr with
  | case1 => simpa [FreeList.merge] using h
  | case2 b => simpa [FreeList.merge] using h
  | case3 b c bs hfree ih =>
    rw [FreeList.merge, if_pos hfree]
    have hb := h b (by simp)
    have hc := h c (by simp)
    refine ih fun x hx => ?_
    rcases List.mem_cons.mp hx with rfl | hx
    · exact ⟨by simp only; omega, Nat.dvd_add hb.2 (Nat.dvd_add hal hc.2)⟩
    · exact h x (by simp [hx])
  | case4 b c bs hfree ih =>
    rw [FreeList.merge, if_neg hfree]
    intro x hx
    rcases List.mem_cons.mp hx with rfl | hx
    · exact h x (by simp)
    · exact ih (fun y hy => h y (List.mem_cons_of_mem _ hy)) x hx

/-- The first block of a joined list is free only if the first block was. -/
theorem head_merge (hdr : ℕ) (b : Block) (bs : List Block) :
    ∃ c cs, merge hdr (b :: bs) = c :: cs ∧ c.free = b.free ∧ c.addr = b.addr := by
  induction bs generalizing b with
  | nil => exact ⟨b, [], by simp [FreeList.merge], rfl, rfl⟩
  | cons x xs ih =>
    rw [FreeList.merge]
    split
    · rename_i hfree
      obtain ⟨c, cs, hc, hf, ha⟩ := ih ⟨b.addr, b.size + (hdr + x.size), true⟩
      exact ⟨c, cs, hc, by rw [hf, hfree.1], ha⟩
    · exact ⟨b, _, rfl, rfl, rfl⟩

/-- After joining, no two neighbours are free, whatever the list was. -/
theorem separated_merge (bs : List Block) : Separated (merge hdr bs) := by
  induction bs using merge.induct hdr with
  | case1 => simp [FreeList.merge, Separated]
  | case2 b => simp [FreeList.merge, Separated]
  | case3 b c bs hfree ih =>
    rw [FreeList.merge, if_pos hfree]
    exact ih
  | case4 b c bs hfree ih =>
    rw [FreeList.merge, if_neg hfree]
    obtain ⟨d, ds, hd, hf, -⟩ := head_merge hdr c bs
    rw [hd] at ih ⊢
    exact List.isChain_cons_cons.mpr ⟨by rwa [hf], ih⟩

/-- Joining leaves the blocks in use alone. -/
theorem mem_merge_of_used (hb : b.free = false) : b ∈ merge hdr bs ↔ b ∈ bs := by
  induction bs using merge.induct hdr with
  | case1 => simp [FreeList.merge]
  | case2 c => simp [FreeList.merge]
  | case3 c d bs hfree ih =>
    rw [FreeList.merge, if_pos hfree, ih]
    have hc : b ≠ c := by rintro rfl; simp [hb] at hfree
    have hd : b ≠ d := by rintro rfl; simp [hb] at hfree
    have hcd : b ≠ ⟨c.addr, c.size + (hdr + d.size), true⟩ := by rintro rfl; simp at hb
    simp [hc, hd, hcd]
  | case4 c d bs hfree ih =>
    rw [FreeList.merge, if_neg hfree]
    simp [ih]

/-! ## Room between the blocks in use -/

/-- The `len` addresses from `a` on meet no block in use. -/
def Vacant (hdr : ℕ) (bs : List Block) (a len : ℕ) : Prop :=
  ∀ b ∈ bs, b.free = false → a + len ≤ b.addr ∨ b.addr + hdr + b.size ≤ a

/-- A vacant range with room for a header is part of one free block: what follows a free block
is in use. -/
theorem Tiles.fits_of_vacant {a : ℕ} (hh : 0 < hdr) (h : Tiles hdr start stop bs)
    (hsep : Separated bs) (hlo : start ≤ a) (hhi : a + (hdr + n) ≤ stop)
    (hvac : Vacant hdr bs a (hdr + n)) : ∃ b ∈ bs, b.free = true ∧ n ≤ b.size := by
  induction bs generalizing start with
  | nil =>
    have : start = stop := h
    omega
  | cons b bs ih =>
    obtain ⟨hb, ht⟩ := h
    have hbehind : start + hdr + b.size ≤ a → ∃ c ∈ b :: bs, c.free = true ∧ n ≤ c.size := by
      intro hle
      obtain ⟨c, hc, hfit⟩ := ih ht hsep.of_cons hle fun c hc => hvac c (List.mem_cons_of_mem b hc)
      exact ⟨c, List.mem_cons_of_mem b hc, hfit⟩
    cases hfree : b.free with
    | false =>
      have hb' := hvac b List.mem_cons_self hfree
      exact hbehind (by omega)
    | true =>
      by_cases hle : start + hdr + b.size ≤ a
      · exact hbehind hle
      refine ⟨b, List.mem_cons_self, hfree, ?_⟩
      cases bs with
      | nil =>
        have : start + hdr + b.size = stop := ht
        omega
      | cons c cs =>
        have hused : c.free = false := by
          have := (List.isChain_cons_cons.mp hsep).1
          simpa [hfree] using this
        have hc := hvac c (by simp) hused
        have hcaddr := ht.1
        omega

/-- Some vacant range is long enough exactly when some free block is. -/
theorem Tiles.vacant_iff (hh : 0 < hdr) (h : Tiles hdr start stop bs) (hsep : Separated bs) :
    (∃ a, start ≤ a ∧ a + (hdr + n) ≤ stop ∧ Vacant hdr bs a (hdr + n)) ↔
      ∃ b ∈ bs, b.free = true ∧ n ≤ b.size := by
  constructor
  · rintro ⟨a, hlo, hhi, hvac⟩
    exact h.fits_of_vacant hh hsep hlo hhi hvac
  · rintro ⟨b, hb, hfree, hsize⟩
    have hbounds := h.bounds hb
    refine ⟨b.addr, hbounds.1, by omega, fun c hc hused => ?_⟩
    have hne : b ≠ c := by
      rintro rfl
      rw [hfree] at hused
      cases hused
    have := h.disjoint hb hc hne
    omega

/-- With nothing in use the window is one free block. -/
theorem Tiles.eq_single (h : Tiles hdr start stop bs) (hsep : Separated bs) (hlt : start < stop)
    (hfree : ∀ b ∈ bs, b.free = true) : bs = [⟨start, stop - start - hdr, true⟩] := by
  match bs, h with
  | [], h => exact absurd h hlt.ne
  | [b], ⟨hb, hend⟩ =>
    have hend' : start + hdr + b.size = stop := hend
    obtain ⟨addr, size, free⟩ := b
    have hf : free = true := hfree _ List.mem_cons_self
    simp only at hb hend'
    simp only [List.cons.injEq, Block.mk.injEq, and_true]
    exact ⟨hb, by omega, hf⟩
  | b :: c :: bs, _ =>
    exact absurd ⟨hfree b (by simp), hfree c (by simp)⟩ (List.isChain_cons_cons.mp hsep).1

end Pinx.Foundation.FreeList
