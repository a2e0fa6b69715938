import Pinx.Analysis.RingThree
import Pinx.Analysis.UserLayout

/-!
# What a program finds in its memory

`userView` is the lower half as a program reads it: a byte for every mapped address.  As long as
every lower page has a frame of its own that is no table (`PrivatePages`), mapping a fresh frame and
writing a frame change the view of one page and nothing else.
-/

namespace Pinx.Analysis

open Pinx.Foundation Pinx.Foundation.WordBitmap Pinx.Foundation.RadixTree Pinx.Model

variable {m m' : Machine} {root va page j f : ℕ}

/-! ## Addresses of one page -/

theorem or_offset {x o : ℕ} (hx : x % 4096 = 0) (ho : o < 4096) : x ||| o = x + o := by
  obtain ⟨k, rfl⟩ := Nat.dvd_of_mod_eq_zero hx
  exact (Nat.two_pow_add_eq_or_of_lt (i := 12) ho k).symm

/-- Within a page the offset is added to the frame. -/
theorem translate_present (va : ℕ) {k e : ℕ} (hk : k < 3) (hp : e &&& ptePresent ≠ 0) :
    translate (va / 4096 * 4096) (k, e) % 4096 = 0 ∧ translate va (k, e) < 2 ^ 52 ∧
      translate va (k, e) = translate (va / 4096 * 4096) (k, e) + va % 4096 := by
  have hsize : pageSize = 4096 := rfl
  have hpage : va / 4096 * 4096 / 4096 * 4096 = va / 4096 * 4096 := by omega
  have hoffset : va / 4096 * 4096 % 4096 = 0 := Nat.mul_mod_left _ _
  -- a huge page contributes the bits below its size that are above the page offset
  have hbase : ∀ e mask k, mask % 4096 = 0 → mask < 2 ^ 52 → 12 ≤ k → k ≤ 52 →
      ((e &&& mask) ||| va / 4096 * 4096 % 2 ^ k) % 4096 = 0 ∧
        ((e &&& mask) ||| va / 4096 * 4096 % 2 ^ k) < 2 ^ 52 := by
    intro e mask k hmask hlt hk hk'
    have hlow : va / 4096 * 4096 % 2 ^ k % 2 ^ 12 = 0 := by
      rw [Nat.mod_mod_of_dvd _ (pow_dvd_pow 2 hk)]
      exact hoffset
    refine ⟨?_, Nat.or_lt_two_pow (lt_of_le_of_lt Nat.and_le_right hlt) ?_⟩
    · rw [show 4096 = 2 ^ 12 from rfl, Nat.or_mod_two_pow, Nat.and_mod_two_pow,
        show mask % 2 ^ 12 = 0 from hmask, Nat.and_zero, Nat.zero_or]
      exact hlow
    · exact lt_of_lt_of_le (Nat.mod_lt _ (Nat.two_pow_pos k)) (Nat.pow_le_pow_right (by omega) hk')
  have hmapped : ∀ base, base % 4096 = 0 → base < 2 ^ 52 →
      (base ||| va / 4096 * 4096 % 4096) % 4096 = 0 ∧ (base ||| va % 4096) < 2 ^ 52 ∧
        (base ||| va % 4096) = (base ||| va / 4096 * 4096 % 4096) + va % 4096 := by
    intro base h0 hlt
    rw [hoffset, Nat.or_zero, or_offset h0 (Nat.mod_lt _ (by omega))]
    omega
  match k with
  | 0 =>
    simp only [translate, if_neg hp, hsize]
    exact hmapped _ (addr_aligned e) (addr_lt e)
  | 1 =>
    obtain ⟨halign, hlt⟩ := hbase e pteAddrMask2M 21 (by decide) (by decide) (by omega) (by omega)
    simp only [translate, if_neg hp, hsize, hpage]
    exact hmapped _ halign hlt
  | 2 =>
    obtain ⟨halign, hlt⟩ := hbase e pteAddrMask1G 30 (by decide) (by decide) (by omega) (by omega)
    simp only [translate, if_neg hp, hsize, hpage]
    exact hmapped _ halign hlt

theorem translate_offset (va : ℕ) (r : ℕ × ℕ) :
    (translate (va / 4096 * 4096) r = vmmNoPhys ∧ translate va r = vmmNoPhys) ∨
      (translate (va / 4096 * 4096) r % 4096 = 0 ∧ translate va r < 2 ^ 52 ∧
        translate va r = translate (va / 4096 * 4096) r + va % 4096) := by
  obtain ⟨k, e⟩ := r
  by_cases hp : e &&& ptePresent = 0
  · exact Or.inl ⟨translate_absent _ k hp, translate_absent _ k hp⟩
  match k with
  | 0 | 1 | 2 => exact Or.inr (translate_present va (by omega) hp)
  | k + 3 => exact Or.inl ⟨rfl, rfl⟩

/-- Addresses of a page are mapped together. -/
theorem virtToPhys_offset (hroot : m.pml4 = some (4096 * root)) (va : ℕ) :
    (vmmVirtToPhys m (va / 4096 * 4096) = vmmNoPhys ∧ vmmVirtToPhys m va = vmmNoPhys) ∨
      (vmmVirtToPhys m (va / 4096 * 4096) % 4096 = 0 ∧ vmmVirtToPhys m va < 2 ^ 52 ∧
        vmmVirtToPhys m va = vmmVirtToPhys m (va / 4096 * 4096) + va % 4096) := by
  have hpage : pageOf (va / 4096 * 4096) = pageOf va := by
    unfold pageOf
    omega
  obtain ⟨hpath, hidx⟩ := path_of_page hpage
  rw [vmmVirtToPhys_eq hroot, vmmVirtToPhys_eq hroot, hpath, hidx]
  exact translate_offset va _

/-! ## Pages of their own -/

/-- Every lower page has a frame of its own, which is in use and no table. -/
structure PrivatePages (root : ℕ) (m : Machine) : Prop where
  tree : TableTree m root
  fresh : FramesFresh m root
  taken : ∀ va, lowerHalf va → vmmVirtToPhys m va ≠ vmmNoPhys →
    test m.pmm.words (vmmVirtToPhys m va / 4096) = true
  no_table : ∀ va, lowerHalf va → vmmVirtToPhys m va ≠ vmmNoPhys →
    ∀ q : List (Fin 512), q.length ≤ 3 → tableAt m root q ≠ some (vmmVirtToPhys m va / 4096)
  distinct : ∀ va va', lowerHalf va → lowerHalf va' → vmmVirtToPhys m va ≠ vmmNoPhys →
    vmmVirtToPhys m va' ≠ vmmNoPhys → vmmVirtToPhys m va / 4096 = vmmVirtToPhys m va' / 4096 →
    va / 4096 = va' / 4096

theorem privatePages_emptySpace {pmm : Pmm}
    (hfree : ∀ j, test pmm.words j = false → j < 2 ^ 40 ∧ j ≠ 1) :
    PrivatePages 1 (emptySpace pmm).machine := by
  have hnone := virtToPhys_emptySpace pmm
  have hboot := layoutBoot_emptySpace hfree
  exact ⟨hboot.tree, hboot.fresh, fun va _ hmapped => absurd (hnone va) hmapped,
    fun va _ hmapped => absurd (hnone va) hmapped, fun va _ _ _ hmapped => absurd (hnone va) hmapped⟩

/-- The byte a program reads at an address of the lower half. -/
def userView (m : Machine) (va : ℕ) : Option UInt8 :=
  if va < 2 ^ 47 ∧ vmmVirtToPhys m va ≠ vmmNoPhys then some (m.mem (vmmVirtToPhys m va)) else none

theorem userView_mapped (hva : lowerHalf va) (hmapped : vmmVirtToPhys m va ≠ vmmNoPhys) :
    userView m va = some (m.mem (vmmVirtToPhys m va)) :=
  if_pos ⟨hva, hmapped⟩

theorem userView_eq_none (hva : lowerHalf va) :
    userView m va = none ↔ vmmVirtToPhys m va = vmmNoPhys := by
  refine ⟨fun h => ?_, fun h => if_neg fun hc => hc.2 h⟩
  by_contra hmapped
  rw [userView_mapped hva hmapped] at h
  cases h

theorem userView_upper (hva : ¬lowerHalf va) : userView m va = none := if_neg fun hc => hva hc.1

theorem pageOf_lower {va' : ℕ} (hva : lowerHalf va) (hva' : lowerHalf va') :
    pageOf va = pageOf va' ↔ va / 4096 = va' / 4096 := by
  unfold lowerHalf at hva hva'
  unfold pageOf
  omega

/-- Frames of lower pages keep their bytes when a fresh frame is mapped. -/
theorem PrivatePages.mapsFresh (h : PrivatePages root m) (hmap : MapsFresh root page j m m')
    (hpage : lowerHalf page) : PrivatePages root m' := by
  have hnoPhys : ∀ va, pageOf va = pageOf page → vmmVirtToPhys m' va / 4096 = j := by
    intro va hva
    rw [hmap.here va hva]
    omega
  have hj : ∀ q : List (Fin 512), q.length ≤ 3 → tableAt m' root q ≠ some j := by
    intro q hq hn
    obtain hold | ⟨-, hne⟩ := hmap.tables q j hq hn
    · exact (h.fresh j hmap.free).2 q hq hold
    · exact hne rfl
  refine ⟨hmap.tree, hmap.fresh, fun va hva hmapped => ?_, fun va hva hmapped q hq hn => ?_,
    fun va va' hva hva' hmapped hmapped' heq => ?_⟩
  · by_cases heq : pageOf va = pageOf page
    · rw [hnoPhys va heq]
      exact hmap.taken
    · rw [hmap.others va heq] at hmapped ⊢
      exact hmap.kept _ (h.taken va hva hmapped)
  · by_cases heq : pageOf va = pageOf page
    · rw [hnoPhys va heq] at hn
      exact hj q hq hn
    · rw [hmap.others va heq] at hmapped hn
      obtain hold | ⟨hfree, -⟩ := hmap.tables q _ hq hn
      · exact h.no_table va hva hmapped q hq hold
      · rw [h.taken va hva hmapped] at hfree
        cases hfree
  · -- a frame in use is not the free frame
    have hother : ∀ va, lowerHalf va → vmmVirtToPhys m' va ≠ vmmNoPhys → pageOf va ≠ pageOf page →
        vmmVirtToPhys m' va / 4096 ≠ j := by
      rintro va hva hmapped hne rfl
      rw [hmap.others va hne] at hmapped
      have hfree := hmap.free
      rw [hmap.others va hne, h.taken va hva hmapped] at hfree
      cases hfree
    by_cases hva₁ : pageOf va = pageOf page <;> by_cases hva₂ : pageOf va' = pageOf page
    · rw [(pageOf_lower hva hpage).mp hva₁, (pageOf_lower hva' hpage).mp hva₂]
    · rw [hnoPhys va hva₁] at heq
      exact absurd heq.symm (hother va' hva' hmapped' hva₂)
    · rw [hnoPhys va' hva₂] at heq
      exact absurd heq (hother va hva hmapped hva₁)
    · rw [hmap.others va hva₁] at hmapped heq
      rw [hmap.others va' hva₂] at hmapped' heq
      exact h.distinct va va' hva hva' hmapped hmapped' heq

/-- A fresh frame shows as a page of zeros. -/
theorem PrivatePages.userView_mapsFresh (h : PrivatePages root m) (hmap : MapsFresh root page j m m')
    (hpage : lowerHalf page) (va : ℕ) :
    userView m' va = if va / 4096 = page / 4096 then some 0 else userView m va := by
  by_cases hva : lowerHalf va
  case neg =>
    have hne : va / 4096 ≠ page / 4096 := by
      unfold lowerHalf at hva hpage
      omega
    rw [if_neg hne, userView_upper hva, userView_upper hva]
  by_cases heq : va / 4096 = page / 4096
  · have hphys := hmap.here va ((pageOf_lower hva hpage).mpr heq)
    have hj := (h.fresh j hmap.free).1
    have hmapped : vmmVirtToPhys m' va ≠ vmmNoPhys := by
      rw [hphys]
      exact vmmNoPhys_ne (by omega)
    rw [if_pos heq, userView_mapped hva hmapped, hmap.zero _ (by rw [hphys]; omega)]
  · have hphys := hmap.others va (fun hc => heq ((pageOf_lower hva hpage).mp hc))
    rw [if_neg heq]
    unfold userView
    rw [hphys]
    split
    · rename_i hmapped
      rw [hmap.bytes _ (h.taken va hva hmapped.2) (h.no_table va hva hmapped.2)]
    · rfl

/-! ## Writing to a page -/

/-- Only the frame `f` of a lower page was written. -/
structure WritesFrame (f : ℕ) (m m' : Machine) : Prop where
  pml4 : m'.pml4 = m.pml4
  pmm : m'.pmm = m.pmm
  bytes : ∀ b, b / 4096 ≠ f → m'.mem b = m.mem b

theorem PrivatePages.writes (h : PrivatePages root m) (hva : lowerHalf va)
    (hmapped : vmmVirtToPhys m va ≠ vmmNoPhys)
    (hw : WritesFrame (vmmVirtToPhys m va / 4096) m m') :
    PrivatePages root m' ∧
      (∀ q : List (Fin 512), q.length ≤ 3 → tableAt m' root q = tableAt m root q) ∧
      (∀ va', vmmVirtToPhys m' va' = vmmVirtToPhys m va') ∧
      ∀ va', va' / 4096 ≠ va / 4096 → userView m' va' = userView m va' := by
  obtain ⟨hpath, hvirt⟩ := same_of_frame h.tree (h.no_table va hva hmapped) hw.pml4 hw.bytes
  refine ⟨⟨⟨hw.pml4.trans h.tree.pml4, h.tree.tree.of_descend hpath⟩, fun k hk => ?_, ?_, ?_, ?_⟩,
    hpath, hvirt, fun va' hne => ?_⟩
  · rw [hw.pmm] at hk
    refine ⟨(h.fresh k hk).1, fun q hq => ?_⟩
    rw [hpath q hq]
    exact (h.fresh k hk).2 q hq
  · intro va' hva' hmapped'
    rw [hvirt] at hmapped' ⊢
    rw [hw.pmm]
    exact h.taken va' hva' hmapped'
  · intro va' hva' hmapped' q hq
    rw [hvirt] at hmapped' ⊢
    rw [hpath q hq]
    exact h.no_table va' hva' hmapped' q hq
  · intro va₁ va₂ h₁ h₂ hm₁ hm₂ heq
    rw [hvirt] at hm₁ hm₂
    rw [hvirt, hvirt] at heq
    exact h.distinct va₁ va₂ h₁ h₂ hm₁ hm₂ heq
  · unfold userView
    rw [hvirt]
    split
    · rename_i hmapped'
      rw [hw.bytes _ fun heq => hne (h.distinct va' va hmapped'.1 hva hmapped'.2 hmapped heq)]
    · rfl

/-! ## Ring 3 -/

/-- Writes to a frame that is no table close no page. -/
theorem Exposed.of_frame (h : Exposed m root va)
    (hf : ∀ q : List (Fin 512), q.length ≤ 3 → tableAt m root q ≠ some f)
    (hpath : ∀ q : List (Fin 512), q.length ≤ 3 → tableAt m' root q = tableAt m root q)
    (hbyte : ∀ b, b / 4096 ≠ f → m'.mem b = m.mem b) : Exposed m' root va := by
  have hcell : ∀ (q : List (Fin 512)) n j, q.length ≤ 3 → tableAt m root q = some n →
      tableCell m'.mem n j = tableCell m.mem n j := by
    intro q n j hq hn
    refine tableCell_of_bytes (fun b hb => hbyte b ?_) j
    rw [hb]
    rintro rfl
    exact hf q hq hn
  have hle := (length_vaPath va).le
  obtain ⟨n, hn, huser, hopen⟩ := h
  refine ⟨n, (hpath _ hle).trans hn, ?_, fun q j r n' hq hn' => ?_⟩
  · rw [hcell _ n _ hle hn]
    exact huser
  · have hlen := congrArg List.length hq
    rw [length_vaPath, List.length_append, List.length_cons] at hlen
    rw [hpath q (by omega)] at hn'
    rw [hcell q n' j (by omega) hn']
    exact hopen q j r n' hq hn'

/-- Mapping a page for ring 3 exposes it and closes no other. -/
theorem vmmMapUserPage_exposed {pa : ℕ} (htree : TableTree m root) (hfresh : FramesFresh m root)
    (hrun : vmmMapUserPage page pa m = (.ok (), m')) :
    (∀ va, pageOf va = pageOf page → Exposed m' root va) ∧
      ∀ va, pageOf va ≠ pageOf page → Exposed m root va → Exposed m' root va := by
  unfold vmmMapUserPage at hrun
  obtain ⟨-, -, m₁, n, hgrows, hpath, hat, rfl⟩ := vmmMapPageFlags_ok htree hfresh hrun
  have hopen : OpenTo m root [] := by
    intro q j r n hq
    simp at hq
  obtain ⟨-, -, -, hexposed, hopen⟩ := ensurePath_rule
    (P := fun p m₁ => (∀ va, Exposed m root va → Exposed m₁ root va) ∧ OpenTo m₁ root p)
    htree hfresh hpath ⟨fun _ h => h, hopen⟩ (by
      rintro p t i t' m₁ m₂ - hlen htree hfresh hat hstep ⟨hexposed, hopen⟩
      have hgrows := (hstep.grows htree hfresh hat hlen).1
      exact ⟨fun va hva => hstep.exposed htree hfresh hat hlen (hexposed va hva),
        hopen.step hfresh hgrows hat hlen hstep (by decide)⟩)
  have hlt : (pa &&& pteAddrMask) ||| ptePresent ||| (ptePresent ||| pteWritable ||| pteUser) <
      2 ^ 64 := by
    have haddr := addr_lt pa
    exact Nat.or_lt_two_pow (Nat.or_lt_two_pow (by omega) (by decide)) (by decide)
  refine ⟨fun va hva => exposed_withLeaf hgrows.tree hat hlt ?_ hopen hva, fun va hne hva =>
    Exposed.withLeaf hgrows.tree hat hlt (hexposed va hva) hne⟩
  rw [userEntry_leaf]
  decide

end Pinx.Analysis
