import Pinx.Model.Loader

/-!
# The tag of a program

`find_header` is meant to say whether the image carries a header with the wanted magic and
version anywhere.  It stops at the first magic, so a match with another version in front of the
header hides it: the answer is right exactly when no such match comes before the first header
(`find_header_iff`).
-/

namespace Pinx.Analysis

open Pinx.Foundation Pinx.Model

/-- The magic stands at `i`, with room for a version behind it. -/
def MagicAt (image : List UInt8) (magic : Vector UInt8 12) (i : ℕ) : Prop :=
  i + programHeaderSize ≤ image.length ∧ (imageBytes image).slice i 12 = magic.toList

/-- The magic stands at `i`, followed by the version as a little-endian `u32`. -/
def HeaderAt (image : List UInt8) (magic : Vector UInt8 12) (version : UInt32) (i : ℕ) : Prop :=
  MagicAt image magic i ∧ (imageBytes image).getLE (i + 12) 4 = version.toNat

variable (image : List UInt8) (magic : Vector UInt8 12) (version : UInt32)

/-- One turn of the scan, at an offset with room for a header. -/
theorem scanHeader_succ (n : ℕ) {i : ℕ} (hi : i + programHeaderSize ≤ image.length) :
    scanHeader image magic version (n + 1) i =
      if (imageBytes image).slice i 12 = magic.toList then
        .ok (decide ((imageBytes image).getLE (i + 12) 4 = version.toNat))
      else scanHeader image magic version n (i + 1) := by
  unfold programHeaderSize at hi
  have hslice : sliceImage image i 12 = .ok ((imageBytes image).slice i 12) := if_pos (by omega)
  have hread : readImage image (i + 12) 4 = .ok ((imageBytes image).getLE (i + 12) 4) :=
    if_pos (by omega)
  rw [scanHeader, hslice]
  simp only [hread]
  rfl

/-- The scan finds a header exactly when the first magic from `i` on is one. -/
theorem scanHeader_spec (n i : ℕ) (hn : i + n + programHeaderSize = image.length + 1) :
    ∃ found, scanHeader image magic version n i = .ok found ∧
      (found = true ↔ ∃ j, i ≤ j ∧ HeaderAt image magic version j ∧
        ∀ k, i ≤ k → k < j → ¬MagicAt image magic k) := by
  induction n generalizing i with
  | zero =>
    refine ⟨false, rfl, ⟨fun h => absurd h (by simp), ?_⟩⟩
    rintro ⟨j, hij, ⟨⟨hj, -⟩, -⟩, -⟩
    omega
  | succ n ih =>
    have hroom : i + programHeaderSize ≤ image.length := by omega
    rw [scanHeader_succ image magic version n hroom]
    by_cases hmagic : (imageBytes image).slice i 12 = magic.toList
    · rw [if_pos hmagic]
      have hat : MagicAt image magic i := ⟨hroom, hmagic⟩
      refine ⟨_, rfl, ?_⟩
      rw [decide_eq_true_iff]
      constructor
      · intro hversion
        exact ⟨i, le_rfl, ⟨hat, hversion⟩, fun k hik hki => absurd hik (by omega)⟩
      · rintro ⟨j, hij, hheader, hfirst⟩
        rcases Nat.eq_or_lt_of_le hij with rfl | hlt
        · exact hheader.2
        · exact absurd hat (hfirst i le_rfl hlt)
    · rw [if_neg hmagic]
      obtain ⟨found, hrun, hfound⟩ := ih (i + 1) (by omega)
      refine ⟨found, hrun, hfound.trans ⟨?_, ?_⟩⟩
      · rintro ⟨j, hij, hheader, hfirst⟩
        refine ⟨j, by omega, hheader, fun k hik hkj hat => ?_⟩
        rcases Nat.eq_or_lt_of_le hik with rfl | hlt
        · exact hmagic hat.2
        · exact hfirst k hlt hkj hat
      · rintro ⟨j, hij, hheader, hfirst⟩
        have hne : i ≠ j := by
          rintro rfl
          exact hmagic hheader.1.2
        exact ⟨j, by omega, hheader, fun k hik hkj => hfirst k (by omega) hkj⟩

/-- `find_header` always answers, and finds a header exactly when the first magic is one. -/
theorem findHeader_spec :
    ∃ found, findHeader image magic version = .ok found ∧
      (found = true ↔ ∃ j, HeaderAt image magic version j ∧ ∀ k < j, ¬MagicAt image magic k) := by
  unfold findHeader
  split
  · refine ⟨false, rfl, ⟨fun h => absurd h (by simp), ?_⟩⟩
    rintro ⟨j, ⟨⟨hj, -⟩, -⟩, -⟩
    omega
  · obtain ⟨found, hrun, hfound⟩ := scanHeader_spec image magic version
      (image.length - programHeaderSize + 1) 0 (by omega)
    refine ⟨found, hrun, hfound.trans ?_⟩
    simp only [Nat.zero_le, true_and, true_implies]

/-- The answer is whether there is a header, exactly when no magic with another version stands in
front of the first header. -/
theorem find_header_iff (image : List UInt8) (magic : Vector UInt8 12) (version : UInt32) :
    ∃ found, findHeader image magic version = .ok found ∧
      ((found = true ↔ ∃ i, HeaderAt image magic version i) ↔
        ∀ i, HeaderAt image magic version i → ∀ k < i, MagicAt image magic k →
          ∃ j ≤ k, HeaderAt image magic version j) := by
  obtain ⟨found, hrun, hfound⟩ := findHeader_spec image magic version
  refine ⟨found, hrun, ?_⟩
  rw [hfound]
  constructor
  · intro hright i hi k _ hat
    obtain ⟨j, hj, hfirst⟩ := hright.mpr ⟨i, hi⟩
    refine ⟨j, ?_, hj⟩
    by_contra hlt
    exact hfirst k (by omega) hat
  · intro hcond
    refine ⟨fun ⟨j, hj, _⟩ => ⟨j, hj⟩, ?_⟩
    -- take the first header: a magic before it would have a header before it
    classical
    intro hex
    refine ⟨Nat.find hex, Nat.find_spec hex, fun k hk hat => ?_⟩
    obtain ⟨j, hj, hheader⟩ := hcond _ (Nat.find_spec hex) k hk hat
    exact Nat.find_min hex (by omega) hheader

/-- Two tags, the first of another version: the image carries the header, and `find_header` says
that it does not. -/
theorem other_version_hides_header :
    let magic : Vector UInt8 12 := Vector.replicate 12 0x50
    let image := magic.toList ++ [2, 0, 0, 0] ++ magic.toList ++ [1, 0, 0, 0]
    findHeader image magic 1 = .ok false ∧ HeaderAt image magic 1 16 := by
  refine ⟨by decide, ⟨by decide, by decide⟩, by decide⟩

end Pinx.Analysis
