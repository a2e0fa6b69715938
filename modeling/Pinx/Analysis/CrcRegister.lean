import Pinx.Foundation.ShiftRegister
import Pinx.Model.Crc

/-!
# The table-driven checksums

A step by table is eight clocks of the reflected shift register: the table holds what the low
byte leaves, and the rest of the register only moves down.  So the checksums are those of the
register that takes one bit at a time, and they inherit what it tells apart.
-/

namespace Pinx.Analysis

open Pinx.Foundation.ShiftRegister Pinx.Model

variable {poly crc : ℕ} {data data' : List UInt8}

theorem crcBit_eq_clock (poly crc : ℕ) : crcBit poly crc = clock poly crc := by
  unfold crcBit clock
  rw [Nat.and_one_is_mod, Nat.testBit_zero]
  rcases Nat.mod_two_eq_zero_or_one crc with h | h
  · rw [h]
    exact (Nat.xor_zero _).symm
  · rw [h]
    rfl

/-- SOURCE: crc.rs:11-28 -/
theorem crcTable_eq_clocks (poly i : ℕ) : crcTable poly i = clocks poly 8 i := by
  unfold crcTable
  rw [show (fun crc (_ : ℕ) => crcBit poly crc) = fun crc _ => clock poly crc from
    funext₂ fun crc _ => crcBit_eq_clock poly crc]
  rfl

/-- A step by table is eight clocks. -/
theorem crcByte_eq_clocks (poly crc : ℕ) (byte : UInt8) :
    crcByte poly crc byte = clocks poly 8 (crc ^^^ byte.toNat) := by
  have hhigh : byte.toNat >>> 8 = 0 := by
    rw [Nat.shiftRight_eq_div_pow]
    exact Nat.div_eq_of_lt byte.toNat_lt
  rw [crcByte, crcTable_eq_clocks, clocks_eq poly 8 (crc ^^^ byte.toNat), Nat.shiftRight_xor_distrib,
    hhigh, Nat.xor_zero, show (0xFF : ℕ) = 2 ^ 8 - 1 from rfl, Nat.and_two_pow_sub_one_eq_mod]

theorem foldl_crcByte (poly crc : ℕ) (data : List UInt8) :
    data.foldl (crcByte poly) crc = feedSymbols poly 8 crc (data.map UInt8.toNat) := by
  rw [feedSymbols, List.foldl_map]
  exact congrArg (fun f => data.foldl f crc) (funext₂ fun crc byte => crcByte_eq_clocks poly crc byte)

/-- The bits of a byte string in the order they are fed: byte by byte, the lowest bit first. -/
def dataBits (data : List UInt8) : List Bool := data.flatMap fun byte => lowBits 8 byte.toNat

theorem foldl_crcByte_bits (poly crc : ℕ) (data : List UInt8) :
    data.foldl (crcByte poly) crc = (dataBits data).foldl (feed poly) crc := by
  induction data generalizing crc with
  | nil => rfl
  | cons byte data ih =>
    rw [dataBits, List.flatMap_cons, List.foldl_append, foldl_feed byte.toNat_lt, List.foldl_cons, ih,
      crcByte_eq_clocks]
    rfl

/-- Both checksums are those of the shift register that takes one bit at a time. -/
theorem crc_feeds_bits (seed : ℕ) (data : List UInt8) :
    crc32 seed data = (dataBits data).foldl (feed polyCrc32) seed ∧
      crc32c seed data = (dataBits data).foldl (feed polyCrc32c) seed :=
  ⟨foldl_crcByte_bits polyCrc32 seed data, foldl_crcByte_bits polyCrc32c seed data⟩

/-! ## Bursts -/

/-- All bytes in which two strings differ are within 4 consecutive ones. -/
def ShortBurst (data data' : List UInt8) : Prop :=
  ∃ p, ∀ i, data[i]? ≠ data'[i]? → p ≤ i ∧ i < p + 4

/-- A polynomial with the top bit of 32 detects every burst of 4 bytes. -/
theorem foldl_crcByte_burst (hpoly : poly < 2 ^ 32) (htop : poly.testBit 31 = true) (hcrc : crc < 2 ^ 32)
    (hlen : data.length = data'.length) (hburst : ShortBurst data data')
    (h : data.foldl (crcByte poly) crc = data'.foldl (crcByte poly) crc) : data = data' := by
  obtain ⟨p, hburst⟩ := hburst
  have hbytes : ∀ data : List UInt8, ∀ x ∈ data.map UInt8.toNat, x < 2 ^ 8 := by
    intro data x hx
    obtain ⟨byte, -, rfl⟩ := List.mem_map.mp hx
    exact byte.toNat_lt
  rw [foldl_crcByte, foldl_crcByte] at h
  refine (List.map_inj_right fun _ _ => UInt8.toNat_inj.mp).mp (burst_detected (w := 31) (p := p)
    (m := 4) hpoly htop (by omega) (hbytes data) (by omega) (hbytes data') ?_ (by omega)
    (fun i hi => hburst i fun hsame => hi ?_) hcrc h)
  · rw [List.length_map, List.length_map, hlen]
  · rw [List.getElem?_map, List.getElem?_map, hsame]

/-- Two strings of the same length that differ, but only within 4 consecutive bytes, have
different checksums from every seed. -/
theorem crc_detects_bursts (seed : ℕ) (hseed : seed < 2 ^ 32) (data data' : List UInt8)
    (hlen : data.length = data'.length) (hne : data ≠ data') (hburst : ShortBurst data data') :
    crc32 seed data ≠ crc32 seed data' ∧ crc32c seed data ≠ crc32c seed data' :=
  ⟨fun h => hne (foldl_crcByte_burst (by decide) (by decide) hseed hlen hburst h),
    fun h => hne (foldl_crcByte_burst (by decide) (by decide) hseed hlen hburst h)⟩

/-- Two strings of five bytes that differ in all but the first. -/
theorem crc_detects_four_bytes :
    crc32 (2 ^ 32 - 1) [7, 1, 2, 3, 4] ≠ crc32 (2 ^ 32 - 1) [7, 5, 6, 7, 8] ∧
      crc32c (2 ^ 32 - 1) [7, 1, 2, 3, 4] ≠ crc32c (2 ^ 32 - 1) [7, 5, 6, 7, 8] := by
  refine crc_detects_bursts (2 ^ 32 - 1) (by omega) _ _ rfl (by simp) ⟨1, fun i hi => ?_⟩
  match i, hi with
  | 0, hi => exact absurd rfl hi
  | 1, _ => omega
  | 2, _ => omega
  | 3, _ => omega
  | 4, _ => omega
  | i + 5, hi => exact absurd rfl hi

end Pinx.Analysis
