import Mathlib.Data.Nat.Notation

/-!
# CRC32 and CRC32C

The reflected table-driven polynomial CRC of `crc.rs`: the caller supplies the
initial register, and the result is returned without a final inversion.  A longer
message may be fed in pieces.
-/

namespace Pinx.Model

/-- SOURCE: crc.rs:9 -/
def polyCrc32c : ℕ := 0x82F63B78

/-- One bit of a table entry. -/
def crcBit (poly crc : ℕ) : ℕ := if crc &&& 1 ≠ 0 then (crc >>> 1) ^^^ poly else crc >>> 1

/-- Entry `i` of the table.
SOURCE: crc.rs:11-28 -/
def crcTable (poly i : ℕ) : ℕ := (List.range 8).foldl (fun crc _ => crcBit poly crc) i

/-- One byte.
SOURCE: crc.rs:34-39 -/
def crcByte (poly crc : ℕ) (byte : UInt8) : ℕ :=
  (crc >>> 8) ^^^ crcTable poly ((crc ^^^ byte.toNat) &&& 0xFF)

/-- SOURCE: crc.rs:8 -/
def polyCrc32 : ℕ := 0xEDB88320

/-- SOURCE: crc.rs:41-43 -/
def crc32 (crc : ℕ) (data : List UInt8) : ℕ := data.foldl (crcByte polyCrc32) crc

/-- SOURCE: crc.rs:45-47 -/
def crc32c (crc : ℕ) (data : List UInt8) : ℕ := data.foldl (crcByte polyCrc32c) crc

theorem crc32_append (crc : ℕ) (data data' : List UInt8) :
    crc32 crc (data ++ data') = crc32 (crc32 crc data) data' :=
  List.foldl_append

theorem crc32c_append (crc : ℕ) (data data' : List UInt8) :
    crc32c crc (data ++ data') = crc32c (crc32c crc data) data' :=
  List.foldl_append

end Pinx.Model
