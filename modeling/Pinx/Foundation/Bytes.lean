import Mathlib.Data.Nat.Notation
import Mathlib.Tactic.Ring

/-!
# Byte-addressed memory

A memory is a total function from addresses to bytes.  `blit` overwrites one
range; little-endian integers of any width are read with `getLE` and written with
`putLE`.  `slice` lists a range, `clip` keeps the first bytes of a buffer, and
`testBit` and `setBit` see the memory as a bitmap.
-/

namespace Pinx.Foundation

/-- A byte for every address. -/
abbrev Bytes := ℕ → UInt8

namespace Bytes

/-- The memory with `[a, a + n)` overwritten by `src 0, .., src (n - 1)`. -/
def blit (m : Bytes) (a n : ℕ) (src : Bytes) : Bytes :=
  fun b => if a ≤ b ∧ b < a + n then src (b - a) else m b

/-- The `n`-byte little-endian integer at `a`. -/
def getLE (m : Bytes) (a : ℕ) : ℕ → ℕ
  | 0 => 0
  | n + 1 => (m a).toNat + 256 * getLE m (a + 1) n

/-- The memory with the `n`-byte little-endian integer `v` stored at `a`. -/
def putLE (m : Bytes) (a n v : ℕ) : Bytes :=
  blit m a n fun k => UInt8.ofNat (v / 256 ^ k)

variable {m m' : Bytes} {a b n k v : ℕ} {src : Bytes}

theorem blit_inside (hab : a ≤ b) (hbn : b < a + n) : blit m a n src b = src (b - a) :=
  if_pos ⟨hab, hbn⟩

theorem blit_outside (h : b < a ∨ a + n ≤ b) : blit m a n src b = m b :=
  if_neg (by omega)

theorem putLE_outside (h : b < a ∨ a + n ≤ b) : putLE m a n v b = m b :=
  blit_outside h

theorem getLE_congr (h : ∀ j < n, m (a + j) = m' (b + j)) : getLE m a n = getLE m' b n := by
  induction n generalizing a b with
  | zero => rfl
  | succ n ih =>
    have hhead := h 0 (Nat.succ_pos n)
    have htail : getLE m (a + 1) n = getLE m' (b + 1) n := by
      apply ih
      intro j hj
      have := h (j + 1) (Nat.succ_lt_succ hj)
      rwa [show a + (j + 1) = a + 1 + j by ring, show b + (j + 1) = b + 1 + j by ring] at this
    simp only [Nat.add_zero] at hhead
    rw [getLE, getLE, hhead, htail]

theorem getLE_lt (m : Bytes) (a n : ℕ) : getLE m a n < 256 ^ n := by
  induction n generalizing a with
  | zero => exact Nat.one_pos
  | succ n ih =>
    have hbyte := (m a).toNat_lt
    have htail := ih (a + 1)
    rw [getLE, Nat.pow_succ]
    omega

theorem getLE_eq_zero (h : ∀ j < n, m (a + j) = 0) : getLE m a n = 0 := by
  induction n generalizing a with
  | zero => rfl
  | succ n ih =>
    have hhead := h 0 (Nat.succ_pos n)
    have htail : getLE m (a + 1) n = 0 := by
      apply ih
      intro j hj
      have := h (j + 1) (Nat.succ_lt_succ hj)
      rwa [show a + (j + 1) = a + 1 + j by ring] at this
    rw [Nat.add_zero] at hhead
    simp [getLE, hhead, htail]

theorem getLE_blit_outside (h : b + k ≤ a ∨ a + n ≤ b) :
    getLE (blit m a n src) b k = getLE m b k := by
  apply getLE_congr
  intro j hj
  apply blit_outside
  omega

theorem getLE_putLE_outside (h : b + k ≤ a ∨ a + n ≤ b) :
    getLE (putLE m a n v) b k = getLE m b k :=
  getLE_blit_outside h

/-- The digits of `v` read back as `v`. -/
theorem getLE_digits (v n : ℕ) : getLE (fun k => UInt8.ofNat (v / 256 ^ k)) 0 n = v % 256 ^ n := by
  induction n generalizing v with
  | zero => simp [getLE, Nat.mod_one]
  | succ n ih =>
    have htail : getLE (fun k => UInt8.ofNat (v / 256 ^ k)) 1 n = v / 256 % 256 ^ n := by
      rw [← ih]
      apply getLE_congr
      intro j _
      rw [Nat.div_div_eq_div_mul, Nat.zero_add, Nat.add_comm 1 j, Nat.pow_succ, Nat.mul_comm]
    rw [getLE, htail, Nat.pow_succ', Nat.mod_mul]
    simp

theorem getLE_putLE (m : Bytes) (a n v : ℕ) : getLE (putLE m a n v) a n = v % 256 ^ n := by
  rw [← getLE_digits]
  apply getLE_congr
  intro j hj
  rw [putLE, blit_inside (by omega) (by omega), Nat.add_sub_cancel_left, Nat.zero_add]

/-- A number has its bytes. -/
theorem eq_of_getLE (h : getLE m a n = getLE m' b n) (hk : k < n) : m (a + k) = m' (b + k) := by
  induction n generalizing a b k with
  | zero => exact absurd hk (Nat.not_lt_zero k)
  | succ n ih =>
    have h₁ := (m a).toNat_lt
    have h₂ := (m' b).toNat_lt
    rw [getLE, getLE] at h
    cases k with
    | zero =>
      rw [Nat.add_zero, Nat.add_zero]
      exact UInt8.toNat.inj (by omega)
    | succ k =>
      have htail := ih (a := a + 1) (b := b + 1) (k := k) (by omega) (by omega)
      rwa [Nat.add_assoc, Nat.add_comm 1 k, Nat.add_assoc, Nat.add_comm 1 k] at htail

/-- Writing a number back where it stands changes nothing. -/
theorem putLE_getLE (h : v % 256 ^ n = getLE m a n) : putLE m a n v = m := by
  funext b
  by_cases hin : a ≤ b ∧ b < a + n
  · have hbyte := eq_of_getLE (k := b - a) ((getLE_putLE m a n v).trans h) (by omega)
    rwa [Nat.add_sub_cancel' hin.1] at hbyte
  · exact putLE_outside (by omega)

/-! ## Buffers -/

/-- The first `n` bytes, followed by zeros. -/
def clip (n : ℕ) (m : Bytes) : Bytes := fun k => if k < n then m k else 0

/-- The bytes of `[a, a + n)`. -/
def slice (m : Bytes) (a n : ℕ) : List UInt8 := (List.range n).map fun k => m (a + k)

theorem clip_inside (h : k < n) : clip n m k = m k := if_pos h

theorem clip_congr (h : ∀ k < n, m k = m' k) : clip n m = clip n m' := by
  funext k
  unfold clip
  split
  · exact h k ‹_›
  · rfl

theorem clip_clip (m : Bytes) : clip n (clip n m) = clip n m := by
  funext k
  unfold clip
  split <;> rfl

theorem getLE_clip (h : a + k ≤ n) : getLE (clip n m) a k = getLE m a k := by
  apply getLE_congr
  intro j hj
  exact clip_inside (by omega)

theorem slice_congr (h : ∀ j < n, m (a + j) = m' (b + j)) : slice m a n = slice m' b n := by
  apply List.map_congr_left
  intro j hj
  exact h j (List.mem_range.mp hj)

theorem slice_putLE_outside (h : b + k ≤ a ∨ a + n ≤ b) :
    slice (putLE m a n v) b k = slice m b k := by
  apply slice_congr
  intro j hj
  apply putLE_outside
  omega

theorem slice_append (m : Bytes) (a n k : ℕ) : slice m a (n + k) = slice m a n ++ slice m (a + n) k := by
  unfold slice
  rw [List.range_add, List.map_append, List.map_map]
  congr 2
  funext j
  simp only [Function.comp_apply, Nat.add_assoc]

theorem slice_split (m : Bytes) (a n k : ℕ) :
    slice m a n = slice m a (min n k) ++ slice m (a + k) (n - k) := by
  rcases Nat.le_total n k with h | h
  · rw [Nat.min_eq_left h, Nat.sub_eq_zero_of_le h]
    exact (List.append_nil _).symm
  · rw [Nat.min_eq_right h, ← slice_append, Nat.add_sub_cancel' h]

/-! ## Bitmaps -/

/-- Bit `i`, counted from the low bit of the first byte. -/
def testBit (m : Bytes) (i : ℕ) : Bool := (m (i / 8)).toNat.testBit (i % 8)

/-- The bitmap with bit `i` set. -/
def setBit (m : Bytes) (i : ℕ) : Bytes :=
  fun k => if k = i / 8 then UInt8.ofNat ((m k).toNat ||| 2 ^ (i % 8)) else m k

theorem testBit_setBit (m : Bytes) (i j : ℕ) : testBit (setBit m i) j = (testBit m j || decide (i = j)) := by
  unfold testBit setBit
  by_cases hbyte : j / 8 = i / 8
  · have hmod : i % 8 < 8 := Nat.mod_lt _ (by omega)
    have hlt : (m (i / 8)).toNat ||| 2 ^ (i % 8) < 2 ^ 8 :=
      Nat.or_lt_two_pow (m (i / 8)).toNat_lt (Nat.pow_lt_pow_right (by omega) hmod)
    have hiff : (i % 8 = j % 8) ↔ i = j := by omega
    rw [if_pos hbyte, hbyte, UInt8.toNat_ofNat', Nat.mod_eq_of_lt hlt, Nat.testBit_or,
      Nat.testBit_two_pow, decide_eq_decide.mpr hiff]
  · have hne : i ≠ j := by
      rintro rfl
      exact hbyte rfl
    rw [if_neg hbyte, decide_eq_false hne, Bool.or_false]

theorem testBit_clip {i : ℕ} (h : i < 8 * n) : testBit (clip n m) i = testBit m i := by
  unfold testBit
  rw [clip_inside (by omega)]

end Bytes

end Pinx.Foundation
