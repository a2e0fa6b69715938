import Mathlib.Data.Nat.Bitwise
import Mathlib.Data.Nat.Digits.Defs
import Mathlib.Logic.Function.Iterate

/-!
# Reflected shift registers

A register is a number.  One clock shifts it to the right and, if a one left it, takes the
exclusive or with a polynomial.  Clocks are linear in the exclusive or, so that data of `k` bits
may be taken into the register at once or bit by bit.  Where the polynomial has the top bit of a
register of `w` bits, a clock loses nothing, and up to `w` bits of data can be told apart by what
they leave.
-/

namespace Pinx.Foundation.ShiftRegister

variable {poly a b reg x y k n w : ℕ}

/-- One clock without data. -/
def clock (poly reg : ℕ) : ℕ := (reg >>> 1) ^^^ if reg.testBit 0 then poly else 0

def clocks (poly n reg : ℕ) : ℕ := (clock poly)^[n] reg

/-- One clock with a bit of data: the polynomial is taken if the bit that leaves differs from it. -/
def feed (poly reg : ℕ) (bit : Bool) : ℕ :=
  (reg >>> 1) ^^^ if reg.testBit 0 ≠ bit then poly else 0

/-- The low `n` bits of a number, the lowest first. -/
def lowBits (n x : ℕ) : List Bool := (List.range n).map x.testBit

theorem clocks_succ (poly n reg : ℕ) : clocks poly (n + 1) reg = clocks poly n (clock poly reg) := rfl

theorem clocks_add (poly m n reg : ℕ) : clocks poly (n + m) reg = clocks poly n (clocks poly m reg) :=
  Function.iterate_add_apply _ n m reg

/-! ## Linearity -/

theorem clock_xor (poly a b : ℕ) : clock poly (a ^^^ b) = clock poly a ^^^ clock poly b := by
  unfold clock
  rw [Nat.shiftRight_xor_distrib, Nat.testBit_xor]
  cases a.testBit 0 <;> cases b.testBit 0 <;>
    simp [Nat.xor_comm, Nat.xor_left_comm]

theorem clocks_xor (poly n a b : ℕ) :
    clocks poly n (a ^^^ b) = clocks poly n a ^^^ clocks poly n b := by
  induction n generalizing a b with
  | zero => rfl
  | succ n ih => rw [clocks_succ, clock_xor, ih, ← clocks_succ, ← clocks_succ]

theorem clocks_shiftLeft (poly n x : ℕ) : clocks poly n (x <<< n) = x := by
  induction n with
  | zero => rfl
  | succ n ih =>
    have hlow : (x <<< (n + 1)).testBit 0 = false := by
      rw [Nat.testBit_shiftLeft]
      rfl
    have hrest : (x <<< (n + 1)) >>> 1 = x <<< n := by
      rw [Nat.shiftLeft_succ, Nat.shiftRight_one, Nat.mul_div_cancel_left _ Nat.two_pos]
    have hclock : clock poly (x <<< (n + 1)) = x <<< n := by
      rw [clock, hlow, hrest, if_neg Bool.false_ne_true, Nat.xor_zero]
    rw [clocks_succ, hclock, ih]

/-- A number is its low bits and the rest. -/
theorem split_at (n x : ℕ) : x = ((x >>> n) <<< n) ^^^ (x % 2 ^ n) := by
  refine Nat.eq_of_testBit_eq fun i => ?_
  rw [Nat.testBit_xor, Nat.testBit_shiftLeft, Nat.testBit_shiftRight, Nat.testBit_mod_two_pow]
  by_cases hi : n ≤ i
  · simp [hi, Nat.not_lt.mpr hi]
  · simp [hi, Nat.not_le.mp hi]

/-- Of `n` clocks, those of the low `n` bits are all that counts. -/
theorem clocks_eq (poly n x : ℕ) : clocks poly n x = (x >>> n) ^^^ clocks poly n (x % 2 ^ n) := by
  conv_lhs => rw [split_at n x]
  rw [clocks_xor, clocks_shiftLeft]

/-! ## Data -/

/-- A bit of data may be added to the register before the clock. -/
theorem feed_eq_clock (poly reg : ℕ) (bit : Bool) :
    feed poly reg bit = clock poly (reg ^^^ bit.toNat) := by
  have hrest : bit.toNat >>> 1 = 0 := by cases bit <;> rfl
  have hlow : bit.toNat.testBit 0 = bit := by cases bit <;> rfl
  unfold feed clock
  rw [Nat.shiftRight_xor_distrib, hrest, Nat.xor_zero, Nat.testBit_xor, hlow]
  cases reg.testBit 0 <;> cases bit <;> rfl

theorem lowBits_succ (n x : ℕ) : lowBits (n + 1) x = x.testBit 0 :: lowBits n (x >>> 1) := by
  unfold lowBits
  rw [List.range_succ_eq_map, List.map_cons, List.map_map]
  refine congrArg _ (List.map_congr_left fun i _ => ?_)
  rw [Nat.testBit_shiftRight, Nat.add_comm]
  rfl

/-- Data of `n` bits may be added to the register before the clocks. -/
theorem foldl_feed (h : x < 2 ^ n) : (lowBits n x).foldl (feed poly) reg = clocks poly n (reg ^^^ x) := by
  induction n generalizing x reg with
  | zero =>
    rw [Nat.lt_one_iff.mp h, Nat.xor_zero]
    rfl
  | succ n ih =>
    have hlow : x % 2 ^ 1 = (x.testBit 0).toNat := by
      rw [Nat.testBit_zero]
      rcases Nat.mod_two_eq_zero_or_one x with hx | hx <;> simp [hx]
    have hclock : clock poly x = clock poly (x.testBit 0).toNat ^^^ (x >>> 1) := by
      have := clocks_eq poly 1 x
      rwa [hlow, Nat.xor_comm] at this
    rw [lowBits_succ, List.foldl_cons, ih (by rw [Nat.shiftRight_one]; omega), clocks_succ, feed_eq_clock,
      clock_xor, clock_xor, hclock, Nat.xor_assoc]

/-- Symbols of `k` bits, each added to the register before its clocks. -/
def feedSymbols (poly k reg : ℕ) (xs : List ℕ) : ℕ := xs.foldl (fun reg x => clocks poly k (reg ^^^ x)) reg

/-- Symbols are one long word. -/
theorem feedSymbols_eq {xs : List ℕ} (hxs : ∀ x ∈ xs, x < 2 ^ k) :
    feedSymbols poly k reg xs = clocks poly (k * xs.length) (reg ^^^ Nat.ofDigits (2 ^ k) xs) := by
  induction xs generalizing reg with
  | nil => exact (Nat.xor_zero reg).symm
  | cons x xs ih =>
    have hword : x + 2 ^ k * Nat.ofDigits (2 ^ k) xs = x ^^^ (Nat.ofDigits (2 ^ k) xs <<< k) := by
      have hx := hxs x List.mem_cons_self
      rw [split_at k (x + _), Nat.shiftRight_eq_div_pow, Nat.add_mul_div_left _ _ (Nat.two_pow_pos k),
        Nat.div_eq_of_lt hx, Nat.zero_add, Nat.add_mul_mod_self_left, Nat.mod_eq_of_lt hx, Nat.xor_comm]
    rw [List.length_cons, Nat.mul_succ, clocks_add, Nat.ofDigits_cons, hword, ← Nat.xor_assoc,
      clocks_xor, clocks_shiftLeft]
    exact ih fun y hy => hxs y (List.mem_cons_of_mem _ hy)

/-! ## What a register of `w + 1` bits tells apart -/

section Width

variable (hpoly : poly < 2 ^ (w + 1)) (htop : poly.testBit w = true)
include hpoly

theorem clock_lt (hreg : reg < 2 ^ (w + 1)) : clock poly reg < 2 ^ (w + 1) := by
  refine Nat.xor_lt_two_pow (lt_of_le_of_lt (Nat.shiftRight_le reg 1) hreg) ?_
  split
  · exact hpoly
  · exact Nat.two_pow_pos _

theorem clocks_lt (n : ℕ) (hreg : reg < 2 ^ (w + 1)) : clocks poly n reg < 2 ^ (w + 1) := by
  induction n generalizing reg with
  | zero => exact hreg
  | succ n ih => exact ih (clock_lt hpoly hreg)

include htop

omit hpoly in
/-- Only the empty register is emptied: the top bit of the polynomial shows that a one has left. -/
theorem eq_zero_of_clock (hreg : reg < 2 ^ (w + 1)) (h : clock poly reg = 0) : reg = 0 := by
  have htop' : (reg >>> 1).testBit w = false := by
    rw [Nat.testBit_shiftRight, Nat.add_comm]
    exact Nat.testBit_lt_two_pow hreg
  rw [clock, Nat.xor_eq_zero_iff] at h
  by_cases hlow : reg.testBit 0 = true
  · rw [if_pos hlow] at h
    rw [h, htop] at htop'
    cases htop'
  · rw [if_neg hlow, Nat.shiftRight_one] at h
    rw [Nat.testBit_zero, decide_eq_true_eq] at hlow
    omega

theorem eq_zero_of_clocks (n : ℕ) (hreg : reg < 2 ^ (w + 1)) (h : clocks poly n reg = 0) : reg = 0 := by
  induction n generalizing reg with
  | zero => exact h
  | succ n ih => exact eq_zero_of_clock htop hreg (ih (clock_lt hpoly hreg) h)

theorem clocks_inj (n : ℕ) (ha : a < 2 ^ (w + 1)) (hb : b < 2 ^ (w + 1))
    (h : clocks poly n a = clocks poly n b) : a = b := by
  rw [← Nat.xor_eq_zero_iff, ← clocks_xor] at h
  exact Nat.xor_eq_zero_iff.mp (eq_zero_of_clocks hpoly htop n (Nat.xor_lt_two_pow ha hb) h)

/-! ## Bursts -/

variable {xs ys : List ℕ} (hk : k ≤ w + 1) (hxs : ∀ x ∈ xs, x < 2 ^ k)

omit htop in
include hk hxs in
theorem feedSymbols_lt (hreg : reg < 2 ^ (w + 1)) : feedSymbols poly k reg xs < 2 ^ (w + 1) := by
  induction xs generalizing reg with
  | nil => exact hreg
  | cons x xs ih =>
    have hx := (hxs x List.mem_cons_self).trans_le (Nat.pow_le_pow_right Nat.two_pos hk)
    exact ih (fun y hy => hxs y (List.mem_cons_of_mem _ hy)) (clocks_lt hpoly k (Nat.xor_lt_two_pow hreg hx))

include hk hxs in
/-- The same data keeps two registers apart. -/
theorem feedSymbols_register_inj (ha : a < 2 ^ (w + 1)) (hb : b < 2 ^ (w + 1))
    (h : feedSymbols poly k a xs = feedSymbols poly k b xs) : a = b := by
  induction xs generalizing a b with
  | nil => exact h
  | cons x xs ih =>
    have hx := (hxs x List.mem_cons_self).trans_le (Nat.pow_le_pow_right Nat.two_pos hk)
    have ha' := Nat.xor_lt_two_pow ha hx
    have hb' := Nat.xor_lt_two_pow hb hx
    have hclocks : clocks poly k (a ^^^ x) = clocks poly k (b ^^^ x) :=
      ih (fun y hy => hxs y (List.mem_cons_of_mem _ hy)) (clocks_lt hpoly k ha') (clocks_lt hpoly k hb') h
    exact Nat.xor_left_inj.mp (clocks_inj hpoly htop k ha' hb' hclocks)

include hxs in
/-- Data that fits into the register is told apart. -/
theorem feedSymbols_data_inj (hpos : 0 < k) (hys : ∀ y ∈ ys, y < 2 ^ k) (hlen : xs.length = ys.length)
    (hfit : k * xs.length ≤ w + 1) (hreg : reg < 2 ^ (w + 1))
    (h : feedSymbols poly k reg xs = feedSymbols poly k reg ys) : xs = ys := by
  have hbase : 1 < 2 ^ k := Nat.one_lt_two_pow hpos.ne'
  have hword : ∀ zs : List ℕ, (∀ z ∈ zs, z < 2 ^ k) → zs.length = xs.length →
      Nat.ofDigits (2 ^ k) zs < 2 ^ (w + 1) := by
    intro zs hzs hlen
    refine (Nat.ofDigits_lt_base_pow_length hbase hzs).trans_le ?_
    rw [hlen, ← pow_mul]
    exact Nat.pow_le_pow_right Nat.two_pos hfit
  rw [feedSymbols_eq hxs, feedSymbols_eq hys, ← hlen] at h
  have hsame := clocks_inj hpoly htop _ (Nat.xor_lt_two_pow hreg (hword xs hxs rfl))
    (Nat.xor_lt_two_pow hreg (hword ys hys hlen.symm)) h
  exact Nat.ofDigits_inj_of_len_eq hbase hlen hxs hys (Nat.xor_right_inj.mp hsame)

include hk hxs in
/-- Data that differs within a stretch of `m` symbols that fits into the register is told apart,
whatever comes before and behind it. -/
theorem burst_detected {p m : ℕ} (hpos : 0 < k) (hys : ∀ y ∈ ys, y < 2 ^ k)
    (hlen : xs.length = ys.length) (hfit : k * m ≤ w + 1)
    (hburst : ∀ i, xs[i]? ≠ ys[i]? → p ≤ i ∧ i < p + m) (hreg : reg < 2 ^ (w + 1))
    (h : feedSymbols poly k reg xs = feedSymbols poly k reg ys) : xs = ys := by
  have hsame : ∀ i, ¬(p ≤ i ∧ i < p + m) → xs[i]? = ys[i]? := fun i hi => by
    by_contra hne
    exact hi (hburst i hne)
  have hhead : xs.take p = ys.take p := by
    refine List.ext_getElem? fun i => ?_
    rw [List.getElem?_take, List.getElem?_take]
    split
    · exact hsame i (by omega)
    · rfl
  have htail : (xs.drop p).drop m = (ys.drop p).drop m := by
    refine List.ext_getElem? fun i => ?_
    rw [List.drop_drop, List.drop_drop, List.getElem?_drop, List.getElem?_drop]
    exact hsame _ (by omega)
  have hcut : ∀ zs : List ℕ, feedSymbols poly k reg zs = feedSymbols poly k (feedSymbols poly k
      (feedSymbols poly k reg (zs.take p)) ((zs.drop p).take m)) ((zs.drop p).drop m) := by
    intro zs
    unfold feedSymbols
    rw [← List.foldl_append, ← List.foldl_append, List.take_append_drop, List.take_append_drop]
  rw [hcut xs, hcut ys, ← hhead, ← htail] at h
  -- the registers behind the burst are equal, so the bursts are
  have hmem : ∀ zs : List ℕ, (∀ z ∈ zs, z < 2 ^ k) → ∀ z ∈ (zs.drop p).take m, z < 2 ^ k :=
    fun zs hzs z hz => hzs z (List.mem_of_mem_drop (List.mem_of_mem_take hz))
  have hstart : feedSymbols poly k reg (xs.take p) < 2 ^ (w + 1) :=
    feedSymbols_lt hpoly hk (fun x hx => hxs x (List.mem_of_mem_take hx)) hreg
  have hmid := feedSymbols_register_inj hpoly htop hk
    (fun x hx => hxs x (List.mem_of_mem_drop (List.mem_of_mem_drop hx)))
    (feedSymbols_lt hpoly hk (hmem xs hxs) hstart) (feedSymbols_lt hpoly hk (hmem ys hys) hstart) h
  have hlen' : ((xs.drop p).take m).length = ((ys.drop p).take m).length := by
    rw [List.length_take, List.length_take, List.length_drop, List.length_drop, hlen]
  have hburst' := feedSymbols_data_inj hpoly htop (hmem xs hxs) hpos (hmem ys hys) hlen'
    ((Nat.mul_le_mul_left k (List.length_take_le m _)).trans hfit) hstart hmid
  rw [← List.take_append_drop p xs, ← List.take_append_drop m (xs.drop p), hhead, hburst', htail,
    List.take_append_drop, List.take_append_drop]

end Width

end Pinx.Foundation.ShiftRegister
