import Mathlib.Data.BitVec
import Mathlib.Data.List.Basic

/-!
# Bitmaps stored as words

Bit `i` of a bitmap of `w`-bit words is bit `i % w` of word `i / w`.  A bit
beyond the last word reads as set, so a clear bit is always one the bitmap
really has.  A wrapped scan that starts at any word visits every word.
-/

namespace Pinx.Foundation.WordBitmap

variable {w : ℕ} {l : List (BitVec w)} {i j : ℕ}

/-- Bit `i` of the bitmap. -/
def test (l : List (BitVec w)) (i : ℕ) : Bool :=
  (l.getD (i / w) (BitVec.allOnes w)).getLsbD (i % w)

/-- The bitmap with bit `i` set. -/
def mark (l : List (BitVec w)) (i : ℕ) : List (BitVec w) :=
  l.set (i / w) (l.getD (i / w) (BitVec.allOnes w) ||| 1#w <<< (i % w))

/-- The bitmap with bit `i` cleared. -/
def clear (l : List (BitVec w)) (i : ℕ) : List (BitVec w) :=
  l.set (i / w) (l.getD (i / w) (BitVec.allOnes w) &&& ~~~(1#w <<< (i % w)))

/-- The lowest clear bit of a word. -/
def lowestClear (x : BitVec w) : Option ℕ :=
  (List.range w).find? fun b => decide (x &&& (1#w <<< b) = 0#w)

@[simp] theorem length_mark (l : List (BitVec w)) (i : ℕ) : (mark l i).length = l.length :=
  List.length_set

@[simp] theorem length_clear (l : List (BitVec w)) (i : ℕ) : (clear l i).length = l.length :=
  List.length_set

theorem getLsbD_one_shiftLeft {k : ℕ} (hk : k < w) (j : ℕ) :
    (1#w <<< k).getLsbD j = decide (j = k) := by
  rw [← BitVec.twoPow_eq, BitVec.getLsbD_twoPow]
  simp [hk, eq_comm]

/-- A word whose bit `b` is tested by masking. -/
theorem and_one_shiftLeft_eq_zero {x : BitVec w} {b : ℕ} (hb : b < w) :
    x &&& (1#w <<< b) = 0#w ↔ x.getLsbD b = false := by
  constructor
  · intro h
    have := congrArg (fun y => y.getLsbD b) h
    simpa [getLsbD_one_shiftLeft hb] using this
  · intro h
    apply BitVec.eq_of_getLsbD_eq
    intro k _
    by_cases hkb : k = b
    · subst hkb
      simp [h]
    · simp [getLsbD_one_shiftLeft hb, hkb]

/-- Two positions with the same word and the same bit are one position. -/
theorem eq_of_div_mod (hd : j / w = i / w) (hm : j % w = i % w) : j = i := by
  rw [← Nat.div_add_mod j w, ← Nat.div_add_mod i w, hd, hm]

/-- Setting a bit sets that bit and no other. -/
theorem test_mark (hw : 0 < w) (hi : i / w < l.length) :
    test (mark l i) j = (test l j || decide (j = i)) := by
  have hmod : i % w < w := Nat.mod_lt _ hw
  unfold test mark
  by_cases hd : j / w = i / w
  · rw [hd, List.getD_eq_getElem?_getD, List.getElem?_set_self hi, Option.getD_some,
      BitVec.getLsbD_or, getLsbD_one_shiftLeft hmod]
    congr 1
    exact decide_eq_decide.mpr ⟨fun h => eq_of_div_mod hd h, fun h => by rw [h]⟩
  · have hne : j ≠ i := fun h => hd (by rw [h])
    simp [List.getD_eq_getElem?_getD, List.getElem?_set_ne (Ne.symm hd), hne]

/-- Clearing a bit clears that bit and no other. -/
theorem test_clear (hw : 0 < w) (hi : i / w < l.length) :
    test (clear l i) j = (test l j && !decide (j = i)) := by
  have hmod : i % w < w := Nat.mod_lt _ hw
  have hmodj : j % w < w := Nat.mod_lt _ hw
  unfold test clear
  by_cases hd : j / w = i / w
  · rw [hd, List.getD_eq_getElem?_getD, List.getElem?_set_self hi, Option.getD_some,
      BitVec.getLsbD_and, BitVec.getLsbD_not, getLsbD_one_shiftLeft hmod]
    simp only [hmodj, decide_true, Bool.true_and]
    congr 2
    exact decide_eq_decide.mpr ⟨fun h => eq_of_div_mod hd h, fun h => by rw [h]⟩
  · have hne : j ≠ i := fun h => hd (by rw [h])
    simp [List.getD_eq_getElem?_getD, List.getElem?_set_ne (Ne.symm hd), hne]

/-- A bit beyond the last word reads as set. -/
theorem test_of_length_le (hw : 0 < w) (hi : l.length ≤ i / w) : test l i = true := by
  unfold test
  rw [List.getD_eq_getElem?_getD, List.getElem?_eq_none hi]
  simp [Nat.mod_lt _ hw]

/-- The bits of word `k`. -/
theorem test_word {k b : ℕ} {x : BitVec w} (hk : l[k]? = some x) (hb : b < w) :
    test l (k * w + b) = x.getLsbD b := by
  have hdiv : (k * w + b) / w = k := by
    rw [Nat.add_comm, Nat.add_mul_div_right _ _ (by omega), Nat.div_eq_of_lt hb, Nat.zero_add]
  have hmod : (k * w + b) % w = b := by
    rw [Nat.add_comm, Nat.add_mul_mod_self_right, Nat.mod_eq_of_lt hb]
  unfold test
  rw [hdiv, hmod, List.getD_eq_getElem?_getD, hk, Option.getD_some]

theorem lowestClear_eq_some {x : BitVec w} {b : ℕ} (h : lowestClear x = some b) :
    b < w ∧ x.getLsbD b = false := by
  have hb : b < w := List.mem_range.mp (List.mem_of_find?_eq_some h)
  have hclear : decide (x &&& (1#w <<< b) = 0#w) = true := by
    unfold lowestClear at h
    have := List.find?_some h
    exact this
  exact ⟨hb, (and_one_shiftLeft_eq_zero hb).mp (of_decide_eq_true hclear)⟩

theorem lowestClear_eq_none {x : BitVec w} (h : lowestClear x = none) {b : ℕ} (hb : b < w) :
    x.getLsbD b = true := by
  have hne := List.find?_eq_none.mp h b (List.mem_range.mpr hb)
  simpa [and_one_shiftLeft_eq_zero hb] using hne

/-- The wrapped scan from any starting point visits word `t`. -/
theorem exists_offset (hint : ℕ) {n t : ℕ} (ht : t < n) :
    ∃ k < n, (hint + k) % n = t := by
  have hn : 0 < n := by omega
  have hh := Nat.mod_lt hint hn
  by_cases hle : hint % n ≤ t
  · refine ⟨t - hint % n, by omega, ?_⟩
    rw [Nat.add_mod, Nat.mod_eq_of_lt (show t - hint % n < n by omega),
      show hint % n + (t - hint % n) = t by omega, Nat.mod_eq_of_lt ht]
  · refine ⟨n + t - hint % n, by omega, ?_⟩
    rw [Nat.add_mod, Nat.mod_eq_of_lt (show n + t - hint % n < n by omega),
      show hint % n + (n + t - hint % n) = t + n by omega, Nat.add_mod_right,
      Nat.mod_eq_of_lt ht]

end Pinx.Foundation.WordBitmap
