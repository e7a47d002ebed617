import Mathlib.Algebra.Order.Ring.Int
import Mathlib.Order.Basic

/-! # Signed 32-bit counters

`Int32` wraps around where a sum leaves its range. A counter that stands for a natural number stays
one under the operations whose exact result is in the range. -/
namespace Int32Range

def Counts (x : Int32) (n : ℕ) : Prop := x.toInt = n

variable {a b c : Int32} {m n k : ℕ}

theorem Counts.lt_max (h : Counts a m) : m < 2 ^ 31 := by
  have hlt := a.toInt_lt
  rw [show a.toInt = m from h] at hlt
  omega

theorem counts_ofNat (h : n < 2 ^ 31) : Counts (Int32.ofNat n) n := Int32.toInt_ofNat_of_lt h

theorem counts_zero : Counts 0 0 := rfl

theorem counts_of_nonneg (h : 0 ≤ a) : Counts a a.toNatClampNeg := by
  have hnn : 0 ≤ a.toInt := Int32.le_iff_toInt_le.mp h
  exact (Int.toNat_of_nonneg hnn).symm

theorem Counts.toNat (h : Counts a m) : a.toNatClampNeg = m := by
  rw [← Int32.toNat_toInt, show a.toInt = m from h, Int.toNat_natCast]

theorem toInt_add_of_range (hlo : -2 ^ 31 ≤ a.toInt + b.toInt) (hhi : a.toInt + b.toInt < 2 ^ 31) :
    (a + b).toInt = a.toInt + b.toInt := by
  rw [Int32.toInt_add, Int.bmod_eq_of_le (by omega) (by omega)]

theorem toInt_sub_of_range (hlo : -2 ^ 31 ≤ a.toInt - b.toInt) (hhi : a.toInt - b.toInt < 2 ^ 31) :
    (a - b).toInt = a.toInt - b.toInt := by
  rw [Int32.toInt_sub, Int.bmod_eq_of_le (by omega) (by omega)]

theorem Counts.add (ha : Counts a m) (hb : Counts b n) (h : m + n < 2 ^ 31) :
    Counts (a + b) (m + n) := by
  unfold Counts at *
  rw [toInt_add_of_range (by omega) (by omega), ha, hb, Int.natCast_add]

theorem Counts.sub (ha : Counts a m) (hb : Counts b n) (h : n ≤ m) : Counts (a - b) (m - n) := by
  have hm := ha.lt_max
  unfold Counts at *
  rw [toInt_sub_of_range (by omega) (by omega), ha, hb, Int.natCast_sub h]

theorem Counts.sub_add (ha : Counts a m) (hb : Counts b n) (hc : Counts c k) (h : n ≤ m + k)
    (hlt : m + k < 2 ^ 31) : Counts (a - b + c) (m + k - n) := by
  have hn := hb.lt_max
  unfold Counts at *
  have hdiff : (a - b).toInt = m - n := by
    rw [toInt_sub_of_range (by omega) (by omega), ha, hb]
  rw [toInt_add_of_range (by omega) (by omega), hdiff, hc]
  omega

theorem Counts.mod (ha : Counts a m) (hb : Counts b n) : Counts (a % b) (m % n) := by
  unfold Counts at *
  rw [Int32.toInt_mod, ha, hb, Int.tmod_eq_emod_of_nonneg (Int.natCast_nonneg m), Int.natCast_emod]

theorem Counts.lt_iff (ha : Counts a m) (hb : Counts b n) : a < b ↔ m < n := by
  rw [Int32.lt_iff_toInt_lt, show a.toInt = m from ha, show b.toInt = n from hb, Int.ofNat_lt]

theorem Counts.le_iff (ha : Counts a m) (hb : Counts b n) : a ≤ b ↔ m ≤ n := by
  rw [Int32.le_iff_toInt_le, show a.toInt = m from ha, show b.toInt = n from hb, Int.ofNat_le]

theorem Counts.eq_iff (ha : Counts a m) (hb : Counts b n) : a = b ↔ m = n := by
  rw [← Int32.toInt_inj, show a.toInt = m from ha, show b.toInt = n from hb, Int.ofNat_inj]

theorem Counts.min (ha : Counts a m) (hb : Counts b n) : Counts (min a b) (min m n) := by
  have hmin : Min.min a b = if a ≤ b then a else b := rfl
  rw [hmin, Nat.min_def]
  simp only [ha.le_iff hb]
  split
  · exact ha
  · exact hb

end Int32Range
