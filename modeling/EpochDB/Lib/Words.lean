import Mathlib

/-!
Minima and maxima of 64 bit words as numbers.
-/

namespace Words

theorem toNat_min (a b : UInt64) : (min a b).toNat = min a.toNat b.toNat := by
  change (if a ≤ b then a else b).toNat = _
  split
  . next h => exact (Nat.min_eq_left (UInt64.le_iff_toNat_le.mp h)).symm
  . next h =>
    rw [UInt64.not_le, UInt64.lt_iff_toNat_lt] at h
    omega

theorem toNat_max (a b : UInt64) : (max a b).toNat = max a.toNat b.toNat := by
  change (if a ≤ b then b else a).toNat = _
  split
  . next h => exact (Nat.max_eq_right (UInt64.le_iff_toNat_le.mp h)).symm
  . next h =>
    rw [UInt64.not_le, UInt64.lt_iff_toNat_lt] at h
    omega

end Words
