import Federation.Scalar
import Mathlib.Algebra.BigOperators.Group.List.Basic
import Mathlib.Algebra.Order.AbsoluteValue.Basic
import Mathlib.Algebra.Order.Ring.Rat

/-!
# Exact scalars

What the operations of a scalar are on the rational numbers, in terms that have a theory.
-/

set_option autoImplicit false

namespace Federation.Scalar

@[simp]
theorem ofNat_rat (n : Nat) : (ofNat n : Rat) = n := by
  simp [ofNat, ofRatio]

@[simp]
theorem zero_rat : (zero : Rat) = 0 := by
  rw [zero, ofNat_rat, Nat.cast_zero]

@[simp]
theorem one_rat : (one : Rat) = 1 := by
  rw [one, ofNat_rat, Nat.cast_one]

@[simp]
theorem sum_rat (xs : List Rat) : sum xs = xs.sum :=
  List.sum_eq_foldl.symm

@[simp]
theorem abs_rat (x : Rat) : abs x = |x| := by
  by_cases h : x < 0
  · rw [abs_of_neg h]
    exact if_pos h
  · rw [abs_of_nonneg (le_of_not_gt h)]
    exact if_neg h

@[simp]
theorem lt_rat (x y : Rat) : lt x y = decide (x < y) := rfl

@[simp]
theorem eq_rat (x y : Rat) : eq x y = decide (x = y) := rfl

end Federation.Scalar
