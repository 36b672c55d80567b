/-
MoVeBench/Lib/Checked.lean

Signed arithmetic of a fixed width that must not overflow.

A computation is a chain of operations in `Option`, which is `none` as soon as a result does not
fit, a divisor is zero, or a number that must not be negative is.  The lemmas turn the question
whether a chain has a result into the conditions of its operations, one after the other.
-/
import Mathlib

namespace Checked

/-- The number fits in a signed integer of `w` bits. -/
abbrev Fits (w : ℕ) (z : ℤ) : Prop := -2 ^ (w - 1) ≤ z ∧ z < 2 ^ (w - 1)

/-- A result of `w` bits. -/
def int (w : ℕ) (z : ℤ) : Option ℤ := if Fits w z then some z else none

/-- A quotient, rounded towards zero. -/
def div (w : ℕ) (a b : ℤ) : Option ℤ := if b = 0 then none else int w (a.tdiv b)

/-- A number that is not negative. -/
def nonneg (z : ℤ) : Option ℤ := if 0 ≤ z then some z else none

variable {α : Type*} {w : ℕ} {z a b : ℤ} {f : ℤ → Option α}

theorem int_of_fits (h : Fits w z) : int w z = some z := if_pos h

/-- A quotient is not larger than the dividend. -/
theorem Fits.tdiv (ha : Fits w a) (hb : 0 < b) : Fits w (a.tdiv b) := by
  have hle := Int.natAbs_tdiv_le_natAbs a b
  rcases Int.lt_or_le a 0 with hneg | hpos
  · have hnonneg := Int.tdiv_nonneg (a := -a) (by omega) (Int.le_of_lt hb)
    rw [Int.neg_tdiv] at hnonneg
    omega
  · have hnonneg := Int.tdiv_nonneg hpos (Int.le_of_lt hb)
    omega

end Checked
