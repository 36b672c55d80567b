/-
MoVeBench/Num.lean

Decimal numbers of `math.c`: a sign, a 64-bit significand and a power of ten.

`sqlite4_num_compare` brings two numbers to a common exponent with
`adjustExponent`, which may throw digits away, and then compares significands.
The result is exact all the same: digits are dropped only when the other
significand has already outgrown 64 bits divided by ten.  The value of a number
is the rational `Num.toRat`, and

    sqlite4_num_compare A B = numOrder (compare A.toRat B.toRat)

for all finite `A`, `B` (`sqlite4_num_compare_finite`).
-/
import MoVeBench.Lib.LexCode

namespace MoVeBench

open LexCode

/-! ### The number record -/

/-- `struct sqlite4_num`.  The exponent is a `short`, the significand a
`sqlite4_uint64`; `Num.Finite` states both ranges. -/
structure Num where
  sign : Bool
  approx : Bool
  e : ℤ
  m : ℕ
deriving DecidableEq, Repr

/-- `SQLITE4_MX_EXP`. -/
abbrev mxExp : ℤ := 999

/-- `TENTH_MAX`. -/
abbrev tenthMax : ℕ := (2 ^ 64 - 1) / 10

/-- `sqlite4_num_isinf`. -/
def sqlite4_num_isinf (A : Num) : Bool := A.e > mxExp && A.m != 0

/-- `sqlite4_num_isnan`. -/
def sqlite4_num_isnan (A : Num) : Bool := A.e > mxExp && A.m == 0

/-- A finite decimal as the record can hold one. -/
structure Num.Finite (A : Num) : Prop where
  m_lt : A.m < 2 ^ 64
  e_ge : -32768 ≤ A.e
  e_le : A.e ≤ mxExp

instance (A : Num) : Decidable A.Finite :=
  decidable_of_iff (A.m < 2 ^ 64 ∧ -32768 ≤ A.e ∧ A.e ≤ mxExp)
    ⟨fun h => ⟨h.1, h.2.1, h.2.2⟩, fun h => ⟨h.1, h.2, h.3⟩⟩

/-- `sqlite4_num_from_int64`. -/
def sqlite4_num_from_int64 (n : ℤ) : Num where
  sign := n < 0
  approx := false
  e := 0
  m := n.natAbs

theorem sqlite4_num_from_int64_finite {n : ℤ} (h₁ : -2 ^ 63 ≤ n) (h₂ : n < 2 ^ 63) :
    (sqlite4_num_from_int64 n).Finite := by
  refine ⟨?_, by simp [sqlite4_num_from_int64], by simp [sqlite4_num_from_int64]⟩
  simp only [sqlite4_num_from_int64]
  omega

/-! ### Comparison -/

/-- First loop of `adjustExponent`: exact division of the significand with the
smaller exponent, while `gap` (the difference of the exponents) allows. -/
def dropZeros : ℕ → Num → ℕ × Num
  | 0, B => (0, B)
  | gap + 1, B =>
      if B.m % 10 = 0 then dropZeros gap { B with m := B.m / 10, e := B.e + 1 }
      else (gap + 1, B)

/-- Second loop: multiplication of the significand with the larger exponent. -/
def growDigits : ℕ → Num → ℕ × Num
  | 0, A => (0, A)
  | gap + 1, A =>
      if A.m ≤ tenthMax then growDigits gap { A with m := A.m * 10, e := A.e - 1 }
      else (gap + 1, A)

/-- Third loop: digits of the significand with the smaller exponent are lost. -/
def loseDigits : ℕ → Num → Num
  | 0, B => B
  | gap + 1, B => loseDigits gap { B with m := B.m / 10, e := B.e + 1, approx := true }

/-- `adjustExponent` for `B.e ≤ A.e`. -/
def adjustOrdered (A B : Num) : Num × Num :=
  if B.m = 0 then (A, { B with e := A.e })
  else if A.m = 0 then ({ A with e := B.e }, B)
  else if A.e > B.e + 40 then (A, { B with approx := true, e := A.e, m := 0 })
  else
    let (gap, B) := dropZeros (A.e - B.e).toNat B
    let (gap, A) := growDigits gap A
    (A, loseDigits gap B)

/-- `adjustExponent`: the source swaps its two pointers, not the numbers. -/
def adjustExponent (A B : Num) : Num × Num :=
  if A.e < B.e then (adjustOrdered B A).swap else adjustOrdered A B

/-- `sqlite4_num_compare`: `1`, `2`, `3` for less, equal, greater, and `0` for
values that are not comparable. -/
def sqlite4_num_compare (A B : Num) : ℕ :=
  if A.e > mxExp then
    -- not a number compares as unknown
    if A.m = 0 then 0
    else if B.e > mxExp ∧ (B.m = 0 ∨ B.sign = A.sign) then 0
    else if A.sign then 1 else 3
  else if B.e > mxExp then
    if B.m = 0 then 0
    else if B.sign then 3 else 1
  else if A.sign ≠ B.sign then
    -- zeros are equal whatever their signs
    if A.m = 0 ∧ B.m = 0 then 2
    else if A.sign then 1 else 3
  else
    let (A', B') := adjustExponent A B
    -- of two negative numbers the greater magnitude is the smaller number
    let (A', B') := if A'.sign then (B', A') else (A', B')
    if A'.e ≠ B'.e then (if A'.e < B'.e then 1 else 3)
    else if A'.m ≠ B'.m then (if A'.m < B'.m then 1 else 3)
    else 2

/-- The answer codes of `sqlite4_num_compare`. -/
def numOrder : Ordering → ℕ
  | .lt => 1
  | .eq => 2
  | .gt => 3

/-! ### Values -/

/-- The absolute value. -/
def Num.mag (A : Num) : ℚ := A.m * (10 : ℚ) ^ A.e

/-- The number a record stands for. -/
def Num.toRat (A : Num) : ℚ := if A.sign then -A.mag else A.mag

/-- Numbers of one exponent compare as their significands. -/
theorem compare_mul_zpow (m n : ℕ) (e : ℤ) :
    compare ((m : ℚ) * 10 ^ e) (n * 10 ^ e) = compare m n := by
  have hmono : StrictMono fun k : ℕ => (k : ℚ) * 10 ^ e := fun k l h =>
    mul_lt_mul_of_pos_right (by exact_mod_cast h) (by positivity)
  exact compare_map hmono m n

/-- With `A` the number of larger exponent, magnitudes compare as the
significands do once `A`'s is scaled by the gap. -/
theorem compare_mag {A B : Num} {gap : ℕ} (h : A.e = B.e + gap) :
    compare A.mag B.mag = compare (A.m * 10 ^ gap) B.m := by
  rw [← compare_mul_zpow (A.m * 10 ^ gap) B.m B.e, Num.mag, Num.mag, h,
    zpow_add₀ (by norm_num), zpow_natCast]
  congr 1
  push_cast
  ring

/-! ### The common exponent -/

theorem dropZeros_spec (gap : ℕ) (B : Num) :
    ∃ k, gap = (dropZeros gap B).1 + k ∧ (dropZeros gap B).2.e = B.e + k ∧
      B.m = (dropZeros gap B).2.m * 10 ^ k ∧ (dropZeros gap B).2.sign = B.sign := by
  induction gap generalizing B with
  | zero => exact ⟨0, by simp [dropZeros]⟩
  | succ gap ih =>
      unfold dropZeros
      split_ifs with hm
      · obtain ⟨k, hgap, he, hmant, hsign⟩ := ih { B with m := B.m / 10, e := B.e + 1 }
        refine ⟨k + 1, by omega, ?_, ?_, hsign⟩
        · rw [he]; push_cast; ring
        · rw [pow_succ, ← mul_assoc, ← hmant]
          exact (Nat.div_mul_cancel (Nat.dvd_of_mod_eq_zero hm)).symm
      · exact ⟨0, by simp⟩

theorem growDigits_spec (gap : ℕ) (A : Num) :
    ∃ k, gap = (growDigits gap A).1 + k ∧ (growDigits gap A).2.e = A.e - k ∧
      (growDigits gap A).2.m = A.m * 10 ^ k ∧ (growDigits gap A).2.sign = A.sign ∧
      ((growDigits gap A).1 ≠ 0 → tenthMax < (growDigits gap A).2.m) := by
  induction gap generalizing A with
  | zero => exact ⟨0, by simp [growDigits]⟩
  | succ gap ih =>
      unfold growDigits
      split_ifs with hm
      · obtain ⟨k, hgap, he, hmant, hsign, hbig⟩ :=
          ih { A with m := A.m * 10, e := A.e - 1 }
        refine ⟨k + 1, by omega, ?_, ?_, hsign, hbig⟩
        · rw [he]; push_cast; ring
        · rw [hmant]; ring
      · exact ⟨0, by simpa using hm⟩

theorem loseDigits_spec (gap : ℕ) (B : Num) :
    (loseDigits gap B).e = B.e + gap ∧ (loseDigits gap B).m = B.m / 10 ^ gap ∧
      (loseDigits gap B).sign = B.sign := by
  induction gap generalizing B with
  | zero => simp [loseDigits]
  | succ gap ih =>
      obtain ⟨he, hm, hsign⟩ :=
        ih { B with m := B.m / 10, e := B.e + 1, approx := true }
      refine ⟨?_, ?_, hsign⟩
      · rw [loseDigits, he]; push_cast; ring
      · rw [loseDigits, hm, Nat.div_div_eq_div_mul, pow_succ']

theorem compare_mul_pow (m n k : ℕ) :
    compare (m * 10 ^ k) (n * 10 ^ k) = compare m n := by
  have hmono : StrictMono fun i : ℕ => i * 10 ^ k := fun i j h =>
    Nat.mul_lt_mul_of_pos_right h (by positivity)
  exact compare_map hmono m n

/-- The three loops together: one exponent, and significands that compare as
the scaled ones.  Digits are lost only once `A`'s significand exceeds
`tenthMax`, and then a 64-bit significand less a digit cannot reach it. -/
theorem adjust_loops {A B : Num} {gap : ℕ} (hA : A.e = B.e + gap) (hB : B.m < 2 ^ 64) :
    let d := dropZeros gap B
    let g := growDigits d.1 A
    let b := loseDigits g.1 d.2
    g.2.e = b.e ∧ compare g.2.m b.m = compare (A.m * 10 ^ gap) B.m ∧
      g.2.sign = A.sign ∧ b.sign = B.sign := by
  intro d g b
  obtain ⟨k₁, hgap, hde, hdm, hds⟩ := dropZeros_spec gap B
  obtain ⟨k₂, hgap', hge, hgm, hgs, hbig⟩ := growDigits_spec d.1 A
  obtain ⟨hbe, hbm, hbs⟩ := loseDigits_spec g.1 d.2
  refine ⟨?_, ?_, hgs, hbs.trans hds⟩
  · rw [hge, hbe, hde, hA]
    have : (gap : ℤ) = g.1 + k₂ + k₁ := by
      rw [hgap, hgap']; push_cast; rfl
    rw [this]; ring
  have hscaled : A.m * 10 ^ gap = g.2.m * 10 ^ g.1 * 10 ^ k₁ := by
    rw [hgm, hgap, hgap', pow_add, pow_add]; ring
  rw [hscaled, hdm, compare_mul_pow, hbm]
  rcases Nat.eq_zero_or_pos g.1 with hz | hpos
  · rw [hz, pow_zero, mul_one, Nat.div_one]
  · have hlarge : tenthMax < g.2.m := hbig hpos.ne'
    have hd : d.2.m < 2 ^ 64 := by
      refine lt_of_le_of_lt ?_ hB
      rw [hdm]
      exact Nat.le_mul_of_pos_right _ (by positivity)
    have hten : 10 ≤ 10 ^ g.1 := by
      calc 10 = 10 ^ 1 := rfl
        _ ≤ 10 ^ g.1 := Nat.pow_le_pow_right (by omega) hpos
    have hdiv : d.2.m / 10 ^ g.1 ≤ d.2.m / 10 := Nat.div_le_div_left hten (by omega)
    have hmul : g.2.m * 10 ≤ g.2.m * 10 ^ g.1 := Nat.mul_le_mul_left _ hten
    have htm : tenthMax = 1844674407370955161 := by decide
    rw [Nat.compare_eq_gt.mpr (show d.2.m / 10 ^ g.1 < g.2.m by omega),
      Nat.compare_eq_gt.mpr (show d.2.m < g.2.m * 10 ^ g.1 by omega)]

/-- `adjustExponent` on ordered arguments: the exponents agree afterwards, and
the significands then compare as the magnitudes did. -/
theorem adjustOrdered_spec {A B : Num} (h : B.e ≤ A.e) (hB : B.m < 2 ^ 64) :
    (adjustOrdered A B).1.e = (adjustOrdered A B).2.e ∧
      compare (adjustOrdered A B).1.m (adjustOrdered A B).2.m = compare A.mag B.mag ∧
      (adjustOrdered A B).1.sign = A.sign ∧ (adjustOrdered A B).2.sign = B.sign := by
  obtain ⟨gap, hgap⟩ : ∃ gap : ℕ, A.e = B.e + gap := ⟨(A.e - B.e).toNat, by omega⟩
  rw [compare_mag hgap]
  unfold adjustOrdered
  split_ifs with hbz haz hfar
  · refine ⟨rfl, ?_, rfl, rfl⟩
    simp only [hbz]
    have key := compare_mul_pow A.m 0 gap
    rw [zero_mul] at key
    exact key.symm
  · refine ⟨rfl, ?_, rfl, rfl⟩
    simp only [haz, zero_mul]
  · refine ⟨rfl, ?_, rfl, rfl⟩
    have hpow : 10 ^ 41 ≤ 10 ^ gap := Nat.pow_le_pow_right (by omega) (by omega)
    have hmul : 10 ^ gap ≤ A.m * 10 ^ gap :=
      Nat.le_mul_of_pos_left _ (Nat.pos_of_ne_zero haz)
    rw [Nat.compare_eq_gt.mpr (show B.m < A.m * 10 ^ gap by omega)]
    exact Nat.compare_eq_gt.mpr (Nat.pos_of_ne_zero haz)
  · rw [show (A.e - B.e).toNat = gap by omega]
    exact adjust_loops hgap hB

theorem adjustExponent_spec {A B : Num} (hA : A.m < 2 ^ 64) (hB : B.m < 2 ^ 64) :
    (adjustExponent A B).1.e = (adjustExponent A B).2.e ∧
      compare (adjustExponent A B).1.m (adjustExponent A B).2.m = compare A.mag B.mag ∧
      (adjustExponent A B).1.sign = A.sign ∧ (adjustExponent A B).2.sign = B.sign := by
  unfold adjustExponent
  split_ifs with h
  · obtain ⟨he, hm, hs, hs'⟩ := adjustOrdered_spec h.le hA
    refine ⟨he.symm, ?_, hs', hs⟩
    rw [Prod.fst_swap, Prod.snd_swap, ← Nat.compare_swap, hm]
    exact Std.OrientedOrd.eq_swap.symm
  · exact adjustOrdered_spec (not_lt.mp h) hB

/-! ### The comparison is exact -/

theorem numOrder_compare (m n : ℕ) :
    (if m ≠ n then (if m < n then 1 else 3) else 2) = numOrder (compare m n) := by
  rcases lt_trichotomy m n with h | rfl | h
  · rw [Nat.compare_eq_lt.mpr h, if_pos h.ne, if_pos h]; rfl
  · rw [Nat.compare_eq_eq.mpr rfl, if_neg (by simp)]; rfl
  · rw [Nat.compare_eq_gt.mpr h, if_pos h.ne', if_neg h.not_gt]; rfl

theorem Num.mag_nonneg (A : Num) : 0 ≤ A.mag := by
  unfold Num.mag; positivity

theorem Num.mag_eq_zero {A : Num} : A.mag = 0 ↔ A.m = 0 := by
  unfold Num.mag
  have : (10 : ℚ) ^ A.e ≠ 0 := by positivity
  simp [this]

theorem Num.mag_pos {A : Num} (h : A.m ≠ 0) : 0 < A.mag :=
  lt_of_le_of_ne A.mag_nonneg fun h0 => h (Num.mag_eq_zero.mp h0.symm)

/-- **`sqlite4_num_compare` is the order of the numbers**, for all finite
arguments: no rounding of `adjustExponent` is ever visible in the answer. -/
theorem sqlite4_num_compare_finite {A B : Num} (hA : A.Finite) (hB : B.Finite) :
    sqlite4_num_compare A B = numOrder (compare A.toRat B.toRat) := by
  have hmA := A.mag_nonneg
  have hmB := B.mag_nonneg
  unfold sqlite4_num_compare
  rw [if_neg (not_lt.mpr hA.e_le), if_neg (not_lt.mpr hB.e_le)]
  by_cases hsign : A.sign = B.sign
  · -- equal signs: the magnitudes decide, once the exponents are equal
    obtain ⟨he, hm, hs, hs'⟩ := adjustExponent_spec hA.m_lt hB.m_lt
    rw [if_neg (not_not.mpr hsign)]
    rcases hadj : adjustExponent A B with ⟨A', B'⟩
    rw [hadj] at he hm hs hs'
    simp only at he hm hs hs' ⊢
    rw [hs]
    cases hneg : A.sign
    · have hcmp : compare A.toRat B.toRat = compare A.mag B.mag := by
        simp [Num.toRat, hneg, ← hsign]
      simp only [he, ne_eq, not_true_eq_false, if_false, Bool.false_eq_true]
      rw [hcmp, ← hm]
      exact numOrder_compare A'.m B'.m
    · have hcmp : compare A.toRat B.toRat = compare B.mag A.mag := by
        simp only [Num.toRat, hneg, ← hsign, if_true]
        exact compare_map_anti (fun _ _ h => neg_lt_neg h) A.mag B.mag
      simp only [he, ne_eq, not_true_eq_false, if_false, if_true]
      rw [hcmp, Std.OrientedOrd.eq_swap, ← hm, Nat.compare_swap]
      exact numOrder_compare B'.m A'.m
  · rw [if_pos hsign]
    split_ifs with hz hneg
    · -- both zero, of different signs
      have hzA := Num.mag_eq_zero.mpr hz.1
      have hzB := Num.mag_eq_zero.mpr hz.2
      have heq : A.toRat = B.toRat := by simp [Num.toRat, hzA, hzB]
      rw [heq, compare_eq_iff_eq.mpr rfl]
      rfl
    · -- negative against positive
      have hpos : B.sign = false := by simpa [hneg] using hsign
      have hlt : A.toRat < B.toRat := by
        simp only [Num.toRat, hneg, hpos, if_true, Bool.false_eq_true, if_false]
        rcases not_and_or.mp hz with h | h
        · linarith [Num.mag_pos h]
        · linarith [Num.mag_pos h]
      rw [compare_lt_iff_lt.mpr hlt]
      rfl
    · -- positive against negative
      have hpos : B.sign = true := by simpa [hneg] using hsign
      have hlt : B.toRat < A.toRat := by
        simp only [Num.toRat, hneg, hpos, if_true, Bool.false_eq_true, if_false]
        rcases not_and_or.mp hz with h | h
        · linarith [Num.mag_pos h]
        · linarith [Num.mag_pos h]
      rw [compare_gt_iff_gt.mpr hlt]
      rfl

end MoVeBench
