/-
MoVeBench/NumArith.lean

Arithmetic of `math.c`.

Significands have 64 bits, so sums, products and quotients may lose digits at the low end.  What
is promised is that nothing is lost silently: a result whose `approx` flag is not set is the exact
one.  A result that is not exact is cut off, and how far it may be from the exact one is said for
each operation (`sqlite4_num_add_sub_near`, `sqlite4_num_mul_near`, `sqlite4_num_div_near`).

Exponents are of type `short` and wrap around without a check; the results are about operands
whose exponents are far enough from the ends of the type.
-/
import MoVeBench.KeyCodec

namespace MoVeBench

/-- `SQLITE4_NAN_EXP`. -/
abbrev nanExp : ℤ := 2000

/-! ### The operations -/

/-- `sqlite4_num_add`, for numbers of one sign. -/
def addAlike (A B : Num) : Num :=
  if A.e > mxExp then (if B.e > mxExp ∧ B.m = 0 then B else A)
  else if B.e > mxExp then B
  else
    let (A, B) := adjustExponent A B
    let r := (A.m + B.m) % 2 ^ 64
    let A := { A with approx := A.approx || B.approx }
    if r ≥ A.m then { A with m := r }
    else
      let A := { A with approx := A.approx || A.m % 10 != 0, m := A.m / 10, e := A.e + 1 }
      if A.e > mxExp then A
      else { A with approx := A.approx || B.m % 10 != 0, m := (A.m + B.m / 10) % 2 ^ 64 }

/-- `sqlite4_num_sub`, for numbers of one sign. -/
def subAlike (A B : Num) : Num :=
  if A.e > mxExp ∨ B.e > mxExp then { A with e := nanExp, m := 0 }
  else
    let (A, B) := adjustExponent A B
    let (A, B) := if B.m > A.m then ({ B with sign := !B.sign }, A) else (A, B)
    { A with m := A.m - B.m, approx := A.approx || B.approx }

def sqlite4_num_add (A B : Num) : Num :=
  if A.sign ≠ B.sign then
    if A.sign then subAlike B { A with sign := false } else subAlike A { B with sign := false }
  else addAlike A B

def sqlite4_num_sub (A B : Num) : Num :=
  if A.sign ≠ B.sign then addAlike A { B with sign := A.sign } else subAlike A B

/-- `multWillOverflow`, in the arithmetic of 64 bits. -/
def multWillOverflow (x y : ℕ) : Bool :=
  let xHi := x / 2 ^ 32
  let yHi := y / 2 ^ 32
  if xHi * yHi % 2 ^ 64 ≠ 0 then true
  else
    let xLo := x % 2 ^ 32
    let yLo := y % 2 ^ 32
    (xHi * yLo + yHi * xLo + xLo * yLo / 2 ^ 32) % 2 ^ 64 > 2 ^ 32 - 1

/-- The loops that take a five from one significand and a two from the other.  A significand of 64
bits has fewer than 28 fives. -/
def cancelFives : ℕ → Num → Num → Num × Num
  | 0, A, B => (A, B)
  | n + 1, A, B =>
      if A.m % 5 = 0 ∧ B.m % 2 = 0 then
        cancelFives n { A with m := A.m / 5, e := A.e + 1 } { B with m := B.m / 2 }
      else (A, B)

/-- The last loop of `sqlite4_num_mul`, and whether it had a round.  Twenty rounds are enough. -/
def dropDigits : ℕ → Num → Num → Num × Num × Bool
  | 0, A, B => (A, B, false)
  | n + 1, A, B =>
      if multWillOverflow A.m B.m then
        let (A, B, _) :=
          if A.m > B.m then dropDigits n { A with m := A.m / 10, e := A.e + 1 } B
          else dropDigits n A { B with m := B.m / 10, e := B.e + 1 }
        (A, B, true)
      else (A, B, false)

def sqlite4_num_mul (A B : Num) : Num :=
  if A.e > mxExp ∨ B.e > mxExp then
    ⟨A.sign ^^ B.sign, false, mxExp + 1, if A.m ≠ 0 ∧ B.m ≠ 0 then 1 else 0⟩
  else if A.m = 0 then A
  else if B.m = 0 then B
  else
    let A := stripZeros 20 A
    let B := stripZeros 20 B
    let (A, B) := cancelFives 28 A B
    let (B, A) := cancelFives 28 B A
    let (A', B', lost) := dropDigits 20 A B
    ⟨A.sign ^^ B.sign, (A.approx || B.approx) || lost, toShort (A'.e + B'.e), A'.m * B'.m⟩

/-- The first loop of `sqlite4_num_div`; a significand that is not zero is large enough after
nineteen rounds. -/
def growDividend : ℕ → Num → Num
  | 0, A => A
  | n + 1, A =>
      if A.m < tenthMax then growDividend n { A with m := A.m * 10, e := toShort (A.e - 1) } else A

def sqlite4_num_div (A B : Num) : Num :=
  if A.e > mxExp then { A with m := 0 }
  else if B.e > mxExp then (if B.m ≠ 0 then ⟨false, true, 0, 0⟩ else B)
  else if B.m = 0 then ⟨A.sign ^^ B.sign, true, nanExp, 0⟩
  else if A.m = 0 then A
  else
    let A := growDividend 19 A
    let B := stripZeros 20 B
    ⟨A.sign ^^ B.sign, (A.approx || B.approx) || A.m % B.m != 0, toShort (A.e - B.e), A.m / B.m⟩

/-- The loop of `sqlite4_num_round`, while more than one digit is to go. -/
def cutDigits : ℕ → Num → Num
  | 0, x => x
  | n + 1, x => cutDigits n { x with m := x.m / 10, e := x.e + 1 }

/-- `sqlite4_num_round`. -/
def sqlite4_num_round (x : Num) (N : ℤ) : Num :=
  let N := if N < 0 then 0 else N
  if x.e ≥ -N then x
  else if x.e < -(N + 30) then ⟨false, false, 0, 0⟩
  else
    let x := cutDigits (-(N + 1) - x.e).toNat x
    { x with m := (x.m + 5) % 2 ^ 64 / 10, e := x.e + 1 }

/-- The second loop of `sqlite4_num_to_int64`, and whether it dropped a digit other than zero. -/
def overTen : ℕ → ℕ → ℕ × Bool
  | 0, iRet => (iRet, false)
  | k + 1, iRet =>
      let (r, lossy) := overTen k (iRet / 10)
      (r, iRet % 10 != 0 || lossy)

/-- The `*pbLossy` of `sqlite4_num_to_int64`. -/
def toInt64Lossy (num : Num) : Bool :=
  match timesTen num.e.toNat num.m with
  | none => true
  | some iRet =>
      let (iRet, lossy) := overTen (-num.e).toNat iRet
      (num.approx || lossy) || decide (iRet > if num.sign then 2 ^ 63 else 2 ^ 63 - 1)

/-- `sqlite4_num_to_int32`, with its `*pbLossy`. -/
def sqlite4_num_to_int32 (num : Num) : ℤ × Bool :=
  let iVal := sqlite4_num_to_int64 num
  if iVal < -2 ^ 31 then (-2 ^ 31, true)
  else if iVal > 2 ^ 31 - 1 then (2 ^ 31 - 1, true)
  else (iVal, toInt64Lossy num)

/-! ### Values -/

variable {A B A' B' X X' : Num} {k : ℕ}

theorem Num.mag_shift (hm : X.m = X'.m * 10 ^ k) (he : X'.e = X.e + k) : X'.mag = X.mag := by
  rw [Num.mag, Num.mag, hm, he, zpow_add₀ (by norm_num), zpow_natCast]
  push_cast
  ring

/-- Digits that are cut off count for less than one unit of what is left. -/
theorem Num.mag_cut (hm : X'.m = X.m / 10 ^ k) (he : X'.e = X.e + k) :
    X'.mag ≤ X.mag ∧ X.mag < X'.mag + 10 ^ X'.e ∧ (X.m % 10 ^ k = 0 → X'.mag = X.mag) := by
  have hpos : (0 : ℚ) < 10 ^ X.e := by positivity
  have hpow : (10 : ℚ) ^ X'.e = 10 ^ X.e * (10 ^ k : ℕ) := by
    rw [he, zpow_add₀ (by norm_num), zpow_natCast]
    push_cast
    rfl
  have hdiv := Nat.div_add_mod X.m (10 ^ k)
  have hmod := Nat.mod_lt X.m (show 0 < 10 ^ k by positivity)
  have hmag : X'.mag = ((10 ^ k * (X.m / 10 ^ k) : ℕ) : ℚ) * 10 ^ X.e := by
    rw [Num.mag, hpow, hm]
    push_cast
    ring
  refine ⟨?_, ?_, fun hz => ?_⟩
  · rw [hmag, Num.mag]
    exact mul_le_mul_of_nonneg_right (by exact_mod_cast (by omega)) hpos.le
  · rw [hmag, hpow, Num.mag, mul_comm ((10 : ℚ) ^ X.e), ← add_mul]
    refine mul_lt_mul_of_pos_right ?_ hpos
    exact_mod_cast (show X.m < 10 ^ k * (X.m / 10 ^ k) + 10 ^ k by omega)
  · rw [hmag, Num.mag]
    congr 2
    omega

/-! ### A common exponent -/

/-- A number of which digits may have been cut off. -/
structure Near (X X' : Num) : Prop where
  le : X'.mag ≤ X.mag
  lt : X.mag < X'.mag + 10 ^ X'.e
  exact : X'.approx = false → X.approx = false ∧ X'.mag = X.mag
  sign : X'.sign = X.sign
  m_lt : X'.m < 2 ^ 64

theorem Near.of_mag_eq (h : X'.mag = X.mag) (happrox : X'.approx = X.approx)
    (hsign : X'.sign = X.sign) (hm : X'.m < 2 ^ 64) : Near X X' :=
  ⟨h.le, h ▸ lt_add_of_pos_right _ (by positivity), fun h' => ⟨happrox ▸ h', h⟩, hsign, hm⟩

theorem dropZeros_approx (gap : ℕ) (B : Num) : (dropZeros gap B).2.approx = B.approx := by
  induction gap generalizing B with
  | zero => rfl
  | succ gap ih =>
      unfold dropZeros
      split_ifs
      · exact ih _
      · rfl

theorem growDigits_approx (gap : ℕ) (A : Num) : (growDigits gap A).2.approx = A.approx := by
  induction gap generalizing A with
  | zero => rfl
  | succ gap ih =>
      unfold growDigits
      split_ifs
      · exact ih _
      · rfl

theorem growDigits_lt (gap : ℕ) {A : Num} (h : A.m < 2 ^ 64) : (growDigits gap A).2.m < 2 ^ 64 := by
  induction gap generalizing A with
  | zero => exact h
  | succ gap ih =>
      unfold growDigits
      split_ifs with hm
      · have htm : tenthMax = 1844674407370955161 := by decide
        exact ih (by show A.m * 10 < 2 ^ 64; omega)
      · exact h

theorem loseDigits_approx (gap : ℕ) (B : Num) :
    (loseDigits gap B).approx = false ↔ B.approx = false ∧ gap = 0 := by
  induction gap generalizing B with
  | zero => simp [loseDigits]
  | succ gap ih =>
      rw [loseDigits, ih]
      simp

theorem adjustOrdered_near (h : B.e ≤ A.e) (hA : A.m < 2 ^ 64) (hB : B.m < 2 ^ 64) :
    Near A (adjustOrdered A B).1 ∧ Near B (adjustOrdered A B).2 := by
  obtain ⟨gap, hgap⟩ : ∃ gap : ℕ, A.e = B.e + gap := ⟨(A.e - B.e).toNat, by omega⟩
  unfold adjustOrdered
  split_ifs with hbz haz hfar
  · refine ⟨.of_mag_eq rfl rfl rfl hA, .of_mag_eq ?_ rfl rfl hB⟩
    rw [Num.mag, Num.mag, hbz]
    simp
  · refine ⟨.of_mag_eq ?_ rfl rfl hA, .of_mag_eq rfl rfl rfl hB⟩
    rw [Num.mag, Num.mag, haz]
    simp
  · -- All digits of the smaller number are lost.
    refine ⟨.of_mag_eq rfl rfl rfl hA, ?_, ?_, fun h => ?_, rfl, Nat.two_pow_pos 64⟩
    · show ((0 : ℕ) : ℚ) * _ ≤ _
      rw [Nat.cast_zero, zero_mul]
      exact B.mag_nonneg
    · show _ < ((0 : ℕ) : ℚ) * _ + 10 ^ A.e
      rw [Nat.cast_zero, zero_mul, zero_add]
      calc B.mag < 10 ^ (20 : ℤ) * 10 ^ B.e := by
            refine mul_lt_mul_of_pos_right ?_ (by positivity)
            exact (show (B.m : ℚ) < 2 ^ 64 from by exact_mod_cast hB).trans (by norm_num)
        _ = 10 ^ (20 + B.e) := (zpow_add₀ (by norm_num) _ _).symm
        _ ≤ 10 ^ A.e := zpow_le_zpow_right₀ (by norm_num) (by omega)
    · cases h
  · rw [show (A.e - B.e).toNat = gap by omega]
    obtain ⟨k₁, hgap', hde, hdm, hds⟩ := dropZeros_spec gap B
    obtain ⟨d, hd⟩ : ∃ d, dropZeros gap B = d := ⟨_, rfl⟩
    have hda := dropZeros_approx gap B
    rw [hd] at hgap' hde hdm hds hda
    obtain ⟨k₂, hgap'', hge, hgm, hgs, -⟩ := growDigits_spec d.1 A
    have hga := growDigits_approx d.1 A
    have hglt := growDigits_lt d.1 hA
    obtain ⟨g, hg⟩ : ∃ g, growDigits d.1 A = g := ⟨_, rfl⟩
    rw [hg] at hgap'' hge hgm hgs hga hglt
    obtain ⟨hbe, hbm, hbs⟩ := loseDigits_spec g.1 d.2
    simp only [hd, hg]
    refine ⟨.of_mag_eq (Num.mag_shift hgm (by omega)).symm hga hgs hglt, ?_⟩
    have hmag : d.2.mag = B.mag := Num.mag_shift hdm hde
    obtain ⟨hle, hlt, hexact⟩ := Num.mag_cut hbm hbe
    refine ⟨hmag ▸ hle, hmag ▸ hlt, fun h => ?_, hbs.trans hds, ?_⟩
    · obtain ⟨h1, h2⟩ := (loseDigits_approx _ _).mp h
      exact ⟨hda ▸ h1, hmag ▸ hexact (by rw [h2, pow_zero, Nat.mod_one])⟩
    · rw [hbm]
      refine lt_of_le_of_lt (Nat.div_le_self _ _) (lt_of_le_of_lt ?_ hB)
      rw [hdm]
      exact Nat.le_mul_of_pos_right _ (by positivity)

theorem adjustExponent_near (hA : A.m < 2 ^ 64) (hB : B.m < 2 ^ 64) :
    Near A (adjustExponent A B).1 ∧ Near B (adjustExponent A B).2 := by
  unfold adjustExponent
  split_ifs with h
  · exact (adjustOrdered_near h.le hB hA).symm
  · exact adjustOrdered_near (not_lt.mp h) hA hB

/-! ### Sums and differences -/

/-- Nothing is lost silently, and what is lost counts for less than two units. -/
structure Approximates (r : Num) (v : ℚ) : Prop where
  exact : r.approx = false → r.toRat = v
  near : |r.toRat - v| < 2 * 10 ^ r.e

theorem Num.toRat_eq (A : Num) : A.toRat = (if A.sign then -1 else 1) * A.mag := by
  rw [Num.toRat]
  split_ifs <;> ring

theorem abs_sign (b : Bool) : |(if b then -1 else 1 : ℚ)| = 1 := by
  cases b <;> simp

/-- A result of the magnitude and the sign is near a value, if the magnitudes are. -/
theorem Approximates.of_mag {r : Num} {v : ℚ} {b : Bool} {w : ℚ}
    (hr : r.toRat = (if b then -1 else 1) * w) {w' : ℚ}
    (hv : v = (if b then -1 else 1) * w') (hexact : r.approx = false → w = w')
    (hnear : |w - w'| < 2 * 10 ^ r.e) : Approximates r v := by
  refine ⟨fun h => by rw [hr, hv, hexact h], ?_⟩
  rw [hr, hv, ← mul_sub, abs_mul, abs_sign, one_mul]
  exact hnear

theorem addAlike_near (hA : A.Finite) (hB : B.Finite) (hsign : A.sign = B.sign)
    (hr : (addAlike A B).e ≤ mxExp) : Approximates (addAlike A B) (A.toRat + B.toRat) := by
  obtain ⟨hnA, hnB⟩ := adjustExponent_near hA.m_lt hB.m_lt
  obtain ⟨he, -⟩ := adjustExponent_spec hA.m_lt hB.m_lt
  unfold addAlike at hr ⊢
  rw [if_neg (not_lt.mpr hA.e_le), if_neg (not_lt.mpr hB.e_le)] at hr ⊢
  obtain ⟨⟨A', B'⟩, hadj⟩ : ∃ P, adjustExponent A B = P := ⟨_, rfl⟩
  rw [hadj] at hnA hnB he hr ⊢
  dsimp only at hnA hnB he hr ⊢
  have hu : (0 : ℚ) < 10 ^ A'.e := by positivity
  have hv : A.toRat + B.toRat = (if A.sign then -1 else 1) * (A.mag + B.mag) := by
    rw [Num.toRat_eq, Num.toRat_eq, ← hsign]
    ring
  have hAm : A'.mag = A'.m * 10 ^ A'.e := rfl
  have hBm : B'.mag = B'.m * 10 ^ A'.e := by rw [Num.mag, he]
  have hlt := hnA.lt
  have hlt' := hnB.lt
  rw [← he] at hlt'
  have hAlt := hnA.m_lt
  have hBlt := hnB.m_lt
  split_ifs at hr ⊢ with hsum hexp
  · -- The sum fits.
    have hfit : A'.m + B'.m < 2 ^ 64 := by omega
    rw [Nat.mod_eq_of_lt hfit]
    refine .of_mag (w := A'.mag + B'.mag) ?_ hv (fun h => ?_) ?_
    · rw [Num.toRat_eq, Num.mag, hAm, hBm, hnA.sign]
      push_cast
      ring
    · rw [Bool.or_eq_false_iff] at h
      rw [(hnA.exact h.1).2, (hnB.exact h.2).2]
    · have hle := hnA.le
      have hle' := hnB.le
      rw [abs_lt]
      constructor <;> dsimp only <;> linarith
  · exact absurd hexp (not_lt.mpr hr)
  · -- A digit of both is cut off.
    have hdA := Nat.div_add_mod A'.m 10
    have hdB := Nat.div_add_mod B'.m 10
    have hmod : (A'.m / 10 + B'.m / 10) % 2 ^ 64 = A'.m / 10 + B'.m / 10 :=
      Nat.mod_eq_of_lt (by omega)
    have hcutA : A'.mag = 10 * (A'.m / 10 : ℕ) * 10 ^ A'.e + (A'.m % 10 : ℕ) * 10 ^ A'.e := by
      rw [hAm, ← add_mul]
      congr 1
      exact_mod_cast hdA.symm
    have hcutB : B'.mag = 10 * (B'.m / 10 : ℕ) * 10 ^ A'.e + (B'.m % 10 : ℕ) * 10 ^ A'.e := by
      rw [hBm, ← add_mul]
      congr 1
      exact_mod_cast hdB.symm
    have hnine : ∀ m : ℕ, ((m % 10 : ℕ) : ℚ) * 10 ^ A'.e ≤ 9 * 10 ^ A'.e ∧
        0 ≤ ((m % 10 : ℕ) : ℚ) * 10 ^ A'.e := fun m =>
      ⟨mul_le_mul_of_nonneg_right (by exact_mod_cast Nat.lt_succ_iff.mp (Nat.mod_lt m (by omega)))
        hu.le, by positivity⟩
    have hunit : (10 : ℚ) ^ (A'.e + 1) = 10 * 10 ^ A'.e := by
      rw [zpow_add₀ (by norm_num), zpow_one, mul_comm]
    have hpart : ∀ m : ℕ, (0 : ℚ) ≤ 10 * (m / 10 : ℕ) * 10 ^ A'.e := fun m => by positivity
    rw [hmod]
    refine .of_mag (w := 10 * (A'.m / 10 : ℕ) * 10 ^ A'.e + 10 * (B'.m / 10 : ℕ) * 10 ^ A'.e)
      ?_ hv (fun h => ?_) ?_
    · rw [Num.toRat_eq, Num.mag, hnA.sign]
      dsimp only
      rw [hunit]
      push_cast
      ring
    · simp only [Bool.or_eq_false_iff, bne_eq_false_iff_eq] at h
      obtain ⟨⟨⟨h1, h2⟩, h3⟩, h4⟩ := h
      rw [h3, Nat.cast_zero, zero_mul, add_zero] at hcutA
      rw [h4, Nat.cast_zero, zero_mul, add_zero] at hcutB
      rw [← hcutA, ← hcutB, (hnA.exact h1).2, (hnB.exact h2).2]
    · have hle := hnA.le
      have hle' := hnB.le
      obtain ⟨h1, h2⟩ := hnine A'.m
      obtain ⟨h3, h4⟩ := hnine B'.m
      dsimp only
      rw [hunit, abs_lt]
      constructor <;> linarith

theorem subAlike_near (hA : A.Finite) (hB : B.Finite) (hsign : A.sign = B.sign) :
    Approximates (subAlike A B) (A.toRat - B.toRat) := by
  obtain ⟨hnA, hnB⟩ := adjustExponent_near hA.m_lt hB.m_lt
  obtain ⟨he, -⟩ := adjustExponent_spec hA.m_lt hB.m_lt
  unfold subAlike
  rw [if_neg (by rw [not_or]; exact ⟨not_lt.mpr hA.e_le, not_lt.mpr hB.e_le⟩)]
  obtain ⟨⟨A', B'⟩, hadj⟩ : ∃ P, adjustExponent A B = P := ⟨_, rfl⟩
  rw [hadj] at hnA hnB he ⊢
  dsimp only at hnA hnB he ⊢
  have hu : (0 : ℚ) < 10 ^ A'.e := by positivity
  have hv : A.toRat - B.toRat = (if A.sign then -1 else 1) * (A.mag - B.mag) := by
    rw [Num.toRat_eq, Num.toRat_eq, ← hsign]
    ring
  have hBm : B'.mag = B'.m * 10 ^ A'.e := by rw [Num.mag, he]
  have hlt := hnA.lt
  have hlt' := hnB.lt
  have hle := hnA.le
  have hle' := hnB.le
  rw [← he] at hlt'
  have hnear : |A'.mag - B'.mag - (A.mag - B.mag)| < 2 * 10 ^ A'.e := by
    rw [abs_lt]
    constructor <;> linarith
  split_ifs with hswap
  · refine .of_mag (w := A'.mag - B'.mag) ?_ hv (fun h => ?_)
      (by dsimp only; rw [← he]; exact hnear)
    · have hflip : ∀ b : Bool, (if (!b) = true then -1 else 1 : ℚ) = -(if b then -1 else 1) := by
        intro b
        cases b <;> simp
      rw [Num.toRat_eq, Num.mag, hnB.sign, ← hsign]
      dsimp only
      rw [hflip, ← he, Nat.cast_sub hswap.le, hBm, Num.mag]
      ring
    · rw [Bool.or_eq_false_iff] at h
      rw [(hnA.exact h.2).2, (hnB.exact h.1).2]
  · refine .of_mag (w := A'.mag - B'.mag) ?_ hv (fun h => ?_) hnear
    · rw [Num.toRat_eq, Num.mag, hnA.sign]
      dsimp only
      rw [Nat.cast_sub (not_lt.mp hswap), hBm, Num.mag]
      ring
    · rw [Bool.or_eq_false_iff] at h
      rw [(hnA.exact h.1).2, (hnB.exact h.2).2]

theorem Num.Finite.setSign (h : A.Finite) (b : Bool) : ({ A with sign := b } : Num).Finite :=
  ⟨h.m_lt, h.e_ge, h.e_le⟩

/-- The number with the other sign. -/
theorem Num.toRat_setSign {b : Bool} (h : A.sign ≠ b) :
    ({ A with sign := b } : Num).toRat = -A.toRat := by
  have hmag : ({ A with sign := b } : Num).mag = A.mag := rfl
  rw [Num.toRat_eq, Num.toRat_eq, hmag]
  cases hs : A.sign <;> cases b <;> simp_all

/-- **A sum or a difference is exact, or it says that it is not.** -/
theorem sqlite4_num_add_sub_near (hA : A.Finite) (hB : B.Finite) :
    ((sqlite4_num_add A B).e ≤ mxExp →
      Approximates (sqlite4_num_add A B) (A.toRat + B.toRat)) ∧
    ((sqlite4_num_sub A B).e ≤ mxExp →
      Approximates (sqlite4_num_sub A B) (A.toRat - B.toRat)) := by
  unfold sqlite4_num_add sqlite4_num_sub
  by_cases hsign : A.sign = B.sign
  · rw [if_neg (not_not.mpr hsign), if_neg (not_not.mpr hsign)]
    exact ⟨addAlike_near hA hB hsign, fun _ => subAlike_near hA hB hsign⟩
  · rw [if_pos hsign, if_pos hsign]
    constructor
    · intro _
      cases hs : A.sign with
      | false =>
          have hb : B.sign ≠ false := fun h => hsign (hs.trans h.symm)
          rw [if_neg (by simp), ← sub_neg_eq_add, ← Num.toRat_setSign hb]
          exact subAlike_near hA (hB.setSign _) hs
      | true =>
          have ha : A.sign ≠ false := by simp [hs]
          have hb : B.sign = false := by simpa [hs] using Ne.symm hsign
          rw [if_pos rfl, add_comm, ← sub_neg_eq_add, ← Num.toRat_setSign ha]
          exact subAlike_near hB (hA.setSign _) hb
    · intro hr
      have hb : B.sign ≠ A.sign := Ne.symm hsign
      rw [sub_eq_add_neg, ← Num.toRat_setSign hb]
      exact addAlike_near hA (hB.setSign _) rfl hr

/-- Two numbers of twenty digits: their sum loses the last one. -/
theorem sqlite4_num_add_sub_near_carry :
    (sqlite4_num_add ⟨false, false, 0, 2 ^ 64 - 1⟩ ⟨false, false, 0, 2⟩).approx = true ∧
      Approximates (sqlite4_num_add ⟨false, false, 0, 2 ^ 64 - 1⟩ ⟨false, false, 0, 2⟩)
        (Num.toRat ⟨false, false, 0, 2 ^ 64 - 1⟩ + Num.toRat ⟨false, false, 0, 2⟩) :=
  ⟨by decide, (sqlite4_num_add_sub_near (by decide) (by decide)).1 (by decide)⟩

/-! ### Products -/

theorem multWillOverflow_iff {x y : ℕ} (hx : x < 2 ^ 64) (hy : y < 2 ^ 64) :
    multWillOverflow x y = true ↔ 2 ^ 64 ≤ x * y := by
  obtain ⟨xHi, hxHi⟩ : ∃ a, x / 2 ^ 32 = a := ⟨_, rfl⟩
  obtain ⟨yHi, hyHi⟩ : ∃ a, y / 2 ^ 32 = a := ⟨_, rfl⟩
  obtain ⟨xLo, hxLo⟩ : ∃ a, x % 2 ^ 32 = a := ⟨_, rfl⟩
  obtain ⟨yLo, hyLo⟩ : ∃ a, y % 2 ^ 32 = a := ⟨_, rfl⟩
  have hx' : x = 2 ^ 32 * xHi + xLo := by omega
  have hy' : y = 2 ^ 32 * yHi + yLo := by omega
  have hxl : xHi < 2 ^ 32 := by omega
  have hyl : yHi < 2 ^ 32 := by omega
  have hxo : xLo < 2 ^ 32 := by omega
  have hyo : yLo < 2 ^ 32 := by omega
  have hprod : x * y = 2 ^ 64 * (xHi * yHi) + (2 ^ 32 * (xHi * yLo + yHi * xLo) + xLo * yLo) := by
    rw [hx', hy']
    ring
  have hhigh : xHi * yHi < 2 ^ 64 := by
    calc xHi * yHi ≤ (2 ^ 32 - 1) * (2 ^ 32 - 1) := Nat.mul_le_mul (by omega) (by omega)
      _ < 2 ^ 64 := by norm_num
  have hlow : xLo * yLo < 2 ^ 64 := by
    calc xLo * yLo ≤ (2 ^ 32 - 1) * (2 ^ 32 - 1) := Nat.mul_le_mul (by omega) (by omega)
      _ < 2 ^ 64 := by norm_num
  unfold multWillOverflow
  simp only [hxHi, hyHi, hxLo, hyLo]
  rw [Nat.mod_eq_of_lt hhigh]
  split_ifs with h0
  · refine iff_of_true rfl ?_
    have hpos : 0 < xHi * yHi := Nat.pos_of_ne_zero h0
    rw [hprod]
    omega
  · -- One of the high halves is zero, so the middle terms do not overflow.
    have hzero : xHi * yHi = 0 := not_not.mp h0
    have hmid : xHi * yLo + yHi * xLo ≤ (2 ^ 32 - 1) * (2 ^ 32 - 1) := by
      rcases Nat.mul_eq_zero.mp hzero with h | h
      · rw [h, zero_mul, zero_add]
        exact Nat.mul_le_mul (by omega) (by omega)
      · rw [h, zero_mul, add_zero]
        exact Nat.mul_le_mul (by omega) (by omega)
    have hsum : xHi * yLo + yHi * xLo + xLo * yLo / 2 ^ 32 < 2 ^ 64 := by omega
    rw [Nat.mod_eq_of_lt hsum, decide_eq_true_iff, hprod, hzero]
    omega

/-- Two factors that have been brought to a smaller form. -/
structure Factors (A B A' B' : Num) (n : ℕ) : Prop where
  mag : A'.mag * B'.mag = A.mag * B.mag
  left : A'.m ≠ 0 ∧ A'.m ≤ A.m ∧ A'.approx = A.approx ∧ A'.sign = A.sign
  right : B'.m ≠ 0 ∧ B'.m ≤ B.m ∧ B'.approx = B.approx ∧ B'.sign = B.sign
  e : A.e + B.e ≤ A'.e + B'.e ∧ A'.e + B'.e ≤ A.e + B.e + n

theorem Factors.trans {A'' B'' : Num} {n n' : ℕ} (h : Factors A B A' B' n)
    (h' : Factors A' B' A'' B'' n') : Factors A B A'' B'' (n + n') := by
  obtain ⟨h1, ⟨-, h2, h3, h4⟩, ⟨-, h5, h6, h7⟩, h8, h9⟩ := h
  obtain ⟨h1', ⟨h0', h2', h3', h4'⟩, ⟨h0'', h5', h6', h7'⟩, h8', h9'⟩ := h'
  exact ⟨h1'.trans h1, ⟨h0', h2'.trans h2, h3'.trans h3, h4'.trans h4⟩,
    ⟨h0'', h5'.trans h5, h6'.trans h6, h7'.trans h7⟩, h8.trans h8', by push_cast; omega⟩

theorem Factors.symm {n : ℕ} (h : Factors A B A' B' n) : Factors B A B' A' n :=
  ⟨by rw [mul_comm, h.mag, mul_comm], h.right, h.left, by
    rw [add_comm B.e, add_comm B'.e]
    exact h.e⟩

theorem stripZeros_flags (k : ℕ) (A : Num) :
    (stripZeros k A).approx = A.approx ∧ (stripZeros k A).sign = A.sign := by
  induction k generalizing A with
  | zero => exact ⟨rfl, rfl⟩
  | succ k ih =>
      unfold stripZeros
      split_ifs
      · exact ih _
      · exact ⟨rfl, rfl⟩

theorem stripZeros_mag (h0 : A.m ≠ 0) (hA : A.m < 2 ^ 64) :
    (stripZeros 20 A).mag = A.mag ∧ (stripZeros 20 A).m ≠ 0 ∧ (stripZeros 20 A).m ≤ A.m ∧
      A.e ≤ (stripZeros 20 A).e ∧ (stripZeros 20 A).e ≤ A.e + 20 := by
  obtain ⟨j, hj, he, hm, hlast⟩ := stripZeros_spec (k := 20) h0 (by omega)
  have hpos : (stripZeros 20 A).m ≠ 0 := fun h => by rw [h, zero_mul] at hm; exact h0 hm
  refine ⟨Num.mag_shift hm he, hpos, ?_, by omega, by omega⟩
  rw [hm]
  exact Nat.le_mul_of_pos_right _ (by positivity)

theorem factors_stripZeros (hA0 : A.m ≠ 0) (hB0 : B.m ≠ 0) (hA : A.m < 2 ^ 64)
    (hB : B.m < 2 ^ 64) : Factors A B (stripZeros 20 A) (stripZeros 20 B) 40 := by
  obtain ⟨h1, h2, h3, h4, h5⟩ := stripZeros_mag hA0 hA
  obtain ⟨h1', h2', h3', h4', h5'⟩ := stripZeros_mag hB0 hB
  exact ⟨by rw [h1, h1'], ⟨h2, h3, stripZeros_flags 20 A⟩, ⟨h2', h3', stripZeros_flags 20 B⟩,
    by omega, by push_cast; omega⟩

theorem factors_cancelFives (n : ℕ) (hA0 : A.m ≠ 0) (hB0 : B.m ≠ 0) :
    Factors A B (cancelFives n A B).1 (cancelFives n A B).2 n := by
  induction n generalizing A B with
  | zero =>
      exact ⟨rfl, ⟨hA0, le_rfl, rfl, rfl⟩, ⟨hB0, le_rfl, rfl, rfl⟩, le_rfl, by simp [cancelFives]⟩
  | succ n ih =>
      unfold cancelFives
      split_ifs with hif
      · have hfive := Nat.div_mul_cancel (Nat.dvd_of_mod_eq_zero hif.1)
        have htwo := Nat.div_mul_cancel (Nat.dvd_of_mod_eq_zero hif.2)
        have hstep : Factors A B { A with m := A.m / 5, e := A.e + 1 }
            { B with m := B.m / 2 } 1 := by
          refine ⟨?_, ⟨by dsimp only; omega, Nat.div_le_self _ _, rfl, rfl⟩,
            ⟨by dsimp only; omega, Nat.div_le_self _ _, rfl, rfl⟩, by dsimp only; omega,
            by dsimp only; push_cast; omega⟩
          have h5 : (A.m : ℚ) = (A.m / 5 : ℕ) * 5 := by exact_mod_cast hfive.symm
          have h2 : (B.m : ℚ) = (B.m / 2 : ℕ) * 2 := by exact_mod_cast htwo.symm
          rw [Num.mag, Num.mag, Num.mag, Num.mag, h5, h2, zpow_add₀ (by norm_num), zpow_one]
          dsimp only
          ring
        exact Nat.add_comm 1 n ▸ hstep.trans (ih hstep.left.1 hstep.right.1)
      · exact ⟨rfl, ⟨hA0, le_rfl, rfl, rfl⟩, ⟨hB0, le_rfl, rfl, rfl⟩, le_rfl, by push_cast; omega⟩

/-- Part of a number that is left if a digit is cut off a long significand. -/
theorem Num.mag_cut_long (hm : 2 ^ 32 ≤ A.m) :
    (1 - 9 / 2 ^ 32) * A.mag ≤ ({ A with m := A.m / 10, e := A.e + 1 } : Num).mag := by
  have hdiv := Nat.div_add_mod A.m 10
  have hmod := Nat.mod_lt A.m (show 0 < 10 by omega)
  have hm' : (2 : ℚ) ^ 32 ≤ A.m := by exact_mod_cast hm
  have hcut : (A.m : ℚ) - 9 ≤ 10 * (A.m / 10 : ℕ) := by
    have h : A.m ≤ 10 * (A.m / 10) + 9 := by omega
    have h' : (A.m : ℚ) ≤ 10 * (A.m / 10 : ℕ) + 9 := by exact_mod_cast h
    linarith
  have hpart : (1 - 9 / 2 ^ 32) * (A.m : ℚ) ≤ 10 * (A.m / 10 : ℕ) := by linarith
  have hu : (0 : ℚ) ≤ 10 ^ A.e := by positivity
  have h := mul_le_mul_of_nonneg_right hpart hu
  rw [Num.mag, Num.mag]
  dsimp only
  rw [zpow_add₀ (by norm_num), zpow_one]
  linarith

/-- What the last loop leaves of a product. -/
structure Dropped (A B A' B' : Num) (lost : Bool) (n : ℕ) : Prop where
  fits : A'.m * B'.m < 2 ^ 64
  exact : lost = false → A' = A ∧ B' = B
  le : A'.mag * B'.mag ≤ A.mag * B.mag
  part : (1 - 9 / 2 ^ 32) ^ n * (A.mag * B.mag) ≤ A'.mag * B'.mag
  e : A.e + B.e ≤ A'.e + B'.e ∧ A'.e + B'.e ≤ A.e + B.e + n

theorem Dropped.symm {lost : Bool} {n : ℕ} (h : Dropped A B A' B' lost n) :
    Dropped B A B' A' lost n :=
  ⟨by rw [mul_comm]; exact h.fits, fun hl => (h.exact hl).symm,
    by rw [mul_comm B'.mag, mul_comm B.mag]; exact h.le,
    by rw [mul_comm B'.mag, mul_comm B.mag]; exact h.part, by
      rw [add_comm B.e, add_comm B'.e]
      exact h.e⟩

theorem Dropped.stop (n : ℕ) (hfit : A.m * B.m < 2 ^ 64) : Dropped A B A B false n := by
  refine ⟨hfit, fun _ => ⟨rfl, rfl⟩, le_rfl, ?_, le_rfl, by omega⟩
  have hone : (1 - 9 / 2 ^ 32 : ℚ) ^ n ≤ 1 := pow_le_one₀ (by norm_num) (by norm_num)
  exact mul_le_of_le_one_left (mul_nonneg A.mag_nonneg B.mag_nonneg) hone

/-- A round, in which the longer significand loses a digit. -/
theorem Dropped.step {lost : Bool} {n : ℕ} (hm : 2 ^ 32 ≤ A.m)
    (h : Dropped { A with m := A.m / 10, e := A.e + 1 } B A' B' lost n) :
    Dropped A B A' B' true (n + 1) := by
  have hcut := Num.mag_cut_long hm
  have hle : ({ A with m := A.m / 10, e := A.e + 1 } : Num).mag ≤ A.mag :=
    (Num.mag_cut (k := 1) (by rw [pow_one]) rfl).1
  obtain ⟨C, hC⟩ : ∃ C : Num, { A with m := A.m / 10, e := A.e + 1 } = C := ⟨_, rfl⟩
  have hCe : C.e = A.e + 1 := by rw [← hC]
  rw [hC] at h hcut hle
  have hB := B.mag_nonneg
  refine ⟨h.fits, by simp, h.le.trans (mul_le_mul_of_nonneg_right hle hB), ?_, ?_, ?_⟩
  · refine le_trans ?_ h.part
    rw [pow_succ, mul_assoc, ← mul_assoc (1 - 9 / 2 ^ 32 : ℚ)]
    exact mul_le_mul_of_nonneg_left (mul_le_mul_of_nonneg_right hcut hB) (by positivity)
  · have h1 := h.e.1
    omega
  · have h2 := h.e.2
    push_cast
    omega

/-- **The last loop of `sqlite4_num_mul`** ends with a product that fits. -/
theorem dropDigits_spec {n : ℕ} (hA0 : A.m ≠ 0) (hB0 : B.m ≠ 0) (hA : A.m < 2 ^ 64)
    (hB : B.m < 2 ^ 64) (hn : A.m * B.m < 2 ^ 64 * 10 ^ n) :
    Dropped A B (dropDigits n A B).1 (dropDigits n A B).2.1 (dropDigits n A B).2.2 n := by
  induction n generalizing A B with
  | zero =>
      rw [pow_zero, mul_one] at hn
      exact .stop 0 hn
  | succ n ih =>
      unfold dropDigits
      by_cases hover : multWillOverflow A.m B.m = true
      · have hlarge := (multWillOverflow_iff hA hB).mp hover
        have hlong : ∀ {x y : ℕ}, y ≤ x → 2 ^ 64 ≤ x * y → 2 ^ 32 ≤ x := by
          intro x y hxy hxy'
          by_contra hlt
          have : x * y ≤ (2 ^ 32 - 1) * (2 ^ 32 - 1) := Nat.mul_le_mul (by omega) (by omega)
          omega
        have hless : ∀ {x y : ℕ}, x * y < 2 ^ 64 * 10 ^ (n + 1) → x / 10 * y < 2 ^ 64 * 10 ^ n := by
          intro x y hxy
          have h1 : x / 10 * y * 10 ≤ x * y := by
            calc x / 10 * y * 10 = x / 10 * 10 * y := by ring
              _ ≤ x * y := Nat.mul_le_mul_right _ (Nat.div_mul_le_self x 10)
          rw [pow_succ] at hxy
          omega
        rw [if_pos hover]
        split_ifs with hgt
        · have hm := hlong hgt.le hlarge
          exact (ih (A := { A with m := A.m / 10, e := A.e + 1 }) (by dsimp only; omega) hB0
            (lt_of_le_of_lt (Nat.div_le_self _ _) hA) hB (hless hn)).step hm
        · rw [mul_comm] at hlarge hn
          have hm := hlong (not_lt.mp hgt) hlarge
          have hless' := hless hn
          rw [mul_comm] at hless'
          exact (ih (B := { B with m := B.m / 10, e := B.e + 1 }) hA0 (by dsimp only; omega)
            hA (lt_of_le_of_lt (Nat.div_le_self _ _) hB) hless').symm.step hm |>.symm
      · rw [if_neg hover]
        exact .stop _ (not_le.mp fun hle => hover ((multWillOverflow_iff hA hB).mpr hle))

/-- Nothing is lost silently, and what is lost is one part in ten million at most. -/
structure NearlyEqual (r : Num) (v : ℚ) : Prop where
  exact : r.approx = false → r.toRat = v
  near : |r.toRat - v| ≤ |v| / 10 ^ 7

theorem sign_mul (b c : Bool) : (if (b ^^ c) = true then -1 else 1 : ℚ) =
    (if b then -1 else 1) * if c then -1 else 1 := by
  cases b <;> cases c <;> simp

/-- **A product is exact, or it says that it is not.** -/
theorem sqlite4_num_mul_near (hA : A.Finite) (hB : B.Finite) (hlow : -32768 ≤ A.e + B.e) :
    NearlyEqual (sqlite4_num_mul A B) (A.toRat * B.toRat) := by
  have hhigh := hA.e_le
  have hhigh' := hB.e_le
  unfold sqlite4_num_mul
  rw [if_neg (by rw [not_or]; exact ⟨not_lt.mpr hhigh, not_lt.mpr hhigh'⟩)]
  by_cases hA0 : A.m = 0
  · have hz : A.toRat = 0 := by simp [Num.toRat, Num.mag, hA0]
    rw [if_pos hA0, hz, zero_mul]
    exact ⟨fun _ => hz, by simp [hz]⟩
  by_cases hB0 : B.m = 0
  · have hz : B.toRat = 0 := by simp [Num.toRat, Num.mag, hB0]
    rw [if_neg hA0, if_pos hB0, hz, mul_zero]
    exact ⟨fun _ => hz, by simp [hz]⟩
  rw [if_neg hA0, if_neg hB0]
  -- the loops that lose nothing
  have h1 := factors_stripZeros hA0 hB0 hA.m_lt hB.m_lt
  have h2 := h1.trans (factors_cancelFives 28 h1.left.1 h1.right.1)
  have h3 := h2.trans (factors_cancelFives 28 h2.right.1 h2.left.1).symm
  obtain ⟨⟨A2, B2⟩, hc⟩ : ∃ P, cancelFives 28 (stripZeros 20 A) (stripZeros 20 B) = P := ⟨_, rfl⟩
  rw [hc] at h3
  obtain ⟨⟨B3, A3⟩, hc'⟩ : ∃ P, cancelFives 28 B2 A2 = P := ⟨_, rfl⟩
  simp only [hc'] at h3
  -- the loop that drops digits
  have hA3 : A3.m < 2 ^ 64 := lt_of_le_of_lt h3.left.2.1 hA.m_lt
  have hB3 : B3.m < 2 ^ 64 := lt_of_le_of_lt h3.right.2.1 hB.m_lt
  have hprod : A3.m * B3.m < 2 ^ 64 * 10 ^ 20 := by
    calc A3.m * B3.m ≤ (2 ^ 64 - 1) * (2 ^ 64 - 1) := Nat.mul_le_mul (by omega) (by omega)
      _ < 2 ^ 64 * 10 ^ 20 := by norm_num
  have h4 := dropDigits_spec h3.left.1 h3.right.1 hA3 hB3 hprod
  obtain ⟨⟨A4, B4, lost⟩, hd⟩ : ∃ P, dropDigits 20 A3 B3 = P := ⟨_, rfl⟩
  rw [hd] at h4
  simp only [hc, hc', hd]
  have he : -32768 ≤ A4.e + B4.e ∧ A4.e + B4.e ≤ 32767 := by
    have h5 := h3.e
    have h6 := h4.e
    have hmx : mxExp = 999 := rfl
    dsimp only at h5 h6
    push_cast at h5 h6
    omega
  rw [toShort_eq he.1 (by omega)]
  have hvalue : A.toRat * B.toRat =
      (if (A.sign ^^ B.sign) = true then -1 else 1) * (A3.mag * B3.mag) := by
    rw [h3.mag, Num.toRat_eq, Num.toRat_eq, sign_mul]
    ring
  obtain ⟨r, hr⟩ : ∃ r : Num, (⟨A3.sign ^^ B3.sign, (A3.approx || B3.approx) || lost,
    A4.e + B4.e, A4.m * B4.m⟩ : Num) = r := ⟨_, rfl⟩
  have hmag : r.toRat = (if (A.sign ^^ B.sign) = true then -1 else 1) * (A4.mag * B4.mag) := by
    rw [← hr, Num.toRat_eq, Num.mag, h3.left.2.2.2, h3.right.2.2.2, Num.mag, Num.mag,
      zpow_add₀ (by norm_num)]
    push_cast
    ring
  rw [hr]
  refine ⟨fun h => ?_, ?_⟩
  · rw [← hr, Bool.or_eq_false_iff] at h
    obtain ⟨rfl, rfl⟩ := h4.exact h.2
    rw [hmag, hvalue]
  · have hnonneg := mul_nonneg A3.mag_nonneg B3.mag_nonneg
    have hbernoulli := one_add_mul_le_pow (show (-2 : ℚ) ≤ -(9 / 2 ^ 32) by norm_num) 20
    have hpart : (1 - 1 / 10 ^ 7) * (A3.mag * B3.mag) ≤ A4.mag * B4.mag := by
      refine le_trans (mul_le_mul_of_nonneg_right ?_ hnonneg) h4.part
      refine le_trans (by norm_num) (hbernoulli.trans_eq ?_)
      ring
    have hle := h4.le
    dsimp only at hpart hle
    rw [hmag, hvalue, ← mul_sub, abs_mul, abs_mul, abs_sign, one_mul, one_mul,
      abs_of_nonneg hnonneg, abs_le]
    constructor <;> linarith

/-- Three times a number of nineteen digits. -/
theorem sqlite4_num_mul_near_three :
    (sqlite4_num_mul ⟨false, false, 0, 3⟩ ⟨false, false, 0, 6148914691236517211⟩).m =
        1844674407370955163 ∧
      NearlyEqual (sqlite4_num_mul ⟨false, false, 0, 3⟩ ⟨false, false, 0, 6148914691236517211⟩)
        (Num.toRat ⟨false, false, 0, 3⟩ * Num.toRat ⟨false, false, 0, 6148914691236517211⟩) :=
  ⟨by decide +kernel, sqlite4_num_mul_near (by decide) (by decide) (by decide)⟩

/-! ### Quotients -/

theorem growDividend_flags (n : ℕ) (A : Num) :
    (growDividend n A).approx = A.approx ∧ (growDividend n A).sign = A.sign := by
  induction n generalizing A with
  | zero => exact ⟨rfl, rfl⟩
  | succ n ih =>
      unfold growDividend
      split_ifs
      · exact ih _
      · exact ⟨rfl, rfl⟩

theorem growDividend_spec (n : ℕ) (hA : A.m < 2 ^ 64) (he : -32768 ≤ A.e - n)
    (he' : A.e ≤ 32767) : (growDividend n A).mag = A.mag ∧ A.e - n ≤ (growDividend n A).e ∧
      (growDividend n A).e ≤ A.e ∧ A.m ≤ (growDividend n A).m ∧ (growDividend n A).m < 2 ^ 64 := by
  induction n generalizing A with
  | zero => exact ⟨rfl, by simp [growDividend], le_rfl, le_rfl, hA⟩
  | succ n ih =>
      unfold growDividend
      push_cast at he
      split_ifs with hm
      · have htm : tenthMax = 1844674407370955161 := by decide
        have hshort : toShort (A.e - 1) = A.e - 1 := toShort_eq (by omega) (by omega)
        rw [hshort]
        obtain ⟨h1, h2, h3, h4, h5⟩ := ih (A := { A with m := A.m * 10, e := A.e - 1 })
          (by dsimp only; omega) (by dsimp only; omega) (by dsimp only; omega)
        dsimp only at h2 h3 h4
        refine ⟨h1.trans (Num.mag_shift (k := 1) (by rw [pow_one]) (by simp)).symm, ?_, ?_, ?_, h5⟩
        · push_cast
          omega
        · omega
        · omega
      · exact ⟨rfl, by push_cast; omega, le_rfl, le_rfl, hA⟩

/-- Nothing is lost silently; a quotient is cut off below its last digit. -/
structure CutOff (r : Num) (v : ℚ) : Prop where
  exact : r.approx = false → r.toRat = v
  le : |r.toRat| ≤ |v|
  lt : |v| < |r.toRat| + 10 ^ r.e
  sign : r.m ≠ 0 → (r.sign = true ↔ v < 0)

/-- **A quotient is exact, or it says that it is not.** -/
theorem sqlite4_num_div_near (hA : A.Finite) (hB : B.Finite) (hB0 : B.m ≠ 0)
    (hlow : -32749 ≤ A.e) (hlow' : -32729 ≤ A.e - B.e) (hhigh : A.e - B.e ≤ 32767) :
    CutOff (sqlite4_num_div A B) (A.toRat / B.toRat) := by
  have hmx : mxExp = 999 := rfl
  have hAe := hA.e_le
  unfold sqlite4_num_div
  rw [if_neg (not_lt.mpr hA.e_le), if_neg (not_lt.mpr hB.e_le), if_neg hB0]
  split_ifs with hA0
  · have hz : A.toRat = 0 := by simp [Num.toRat, Num.mag, hA0]
    rw [hz, zero_div]
    exact ⟨fun _ => hz, by rw [hz], by rw [hz, abs_zero, zero_add]; positivity,
      fun h => absurd hA0 h⟩
  obtain ⟨h1, h2, h3, h4, h5⟩ := growDividend_spec 19 hA.m_lt (by push_cast; omega) (by omega)
  obtain ⟨h1', h2', h3', h4', h5'⟩ := stripZeros_mag hB0 hB.m_lt
  obtain ⟨-, hsA⟩ := growDividend_flags 19 A
  obtain ⟨-, hsB⟩ := stripZeros_flags 20 B
  obtain ⟨A', hA'⟩ : ∃ A', growDividend 19 A = A' := ⟨_, rfl⟩
  obtain ⟨B', hB'⟩ : ∃ B', stripZeros 20 B = B' := ⟨_, rfl⟩
  rw [hA'] at h1 h2 h3 h4 h5 hsA
  rw [hB'] at h1' h2' h3' h4' h5' hsB
  simp only [hA', hB']
  push_cast at h2
  rw [toShort_eq (by omega) (by omega), hsA, hsB]
  have hu : (0 : ℚ) < 10 ^ (A'.e - B'.e) := by positivity
  have hBq : (0 : ℚ) < B'.m := by exact_mod_cast Nat.pos_of_ne_zero h2'
  -- the magnitude of the quotient, in units of its last digit
  have hquot : A.mag / B.mag = (A'.m : ℚ) / B'.m * 10 ^ (A'.e - B'.e) := by
    rw [← h1, ← h1', Num.mag, Num.mag, zpow_sub₀ (by norm_num)]
    field_simp
  have hvalue : A.toRat / B.toRat =
      (if (A.sign ^^ B.sign) = true then -1 else 1) * (A.mag / B.mag) := by
    rw [Num.toRat_eq, Num.toRat_eq, sign_mul]
    have hinv : ∀ b : Bool, (1 : ℚ) / (if b then -1 else 1) = if b then -1 else 1 := by
      intro b
      cases b <;> norm_num
    rw [mul_div_mul_comm, div_eq_mul_one_div (if A.sign = true then (-1 : ℚ) else 1), hinv]
  have hdiv := Nat.div_add_mod A'.m B'.m
  have hmod := Nat.mod_lt A'.m (Nat.pos_of_ne_zero h2')
  have hfloor : ((A'.m / B'.m : ℕ) : ℚ) ≤ (A'.m : ℚ) / B'.m := Nat.cast_div_le
  have hceil : (A'.m : ℚ) / B'.m < (A'.m / B'.m : ℕ) + 1 := by
    rw [div_lt_iff₀ hBq]
    have h : A'.m < (A'.m / B'.m + 1) * B'.m := by
      rw [add_mul, one_mul, mul_comm]
      omega
    exact_mod_cast h
  obtain ⟨r, hr⟩ : ∃ r : Num, (⟨A.sign ^^ B.sign, (A'.approx || B'.approx) || A'.m % B'.m != 0,
    A'.e - B'.e, A'.m / B'.m⟩ : Num) = r := ⟨_, rfl⟩
  have hrmag : r.mag = (A'.m / B'.m : ℕ) * 10 ^ (A'.e - B'.e) := by
    rw [← hr]
    rfl
  have hrval : r.toRat = (if (A.sign ^^ B.sign) = true then -1 else 1) * r.mag := by
    rw [Num.toRat_eq, ← hr]
  have hre : r.e = A'.e - B'.e := by rw [← hr]
  rw [hr]
  have habs : |A.toRat / B.toRat| = (A'.m : ℚ) / B'.m * 10 ^ (A'.e - B'.e) := by
    rw [hvalue, abs_mul, abs_sign, one_mul, hquot]
    exact abs_of_nonneg (by positivity)
  have hrabs : |r.toRat| = (A'.m / B'.m : ℕ) * 10 ^ (A'.e - B'.e) := by
    rw [hrval, abs_mul, abs_sign, one_mul, hrmag]
    exact abs_of_nonneg (by positivity)
  refine ⟨fun h => ?_, ?_, ?_, fun h => ?_⟩
  · rw [← hr, Bool.or_eq_false_iff, bne_eq_false_iff_eq] at h
    rw [hrval, hvalue, hrmag, hquot, Nat.cast_div (Nat.dvd_of_mod_eq_zero h.2) hBq.ne']
  · rw [habs, hrabs]
    exact mul_le_mul_of_nonneg_right hfloor hu.le
  · rw [habs, hrabs, hre, ← add_one_mul]
    exact mul_lt_mul_of_pos_right hceil hu
  · have hpos : 0 < A.mag / B.mag := by
      have := Num.mag_pos hA0
      have := Num.mag_pos hB0
      positivity
    rw [← hr, hvalue]
    cases A.sign ^^ B.sign
    · simp [hpos.le]
    · simp [hpos]

/-- A third, to nineteen digits. -/
theorem sqlite4_num_div_near_third :
    (sqlite4_num_div ⟨true, false, 0, 1⟩ ⟨false, false, 0, 3⟩).m = 3333333333333333333 ∧
      CutOff (sqlite4_num_div ⟨true, false, 0, 1⟩ ⟨false, false, 0, 3⟩)
        (Num.toRat ⟨true, false, 0, 1⟩ / Num.toRat ⟨false, false, 0, 3⟩) :=
  ⟨by decide +kernel, sqlite4_num_div_near (by decide) (by decide) (by decide) (by decide)
    (by decide) (by decide)⟩

/-! ### Rounding -/

theorem cutDigits_eq (n : ℕ) (x : Num) :
    cutDigits n x = { x with m := x.m / 10 ^ n, e := x.e + n } := by
  induction n generalizing x with
  | zero => simp [cutDigits]
  | succ n ih =>
      rw [cutDigits, ih, Nat.div_div_eq_div_mul, ← pow_succ']
      simp only [Num.mk.injEq, true_and, and_true]
      push_cast
      ring

/-- A magnitude rounded to `N` digits behind the decimal point, halves upwards. -/
def roundTo (N : ℤ) (v : ℚ) : ℚ := ⌊v * 10 ^ N + 1 / 2⌋ * 10 ^ (-N)

theorem roundTo_of_int {N : ℤ} {v : ℚ} {n : ℤ} (h : v * 10 ^ N = n) : roundTo N v = v := by
  have hfloor : ⌊(n : ℚ) + 1 / 2⌋ = n := by
    rw [Int.floor_intCast_add]
    norm_num
  rw [roundTo, h, hfloor, ← h, mul_assoc, ← zpow_add₀ (by norm_num)]
  simp

/-- The quotient that the loop and the last line of `sqlite4_num_round` compute. -/
theorem roundTo_cut (m k : ℕ) {N e : ℤ} (he : e = -(N + 1) - k) :
    roundTo N (m * 10 ^ e) = ((m / 10 ^ k + 5) / 10 : ℕ) * 10 ^ (-N) := by
  have hscale : (m : ℚ) * 10 ^ e * 10 ^ N + 1 / 2 =
      ((m + 5 * 10 ^ k : ℕ) : ℚ) / ((10 ^ (k + 1) : ℕ) : ℚ) := by
    rw [mul_assoc, ← zpow_add₀ (by norm_num), show e + N = -((k + 1 : ℕ) : ℤ) by push_cast; omega,
      zpow_neg, zpow_natCast]
    push_cast
    field_simp
    ring
  have hdiv : (m + 5 * 10 ^ k) / 10 ^ (k + 1) = (m / 10 ^ k + 5) / 10 := by
    rw [pow_succ, ← Nat.div_div_eq_div_mul, Nat.add_mul_div_right _ _ (by positivity)]
  rw [roundTo, hscale]
  congr 1
  rw [← hdiv, Rat.floor_natCast_div_natCast]
  norm_cast

/-- The sum in the last line of `sqlite4_num_round` wraps around for a significand that lost no
digit before. -/
theorem round_wraps_iff {m : ℕ} (hm : m < 2 ^ 64) (k : ℕ) :
    (m / 10 ^ k + 5) % 2 ^ 64 / 10 = (m / 10 ^ k + 5) / 10 ↔ ¬ (k = 0 ∧ 2 ^ 64 - 5 ≤ m) := by
  rcases k with _ | k
  · rw [pow_zero, Nat.div_one]
    omega
  · have hle : m / 10 ^ (k + 1) ≤ m / 10 := by
      rw [pow_succ', ← Nat.div_div_eq_div_mul]
      exact Nat.div_le_self _ _
    rw [Nat.mod_eq_of_lt (by omega)]
    exact iff_of_true rfl (by omega)

/-- **Rounding** is exact, halves away from zero, but for five significands at the top that
wrap around. -/
theorem sqlite4_num_round_iff {x : Num} (hx : x.Finite) (N : ℤ) :
    (sqlite4_num_round x N).toRat =
        (if x.sign then -1 else 1) * roundTo (if N < 0 then 0 else N) x.mag ↔
      ¬ (x.e = -((if N < 0 then 0 else N) + 1) ∧ 2 ^ 64 - 5 ≤ x.m) := by
  obtain ⟨M, hM⟩ : ∃ M, (if N < 0 then 0 else N) = M := ⟨_, rfl⟩
  have hM0 : 0 ≤ M := by
    rw [← hM]
    split_ifs <;> omega
  unfold sqlite4_num_round
  simp only [hM]
  by_cases hge : x.e ≥ -M
  · -- There are no digits to round.
    rw [if_pos hge]
    refine iff_of_true ?_ (by omega)
    obtain ⟨j, hj⟩ : ∃ j : ℕ, x.e + M = j := ⟨(x.e + M).toNat, by omega⟩
    have hint : x.mag * 10 ^ M = ((x.m * 10 ^ j : ℕ) : ℤ) := by
      rw [Num.mag, mul_assoc, ← zpow_add₀ (by norm_num), hj, zpow_natCast]
      push_cast
      rfl
    rw [roundTo_of_int hint, Num.toRat_eq]
  rw [if_neg hge]
  by_cases hlow : x.e < -(M + 30)
  · -- The number is far below the last digit.
    rw [if_pos hlow]
    refine iff_of_true ?_ (by omega)
    have hsmall : x.mag * 10 ^ M < 1 / 2 := by
      have hm : (x.m : ℚ) < 2 ^ 64 := by exact_mod_cast hx.m_lt
      calc x.mag * 10 ^ M = x.m * 10 ^ (x.e + M) := by
            rw [Num.mag, mul_assoc, ← zpow_add₀ (by norm_num)]
        _ ≤ x.m * 10 ^ (-31 : ℤ) := by
            refine mul_le_mul_of_nonneg_left ?_ (Nat.cast_nonneg _)
            exact zpow_le_zpow_right₀ (by norm_num) (by omega)
        _ < 2 ^ 64 * 10 ^ (-31 : ℤ) := mul_lt_mul_of_pos_right hm (by positivity)
        _ < 1 / 2 := by norm_num
    have hfloor : ⌊x.mag * 10 ^ M + 1 / 2⌋ = 0 := by
      rw [Int.floor_eq_zero_iff, Set.mem_Ico]
      have hnonneg := mul_nonneg x.mag_nonneg (show (0 : ℚ) ≤ 10 ^ M by positivity)
      constructor <;> linarith
    rw [roundTo, hfloor, Num.toRat_eq, Num.mag]
    simp
  · rw [if_neg hlow]
    obtain ⟨j, hj⟩ : ∃ j : ℕ, x.e = -(M + 1) - j := ⟨(-(M + 1) - x.e).toNat, by omega⟩
    rw [show (-(M + 1) - x.e).toNat = j by omega, cutDigits_eq]
    have hround := roundTo_cut x.m j hj
    rw [← Num.mag] at hround
    have hsign : (if x.sign = true then -1 else 1 : ℚ) ≠ 0 := by
      split_ifs <;> norm_num
    rw [hround, Num.toRat_eq, Num.mag, show x.e + j + 1 = -M by omega]
    dsimp only
    rw [mul_right_inj' hsign, mul_left_inj' (zpow_ne_zero _ (by norm_num)), Nat.cast_inj,
      round_wraps_iff hx.m_lt j]
    exact not_congr (and_congr_left fun _ => by omega)

/-- Two and a half, rounded to an integer. -/
theorem sqlite4_num_round_iff_half :
    sqlite4_num_round ⟨true, false, -1, 25⟩ (-4) = ⟨true, false, 0, 3⟩ ∧
      ((sqlite4_num_round ⟨true, false, -1, 25⟩ (-4)).toRat =
          (if true then -1 else 1) * roundTo (if (-4 : ℤ) < 0 then 0 else -4)
            (Num.mag ⟨true, false, -1, 25⟩) ↔
        ¬ ((-1 : ℤ) = -((if (-4 : ℤ) < 0 then 0 else -4) + 1) ∧ 2 ^ 64 - 5 ≤ 25)) :=
  ⟨by decide, sqlite4_num_round_iff (by decide) (-4)⟩

/-! ### Integers -/

/-- A value without its digits behind the decimal point. -/
def wholePart (v : ℚ) : ℤ := if v < 0 then ⌈v⌉ else ⌊v⌋

/-- The nearest integer of that many bits. -/
def clampTo (bits : ℕ) (v : ℤ) : ℤ := max (-2 ^ (bits - 1)) (min v (2 ^ (bits - 1) - 1))

theorem clampTo_of_mem {bits : ℕ} {v : ℤ} (h : -2 ^ (bits - 1) ≤ v ∧ v < 2 ^ (bits - 1)) :
    clampTo bits v = v := by
  rw [clampTo, min_eq_left (Int.le_sub_one_of_lt h.2), max_eq_right h.1]

theorem clampTo_of_lt {bits : ℕ} {v : ℤ} (h : v < -2 ^ (bits - 1)) :
    clampTo bits v = -2 ^ (bits - 1) :=
  max_eq_left ((min_le_left _ _).trans h.le)

theorem clampTo_of_gt {bits : ℕ} {v : ℤ} (h : 2 ^ (bits - 1) - 1 < v) :
    clampTo bits v = 2 ^ (bits - 1) - 1 := by
  have hpos : (0 : ℤ) < 2 ^ (bits - 1) := by positivity
  rw [clampTo, min_eq_right h.le, max_eq_right (by omega)]

/-- The value cut off at the decimal point, or the end of the range, and whether that is all of
it. -/
structure Converts (bits : ℕ) (A : Num) (r : ℤ × Bool) : Prop where
  value : r.1 = clampTo bits (wholePart A.toRat)
  lossy : r.2 = true ↔ A.approx = true ∨ (r.1 : ℚ) ≠ A.toRat

theorem wholePart_toRat (A : Num) : wholePart A.toRat = (if A.sign then -1 else 1) * ⌊A.mag⌋ := by
  have hmag := A.mag_nonneg
  rw [wholePart, Num.toRat_eq]
  cases A.sign
  · simp [hmag]
  · by_cases hz : A.mag = 0
    · simp [hz]
    · have hpos : 0 < A.mag := lt_of_le_of_ne hmag (Ne.symm hz)
      simp [hpos, Int.ceil_neg]

theorem timesTen_cases (k m : ℕ) :
    timesTen k m = some (m * 10 ^ k) ∨ timesTen k m = none ∧ 2 ^ 63 < m * 10 ^ k := by
  induction k generalizing m with
  | zero => simp [timesTen]
  | succ k ih =>
      have hpow : m * 10 * 10 ^ k = m * 10 ^ (k + 1) := by
        rw [pow_succ]
        ring
      have hle : m * 10 ≤ m * 10 * 10 ^ k := Nat.le_mul_of_pos_right _ (by positivity)
      unfold timesTen
      split_ifs with h
      · exact .inr ⟨rfl, by omega⟩
      · exact hpow ▸ ih (m * 10)

theorem overTen_spec (k m : ℕ) :
    (overTen k m).1 = m / 10 ^ k ∧ ((overTen k m).2 = false ↔ m % 10 ^ k = 0) := by
  induction k generalizing m with
  | zero => simp [overTen, Nat.mod_one]
  | succ k ih =>
      obtain ⟨h1, h2⟩ := ih (m / 10)
      rw [overTen]
      dsimp only
      rw [h1, Nat.div_div_eq_div_mul, ← pow_succ', Bool.or_eq_false_iff, h2, bne_eq_false_iff_eq,
        pow_succ', Nat.mod_mul]
      exact ⟨rfl, by omega⟩

theorem iterate_div_ten (k m : ℕ) : (· / 10)^[k] m = m / 10 ^ k := by
  induction k generalizing m with
  | zero => simp
  | succ k ih => rw [Function.iterate_succ_apply, ih, Nat.div_div_eq_div_mul, pow_succ']

/-- What the two loops of `sqlite4_num_to_int64` leave: the magnitude cut off at the point, or an
overflow. -/
theorem toInt64_loops (A : Num) : ∃ f : ℕ, ⌊A.mag⌋ = f ∧
    ((timesTen A.e.toNat A.m = none ∧ 2 ^ 63 < f) ∨
      ∃ i, timesTen A.e.toNat A.m = some i ∧ (· / 10)^[(-A.e).toNat] i = f ∧
        (overTen (-A.e).toNat i).1 = f ∧
        ((overTen (-A.e).toNat i).2 = false ↔ (f : ℚ) = A.mag)) := by
  rcases le_total 0 A.e with he | he
  · obtain ⟨k, hk⟩ := Int.eq_ofNat_of_zero_le he
    have hmag : A.mag = (A.m * 10 ^ k : ℕ) := by
      rw [Num.mag, hk, zpow_natCast]
      push_cast
      rfl
    refine ⟨A.m * 10 ^ k, by rw [hmag, Int.floor_natCast], ?_⟩
    rw [show A.e.toNat = k by omega, show (-A.e).toNat = 0 by omega]
    rcases timesTen_cases k A.m with h | ⟨h, hbig⟩
    · exact .inr ⟨_, h, rfl, rfl, by simp [overTen, hmag]⟩
    · exact .inl ⟨h, hbig⟩
  · obtain ⟨k, hk⟩ : ∃ k : ℕ, A.e = -k := ⟨(-A.e).toNat, by omega⟩
    have hmag : A.mag = (A.m : ℚ) / (10 ^ k : ℕ) := by
      rw [Num.mag, hk, zpow_neg, zpow_natCast]
      push_cast
      rfl
    refine ⟨A.m / 10 ^ k, by rw [hmag, Rat.floor_natCast_div_natCast]; norm_cast, .inr ⟨A.m, ?_⟩⟩
    rw [show A.e.toNat = 0 by omega, show (-A.e).toNat = k by omega]
    obtain ⟨h1, h2⟩ := overTen_spec k A.m
    refine ⟨rfl, iterate_div_ten k A.m, h1, ?_⟩
    have hpos : ((10 ^ k : ℕ) : ℚ) ≠ 0 := by positivity
    rw [h2, hmag, eq_div_iff hpos, ← Nat.cast_mul, Nat.cast_inj]
    have hdiv := Nat.div_add_mod' A.m (10 ^ k)
    omega

/-- The largest magnitude of an `sqlite4_int64` of that sign. -/
def largestInt (sign : Bool) : ℕ := if sign then 2 ^ 63 else 2 ^ 63 - 1

@[simp] theorem largestInt_true : largestInt true = 2 ^ 63 := rfl

@[simp] theorem largestInt_false : largestInt false = 2 ^ 63 - 1 := rfl

/-- The two ways through `sqlite4_num_to_int64`. -/
theorem toInt64_ways (A : Num) : ∃ f : ℕ, ⌊A.mag⌋ = f ∧
    ((largestInt A.sign < f ∧ toInt64Lossy A = true ∧
        sqlite4_num_to_int64 A = (if A.sign then -1 else 1) * (largestInt A.sign : ℕ)) ∨
      f ≤ largestInt A.sign ∧ sqlite4_num_to_int64 A = (if A.sign then -1 else 1) * (f : ℕ) ∧
        (toInt64Lossy A = false ↔ A.approx = false ∧ (f : ℚ) = A.mag)) := by
  obtain ⟨f, hf, hloops⟩ := toInt64_loops A
  refine ⟨f, hf, ?_⟩
  unfold sqlite4_num_to_int64 toInt64Lossy
  rcases hloops with ⟨h, hbig⟩ | ⟨i, h, hcut, hcut', hexact⟩
  · left
    rw [h]
    cases A.sign
    · exact ⟨by show 2 ^ 63 - 1 < f; omega, rfl, rfl⟩
    · exact ⟨hbig, rfl, rfl⟩
  · rw [h]
    dsimp only
    rw [hcut, hcut']
    by_cases hbig : largestInt A.sign < f
    · left
      refine ⟨hbig, ?_, ?_⟩
      · rw [decide_eq_true (by exact hbig), Bool.or_true]
      · cases hs : A.sign <;> rw [hs] at hbig
        · simp only [largestInt_false, Bool.false_eq_true, if_false] at hbig ⊢
          rw [if_pos (by omega)]
          norm_num
        · simp only [largestInt_true, if_true] at hbig ⊢
          rw [if_pos hbig]
          norm_num
    · right
      refine ⟨not_lt.mp hbig, ?_, ?_⟩
      · cases hs : A.sign <;> rw [hs] at hbig
        · simp only [largestInt_false, Bool.false_eq_true, if_false] at hbig ⊢
          rw [if_neg (by omega), one_mul]
        · simp only [largestInt_true, if_true] at hbig ⊢
          rw [if_neg hbig, neg_one_mul]
      · rw [← hexact, decide_eq_false (by exact hbig), Bool.or_false, Bool.or_eq_false_iff]

/-- **`sqlite4_num_to_int64`** rounds towards zero and clamps, and reports every loss. -/
theorem sqlite4_num_to_int64_converts (A : Num) :
    Converts 64 A (sqlite4_num_to_int64 A, toInt64Lossy A) := by
  obtain ⟨f, hf, hways⟩ := toInt64_ways A
  have htrunc := wholePart_toRat A
  rw [hf] at htrunc
  have hle : (f : ℚ) ≤ A.mag := by
    have := Int.floor_le A.mag
    rwa [hf] at this
  have hsign : (if A.sign = true then -1 else 1 : ℚ) ≠ 0 := by
    split_ifs <;> norm_num
  have hcast : ∀ n : ℕ, (((if A.sign = true then -1 else 1) * (n : ℤ) : ℤ) : ℚ) =
      (if A.sign = true then -1 else 1) * (n : ℚ) := by
    intro n
    split_ifs <;> simp
  rcases hways with ⟨hbig, hlossy, hr⟩ | ⟨hfit, hr, hlossy⟩
  · refine ⟨?_, ?_⟩
    · dsimp only
      rw [htrunc, hr]
      cases hs : A.sign <;> rw [hs] at hbig
      · simp only [largestInt_false, Bool.false_eq_true, if_false, one_mul] at hbig ⊢
        rw [clampTo_of_gt (by omega)]
        norm_num
      · simp only [largestInt_true, if_true, neg_one_mul] at hbig ⊢
        rw [clampTo_of_lt (by omega)]
        norm_num
    · refine iff_of_true hlossy (.inr ?_)
      dsimp only
      rw [hr, hcast, Num.toRat_eq, Ne, mul_right_inj' hsign]
      exact ne_of_lt (lt_of_lt_of_le (by exact_mod_cast hbig) hle)
  · refine ⟨?_, ?_⟩
    · dsimp only
      rw [htrunc, hr, clampTo_of_mem]
      cases hs : A.sign <;> rw [hs] at hfit
      · simp only [largestInt_false, Bool.false_eq_true, if_false, one_mul] at hfit ⊢
        omega
      · simp only [largestInt_true, if_true, neg_one_mul] at hfit ⊢
        omega
    · dsimp only
      rw [hr, hcast, Num.toRat_eq, Ne, mul_right_inj' hsign, ← not_iff_not, Bool.not_eq_true,
        hlossy, not_or, Bool.not_eq_true, not_not]

/-- **Conversions to integers** round towards zero and clamp, and they report every loss. -/
theorem sqlite4_num_to_int_converts (A : Num) :
    Converts 64 A (sqlite4_num_to_int64 A, toInt64Lossy A) ∧
      Converts 32 A (sqlite4_num_to_int32 A) := by
  have h := sqlite4_num_to_int64_converts A
  refine ⟨h, ?_⟩
  have hvalue := h.value
  dsimp only at hvalue
  -- a value that is an integer is its own truncation
  have hexact : ∀ r : ℤ, (r : ℚ) = A.toRat → r = wholePart A.toRat := by
    intro r hr
    rw [← hr, wholePart]
    split_ifs <;> simp
  unfold sqlite4_num_to_int32
  rw [clampTo] at hvalue
  dsimp only
  split_ifs with hlow hhigh
  · refine ⟨by rw [clampTo]; dsimp only; omega, iff_of_true rfl (.inr fun hr => ?_)⟩
    have := hexact _ hr
    dsimp only at this
    omega
  · refine ⟨by rw [clampTo]; dsimp only; omega, iff_of_true rfl (.inr fun hr => ?_)⟩
    have := hexact _ hr
    dsimp only at this
    omega
  · exact ⟨by rw [clampTo]; dsimp only; omega, h.lossy⟩

end MoVeBench
