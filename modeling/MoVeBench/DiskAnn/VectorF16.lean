/-
MoVeBench/DiskAnn/VectorF16.lean

Half-precision components (`vectorF16ToFloat` and `vectorF16FromFloat` of
`vectorfloat16.c`, and the BFLOAT16 conversions of `vectorfloatb16.c`).

A `float` and a half are given by their bits.  Both formats count units of their least
positive number (`NearestEven.units`); a half counts units that are `2 ^ 125` times those of
a `float`.  Infinity takes the place of the next number, which is how IEEE defines overflow.

* A half becomes the `float` of the same value (`vectorF16ToFloat_units`).
* A `float` becomes the nearest half, ties to even, but for values in the denormal range:
  there the mantissa is shifted before it is rounded, and the bits that the shift drops no
  longer break a tie (`stickyBitsDropped`).
-/
import MoVeBench.Lib.NearestEven

namespace MoVeBench

open NearestEven

/-! ### The conversions -/

/-- `while( (mnt & 0x400) == 0 ){ mnt <<= 1; exp--; }`, for so many turns at most. -/
def shiftToHighBit : ℕ → ℤ → ℕ → ℤ × ℕ
  | 0, exp, mnt => (exp, mnt)
  | fuel + 1, exp, mnt =>
      if mnt &&& 0x400 = 0 then shiftToHighBit fuel (exp - 1) (mnt <<< 1) else (exp, mnt)

/-- The exponent and the mantissa of the `float`, from those of the half. -/
def f16Widen (exp : ℤ) (mnt : ℕ) : ℤ × ℕ :=
  let mntNonZero := if mnt = 0 then 0 else 1
  if exp = 16 then (128, mntNonZero <<< 22)
  else if exp = -15 ∧ mnt = 0 then (-127, 0)
  else if exp = -15 then
    let (exp, mnt) := shiftToHighBit 10 (exp + 1) mnt
    (exp, (mnt &&& 0x3ff) <<< 13)
  else (exp, mnt <<< 13)

/-- `vectorF16ToFloat`. -/
def vectorF16ToFloat (f16 : UInt16) : UInt32 :=
  let f16 := f16.toNat
  let sgn := (f16 &&& 0x8000) <<< 16
  let expBits := (f16 >>> 10) &&& 0x1f
  let (exp, mnt) := f16Widen (expBits - 15) (f16 &&& 0x3ff)
  .ofNat (sgn ||| (exp + 127).toNat <<< 23 ||| mnt)

/-- The exponent and the mantissa before rounding, from those of the `float`. -/
def f16Narrow (exp : ℤ) (mntBits : ℕ) : ℤ × ℕ :=
  let mntNonZero := if mntBits = 0 then 0 else 1
  if exp = 128 then (16, mntNonZero <<< 22)
  else if exp > 15 then (16, 0)
  else if exp < -14 ∧ exp ≥ -25 then (-15, (mntBits ||| 0x800000) >>> (-exp - 14).toNat)
  else if exp < -24 then (-15, 0)
  else (exp, mntBits)

/-- `round to nearest, ties to even`, and the mantissa of the half. -/
def f16Round (mntBits : ℕ) : ℕ :=
  (if mntBits &&& 0x1fff > 0x1000 - ((mntBits >>> 13) &&& 1) then mntBits + 0x2000
    else mntBits) >>> 13

/-- `vectorF16FromFloat`. -/
def vectorF16FromFloat (f : UInt32) : UInt16 :=
  let i := f.toNat
  let sgn := (i >>> 16) &&& 0x8000
  let expBits := (i >>> 23) &&& 0xff
  let (exp, mntBits) := f16Narrow (expBits - 127) (i &&& 0x7fffff)
  let mnt := f16Round mntBits
  .ofNat (sgn ||| (exp + (15 : ℤ) + ((mnt >>> 10 : ℕ) : ℤ)).toNat <<< 10 ||| (mnt &&& 0x3ff))

/-- `vectorFB16ToFloat`. -/
def vectorFB16ToFloat (f16 : UInt16) : UInt32 := .ofNat (f16.toNat <<< 16)

/-- `vectorFB16FromFloat`. -/
def vectorFB16FromFloat (f : UInt32) : UInt16 := .ofNat (f.toNat >>> 16)

/-! ### The bits of a `float` -/

/-- Sign bit, and what is left of a pattern of `w + 1` bits. -/
theorem and_signBit {i w : ℕ} (h : i < 2 ^ (w + 1)) : i &&& 2 ^ w = i / 2 ^ w * 2 ^ w := by
  have hlt : i / 2 ^ w < 2 := Nat.div_lt_of_lt_mul (by rwa [pow_succ] at h)
  generalize hq : i / 2 ^ w = q at hlt ⊢
  rw [Nat.and_two_pow, Nat.testBit_eq_decide_div_mod_eq]
  rw [hq]
  interval_cases q <;> rfl

/-- Fields side by side are added. -/
theorem or_fields {s a b p q : ℕ} (hb : b < 2 ^ p) (ha : a < 2 ^ q) :
    (s * 2 ^ (p + q) ||| a <<< p ||| b) = s * 2 ^ (p + q) + (a * 2 ^ p + b) := by
  have hab : a * 2 ^ p + b < 2 ^ (p + q) := by
    have : (a + 1) * 2 ^ p ≤ 2 ^ q * 2 ^ p := Nat.mul_le_mul_right _ ha
    rw [pow_add, Nat.mul_comm (2 ^ p)]
    rw [Nat.add_mul] at this
    omega
  rw [Nat.or_assoc, ← Nat.shiftLeft_add_eq_or_of_lt hb, Nat.shiftLeft_eq a,
    ← Nat.shiftLeft_eq s, ← Nat.shiftLeft_add_eq_or_of_lt hab, Nat.shiftLeft_eq]

theorem f16Round_eq (M : ℕ) :
    f16Round M = M / 2 ^ 13 + if 0x1000 - M / 2 ^ 13 % 2 < M % 2 ^ 13 then 1 else 0 := by
  have hmask : M &&& 0x1fff = M % 2 ^ 13 := Nat.and_two_pow_sub_one_eq_mod M 13
  have hodd : (M >>> 13) &&& 1 = M / 2 ^ 13 % 2 := by
    rw [Nat.and_one_is_mod, Nat.shiftRight_eq_div_pow]
  rw [f16Round, hmask, hodd, Nat.shiftRight_eq_div_pow]
  split_ifs <;> omega

/-- **The half is put together** from sign, exponent and mantissa; a mantissa that rounds up
to the next power of two is carried into the exponent. -/
theorem vectorF16FromFloat_toNat {f : UInt32} {E M : ℕ}
    (hE : f16Narrow ((f.toNat / 2 ^ 23 % 2 ^ 8 : ℕ) - 127) (f.toNat % 2 ^ 23) = ((E : ℤ) - 15, M))
    (hlt : E * 2 ^ 10 + f16Round M < 2 ^ 15) :
    (vectorF16FromFloat f).toNat = f.toNat / 2 ^ 31 * 2 ^ 15 + (E * 2 ^ 10 + f16Round M) := by
  have hf := f.toNat_lt
  have hsgn : (f.toNat >>> 16) &&& 0x8000 = f.toNat / 2 ^ 31 * 2 ^ (10 + 5) := by
    rw [Nat.shiftRight_eq_div_pow]
    refine (and_signBit (w := 15) (by omega)).trans ?_
    rw [Nat.div_div_eq_div_mul]
    exact rfl
  have hexp : (f.toNat >>> 23) &&& 0xff = f.toNat / 2 ^ 23 % 2 ^ 8 := by
    rw [Nat.shiftRight_eq_div_pow]
    exact Nat.and_two_pow_sub_one_eq_mod _ 8
  have hmnt : f.toNat &&& 0x7fffff = f.toNat % 2 ^ 23 := Nat.and_two_pow_sub_one_eq_mod _ 23
  have hcarry : ((E : ℤ) - (15 : ℤ) + (15 : ℤ) + ((f16Round M >>> 10 : ℕ) : ℤ)).toNat =
      E + f16Round M / 2 ^ 10 := by
    rw [Nat.shiftRight_eq_div_pow]
    omega
  have hlow : f16Round M &&& 0x3ff = f16Round M % 2 ^ 10 := Nat.and_two_pow_sub_one_eq_mod _ 10
  unfold vectorF16FromFloat
  dsimp only
  rw [hsgn, hexp, hmnt, hE]
  dsimp only
  rw [hcarry, hlow, or_fields (Nat.mod_lt _ (by omega)) (by omega), UInt16.toNat_ofNat']
  omega

/-! ### Nearest halves -/

/-- Value of the half with magnitude `n`, in units of the least positive `float`. -/
def f16Value (n : ℕ) : ℤ := units 10 n * 2 ^ 125

/-- Value of the `float` with magnitude `m`, in units of the least positive `float`. -/
def f32Value (m : ℕ) : ℤ := units 23 m

theorem f16Value_strictMono : StrictMono f16Value := by
  intro a b hab
  have : units 10 a < units 10 b := units_strictMono 10 hab
  exact mul_lt_mul_of_pos_right (by exact_mod_cast this) (by positivity)

/-- `h` is what IEEE makes of `f`: the sign is kept, NaN is NaN, infinity is infinity, and
a number is the nearest half, ties to even, with infinity in the place of `2 ^ 16`. -/
structure RoundsToHalf (f : UInt32) (h : UInt16) : Prop where
  sign : h.toNat / 2 ^ 15 = f.toNat / 2 ^ 31
  nan : 0x7f800000 < f.toNat % 2 ^ 31 → 0x7c00 < h.toNat % 2 ^ 15
  inf : f.toNat % 2 ^ 31 = 0x7f800000 → h.toNat % 2 ^ 15 = 0x7c00
  finite : f.toNat % 2 ^ 31 < 0x7f800000 →
    Nearest f16Value 0x7c00 (f32Value (f.toNat % 2 ^ 31)) (h.toNat % 2 ^ 15)

/-- The value lies in the denormal range of halves, and just above the midpoint of an even
half and the next one: what tells it from the midpoint are bits that the shift of the
mantissa drops. -/
def StickyBitsDropped (f : UInt32) : Prop :=
  let expBits := f.toNat / 2 ^ 23 % 2 ^ 8
  let mnt := 2 ^ 23 + f.toNat % 2 ^ 23
  102 ≤ expBits ∧ expBits ≤ 112 ∧
    mnt / 2 ^ (113 - expBits) % 2 ^ 14 = 2 ^ 12 ∧ mnt % 2 ^ (113 - expBits) ≠ 0

instance (f : UInt32) : Decidable (StickyBitsDropped f) :=
  inferInstanceAs (Decidable (_ ∧ _ ∧ _ ∧ _))

section Finite

variable {f : UInt32} {E M : ℕ}
  (hE : f16Narrow ((f.toNat / 2 ^ 23 % 2 ^ 8 : ℕ) - 127) (f.toNat % 2 ^ 23) = ((E : ℤ) - 15, M))
include hE

/-- The magnitude of the half is the nearest one. -/
theorem roundsToHalf_iff (hfin : f.toNat % 2 ^ 31 < 0x7f800000)
    (hlt : E * 2 ^ 10 + f16Round M < 2 ^ 15) {n : ℕ}
    (hn : Nearest f16Value 0x7c00 (f32Value (f.toNat % 2 ^ 31)) n) :
    RoundsToHalf f (vectorF16FromFloat f) ↔ E * 2 ^ 10 + f16Round M = n := by
  have hto := vectorF16FromFloat_toNat hE hlt
  have hf := f.toNat_lt
  constructor
  · intro h
    have hfinite := h.finite hfin
    rw [hto, show (f.toNat / 2 ^ 31 * 2 ^ 15 + (E * 2 ^ 10 + f16Round M)) % 2 ^ 15 =
      E * 2 ^ 10 + f16Round M by omega] at hfinite
    exact hfinite.unique f16Value_strictMono hn
  · intro heq
    rw [← heq] at hn
    refine ⟨by omega, fun h => by omega, fun h => by omega, fun _ => ?_⟩
    rwa [hto, show (f.toNat / 2 ^ 31 * 2 ^ 15 + (E * 2 ^ 10 + f16Round M)) % 2 ^ 15 =
      E * 2 ^ 10 + f16Round M by omega]

end Finite

/-! ### Rounding a mantissa that was shifted -/

/-- **Rounding after the shift** is rounding of the whole mantissa, unless the shift drops
set bits behind a mantissa that lies on a midpoint above an even number. -/
theorem f16Round_shift (F s : ℕ) :
    f16Round (F / 2 ^ s) = (F / 2 ^ (s + 13) +
        if 2 ^ (s + 13) < 2 * (F % 2 ^ (s + 13)) ∨
          2 ^ (s + 13) = 2 * (F % 2 ^ (s + 13)) ∧ F / 2 ^ (s + 13) % 2 = 1 then 1 else 0) ↔
      ¬(F / 2 ^ s % 2 ^ 14 = 2 ^ 12 ∧ F % 2 ^ s ≠ 0) := by
  have hS : 0 < 2 ^ s := Nat.two_pow_pos s
  have hD : 2 ^ (s + 13) = 2 ^ s * 2 ^ 13 := pow_add 2 s 13
  have hdiv : F / 2 ^ (s + 13) = F / 2 ^ s / 2 ^ 13 := by rw [hD, Nat.div_div_eq_div_mul]
  have hmod : F % 2 ^ (s + 13) = F / 2 ^ s % 2 ^ 13 * 2 ^ s + F % 2 ^ s := by
    rw [hD, Nat.mod_mul]
    ring
  have hd : F % 2 ^ s < 2 ^ s := Nat.mod_lt F hS
  rw [f16Round_eq, hdiv, hmod, hD]
  generalize F / 2 ^ s = M at *
  generalize F % 2 ^ s = d at *
  generalize 2 ^ s = S at *
  have hr : M % 2 ^ 13 < 2 ^ 13 := Nat.mod_lt M (by omega)
  have h14 : M % 2 ^ 14 = M % 2 ^ 13 + 2 ^ 13 * (M / 2 ^ 13 % 2) := by
    rw [pow_succ]
    exact Nat.mod_mul
  generalize M % 2 ^ 13 = r at *
  generalize M / 2 ^ 13 = q at *
  -- the bits behind the half's mantissa, against the midpoint
  rcases Nat.lt_trichotomy r (2 ^ 12) with hlow | rfl | hhigh
  · have : (r + 1) * S ≤ 2 ^ 12 * S := Nat.mul_le_mul_right S hlow
    have hS' : 2 * (r * S + d) < S * 2 ^ 13 := by
      rw [Nat.add_mul] at this
      omega
    rw [if_neg (by omega), if_neg (by omega)]
    exact iff_of_true rfl (by omega)
  · rcases Nat.eq_zero_or_pos d with rfl | hpos
    · refine iff_of_true (congrArg (q + ·) (if_congr ?_ rfl rfl)) (by omega)
      omega
    · rw [if_pos (c := S * 2 ^ 13 < _ ∨ _) (Or.inl (by omega))]
      split_ifs <;> omega
  · have : (2 ^ 12 + 1) * S ≤ r * S := Nat.mul_le_mul_right S hhigh
    rw [if_pos (by omega), if_pos (Or.inl (by omega))]
    exact iff_of_true rfl (by omega)

/-! ### The ranges of exponents -/

theorem f16Narrow_big {e g : ℕ} (h : 143 ≤ e) (he : e < 255) :
    f16Narrow ((e : ℤ) - 127) g = (((31 : ℕ) : ℤ) - 15, 0) := by
  rw [f16Narrow, if_neg (by omega), if_pos (by omega)]
  rfl

theorem f16Narrow_normal {e g : ℕ} (h : 113 ≤ e) (he : e < 143) :
    f16Narrow ((e : ℤ) - 127) g = (((e - 112 : ℕ) : ℤ) - 15, g) := by
  rw [f16Narrow, if_neg (by omega), if_neg (by omega), if_neg (by omega), if_neg (by omega)]
  exact Prod.ext (by dsimp only; omega) rfl

theorem f16Narrow_denormal {e g : ℕ} (hg : g < 2 ^ 23) (h : 102 ≤ e) (he : e < 113) :
    f16Narrow ((e : ℤ) - 127) g = (((0 : ℕ) : ℤ) - 15, (2 ^ 23 + g) / 2 ^ (113 - e)) := by
  have hor : g ||| 0x800000 = 2 ^ 23 + g := by
    rw [Nat.or_comm]
    exact (Nat.shiftLeft_add_eq_or_of_lt hg 1).symm
  rw [f16Narrow, if_neg (by omega), if_neg (by omega), if_pos (by omega), hor,
    Nat.shiftRight_eq_div_pow, show (-((e : ℤ) - 127) - 14).toNat = 113 - e by omega]
  rfl

theorem f16Narrow_small {e g : ℕ} (he : e < 102) :
    f16Narrow ((e : ℤ) - 127) g = (((0 : ℕ) : ℤ) - 15, 0) := by
  rw [f16Narrow, if_neg (by omega), if_neg (by omega), if_neg (by omega), if_pos (by omega)]
  rfl

theorem f32Value_exponent {e g : ℕ} (he : 1 ≤ e) (hg : g < 2 ^ 23) :
    f32Value (e * 2 ^ 23 + g) = ((2 ^ 23 + g : ℕ) : ℤ) * 2 ^ (e - 1) := by
  obtain ⟨e, rfl⟩ : ∃ e', e = e' + 1 := ⟨e - 1, by omega⟩
  rw [f32Value, units_of_exponent hg, Nat.add_sub_cancel]
  push_cast
  rfl

/-- **The nearest half** of a mantissa that is cut behind its bit `s + 13`. -/
theorem nearest_half {e g k s : ℕ} (he : 1 ≤ e) (hg : g < 2 ^ 23) (hk : k + 1 ≤ 0x7c00)
    (hlow : units 10 k * 2 ^ 125 = (2 ^ 23 + g) / 2 ^ (s + 13) * 2 ^ (s + 13) * 2 ^ (e - 1))
    (hstep : 2 ^ (k / 2 ^ 10 - 1) * 2 ^ 125 = 2 ^ (s + 13) * 2 ^ (e - 1))
    (hodd : k % 2 = (2 ^ 23 + g) / 2 ^ (s + 13) % 2) :
    Nearest f16Value 0x7c00 (f32Value (e * 2 ^ 23 + g))
      (k + if 2 ^ (s + 13) < 2 * ((2 ^ 23 + g) % 2 ^ (s + 13)) ∨
        2 ^ (s + 13) = 2 * ((2 ^ 23 + g) % 2 ^ (s + 13)) ∧
          (2 ^ 23 + g) / 2 ^ (s + 13) % 2 = 1 then 1 else 0) := by
  have hP : (0 : ℤ) < 2 ^ (e - 1) := by positivity
  have hv : f16Value k = (((2 ^ 23 + g) / 2 ^ (s + 13) * 2 ^ (s + 13) : ℕ) : ℤ) * 2 ^ (e - 1) := by
    rw [f16Value]
    exact_mod_cast hlow
  have hv' : f16Value (k + 1) =
      (((2 ^ 23 + g) / 2 ^ (s + 13) * 2 ^ (s + 13) + 2 ^ (s + 13) : ℕ) : ℤ) * 2 ^ (e - 1) := by
    rw [f16Value, units_succ]
    have : (units 10 k + 2 ^ (k / 2 ^ 10 - 1)) * 2 ^ 125 =
        ((2 ^ 23 + g) / 2 ^ (s + 13) * 2 ^ (s + 13) + 2 ^ (s + 13)) * 2 ^ (e - 1) := by
      rw [Nat.add_mul, Nat.add_mul, hlow, hstep]
    exact_mod_cast this
  have key := nearest_div f16Value_strictMono hP hk (Nat.two_pow_pos (s + 13))
    (f32Value_exponent he hg) hv hv'
  rw [hodd] at key
  split_ifs at key ⊢ <;> exact key

section Ranges

variable {e g : ℕ} (hg : g < 2 ^ 23)
include hg

theorem nearest_big (h : 143 ≤ e) :
    Nearest f16Value 0x7c00 (f32Value (e * 2 ^ 23 + g)) 0x7c00 := by
  refine nearest_top f16Value_strictMono ?_
  have hle : units 23 ((142 + 1) * 2 ^ 23 + 0) ≤ units 23 (e * 2 ^ 23 + g) :=
    (units_strictMono 23).monotone (by omega)
  rw [units_of_exponent (by omega)] at hle
  rw [f16Value, f32Value, show (0x7c00 : ℕ) = (30 + 1) * 2 ^ 10 + 0 by rfl,
    units_of_exponent (by omega)]
  have : (2 ^ 10 + 0) * 2 ^ 30 * 2 ^ 125 ≤ units 23 (e * 2 ^ 23 + g) := le_trans (by norm_num) hle
  exact_mod_cast this

theorem nearest_normal (h : 113 ≤ e) (he : e < 143) :
    Nearest f16Value 0x7c00 (f32Value (e * 2 ^ 23 + g)) ((e - 112) * 2 ^ 10 + f16Round g) := by
  have hshift := (f16Round_shift (2 ^ 23 + g) 0).mpr (by rw [pow_zero, Nat.mod_one]; omega)
  have hround : f16Round ((2 ^ 23 + g) / 2 ^ 0) = 2 ^ 10 + f16Round g := by
    rw [pow_zero, Nat.div_one, f16Round_eq, f16Round_eq]
    rw [show (2 ^ 23 + g) / 2 ^ 13 = 2 ^ 10 + g / 2 ^ 13 by omega,
      show (2 ^ 23 + g) % 2 ^ 13 = g % 2 ^ 13 by omega,
      show (2 ^ 10 + g / 2 ^ 13) % 2 = g / 2 ^ 13 % 2 by omega, Nat.add_assoc]
  have hq : (2 ^ 23 + g) / 2 ^ (0 + 13) = 2 ^ 10 + g / 2 ^ 13 := by
    rw [Nat.zero_add]
    omega
  have hpow : 2 ^ (e - 113) * 2 ^ 125 = 2 ^ (0 + 13) * 2 ^ (e - 1) := by
    rw [← pow_add, ← pow_add]
    exact congrArg (2 ^ ·) (by omega)
  have key := nearest_half (e := e) (k := (e - 113 + 1) * 2 ^ 10 + g / 2 ^ 13) (s := 0)
    (by omega) hg (by omega) ?_ ?_ (by rw [hq]; omega)
  · rw [hround, hq] at hshift
    rw [hq, Nat.add_assoc, ← Nat.add_left_cancel (hshift.trans (Nat.add_assoc _ _ _))] at key
    rwa [show e - 112 = e - 113 + 1 by omega]
  · rw [units_of_exponent (by omega), hq, Nat.mul_assoc, Nat.mul_assoc, hpow]
  · rw [← hpow, show ((e - 113 + 1) * 2 ^ 10 + g / 2 ^ 13) / 2 ^ 10 - 1 = e - 113 by omega]

theorem nearest_denormal (h : 102 ≤ e) (he : e < 113) :
    Nearest f16Value 0x7c00 (f32Value (e * 2 ^ 23 + g))
      ((2 ^ 23 + g) / 2 ^ (113 - e + 13) +
        if 2 ^ (113 - e + 13) < 2 * ((2 ^ 23 + g) % 2 ^ (113 - e + 13)) ∨
          2 ^ (113 - e + 13) = 2 * ((2 ^ 23 + g) % 2 ^ (113 - e + 13)) ∧
            (2 ^ 23 + g) / 2 ^ (113 - e + 13) % 2 = 1 then 1 else 0) := by
  have hpow : 2 ^ 125 = 2 ^ (113 - e + 13) * 2 ^ (e - 1) := by
    rw [← pow_add]
    exact congrArg (2 ^ ·) (by omega)
  have hlt : (2 ^ 23 + g) / 2 ^ (113 - e + 13) < 2 ^ 10 := by
    refine Nat.div_lt_of_lt_mul ?_
    have : 2 ^ 14 ≤ 2 ^ (113 - e + 13) := Nat.pow_le_pow_right (by omega) (by omega)
    have := Nat.mul_le_mul_right (2 ^ 10) this
    omega
  refine nearest_half (by omega) hg (by omega) ?_ ?_ rfl
  · rw [units_of_lt hlt, hpow, Nat.mul_assoc]
  · rw [← hpow, Nat.div_eq_of_lt hlt]
    rfl

theorem nearest_small (he : e < 102) : Nearest f16Value 0x7c00 (f32Value (e * 2 ^ 23 + g)) 0 := by
  have hlt : units 23 (e * 2 ^ 23 + g) < units 23 ((101 + 1) * 2 ^ 23 + 0) :=
    units_strictMono 23 (by omega)
  rw [units_of_exponent (by omega)] at hlt
  have h0 : f16Value 0 = 0 := rfl
  have h1 : f16Value (0 + 1) = 2 ^ 125 := by
    rw [f16Value, units_of_lt (by omega)]
    rfl
  refine nearest_lower f16Value_strictMono (by omega) ?_ (Or.inl ?_)
  · rw [h0]
    exact Int.natCast_nonneg _
  · rw [h0, h1, f32Value]
    have : units 23 (e * 2 ^ 23 + g) * 2 < 2 ^ 125 := by
      calc units 23 (e * 2 ^ 23 + g) * 2 < (2 ^ 23 + 0) * 2 ^ 101 * 2 :=
            Nat.mul_lt_mul_of_pos_right hlt (by omega)
        _ = 2 ^ 125 := by norm_num
    zify at this
    linarith

end Ranges

/-! ### From `float` to half -/

/-- **When the nearest half is found.**  Every `float` becomes the half that IEEE asks for,
but for the values whose sticky bits are dropped. -/
theorem roundsToHalf_fromFloat (f : UInt32) :
    RoundsToHalf f (vectorF16FromFloat f) ↔ ¬StickyBitsDropped f := by
  have hf := f.toNat_lt
  have hm : f.toNat % 2 ^ 31 = f.toNat / 2 ^ 23 % 2 ^ 8 * 2 ^ 23 + f.toNat % 2 ^ 23 := by omega
  have hg : f.toNat % 2 ^ 23 < 2 ^ 23 := Nat.mod_lt _ (by omega)
  have he : f.toNat / 2 ^ 23 % 2 ^ 8 < 2 ^ 8 := Nat.mod_lt _ (by omega)
  have hE := @vectorF16FromFloat_toNat f
  have hiff := @roundsToHalf_iff f
  unfold StickyBitsDropped
  dsimp only
  rw [hm] at hiff
  generalize hge : f.toNat / 2 ^ 23 % 2 ^ 8 = e at *
  generalize hgg : f.toNat % 2 ^ 23 = g at *
  have hround0 : f16Round 0 = 0 := by decide
  rcases (by omega : e = 255 ∨ (143 ≤ e ∧ e < 255) ∨ (113 ≤ e ∧ e < 143) ∨
    (102 ≤ e ∧ e < 113) ∨ e < 102) with rfl | ⟨h, h'⟩ | ⟨h, h'⟩ | ⟨h, h'⟩ | h
  · -- NaN and infinity
    refine iff_of_true ?_ (by omega)
    have hround : f16Round ((if g = 0 then 0 else 1) <<< 22) = if g = 0 then 0 else 512 := by
      split_ifs <;> decide
    have hto := hE (E := 31) rfl (by rw [hround]; split_ifs <;> omega)
    rw [hround] at hto
    refine ⟨?_, fun h => ?_, fun h => ?_, fun h => by omega⟩
    all_goals split_ifs at hto <;> omega
  · refine iff_of_true ((hiff (f16Narrow_big h h') (by omega) (by rw [hround0]; omega)
      (nearest_big hg h)).mpr (by rw [hround0]; rfl)) (by omega)
  · have hle := (nearest_normal hg h h').le
    exact iff_of_true ((hiff (f16Narrow_normal h h') (by omega) (by omega)
      (nearest_normal hg h h')).mpr rfl) (by omega)
  · have hfin : e * 2 ^ 23 + g < 0x7f800000 := by omega
    have hle' : e ≤ 112 := by omega
    have hle : f16Round ((2 ^ 23 + g) / 2 ^ (113 - e)) ≤ 2 ^ 10 := by
      have : (2 ^ 23 + g) / 2 ^ (113 - e) < 2 ^ 23 := by
        refine Nat.div_lt_of_lt_mul ?_
        have : 2 ^ 1 ≤ 2 ^ (113 - e) := Nat.pow_le_pow_right (by omega) (by omega)
        omega
      rw [f16Round_eq]
      split_ifs <;> omega
    have hlt : 0 * 2 ^ 10 + f16Round ((2 ^ 23 + g) / 2 ^ (113 - e)) < 2 ^ 15 := by
      rw [Nat.zero_mul, Nat.zero_add]
      exact lt_of_le_of_lt hle (by norm_num)
    have hdenormal := hiff (f16Narrow_denormal hg h h') hfin hlt (nearest_denormal hg h h')
    rw [Nat.zero_mul, Nat.zero_add, f16Round_shift] at hdenormal
    exact hdenormal.trans (not_congr ⟨fun hs => ⟨h, hle', hs⟩, fun hs => hs.2.2⟩)
  · have hfin : e * 2 ^ 23 + g < 0x7f800000 := by omega
    have hlt : 0 * 2 ^ 10 + f16Round 0 < 2 ^ 15 := by decide
    exact iff_of_true ((hiff (f16Narrow_small h) hfin hlt (nearest_small hg h)).mpr
      (by rw [hround0]; rfl)) fun hs => Nat.not_le_of_lt h hs.1

/-! ### From half to `float`, and back -/

theorem shiftToHighBit_spec (fuel mnt : ℕ) (exp : ℤ) (hlt : mnt < 2 ^ 11)
    (hhigh : 2 ^ 10 ≤ mnt * 2 ^ fuel) :
    ∃ j ≤ fuel, shiftToHighBit fuel exp mnt = (exp - j, mnt * 2 ^ j) ∧
      2 ^ 10 ≤ mnt * 2 ^ j ∧ mnt * 2 ^ j < 2 ^ 11 := by
  induction fuel generalizing exp mnt with
  | zero => exact ⟨0, le_rfl, by simp [shiftToHighBit], by omega, by omega⟩
  | succ fuel ih =>
      have hbit : mnt &&& 0x400 = mnt / 2 ^ 10 * 2 ^ 10 := and_signBit (w := 10) hlt
      rw [shiftToHighBit, hbit]
      by_cases h10 : mnt < 2 ^ 10
      · have hmul : mnt <<< 1 * 2 ^ fuel = mnt * 2 ^ (fuel + 1) := by
          rw [Nat.shiftLeft_eq, pow_succ']
          ring
        obtain ⟨j, hj, hshift, hlow, hhigh'⟩ := ih (mnt <<< 1) (exp - 1)
          (by rw [Nat.shiftLeft_eq]; omega) (by rw [hmul]; exact hhigh)
        have hmul' : mnt <<< 1 * 2 ^ j = mnt * 2 ^ (j + 1) := by
          rw [Nat.shiftLeft_eq, pow_succ']
          ring
        rw [if_pos (by omega), hshift]
        refine ⟨j + 1, by omega, Prod.ext ?_ hmul', by omega, by omega⟩
        push_cast
        ring
      · rw [if_neg (by omega)]
        exact ⟨0, by omega, by simp, by omega, by omega⟩

/-- The fields of the `float`: for a half that is not NaN, an exponent in range and a
mantissa of the same value, or infinity. -/
theorem f16Widen_spec {a b : ℕ} (ha : a < 2 ^ 5) (hb : b < 2 ^ 10) (hnan : a = 31 → b = 0) :
    ∃ E g : ℕ, f16Widen ((a : ℤ) - 15) b = ((E : ℤ) - 127, g) ∧ E < 2 ^ 8 ∧ g < 2 ^ 23 ∧
      (a = 31 → E = 255 ∧ g = 0) ∧
      (a < 31 → E < 255 ∧ f32Value (E * 2 ^ 23 + g) = f16Value (a * 2 ^ 10 + b)) := by
  unfold f16Widen
  dsimp only
  rcases (by omega : a = 31 ∨ (a = 0 ∧ b = 0) ∨ (a = 0 ∧ 0 < b) ∨ (1 ≤ a ∧ a < 31)) with
    rfl | ⟨rfl, rfl⟩ | ⟨rfl, hpos⟩ | ⟨h, h'⟩
  · obtain rfl := hnan rfl
    exact ⟨255, 0, rfl, by omega, by omega, fun _ => ⟨rfl, rfl⟩, fun h => by omega⟩
  · exact ⟨0, 0, rfl, by omega, by omega, fun h => by omega, fun _ => ⟨by omega, rfl⟩⟩
  · -- a denormal half is a normal `float`
    obtain ⟨j, hj, hshift, hlow, hhigh⟩ := shiftToHighBit_spec 10 b
      (((0 : ℕ) : ℤ) - 15 + 1) (by omega) (by omega)
    have hmask : b * 2 ^ j &&& 0x3ff = b * 2 ^ j - 2 ^ 10 := by
      rw [show (0x3ff : ℕ) = 2 ^ 10 - 1 by rfl, Nat.and_two_pow_sub_one_eq_mod]
      omega
    rw [if_neg (by omega), if_neg (by omega), if_pos (by omega), hshift]
    dsimp only
    rw [hmask, Nat.shiftLeft_eq]
    refine ⟨113 - j, (b * 2 ^ j - 2 ^ 10) * 2 ^ 13, Prod.ext (by dsimp only; omega) rfl, by omega,
      by omega, fun h => by omega, fun _ => ⟨by omega, ?_⟩⟩
    rw [f32Value_exponent (by omega) (by omega), f16Value, Nat.zero_mul, Nat.zero_add,
      units_of_lt hb, show 2 ^ 23 + (b * 2 ^ j - 2 ^ 10) * 2 ^ 13 = b * 2 ^ j * 2 ^ 13 by omega]
    have hpow : 2 ^ j * 2 ^ 13 * 2 ^ (113 - j - 1) = 2 ^ 125 := by
      rw [← pow_add, ← pow_add]
      exact congrArg (2 ^ ·) (by omega)
    rw [Nat.mul_assoc]
    push_cast
    rw [mul_assoc]
    exact congrArg ((b : ℤ) * ·) (by exact_mod_cast hpow)
  · rw [if_neg (by omega), if_neg (by omega), if_neg (by omega), Nat.shiftLeft_eq]
    refine ⟨a + 112, b * 2 ^ 13, Prod.ext (by dsimp only; omega) rfl, by omega, by omega,
      fun h => by omega, fun _ => ⟨by omega, ?_⟩⟩
    obtain ⟨a, rfl⟩ : ∃ a', a = a' + 1 := ⟨a - 1, by omega⟩
    rw [f32Value_exponent (by omega) (by omega), f16Value, units_of_exponent hb]
    have hpow : (2 ^ 23 + b * 2 ^ 13) * 2 ^ (a + 1 + 112 - 1) = (2 ^ 10 + b) * 2 ^ a * 2 ^ 125 := by
      rw [show a + 1 + 112 - 1 = a + 112 by omega, pow_add 2 a 112]
      ring
    exact_mod_cast hpow

/-- **A half becomes the `float` of its value**, with the same sign. -/
theorem vectorF16ToFloat_spec {h : UInt16} (hnan : h.toNat % 2 ^ 15 ≤ 0x7c00) :
    (vectorF16ToFloat h).toNat / 2 ^ 31 = h.toNat / 2 ^ 15 ∧
      (h.toNat % 2 ^ 15 = 0x7c00 → (vectorF16ToFloat h).toNat % 2 ^ 31 = 0x7f800000) ∧
      (h.toNat % 2 ^ 15 < 0x7c00 → (vectorF16ToFloat h).toNat % 2 ^ 31 < 0x7f800000 ∧
        f32Value ((vectorF16ToFloat h).toNat % 2 ^ 31) = f16Value (h.toNat % 2 ^ 15)) := by
  have hh := h.toNat_lt
  have hsgn : (h.toNat &&& 0x8000) <<< 16 = h.toNat / 2 ^ 15 * 2 ^ (23 + 8) := by
    rw [Nat.shiftLeft_eq, show h.toNat &&& 0x8000 = h.toNat / 2 ^ 15 * 2 ^ 15 from
      and_signBit (w := 15) hh, Nat.mul_assoc]
    exact rfl
  have hexp : (h.toNat >>> 10) &&& 0x1f = h.toNat / 2 ^ 10 % 2 ^ 5 := by
    rw [Nat.shiftRight_eq_div_pow]
    exact Nat.and_two_pow_sub_one_eq_mod _ 5
  have hmnt : h.toNat &&& 0x3ff = h.toNat % 2 ^ 10 := Nat.and_two_pow_sub_one_eq_mod _ 10
  obtain ⟨E, g, hwide, hE, hg, hinf, hfin⟩ := f16Widen_spec (a := h.toNat / 2 ^ 10 % 2 ^ 5)
    (b := h.toNat % 2 ^ 10) (by omega) (by omega) (by omega)
  have hto : (vectorF16ToFloat h).toNat = h.toNat / 2 ^ 15 * 2 ^ 31 + (E * 2 ^ 23 + g) := by
    unfold vectorF16ToFloat
    dsimp only
    rw [hsgn, hexp, hmnt, hwide]
    dsimp only
    rw [show ((E : ℤ) - (127 : ℤ) + (127 : ℤ)).toNat = E by omega, or_fields hg hE,
      UInt32.toNat_ofNat']
    omega
  have hmag : (vectorF16ToFloat h).toNat % 2 ^ 31 = E * 2 ^ 23 + g := by omega
  have hn : h.toNat % 2 ^ 15 = h.toNat / 2 ^ 10 % 2 ^ 5 * 2 ^ 10 + h.toNat % 2 ^ 10 := by omega
  rw [hmag]
  refine ⟨by omega, fun h7 => ?_, fun h7 => ?_⟩
  · have := hinf (by omega)
    omega
  · obtain ⟨hE', hvalue⟩ := hfin (by omega)
    exact ⟨by omega, by rw [hvalue, ← hn]⟩

/-- The value of a half has no bits that the shift could drop. -/
theorem not_stickyBitsDropped {f : UInt32} {n : ℕ}
    (h : f32Value (f.toNat % 2 ^ 31) = f16Value n) : ¬StickyBitsDropped f := by
  rintro ⟨he, he', -, hd⟩
  have hg : f.toNat % 2 ^ 23 < 2 ^ 23 := Nat.mod_lt _ (by omega)
  have hm : f.toNat % 2 ^ 31 = f.toNat / 2 ^ 23 % 2 ^ 8 * 2 ^ 23 + f.toNat % 2 ^ 23 := by omega
  rw [hm, f32Value_exponent (by omega) hg, f16Value] at h
  generalize f.toNat / 2 ^ 23 % 2 ^ 8 = e at *
  generalize f.toNat % 2 ^ 23 = g at *
  have hpow : 2 ^ 125 = 2 ^ (113 - e) * 2 ^ 13 * 2 ^ (e - 1) := by
    rw [← pow_add, ← pow_add]
    exact congrArg (2 ^ ·) (by omega)
  have hmul : (2 ^ 23 + g) * 2 ^ (e - 1) = units 10 n * 2 ^ 13 * 2 ^ (113 - e) * 2 ^ (e - 1) := by
    have : (2 ^ 23 + g) * 2 ^ (e - 1) = units 10 n * 2 ^ 125 := by exact_mod_cast h
    rw [this, hpow]
    ring
  have := Nat.eq_of_mul_eq_mul_right (Nat.two_pow_pos (e - 1)) hmul
  rw [this, Nat.mul_mod_left] at hd
  exact hd rfl

/-- **A half comes back from its `float`.** -/
theorem vectorF16FromFloat_toFloat {h : UInt16} (hnan : h.toNat % 2 ^ 15 ≤ 0x7c00) :
    vectorF16FromFloat (vectorF16ToFloat h) = h := by
  obtain ⟨hsign, hinf, hfin⟩ := vectorF16ToFloat_spec hnan
  have hsticky : ¬StickyBitsDropped (vectorF16ToFloat h) := by
    rcases Nat.lt_or_ge (h.toNat % 2 ^ 15) 0x7c00 with hlt | hge
    · exact not_stickyBitsDropped (hfin hlt).2
    · have := hinf (by omega)
      rintro ⟨-, he, -⟩
      omega
  obtain ⟨hs, -, hi, hn⟩ := (roundsToHalf_fromFloat (vectorF16ToFloat h)).mpr hsticky
  have hmag : (vectorF16FromFloat (vectorF16ToFloat h)).toNat % 2 ^ 15 = h.toNat % 2 ^ 15 := by
    rcases Nat.lt_or_ge (h.toNat % 2 ^ 15) 0x7c00 with hlt | hge
    · obtain ⟨hmag, hvalue⟩ := hfin hlt
      have := hn hmag
      rw [hvalue] at this
      exact this.unique f16Value_strictMono (nearest_self f16Value_strictMono (by omega))
    · rw [hi (hinf (by omega))]
      omega
  apply UInt16.toNat_inj.mp
  omega

/-- A BFLOAT16 is the upper half of a `float`, and comes back from it. -/
theorem vectorFB16FromFloat_toFloat (h : UInt16) :
    vectorFB16FromFloat (vectorFB16ToFloat h) = h := by
  have hlt : h.toNat < 2 ^ 16 := h.toNat_lt
  have hbits : (vectorFB16ToFloat h).toNat = h.toNat * 2 ^ 16 := by
    rw [vectorFB16ToFloat, UInt32.toNat_ofNat', Nat.shiftLeft_eq]
    omega
  apply UInt16.toNat_inj.mp
  rw [vectorFB16FromFloat, hbits, UInt16.toNat_ofNat', Nat.shiftRight_eq_div_pow,
    Nat.mul_div_cancel _ (by decide), Nat.mod_eq_of_lt hlt]

/-- **What the conversions keep**: halves come back from `float`, and a `float` becomes what
IEEE asks for exactly when no sticky bits are dropped. -/
theorem vectorF16_nearest_iff (f : UInt32) :
    (RoundsToHalf f (vectorF16FromFloat f) ↔ ¬StickyBitsDropped f) ∧
      ∀ h : UInt16, ¬0x7c00 < h.toNat % 2 ^ 15 →
        vectorF16FromFloat (vectorF16ToFloat h) = h :=
  ⟨roundsToHalf_fromFloat f, fun _ h => vectorF16FromFloat_toFloat (Nat.le_of_not_lt h)⟩

/-- `1.0` becomes the nearest half, which comes back from its `float`. -/
theorem vectorF16_nearest_iff_one :
    RoundsToHalf 0x3f800000 (vectorF16FromFloat 0x3f800000) ∧
      vectorF16FromFloat (vectorF16ToFloat 0x3c00) = 0x3c00 :=
  ⟨(vectorF16_nearest_iff 0x3f800000).1.mpr (by decide),
    (vectorF16_nearest_iff 0x3f800000).2 0x3c00 (by decide)⟩

/-- The `float` next above the midpoint of zero and the least half becomes zero, which is not
the nearest half. -/
theorem vectorF16FromFloat_midpoint :
    vectorF16FromFloat 0x33000001 = 0 ∧
      ¬RoundsToHalf 0x33000001 (vectorF16FromFloat 0x33000001) :=
  ⟨by decide, fun h => (roundsToHalf_fromFloat 0x33000001).mp h (by decide)⟩

end MoVeBench
