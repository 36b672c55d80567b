/-
MoVeBench/KeyNumber.lean

Numbers in index keys (`encodeNumericKey` of `vdbecodec.c`).

A non-zero finite number is written as a tag for its size class, the centesimal
exponent where the class does not determine it, and the centesimal digits, most
significant first; the low bit of a digit's byte says whether more digits
follow.  For negative numbers everything after the tag is complemented.

Every number has one normal form `frac ds * 100 ^ E` with the first digit not
zero (`keyParts_value`), so magnitudes compare by `E` first and by the digits
second, and so do the codes (`mantissa_diverges`).  The result is
`encodeNumericKey_diverges`: the codes of two finite numbers part inside both,
and compare there as the numbers do.
-/
import MoVeBench.Num
import MoVeBench.Varint

namespace MoVeBench

open LexCode Bytes

/-! ### The encoder -/

/-- `while( (num.m % 10)==0 ){ num.e++; num.m = num.m / 10; }`.  The first
argument bounds the iterations; a 64-bit significand that is not zero loses
fewer than 20 zeros. -/
def stripZeros : ℕ → Num → Num
  | 0, num => num
  | k + 1, num =>
      if num.m % 10 = 0 then stripZeros k { num with e := num.e + 1, m := num.m / 10 }
      else num

/-- The array `aDigit` (least significant digit first), and the exponent `e` of
the base-100 point in front of its last entry. -/
def keyParts (num : Num) : ℤ × List ℕ :=
  let num := stripZeros 20 num
  let m := num.m
  let e := num.e
  if e % 2 ≠ 0 then
    let aDigit := 10 * (m % 10) :: Nat.digits 100 (m / 10)
    (aDigit.length + (e - 1).tdiv 2, aDigit)
  else
    let aDigit := Nat.digits 100 m
    (aDigit.length + e.tdiv 2, aDigit)

/-- `putVarint64` of the key encoder. -/
def putVarint64 (v : ℕ) (bInvert : Bool) : List UInt8 :=
  if bInvert then (sqlite4PutVarint64 v).map (~~~·) else sqlite4PutVarint64 v

/-- The tag of a non-zero number, with the exponent where it is large or
small. -/
def putExponent (sign : Bool) (e : ℤ) : List UInt8 :=
  if e ≥ 11 then
    if sign then 0x08 :: putVarint64 e.toNat true
    else 0x22 :: putVarint64 e.toNat false
  else if e ≥ 0 then
    if sign then [.ofNat (0x13 - e.toNat)] else [.ofNat (0x17 + e.toNat)]
  else
    if sign then 0x14 :: putVarint64 (-e).toNat false
    else 0x16 :: putVarint64 (-e).toNat true

/-- "Write M to the output": digits most significant first, the low bit set on
all but the last. -/
def writeDigits (sign : Bool) : List ℕ → List UInt8
  | [] => []
  | digit :: rest =>
      let d : UInt8 := .ofNat (digit * 2)
      let d := if rest ≠ [] then d ||| 0x01 else d
      let d := if sign then ~~~d else d
      d :: writeDigits sign rest

/-- `encodeNumericKey`. -/
def encodeNumericKey (num : Num) : List UInt8 :=
  if num.m = 0 then
    if sqlite4_num_isnan num then [0x06] else [0x15]
  else if sqlite4_num_isinf num then
    if num.sign then [0x07] else [0x23]
  else
    let (e, aDigit) := keyParts num
    putExponent num.sign e ++ writeDigits num.sign aDigit.reverse

/-! ### Centesimal fractions -/

/-- The number `0.d₀d₁d₂…` in base 100. -/
def frac : List ℕ → ℚ
  | [] => 0
  | d :: ds => (d + frac ds) / 100

/-- Digits as `keyParts` produces them, most significant first: no digit
overflows, and the last one is not zero. -/
inductive Mantissa : List ℕ → Prop
  | last {d : ℕ} : d < 100 → d ≠ 0 → Mantissa [d]
  | more {d : ℕ} {ds : List ℕ} : d < 100 → Mantissa ds → Mantissa (d :: ds)

theorem Mantissa.frac_pos {ds : List ℕ} (h : Mantissa ds) : 0 < frac ds := by
  induction h with
  | @last d _ h0 =>
      have : (0 : ℚ) < d := by exact_mod_cast Nat.pos_of_ne_zero h0
      simp only [frac]
      positivity
  | more _ _ ih =>
      simp only [frac]
      positivity

theorem Mantissa.frac_lt_one {ds : List ℕ} (h : Mantissa ds) : frac ds < 1 := by
  induction h with
  | @last d hd _ =>
      have : (d : ℚ) + 1 ≤ 100 := by exact_mod_cast hd
      simp only [frac]
      linarith
  | @more d ds hd _ ih =>
      have : (d : ℚ) + 1 ≤ 100 := by exact_mod_cast hd
      simp only [frac]
      linarith

/-- A mantissa is its first digit and either nothing or another mantissa. -/
theorem Mantissa.tail {d : ℕ} {ds : List ℕ} (h : Mantissa (d :: ds)) :
    d < 100 ∧ (ds = [] ∨ Mantissa ds) := by
  cases h with
  | last hd _ => exact ⟨hd, .inl rfl⟩
  | more hd hds => exact ⟨hd, .inr hds⟩

theorem Mantissa.ne_nil {ds : List ℕ} (h : Mantissa ds) : ds ≠ [] := by
  cases h <;> simp

theorem frac_tail {ds : List ℕ} (h : ds = [] ∨ Mantissa ds) : 0 ≤ frac ds ∧ frac ds < 1 := by
  rcases h with rfl | h
  · exact ⟨le_rfl, zero_lt_one⟩
  · exact ⟨h.frac_pos.le, h.frac_lt_one⟩

/-- The byte of one digit: the low bit says that more digits follow. -/
theorem writeDigits_cons {d : ℕ} (h : d < 100) (ds : List ℕ) :
    ∃ u : UInt8, writeDigits false (d :: ds) = u :: writeDigits false ds ∧
      u.toNat = 2 * d + if ds = [] then 0 else 1 := by
  have heven : (UInt8.ofNat (d * 2)).toNat = 2 * d := by
    rw [toNat_ofNat_of_lt (by omega)]; omega
  refine ⟨_, rfl, ?_⟩
  by_cases hds : ds = []
  · simpa [hds] using heven
  · simp only [hds, ne_eq, not_false_eq_true, if_true, if_false, Bool.false_eq_true]
    rw [UInt8.toNat_or, heven]
    exact (Nat.two_pow_add_eq_or_of_lt (i := 1) (b := 1) (by omega) d).symm

/-- Two mantissas whose first digits differ. -/
theorem mantissa_head {d e : ℕ} {ds es : List ℕ} (hd : Mantissa (d :: ds))
    (he : Mantissa (e :: es)) (hlt : d < e) :
    frac (d :: ds) < frac (e :: es) ∧
      Diverges .lt (writeDigits false (d :: ds)) (writeDigits false (e :: es)) := by
  obtain ⟨hd100, hds⟩ := hd.tail
  obtain ⟨he100, hes⟩ := he.tail
  constructor
  · have hde : (d : ℚ) + 1 ≤ e := by exact_mod_cast hlt
    simp only [frac]
    linarith [(frac_tail hds).2, (frac_tail hes).1]
  · obtain ⟨u, hu, hu'⟩ := writeDigits_cons hd100 ds
    obtain ⟨v, hv, hv'⟩ := writeDigits_cons he100 es
    rw [hu, hv]
    refine .head _ _ (compare_lt_of_toNat_lt ?_) (by simp)
    split_ifs at hu' hv' <;> omega

/-- A mantissa that ends where the other goes on. -/
theorem mantissa_short {d : ℕ} {es : List ℕ} (hd : d < 100) (he : Mantissa es) :
    frac [d] < frac (d :: es) ∧
      Diverges .lt (writeDigits false [d]) (writeDigits false (d :: es)) := by
  constructor
  · simp only [frac]
    linarith [he.frac_pos]
  · obtain ⟨u, hu, hu'⟩ := writeDigits_cons hd []
    obtain ⟨v, hv, hv'⟩ := writeDigits_cons hd es
    rw [hu, hv]
    refine .head _ _ (compare_lt_of_toNat_lt ?_) (by simp)
    rw [hu', hv', if_pos rfl, if_neg he.ne_nil]
    omega

/-- **Digit strings compare as the fractions they spell.** -/
theorem mantissa_diverges {ds es : List ℕ} (hd : Mantissa ds) (he : Mantissa es) :
    Diverges (compare (frac ds) (frac es)) (writeDigits false ds) (writeDigits false es) := by
  induction ds generalizing es with
  | nil => cases hd
  | cons d ds ih =>
      rcases es with - | ⟨e, es⟩
      · cases he
      rcases lt_trichotomy d e with hlt | rfl | hgt
      · obtain ⟨hfrac, hdiv⟩ := mantissa_head hd he hlt
        rwa [compare_lt_iff_lt.mpr hfrac]
      · obtain ⟨hd100, hds⟩ := hd.tail
        obtain ⟨-, hes⟩ := he.tail
        rcases hds with rfl | hds <;> rcases hes with rfl | hes
        · rw [compare_eq_iff_eq.mpr rfl]
          exact .same _
        · obtain ⟨hfrac, hdiv⟩ := mantissa_short hd100 hes
          rwa [compare_lt_iff_lt.mpr hfrac]
        · obtain ⟨hfrac, hdiv⟩ := mantissa_short hd100 hds
          rw [compare_gt_iff_gt.mpr hfrac]
          exact hdiv.swap
        · have hmono : StrictMono fun x : ℚ => (d + x) / 100 := fun x y h => by
            simp only
            linarith
          have hfrac : compare (frac (d :: ds)) (frac (d :: es)) =
              compare (frac ds) (frac es) := compare_map hmono _ _
          have htail := ih hds hes
          obtain ⟨u, hu, hu'⟩ := writeDigits_cons hd100 ds
          obtain ⟨v, hv, hv'⟩ := writeDigits_cons hd100 es
          rw [if_neg hds.ne_nil] at hu'
          rw [if_neg hes.ne_nil] at hv'
          obtain rfl : u = v := UInt8.toNat_inj.mp (hu'.trans hv'.symm)
          rw [hfrac, hu, hv]
          exact htail.cons u
      · obtain ⟨hfrac, hdiv⟩ := mantissa_head he hd hgt
        rw [compare_gt_iff_gt.mpr hfrac]
        exact hdiv.swap

/-! ### The digits of a number -/

theorem frac_eq (ds : List ℕ) :
    frac ds = (Nat.ofDigits 100 ds.reverse : ℕ) / 100 ^ ds.length := by
  induction ds with
  | nil => simp [frac]
  | cons d ds ih =>
      rw [frac, ih, List.reverse_cons, Nat.ofDigits_append, List.length_reverse,
        Nat.ofDigits_singleton, List.length_cons, pow_succ]
      push_cast
      field_simp
      ring

theorem Mantissa.of_append {ds : List ℕ} {d : ℕ} (h : ∀ c ∈ ds, c < 100)
    (hd : d < 100) (h0 : d ≠ 0) : Mantissa (ds ++ [d]) := by
  induction ds with
  | nil => exact .last hd h0
  | cons c ds ih =>
      exact .more (h c (by simp)) (ih fun c' hc => h c' (by simp [hc]))

/-- The digits of a number that is no multiple of 100 form a mantissa, with the
first digit not zero. -/
theorem digits_mantissa {N : ℕ} (h : N % 100 ≠ 0) :
    Mantissa (Nat.digits 100 N).reverse ∧
      1 ≤ 100 * frac (Nat.digits 100 N).reverse ∧
      (N : ℚ) = frac (Nat.digits 100 N).reverse * 100 ^ (Nat.digits 100 N).length := by
  have hN : N ≠ 0 := fun h0 => h (by rw [h0])
  have hfrac : frac (Nat.digits 100 N).reverse =
      (N : ℚ) / 100 ^ (Nat.digits 100 N).length := by
    rw [frac_eq, List.reverse_reverse, Nat.ofDigits_digits, List.length_reverse]
  refine ⟨?_, ?_, ?_⟩
  · rw [Nat.digits_def' (by omega) (by omega), List.reverse_cons]
    refine .of_append (fun c hc => ?_) (Nat.mod_lt _ (by omega)) h
    exact Nat.digits_lt_base (by omega) (List.mem_reverse.mp hc)
  · have hle : (100 : ℚ) ^ (Nat.digits 100 N).length ≤ 100 * N := by
      exact_mod_cast Nat.base_pow_length_digits_le 100 N (by omega) hN
    rw [hfrac, ← mul_div_assoc, le_div_iff₀ (by positivity), one_mul]
    exact hle
  · rw [hfrac, div_mul_cancel₀]
    positivity

theorem stripZeros_spec {k : ℕ} {num : Num} (h0 : num.m ≠ 0) (hk : num.m < 10 ^ k) :
    ∃ j ≤ k, (stripZeros k num).e = num.e + j ∧
      num.m = (stripZeros k num).m * 10 ^ j ∧ (stripZeros k num).m % 10 ≠ 0 := by
  induction k generalizing num with
  | zero => omega
  | succ k ih =>
      unfold stripZeros
      split_ifs with hm
      · have hdvd := Nat.div_mul_cancel (Nat.dvd_of_mod_eq_zero hm)
        obtain ⟨j, hj, he, hmant, hlast⟩ :=
          @ih { num with e := num.e + 1, m := num.m / 10 }
            (by simp only; omega) (by simp only; omega)
        refine ⟨j + 1, by omega, ?_, ?_, hlast⟩
        · rw [he]; push_cast; ring
        · rw [pow_succ, ← mul_assoc, ← hmant, hdvd]
      · exact ⟨0, by omega, by simp, by simp, hm⟩

/-- What `keyParts` computes: the centesimal digits of a number `N` that is no
multiple of 100, and the exponent that makes it the magnitude. -/
theorem keyParts_spec {num : Num} (h : num.Finite) (h0 : num.m ≠ 0) :
    ∃ (N : ℕ) (q : ℤ), N % 100 ≠ 0 ∧ N < 10 * 2 ^ 64 ∧
      keyParts num = ((Nat.digits 100 N).length + q, Nat.digits 100 N) ∧
      num.mag = N * 100 ^ q ∧ -16400 ≤ q ∧ q ≤ 600 := by
  obtain ⟨j, hj, he, hm, hlast⟩ := stripZeros_spec (k := 20) h0
    (h.m_lt.trans (by norm_num))
  have hge := h.e_ge
  have hle : num.e ≤ 999 := h.e_le
  have hmlt : (stripZeros 20 num).m < 2 ^ 64 := by
    refine lt_of_le_of_lt ?_ h.m_lt
    rw [hm]
    exact Nat.le_mul_of_pos_right _ (by positivity)
  have hmag : num.mag = (stripZeros 20 num).m * 10 ^ (stripZeros 20 num).e := by
    rw [Num.mag, he, zpow_add₀ (by norm_num), zpow_natCast]
    conv_lhs => rw [hm]
    push_cast
    ring
  unfold keyParts
  simp only
  generalize (stripZeros 20 num).e = e at *
  generalize (stripZeros 20 num).m = m at *
  split_ifs with hodd
  · -- odd exponent: one decimal digit is moved in front of the point
    have hdig : 10 * (m % 10) :: Nat.digits 100 (m / 10) = Nat.digits 100 (10 * m) := by
      rw [Nat.digits_def' (b := 100) (n := 10 * m) (by omega) (by omega)]
      congr 1
      · omega
      · congr 1
        omega
    obtain ⟨q, hq⟩ : ∃ q, e = 2 * q + 1 := ⟨e / 2, by omega⟩
    have hdiv : (e - 1).tdiv 2 = q := by
      rw [hq, add_sub_cancel_right]
      exact Int.mul_tdiv_cancel_left q (by omega)
    refine ⟨10 * m, q, by omega, by omega, by rw [hdig, hdiv], ?_, by omega, by omega⟩
    rw [hmag, hq, zpow_add₀ (by norm_num), zpow_mul]
    push_cast
    ring
  · -- even exponent: the digits are taken as they are
    obtain ⟨q, hq⟩ : ∃ q, e = 2 * q := ⟨e / 2, by omega⟩
    have hdiv : e.tdiv 2 = q := by
      rw [hq]
      exact Int.mul_tdiv_cancel_left q (by omega)
    refine ⟨m, q, by omega, by omega, by rw [hdiv], ?_, by omega, by omega⟩
    rw [hmag, hq, zpow_mul]
    norm_num

/-- **The normal form**: a number's exponent and digits spell its magnitude. -/
theorem keyParts_value {num : Num} (h : num.Finite) (h0 : num.m ≠ 0) :
    Mantissa (keyParts num).2.reverse ∧ 1 ≤ 100 * frac (keyParts num).2.reverse ∧
      num.mag = frac (keyParts num).2.reverse * 100 ^ (keyParts num).1 ∧
      -2 ^ 20 ≤ (keyParts num).1 ∧ (keyParts num).1 ≤ 2 ^ 20 := by
  obtain ⟨N, q, hN, hlt, hparts, hmag, hq, hq'⟩ := keyParts_spec h h0
  obtain ⟨hmant, hlead, hval⟩ := digits_mantissa hN
  have hlen : (Nat.digits 100 N).length ≤ 11 :=
    (Nat.digits_length_le_iff (by omega) N).mpr (by omega)
  rw [hparts]
  refine ⟨hmant, hlead, ?_, by simp only; omega, by simp only; omega⟩
  rw [hmag, zpow_add₀ (by norm_num), zpow_natCast, ← mul_assoc, ← hval]

/-! ### Order of the parts -/

/-- Normal forms compare by exponent first. -/
theorem compare_normal {E F : ℤ} {ds ds' : List ℕ} (h : Mantissa ds) (h' : Mantissa ds')
    (hlead : 1 ≤ 100 * frac ds) (hlead' : 1 ≤ 100 * frac ds') :
    compare (frac ds * 100 ^ E) (frac ds' * 100 ^ F) =
      (compare E F).then (compare (frac ds) (frac ds')) := by
  have hstep : ∀ {i j : ℤ} {x y : ℚ}, i < j → x < 1 → 1 ≤ 100 * y →
      x * 100 ^ i < y * 100 ^ j := by
    intro i j x y hij hx hy
    have hpos : (0 : ℚ) < 100 ^ i := by positivity
    calc x * 100 ^ i < 1 * 100 ^ i := mul_lt_mul_of_pos_right hx hpos
      _ ≤ 100 * y * 100 ^ i := mul_le_mul_of_nonneg_right hy hpos.le
      _ = y * 100 ^ (i + 1) := by rw [zpow_add_one₀ (by norm_num)]; ring
      _ ≤ y * 100 ^ j := by
          refine mul_le_mul_of_nonneg_left ?_ (by linarith)
          exact zpow_le_zpow_right₀ (by norm_num) (by omega)
  rcases lt_trichotomy E F with hlt | rfl | hgt
  · rw [compare_lt_iff_lt.mpr (hstep hlt h.frac_lt_one hlead'), compare_lt_iff_lt.mpr hlt]
    rfl
  · have hmono : StrictMono fun x : ℚ => x * 100 ^ E := fun x y hxy =>
      mul_lt_mul_of_pos_right hxy (by positivity)
    rw [compare_map hmono, compare_eq_iff_eq.mpr rfl]
    rfl
  · rw [compare_gt_iff_gt.mpr (hstep hgt h'.frac_lt_one hlead), compare_gt_iff_gt.mpr hgt]
    rfl

theorem writeDigits_true (ds : List ℕ) :
    writeDigits true ds = (writeDigits false ds).map (~~~·) := by
  induction ds with
  | nil => rfl
  | cons d ds ih => simp [writeDigits, ih]

theorem putVarint64_diverges {v w : ℕ} (hv : v < 2 ^ 64) (hw : w < 2 ^ 64) (bInvert : Bool) :
    Diverges (if bInvert then (compare v w).swap else compare v w)
      (putVarint64 v bInvert) (putVarint64 w bInvert) := by
  cases bInvert with
  | false => exact sqlite4PutVarint64_diverges hv hw
  | true => exact (sqlite4PutVarint64_diverges hv hw).map_swap compare_complement

theorem putExponent_large {E : ℤ} (h : 11 ≤ E) (sign : Bool) :
    putExponent sign E = (if sign then 0x08 else 0x22) :: putVarint64 E.toNat sign := by
  unfold putExponent
  rw [if_pos h]
  cases sign <;> rfl

theorem putExponent_medium {E : ℤ} (h0 : 0 ≤ E) (h : E < 11) (sign : Bool) :
    putExponent sign E = [.ofNat (if sign then 0x13 - E.toNat else 0x17 + E.toNat)] := by
  unfold putExponent
  rw [if_neg (not_le.mpr h), if_pos h0]
  cases sign <;> rfl

theorem putExponent_small {E : ℤ} (h : E < 0) (sign : Bool) :
    putExponent sign E = (if sign then 0x14 else 0x16) :: putVarint64 (-E).toNat !sign := by
  unfold putExponent
  rw [if_neg (by omega), if_neg (by omega)]
  cases sign <;> rfl

/-- The exponent field of a larger number is larger, and smaller under a
negative sign. -/
theorem putExponent_lt {E F : ℤ} (h : E < F) (hE : -2 ^ 20 ≤ E) (hF : F ≤ 2 ^ 20)
    (sign : Bool) :
    Diverges (if sign then .gt else .lt) (putExponent sign E) (putExponent sign F) := by
  have hgt : ∀ {m n : ℕ} (s t : List UInt8), n < m → m < 256 →
      Diverges .gt (UInt8.ofNat m :: s) (UInt8.ofNat n :: t) := by
    intro m n s t hlt hm
    refine .head s t ?_ (by simp)
    rw [compare_ofNat hm (by omega), Nat.compare_eq_gt.mpr hlt]
  have hlt : ∀ {m n : ℕ} (s t : List UInt8), m < n → n < 256 →
      Diverges .lt (UInt8.ofNat m :: s) (UInt8.ofNat n :: t) :=
    fun s t hmn hn => (hgt t s hmn hn).swap
  rcases le_or_gt 11 F with hlarge' | hmed'
  · rw [putExponent_large hlarge']
    rcases le_or_gt 11 E with hlarge | hmed
    · -- both large: the exponents follow as varints
      rw [putExponent_large hlarge]
      have hv := putVarint64_diverges (v := E.toNat) (w := F.toNat) (by omega) (by omega) sign
      rw [Nat.compare_eq_lt.mpr (by omega)] at hv
      cases sign <;> exact hv.cons _
    · -- a large exponent has the outermost tag
      rcases le_or_gt 0 E with h0 | h0
      · rw [putExponent_medium h0 hmed]
        cases sign
        · exact hlt (n := 0x22) _ _ (by simp only [Bool.false_eq_true, if_false]; omega)
            (by omega)
        · exact hgt (n := 0x08) _ _ (by simp only [if_true]; omega)
            (by simp only [if_true]; omega)
      · rw [putExponent_small h0]
        cases sign
        · exact hlt (m := 0x16) (n := 0x22) _ _ (by omega) (by omega)
        · exact hgt (m := 0x14) (n := 0x08) _ _ (by omega) (by omega)
  · rcases le_or_gt 0 F with h0' | h0'
    · rw [putExponent_medium h0' hmed']
      rcases le_or_gt 0 E with h0 | h0
      · -- both medium: the tag counts the exponents
        rw [putExponent_medium h0 (by omega)]
        cases sign
        · exact hlt _ _ (by simp only [Bool.false_eq_true, if_false]; omega)
            (by simp only [Bool.false_eq_true, if_false]; omega)
        · exact hgt _ _ (by simp only [if_true]; omega) (by simp only [if_true]; omega)
      · -- a small exponent has the innermost tag
        rw [putExponent_small h0]
        cases sign
        · exact hlt (m := 0x16) _ _ (by simp only [Bool.false_eq_true, if_false]; omega)
            (by simp only [Bool.false_eq_true, if_false]; omega)
        · exact hgt (m := 0x14) _ _ (by simp only [if_true]; omega) (by omega)
    · -- both small: the negated exponents follow, complemented for positive numbers
      rw [putExponent_small h0', putExponent_small (by omega)]
      have hv := putVarint64_diverges (v := (-E).toNat) (w := (-F).toNat) (by omega)
        (by omega) (!sign)
      rw [Nat.compare_eq_gt.mpr (by omega)] at hv
      cases sign <;> exact hv.cons _

theorem putExponent_diverges {E F : ℤ} (hE : -2 ^ 20 ≤ E ∧ E ≤ 2 ^ 20)
    (hF : -2 ^ 20 ≤ F ∧ F ≤ 2 ^ 20) (sign : Bool) :
    Diverges (if sign then (compare E F).swap else compare E F)
      (putExponent sign E) (putExponent sign F) := by
  rcases lt_trichotomy E F with h | rfl | h
  · rw [compare_lt_iff_lt.mpr h]
    exact putExponent_lt h hE.1 hF.2 sign
  · rw [compare_eq_iff_eq.mpr rfl]
    cases sign <;> exact .same _
  · rw [compare_gt_iff_gt.mpr h]
    have := (putExponent_lt h hF.1 hE.2 sign).swap
    cases sign <;> exact this

/-! ### Order of the codes -/

/-- The code of a non-zero finite number. -/
theorem encodeNumericKey_nonzero {A : Num} (hA : A.Finite) (h0 : A.m ≠ 0) :
    encodeNumericKey A =
      putExponent A.sign (keyParts A).1 ++ writeDigits A.sign (keyParts A).2.reverse := by
  have hinf : sqlite4_num_isinf A = false := by
    simp [sqlite4_num_isinf, not_lt.mpr hA.e_le]
  rw [encodeNumericKey, if_neg h0, hinf]
  rfl

theorem encodeNumericKey_zero {A : Num} (hA : A.Finite) (h0 : A.m = 0) :
    encodeNumericKey A = [0x15] := by
  have hnan : sqlite4_num_isnan A = false := by
    simp [sqlite4_num_isnan, not_lt.mpr hA.e_le]
  rw [encodeNumericKey, if_pos h0, hnan]
  rfl

theorem putExponent_head (sign : Bool) (E : ℤ) :
    ∃ u rest, putExponent sign E = u :: rest ∧
      (if sign then 0x08 ≤ u.toNat ∧ u.toNat ≤ 0x14
        else 0x16 ≤ u.toNat ∧ u.toNat ≤ 0x22) := by
  rcases le_or_gt 11 E with hlarge | hmed
  · exact ⟨_, _, putExponent_large hlarge sign, by cases sign <;> decide⟩
  rcases le_or_gt 0 E with h0 | h0
  · refine ⟨_, _, putExponent_medium h0 hmed sign, ?_⟩
    cases sign
    · simp only [Bool.false_eq_true, if_false]
      rw [toNat_ofNat_of_lt (by omega)]
      omega
    · simp only [if_true]
      rw [toNat_ofNat_of_lt (by omega)]
      omega
  · exact ⟨_, _, putExponent_small h0 sign, by cases sign <;> decide⟩

/-- The first byte tells negative numbers, zero and positive numbers apart, and
numbers from all other values. -/
theorem encodeNumericKey_head {A : Num} (hA : A.Finite) :
    ∃ u rest, encodeNumericKey A = u :: rest ∧
      0x08 ≤ u.toNat ∧ u.toNat ≤ 0x22 ∧ compare A.toRat 0 = compare u.toNat 0x15 := by
  by_cases h0 : A.m = 0
  · refine ⟨_, _, encodeNumericKey_zero hA h0, by decide, by decide, ?_⟩
    have hmag := Num.mag_eq_zero.mpr h0
    have hrat : A.toRat = 0 := by simp [Num.toRat, hmag]
    rw [hrat, compare_eq_iff_eq.mpr rfl]
    rfl
  have hpos := Num.mag_pos h0
  obtain ⟨u, rest, hu, hrange⟩ := putExponent_head A.sign (keyParts A).1
  refine ⟨u, _, by rw [encodeNumericKey_nonzero hA h0, hu, List.cons_append], ?_⟩
  cases hs : A.sign
  · simp only [hs, Bool.false_eq_true, if_false] at hrange
    have hrat : A.toRat = A.mag := by simp [Num.toRat, hs]
    rw [hrat, compare_gt_iff_gt.mpr hpos, Nat.compare_eq_gt.mpr (by omega)]
    exact ⟨by omega, by omega, rfl⟩
  · simp only [hs, if_true] at hrange
    have hrat : A.toRat = -A.mag := by simp [Num.toRat, hs]
    rw [hrat, compare_lt_iff_lt.mpr (by linarith), Nat.compare_eq_lt.mpr (by omega)]
    exact ⟨by omega, by omega, rfl⟩

theorem Num.compare_zero {A : Num} (h0 : A.m ≠ 0) :
    compare A.toRat 0 = if A.sign then .lt else .gt := by
  have hpos := Num.mag_pos h0
  cases hs : A.sign
  · simp only [Num.toRat, hs, Bool.false_eq_true, if_false]
    exact compare_gt_iff_gt.mpr hpos
  · simp only [Num.toRat, hs, if_true]
    exact compare_lt_iff_lt.mpr (by linarith)

/-- Codes of numbers of one sign. -/
theorem encodeNumericKey_sameSign {A B : Num} (hA : A.Finite) (hB : B.Finite)
    (hA0 : A.m ≠ 0) (hB0 : B.m ≠ 0) (h : A.sign = B.sign) :
    Diverges (compare A.toRat B.toRat) (encodeNumericKey A) (encodeNumericKey B) := by
  obtain ⟨hmA, hlA, hvA, hbA⟩ := keyParts_value hA hA0
  obtain ⟨hmB, hlB, hvB, hbB⟩ := keyParts_value hB hB0
  have hmag := compare_normal (E := (keyParts A).1) (F := (keyParts B).1) hmA hmB hlA hlB
  rw [← hvA, ← hvB] at hmag
  have hdig := mantissa_diverges hmA hmB
  have hexp := putExponent_diverges hbA hbB A.sign
  rw [encodeNumericKey_nonzero hA hA0, encodeNumericKey_nonzero hB hB0, ← h]
  cases hs : A.sign
  · have hcmp : compare A.toRat B.toRat = compare A.mag B.mag := by
      simp [Num.toRat, hs, ← h]
    rw [hs] at hexp
    rw [hcmp, hmag]
    exact hexp.append hdig
  · have hcmp : compare A.toRat B.toRat = (compare A.mag B.mag).swap := by
      simp only [Num.toRat, hs, ← h, if_true]
      rw [compare_map_anti (fun _ _ h => neg_lt_neg h)]
      exact Std.OrientedOrd.eq_swap
    rw [hs] at hexp
    rw [hcmp, hmag, Ordering.swap_then, writeDigits_true, writeDigits_true]
    exact hexp.append (hdig.map_swap compare_complement)

/-- **Number codes keep the order of numbers**, for all finite arguments and
whatever bytes follow the codes. -/
theorem encodeNumericKey_diverges {A B : Num} (hA : A.Finite) (hB : B.Finite) :
    Diverges (compare A.toRat B.toRat) (encodeNumericKey A) (encodeNumericKey B) := by
  obtain ⟨u, s, hu, -, -, hua⟩ := encodeNumericKey_head hA
  obtain ⟨v, t, hv, -, -, hvb⟩ := encodeNumericKey_head hB
  by_cases hpivot : compare A.toRat 0 = compare B.toRat 0
  · -- same side of zero
    by_cases h0 : A.m = 0
    · have hmag := Num.mag_eq_zero.mpr h0
      have hratA : A.toRat = 0 := by simp [Num.toRat, hmag]
      have hratB : B.toRat = 0 := by
        rw [hratA, compare_eq_iff_eq.mpr rfl] at hpivot
        exact compare_eq_iff_eq.mp hpivot.symm
      have h0' : B.m = 0 := by
        by_contra hne
        have := Num.compare_zero hne
        rw [hratB, compare_eq_iff_eq.mpr rfl] at this
        split_ifs at this
      rw [hratA, hratB, encodeNumericKey_zero hA h0, encodeNumericKey_zero hB h0',
        compare_eq_iff_eq.mpr rfl]
      exact .same _
    · have hcA := Num.compare_zero h0
      have h0' : B.m ≠ 0 := by
        intro hz
        have hratB : B.toRat = 0 := by simp [Num.toRat, Num.mag_eq_zero.mpr hz]
        rw [hcA, hratB, compare_eq_iff_eq.mpr rfl] at hpivot
        split_ifs at hpivot
      refine encodeNumericKey_sameSign hA hB h0 h0' ?_
      rw [hcA, Num.compare_zero h0'] at hpivot
      cases hsA : A.sign <;> cases hsB : B.sign <;> simp_all
  · have hcmp := compare_pivot hua hvb hpivot
    rw [hu, hv]
    refine .head s t ((compare_toNat u v).trans hcmp.symm) fun heq => hpivot ?_
    rw [compare_eq_iff_eq.mp heq]

end MoVeBench
