/-
MoVeBench/KeyDecode.lean

Reading numbers back from keys (`sqlite4VdbeDecodeNumericKey` of `vdbecodec.c`).

The decoder takes the size class from the tag, adds up the centesimal digits, and
answers the number of bytes that it read.  It does not compare with the end of the
key: where it would read on behind it, the model has no answer.

An integer has at most ten centesimal digits with its exponent, so its key is in one
of the medium classes, and the number that is read back converts to the integer
(`decodeIntKey`).  Together with the order of the codes this is
`sqlite4VdbeEncodeIntKey_spec`.
-/
import MoVeBench.DiskAnn.Store
import MoVeBench.KeyEncode

namespace MoVeBench

open LexCode Bytes

/-! ### The decoder -/

/-- The loop over the digits behind `i` bytes of the key: `m`, `e`, and the bytes
read. -/
def decodeDigits (xorMask : UInt8) : List UInt8 → ℕ → ℤ → ℕ → Option (ℕ × ℤ × ℕ)
  | [], _, _, _ => none
  | u :: aKey, m, e, i =>
      let y := (u ^^^ xorMask).toNat
      let m := (m * 100 + y / 2) % 2 ^ 64
      if y % 2 = 1 then decodeDigits xorMask aKey m (e - 1) (i + 1) else some (m, e - 1, i + 1)

/-- The exponent behind a tag, complemented or not, in two bytes at most: `eBig` and
the bytes read. -/
def decodeExponent (aKey : List UInt8) (bInvert : Bool) : Option (ℕ × ℕ) :=
  sqlite4GetVarint64 (if bInvert then (aKey.take 2).map (· ^^^ 0xff) else aKey.take 2)

/-- `(short)e`. -/
def toShort (e : ℤ) : ℤ := e.bmod (2 ^ 16)

/-- The `switch` on the tag, for the classes that have digits: the sign, `xorMask`,
`e`, and the bytes in front of the digits.  The sign is not set for small and large
numbers. -/
def decodeTag (tag : ℕ) (aKey : List UInt8) : Option (Bool × UInt8 × ℤ × ℕ) :=
  if 0x09 ≤ tag ∧ tag ≤ 0x13 then some (true, 0xff, 0x13 - tag, 1)
  else if 0xec ≤ tag ∧ tag ≤ 0xf6 then some (true, 0, tag - 0xec, 1)
  else if 0x17 ≤ tag ∧ tag ≤ 0x21 then some (false, 0, tag - 0x17, 1)
  else if 0xde ≤ tag ∧ tag ≤ 0xe8 then some (false, 0xff, 0xe8 - tag, 1)
  -- a small exponent is stored negated; in one of both signs its bytes are complemented
  else if tag = 0x14 ∨ tag = 0xe9 then
    (decodeExponent aKey false).map fun r => (false, 0xff, toShort (-r.1), 1 + r.2)
  else if tag = 0x16 ∨ tag = 0xeb then
    (decodeExponent aKey true).map fun r => (false, 0, toShort (-r.1), 1 + r.2)
  -- a large exponent
  else if tag = 0x08 ∨ tag = 0xdd then
    (decodeExponent aKey true).map fun r => (false, 0xff, toShort r.1, 1 + r.2)
  else if tag = 0x22 ∨ tag = 0xf7 then
    (decodeExponent aKey false).map fun r => (false, 0, toShort r.1, 1 + r.2)
  else none

/-- `sqlite4VdbeDecodeNumericKey`: the number and the bytes read, `none` for an
error. -/
def sqlite4VdbeDecodeNumericKey : List UInt8 → Option (Num × ℕ)
  | [] => none
  | u :: aKey =>
      let tag := u.toNat
      -- NaN, the infinities and zero are single bytes
      if tag = 0x06 ∨ tag = 0xf9 then some (⟨false, false, 1000, 0⟩, 1)
      else if tag = 0x07 ∨ tag = 0xf8 then some (⟨true, false, 1000, 1⟩, 1)
      else if tag = 0x15 ∨ tag = 0xea then some (⟨false, false, 0, 0⟩, 1)
      else if tag = 0x23 ∨ tag = 0xdc then some (⟨false, false, 1000, 1⟩, 1)
      else
        match decodeTag tag aKey with
        | none => none
        | some (sign, xorMask, e, i) =>
            match decodeDigits xorMask ((u :: aKey).drop i) 0 e i with
            | none => none
            | some (m, e, i) =>
                if m = 0 then none
                else some ({ sign, approx := false, e := toShort (2 * e), m }, i)

/-! ### Conversion to an integer -/

/-- `iRet * 10`, `k` times, unless it overflows. -/
def timesTen : ℕ → ℕ → Option ℕ
  | 0, iRet => some iRet
  | k + 1, iRet => if iRet > (2 ^ 63 - 1) / 10 then none else timesTen k (iRet * 10)

/-- `sqlite4_num_to_int64`, without `*pbLossy`. -/
def sqlite4_num_to_int64 (num : Num) : ℤ :=
  let overflow : ℤ := if num.sign then -2 ^ 63 else 2 ^ 63 - 1
  match timesTen num.e.toNat num.m with
  | none => overflow
  | some iRet =>
      let iRet := (· / 10)^[(-num.e).toNat] iRet
      if num.sign then if iRet > 2 ^ 63 then overflow else -iRet
      else if iRet > 2 ^ 63 - 1 then overflow else iRet

theorem timesTen_eq {k iRet : ℕ} (h : iRet * 10 ^ k ≤ 2 ^ 63) :
    timesTen k iRet = some (iRet * 10 ^ k) := by
  induction k generalizing iRet with
  | zero => simp [timesTen]
  | succ k ih =>
      have hpow : iRet * 10 * 10 ^ k = iRet * 10 ^ (k + 1) := by rw [pow_succ]; ring
      have hle : iRet * 10 ≤ iRet * 10 * 10 ^ k := Nat.le_mul_of_pos_right _ (by positivity)
      rw [timesTen, if_neg (by omega), ih (by rw [hpow]; exact h), hpow]

/-- A whole number in the range of `sqlite4_int64` converts to itself. -/
theorem sqlite4_num_to_int64_eq {v : ℤ} (hv : -2 ^ 63 ≤ v ∧ v < 2 ^ 63) {m k : ℕ}
    (hm : m * 10 ^ k = v.natAbs) (approx : Bool) :
    sqlite4_num_to_int64 ⟨decide (v < 0), approx, k, m⟩ = v := by
  have hten : timesTen k m = some (m * 10 ^ k) := timesTen_eq (by omega)
  have hzero : (-(k : ℤ)).toNat = 0 := by omega
  simp only [sqlite4_num_to_int64, Int.toNat_natCast, hten, hm, hzero, Function.iterate_zero, id]
  rcases lt_or_ge v 0 with hneg | hpos
  · rw [decide_eq_true hneg, if_pos rfl, if_neg (by omega)]
    omega
  · rw [decide_eq_false (not_lt.mpr hpos), if_neg Bool.false_ne_true, if_neg (by omega)]
    omega

/-- **An integer survives the conversion to a number.** -/
theorem sqlite4_num_to_int64_from {v : ℤ} (hv : -2 ^ 63 ≤ v ∧ v < 2 ^ 63) :
    sqlite4_num_to_int64 (sqlite4_num_from_int64 v) = v :=
  sqlite4_num_to_int64_eq (k := 0) hv (by rw [pow_zero, mul_one]) false

/-! ### Reading the digits -/

/-- `xorMask` for a sign in ascending order. -/
def maskOf (sign : Bool) : UInt8 := if sign then 0xff else 0

/-- The byte of a digit, under its mask. -/
theorem writeDigits_mask (sign : Bool) {d : ℕ} (hd : d < 100) (ds : List ℕ) :
    ∃ u : UInt8, writeDigits sign (d :: ds) = u :: writeDigits sign ds ∧
      (u ^^^ maskOf sign).toNat = 2 * d + if ds = [] then 0 else 1 := by
  obtain ⟨u, hu, hval⟩ := writeDigits_cons hd ds
  cases sign with
  | false => exact ⟨u, hu, by rw [maskOf, if_neg Bool.false_ne_true, UInt8.xor_zero, hval]⟩
  | true =>
      refine ⟨~~~u, ?_, ?_⟩
      · rw [writeDigits_true, hu, writeDigits_true]
        rfl
      · rw [maskOf, if_pos rfl, xor_ff, UInt8.not_not, hval]

theorem writeDigits_length (sign : Bool) (ds : List ℕ) :
    (writeDigits sign ds).length = ds.length := by
  induction ds with
  | nil => rfl
  | cons d ds ih => rw [writeDigits, List.length_cons, List.length_cons, ih]

/-- The value of digits, modulo the word size, depends on the start modulo it. -/
theorem foldl_digits_mod (ds : List ℕ) (m : ℕ) :
    ds.foldl (fun m d => m * 100 + d) (m % 2 ^ 64) % 2 ^ 64 =
      ds.foldl (fun m d => m * 100 + d) m % 2 ^ 64 := by
  induction ds generalizing m with
  | nil => exact Nat.mod_mod m _
  | cons d ds ih =>
      rw [List.foldl_cons, List.foldl_cons, ← ih (m % 2 ^ 64 * 100 + d), ← ih (m * 100 + d)]
      rw [show (m % 2 ^ 64 * 100 + d) % 2 ^ 64 = (m * 100 + d) % 2 ^ 64 by omega]

/-- **The digits are read back**, in 64 bits, also where other bytes follow. -/
theorem decodeDigits_write (sign : Bool) {ds : List ℕ} (hds : ∀ d ∈ ds, d < 100) (hne : ds ≠ [])
    (rest : List UInt8) (m : ℕ) (e : ℤ) (i : ℕ) :
    decodeDigits (maskOf sign) (writeDigits sign ds ++ rest) m e i =
      some (ds.foldl (fun m d => m * 100 + d) m % 2 ^ 64, e - ds.length, i + ds.length) := by
  induction ds generalizing m e i with
  | nil => exact absurd rfl hne
  | cons d ds ih =>
      obtain ⟨u, hu, hval⟩ := writeDigits_mask sign (hds d (by simp)) ds
      rw [List.foldl_cons, hu, List.cons_append, decodeDigits, hval]
      by_cases hnil : ds = []
      · subst hnil
        rw [if_pos rfl, Nat.add_zero, Nat.mul_div_cancel_left d (by omega), if_neg (by omega)]
        rfl
      · rw [if_neg hnil, show (2 * d + 1) / 2 = d by omega, if_pos (by omega),
          ih (fun c hc => hds c (by simp [hc])) hnil, foldl_digits_mod, List.length_cons]
        refine congrArg some (Prod.ext rfl (Prod.ext ?_ ?_))
        · show e - 1 - (ds.length : ℤ) = e - ((ds.length + 1 : ℕ) : ℤ)
          omega
        · show i + 1 + ds.length = i + (ds.length + 1)
          omega

/-! ### Integers -/

/-- The digits of an integer: at most ten places, whole hundreds left out. -/
theorem keyParts_int {v : ℤ} (hv : -2 ^ 63 ≤ v ∧ v < 2 ^ 63) (h0 : v ≠ 0) :
    ∃ N q : ℕ, N * 100 ^ q = v.natAbs ∧ N ≠ 0 ∧ (Nat.digits 100 N).length + q ≤ 10 ∧
      keyParts (sqlite4_num_from_int64 v) =
        ((((Nat.digits 100 N).length + q : ℕ) : ℤ), Nat.digits 100 N) := by
  have hfin := sqlite4_num_from_int64_finite hv.1 hv.2
  have hm0 : (sqlite4_num_from_int64 v).m ≠ 0 := fun h => h0 (Int.natAbs_eq_zero.mp h)
  obtain ⟨N, q, hN, -, hparts, hmag, -, -⟩ := keyParts_spec hfin hm0
  have hmag' : (v.natAbs : ℚ) = N * 100 ^ q := by
    rw [← hmag, Num.mag]
    show (v.natAbs : ℚ) = (v.natAbs : ℚ) * 10 ^ (0 : ℤ)
    rw [zpow_zero, mul_one]
  -- a fraction of a hundred would make the digits end in zeros
  have hq : 0 ≤ q := by
    by_contra hneg
    obtain ⟨k, hk⟩ : ∃ k : ℕ, q = -((k + 1 : ℕ) : ℤ) := ⟨(-q).toNat - 1, by omega⟩
    have hNq : (N : ℚ) = v.natAbs * 100 ^ (k + 1) := by
      rw [hmag', hk, zpow_neg, zpow_natCast, mul_assoc, inv_mul_cancel₀ (by positivity), mul_one]
    have hNn : N = v.natAbs * 100 ^ (k + 1) := by exact_mod_cast hNq
    rw [pow_succ, ← mul_assoc] at hNn
    exact hN (by rw [hNn, Nat.mul_mod_left])
  obtain ⟨k, rfl⟩ := Int.eq_ofNat_of_zero_le hq
  have hval : N * 100 ^ k = v.natAbs := by
    have : (N : ℚ) * 100 ^ k = v.natAbs := by rw [hmag', zpow_natCast]
    exact_mod_cast this
  have hN0 : N ≠ 0 := fun h => hN (by rw [h])
  refine ⟨N, k, hval, hN0, ?_, by rw [hparts]; rfl⟩
  by_contra hlong
  have hbase := Nat.base_pow_length_digits_le 100 N (by omega) hN0
  have hbig : 100 ^ ((Nat.digits 100 N).length + k) ≤ 100 * v.natAbs := by
    rw [pow_add, ← hval, ← mul_assoc]
    exact Nat.mul_le_mul_right _ hbase
  have hpow : 100 ^ 11 ≤ 100 ^ ((Nat.digits 100 N).length + k) :=
    Nat.pow_le_pow_right (by omega) (by omega)
  omega

/-- The digits of a number, the most significant first, give the number. -/
theorem foldl_digits (N : ℕ) :
    (Nat.digits 100 N).reverse.foldl (fun m d => m * 100 + d) 0 = N := by
  rw [List.foldl_reverse]
  conv_rhs => rw [← Nat.ofDigits_digits 100 N, Nat.ofDigits_eq_foldr]
  congr 1
  funext d m
  show m * 100 + d = d + 100 * m
  ring

/-- The tag of a medium number with `E` places in front of the point. -/
def mediumTag (sign : Bool) (E : ℕ) : ℕ := if sign then 0x13 - E else 0x17 + E

theorem decodeTag_medium (sign : Bool) {E : ℕ} (hE : E ≤ 10) (aKey : List UInt8) :
    decodeTag (mediumTag sign E) aKey = some (sign, maskOf sign, (E : ℤ), 1) := by
  unfold decodeTag maskOf mediumTag
  rcases sign with - | -
  · simp only [Bool.false_eq_true, if_false]
    rw [if_neg (by omega), if_neg (by omega), if_pos (by omega)]
    push_cast
    rw [add_sub_cancel_left]
  · simp only [if_true]
    rw [if_pos (by omega), show ((0x13 : ℤ) - ((0x13 - E : ℕ) : ℤ)) = E by omega]

/-- A medium number with digits, behind its tag. -/
theorem decode_medium (sign : Bool) {E : ℕ} (hE : E ≤ 10) (aKey : List UInt8) {m i : ℕ} {e : ℤ}
    (hdigits : decodeDigits (maskOf sign) aKey 0 E 1 = some (m, e, i)) (hm : m ≠ 0) :
    sqlite4VdbeDecodeNumericKey (.ofNat (mediumTag sign E) :: aKey) =
      some (⟨sign, false, toShort (2 * e), m⟩, i) := by
  have htag : (UInt8.ofNat (mediumTag sign E)).toNat = mediumTag sign E := by
    refine toNat_ofNat_of_lt ?_
    unfold mediumTag
    split_ifs <;> omega
  have hspecial : ∀ t ∈ [0x06, 0xf9, 0x07, 0xf8, 0x15, 0xea, 0x23, 0xdc],
      mediumTag sign E ≠ t := by
    intro t ht
    simp only [List.mem_cons, List.not_mem_nil, or_false] at ht
    unfold mediumTag
    split_ifs <;> omega
  simp only [List.mem_cons, List.not_mem_nil, or_false, forall_eq_or_imp, forall_eq] at hspecial
  obtain ⟨h1, h2, h3, h4, h5, h6, h7, h8⟩ := hspecial
  rw [sqlite4VdbeDecodeNumericKey, htag]
  simp only [h1, h2, h3, h4, h5, h6, h7, h8, or_self, if_false, decodeTag_medium sign hE]
  rw [List.drop_one, List.tail_cons, hdigits]
  simp only [hm, if_false]

/-- **An integer reads back from its key**, also where other bytes follow. -/
theorem decodeIntKey {v : ℤ} (hv : -2 ^ 63 ≤ v ∧ v < 2 ^ 63) (rest : List UInt8) :
    ∃ num, sqlite4VdbeDecodeNumericKey (sqlite4VdbeEncodeIntKey v ++ rest) =
        some (num, (sqlite4VdbeEncodeIntKey v).length) ∧ sqlite4_num_to_int64 num = v := by
  have hfin := sqlite4_num_from_int64_finite hv.1 hv.2
  by_cases h0 : v = 0
  · subst h0
    have hcode : sqlite4VdbeEncodeIntKey 0 = [0x15] := encodeNumericKey_zero hfin rfl
    rw [hcode]
    exact ⟨⟨false, false, 0, 0⟩, rfl, rfl⟩
  obtain ⟨N, q, hval, hN0, hlen, hparts⟩ := keyParts_int hv h0
  have hm0 : (sqlite4_num_from_int64 v).m ≠ 0 := fun h => h0 (Int.natAbs_eq_zero.mp h)
  obtain ⟨ds, hds⟩ : ∃ ds, ds = (Nat.digits 100 N).reverse := ⟨_, rfl⟩
  have hdslen : ds.length = (Nat.digits 100 N).length := by rw [hds, List.length_reverse]
  have hdigits : ds ≠ [] := by
    rw [hds, ne_eq, List.reverse_eq_nil_iff, Nat.digits_eq_nil_iff_eq_zero]
    exact hN0
  have hlt : ∀ d ∈ ds, d < 100 := fun d hd =>
    Nat.digits_lt_base (by omega) (List.mem_reverse.mp (hds ▸ hd))
  have hfold : ds.foldl (fun m d => m * 100 + d) 0 = N := by
    rw [hds]
    exact foldl_digits N
  have hN : N < 2 ^ 64 := by
    have : N ≤ N * 100 ^ q := Nat.le_mul_of_pos_right _ (by positivity)
    omega
  -- the exponents of integers are of the medium kind
  obtain ⟨E, hE⟩ : ∃ E, E = (Nat.digits 100 N).length + q := ⟨_, rfl⟩
  have hcode : sqlite4VdbeEncodeIntKey v =
      .ofNat (mediumTag (decide (v < 0)) E) :: writeDigits (decide (v < 0)) ds := by
    have henc := encodeNumericKey_nonzero hfin hm0
    rw [hparts, ← hds, putExponent_medium (by omega) (by omega)] at henc
    rw [sqlite4VdbeEncodeIntKey, henc, hE]
    rfl
  -- the digits are read back, then the exponent counts the zeros behind them
  have hread := decodeDigits_write (decide (v < 0)) hlt hdigits rest 0 E 1
  rw [hfold, Nat.mod_eq_of_lt hN] at hread
  refine ⟨⟨decide (v < 0), false, toShort (2 * (E - ds.length)), N⟩, ?_, ?_⟩
  · rw [hcode, List.cons_append, decode_medium _ (by omega) _ hread hN0, List.length_cons,
      writeDigits_length, Nat.add_comm]
  · have hexp : toShort (2 * ((E : ℤ) - ds.length)) = ((2 * q : ℕ) : ℤ) := by
      rw [show 2 * ((E : ℤ) - ds.length) = ((2 * q : ℕ) : ℤ) by omega]
      exact Int.bmod_eq_of_le (by omega) (by omega)
    rw [hexp]
    refine sqlite4_num_to_int64_eq hv ?_ false
    rw [pow_mul]
    exact hval

/-! ### Keys of integers -/

theorem memcmp_self (l : List UInt8) (n : ℕ) : memcmp l l n = 0 := by
  induction l generalizing n with
  | nil => rfl
  | cons u l ih =>
      rcases n with - | n
      · rfl
      · rw [memcmp, if_pos rfl, ih]

/-- Words that part inside both are told apart by `memcmp` on their common length. -/
theorem memcmp_of_diverges {o : Ordering} {l m : List UInt8} (h : Diverges o l m) :
    compare (memcmp l m (min l.length m.length)) 0 = o := by
  cases h with
  | same l =>
      rw [memcmp_self]
      rfl
  | @split _ p u v s t huv ho =>
      induction p with
      | nil =>
          have hne : u ≠ v := by
            rintro rfl
            exact ho (huv.symm.trans Std.ReflOrd.compare_self)
          simp only [List.nil_append, List.length_cons, Nat.succ_min_succ, memcmp]
          rw [if_neg hne]
          rw [compare_toNat] at huv
          have hnat : u.toNat ≠ v.toNat := fun heq => hne (UInt8.toNat_inj.mp heq)
          split_ifs with hlt
          · rw [← huv, Nat.compare_eq_lt.mpr (UInt8.lt_iff_toNat_lt.mp hlt)]
            rfl
          · rw [UInt8.lt_iff_toNat_lt] at hlt
            rw [← huv, Nat.compare_eq_gt.mpr (by omega)]
            rfl
      | cons w p ih =>
          simp only [List.cons_append, List.length_cons, Nat.succ_min_succ, memcmp,
            if_true]
          exact ih

/-- The sign of `memcmp` of two codes that part inside both. -/
theorem memcmp_sign {α : Type*} [LinearOrder α] {x y : α} {l m : List UInt8} {d : ℤ}
    (h : Diverges (compare x y) l m) (hd : compare x y = compare d 0) :
    (memcmp l m (min l.length m.length)).sign = d.sign := by
  have hcmp := memcmp_of_diverges h
  rw [hd] at hcmp
  rcases lt_trichotomy d 0 with hlt | rfl | hgt
  · rw [compare_lt_iff_lt.mpr hlt] at hcmp
    rw [Int.sign_eq_neg_one_of_neg (compare_lt_iff_lt.mp hcmp), Int.sign_eq_neg_one_of_neg hlt]
  · rw [compare_eq_iff_eq.mpr rfl] at hcmp
    rw [compare_eq_iff_eq.mp hcmp]
  · rw [compare_gt_iff_gt.mpr hgt] at hcmp
    rw [Int.sign_eq_one_of_pos (compare_gt_iff_gt.mp hcmp), Int.sign_eq_one_of_pos hgt]

/-- **Keys of `i64` rowids**: a key reads back as its number, of exactly its bytes;
`memcmp` of two keys on their common length has the sign of the difference of the
numbers; and no key is a proper prefix of another. -/
theorem sqlite4VdbeEncodeIntKey_spec (a b : Int64) :
    (∃ num, sqlite4VdbeDecodeNumericKey (sqlite4VdbeEncodeIntKey a.toInt) =
          some (num, (sqlite4VdbeEncodeIntKey a.toInt).length) ∧
        sqlite4_num_to_int64 num = a.toInt) ∧
      (memcmp (sqlite4VdbeEncodeIntKey a.toInt) (sqlite4VdbeEncodeIntKey b.toInt)
          (min (sqlite4VdbeEncodeIntKey a.toInt).length
            (sqlite4VdbeEncodeIntKey b.toInt).length)).sign = (a.toInt - b.toInt).sign ∧
      (sqlite4VdbeEncodeIntKey a.toInt <+: sqlite4VdbeEncodeIntKey b.toInt →
        sqlite4VdbeEncodeIntKey a.toInt = sqlite4VdbeEncodeIntKey b.toInt) := by
  have ha : -2 ^ 63 ≤ a.toInt ∧ a.toInt < 2 ^ 63 := ⟨a.le_toInt, a.toInt_lt⟩
  have hb : -2 ^ 63 ≤ b.toInt ∧ b.toInt < 2 ^ 63 := ⟨b.le_toInt, b.toInt_lt⟩
  have hdiv := encodeIntKey_diverges ha hb
  refine ⟨?_, ?_, hdiv.eq_of_prefix⟩
  · have hread := decodeIntKey ha []
    rwa [List.append_nil] at hread
  · refine memcmp_sign hdiv ?_
    rcases lt_trichotomy a.toInt b.toInt with hlt | heq | hgt
    · rw [compare_lt_iff_lt.mpr (show (a.toInt : ℚ) < b.toInt by exact_mod_cast hlt),
        compare_lt_iff_lt.mpr (by omega)]
    · rw [compare_eq_iff_eq.mpr (show (a.toInt : ℚ) = b.toInt by rw [heq]),
        compare_eq_iff_eq.mpr (by omega)]
    · rw [compare_gt_iff_gt.mpr (show (b.toInt : ℚ) < a.toInt by exact_mod_cast hgt),
        compare_gt_iff_gt.mpr (by omega)]

end MoVeBench
