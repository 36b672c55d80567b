/-
MoVeBench/NumText.lean

Numbers as text (`sqlite4_num_to_text` of `math.c`).

A number is written as an integer, with a decimal point among its digits or in front of them, or
with an exponent.

* The text fits the thirty bytes that callers have for it, and the length that is returned is that
  of the text, but for `0.0` (`sqlite4_num_to_text_fits`).
* A number whose digits have room in a signed integer of 64 bits is read back from its text, if
  and only if the exponent of its first digit has three digits at most
  (`sqlite4_num_from_text_to_text`): the reader takes no longer ones.
-/
import MoVeBench.NumRead

namespace MoVeBench

/-! ### The writer -/

/-- The loop of `renderInt`; numbers of 64 bits have up to twenty digits. -/
def renderLoop : ℕ → ℕ → List UInt8 → List UInt8
  | 0, _, z => z
  | n + 1, v, z =>
      let z := digitChar (v % 10) :: z
      if v / 10 > 0 then renderLoop n (v / 10) z else z

/-- `renderInt`, without the zero byte at the end. -/
def renderInt (v : ℕ) : List UInt8 := renderLoop 20 v []

def removeTrailingZeros (z : List UInt8) : List UInt8 := z.rdropWhile (· == 0x30)

/-- The end of `sqlite4_num_to_text`: exponential notation. -/
def exponentialText (z zNum : List UInt8) (e : ℤ) : List UInt8 :=
  let digits := if zNum.length > 1 then removeTrailingZeros zNum else zNum
  let e := if zNum.length > 1 then toShort (e + ((zNum.length : ℤ) - digits.length)) else e
  let rest := if digits.length ≠ 1 then 0x2e :: digits.drop 1 else []
  let e := if digits.length ≠ 1 then toShort (e + ((digits.length : ℤ) - 1)) else e
  let sign := if e < 0 then 0x2d else 0x2b
  let e := if e < 0 then toShort (-e) else e
  z ++ zNum.take 1 ++ rest ++ [0x65, sign] ++ renderInt (e % 2 ^ 15).toNat

/-- `sqlite4_num_to_text`: the text in `zOut`, without the zero byte at the end, and what is
returned. -/
def sqlite4_num_to_text (x : Num) (bReal : Bool) : List UInt8 × ℕ :=
  let z : List UInt8 := if x.sign ∧ x.m > 0 then [0x2d] else []
  if x.e > mxExp then
    -- `NaN` or `inf`
    (z ++ if x.m = 0 then [0x4e, 0x61, 0x4e] else [0x69, 0x6e, 0x66], z.length + 3)
  else if x.m = 0 then
    -- The length is that of `0` in both cases.
    (z ++ if bReal then [0x30, 0x2e, 0x30] else [0x30], 1 + z.length)
  else
    let zNum := renderInt x.m
    let n : ℤ := zNum.length
    if x.e ≥ 0 ∧ x.e + n ≤ 25 then
      let z := z ++ zNum ++ List.replicate x.e.toNat 0x30 ++ if bReal then [0x2e, 0x30] else []
      (z, z.length)
    else if x.e < 0 ∧ n + x.e > 0 then
      let m := (n + x.e).toNat
      let rest := removeTrailingZeros (zNum.drop m)
      let z := z ++ zNum.take m ++
        if rest.length > 0 then 0x2e :: rest else if bReal then [0x2e, 0x30] else []
      (z, z.length)
    else if x.e < 0 ∧ x.e ≥ -n - 5 then
      let j := (-(n + x.e)).toNat
      let z := z ++ [0x30, 0x2e] ++ List.replicate j 0x30 ++ removeTrailingZeros zNum
      (z, z.length)
    else
      let z := exponentialText z zNum x.e
      (z, z.length)

/-! ### Digits of a number -/

theorem digitsFrom_append (N : ℕ) (ds es : List ℕ) :
    digitsFrom N (ds ++ es) = digitsFrom (digitsFrom N ds) es := by
  rw [digitsFrom, List.foldl_append, digitsFrom, digitsFrom]

theorem digitsFrom_zeros (N c : ℕ) : digitsFrom N (List.replicate c 0) = N * 10 ^ c := by
  induction c generalizing N with
  | zero => simp [digitsFrom]
  | succ c ih =>
      rw [List.replicate_succ, digitsFrom, List.foldl_cons, ← digitsFrom, ih, pow_succ']
      ring

/-- The digits of a number, the first one in front. -/
def decimals (v : ℕ) : List ℕ := if v = 0 then [0] else (Nat.digits 10 v).reverse

theorem decimals_lt {v d : ℕ} (h : d ∈ decimals v) : d < 10 := by
  unfold decimals at h
  split_ifs at h
  · obtain rfl := List.mem_singleton.mp h
    omega
  · exact Nat.digits_lt_base (by omega) (List.mem_reverse.mp h)

theorem decimals_ne_nil (v : ℕ) : decimals v ≠ [] := by
  unfold decimals
  split_ifs with h
  · exact List.cons_ne_nil _ _
  · rw [Ne, List.reverse_eq_nil_iff]
    exact Nat.digits_ne_nil_iff_ne_zero.mpr h

theorem digitsFrom_decimals (v : ℕ) : digitsFrom 0 (decimals v) = v := by
  unfold decimals
  split_ifs with h
  · rw [h]
    rfl
  · conv_rhs => rw [← Nat.ofDigits_digits 10 v, Nat.ofDigits_eq_foldr]
    rw [digitsFrom, List.foldl_reverse]
    congr 1
    funext d n
    push_cast
    omega

theorem decimals_length_le {v k : ℕ} (hk : 0 < k) (h : v < 10 ^ k) : (decimals v).length ≤ k := by
  unfold decimals
  split_ifs with h0
  · exact hk
  · rw [List.length_reverse]
    exact (Nat.digits_length_le_iff (by omega) v).mpr h

/-- A number lies between the powers of ten of its length. -/
theorem decimals_length_spec {v : ℕ} (h : v ≠ 0) :
    10 ^ ((decimals v).length - 1) ≤ v ∧ v < 10 ^ (decimals v).length := by
  rw [decimals, if_neg h, List.length_reverse]
  refine ⟨?_, Nat.lt_base_pow_length_digits (by omega)⟩
  have hpos : 0 < (Nat.digits 10 v).length :=
    List.length_pos_of_ne_nil (Nat.digits_ne_nil_iff_ne_zero.mpr h)
  obtain ⟨k, hk⟩ : ∃ k, (Nat.digits 10 v).length = k + 1 := ⟨_, (Nat.succ_pred_eq_of_pos hpos).symm⟩
  have hle := Nat.base_pow_length_digits_le 10 v (by omega) h
  rw [hk, pow_succ] at hle
  rw [hk, Nat.add_sub_cancel]
  omega

theorem decimals_step {v : ℕ} (h : v / 10 > 0) :
    decimals v = decimals (v / 10) ++ [v % 10] := by
  rw [decimals, if_neg (by omega), decimals, if_neg (by omega),
    Nat.digits_def' (by omega) (by omega), List.reverse_cons]

theorem renderLoop_eq {n v : ℕ} (hn : 0 < n) (h : v < 10 ^ n) (z : List UInt8) :
    renderLoop n v z = (decimals v).map digitChar ++ z := by
  induction n generalizing v z with
  | zero => omega
  | succ n ih =>
      rw [renderLoop]
      split_ifs with hv
      · have hn' : 0 < n := by
          by_contra hn'
          obtain rfl : n = 0 := by omega
          omega
        rw [ih hn' (by rw [pow_succ] at h; omega), decimals_step hv]
        simp
      · have hsmall : v < 10 := by omega
        rw [decimals]
        split_ifs with h0
        · rw [h0]
          rfl
        · rw [Nat.digits_of_lt 10 v h0 hsmall, Nat.mod_eq_of_lt hsmall]
          rfl

theorem renderInt_eq {v : ℕ} (h : v < 10 ^ 20) : renderInt v = (decimals v).map digitChar := by
  rw [renderInt, renderLoop_eq (by omega) h, List.append_nil]

theorem removeTrailingZeros_eq {ds : List ℕ} (hds : ∀ d ∈ ds, d < 10) :
    ∃ es c, ds = es ++ List.replicate c 0 ∧
      removeTrailingZeros (ds.map digitChar) = es.map digitChar := by
  induction ds using List.reverseRecOn with
  | nil => exact ⟨[], 0, rfl, rfl⟩
  | append_singleton ds d ih =>
      have hd : d < 10 := hds d (by simp)
      rw [removeTrailingZeros, List.map_append, List.map_singleton]
      by_cases h0 : d = 0
      · subst h0
        obtain ⟨es, c, rfl, hes⟩ := ih fun d hd => hds d (List.mem_append_left _ hd)
        refine ⟨es, c + 1, ?_, ?_⟩
        · rw [List.append_assoc, ← List.replicate_succ']
        · rw [List.rdropWhile_concat_pos _ _ _ (by decide)]
          exact hes
      · have hne : ∀ d < 10, d ≠ 0 → ¬ (digitChar d == 0x30) = true := by decide
        refine ⟨ds ++ [d], 0, by simp, ?_⟩
        rw [List.rdropWhile_concat_neg (· == 0x30) _ _ (hne d hd h0)]
        simp

/-! ### The length of the text -/

/-- A string of up to `k` bytes. -/
structure TextFits (z : List UInt8) (k : ℕ) : Prop where
  length_le : z.length ≤ k
  nonzero : 0 ∉ z

theorem TextFits.append {z z' : List UInt8} {k l : ℕ} (h : TextFits z k) (h' : TextFits z' l) :
    TextFits (z ++ z') (k + l) := by
  refine ⟨?_, ?_⟩
  · rw [List.length_append]
    exact Nat.add_le_add h.length_le h'.length_le
  · rw [List.mem_append, not_or]
    exact ⟨h.nonzero, h'.nonzero⟩

theorem TextFits.mono {z : List UInt8} {k l : ℕ} (h : TextFits z k) (hk : k ≤ l) :
    TextFits z l :=
  ⟨h.length_le.trans hk, h.nonzero⟩

theorem TextFits.sub {z z' : List UInt8} {k l : ℕ} (h : TextFits z k) (hz : z' ⊆ z)
    (hl : z'.length ≤ l) : TextFits z' l :=
  ⟨hl, fun h0 => h.nonzero (hz h0)⟩

theorem removeTrailingZeros_le (z : List UInt8) : removeTrailingZeros z <+: z :=
  List.rdropWhile_prefix _ z

theorem textFits_zeros (k : ℕ) : TextFits (List.replicate k 0x30) k :=
  ⟨(List.length_replicate).le, fun h => absurd (List.eq_of_mem_replicate h) (by decide)⟩

theorem textFits_renderInt {v k : ℕ} (hk : 0 < k) (hk' : k ≤ 20) (h : v < 10 ^ k) :
    TextFits (renderInt v) k := by
  rw [renderInt_eq (h.trans_le (Nat.pow_le_pow_right (by omega) hk'))]
  refine ⟨?_, fun h0 => ?_⟩
  · rw [List.length_map]
    exact decimals_length_le hk h
  · obtain ⟨d, hd, hd0⟩ := List.mem_map.mp h0
    exact (digitChar_spec d (decimals_lt hd)).1 hd0

theorem textFits_exponential {z zNum : List UInt8} (hz : TextFits z 1) (hnum : TextFits zNum 20)
    (e : ℤ) : TextFits (exponentialText z zNum e) 29 := by
  obtain ⟨digits, hdigits, hsub⟩ : ∃ digits,
      (if zNum.length > 1 then removeTrailingZeros zNum else zNum) = digits ∧ digits <+: zNum := by
    refine ⟨_, rfl, ?_⟩
    split_ifs
    · exact removeTrailingZeros_le zNum
    · exact List.prefix_refl zNum
  have hrest : TextFits (if digits.length ≠ 1 then 0x2e :: digits.drop 1 else []) 20 := by
    have hlen := hsub.length_le
    have hle := hnum.length_le
    split_ifs
    · refine ⟨?_, ?_⟩
      · rw [List.length_cons, List.length_drop]
        omega
      · rw [List.mem_cons, not_or]
        exact ⟨by decide, fun h0 => hnum.nonzero (hsub.subset (List.mem_of_mem_drop h0))⟩
    · exact ⟨Nat.zero_le _, List.not_mem_nil⟩
  have hmark : ∀ e : ℤ, TextFits [0x65, if e < 0 then 0x2d else 0x2b] 2 := by
    intro e
    refine ⟨le_rfl, ?_⟩
    split_ifs <;> decide
  have hexp : ∀ e : ℤ, TextFits (renderInt (e % 2 ^ 15).toNat) 5 := fun e =>
    textFits_renderInt (by omega) (by omega) (by omega)
  have hhead := hz.append (hnum.sub (List.take_subset 1 zNum) (List.length_take_le 1 zNum))
  unfold exponentialText
  rw [hdigits]
  exact ((hhead.append hrest).append (hmark _)).append (hexp _)

/-- **The text fits**, and its length is returned, unless it is `0.0`. -/
theorem sqlite4_num_to_text_fits {x : Num} (hm : x.m < 2 ^ 64) (bReal : Bool) :
    (sqlite4_num_to_text x bReal).1.length + 1 ≤ 30 ∧ 0 ∉ (sqlite4_num_to_text x bReal).1 ∧
      ((sqlite4_num_to_text x bReal).2 = (sqlite4_num_to_text x bReal).1.length ↔
        ¬ (x.e ≤ mxExp ∧ x.m = 0 ∧ bReal = true)) := by
  obtain ⟨z, hz⟩ : ∃ z : List UInt8, (if x.sign ∧ x.m > 0 then [0x2d] else []) = z := ⟨_, rfl⟩
  have hzfits : TextFits z 1 := by
    rw [← hz]
    split_ifs
    · exact ⟨le_rfl, by decide⟩
    · exact ⟨Nat.zero_le _, List.not_mem_nil⟩
  have hnum : TextFits (renderInt x.m) 20 :=
    textFits_renderInt (by omega) le_rfl (hm.trans (by norm_num))
  have hreturn : ∀ (t : List UInt8) (n : ℕ), TextFits t 29 → n = t.length →
      ¬ (x.e ≤ mxExp ∧ x.m = 0 ∧ bReal = true) →
      t.length + 1 ≤ 30 ∧ 0 ∉ t ∧ (n = t.length ↔ ¬ (x.e ≤ mxExp ∧ x.m = 0 ∧ bReal = true)) :=
    fun t n h hn hzero => ⟨Nat.succ_le_succ h.length_le, h.nonzero, iff_of_true hn hzero⟩
  have hreal : TextFits (if bReal then [0x2e, 0x30] else []) 2 := by
    split_ifs
    · exact ⟨le_rfl, by decide⟩
    · exact ⟨Nat.zero_le _, List.not_mem_nil⟩
  unfold sqlite4_num_to_text
  rw [hz]
  by_cases hinf : x.e > mxExp
  · rw [if_pos hinf]
    refine hreturn _ _ ((hzfits.append (l := 3) ?_).mono (by omega)) ?_ fun h => by omega
    · split_ifs <;> exact ⟨le_rfl, by decide⟩
    · split_ifs <;> simp
  rw [if_neg hinf]
  by_cases h0 : x.m = 0
  · -- The text may be longer than what is returned.
    rw [if_pos h0]
    have hz0 : z = [] := by
      rw [← hz, if_neg (by omega)]
    subst hz0
    cases bReal
    · simp
    · simp [not_lt.mp hinf, h0]
  rw [if_neg h0]
  have hlen := hnum.length_le
  by_cases hint : x.e ≥ 0 ∧ x.e + (renderInt x.m).length ≤ 25
  · rw [if_pos hint]
    refine hreturn _ _ (((hzfits.append ⟨le_rfl, hnum.nonzero⟩).append (textFits_zeros _)).append
      hreal |>.mono ?_) rfl fun h => h0 h.2.1
    omega
  rw [if_neg hint]
  by_cases hpoint : x.e < 0 ∧ ((renderInt x.m).length : ℤ) + x.e > 0
  · rw [if_pos hpoint]
    refine hreturn _ _ ?_ rfl fun h => h0 h.2.1
    obtain ⟨m, hm'⟩ : ∃ m : ℕ, ((renderInt x.m).length : ℤ) + x.e = m :=
      ⟨(((renderInt x.m).length : ℤ) + x.e).toNat, by omega⟩
    rw [hm', Int.toNat_natCast]
    have hrest := (removeTrailingZeros_le ((renderInt x.m).drop m)).length_le
    rw [List.length_drop] at hrest
    have hsub := (removeTrailingZeros_le ((renderInt x.m).drop m)).subset
    refine ((hzfits.append (hnum.sub (List.take_subset m _) (List.length_take_le m _))).append
      (l := (renderInt x.m).length - m + 2) ?_).mono (by omega)
    split_ifs
    · refine ⟨?_, ?_⟩
      · rw [List.length_cons]
        omega
      · rw [List.mem_cons, not_or]
        exact ⟨by decide, fun h => hnum.nonzero (List.mem_of_mem_drop (hsub h))⟩
    · exact ⟨by simp, by decide⟩
    · exact ⟨Nat.zero_le _, List.not_mem_nil⟩
  rw [if_neg hpoint]
  by_cases hsmall : x.e < 0 ∧ x.e ≥ -((renderInt x.m).length : ℤ) - 5
  · rw [if_pos hsmall]
    refine hreturn _ _ ?_ rfl fun h => h0 h.2.1
    refine (((hzfits.append (l := 2) ⟨le_rfl, by decide⟩).append (textFits_zeros _)).append
      (hnum.sub (removeTrailingZeros_le _).subset (l := 20) ?_)).mono ?_
    · exact (removeTrailingZeros_le _).length_le.trans hlen
    · omega
  · rw [if_neg hsmall]
    exact hreturn _ _ (textFits_exponential hzfits hnum _) rfl fun h => h0 h.2.1

/-- The longest text. -/
theorem sqlite4_num_to_text_fits_longest :
    (sqlite4_num_to_text ⟨true, false, -32767, 2 ^ 64 - 1⟩ false).2 = 29 ∧
      (sqlite4_num_to_text ⟨true, false, -32767, 2 ^ 64 - 1⟩ false).1.length + 1 ≤ 30 :=
  ⟨by decide +kernel, (sqlite4_num_to_text_fits (by decide) false).1⟩

/-! ### The text as a numeral -/

/-- The sign in front of a number that is not zero. -/
def signOf (x : Num) : Option Bool := if x.sign then some true else none

/-- A numeral with the digits of a number, but for zeros at the end, if its last digit stands for
the power `q` of ten. -/
structure Denotes (x : Num) (t : Numeral) (q : ℤ) : Prop where
  proper : t.Proper
  sign : t.sign = signOf x
  value : (digitsFrom 0 t.digits : ℚ) * 10 ^ q = x.mag
  kept : ∀ K, x.m ≤ K → ∃ M j, digitsFrom 0 t.digits = M * 10 ^ j ∧ M ≤ K

variable {x : Num}

theorem Denotes.of_digits {t : Numeral} {N a c : ℕ} {q : ℤ} (hp : t.Proper)
    (hs : t.sign = signOf x) (hN : digitsFrom 0 t.digits = N * 10 ^ a) (hm : N * 10 ^ c = x.m)
    (hq : q + a = x.e + c) : Denotes x t q where
  proper := hp
  sign := hs
  value := by
    have hqa : (10 : ℚ) ^ (q + a) = 10 ^ (x.e + c) := by rw [hq]
    rw [zpow_add₀ (by norm_num), zpow_add₀ (by norm_num), zpow_natCast, zpow_natCast] at hqa
    rw [hN, Num.mag, ← hm]
    push_cast
    linear_combination (N : ℚ) * hqa
  kept K hK := ⟨N, a, hN, (Nat.le_mul_of_pos_right N (by positivity)).trans (hm.le.trans hK)⟩

theorem Numeral.place_integer {t : Numeral} (h : t.exp = none) :
    t.place = -((t.frac.getD []).length : ℤ) := by
  simp [Numeral.place, Numeral.expDigits, h, digitsFrom]

/-- A numeral without an exponent. -/
theorem Numeral.proper_integer {t : Numeral} (h : t.exp = none) (hw : t.whole ≠ [])
    (hds : ∀ d ∈ t.digits, d < 10) (hlen : t.digits.length ≤ 30000) : t.Proper where
  whole := hw
  exp := by simp [h]
  digits := hds
  expDigits := by simp [Numeral.expDigits, h]
  length := hlen
  expLength := by simp [Numeral.expDigits, h]

theorem digitChar_zero : digitChar 0 = 0x30 := by decide

theorem decimals_length {v : ℕ} (h : v < 10 ^ 20) : (renderInt v).length = (decimals v).length := by
  rw [renderInt_eq h, List.length_map]

/-- The digits behind the point, of which there may be none. -/
def fracOf (ds : List ℕ) (bReal : Bool) : Option (List ℕ) :=
  if ds ≠ [] then some ds else if bReal then some [0] else none

theorem fracOf_cases (ds : List ℕ) (bReal : Bool) :
    ds ≠ [] ∧ fracOf ds bReal = some ds ∨
      ds = [] ∧ (fracOf ds bReal = none ∧ bReal = false ∨
        fracOf ds bReal = some [0] ∧ bReal = true) := by
  unfold fracOf
  by_cases hds : ds = []
  · cases bReal <;> simp [hds]
  · simp [hds]

/-- An integer. -/
theorem text_integer (hm : x.m < 10 ^ 20) (bReal : Bool) (he : 0 ≤ x.e)
    (hlen : x.e + (renderInt x.m).length ≤ 25) :
    ∃ t : Numeral, t.exp = none ∧ Denotes x t t.place ∧
      t.text = signText (signOf x) ++ renderInt x.m ++ List.replicate x.e.toNat 0x30 ++
        if bReal then [0x2e, 0x30] else [] := by
  obtain ⟨e, he⟩ := Int.eq_ofNat_of_zero_le he
  have hdigits : digitsFrom 0 (decimals x.m ++ List.replicate e 0) = x.m * 10 ^ e := by
    rw [digitsFrom_append, digitsFrom_decimals, digitsFrom_zeros]
  have hlt : ∀ d ∈ decimals x.m ++ List.replicate e 0, d < 10 := by
    intro d hd
    rcases List.mem_append.mp hd with hd | hd
    · exact decimals_lt hd
    · rw [List.eq_of_mem_replicate hd]
      omega
  rw [decimals_length hm] at hlen
  rw [he] at hlen ⊢
  rw [Int.toNat_natCast, renderInt_eq hm]
  refine ⟨⟨signOf x, decimals x.m ++ List.replicate e 0, if bReal then some [0] else none, none⟩,
    rfl, ?_, ?_⟩
  · cases bReal
    · refine .of_digits (N := x.m) (a := e) (c := 0)
        (Numeral.proper_integer rfl (by simp [decimals_ne_nil]) ?_ ?_) rfl ?_ (by simp) ?_
      · simpa [Numeral.digits] using hlt
      · simp [Numeral.digits]
        omega
      · simpa [Numeral.digits] using hdigits
      · rw [Numeral.place_integer rfl, he]
        simp
    · refine .of_digits (N := x.m) (a := e + 1) (c := 0)
        (Numeral.proper_integer rfl (by simp [decimals_ne_nil]) ?_ ?_) rfl ?_ (by simp) ?_
      · intro d hd
        rcases List.mem_append.mp hd with hd | hd
        · exact hlt d hd
        · rw [List.mem_singleton.mp hd]
          omega
      · simp [Numeral.digits]
        omega
      · rw [Numeral.digits, digitsFrom_append, hdigits, pow_succ]
        show 10 * (x.m * 10 ^ e) + 0 = _
        ring
      · rw [Numeral.place_integer rfl, he]
        simp
  · cases bReal <;> simp [Numeral.text, pointText, expText, digitChar_zero]

/-- A number with the point among its digits. -/
theorem text_point (hm : x.m < 10 ^ 20) (bReal : Bool) (he : x.e < 0)
    (hpos : ((renderInt x.m).length : ℤ) + x.e > 0) {k : ℕ}
    (hk : ((renderInt x.m).length : ℤ) + x.e = k) {rest : List UInt8}
    (hrest : removeTrailingZeros ((renderInt x.m).drop k) = rest) :
    ∃ t : Numeral, t.exp = none ∧ Denotes x t t.place ∧
      t.text = signText (signOf x) ++ (renderInt x.m).take k ++
        if rest.length > 0 then 0x2e :: rest else if bReal then [0x2e, 0x30] else [] := by
  rw [decimals_length hm] at hpos hk
  rw [renderInt_eq hm, ← List.map_drop] at hrest
  rw [renderInt_eq hm, ← List.map_take]
  have hlt : ∀ d ∈ (decimals x.m).drop k, d < 10 := fun d hd =>
    decimals_lt (List.mem_of_mem_drop hd)
  obtain ⟨es, c, hes, hmap⟩ := removeTrailingZeros_eq hlt
  obtain rfl : es.map digitChar = rest := hmap.symm.trans hrest
  have hsplit : decimals x.m = (decimals x.m).take k ++ es ++ List.replicate c 0 := by
    rw [List.append_assoc, ← hes, List.take_append_drop]
  have hvalue : digitsFrom 0 ((decimals x.m).take k ++ es) * 10 ^ c = x.m := by
    conv_rhs => rw [← digitsFrom_decimals x.m, hsplit, digitsFrom_append, digitsFrom_zeros]
  have hlen := congrArg List.length hes
  rw [List.length_drop, List.length_append, List.length_replicate] at hlen
  have htwenty := decimals_length_le (by omega) hm
  have htake : (decimals x.m).take k ≠ [] := by
    rw [Ne, List.take_eq_nil_iff, not_or]
    exact ⟨by omega, decimals_ne_nil _⟩
  have hdigit : ∀ d ∈ (decimals x.m).take k ++ es, d < 10 := by
    intro d hd
    have hmem : d ∈ decimals x.m := by
      rw [hsplit]
      exact List.mem_append_left _ hd
    exact decimals_lt hmem
  have hlen' : ((decimals x.m).take k ++ es).length ≤ 20 := by
    rw [List.length_append, List.length_take]
    omega
  refine ⟨⟨signOf x, (decimals x.m).take k, fracOf es bReal, none⟩, rfl, ?_, ?_⟩
  · rcases fracOf_cases es bReal with ⟨hne, hfrac⟩ | ⟨rfl, ⟨hfrac, -⟩ | ⟨hfrac, -⟩⟩
    · refine .of_digits (a := 0) (Numeral.proper_integer rfl htake ?_ ?_) rfl ?_ hvalue ?_
      · simpa [Numeral.digits, hfrac] using hdigit
      · rw [Numeral.digits, hfrac]
        exact hlen'.trans (by omega)
      · rw [Numeral.digits, hfrac, pow_zero, mul_one]
        rfl
      · rw [Numeral.place_integer rfl, hfrac, Option.getD_some]
        push_cast
        omega
    · rw [List.append_nil] at hvalue hdigit hlen'
      refine .of_digits (a := 0) (Numeral.proper_integer rfl htake ?_ ?_) rfl ?_ hvalue ?_
      · simpa [Numeral.digits, hfrac] using hdigit
      · simpa [Numeral.digits, hfrac] using hlen'.trans (by omega)
      · simp [Numeral.digits, hfrac]
      · rw [Numeral.place_integer rfl, hfrac]
        simp at hlen ⊢
        omega
    · rw [List.append_nil] at hvalue hdigit hlen'
      refine .of_digits (a := 1) (Numeral.proper_integer rfl htake ?_ ?_) rfl ?_ hvalue ?_
      · intro d hd
        rw [Numeral.digits, hfrac] at hd
        rcases List.mem_append.mp hd with hd | hd
        · exact hdigit d hd
        · rw [List.mem_singleton.mp hd]
          omega
      · rw [Numeral.digits, hfrac, List.length_append]
        exact (Nat.add_le_add_right hlen' 1).trans (by omega)
      · rw [Numeral.digits, hfrac, digitsFrom_append, pow_one, mul_comm]
        rfl
      · rw [Numeral.place_integer rfl, hfrac]
        simp at hlen ⊢
        omega
  · rcases fracOf_cases es bReal with ⟨hne, hfrac⟩ | ⟨rfl, ⟨hfrac, hb⟩ | ⟨hfrac, hb⟩⟩
    · simp [Numeral.text, hfrac, pointText, expText, List.length_pos_of_ne_nil hne]
    · rw [Numeral.text, hfrac, hb]
      simp [pointText, expText]
    · rw [Numeral.text, hfrac, hb]
      simp [pointText, expText, digitChar_zero]

/-- The digits of a number without the zeros at the end. -/
theorem digits_without_zeros (h0 : x.m ≠ 0) (hm : x.m < 10 ^ 20) :
    ∃ es c, decimals x.m = es ++ List.replicate c 0 ∧ es ≠ [] ∧ digitsFrom 0 es * 10 ^ c = x.m ∧
      es.length + c = (decimals x.m).length ∧ (∀ d ∈ es, d < 10) ∧
      removeTrailingZeros (renderInt x.m) = es.map digitChar := by
  obtain ⟨es, c, hes, hmap⟩ :=
    removeTrailingZeros_eq fun d (hd : d ∈ decimals x.m) => decimals_lt hd
  have hvalue : digitsFrom 0 es * 10 ^ c = x.m := by
    rw [← digitsFrom_zeros, ← digitsFrom_append, ← hes, digitsFrom_decimals]
  refine ⟨es, c, hes, fun hnil => ?_, hvalue, by rw [hes]; simp, fun d hd => ?_, ?_⟩
  · rw [hnil, digitsFrom, List.foldl_nil, zero_mul] at hvalue
    exact h0 hvalue.symm
  · exact decimals_lt (hes ▸ List.mem_append_left _ hd)
  · rw [renderInt_eq hm, hmap]

/-- A number with the point in front of its digits. -/
theorem text_small (h0 : x.m ≠ 0) (hm : x.m < 10 ^ 20) {j : ℕ}
    (hj : -(((renderInt x.m).length : ℤ) + x.e) = j) (hfive : j ≤ 5) :
    ∃ t : Numeral, t.exp = none ∧ Denotes x t t.place ∧
      t.text = signText (signOf x) ++ [0x30, 0x2e] ++ List.replicate j 0x30 ++
        removeTrailingZeros (renderInt x.m) := by
  obtain ⟨es, c, -, -, hvalue, hlen, hlt, hmap⟩ := digits_without_zeros h0 hm
  have htwenty := decimals_length_le (by omega) hm
  rw [decimals_length hm] at hj
  rw [hmap]
  refine ⟨⟨signOf x, [0], some (List.replicate j 0 ++ es), none⟩, rfl, ?_, ?_⟩
  · refine .of_digits (a := 0) (Numeral.proper_integer rfl (List.cons_ne_nil _ _) ?_ ?_) rfl ?_
      hvalue ?_
    · intro d hd
      rcases List.mem_append.mp hd with hd | hd
      · rw [List.mem_singleton.mp hd]
        omega
      rcases List.mem_append.mp hd with hd | hd
      · rw [List.eq_of_mem_replicate hd]
        omega
      · exact hlt d hd
    · simp [Numeral.digits]
      omega
    · rw [Numeral.digits, digitsFrom_append, Option.getD_some, digitsFrom_append,
        digitsFrom_zeros, pow_zero, mul_one]
      simp [digitsFrom]
    · rw [Numeral.place_integer rfl, Option.getD_some, List.length_append, List.length_replicate]
      push_cast
      omega
  · simp [Numeral.text, pointText, expText, digitChar_zero]

/-- A number in exponential notation; `E` is the exponent of its first digit.  The smallest
exponent of all has no opposite of type `short`. -/
theorem text_exponential (h0 : x.m ≠ 0) (hm : x.m < 10 ^ 20) (he : -32768 ≤ x.e) (he' : x.e ≤ 999)
    {E : ℤ} (hE : E = x.e + (decimals x.m).length - 1) :
    ∃ t : Numeral, t.text = exponentialText (signText (signOf x)) (renderInt x.m) x.e ∧
      Denotes x t (E - (t.frac.getD []).length) ∧
      (E = -32768 ∧ digitsFrom 0 t.expDigits = 0 ∧ t.place = -((t.frac.getD []).length : ℤ) ∨
        (digitsFrom 0 t.expDigits : ℤ) = |E| ∧ t.place = E - (t.frac.getD []).length) := by
  obtain ⟨es, c, hes, hnil, hvalue, hlen, hlt, hmap⟩ := digits_without_zeros h0 hm
  have htwenty := decimals_length_le (by omega) hm
  have hpos := List.length_pos_of_ne_nil hnil
  -- what the lines of the source compute
  have hdigits : (if (renderInt x.m).length > 1 then removeTrailingZeros (renderInt x.m)
      else renderInt x.m) = es.map digitChar := by
    split_ifs with hone
    · exact hmap
    · rw [decimals_length hm] at hone
      obtain rfl : c = 0 := by omega
      rw [renderInt_eq hm, hes]
      simp
  have hcut : (if (renderInt x.m).length > 1 then
      toShort (x.e + (((renderInt x.m).length : ℤ) - (es.map digitChar).length)) else x.e) =
      x.e + c := by
    rw [decimals_length hm, List.length_map]
    split_ifs with hone
    · rw [toShort_eq] <;> omega
    · omega
  have hfirst : (if (es.map digitChar).length ≠ 1 then
      toShort (x.e + c + (((es.map digitChar).length : ℤ) - 1)) else x.e + c) = E := by
    rw [List.length_map]
    split_ifs with hone
    · rw [toShort_eq] <;> omega
    · omega
  obtain ⟨E', hE'⟩ : ∃ E', ((if E < 0 then toShort (-E) else E) % 2 ^ 15).toNat = E' := ⟨_, rfl⟩
  have habs : E = -32768 ∧ E' = 0 ∨ (E' : ℤ) = |E| := by
    by_cases hneg : E < 0
    · rw [if_pos hneg] at hE'
      by_cases hmin : E = -32768
      · left
        refine ⟨hmin, ?_⟩
        rw [← hE', hmin]
        decide
      · right
        rw [toShort_eq (by omega) (by omega)] at hE'
        rw [abs_of_neg hneg]
        omega
    · right
      rw [if_neg hneg] at hE'
      rw [abs_of_nonneg (by omega)]
      omega
  have hE'lt : E' < 10 ^ 5 := by omega
  obtain ⟨frac, hfrac⟩ : ∃ frac : Option (List ℕ),
      (if es.length ≠ 1 then some (es.drop 1) else none) = frac := ⟨_, rfl⟩
  have hes' : es.take 1 ++ frac.getD [] = es := by
    rw [← hfrac]
    split_ifs with hone
    · exact List.take_append_drop 1 es
    · rw [Option.getD_none, List.append_nil, List.take_of_length_le (by omega)]
  have hlen' : (frac.getD []).length + 1 = es.length := by
    have := congrArg List.length hes'
    rw [List.length_append, List.length_take, min_eq_left hpos] at this
    omega
  have hexp : Numeral.expDigits ⟨signOf x, es.take 1, frac, some (some (decide (E < 0)),
      decimals E')⟩ = decimals E' := rfl
  refine ⟨⟨signOf x, es.take 1, frac, some (some (decide (E < 0)), decimals E')⟩, ?_, ?_, ?_⟩
  · have htake : (renderInt x.m).take 1 = (es.take 1).map digitChar := by
      rw [renderInt_eq hm, hes, ← List.map_take, List.take_append_of_le_length hpos]
    have hrest : (if (es.map digitChar).length ≠ 1 then 0x2e :: (es.map digitChar).drop 1
        else []) = pointText frac := by
      rw [← hfrac, List.length_map]
      split_ifs
      · rw [pointText, List.map_drop]
      · rfl
    simp only [exponentialText]
    rw [hdigits, hcut, hfirst, hE', htake, hrest, renderInt_eq (by omega), Numeral.text, expText]
    by_cases hneg : E < 0 <;> simp [hneg, signText]
  · refine .of_digits (a := 0) ?_ rfl ?_ hvalue (by dsimp only; omega)
    · exact {
        whole := by
          rw [Ne, List.take_eq_nil_iff, not_or]
          exact ⟨by omega, hnil⟩
        exp := fun y hy => by
          rw [← Option.mem_some.mp hy]
          exact decimals_ne_nil E'
        digits := fun d hd => hlt d (hes' ▸ hd)
        expDigits := fun d hd => decimals_lt (hexp ▸ hd)
        length := by
          rw [Numeral.digits, hes']
          omega
        expLength := by
          rw [hexp]
          exact (decimals_length_le (by omega) hE'lt).trans (by omega) }
    · rw [Numeral.digits, hes', pow_zero, mul_one]
  · rw [Numeral.place, hexp, digitsFrom_decimals]
    rcases habs with ⟨hmin, hzero⟩ | habs
    · left
      rw [hzero]
      exact ⟨hmin, rfl, by simp⟩
    · right
      refine ⟨habs, ?_⟩
      rw [habs]
      by_cases hneg : E < 0
      · simp [hneg, abs_of_neg hneg]
      · simp [hneg, abs_of_nonneg (not_lt.mp hneg)]

/-! ### Reading back -/

theorem signText_signOf (h0 : x.m ≠ 0) :
    (if x.sign ∧ x.m > 0 then [0x2d] else [] : List UInt8) = signText (signOf x) := by
  have hpos : x.m > 0 := Nat.pos_of_ne_zero h0
  rw [signOf]
  cases x.sign <;> simp [hpos, signText]

/-- **Every finite number is written as a numeral**.  If the exponent `E` of its first digit has
four or five digits, then it is behind an `e`. -/
theorem toText_numeral (hx : x.Finite) (h0 : x.m ≠ 0) (bReal : Bool) {E : ℤ}
    (hE : E = x.e + (decimals x.m).length - 1) :
    ∃ t : Numeral, t.text = (sqlite4_num_to_text x bReal).1 ∧
      ((-999 ≤ E ∧ E ≤ 999) ∧ digitsFrom 0 t.expDigits ≤ 999 ∧ Denotes x t t.place ∨
        ¬ (-999 ≤ E ∧ E ≤ 999) ∧ Denotes x t (E - (t.frac.getD []).length) ∧
          (digitsFrom 0 t.expDigits ≤ 999 → t.place = -((t.frac.getD []).length : ℤ))) := by
  have hm : x.m < 10 ^ 20 := hx.m_lt.trans (by norm_num)
  have hlow := hx.e_ge
  have hhigh : x.e ≤ 999 := hx.e_le
  have hlen := decimals_length hm
  have hpos := List.length_pos_of_ne_nil (decimals_ne_nil x.m)
  have htwenty := decimals_length_le (by omega) hm
  have hnear : -999 ≤ E ∧ E ≤ 999 → ∀ text, (∃ t : Numeral, t.exp = none ∧ Denotes x t t.place ∧
      t.text = text) → ∃ t : Numeral, t.text = text ∧
      ((-999 ≤ E ∧ E ≤ 999) ∧ digitsFrom 0 t.expDigits ≤ 999 ∧ Denotes x t t.place ∨
        ¬ (-999 ≤ E ∧ E ≤ 999) ∧ Denotes x t (E - (t.frac.getD []).length) ∧
          (digitsFrom 0 t.expDigits ≤ 999 → t.place = -((t.frac.getD []).length : ℤ))) := by
    rintro hE text ⟨t, hexp, hd, htext⟩
    exact ⟨t, htext, .inl ⟨hE, by simp [Numeral.expDigits, hexp, digitsFrom], hd⟩⟩
  unfold sqlite4_num_to_text
  rw [signText_signOf h0, if_neg (not_lt.mpr hhigh), if_neg h0]
  by_cases hint : x.e ≥ 0 ∧ x.e + (renderInt x.m).length ≤ 25
  · rw [if_pos hint]
    exact hnear (by omega) _ (text_integer hm bReal hint.1 hint.2)
  rw [if_neg hint]
  by_cases hpoint : x.e < 0 ∧ ((renderInt x.m).length : ℤ) + x.e > 0
  · rw [if_pos hpoint]
    exact hnear (by omega) _
      (text_point hm bReal hpoint.1 hpoint.2 (Int.toNat_of_nonneg hpoint.2.le).symm rfl)
  rw [if_neg hpoint]
  by_cases hsmall : x.e < 0 ∧ x.e ≥ -((renderInt x.m).length : ℤ) - 5
  · rw [if_pos hsmall]
    exact hnear (by omega) _
      (text_small h0 hm (Int.toNat_of_nonneg (by omega)).symm (by omega))
  rw [if_neg hsmall]
  obtain ⟨t, htext, hd, hexp⟩ := text_exponential h0 hm hlow hhigh hE
  refine ⟨t, htext, ?_⟩
  by_cases hrange : -999 ≤ E ∧ E ≤ 999
  · left
    rcases hexp with ⟨hmin, -⟩ | ⟨habs, hplace⟩
    · omega
    · have hE' := abs_le.mpr hrange
      exact ⟨hrange, by omega, hplace ▸ hd⟩
  · right
    refine ⟨hrange, hd, fun hexp' => ?_⟩
    rcases hexp with ⟨-, -, hplace⟩ | ⟨habs, -⟩
    · exact hplace
    · exact absurd (abs_le.mp (show |E| ≤ 999 by omega)) hrange

theorem numeral_noInf {t : Numeral} (ht : t.Proper) : NoInfAtEnd false t.text := by
  have hdigits : ∀ {ds : List ℕ}, (∀ d ∈ ds, d < 10) → ∀ c ∈ ds.map digitChar,
      c ≠ 0x69 ∧ c ≠ 0x49 := by
    intro ds hds c hc
    obtain ⟨d, hd, rfl⟩ := List.mem_map.mp hc
    exact (digitChar_spec d (hds d hd)).2.2.2.2.2.2
  have hsign : ∀ sign : Option Bool, ∀ c ∈ signText sign, c ≠ 0x69 ∧ c ≠ 0x49 := by
    rintro (_ | _ | _) <;> simp [signText]
  have hchars : ∀ c ∈ t.text, c ≠ 0x69 ∧ c ≠ 0x49 := by
    obtain ⟨sign, whole, frac, exp⟩ := t
    intro c hc
    simp only [Numeral.text, List.mem_append] at hc
    rcases hc with hc | hc | hc | hc
    · exact hsign sign c hc
    · exact hdigits (fun d hd => ht.digits d (List.mem_append_left _ hd)) c hc
    · rcases frac with _ | ds
      · cases hc
      rcases List.mem_cons.mp hc with rfl | hc
      · decide
      · exact hdigits (fun d hd => ht.digits d (List.mem_append_right _ hd)) c hc
    · rcases exp with _ | ⟨sign', ds⟩
      · cases hc
      rcases List.mem_cons.mp hc with rfl | hc
      · decide
      rcases List.mem_append.mp hc with hc | hc
      · exact hsign sign' c hc
      · exact hdigits ht.expDigits c hc
  refine .inr fun z hz hlen => ?_
  obtain ⟨c, z, rfl⟩ := List.exists_cons_of_length_pos (show 0 < z.length by omega)
  obtain ⟨hi, hI⟩ := hchars c (hz.subset List.mem_cons_self)
  simp [spellsInf, hi, hI]

/-- The magnitude of a number lies between the powers of ten of its first digit. -/
theorem mag_bounds (h0 : x.m ≠ 0) {E : ℤ} (hE : E = x.e + (decimals x.m).length - 1) :
    (10 : ℚ) ^ E ≤ x.mag ∧ x.mag < 10 ^ (E + 1) := by
  obtain ⟨hlow, hhigh⟩ := decimals_length_spec h0
  have hpos := List.length_pos_of_ne_nil (decimals_ne_nil x.m)
  have hu : (0 : ℚ) < 10 ^ x.e := by positivity
  constructor
  · rw [show E = (((decimals x.m).length - 1 : ℕ) : ℤ) + x.e by omega, zpow_add₀ (by norm_num),
      zpow_natCast, Num.mag]
    exact mul_le_mul_of_nonneg_right (by exact_mod_cast hlow) hu.le
  · rw [show E + 1 = ((decimals x.m).length : ℤ) + x.e by omega, zpow_add₀ (by norm_num),
      zpow_natCast, Num.mag]
    exact mul_lt_mul_of_pos_right (by exact_mod_cast hhigh) hu

/-- A number whose text is read back: its first digit has an exponent of three digits at most. -/
def Readable (x : Num) : Prop :=
  x.m = 0 ∨ (10 : ℚ) ^ (-999 : ℤ) ≤ x.mag ∧ x.mag < 10 ^ (1000 : ℤ)

theorem readable_iff (h0 : x.m ≠ 0) {E : ℤ} (hE : E = x.e + (decimals x.m).length - 1) :
    Readable x ↔ -999 ≤ E ∧ E ≤ 999 := by
  obtain ⟨hlow, hhigh⟩ := mag_bounds h0 hE
  have hten : (1 : ℚ) < 10 := by norm_num
  rw [Readable, or_iff_right h0]
  constructor
  · rintro ⟨h1, h2⟩
    have h3 := (zpow_lt_zpow_iff_right₀ hten).mp (h1.trans_lt hhigh)
    have h4 := (zpow_lt_zpow_iff_right₀ hten).mp (hlow.trans_lt h2)
    omega
  · rintro ⟨h1, h2⟩
    exact ⟨(zpow_le_zpow_right₀ hten.le h1).trans hlow,
      hhigh.trans_le (zpow_le_zpow_right₀ hten.le (by omega))⟩

/-- What the text of a number is read as. -/
def throughText (flags : TextFlags) (bReal : Bool) (x : Num) : Num :=
  (sqlite4_num_from_text (flags.enc.encode (sqlite4_num_to_text x bReal).1) flags).1

/-- A number that is read back up to one unit of the last digit that is kept. -/
structure ReadBack (x r : Num) : Prop where
  near : |r.toRat - x.toRat| ≤ 10 ^ r.e
  exact : r.approx = false → r.toRat = x.toRat
  kept : x.m ≤ largestInt x.sign → r.approx = false

theorem ReadsAs.readBack {r : Num} {t : Numeral} {q : ℤ} (hd : Denotes x t q)
    (h : ReadsAs r x.sign (digitsFrom 0 t.digits) q) : ReadBack x r := by
  have hvalue : x.toRat = (if x.sign then -1 else 1) * (digitsFrom 0 t.digits * 10 ^ q) := by
    rw [Num.toRat_eq, hd.value]
  exact ⟨hvalue ▸ h.near, fun happ => (h.exact happ).trans hvalue.symm,
    fun hm => h.approx.mpr (hd.kept _ hm)⟩

/-- Without an exponent that is not zero it is another number. -/
theorem ReadsAs.ne_of_shift {r : Num} {t : Numeral} {E : ℤ} {n : ℕ}
    (h : ReadsAs r x.sign (digitsFrom 0 t.digits) (-(n : ℤ))) (hd : Denotes x t (E - n))
    (h0 : x.m ≠ 0) (hm : x.m ≤ largestInt x.sign) (hE : E ≠ 0) : r.toRat ≠ x.toRat := by
  intro heq
  have hsign : (if x.sign = true then -1 else 1 : ℚ) ≠ 0 := by
    split_ifs <;> norm_num
  have hN : (digitsFrom 0 t.digits : ℚ) ≠ 0 := by
    intro hN
    have hvalue := hd.value
    rw [hN, zero_mul] at hvalue
    exact (Num.mag_pos h0).ne hvalue
  rw [h.exact (h.approx.mpr (hd.kept _ hm)), Num.toRat_eq, ← hd.value, mul_right_inj' hsign,
    mul_right_inj' hN] at heq
  have := zpow_right_injective₀ (show (0 : ℚ) < 10 by norm_num) (by norm_num) heq
  omega

/-- **The text of a number is read back as the number**, as far as its digits have room, if and
only if the exponent of its first digit has three digits at most. -/
theorem sqlite4_num_from_text_to_text (hx : x.Finite) (bReal : Bool) {flags : TextFlags}
    (hint : flags.integerOnly = false) (hneg : flags.negative = false) :
    (Readable x → ReadBack x (throughText flags bReal x)) ∧
      (x.m ≤ largestInt x.sign →
        ((throughText flags bReal x).toRat = x.toRat ↔ Readable x)) := by
  have hread : ∀ t : Numeral, t.Proper → t.text = (sqlite4_num_to_text x bReal).1 →
      throughText flags bReal x =
        (sqlite4_num_from_text t.text { flags with enc := .utf8 }).1 := by
    intro t ht htext
    rw [throughText, ← htext, fromText_encode flags fun _ => numeral_noInf ht]
  have henc : ({ flags with enc := .utf8 } : TextFlags).enc = .utf8 := rfl
  have hzero : ∀ r : Num, r.m = 0 → r.toRat = 0 := fun r hr => by simp [Num.toRat, Num.mag, hr]
  by_cases h0 : x.m = 0
  · obtain ⟨t, ht, htext, hdigits, hexp⟩ : ∃ t : Numeral, t.Proper ∧
        t.text = (sqlite4_num_to_text x bReal).1 ∧ digitsFrom 0 t.digits = 0 ∧
        digitsFrom 0 t.expDigits ≤ 999 := by
      rw [sqlite4_num_to_text, if_neg (not_lt.mpr hx.e_le), if_pos h0, if_neg (by simp [h0])]
      cases bReal
      · exact ⟨⟨none, [0], none, none⟩,
          ⟨by decide, by decide, by decide, by decide, by decide, by decide⟩, by decide⟩
      · exact ⟨⟨none, [0], some [0], none⟩,
          ⟨by decide, by decide, by decide, by decide, by decide, by decide⟩, by decide⟩
    have h := fromText_near ht hexp henc hint
    rw [← hread t ht htext, hdigits] at h
    have hr := hzero _ (h.kept (Nat.zero_le _)).2
    have happ := h.approx.mpr ⟨0, 0, rfl, Nat.zero_le _⟩
    refine ⟨fun _ => ⟨?_, fun _ => hr.trans (hzero x h0).symm, fun _ => happ⟩,
      fun _ => iff_of_true (hr.trans (hzero x h0).symm) (.inl h0)⟩
    rw [hr, hzero x h0, sub_zero, abs_zero]
    positivity
  obtain ⟨t, htext, hform⟩ := toText_numeral hx h0 bReal rfl
  rw [readable_iff h0 rfl]
  have hsign : ∀ q, Denotes x t q → t.sign.getD flags.negative = x.sign := by
    intro q hd
    rw [hd.sign, signOf, hneg]
    cases x.sign <;> rfl
  rcases hform with ⟨hrange, hexp, hd⟩ | ⟨hrange, hd, hplace⟩
  · have h := fromText_near hd.proper hexp henc hint
    dsimp only at h
    rw [← hread t hd.proper htext, hsign _ hd] at h
    have hback := ReadsAs.readBack hd h
    exact ⟨fun _ => hback, fun hm => iff_of_true (hback.exact (hback.kept hm)) hrange⟩
  · refine ⟨fun h => absurd h hrange, fun hm => iff_of_false ?_ hrange⟩
    rw [hread t hd.proper htext]
    have hE : x.e + ((decimals x.m).length : ℤ) - 1 ≠ 0 := fun h => hrange (by omega)
    by_cases hsmall : digitsFrom 0 t.expDigits ≤ 999
    · have h := fromText_near hd.proper hsmall henc hint
      dsimp only at h
      rw [hsign _ hd, hplace hsmall] at h
      exact h.ne_of_shift hd h0 hm hE
    · obtain ⟨hnan, hmantissa⟩ := fromText_far hd.proper (not_le.mp hsmall) henc hint
      dsimp only at hnan hmantissa
      by_cases hp : flags.prefixOnly = true
      · have h := hmantissa hp
        rw [hsign _ hd] at h
        exact h.ne_of_shift hd h0 hm hE
      · have hnan := (Bool.and_eq_true_iff.mp (hnan (Bool.not_eq_true _ ▸ hp))).2
        rw [hzero _ (beq_iff_eq.mp hnan), Num.toRat_eq]
        refine (mul_ne_zero ?_ (Num.mag_pos h0).ne').symm
        split_ifs <;> norm_num

/-- An integer of 28 digits, by way of UTF-16BE. -/
theorem sqlite4_num_from_text_to_text_long :
    (sqlite4_num_to_text ⟨true, false, 24, 1250⟩ true).1 =
        [0x2d, 0x31, 0x2e, 0x32, 0x35, 0x65, 0x2b, 0x32, 0x37] ∧
      ReadBack ⟨true, false, 24, 1250⟩
        (throughText ⟨.utf16be, false, false, false, false⟩ true ⟨true, false, 24, 1250⟩) :=
  ⟨by decide +kernel, (sqlite4_num_from_text_to_text (by decide) true rfl rfl).1
    ((readable_iff (by decide) rfl).mpr (by decide +kernel))⟩

end MoVeBench
