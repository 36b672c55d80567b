/-
MoVeBench/DiskAnn/VectorF8.lean

Vectors of quantised components (`vectorfloat8.c`, `vectorConvertToF8` of `vector.c`).

A FLOAT8 vector stands for the components `alpha * q + shift`, with one byte `q` each.
The arithmetic is exact here: rounding of `float` is left out, so what remains is the
algebra of the code.

* `vectorF8DistanceCos` adds up bytes, squares and products of bytes in 32 bits, and
  expands the products of the components by them.  The sums stay below `2 ^ 32`, and
  the expansion is an identity (`vectorF8DistanceCos_exact`).
* `vectorConvertToF8` spreads the range of the components over 255 steps, and every
  component is off by half a step at most, if there is a range: for a vector with equal
  components the step is zero, and the code divides by it (`vectorConvertToF8_iff`).
-/
import MoVeBench.DiskAnn.Vector

namespace MoVeBench

/-! ### The cosine distance -/

/-- The `u32` accumulators of `vectorF8DistanceCos`. -/
structure F8Sums where
  sum1 : ℕ
  sum2 : ℕ
  sumsq1 : ℕ
  sumsq2 : ℕ
  doti : ℕ
deriving DecidableEq

/-- One turn of the loop. -/
def F8Sums.add (s : F8Sums) (x y : UInt8) : F8Sums where
  sum1 := (s.sum1 + x.toNat) % 2 ^ 32
  sum2 := (s.sum2 + y.toNat) % 2 ^ 32
  sumsq1 := (s.sumsq1 + x.toNat * x.toNat) % 2 ^ 32
  sumsq2 := (s.sumsq2 + y.toNat * y.toNat) % 2 ^ 32
  doti := (s.doti + x.toNat * y.toNat) % 2 ^ 32

/-- The loop over the components of both vectors. -/
def f8Sums (data : List (UInt8 × UInt8)) : F8Sums :=
  data.foldl (fun s p => s.add p.1 p.2) ⟨0, 0, 0, 0, 0⟩

/-- The same sums as natural numbers. -/
def exactSums (data : List (UInt8 × UInt8)) : F8Sums where
  sum1 := (data.map fun p => p.1.toNat).sum
  sum2 := (data.map fun p => p.2.toNat).sum
  sumsq1 := (data.map fun p => p.1.toNat * p.1.toNat).sum
  sumsq2 := (data.map fun p => p.2.toNat * p.2.toNat).sum
  doti := (data.map fun p => p.1.toNat * p.2.toNat).sum

/-- No accumulator has reached `2 ^ 32`. -/
def F8Sums.Fits (s : F8Sums) : Prop :=
  s.sum1 < 2 ^ 32 ∧ s.sum2 < 2 ^ 32 ∧ s.sumsq1 < 2 ^ 32 ∧ s.sumsq2 < 2 ^ 32 ∧ s.doti < 2 ^ 32

variable {K : Type*} [CommRing K]

/-- `dot`, from the sums. -/
def F8Sums.dot (s : F8Sums) (alpha1 shift1 alpha2 shift2 : K) (dims : ℕ) : K :=
  alpha1 * alpha2 * s.doti + alpha1 * shift2 * s.sum1 + alpha2 * shift1 * s.sum2 +
    shift1 * shift2 * dims

/-- `norm1` and `norm2`, from the sums. -/
def f8Norm (sum sumsq : ℕ) (alpha shift : K) (dims : ℕ) : K :=
  alpha * alpha * sumsq + 2 * alpha * shift * sum + shift * shift * dims

/-- The component that a byte stands for. -/
def f8Component (alpha shift : K) (q : UInt8) : K := alpha * (q.toNat : K) + shift

/-- The quantised components of a FLOAT8 vector. -/
def f8Elems (v : Vector) : List UInt8 := v.data.take v.dims

/-- `vectorF8GetParameters`: the bits of `alpha` and of `shift`. -/
def vectorF8GetParameters (v : Vector) : ℕ × ℕ :=
  (Bytes.fromLe ((v.data.drop v.dims).take 4), Bytes.fromLe (v.data.drop (v.dims + 4)))

/-- What `vectorF8DistanceCos` computes before it divides: `dot`, `norm1` and `norm2`.
`float` tells what bits stand for. -/
def vectorF8Products (float : ℕ → K) (v1 v2 : Vector) : K × K × K :=
  let alpha1 := float (vectorF8GetParameters v1).1
  let shift1 := float (vectorF8GetParameters v1).2
  let alpha2 := float (vectorF8GetParameters v2).1
  let shift2 := float (vectorF8GetParameters v2).2
  let s := f8Sums ((f8Elems v1).zip (f8Elems v2))
  (s.dot alpha1 shift1 alpha2 shift2 v1.dims, f8Norm s.sum1 s.sumsq1 alpha1 shift1 v1.dims,
    f8Norm s.sum2 s.sumsq2 alpha2 shift2 v1.dims)

/-- The components that a FLOAT8 vector stands for. -/
def f8Components (float : ℕ → K) (v : Vector) : List K :=
  (f8Elems v).map
    (f8Component (float (vectorF8GetParameters v).1) (float (vectorF8GetParameters v).2))

theorem sum_map_le {α : Type*} (l : List α) {f : α → ℕ} {b : ℕ} (h : ∀ x, f x ≤ b) :
    (l.map f).sum ≤ l.length * b := by
  induction l with
  | nil => simp
  | cons x l ih =>
      rw [List.map_cons, List.sum_cons, List.length_cons, Nat.succ_mul, Nat.add_comm]
      exact Nat.add_le_add ih (h x)

/-- **The sums fit**: 65536 squares of bytes are less than `2 ^ 32`. -/
theorem exactSums_fits {data : List (UInt8 × UInt8)} (h : data.length ≤ 65536) :
    (exactSums data).Fits := by
  have hmul : ∀ x y : UInt8, x.toNat * y.toNat ≤ 65025 := fun x y => by
    have hx := x.toNat_lt
    have hy := y.toNat_lt
    exact Nat.mul_le_mul (show x.toNat ≤ 255 by omega) (show y.toNat ≤ 255 by omega)
  have hone : ∀ x : UInt8, x.toNat ≤ 65025 := fun x => by
    have hx := x.toNat_lt
    omega
  have hbound : ∀ f : UInt8 × UInt8 → ℕ, (∀ p, f p ≤ 65025) → (data.map f).sum < 2 ^ 32 := by
    intro f hf
    have hsum := sum_map_le data hf
    have hlen : data.length * 65025 ≤ 65536 * 65025 := Nat.mul_le_mul_right _ h
    omega
  exact ⟨hbound _ fun p => hone _, hbound _ fun p => hone _, hbound _ fun p => hmul _ _,
    hbound _ fun p => hmul _ _, hbound _ fun p => hmul _ _⟩

/-- Behind any start, the loop adds the exact sums modulo `2 ^ 32`. -/
theorem foldl_add_mod (data : List (UInt8 × UInt8)) (s : F8Sums) (hs : s.Fits) :
    data.foldl (fun s p => s.add p.1 p.2) s =
      ⟨(s.sum1 + (exactSums data).sum1) % 2 ^ 32, (s.sum2 + (exactSums data).sum2) % 2 ^ 32,
        (s.sumsq1 + (exactSums data).sumsq1) % 2 ^ 32,
        (s.sumsq2 + (exactSums data).sumsq2) % 2 ^ 32,
        (s.doti + (exactSums data).doti) % 2 ^ 32⟩ := by
  induction data generalizing s with
  | nil =>
      obtain ⟨h1, h2, h3, h4, h5⟩ := hs
      simp only [List.foldl_nil, exactSums, List.map_nil, List.sum_nil, Nat.add_zero,
        Nat.mod_eq_of_lt h1, Nat.mod_eq_of_lt h2, Nat.mod_eq_of_lt h3, Nat.mod_eq_of_lt h4,
        Nat.mod_eq_of_lt h5]
  | cons p data ih =>
      have hfits : (s.add p.1 p.2).Fits :=
        ⟨Nat.mod_lt _ (by norm_num), Nat.mod_lt _ (by norm_num), Nat.mod_lt _ (by norm_num),
          Nat.mod_lt _ (by norm_num), Nat.mod_lt _ (by norm_num)⟩
      rw [List.foldl_cons, ih _ hfits]
      simp only [F8Sums.add, exactSums, List.map_cons, List.sum_cons, Nat.mod_add_mod,
        Nat.add_assoc]

/-- **The accumulators hold the exact sums.** -/
theorem f8Sums_eq {data : List (UInt8 × UInt8)} (h : data.length ≤ 65536) :
    f8Sums data = exactSums data := by
  obtain ⟨h1, h2, h3, h4, h5⟩ := exactSums_fits h
  rw [f8Sums, foldl_add_mod data _ (by simp [F8Sums.Fits])]
  simp only [Nat.zero_add, Nat.mod_eq_of_lt h1, Nat.mod_eq_of_lt h2, Nat.mod_eq_of_lt h3,
    Nat.mod_eq_of_lt h4, Nat.mod_eq_of_lt h5]

/-- **The expansion of the scalar product.** -/
theorem dot_expand (data : List (UInt8 × UInt8)) (alpha1 shift1 alpha2 shift2 : K) :
    (exactSums data).dot alpha1 shift1 alpha2 shift2 data.length =
      (data.map fun p => f8Component alpha1 shift1 p.1 * f8Component alpha2 shift2 p.2).sum := by
  induction data with
  | nil => simp [exactSums, F8Sums.dot]
  | cons p data ih =>
      rw [List.map_cons, List.sum_cons, ← ih]
      simp only [exactSums, F8Sums.dot, f8Component, List.map_cons, List.sum_cons,
        List.length_cons]
      push_cast
      ring

/-- The expansion of a square, as a case of it. -/
theorem norm_expand (l : List UInt8) (alpha shift : K) :
    f8Norm (l.map fun q => q.toNat).sum (l.map fun q => q.toNat * q.toNat).sum alpha shift
        l.length =
      (l.map fun q => f8Component alpha shift q * f8Component alpha shift q).sum := by
  induction l with
  | nil => simp [f8Norm]
  | cons q l ih =>
      rw [List.map_cons, List.map_cons, List.map_cons, List.sum_cons, List.sum_cons,
        List.sum_cons, ← ih]
      simp only [f8Norm, f8Component, List.length_cons]
      push_cast
      ring

theorem f8Elems_length {v : Vector} (h : v.type = .float8) : (f8Elems v).length = v.dims := by
  have hdata := v.data_length
  rw [h] at hdata
  rw [f8Elems, List.length_take, hdata]
  exact Nat.min_eq_left (Nat.le_add_right _ _)

/-- **`vectorF8DistanceCos` computes the products of the components**: up to every
component the accumulators hold the exact sums, below `2 ^ 32`, and `dot`, `norm1` and
`norm2` are the sums of products of what the bytes stand for. -/
theorem vectorF8DistanceCos_exact (float : ℕ → K) {v1 v2 : Vector} (h1 : v1.type = .float8)
    (h2 : v2.type = .float8) (hdims : v1.dims = v2.dims) (hmax : v1.dims ≤ 65536) :
    (∀ k, (exactSums (((f8Elems v1).zip (f8Elems v2)).take k)).Fits ∧
      f8Sums (((f8Elems v1).zip (f8Elems v2)).take k) =
        exactSums (((f8Elems v1).zip (f8Elems v2)).take k)) ∧
    vectorF8Products float v1 v2 =
      ((List.zipWith (· * ·) (f8Components float v1) (f8Components float v2)).sum,
        ((f8Components float v1).map fun x => x * x).sum,
        ((f8Components float v2).map fun x => x * x).sum) := by
  have hlen1 := f8Elems_length h1
  have hlen2 := f8Elems_length h2
  have hzip : ((f8Elems v1).zip (f8Elems v2)).length = v1.dims := by
    rw [List.length_zip, hlen1, hlen2, hdims, Nat.min_self]
  have htake : ∀ k, (((f8Elems v1).zip (f8Elems v2)).take k).length ≤ 65536 := fun k => by
    rw [List.length_take, hzip]
    omega
  refine ⟨fun k => ⟨exactSums_fits (htake k), f8Sums_eq (htake k)⟩, ?_⟩
  have hfst : ∀ f : UInt8 → ℕ, (((f8Elems v1).zip (f8Elems v2)).map fun p => f p.1) =
      (f8Elems v1).map f := fun f => by
    rw [show (fun p : UInt8 × UInt8 => f p.1) = f ∘ Prod.fst from rfl, ← List.map_map,
      List.map_fst_zip (by omega)]
  have hsnd : ∀ f : UInt8 → ℕ, (((f8Elems v1).zip (f8Elems v2)).map fun p => f p.2) =
      (f8Elems v2).map f := fun f => by
    rw [show (fun p : UInt8 × UInt8 => f p.2) = f ∘ Prod.snd from rfl, ← List.map_map,
      List.map_snd_zip (by omega)]
  have hsums := f8Sums_eq (show ((f8Elems v1).zip (f8Elems v2)).length ≤ 65536 by omega)
  unfold vectorF8Products f8Components
  rw [hsums]
  generalize float (vectorF8GetParameters v1).1 = alpha1
  generalize float (vectorF8GetParameters v1).2 = shift1
  generalize float (vectorF8GetParameters v2).1 = alpha2
  generalize float (vectorF8GetParameters v2).2 = shift2
  refine Prod.ext ?_ (Prod.ext ?_ ?_)
  · have hdot := dot_expand ((f8Elems v1).zip (f8Elems v2)) alpha1 shift1 alpha2 shift2
    rw [hzip] at hdot
    rw [List.zipWith_map, ← List.map_uncurry_zip_eq_zipWith]
    exact hdot
  · have hnorm := norm_expand (f8Elems v1) alpha1 shift1
    rw [hlen1, ← hfst fun q => q.toNat, ← hfst fun q => q.toNat * q.toNat] at hnorm
    show f8Norm _ _ alpha1 shift1 v1.dims =
      (((f8Elems v1).map (f8Component alpha1 shift1)).map fun x => x * x).sum
    rw [List.map_map]
    exact hnorm
  · have hnorm := norm_expand (f8Elems v2) alpha2 shift2
    rw [hlen2, ← hdims, ← hsnd fun q => q.toNat, ← hsnd fun q => q.toNat * q.toNat] at hnorm
    show f8Norm _ _ alpha2 shift2 v1.dims =
      (((f8Elems v2).map (f8Component alpha2 shift2)).map fun x => x * x).sum
    rw [List.map_map]
    exact hnorm

/-- The vector of the one byte `3`, with all bits of its parameters zero. -/
def f8Three : Vector where
  type := .float8
  dims := 1
  data := [3, 0, 0, 0, 0, 0, 0, 0, 0]
  data_length := by decide

theorem vectorF8DistanceCos_exact_three :
    vectorF8Products (fun n : ℕ => (n : ℚ) + 2) f8Three f8Three =
      ((List.zipWith (· * ·) (f8Components (fun n : ℕ => (n : ℚ) + 2) f8Three)
          (f8Components (fun n : ℕ => (n : ℚ) + 2) f8Three)).sum,
        ((f8Components (fun n : ℕ => (n : ℚ) + 2) f8Three).map fun x => x * x).sum,
        ((f8Components (fun n : ℕ => (n : ℚ) + 2) f8Three).map fun x => x * x).sum) :=
  (vectorF8DistanceCos_exact (fun n : ℕ => (n : ℚ) + 2) (show f8Three.type = .float8 from rfl)
    (show f8Three.type = .float8 from rfl) rfl (by decide)).2

/-! ### Quantisation -/

/-- The conversion of a `float` to `int`, towards zero. -/
def truncate (x : ℚ) : ℤ := if 0 ≤ x then ⌊x⌋ else ⌈x⌉

/-- `clip`. -/
def clip (f : ℚ) (minF maxF : ℤ) : ℤ :=
  if f < minF then minF
  else if f > maxF then maxF
  else truncate (f + 1 / 2)

/-- The loop of `MINMAX`: `minF` and `maxF`, both the first component at first. -/
def minMax : List ℚ → ℚ × ℚ
  | [] => (0, 0)
  | x :: src => src.foldl (fun s y => (min s.1 y, max s.2 y)) (x, x)

/-- `vectorConvertToF8` of the components of a FLOAT32 vector: `dst`, `alpha` and
`shift`, `none` where it divides by zero. -/
def vectorConvertToF8 (src : List ℚ) : Option (List ℤ × ℚ × ℚ) :=
  let shift := (minMax src).1
  let alpha := ((minMax src).2 - (minMax src).1) / 255
  (src.mapM fun x => if alpha = 0 then none else some (clip ((x - shift) / alpha) 0 255)).map
    fun dst => (dst, alpha, shift)

/-- The bounds of the components, which are components themselves. -/
theorem minMax_spec {src : List ℚ} (h : src ≠ []) :
    (minMax src).1 ∈ src ∧ (minMax src).2 ∈ src ∧
      ∀ x ∈ src, (minMax src).1 ≤ x ∧ x ≤ (minMax src).2 := by
  have hfold : ∀ (l seen : List ℚ) (s : ℚ × ℚ),
      (s.1 ∈ seen ∧ s.2 ∈ seen ∧ ∀ x ∈ seen, s.1 ≤ x ∧ x ≤ s.2) →
      let r := l.foldl (fun s y => (min s.1 y, max s.2 y)) s
      r.1 ∈ seen ++ l ∧ r.2 ∈ seen ++ l ∧ ∀ x ∈ seen ++ l, r.1 ≤ x ∧ x ≤ r.2 := by
    intro l
    induction l with
    | nil =>
        intro seen s hs
        rw [List.append_nil]
        exact hs
    | cons y l ih =>
        rintro seen s ⟨hlo, hhi, hall⟩
        have hnext := ih (seen ++ [y]) (min s.1 y, max s.2 y) ⟨?_, ?_, ?_⟩
        · rwa [List.append_assoc] at hnext
        · rcases min_choice s.1 y with heq | heq <;> simp [heq, hlo]
        · rcases max_choice s.2 y with heq | heq <;> simp [heq, hhi]
        · intro x hx
          rcases List.mem_append.mp hx with hx | hx
          · exact ⟨(min_le_left _ _).trans (hall x hx).1, (hall x hx).2.trans (le_max_left _ _)⟩
          · rw [List.mem_singleton.mp hx]
            exact ⟨min_le_right _ _, le_max_right _ _⟩
  rcases src with - | ⟨x, src⟩
  · exact absurd rfl h
  · exact hfold src [x] (x, x) (by simp)

/-- **Rounding to the nearest step** stays in the range, half a step away at most. -/
theorem clip_spec {f : ℚ} (h0 : 0 ≤ f) (h255 : f ≤ 255) :
    0 ≤ clip f 0 255 ∧ clip f 0 255 ≤ 255 ∧ |f - (clip f 0 255 : ℚ)| ≤ 1 / 2 := by
  have hclip : clip f 0 255 = ⌊f + 1 / 2⌋ := by
    unfold clip truncate
    rw [if_neg (by push_cast; linarith), if_neg (by push_cast; linarith), if_pos (by linarith)]
  have hlo := Int.floor_le (f + 1 / 2)
  have hhi := Int.lt_floor_add_one (f + 1 / 2)
  rw [hclip]
  refine ⟨Int.floor_nonneg.mpr (by linarith), ?_, ?_⟩
  · rw [← Int.lt_add_one_iff, Int.floor_lt]
    push_cast
    linarith
  · rw [abs_le]
    constructor <;> linarith

/-- **One component**: its byte is in range, and off by half a step at most. -/
theorem clip_error {lo hi alpha z : ℚ} (hpos : 0 < alpha) (halpha : alpha = (hi - lo) / 255)
    (hlo : lo ≤ z) (hhi : z ≤ hi) :
    0 ≤ clip ((z - lo) / alpha) 0 255 ∧ clip ((z - lo) / alpha) 0 255 ≤ 255 ∧
      |z - (alpha * (clip ((z - lo) / alpha) 0 255 : ℤ) + lo)| ≤ alpha / 2 := by
  have h255 : (z - lo) / alpha ≤ 255 := by
    rw [div_le_iff₀ hpos, halpha]
    linarith
  obtain ⟨hq0, hq255, herr⟩ := clip_spec (div_nonneg (by linarith) hpos.le) h255
  have hscale : z - (alpha * (clip ((z - lo) / alpha) 0 255 : ℤ) + lo) =
      alpha * ((z - lo) / alpha - (clip ((z - lo) / alpha) 0 255 : ℤ)) := by
    rw [mul_sub, mul_div_cancel₀ _ hpos.ne']
    ring
  refine ⟨hq0, hq255, ?_⟩
  rw [hscale, abs_mul, abs_of_pos hpos]
  calc alpha * |(z - lo) / alpha - (clip ((z - lo) / alpha) 0 255 : ℤ)|
      ≤ alpha * (1 / 2) := mul_le_mul_of_nonneg_left herr hpos.le
    _ = alpha / 2 := by ring

/-- **Which vectors are quantised**: without a division by zero, to bytes, and with an
error of half a step at most, exactly those that have two different components or none
at all. -/
theorem vectorConvertToF8_iff (src : List ℚ) :
    (∃ dst alpha shift, vectorConvertToF8 src = some (dst, alpha, shift) ∧
        (∀ q ∈ dst, 0 ≤ q ∧ q ≤ 255) ∧
        List.Forall₂ (fun x (q : ℤ) => |x - (alpha * q + shift)| ≤ alpha / 2) src dst) ↔
      src = [] ∨ ∃ x ∈ src, ∃ y ∈ src, x ≠ y := by
  by_cases hnil : src = []
  · subst hnil
    refine iff_of_true ⟨[], 0, 0, ?_, by simp, .nil⟩ (.inl rfl)
    simp [vectorConvertToF8, minMax]
  obtain ⟨hlo, hhi, hall⟩ := minMax_spec hnil
  obtain ⟨lo, hlo'⟩ : ∃ lo, lo = (minMax src).1 := ⟨_, rfl⟩
  obtain ⟨hi, hhi'⟩ : ∃ hi, hi = (minMax src).2 := ⟨_, rfl⟩
  simp only [vectorConvertToF8, ← hlo', ← hhi'] at hlo hhi hall ⊢
  rw [or_iff_right hnil]
  constructor
  · rintro ⟨dst, alpha, shift, hconv, -, -⟩
    by_contra hconst
    push Not at hconst
    -- equal components: the first division is by zero
    have hzero : (hi - lo) / 255 = 0 := by
      rw [hconst hi hhi lo hlo, sub_self, zero_div]
    obtain ⟨x, l, rfl⟩ := List.exists_cons_of_ne_nil hnil
    simp [hzero] at hconv
  · rintro ⟨x, hx, y, hy, hne⟩
    have hlt : lo < hi := by
      rcases lt_or_gt_of_ne hne with h | h
      · linarith [(hall x hx).1, (hall y hy).2]
      · linarith [(hall y hy).1, (hall x hx).2]
    obtain ⟨alpha, halpha⟩ : ∃ alpha, alpha = (hi - lo) / 255 := ⟨_, rfl⟩
    have hpos : 0 < alpha := by
      rw [halpha]
      linarith
    have hbyte := fun z (hz : z ∈ src) => clip_error hpos halpha (hall z hz).1 (hall z hz).2
    refine ⟨src.map fun z => clip ((z - lo) / alpha) 0 255, alpha, lo, ?_, ?_, ?_⟩
    · have hsome : (fun z => if alpha = 0 then none else some (clip ((z - lo) / alpha) 0 255)) =
          fun z => pure (clip ((z - lo) / alpha) 0 255) := by
        funext z
        exact if_neg hpos.ne'
      rw [← halpha, hsome, List.mapM_pure]
      rfl
    · intro q hq
      obtain ⟨z, hz, rfl⟩ := List.mem_map.mp hq
      exact ⟨(hbyte z hz).1, (hbyte z hz).2.1⟩
    · rw [List.forall₂_map_right_iff, List.forall₂_same]
      exact fun z hz => (hbyte z hz).2.2

/-- A vector of one component: the step is zero. -/
theorem vectorConvertToF8_one :
    ¬ ∀ src : List ℚ, ∃ dst alpha shift, vectorConvertToF8 src = some (dst, alpha, shift) ∧
      (∀ q ∈ dst, 0 ≤ q ∧ q ≤ 255) ∧
      List.Forall₂ (fun x (q : ℤ) => |x - (alpha * q + shift)| ≤ alpha / 2) src dst := by
  intro h
  obtain ⟨dst, alpha, shift, hconv, -, -⟩ := h [1]
  simp [vectorConvertToF8, minMax] at hconv

end MoVeBench
