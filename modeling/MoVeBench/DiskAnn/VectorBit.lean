/-
MoVeBench/DiskAnn/VectorBit.lean

Vectors of one bit a component (`vectorfloat1bit.c`, and the conversions to FLOAT1BIT of
`vector.c`).

Component `i` is bit `i & 7` of byte `i / 8`, so that up to seven bits of the last byte
belong to no component.  `vector1BitDistanceHamming` compares words and bytes, and counts
these padding bits as well.

* The conversions leave the padding bits zero (`vectorConvert1Bit_padding`).
* The parser takes them from the blob as they are, so that the distance is the number of
  components that differ exactly when the padding bits agree (`hamming_iff`).
-/
import MoVeBench.DiskAnn.VectorF16
import MoVeBench.DiskAnn.VectorF8
import MoVeBench.DiskAnn.VectorBlob

namespace MoVeBench

open Bytes SlotList

/-! ### Counting bits -/

/-- `BitsCount`. -/
def bitsCount : List ℕ := [
  0, 1, 1, 2, 1, 2, 2, 3, 1, 2, 2, 3, 2, 3, 3, 4,
  1, 2, 2, 3, 2, 3, 3, 4, 2, 3, 3, 4, 3, 4, 4, 5,
  1, 2, 2, 3, 2, 3, 3, 4, 2, 3, 3, 4, 3, 4, 4, 5,
  2, 3, 3, 4, 3, 4, 4, 5, 3, 4, 4, 5, 4, 5, 5, 6,
  1, 2, 2, 3, 2, 3, 3, 4, 2, 3, 3, 4, 3, 4, 4, 5,
  2, 3, 3, 4, 3, 4, 4, 5, 3, 4, 4, 5, 4, 5, 5, 6,
  2, 3, 3, 4, 3, 4, 4, 5, 3, 4, 4, 5, 4, 5, 5, 6,
  3, 4, 4, 5, 4, 5, 5, 6, 4, 5, 5, 6, 5, 6, 6, 7,
  1, 2, 2, 3, 2, 3, 3, 4, 2, 3, 3, 4, 3, 4, 4, 5,
  2, 3, 3, 4, 3, 4, 4, 5, 3, 4, 4, 5, 4, 5, 5, 6,
  2, 3, 3, 4, 3, 4, 4, 5, 3, 4, 4, 5, 4, 5, 5, 6,
  3, 4, 4, 5, 4, 5, 5, 6, 4, 5, 5, 6, 5, 6, 6, 7,
  2, 3, 3, 4, 3, 4, 4, 5, 3, 4, 4, 5, 4, 5, 5, 6,
  3, 4, 4, 5, 4, 5, 5, 6, 4, 5, 5, 6, 5, 6, 6, 7,
  3, 4, 4, 5, 4, 5, 5, 6, 4, 5, 5, 6, 5, 6, 6, 7,
  4, 5, 5, 6, 5, 6, 6, 7, 5, 6, 6, 7, 6, 7, 7, 8]

/-- `sqlite4PopCount32`, without the compiler's own instruction. -/
def sqlite4PopCount32 (a : ℕ) : ℕ :=
  bitsCount.getD (a >>> 24) 0 + bitsCount.getD ((a >>> 16) &&& 0xff) 0 +
    bitsCount.getD ((a >>> 8) &&& 0xff) 0 + bitsCount.getD (a &&& 0xff) 0

/-- The table holds the number of bits of every byte. -/
theorem bitsCount_eq : ∀ a < 256, bitsCount.getD a 0 = Nat.count (fun k => a.testBit k) 8 := by
  decide +kernel

theorem count_congr {p q : ℕ → Prop} [DecidablePred p] [DecidablePred q] {n : ℕ}
    (h : ∀ k < n, p k ↔ q k) : Nat.count p n = Nat.count q n :=
  le_antisymm (Nat.count_mono_left fun k hk => (h k hk).mp)
    (Nat.count_mono_left fun k hk => (h k hk).mpr)

/-- Counting block by block. -/
theorem sum_count_blocks (p : ℕ → Prop) [DecidablePred p] (w : ℕ) {f : ℕ → ℕ} {n : ℕ}
    (h : ∀ i < n, f i = Nat.count (fun k => p (w * i + k)) w) :
    ((List.range n).map f).sum = Nat.count p (w * n) := by
  induction n with
  | zero => rfl
  | succ n ih =>
      rw [List.range_succ, List.map_append, List.sum_append, ih fun i hi => h i (by omega),
        Nat.mul_succ, Nat.count_add, ← h n (Nat.lt_succ_self n), List.map_singleton,
        List.sum_singleton]

theorem bitsCount_byte {a : ℕ} (j : ℕ) :
    bitsCount.getD ((a >>> j) &&& 0xff) 0 = Nat.count (fun k => a.testBit (j + k)) 8 := by
  have hmask : (a >>> j) &&& 0xff = (a >>> j) % 2 ^ 8 := Nat.and_two_pow_sub_one_eq_mod _ 8
  have hlt : (a >>> j) % 2 ^ 8 < 256 := Nat.mod_lt _ (by omega)
  rw [hmask, bitsCount_eq _ hlt]
  refine count_congr fun k hk => ?_
  rw [Nat.testBit_mod_two_pow, Nat.testBit_shiftRight, decide_eq_true hk, Bool.true_and]

/-- **The bits of a word are counted.** -/
theorem sqlite4PopCount32_eq {a : ℕ} (ha : a < 2 ^ 32) :
    sqlite4PopCount32 a = Nat.count (fun k => a.testBit k) 32 := by
  have h0 := bitsCount_byte (a := a) 0
  have h24 := bitsCount_byte (a := a) 24
  rw [show (a >>> 24) &&& 0xff = a >>> 24 from
    (Nat.and_two_pow_sub_one_eq_mod _ 8).trans (Nat.mod_eq_of_lt (by
      rw [Nat.shiftRight_eq_div_pow]
      omega))] at h24
  simp only [Nat.shiftRight_zero, Nat.zero_add] at h0
  rw [sqlite4PopCount32, h24, bitsCount_byte 16, bitsCount_byte 8, h0, show 32 = 24 + 8 by rfl,
    Nat.count_add, show 24 = 16 + 8 by rfl, Nat.count_add, show 16 = 8 + 8 by rfl, Nat.count_add]
  omega

/-! ### The distance -/

/-- A FLOAT1BIT vector: its `dims`, a `u32`, and the memory behind `data`. -/
structure Vector1Bit where
  dims : ℕ
  data : List UInt8
deriving DecidableEq

/-- `(elems[i / 8] >> (i & 7)) & 1`. -/
def Vector1Bit.bit (v : Vector1Bit) (i : ℕ) : Bool := (v.data.getD (i / 8) 0).toNat.testBit (i % 8)

/-- `((u32*)data)[i]`. -/
def u32At (data : List UInt8) (i : ℕ) : ℕ := fromLe (readBytes data (4 * i) 4)

/-- `len8` of `vector1BitDistanceHamming`, with `dims + 7` computed in 32 bits. -/
def Vector1Bit.len8 (v : Vector1Bit) : ℕ := (v.dims + 7) % 2 ^ 32 / 8

/-- `vector1BitDistanceHamming`, or `none` where it reads behind the memory of a vector. -/
def vector1BitDistanceHamming (v1 v2 : Vector1Bit) : Option ℕ :=
  let len8 := v1.len8
  let len32 := v1.dims / 32
  let offset8 := len32 * 4
  if max offset8 len8 ≤ v1.data.length ∧ max offset8 len8 ≤ v2.data.length then
    some (((List.range len32).map fun i =>
        sqlite4PopCount32 (u32At v1.data i ^^^ u32At v2.data i)).sum +
      ((List.range (len8 - offset8)).map fun k =>
        sqlite4PopCount32 ((v1.data.getD (offset8 + k) 0).toNat ^^^
          (v2.data.getD (offset8 + k) 0).toNat)).sum)
  else none

theorem getD_readBytes (buf : List UInt8) {off n k : ℕ} (h : k < n) :
    (readBytes buf off n).getD k 0 = buf.getD (off + k) 0 := by
  induction n generalizing off k with
  | zero => omega
  | succ n ih =>
      rcases k with - | k
      · rfl
      · rw [readBytes, List.getD_cons_succ, ih (by omega), Nat.add_assoc, Nat.add_comm 1]

/-- Bits of a little-endian number. -/
theorem testBit_fromLe (l : List UInt8) (i : ℕ) :
    (fromLe l).testBit i = (l.getD (i / 8) 0).toNat.testBit (i % 8) := by
  induction l generalizing i with
  | nil =>
      rw [fromLe, List.getD_nil]
      simp
  | cons u l ih =>
      rw [fromLe, Nat.add_comm, show 256 = 2 ^ 8 by rfl, Nat.testBit_two_pow_mul_add _ u.toNat_lt]
      split_ifs with h
      · rw [Nat.div_eq_of_lt h, Nat.mod_eq_of_lt h]
        rfl
      · obtain ⟨j, rfl⟩ : ∃ j, i = j + 8 := ⟨i - 8, by omega⟩
        rw [Nat.add_sub_cancel, ih, Nat.add_div_right _ (by omega), Nat.add_mod_right]
        rfl

theorem testBit_u32At (v : Vector1Bit) (i : ℕ) {k : ℕ} (hk : k < 32) :
    (u32At v.data i).testBit k = v.bit (32 * i + k) := by
  rw [u32At, testBit_fromLe, getD_readBytes _ (by omega), Vector1Bit.bit,
    show (32 * i + k) / 8 = 4 * i + k / 8 by omega, show (32 * i + k) % 8 = k % 8 by omega]

theorem u32At_lt (data : List UInt8) (i : ℕ) : u32At data i < 2 ^ 32 := by
  have := fromLe_lt (readBytes data (4 * i) 4)
  rwa [readBytes_length] at this

/-- Two vectors differ in a bit. -/
def Vector1Bit.Differ (v1 v2 : Vector1Bit) (i : ℕ) : Prop := v1.bit i ≠ v2.bit i

instance (v1 v2 : Vector1Bit) : DecidablePred (v1.Differ v2) :=
  fun i => inferInstanceAs (Decidable (v1.bit i ≠ v2.bit i))

theorem testBit_xor_iff {x y k : ℕ} : (x ^^^ y).testBit k = true ↔ x.testBit k ≠ y.testBit k := by
  rw [Nat.testBit_xor]
  cases x.testBit k <;> cases y.testBit k <;> decide

/-- **What is counted**: the bits that differ, padding included. -/
theorem vector1BitDistanceHamming_eq {v1 v2 : Vector1Bit} (hdims : v1.dims + 7 < 2 ^ 32)
    (h1 : v1.len8 ≤ v1.data.length) (h2 : v1.len8 ≤ v2.data.length) :
    vector1BitDistanceHamming v1 v2 = some (Nat.count (v1.Differ v2) (8 * v1.len8)) := by
  have hlen : v1.len8 = (v1.dims + 7) / 8 := by
    rw [Vector1Bit.len8, Nat.mod_eq_of_lt hdims]
  have hle : v1.dims / 32 * 4 ≤ v1.len8 := by omega
  have hwords : ((List.range (v1.dims / 32)).map fun i =>
      sqlite4PopCount32 (u32At v1.data i ^^^ u32At v2.data i)).sum =
      Nat.count (v1.Differ v2) (32 * (v1.dims / 32)) := by
    refine sum_count_blocks _ 32 fun i _ => ?_
    rw [sqlite4PopCount32_eq (Nat.xor_lt_two_pow (u32At_lt _ _) (u32At_lt _ _))]
    refine count_congr fun k hk => ?_
    rw [testBit_xor_iff, testBit_u32At v1 i hk, testBit_u32At v2 i hk]
    rfl
  have hbytes : ((List.range (v1.len8 - v1.dims / 32 * 4)).map fun k =>
      sqlite4PopCount32 ((v1.data.getD (v1.dims / 32 * 4 + k) 0).toNat ^^^
        (v2.data.getD (v1.dims / 32 * 4 + k) 0).toNat)).sum =
      Nat.count (fun k => v1.Differ v2 (32 * (v1.dims / 32) + k))
        (8 * (v1.len8 - v1.dims / 32 * 4)) := by
    refine sum_count_blocks _ 8 fun i _ => ?_
    have hx := (v1.data.getD (v1.dims / 32 * 4 + i) 0).toNat_lt
    have hy := (v2.data.getD (v1.dims / 32 * 4 + i) 0).toNat_lt
    have hxor := Nat.xor_lt_two_pow hx hy
    rw [sqlite4PopCount32_eq (lt_trans hxor (by norm_num)), show 32 = 8 + 24 by rfl,
      Nat.count_add]
    have hhigh : Nat.count (fun k => Nat.testBit ((v1.data.getD (v1.dims / 32 * 4 + i) 0).toNat ^^^
        (v2.data.getD (v1.dims / 32 * 4 + i) 0).toNat) (8 + k)) 24 = 0 := by
      refine Nat.count_iff_forall_not.mpr fun k _ => ?_
      rw [Nat.testBit_lt_two_pow (lt_of_lt_of_le hxor (Nat.pow_le_pow_right (by omega) (by omega)))]
      decide
    rw [hhigh, Nat.add_zero]
    refine count_congr fun k hk => ?_
    have hdiv : ((8 + 24) * (v1.dims / (8 + 24)) + (8 * i + k)) / 8 =
        v1.dims / (8 + 24) * 4 + i := by omega
    have hmod : ((8 + 24) * (v1.dims / (8 + 24)) + (8 * i + k)) % 8 = k := by omega
    rw [testBit_xor_iff, Vector1Bit.Differ, Vector1Bit.bit, Vector1Bit.bit, hdiv, hmod]
  unfold vector1BitDistanceHamming
  dsimp only
  rw [if_pos ⟨max_le (by omega) h1, max_le (by omega) h2⟩, hwords, hbytes, ← Nat.count_add]
  exact congrArg (fun n => some (Nat.count _ n)) (by omega)

/-! ### The conversions -/

/-- `src > 0` for the bits of a `float`: neither zero nor NaN, and no sign. -/
def f32Positive (src : ℕ) : Bool := 0 < src && src ≤ 0x7f800000

/-- `src > 0` for the bits of a `double`. -/
def f64Positive (src : ℕ) : Bool := 0 < src && src ≤ 0x7ff0000000000000

/-- The loops of the conversions to FLOAT1BIT: the bytes are cleared, and the bits of the
positive components are set. -/
def setPositiveBits (dims : ℕ) (positive : ℕ → Bool) (dst1Bit : List UInt8) : List UInt8 :=
  let dst1Bit := (List.range ((dims + 7) / 8)).foldl (fun dst k => dst.set k 0) dst1Bit
  (List.range dims).foldl (fun dst i =>
    if positive i then dst.set (i / 8) (dst.getD (i / 8) 0 ||| .ofNat (1 <<< (i % 8)))
    else dst) dst1Bit

/-- `vectorConvert` to FLOAT1BIT.  `mulAdd` is `alpha * src[i] + shift`, on the bits of
`float`. -/
def vectorConvert1Bit (mulAdd : ℕ → UInt8 → ℕ → ℕ) (pFrom : Vector) (dst1Bit : List UInt8) :
    List UInt8 :=
  let src := pFrom.data
  match pFrom.type with
  | .float1bit => readBytes src 0 (vectorDataSize .float1bit pFrom.dims)
  | .float32 =>
      setPositiveBits pFrom.dims (fun i => f32Positive (fromLe (readBytes src (4 * i) 4))) dst1Bit
  | .float64 =>
      setPositiveBits pFrom.dims (fun i => f64Positive (fromLe (readBytes src (8 * i) 8))) dst1Bit
  | .float8 =>
      let (alpha, shift) := vectorF8GetParameters pFrom
      setPositiveBits pFrom.dims (fun i => f32Positive (mulAdd alpha (src.getD i 0) shift)) dst1Bit
  | .float16 =>
      setPositiveBits pFrom.dims (fun i =>
        f32Positive (vectorF16ToFloat (.ofNat (fromLe (readBytes src (2 * i) 2)))).toNat) dst1Bit
  | .floatb16 =>
      setPositiveBits pFrom.dims (fun i =>
        f32Positive (vectorFB16ToFloat (.ofNat (fromLe (readBytes src (2 * i) 2)))).toNat) dst1Bit

theorem foldl_set_zero (dst : List UInt8) {n : ℕ} (hn : n ≤ dst.length) :
    ((List.range n).foldl (fun dst k => dst.set k 0) dst).length = dst.length ∧
      ∀ k < n, ((List.range n).foldl (fun dst k => dst.set k 0) dst).getD k 0 = 0 := by
  induction n with
  | zero => exact ⟨rfl, fun k hk => by omega⟩
  | succ n ih =>
      obtain ⟨hlen, hzero⟩ := ih (by omega)
      rw [List.range_succ, List.foldl_append, List.foldl_cons, List.foldl_nil]
      refine ⟨by rw [List.length_set, hlen], fun k hk => ?_⟩
      rcases Nat.lt_or_ge k n with hk' | hk'
      · rw [getD_set_of_ne (by omega), hzero k hk']
      · obtain rfl : k = n := by omega
        exact getD_set_self (by omega) 0 0

/-- A bit is set in a byte. -/
theorem testBit_setBit (u : UInt8) {m j : ℕ} (hm : m < 8) :
    (u ||| .ofNat (1 <<< m)).toNat.testBit j = (u.toNat.testBit j || decide (m = j)) := by
  have hlt : 1 <<< m < 256 := by
    rw [Nat.one_shiftLeft]
    exact lt_of_lt_of_le (Nat.pow_lt_pow_right (by omega) hm) (by norm_num)
  rw [UInt8.toNat_or, toNat_ofNat_of_lt hlt, Nat.testBit_or, Nat.one_shiftLeft, Nat.testBit_two_pow]

/-- The second loop, after `n` turns. -/
theorem foldl_setBit (positive : ℕ → Bool) {dst : List UInt8} {n : ℕ} (hn : n ≤ 8 * dst.length)
    (hzero : ∀ k, dst.getD k 0 = 0) (dims j : ℕ) :
    ((List.range n).foldl (fun dst i =>
        if positive i then dst.set (i / 8) (dst.getD (i / 8) 0 ||| .ofNat (1 <<< (i % 8)))
        else dst) dst).length = dst.length ∧
      Vector1Bit.bit ⟨dims, (List.range n).foldl (fun dst i =>
        if positive i then dst.set (i / 8) (dst.getD (i / 8) 0 ||| .ofNat (1 <<< (i % 8)))
        else dst) dst⟩ j = (decide (j < n) && positive j) := by
  induction n with
  | zero =>
      refine ⟨rfl, ?_⟩
      show (dst.getD (j / 8) 0).toNat.testBit (j % 8) = _
      rw [hzero]
      exact Nat.zero_testBit _
  | succ n ih =>
      obtain ⟨hlen, hbit⟩ := ih (by omega)
      rw [List.range_succ, List.foldl_append, List.foldl_cons, List.foldl_nil]
      generalize (List.range n).foldl _ dst = dst' at *
      by_cases hpos : positive n
      · rw [if_pos hpos]
        refine ⟨by rw [List.length_set, hlen], ?_⟩
        rw [Vector1Bit.bit] at hbit ⊢
        dsimp only at hbit ⊢
        rcases eq_or_ne (n / 8) (j / 8) with heq | hne
        · rw [heq, getD_set_self (by omega), testBit_setBit _ (Nat.mod_lt n (by omega)), hbit]
          rcases Nat.lt_trichotomy j n with h | rfl | h
          · simp [h, show j < n + 1 by omega, show n % 8 ≠ j % 8 by omega]
          · simp [hpos]
          · simp [show ¬j < n by omega, show ¬j < n + 1 by omega, show n % 8 ≠ j % 8 by omega]
        · rw [getD_set_of_ne hne, hbit]
          rcases Nat.lt_trichotomy j n with h | rfl | h
          · simp [h, show j < n + 1 by omega]
          · exact absurd rfl hne
          · simp [show ¬j < n by omega, show ¬j < n + 1 by omega]
      · rw [if_neg hpos]
        refine ⟨hlen, ?_⟩
        rw [hbit]
        rcases Nat.lt_trichotomy j n with h | rfl | h
        · simp [h, show j < n + 1 by omega]
        · simp [hpos]
        · simp [show ¬j < n by omega, show ¬j < n + 1 by omega]

/-- **The bits after a conversion**: those of the positive components, whatever the memory
held before. -/
theorem setPositiveBits_bit (positive : ℕ → Bool) {dims : ℕ} {dst1Bit : List UInt8}
    (hdst : dst1Bit.length = (dims + 7) / 8) :
    (setPositiveBits dims positive dst1Bit).length = (dims + 7) / 8 ∧
      ∀ j, Vector1Bit.bit ⟨dims, setPositiveBits dims positive dst1Bit⟩ j =
        (decide (j < dims) && positive j) := by
  obtain ⟨hlen, hzero⟩ := foldl_set_zero dst1Bit hdst.ge
  have hall : ∀ k, ((List.range ((dims + 7) / 8)).foldl (fun dst k => dst.set k 0)
      dst1Bit).getD k 0 = 0 := by
    intro k
    rcases Nat.lt_or_ge k ((dims + 7) / 8) with hk | hk
    · exact hzero k hk
    · exact List.getD_eq_default _ _ (by omega)
  have hbits := foldl_setBit positive (n := dims) (by rw [hlen]; omega) hall dims
  unfold setPositiveBits
  exact ⟨((hbits 0).1.trans hlen).trans hdst, fun j => (hbits j).2⟩

/-- **The padding bits are zero** after a conversion from any other type. -/
theorem vectorConvert1Bit_padding (mulAdd : ℕ → UInt8 → ℕ → ℕ) {pFrom : Vector}
    (htype : pFrom.type ≠ .float1bit) {dst1Bit : List UInt8}
    (hdst : dst1Bit.length = (pFrom.dims + 7) / 8) :
    (vectorConvert1Bit mulAdd pFrom dst1Bit).length = (pFrom.dims + 7) / 8 ∧
      ∀ j, pFrom.dims ≤ j →
        Vector1Bit.bit ⟨pFrom.dims, vectorConvert1Bit mulAdd pFrom dst1Bit⟩ j = false := by
  have key : ∀ positive : ℕ → Bool,
      (setPositiveBits pFrom.dims positive dst1Bit).length = (pFrom.dims + 7) / 8 ∧
        ∀ j, pFrom.dims ≤ j →
          Vector1Bit.bit ⟨pFrom.dims, setPositiveBits pFrom.dims positive dst1Bit⟩ j = false := by
    intro positive
    obtain ⟨hlen, hbit⟩ := setPositiveBits_bit positive hdst
    refine ⟨hlen, fun j hj => ?_⟩
    rw [hbit, decide_eq_false (not_lt.mpr hj), Bool.false_and]
  unfold vectorConvert1Bit
  rcases htag : pFrom.type with - | - | - | - | - | -
  · exact key _
  · exact key _
  · exact absurd htag htype
  · exact key _
  · exact key _
  · exact key _

/-! ### The vectors that there are -/

/-- A FLOAT1BIT vector that the parser has accepted, for the dimension that was detected in
the blob or for one in range, or that a conversion has made. -/
inductive Accepted (mulAdd : ℕ → UInt8 → ℕ → ℕ) : Vector1Bit → Prop
  | parsed (pBlob : List UInt8) {mem : List UInt8} (dims : ℤ)
      (hdims : detectBlobVectorParameters pBlob = .ok (.float1bit, dims) ∨
        0 ≤ dims ∧ dims ≤ maxVectorSz)
      (h : vectorParseSqliteBlobWithType .float1bit (dims % 2 ^ 32).toNat pBlob = .ok mem) :
      Accepted mulAdd ⟨(dims % 2 ^ 32).toNat, mem⟩
  | converted {pFrom : Vector} {dst1Bit : List UInt8} (hmax : pFrom.dims ≤ maxVectorSz)
      (htype : pFrom.type ≠ .float1bit) (hdst : dst1Bit.length = (pFrom.dims + 7) / 8) :
      Accepted mulAdd ⟨pFrom.dims, vectorConvert1Bit mulAdd pFrom dst1Bit⟩

/-- The size that is found for a FLOAT1BIT blob. -/
theorem vectorParseMeta_size1Bit {pBlob : List UInt8} {dims : ℤ} {nDataSize : ℕ}
    (h : vectorParseMeta pBlob = .ok (.float1bit, dims, nDataSize)) :
    -2 ^ 31 ≤ dims ∧ nDataSize = ((dims + 7).tdiv 8 % 2 ^ 64).toNat := by
  rcases vectorParseMeta_cases h with ⟨hne, -⟩ | ⟨hodd, h3, -, htype⟩
  · exact absurd rfl hne
  · rw [vectorParseMeta_float1bit hodd h3 htype, Except.ok.injEq, Prod.mk.injEq,
      Prod.mk.injEq] at h
    obtain ⟨-, rfl, rfl⟩ := h
    have hlow := Int.le_bmod (x := ((pBlob.length - 1 : ℕ) : ℤ) * 8 - trailingByte pBlob)
      (m := 2 ^ 32) (by norm_num)
    exact ⟨by omega, rfl⟩

variable {mulAdd : ℕ → UInt8 → ℕ → ℕ}

/-- The memory holds the bytes of the components, as far as `dims + 7` tells. -/
theorem Accepted.data_length {v : Vector1Bit} (h : Accepted mulAdd v) :
    v.data.length = v.len8 ∧ v.dims < 2 ^ 32 := by
  rcases h with ⟨_, dims, -, hparse⟩ | ⟨hmax, htype, hdst⟩
  · refine ⟨?_, by dsimp only; omega⟩
    rw [vectorParseSqliteBlobWithType] at hparse
    split at hparse
    · cases hparse
    · dsimp only at hparse
      split_ifs at hparse
      rw [Except.ok.injEq] at hparse
      rw [← hparse, readBytes_length]
      rfl
  · simp only [maxVectorSz] at hmax
    refine ⟨?_, by dsimp only; omega⟩
    rw [(vectorConvert1Bit_padding mulAdd htype hdst).1, Vector1Bit.len8,
      Nat.mod_eq_of_lt (by dsimp only; omega)]

/-- A dimension out of range is one of the last seven of 32 bits, for which the size of the
data wraps to zero. -/
theorem Accepted.dims_cases {v : Vector1Bit} (h : Accepted mulAdd v) :
    v.dims ≤ maxVectorSz ∨ 2 ^ 32 ≤ v.dims + 7 := by
  rcases h with ⟨pBlob, dims, hdims, hparse⟩ | ⟨hmax, htype, hdst⟩
  · dsimp only
    rcases hdims with hdetect | hdims
    · rw [detectBlobVectorParameters] at hdetect
      rw [vectorParseSqliteBlobWithType] at hparse
      rcases hmeta : vectorParseMeta pBlob with zErrMsg | ⟨type, dims', nDataSize⟩
      · rw [hmeta] at hdetect
        cases hdetect
      rw [hmeta] at hdetect hparse
      dsimp only at hdetect hparse
      split_ifs at hdetect with hmax
      rw [Except.ok.injEq, Prod.mk.injEq] at hdetect
      obtain ⟨rfl, rfl⟩ := hdetect
      split_ifs at hparse with hsize
      obtain ⟨hlow, rfl⟩ := vectorParseMeta_size1Bit hmeta
      rw [ne_eq, not_not] at hsize
      have hu32 : vectorDataSizeU32 .float1bit (dims' % 2 ^ 32).toNat =
        ((dims' % 2 ^ 32).toNat + 7) % 2 ^ 32 / 8 := rfl
      rw [hu32] at hsize
      by_contra hout
      rw [not_or, not_le, not_le] at hout
      -- the size of a negative dimension is zero, or larger than any `u32`
      have hdiv : (dims' + 7).tdiv 8 = -((-(dims' + 7)) / 8) := by
        rw [← Int.tdiv_eq_ediv_of_nonneg (by omega), Int.neg_tdiv, neg_neg]
      rw [hdiv] at hsize
      omega
    · omega
  · exact .inl hmax

/-- The padding bits of two vectors are the same. -/
def PaddingAgrees (v1 v2 : Vector1Bit) : Prop :=
  ∀ i, v1.dims ≤ i → i < 8 * ((v1.dims + 7) / 8) → v1.bit i = v2.bit i

/-- **When the distance counts the components that differ**: when the dimension is in range
and the padding bits of the two vectors agree. -/
theorem hamming_iff {v1 v2 : Vector1Bit} (h1 : Accepted mulAdd v1) (h2 : Accepted mulAdd v2)
    (hdims : v1.dims = v2.dims) :
    vector1BitDistanceHamming v1 v2 = some (Nat.count (v1.Differ v2) v1.dims) ↔
      v1.dims ≤ maxVectorSz ∧ PaddingAgrees v1 v2 := by
  obtain ⟨hlen1, hu32⟩ := h1.data_length
  obtain ⟨hlen2, -⟩ := h2.data_length
  rcases h1.dims_cases with hle | hwrap
  · simp only [maxVectorSz] at hle
    have hsame : v2.len8 = v1.len8 := by rw [Vector1Bit.len8, Vector1Bit.len8, hdims]
    rw [vector1BitDistanceHamming_eq (by omega) hlen1.ge (by rw [hlen2, hsame]), Option.some_inj]
    have hlen8 : v1.len8 = (v1.dims + 7) / 8 := by
      rw [Vector1Bit.len8, Nat.mod_eq_of_lt (by omega)]
    obtain ⟨k, hk⟩ : ∃ k, 8 * v1.len8 = v1.dims + k := Nat.exists_eq_add_of_le (by omega)
    rw [hk, Nat.count_add, Nat.add_eq_left, Nat.count_iff_forall_not]
    constructor
    · intro hno
      refine ⟨hle, fun i hi hi' => ?_⟩
      have := hno (i - v1.dims) (by omega)
      rw [show v1.dims + (i - v1.dims) = i by omega, Vector1Bit.Differ, not_not] at this
      exact this
    · rintro ⟨-, hagree⟩ m hm
      rw [Vector1Bit.Differ, not_not]
      exact hagree _ (by omega) (by omega)
  · -- no byte of such a vector is in its memory
    have hnone : vector1BitDistanceHamming v1 v2 = none := by
      unfold vector1BitDistanceHamming
      refine if_neg fun hin => ?_
      rw [hlen1, Vector1Bit.len8] at hin
      have := le_trans (le_max_left _ _) hin.1
      omega
    rw [hnone]
    refine iff_of_false (by simp) fun hin => ?_
    have := hin.1
    simp only [maxVectorSz] at this
    omega

/-- **Vectors that were converted** agree in their padding, and are compared as they should. -/
theorem hamming_of_converted {pFrom pFrom' : Vector} {dst dst' : List UInt8}
    (hdims : pFrom.dims = pFrom'.dims) (htype : pFrom.type ≠ .float1bit)
    (htype' : pFrom'.type ≠ .float1bit)
    (hdst : dst.length = (pFrom.dims + 7) / 8) (hdst' : dst'.length = (pFrom'.dims + 7) / 8) :
    PaddingAgrees ⟨pFrom.dims, vectorConvert1Bit mulAdd pFrom dst⟩
      ⟨pFrom'.dims, vectorConvert1Bit mulAdd pFrom' dst'⟩ := by
  intro i hi _
  rw [(vectorConvert1Bit_padding mulAdd htype hdst).2 i hi,
    (vectorConvert1Bit_padding mulAdd htype' hdst').2 i (by rw [← hdims]; exact hi)]

/-- Two vectors of eight components. -/
theorem hamming_iff_eight :
    vector1BitDistanceHamming ⟨8, [0x0f]⟩ ⟨8, [0xff]⟩ =
        some (Nat.count (Vector1Bit.Differ ⟨8, [0x0f]⟩ ⟨8, [0xff]⟩) 8) ↔
      8 ≤ maxVectorSz ∧ PaddingAgrees ⟨8, [0x0f]⟩ ⟨8, [0xff]⟩ :=
  hamming_iff
    (show Accepted (fun _ _ _ => 0) _ from .parsed [0x0f, 8, 3] 8 (.inl (by decide)) (by decide))
    (.parsed [0xff, 8, 3] 8 (.inl (by decide)) (by decide)) rfl

/-- Two vectors of one component, which is the same, have distance one. -/
theorem hamming_padding :
    ¬ ∀ (mulAdd : ℕ → UInt8 → ℕ → ℕ) (v1 v2 : Vector1Bit), Accepted mulAdd v1 → Accepted mulAdd v2 →
      v1.dims = v2.dims →
        vector1BitDistanceHamming v1 v2 = some (Nat.count (v1.Differ v2) v1.dims) := by
  intro h
  have h1 : Accepted (fun _ _ _ => 0) ⟨1, [0x02]⟩ :=
    .parsed [0x02, 15, 3] 1 (.inl (by decide)) (by decide)
  have h2 : Accepted (fun _ _ _ => 0) ⟨1, [0x00]⟩ :=
    .parsed [0x00, 15, 3] 1 (.inl (by decide)) (by decide)
  exact absurd (h _ _ _ h1 h2 rfl) (by decide)

end MoVeBench
