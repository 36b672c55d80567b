/-
MoVeBench/DiskAnn/Vector.lean

Vectors as the index stores them, and the index parameters.

A vector is its type, its dimension and the bytes that the vector functions
read.  For FLOAT8 these are the `dims` quantised components and, behind the
alignment gap, eight bytes of parameters; the bytes of the gap are neither read
nor written (`vectorF8SerializeToBlob`), so they are not part of the value.
Serialising a vector into a block and reading it back is the identity
(`vectorInitStatic_serialize`), and touches nothing outside the vector's bytes.

The floating-point side (distances, conversions between types, the pruning
comparison) is a parameter of the development, `VectorMath`.
-/
import MoVeBench.Lib.Bytes

namespace MoVeBench

open Bytes

/-! ### Vector types -/

/-- `VECTOR_TYPE_FLOAT32` ... `VECTOR_TYPE_FLOATB16`. -/
inductive VectorType
  | float32
  | float64
  | float1bit
  | float8
  | float16
  | floatb16
deriving DecidableEq, Repr

/-- The constants of `vectorInt.h`. -/
def VectorType.code : VectorType → ℕ
  | .float32 => 1
  | .float64 => 2
  | .float1bit => 3
  | .float8 => 4
  | .float16 => 5
  | .floatb16 => 6

def VectorType.ofCode : ℕ → Option VectorType
  | 1 => some .float32
  | 2 => some .float64
  | 3 => some .float1bit
  | 4 => some .float8
  | 5 => some .float16
  | 6 => some .floatb16
  | _ => none

@[simp] theorem VectorType.ofCode_code (t : VectorType) : ofCode t.code = some t := by
  cases t <;> rfl

theorem VectorType.code_of_ofCode {n : ℕ} {t : VectorType} (h : ofCode n = some t) :
    t.code = n := by
  unfold ofCode at h
  split at h <;> cases h <;> rfl

/-- `VECTOR_METRIC_TYPE_COS`, `VECTOR_METRIC_TYPE_L2`. -/
inductive MetricType
  | cos
  | l2
deriving DecidableEq, Repr

def MetricType.code : MetricType → ℕ
  | .cos => 1
  | .l2 => 2

def MetricType.ofCode : ℕ → Option MetricType
  | 1 => some .cos
  | 2 => some .l2
  | _ => none

@[simp] theorem MetricType.ofCode_code (t : MetricType) : ofCode t.code = some t := by
  cases t <;> rfl

/-- `ALIGN(n, size)`. -/
def alignUp (n size : ℕ) : ℕ := (n + size - 1) / size * size

/-- `vectorDataSize`. -/
def vectorDataSize (type : VectorType) (dims : ℕ) : ℕ :=
  match type with
  | .float32 => dims * 4
  | .float64 => dims * 8
  | .float1bit => (dims + 7) / 8
  | .float8 => alignUp dims 4 + 4 + 4
  | .float16 => dims * 2
  | .floatb16 => dims * 2

/-- Length of the first run of bytes that are read, offset of the second run,
and its length. -/
def vectorRuns (type : VectorType) (dims : ℕ) : ℕ × ℕ × ℕ :=
  match type with
  | .float8 => (dims, alignUp dims 4, 8)
  | t => (vectorDataSize t dims, vectorDataSize t dims, 0)

theorem le_alignUp (n : ℕ) : n ≤ alignUp n 4 := by
  unfold alignUp
  omega

/-- The two runs lie in the vector's bytes, one behind the other. -/
theorem vectorRuns_le (type : VectorType) (dims : ℕ) :
    (vectorRuns type dims).1 ≤ (vectorRuns type dims).2.1 ∧
      (vectorRuns type dims).2.1 + (vectorRuns type dims).2.2 = vectorDataSize type dims := by
  have := le_alignUp dims
  cases type <;> simp [vectorRuns, vectorDataSize, this]

theorem vectorDataSize_le (type : VectorType) {dims : ℕ} (h : dims ≤ 65536) :
    vectorDataSize type dims ≤ 524288 := by
  cases type <;> simp only [vectorDataSize, alignUp] <;> omega

/-! ### Vectors in blocks -/

/-- `struct Vector`, with the bytes that are read of it. -/
structure Vector where
  type : VectorType
  dims : ℕ
  data : List UInt8
  data_length : data.length = (vectorRuns type dims).1 + (vectorRuns type dims).2.2
deriving DecidableEq

/-- `vectorInitStatic`: a vector over the bytes at `off`. -/
def vectorInitStatic (type : VectorType) (dims : ℕ) (buf : List UInt8) (off : ℕ) : Vector where
  type := type
  dims := dims
  data :=
    readBytes buf off (vectorRuns type dims).1 ++
      readBytes buf (off + (vectorRuns type dims).2.1) (vectorRuns type dims).2.2
  data_length := by simp

/-- `vectorSerializeToBlob` at offset `off`. -/
def vectorSerializeToBlob (v : Vector) (buf : List UInt8) (off : ℕ) : List UInt8 :=
  writeBytes (writeBytes buf off (v.data.take (vectorRuns v.type v.dims).1))
    (off + (vectorRuns v.type v.dims).2.1) (v.data.drop (vectorRuns v.type v.dims).1)

@[simp] theorem vectorSerializeToBlob_length (v : Vector) (buf : List UInt8) (off : ℕ) :
    (vectorSerializeToBlob v buf off).length = buf.length := by
  simp [vectorSerializeToBlob]

/-- Serialising leaves every range outside the vector's bytes alone. -/
theorem agreeOn_serialize {v : Vector} {buf : List UInt8} {off off' n : ℕ}
    (h : off' + n ≤ off ∨ off + vectorDataSize v.type v.dims ≤ off') :
    AgreeOn off' n (vectorSerializeToBlob v buf off) buf := by
  obtain ⟨h1, h2⟩ := vectorRuns_le v.type v.dims
  have hlen := v.data_length
  refine (agreeOn_writeBytes ?_).trans (agreeOn_writeBytes ?_)
  · rw [List.length_drop]
    omega
  · rw [List.length_take]
    omega

/-- **A serialised vector reads back.** -/
theorem vectorInitStatic_serialize {v : Vector} {buf : List UInt8} {off : ℕ}
    (h : off + vectorDataSize v.type v.dims ≤ buf.length) :
    vectorInitStatic v.type v.dims (vectorSerializeToBlob v buf off) off = v := by
  obtain ⟨h1, h2⟩ := vectorRuns_le v.type v.dims
  have hlen := v.data_length
  have htake : (v.data.take (vectorRuns v.type v.dims).1).length =
      (vectorRuns v.type v.dims).1 := by
    rw [List.length_take]; omega
  have hdrop : (v.data.drop (vectorRuns v.type v.dims).1).length =
      (vectorRuns v.type v.dims).2.2 := by
    rw [List.length_drop]; omega
  have hhead : readBytes (vectorSerializeToBlob v buf off) off (vectorRuns v.type v.dims).1 =
      v.data.take (vectorRuns v.type v.dims).1 := by
    rw [vectorSerializeToBlob, readBytes_congr (agreeOn_writeBytes (by omega))]
    have key := @readBytes_writeBytes buf (v.data.take (vectorRuns v.type v.dims).1) off (by omega)
    rwa [htake] at key
  have htail : readBytes (vectorSerializeToBlob v buf off) (off + (vectorRuns v.type v.dims).2.1)
      (vectorRuns v.type v.dims).2.2 = v.data.drop (vectorRuns v.type v.dims).1 := by
    have key := @readBytes_writeBytes
      (writeBytes buf off (v.data.take (vectorRuns v.type v.dims).1))
      (v.data.drop (vectorRuns v.type v.dims).1)
      (off + (vectorRuns v.type v.dims).2.1) (by rw [writeBytes_length]; omega)
    rwa [hdrop] at key
  obtain ⟨type, dims, data, hdata⟩ := v
  simp only [vectorInitStatic, Vector.mk.injEq, true_and]
  rw [hhead, htail, List.take_append_drop]

/-- Ranges with the same bytes hold the same vector. -/
theorem vectorInitStatic_eq_of_read {type : VectorType} {dims : ℕ} {buf buf' : List UInt8}
    {off off' : ℕ}
    (h : readBytes buf off (vectorDataSize type dims) =
      readBytes buf' off' (vectorDataSize type dims)) :
    vectorInitStatic type dims buf off = vectorInitStatic type dims buf' off' := by
  obtain ⟨h1, h2⟩ := vectorRuns_le type dims
  have hhead := readBytes_part h (k := 0) (m := (vectorRuns type dims).1) (by omega)
  have htail := readBytes_part h (k := (vectorRuns type dims).2.1)
    (m := (vectorRuns type dims).2.2) (by omega)
  simp only [Nat.add_zero] at hhead
  rw [vectorInitStatic, vectorInitStatic, Vector.mk.injEq]
  exact ⟨rfl, rfl, by rw [hhead, htail]⟩

/-- Blocks that hold the same bytes hold the same vector. -/
theorem vectorInitStatic_congr {type : VectorType} {dims : ℕ} {buf buf' : List UInt8} {off : ℕ}
    (h : AgreeOn off (vectorDataSize type dims) buf buf') :
    vectorInitStatic type dims buf off = vectorInitStatic type dims buf' off :=
  vectorInitStatic_eq_of_read (readBytes_congr h)

/-! ### The floating-point side -/

/-- What the index takes from floating-point code.  `D` is `float`; its order is
`<` on floats, given where it is used. -/
structure VectorMath (D : Type) where
  /-- `vectorDistanceCos`, `vectorDistanceL2`. -/
  vectorDistance : MetricType → Vector → Vector → D
  /-- `vectorConvert` to another type of the same dimension. -/
  vectorConvert : (v : Vector) → (type : VectorType) →
    { w : Vector // w.type = type ∧ w.dims = v.dims }
  /-- `nodeToNew > pruningAlpha * edgeToNew`; the `double` is given by its bits. -/
  exceedsScaled : ℕ → D → D → Bool
  /-- `*((u32*)&distance)`. -/
  toBits : D → UInt32
  /-- `*((float*)&distance)`. -/
  ofBits : UInt32 → D

/-! ### Vectors of one whole component -/

/-- The whole number that a `float` stands for, for bits of a whole number. -/
def wholeOfBits (u : UInt32) : ℕ :=
  if u = 0 then 0 else (u.toNat % 2 ^ 23 + 2 ^ 23) * 2 ^ (u.toNat / 2 ^ 23) / 2 ^ 150

/-- The bits of a whole number below `2 ^ 24` as a `float`. -/
def bitsOfWhole (n : ℕ) : UInt32 :=
  if n = 0 then 0
  else .ofNat ((Nat.log2 n + 127) * 2 ^ 23 + (n * 2 ^ 23 / 2 ^ Nat.log2 n - 2 ^ 23))

/-- The component of a vector of one `float`. -/
def wholeComponent (v : Vector) : ℕ := wholeOfBits (.ofNat (Bytes.fromLe v.data))

/-- The floating-point side for vectors of one whole component: the distance is
`sqrt((x - y) * (x - y))`, and the pruning factor is `1.2`. -/
def wholeMath : VectorMath ℕ where
  vectorDistance := fun _ v w =>
    (wholeComponent v - wholeComponent w) + (wholeComponent w - wholeComponent v)
  vectorConvert := fun v type =>
    ⟨{ type
       dims := v.dims
       data := List.replicate ((vectorRuns type v.dims).1 + (vectorRuns type v.dims).2.2) 0
       data_length := by simp }, rfl, rfl⟩
  exceedsScaled := fun _ d e => 6 * e < 5 * d
  toBits := bitsOfWhole
  ofBits := wholeOfBits

/-- A vector of one whole component. -/
def wholeVector (n : ℕ) : Vector where
  type := .float32
  dims := 1
  data := Bytes.leBytes 4 (bitsOfWhole n).toNat
  data_length := by simp [vectorRuns, vectorDataSize]

end MoVeBench
