/-
MoVeBench/DiskAnn/VectorBlob.lean

Blobs that describe themselves (`vectorSerializeWithMeta`, `vectorParseMeta`,
`detectBlobVectorParameters` and `vectorParseSqliteBlobWithType` of `vector.c`).

The components of a vector are followed by its type and, where the length of the blob
does not tell the dimension, by the number of bits or bytes that do not count.  A blob of
even length has no such trailer, and is a FLOAT32 vector.

* What was serialised is detected and parsed as the vector that it was
  (`vectorSerializeWithMeta_parse`), for all residues of the dimension.
* What is parsed lies in the blob and fits the vector, whatever the blob; but the
  dimension that is detected may be negative, where the number in the trailer is larger
  than the blob (`detectBlob_safe_iff`).
-/
import MoVeBench.Lib.SlotList
import MoVeBench.DiskAnn.Params
import MoVeBench.DiskAnn.Store

namespace MoVeBench

open Bytes SlotList

/-! ### Serialising -/

/-- `vectorMetaSize`. -/
def vectorMetaSize (type : VectorType) (dims : ℕ) : ℕ :=
  match type with
  | .float32 => 0
  | .float64 | .float16 | .floatb16 => 1
  -- optional padding byte, "trailing-bits" byte, "vector-type" byte
  | .float1bit => (if vectorDataSize .float1bit dims % 2 = 0 then 1 else 0) + 1 + 1
  -- padding byte, "trailing-bytes" byte, "vector-type" byte
  | .float8 => 1 + 1 + 1

/-- `vectorSerializeMeta`. -/
def vectorSerializeMeta (v : Vector) (pBlob : List UInt8) : List UInt8 :=
  let nBlobSize := pBlob.length
  match v.type with
  | .float32 => pBlob
  | .float64 | .float16 | .floatb16 => pBlob.set (nBlobSize - 1) (.ofNat v.type.code)
  | .float1bit =>
      let pBlob := pBlob.set (nBlobSize - 1) (.ofNat v.type.code)
      let pBlob := pBlob.set (nBlobSize - 2) (.ofNat (8 * (nBlobSize - 1) - v.dims))
      if vectorMetaSize v.type v.dims = 3 then pBlob.set (nBlobSize - 3) 0 else pBlob
  | .float8 =>
      let pBlob := pBlob.set (nBlobSize - 1) (.ofNat v.type.code)
      let pBlob := pBlob.set (nBlobSize - 2) (.ofNat (alignUp v.dims 4 - v.dims))
      pBlob.set (nBlobSize - 3) 0

/-- `vectorSerializeWithMeta`, into memory that has been allocated for it. -/
def vectorSerializeWithMeta (v : Vector) (pBlob : List UInt8) : List UInt8 :=
  vectorSerializeMeta v (vectorSerializeToBlob v pBlob 0)

/-! ### Parsing -/

/-- `vectorParseMeta`: `*pType`, `*pDims` and `*pDataSize`. -/
def vectorParseMeta (pBlob : List UInt8) : Except String (VectorType × ℤ × ℕ) :=
  let nBlobSize := pBlob.length
  if nBlobSize % 2 = 0 then .ok (.float32, toInt (nBlobSize / 4), nBlobSize)
  else
    let type := (pBlob.getD (nBlobSize - 1) 0).toNat
    let nBlobSize := nBlobSize - 1
    let nTrailing := (pBlob.getD (nBlobSize - 1) 0).toNat
    match VectorType.ofCode type with
    | some .float32 =>
        if nBlobSize % 4 ≠ 0 then
          .error ("vector: float32 vector blob length must be divisible by 4 " ++
            s!"(excluding optional 'type'-byte): length={nBlobSize}")
        else .ok (.float32, toInt (nBlobSize / 4), nBlobSize)
    | some .float64 =>
        if nBlobSize % 8 ≠ 0 then
          .error ("vector: float64 vector blob length must be divisible by 8 " ++
            s!"(excluding 'type'-byte): length={nBlobSize}")
        else .ok (.float64, toInt (nBlobSize / 8), nBlobSize)
    | some .float1bit =>
        if nBlobSize = 0 ∨ nBlobSize % 2 ≠ 0 then
          .error ("vector: float1bit vector blob length must be divisible by 2 and not be empty " ++
            s!"(excluding 'type'-byte): length={nBlobSize}")
        else
          -- a size_t becomes an int, and the size of the data a size_t again
          let dims := ((nBlobSize : ℤ) * 8 - nTrailing).bmod (2 ^ 32)
          .ok (.float1bit, dims, ((dims + 7).tdiv 8 % 2 ^ 64).toNat)
    | some .float8 =>
        if nBlobSize < 2 ∨ nBlobSize % 2 ≠ 0 then
          .error ("vector: float8 vector blob length must be divisible by 2 and has at least " ++
            s!"2 bytes (excluding 'type'-byte): length={nBlobSize}")
        else
          .ok (.float8, ((nBlobSize : ℤ) - 2 - 4 - 4 - nTrailing).bmod (2 ^ 32), nBlobSize - 2)
    | some .float16 =>
        if nBlobSize % 2 ≠ 0 then
          .error ("vector: float16 vector blob length must be divisible by 2 " ++
            s!"(excluding 'type'-byte): length={nBlobSize}")
        else .ok (.float16, toInt (nBlobSize / 2), nBlobSize)
    | some .floatb16 =>
        if nBlobSize % 2 ≠ 0 then
          .error ("vector: floatb16 vector blob length must be divisible by 2 " ++
            s!"(excluding 'type'-byte): length={nBlobSize}")
        else .ok (.floatb16, toInt (nBlobSize / 2), nBlobSize)
    | none => .error s!"vector: unexpected binary type: {type}"

/-- `detectBlobVectorParameters`. -/
def detectBlobVectorParameters (pBlob : List UInt8) : Except String (VectorType × ℤ) :=
  match vectorParseMeta pBlob with
  | .error zErrMsg => .error zErrMsg
  | .ok (type, dims, _) =>
      if dims > maxVectorSz then
        .error s!"vector: max size exceeded: {dims} > {maxVectorSz}"
      else .ok (type, dims)

/-- `vectorDataSize` of any `VectorDims`, in which `dims + 7` is computed. -/
def vectorDataSizeU32 (type : VectorType) (dims : ℕ) : ℕ :=
  match type with
  | .float1bit => (dims + 7) % 2 ^ 32 / 8
  | type => vectorDataSize type dims

/-- The bytes, from the first on, that `vectorF32DeserializeFromBlob` and its siblings
read of the blob and write to the vector. -/
def deserializeSize (type : VectorType) (dims : ℕ) : ℕ :=
  match type with
  | .float32 => dims * 4
  | .float64 => dims * 8
  | .float1bit => (dims + 7) % 2 ^ 32 / 8
  -- the components with the gap behind them, then `alpha` and `shift`
  | .float8 => alignUp dims 4 + 4 + 4
  | .float16 => dims * 2
  | .floatb16 => dims * 2

/-- `vectorParseSqliteBlobWithType` into a vector of `type` and `dims`: the bytes of the
vector that are filled. -/
def vectorParseSqliteBlobWithType (type : VectorType) (dims : ℕ) (pBlob : List UInt8) :
    Except String (List UInt8) :=
  match vectorParseMeta pBlob with
  | .error zErrMsg => .error zErrMsg
  | .ok (_, _, nDataSize) =>
      let size := vectorDataSizeU32 type dims
      let code := type.code
      if nDataSize ≠ size then
        .error ("vector: unexpected data part size: " ++
          s!"type={code}, dims={dims}, {nDataSize} != {size}")
      else .ok (readBytes pBlob 0 (deserializeSize type dims))

/-! ### Sizes -/

theorem deserializeSize_eq (type : VectorType) (dims : ℕ) :
    deserializeSize type dims = vectorDataSizeU32 type dims := by
  cases type <;> rfl

theorem vectorDataSizeU32_eq (type : VectorType) {dims : ℕ} (h : dims ≤ maxVectorSz) :
    vectorDataSizeU32 type dims = vectorDataSize type dims := by
  cases type with
  | float1bit =>
      show (dims + 7) % 2 ^ 32 / 8 = (dims + 7) / 8
      rw [Nat.mod_eq_of_lt (by simp only [maxVectorSz] at h; omega)]
  | _ => rfl

theorem agreeOn_set {l : List UInt8} {i n : ℕ} (h : n ≤ i) (u : UInt8) :
    AgreeOn 0 n (l.set i u) l :=
  fun j _ hj => getD_set_of_ne (by omega) u 0

/-! ### Blobs with a type -/

/-- The last byte but one of a blob, the number in its trailer. -/
def trailingByte (pBlob : List UInt8) : ℕ := (pBlob.getD (pBlob.length - 2) 0).toNat

section Meta

variable {pBlob : List UInt8} (hodd : pBlob.length % 2 = 1)
include hodd

/-- A blob with a type whose components are whole bytes, `w` of them. -/
theorem vectorParseMeta_whole {type : VectorType} {w : ℕ}
    (hw : (type, w) ∈ [(.float64, 8), (.float16, 2), (.floatb16, 2)])
    (htype : VectorType.ofCode (pBlob.getD (pBlob.length - 1) 0).toNat = some type)
    (hmod : (pBlob.length - 1) % w = 0) :
    vectorParseMeta pBlob = .ok (type, toInt ((pBlob.length - 1) / w), pBlob.length - 1) := by
  simp only [List.mem_cons, Prod.mk.injEq, List.not_mem_nil, or_false] at hw
  unfold vectorParseMeta
  dsimp only
  rw [if_neg (by omega), htype]
  rcases hw with ⟨rfl, rfl⟩ | ⟨rfl, rfl⟩ | ⟨rfl, rfl⟩
  all_goals exact if_neg (not_not.mpr hmod)

variable (h3 : 3 ≤ pBlob.length)
include h3

/-- A blob with a FLOAT8 trailer. -/
theorem vectorParseMeta_float8 (hlen : pBlob.length < 2 ^ 31)
    (htype : VectorType.ofCode (pBlob.getD (pBlob.length - 1) 0).toNat = some .float8) :
    vectorParseMeta pBlob =
      .ok (.float8, (pBlob.length : ℤ) - 11 - trailingByte pBlob, pBlob.length - 3) := by
  have ht : trailingByte pBlob < 256 := (pBlob.getD (pBlob.length - 2) 0).toNat_lt
  unfold vectorParseMeta
  dsimp only
  rw [if_neg (by omega), htype]
  dsimp only
  rw [if_neg (by omega), show pBlob.length - 1 - 1 = pBlob.length - 2 by omega, ← trailingByte,
    Int.bmod_eq_of_le (by omega) (by omega)]
  refine congrArg Except.ok (Prod.ext rfl (Prod.ext ?_ ?_))
  · dsimp only
    omega
  · show pBlob.length - 1 - 2 = pBlob.length - 3
    omega

/-- A blob with a FLOAT1BIT trailer. -/
theorem vectorParseMeta_float1bit
    (htype : VectorType.ofCode (pBlob.getD (pBlob.length - 1) 0).toNat = some .float1bit) :
    vectorParseMeta pBlob =
      .ok (.float1bit, (((pBlob.length - 1 : ℕ) : ℤ) * 8 - trailingByte pBlob).bmod (2 ^ 32),
        (((((pBlob.length - 1 : ℕ) : ℤ) * 8 - trailingByte pBlob).bmod (2 ^ 32) + 7).tdiv 8 %
          2 ^ 64).toNat) := by
  unfold vectorParseMeta
  dsimp only
  rw [if_neg (by omega), htype]
  dsimp only
  rw [if_neg (by omega), show pBlob.length - 1 - 1 = pBlob.length - 2 by omega, ← trailingByte]

end Meta

/-! ### What was serialised is parsed -/

/-- What the trailer says: the type, and how many bits or bytes do not count. -/
structure Trailer (v : Vector) (pBlob : List UInt8) : Prop where
  length : pBlob.length = vectorDataSize v.type v.dims + vectorMetaSize v.type v.dims
  type : v.type ≠ .float32 → pBlob.getD (pBlob.length - 1) 0 = .ofNat v.type.code
  bits : v.type = .float1bit →
    pBlob.getD (pBlob.length - 2) 0 = .ofNat (8 * (pBlob.length - 1) - v.dims)
  bytes : v.type = .float8 →
    pBlob.getD (pBlob.length - 2) 0 = .ofNat (alignUp v.dims 4 - v.dims)

variable {v : Vector} {pBlob : List UInt8}

/-- **The trailer is written** behind the components, which it leaves alone. -/
theorem vectorSerializeMeta_spec (hdims : 1 ≤ v.dims)
    (hlen : pBlob.length = vectorDataSize v.type v.dims + vectorMetaSize v.type v.dims) :
    Trailer v (vectorSerializeMeta v pBlob) ∧
      AgreeOn 0 (vectorDataSize v.type v.dims) (vectorSerializeMeta v pBlob) pBlob := by
  obtain ⟨type, dims, data, hdata⟩ := v
  dsimp only at hdims hlen ⊢
  cases type with
  | float32 =>
      exact ⟨⟨hlen, fun h => absurd rfl h, fun h => (by cases h), fun h => (by cases h)⟩,
        fun _ _ _ => rfl⟩
  | float64 | float16 | floatb16 =>
      simp only [vectorMetaSize] at hlen
      refine ⟨⟨?_, fun _ => ?_, fun h => (by cases h), fun h => (by cases h)⟩, ?_⟩
      · simp only [vectorSerializeMeta, List.length_set, vectorMetaSize, hlen]
      · simp only [vectorSerializeMeta, List.length_set]
        exact getD_set_self (by omega) _ 0
      · exact agreeOn_set (by omega) _
  | float8 =>
      simp only [vectorMetaSize] at hlen
      refine ⟨⟨?_, fun _ => ?_, fun h => (by cases h), fun _ => ?_⟩, ?_⟩
      · simp only [vectorSerializeMeta, List.length_set, vectorMetaSize, hlen]
      · simp only [vectorSerializeMeta, List.length_set]
        rw [getD_set_of_ne (by omega), getD_set_of_ne (by omega), getD_set_self (by omega)]
      · simp only [vectorSerializeMeta, List.length_set]
        rw [getD_set_of_ne (by omega), getD_set_self (by rw [List.length_set]; omega)]
      · exact (agreeOn_set (by omega) _).trans
          ((agreeOn_set (by omega) _).trans (agreeOn_set (by omega) _))
  | float1bit =>
      have hmeta : vectorMetaSize .float1bit dims = 3 ∨ vectorMetaSize .float1bit dims = 2 := by
        simp only [vectorMetaSize]
        split_ifs <;> simp
      unfold vectorSerializeMeta
      dsimp only
      rcases hmeta with hmeta | hmeta
      · rw [if_pos hmeta]
        rw [hmeta] at hlen
        refine ⟨⟨?_, fun _ => ?_, fun _ => ?_, fun h => (by cases h)⟩, ?_⟩
        · simp only [List.length_set, hmeta, hlen]
        · simp only [List.length_set]
          rw [getD_set_of_ne (by omega), getD_set_of_ne (by omega), getD_set_self (by omega)]
        · simp only [List.length_set]
          rw [getD_set_of_ne (by omega), getD_set_self (by rw [List.length_set]; omega)]
        · exact (agreeOn_set (by omega) _).trans
            ((agreeOn_set (by omega) _).trans (agreeOn_set (by omega) _))
      · rw [if_neg (by omega)]
        rw [hmeta] at hlen
        have hdata : 1 ≤ vectorDataSize .float1bit dims := by
          show 1 ≤ (dims + 7) / 8
          omega
        refine ⟨⟨?_, fun _ => ?_, fun _ => ?_, fun h => (by cases h)⟩, ?_⟩
        · simp only [List.length_set, hmeta, hlen]
        · simp only [List.length_set]
          rw [getD_set_of_ne (by omega), getD_set_self (by omega)]
        · simp only [List.length_set]
          rw [getD_set_self (by rw [List.length_set]; omega)]
        · exact (agreeOn_set (by omega) _).trans (agreeOn_set (by omega) _)

/-- The type is read back. -/
theorem Trailer.ofCode (h : Trailer v pBlob) (hne : v.type ≠ .float32) :
    VectorType.ofCode (pBlob.getD (pBlob.length - 1) 0).toNat = some v.type := by
  have hcode : v.type.code < 256 := by cases v.type <;> decide
  rw [h.type hne, toNat_ofNat_of_lt hcode, VectorType.ofCode_code]

/-- **What the trailer says is understood**, for all residues of the dimension. -/
theorem vectorParseMeta_trailer (h : Trailer v pBlob) (hdims : 1 ≤ v.dims)
    (hmax : v.dims ≤ maxVectorSz) :
    vectorParseMeta pBlob = .ok (v.type, (v.dims : ℤ), vectorDataSize v.type v.dims) := by
  have hcode := h.ofCode
  obtain ⟨hlen, -, hbits, hbytes⟩ := h
  obtain ⟨type, dims, data, hdata⟩ := v
  simp only [maxVectorSz] at hmax
  dsimp only at hlen hcode hbits hbytes hdims ⊢
  cases type with
  | float32 =>
      have hlen' : pBlob.length = dims * 4 := hlen
      unfold vectorParseMeta
      dsimp only
      rw [if_pos (by omega), hlen', toInt_of_lt (by omega), Nat.mul_div_cancel _ (by omega)]
      rfl
  | float64 =>
      have hlen' : pBlob.length = dims * 8 + 1 := hlen
      rw [vectorParseMeta_whole (by omega) (w := 8) (by decide) (hcode (by decide)) (by omega),
        hlen', Nat.add_sub_cancel, Nat.mul_div_cancel _ (by omega), toInt_of_lt (by omega)]
      rfl
  | float16 =>
      have hlen' : pBlob.length = dims * 2 + 1 := hlen
      rw [vectorParseMeta_whole (by omega) (w := 2) (by decide) (hcode (by decide)) (by omega),
        hlen', Nat.add_sub_cancel, Nat.mul_div_cancel _ (by omega), toInt_of_lt (by omega)]
      rfl
  | floatb16 =>
      have hlen' : pBlob.length = dims * 2 + 1 := hlen
      rw [vectorParseMeta_whole (by omega) (w := 2) (by decide) (hcode (by decide)) (by omega),
        hlen', Nat.add_sub_cancel, Nat.mul_div_cancel _ (by omega), toInt_of_lt (by omega)]
      rfl
  | float8 =>
      have hlen' : pBlob.length = alignUp dims 4 + 4 + 4 + 3 := hlen
      have halign : dims ≤ alignUp dims 4 ∧ alignUp dims 4 ≤ dims + 3 ∧
          alignUp dims 4 % 4 = 0 := by
        unfold alignUp
        omega
      have htrail : trailingByte pBlob = alignUp dims 4 - dims := by
        rw [trailingByte, hbytes rfl, toNat_ofNat_of_lt (by omega)]
      rw [vectorParseMeta_float8 (by omega) (by omega) (by omega) (hcode (by decide)), htrail]
      refine congrArg Except.ok (Prod.ext rfl (Prod.ext ?_ ?_))
      · dsimp only
        omega
      · show pBlob.length - 3 = alignUp dims 4 + 4 + 4
        omega
  | float1bit =>
      have hlen' : pBlob.length = (dims + 7) / 8 +
          ((if (dims + 7) / 8 % 2 = 0 then 1 else 0) + 1 + 1) := hlen
      have hpos : pBlob.length % 2 = 1 ∧ (dims + 7) / 8 + 2 ≤ pBlob.length ∧
          pBlob.length ≤ (dims + 7) / 8 + 3 := by
        split_ifs at hlen' <;> omega
      have htrail : trailingByte pBlob = 8 * (pBlob.length - 1) - dims := by
        rw [trailingByte, hbits rfl, toNat_ofNat_of_lt (by omega)]
      have hdims' : ((pBlob.length - 1 : ℕ) : ℤ) * 8 - trailingByte pBlob = dims := by omega
      rw [vectorParseMeta_float1bit (by omega) (by omega) (hcode (by decide)), hdims',
        Int.bmod_eq_of_le (by omega) (by omega)]
      refine congrArg Except.ok (Prod.ext rfl (Prod.ext rfl ?_))
      show (((dims : ℤ) + 7).tdiv 8 % 2 ^ 64).toNat = (dims + 7) / 8
      rw [Int.tdiv_eq_ediv_of_nonneg (by omega)]
      omega

/-- **A serialised vector is detected and parsed** as the vector that it was, whatever the
memory of the blob held before: the blob has the announced length, the type and the
dimension are found, and the bytes that are read hold the vector. -/
theorem vectorSerializeWithMeta_parse (hdims : 1 ≤ v.dims) (hmax : v.dims ≤ maxVectorSz)
    (hlen : pBlob.length = vectorDataSize v.type v.dims + vectorMetaSize v.type v.dims) :
    (vectorSerializeWithMeta v pBlob).length =
        vectorDataSize v.type v.dims + vectorMetaSize v.type v.dims ∧
      detectBlobVectorParameters (vectorSerializeWithMeta v pBlob) =
        .ok (v.type, (v.dims : ℤ)) ∧
      ∃ mem, vectorParseSqliteBlobWithType v.type v.dims (vectorSerializeWithMeta v pBlob) =
          .ok mem ∧
        mem.length = vectorDataSize v.type v.dims ∧ vectorInitStatic v.type v.dims mem 0 = v := by
  have hser : (vectorSerializeToBlob v pBlob 0).length =
      vectorDataSize v.type v.dims + vectorMetaSize v.type v.dims := by
    rw [vectorSerializeToBlob_length, hlen]
  obtain ⟨htrail, hagree⟩ := vectorSerializeMeta_spec hdims hser
  have hmeta := vectorParseMeta_trailer htrail hdims hmax
  have hsize := vectorDataSizeU32_eq v.type hmax
  refine ⟨htrail.length, ?_, readBytes (vectorSerializeWithMeta v pBlob) 0
    (vectorDataSize v.type v.dims), ?_, readBytes_length _ _ _, ?_⟩
  · rw [detectBlobVectorParameters, vectorSerializeWithMeta, hmeta]
    exact if_neg (by exact_mod_cast not_lt.mpr hmax)
  · rw [vectorParseSqliteBlobWithType, vectorSerializeWithMeta, hmeta, deserializeSize_eq, hsize]
    exact if_neg (not_not.mpr rfl)
  · -- the vector's bytes are those in front of the trailer
    have hmem := readBytes_all (readBytes (vectorSerializeWithMeta v pBlob) 0
      (vectorDataSize v.type v.dims))
    rw [readBytes_length] at hmem
    rw [vectorInitStatic_eq_of_read hmem, vectorSerializeWithMeta, vectorInitStatic_congr hagree]
    exact vectorInitStatic_serialize (by omega)

/-- A FLOAT1BIT vector of nine bits. -/
def nineBits : Vector where
  type := .float1bit
  dims := 9
  data := [0xff, 0x01]
  data_length := by decide

theorem vectorSerializeWithMeta_parse_nineBits :
    detectBlobVectorParameters (vectorSerializeWithMeta nineBits [7, 7, 7, 7, 7]) =
      .ok (.float1bit, 9) :=
  (vectorSerializeWithMeta_parse (show 1 ≤ nineBits.dims by decide) (by decide) (by decide)).2.1

/-! ### Blobs of any bytes -/

/-- What the callers of `detectBlobVectorParameters` rely on: a dimension in range, and a
vector of it that is filled from inside the blob and not beyond its end. -/
def BlobSafe (pBlob : List UInt8) : Prop :=
  ∀ type dims, detectBlobVectorParameters pBlob = .ok (type, dims) →
    (0 ≤ dims ∧ dims ≤ maxVectorSz) ∧
      ∀ mem, vectorParseSqliteBlobWithType type (dims % 2 ^ 32).toNat pBlob = .ok mem →
        deserializeSize type (dims % 2 ^ 32).toNat ≤ pBlob.length ∧
          mem.length ≤ vectorDataSizeU32 type (dims % 2 ^ 32).toNat

/-- The number in the trailer leaves a dimension: for FLOAT8 it is no more than the bytes
in front of the parameters, for FLOAT1BIT no more than the bits in front of the type, as
an `int`. -/
def DimsDeclared (pBlob : List UInt8) : Prop :=
  pBlob.length % 2 = 1 → 3 ≤ pBlob.length →
    (VectorType.ofCode (pBlob.getD (pBlob.length - 1) 0).toNat = some .float8 →
      10 + trailingByte pBlob ≤ pBlob.length - 1) ∧
    (VectorType.ofCode (pBlob.getD (pBlob.length - 1) 0).toNat = some .float1bit →
      (((pBlob.length - 1 : ℕ) : ℤ) * 8 - trailingByte pBlob) % 2 ^ 32 < 2 ^ 31)

/-- **What a blob is taken for**: components of a whole number of bytes, or one of the two
types whose trailer tells the dimension. -/
theorem vectorParseMeta_cases {type : VectorType} {dims : ℤ} {nDataSize : ℕ}
    (h : vectorParseMeta pBlob = .ok (type, dims, nDataSize)) :
    (type ≠ .float1bit ∧ ∃ w, 0 < w ∧ dims = toInt (nDataSize / w) ∧ nDataSize ≤ pBlob.length) ∨
      pBlob.length % 2 = 1 ∧ 3 ≤ pBlob.length ∧ (type = .float8 ∨ type = .float1bit) ∧
        VectorType.ofCode (pBlob.getD (pBlob.length - 1) 0).toNat = some type := by
  unfold vectorParseMeta at h
  dsimp only at h
  by_cases heven : pBlob.length % 2 = 0
  · rw [if_pos heven] at h
    rw [Except.ok.injEq, Prod.mk.injEq, Prod.mk.injEq] at h
    obtain ⟨rfl, rfl, rfl⟩ := h
    exact .inl ⟨by decide, 4, by omega, rfl, le_rfl⟩
  rw [if_neg heven] at h
  rcases hcode : VectorType.ofCode (pBlob.getD (pBlob.length - 1) 0).toNat with - | code
  · rw [hcode] at h
    cases h
  rw [hcode] at h
  cases code with
  | float32 =>
      dsimp only at h
      split_ifs at h
      rw [Except.ok.injEq, Prod.mk.injEq, Prod.mk.injEq] at h
      obtain ⟨rfl, rfl, rfl⟩ := h
      exact .inl ⟨by decide, 4, by omega, rfl, Nat.sub_le _ _⟩
  | float64 =>
      dsimp only at h
      split_ifs at h
      rw [Except.ok.injEq, Prod.mk.injEq, Prod.mk.injEq] at h
      obtain ⟨rfl, rfl, rfl⟩ := h
      exact .inl ⟨by decide, 8, by omega, rfl, Nat.sub_le _ _⟩
  | float16 | floatb16 =>
      dsimp only at h
      split_ifs at h
      rw [Except.ok.injEq, Prod.mk.injEq, Prod.mk.injEq] at h
      obtain ⟨rfl, rfl, rfl⟩ := h
      exact .inl ⟨by decide, 2, by omega, rfl, Nat.sub_le _ _⟩
  | float8 =>
      dsimp only at h
      split_ifs at h
      rw [Except.ok.injEq, Prod.mk.injEq] at h
      obtain ⟨rfl, -⟩ := h
      exact .inr ⟨by omega, by omega, .inl rfl, rfl⟩
  | float1bit =>
      dsimp only at h
      split_ifs at h
      rw [Except.ok.injEq, Prod.mk.injEq] at h
      obtain ⟨rfl, -⟩ := h
      exact .inr ⟨by omega, by omega, .inr rfl, rfl⟩

/-- **What is parsed lies in the blob**, for vectors of any type and dimension: the size
of the data is no more than the blob, or larger than any vector. -/
theorem vectorParseMeta_size {type : VectorType} {dims : ℤ} {nDataSize : ℕ}
    (hlen : pBlob.length < 2 ^ 31)
    (h : vectorParseMeta pBlob = .ok (type, dims, nDataSize)) :
    nDataSize ≤ pBlob.length ∨ 2 ^ 40 ≤ nDataSize := by
  rcases vectorParseMeta_cases h with ⟨-, w, -, -, hle⟩ | ⟨hodd, h3, rfl | rfl, htype⟩
  · exact .inl hle
  · rw [vectorParseMeta_float8 hodd h3 hlen htype, Except.ok.injEq, Prod.mk.injEq,
      Prod.mk.injEq] at h
    obtain ⟨-, -, rfl⟩ := h
    exact .inl (Nat.sub_le _ _)
  · have ht : trailingByte pBlob < 256 := (pBlob.getD (pBlob.length - 2) 0).toNat_lt
    rw [vectorParseMeta_float1bit hodd h3 htype, Except.ok.injEq, Prod.mk.injEq,
      Prod.mk.injEq] at h
    obtain ⟨-, -, rfl⟩ := h
    obtain ⟨x, hx⟩ : ∃ x, x = ((pBlob.length - 1 : ℕ) : ℤ) * 8 - trailingByte pBlob :=
      ⟨_, rfl⟩
    obtain ⟨d, hd⟩ : ∃ d, d = x.bmod (2 ^ 32) := ⟨_, rfl⟩
    rw [← hx, ← hd]
    -- as an `int`, the dimension is no more than the bits that there are
    have hlow : -(2 ^ 31) ≤ d := by
      have := Int.le_bmod (x := x) (m := 2 ^ 32) (by norm_num)
      omega
    have hbits : d ≤ max x 7 := by
      rw [hd, Int.bmod_def]
      split_ifs <;> omega
    rcases lt_or_ge (d + 7) 0 with hneg | hpos
    · -- a negative size is a `size_t` of 64 bits with its upper half set
      have hdiv : (d + 7).tdiv 8 = -((-(d + 7)) / 8) := by
        rw [← Int.tdiv_eq_ediv_of_nonneg (by omega), Int.neg_tdiv, neg_neg]
      rw [hdiv]
      omega
    · left
      rw [Int.tdiv_eq_ediv_of_nonneg hpos]
      omega

/-- **A vector that is parsed is filled from the blob**, whatever its type and dimension. -/
theorem vectorParseSqliteBlob_inside (hlen : pBlob.length < 2 ^ 31) {type : VectorType} {dims : ℕ}
    (hdims : dims < 2 ^ 32) {mem : List UInt8}
    (h : vectorParseSqliteBlobWithType type dims pBlob = .ok mem) :
    deserializeSize type dims ≤ pBlob.length ∧ mem.length ≤ vectorDataSizeU32 type dims := by
  have hbound : vectorDataSizeU32 type dims < 2 ^ 40 := by
    cases type <;> simp only [vectorDataSizeU32, vectorDataSize, alignUp] <;> omega
  rw [vectorParseSqliteBlobWithType] at h
  rcases hmeta : vectorParseMeta pBlob with zErrMsg | ⟨type', dims', nDataSize⟩
  · rw [hmeta] at h
    cases h
  rw [hmeta] at h
  dsimp only at h
  split_ifs at h with hsize
  · rw [ne_eq, not_not] at hsize
    rw [Except.ok.injEq] at h
    rw [← h, readBytes_length, deserializeSize_eq]
    refine ⟨?_, le_rfl⟩
    rcases vectorParseMeta_size hlen hmeta with hle | hge
    · omega
    · omega

/-- A blob that is refused has no number in a trailer that is read. -/
theorem dimsDeclared_of_error (hlen : pBlob.length < 2 ^ 31) {zErrMsg : String}
    (h : vectorParseMeta pBlob = .error zErrMsg) : DimsDeclared pBlob := by
  intro hodd h3
  refine ⟨fun htype => ?_, fun htype => ?_⟩
  · rw [vectorParseMeta_float8 hodd h3 hlen htype] at h
    cases h
  · rw [vectorParseMeta_float1bit hodd h3 htype] at h
    cases h

/-- **When the dimension is not negative.** -/
theorem dims_nonneg_iff (hlen : pBlob.length < 2 ^ 31) {type : VectorType} {dims : ℤ}
    {nDataSize : ℕ} (h : vectorParseMeta pBlob = .ok (type, dims, nDataSize)) :
    0 ≤ dims ↔ DimsDeclared pBlob := by
  have ht : trailingByte pBlob < 256 := (pBlob.getD (pBlob.length - 2) 0).toNat_lt
  -- as an `int`, a number is negative if it is in the upper half of 32 bits
  have hint : ∀ x : ℤ, 0 ≤ x.bmod (2 ^ 32) ↔ x % 2 ^ 32 < 2 ^ 31 := fun x => by
    rw [Int.bmod_def]
    split_ifs <;> omega
  constructor
  · intro hnonneg hodd h3
    refine ⟨fun htype => ?_, fun htype => ?_⟩
    · rw [vectorParseMeta_float8 hodd h3 hlen htype, Except.ok.injEq, Prod.mk.injEq,
        Prod.mk.injEq] at h
      obtain ⟨-, rfl, -⟩ := h
      omega
    · rw [vectorParseMeta_float1bit hodd h3 htype, Except.ok.injEq, Prod.mk.injEq,
        Prod.mk.injEq] at h
      obtain ⟨-, rfl, -⟩ := h
      exact (hint _).mp hnonneg
  · intro hdecl
    rcases vectorParseMeta_cases h with ⟨-, w, hw, hdims, hle⟩ | ⟨hodd, h3, rfl | rfl, htype⟩
    · have hquot : nDataSize / w ≤ nDataSize := Nat.div_le_self _ _
      rw [hdims, toInt_of_lt (by omega)]
      exact Int.natCast_nonneg _
    · have := (hdecl hodd h3).1 htype
      rw [vectorParseMeta_float8 hodd h3 hlen htype, Except.ok.injEq, Prod.mk.injEq,
        Prod.mk.injEq] at h
      obtain ⟨-, rfl, -⟩ := h
      omega
    · rw [vectorParseMeta_float1bit hodd h3 htype, Except.ok.injEq, Prod.mk.injEq,
        Prod.mk.injEq] at h
      obtain ⟨-, rfl, -⟩ := h
      exact (hint _).mpr ((hdecl hodd h3).2 htype)

/-- **Which blobs are safe**: exactly those whose trailer leaves a dimension.  The parser
itself never leaves the blob; but the dimension that is detected is compared with
`MAX_VECTOR_SZ` only, and not with zero. -/
theorem detectBlob_safe_iff (hlen : pBlob.length < 2 ^ 31) :
    BlobSafe pBlob ↔ DimsDeclared pBlob := by
  constructor
  · intro hsafe
    rcases hmeta : vectorParseMeta pBlob with zErrMsg | ⟨type, dims, nDataSize⟩
    · exact dimsDeclared_of_error hlen hmeta
    · refine (dims_nonneg_iff hlen hmeta).mp ?_
      by_contra hneg
      -- a negative dimension is not refused
      have hdetect : detectBlobVectorParameters pBlob = .ok (type, dims) := by
        rw [detectBlobVectorParameters, hmeta]
        exact if_neg (by simp only [maxVectorSz]; omega)
      exact hneg (hsafe _ _ hdetect).1.1
  · intro hdecl type dims hdetect
    rw [detectBlobVectorParameters] at hdetect
    rcases hmeta : vectorParseMeta pBlob with zErrMsg | ⟨type', dims', nDataSize⟩
    · rw [hmeta] at hdetect
      cases hdetect
    rw [hmeta] at hdetect
    dsimp only at hdetect
    split_ifs at hdetect with hmax
    rw [Except.ok.injEq, Prod.mk.injEq] at hdetect
    obtain ⟨rfl, rfl⟩ := hdetect
    refine ⟨⟨(dims_nonneg_iff hlen hmeta).mpr hdecl, not_lt.mp hmax⟩, fun mem hmem => ?_⟩
    exact vectorParseSqliteBlob_inside hlen (by omega) hmem

/-- A FLOAT8 blob of one component. -/
theorem detectBlob_safe_iff_one :
    BlobSafe [9, 0, 0, 0, 0, 0, 0, 0, 0, 0, 0, 0, 0, 3, 4] ↔
      DimsDeclared [9, 0, 0, 0, 0, 0, 0, 0, 0, 0, 0, 0, 0, 3, 4] :=
  detectBlob_safe_iff (by decide)

/-- A blob of three bytes is taken for a FLOAT8 vector of dimension `-8`. -/
theorem threeBytes_negative_dims :
    ¬ ∀ pBlob : List UInt8, pBlob.length < 2 ^ 31 → BlobSafe pBlob := by
  intro h
  have hdetect : detectBlobVectorParameters [0, 0, 4] = .ok (.float8, -8) := by decide
  exact absurd (h [0, 0, 4] (by decide) _ _ hdetect).1.1 (by decide)

end MoVeBench
