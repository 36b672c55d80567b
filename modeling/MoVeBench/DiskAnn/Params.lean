/-
MoVeBench/DiskAnn/Params.lean

The parameters of an index, from the arguments of the SQL function through
`diskAnnCreateIndex` to `diskAnnOpenIndex`.

Parameters travel as a list of tagged 64-bit values in which the last entry of
a tag counts.  What the rest of the index relies on is `IndexOk`: the sizes are
those of the vector types, and a block has room for the node and at least one
edge.  `diskAnnOpenIndex_ok` derives it for every index that the parser and
`diskAnnCreateIndex` accept.
-/
import MoVeBench.Varint
import MoVeBench.DiskAnn.Vector

namespace MoVeBench

/-! ### The parameter list -/

/-- The tags of `vectorIndexInt.h`. -/
inductive ParamId
  | format
  | indexType
  | type
  | dim
  | metricType
  | blockSize
  | pruningAlpha
  | insertL
  | searchL
  | maxNeighbors
  | compressNeighbors
deriving DecidableEq, Repr

/-- `VectorIdxParams`: nine bytes for each entry, 128 bytes in all. -/
structure VectorIdxParams where
  entries : List (ParamId × ℕ)
  size_le : 9 * entries.length ≤ 128

/-- `vectorIdxParamsGetU64`: the last entry of the tag, `0` without one. -/
def vectorIdxParamsGetU64 (pParams : VectorIdxParams) (tag : ParamId) : ℕ :=
  pParams.entries.foldl (fun value e => if e.1 = tag then e.2 else value) 0

/-- `vectorIdxParamsPutU64`, `none` when the buffer is full. -/
def vectorIdxParamsPutU64 (pParams : VectorIdxParams) (tag : ParamId) (value : ℕ) :
    Option VectorIdxParams :=
  if h : 9 * pParams.entries.length + 9 > 128 then none
  else some
    { entries := pParams.entries ++ [(tag, value)]
      size_le := by rw [List.length_append, List.length_singleton]; omega }

/-- A put is visible under its own tag only. -/
theorem vectorIdxParamsGetU64_put {p q : VectorIdxParams} {tag : ParamId} {value : ℕ}
    (h : vectorIdxParamsPutU64 p tag value = some q) (tag' : ParamId) :
    vectorIdxParamsGetU64 q tag' =
      if tag' = tag then value else vectorIdxParamsGetU64 p tag' := by
  unfold vectorIdxParamsPutU64 at h
  split at h
  · cases h
  · obtain rfl := (Option.some.inj h).symm
    simp only [vectorIdxParamsGetU64, List.foldl_append, List.foldl_cons, List.foldl_nil]
    simp only [eq_comm]

/-- A `double` of value zero, by its bits. -/
def isZeroF64 (bits : ℕ) : Bool := bits % 2 ^ 63 = 0

/-- `VECTOR_PRUNING_ALPHA_DEFAULT`, `1.2`. -/
abbrev pruningAlphaDefault : ℕ := 0x3FF3333333333333

abbrev insertLDefault : ℕ := 70
abbrev searchLDefault : ℕ := 200

/-! ### Parsing -/

/-- An argument `name=value` of the index, with the number that `sqlite4Atoi` or
`strtod` makes of the value. -/
inductive VectorIdxArg
  | type
  | metric (m : MetricType)
  | compressNeighbors (t : VectorType)
  | alpha (bits : ℕ)
  | searchL (value : ℤ)
  | insertL (value : ℤ)
  | maxNeighbors (value : ℤ)

/-- Puts an integer parameter; the value is an `int`. -/
def parseInteger (pParams : VectorIdxParams) (tag : ParamId) (value : ℤ) :
    Except String VectorIdxParams :=
  if value = 0 then .error "invalid representation of integer vector index parameter"
  else if value < 0 then .error "integer vector index parameter must be positive"
  else if value ≥ 2 ^ 31 then .error "invalid representation of integer vector index parameter"
  else match vectorIdxParamsPutU64 pParams tag value.toNat with
    | none => .error "unable to serialize integer vector index parameter"
    | some q => .ok q

/-- `parseVectorIdxParam`.  FLOAT64 is not among the compressions it knows. -/
def parseVectorIdxParam (pParams : VectorIdxParams) : VectorIdxArg → Except String VectorIdxParams
  | .type =>
      match vectorIdxParamsPutU64 pParams .indexType 1 with
      | none => .error "unable to serialize vector index parameter"
      | some q => .ok q
  | .metric m =>
      match vectorIdxParamsPutU64 pParams .metricType m.code with
      | none => .error "unable to serialize vector index parameter"
      | some q => .ok q
  | .compressNeighbors t =>
      if t = .float64 then .error "invalid parameter"
      else match vectorIdxParamsPutU64 pParams .compressNeighbors t.code with
        | none => .error "unable to serialize vector index parameter"
        | some q => .ok q
  | .alpha bits =>
      match vectorIdxParamsPutU64 pParams .pruningAlpha (bits % 2 ^ 64) with
      | none => .error "unable to serialize floating point vector index parameter"
      | some q => .ok q
  | .searchL value => parseInteger pParams .searchL value
  | .insertL value => parseInteger pParams .insertL value
  | .maxNeighbors value => parseInteger pParams .maxNeighbors value

/-- `parseVectorIdxParams`; the column's type and dimension come from
`vectorIdxParseColumnType`. -/
def parseVectorIdxParams (type : VectorType) (dims : ℕ) (args : List VectorIdxArg) :
    Except String VectorIdxParams := do
  let p : VectorIdxParams :=
    ⟨[(.format, 3), (.type, type.code), (.dim, dims)], by simp⟩
  args.foldlM parseVectorIdxParam p

/-! ### Layout sizes -/

/-- `nodeMetadataSize`. -/
def nodeMetadataSize (nFormatVersion : ℕ) : ℕ :=
  if nFormatVersion ≤ 2 then 8 + 2 else 8 + 8

/-- `edgeMetadataSize`, the same for every format. -/
def edgeMetadataSize : ℕ := 8 + 8

/-- `nodeEdgeOverhead`. -/
def nodeEdgeOverhead (nEdgeVectorSize : ℕ) : ℕ := nEdgeVectorSize + edgeMetadataSize

/-- `nodeOverhead`. -/
def nodeOverhead (nFormatVersion nNodeVectorSize : ℕ) : ℕ :=
  nNodeVectorSize + nodeMetadataSize nFormatVersion

/-! ### Creating an index -/

/-- Put a parameter that has no value yet. -/
def putDefault (pParams : VectorIdxParams) (tag : ParamId) (absent : Bool) (value : ℕ) :
    Option VectorIdxParams :=
  if absent then vectorIdxParamsPutU64 pParams tag value else some pParams

/-- The number of neighbours a block is sized for. -/
def maxNeighborsParam (pParams : VectorIdxParams) (type neighbours : VectorType) (dims : ℕ) : ℕ :=
  let n := vectorIdxParamsGetU64 pParams .maxNeighbors
  if n = 0 then
    min (3 * (Nat.sqrt dims + 1))
      (50 * nodeOverhead 3 (vectorDataSize type dims) /
        nodeEdgeOverhead (vectorDataSize neighbours dims) + 1)
  else n

/-- `DISKANN_MAX_BLOCK_SZ`. -/
abbrev maxBlockSize : ℕ := 134217728

/-- The neighbour type: the compression, or the node's own type. -/
def edgeVectorType (type : VectorType) (compress : ℕ) : Option VectorType :=
  if compress = 0 then some type else VectorType.ofCode compress

/-- The block size that `diskAnnCreateIndex` computes, a `u64`. -/
def blockSizeBytes (pParams : VectorIdxParams) (type neighbours : VectorType) (dims : ℕ) : ℕ :=
  (nodeOverhead 3 (vectorDataSize type dims) +
    maxNeighborsParam pParams type neighbours dims *
      nodeEdgeOverhead (vectorDataSize neighbours dims)) % 2 ^ 64

/-- Defaults for the search parameters that have no value. -/
def putSearchDefaults (p : VectorIdxParams) : Option VectorIdxParams := do
  let p ← putDefault p .pruningAlpha
    (isZeroF64 (vectorIdxParamsGetU64 p .pruningAlpha)) pruningAlphaDefault
  let p ← putDefault p .insertL (vectorIdxParamsGetU64 p .insertL = 0) insertLDefault
  putDefault p .searchL (vectorIdxParamsGetU64 p .searchL = 0) searchLDefault

/-- The parameters that `diskAnnCreateIndex` stores, `none` where it returns
`SQLITE4_ERROR`.  The statements that create the shadow table are left out. -/
def diskAnnCreateIndex (pParams : VectorIdxParams) : Option VectorIdxParams := do
  let p ← vectorIdxParamsPutU64 pParams .indexType 1
  let type ← VectorType.ofCode (vectorIdxParamsGetU64 p .type)
  let dims := vectorIdxParamsGetU64 p .dim
  if dims = 0 then none else
  let p ← putDefault p .metricType (vectorIdxParamsGetU64 p .metricType = 0) MetricType.cos.code
  let metric := vectorIdxParamsGetU64 p .metricType
  let compress := vectorIdxParamsGetU64 p .compressNeighbors
  -- single bits go with the cosine metric only
  if compress = VectorType.float1bit.code ∧ metric ≠ MetricType.cos.code then none else
  let neighbours ← edgeVectorType type compress
  let blockSize := blockSizeBytes p type neighbours dims
  -- the size may have wrapped at 64 bits before this
  if blockSize > maxBlockSize then none else
  let p ← vectorIdxParamsPutU64 p .blockSize (max 256 blockSize)
  putSearchDefaults p

/-! ### Opening an index -/

/-- `DiskAnnIndex`, without its counters and without `nShadowRows`, which the
operations change and pass along. -/
structure DiskAnnIndex where
  nFormatVersion : ℕ
  nDistanceFunc : MetricType
  nBlockSize : ℕ
  nNodeVectorType : VectorType
  nVectorDims : ℕ
  pruningAlpha : ℕ
  insertL : ℕ
  searchL : ℕ
  nNodeVectorSize : ℕ
  nEdgeVectorType : VectorType
  nEdgeVectorSize : ℕ
  iShadowTnum : ℕ

/-- `pIndex->aKeyPrefix`. -/
def DiskAnnIndex.aKeyPrefix (pIndex : DiskAnnIndex) : List UInt8 :=
  sqlite4PutVarint64 pIndex.iShadowTnum

/-- A parameter, or its default where it is zero. -/
def orDefault (absent : Bool) (value default : ℕ) : ℕ := if absent then default else value

/-- The parameters that `diskAnnOpenIndex` reads, with the table number of the
shadow table's primary key. -/
def diskAnnOpenIndex (pParams : VectorIdxParams) (tnum : ℕ) : Option DiskAnnIndex := do
  let blockParam := vectorIdxParamsGetU64 pParams .blockSize
  -- small values are counted in 512 bytes, as older formats store them
  let nBlockSize := if blockParam ≤ 128 then blockParam <<< 9 else blockParam
  let nDistanceFunc ← MetricType.ofCode (vectorIdxParamsGetU64 pParams .metricType)
  let nNodeVectorType ← VectorType.ofCode (vectorIdxParamsGetU64 pParams .type)
  let nVectorDims := vectorIdxParamsGetU64 pParams .dim
  if nBlockSize = 0 ∨ nVectorDims = 0 then none else
  let nEdgeVectorType ←
    edgeVectorType nNodeVectorType (vectorIdxParamsGetU64 pParams .compressNeighbors)
  let alpha := vectorIdxParamsGetU64 pParams .pruningAlpha
  let insertL := vectorIdxParamsGetU64 pParams .insertL
  let searchL := vectorIdxParamsGetU64 pParams .searchL
  some
    { nFormatVersion := vectorIdxParamsGetU64 pParams .format
      nDistanceFunc
      nBlockSize
      nNodeVectorType
      nVectorDims
      pruningAlpha := orDefault (isZeroF64 alpha) alpha pruningAlphaDefault
      insertL := orDefault (insertL = 0) insertL insertLDefault
      searchL := orDefault (searchL = 0) searchL searchLDefault
      nNodeVectorSize := vectorDataSize nNodeVectorType nVectorDims
      nEdgeVectorType
      nEdgeVectorSize := vectorDataSize nEdgeVectorType nVectorDims
      iShadowTnum := tnum }

/-! ### What an open index guarantees -/

/-- `nodeEdgesMaxCount`. -/
def nodeEdgesMaxCount (pIndex : DiskAnnIndex) : ℕ :=
  (pIndex.nBlockSize - nodeOverhead pIndex.nFormatVersion pIndex.nNodeVectorSize) /
    nodeEdgeOverhead pIndex.nEdgeVectorSize

/-- Sizes as the types say, and room for the node and one edge. -/
structure IndexOk (pIndex : DiskAnnIndex) : Prop where
  nodeSize : pIndex.nNodeVectorSize = vectorDataSize pIndex.nNodeVectorType pIndex.nVectorDims
  edgeSize : pIndex.nEdgeVectorSize = vectorDataSize pIndex.nEdgeVectorType pIndex.nVectorDims
  room : nodeOverhead pIndex.nFormatVersion pIndex.nNodeVectorSize +
    nodeEdgeOverhead pIndex.nEdgeVectorSize ≤ pIndex.nBlockSize
  blockSize_le : pIndex.nBlockSize ≤ maxBlockSize
  dims_pos : 0 < pIndex.nVectorDims
  insertL_pos : 0 < pIndex.insertL
  searchL_pos : 0 < pIndex.searchL

/-- What the parser puts: the column's type and dimension, codes it knows, and
integers that fit an `int`. -/
structure ParsedOk (type : VectorType) (dims : ℕ) (p : VectorIdxParams) : Prop where
  format : vectorIdxParamsGetU64 p .format = 3
  type_eq : vectorIdxParamsGetU64 p .type = type.code
  dim : vectorIdxParamsGetU64 p .dim = dims
  metric : vectorIdxParamsGetU64 p .metricType = 0 ∨
    ∃ m : MetricType, vectorIdxParamsGetU64 p .metricType = m.code
  neighbours : vectorIdxParamsGetU64 p .compressNeighbors = 0 ∨
    ∃ t : VectorType, vectorIdxParamsGetU64 p .compressNeighbors = t.code
  maxNeighbors : vectorIdxParamsGetU64 p .maxNeighbors < 2 ^ 31

theorem ParsedOk.put {type : VectorType} {dims : ℕ} {p q : VectorIdxParams} {tag : ParamId}
    {value : ℕ} (hp : ParsedOk type dims p) (hput : vectorIdxParamsPutU64 p tag value = some q)
    (hfixed : tag ≠ .format ∧ tag ≠ .type ∧ tag ≠ .dim)
    (hmetric : tag = .metricType → ∃ m : MetricType, value = m.code)
    (hneigh : tag = .compressNeighbors → ∃ t : VectorType, value = t.code)
    (hmax : tag = .maxNeighbors → value < 2 ^ 31) : ParsedOk type dims q := by
  have hget := vectorIdxParamsGetU64_put hput
  obtain ⟨hf, ht, hd⟩ := hfixed
  refine ⟨?_, ?_, ?_, ?_, ?_, ?_⟩ <;> rw [hget]
  · rw [if_neg (Ne.symm hf)]; exact hp.format
  · rw [if_neg (Ne.symm ht)]; exact hp.type_eq
  · rw [if_neg (Ne.symm hd)]; exact hp.dim
  · split_ifs with h
    · exact .inr (hmetric h.symm)
    · exact hp.metric
  · split_ifs with h
    · exact .inr (hneigh h.symm)
    · exact hp.neighbours
  · split_ifs with h
    · exact hmax h.symm
    · exact hp.maxNeighbors

theorem parseInteger_ok {type : VectorType} {dims : ℕ} {p q : VectorIdxParams} {tag : ParamId}
    {value : ℤ} (hp : ParsedOk type dims p)
    (htag : tag = .searchL ∨ tag = .insertL ∨ tag = .maxNeighbors)
    (h : parseInteger p tag value = .ok q) : ParsedOk type dims q := by
  unfold parseInteger at h
  split_ifs at h
  rcases hput : vectorIdxParamsPutU64 p tag value.toNat with - | q'
  · rw [hput] at h
    cases h
  · rw [hput] at h
    obtain rfl := Except.ok.inj h
    rcases htag with rfl | rfl | rfl <;>
      exact hp.put hput (by simp) (by simp) (by simp) (fun _ => by omega)

theorem parseVectorIdxParam_ok {type : VectorType} {dims : ℕ} {p q : VectorIdxParams}
    {arg : VectorIdxArg} (hp : ParsedOk type dims p)
    (h : parseVectorIdxParam p arg = .ok q) : ParsedOk type dims q := by
  -- an argument that is put under `tag` with `value`, or refused for want of space
  have hput : ∀ {tag : ParamId} {value : ℕ} {msg : String},
      (match vectorIdxParamsPutU64 p tag value with
        | none => Except.error msg
        | some q => .ok q) = .ok q → vectorIdxParamsPutU64 p tag value = some q := by
    intro tag value msg h
    rcases hp : vectorIdxParamsPutU64 p tag value with - | q' <;> rw [hp] at h <;> cases h
    rfl
  cases arg with
  | searchL value => exact parseInteger_ok hp (by simp) h
  | insertL value => exact parseInteger_ok hp (by simp) h
  | maxNeighbors value => exact parseInteger_ok hp (by simp) h
  | type => exact hp.put (hput h) (by simp) (by simp) (by simp) (by simp)
  | alpha bits => exact hp.put (hput h) (by simp) (by simp) (by simp) (by simp)
  | metric m => exact hp.put (hput h) (by simp) (fun _ => ⟨m, rfl⟩) (by simp) (by simp)
  | compressNeighbors t =>
      simp only [parseVectorIdxParam] at h
      split_ifs at h
      exact hp.put (hput h) (by simp) (by simp) (fun _ => ⟨t, rfl⟩) (by simp)

theorem parseVectorIdxParams_ok {type : VectorType} {dims : ℕ} {args : List VectorIdxArg}
    {p : VectorIdxParams} (h : parseVectorIdxParams type dims args = .ok p) :
    ParsedOk type dims p := by
  have hfold : ∀ (args : List VectorIdxArg) (p q : VectorIdxParams), ParsedOk type dims p →
      args.foldlM parseVectorIdxParam p = .ok q → ParsedOk type dims q := by
    intro args
    induction args with
    | nil =>
        intro p q hp h
        obtain rfl := Except.ok.inj h
        exact hp
    | cons arg args ih =>
        intro p q hp h
        rw [List.foldlM_cons] at h
        rcases hstep : parseVectorIdxParam p arg with e | p'
        · rw [hstep] at h
          cases h
        · rw [hstep] at h
          exact ih p' q (parseVectorIdxParam_ok hp hstep) h
  refine hfold args _ p ?_ h
  constructor <;> simp [vectorIdxParamsGetU64]

/-- What `diskAnnCreateIndex` stores. -/
structure CreatedOk (p : VectorIdxParams) : Prop where
  format : vectorIdxParamsGetU64 p .format = 3
  metric : ∃ m : MetricType, vectorIdxParamsGetU64 p .metricType = m.code
  sizes : ∃ type neighbours : VectorType, ∃ nMax : ℕ,
    vectorIdxParamsGetU64 p .type = type.code ∧
    (vectorIdxParamsGetU64 p .compressNeighbors = 0 ∧ neighbours = type ∨
      vectorIdxParamsGetU64 p .compressNeighbors = neighbours.code) ∧
    0 < vectorIdxParamsGetU64 p .dim ∧ 0 < nMax ∧
    vectorIdxParamsGetU64 p .blockSize =
      max 256 (nodeOverhead 3 (vectorDataSize type (vectorIdxParamsGetU64 p .dim)) +
        nMax * nodeEdgeOverhead (vectorDataSize neighbours (vectorIdxParamsGetU64 p .dim))) ∧
    vectorIdxParamsGetU64 p .blockSize ≤ maxBlockSize

theorem putDefault_get {p q : VectorIdxParams} {tag : ParamId} {absent : Bool} {value : ℕ}
    (h : putDefault p tag absent value = some q) (tag' : ParamId) :
    vectorIdxParamsGetU64 q tag' =
      if tag' = tag ∧ absent then value else vectorIdxParamsGetU64 p tag' := by
  unfold putDefault at h
  split_ifs at h with habs
  · rw [vectorIdxParamsGetU64_put h]
    simp [habs]
  · obtain rfl := Option.some.inj h
    simp [habs]

theorem maxNeighborsParam_pos (p : VectorIdxParams) (type neighbours : VectorType) (dims : ℕ) :
    0 < maxNeighborsParam p type neighbours dims := by
  unfold maxNeighborsParam
  simp only
  split_ifs with h
  · exact Nat.lt_min.mpr ⟨by omega, Nat.succ_pos _⟩
  · omega

theorem VectorType.code_pos (t : VectorType) : 0 < t.code := by cases t <;> decide

theorem putSearchDefaults_get {p q : VectorIdxParams} (h : putSearchDefaults p = some q)
    {tag : ParamId} (htag : tag ≠ .pruningAlpha ∧ tag ≠ .insertL ∧ tag ≠ .searchL) :
    vectorIdxParamsGetU64 q tag = vectorIdxParamsGetU64 p tag := by
  obtain ⟨p₁, h₁, h⟩ := Option.bind_eq_some_iff.mp h
  obtain ⟨p₂, h₂, h₃⟩ := Option.bind_eq_some_iff.mp h
  rw [putDefault_get h₃, if_neg fun hc => htag.2.2 hc.1, putDefault_get h₂,
    if_neg fun hc => htag.2.1 hc.1, putDefault_get h₁, if_neg fun hc => htag.1 hc.1]

theorem edgeVectorType_code {type t : VectorType} {compress : ℕ}
    (h : edgeVectorType type compress = some t) :
    compress = 0 ∧ t = type ∨ compress = t.code := by
  unfold edgeVectorType at h
  split_ifs at h with h0
  · exact .inl ⟨h0, (Option.some.inj h).symm⟩
  · exact .inr (VectorType.code_of_ofCode h).symm

/-- **`diskAnnCreateIndex` sizes the block for its neighbours**: no product
wraps for parameters that the parser lets through. -/
theorem diskAnnCreateIndex_ok {type : VectorType} {dims : ℕ} {p q : VectorIdxParams}
    (hp : ParsedOk type dims p) (hdims : dims ≤ 65536) (h : diskAnnCreateIndex p = some q) :
    CreatedOk q := by
  obtain ⟨p₁, h₁, h⟩ := Option.bind_eq_some_iff.mp h
  obtain ⟨type', htype', h⟩ := Option.bind_eq_some_iff.mp h
  have hp₁ : ParsedOk type dims p₁ := hp.put h₁ (by simp) (by simp) (by simp) (by simp)
  obtain rfl : type = type' := by
    rw [hp₁.type_eq, VectorType.ofCode_code] at htype'
    exact Option.some.inj htype'
  simp only [hp₁.dim] at h
  split_ifs at h with hd0
  obtain ⟨p₂, h₂, h⟩ := Option.bind_eq_some_iff.mp h
  have hget₂ := putDefault_get h₂
  split_ifs at h with hbit
  obtain ⟨neighbours, hneigh, h⟩ := Option.bind_eq_some_iff.mp h
  split_ifs at h with hbig
  obtain ⟨p₃, h₃, h₄⟩ := Option.bind_eq_some_iff.mp h
  have hget₃ := vectorIdxParamsGetU64_put h₃
  have hget₄ : ∀ {tag : ParamId}, tag ≠ .pruningAlpha ∧ tag ≠ .insertL ∧ tag ≠ .searchL →
      vectorIdxParamsGetU64 q tag = vectorIdxParamsGetU64 p₃ tag :=
    fun htag => putSearchDefaults_get h₄ htag
  -- the block size does not wrap at 64 bits
  have hmax : maxNeighborsParam p₂ type neighbours dims < 2 ^ 31 + 2 ^ 31 := by
    unfold maxNeighborsParam
    simp only [hget₂, reduceCtorEq, false_and, if_false]
    have hsqrt := Nat.sqrt_le_self dims
    have hpmax := hp₁.maxNeighbors
    split_ifs
    · exact (Nat.min_le_left _ _).trans_lt (by omega)
    · omega
  have hpos := maxNeighborsParam_pos p₂ type neighbours dims
  have hnode := vectorDataSize_le type hdims
  have hedge := vectorDataSize_le neighbours hdims
  have hwrap : blockSizeBytes p₂ type neighbours dims =
      nodeOverhead 3 (vectorDataSize type dims) +
        maxNeighborsParam p₂ type neighbours dims *
          nodeEdgeOverhead (vectorDataSize neighbours dims) := by
    refine Nat.mod_eq_of_lt ?_
    have hmul : maxNeighborsParam p₂ type neighbours dims *
        nodeEdgeOverhead (vectorDataSize neighbours dims) ≤ 2 ^ 32 * 2 ^ 20 :=
      Nat.mul_le_mul (by omega) (by simp only [nodeEdgeOverhead, edgeMetadataSize]; omega)
    have hmeta : nodeMetadataSize 3 = 16 := rfl
    simp only [nodeOverhead, hmeta]
    omega
  refine ⟨?_, ?_, type, neighbours, maxNeighborsParam p₂ type neighbours dims, ?_⟩
  · simp only [hget₄, hget₃, hget₂, ne_eq, reduceCtorEq, not_false_eq_true, and_self, false_and,
      if_false]
    exact hp₁.format
  · -- the metric is the default, or one of the three
    simp only [hget₄, hget₃, hget₂, ne_eq, reduceCtorEq, not_false_eq_true, and_self, true_and,
      if_false]
    rcases hp₁.metric with h0 | ⟨m, hm⟩
    · exact ⟨.cos, by simp [h0]⟩
    · refine ⟨m, ?_⟩
      rw [hm]
      cases m <;> rfl
  · simp only [hget₄, hget₃, hget₂, ne_eq, reduceCtorEq, not_false_eq_true, and_self, false_and,
      if_false, if_true, hp₁.dim]
    refine ⟨hp₁.type_eq, ?_, Nat.pos_of_ne_zero hd0, hpos, by rw [hwrap], ?_⟩
    · have hcode := edgeVectorType_code hneigh
      simp only [hget₂, reduceCtorEq, false_and, if_false] at hcode
      exact hcode
    · exact max_le (by decide) (not_lt.mp hbig)

theorem orDefault_pos {value default : ℕ} (h : 0 < default) :
    0 < orDefault (value = 0) value default := by
  unfold orDefault
  split_ifs with h0
  · exact h
  · exact Nat.pos_of_ne_zero (by simpa using h0)

/-- **An index that is created and opened has room for a node with an edge**,
and its sizes are those of its vector types. -/
theorem diskAnnOpenIndex_ok {p : VectorIdxParams} (hp : CreatedOk p) {tnum : ℕ}
    {pIndex : DiskAnnIndex} (h : diskAnnOpenIndex p tnum = some pIndex) :
    IndexOk pIndex ∧ pIndex.nFormatVersion = 3 := by
  obtain ⟨type, neighbours, nMax, htype, hneigh, hdim, hmax, hblock, hle⟩ := hp.sizes
  have hlarge : ¬ vectorIdxParamsGetU64 p .blockSize ≤ 128 := by
    have := le_max_left 256 (nodeOverhead 3 (vectorDataSize type (vectorIdxParamsGetU64 p .dim)) +
      nMax * nodeEdgeOverhead (vectorDataSize neighbours (vectorIdxParamsGetU64 p .dim)))
    omega
  unfold diskAnnOpenIndex at h
  simp only [if_neg hlarge] at h
  obtain ⟨metric, -, h⟩ := Option.bind_eq_some_iff.mp h
  obtain ⟨type', htype', h⟩ := Option.bind_eq_some_iff.mp h
  obtain rfl : type = type' := by
    rw [htype, VectorType.ofCode_code] at htype'
    exact Option.some.inj htype'
  split_ifs at h with hzero
  obtain ⟨neighbours', hneigh', h⟩ := Option.bind_eq_some_iff.mp h
  obtain rfl : neighbours = neighbours' := by
    rcases hneigh with ⟨h0, rfl⟩ | hcode
    · rw [edgeVectorType, if_pos h0] at hneigh'
      exact Option.some.inj hneigh'
    · have hpos := neighbours.code_pos
      rw [edgeVectorType, if_neg (by omega), hcode, VectorType.ofCode_code] at hneigh'
      exact Option.some.inj hneigh'
  obtain rfl := Option.some.inj h
  refine ⟨⟨rfl, rfl, ?_, ?_, ?_, ?_, ?_⟩, hp.format⟩
  · simp only [hp.format]
    rw [hblock]
    refine le_trans ?_ (le_max_right _ _)
    exact Nat.add_le_add_left (Nat.le_mul_of_pos_left _ hmax) _
  · exact hle
  · exact hdim
  · exact orDefault_pos (by decide)
  · exact orDefault_pos (by decide)

/-! ### Accepted indexes -/

/-- `MAX_VECTOR_SZ`. -/
abbrev maxVectorSz : ℕ := 65536

/-- An index that was made from SQL arguments and opened: the column's dimension
passes `vectorIdxParseColumnType`, and the table number is an `int`. -/
def AcceptedIndex (pIndex : DiskAnnIndex) : Prop :=
  ∃ (type : VectorType) (dims : ℕ) (args : List VectorIdxArg) (p q : VectorIdxParams) (tnum : ℕ),
    dims ≤ maxVectorSz ∧ tnum < 2 ^ 31 ∧ parseVectorIdxParams type dims args = .ok p ∧
      diskAnnCreateIndex p = some q ∧ diskAnnOpenIndex q tnum = some pIndex

/-- An accepted index is sound. -/
theorem AcceptedIndex.ok {pIndex : DiskAnnIndex} (h : AcceptedIndex pIndex) : IndexOk pIndex := by
  obtain ⟨type, dims, args, p, q, tnum, hdims, -, hparse, hcreate, hopen⟩ := h
  have hcreated := diskAnnCreateIndex_ok (parseVectorIdxParams_ok hparse) hdims hcreate
  exact (diskAnnOpenIndex_ok hcreated hopen).1

/-- An index over `FLOAT32(1)` with `metric=l2`, `insert_l=1` and
`max_neighbors=11`. -/
def smallIndex : DiskAnnIndex where
  nFormatVersion := 3
  nDistanceFunc := .l2
  nBlockSize := 256
  nNodeVectorType := .float32
  nVectorDims := 1
  pruningAlpha := pruningAlphaDefault
  insertL := 1
  searchL := searchLDefault
  nNodeVectorSize := 4
  nEdgeVectorType := .float32
  nEdgeVectorSize := 4
  iShadowTnum := 7

theorem smallIndex_accepted : AcceptedIndex smallIndex := by
  obtain ⟨p, hp⟩ : ∃ p, parseVectorIdxParams .float32 1
      [.type, .metric .l2, .insertL 1, .maxNeighbors 11] = .ok p := ⟨_, rfl⟩
  obtain ⟨q, hq⟩ : ∃ q, diskAnnCreateIndex p = some q := by
    obtain rfl := Except.ok.inj hp
    exact ⟨_, rfl⟩
  refine ⟨.float32, 1, _, p, q, 7, by decide, by decide, hp, hq, ?_⟩
  obtain rfl := Except.ok.inj hp
  obtain rfl := Option.some.inj hq
  rfl

end MoVeBench
