/-
MoVeBench/DiskAnn/Node.lean

Node blocks.  A block holds, one behind the other,

    rowid (8 bytes)   number of edges (2 bytes)   padding
    node vector
    edge vectors      nodeEdgesMaxCount slots
    edge metadata     nodeEdgesMaxCount slots of 16 bytes

and the functions `nodeBin*` read and write it by computed offsets.  Each
function that writes comes with the list of what it leaves alone: the pieces of
a block do not overlap (`SlotLayout`, `slots_apart`), so a write to one edge slot changes
neither the header, nor the node vector, nor any other slot.

The number of edges is stored in 16 bits.  A block with room for more than
65535 edges wraps to zero edges when slot 65535 is filled
(`nodeBinEdges_replaceEdge`).
-/
import MoVeBench.DiskAnn.Params

namespace MoVeBench

open Bytes

/-! ### Serialization utilities -/

def readLE16 (buf : List UInt8) (off : ℕ) : ℕ := fromLe (readBytes buf off 2)

def readLE32 (buf : List UInt8) (off : ℕ) : UInt32 := .ofNat (fromLe (readBytes buf off 4))

def readLE64 (buf : List UInt8) (off : ℕ) : UInt64 := .ofNat (fromLe (readBytes buf off 8))

def writeLE16 (buf : List UInt8) (off v : ℕ) : List UInt8 := writeBytes buf off (leBytes 2 v)

def writeLE32 (buf : List UInt8) (off : ℕ) (v : UInt32) : List UInt8 :=
  writeBytes buf off (leBytes 4 v.toNat)

def writeLE64 (buf : List UInt8) (off : ℕ) (v : UInt64) : List UInt8 :=
  writeBytes buf off (leBytes 8 v.toNat)

@[simp] theorem writeLE16_length (buf : List UInt8) (off v : ℕ) :
    (writeLE16 buf off v).length = buf.length := by simp [writeLE16]

@[simp] theorem writeLE32_length (buf : List UInt8) (off : ℕ) (v : UInt32) :
    (writeLE32 buf off v).length = buf.length := by simp [writeLE32]

@[simp] theorem writeLE64_length (buf : List UInt8) (off : ℕ) (v : UInt64) :
    (writeLE64 buf off v).length = buf.length := by simp [writeLE64]

theorem agreeOn_writeLE16 {buf : List UInt8} {off v off' n : ℕ}
    (h : off' + n ≤ off ∨ off + 2 ≤ off') : AgreeOn off' n (writeLE16 buf off v) buf :=
  agreeOn_writeBytes (by rwa [leBytes_length])

theorem agreeOn_writeLE32 {buf : List UInt8} {off off' n : ℕ} {v : UInt32}
    (h : off' + n ≤ off ∨ off + 4 ≤ off') : AgreeOn off' n (writeLE32 buf off v) buf :=
  agreeOn_writeBytes (by rwa [leBytes_length])

theorem agreeOn_writeLE64 {buf : List UInt8} {off off' n : ℕ} {v : UInt64}
    (h : off' + n ≤ off ∨ off + 8 ≤ off') : AgreeOn off' n (writeLE64 buf off v) buf :=
  agreeOn_writeBytes (by rwa [leBytes_length])

theorem readLE16_write {buf : List UInt8} {off : ℕ} (v : ℕ) (h : off + 2 ≤ buf.length) :
    readLE16 (writeLE16 buf off v) off = v % 65536 := by
  have key := @readBytes_writeBytes buf (leBytes 2 v) off (by simpa using h)
  rw [leBytes_length] at key
  rw [readLE16, writeLE16, key, fromLe_leBytes]
  rfl

theorem readLE32_write {buf : List UInt8} {off : ℕ} (v : UInt32) (h : off + 4 ≤ buf.length) :
    readLE32 (writeLE32 buf off v) off = v := by
  have key := @readBytes_writeBytes buf (leBytes 4 v.toNat) off (by simpa using h)
  rw [leBytes_length] at key
  rw [readLE32, writeLE32, key, fromLe_leBytes, Nat.mod_eq_of_lt (show _ < 256 ^ 4 from v.toNat_lt)]
  exact UInt32.ofNat_toNat

theorem readLE64_write {buf : List UInt8} {off : ℕ} (v : UInt64) (h : off + 8 ≤ buf.length) :
    readLE64 (writeLE64 buf off v) off = v := by
  have key := @readBytes_writeBytes buf (leBytes 8 v.toNat) off (by simpa using h)
  rw [leBytes_length] at key
  rw [readLE64, writeLE64, key, fromLe_leBytes, Nat.mod_eq_of_lt (show _ < 256 ^ 8 from v.toNat_lt)]
  exact UInt64.ofNat_toNat

theorem readLE16_lt (buf : List UInt8) (off : ℕ) : readLE16 buf off < 65536 := by
  have h := fromLe_lt (readBytes buf off 2)
  rwa [readBytes_length] at h

/-! ### Layout -/

/-- An edge as `nodeBinEdge` reads it; the distance is the bits of a `float`. -/
structure NodeEdge where
  rowid : UInt64
  distance : UInt32
  vector : Vector

section Layout

variable (pIndex : DiskAnnIndex)

/-- `nodeEdgesMetadataOffset`. -/
def nodeEdgesMetadataOffset : ℕ :=
  nodeMetadataSize pIndex.nFormatVersion + pIndex.nNodeVectorSize +
    nodeEdgesMaxCount pIndex * pIndex.nEdgeVectorSize

/-- Offset of the vector of edge `i`. -/
def edgeVectorOffset (i : ℕ) : ℕ :=
  nodeMetadataSize pIndex.nFormatVersion + pIndex.nNodeVectorSize + i * pIndex.nEdgeVectorSize

/-- Offset of the metadata of edge `i`. -/
def edgeMetaOffset (i : ℕ) : ℕ := nodeEdgesMetadataOffset pIndex + i * edgeMetadataSize

/-- `nodeBinInit`. -/
def nodeBinInit (nRowid : UInt64) (pVector : Vector) : List UInt8 :=
  vectorSerializeToBlob pVector
    (writeLE64 (List.replicate pIndex.nBlockSize 0) 0 nRowid)
    (nodeMetadataSize pIndex.nFormatVersion)

/-- The rowid in the header of a block. -/
def nodeBinRowid (buf : List UInt8) : UInt64 := readLE64 buf 0

/-- `nodeBinVector`. -/
def nodeBinVector (buf : List UInt8) : Vector :=
  vectorInitStatic pIndex.nNodeVectorType pIndex.nVectorDims buf
    (nodeMetadataSize pIndex.nFormatVersion)

/-- `nodeBinEdges`. -/
def nodeBinEdges (buf : List UInt8) : ℕ := readLE16 buf 8

/-- `nodeBinEdge`.  The distance of an edge is not stored in format V1. -/
def nodeBinEdge (buf : List UInt8) (iEdge : ℕ) : NodeEdge where
  rowid := readLE64 buf (edgeMetaOffset pIndex iEdge + 8)
  distance := readLE32 buf (edgeMetaOffset pIndex iEdge + 4)
  vector := vectorInitStatic pIndex.nEdgeVectorType pIndex.nVectorDims buf
    (edgeVectorOffset pIndex iEdge)

/-- `nodeBinEdgeFindIdx`, `none` for `-1`. -/
def nodeBinEdgeFindIdx (buf : List UInt8) (nRowid : UInt64) : Option ℕ :=
  (List.range (nodeBinEdges buf)).find? fun i => (nodeBinEdge pIndex buf i).rowid = nRowid

/-- `nodeBinReplaceEdge`: replace edge `iReplace`, or add it behind the last. -/
def nodeBinReplaceEdge (buf : List UInt8) (iReplace : ℕ) (edge : NodeEdge) : List UInt8 :=
  let nEdges := nodeBinEdges buf
  let nEdges := if iReplace = nEdges then nEdges + 1 else nEdges
  let buf := vectorSerializeToBlob edge.vector buf (edgeVectorOffset pIndex iReplace)
  let buf := writeLE32 buf (edgeMetaOffset pIndex iReplace + 4) edge.distance
  let buf := writeLE64 buf (edgeMetaOffset pIndex iReplace + 8) edge.rowid
  writeLE16 buf 8 nEdges

/-- `nodeBinDeleteEdge`: delete edge `iDelete` by moving the last edge there. -/
def nodeBinDeleteEdge (buf : List UInt8) (iDelete : ℕ) : List UInt8 :=
  let nEdges := nodeBinEdges buf
  let buf :=
    if edgeVectorOffset pIndex iDelete < edgeVectorOffset pIndex (nEdges - 1) then
      let buf := writeBytes buf (edgeVectorOffset pIndex iDelete)
        (readBytes buf (edgeVectorOffset pIndex (nEdges - 1)) pIndex.nEdgeVectorSize)
      writeBytes buf (edgeMetaOffset pIndex iDelete)
        (readBytes buf (edgeMetaOffset pIndex (nEdges - 1)) edgeMetadataSize)
    else buf
  writeLE16 buf 8 (nEdges - 1)

@[simp] theorem nodeBinReplaceEdge_length (buf : List UInt8) (iReplace : ℕ) (edge : NodeEdge) :
    (nodeBinReplaceEdge pIndex buf iReplace edge).length = buf.length := by
  simp [nodeBinReplaceEdge]

@[simp] theorem nodeBinDeleteEdge_length (buf : List UInt8) (iDelete : ℕ) :
    (nodeBinDeleteEdge pIndex buf iDelete).length = buf.length := by
  simp only [nodeBinDeleteEdge, writeLE16_length]
  split_ifs <;> simp

@[simp] theorem nodeBinInit_length (nRowid : UInt64) (pVector : Vector) :
    (nodeBinInit pIndex nRowid pVector).length = pIndex.nBlockSize := by
  simp [nodeBinInit]

theorem nodeBinEdges_lt (buf : List UInt8) : nodeBinEdges buf < 65536 := readLE16_lt buf 8

end Layout

/-! ### The pieces do not overlap -/

section Slots

variable {pIndex : DiskAnnIndex}

/-- Where edge slot `i` lies: behind the header and the node's vector, its
vector before all metadata, its metadata inside the block. -/
structure SlotLayout (pIndex : DiskAnnIndex) (i : ℕ) : Prop where
  header : 10 ≤ nodeMetadataSize pIndex.nFormatVersion
  start : nodeMetadataSize pIndex.nFormatVersion + pIndex.nNodeVectorSize ≤
    edgeVectorOffset pIndex i
  vector : edgeVectorOffset pIndex i + pIndex.nEdgeVectorSize ≤ nodeEdgesMetadataOffset pIndex
  meta_start : nodeEdgesMetadataOffset pIndex ≤ edgeMetaOffset pIndex i
  meta_end : edgeMetaOffset pIndex i + 16 ≤ pIndex.nBlockSize

theorem slotLayout (h : IndexOk pIndex) {i : ℕ} (hi : i < nodeEdgesMaxCount pIndex) :
    SlotLayout pIndex i := by
  have hroom := h.room
  have hmax : nodeEdgesMaxCount pIndex * nodeEdgeOverhead pIndex.nEdgeVectorSize ≤
      pIndex.nBlockSize - nodeOverhead pIndex.nFormatVersion pIndex.nNodeVectorSize :=
    Nat.div_mul_le_self _ _
  have hvec : (i + 1) * pIndex.nEdgeVectorSize ≤
      nodeEdgesMaxCount pIndex * pIndex.nEdgeVectorSize := Nat.mul_le_mul_right _ hi
  simp only [nodeEdgeOverhead, nodeOverhead, edgeMetadataSize, mul_add, add_mul, one_mul]
    at hroom hmax hvec
  refine ⟨?_, ?_, ?_, ?_, ?_⟩
  · unfold nodeMetadataSize
    split_ifs <;> omega
  · simp only [edgeVectorOffset]
    omega
  · simp only [edgeVectorOffset, nodeEdgesMetadataOffset]
    omega
  · simp only [edgeMetaOffset]
    omega
  · simp only [edgeMetaOffset, nodeEdgesMetadataOffset, edgeMetadataSize]
    omega

/-- Two slots lie one behind the other. -/
theorem slots_apart {i j : ℕ} (hij : i < j) :
    edgeVectorOffset pIndex i + pIndex.nEdgeVectorSize ≤ edgeVectorOffset pIndex j ∧
      edgeMetaOffset pIndex i + 16 ≤ edgeMetaOffset pIndex j := by
  have hslot : (i + 1) * pIndex.nEdgeVectorSize ≤ j * pIndex.nEdgeVectorSize :=
    Nat.mul_le_mul_right _ hij
  simp only [edgeVectorOffset, edgeMetaOffset, edgeMetadataSize, add_mul, one_mul] at hslot ⊢
  omega

/-- A block has room for an edge. -/
theorem nodeEdgesMaxCount_pos (h : IndexOk pIndex) : 0 < nodeEdgesMaxCount pIndex := by
  have hroom := h.room
  refine Nat.div_pos (by omega) ?_
  simp [nodeEdgeOverhead, edgeMetadataSize]

theorem nEdgeVectorSize_pos (h : IndexOk pIndex) : 0 < pIndex.nEdgeVectorSize := by
  have hdims := h.dims_pos
  rw [h.edgeSize]
  cases pIndex.nEdgeVectorType <;> simp only [vectorDataSize, alignUp] <;> omega

/-! ### What the writers change -/

/-- Blocks that agree on the header and on the node's vector. -/
structure SameNode (pIndex : DiskAnnIndex) (buf buf' : List UInt8) : Prop where
  length : buf.length = buf'.length
  rowid : nodeBinRowid buf = nodeBinRowid buf'
  vector : nodeBinVector pIndex buf = nodeBinVector pIndex buf'

theorem SameNode.refl (buf : List UInt8) : SameNode pIndex buf buf := ⟨rfl, rfl, rfl⟩

theorem SameNode.trans {buf buf' buf'' : List UInt8} (h : SameNode pIndex buf buf')
    (h' : SameNode pIndex buf' buf'') : SameNode pIndex buf buf'' :=
  ⟨h.length.trans h'.length, h.rowid.trans h'.rowid, h.vector.trans h'.vector⟩

/-- A writer that leaves the first eight bytes and the node's vector alone. -/
theorem SameNode.of_agreeOn (h : IndexOk pIndex) {buf buf' : List UInt8}
    (hlen : buf.length = buf'.length) (hrow : AgreeOn 0 8 buf buf')
    (hvec : AgreeOn (nodeMetadataSize pIndex.nFormatVersion) pIndex.nNodeVectorSize buf buf') :
    SameNode pIndex buf buf' := by
  refine ⟨hlen, ?_, ?_⟩
  · rw [nodeBinRowid, nodeBinRowid, readLE64, readLE64, readBytes_congr hrow]
  · exact vectorInitStatic_congr (h.nodeSize ▸ hvec)

/-- Slots with the same bytes hold the same edge. -/
theorem nodeBinEdge_eq_of_read (h : IndexOk pIndex) {buf buf' : List UInt8} {i j : ℕ}
    (hvec : readBytes buf (edgeVectorOffset pIndex i) pIndex.nEdgeVectorSize =
      readBytes buf' (edgeVectorOffset pIndex j) pIndex.nEdgeVectorSize)
    (hmeta : readBytes buf (edgeMetaOffset pIndex i) 16 =
      readBytes buf' (edgeMetaOffset pIndex j) 16) :
    nodeBinEdge pIndex buf i = nodeBinEdge pIndex buf' j := by
  rw [nodeBinEdge, nodeBinEdge, NodeEdge.mk.injEq]
  refine ⟨?_, ?_, vectorInitStatic_eq_of_read (h.edgeSize ▸ hvec)⟩
  · rw [readLE64, readLE64, readBytes_part hmeta (by omega)]
  · rw [readLE32, readLE32, readBytes_part hmeta (by omega)]

/-- The bytes that `nodeBinReplaceEdge` may change: the count, and its slot. -/
theorem agreeOn_replaceEdge (h : IndexOk pIndex) {buf : List UInt8} {iReplace off n : ℕ}
    {edge : NodeEdge} (htype : edge.vector.type = pIndex.nEdgeVectorType)
    (hdims : edge.vector.dims = pIndex.nVectorDims)
    (hcount : off + n ≤ 8 ∨ 10 ≤ off)
    (hvec : off + n ≤ edgeVectorOffset pIndex iReplace ∨
      edgeVectorOffset pIndex iReplace + pIndex.nEdgeVectorSize ≤ off)
    (hmeta : off + n ≤ edgeMetaOffset pIndex iReplace ∨
      edgeMetaOffset pIndex iReplace + 16 ≤ off) :
    AgreeOn off n (nodeBinReplaceEdge pIndex buf iReplace edge) buf := by
  have hsize := h.edgeSize
  exact (agreeOn_writeLE16 (by omega)).trans ((agreeOn_writeLE64 (by omega)).trans
    ((agreeOn_writeLE32 (by omega)).trans
      (agreeOn_serialize (by rw [htype, hdims, ← hsize]; exact hvec))))

/-- The bytes that `nodeBinDeleteEdge` may change: the count, and the slot that
the last edge moves to. -/
theorem agreeOn_deleteEdge {buf : List UInt8} {iDelete off n : ℕ}
    (hcount : off + n ≤ 8 ∨ 10 ≤ off)
    (hvec : off + n ≤ edgeVectorOffset pIndex iDelete ∨
      edgeVectorOffset pIndex iDelete + pIndex.nEdgeVectorSize ≤ off)
    (hmeta : off + n ≤ edgeMetaOffset pIndex iDelete ∨
      edgeMetaOffset pIndex iDelete + 16 ≤ off) :
    AgreeOn off n (nodeBinDeleteEdge pIndex buf iDelete) buf := by
  unfold nodeBinDeleteEdge
  refine (agreeOn_writeLE16 (by omega)).trans ?_
  split_ifs
  · refine (agreeOn_writeBytes ?_).trans (agreeOn_writeBytes ?_)
    · rw [readBytes_length, edgeMetadataSize]; omega
    · rw [readBytes_length]; omega
  · exact fun _ _ _ => rfl

/-- Replacing an edge leaves the node as it is. -/
theorem sameNode_replaceEdge (h : IndexOk pIndex) {buf : List UInt8} {iReplace : ℕ}
    {edge : NodeEdge} (htype : edge.vector.type = pIndex.nEdgeVectorType)
    (hdims : edge.vector.dims = pIndex.nVectorDims) (hi : iReplace < nodeEdgesMaxCount pIndex) :
    SameNode pIndex (nodeBinReplaceEdge pIndex buf iReplace edge) buf := by
  obtain ⟨hhead, hstart, hvec, hmeta, hend⟩ := slotLayout h hi
  refine .of_agreeOn h (by simp) ?_ ?_
  · exact agreeOn_replaceEdge h htype hdims (by omega) (by omega) (by omega)
  · exact agreeOn_replaceEdge h htype hdims (by omega) (by omega) (by omega)

/-- Deleting an edge leaves the node as it is. -/
theorem sameNode_deleteEdge (h : IndexOk pIndex) {buf : List UInt8} {iDelete : ℕ}
    (hi : iDelete < nodeEdgesMaxCount pIndex) :
    SameNode pIndex (nodeBinDeleteEdge pIndex buf iDelete) buf := by
  obtain ⟨hhead, hstart, hvec, hmeta, hend⟩ := slotLayout h hi
  refine .of_agreeOn h (by simp) ?_ ?_
  · exact agreeOn_deleteEdge (by omega) (by omega) (by omega)
  · exact agreeOn_deleteEdge (by omega) (by omega) (by omega)

/-- The count of edges after a replacement, in 16 bits. -/
theorem nodeBinEdges_replaceEdge {buf : List UInt8} {iReplace : ℕ} {edge : NodeEdge}
    (hlen : 10 ≤ buf.length) :
    nodeBinEdges (nodeBinReplaceEdge pIndex buf iReplace edge) =
      (if iReplace = nodeBinEdges buf then nodeBinEdges buf + 1 else nodeBinEdges buf) % 65536 :=
  readLE16_write _ (by simpa using hlen)

theorem nodeBinEdges_deleteEdge {buf : List UInt8} {iDelete : ℕ} (hlen : 10 ≤ buf.length) :
    nodeBinEdges (nodeBinDeleteEdge pIndex buf iDelete) = nodeBinEdges buf - 1 := by
  have hlt := nodeBinEdges_lt buf
  refine (readLE16_write _ ?_).trans (Nat.mod_eq_of_lt (by omega))
  split_ifs <;> simpa using hlen

/-- **The edges after a replacement**: the new one in its slot, the others as
before. -/
theorem nodeBinEdge_replaceEdge (h : IndexOk pIndex) {buf : List UInt8} {iReplace j : ℕ}
    {edge : NodeEdge} (hlen : buf.length = pIndex.nBlockSize)
    (htype : edge.vector.type = pIndex.nEdgeVectorType)
    (hdims : edge.vector.dims = pIndex.nVectorDims) (hi : iReplace < nodeEdgesMaxCount pIndex)
    (hj : j < nodeEdgesMaxCount pIndex) :
    nodeBinEdge pIndex (nodeBinReplaceEdge pIndex buf iReplace edge) j =
      if j = iReplace then edge else nodeBinEdge pIndex buf j := by
  obtain ⟨hhead, hstart, hvec, hmeta, hend⟩ := slotLayout h hi
  obtain ⟨-, hstart', hvec', hmeta', hend'⟩ := slotLayout h hj
  have hsize := h.edgeSize
  split_ifs with hij
  · subst hij
    obtain ⟨rowid, distance, vector⟩ := edge
    simp only at htype hdims
    rw [nodeBinEdge, NodeEdge.mk.injEq]
    refine ⟨?_, ?_, ?_⟩
    · -- what is written after each field leaves it alone
      have hframe : AgreeOn (edgeMetaOffset pIndex j + 8) 8
          (nodeBinReplaceEdge pIndex buf j ⟨rowid, distance, vector⟩) _ :=
        agreeOn_writeLE16 (by omega)
      rw [readLE64, readBytes_congr hframe]
      exact readLE64_write _ (by simp; omega)
    · have hframe : AgreeOn (edgeMetaOffset pIndex j + 4) 4
          (nodeBinReplaceEdge pIndex buf j ⟨rowid, distance, vector⟩) _ :=
        (agreeOn_writeLE16 (by omega)).trans (agreeOn_writeLE64 (by omega))
      rw [readLE32, readBytes_congr hframe]
      exact readLE32_write _ (by simp; omega)
    · have hframe : AgreeOn (edgeVectorOffset pIndex j)
          (vectorDataSize pIndex.nEdgeVectorType pIndex.nVectorDims)
          (nodeBinReplaceEdge pIndex buf j ⟨rowid, distance, vector⟩) _ :=
        (agreeOn_writeLE16 (by omega)).trans
          ((agreeOn_writeLE64 (by omega)).trans (agreeOn_writeLE32 (by omega)))
      rw [vectorInitStatic_congr hframe, ← htype, ← hdims]
      exact vectorInitStatic_serialize (by rw [htype, hdims, ← hsize]; omega)
  · -- another slot is not written to
    have hapart := Nat.lt_or_gt_of_ne hij
    have h1 := @slots_apart pIndex j iReplace
    have h2 := @slots_apart pIndex iReplace j
    refine nodeBinEdge_eq_of_read h (readBytes_congr ?_) (readBytes_congr ?_)
    · exact agreeOn_replaceEdge h htype hdims (by omega) (by omega) (by omega)
    · exact agreeOn_replaceEdge h htype hdims (by omega) (by omega) (by omega)

/-- **The edges after a deletion**: the last one in the free slot, the others as
before. -/
theorem nodeBinEdge_deleteEdge (h : IndexOk pIndex) {buf : List UInt8} {iDelete j : ℕ}
    (hlen : buf.length = pIndex.nBlockSize)
    (hn : nodeBinEdges buf ≤ nodeEdgesMaxCount pIndex) (hi : iDelete < nodeBinEdges buf)
    (hj : j < nodeEdgesMaxCount pIndex) :
    nodeBinEdge pIndex (nodeBinDeleteEdge pIndex buf iDelete) j =
      if j = iDelete then nodeBinEdge pIndex buf (nodeBinEdges buf - 1)
      else nodeBinEdge pIndex buf j := by
  obtain ⟨hhead, hstart, hvec, hmeta, hend⟩ := slotLayout h (Nat.lt_of_lt_of_le hi hn)
  obtain ⟨-, hstart', hvec', hmeta', hend'⟩ := slotLayout h hj
  split_ifs with hij
  · subst hij
    have hsize := nEdgeVectorSize_pos h
    have hlast := @slots_apart pIndex j (nodeBinEdges buf - 1)
    obtain ⟨-, hlstart, hlvec, hlmeta, hlend⟩ :=
      slotLayout h (Nat.lt_of_lt_of_le (Nat.sub_lt (by omega) one_pos) hn)
    simp only [nodeBinDeleteEdge]
    split_ifs with hmove
    · -- the last edge moves here, first its vector and then its metadata
      refine nodeBinEdge_eq_of_read h ?_ ?_
      · rw [readBytes_congr ((agreeOn_writeLE16 (by omega)).trans
          (agreeOn_writeBytes (by rw [readBytes_length, edgeMetadataSize]; omega)))]
        have key := @readBytes_writeBytes buf
          (readBytes buf (edgeVectorOffset pIndex (nodeBinEdges buf - 1)) pIndex.nEdgeVectorSize)
          (edgeVectorOffset pIndex j) (by rw [readBytes_length]; omega)
        rwa [readBytes_length] at key
      · rw [readBytes_congr (agreeOn_writeLE16 (by omega))]
        have hread : readBytes (writeBytes buf (edgeVectorOffset pIndex j)
            (readBytes buf (edgeVectorOffset pIndex (nodeBinEdges buf - 1))
              pIndex.nEdgeVectorSize)) (edgeMetaOffset pIndex (nodeBinEdges buf - 1)) 16 =
            readBytes buf (edgeMetaOffset pIndex (nodeBinEdges buf - 1)) 16 :=
          readBytes_congr (agreeOn_writeBytes (by rw [readBytes_length]; omega))
        rw [← hread]
        exact @readBytes_writeBytes _
          (readBytes _ (edgeMetaOffset pIndex (nodeBinEdges buf - 1)) 16)
          (edgeMetaOffset pIndex j) (by simp; omega)
    · -- the deleted edge is the last one
      obtain rfl : j = nodeBinEdges buf - 1 := by
        rcases Nat.lt_or_eq_of_le (Nat.le_sub_one_of_lt hi) with hlt | heq
        · exact absurd (hlast hlt).1 (by omega)
        · exact heq
      exact nodeBinEdge_eq_of_read h (readBytes_congr (agreeOn_writeLE16 (by omega)))
        (readBytes_congr (agreeOn_writeLE16 (by omega)))
  · -- another slot is not written to
    have hapart := Nat.lt_or_gt_of_ne hij
    have h1 := @slots_apart pIndex j iDelete
    have h2 := @slots_apart pIndex iDelete j
    refine nodeBinEdge_eq_of_read h (readBytes_congr ?_) (readBytes_congr ?_)
    · exact agreeOn_deleteEdge (by omega) (by omega) (by omega)
    · exact agreeOn_deleteEdge (by omega) (by omega) (by omega)

/-! ### A fresh block -/

theorem nodeBinRowid_init (h : IndexOk pIndex) (nRowid : UInt64) (pVector : Vector) :
    nodeBinRowid (nodeBinInit pIndex nRowid pVector) = nRowid := by
  have hroom := h.room
  have hhead := (slotLayout h (nodeEdgesMaxCount_pos h)).header
  have hframe : AgreeOn 0 8 (nodeBinInit pIndex nRowid pVector) _ := agreeOn_serialize (by omega)
  simp only [nodeEdgeOverhead, edgeMetadataSize] at hroom
  rw [nodeBinRowid, readLE64, readBytes_congr hframe]
  exact readLE64_write _ (by rw [List.length_replicate]; omega)

theorem nodeBinVector_init (h : IndexOk pIndex) (nRowid : UInt64) {pVector : Vector}
    (htype : pVector.type = pIndex.nNodeVectorType) (hdims : pVector.dims = pIndex.nVectorDims) :
    nodeBinVector pIndex (nodeBinInit pIndex nRowid pVector) = pVector := by
  have hroom := h.room
  simp only [nodeEdgeOverhead, nodeOverhead, edgeMetadataSize] at hroom
  have hsize := h.nodeSize
  rw [nodeBinVector, nodeBinInit, ← htype, ← hdims]
  refine vectorInitStatic_serialize ?_
  rw [writeLE64_length, List.length_replicate, htype, hdims, ← hsize]
  omega

theorem nodeBinEdges_init (h : IndexOk pIndex) (nRowid : UInt64) (pVector : Vector) :
    nodeBinEdges (nodeBinInit pIndex nRowid pVector) = 0 := by
  have hhead := (slotLayout h (nodeEdgesMaxCount_pos h)).header
  have hframe : AgreeOn 8 2 (nodeBinInit pIndex nRowid pVector)
      (List.replicate pIndex.nBlockSize 0) :=
    (agreeOn_serialize (by omega)).trans (agreeOn_writeLE64 (by omega))
  rw [nodeBinEdges, readLE16, readBytes_congr hframe]
  simp [readBytes, fromLe]

end Slots

end MoVeBench
