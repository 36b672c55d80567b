/-
MoVeBench/DiskAnn/EdgeList.lean

The edges of a block as a list.

`nodeBinReplaceEdge` and `nodeBinDeleteEdge` act on the list of edges of a block as
`putAt` and `swapRemove` do, as long as no edge is added behind 65535 others
(`edgesOf_replaceEdge`, `edgesOf_deleteEdge`); over a whole run of these functions a block
holds the list that the same operations on lists give, and what lies behind the block is
neither read nor written (`nodeBin_run`).

Pruning is a sweep (`edgesOf_pruneEdgesLoop`): the vector that the edges are compared with
lies in the block that is being rearranged, but no deletion writes to its slot.  What
the scan for the place of a new edge decides is in `diskAnnReplaceEdgeIdx_decides`.
-/
import MoVeBench.DiskAnn.Edges
import MoVeBench.Lib.SlotList

namespace MoVeBench

open Bytes SlotList

variable {pIndex : DiskAnnIndex} {buf : List UInt8}

/-! ### The list of edges -/

/-- The edges of a block. -/
def edgesOf (pIndex : DiskAnnIndex) (buf : List UInt8) : List NodeEdge :=
  (List.range (nodeBinEdges buf)).map (nodeBinEdge pIndex buf)

/-- A block of an index: of its size, with no more edges than it has room for. -/
structure BlockOk (pIndex : DiskAnnIndex) (buf : List UInt8) : Prop where
  length : buf.length = pIndex.nBlockSize
  edges_le : nodeBinEdges buf ≤ nodeEdgesMaxCount pIndex

/-- An edge whose vector has the type and the dimension of the edges of an index. -/
structure EdgeFits (pIndex : DiskAnnIndex) (edge : NodeEdge) : Prop where
  type_eq : edge.vector.type = pIndex.nEdgeVectorType
  dims_eq : edge.vector.dims = pIndex.nVectorDims

@[simp] theorem edgesOf_length (pIndex : DiskAnnIndex) (buf : List UInt8) :
    (edgesOf pIndex buf).length = nodeBinEdges buf := by
  rw [edgesOf, List.length_map, List.length_range]

theorem getElem?_edgesOf {j : ℕ} (hj : j < nodeBinEdges buf) :
    (edgesOf pIndex buf)[j]? = some (nodeBinEdge pIndex buf j) := by
  rw [edgesOf, List.getElem?_map, List.getElem?_range hj, Option.map_some]

theorem getElem_edgesOf {j : ℕ} (hj : j < (edgesOf pIndex buf).length) :
    (edgesOf pIndex buf)[j] = nodeBinEdge pIndex buf j := by
  have hlt := hj
  rw [edgesOf_length] at hlt
  exact Option.some.inj ((List.getElem?_eq_getElem hj).symm.trans (getElem?_edgesOf hlt))

theorem mem_edgesOf {edge : NodeEdge} :
    edge ∈ edgesOf pIndex buf ↔ ∃ i < nodeBinEdges buf, nodeBinEdge pIndex buf i = edge := by
  simp only [edgesOf, List.mem_map, List.mem_range]

/-- A list of as many edges, the same in every slot. -/
theorem edgesOf_eq {edges : List NodeEdge} (hlen : nodeBinEdges buf = edges.length)
    (hslot : ∀ j < nodeBinEdges buf, edges[j]? = some (nodeBinEdge pIndex buf j)) :
    edgesOf pIndex buf = edges := by
  apply List.ext_getElem?
  intro j
  rcases Nat.lt_or_ge j (nodeBinEdges buf) with hlt | hge
  · rw [getElem?_edgesOf hlt, hslot j hlt]
  · rw [List.getElem?_eq_none (by rw [edgesOf_length]; exact hge),
      List.getElem?_eq_none (by omega)]

theorem BlockOk.ten_le (h : IndexOk pIndex) (hok : BlockOk pIndex buf) : 10 ≤ buf.length := by
  rw [hok.length]
  exact ten_le_blockSize h

/-- **`nodeBinReplaceEdge` on the list**, where the count does not wrap. -/
theorem edgesOf_replaceEdge (h : IndexOk pIndex) (hok : BlockOk pIndex buf) {iReplace : ℕ}
    {edge : NodeEdge} (hfits : EdgeFits pIndex edge) (hi : iReplace < nodeEdgesMaxCount pIndex)
    (hle : iReplace ≤ nodeBinEdges buf) (hwrap : iReplace < 65535) :
    edgesOf pIndex (nodeBinReplaceEdge pIndex buf iReplace edge) =
      putAt (edgesOf pIndex buf) iReplace edge := by
  have hmax := hok.edges_le
  have hlt := nodeBinEdges_lt buf
  have hcount : nodeBinEdges (nodeBinReplaceEdge pIndex buf iReplace edge) =
      if iReplace = nodeBinEdges buf then nodeBinEdges buf + 1 else nodeBinEdges buf := by
    rw [nodeBinEdges_replaceEdge (hok.ten_le h)]
    refine Nat.mod_eq_of_lt ?_
    split_ifs <;> omega
  apply edgesOf_eq
  · rw [hcount, putAt_length, edgesOf_length]
  · intro j hj
    have hj' : j < nodeBinEdges buf ∨ j = iReplace := by
      rw [hcount] at hj
      split_ifs at hj <;> omega
    rw [getElem?_putAt (by rw [edgesOf_length]; exact hle),
      nodeBinEdge_replaceEdge h hok.length hfits.type_eq hfits.dims_eq hi (by omega)]
    split_ifs with hslot
    · rfl
    · exact getElem?_edgesOf (by omega)

/-- **`nodeBinDeleteEdge` on the list.** -/
theorem edgesOf_deleteEdge (h : IndexOk pIndex) (hok : BlockOk pIndex buf) {iDelete : ℕ}
    (hi : iDelete < nodeBinEdges buf) :
    edgesOf pIndex (nodeBinDeleteEdge pIndex buf iDelete) =
      swapRemove (edgesOf pIndex buf) iDelete := by
  have hmax := hok.edges_le
  have hcount := @nodeBinEdges_deleteEdge pIndex buf iDelete (hok.ten_le h)
  apply edgesOf_eq
  · rw [hcount, swapRemove_length, edgesOf_length]
  · intro j hj
    rw [hcount] at hj
    rw [getElem?_swapRemove (by rw [edgesOf_length]; exact hj), edgesOf_length,
      nodeBinEdge_deleteEdge h hok.length hmax hi (by omega)]
    split_ifs with hslot
    · exact getElem?_edgesOf (by omega)
    · exact getElem?_edgesOf (by omega)

theorem BlockOk.deleteEdge (h : IndexOk pIndex) (hok : BlockOk pIndex buf) (iDelete : ℕ) :
    BlockOk pIndex (nodeBinDeleteEdge pIndex buf iDelete) := by
  have hmax := hok.edges_le
  refine ⟨(nodeBinDeleteEdge_length pIndex buf iDelete).trans hok.length, ?_⟩
  rw [nodeBinEdges_deleteEdge (hok.ten_le h)]
  omega

theorem BlockOk.replaceEdge (h : IndexOk pIndex) (hok : BlockOk pIndex buf) {iReplace : ℕ}
    (edge : NodeEdge) (hi : iReplace < nodeEdgesMaxCount pIndex) :
    BlockOk pIndex (nodeBinReplaceEdge pIndex buf iReplace edge) := by
  have hmax := hok.edges_le
  refine ⟨(nodeBinReplaceEdge_length pIndex buf iReplace edge).trans hok.length, ?_⟩
  rw [nodeBinEdges_replaceEdge (hok.ten_le h)]
  split_ifs <;> omega

/-! ### A block in memory -/

section Memory

theorem writeLE16_append_left {off : ℕ} (h : off + 2 ≤ buf.length) (v : ℕ) (rest : List UInt8) :
    writeLE16 (buf ++ rest) off v = writeLE16 buf off v ++ rest :=
  writeBytes_append_left (by rwa [leBytes_length]) rest

theorem writeLE32_append_left {off : ℕ} (h : off + 4 ≤ buf.length) (v : UInt32)
    (rest : List UInt8) : writeLE32 (buf ++ rest) off v = writeLE32 buf off v ++ rest :=
  writeBytes_append_left (by rwa [leBytes_length]) rest

theorem writeLE64_append_left {off : ℕ} (h : off + 8 ≤ buf.length) (v : UInt64)
    (rest : List UInt8) : writeLE64 (buf ++ rest) off v = writeLE64 buf off v ++ rest :=
  writeBytes_append_left (by rwa [leBytes_length]) rest

theorem vectorSerializeToBlob_append_left {v : Vector} {off : ℕ}
    (h : off + vectorDataSize v.type v.dims ≤ buf.length) (rest : List UInt8) :
    vectorSerializeToBlob v (buf ++ rest) off = vectorSerializeToBlob v buf off ++ rest := by
  obtain ⟨h1, h2⟩ := vectorRuns_le v.type v.dims
  have hlen := v.data_length
  unfold vectorSerializeToBlob
  rw [writeBytes_append_left (by rw [List.length_take]; omega), writeBytes_append_left]
  rw [writeBytes_length, List.length_drop]
  omega

theorem vectorInitStatic_append_left {type : VectorType} {dims off : ℕ}
    (h : off + vectorDataSize type dims ≤ buf.length) (rest : List UInt8) :
    vectorInitStatic type dims (buf ++ rest) off = vectorInitStatic type dims buf off :=
  vectorInitStatic_eq_of_read (readBytes_append_left h rest)

theorem nodeBinEdges_append (h : 10 ≤ buf.length) (rest : List UInt8) :
    nodeBinEdges (buf ++ rest) = nodeBinEdges buf := by
  rw [nodeBinEdges, nodeBinEdges, readLE16, readLE16, readBytes_append_left h]

theorem nodeBinRowid_append (h : 10 ≤ buf.length) (rest : List UInt8) :
    nodeBinRowid (buf ++ rest) = nodeBinRowid buf := by
  rw [nodeBinRowid, nodeBinRowid, readLE64, readLE64, readBytes_append_left (by omega)]

theorem nodeBinVector_append (h : IndexOk pIndex) (hlen : buf.length = pIndex.nBlockSize)
    (rest : List UInt8) : nodeBinVector pIndex (buf ++ rest) = nodeBinVector pIndex buf := by
  have hroom := h.room
  have hsize := h.nodeSize
  unfold nodeOverhead at hroom
  exact vectorInitStatic_append_left (by omega) rest

/-- An edge is read from its slot. -/
theorem nodeBinEdge_append (h : IndexOk pIndex) (hlen : buf.length = pIndex.nBlockSize) {i : ℕ}
    (hi : i < nodeEdgesMaxCount pIndex) (rest : List UInt8) :
    nodeBinEdge pIndex (buf ++ rest) i = nodeBinEdge pIndex buf i := by
  obtain ⟨hhead, hstart, hvec, hmeta, hend⟩ := slotLayout h hi
  apply nodeBinEdge_eq_of_read h
  · exact readBytes_append_left (by omega) rest
  · exact readBytes_append_left (by omega) rest

/-- An edge is written to its slot. -/
theorem nodeBinReplaceEdge_append (h : IndexOk pIndex) (hlen : buf.length = pIndex.nBlockSize)
    {iReplace : ℕ} {edge : NodeEdge} (hfits : EdgeFits pIndex edge)
    (hi : iReplace < nodeEdgesMaxCount pIndex) (rest : List UInt8) :
    nodeBinReplaceEdge pIndex (buf ++ rest) iReplace edge =
      nodeBinReplaceEdge pIndex buf iReplace edge ++ rest := by
  obtain ⟨hhead, hstart, hvec, hmeta, hend⟩ := slotLayout h hi
  have hsize := h.edgeSize
  have hdata : vectorDataSize edge.vector.type edge.vector.dims = pIndex.nEdgeVectorSize := by
    rw [hfits.type_eq, hfits.dims_eq, hsize]
  unfold nodeBinReplaceEdge
  simp only [nodeBinEdges_append (show 10 ≤ buf.length by omega)]
  rw [vectorSerializeToBlob_append_left (by omega), writeLE32_append_left, writeLE64_append_left,
    writeLE16_append_left]
  · simp only [writeLE64_length, writeLE32_length, vectorSerializeToBlob_length]
    omega
  · simp only [writeLE32_length, vectorSerializeToBlob_length]
    omega
  · simp only [vectorSerializeToBlob_length]
    omega

/-- The last edge is moved inside the block. -/
theorem nodeBinDeleteEdge_append (h : IndexOk pIndex) (hok : BlockOk pIndex buf) {iDelete : ℕ}
    (hi : iDelete < nodeBinEdges buf) (rest : List UInt8) :
    nodeBinDeleteEdge pIndex (buf ++ rest) iDelete =
      nodeBinDeleteEdge pIndex buf iDelete ++ rest := by
  have hmax := hok.edges_le
  have hlen := hok.length
  obtain ⟨hhead, hstart, hvec, hmeta, hend⟩ :=
    slotLayout h (show iDelete < nodeEdgesMaxCount pIndex by omega)
  obtain ⟨-, hstart', hvec', hmeta', hend'⟩ :=
    slotLayout h (show nodeBinEdges buf - 1 < nodeEdgesMaxCount pIndex by omega)
  unfold nodeBinDeleteEdge
  simp only [nodeBinEdges_append (show 10 ≤ buf.length by omega)]
  split_ifs with hmove
  · rw [readBytes_append_left (by omega), writeBytes_append_left (by rw [readBytes_length]; omega),
      readBytes_append_left (by rw [writeBytes_length, edgeMetadataSize]; omega),
      writeBytes_append_left (by rw [readBytes_length, writeBytes_length, edgeMetadataSize]; omega),
      writeLE16_append_left (by rw [writeBytes_length, writeBytes_length]; omega)]
  · exact writeLE16_append_left (by omega) _ rest

end Memory

/-! ### Runs -/

section Runs

/-- A call of one of the three functions that write blocks. -/
inductive NodeOp
  | init (nRowid : UInt64) (pVector : Vector)
  | replaceEdge (iReplace : ℕ) (edge : NodeEdge)
  | deleteEdge (iDelete : ℕ)

/-- A node as a list of edges. -/
structure NodeList where
  rowid : UInt64
  vector : Vector
  edges : List NodeEdge

/-- The call on memory that begins with the block. -/
def NodeOp.exec (pIndex : DiskAnnIndex) (mem : List UInt8) : NodeOp → List UInt8
  | .init nRowid pVector =>
      vectorSerializeToBlob pVector
        (writeLE64 (List.replicate pIndex.nBlockSize 0 ++ mem.drop pIndex.nBlockSize) 0 nRowid)
        (nodeMetadataSize pIndex.nFormatVersion)
  | .replaceEdge iReplace edge => nodeBinReplaceEdge pIndex mem iReplace edge
  | .deleteEdge iDelete => nodeBinDeleteEdge pIndex mem iDelete

/-- The call on lists. -/
def NodeOp.apply (node : NodeList) : NodeOp → NodeList
  | .init nRowid pVector => ⟨nRowid, pVector, []⟩
  | .replaceEdge iReplace edge => { node with edges := putAt node.edges iReplace edge }
  | .deleteEdge iDelete => { node with edges := swapRemove node.edges iDelete }

/-- What the functions assert of their arguments. -/
def NodeOp.Legal (pIndex : DiskAnnIndex) (node : NodeList) : NodeOp → Prop
  | .init _ pVector => pVector.type = pIndex.nNodeVectorType ∧ pVector.dims = pIndex.nVectorDims
  | .replaceEdge iReplace edge =>
      EdgeFits pIndex edge ∧ iReplace < nodeEdgesMaxCount pIndex ∧ iReplace ≤ node.edges.length
  | .deleteEdge iDelete => iDelete < node.edges.length

/-- No edge is added behind 65535 others. -/
def NodeOp.Counted (node : NodeList) : NodeOp → Prop
  | .replaceEdge iReplace _ => iReplace = node.edges.length → iReplace < 65535
  | _ => True

/-- Calls that are all `P` where they are made. -/
def NodeOp.All (P : NodeList → NodeOp → Prop) : NodeList → List NodeOp → Prop
  | _, [] => True
  | node, op :: ops => P node op ∧ NodeOp.All P (op.apply node) ops

/-- A block that holds a node. -/
structure Holds (pIndex : DiskAnnIndex) (buf : List UInt8) (node : NodeList) : Prop where
  block : BlockOk pIndex buf
  rowid_eq : nodeBinRowid buf = node.rowid
  vector_eq : nodeBinVector pIndex buf = node.vector
  edges_eq : edgesOf pIndex buf = node.edges

/-- What the functions that read a block answer. -/
structure Shows (pIndex : DiskAnnIndex) (mem : List UInt8) (node : NodeList) : Prop where
  rowid_eq : nodeBinRowid mem = node.rowid
  vector_eq : nodeBinVector pIndex mem = node.vector
  count : nodeBinEdges mem = node.edges.length
  edge : ∀ i (hi : i < node.edges.length), nodeBinEdge pIndex mem i = node.edges[i]

variable {node : NodeList}

theorem nodeBinInit_append (h : IndexOk pIndex) (hlen : buf.length = pIndex.nBlockSize)
    (nRowid : UInt64) {pVector : Vector} (htype : pVector.type = pIndex.nNodeVectorType)
    (hdims : pVector.dims = pIndex.nVectorDims) (rest : List UInt8) :
    NodeOp.exec pIndex (buf ++ rest) (.init nRowid pVector) =
      nodeBinInit pIndex nRowid pVector ++ rest := by
  have hroom := h.room
  have hsize := h.nodeSize
  have hten := ten_le_blockSize h
  unfold nodeOverhead at hroom
  unfold NodeOp.exec nodeBinInit
  simp only
  rw [List.drop_left' hlen, writeLE64_append_left (by rw [List.length_replicate]; omega),
    vectorSerializeToBlob_append_left]
  rw [writeLE64_length, List.length_replicate, htype, hdims, ← hsize]
  omega

theorem Holds.init (h : IndexOk pIndex) (nRowid : UInt64) {pVector : Vector}
    (htype : pVector.type = pIndex.nNodeVectorType) (hdims : pVector.dims = pIndex.nVectorDims) :
    Holds pIndex (nodeBinInit pIndex nRowid pVector) ⟨nRowid, pVector, []⟩ := by
  have hnone := nodeBinEdges_init h nRowid pVector
  refine ⟨⟨nodeBinInit_length pIndex nRowid pVector, by omega⟩, nodeBinRowid_init h nRowid pVector,
    nodeBinVector_init h nRowid htype hdims, ?_⟩
  exact List.length_eq_zero_iff.mp ((edgesOf_length _ _).trans hnone)

/-- **One call**: the block after it holds what the call on lists gives, whatever lies
behind the block. -/
theorem Holds.exec (h : IndexOk pIndex) (hholds : Holds pIndex buf node) {op : NodeOp}
    (hlegal : op.Legal pIndex node) (hcount : op.Counted node) :
    ∃ buf', Holds pIndex buf' (op.apply node) ∧
      ∀ rest, op.exec pIndex (buf ++ rest) = buf' ++ rest := by
  have hok := hholds.block
  have hedges := congrArg List.length hholds.edges_eq
  rw [edgesOf_length] at hedges
  cases op with
  | init nRowid pVector =>
      exact ⟨_, Holds.init h nRowid hlegal.1 hlegal.2,
        nodeBinInit_append h hok.length nRowid hlegal.1 hlegal.2⟩
  | replaceEdge iReplace edge =>
      obtain ⟨hfits, hi, hle⟩ := hlegal
      have hlt := nodeBinEdges_lt buf
      have hsmall : iReplace < 65535 := by
        rcases Nat.eq_or_lt_of_le hle with heq | hlt'
        · exact hcount heq
        · omega
      have hsame := @sameNode_replaceEdge pIndex h buf iReplace edge hfits.type_eq hfits.dims_eq hi
      refine ⟨nodeBinReplaceEdge pIndex buf iReplace edge, ⟨hok.replaceEdge h edge hi,
        hsame.rowid.trans hholds.rowid_eq, hsame.vector.trans hholds.vector_eq, ?_⟩,
        nodeBinReplaceEdge_append h hok.length hfits hi⟩
      rw [edgesOf_replaceEdge h hok hfits hi (by omega) hsmall, hholds.edges_eq]
      rfl
  | deleteEdge iDelete =>
      have hi : iDelete < nodeBinEdges buf := hedges ▸ hlegal
      have hmax := hok.edges_le
      have hsame := @sameNode_deleteEdge pIndex h buf iDelete (by omega)
      refine ⟨nodeBinDeleteEdge pIndex buf iDelete, ⟨hok.deleteEdge h iDelete,
        hsame.rowid.trans hholds.rowid_eq, hsame.vector.trans hholds.vector_eq, ?_⟩,
        nodeBinDeleteEdge_append h hok hi⟩
      rw [edgesOf_deleteEdge h hok hi, hholds.edges_eq]
      rfl

/-- A block that holds a node shows it, and shows nothing of what lies behind it. -/
theorem Holds.shows (h : IndexOk pIndex) (hholds : Holds pIndex buf node) (rest : List UInt8) :
    Shows pIndex (buf ++ rest) node := by
  have hok := hholds.block
  have hten := hok.ten_le h
  have hedges := congrArg List.length hholds.edges_eq
  rw [edgesOf_length] at hedges
  have hmax := hok.edges_le
  refine ⟨(nodeBinRowid_append hten rest).trans hholds.rowid_eq,
    (nodeBinVector_append h hok.length rest).trans hholds.vector_eq,
    (nodeBinEdges_append hten rest).trans hedges, ?_⟩
  intro i hi
  rw [nodeBinEdge_append h hok.length (by omega) rest, ← getElem_edgesOf (by
    rw [edgesOf_length]; omega)]
  exact List.getElem_of_eq hholds.edges_eq _

/-- **A run of calls.** -/
theorem Holds.run (h : IndexOk pIndex) {ops : List NodeOp} (hholds : Holds pIndex buf node)
    (hlegal : NodeOp.All (NodeOp.Legal pIndex) node ops)
    (hcount : NodeOp.All NodeOp.Counted node ops) :
    ∃ buf', Holds pIndex buf' (ops.foldl NodeOp.apply node) ∧
      ∀ rest, ops.foldl (NodeOp.exec pIndex) (buf ++ rest) = buf' ++ rest := by
  induction ops generalizing buf node with
  | nil => exact ⟨buf, hholds, fun _ => rfl⟩
  | cons op ops ih =>
      obtain ⟨buf₁, hholds₁, hexec₁⟩ := hholds.exec h hlegal.1 hcount.1
      obtain ⟨buf', hholds', hexec'⟩ := ih hholds₁ hlegal.2 hcount.2
      refine ⟨buf', hholds', ?_⟩
      intro rest
      rw [List.foldl_cons, hexec₁, hexec' rest]

/-- **A block is a list of edges**: whatever is called on it, as long as no edge is added
behind 65535 others, it shows the list that the same calls on lists give, and what lies
behind the block is neither seen nor changed. -/
theorem nodeBin_run (h : AcceptedIndex pIndex) {block : List UInt8}
    (hlen : block.length = pIndex.nBlockSize) {nRowid : UInt64} {pVector : Vector}
    (htype : pVector.type = pIndex.nNodeVectorType) (hdims : pVector.dims = pIndex.nVectorDims)
    {ops : List NodeOp} (hlegal : NodeOp.All (NodeOp.Legal pIndex) ⟨nRowid, pVector, []⟩ ops)
    (hcount : NodeOp.All NodeOp.Counted ⟨nRowid, pVector, []⟩ ops) :
    ∃ block' : List UInt8, block'.length = pIndex.nBlockSize ∧ ∀ rest,
      (NodeOp.init nRowid pVector :: ops).foldl (NodeOp.exec pIndex) (block ++ rest) =
          block' ++ rest ∧
        Shows pIndex (block' ++ rest) (ops.foldl NodeOp.apply ⟨nRowid, pVector, []⟩) := by
  obtain ⟨block', hholds, hexec⟩ := (Holds.init h.ok nRowid htype hdims).run h.ok hlegal hcount
  refine ⟨block', hholds.block.length, ?_⟩
  intro rest
  refine ⟨?_, hholds.shows h.ok rest⟩
  rw [List.foldl_cons, nodeBinInit_append h.ok hlen nRowid htype hdims rest, hexec rest]

theorem nodeBin_run_small :
    ∃ block' : List UInt8, block'.length = 256 ∧ ∀ rest,
      [NodeOp.init 5 (wholeVector 10), .replaceEdge 0 ⟨1, 0, wholeVector 3⟩, .deleteEdge 0].foldl
          (NodeOp.exec smallIndex) (List.replicate 256 7 ++ rest) = block' ++ rest ∧
        Shows smallIndex (block' ++ rest) ⟨5, wholeVector 10, []⟩ :=
  @nodeBin_run smallIndex smallIndex_accepted (List.replicate 256 7) List.length_replicate 5
    (wholeVector 10) rfl rfl _
    ⟨⟨⟨rfl, rfl⟩, by decide, Nat.le_refl 0⟩, Nat.one_pos, trivial⟩
    ⟨fun _ => by decide, trivial, trivial⟩

/-- An index over `FLOAT32(1)` with `max_neighbors=65536`. -/
def crowdedIndex : DiskAnnIndex := { smallIndex with nBlockSize := 1310740 }

theorem crowdedIndex_accepted : AcceptedIndex crowdedIndex := by
  obtain ⟨p, hp⟩ : ∃ p, parseVectorIdxParams .float32 1
      [.type, .metric .l2, .insertL 1, .maxNeighbors 65536] = .ok p := ⟨_, rfl⟩
  obtain ⟨q, hq⟩ : ∃ q, diskAnnCreateIndex p = some q := by
    obtain rfl := Except.ok.inj hp
    exact ⟨_, rfl⟩
  refine ⟨.float32, 1, _, p, q, 7, by decide, by decide, hp, hq, ?_⟩
  obtain rfl := Except.ok.inj hp
  obtain rfl := Option.some.inj hq
  rfl

/-- Edges that are added one behind the other. -/
def addEdges (edge : NodeEdge) (k n : ℕ) : List NodeOp :=
  (List.range' k n).map fun i => .replaceEdge i edge

theorem addEdges_legal {edge : NodeEdge} (hfits : EdgeFits pIndex edge) {k n : ℕ}
    (hlen : node.edges.length = k) (hroom : k + n ≤ nodeEdgesMaxCount pIndex) :
    NodeOp.All (NodeOp.Legal pIndex) node (addEdges edge k n) ∧
      ((addEdges edge k n).foldl NodeOp.apply node).edges.length = k + n := by
  induction n generalizing k node with
  | zero => exact ⟨trivial, hlen⟩
  | succ n ih =>
      have hnext : (NodeOp.apply node (.replaceEdge k edge)).edges.length = k + 1 := by
        show (putAt node.edges k edge).length = k + 1
        rw [putAt_length, if_pos hlen.symm, hlen]
      obtain ⟨hlegal, hcount⟩ := ih hnext (by omega)
      unfold addEdges at hlegal hcount ⊢
      rw [List.range'_succ, List.map_cons]
      refine ⟨⟨⟨hfits, by omega, hlen.ge⟩, hlegal⟩, ?_⟩
      rw [List.foldl_cons, hcount]
      omega

/-- Of 65536 edges that are added to a block with room for them, none is left. -/
theorem nodeBin_wraps :
    ¬∀ (pIndex : DiskAnnIndex) (block : List UInt8) (nRowid : UInt64) (pVector : Vector)
        (ops : List NodeOp), AcceptedIndex pIndex → block.length = pIndex.nBlockSize →
      pVector.type = pIndex.nNodeVectorType → pVector.dims = pIndex.nVectorDims →
      NodeOp.All (NodeOp.Legal pIndex) ⟨nRowid, pVector, []⟩ ops →
      Shows pIndex ((NodeOp.init nRowid pVector :: ops).foldl (NodeOp.exec pIndex) block)
        (ops.foldl NodeOp.apply ⟨nRowid, pVector, []⟩) := by
  intro hclaim
  have hroom : nodeEdgesMaxCount crowdedIndex = 65536 := by decide
  obtain ⟨hlegal, hcount⟩ := @addEdges_legal crowdedIndex ⟨5, wholeVector 10, []⟩
    ⟨1, 0, wholeVector 3⟩ ⟨rfl, rfl⟩ 0 65536 rfl (by rw [hroom])
  have hshows := hclaim crowdedIndex (List.replicate 1310740 0) 5 (wholeVector 10) _
    crowdedIndex_accepted List.length_replicate rfl rfl hlegal
  have hlt := nodeBinEdges_lt ((NodeOp.init 5 (wholeVector 10) ::
    addEdges ⟨1, 0, wholeVector 3⟩ 0 65536).foldl (NodeOp.exec crowdedIndex)
      (List.replicate 1310740 0))
  have hall := hshows.count.trans hcount
  omega

end Runs

/-! ### Pruning -/

section Pruning

variable {D : Type}

/-- What pruning keeps: edges to the row of the inserted edge, and edges that the
inserted edge does not make superfluous. -/
def keepsEdge (math : VectorMath D) (pIndex : DiskAnnIndex) (pPlaceholder : VectorPair)
    (hint edge : NodeEdge) : Bool :=
  decide (hint.rowid = edge.rowid) ||
    !math.exceedsScaled pIndex.pruningAlpha (nodeToEdgeDistance math pIndex pPlaceholder edge)
      (diskAnnVectorDistance math pIndex hint.vector edge.vector)

/-- **The loop of `diskAnnPruneEdges` is a sweep.**  An edge that is deleted does not
go to the row of the inserted edge, so the slot of that edge keeps its bytes, also when
the edge itself has moved. -/
theorem edgesOf_pruneEdgesLoop (math : VectorMath D) (h : IndexOk pIndex)
    (hok : BlockOk pIndex buf) {iInserted : ℕ} {hint : NodeEdge}
    (hi : iInserted < nodeEdgesMaxCount pIndex)
    (hhint : nodeBinEdge pIndex buf iInserted = hint) (pPlaceholder : VectorPair) {k i : ℕ}
    (hk : i + k = nodeBinEdges buf) :
    edgesOf pIndex (pruneEdgesLoop math pIndex iInserted hint.rowid pPlaceholder k i buf) =
        sweep (keepsEdge math pIndex pPlaceholder hint) k i (edgesOf pIndex buf) ∧
      SameNode pIndex (pruneEdgesLoop math pIndex iInserted hint.rowid pPlaceholder k i buf)
        buf := by
  induction k generalizing i buf with
  | zero => exact ⟨rfl, SameNode.refl buf⟩
  | succ k ih =>
      have hlt : i < nodeBinEdges buf := by omega
      have hmax := hok.edges_le
      simp only [pruneEdgesLoop, sweep, getElem?_edgesOf hlt, keepsEdge, Bool.or_eq_true,
        decide_eq_true_eq, Bool.not_eq_true', hhint]
      rcases Decidable.em (hint.rowid = (nodeBinEdge pIndex buf i).rowid) with hrow | hrow
      · rw [if_pos hrow, if_pos (Or.inl hrow)]
        exact ih hok hhint (by omega)
      rw [if_neg hrow]
      split_ifs with hfar hkeep hkeep
      · rw [hfar] at hkeep
        exact absurd hkeep (by simp [hrow])
      · -- the slot of the hint is not the one that is written
        have hne : iInserted ≠ i := by
          rintro rfl
          exact hrow (congrArg NodeEdge.rowid hhint).symm
        have hslot : nodeBinEdge pIndex (nodeBinDeleteEdge pIndex buf i) iInserted = hint := by
          rw [nodeBinEdge_deleteEdge h hok.length hmax hlt hi, if_neg hne, hhint]
        obtain ⟨hlist, hsame⟩ := ih (i := i) (hok.deleteEdge h i) hslot (by
          rw [nodeBinEdges_deleteEdge (hok.ten_le h)]
          omega)
        rw [edgesOf_deleteEdge h hok hlt] at hlist
        exact ⟨hlist, hsame.trans (sameNode_deleteEdge h (by omega))⟩
      · exact ih hok hhint (by omega)
      · exact absurd (Or.inr (Bool.eq_false_of_not_eq_true hfar)) hkeep

/-- **Pruning keeps the inserted edge, and of the others those that it should**, as
they were in the block before. -/
theorem diskAnnPruneEdges_perm (math : VectorMath D) (h : IndexOk pIndex)
    (hok : BlockOk pIndex buf) {iInserted : ℕ} (hi : iInserted < nodeBinEdges buf) :
    (edgesOf pIndex (diskAnnPruneEdges math pIndex buf iInserted)).Perm
        (nodeBinEdge pIndex buf iInserted :: ((edgesOf pIndex buf).eraseIdx iInserted).filter
          (keepsEdge math pIndex (loadVectorPair math pIndex (nodeBinVector pIndex buf))
            (nodeBinEdge pIndex buf iInserted))) ∧
      SameNode pIndex (diskAnnPruneEdges math pIndex buf iInserted) buf := by
  have hslot := Nat.lt_of_lt_of_le hi hok.edges_le
  obtain ⟨hlist, hsame⟩ := edgesOf_pruneEdgesLoop math h hok hslot rfl
    (loadVectorPair math pIndex (nodeBinVector pIndex buf)) (Nat.zero_add (nodeBinEdges buf))
  refine ⟨?_, hsame⟩
  have hlen : iInserted < (edgesOf pIndex buf).length := by rwa [edgesOf_length]
  have hself : keepsEdge math pIndex (loadVectorPair math pIndex (nodeBinVector pIndex buf))
      (nodeBinEdge pIndex buf iInserted) (nodeBinEdge pIndex buf iInserted) = true := by
    simp only [keepsEdge, decide_true, Bool.true_or]
  have hsplit := (List.getElem_cons_eraseIdx_perm hlen).filter
    (keepsEdge math pIndex (loadVectorPair math pIndex (nodeBinVector pIndex buf))
      (nodeBinEdge pIndex buf iInserted))
  rw [getElem_edgesOf hlen, List.filter_cons_of_pos hself] at hsplit
  refine List.Perm.trans ?_ hsplit.symm
  unfold diskAnnPruneEdges
  rw [hlist]
  exact sweep_perm _ (by rw [edgesOf_length, Nat.zero_add]) (by simp)

/-- A block at `10` with two edges to one row, at `0` and at `1`. -/
def twinBlock : List UInt8 :=
  nodeBinReplaceEdge smallIndex
    (nodeBinReplaceEdge smallIndex (nodeBinInit smallIndex 5 (wholeVector 10)) 0
      ⟨1, bitsOfWhole 10, wholeVector 0⟩) 1 ⟨1, bitsOfWhole 9, wholeVector 1⟩

theorem nodeEdgesMaxCount_small : nodeEdgesMaxCount smallIndex = 11 := by decide

/-- What a block holds of which two edges were added to a fresh node. -/
theorem edgesOf_two (e₀ e₁ : NodeEdge) (h₀ : EdgeFits smallIndex e₀) (h₁ : EdgeFits smallIndex e₁)
    (nRowid : UInt64) {pVector : Vector} (htype : pVector.type = .float32)
    (hdims : pVector.dims = 1) :
    let buf := nodeBinReplaceEdge smallIndex
      (nodeBinReplaceEdge smallIndex (nodeBinInit smallIndex nRowid pVector) 0 e₀) 1 e₁
    edgesOf smallIndex buf = [e₀, e₁] ∧ BlockOk smallIndex buf ∧
      nodeBinVector smallIndex buf = pVector := by
  have h := smallIndex_accepted.ok
  have hmax := nodeEdgesMaxCount_small
  have hnone := nodeBinEdges_init h nRowid pVector
  have hok : BlockOk smallIndex (nodeBinInit smallIndex nRowid pVector) :=
    ⟨nodeBinInit_length smallIndex nRowid pVector, by omega⟩
  have hfresh : edgesOf smallIndex (nodeBinInit smallIndex nRowid pVector) = [] :=
    List.length_eq_zero_iff.mp ((edgesOf_length _ _).trans hnone)
  have hlist₀ := @edgesOf_replaceEdge _ _ h hok 0 e₀ h₀ (by omega) (by omega) (by omega)
  have hok₀ := @BlockOk.replaceEdge _ _ h hok 0 e₀ (by omega)
  have hone := congrArg List.length hlist₀
  rw [hfresh, edgesOf_length] at hone
  have hlist₁ := @edgesOf_replaceEdge _ _ h hok₀ 1 e₁ h₁ (by omega)
    (Nat.le_of_eq hone.symm) (by omega)
  rw [hlist₀, hfresh] at hlist₁
  refine ⟨hlist₁, hok₀.replaceEdge h e₁ (by omega), ?_⟩
  rw [(sameNode_replaceEdge h h₁.type_eq h₁.dims_eq (by omega)).vector,
    (sameNode_replaceEdge h h₀.type_eq h₀.dims_eq (by omega)).vector]
  exact nodeBinVector_init h nRowid htype hdims

theorem twinBlock_edges :
    edgesOf smallIndex twinBlock =
        [⟨1, bitsOfWhole 10, wholeVector 0⟩, ⟨1, bitsOfWhole 9, wholeVector 1⟩] ∧
      BlockOk smallIndex twinBlock ∧ nodeBinVector smallIndex twinBlock = wholeVector 10 :=
  edgesOf_two _ _ ⟨rfl, rfl⟩ ⟨rfl, rfl⟩ 5 rfl rfl

theorem twinBlock_count : nodeBinEdges twinBlock = 2 := by
  rw [← edgesOf_length smallIndex, twinBlock_edges.1]
  rfl

theorem diskAnnPruneEdges_perm_twin :
    SameNode smallIndex (diskAnnPruneEdges wholeMath smallIndex twinBlock 0) twinBlock :=
  (diskAnnPruneEdges_perm wholeMath smallIndex_accepted.ok twinBlock_edges.2.1
    (by rw [twinBlock_count]; exact Nat.zero_lt_two)).2

/-- An edge to the row of the inserted edge stays, however close the two are. -/
theorem diskAnnPruneEdges_keeps_twin :
    ¬∀ (pIndex : DiskAnnIndex) (buf : List UInt8) (iInserted : ℕ), AcceptedIndex pIndex →
      BlockOk pIndex buf → iInserted < nodeBinEdges buf →
      (edgesOf pIndex (diskAnnPruneEdges wholeMath pIndex buf iInserted)).Perm
        (nodeBinEdge pIndex buf iInserted ::
          ((edgesOf pIndex buf).eraseIdx iInserted).filter fun edge =>
            !wholeMath.exceedsScaled pIndex.pruningAlpha
              (diskAnnVectorDistance wholeMath pIndex
                (loadVectorPair wholeMath pIndex (nodeBinVector pIndex buf)).pEdge edge.vector)
              (diskAnnVectorDistance wholeMath pIndex (nodeBinEdge pIndex buf iInserted).vector
                edge.vector)) := by
  intro hclaim
  obtain ⟨hedges, hok, hvec⟩ := twinBlock_edges
  have hcount := twinBlock_count
  have hperm := hclaim smallIndex twinBlock 0 smallIndex_accepted hok (by omega)
  have hhint : nodeBinEdge smallIndex twinBlock 0 = ⟨1, bitsOfWhole 10, wholeVector 0⟩ := by
    have hslot : (edgesOf smallIndex twinBlock)[0]? = some (nodeBinEdge smallIndex twinBlock 0) :=
      getElem?_edgesOf (by omega)
    rw [hedges] at hslot
    exact (Option.some.inj hslot).symm
  -- neither edge is deleted
  obtain ⟨hlist, -⟩ := edgesOf_pruneEdgesLoop wholeMath smallIndex_accepted.ok hok
    (by rw [nodeEdgesMaxCount_small]; omega) hhint
    (loadVectorPair wholeMath smallIndex (nodeBinVector smallIndex twinBlock))
    (Nat.zero_add (nodeBinEdges twinBlock))
  have hboth := congrArg List.length hlist
  simp only [hcount, hedges, sweep, keepsEdge, List.getElem?_cons_zero, List.getElem?_cons_succ,
    decide_true, Bool.true_or, if_true, List.length_cons, List.length_nil] at hboth
  have hlen := hperm.length_eq
  unfold diskAnnPruneEdges at hlen
  rw [hhint, hcount, hboth, hedges, hvec] at hlen
  exact absurd hlen (by decide)

end Pruning

/-! ### The place of a new edge -/

section Place

variable {D : Type} [LT D]

/-- How a scan of `n` slots from the last to the first ends: at an edge to the same
row, at an edge that makes the new one superfluous, or behind the first slot, where a
free slot is taken before the farthest edge. -/
inductive ScanOutcome (n nMaxEdges : ℕ) (same prunes : ℕ → Prop) (dist : ℕ → D) (nodeToNew : D) :
    Option ℕ → Prop
  | same (s : ℕ) (hs : s < n) (hsame : same s)
      (habove : ∀ j, s < j → j < n → ¬same j ∧ ¬prunes j) :
      ScanOutcome n nMaxEdges same prunes dist nodeToNew (some s)
  | pruned (p : ℕ) (hp : p < n) (hprunes : prunes p) (hne : ¬same p)
      (habove : ∀ j, p < j → j < n → ¬same j ∧ ¬prunes j) :
      ScanOutcome n nMaxEdges same prunes dist nodeToNew none
  | room (hall : ∀ j < n, ¬same j ∧ ¬prunes j) (hroom : n < nMaxEdges) :
      ScanOutcome n nMaxEdges same prunes dist nodeToNew (some n)
  | farthest (hall : ∀ j < n, ¬same j ∧ ¬prunes j) (hfull : ¬n < nMaxEdges) (b : ℕ) (hb : b < n)
      (hfar : nodeToNew < dist b) (hmax : ∀ j < n, ¬dist b < dist j) :
      ScanOutcome n nMaxEdges same prunes dist nodeToNew (some b)
  | near (hall : ∀ j < n, ¬same j ∧ ¬prunes j) (hfull : ¬n < nMaxEdges)
      (hnear : ∀ j < n, ¬nodeToNew < dist j) :
      ScanOutcome n nMaxEdges same prunes dist nodeToNew none

/-- The farthest of the slots from `i` on among those that are farther than the new
edge. -/
def BestFrom (n : ℕ) (dist : ℕ → D) (nodeToNew : D) (i : ℕ) (best : Option (ℕ × D)) : Prop :=
  match best with
  | none => ∀ j, i ≤ j → j < n → ¬nodeToNew < dist j
  | some (b, d) =>
      b < n ∧ d = dist b ∧ nodeToNew < d ∧ ∀ j, i ≤ j → j < n → ¬d < dist j

/-- What the decision about a new edge should be. -/
structure Decides (n nMaxEdges : ℕ) (same prunes : ℕ → Prop) (dist : ℕ → D) (nodeToNew : D)
    (r : Option ℕ) : Prop where
  of_same : (∃ i < n, same i) → ∃ i < n, same i ∧ r = some i
  of_prunes : (∀ i < n, ¬same i) → (∃ i < n, prunes i) → r = none
  of_room : (∀ i < n, ¬same i) → (∀ i < n, ¬prunes i) → n < nMaxEdges → r = some n
  of_full : (∀ i < n, ¬same i) → (∀ i < n, ¬prunes i) → ¬n < nMaxEdges →
    (∃ b < n, r = some b ∧ nodeToNew < dist b ∧ ∀ j < n, ¬dist b < dist j) ∨
      r = none ∧ ∀ j < n, ¬nodeToNew < dist j

/-- No edge behind the last one to the same row makes the new one superfluous. -/
def SameAbovePrunes (n : ℕ) (same prunes : ℕ → Prop) : Prop :=
  ∀ s p, s < p → p < n → same s → prunes p → ∃ s', p ≤ s' ∧ s' < n ∧ same s'

variable {n nMaxEdges : ℕ} {same prunes : ℕ → Prop} {dist : ℕ → D} {nodeToNew : D} {r : Option ℕ}

/-- **A scan decides as it should exactly where no edge that prunes hides the edge to
the same row.** -/
theorem ScanOutcome.decides (hout : ScanOutcome n nMaxEdges same prunes dist nodeToNew r) :
    Decides n nMaxEdges same prunes dist nodeToNew r ↔ SameAbovePrunes n same prunes := by
  cases hout with
  | same s hs hsame habove =>
      refine iff_of_true ⟨fun _ => ⟨s, hs, hsame, rfl⟩, ?_, ?_, ?_⟩ ?_
      · exact fun hno => absurd hsame (hno s hs)
      · exact fun hno => absurd hsame (hno s hs)
      · exact fun hno => absurd hsame (hno s hs)
      · intro s' p _ hp _ hprunes
        refine ⟨s, ?_, hs, hsame⟩
        exact Nat.le_of_not_lt fun hlt => (habove p hlt hp).2 hprunes
  | pruned p hp hprunes hne habove =>
      have hnone : ∀ s', p ≤ s' → s' < n → ¬same s' := by
        intro s' hle hlt
        rcases Nat.eq_or_lt_of_le hle with rfl | hgt
        · exact hne
        · exact (habove s' hgt hlt).1
      -- right if and only if no edge to the same row lies below this one
      constructor
      · intro hdec s p' hsp hp' hsame _
        obtain ⟨i, -, -, hr⟩ := hdec.of_same ⟨s, by omega, hsame⟩
        cases hr
      · intro hcond
        have hno : ∀ i < n, ¬same i := by
          intro i hi hsame
          have hip : i < p := Nat.lt_of_not_le fun hle => hnone i hle hi hsame
          obtain ⟨s', hle, hlt, hsame'⟩ := hcond i p hip hp hsame hprunes
          exact hnone s' hle hlt hsame'
        refine ⟨?_, fun _ _ => rfl, ?_, ?_⟩
        · rintro ⟨i, hi, hsame⟩
          exact absurd hsame (hno i hi)
        · exact fun _ hnp => absurd hprunes (hnp p hp)
        · exact fun _ hnp => absurd hprunes (hnp p hp)
  | room hall hroom =>
      -- the scan went over all edges
      refine iff_of_true ⟨?_, ?_, fun _ _ _ => rfl, fun _ _ hfull => absurd hroom hfull⟩ ?_
      · rintro ⟨i, hi, hsame⟩
        exact absurd hsame (hall i hi).1
      · rintro - ⟨i, hi, hprunes⟩
        exact absurd hprunes (hall i hi).2
      · exact fun s p _ hp _ hprunes => absurd hprunes (hall p hp).2
  | farthest hall hfull b hb hfar hmax =>
      refine iff_of_true ⟨?_, ?_, fun _ _ hroom => absurd hroom hfull, ?_⟩ ?_
      · rintro ⟨i, hi, hsame⟩
        exact absurd hsame (hall i hi).1
      · rintro - ⟨i, hi, hprunes⟩
        exact absurd hprunes (hall i hi).2
      · exact fun _ _ _ => .inl ⟨b, hb, rfl, hfar, hmax⟩
      · exact fun s p _ hp _ hprunes => absurd hprunes (hall p hp).2
  | near hall hfull hnear =>
      refine iff_of_true ⟨?_, fun _ _ => rfl, fun _ _ hroom => absurd hroom hfull, ?_⟩ ?_
      · rintro ⟨i, hi, hsame⟩
        exact absurd hsame (hall i hi).1
      · exact fun _ _ _ => .inr ⟨rfl, hnear⟩
      · exact fun s p _ hp _ hprunes => absurd hprunes (hall p hp).2

/-- Where the decision is written: inside the block, in use or behind the last edge. -/
theorem ScanOutcome.place {iReplace : ℕ}
    (hout : ScanOutcome n nMaxEdges same prunes dist nodeToNew (some iReplace))
    (hle : n ≤ nMaxEdges) :
    iReplace < nMaxEdges ∧ (iReplace < n ∨ iReplace = n ∧ ∀ j < n, ¬same j ∧ ¬prunes j) := by
  cases hout with
  | same s hs hsame habove => exact ⟨by omega, .inl hs⟩
  | room hall hroom => exact ⟨hroom, .inr ⟨rfl, hall⟩⟩
  | farthest hall hfull b hb hfar hmax => exact ⟨by omega, .inl hb⟩

end Place

section Decision

variable {D : Type}

section Best

variable [Preorder D]

/-- The best slot below the one that was looked at. -/
theorem BestFrom.skip {n i : ℕ} {dist : ℕ → D} {nodeToNew : D} {best : Option (ℕ × D)}
    (hbest : BestFrom n dist nodeToNew (i + 1) best)
    (hskip : ¬(nodeToNew < dist i ∧ ∀ b ∈ best, b.2 < dist i)) :
    BestFrom n dist nodeToNew i best := by
  rcases best with - | ⟨b, d⟩
  · intro j hij hj
    rcases Nat.eq_or_lt_of_le hij with rfl | hlt
    · exact fun hfar => hskip ⟨hfar, by simp⟩
    · exact hbest j hlt hj
  · obtain ⟨hb, hd, hnew, hmax⟩ := hbest
    refine ⟨hb, hd, hnew, ?_⟩
    intro j hij hj
    rcases Nat.eq_or_lt_of_le hij with rfl | hlt
    · intro hfar
      refine hskip ⟨hnew.trans hfar, ?_⟩
      rintro b' ⟨⟩
      exact hfar
    · exact hmax j hlt hj

/-- A slot that is farther than the best one above it. -/
theorem BestFrom.take {n i : ℕ} {dist : ℕ → D} {nodeToNew : D} {best : Option (ℕ × D)}
    (hbest : BestFrom n dist nodeToNew (i + 1) best) (hi : i < n)
    (hnew : nodeToNew < dist i) (hfar : ∀ b ∈ best, b.2 < dist i) :
    BestFrom n dist nodeToNew i (some (i, dist i)) := by
  refine ⟨hi, rfl, hnew, ?_⟩
  intro j hij hj hlt
  rcases Nat.eq_or_lt_of_le hij with rfl | hgt
  · exact lt_irrefl _ hlt
  · rcases best with - | ⟨b, d⟩
    · exact hbest j hgt hj (hnew.trans hlt)
    · exact hbest.2.2.2 j hgt hj ((hfar (b, d) rfl).trans hlt)

end Best

/-- Edge `i` goes to the row of the new edge. -/
def edgeSame (pIndex : DiskAnnIndex) (buf : List UInt8) (newRowid : UInt64) (i : ℕ) : Prop :=
  (nodeBinEdge pIndex buf i).rowid = newRowid

/-- Edge `i` is closer, scaled by alpha, to the new node than the node of the block is. -/
def edgePrunes (math : VectorMath D) (pIndex : DiskAnnIndex) (buf : List UInt8)
    (pNewVector : VectorPair) (nodeToNew : D) (i : ℕ) : Prop :=
  math.exceedsScaled pIndex.pruningAlpha nodeToNew
    (diskAnnVectorDistance math pIndex (nodeBinEdge pIndex buf i).vector pNewVector.pEdge) = true

variable [Preorder D] [DecidableLT D] {math : VectorMath D}

/-- What the loop decides, by what it has seen above `i`. -/
theorem replaceEdgeLoop_outcome {newRowid : UInt64} {pNewVector pPlaceholder : VectorPair}
    {nodeToNew : D} {i : ℕ} {best : Option (ℕ × D)} (hi : i ≤ nodeBinEdges buf)
    (habove : ∀ j, i ≤ j → j < nodeBinEdges buf → ¬edgeSame pIndex buf newRowid j ∧
      ¬edgePrunes math pIndex buf pNewVector nodeToNew j)
    (hbest : BestFrom (nodeBinEdges buf)
      (fun j => nodeToEdgeDistance math pIndex pPlaceholder (nodeBinEdge pIndex buf j))
      nodeToNew i best) :
    ScanOutcome (nodeBinEdges buf) (nodeEdgesMaxCount pIndex) (edgeSame pIndex buf newRowid)
      (edgePrunes math pIndex buf pNewVector nodeToNew)
      (fun j => nodeToEdgeDistance math pIndex pPlaceholder (nodeBinEdge pIndex buf j)) nodeToNew
      (replaceEdgeLoop math pIndex buf newRowid pNewVector pPlaceholder nodeToNew i best) := by
  induction i generalizing best with
  | zero =>
      have hall := fun j hj => habove j (Nat.zero_le j) hj
      unfold replaceEdgeLoop
      split_ifs with hroom
      · exact .room hall hroom
      · rcases best with - | ⟨b, d⟩
        · exact .near hall hroom fun j hj => hbest j (Nat.zero_le j) hj
        · obtain ⟨hb, rfl, hnew, hmax⟩ := hbest
          exact .farthest hall hroom b hb hnew fun j hj => hmax j (Nat.zero_le j) hj
  | succ i ih =>
      have hbelow : ¬edgeSame pIndex buf newRowid i →
          ¬edgePrunes math pIndex buf pNewVector nodeToNew i →
          ∀ j, i ≤ j → j < nodeBinEdges buf → ¬edgeSame pIndex buf newRowid j ∧
            ¬edgePrunes math pIndex buf pNewVector nodeToNew j := by
        intro hsame hprunes j hij hj
        rcases Nat.eq_or_lt_of_le hij with rfl | hlt
        · exact ⟨hsame, hprunes⟩
        · exact habove j hlt hj
      simp only [replaceEdgeLoop]
      split_ifs with hsame hprunes hfar
      · exact .same i hi hsame habove
      · exact .pruned i hi hprunes hsame habove
      · exact ih (by omega) (hbelow hsame hprunes) (hbest.take hi hfar.1 hfar.2)
      · exact ih (by omega) (hbelow hsame hprunes) (hbest.skip hfar)

/-- Offering an edge to a block: the decision, and the edge written where it says. -/
def diskAnnOfferEdge (math : VectorMath D) (pIndex : DiskAnnIndex) (buf : List UInt8)
    (newRowid : UInt64) (pNewVector : VectorPair) : List UInt8 :=
  let r := diskAnnReplaceEdgeIdx math pIndex buf newRowid pNewVector
  match r.1 with
  | none => buf
  | some iReplace =>
      nodeBinReplaceEdge pIndex buf iReplace ⟨newRowid, math.toBits r.2, pNewVector.pEdge⟩

/-- The decision is the right one, it is what happens to the list of edges, and the block
keeps to its room. -/
structure RealisesDecision (math : VectorMath D) (pIndex : DiskAnnIndex) (buf : List UInt8)
    (newRowid : UInt64) (pNewVector : VectorPair) : Prop where
  decides : Decides (nodeBinEdges buf) (nodeEdgesMaxCount pIndex) (edgeSame pIndex buf newRowid)
    (edgePrunes math pIndex buf pNewVector
      (diskAnnReplaceEdgeIdx math pIndex buf newRowid pNewVector).2)
    (fun j => nodeToEdgeDistance math pIndex
      (loadVectorPair math pIndex (nodeBinVector pIndex buf)) (nodeBinEdge pIndex buf j))
    (diskAnnReplaceEdgeIdx math pIndex buf newRowid pNewVector).2
    (diskAnnReplaceEdgeIdx math pIndex buf newRowid pNewVector).1
  kept : (diskAnnReplaceEdgeIdx math pIndex buf newRowid pNewVector).1 = none →
    diskAnnOfferEdge math pIndex buf newRowid pNewVector = buf
  written : ∀ iReplace,
    (diskAnnReplaceEdgeIdx math pIndex buf newRowid pNewVector).1 = some iReplace →
    edgesOf pIndex (diskAnnOfferEdge math pIndex buf newRowid pNewVector) =
      putAt (edgesOf pIndex buf) iReplace ⟨newRowid,
        math.toBits (diskAnnReplaceEdgeIdx math pIndex buf newRowid pNewVector).2,
        pNewVector.pEdge⟩
  count_le : nodeBinEdges (diskAnnOfferEdge math pIndex buf newRowid pNewVector) ≤
    nodeBinEdges buf + 1
  max_le : nodeBinEdges (diskAnnOfferEdge math pIndex buf newRowid pNewVector) ≤
    nodeEdgesMaxCount pIndex

/-- How the scan of the edges of a block ends. -/
theorem diskAnnReplaceEdgeIdx_outcome (math : VectorMath D) (pIndex : DiskAnnIndex)
    (buf : List UInt8) (newRowid : UInt64) (pNewVector : VectorPair) :
    ScanOutcome (nodeBinEdges buf) (nodeEdgesMaxCount pIndex) (edgeSame pIndex buf newRowid)
      (edgePrunes math pIndex buf pNewVector
        (diskAnnReplaceEdgeIdx math pIndex buf newRowid pNewVector).2)
      (fun j => nodeToEdgeDistance math pIndex
        (loadVectorPair math pIndex (nodeBinVector pIndex buf)) (nodeBinEdge pIndex buf j))
      (diskAnnReplaceEdgeIdx math pIndex buf newRowid pNewVector).2
      (diskAnnReplaceEdgeIdx math pIndex buf newRowid pNewVector).1 := by
  apply replaceEdgeLoop_outcome le_rfl
  · intro j hj hj'
    exact absurd hj' (Nat.not_lt_of_le hj)
  · intro j hj hj'
    exact absurd hj' (Nat.not_lt_of_le hj)

theorem diskAnnOfferEdge_none {newRowid : UInt64} {pNewVector : VectorPair}
    (hnone : (diskAnnReplaceEdgeIdx math pIndex buf newRowid pNewVector).1 = none) :
    diskAnnOfferEdge math pIndex buf newRowid pNewVector = buf := by
  unfold diskAnnOfferEdge
  simp only [hnone]

/-- The edge is written where the scan says, but for a 65536th edge. -/
theorem diskAnnOfferEdge_some (h : IndexOk pIndex) (hok : BlockOk pIndex buf) {newRowid : UInt64}
    {pNewVector : VectorPair} {iReplace : ℕ}
    (hsome : (diskAnnReplaceEdgeIdx math pIndex buf newRowid pNewVector).1 = some iReplace)
    (hfits : EdgeFits pIndex ⟨newRowid,
      math.toBits (diskAnnReplaceEdgeIdx math pIndex buf newRowid pNewVector).2, pNewVector.pEdge⟩)
    (hwrap : ¬(nodeBinEdges buf = 65535 ∧ nodeBinEdges buf < nodeEdgesMaxCount pIndex ∧
      ∀ i < nodeBinEdges buf, ¬edgeSame pIndex buf newRowid i ∧ ¬edgePrunes math pIndex buf
        pNewVector (diskAnnReplaceEdgeIdx math pIndex buf newRowid pNewVector).2 i)) :
    edgesOf pIndex (diskAnnOfferEdge math pIndex buf newRowid pNewVector) =
        putAt (edgesOf pIndex buf) iReplace ⟨newRowid,
          math.toBits (diskAnnReplaceEdgeIdx math pIndex buf newRowid pNewVector).2,
          pNewVector.pEdge⟩ ∧ iReplace < nodeEdgesMaxCount pIndex := by
  have hlt := nodeBinEdges_lt buf
  have hout := diskAnnReplaceEdgeIdx_outcome math pIndex buf newRowid pNewVector
  rw [hsome] at hout
  obtain ⟨hslot, hplace⟩ := hout.place hok.edges_le
  have hsmall : iReplace < 65535 := by
    rcases hplace with hin | ⟨rfl, hall⟩
    · omega
    · refine Nat.lt_of_le_of_ne (by omega) ?_
      exact fun hfull => hwrap ⟨hfull, hslot, hall⟩
  refine ⟨?_, hslot⟩
  unfold diskAnnOfferEdge
  simp only [hsome]
  exact edgesOf_replaceEdge h hok hfits hslot (by omega) hsmall

/-- **`diskAnnReplaceEdgeIdx` decides as it should exactly where** no edge that prunes
lies above the last edge to the same row, and the edge is not added as the 65536th. -/
theorem diskAnnReplaceEdgeIdx_decides (math : VectorMath D) (h : IndexOk pIndex)
    (hok : BlockOk pIndex buf)
    {pVector : Vector} (htype : pVector.type = pIndex.nNodeVectorType)
    (hdims : pVector.dims = pIndex.nVectorDims) (newRowid : UInt64) :
    let pNewVector := loadVectorPair math pIndex pVector
    let nodeToNew := diskAnnVectorDistance math pIndex
      (loadVectorPair math pIndex (nodeBinVector pIndex buf)).pEdge pNewVector.pEdge
    RealisesDecision math pIndex buf newRowid pNewVector ↔
      SameAbovePrunes (nodeBinEdges buf) (edgeSame pIndex buf newRowid)
          (edgePrunes math pIndex buf pNewVector nodeToNew) ∧
        ¬(nodeBinEdges buf = 65535 ∧ nodeBinEdges buf < nodeEdgesMaxCount pIndex ∧
          ∀ i < nodeBinEdges buf, ¬edgeSame pIndex buf newRowid i ∧
            ¬edgePrunes math pIndex buf pNewVector nodeToNew i) := by
  intro pNewVector nodeToNew
  have hmax := hok.edges_le
  have hout := diskAnnReplaceEdgeIdx_outcome math pIndex buf newRowid pNewVector
  have hfits : EdgeFits pIndex ⟨newRowid,
      math.toBits (diskAnnReplaceEdgeIdx math pIndex buf newRowid pNewVector).2,
      pNewVector.pEdge⟩ :=
    ⟨loadVectorPair_edge_type math htype,
      (loadVectorPair_edge_dims math pIndex pVector).trans hdims⟩
  constructor
  · intro hreal
    refine ⟨hout.decides.mp hreal.decides, ?_⟩
    rintro ⟨hfull, hroom, hall⟩
    -- the count of the edges after it would not fit 16 bits
    have hidx := hreal.decides.of_room (fun i hi => (hall i hi).1) (fun i hi => (hall i hi).2) hroom
    have hlist := congrArg List.length (hreal.written _ hidx)
    rw [edgesOf_length, putAt_length, edgesOf_length, if_pos rfl] at hlist
    have hlt' := nodeBinEdges_lt (diskAnnOfferEdge math pIndex buf newRowid pNewVector)
    omega
  · rintro ⟨habove, hwrap⟩
    have hcounts : nodeBinEdges (diskAnnOfferEdge math pIndex buf newRowid pNewVector) ≤
          nodeBinEdges buf + 1 ∧
        nodeBinEdges (diskAnnOfferEdge math pIndex buf newRowid pNewVector) ≤
          nodeEdgesMaxCount pIndex := by
      rcases hidx : (diskAnnReplaceEdgeIdx math pIndex buf newRowid pNewVector).1 with - | iReplace
      · rw [diskAnnOfferEdge_none hidx]
        exact ⟨Nat.le_succ _, hmax⟩
      · obtain ⟨hlist, hslot⟩ := diskAnnOfferEdge_some h hok hidx hfits hwrap
        have hlen := congrArg List.length hlist
        rw [edgesOf_length, putAt_length, edgesOf_length] at hlen
        rw [hlen]
        split_ifs <;> omega
    exact ⟨hout.decides.mpr habove, diskAnnOfferEdge_none,
      fun _ hidx => (diskAnnOfferEdge_some h hok hidx hfits hwrap).1, hcounts.1, hcounts.2⟩

theorem diskAnnReplaceEdgeIdx_decides_twin :
    RealisesDecision wholeMath smallIndex twinBlock 1
      (loadVectorPair wholeMath smallIndex (wholeVector 0)) := by
  obtain ⟨hedges, hok, -⟩ := twinBlock_edges
  have hcount := twinBlock_count
  apply (diskAnnReplaceEdgeIdx_decides wholeMath smallIndex_accepted.ok hok rfl rfl 1).mpr
  refine ⟨?_, fun hfull => by omega⟩
  rintro s p hsp hp - -
  have hlast : (edgesOf smallIndex twinBlock)[1]? = some (nodeBinEdge smallIndex twinBlock 1) :=
    getElem?_edgesOf (by omega)
  rw [hedges] at hlast
  refine ⟨1, by omega, by omega, ?_⟩
  exact congrArg NodeEdge.rowid (Option.some.inj hlast).symm

/-- A block at `10` with an edge to row 1 at `5`, and behind it one to row 2 at `1`. -/
def hiddenBlock : List UInt8 :=
  nodeBinReplaceEdge smallIndex
    (nodeBinReplaceEdge smallIndex (nodeBinInit smallIndex 5 (wholeVector 10)) 0
      ⟨1, bitsOfWhole 5, wholeVector 5⟩) 1 ⟨2, bitsOfWhole 9, wholeVector 1⟩

theorem hiddenBlock_edges :
    edgesOf smallIndex hiddenBlock =
        [⟨1, bitsOfWhole 5, wholeVector 5⟩, ⟨2, bitsOfWhole 9, wholeVector 1⟩] ∧
      BlockOk smallIndex hiddenBlock ∧ nodeBinVector smallIndex hiddenBlock = wholeVector 10 :=
  edgesOf_two _ _ ⟨rfl, rfl⟩ ⟨rfl, rfl⟩ 5 rfl rfl

/-- Row 1 has moved to `0`: the scan ends at the edge to row 2, and the edge to row 1 keeps
the old vector. -/
theorem diskAnnReplaceEdgeIdx_hides : BlockOk smallIndex hiddenBlock ∧
    ¬RealisesDecision wholeMath smallIndex hiddenBlock 1
      (loadVectorPair wholeMath smallIndex (wholeVector 0)) := by
  obtain ⟨hedges, hok, hvec⟩ := hiddenBlock_edges
  refine ⟨hok, ?_⟩
  intro hreal
  have hcount : nodeBinEdges hiddenBlock = 2 := by
    rw [← edgesOf_length smallIndex, hedges]
    rfl
  have hfirst : (edgesOf smallIndex hiddenBlock)[0]? =
      some (nodeBinEdge smallIndex hiddenBlock 0) := getElem?_edgesOf (by omega)
  have hlast : (edgesOf smallIndex hiddenBlock)[1]? =
      some (nodeBinEdge smallIndex hiddenBlock 1) := getElem?_edgesOf (by omega)
  rw [hedges] at hfirst hlast
  obtain ⟨i, -, -, hidx⟩ := hreal.decides.of_same
    ⟨0, by omega, congrArg NodeEdge.rowid (Option.some.inj hfirst).symm⟩
  unfold diskAnnReplaceEdgeIdx at hidx
  simp only [hcount, replaceEdgeLoop, ← Option.some.inj hlast, hvec] at hidx
  rw [if_neg (by decide), if_pos (by decide)] at hidx
  cases hidx

end Decision

end MoVeBench
