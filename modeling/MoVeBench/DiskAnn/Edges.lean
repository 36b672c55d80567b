/-
MoVeBench/DiskAnn/Edges.lean

Choosing and pruning the edges of a node.

`diskAnnReplaceEdgeIdx` scans the edges of a block from the last to the first
and answers where an edge to a new node belongs, or that it should not be
added; `diskAnnPruneEdges` then deletes the edges that the new edge makes
superfluous.  Both leave a block whose edges go to pairwise different rows other
than the node's own (`NodeOk`), and neither invents an edge (`EdgesAll`).
-/
import MoVeBench.DiskAnn.Node

namespace MoVeBench

/-! ### Distances and vector pairs -/

/-- `VectorPair`: a vector in the type of nodes and in the type of edges. -/
structure VectorPair where
  pNode : Vector
  pEdge : Vector

section Model

variable {D : Type} [LT D] [DecidableLT D] (math : VectorMath D) (pIndex : DiskAnnIndex)

/-- `diskAnnVectorDistance`. -/
def diskAnnVectorDistance (pVec1 pVec2 : Vector) : D :=
  math.vectorDistance pIndex.nDistanceFunc pVec1 pVec2

/-- `loadVectorPair`. -/
def loadVectorPair (pVector : Vector) : VectorPair where
  pNode := pVector
  pEdge :=
    if pIndex.nEdgeVectorType ≠ pIndex.nNodeVectorType then
      (math.vectorConvert pVector pIndex.nEdgeVectorType).val
    else pVector

/-- The distance from the node to an edge: stored with the edge, or computed
again in format V1. -/
def nodeToEdgeDistance (pPlaceholder : VectorPair) (edge : NodeEdge) : D :=
  if pIndex.nFormatVersion = 1 then diskAnnVectorDistance math pIndex pPlaceholder.pEdge edge.vector
  else math.ofBits edge.distance

/-! ### Where a new edge goes -/

/-- The loop of `diskAnnReplaceEdgeIdx` over the edges below `i`; `best` is
`iReplace` with `nodeToReplace`, `none` for `-1`. -/
def replaceEdgeLoop (buf : List UInt8) (newRowid : UInt64) (pNewVector pPlaceholder : VectorPair)
    (nodeToNew : D) : ℕ → Option (ℕ × D) → Option ℕ
  | 0, best =>
      -- no edge decided: a free slot, else the farthest edge
      if nodeBinEdges buf < nodeEdgesMaxCount pIndex then some (nodeBinEdges buf)
      else best.map Prod.fst
  | i + 1, best =>
      let edge := nodeBinEdge pIndex buf i
      if edge.rowid = newRowid then some i
      else
        let nodeToEdge := nodeToEdgeDistance math pIndex pPlaceholder edge
        let edgeToNew := diskAnnVectorDistance math pIndex edge.vector pNewVector.pEdge
        -- this edge is closer to the new vector: the new edge is superfluous
        if math.exceedsScaled pIndex.pruningAlpha nodeToNew edgeToNew then none
        -- the farthest edge so far that the new one could replace
        else if nodeToNew < nodeToEdge ∧ ∀ b ∈ best, b.2 < nodeToEdge then
          replaceEdgeLoop buf newRowid pNewVector pPlaceholder nodeToNew i (some (i, nodeToEdge))
        else replaceEdgeLoop buf newRowid pNewVector pPlaceholder nodeToNew i best

/-- `diskAnnReplaceEdgeIdx`: the position, `none` for `-1`, and `*pNodeToNew`. -/
def diskAnnReplaceEdgeIdx (buf : List UInt8) (newRowid : UInt64) (pNewVector : VectorPair) :
    Option ℕ × D :=
  let pPlaceholder := loadVectorPair math pIndex (nodeBinVector pIndex buf)
  let nodeToNew := diskAnnVectorDistance math pIndex pPlaceholder.pEdge pNewVector.pEdge
  (replaceEdgeLoop math pIndex buf newRowid pNewVector pPlaceholder nodeToNew
    (nodeBinEdges buf) none, nodeToNew)

/-! ### Pruning -/

/-- The loop of `diskAnnPruneEdges`; the first argument is `nEdges - i`.  The
vector of the inserted edge is read where it was when the loop began. -/
def pruneEdgesLoop (iInserted : ℕ) (hintRowid : UInt64) (pPlaceholder : VectorPair) :
    ℕ → ℕ → List UInt8 → List UInt8
  | 0, _, buf => buf
  | k + 1, i, buf =>
      let edge := nodeBinEdge pIndex buf i
      if hintRowid = edge.rowid then pruneEdgesLoop iInserted hintRowid pPlaceholder k (i + 1) buf
      else
        let nodeToEdge := nodeToEdgeDistance math pIndex pPlaceholder edge
        let hintToEdge :=
          diskAnnVectorDistance math pIndex (nodeBinEdge pIndex buf iInserted).vector edge.vector
        if math.exceedsScaled pIndex.pruningAlpha nodeToEdge hintToEdge then
          pruneEdgesLoop iInserted hintRowid pPlaceholder k i (nodeBinDeleteEdge pIndex buf i)
        else pruneEdgesLoop iInserted hintRowid pPlaceholder k (i + 1) buf

/-- `diskAnnPruneEdges`. -/
def diskAnnPruneEdges (buf : List UInt8) (iInserted : ℕ) : List UInt8 :=
  let pPlaceholder := loadVectorPair math pIndex (nodeBinVector pIndex buf)
  let hintRowid := (nodeBinEdge pIndex buf iInserted).rowid
  pruneEdgesLoop math pIndex iInserted hintRowid pPlaceholder (nodeBinEdges buf) 0 buf

/-- The round that both passes of `diskAnnInsert` make for one pair of nodes: find
the position of the new edge, write it there and prune; `none` where the edge is
not added. -/
def diskAnnAddEdge (buf : List UInt8) (newRowid : UInt64) (pNewVector : VectorPair) :
    Option (List UInt8) :=
  let r := diskAnnReplaceEdgeIdx math pIndex buf newRowid pNewVector
  r.1.map fun iReplace =>
    diskAnnPruneEdges math pIndex
      (nodeBinReplaceEdge pIndex buf iReplace ⟨newRowid, math.toBits r.2, pNewVector.pEdge⟩)
      iReplace

end Model

/-! ### Blocks with sound edges -/

section Sound

/-- What every stored block of a node satisfies. -/
structure NodeOk (pIndex : DiskAnnIndex) (rowid : UInt64) (buf : List UInt8) : Prop where
  length : buf.length = pIndex.nBlockSize
  rowid_eq : nodeBinRowid buf = rowid
  edges_le : nodeBinEdges buf ≤ nodeEdgesMaxCount pIndex
  distinct : ∀ i j, i < nodeBinEdges buf → j < nodeBinEdges buf →
    (nodeBinEdge pIndex buf i).rowid = (nodeBinEdge pIndex buf j).rowid → i = j
  no_self : ∀ i < nodeBinEdges buf, (nodeBinEdge pIndex buf i).rowid ≠ rowid

/-- Every edge of a block satisfies `P`. -/
def EdgesAll (pIndex : DiskAnnIndex) (P : NodeEdge → Prop) (buf : List UInt8) : Prop :=
  ∀ i < nodeBinEdges buf, P (nodeBinEdge pIndex buf i)

variable {pIndex : DiskAnnIndex} {rowid : UInt64} {buf : List UInt8}

theorem ten_le_blockSize (h : IndexOk pIndex) : 10 ≤ pIndex.nBlockSize := by
  have hslot := slotLayout h (nodeEdgesMaxCount_pos h)
  have := hslot.meta_end
  have := hslot.header
  have := hslot.start
  have := hslot.vector
  have := hslot.meta_start
  omega

theorem NodeOk.init (h : IndexOk pIndex) (rowid : UInt64) (pVector : Vector) :
    NodeOk pIndex rowid (nodeBinInit pIndex rowid pVector) := by
  have hnone := nodeBinEdges_init h rowid pVector
  refine ⟨by simp, nodeBinRowid_init h rowid pVector, by omega, ?_, ?_⟩
  · intro i j hi
    omega
  · intro i hi
    omega

/-- A deleted edge leaves the others, the last one in the place of the deleted. -/
theorem nodeBinEdge_of_deleteEdge (h : IndexOk pIndex) (hok : NodeOk pIndex rowid buf) {iDelete : ℕ}
    (hi : iDelete < nodeBinEdges buf) {j : ℕ} (hj : j < nodeBinEdges buf - 1) :
    nodeBinEdge pIndex (nodeBinDeleteEdge pIndex buf iDelete) j =
      nodeBinEdge pIndex buf (if j = iDelete then nodeBinEdges buf - 1 else j) := by
  have hle := hok.edges_le
  rw [nodeBinEdge_deleteEdge h hok.length hle hi (by omega)]
  split_ifs <;> rfl

theorem nodeBinEdges_of_deleteEdge (h : IndexOk pIndex) (hok : NodeOk pIndex rowid buf)
    (iDelete : ℕ) :
    nodeBinEdges (nodeBinDeleteEdge pIndex buf iDelete) = nodeBinEdges buf - 1 :=
  nodeBinEdges_deleteEdge (hok.length ▸ ten_le_blockSize h)

theorem NodeOk.deleteEdge (h : IndexOk pIndex) (hok : NodeOk pIndex rowid buf) {iDelete : ℕ}
    (hi : iDelete < nodeBinEdges buf) :
    NodeOk pIndex rowid (nodeBinDeleteEdge pIndex buf iDelete) := by
  have hle := hok.edges_le
  have hcount := nodeBinEdges_of_deleteEdge h hok iDelete
  have hsame := @sameNode_deleteEdge pIndex h buf iDelete (by omega)
  refine ⟨hsame.length.trans hok.length, hsame.rowid.trans hok.rowid_eq, by omega, ?_, ?_⟩
  · intro i j hi' hj' heq
    rw [nodeBinEdge_of_deleteEdge h hok hi (by omega),
      nodeBinEdge_of_deleteEdge h hok hi (by omega)] at heq
    have hsrc := hok.distinct _ _ (by split_ifs <;> omega) (by split_ifs <;> omega) heq
    split_ifs at hsrc <;> omega
  · intro i hi'
    rw [nodeBinEdge_of_deleteEdge h hok hi (by omega)]
    exact hok.no_self _ (by split_ifs <;> omega)

theorem EdgesAll.deleteEdge (h : IndexOk pIndex) (hok : NodeOk pIndex rowid buf)
    {P : NodeEdge → Prop} (hP : EdgesAll pIndex P buf) {iDelete : ℕ}
    (hi : iDelete < nodeBinEdges buf) :
    EdgesAll pIndex P (nodeBinDeleteEdge pIndex buf iDelete) := by
  intro j hj
  rw [nodeBinEdges_of_deleteEdge h hok] at hj
  rw [nodeBinEdge_of_deleteEdge h hok hi hj]
  exact hP _ (by split_ifs <;> omega)

/-- An edge in a free slot behind the last, or over an edge to the same row, or
over any edge where no edge goes to the new row. -/
def FitsAt (pIndex : DiskAnnIndex) (buf : List UInt8) (iReplace : ℕ) (newRowid : UInt64) : Prop :=
  iReplace < nodeEdgesMaxCount pIndex ∧ iReplace ≤ nodeBinEdges buf ∧
    ∀ i < nodeBinEdges buf, (nodeBinEdge pIndex buf i).rowid = newRowid → i = iReplace

/-- What the count says of the slots in use after a replacement. -/
theorem lt_of_lt_replaceEdge (h : IndexOk pIndex) (hlen : buf.length = pIndex.nBlockSize)
    {iReplace i : ℕ} {edge : NodeEdge}
    (hi : i < nodeBinEdges (nodeBinReplaceEdge pIndex buf iReplace edge)) :
    i < nodeBinEdges buf ∨ i = iReplace ∧ iReplace = nodeBinEdges buf := by
  rw [nodeBinEdges_replaceEdge (hlen ▸ ten_le_blockSize h)] at hi
  have hlt := nodeBinEdges_lt buf
  split_ifs at hi <;> omega

theorem NodeOk.replaceEdge (h : IndexOk pIndex) (hok : NodeOk pIndex rowid buf) {iReplace : ℕ}
    {edge : NodeEdge} (htype : edge.vector.type = pIndex.nEdgeVectorType)
    (hdims : edge.vector.dims = pIndex.nVectorDims)
    (hfits : FitsAt pIndex buf iReplace edge.rowid) (hself : edge.rowid ≠ rowid) :
    NodeOk pIndex rowid (nodeBinReplaceEdge pIndex buf iReplace edge) := by
  obtain ⟨hmax, hle, hother⟩ := hfits
  have hcount := hok.edges_le
  have hsame : SameNode pIndex (nodeBinReplaceEdge pIndex buf iReplace edge) buf :=
    sameNode_replaceEdge h htype hdims hmax
  have hslot : ∀ {i : ℕ}, i < nodeBinEdges (nodeBinReplaceEdge pIndex buf iReplace edge) →
      nodeBinEdge pIndex (nodeBinReplaceEdge pIndex buf iReplace edge) i =
        if i = iReplace then edge else nodeBinEdge pIndex buf i := by
    intro i hi
    have hi' := lt_of_lt_replaceEdge h hok.length hi
    exact nodeBinEdge_replaceEdge h hok.length htype hdims hmax (by omega)
  refine ⟨hsame.length.trans hok.length, hsame.rowid.trans hok.rowid_eq, ?_, ?_, ?_⟩
  · rw [nodeBinEdges_replaceEdge (hok.length ▸ ten_le_blockSize h)]
    split_ifs <;> omega
  · intro i j hi hj heq
    rw [hslot hi, hslot hj] at heq
    have hi' := lt_of_lt_replaceEdge h hok.length hi
    have hj' := lt_of_lt_replaceEdge h hok.length hj
    split_ifs at heq with h1 h2 h2
    · omega
    · exact absurd (hother j (by omega) heq.symm) h2
    · exact absurd (hother i (by omega) heq) h1
    · exact hok.distinct i j (by omega) (by omega) heq
  · intro i hi
    have hi' := lt_of_lt_replaceEdge h hok.length hi
    rw [hslot hi]
    split_ifs with h1
    · exact hself
    · exact hok.no_self i (by omega)

theorem EdgesAll.replaceEdge (h : IndexOk pIndex) (hok : NodeOk pIndex rowid buf)
    {P : NodeEdge → Prop} (hP : EdgesAll pIndex P buf) {iReplace : ℕ}
    {edge : NodeEdge} (htype : edge.vector.type = pIndex.nEdgeVectorType)
    (hdims : edge.vector.dims = pIndex.nVectorDims) (hmax : iReplace < nodeEdgesMaxCount pIndex)
    (hedge : P edge) : EdgesAll pIndex P (nodeBinReplaceEdge pIndex buf iReplace edge) := by
  intro i hi
  have hi' := lt_of_lt_replaceEdge h hok.length hi
  have hcount := hok.edges_le
  rw [nodeBinEdge_replaceEdge h hok.length htype hdims hmax (by omega)]
  split_ifs with h1
  · exact hedge
  · exact hP i (by omega)

/-! ### The two loops -/

variable {D : Type} {math : VectorMath D}

theorem loadVectorPair_edge_type (math : VectorMath D) {pVector : Vector}
    (h : pVector.type = pIndex.nNodeVectorType) :
    (loadVectorPair math pIndex pVector).pEdge.type = pIndex.nEdgeVectorType := by
  unfold loadVectorPair
  simp only
  split_ifs with htype
  · exact (math.vectorConvert pVector pIndex.nEdgeVectorType).property.1
  · rw [h]
    exact (not_not.mp htype).symm

theorem loadVectorPair_edge_dims (math : VectorMath D) (pIndex : DiskAnnIndex)
    (pVector : Vector) :
    (loadVectorPair math pIndex pVector).pEdge.dims = pVector.dims := by
  unfold loadVectorPair
  simp only
  split_ifs
  · exact (math.vectorConvert pVector pIndex.nEdgeVectorType).property.2
  · rfl

/-- **Pruning only deletes edges**: what every deletion keeps, pruning keeps. -/
theorem diskAnnPruneEdges_induct {Q : List UInt8 → Prop}
    (hcount : ∀ buf i, Q buf → i < nodeBinEdges buf →
      nodeBinEdges (nodeBinDeleteEdge pIndex buf i) = nodeBinEdges buf - 1)
    (hdelete : ∀ buf i, Q buf → i < nodeBinEdges buf → Q (nodeBinDeleteEdge pIndex buf i))
    {buf : List UInt8} (hbuf : Q buf) (iInserted : ℕ) :
    Q (diskAnnPruneEdges math pIndex buf iInserted) := by
  have hloop : ∀ (hintRowid : UInt64) (pPlaceholder : VectorPair) (k i : ℕ) (buf : List UInt8),
      Q buf → nodeBinEdges buf = i + k →
      Q (pruneEdgesLoop math pIndex iInserted hintRowid pPlaceholder k i buf) := by
    intro hintRowid pPlaceholder k
    induction k with
    | zero => exact fun i buf hbuf _ => hbuf
    | succ k ih =>
        intro i buf hbuf hk
        simp only [pruneEdgesLoop]
        split_ifs with hhint hfar
        · exact ih (i + 1) buf hbuf (by omega)
        · refine ih i _ (hdelete buf i hbuf (by omega)) ?_
          rw [hcount buf i hbuf (by omega)]
          omega
        · exact ih (i + 1) buf hbuf (by omega)
  exact hloop _ _ _ _ _ hbuf (by omega)

/-- A block in which pruning keeps the edges sound, and every edge as `P` says. -/
theorem NodeOk.pruneEdges (math : VectorMath D) (h : IndexOk pIndex) (hok : NodeOk pIndex rowid buf)
    {P : NodeEdge → Prop} (hP : EdgesAll pIndex P buf) (iInserted : ℕ) :
    NodeOk pIndex rowid (diskAnnPruneEdges math pIndex buf iInserted) ∧
      EdgesAll pIndex P (diskAnnPruneEdges math pIndex buf iInserted) ∧
      nodeBinVector pIndex (diskAnnPruneEdges math pIndex buf iInserted) =
        nodeBinVector pIndex buf := by
  refine diskAnnPruneEdges_induct (Q := fun buf' => NodeOk pIndex rowid buf' ∧
    EdgesAll pIndex P buf' ∧ nodeBinVector pIndex buf' = nodeBinVector pIndex buf) ?_ ?_
    ⟨hok, hP, rfl⟩ iInserted
  · exact fun buf' i hQ _ => nodeBinEdges_of_deleteEdge h hQ.1 i
  · rintro buf' i ⟨hok', hP', hvec⟩ hi
    have hle := hok'.edges_le
    have hsame := @sameNode_deleteEdge pIndex h buf' i (by omega)
    exact ⟨hok'.deleteEdge h hi, hP'.deleteEdge h hok' hi, hsame.vector.trans hvec⟩

theorem NodeOk.replaceAndPrune (math : VectorMath D) (h : IndexOk pIndex)
    (hok : NodeOk pIndex rowid buf) {P : NodeEdge → Prop} (hP : EdgesAll pIndex P buf)
    {iReplace : ℕ} {edge : NodeEdge} (htype : edge.vector.type = pIndex.nEdgeVectorType)
    (hdims : edge.vector.dims = pIndex.nVectorDims)
    (hfits : FitsAt pIndex buf iReplace edge.rowid) (hself : edge.rowid ≠ rowid) (hedge : P edge) :
    let buf' := diskAnnPruneEdges math pIndex (nodeBinReplaceEdge pIndex buf iReplace edge) iReplace
    NodeOk pIndex rowid buf' ∧ EdgesAll pIndex P buf' ∧
      nodeBinVector pIndex buf' = nodeBinVector pIndex buf := by
  have hsame := @sameNode_replaceEdge pIndex h buf iReplace edge htype hdims hfits.1
  obtain ⟨hok', hP', hvec⟩ := (hok.replaceEdge h htype hdims hfits hself).pruneEdges math h
    (hP.replaceEdge h hok htype hdims hfits.1 hedge) iReplace
  exact ⟨hok', hP', hvec.trans hsame.vector⟩

variable [LT D] [DecidableLT D]

/-- The scan answers a position where an edge to the new row fits: nothing at or
above `i` goes to that row. -/
theorem replaceEdgeLoop_fits {newRowid : UInt64} {pNewVector pPlaceholder : VectorPair}
    {nodeToNew : D} {i : ℕ} {best : Option (ℕ × D)} {iReplace : ℕ}
    (hdistinct : ∀ i j, i < nodeBinEdges buf → j < nodeBinEdges buf →
      (nodeBinEdge pIndex buf i).rowid = (nodeBinEdge pIndex buf j).rowid → i = j)
    (hle : nodeBinEdges buf ≤ nodeEdgesMaxCount pIndex) (hi : i ≤ nodeBinEdges buf)
    (hbest : ∀ b ∈ best, b.1 < nodeBinEdges buf)
    (habove : ∀ j, i ≤ j → j < nodeBinEdges buf → (nodeBinEdge pIndex buf j).rowid ≠ newRowid)
    (h : replaceEdgeLoop math pIndex buf newRowid pNewVector pPlaceholder nodeToNew i best =
      some iReplace) :
    FitsAt pIndex buf iReplace newRowid := by
  induction i generalizing best with
  | zero =>
      have hnone : ∀ j < nodeBinEdges buf, (nodeBinEdge pIndex buf j).rowid = newRowid →
          j = iReplace := fun j hj heq => absurd heq (habove j (Nat.zero_le j) hj)
      unfold replaceEdgeLoop at h
      split_ifs at h with hfree
      · obtain rfl := Option.some.inj h
        exact ⟨hfree, le_rfl, hnone⟩
      · obtain ⟨b, hb, rfl⟩ := Option.map_eq_some_iff.mp h
        have hlt := hbest b hb
        exact ⟨by omega, by omega, hnone⟩
  | succ i ih =>
      have hbelow : (nodeBinEdge pIndex buf i).rowid ≠ newRowid →
          ∀ j, i ≤ j → j < nodeBinEdges buf → (nodeBinEdge pIndex buf j).rowid ≠ newRowid := by
        intro hne j hij hj
        rcases Nat.eq_or_lt_of_le hij with rfl | hlt
        · exact hne
        · exact habove j hlt hj
      simp only [replaceEdgeLoop] at h
      split_ifs at h with hrow hskip hfar
      · obtain rfl := Option.some.inj h
        -- the slot of the edge to the same row: there is no second one
        refine ⟨by omega, by omega, fun j hj heq => ?_⟩
        exact hdistinct j i hj (by omega) (heq.trans hrow.symm)
      · refine ih (by omega) ?_ (hbelow hrow) h
        rintro b ⟨⟩
        exact hi
      · exact ih (by omega) hbest (hbelow hrow) h

/-- **`diskAnnReplaceEdgeIdx` answers a position that fits.** -/
theorem diskAnnReplaceEdgeIdx_fits (hok : NodeOk pIndex rowid buf) {newRowid : UInt64}
    {pNewVector : VectorPair} {iReplace : ℕ}
    (h : (diskAnnReplaceEdgeIdx math pIndex buf newRowid pNewVector).1 = some iReplace) :
    FitsAt pIndex buf iReplace newRowid :=
  replaceEdgeLoop_fits hok.distinct hok.edges_le le_rfl (by simp)
    (fun _ hj hj' => absurd hj' (by omega)) h

/-- Adding an edge keeps a block sound, and changes no edge but the new one. -/
theorem NodeOk.addEdge (h : IndexOk pIndex) (hok : NodeOk pIndex rowid buf)
    {P : NodeEdge → Prop} (hP : EdgesAll pIndex P buf) {newRowid : UInt64} {pVector : Vector}
    {buf' : List UInt8} (htype : pVector.type = pIndex.nNodeVectorType)
    (hdims : pVector.dims = pIndex.nVectorDims) (hself : newRowid ≠ rowid)
    (hedge : ∀ d, P ⟨newRowid, d, (loadVectorPair math pIndex pVector).pEdge⟩)
    (hadd : diskAnnAddEdge math pIndex buf newRowid (loadVectorPair math pIndex pVector) =
      some buf') :
    NodeOk pIndex rowid buf' ∧ EdgesAll pIndex P buf' ∧
      nodeBinVector pIndex buf' = nodeBinVector pIndex buf := by
  have htype' := loadVectorPair_edge_type math htype
  have hdims' := (loadVectorPair_edge_dims math pIndex pVector).trans hdims
  unfold diskAnnAddEdge at hadd
  obtain ⟨iReplace, hidx, rfl⟩ := Option.map_eq_some_iff.mp hadd
  have hfits := diskAnnReplaceEdgeIdx_fits hok hidx
  exact hok.replaceAndPrune math h hP htype' hdims' hfits hself (hedge _)

end Sound

end MoVeBench
