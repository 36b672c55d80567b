/-
MoVeBench/DiskAnn/Update.lean

`diskAnnInsert` and `diskAnnDelete`, and what they do to the graph.

An insertion searches for the new vector, adds the row, and then makes two
passes over the visited nodes: the first offers them as neighbours of the new
node, the second offers the new node to each of them.  A deletion removes the
edges back to the deleted node from its own neighbours only; edges from other
nodes stay and point to a row that is gone.

`GraphOk` says of all stored blocks that they are sound (`NodeOk`) and that
every edge satisfies a given predicate.  Both operations keep it
(`diskAnnInsert_graph`, `diskAnnDelete_graph`), together with the vector of
every row that they are not about.
-/
import MoVeBench.DiskAnn.Search
import MoVeBench.DiskAnn.SelectRow

namespace MoVeBench

/-- `VectorInRow`, with a key that is a rowid. -/
structure VectorInRow where
  nRowid : UInt64
  pVector : Vector

/-- An open index: the store, and the estimate `nShadowRows`. -/
structure IndexState where
  kv : Kv
  nShadowRows : ℤ

section Model

variable {D : Type} [LT D] [DecidableLT D] (math : VectorMath D) (pIndex : DiskAnnIndex)

/-! ### Insertion -/

/-- First pass: the visited nodes as neighbours of the new node, whose block is
`buf`. -/
def insertPass1 : List (DiskAnnNode × D) → List UInt8 → List UInt8
  | [], buf => buf
  | (pVisited, _) :: visitedList, buf =>
      match pVisited.pBlobSpot with
      | none => insertPass1 visitedList buf
      | some spot =>
          let vCandidate := loadVectorPair math pIndex (nodeBinVector pIndex spot.pBuffer)
          insertPass1 visitedList
            ((diskAnnAddEdge math pIndex buf pVisited.nRowid vCandidate).getD buf)

/-- Second pass: the new node as neighbour of every visited node. -/
def insertPass2 (nNewRowid : UInt64) (vInsert : VectorPair) : List (DiskAnnNode × D) → Kv → Kv
  | [], kv => kv
  | (pVisited, _) :: visitedList, kv =>
      match pVisited.pBlobSpot with
      | none => insertPass2 nNewRowid vInsert visitedList kv
      | some spot =>
          match diskAnnAddEdge math pIndex spot.pBuffer nNewRowid vInsert with
          | none => insertPass2 nNewRowid vInsert visitedList kv
          | some pBuffer =>
              insertPass2 nNewRowid vInsert visitedList
                (blobSpotFlush pIndex kv { spot with pBuffer })

/-- The part of `diskAnnInsert` behind the search: the new row, its edges, and
the edges to it. -/
def insertNode (kv : Kv) (pVectorInRow : VectorInRow) (visitedList : List (DiskAnnNode × D)) :
    Except VectorError Kv :=
  match diskAnnInsertShadowRow pIndex kv pVectorInRow.nRowid with
  | .error rc => .error ⟨rc, "vector index(insert): failed to insert shadow row"⟩
  | .ok kv =>
      let pBlobSpot := blobSpotCreate pIndex pVectorInRow.nRowid
      let buf := nodeBinInit pIndex pVectorInRow.nRowid pVectorInRow.pVector
      let buf := insertPass1 math pIndex visitedList buf
      let vInsert := loadVectorPair math pIndex pVectorInRow.pVector
      let kv := insertPass2 math pIndex pVectorInRow.nRowid vInsert visitedList kv
      .ok (blobSpotFlush pIndex kv { pBlobSpot with pBuffer := buf })

/-- `diskAnnInsert`, for the answer `select` of `diskAnnSelectRandomShadowRow`.
Without a first row there is nothing to search and nothing to connect. -/
def diskAnnInsertFrom (kv : Kv) (select : Except Rc UInt64) (pVectorInRow : VectorInRow) :
    Except VectorError Kv :=
  let pVector := pVectorInRow.pVector
  if pVector.dims ≠ pIndex.nVectorDims then
    .error ⟨.error, s!"vector index(insert): dimensions are different: {pVector.dims} != {pIndex.nVectorDims}"⟩
  else if pVector.type ≠ pIndex.nNodeVectorType then
    .error ⟨.error, s!"vector index(insert): vector type differs from column type: {pVector.type.code} != {pIndex.nNodeVectorType.code}"⟩
  else
    match diskAnnSearchCtxInit math pIndex pVector pIndex.insertL 1 .writable with
    | none => .error ⟨.nomem, "vector index(insert): failed to initialize search context"⟩
    | some pCtx =>
        match select with
        -- the table is empty: the row gets no edges
        | .error .done => insertNode math pIndex kv pVectorInRow []
        | .error _ => .error ⟨.error, "vector index(insert): failed to select start node for search"⟩
        | .ok nStartRowid =>
            match diskAnnSearchInternal math pIndex kv pCtx nStartRowid with
            | .error e => .error e
            | .ok pCtx => insertNode math pIndex kv pVectorInRow pCtx.visitedList

/-- `diskAnnInsert`, for the random value `randVal`. -/
def diskAnnInsert (s : IndexState) (randVal : UInt64) (pVectorInRow : VectorInRow) :
    Except VectorError IndexState :=
  match diskAnnInsertFrom math pIndex s.kv
      (diskAnnSelectRandomShadowRow pIndex s.kv s.nShadowRows randVal) pVectorInRow with
  | .error e => .error e
  | .ok kv => .ok { kv, nShadowRows := s.nShadowRows + 1 }

/-! ### Search -/

/-- The loop of `diskAnnDelete` over the edges `is` of the deleted node, whose
block is `nodeBuf`; `pEdgeBlob` is the spot that every neighbour is loaded
into. -/
def deleteEdges (nodeRowid : UInt64) (nodeBuf : List UInt8) :
    List ℕ → Kv → BlobSpot → Except VectorError Kv
  | [], kv, _ => .ok kv
  | i :: is, kv, pEdgeBlob =>
      let r := blobSpotReload pIndex kv pEdgeBlob (nodeBinEdge pIndex nodeBuf i).rowid
      match r.1 with
      | some .rowNotFound => deleteEdges nodeRowid nodeBuf is kv r.2
      | some rc =>
          .error ⟨rc, s!"vector index(delete): failed to reload blob for edge row: {rc.code}"⟩
      | none =>
          match nodeBinEdgeFindIdx pIndex r.2.pBuffer nodeRowid with
          | none => deleteEdges nodeRowid nodeBuf is kv r.2
          | some iDelete =>
              let pEdgeBlob :=
                { r.2 with pBuffer := nodeBinDeleteEdge pIndex r.2.pBuffer iDelete }
              deleteEdges nodeRowid nodeBuf is (blobSpotFlush pIndex kv pEdgeBlob) pEdgeBlob

/-- `diskAnnDelete`.  A row that is not in the table is no error. -/
def diskAnnDelete (s : IndexState) (nodeRowid : UInt64) : Except VectorError IndexState :=
  let r := blobSpotReload pIndex s.kv (blobSpotCreate pIndex nodeRowid) nodeRowid
  match r.1 with
  | some .rowNotFound => .ok s
  | some rc => .error ⟨rc, "vector index(delete): failed to reload blob for node row"⟩
  | none =>
      let nodeBuf := r.2.pBuffer
      match deleteEdges pIndex nodeRowid nodeBuf (List.range (nodeBinEdges nodeBuf)) s.kv
          (blobSpotCreate pIndex nodeRowid) with
      | .error e => .error e
      | .ok kv =>
          .ok
            { kv := diskAnnDeleteShadowRow pIndex kv nodeRowid
              nShadowRows := if s.nShadowRows > 0 then s.nShadowRows - 1 else s.nShadowRows }

end Model

/-! ### The stored graph -/

section Graph

variable {D : Type} {math : VectorMath D} {pIndex : DiskAnnIndex} {kv : Kv} {P : NodeEdge → Prop}

/-- The vector in the node of a row. -/
def storedVector (pIndex : DiskAnnIndex) (kv : Kv) (r : UInt64) : Option Vector :=
  match blobSpotRead pIndex kv r with
  | .ok buf => some (nodeBinVector pIndex buf)
  | .error _ => none

/-- The row has a sound block whose edges satisfy `P`. -/
def NodeStored (pIndex : DiskAnnIndex) (kv : Kv) (P : NodeEdge → Prop) (r : UInt64) : Prop :=
  ∃ buf, blobSpotRead pIndex kv r = .ok buf ∧ NodeOk pIndex r buf ∧ EdgesAll pIndex P buf

/-- Every row has a sound block whose edges satisfy `P`. -/
def GraphOk (pIndex : DiskAnnIndex) (kv : Kv) (P : NodeEdge → Prop) : Prop :=
  ∀ r, HasRow pIndex kv r → NodeStored pIndex kv P r

/-- The same rows with the same vectors. -/
structure SameVectors (pIndex : DiskAnnIndex) (kv kv' : Kv) : Prop where
  rows : ∀ r, HasRow pIndex kv' r ↔ HasRow pIndex kv r
  vector : ∀ r, storedVector pIndex kv' r = storedVector pIndex kv r

theorem SameVectors.refl (pIndex : DiskAnnIndex) (kv : Kv) : SameVectors pIndex kv kv :=
  ⟨fun _ => Iff.rfl, fun _ => rfl⟩

theorem SameVectors.trans {kv' kv'' : Kv} (h : SameVectors pIndex kv kv')
    (h' : SameVectors pIndex kv' kv'') : SameVectors pIndex kv kv'' :=
  ⟨fun r => (h'.rows r).trans (h.rows r), fun r => (h'.vector r).trans (h.vector r)⟩

theorem storedVector_of_read {r : UInt64} {buf : List UInt8}
    (h : blobSpotRead pIndex kv r = .ok buf) :
    storedVector pIndex kv r = some (nodeBinVector pIndex buf) := by
  rw [storedVector, h]

theorem storedVector_congr {kv' : Kv} {r : UInt64}
    (h : blobSpotRead pIndex kv' r = blobSpotRead pIndex kv r) :
    storedVector pIndex kv' r = storedVector pIndex kv r := by
  rw [storedVector, h, storedVector]

/-- What is read after a flush. -/
theorem blobSpotRead_flush (h : IndexOk pIndex) (kv : Kv) {spot : BlobSpot}
    (hlen : spot.pBuffer.length = pIndex.nBlockSize) (r : UInt64) :
    blobSpotRead pIndex (blobSpotFlush pIndex kv spot) r =
      if r = spot.nRowid then .ok spot.pBuffer else blobSpotRead pIndex kv r :=
  blobSpotRead_put h.blockSize_le hlen r

/-- Flushing a sound block with the same vector over a stored one. -/
theorem flush_sameVectors (h : IndexOk pIndex) (spot : BlobSpot) {old : List UInt8}
    (hread : blobSpotRead pIndex kv spot.nRowid = .ok old)
    (hok : NodeOk pIndex spot.nRowid spot.pBuffer)
    (hvec : nodeBinVector pIndex spot.pBuffer = nodeBinVector pIndex old) :
    SameVectors pIndex kv (blobSpotFlush pIndex kv spot) := by
  refine ⟨fun r => ?_, fun r => ?_⟩
  · refine hasRow_put.trans ⟨?_, .inr⟩
    rintro (rfl | hr)
    · exact hasRow_of_read hread
    · exact hr
  · have hput := blobSpotRead_flush h kv hok.length r
    split_ifs at hput with hr
    · subst hr
      rw [storedVector_of_read hput, storedVector_of_read hread, hvec]
    · exact storedVector_congr hput

theorem NodeStored.flush (h : IndexOk pIndex) (spot : BlobSpot)
    (hok : NodeOk pIndex spot.nRowid spot.pBuffer) (hP : EdgesAll pIndex P spot.pBuffer)
    {r : UInt64} (hr : r ≠ spot.nRowid → NodeStored pIndex kv P r) :
    NodeStored pIndex (blobSpotFlush pIndex kv spot) P r := by
  have hput := blobSpotRead_flush h kv hok.length r
  split_ifs at hput with heq
  · exact ⟨spot.pBuffer, hput, heq ▸ hok, hP⟩
  · obtain ⟨buf, hread, hnode⟩ := hr heq
    exact ⟨buf, hput.trans hread, hnode⟩

/-! ### Insertion keeps the graph -/

/-- A node as the search of an insertion leaves it: with the block of its row. -/
def Visited (pIndex : DiskAnnIndex) (kv : Kv) (node : DiskAnnNode) : Prop :=
  ∃ spot, node.pBlobSpot = some spot ∧ spot.nRowid = node.nRowid ∧
    blobSpotRead pIndex kv node.nRowid = .ok spot.pBuffer

variable [LT D] [DecidableLT D]

theorem insertPass1_node (h : IndexOk pIndex) {nNewRowid : UInt64}
    {visitedList : List (DiskAnnNode × D)}
    (hvisited : ∀ p ∈ visitedList, Visited pIndex kv p.1 ∧ p.1.nRowid ≠ nNewRowid)
    (hedge : ∀ r buf d, blobSpotRead pIndex kv r = .ok buf → r ≠ nNewRowid →
      P ⟨r, d, (loadVectorPair math pIndex (nodeBinVector pIndex buf)).pEdge⟩)
    {buf : List UInt8} (hok : NodeOk pIndex nNewRowid buf) (hP : EdgesAll pIndex P buf) :
    NodeOk pIndex nNewRowid (insertPass1 math pIndex visitedList buf) ∧
      EdgesAll pIndex P (insertPass1 math pIndex visitedList buf) ∧
      nodeBinVector pIndex (insertPass1 math pIndex visitedList buf) =
        nodeBinVector pIndex buf := by
  induction visitedList generalizing buf with
  | nil => exact ⟨hok, hP, rfl⟩
  | cons p visitedList ih =>
      obtain ⟨pVisited, d⟩ := p
      obtain ⟨⟨spot, hspot, -, hread⟩, hne⟩ := hvisited (pVisited, d) (by simp)
      have hrest : ∀ q ∈ visitedList, Visited pIndex kv q.1 ∧ q.1.nRowid ≠ nNewRowid :=
        fun q hq => hvisited q (by simp [hq])
      simp only at hspot hread hne
      simp only [insertPass1, hspot]
      rcases hadd : diskAnnAddEdge math pIndex buf pVisited.nRowid
        (loadVectorPair math pIndex (nodeBinVector pIndex spot.pBuffer)) with - | buf'
      · exact ih hrest hok hP
      · obtain ⟨hok', hP', hvec⟩ := hok.addEdge h hP rfl rfl hne
          (fun d => hedge _ _ d hread hne) hadd
        obtain ⟨hok'', hP'', hvec'⟩ := ih hrest hok' hP'
        exact ⟨hok'', hP'', hvec'.trans hvec⟩

theorem insertPass2_graph (h : IndexOk pIndex) {nNewRowid : UInt64} {pVector : Vector}
    (htype : pVector.type = pIndex.nNodeVectorType) (hdims : pVector.dims = pIndex.nVectorDims)
    {visitedList : List (DiskAnnNode × D)}
    (hvisited : ∀ p ∈ visitedList, Visited pIndex kv p.1 ∧ p.1.nRowid ≠ nNewRowid)
    (honce : (nodeRows visitedList).Nodup)
    (hedge : ∀ d, P ⟨nNewRowid, d, (loadVectorPair math pIndex pVector).pEdge⟩)
    (hgraph : ∀ r, r ≠ nNewRowid → HasRow pIndex kv r → NodeStored pIndex kv P r) :
    let kv' := insertPass2 math pIndex nNewRowid (loadVectorPair math pIndex pVector)
      visitedList kv
    (∀ r, r ≠ nNewRowid → HasRow pIndex kv' r → NodeStored pIndex kv' P r) ∧
      SameVectors pIndex kv kv' := by
  induction visitedList generalizing kv with
  | nil => exact ⟨hgraph, SameVectors.refl pIndex kv⟩
  | cons p visitedList ih =>
      obtain ⟨pVisited, d⟩ := p
      obtain ⟨⟨spot, hspot, hrow, hread⟩, hne⟩ := hvisited (pVisited, d) (by simp)
      have hrest : ∀ q ∈ visitedList, Visited pIndex kv q.1 ∧ q.1.nRowid ≠ nNewRowid :=
        fun q hq => hvisited q (by simp [hq])
      obtain ⟨hnotin, honce'⟩ := List.nodup_cons.mp honce
      simp only at hspot hrow hread hne hnotin
      simp only [insertPass2, hspot]
      rcases hadd : diskAnnAddEdge math pIndex spot.pBuffer nNewRowid
        (loadVectorPair math pIndex pVector) with - | pBuffer
      · -- the neighbour does not take the edge
        exact ih hrest honce' hgraph
      · rw [← hrow] at hread hne hnotin
        obtain ⟨buf, hbuf, hok, hP⟩ := hgraph spot.nRowid hne (hasRow_of_read hread)
        obtain rfl : buf = spot.pBuffer := Except.ok.inj (hbuf.symm.trans hread)
        obtain ⟨hok', hP', hvec⟩ := hok.addEdge h hP htype hdims (Ne.symm hne) hedge hadd
        have hsame := flush_sameVectors h { spot with pBuffer } hread hok' hvec
        -- the nodes that follow are other rows, so their spots still hold their blocks
        have hvisited' : ∀ q ∈ visitedList,
            Visited pIndex (blobSpotFlush pIndex kv { spot with pBuffer }) q.1 ∧
              q.1.nRowid ≠ nNewRowid := by
          intro q hq
          obtain ⟨⟨spot', hspot', hrow', hread'⟩, hne'⟩ := hrest q hq
          have hother : q.1.nRowid ≠ spot.nRowid := fun heq =>
            hnotin (heq ▸ List.mem_map_of_mem (f := fun q => q.1.nRowid) hq)
          have hput := @blobSpotRead_flush pIndex h kv { spot with pBuffer } hok'.length q.1.nRowid
          rw [if_neg hother] at hput
          exact ⟨⟨spot', hspot', hrow', hput.trans hread'⟩, hne'⟩
        obtain ⟨hgraph', hsame'⟩ := ih hvisited' honce' fun r hr hrow =>
          NodeStored.flush h { spot with pBuffer } hok' hP' fun _ =>
            hgraph r hr ((hsame.rows r).mp hrow)
        exact ⟨hgraph', hsame.trans hsame'⟩

/-- What an insertion leaves: the graph with the new row and its vector. -/
structure Inserted (pIndex : DiskAnnIndex) (kv kv' : Kv) (P : NodeEdge → Prop)
    (row : VectorInRow) : Prop where
  absent : ¬ HasRow pIndex kv row.nRowid
  graph : GraphOk pIndex kv' P
  rows : ∀ r, HasRow pIndex kv' r ↔ r = row.nRowid ∨ HasRow pIndex kv r
  vector : ∀ r, storedVector pIndex kv' r =
    if r = row.nRowid then some row.pVector else storedVector pIndex kv r

theorem insertNode_graph (h : IndexOk pIndex) {row : VectorInRow}
    (htype : row.pVector.type = pIndex.nNodeVectorType)
    (hdims : row.pVector.dims = pIndex.nVectorDims) {visitedList : List (DiskAnnNode × D)}
    (hvisited : ∀ p ∈ visitedList, Visited pIndex kv p.1)
    (honce : (nodeRows visitedList).Nodup) (hgraph : GraphOk pIndex kv P)
    (hold : ∀ r buf d, blobSpotRead pIndex kv r = .ok buf → r ≠ row.nRowid →
      P ⟨r, d, (loadVectorPair math pIndex (nodeBinVector pIndex buf)).pEdge⟩)
    (hnew : ∀ d, P ⟨row.nRowid, d, (loadVectorPair math pIndex row.pVector).pEdge⟩)
    {kv' : Kv} (hins : insertNode math pIndex kv row visitedList = .ok kv') :
    Inserted pIndex kv kv' P row := by
  unfold insertNode diskAnnInsertShadowRow at hins
  split_ifs at hins with habsent
  simp only [Except.ok.injEq] at hins
  obtain ⟨kv₁, hkv₁⟩ : ∃ kv₁, kv₁ = kv.insert (blobSpotBuildKey pIndex row.nRowid)
    (blobSpotEncodeRecord row.nRowid (List.replicate pIndex.nBlockSize 0)) := ⟨_, rfl⟩
  rw [← hkv₁] at hins
  -- a row of zeros is put in first
  have hread₁ : ∀ r, r ≠ row.nRowid → blobSpotRead pIndex kv₁ r = blobSpotRead pIndex kv r := by
    intro r hr
    rw [hkv₁, blobSpotRead_put h.blockSize_le (List.length_replicate ..), if_neg hr]
  have hrows₁ : ∀ r, HasRow pIndex kv₁ r ↔ r = row.nRowid ∨ HasRow pIndex kv r := fun r => by
    rw [hkv₁]
    exact hasRow_put
  -- the row was absent, so no visited node is its own
  have hne : ∀ p ∈ visitedList, p.1.nRowid ≠ row.nRowid := by
    intro p hp heq
    obtain ⟨spot, -, -, hread⟩ := hvisited p hp
    exact habsent (heq ▸ hasRow_of_read hread)
  have hvisited₁ : ∀ p ∈ visitedList, Visited pIndex kv₁ p.1 ∧ p.1.nRowid ≠ row.nRowid := by
    intro p hp
    obtain ⟨spot, hspot, hrow, hread⟩ := hvisited p hp
    exact ⟨⟨spot, hspot, hrow, (hread₁ _ (hne p hp)).trans hread⟩, hne p hp⟩
  have hgraph₁ : ∀ r, r ≠ row.nRowid → HasRow pIndex kv₁ r → NodeStored pIndex kv₁ P r := by
    intro r hr hrow
    obtain ⟨buf, hread, hnode⟩ := hgraph r (((hrows₁ r).mp hrow).resolve_left hr)
    exact ⟨buf, (hread₁ r hr).trans hread, hnode⟩
  -- the neighbours are offered the new row, and it their vectors
  obtain ⟨hgraph₂, hsame⟩ := insertPass2_graph h htype hdims hvisited₁ honce hnew hgraph₁
  have hempty : EdgesAll pIndex P (nodeBinInit pIndex row.nRowid row.pVector) := by
    intro i hi
    rw [nodeBinEdges_init h] at hi
    omega
  obtain ⟨hok, hP, hvec⟩ := insertPass1_node h hvisited₁
    (fun r buf d hread hr => hold r buf d ((hread₁ r hr).symm.trans hread) hr)
    (NodeOk.init h row.nRowid row.pVector) hempty
  obtain ⟨spot, hspot⟩ : ∃ spot : BlobSpot, spot =
    { blobSpotCreate pIndex row.nRowid with
      pBuffer := insertPass1 math pIndex visitedList
        (nodeBinInit pIndex row.nRowid row.pVector) } := ⟨_, rfl⟩
  have hrow : spot.nRowid = row.nRowid := by rw [hspot]; rfl
  have hbuf : spot.pBuffer = insertPass1 math pIndex visitedList
      (nodeBinInit pIndex row.nRowid row.pVector) := by rw [hspot]
  rw [← hspot] at hins
  rw [← hbuf] at hok hP hvec
  rw [← hrow] at hok
  subst hins
  -- the new block is written last
  refine ⟨habsent, fun r hr => NodeStored.flush h spot hok hP fun hrne => ?_, fun r => ?_,
    fun r => ?_⟩
  · rw [hrow] at hrne
    exact hgraph₂ r hrne ((hasRow_put.mp hr).resolve_left (hrow ▸ hrne))
  · refine hasRow_put.trans ?_
    rw [hsame.rows, hrows₁, hrow, ← or_assoc, or_self]
  · have hput := @blobSpotRead_flush pIndex h
      (insertPass2 math pIndex row.nRowid (loadVectorPair math pIndex row.pVector) visitedList kv₁)
      spot hok.length r
    rw [hrow] at hput
    split_ifs at hput ⊢ with heq
    · rw [storedVector_of_read hput, hvec, nodeBinVector_init h row.nRowid htype hdims]
    · rw [storedVector_congr hput, hsame.vector, storedVector_congr (hread₁ r heq)]

/-- **Insertion keeps the graph sound**, and every edge as `P` says, when `P`
holds of the edges to the new row and to the rows that were there. -/
theorem diskAnnInsert_graph (h : IndexOk pIndex) {select : Except Rc UInt64} {row : VectorInRow}
    (hgraph : GraphOk pIndex kv P)
    (hold : ∀ r buf d, blobSpotRead pIndex kv r = .ok buf → r ≠ row.nRowid →
      P ⟨r, d, (loadVectorPair math pIndex (nodeBinVector pIndex buf)).pEdge⟩)
    (hnew : ∀ d, P ⟨row.nRowid, d, (loadVectorPair math pIndex row.pVector).pEdge⟩)
    {kv' : Kv} (hins : diskAnnInsertFrom math pIndex kv select row = .ok kv') :
    Inserted pIndex kv kv' P row := by
  unfold diskAnnInsertFrom at hins
  simp only at hins
  split_ifs at hins with hdims htype
  rw [not_not] at hdims htype
  rcases hinit : diskAnnSearchCtxInit math pIndex row.pVector pIndex.insertL 1 .writable
    with - | pCtx
  · rw [hinit] at hins
    cases hins
  rw [hinit] at hins
  rcases select with rc | nStartRowid
  · cases rc with
    | done =>
        have hnone : ∀ p ∈ ([] : List (DiskAnnNode × D)), Visited pIndex kv p.1 := by simp
        exact insertNode_graph h htype hdims hnone List.nodup_nil hgraph hold hnew hins
    | notFound => cases hins
    | rowNotFound => cases hins
    | nomem => cases hins
    | error => cases hins
  · simp only at hins
    rcases hsearch : diskAnnSearchInternal math pIndex kv pCtx nStartRowid with e | pCtx'
    · rw [hsearch] at hins
      cases hins
    rw [hsearch] at hins
    obtain ⟨hinv, -, hmode, -⟩ := diskAnnSearchInternal_run (R := fun _ _ => True)
      (T := fun _ => True) hinit ⟨fun _ _ _ _ _ => trivial, fun _ _ _ _ _ _ => trivial⟩
      ⟨fun _ _ _ _ _ => trivial, fun _ _ _ _ => trivial⟩ trivial (fun _ _ => trivial) hsearch
    refine insertNode_graph h htype hdims (fun p hp => ?_) hinv.once hgraph hold hnew hins
    obtain ⟨buf, hread, hown⟩ := hinv.loaded p hp
    obtain ⟨spot, hspot, hrow, rfl⟩ := hown hmode
    exact ⟨spot, hspot, hrow, hread⟩

/-! ### Deletion keeps the graph -/

omit [LT D] [DecidableLT D] in
theorem deleteEdges_graph (h : IndexOk pIndex) {nodeRowid : UInt64} {nodeBuf : List UInt8}
    {is : List ℕ} {pEdgeBlob : BlobSpot} (hspot : SpotOk pIndex kv pEdgeBlob)
    (hgraph : GraphOk pIndex kv P) {kv' : Kv}
    (hdel : deleteEdges pIndex nodeRowid nodeBuf is kv pEdgeBlob = .ok kv') :
    GraphOk pIndex kv' P ∧ SameVectors pIndex kv kv' := by
  induction is generalizing kv pEdgeBlob with
  | nil =>
      obtain rfl := Except.ok.inj hdel
      exact ⟨hgraph, SameVectors.refl pIndex kv⟩
  | cons i is ih =>
      obtain ⟨hspot', hrow, hread⟩ :=
        blobSpotReload_spec hspot (nodeBinEdge pIndex nodeBuf i).rowid
      simp only [deleteEdges] at hdel
      rcases he : blobSpotRead pIndex kv (nodeBinEdge pIndex nodeBuf i).rowid with rc | buf
      · rw [he] at hread
        rw [hread] at hdel
        cases rc with
        -- a dangling edge
        | rowNotFound => exact ih hspot' hgraph hdel
        | done => cases hdel
        | notFound => cases hdel
        | nomem => cases hdel
        | error => cases hdel
      · rw [he] at hread
        obtain ⟨hrc, hbuf⟩ := hread
        simp only [hrc, hbuf] at hdel
        rcases hidx : nodeBinEdgeFindIdx pIndex buf nodeRowid with - | iDelete
        · rw [hidx] at hdel
          -- the neighbour has no edge back
          exact ih hspot' hgraph hdel
        · rw [hidx] at hdel
          obtain ⟨spot, hs⟩ : ∃ spot : BlobSpot, spot =
            { (blobSpotReload pIndex kv pEdgeBlob (nodeBinEdge pIndex nodeBuf i).rowid).2 with
              pBuffer := nodeBinDeleteEdge pIndex buf iDelete } := ⟨_, rfl⟩
          have hsrow : spot.nRowid = (nodeBinEdge pIndex nodeBuf i).rowid := by
            rw [hs]
            exact hrow
          have hsbuf : spot.pBuffer = nodeBinDeleteEdge pIndex buf iDelete := by rw [hs]
          have hlt : iDelete < nodeBinEdges buf :=
            List.mem_range.mp (List.mem_of_find?_eq_some hidx)
          rw [← hsrow] at he
          obtain ⟨buf', hread', hok, hP⟩ := hgraph spot.nRowid (hasRow_of_read he)
          obtain rfl : buf' = buf := Except.ok.inj (hread'.symm.trans he)
          -- the neighbour without the edge back is written
          have hok' := hok.deleteEdge h hlt
          have hP' := hP.deleteEdge h hok hlt
          have hvec := (@sameNode_deleteEdge pIndex h buf' iDelete
            (lt_of_lt_of_le hlt hok.edges_le)).vector
          rw [← hsbuf] at hok' hP' hvec
          simp only [← hs] at hdel
          have hsame := flush_sameVectors h spot he hok' hvec
          obtain ⟨hgraph'', hsame''⟩ := ih
            (fun _ => (blobSpotRead_flush h kv hok'.length spot.nRowid).trans (if_pos rfl))
            (fun r hr => NodeStored.flush h spot hok' hP' fun _ =>
              hgraph r ((hsame.rows r).mp hr)) hdel
          exact ⟨hgraph'', hsame.trans hsame''⟩

omit [LT D] [DecidableLT D] in
/-- **Deletion keeps the graph sound.**  The row is gone; all others keep their
vectors. -/
theorem diskAnnDelete_graph (h : IndexOk pIndex) {s s' : IndexState} {nodeRowid : UInt64}
    (hgraph : GraphOk pIndex s.kv P) (hdel : diskAnnDelete pIndex s nodeRowid = .ok s') :
    GraphOk pIndex s'.kv P ∧
      (∀ r, HasRow pIndex s'.kv r ↔ r ≠ nodeRowid ∧ HasRow pIndex s.kv r) ∧
      ∀ r, storedVector pIndex s'.kv r =
        if r = nodeRowid then none else storedVector pIndex s.kv r := by
  obtain ⟨-, -, hread⟩ :=
    blobSpotReload_spec (SpotOk.create pIndex s.kv nodeRowid) nodeRowid
  unfold diskAnnDelete at hdel
  rcases he : blobSpotRead pIndex s.kv nodeRowid with rc | buf
  · rw [he] at hread
    simp only [hread] at hdel
    cases rc with
    | rowNotFound =>
        obtain rfl := Except.ok.inj hdel
        -- the row is not there: nothing changes
        have habsent : ¬ HasRow pIndex s.kv nodeRowid := fun hrow => by
          obtain ⟨buf, hbuf, -⟩ := hgraph nodeRowid hrow
          rw [he] at hbuf
          cases hbuf
        refine ⟨hgraph, fun r => ⟨fun hr => ⟨?_, hr⟩, fun hr => hr.2⟩, fun r => ?_⟩
        · rintro rfl
          exact habsent hr
        · split_ifs with hr
          · rw [hr, storedVector, he]
          · rfl
    | done => cases hdel
    | notFound => cases hdel
    | nomem => cases hdel
    | error => cases hdel
  · rw [he] at hread
    simp only [hread.1] at hdel
    rcases hedges : deleteEdges pIndex nodeRowid
        (blobSpotReload pIndex s.kv (blobSpotCreate pIndex nodeRowid) nodeRowid).2.pBuffer
        (List.range (nodeBinEdges
          (blobSpotReload pIndex s.kv (blobSpotCreate pIndex nodeRowid) nodeRowid).2.pBuffer))
        s.kv (blobSpotCreate pIndex nodeRowid) with e | kv'
    · rw [hedges] at hdel
      cases hdel
    rw [hedges] at hdel
    obtain rfl := Except.ok.inj hdel
    obtain ⟨hgraph', hsame⟩ :=
      deleteEdges_graph h (SpotOk.create pIndex s.kv nodeRowid) hgraph hedges
    have hreadDel := fun r => @blobSpotRead_delete pIndex kv' nodeRowid r
    refine ⟨fun r hr => ?_, fun r => ?_, fun r => ?_⟩
    · obtain ⟨hne, hr⟩ := hasRow_delete.mp hr
      obtain ⟨buf, hbuf, hnode⟩ := hgraph' r hr
      exact ⟨buf, ((hreadDel r).trans (if_neg hne)).trans hbuf, hnode⟩
    · exact hasRow_delete.trans (and_congr_right fun _ => hsame.rows r)
    · have hdelr := hreadDel r
      show storedVector pIndex (diskAnnDeleteShadowRow pIndex kv' nodeRowid) r = _
      by_cases hr : r = nodeRowid
      · rw [if_pos hr] at hdelr ⊢
        rw [storedVector, hdelr]
      · rw [if_neg hr] at hdelr ⊢
        rw [storedVector_congr hdelr, hsame.vector]

/-! ### What a search outputs -/

theorem KeysOk.put (h : KeysOk pIndex kv) (r : UInt64) (pData : List UInt8) :
    KeysOk pIndex (kv.insert (blobSpotBuildKey pIndex r) pData) := by
  intro e he hp
  rcases SortedMap.mem_insertEntry.mp he with rfl | ⟨he, -⟩
  · exact ⟨r, rfl⟩
  · exact h e he hp

theorem KeysOk.delete (h : KeysOk pIndex kv) (r : UInt64) :
    KeysOk pIndex (diskAnnDeleteShadowRow pIndex kv r) := fun e he hp =>
  h e (SortedMap.mem_eraseEntry.mp he).1 hp

theorem insertPass2_keysOk {nNewRowid : UInt64} {vInsert : VectorPair}
    {visitedList : List (DiskAnnNode × D)} (h : KeysOk pIndex kv) :
    KeysOk pIndex (insertPass2 math pIndex nNewRowid vInsert visitedList kv) := by
  induction visitedList generalizing kv with
  | nil => exact h
  | cons p visitedList ih =>
      obtain ⟨pVisited, d⟩ := p
      unfold insertPass2
      split
      · exact ih h
      · split
        · exact ih h
        · exact ih (h.put _ _)

theorem insertNode_keysOk {row : VectorInRow} {visitedList : List (DiskAnnNode × D)}
    (h : KeysOk pIndex kv) {kv' : Kv}
    (hins : insertNode math pIndex kv row visitedList = .ok kv') : KeysOk pIndex kv' := by
  unfold insertNode diskAnnInsertShadowRow at hins
  split_ifs at hins
  obtain rfl := Except.ok.inj hins
  exact (insertPass2_keysOk (h.put _ _)).put _ _

theorem diskAnnInsert_keysOk {select : Except Rc UInt64} {row : VectorInRow}
    (h : KeysOk pIndex kv) {kv' : Kv}
    (hins : diskAnnInsertFrom math pIndex kv select row = .ok kv') : KeysOk pIndex kv' := by
  unfold diskAnnInsertFrom at hins
  simp only at hins
  split_ifs at hins
  split at hins
  · cases hins
  · split at hins
    · exact insertNode_keysOk h hins
    · cases hins
    · split at hins
      · cases hins
      · exact insertNode_keysOk h hins

omit [LT D] [DecidableLT D] in
theorem deleteEdges_keysOk {nodeRowid : UInt64} {nodeBuf : List UInt8} {is : List ℕ}
    {pEdgeBlob : BlobSpot} (h : KeysOk pIndex kv) {kv' : Kv}
    (hdel : deleteEdges pIndex nodeRowid nodeBuf is kv pEdgeBlob = .ok kv') :
    KeysOk pIndex kv' := by
  induction is generalizing kv pEdgeBlob with
  | nil =>
      obtain rfl := Except.ok.inj hdel
      exact h
  | cons i is ih =>
      simp only [deleteEdges] at hdel
      split at hdel
      · exact ih h hdel
      · cases hdel
      · split at hdel
        · exact ih h hdel
        · exact ih (h.put _ _) hdel

omit [LT D] [DecidableLT D] in
theorem diskAnnDelete_keysOk {s s' : IndexState} {nodeRowid : UInt64} (h : KeysOk pIndex s.kv)
    (hdel : diskAnnDelete pIndex s nodeRowid = .ok s') : KeysOk pIndex s'.kv := by
  unfold diskAnnDelete at hdel
  simp only at hdel
  split at hdel
  · obtain rfl := Except.ok.inj hdel
    exact h
  · cases hdel
  · split at hdel
    · cases hdel
    · rename_i kv' hedges
      obtain rfl := Except.ok.inj hdel
      exact (deleteEdges_keysOk h hedges).delete _

end Graph

end MoVeBench
