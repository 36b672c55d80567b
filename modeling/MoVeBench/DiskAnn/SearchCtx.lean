/-
MoVeBench/DiskAnn/SearchCtx.lean

The state of a search: the candidates in order of distance, the nodes visited so
far, and the best of them.

The source keeps nodes and distances in two arrays that it always changes
alike; here they are one list of pairs.  A node marked as visited stays where it
is among the candidates, moves to the front of the visited list and enters the
top candidates if it is close enough.
-/
import MoVeBench.DiskAnn.Edges
import MoVeBench.DiskAnn.Store
import MoVeBench.Lib.TopK

namespace MoVeBench

/-- A failed operation: its result code and `*pzErrMsg`. -/
structure VectorError where
  rc : Rc
  zErrMsg : String
deriving DecidableEq

/-! ### Bounded buffers -/

section Buffer

variable {α D : Type} [LT D] [DecidableLT D]

/-- `distanceBufferInsertIdx`: `none` for `-1`. -/
def distanceBufferInsertIdx (aDistances : List D) (nMaxSize : ℕ) (distance : D) : Option ℕ :=
  match aDistances.findIdx? (fun d => distance < d) with
  | some i => some i
  | none => if aDistances.length < nMaxSize then some aDistances.length else none

/-- `bufferInsert`: the buffer, and the item that falls out of a full one. -/
def bufferInsert (aBuffer : List α) (nMaxSize iInsert : ℕ) (pItem : α) : List α × Option α :=
  if aBuffer.length = nMaxSize then (aBuffer.dropLast.insertIdx iInsert pItem, aBuffer.getLast?)
  else (aBuffer.insertIdx iInsert pItem, none)

/-- `bufferDelete`. -/
def bufferDelete (aBuffer : List α) (iDelete : ℕ) : List α := aBuffer.eraseIdx iDelete

end Buffer

/-! ### The search context -/

/-- `DISKANN_BLOB_WRITABLE`, `DISKANN_BLOB_READONLY`. -/
inductive BlobMode
  | writable
  | readonly
deriving DecidableEq, Repr

/-- `DiskAnnNode`. -/
structure DiskAnnNode where
  nRowid : UInt64
  visited : Bool
  pBlobSpot : Option BlobSpot

/-- `diskAnnNodeAlloc`. -/
def diskAnnNodeAlloc (nRowid : UInt64) : DiskAnnNode where
  nRowid := nRowid
  visited := false
  pBlobSpot := none

/-- `DiskAnnSearchCtx`.  A node of the visited list, the most recent first, is
given with the distance it was marked with, which the source only keeps for the
top candidates; of these only the rowids are used. -/
structure DiskAnnSearchCtx (D : Type) where
  query : VectorPair
  aCandidates : List (DiskAnnNode × D)
  maxCandidates : ℕ
  aTopCandidates : List (UInt64 × D)
  maxTopCandidates : ℕ
  visitedList : List (DiskAnnNode × D)
  nUnvisited : ℕ
  blobMode : BlobMode

/-- `sqlite4_malloc` answers memory for `n` bytes. -/
def mallocOk (n : ℕ) : Bool := 0 < toInt n ∧ toInt n < 0x7fffff00

section Operations

variable {D : Type} [LT D] [DecidableLT D] (math : VectorMath D) (pIndex : DiskAnnIndex)

/-- `diskAnnSearchCtxInit`, `none` for `SQLITE4_NOMEM`. -/
def diskAnnSearchCtxInit (pQuery : Vector) (maxCandidates topCandidates : ℕ)
    (blobMode : BlobMode) : Option (DiskAnnSearchCtx D) :=
  if mallocOk (maxCandidates * 4) ∧ mallocOk (maxCandidates * 8) ∧
      mallocOk (topCandidates * 4) ∧ mallocOk (topCandidates * 8) then
    some
      { query := loadVectorPair math pIndex pQuery
        aCandidates := []
        maxCandidates
        aTopCandidates := []
        maxTopCandidates := topCandidates
        visitedList := []
        nUnvisited := 0
        blobMode }
  else none

variable (pCtx : DiskAnnSearchCtx D)

/-- `diskAnnSearchCtxIsVisited`. -/
def diskAnnSearchCtxIsVisited (nRowid : UInt64) : Bool :=
  pCtx.visitedList.any fun p => p.1.nRowid = nRowid

/-- `diskAnnSearchCtxHasCandidate`. -/
def diskAnnSearchCtxHasCandidate (nRowid : UInt64) : Bool :=
  pCtx.aCandidates.any fun p => p.1.nRowid = nRowid

/-- `diskAnnSearchCtxShouldAddCandidate`, the loop of
`distanceBufferInsertIdx`. -/
def diskAnnSearchCtxShouldAddCandidate (candidateDist : D) : Option ℕ :=
  distanceBufferInsertIdx (pCtx.aCandidates.map Prod.snd) pCtx.maxCandidates candidateDist

/-- The top candidates after `distanceBufferInsertIdx` and the two
`bufferInsert`s of `diskAnnSearchCtxMarkVisited`. -/
def topInsert (aTop : List (UInt64 × D)) (nMaxSize : ℕ) (nRowid : UInt64) (distance : D) :
    List (UInt64 × D) :=
  match distanceBufferInsertIdx (aTop.map Prod.snd) nMaxSize distance with
  | none => aTop
  | some iInsert => (bufferInsert aTop nMaxSize iInsert (nRowid, distance)).1

/-- `diskAnnSearchCtxMarkVisited` for the node `pNode` at position
`iCandidate`. -/
def diskAnnSearchCtxMarkVisited (iCandidate : ℕ) (pNode : DiskAnnNode) (distance : D) :
    DiskAnnSearchCtx D :=
  let pNode := { pNode with visited := true }
  { pCtx with
    aCandidates := pCtx.aCandidates.modify iCandidate fun p => (pNode, p.2)
    nUnvisited := pCtx.nUnvisited - 1
    visitedList := (pNode, distance) :: pCtx.visitedList
    aTopCandidates :=
      topInsert pCtx.aTopCandidates pCtx.maxTopCandidates pNode.nRowid distance }

/-- `diskAnnSearchCtxHasUnvisited`. -/
def diskAnnSearchCtxHasUnvisited : Bool := pCtx.nUnvisited > 0

/-- `diskAnnSearchCtxDeleteCandidate`. -/
def diskAnnSearchCtxDeleteCandidate (iDelete : ℕ) : DiskAnnSearchCtx D :=
  { pCtx with
    aCandidates := bufferDelete pCtx.aCandidates iDelete
    nUnvisited := pCtx.nUnvisited - 1 }

/-- `diskAnnSearchCtxInsertCandidate`. -/
def diskAnnSearchCtxInsertCandidate (iInsert : ℕ) (pCandidate : DiskAnnNode) (distance : D) :
    DiskAnnSearchCtx D :=
  let r := bufferInsert pCtx.aCandidates pCtx.maxCandidates iInsert (pCandidate, distance)
  let nUnvisited :=
    if r.2.any fun pLast => !pLast.1.visited then pCtx.nUnvisited - 1 else pCtx.nUnvisited
  { pCtx with
    aCandidates := r.1
    nUnvisited := nUnvisited + 1 }

/-- `diskAnnSearchCtxFindClosestCandidateIdx`, `none` for `-1`. -/
def diskAnnSearchCtxFindClosestCandidateIdx : Option ℕ :=
  pCtx.aCandidates.findIdx? fun p => !p.1.visited

end Operations

/-! ### What the buffers hold -/

section BufferFacts

variable {α D : Type}

theorem insertIdx_eq_take_cons_drop (l : List α) {i : ℕ} (x : α) (h : i ≤ l.length) :
    l.insertIdx i x = l.take i ++ x :: l.drop i := by
  induction l generalizing i with
  | nil =>
      obtain rfl : i = 0 := by simpa using h
      rfl
  | cons u l ih =>
      rcases i with - | i
      · rfl
      · rw [List.insertIdx_succ_cons, ih (by simpa using h)]
        rfl

/-- **`bufferInsert` puts the item at its place, and what falls out is the
end.** -/
theorem bufferInsert_eq (l : List α) {nMaxSize i : ℕ} (x : α) (hi : i ≤ l.length)
    (hmax : i < nMaxSize) :
    (bufferInsert l nMaxSize i x).1 ++ (bufferInsert l nMaxSize i x).2.toList =
      l.take i ++ x :: l.drop i := by
  unfold bufferInsert
  split_ifs with hfull
  · rcases List.eq_nil_or_concat l with rfl | ⟨m, z, rfl⟩
    · simp at hfull
      omega
    · rw [List.concat_eq_append, List.length_append, List.length_singleton] at hfull
      rw [List.concat_eq_append, List.dropLast_concat, List.getLast?_concat, Option.toList_some,
        insertIdx_eq_take_cons_drop m x (by omega), List.take_append_of_le_length (by omega),
        List.drop_append_of_le_length (by omega), List.append_assoc, List.cons_append]
  · rw [insertIdx_eq_take_cons_drop l x hi, Option.toList_none, List.append_nil]

theorem bufferInsert_length (l : List α) {nMaxSize i : ℕ} (x : α) (hi : i ≤ l.length)
    (hmax : i < nMaxSize) (hlen : l.length ≤ nMaxSize) :
    (bufferInsert l nMaxSize i x).1.length = min nMaxSize (l.length + 1) := by
  unfold bufferInsert
  split_ifs with hfull
  · rw [List.length_insertIdx_of_le_length (by rw [List.length_dropLast]; omega),
      List.length_dropLast]
    omega
  · rw [List.length_insertIdx_of_le_length hi]
    omega

/-- The buffer after an insertion, as a cut of the unbounded one. -/
theorem bufferInsert_eq_take (l : List α) {nMaxSize i : ℕ} (x : α) (hi : i ≤ l.length)
    (hmax : i < nMaxSize) (hlen : l.length ≤ nMaxSize) :
    (bufferInsert l nMaxSize i x).1 = (l.take i ++ x :: l.drop i).take nMaxSize := by
  have heq := bufferInsert_eq l x hi hmax
  have hlen' := bufferInsert_length l x hi hmax hlen
  rw [← heq, List.take_append, hlen']
  have htail : (bufferInsert l nMaxSize i x).2.toList.take (nMaxSize - min nMaxSize (l.length + 1))
      = [] := by
    unfold bufferInsert
    split_ifs with hfull
    · rw [show nMaxSize - min nMaxSize (l.length + 1) = 0 by omega, List.take_zero]
    · simp
  rw [htail, List.append_nil, List.take_of_length_le (by rw [hlen']; omega)]

/-- An insertion into an array of parts. -/
theorem bufferInsert_map {β : Type} (f : α → β) (l : List α) (n i : ℕ) (x : α) :
    bufferInsert (l.map f) n i (f x) =
      ((bufferInsert l n i x).1.map f, (bufferInsert l n i x).2.map f) := by
  unfold bufferInsert
  rw [List.length_map]
  split_ifs
  · rw [← List.map_dropLast, List.map_insertIdx, List.getLast?_map]
  · rw [List.map_insertIdx]
    rfl

variable [LT D] [DecidableLT D]

/-- The position that is found: nothing before it is farther than the new
distance, and what stands there is. -/
theorem distanceBufferInsertIdx_some {aDistances : List D} {nMaxSize : ℕ} {distance : D} {i : ℕ}
    (hlen : aDistances.length ≤ nMaxSize)
    (h : distanceBufferInsertIdx aDistances nMaxSize distance = some i) :
    i ≤ aDistances.length ∧ i < nMaxSize ∧ (∀ d ∈ aDistances.take i, ¬ distance < d) ∧
      ∀ hi : i < aDistances.length, distance < aDistances[i] := by
  unfold distanceBufferInsertIdx at h
  split at h
  · rename_i j hj
    obtain rfl := Option.some.inj h
    obtain ⟨hlt, hfar, hnear⟩ := List.findIdx?_eq_some_iff_getElem.mp hj
    refine ⟨hlt.le, by omega, ?_, fun _ => by simpa using hfar⟩
    intro d hd
    obtain ⟨k, hk, rfl⟩ := List.getElem_of_mem hd
    rw [List.length_take] at hk
    rw [List.getElem_take]
    simpa using hnear k (by omega)
  · rename_i hnone
    split_ifs at h with hfree
    obtain rfl := Option.some.inj h
    refine ⟨le_rfl, hfree, ?_, fun hi => absurd hi (lt_irrefl _)⟩
    intro d hd
    simpa using List.findIdx?_eq_none_iff.mp hnone d (List.mem_of_mem_take hd)

theorem distanceBufferInsertIdx_none {aDistances : List D} {nMaxSize : ℕ} {distance : D}
    (h : distanceBufferInsertIdx aDistances nMaxSize distance = none) :
    nMaxSize ≤ aDistances.length ∧ ∀ d ∈ aDistances, ¬ distance < d := by
  unfold distanceBufferInsertIdx at h
  split at h
  · cases h
  · rename_i hnone
    split_ifs at h with hfree
    exact ⟨not_lt.mp hfree, fun d hd => by simpa using List.findIdx?_eq_none_iff.mp hnone d hd⟩

end BufferFacts

/-- **The top candidates stay the closest of all that were marked.** -/
theorem isTop_topInsert {D : Type} [LinearOrder D] {k : ℕ} {all aTop : List (UInt64 × D)}
    (h : TopK.IsTop k all aTop) (nRowid : UInt64) (distance : D) :
    TopK.IsTop k ((nRowid, distance) :: all) (topInsert aTop k nRowid distance) := by
  have hlen : (aTop.map Prod.snd).length ≤ k := by
    rw [List.length_map, h.length]
    exact min_le_left _ _
  unfold topInsert
  split
  · rename_i hnone
    obtain ⟨hfull, hnear⟩ := distanceBufferInsertIdx_none hnone
    rw [List.length_map] at hfull hlen
    have htop : aTop = (aTop ++ (nRowid, distance) :: []).take k := by
      rw [List.take_append_of_le_length hfull, List.take_of_length_le hlen]
    rw [htop]
    refine TopK.IsTop.insert (by rwa [List.append_nil]) (fun a ha => ?_) (by simp)
    exact not_lt.mp (hnear a.2 (List.mem_map_of_mem ha))
  · rename_i i hi
    obtain ⟨hle, hmax, hnear, hfar⟩ := distanceBufferInsertIdx_some hlen hi
    rw [List.length_map] at hle hlen
    rw [bufferInsert_eq_take aTop _ hle hmax hlen]
    refine TopK.IsTop.insert (by rwa [List.take_append_drop]) (fun a ha => ?_) (fun b hb => ?_)
    · refine not_lt.mp (hnear a.2 ?_)
      rw [← List.map_take]
      exact List.mem_map_of_mem ha
    · -- the buffer is sorted, so all from position `i` on are at least as far
      rcases Nat.lt_or_ge i aTop.length with hlt | hge
      · have hhead : distance < aTop[i].2 := by
          have := hfar (by rwa [List.length_map])
          rwa [List.getElem_map] at this
        rw [List.drop_eq_getElem_cons hlt] at hb
        rcases List.mem_cons.mp hb with rfl | hb
        · exact hhead.le
        · have hsorted := List.drop_eq_getElem_cons hlt ▸ h.sorted.sublist (List.drop_sublist i _)
          exact hhead.le.trans ((List.pairwise_cons.mp hsorted).1 b hb)
      · rw [List.drop_eq_nil_of_le hge] at hb
        cases hb

end MoVeBench
