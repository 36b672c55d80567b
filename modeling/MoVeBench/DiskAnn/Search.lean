/-
MoVeBench/DiskAnn/Search.lean

`diskAnnSearchInternal`: from a start row, visit the closest candidate that is
not visited yet, and offer the targets of its edges as candidates, until all
candidates are visited.

The graph may have edges to rows that are gone.  Such a row becomes a candidate
by the vector stored with the edge; when its turn comes it cannot be loaded and
is dropped.  The loop ends since every round visits another row of the table or
drops a candidate (`searchMeasure`); a search has as much fuel as that takes
(`searchFuel`).
-/
import MoVeBench.DiskAnn.SearchCtx

namespace MoVeBench

section Model

variable {D : Type} [LT D] [DecidableLT D] (math : VectorMath D) (pIndex : DiskAnnIndex) (kv : Kv)

/-- The body of the loop over the edges of a visited candidate. -/
def diskAnnSearchEdge (pCtx : DiskAnnSearchCtx D) (edge : NodeEdge) : DiskAnnSearchCtx D :=
  if diskAnnSearchCtxIsVisited pCtx edge.rowid || diskAnnSearchCtxHasCandidate pCtx edge.rowid then
    pCtx
  else
    let edgeDistance := diskAnnVectorDistance math pIndex pCtx.query.pEdge edge.vector
    match diskAnnSearchCtxShouldAddCandidate pCtx edgeDistance with
    | none => pCtx
    | some iInsert =>
        diskAnnSearchCtxInsertCandidate pCtx iInsert (diskAnnNodeAlloc edge.rowid) edgeDistance

/-- The loop over the edges of a visited candidate. -/
def diskAnnSearchEdges (buf : List UInt8) (pCtx : DiskAnnSearchCtx D) : DiskAnnSearchCtx D :=
  (List.range (nodeBinEdges buf)).foldl
    (fun pCtx i => diskAnnSearchEdge math pIndex pCtx (nodeBinEdge pIndex buf i)) pCtx

/-- Loading the block of a candidate: into the reusable blob spot where there is
one, else into its own.  Answers the result code, the candidate, the reusable
spot, and the block. -/
def loadCandidate (pReusable : Option BlobSpot) (pCandidate : DiskAnnNode) :
    Option Rc × DiskAnnNode × Option BlobSpot × List UInt8 :=
  match pReusable with
  | some spot =>
      let r := blobSpotReload pIndex kv spot pCandidate.nRowid
      (r.1, pCandidate, some r.2, r.2.pBuffer)
  | none =>
      let spot := pCandidate.pBlobSpot.getD (blobSpotCreate pIndex pCandidate.nRowid)
      let r := blobSpotReload pIndex kv spot pCandidate.nRowid
      (r.1, { pCandidate with pBlobSpot := some r.2 }, none, r.2.pBuffer)

/-- The distance a visited candidate is recorded with: that of the edge that led
to it, or computed from its own vector where edges are compressed. -/
def visitDistance (pCtx : DiskAnnSearchCtx D) (buf : List UInt8) (distance : D) : D :=
  if pIndex.nNodeVectorType ≠ pIndex.nEdgeVectorType then
    diskAnnVectorDistance math pIndex (nodeBinVector pIndex buf) pCtx.query.pNode
  else distance

/-- One round of the loop of `diskAnnSearchInternal`, for the candidate at
position `iCandidate`. -/
def diskAnnSearchStep (pCtx : DiskAnnSearchCtx D) (pReusable : Option BlobSpot) (iCandidate : ℕ)
    (pCandidate : DiskAnnNode) (distance : D) :
    Except VectorError (DiskAnnSearchCtx D × Option BlobSpot) :=
  match loadCandidate pIndex kv pReusable pCandidate with
  | (some .rowNotFound, _, pReusable, _) =>
      .ok (diskAnnSearchCtxDeleteCandidate pCtx iCandidate, pReusable)
  | (some rc, _, _, _) =>
      .error ⟨rc, "vector index(search): failed to create new blob for candidate"⟩
  | (none, pCandidate, pReusable, buf) =>
      let distance := visitDistance math pIndex pCtx buf distance
      let pCtx := diskAnnSearchCtxMarkVisited pCtx iCandidate pCandidate distance
      .ok (diskAnnSearchEdges math pIndex buf pCtx, pReusable)

/-- A candidate that the source takes for granted is missing. -/
def noCandidate : VectorError := ⟨.error, ""⟩

/-- The loop of `diskAnnSearchInternal`. -/
def diskAnnSearchLoop :
    ℕ → DiskAnnSearchCtx D → Option BlobSpot → Except VectorError (DiskAnnSearchCtx D)
  | 0, pCtx, _ => .ok pCtx
  | fuel + 1, pCtx, pReusable =>
      if diskAnnSearchCtxHasUnvisited pCtx then
        match diskAnnSearchCtxFindClosestCandidateIdx pCtx with
        | none => .error noCandidate
        | some iCandidate =>
            match pCtx.aCandidates[iCandidate]? with
            | none => .error noCandidate
            | some (pCandidate, distance) =>
                match diskAnnSearchStep math pIndex kv pCtx pReusable iCandidate pCandidate
                    distance with
                | .error e => .error e
                | .ok (pCtx, pReusable) => diskAnnSearchLoop fuel pCtx pReusable
      else .ok pCtx

/-- Enough rounds for the loop, by the number of entries of the store. -/
def searchFuel : ℕ := 65536 * kv.entries.length + 1

/-- `diskAnnSearchInternal`. -/
def diskAnnSearchInternal (pCtx : DiskAnnSearchCtx D) (nStartRowid : UInt64) :
    Except VectorError (DiskAnnSearchCtx D) :=
  let r := blobSpotReload pIndex kv (blobSpotCreate pIndex nStartRowid) nStartRowid
  match r.1 with
  | some rc => .error ⟨rc, "vector index(search): failed to load new blob"⟩
  | none =>
      let startVector := nodeBinVector pIndex r.2.pBuffer
      let startDistance := diskAnnVectorDistance math pIndex pCtx.query.pNode startVector
      let start := diskAnnNodeAlloc nStartRowid
      -- a writable search keeps the spot of every node that it visits
      match pCtx.blobMode with
      | .readonly =>
          diskAnnSearchLoop math pIndex kv (searchFuel kv)
            (diskAnnSearchCtxInsertCandidate pCtx 0 start startDistance) (some r.2)
      | .writable =>
          diskAnnSearchLoop math pIndex kv (searchFuel kv)
            (diskAnnSearchCtxInsertCandidate pCtx 0 { start with pBlobSpot := some r.2 }
              startDistance) none

end Model

/-! ### The context of a running search -/

/-- The rowids of a list of nodes. -/
def nodeRows {D : Type} (l : List (DiskAnnNode × D)) : List UInt64 := l.map fun p => p.1.nRowid

/-- The rows visited so far with their recorded distances, the last one first. -/
def DiskAnnSearchCtx.recorded {D : Type} (pCtx : DiskAnnSearchCtx D) : List (UInt64 × D) :=
  pCtx.visitedList.map fun p => (p.1.nRowid, p.2)

/-- What holds of a search at every round, over a table in which `read` is the
block of a row.  All blob spots of candidates satisfy `S`.  `R` is a relation of
rows and distances that the distances of all candidates and of all visited nodes
satisfy. -/
structure CtxInv {D : Type} (read : UInt64 → Except Rc (List UInt8)) (S : BlobSpot → Prop)
    (query : VectorPair) (R : UInt64 → D → Prop) (pCtx : DiskAnnSearchCtx D) : Prop where
  query_eq : pCtx.query = query
  bounded : pCtx.aCandidates.length ≤ pCtx.maxCandidates
  distinct : (nodeRows pCtx.aCandidates).Nodup
  once : (nodeRows pCtx.visitedList).Nodup
  visited_mem : ∀ p ∈ pCtx.aCandidates, p.1.visited = true → p.1.nRowid ∈ nodeRows pCtx.visitedList
  fresh : ∀ p ∈ pCtx.aCandidates, p.1.visited = false → p.1.nRowid ∉ nodeRows pCtx.visitedList
  count : pCtx.nUnvisited = pCtx.aCandidates.countP fun p => !p.1.visited
  spots : ∀ p ∈ pCtx.aCandidates, ∀ spot ∈ p.1.pBlobSpot, S spot
  loaded : ∀ p ∈ pCtx.visitedList, ∃ buf, read p.1.nRowid = .ok buf ∧
    (pCtx.blobMode = .writable →
      ∃ spot, p.1.pBlobSpot = some spot ∧ spot.nRowid = p.1.nRowid ∧ spot.pBuffer = buf)
  weights : ∀ p ∈ pCtx.aCandidates ++ pCtx.visitedList, R p.1.nRowid p.2

section Invariant

variable {D : Type} {pIndex : DiskAnnIndex} {kv : Kv} {read : UInt64 → Except Rc (List UInt8)}
  {S : BlobSpot → Prop} {query : VectorPair} {R : UInt64 → D → Prop} {pCtx : DiskAnnSearchCtx D}

/-- The entry at a position, between the entries before and after it. -/
theorem split_of_getElem? {α : Type} {l : List α} {i : ℕ} {x : α} (h : l[i]? = some x) :
    ∃ a b, l = a ++ x :: b ∧ a.length = i := by
  obtain ⟨hi, rfl⟩ := List.getElem?_eq_some_iff.mp h
  refine ⟨l.take i, l.drop (i + 1), ?_, by rw [List.length_take]; omega⟩
  rw [← List.drop_eq_getElem_cons hi, List.take_append_drop]

theorem modify_split {α : Type} (a : List α) (x : α) (b : List α) (f : α → α) :
    (a ++ x :: b).modify a.length f = a ++ f x :: b := by
  induction a with
  | nil => rfl
  | cons u a ih => simpa using ih

/-- What a buffer and the item that falls out of it hold. -/
theorem bufferInsert_perm {α : Type} {l new : List α} {x : α} {last : Option α} {nMaxSize i : ℕ}
    (hi : i ≤ l.length) (hmax : i < nMaxSize) (hb : bufferInsert l nMaxSize i x = (new, last)) :
    (new ++ last.toList).Perm (x :: l) ∧ ∀ y ∈ last, y ∈ l := by
  have heq := bufferInsert_eq l x hi hmax
  rw [hb] at heq
  refine ⟨?_, ?_⟩
  · rw [show new ++ last.toList = _ from heq]
    refine List.perm_middle.trans ?_
    rw [List.take_append_drop]
  · unfold bufferInsert at hb
    split_ifs at hb
    · obtain ⟨-, rfl⟩ := Prod.mk.inj hb
      exact fun y hy => List.mem_of_getLast? hy
    · obtain ⟨-, rfl⟩ := Prod.mk.inj hb
      nofun

/-- A new candidate of a row that is neither a candidate nor visited. -/
theorem CtxInv.insertCandidate (h : CtxInv read S query R pCtx) {i : ℕ} (node : DiskAnnNode)
    {d : D} (hi : i ≤ pCtx.aCandidates.length) (hmax : i < pCtx.maxCandidates)
    (hcand : node.nRowid ∉ nodeRows pCtx.aCandidates)
    (hvis : node.nRowid ∉ nodeRows pCtx.visitedList) (hfresh : node.visited = false)
    (hspot : ∀ spot ∈ node.pBlobSpot, S spot) (hR : R node.nRowid d) :
    CtxInv read S query R (diskAnnSearchCtxInsertCandidate pCtx i node d) := by
  have hlen := bufferInsert_length pCtx.aCandidates (node, d) hi hmax h.bounded
  obtain ⟨new, last, hb⟩ : ∃ new last, bufferInsert pCtx.aCandidates pCtx.maxCandidates i (node, d)
      = (new, last) := ⟨_, _, rfl⟩
  rw [hb] at hlen
  simp only at hlen
  obtain ⟨hperm, hlast⟩ := bufferInsert_perm hi hmax hb
  have hmem : ∀ p ∈ new, p = (node, d) ∨ p ∈ pCtx.aCandidates := fun p hp =>
    List.mem_cons.mp (hperm.mem_iff.mp (List.mem_append_left _ hp))
  -- the count is over what stays and what falls out
  have hcount := hperm.countP_eq fun p => !p.1.visited
  rw [List.countP_append, List.countP_cons, ← h.count] at hcount
  simp only [hfresh, Bool.not_false, if_true] at hcount
  unfold diskAnnSearchCtxInsertCandidate
  rw [hb]
  refine ⟨h.query_eq, ?_, ?_, h.once, ?_, ?_, ?_, ?_, h.loaded, ?_⟩
  · show new.length ≤ pCtx.maxCandidates
    omega
  · have hnodup : (nodeRows (new ++ last.toList)).Nodup :=
      ((hperm.map _).nodup_iff).mpr (List.nodup_cons.mpr ⟨hcand, h.distinct⟩)
    rw [nodeRows, List.map_append] at hnodup
    exact (List.nodup_append.mp hnodup).1
  · intro p hp hv
    rcases hmem p hp with rfl | hp
    · exact absurd hv (by simp [hfresh])
    · exact h.visited_mem p hp hv
  · intro p hp hv
    rcases hmem p hp with rfl | hp
    · exact hvis
    · exact h.fresh p hp hv
  · show (if last.any fun pLast => !pLast.1.visited then pCtx.nUnvisited - 1
      else pCtx.nUnvisited) + 1 = new.countP _
    rcases last with - | pLast
    · simpa using hcount.symm
    · have hpos : pLast.1.visited = false → 0 < pCtx.nUnvisited := fun hv => by
        rw [h.count, List.countP_pos_iff]
        exact ⟨pLast, hlast pLast rfl, by simp [hv]⟩
      simp only [Option.toList_some, List.countP_cons, List.countP_nil, Option.any_some]
        at hcount ⊢
      by_cases hv : pLast.1.visited = true
      · simp only [hv, Bool.not_true, Bool.false_eq_true, if_false] at hcount ⊢
        omega
      · rw [Bool.not_eq_true] at hv
        have := hpos hv
        simp only [hv, Bool.not_false, if_true] at hcount ⊢
        omega
  · intro p hp
    rcases hmem p hp with rfl | hp
    · exact hspot
    · exact h.spots p hp
  · intro p hp
    rcases List.mem_append.mp hp with hp | hp
    · rcases hmem p hp with rfl | hp
      · exact hR
      · exact h.weights p (List.mem_append_left _ hp)
    · exact h.weights p (List.mem_append_right _ hp)

/-- A candidate whose row is gone is dropped. -/
theorem CtxInv.deleteCandidate (h : CtxInv read S query R pCtx) {i : ℕ}
    {p : DiskAnnNode × D} (hp : pCtx.aCandidates[i]? = some p) (hv : p.1.visited = false) :
    CtxInv read S query R (diskAnnSearchCtxDeleteCandidate pCtx i) := by
  obtain ⟨a, b, hsplit, rfl⟩ := split_of_getElem? hp
  have hdel : bufferDelete pCtx.aCandidates a.length = a ++ b := by
    rw [bufferDelete, hsplit, List.eraseIdx_append_of_length_le le_rfl, Nat.sub_self]
    rfl
  have hsub : (a ++ b).Sublist pCtx.aCandidates := by
    rw [hsplit]
    exact (List.sublist_cons_self p b).append_left a
  have hcount := h.count
  rw [hsplit, List.countP_append, List.countP_cons] at hcount
  simp only [hv, Bool.not_false, if_true] at hcount
  unfold diskAnnSearchCtxDeleteCandidate
  rw [hdel]
  refine ⟨h.query_eq, hsub.length_le.trans h.bounded, h.distinct.sublist (hsub.map _), h.once,
    fun q hq => h.visited_mem q (hsub.subset hq), fun q hq => h.fresh q (hsub.subset hq), ?_,
    fun q hq => h.spots q (hsub.subset hq), h.loaded, ?_⟩
  · show pCtx.nUnvisited - 1 = (a ++ b).countP _
    rw [List.countP_append]
    omega
  · intro q hq
    rcases List.mem_append.mp hq with hq | hq
    · exact h.weights q (List.mem_append_left _ (hsub.subset hq))
    · exact h.weights q (List.mem_append_right _ hq)

/-- A candidate is replaced by an item: the others are of other rows. -/
theorem CtxInv.mem_replaced (h : CtxInv read S query R pCtx) {a b : List (DiskAnnNode × D)}
    {p q x : DiskAnnNode × D} (hsplit : pCtx.aCandidates = a ++ p :: b) (hq : q ∈ a ++ x :: b) :
    q = x ∨ q ∈ pCtx.aCandidates ∧ q.1.nRowid ≠ p.1.nRowid := by
  have hdistinct := h.distinct
  rw [hsplit, nodeRows, List.map_append, List.map_cons] at hdistinct
  have hmid := List.nodup_middle.mp hdistinct
  rw [← List.map_append] at hmid
  have hne : q ∈ a ++ b → q.1.nRowid ≠ p.1.nRowid := fun hin heq =>
    (List.nodup_cons.mp hmid).1 (heq ▸ List.mem_map_of_mem (f := fun q => q.1.nRowid) hin)
  rw [hsplit]
  rcases List.mem_append.mp hq with hq | hq
  · exact .inr ⟨List.mem_append_left _ hq, hne (List.mem_append_left _ hq)⟩
  · rcases List.mem_cons.mp hq with rfl | hq
    · exact .inl rfl
    · exact .inr ⟨List.mem_append_right _ (List.mem_cons_of_mem _ hq),
        hne (List.mem_append_right _ hq)⟩

/-- A candidate that could be loaded is visited. -/
theorem CtxInv.markVisited [LT D] [DecidableLT D] (h : CtxInv read S query R pCtx) {i : ℕ}
    {p : DiskAnnNode × D} (hp : pCtx.aCandidates[i]? = some p) (hv : p.1.visited = false)
    {node : DiskAnnNode} (hrow : node.nRowid = p.1.nRowid)
    (hspot : ∀ spot ∈ node.pBlobSpot, S spot)
    (hload : ∃ buf, read node.nRowid = .ok buf ∧
      (pCtx.blobMode = .writable →
        ∃ spot, node.pBlobSpot = some spot ∧ spot.nRowid = node.nRowid ∧ spot.pBuffer = buf))
    {d : D} (hR : R node.nRowid d) :
    CtxInv read S query R (diskAnnSearchCtxMarkVisited pCtx i node d) := by
  obtain ⟨a, b, hsplit, rfl⟩ := split_of_getElem? hp
  have hmod : pCtx.aCandidates.modify a.length
      (fun q => ({ node with visited := true }, q.2)) =
      a ++ ({ node with visited := true }, p.2) :: b := by
    rw [hsplit, modify_split]
  have hrows : nodeRows (a ++ ({ node with visited := true }, p.2) :: b) =
      nodeRows pCtx.aCandidates := by
    rw [hsplit]
    simp [nodeRows, hrow]
  have hmem : ∀ q ∈ a ++ ({ node with visited := true }, p.2) :: b,
      q = ({ node with visited := true }, p.2) ∨
        q ∈ pCtx.aCandidates ∧ q.1.nRowid ≠ p.1.nRowid := fun _ hq => h.mem_replaced hsplit hq
  have hcount := h.count
  rw [hsplit, List.countP_append, List.countP_cons] at hcount
  simp only [hv, Bool.not_false, if_true] at hcount
  have hpmem : p ∈ pCtx.aCandidates := hsplit ▸ List.mem_append_right _ (by simp)
  unfold diskAnnSearchCtxMarkVisited
  simp only [hmod]
  -- one entry becomes visited: the rows are the same, one less is unvisited
  refine ⟨h.query_eq, ?_, ?_, ?_, ?_, ?_, ?_, ?_, ?_, ?_⟩
  · have := h.bounded
    rw [hsplit] at this
    simpa using this
  · rw [hrows]
    exact h.distinct
  · exact List.nodup_cons.mpr ⟨hrow ▸ h.fresh p hpmem hv, h.once⟩
  · intro q hq hqv
    rcases hmem q hq with rfl | ⟨hq, -⟩
    · exact List.mem_cons_self
    · exact List.mem_cons_of_mem _ (h.visited_mem q hq hqv)
  · intro q hq hqv
    rcases hmem q hq with rfl | ⟨hq, hne⟩
    · simp at hqv
    · refine fun hin => (List.mem_cons.mp hin).elim (fun heq => hne ?_) (h.fresh q hq hqv)
      exact heq.trans hrow
  · show pCtx.nUnvisited - 1 = (a ++ ({ node with visited := true }, p.2) :: b).countP _
    rw [List.countP_append, List.countP_cons]
    simp only [Bool.not_true, Bool.false_eq_true, if_false]
    omega
  · intro q hq
    rcases hmem q hq with rfl | ⟨hq, -⟩
    · exact hspot
    · exact h.spots q hq
  · intro q hq
    rcases List.mem_cons.mp hq with rfl | hq
    · exact hload
    · exact h.loaded q hq
  · intro q hq
    rcases List.mem_append.mp hq with hq | hq
    · rcases hmem q hq with rfl | ⟨hq, -⟩
      · exact hrow ▸ h.weights p (List.mem_append_left _ hpmem)
      · exact h.weights q (List.mem_append_left _ hq)
    · rcases List.mem_cons.mp hq with rfl | hq
      · exact hR
      · exact h.weights q (List.mem_append_right _ hq)

/-! ### One round -/

/-- What the loop over edges leaves alone. -/
structure SameVisits (pCtx pCtx' : DiskAnnSearchCtx D) : Prop where
  visited : pCtx'.visitedList = pCtx.visitedList
  top : pCtx'.aTopCandidates = pCtx.aTopCandidates
  maxTop : pCtx'.maxTopCandidates = pCtx.maxTopCandidates
  mode : pCtx'.blobMode = pCtx.blobMode

variable [LT D] [DecidableLT D]

theorem CtxInv.searchEdge (math : VectorMath D) (h : CtxInv read S query R pCtx) {edge : NodeEdge}
    (hR : R edge.rowid (diskAnnVectorDistance math pIndex query.pEdge edge.vector)) :
    CtxInv read S query R (diskAnnSearchEdge math pIndex pCtx edge) ∧
      SameVisits pCtx (diskAnnSearchEdge math pIndex pCtx edge) ∧
      (diskAnnSearchEdge math pIndex pCtx edge).nUnvisited ≤ pCtx.nUnvisited + 1 := by
  unfold diskAnnSearchEdge
  split_ifs with hknown
  · exact ⟨h, ⟨rfl, rfl, rfl, rfl⟩, by omega⟩
  · simp only [Bool.or_eq_true, not_or, diskAnnSearchCtxIsVisited, diskAnnSearchCtxHasCandidate,
      List.any_eq_true, decide_eq_true_eq, not_exists, not_and] at hknown
    simp only
    split
    · exact ⟨h, ⟨rfl, rfl, rfl, rfl⟩, by omega⟩
    · rename_i iInsert hidx
      have hlen : (pCtx.aCandidates.map Prod.snd).length ≤ pCtx.maxCandidates := by
        rw [List.length_map]
        exact h.bounded
      obtain ⟨hle, hmax, -, -⟩ := distanceBufferInsertIdx_some hlen hidx
      rw [List.length_map] at hle
      refine ⟨h.insertCandidate _ hle hmax ?_ ?_ rfl (by simp [diskAnnNodeAlloc]) ?_,
        ⟨rfl, rfl, rfl, rfl⟩, ?_⟩
      · intro hmem
        obtain ⟨p, hp, heq⟩ := List.mem_map.mp hmem
        exact hknown.2 p hp heq
      · intro hmem
        obtain ⟨p, hp, heq⟩ := List.mem_map.mp hmem
        exact hknown.1 p hp heq
      · rw [h.query_eq]
        exact hR
      · simp only [diskAnnSearchCtxInsertCandidate]
        split_ifs <;> omega

/-- The loop over the edges of a visited node. -/
theorem CtxInv.searchEdges (math : VectorMath D) (h : CtxInv read S query R pCtx) {buf : List UInt8}
    (hR : ∀ i < nodeBinEdges buf, R (nodeBinEdge pIndex buf i).rowid
      (diskAnnVectorDistance math pIndex query.pEdge (nodeBinEdge pIndex buf i).vector)) :
    CtxInv read S query R (diskAnnSearchEdges math pIndex buf pCtx) ∧
      SameVisits pCtx (diskAnnSearchEdges math pIndex buf pCtx) ∧
      (diskAnnSearchEdges math pIndex buf pCtx).nUnvisited ≤
        pCtx.nUnvisited + nodeBinEdges buf := by
  have hfold : ∀ (l : List ℕ) (pCtx : DiskAnnSearchCtx D), CtxInv read S query R pCtx →
      (∀ i ∈ l, i < nodeBinEdges buf) →
      let pCtx' := l.foldl
        (fun pCtx i => diskAnnSearchEdge math pIndex pCtx (nodeBinEdge pIndex buf i)) pCtx
      CtxInv read S query R pCtx' ∧ SameVisits pCtx pCtx' ∧
        pCtx'.nUnvisited ≤ pCtx.nUnvisited + l.length := by
    intro l
    induction l with
    | nil => exact fun pCtx h _ => ⟨h, ⟨rfl, rfl, rfl, rfl⟩, le_rfl⟩
    | cons i l ih =>
        intro pCtx h hl
        obtain ⟨h₁, same₁, hn₁⟩ := h.searchEdge math (hR i (hl i (by simp)))
        obtain ⟨h₂, same₂, hn₂⟩ := ih _ h₁ fun j hj => hl j (by simp [hj])
        refine ⟨h₂, ⟨same₂.visited.trans same₁.visited, same₂.top.trans same₁.top,
          same₂.maxTop.trans same₁.maxTop, same₂.mode.trans same₁.mode⟩, ?_⟩
        rw [List.length_cons, List.foldl_cons]
        omega
  have key := hfold (List.range (nodeBinEdges buf)) pCtx h fun i hi => List.mem_range.mp hi
  rwa [List.length_range] at key

/-- Loading a candidate reads the store; in a search that writes, the candidate
keeps its block. -/
theorem loadCandidate_spec {pReusable : Option BlobSpot} {node : DiskAnnNode}
    (hre : ∀ spot ∈ pReusable, SpotOk pIndex kv spot)
    (hspot : ∀ spot ∈ node.pBlobSpot, SpotOk pIndex kv spot) :
    ∃ rc node' pReusable' buf,
      loadCandidate pIndex kv pReusable node = (rc, node', pReusable', buf) ∧
      (∀ spot ∈ pReusable', SpotOk pIndex kv spot) ∧ (pReusable = none → pReusable' = none) ∧
      node'.nRowid = node.nRowid ∧ (∀ spot ∈ node'.pBlobSpot, SpotOk pIndex kv spot) ∧
      match blobSpotRead pIndex kv node.nRowid with
      | .ok block => rc = none ∧ buf = block ∧ (pReusable = none →
          ∃ spot, node'.pBlobSpot = some spot ∧ spot.nRowid = node.nRowid ∧ spot.pBuffer = block)
      | .error e => rc = some e := by
  unfold loadCandidate
  rcases pReusable with - | spot
  · have hown : SpotOk pIndex kv (node.pBlobSpot.getD (blobSpotCreate pIndex node.nRowid)) := by
      rcases hnode : node.pBlobSpot with - | spot
      · exact SpotOk.create pIndex kv node.nRowid
      · exact hspot spot hnode
    obtain ⟨hok, hrow, hread⟩ := blobSpotReload_spec hown node.nRowid
    refine ⟨_, _, _, _, rfl, by simp, fun _ => rfl, rfl, ?_, ?_⟩
    · rintro spot ⟨⟩
      exact hok
    · rcases he : blobSpotRead pIndex kv node.nRowid with rc | block
      · rw [he] at hread
        exact hread
      · rw [he] at hread
        exact ⟨hread.1, hread.2, fun _ => ⟨_, rfl, hrow, hread.2⟩⟩
  · obtain ⟨hok, -, hread⟩ := blobSpotReload_spec (hre spot rfl) node.nRowid
    refine ⟨_, _, _, _, rfl, ?_, nofun, rfl, hspot, ?_⟩
    · rintro spot' ⟨⟩
      exact hok
    · rcases he : blobSpotRead pIndex kv node.nRowid with rc | block
      · rw [he] at hread
        exact hread
      · rw [he] at hread
        exact ⟨hread.1, hread.2, nofun⟩

/-- The reusable spot of a search satisfies `S`, and there is none in a search
that writes. -/
structure ReusableOk (S : BlobSpot → Prop) (pCtx : DiskAnnSearchCtx D)
    (pReusable : Option BlobSpot) : Prop where
  holds : ∀ spot ∈ pReusable, S spot
  own : pCtx.blobMode = .writable → pReusable = none

/-- What one round makes of a context, for the candidate `node` at position `i`:
it drops a candidate whose row is gone, or visits a row of the table and offers
its edges. -/
inductive SearchRound (math : VectorMath D) (pIndex : DiskAnnIndex)
    (read : UInt64 → Except Rc (List UInt8)) (S : BlobSpot → Prop) (pCtx : DiskAnnSearchCtx D)
    (i : ℕ) (node : DiskAnnNode) (d : D) : DiskAnnSearchCtx D → Prop
  | gone : read node.nRowid = .error .rowNotFound →
      SearchRound math pIndex read S pCtx i node d (diskAnnSearchCtxDeleteCandidate pCtx i)
  | visit {node' : DiskAnnNode} {buf : List UInt8} : node'.nRowid = node.nRowid →
      read node.nRowid = .ok buf → (∀ spot ∈ node'.pBlobSpot, S spot) →
      (pCtx.blobMode = .writable →
        ∃ spot, node'.pBlobSpot = some spot ∧ spot.nRowid = node'.nRowid ∧ spot.pBuffer = buf) →
      SearchRound math pIndex read S pCtx i node d
        (diskAnnSearchEdges math pIndex buf (diskAnnSearchCtxMarkVisited pCtx i node'
          (visitDistance math pIndex pCtx buf d)))

/-- **A successful step is a round.** -/
theorem diskAnnSearchStep_round {math : VectorMath D}
    (h : CtxInv (blobSpotRead pIndex kv) (SpotOk pIndex kv) query R pCtx)
    {pReusable pReusable' : Option BlobSpot} (hre : ReusableOk (SpotOk pIndex kv) pCtx pReusable)
    {i : ℕ} {node : DiskAnnNode} {d : D} (hp : pCtx.aCandidates[i]? = some (node, d))
    {pCtx' : DiskAnnSearchCtx D}
    (hstep : diskAnnSearchStep math pIndex kv pCtx pReusable i node d =
      .ok (pCtx', pReusable')) :
    ReusableOk (SpotOk pIndex kv) pCtx pReusable' ∧
      SearchRound math pIndex (blobSpotRead pIndex kv) (SpotOk pIndex kv) pCtx i node d pCtx' := by
  have hmem : (node, d) ∈ pCtx.aCandidates := List.mem_of_getElem? hp
  obtain ⟨rc, node', re, buf, hload, hholds, hnone, hrow, hspots, hread⟩ :=
    loadCandidate_spec hre.holds (h.spots (node, d) hmem)
  have hre' : ReusableOk (SpotOk pIndex kv) pCtx re :=
    ⟨hholds, fun hmode => hnone (hre.own hmode)⟩
  unfold diskAnnSearchStep at hstep
  rw [hload] at hstep
  rcases he : blobSpotRead pIndex kv node.nRowid with e | block
  · rw [he] at hread
    subst hread
    cases e with
    | rowNotFound =>
        obtain ⟨rfl, rfl⟩ := Prod.mk.inj (Except.ok.inj hstep)
        exact ⟨hre', .gone he⟩
    | done => cases hstep
    | notFound => cases hstep
    | nomem => cases hstep
    | error => cases hstep
  · rw [he] at hread
    obtain ⟨rfl, rfl, hown⟩ := hread
    obtain ⟨rfl, rfl⟩ := Prod.mk.inj (Except.ok.inj hstep)
    refine ⟨hre', .visit hrow he hspots fun hmode => ?_⟩
    rw [hrow]
    exact hown (hre.own hmode)

/-! ### The loop -/

/-- At most `n` rows have a block. -/
def RowsLe (read : UInt64 → Except Rc (List UInt8)) (n : ℕ) : Prop :=
  ∀ rows : List UInt64, rows.Nodup → (∀ r ∈ rows, ∃ buf, read r = .ok buf) → rows.length ≤ n

theorem rowsLe_kv (pIndex : DiskAnnIndex) (kv : Kv) :
    RowsLe (blobSpotRead pIndex kv) kv.entries.length := by
  intro rows hnodup hrows
  have hsub : rows.map (blobSpotBuildKey pIndex) ⊆ kv.entries.map Prod.fst := by
    intro key hkey
    obtain ⟨r, hr, rfl⟩ := List.mem_map.mp hkey
    obtain ⟨buf, hread⟩ := hrows r hr
    obtain ⟨pData, hdata⟩ := Option.isSome_iff_exists.mp (hasRow_of_read hread)
    exact List.mem_map_of_mem (kv.get?_eq_some_iff.mp hdata)
  have hkeys := hnodup.map (blobSpotBuildKey_injective pIndex)
  have hle := (List.subperm_of_subset hkeys hsub).length_le
  simpa using hle

omit [LT D] [DecidableLT D] in
/-- A search visits no more nodes than rows have a block. -/
theorem CtxInv.visited_le (h : CtxInv read S query R pCtx) {n : ℕ} (hn : RowsLe read n) :
    pCtx.visitedList.length ≤ n := by
  have hle := hn (nodeRows pCtx.visitedList) h.once fun r hr => by
    obtain ⟨p, hp, rfl⟩ := List.mem_map.mp hr
    obtain ⟨buf, hread, -⟩ := h.loaded p hp
    exact ⟨buf, hread⟩
  rwa [nodeRows, List.length_map] at hle

/-- Rounds left at most, where `n` rows have a block: the rows that are not
visited, each with room for the edges of a node, and the candidates that are
waiting. -/
def searchMeasure (n : ℕ) (pCtx : DiskAnnSearchCtx D) : ℕ :=
  65536 * (n - pCtx.visitedList.length) + pCtx.nUnvisited

/-- `R` holds of the distances that a search computes. -/
structure WeightsOk (math : VectorMath D) (pIndex : DiskAnnIndex)
    (read : UInt64 → Except Rc (List UInt8)) (query : VectorPair) (R : UInt64 → D → Prop) :
    Prop where
  edge : ∀ r buf, read r = .ok buf → ∀ i < nodeBinEdges buf,
    R (nodeBinEdge pIndex buf i).rowid
      (diskAnnVectorDistance math pIndex query.pEdge (nodeBinEdge pIndex buf i).vector)
  visit : ∀ r buf d, read r = .ok buf → R r d →
    pIndex.nNodeVectorType ≠ pIndex.nEdgeVectorType →
    R r (diskAnnVectorDistance math pIndex (nodeBinVector pIndex buf) query.pNode)

/-- A fact about the visited and the top candidates that marking a node keeps. -/
structure VisitInv (T : DiskAnnSearchCtx D → Prop) : Prop where
  mark : ∀ pCtx i node d, T pCtx → T (diskAnnSearchCtxMarkVisited pCtx i node d)
  same : ∀ pCtx pCtx', SameVisits pCtx pCtx' → T pCtx → T pCtx'

variable {math : VectorMath D} {T : DiskAnnSearchCtx D → Prop}

/-- **One round keeps the invariant and makes the measure smaller.** -/
theorem CtxInv.step (h : CtxInv read S query R pCtx) (hW : WeightsOk math pIndex read query R)
    (hT : VisitInv T) (ht : T pCtx) {n : ℕ} (hn : RowsLe read n) {i : ℕ} {node : DiskAnnNode}
    {d : D} (hp : pCtx.aCandidates[i]? = some (node, d)) (hv : node.visited = false)
    {pCtx' : DiskAnnSearchCtx D}
    (hround : SearchRound math pIndex read S pCtx i node d pCtx') :
    CtxInv read S query R pCtx' ∧ T pCtx' ∧ pCtx'.blobMode = pCtx.blobMode ∧
      pCtx'.maxTopCandidates = pCtx.maxTopCandidates ∧
      searchMeasure n pCtx' < searchMeasure n pCtx := by
  have hpos : 0 < pCtx.nUnvisited := by
    rw [h.count, List.countP_pos_iff]
    exact ⟨(node, d), List.mem_of_getElem? hp, by simp [hv]⟩
  cases hround with
  | gone hgone =>
      refine ⟨h.deleteCandidate hp hv, hT.same pCtx _ ⟨rfl, rfl, rfl, rfl⟩ ht, rfl, rfl, ?_⟩
      simp only [searchMeasure, diskAnnSearchCtxDeleteCandidate]
      omega
  | @visit node' buf hrow hread hspots hown =>
      have hR : R node'.nRowid (visitDistance math pIndex pCtx buf d) := by
        have hold := h.weights (node, d) (List.mem_append_left _ (List.mem_of_getElem? hp))
        unfold visitDistance
        rw [hrow]
        split_ifs with htype
        · rw [h.query_eq]
          exact hW.visit _ _ _ hread hold htype
        · exact hold
      have hmark := h.markVisited hp hv hrow hspots
        ⟨buf, by rw [hrow]; exact hread, fun hmode => hown hmode⟩ hR
      obtain ⟨hinv, same, hle⟩ := hmark.searchEdges math fun i hi => hW.edge _ _ hread i hi
      have hvisited := hinv.visited_le hn
      have hedges := nodeBinEdges_lt buf
      refine ⟨hinv, hT.same _ _ same (hT.mark _ _ _ _ ht), same.mode, same.maxTop, ?_⟩
      rw [same.visited] at hvisited
      simp only [searchMeasure, same.visited]
      simp only [diskAnnSearchCtxMarkVisited, List.length_cons] at hle hvisited ⊢
      omega

omit [LT D] [DecidableLT D] in
/-- The closest candidate that is found is one that is not visited. -/
theorem findClosest_some {i : ℕ} {node : DiskAnnNode} {d : D}
    (hidx : diskAnnSearchCtxFindClosestCandidateIdx pCtx = some i)
    (hp : pCtx.aCandidates[i]? = some (node, d)) : node.visited = false := by
  obtain ⟨hi, hpred, -⟩ := List.findIdx?_eq_some_iff_getElem.mp hidx
  rw [List.getElem?_eq_getElem hi, Option.some.injEq] at hp
  rw [hp] at hpred
  simpa using hpred

/-- **A search with enough fuel ends because no candidate is left to visit**, and
keeps the invariant. -/
theorem diskAnnSearchLoop_run (hW : WeightsOk math pIndex (blobSpotRead pIndex kv) query R)
    (hT : VisitInv T) {fuel : ℕ} {pReusable : Option BlobSpot} {pCtx' : DiskAnnSearchCtx D}
    (h : CtxInv (blobSpotRead pIndex kv) (SpotOk pIndex kv) query R pCtx) (ht : T pCtx)
    (hre : ReusableOk (SpotOk pIndex kv) pCtx pReusable)
    (hfuel : searchMeasure kv.entries.length pCtx ≤ fuel)
    (hloop : diskAnnSearchLoop math pIndex kv fuel pCtx pReusable = .ok pCtx') :
    CtxInv (blobSpotRead pIndex kv) (SpotOk pIndex kv) query R pCtx' ∧ T pCtx' ∧
      pCtx'.blobMode = pCtx.blobMode ∧ pCtx'.maxTopCandidates = pCtx.maxTopCandidates ∧
      diskAnnSearchCtxHasUnvisited pCtx' = false := by
  induction fuel generalizing pCtx pReusable with
  | zero =>
      obtain rfl := Except.ok.inj hloop
      refine ⟨h, ht, rfl, rfl, ?_⟩
      simp only [searchMeasure, Nat.le_zero] at hfuel
      simp [diskAnnSearchCtxHasUnvisited]
      omega
  | succ fuel ih =>
      unfold diskAnnSearchLoop at hloop
      split_ifs at hloop with hunv
      · split at hloop
        · cases hloop
        · rename_i i hidx
          split at hloop
          · cases hloop
          · rename_i node d hp
            split at hloop
            · cases hloop
            · rename_i pCtx₁ re₁ hstep
              obtain ⟨hre₁, hround⟩ := diskAnnSearchStep_round h hre hp hstep
              obtain ⟨h₁, ht₁, hmode₁, htop₁, hlt⟩ :=
                h.step hW hT ht (rowsLe_kv pIndex kv) hp (findClosest_some hidx hp) hround
              obtain ⟨h₂, ht₂, hmode₂, htop₂, hdone⟩ :=
                ih h₁ ht₁ ⟨hre₁.holds, fun hw => hre₁.own (hmode₁ ▸ hw)⟩ (by omega) hloop
              exact ⟨h₂, ht₂, hmode₂.trans hmode₁, htop₂.trans htop₁, hdone⟩
      · obtain rfl := Except.ok.inj hloop
        exact ⟨h, ht, rfl, rfl, by simpa using hunv⟩

/-! ### The whole search -/

omit [LT D] [DecidableLT D] in
/-- A context as `diskAnnSearchCtxInit` leaves it. -/
theorem CtxInv.init (read : UInt64 → Except Rc (List UInt8)) (S : BlobSpot → Prop)
    (R : UInt64 → D → Prop) {pQuery : Vector} {maxCandidates topCandidates : ℕ}
    {blobMode : BlobMode}
    (hinit : diskAnnSearchCtxInit math pIndex pQuery maxCandidates topCandidates blobMode =
      some pCtx) :
    CtxInv read S (loadVectorPair math pIndex pQuery) R pCtx ∧
      pCtx.aCandidates = [] ∧ pCtx.visitedList = [] ∧ pCtx.aTopCandidates = [] ∧
      0 < pCtx.maxCandidates ∧ pCtx.maxTopCandidates = topCandidates ∧
      pCtx.blobMode = blobMode := by
  unfold diskAnnSearchCtxInit at hinit
  split_ifs at hinit with hmem
  obtain rfl := Option.some.inj hinit
  have hpos : 0 < maxCandidates := by
    rcases Nat.eq_zero_or_pos maxCandidates with rfl | hpos
    · exact absurd hmem.1 (by decide)
    · exact hpos
  exact ⟨⟨rfl, Nat.zero_le _, List.nodup_nil, List.nodup_nil, by simp, by simp, rfl, by simp,
    by simp, by simp⟩, rfl, rfl, rfl, hpos, rfl, rfl⟩

omit [LT D] [DecidableLT D] in
/-- The start node is the first candidate. -/
theorem CtxInv.start (read : UInt64 → Except Rc (List UInt8)) {pQuery : Vector}
    {maxCandidates topCandidates : ℕ} {blobMode : BlobMode}
    (hinit : diskAnnSearchCtxInit math pIndex pQuery maxCandidates topCandidates blobMode =
      some pCtx) (node : DiskAnnNode) {d : D} (hfresh : node.visited = false)
    (hspot : ∀ spot ∈ node.pBlobSpot, S spot) (hR : R node.nRowid d) :
    CtxInv read S (loadVectorPair math pIndex pQuery) R
        (diskAnnSearchCtxInsertCandidate pCtx 0 node d) ∧
      ∀ n, searchMeasure n (diskAnnSearchCtxInsertCandidate pCtx 0 node d) ≤ 65536 * n + 1 := by
  obtain ⟨hinv, hcand, hvisited, -, hmax, -⟩ := CtxInv.init read S R hinit
  refine ⟨hinv.insertCandidate node (Nat.zero_le _) hmax (by simp [hcand, nodeRows])
    (by simp [hvisited, nodeRows]) hfresh hspot hR, fun n => ?_⟩
  have hzero : pCtx.nUnvisited = 0 := by rw [hinv.count, hcand]; rfl
  simp only [searchMeasure, diskAnnSearchCtxInsertCandidate, hvisited, hzero]
  split_ifs <;> simp

/-- **What a successful search leaves**, from a fresh context. -/
theorem diskAnnSearchInternal_run {pQuery : Vector} {maxCandidates topCandidates : ℕ}
    {blobMode : BlobMode}
    (hinit : diskAnnSearchCtxInit math pIndex pQuery maxCandidates topCandidates blobMode =
      some pCtx)
    (hW : WeightsOk math pIndex (blobSpotRead pIndex kv) (loadVectorPair math pIndex pQuery) R)
    (hT : VisitInv T) (ht : T pCtx) {nStartRowid : UInt64}
    (hstart : ∀ buf, blobSpotRead pIndex kv nStartRowid = .ok buf →
      R nStartRowid (diskAnnVectorDistance math pIndex pQuery (nodeBinVector pIndex buf)))
    {pCtx' : DiskAnnSearchCtx D}
    (h : diskAnnSearchInternal math pIndex kv pCtx nStartRowid = .ok pCtx') :
    CtxInv (blobSpotRead pIndex kv) (SpotOk pIndex kv) (loadVectorPair math pIndex pQuery) R
        pCtx' ∧ T pCtx' ∧
      pCtx'.blobMode = blobMode ∧ pCtx'.maxTopCandidates = topCandidates ∧
      diskAnnSearchCtxHasUnvisited pCtx' = false := by
  obtain ⟨hinv, -, -, -, -, htop, hmode⟩ :=
    CtxInv.init (blobSpotRead pIndex kv) (SpotOk pIndex kv) R hinit
  obtain ⟨hok, hrow, hread⟩ :=
    blobSpotReload_spec (SpotOk.create pIndex kv nStartRowid) nStartRowid
  have hquery : pCtx.query.pNode = pQuery := by rw [hinv.query_eq]; rfl
  unfold diskAnnSearchInternal at h
  rcases he : blobSpotRead pIndex kv nStartRowid with rc | block
  · rw [he] at hread
    simp only [hread] at h
    cases h
  · rw [he] at hread
    obtain ⟨hrc, hbuf⟩ := hread
    simp only [hrc] at h
    have hR := hstart block he
    rw [← hbuf, ← hquery] at hR
    split at h
    · -- a read-only search: the spot is reused
      rename_i hread
      obtain ⟨hins, hfuel⟩ := CtxInv.start (S := SpotOk pIndex kv) (blobSpotRead pIndex kv) hinit
        (diskAnnNodeAlloc nStartRowid) rfl (by simp [diskAnnNodeAlloc]) hR
      obtain ⟨h₁, ht₁, hmode₁, htop₁, hdone⟩ := diskAnnSearchLoop_run hW hT hins
        (hT.same pCtx _ ⟨rfl, rfl, rfl, rfl⟩ ht)
        ⟨by rintro spot ⟨⟩; exact hok, fun hw => absurd (hread.symm.trans hw) (by simp)⟩
        (hfuel _) h
      exact ⟨h₁, ht₁, hmode₁.trans hmode, htop₁.trans htop, hdone⟩
    · -- a writable search: the start node keeps the spot
      obtain ⟨hins, hfuel⟩ := CtxInv.start (S := SpotOk pIndex kv) (blobSpotRead pIndex kv) hinit
        { diskAnnNodeAlloc nStartRowid with
          pBlobSpot := some
            (blobSpotReload pIndex kv (blobSpotCreate pIndex nStartRowid) nStartRowid).2 }
        rfl (by rintro spot ⟨⟩; exact hok) hR
      obtain ⟨h₁, ht₁, hmode₁, htop₁, hdone⟩ := diskAnnSearchLoop_run hW hT hins
        (hT.same pCtx _ ⟨rfl, rfl, rfl, rfl⟩ ht) ⟨by simp, fun _ => rfl⟩ (hfuel _) h
      exact ⟨h₁, ht₁, hmode₁.trans hmode, htop₁.trans htop, hdone⟩

end Invariant

/-! ### The top candidates -/

section Top

variable {D : Type} [LinearOrder D] {math : VectorMath D} {pIndex : DiskAnnIndex} {kv : Kv}

/-- The top candidates of a context are the closest of its recorded nodes. -/
def TopOk (pCtx : DiskAnnSearchCtx D) : Prop :=
  TopK.IsTop pCtx.maxTopCandidates pCtx.recorded pCtx.aTopCandidates

theorem TopOk.visitInv : VisitInv (TopOk (D := D)) where
  mark := fun _ _ _ _ h => isTop_topInsert h _ _
  same := fun pCtx pCtx' same h => by
    unfold TopOk DiskAnnSearchCtx.recorded
    rw [same.maxTop, same.visited, same.top]
    exact h

theorem TopOk.init {pQuery : Vector} {L k : ℕ} {blobMode : BlobMode} {pCtx : DiskAnnSearchCtx D}
    (hinit : diskAnnSearchCtxInit math pIndex pQuery L k blobMode = some pCtx) : TopOk pCtx := by
  obtain ⟨-, -, hvisited, htop, -⟩ :=
    CtxInv.init (fun _ => .error .error) (fun _ => True) (fun _ _ => True) hinit
  unfold TopOk DiskAnnSearchCtx.recorded
  rw [hvisited, htop]
  exact TopK.IsTop.nil _

end Top

/-- Row 1 at 0 with edges to row 2 at 1 and to row 9, which is not there, and
row 2 without edges. -/
def twoRows : Kv :=
  let node := nodeBinInit smallIndex 1 (wholeVector 0)
  let node := nodeBinReplaceEdge smallIndex node 0 ⟨2, bitsOfWhole 1, wholeVector 1⟩
  let node := nodeBinReplaceEdge smallIndex node 1 ⟨9, bitsOfWhole 7, wholeVector 7⟩
  let kv := blobSpotFlush smallIndex ⟨[], List.Pairwise.nil⟩
    { blobSpotCreate smallIndex 1 with pBuffer := node }
  blobSpotFlush smallIndex kv
    { blobSpotCreate smallIndex 2 with pBuffer := nodeBinInit smallIndex 2 (wholeVector 1) }

end MoVeBench
