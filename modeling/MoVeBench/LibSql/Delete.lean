/-
MoVeBench/LibSql/Delete.lean

The deletion of the libSQL original, and where the two programs leave the same graph.

The original loads the same neighbours, but looks in the block of a neighbour for an edge
to that neighbour instead of one to the deleted row.  No node has an edge to itself, so on
a sound graph the loop changes nothing (`deleteEdges_idle`), and edges back to the
deleted row stay.  The programs agree exactly where there are no such edges
(`diskAnnDelete_same`).
-/
import MoVeBench.DiskAnn.Delete
import MoVeBench.LibSql.Refine

namespace MoVeBench

namespace LibSql

/-! ### Deletion -/

section Model

variable (pIndex : DiskAnnIndex)

/-- The loop of `diskAnnDelete` over the edges `is` of the deleted node. -/
def deleteEdges (nodeBuf : List UInt8) : List ℕ → Blobs → BlobSpot → Except VectorError Blobs
  | [], blobs, _ => .ok blobs
  | i :: is, blobs, pEdgeBlob =>
      let edgeRowid := (nodeBinEdge pIndex nodeBuf i).rowid
      let r := blobSpotReload pIndex blobs pEdgeBlob edgeRowid
      match r.1 with
      | some .rowNotFound => deleteEdges nodeBuf is blobs r.2
      | some rc =>
          .error ⟨rc, s!"vector index(delete): failed to reload blob for edge row: {rc.code}"⟩
      | none =>
          -- the row that is looked for is the neighbour's own
          match nodeBinEdgeFindIdx pIndex r.2.pBuffer edgeRowid with
          | none => deleteEdges nodeBuf is blobs r.2
          | some iDelete =>
              let pEdgeBlob :=
                { r.2 with pBuffer := nodeBinDeleteEdge pIndex r.2.pBuffer iDelete }
              match blobSpotFlush blobs pEdgeBlob with
              | .error rc =>
                  .error ⟨rc, "vector index(delete): failed to flush blob for edge row"⟩
              | .ok blobs => deleteEdges nodeBuf is blobs pEdgeBlob

/-- `diskAnnDeleteShadowRow`. -/
def diskAnnDeleteShadowRow (blobs : Blobs) (nRowid : UInt64) : Blobs :=
  blobs.erase (rowidToInt nRowid)

/-- `diskAnnDelete`. -/
def diskAnnDelete (blobs : Blobs) (nodeRowid : UInt64) : Except VectorError Blobs :=
  match blobSpotCreate pIndex blobs nodeRowid with
  | .error .rowNotFound => .ok blobs
  | .error rc => .error ⟨rc, "vector index(delete): failed to create blob for node row"⟩
  | .ok pNodeBlob =>
      let r := blobSpotReload pIndex blobs pNodeBlob nodeRowid
      match r.1 with
      | some rc => .error ⟨rc, "vector index(delete): failed to reload blob for node row"⟩
      | none =>
          match blobSpotCreate pIndex blobs nodeRowid with
          | .error rc => .error ⟨rc, "vector index(delete): failed to create blob for edge rows"⟩
          | .ok pEdgeBlob =>
              let nodeBuf := r.2.pBuffer
              match deleteEdges pIndex nodeBuf (List.range (nodeBinEdges nodeBuf)) blobs
                  pEdgeBlob with
              | .error e => .error e
              | .ok blobs => .ok (diskAnnDeleteShadowRow blobs nodeRowid)

end Model

/-! ### On sound graphs -/

section Graph

variable {pIndex : DiskAnnIndex} {kv : Kv} {blobs : Blobs} {P : NodeEdge → Prop}
  {nodeRowid : UInt64}

/-- The two programs hold the same rows, each with the same list of edges. -/
def SameGraph (pIndex : DiskAnnIndex) (kv : Kv) (blobs : Blobs) : Prop :=
  ∀ n, (HasRow pIndex kv n ↔ (blobs.get? (rowidToInt n)).isSome = true) ∧
    (blobSpotRead pIndex kv n).toOption.map (edgesOf pIndex) =
      (rowRead pIndex blobs n).toOption.map (edgesOf pIndex)

/-- A node has no edge to itself. -/
theorem findIdx_self_none {n : UInt64} {buf : List UInt8} (hok : NodeOk pIndex n buf) :
    nodeBinEdgeFindIdx pIndex buf n = none := by
  apply List.find?_eq_none.mpr
  intro i hi
  simpa using hok.no_self i (List.mem_range.mp hi)

/-- **The loop changes nothing.** -/
theorem deleteEdges_idle (hgraph : GraphOk pIndex kv P) (hsame : SameBlobs pIndex kv blobs)
    (nodeBuf : List UInt8) (is : List ℕ) {pEdgeBlob : BlobSpot}
    (hspot : SpotOk pIndex blobs pEdgeBlob) :
    deleteEdges pIndex nodeBuf is blobs pEdgeBlob = .ok blobs := by
  induction is generalizing pEdgeBlob with
  | nil => rfl
  | cons i is ih =>
      obtain ⟨hspot', hread⟩ := blobSpotReload_spec hspot (nodeBinEdge pIndex nodeBuf i).rowid
      rw [hsame.rowRead_eq] at hread
      simp only [deleteEdges]
      generalize blobSpotReload pIndex blobs pEdgeBlob (nodeBinEdge pIndex nodeBuf i).rowid = r
        at hspot' hread ⊢
      obtain ⟨code, spot⟩ := r
      simp only at hspot' hread ⊢
      rcases he : blobSpotRead pIndex kv (nodeBinEdge pIndex nodeBuf i).rowid with rc | buf
      · rw [he] at hread
        subst hread
        rw [hgraph.rowNotFound he]
        exact ih hspot'
      · rw [he] at hread
        obtain ⟨rfl, -, rfl⟩ := hread
        obtain ⟨buf, hbuf, hok, -⟩ := hgraph _ (hasRow_of_read he)
        obtain rfl := Except.ok.inj (he.symm.trans hbuf)
        rw [findIdx_self_none hok]
        exact ih hspot'

/-- The original removes the row, and changes nothing else. -/
theorem diskAnnDelete_idle (hgraph : GraphOk pIndex kv P) (hsame : SameBlobs pIndex kv blobs)
    (nodeRowid : UInt64) :
    diskAnnDelete pIndex blobs nodeRowid = .ok (diskAnnDeleteShadowRow blobs nodeRowid) ∨
      ¬HasRow pIndex kv nodeRowid ∧ diskAnnDelete pIndex blobs nodeRowid = .ok blobs := by
  by_cases hrow : HasRow pIndex kv nodeRowid
  · left
    obtain ⟨buf, hbuf, -⟩ := hgraph nodeRowid hrow
    have hopen : blobOpen blobs nodeRowid = .ok () := if_pos ((hsame.hasRow nodeRowid).mpr hrow)
    obtain ⟨spot, hcreate⟩ : ∃ spot, blobSpotCreate pIndex blobs nodeRowid = .ok spot := by
      unfold blobSpotCreate
      rw [hopen]
      exact ⟨_, rfl⟩
    have hspot := (SpotOk.create hcreate).1
    obtain ⟨-, hread⟩ := blobSpotReload_spec hspot nodeRowid
    rw [hsame.rowRead_eq, hbuf] at hread
    unfold diskAnnDelete
    simp only [hcreate, hread.1, deleteEdges_idle hgraph hsame _ _ hspot]
  · right
    have hopen : blobOpen blobs nodeRowid = .error .rowNotFound :=
      if_neg fun hsome => hrow ((hsame.hasRow nodeRowid).mp hsome)
    refine ⟨hrow, ?_⟩
    unfold diskAnnDelete blobSpotCreate
    rw [hopen]

/-- What the original leaves of the rows. -/
theorem diskAnnDelete_rows (hgraph : GraphOk pIndex kv P) (hsame : SameBlobs pIndex kv blobs)
    (nodeRowid : UInt64) :
    ∃ blobs', diskAnnDelete pIndex blobs nodeRowid = .ok blobs' ∧
      ∀ n, blobs'.get? (rowidToInt n) =
        if n = nodeRowid then none else blobs.get? (rowidToInt n) := by
  rcases diskAnnDelete_idle hgraph hsame nodeRowid with hdel | ⟨hno, hdel⟩
  · refine ⟨_, hdel, ?_⟩
    intro n
    unfold diskAnnDeleteShadowRow
    rw [SortedMap.get?_erase]
    split_ifs with hkey hn hn
    · rfl
    · exact absurd (rowidToInt_injective hkey) hn
    · exact absurd (congrArg rowidToInt hn) hkey
    · rfl
  · refine ⟨blobs, hdel, ?_⟩
    intro n
    split_ifs with hn
    · subst hn
      have hnone : ¬(blobs.get? (rowidToInt n)).isSome = true := fun hsome =>
        hno ((hsame.hasRow n).mp hsome)
      exact Option.not_isSome_iff_eq_none.mp hnone
    · rfl

theorem rowRead_congr {blobs' : Blobs} {n : UInt64}
    (h : blobs'.get? (rowidToInt n) = blobs.get? (rowidToInt n)) :
    rowRead pIndex blobs' n = rowRead pIndex blobs n := by
  unfold rowRead blobOpen blobRead
  rw [h]

theorem rowRead_none {n : UInt64} (h : blobs.get? (rowidToInt n) = none) :
    rowRead pIndex blobs n = .error .rowNotFound := by
  unfold rowRead blobOpen
  rw [h]
  rfl

theorem not_outNeighbour_self (hgraph : GraphOk pIndex kv P) (r : UInt64) :
    ¬OutNeighbour pIndex kv r r := by
  rintro ⟨buf, hread, edge, hedge, hrow⟩
  obtain ⟨buf', hread', hok, -⟩ := hgraph r (hasRow_of_read hread)
  obtain rfl := Except.ok.inj (hread.symm.trans hread')
  obtain ⟨i, hi, rfl⟩ := mem_edgesOf.mp hedge
  exact hok.no_self i hi hrow

variable {s s' : IndexState} {blobs' : Blobs}

/-- **An edge back is left in the original** and taken out in the port. -/
theorem differs_of_backEdge (hgraph : GraphOk pIndex s.kv P) (hsame : SameBlobs pIndex s.kv blobs)
    (hdeleted : Deleted pIndex nodeRowid s (none, s'))
    (hrows : ∀ n, blobs'.get? (rowidToInt n) =
      if n = nodeRowid then none else blobs.get? (rowidToInt n)) {n : UInt64}
    (hout : OutNeighbour pIndex s.kv nodeRowid n) (hback : OutNeighbour pIndex s.kv n nodeRowid) :
    ¬SameGraph pIndex s'.kv blobs' := by
  intro hsameGraph
  have hne : n ≠ nodeRowid := by
    rintro rfl
    exact not_outNeighbour_self hgraph n hout
  obtain ⟨buf, hread, edge, hedge, hrow⟩ := hback
  obtain ⟨buf', hread', hunl⟩ := hdeleted.unlinked rfl n buf hne hout hread
  have hedges := (hsameGraph n).2
  rw [hread', rowRead_congr ((hrows n).trans (if_neg hne)), hsame.rowRead_eq, hread] at hedges
  have hlist : edgesOf pIndex buf' = edgesOf pIndex buf := Option.some.inj hedges
  rw [← hlist, hunl.edges.mem_iff, List.mem_filter] at hedge
  simp [hrow] at hedge

/-- Without edges back both programs leave what they had but the row. -/
theorem same_of_no_backEdge (hsame : SameBlobs pIndex s.kv blobs)
    (hdeleted : Deleted pIndex nodeRowid s (none, s'))
    (hrows : ∀ n, blobs'.get? (rowidToInt n) =
      if n = nodeRowid then none else blobs.get? (rowidToInt n))
    (hno : ∀ n, OutNeighbour pIndex s.kv nodeRowid n → ¬OutNeighbour pIndex s.kv n nodeRowid) :
    SameGraph pIndex s'.kv blobs' := by
  intro n
  by_cases hn : n = nodeRowid
  · subst hn
    have hblob : blobs'.get? (rowidToInt n) = none := (hrows n).trans (if_pos rfl)
    have habsent := hdeleted.absent rfl
    have hread : blobSpotRead pIndex s'.kv n = .error .rowNotFound := by
      have hget := habsent
      unfold HasRow at hget
      rw [blobSpotRead, Option.not_isSome_iff_eq_none.mp hget]
    rw [hblob, rowRead_none hblob, hread]
    exact ⟨iff_of_false habsent (by simp), rfl⟩
  have hblob : blobs'.get? (rowidToInt n) = blobs.get? (rowidToInt n) :=
    (hrows n).trans (if_neg hn)
  have hkept : blobSpotRead pIndex s'.kv n = blobSpotRead pIndex s.kv n ∧
      (HasRow pIndex s'.kv n ↔ HasRow pIndex s.kv n) := by
    by_cases hout : OutNeighbour pIndex s.kv nodeRowid n ∧ HasRow pIndex s.kv n
    · obtain ⟨hout, hrow⟩ := hout
      rcases hread : blobSpotRead pIndex s.kv n with rc | buf
      · have hdata := (hsame.read n).2 rc hread
        subst hdata
        have hblobs := hsame n
        rcases hget : blobs.get? (rowidToInt n) with - | data
        · exact absurd ((hsame.hasRow n).mpr hrow) (by rw [hget]; simp)
        · rw [hget] at hblobs
          cases hread.symm.trans hblobs
      · obtain ⟨buf', hread', hunl⟩ := hdeleted.unlinked rfl n buf hn hout hread
        have hsamebuf : buf' = buf := hunl.kept fun edge hedge heq =>
          hno n hout ⟨buf, hread, edge, hedge, heq⟩
        subst hsamebuf
        exact ⟨hread', iff_of_true (hasRow_of_read hread') hrow⟩
    · have hframe := hdeleted.frame rfl n hn hout
      refine ⟨blobSpotRead_congr hframe, ?_⟩
      unfold HasRow
      rw [hframe]
  rw [hblob, rowRead_congr hblob, hsame.rowRead_eq, hkept.1]
  exact ⟨hkept.2.trans (hsame.hasRow n).symm, rfl⟩

/-- **The two programs leave the same graph exactly where** no row that the deleted row
has an edge to has an edge back. -/
theorem diskAnnDelete_same (h : IndexOk pIndex) (hgraph : GraphOk pIndex s.kv P)
    (hsame : SameBlobs pIndex s.kv blobs) (nodeRowid : UInt64) :
    (∃ s' blobs', MoVeBench.diskAnnDelete pIndex s nodeRowid = .ok s' ∧
        diskAnnDelete pIndex blobs nodeRowid = .ok blobs' ∧ SameGraph pIndex s'.kv blobs') ↔
      ∀ n, OutNeighbour pIndex s.kv nodeRowid n → ¬OutNeighbour pIndex s.kv n nodeRowid := by
  obtain ⟨s', hport, hdeleted⟩ := diskAnnDelete_deleted h hgraph nodeRowid
  obtain ⟨blobs', horiginal, hrows⟩ := diskAnnDelete_rows hgraph hsame nodeRowid
  constructor
  · rintro ⟨s'', blobs'', hport', horiginal', hsameGraph⟩ n hout hback
    obtain rfl := Except.ok.inj (hport.symm.trans hport')
    obtain rfl := Except.ok.inj (horiginal.symm.trans horiginal')
    exact differs_of_backEdge hgraph hsame hdeleted hrows hout hback hsameGraph
  · intro hno
    exact ⟨s', blobs', hport, horiginal, same_of_no_backEdge hsame hdeleted hrows hno⟩

/-- `linkedRows` as blobs. -/
def linkedBlobs : Blobs :=
  (SortedMap.empty.insert (rowidToInt 1) (linkedBlock 1 2 0 1)).insert (rowidToInt 2)
    (linkedBlock 2 1 1 0)

theorem linkedBlobs_same : SameBlobs smallIndex linkedRows linkedBlobs := by
  have h := smallIndex_accepted.ok
  have h₁ := (linkedBlock_ok (show (2 : UInt64) ≠ 1 by decide) 0 1).1.length
  have h₂ := (linkedBlock_ok (show (1 : UInt64) ≠ 2 by decide) 1 0).1.length
  have hempty : SameBlobs smallIndex SortedMap.empty SortedMap.empty := fun _ => rfl
  exact (hempty.put h.blockSize_le 1 h₁).put h.blockSize_le 2 h₂

theorem diskAnnDelete_same_linked :
    ∃ s' blobs', MoVeBench.diskAnnDelete smallIndex ⟨linkedRows, 2⟩ 3 = .ok s' ∧
      diskAnnDelete smallIndex linkedBlobs 3 = .ok blobs' ∧ SameGraph smallIndex s'.kv blobs' := by
  apply (diskAnnDelete_same smallIndex_accepted.ok (s := ⟨linkedRows, 2⟩) linkedRows_graph
    linkedBlobs_same 3).mpr
  rintro n ⟨buf, hread, -⟩
  exact nomatch (linkedRows_read 3).symm.trans hread

/-- Row 1 is deleted: the original keeps the edge from row 2 to it. -/
theorem diskAnnDelete_differs :
    ¬∀ (pIndex : DiskAnnIndex) (s s' : IndexState) (blobs blobs' : Blobs) (nodeRowid : UInt64),
      AcceptedIndex pIndex → GraphOk pIndex s.kv (fun _ => True) → SameBlobs pIndex s.kv blobs →
      MoVeBench.diskAnnDelete pIndex s nodeRowid = .ok s' →
      diskAnnDelete pIndex blobs nodeRowid = .ok blobs' → SameGraph pIndex s'.kv blobs' := by
  intro hclaim
  obtain ⟨s', hport, hdeleted⟩ := diskAnnDelete_deleted smallIndex_accepted.ok
    (s := ⟨linkedRows, 2⟩) linkedRows_graph 1
  obtain ⟨blobs', horiginal, hrows⟩ := diskAnnDelete_rows linkedRows_graph linkedBlobs_same 1
  obtain ⟨hout, hback⟩ := linkedRows_neighbours
  refine differs_of_backEdge linkedRows_graph linkedBlobs_same hdeleted hrows hout hback ?_
  exact hclaim smallIndex ⟨linkedRows, 2⟩ s' linkedBlobs blobs' 1 smallIndex_accepted
    linkedRows_graph linkedBlobs_same hport horiginal

end Graph

end LibSql

end MoVeBench
