/-
MoVeBench/DiskAnn/Delete.lean

What a deletion does to every row, also where a call to the store fails.

`diskAnnDelete` loads the neighbours of the deleted node one after the other into one
blob spot, takes the edge back to the node out of each, and deletes the row last.
`diskAnnDeleteWith` is that function with the store as it is afterwards in any case, and
with calls that may fail (`DeleteFaults`); without faults it is `diskAnnDelete`
(`diskAnnDelete_eq`).

A neighbour then has the edges it had, less the one to the deleted row (`Unlinked`); the
rows that are not neighbours keep their bytes (`deleteEdgesWith_spec`).
-/
import MoVeBench.DiskAnn.Update
import MoVeBench.DiskAnn.EdgeList

namespace MoVeBench

open SlotList

/-! ### Deletion with faults -/

/-- The result code of a call that failed, other than that a row is not there. -/
abbrev Fault := { rc : Rc // rc ≠ .rowNotFound }

/-- The calls of a deletion that fail: allocations of the two spots, reads and writes of
the store.  Neighbours are counted by the index of the edge to them. -/
structure DeleteFaults where
  createNode : Option Fault
  reloadNode : Option Fault
  createEdge : Option Fault
  reloadEdge : ℕ → Option Fault
  flushEdge : ℕ → Option Fault
  deleteRow : Option Fault

/-- No call fails. -/
def noFaults : DeleteFaults := ⟨none, none, none, fun _ => none, fun _ => none, none⟩

section Model

variable (pIndex : DiskAnnIndex)

/-- `blobSpotReload`, where the store may fail to read. -/
def blobSpotReloadOr (fault : Option Fault) (kv : Kv) (pBlobSpot : BlobSpot) (nRowid : UInt64) :
    Option Rc × BlobSpot :=
  match fault with
  | none => blobSpotReload pIndex kv pBlobSpot nRowid
  | some rc =>
      if pBlobSpot.nRowid = nRowid ∧ pBlobSpot.isInitialized then (none, pBlobSpot)
      else (some rc.val, { pBlobSpot with nRowid, isInitialized := false, isAborted := true })

/-- The loop of `diskAnnDelete`: the error that ended it, and the store. -/
def deleteEdgesWith (faults : DeleteFaults) (nodeRowid : UInt64) (nodeBuf : List UInt8) :
    List ℕ → Kv → BlobSpot → Option VectorError × Kv
  | [], kv, _ => (none, kv)
  | i :: is, kv, pEdgeBlob =>
      let r := blobSpotReloadOr pIndex (faults.reloadEdge i) kv pEdgeBlob
        (nodeBinEdge pIndex nodeBuf i).rowid
      match r.1 with
      -- no such row: the edge dangles
      | some .rowNotFound => deleteEdgesWith faults nodeRowid nodeBuf is kv r.2
      | some rc =>
          (some ⟨rc, s!"vector index(delete): failed to reload blob for edge row: {rc.code}"⟩, kv)
      | none =>
          match nodeBinEdgeFindIdx pIndex r.2.pBuffer nodeRowid with
          -- the neighbour has no edge back
          | none => deleteEdgesWith faults nodeRowid nodeBuf is kv r.2
          | some iDelete =>
              let pEdgeBlob :=
                { r.2 with pBuffer := nodeBinDeleteEdge pIndex r.2.pBuffer iDelete }
              match faults.flushEdge i with
              | some rc =>
                  (some ⟨rc.val, "vector index(delete): failed to flush blob for edge row"⟩, kv)
              | none =>
                  deleteEdgesWith faults nodeRowid nodeBuf is (blobSpotFlush pIndex kv pEdgeBlob)
                    pEdgeBlob

/-- `diskAnnDelete`: the error, and the index afterwards. -/
def diskAnnDeleteWith (faults : DeleteFaults) (s : IndexState) (nodeRowid : UInt64) :
    Option VectorError × IndexState :=
  match faults.createNode with
  | some rc => (some ⟨rc.val, "vector index(delete): failed to create blob for node row"⟩, s)
  | none =>
      let r := blobSpotReloadOr pIndex faults.reloadNode s.kv (blobSpotCreate pIndex nodeRowid)
        nodeRowid
      match r.1 with
      -- a row that is not in the table is no error
      | some .rowNotFound => (none, s)
      | some rc => (some ⟨rc, "vector index(delete): failed to reload blob for node row"⟩, s)
      | none =>
          match faults.createEdge with
          | some rc => (some ⟨rc.val, "vector index(delete): failed to create blob for edge rows"⟩, s)
          | none =>
              let nodeBuf := r.2.pBuffer
              match deleteEdgesWith pIndex faults nodeRowid nodeBuf
                  (List.range (nodeBinEdges nodeBuf)) s.kv (blobSpotCreate pIndex nodeRowid) with
              | (some e, kv) => (some e, { s with kv })
              | (none, kv) =>
                  -- the neighbours are written by now
                  match faults.deleteRow with
                  | some rc =>
                      (some ⟨rc.val, "vector index(delete): failed to remove shadow row"⟩,
                        { s with kv })
                  | none =>
                      (none,
                        { kv := diskAnnDeleteShadowRow pIndex kv nodeRowid
                          nShadowRows :=
                            if s.nShadowRows > 0 then s.nShadowRows - 1 else s.nShadowRows })

end Model

section Spec

variable {pIndex : DiskAnnIndex} {kv : Kv} {faults : DeleteFaults} {nodeRowid : UInt64}
  {nodeBuf : List UInt8}

/-- The answer of a call and the store after it, as the call without faults gives them. -/
def answerOf {α : Type} : Option VectorError × α → Except VectorError α
  | (none, a) => .ok a
  | (some e, _) => .error e

theorem deleteEdges_eq (is : List ℕ) (kv : Kv) (pEdgeBlob : BlobSpot) :
    deleteEdges pIndex nodeRowid nodeBuf is kv pEdgeBlob =
      answerOf (deleteEdgesWith pIndex noFaults nodeRowid nodeBuf is kv pEdgeBlob) := by
  induction is generalizing kv pEdgeBlob with
  | nil => rfl
  | cons i is ih =>
      simp only [deleteEdges, deleteEdgesWith, noFaults, blobSpotReloadOr]
      rcases (blobSpotReload pIndex kv pEdgeBlob (nodeBinEdge pIndex nodeBuf i).rowid).1
        with - | rc
      · simp only
        rcases nodeBinEdgeFindIdx pIndex
          (blobSpotReload pIndex kv pEdgeBlob (nodeBinEdge pIndex nodeBuf i).rowid).2.pBuffer
          nodeRowid with - | iDelete
        · exact ih kv _
        · exact ih _ _
      · cases rc with
        | rowNotFound => exact ih kv _
        | done => rfl
        | notFound => rfl
        | nomem => rfl
        | error => rfl

/-- **Without faults it is `diskAnnDelete`.** -/
theorem diskAnnDelete_eq (s : IndexState) (nodeRowid : UInt64) :
    diskAnnDelete pIndex s nodeRowid =
      answerOf (diskAnnDeleteWith pIndex noFaults s nodeRowid) := by
  unfold diskAnnDelete diskAnnDeleteWith
  simp only [deleteEdges_eq]
  simp only [noFaults, blobSpotReloadOr]
  rcases (blobSpotReload pIndex s.kv (blobSpotCreate pIndex nodeRowid) nodeRowid).1 with - | rc
  · simp only
    generalize deleteEdgesWith pIndex _ nodeRowid _ _ s.kv _ = answer
    rcases answer with ⟨e, kv⟩
    cases e <;> rfl
  · cases rc <;> rfl

/-! ### Neighbours -/

/-- The block without its edges to a row. -/
structure Unlinked (pIndex : DiskAnnIndex) (nodeRowid : UInt64) (buf buf' : List UInt8) :
    Prop where
  node : SameNode pIndex buf' buf
  edges : (edgesOf pIndex buf').Perm
    ((edgesOf pIndex buf).filter fun edge => edge.rowid ≠ nodeRowid)
  kept : (∀ edge ∈ edgesOf pIndex buf, edge.rowid ≠ nodeRowid) → buf' = buf

theorem Unlinked.of_none {buf : List UInt8}
    (hnone : nodeBinEdgeFindIdx pIndex buf nodeRowid = none) :
    Unlinked pIndex nodeRowid buf buf := by
  refine ⟨SameNode.refl buf, ?_, fun _ => rfl⟩
  rw [List.filter_eq_self.mpr]
  intro edge hedge
  obtain ⟨i, hi, rfl⟩ := mem_edgesOf.mp hedge
  have hne := List.find?_eq_none.mp hnone i (List.mem_range.mpr hi)
  simpa using hne

theorem Unlinked.trans {buf buf' buf'' : List UInt8} (h : Unlinked pIndex nodeRowid buf buf')
    (h' : Unlinked pIndex nodeRowid buf' buf'') : Unlinked pIndex nodeRowid buf buf'' := by
  refine ⟨h'.node.trans h.node, h'.edges.trans ?_, ?_⟩
  · have hfilter := h.edges.filter fun edge => edge.rowid ≠ nodeRowid
    rwa [List.filter_filter, funext fun edge : NodeEdge => Bool.and_self _] at hfilter
  · intro hnone
    have hbuf := h.kept hnone
    subst hbuf
    exact h'.kept hnone

/-- The edges of a sound block go to different rows. -/
theorem NodeOk.rowids_nodup {rowid : UInt64} {buf : List UInt8} (hok : NodeOk pIndex rowid buf) :
    ((edgesOf pIndex buf).map NodeEdge.rowid).Nodup := by
  rw [List.nodup_iff_injective_get]
  rintro ⟨i, hi⟩ ⟨j, hj⟩ heq
  rw [List.length_map, edgesOf_length] at hi hj
  simp only [List.get_eq_getElem, List.getElem_map, getElem_edgesOf] at heq
  exact Fin.ext (hok.distinct i j hi hj heq)

/-- **The edge that is found is the only one to the row.** -/
theorem Unlinked.deleteEdge (h : IndexOk pIndex) {rowid : UInt64} {buf : List UInt8}
    (hok : NodeOk pIndex rowid buf) {iDelete : ℕ}
    (hidx : nodeBinEdgeFindIdx pIndex buf nodeRowid = some iDelete) :
    Unlinked pIndex nodeRowid buf (nodeBinDeleteEdge pIndex buf iDelete) := by
  have hblock : BlockOk pIndex buf := ⟨hok.length, hok.edges_le⟩
  have hlt : iDelete < nodeBinEdges buf := List.mem_range.mp (List.mem_of_find?_eq_some hidx)
  have hrow : (nodeBinEdge pIndex buf iDelete).rowid = nodeRowid := by
    simpa using List.find?_some hidx
  refine ⟨sameNode_deleteEdge h (lt_of_lt_of_le hlt hok.edges_le), ?_, fun hnone =>
    absurd hrow (hnone _ (mem_edgesOf.mpr ⟨iDelete, hlt, rfl⟩))⟩
  have hlen : iDelete < (edgesOf pIndex buf).length := by rwa [edgesOf_length]
  have hperm := swapRemove_perm hlen
  rw [edgesOf_deleteEdge h hblock hlt]
  have hnodup := (hperm.map NodeEdge.rowid).nodup_iff.mpr hok.rowids_nodup
  rw [List.map_cons, List.nodup_cons, getElem_edgesOf, hrow] at hnodup
  have hfilter := hperm.filter fun edge => edge.rowid ≠ nodeRowid
  rw [getElem_edgesOf, List.filter_cons_of_neg (by simp [hrow]), List.filter_eq_self.mpr] at hfilter
  · exact hfilter
  · intro edge hedge
    simp only [ne_eq, decide_not, Bool.not_eq_true', decide_eq_false_iff_not]
    rintro rfl
    exact hnodup.1 (List.mem_map_of_mem hedge)

/-! ### The loop -/

/-- Loading a spot reads the store, or fails with another code than that the row is
not there. -/
theorem blobSpotReloadOr_spec {pBlobSpot : BlobSpot} (h : SpotOk pIndex kv pBlobSpot)
    (fault : Option Fault) (nRowid : UInt64) :
    SpotOk pIndex kv (blobSpotReloadOr pIndex fault kv pBlobSpot nRowid).2 ∧
      (blobSpotReloadOr pIndex fault kv pBlobSpot nRowid).2.nRowid = nRowid ∧
      ((∃ rc, rc ≠ Rc.rowNotFound ∧
          (blobSpotReloadOr pIndex fault kv pBlobSpot nRowid).1 = some rc) ∨
        match blobSpotRead pIndex kv nRowid with
        | .ok buf => (blobSpotReloadOr pIndex fault kv pBlobSpot nRowid).1 = none ∧
            (blobSpotReloadOr pIndex fault kv pBlobSpot nRowid).2.pBuffer = buf
        | .error rc => (blobSpotReloadOr pIndex fault kv pBlobSpot nRowid).1 = some rc) := by
  unfold blobSpotReloadOr
  rcases fault with - | ⟨rc, hrc⟩
  · obtain ⟨hspot, hrow, hread⟩ := blobSpotReload_spec h nRowid
    exact ⟨hspot, hrow, .inr hread⟩
  · simp only
    split_ifs with hkept
    · obtain ⟨rfl, hinit⟩ := hkept
      rw [h hinit]
      exact ⟨h, rfl, .inr ⟨rfl, rfl⟩⟩
    · exact ⟨nofun, rfl, .inl ⟨rc, hrc, rfl⟩⟩

/-- What a run of the loop over the edges `is` makes of the store. -/
structure EdgesDeleted (pIndex : DiskAnnIndex) (nodeRowid : UInt64) (nodeBuf : List UInt8)
    (is : List ℕ) (kv : Kv) (answer : Option VectorError × Kv) : Prop where
  rows : ∀ n, HasRow pIndex answer.2 n ↔ HasRow pIndex kv n
  frame : ∀ n, (∀ i ∈ is, (nodeBinEdge pIndex nodeBuf i).rowid ≠ n) →
    answer.2.get? (blobSpotBuildKey pIndex n) = kv.get? (blobSpotBuildKey pIndex n)
  unlinked : answer.1 = none → ∀ i ∈ is, ∀ buf,
    blobSpotRead pIndex kv (nodeBinEdge pIndex nodeBuf i).rowid = .ok buf →
    ∃ buf', blobSpotRead pIndex answer.2 (nodeBinEdge pIndex nodeBuf i).rowid = .ok buf' ∧
      Unlinked pIndex nodeRowid buf buf'

variable {P : NodeEdge → Prop} {is : List ℕ} {i : ℕ} {answer : Option VectorError × Kv}

theorem EdgesDeleted.failed (e : VectorError) : EdgesDeleted pIndex nodeRowid nodeBuf is kv
    (some e, kv) :=
  ⟨fun _ => Iff.rfl, fun _ _ => rfl, nofun⟩

/-- A neighbour whose block stays as it is. -/
theorem EdgesDeleted.skip (hrest : EdgesDeleted pIndex nodeRowid nodeBuf is kv answer)
    (hkept : ∀ buf, blobSpotRead pIndex kv (nodeBinEdge pIndex nodeBuf i).rowid = .ok buf →
      Unlinked pIndex nodeRowid buf buf) :
    EdgesDeleted pIndex nodeRowid nodeBuf (i :: is) kv answer := by
  refine ⟨hrest.rows, ?_, ?_⟩
  · exact fun n hn => hrest.frame n fun j hj => hn j (List.mem_cons_of_mem i hj)
  · intro hdone j hj buf hread
    rcases List.mem_cons.mp hj with rfl | hj
    · -- the block may be loaded again by a later edge to the same row
      by_cases hagain : ∃ k ∈ is, (nodeBinEdge pIndex nodeBuf k).rowid =
          (nodeBinEdge pIndex nodeBuf j).rowid
      · obtain ⟨k, hk, hrow⟩ := hagain
        rw [← hrow] at hread ⊢
        exact hrest.unlinked hdone k hk buf hread
      · have hframe := hrest.frame _ fun k hk hrow => hagain ⟨k, hk, hrow⟩
        exact ⟨buf, (blobSpotRead_congr hframe).trans hread, hkept buf hread⟩
    · exact hrest.unlinked hdone j hj buf hread

/-- A neighbour whose block is written without its edge to the node. -/
theorem EdgesDeleted.flush (h : IndexOk pIndex) {spot : BlobSpot} {old : List UInt8}
    (hrow : spot.nRowid = (nodeBinEdge pIndex nodeBuf i).rowid)
    (hread : blobSpotRead pIndex kv spot.nRowid = .ok old)
    (hunl : Unlinked pIndex nodeRowid old spot.pBuffer)
    (hrest : EdgesDeleted pIndex nodeRowid nodeBuf is (blobSpotFlush pIndex kv spot) answer) :
    EdgesDeleted pIndex nodeRowid nodeBuf (i :: is) kv answer := by
  have hlen : spot.pBuffer.length = pIndex.nBlockSize :=
    hunl.node.length.trans (blobSpotRead_length hread)
  have hput := blobSpotRead_flush h kv hlen
  have hrows : ∀ n, HasRow pIndex (blobSpotFlush pIndex kv spot) n ↔ HasRow pIndex kv n := by
    intro n
    refine hasRow_put.trans ⟨?_, .inr⟩
    rintro (rfl | hn)
    · exact hasRow_of_read hread
    · exact hn
  refine ⟨fun n => (hrest.rows n).trans (hrows n), ?_, ?_⟩
  · intro n hn
    have hne : n ≠ spot.nRowid := fun heq => hn i List.mem_cons_self (hrow ▸ heq.symm)
    refine (hrest.frame n fun j hj => hn j (List.mem_cons_of_mem i hj)).trans ?_
    exact SortedMap.get?_insert_of_ne _ (fun heq => hne (blobSpotBuildKey_injective pIndex heq)) _
  · intro hdone j hj buf hbuf
    by_cases hsame : (nodeBinEdge pIndex nodeBuf j).rowid = spot.nRowid
    · rw [hsame, hread] at hbuf
      obtain rfl := Except.ok.inj hbuf
      have hnew : blobSpotRead pIndex (blobSpotFlush pIndex kv spot)
          (nodeBinEdge pIndex nodeBuf j).rowid = .ok spot.pBuffer :=
        (hput _).trans (if_pos hsame)
      by_cases hagain : ∃ k ∈ is, (nodeBinEdge pIndex nodeBuf k).rowid =
          (nodeBinEdge pIndex nodeBuf j).rowid
      · obtain ⟨k, hk, heq⟩ := hagain
        rw [← heq] at hnew ⊢
        obtain ⟨buf', hread', hunl'⟩ := hrest.unlinked hdone k hk _ hnew
        exact ⟨buf', hread', hunl.trans hunl'⟩
      · have hframe := hrest.frame _ fun k hk heq => hagain ⟨k, hk, heq⟩
        exact ⟨spot.pBuffer, (blobSpotRead_congr hframe).trans hnew, hunl⟩
    · have hold : blobSpotRead pIndex (blobSpotFlush pIndex kv spot)
          (nodeBinEdge pIndex nodeBuf j).rowid = .ok buf :=
        ((hput _).trans (if_neg hsame)).trans hbuf
      rcases List.mem_cons.mp hj with rfl | hj
      · exact absurd hrow.symm hsame
      · exact hrest.unlinked hdone j hj buf hold

/-- A graph stays sound when a block loses its edges to a row. -/
theorem GraphOk.flush (h : IndexOk pIndex) (hgraph : GraphOk pIndex kv P) {spot : BlobSpot}
    {old : List UInt8} (hread : blobSpotRead pIndex kv spot.nRowid = .ok old) {iDelete : ℕ}
    (hidx : nodeBinEdgeFindIdx pIndex old nodeRowid = some iDelete)
    (hbuf : spot.pBuffer = nodeBinDeleteEdge pIndex old iDelete) :
    GraphOk pIndex (blobSpotFlush pIndex kv spot) P ∧
      SpotOk pIndex (blobSpotFlush pIndex kv spot) spot ∧
      Unlinked pIndex nodeRowid old spot.pBuffer := by
  obtain ⟨buf, hread', hok, hP⟩ := hgraph spot.nRowid (hasRow_of_read hread)
  obtain rfl : buf = old := Except.ok.inj (hread'.symm.trans hread)
  have hlt : iDelete < nodeBinEdges buf := List.mem_range.mp (List.mem_of_find?_eq_some hidx)
  have hok' := hok.deleteEdge h hlt
  have hP' := hP.deleteEdge h hok hlt
  have hunl := Unlinked.deleteEdge h hok hidx
  rw [← hbuf] at hok' hP' hunl
  refine ⟨?_, fun _ => (blobSpotRead_flush h kv hok'.length _).trans (if_pos rfl), hunl⟩
  intro r hr
  refine NodeStored.flush h spot hok' hP' fun hne => hgraph r ?_
  exact (hasRow_put.mp hr).resolve_left hne

/-- **The loop**: an edge that is gone on either side is passed over, the others are
deleted, and an error leaves the rest. -/
theorem deleteEdgesWith_spec (h : IndexOk pIndex) (faults : DeleteFaults) {is : List ℕ}
    {pEdgeBlob : BlobSpot} (hspot : SpotOk pIndex kv pEdgeBlob) (hgraph : GraphOk pIndex kv P) :
    EdgesDeleted pIndex nodeRowid nodeBuf is kv
      (deleteEdgesWith pIndex faults nodeRowid nodeBuf is kv pEdgeBlob) := by
  induction is generalizing kv pEdgeBlob with
  | nil => exact ⟨fun _ => Iff.rfl, fun _ _ => rfl, fun _ i hi => absurd hi List.not_mem_nil⟩
  | cons i is ih =>
      obtain ⟨hspot', hrow, hread⟩ := blobSpotReloadOr_spec hspot (faults.reloadEdge i)
        (nodeBinEdge pIndex nodeBuf i).rowid
      simp only [deleteEdgesWith]
      generalize blobSpotReloadOr pIndex (faults.reloadEdge i) kv pEdgeBlob
        (nodeBinEdge pIndex nodeBuf i).rowid = r at hspot' hrow hread ⊢
      obtain ⟨code, spot⟩ := r
      simp only at hspot' hrow hread ⊢
      -- the neighbour cannot be loaded
      rcases hread with ⟨rc, hrc, rfl⟩ | hread
      · cases rc with
        | rowNotFound => exact absurd rfl hrc
        | done => exact .failed _
        | notFound => exact .failed _
        | nomem => exact .failed _
        | error => exact .failed _
      rcases he : blobSpotRead pIndex kv (nodeBinEdge pIndex nodeBuf i).rowid with rc | buf
      · rw [he] at hread
        subst hread
        cases rc with
        -- a dangling edge is passed over
        | rowNotFound => exact (ih hspot' hgraph).skip fun buf hbuf => nomatch he.symm.trans hbuf
        | done => exact .failed _
        | notFound => exact .failed _
        | nomem => exact .failed _
        | error => exact .failed _
      · rw [he] at hread
        obtain ⟨rfl, rfl⟩ := hread
        rcases hidx : nodeBinEdgeFindIdx pIndex spot.pBuffer nodeRowid with - | iDelete
        · -- no edge back
          refine (ih hspot' hgraph).skip ?_
          intro buf' hbuf'
          obtain rfl := Except.ok.inj (he.symm.trans hbuf')
          exact .of_none hidx
        · rcases faults.flushEdge i with - | rc
          · simp only
            rw [← hrow] at he
            obtain ⟨spot', hs⟩ : ∃ spot' : BlobSpot, spot' =
              { spot with pBuffer := nodeBinDeleteEdge pIndex spot.pBuffer iDelete } := ⟨_, rfl⟩
            have hrow' : spot'.nRowid = spot.nRowid := by rw [hs]
            have hbuf' : spot'.pBuffer = nodeBinDeleteEdge pIndex spot.pBuffer iDelete := by rw [hs]
            rw [← hrow'] at he hrow
            rw [← hs]
            -- the block without the edge is written, and the spot holds it
            obtain ⟨hgraph', hspot'', hunl⟩ := hgraph.flush h he hidx hbuf'
            exact .flush h hrow he hunl (ih hspot'' hgraph')
          · exact .failed _

/-! ### The deletion -/

/-- Row `r` has an edge to row `n`. -/
def OutNeighbour (pIndex : DiskAnnIndex) (kv : Kv) (r n : UInt64) : Prop :=
  ∃ buf, blobSpotRead pIndex kv r = .ok buf ∧ ∃ edge ∈ edgesOf pIndex buf, edge.rowid = n

/-- What a deletion makes of the store: where it succeeds, the row is gone, the rows that it
had edges to have lost the edges back, and the others keep their bytes; where it fails,
all rows that it had no edge to keep their bytes. -/
structure Deleted (pIndex : DiskAnnIndex) (nodeRowid : UInt64) (s : IndexState)
    (answer : Option VectorError × IndexState) : Prop where
  absent : answer.1 = none → ¬HasRow pIndex answer.2.kv nodeRowid
  unlinked : answer.1 = none → ∀ n buf, n ≠ nodeRowid → OutNeighbour pIndex s.kv nodeRowid n →
    blobSpotRead pIndex s.kv n = .ok buf →
    ∃ buf', blobSpotRead pIndex answer.2.kv n = .ok buf' ∧ Unlinked pIndex nodeRowid buf buf'
  frame : answer.1 = none → ∀ n, n ≠ nodeRowid →
    ¬(OutNeighbour pIndex s.kv nodeRowid n ∧ HasRow pIndex s.kv n) →
    answer.2.kv.get? (blobSpotBuildKey pIndex n) = s.kv.get? (blobSpotBuildKey pIndex n)
  nothing : answer.1 = none → ¬HasRow pIndex s.kv nodeRowid → answer.2 = s
  failed : answer.1 ≠ none → ∀ n, ¬OutNeighbour pIndex s.kv nodeRowid n →
    answer.2.kv.get? (blobSpotBuildKey pIndex n) = s.kv.get? (blobSpotBuildKey pIndex n)

theorem Deleted.of_error {s : IndexState} (e : VectorError) :
    Deleted pIndex nodeRowid s (some e, s) :=
  ⟨nofun, nofun, nofun, nofun, fun _ _ _ => rfl⟩

/-- A row that is not in the table. -/
theorem Deleted.of_absent {s : IndexState}
    (hread : blobSpotRead pIndex s.kv nodeRowid = .error .rowNotFound)
    (hgraph : GraphOk pIndex s.kv P) : Deleted pIndex nodeRowid s (none, s) := by
  refine ⟨?_, ?_, fun _ _ _ _ => rfl, fun _ _ => rfl, fun hne => absurd rfl hne⟩
  · intro _ hrow
    obtain ⟨buf, hbuf, -⟩ := hgraph nodeRowid hrow
    exact nomatch hread.symm.trans hbuf
  · rintro - n buf - ⟨node, hnode, -⟩
    exact nomatch hread.symm.trans hnode

/-- The edges of the node are those that the loop goes over. -/
theorem outNeighbour_iff (hread : blobSpotRead pIndex kv nodeRowid = .ok nodeBuf) (n : UInt64) :
    OutNeighbour pIndex kv nodeRowid n ↔
      ∃ i ∈ List.range (nodeBinEdges nodeBuf), (nodeBinEdge pIndex nodeBuf i).rowid = n := by
  constructor
  · rintro ⟨buf, hbuf, edge, hedge, hrow⟩
    obtain rfl := Except.ok.inj (hread.symm.trans hbuf)
    obtain ⟨i, hi, rfl⟩ := mem_edgesOf.mp hedge
    exact ⟨i, List.mem_range.mpr hi, hrow⟩
  · rintro ⟨i, hi, hrow⟩
    exact ⟨nodeBuf, hread, _, mem_edgesOf.mpr ⟨i, List.mem_range.mp hi, rfl⟩, hrow⟩

section Loop

variable {s : IndexState} {code : Option VectorError}
  (he : blobSpotRead pIndex s.kv nodeRowid = .ok nodeBuf)
  (hloop : EdgesDeleted pIndex nodeRowid nodeBuf (List.range (nodeBinEdges nodeBuf)) s.kv
    (code, kv))
include he hloop

/-- The loop keeps the rows that the node has no edge to. -/
theorem EdgesDeleted.outside (n : UInt64) (hn : ¬OutNeighbour pIndex s.kv nodeRowid n) :
    kv.get? (blobSpotBuildKey pIndex n) = s.kv.get? (blobSpotBuildKey pIndex n) := by
  refine hloop.frame n ?_
  intro i hi hrow
  exact hn ((outNeighbour_iff he n).mpr ⟨i, hi, hrow⟩)

/-- A failure in the loop or behind it. -/
theorem Deleted.of_failed (e : VectorError) :
    Deleted pIndex nodeRowid s (some e, { s with kv }) :=
  ⟨nofun, nofun, nofun, nofun, fun _ => hloop.outside he⟩

/-- The row is deleted behind the loop. -/
theorem Deleted.of_edges (hcode : code = none) (nShadowRows : ℤ) :
    Deleted pIndex nodeRowid s
      (none, ⟨diskAnnDeleteShadowRow pIndex kv nodeRowid, nShadowRows⟩) := by
  have hkept : ∀ n, n ≠ nodeRowid →
      (diskAnnDeleteShadowRow pIndex kv nodeRowid).get? (blobSpotBuildKey pIndex n) =
        kv.get? (blobSpotBuildKey pIndex n) := by
    intro n hn
    unfold diskAnnDeleteShadowRow
    rw [SortedMap.get?_erase, if_neg fun heq => hn (blobSpotBuildKey_injective pIndex heq)]
  refine ⟨?_, ?_, ?_, ?_, fun hne => absurd rfl hne⟩
  · intro _ hrow
    exact (hasRow_delete.mp hrow).1 rfl
  · intro _ n buf hne hout hbuf
    obtain ⟨i, hi, rfl⟩ := (outNeighbour_iff he n).mp hout
    obtain ⟨buf', hbuf', hunl⟩ := hloop.unlinked hcode i hi buf hbuf
    exact ⟨buf', (blobSpotRead_congr (hkept _ hne)).trans hbuf', hunl⟩
  · intro _ n hne hnot
    refine (hkept n hne).trans ?_
    by_cases hout : OutNeighbour pIndex s.kv nodeRowid n
    · -- an edge to a row that is not there
      have hno : ¬HasRow pIndex s.kv n := fun hrow => hnot ⟨hout, hrow⟩
      have hno' : ¬HasRow pIndex kv n := fun hrow => hno ((hloop.rows n).mp hrow)
      unfold HasRow at hno hno'
      rw [Option.not_isSome_iff_eq_none] at hno hno'
      rw [hno, hno']
    · exact hloop.outside he n hout
  · intro _ hno
    exact absurd (hasRow_of_read he) hno

end Loop

/-- **What `diskAnnDelete` does**, on every sound graph and whatever fails. -/
theorem diskAnnDeleteWith_spec (h : IndexOk pIndex) {s : IndexState}
    (hgraph : GraphOk pIndex s.kv P) (faults : DeleteFaults) (nodeRowid : UInt64) :
    Deleted pIndex nodeRowid s (diskAnnDeleteWith pIndex faults s nodeRowid) := by
  unfold diskAnnDeleteWith
  rcases faults.createNode with - | rc
  swap
  · exact .of_error _
  obtain ⟨-, -, hread⟩ := blobSpotReloadOr_spec (SpotOk.create pIndex s.kv nodeRowid)
    faults.reloadNode nodeRowid
  simp only
  generalize blobSpotReloadOr pIndex faults.reloadNode s.kv (blobSpotCreate pIndex nodeRowid)
    nodeRowid = r at hread ⊢
  obtain ⟨code, spot⟩ := r
  simp only at hread ⊢
  -- the row cannot be loaded
  rcases hread with ⟨rc, hrc, rfl⟩ | hread
  · cases rc with
    | rowNotFound => exact absurd rfl hrc
    | done => exact .of_error _
    | notFound => exact .of_error _
    | nomem => exact .of_error _
    | error => exact .of_error _
  rcases he : blobSpotRead pIndex s.kv nodeRowid with rc | buf
  · rw [he] at hread
    subst hread
    cases rc with
    | rowNotFound => exact .of_absent he hgraph
    | done => exact .of_error _
    | notFound => exact .of_error _
    | nomem => exact .of_error _
    | error => exact .of_error _
  rw [he] at hread
  obtain ⟨rfl, rfl⟩ := hread
  rcases faults.createEdge with - | rc
  swap
  · exact .of_error _
  -- the neighbours, one by one
  have hloop : EdgesDeleted pIndex nodeRowid spot.pBuffer (List.range (nodeBinEdges spot.pBuffer))
      s.kv (deleteEdgesWith pIndex faults nodeRowid spot.pBuffer
        (List.range (nodeBinEdges spot.pBuffer)) s.kv (blobSpotCreate pIndex nodeRowid)) :=
    deleteEdgesWith_spec h faults (SpotOk.create pIndex s.kv nodeRowid) hgraph
  simp only
  generalize deleteEdgesWith pIndex faults nodeRowid spot.pBuffer
    (List.range (nodeBinEdges spot.pBuffer)) s.kv (blobSpotCreate pIndex nodeRowid) = answer
    at hloop ⊢
  obtain ⟨code, kv⟩ := answer
  rcases code with - | e
  swap
  · exact .of_failed he hloop _
  simp only
  -- only now the row itself
  rcases faults.deleteRow with - | rc
  · exact .of_edges he hloop rfl _
  · exact .of_failed he hloop _

/-- In a sound graph the only error is a row that is not there. -/
theorem GraphOk.rowNotFound (hgraph : GraphOk pIndex kv P) {n : UInt64} {rc : Rc}
    (hread : blobSpotRead pIndex kv n = .error rc) : rc = .rowNotFound := by
  by_cases hrow : HasRow pIndex kv n
  · obtain ⟨buf, hbuf, -⟩ := hgraph n hrow
    exact nomatch hread.symm.trans hbuf
  · unfold HasRow at hrow
    rw [Option.not_isSome_iff_eq_none] at hrow
    unfold blobSpotRead at hread
    rw [hrow] at hread
    exact (Except.error.inj hread).symm

/-- The loop ends without an error where no call fails. -/
theorem deleteEdgesWith_noFaults (h : IndexOk pIndex) {is : List ℕ} {pEdgeBlob : BlobSpot}
    (hspot : SpotOk pIndex kv pEdgeBlob) (hgraph : GraphOk pIndex kv P) :
    (deleteEdgesWith pIndex noFaults nodeRowid nodeBuf is kv pEdgeBlob).1 = none := by
  induction is generalizing kv pEdgeBlob with
  | nil => rfl
  | cons i is ih =>
      obtain ⟨hspot', hrow, hread⟩ :=
        blobSpotReload_spec hspot (nodeBinEdge pIndex nodeBuf i).rowid
      simp only [deleteEdgesWith, noFaults, blobSpotReloadOr]
      generalize blobSpotReload pIndex kv pEdgeBlob (nodeBinEdge pIndex nodeBuf i).rowid = r
        at hspot' hrow hread ⊢
      obtain ⟨code, spot⟩ := r
      simp only at hspot' hrow hread ⊢
      rcases he : blobSpotRead pIndex kv (nodeBinEdge pIndex nodeBuf i).rowid with rc | buf
      · rw [he] at hread
        subst hread
        rw [hgraph.rowNotFound he]
        exact ih hspot' hgraph
      · rw [he] at hread
        obtain ⟨rfl, rfl⟩ := hread
        rcases hidx : nodeBinEdgeFindIdx pIndex spot.pBuffer nodeRowid with - | iDelete
        · exact ih hspot' hgraph
        · rw [← hrow] at he
          obtain ⟨spot', hs⟩ : ∃ spot' : BlobSpot, spot' =
            { spot with pBuffer := nodeBinDeleteEdge pIndex spot.pBuffer iDelete } := ⟨_, rfl⟩
          have hrow' : spot'.nRowid = spot.nRowid := by rw [hs]
          have hbuf' : spot'.pBuffer = nodeBinDeleteEdge pIndex spot.pBuffer iDelete := by rw [hs]
          rw [← hrow'] at he
          simp only [← hs]
          obtain ⟨hgraph', hspot'', -⟩ := hgraph.flush h he hidx hbuf'
          exact ih hspot'' hgraph'

/-- On a sound graph `diskAnnDelete` succeeds. -/
theorem diskAnnDelete_deleted (h : IndexOk pIndex) {s : IndexState} (hgraph : GraphOk pIndex s.kv P)
    (nodeRowid : UInt64) : ∃ s', diskAnnDelete pIndex s nodeRowid = .ok s' ∧
      Deleted pIndex nodeRowid s (none, s') := by
  have hdeleted := diskAnnDeleteWith_spec h hgraph noFaults nodeRowid
  have hdone : (diskAnnDeleteWith pIndex noFaults s nodeRowid).1 = none := by
    obtain ⟨-, -, hread⟩ :=
      blobSpotReload_spec (SpotOk.create pIndex s.kv nodeRowid) nodeRowid
    simp only [diskAnnDeleteWith, noFaults, blobSpotReloadOr]
    generalize blobSpotReload pIndex s.kv (blobSpotCreate pIndex nodeRowid) nodeRowid = r
      at hread ⊢
    obtain ⟨code, spot⟩ := r
    simp only at hread ⊢
    rcases he : blobSpotRead pIndex s.kv nodeRowid with rc | buf
    · rw [he] at hread
      subst hread
      rw [hgraph.rowNotFound he]
    · rw [he] at hread
      obtain ⟨rfl, rfl⟩ := hread
      have hloop : (deleteEdgesWith pIndex noFaults nodeRowid spot.pBuffer
          (List.range (nodeBinEdges spot.pBuffer)) s.kv (blobSpotCreate pIndex nodeRowid)).1 =
          none := deleteEdgesWith_noFaults h (SpotOk.create pIndex s.kv nodeRowid) hgraph
      unfold noFaults at hloop
      generalize deleteEdgesWith pIndex _ nodeRowid spot.pBuffer _ s.kv _ = answer at hloop ⊢
      obtain ⟨code, kv⟩ := answer
      simp only at hloop
      subst hloop
      rfl
  rw [diskAnnDelete_eq]
  rcases hanswer : diskAnnDeleteWith pIndex noFaults s nodeRowid with ⟨code, s'⟩
  rw [hanswer] at hdone hdeleted
  simp only at hdone
  subst hdone
  exact ⟨s', rfl, hdeleted⟩

/-! ### Two rows with edges to each other -/

/-- The block of row `r` at `n`, with an edge to row `other` at `m`. -/
def linkedBlock (r other : UInt64) (n m : ℕ) : List UInt8 :=
  nodeBinReplaceEdge smallIndex (nodeBinInit smallIndex r (wholeVector n)) 0
    ⟨other, bitsOfWhole 1, wholeVector m⟩

/-- Rows 1 and 2, at `0` and at `1`. -/
def linkedRows : Kv :=
  let kv := blobSpotFlush smallIndex SortedMap.empty
    { blobSpotCreate smallIndex 1 with pBuffer := linkedBlock 1 2 0 1 }
  blobSpotFlush smallIndex kv
    { blobSpotCreate smallIndex 2 with pBuffer := linkedBlock 2 1 1 0 }

theorem linkedBlock_ok {r other : UInt64} (hne : other ≠ r) (n m : ℕ) :
    NodeOk smallIndex r (linkedBlock r other n m) ∧
      edgesOf smallIndex (linkedBlock r other n m) =
        [⟨other, bitsOfWhole 1, wholeVector m⟩] := by
  have h := smallIndex_accepted.ok
  have hmax := nodeEdgesMaxCount_small
  have hok := NodeOk.init h r (wholeVector n)
  have hnone := nodeBinEdges_init h r (wholeVector n)
  have hfresh : edgesOf smallIndex (nodeBinInit smallIndex r (wholeVector n)) = [] :=
    List.length_eq_zero_iff.mp ((edgesOf_length _ _).trans hnone)
  constructor
  · refine hok.replaceEdge h rfl rfl ⟨by omega, by omega, ?_⟩ hne
    intro i hi
    omega
  · have hlist := @edgesOf_replaceEdge _ _ h ⟨hok.length, hok.edges_le⟩ 0
      ⟨other, bitsOfWhole 1, wholeVector m⟩ ⟨rfl, rfl⟩ (by omega) (by omega) (by omega)
    rw [hfresh] at hlist
    exact hlist

theorem linkedRows_read (n : UInt64) :
    blobSpotRead smallIndex linkedRows n =
      if n = 2 then .ok (linkedBlock 2 1 1 0)
      else if n = 1 then .ok (linkedBlock 1 2 0 1) else .error .rowNotFound := by
  have h := smallIndex_accepted.ok
  have h₁ := (linkedBlock_ok (show (2 : UInt64) ≠ 1 by decide) 0 1).1.length
  have h₂ := (linkedBlock_ok (show (1 : UInt64) ≠ 2 by decide) 1 0).1.length
  refine (blobSpotRead_flush h _ h₂ n).trans ?_
  rw [blobSpotRead_flush h _ h₁ n]
  rfl

theorem linkedRows_hasRow (n : UInt64) : HasRow smallIndex linkedRows n ↔ n = 2 ∨ n = 1 := by
  refine hasRow_put.trans (or_congr_right (hasRow_put.trans ⟨?_, .inl⟩))
  rintro (hn | hn)
  · exact hn
  · cases hn

theorem linkedRows_graph : GraphOk smallIndex linkedRows fun _ => True := by
  intro n hn
  have hread := linkedRows_read n
  rcases (linkedRows_hasRow n).mp hn with rfl | rfl
  · exact ⟨_, hread, (linkedBlock_ok (by decide) 1 0).1, fun _ _ => trivial⟩
  · exact ⟨_, hread, (linkedBlock_ok (by decide) 0 1).1, fun _ _ => trivial⟩

theorem linkedRows_neighbours :
    OutNeighbour smallIndex linkedRows 1 2 ∧ OutNeighbour smallIndex linkedRows 2 1 := by
  refine ⟨⟨_, linkedRows_read 1, ?_⟩, ⟨_, linkedRows_read 2, ?_⟩⟩
  · rw [(linkedBlock_ok (by decide) 0 1).2]
    exact ⟨_, List.mem_singleton_self _, rfl⟩
  · rw [(linkedBlock_ok (by decide) 1 0).2]
    exact ⟨_, List.mem_singleton_self _, rfl⟩

theorem diskAnnDeleteWith_linked :
    Deleted smallIndex 1 ⟨linkedRows, 2⟩
      (diskAnnDeleteWith smallIndex noFaults ⟨linkedRows, 2⟩ 1) :=
  diskAnnDeleteWith_spec smallIndex_accepted.ok (P := fun _ => True) linkedRows_graph noFaults 1

end Spec

end MoVeBench
