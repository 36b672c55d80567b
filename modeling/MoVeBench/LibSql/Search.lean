/-
MoVeBench/LibSql/Search.lean

The search of the libSQL original, over `sqlite3_blob`.

The original keeps its blocks as blobs of an SQL table and reads them through
blob handles; a handle that fails to move to another row is dead and has to be
closed.  Everything above the blob spots (blocks, edges, buffers, the operations
of a search context but its allocation) is the same code in both programs, so
the model shares it.

`rowRead` is what a blob spot finds in a row.  A round of the search is again a
`SearchRound` (`diskAnnSearchStep_round`), now over `rowRead`.
-/
import MoVeBench.DiskAnn.Update

namespace MoVeBench

namespace LibSql

open Bytes

/-- The blobs of the shadow table, by `sqlite3_int64` rowid. -/
abbrev Blobs := SortedMap ℤ (List UInt8)

/-! ### Blob spots -/

section Blob

variable (pIndex : DiskAnnIndex) (blobs : Blobs)

/-- `sqlite3_blob_open` and `sqlite3_blob_reopen`, behind `blobSpotConvertRc`. -/
def blobOpen (nRowid : UInt64) : Except Rc Unit :=
  if (blobs.get? (rowidToInt nRowid)).isSome then .ok () else .error .rowNotFound

/-- `sqlite3_blob_read` of a block, from a handle at the row. -/
def blobRead (nRowid : UInt64) : Except Rc (List UInt8) :=
  match blobs.get? (rowidToInt nRowid) with
  | none => .error .error
  | some data =>
      if data.length < pIndex.nBlockSize then .error .error
      else .ok (readBytes data 0 pIndex.nBlockSize)

/-- `blobSpotCreate`.  The handle `pBlob` is at row `nRowid` as long as the spot
is not aborted. -/
def blobSpotCreate (nRowid : UInt64) : Except Rc BlobSpot :=
  match blobOpen blobs nRowid with
  | .error rc => .error rc
  | .ok () =>
      .ok { nRowid, pBuffer := List.replicate pIndex.nBlockSize 0, isInitialized := false,
            isAborted := false }

/-- The part of `blobSpotReload` that brings the handle to the row: a new one for
an aborted spot, else `sqlite3_blob_reopen` where the row is another. -/
def blobSpotReopen (pBlobSpot : BlobSpot) (nRowid : UInt64) : Option Rc × BlobSpot :=
  if pBlobSpot.isAborted then
    let spot := { pBlobSpot with nRowid, isInitialized := false, isAborted := false }
    match blobOpen blobs nRowid with
    | .error rc => (some rc, { spot with isAborted := true })
    | .ok () => (none, spot)
  else if pBlobSpot.nRowid ≠ nRowid then
    match blobOpen blobs nRowid with
    | .error rc => (some rc, { pBlobSpot with isInitialized := false, isAborted := true })
    | .ok () => (none, { pBlobSpot with nRowid, isInitialized := false })
  else (none, pBlobSpot)

/-- `blobSpotReload`. -/
def blobSpotReload (pBlobSpot : BlobSpot) (nRowid : UInt64) : Option Rc × BlobSpot :=
  if pBlobSpot.nRowid = nRowid ∧ pBlobSpot.isInitialized then (none, pBlobSpot)
  else
    match blobSpotReopen blobs pBlobSpot nRowid with
    | (some rc, spot) => (some rc, spot)
    | (none, spot) =>
        match blobRead pIndex blobs spot.nRowid with
        | .error rc => (some rc, { spot with isInitialized := false, isAborted := true })
        | .ok pBuffer => (none, { spot with pBuffer, isInitialized := true })

/-- `blobSpotFlush`: a blob has to be there and long enough. -/
def blobSpotFlush (pBlobSpot : BlobSpot) : Except Rc Blobs :=
  match blobs.get? (rowidToInt pBlobSpot.nRowid) with
  | none => .error .error
  | some data =>
      if data.length < pBlobSpot.pBuffer.length then .error .error
      else .ok (blobs.insert (rowidToInt pBlobSpot.nRowid) (writeBytes data 0 pBlobSpot.pBuffer))

/-- `diskAnnInsertShadowRow`: the key is the rowid of the new row. -/
def diskAnnInsertShadowRow (nRowid : UInt64) : Except Rc Blobs :=
  if (blobs.get? (rowidToInt nRowid)).isSome then .error .error
  else .ok (blobs.insert (rowidToInt nRowid) (List.replicate pIndex.nBlockSize 0))

/-- What opening and reading a row gives. -/
def rowRead (nRowid : UInt64) : Except Rc (List UInt8) :=
  match blobOpen blobs nRowid with
  | .error rc => .error rc
  | .ok () => blobRead pIndex blobs nRowid

/-- A spot with a block has that of its row, and a living handle is at a row. -/
structure SpotOk (pBlobSpot : BlobSpot) : Prop where
  block : pBlobSpot.isInitialized →
    rowRead pIndex blobs pBlobSpot.nRowid = .ok pBlobSpot.pBuffer
  handle : pBlobSpot.isAborted = false → blobOpen blobs pBlobSpot.nRowid = .ok ()

variable {pIndex blobs}

theorem SpotOk.create {nRowid : UInt64} {spot : BlobSpot}
    (h : blobSpotCreate pIndex blobs nRowid = .ok spot) :
    SpotOk pIndex blobs spot ∧ spot.nRowid = nRowid := by
  unfold blobSpotCreate at h
  split at h
  · cases h
  · rename_i hopen
    obtain rfl := Except.ok.inj h
    exact ⟨⟨nofun, fun _ => hopen⟩, rfl⟩

/-- Bringing the handle to a row succeeds where the row can be opened. -/
theorem blobSpotReopen_spec {pBlobSpot : BlobSpot} (h : SpotOk pIndex blobs pBlobSpot)
    (nRowid : UInt64) (hnew : ¬ (pBlobSpot.nRowid = nRowid ∧ pBlobSpot.isInitialized = true)) :
    SpotOk pIndex blobs (blobSpotReopen blobs pBlobSpot nRowid).2 ∧
      match blobOpen blobs nRowid with
      | .ok () => (blobSpotReopen blobs pBlobSpot nRowid).1 = none ∧
          (blobSpotReopen blobs pBlobSpot nRowid).2.nRowid = nRowid ∧
          (blobSpotReopen blobs pBlobSpot nRowid).2.isInitialized = false
      | .error rc => (blobSpotReopen blobs pBlobSpot nRowid).1 = some rc := by
  unfold blobSpotReopen
  split_ifs with habort hrow
  · rcases hopen : blobOpen blobs nRowid with rc | ⟨⟩
    · exact ⟨⟨nofun, nofun⟩, rfl⟩
    · exact ⟨⟨nofun, fun _ => hopen⟩, rfl, rfl, rfl⟩
  · rcases hopen : blobOpen blobs nRowid with rc | ⟨⟩
    · exact ⟨⟨nofun, nofun⟩, rfl⟩
    · exact ⟨⟨nofun, fun _ => hopen⟩, rfl, rfl, rfl⟩
  · -- the handle is there already, but nothing was read through it
    rw [not_not] at hrow
    rw [← hrow, h.handle (by simpa using habort)]
    exact ⟨h, rfl, rfl, by simpa [hrow] using hnew⟩

/-- **Loading a spot is reading the row.** -/
theorem blobSpotReload_spec {pBlobSpot : BlobSpot} (h : SpotOk pIndex blobs pBlobSpot)
    (nRowid : UInt64) :
    SpotOk pIndex blobs (blobSpotReload pIndex blobs pBlobSpot nRowid).2 ∧
      match rowRead pIndex blobs nRowid with
      | .ok buf => (blobSpotReload pIndex blobs pBlobSpot nRowid).1 = none ∧
          (blobSpotReload pIndex blobs pBlobSpot nRowid).2.nRowid = nRowid ∧
          (blobSpotReload pIndex blobs pBlobSpot nRowid).2.pBuffer = buf
      | .error rc => (blobSpotReload pIndex blobs pBlobSpot nRowid).1 = some rc := by
  unfold blobSpotReload
  split_ifs with hkept
  · obtain ⟨rfl, hinit⟩ := hkept
    rw [h.block hinit]
    exact ⟨h, rfl, rfl, rfl⟩
  · obtain ⟨hok, hopened⟩ := blobSpotReopen_spec h nRowid hkept
    rcases hre : blobSpotReopen blobs pBlobSpot nRowid with ⟨rc, spot⟩
    rw [hre] at hok hopened
    rcases hopen : blobOpen blobs nRowid with e | ⟨⟩
    · rw [hopen] at hopened
      simp only at hopened
      subst hopened
      simp only [rowRead, hopen]
      exact ⟨hok, trivial⟩
    · rw [hopen] at hopened
      obtain ⟨rfl, hrow, -⟩ := hopened
      simp only at hrow
      subst hrow
      simp only [rowRead, hopen]
      rcases hread : blobRead pIndex blobs spot.nRowid with e | buf
      · exact ⟨⟨nofun, nofun⟩, rfl⟩
      · refine ⟨⟨fun _ => ?_, fun _ => hopen⟩, rfl, rfl, rfl⟩
        simp only [rowRead, hopen, hread]

end Blob

/-! ### The search -/

section Model

variable {D : Type} [LT D] [DecidableLT D] (math : VectorMath D) (pIndex : DiskAnnIndex)
  (blobs : Blobs)

/-- `diskAnnSearchCtxInit`, `none` for `SQLITE_NOMEM`.  The original allocates
eight bytes for a distance. -/
def diskAnnSearchCtxInit (pQuery : Vector) (maxCandidates topCandidates : ℕ)
    (blobMode : BlobMode) : Option (DiskAnnSearchCtx D) :=
  if mallocOk (maxCandidates * 8) ∧ mallocOk (maxCandidates * 8) ∧
      mallocOk (topCandidates * 8) ∧ mallocOk (topCandidates * 8) then
    some
      { query := loadVectorPair math pIndex pQuery
        aCandidates := []
        maxCandidates
        aTopCandidates := []
        maxTopCandidates := topCandidates
        visitedList := []
        nUnvisited := 0
        blobMode }
  else none

/-- The blob spot of a candidate, created where there is none. -/
def candidateSpot (pCandidate : DiskAnnNode) : Except Rc BlobSpot :=
  match pCandidate.pBlobSpot with
  | some spot => .ok spot
  | none => blobSpotCreate pIndex blobs pCandidate.nRowid

/-- Loading the block of a candidate: into the reusable blob spot where there is
one, else into its own. -/
def loadCandidate (pReusable : Option BlobSpot) (pCandidate : DiskAnnNode) :
    Option Rc × DiskAnnNode × Option BlobSpot × List UInt8 :=
  match pReusable with
  | some spot =>
      let r := blobSpotReload pIndex blobs spot pCandidate.nRowid
      (r.1, pCandidate, some r.2, r.2.pBuffer)
  | none =>
      -- the spot stays with the candidate, also where the load fails
      match candidateSpot pIndex blobs pCandidate with
      | .error rc => (some rc, pCandidate, none, [])
      | .ok spot =>
          let r := blobSpotReload pIndex blobs spot pCandidate.nRowid
          (r.1, { pCandidate with pBlobSpot := some r.2 }, none, r.2.pBuffer)

/-- One round of the loop of `diskAnnSearchInternal`; `none` where the search is
given up. -/
def diskAnnSearchStep (pCtx : DiskAnnSearchCtx D) (pReusable : Option BlobSpot) (iCandidate : ℕ)
    (pCandidate : DiskAnnNode) (distance : D) :
    Option (DiskAnnSearchCtx D × Option BlobSpot) :=
  match loadCandidate pIndex blobs pReusable pCandidate with
  -- a dangling edge led here
  | (some .rowNotFound, _, pReusable, _) =>
      some (diskAnnSearchCtxDeleteCandidate pCtx iCandidate, pReusable)
  -- any other error ends the search
  | (some _, _, _, _) => none
  | (none, pCandidate, pReusable, buf) =>
      let distance := visitDistance math pIndex pCtx buf distance
      let pCtx := diskAnnSearchCtxMarkVisited pCtx iCandidate pCandidate distance
      some (diskAnnSearchEdges math pIndex buf pCtx, pReusable)

/-- The loop of `diskAnnSearchInternal`. -/
def diskAnnSearchLoop : ℕ → DiskAnnSearchCtx D → Option BlobSpot → DiskAnnSearchCtx D
  | 0, pCtx, _ => pCtx
  | fuel + 1, pCtx, pReusable =>
      if diskAnnSearchCtxHasUnvisited pCtx then
        match diskAnnSearchCtxFindClosestCandidateIdx pCtx with
        | none => pCtx
        | some iCandidate =>
            match pCtx.aCandidates[iCandidate]? with
            | none => pCtx
            | some (pCandidate, distance) =>
                match diskAnnSearchStep math pIndex blobs pCtx pReusable iCandidate pCandidate
                    distance with
                | none => pCtx
                | some (pCtx, pReusable) => diskAnnSearchLoop fuel pCtx pReusable
      else pCtx

/-- Enough rounds for the loop, by the number of blobs. -/
def searchFuel : ℕ := 65536 * blobs.entries.length + 1

/-- `diskAnnSearchInternal`.  It answers `SQLITE_OK` also where it gives up, with
the context as it is then. -/
def diskAnnSearchInternal (pCtx : DiskAnnSearchCtx D) (nStartRowid : UInt64) :
    DiskAnnSearchCtx D :=
  match blobSpotCreate pIndex blobs nStartRowid with
  | .error _ => pCtx
  | .ok spot =>
      let r := blobSpotReload pIndex blobs spot nStartRowid
      match r.1 with
      | some _ => pCtx
      | none =>
          let startVector := nodeBinVector pIndex r.2.pBuffer
          let startDistance := diskAnnVectorDistance math pIndex pCtx.query.pNode startVector
          let start := diskAnnNodeAlloc nStartRowid
          -- a writable search keeps the spot of every node that it visits
          match pCtx.blobMode with
          | .readonly =>
              diskAnnSearchLoop math pIndex blobs (searchFuel blobs)
                (diskAnnSearchCtxInsertCandidate pCtx 0 start startDistance) (some r.2)
          | .writable =>
              diskAnnSearchLoop math pIndex blobs (searchFuel blobs)
                (diskAnnSearchCtxInsertCandidate pCtx 0 { start with pBlobSpot := some r.2 }
                  startDistance) none

end Model

/-! ### Rounds -/

section Round

variable {D : Type} {pIndex : DiskAnnIndex} {blobs : Blobs} {query : VectorPair}
  {R : UInt64 → D → Prop} {pCtx : DiskAnnSearchCtx D}

/-- Where no spot can be created, the row cannot be opened. -/
theorem candidateSpot_error {node : DiskAnnNode} {rc : Rc}
    (h : candidateSpot pIndex blobs node = .error rc) :
    rowRead pIndex blobs node.nRowid = .error rc := by
  unfold candidateSpot blobSpotCreate at h
  split at h
  · cases h
  · rcases hopen : blobOpen blobs node.nRowid with e | ⟨⟩
    · rw [hopen] at h
      rw [rowRead, hopen, Except.error.inj h]
    · rw [hopen] at h
      cases h

/-- Loading a candidate reads its row. -/
theorem loadCandidate_spec {pReusable : Option BlobSpot} {node : DiskAnnNode}
    (hre : ∀ spot ∈ pReusable, SpotOk pIndex blobs spot)
    (hspot : ∀ spot ∈ node.pBlobSpot, SpotOk pIndex blobs spot) :
    ∃ rc node' pReusable' buf,
      loadCandidate pIndex blobs pReusable node = (rc, node', pReusable', buf) ∧
      (∀ spot ∈ pReusable', SpotOk pIndex blobs spot) ∧ (pReusable = none → pReusable' = none) ∧
      node'.nRowid = node.nRowid ∧ (∀ spot ∈ node'.pBlobSpot, SpotOk pIndex blobs spot) ∧
      match rowRead pIndex blobs node.nRowid with
      | .ok block => rc = none ∧ buf = block ∧ (pReusable = none →
          ∃ spot, node'.pBlobSpot = some spot ∧ spot.nRowid = node.nRowid ∧ spot.pBuffer = block)
      | .error e => rc = some e := by
  have hreload : ∀ spot, SpotOk pIndex blobs spot →
      let r := blobSpotReload pIndex blobs spot node.nRowid
      SpotOk pIndex blobs r.2 ∧ match rowRead pIndex blobs node.nRowid with
        | .ok block => r.1 = none ∧ r.2.pBuffer = block ∧ r.2.nRowid = node.nRowid
        | .error e => r.1 = some e := by
    intro spot hok
    obtain ⟨hok', hread⟩ := blobSpotReload_spec hok node.nRowid
    refine ⟨hok', ?_⟩
    rcases he : rowRead pIndex blobs node.nRowid with e | block
    · rwa [he] at hread
    · rw [he] at hread
      exact ⟨hread.1, hread.2.2, hread.2.1⟩
  unfold loadCandidate
  rcases pReusable with - | spot
  · -- the candidate loads into a spot of its own
    rcases hcreated : candidateSpot pIndex blobs node with rc | spot
    · refine ⟨_, _, _, _, rfl, by simp, fun _ => rfl, rfl, hspot, ?_⟩
      rw [candidateSpot_error hcreated]
    · have hown : SpotOk pIndex blobs spot := by
        unfold candidateSpot at hcreated
        split at hcreated
        · rename_i spot' hnode
          obtain rfl := Except.ok.inj hcreated
          exact hspot spot' hnode
        · exact (SpotOk.create hcreated).1
      obtain ⟨hok, hread⟩ := hreload spot hown
      refine ⟨_, _, _, _, rfl, by simp, fun _ => rfl, rfl, ?_, ?_⟩
      · rintro spot' ⟨⟩
        exact hok
      · rcases he : rowRead pIndex blobs node.nRowid with e | block
        · rw [he] at hread
          exact hread
        · rw [he] at hread
          exact ⟨hread.1, hread.2.1, fun _ => ⟨_, rfl, hread.2.2, hread.2.1⟩⟩
  · -- it loads into the reusable spot
    obtain ⟨hok, hread⟩ := hreload spot (hre spot rfl)
    refine ⟨_, _, _, _, rfl, ?_, nofun, rfl, hspot, ?_⟩
    · rintro spot' ⟨⟩
      exact hok
    · rcases he : rowRead pIndex blobs node.nRowid with e | block
      · rw [he] at hread
        exact hread
      · rw [he] at hread
        exact ⟨hread.1, hread.2.1, nofun⟩

variable [LT D] [DecidableLT D]

/-- **Where a row can be read or is gone, a step is a round.** -/
theorem diskAnnSearchStep_round (math : VectorMath D)
    (h : CtxInv (rowRead pIndex blobs) (SpotOk pIndex blobs) query R pCtx)
    {pReusable : Option BlobSpot} (hre : ReusableOk (SpotOk pIndex blobs) pCtx pReusable)
    {i : ℕ} {node : DiskAnnNode} {d : D} (hp : pCtx.aCandidates[i]? = some (node, d))
    (hread : ∀ e, rowRead pIndex blobs node.nRowid = .error e → e = .rowNotFound) :
    ∃ pCtx' pReusable',
      diskAnnSearchStep math pIndex blobs pCtx pReusable i node d = some (pCtx', pReusable') ∧
      ReusableOk (SpotOk pIndex blobs) pCtx pReusable' ∧
      SearchRound math pIndex (rowRead pIndex blobs) (SpotOk pIndex blobs) pCtx i node d pCtx' := by
  have hmem : (node, d) ∈ pCtx.aCandidates := List.mem_of_getElem? hp
  obtain ⟨rc, node', re, buf, hload, hholds, hnone, hrow, hspots, hresult⟩ :=
    loadCandidate_spec hre.holds (h.spots (node, d) hmem)
  have hre' : ReusableOk (SpotOk pIndex blobs) pCtx re :=
    ⟨hholds, fun hmode => hnone (hre.own hmode)⟩
  unfold diskAnnSearchStep
  rw [hload]
  rcases he : rowRead pIndex blobs node.nRowid with e | block
  · obtain rfl := hread e he
    rw [he] at hresult
    subst hresult
    exact ⟨_, _, rfl, hre', .gone he⟩
  · rw [he] at hresult
    obtain ⟨rfl, rfl, hown⟩ := hresult
    refine ⟨_, _, rfl, hre', .visit hrow he hspots fun hmode => ?_⟩
    rw [hrow]
    exact hown (hre.own hmode)

end Round

end LibSql

end MoVeBench
