/-
MoVeBench/Lsm/Readers.lean

Readers, the worker and the checkpointer of an LSM database, interleaved.

A connection that reads holds a shared lock on one of the reader slots, and the
slot's snapshot id tells the worker which blocks it must not recycle.  The steps
of the system are single lock operations and accesses to the shared memory, of
any number of connections in any order.

The operations of the worker keep the roles of blocks apart (`Version.WF`) and
hold back what an older snapshot needs (`Kept`).
-/
import MoVeBench.Lib.SharedLock
import MoVeBench.Lib.Runs
import MoVeBench.Lsm.Checkpoint
import MoVeBench.Lsm.Freelist

namespace MoVeBench

namespace Lsm

open SharedLock

/-! ### Locks -/

/-- The locks that matter here. -/
inductive LockId
  | worker
  | checkpointer
  | reader (i : Fin 6)
  deriving DecidableEq

section Lock

variable {ι : Type} [Fintype ι] [DecidableEq ι]

/-- `lsmShmLock`, among the connections of one process. -/
def lsmShmLock (mLock : Table ι LockId) (db : ι) (iLock : LockId) (eOp : Hold) :
    Table ι LockId × Rc :=
  if mLock db iLock = eOp then (mLock, .ok)
  else
    let nExcl := decide (∃ d, d ≠ db ∧ mLock d iLock = .excl)
    let nShared := decide (∃ d, d ≠ db ∧ mLock d iLock = .shared)
    match eOp with
    | .free => (mLock.set db iLock .free, .ok)
    | .shared => if nExcl then (mLock, .busy) else (mLock.set db iLock .shared, .ok)
    | .excl => if nExcl || nShared then (mLock, .busy) else (mLock.set db iLock .excl, .ok)

variable {t t' : Table ι LockId} {c : ι} {l : LockId} {e : Hold}

/-- A lock operation that succeeds. -/
theorem lsmShmLock_ok (hx : Exclusive t) (h : lsmShmLock t c l e = (t', .ok)) :
    t' = t.set c l e ∧ (e = .excl → Alone t c l) ∧ Exclusive t' := by
  unfold lsmShmLock at h
  by_cases hnoop : t c l = e
  · rw [if_pos hnoop] at h
    obtain rfl := (Prod.mk.inj h).1
    exact ⟨(set_eq_self hnoop).symm, fun he d hd => hx l c d hd.symm (hnoop.trans he), hx⟩
  · rw [if_neg hnoop] at h
    cases e with
    | free =>
        obtain rfl := (Prod.mk.inj h).1
        exact ⟨rfl, nofun, hx.release c l⟩
    | shared =>
        simp only at h
        split_ifs at h with hexcl
        · cases (Prod.mk.inj h).2
        · obtain rfl := (Prod.mk.inj h).1
          simp only [decide_eq_true_eq, not_exists, not_and] at hexcl
          exact ⟨rfl, nofun, hx.share fun d hd => hexcl d hd⟩
    | excl =>
        simp only at h
        split_ifs at h with hheld
        · cases (Prod.mk.inj h).2
        · obtain rfl := (Prod.mk.inj h).1
          have halone : Alone t c l := by
            intro d hd
            simp only [Bool.or_eq_true, decide_eq_true_eq, not_or, not_exists, not_and] at hheld
            rcases e : t d l with - | - | -
            · rfl
            · exact absurd e (hheld.2 d hd)
            · exact absurd e (hheld.1 d hd)
          exact ⟨rfl, fun _ => halone, hx.lock halone⟩

end Lock

/-! ### Snapshots and reader slots -/

/-- A snapshot with the blocks of its segments: those that hold pages, and those
that were allocated ahead. -/
structure Version extends Snapshot where
  chain : Finset ℕ
  next : Finset ℕ

/-- `ShmReader`, a slot; `iLsmId` is 0 where it is empty. -/
structure ShmReader where
  iLsmId : ℤ
  iTreeId : UInt32

/-- `shm_sequence_ge`. -/
def shm_sequence_ge (a b : UInt32) : Bool := decide (a - b < 1073741824)

/-- `slotIsUsable`. -/
def slotIsUsable (p : ShmReader) (iLsm : ℤ) (iShmMin iShmMax : UInt32) : Bool :=
  p.iLsmId ≠ 0 && decide (p.iLsmId ≤ iLsm) && shm_sequence_ge iShmMax p.iTreeId &&
    shm_sequence_ge p.iTreeId iShmMin

/-- What `lsmReadlock` asks of a slot again once it has the shared lock: in the
first of its loops an exact match, in the last a usable slot. -/
def slotMatches (bExact : Bool) (p : ShmReader) (iLsm : ℤ) (iShmMin iShmMax : UInt32) : Bool :=
  if bExact then decide (p.iLsmId = iLsm) && decide (p.iTreeId = iShmMax)
  else slotIsUsable p iLsm iShmMin iShmMax

/-- One call of `moveBlockCb`: the block before which everything up to the end is
free, and whether the walk has stopped. -/
def moveBlockCb (s : ℕ × Bool) (iBlk : ℕ) : ℕ × Bool :=
  if s.2 then s else if iBlk + 1 = s.1 then (iBlk, false) else (s.1, true)

/-- `nNewBlock` of `lsm_reclaim`: the walk from the end goes as far as the blocks
are free. -/
def nNewBlock (p : Snapshot) : ℕ :=
  (((lsmWalkFreelist p.freelist true).map Prod.fst).foldl moveBlockCb (p.nBlock + 1, false)).1 - 1

/-! ### Connections -/

/-- Where a connection is in `lsmBeginReadTrans`. -/
inductive ReadPc
  | closed
  /-- The snapshot is loaded, `lsmReadlock` looks for a slot. -/
  | loaded (v : Version) (iShmMin iShmMax : UInt32)
  /-- A shared lock is taken, the slot is to be looked at again. -/
  | sharing (v : Version) (iShmMin iShmMax : UInt32) (i : Fin 6)
  /-- An exclusive lock is taken, the slot is to be filled. -/
  | filling (v : Version) (iShmMax : UInt32) (i : Fin 6)
  /-- `iReader` is set, the snapshot is to be compared again. -/
  | locked (v : Version) (i : Fin 6)
  | reading (v : Version) (i : Fin 6)

/-- The snapshot that the connection has loaded. -/
def ReadPc.version : ReadPc → Option Version
  | .closed => none
  | .loaded v _ _ => some v
  | .sharing v _ _ _ => some v
  | .filling v _ _ => some v
  | .locked v _ => some v
  | .reading v _ => some v

/-- `iReader`, with the snapshot. -/
def ReadPc.iReader : ReadPc → Option (Fin 6 × Version)
  | .locked v i => some (i, v)
  | .reading v i => some (i, v)
  | _ => none

/-- No `lsmBeginReadTrans` is under way. -/
def ReadPc.quiet : ReadPc → Prop
  | .closed => True
  | .reading _ _ => True
  | _ => False

/-- Where a connection is as the worker. -/
inductive WorkPc
  | idle
  | working (p : Version)
  /-- `lsmBlockAllocate` in `firstSnapshotInUse`, at slot `k`; `iThis` is set once
  the slot has been looked at. -/
  | scanning (p : Version) (iBefore : ℕ) (iInUse : ℤ) (k : ℕ) (iThis : Option ℤ)
  /-- `lsm_reclaim` has lowered `nBlock`. -/
  | shrunk (p : Version)
  /-- The snapshot is saved, `dbSetReadLock` follows. -/
  | saved (p : Version)

/-- The snapshot of the worker. -/
def WorkPc.version : WorkPc → Option Version
  | .idle => none
  | .working p => some p
  | .scanning p _ _ _ _ => some p
  | .shrunk p => some p
  | .saved p => some p

/-- Where a connection is in `lsmCheckpointWrite`. -/
inductive CkptPc
  | idle
  | loaded (v : Version)
  | synced (v : Version)

/-- The checkpoint that is being written. -/
def CkptPc.version : CkptPc → Option Version
  | .idle => none
  | .loaded v => some v
  | .synced v => some v

/-- The connections `ι` and what they share. -/
structure DbState (ι : Type) where
  mLock : Table ι LockId
  aReader : Fin 6 → ShmReader
  /-- The snapshot in shared memory. -/
  snapshot : Version
  /-- The checkpoint on the current meta page. -/
  synced : Option Version
  reader : ι → ReadPc
  worker : ι → WorkPc
  ckpt : ι → CkptPc

/-! ### The worker's changes to its snapshot -/

/-- What flushes, merges and block moves do with the blocks and the free list. -/
inductive WorkOp
  /-- A page is written to a block that was allocated ahead. -/
  | useBlock (iBlk : ℕ)
  /-- A block that no segment uses any more is freed. -/
  | freeBlock (iBlk : ℕ)
  /-- A block that was allocated ahead is given back. -/
  | refreeBlock (iBlk : ℕ)
  /-- `sortedMoveBlock`, once block `iTo` is allocated. -/
  | moveBlock (iFrom iTo : ℕ)
  /-- The free list is being written into a level: changes go to a temporary
  list. -/
  | beginFreelist
  | endFreelist

/-- The first entry that leads to `iFrom` is overwritten. -/
def redirectOverwrite (iFrom iTo : ℕ) : List (ℕ × ℕ) → List (ℕ × ℕ)
  | [] => []
  | e :: l => if e.2 = iFrom then (e.1, iTo) :: l else e :: redirectOverwrite iFrom iTo l

/-- The redirects after `sortedMoveBlock`. -/
def redirectMoved (redirect : List (ℕ × ℕ)) (iFrom iTo : ℕ) : List (ℕ × ℕ) :=
  if redirect.any fun e => e.2 = iFrom then redirectOverwrite iFrom iTo redirect
  else (iFrom, iTo) :: redirect

namespace Version

/-- The blocks that an operation is about are there. -/
def Allows (p : Version) : WorkOp → Prop
  | .useBlock iBlk => iBlk ∈ p.next
  | .freeBlock iBlk => iBlk ∈ p.chain
  | .refreeBlock iBlk => iBlk ∈ p.next
  | .moveBlock iFrom iTo => iFrom ∈ p.chain ∧ iTo ∈ p.next
  | .beginFreelist => p.freelist.temp = none
  | .endFreelist => p.freelist.temp ≠ none

/-- The snapshot after an operation. -/
def work (p : Version) : WorkOp → Version
  | .useBlock iBlk => { p with chain := insert iBlk p.chain, next := p.next.erase iBlk }
  | .freeBlock iBlk =>
      { p with toSnapshot := lsmBlockFree p.toSnapshot iBlk, chain := p.chain.erase iBlk }
  | .refreeBlock iBlk =>
      { p with toSnapshot := lsmBlockRefree p.toSnapshot iBlk, next := p.next.erase iBlk }
  | .moveBlock iFrom iTo =>
      { p with
        toSnapshot := lsmBlockFree
          { p.toSnapshot with redirect := redirectMoved p.redirect iFrom iTo } iFrom
        chain := (insert iTo p.chain).erase iFrom
        next := p.next.erase iTo }
  | .beginFreelist => { p with freelist := { p.freelist with temp := some SortedMap.empty } }
  | .endFreelist => { p with freelist := flushFreelist p.freelist }

/-- `lsmBlockAllocate`. -/
def allocate (p : Version) (iBefore : ℕ) (iInUse : ℤ) (bRotrans : Bool) : Version × Option ℕ :=
  match lsmBlockAllocate p.toSnapshot iBefore iInUse bRotrans with
  | (q, some iBlk) => ({ p with toSnapshot := q, next := insert iBlk p.next }, some iBlk)
  | (q, none) => ({ p with toSnapshot := q }, none)

/-- The end of `lsm_reclaim`: the database is shrunk, and the entries of the
worker's list past its end are dropped. -/
def shrink (p : Version) : Version :=
  { p with
    nBlock := nNewBlock p.toSnapshot
    freelist := { p.freelist with
      worker := p.freelist.worker.restrict fun iBlk => decide (iBlk ≤ nNewBlock p.toSnapshot) } }

/-- The snapshot as `lsmSaveWorker` saves it. -/
def save (p : Version) : Version := { p with iId := p.iId + 1 }

end Version

/-! ### The steps -/

/-- The steps of a connection `c`. -/
inductive DbOp (ι : Type)
  | load (c : ι) (iShmMin iShmMax : UInt32)
  | shareSlot (c : ι) (i : Fin 6)
  | checkSlot (c : ι) (bExact : Bool)
  | lockSlot (c : ι) (i : Fin 6)
  | fillSlot (c : ι)
  | readlockBusy (c : ι)
  | recheck (c : ι) (bTreeOk : Bool)
  | finishRead (c : ι)
  | probe (c : ι) (i : Fin 6)
  | beginWork (c : ι)
  | work (c : ι) (op : WorkOp)
  | allocBegin (c : ι) (iBefore : ℕ)
  | allocLook (c : ι)
  | allocLock (c : ι)
  | allocEnd (c : ι) (bRotrans : Bool)
  | shrink (c : ι)
  | save (c : ι)
  | setReadLock (c : ι) (i : Fin 6) (iShm : UInt32)
  | endWork (c : ι)
  | ckptLoad (c : ι)
  | ckptSync (c : ι)
  | ckptTruncate (c : ι)
  | ckptEnd (c : ι)

section Steps

variable {ι : Type} [Fintype ι] [DecidableEq ι]

/-- An exclusive lock on a slot that is given back at once, after the slot is
written. -/
def DbState.writeSlot (s : DbState ι) (c : ι) (i : Fin 6) (p : ShmReader)
    (mLock : Table ι LockId) : DbState ι :=
  { s with
    mLock := (lsmShmLock mLock c (.reader i) .free).1
    aReader := Function.update s.aReader i p }

/-- `iInUse` of `lsmBlockAllocate`, before the slots are looked at. -/
def DbState.iInUse (s : DbState ι) (c : ι) (p : Version) : ℤ :=
  let iSynced := (s.synced.map fun v => v.iId).getD p.iId
  match (s.reader c).iReader with
  | some (_, v) => min iSynced v.iId
  | none => iSynced

/-- One step of one connection.  What a connection saw of a slot before it has the
slot's lock may be out of date when it gets the lock, so the lock steps ask
nothing of the slot. -/
inductive DbStep : DbState ι → DbOp ι → DbState ι → Prop
  | load {s : DbState ι} {c : ι} {iShmMin iShmMax : UInt32} :
      s.worker c = .idle → s.reader c = .closed →
      DbStep s (.load c iShmMin iShmMax)
        { s with reader := Function.update s.reader c (.loaded s.snapshot iShmMin iShmMax) }
  | shareSlot {s : DbState ι} {c : ι} {i : Fin 6} {v : Version} {iShmMin iShmMax : UInt32}
      {mLock : Table ι LockId} :
      s.reader c = .loaded v iShmMin iShmMax →
      lsmShmLock s.mLock c (.reader i) .shared = (mLock, .ok) →
      DbStep s (.shareSlot c i)
        { s with
          mLock := mLock
          reader := Function.update s.reader c (.sharing v iShmMin iShmMax i) }
  | checkSlot {s : DbState ι} {c : ι} {bExact : Bool} {i : Fin 6} {v : Version}
      {iShmMin iShmMax : UInt32} :
      s.reader c = .sharing v iShmMin iShmMax i →
      -- the shared lock stays when the slot does not match
      DbStep s (.checkSlot c bExact)
        { s with
          reader := Function.update s.reader c
            (if slotMatches bExact (s.aReader i) v.iId iShmMin iShmMax then .locked v i
            else .loaded v iShmMin iShmMax) }
  | lockSlot {s : DbState ι} {c : ι} {i : Fin 6} {v : Version} {iShmMin iShmMax : UInt32}
      {mLock : Table ι LockId} :
      s.reader c = .loaded v iShmMin iShmMax →
      lsmShmLock s.mLock c (.reader i) .excl = (mLock, .ok) →
      DbStep s (.lockSlot c i)
        { s with
          mLock := mLock
          reader := Function.update s.reader c (.filling v iShmMax i) }
  | fillSlot {s : DbState ι} {c : ι} {i : Fin 6} {v : Version} {iShmMax : UInt32}
      {mLock : Table ι LockId} :
      s.reader c = .filling v iShmMax i →
      lsmShmLock s.mLock c (.reader i) .shared = (mLock, .ok) →
      DbStep s (.fillSlot c)
        { s with
          mLock := mLock
          aReader := Function.update s.aReader i ⟨v.iId, iShmMax⟩
          reader := Function.update s.reader c (.locked v i) }
  | readlockBusy {s : DbState ι} {c : ι} {v : Version} {iShmMin iShmMax : UInt32} :
      s.reader c = .loaded v iShmMin iShmMax →
      DbStep s (.readlockBusy c) { s with reader := Function.update s.reader c .closed }
  | recheckOk {s : DbState ι} {c : ι} {i : Fin 6} {v : Version} :
      s.reader c = .locked v i → v.iId = s.snapshot.iId →
      DbStep s (.recheck c true) { s with reader := Function.update s.reader c (.reading v i) }
  | recheckFails {s : DbState ι} {c : ι} {bTreeOk : Bool} {i : Fin 6} {v : Version} :
      s.reader c = .locked v i → bTreeOk = false ∨ v.iId ≠ s.snapshot.iId →
      DbStep s (.recheck c bTreeOk)
        { s with
          mLock := (lsmShmLock s.mLock c (.reader i) .free).1
          reader := Function.update s.reader c .closed }
  | finishRead {s : DbState ι} {c : ι} {i : Fin 6} {v : Version} :
      s.worker c = .idle → s.reader c = .reading v i →
      DbStep s (.finishRead c)
        { s with
          mLock := (lsmShmLock s.mLock c (.reader i) .free).1
          reader := Function.update s.reader c .closed }
  | probe {s : DbState ι} {c : ι} {i : Fin 6} {mLock : Table ι LockId} :
      -- `isInUse`, when it gets the lock
      (s.reader c).quiet → lsmShmLock s.mLock c (.reader i) .excl = (mLock, .ok) →
      DbStep s (.probe c i) (s.writeSlot c i { s.aReader i with iLsmId := 0 } mLock)
  | beginWork {s : DbState ι} {c : ι} {mLock : Table ι LockId} :
      s.worker c = .idle → (s.reader c).quiet →
      lsmShmLock s.mLock c .worker .excl = (mLock, .ok) →
      DbStep s (.beginWork c)
        { s with
          mLock := mLock
          worker := Function.update s.worker c (.working s.snapshot) }
  | work {s : DbState ι} {c : ι} {op : WorkOp} {p : Version} :
      s.worker c = .working p → p.Allows op →
      DbStep s (.work c op)
        { s with worker := Function.update s.worker c (.working (p.work op)) }
  | allocBegin {s : DbState ι} {c : ι} {iBefore : ℕ} {p : Version} :
      s.worker c = .working p →
      DbStep s (.allocBegin c iBefore)
        { s with
          worker := Function.update s.worker c (.scanning p iBefore (s.iInUse c p) 0 none) }
  | allocLook {s : DbState ι} {c : ι} {p : Version} {iBefore k : ℕ} {iInUse : ℤ} (hk : k < 6) :
      s.worker c = .scanning p iBefore iInUse k none →
      DbStep s (.allocLook c)
        { s with
          worker := Function.update s.worker c
            (if (s.aReader ⟨k, hk⟩).iLsmId ≠ 0 ∧ (s.aReader ⟨k, hk⟩).iLsmId < iInUse then
              .scanning p iBefore iInUse k (some (s.aReader ⟨k, hk⟩).iLsmId)
            else .scanning p iBefore iInUse (k + 1) none) }
  | allocLock {s : DbState ι} {c : ι} {p : Version} {iBefore k : ℕ} {iInUse iThis : ℤ}
      {mLock : Table ι LockId} (hk : k < 6) :
      s.worker c = .scanning p iBefore iInUse k (some iThis) →
      lsmShmLock s.mLock c (.reader ⟨k, hk⟩) .excl = (mLock, .ok) →
      DbStep s (.allocLock c)
        { (s.writeSlot c ⟨k, hk⟩ { s.aReader ⟨k, hk⟩ with iLsmId := 0 } mLock) with
          worker := Function.update s.worker c (.scanning p iBefore iInUse (k + 1) none) }
  | allocBusy {s : DbState ι} {c : ι} {p : Version} {iBefore k : ℕ} {iInUse iThis : ℤ}
      {mLock : Table ι LockId} (hk : k < 6) :
      s.worker c = .scanning p iBefore iInUse k (some iThis) →
      lsmShmLock s.mLock c (.reader ⟨k, hk⟩) .excl = (mLock, .busy) →
      DbStep s (.allocLock c)
        { s with
          worker := Function.update s.worker c (.scanning p iBefore iThis (k + 1) none) }
  | allocEnd {s : DbState ι} {c : ι} {bRotrans : Bool} {p : Version} {iBefore : ℕ} {iInUse : ℤ} :
      s.worker c = .scanning p iBefore iInUse 6 none →
      DbStep s (.allocEnd c bRotrans)
        { s with
          worker := Function.update s.worker c
            (.working (p.allocate iBefore iInUse bRotrans).1) }
  | shrink {s : DbState ι} {c : ι} {p : Version} :
      s.worker c = .working p → p.freelist.temp = none →
      DbStep s (.shrink c) { s with worker := Function.update s.worker c (.shrunk p.shrink) }
  | save {s : DbState ι} {c : ι} {p : Version} :
      s.worker c = .working p ∨ s.worker c = .shrunk p → p.freelist.temp = none →
      DbStep s (.save c)
        { s with
          snapshot := p.save
          worker := Function.update s.worker c (.saved p.save) }
  | setReadLock {s : DbState ι} {c : ι} {i : Fin 6} {iShm : UInt32} {p : Version}
      {mLock : Table ι LockId} :
      s.worker c = .saved p → lsmShmLock s.mLock c (.reader i) .excl = (mLock, .ok) →
      DbStep s (.setReadLock c i iShm) (s.writeSlot c i ⟨p.iId, iShm⟩ mLock)
  | endWork {s : DbState ι} {c : ι} {p : Version} :
      s.worker c = .working p ∨ s.worker c = .shrunk p ∨ s.worker c = .saved p →
      DbStep s (.endWork c)
        { s with
          mLock := (lsmShmLock s.mLock c .worker .free).1
          worker := Function.update s.worker c .idle }
  | ckptLoad {s : DbState ι} {c : ι} {mLock : Table ι LockId} :
      s.worker c = .idle → s.ckpt c = .idle →
      lsmShmLock s.mLock c .checkpointer .excl = (mLock, .ok) →
      DbStep s (.ckptLoad c)
        { s with
          mLock := mLock
          ckpt := Function.update s.ckpt c (.loaded s.snapshot) }
  | ckptSync {s : DbState ι} {c : ι} {v : Version} :
      s.ckpt c = .loaded v →
      -- nothing is written if the checkpoint on disk is as new
      DbStep s (.ckptSync c)
        { s with
          synced :=
            if (s.synced.map fun w => decide (v.iId ≤ w.iId)).getD false then s.synced else some v
          ckpt := Function.update s.ckpt c (.synced v) }
  | ckptTruncate {s : DbState ι} {c : ι} {v : Version} :
      s.ckpt c = .synced v → DbStep s (.ckptTruncate c) s
  | ckptEnd {s : DbState ι} {c : ι} {v : Version} :
      (s.ckpt c).version = some v →
      DbStep s (.ckptEnd c)
        { s with
          mLock := (lsmShmLock s.mLock c .checkpointer .free).1
          ckpt := Function.update s.ckpt c .idle }

end Steps

/-! ### Blocks keep their roles -/

/-- No block has two roles, and none lies past the end of the database. -/
structure Version.WF (p : Version) : Prop where
  iId_pos : 0 < p.iId
  chain_le : ∀ b ∈ p.chain, b ≤ p.nBlock
  next_le : ∀ b ∈ p.next, b ≤ p.nBlock
  free_le : ∀ b x, p.freelist.iId? b = some x → b ≤ p.nBlock
  next_chain : ∀ b ∈ p.next, b ∉ p.chain
  free_chain : ∀ b x, p.freelist.iId? b = some x → b ∉ p.chain
  free_next : ∀ b x, p.freelist.iId? b = some x → b ∉ p.next

/-- What the worker's snapshot `p` still holds back for a snapshot `u`: a block of
`u` is not allocated anew, and if it is free, it was freed after `u`. -/
structure Kept (u p : Version) : Prop where
  next : ∀ b ∈ p.next, b ∉ u.chain
  free : ∀ b x, p.freelist.iId? b = some x → b ∈ u.chain → u.iId ≤ x

section Versions

variable {p u : Version} {b iBlk iBefore : ℕ} {x iInUse : ℤ} {bRotrans : Bool} {op : WorkOp}

theorem Version.WF.kept (h : p.WF) : Kept p p where
  next := h.next_chain
  free b x hx hb := absurd hb (h.free_chain b x hx)

/-- Entering a block in the free list, as seen from another block. -/
theorem iId?_append_some {f : FreeList} {iId : ℤ}
    (h : (freelistAppend f iBlk iId).iId? b = some x) :
    b = iBlk ∧ x = iId ∨ b ≠ iBlk ∧ f.iId? b = some x := by
  rw [iId?_append] at h
  by_cases hb : b = iBlk
  · rw [if_pos hb] at h
    split_ifs at h
    exact .inl ⟨hb, (Option.some.inj h).symm⟩
  · rw [if_neg hb] at h
    exact .inr ⟨hb, h⟩

/-- A block is freed. -/
theorem Version.WF.free (h : p.WF) {q : Version} {iId : ℤ} (hn : iBlk ≤ p.nBlock)
    (hlist : q.freelist = freelistAppend p.freelist iBlk iId)
    (hid : q.iId = p.iId) (hblock : q.nBlock = p.nBlock)
    (hchain : ∀ b ∈ q.chain, b ≠ iBlk ∧ (b ∈ p.chain ∨ b ∈ p.next))
    (hnext : ∀ b ∈ q.next, b ≠ iBlk ∧ b ∈ p.next) (hdisj : ∀ b ∈ q.next, b ∉ q.chain) : q.WF where
  iId_pos := hid ▸ h.iId_pos
  chain_le b hb := by
    rw [hblock]
    exact (hchain b hb).2.elim (h.chain_le b) (h.next_le b)
  next_le b hb := by
    rw [hblock]
    exact h.next_le b (hnext b hb).2
  free_le b x hx := by
    rw [hlist] at hx
    rw [hblock]
    rcases iId?_append_some hx with ⟨rfl, -⟩ | ⟨-, hold⟩
    · exact hn
    · exact h.free_le b x hold
  next_chain := hdisj
  free_chain b x hx hb := by
    rw [hlist] at hx
    rcases iId?_append_some hx with ⟨rfl, -⟩ | ⟨-, hold⟩
    · exact (hchain b hb).1 rfl
    · exact (hchain b hb).2.elim (h.free_chain b x hold) (h.free_next b x hold)
  free_next b x hx hb := by
    rw [hlist] at hx
    rcases iId?_append_some hx with ⟨rfl, -⟩ | ⟨-, hold⟩
    · exact (hnext b hb).1 rfl
    · exact h.free_next b x hold (hnext b hb).2

/-- Nothing but the way the list is stored changes. -/
theorem Version.WF.sameList (h : p.WF) {q : Version} (hid : q.iId = p.iId)
    (hblock : q.nBlock = p.nBlock) (hchain : q.chain = p.chain) (hnext : q.next = p.next)
    (hlist : ∀ b, q.freelist.iId? b = p.freelist.iId? b) : q.WF where
  iId_pos := hid ▸ h.iId_pos
  chain_le b hb := hblock ▸ h.chain_le b (hchain ▸ hb)
  next_le b hb := hblock ▸ h.next_le b (hnext ▸ hb)
  free_le b x hx := hblock ▸ h.free_le b x (hlist b ▸ hx)
  next_chain b hb := hchain ▸ h.next_chain b (hnext ▸ hb)
  free_chain b x hx := hchain ▸ h.free_chain b x (hlist b ▸ hx)
  free_next b x hx := hnext ▸ h.free_next b x (hlist b ▸ hx)

/-- The worker's own operations keep the roles apart. -/
theorem Version.WF.work (h : p.WF) (hop : p.Allows op) : (p.work op).WF := by
  cases op with
  | useBlock iBlk =>
      refine ⟨h.iId_pos, fun b hb => ?_, fun b hb => h.next_le b (Finset.mem_of_mem_erase hb),
        h.free_le, fun b hb hc => ?_, fun b x hx hc => ?_,
        fun b x hx hb => h.free_next b x hx (Finset.mem_of_mem_erase hb)⟩
      · rcases Finset.mem_insert.mp hb with rfl | hb
        · exact h.next_le b hop
        · exact h.chain_le b hb
      · rcases Finset.mem_insert.mp hc with rfl | hc
        · exact Finset.notMem_erase b _ hb
        · exact h.next_chain b (Finset.mem_of_mem_erase hb) hc
      · rcases Finset.mem_insert.mp hc with rfl | hc
        · exact h.free_next b x hx hop
        · exact h.free_chain b x hx hc
  | freeBlock iBlk =>
      refine h.free (h.chain_le iBlk hop) rfl rfl rfl
        (fun b hb => ⟨Finset.ne_of_mem_erase hb, .inl (Finset.mem_of_mem_erase hb)⟩)
        (fun b hb => ⟨?_, hb⟩) fun b hb hc => h.next_chain b hb (Finset.mem_of_mem_erase hc)
      rintro rfl
      exact h.next_chain b hb hop
  | refreeBlock iBlk =>
      refine h.free (h.next_le iBlk hop) rfl rfl rfl (fun b hb => ⟨?_, .inl hb⟩)
        (fun b hb => ⟨Finset.ne_of_mem_erase hb, Finset.mem_of_mem_erase hb⟩)
        fun b hb => h.next_chain b (Finset.mem_of_mem_erase hb)
      rintro rfl
      exact h.next_chain b hop hb
  | moveBlock iFrom iTo =>
      refine h.free (h.chain_le iFrom hop.1) rfl rfl rfl
        (fun b hb => ⟨Finset.ne_of_mem_erase hb, ?_⟩)
        (fun b hb => ⟨?_, Finset.mem_of_mem_erase hb⟩) fun b hb hc => ?_
      · rcases Finset.mem_insert.mp (Finset.mem_of_mem_erase hb) with rfl | hb
        · exact .inr hop.2
        · exact .inl hb
      · rintro rfl
        exact h.next_chain b (Finset.mem_of_mem_erase hb) hop.1
      · rcases Finset.mem_insert.mp (Finset.mem_of_mem_erase hc) with rfl | hc
        · exact Finset.notMem_erase b _ hb
        · exact h.next_chain b (Finset.mem_of_mem_erase hb) hc
  | beginFreelist => exact h.sameList rfl rfl rfl rfl (iId?_beginTemp hop)
  | endFreelist => exact h.sameList rfl rfl rfl rfl (iId?_flush p.freelist)

theorem Version.work_iId : (p.work op).iId = p.iId := by cases op <;> rfl

theorem Version.work_nBlock : (p.work op).nBlock = p.nBlock := by cases op <;> rfl

/-- They hold back what was held back before, since a block is freed at the id of
the worker's snapshot. -/
theorem Kept.work (h : Kept u p) (hid : u.iId ≤ p.iId) (hop : p.Allows op) :
    Kept u (p.work op) := by
  have hfree : ∀ iBlk b x, (freelistAppend p.freelist iBlk p.iId).iId? b = some x →
      b ∈ u.chain → u.iId ≤ x := by
    intro iBlk b x hx hb
    rcases iId?_append_some hx with ⟨-, rfl⟩ | ⟨-, hold⟩
    · exact hid
    · exact h.free b x hold hb
  cases op with
  | useBlock iBlk => exact ⟨fun b hb => h.next b (Finset.mem_of_mem_erase hb), h.free⟩
  | freeBlock iBlk => exact ⟨h.next, hfree iBlk⟩
  | refreeBlock iBlk =>
      refine ⟨fun b hb => h.next b (Finset.mem_of_mem_erase hb), fun b x hx hb => ?_⟩
      rcases iId?_append_some hx with ⟨rfl, -⟩ | ⟨-, hold⟩
      · exact absurd hb (h.next b hop)
      · exact h.free b x hold hb
  | moveBlock iFrom iTo =>
      exact ⟨fun b hb => h.next b (Finset.mem_of_mem_erase hb), hfree iFrom⟩
  | beginFreelist => exact ⟨h.next, fun b x hx => h.free b x (iId?_beginTemp hop b ▸ hx)⟩
  | endFreelist => exact ⟨h.next, fun b x hx => h.free b x (iId?_flush p.freelist b ▸ hx)⟩

/-- What an allocation can do to the worker's snapshot. -/
theorem Version.allocate_cases (p : Version) (iBefore : ℕ) (iInUse : ℤ) (bRotrans : Bool) :
    (∃ b x, p.freelist.iId? b = some x ∧ x < iInUse ∧
      p.allocate iBefore iInUse bRotrans =
        ({ p with freelist := freelistAppend p.freelist b (-1), next := insert b p.next },
          some b)) ∨
    (∃ b, p.nBlock < b ∧ iBefore = 0 ∧
      (bRotrans = true ∨ findFreeblock p.toSnapshot iInUse false = none) ∧
      p.allocate iBefore iInUse bRotrans =
        ({ p with nBlock := b, next := insert b p.next }, some b)) ∨
    p.allocate iBefore iInUse bRotrans = (p, none) := by
  unfold Version.allocate
  rcases lsmBlockAllocate_cases p.toSnapshot iBefore iInUse bRotrans with
    ⟨b, x, hfree, hlt, -, heq⟩ | ⟨b, hlt, -, hbefore, hnone, heq⟩ | heq
  · exact .inl ⟨b, x, hfree, hlt, by rw [heq]⟩
  · exact .inr (.inl ⟨b, hlt, hbefore, hnone, by rw [heq]⟩)
  · exact .inr (.inr (by rw [heq]))

/-- An allocated block leaves the free list, and had no other role. -/
theorem Version.WF.allocate (h : p.WF) (iBefore : ℕ) (iInUse : ℤ) (bRotrans : Bool) :
    (p.allocate iBefore iInUse bRotrans).1.WF ∧
      (p.allocate iBefore iInUse bRotrans).1.iId = p.iId ∧
      p.nBlock ≤ (p.allocate iBefore iInUse bRotrans).1.nBlock := by
  rcases p.allocate_cases iBefore iInUse bRotrans with
    ⟨b, x, hfree, -, heq⟩ | ⟨b, hlt, -, -, heq⟩ | heq
  · -- a free block is taken from the list
    have hlist : ∀ {c y}, (freelistAppend p.freelist b (-1)).iId? c = some y →
        c ≠ b ∧ p.freelist.iId? c = some y := by
      intro c y hy
      rcases iId?_append_some hy with ⟨-, rfl⟩ | hold
      · exact absurd (iId?_nonneg hy) (by decide)
      · exact hold
    rw [heq]
    refine ⟨⟨h.iId_pos, h.chain_le, fun c hc => ?_, fun c y hy => h.free_le c y (hlist hy).2,
      fun c hc => ?_, fun c y hy => h.free_chain c y (hlist hy).2, fun c y hy hc => ?_⟩,
      rfl, le_refl _⟩
    · rcases Finset.mem_insert.mp hc with rfl | hc
      · exact h.free_le c x hfree
      · exact h.next_le c hc
    · rcases Finset.mem_insert.mp hc with rfl | hc
      · exact h.free_chain c x hfree
      · exact h.next_chain c hc
    · rcases Finset.mem_insert.mp hc with rfl | hc
      · exact (hlist hy).1 rfl
      · exact h.free_next c y (hlist hy).2 hc
  · -- the file grows by a block
    rw [heq]
    refine ⟨⟨h.iId_pos, fun c hc => (h.chain_le c hc).trans hlt.le, fun c hc => ?_,
      fun c y hy => (h.free_le c y hy).trans hlt.le, fun c hc hch => ?_, h.free_chain,
      fun c y hy hc => ?_⟩, rfl, hlt.le⟩
    · rcases Finset.mem_insert.mp hc with rfl | hc
      · exact le_refl _
      · exact (h.next_le c hc).trans hlt.le
    · rcases Finset.mem_insert.mp hc with rfl | hc
      · exact absurd (h.chain_le c hch) (not_le.mpr hlt)
      · exact h.next_chain c hc hch
    · rcases Finset.mem_insert.mp hc with rfl | hc
      · exact absurd (h.free_le c y hy) (not_le.mpr hlt)
      · exact h.free_next c y hy hc
  · rw [heq]
    exact ⟨h, rfl, le_refl _⟩

/-- The allocated block is none of a snapshot that is in use. -/
theorem Kept.allocate_notMem (h : Kept u p) (huse : iInUse ≤ u.iId)
    (hext : iBefore = 0 → bRotrans = true ∨ findFreeblock p.toSnapshot iInUse false = none →
      ∀ b ∈ u.chain, b ≤ p.nBlock)
    (hb : (p.allocate iBefore iInUse bRotrans).2 = some b) : b ∉ u.chain := by
  intro hu
  rcases p.allocate_cases iBefore iInUse bRotrans with
    ⟨b', x, hfree, hlt, heq⟩ | ⟨b', hlt, hbefore, hnone, heq⟩ | heq
  · rw [heq] at hb
    obtain rfl := Option.some.inj hb
    exact absurd (h.free b' x hfree hu) (not_le.mpr (hlt.trans_le huse))
  · rw [heq] at hb
    obtain rfl := Option.some.inj hb
    exact absurd (hext hbefore hnone b' hu) (not_le.mpr hlt)
  · rw [heq] at hb
    cases hb

theorem Kept.allocate (h : Kept u p)
    (hb : ∀ b, (p.allocate iBefore iInUse bRotrans).2 = some b → b ∉ u.chain) :
    Kept u (p.allocate iBefore iInUse bRotrans).1 := by
  rcases p.allocate_cases iBefore iInUse bRotrans with
    ⟨b, x, -, -, heq⟩ | ⟨b, -, -, -, heq⟩ | heq
  · have hnew := hb b (by rw [heq])
    rw [heq]
    refine ⟨fun c hc => ?_, fun c y hy hcu => ?_⟩
    · rcases Finset.mem_insert.mp hc with rfl | hc
      · exact hnew
      · exact h.next c hc
    · rcases iId?_append_some hy with ⟨rfl, -⟩ | ⟨-, hold⟩
      · exact absurd hcu hnew
      · exact h.free c y hold hcu
  · have hnew := hb b (by rw [heq])
    rw [heq]
    refine ⟨fun c hc => ?_, h.free⟩
    rcases Finset.mem_insert.mp hc with rfl | hc
    · exact hnew
    · exact h.next c hc
  · rw [heq]
    exact h

/-! ### Shrinking -/

/-- The walk stops at the first block that is not in the list. -/
theorem moveBlockCb_foldl (l : List ℕ) (s : ℕ × Bool) :
    ∀ b, (l.foldl moveBlockCb s).1 ≤ b → b < s.1 → b ∈ l := by
  induction l generalizing s with
  | nil => exact fun b hle hlt => absurd hlt (not_lt.mpr hle)
  | cons iBlk l ih =>
      intro b hle hlt
      rw [List.foldl_cons] at hle
      by_cases hb : b < (moveBlockCb s iBlk).1
      · exact List.mem_cons_of_mem _ (ih _ b hle hb)
      · -- the walk has just moved to `iBlk`
        unfold moveBlockCb at hb
        split_ifs at hb with hstop hnext
        · exact absurd hlt hb
        · obtain rfl : b = iBlk := by
            have : iBlk ≤ b := not_lt.mp hb
            omega
          exact List.mem_cons_self
        · exact absurd hlt hb

/-- All blocks past the new end are free. -/
theorem nNewBlock_free {p : Snapshot} (hnew : nNewBlock p < b) (hb : b ≤ p.nBlock) :
    ∃ x, p.freelist.iId? b = some x := by
  have hmem : b ∈ (lsmWalkFreelist p.freelist true).map Prod.fst := by
    refine moveBlockCb_foldl _ (p.nBlock + 1, false) b ?_ (Nat.lt_succ_of_le hb)
    unfold nNewBlock at hnew
    omega
  obtain ⟨⟨b', x⟩, hx, rfl⟩ := List.mem_map.mp hmem
  exact ⟨x, mem_lsmWalkFreelist.mp hx⟩

/-- What is free after shrinking was free before, and is not past the end, if the
list in the LSM has no entry there. -/
theorem iId?_shrink (htemp : p.freelist.temp = none)
    (hstored : ∀ b, p.freelist.stored.get? b ≠ none → b ≤ nNewBlock p.toSnapshot)
    (h : p.shrink.freelist.iId? b = some x) :
    p.freelist.iId? b = some x ∧ b ≤ nNewBlock p.toSnapshot := by
  unfold Version.shrink FreeList.iId? at h
  unfold FreeList.iId?
  simp only [htemp] at h ⊢
  by_cases hb : b ≤ nNewBlock p.toSnapshot
  · refine ⟨?_, hb⟩
    rw [← h]
    unfold layer
    rw [SortedMap.get?_restrict, if_pos (decide_eq_true hb)]
  · have hnone : p.freelist.stored.get? b = none := by
      by_contra hne
      exact hb (hstored b hne)
    unfold layer at h
    rw [SortedMap.get?_restrict, if_neg (fun h => hb (of_decide_eq_true h)), hnone] at h
    cases h

theorem Version.WF.shrink (h : p.WF) (htemp : p.freelist.temp = none)
    (hstored : ∀ b, p.freelist.stored.get? b ≠ none → b ≤ nNewBlock p.toSnapshot) :
    p.shrink.WF := by
  have hle : ∀ b, b ≤ p.nBlock → (∀ x, p.freelist.iId? b ≠ some x) →
      b ≤ nNewBlock p.toSnapshot := by
    intro b hb hfree
    by_contra hlt
    obtain ⟨x, hx⟩ := nNewBlock_free (not_le.mp hlt) hb
    exact hfree x hx
  exact
    { iId_pos := h.iId_pos
      chain_le := fun b hb => hle b (h.chain_le b hb) fun x hx => h.free_chain b x hx hb
      next_le := fun b hb => hle b (h.next_le b hb) fun x hx => h.free_next b x hx hb
      free_le := fun b x hx => (iId?_shrink htemp hstored hx).2
      next_chain := h.next_chain
      free_chain := fun b x hx => h.free_chain b x (iId?_shrink htemp hstored hx).1
      free_next := fun b x hx => h.free_next b x (iId?_shrink htemp hstored hx).1 }

theorem Kept.shrink (h : Kept u p) (htemp : p.freelist.temp = none)
    (hstored : ∀ b, p.freelist.stored.get? b ≠ none → b ≤ nNewBlock p.toSnapshot) :
    Kept u p.shrink :=
  ⟨h.next, fun b x hx => h.free b x (iId?_shrink htemp hstored hx).1⟩

/-- Saving changes the id alone. -/
theorem Version.WF.save (h : p.WF) : p.save.WF where
  iId_pos := h.iId_pos.trans (Int.lt_succ _)
  chain_le := h.chain_le
  next_le := h.next_le
  free_le := h.free_le
  next_chain := h.next_chain
  free_chain := h.free_chain
  free_next := h.free_next

theorem Kept.save (h : Kept u p) : Kept u p.save := ⟨h.next, h.free⟩

end Versions

end Lsm

end MoVeBench
