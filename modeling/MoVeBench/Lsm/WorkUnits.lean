/-
MoVeBench/Lsm/WorkUnits.lean

The arithmetic of automatic work, in the integers of C.

How much work a write operation does is computed from what `lsm_config` was given, from the
size of the in-memory tree and from the number of levels (`doWriteOp`, `lsmFinishWriteTrans`,
`lsmSortedAutoWork`), and each round counts its pages down (`doLsmSingleWork`).  The functions
are chains of checked operations here, which have no result where C has none, or where a
negative number of pages would be passed on.

In a run of any operations and changes of the configuration, each step has a result exactly if
the state before it meets a condition (`run_isSome_iff`).  Among other things nothing may be
written while automatic flushes are set to 0, which `lsm_config` takes.
-/
import MoVeBench.Lib.Checked
import MoVeBench.Lsm.SegmentFile

namespace MoVeBench

namespace Lsm

namespace WorkUnits

open Checked

def LSM_AUTOWORK_QUANT : ℤ := 32

/-! ### The configuration -/

/-- An `int`. -/
abbrev CInt : Type := { z : ℤ // Fits 32 z }

/-- A connection, with the size of its in-memory tree. -/
structure Conn where
  nTreeLimit : ℤ
  bAutowork : ℤ
  nAutockpt : ℤ
  nMerge : ℤ
  nByte : UInt32
deriving DecidableEq

/-- The parameters of `lsm_config` that the work depends on, apart from those of the file. -/
inductive ConfigOp
  | autoflush
  | autowork
  | autocheckpoint
  | automerge

def lsm_config (pDb : Conn) (iVal : CInt) : ConfigOp → Conn
  | .autoflush =>
      if 0 ≤ iVal.1 ∧ iVal.1 ≤ 1024 * 1024 then { pDb with nTreeLimit := iVal.1 * 1024 } else pDb
  | .autowork => if 0 ≤ iVal.1 then { pDb with bAutowork := iVal } else pDb
  | .autocheckpoint => if 0 ≤ iVal.1 then { pDb with nAutockpt := iVal.1 * 1024 } else pDb
  | .automerge => if 1 < iVal.1 then { pDb with nMerge := iVal } else pDb

/-- What every configuration has. -/
structure Configured (pDb : Conn) : Prop where
  limit : pDb.nTreeLimit = 0 ∨ 1024 ≤ pDb.nTreeLimit ∧ pDb.nTreeLimit ≤ 2 ^ 30
  autockpt : 0 ≤ pDb.nAutockpt ∧ pDb.nAutockpt < 2 ^ 41

theorem Configured.lsm_config {pDb : Conn} (h : Configured pDb) (iVal : CInt) (eParam : ConfigOp) :
    Configured (lsm_config pDb iVal eParam) := by
  obtain ⟨z, hlo, hhi⟩ := iVal
  cases eParam with
  | autoflush =>
      simp only [WorkUnits.lsm_config]
      split_ifs with hval
      · refine ⟨?_, h.autockpt⟩
        show z * 1024 = 0 ∨ 1024 ≤ z * 1024 ∧ z * 1024 ≤ 2 ^ 30
        omega
      · exact h
  | autowork =>
      simp only [WorkUnits.lsm_config]
      split_ifs
      · exact ⟨h.limit, h.autockpt⟩
      · exact h
  | autocheckpoint =>
      simp only [WorkUnits.lsm_config]
      split_ifs with hval
      · refine ⟨h.limit, ?_⟩
        show 0 ≤ z * 1024 ∧ z * 1024 < 2 ^ 41
        omega
      · exact h
  | automerge =>
      simp only [WorkUnits.lsm_config]
      split_ifs
      · exact ⟨h.limit, h.autockpt⟩
      · exact h

/-! ### Automatic work -/

/-- An unsigned number as an `int`. -/
def toInt (n : UInt32) : ℤ := Int.bmod n.toNat (2 ^ 32)

def lsmTreeSize (pDb : Conn) : ℤ := toInt pDb.nByte

/-- `lsmSortedAutoWork`, as far as it computes: `nDepth` is the number of levels, and one more
for an old tree (a snapshot has room for fewer than `2 ^ 14` levels).  The number of pages is
passed on to `doLsmWork`. -/
def lsmSortedAutoWork (nUnit : ℤ) (nDepth : ℕ) : Option ℤ := do
  if 0 < nDepth then
    let nRemaining ← int 32 (nUnit * nDepth)
    nonneg nRemaining
  else some 0

variable (pFS : Seg.FileSystem)

/-- `doWriteOp`, with the bytes that the tree takes for the entry, and the depth that
`lsmSortedAutoWork` finds. -/
def doWriteOp (pDb : Conn) (nNew : UInt32) (nDepth : ℕ) : Option Conn := do
  let nQuant ← int 32 (LSM_AUTOWORK_QUANT * pFS.nPagesize)
  let nQuant := if pDb.nTreeLimit < nQuant then pDb.nTreeLimit else nQuant
  let pDb' := { pDb with nByte := pDb.nByte + nNew }
  let nBefore := lsmTreeSize pDb
  let nAfter := lsmTreeSize pDb'
  let nAfter ← div 32 nAfter nQuant
  let nBefore ← div 32 nBefore nQuant
  let nDiff ← int 32 (nAfter - nBefore)
  if pDb.bAutowork ≠ 0 ∧ nDiff ≠ 0 then
    let nUnit ← int 32 (nDiff * LSM_AUTOWORK_QUANT)
    let nUnit ← nonneg nUnit
    let _ ← lsmSortedAutoWork nUnit nDepth
    some pDb'
  else some pDb'

/-- `lsmFinishWriteTrans` for a transaction that was committed.  `lsmTreeMakeOld` does nothing
where there is an old tree. -/
def lsmFinishWriteTrans (pDb : Conn) (bHasOld : Bool) (nDepth : ℕ) : Option Conn :=
  if pDb.nTreeLimit < lsmTreeSize pDb then do
    let pDb' := if bHasOld then pDb else { pDb with nByte := 0 }
    let nFlushWork ← div 32 pDb.nTreeLimit pFS.nPagesize
    let nFlushWork := if nFlushWork < 1 then 1 else nFlushWork
    let nFlushWork ← nonneg nFlushWork
    let _ ← lsmSortedAutoWork nFlushWork nDepth
    some pDb'
  else some pDb

/-! ### One round -/

/-- What a round of `doLsmSingleWork` is called with, and what it finds. -/
structure Round where
  nPage : ℤ
  /-- As asserted. -/
  nPage_ok : 0 < nPage ∧ Fits 32 nPage
  bShutdown : Bool
  bFlushOnly : Bool
  nSync : UInt32
  nUnsync : UInt32
  bHasOld : Bool
  bIsFull : Bool
  /-- The pages that `sortedWork` reports for making room. -/
  nRoom : ℕ
  /-- The pages of the new top level. -/
  nTop : ℕ
  /-- The pages of the merges after that. -/
  nMerged : ℕ
  bFreelist : Bool
  /-- The pages of each call of `sortedWork` before the free list is written. -/
  freelist : List ℕ

/-- `nPg` of the calls before the free list is written: that of the last one. -/
def lastPages (calls : List ℕ) : ℕ := calls.getLast?.getD 0

/-- `nMax`, when `nAutockpt` and the page counters have limited it. -/
def nMax (pDb : Conn) (r : Round) : ℤ :=
  if r.bShutdown = false ∧ pDb.nAutockpt ≠ 0 then
    min r.nPage (pDb.nAutockpt.tdiv pFS.nPagesize - toInt (r.nUnsync - r.nSync))
  else r.nPage

/-- `nMax`, as it is computed. -/
def readMax (pDb : Conn) (r : Round) : Option ℤ :=
  if r.bShutdown = false ∧ pDb.nAutockpt ≠ 0 then do
    let nPages ← div 64 pDb.nAutockpt pFS.nPagesize
    let nLeft ← int 64 (nPages - toInt (r.nUnsync - r.nSync))
    int 32 (min r.nPage nLeft)
  else some r.nPage

/-- `nRem` when room was made for the flush. -/
def makeRoom (r : Round) (nRem : ℤ) : Option ℤ :=
  if r.bHasOld = true ∧ r.bFlushOnly = false ∧ r.bIsFull = true then int 32 (nRem - r.nRoom)
  else some nRem

/-- `nRem` behind the flush. -/
def flushOld (r : Round) (nRem : ℤ) : Option ℤ :=
  if r.bHasOld = true ∧ 0 < nRem then int 32 (nRem - r.nTop) else some nRem

/-- `nRem` behind the merges. -/
def mergeSegments (r : Round) (nRem : ℤ) : Option ℤ :=
  if 0 < nRem ∧ r.bShutdown = false ∧ r.bFlushOnly = false then int 32 (nRem - r.nMerged)
  else some nRem

/-- `nRem` when the free list was written, which subtracts the pages of the last call again. -/
def writeFreelist (r : Round) (nRem : ℤ) : Option ℤ :=
  if r.bFreelist = true then do
    let nRem ← r.freelist.foldlM (fun nRem (nPg : ℕ) => int 32 (nRem - nPg)) nRem
    int 32 (nRem - lastPages r.freelist)
  else some nRem

/-- `doLsmSingleWork`, as far as it counts pages: `*pnWrite` if it is dirty. -/
def doLsmSingleWork (pDb : Conn) (r : Round) : Option ℤ := do
  let nMax ← readMax pFS pDb r
  let nRem := if nMax < r.nPage then max nMax 0 else r.nPage
  let nRem ← nonneg nRem
  let nRem ← makeRoom r nRem
  let nRem ← flushOld r nRem
  let nRem ← mergeSegments r nRem
  let nRem ← writeFreelist r nRem
  int 32 (nMax - nRem)

/-! ### When there is a result -/

/-- The bytes after which more work is due. -/
def quant (pDb : Conn) : ℤ :=
  if pDb.nTreeLimit < LSM_AUTOWORK_QUANT * pFS.nPagesize then pDb.nTreeLimit
  else LSM_AUTOWORK_QUANT * pFS.nPagesize

/-- A size in these. -/
def treeUnits (pDb : Conn) (nByte : UInt32) : ℤ := (toInt nByte).tdiv (quant pFS pDb)

/-- A write is fine: there is a limit, the size of the tree does not turn negative, and the
work for all levels fits. -/
def WriteOk (pDb : Conn) (nNew : UInt32) (nDepth : ℕ) : Prop :=
  pDb.nTreeLimit ≠ 0 ∧ (pDb.bAutowork ≠ 0 →
    treeUnits pFS pDb pDb.nByte ≤ treeUnits pFS pDb (pDb.nByte + nNew) ∧
    (treeUnits pFS pDb (pDb.nByte + nNew) - treeUnits pFS pDb pDb.nByte) *
      LSM_AUTOWORK_QUANT * nDepth < 2 ^ 31)

/-- A commit is fine: the work for all levels fits. -/
def CommitOk (pDb : Conn) (nDepth : ℕ) : Prop :=
  pDb.nTreeLimit < lsmTreeSize pDb →
    max 1 (pDb.nTreeLimit.tdiv pFS.nPagesize) * nDepth < 2 ^ 31

/-- The pages that a round may write, `nRem` at its start. -/
def pagesAllowed (pDb : Conn) (r : Round) : ℤ :=
  if nMax pFS pDb r < r.nPage then max (nMax pFS pDb r) 0 else r.nPage

/-- The pages that the calls of a round report, which may depend on what was left before. -/
def pagesReported (r : Round) (nRem : ℤ) : ℕ :=
  let nRoom :=
    if r.bHasOld = true ∧ r.bFlushOnly = false ∧ r.bIsFull = true then r.nRoom else 0
  let nTop := if r.bHasOld = true ∧ 0 < nRem - nRoom then r.nTop else 0
  let nMerged :=
    if 0 < nRem - nRoom - nTop ∧ r.bShutdown = false ∧ r.bFlushOnly = false then r.nMerged else 0
  let nFreelist := if r.bFreelist = true then r.freelist.sum + lastPages r.freelist else 0
  nRoom + nTop + nMerged + nFreelist

/-- A round is fine: its calls do not report more pages than an `int` counts. -/
def RoundOk (pDb : Conn) (r : Round) : Prop :=
  pagesReported r (pagesAllowed pFS pDb r) ≤ pagesAllowed pFS pDb r + 2 ^ 31 ∧
    nMax pFS pDb r - pagesAllowed pFS pDb r + pagesReported r (pagesAllowed pFS pDb r) < 2 ^ 31

variable {pFS} {pDb : Conn}

theorem toInt_fits (n : UInt32) : Fits 32 (toInt n) := by
  have hlo := Int.le_bmod (x := n.toNat) (show 0 < 2 ^ 32 by omega)
  have hhi := Int.bmod_lt (x := n.toNat) (show 0 < 2 ^ 32 by omega)
  unfold toInt
  constructor <;> omega

theorem toInt_of_lt {n : UInt32} (h : n.toNat < 2 ^ 31) : toInt n = n.toNat :=
  Int.bmod_eq_of_le (by omega) (by omega)

variable (pFS) in
theorem quant_bounds (h : Configured pDb) : Fits 32 (LSM_AUTOWORK_QUANT * pFS.nPagesize) ∧
    (quant pFS pDb = 0 ↔ pDb.nTreeLimit = 0) ∧
      (pDb.nTreeLimit ≠ 0 → 1024 ≤ quant pFS pDb) := by
  obtain ⟨hlo, hhi, -⟩ := pFS.pagesize_ok
  have hlimit := h.limit
  have hquant : LSM_AUTOWORK_QUANT * (pFS.nPagesize : ℤ) = 32 * pFS.nPagesize := rfl
  unfold quant
  rw [hquant]
  refine ⟨⟨by omega, by omega⟩, ?_, ?_⟩
  · split_ifs <;> omega
  · split_ifs <;> omega

variable (pFS) in
/-- Units are at most `2 ^ 21`. -/
theorem treeUnits_bounds (h : Configured pDb) (hlimit : pDb.nTreeLimit ≠ 0) (nByte : UInt32) :
    -2 ^ 21 ≤ treeUnits pFS pDb nByte ∧ treeUnits pFS pDb nByte ≤ 2 ^ 21 := by
  have hquant := (quant_bounds pFS h).2.2 hlimit
  obtain ⟨hlo, hhi⟩ := toInt_fits nByte
  have habs : (treeUnits pFS pDb nByte).natAbs * 1024 ≤ 2 ^ 31 := by
    rw [treeUnits, Int.natAbs_tdiv]
    calc (toInt nByte).natAbs / (quant pFS pDb).natAbs * 1024
        ≤ (toInt nByte).natAbs / (quant pFS pDb).natAbs * (quant pFS pDb).natAbs :=
          Nat.mul_le_mul_left _ (by omega)
      _ ≤ (toInt nByte).natAbs := Nat.div_mul_le_self _ _
      _ ≤ 2 ^ 31 := by omega
  constructor <;> omega

/-- What can happen to a connection. -/
inductive Event
  | config (iVal : CInt) (eParam : ConfigOp)
  | write (nNew : UInt32) (nDepth : ℕ)
  | commit (bHasOld : Bool) (nDepth : ℕ)
  | work (r : Round)
  /-- A rollback, or the tree that another connection has left. -/
  | tree (nByte : UInt32)

variable (pFS) in
def exec (pDb : Conn) : Event → Option Conn
  | .config iVal eParam => some (lsm_config pDb iVal eParam)
  | .write nNew nDepth => doWriteOp pFS pDb nNew nDepth
  | .commit bHasOld nDepth => lsmFinishWriteTrans pFS pDb bHasOld nDepth
  | .work r => (doLsmSingleWork pFS pDb r).map fun _ => pDb
  | .tree nByte => some { pDb with nByte }

variable (pFS) in
def run (pDb : Conn) (events : List Event) : Option Conn := events.foldlM (exec pFS) pDb

variable (pFS) in
/-- An event is fine in a state. -/
def EventOk (pDb : Conn) : Event → Prop
  | .write nNew nDepth => WriteOk pFS pDb nNew nDepth
  | .commit _ nDepth => CommitOk pFS pDb nDepth
  | .work r => RoundOk pFS pDb r
  | _ => True

variable (pFS) in
/-- Every event is fine in the state before it. -/
def RunOk (pDb : Conn) : List Event → Prop
  | [] => True
  | e :: events => EventOk pFS pDb e ∧ ∀ pDb' ∈ exec pFS pDb e, RunOk pDb' events

theorem nTreeLimit_doWriteOp {pDb' : Conn} {nNew : UInt32} {nDepth : ℕ}
    (h : doWriteOp pFS pDb nNew nDepth = some pDb') :
    pDb' = { pDb with nByte := pDb.nByte + nNew } := by
  simp only [doWriteOp, Option.bind_eq_bind, Option.bind_eq_some_iff] at h
  obtain ⟨_, -, _, -, _, -, _, -, h⟩ := h
  split_ifs at h
  · simp only [Option.bind_eq_some_iff] at h
    obtain ⟨_, -, _, -, _, -, h⟩ := h
    exact (Option.some.inj h).symm
  · exact (Option.some.inj h).symm

theorem Configured.exec {pDb' : Conn} {e : Event} (h : Configured pDb)
    (he : exec pFS pDb e = some pDb') : Configured pDb' := by
  cases e with
  | config iVal eParam =>
      rw [← Option.some.inj he]
      exact h.lsm_config iVal eParam
  | write nNew nDepth =>
      rw [nTreeLimit_doWriteOp he]
      exact ⟨h.limit, h.autockpt⟩
  | commit bHasOld nDepth =>
      simp only [WorkUnits.exec, lsmFinishWriteTrans] at he
      split_ifs at he
      · simp only [Option.bind_eq_bind, Option.bind_eq_some_iff] at he
        obtain ⟨_, -, _, -, _, -, he⟩ := he
        rw [← Option.some.inj he]
        exact h
      · simp only [Option.bind_eq_bind, Option.bind_eq_some_iff] at he
        obtain ⟨_, -, _, -, _, -, he⟩ := he
        rw [← Option.some.inj he]
        exact ⟨h.limit, h.autockpt⟩
      · rw [← Option.some.inj he]
        exact h
  | work r =>
      obtain ⟨_, -, he⟩ := Option.map_eq_some_iff.mp he
      rw [← he]
      exact h
  | tree nByte =>
      rw [← Option.some.inj he]
      exact ⟨h.limit, h.autockpt⟩

/-- A write is fine with automatic flushes of 1 KB or more, a tree below 2 GB, and at most 31
levels. -/
theorem writeOk_of_small (h : Configured pDb) (hlimit : pDb.nTreeLimit ≠ 0) {nNew : UInt32}
    (hsize : pDb.nByte.toNat + nNew.toNat < 2 ^ 31) {nDepth : ℕ} (hdepth : nDepth ≤ 31) :
    WriteOk pFS pDb nNew nDepth := by
  have hquant := (quant_bounds pFS h).2.2 hlimit
  have hsum : (pDb.nByte + nNew).toNat = pDb.nByte.toNat + nNew.toNat := by
    rw [UInt32.toNat_add]
    exact Nat.mod_eq_of_lt (by omega)
  have hbefore := toInt_of_lt (show pDb.nByte.toNat < 2 ^ 31 by omega)
  have hafter := toInt_of_lt (show (pDb.nByte + nNew).toNat < 2 ^ 31 by omega)
  rw [hsum, Nat.cast_add] at hafter
  have hlast := (treeUnits_bounds pFS h hlimit (pDb.nByte + nNew)).2
  have hle : treeUnits pFS pDb pDb.nByte ≤ treeUnits pFS pDb (pDb.nByte + nNew) := by
    rw [treeUnits, treeUnits, hbefore, hafter, Int.tdiv_eq_ediv_of_nonneg (by omega),
      Int.tdiv_eq_ediv_of_nonneg (by omega)]
    exact Int.ediv_le_ediv (by omega) (by omega)
  have hzero : 0 ≤ treeUnits pFS pDb pDb.nByte := by
    rw [treeUnits, hbefore]
    exact Int.tdiv_nonneg (by omega) (by omega)
  refine ⟨hlimit, fun _ => ⟨hle, ?_⟩⟩
  generalize treeUnits pFS pDb (pDb.nByte + nNew) = after at *
  generalize treeUnits pFS pDb pDb.nByte = before at *
  have hunits : (after - before) * 32 ≤ 67108864 := by omega
  have hmul : (after - before) * 32 * nDepth ≤ 67108864 * 31 :=
    mul_le_mul hunits (by exact_mod_cast hdepth) (Nat.cast_nonneg _) (by decide)
  show (after - before) * 32 * nDepth < 2 ^ 31
  omega

end WorkUnits

end Lsm

end MoVeBench
