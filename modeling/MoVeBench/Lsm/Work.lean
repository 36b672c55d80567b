/-
MoVeBench/Lsm/Work.lean

How `lsm_work` counts the pages that it writes.

The pages are counted as what is left of a budget, in `sortedWork`, in each round of
`doLsmSingleWork` and over the rounds of `doLsmWork`, and `lsm_work` turns them into KB.
What the levels look like when each of these asks for work is an input here: a list of the
turns that a loop makes, with the pages that each of them writes.
-/
import Mathlib

namespace MoVeBench

namespace Lsm

namespace Work

/-! ### One call of sortedWork -/

/-- One turn of the loop of `sortedWork`. -/
inductive WorkTurn
  /-- A merge goes on and writes `nWork` pages; `bFull` is `sortedDbIsFull` after it. -/
  | merge (nWork : ℕ) (bFull : Bool)
  /-- No level is left to merge, and `sortedMoveBlock` moves a block of `nDone` pages. -/
  | move (nDone : ℕ)

/-- What is left of the budget, and the pages written. -/
structure WorkDone where
  nRemaining : ℤ
  nPages : ℕ

/-- `sortedWork` with `nRemaining` pages left. -/
def sortedWork (bFlush : Bool) : ℤ → List WorkTurn → WorkDone
  | nRemaining, [] => ⟨nRemaining, 0⟩
  | nRemaining, turn :: turns =>
      if nRemaining ≤ 0 then ⟨nRemaining, 0⟩
      else
        match turn with
        | .merge nWork bFull =>
            let nRemaining := nRemaining - max nWork 1
            -- there is room for the flush
            if bFlush && !bFull then ⟨nRemaining, nWork⟩
            else
              let done := sortedWork bFlush nRemaining turns
              ⟨done.nRemaining, nWork + done.nPages⟩
        | .move nDone =>
            if nDone = 0 then ⟨nRemaining, 0⟩
            else
              let done := sortedWork bFlush (nRemaining - nDone) turns
              ⟨done.nRemaining, nDone + done.nPages⟩

/-! ### One round -/

/-- What a round of `doLsmSingleWork` finds. -/
structure WorkRound where
  /-- The page counters of the last checkpoint and of the snapshot. -/
  nSync : UInt32
  nUnsync : UInt32
  /-- `sortedTreeHasOld`. -/
  bHasOld : Bool
  /-- `sortedDbIsFull`. -/
  bIsFull : Bool
  /-- The turns that make room for the flush. -/
  roomTurns : List WorkTurn
  /-- The pages of the level that `sortedNewToplevel` writes. -/
  nToplevel : ℕ
  /-- The turns of the merges after the flush. -/
  turns : List WorkTurn
  /-- Whether the free list is longer than `nMaxFreelist` after that. -/
  bFreelist : Bool
  /-- The calls of `sortedWork` while `lsmDatabaseFull`, before the free list is written. -/
  freelistTurns : List (List WorkTurn)
  /-- Whether one level without right-hand segments is left. -/
  bOneLevel : Bool

/-- What a round returns. -/
structure RoundDone where
  /-- `*pnWrite`. -/
  nWrite : ℤ
  /-- `*pbCkpt`. -/
  bCkpt : Bool
  /-- The pages written by its flush and its merges. -/
  nPages : ℕ

/-- The configuration of a connection, and `nMerge` of the call. -/
structure WorkConfig where
  /-- In bytes. -/
  nAutockpt : ℕ
  nPgsz : ℕ
  nMerge : ℕ
  nPgsz_pos : 0 < nPgsz

namespace WorkRound

/-- `nMax`: the pages that may be written before the next automatic checkpoint. -/
def nMax (r : WorkRound) (cfg : WorkConfig) (nPage : ℤ) : ℤ :=
  if cfg.nAutockpt = 0 then nPage
  else min nPage ((cfg.nAutockpt / cfg.nPgsz : ℕ) -
    Int.bmod (r.nUnsync - r.nSync).toNat (2 ^ 32))

end WorkRound

/-- The calls of `sortedWork` before the free list is written: what is left, the pages that
the last of them reports, and the pages written. -/
def freelistWork : ℤ → ℤ → List (List WorkTurn) → ℤ × ℤ × ℕ
  | nRem, nPg, [] => (nRem, nPg, 0)
  | nRem, _, turns :: calls =>
      let done := sortedWork true 16 turns
      let nPg := 16 - done.nRemaining
      let rest := freelistWork (nRem - nPg) nPg calls
      (rest.1, rest.2.1, done.nPages + rest.2.2)

namespace WorkRound

variable (r : WorkRound) (cfg : WorkConfig) (nPage : ℤ)

/-- The merges that make room for the flush, where the database is full. -/
def room : WorkDone :=
  let nRem := if r.nMax cfg nPage < nPage then max (r.nMax cfg nPage) 0 else nPage
  if r.bHasOld && r.bIsFull then sortedWork true nRem r.roomTurns else ⟨nRem, 0⟩

/-- Whether the old tree is flushed. -/
def flushes : Bool := r.bHasOld && decide (0 < (r.room cfg nPage).nRemaining)

/-- What the flush leaves of the budget, and its pages. -/
def flushed : WorkDone :=
  if r.flushes cfg nPage then ⟨(r.room cfg nPage).nRemaining - r.nToplevel, r.nToplevel⟩
  else ⟨(r.room cfg nPage).nRemaining, 0⟩

/-- The merges after it. -/
def merged : WorkDone :=
  let nRem := (r.flushed cfg nPage).nRemaining
  if 0 < nRem then sortedWork false nRem r.turns else ⟨nRem, 0⟩

end WorkRound

/-- `doLsmSingleWork` with `bShutdown` and `bFlushOnly` zero. -/
def doLsmSingleWork (cfg : WorkConfig) (nPage : ℤ) (r : WorkRound) : RoundDone :=
  let nMax := r.nMax cfg nPage
  let nRem := (r.merged cfg nPage).nRemaining
  -- a flush is saved at once, and nothing is dirty after it
  let bDirty := (r.bHasOld && r.bIsFull && !r.flushes cfg nPage) ||
    decide ((r.flushed cfg nPage).nRemaining - nRem ≠ 0)
  -- the pages of the last call before the free list is written are subtracted twice
  let freelist := if r.bFreelist then freelistWork nRem 0 r.freelistTurns else (nRem, 0, 0)
  let nRem := freelist.1 - freelist.2.1
  let bDirty := bDirty || decide (freelist.2.1 ≠ 0)
  { nWrite := if bDirty then nMax - nRem else 0
    bCkpt := (decide (nMax < nPage) && decide (nRem ≤ 0)) || (decide (cfg.nMerge = 1) &&
      decide (0 < cfg.nAutockpt) && decide (0 < nMax - nRem) && r.bOneLevel)
    nPages := (r.room cfg nPage).nPages + (r.flushed cfg nPage).nPages +
      (r.merged cfg nPage).nPages + freelist.2.2 }

/-! ### The rounds of a call -/

/-- `nReq`: the pages that a round is asked to write. -/
def nReq (nPage nWrite : ℤ) : ℤ := if 0 ≤ nPage then nPage - nWrite else 0x7FFFFFFF

/-- The loop of `doLsmWork`, with the rounds that it makes: the pages it counts and the pages
written.  There is no result if the loop does not end with the last of the rounds. -/
def workLoop (cfg : WorkConfig) (nPage : ℤ) : ℤ → List WorkRound → Option (ℤ × ℕ)
  | _, [] => none
  | nWrite, r :: rounds =>
      let done := doLsmSingleWork cfg (nReq nPage nWrite) r
      let nWrite := nWrite + done.nWrite
      if done.bCkpt = true ∧ (nWrite < nPage ∨ nPage < 0) then
        (workLoop cfg nPage nWrite rounds).map fun x => (x.1, done.nPages + x.2)
      else if rounds = [] then some (nWrite, done.nPages)
      else none

def doLsmWork (cfg : WorkConfig) (nPage : ℤ) (rounds : List WorkRound) : Option (ℤ × ℕ) :=
  if nPage = 0 then if rounds = [] then some (0, 0) else none else workLoop cfg nPage 0 rounds

/-- Whether pages are written in a turn. -/
def WorkTurn.writes : WorkTurn → Bool
  | .merge nWork _ => decide (0 < nWork)
  | .move nDone => decide (0 < nDone)

/-- Each merge that goes on writes a page at least. -/
def MergesWrite (turns : List WorkTurn) : Prop := ∀ nWork bFull, .merge nWork bFull ∈ turns → 0 < nWork

/-- A round whose pages are all counted: the budget is not overdrawn before it starts, a turn
that merges writes pages, the database is not full where the free list is written, and a
flush is followed by other work that is not saved yet. -/
structure WorkRound.Counted (r : WorkRound) (cfg : WorkConfig) (nPage : ℤ) : Prop where
  budget : 0 ≤ r.nMax cfg nPage
  roomTurns : MergesWrite r.roomTurns
  turns : MergesWrite r.turns
  freelist : r.bFreelist = true → r.freelistTurns = []
  flush : r.flushes cfg nPage = true → r.nToplevel = 0 ∧ r.bIsFull = false ∨
    (r.nToplevel : ℤ) < (r.room cfg nPage).nRemaining ∧ r.turns.head?.any WorkTurn.writes = true

section Counting

variable {turns : List WorkTurn} {bFlush : Bool} {nRemaining nPage : ℤ} {cfg : WorkConfig}
  {r : WorkRound}

end Counting

end Work

end Lsm

end MoVeBench
