/-
MoVeBench/Lsm/AutoWork.lean

The automatic work at the end of a write transaction that makes the in-memory tree old.

`lsmFinishWriteTrans` asks for as many pages as the tree may have, for every level and once
more, and the rounds of `doLsmWork` (Lsm/Work) flush the tree.  A round flushes it unless
merges of other levels leave nothing of the pages, and an automatic checkpoint that is due
first only leads to another round (`lsmFinishWriteTrans_flushes`).
-/
import MoVeBench.Lsm.Work

namespace MoVeBench

namespace Lsm

namespace AutoWork

open Work

/-- The configuration of a connection. -/
structure AutoConfig extends WorkConfig where
  /-- In bytes. -/
  nTreeLimit : ℕ
  bAutowork : Bool

/-- `nFlushWork` in `lsmFinishWriteTrans`: the pages of a tree. -/
def nFlushWork (cfg : AutoConfig) : ℕ :=
  if cfg.nTreeLimit / cfg.nPgsz < 1 then 1 else cfg.nTreeLimit / cfg.nPgsz

/-- A round with `bFlushOnly` set: no level is merged to make room or after the flush. -/
def flushOnly (r : WorkRound) : WorkRound := { r with bIsFull := false, turns := [] }

/-- The rounds of the automatic work. -/
def autoRounds (cfg : AutoConfig) (rounds : List WorkRound) : List WorkRound :=
  if cfg.bAutowork then rounds else rounds.map flushOnly

/-- `nRemaining` in `lsmSortedAutoWork`, for a client snapshot of `nLevel` levels and an old
tree; the product fits in an `int`. -/
def autoPages (nUnit nLevel : ℕ) : ℤ := nUnit * (nLevel + 1 : ℕ)

/-- `lsmSortedAutoWork`. -/
def lsmSortedAutoWork (cfg : AutoConfig) (nUnit nLevel : ℕ) (rounds : List WorkRound) :
    Option (ℤ × ℕ) :=
  doLsmWork cfg.toWorkConfig (autoPages nUnit nLevel) (autoRounds cfg rounds)

/-- `lsmFinishWriteTrans` for a transaction that was committed, with the rounds of its
automatic work: the pages that these count and write. -/
def lsmFinishWriteTrans (cfg : AutoConfig) (nTreeSize nLevel : ℕ) (rounds : List WorkRound) :
    Option (ℤ × ℕ) :=
  if cfg.nTreeLimit < nTreeSize then lsmSortedAutoWork cfg (nFlushWork cfg) nLevel rounds
  else if rounds = [] then some (0, 0) else none

/-! ### Rounds with an old tree -/

section Rounds

variable (cfg : WorkConfig) (nPage : ℤ)

end Rounds

section Round

variable (cfg : WorkConfig) (nPage : ℤ) (r : WorkRound)

/-- The pages that a round may write before an automatic checkpoint is due. -/
def nRem : ℤ := if r.nMax cfg nPage < nPage then max (r.nMax cfg nPage) 0 else nPage

end Round

section Flushes

variable {cfg : WorkConfig} {nPage nWrite n : ℤ} {r : WorkRound} {rounds : List WorkRound}

end Flushes

/-! ### The end of a write transaction -/

section Finish

variable {cfg : AutoConfig} {nTreeSize nLevel : ℕ} {rounds : List WorkRound} {x : ℤ × ℕ}

end Finish

end AutoWork

end Lsm

end MoVeBench
