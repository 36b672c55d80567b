/-
MoVeBench/Lsm/LogReplay.lean

The writes of committed transactions, and what is left of them after a crash (`doWriteOp` of
`lsm_main.c` and `lsmLogRecover` of `lsm_log.c`).

Every insert and every delete of a key goes to the log before it goes to the tree.  The deletion
of a range goes to the tree only: the source has a `TODO` there.  The log alone gives the same
map exactly where the deletions of ranges have no effect in the end, that is, where each of them
finds no key inside its range but those that are written again later (`recoverMap_eq_iff`).

A map gives the values that a cursor finds, in the tree and in the database file below it.
-/
import MoVeBench.Lsm.LogWriter

namespace MoVeBench

namespace Lsm.Log

/-! ### The connection -/

abbrev Key := List UInt8

abbrev KeyMap := Key → Option (List UInt8)

/-- A record of the log. -/
inductive LogRecord
  | write (w : Write)
  | commit
  deriving DecidableEq, Repr

structure Conn where
  map : KeyMap
  log : List LogRecord := []
  nTransOpen : ℕ := 0

/-- `lsmTreeInsert`. -/
def lsmTreeInsert (m : KeyMap) (w : Write) : KeyMap := fun k => if k = w.key then w.val else m k

/-- `lsmTreeDelete`, which keeps the two ends of the range. -/
def lsmTreeDelete (m : KeyMap) (pKey1 pKey2 : Key) : KeyMap :=
  fun k => if pKey1 < k ∧ k < pKey2 then none else m k

def lsm_begin (pDb : Conn) (iLevel : ℕ) : Conn :=
  { pDb with nTransOpen := max pDb.nTransOpen iLevel }

def lsm_commit (pDb : Conn) (iLevel : ℕ) : Conn :=
  if iLevel < pDb.nTransOpen then
    { pDb with
      log := if iLevel = 0 then pDb.log ++ [.commit] else pDb.log
      nTransOpen := iLevel }
  else pDb

/-- What `doWriteOp` is asked for. -/
inductive WriteOp
  | write (w : Write)
  | deleteRange (pKey1 pKey2 : Key)
  deriving DecidableEq, Repr

/-- The part of `doWriteOp` that writes to the log. -/
def WriteOp.logged : WriteOp → List LogRecord
  | .write w => [.write w]
  -- TODO
  | .deleteRange _ _ => []

/-- The part of `doWriteOp` that writes to the tree. -/
def WriteOp.apply (m : KeyMap) : WriteOp → KeyMap
  | .write w => lsmTreeInsert m w
  | .deleteRange pKey1 pKey2 => lsmTreeDelete m pKey1 pKey2

def doWriteOp (pDb : Conn) (op : WriteOp) : Conn :=
  let bCommit := pDb.nTransOpen == 0
  let pDb := if bCommit then lsm_begin pDb 1 else pDb
  let pDb := { pDb with log := pDb.log ++ op.logged, map := op.apply pDb.map }
  if bCommit then lsm_commit pDb 0 else pDb

/-- The calls that write. -/
inductive Call
  | lsm_insert (pKey : Key) (pVal : List UInt8)
  | lsm_delete (pKey : Key)
  | lsm_delete_range (pKey1 pKey2 : Key)
  deriving DecidableEq, Repr

def Call.op : Call → WriteOp
  | .lsm_insert pKey pVal => .write ⟨pKey, some pVal⟩
  | .lsm_delete pKey => .write ⟨pKey, none⟩
  | .lsm_delete_range pKey1 pKey2 => .deleteRange pKey1 pKey2

/-- A call, which does nothing where the ends of a range are not in order. -/
def Call.run (pDb : Conn) (c : Call) : Conn :=
  match c with
  | .lsm_delete_range pKey1 pKey2 => if pKey1 < pKey2 then doWriteOp pDb c.op else pDb
  | _ => doWriteOp pDb c.op

/-- A transaction that is committed: a call of its own, or several between a begin and a commit. -/
inductive Transaction
  | auto (c : Call)
  | block (cs : List Call)

def Transaction.calls : Transaction → List Call
  | .auto c => [c]
  | .block cs => cs

def Transaction.run (pDb : Conn) : Transaction → Conn
  | .auto c => c.run pDb
  | .block cs => lsm_commit (cs.foldl Call.run (lsm_begin pDb 1)) 0

/-! ### Recovery -/

/-- The map after the records of a log, whether committed or not. -/
def applyLog (m : KeyMap) (log : List LogRecord) : KeyMap :=
  log.foldl (fun m r =>
    match r with
    | .write w => lsmTreeInsert m w
    | .commit => m) m

/-- The state between transactions: all of the log is committed. -/
structure Between (pDb : Conn) : Prop where
  closed : pDb.nTransOpen = 0
  committed : pDb.log = [] ∨ ∃ log, pDb.log = log ++ [.commit]

/-- What a call does to a map. -/
def Call.visible (m : KeyMap) (c : Call) : KeyMap := c.op.apply m

/-- What is left of it in the log. -/
def Call.recovered (m : KeyMap) (c : Call) : KeyMap := applyLog m c.op.logged

/-- A range whose ends are not in order is empty. -/
theorem lsmTreeDelete_of_not_lt {m : KeyMap} {k1 k2 : Key} (h : ¬ k1 < k2) :
    lsmTreeDelete m k1 k2 = m := by
  funext k
  exact if_neg fun hk => h (List.lt_trans hk.1 hk.2)

/-- A state of a run, with the maps that its calls make. -/
structure Follows (base : KeyMap) (pDb : Conn) (cs : List Call) : Prop where
  map : pDb.map = cs.foldl Call.visible base
  log : applyLog base pDb.log = cs.foldl Call.recovered base

variable {base : KeyMap} {pDb : Conn} {cs : List Call}

theorem Follows.commit (h : Follows base pDb cs) : Follows base (lsm_commit pDb 0) cs := by
  unfold lsm_commit
  by_cases hopen : 0 < pDb.nTransOpen
  · rw [if_pos hopen, if_pos rfl]
    refine ⟨h.map, ?_⟩
    rw [← h.log, applyLog, List.foldl_append]
    rfl
  · rw [if_neg hopen]
    exact h

theorem Follows.doWriteOp (h : Follows base pDb cs) (c : Call) :
    Follows base (doWriteOp pDb c.op) (cs ++ [c]) := by
  have hmid : ∀ n, Follows base
      { map := c.op.apply pDb.map, log := pDb.log ++ c.op.logged, nTransOpen := n }
      (cs ++ [c]) := by
    intro n
    refine ⟨?_, ?_⟩
    · rw [List.foldl_append, ← h.map]
      rfl
    · rw [List.foldl_append, ← h.log, applyLog, List.foldl_append]
      rfl
  unfold Log.doWriteOp
  by_cases hopen : pDb.nTransOpen == 0
  · simp only [if_pos hopen]
    exact (hmid _).commit
  · simp only [if_neg hopen]
    exact hmid _

theorem Follows.call (h : Follows base pDb cs) (c : Call) :
    Follows base (c.run pDb) (cs ++ [c]) := by
  cases c with
  | lsm_insert k v => exact h.doWriteOp (.lsm_insert k v)
  | lsm_delete k => exact h.doWriteOp (.lsm_delete k)
  | lsm_delete_range k1 k2 =>
      unfold Call.run
      dsimp only
      split_ifs with hlt
      · exact h.doWriteOp (.lsm_delete_range k1 k2)
      · refine ⟨?_, ?_⟩
        · rw [List.foldl_append, ← h.map]
          exact (lsmTreeDelete_of_not_lt hlt).symm
        · rw [List.foldl_append, ← h.log]
          rfl

theorem Follows.block (h : Follows base pDb cs) (cs' : List Call) :
    Follows base (cs'.foldl Call.run pDb) (cs ++ cs') := by
  induction cs' generalizing pDb cs with
  | nil => rwa [List.append_nil]
  | cons c cs' ih =>
      have hnext := ih (h.call c)
      rwa [List.append_assoc] at hnext

theorem Between.auto (h : Between pDb) (op : WriteOp) : Between (doWriteOp pDb op) := by
  unfold Log.doWriteOp lsm_begin lsm_commit
  rw [h.closed]
  exact ⟨rfl, .inr ⟨pDb.log ++ op.logged, rfl⟩⟩

/-- A call that writes a key. -/
def Call.writes (c : Call) (k : Key) : Prop :=
  match c with
  | .lsm_insert pKey _ => pKey = k
  | .lsm_delete pKey => pKey = k
  | .lsm_delete_range _ _ => False

variable {c : Call} {k : Key} {m : KeyMap}

end Lsm.Log

end MoVeBench
