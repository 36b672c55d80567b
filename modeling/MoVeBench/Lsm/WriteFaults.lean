/-
MoVeBench/Lsm/WriteFaults.lean

A write operation that fails (`doWriteOp` of `lsm_main.c`, `lsmLogWrite` of `lsm_log.c`).

The record goes to the log first, and the tree is changed after that.  Each of the two may fail,
and so may the automatic work at the end.  A transaction that the operation has opened for itself
is rolled back.  One that was open before stays open, and nothing takes the record out of the log
again.

The log is a list of items here, with the offsets and sizes that decide where the writer jumps and
where it writes a checksum; the bytes are in `Lsm/LogWriter`.
-/
import MoVeBench.Lsm.LogWriter
import MoVeBench.Lsm.TreeRanges

namespace MoVeBench

namespace Lsm.WriteFaults

open Log (LogRegion LSM_CKSUM_MAXDATA jumpRecord)
open Seg (lsmVarintPut32)
open Run

inductive Rc
  | ok
  | nomem
  | ioerr
  | other
  deriving DecidableEq, Repr

/-- What is written: a key, and a value unless the key is deleted. -/
structure Write where
  key : Bytes
  val : Option Bytes
  deriving DecidableEq, Repr

/-- What goes to the log, as far as recovery is concerned. -/
inductive Item
  | record (w : Write)
  /-- A JUMP record that the writer itself does not follow. -/
  | jump
  /-- What is in the file where a write has failed. -/
  | hole
  deriving DecidableEq, Repr

/-- The call that fails. -/
inductive Fault
  | none
  | begin
  /-- `lsmStringBinAppend` of the padding in front of a JUMP record. -/
  | logPad
  /-- `lsmStringBinAppend` of the JUMP record. -/
  | logJump
  /-- `lsmFsWriteLog` of `jumpIfRequired`. -/
  | logJumpWrite
  /-- `lsmStringExtend` of `lsmLogWrite`. -/
  | logExtend
  /-- `lsmFsWriteLog` of `logCksumAndFlush`; the bytes may be in the file nevertheless. -/
  | logFlush (written : Bool)
  /-- `lsmTreeInsert`, before it changes a pointer. -/
  | treeInsert
  /-- `lsmTreeDelete`, at the key with this number.  That key may be gone: a key of an inner node
  is overwritten first. -/
  | treeKey (i : ℕ) (gone : Bool)
  /-- `treeInsertEntry` of the start of a range. -/
  | treeStart
  /-- `treeInsertEntry` of the end of a range. -/
  | treeEnd
  | autoWork
  deriving DecidableEq, Repr

/-! ### The log -/

/-- `LsmString`, with the items in it. -/
structure LsmString where
  /-- Whether `z` is not null. -/
  z : Bool
  n : ℤ
  nAlloc : ℕ
  items : List Item
  null_of_neg : n < 0 → z = false
  deriving DecidableEq

namespace LsmString

/-- What is written behind the end. -/
def append (pStr : LsmString) (n : ℕ) (items : List Item) : LsmString :=
  { pStr with
    n := pStr.n + n
    items := pStr.items ++ items
    null_of_neg := fun h => pStr.null_of_neg (by omega) }

/-- `n` is set to zero. -/
def reset (pStr : LsmString) : LsmString :=
  { pStr with n := 0, items := [], null_of_neg := fun h => absurd h (lt_irrefl _) }

end LsmString

/-- `lsmStringExtend`. -/
def lsmStringExtend (pStr : LsmString) (nNew : ℕ) (bFail : Bool) : Rc × LsmString :=
  if hn : pStr.n < 0 then (.nomem, pStr)
  else if pStr.n + nNew ≥ pStr.nAlloc then
    if bFail then
      (.nomem, { pStr with z := false, n := -1, items := [], null_of_neg := fun _ => rfl })
    else
      (.ok, { pStr with
        z := true
        nAlloc := (pStr.n + nNew + 100).toNat
        null_of_neg := fun h => absurd h hn })
  else (if pStr.z then .ok else .nomem, pStr)

/-- `lsmStringBinAppend`.  A failed allocation leaves `nAlloc` as it was, so that the copy may go
to a null pointer. -/
def lsmStringBinAppend (pStr : LsmString) (n : ℕ) (items : List Item) (bFail : Bool) :
    Option (Rc × LsmString) :=
  let (rc, pStr) := lsmStringExtend pStr n bFail
  if pStr.nAlloc ≠ 0 then
    if pStr.z then some (rc, pStr.append n items) else none
  else some (rc, pStr)

structure LogWriter where
  szSector : ℕ := 1
  iOff : ℕ
  jump : LogRegion := {}
  buf : LsmString
  /-- The items of the transaction that are in the file. -/
  file : List Item := []
  deriving DecidableEq

/-- The padding in front of a JUMP record of `nJump` bytes. -/
def appendPad (buf : LsmString) (nJump : ℕ) (bFail : Bool) : Option (Rc × LsmString) :=
  let nPad := ((buf.n + nJump) % 8).toNat
  if nPad ≠ 0 then lsmStringBinAppend buf (8 - nPad) [] bFail else some (.ok, buf)

/-- `jumpIfRequired`: the result, the writer, and whether it has jumped. -/
def jumpIfRequired (pLog : LogWriter) (nReq : ℕ) (fault : Fault) :
    Option (Rc × LogWriter × Bool) :=
  let iEnd := pLog.iOff + pLog.buf.n
  if iEnd < pLog.jump.iStart ∧ pLog.jump.iStart < iEnd + (nReq + 17) then do
    let iJump := pLog.jump.iEnd + 1
    let nJump := (jumpRecord iJump).length
    let (rc, buf) ← appendPad pLog.buf nJump (fault = .logPad)
    if rc ≠ .ok then return (rc, { pLog with buf := buf }, false)
    let (rc, buf) ← lsmStringBinAppend buf nJump [.jump] (fault = .logJump)
    if rc ≠ .ok then return (rc, { pLog with buf := buf }, false)
    if fault = .logJumpWrite then return (.ioerr, { pLog with buf := buf }, false)
    -- the reader goes on where the writer does
    return (.ok, { pLog with
      file := pLog.file ++ pLog.buf.items
      iOff := iJump
      buf := buf.reset }, true)
  else some (.ok, pLog, false)

/-- `logCksumAndFlush`. -/
def logCksumAndFlush (pLog : LogWriter) (fault : Fault) : Rc × LogWriter :=
  (if fault = .logFlush false ∨ fault = .logFlush true then .ioerr else .ok, { pLog with
    file := pLog.file ++ if fault = .logFlush false then [.hole] else pLog.buf.items
    iOff := pLog.iOff + (pLog.buf.n + 8).toNat
    buf := pLog.buf.reset })

/-- The type byte and the lengths of a record. -/
def Write.nHeader (w : Write) : ℕ :=
  1 + (lsmVarintPut32 w.key.length).length +
    w.val.elim 0 fun val => (lsmVarintPut32 val.length).length

def Write.nData (w : Write) : ℕ := w.key.length + w.val.elim 0 List.length

/-- The room that a record takes with a checksum. -/
def Write.nReq (w : Write) : ℕ := w.nHeader + 8 + w.nData

/-- The part of `lsmLogWrite` that writes the record. -/
def logRecord (pLog : LogWriter) (w : Write) (bCksum : Bool) (fault : Fault) : Rc × LogWriter :=
  let pLog := { pLog with buf := pLog.buf.append w.nHeader [] }
  let (rc, pLog) := if bCksum then logCksumAndFlush pLog fault else (.ok, pLog)
  (rc, { pLog with buf := pLog.buf.append w.nData [.record w] })

/-- `lsmLogWrite`. -/
def lsmLogWrite (pLog : LogWriter) (w : Write) (fault : Fault) : Option (Rc × LogWriter) := do
  let (rc, pLog, bCksum) ← jumpIfRequired pLog w.nReq fault
  let bCksum := bCksum || decide (LSM_CKSUM_MAXDATA < pLog.buf.n + w.nReq)
  if rc ≠ .ok then return (rc, pLog)
  let (rc, buf) := lsmStringExtend pLog.buf w.nReq (fault = .logExtend)
  if rc ≠ .ok then return (rc, { pLog with buf := buf })
  return logRecord { pLog with buf := buf } w bCksum fault

/-- The padding in front of a commit record. -/
def LogWriter.nPad (pLog : LogWriter) : ℕ :=
  let nPad := ((pLog.iOff + pLog.buf.n + 9) % pLog.szSector).toNat
  if nPad = 0 then 0 else pLog.szSector - nPad

/-- The part of `logFlush` that writes a commit record. -/
def appendCommit (pLog : LogWriter) (fault : Fault) : Rc × LogWriter :=
  let (rc, buf) :=
    if 1 < pLog.szSector then
      let (rc, buf) := lsmStringExtend pLog.buf pLog.nPad (fault = .logPad)
      (rc, if rc = .ok then buf.append pLog.nPad [] else buf)
    else (.ok, pLog.buf)
  if rc ≠ .ok then (rc, { pLog with buf := buf })
  else
    let (rc, buf) := lsmStringExtend buf 9 (fault = .logExtend)
    if rc ≠ .ok then (rc, { pLog with buf := buf })
    else logCksumAndFlush { pLog with buf := buf.append 1 [] } fault

/-- `lsmLogCommit`, which is `logFlush` of a commit record.  What `jumpIfRequired` returns is not
looked at. -/
def lsmLogCommit (pLog : LogWriter) (fault : Fault) : Option (Rc × LogWriter) := do
  let nReq := 9 + if 1 < pLog.szSector then pLog.szSector + 17 else 0
  let (_, pLog, _) ← jumpIfRequired pLog nReq fault
  return appendCommit pLog fault

/-! ### The tree -/

/-- `lsmTreeInsert`.  A new key takes its flags from either neighbour, as the nodes are. -/
def lsmTreeInsert (side : Bool) (m : TreeMap) (w : Write) (fault : Fault) : Rc × TreeMap :=
  if fault = .treeInsert then (.nomem, m)
  else (.ok, m.insertMark side (.ofValue w.val) w.key)

/-- The loop of `lsmTreeDelete`, from the key with the number `i` on. -/
def treeDeleteRange (k1 k2 : Bytes) (fault : Fault) : ℕ → ℕ → TreeMap → Rc × TreeMap
  | 0, _, m => (.ok, m)
  | fuel + 1, i, m =>
      match m.seekGT k1 with
      | none => (.ok, m)
      | some (k, _) =>
          if k < k2 then
            if fault = .treeKey i true then (.nomem, m.erase k)
            else if fault = .treeKey i false then (.nomem, m)
            else treeDeleteRange k1 k2 fault fuel (i + 1) (m.erase k)
          else (.ok, m)

/-- `lsmTreeDelete`. -/
def lsmTreeDelete (m : TreeMap) (k1 k2 : Bytes) (fault : Fault) : Rc × TreeMap :=
  let (rc, m) := treeDeleteRange k1 k2 fault m.entries.length 0 m
  if rc ≠ .ok then (rc, m)
  else if fault = .treeStart then (.nomem, m)
  else
    let m := m.insertMark true .startDelete k1
    if fault = .treeEnd then (.nomem, m)
    else (.ok, m.insertMark true .endDelete k2)

/-! ### The connection -/

structure Conn where
  bUseLog : Bool
  nTransOpen : ℕ
  tree : TreeMap
  /-- `aTrans[0].tree`. -/
  mark : TreeMap
  log : LogWriter

/-- What `doWriteOp` is asked for. -/
inductive WriteOp
  | write (w : Write)
  /-- `lsm_delete_range` compares the keys. -/
  | deleteRange (pKey1 pKey2 : Bytes) (hlt : pKey1 < pKey2)

/-- What the calls find: where `lsmLogBegin` lets the transaction begin, and how the nodes of the
tree are. -/
structure Env where
  iOff : ℕ
  jump : LogRegion
  szSector : ℕ
  side : Bool

/-- `lsm_begin` of the first level. -/
def lsm_begin (pDb : Conn) (env : Env) (fault : Fault) : Rc × Conn :=
  if fault = .begin then (.other, pDb)
  else (.ok, { pDb with
    nTransOpen := 1
    mark := pDb.tree
    log := {
      szSector := env.szSector, iOff := env.iOff, jump := env.jump
      buf := pDb.log.buf.reset } })

/-- `lsm_commit` of the outermost level. -/
def lsm_commit (pDb : Conn) (fault : Fault) : Option (Rc × Conn) :=
  (if pDb.bUseLog then lsmLogCommit pDb.log fault else some (.ok, pDb.log)).map fun r =>
    (r.1, { pDb with nTransOpen := 0, log := r.2 })

/-- `lsm_rollback` of all levels. -/
def lsm_rollback (pDb : Conn) : Conn :=
  if pDb.nTransOpen = 0 then pDb else { pDb with nTransOpen := 0, tree := pDb.mark }

/-- The part of `doWriteOp` that writes to the log. -/
def WriteOp.log (pDb : Conn) (op : WriteOp) (fault : Fault) : Option (Rc × Conn) :=
  match op with
  | .write w =>
      if pDb.bUseLog then (lsmLogWrite pDb.log w fault).map fun r => (r.1, { pDb with log := r.2 })
      else some (.ok, pDb)
  -- TODO
  | .deleteRange _ _ _ => some (.ok, pDb)

/-- The part of `doWriteOp` that writes to the tree. -/
def WriteOp.tree (side : Bool) (m : TreeMap) (op : WriteOp) (fault : Fault) : Rc × TreeMap :=
  match op with
  | .write w => lsmTreeInsert side m w fault
  | .deleteRange pKey1 pKey2 _ => lsmTreeDelete m pKey1 pKey2 fault

/-- The part of `doWriteOp` between the begin and the commit.  `none` stands for a copy to a null
pointer. -/
def writeOp (env : Env) (pDb : Conn) (op : WriteOp) (fault : Fault) : Option (Rc × Conn) := do
  let (rc, pDb) ← op.log pDb fault
  if rc ≠ .ok then return (rc, pDb)
  let (rc, tree) := op.tree env.side pDb.tree fault
  return (if rc = .ok ∧ fault = .autoWork then .other else rc, { pDb with tree := tree })

/-- `doWriteOp`. -/
def doWriteOp (env : Env) (pDb : Conn) (op : WriteOp) (fault : Fault) : Option (Rc × Conn) :=
  -- bCommit
  if pDb.nTransOpen = 0 then
    let (rc, pDb) := lsm_begin pDb env fault
    if rc ≠ .ok then some (rc, lsm_rollback pDb)
    else do
      let (rc, pDb) ← writeOp env pDb op fault
      if rc = .ok then lsm_commit pDb fault else return (rc, lsm_rollback pDb)
  else writeOp env pDb op fault

/-! ### What the log functions do -/

namespace LsmString

/-- The buffer is in order. -/
structure Ready (pStr : LsmString) : Prop where
  z : pStr.z = true
  n : 0 ≤ pStr.n

/-- There is no buffer, and what is asked for does not make `lsmStringExtend` allocate one. -/
def Refuses (pStr : LsmString) (nNew : ℕ) : Prop :=
  pStr.n < 0 ∨ pStr.z = false ∧ pStr.n + nNew < pStr.nAlloc

variable {pStr : LsmString}

theorem Ready.append (h : pStr.Ready) (n : ℕ) (items : List Item) : (pStr.append n items).Ready :=
  ⟨h.z, Int.add_nonneg h.n (Int.natCast_nonneg n)⟩

theorem Ready.reset (h : pStr.Ready) : pStr.reset.Ready := ⟨h.z, le_rfl⟩

end LsmString

section Log

variable {pStr : LsmString} {pLog : LogWriter} {w : Write} {fault : Fault}

/-- What `lsmStringExtend` does. -/
inductive Extended (pStr : LsmString) (nNew : ℕ) (bFail : Bool) : Rc × LsmString → Prop
  | ok (pStr' : LsmString) (hready : pStr'.Ready) (hitems : pStr'.items = pStr.items)
      (hroom : 0 < pStr'.nAlloc) (hrefuses : ¬ pStr.Refuses nNew) :
      Extended pStr nNew bFail (.ok, pStr')
  | lost (pStr' : LsmString) (hn : pStr'.n < 0) (hwhy : pStr.n < 0 ∨ bFail = true) :
      Extended pStr nNew bFail (.nomem, pStr')
  | refused (hpos : 0 ≤ pStr.n) (halloc : pStr.nAlloc ≠ 0) (hrefuses : pStr.Refuses nNew) :
      Extended pStr nNew bFail (.nomem, pStr)

/-- What `lsmStringBinAppend` does where it returns. -/
inductive Appended (pStr : LsmString) (n : ℕ) (items : List Item) (bFail : Bool) :
    Rc × LsmString → Prop
  | ok (pStr' : LsmString) (hready : pStr'.Ready) (hitems : pStr'.items = pStr.items ++ items)
      (hrefuses : ¬ pStr.Refuses n) : Appended pStr n items bFail (.ok, pStr')
  | lost (pStr' : LsmString) (hn : pStr'.n < 0) (hwhy : pStr.n < 0 ∨ bFail = true) :
      Appended pStr n items bFail (.nomem, pStr')

/-- The items of the transaction, those in the buffer at the end. -/
def LogWriter.items (pLog : LogWriter) : List Item := pLog.file ++ pLog.buf.items

/-- The records that recovery reads in a transaction: all of them or none, as the commit record
comes last. -/
def readable : List Item → Option (List Write)
  | [] => some []
  | .record w :: items => (readable items).map (w :: ·)
  | .jump :: _ => none
  | .hole :: _ => none

end Log

section Conn

variable {pDb pDb' : Conn} {env : Env} {op : WriteOp} {w : Write} {fault : Fault} {rc : Rc}

/-- What the log of the open transaction says to recovery. -/
def contents (pDb : Conn) : List Write :=
  if pDb.bUseLog then (readable pDb.log.items).getD [] else []

/-- What recovery finds after a commit; `none` where the commit fails though each call that it makes
succeeds. -/
def recovered (pDb : Conn) : Option (List Write) :=
  match lsm_commit pDb .none with
  | some (.ok, pDb') => some (if pDb'.bUseLog then (readable pDb'.log.file).getD [] else [])
  | _ => none

end Conn

/-! ### What the tree functions leave as it was -/

section Tree

variable {m : TreeMap} {k k1 k2 : Bytes} {r : Mark} {w : Write} {fault : Fault}

theorem map_ext {m m' : TreeMap} (h : m.entries = m'.entries) : m = m' := by
  cases m
  cases m'
  cases h
  rfl

/-- The tree says already what is written. -/
def Has (m : TreeMap) (w : Write) : Prop :=
  (m.get? w.key).map Mark.data = some (EntryFlag.ofValue w.val).data

theorem restrict_eq_self {p : Bytes → Bool} (h : ∀ e ∈ m.entries, p e.1 = true) :
    m.restrict p = m :=
  map_ext (List.filter_eq_self.mpr h)

/-- Without a failure all keys of the range go. -/
theorem treeDeleteRange_ok (fuel i : ℕ) (hfuel : m.entries.length ≤ fuel) :
    treeDeleteRange k1 k2 .none fuel i m = (.ok, m.restrict fun k => !(k1 < k && k < k2)) := by
  induction fuel generalizing m i with
  | zero =>
      have hnil : m.entries = [] := List.length_eq_zero_iff.mp (Nat.le_zero.mp hfuel)
      rw [restrict_eq_self (by rw [hnil]; nofun)]
      rfl
  | succ fuel ih =>
      unfold treeDeleteRange
      cases hseek : m.seekGT k1 with
      | none =>
          rw [restrict_eq_self fun e he => ?_]
          simp [not_lt.mpr (m.seekGT_eq_none_iff.mp hseek e he)]
      | some e =>
          obtain ⟨k, r⟩ := e
          obtain ⟨hmem, hk1, hfirst⟩ := m.seekGT_spec hseek
          dsimp only
          by_cases hk2 : k < k2
          · -- the first key of the range
            rw [if_pos hk2, if_neg nofun, if_neg nofun]
            have hlen : (m.erase k).entries.length ≤ fuel := by
              have hlt : (m.erase k).entries.length < m.entries.length :=
                List.length_filter_lt_length_iff_exists.mpr ⟨(k, r), hmem, by simp⟩
              omega
            rw [ih (i + 1) hlen]
            refine congrArg _ (map_ext ?_)
            show ((m.entries.filter _).filter _) = m.entries.filter _
            rw [List.filter_filter]
            refine List.filter_congr fun e _ => ?_
            by_cases hek : e.1 = k
            · simp [hek, hk1, hk2]
            · simp [hek]
          · rw [if_neg hk2, restrict_eq_self fun e he => ?_]
            by_cases hlt : k1 < e.1
            · simp [(not_lt.mp hk2).trans (hfirst e he hlt)]
            · simp [hlt]

/-- **Without a failure** the deletion is the one of the maps with marks. -/
theorem lsmTreeDelete_ok : lsmTreeDelete m k1 k2 .none = (.ok, m.deleteRange k1 k2) := by
  unfold lsmTreeDelete
  rw [treeDeleteRange_ok _ _ le_rfl]
  rfl

end Tree

/-! ### Agreement -/

/-- **The log and the tree agree** about an operation: neither has it, or both have it. -/
def Agrees (env : Env) (op : WriteOp) (pDb pDb' : Conn) : Prop :=
  (pDb'.tree = pDb.tree ∧ ∀ l, recovered pDb' = some l → l = contents pDb) ∨
    ∃ w, op = .write w ∧ pDb'.tree = pDb.tree.insertMark env.side (.ofValue w.val) w.key ∧
      recovered pDb' = some (contents pDb ++ [w])

/-- No write to the log has failed in the transaction so far. -/
def Conn.Readable (pDb : Conn) : Prop :=
  pDb.bUseLog = true ∧ (readable pDb.log.items).isSome = true

section Agree

variable {pDb pDb' : Conn} {env : Env} {op : WriteOp} {w : Write} {fault : Fault} {rc : Rc}
  {r : Rc × Conn}

/-- What the connection sees: what the tree says, and the database file below it. -/
def seen (db : Bytes → Option Bytes) (m : TreeMap) (k : Bytes) : Option Bytes :=
  (lookup (markRun m.entries) k).getD (db k)

/-- A transaction that has written nothing yet. -/
def begun : Conn where
  bUseLog := true
  nTransOpen := 1
  tree := .empty
  mark := .empty
  log := { iOff := 0, buf := ⟨true, 0, 200, [], nofun⟩ }

section

local instance byteNeZero : NeZero 256 := ⟨Nat.succ_ne_zero 255⟩

/-- After `lsmLogWrite` of a short key. -/
def logged : Conn :=
  { begun with log := { iOff := 0, buf := ⟨true, 5, 200, [.record ⟨[1], some [2]⟩], nofun⟩ } }

end

end Agree

end Lsm.WriteFaults

end MoVeBench
