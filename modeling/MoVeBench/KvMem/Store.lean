/-
MoVeBench/KvMem/Store.lean

The in-memory key/value store (`kvmem.c`), opened with transactions.

* A node that has been written to since its row was last logged gets a record in the log of the
  current level, with the old content; a deleted row stays in the tree without content.
* Closing a level hands its records to the level below, goes back record by record, or, when no
  write transaction is left, takes the deleted rows out of the tree.
* A node is freed when nothing refers to it; `freed` lists the nodes that have been, and `badFree`
  says whether one was freed for a second time or while a record or a cursor referred to it.

`sqlite4_malloc` may fail in every call: the functions take whether it succeeds.  The content of a
row is a value here, so the references to it are not counted.
-/
import MoVeBench.KvMem.Nodes
import MoVeBench.Lsm.TreeEntry

namespace MoVeBench

namespace KvMem

open AvlTree
open Lsm (Bytes memcmpBytes)

/-! ### Data -/

/-- `SQLITE4_OK`, `SQLITE4_NOMEM`, `SQLITE4_NOTFOUND` and `SQLITE4_INEXACT`. -/
inductive Rc where
  | ok
  | nomem
  | notfound
  | inexact
deriving DecidableEq

/-- A number as a `short int` holds it. -/
def toShort (n : ℤ) : ℤ := n.bmod 65536

/-- A `KVMemNode` without its place in the tree; `pData` is `none` for a deleted row. -/
structure Row where
  pData : Option Bytes
  mxTrans : ℤ
  nRef : ℤ
  aKey : Bytes

/-- A change that may be rolled back. -/
structure KVMemChng where
  pNode : Ptr
  pData : Option Bytes
  oldTrans : ℤ

structure KVMemCursor where
  pNode : Ptr
  pData : Option Bytes

/-- The store.  Nodes are allocated one after the other from `pFresh` on. -/
structure KVMem where
  links : Heap
  rows : Ptr → Row
  pRoot : Ptr
  apLog : ℕ → List KVMemChng
  iTransLevel : ℕ
  cursors : List KVMemCursor
  pFresh : Ptr
  freed : List Ptr
  badFree : Bool

/-- `sqlite4KVStoreOpenMem`. -/
def openMem : KVMem where
  links := ⟨fun _ => ⟨0, 0, 0, 0, 0⟩⟩
  rows := fun _ => ⟨none, 0, 0, []⟩
  pRoot := 0
  apLog := fun _ => []
  iTransLevel := 0
  cursors := []
  pFresh := 1
  freed := []
  badFree := false

def kvmemKeyCompare (aK1 aK2 : Bytes) : ℤ :=
  let c := memcmpBytes aK1 aK2 (min aK1.length aK2.length)
  if c = 0 then (aK1.length : ℤ) - aK2.length else c

namespace KVMem

/-- Change fields of one row. -/
def setRow (p : KVMem) (x : Ptr) (f : Row → Row) : KVMem :=
  { p with rows := Function.update p.rows x (f (p.rows x)) }

def setLog (p : KVMem) (i : ℕ) (l : List KVMemChng) : KVMem :=
  { p with apLog := Function.update p.apLog i l }

def setCursor (p : KVMem) (i : ℕ) (c : KVMemCursor) : KVMem :=
  { p with cursors := p.cursors.set i c }

/-- The records of all levels. -/
def records (p : KVMem) : List KVMemChng := (List.range (p.iTransLevel - 1)).flatMap p.apLog

/-- A record or a cursor refers to the node. -/
def refersTo (p : KVMem) (x : Ptr) : Bool :=
  p.records.any (·.pNode == x) || p.cursors.any (·.pNode == x)

end KVMem

/-! ### Nodes and records -/

def kvmemNodeRef (p : KVMem) (x : Ptr) : KVMem :=
  if x = 0 then p else p.setRow x fun r => { r with nRef := toShort (r.nRef + 1) }

def kvmemNodeUnref (p : KVMem) (x : Ptr) : KVMem :=
  if x = 0 then p
  else
    let p := p.setRow x fun r => { r with nRef := toShort (r.nRef - 1) }
    if (p.rows x).nRef ≤ 0 then
      { p with freed := x :: p.freed
               badFree := p.badFree || p.freed.contains x || p.refersTo x }
    else p

def kvmemNewChng (p : KVMem) (pNode : Ptr) (malloc : Bool) : KVMem × Bool :=
  if malloc then
    let i := p.iTransLevel - 2
    let r := p.rows pNode
    let p := p.setLog i (⟨pNode, r.pData, r.mxTrans⟩ :: p.apLog i)
    (p.setRow pNode fun r => { r with mxTrans := toShort p.iTransLevel, pData := none }, true)
  else (p, false)

/-- A new node, or 0. -/
def kvmemNewNode (p : KVMem) (aKey : Bytes) (mallocNode mallocChng : Bool) : KVMem × Ptr :=
  if mallocNode then
    let pNode := p.pFresh
    let p := { p with pFresh := pNode + 1
                      links := p.links.edit pNode fun _ => ⟨0, 0, 0, 0, 0⟩
                      rows := Function.update p.rows pNode ⟨none, 0, 1, aKey⟩ }
    let (p, bChng) := kvmemNewChng p pNode mallocChng
    if bChng then (p, pNode) else ({ p with freed := pNode :: p.freed }, 0)
  else (p, 0)

def kvmemRemoveNode (p : KVMem) (pOld : Ptr) : KVMem :=
  let p := p.setRow pOld fun r => { r with pData := none }
  let (links, pRoot) := removeLinks p.pFresh p.links pOld
  kvmemNodeUnref { p with links := links, pRoot := pRoot } pOld

/-! ### Transactions -/

def kvmemBegin (p : KVMem) (iLevel : ℕ) (malloc : Bool) : KVMem × Rc :=
  if 2 ≤ iLevel then
    if malloc then ({ p.setLog (iLevel - 2) [] with iTransLevel := iLevel }, .ok)
    else (p, .nomem)
  else ({ p with iTransLevel := iLevel }, .ok)

/-- What the final commit does with a record. -/
def commitRecord (p : KVMem) (pChng : KVMemChng) : KVMem :=
  if (p.rows pChng.pNode).pData.isSome then
    p.setRow pChng.pNode fun r => { r with mxTrans := pChng.oldTrans }
  else kvmemRemoveNode p pChng.pNode

/-- What a rollback does with a record. -/
def rollbackRecord (p : KVMem) (pChng : KVMemChng) : KVMem :=
  if pChng.pData.isSome ∨ 0 < pChng.oldTrans then
    p.setRow pChng.pNode fun r => { r with pData := pChng.pData, mxTrans := pChng.oldTrans }
  else kvmemRemoveNode p pChng.pNode

/-- The loop over the records of `apLog[i]`.  A record counts as out of the log from when it is
looked at, as it is freed at the end of its round. -/
def closeLog (f : KVMem → KVMemChng → KVMem) (i : ℕ) : List KVMemChng → KVMem → KVMem
  | [], p => p.setLog i []
  | pChng :: pNext, p => closeLog f i pNext (f (p.setLog i pNext) pChng)

/-- The records of the current level are handed to the one below. -/
def spliceLog (p : KVMem) : KVMem :=
  let iFrom := p.iTransLevel - 2
  let iTo := p.iTransLevel - 3
  let log := p.apLog iFrom
  let p := log.foldl (fun p pChng => p.setRow pChng.pNode fun r =>
    { r with mxTrans := toShort (p.iTransLevel - 1) }) p
  p.setLog iTo (log ++ p.apLog iTo)

/-- The end of a round of both loops over the levels: the log is empty, the level is left. -/
def leaveLevel (p : KVMem) (i : ℕ) : KVMem :=
  { p.setLog i [] with iTransLevel := p.iTransLevel - 1 }

/-- The loop of `kvmemCommitPhaseTwo`; the first argument bounds the number of rounds. -/
def commitLoop (iLevel : ℕ) : ℕ → KVMem → KVMem
  | 0, p => p
  | n + 1, p =>
      if iLevel < p.iTransLevel ∧ 1 < p.iTransLevel then
        let i := p.iTransLevel - 2
        let p := if iLevel < 2 then closeLog commitRecord i (p.apLog i) p else spliceLog p
        commitLoop iLevel n (leaveLevel p i)
      else p

def kvmemCommitPhaseTwo (p : KVMem) (iLevel : ℕ) : KVMem :=
  { commitLoop iLevel p.iTransLevel p with iTransLevel := iLevel }

/-- The loop of `kvmemRollback`. -/
def rollbackLoop (iLevel : ℕ) : ℕ → KVMem → KVMem
  | 0, p => p
  | n + 1, p =>
      if iLevel < p.iTransLevel ∧ 1 < p.iTransLevel then
        let i := p.iTransLevel - 2
        let p := closeLog rollbackRecord i (p.apLog i) p
        rollbackLoop iLevel n (leaveLevel p i)
      else p

def kvmemRollback (p : KVMem) (iLevel : ℕ) : KVMem :=
  { rollbackLoop iLevel p.iTransLevel p with iTransLevel := iLevel }

/-! ### Writing -/

/-- The search of `kvmemReplace` from a node on: the node with the key, or the one below which the
key belongs, with the side. -/
def findPlace : ℕ → KVMem → Bytes → Ptr → Ptr × Option Side
  | 0, _, _, pNode => (pNode, none)
  | n + 1, p, aKey, pNode =>
      let c := kvmemKeyCompare aKey (p.rows pNode).aKey
      if c < 0 then
        if (p.links pNode).pBefore ≠ 0 then findPlace n p aKey (p.links pNode).pBefore
        else (pNode, some .before)
      else if 0 < c then
        if (p.links pNode).pAfter ≠ 0 then findPlace n p aKey (p.links pNode).pAfter
        else (pNode, some .after)
      else (pNode, none)

/-- The new node gets its content, and the tree is balanced. -/
def placeNode (p : KVMem) (pNew : Ptr) (aData : Bytes) : KVMem :=
  let p := p.setRow pNew fun r => { r with pData := some aData }
  let links := p.links.edit pNew fun k => { k with height := 1 }
  let (links, pRoot) := kvmemBalance p.pFresh links pNew
  { p with links := links, pRoot := pRoot }

/-- `kvmemReplace`; `malloc i` says whether the call number `i` of `sqlite4_malloc` succeeds. -/
def kvmemReplace (p : KVMem) (aKey aData : Bytes) (malloc : ℕ → Bool) : KVMem × Rc :=
  if malloc 0 then
    if p.pRoot = 0 then
      let (p, pNew) := kvmemNewNode p aKey (malloc 1) (malloc 2)
      if pNew = 0 then (p, .nomem)
      else
        let p := { p with links := p.links.edit pNew fun k => k.setUp 0 }
        (placeNode p pNew aData, .ok)
    else
      match findPlace p.pFresh p aKey p.pRoot with
      | (pNode, some d) =>
          let (p, pNew) := kvmemNewNode p aKey (malloc 1) (malloc 2)
          let p := { p with links := p.links.edit pNode fun k => k.setChild d pNew }
          if pNew = 0 then (p, .nomem)
          else
            let p := { p with links := p.links.edit pNew fun k => k.setUp pNode }
            (placeNode p pNew aData, .ok)
      | (pNode, none) =>
          if (p.rows pNode).mxTrans ≠ p.iTransLevel then
            let (p, bChng) := kvmemNewChng p pNode (malloc 1)
            if bChng then (p.setRow pNode fun r => { r with pData := some aData }, .ok)
            else (p, .nomem)
          else (p.setRow pNode fun r => { r with pData := some aData }, .ok)
  else (p, .nomem)

/-! ### Cursors -/

def kvmemOpenCursor (p : KVMem) (malloc : Bool) : KVMem × Rc :=
  if malloc then ({ p with cursors := p.cursors ++ [⟨0, none⟩] }, .ok) else (p, .nomem)

/-- The cursor number `i`. -/
def KVMem.cursor (p : KVMem) (i : ℕ) : KVMemCursor := p.cursors.getD i ⟨0, none⟩

/-- `kvmemReset`, which is also what `kvmemCloseCursor` does to the nodes. -/
def kvmemReset (p : KVMem) (i : ℕ) : KVMem :=
  kvmemNodeUnref (p.setCursor i ⟨0, none⟩) (p.cursor i).pNode

/-- The loop of `kvmemNextEntry` and `kvmemPrevEntry`. -/
def skipDeleted (step : ℕ → Heap → Ptr → Ptr) : ℕ → KVMem → Ptr → Ptr
  | 0, _, _ => 0
  | n + 1, p, pNode =>
      let pNode := step p.pFresh p.links pNode
      if pNode ≠ 0 ∧ (p.rows pNode).pData = none then skipDeleted step n p pNode else pNode

/-- Point a cursor at a node. -/
def pointAt (p : KVMem) (i : ℕ) (pNode : Ptr) : KVMem :=
  (kvmemNodeRef p pNode).setCursor i ⟨pNode, (p.rows pNode).pData⟩

/-- `kvmemNextEntry` and `kvmemPrevEntry`, which differ in the step. -/
def moveEntry (step : ℕ → Heap → Ptr → Ptr) (p : KVMem) (i : ℕ) : KVMem × Rc :=
  let pNode := (p.cursor i).pNode
  let p := kvmemReset p i
  let pNode := skipDeleted step p.pFresh p pNode
  if pNode ≠ 0 then (pointAt p i pNode, .ok) else (p, .notfound)

def kvmemNextEntry (p : KVMem) (i : ℕ) : KVMem × Rc := moveEntry kvmemNext p i

def kvmemPrevEntry (p : KVMem) (i : ℕ) : KVMem × Rc := moveEntry kvmemPrev p i

/-- The loop of `kvmemSeek`, with `pNode`, `pBest` and `rc`. -/
def seekLoop (p : KVMem) (aKey : Bytes) (direction : ℤ) : ℕ → Ptr → Ptr × Rc → Ptr × Rc
  | 0, _, best => best
  | n + 1, pNode, best =>
      if pNode = 0 then best
      else
        let c := kvmemKeyCompare aKey (p.rows pNode).aKey
        if c = 0 then (pNode, .ok)
        else if 0 < c then
          seekLoop p aKey direction n (p.links pNode).pAfter
            (if direction < 0 then (pNode, .inexact) else best)
        else
          seekLoop p aKey direction n (p.links pNode).pBefore
            (if 0 < direction then (pNode, .inexact) else best)

def kvmemSeek (p : KVMem) (i : ℕ) (aKey : Bytes) (direction : ℤ) : KVMem × Rc :=
  let p := kvmemReset p i
  let (pBest, rc) := seekLoop p aKey direction p.pFresh p.pRoot (0, .notfound)
  if pBest ≠ 0 then
    let p := pointAt p i pBest
    if (p.rows pBest).pData = none then
      if direction = 0 then (p, .notfound)
      else
        let (p, rc) := if 0 < direction then kvmemNextEntry p i else kvmemPrevEntry p i
        (p, if rc ≠ .ok then .notfound else .inexact)
    else (p, rc)
  else (p, rc)

def kvmemDelete (p : KVMem) (i : ℕ) (malloc : Bool) : KVMem × Rc :=
  let pNode := (p.cursor i).pNode
  if pNode = 0 then (p, .ok)
  else if (p.rows pNode).pData = none then (p, .ok)
  else if (p.rows pNode).mxTrans < p.iTransLevel then
    let (p, bChng) := kvmemNewChng p pNode malloc
    (p, if bChng then .ok else .nomem)
  else (p.setRow pNode fun r => { r with pData := none }, .ok)

/-! ### Content -/

/-- The nodes of a tree in order. -/
def treeNodes : ℕ → Heap → Ptr → List Ptr
  | 0, _, _ => []
  | n + 1, h, p =>
      if p = 0 then [] else treeNodes n h (h p).pBefore ++ p :: treeNodes n h (h p).pAfter

/-- The rows that are not deleted. -/
def KVMem.content (p : KVMem) : List (Bytes × Bytes) :=
  (treeNodes p.pFresh p.links p.pRoot).filterMap fun x =>
    (p.rows x).pData.map fun d => ((p.rows x).aKey, d)

end KvMem

end MoVeBench
