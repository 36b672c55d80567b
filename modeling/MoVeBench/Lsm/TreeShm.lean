/-
MoVeBench/Lsm/TreeShm.lean

The in-memory tree in shared memory: nodes at addresses, with their versions.  The
operations are those of TreeNode to TreeEntry, which see trees by value and only the
working version; here it matters where a node is written.

An address is the sequence id of a chunk and an offset in it.  A chunk that is used
again gets a new id (`iNextShmid++`), so `treeShmalloc` takes ever greater addresses,
until a rollback takes `iWrite` and `iNextShmid` back to their values at the mark.
Allocations do not fail.  A zero pointer ends a descent: there is no node at zero.
-/
import MoVeBench.Lsm.TreeEntry

namespace MoVeBench

namespace Lsm

namespace Shm

/-! ### Nodes and memory -/

/-- `TreeNode`, and `TreeLeaf` with zero child pointers. -/
structure Node where
  aiKeyPtr : ℕ → ℕ
  aiChildPtr : ℕ → ℕ
  /-- The transaction number of the version 2 data, or zero. -/
  iV2 : ℕ
  iV2Child : ℕ
  iV2Ptr : ℕ

namespace Node

/-- A zeroed node. -/
def zero : Node := ⟨fun _ => 0, fun _ => 0, 0, 0, 0⟩

/-- The node whose arrays begin with these pointers. -/
def ofLists (aiKeyPtr aiChildPtr : List ℕ) : Node :=
  ⟨fun i => aiKeyPtr.getD i 0, fun i => aiChildPtr.getD i 0, 0, 0, 0⟩

def getChildPtr (p : Node) (iVersion iCell : ℕ) : ℕ :=
  if p.iV2 ≠ 0 ∧ p.iV2 ≤ iVersion ∧ iCell = p.iV2Child then p.iV2Ptr else p.aiChildPtr iCell

/-- `aiKeyPtr[i] = iKey`. -/
def setKey (p : Node) (i iKey : ℕ) : Node :=
  { p with aiKeyPtr := Function.update p.aiKeyPtr i iKey }

/-- `aiChildPtr[i] = iPtr`. -/
def setChild (p : Node) (i iPtr : ℕ) : Node :=
  { p with aiChildPtr := Function.update p.aiChildPtr i iPtr }

/-- The version 2 data is written. -/
def setV2 (p : Node) (iTransId i iPtr : ℕ) : Node :=
  { p with iV2 := iTransId, iV2Child := i, iV2Ptr := iPtr }

/-- The version 2 data is zeroed. -/
def clearV2 (p : Node) : Node := { p with iV2 := 0, iV2Child := 0, iV2Ptr := 0 }

end Node

open Node

open TreeNode (iSlot)

/-- What the chunks hold. -/
structure Mem where
  node : ℕ → Node
  key : ℕ → TreeKey

/-- `TreeRoot`, without `nByte`. -/
structure Root where
  iRoot : ℕ
  nHeight : ℕ
  iTransId : ℕ

/-- `TreeMark`; `iWrite` stands for `nChunk` and `iNextShmid` too. -/
structure Mark where
  iRoot : ℕ
  nHeight : ℕ
  iWrite : ℕ
  iRollback : ℕ

/-- The memory, and the `treehdr` of the connection that writes. -/
structure Db where
  mem : Mem
  root : Root
  oldroot : Root
  /-- `lsmTreeHasOld`. -/
  hasOld : Bool
  iWrite : ℕ
  rollback : List ℕ
  /-- The marks of `aTrans[]`, the innermost first. -/
  aTrans : List Mark
  bWriter : Bool

/-- `WORKING_VERSION`. -/
def WORKING_VERSION : ℕ := 2 ^ 30

/-- The working pointer `i`. -/
def Node.working (p : Node) (i : ℕ) : ℕ := p.getChildPtr WORKING_VERSION i

/-! ### Cursors -/

/-- The nodes `apTreeNode[iNode]` to `apTreeNode[0]`, with their cells. -/
abbrev Cursor := List (ℕ × ℕ)

/-- The tests of `lsmTreeCursorSeek` on a node: `iTest` and `res`. -/
def nodeTest (m : Mem) (beyond : ℕ → Byte) (pKey : Bytes) (p : Node) : ℕ × Ordering :=
  let cmp := fun iKey => compare (treeKeycmp ((m.key iKey).readKey beyond) pKey) 0
  if cmp (p.aiKeyPtr 1) = .eq then (1, .eq)
  else
    let iTest := if cmp (p.aiKeyPtr 1) = .gt then 0 else 2
    if p.aiKeyPtr iTest = 0 then (1, cmp (p.aiKeyPtr 1)) else (iTest, cmp (p.aiKeyPtr iTest))

/-- The loop of `lsmTreeCursorSeek`, at the node `iNodePtr` with `n` levels below it. -/
def seekFrom (m : Mem) (iTransId : ℕ) (beyond : ℕ → Byte) (pKey : Bytes) :
    ℕ → ℕ → Cursor → Cursor × Ordering
  | n, iNodePtr, csr =>
      let t := nodeTest m beyond pKey (m.node iNodePtr)
      match n with
      | 0 => ((iNodePtr, t.1) :: csr, t.2)
      | n + 1 =>
          let iNext := (m.node iNodePtr).getChildPtr iTransId (iSlot t)
          if t.2 = .eq ∨ iNext = 0 then ((iNodePtr, t.1) :: csr, t.2)
          else seekFrom m iTransId beyond pKey n iNext ((iNodePtr, iSlot t) :: csr)

def lsmTreeCursorSeek (m : Mem) (pRoot : Root) (beyond : ℕ → Byte) (pKey : Bytes) :
    Cursor × Ordering :=
  if pRoot.iRoot = 0 then ([], .lt)
  else seekFrom m pRoot.iTransId beyond pKey (pRoot.nHeight - 1) pRoot.iRoot []

/-- A descent of `n` levels from the current cell; `cell` says which cell of a node is
the next, given the levels below it. -/
def descend (m : Mem) (iTransId : ℕ) (cell : Node → ℕ → ℕ) : ℕ → Cursor → Cursor
  | 0, csr => csr
  | _ + 1, [] => []
  | n + 1, (p, i) :: up =>
      let iNodePtr := (m.node p).getChildPtr iTransId i
      if iNodePtr = 0 then (p, i) :: up
      else descend m iTransId cell n ((iNodePtr, cell (m.node iNodePtr) n) :: (p, i) :: up)

/-- The first cell of a node with a key. -/
def firstCell (p : Node) : ℕ := if p.aiKeyPtr 0 = 0 then 1 else 0

/-- The cell of the last key of a leaf, or of the last pointer of a node above. -/
def lastCell (p : Node) (n : ℕ) : ℕ :=
  1 + (if p.aiKeyPtr 2 ≠ 0 then 1 else 0) + if 0 < n then 1 else 0

/-- `lsmTreeCursorEnd`. -/
def lsmTreeCursorEnd (m : Mem) (pRoot : Root) (bLast : Bool) : Cursor :=
  if pRoot.iRoot = 0 then []
  else
    let cell := fun p n => if bLast then lastCell p n else firstCell p
    let n := pRoot.nHeight - 1
    descend m pRoot.iTransId cell n [(pRoot.iRoot, cell (m.node pRoot.iRoot) n)]

/-- Up to a node with a key at the cell that was followed. -/
def ascendNext (m : Mem) : Cursor → Cursor
  | [] => []
  | (p, i) :: up =>
      if i < 3 ∧ (m.node p).aiKeyPtr i ≠ 0 then (p, i) :: up else ascendNext m up

def lsmTreeCursorNext (m : Mem) (pRoot : Root) : Cursor → Cursor
  | [] => []
  | (p, i) :: up =>
      let iLeaf := pRoot.nHeight - 1
      if up.length < iLeaf ∧ (m.node p).getChildPtr pRoot.iTransId (i + 1) ≠ 0 then
        descend m pRoot.iTransId (fun p _ => firstCell p) (iLeaf - up.length) ((p, i + 1) :: up)
      else if 3 ≤ i + 1 ∨ (m.node p).aiKeyPtr (i + 1) = 0 then ascendNext m up
      else (p, i + 1) :: up

/-- Up to a node with a key left of the cell that was followed. -/
def ascendPrev (m : Mem) : Cursor → Cursor
  | [] => []
  | (p, i) :: up =>
      if 0 < i ∧ (m.node p).aiKeyPtr (i - 1) ≠ 0 then (p, i - 1) :: up else ascendPrev m up

def lsmTreeCursorPrev (m : Mem) (pRoot : Root) : Cursor → Cursor
  | [] => []
  | (p, i) :: up =>
      let iLeaf := pRoot.nHeight - 1
      if up.length < iLeaf ∧ (m.node p).getChildPtr pRoot.iTransId i ≠ 0 then
        descend m pRoot.iTransId lastCell (iLeaf - up.length) ((p, i) :: up)
      else ascendPrev m ((p, i) :: up)

/-- The address of the current key. -/
def csrKeyPtr (m : Mem) : Cursor → Option ℕ
  | [] => none
  | (p, i) :: _ => some ((m.node p).aiKeyPtr i)

/-- The cell of the current node. -/
def csrCell : Cursor → ℕ
  | [] => 0
  | (_, i) :: _ => i

/-- The address that the current cell points to, or the root. -/
def csrPtr (m : Mem) (pRoot : Root) : Cursor → ℕ
  | [] => pRoot.iRoot
  | (p, i) :: _ => (m.node p).getChildPtr pRoot.iTransId i

/-! ### Writing to the tree -/

namespace Db

/-- The node at an address is written. -/
def putNode (db : Db) (iPtr : ℕ) (p : Node) : Db :=
  { db with mem := { db.mem with node := Function.update db.mem.node iPtr p } }

end Db

/-- `newTreeNode`, `newTreeLeaf`, with the node as it is then filled. -/
def newTreeNode (db : Db) (p : Node) : Db × ℕ :=
  ({ db.putNode db.iWrite p with iWrite := db.iWrite + 1 }, db.iWrite)

/-- `newTreeKey`, with the entry as it is then filled.  There is no node at its address. -/
def newTreeKey (db : Db) (e : TreeKey) : Db × ℕ :=
  ({ db with
      mem :=
        { node := Function.update db.mem.node db.iWrite zero
          key := Function.update db.mem.key db.iWrite e }
      iWrite := db.iWrite + 1 }, db.iWrite)

/-- What `copyTreeNode` writes to the new node. -/
def copyTreeNode (p : Node) : Node :=
  { aiKeyPtr := p.aiKeyPtr
    aiChildPtr := if p.iV2 ≠ 0 then Function.update p.aiChildPtr p.iV2Child p.iV2Ptr
      else p.aiChildPtr
    iV2 := 0, iV2Child := 0, iV2Ptr := 0 }

/-- What `copyTreeLeaf` writes to the new leaf. -/
def copyTreeLeaf (p : Node) : Node := ⟨p.aiKeyPtr, fun _ => 0, 0, 0, 0⟩

def treeUpdatePtr : Cursor → Db → ℕ → Db
  | [], db, iNew => { db with root := { db.root with iRoot := iNew } }
  | (p, iChildPtr) :: up, db, iNew =>
      let pNode := db.mem.node p
      if pNode.iV2 ≠ 0 then
        let c := newTreeNode db ((copyTreeNode pNode).setChild iChildPtr iNew)
        treeUpdatePtr up c.1 c.2
      else
        { db.putNode p (pNode.setV2 db.root.iTransId iChildPtr iNew) with
          rollback := db.rollback ++ [csrPtr db.mem db.root up] }

/-- `iPtr ? iPtr : iOther`. -/
def orElse (iPtr iOther : ℕ) : ℕ := if iPtr ≠ 0 then iPtr else iOther

/-- The left or right half of a full node. -/
def halfNode (p : Node) (i : ℕ) : Node :=
  ofLists [0, p.aiKeyPtr i] [0, p.working i, p.working (i + 1)]

/-- A key at slot 0 of a half. -/
def insertLow (p : Node) (iLeftPtr iTreeKey iRightPtr : ℕ) : Node :=
  let q := (p.setKey 0 iTreeKey).setChild 0 iLeftPtr
  if iRightPtr ≠ 0 then q.setChild 1 iRightPtr else q

/-- A key at slot 2 of a half. -/
def insertHigh (p : Node) (iLeftPtr iTreeKey iRightPtr : ℕ) : Node :=
  ((p.setChild 3 (orElse iRightPtr (p.aiChildPtr 2))).setKey 2 iTreeKey).setChild 2 iLeftPtr

/-- The cells of a node that have a key, among `l`. -/
def cellsOf (p : Node) (l : List ℕ) : List ℕ := l.filter fun i => p.aiKeyPtr i ≠ 0

/-- A node with one more key. -/
def insertCell (p : Node) (iLeftPtr iTreeKey iRightPtr iSlot : ℕ) : Node :=
  let lo := cellsOf p (List.range iSlot)
  let hi := cellsOf p (List.range' iSlot (3 - iSlot))
  let iLast := p.working (if p.aiKeyPtr 2 ≠ 0 then 3 else 2)
  ofLists (lo.map p.aiKeyPtr ++ iTreeKey :: hi.map p.aiKeyPtr)
    (lo.map p.working ++ iLeftPtr ::
      match hi with
      | [] => [orElse iRightPtr iLast]
      | i :: is => orElse iRightPtr (p.working i) :: (is.map p.working ++ [iLast]))

/-- The `switch` of `treeInsert`: the key goes to one of the halves. -/
def putHalf (db : Db) (iLeft iRight : ℕ) (pLeft pRight : Node)
    (iLeftPtr iTreeKey iRightPtr : ℕ) : ℕ → Db
  | 0 => db.putNode iLeft (insertLow pLeft iLeftPtr iTreeKey iRightPtr)
  | 1 => db.putNode iLeft (insertHigh pLeft iLeftPtr iTreeKey iRightPtr)
  | 2 => db.putNode iRight (insertLow pRight iLeftPtr iTreeKey iRightPtr)
  | 3 => db.putNode iRight (insertHigh pRight iLeftPtr iTreeKey iRightPtr)
  | _ => db

/-- `treeInsert`, at the node that the cursor points to. -/
def treeInsert : Cursor → Db → (iLeftPtr iTreeKey iRightPtr iSlot : ℕ) → Db
  | [], db, _, _, _, _ => db
  | (p, _) :: up, db, iLeftPtr, iTreeKey, iRightPtr, iSlot =>
      let pNode := db.mem.node p
      if pNode.aiKeyPtr 0 ≠ 0 ∧ pNode.aiKeyPtr 2 ≠ 0 then
        -- a full node is split, and its middle key goes to the parent
        let pLeft := halfNode pNode 0
        let pRight := halfNode pNode 2
        let l := newTreeNode db pLeft
        let r := newTreeNode l.1 pRight
        let db' :=
          if up = [] then
            let iRoot := newTreeNode r.1 (ofLists [0, pNode.aiKeyPtr 1] [0, l.2, r.2])
            { iRoot.1 with
              root := { r.1.root with iRoot := iRoot.2, nHeight := r.1.root.nHeight + 1 } }
          else treeInsert up r.1 l.2 (pNode.aiKeyPtr 1) r.2 (csrCell up)
        putHalf db' l.2 r.2 pLeft pRight iLeftPtr iTreeKey iRightPtr iSlot
      else
        -- there is room: a copy of the node with the key
        let n := newTreeNode db (insertCell pNode iLeftPtr iTreeKey iRightPtr iSlot)
        treeUpdatePtr up n.1 n.2

/-- The two leaves that a full leaf is split into, with one more key. -/
def splitLeaf (pLeaf : Node) (iTreeKey : ℕ) : ℕ → Node × Node
  | 0 => (ofLists [iTreeKey, pLeaf.aiKeyPtr 0] [], ofLists [0, pLeaf.aiKeyPtr 2] [])
  | 1 => (ofLists [0, pLeaf.aiKeyPtr 0, iTreeKey] [], ofLists [0, pLeaf.aiKeyPtr 2] [])
  | 2 => (ofLists [0, pLeaf.aiKeyPtr 0] [], ofLists [iTreeKey, pLeaf.aiKeyPtr 2] [])
  | 3 => (ofLists [0, pLeaf.aiKeyPtr 0] [], ofLists [0, pLeaf.aiKeyPtr 2, iTreeKey] [])
  | _ => (ofLists [0, pLeaf.aiKeyPtr 0] [], ofLists [0, pLeaf.aiKeyPtr 2] [])

def treeInsertLeaf : Cursor → Db → (iTreeKey iSlot : ℕ) → Db
  | [], db, _, _ => db
  | (p, _) :: up, db, iTreeKey, iSlot =>
      let pLeaf := db.mem.node p
      if pLeaf.aiKeyPtr 0 ≠ 0 ∧ pLeaf.aiKeyPtr 2 ≠ 0 then
        let new := splitLeaf pLeaf iTreeKey iSlot
        let l := newTreeNode db new.1
        let r := newTreeNode l.1 new.2
        treeInsert up r.1 l.2 (pLeaf.aiKeyPtr 1) r.2 (csrCell up)
      else
        let lo := cellsOf pLeaf (List.range iSlot)
        let hi := cellsOf pLeaf (List.range' iSlot (3 - iSlot))
        let n := newTreeNode db
          (ofLists (lo.map pLeaf.aiKeyPtr ++ iTreeKey :: hi.map pLeaf.aiKeyPtr) [])
        treeUpdatePtr up n.1 n.2

/-- `treeOverwriteKey`. -/
def treeOverwriteKey : Cursor → Db → ℕ → Db
  | [], db, _ => db
  | (p, iCell) :: up, db, iKey =>
      let pNode := db.mem.node p
      let pCopy := if 0 < up.length ∧ up.length + 1 = db.root.nHeight then copyTreeLeaf pNode
        else copyTreeNode pNode
      let n := newTreeNode db (pCopy.setKey iCell iKey)
      treeUpdatePtr up n.1 n.2

/-- A node without the key at `iSlot`; `iNewptr` replaces the pointers beside it. -/
def removeCell (bLeaf bOne : Bool) (p : Node) (iSlot iNewptr : ℕ) : Node :=
  let keyAt := fun i => if i < 3 then p.aiKeyPtr i else 0
  if bLeaf || bOne then
    -- the loop skips the slot after `iSlot` with the key moved there
    let cells := fun i => if i = iSlot then [keyAt (i + 1)]
      else if i = iSlot + 1 ∨ keyAt i = 0 then [] else [keyAt i]
    let nBefore := (cellsOf p (List.range iSlot)).length
    let ptrs := if bLeaf then [] else List.replicate nBefore 0 ++ [iNewptr]
    ofLists (0 :: (List.range 4).flatMap cells) (0 :: ptrs)
  else
    let cells := fun i => if i = iSlot then [(keyAt (i + 1), iNewptr)]
      else if i = iSlot + 1 ∨ p.working i = 0 then [] else [(keyAt i, p.working i)]
    let l := (List.range 4).flatMap cells
    ofLists (0 :: l.map Prod.fst) (0 :: l.map Prod.snd)

/-- The children of a node above the leaves. -/
def childrenOf (bLeaf : Bool) (l : List ℕ) : List ℕ := if bLeaf then [] else l

/-- `pNew1` and `pNew2` of `treeDeleteEntry`, where the peer has keys to give away. -/
def borrowNodes (bLeaf bLeft : Bool) (pParent pPeer : Node) (iPSlot iNewptr : ℕ) : Node × Node :=
  if bLeft then
    (ofLists [0, pPeer.aiKeyPtr 0] (childrenOf bLeaf [0, pPeer.working 0, pPeer.working 1]),
      ofLists [pPeer.aiKeyPtr 2, pParent.aiKeyPtr (iPSlot - 1)]
        (childrenOf bLeaf [pPeer.working 2, pPeer.working 3, iNewptr]))
  else
    (ofLists [0, pParent.aiKeyPtr iPSlot] (childrenOf bLeaf [0, iNewptr, pPeer.working 0]),
      ofLists [pPeer.aiKeyPtr 1, pPeer.aiKeyPtr 2]
        (childrenOf bLeaf [pPeer.working 1, pPeer.working 2, pPeer.working 3]))

/-- `pNewP`, above both. -/
def borrowParent (bLeft : Bool) (pParent pPeer : Node) (iPSlot iNew1 iNew2 : ℕ) : Node :=
  if bLeft then
    (((copyTreeNode pParent).setChild (iPSlot - 1) iNew1).setKey (iPSlot - 1)
      (pPeer.aiKeyPtr 1)).setChild iPSlot iNew2
  else
    (((copyTreeNode pParent).setChild iPSlot iNew1).setKey iPSlot
      (pPeer.aiKeyPtr 0)).setChild (iPSlot + 1) iNew2

/-- `pNew1`, where the peer has one key: the node is merged into it. -/
def mergeNode (bLeaf bLeft : Bool) (pParent pPeer : Node) (iPSlot iNewptr : ℕ) : Node :=
  let ks := (cellsOf pPeer [0, 1, 2]).map pPeer.aiKeyPtr
  let cs := childrenOf bLeaf (([0, 1, 2, 3].map pPeer.working).filter fun c => c ≠ 0)
  if bLeft then
    ofLists (ks ++ [pParent.aiKeyPtr (iPSlot - 1)]) (cs ++ childrenOf bLeaf [iNewptr])
  else ofLists (pParent.aiKeyPtr iPSlot :: ks) (childrenOf bLeaf [iNewptr] ++ cs)

/-- `treeDeleteEntry`, at the slot `iSlot` of the node `p` below `up`. -/
def treeDeleteEntry : Cursor → Db → (p iSlot iNewptr : ℕ) → Db
  | up, db, p, iSlot, iNewptr =>
      let pNode := db.mem.node p
      let nHeight := db.root.nHeight
      let bLeaf : Bool := up.length + 1 = nHeight ∧ 1 < nHeight
      if pNode.aiKeyPtr 0 ≠ 0 ∨ pNode.aiKeyPtr 2 ≠ 0 then
        -- the node keeps at least one key
        let n := newTreeNode db (removeCell bLeaf (nHeight = 1) pNode iSlot iNewptr)
        treeUpdatePtr up n.1 n.2
      else match up with
        -- the root is empty: the tree loses a level
        | [] => { db with root := { db.root with iRoot := iNewptr, nHeight := nHeight - 1 } }
        | (q, iPSlot) :: up' =>
            let pParent := db.mem.node q
            let bLeft : Bool := 0 < iPSlot ∧ pParent.working (iPSlot - 1) ≠ 0
            let pPeer := db.mem.node
              (pParent.working (if bLeft then iPSlot - 1 else iPSlot + 1))
            if pPeer.aiKeyPtr 0 ≠ 0 ∧ pPeer.aiKeyPtr 2 ≠ 0 then
              -- the peer has three keys and gives one away
              let new := borrowNodes bLeaf bLeft pParent pPeer iPSlot iNewptr
              let n1 := newTreeNode db new.1
              let n2 := newTreeNode n1.1 new.2
              let nP := newTreeNode n2.1 (borrowParent bLeft pParent pPeer iPSlot n1.2 n2.2)
              treeUpdatePtr up' nP.1 nP.2
            else
              -- both become one node, and the parent loses a key
              let n1 := newTreeNode db (mergeNode bLeaf bLeft pParent pPeer iPSlot iNewptr)
              treeDeleteEntry up' n1.1 q (if bLeft then iPSlot - 1 else iPSlot) n1.2

/-! ### The operations -/

/-- `treePrevIsStartDelete`. -/
def treePrevIsStartDelete (m : Mem) : Cursor → Bool
  | [] => false
  | (p, i) :: up =>
      if 0 < i ∧ (m.node p).aiKeyPtr (i - 1) ≠ 0 then
        (m.key ((m.node p).aiKeyPtr (i - 1))).startDelete
      else treePrevIsStartDelete m up

/-- The loop of `treeNextIsEndDelete`, with `iCell` in the current node. -/
def nextIsEndDelete (m : Mem) : Cursor → Bool
  | [] => false
  | (p, iCell) :: up =>
      if iCell < 3 ∧ (m.node p).aiKeyPtr iCell ≠ 0 then
        (m.key ((m.node p).aiKeyPtr iCell)).endDelete
      else nextIsEndDelete m up

def treeNextIsEndDelete (m : Mem) : Cursor → Bool
  | [] => false
  | (p, i) :: up => nextIsEndDelete m ((p, i + 1) :: up)

/-- Whether a boundary need not be inserted: the range is already deleted there. -/
def boundaryExists (m : Mem) (f : EntryFlag) (csr : Cursor) (pRes : TreeKey) (res : Ordering) :
    Bool :=
  match f with
  | .startDelete =>
      (res ≠ .gt && pRes.startDelete) || (res = .gt && treePrevIsStartDelete m csr)
  | .endDelete => (res = .lt && treeNextIsEndDelete m csr) || (res ≠ .lt && pRes.endDelete)
  | _ => false

/-- `treeInsertEntry`; `iOff` is where in a chunk the next allocation goes. -/
def treeInsertEntry (beyond : ℕ → Byte) (iOff : ℕ) (f : EntryFlag) (pKey : Bytes) (db : Db) : Db :=
  if db.root.iRoot = 0 then
    let k := newTreeKey db (Lsm.newTreeKey iOff pKey f.data f.isStart f.isEnd false)
    let n := newTreeNode k.1 (ofLists [0, k.2] [])
    { n.1 with root := { n.1.root with iRoot := n.2, nHeight := 1 } }
  else
    let c := lsmTreeCursorSeek db.mem db.root beyond pKey
    match csrKeyPtr db.mem c.1 with
    | none => db
    | some iRes =>
        let pRes := (db.mem.key iRes).read beyond
        -- the range is deleted there already
        if boundaryExists db.mem f c.1 pRes c.2 then db
        else
          let k := newTreeKey db (entryAt iOff f pKey pRes c.2)
          if c.2 = .eq then treeOverwriteKey c.1 k.1 k.2
          else if c.1.length = 1 then treeInsert c.1 k.1 0 k.2 0 (iSlot (csrCell c.1, c.2))
          else treeInsertLeaf c.1 k.1 k.2 (iSlot (csrCell c.1, c.2))

def lsmTreeInsert (beyond : ℕ → Byte) (iOff : ℕ) (pKey : Bytes) (pVal : Option Bytes) (db : Db) :
    Db := treeInsertEntry beyond iOff (.ofValue pVal) pKey db

/-- `treeDeleteEntry` at a cursor. -/
def treeDeleteAt (db : Db) : Cursor → Db
  | [] => db
  | (p, i) :: up => treeDeleteEntry up db p i 0

/-- One turn of the loop of `lsmTreeDelete`, at the entry to delete. -/
def treeDeleteCurrent (beyond : ℕ → Byte) (db : Db) (csr : Cursor) : Db :=
  if csr.length = db.root.nHeight then treeDeleteAt db csr
  else
    -- the next entry, on a leaf, takes the place of this one and is deleted there
    match csrKeyPtr db.mem (lsmTreeCursorNext db.mem db.root csr) with
    | none => db
    | some iKey =>
        let db' := treeOverwriteKey
          (lsmTreeCursorPrev db.mem db.root (lsmTreeCursorNext db.mem db.root csr)) db iKey
        let c := lsmTreeCursorSeek db'.mem db'.root beyond (db'.mem.key iKey).pKey
        treeDeleteAt db' (lsmTreeCursorNext db'.mem db'.root c.1)

/-- The first cursor position after `pKey1`, of `lsmTreeDelete`. -/
def seekAfter (beyond : ℕ → Byte) (pKey1 : Bytes) (db : Db) : Cursor :=
  let c := lsmTreeCursorSeek db.mem db.root beyond pKey1
  if c.2 ≠ .gt then lsmTreeCursorNext db.mem db.root c.1 else c.1

/-- Step 1 of `lsmTreeDelete`, in `n` turns of its loop at most. -/
def treeDeleteRange (beyond : ℕ → Byte) (pKey1 pKey2 : Bytes) : ℕ → Db → Option Db
  | 0, _ => none
  | n + 1, db =>
      match csrKeyPtr db.mem (seekAfter beyond pKey1 db) with
      | none => some db
      | some iKey =>
          if (db.mem.key iKey).readKey beyond < pKey2 then
            treeDeleteRange beyond pKey1 pKey2 n
              (treeDeleteCurrent beyond db (seekAfter beyond pKey1 db))
          else some db

/-- `lsmTreeDelete`, if its loop ends in `n` turns. -/
def lsmTreeDelete (beyond : ℕ → Byte) (iOff1 iOff2 : ℕ) (pKey1 pKey2 : Bytes) (n : ℕ) (db : Db) :
    Option Db :=
  (treeDeleteRange beyond pKey1 pKey2 n db).map fun db =>
    treeInsertEntry beyond iOff2 .endDelete pKey2
      (treeInsertEntry beyond iOff1 .startDelete pKey1 db)

def lsmTreeMark (db : Db) : Mark :=
  ⟨db.root.iRoot, db.root.nHeight, db.iWrite, db.rollback.length⟩

def lsmTreeRollback (db : Db) (pMark : Mark) : Db :=
  { db with
    mem := { db.mem with
      node := fun iPtr =>
        if iPtr ∈ db.rollback.drop pMark.iRollback then (db.mem.node iPtr).clearV2
        else db.mem.node iPtr }
    rollback := db.rollback.take pMark.iRollback
    root := { db.root with iRoot := pMark.iRoot, nHeight := pMark.nHeight }
    iWrite := pMark.iWrite }

def lsmTreeMakeOld (db : Db) : Db :=
  if db.hasOld then db else { db with oldroot := db.root, hasOld := true, root := ⟨0, 0, 1⟩ }

/-- `lsmTreeEndTransaction`.  From here on the header is the one that readers load. -/
def lsmTreeEndTransaction (db : Db) : Db :=
  { db with rollback := [], aTrans := [], bWriter := false }

/-! ### Runs -/

/-- What a writer does. -/
inductive Op
  /-- `lsmBeginWriteTrans`, with `lsmTreeDiscardOld` or without. -/
  | begin (bDiscardOld : Bool)
  /-- The mark of one more level, in `lsm_begin`. -/
  | mark
  | insert (beyond : ℕ → Byte) (iOff : ℕ) (pKey : Bytes) (pVal : Option Bytes)
  /-- `lsmTreeDelete` with a loop of at most `n` turns. -/
  | delete (beyond : ℕ → Byte) (iOff1 iOff2 : ℕ) (pKey1 pKey2 : Bytes) (n : ℕ)
  /-- `lsm_commit` of the innermost `n` levels, that leaves the transaction open. -/
  | release (n : ℕ)
  /-- `lsm_rollback` to the mark of a level, with `n` levels above it. -/
  | rollback (n : ℕ)
  /-- `lsmFinishWriteTrans`, after a commit or after the rollback of all levels. -/
  | finish (bFlush : Bool)

/-- One operation.  All but the first need an open transaction. -/
def step (db : Db) : Op → Option Db
  | .begin bDiscardOld =>
      if db.bWriter then none
      else some { db with
        root := { db.root with iTransId := db.root.iTransId + 1 }
        hasOld := db.hasOld && !bDiscardOld
        bWriter := true }
  | .mark => if db.bWriter then some { db with aTrans := lsmTreeMark db :: db.aTrans } else none
  | .insert beyond iOff pKey pVal =>
      if db.bWriter then some (lsmTreeInsert beyond iOff pKey pVal db) else none
  | .delete beyond iOff1 iOff2 pKey1 pKey2 n =>
      if db.bWriter then lsmTreeDelete beyond iOff1 iOff2 pKey1 pKey2 n db else none
  | .release n => if db.bWriter then some { db with aTrans := db.aTrans.drop n } else none
  | .rollback n =>
      if db.bWriter then
        match db.aTrans.drop n with
        | [] => none
        | pMark :: aTrans => some { lsmTreeRollback db pMark with aTrans := pMark :: aTrans }
      else none
  | .finish bFlush =>
      if db.bWriter then
        some (lsmTreeEndTransaction (if bFlush then lsmTreeMakeOld db else db))
      else none

/-- `lsmTreeInit`. -/
def init (key : ℕ → TreeKey) : Db :=
  { mem := ⟨fun _ => zero, key⟩, root := ⟨0, 0, 1⟩, oldroot := ⟨0, 0, 0⟩, hasOld := false
    iWrite := 1, rollback := [], aTrans := [], bWriter := false }

/-! ### Readers -/

/-- What a reader does with a cursor. -/
inductive CsrOp
  | first
  | last
  | next
  | prev
  | seek (pKey : Bytes)

/-- The cursor after an operation, with the transaction number of the reader's root. -/
def csrStep (beyond : ℕ → Byte) (m : Mem) (pRoot : Root) (csr : Cursor) : CsrOp → Cursor
  | .first => lsmTreeCursorEnd m pRoot false
  | .last => lsmTreeCursorEnd m pRoot true
  | .next => lsmTreeCursorNext m pRoot csr
  | .prev => lsmTreeCursorPrev m pRoot csr
  | .seek pKey => (lsmTreeCursorSeek m pRoot beyond pKey).1

/-- The entries that a cursor is at, after each of some operations. -/
def csrRun (beyond : ℕ → Byte) (m : Mem) (pRoot : Root) :
    Cursor → List CsrOp → List (Option TreeKey)
  | _, [] => []
  | csr, op :: ops =>
      let csr' := csrStep beyond m pRoot csr op
      (csrKeyPtr m csr').map m.key :: csrRun beyond m pRoot csr' ops

end Shm

end Lsm

end MoVeBench
