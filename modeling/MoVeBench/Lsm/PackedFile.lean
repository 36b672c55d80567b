/-
MoVeBench/Lsm/PackedFile.lean

The file of a compressed database (`lsm_file.c`).

A page number is the offset of a record in the file.  The records of a segment follow one another
in the blocks of the segment; a block begins with the number of the block before it and ends with
the number of the block behind it.  A record is a compressed page between two copies of its size,
or the padding of a sector, which has a shorter form when it has less than six bytes.

The model has neither errors of the disk nor those of the memory.
-/
import MoVeBench.Lib.Extents
import MoVeBench.Lsm.Redirect
import MoVeBench.Lsm.SegmentFile

namespace MoVeBench

namespace Lsm.Packed

open Bytes Extents

structure FileSystem extends Seg.FileSystem where
  szSector : ℕ

structure Segment where
  iFirst : ℤ
  iLastPg : ℤ
  nSize : ℤ
  pRedirect : List (ℕ × ℕ)

/-- What a worker changes: the file, the segment it writes, the append points, and the number of
blocks that it has had from the allocator. -/
structure Worker where
  disk : ℤ → UInt8
  seg : Segment
  aiAppend : List ℤ
  nAlloc : ℕ

variable (pFS : FileSystem)

/-! ### Blocks -/

def fsFirstPageOnBlock (iBlock : ℤ) : ℤ :=
  if iBlock = 1 then (Seg.LSM_META_PAGE_SIZE : ℤ) * 2 + 4 else pFS.nBlocksize * (iBlock - 1) + 4

def fsLastPageOnBlock (iBlock : ℤ) : ℤ := pFS.nBlocksize * iBlock - 1 - 4

def fsPageToBlock (iPg : ℤ) : ℤ := iPg.tdiv pFS.nBlocksize + 1

/-- `(int)lsmGetU32`. -/
def lsmGetU32 (a : List UInt8) : ℤ := (fromBe a : ℤ).bmod (2 ^ 32)

/-- `lsmPutU32`. -/
def lsmPutU32 (x : ℤ) : List UInt8 := beBytes 4 x.toNat

variable (disk : ℤ → UInt8) (pRedir : List (ℕ × ℕ))

/-- `fsBlockNext`.  No segment, like a segment without redirections, is the empty list. -/
def fsBlockNext (iBlock : ℤ) : ℤ :=
  let iRead := fsRedirectBlock pRedir iBlock
  fsRedirectBlock pRedir (lsmGetU32 (readAt disk (iRead * pFS.nBlocksize - 4) 4))

def fsBlockPrev (iBlock : ℤ) : ℤ :=
  fsRedirectBlock pRedir
    (lsmGetU32 (readAt disk (fsFirstPageOnBlock pFS iBlock - 4) 4))

def fsReadData (iOff : ℤ) (nData : ℤ) : List UInt8 :=
  let iEob := fsLastPageOnBlock pFS (fsPageToBlock pFS iOff) + 1
  let nRead := min (iEob - iOff) nData
  let aData := readAt disk iOff nRead.toNat
  if nRead ≠ nData then
    let iBlk := fsBlockNext pFS disk pRedir (fsPageToBlock pFS iOff)
    aData ++ readAt disk (fsFirstPageOnBlock pFS iBlk) (nData - nRead).toNat
  else aData

def fsSubtractOffset (iOff iSub : ℤ) : ℤ :=
  let iStart := fsFirstPageOnBlock pFS (fsPageToBlock pFS iOff)
  if iStart ≤ iOff - iSub then iOff - iSub
  else
    let iBlk := fsBlockPrev pFS disk pRedir (fsPageToBlock pFS iOff)
    fsLastPageOnBlock pFS iBlk - iSub + (iOff - iStart + 1)

def fsAddOffset (iOff iAdd : ℤ) : ℤ :=
  let iEob := fsLastPageOnBlock pFS (fsPageToBlock pFS iOff)
  if iOff + iAdd ≤ iEob then iOff + iAdd
  else
    let iBlk := fsBlockNext pFS disk pRedir (fsPageToBlock pFS iOff)
    fsFirstPageOnBlock pFS iBlk + iAdd - (iEob - iOff + 1)

/-! ### Sizes of records -/

def putRecordSize (nByte : ℕ) (bFree : Bool) : List UInt8 :=
  [.ofNat (nByte >>> 14) ||| 0x80,
    (.ofNat (nByte >>> 7) &&& 0x7F) ||| (if bFree then 0x00 else 0x80),
    .ofNat nByte ||| 0x80]

/-- The size and the flag for free space. -/
def getRecordSize (aBuf : List UInt8) : ℕ × Bool :=
  let a (i : ℕ) : UInt8 := aBuf.getD i 0
  ((a 0 &&& 0x7F).toNat <<< 14 + (a 1 &&& 0x7F).toNat <<< 7 + (a 2 &&& 0x7F).toNat,
    a 1 &&& 0x80 == 0)

/-- A record as a reader finds it: the compressed page, or the number of free bytes. -/
inductive Rec where
  | page (aData : List UInt8)
  | space (nSpace : ℕ)

/-- `fsReadPagedata`, as far as the image of the page is decompressed. -/
def fsReadPagedata (iOff : ℤ) : Rec :=
  let aSz := fsReadData pFS disk pRedir iOff 3
  if aSz.getD 0 0 &&& 0x80 ≠ 0 then
    let (nCompress, bFree) := getRecordSize aSz
    if bFree then .space (nCompress + 3 * 2)
    else .page (fsReadData pFS disk pRedir (fsAddOffset pFS disk pRedir iOff 3) nCompress)
  else .space (aSz.getD 0 0).toNat

/-- The size of a record with all headers, `pPg->nCompress + 2*3` or `nSpace`. -/
def Rec.size : Rec → ℕ
  | .page aData => aData.length + 2 * 3
  | .space nSpace => nSpace

/-! ### From record to record -/

/-- `fsNextPageOffset`: 0 behind the last record. -/
def fsNextPageOffset (pSeg : Segment) (iPg : ℤ) (nByte : ℤ) : ℤ :=
  let iNext := fsAddOffset pFS disk pSeg.pRedirect iPg (nByte - 1)
  if iNext = pSeg.iLastPg then 0 else fsAddOffset pFS disk pSeg.pRedirect iNext 1

def fsGetPageBefore (pSeg : Segment) (iPg : ℤ) : ℤ :=
  let iRead := fsSubtractOffset pFS disk pSeg.pRedirect iPg 3
  let aSz := fsReadData pFS disk pSeg.pRedirect iRead 3
  let nSz := if aSz.getD 2 0 &&& 0x80 ≠ 0 then (getRecordSize aSz).1 + 3 * 2
    else (aSz.getD 2 0 &&& 0x7F).toNat
  fsSubtractOffset pFS disk pSeg.pRedirect iPg nSz

/-- The offsets of up to `n` records from `iPg` on, with `fsNextPageOffset`. -/
def stepsForward (pSeg : Segment) : ℕ → ℤ → List ℤ
  | 0, _ => []
  | n + 1, iPg =>
      let nByte := (fsReadPagedata pFS disk pSeg.pRedirect iPg).size
      let iNext := fsNextPageOffset pFS disk pSeg iPg nByte
      iPg :: if iNext = 0 then [] else stepsForward pSeg n iNext

/-- The offsets of up to `n` records in front of `iPg`, with `fsGetPageBefore`, as far as the first
one of the segment. -/
def stepsBackward (pSeg : Segment) : ℕ → ℤ → List ℤ
  | 0, _ => []
  | n + 1, iPg =>
      let iPrev := fsGetPageBefore pFS disk pSeg iPg
      iPrev :: if iPrev = pSeg.iFirst then [] else stepsBackward pSeg n iPrev

/-! ### Appending -/

/-- `findAppendPoint` without a level: the last append point, which is taken out, or 0. -/
def findAppendPoint : List ℤ → ℤ × List ℤ
  | [] => (0, [])
  | i :: aiAppend =>
      let (iRet, aiAppend') := findAppendPoint aiAppend
      if iRet ≠ 0 then (iRet, i :: aiAppend') else (i, 0 :: aiAppend')

variable (alloc : ℕ → ℤ)

/-- The first part of `fsAppendData`: where the data go.  `alloc n` is the block that
`lsmBlockAllocate` hands out next. -/
def appendPoint (w : Worker) : Worker × ℤ :=
  let iApp := w.seg.iLastPg + 1
  if iApp = 1 then
    let (iApp, aiAppend) := findAppendPoint w.aiAppend
    if iApp = 0 then
      let iApp := fsFirstPageOnBlock pFS (alloc w.nAlloc)
      ({ w with seg.iFirst := iApp, aiAppend, nAlloc := w.nAlloc + 1 }, iApp)
    else ({ w with seg.iFirst := iApp, aiAppend }, iApp)
  else (w, iApp)

/-- The second part of `fsAppendData`, with the offset that it returns. -/
def appendAt (w : Worker) (iApp : ℤ) (aData : List UInt8) : Worker × ℤ :=
  let iLastOnBlock := fsLastPageOnBlock pFS (fsPageToBlock pFS iApp)
  let nWrite := (min (aData.length : ℤ) (iLastOnBlock - iApp + 1)).toNat
  let nRem := aData.length - nWrite
  let disk := writeAt w.disk iApp (aData.take nWrite)
  let iEnd := iApp + nWrite
  if iEnd - 1 = iLastOnBlock then
    if 0 < nWrite then
      let iBlk := alloc w.nAlloc
      let disk := writeAt disk iEnd (lsmPutU32 iBlk)
      let iWrite := fsFirstPageOnBlock pFS iBlk
      let disk := writeAt disk (iWrite - 4) (lsmPutU32 (fsPageToBlock pFS iEnd))
      let iEnd := if 0 < nRem then iWrite else iEnd
      let disk := writeAt disk iEnd (aData.drop nWrite)
      ({ w with disk, seg.iLastPg := iEnd + nRem - 1, nAlloc := w.nAlloc + 1 }, iApp)
    else
      -- The next block is already allocated.
      let iBlk := fsBlockNext pFS disk [] (fsPageToBlock pFS iEnd)
      let iApp := fsFirstPageOnBlock pFS iBlk
      let disk := writeAt disk iApp (aData.drop nWrite)
      ({ w with disk, seg.iLastPg := iApp + nRem - 1 }, iApp)
  else ({ w with disk, seg.iLastPg := iEnd - 1 }, iApp)

def fsAppendData (w : Worker) (aData : List UInt8) : Worker × ℤ :=
  let (w, iApp) := appendPoint pFS alloc w
  appendAt pFS alloc w iApp aData

/-- Three calls of `fsAppendData`: a size, the data, and the size again.  The offset is that of the
first call. -/
def appendSized (w : Worker) (aSz aData : List UInt8) : Worker × ℤ :=
  let (w, iPg) := fsAppendData pFS alloc w aSz
  let w := (fsAppendData pFS alloc w aData).1
  ((fsAppendData pFS alloc w aSz).1, iPg)

/-- `lsmFsPagePersist` for a page whose compressed image is `aOBuffer`. -/
def lsmFsPagePersist (w : Worker) (aOBuffer : List UInt8) : Worker × ℤ :=
  let (w, iPg) := appendSized pFS alloc w (putRecordSize aOBuffer.length false) aOBuffer
  ({ w with seg.nSize := w.seg.nSize + 3 * 2 + aOBuffer.length }, iPg)

/-- The number of bytes that `lsmFsSortedPadding` appends. -/
def padding (pSeg : Segment) : ℤ :=
  let iLast := pSeg.iLastPg
  let iLast2 := (1 + iLast.tdiv pFS.szSector) * pFS.szSector - 1
  let nPad := iLast2 - iLast
  if fsLastPageOnBlock pFS (fsPageToBlock pFS iLast) < iLast2 then nPad - 4 else nPad

/-- The short form of padding: the first and the last byte are the size. -/
def shortPadding (nPad : ℕ) : List UInt8 :=
  ((List.replicate nPad 0).set 0 (.ofNat nPad)).set (nPad - 1) (.ofNat nPad)

/-- `lsmFsSortedPadding`, with the offset of the padding record, if there is one. -/
def lsmFsSortedPadding (w : Worker) : Worker × Option ℤ :=
  let nPad := padding pFS w.seg
  if 6 ≤ nPad then
    let w := { w with seg.nSize := w.seg.nSize + nPad }
    let n := (nPad - 6).toNat
    let (w, iPg) := appendSized pFS alloc w (putRecordSize n true) (.replicate n 0)
    (w, some iPg)
  else if 0 < nPad then
    let (w, iPg) := fsAppendData pFS alloc w (shortPadding nPad.toNat)
    (w, some iPg)
  else (w, none)

/-! ### Runs -/

/-- What is appended to a segment: a page with its compressed image, or the padding. -/
inductive Op where
  | page (aOBuffer : List UInt8)
  | padding

/-- A step, with the record that it appends and its offset. -/
def step (w : Worker) : Op → Worker × List (ℤ × Rec)
  | .page aOBuffer =>
      let (w', iPg) := lsmFsPagePersist pFS alloc w aOBuffer
      (w', [(iPg, .page aOBuffer)])
  | .padding =>
      let (w', iPg) := lsmFsSortedPadding pFS alloc w
      (w', iPg.toList.map fun iPg => (iPg, .space (padding pFS w.seg).toNat))

def run (w : Worker) : List Op → Worker × List (ℤ × Rec)
  | [] => (w, [])
  | op :: ops =>
      let (w', recs) := step pFS alloc w op
      let (w'', recs') := run w' ops
      (w'', recs ++ recs')

end Lsm.Packed

end MoVeBench
