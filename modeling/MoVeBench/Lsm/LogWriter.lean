/-
MoVeBench/Lsm/LogWriter.lean

How log records are written (`LogWriter` of `lsm_log.c`).

Records gather in a buffer, which goes to the file when a checksum is due: in a record that
carries one, in a commit record, and where the writer has to jump over a region of the file
that is still in use.  A mark (`lsmLogTell`) remembers an offset, the checksum there, and the
few bytes before it that the checksum has not taken in, so that the writer can go back to it
(`lsmLogSeek`).
-/
import MoVeBench.Lsm.LogReader
import MoVeBench.Lsm.SegmentPage

namespace MoVeBench

namespace Lsm.Log

open Bytes Seg

/-- A region of the log file. -/
structure LogRegion where
  /-- Start of region. -/
  iStart : ℕ := 0
  /-- End of region. -/
  iEnd : ℕ := 0
  deriving DecidableEq, Repr

structure LogWriter where
  cksum : Cksum
  /-- Bytes of buf that have been checksummed. -/
  iCksumBuf : ℕ := 0
  /-- Offset at start of buffer buf. -/
  iOff : ℕ
  /-- Sector size for this transaction. -/
  szSector : ℕ := 1
  /-- Avoid writing to this region. -/
  jump : LogRegion := {}
  /-- End of first region written by trans. -/
  iRegion1End : ℕ := 0
  /-- Start of second regions written by trans. -/
  iRegion2Start : ℕ := 0
  /-- Buffer containing data not yet written. -/
  buf : List UInt8 := []
  deriving DecidableEq, Repr

/-- The offset that is written next. -/
def LogWriter.end (pLog : LogWriter) : ℕ := pLog.iOff + pLog.buf.length

structure LogMark where
  iOff : ℕ
  cksum : Cksum
  aBuf : List UInt8
  deriving DecidableEq, Repr

/-! ### Writing -/

/-- `lsmFsWriteLog`: the file grows where needed. -/
def lsmFsWriteLog (f : LogFile) (iOff : ℕ) (data : List UInt8) : LogFile :=
  writeBytes (f ++ List.replicate (iOff + data.length - f.length) 0) iOff data

/-- `logUpdateCksum`. -/
def logUpdateCksum (pLog : LogWriter) (nBuf : ℕ) : LogWriter :=
  { pLog with
    cksum := if pLog.iCksumBuf < nBuf then
        logCksumUnaligned (readBytes pLog.buf pLog.iCksumBuf (nBuf - pLog.iCksumBuf)) pLog.cksum
      else pLog.cksum
    iCksumBuf := nBuf }

/-- A JUMP record. -/
def jumpRecord (iJump : ℕ) : List UInt8 := LSM_LOG_JUMP :: lsmVarintPut64 iJump

/-- Padding of up to seven bytes. -/
def padding (nPad : ℕ) : List UInt8 :=
  if nPad = 0 then []
  else if nPad = 1 then [LSM_LOG_PAD1]
  else LSM_LOG_PAD2 :: .ofNat (nPad - 2) :: List.replicate (nPad - 2) 0

/-- There is not enough room in front of the jump region. -/
def LogWriter.MustJump (pLog : LogWriter) (nReq : ℕ) : Prop :=
  pLog.end < pLog.jump.iStart ∧ pLog.jump.iStart < pLog.end + (nReq + 17)

instance (pLog : LogWriter) (nReq : ℕ) : Decidable (pLog.MustJump nReq) :=
  inferInstanceAs (Decidable (_ ∧ _))

/-- The buffer with the padding and the JUMP record behind it. -/
def LogWriter.jumpBuf (pLog : LogWriter) : List UInt8 :=
  let aJump := jumpRecord (pLog.jump.iEnd + 1)
  let nPad := (pLog.buf.length + aJump.length) % 8
  pLog.buf ++ padding (if nPad = 0 then 0 else 8 - nPad) ++ aJump

/-- `jumpIfRequired`: the file, the writer, and whether it has jumped. -/
def jumpIfRequired (f : LogFile) (pLog : LogWriter) (nReq : ℕ) : LogFile × LogWriter × Bool :=
  if pLog.MustJump nReq then
    let iJump := pLog.jump.iEnd + 1
    let buf := pLog.jumpBuf
    (lsmFsWriteLog f pLog.iOff buf,
      { logUpdateCksum { pLog with buf := buf } buf.length with
        iRegion1End := pLog.iOff + buf.length
        iRegion2Start := iJump
        iOff := iJump
        iCksumBuf := 0
        buf := [] },
      true)
  else (f, pLog, false)

/-- `lsmPutU32`. -/
def lsmPutU32 (x : UInt32) : List UInt8 := beBytes 4 x.toNat

/-- `logCksumAndFlush`. -/
def logCksumAndFlush (f : LogFile) (pLog : LogWriter) : LogFile × LogWriter :=
  let pLog := logUpdateCksum pLog pLog.buf.length
  let buf := pLog.buf ++ lsmPutU32 pLog.cksum.1 ++ lsmPutU32 pLog.cksum.2
  (lsmFsWriteLog f pLog.iOff buf,
    { pLog with iOff := pLog.iOff + buf.length, iCksumBuf := 0, buf := [] })

/-- The padding in front of a commit record. -/
def sectorPadding : ℕ → ℕ → List UInt8
  | 0, _ => []
  | fuel + 1, nPad =>
      if nPad = 0 then []
      else if nPad = 1 then [LSM_LOG_PAD1]
      else
        let n := min 200 (nPad - 2)
        LSM_LOG_PAD2 :: .ofNat n :: (List.replicate n 0x2B ++ sectorPadding fuel (nPad - 2 - n))

/-- How much padding makes a commit record end with a sector. -/
def LogWriter.nPad (pLog : LogWriter) : ℕ :=
  if pLog.szSector ≤ 1 then 0
  else
    let n := (pLog.end + 9) % pLog.szSector
    if n = 0 then 0 else pLog.szSector - n

/-- `lsmLogCommit`, which is `logFlush` of a commit record. -/
def lsmLogCommit (f : LogFile) (pLog : LogWriter) : LogFile × LogWriter :=
  let nReq := 9 + if 1 < pLog.szSector then pLog.szSector + 17 else 0
  let (f, pLog, _) := jumpIfRequired f pLog nReq
  logCksumAndFlush f { pLog with
    buf := pLog.buf ++ sectorPadding pLog.nPad pLog.nPad ++ [LSM_LOG_COMMIT] }

/-- What is written: a key, and a value unless the key is deleted. -/
structure Write where
  key : List UInt8
  val : Option (List UInt8)
  deriving DecidableEq, Repr

/-- The type byte and the lengths of a record. -/
def Write.header (r : Write) (bCksum : Bool) : List UInt8 :=
  match r.val with
  | none => (if bCksum then LSM_LOG_DELETE_CKSUM else LSM_LOG_DELETE) :: lsmVarintPut32 r.key.length
  | some val => (if bCksum then LSM_LOG_WRITE_CKSUM else LSM_LOG_WRITE) ::
      (lsmVarintPut32 r.key.length ++ lsmVarintPut32 val.length)

/-- The key and the value of a record. -/
def Write.data (r : Write) : List UInt8 := r.key ++ r.val.getD []

/-- The room that a record takes with a checksum. -/
def Write.nReq (r : Write) : ℕ := (r.header true).length + 8 + r.data.length

/-- `lsmLogWrite`. -/
def lsmLogWrite (f : LogFile) (pLog : LogWriter) (r : Write) : LogFile × LogWriter :=
  let (f, pLog, bJump) := jumpIfRequired f pLog r.nReq
  let bCksum := bJump || decide (LSM_CKSUM_MAXDATA < pLog.buf.length + r.nReq)
  let pLog := { pLog with buf := pLog.buf ++ r.header bCksum }
  let (f, pLog) := if bCksum = true then logCksumAndFlush f pLog else (f, pLog)
  (f, { pLog with buf := pLog.buf ++ r.data })

/-! ### Marks -/

/-- `lsmLogTell`: the writer and the mark. -/
def lsmLogTell (pLog : LogWriter) : LogWriter × LogMark :=
  let nCksum := pLog.buf.length / 8 * 8
  let pLog := logUpdateCksum pLog nCksum
  (pLog, { iOff := pLog.end, cksum := pLog.cksum, aBuf := pLog.buf.drop nCksum })

/-- `lsmLogSeek`.  The mask keeps the lower 32 bits of the offset only. -/
def lsmLogSeek (pLog : LogWriter) (pMark : LogMark) : LogWriter :=
  let pLog :=
    if pLog.iOff ≤ pMark.iOff &&& 0xFFFFFFF8 then
      let n := pMark.iOff - pLog.iOff
      { pLog with buf := pLog.buf.take n, iCksumBuf := n / 8 * 8 }
    else
      { pLog with buf := pMark.aBuf, iCksumBuf := 0, iOff := pMark.iOff - pMark.aBuf.length }
  { pLog with
    cksum := pMark.cksum
    iRegion1End := if pLog.iRegion1End < pMark.iOff then 0 else pLog.iRegion1End
    iRegion2Start := if pLog.iRegion2Start < pMark.iOff then 0 else pLog.iRegion2Start }

/-! ### The regions -/

/-- There are three regions. -/
instance neZeroThree : NeZero 3 := ⟨Nat.succ_ne_zero 2⟩

/-- The part of the tree header that describes the log. -/
structure DbLog where
  aRegion : Fin 3 → LogRegion
  cksum : Cksum

/-- `lsmLogEnd` of a transaction that is committed. -/
def lsmLogEnd (pLog : DbLog) (p : LogWriter) : DbLog :=
  let r0 := pLog.aRegion 0
  let r1 := pLog.aRegion 1
  let r2 := { pLog.aRegion 2 with iEnd := p.iOff }
  { cksum := p.cksum
    aRegion :=
      if p.iRegion1End ≠ 0 then ![r0, ⟨r2.iStart, p.iRegion1End⟩, ⟨p.iRegion2Start, r2.iEnd⟩]
      else ![r0, r1, r2] }

end Lsm.Log

end MoVeBench
