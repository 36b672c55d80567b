/-
MoVeBench/Lsm/LogRecover.lean

Recovery of the log (`lsmLogRecover` of `lsm_log.c`).

The log is read twice.  The first pass counts the commit records whose checksums are right, up
to the first record that is not fine, or to the third jump.  Where there is none, and the log was
not read from the start of the file, it is tried once more from there.  The second pass reads
the same records again, applies the writes and the deletes to the tree, and stops at the last of
the commit records that were counted.
-/
import MoVeBench.Lsm.LogWriter

namespace MoVeBench

namespace Lsm.Log

open Bytes Checked

/-! ### One record -/

/-- A call of `lsmTreeInsert`: the lengths, and the bytes that were read for them. -/
structure Op where
  nKey : ℤ
  key : List UInt8
  nVal : ℤ
  val : List UInt8
  deriving DecidableEq, Repr

/-- What was read. -/
inductive Record
  | pad
  | op (o : Op)
  | commit
  | jump (iOff : ℤ)
  | eof
  deriving DecidableEq, Repr

/-- The reader, and the memory of the two scratch strings. -/
structure Source where
  p : LogReader
  nAlloc1 : ℕ := 0
  nAlloc2 : ℕ := 0
  deriving DecidableEq, Repr

/-- A record that was read.  The last two fields say what the source does not keep: whether the
pointers of an operation are good, and whether the checksum of the record, if there is one, was
compared. -/
structure Found where
  s : Source
  record : Record
  bPtr : Bool := true
  bCompared : Bool := true

/-- The checksum of a record, or the rule that it needs none. -/
def readCksum (f : LogFile) (p : LogReader) (nAlloc : ℕ) (bCksum : Bool) (nByte : ℤ) :
    Except Stop (LogReader × ℕ × Bool × Bool) :=
  if bCksum = true then
    (logReaderCksum f p nAlloc).map fun (p', n, bEof) =>
      (p', n, bEof, decide (8 ≤ p.nAvail ∨ nAlloc ≠ 0))
  else if Fits 32 nByte then (logRequireCksum p nByte).map fun bEof => (p, nAlloc, bEof, true)
  else .error .undefined

/-- A PAD2 record. -/
def readPad (f : LogFile) (s : Source) : Except Stop Found :=
  (logReaderVarint f s.p s.nAlloc1).bind fun (p, nPad, n1) =>
    (logReaderBlob f p n1 nPad false).map fun (p, b) => ⟨⟨p, b.nAlloc, s.nAlloc2⟩, .pad, true, true⟩

/-- A WRITE record. -/
def readWrite (f : LogFile) (s : Source) (bCksum : Bool) : Except Stop Found :=
  (logReaderVarint f s.p s.nAlloc1).bind fun (p, nKey, n1) =>
    (logReaderVarint f p s.nAlloc2).bind fun (p, nVal, n2) =>
      (readCksum f p n1 bCksum (nKey + nVal)).bind fun (p, n1, bEof, bCompared) =>
        if bEof = true then .ok ⟨⟨p, n1, n2⟩, .eof, true, bCompared⟩
        else
          (logReaderBlob f p n1 nKey false).bind fun (p, key) =>
            (logReaderBlob f p n2 nVal true).map fun (p, val) =>
              ⟨⟨p, key.nAlloc, val.nAlloc⟩, .op ⟨nKey, key.bytes, nVal, val.bytes⟩,
                decide (val.ptr = .data), bCompared⟩

/-- A DELETE record. -/
def readDelete (f : LogFile) (s : Source) (bCksum : Bool) : Except Stop Found :=
  (logReaderVarint f s.p s.nAlloc1).bind fun (p, nKey, n1) =>
    (readCksum f p n1 bCksum nKey).bind fun (p, n1, bEof, bCompared) =>
      if bEof = true then .ok ⟨⟨p, n1, s.nAlloc2⟩, .eof, true, bCompared⟩
      else
        (logReaderBlob f p n1 nKey true).map fun (p, key) =>
          ⟨⟨p, key.nAlloc, s.nAlloc2⟩, .op ⟨nKey, key.bytes, -1, []⟩, decide (key.ptr = .data),
            bCompared⟩

/-- A COMMIT record. -/
def readCommit (f : LogFile) (s : Source) : Except Stop Found :=
  (readCksum f s.p s.nAlloc1 true 0).map fun (p, n1, bEof, bCompared) =>
    ⟨⟨p, n1, s.nAlloc2⟩, if bEof = true then .eof else .commit, true, bCompared⟩

/-- A JUMP record. -/
def readJump (f : LogFile) (s : Source) : Except Stop Found :=
  (logReaderVarint f s.p s.nAlloc1).map fun (p, iOff, n1) =>
    ⟨⟨p, n1, s.nAlloc2⟩, .jump iOff, true, true⟩

/-- The records after their type byte. -/
def readBody (f : LogFile) (s : Source) (eType : UInt8) : Except Stop Found :=
  if eType = LSM_LOG_PAD1 then .ok ⟨s, .pad, true, true⟩
  else if eType = LSM_LOG_PAD2 then readPad f s
  else if eType = LSM_LOG_WRITE ∨ eType = LSM_LOG_WRITE_CKSUM then
    readWrite f s (eType == LSM_LOG_WRITE_CKSUM)
  else if eType = LSM_LOG_DELETE ∨ eType = LSM_LOG_DELETE_CKSUM then
    readDelete f s (eType == LSM_LOG_DELETE_CKSUM)
  else if eType = LSM_LOG_COMMIT then readCommit f s
  else if eType = LSM_LOG_JUMP then readJump f s
  -- Including LSM_LOG_EOF
  else .ok ⟨s, .eof, true, true⟩

/-- One turn of the loop over records. -/
def readRecord (f : LogFile) (s : Source) : Except Stop Found :=
  (logReaderByte f s.p).bind fun (p, eType) => readBody f { s with p := p } eType

/-! ### The passes -/

/-- The variables of `lsmLogRecover`, and the operations applied so far. -/
structure Recovery where
  s : Source
  nCommit : ℤ := 0
  nJump : ℤ := 0
  ops : List Op := []
  aRegion : Fin 3 → LogRegion
  -- of the checkpoint
  cksum : Cksum

/-- The reader after a jump. -/
def Source.jumpTo (s : Source) (iOff : ℤ) : Source :=
  { s with p := { s.p with iOff := iOff, buf := s.p.buf.take s.p.iBuf } }

/-- An `int` that is counted up. -/
def increment (n : ℤ) : Except Stop ℤ :=
  match int 32 (n + 1) with
  | some m => .ok m
  | none => .error .undefined

/-- The regions after a jump of the second pass. -/
def jumpRegions (aRegion : Fin 3 → LogRegion) (p : LogReader) (iOff : ℤ) : Fin 3 → LogRegion :=
  if (aRegion 2).iStart = 0 then
    ![aRegion 0, { aRegion 1 with iEnd := p.iOff.toNat }, { aRegion 2 with iStart := iOff.toNat }]
  else
    ![⟨(aRegion 2).iStart, p.pos.toNat⟩, aRegion 1, { aRegion 2 with iStart := iOff.toNat }]

/-- What a record does, and whether it ends the pass. -/
def applyRecord (bSecond : Bool) (w : Recovery) (r : Found) : Except Stop (Recovery × Bool) :=
  match r.record with
  | .pad => .ok ({ w with s := r.s }, false)
  | .op o =>
      if bSecond = false then .ok ({ w with s := r.s }, false)
      else if r.bPtr = true then .ok ({ w with s := r.s, ops := w.ops ++ [o] }, false)
      else .error .undefined
  | .commit =>
      (increment w.nCommit).map fun n => ({ w with s := r.s, nCommit := n }, decide (n = 0))
  | .jump iOff =>
      if bSecond = true then
        .ok ({ w with
          s := r.s.jumpTo iOff
          aRegion := jumpRegions w.aRegion r.s.p iOff }, false)
      else
        (increment w.nJump).map fun n =>
          ({ w with s := r.s.jumpTo iOff, nJump := n }, decide (w.nJump = 2))
  | .eof => .ok ({ w with s := r.s }, true)

def recoveryStep (f : LogFile) (bSecond : Bool) (w : Recovery) : Except Stop (Recovery × Bool) :=
  (readRecord f w.s).bind (applyRecord bSecond w)

/-- A pass: what it comes to within so many records. -/
def recoveryPass (f : LogFile) (bSecond : Bool) : ℕ → Recovery → Option (Except Stop Recovery)
  | 0, _ => none
  | fuel + 1, w =>
      match recoveryStep f bSecond w with
      | .error e => some (.error e)
      | .ok (w, true) => some (.ok w)
      | .ok (w, false) => recoveryPass f bSecond fuel w

/-- The state before the first pass, the log being read from `iOff` on. -/
def Recovery.begin (iOff : ℕ) (cksum : Cksum) : Recovery :=
  { s := { p := logReaderInit iOff cksum }, aRegion := ![{}, {}, ⟨iOff, 0⟩], cksum := cksum }

/-- The part of the tree header that recovery leaves. -/
def Recovery.dbLog (w : Recovery) : DbLog :=
  { aRegion := ![w.aRegion 0, w.aRegion 1, { w.aRegion 2 with iEnd := w.s.p.pos.toNat }]
    cksum := w.s.p.cksum }

end Lsm.Log

end MoVeBench
