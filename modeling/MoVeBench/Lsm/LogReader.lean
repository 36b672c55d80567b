/-
MoVeBench/Lsm/LogReader.lean

How log records are read back (`LogReader` of `lsm_log.c`).

The reader has a window of the file in memory, `buf`, of which it has used `iBuf` bytes; when
all of it is used, the next 512 bytes of the file take its place, behind the few bytes that
the checksum has not taken in.  What is not in the window as a whole is put together in a
scratch string.  The address of that string is taken before the bytes are appended, so that it
is null where the string has no memory yet, and freed memory where the string has to grow.

Whatever the window is, the reader gives the bytes of the file one after the other
(`logReaderBlob_spec`).
-/
import MoVeBench.Varint
import MoVeBench.Lib.Checked

namespace MoVeBench

namespace Lsm.Log

open Bytes

/-! ### Constants -/

def LSM_LOG_EOF : UInt8 := 0x00
def LSM_LOG_PAD1 : UInt8 := 0x01
def LSM_LOG_PAD2 : UInt8 := 0x02
def LSM_LOG_COMMIT : UInt8 := 0x03
def LSM_LOG_JUMP : UInt8 := 0x04
def LSM_LOG_WRITE : UInt8 := 0x06
def LSM_LOG_WRITE_CKSUM : UInt8 := 0x07
def LSM_LOG_DELETE : UInt8 := 0x08
def LSM_LOG_DELETE_CKSUM : UInt8 := 0x09

def LSM_CKSUM_MAXDATA : ℕ := 32 * 1024

def LOG_READ_SIZE : ℕ := 512

/-! ### The running checksum -/

abbrev Cksum := UInt32 × UInt32

def getU32le (aIn : List UInt8) : UInt32 := .ofNat (fromLe (readBytes aIn 0 4))

/-- One turn of the loop, on eight bytes. -/
def cksumStep (c : Cksum) (a : List UInt8) : Cksum :=
  let cksum0 := c.1 + (getU32le a + c.2)
  (cksum0, c.2 + (getU32le (a.drop 4) + cksum0))

def logCksumUnaligned (z : List UInt8) (c : Cksum) : Cksum :=
  let nIn := z.length / 8
  let c := (List.range nIn).foldl (fun c i => cksumStep c (z.drop (8 * i))) c
  if 8 * nIn ≠ z.length then cksumStep c (readBytes (z.drop (8 * nIn)) 0 8) else c

/-- `lsmGetU32`. -/
def lsmGetU32 (z : List UInt8) : UInt32 := .ofNat (fromBe (z.take 4))

/-! ### The reader -/

/-- The content of the log file. -/
abbrev LogFile := List UInt8

/-- Why recovery gives up: the file cannot be read there, or the behaviour is not defined, as
a pointer does not point to data or an `int` overflows. -/
inductive Stop
  | ioerr
  | undefined
  deriving DecidableEq, Repr

structure LogReader where
  /-- File offset at end of buf content. -/
  iOff : ℤ
  /-- Current read offset in buf. -/
  iBuf : ℕ
  /-- Buffer containing file content. -/
  buf : List UInt8
  /-- Offset in buf corresponding to the checksums. -/
  iCksumBuf : ℕ
  cksum : Cksum
  deriving DecidableEq, Repr

/-- `lsmFsReadLog`: a seek to a negative offset fails; bytes past the end are zero. -/
def lsmFsReadLog (f : LogFile) (iOff : ℤ) (nRead : ℕ) : Except Stop (List UInt8) :=
  if iOff < 0 then .error .ioerr else .ok (readBytes f iOff.toNat nRead)

/-- The first part of the loop of `logReaderBlob`: read on where the buffer is used up. -/
def logReaderFill (f : LogFile) (p : LogReader) : Except Stop LogReader :=
  if p.buf.length = p.iBuf then
    -- the difference is negative while the checksum itself is read
    let nCksum := p.iBuf - p.iCksumBuf
    let nCarry := nCksum % 8
    (lsmFsReadLog f p.iOff LOG_READ_SIZE).map fun data =>
      { iOff := p.iOff + LOG_READ_SIZE
        iBuf := nCarry
        buf := p.buf.drop (p.iBuf - nCarry) ++ data
        iCksumBuf := 0
        cksum :=
          logCksumUnaligned ((p.buf.drop p.iCksumBuf).take (nCksum / 8 * 8)) p.cksum }
  else .ok p

/-- What a pointer to a blob is worth. -/
inductive Ptr
  | data
  | null
  | freed
  deriving DecidableEq, Repr

/-- Where bytes that were read are, with the memory of the scratch string. -/
structure Blob where
  bytes : List UInt8
  ptr : Ptr
  nAlloc : ℕ
  deriving DecidableEq, Repr

/-- `lsmStringExtend`, of a string of `n` bytes. -/
def lsmStringExtend (nAlloc n nNew : ℕ) : ℕ := if nAlloc ≤ n + nNew then n + nNew + 100 else nAlloc

/-- The bytes that are left to append to the scratch string, which holds `z`. -/
def logReaderAppend (f : LogFile) :
    ℕ → LogReader → ℕ → List UInt8 → ℕ → Except Stop (LogReader × ℕ × List UInt8)
  | 0, p, nAlloc, z, _ => .ok (p, nAlloc, z)
  | fuel + 1, p, nAlloc, z, nReq =>
      if nReq = 0 then .ok (p, nAlloc, z)
      else
        (logReaderFill f p).bind fun p =>
          let nCopy := min (p.buf.length - p.iBuf) nReq
          logReaderAppend f fuel { p with iBuf := p.iBuf + nCopy }
            (lsmStringExtend nAlloc z.length nCopy)
            (z ++ readBytes p.buf p.iBuf nCopy) (nReq - nCopy)

/-- `logReaderBlob`, with a scratch string of `nAlloc` bytes.  Without `bPtr` the bytes are always
copied there. -/
def logReaderBlob (f : LogFile) (p : LogReader) (nAlloc : ℕ) (nBlob : ℤ) (bPtr : Bool) :
    Except Stop (LogReader × Blob) :=
  if nBlob ≤ 0 then .ok (p, ⟨[], .data, nAlloc⟩)
  else
    (logReaderFill f p).bind fun p =>
      if bPtr = true ∧ nBlob.toNat ≤ p.buf.length - p.iBuf then
        .ok ({ p with iBuf := p.iBuf + nBlob.toNat },
          ⟨readBytes p.buf p.iBuf nBlob.toNat, .data, nAlloc⟩)
      else
        (logReaderAppend f nBlob.toNat p nAlloc [] nBlob.toNat).map fun (p, n, z) =>
          -- the address of the string was taken first
          (p, ⟨z, if bPtr = false then .data else if nAlloc = 0 then .null
            else if n = nAlloc then .data else .freed, n⟩)

/-- `lsmVarintGet32`: the value is cut to an `int`. -/
def lsmVarintGet32 (z : List UInt8) : ℤ × ℕ :=
  ((sqlite4GetVarint64 z).map fun (v, n) => (Int.bmod v (2 ^ 32), n)).getD (0, 0)

def lsmVarintSize (c : UInt8) : ℕ :=
  if c.toNat < 241 then 1 else if c.toNat < 249 then 2 else c.toNat - 246

/-- `logReaderVarint`. -/
def logReaderVarint (f : LogFile) (p : LogReader) (nAlloc : ℕ) :
    Except Stop (LogReader × ℤ × ℕ) :=
  if p.buf.length = p.iBuf then
    (logReaderBlob f p 0 10 true).map fun (p, b) =>
      ({ p with iBuf := p.iBuf - (10 - (lsmVarintGet32 b.bytes).2) },
        (lsmVarintGet32 b.bytes).1, nAlloc)
  else
    (logReaderBlob f p nAlloc (lsmVarintSize (p.buf.getD p.iBuf 0)) true).bind fun (p, b) =>
      if b.ptr = .data then .ok (p, (lsmVarintGet32 b.bytes).1, b.nAlloc)
      else .error .undefined

/-- `logReaderByte`, which does not use a scratch string. -/
def logReaderByte (f : LogFile) (p : LogReader) : Except Stop (LogReader × UInt8) :=
  (logReaderBlob f p 0 1 true).map fun (p, b) => (p, b.bytes.getD 0 0)

/-- `logReaderCksum`: the reader, the memory of the scratch string, and `*pbEof`, which stays
where the pointer is null. -/
def logReaderCksum (f : LogFile) (p : LogReader) (nAlloc : ℕ) :
    Except Stop (LogReader × ℕ × Bool) :=
  let p := { p with
    cksum := logCksumUnaligned (readBytes p.buf p.iCksumBuf (p.iBuf - p.iCksumBuf)) p.cksum
    iCksumBuf := p.iBuf + 8 }
  (logReaderBlob f p nAlloc 8 true).bind fun (p, b) =>
    match b.ptr with
    | .null => .ok (p, b.nAlloc, false)
    | .freed => .error .undefined
    | .data =>
        .ok ({ p with iCksumBuf := p.iBuf }, b.nAlloc,
          decide ((lsmGetU32 b.bytes, lsmGetU32 (b.bytes.drop 4)) ≠ p.cksum))

/-- `logReaderInit`. -/
def logReaderInit (iStart : ℤ) (cksum : Cksum) : LogReader :=
  { iOff := iStart, iBuf := 0, buf := [], iCksumBuf := 0, cksum := cksum }

/-- `logRequireCksum`, where the sums have to fit. -/
def logRequireCksum (p : LogReader) (nByte : ℤ) : Except Stop Bool :=
  if Checked.Fits 32 (p.iBuf + nByte) ∧ Checked.Fits 32 (p.iBuf + nByte - p.iCksumBuf) then
    .ok (decide ((LSM_CKSUM_MAXDATA : ℤ) < p.iBuf + nByte - p.iCksumBuf))
  else .error .undefined

/-! ### The window -/

/-- The file offset of the next byte. -/
def LogReader.pos (p : LogReader) : ℤ := p.iOff - p.buf.length + p.iBuf

/-- How many bytes there are before the file is read again. -/
def LogReader.nAvail (p : LogReader) : ℕ :=
  if p.buf.length = p.iBuf then LOG_READ_SIZE else p.buf.length - p.iBuf

/-- What is left of the buffer is a part of the file. -/
structure LogReader.Window (f : LogFile) (p : LogReader) : Prop where
  used : p.iBuf ≤ p.buf.length
  bytes : ∀ i, p.iBuf ≤ i → i < p.buf.length → 0 ≤ p.iOff - p.buf.length + i ∧
    p.buf.getD i 0 = f.getD (p.iOff - p.buf.length + i).toNat 0

theorem LogReader.window_init (f : LogFile) (iStart : ℤ) (cksum : Cksum) :
    (logReaderInit iStart cksum).Window f :=
  ⟨le_rfl, fun _ _ hi => absurd hi (Nat.not_lt_zero _)⟩

variable {f : LogFile} {p : LogReader}

/-- A byte of a part of a buffer. -/
theorem getD_readBytes (buf : List UInt8) (off n i : ℕ) :
    (readBytes buf off n).getD i 0 = if i < n then buf.getD (off + i) 0 else 0 := by
  induction n generalizing off i with
  | zero => rfl
  | succ n ih =>
      cases i with
      | zero => rfl
      | succ i =>
          show (readBytes buf (off + 1) n).getD i 0 = _
          rw [ih, Nat.add_right_comm off 1 i]
          exact if_congr Nat.succ_lt_succ_iff.symm rfl rfl

/-- Bytes of the window are bytes of the file. -/
theorem LogReader.Window.readBytes_eq (h : p.Window f) {n : ℕ} (hn : n ≤ p.buf.length - p.iBuf)
    (hpos : 0 ≤ p.pos) : readBytes p.buf p.iBuf n = readBytes f p.pos.toNat n := by
  have hused := h.used
  unfold pos at hpos ⊢
  apply List.ext_getElem
  · rw [readBytes_length, readBytes_length]
  · intro i hi hi'
    rw [readBytes_length] at hi
    rw [← List.getD_eq_getElem _ 0, ← List.getD_eq_getElem _ 0, getD_readBytes, getD_readBytes,
      if_pos hi, if_pos hi, (h.bytes (p.iBuf + i) (by omega) (by omega)).2]
    congr 1
    omega

/-- Bytes of the window that are used. -/
theorem LogReader.Window.use (h : p.Window f) {n : ℕ} (hn : n ≤ p.buf.length - p.iBuf) :
    ({ p with iBuf := p.iBuf + n } : LogReader).Window f := by
  have hused := h.used
  refine ⟨?_, fun i hlo hhi => h.bytes i (le_trans (Nat.le_add_right _ _) hlo) hhi⟩
  show p.iBuf + n ≤ p.buf.length
  omega

theorem LogReader.pos_use (p : LogReader) (n : ℕ) :
    ({ p with iBuf := p.iBuf + n } : LogReader).pos = p.pos + n := by
  show p.iOff - p.buf.length + ((p.iBuf + n : ℕ) : ℤ) = p.iOff - p.buf.length + p.iBuf + n
  omega

/-- Where the file cannot be read, nothing is left of the window. -/
theorem logReaderFill_neg (h : p.Window f) (hpos : p.pos < 0) :
    logReaderFill f p = .error .ioerr := by
  have hused := h.used
  have hall : p.buf.length = p.iBuf := by
    by_contra hne
    exact absurd (h.bytes p.iBuf le_rfl (by omega)).1 (not_le.mpr hpos)
  have hoff : p.iOff < 0 := by
    unfold LogReader.pos at hpos
    omega
  unfold logReaderFill lsmFsReadLog
  rw [if_pos hall, if_pos hoff]
  rfl

/-- After the first part of the loop there are bytes in the window. -/
theorem logReaderFill_spec (h : p.Window f) (hpos : 0 ≤ p.pos) :
    ∃ p', logReaderFill f p = .ok p' ∧ p'.Window f ∧ p'.pos = p.pos ∧
      p'.buf.length - p'.iBuf = p.nAvail ∧ 0 < p.nAvail := by
  have hused := h.used
  unfold logReaderFill LogReader.nAvail
  by_cases hall : p.buf.length = p.iBuf
  · have hoff : ¬ p.iOff < 0 := by
      unfold LogReader.pos at hpos
      omega
    have hcarry : (p.iBuf - p.iCksumBuf) % 8 ≤ p.iBuf :=
      (Nat.mod_le _ _).trans (Nat.sub_le _ _)
    have hlen : (p.buf.drop (p.iBuf - (p.iBuf - p.iCksumBuf) % 8) ++
        readBytes f p.iOff.toNat LOG_READ_SIZE).length =
          (p.iBuf - p.iCksumBuf) % 8 + LOG_READ_SIZE := by
      rw [List.length_append, List.length_drop, readBytes_length]
      omega
    rw [if_pos hall, if_pos hall, lsmFsReadLog, if_neg hoff]
    refine ⟨_, rfl, ⟨?_, fun i hlo hhi => ?_⟩, ?_, ?_, by decide⟩
    · dsimp only
      omega
    · dsimp only at hlo hhi ⊢
      rw [hlen] at hhi ⊢
      have hprefix : (p.buf.drop (p.iBuf - (p.iBuf - p.iCksumBuf) % 8)).length ≤ i := by
        rw [List.length_drop]
        omega
      refine ⟨by omega, ?_⟩
      rw [List.getD_append_right _ _ _ _ hprefix, getD_readBytes, List.length_drop,
        if_pos (by omega)]
      congr 1
      omega
    · unfold LogReader.pos
      dsimp only
      rw [hlen]
      omega
    · dsimp only
      omega
  · rw [if_neg hall, if_neg hall]
    exact ⟨p, rfl, h, rfl, rfl, by omega⟩

/-! ### The scratch string -/

/-- The memory of a string after `n` bytes were appended to the empty one. -/
structure Room (n nAlloc nAlloc' : ℕ) : Prop where
  grows : nAlloc ≤ nAlloc'
  holds : n < nAlloc'
  same : n < nAlloc → nAlloc' = nAlloc
  moved : nAlloc' = nAlloc → n < nAlloc

theorem lsmStringExtend_room (nAlloc n nNew : ℕ) :
    Room (n + nNew) nAlloc (lsmStringExtend nAlloc n nNew) := by
  unfold lsmStringExtend
  split_ifs with h
  · exact ⟨by omega, by omega, by omega, by omega⟩
  · exact ⟨le_rfl, by omega, fun _ => rfl, fun _ => by omega⟩

theorem Room.trans {n m nAlloc nAlloc' nAlloc'' : ℕ} (h : Room n nAlloc nAlloc')
    (h' : Room m nAlloc' nAlloc'') (hle : n ≤ m) : Room m nAlloc nAlloc'' := by
  refine ⟨h.grows.trans h'.grows, h'.holds, fun hm => ?_, fun heq => ?_⟩
  · have heq := h.same (hle.trans_lt hm)
    rw [h'.same (heq.symm ▸ hm), heq]
  · have hfirst : nAlloc' = nAlloc := le_antisymm (heq ▸ h'.grows) h.grows
    rw [← hfirst]
    exact h'.moved (heq.trans hfirst.symm)

/-- Bytes are appended one part of the file after the other. -/
theorem logReaderAppend_spec (fuel : ℕ) {p : LogReader} (h : p.Window f) (nReq : ℕ)
    (hpos : 0 < nReq → 0 ≤ p.pos) (hfuel : nReq ≤ fuel) :
    ∃ p', p'.Window f ∧ p'.pos = p.pos + nReq ∧ ∀ nAlloc (z : List UInt8),
      ∃ nAlloc', logReaderAppend f fuel p nAlloc z nReq =
          .ok (p', nAlloc', z ++ readBytes f p.pos.toNat nReq) ∧
        (nReq = 0 → nAlloc' = nAlloc) ∧ (0 < nReq → Room (z.length + nReq) nAlloc nAlloc') := by
  induction fuel generalizing p nReq with
  | zero =>
      obtain rfl : nReq = 0 := Nat.le_zero.mp hfuel
      refine ⟨p, h, (add_zero _).symm, fun nAlloc z => ⟨nAlloc, ?_, fun _ => rfl, nofun⟩⟩
      rw [logReaderAppend, readBytes, List.append_nil]
  | succ fuel ih =>
      by_cases hreq : nReq = 0
      · subst hreq
        refine ⟨p, h, (add_zero _).symm, fun nAlloc z => ⟨nAlloc, ?_, fun _ => rfl, nofun⟩⟩
        rw [logReaderAppend, if_pos rfl, readBytes, List.append_nil]
      have hpos := hpos (Nat.pos_of_ne_zero hreq)
      obtain ⟨p1, hfill, hwin, hsame, havail, hany⟩ := logReaderFill_spec h hpos
      obtain ⟨nCopy, hn⟩ : ∃ n, n = min (p1.buf.length - p1.iBuf) nReq := ⟨_, rfl⟩
      have hcopy := hwin.readBytes_eq (n := nCopy) (by omega) (hsame.symm ▸ hpos)
      -- the bytes of this turn, and those after it
      obtain ⟨p2, hwin2, hpos2, hrest⟩ := ih (hwin.use (n := nCopy) (by omega))
        (nReq - nCopy) (fun _ => by rw [LogReader.pos_use]; omega) (by omega)
      rw [LogReader.pos_use, hsame] at hpos2 hrest
      rw [hsame] at hcopy
      refine ⟨p2, hwin2, by omega, fun nAlloc z => ?_⟩
      obtain ⟨nAlloc', heq, hnone, hroom⟩ := hrest (lsmStringExtend nAlloc z.length nCopy)
        (z ++ readBytes f p.pos.toNat nCopy)
      have hfirst := lsmStringExtend_room nAlloc z.length nCopy
      have hsplit := readBytes_append f p.pos.toNat nCopy (nReq - nCopy)
      rw [Nat.add_sub_cancel' (by omega)] at hsplit
      refine ⟨nAlloc', ?_, fun hno => absurd hno hreq, fun _ => ?_⟩
      · simp only [logReaderAppend, if_neg hreq, hfill, Except.bind, ← hn, hcopy]
        rw [heq, show (p.pos + (nCopy : ℤ)).toNat = p.pos.toNat + nCopy by omega,
          List.append_assoc, ← hsplit]
      · rcases Nat.eq_zero_or_pos (nReq - nCopy) with hdone | hmore
        · rw [hnone hdone, show z.length + nReq = z.length + nCopy by omega]
          exact hfirst
        · have hroom := hroom hmore
          rw [List.length_append, readBytes_length,
            show z.length + nCopy + (nReq - nCopy) = z.length + nReq by omega] at hroom
          exact hfirst.trans hroom (by omega)

/-! ### Blobs -/

/-- **Blobs are bytes of the file.**  They are in the buffer, or else in the scratch string,
whose address is good where nothing had to be moved. -/
theorem logReaderBlob_spec (h : p.Window f) (hpos : 0 ≤ p.pos) {n : ℕ} (hn : 0 < n) :
    ∃ p', p'.Window f ∧ p'.pos = p.pos + n ∧ ∀ nAlloc, ∃ b,
      logReaderBlob f p nAlloc n true = .ok (p', b) ∧ b.bytes = readBytes f p.pos.toNat n ∧
        (n ≤ p.nAvail → b.ptr = .data ∧ b.nAlloc = nAlloc) ∧
        (p.nAvail < n → Room n nAlloc b.nAlloc ∧
          b.ptr = if nAlloc = 0 then .null else if n < nAlloc then .data else .freed) := by
  obtain ⟨p1, hfill, hwin, hsame, havail, hany⟩ := logReaderFill_spec h hpos
  have hnn : ¬ (n : ℤ) ≤ 0 := by omega
  by_cases hdirect : n ≤ p.nAvail
  · refine ⟨_, hwin.use (n := n) (by omega), (LogReader.pos_use p1 n).trans (by rw [hsame]),
      fun nAlloc => ⟨⟨readBytes p1.buf p1.iBuf n, .data, nAlloc⟩, ?_, ?_, fun _ => ⟨rfl, rfl⟩,
        fun hno => absurd hdirect (not_le.mpr hno)⟩⟩
    · unfold logReaderBlob
      rw [if_neg hnn, hfill]
      simp only [Except.bind, Int.toNat_natCast]
      rw [if_pos ⟨trivial, by omega⟩]
    · dsimp only
      rw [hwin.readBytes_eq (by omega) (hsame.symm ▸ hpos), hsame]
  · obtain ⟨p2, hwin2, hpos2, happ⟩ :=
      logReaderAppend_spec n hwin n (fun _ => hsame.symm ▸ hpos) le_rfl
    rw [hsame] at hpos2 happ
    refine ⟨p2, hwin2, hpos2, fun nAlloc => ?_⟩
    obtain ⟨nAlloc', heq, -, hroom⟩ := happ nAlloc []
    have hroom := hroom hn
    rw [List.length_nil, Nat.zero_add] at hroom
    refine ⟨⟨readBytes f p.pos.toNat n, if nAlloc = 0 then .null else if n < nAlloc then .data
      else .freed, nAlloc'⟩, ?_, rfl, fun hno => absurd hno hdirect, fun _ => ⟨hroom, rfl⟩⟩
    unfold logReaderBlob
    rw [if_neg hnn, hfill]
    simp only [Except.bind, Int.toNat_natCast]
    rw [if_neg (by omega), heq]
    simp only [Except.map, List.nil_append]
    rw [if_neg (by decide), if_congr ⟨hroom.moved, hroom.same⟩ rfl rfl]

/-- Bytes that are always copied. -/
theorem logReaderBlob_copy (h : p.Window f) (hpos : 0 ≤ p.pos) {n : ℕ} (hn : 0 < n) :
    ∃ p', p'.Window f ∧ p'.pos = p.pos + n ∧ ∀ nAlloc, ∃ b,
      logReaderBlob f p nAlloc n false = .ok (p', b) ∧ b.bytes = readBytes f p.pos.toNat n ∧
        b.ptr = .data ∧ Room n nAlloc b.nAlloc := by
  obtain ⟨p1, hfill, hwin, hsame, havail, hany⟩ := logReaderFill_spec h hpos
  obtain ⟨p2, hwin2, hpos2, happ⟩ :=
    logReaderAppend_spec n hwin n (fun _ => hsame.symm ▸ hpos) le_rfl
  rw [hsame] at hpos2 happ
  refine ⟨p2, hwin2, hpos2, fun nAlloc => ?_⟩
  obtain ⟨nAlloc', heq, -, hroom⟩ := happ nAlloc []
  have hroom := hroom hn
  rw [List.length_nil, Nat.zero_add] at hroom
  refine ⟨⟨readBytes f p.pos.toNat n, .data, nAlloc'⟩, ?_, rfl, rfl, hroom⟩
  · unfold logReaderBlob
    rw [if_neg (by omega), hfill]
    simp only [Except.bind, Int.toNat_natCast]
    rw [if_neg (by simp), heq]
    rfl

/-- Nothing is read from a negative offset. -/
theorem logReaderBlob_neg (h : p.Window f) (hpos : p.pos < 0) (nAlloc : ℕ) {n : ℕ} (hn : 0 < n)
    (bPtr : Bool) : logReaderBlob f p nAlloc n bPtr = .error .ioerr := by
  unfold logReaderBlob
  rw [if_neg (by omega), logReaderFill_neg h hpos]
  rfl

/-! ### Varints -/

/-- A varint does not depend on the bytes after it. -/
theorem sqlite4GetVarint64_append {z : List UInt8} (h : 0 < z.length)
    (hsize : lsmVarintSize (z.getD 0 0) ≤ z.length) (rest : List UInt8) :
    sqlite4GetVarint64 (z ++ rest) = sqlite4GetVarint64 z := by
  have hb : ∀ i, i < z.length → (z ++ rest).getD i 0 = z.getD i 0 :=
    fun i hi => List.getD_append _ _ _ _ hi
  have hlen : z.length ≤ (z ++ rest).length := by
    rw [List.length_append]
    omega
  have hc := (z.getD 0 0).toNat_lt
  unfold lsmVarintSize at hsize
  unfold sqlite4GetVarint64
  generalize (z ++ rest).length = n at *
  simp only [hb 0 h]
  rcases lt_or_ge (z.getD 0 0).toNat 241 with h1 | h1
  · rw [if_neg (by omega), if_pos (by omega), if_neg (by omega), if_pos (by omega)]
  rw [if_neg (by omega)] at hsize
  rcases lt_or_ge (z.getD 0 0).toNat 249 with h2 | h2
  · rw [if_pos h2] at hsize
    rw [hb 1 (by omega), if_neg (by omega), if_neg (by omega), if_pos (by omega),
      if_neg (by omega), if_neg (by omega), if_neg (by omega), if_pos (by omega),
      if_neg (by omega)]
  rw [if_neg (by omega)] at hsize
  simp only [if_neg (show ¬ n < 1 by omega), if_neg (show ¬ z.length < 1 by omega),
    if_neg (show ¬ (z.getD 0 0).toNat ≤ 240 by omega),
    if_neg (show ¬ (z.getD 0 0).toNat ≤ 248 by omega),
    if_neg (show ¬ n < (z.getD 0 0).toNat - 246 by omega),
    if_neg (show ¬ z.length < (z.getD 0 0).toNat - 246 by omega)]
  rw [hb 1 (by omega), hb 2 (by omega)]
  refine if_ctx_congr Iff.rfl (fun _ => rfl) fun h9 => ?_
  rw [hb 3 (by omega)]
  refine if_ctx_congr Iff.rfl (fun _ => rfl) fun h10 => ?_
  rw [hb 4 (by omega)]
  refine if_ctx_congr Iff.rfl (fun _ => rfl) fun h11 => ?_
  rw [hb 5 (by omega)]
  refine if_ctx_congr Iff.rfl (fun _ => rfl) fun h12 => ?_
  rw [hb 6 (by omega)]
  refine if_ctx_congr Iff.rfl (fun _ => rfl) fun h13 => ?_
  rw [hb 7 (by omega)]
  refine if_ctx_congr Iff.rfl (fun _ => rfl) fun h14 => ?_
  rw [hb 8 (by omega)]

theorem exists_ite {q : Prop} [Decidable q] {x y : Option (ℕ × ℕ)} {n : ℕ}
    (hx : q → ∃ v, x = some (v, n)) (hy : ¬ q → ∃ v, y = some (v, n)) :
    ∃ v, (if q then x else y) = some (v, n) := by
  by_cases h : q
  · rw [if_pos h]
    exact hx h
  · rw [if_neg h]
    exact hy h

/-- As many bytes are used as the first one says. -/
theorem sqlite4GetVarint64_size {z : List UInt8} (h : 0 < z.length)
    (hsize : lsmVarintSize (z.getD 0 0) ≤ z.length) :
    ∃ v, sqlite4GetVarint64 z = some (v, lsmVarintSize (z.getD 0 0)) := by
  have hc := (z.getD 0 0).toNat_lt
  unfold lsmVarintSize at hsize ⊢
  unfold sqlite4GetVarint64
  dsimp only
  refine exists_ite (fun hno => absurd h (by omega)) fun _ => ?_
  refine exists_ite (fun h0 => ⟨_, by rw [if_pos (by omega)]⟩) fun h0 => ?_
  rw [if_neg (show ¬ (z.getD 0 0).toNat < 241 by omega)] at hsize ⊢
  refine exists_ite (fun h1 => ?_) fun h1 => ?_
  · rw [if_pos (show (z.getD 0 0).toNat < 249 by omega)] at hsize ⊢
    exact ⟨_, if_neg (by omega)⟩
  rw [if_neg (show ¬ (z.getD 0 0).toNat < 249 by omega)] at hsize ⊢
  refine exists_ite (fun hno => absurd hsize (by omega)) fun _ => ?_
  have hlast : ∀ {k v : ℕ}, (z.getD 0 0).toNat = k + 246 →
      ∃ v', some (v, k) = some (v', (z.getD 0 0).toNat - 246) :=
    fun hk => ⟨_, by rw [hk, Nat.add_sub_cancel]⟩
  iterate 6 refine exists_ite (fun hk => hlast hk) fun hk => ?_
  exact hlast (by omega)

theorem lsmVarintSize_bounds (c : UInt8) : 1 ≤ lsmVarintSize c ∧ lsmVarintSize c ≤ 9 := by
  have hc := c.toNat_lt
  unfold lsmVarintSize
  split_ifs <;> omega

/-- The varint at the front of bytes of the file. -/
theorem lsmVarintGet32_readBytes (f : LogFile) (off : ℕ) {n : ℕ}
    (h : lsmVarintSize (f.getD off 0) ≤ n) : lsmVarintGet32 (readBytes f off n) =
      ((lsmVarintGet32 (readBytes f off (lsmVarintSize (f.getD off 0)))).1,
        lsmVarintSize (f.getD off 0)) := by
  obtain ⟨hlo, -⟩ := lsmVarintSize_bounds (f.getD off 0)
  obtain ⟨m, rfl⟩ := Nat.exists_eq_add_of_le h
  have hhead : (readBytes f off (lsmVarintSize (f.getD off 0))).getD 0 0 = f.getD off 0 := by
    rw [getD_readBytes, if_pos (by omega), add_zero]
  have hfront : 0 < (readBytes f off (lsmVarintSize (f.getD off 0))).length := by
    rw [readBytes_length]
    exact hlo
  have hlen : lsmVarintSize ((readBytes f off (lsmVarintSize (f.getD off 0))).getD 0 0) ≤
      (readBytes f off (lsmVarintSize (f.getD off 0))).length := by
    rw [hhead, readBytes_length]
  obtain ⟨v, hv⟩ := sqlite4GetVarint64_size hfront hlen
  rw [hhead] at hv
  rw [readBytes_append, lsmVarintGet32, sqlite4GetVarint64_append hfront hlen, lsmVarintGet32, hv]
  simp only [Option.map_some, Option.getD_some]

/-- **Varints are read from the file.**  Where a varint crosses the end of the buffer, the scratch
string must have room for it. -/
theorem logReaderVarint_spec (h : p.Window f) (hpos : 0 ≤ p.pos) :
    ∃ p', p'.Window f ∧ p'.pos = p.pos + lsmVarintSize (f.getD p.pos.toNat 0) ∧ ∀ nAlloc,
      logReaderVarint f p nAlloc =
        if p.nAvail < lsmVarintSize (f.getD p.pos.toNat 0) ∧
            nAlloc ≤ lsmVarintSize (f.getD p.pos.toNat 0) then .error .undefined
        else .ok (p', (lsmVarintGet32
          (readBytes f p.pos.toNat (lsmVarintSize (f.getD p.pos.toNat 0)))).1, nAlloc) := by
  obtain ⟨hlo, hhi⟩ := lsmVarintSize_bounds (f.getD p.pos.toNat 0)
  by_cases hall : p.buf.length = p.iBuf
  · obtain ⟨p1, hfill, hwin, hsame, havail, hany⟩ := logReaderFill_spec h hpos
    have h512 : p.nAvail = 512 := if_pos hall
    have hbytes := hwin.readBytes_eq (n := 10) (by omega) (hsame.symm ▸ hpos)
    refine ⟨_, hwin.use (n := lsmVarintSize (f.getD p.pos.toNat 0)) (by omega),
      (LogReader.pos_use _ _).trans (by rw [hsame]), fun nAlloc => ?_⟩
    rw [if_neg (by omega), logReaderVarint, if_pos hall, logReaderBlob, if_neg (by decide), hfill]
    simp only [Except.bind, show (10 : ℤ).toNat = 10 from rfl]
    rw [if_pos ⟨trivial, by omega⟩]
    simp only [Except.map, hbytes, hsame]
    rw [lsmVarintGet32_readBytes f p.pos.toNat (n := 10) (by omega)]
    rw [show p1.iBuf + 10 - (10 - lsmVarintSize (f.getD p.pos.toNat 0)) =
      p1.iBuf + lsmVarintSize (f.getD p.pos.toNat 0) by omega]
  · have hused := h.used
    have hhead : p.buf.getD p.iBuf 0 = f.getD p.pos.toNat 0 := by
      rw [(h.bytes p.iBuf le_rfl (by omega)).2]
      rfl
    obtain ⟨p', hwin, hpos', hread⟩ := logReaderBlob_spec h hpos
      (n := lsmVarintSize (f.getD p.pos.toNat 0)) hlo
    refine ⟨p', hwin, hpos', fun nAlloc => ?_⟩
    obtain ⟨b, heq, hbytes, hdirect, hcross⟩ := hread nAlloc
    rw [logReaderVarint, if_neg hall, hhead, heq]
    simp only [Except.bind, hbytes]
    rcases Nat.lt_or_ge p.nAvail (lsmVarintSize (f.getD p.pos.toNat 0)) with hlt | hge
    · obtain ⟨hroom, hptr⟩ := hcross hlt
      by_cases hsmall : nAlloc ≤ lsmVarintSize (f.getD p.pos.toNat 0)
      · have hbad : b.ptr ≠ .data := by
          rw [hptr]
          split_ifs
          · nofun
          · omega
          · nofun
        rw [if_neg hbad, if_pos ⟨hlt, hsmall⟩]
      · have hgood : b.ptr = .data := by
          rw [hptr, if_neg (by omega), if_pos (not_le.mp hsmall)]
        rw [if_pos hgood, if_neg (fun hno => hsmall hno.2), hroom.same (not_le.mp hsmall)]
    · obtain ⟨hptr, hsame⟩ := hdirect hge
      rw [if_pos hptr, if_neg (fun hno => absurd hno.1 (not_lt.mpr hge)), hsame]

/-- A byte. -/
theorem logReaderByte_spec (h : p.Window f) (hpos : 0 ≤ p.pos) :
    ∃ p', p'.Window f ∧ p'.pos = p.pos + 1 ∧
      logReaderByte f p = .ok (p', f.getD p.pos.toNat 0) ∧
        p'.nAvail = if p.nAvail = 1 then LOG_READ_SIZE else p.nAvail - 1 := by
  obtain ⟨p1, hfill, hwin, hsame, havail, hany⟩ := logReaderFill_spec h hpos
  refine ⟨_, hwin.use (n := 1) (by omega), (LogReader.pos_use _ _).trans (by rw [hsame]; rfl),
    ?_, ?_⟩
  · unfold logReaderByte logReaderBlob
    rw [if_neg (by decide), hfill]
    simp only [Except.bind, show (1 : ℤ).toNat = 1 from rfl]
    rw [if_pos ⟨trivial, by omega⟩, hwin.readBytes_eq (by omega) (hsame.symm ▸ hpos), hsame]
    rfl
  · have hused := hwin.used
    unfold LogReader.nAvail at havail ⊢
    dsimp only
    split_ifs at havail ⊢ <;> omega

end Lsm.Log

end MoVeBench
