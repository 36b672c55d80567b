/-
MoVeBench/Lsm/LogItem.lean

The records of the log, and how far behind the last checksum the reader is
(`logRequireCksum` of `lsm_log.c`).

The writer counts what it has in its buffer; the reader counts what it has read since the last
checksum, from which it takes off all that it has summed up where it reads the file on.  The two
counts differ by at most eight bytes: the checksum itself, where its address was null
(`recoveryStep_since`).  These are the eight bytes that the writer allows for a checksum also
where it writes none.
-/
import MoVeBench.Lsm.LogScan
import MoVeBench.Lsm.LogTrack

namespace MoVeBench

namespace Lsm.Log

open Bytes Seg

/-! ### Records as they are written -/

/-- A record in the log. -/
inductive Item
  | pad1
  | pad2 (pad : List UInt8)
  | op (r : Write) (cksum : Option Cksum)
  | commit (cksum : Cksum)
  | jump (iJump : ℕ)
  deriving DecidableEq

def Item.bytes : Item → List UInt8
  | .pad1 => [LSM_LOG_PAD1]
  | .pad2 pad => LSM_LOG_PAD2 :: .ofNat pad.length :: pad
  | .op r none => r.header false ++ r.data
  | .op r (some c) => r.header true ++ cksumBytes c ++ r.data
  | .commit c => LSM_LOG_COMMIT :: cksumBytes c
  | .jump iJump => jumpRecord iJump

/-- How many bytes there are since the last checksum, or the last jump, after a record. -/
def Item.since (d : ℕ) : Item → ℕ
  | .op r (some _) => r.data.length
  | .commit _ => 0
  | .jump _ => 0
  | i => d + i.bytes.length

def sinceCksum (log : List Item) : ℕ := log.foldl Item.since 0

theorem sinceCksum_concat (log : List Item) (i : Item) :
    sinceCksum (log ++ [i]) = i.since (sinceCksum log) := by
  unfold sinceCksum
  rw [List.foldl_append]
  rfl

/-! ### The count of the reader -/

/-- The bytes behind the last checksum, as the reader counts them. -/
def LogReader.dist (p : LogReader) : ℕ := p.iBuf - p.iCksumBuf

/-- The same, once the file is read on where nothing is left. -/
def LogReader.since (p : LogReader) : ℕ :=
  if p.buf.length = p.iBuf then p.dist % 8 else p.dist

theorem LogReader.since_le (p : LogReader) : p.since ≤ p.dist := by
  unfold since
  split_ifs
  · exact Nat.mod_le _ _
  · exact le_rfl

section Dist

variable {f : LogFile} {p p' : LogReader}

theorem logReaderFill_dist (h : logReaderFill f p = .ok p') : p'.dist = p.since := by
  unfold logReaderFill at h
  unfold LogReader.since
  split_ifs at h ⊢ with hall
  · obtain ⟨data, -, rfl⟩ := map_ok.mp h
    exact Nat.sub_zero _
  · obtain rfl := Except.ok.inj h
    rfl

/-- Bytes that are used count. -/
theorem LogReader.dist_use (p : LogReader) (n : ℕ) :
    ({ p with iBuf := p.iBuf + n } : LogReader).dist ≤ p.dist + n := by
  unfold dist
  dsimp only
  omega

theorem logReaderAppend_dist (fuel : ℕ) {nAlloc nReq n : ℕ} {z z' : List UInt8}
    (h : logReaderAppend f fuel p nAlloc z nReq = .ok (p', n, z')) :
    (nReq = 0 → p' = p) ∧ p'.since ≤ p.since + nReq ∧
      (0 < nReq → 0 < fuel → p'.dist ≤ p.since + nReq) := by
  induction fuel generalizing p nAlloc z nReq with
  | zero =>
      obtain ⟨rfl, -⟩ := Prod.mk.inj (Except.ok.inj h)
      exact ⟨fun _ => rfl, Nat.le_add_right _ _, fun _ hno => absurd hno (lt_irrefl 0)⟩
  | succ fuel ih =>
      rw [logReaderAppend] at h
      split_ifs at h with hreq
      · obtain ⟨rfl, -⟩ := Prod.mk.inj (Except.ok.inj h)
        exact ⟨fun _ => rfl, Nat.le_add_right _ _, fun hno => absurd hreq hno.ne'⟩
      obtain ⟨p1, hfill, hrest⟩ := bind_ok.mp h
      have hdist := logReaderFill_dist hfill
      have huse := p1.dist_use (min (p1.buf.length - p1.iBuf) nReq)
      obtain ⟨hsame, hsince, hmore⟩ := ih hrest
      have hmin : min (p1.buf.length - p1.iBuf) nReq ≤ nReq := Nat.min_le_right _ _
      have hle := LogReader.since_le
        { p1 with iBuf := p1.iBuf + min (p1.buf.length - p1.iBuf) nReq }
      refine ⟨fun hno => absurd hno hreq, by omega, fun _ _ => ?_⟩
      rcases Nat.eq_zero_or_pos (nReq - min (p1.buf.length - p1.iBuf) nReq) with hdone | hrem
      · rw [hsame hdone]
        omega
      · cases fuel with
        | zero =>
            obtain ⟨rfl, -⟩ := Prod.mk.inj (Except.ok.inj hrest)
            omega
        | succ fuel =>
            have hlast := hmore hrem (Nat.succ_pos _)
            omega

/-- A blob counts as many bytes as it has. -/
theorem logReaderBlob_dist {nAlloc : ℕ} {n : ℤ} {bPtr : Bool} {b : Blob}
    (h : logReaderBlob f p nAlloc n bPtr = .ok (p', b)) :
    p'.since ≤ p.since + n.toNat ∧ (0 < n → p'.dist ≤ p.since + n.toNat) := by
  unfold logReaderBlob at h
  rcases le_or_gt n 0 with hn | hn
  · rw [if_pos hn] at h
    obtain ⟨rfl, -⟩ := Prod.mk.inj (Except.ok.inj h)
    exact ⟨Nat.le_add_right _ _, fun hpos => absurd hpos (not_lt.mpr hn)⟩
  rw [if_neg (not_le.mpr hn)] at h
  obtain ⟨p1, hfill, hrest⟩ := bind_ok.mp h
  have hdist := logReaderFill_dist hfill
  have hpos : 0 < n.toNat := by omega
  suffices hle : p'.dist ≤ p.since + n.toNat from ⟨p'.since_le.trans hle, fun _ => hle⟩
  by_cases hdirect : bPtr = true ∧ n.toNat ≤ p1.buf.length - p1.iBuf
  · rw [if_pos hdirect] at hrest
    obtain ⟨rfl, -⟩ := Prod.mk.inj (Except.ok.inj hrest)
    exact (p1.dist_use n.toNat).trans (by rw [hdist])
  · rw [if_neg hdirect] at hrest
    obtain ⟨⟨q, n', z⟩, happ, heq⟩ := map_ok.mp hrest
    obtain ⟨rfl, -⟩ := Prod.mk.inj heq
    have hall := (logReaderAppend_dist _ happ).2.2 hpos hpos
    have hle := p1.since_le
    show q.dist ≤ _
    omega

theorem logReaderByte_dist {u : UInt8} (h : logReaderByte f p = .ok (p', u)) :
    p'.dist ≤ p.since + 1 := by
  obtain ⟨⟨q, b⟩, hblob, heq⟩ := map_ok.mp h
  obtain ⟨rfl, -⟩ := Prod.mk.inj heq
  exact (logReaderBlob_dist hblob).2 one_pos

/-- A varint counts as many bytes as its first byte says. -/
theorem logReaderVarint_dist (hwin : p.Window f) (hpos : 0 ≤ p.pos) {nAlloc n : ℕ} {v : ℤ}
    (h : logReaderVarint f p nAlloc = .ok (p', v, n)) :
    p'.dist ≤ p.since + lsmVarintSize (f.getD p.pos.toNat 0) := by
  obtain ⟨hlo, hhi⟩ := lsmVarintSize_bounds (f.getD p.pos.toNat 0)
  unfold logReaderVarint at h
  split_ifs at h with hall
  · obtain ⟨⟨q, b⟩, hblob, heq⟩ := map_ok.mp h
    obtain ⟨rfl, -⟩ := Prod.mk.inj heq
    have hten := (logReaderBlob_dist hblob).2 (by norm_num)
    -- of the ten bytes all but the varint are given back
    obtain ⟨q', -, -, hread⟩ := logReaderBlob_spec hwin hpos (n := 10) (by norm_num)
    obtain ⟨b', heq', hbytes, -⟩ := hread 0
    obtain ⟨rfl, rfl⟩ := Prod.mk.inj (Except.ok.inj (heq'.symm.trans hblob))
    have hsize : (lsmVarintGet32 b'.bytes).2 = lsmVarintSize (f.getD p.pos.toNat 0) := by
      rw [hbytes, lsmVarintGet32_readBytes f p.pos.toNat (by omega)]
    unfold LogReader.dist at hten ⊢
    dsimp only
    rw [hsize]
    have hten' : (10 : ℤ).toNat = 10 := rfl
    omega
  · obtain ⟨⟨q, b⟩, hblob, heq⟩ := bind_ok.mp h
    have hused := hwin.used
    have hhead : p.buf.getD p.iBuf 0 = f.getD p.pos.toNat 0 := by
      rw [(hwin.bytes p.iBuf le_rfl (by omega)).2]
      rfl
    rw [hhead] at hblob
    dsimp only at heq
    split_ifs at heq
    obtain ⟨rfl, -⟩ := Prod.mk.inj (Except.ok.inj heq)
    have hdist := (logReaderBlob_dist hblob).2 (by omega)
    rwa [Int.toNat_natCast] at hdist

/-- Behind a checksum at most its own eight bytes are counted. -/
theorem logReaderCksum_dist {nAlloc n : ℕ} {bEof : Bool}
    (h : logReaderCksum f p nAlloc = .ok (p', n, bEof)) : p'.dist ≤ 8 := by
  unfold logReaderCksum at h
  obtain ⟨⟨q, b⟩, hblob, hptr⟩ := bind_ok.mp h
  have hdist := (logReaderBlob_dist hblob).2 (by norm_num)
  have hzero : ({ p with
      cksum := logCksumUnaligned (readBytes p.buf p.iCksumBuf (p.iBuf - p.iCksumBuf)) p.cksum
      iCksumBuf := p.iBuf + 8 } : LogReader).since = 0 := by
    unfold LogReader.since LogReader.dist
    dsimp only
    rw [show p.iBuf - (p.iBuf + 8) = 0 by omega, Nat.zero_mod, ite_self]
  rw [hzero, Nat.zero_add] at hdist
  revert hptr
  dsimp only
  cases b.ptr <;> intro hptr
  · obtain ⟨rfl, -⟩ := Prod.mk.inj (Except.ok.inj hptr)
    show q.iBuf - q.iBuf ≤ 8
    omega
  · obtain ⟨rfl, -⟩ := Prod.mk.inj (Except.ok.inj hptr)
    exact hdist
  · cases hptr

/-- The varint that the file holds at the reader's offset. -/
theorem varint_at (hwin : p.Window f) (hpos : 0 ≤ p.pos) {x nAlloc n : ℕ} {v : ℤ} (hx : x < 2 ^ 31)
    (hfile : readBytes f p.pos.toNat (lsmVarintPut64 x).length = lsmVarintPut64 x)
    (h : logReaderVarint f p nAlloc = .ok (p', v, n)) :
    p'.Window f ∧ p'.pos = p.pos + (lsmVarintPut64 x).length ∧ v = x ∧
      p'.dist ≤ p.since + (lsmVarintPut64 x).length := by
  have hx' : x < 2 ^ 64 := hx.trans (by norm_num)
  obtain ⟨hlen, hsize⟩ := lsmVarintSize_put hx'
  have hfirst : f.getD p.pos.toNat 0 = (lsmVarintPut64 x).getD 0 0 := by
    rw [← hfile, getD_readBytes, if_pos hlen, add_zero]
  have hdist := logReaderVarint_dist hwin hpos h
  obtain ⟨q, hwin', hpos', hread⟩ := logReaderVarint_spec hwin hpos
  rw [hfirst, hsize] at hdist hpos'
  rw [hread] at h
  split_ifs at h
  obtain ⟨rfl, hrest⟩ := Prod.mk.inj (Except.ok.inj h)
  obtain ⟨rfl, -⟩ := Prod.mk.inj hrest
  refine ⟨hwin', hpos', ?_, hdist⟩
  have hv := (bmod_eq_iff (hx.trans (by norm_num))).mpr hx
  rw [hfirst, hsize, hfile, lsmVarintGet32_put hx']
  dsimp only
  rw [hv]

end Dist

/-! ### Records as they are read -/

/-- Lengths are values of the type `int`, and padding has a length of one byte. -/
def Item.Fits : Item → Prop
  | .pad2 pad => pad.length ≤ 240
  | .op r _ => r.key.length < 2 ^ 31 ∧ (r.val.getD []).length < 2 ^ 31
  | _ => True

/-- The file holds these bytes at the reader's offset. -/
def LogReader.At (f : LogFile) (p : LogReader) (z : List UInt8) : Prop :=
  0 ≤ p.pos ∧ readBytes f p.pos.toNat z.length = z

instance (f : LogFile) (p : LogReader) (z : List UInt8) : Decidable (p.At f z) :=
  inferInstanceAs (Decidable (_ ∧ _))

section Records

variable {f : LogFile} {p : LogReader} {s : Source} {found : Found}

theorem LogReader.At.left {x y : List UInt8} (h : p.At f (x ++ y)) : p.At f x := by
  obtain ⟨hlo, hfile⟩ := h
  rw [List.length_append, readBytes_append] at hfile
  exact ⟨hlo, List.append_inj_left hfile (readBytes_length _ _ _)⟩

/-- What follows a first part. -/
theorem LogReader.At.right {x y : List UInt8} (h : p.At f (x ++ y)) {p' : LogReader}
    (hpos : p'.pos = p.pos + x.length) : p'.At f y := by
  obtain ⟨hlo, hfile⟩ := h
  rw [List.length_append, readBytes_append] at hfile
  have hy := List.append_inj_right hfile (readBytes_length _ _ _)
  refine ⟨by omega, ?_⟩
  rwa [hpos, show (p.pos + x.length).toNat = p.pos.toNat + x.length by omega]

/-- The type byte of a record. -/
theorem readRecord_type (hwin : s.p.Window f) {eType : UInt8} {z : List UInt8}
    (hat : s.p.At f (eType :: z)) :
    ∃ p', p'.Window f ∧ p'.At f z ∧ p'.dist ≤ s.p.since + 1 ∧
      readRecord f s = readBody f { s with p := p' } eType := by
  obtain ⟨p', hwin', hpos', hbyte, -⟩ := logReaderByte_spec hwin hat.1
  have hsplit : s.p.At f ([eType] ++ z) := hat
  have htype : f.getD s.p.pos.toNat 0 = eType := (List.cons.inj hsplit.left.2).1
  refine ⟨p', hwin', hsplit.right hpos', logReaderByte_dist hbyte, ?_⟩
  unfold readRecord
  rw [hbyte, htype]
  rfl

/-- What is read of a write or a delete behind `since` bytes: the header, then the checksum or the
rule, then the data. -/
structure OpRead (f : LogFile) (bCksum : Bool) (since nHeader nData : ℕ) (found : Found)
    (p q : LogReader) (bEof : Bool) : Prop where
  header : p.dist ≤ since + nHeader
  cksum : ∃ n n' bCompared, readCksum f p n bCksum nData = .ok (q, n', bEof, bCompared)
  eof : bEof = true → found.record = .eof
  op : bEof = false → ∃ o, found.record = .op o
  data : bEof = false → found.s.p.since ≤ q.since + nData

theorem readDelete_op (hwin : s.p.Window f) {key z : List UInt8} (hkey : key.length < 2 ^ 31)
    {bCksum : Bool} (hat : s.p.At f (lsmVarintPut64 key.length ++ z))
    (hread : readDelete f s bCksum = .ok found) :
    ∃ p q bEof, OpRead f bCksum s.p.since (lsmVarintPut64 key.length).length key.length found p q
      bEof := by
  obtain ⟨⟨p, nKey, n⟩, hvarint, hrest⟩ := bind_ok.mp hread
  obtain ⟨⟨q, n', bEof, bCompared⟩, hcksum, hbody⟩ := bind_ok.mp hrest
  obtain ⟨-, -, rfl, hdist⟩ := varint_at hwin hat.1 hkey hat.left.2 hvarint
  dsimp only at hbody
  refine ⟨p, q, bEof, ?_⟩
  cases bEof with
  | true =>
      rw [if_pos rfl] at hbody
      obtain rfl := Except.ok.inj hbody
      exact ⟨hdist, ⟨_, _, _, hcksum⟩, fun _ => rfl, nofun, nofun⟩
  | false =>
      rw [if_neg Bool.false_ne_true] at hbody
      obtain ⟨⟨p', b⟩, hblob, rfl⟩ := map_ok.mp hbody
      have hdata := (logReaderBlob_dist hblob).1
      rw [Int.toNat_natCast] at hdata
      exact ⟨hdist, ⟨_, _, _, hcksum⟩, nofun, fun _ => ⟨_, rfl⟩, fun _ => hdata⟩

theorem readWrite_op (hwin : s.p.Window f) {key val z : List UInt8} (hkey : key.length < 2 ^ 31)
    (hval : val.length < 2 ^ 31) {bCksum : Bool}
    (hat : s.p.At f (lsmVarintPut64 key.length ++ (lsmVarintPut64 val.length ++ z)))
    (hread : readWrite f s bCksum = .ok found) :
    ∃ p q bEof, OpRead f bCksum s.p.since
      ((lsmVarintPut64 key.length).length + (lsmVarintPut64 val.length).length)
      (key.length + val.length) found p q bEof := by
  obtain ⟨⟨p1, nKey, n1⟩, hvarint1, hrest⟩ := bind_ok.mp hread
  obtain ⟨⟨p2, nVal, n2⟩, hvarint2, hrest⟩ := bind_ok.mp hrest
  obtain ⟨⟨q, n', bEof, bCompared⟩, hcksum, hbody⟩ := bind_ok.mp hrest
  obtain ⟨hwin1, hpos1, rfl, hdist1⟩ := varint_at hwin hat.1 hkey hat.left.2 hvarint1
  have hat1 := hat.right hpos1
  obtain ⟨-, -, rfl, hdist2⟩ := varint_at hwin1 hat1.1 hval hat1.left.2 hvarint2
  have hle := p1.since_le
  have hheader : p2.dist ≤ s.p.since +
      ((lsmVarintPut64 key.length).length + (lsmVarintPut64 val.length).length) := by
    omega
  dsimp only at hcksum hbody
  rw [← Nat.cast_add] at hcksum
  refine ⟨p2, q, bEof, ?_⟩
  cases bEof with
  | true =>
      rw [if_pos rfl] at hbody
      obtain rfl := Except.ok.inj hbody
      exact ⟨hheader, ⟨_, _, _, hcksum⟩, fun _ => rfl, nofun, nofun⟩
  | false =>
      rw [if_neg Bool.false_ne_true] at hbody
      obtain ⟨⟨p3, b⟩, hblob1, hbody⟩ := bind_ok.mp hbody
      obtain ⟨⟨p4, b'⟩, hblob2, rfl⟩ := map_ok.mp hbody
      have hdata1 := (logReaderBlob_dist hblob1).1
      have hdata2 := (logReaderBlob_dist hblob2).1
      rw [Int.toNat_natCast] at hdata1 hdata2
      change p4.since ≤ p3.since + val.length at hdata2
      exact ⟨hheader, ⟨_, _, _, hcksum⟩, nofun, fun _ => ⟨_, rfl⟩, fun _ => by
        show p4.since ≤ _
        omega⟩

/-- A write or a delete in the file. -/
theorem readRecord_op (hwin : s.p.Window f) {r : Write} {bCksum : Bool} {z : List UInt8}
    (hkey : r.key.length < 2 ^ 31) (hval : (r.val.getD []).length < 2 ^ 31)
    (hat : s.p.At f (r.header bCksum ++ z)) (hread : readRecord f s = .ok found) :
    ∃ p q bEof, OpRead f bCksum s.p.since (r.header bCksum).length r.data.length found p q
      bEof := by
  obtain ⟨key, val⟩ := r
  have hdata : (Write.data ⟨key, val⟩).length = key.length + (val.getD []).length :=
    List.length_append
  rw [hdata]
  cases val with
  | none =>
      have hat' : s.p.At f ((if bCksum then LSM_LOG_DELETE_CKSUM else LSM_LOG_DELETE) ::
        (lsmVarintPut64 key.length ++ z)) := hat
      obtain ⟨p1, hwin1, hat1, hdist1, heq⟩ := readRecord_type hwin hat'
      have hdelete : readBody f { s with p := p1 }
          (if bCksum then LSM_LOG_DELETE_CKSUM else LSM_LOG_DELETE) =
            readDelete f { s with p := p1 } bCksum := by
        cases bCksum <;> rfl
      rw [heq, hdelete] at hread
      obtain ⟨p, q, bEof, hop⟩ :=
        readDelete_op (s := { s with p := p1 }) hwin1 hkey hat1 hread
      have hle := p1.since_le
      have hheader := hop.header
      refine ⟨p, q, bEof, { hop with header := ?_ }⟩
      show p.dist ≤ s.p.since + (_ :: lsmVarintPut64 key.length).length
      rw [List.length_cons]
      dsimp only at hheader
      omega
  | some val =>
      have hat' : s.p.At f ((if bCksum then LSM_LOG_WRITE_CKSUM else LSM_LOG_WRITE) ::
          (lsmVarintPut64 key.length ++ (lsmVarintPut64 val.length ++ z))) := by
        rw [← List.append_assoc]
        exact hat
      obtain ⟨p1, hwin1, hat1, hdist1, heq⟩ := readRecord_type hwin hat'
      have hwrite : readBody f { s with p := p1 }
          (if bCksum then LSM_LOG_WRITE_CKSUM else LSM_LOG_WRITE) =
            readWrite f { s with p := p1 } bCksum := by
        cases bCksum <;> rfl
      rw [heq, hwrite] at hread
      change val.length < 2 ^ 31 at hval
      obtain ⟨p, q, bEof, hop⟩ :=
        readWrite_op (s := { s with p := p1 }) hwin1 hkey hval hat1 hread
      have hle := p1.since_le
      have hheader := hop.header
      refine ⟨p, q, bEof, { hop with header := ?_ }⟩
      show p.dist ≤ s.p.since +
        (_ :: (lsmVarintPut64 key.length ++ lsmVarintPut64 val.length)).length
      rw [List.length_cons, List.length_append]
      dsimp only at hheader
      omega

/-- With a checksum at most eight bytes are counted behind it; without one nothing is read. -/
theorem readCksum_dist {p q : LogReader} {n n' : ℕ} {nByte : ℤ} {bCksum bEof bCompared : Bool}
    (h : readCksum f p n bCksum nByte = .ok (q, n', bEof, bCompared)) :
    (bCksum = true → q.dist ≤ 8) ∧ (bCksum = false → q = p) := by
  unfold readCksum at h
  cases bCksum with
  | true =>
      rw [if_pos rfl] at h
      obtain ⟨⟨q', n'', e⟩, hck, heq⟩ := map_ok.mp h
      obtain ⟨rfl, -⟩ := Prod.mk.inj heq
      exact ⟨fun _ => logReaderCksum_dist hck, nofun⟩
  | false =>
      rw [if_neg Bool.false_ne_true] at h
      split_ifs at h
      obtain ⟨e, -, heq⟩ := map_ok.mp h
      exact ⟨nofun, fun _ => (Prod.mk.inj heq).1.symm⟩

/-- **The rule agrees** with the writer, where the count of the writer holds: a record without
a checksum is not the end of the log. -/
theorem readRecord_accepts (hwin : s.p.Window f) {r : Write} {z : List UInt8}
    (hkey : r.key.length < 2 ^ 31) (hval : (r.val.getD []).length < 2 ^ 31)
    (hat : s.p.At f (r.header false ++ z)) (hread : readRecord f s = .ok found)
    (hroom : s.p.since + (r.header false).length + r.data.length ≤ LSM_CKSUM_MAXDATA) :
    ∃ o, found.record = .op o := by
  obtain ⟨p, q, bEof, hop⟩ := readRecord_op hwin hkey hval hat hread
  obtain ⟨n, n', bCompared, hcksum⟩ := hop.cksum
  have hheader := hop.header
  unfold readCksum at hcksum
  rw [if_neg Bool.false_ne_true] at hcksum
  split_ifs at hcksum
  obtain ⟨e, hrequire, heq⟩ := map_ok.mp hcksum
  simp only [Prod.mk.injEq] at heq
  obtain ⟨-, -, rfl, -⟩ := heq
  unfold logRequireCksum at hrequire
  split_ifs at hrequire
  have he := Except.ok.inj hrequire
  unfold LogReader.dist at hheader
  apply hop.op
  rw [← he, decide_eq_false_iff_not]
  omega

theorem readPad_since (hwin : s.p.Window f) {pad : List UInt8} (hfits : pad.length ≤ 240)
    (hat : s.p.At f (.ofNat pad.length :: pad)) (hread : readPad f s = .ok found) :
    found.s.p.since ≤ s.p.since + 1 + pad.length := by
  obtain ⟨⟨p1, nPad, n1⟩, hvarint, hrest⟩ := bind_ok.mp hread
  obtain ⟨⟨p2, b⟩, hblob, rfl⟩ := map_ok.mp hrest
  have hput : lsmVarintPut64 pad.length = [.ofNat pad.length] := if_pos hfits
  have hat' : s.p.At f (lsmVarintPut64 pad.length ++ pad) := by
    rw [hput]
    exact hat
  have hlen : pad.length < 2 ^ 31 := lt_of_le_of_lt hfits (by norm_num)
  obtain ⟨-, -, rfl, hdist⟩ := varint_at hwin hat'.1 hlen hat'.left.2 hvarint
  have hdata := (logReaderBlob_dist hblob).1
  have hle := p1.since_le
  rw [Int.toNat_natCast] at hdata
  rw [hput, List.length_singleton] at hdist
  show p2.since ≤ _
  change p2.since ≤ p1.since + _ at hdata
  omega

/-- **One record.**  The reader's count stays within eight bytes of the writer's. -/
theorem readRecord_since (hwin : s.p.Window f) {i : Item} (hfits : i.Fits)
    (hat : s.p.At f i.bytes) (hread : readRecord f s = .ok found) (hne : found.record ≠ .eof)
    {d : ℕ} (hsince : s.p.since ≤ d + 8) :
    found.s.p.since ≤ i.since d + 8 ∨ ∃ iOff, found.record = .jump iOff := by
  cases i with
  | pad1 =>
      obtain ⟨p1, -, -, hdist, heq⟩ := readRecord_type hwin hat
      rw [heq] at hread
      obtain rfl := Except.ok.inj hread
      refine .inl (p1.since_le.trans (hdist.trans ?_))
      show s.p.since + 1 ≤ d + 1 + 8
      omega
  | pad2 pad =>
      obtain ⟨p1, hwin1, hat1, hdist1, heq⟩ := readRecord_type hwin hat
      have hpad : readBody f { s with p := p1 } LSM_LOG_PAD2 = readPad f { s with p := p1 } := rfl
      rw [heq, hpad] at hread
      have hall := readPad_since (s := { s with p := p1 }) hwin1 hfits hat1 hread
      have hle := p1.since_le
      left
      show found.s.p.since ≤ d + (pad.length + 1 + 1) + 8
      dsimp only at hall
      omega
  | op r cksum =>
      cases cksum with
      | none =>
          obtain ⟨p, q, bEof, hop⟩ := readRecord_op hwin hfits.1 hfits.2 hat hread
          obtain ⟨n, n', bCompared, hcksum⟩ := hop.cksum
          have hq := (readCksum_dist hcksum).2 rfl
          have hheader := hop.header
          have hdata := hop.data (Bool.eq_false_iff.mpr (mt hop.eof hne))
          have hle := p.since_le
          rw [hq] at hdata
          left
          show _ ≤ d + (r.header false ++ r.data).length + 8
          rw [List.length_append]
          omega
      | some ck =>
          have hat' : s.p.At f (r.header true ++ (cksumBytes ck ++ r.data)) := by
            rw [← List.append_assoc]
            exact hat
          obtain ⟨p, q, bEof, hop⟩ := readRecord_op hwin hfits.1 hfits.2 hat' hread
          obtain ⟨n, n', bCompared, hcksum⟩ := hop.cksum
          have hq := (readCksum_dist hcksum).1 rfl
          have hdata := hop.data (Bool.eq_false_iff.mpr (mt hop.eof hne))
          have hle := q.since_le
          left
          show _ ≤ r.data.length + 8
          omega
  | commit ck =>
      obtain ⟨p1, -, -, -, heq⟩ := readRecord_type hwin hat
      have hcommit : readBody f { s with p := p1 } LSM_LOG_COMMIT =
          readCommit f { s with p := p1 } := rfl
      rw [heq, hcommit] at hread
      obtain ⟨⟨q, n1, bEof, bCompared⟩, hcksum, rfl⟩ := map_ok.mp hread
      refine .inl (q.since_le.trans (((readCksum_dist hcksum).1 rfl).trans ?_))
      exact Nat.le_add_left _ _
  | jump iJump =>
      obtain ⟨p1, -, -, -, heq⟩ := readRecord_type hwin hat
      have hjump : readBody f { s with p := p1 } LSM_LOG_JUMP = readJump f { s with p := p1 } :=
        rfl
      rw [heq, hjump] at hread
      obtain ⟨⟨p2, iOff, n1⟩, -, rfl⟩ := map_ok.mp hread
      exact .inr ⟨iOff, rfl⟩

/-- After a jump the file is read on. -/
theorem since_jumpTo (hwin : s.p.Window f) (iOff : ℤ) : (s.jumpTo iOff).p.since ≤ 7 := by
  have hused := hwin.used
  unfold Source.jumpTo LogReader.since
  dsimp only
  rw [if_pos (by rw [List.length_take, Nat.min_eq_left hused])]
  omega

/-- One turn of the loop. -/
theorem recoveryStep_since {bSecond : Bool} {w w' : Recovery} (hwin : w.s.p.Window f) {i : Item}
    (hfits : i.Fits) (hat : w.s.p.At f i.bytes)
    (hstep : recoveryStep f bSecond w = .ok (w', false)) {d : ℕ} (hsince : w.s.p.since ≤ d + 8) :
    w'.s.p.Window f ∧ w'.s.p.since ≤ i.since d + 8 := by
  obtain ⟨found, hread, happly⟩ := bind_ok.mp hstep
  have hwin' : found.s.p.Window f := (readRecord_repeats hwin hread).1.reads.window
  have hall : found.record ≠ .eof → (∀ iOff, found.record ≠ .jump iOff) →
      found.s.p.since ≤ i.since d + 8 := fun hne hno =>
    (readRecord_since hwin hfits hat hread hne hsince).resolve_right fun ⟨iOff, hjump⟩ =>
      hno iOff hjump
  unfold applyRecord at happly
  cases hrecord : found.record with
  | pad =>
      rw [hrecord] at happly
      obtain ⟨rfl, -⟩ := Prod.mk.inj (Except.ok.inj happly)
      exact ⟨hwin', hall (by rw [hrecord]; nofun) fun _ => by rw [hrecord]; nofun⟩
  | op o =>
      rw [hrecord] at happly
      dsimp only at happly
      have hs : w'.s = found.s := by
        split_ifs at happly <;> obtain ⟨rfl, -⟩ := Prod.mk.inj (Except.ok.inj happly) <;> rfl
      rw [hs]
      exact ⟨hwin', hall (by rw [hrecord]; nofun) fun _ => by rw [hrecord]; nofun⟩
  | commit =>
      rw [hrecord] at happly
      obtain ⟨n, -, heq⟩ := map_ok.mp happly
      obtain ⟨rfl, -⟩ := Prod.mk.inj heq
      exact ⟨hwin', hall (by rw [hrecord]; nofun) fun _ => by rw [hrecord]; nofun⟩
  | jump iOff =>
      rw [hrecord] at happly
      have hs : w'.s = found.s.jumpTo iOff := by
        dsimp only at happly
        split_ifs at happly
        · obtain ⟨rfl, -⟩ := Prod.mk.inj (Except.ok.inj happly)
          rfl
        · obtain ⟨n, -, heq⟩ := map_ok.mp happly
          obtain ⟨rfl, -⟩ := Prod.mk.inj heq
          rfl
      have hle := since_jumpTo hwin' iOff
      rw [hs]
      exact ⟨window_jumpTo hwin' iOff, by omega⟩
  | eof =>
      rw [hrecord] at happly
      exact absurd (Prod.mk.inj (Except.ok.inj happly)).2 nofun

/-- A pass that finds these records one after the other, and does not end with one of them. -/
def comesTo (f : LogFile) (bSecond : Bool) : List Item → Recovery → Option Recovery
  | [], w => some w
  | i :: log, w =>
      if w.s.p.At f i.bytes then
        match recoveryStep f bSecond w with
        | .ok (w', false) => comesTo f bSecond log w'
        | _ => none
      else none

/-- **The count of the reader** over the records that a pass has read. -/
theorem comesTo_since {bSecond : Bool} {log : List Item} (hfits : ∀ i ∈ log, i.Fits)
    {w w' : Recovery} (hcomes : comesTo f bSecond log w = some w') (hwin : w.s.p.Window f) {d : ℕ}
    (hsince : w.s.p.since ≤ d + 8) :
    w'.s.p.Window f ∧ w'.s.p.since ≤ log.foldl Item.since d + 8 := by
  induction log generalizing w d with
  | nil =>
      obtain rfl := Option.some.inj hcomes
      exact ⟨hwin, hsince⟩
  | cons i log ih =>
      obtain ⟨hfirst, hrest⟩ := List.forall_mem_cons.mp hfits
      unfold comesTo at hcomes
      split_ifs at hcomes with hat
      split at hcomes
      · rename_i w1 hstep
        obtain ⟨hwin1, hsince1⟩ := recoveryStep_since hwin hfirst hat hstep hsince
        exact ih hrest hcomes hwin1 hsince1
      · cases hcomes

end Records

end Lsm.Log

end MoVeBench
