/-
MoVeBench/Lsm/LogJump.lean

Offsets on their way through the log (`jumpIfRequired`, `lsmLogTell`, `lsmLogSeek` and the JUMP
record of `lsmLogRecover`).

The target of a jump is written with all its bits, but it is read into an `int`, so that recovery
goes on where the writer went on just for targets below `2 ^ 31` (`offsetsKept_iff`).  A second
condition is on the reader: where the end of what it has read lies inside the record, the scratch
string must have memory.  A mark always leads back to its own offset, also where the mask of
32 bits cuts the upper half of the offset off.
-/
import MoVeBench.Lsm.LogRecover

namespace MoVeBench

namespace Lsm.Log

open Bytes Seg

/-! ### What was written -/

/-- The file after a write. -/
theorem readBytes_lsmFsWriteLog (f : LogFile) (iOff : ℕ) (data : List UInt8) {k n : ℕ}
    (h : k + n ≤ data.length) :
    readBytes (lsmFsWriteLog f iOff data) (iOff + k) n = readBytes data k n := by
  apply readBytes_written _ h
  rw [List.length_append, List.length_replicate]
  omega

/-- Bytes that are not written to. -/
theorem getD_lsmFsWriteLog_of_ne (f : LogFile) {iOff : ℕ} {data : List UInt8} {i : ℕ}
    (h : i < iOff ∨ iOff + data.length ≤ i) :
    (lsmFsWriteLog f iOff data).getD i 0 = f.getD i 0 := by
  unfold lsmFsWriteLog
  rw [writeBytes_getD_of_ne h]
  rcases Nat.lt_or_ge i f.length with hi | hi
  · exact List.getD_append _ _ _ _ hi
  · rw [List.getD_append_right _ _ _ _ hi, List.getD_eq_default _ _ hi,
      List.getD_eq_getElem?_getD, List.getElem?_replicate]
    split_ifs <;> rfl

/-- The JUMP record ends the buffer. -/
theorem jumpBuf_record (w : LogWriter) :
    (jumpRecord (w.jump.iEnd + 1)).length ≤ w.jumpBuf.length ∧
      readBytes w.jumpBuf (w.jumpBuf.length - (jumpRecord (w.jump.iEnd + 1)).length)
        (jumpRecord (w.jump.iEnd + 1)).length = jumpRecord (w.jump.iEnd + 1) := by
  unfold LogWriter.jumpBuf
  dsimp only
  rw [@List.length_append _ (_ ++ _) (jumpRecord _), Nat.add_sub_cancel]
  exact ⟨Nat.le_add_left _ _, readBytes_append_right _ _⟩

/-- The file after a jump. -/
theorem jumpIfRequired_file {f : LogFile} {w : LogWriter} {nReq : ℕ} (h : w.MustJump nReq) :
    (jumpIfRequired f w nReq).1 = lsmFsWriteLog f w.iOff w.jumpBuf ∧
      (jumpIfRequired f w nReq).2.1.iRegion1End = w.iOff + w.jumpBuf.length ∧
        (jumpIfRequired f w nReq).2.1.iOff = w.jump.iEnd + 1 := by
  unfold jumpIfRequired
  rw [if_pos h]
  exact ⟨rfl, rfl, rfl⟩

/-! ### Varints of offsets -/

/-- What a varint reads as. -/
theorem lsmVarintGet32_put {x : ℕ} (h : x < 2 ^ 64) :
    lsmVarintGet32 (lsmVarintPut64 x) = (Int.bmod x (2 ^ 32), (lsmVarintPut64 x).length) := by
  have hput := lsmVarintGet64_put h []
  rw [List.append_nil] at hput
  have hget : sqlite4GetVarint64 (lsmVarintPut64 x) = some (x, (lsmVarintPut64 x).length) := hput
  unfold lsmVarintGet32
  rw [hget, Option.map_some, Option.getD_some]

/-- The first byte of a varint tells its length. -/
theorem lsmVarintSize_put {x : ℕ} (h : x < 2 ^ 64) :
    0 < (lsmVarintPut64 x).length ∧
      lsmVarintSize ((lsmVarintPut64 x).getD 0 0) = (lsmVarintPut64 x).length := by
  have hget : sqlite4GetVarint64 (lsmVarintPut64 x ++ List.replicate 9 0) =
    some (x, (lsmVarintPut64 x).length) := lsmVarintGet64_put h _
  have hlen : 9 ≤ (lsmVarintPut64 x ++ List.replicate 9 0).length := by
    rw [List.length_append, List.length_replicate]
    omega
  obtain ⟨hlo, hhi⟩ :=
    lsmVarintSize_bounds ((lsmVarintPut64 x ++ List.replicate 9 0).getD 0 0)
  obtain ⟨v, hv⟩ := sqlite4GetVarint64_size (by omega) (hhi.trans hlen)
  have hsize := (Prod.mk.inj (Option.some.inj (hget.symm.trans hv))).2
  have hpos : 0 < (lsmVarintPut64 x).length := hsize ▸ hlo
  refine ⟨hpos, ?_⟩
  rw [List.getD_append _ _ _ _ hpos] at hsize
  exact hsize.symm

/-! ### Reading the record -/

/-- A jump that is read is the next offset. -/
theorem pos_jumpTo {f : LogFile} {s : Source} (h : s.p.Window f) (iOff : ℤ) :
    (s.jumpTo iOff).p.pos = iOff := by
  have hused := h.used
  unfold Source.jumpTo LogReader.pos
  dsimp only
  rw [List.length_take, Nat.min_eq_left hused]
  omega

/-- The end of what was read lies inside a record of `n` bytes, for which the scratch string has
no room. -/
def Source.Crosses (s : Source) (n : ℕ) : Prop :=
  1 < s.p.nAvail ∧ s.p.nAvail < n ∧ s.nAlloc1 < n

instance (s : Source) (n : ℕ) : Decidable (s.Crosses n) := inferInstanceAs (Decidable (_ ∧ _ ∧ _))

/-- A JUMP record that the file holds at the reader's offset. -/
theorem readRecord_jump {f : LogFile} {s : Source} (h : s.p.Window f) (hpos : 0 ≤ s.p.pos)
    {t : ℕ} (ht : t < 2 ^ 64)
    (hfile : readBytes f s.p.pos.toNat (jumpRecord t).length = jumpRecord t) :
    s.Crosses (jumpRecord t).length ∧ readRecord f s = .error .undefined ∨
      ¬ s.Crosses (jumpRecord t).length ∧ ∃ p', p'.Window f ∧
        readRecord f s =
          .ok ⟨⟨p', s.nAlloc1, s.nAlloc2⟩, .jump (Int.bmod t (2 ^ 32)), true, true⟩ := by
  obtain ⟨p1, hwin1, hpos1, hbyte, havail1⟩ := logReaderByte_spec h hpos
  obtain ⟨p2, hwin2, hpos2, hvarint⟩ := logReaderVarint_spec hwin1 (by omega)
  obtain ⟨hlen, hsize⟩ := lsmVarintSize_put ht
  have hrec : (jumpRecord t).length = 1 + (lsmVarintPut64 t).length := Nat.add_comm _ _
  rw [hrec, readBytes_append] at hfile
  change _ = [LSM_LOG_JUMP] ++ lsmVarintPut64 t at hfile
  obtain ⟨htype, hrest⟩ := List.append_inj hfile (readBytes_length _ _ _)
  have htype : f.getD s.p.pos.toNat 0 = LSM_LOG_JUMP := (List.cons.inj htype).1
  rw [show s.p.pos.toNat + 1 = p1.pos.toNat by omega] at hrest
  have hfirst : f.getD p1.pos.toNat 0 = (lsmVarintPut64 t).getD 0 0 := by
    rw [← hrest, getD_readBytes, if_pos hlen, add_zero]
  rw [hfirst, hsize] at hvarint
  have hread : readRecord f s = readJump f { s with p := p1 } := by
    unfold readRecord
    rw [hbyte, htype]
    rfl
  have hcross : s.Crosses (jumpRecord t).length ↔
      p1.nAvail < (lsmVarintPut64 t).length ∧ s.nAlloc1 ≤ (lsmVarintPut64 t).length := by
    have hany : 0 < s.p.nAvail := (logReaderFill_spec h hpos).choose_spec.2.2.2.2
    have hmax := lsmVarintPut64_length ht
    unfold Source.Crosses
    rw [hrec, havail1]
    unfold LOG_READ_SIZE
    split_ifs <;> omega
  rw [hread, readJump, hvarint, hrest, lsmVarintGet32_put ht, hcross]
  by_cases hbad : p1.nAvail < (lsmVarintPut64 t).length ∧ s.nAlloc1 ≤ (lsmVarintPut64 t).length
  · left
    rw [if_pos hbad]
    exact ⟨hbad, rfl⟩
  · right
    rw [if_neg hbad]
    refine ⟨hbad, p2, hwin2, ?_⟩
    simp only [Except.map]

/-- A target that an `int` holds. -/
theorem bmod_eq_iff {t : ℕ} (h : t < 2 ^ 62) : Int.bmod t (2 ^ 32) = t ↔ t < 2 ^ 31 := by
  refine ⟨fun heq => ?_, fun hlt => Int.bmod_eq_of_le (by omega) (by omega)⟩
  have hlt := Int.bmod_lt (x := t) (show 0 < 2 ^ 32 by omega)
  omega

/-! ### Marks -/

/-- A rewind goes back to the offset of the mark. -/
theorem lsmLogSeek_end (w w' : LogWriter) (h : (lsmLogTell w).2.iOff ≤ w'.end) :
    (lsmLogSeek w' (lsmLogTell w).2).end = (lsmLogTell w).2.iOff := by
  have hbuf : (lsmLogTell w).2.aBuf.length ≤ (lsmLogTell w).2.iOff := by
    show (w.buf.drop _).length ≤ w.iOff + w.buf.length
    rw [List.length_drop]
    omega
  have hmask : (lsmLogTell w).2.iOff &&& 0xFFFFFFF8 ≤ (lsmLogTell w).2.iOff := Nat.and_le_left
  unfold LogWriter.end at h ⊢
  unfold lsmLogSeek
  dsimp only
  split_ifs with hin
  · dsimp only
    rw [List.length_take]
    omega
  · dsimp only
    omega

/-! ### The offsets -/

/-- Recovery, at a JUMP record, goes on at an offset. -/
def Continues (f : LogFile) (s : Source) (t : ℕ) : Prop :=
  ∃ r, readRecord f s = .ok r ∧ ∃ iOff, r.record = .jump iOff ∧ (r.s.jumpTo iOff).p.pos = t

/-- Where recovery goes on after a jump. -/
theorem continues_iff {f : LogFile} {w : LogWriter} {nReq : ℕ} (hjump : w.MustJump nReq)
    (ht : w.jump.iEnd + 1 < 2 ^ 62) {s : Source}
    (hwin : s.p.Window (jumpIfRequired f w nReq).1)
    (hpos : s.p.pos + (jumpRecord (w.jump.iEnd + 1)).length =
      (jumpIfRequired f w nReq).2.1.iRegion1End) :
    Continues (jumpIfRequired f w nReq).1 s (jumpIfRequired f w nReq).2.1.iOff ↔
      w.jump.iEnd + 1 < 2 ^ 31 ∧ ¬ s.Crosses (jumpRecord (w.jump.iEnd + 1)).length := by
  obtain ⟨hfile, hend, hoff⟩ := jumpIfRequired_file (f := f) hjump
  obtain ⟨hlen, hrec⟩ := jumpBuf_record w
  have hat : s.p.pos.toNat =
      w.iOff + (w.jumpBuf.length - (jumpRecord (w.jump.iEnd + 1)).length) := by
    rw [hend] at hpos
    omega
  have hbytes : readBytes (jumpIfRequired f w nReq).1 s.p.pos.toNat
      (jumpRecord (w.jump.iEnd + 1)).length = jumpRecord (w.jump.iEnd + 1) := by
    rw [hfile, hat, readBytes_lsmFsWriteLog _ _ _ (by omega), hrec]
  rw [hoff]
  unfold Continues
  rcases readRecord_jump hwin (by rw [hend] at hpos; omega) (ht.trans (by norm_num)) hbytes with
    ⟨hcross, hread⟩ | ⟨hcross, p', hwin', hread⟩
  · rw [hread]
    exact iff_of_false nofun fun hno => hno.2 hcross
  · have hnext := pos_jumpTo (s := ⟨p', s.nAlloc1, s.nAlloc2⟩) hwin'
    rw [and_iff_left hcross, ← bmod_eq_iff ht, hread]
    constructor
    · rintro ⟨r, heq, iOff, hrecord, hpos'⟩
      obtain rfl := Except.ok.inj heq
      obtain rfl := Record.jump.inj hrecord
      rwa [hnext] at hpos'
    · intro heq
      exact ⟨_, rfl, _, rfl, (hnext _).trans heq⟩

/-- No offset is changed: recovery goes on where the writer went on, and every rewind to a mark
leads back to the offset of the mark. -/
def OffsetsKept (f : LogFile) (w : LogWriter) (nReq : ℕ) (s : Source) : Prop :=
  Continues (jumpIfRequired f w nReq).1 s (jumpIfRequired f w nReq).2.1.iOff ∧
    ∀ w', (lsmLogTell w).2.iOff ≤ w'.end →
      (lsmLogSeek w' (lsmLogTell w).2).end = (lsmLogTell w).2.iOff

/-- **Offsets are kept** exactly for targets of 31 bits, unless the record crosses the end of what
was read while the scratch string has no room. -/
theorem offsetsKept_iff {f : LogFile} {w : LogWriter} {nReq : ℕ} (hjump : w.MustJump nReq)
    (ht : w.jump.iEnd + 1 < 2 ^ 62) {s : Source}
    (hwin : s.p.Window (jumpIfRequired f w nReq).1)
    (hpos : s.p.pos + (jumpRecord (w.jump.iEnd + 1)).length =
      (jumpIfRequired f w nReq).2.1.iRegion1End) :
    OffsetsKept f w nReq s ↔
      w.jump.iEnd + 1 < 2 ^ 31 ∧ ¬ s.Crosses (jumpRecord (w.jump.iEnd + 1)).length := by
  have hseek : ∀ w', (lsmLogTell w).2.iOff ≤ w'.end →
      (lsmLogSeek w' (lsmLogTell w).2).end = (lsmLogTell w).2.iOff :=
    fun w' hle => lsmLogSeek_end w w' hle
  rw [← continues_iff hjump ht hwin hpos]
  exact and_iff_left hseek

/-- A writer at the start of the file, in front of a region that ends before `iJump`. -/
def writerBefore (iJump : ℕ) : LogWriter := { cksum := (0, 0), iOff := 0, jump := ⟨1, iJump - 1⟩ }

/-- A jump to offset 100. -/
theorem offsetsKept_hundred :
    OffsetsKept [] (writerBefore 100) 10 { p := logReaderInit 6 (0, 0) } :=
  (offsetsKept_iff (by decide) (by decide) (LogReader.window_init _ 6 (0, 0)) (by decide)).mpr
    (by decide)

/-- A jump to offset `2 ^ 31`. -/
theorem not_offsetsKept_gigabytes :
    ¬ OffsetsKept [] (writerBefore (2 ^ 31)) 10 { p := logReaderInit 2 (0, 0) } := by
  intro h
  have hsmall := (continues_iff (by decide) (by decide) (LogReader.window_init _ 2 (0, 0))
    (by decide)).mp h.1
  exact absurd hsmall.1 (by decide)

end Lsm.Log

end MoVeBench
