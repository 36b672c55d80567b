/-
MoVeBench/Lsm/LogRewind.lean

Rewinds inside a transaction (`lsmLogTell`, `lsmLogSeek` and `lsmLogEnd` of `lsm_log.c`).

A transaction with rewinds is compared with the transaction that has just the records that
survive them.  A mark is the mark that the other transaction would have taken, and a rewind to it
leads back to the other transaction at that time (`Tracks.seek`).

Three things go wrong.  Where the writer has jumped, a rewind drops the first region when the
mark lies behind it, and keeps it when the mark lies in front of it.  Where the mark is in the
file, the buffer has fewer bytes than the bytes since the last checksum, so that a checksum may
be left out.  And the mask of 32 bits takes a mark far out in the buffer for one in the file.
In every run without these the two logs are the same (`sameLog_of_keeps`).
-/
import MoVeBench.Lsm.LogTrack

namespace MoVeBench

namespace Lsm.Log

open Bytes Seg

/-! ### The begin of a transaction -/

def LSM_MIN_LOGWRAP : ℕ := 128 * 1024

def firstByteOnSector (szSector iOff : ℕ) : ℕ := iOff / szSector * szSector

def lastByteOnSector (szSector iOff : ℕ) : ℕ := firstByteOnSector szSector iOff + szSector - 1

/-- Where `lsmLogBegin` sets the writer, before the region to jump over is rounded. -/
def beginWriter (f : LogFile) (pLog : DbLog) (szSector : ℕ) : LogFile × DbLog × LogWriter :=
  let aReg := pLog.aRegion
  let pNew : LogWriter := { cksum := pLog.cksum, iOff := 0, szSector := szSector }
  if (aReg 0).iEnd = 0 ∧ (aReg 1).iEnd = 0 ∧ LSM_MIN_LOGWRAP ≤ (aReg 2).iStart then
    -- wrap around to the start of the file
    let aJump := [LSM_LOG_PAD2, 0x04, 0x00, 0x00, 0x00, 0x00, LSM_LOG_JUMP, 0x00]
    let pNew := logUpdateCksum { pNew with buf := aJump } aJump.length
    let r := { aReg 2 with iEnd := (aReg 2).iEnd + 8 }
    (lsmFsWriteLog f (aReg 2).iEnd aJump, { pLog with aRegion := ![r, aReg 1, {}] },
      { pNew with iCksumBuf := 0, buf := [], jump := r })
  else if (aReg 1).iEnd = 0 ∧ (aReg 2).iEnd < (aReg 0).iEnd then
    (f, pLog, { pNew with iOff := (aReg 2).iEnd, jump := aReg 0 })
  else (f, pLog, { pNew with iOff := (aReg 2).iEnd })

/-- The region to jump over, in whole sectors. -/
def LogWriter.roundJump (pNew : LogWriter) : LogWriter :=
  if pNew.jump.iStart ≠ 0 then
    let iRound := firstByteOnSector pNew.szSector pNew.jump.iStart
    { pNew with
      jump :=
        { iStart := if pNew.iOff < iRound then iRound else pNew.jump.iStart
          iEnd := lastByteOnSector pNew.szSector pNew.jump.iEnd } }
  else pNew

/-- `lsmLogBegin`, once log space is reclaimed. -/
def lsmLogBegin (f : LogFile) (pLog : DbLog) (szSector : ℕ) : LogFile × DbLog × LogWriter :=
  let s := beginWriter f pLog szSector
  (s.1, s.2.1, s.2.2.roundJump)

/-- A writer at the begin of a transaction: nothing is written, and the region to jump over is
a region. -/
structure LogWriter.Begun (w : LogWriter) : Prop where
  iCksumBuf : w.iCksumBuf = 0
  buf : w.buf = []
  iRegion1End : w.iRegion1End = 0
  iRegion2Start : w.iRegion2Start = 0
  jump : w.jump.iStart ≤ w.jump.iEnd

theorem le_lastByteOnSector {szSector : ℕ} (h : 0 < szSector) (iOff : ℕ) :
    iOff ≤ lastByteOnSector szSector iOff := by
  have hdiv := Nat.div_add_mod' iOff szSector
  have hmod := Nat.mod_lt iOff h
  unfold lastByteOnSector firstByteOnSector
  omega

theorem LogWriter.Begun.roundJump {w : LogWriter} (h : w.Begun) (hsector : 0 < w.szSector) :
    w.roundJump.Begun := by
  unfold LogWriter.roundJump
  split_ifs with hjump
  · refine ⟨h.iCksumBuf, h.buf, h.iRegion1End, h.iRegion2Start, ?_⟩
    have hfirst : firstByteOnSector w.szSector w.jump.iStart ≤ w.jump.iStart :=
      Nat.div_mul_le_self _ _
    have hlast := le_lastByteOnSector hsector w.jump.iEnd
    have hle := h.jump
    dsimp only
    split_ifs <;> omega
  · exact h

/-- What `lsmLogBegin` leaves, where the regions are regions. -/
theorem lsmLogBegin_begun (f : LogFile) {pLog : DbLog} {szSector : ℕ} (hsector : 0 < szSector)
    (hregions : ∀ i, (pLog.aRegion i).iStart ≤ (pLog.aRegion i).iEnd) :
    (lsmLogBegin f pLog szSector).2.2.Begun := by
  have hbegin : (beginWriter f pLog szSector).2.2.Begun ∧
      (beginWriter f pLog szSector).2.2.szSector = szSector := by
    unfold beginWriter
    dsimp only
    split_ifs
    · exact ⟨⟨rfl, rfl, rfl, rfl, (hregions 2).trans (Nat.le_add_right _ _)⟩, rfl⟩
    · exact ⟨⟨rfl, rfl, rfl, rfl, hregions 0⟩, rfl⟩
    · exact ⟨⟨rfl, rfl, rfl, rfl, le_rfl⟩, rfl⟩
  exact hbegin.1.roundJump (hbegin.2.symm ▸ hsector)

/-! ### Runs of a transaction -/

/-- What a caller does in a transaction.  A mark is used in stack order: a rewind goes to the
mark that is on top once some are released, and keeps it. -/
inductive TransOp
  | write (r : Write)
  | tell
  | seek (nRelease : ℕ)
  | release (nRelease : ℕ)

/-- A transaction on its way, with the records that have survived so far.  A mark remembers the
records of its time. -/
structure Trans where
  f : LogFile
  w : LogWriter
  marks : List (LogMark × List Write) := []
  kept : List Write := []

def Trans.step (s : Trans) : TransOp → Trans
  | .write r =>
      { s with
        f := (lsmLogWrite s.f s.w r).1
        w := (lsmLogWrite s.f s.w r).2
        kept := s.kept ++ [r] }
  | .tell =>
      { s with w := (lsmLogTell s.w).1, marks := ((lsmLogTell s.w).2, s.kept) :: s.marks }
  | .seek n =>
      match s.marks.drop n with
      | [] => s
      | m :: marks => { s with w := lsmLogSeek s.w m.1, marks := m :: marks, kept := m.2 }
  | .release n => { s with marks := s.marks.drop n }

/-- The transaction with these records only. -/
def written (f : LogFile) (w : LogWriter) (kept : List Write) : LogFile × LogWriter :=
  kept.foldl (fun s r => lsmLogWrite s.1 s.2 r) (f, w)

/-! ### Marks of earlier times -/

section Marks

variable {iStart d : ℕ} {f g : LogFile} {w c : LogWriter}

/-- A log comes after another one: unless it has jumped, what was written is there, and the last
checksum is the same or comes later. -/
structure Extends (iStart : ℕ) (g₁ : LogFile) (c₁ : LogWriter) (g : LogFile) (c : LogWriter) :
    Prop where
  jump : c₁.jump = c.jump
  szSector : c₁.szSector = c.szSector
  first : c.iRegion1End = 0 → c₁.iRegion1End = 0
  bytes : c.iRegion1End = 0 → ∀ i, iStart ≤ i → i < c₁.iOff → g.getD i 0 = g₁.getD i 0
  rest : c.iRegion1End = 0 →
    (c₁.iOff = c.iOff ∧ c₁.cksum = c.cksum ∧ c₁.buf <+: c.buf) ∨
      (c₁.end < c.iOff ∧ ∀ i < c₁.buf.length, g.getD (c₁.iOff + i) 0 = c₁.buf.getD i 0)

theorem Extends.refl (g : LogFile) (c : LogWriter) : Extends iStart g c g c :=
  ⟨rfl, rfl, id, fun _ _ _ _ => rfl, fun _ => .inl ⟨rfl, rfl, List.prefix_rfl⟩⟩

theorem Extends.append (g : LogFile) (c : LogWriter) (data : List UInt8) :
    Extends iStart g c g { c with buf := c.buf ++ data } :=
  ⟨rfl, rfl, id, fun _ _ _ _ => rfl, fun _ => .inl ⟨rfl, rfl, List.prefix_append _ _⟩⟩

theorem Extends.flush (g : LogFile) (c : LogWriter) :
    Extends iStart g c (logCksumAndFlush g c).1 (logCksumAndFlush g c).2 := by
  rw [logCksumAndFlush_eq g c rfl]
  refine ⟨rfl, rfl, id, fun _ i _ hi => getD_lsmFsWriteLog_of_ne g (.inl hi),
    fun _ => .inr ⟨?_, ?_⟩⟩
  · show c.iOff + c.buf.length < c.iOff + (c.buf ++ (lsmPutU32 _ ++ lsmPutU32 _)).length
    rw [List.length_append, List.length_append, lsmPutU32, lsmPutU32, beBytes_length,
      beBytes_length]
    omega
  · intro i hi
    rw [getD_lsmFsWriteLog g (hi.trans_le (by
      rw [List.length_append]
      exact Nat.le_add_right _ _))]
    exact List.getD_append _ _ _ _ hi

theorem Extends.jumpOver (g : LogFile) (c : LogWriter) (nReq : ℕ) :
    Extends iStart g c (jumpIfRequired g c nReq).1 (jumpIfRequired g c nReq).2.1 := by
  by_cases hjump : c.MustJump nReq
  · have hpos := c.jumpTail_length
    rw [jumpIfRequired_eq g hjump rfl]
    have hne : c.iOff + (c.buf ++ c.jumpTail).length ≠ 0 := by
      rw [List.length_append]
      omega
    exact ⟨rfl, rfl, fun h => absurd h hne, fun h => absurd h hne, fun h => absurd h hne⟩
  · unfold jumpIfRequired
    rw [if_neg hjump]
    exact .refl g c

theorem Extends.trans {g₁ g₂ g₃ : LogFile} {c₁ c₂ c₃ : LogWriter}
    (h : Extends iStart g₁ c₁ g₂ c₂) (h' : Extends iStart g₂ c₂ g₃ c₃)
    (hs : c₁.Straight iStart) : Extends iStart g₁ c₁ g₃ c₃ := by
  refine ⟨h.jump.trans h'.jump, h.szSector.trans h'.szSector, fun hno => h.first (h'.first hno),
    fun hno i hlo hhi => ?_, fun hno => ?_⟩
  · have hle : c₁.iOff ≤ c₂.iOff := by
      rcases h.rest (h'.first hno) with ⟨heq, -, -⟩ | ⟨hlt, -⟩
      · exact heq.le
      · unfold LogWriter.end at hlt
        omega
    rw [h'.bytes hno i hlo (hhi.trans_le hle), h.bytes (h'.first hno) i hlo hhi]
  · have hstart := (hs.start (h.first (h'.first hno))).1
    rcases h.rest (h'.first hno) with ⟨heq, hck, hpre⟩ | ⟨hlt, hbytes⟩
    · rcases h'.rest hno with ⟨heq', hck', hpre'⟩ | ⟨hlt', hbytes'⟩
      · exact .inl ⟨heq.trans heq', hck.trans hck', hpre.trans hpre'⟩
      · -- the second log has flushed what was in the buffer
        have hlen := hpre.length_le
        refine .inr ⟨?_, fun i hi => ?_⟩
        · unfold LogWriter.end at hlt' ⊢
          omega
        · obtain ⟨rest, hrest⟩ := hpre
          rw [heq, hbytes' i (hi.trans_le hlen), ← hrest]
          exact List.getD_append _ _ _ _ hi
    · refine .inr ⟨?_, fun i hi => ?_⟩
      · rcases h'.rest hno with ⟨heq', -, -⟩ | ⟨hlt', -⟩
        · exact heq' ▸ hlt
        · unfold LogWriter.end at hlt'
          omega
      · unfold LogWriter.end at hlt
        rw [h'.bytes hno _ (by omega) (by omega), hbytes i hi]

theorem Extends.record (g : LogFile) (hs : c.Straight iStart) (r : Write) (bCksum : Bool) :
    Extends iStart g c (logRecord g c r bCksum).1 (logRecord g c r bCksum).2 := by
  cases bCksum with
  | false => exact (Extends.append g c _).trans (.append g _ _) hs
  | true => exact ((Extends.append g c _).trans (.flush g _) hs).trans (.append _ _ _) hs

/-- A write comes after what was there. -/
theorem Extends.write (g : LogFile) (hs : c.Straight iStart) (r : Write) :
    Extends iStart g c (lsmLogWrite g c r).1 (lsmLogWrite g c r).2 := by
  rw [lsmLogWrite_eq]
  exact (Extends.jumpOver g c _).trans (.record _ (hs.jumpOver g _) r _) hs

/-- The writer finds its way back to a mark: the mark is taken for one in the buffer, or what is
in front of the mark's own bytes is in the file. -/
def LogWriter.Finds (w : LogWriter) (m : LogMark) : Prop :=
  w.iOff ≤ m.iOff &&& 0xFFFFFFF8 ∨ m.iOff - m.aBuf.length ≤ w.iOff

instance (w : LogWriter) (m : LogMark) : Decidable (w.Finds m) :=
  inferInstanceAs (Decidable (_ ∨ _))

/-- The mask clears the last three bits of an offset of 32 bits. -/
theorem and_mask {x : ℕ} (h : x < 2 ^ 32) : x &&& 0xFFFFFFF8 = x / 8 * 8 := by
  apply Nat.eq_of_testBit_eq
  intro i
  rw [show 0xFFFFFFF8 = (2 ^ 29 - 1) <<< 3 by rfl, show x / 8 * 8 = (x >>> 3) <<< 3 by
    rw [Nat.shiftRight_eq_div_pow, Nat.shiftLeft_eq]]
  rw [Nat.testBit_and, Nat.testBit_shiftLeft, Nat.testBit_shiftLeft, Nat.testBit_two_pow_sub_one,
    Nat.testBit_shiftRight]
  by_cases hi : 3 ≤ i
  · rw [show 3 + (i - 3) = i by omega]
    by_cases hlt : i < 32
    · simp [hi, show i - 3 < 29 by omega]
    · have hzero : x.testBit i = false :=
        Nat.testBit_lt_two_pow (h.trans_le (Nat.pow_le_pow_right (by norm_num) (by omega)))
      simp [hzero]
  · simp [hi]

/-- Every mark below four gigabytes is found. -/
theorem Tracks.finds {g₁ : LogFile} {c₁ : LogWriter} (h : Tracks iStart d f w g c)
    (hext : Extends iStart g₁ c₁ g c) (hregion : w.iRegion1End = 0)
    (hlt : (lsmLogTell c₁).2.iOff < 2 ^ 32) : w.Finds (lsmLogTell c₁).2 := by
  have hmark : (lsmLogTell c₁).2.iOff = c₁.iOff + c₁.buf.length := rfl
  have hodd : (lsmLogTell c₁).2.aBuf.length = c₁.buf.length - c₁.buf.length / 8 * 8 :=
    List.length_drop
  have hdvd := h.dvd
  unfold LogWriter.Finds
  rw [and_mask hlt, hodd, hmark, h.iOff]
  rcases hext.rest (h.iRegion1End.symm.trans hregion) with ⟨hoff, -, -⟩ | ⟨hend, -⟩
  · rw [hoff]
    omega
  · unfold LogWriter.end at hend
    omega

/-- A rewind that ends at a mark of the other log. -/
theorem Tracks.atMark {g₁ : LogFile} {c₁ : LogWriter} {iOff iCksumBuf : ℕ} {buf : List UInt8}
    (h : Tracks iStart d f w g c) (hs : c.Straight iStart) (hs₁ : c₁.Straight iStart)
    (hext : Extends iStart g₁ c₁ g c) (hregion : w.iRegion1End = 0) {d' : ℕ} (hdvd : 8 ∣ d')
    (hle : d' ≤ c₁.buf.length) (hoff : iOff = c₁.iOff + d') (hbuf : buf = c₁.buf.drop d')
    (hcksum : d' + iCksumBuf = c₁.buf.length / 8 * 8)
    (hheld : ∀ i < d', f.getD (c₁.iOff + i) 0 = c₁.buf.getD i 0) :
    Tracks iStart d' f
      { w with
        buf := buf
        iCksumBuf := iCksumBuf
        iOff := iOff
        cksum := (lsmLogTell c₁).2.cksum
        iRegion1End :=
          if w.iRegion1End < (lsmLogTell c₁).2.iOff then 0 else w.iRegion1End
        iRegion2Start :=
          if w.iRegion2Start < (lsmLogTell c₁).2.iOff then 0 else w.iRegion2Start } g₁ c₁ := by
  have hno : c.iRegion1End = 0 := h.iRegion1End.symm.trans hregion
  have hno₁ := hext.first hno
  have hregion2 : w.iRegion2Start = 0 := h.iRegion2Start.trans (hs.start hno).2
  have hck := (hs₁.tracks g₁).cksumAt (n := c₁.buf.length / 8 * 8)
    (by rw [hs₁.iCksumBuf]; exact Nat.zero_le _) (Nat.div_mul_le_self _ _)
  rw [Nat.zero_add] at hck
  have hlen : buf.length = c₁.buf.length - d' := by rw [hbuf, List.length_drop]
  rw [hregion, hregion2, ite_self]
  exact
    { dvd := hdvd
      le := hle
      iOff := hoff
      buf := hbuf
      iCksumBuf_dvd := (Nat.dvd_add_right hdvd).mp (hcksum ▸ Nat.dvd_mul_left _ _)
      iCksumBuf_le := by
        show iCksumBuf ≤ buf.length
        omega
      cksum := by
        rw [hcksum]
        exact hck
      jump := h.jump.trans hext.jump.symm
      szSector := h.szSector.trans hext.szSector.symm
      iRegion1End := hno₁.symm
      iRegion2Start := (hs₁.start hno₁).2.symm
      held := hheld
      jumped := fun hne => absurd hno₁ hne
      bytes := by
        intro i hi
        unfold LogWriter.Live at hi
        rw [if_pos hno₁] at hi
        have hle' : c₁.iOff ≤ c.iOff := by
          rcases hext.rest hno with ⟨heq, -, -⟩ | ⟨hlt, -⟩
          · exact heq.le
          · unfold LogWriter.end at hlt
            omega
        rw [← hext.bytes hno i hi.1 hi.2]
        apply h.bytes
        unfold LogWriter.Live
        rw [if_pos hno]
        exact ⟨hi.1, hi.2.trans_le hle'⟩ }

/-- **A rewind** leads back to the other log at the time of the mark. -/
theorem Tracks.seek {g₁ : LogFile} {c₁ : LogWriter} (h : Tracks iStart d f w g c)
    (hs : c.Straight iStart) (hs₁ : c₁.Straight iStart) (hext : Extends iStart g₁ c₁ g c)
    (hregion : w.iRegion1End = 0) (hfinds : w.Finds (lsmLogTell c₁).2) :
    ∃ d', Tracks iStart d' f (lsmLogSeek w (lsmLogTell c₁).2) g₁ c₁ := by
  have hno : c.iRegion1End = 0 := h.iRegion1End.symm.trans hregion
  have hmask : (lsmLogTell c₁).2.iOff &&& 0xFFFFFFF8 ≤ (lsmLogTell c₁).2.iOff := Nat.and_le_left
  have hmark : (lsmLogTell c₁).2.iOff = c₁.iOff + c₁.buf.length := rfl
  have hodd : (lsmLogTell c₁).2.aBuf.length = c₁.buf.length - c₁.buf.length / 8 * 8 :=
    List.length_drop
  have hle := h.le
  have hdvd := h.dvd
  unfold lsmLogSeek
  by_cases hin : w.iOff ≤ (lsmLogTell c₁).2.iOff &&& 0xFFFFFFF8
  · -- the mark is in the buffer, as no checksum was written since
    rw [if_pos hin]
    have hbehind : c.iOff + d ≤ c₁.iOff + c₁.buf.length := by
      rw [← h.iOff]
      exact (hin.trans hmask).trans hmark.le
    rcases hext.rest hno with ⟨hoff, -, rest, hrest⟩ | ⟨hlt, -⟩
    · have hn : (lsmLogTell c₁).2.iOff - w.iOff = c₁.buf.length - d := by
        rw [hmark, h.iOff]
        omega
      have hbuf : w.buf.take (c₁.buf.length - d) = c₁.buf.drop d := by
        rw [h.buf, ← hrest, List.drop_append_of_le_length (by omega)]
        exact List.take_left' List.length_drop
      have hcount : d + (c₁.buf.length - d) / 8 * 8 = c₁.buf.length / 8 * 8 := by omega
      have hheld : ∀ i < d, f.getD (c₁.iOff + i) 0 = c₁.buf.getD i 0 := by
        intro i hi
        rw [hoff, h.held i hi, ← hrest]
        exact List.getD_append _ _ _ _ (by omega)
      rw [hn]
      exact ⟨d, h.atMark hs hs₁ hext hregion hdvd (by omega) (hoff ▸ h.iOff) hbuf hcount hheld⟩
    · unfold LogWriter.end at hlt
      omega
  · -- the mark's own bytes are the buffer, and the rest is in the file
    rw [if_neg hin]
    have hfront := hfinds.resolve_left hin
    rw [h.iOff] at hfront
    have hback : (lsmLogTell c₁).2.iOff - (lsmLogTell c₁).2.aBuf.length =
        c₁.iOff + c₁.buf.length / 8 * 8 := by
      rw [hodd, hmark]
      omega
    refine ⟨c₁.buf.length / 8 * 8, h.atMark hs hs₁ hext hregion (Nat.dvd_mul_left _ _)
      (Nat.div_mul_le_self _ _) hback rfl rfl fun i hi => ?_⟩
    rcases hext.rest hno with ⟨hoff, -, rest, hrest⟩ | ⟨hlt, hbytes⟩
    · rw [hoff, h.held i (by omega), ← hrest]
      exact List.getD_append _ _ _ _ (by omega)
    · rw [← hbytes i (by omega)]
      apply h.bytes
      have hstart := (hs₁.start (hext.first hno)).1
      unfold LogWriter.end at hlt
      unfold LogWriter.Live
      rw [if_pos hno]
      omega

end Marks

/-! ### The whole transaction -/

section Runs

variable (f₀ : LogFile) (w₀ : LogWriter)

/-- A step keeps clear of what goes wrong: a write takes the decision about its checksum that it
takes without the rewinds, and a rewind comes before any jump and finds its mark, as it does below
four gigabytes. -/
def Trans.Keeps (s : Trans) : TransOp → Prop
  | .write r =>
      s.w.MustJump r.nReq ∨ (LSM_CKSUM_MAXDATA < s.w.buf.length + r.nReq ↔
        LSM_CKSUM_MAXDATA < (written f₀ w₀ s.kept).2.buf.length + r.nReq)
  | .seek n => ∀ m ∈ (s.marks.drop n).head?, s.w.iRegion1End = 0 ∧
      (m.1.iOff < 2 ^ 32 ∨ s.w.Finds m.1)
  | .tell => True
  | .release _ => True

instance (s : Trans) (op : TransOp) : Decidable (s.Keeps f₀ w₀ op) :=
  match op with
  | .write _ => inferInstanceAs (Decidable (_ ∨ _))
  | .seek n => inferInstanceAs (Decidable (∀ m ∈ (s.marks.drop n).head?, _ ∧ _))
  | .tell => inferInstanceAs (Decidable True)
  | .release _ => inferInstanceAs (Decidable True)

/-- Every step of a run keeps clear of what goes wrong. -/
def Trans.AllKeep : Trans → List TransOp → Prop
  | _, [] => True
  | s, op :: ops => s.Keeps f₀ w₀ op ∧ (s.step op).AllKeep ops

/-- A mark belongs to a prefix of the surviving records. -/
def MarkOf (m : LogMark × List Write) : Prop := m.1 = (lsmLogTell (written f₀ w₀ m.2).2).2

/-- What holds in every state of such a run. -/
structure Trans.Inv (s : Trans) : Prop where
  tracks : ∃ d, Tracks w₀.iOff d s.f s.w (written f₀ w₀ s.kept).1 (written f₀ w₀ s.kept).2
  marks : ∀ m ∈ s.marks, MarkOf f₀ w₀ m ∧ m.2 <+: s.kept
  nested : s.marks.Pairwise fun m m' => m'.2 <+: m.2

variable {f₀ w₀}

theorem written_concat (kept : List Write) (r : Write) :
    written f₀ w₀ (kept ++ [r]) =
      lsmLogWrite (written f₀ w₀ kept).1 (written f₀ w₀ kept).2 r := by
  unfold written
  rw [List.foldl_append]
  rfl

theorem LogWriter.Begun.straight (h : w₀.Begun) : w₀.Straight w₀.iOff :=
  ⟨h.iCksumBuf, h.jump, fun _ => ⟨le_rfl, h.iRegion2Start⟩, fun hne => absurd h.iRegion1End hne⟩

theorem written_straight (f₀ : LogFile) (h : w₀.Begun) (kept : List Write) :
    (written f₀ w₀ kept).2.Straight w₀.iOff := by
  induction kept using List.reverseRecOn with
  | nil => exact h.straight
  | append_singleton kept r ih =>
      rw [written_concat]
      exact ih.write _ r

theorem written_extends (f₀ : LogFile) (h : w₀.Begun) {kept kept' : List Write}
    (hpre : kept <+: kept') :
    Extends w₀.iOff (written f₀ w₀ kept).1 (written f₀ w₀ kept).2
      (written f₀ w₀ kept').1 (written f₀ w₀ kept').2 := by
  obtain ⟨rest, rfl⟩ := hpre
  induction rest using List.reverseRecOn with
  | nil =>
      rw [List.append_nil]
      exact .refl _ _
  | append_singleton rest r ih =>
      rw [← List.append_assoc, written_concat]
      exact ih.trans (.write _ (written_straight f₀ h _) r) (written_straight f₀ h _)

/-- One step. -/
theorem Trans.Inv.step {s : Trans} (h : s.Inv f₀ w₀) (hbegun : w₀.Begun) {op : TransOp}
    (hkeeps : s.Keeps f₀ w₀ op) : (s.step op).Inv f₀ w₀ := by
  obtain ⟨d, htracks⟩ := h.tracks
  have hs := written_straight f₀ hbegun s.kept
  cases op with
  | write r =>
      refine ⟨?_, fun m hm => ⟨(h.marks m hm).1, (h.marks m hm).2.trans (List.prefix_append _ _)⟩,
        h.nested⟩
      show ∃ d, Tracks _ d _ _ (written f₀ w₀ (s.kept ++ [r])).1 (written f₀ w₀ (s.kept ++ [r])).2
      rw [written_concat]
      exact htracks.write hs hkeeps
  | tell =>
      obtain ⟨htell, hmark⟩ := htracks.tell hs
      refine ⟨⟨d, htell⟩, ?_, ?_⟩
      · intro m hm
        rcases List.mem_cons.mp hm with rfl | hm
        · exact ⟨hmark, List.prefix_rfl⟩
        · exact h.marks m hm
      · exact List.pairwise_cons.mpr ⟨fun m hm => (h.marks m hm).2, h.nested⟩
  | seek n =>
      have hsub : (s.marks.drop n).Sublist s.marks := List.drop_sublist _ _
      have hnested := h.nested.sublist hsub
      unfold Trans.step
      unfold Trans.Keeps at hkeeps
      dsimp only at hkeeps ⊢
      rcases hmarks : s.marks.drop n with - | ⟨m, marks⟩
      · exact h
      · rw [hmarks] at hsub hnested hkeeps
        obtain ⟨hregion, hfinds⟩ := hkeeps m rfl
        obtain ⟨hmark, hpre⟩ := h.marks m (hsub.subset (List.mem_cons_self ..))
        unfold MarkOf at hmark
        rw [hmark] at hfinds
        have hext := written_extends f₀ hbegun hpre
        have hseek := htracks.seek hs (written_straight f₀ hbegun m.2) hext hregion
          (hfinds.elim (htracks.finds hext hregion) id)
        refine ⟨?_, ?_, hnested⟩
        · rw [← hmark] at hseek
          exact hseek
        · intro m' hm'
          refine ⟨(h.marks m' (hsub.subset hm')).1, ?_⟩
          rcases List.mem_cons.mp hm' with rfl | hm'
          · exact List.prefix_rfl
          · exact (List.pairwise_cons.mp hnested).1 m' hm'
  | release n =>
      have hsub : (s.marks.drop n).Sublist s.marks := List.drop_sublist _ _
      exact ⟨⟨d, htracks⟩, fun m hm => h.marks m (hsub.subset hm), h.nested.sublist hsub⟩

/-- A whole run. -/
theorem Trans.Inv.run {s : Trans} (h : s.Inv f₀ w₀) (hbegun : w₀.Begun) {ops : List TransOp}
    (hkeep : s.AllKeep f₀ w₀ ops) : (ops.foldl Trans.step s).Inv f₀ w₀ := by
  induction ops generalizing s with
  | nil => exact h
  | cons op ops ih => exact ih (h.step hbegun hkeep.1) hkeep.2

theorem Trans.Inv.begin (f₀ : LogFile) (h : w₀.Begun) :
    ({ f := f₀, w := w₀ } : Trans).Inv f₀ w₀ :=
  ⟨⟨0, h.straight.tracks f₀⟩, nofun, .nil⟩

end Runs

end Lsm.Log

end MoVeBench
