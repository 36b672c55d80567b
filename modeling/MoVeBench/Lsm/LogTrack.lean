/-
MoVeBench/Lsm/LogTrack.lean

Two writers of the same log (`LogWriter` of `lsm_log.c`).

Two writers that have written the same records may differ in what lies in the file instead of
the buffer: one of them may have eight, sixteen, … bytes of the other one's buffer in the file
already, with the checksum ahead by as much (`Tracks`).  Whatever both write next, they stay
together, take the same marks, and in the end leave the same log (`Tracks.commit`), as long as
they decide alike about the checksums inside the records.
-/
import MoVeBench.Lsm.LogJump

namespace MoVeBench

namespace Lsm.Log

open Bytes Seg

/-! ### Bytes -/

/-- A range of a buffer. -/
theorem readBytes_take {buf : List UInt8} {off n : ℕ} (h : off + n ≤ buf.length) :
    readBytes buf off n = (buf.drop off).take n := by
  have hlen : (buf.take (off + n)).length = off + n := by
    rw [List.length_take, Nat.min_eq_left h]
  have hleft := readBytes_append_left hlen.ge (buf.drop (off + n))
  rw [List.take_append_drop] at hleft
  rw [hleft, readBytes_drop hlen.symm, List.drop_take, Nat.add_sub_cancel_left]

/-- A byte that was written. -/
theorem getD_lsmFsWriteLog (f : LogFile) {iOff k : ℕ} {data : List UInt8} (h : k < data.length) :
    (lsmFsWriteLog f iOff data).getD (iOff + k) 0 = data.getD k 0 :=
  (List.cons.inj (readBytes_lsmFsWriteLog f iOff data (n := 1) h)).1

/-! ### The checksum of two parts -/

/-- Only eight bytes count. -/
theorem cksumStep_append {x : List UInt8} (h : 8 ≤ x.length) (y : List UInt8) (c : Cksum) :
    cksumStep c (x ++ y) = cksumStep c x := by
  have hfirst : getU32le (x ++ y) = getU32le x := by
    unfold getU32le
    rw [readBytes_append_left (by omega)]
  have hsecond : getU32le ((x ++ y).drop 4) = getU32le (x.drop 4) := by
    unfold getU32le
    rw [List.drop_append_of_le_length (by omega), readBytes_append_left]
    rw [List.length_drop]
    omega
  unfold cksumStep
  rw [hfirst, hsecond]

/-- The words of the first part come first. -/
theorem foldl_cksumStep_append (x y : List UInt8) (c : Cksum) {k : ℕ} (hk : x.length = 8 * k)
    (m : ℕ) :
    (List.range (k + m)).foldl (fun c i => cksumStep c ((x ++ y).drop (8 * i))) c =
      (List.range m).foldl (fun c i => cksumStep c (y.drop (8 * i)))
        ((List.range k).foldl (fun c i => cksumStep c (x.drop (8 * i))) c) := by
  have hfirst : ∀ c, (List.range k).foldl (fun c i => cksumStep c ((x ++ y).drop (8 * i))) c =
      (List.range k).foldl (fun c i => cksumStep c (x.drop (8 * i))) c := by
    intro c
    apply List.foldl_ext
    intro c i hi
    have hlt := List.mem_range.mp hi
    rw [List.drop_append_of_le_length (by omega)]
    apply cksumStep_append
    rw [List.length_drop]
    omega
  rw [List.range_add, List.foldl_append, List.foldl_map, hfirst]
  apply List.foldl_ext
  intro c i _
  rw [show 8 * (k + i) = x.length + 8 * i by omega, ← List.drop_drop, List.drop_left]

/-- The checksum of two parts, where the first one has no odd bytes. -/
theorem logCksumUnaligned_append {x : List UInt8} (h : 8 ∣ x.length) (y : List UInt8)
    (c : Cksum) :
    logCksumUnaligned (x ++ y) c = logCksumUnaligned y (logCksumUnaligned x c) := by
  obtain ⟨k, hk⟩ := h
  have hdiv : x.length / 8 = k := by omega
  have hsum : (x ++ y).length / 8 = k + y.length / 8 := by
    rw [List.length_append]
    omega
  have hx : logCksumUnaligned x c =
      (List.range k).foldl (fun c i => cksumStep c (x.drop (8 * i))) c := by
    unfold logCksumUnaligned
    dsimp only
    rw [hdiv, if_neg (by omega)]
  have hdrop : (x ++ y).drop (8 * (k + y.length / 8)) = y.drop (8 * (y.length / 8)) := by
    rw [show 8 * (k + y.length / 8) = x.length + 8 * (y.length / 8) by omega, ← List.drop_drop,
      List.drop_left]
  rw [hx]
  unfold logCksumUnaligned
  dsimp only
  rw [hsum, foldl_cksumStep_append x y c hk, hdrop]
  by_cases hodd : 8 * (y.length / 8) = y.length
  · rw [if_neg (not_not.mpr hodd), if_neg]
    rw [List.length_append]
    omega
  · rw [if_pos hodd, if_pos]
    rw [List.length_append]
    omega

/-- The checksum of nothing. -/
theorem logCksumUnaligned_nil (c : Cksum) : logCksumUnaligned [] c = c := rfl

/-! ### The log of a transaction -/

/-- The bytes that a transaction which began at `iStart` has in the file. -/
def LogWriter.Live (iStart : ℕ) (w : LogWriter) (i : ℕ) : Prop :=
  if w.iRegion1End = 0 then iStart ≤ i ∧ i < w.iOff
  else (iStart ≤ i ∧ i < w.iRegion1End) ∨ (w.iRegion2Start ≤ i ∧ i < w.iOff)

/-- Two logs are the same: the bytes that recovery reads, the running checksum, the regions of
the writer, and those in the tree header once the transaction has ended. -/
structure SameLog (iStart : ℕ) (a b : LogFile × LogWriter) : Prop where
  bytes : ∀ i, b.2.Live iStart i → a.1.getD i 0 = b.1.getD i 0
  cksum : a.2.cksum = b.2.cksum
  iOff : a.2.iOff = b.2.iOff
  iRegion1End : a.2.iRegion1End = b.2.iRegion1End
  iRegion2Start : a.2.iRegion2Start = b.2.iRegion2Start
  regions : ∀ pLog, lsmLogEnd pLog a.2 = lsmLogEnd pLog b.2

/-! ### Two writers -/

/-- A writer tracks another one when it has `d` bytes of its buffer in the file already, with
the checksum ahead. -/
structure Tracks (iStart d : ℕ) (f : LogFile) (w : LogWriter) (g : LogFile) (c : LogWriter) :
    Prop where
  dvd : 8 ∣ d
  le : d ≤ c.buf.length
  iOff : w.iOff = c.iOff + d
  buf : w.buf = c.buf.drop d
  iCksumBuf_dvd : 8 ∣ w.iCksumBuf
  iCksumBuf_le : w.iCksumBuf ≤ w.buf.length
  cksum : w.cksum = logCksumUnaligned (c.buf.take (d + w.iCksumBuf)) c.cksum
  jump : w.jump = c.jump
  szSector : w.szSector = c.szSector
  iRegion1End : w.iRegion1End = c.iRegion1End
  iRegion2Start : w.iRegion2Start = c.iRegion2Start
  held : ∀ i < d, f.getD (c.iOff + i) 0 = c.buf.getD i 0
  jumped : c.iRegion1End ≠ 0 → d = 0
  bytes : ∀ i, c.Live iStart i → f.getD i 0 = g.getD i 0

/-- What holds of a writer that was never rewound. -/
structure LogWriter.Straight (iStart : ℕ) (c : LogWriter) : Prop where
  iCksumBuf : c.iCksumBuf = 0
  jump : c.jump.iStart ≤ c.jump.iEnd
  start : c.iRegion1End = 0 → iStart ≤ c.iOff ∧ c.iRegion2Start = 0
  past : c.iRegion1End ≠ 0 → c.jump.iStart ≤ c.iOff

section Track

variable {iStart d : ℕ} {f g : LogFile} {w c : LogWriter}

theorem Tracks.end (h : Tracks iStart d f w g c) : w.end = c.end := by
  have hle := h.le
  unfold LogWriter.end
  rw [h.iOff, h.buf, List.length_drop]
  omega

theorem Tracks.mustJump (h : Tracks iStart d f w g c) (nReq : ℕ) :
    w.MustJump nReq ↔ c.MustJump nReq := by
  unfold LogWriter.MustJump
  rw [h.end, h.jump]

/-- The checksum up to a place in the buffer. -/
theorem Tracks.cksumAt (h : Tracks iStart d f w g c) {n : ℕ} (hlo : w.iCksumBuf ≤ n)
    (hhi : n ≤ w.buf.length) :
    (logUpdateCksum w n).cksum = logCksumUnaligned (c.buf.take (d + n)) c.cksum := by
  unfold logUpdateCksum
  dsimp only
  rcases Nat.lt_or_ge w.iCksumBuf n with hlt | hge
  · have hlen : w.buf.length = c.buf.length - d := by rw [h.buf, List.length_drop]
    have hdvd : 8 ∣ (c.buf.take (d + w.iCksumBuf)).length := by
      rw [List.length_take, Nat.min_eq_left (by omega)]
      exact (Nat.dvd_add_right h.dvd).mpr h.iCksumBuf_dvd
    have hsplit : c.buf.take (d + n) = c.buf.take (d + w.iCksumBuf) ++
        (c.buf.drop (d + w.iCksumBuf)).take (n - w.iCksumBuf) := by
      rw [← List.take_add]
      congr 1
      omega
    rw [if_pos hlt, readBytes_take (by omega), h.cksum, hsplit, logCksumUnaligned_append hdvd,
      h.buf, List.drop_drop]
  · rw [if_neg (Nat.not_lt.mpr hge), h.cksum, Nat.le_antisymm hlo hge]

/-- A straight writer tracks itself. -/
theorem LogWriter.Straight.tracks (h : c.Straight iStart) (f : LogFile) :
    Tracks iStart 0 f c f c where
  dvd := Nat.dvd_zero _
  le := Nat.zero_le _
  iOff := rfl
  buf := rfl
  iCksumBuf_dvd := h.iCksumBuf ▸ Nat.dvd_zero _
  iCksumBuf_le := h.iCksumBuf ▸ Nat.zero_le _
  cksum := by
    rw [h.iCksumBuf, Nat.zero_add, List.take_zero, logCksumUnaligned_nil]
  jump := rfl
  szSector := rfl
  iRegion1End := rfl
  iRegion2Start := rfl
  held := nofun
  jumped _ := rfl
  bytes _ _ := rfl

/-- Bytes that both writers append. -/
theorem Tracks.append (h : Tracks iStart d f w g c) (data : List UInt8) :
    Tracks iStart d f { w with buf := w.buf ++ data } g { c with buf := c.buf ++ data } where
  dvd := h.dvd
  le := h.le.trans (by rw [List.length_append]; exact Nat.le_add_right _ _)
  iOff := h.iOff
  buf := by
    rw [List.drop_append_of_le_length h.le, h.buf]
  iCksumBuf_dvd := h.iCksumBuf_dvd
  iCksumBuf_le := h.iCksumBuf_le.trans (by rw [List.length_append]; exact Nat.le_add_right _ _)
  cksum := by
    have hle := h.iCksumBuf_le
    have hd := h.le
    rw [h.buf, List.length_drop] at hle
    show w.cksum = logCksumUnaligned ((c.buf ++ data).take (d + w.iCksumBuf)) c.cksum
    rw [h.cksum, List.take_append_of_le_length (by omega)]
  jump := h.jump
  szSector := h.szSector
  iRegion1End := h.iRegion1End
  iRegion2Start := h.iRegion2Start
  held i hi := (h.held i hi).trans (List.getD_append _ _ _ _ (hi.trans_le h.le)).symm
  jumped := h.jumped
  bytes := h.bytes

/-- When both write their buffers, the files have the same bytes there. -/
theorem Tracks.written (h : Tracks iStart d f w g c) (data : List UInt8) {i : ℕ}
    (hi : c.Live iStart i ∨ (c.iOff ≤ i ∧ i < c.iOff + (c.buf ++ data).length)) :
    (lsmFsWriteLog f w.iOff (w.buf ++ data)).getD i 0 =
      (lsmFsWriteLog g c.iOff (c.buf ++ data)).getD i 0 := by
  have hle := h.le
  have hbuf : w.buf ++ data = (c.buf ++ data).drop d := by
    rw [List.drop_append_of_le_length hle, h.buf]
  have hlen : (w.buf ++ data).length + d = (c.buf ++ data).length := by
    rw [hbuf, List.length_drop, List.length_append]
    omega
  rw [h.iOff]
  by_cases hin : c.iOff ≤ i ∧ i < c.iOff + (c.buf ++ data).length
  · obtain ⟨k, rfl⟩ := Nat.exists_eq_add_of_le hin.1
    rw [getD_lsmFsWriteLog g (by omega)]
    rcases Nat.lt_or_ge k d with hk | hk
    · -- these bytes were in the file before
      rw [getD_lsmFsWriteLog_of_ne f (by omega), h.held k hk]
      exact (List.getD_append _ _ _ _ (hk.trans_le hle)).symm
    · obtain ⟨j, rfl⟩ := Nat.exists_eq_add_of_le hk
      rw [← Nat.add_assoc, getD_lsmFsWriteLog f (by omega), hbuf, List.getD_eq_getElem?_getD,
        List.getElem?_drop, List.getD_eq_getElem?_getD]
  · rw [getD_lsmFsWriteLog_of_ne f (by omega), getD_lsmFsWriteLog_of_ne g (by omega)]
    exact h.bytes i (hi.resolve_right hin)

end Track

/-- The bytes of a checksum. -/
def cksumBytes (c : Cksum) : List UInt8 := lsmPutU32 c.1 ++ lsmPutU32 c.2

/-- What a flush leaves. -/
theorem logCksumAndFlush_eq (f : LogFile) (w : LogWriter) {ck : Cksum}
    (h : (logUpdateCksum w w.buf.length).cksum = ck) :
    logCksumAndFlush f w =
      (lsmFsWriteLog f w.iOff (w.buf ++ cksumBytes ck),
        { w with
          cksum := ck
          iOff := w.iOff + (w.buf ++ cksumBytes ck).length
          iCksumBuf := 0
          buf := [] }) := by
  subst h
  unfold cksumBytes
  rw [← List.append_assoc]
  rfl

/-- The padding and the JUMP record behind a buffer. -/
def LogWriter.jumpTail (w : LogWriter) : List UInt8 :=
  let aJump := jumpRecord (w.jump.iEnd + 1)
  let nPad := (w.buf.length + aJump.length) % 8
  padding (if nPad = 0 then 0 else 8 - nPad) ++ aJump

theorem LogWriter.jumpTail_length (w : LogWriter) : 0 < w.jumpTail.length := by
  unfold LogWriter.jumpTail jumpRecord
  dsimp only
  rw [List.length_append, List.length_cons]
  omega

theorem LogWriter.jumpBuf_eq (w : LogWriter) : w.jumpBuf = w.buf ++ w.jumpTail :=
  List.append_assoc _ _ _

/-- What a jump leaves. -/
theorem jumpIfRequired_eq (f : LogFile) {w : LogWriter} {nReq : ℕ} {ck : Cksum}
    (hjump : w.MustJump nReq)
    (h : (logUpdateCksum { w with buf := w.buf ++ w.jumpTail }
      (w.buf ++ w.jumpTail).length).cksum = ck) :
    jumpIfRequired f w nReq =
      (lsmFsWriteLog f w.iOff (w.buf ++ w.jumpTail),
        { w with
          cksum := ck
          iRegion1End := w.iOff + (w.buf ++ w.jumpTail).length
          iRegion2Start := w.jump.iEnd + 1
          iOff := w.jump.iEnd + 1
          iCksumBuf := 0
          buf := [] },
        true) := by
  subst h
  unfold jumpIfRequired
  rw [if_pos hjump]
  dsimp only
  rw [w.jumpBuf_eq]
  rfl

section Track

variable {iStart d : ℕ} {f g : LogFile} {w c : LogWriter}

/-- Behind the same buffer bytes there is the same padding. -/
theorem Tracks.jumpTail (h : Tracks iStart d f w g c) : w.jumpTail = c.jumpTail := by
  have hle := h.le
  have hdvd := h.dvd
  unfold LogWriter.jumpTail
  dsimp only
  rw [h.jump, h.buf, List.length_drop]
  have hmod : ∀ n, (c.buf.length - d + n) % 8 = (c.buf.length + n) % 8 := by
    intro n
    omega
  rw [hmod]

/-- A writer whose buffer is empty tracks itself over each file that has the same bytes. -/
theorem tracks_same (hbuf : c.buf = []) (hcksum : c.iCksumBuf = 0)
    (hbytes : ∀ i, c.Live iStart i → f.getD i 0 = g.getD i 0) : Tracks iStart 0 f c g c where
  dvd := Nat.dvd_zero _
  le := Nat.zero_le _
  iOff := rfl
  buf := rfl
  iCksumBuf_dvd := hcksum ▸ Nat.dvd_zero _
  iCksumBuf_le := hcksum ▸ Nat.zero_le _
  cksum := by
    rw [hbuf, List.take_nil, logCksumUnaligned_nil]
  jump := rfl
  szSector := rfl
  iRegion1End := rfl
  iRegion2Start := rfl
  held := nofun
  jumped _ := rfl
  bytes := hbytes

/-- What is in the file after the buffer was written. -/
theorem LogWriter.Live.grown {n i : ℕ} {c' : LogWriter} (h : c'.Live iStart i)
    (hfirst : c'.iRegion1End = c.iRegion1End) (hsecond : c'.iRegion2Start = c.iRegion2Start)
    (hoff : c'.iOff = c.iOff + n) : c.Live iStart i ∨ (c.iOff ≤ i ∧ i < c.iOff + n) := by
  unfold LogWriter.Live at h ⊢
  rw [hfirst, hsecond, hoff] at h
  split_ifs at h ⊢ <;> omega

/-- What is in the file after a jump. -/
theorem LogWriter.Live.jumped {n i : ℕ} {c' : LogWriter} (h : c'.Live iStart i)
    (hn : 0 < n) (hstart : c.iRegion1End = 0) (hfirst : c'.iRegion1End = c.iOff + n)
    (hsecond : c'.iRegion2Start = c'.iOff) :
    c.Live iStart i ∨ (c.iOff ≤ i ∧ i < c.iOff + n) := by
  unfold LogWriter.Live at h ⊢
  rw [if_pos hstart]
  rw [hfirst, hsecond, if_neg (by omega)] at h
  omega

/-- A flush. -/
theorem Tracks.flush (h : Tracks iStart d f w g c) (hs : c.Straight iStart) :
    Tracks iStart 0 (logCksumAndFlush f w).1 (logCksumAndFlush f w).2
      (logCksumAndFlush g c).1 (logCksumAndFlush g c).2 := by
  have hle := h.le
  have hw : (logUpdateCksum w w.buf.length).cksum = logCksumUnaligned c.buf c.cksum := by
    rw [h.cksumAt h.iCksumBuf_le le_rfl, List.take_of_length_le]
    rw [h.buf, List.length_drop]
    omega
  have hc : (logUpdateCksum c c.buf.length).cksum = logCksumUnaligned c.buf c.cksum := by
    have hself := hs.tracks g
    rw [hself.cksumAt hself.iCksumBuf_le le_rfl, Nat.zero_add, List.take_length]
  rw [logCksumAndFlush_eq f w hw, logCksumAndFlush_eq g c hc]
  have hsame : ({ w with
      cksum := logCksumUnaligned c.buf c.cksum
      iOff := w.iOff + (w.buf ++ cksumBytes (logCksumUnaligned c.buf c.cksum)).length
      iCksumBuf := 0
      buf := [] } : LogWriter) =
    { c with
      cksum := logCksumUnaligned c.buf c.cksum
      iOff := c.iOff + (c.buf ++ cksumBytes (logCksumUnaligned c.buf c.cksum)).length
      iCksumBuf := 0
      buf := [] } := by
    rw [h.jump, h.szSector, h.iRegion1End, h.iRegion2Start, h.iOff, h.buf]
    congr 1
    rw [List.length_append, List.length_append, List.length_drop]
    omega
  rw [hsame]
  exact tracks_same rfl rfl fun i hi => h.written _ (hi.grown rfl rfl rfl)

/-- A jump, where there was none before. -/
theorem Tracks.jumpOver (h : Tracks iStart d f w g c) (hs : c.Straight iStart)
    (nReq : ℕ) :
    (∃ d', Tracks iStart d' (jumpIfRequired f w nReq).1 (jumpIfRequired f w nReq).2.1
        (jumpIfRequired g c nReq).1 (jumpIfRequired g c nReq).2.1) ∧
      (jumpIfRequired f w nReq).2.2 = (jumpIfRequired g c nReq).2.2 := by
  by_cases hjump : c.MustJump nReq
  · have hjump' := (h.mustJump nReq).mpr hjump
    have hstart : c.iRegion1End = 0 := by
      by_contra hne
      have hpast := hs.past hne
      have hlt := hjump.1
      unfold LogWriter.end at hlt
      omega
    have hle := h.le
    have hself := (hs.tracks g).append c.jumpTail
    have htrack := h.append c.jumpTail
    have hw := htrack.cksumAt htrack.iCksumBuf_le le_rfl
    have hc := hself.cksumAt hself.iCksumBuf_le le_rfl
    rw [List.take_of_length_le (by
      show (c.buf ++ c.jumpTail).length ≤ d + (w.buf ++ c.jumpTail).length
      rw [h.buf, List.length_append, List.length_append, List.length_drop]
      omega)] at hw
    rw [Nat.zero_add, List.take_length] at hc
    have hpos : 0 < (c.buf ++ c.jumpTail).length := by
      have htail := c.jumpTail_length
      rw [List.length_append]
      omega
    rw [jumpIfRequired_eq f hjump' (h.jumpTail ▸ hw), jumpIfRequired_eq g hjump hc]
    refine ⟨⟨0, ?_⟩, rfl⟩
    have hsame : ({ w with
        cksum := logCksumUnaligned (c.buf ++ c.jumpTail) c.cksum
        iRegion1End := w.iOff + (w.buf ++ w.jumpTail).length
        iRegion2Start := w.jump.iEnd + 1
        iOff := w.jump.iEnd + 1
        iCksumBuf := 0
        buf := [] } : LogWriter) =
      { c with
        cksum := logCksumUnaligned (c.buf ++ c.jumpTail) c.cksum
        iRegion1End := c.iOff + (c.buf ++ c.jumpTail).length
        iRegion2Start := c.jump.iEnd + 1
        iOff := c.jump.iEnd + 1
        iCksumBuf := 0
        buf := [] } := by
      rw [h.jumpTail, h.jump, h.szSector, h.iOff, h.buf]
      congr 1
      rw [List.length_append, List.length_append, List.length_drop]
      omega
    rw [h.jumpTail] at hsame ⊢
    rw [hsame]
    exact tracks_same rfl rfl fun i hi => h.written _ (hi.jumped hpos hstart rfl rfl)
  · have hjump' := (h.mustJump nReq).not.mpr hjump
    unfold jumpIfRequired
    rw [if_neg hjump, if_neg hjump']
    exact ⟨⟨d, h⟩, rfl⟩

end Track

/-! ### What a writer does, part by part -/

/-- A record behind the buffer, with a checksum where one is due. -/
def logRecord (f : LogFile) (w : LogWriter) (r : Write) (bCksum : Bool) : LogFile × LogWriter :=
  let pLog := { w with buf := w.buf ++ r.header bCksum }
  let s := if bCksum = true then logCksumAndFlush f pLog else (f, pLog)
  (s.1, { s.2 with buf := s.2.buf ++ r.data })

/-- A write is a jump, where one is required, and then the record. -/
theorem lsmLogWrite_eq (f : LogFile) (w : LogWriter) (r : Write) :
    lsmLogWrite f w r =
      logRecord (jumpIfRequired f w r.nReq).1 (jumpIfRequired f w r.nReq).2.1 r
        ((jumpIfRequired f w r.nReq).2.2 ||
          decide (LSM_CKSUM_MAXDATA < (jumpIfRequired f w r.nReq).2.1.buf.length + r.nReq)) :=
  rfl

section Straight

variable {iStart : ℕ} {c : LogWriter}

theorem LogWriter.Straight.append (h : c.Straight iStart) (data : List UInt8) :
    ({ c with buf := c.buf ++ data } : LogWriter).Straight iStart :=
  ⟨h.iCksumBuf, h.jump, h.start, h.past⟩

theorem LogWriter.Straight.flush (h : c.Straight iStart) (f : LogFile) :
    (logCksumAndFlush f c).2.Straight iStart where
  iCksumBuf := rfl
  jump := h.jump
  start hno := ⟨(h.start hno).1.trans (Nat.le_add_right _ _), (h.start hno).2⟩
  past hne := (h.past hne).trans (Nat.le_add_right _ _)

theorem LogWriter.Straight.jumpOver (h : c.Straight iStart) (f : LogFile) (nReq : ℕ) :
    (jumpIfRequired f c nReq).2.1.Straight iStart := by
  by_cases hjump : c.MustJump nReq
  · have hpos := c.jumpTail_length
    rw [jumpIfRequired_eq f hjump rfl]
    refine ⟨rfl, h.jump, fun hno => ?_, fun _ => h.jump.trans (Nat.le_succ _)⟩
    have hend : c.iOff + (c.buf ++ c.jumpTail).length = 0 := hno
    rw [List.length_append] at hend
    omega
  · unfold jumpIfRequired
    rw [if_neg hjump]
    exact h

theorem LogWriter.Straight.record (h : c.Straight iStart) (f : LogFile) (r : Write)
    (bCksum : Bool) : (logRecord f c r bCksum).2.Straight iStart := by
  cases bCksum with
  | false => exact (h.append _).append _
  | true => exact ((h.append _).flush f).append _

theorem LogWriter.Straight.write (h : c.Straight iStart) (f : LogFile) (r : Write) :
    (lsmLogWrite f c r).2.Straight iStart := by
  rw [lsmLogWrite_eq]
  exact (h.jumpOver f _).record _ r _

end Straight

section Steps

variable {iStart d : ℕ} {f g : LogFile} {w c : LogWriter}

theorem Tracks.record (h : Tracks iStart d f w g c) (hs : c.Straight iStart) (r : Write)
    (bCksum : Bool) :
    ∃ d', Tracks iStart d' (logRecord f w r bCksum).1 (logRecord f w r bCksum).2
      (logRecord g c r bCksum).1 (logRecord g c r bCksum).2 := by
  cases bCksum with
  | false => exact ⟨d, (h.append _).append _⟩
  | true => exact ⟨0, ((h.append _).flush (hs.append _)).append _⟩

/-- **A write** keeps the two together when both take the same decision about the checksum. -/
theorem Tracks.write (h : Tracks iStart d f w g c) (hs : c.Straight iStart) {r : Write}
    (hsame : w.MustJump r.nReq ∨ (LSM_CKSUM_MAXDATA < w.buf.length + r.nReq ↔
      LSM_CKSUM_MAXDATA < c.buf.length + r.nReq)) :
    ∃ d', Tracks iStart d' (lsmLogWrite f w r).1 (lsmLogWrite f w r).2
      (lsmLogWrite g c r).1 (lsmLogWrite g c r).2 := by
  have hcksum : ((jumpIfRequired f w r.nReq).2.2 ||
        decide (LSM_CKSUM_MAXDATA < (jumpIfRequired f w r.nReq).2.1.buf.length + r.nReq)) =
      ((jumpIfRequired g c r.nReq).2.2 ||
        decide (LSM_CKSUM_MAXDATA < (jumpIfRequired g c r.nReq).2.1.buf.length + r.nReq)) := by
    by_cases hjump : w.MustJump r.nReq
    · -- a jump brings a checksum with it
      have hjump' := (h.mustJump r.nReq).mp hjump
      rw [jumpIfRequired_eq f hjump rfl, jumpIfRequired_eq g hjump' rfl]
    · have hjump' := (h.mustJump r.nReq).not.mp hjump
      unfold jumpIfRequired
      rw [if_neg hjump, if_neg hjump']
      exact congrArg (false || ·) (decide_eq_decide.mpr (hsame.resolve_left hjump))
  obtain ⟨⟨d', h'⟩, -⟩ := h.jumpOver hs r.nReq
  rw [lsmLogWrite_eq, lsmLogWrite_eq, hcksum]
  exact h'.record (hs.jumpOver g _) r _

/-- **A mark** is the mark that the other writer takes. -/
theorem Tracks.tell (h : Tracks iStart d f w g c) (hs : c.Straight iStart) :
    Tracks iStart d f (lsmLogTell w).1 g c ∧ (lsmLogTell w).2 = (lsmLogTell c).2 := by
  have hle := h.le
  have hdvd := h.dvd
  have hdvd' := h.iCksumBuf_dvd
  have hle' := h.iCksumBuf_le
  have hlen : w.buf.length = c.buf.length - d := by rw [h.buf, List.length_drop]
  have hsum : d + w.buf.length / 8 * 8 = c.buf.length / 8 * 8 := by omega
  have hw := h.cksumAt (n := w.buf.length / 8 * 8) (by omega) (Nat.div_mul_le_self _ _)
  have hself := hs.tracks g
  have hc := hself.cksumAt (n := c.buf.length / 8 * 8) (by rw [hs.iCksumBuf]; exact Nat.zero_le _)
    (Nat.div_mul_le_self _ _)
  constructor
  · exact { h with
      iCksumBuf_dvd := Nat.dvd_mul_left _ _
      iCksumBuf_le := Nat.div_mul_le_self _ _
      cksum := hw }
  · unfold lsmLogTell
    dsimp only
    rw [hw, hc, Nat.zero_add, hsum]
    congr 1
    · exact h.end
    · show w.buf.drop _ = c.buf.drop _
      rw [h.buf, List.drop_drop, ← hsum, hlen, List.length_drop]

/-- The same padding comes in front of the commit record. -/
theorem Tracks.nPad (h : Tracks iStart d f w g c) : w.nPad = c.nPad := by
  unfold LogWriter.nPad
  rw [h.szSector, h.end]

/-- The room that a commit record takes. -/
def LogWriter.commitReq (w : LogWriter) : ℕ :=
  9 + if 1 < w.szSector then w.szSector + 17 else 0

/-- What comes in front of the checksum of a commit record. -/
def LogWriter.commitTail (w : LogWriter) : List UInt8 :=
  sectorPadding w.nPad w.nPad ++ [LSM_LOG_COMMIT]

/-- A commit is a jump, where one is required, and then a flush. -/
theorem lsmLogCommit_eq (f : LogFile) (w : LogWriter) :
    lsmLogCommit f w =
      logCksumAndFlush (jumpIfRequired f w w.commitReq).1
        { (jumpIfRequired f w w.commitReq).2.1 with
          buf := (jumpIfRequired f w w.commitReq).2.1.buf ++
            (jumpIfRequired f w w.commitReq).2.1.commitTail } := by
  unfold LogWriter.commitTail
  rw [← List.append_assoc]
  rfl

/-- Writers with empty buffers have the same checksum. -/
theorem Tracks.cksum_empty (h : Tracks iStart d f w g c) (hbuf : c.buf = []) :
    w.cksum = c.cksum := by
  rw [h.cksum, hbuf, List.take_nil, logCksumUnaligned_nil]

/-- **The commit** makes the two logs the same. -/
theorem Tracks.commit (h : Tracks iStart d f w g c) (hs : c.Straight iStart) :
    SameLog iStart (lsmLogCommit f w) (lsmLogCommit g c) := by
  have hreq : w.commitReq = c.commitReq := by
    unfold LogWriter.commitReq
    rw [h.szSector]
  obtain ⟨⟨d', h'⟩, -⟩ := h.jumpOver hs c.commitReq
  have hs' := hs.jumpOver g c.commitReq
  have htail : (jumpIfRequired f w c.commitReq).2.1.commitTail =
      (jumpIfRequired g c c.commitReq).2.1.commitTail := by
    unfold LogWriter.commitTail
    rw [h'.nPad]
  have hend := (h'.append (jumpIfRequired g c c.commitReq).2.1.commitTail).flush (hs'.append _)
  rw [lsmLogCommit_eq, lsmLogCommit_eq, hreq, htail]
  have hcksum := hend.cksum_empty rfl
  refine ⟨hend.bytes, hcksum, hend.iOff, hend.iRegion1End, hend.iRegion2Start, ?_⟩
  intro pLog
  unfold lsmLogEnd
  rw [hcksum, hend.iOff, hend.iRegion1End, hend.iRegion2Start]
  rfl

end Steps

end Lsm.Log

end MoVeBench
