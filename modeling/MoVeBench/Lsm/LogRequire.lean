/-
MoVeBench/Lsm/LogRequire.lean

Where a checksum must be in the log (`lsmLogWrite` and `logRequireCksum` of `lsm_log.c`).

The log of a run of writes, marks, rewinds, commits and begins is the list of the records that
survive.  In every run in which each record without a checksum ends within 32 KB of the last
checksum, recovery takes every such record that it comes to (`rule_agrees`).  A rewind to a mark
that is in the file breaks this: the buffer from which the writer counts then starts at the
mark, and the same record, which was written with a checksum before, is written without one
(`rule_disagrees_rewound`).
-/
import MoVeBench.Lsm.LogItem
import MoVeBench.Lsm.LogRewind

namespace MoVeBench

namespace Lsm.Log

open Bytes Seg

/-! ### What the writer writes -/

/-- Padding of up to seven bytes. -/
def padItems (nPad : ℕ) : List Item :=
  if nPad = 0 then []
  else if nPad = 1 then [.pad1]
  else [.pad2 (List.replicate (nPad - 2) 0)]

/-- The padding and the JUMP record. -/
def LogWriter.jumpItems (w : LogWriter) : List Item :=
  let nPad := (w.buf.length + (jumpRecord (w.jump.iEnd + 1)).length) % 8
  padItems (if nPad = 0 then 0 else 8 - nPad) ++ [.jump (w.jump.iEnd + 1)]

/-- The padding in front of a commit record. -/
def sectorItems : ℕ → ℕ → List Item
  | 0, _ => []
  | fuel + 1, nPad =>
      if nPad = 0 then []
      else if nPad = 1 then [.pad1]
      else
        let n := min 200 (nPad - 2)
        .pad2 (List.replicate n 0x2B) :: sectorItems fuel (nPad - 2 - n)

/-- Whether `lsmLogWrite` embeds a checksum. -/
def LogWriter.bCksum (w : LogWriter) (r : Write) : Bool :=
  decide (w.MustJump r.nReq) || decide (LSM_CKSUM_MAXDATA < w.buf.length + r.nReq)

/-- The record of `lsmLogWrite`. -/
def writeItem (f : LogFile) (w : LogWriter) (r : Write) : Item :=
  .op r (if w.bCksum r = true then some (lsmLogWrite f w r).2.cksum else none)

def writeItems (f : LogFile) (w : LogWriter) (r : Write) : List Item :=
  (if w.MustJump r.nReq then w.jumpItems else []) ++ [writeItem f w r]

/-- The records of `lsmLogCommit`. -/
def commitItems (f : LogFile) (w : LogWriter) : List Item :=
  let nPad := (jumpIfRequired f w w.commitReq).2.1.nPad
  (if w.MustJump w.commitReq then w.jumpItems else []) ++ sectorItems nPad nPad ++
    [.commit (lsmLogCommit f w).2.cksum]

/-- The records of `lsmLogBegin`, where it wraps around. -/
def beginItems (pLog : DbLog) : List Item :=
  if (pLog.aRegion 0).iEnd = 0 ∧ (pLog.aRegion 1).iEnd = 0 ∧
      LSM_MIN_LOGWRAP ≤ (pLog.aRegion 2).iStart then
    [.pad2 [0, 0, 0, 0], .jump 0]
  else []

/-- The bytes of records. -/
def itemBytes (log : List Item) : List UInt8 := log.flatMap Item.bytes

theorem padItems_bytes (nPad : ℕ) : itemBytes (padItems nPad) = padding nPad := by
  unfold padItems padding itemBytes
  split_ifs
  · rfl
  · rfl
  · rw [List.flatMap_singleton, Item.bytes, List.length_replicate]

theorem LogWriter.jumpItems_bytes (w : LogWriter) : itemBytes w.jumpItems = w.jumpTail := by
  unfold jumpItems jumpTail itemBytes
  dsimp only
  rw [List.flatMap_append, List.flatMap_singleton, Item.bytes]
  exact congrArg (· ++ _) (padItems_bytes _)

theorem sectorItems_bytes (fuel nPad : ℕ) :
    itemBytes (sectorItems fuel nPad) = sectorPadding fuel nPad := by
  induction fuel generalizing nPad with
  | zero => rfl
  | succ fuel ih =>
      unfold sectorItems sectorPadding
      split_ifs
      · rfl
      · rfl
      · dsimp only
        rw [← ih]
        unfold itemBytes
        rw [List.flatMap_cons, Item.bytes, List.length_replicate]
        rfl

/-- From one state of the file and the writer to the next one, just these bytes are written, the
first `k` of them and of the buffer to the file. -/
structure Emits (f : LogFile) (w : LogWriter) (f' : LogFile) (w' : LogWriter) (z : List UInt8)
    (k : ℕ) : Prop where
  le : k ≤ (w.buf ++ z).length
  iOff : w'.iOff = w.iOff + k
  buf : w'.buf = (w.buf ++ z).drop k
  held : ∀ i < k, f'.getD (w.iOff + i) 0 = (w.buf ++ z).getD i 0
  kept : ∀ i < w.iOff, f'.getD i 0 = f.getD i 0

theorem Emits.append (f : LogFile) (w : LogWriter) (z : List UInt8) :
    Emits f w f { w with buf := w.buf ++ z } z 0 :=
  ⟨Nat.zero_le _, rfl, rfl, fun _ hi => absurd hi (Nat.not_lt_zero _), fun _ _ => rfl⟩

theorem Emits.flush (f : LogFile) (w : LogWriter) :
    Emits f w (logCksumAndFlush f w).1 (logCksumAndFlush f w).2
      (cksumBytes (logCksumAndFlush f w).2.cksum)
      (w.buf ++ cksumBytes (logCksumAndFlush f w).2.cksum).length := by
  rw [logCksumAndFlush_eq f w rfl]
  refine ⟨le_rfl, rfl, ?_, fun i hi => getD_lsmFsWriteLog f hi,
    fun i hi => getD_lsmFsWriteLog_of_ne f (.inl hi)⟩
  rw [List.drop_length]

theorem Emits.trans {f₁ f₂ f₃ : LogFile} {w₁ w₂ w₃ : LogWriter} {y z : List UInt8} {k m : ℕ}
    (h : Emits f₁ w₁ f₂ w₂ y k) (h' : Emits f₂ w₂ f₃ w₃ z m) :
    Emits f₁ w₁ f₃ w₃ (y ++ z) (k + m) := by
  have hle := h.le
  have hbuf : w₂.buf ++ z = (w₁.buf ++ (y ++ z)).drop k := by
    rw [h.buf, ← List.append_assoc, List.drop_append_of_le_length hle]
  have hlen : (w₂.buf ++ z).length + k = (w₁.buf ++ (y ++ z)).length := by
    rw [hbuf, List.length_drop, ← List.append_assoc, List.length_append]
    omega
  have hle' := h'.le
  refine ⟨by omega, ?_, ?_, fun i hi => ?_, fun i hi => ?_⟩
  · rw [h'.iOff, h.iOff, Nat.add_assoc]
  · rw [h'.buf, hbuf, List.drop_drop]
  · rcases Nat.lt_or_ge i k with hlt | hge
    · rw [h'.kept _ (by rw [h.iOff]; omega), h.held i hlt, ← List.append_assoc]
      exact (List.getD_append _ _ _ _ (by omega)).symm
    · obtain ⟨j, rfl⟩ := Nat.exists_eq_add_of_le hge
      rw [← Nat.add_assoc, ← h.iOff, h'.held j (by omega), hbuf, List.getD_eq_getElem?_getD,
        List.getElem?_drop, List.getD_eq_getElem?_getD]
  · rw [h'.kept i (by rw [h.iOff]; omega), h.kept i hi]

/-- The file and the writer where a record is written, once the writer has jumped. -/
theorem logRecord_emits (f : LogFile) (w : LogWriter) (r : Write) (bCksum : Bool) :
    ∃ k, Emits f w (logRecord f w r bCksum).1 (logRecord f w r bCksum).2
      (Item.op r (if bCksum = true then some (logRecord f w r bCksum).2.cksum else none)).bytes
      k := by
  cases bCksum with
  | false => exact ⟨_, (Emits.append f w _).trans (.append _ _ _)⟩
  | true =>
      have hall := ((Emits.append f w (r.header true)).trans (.flush f _)).trans
        (.append _ _ r.data)
      exact ⟨_, hall⟩

/-- The decision of `lsmLogWrite`. -/
theorem LogWriter.bCksum_eq (f : LogFile) (w : LogWriter) (r : Write) :
    ((jumpIfRequired f w r.nReq).2.2 ||
      decide (LSM_CKSUM_MAXDATA < (jumpIfRequired f w r.nReq).2.1.buf.length + r.nReq)) =
        w.bCksum r := by
  unfold bCksum jumpIfRequired
  by_cases hjump : w.MustJump r.nReq
  · rw [if_pos hjump, decide_eq_true hjump, Bool.true_or, Bool.true_or]
  · rw [if_neg hjump, decide_eq_false hjump]

/-- **A write** puts its record behind what was written, or behind the jump. -/
theorem lsmLogWrite_emits (f : LogFile) (w : LogWriter) (r : Write) :
    ∃ k, Emits (jumpIfRequired f w r.nReq).1 (jumpIfRequired f w r.nReq).2.1
      (lsmLogWrite f w r).1 (lsmLogWrite f w r).2 (writeItem f w r).bytes k := by
  unfold writeItem
  rw [lsmLogWrite_eq, w.bCksum_eq]
  exact logRecord_emits _ _ r _

/-- **A jump** writes its records behind what was written. -/
theorem jumpIfRequired_items (f : LogFile) {w : LogWriter} {nReq : ℕ} (h : w.MustJump nReq) :
    (jumpIfRequired f w nReq).1 = lsmFsWriteLog f w.iOff (w.buf ++ itemBytes w.jumpItems) ∧
      (jumpIfRequired f w nReq).2.1.iOff = w.jump.iEnd + 1 ∧
        (jumpIfRequired f w nReq).2.1.buf = [] := by
  rw [jumpIfRequired_eq f h rfl, w.jumpItems_bytes]
  exact ⟨rfl, rfl, rfl⟩

/-- **A commit** puts padding and the commit record behind what was written. -/
theorem lsmLogCommit_emits (f : LogFile) (w : LogWriter) :
    ∃ k, Emits (jumpIfRequired f w w.commitReq).1 (jumpIfRequired f w w.commitReq).2.1
      (lsmLogCommit f w).1 (lsmLogCommit f w).2
      (itemBytes (sectorItems (jumpIfRequired f w w.commitReq).2.1.nPad
        (jumpIfRequired f w w.commitReq).2.1.nPad ++ [.commit (lsmLogCommit f w).2.cksum])) k := by
  have hall := (Emits.append (jumpIfRequired f w w.commitReq).1
    (jumpIfRequired f w w.commitReq).2.1
    (jumpIfRequired f w w.commitReq).2.1.commitTail).trans (.flush _ _)
  rw [← lsmLogCommit_eq] at hall
  have hbytes : ∀ (w : LogWriter) ck, itemBytes (sectorItems w.nPad w.nPad ++ [.commit ck]) =
      w.commitTail ++ cksumBytes ck := by
    intro w ck
    unfold itemBytes LogWriter.commitTail
    rw [List.flatMap_append, List.flatMap_singleton, List.append_assoc]
    exact congrArg (· ++ _) (sectorItems_bytes _ _)
  rw [hbytes]
  exact ⟨_, hall⟩

/-! ### Runs -/

/-- What happens to the log.  A transaction begins with the log part of the tree header, once
space is reclaimed, and with a sector size. -/
inductive LogOp
  | write (r : Write)
  | tell
  | seek (nRelease : ℕ)
  | release (nRelease : ℕ)
  | commit
  | begin (pLog : DbLog) (szSector : ℕ)

/-- The file and the writer, the marks, and the records of the log.  A mark remembers the records
of its time. -/
structure LogRun where
  f : LogFile
  w : LogWriter
  marks : List (LogMark × List Item) := []
  log : List Item := []

def LogRun.step (s : LogRun) : LogOp → LogRun
  | .write r =>
      { s with
        f := (lsmLogWrite s.f s.w r).1
        w := (lsmLogWrite s.f s.w r).2
        log := s.log ++ writeItems s.f s.w r }
  | .tell =>
      { s with w := (lsmLogTell s.w).1, marks := ((lsmLogTell s.w).2, s.log) :: s.marks }
  | .seek n =>
      match s.marks.drop n with
      | [] => s
      | m :: marks => { s with w := lsmLogSeek s.w m.1, marks := m :: marks, log := m.2 }
  | .release n => { s with marks := s.marks.drop n }
  | .commit =>
      { f := (lsmLogCommit s.f s.w).1
        w := (lsmLogCommit s.f s.w).2
        log := s.log ++ commitItems s.f s.w }
  | .begin pLog szSector =>
      { f := (lsmLogBegin s.f pLog szSector).1
        w := (lsmLogBegin s.f pLog szSector).2.2
        log := s.log ++ beginItems pLog }

/-- Lengths are values of the type `int`. -/
def LogOp.Fits : LogOp → Prop
  | .write r => r.key.length < 2 ^ 31 ∧ (r.val.getD []).length < 2 ^ 31
  | _ => True

/-- A write has a checksum, or ends within the limit of the last one. -/
def LogRun.Keeps (s : LogRun) : LogOp → Prop
  | .write r => s.w.bCksum r = true ∨ sinceCksum s.log + r.nReq ≤ LSM_CKSUM_MAXDATA
  | _ => True

def LogRun.AllKeep : LogRun → List LogOp → Prop
  | _, [] => True
  | s, op :: ops => s.Keeps op ∧ (s.step op).AllKeep ops

/-- The records of a log, `d` bytes behind a checksum, are within the limit. -/
def Sound : ℕ → List Item → Prop
  | _, [] => True
  | d, i :: log =>
      i.Fits ∧ (∀ r, i = .op r none → d + r.nReq ≤ LSM_CKSUM_MAXDATA) ∧ Sound (i.since d) log

theorem Sound.append {d : ℕ} {log log' : List Item} (h : Sound d log)
    (h' : Sound (log.foldl Item.since d) log') : Sound d (log ++ log') := by
  induction log generalizing d with
  | nil => exact h'
  | cons i log ih => exact ⟨h.1, h.2.1, ih h.2.2 h'⟩

theorem Sound.split {d : ℕ} {log log' : List Item} (h : Sound d (log ++ log')) :
    (∀ i ∈ log, i.Fits) ∧ Sound (log.foldl Item.since d) log' := by
  induction log generalizing d with
  | nil => exact ⟨nofun, h⟩
  | cons i log ih =>
      obtain ⟨hfits, hrest⟩ := ih h.2.2
      exact ⟨List.forall_mem_cons.mpr ⟨h.1, hfits⟩, hrest⟩

/-- Records to which the limit does not apply. -/
def Item.Exempt (i : Item) : Prop := i.Fits ∧ ∀ r, i ≠ .op r none

theorem Sound.of_exempt {log : List Item} (h : ∀ i ∈ log, i.Exempt) (d : ℕ) : Sound d log := by
  induction log generalizing d with
  | nil => trivial
  | cons i log ih =>
      obtain ⟨hfirst, hrest⟩ := List.forall_mem_cons.mp h
      exact ⟨hfirst.1, fun r hr => absurd hr (hfirst.2 r), ih hrest _⟩

theorem padItems_exempt {nPad : ℕ} (h : nPad ≤ 7) : ∀ i ∈ padItems nPad, i.Exempt := by
  intro i hi
  unfold padItems at hi
  split_ifs at hi
  · exact absurd hi List.not_mem_nil
  · obtain rfl := List.mem_singleton.mp hi
    exact ⟨trivial, nofun⟩
  · obtain rfl := List.mem_singleton.mp hi
    refine ⟨?_, nofun⟩
    show (List.replicate (nPad - 2) (0 : UInt8)).length ≤ 240
    rw [List.length_replicate]
    omega

theorem jumpItems_exempt (w : LogWriter) : ∀ i ∈ w.jumpItems, i.Exempt := by
  intro i hi
  unfold LogWriter.jumpItems at hi
  rcases List.mem_append.mp hi with hi | hi
  · exact padItems_exempt (by split_ifs <;> omega) i hi
  · obtain rfl := List.mem_singleton.mp hi
    exact ⟨trivial, nofun⟩

theorem sectorItems_exempt (fuel nPad : ℕ) : ∀ i ∈ sectorItems fuel nPad, i.Exempt := by
  induction fuel generalizing nPad with
  | zero => exact fun _ hi => absurd hi List.not_mem_nil
  | succ fuel ih =>
      intro i hi
      unfold sectorItems at hi
      split_ifs at hi
      · exact absurd hi List.not_mem_nil
      · obtain rfl := List.mem_singleton.mp hi
        exact ⟨trivial, nofun⟩
      · rcases List.mem_cons.mp hi with rfl | hi
        · refine ⟨?_, nofun⟩
          show (List.replicate (min 200 (nPad - 2)) (0x2B : UInt8)).length ≤ 240
          rw [List.length_replicate]
          omega
        · exact ih _ i hi

/-- The records of a write, behind a log. -/
theorem writeItems_sound {s : LogRun} {r : Write} (hfits : (LogOp.write r).Fits)
    (hkeep : s.Keeps (.write r)) : Sound (sinceCksum s.log) (writeItems s.f s.w r) := by
  unfold writeItems
  by_cases hcksum : s.w.bCksum r = true
  · apply Sound.of_exempt
    intro i hi
    rcases List.mem_append.mp hi with hi | hi
    · split_ifs at hi
      · exact jumpItems_exempt _ i hi
      · exact absurd hi List.not_mem_nil
    · obtain rfl := List.mem_singleton.mp hi
      unfold writeItem
      rw [if_pos hcksum]
      exact ⟨hfits, nofun⟩
  · -- without a checksum there was no jump
    have hjump : ¬ s.w.MustJump r.nReq := fun hjump => hcksum (by
      unfold LogWriter.bCksum
      rw [decide_eq_true hjump, Bool.true_or])
    unfold writeItem
    rw [if_neg hjump, if_neg hcksum, List.nil_append]
    refine ⟨hfits, fun r' hr => ?_, trivial⟩
    obtain rfl := (Item.op.inj hr).1
    exact hkeep.resolve_left hcksum

theorem commitItems_exempt (f : LogFile) (w : LogWriter) : ∀ i ∈ commitItems f w, i.Exempt := by
  intro i hi
  rcases List.mem_append.mp hi with hi | hi
  · rcases List.mem_append.mp hi with hi | hi
    · split_ifs at hi
      · exact jumpItems_exempt _ i hi
      · exact absurd hi List.not_mem_nil
    · exact sectorItems_exempt _ _ i hi
  · obtain rfl := List.mem_singleton.mp hi
    exact ⟨trivial, nofun⟩

theorem beginItems_exempt (pLog : DbLog) : ∀ i ∈ beginItems pLog, i.Exempt := by
  intro i hi
  unfold beginItems at hi
  split_ifs at hi
  · rcases List.mem_pair.mp hi with rfl | rfl
    · exact ⟨(by decide : 4 ≤ 240), nofun⟩
    · exact ⟨trivial, nofun⟩
  · exact absurd hi List.not_mem_nil

/-- What holds in every state of a run. -/
structure LogRun.Inv (s : LogRun) : Prop where
  log : Sound 0 s.log
  marks : ∀ m ∈ s.marks, Sound 0 m.2

/-- One step. -/
theorem LogRun.Inv.step {s : LogRun} (h : s.Inv) {op : LogOp} (hfits : op.Fits)
    (hkeep : s.Keeps op) : (s.step op).Inv := by
  cases op with
  | write r => exact ⟨h.log.append (writeItems_sound hfits hkeep), h.marks⟩
  | tell => exact ⟨h.log, List.forall_mem_cons.mpr ⟨h.log, h.marks⟩⟩
  | seek n =>
      have hsub : ∀ m ∈ s.marks.drop n, Sound 0 m.2 := fun m hm =>
        h.marks m (List.drop_subset _ _ hm)
      unfold LogRun.step
      dsimp only
      rcases hmarks : s.marks.drop n with - | ⟨m, marks⟩
      · exact h
      · rw [hmarks] at hsub
        exact ⟨hsub m (List.mem_cons_self ..), hsub⟩
  | release n => exact ⟨h.log, fun m hm => h.marks m (List.drop_subset _ _ hm)⟩
  | commit => exact ⟨h.log.append (.of_exempt (commitItems_exempt _ _) _), nofun⟩
  | begin pLog szSector => exact ⟨h.log.append (.of_exempt (beginItems_exempt _) _), nofun⟩

/-- A whole run. -/
theorem LogRun.Inv.run {s : LogRun} (h : s.Inv) {ops : List LogOp} (hfits : ∀ op ∈ ops, op.Fits)
    (hkeep : s.AllKeep ops) : (ops.foldl LogRun.step s).Inv := by
  induction ops generalizing s with
  | nil => exact h
  | cons op ops ih =>
      obtain ⟨hfirst, hrest⟩ := List.forall_mem_cons.mp hfits
      exact ih (h.step hfirst hkeep.1) hrest hkeep.2

/-! ### Recovery -/

/-- A record without a checksum, at the reader. -/
theorem recoveryStep_accepts {f : LogFile} {bSecond : Bool} {w w' : Recovery} {bEof : Bool}
    {r : Write} (hwin : w.s.p.Window f) (hfits : (Item.op r none).Fits)
    (hat : w.s.p.At f (Item.op r none).bytes)
    (hroom : w.s.p.since + (r.header false).length + r.data.length ≤ LSM_CKSUM_MAXDATA)
    (hstep : recoveryStep f bSecond w = .ok (w', bEof)) : bEof = false := by
  obtain ⟨found, hread, happly⟩ := bind_ok.mp hstep
  obtain ⟨o, hrecord⟩ := readRecord_accepts hwin hfits.1 hfits.2 hat hread hroom
  unfold applyRecord at happly
  rw [hrecord] at happly
  dsimp only at happly
  split_ifs at happly
  · exact (Prod.mk.inj (Except.ok.inj happly)).2.symm
  · exact (Prod.mk.inj (Except.ok.inj happly)).2.symm

/-- A type byte and a length take as much room with a checksum as without one. -/
theorem header_length (r : Write) (b b' : Bool) : (r.header b).length = (r.header b').length := by
  unfold Write.header
  cases r.val <;> rfl

/-- A pass that comes to a record, and what it does there, decided. -/
theorem exists_step {f : LogFile} {b : Bool} {l : List Item} {w : Recovery} {q : Recovery → Bool}
    {e : Bool}
    (h : (match comesTo f b l w with
      | none => false
      | some w' => q w' &&
          match recoveryStep f b w' with
          | .ok (_, e') => e' == e
          | .error _ => false) = true) :
    ∃ w' w'', comesTo f b l w = some w' ∧ q w' = true ∧
      recoveryStep f b w' = .ok (w'', e) := by
  rcases hcomes : comesTo f b l w with - | w'
  · rw [hcomes] at h
    cases h
  · rw [hcomes] at h
    obtain ⟨hq, hstep⟩ := Bool.and_eq_true_iff.mp h
    rcases hrec : recoveryStep f b w' with stop | ⟨w'', e'⟩
    · rw [hrec] at hstep
      cases hstep
    · rw [hrec] at hstep
      obtain rfl := eq_of_beq hstep
      exact ⟨w', w'', rfl, hq, hrec⟩

/-- A checksum sends the buffer to the file. -/
theorem lsmLogWrite_flush {f : LogFile} {w : LogWriter} {r : Write} (hjump : ¬ w.MustJump r.nReq)
    (hcksum : w.bCksum r = true) : w.iOff + w.buf.length < (lsmLogWrite f w r).2.iOff := by
  rw [lsmLogWrite_eq, w.bCksum_eq, hcksum]
  unfold jumpIfRequired
  rw [if_neg hjump]
  show _ < (logCksumAndFlush f { w with buf := w.buf ++ r.header true }).2.iOff
  rw [logCksumAndFlush_eq f _ rfl]
  dsimp only
  rw [List.length_append, List.length_append, cksumBytes, List.length_append, lsmPutU32, lsmPutU32,
    beBytes_length, beBytes_length]
  omega

theorem lsmLogWrite_jump (f : LogFile) (w : LogWriter) (r : Write) :
    (lsmLogWrite f w r).2.jump = w.jump := by
  rw [lsmLogWrite_eq]
  unfold logRecord jumpIfRequired
  split_ifs <;> rfl

/-- A rewind to a mark in the file leaves the mark's own bytes in the buffer. -/
theorem lsmLogSeek_file {w : LogWriter} {m : LogMark} (h : m.iOff < w.iOff) :
    (lsmLogSeek w m).buf = m.aBuf ∧ (lsmLogSeek w m).jump = w.jump := by
  have hmask : m.iOff &&& 0xFFFFFFF8 ≤ m.iOff := Nat.and_le_left
  unfold lsmLogSeek
  rw [if_neg (by omega)]
  exact ⟨rfl, rfl⟩

section Again

variable {key : List UInt8} (hkey : key.length = 32752)

include hkey

theorem again_nReq : Write.nReq ⟨key, none⟩ = 32764 := by
  have hheader : (Write.header ⟨key, none⟩ true).length = 4 := by
    show (_ :: lsmVarintPut64 key.length).length = 4
    rw [hkey]
    rfl
  have hdata : (Write.data ⟨key, none⟩).length = 32752 := by
    show (key ++ []).length = _
    rw [List.append_nil, hkey]
  unfold Write.nReq
  rw [hheader, hdata]

theorem again_bytes : (Item.op ⟨key, none⟩ none).bytes = [8, 249, 119, 0] ++ key := by
  show (LSM_LOG_DELETE :: lsmVarintPut64 key.length) ++ (key ++ []) = _
  rw [List.append_nil, hkey]
  rfl

/-- The same delete of a long key, behind twenty bytes and behind a mark there. -/
theorem again_log :
    let a : Write := ⟨List.replicate 18 7, none⟩
    ([LogOp.write a, .tell, .write ⟨key, none⟩, .seek 0, .write ⟨key, none⟩].foldl LogRun.step
      { f := [], w := { cksum := (1, 2), iOff := 0 } }).log =
        [.op a none, .op ⟨key, none⟩ none] := by
  intro a
  have hreq := again_nReq hkey
  obtain ⟨w₀, hw₀⟩ : ∃ w : LogWriter, w = { cksum := (1, 2), iOff := 0 } := ⟨_, rfl⟩
  obtain ⟨f₁, hf₁⟩ : ∃ f, f = (lsmLogWrite [] w₀ a).1 := ⟨_, rfl⟩
  obtain ⟨w₁, hw₁⟩ : ∃ w, w = (lsmLogTell (lsmLogWrite [] w₀ a).2).1 := ⟨_, rfl⟩
  obtain ⟨m, hm⟩ : ∃ m, m = (lsmLogTell (lsmLogWrite [] w₀ a).2).2 := ⟨_, rfl⟩
  have hfirst : writeItems [] w₀ a = [.op a none] := by
    rw [hw₀]
    decide +kernel
  have hw : w₁.iOff = 0 ∧ w₁.buf.length = 20 ∧ w₁.jump.iStart = 0 := by
    rw [hw₁, hw₀]
    decide +kernel
  have hmark : m.iOff = 20 ∧ m.aBuf.length = 4 := by
    rw [hm, hw₀]
    decide +kernel
  have hjump : ¬ w₁.MustJump (Write.nReq ⟨key, none⟩) := fun h => by
    have hlt := h.1
    rw [hw.2.2] at hlt
    exact Nat.not_lt_zero _ hlt
  have hcksum : w₁.bCksum ⟨key, none⟩ = true := by
    unfold LogWriter.bCksum
    rw [hreq, hw.2.1, Bool.or_eq_true, decide_eq_true_iff, decide_eq_true_iff]
    exact .inr (by decide)
  have hflush := lsmLogWrite_flush (f := f₁) hjump hcksum
  obtain ⟨hbuf, hsame⟩ := lsmLogSeek_file (m := m) (w := (lsmLogWrite f₁ w₁ ⟨key, none⟩).2)
    (by omega)
  have hjump' : ¬ (lsmLogSeek (lsmLogWrite f₁ w₁ ⟨key, none⟩).2 m).MustJump
      (Write.nReq ⟨key, none⟩) := fun h => by
    have hlt := h.1
    rw [hsame, lsmLogWrite_jump, hw.2.2] at hlt
    exact Nat.not_lt_zero _ hlt
  have hcksum' : (lsmLogSeek (lsmLogWrite f₁ w₁ ⟨key, none⟩).2 m).bCksum ⟨key, none⟩ = false := by
    unfold LogWriter.bCksum
    rw [hreq, hbuf, hmark.2, Bool.or_eq_false_iff, decide_eq_false_iff_not,
      decide_eq_false_iff_not, ← hreq]
    refine ⟨hjump', ?_⟩
    rw [hreq]
    decide
  have hlast : writeItems (lsmLogWrite f₁ w₁ ⟨key, none⟩).1
      (lsmLogSeek (lsmLogWrite f₁ w₁ ⟨key, none⟩).2 m) ⟨key, none⟩ = [.op ⟨key, none⟩ none] := by
    unfold writeItems writeItem
    rw [if_neg hjump', hcksum', if_neg Bool.false_ne_true, List.nil_append]
  subst hm hw₁ hf₁ hw₀
  show writeItems _ _ _ ++ writeItems _ _ _ = _
  rw [hfirst]
  exact congrArg ([Item.op a none] ++ ·) hlast

end Again

/-- **The rule agrees**: in every run in which each record without a checksum ends within the
limit, recovery takes every such record that it comes to, wherever in the log it has started. -/
theorem rule_agrees {f₀ : LogFile} {w₀ : LogWriter} {ops : List LogOp}
    (hfits : ∀ op ∈ ops, op.Fits) (hkeep : ({ f := f₀, w := w₀ } : LogRun).AllKeep ops)
    {before log after : List Item} {r : Write}
    (hlog : (ops.foldl LogRun.step { f := f₀, w := w₀ }).log =
      before ++ (log ++ .op r none :: after))
    {f : LogFile} {bSecond : Bool} {w w' w'' : Recovery} {iOff : ℕ} {cksum : Cksum} {bEof : Bool}
    (hstart : w.s.p = logReaderInit iOff cksum) (hcomes : comesTo f bSecond log w = some w')
    (hat : w'.s.p.At f (Item.op r none).bytes)
    (hstep : recoveryStep f bSecond w' = .ok (w'', bEof)) : bEof = false := by
  have hinv : ({ f := f₀, w := w₀ } : LogRun).Inv := ⟨trivial, nofun⟩
  have hsound := (hinv.run hfits hkeep).log
  rw [hlog] at hsound
  obtain ⟨hall, hfirst, hlimit, -⟩ := hsound.split.2.split
  have hwin : w.s.p.Window f := hstart ▸ LogReader.window_init f _ _
  have hzero : w.s.p.since ≤ before.foldl Item.since 0 + 8 := by
    rw [hstart]
    exact Nat.zero_le _
  obtain ⟨hwin', hsince⟩ := comesTo_since hall hcomes hwin hzero
  have hreq := hlimit r rfl
  have hheader := header_length r true false
  apply recoveryStep_accepts hwin' hfirst hat ?_ hstep
  unfold Write.nReq at hreq
  omega

/-- A record that is written after a rewind in the buffer. -/
theorem rule_agrees_delete :
    let w : LogWriter := { cksum := (1, 2), iOff := 0 }
    let r : Write := ⟨[1], some [2]⟩
    let r' : Write := ⟨[6], none⟩
    let ops : List LogOp :=
      [.write r, .tell, .write ⟨[3], some [4, 5]⟩, .seek 0, .write r', .commit]
    let f := (ops.foldl LogRun.step { f := [], w := w }).f
    ∃ w' w'' bEof, comesTo f false [.op r none] (.begin 0 (1, 2)) = some w' ∧
      recoveryStep f false w' = .ok (w'', bEof) ∧ bEof = false := by
  intro w r r' ops f
  obtain ⟨w', w'', hcomes, hat, hstep⟩ :=
    exists_step (f := f) (b := false) (l := [.op r none]) (w := .begin 0 (1, 2))
      (q := fun w => decide (w.s.p.At f (Item.op r' none).bytes)) (e := false) (by decide +kernel)
  have hkeep : ({ f := [], w := w } : LogRun).AllKeep ops :=
    ⟨.inr (by decide), trivial, .inr (by decide), trivial, .inr (by decide), trivial, trivial⟩
  have hlog : (ops.foldl LogRun.step { f := [], w := w }).log =
      [] ++ ([.op r none] ++ .op r' none ::
        (ops.foldl LogRun.step { f := [], w := w }).log.drop 2) := by decide +kernel
  have hfits : ∀ op ∈ ops, op.Fits := by
    simp [ops, LogOp.Fits, r, r']
  exact ⟨w', w'', _, hcomes, hstep, rule_agrees hfits hkeep hlog rfl hcomes
    (of_decide_eq_true hat) hstep⟩

/-- The same record is written twice, with a rewind in between: the first time with a checksum, the
second time without one, so that recovery takes it for the end of the log. -/
theorem rule_disagrees_rewound :
    let a : Write := ⟨List.replicate 18 7, none⟩
    let c : Write := ⟨List.replicate 32752 7, none⟩
    let s := [LogOp.write a, .tell, .write c, .seek 0, .write c].foldl LogRun.step
      { f := [], w := { cksum := (1, 2), iOff := 0 } }
    s.log = [.op a none, .op c none] ∧
    ∃ w' w'', comesTo (itemBytes s.log) false [.op a none] (.begin 0 (1, 2)) = some w' ∧
      w'.s.p.At (itemBytes s.log) (Item.op c none).bytes ∧
        recoveryStep (itemBytes s.log) false w' = .ok (w'', true) := by
  intro a c s
  have hkey : (List.replicate 32752 (7 : UInt8)).length = 32752 := List.length_replicate
  have hlog : s.log = [.op a none, .op c none] := again_log hkey
  have hfile : itemBytes s.log =
      (Item.op a none).bytes ++ ([8, 249, 119, 0] ++ List.replicate 32752 7) := by
    rw [hlog, ← again_bytes hkey]
    unfold itemBytes
    rw [List.flatMap_cons, List.flatMap_singleton]
  refine ⟨hlog, ?_⟩
  rw [hfile, again_bytes hkey]
  obtain ⟨w', w'', hcomes, hpos, hstep⟩ :=
    exists_step (f := (Item.op a none).bytes ++ ([8, 249, 119, 0] ++ List.replicate 32752 7))
      (b := false) (l := [.op a none]) (w := .begin 0 (1, 2))
      (q := fun w => decide (w.s.p.pos = 20)) (e := true) (by decide +kernel)
  have hpos' : w'.s.p.pos = 20 := of_decide_eq_true hpos
  refine ⟨w', w'', hcomes, ⟨by omega, ?_⟩, hstep⟩
  rw [hpos', show (20 : ℤ).toNat = (Item.op a none).bytes.length by decide +kernel]
  exact readBytes_append_right _ _

/-! ### Runs without rewinds -/

/-- What is in the buffer after a write. -/
theorem lsmLogWrite_buf (f : LogFile) (w : LogWriter) (r : Write) :
    (lsmLogWrite f w r).2.buf =
      if w.bCksum r = true then r.data else w.buf ++ (Item.op r none).bytes := by
  rw [lsmLogWrite_eq, w.bCksum_eq]
  cases hcksum : w.bCksum r with
  | true => rfl
  | false =>
      have hjump : ¬ w.MustJump r.nReq := fun hjump => by
        unfold LogWriter.bCksum at hcksum
        rw [decide_eq_true hjump, Bool.true_or] at hcksum
        cases hcksum
      unfold jumpIfRequired
      rw [if_neg hjump, if_neg Bool.false_ne_true]
      exact List.append_assoc _ _ _

theorem lsmLogBegin_buf (f : LogFile) (pLog : DbLog) (szSector : ℕ) :
    (lsmLogBegin f pLog szSector).2.2.buf = [] := by
  have hround : ∀ w : LogWriter, w.roundJump.buf = w.buf := by
    intro w
    unfold LogWriter.roundJump
    split_ifs <;> rfl
  show (beginWriter f pLog szSector).2.2.roundJump.buf = []
  rw [hround]
  unfold beginWriter
  dsimp only
  split_ifs <;> rfl

/-- No step rewinds, and a transaction begins behind a checksum. -/
def LogRun.Forward : LogRun → List LogOp → Prop
  | _, [] => True
  | s, op :: ops =>
      (∀ n, op ≠ .seek n) ∧ (∀ pLog szSector, op = .begin pLog szSector → sinceCksum s.log = 0) ∧
        (s.step op).Forward ops

/-- Without rewinds the writer counts what is behind the last checksum. -/
theorem LogRun.step_buf {s : LogRun} (h : s.w.buf.length = sinceCksum s.log) {op : LogOp}
    (hseek : ∀ n, op ≠ .seek n)
    (hbegin : ∀ pLog szSector, op = .begin pLog szSector → sinceCksum s.log = 0) :
    (s.step op).w.buf.length = sinceCksum (s.step op).log := by
  cases op with
  | write r =>
      show (lsmLogWrite s.f s.w r).2.buf.length = sinceCksum (s.log ++ writeItems s.f s.w r)
      rw [lsmLogWrite_buf]
      unfold writeItems writeItem
      rw [← List.append_assoc s.log, sinceCksum_concat]
      by_cases hcksum : s.w.bCksum r = true
      · rw [if_pos hcksum, if_pos hcksum]
        rfl
      · have hjump : ¬ s.w.MustJump r.nReq := fun hjump => hcksum (by
          unfold LogWriter.bCksum
          rw [decide_eq_true hjump, Bool.true_or])
        rw [if_neg hcksum, if_neg hcksum, if_neg hjump, List.append_nil, List.length_append, h]
        rfl
  | tell => exact h
  | seek n => exact absurd rfl (hseek n)
  | release n => exact h
  | commit =>
      show (lsmLogCommit s.f s.w).2.buf.length = sinceCksum (s.log ++ commitItems s.f s.w)
      unfold commitItems
      rw [← List.append_assoc, sinceCksum_concat, lsmLogCommit_eq]
      rfl
  | begin pLog szSector =>
      have hbuf : (s.step (.begin pLog szSector)).w.buf = [] := lsmLogBegin_buf _ _ _
      rw [hbuf]
      show 0 = sinceCksum (s.log ++ beginItems pLog)
      unfold beginItems
      split_ifs
      · rw [show [Item.pad2 [0, 0, 0, 0], .jump 0] = [.pad2 [0, 0, 0, 0]] ++ [.jump 0] from rfl,
          ← List.append_assoc, sinceCksum_concat]
        rfl
      · rw [List.append_nil, hbegin pLog szSector rfl]

/-- **Without rewinds** every record without a checksum is within the limit. -/
theorem LogRun.Forward.allKeep {s : LogRun} (hbuf : s.w.buf.length = sinceCksum s.log)
    {ops : List LogOp} (h : s.Forward ops) : s.AllKeep ops := by
  induction ops generalizing s with
  | nil => trivial
  | cons op ops ih =>
      obtain ⟨hseek, hbegin, hrest⟩ := h
      refine ⟨?_, ih (LogRun.step_buf hbuf hseek hbegin) hrest⟩
      cases op with
      | write r =>
          show s.w.bCksum r = true ∨ sinceCksum s.log + r.nReq ≤ LSM_CKSUM_MAXDATA
          by_cases hcksum : s.w.bCksum r = true
          · exact .inl hcksum
          · right
            unfold LogWriter.bCksum at hcksum
            rw [Bool.or_eq_true, not_or, decide_eq_true_iff, decide_eq_true_iff] at hcksum
            rw [← hbuf]
            exact not_lt.mp hcksum.2
      | tell => trivial
      | seek n => trivial
      | release n => trivial
      | commit => trivial
      | begin pLog szSector => trivial

end Lsm.Log

end MoVeBench
