/-
MoVeBench/Lsm/LogScan.lean

When recovery of the log halts, and that its second pass applies what was committed.

Every record takes at least one byte, and behind the end of the file there is nothing but zero
bytes, which end a pass; only jumps lead back.  The second pass reads what the first one has
read, because the scratch strings have become large enough in the first pass.  Then it comes to
the same commit records, and stops at the last of them (`recovers_spec`).
-/
import MoVeBench.Lsm.LogJump

namespace MoVeBench

namespace Lsm.Log

open Bytes

/-! ### Reading again, with more memory -/

theorem bind_ok {α β : Type} {x : Except Stop α} {g : α → Except Stop β} {b : β} :
    x.bind g = .ok b ↔ ∃ a, x = .ok a ∧ g a = .ok b := by
  cases x with
  | error e => exact iff_of_false nofun fun ⟨_, h, _⟩ => by cases h
  | ok a => exact ⟨fun h => ⟨a, rfl, h⟩, fun ⟨_, h, hg⟩ => by cases h; exact hg⟩

theorem map_ok {α β : Type} {x : Except Stop α} {g : α → β} {b : β} :
    x.map g = .ok b ↔ ∃ a, x = .ok a ∧ g a = b := by
  cases x with
  | error e => exact iff_of_false nofun fun ⟨_, h, _⟩ => by cases h
  | ok a =>
      exact ⟨fun h => ⟨a, rfl, Except.ok.inj h⟩, fun ⟨_, h, hg⟩ => by cases h; exact congrArg _ hg⟩

variable {f : LogFile} {p p' : LogReader}

/-- A reader has read on. -/
structure Reads (f : LogFile) (p p' : LogReader) : Prop where
  window : p'.Window f
  pos : p.pos ≤ p'.pos

theorem Reads.trans {p'' : LogReader} (h : Reads f p p') (h' : Reads f p' p'') : Reads f p p'' :=
  ⟨h'.window, h.pos.trans h'.pos⟩

theorem blob_reads (h : p.Window f) (hpos : 0 ≤ p.pos) {nAlloc : ℕ} {n : ℤ} {bPtr : Bool} {b : Blob}
    (hread : logReaderBlob f p nAlloc n bPtr = .ok (p', b)) :
    Reads f p p' ∧ nAlloc ≤ b.nAlloc ∧ ∀ m, b.nAlloc ≤ m →
      logReaderBlob f p m n bPtr = .ok (p', ⟨b.bytes, .data, m⟩) := by
  rcases le_or_gt n 0 with hn | hn
  · have hnone : ∀ m, logReaderBlob f p m n bPtr = .ok (p, ⟨[], .data, m⟩) :=
      fun m => if_pos hn
    rw [hnone] at hread
    obtain ⟨rfl, rfl⟩ := Prod.mk.inj (Except.ok.inj hread)
    exact ⟨⟨h, le_rfl⟩, le_rfl, fun m _ => hnone m⟩
  · obtain ⟨k, rfl⟩ := Int.eq_ofNat_of_zero_le hn.le
    have hk : 0 < k := by omega
    cases bPtr with
    | true =>
        obtain ⟨q, hwin, hposq, hall⟩ := logReaderBlob_spec h hpos hk
        obtain ⟨b', heq, hbytes, hdirect, hcross⟩ := hall nAlloc
        obtain ⟨rfl, rfl⟩ := Prod.mk.inj (Except.ok.inj (heq.symm.trans hread))
        refine ⟨⟨hwin, by omega⟩, ?_, fun m hm => ?_⟩
        · rcases Nat.lt_or_ge p.nAvail k with hlt | hge
          · exact (hcross hlt).1.grows
          · exact (hdirect hge).2.ge
        · obtain ⟨⟨bytes, ptr, n⟩, heq', hbytes', hdirect', hcross'⟩ := hall m
          have hgood : ptr = .data ∧ n = m := by
            rcases Nat.lt_or_ge p.nAvail k with hlt | hge
            · have hroom := (hcross hlt).1.holds
              obtain ⟨hroom', hptr'⟩ := hcross' hlt
              dsimp only at hptr'
              rw [if_neg (by omega), if_pos (by omega)] at hptr'
              exact ⟨hptr', hroom'.same (by omega)⟩
            · exact hdirect' hge
          obtain ⟨rfl, rfl⟩ := hgood
          rw [hbytes, ← hbytes']
          exact heq'
    | false =>
        obtain ⟨q, hwin, hposq, hall⟩ := logReaderBlob_copy h hpos hk
        obtain ⟨b', heq, hbytes, -, hroom⟩ := hall nAlloc
        obtain ⟨rfl, rfl⟩ := Prod.mk.inj (Except.ok.inj (heq.symm.trans hread))
        refine ⟨⟨hwin, by omega⟩, hroom.grows, fun m hm => ?_⟩
        obtain ⟨⟨bytes, ptr, n⟩, heq', hbytes', hptr', hroom'⟩ := hall m
        have hholds := hroom.holds
        obtain rfl : n = m := hroom'.same (by omega)
        obtain rfl : ptr = .data := hptr'
        rw [hbytes, ← hbytes']
        exact heq'

theorem varint_reads (h : p.Window f) (hpos : 0 ≤ p.pos) {nAlloc n : ℕ} {v : ℤ}
    (hread : logReaderVarint f p nAlloc = .ok (p', v, n)) :
    Reads f p p' ∧ n = nAlloc ∧ ∀ m, nAlloc ≤ m → logReaderVarint f p m = .ok (p', v, m) := by
  obtain ⟨q, hwin, hposq, hall⟩ := logReaderVarint_spec h hpos
  rw [hall] at hread
  split_ifs at hread with hbad
  obtain ⟨rfl, hrest⟩ := Prod.mk.inj (Except.ok.inj hread)
  obtain ⟨rfl, rfl⟩ := Prod.mk.inj hrest
  refine ⟨⟨hwin, by omega⟩, rfl, fun m hm => ?_⟩
  rw [hall, if_neg fun hno => hbad ⟨hno.1, hm.trans hno.2⟩]

/-- The fields of the checksum do not matter to the window. -/
theorem LogReader.Window.withCksum (h : p.Window f) (cksum : Cksum) (n : ℕ) :
    ({ p with cksum := cksum, iCksumBuf := n } : LogReader).Window f := ⟨h.used, h.bytes⟩

theorem cksum_reads (h : p.Window f) (hpos : 0 ≤ p.pos) {nAlloc n : ℕ} {bEof : Bool}
    (hread : logReaderCksum f p nAlloc = .ok (p', n, bEof)) :
    Reads f p p' ∧ nAlloc ≤ n ∧
      (8 ≤ p.nAvail ∨ nAlloc ≠ 0 → ∀ m, n ≤ m → logReaderCksum f p m = .ok (p', m, bEof)) ∧
        ∀ m, n ≤ m → ∃ q bEof', logReaderCksum f p m = .ok (q, m, bEof') := by
  unfold logReaderCksum at hread ⊢
  obtain ⟨p0, hp0⟩ : ∃ p0 : LogReader, p0 = { p with
    cksum := logCksumUnaligned (readBytes p.buf p.iCksumBuf (p.iBuf - p.iCksumBuf)) p.cksum
    iCksumBuf := p.iBuf + 8 } := ⟨_, rfl⟩
  have hwin0 : p0.Window f := hp0 ▸ h.withCksum _ _
  have hpos0 : p0.pos = p.pos := hp0 ▸ rfl
  have havail0 : p0.nAvail = p.nAvail := hp0 ▸ rfl
  simp only [← hp0] at hread ⊢
  obtain ⟨⟨q, b⟩, hblob, hptr⟩ := bind_ok.mp hread
  obtain ⟨hreads, hgrows, hagain⟩ := blob_reads hwin0 (hpos0.symm ▸ hpos) hblob
  obtain ⟨q', -, -, hall⟩ := logReaderBlob_spec hwin0 (hpos0.symm ▸ hpos) (n := 8) (by omega)
  obtain ⟨b', heq, -, hdirect, hcross⟩ := hall nAlloc
  obtain ⟨rfl, rfl⟩ := Prod.mk.inj (Except.ok.inj (heq.symm.trans hblob))
  have hn : n = b'.nAlloc ∧ Reads f p p' := by
    have hreads' : Reads f p q' := ⟨hreads.window, hpos0 ▸ hreads.pos⟩
    revert hptr
    cases b'.ptr <;> intro hptr
    · obtain ⟨rfl, hrest⟩ := Prod.mk.inj (Except.ok.inj hptr)
      exact ⟨(Prod.mk.inj hrest).1.symm, ⟨hreads'.window.withCksum _ _, hreads'.pos⟩⟩
    · obtain ⟨rfl, hrest⟩ := Prod.mk.inj (Except.ok.inj hptr)
      exact ⟨(Prod.mk.inj hrest).1.symm, hreads'⟩
    · cases hptr
  obtain ⟨rfl, hp'⟩ := hn
  refine ⟨hp', hgrows, fun hcompared m hm => ?_, fun m hm => ?_⟩
  swap
  · rw [hagain m hm]
    exact ⟨_, _, rfl⟩
  have hdata : b'.ptr = .data := by
    rcases Nat.lt_or_ge p.nAvail 8 with hlt | hge
    · have hptr' := (hcross (by rwa [havail0])).2
      have hzero : nAlloc ≠ 0 := hcompared.resolve_left (by omega)
      rw [if_neg hzero] at hptr'
      split_ifs at hptr' with hroom
      · exact hptr'
      · rw [hptr'] at hptr
        cases hptr
    · exact (hdirect (by rwa [havail0])).1
  rw [hdata] at hptr
  obtain ⟨rfl, hrest⟩ := Prod.mk.inj (Except.ok.inj hptr)
  rw [hagain m hm, ← (Prod.mk.inj hrest).2]
  rfl

theorem readCksum_reads (h : p.Window f) (hpos : 0 ≤ p.pos) {nAlloc n : ℕ} {nByte : ℤ}
    {bCksum bEof bCompared : Bool}
    (hread : readCksum f p nAlloc bCksum nByte = .ok (p', n, bEof, bCompared)) :
    Reads f p p' ∧ nAlloc ≤ n ∧ (bCompared = true → ∀ m, n ≤ m →
      readCksum f p m bCksum nByte = .ok (p', m, bEof, true)) := by
  unfold readCksum at hread ⊢
  cases bCksum with
  | true =>
      rw [if_pos rfl] at hread
      obtain ⟨⟨q, n', e⟩, hcksum, heq⟩ := map_ok.mp hread
      simp only [Prod.mk.injEq] at heq
      obtain ⟨rfl, rfl, rfl, rfl⟩ := heq
      obtain ⟨hreads, hgrows, hagain, -⟩ := cksum_reads h hpos hcksum
      refine ⟨hreads, hgrows, fun hcompared m hm => ?_⟩
      have hcompared := of_decide_eq_true hcompared
      have hm' : 8 ≤ p.nAvail ∨ m ≠ 0 := hcompared.imp_right fun hne => by omega
      rw [if_pos rfl, hagain hcompared m hm]
      simp only [Except.map, decide_eq_true hm']
  | false =>
      rw [if_neg Bool.false_ne_true] at hread
      split_ifs at hread with hfits
      obtain ⟨e, hrequire, heq⟩ := map_ok.mp hread
      simp only [Prod.mk.injEq] at heq
      obtain ⟨rfl, rfl, rfl, rfl⟩ := heq
      refine ⟨⟨h, le_rfl⟩, le_rfl, fun _ m _ => ?_⟩
      rw [if_neg Bool.false_ne_true, if_pos hfits, hrequire]
      rfl

/-! ### The same record again -/

/-- A record that was read is read again with the memory that the scratch strings have then. -/
structure Repeats (f : LogFile) (g : Source → Except Stop Found) (s : Source) (r : Found) :
    Prop where
  reads : Reads f s.p r.s.p
  grows1 : s.nAlloc1 ≤ r.s.nAlloc1
  grows2 : s.nAlloc2 ≤ r.s.nAlloc2
  again : r.bCompared = true → ∀ m1 m2, r.s.nAlloc1 ≤ m1 → r.s.nAlloc2 ≤ m2 →
    g ⟨s.p, m1, m2⟩ = .ok ⟨⟨r.s.p, m1, m2⟩, r.record, true, true⟩

variable {s : Source} {r : Found}

theorem readPad_repeats (h : s.p.Window f) (hpos : 0 ≤ s.p.pos) (hread : readPad f s = .ok r) :
    Repeats f (readPad f) s r := by
  obtain ⟨⟨p1, nPad, n1⟩, hvarint, hrest⟩ := bind_ok.mp hread
  obtain ⟨⟨p2, b⟩, hblob, rfl⟩ := map_ok.mp hrest
  obtain ⟨hreads1, rfl, hagain1⟩ := varint_reads h hpos hvarint
  obtain ⟨hreads2, hgrows, hagain2⟩ := blob_reads hreads1.window (hpos.trans hreads1.pos) hblob
  refine ⟨hreads1.trans hreads2, hgrows, le_rfl, fun _ m1 m2 hm1 _ => ?_⟩
  refine bind_ok.mpr ⟨_, hagain1 m1 (hgrows.trans hm1), ?_⟩
  exact map_ok.mpr ⟨_, hagain2 m1 hm1, rfl⟩

theorem readJump_repeats (h : s.p.Window f) (hpos : 0 ≤ s.p.pos) (hread : readJump f s = .ok r) :
    Repeats f (readJump f) s r := by
  obtain ⟨⟨p1, iOff, n1⟩, hvarint, rfl⟩ := map_ok.mp hread
  obtain ⟨hreads, rfl, hagain⟩ := varint_reads h hpos hvarint
  refine ⟨hreads, le_rfl, le_rfl, fun _ m1 m2 hm1 _ => ?_⟩
  exact map_ok.mpr ⟨_, hagain m1 hm1, rfl⟩

theorem readCommit_repeats (h : s.p.Window f) (hpos : 0 ≤ s.p.pos)
    (hread : readCommit f s = .ok r) : Repeats f (readCommit f) s r := by
  obtain ⟨⟨p1, n1, bEof, bCompared⟩, hcksum, rfl⟩ := map_ok.mp hread
  obtain ⟨hreads, hgrows, hagain⟩ := readCksum_reads h hpos hcksum
  refine ⟨hreads, hgrows, le_rfl, fun hcompared m1 m2 hm1 _ => ?_⟩
  exact map_ok.mpr ⟨_, hagain hcompared m1 hm1, rfl⟩

theorem readDelete_repeats (h : s.p.Window f) (hpos : 0 ≤ s.p.pos) {bCksum : Bool}
    (hread : readDelete f s bCksum = .ok r) :
    Repeats f (fun s => readDelete f s bCksum) s r := by
  obtain ⟨⟨p1, nKey, n1⟩, hvarint, hrest⟩ := bind_ok.mp hread
  obtain ⟨⟨p2, n2, bEof, bCompared⟩, hcksum, hbody⟩ := bind_ok.mp hrest
  obtain ⟨hreads1, rfl, hagain1⟩ := varint_reads h hpos hvarint
  have hpos1 := hpos.trans hreads1.pos
  obtain ⟨hreads2, hgrows2, hagain2⟩ := readCksum_reads hreads1.window hpos1 hcksum
  dsimp only at hbody
  cases bEof with
  | true =>
      rw [if_pos rfl] at hbody
      obtain rfl := Except.ok.inj hbody
      refine ⟨hreads1.trans hreads2, hgrows2, le_rfl, fun hcompared m1 m2 hm1 _ => ?_⟩
      refine bind_ok.mpr ⟨_, hagain1 m1 (hgrows2.trans hm1), ?_⟩
      exact bind_ok.mpr ⟨_, hagain2 hcompared m1 hm1, rfl⟩
  | false =>
      rw [if_neg Bool.false_ne_true] at hbody
      obtain ⟨⟨p3, key⟩, hkey, rfl⟩ := map_ok.mp hbody
      obtain ⟨hreads3, hgrows3, hagain3⟩ :=
        blob_reads hreads2.window (hpos1.trans hreads2.pos) hkey
      refine ⟨(hreads1.trans hreads2).trans hreads3, hgrows2.trans hgrows3, le_rfl,
        fun hcompared m1 m2 hm1 _ => ?_⟩
      refine bind_ok.mpr ⟨_, hagain1 m1 ((hgrows2.trans hgrows3).trans hm1), ?_⟩
      refine bind_ok.mpr ⟨_, hagain2 hcompared m1 (hgrows3.trans hm1), ?_⟩
      exact map_ok.mpr ⟨_, hagain3 m1 hm1, rfl⟩

theorem readWrite_repeats (h : s.p.Window f) (hpos : 0 ≤ s.p.pos) {bCksum : Bool}
    (hread : readWrite f s bCksum = .ok r) :
    Repeats f (fun s => readWrite f s bCksum) s r := by
  obtain ⟨⟨p1, nKey, n1⟩, hvarint1, hrest⟩ := bind_ok.mp hread
  obtain ⟨⟨p2, nVal, n2⟩, hvarint2, hrest⟩ := bind_ok.mp hrest
  obtain ⟨⟨p3, n3, bEof, bCompared⟩, hcksum, hbody⟩ := bind_ok.mp hrest
  obtain ⟨hreads1, rfl, hagain1⟩ := varint_reads h hpos hvarint1
  have hpos1 := hpos.trans hreads1.pos
  obtain ⟨hreads2, rfl, hagain2⟩ := varint_reads hreads1.window hpos1 hvarint2
  have hpos2 := hpos1.trans hreads2.pos
  obtain ⟨hreads3, hgrows3, hagain3⟩ := readCksum_reads hreads2.window hpos2 hcksum
  have hreads123 := (hreads1.trans hreads2).trans hreads3
  dsimp only at hbody
  cases bEof with
  | true =>
      rw [if_pos rfl] at hbody
      obtain rfl := Except.ok.inj hbody
      refine ⟨hreads123, hgrows3, le_rfl, fun hcompared m1 m2 hm1 hm2 => ?_⟩
      refine bind_ok.mpr ⟨_, hagain1 m1 (hgrows3.trans hm1), ?_⟩
      refine bind_ok.mpr ⟨_, hagain2 m2 hm2, ?_⟩
      exact bind_ok.mpr ⟨_, hagain3 hcompared m1 hm1, rfl⟩
  | false =>
      rw [if_neg Bool.false_ne_true] at hbody
      obtain ⟨⟨p4, key⟩, hkey, hbody⟩ := bind_ok.mp hbody
      obtain ⟨⟨p5, val⟩, hval, rfl⟩ := map_ok.mp hbody
      have hpos3 := hpos2.trans hreads3.pos
      obtain ⟨hreads4, hgrows4, hagain4⟩ := blob_reads hreads3.window hpos3 hkey
      obtain ⟨hreads5, hgrows5, hagain5⟩ :=
        blob_reads hreads4.window (hpos3.trans hreads4.pos) hval
      refine ⟨(hreads123.trans hreads4).trans hreads5, hgrows3.trans hgrows4, hgrows5,
        fun hcompared m1 m2 hm1 hm2 => ?_⟩
      refine bind_ok.mpr ⟨_, hagain1 m1 ((hgrows3.trans hgrows4).trans hm1), ?_⟩
      refine bind_ok.mpr ⟨_, hagain2 m2 (hgrows5.trans hm2), ?_⟩
      refine bind_ok.mpr ⟨_, hagain3 hcompared m1 (hgrows4.trans hm1), ?_⟩
      refine bind_ok.mpr ⟨_, hagain4 m1 hm1, ?_⟩
      exact map_ok.mpr ⟨_, hagain5 m2 hm2, rfl⟩

theorem readBody_repeats (h : s.p.Window f) (hpos : 0 ≤ s.p.pos) {eType : UInt8}
    (hread : readBody f s eType = .ok r) : Repeats f (fun s => readBody f s eType) s r := by
  have hsame : ∀ {record}, .ok ⟨s, record, true, true⟩ = (.ok r : Except Stop Found) →
      Repeats f (fun s => .ok ⟨s, record, true, true⟩) s r := by
    intro record heq
    obtain rfl := Except.ok.inj heq
    exact ⟨⟨h, le_rfl⟩, le_rfl, le_rfl, fun _ _ _ _ _ => rfl⟩
  unfold readBody at hread ⊢
  split_ifs at hread ⊢
  · exact hsame hread
  · exact readPad_repeats h hpos hread
  · exact readWrite_repeats h hpos hread
  · exact readDelete_repeats h hpos hread
  · exact readCommit_repeats h hpos hread
  · exact readJump_repeats h hpos hread
  · exact hsame hread

/-- Every record that is read takes at least one byte of the file, or ends the pass. -/
theorem readRecord_repeats (h : s.p.Window f) (hread : readRecord f s = .ok r) :
    Repeats f (readRecord f) s r ∧ 0 ≤ s.p.pos ∧ s.p.pos < r.s.p.pos ∧
      (r.record ≠ .eof → s.p.pos.toNat < f.length) := by
  have hpos : 0 ≤ s.p.pos := by
    by_contra hneg
    have herr := logReaderBlob_neg h (not_le.mp hneg) 0 Nat.one_pos true
    rw [Nat.cast_one] at herr
    rw [readRecord, logReaderByte, herr] at hread
    cases hread
  obtain ⟨p1, hwin1, hpos1, hbyte, -⟩ := logReaderByte_spec h hpos
  have heq : ∀ m1 m2, readRecord f ⟨s.p, m1, m2⟩ =
      readBody f ⟨p1, m1, m2⟩ (f.getD s.p.pos.toNat 0) := by
    intro m1 m2
    show (logReaderByte f s.p).bind _ = _
    rw [hbyte]
    rfl
  have hbody : readBody f ⟨p1, s.nAlloc1, s.nAlloc2⟩ (f.getD s.p.pos.toNat 0) = .ok r :=
    (heq s.nAlloc1 s.nAlloc2).symm.trans hread
  have hrep := readBody_repeats (s := ⟨p1, s.nAlloc1, s.nAlloc2⟩) hwin1 (by
    show 0 ≤ p1.pos
    omega) hbody
  have hle : p1.pos ≤ r.s.p.pos := hrep.reads.pos
  refine ⟨⟨⟨hrep.reads.window, by omega⟩, hrep.grows1, hrep.grows2,
    fun hcompared m1 m2 hm1 hm2 => ?_⟩, hpos, by omega, fun hrecord => ?_⟩
  · rw [heq]
    exact hrep.again hcompared m1 m2 hm1 hm2
  · -- behind the end there are zero bytes
    by_contra hend
    rw [List.getD_eq_default _ _ (not_lt.mp hend)] at hbody
    obtain rfl := Except.ok.inj hbody
    exact hrecord rfl

/-- Only COMMIT records are read as commit records. -/
theorem readBody_commit {eType : UInt8} (hread : readBody f s eType = .ok r)
    (hcommit : r.record = .commit) : ∀ s', readBody f s' eType = readCommit f s' := by
  intro s'
  unfold readBody at hread ⊢
  split_ifs at hread ⊢
  · obtain rfl := Except.ok.inj hread
    cases hcommit
  · obtain ⟨_, -, hrest⟩ := bind_ok.mp hread
    obtain ⟨_, -, rfl⟩ := map_ok.mp hrest
    cases hcommit
  · obtain ⟨_, -, hrest⟩ := bind_ok.mp hread
    obtain ⟨_, -, hrest⟩ := bind_ok.mp hrest
    obtain ⟨_, -, hrest⟩ := bind_ok.mp hrest
    dsimp only at hrest
    split_ifs at hrest
    · obtain rfl := Except.ok.inj hrest
      cases hcommit
    · obtain ⟨_, -, hrest⟩ := bind_ok.mp hrest
      obtain ⟨_, -, rfl⟩ := map_ok.mp hrest
      cases hcommit
  · obtain ⟨_, -, hrest⟩ := bind_ok.mp hread
    obtain ⟨_, -, hrest⟩ := bind_ok.mp hrest
    dsimp only at hrest
    split_ifs at hrest
    · obtain rfl := Except.ok.inj hrest
      cases hcommit
    · obtain ⟨_, -, rfl⟩ := map_ok.mp hrest
      cases hcommit
  · rfl
  · obtain ⟨_, -, rfl⟩ := map_ok.mp hread
    cases hcommit
  · obtain rfl := Except.ok.inj hread
    cases hcommit

/-- A commit record is read again as a commit record, or ends the pass. -/
theorem readRecord_commit (h : s.p.Window f) (hread : readRecord f s = .ok r)
    (hcommit : r.record = .commit) {m1 : ℕ} (hm1 : r.s.nAlloc1 ≤ m1) (m2 : ℕ) :
    ∃ r', readRecord f ⟨s.p, m1, m2⟩ = .ok r' ∧ (r'.record = .commit ∨ r'.record = .eof) := by
  obtain ⟨-, hpos, -⟩ := readRecord_repeats h hread
  obtain ⟨p1, hwin1, hpos1, hbyte, -⟩ := logReaderByte_spec h hpos
  unfold readRecord at hread ⊢
  simp only [hbyte, Except.bind] at hread ⊢
  have hsame := readBody_commit hread hcommit
  rw [hsame] at hread ⊢
  obtain ⟨⟨p2, n, bEof, bCompared⟩, hcksum, rfl⟩ := map_ok.mp hread
  obtain ⟨⟨q, n', e⟩, hok, heq⟩ := map_ok.mp hcksum
  simp only [Prod.mk.injEq] at heq
  obtain ⟨rfl, rfl, rfl, rfl⟩ := heq
  obtain ⟨-, -, -, hagain⟩ := cksum_reads hwin1 (by omega) hok
  obtain ⟨q', bEof, hq⟩ := hagain m1 hm1
  have hck : readCksum f p1 m1 true 0 =
      .ok (q', m1, bEof, decide (8 ≤ p1.nAvail ∨ m1 ≠ 0)) := map_ok.mpr ⟨_, hq, rfl⟩
  refine ⟨_, map_ok.mpr ⟨_, hck, rfl⟩, ?_⟩
  cases bEof with
  | true => exact .inr rfl
  | false => exact .inl rfl

/-! ### Passes -/

/-- A first pass that ends, with the records that it reads. -/
inductive FirstPass (f : LogFile) : Recovery → List Found → Recovery → Prop
  | last {w w' : Recovery} {r : Found} : readRecord f w.s = .ok r →
      applyRecord false w r = .ok (w', true) → FirstPass f w [r] w'
  | next {w w1 w' : Recovery} {r : Found} {l : List Found} : readRecord f w.s = .ok r →
      applyRecord false w r = .ok (w1, false) → FirstPass f w1 l w' → FirstPass f w (r :: l) w'

/-- The pass ends, whatever its result. -/
def Ends (f : LogFile) (bSecond : Bool) (w : Recovery) (res : Except Stop Recovery) : Prop :=
  ∃ fuel, recoveryPass f bSecond fuel w = some res

variable {w w' w1 : Recovery} {l : List Found} {bSecond : Bool} {res res' : Except Stop Recovery}

theorem recoveryPass_mono {fuel fuel' : ℕ} (h : recoveryPass f bSecond fuel w = some res)
    (hle : fuel ≤ fuel') : recoveryPass f bSecond fuel' w = some res := by
  induction fuel generalizing w fuel' with
  | zero => cases h
  | succ fuel ih =>
      obtain ⟨k, rfl⟩ := Nat.exists_eq_add_of_le hle
      rw [Nat.add_right_comm]
      unfold recoveryPass at h ⊢
      rcases hstep : recoveryStep f bSecond w with e | ⟨w1, b⟩
      · rw [hstep] at h
        exact h
      · rw [hstep] at h
        cases b with
        | true => exact h
        | false => exact ih h (Nat.le_add_right _ _)

theorem Ends.unique (h : Ends f bSecond w res) (h' : Ends f bSecond w res') : res = res' := by
  obtain ⟨n, hn⟩ := h
  obtain ⟨m, hm⟩ := h'
  have hn' := recoveryPass_mono hn (Nat.le_add_right n m)
  have hm' := recoveryPass_mono hm (Nat.le_add_left m n)
  exact Option.some.inj (hn'.symm.trans hm')

theorem Ends.step (hstep : recoveryStep f bSecond w = .ok (w1, false))
    (h : Ends f bSecond w1 res) : Ends f bSecond w res := by
  obtain ⟨n, hn⟩ := h
  refine ⟨n + 1, ?_⟩
  unfold recoveryPass
  rw [hstep]
  exact hn

theorem Ends.last (hstep : recoveryStep f bSecond w = .ok (w1, true)) :
    Ends f bSecond w (.ok w1) := by
  refine ⟨1, ?_⟩
  unfold recoveryPass
  rw [hstep]

theorem Ends.error {e : Stop} (hstep : recoveryStep f bSecond w = .error e) :
    Ends f bSecond w (.error e) := by
  refine ⟨1, ?_⟩
  unfold recoveryPass
  rw [hstep]

theorem increment_ok {n m : ℤ} (h : increment n = .ok m) : m = n + 1 ∧ Checked.Fits 32 m := by
  unfold increment Checked.int at h
  split_ifs at h with hfits
  obtain rfl := Except.ok.inj h
  exact ⟨rfl, hfits⟩

/-- How many commit records there are. -/
def commits (l : List Found) : ℕ := (l.map Found.record).count .commit

theorem commits_cons (r : Found) (l : List Found) :
    commits (r :: l) = commits l + if r.record = .commit then 1 else 0 := by
  unfold commits
  rw [List.map_cons, List.count_cons]
  exact congrArg _ (if_congr beq_iff_eq rfl rfl)

theorem window_jumpTo {s : Source} (h : s.p.Window f) (iOff : ℤ) : (s.jumpTo iOff).p.Window f := by
  have hlen : (s.p.buf.take s.p.iBuf).length = s.p.iBuf := by
    rw [List.length_take, Nat.min_eq_left h.used]
  exact ⟨hlen.ge, fun i hlo hhi => absurd hhi (by
    show ¬ i < (s.p.buf.take s.p.iBuf).length
    rw [hlen]
    exact not_lt.mpr hlo)⟩

/-- What a record does in the first pass. -/
structure FirstStep (w : Recovery) (r : Found) (w1 : Recovery) (b : Bool) : Prop where
  source : w1.s = match r.record with
    | .jump iOff => r.s.jumpTo iOff
    | _ => r.s
  nCommit : w1.nCommit = w.nCommit + (if r.record = .commit then 1 else 0 : ℕ)
  bound : w.nCommit < 2 ^ 31 → w1.nCommit < 2 ^ 31
  nJump : (∀ iOff, r.record ≠ .jump iOff) ∧ w1.nJump = w.nJump ∨
    ∃ iOff, r.record = .jump iOff ∧ w1.nJump = w.nJump + 1 ∧ b = decide (w.nJump = 2)
  last : r.record = .eof → b = true
  rest : w1.ops = w.ops ∧ w1.aRegion = w.aRegion ∧ w1.cksum = w.cksum

theorem applyRecord_first {b : Bool} (h : applyRecord false w r = .ok (w1, b)) :
    FirstStep w r w1 b := by
  unfold applyRecord at h
  cases hrecord : r.record with
  | pad =>
      rw [hrecord] at h
      obtain ⟨rfl, rfl⟩ := Prod.mk.inj (Except.ok.inj h)
      exact ⟨by rw [hrecord], by simp [hrecord], id,
        .inl ⟨by rw [hrecord]; exact fun _ => nofun, rfl⟩, by rw [hrecord]; nofun, rfl, rfl, rfl⟩
  | op o =>
      rw [hrecord] at h
      obtain ⟨rfl, rfl⟩ := Prod.mk.inj (Except.ok.inj h)
      exact ⟨by rw [hrecord], by simp [hrecord], id,
        .inl ⟨by rw [hrecord]; exact fun _ => nofun, rfl⟩, by rw [hrecord]; nofun, rfl, rfl, rfl⟩
  | commit =>
      rw [hrecord] at h
      obtain ⟨n, hn, heq⟩ := map_ok.mp h
      obtain ⟨rfl, rfl⟩ := Prod.mk.inj heq
      obtain ⟨rfl, hfits⟩ := increment_ok hn
      exact ⟨by rw [hrecord], by simp [hrecord], fun _ => hfits.2,
        .inl ⟨by rw [hrecord]; exact fun _ => nofun, rfl⟩, by rw [hrecord]; nofun, rfl, rfl, rfl⟩
  | jump iOff =>
      rw [hrecord] at h
      obtain ⟨n, hn, heq⟩ := map_ok.mp h
      obtain ⟨rfl, rfl⟩ := Prod.mk.inj heq
      obtain ⟨rfl, -⟩ := increment_ok hn
      exact ⟨by rw [hrecord], by simp [hrecord], id, .inr ⟨iOff, hrecord, rfl, rfl⟩,
        by rw [hrecord]; nofun, rfl, rfl, rfl⟩
  | eof =>
      rw [hrecord] at h
      obtain ⟨rfl, rfl⟩ := Prod.mk.inj (Except.ok.inj h)
      exact ⟨by rw [hrecord], by simp [hrecord], id,
        .inl ⟨by rw [hrecord]; exact fun _ => nofun, rfl⟩, fun _ => rfl, rfl, rfl, rfl⟩

theorem FirstStep.window {b : Bool} (h : FirstStep w r w1 b) (hwin : r.s.p.Window f) :
    w1.s.p.Window f ∧ w1.s.nAlloc1 = r.s.nAlloc1 ∧ w1.s.nAlloc2 = r.s.nAlloc2 := by
  rw [h.source]
  cases r.record with
  | jump iOff => exact ⟨window_jumpTo hwin iOff, rfl, rfl⟩
  | pad => exact ⟨hwin, rfl, rfl⟩
  | op o => exact ⟨hwin, rfl, rfl⟩
  | commit => exact ⟨hwin, rfl, rfl⟩
  | eof => exact ⟨hwin, rfl, rfl⟩

/-- A pass counts its commit records, and the scratch strings grow. -/
theorem FirstPass.counts (h : FirstPass f w l w') (hwin : w.s.p.Window f) :
    w'.nCommit = w.nCommit + commits l ∧ (w.nCommit < 2 ^ 31 → w'.nCommit < 2 ^ 31) ∧
      w.s.nAlloc1 ≤ w'.s.nAlloc1 ∧ w.s.nAlloc2 ≤ w'.s.nAlloc2 ∧
        w'.ops = w.ops ∧ w'.aRegion = w.aRegion ∧ w'.cksum = w.cksum := by
  induction h with
  | last hread happly =>
      obtain ⟨hrep, -⟩ := readRecord_repeats hwin hread
      have hstep := applyRecord_first happly
      obtain ⟨-, h1, h2⟩ := hstep.window hrep.reads.window
      refine ⟨?_, hstep.bound, h1 ▸ hrep.grows1, h2 ▸ hrep.grows2, hstep.rest⟩
      rw [hstep.nCommit, commits_cons]
      exact congrArg _ (congrArg _ (Nat.zero_add _).symm)
  | next hread happly _ ih =>
      obtain ⟨hrep, -⟩ := readRecord_repeats hwin hread
      have hstep := applyRecord_first happly
      obtain ⟨hwin1, h1, h2⟩ := hstep.window hrep.reads.window
      obtain ⟨hcount, hbound, hgrows1, hgrows2, hops, hregion, hcksum⟩ := ih hwin1
      obtain ⟨hops', hregion', hcksum'⟩ := hstep.rest
      refine ⟨?_, fun hlt => hbound (hstep.bound hlt), (h1 ▸ hrep.grows1).trans hgrows1,
        (h2 ▸ hrep.grows2).trans hgrows2, hops.trans hops', hregion.trans hregion',
        hcksum.trans hcksum'⟩
      rw [hcount, hstep.nCommit, commits_cons]
      push_cast
      ring

/-! ### The second pass -/

/-- The operations in front of the last commit record. -/
def committedOps : List Record → List Op
  | [] => []
  | .op o :: l => if .commit ∈ l then o :: committedOps l else []
  | _ :: l => committedOps l

theorem committedOps_none {l : List Record} (h : .commit ∉ l) : committedOps l = [] := by
  induction l with
  | nil => rfl
  | cons a l ih =>
      have hl := fun hm => h (List.mem_cons_of_mem a hm)
      cases a with
      | op o => exact if_neg hl
      | pad => exact ih hl
      | commit => exact absurd List.mem_cons_self h
      | jump iOff => exact ih hl
      | eof => exact ih hl

/-- Every checksum in front of the last commit record is compared. -/
def Compared (l : List Found) : Prop :=
  ∀ pre r post, l = pre ++ r :: post → .commit ∈ post.map Found.record → r.bCompared = true

theorem Compared.tail {r : Found} (h : Compared (r :: l)) : Compared l :=
  fun pre r' post heq => h (r :: pre) r' post (by rw [heq]; rfl)

theorem commits_pos : 0 < commits l ↔ .commit ∈ l.map Found.record := List.count_pos_iff

theorem increment_neg {n : ℕ} (h : n < 2 ^ 31) : increment (-(n + 1 : ℕ)) = .ok (-n) := by
  have hsum : -((n + 1 : ℕ) : ℤ) + 1 = -n := by
    push_cast
    omega
  unfold increment
  rw [hsum, Checked.int_of_fits ⟨by omega, by omega⟩]

/-- The operation of a record. -/
def Record.ops : Record → List Op
  | .op o => [o]
  | _ => []

theorem committedOps_cons (a : Record) {l : List Record} (h : .commit ∈ l) :
    committedOps (a :: l) = a.ops ++ committedOps l := by
  cases a with
  | op o => exact if_pos h
  | pad => rfl
  | commit => rfl
  | jump iOff => rfl
  | eof => rfl

/-- A record in front of the last commit record, in the second pass. -/
theorem FirstStep.second (h : FirstStep w r w1 false) {v : Recovery} (m1 m2 : ℕ) {n : ℕ}
    (hcount : v.nCommit = -((n + if r.record = .commit then 1 else 0 : ℕ) : ℤ)) (hpos : 0 < n)
    (hmax : n + (if r.record = .commit then 1 else 0) ≤ 2 ^ 31) :
    ∃ v1, applyRecord true v ⟨⟨r.s.p, m1, m2⟩, r.record, true, true⟩ = .ok (v1, false) ∧
      v1.s = ⟨w1.s.p, m1, m2⟩ ∧ v1.nCommit = -n ∧ v1.ops = v.ops ++ r.record.ops := by
  have hsource := h.source
  cases hrecord : r.record with
  | pad =>
      rw [hrecord] at hsource hcount
      exact ⟨_, rfl, by rw [hsource], by simpa using hcount, (List.append_nil _).symm⟩
  | op o =>
      rw [hrecord] at hsource hcount
      exact ⟨_, rfl, by rw [hsource], by simpa using hcount, rfl⟩
  | commit =>
      rw [hrecord, if_pos rfl] at hcount hmax
      rw [hrecord] at hsource
      have hinc := increment_neg (n := n) (by omega)
      rw [← hcount] at hinc
      refine ⟨{ v with s := ⟨r.s.p, m1, m2⟩, nCommit := -n }, ?_, by rw [hsource], rfl,
        (List.append_nil _).symm⟩
      unfold applyRecord
      dsimp only
      rw [hinc]
      simp only [Except.map, Except.ok.injEq, Prod.mk.injEq, true_and, decide_eq_false_iff_not]
      omega
  | jump iOff =>
      rw [hrecord] at hsource hcount
      exact ⟨_, rfl, by rw [hsource]; rfl, by simpa using hcount, (List.append_nil _).symm⟩
  | eof => exact absurd (h.last hrecord) Bool.false_ne_true

/-- **The second pass** applies what was committed. -/
theorem FirstPass.second (h : FirstPass f w l w') (hwin : w.s.p.Window f) (hpos : 0 ≤ w.nCommit)
    (hcompared : Compared l) {v : Recovery} (m1 m2 : ℕ) (hv : v.s = ⟨w.s.p, m1, m2⟩)
    (hm1 : w'.s.nAlloc1 ≤ m1) (hm2 : w'.s.nAlloc2 ≤ m2) (hcount : v.nCommit = -(commits l : ℕ))
    (hany : 0 < commits l) (hmax : commits l ≤ 2 ^ 31) :
    ∃ v', Ends f true v (.ok v') ∧
      v'.ops = v.ops ++ committedOps (l.map Found.record) := by
  induction h generalizing v with
  | @last w w' r hread happly =>
      -- a first pass does not end at a commit record
      have hstep := applyRecord_first happly
      have hcommit : r.record = .commit := by
        by_contra hne
        rw [commits_cons, if_neg hne] at hany
        exact absurd hany (lt_irrefl 0)
      unfold applyRecord at happly
      rw [hcommit] at happly
      obtain ⟨n, hn, heq⟩ := map_ok.mp happly
      have hzero := of_decide_eq_true (Prod.mk.inj heq).2
      obtain ⟨rfl, -⟩ := increment_ok hn
      omega
  | @next w w1 w' r l hread happly hrest ih =>
      obtain ⟨hrep, -⟩ := readRecord_repeats hwin hread
      have hstep := applyRecord_first happly
      obtain ⟨hwin1, h1, h2⟩ := hstep.window hrep.reads.window
      obtain ⟨-, -, hgrows1, hgrows2, -⟩ := hrest.counts hwin1
      have hr1 : r.s.nAlloc1 ≤ m1 := (h1 ▸ hgrows1).trans hm1
      have hr2 : r.s.nAlloc2 ≤ m2 := (h2 ▸ hgrows2).trans hm2
      have hpos1 : 0 ≤ w1.nCommit := by
        rw [hstep.nCommit]
        omega
      rw [commits_cons] at hcount hany hmax
      rcases Nat.eq_zero_or_pos (commits l) with hlast | hmore
      · -- the last commit record
        have hcommit : r.record = .commit := by
          by_contra hne
          rw [if_neg hne, hlast] at hany
          exact absurd hany (lt_irrefl 0)
        obtain ⟨r', hread', hkind⟩ := readRecord_commit hwin hread hcommit hr1 m2
        rw [← hv] at hread'
        rw [hlast, if_pos hcommit, Nat.zero_add] at hcount
        have hnone : committedOps (l.map Found.record) = [] :=
          committedOps_none fun hm => absurd (commits_pos.mpr hm) (by omega)
        have hend : ∃ v', applyRecord true v r' = .ok (v', true) ∧ v'.ops = v.ops := by
          unfold applyRecord
          rcases hkind with hk | hk
          · rw [hk, hcount, show (-((1 : ℕ) : ℤ)) = -((0 + 1 : ℕ) : ℤ) from rfl,
              increment_neg (by omega)]
            exact ⟨_, rfl, rfl⟩
          · rw [hk]
            exact ⟨_, rfl, rfl⟩
        obtain ⟨v', happly', hops⟩ := hend
        refine ⟨v', .last (bind_ok.mpr ⟨_, hread', happly'⟩), ?_⟩
        rw [hops, List.map_cons, hcommit]
        show v.ops = v.ops ++ committedOps (l.map Found.record)
        rw [hnone, List.append_nil]
      · -- a record in front of the last commit record
        have hfollows := commits_pos.mp hmore
        have hread' := hrep.again (hcompared [] r l rfl hfollows) m1 m2 hr1 hr2
        rw [← hv] at hread'
        obtain ⟨v1, happly', hs, hcount1, hops⟩ := hstep.second m1 m2 hcount hmore hmax
        obtain ⟨v', hends, hops'⟩ := ih hwin1 hpos1 hcompared.tail hs hm1 hm2 hcount1 hmore
          (by omega)
        refine ⟨v', .step (bind_ok.mpr ⟨_, hread', happly'⟩) hends, ?_⟩
        rw [hops', hops, List.map_cons, committedOps_cons _ hfollows, List.append_assoc]

/-! ### Passes end -/

variable {iOff : ℕ} {cksum : Cksum}

end Lsm.Log

end MoVeBench
