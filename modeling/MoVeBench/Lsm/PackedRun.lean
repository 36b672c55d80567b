/-
MoVeBench/Lsm/PackedRun.lean

Segments of a compressed database as they are written.

Whatever pages and padding are appended, on whatever blocks the allocator hands out, both walks over
the segment meet the records that were appended, and each reads as it was written (`run_agrees`).
This is so as long as each record ends before the block behind the one on which it begins does, and
as blocks are larger than the two meta pages.  The code tests neither.  A page of 64 KB that
compresses badly is larger than a block of 64 KB, and with blocks of 128 KB the first page of block
1 is that of block 2 (`not_run_agrees`).
-/
import MoVeBench.Lsm.PackedAppend
import MoVeBench.Lsm.PackedWalk

namespace MoVeBench

namespace Lsm.Packed

open Bytes Extents

variable {pFS : FileSystem} {alloc : ℕ → ℤ} {k : ℕ} {w : Worker} {pre : List (ℤ × ℕ)} {l : ℤ × ℕ}
  {bytes data aSz : List UInt8} {iApp : ℤ}

/-! ### Several calls -/

theorem appendAt_nAlloc_le : w.nAlloc ≤ (appendAt pFS alloc w iApp data).1.nAlloc := by
  simp only [appendAt]
  split_ifs <;> simp

theorem appendPoint_nAlloc_le : w.nAlloc ≤ (appendPoint pFS alloc w).1.nAlloc := by
  simp only [appendPoint]
  split_ifs <;> simp

theorem fsAppendData_nAlloc_le : w.nAlloc ≤ (fsAppendData pFS alloc w data).1.nAlloc :=
  appendPoint_nAlloc_le.trans appendAt_nAlloc_le

/-- Writing depends on the file, the allocator and the begin of the segment. -/
theorem Writing.of_eq {w' : Worker} (hw : Writing pFS alloc k w pre l bytes)
    (hdisk : w'.disk = w.disk) (hnAlloc : w'.nAlloc = w.nAlloc)
    (hfirst : w'.seg.iFirst = w.seg.iFirst) (hredirect : w'.seg.pRedirect = w.seg.pRedirect) :
    Writing pFS alloc k w' pre l bytes := by
  refine ⟨?_, ?_, ?_, ?_, ?_, hw.behind, hw.room, ?_⟩
  · rw [hdisk]
    exact hw.chain
  · rw [hfirst]
    exact hw.start
  · rw [hnAlloc]
    exact hw.handed
  · rw [hnAlloc]
    exact hw.fresh
  · rw [hdisk]
    exact hw.stores
  · rw [hredirect]
    exact hw.redirect

variable (h : Seg.RoomyBlocks pFS.toFileSystem)

include h in
/-- A segment with bytes is gone on with behind its last byte. -/
theorem appendPoint_eq (hw : Writing pFS alloc k w pre l bytes)
    (hat : AppendsAt pre l bytes (w.seg.iLastPg + 1)) :
    appendPoint pFS alloc w = (w, w.seg.iLastPg + 1) := by
  have hlarge : ∀ e ∈ pre ++ [l], 4 ≤ e.1 := by
    intro e he
    have hgood := hw.chain.good e he
    have := block_bounds h hgood.block.1
    have := hgood.first
    omega
  have hne : w.seg.iLastPg + 1 ≠ 1 := by
    rcases hat with heq | ⟨-, pre', c, rfl, heq⟩
    · have := hlarge l (by simp)
      rw [nextOff] at heq
      omega
    · have := hlarge c (by simp)
      omega
  rw [appendPoint, if_neg hne]

variable (pFS alloc k) in
/-- The bytes of a record have been appended from `w` on. -/
structure Extended (w : Worker) (pre : List (ℤ × ℕ)) (l : ℤ × ℕ) (bytes data : List UInt8)
    (w' : Worker) (pre' : List (ℤ × ℕ)) (l' : ℤ × ℕ) : Prop where
  writing : Writing pFS alloc k w' pre' l' (bytes ++ data)
  grows : Grows pFS alloc w w' (pre ++ [l]) (pre' ++ [l'])
  appendsAt : AppendsAt pre' l' (bytes ++ data) (w'.seg.iLastPg + 1)
  last : w'.seg.iLastPg = addr (pre' ++ [l']) ((bytes ++ data).length - 1)

variable (data) in
include h in
/-- A record in one piece. -/
theorem fsAppendData_spec (hw : Writing pFS alloc k (appendPoint pFS alloc w).1 pre l bytes)
    (hat : AppendsAt pre l bytes (appendPoint pFS alloc w).2) (hne : data ≠ [])
    (hshort : data.length < 8) (hz : bytes.length + data.length <
      total pre + l.2 + (whole pFS (alloc (appendPoint pFS alloc w).1.nAlloc)).2)
    (hk : (fsAppendData pFS alloc w data).1.nAlloc ≤ k) :
    (fsAppendData pFS alloc w data).2 = addr (pre ++ [l]) bytes.length ∧
      ∃ pre' l', Extended pFS alloc k (appendPoint pFS alloc w).1 pre l bytes data
        (fsAppendData pFS alloc w data).1 pre' l' := by
  obtain ⟨hoff, pre', l', happ⟩ := appendAt_spec h data hw hat (z := data.length)
    (Or.inr ⟨Or.inr hshort, hz⟩) (Or.inr ⟨rfl, hshort⟩) hk
  exact ⟨hoff, pre', l', happ.writing, happ.grows, happ.appendsAt, happ.last hne⟩

variable (data) in
include h in
/-- A record in three pieces. -/
theorem appendSized_spec (hw : Writing pFS alloc k (appendPoint pFS alloc w).1 pre l bytes)
    (hat : AppendsAt pre l bytes (appendPoint pFS alloc w).2) (hsz : aSz.length = 3)
    (hz : bytes.length + (aSz ++ data ++ aSz).length <
      total pre + l.2 + (whole pFS (alloc (appendPoint pFS alloc w).1.nAlloc)).2)
    (hk : (appendSized pFS alloc w aSz data).1.nAlloc ≤ k) :
    (appendSized pFS alloc w aSz data).2 = addr (pre ++ [l]) bytes.length ∧
      ∃ pre' l', Extended pFS alloc k (appendPoint pFS alloc w).1 pre l bytes
        (aSz ++ data ++ aSz) (appendSized pFS alloc w aSz data).1 pre' l' := by
  have hlen : (aSz ++ data ++ aSz).length = data.length + 6 := by
    simp only [List.length_append, hsz]
    omega
  simp only [appendSized] at hk ⊢
  have hk2 := fsAppendData_nAlloc_le.trans hk
  have hk1 := fsAppendData_nAlloc_le.trans hk2
  -- The first piece follows a pointer if the last block is empty; then two blocks are left.
  obtain ⟨hoff, pre1, l1, h1⟩ := appendAt_spec h aSz hw hat (z := data.length + 6)
    (Or.inr ⟨Or.inr (by omega), by omega⟩) (Or.inl (by omega)) hk1
  refine ⟨hoff, ?_⟩
  generalize hw1 : (fsAppendData pFS alloc w aSz).1 = w1 at *
  rw [show (appendAt pFS alloc (appendPoint pFS alloc w).1 (appendPoint pFS alloc w).2 aSz).1 = w1
    from hw1] at h1
  have hpoint1 := appendPoint_eq h h1.writing h1.appendsAt
  simp only [fsAppendData, hpoint1] at hk hk2 ⊢
  obtain ⟨-, pre2, l2, h2⟩ := appendAt_spec h data h1.writing h1.appendsAt
    (z := data.length + 3) (by
      rcases h1.fits with hfit | ⟨heq, hfit⟩
      · exact Or.inl (by omega)
      · exact Or.inr ⟨Or.inl heq, by omega⟩) (Or.inl (by omega)) hk2
  generalize (appendAt pFS alloc w1 (w1.seg.iLastPg + 1) data).1 = w2 at *
  have hpoint2 := appendPoint_eq h h2.writing h2.appendsAt
  simp only [hpoint2] at hk ⊢
  obtain ⟨-, pre3, l3, h3⟩ := appendAt_spec h aSz h2.writing h2.appendsAt
    (z := 3) (by
      rcases h2.fits with hfit | ⟨heq, hfit⟩
      · exact Or.inl (by omega)
      · exact Or.inr ⟨Or.inl heq, by omega⟩) (Or.inr ⟨hsz, by norm_num⟩) hk
  have hassoc : bytes ++ (aSz ++ data ++ aSz) = bytes ++ aSz ++ data ++ aSz := by
    simp only [List.append_assoc]
  refine ⟨pre3, l3, ?_, (h1.grows.trans h2.grows).trans h3.grows, ?_, ?_⟩ <;> rw [hassoc]
  · exact h3.writing
  · exact h3.appendsAt
  · exact h3.last (by rintro rfl; simp at hsz)

/-! ### Conditions on a run -/

variable (pFS alloc) in
/-- The offset at which the next record begins. -/
def recordStart (w : Worker) : ℤ :=
  let (w, iApp) := appendPoint pFS alloc w
  if iApp - 1 = fsLastPageOnBlock pFS (fsPageToBlock pFS iApp) then
    fsFirstPageOnBlock pFS (fsBlockNext pFS w.disk [] (fsPageToBlock pFS iApp))
  else iApp

variable (pFS alloc) in
/-- The number of bytes from there up to the end of the block behind, which is the one that is
handed out next. -/
def reach (w : Worker) : ℤ :=
  let iStart := recordStart pFS alloc w
  let iBlk := alloc (appendPoint pFS alloc w).1.nAlloc
  (fsLastPageOnBlock pFS (fsPageToBlock pFS iStart) - iStart + 1) +
    (fsLastPageOnBlock pFS iBlk - fsFirstPageOnBlock pFS iBlk + 1)

variable (pFS alloc) in
/-- The record has a size of 21 bits and ends before the block behind the one on which it begins
does.  Padding follows a page. -/
def StepOk (w : Worker) : Op → Prop
  | .page aOBuffer => aOBuffer.length < 2 ^ 21 ∧ aOBuffer.length + 6 < reach pFS alloc w
  | .padding => w.seg.iLastPg ≠ 0 ∧ padding pFS w.seg < 2 ^ 21 ∧
      padding pFS w.seg < reach pFS alloc w

variable (pFS alloc) in
def RunOk : Worker → List Op → Prop
  | _, [] => True
  | w, op :: ops => StepOk pFS alloc w op ∧ RunOk (step pFS alloc w op).1 ops

variable (pFS alloc) in
/-- A worker that has a new segment and gets `k` blocks of the allocator by the end of the run: they
are distinct, and none is the block of the append point at which the segment begins. -/
structure Start (w : Worker) (k : ℕ) : Prop where
  empty : w.seg.iLastPg = 0
  redirect : w.seg.pRedirect = []
  handed : Handed alloc w.nAlloc k
  point : (findAppendPoint w.aiAppend).1 ≠ 0 →
    let iApp := (findAppendPoint w.aiAppend).1
    let iBlk := fsPageToBlock pFS iApp
    (1 ≤ iBlk ∧ iBlk < 2 ^ 31) ∧
      (fsFirstPageOnBlock pFS iBlk ≤ iApp ∧ iApp ≤ fsLastPageOnBlock pFS iBlk) ∧
      ∀ i, w.nAlloc ≤ i → i < k → iBlk ≠ alloc i

/-! ### The segment after each step -/

variable (pFS alloc k) in
/-- The segment that has been written consists of the records. -/
structure Recorded (w : Worker) (pre : List (ℤ × ℕ)) (l : ℤ × ℕ) (recs : List (ℤ × Rec)) :
    Prop where
  writing : Writing pFS alloc k w pre l (flat recs)
  appendsAt : AppendsAt pre l (flat recs) (w.seg.iLastPg + 1)
  laid : Laid pFS w.disk w.seg (pre ++ [l]) recs

include h in
theorem reach_eq (hw : Writing pFS alloc k (appendPoint pFS alloc w).1 pre l bytes)
    (hat : AppendsAt pre l bytes (appendPoint pFS alloc w).2) :
    bytes.length + reach pFS alloc w =
      total pre + l.2 + (whole pFS (alloc (appendPoint pFS alloc w).1.nAlloc)).2 := by
  have hl := hw.chain.good l (by simp)
  have hlast := hl.last
  have hfirst := hl.first
  have hbehind := hw.behind
  have hroom := hw.room
  have hlong := block_long h (alloc (appendPoint pFS alloc w).1.nAlloc)
  have hstart : recordStart pFS alloc w = nextOff pre l bytes := by
    rcases hat with heq | ⟨hempty, pre', c, rfl, heq⟩
    · have hnext : nextOff pre l bytes = l.1 + (bytes.length - total pre : ℕ) := rfl
      simp only [recordStart, heq]
      rw [hl.block_eq h (by omega) (by omega), if_neg (by omega)]
    · have hc := hw.chain.good c (by simp)
      have hlastc := hc.last
      have hlink : LinkTo pFS (appendPoint pFS alloc w).1.disk c l := by
        have hchain := hw.chain
        rw [List.append_assoc, List.singleton_append] at hchain
        exact hchain.link
      simp only [recordStart, heq]
      rw [hc.block_eq h (by omega) le_rfl, if_pos (by omega), hlink.next, ← hlink.whole, nextOff,
        hempty, Nat.sub_self, Nat.cast_zero, add_zero]
  have hnext : nextOff pre l bytes = l.1 + (bytes.length - total pre : ℕ) := rfl
  simp only [reach, hstart]
  rw [hl.block_eq h (by omega) (by omega)]
  simp only [whole]
  omega

/-- A record that has been appended lies on at most two blocks. -/
theorem near_of_grows {w' : Worker} {es' : List (ℤ × ℕ)} {a z : ℕ}
    (hg : Grows pFS alloc w w' (pre ++ [l]) es') (hlo : total pre ≤ a) (hhi : a < total pre + l.2)
    (hz : a + z < total pre + l.2 + (whole pFS (alloc w.nAlloc)).2) (hes : a + z < total es') :
    Near es' a (z + 1) := by
  rcases hg with ⟨-, rfl⟩ | ⟨-, fs, rfl⟩
  · refine ⟨pre, l, [], rfl, hlo, hhi, ?_⟩
    simp only [total_append, total_cons, total_nil] at hes
    simp only [List.take_nil, total_nil]
    omega
  · refine ⟨pre, l, whole pFS (alloc w.nAlloc) :: fs, by simp, hlo, hhi, ?_⟩
    simp only [List.take_succ_cons, List.take_zero, total_cons, total_nil]
    omega

theorem Extended.sized {w' : Worker} {pre' : List (ℤ × ℕ)} {l' : ℤ × ℕ} {n : ℤ}
    (he : Extended pFS alloc k w pre l bytes data w' pre' l') :
    Extended pFS alloc k w pre l bytes data { w' with seg.nSize := n } pre' l' :=
  ⟨he.writing.of_eq rfl rfl rfl rfl, he.grows, he.appendsAt, he.last⟩

/-- The record `x` behind those in `recs`. -/
theorem Extended.recorded {w' : Worker} {pre' : List (ℤ × ℕ)} {l' : ℤ × ℕ}
    {recs : List (ℤ × Rec)} {x : ℤ × Rec}
    (hw : Writing pFS alloc k w pre l (flat recs))
    (he : Extended pFS alloc k w pre l (flat recs) x.2.bytes w' pre' l')
    (hlaid : ∀ rs y post, recs = rs ++ y :: post → LaidAt (pre ++ [l]) rs y)
    (hoff : x.1 = addr (pre ++ [l]) (flat recs).length) (hok : x.2.Ok)
    (hz : (flat recs).length + x.2.size < total pre + l.2 + (whole pFS (alloc w.nAlloc)).2)
    (hhead : ∃ iPg aData post, recs ++ [x] = (iPg, Rec.page aData) :: post) :
    Recorded pFS alloc k w' pre' l' (recs ++ [x]) := by
  have hflat : flat (recs ++ [x]) = flat recs ++ x.2.bytes := by simp
  have hroom := he.writing.room
  rw [List.length_append, Rec.bytes_length] at hroom
  have htotal : total (pre' ++ [l']) = total pre' + l'.2 := by simp
  have hnear : Near (pre' ++ [l']) (flat recs).length (x.2.size + 1) :=
    near_of_grows he.grows hw.behind hw.room hz (by omega)
  obtain ⟨fs, hfs⟩ := he.grows.prefix
  refine ⟨by rw [hflat]; exact he.writing, by rw [hflat]; exact he.appendsAt, ?_⟩
  refine ⟨he.writing.chain, by rw [hflat]; exact he.writing.stores, he.writing.redirect,
    he.writing.start, by rw [hflat]; exact he.last, ?_, hhead⟩
  intro rs y post hsplit
  rcases List.eq_nil_or_concat post with rfl | ⟨post', z, rfl⟩
  · obtain ⟨rfl, hxy⟩ := List.append_inj' hsplit rfl
    rw [List.singleton_inj] at hxy
    subst hxy
    refine ⟨?_, hok, hnear⟩
    rw [hoff, hfs]
    exact (addr_append_left (by have := hw.room; simp; omega)).symm
  · rw [List.concat_eq_append, ← List.cons_append, ← List.append_assoc] at hsplit
    obtain ⟨hrecs, -⟩ := List.append_inj' hsplit rfl
    rw [hfs]
    exact (hlaid rs y post' hrecs).append

include h in
/-- A step goes on with a segment of the records `recs`, of which there may be none. -/
theorem step_recorded {recs : List (ℤ × Rec)} {op : Op}
    (hw : Writing pFS alloc k (appendPoint pFS alloc w).1 pre l (flat recs))
    (hat : AppendsAt pre l (flat recs) (appendPoint pFS alloc w).2)
    (hlaid : ∀ rs y post, recs = rs ++ y :: post → LaidAt (pre ++ [l]) rs y)
    (hhead : recs = [] ∧ w.seg.iLastPg = 0 ∨
      ∃ iPg aData post, recs = (iPg, Rec.page aData) :: post)
    (hok : StepOk pFS alloc w op) (hk : (step pFS alloc w op).1.nAlloc ≤ k) :
    (∃ pre' l', Recorded pFS alloc k (step pFS alloc w op).1 pre' l'
      (recs ++ (step pFS alloc w op).2)) ∨ step pFS alloc w op = (w, []) := by
  have hreach := reach_eq h hw hat
  cases op with
  | page aOBuffer =>
      left
      obtain ⟨hlen, hz⟩ := hok
      have hsize : (Rec.page aOBuffer).bytes.length = aOBuffer.length + 6 := Rec.bytes_length _
      obtain ⟨hoff, pre', l', hext⟩ := appendSized_spec aOBuffer h hw hat
        (putRecordSize_length aOBuffer.length false)
        (by rw [Rec.bytes] at hsize; omega) hk
      have hsum : (flat recs).length + (Rec.page aOBuffer).size < total pre + l.2 +
          (whole pFS (alloc (appendPoint pFS alloc w).1.nAlloc)).2 := by
        rw [← Rec.bytes_length]
        omega
      refine ⟨pre', l', (hext.sized (n := (appendSized pFS alloc w
        (putRecordSize aOBuffer.length false) aOBuffer).1.seg.nSize + 3 * 2 +
          aOBuffer.length)).recorded hw (x := (_, .page aOBuffer)) hlaid hoff hlen hsum ?_⟩
      · rcases hhead with ⟨rfl, -⟩ | ⟨iPg, aData, post, rfl⟩
        · exact ⟨_, _, _, rfl⟩
        · exact ⟨iPg, aData, post ++ _, rfl⟩
  | padding =>
      obtain ⟨hne, hlen, hz⟩ := hok
      obtain ⟨iPg, aData, post, hhead⟩ := hhead.resolve_left fun hnone => hne hnone.2
      have hpoint : ∀ n, appendPoint pFS alloc { w with seg.nSize := n } =
          ({ w with seg.nSize := n }, w.seg.iLastPg + 1) := by
        intro n
        rw [appendPoint, if_neg (by simpa using hne)]
      have hpoint' : appendPoint pFS alloc w = (w, w.seg.iLastPg + 1) := hpoint w.seg.nSize
      rw [hpoint'] at hw hat hreach
      simp only [step, lsmFsSortedPadding] at hk ⊢
      by_cases h6 : 6 ≤ padding pFS w.seg
      · left
        obtain ⟨n, hn⟩ : ∃ n : ℕ, padding pFS w.seg = (n + 6 : ℕ) :=
          ⟨(padding pFS w.seg - 6).toNat, by omega⟩
        have hsub : (((n + 6 : ℕ) : ℤ) - 6).toNat = n := by omega
        simp only [if_pos h6] at hk ⊢
        simp only [hn, hsub, Int.toNat_natCast] at hk ⊢
        have hbytes : (Rec.space (n + 6)).bytes =
            putRecordSize n true ++ List.replicate n 0 ++ putRecordSize n true := by
          rw [Rec.bytes, if_pos (by omega), Nat.add_sub_cancel]
        have hsize : (Rec.space (n + 6)).bytes.length = n + 6 := Rec.bytes_length _
        have hw' : Writing pFS alloc k { w with seg.nSize := w.seg.nSize + (n + 6 : ℕ) } pre l
            (flat recs) := hw.of_eq rfl rfl rfl rfl
        obtain ⟨hoff, pre', l', hext⟩ := appendSized_spec (List.replicate n 0) h
          (w := { w with seg.nSize := w.seg.nSize + (n + 6 : ℕ) }) (by rw [hpoint]; exact hw')
          (by rw [hpoint]; exact hat) (putRecordSize_length n true)
          (by rw [hpoint, ← hbytes]; simp only at hreach ⊢; omega) hk
        rw [hpoint, ← hbytes] at hext
        refine ⟨pre', l', hext.recorded hw' (x := (_, .space (n + 6))) hlaid hoff
          ⟨by omega, by omega⟩ ?_ ?_⟩
        · rw [← Rec.bytes_length]
          simp only at hreach ⊢
          omega
        · exact ⟨iPg, aData, post ++ _, by rw [hhead]; rfl⟩
      · by_cases h0 : 0 < padding pFS w.seg
        · left
          obtain ⟨n, hn⟩ : ∃ n : ℕ, padding pFS w.seg = n :=
            ⟨(padding pFS w.seg).toNat, by omega⟩
          simp only [if_neg h6, if_pos h0] at hk ⊢
          simp only [hn, Int.toNat_natCast] at hk ⊢
          have hbytes : (Rec.space n).bytes = shortPadding n := if_neg (by omega)
          have hsize := shortPadding_length n
          obtain ⟨hoff, pre', l', hext⟩ := fsAppendData_spec (shortPadding n) h
            (by rw [hpoint']; exact hw) (by rw [hpoint']; exact hat)
            (by intro hnil; rw [hnil] at hsize; simp at hsize; omega) (by omega)
            (by rw [hpoint']; simp only at hreach ⊢; omega) hk
          rw [hpoint'] at hext
          refine ⟨pre', l', Extended.recorded hw (x := (_, .space n)) (by rw [hbytes]; exact hext)
            hlaid hoff ⟨by omega, by omega⟩ ?_ ?_⟩
          · rw [← Rec.bytes_length, hbytes]
            simp only at hreach ⊢
            omega
          · exact ⟨iPg, aData, post ++ _, by rw [hhead]; rfl⟩
        · right
          simp only [if_neg h6, if_neg h0]
          rfl

/-! ### Runs -/

include h in
/-- A new segment. -/
theorem Start.writing (hs : Start pFS alloc w k)
    (hk : (appendPoint pFS alloc w).1.nAlloc ≤ k) :
    ∃ l, Writing pFS alloc k (appendPoint pFS alloc w).1 [] l [] ∧
      AppendsAt [] l [] (appendPoint pFS alloc w).2 := by
  have hlone : ∀ (disk : ℤ → UInt8) {l : ℤ × ℕ}, Good pFS l → Chain pFS disk ([] ++ [l]) := by
    intro disk l hl
    refine ⟨?_, by simp, List.isChain_singleton _⟩
    intro e he
    rw [List.nil_append, List.mem_singleton] at he
    rw [he]
    exact hl
  have hpoint := hs.point
  by_cases h0 : (findAppendPoint w.aiAppend).1 = 0
  · have heq : appendPoint pFS alloc w = ({ w with
        seg.iFirst := fsFirstPageOnBlock pFS (alloc w.nAlloc)
        aiAppend := (findAppendPoint w.aiAppend).2, nAlloc := w.nAlloc + 1 },
        fsFirstPageOnBlock pFS (alloc w.nAlloc)) := by
      simp only [appendPoint, hs.empty, zero_add, if_true, h0]
    rw [heq] at hk ⊢
    simp only at hk
    obtain ⟨hb, hb'⟩ := hs.handed.block w.nAlloc le_rfl (by omega)
    have hlarge := whole_large h hb
    refine ⟨whole pFS (alloc w.nAlloc), ⟨hlone _ (good_whole h hb hb'), ?_, ?_, ?_, ?_, le_rfl, ?_,
      hs.redirect⟩, Or.inl ?_⟩
    · simp only [List.nil_append, addr]
      rw [if_pos (by omega)]
      simp [whole]
    · exact ⟨fun i hi => hs.handed.block i (by simp only at hi; omega),
        fun i j hi => hs.handed.distinct i j (by simp only at hi; omega)⟩
    · intro e he i hi hik
      simp only at hi
      rw [List.nil_append, List.mem_singleton] at he
      rw [he, blk_whole h hb]
      exact hs.handed.distinct _ _ le_rfl (by omega) hik
    · exact fun p hp => absurd hp (Nat.not_lt_zero p)
    · rw [total_nil, List.length_nil]
      omega
    · simp [nextOff, whole]
  · obtain ⟨hb, hrange, hfresh⟩ := hpoint h0
    have heq : appendPoint pFS alloc w = ({ w with
        seg.iFirst := (findAppendPoint w.aiAppend).1
        aiAppend := (findAppendPoint w.aiAppend).2 }, (findAppendPoint w.aiAppend).1) := by
      simp only [appendPoint, hs.empty, zero_add, if_true, if_neg h0]
    rw [heq]
    generalize (findAppendPoint w.aiAppend).1 = iApp at *
    obtain ⟨n, hn⟩ : ∃ n : ℕ, iApp + n = fsLastPageOnBlock pFS (fsPageToBlock pFS iApp) + 1 :=
      ⟨(fsLastPageOnBlock pFS (fsPageToBlock pFS iApp) + 1 - iApp).toNat, by omega⟩
    refine ⟨(iApp, n), ⟨hlone _ ⟨hb, hrange.1, by simp only; omega, hn⟩, ?_, hs.handed, ?_, ?_,
      le_rfl, ?_, hs.redirect⟩, Or.inl ?_⟩
    · simp only [List.nil_append, addr]
      rw [if_pos (by omega)]
      simp
    · intro e he i hi hik
      rw [List.nil_append, List.mem_singleton] at he
      rw [he]
      exact hfresh i hi hik
    · exact fun p hp => absurd hp (Nat.not_lt_zero p)
    · rw [total_nil, List.length_nil]
      omega
    · simp [nextOff]

theorem step_nAlloc_le {op : Op} : w.nAlloc ≤ (step pFS alloc w op).1.nAlloc := by
  have hsized : ∀ (w : Worker) (aSz aData : List UInt8),
      w.nAlloc ≤ (appendSized pFS alloc w aSz aData).1.nAlloc := fun w aSz aData =>
    (fsAppendData_nAlloc_le.trans fsAppendData_nAlloc_le).trans fsAppendData_nAlloc_le
  cases op with
  | page aOBuffer => exact hsized w _ _
  | padding =>
      simp only [step, lsmFsSortedPadding]
      split_ifs
      · exact hsized { w with seg.nSize := w.seg.nSize + padding pFS w.seg } _ _
      · exact fsAppendData_nAlloc_le
      · exact le_rfl

theorem run_nAlloc_le {ops : List Op} : w.nAlloc ≤ (run pFS alloc w ops).1.nAlloc := by
  induction ops generalizing w with
  | nil => exact le_rfl
  | cons op ops ih => exact step_nAlloc_le.trans ih

include h in
theorem run_recorded (ops : List Op) : ∀ {w : Worker} {pre : List (ℤ × ℕ)} {l : ℤ × ℕ}
    {recs : List (ℤ × Rec)}, Recorded pFS alloc k w pre l recs → RunOk pFS alloc w ops →
      (run pFS alloc w ops).1.nAlloc ≤ k →
        ∃ pre' l', Recorded pFS alloc k (run pFS alloc w ops).1 pre' l'
          (recs ++ (run pFS alloc w ops).2) := by
  induction ops with
  | nil =>
      intro w pre l recs hr _ _
      exact ⟨pre, l, by simpa [run] using hr⟩
  | cons op ops ih =>
      intro w pre l recs hr hok hk
      have hpoint := appendPoint_eq h hr.writing hr.appendsAt
      rcases step_recorded h (by rw [hpoint]; exact hr.writing) (by rw [hpoint]; exact hr.appendsAt)
        hr.laid.laid (Or.inr hr.laid.head) hok.1 (run_nAlloc_le.trans hk) with ⟨pre', l', hr'⟩ | heq
      · obtain ⟨pre'', l'', hr''⟩ := ih hr' hok.2 hk
        exact ⟨pre'', l'', by simpa [run] using hr''⟩
      · have hok' := hok.2
        simp only [run, heq] at hok' hk ⊢
        exact ih hr hok' hk

/-! ### What the claim is about -/

variable (pFS) in
/-- The walks meet the records at their offsets, each reads as it was appended, and
`fsSubtractOffset` undoes `fsAddOffset` between bytes on one block or on consecutive ones. -/
structure Agrees (w : Worker) (recs : List (ℤ × Rec)) : Prop where
  forward : ∀ n, recs.length ≤ n →
    stepsForward pFS w.disk w.seg n w.seg.iFirst = recs.map Prod.fst
  backward : ∀ n, recs.length ≤ n →
    stepsBackward pFS w.disk w.seg n (w.seg.iLastPg + 1) = (recs.map Prod.fst).reverse
  found : ∀ x ∈ recs, fsReadPagedata pFS w.disk w.seg.pRedirect x.1 = x.2
  undo : ∀ p n, p + n < (recs.map fun x => x.2.size).sum →
    fsPageToBlock pFS (byteAt pFS w.disk w.seg (p + n)) =
        fsPageToBlock pFS (byteAt pFS w.disk w.seg p) ∨
      fsPageToBlock pFS (byteAt pFS w.disk w.seg (p + n)) =
        fsBlockNext pFS w.disk w.seg.pRedirect
          (fsPageToBlock pFS (byteAt pFS w.disk w.seg p)) →
    fsAddOffset pFS w.disk w.seg.pRedirect (byteAt pFS w.disk w.seg p) n =
        byteAt pFS w.disk w.seg (p + n) ∧
      fsSubtractOffset pFS w.disk w.seg.pRedirect (byteAt pFS w.disk w.seg (p + n)) n =
        byteAt pFS w.disk w.seg p

theorem flat_length (recs : List (ℤ × Rec)) :
    (flat recs).length = (recs.map fun x => x.2.size).sum := by
  induction recs with
  | nil => rfl
  | cons x recs ih => rw [flat_cons, List.length_append, Rec.bytes_length, ih]; simp

include h in
theorem Laid.agrees {es : List (ℤ × ℕ)} {recs : List (ℤ × Rec)}
    (hl : Laid pFS w.disk w.seg es recs) : Agrees pFS w recs := by
  have hne : recs ≠ [] := by
    obtain ⟨iPg, aData, post, rfl⟩ := hl.head
    exact List.cons_ne_nil _ _
  refine ⟨fun n hn => ?_, fun n hn => ?_, fun x hx => ?_, fun p n hlen hnear => ?_⟩
  · have hwalk := hl.forward h recs [] rfl hne n hn
    rwa [flat_nil, List.length_nil, hl.start] at hwalk
  · refine hl.backward h recs [] (List.append_nil recs).symm hne _ n (Or.inr ⟨?_, ?_⟩) hn
    · obtain ⟨iPg, aData, post, rfl⟩ := hl.head
      rw [flat_cons, List.length_append, Rec.bytes_length, Rec.size]
      omega
    · rw [hl.last]
  · obtain ⟨rs, post, hsplit⟩ := List.append_of_mem hx
    exact hl.found h hsplit
  · exact hl.undo h (by rw [flat_length]; exact hlen) hnear

/-- Every run of appended pages and padding, on any blocks. -/
theorem run_agrees (hroomy : Seg.RoomyBlocks pFS.toFileSystem) {ops : List Op} (hne : ops ≠ [])
    (hs : Start pFS alloc w k) (hok : RunOk pFS alloc w ops)
    (hk : (run pFS alloc w ops).1.nAlloc ≤ k) :
    Agrees pFS (run pFS alloc w ops).1 (run pFS alloc w ops).2 := by
  obtain ⟨op, ops, rfl⟩ := List.exists_cons_of_ne_nil hne
  have hk' : (step pFS alloc w op).1.nAlloc ≤ k := run_nAlloc_le.trans hk
  have hpage : ∃ aOBuffer, op = .page aOBuffer := by
    cases op with
    | page aOBuffer => exact ⟨aOBuffer, rfl⟩
    | padding => exact absurd hs.empty hok.1.1
  obtain ⟨aOBuffer, rfl⟩ := hpage
  have hkpoint : (appendPoint pFS alloc w).1.nAlloc ≤ k := by
    refine le_trans (b := (fsAppendData pFS alloc w (putRecordSize aOBuffer.length false)).1.nAlloc)
      appendAt_nAlloc_le ?_
    exact (fsAppendData_nAlloc_le.trans fsAppendData_nAlloc_le).trans hk'
  obtain ⟨l, hw, hat⟩ := hs.writing hroomy hkpoint
  have hlaid : ∀ rs y post, ([] : List (ℤ × Rec)) = rs ++ y :: post → LaidAt ([] ++ [l]) rs y := by
    simp
  have hfirst := step_recorded hroomy hw hat hlaid (Or.inl ⟨rfl, hs.empty⟩) hok.1 hk'
  rcases hfirst with ⟨pre', l', hr⟩ | heq
  · obtain ⟨pre'', l'', hr'⟩ := run_recorded hroomy ops hr hok.2 hk
    exact hr'.laid.agrees hroomy
  · simp [step] at heq

/-- A new segment of a database without append points. -/
def newSegment : Worker := ⟨fun _ => 0, ⟨0, 0, 0, []⟩, [0, 0, 0, 0], 0⟩

theorem start_newSegment (pFS : FileSystem) (k : ℕ) (hk : k < 2 ^ 31) :
    Start pFS (fun n => n + 1) newSegment k := by
  refine ⟨rfl, rfl, ⟨fun i _ hi => ?_, fun i j _ hij _ => ?_⟩, fun hne => absurd rfl hne⟩
  · omega
  · omega

def blocks1024 : FileSystem where
  nPagesize := 4096
  nBlocksize := 1048576
  szSector := 512
  pagesize_ok := by decide
  blocksize_ok := ⟨1024, by decide⟩

theorem run_agrees_newSegment : Agrees blocks1024
    (run blocks1024 (fun n => n + 1) newSegment [.page [1, 2, 3], .padding]).1
    (run blocks1024 (fun n => n + 1) newSegment [.page [1, 2, 3], .padding]).2 := by
  refine run_agrees (k := 1) (by rw [Seg.RoomyBlocks]; decide) (by simp)
    (start_newSegment _ 1 (by norm_num)) ?_ (by decide +kernel)
  exact ⟨⟨by decide +kernel, by decide +kernel⟩,
    ⟨by decide +kernel, by decide +kernel, by decide +kernel⟩, trivial⟩

/-! ### Blocks of 128 KB -/

/-- The two meta pages fill block 1. -/
def blocks128 : FileSystem where
  nPagesize := 65536
  nBlocksize := 131072
  szSector := 512
  pagesize_ok := by decide
  blocksize_ok := ⟨128, by decide⟩

/-- A call with room on the block. -/
theorem appendAt_plain {aData : List UInt8}
    (hroom : iApp + aData.length ≤ fsLastPageOnBlock pFS (fsPageToBlock pFS iApp)) :
    appendAt pFS alloc w iApp aData = ({ w with
      disk := writeAt w.disk iApp aData, seg.iLastPg := iApp + aData.length - 1 }, iApp) := by
  have hwrite : (min (aData.length : ℤ) (fsLastPageOnBlock pFS (fsPageToBlock pFS iApp) -
      iApp + 1)).toNat = aData.length := by omega
  simp only [appendAt, hwrite, List.take_length]
  rw [if_neg (by omega)]

/-- A call that goes on with a new block. -/
theorem appendAt_over {aData : List UInt8} {r : ℕ}
    (hr : iApp + r = fsLastPageOnBlock pFS (fsPageToBlock pFS iApp) + 1) (hpos : 0 < r)
    (hlt : r < aData.length) :
    (appendAt pFS alloc w iApp aData).1 = { w with
      disk := writeAt (writeAt (writeAt (writeAt w.disk iApp (aData.take r)) (iApp + r)
        (lsmPutU32 (alloc w.nAlloc))) (fsFirstPageOnBlock pFS (alloc w.nAlloc) - 4)
          (lsmPutU32 (fsPageToBlock pFS (iApp + r))))
            (fsFirstPageOnBlock pFS (alloc w.nAlloc)) (aData.drop r)
      seg.iLastPg := fsFirstPageOnBlock pFS (alloc w.nAlloc) + (aData.length - r : ℕ) - 1
      nAlloc := w.nAlloc + 1 } := by
  have hwrite : (min (aData.length : ℤ) (fsLastPageOnBlock pFS (fsPageToBlock pFS iApp) -
      iApp + 1)).toNat = r := by omega
  simp only [appendAt, hwrite]
  rw [if_pos (by omega), if_pos hpos, if_pos (by omega)]

/-- A segment on block 1 of a file with blocks of 128 KB. -/
def onBlock1 (disk : ℤ → UInt8) (iLastPg nSize : ℤ) (nAlloc : ℕ) : Worker :=
  ⟨disk, ⟨131076, iLastPg, nSize, []⟩, [0, 0, 0, 0], nAlloc⟩

theorem onBlock1_append {disk : ℤ → UInt8} {iLastPg nSize : ℤ} {nAlloc : ℕ} {aData : List UInt8}
    (h0 : iLastPg ≠ 0) {n : ℤ} (hlast : iLastPg + aData.length = n)
    (hroom : n < fsLastPageOnBlock blocks128 (fsPageToBlock blocks128 (iLastPg + 1))) :
    fsAppendData blocks128 (fun n => n + 1) (onBlock1 disk iLastPg nSize nAlloc) aData =
      (onBlock1 (writeAt disk (iLastPg + 1) aData) n nSize nAlloc, iLastPg + 1) := by
  have hpoint : appendPoint blocks128 (fun n => n + 1) (onBlock1 disk iLastPg nSize nAlloc) =
      (onBlock1 disk iLastPg nSize nAlloc, iLastPg + 1) := by
    rw [appendPoint, if_neg (by simp only [onBlock1]; omega)]
    rfl
  simp only [fsAppendData, hpoint]
  rw [appendAt_plain (by omega)]
  simp only [onBlock1]
  rw [show iLastPg + 1 + (aData.length : ℤ) - 1 = n by omega]

theorem onBlock1_size {disk : ℤ → UInt8} {iLastPg nSize n : ℤ} {nAlloc : ℕ} :
    { onBlock1 disk iLastPg nSize nAlloc with
      seg.nSize := (onBlock1 disk iLastPg nSize nAlloc).seg.nSize + 3 * 2 + n } =
        onBlock1 disk iLastPg (nSize + 3 * 2 + n) nAlloc := rfl

theorem lsmFsPagePersist_eq {w1 w2 w3 : Worker} {iPg : ℤ} {aOBuffer : List UInt8}
    (h1 : fsAppendData pFS alloc w (putRecordSize aOBuffer.length false) = (w1, iPg))
    (h2 : (fsAppendData pFS alloc w1 aOBuffer).1 = w2)
    (h3 : (fsAppendData pFS alloc w2 (putRecordSize aOBuffer.length false)).1 = w3) :
    lsmFsPagePersist pFS alloc w aOBuffer =
      ({ w3 with seg.nSize := w3.seg.nSize + 3 * 2 + aOBuffer.length }, iPg) := by
  simp only [lsmFsPagePersist, appendSized, h1, h2, h3]

/-- A segment on block 1 comes to its own begin when it is given block 2. -/
theorem not_run_agrees : ¬ ∀ (pFS : FileSystem) (alloc : ℕ → ℤ) (w : Worker) (k : ℕ)
    (ops : List Op), ops ≠ [] → Start pFS alloc w k → (run pFS alloc w ops).1.nAlloc ≤ k →
      Agrees pFS (run pFS alloc w ops).1 (run pFS alloc w ops).2 := by
  intro hall
  obtain ⟨aOBuffer, hbuf⟩ : ∃ aOBuffer : List UInt8, List.replicate 65530 0 = aOBuffer := ⟨_, rfl⟩
  have hlen : aOBuffer.length = 65530 := by rw [← hbuf, List.length_replicate]
  have hsz : (putRecordSize aOBuffer.length false).length = 3 := rfl
  -- The first page lies on block 2, though the segment was given block 1.
  obtain ⟨disk1, hpage1⟩ : ∃ disk1, lsmFsPagePersist blocks128 (fun n => n + 1) newSegment
      aOBuffer = (onBlock1 disk1 196611 65536 1, 131076) := by
    have hfirst : fsAppendData blocks128 (fun n => n + 1) newSegment
        (putRecordSize aOBuffer.length false) = (onBlock1 (writeAt (fun _ => 0) 131076
          (putRecordSize aOBuffer.length false)) 131078 0 1, 131076) := by
      have hpoint : appendPoint blocks128 (fun n => n + 1) newSegment =
          (onBlock1 (fun _ => 0) 0 0 1, 131076) := rfl
      simp only [fsAppendData, hpoint]
      rw [appendAt_plain (by rw [hsz]; decide)]
      rfl
    have hpersist := lsmFsPagePersist_eq hfirst
      (congrArg Prod.fst (onBlock1_append (by norm_num) (n := 196608) (by omega) (by decide)))
      (congrArg Prod.fst (onBlock1_append (by norm_num) (n := 196611) (by omega) (by decide)))
    rw [onBlock1_size, hlen] at hpersist
    exact ⟨_, hpersist⟩
  -- The second page comes back to the begin of the first one.
  obtain ⟨disk2, hpage2⟩ : ∃ disk2, lsmFsPagePersist blocks128 (fun n => n + 1)
      (onBlock1 disk1 196611 65536 1) aOBuffer = (onBlock1 (writeAt (writeAt disk2 131076
        (aOBuffer.drop 65525)) 131081 (putRecordSize 65530 false)) 131083 131072 2,
          196612) := by
    have hover : ∀ disk, ∃ disk2, (fsAppendData blocks128 (fun n => n + 1)
        (onBlock1 disk 196614 65536 1) aOBuffer).1 =
          onBlock1 (writeAt disk2 131076 (aOBuffer.drop 65525)) 131080 65536 2 := by
      intro disk
      have hpoint : appendPoint blocks128 (fun n => n + 1) (onBlock1 disk 196614 65536 1) =
          (onBlock1 disk 196614 65536 1, 196615) := rfl
      simp only [fsAppendData, hpoint]
      rw [appendAt_over (r := 65525) (by decide) (by norm_num) (by omega)]
      simp only [onBlock1, hlen]
      exact ⟨_, rfl⟩
    obtain ⟨disk2, h2⟩ := hover (writeAt disk1 (196611 + 1) (putRecordSize aOBuffer.length false))
    have hpersist := lsmFsPagePersist_eq
      (onBlock1_append (by norm_num) (n := 196614) (by omega) (by decide)) h2
      (congrArg Prod.fst (onBlock1_append (by norm_num) (n := 131083) (by omega) (by decide)))
    rw [onBlock1_size, hlen] at hpersist
    exact ⟨disk2, hpersist⟩
  have hrun : run blocks128 (fun n => n + 1) newSegment [.page aOBuffer, .page aOBuffer] =
      (onBlock1 (writeAt (writeAt disk2 131076 (aOBuffer.drop 65525)) 131081
        (putRecordSize 65530 false)) 131083 131072 2,
          [(131076, .page aOBuffer), (196612, .page aOBuffer)]) := by
    simp only [run, step, hpage1, hpage2]
    rfl
  have hagrees := hall blocks128 (fun n => n + 1) newSegment 2 [.page aOBuffer, .page aOBuffer]
    (by simp) (start_newSegment _ 2 (by norm_num)) (by simp only [hrun, onBlock1, le_refl])
  rw [hrun] at hagrees
  have hfound := hagrees.found (131076, .page aOBuffer) (List.mem_cons_self ..)
  simp only [onBlock1] at hfound
  have hbyte : writeAt (writeAt disk2 131076 (aOBuffer.drop 65525)) 131081
      (putRecordSize 65530 false) 131076 = 0 := by
    rw [writeAt_out (Or.inl (by norm_num))]
    have hin : writeAt disk2 131076 (aOBuffer.drop 65525) (131076 + (0 : ℕ)) = _ :=
      writeAt_in (by rw [List.length_drop, hlen]; norm_num)
    rw [Nat.cast_zero, add_zero] at hin
    rw [hin, List.getElem_drop]
    subst hbuf
    exact List.getElem_replicate _
  have hread : ∀ disk : ℤ → UInt8, disk 131076 = 0 →
      fsReadPagedata blocks128 disk [] 131076 = .space 0 := by
    intro disk h0
    have hdata : (fsReadData blocks128 disk [] 131076 3).getD 0 0 = 0 := h0
    simp only [fsReadPagedata, hdata]
    rfl
  rw [hread _ hbyte] at hfound
  exact absurd hfound (by simp)

end Lsm.Packed

end MoVeBench
