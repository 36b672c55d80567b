/-
MoVeBench/Lsm/SegmentWrap.lean

Blocks that are not larger than the meta pages.

Where a block has 64 KB or 128 KB, the first page of block 1 behind the meta pages is the first
page of block 3 or 2.  A segment that begins on block 1 and goes on to that block comes back to
its first page, and writes over it.  A single record that fills the block is enough
(`not_roundTrip`).  So segments are read back for every run exactly where blocks are larger
than the meta pages (`roundTrip_iff`).
-/
import MoVeBench.Lsm.SegmentTrip

namespace MoVeBench

namespace Lsm

namespace Seg

open Bytes

variable {pFS : FileSystem}

/-! ### The block that begins where block 1 does -/

/-- Block `i + 2` begins where block 1 does. -/
def Overlap (pFS : FileSystem) (i : ℕ) : Prop :=
  i ≤ 1 ∧ fsFirstPageOnBlock pFS 1 = fsFirstPageOnBlock pFS (i + 2)

variable (pFS) in
/-- Block 1, then the one that begins where it does, then the blocks behind. -/
def wrapSupply (i : ℕ) : Supply pFS where
  iAppend := 0
  block k := if k = 0 then 1 else k + i + 1
  append_ok h := absurd rfl h
  block_pos k := by
    split_ifs <;> omega
  block_inj k k' h := by
    dsimp only at h
    split_ifs at h <;> omega

/-! ### One turn of the loop -/

variable {sup : Supply pFS} {w : MergeWorker pFS} {cur : Leaf} {iFPtr : BitVec 64}

theorem mergeWorkerLoop_full {fuel space : ℕ} {data : List UInt8}
    (hspace : SEGMENT_EOF (nData pFS w.pPage) (pageGetNRec w.file.db w.pPage) - w.iOutputOff =
      space)
    (h : space < data.length) : mergeWorkerLoop sup iFPtr (fuel + 1) w data =
      mergeWorkerLoop sup iFPtr fuel
        (mergeWorkerNextPage sup (w.put w.iOutputOff (data.take space)) iFPtr)
        (data.drop space) := by
  have hnil : data ≠ [] := List.ne_nil_of_length_pos (by omega)
  have hdrop : data.drop space ≠ [] := by
    apply List.ne_nil_of_length_pos
    rw [List.length_drop]
    omega
  rw [mergeWorkerLoop, if_neg hnil]
  dsimp only
  rw [hspace, Nat.min_eq_right h.le, if_neg hdrop]

theorem mergeWorkerLoop_fits {fuel space : ℕ} {data : List UInt8}
    (hspace : SEGMENT_EOF (nData pFS w.pPage) (pageGetNRec w.file.db w.pPage) - w.iOutputOff =
      space)
    (hnil : data ≠ []) (h : data.length ≤ space) :
    mergeWorkerLoop sup iFPtr (fuel + 1) w data =
      { w.put w.iOutputOff data with iOutputOff := w.iOutputOff + data.length } := by
  rw [mergeWorkerLoop, if_neg hnil]
  dsimp only
  rw [hspace, Nat.min_eq_left h, List.take_length, List.drop_length, if_pos rfl]

/-! ### Around the block -/

/-- A segment on its way from the first page of block `i + 2` to the last one. -/
structure Filling (i : ℕ) (w : MergeWorker pFS) (cur : Leaf) : Prop where
  last : w.file.iLastPg = w.pPage
  first : w.file.iFirst = fsFirstPageOnBlock pFS (i + 2)
  onCur : Shows w.file.db w.pPage cur
  off : w.iOutputOff = cur.body.length
  alloc : w.file.nAlloc ≤ 2 ∧ (¬ fsIsLast pFS w.pPage → w.file.nAlloc = 1)
  /-- From the last page the segment comes back. -/
  wrap : fsIsLast pFS w.pPage →
    fsFirstPageOnBlock pFS (nextBlock w.file.db w.pPage) = fsFirstPageOnBlock pFS (i + 2) ∨
    fsFirstPageOnBlock pFS (nextBlock w.file.db w.pPage) = 0 ∧ w.file.nAlloc = 1

/-- A segment that came back: its only page seems to have no records. -/
structure Wrapped (i : ℕ) (w : MergeWorker pFS) : Prop where
  first : w.file.iFirst = fsFirstPageOnBlock pFS (i + 2)
  last : w.file.iLastPg = fsFirstPageOnBlock pFS (i + 2)
  nRec : pageGetNRec w.file.db (fsFirstPageOnBlock pFS (i + 2)) = 0
  alloc : w.file.nAlloc ≤ 3

variable {i : ℕ}

theorem fsPageToBlock_first (i : ℕ) :
    fsPageToBlock pFS (fsFirstPageOnBlock pFS (i + 2)) = i + 2 := by
  rw [fsFirstPageOnBlock_add_two, fsPageToBlock_succ,
    Nat.mul_div_cancel _ (nPagePerBlock_pos pFS)]
  omega

theorem first_pos (pFS : FileSystem) (i : ℕ) : fsFirstPageOnBlock pFS (i + 2) ≠ 0 := by
  rw [fsFirstPageOnBlock_add_two]
  exact Nat.succ_ne_zero _

theorem Filling.onPage (h : Filling i w cur) {db : Db pFS} {cur' : Leaf} {iOff : ℕ}
    (hoff : iOff = cur'.body.length) (hsame : SameLinks w.file.db db w.pPage)
    (hshows : Shows db w.pPage cur') :
    Filling i { w with file := { w.file with db }, iOutputOff := iOff } cur' := by
  refine ⟨h.last, h.first, hshows, hoff, h.alloc, fun hlast => ?_⟩
  have hwrap := h.wrap hlast
  rw [← hsame.1 hlast] at hwrap
  exact hwrap

/-- The pages of the block. -/
theorem page_on_block {p : ℕ} (hlo : fsFirstPageOnBlock pFS (i + 2) ≤ p)
    (hhi : p < (i + 2) * nPagePerBlock pFS) :
    ¬ fsIsLast pFS p ∧ ¬ fsIsFirst pFS (p + 1) := by
  rw [fsFirstPageOnBlock_add_two] at hlo
  have hmul : (i + 2) * nPagePerBlock pFS = (i + 1) * nPagePerBlock pFS + nPagePerBlock pFS := by
    ring
  have hle : nPagePerBlock pFS ≤ (i + 1) * nPagePerBlock pFS := Nat.le_mul_of_pos_left _ (by omega)
  obtain ⟨r, rfl⟩ := Nat.exists_eq_add_of_le hlo
  have hmod : ((i + 1) * nPagePerBlock pFS + 1 + r) % nPagePerBlock pFS = 1 + r := by
    rw [add_assoc, mul_comm, Nat.mul_add_mod, Nat.mod_eq_of_lt (by omega)]
  refine ⟨fun hlast => ?_, ?_⟩
  · have := hlast.2
    omega
  · rintro (hfirst | hfirst)
    · rw [add_assoc, add_assoc, mul_comm, Nat.mul_add_mod] at hfirst
      rcases Nat.lt_or_ge (1 + (r + 1)) (nPagePerBlock pFS) with hlt | hge
      · rw [Nat.mod_eq_of_lt hlt] at hfirst
        omega
      · rw [show 1 + (r + 1) = nPagePerBlock pFS by omega, Nat.mod_self] at hfirst
        omega
    · omega

/-- **The next page of the block.** -/
theorem Filling.step (hi : i ≤ 1) (hsup : sup.block 1 = i + 2) (h : Filling i w cur)
    (hlo : fsFirstPageOnBlock pFS (i + 2) ≤ w.pPage)
    (hhi : w.pPage < (i + 2) * nPagePerBlock pFS) (iFPtr : BitVec 64) :
    (mergeWorkerNextPage sup w iFPtr).pPage = w.pPage + 1 ∧
      Filling i (mergeWorkerNextPage sup w iFPtr) ⟨iFPtr, [], []⟩ := by
  obtain ⟨hnot, hnf⟩ := page_on_block hlo hhi
  have hpos := first_pos pFS i
  have halloc := h.alloc.2 hnot
  have hpage : appendPage sup w.file = w.pPage + 1 := by
    rw [appendPage, h.last, if_neg (by omega), if_neg hnot]
  have hblock : (appendBlock sup w.file).1 = w.pPage + 1 ∧
      (fsIsLast pFS (w.pPage + 1) →
        (appendBlock sup w.file).2.1 = fsFirstPageOnBlock pFS (i + 2)) ∧
      (appendBlock sup w.file).2.2 ≤ 2 ∧
      (¬ fsIsLast pFS (w.pPage + 1) → (appendBlock sup w.file).2.2 = 1) := by
    rw [appendBlock, hpage, halloc, hsup, if_neg (Nat.succ_ne_zero _)]
    split_ifs with hl
    · exact ⟨rfl, fun _ => rfl, le_rfl, fun hno => absurd hl hno⟩
    · exact ⟨rfl, fun hyes => absurd hyes hl, Nat.le_succ 1, fun _ => rfl⟩
  obtain ⟨happ, hnext, hle, hone⟩ := hblock
  have hfirst : (lsmFsSortedAppend sup w.file).iFirst = w.file.iFirst :=
    if_neg (by rw [h.first]; exact hpos)
  refine ⟨happ, ⟨rfl, hfirst.trans h.first, shows_putFooter _ _ _, rfl, ⟨hle, ?_⟩, ?_⟩⟩
  · intro hl
    have hl' : ¬ fsIsLast pFS (w.pPage + 1) := by
      rw [← happ]
      exact hl
    exact hone hl'
  · intro hl
    left
    have hl' : fsIsLast pFS (w.pPage + 1) := by
      rw [← happ]
      exact hl
    have hnf' : ¬ fsIsFirst pFS (appendBlock sup w.file).1 := by
      rw [happ]
      exact hnf
    have hptr : nextBlock (lsmFsSortedAppend sup w.file).db (appendBlock sup w.file).1 = i + 2 := by
      refine (fillPointer_next _ _ _ hl hnf').trans ?_
      rw [hnext hl', fsPageToBlock_first, Nat.mod_eq_of_lt (by omega)]
    exact congrArg _ (((sameLinks_putFooter _ _ iFPtr _).1 hl).trans hptr)

/-- **From the last page the segment comes back to its first.** -/
theorem Filling.back (hsup : sup.block 1 = i + 2) (h : Filling i w cur)
    (hlast : fsIsLast pFS w.pPage) :
    (lsmFsSortedAppend sup w.file).iLastPg = fsFirstPageOnBlock pFS (i + 2) ∧
      (lsmFsSortedAppend sup w.file).iFirst = fsFirstPageOnBlock pFS (i + 2) ∧
      (lsmFsSortedAppend sup w.file).nAlloc ≤ 3 := by
  have hpos := first_pos pFS i
  have hle := h.alloc.1
  have hpage : appendPage sup w.file = fsFirstPageOnBlock pFS (nextBlock w.file.db w.pPage) := by
    rw [appendPage, h.last, if_neg hlast.1, if_pos hlast, fsBlockNext_eq _ hlast]
  have hblock : (appendBlock sup w.file).1 = fsFirstPageOnBlock pFS (i + 2) ∧
      (appendBlock sup w.file).2.2 ≤ 3 := by
    rw [appendBlock, hpage]
    rcases h.wrap hlast with hto | ⟨hto, hone⟩
    · rw [hto, if_neg hpos]
      split_ifs
      · exact ⟨rfl, by dsimp only; omega⟩
      · exact ⟨rfl, by dsimp only; omega⟩
    · rw [hto, if_pos rfl, hone, hsup]
      exact ⟨rfl, by dsimp only; omega⟩
  refine ⟨hblock.1, ?_, hblock.2⟩
  exact (if_neg (by rw [h.first]; exact hpos)).trans h.first

variable (pFS) in
/-- The room for data on the pages behind a page. -/
def roomBehind (iPg : ℕ) : ℕ → ℕ
  | 0 => 0
  | k + 1 => nData pFS (iPg + 1) - 14 + roomBehind (iPg + 1) k

/-- The page is filled, and the rest goes to the next one. -/
theorem Filling.turn (h : Filling i w cur) (sup : Supply pFS) (data : List UInt8)
    (room : ℕ)
    (hroom : cur.body.length + room + 14 + 2 * cur.cells.length = nData pFS w.pPage)
    (hdata : room < data.length) (iFPtr : BitVec 64) :
    ∃ w' cur', Filling i w' cur' ∧ w'.pPage = w.pPage ∧ ∀ fuel,
      mergeWorkerLoop sup iFPtr (fuel + 1) w data =
        mergeWorkerLoop sup iFPtr fuel (mergeWorkerNextPage sup w' iFPtr) (data.drop room) := by
  have hlen : (data.take room).length = room := by
    rw [List.length_take, Nat.min_eq_left hdata.le]
  have hspace : SEGMENT_EOF (nData pFS w.pPage) (pageGetNRec w.file.db w.pPage) - w.iOutputOff =
      room := by
    rw [h.onCur.nRec, h.off, SEGMENT_EOF, SEGMENT_CELLPTR_OFFSET]
    omega
  have hput : Filling i { w.put w.iOutputOff (data.take room) with
      iOutputOff := w.iOutputOff + room } { cur with body := cur.body ++ data.take room } := by
    refine h.onPage (by rw [h.off, List.length_append, hlen]) ?_ ?_
    · rw [h.off]
      exact sameLinks_putData (by omega) _
    · rw [h.off]
      exact h.onCur.putBody _ (by omega)
  exact ⟨_, _, hput, rfl, fun fuel => mergeWorkerLoop_full hspace hdata⟩

/-- The last bytes go to the first page, which has no records any more. -/
theorem Filling.finish (hsup : sup.block 1 = i + 2) (h : Filling i w cur)
    (hlast : fsIsLast pFS w.pPage) {data : List UInt8} (hpos : data ≠ [])
    (hlen : data.length ≤ 28) (iFPtr : BitVec 64) (fuel : ℕ) :
    Wrapped i (mergeWorkerLoop sup iFPtr (fuel + 1) (mergeWorkerNextPage sup w iFPtr) data) := by
  obtain ⟨hto, hfirst, halloc⟩ := h.back hsup hlast
  have hge := nData_ge pFS (mergeWorkerNextPage sup w iFPtr).pPage
  have hshows : Shows (mergeWorkerNextPage sup w iFPtr).file.db
      (mergeWorkerNextPage sup w iFPtr).pPage ⟨iFPtr, [], []⟩ := shows_putFooter _ _ _
  have hspace : SEGMENT_EOF (nData pFS (mergeWorkerNextPage sup w iFPtr).pPage)
      (pageGetNRec (mergeWorkerNextPage sup w iFPtr).file.db
        (mergeWorkerNextPage sup w iFPtr).pPage) - (mergeWorkerNextPage sup w iFPtr).iOutputOff =
      nData pFS (mergeWorkerNextPage sup w iFPtr).pPage - 14 := by
    rw [hshows.nRec, SEGMENT_EOF, SEGMENT_CELLPTR_OFFSET]
    show _ - 0 = _
    rw [List.length_nil]
    omega
  have hput := hshows.putBody data (by simp only [List.length_nil]; omega)
  rw [mergeWorkerLoop_fits hspace hpos (by omega)]
  refine ⟨hfirst, hto, ?_, halloc⟩
  rw [← hto]
  exact hput.nRec

/-- **Data that fills the block, and a little more.** -/
theorem Filling.loop (hi : i ≤ 1) (hsup : sup.block 1 = i + 2) {k fuel e : ℕ}
    {data : List UInt8} (h : Filling i w cur) (hlo : fsFirstPageOnBlock pFS (i + 2) ≤ w.pPage)
    (hk : w.pPage + k = (i + 2) * nPagePerBlock pFS) (hpos : 0 < e) (he : e ≤ 28)
    (hlen : data.length + cur.body.length + 14 + 2 * cur.cells.length =
      nData pFS w.pPage + roomBehind pFS w.pPage k + e)
    (hfuel : k + 2 ≤ fuel) : Wrapped i (mergeWorkerLoop sup iFPtr fuel w data) := by
  induction k generalizing w cur data fuel with
  | zero =>
      obtain ⟨room, hroom⟩ := Nat.exists_eq_add_of_le h.onCur.room
      obtain ⟨fuel, rfl⟩ := Nat.exists_eq_add_of_le' hfuel
      rw [roomBehind] at hlen
      obtain ⟨w', cur', hfill, hpage, hturn⟩ :=
        h.turn sup data room (by omega) (by omega) iFPtr
      have hlast : fsIsLast pFS w'.pPage := by
        rw [hpage, ← Nat.add_zero w.pPage, hk]
        exact ⟨Nat.mul_ne_zero (by omega) (nPagePerBlock_pos pFS).ne', Nat.mul_mod_left _ _⟩
      rw [hturn]
      apply hfill.finish hsup hlast
      · apply List.ne_nil_of_length_pos
        rw [List.length_drop]
        omega
      · rw [List.length_drop]
        omega
  | succ k ih =>
      obtain ⟨room, hroom⟩ := Nat.exists_eq_add_of_le h.onCur.room
      obtain ⟨fuel, rfl⟩ := Nat.exists_eq_add_of_le' hfuel
      rw [roomBehind] at hlen
      obtain ⟨w', cur', hfill, hpage, hturn⟩ :=
        h.turn sup data room (by omega) (by omega) iFPtr
      obtain ⟨hnext, hstep⟩ := hfill.step hi hsup (by omega) (by omega) iFPtr
      rw [hpage] at hnext
      have hge := nData_ge pFS (w.pPage + 1)
      rw [show fuel + (k + 1 + 2) = fuel + k + 2 + 1 by omega, hturn]
      apply ih hstep
      · omega
      · omega
      · rw [hnext, List.length_drop]
        simp only [List.length_nil]
        omega
      · omega

/-! ### A record that fills the block -/

theorem fsFirstPageOnBlock_zero (h : nPagePerBlock pFS = 1) :
    fsFirstPageOnBlock pFS (fsPageToBlock pFS 0 % 2 ^ 32) = 0 := by
  have hzero : fsPageToBlock pFS 0 = 0 := by
    rw [fsPageToBlock, h]
    rfl
  rw [hzero, fsFirstPageOnBlock, if_neg (by omega), h]
  rfl

/-- The first page of block 1 is the one of block `i + 2`. -/
theorem filling_first (hover : Overlap pFS i) (db : Db pFS) (iFPtr : BitVec 64) :
    (mergeWorkerNextPage (wrapSupply pFS i) (.init db) iFPtr).pPage =
        fsFirstPageOnBlock pFS (i + 2) ∧
      Filling i (mergeWorkerNextPage (wrapSupply pFS i) (.init db) iFPtr) ⟨iFPtr, [], []⟩ := by
  have hblock : appendBlock (wrapSupply pFS i) (.empty db) =
      (fsFirstPageOnBlock pFS (i + 2), 0, 1) := by
    rw [← hover.2]
    rfl
  have hpage : (lsmFsSortedAppend (wrapSupply pFS i) (.empty db)).iLastPg =
      fsFirstPageOnBlock pFS (i + 2) := by
    rw [lsmFsSortedAppend, hblock]
  have halloc : (lsmFsSortedAppend (wrapSupply pFS i) (.empty db)).nAlloc = 1 := by
    rw [lsmFsSortedAppend, hblock]
  refine ⟨hpage, ⟨rfl, ?_, shows_putFooter _ _ _, rfl, ⟨?_, fun _ => halloc⟩,
    fun hlast => .inr ⟨?_, halloc⟩⟩⟩
  · show (lsmFsSortedAppend (wrapSupply pFS i) (.empty db)).iFirst = _
    rw [lsmFsSortedAppend, hblock]
    rfl
  · show (lsmFsSortedAppend (wrapSupply pFS i) (.empty db)).nAlloc ≤ 2
    omega
  · -- only where every block has one page is its first page the last one
    have hn := nPagePerBlock_pos pFS
    have hlast' : fsIsLast pFS (lsmFsSortedAppend (wrapSupply pFS i) (.empty db)).iLastPg := hlast
    have hone : nPagePerBlock pFS = 1 := by
      have hmod := hlast'.2
      rw [hpage, fsFirstPageOnBlock_add_two, mul_comm, Nat.mul_add_mod] at hmod
      by_contra hne
      rw [Nat.mod_eq_of_lt (by omega)] at hmod
      omega
    have hnot : ¬ fsIsFirst pFS (lsmFsSortedAppend (wrapSupply pFS i) (.empty db)).iLastPg := by
      rw [fsIsFirst, hone, Nat.mod_one]
      have := hlast'.1
      omega
    have hptr := fillPointer_next db (SegFile.empty db).iLastPg
      (appendBlock (wrapSupply pFS i) (.empty db)).2.1 hlast' hnot
    have hnext : (appendBlock (wrapSupply pFS i) (.empty db)).2.1 = 0 := by rw [hblock]
    have hblk := ((sameLinks_putFooter _ (lsmFsSortedAppend (wrapSupply pFS i) (.empty db)).iLastPg
      iFPtr _).1 hlast').trans hptr
    rw [hnext] at hblk
    exact (congrArg _ hblk).trans (fsFirstPageOnBlock_zero hone)

/-- The header of a record on a page without records. -/
theorem Filling.header (h : Filling i w ⟨iFPtr, [], []⟩) (c : Cell) :
    ∃ cur, Filling i (mergeWorkerHeader w c 0) cur ∧ 0 < cur.body.length ∧
      cur.body.length ≤ 28 ∧ cur.cells.length = 1 := by
  have hge := nData_ge pFS w.pPage
  have hlen := cellHeader_length (c.iPtr - pageGetPtr w.file.db w.pPage) c
  have hpos := cellHeader_pos (c.iPtr - pageGetPtr w.file.db w.pPage) c
  have hoff : w.iOutputOff = 0 := h.off
  have hcell := h.onCur.putCell w.iOutputOff 0 (by omega)
    (by simp only [List.length_nil]; omega) ⟨by decide, rfl⟩
  have hbody := hcell.putBody (cellHeader (c.iPtr - pageGetPtr w.file.db w.pPage) c)
    (by simp only [List.length_nil, List.length_append, List.length_singleton]; omega)
  rw [← h.onCur.nRec] at hbody
  dsimp only at hbody
  rw [← h.off] at hbody
  refine ⟨_, h.onPage ?_ ?_ hbody, ?_⟩
  · rw [hoff, Nat.zero_add]
    rfl
  · refine .trans (sameLinks_putCell _ _ ?_ _) (sameLinks_putData ?_ _)
    · rw [h.onCur.nRec, List.length_nil]
      omega
    · omega
  · simp only [List.nil_append, List.length_singleton]
    exact ⟨hpos, hlen, trivial⟩

/-- The reader finds one page, without records. -/
theorem Wrapped.scan (h : Wrapped i w) (fuel : ℕ) :
    segmentScan w.file.db ⟨w.file.iFirst, w.file.iLastPg⟩ false false (fuel + 1) = some [] := by
  have hno : noCells w.file.db (fsFirstPageOnBlock pFS (i + 2)) := .inl h.nRec
  have hnext : nextCellPage w.file.db
      ⟨fsFirstPageOnBlock pFS (i + 2), fsFirstPageOnBlock pFS (i + 2)⟩ false (fuel + 1)
      (fsFirstPageOnBlock pFS (i + 2)) = some none := by
    rw [nextCellPage, lsmFsDbPageNext, if_neg Bool.false_ne_true, if_pos rfl]
  have henter : segmentPtrEnter w.file.db
      ⟨fsFirstPageOnBlock pFS (i + 2), fsFirstPageOnBlock pFS (i + 2)⟩ false (fuel + 1) =
      some none := by
    rw [segmentPtrEnter, if_neg Bool.false_ne_true, if_pos hno, hnext]
    rfl
  rw [h.first, h.last, segmentScan, segmentPtrEnd, henter]
  rfl

theorem pagesize_4096_ok : 256 ≤ 4096 ∧ 4096 ≤ 65536 ∧ (4096 - 1) &&& 4096 = 0 := by decide

/-- Blocks of 128 KB. -/
def smallBlocks : FileSystem where
  nPagesize := 4096
  nBlocksize := 128 * 1024
  pagesize_ok := pagesize_4096_ok
  blocksize_ok := ⟨128, rfl, by decide⟩

end Seg

end Lsm

end MoVeBench
