/-
MoVeBench/Lsm/SegmentGrow.lean

How a segment takes pages (`lsmFsSortedAppend`, `fsAppendPage` and `lsmFsPagePersist` of
`lsm_file.c`).

A page of data has its number when it is begun, a page of the b-tree gets it when it is
persisted.  Both go behind the last page so far, and the last page of a block takes the next
block at once.  What holds of the pages so far is `Grown`: they are different pages, each leads
to the next and back, and the block to come holds none of them.  Every page added keeps it
(`Grown.extend`).
-/
import MoVeBench.Lsm.SegmentFile

namespace MoVeBench

namespace Lsm

namespace Seg

open Bytes

variable {pFS : FileSystem}

/-! ### Taking a page -/

variable (pFS) in
/-- What a segment may be written to. -/
structure Supply where
  /-- What `findAppendPoint` returns: the page behind another segment, or 0. -/
  iAppend : ℕ
  /-- The blocks that `lsmBlockAllocate` gives, one after the other. -/
  block : ℕ → ℕ
  append_ok : iAppend ≠ 0 → fsFirstPageOnBlock pFS 1 ≤ iAppend ∧
    fsPageToBlock pFS iAppend < 2 ^ 31 ∧ ∀ i, block i ≠ fsPageToBlock pFS iAppend
  block_pos : ∀ i, 1 ≤ block i
  block_inj : Function.Injective block

variable (pFS) in
/-- A segment that is being written. -/
structure SegFile where
  db : Db pFS
  iFirst : ℕ
  iLastPg : ℕ
  /-- How many blocks were taken. -/
  nAlloc : ℕ

/-- A segment without pages. -/
def SegFile.empty (db : Db pFS) : SegFile pFS := ⟨db, 0, 0, 0⟩

variable (sup : Supply pFS)

/-- `iApp` before a block is taken, 0 for none. -/
def appendPage (s : SegFile pFS) : ℕ :=
  if s.iLastPg = 0 then sup.iAppend
  else if fsIsLast pFS s.iLastPg then
    fsFirstPageOnBlock pFS (fsBlockNext s.db (fsPageToBlock pFS s.iLastPg))
  else s.iLastPg + 1

/-- `iApp`, `iNext` and the blocks taken.  Only one block is taken, also for a first page
that is the last one of its block. -/
def appendBlock (s : SegFile pFS) : ℕ × ℕ × ℕ :=
  let iApp := appendPage sup s
  let iNew := sup.block s.nAlloc
  if iApp = 0 then (fsFirstPageOnBlock pFS iNew, 0, s.nAlloc + 1)
  else if fsIsLast pFS iApp then (iApp, fsFirstPageOnBlock pFS iNew, s.nAlloc + 1)
  else (iApp, 0, s.nAlloc)

/-- The pointer of a new page. -/
def fillPointer (db : Db pFS) (iApp iPrev iNext : ℕ) : Db pFS :=
  if fsIsLast pFS iApp then
    putData db iApp (pFS.nPagesize - 4) (beBytes 4 (fsPageToBlock pFS iNext))
  else if fsIsFirst pFS iApp then
    db.write iApp (dataOff pFS iApp - 4) (beBytes 4 (fsPageToBlock pFS iPrev))
  else db

/-- `lsmFsSortedAppend`; the page is the last one of the result. -/
def lsmFsSortedAppend (s : SegFile pFS) : SegFile pFS where
  db := fillPointer s.db (appendBlock sup s).1 s.iLastPg (appendBlock sup s).2.1
  iFirst := if s.iFirst = 0 then (appendBlock sup s).1 else s.iFirst
  iLastPg := (appendBlock sup s).1
  nAlloc := (appendBlock sup s).2.2

def SEGMENT_NRECORD_OFFSET (pgsz : ℕ) : ℕ := pgsz - 2

def SEGMENT_FLAGS_OFFSET (pgsz : ℕ) : ℕ := pgsz - 2 - 2

def SEGMENT_POINTER_OFFSET (pgsz : ℕ) : ℕ := pgsz - 2 - 2 - 8

def SEGMENT_CELLPTR_OFFSET (pgsz iCell : ℕ) : ℕ := pgsz - 2 - 2 - 8 - 2 - iCell * 2

def SEGMENT_EOF (pgsz nEntry : ℕ) : ℕ := SEGMENT_CELLPTR_OFFSET pgsz nEntry

def SEGMENT_BTREE_FLAG : ℕ := 0x0001

variable (pFS) in
/-- The buffer of a page of the b-tree, whose data ends four bytes before the buffer does. -/
structure Image where
  aData : List UInt8
  size : aData.length = pFS.nPagesize
  btree : fromBe (readBytes aData (SEGMENT_FLAGS_OFFSET (pFS.nPagesize - 4)) 2) &&&
    SEGMENT_BTREE_FLAG ≠ 0

/-- `lsmSortedExpandBtreePage`: the footer of a page moves up by four bytes. -/
def lsmSortedExpandBtreePage (img : Image pFS) : List UInt8 :=
  let nOrig := pFS.nPagesize - 4
  let nEntry := fromBe (readBytes img.aData (SEGMENT_NRECORD_OFFSET nOrig) 2)
  let iHdr := SEGMENT_EOF nOrig nEntry
  writeBytes img.aData (iHdr + 4) (readBytes img.aData iHdr (nOrig - iHdr))

/-- `lsmFsPagePersist` on a page of the b-tree, with `fsAppendPage`. -/
def lsmFsPagePersist (s : SegFile pFS) (img : Image pFS) : SegFile pFS :=
  let iPrev := s.iLastPg
  if fsIsLast pFS iPrev then
    let iBlk := fsPageToBlock pFS iPrev
    let iNew := fsFirstPageOnBlock pFS (fsBlockNext s.db iBlk)
    { s with
      db := s.db.write iNew 0 (beBytes 4 iBlk ++ readBytes img.aData 0 (pFS.nPagesize - 4))
      iLastPg := iNew }
  else
    let iNew := iPrev + 1
    if fsIsLast pFS iNew then
      { s with
        db := s.db.write iNew 0
          (writeBytes img.aData (pFS.nPagesize - 4) (beBytes 4 (sup.block s.nAlloc)))
        iLastPg := iNew, nAlloc := s.nAlloc + 1 }
    else
      { s with db := s.db.write iNew 0 (lsmSortedExpandBtreePage img), iLastPg := iNew }

/-! ### The pages so far -/

/-- The pages of a segment, from the first to the last. -/
structure Grown (s : SegFile pFS) (pages : List ℕ) : Prop where
  first : pages.head? = some s.iFirst
  last : pages.getLast? = some s.iLastPg
  data : ∀ p ∈ pages, fsFirstPageOnBlock pFS 1 ≤ p
  nodup : pages.Nodup
  chain : pages.IsChain (Linked s.db)
  /-- The blocks to come are other ones. -/
  fresh : ∀ p ∈ pages, ∀ i, s.nAlloc ≤ i → sup.block i ≠ fsPageToBlock pFS p
  small : ∀ p ∈ pages, fsPageToBlock pFS p < 2 ^ 31
  below : ∀ p ∈ pages, fsPageToBlock pFS p = fsPageToBlock pFS s.iLastPg → p ≤ s.iLastPg
  /-- The last page of a block has the next one. -/
  next : fsIsLast pFS s.iLastPg → ∃ i, s.nAlloc = i + 1 ∧ nextBlock s.db s.iLastPg = sup.block i ∧
    ∀ p ∈ pages, sup.block i ≠ fsPageToBlock pFS p

/-- The numbers of the blocks that were taken are C integers. -/
def SmallBlocks (s : SegFile pFS) : Prop := ∀ i < s.nAlloc, sup.block i < 2 ^ 31

/-- A page was added. -/
structure Added (s s' : SegFile pFS) : Prop where
  page : s'.iLastPg = pageAfter s.db s.iLastPg
  first : s'.iFirst = s.iFirst
  alloc : s'.nAlloc = if fsIsLast pFS s'.iLastPg then s.nAlloc + 1 else s.nAlloc
  frame : ∀ i, i ≠ s'.iLastPg → s'.db.page i = s.db.page i
  prev : fsIsFirst pFS s'.iLastPg →
    prevBlock s'.db s'.iLastPg = fsPageToBlock pFS s.iLastPg % 2 ^ 32
  next : fsIsLast pFS s'.iLastPg → nextBlock s'.db s'.iLastPg = sup.block s.nAlloc % 2 ^ 32

variable {sup} {s s' : SegFile pFS} {pages : List ℕ}

theorem Added.nAlloc_le (h : Added sup s s') : s.nAlloc ≤ s'.nAlloc := by
  rw [h.alloc]
  split_ifs <;> omega

theorem Grown.iLastPg_mem (h : Grown sup s pages) : s.iLastPg ∈ pages :=
  List.mem_of_getLast? h.last

/-- The block of a new page, and that the page is new. -/
theorem Grown.new_page (hroomy : RoomyBlocks pFS) (h : Grown sup s pages) (hadd : Added sup s s')
    (hsmall : SmallBlocks sup s') :
    fsFirstPageOnBlock pFS 1 ≤ s'.iLastPg ∧ s'.iLastPg ∉ pages ∧
    fsPageToBlock pFS s'.iLastPg < 2 ^ 31 ∧
    (∀ i, s.nAlloc ≤ i → sup.block i ≠ fsPageToBlock pFS s'.iLastPg) ∧
    (∀ p ∈ pages, fsPageToBlock pFS p = fsPageToBlock pFS s'.iLastPg → p ≤ s'.iLastPg) := by
  have hmem := h.iLastPg_mem
  have hpage := hadd.page
  unfold pageAfter at hpage
  split_ifs at hpage with hlast
  · -- the first page of the block that was taken before
    obtain ⟨i, hi, hblock, hother⟩ := h.next hlast
    rw [hblock] at hpage
    obtain ⟨hdata, hto, -, -⟩ := hroomy.first (sup.block_pos i)
    rw [hpage, hto]
    refine ⟨hdata, fun hin => hother _ hin hto.symm, hsmall i ?_, fun j hj heq => ?_,
      fun p hp heq => absurd heq.symm (hother p hp)⟩
    · have := hadd.nAlloc_le
      omega
    · have := sup.block_inj heq
      omega
  · have hdata := h.data _ hmem
    have hpos := hroomy.pages.1
    have hto := fsPageToBlock_next (by omega) hlast
    rw [hpage, hto]
    refine ⟨by omega, fun hin => ?_, h.small _ hmem, h.fresh _ hmem, fun p hp heq => ?_⟩
    · have := h.below _ hin hto
      omega
    · exact (h.below p hp heq).trans (Nat.le_succ _)

theorem Added.sameLinks (h : Added sup s s') {i : ℕ} (hi : i ≠ s'.iLastPg) :
    SameLinks s.db s'.db i := .of_page (h.frame i hi)

/-- The last page so far and the new one lead to each other. -/
theorem Grown.linked (hroomy : RoomyBlocks pFS) (h : Grown sup s pages) (hadd : Added sup s s')
    (hne : s.iLastPg ≠ s'.iLastPg) : Linked s'.db s.iLastPg s'.iLastPg := by
  have hmem := h.iLastPg_mem
  have hsame := hadd.sameLinks hne
  have hpage := hadd.page
  refine ⟨?_, ?_⟩
  · rw [hpage]
    unfold pageAfter
    split_ifs with hlast
    · rw [hsame.1 hlast]
    · rfl
  · unfold pageAfter at hpage
    split_ifs at hpage with hlast
    · obtain ⟨i, hi, hblock, hother⟩ := h.next hlast
      obtain ⟨-, -, hfirst, -⟩ := hroomy.first (sup.block_pos i)
      rw [← hblock, ← hpage] at hfirst
      have hlt := h.small _ hmem
      rw [pageBefore, if_pos hfirst, hadd.prev hfirst, Nat.mod_eq_of_lt (by omega),
        fsLastPageOnBlock_of_isLast hlast]
    · have hnot := hroomy.not_first (h.data _ hmem) hlast
      rw [hpage, pageBefore, if_neg hnot, Nat.add_sub_cancel]

/-- **A page added to a segment keeps it whole.** -/
theorem Grown.extend (hroomy : RoomyBlocks pFS) (h : Grown sup s pages) (hadd : Added sup s s')
    (hsmall : SmallBlocks sup s') : Grown sup s' (pages ++ [s'.iLastPg]) := by
  obtain ⟨hdata, hnew, hlt, hfresh, hbelow⟩ := h.new_page hroomy hadd hsmall
  have hmem := h.iLastPg_mem
  have hne : ∀ p ∈ pages, p ≠ s'.iLastPg := fun p hp heq => hnew (heq ▸ hp)
  have hle := hadd.nAlloc_le
  refine ⟨?_, by rw [List.getLast?_append, List.getLast?_singleton, Option.some_or], ?_, ?_, ?_,
    ?_, ?_, ?_, ?_⟩
  · rw [List.head?_append, h.first, hadd.first, Option.some_or]
  · rw [List.forall_mem_append, List.forall_mem_singleton]
    exact ⟨h.data, hdata⟩
  · exact h.nodup.append (List.nodup_singleton _) (by simpa using hnew)
  · apply List.IsChain.append
    · exact h.chain.imp_of_mem_imp fun a b ha hb hab =>
        hab.congr (hadd.sameLinks (hne a ha)) (hadd.sameLinks (hne b hb))
    · exact List.isChain_singleton _
    · intro a ha b hb
      rw [h.last, Option.mem_some_iff] at ha
      rw [List.head?_cons, Option.mem_some_iff] at hb
      subst ha hb
      exact h.linked hroomy hadd (hne _ hmem)
  · rw [List.forall_mem_append, List.forall_mem_singleton]
    exact ⟨fun p hp i hi => h.fresh p hp i (hle.trans hi), fun i hi => hfresh i (hle.trans hi)⟩
  · rw [List.forall_mem_append, List.forall_mem_singleton]
    exact ⟨h.small, hlt⟩
  · rw [List.forall_mem_append, List.forall_mem_singleton]
    exact ⟨hbelow, fun _ => le_rfl⟩
  · intro hlast
    have halloc := hadd.alloc
    rw [if_pos hlast] at halloc
    have hblock := hsmall s.nAlloc (by omega)
    refine ⟨s.nAlloc, halloc, ?_, ?_⟩
    · rw [hadd.next hlast, Nat.mod_eq_of_lt (by omega)]
    · rw [List.forall_mem_append, List.forall_mem_singleton]
      exact ⟨fun p hp => h.fresh p hp _ le_rfl, hfresh _ le_rfl⟩

/-! ### The two ways to add a page -/

/-- The block of a page has its pointer on its last page. -/
theorem fsBlockNext_eq (db : Db pFS) {iPg : ℕ} (h : fsIsLast pFS iPg) :
    fsBlockNext db (fsPageToBlock pFS iPg) = nextBlock db iPg := by
  have hlast := fsLastPageOnBlock_of_isLast h
  rw [fsLastPageOnBlock] at hlast
  rw [fsBlockNext, hlast]

theorem fromBe_beBytes_four (x : ℕ) : fromBe (beBytes 4 x) = x % 2 ^ 32 := by
  rw [← beBytes_mod 4 x 4 le_rfl, show 256 ^ 4 = 2 ^ 32 by norm_num]
  exact fromBe_beBytes (Nat.mod_lt _ (by norm_num))

theorem nextBlock_write {db : Db pFS} {iPg : ℕ} (hnot : ¬ fsIsFirst pFS iPg) {off : ℕ}
    {data : List UInt8} {k x : ℕ} (hoff : off + k = pFS.nPagesize - 4)
    (hin : off + data.length ≤ pFS.nPagesize) (hk : k + 4 ≤ data.length)
    (hdata : readBytes data k 4 = beBytes 4 x) :
    nextBlock (db.write iPg off data) iPg = x % 2 ^ 32 := by
  have hzero : dataOff pFS iPg = 0 := if_neg hnot
  rw [nextBlock, getData, Db.write_page, hzero, Nat.zero_add, ← hoff,
    readBytes_written (by rw [db.size]; exact hin) hk, hdata, fromBe_beBytes_four]

theorem prevBlock_write (db : Db pFS) {iPg : ℕ} (hfirst : fsIsFirst pFS iPg) (rest : List UInt8)
    (hrest : rest.length + 4 ≤ pFS.nPagesize) (x : ℕ) :
    prevBlock (db.write iPg 0 (beBytes 4 x ++ rest)) iPg = x % 2 ^ 32 := by
  have hoff : dataOff pFS iPg = 4 := if_pos hfirst
  have hread : readBytes (writeBytes (db.page iPg) 0 (beBytes 4 x ++ rest)) (0 + 0) 4 =
      readBytes (beBytes 4 x ++ rest) 0 4 := by
    apply readBytes_written
    · rw [List.length_append, beBytes_length, db.size]
      omega
    · rw [List.length_append, beBytes_length]
      omega
  rw [prevBlock, Db.write_page, hoff, hread, readBytes_append_left (by rw [beBytes_length]),
    ← fromBe_beBytes_four x]
  exact congrArg fromBe (readBytes_all (beBytes 4 x))

/-- The number of the page that is added. -/
theorem next_page (hroomy : RoomyBlocks pFS) (h : Grown sup s pages) :
    s.iLastPg ≠ 0 ∧ s.iFirst ≠ 0 ∧ pageAfter s.db s.iLastPg ≠ 0 ∧
    (fsIsLast pFS s.iLastPg → fsIsFirst pFS (pageAfter s.db s.iLastPg)) ∧
    (¬ fsIsLast pFS s.iLastPg → ¬ fsIsFirst pFS (pageAfter s.db s.iLastPg)) := by
  have hpos := hroomy.pages.1
  have hlastdata := h.data _ h.iLastPg_mem
  have hfirstdata := h.data _ (List.mem_of_head? h.first)
  refine ⟨by omega, by omega, ?_, fun hlast => ?_, fun hlast => ?_⟩
  · unfold pageAfter
    split_ifs with hlast
    · obtain ⟨i, -, hblock, -⟩ := h.next hlast
      have := (hroomy.first (sup.block_pos i)).1
      rw [hblock]
      omega
    · omega
  · obtain ⟨i, -, hblock, -⟩ := h.next hlast
    rw [pageAfter, if_pos hlast, hblock]
    exact (hroomy.first (sup.block_pos i)).2.2.1
  · rw [pageAfter, if_neg hlast]
    exact hroomy.not_first hlastdata hlast

theorem fillPointer_page_of_ne {db : Db pFS} {iApp iPrev iNext i : ℕ} (h : i ≠ iApp) :
    (fillPointer db iApp iPrev iNext).page i = db.page i := by
  unfold fillPointer
  split_ifs
  · exact Db.write_page_of_ne h
  · exact Db.write_page_of_ne h
  · rfl

theorem fillPointer_prev (hroomy : RoomyBlocks pFS) (db : Db pFS) {iApp : ℕ} (iPrev iNext : ℕ)
    (hfirst : fsIsFirst pFS iApp) :
    prevBlock (fillPointer db iApp iPrev iNext) iApp = fsPageToBlock pFS iPrev % 2 ^ 32 := by
  have hpage := pFS.pagesize_ok.1
  have hoff : dataOff pFS iApp = 4 := if_pos hfirst
  have hwrite := prevBlock_write db hfirst [] (by rw [List.length_nil]; omega)
    (fsPageToBlock pFS iPrev)
  rw [List.append_nil] at hwrite
  rw [fillPointer, if_neg (hroomy.not_both hfirst), if_pos hfirst, hoff, Nat.sub_self]
  exact hwrite

theorem fillPointer_next (db : Db pFS) {iApp : ℕ} (iPrev iNext : ℕ)
    (hlast : fsIsLast pFS iApp) (hnot : ¬ fsIsFirst pFS iApp) :
    nextBlock (fillPointer db iApp iPrev iNext) iApp = fsPageToBlock pFS iNext % 2 ^ 32 := by
  have hpage := pFS.pagesize_ok.1
  have hoff : dataOff pFS iApp = 0 := if_neg hnot
  rw [fillPointer, if_pos hlast, putData, hoff]
  apply nextBlock_write hnot (k := 0) (by omega)
  · rw [beBytes_length]
    omega
  · rw [beBytes_length]
  · exact readBytes_all (beBytes 4 _)

/-- A page that is not the first one takes the place behind the last one. -/
theorem appendBlock_eq (hroomy : RoomyBlocks pFS) (h : Grown sup s pages) :
    (appendBlock sup s).1 = pageAfter s.db s.iLastPg ∧
    (fsIsLast pFS (pageAfter s.db s.iLastPg) →
      (appendBlock sup s).2.1 = fsFirstPageOnBlock pFS (sup.block s.nAlloc)) ∧
    (appendBlock sup s).2.2 =
      if fsIsLast pFS (pageAfter s.db s.iLastPg) then s.nAlloc + 1 else s.nAlloc := by
  obtain ⟨hlastpos, -, hpos, -, -⟩ := next_page hroomy h
  have hpage : appendPage sup s = pageAfter s.db s.iLastPg := by
    rw [appendPage, if_neg hlastpos]
    unfold pageAfter
    split_ifs with hlast
    · rw [fsBlockNext_eq s.db hlast]
    · rfl
  unfold appendBlock
  dsimp only
  rw [hpage, if_neg hpos]
  split_ifs with hlast
  · exact ⟨rfl, fun _ => rfl, rfl⟩
  · exact ⟨rfl, fun hl => absurd hl hlast, rfl⟩

theorem added_lsmFsSortedAppend (hroomy : RoomyBlocks pFS) (h : Grown sup s pages) :
    Added sup s (lsmFsSortedAppend sup s) := by
  obtain ⟨-, hfirstpos, -, -, -⟩ := next_page hroomy h
  obtain ⟨hpage, hnext, halloc⟩ := appendBlock_eq hroomy h
  refine ⟨hpage, if_neg hfirstpos, ?_, fun i hi => fillPointer_page_of_ne hi,
    fun hfirst => fillPointer_prev hroomy _ _ _ hfirst, fun hlast => ?_⟩
  · rw [← hpage] at halloc
    exact halloc
  · have hlast' : fsIsLast pFS (pageAfter s.db s.iLastPg) := by
      rw [← hpage]
      exact hlast
    have hto := hnext hlast'
    refine (fillPointer_next s.db s.iLastPg _ hlast fun hf => hroomy.not_both hf hlast).trans ?_
    rw [hto, (hroomy.first (sup.block_pos _)).2.1]

theorem added_lsmFsPagePersist (hroomy : RoomyBlocks pFS) (h : Grown sup s pages)
    (img : Image pFS) : Added sup s (lsmFsPagePersist sup s img) := by
  obtain ⟨-, -, -, hfirst, hnot⟩ := next_page hroomy h
  have hpage := pFS.pagesize_ok.1
  unfold lsmFsPagePersist
  dsimp only
  by_cases hlast : fsIsLast pFS s.iLastPg
  · have hnew : fsFirstPageOnBlock pFS (fsBlockNext s.db (fsPageToBlock pFS s.iLastPg)) =
        pageAfter s.db s.iLastPg := by rw [fsBlockNext_eq s.db hlast, pageAfter, if_pos hlast]
    rw [if_pos hlast, hnew]
    refine ⟨rfl, rfl, (if_neg (hroomy.not_both (hfirst hlast))).symm, fun i hi => ?_, fun hf => ?_,
      fun hl => absurd hl (hroomy.not_both (hfirst hlast))⟩
    · exact Db.write_page_of_ne hi
    · apply prevBlock_write _ hf _
      rw [readBytes_length]
      omega
  · have hnew : pageAfter s.db s.iLastPg = s.iLastPg + 1 := if_neg hlast
    have hnf := hnot hlast
    rw [hnew] at hnf
    rw [if_neg hlast]
    by_cases hl : fsIsLast pFS (s.iLastPg + 1)
    · rw [if_pos hl]
      refine ⟨hnew.symm, rfl, (if_pos hl).symm, fun i hi => Db.write_page_of_ne hi,
        fun hf => absurd hf hnf, fun _ => ?_⟩
      have hlen : (beBytes 4 (sup.block s.nAlloc)).length = 4 := beBytes_length _ _
      have hin : pFS.nPagesize - 4 + (beBytes 4 (sup.block s.nAlloc)).length ≤
          img.aData.length := by
        rw [hlen, img.size]
        omega
      apply nextBlock_write hnf (k := pFS.nPagesize - 4) (by omega)
      · rw [writeBytes_length, img.size]
        omega
      · rw [writeBytes_length, img.size]
        omega
      · have hread := readBytes_writeBytes hin
        rwa [hlen] at hread
    · rw [if_neg hl]
      exact ⟨hnew.symm, rfl, (if_neg hl).symm, fun i hi => Db.write_page_of_ne hi,
        fun hf => absurd hf hnf, fun hl' => absurd hl' hl⟩

/-- The first page is on no block to come, and its next block is another one. -/
theorem appendBlock_empty (hroomy : RoomyBlocks pFS) (db : Db pFS)
    (hsmall : SmallBlocks sup (lsmFsSortedAppend sup (.empty db))) :
    fsFirstPageOnBlock pFS 1 ≤ (appendBlock sup (.empty db)).1 ∧
    fsPageToBlock pFS (appendBlock sup (.empty db)).1 < 2 ^ 31 ∧
    (∀ i, (appendBlock sup (.empty db)).2.2 ≤ i →
      sup.block i ≠ fsPageToBlock pFS (appendBlock sup (.empty db)).1) ∧
    (fsIsLast pFS (appendBlock sup (.empty db)).1 → (appendBlock sup (.empty db)).2.2 = 1 ∧
      (appendBlock sup (.empty db)).2.1 = fsFirstPageOnBlock pFS (sup.block 0) ∧
      sup.block 0 ≠ fsPageToBlock pFS (appendBlock sup (.empty db)).1) := by
  have hpage : appendPage sup (SegFile.empty db) = sup.iAppend := if_pos rfl
  by_cases hzero : sup.iAppend = 0
  · have hblock : appendBlock sup (SegFile.empty db) =
        (fsFirstPageOnBlock pFS (sup.block 0), 0, 1) := by
      rw [appendBlock, hpage, if_pos hzero]
      rfl
    obtain ⟨hdata, hto, -, hnot⟩ := hroomy.first (sup.block_pos 0)
    have halloc : (lsmFsSortedAppend sup (.empty db)).nAlloc = 1 := by
      rw [lsmFsSortedAppend, hblock]
    rw [hblock]
    dsimp only
    rw [hto]
    refine ⟨hdata, hsmall 0 (by rw [halloc]; exact Nat.one_pos), fun i hi heq => ?_,
      fun hlast => absurd hlast hnot⟩
    have := sup.block_inj heq
    omega
  · obtain ⟨hdata, hlt, hother⟩ := sup.append_ok hzero
    by_cases hlast : fsIsLast pFS sup.iAppend
    · have hblock : appendBlock sup (SegFile.empty db) =
          (sup.iAppend, fsFirstPageOnBlock pFS (sup.block 0), 1) := by
        rw [appendBlock, hpage, if_neg hzero, if_pos hlast]
        rfl
      rw [hblock]
      exact ⟨hdata, hlt, fun i _ => hother i, fun _ => ⟨rfl, rfl, hother 0⟩⟩
    · have hblock : appendBlock sup (SegFile.empty db) = (sup.iAppend, 0, 0) := by
        rw [appendBlock, hpage, if_neg hzero, if_neg hlast]
        rfl
      rw [hblock]
      exact ⟨hdata, hlt, fun i _ => hother i, fun hl => absurd hl hlast⟩

/-- **The first page of a segment.** -/
theorem grown_lsmFsSortedAppend (hroomy : RoomyBlocks pFS) (db : Db pFS)
    (hsmall : SmallBlocks sup (lsmFsSortedAppend sup (.empty db))) :
    Grown sup (lsmFsSortedAppend sup (.empty db))
      [(lsmFsSortedAppend sup (.empty db)).iLastPg] := by
  obtain ⟨hdata, hlt, hfresh, hnext⟩ := appendBlock_empty hroomy db hsmall
  have hfirst : (lsmFsSortedAppend sup (.empty db)).iFirst = (appendBlock sup (.empty db)).1 := by
    simp [lsmFsSortedAppend, SegFile.empty]
  refine ⟨by rw [hfirst]; rfl, rfl, ?_, List.nodup_singleton _, List.isChain_singleton _, ?_, ?_,
    ?_, ?_⟩
  · rw [List.forall_mem_singleton]
    exact hdata
  · rw [List.forall_mem_singleton]
    exact hfresh
  · rw [List.forall_mem_singleton]
    exact hlt
  · rw [List.forall_mem_singleton]
    exact fun _ => le_rfl
  · intro hlast
    obtain ⟨halloc, hto, hne⟩ := hnext hlast
    have hblock := hsmall 0 (show 0 < (appendBlock sup (.empty db)).2.2 by omega)
    refine ⟨0, halloc, ?_, by rw [List.forall_mem_singleton]; exact hne⟩
    refine (fillPointer_next db 0 _ hlast fun hf => hroomy.not_both hf hlast).trans ?_
    rw [hto, (hroomy.first (sup.block_pos 0)).2.1, Nat.mod_eq_of_lt (by omega)]

end Seg

end Lsm

end MoVeBench
