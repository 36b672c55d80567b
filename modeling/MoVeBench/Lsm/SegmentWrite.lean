/-
MoVeBench/Lsm/SegmentWrite.lean

The writer of a segment (`mergeWorkerWrite`, `mergeWorkerData` and `mergeWorkerNextPage` of
`lsm_sorted.c`).

`Writing` says what the pages of the segment hold between two steps of the writer: the pages
before the current one are full, the pages of the b-tree are marked as such, and the leaves
spell the records that were written, up to the bytes `tail` that the writer is about to write.
Each step keeps it, so a run of writes spells its records (`writing_run`).
-/
import MoVeBench.Lsm.SegmentSpell

namespace MoVeBench

namespace Lsm

namespace Seg

open Bytes

variable {pFS : FileSystem}

/-! ### The writer -/

variable (pFS) in
/-- The part of `MergeWorker` and of its `Merge` that writing uses. -/
structure MergeWorker where
  file : SegFile pFS
  /-- The number of the current page, 0 for none. -/
  pPage : ℕ
  iOutputOff : ℕ
  nSkip : ℕ

variable (sup : Supply pFS)

def mergeWorkerNextPage (w : MergeWorker pFS) (iFPtr : BitVec 64) : MergeWorker pFS :=
  let file := lsmFsSortedAppend sup w.file
  { w with
    file := { file with db := putFooter file.db file.iLastPg iFPtr }
    pPage := file.iLastPg
    iOutputOff := 0 }

/-- Bytes copied to the current page. -/
def MergeWorker.put (w : MergeWorker pFS) (off : ℕ) (data : List UInt8) : MergeWorker pFS :=
  { w with file := { w.file with db := putData w.file.db w.pPage off data } }

/-- The loop of `mergeWorkerData`. -/
def mergeWorkerLoop (iFPtr : BitVec 64) : ℕ → MergeWorker pFS → List UInt8 → MergeWorker pFS
  | 0, w, _ => w
  | fuel + 1, w, aWrite =>
      if aWrite = [] then w
      else
        let nRec := pageGetNRec w.file.db w.pPage
        let nCopy := min aWrite.length
          (SEGMENT_EOF (nData pFS w.pPage) nRec - w.iOutputOff)
        let w' := w.put w.iOutputOff (aWrite.take nCopy)
        if aWrite.drop nCopy = [] then { w' with iOutputOff := w.iOutputOff + nCopy }
        else mergeWorkerLoop iFPtr fuel (mergeWorkerNextPage sup w' iFPtr) (aWrite.drop nCopy)

/-- Every turn but the first copies a byte. -/
def mergeWorkerData (w : MergeWorker pFS) (iFPtr : BitVec 64) (aWrite : List UInt8) :
    MergeWorker pFS :=
  mergeWorkerLoop sup iFPtr (aWrite.length + 1) w aWrite

/-- The pages of the b-tree that are persisted, one after the other. -/
def MergeWorker.persist (w : MergeWorker pFS) (hier : List (Image pFS)) : MergeWorker pFS :=
  { w with file := hier.foldl (lsmFsPagePersist sup) w.file }

variable (pFS) in
/-- What a call of `mergeWorkerWrite` depends on besides the state of the writer. -/
structure WriteArgs where
  cell : Cell
  /-- The pointer that `mergeWorkerFirstPage` finds. -/
  iFirstPtr : BitVec 64
  /-- `*pCsr->pPrevMergePtr`. -/
  iPrevMergePtr : BitVec 64
  /-- The pages of the b-tree that `mergeWorkerPushHierarchy` persists, if it is called. -/
  hier : List (Image pFS)

variable (pFS) in
def keyszToSkip (nKey : ℕ) : ℕ := min (nKey * 4 / pFS.nPagesize) 3

def PGFTR_SKIP_NEXT_FLAG : ℕ := 0x0002

def PGFTR_SKIP_THIS_FLAG : ℕ := 0x0004

/-- The page for the next record: the current one if the header fits on it. -/
def mergeWorkerPage (w : MergeWorker pFS) (a : WriteArgs pFS) : MergeWorker pFS :=
  let nRec := pageGetNRec w.file.db w.pPage
  let iRPtr := a.cell.iPtr - pageGetPtr w.file.db w.pPage
  let nHdr := (cellHeader iRPtr a.cell).length
  if w.pPage = 0 ∨ SEGMENT_EOF (nData pFS w.pPage) (nRec + 1) < w.iOutputOff + nHdr then
    mergeWorkerNextPage sup w a.iPrevMergePtr
  else w

/-- The first key of a page goes to the b-tree, unless keys are skipped.  Also the flags for
the footer. -/
def mergeWorkerPush (w : MergeWorker pFS) (a : WriteArgs pFS) : MergeWorker pFS × ℕ :=
  let w' : MergeWorker pFS :=
    if w.nSkip = 0 then
      { w.persist sup a.hier with nSkip := keyszToSkip pFS a.cell.pKey.length }
    else { w with nSkip := w.nSkip - 1 }
  (w', (if w.nSkip = 0 then 0 else PGFTR_SKIP_THIS_FLAG) |||
    if w'.nSkip = 0 then 0 else PGFTR_SKIP_NEXT_FLAG)

/-- The footer entry and the header of a record, which gets the pointer relative to that of
the page. -/
def mergeWorkerHeader (w : MergeWorker pFS) (c : Cell) (flags : ℕ) : MergeWorker pFS :=
  let nRec := pageGetNRec w.file.db w.pPage
  let aHdr := cellHeader (c.iPtr - pageGetPtr w.file.db w.pPage) c
  let db := putCell w.file.db w.pPage nRec w.iOutputOff flags
  { w with
    file := { w.file with db := putData db w.pPage w.iOutputOff aHdr }
    iOutputOff := w.iOutputOff + aHdr.length }

/-- A record.  New pages get its pointer: `iFPtr + iRPtr` is `iPtr`. -/
def mergeWorkerCell (w : MergeWorker pFS) (c : Cell) (flags : ℕ) : MergeWorker pFS :=
  let iFPtr := pageGetPtr w.file.db w.pPage
  let iRPtr := c.iPtr - iFPtr
  let w := mergeWorkerData sup (mergeWorkerHeader w c flags) (iFPtr + iRPtr) c.pKey
  if rtIsWrite c.eType then mergeWorkerData sup w (iFPtr + iRPtr) c.pVal else w

/-- The first page of the segment, if there is none. -/
def mergeWorkerFirst (w : MergeWorker pFS) (a : WriteArgs pFS) : MergeWorker pFS :=
  if w.file.iFirst = 0 ∧ w.pPage = 0 then mergeWorkerNextPage sup w a.iFirstPtr else w

/-- The first record of a segment does not go to the b-tree.  The number of records is that of
the page. -/
def mergeWorkerWrite (w : MergeWorker pFS) (a : WriteArgs pFS) : MergeWorker pFS :=
  let bFirst := w.file.iFirst = 0 ∧ w.pPage = 0
  let w := mergeWorkerPage sup (mergeWorkerFirst sup w a) a
  if pageGetNRec w.file.db w.pPage = 0 ∧ ¬ bFirst then
    mergeWorkerCell sup (mergeWorkerPush sup w a).1 a.cell (mergeWorkerPush sup w a).2
  else mergeWorkerCell sup w a.cell 0

/-- The writer before the first record. -/
def MergeWorker.init (db : Db pFS) : MergeWorker pFS := ⟨.empty db, 0, 0, 0⟩

variable {sup}

theorem le_lsmFsSortedAppend (s : SegFile pFS) : s.nAlloc ≤ (lsmFsSortedAppend sup s).nAlloc := by
  unfold lsmFsSortedAppend appendBlock
  dsimp only
  split_ifs <;> dsimp only <;> omega

theorem le_lsmFsPagePersist (s : SegFile pFS) (img : Image pFS) :
    s.nAlloc ≤ (lsmFsPagePersist sup s img).nAlloc := by
  unfold lsmFsPagePersist
  dsimp only
  split_ifs <;> dsimp only <;> omega

theorem le_mergeWorkerLoop (iFPtr : BitVec 64) (fuel : ℕ) (w : MergeWorker pFS)
    (aWrite : List UInt8) :
    w.file.nAlloc ≤ (mergeWorkerLoop sup iFPtr fuel w aWrite).file.nAlloc := by
  induction fuel generalizing w aWrite with
  | zero => exact le_rfl
  | succ fuel ih =>
      rw [mergeWorkerLoop]
      split_ifs
      · exact le_rfl
      · dsimp only
        split_ifs
        · exact le_rfl
        · refine le_trans ?_ (ih _ _)
          exact @le_lsmFsSortedAppend _ sup (w.put _ _).file

theorem le_persist (w : MergeWorker pFS) (hier : List (Image pFS)) :
    w.file.nAlloc ≤ (w.persist sup hier).file.nAlloc := by
  unfold MergeWorker.persist
  dsimp only
  induction hier generalizing w with
  | nil => exact le_rfl
  | cons img hier ih =>
      exact (le_lsmFsPagePersist w.file img).trans (ih ⟨lsmFsPagePersist sup w.file img, 0, 0, 0⟩)

theorem le_mergeWorkerData (w : MergeWorker pFS) (iFPtr : BitVec 64) (aWrite : List UInt8) :
    w.file.nAlloc ≤ (mergeWorkerData sup w iFPtr aWrite).file.nAlloc :=
  le_mergeWorkerLoop iFPtr _ w aWrite

theorem le_mergeWorkerCell (w : MergeWorker pFS) (c : Cell) (flags : ℕ) :
    w.file.nAlloc ≤ (mergeWorkerCell sup w c flags).file.nAlloc := by
  have hkey := @le_mergeWorkerData _ sup (mergeWorkerHeader w c flags)
    (pageGetPtr w.file.db w.pPage + (c.iPtr - pageGetPtr w.file.db w.pPage)) c.pKey
  unfold mergeWorkerCell
  dsimp only
  split_ifs
  · exact hkey.trans (le_mergeWorkerData _ _ _)
  · exact hkey

theorem le_mergeWorkerPush (w : MergeWorker pFS) (a : WriteArgs pFS) :
    w.file.nAlloc ≤ (mergeWorkerPush sup w a).1.file.nAlloc := by
  unfold mergeWorkerPush
  dsimp only
  split_ifs
  · exact le_persist w a.hier
  · exact le_rfl

theorem SmallBlocks.of_le {s s' : SegFile pFS} (h : SmallBlocks sup s')
    (hle : s.nAlloc ≤ s'.nAlloc) : SmallBlocks sup s := fun i hi => h i (hi.trans_le hle)

/-! ### What the pages hold while a segment is written -/

/-- A finished page of a segment: of the b-tree, or full of records. -/
def PageShows (db : Db pFS) : ℕ × Option Leaf → Prop
  | (iPg, none) => pageGetFlags db iPg &&& SEGMENT_BTREE_FLAG ≠ 0
  | (iPg, some l) => Shows db iPg l ∧ l.body.length + 14 + 2 * l.cells.length = nData pFS iPg

/-- The leaves among the pages of a segment. -/
def leaves (items : List (ℕ × Option Leaf)) : List Leaf := items.filterMap Prod.snd

variable (sup) in
/-- The state of a segment between two steps of the writer: the finished pages, the current
leaf, the pages of the b-tree behind it, and the records written but for the bytes `tail`. -/
structure Writing (w : MergeWorker pFS) (tail : List UInt8) (front : List (ℕ × Option Leaf))
    (cur : Leaf) (trees : List ℕ) (cs : List Cell) : Prop where
  grown : Grown sup w.file (front.map Prod.fst ++ w.pPage :: trees)
  onFront : ∀ x ∈ front, PageShows w.file.db x
  onTrees : ∀ p ∈ trees, PageShows w.file.db (p, none)
  onCur : Shows w.file.db w.pPage cur
  off : w.iOutputOff = cur.body.length
  spells : Spells tail (leaves front ++ [cur]) cs

theorem PageShows.congr {db db' : Db pFS} {x : ℕ × Option Leaf} (h : PageShows db x)
    (hpage : db'.page x.1 = db.page x.1) : PageShows db' x := by
  obtain ⟨iPg, _ | l⟩ := x
  · have hflags : pageGetFlags db' iPg = pageGetFlags db iPg :=
      congrArg fromBe (getData_congr hpage _ _)
    show pageGetFlags db' iPg &&& SEGMENT_BTREE_FLAG ≠ 0
    rw [hflags]
    exact h
  · exact ⟨h.1.congr hpage, h.2⟩

/-- A segment whose links are the same in another file. -/
theorem Grown.congr {s : SegFile pFS} {pages : List ℕ} (h : Grown sup s pages) {db : Db pFS}
    (hsame : ∀ p ∈ pages, SameLinks s.db db p) : Grown sup { s with db } pages where
  first := h.first
  last := h.last
  data := h.data
  nodup := h.nodup
  chain := h.chain.imp_of_mem_imp fun a b ha hb hab => hab.congr (hsame a ha) (hsame b hb)
  fresh := h.fresh
  small := h.small
  below := h.below
  next hlast := by
    obtain ⟨i, hi, hblock, hother⟩ := h.next hlast
    exact ⟨i, hi, ((hsame _ h.iLastPg_mem).1 hlast).trans hblock, hother⟩

variable {w : MergeWorker pFS} {tail : List UInt8} {front : List (ℕ × Option Leaf)} {cur : Leaf}
  {trees : List ℕ} {cs : List Cell}

theorem Writing.page_ne (h : Writing sup w tail front cur trees cs) :
    (∀ x ∈ front, x.1 ≠ w.pPage) ∧ ∀ p ∈ trees, p ≠ w.pPage := by
  have hnodup := h.grown.nodup
  rw [List.nodup_append] at hnodup
  obtain ⟨-, htail, hdisj⟩ := hnodup
  refine ⟨fun x hx => ?_, fun p hp heq => ?_⟩
  · exact hdisj _ (List.mem_map_of_mem hx) _ List.mem_cons_self
  · exact (List.nodup_cons.mp htail).1 (heq ▸ hp)

/-- A step that changes only the current page. -/
theorem Writing.onPage (h : Writing sup w tail front cur trees cs) {db : Db pFS} {cur' : Leaf}
    {tail' : List UInt8} {cs' : List Cell} {iOff : ℕ} (hoff : iOff = cur'.body.length)
    (hframe : ∀ i, i ≠ w.pPage → db.page i = w.file.db.page i)
    (hsame : SameLinks w.file.db db w.pPage) (hshows : Shows db w.pPage cur')
    (hspells : Spells tail' (leaves front ++ [cur']) cs') :
    Writing sup { w with file := { w.file with db }, iOutputOff := iOff } tail' front cur' trees
      cs' := by
  obtain ⟨hfront, htrees⟩ := h.page_ne
  refine ⟨h.grown.congr fun p hp => ?_, fun x hx => (h.onFront x hx).congr (hframe _ (hfront x hx)),
    fun p hp => (h.onTrees p hp).congr (hframe _ (htrees p hp)), hshows, hoff, hspells⟩
  by_cases hpage : p = w.pPage
  · rw [hpage]
    exact hsame
  · exact .of_page (hframe p hpage)

/-- Bytes of a record go to the current page. -/
theorem Writing.put {data : List UInt8} (h : Writing sup w (data ++ tail) front cur trees cs)
    (hroom : cur.body.length + data.length + 14 + 2 * cur.cells.length ≤ nData pFS w.pPage) :
    Writing sup { w.put w.iOutputOff data with iOutputOff := w.iOutputOff + data.length } tail
      front { cur with body := cur.body ++ data } trees cs := by
  refine h.onPage (by rw [h.off, List.length_append]) (fun i hi => Db.write_page_of_ne hi) ?_ ?_
    h.spells.grow
  · rw [h.off]
    exact sameLinks_putData (by omega) _
  · rw [h.off]
    exact h.onCur.putBody _ hroom

theorem SameLinks.trans {db db' db'' : Db pFS} {iPg : ℕ} (h : SameLinks db db' iPg)
    (h' : SameLinks db' db'' iPg) : SameLinks db db'' iPg :=
  ⟨fun hl => (h'.1 hl).trans (h.1 hl), fun hf => (h'.2 hf).trans (h.2 hf)⟩

theorem sameLinks_putFooter (db : Db pFS) (iPg : ℕ) (iFPtr : BitVec 64) (i : ℕ) :
    SameLinks db (putFooter db iPg iFPtr) i := by
  have hge := nData_ge pFS iPg
  unfold putFooter
  refine .trans (.trans (sameLinks_putData ?_ i) (sameLinks_putData ?_ i)) (sameLinks_putData ?_ i)
  all_goals
    simp only [beBytes_length, SEGMENT_NRECORD_OFFSET, SEGMENT_FLAGS_OFFSET,
      SEGMENT_POINTER_OFFSET]
    omega

theorem sameLinks_putCell {db : Db pFS} {iPg nRec : ℕ} (iOff flags : ℕ)
    (hroom : 14 + 2 * (nRec + 1) ≤ nData pFS iPg) (i : ℕ) :
    SameLinks db (putCell db iPg nRec iOff flags) i := by
  have hmost : SameLinks db (putData (putData db iPg (SEGMENT_NRECORD_OFFSET (nData pFS iPg))
      (beBytes 2 (nRec + 1))) iPg (SEGMENT_CELLPTR_OFFSET (nData pFS iPg) nRec)
        (beBytes 2 iOff)) i := by
    refine .trans (sameLinks_putData ?_ i) (sameLinks_putData ?_ i)
    all_goals
      simp only [beBytes_length, SEGMENT_NRECORD_OFFSET, SEGMENT_CELLPTR_OFFSET]
      omega
  unfold putCell
  dsimp only
  split_ifs
  · refine hmost.trans (sameLinks_putData ?_ i)
    rw [beBytes_length]
    unfold SEGMENT_FLAGS_OFFSET
    omega
  · exact hmost

/-! ### A new page -/

/-- A finished page of records and pages of the b-tree behind it. -/
theorem leaves_front (front : List (ℕ × Option Leaf)) (iPg : ℕ) (l : Leaf) (trees : List ℕ) :
    leaves (front ++ (iPg, some l) :: trees.map fun p => (p, none)) = leaves front ++ [l] := by
  simp [leaves]

theorem pages_front (front : List (ℕ × Option Leaf)) (iPg : ℕ) (l : Leaf) (trees : List ℕ) :
    (front ++ (iPg, some l) :: trees.map fun p => (p, none)).map Prod.fst =
      front.map Prod.fst ++ iPg :: trees := by
  simp [Function.comp_def]

/-- The current page counts as finished. -/
theorem Writing.finish (h : Writing sup w tail front cur trees cs)
    (hfull : tail = [] ∨ cur.body.length + 14 + 2 * cur.cells.length = nData pFS w.pPage) :
    ∃ l, Spells tail (leaves (front ++ (w.pPage, some l) :: trees.map fun p => (p, none))) cs ∧
      ∀ x ∈ front ++ (w.pPage, some l) :: trees.map fun p => (p, none),
        PageShows w.file.db x := by
  obtain ⟨body, hbody, hlen, hshows⟩ := h.onCur.fill
  refine ⟨{ cur with body }, ?_, fun x hx => ?_⟩
  · rw [leaves_front]
    rcases hfull with rfl | hfull
    · exact h.spells.fill hbody
    · have heq : cur.body = body := hbody.eq_of_length (by omega)
      rw [← heq]
      exact h.spells
  · rw [List.mem_append, List.mem_cons, List.mem_map] at hx
    rcases hx with hx | rfl | ⟨p, hp, rfl⟩
    · exact h.onFront x hx
    · exact ⟨hshows, hlen⟩
    · exact h.onTrees p hp

/-- **The next page.**  A record that goes on there must have filled the current one. -/
theorem Writing.nextPage (hroomy : RoomyBlocks pFS) (h : Writing sup w tail front cur trees cs)
    (hfull : tail = [] ∨ cur.body.length + 14 + 2 * cur.cells.length = nData pFS w.pPage)
    (iFPtr : BitVec 64) (hsmall : SmallBlocks sup (mergeWorkerNextPage sup w iFPtr).file) :
    ∃ front', Writing sup (mergeWorkerNextPage sup w iFPtr) tail front' ⟨iFPtr, [], []⟩ [] cs := by
  obtain ⟨l, hspells, hshows⟩ := h.finish hfull
  have hadd := added_lsmFsSortedAppend hroomy h.grown
  have hgrown := h.grown.extend hroomy hadd hsmall
  have hnew := (h.grown.new_page hroomy hadd hsmall).2.1
  refine ⟨front ++ (w.pPage, some l) :: trees.map fun p => (p, none), ?_,
    fun x hx => (hshows x hx).congr ?_, fun p hp => absurd hp List.not_mem_nil,
    shows_putFooter _ _ _, rfl, hspells.newLeaf iFPtr⟩
  · rw [pages_front]
    exact hgrown.congr fun p _ => sameLinks_putFooter _ _ _ p
  · have hne : x.1 ≠ (lsmFsSortedAppend sup w.file).iLastPg := by
      rintro heq
      have hmem := List.mem_map_of_mem (f := Prod.fst) hx
      rw [pages_front, heq] at hmem
      exact hnew hmem
    exact (putFooter_page_of_ne hne).trans (hadd.frame _ hne)

/-- The flags of a page of the b-tree, behind the pointer to the previous block. -/
theorem readBytes_shifted (img : Image pFS) (iBlk : ℕ) :
    readBytes (beBytes 4 iBlk ++ readBytes img.aData 0 (pFS.nPagesize - 4))
      (4 + SEGMENT_FLAGS_OFFSET (pFS.nPagesize - 4)) 2 =
      readBytes img.aData (SEGMENT_FLAGS_OFFSET (pFS.nPagesize - 4)) 2 := by
  have hpage := pFS.pagesize_ok.1
  have hin : SEGMENT_FLAGS_OFFSET (pFS.nPagesize - 4) + 2 ≤ pFS.nPagesize - 4 := by
    unfold SEGMENT_FLAGS_OFFSET
    omega
  have hadd := readBytes_append_add (beBytes 4 iBlk) (readBytes img.aData 0 (pFS.nPagesize - 4))
    (by rwa [readBytes_length] : SEGMENT_FLAGS_OFFSET (pFS.nPagesize - 4) + 2 ≤ _)
  rw [beBytes_length] at hadd
  rw [hadd, readBytes_readBytes hin, Nat.zero_add]

/-- The flags of a page of the b-tree that got four bytes more. -/
theorem readBytes_lsmSortedExpandBtreePage (img : Image pFS) :
    readBytes (lsmSortedExpandBtreePage img) (SEGMENT_FLAGS_OFFSET pFS.nPagesize) 2 =
      readBytes img.aData (SEGMENT_FLAGS_OFFSET (pFS.nPagesize - 4)) 2 := by
  have hpage := pFS.pagesize_ok.1
  have hsize := img.size
  unfold lsmSortedExpandBtreePage
  dsimp only
  generalize hhdr : SEGMENT_EOF (pFS.nPagesize - 4) _ = iHdr
  have hle : iHdr + 14 ≤ pFS.nPagesize - 4 := by
    rw [← hhdr, SEGMENT_EOF, SEGMENT_CELLPTR_OFFSET]
    omega
  have hat : SEGMENT_FLAGS_OFFSET pFS.nPagesize = iHdr + 4 + (pFS.nPagesize - 8 - iHdr) := by
    unfold SEGMENT_FLAGS_OFFSET
    omega
  rw [hat, readBytes_written, readBytes_readBytes]
  · congr 1
    unfold SEGMENT_FLAGS_OFFSET
    omega
  · omega
  · rw [readBytes_length, hsize]
    omega
  · rw [readBytes_length]
    omega

/-- A page of the b-tree is marked as such wherever it goes. -/
theorem pageShows_lsmFsPagePersist (hroomy : RoomyBlocks pFS) {s : SegFile pFS}
    {pages : List ℕ} (h : Grown sup s pages) (img : Image pFS) :
    PageShows (lsmFsPagePersist sup s img).db ((lsmFsPagePersist sup s img).iLastPg, none) := by
  obtain ⟨-, -, -, hfirst, hnot⟩ := next_page hroomy h
  have hpage := pFS.pagesize_ok.1
  have hsize := img.size
  -- it is enough to find the flags of the buffer where the page has its own
  suffices hflags : pageGetFlags (lsmFsPagePersist sup s img).db
      (lsmFsPagePersist sup s img).iLastPg =
      fromBe (readBytes img.aData (SEGMENT_FLAGS_OFFSET (pFS.nPagesize - 4)) 2) by
    show pageGetFlags _ _ &&& SEGMENT_BTREE_FLAG ≠ 0
    rw [hflags]
    exact img.btree
  unfold lsmFsPagePersist pageGetFlags getData
  apply congrArg fromBe
  dsimp only
  by_cases hlast : fsIsLast pFS s.iLastPg
  · have hf := hfirst hlast
    rw [pageAfter, if_pos hlast] at hf
    rw [if_pos hlast, fsBlockNext_eq s.db hlast, Db.write_page, dataOff, nData, if_pos hf,
      if_pos (.inr hf)]
    have hlen : (beBytes 4 (fsPageToBlock pFS s.iLastPg) ++
        readBytes img.aData 0 (pFS.nPagesize - 4)).length = pFS.nPagesize := by
      rw [List.length_append, beBytes_length, readBytes_length]
      omega
    rw [← Nat.zero_add (4 + _), readBytes_written, readBytes_shifted]
    · rw [hlen, s.db.size, Nat.zero_add]
    · rw [hlen, SEGMENT_FLAGS_OFFSET]
      omega
  · have hnf := hnot hlast
    rw [pageAfter, if_neg hlast] at hnf
    rw [if_neg hlast]
    by_cases hl : fsIsLast pFS (s.iLastPg + 1)
    · rw [if_pos hl]
      dsimp only
      rw [Db.write_page, dataOff, nData, if_neg hnf, if_pos (.inl hl),
        readBytes_written]
      · apply readBytes_congr
        apply agreeOn_writeBytes
        unfold SEGMENT_FLAGS_OFFSET
        omega
      · rw [writeBytes_length, hsize, s.db.size, Nat.zero_add]
      · rw [writeBytes_length, hsize, SEGMENT_FLAGS_OFFSET]
        omega
    · rw [if_neg hl]
      dsimp only
      rw [Db.write_page, dataOff, nData, if_neg hnf, if_neg (not_or.mpr ⟨hl, hnf⟩),
        readBytes_written, readBytes_lsmSortedExpandBtreePage]
      · rw [lsmSortedExpandBtreePage, writeBytes_length, hsize, s.db.size, Nat.zero_add]
      · rw [lsmSortedExpandBtreePage, writeBytes_length, hsize, SEGMENT_FLAGS_OFFSET]
        omega

/-- A page of the b-tree behind the current page. -/
theorem Writing.persistOne (hroomy : RoomyBlocks pFS)
    (h : Writing sup w tail front cur trees cs) (img : Image pFS)
    (hsmall : SmallBlocks sup (lsmFsPagePersist sup w.file img)) :
    Writing sup { w with file := lsmFsPagePersist sup w.file img } tail front cur
      (trees ++ [(lsmFsPagePersist sup w.file img).iLastPg]) cs := by
  have hadd := added_lsmFsPagePersist hroomy h.grown img
  have hgrown := h.grown.extend hroomy hadd hsmall
  have hnew := (h.grown.new_page hroomy hadd hsmall).2.1
  have hframe : ∀ p ∈ front.map Prod.fst ++ w.pPage :: trees,
      (lsmFsPagePersist sup w.file img).db.page p = w.file.db.page p :=
    fun p hp => hadd.frame p fun heq => hnew (heq ▸ hp)
  refine ⟨?_, fun x hx => (h.onFront x hx).congr (hframe _ ?_), fun p hp => ?_,
    h.onCur.congr (hframe _ ?_), h.off, h.spells⟩
  · rw [List.append_assoc, List.cons_append] at hgrown
    exact hgrown
  · exact List.mem_append_left _ (List.mem_map_of_mem hx)
  · rcases List.mem_append.mp hp with hp | hp
    · exact (h.onTrees p hp).congr (hframe p (List.mem_append_right _ (List.mem_cons_of_mem _ hp)))
    · rw [List.mem_singleton.mp hp]
      exact pageShows_lsmFsPagePersist hroomy h.grown img
  · exact List.mem_append_right _ List.mem_cons_self

theorem Writing.persist (hroomy : RoomyBlocks pFS) {hier : List (Image pFS)}
    (h : Writing sup w tail front cur trees cs)
    (hsmall : SmallBlocks sup (w.persist sup hier).file) :
    ∃ trees', Writing sup (w.persist sup hier) tail front cur trees' cs := by
  induction hier generalizing w trees with
  | nil => exact ⟨trees, h⟩
  | cons img hier ih =>
      have hone := h.persistOne hroomy img (hsmall.of_le
        (@le_persist _ sup ⟨lsmFsPagePersist sup w.file img, 0, 0, 0⟩ hier))
      exact ih hone hsmall

/-! ### Records -/

/-- **The header of a record**, which fits on the page together with its footer entry. -/
theorem Writing.header (h : Writing sup w [] front cur trees cs) {c : Cell} {flags : ℕ}
    (hroom : cur.body.length + (cellHeader (c.iPtr - cur.iPtr) c).length + 14 +
      2 * (cur.cells.length + 1) ≤ nData pFS w.pPage)
    (hflags : flags < 65536 ∧ flags &&& SEGMENT_BTREE_FLAG = 0) :
    ∃ cur', Writing sup (mergeWorkerHeader w c flags) (c.pKey ++ c.pVal) front cur' trees
      (cs ++ [c]) := by
  have hle := nData_lt pFS w.pPage
  have hcell := h.onCur.putCell w.iOutputOff flags
    (by rw [h.off]; omega) (by omega) hflags
  have hbody := hcell.putBody (cellHeader (c.iPtr - cur.iPtr) c)
    (by simp only [List.length_append, List.length_singleton]; omega)
  rw [← h.onCur.ptr] at hbody hroom
  rw [← h.onCur.nRec] at hbody
  dsimp only at hbody
  rw [← h.off] at hbody
  refine ⟨_, h.onPage (by rw [h.off, List.length_append]) (fun i hi => ?_) ?_ hbody ?_⟩
  · exact (Db.write_page_of_ne hi).trans (putCell_page_of_ne hi)
  · refine .trans (sameLinks_putCell _ _ ?_ _) (sameLinks_putData ?_ _)
    · rw [h.onCur.nRec]
      omega
    · rw [h.off]
      omega
  · rw [h.off, h.onCur.ptr]
    exact h.spells.newCell

/-- **The key or the value of a record**, over as many pages as it takes. -/
theorem Writing.loop (hroomy : RoomyBlocks pFS) (iFPtr : BitVec 64) {fuel : ℕ}
    {data : List UInt8} (h : Writing sup w (data ++ tail) front cur trees cs)
    (hfuel : data.length < fuel ∨ data.length ≤ fuel ∧
      cur.body.length + 14 + 2 * cur.cells.length < nData pFS w.pPage)
    (hsmall : SmallBlocks sup (mergeWorkerLoop sup iFPtr fuel w data).file) :
    ∃ front' cur' trees',
      Writing sup (mergeWorkerLoop sup iFPtr fuel w data) tail front' cur' trees' cs := by
  induction fuel generalizing w front cur trees data with
  | zero =>
      obtain rfl : data = [] := List.length_eq_zero_iff.mp (by omega)
      exact ⟨front, cur, trees, h⟩
  | succ fuel ih =>
      rw [mergeWorkerLoop] at hsmall ⊢
      by_cases hnil : data = []
      · rw [if_pos hnil]
        subst hnil
        exact ⟨front, cur, trees, h⟩
      rw [if_neg hnil] at hsmall ⊢
      dsimp only at hsmall ⊢
      have hroom := h.onCur.room
      have hspace : SEGMENT_EOF (nData pFS w.pPage) (pageGetNRec w.file.db w.pPage) -
          w.iOutputOff = nData pFS w.pPage - 14 - 2 * cur.cells.length - cur.body.length := by
        rw [h.onCur.nRec, h.off, SEGMENT_EOF, SEGMENT_CELLPTR_OFFSET]
        omega
      rw [hspace] at hsmall ⊢
      generalize hcopy : min data.length
        (nData pFS w.pPage - 14 - 2 * cur.cells.length - cur.body.length) = nCopy at hsmall ⊢
      have hsplit : data.take nCopy ++ (data.drop nCopy ++ tail) = data ++ tail := by
        rw [← List.append_assoc, List.take_append_drop]
      have hlen : (data.take nCopy).length = nCopy := by
        rw [List.length_take]
        omega
      rw [← hsplit] at h
      have hput := h.put (by rw [hlen]; omega)
      by_cases hrest : data.drop nCopy = []
      · rw [if_pos hrest]
        rw [hrest, List.nil_append, hlen] at hput
        exact ⟨_, _, _, hput⟩
      · -- the page is full, and the rest goes to the next one
        rw [if_neg hrest] at hsmall ⊢
        have hdrop := List.length_pos_of_ne_nil hrest
        rw [List.length_drop] at hdrop
        have hfull : (cur.body ++ data.take nCopy).length + 14 + 2 * cur.cells.length =
            nData pFS w.pPage := by
          rw [List.length_append, hlen]
          omega
        obtain ⟨front', hnext⟩ := hput.nextPage hroomy (.inr hfull) iFPtr
          (hsmall.of_le (le_mergeWorkerLoop _ _ _ _))
        refine ih hnext (.inr ⟨?_, ?_⟩) hsmall
        · rw [List.length_drop]
          omega
        · have hge := nData_ge pFS
            (mergeWorkerNextPage sup (w.put w.iOutputOff (data.take nCopy)) iFPtr).pPage
          simp only [List.length_nil]
          omega

theorem Writing.data (hroomy : RoomyBlocks pFS) (iFPtr : BitVec 64) {data : List UInt8}
    (h : Writing sup w (data ++ tail) front cur trees cs)
    (hsmall : SmallBlocks sup (mergeWorkerData sup w iFPtr data).file) :
    ∃ front' cur' trees',
      Writing sup (mergeWorkerData sup w iFPtr data) tail front' cur' trees' cs :=
  h.loop hroomy iFPtr (.inl (Nat.lt_succ_self _)) hsmall

/-- A whole record. -/
theorem Writing.cell (hroomy : RoomyBlocks pFS) (h : Writing sup w [] front cur trees cs)
    {c : Cell} {flags : ℕ}
    (hroom : cur.body.length + (cellHeader (c.iPtr - cur.iPtr) c).length + 14 +
      2 * (cur.cells.length + 1) ≤ nData pFS w.pPage)
    (hflags : flags < 65536 ∧ flags &&& SEGMENT_BTREE_FLAG = 0)
    (hsmall : SmallBlocks sup (mergeWorkerCell sup w c flags).file) :
    ∃ front' cur' trees',
      Writing sup (mergeWorkerCell sup w c flags) [] front' cur' trees' (cs ++ [c]) := by
  obtain ⟨cur', hheader⟩ := h.header hroom hflags
  unfold mergeWorkerCell at hsmall ⊢
  dsimp only at hsmall ⊢
  cases hw : rtIsWrite c.eType with
  | true =>
      rw [hw, if_pos rfl] at hsmall
      rw [if_pos rfl]
      rw [← List.append_nil (c.pKey ++ c.pVal), List.append_assoc] at hheader
      obtain ⟨_, _, _, hkey⟩ := hheader.data hroomy _ (hsmall.of_le (le_mergeWorkerData _ _ _))
      exact hkey.data hroomy _ hsmall
  | false =>
      rw [hw, if_neg Bool.false_ne_true] at hsmall
      rw [if_neg Bool.false_ne_true]
      rw [c.val_nil hw] at hheader
      exact hheader.data hroomy _ hsmall

/-! ### A run of writes -/

theorem cellHeader_pos (iRPtr : BitVec 64) (c : Cell) : 0 < (cellHeader iRPtr c).length := by
  rw [cellHeader, List.length_cons]
  exact Nat.succ_pos _

theorem Writing.pPage_ne (hroomy : RoomyBlocks pFS) (h : Writing sup w tail front cur trees cs) :
    w.pPage ≠ 0 := by
  have hpos := hroomy.pages.1
  have hdata := h.grown.data w.pPage (List.mem_append_right _ List.mem_cons_self)
  omega

/-- The page for a record has room for its header. -/
theorem Writing.page (hroomy : RoomyBlocks pFS) (h : Writing sup w [] front cur trees cs)
    (a : WriteArgs pFS) (hsmall : SmallBlocks sup (mergeWorkerPage sup w a).file) :
    ∃ front' cur' trees', Writing sup (mergeWorkerPage sup w a) [] front' cur' trees' cs ∧
      cur'.body.length + (cellHeader (a.cell.iPtr - cur'.iPtr) a.cell).length + 14 +
        2 * (cur'.cells.length + 1) ≤ nData pFS (mergeWorkerPage sup w a).pPage := by
  have hpos := cellHeader_pos (a.cell.iPtr - cur.iPtr) a.cell
  unfold mergeWorkerPage at hsmall ⊢
  dsimp only at hsmall ⊢
  rw [h.onCur.ptr, h.onCur.nRec, h.off] at hsmall ⊢
  split_ifs at hsmall ⊢ with hfull
  · obtain ⟨front', hnext⟩ := h.nextPage hroomy (.inl rfl) a.iPrevMergePtr hsmall
    refine ⟨front', _, [], hnext, ?_⟩
    have hge := nData_ge pFS (mergeWorkerNextPage sup w a.iPrevMergePtr).pPage
    have hlen := cellHeader_length (a.cell.iPtr - a.iPrevMergePtr) a.cell
    simp only [List.length_nil]
    omega
  · refine ⟨front, cur, trees, h, ?_⟩
    rw [not_or, not_lt, SEGMENT_EOF, SEGMENT_CELLPTR_OFFSET] at hfull
    omega

theorem Writing.skip (h : Writing sup w tail front cur trees cs) (nSkip : ℕ) :
    Writing sup { w with nSkip } tail front cur trees cs :=
  ⟨h.grown, h.onFront, h.onTrees, h.onCur, h.off, h.spells⟩

/-- The flags of a footer never mark a page as one of the b-tree. -/
theorem mergeWorkerPush_flags (w : MergeWorker pFS) (a : WriteArgs pFS) :
    (mergeWorkerPush sup w a).2 < 65536 ∧
      (mergeWorkerPush sup w a).2 &&& SEGMENT_BTREE_FLAG = 0 := by
  unfold mergeWorkerPush PGFTR_SKIP_THIS_FLAG PGFTR_SKIP_NEXT_FLAG SEGMENT_BTREE_FLAG
  dsimp only
  split_ifs <;> decide

theorem Writing.push (hroomy : RoomyBlocks pFS) (h : Writing sup w [] front cur trees cs)
    (a : WriteArgs pFS) (hsmall : SmallBlocks sup (mergeWorkerPush sup w a).1.file) :
    (mergeWorkerPush sup w a).1.pPage = w.pPage ∧
      ∃ trees', Writing sup (mergeWorkerPush sup w a).1 [] front cur trees' cs := by
  unfold mergeWorkerPush at hsmall ⊢
  dsimp only at hsmall ⊢
  split_ifs at hsmall ⊢
  · obtain ⟨trees', hpersist⟩ := h.persist hroomy hsmall
    exact ⟨rfl, trees', hpersist.skip _⟩
  · exact ⟨rfl, trees, h.skip _⟩

/-- A record, on the page that was found for it. -/
theorem Writing.record (hroomy : RoomyBlocks pFS) (h : Writing sup w [] front cur trees cs)
    (a : WriteArgs pFS) (push : Prop) [Decidable push]
    (hsmall : SmallBlocks sup (if push then
      mergeWorkerCell sup (mergeWorkerPush sup w a).1 a.cell (mergeWorkerPush sup w a).2
      else mergeWorkerCell sup w a.cell 0).file)
    (hroom : cur.body.length + (cellHeader (a.cell.iPtr - cur.iPtr) a.cell).length + 14 +
        2 * (cur.cells.length + 1) ≤ nData pFS w.pPage) :
    ∃ front' cur' trees', Writing sup (if push then
      mergeWorkerCell sup (mergeWorkerPush sup w a).1 a.cell (mergeWorkerPush sup w a).2
      else mergeWorkerCell sup w a.cell 0) [] front' cur' trees' (cs ++ [a.cell]) := by
  split_ifs at hsmall ⊢
  · obtain ⟨hpage, trees', hpush⟩ := h.push hroomy a (hsmall.of_le (le_mergeWorkerCell _ _ _))
    rw [← hpage] at hroom
    exact hpush.cell hroomy hroom (mergeWorkerPush_flags w a) hsmall
  · exact h.cell hroomy hroom ⟨by decide, rfl⟩ hsmall

/-- **A record behind others.** -/
theorem Writing.write (hroomy : RoomyBlocks pFS) (h : Writing sup w [] front cur trees cs)
    (a : WriteArgs pFS) (hsmall : SmallBlocks sup (mergeWorkerWrite sup w a).file) :
    ∃ front' cur' trees',
      Writing sup (mergeWorkerWrite sup w a) [] front' cur' trees' (cs ++ [a.cell]) := by
  have hfirst : mergeWorkerFirst sup w a = w := if_neg fun hno => h.pPage_ne hroomy hno.2
  unfold mergeWorkerWrite at hsmall ⊢
  dsimp only at hsmall ⊢
  rw [hfirst] at hsmall ⊢
  have hpage : SmallBlocks sup (mergeWorkerPage sup w a).file := by
    refine hsmall.of_le ?_
    split_ifs
    · exact (le_mergeWorkerPush _ a).trans (le_mergeWorkerCell _ _ _)
    · exact le_mergeWorkerCell _ _ _
  obtain ⟨_, _, _, hon, hroom⟩ := h.page hroomy a hpage
  exact hon.record hroomy a _ hsmall hroom

end Seg

end Lsm

end MoVeBench
