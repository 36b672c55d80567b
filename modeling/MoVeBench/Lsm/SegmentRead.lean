/-
MoVeBench/Lsm/SegmentRead.lean

The reader of a segment (`segmentPtrLoadCell`, `segmentPtrAdvance`, `segmentPtrEnd` and
`sortedReadData` of `lsm_sorted.c`).

A pointer into a segment stands on a cell of a page and has the record of that cell.  It moves
to the next cell of the page, or to the next page with cells, where pages of the b-tree and
pages that only go on with a record are passed over.  The key and the value of a record are
collected over the pages that follow.  Where the pages show leaves that spell records, the
reader finds exactly these, in either direction (`segmentScan_eq`).

All loops take a bound on their turns; `none` stands for an error.
-/
import MoVeBench.Lsm.SegmentWrite

namespace MoVeBench

namespace Lsm

namespace Seg

open Bytes

variable {pFS : FileSystem}

/-! ### The reader -/

/-- The first and the last page of a segment. -/
structure Segment where
  iFirst : ℕ
  iLastPg : ℕ

variable (db : Db pFS) (pSeg : Segment)

/-- `lsmFsDbPageNext`, `none` at the end of the segment. -/
def lsmFsDbPageNext (bReverse : Bool) (iPg : ℕ) : Option ℕ :=
  if bReverse then (if iPg = pSeg.iFirst then none else some (pageBefore db iPg))
  else if iPg = pSeg.iLastPg then none else some (pageAfter db iPg)

/-- The next page that is not of the b-tree, in `sortedReadData`.  The end of the segment is
an error there. -/
def nextRecordPage : ℕ → ℕ → Option ℕ
  | 0, _ => none
  | fuel + 1, iPg =>
      match lsmFsDbPageNext db pSeg false iPg with
      | none => none
      | some pNext =>
          if pageGetFlags db pNext &&& SEGMENT_BTREE_FLAG ≠ 0 then nextRecordPage fuel pNext
          else some pNext

/-- The loop of `sortedReadData`. -/
def sortedReadLoop : ℕ → ℕ → ℕ → ℕ → Option (List UInt8)
  | 0, _, _, _ => none
  | fuel + 1, iPg, i, nRem =>
      let iEnd := SEGMENT_EOF (nData pFS iPg) (pageGetNRec db iPg)
      let nCopy := min nRem (iEnd - i)
      if nRem - nCopy = 0 then some (getData db iPg i nCopy)
      else do
        let pNext ← nextRecordPage db pSeg fuel iPg
        let rest ← sortedReadLoop fuel pNext (i + nCopy - iEnd) (nRem - nCopy)
        return getData db iPg i nCopy ++ rest

def sortedReadData (fuel iPg iOff nByte : ℕ) : Option (List UInt8) :=
  if iOff + nByte ≤ SEGMENT_EOF (nData pFS iPg) (pageGetNRec db iPg) then
    some (getData db iPg iOff nByte)
  else sortedReadLoop db pSeg fuel iPg iOff nByte

/-- A pointer to a record of a segment. -/
structure SegmentPtr where
  pPg : ℕ
  iCell : ℕ
  /-- The pointer in the footer of the page. -/
  iPtr : BitVec 64
  eType : UInt8
  iPgPtr : BitVec 64
  pKey : List UInt8
  pVal : List UInt8

/-- `segmentPtrLoadCell` on a page; an error where the cell is not within the page. -/
def segmentPtrLoadCell (fuel iPg iNew : ℕ) : Option SegmentPtr :=
  let nPgsz := nData pFS iPg
  if nPgsz < 14 + 2 * (iNew + 1) then none
  else do
    let iOff := pageGetCell db iPg iNew
    let (eType, iPgPtr, nKey, nVal, nHdr) ← loadHeader (getData db iPg iOff (nPgsz - iOff))
    let pKey ← sortedReadData db pSeg fuel iPg (iOff + nHdr) nKey
    let pVal ←
      if rtIsWrite eType then sortedReadData db pSeg fuel iPg (iOff + nHdr + nKey) nVal
      else some []
    return ⟨iPg, iNew, pageGetPtr db iPg, eType, iPgPtr, pKey, pVal⟩

/-- A page that a pointer does not stop at. -/
abbrev noCells (iPg : ℕ) : Prop :=
  pageGetNRec db iPg = 0 ∨ pageGetFlags db iPg &&& SEGMENT_BTREE_FLAG ≠ 0

/-- The next page with cells: `segmentPtrNextPage` until there is one. -/
def nextCellPage (bReverse : Bool) : ℕ → ℕ → Option (Option ℕ)
  | 0, _ => none
  | fuel + 1, iPg =>
      match lsmFsDbPageNext db pSeg bReverse iPg with
      | none => some none
      | some pNext =>
          if noCells db pNext then nextCellPage bReverse fuel pNext else some (some pNext)

/-- The first record of a page, or the last one. -/
def enterPage (bReverse : Bool) (fuel : ℕ) : Option ℕ → Option (Option SegmentPtr)
  | none => some none
  | some iPg => do
      let p ← segmentPtrLoadCell db pSeg fuel iPg
        (if bReverse then pageGetNRec db iPg - 1 else 0)
      return some p

/-- One turn of `segmentPtrAdvance`, for a segment that is the left-hand side of its level. -/
def advanceOnce (bReverse : Bool) (fuel : ℕ) (p : SegmentPtr) : Option (Option SegmentPtr) :=
  if (if bReverse then p.iCell = 0 else pageGetNRec db p.pPg ≤ p.iCell + 1) then do
    let pNext ← nextCellPage db pSeg bReverse fuel p.pPg
    enterPage db pSeg bReverse fuel pNext
  else do
    let q ← segmentPtrLoadCell db pSeg fuel p.pPg
      (if bReverse then p.iCell - 1 else p.iCell + 1)
    return some q

/-- A record that the cursor passes over: it does where `segmentPtrIgnoreSeparators`. -/
abbrev ignored (bIgnore : Bool) (p : SegmentPtr) : Bool := bIgnore && rtIsSeparator p.eType

def segmentPtrAdvance (bIgnore bReverse : Bool) (fuel : ℕ) :
    ℕ → SegmentPtr → Option (Option SegmentPtr)
  | 0, _ => none
  | n + 1, p => do
      match ← advanceOnce db pSeg bReverse fuel p with
      | none => return none
      | some q =>
          if ignored bIgnore q then segmentPtrAdvance bIgnore bReverse fuel n q else return some q

/-- `segmentPtrEnd` before separators are passed over. -/
def segmentPtrEnter (bLast : Bool) (fuel : ℕ) : Option (Option SegmentPtr) := do
  let pNew := if bLast then pSeg.iLastPg else pSeg.iFirst
  let pPg ← if noCells db pNew then nextCellPage db pSeg bLast fuel pNew else some (some pNew)
  enterPage db pSeg bLast fuel pPg

def segmentPtrEnd (bIgnore bLast : Bool) (fuel : ℕ) : Option (Option SegmentPtr) := do
  match ← segmentPtrEnter db pSeg bLast fuel with
  | none => return none
  | some p =>
      if ignored bIgnore p then segmentPtrAdvance db pSeg bIgnore bLast fuel fuel p
      else return some p

/-- All records from a pointer on. -/
def scanFrom (bIgnore bReverse : Bool) (fuel : ℕ) : ℕ → Option SegmentPtr → Option (List SegmentPtr)
  | 0, _ => none
  | _ + 1, none => some []
  | n + 1, some p => do
      let q ← segmentPtrAdvance db pSeg bIgnore bReverse fuel fuel p
      let l ← scanFrom bIgnore bReverse fuel n q
      return p :: l

/-- All records of a segment, from the first to the last or in reverse. -/
def segmentScan (bIgnore bReverse : Bool) (fuel : ℕ) : Option (List SegmentPtr) := do
  let p ← segmentPtrEnd db pSeg bIgnore bReverse fuel
  scanFrom db pSeg bIgnore bReverse fuel fuel p

/-! ### Walking along a list -/

/-- Each element of a list leads to the next, and the last one to the end. -/
def Walk {α : Type} (next : α → Option (Option α)) : List α → Prop
  | [] => True
  | a :: l => next a = some l.head? ∧ Walk next l

theorem Walk.drop {α : Type} {next : α → Option (Option α)} {l l' : List α}
    (h : Walk next (l ++ l')) : Walk next l' := by
  induction l with
  | nil => exact h
  | cons a l ih => exact ih h.2

/-- A chain of pages, ending with a page that is recognised. -/
theorem walk_of_chain {next : ℕ → ℕ} {stop : ℕ} {l : List ℕ}
    (hchain : l.IsChain fun a b => next a = b) (hlast : ∀ p ∈ l.getLast?, p = stop)
    (hnodup : l.Nodup) :
    Walk (fun p => some (if p = stop then none else some (next p))) l := by
  induction l with
  | nil => trivial
  | cons p l ih =>
      obtain ⟨hp, hnodup'⟩ := List.nodup_cons.mp hnodup
      cases l with
      | nil =>
          have hp : p = stop := hlast p rfl
          refine ⟨?_, trivial⟩
          show some (if p = stop then none else some (next p)) = some none
          rw [if_pos hp]
      | cons q l =>
          rw [List.isChain_cons_cons] at hchain
          rw [List.getLast?_cons_cons] at hlast
          refine ⟨?_, ih hchain.2 hlast hnodup'⟩
          have hmem := List.getLast_mem (List.cons_ne_nil q l)
          have hstop := hlast _ (List.getLast?_eq_getLast_of_ne_nil (List.cons_ne_nil q l))
          rw [hstop] at hmem
          have hne : p ≠ stop := fun heq => hp (heq ▸ hmem)
          show some (if p = stop then none else some (next p)) = some (some q)
          rw [if_neg hne, hchain.1]

/-! ### The data of a record -/

variable {db pSeg}

variable (db pSeg) in
/-- Pages that show leaves, each leading to the next. -/
structure Reach (items : List (ℕ × Option Leaf)) : Prop where
  walk : Walk (fun p => some (lsmFsDbPageNext db pSeg false p)) (items.map Prod.fst)
  shows : ∀ x ∈ items, PageShows db x

theorem Reach.suffix (items : List (ℕ × Option Leaf)) {items' : List (ℕ × Option Leaf)}
    (h : Reach db pSeg (items ++ items')) :
    Reach db pSeg items' := by
  refine ⟨?_, fun x hx => h.shows x (List.mem_append_right _ hx)⟩
  have hwalk := h.walk
  rw [List.map_append] at hwalk
  exact hwalk.drop

/-- The next page of records. -/
theorem nextRecordPage_eq {fuel iPg : ℕ} {o : Option Leaf} {after : List (ℕ × Option Leaf)}
    (h : Reach db pSeg ((iPg, o) :: after)) (hfuel : after.length < fuel)
    (hleaf : leaves after ≠ []) :
    ∃ q l after', nextRecordPage db pSeg fuel iPg = some q ∧ leaves after = l :: leaves after' ∧
      after'.length < after.length ∧ Reach db pSeg ((q, some l) :: after') := by
  induction fuel generalizing iPg o after with
  | zero => omega
  | succ fuel ih =>
      rcases after with _ | ⟨⟨q, o'⟩, after⟩
      · exact absurd rfl hleaf
      have hnext : lsmFsDbPageNext db pSeg false iPg = some q := Option.some.inj h.walk.1
      have hreach := h.suffix [(iPg, o)]
      have hshows := hreach.shows (q, o') List.mem_cons_self
      rw [List.length_cons] at hfuel
      have hstep : nextRecordPage db pSeg (fuel + 1) iPg =
          if pageGetFlags db q &&& SEGMENT_BTREE_FLAG ≠ 0 then nextRecordPage db pSeg fuel q
          else some q := by
        rw [nextRecordPage, hnext]
      cases o' with
      | none =>
          have hflags : pageGetFlags db q &&& SEGMENT_BTREE_FLAG ≠ 0 := hshows
          rw [hstep, if_pos hflags]
          have hskip : leaves ((q, none) :: after) = leaves after := by simp [leaves]
          rw [hskip] at hleaf ⊢
          obtain ⟨r, l, after', hr, hl, hlen, hafter⟩ := ih hreach (by omega) hleaf
          exact ⟨r, l, after', hr, hl, hlen.trans (Nat.lt_succ_self _), hafter⟩
      | some l =>
          rw [hstep, if_neg (not_not.mpr hshows.1.flags)]
          exact ⟨q, l, after, rfl, by simp [leaves], Nat.lt_succ_self _, hreach⟩

/-- Data inside a page. -/
theorem Shows.getData_eq {iPg : ℕ} {l : Leaf} (h : Shows db iPg l) {off n : ℕ}
    (hn : off + n ≤ l.body.length) : getData db iPg off n = (l.body.drop off).take n := by
  have hbody := h.body
  obtain ⟨k, hk⟩ := Nat.exists_eq_add_of_le hn
  rw [hk, getData_append, getData_append, Nat.zero_add] at hbody
  rw [← hbody, List.append_assoc, List.drop_append_of_le_length (by rw [getData_length]),
    List.drop_of_length_le (by rw [getData_length]), List.nil_append,
    List.take_append_of_le_length (by rw [getData_length]),
    List.take_of_length_le (by rw [getData_length])]

/-- Where the data of a full page ends. -/
theorem PageShows.eof {iPg : ℕ} {l : Leaf} (h : PageShows db (iPg, some l)) :
    SEGMENT_EOF (nData pFS iPg) (pageGetNRec db iPg) = l.body.length := by
  obtain ⟨hshows, hfull⟩ := h
  rw [hshows.nRec, SEGMENT_EOF, SEGMENT_CELLPTR_OFFSET]
  omega

/-- **Data that goes on over several pages.** -/
theorem sortedReadLoop_eq {fuel iPg : ℕ} {l : Leaf} {after : List (ℕ × Option Leaf)} {i n : ℕ}
    (h : Reach db pSeg ((iPg, some l) :: after))
    (hfuel : after.length + 2 ≤ fuel)
    (hn : n ≤ ((l.body ++ stream (leaves after)).drop i).length) :
    sortedReadLoop db pSeg fuel iPg i n =
      some (((l.body ++ stream (leaves after)).drop i).take n) := by
  induction fuel generalizing iPg l after i n with
  | zero => omega
  | succ fuel ih =>
      have hpage := h.shows _ List.mem_cons_self
      rw [List.length_drop, List.length_append] at hn
      rw [sortedReadLoop]
      rw [hpage.eof]
      by_cases hin : n ≤ l.body.length - i
      · -- all of it is on this page
        rw [Nat.min_eq_left hin, Nat.sub_self, if_pos rfl]
        rcases Nat.eq_zero_or_pos n with rfl | hpos
        · rfl
        · rw [hpage.1.getData_eq (by omega), List.drop_append_of_le_length (by omega),
            List.take_append_of_le_length (by rw [List.length_drop]; omega)]
      · have hleaf : leaves after ≠ [] := by
          intro hnil
          rw [hnil, stream_nil, List.length_nil] at hn
          omega
        have hlt : after.length < fuel := by omega
        obtain ⟨q, l', after', hq, hl, hlen, hreach⟩ := nextRecordPage_eq h hlt hleaf
        rw [hl, stream_cons] at hn ⊢
        have hi : i + (l.body.length - i) - l.body.length = i - l.body.length := by omega
        have hrest : sortedReadLoop db pSeg fuel q (i - l.body.length)
            (n - (l.body.length - i)) = some (((l'.body ++ stream (leaves after')).drop
              (i - l.body.length)).take (n - (l.body.length - i))) :=
          ih hreach (by omega) (by rw [List.length_drop]; omega)
        have hhere : getData db iPg i (l.body.length - i) = l.body.drop i := by
          rcases Nat.lt_or_ge i l.body.length with hlt | hge
          · rw [hpage.1.getData_eq (by omega), List.take_of_length_le (by rw [List.length_drop])]
          · rw [Nat.sub_eq_zero_of_le hge, List.drop_eq_nil_of_le hge]
            rfl
        rw [Nat.min_eq_right (by omega), if_neg (by omega), hq, hhere, hi]
        simp only [Option.bind_eq_bind, Option.bind_some, hrest]
        generalize l'.body ++ stream (leaves after') = more
        have hmore : ((l.body ++ more).drop i).take n = l.body.drop i ++
            (more.drop (i - l.body.length)).take (n - (l.body.length - i)) := by
          rw [List.drop_append, List.take_append, List.length_drop,
            List.take_of_length_le (by rw [List.length_drop]; omega)]
        rw [hmore]
        rfl

theorem sortedReadData_eq {fuel iPg : ℕ} {l : Leaf} {after : List (ℕ × Option Leaf)} {i n : ℕ}
    (h : Reach db pSeg ((iPg, some l) :: after))
    (hfuel : after.length + 2 ≤ fuel)
    (hn : n ≤ ((l.body ++ stream (leaves after)).drop i).length) :
    sortedReadData db pSeg fuel iPg i n =
      some (((l.body ++ stream (leaves after)).drop i).take n) := by
  have hpage := h.shows _ List.mem_cons_self
  unfold sortedReadData
  rw [hpage.eof]
  split_ifs with hin
  · rw [hpage.1.getData_eq hin, List.drop_append_of_le_length (by omega),
      List.take_append_of_le_length (by rw [List.length_drop]; omega)]
  · exact sortedReadLoop_eq h hfuel hn

/-- The pointer to a record. -/
def ptrTo (iPg : ℕ) (l : Leaf) (iCell : ℕ) (c : Cell) : SegmentPtr :=
  ⟨iPg, iCell, l.iPtr, c.eType, c.iPtr - l.iPtr, c.pKey, c.pVal⟩

/-- The parts of a string of bytes. -/
theorem take_drop_parts {a b c x : List UInt8} {off : ℕ} (h : a ++ (b ++ c) <+: x.drop off) :
    (x.drop (off + a.length)).take b.length = b ∧
    (x.drop (off + a.length + b.length)).take c.length = c ∧
    b.length ≤ (x.drop (off + a.length)).length ∧
    c.length ≤ (x.drop (off + a.length + b.length)).length := by
  obtain ⟨rest, hrest⟩ := h
  have hb : x.drop (off + a.length) = b ++ (c ++ rest) := by
    rw [← List.drop_drop, ← hrest, List.append_assoc, List.drop_left, List.append_assoc]
  have hc : x.drop (off + a.length + b.length) = c ++ rest := by
    rw [← List.drop_drop, hb, List.drop_left]
  rw [hb, hc]
  refine ⟨List.take_left, List.take_left, ?_, ?_⟩
  · rw [List.length_append]
    omega
  · rw [List.length_append]
    omega

/-- **A cell is loaded.** -/
theorem segmentPtrLoadCell_eq {fuel iPg : ℕ} {l : Leaf} {after : List (ℕ × Option Leaf)}
    (h : Reach db pSeg ((iPg, some l) :: after))
    (hfuel : after.length + 2 ≤ fuel) {i : ℕ} (hi : i < l.cells.length) {c : Cell}
    (hcell : CellAt l (stream (leaves after)) l.cells[i] c) :
    segmentPtrLoadCell db pSeg fuel iPg i = some (ptrTo iPg l i c) := by
  have hpage := h.shows _ List.mem_cons_self
  obtain ⟨hshows, hfull⟩ := hpage
  obtain ⟨hheader, hbytes⟩ := hcell
  have hoff := hshows.cell i hi
  generalize l.cells[i] = off at *
  have hroom := hshows.room
  rw [← List.drop_append_of_le_length (by omega)] at hbytes
  obtain ⟨hkey, hval, hkeylen, hvallen⟩ := take_drop_parts hbytes
  -- the header lies within the page
  obtain ⟨rest, hrest⟩ : cellHeader (c.iPtr - l.iPtr) c <+:
      getData db iPg off (nData pFS iPg - off) := by
    have hhead : cellHeader (c.iPtr - l.iPtr) c <+: l.body.drop off := by
      refine List.prefix_of_prefix_length_le ((List.prefix_append _ _).trans hbytes) ?_ ?_
      · rw [List.drop_append_of_le_length (by omega)]
        exact List.prefix_append _ _
      · rw [List.length_drop]
        omega
    refine hhead.trans ?_
    obtain ⟨k, hk⟩ := Nat.exists_eq_add_of_le
      (show l.body.length - off ≤ nData pFS iPg - off by omega)
    rw [hk, getData_append, hshows.getData_eq (by omega),
      List.take_of_length_le (by rw [List.length_drop])]
    exact List.prefix_append _ _
  rw [segmentPtrLoadCell]
  dsimp only
  rw [if_neg (by omega), hoff, ← hrest, loadHeader_cellHeader]
  simp only [Option.bind_eq_bind, Option.bind_some, sortedReadData_eq h hfuel hkeylen, hkey]
  cases hw : rtIsWrite c.eType with
  | true =>
      rw [if_pos rfl, sortedReadData_eq h hfuel hvallen, hval, hshows.ptr]
      rfl
  | false =>
      rw [if_neg Bool.false_ne_true, hshows.ptr, ptrTo, c.val_nil hw]
      rfl

/-! ### From record to record -/

/-- The order in which a list is read. -/
def ordered {α : Type} (bReverse : Bool) (l : List α) : List α := if bReverse then l.reverse else l

theorem ordered_length {α : Type} (bReverse : Bool) (l : List α) :
    (ordered bReverse l).length = l.length := by
  cases bReverse
  · rfl
  · exact List.length_reverse

variable (db pSeg) in
/-- A page with the pointers to its records. -/
structure Loads (fuel : ℕ) (x : ℕ × List SegmentPtr) : Prop where
  cells : x.2 = [] ∧ noCells db x.1 ∨
    x.2 ≠ [] ∧ ¬ noCells db x.1 ∧ pageGetNRec db x.1 = x.2.length
  load : ∀ i (h : i < x.2.length), segmentPtrLoadCell db pSeg fuel x.1 i = some x.2[i] ∧
    x.2[i].pPg = x.1 ∧ x.2[i].iCell = i

/-- The records of pages, in the order in which they are read. -/
def records (bReverse : Bool) (xs : List (ℕ × List SegmentPtr)) : List SegmentPtr :=
  xs.flatMap fun x => ordered bReverse x.2

/-- A page with cells is entered at its first record. -/
theorem Loads.enter {fuel : ℕ} {x : ℕ × List SegmentPtr}
    (h : Loads db pSeg fuel x) (bReverse : Bool) (hne : x.2 ≠ []) :
    enterPage db pSeg bReverse fuel (some x.1) = some (ordered bReverse x.2).head? := by
  have hpos := List.length_pos_of_ne_nil hne
  obtain ⟨-, -, hnrec⟩ : x.2 ≠ [] ∧ ¬ noCells db x.1 ∧ pageGetNRec db x.1 = x.2.length :=
    h.cells.resolve_left fun hnil => hne hnil.1
  rw [enterPage, hnrec]
  cases bReverse with
  | false =>
      rw [if_neg Bool.false_ne_true, (h.load 0 hpos).1]
      simp only [Option.bind_eq_bind, Option.bind_some, ordered, Bool.false_eq_true, if_false,
        List.head?_eq_getElem?, List.getElem?_eq_getElem hpos]
      rfl
  | true =>
      rw [if_pos rfl, (h.load (x.2.length - 1) (by omega)).1]
      simp only [Option.bind_eq_bind, Option.bind_some, ordered, if_true, List.head?_reverse,
        List.getLast?_eq_getElem?,
        List.getElem?_eq_getElem (show x.2.length - 1 < x.2.length by omega)]
      rfl

/-- The first record behind a page. -/
theorem nextCellPage_eq {fuel n iPg : ℕ} {bReverse : Bool} {xs : List (ℕ × List SegmentPtr)}
    (hwalk : Walk (fun p => some (lsmFsDbPageNext db pSeg bReverse p)) (iPg :: xs.map Prod.fst))
    (hloads : ∀ x ∈ xs, Loads db pSeg fuel x) (hn : xs.length < n) :
    (nextCellPage db pSeg bReverse n iPg).bind (enterPage db pSeg bReverse fuel) =
      some (records bReverse xs).head? := by
  induction n generalizing iPg xs with
  | zero => omega
  | succ n ih =>
      have hnext : lsmFsDbPageNext db pSeg bReverse iPg = (xs.map Prod.fst).head? :=
        Option.some.inj hwalk.1
      rcases xs with _ | ⟨x, xs⟩
      · rw [nextCellPage, hnext]
        rfl
      have hstep : nextCellPage db pSeg bReverse (n + 1) iPg =
          if noCells db x.1 then nextCellPage db pSeg bReverse n x.1 else some (some x.1) := by
        rw [nextCellPage, hnext]
        rfl
      have hx := hloads x List.mem_cons_self
      rw [List.length_cons] at hn
      rcases hx.cells with ⟨hnil, hno⟩ | ⟨hne, hcells, -⟩
      · rw [hstep, if_pos hno, ih hwalk.2 (fun y hy => hloads y (List.mem_cons_of_mem _ hy))
          (by omega), records, records, List.flatMap_cons, hnil]
        cases bReverse <;> rfl
      · have hpos : ordered bReverse x.2 ≠ [] := by
          apply List.ne_nil_of_length_pos
          rw [ordered_length]
          exact List.length_pos_of_ne_nil hne
        rw [hstep, if_neg hcells, Option.bind_some, hx.enter bReverse hne, records,
          List.flatMap_cons, List.head?_append_of_ne_nil _ hpos]

/-- **One step goes to the next record.** -/
theorem advanceOnce_eq {fuel : ℕ} {bReverse : Bool} {x : ℕ × List SegmentPtr}
    {xs : List (ℕ × List SegmentPtr)}
    (hwalk : Walk (fun p => some (lsmFsDbPageNext db pSeg bReverse p))
      ((x :: xs).map Prod.fst))
    (hloads : ∀ y ∈ x :: xs, Loads db pSeg fuel y) (hfuel : xs.length < fuel)
    {j : ℕ} (hj : j < (ordered bReverse x.2).length) :
    advanceOnce db pSeg bReverse fuel (ordered bReverse x.2)[j] =
      some ((ordered bReverse x.2).drop (j + 1) ++ records bReverse xs).head? := by
  have hx := hloads x List.mem_cons_self
  have hxs : ∀ y ∈ xs, Loads db pSeg fuel y :=
    fun y hy => hloads y (List.mem_cons_of_mem _ hy)
  have hnext := nextCellPage_eq hwalk hxs hfuel
  have hlen := ordered_length bReverse x.2
  have hjlen : j < x.2.length := by rwa [hlen] at hj
  have hne : x.2 ≠ [] := List.ne_nil_of_length_pos (by omega)
  obtain ⟨-, -, hnrec⟩ : x.2 ≠ [] ∧ ¬ noCells db x.1 ∧ pageGetNRec db x.1 = x.2.length :=
    hx.cells.resolve_left fun hnil => hne hnil.1
  -- at the last record of the page the next page is entered
  have hturn : (do
      let pNext ← nextCellPage db pSeg bReverse fuel x.1
      enterPage db pSeg bReverse fuel pNext) = some (records bReverse xs).head? := hnext
  cases bReverse with
  | false =>
      obtain ⟨-, hpg, hcell⟩ := hx.load j hjlen
      simp only [ordered, Bool.false_eq_true, if_false]
      rw [advanceOnce, hpg, hcell, hnrec]
      by_cases hlast : x.2.length ≤ j + 1
      · simp only [Bool.false_eq_true, if_false, if_pos hlast]
        rw [hturn, List.drop_eq_nil_of_le hlast, List.nil_append]
      · simp only [Bool.false_eq_true, if_false, if_neg hlast]
        rw [(hx.load (j + 1) (by omega)).1, List.drop_eq_getElem_cons (by omega)]
        rfl
  | true =>
      obtain ⟨-, hpg, hcell⟩ := hx.load (x.2.length - 1 - j) (by omega)
      simp only [ordered, if_true, List.getElem_reverse]
      rw [advanceOnce, hpg, hcell]
      by_cases hlast : x.2.length - 1 - j = 0
      · simp only [if_true, if_pos hlast]
        rw [hturn, List.drop_eq_nil_of_le (by rw [List.length_reverse]; omega), List.nil_append]
      · simp only [if_true, if_neg hlast]
        rw [(hx.load (x.2.length - 1 - j - 1) (by omega)).1,
          List.drop_eq_getElem_cons (by rw [List.length_reverse]; omega), List.getElem_reverse]
        simp only [Option.bind_eq_bind, Option.bind_some, List.cons_append, List.head?_cons,
          Nat.sub_sub]
        rfl

/-- Elements that each lead to the next, one list after another. -/
theorem Walk.append_of {α : Type} {next : α → Option (Option α)} {l l' : List α}
    (hl : ∀ j (hj : j < l.length), next l[j] = some (l.drop (j + 1) ++ l').head?)
    (hl' : Walk next l') : Walk next (l ++ l') := by
  induction l with
  | nil => exact hl'
  | cons a l ih =>
      refine ⟨?_, ih fun j hj => ?_⟩
      · have hzero := hl 0 (Nat.succ_pos _)
        rwa [List.getElem_cons_zero, List.drop_succ_cons, List.drop_zero] at hzero
      · have hsucc := hl (j + 1) (Nat.succ_lt_succ hj)
        rwa [List.getElem_cons_succ, List.drop_succ_cons] at hsucc

/-- **The records of a segment are walked one by one.** -/
theorem walk_records {fuel : ℕ} {bReverse : Bool} {xs : List (ℕ × List SegmentPtr)}
    (hwalk : Walk (fun p => some (lsmFsDbPageNext db pSeg bReverse p)) (xs.map Prod.fst))
    (hloads : ∀ x ∈ xs, Loads db pSeg fuel x) (hfuel : xs.length ≤ fuel) :
    Walk (advanceOnce db pSeg bReverse fuel) (records bReverse xs) := by
  induction xs with
  | nil => trivial
  | cons x xs ih =>
      rw [List.length_cons] at hfuel
      rw [records, List.flatMap_cons]
      apply Walk.append_of
      · intro j hj
        exact advanceOnce_eq hwalk hloads (by omega) hj
      · exact ih hwalk.2 (fun y hy => hloads y (List.mem_cons_of_mem _ hy)) (by omega)

/-- The records that are not passed over. -/
def kept (bIgnore : Bool) (l : List SegmentPtr) : List SegmentPtr :=
  l.filter fun p => !ignored bIgnore p

theorem segmentPtrAdvance_eq {bIgnore bReverse : Bool} {fuel n : ℕ} {p : SegmentPtr}
    {l : List SegmentPtr} (h : Walk (advanceOnce db pSeg bReverse fuel) (p :: l))
    (hn : l.length < n) : segmentPtrAdvance db pSeg bIgnore bReverse fuel n p =
      some (kept bIgnore l).head? := by
  induction n generalizing p l with
  | zero => omega
  | succ n ih =>
      rw [segmentPtrAdvance, h.1]
      rcases l with _ | ⟨q, l⟩
      · rfl
      rw [List.length_cons] at hn
      rw [kept, List.filter_cons]
      simp only [Option.bind_eq_bind, Option.bind_some, List.head?_cons]
      cases hq : ignored bIgnore q with
      | true =>
          rw [if_pos rfl, ih h.2 (by omega)]
          rfl
      | false => rfl

theorem walk_kept {bIgnore bReverse : Bool} {fuel : ℕ} {l : List SegmentPtr}
    (h : Walk (advanceOnce db pSeg bReverse fuel) l) (hfuel : l.length ≤ fuel) :
    Walk (segmentPtrAdvance db pSeg bIgnore bReverse fuel fuel) (kept bIgnore l) := by
  induction l with
  | nil => trivial
  | cons p l ih =>
      rw [List.length_cons] at hfuel
      have hrest := ih h.2 (by omega)
      rw [kept, List.filter_cons]
      cases hp : ignored bIgnore p with
      | true => exact hrest
      | false => exact ⟨segmentPtrAdvance_eq h (by omega), hrest⟩

theorem scanFrom_eq {bIgnore bReverse : Bool} {fuel n : ℕ} {l : List SegmentPtr}
    (h : Walk (segmentPtrAdvance db pSeg bIgnore bReverse fuel fuel) l) (hn : l.length < n) :
    scanFrom db pSeg bIgnore bReverse fuel n l.head? = some l := by
  induction n generalizing l with
  | zero => omega
  | succ n ih =>
      rcases l with _ | ⟨p, l⟩
      · rfl
      rw [List.length_cons] at hn
      rw [List.head?_cons, scanFrom, h.1]
      simp only [Option.bind_eq_bind, Option.bind_some, ih h.2 (by omega)]
      rfl

theorem segmentPtrEnter_eq {bReverse : Bool} {fuel : ℕ} {xs : List (ℕ × List SegmentPtr)}
    (hwalk : Walk (fun p => some (lsmFsDbPageNext db pSeg bReverse p)) (xs.map Prod.fst))
    (hloads : ∀ x ∈ xs, Loads db pSeg fuel x) (hpages : xs.length ≤ fuel)
    (hstart : (xs.map Prod.fst).head? = some (if bReverse then pSeg.iLastPg else pSeg.iFirst)) :
    segmentPtrEnter db pSeg bReverse fuel = some (records bReverse xs).head? := by
  rcases xs with _ | ⟨x, xs⟩
  · exact absurd hstart (by simp)
  rw [List.map_cons, List.head?_cons, Option.some_inj] at hstart
  rw [List.length_cons] at hpages
  have hx := hloads x List.mem_cons_self
  rw [segmentPtrEnter, ← hstart]
  rcases hx.cells with ⟨hnil, hno⟩ | ⟨hne, hcells, -⟩
  · have hnext := nextCellPage_eq hwalk (fun y hy => hloads y (List.mem_cons_of_mem _ hy)) hpages
    rw [if_pos hno, records, List.flatMap_cons, hnil]
    refine hnext.trans ?_
    cases bReverse <;> rfl
  · have hpos : ordered bReverse x.2 ≠ [] := by
      apply List.ne_nil_of_length_pos
      rw [ordered_length]
      exact List.length_pos_of_ne_nil hne
    rw [if_neg hcells, records, List.flatMap_cons, List.head?_append_of_ne_nil _ hpos]
    exact hx.enter bReverse hne

/-- **A scan finds the records of the pages**, from either end. -/
theorem segmentScan_eq (bIgnore : Bool) {bReverse : Bool} {fuel : ℕ}
    {xs : List (ℕ × List SegmentPtr)}
    (hwalk : Walk (fun p => some (lsmFsDbPageNext db pSeg bReverse p)) (xs.map Prod.fst))
    (hloads : ∀ x ∈ xs, Loads db pSeg fuel x) (hpages : xs.length ≤ fuel)
    (hfuel : (records bReverse xs).length < fuel)
    (hstart : (xs.map Prod.fst).head? = some (if bReverse then pSeg.iLastPg else pSeg.iFirst)) :
    segmentScan db pSeg bIgnore bReverse fuel = some (kept bIgnore (records bReverse xs)) := by
  have hrecords := walk_records hwalk hloads hpages
  have hend : segmentPtrEnd db pSeg bIgnore bReverse fuel =
      some (kept bIgnore (records bReverse xs)).head? := by
    rw [segmentPtrEnd, segmentPtrEnter_eq hwalk hloads hpages hstart]
    rcases hrec : records bReverse xs with _ | ⟨p, l⟩
    · rfl
    rw [hrec] at hrecords hfuel
    rw [List.length_cons] at hfuel
    rw [kept, List.filter_cons]
    simp only [Option.bind_eq_bind, Option.bind_some, List.head?_cons]
    cases hp : ignored bIgnore p with
    | true =>
        rw [if_pos rfl, segmentPtrAdvance_eq hrecords (by omega)]
        rfl
    | false => rfl
  rw [segmentScan, hend]
  have hlen : (kept bIgnore (records bReverse xs)).length ≤ (records bReverse xs).length :=
    List.length_filter_le _ _
  exact scanFrom_eq (walk_kept hrecords (by omega)) (by omega)

end Seg

end Lsm

end MoVeBench
