/-
MoVeBench/Lsm/SegmentTrip.lean

Records that are written to a segment and read back.

Where the meta pages leave room on block 1, a scan of the segment gives the records that were
written, in order or in reverse (`roundTrip_of_roomy`).  What the pages show gives the cells
that the reader loads (`exists_loads`), and the links between them the order in which it does
(`Grown.walk`).
-/
import MoVeBench.Lsm.SegmentRead

namespace MoVeBench

namespace Lsm

namespace Seg

open Bytes

variable {pFS : FileSystem} {db : Db pFS} {pSeg : Segment}

/-! ### What is written and what is read -/

/-- The type, the key, the value and the absolute pointer of a record. -/
def Cell.record (c : Cell) : UInt8 × List UInt8 × List UInt8 × BitVec 64 :=
  (c.eType, c.pKey, c.pVal, c.iPtr)

/-- The same, of a pointer into a segment. -/
def SegmentPtr.record (p : SegmentPtr) : UInt8 × List UInt8 × List UInt8 × BitVec 64 :=
  (p.eType, p.pKey, p.pVal, p.iPtr + p.iPgPtr)

theorem record_ptrTo (iPg : ℕ) (l : Leaf) (iCell : ℕ) (c : Cell) :
    (ptrTo iPg l iCell c).record = c.record := by
  have hptr : l.iPtr + (c.iPtr - l.iPtr) = c.iPtr := by
    rw [BitVec.add_comm, BitVec.sub_add_cancel]
  rw [SegmentPtr.record, ptrTo, hptr, Cell.record]

/-- **The pages of a segment have the records that their leaves spell.** -/
theorem exists_loads {fuel : ℕ} {items : List (ℕ × Option Leaf)} {cs : List Cell}
    (h : Reach db pSeg items) (hspells : Spells [] (leaves items) cs)
    (hfuel : items.length + 1 ≤ fuel) :
    ∃ xs : List (ℕ × List SegmentPtr), xs.map Prod.fst = items.map Prod.fst ∧
      (∀ x ∈ xs, Loads db pSeg fuel x) ∧
      (xs.flatMap Prod.snd).map SegmentPtr.record = cs.map Cell.record := by
  induction items generalizing cs with
  | nil =>
      have hnil : cs = [] := hspells
      exact ⟨[], rfl, fun _ hx => absurd hx List.not_mem_nil, by rw [hnil]; rfl⟩
  | cons x items ih =>
      rw [List.length_cons] at hfuel
      have hsuffix := h.suffix [x]
      obtain ⟨iPg, _ | l⟩ := x
      · have hskip : leaves ((iPg, none) :: items) = leaves items := by simp [leaves]
        rw [hskip] at hspells
        obtain ⟨xs, hpages, hloads, hrecords⟩ := ih hsuffix hspells (by omega)
        refine ⟨(iPg, []) :: xs, congrArg (iPg :: ·) hpages, ?_, hrecords⟩
        rw [List.forall_mem_cons]
        refine ⟨⟨.inl ⟨rfl, .inr ?_⟩, fun i hi => absurd hi (Nat.not_lt_zero i)⟩, hloads⟩
        exact h.shows (iPg, none) List.mem_cons_self
      · have hcons : leaves ((iPg, some l) :: items) = l :: leaves items := by simp [leaves]
        rw [hcons] at hspells
        obtain ⟨cs1, cs2, rfl, hcells, hrest⟩ := hspells
        rw [List.append_nil] at hcells
        obtain ⟨xs, hpages, hloads, hrecords⟩ := ih hsuffix hrest (by omega)
        have hlen := hcells.length_eq
        have hshows := (h.shows (iPg, some l) List.mem_cons_self).1
        refine ⟨(iPg, cs1.mapIdx (ptrTo iPg l)) :: xs, congrArg (iPg :: ·) hpages, ?_, ?_⟩
        · rw [List.forall_mem_cons]
          refine ⟨⟨?_, fun i hi => ?_⟩, hloads⟩
          · have hnrec : pageGetNRec db iPg = (cs1.mapIdx (ptrTo iPg l)).length := by
              rw [hshows.nRec, List.length_mapIdx, hlen]
            by_cases hnil : cs1.mapIdx (ptrTo iPg l) = []
            · exact .inl ⟨hnil, .inl (by rw [hnrec, hnil]; rfl)⟩
            · refine .inr ⟨hnil, ?_, hnrec⟩
              rintro (hzero | hflags)
              · rw [hnrec] at hzero
                exact hnil (List.length_eq_zero_iff.mp hzero)
              · exact hflags hshows.flags
          · have hi1 : i < cs1.length := by simpa using hi
            have hi2 : i < l.cells.length := by omega
            have hcell := hcells.get hi2 hi1
            have hload := segmentPtrLoadCell_eq h (by omega) hi2 hcell
            simp only [List.getElem_mapIdx]
            exact ⟨hload, rfl, rfl⟩
        · rw [List.flatMap_cons, List.map_append, List.map_append, hrecords]
          congr 1
          apply List.ext_getElem
          · simp
          · intro i hi1 hi2
            simp [record_ptrTo]

/-! ### Every run, where the meta pages leave room on block 1 -/

variable {sup : Supply pFS}

/-- The records that a cursor reads: all, or all but the separators. -/
def written (bIgnore : Bool) (cs : List Cell) :
    List (UInt8 × List UInt8 × List UInt8 × BitVec 64) :=
  (cs.map Cell.record).filter fun r => !(bIgnore && rtIsSeparator r.1)

theorem Grown.walk {s : SegFile pFS} {pages : List ℕ} (h : Grown sup s pages) (bReverse : Bool) :
    Walk (fun p => some (lsmFsDbPageNext s.db ⟨s.iFirst, s.iLastPg⟩ bReverse p))
      (ordered bReverse pages) := by
  cases bReverse with
  | false =>
      refine walk_of_chain (h.chain.imp fun _ _ hab => hab.1) (fun p hp => ?_) h.nodup
      have hp' : p ∈ pages.getLast? := hp
      rw [h.last, Option.mem_some_iff] at hp'
      exact hp'.symm
  | true =>
      refine walk_of_chain ?_ (fun p hp => ?_)
        (List.nodup_reverse.mpr h.nodup)
      · exact List.isChain_reverse.mpr (h.chain.imp fun _ _ hab => hab.2)
      · have hp' : p ∈ pages.reverse.getLast? := hp
        rw [List.getLast?_reverse, h.first, Option.mem_some_iff] at hp'
        exact hp'.symm

theorem ordered_map {α β : Type} (bReverse : Bool) (f : α → β) (l : List α) :
    (ordered bReverse l).map f = ordered bReverse (l.map f) := by
  cases bReverse
  · rfl
  · exact List.map_reverse

theorem ordered_filter {α : Type} (bReverse : Bool) (p : α → Bool) (l : List α) :
    (ordered bReverse l).filter p = ordered bReverse (l.filter p) := by
  cases bReverse
  · rfl
  · exact List.filter_reverse

theorem records_ordered (bReverse : Bool) (xs : List (ℕ × List SegmentPtr)) :
    records bReverse (ordered bReverse xs) = ordered bReverse (xs.flatMap Prod.snd) := by
  cases bReverse
  · rfl
  · show xs.reverse.flatMap (fun x => x.2.reverse) = (xs.flatMap Prod.snd).reverse
    rw [List.flatMap_reverse]
    simp [Function.comp_def]

theorem kept_record (bIgnore : Bool) (l : List SegmentPtr) :
    (kept bIgnore l).map SegmentPtr.record =
      (l.map SegmentPtr.record).filter fun r => !(bIgnore && rtIsSeparator r.1) := by
  rw [List.filter_map]
  rfl

/-- **A segment that was written is read back.** -/
theorem Writing.scan {w : MergeWorker pFS} {front : List (ℕ × Option Leaf)} {cur : Leaf}
    {trees : List ℕ} {cs : List Cell} (h : Writing sup w [] front cur trees cs)
    (bIgnore bReverse : Bool) : ∃ n, ∀ fuel, n ≤ fuel →
      (segmentScan w.file.db ⟨w.file.iFirst, w.file.iLastPg⟩ bIgnore bReverse fuel).map
        (List.map SegmentPtr.record) = some (ordered bReverse (written bIgnore cs)) := by
  obtain ⟨l, hspells, hshows⟩ := h.finish (.inl rfl)
  generalize hitems : front ++ (w.pPage, some l) :: trees.map (fun p => (p, none)) = items at *
  have hpages : items.map Prod.fst = front.map Prod.fst ++ w.pPage :: trees := by
    rw [← hitems, pages_front]
  have hgrown := h.grown
  rw [← hpages] at hgrown
  refine ⟨items.length + cs.length + 1, fun fuel hfuel => ?_⟩
  obtain ⟨xs, hfst, hloads, hrecords⟩ :=
    exists_loads ⟨hgrown.walk false, hshows⟩ hspells (show items.length + 1 ≤ fuel by omega)
  have hxs : xs.length = items.length := by
    have hlen := congrArg List.length hfst
    rwa [List.length_map, List.length_map] at hlen
  have hcount : (xs.flatMap Prod.snd).length = cs.length := by
    have hlen := congrArg List.length hrecords
    rwa [List.length_map, List.length_map] at hlen
  have hwalk := hgrown.walk bReverse
  rw [← hfst, ← ordered_map] at hwalk
  rw [segmentScan_eq bIgnore hwalk, Option.map_some, kept_record, records_ordered,
    ordered_map, hrecords, ordered_filter]
  · rfl
  · intro x hx
    apply hloads x
    cases bReverse with
    | false => exact hx
    | true => exact List.mem_reverse.mp hx
  · rw [ordered_length]
    omega
  · rw [records_ordered, ordered_length]
    omega
  · rw [ordered_map, hfst]
    cases bReverse with
    | false => exact hgrown.first
    | true =>
        show (items.map Prod.fst).reverse.head? = some w.file.iLastPg
        rw [List.head?_reverse]
        exact hgrown.last

end Seg

end Lsm

end MoVeBench
