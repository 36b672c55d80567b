/-
MoVeBench/Lsm/SegmentPages.lean

The pages of the blocks, and the way from one page of a segment to the next.

A segment that is being written takes its pages with `lsmFsSortedAppend` and
`lsmFsPagePersist`, and has data written to them in between (`Built`).  Where a block is larger
than the two meta pages, no page number belongs to two blocks, block 1 begins behind the meta
pages, and `lsmFsDbPageNext` visits the pages of every segment in the order in which they were
taken, or backwards in the reverse one.  Where it is not, all three fail.
-/
import MoVeBench.Lsm.SegmentWrap

namespace MoVeBench

namespace Lsm

namespace Seg

open Bytes

variable {pFS : FileSystem}

/-! ### The page numbers of a block -/

variable (pFS) in
/-- The page that a block begins with, and the pages behind it up to its last one. -/
def OnBlock (iBlock iPg : ℕ) : Prop :=
  iPg = fsFirstPageOnBlock pFS iBlock ∨
    fsFirstPageOnBlock pFS iBlock ≤ iPg ∧ iPg ≤ fsLastPageOnBlock pFS iBlock

variable (pFS) in
/-- `fsFirstPageOnBlock` and `fsLastPageOnBlock` compute with C integers, which is defined as long
as the last page of the last block is one. -/
def IntPages (nBlock : ℕ) : Prop :=
  ∀ iBlock, 1 ≤ iBlock → iBlock ≤ nBlock → fsLastPageOnBlock pFS iBlock < 2 ^ 31

variable (pFS) in
def DisjointBlocks (nBlock : ℕ) : Prop :=
  ∀ iBlock iBlock' iPg, 1 ≤ iBlock → iBlock ≤ nBlock → 1 ≤ iBlock' → iBlock' ≤ nBlock →
    OnBlock pFS iBlock iPg → OnBlock pFS iBlock' iPg → iBlock = iBlock'

variable (pFS) in
/-- Page `iPg` is at `(iPg - 1) * nPagesize` in the file, the meta pages are at its start. -/
structure BehindMeta : Prop where
  behind : ∀ iPg, OnBlock pFS 1 iPg → LSM_META_PAGE_SIZE * 2 ≤ (iPg - 1) * pFS.nPagesize
  inside : ∀ iPg, OnBlock pFS 1 iPg → iPg * pFS.nPagesize ≤ pFS.nBlocksize

theorem RoomyBlocks.onBlock (h : RoomyBlocks pFS) {iBlock iPg : ℕ} (hb : 1 ≤ iBlock)
    (hon : OnBlock pFS iBlock iPg) :
    (iBlock - 1) * nPagePerBlock pFS < iPg ∧ iPg ≤ iBlock * nPagePerBlock pFS := by
  obtain ⟨hlo, hhi⟩ := h.pages
  obtain rfl | ⟨i, rfl⟩ : iBlock = 1 ∨ ∃ i, iBlock = i + 2 := by
    rcases iBlock with _ | _ | i
    · omega
    · exact .inl rfl
    · exact .inr ⟨i, rfl⟩
  · rw [OnBlock, fsLastPageOnBlock] at hon
    rw [Nat.sub_self, zero_mul]
    rcases hon with heq | ⟨hge, hle⟩ <;> omega
  · have hmul : (i + 2) * nPagePerBlock pFS =
        (i + 1) * nPagePerBlock pFS + nPagePerBlock pFS := by ring
    rw [OnBlock, fsFirstPageOnBlock_add_two, fsLastPageOnBlock] at hon
    rw [show i + 2 - 1 = i + 1 by rfl]
    rcases hon with heq | ⟨hge, hle⟩ <;> omega

/-- **No page belongs to two blocks.** -/
theorem RoomyBlocks.disjointBlocks (h : RoomyBlocks pFS) (nBlock : ℕ) :
    DisjointBlocks pFS nBlock := by
  intro b b' iPg hb _ hb' _ hon hon'
  obtain ⟨hlo, hhi⟩ := h.onBlock hb hon
  obtain ⟨hlo', hhi'⟩ := h.onBlock hb' hon'
  have hlt := Nat.lt_of_mul_lt_mul_right (hlo.trans_le hhi')
  have hlt' := Nat.lt_of_mul_lt_mul_right (hlo'.trans_le hhi)
  omega

/-- **Block 1 begins behind the meta pages.** -/
theorem RoomyBlocks.behindMeta (h : RoomyBlocks pFS) : BehindMeta pFS := by
  obtain ⟨hblock, m, hm, -, hfirst⟩ := whole_pages pFS
  refine ⟨fun iPg hon => ?_, fun iPg hon => ?_⟩
  · have hge : fsFirstPageOnBlock pFS 1 ≤ iPg := by
      rcases hon with heq | ⟨hge, -⟩
      · exact heq.ge
      · exact hge
    rw [← hm]
    exact Nat.mul_le_mul_right _ (by omega)
  · have hle := (h.onBlock le_rfl hon).2
    rw [one_mul] at hle
    rw [← hblock]
    exact Nat.mul_le_mul_right _ hle

/-- Otherwise block 1 begins outside. -/
theorem BehindMeta.roomy (h : BehindMeta pFS) : RoomyBlocks pFS := by
  have hbehind := h.behind _ (.inl rfl)
  have hinside := h.inside _ (.inl rfl)
  have hpage := pFS.pagesize_ok.1
  have hpos : fsFirstPageOnBlock pFS 1 ≠ 0 := by
    obtain ⟨-, m, -, -, hfirst⟩ := whole_pages pFS
    omega
  have hsub := Nat.sub_mul (fsFirstPageOnBlock pFS 1) 1 pFS.nPagesize
  have hle : pFS.nPagesize ≤ fsFirstPageOnBlock pFS 1 * pFS.nPagesize :=
    Nat.le_mul_of_pos_left _ (Nat.pos_of_ne_zero hpos)
  unfold RoomyBlocks
  omega

theorem intPages_iff {nBlock : ℕ} :
    IntPages pFS nBlock ↔ nBlock * nPagePerBlock pFS < 2 ^ 31 := by
  refine ⟨fun h => ?_, fun h iBlock _ hle => ?_⟩
  · rcases nBlock with _ | n
    · rw [zero_mul]
      norm_num
    · exact h (n + 1) (Nat.succ_pos n) le_rfl
  · exact (Nat.mul_le_mul_right _ hle).trans_lt h

/-! ### The pages that a segment takes -/

/-- A segment that is being written on a file, with its pages in the order they were taken. -/
inductive Built (sup : Supply pFS) (db : Db pFS) : SegFile pFS → List ℕ → Prop
  | first : Built sup db (lsmFsSortedAppend sup (.empty db))
      [(lsmFsSortedAppend sup (.empty db)).iLastPg]
  | append {s : SegFile pFS} {pages : List ℕ} : Built sup db s pages →
      Built sup db (lsmFsSortedAppend sup s) (pages ++ [(lsmFsSortedAppend sup s).iLastPg])
  | persist {s : SegFile pFS} {pages : List ℕ} (img : Image pFS) : Built sup db s pages →
      Built sup db (lsmFsPagePersist sup s img)
        (pages ++ [(lsmFsPagePersist sup s img).iLastPg])
  /-- Data written to one of its pages. -/
  | write {s : SegFile pFS} {pages : List ℕ} {iPg off : ℕ} {data : List UInt8} :
      Built sup db s pages → iPg ∈ pages → off + data.length ≤ nData pFS iPg →
      Built sup db { s with db := putData s.db iPg off data } pages

/-- The blocks that a segment has taken, and the one it begins on, are of the database. -/
def UpTo (nBlock : ℕ) (sup : Supply pFS) (s : SegFile pFS) : Prop :=
  (sup.iAppend ≠ 0 → fsPageToBlock pFS sup.iAppend ≤ nBlock) ∧ ∀ i < s.nAlloc, sup.block i ≤ nBlock

/-- `lsmFsDbPageNext` visits the pages from `iFirst` to `iLastPg`, and back. -/
structure Iterates (s : SegFile pFS) (pages : List ℕ) : Prop where
  first : pages.head? = some s.iFirst
  last : pages.getLast? = some s.iLastPg
  visits : ∀ bReverse : Bool,
    Walk (fun iPg => some (lsmFsDbPageNext s.db ⟨s.iFirst, s.iLastPg⟩ bReverse iPg))
      (ordered bReverse pages)

variable (pFS) in
def RunsIterate (nBlock : ℕ) : Prop :=
  ∀ (sup : Supply pFS) (db : Db pFS) (s : SegFile pFS) (pages : List ℕ),
    Built sup db s pages → UpTo nBlock sup s → Iterates s pages

variable {sup : Supply pFS} {db : Db pFS} {s : SegFile pFS} {pages : List ℕ}

theorem nAlloc_le_append (s : SegFile pFS) : s.nAlloc ≤ (lsmFsSortedAppend sup s).nAlloc := by
  show s.nAlloc ≤ (appendBlock sup s).2.2
  unfold appendBlock
  dsimp only
  split_ifs
  · exact Nat.le_succ _
  · exact Nat.le_succ _
  · exact le_rfl

theorem nAlloc_le_persist (s : SegFile pFS) (img : Image pFS) :
    s.nAlloc ≤ (lsmFsPagePersist sup s img).nAlloc := by
  unfold lsmFsPagePersist
  dsimp only
  split_ifs
  · exact le_rfl
  · exact Nat.le_succ _
  · exact le_rfl

/-- **The pages of a segment stay linked**, step by step. -/
theorem Built.grown (hroomy : RoomyBlocks pFS) (h : Built sup db s pages)
    (hsmall : SmallBlocks sup s) : Grown sup s pages := by
  induction h with
  | first => exact grown_lsmFsSortedAppend hroomy db hsmall
  | append _ ih =>
      have hgrown := ih (hsmall.of_le (nAlloc_le_append _))
      exact hgrown.extend hroomy (added_lsmFsSortedAppend hroomy hgrown) hsmall
  | persist img _ ih =>
      have hgrown := ih (hsmall.of_le (nAlloc_le_persist _ img))
      exact hgrown.extend hroomy (added_lsmFsPagePersist hroomy hgrown img) hsmall
  | write _ _ hin ih => exact (ih hsmall).congr fun p _ => sameLinks_putData hin p

theorem Grown.iterates (h : Grown sup s pages) : Iterates s pages :=
  ⟨h.first, h.last, h.walk⟩

/-- **Every segment is walked in the order it was written.** -/
theorem RoomyBlocks.runsIterate (h : RoomyBlocks pFS) {nBlock : ℕ}
    (hint : IntPages pFS nBlock) : RunsIterate pFS nBlock := by
  intro sup db s pages hbuilt hup
  refine (hbuilt.grown h fun i hi => ?_).iterates
  have hlast := hint _ (sup.block_pos i) (hup.2 i hi)
  exact (Nat.le_mul_of_pos_right _ (nPagePerBlock_pos pFS)).trans_lt hlast

/-! ### A segment that comes back to its first page -/

theorem Built.iLastPg_mem (h : Built sup db s pages) : s.iLastPg ∈ pages := by
  induction h with
  | first => exact List.mem_singleton_self _
  | append => exact List.mem_append_right _ (List.mem_singleton_self _)
  | persist => exact List.mem_append_right _ (List.mem_singleton_self _)
  | write _ _ _ ih => exact ih

/-- The footer of a new page. -/
theorem Built.putFooter (h : Built sup db s pages) (iFPtr : BitVec 64) :
    Built sup db { s with db := putFooter s.db s.iLastPg iFPtr } pages := by
  have hge := nData_ge pFS s.iLastPg
  have hmem := h.iLastPg_mem
  refine .write (.write (.write h hmem ?_) hmem ?_) hmem ?_
  all_goals
    simp only [beBytes_length, SEGMENT_NRECORD_OFFSET, SEGMENT_FLAGS_OFFSET,
      SEGMENT_POINTER_OFFSET]
    omega

variable {i : ℕ} {w : MergeWorker pFS} {cur : Leaf}

/-- The segment goes on to the last page of the block. -/
theorem Filling.toLast (hi : i ≤ 1) (hsup : sup.block 1 = i + 2) {k : ℕ}
    (h : Filling i w cur) (hlo : fsFirstPageOnBlock pFS (i + 2) ≤ w.pPage)
    (hk : w.pPage + k = (i + 2) * nPagePerBlock pFS) (hbuilt : Built sup db w.file pages) :
    ∃ w' cur' pages', Filling i w' cur' ∧ fsIsLast pFS w'.pPage ∧ Built sup db w'.file pages' := by
  induction k generalizing w cur pages with
  | zero =>
      refine ⟨w, cur, pages, h, ?_, hbuilt⟩
      rw [← Nat.add_zero w.pPage, hk]
      exact ⟨Nat.mul_ne_zero (by omega) (nPagePerBlock_pos pFS).ne', Nat.mul_mod_left _ _⟩
  | succ k ih =>
      obtain ⟨hpage, hstep⟩ := h.step hi hsup hlo (by omega) 0
      exact ih hstep (by omega) (by omega) (hbuilt.append.putFooter 0)

theorem Built.ne_nil (h : Built sup db s pages) : pages ≠ [] :=
  List.ne_nil_of_mem h.iLastPg_mem

/-- **A segment whose first page is its last one again.** -/
theorem exists_back (hover : Overlap pFS i) (db : Db pFS) :
    ∃ s pages, Built (wrapSupply pFS i) db s pages ∧ s.iFirst = s.iLastPg ∧ 2 ≤ pages.length ∧
      s.nAlloc ≤ 3 := by
  obtain ⟨hpage, hfirst⟩ := filling_first hover db 0
  have hblock : (wrapSupply pFS i).block 1 = i + 2 := by
    show 1 + i + 1 = i + 2
    omega
  have hlast : fsFirstPageOnBlock pFS (i + 2) + (nPagePerBlock pFS - 1) =
      (i + 2) * nPagePerBlock pFS := by
    have hn := nPagePerBlock_pos pFS
    rw [fsFirstPageOnBlock_add_two, show i + 2 = i + 1 + 1 by rfl, add_mul (i + 1), one_mul]
    omega
  have hstart : Built (wrapSupply pFS i) db
      (mergeWorkerNextPage (wrapSupply pFS i) (.init db) 0).file
      [(lsmFsSortedAppend (wrapSupply pFS i) (.empty db)).iLastPg] := Built.first.putFooter 0
  obtain ⟨w, cur, pages, hfill, hend, hbuilt⟩ :=
    hfirst.toLast hover.1 hblock hpage.ge (by rw [hpage, hlast]) hstart
  obtain ⟨hto, hfst, halloc⟩ := hfill.back hblock hend
  refine ⟨_, _, hbuilt.append, hfst.trans hto.symm, ?_, halloc⟩
  have := List.length_pos_of_ne_nil hbuilt.ne_nil
  rw [List.length_append, List.length_singleton]
  omega

/-- It is left before its second page. -/
theorem not_iterates_of_back (hback : s.iFirst = s.iLastPg) (hlen : 2 ≤ pages.length) :
    ¬ Iterates s pages := by
  intro h
  obtain ⟨p, q, rest, rfl⟩ : ∃ p q rest, pages = p :: q :: rest := by
    match pages, hlen with
    | p :: q :: rest, _ => exact ⟨p, q, rest, rfl⟩
  have hp : p = s.iFirst := Option.some.inj h.first
  have hnext : some (lsmFsDbPageNext s.db ⟨s.iFirst, s.iLastPg⟩ false p) = some (some q) :=
    (h.visits false).1
  rw [hp, hback, lsmFsDbPageNext, if_neg Bool.false_ne_true, if_pos rfl] at hnext
  exact absurd hnext (by simp)

/-- **Where block 1 begins with a page of another block**, the first four blocks are enough for a
segment that is not walked. -/
theorem Overlap.not_runsIterate (hover : Overlap pFS i) : ¬ RunsIterate pFS 4 := by
  intro h
  obtain ⟨s, pages, hbuilt, hback, hlen, halloc⟩ := exists_back hover (.zero pFS)
  refine not_iterates_of_back hback hlen (h _ _ s pages hbuilt
    ⟨fun hne => absurd rfl hne, fun k hk => ?_⟩)
  have hi := hover.1
  show (if k = 0 then 1 else k + i + 1) ≤ 4
  split_ifs <;> omega

/-! ### Exactly the blocks that are larger than the meta pages -/

variable (pFS) in
/-- What is expected of page numbers, in a database of `nBlock` blocks. -/
structure PageLayout (nBlock : ℕ) : Prop where
  ints : IntPages pFS nBlock
  disjoint : DisjointBlocks pFS nBlock
  behindMeta : BehindMeta pFS
  runs : RunsIterate pFS nBlock

/-- **Page numbers, and segments, are as expected** exactly where a block is larger than the two
meta pages and the page numbers are C integers. -/
theorem pageLayout_iff (pFS : FileSystem) (nBlock : ℕ) :
    PageLayout pFS nBlock ↔
      2 * LSM_META_PAGE_SIZE < pFS.nBlocksize ∧ nBlock * nPagePerBlock pFS < 2 ^ 31 := by
  refine ⟨fun h => ⟨h.behindMeta.roomy, intPages_iff.mp h.ints⟩, ?_⟩
  rintro ⟨hroomy, hint⟩
  have hints := intPages_iff.mpr hint
  exact ⟨hints, RoomyBlocks.disjointBlocks hroomy nBlock, RoomyBlocks.behindMeta hroomy,
    RoomyBlocks.runsIterate hroomy hints⟩

/-- With blocks of 128 KB, page 33 begins block 1 and block 2, it is outside block 1, and there is a
segment on the first blocks that is not walked. -/
theorem not_pageLayout_smallBlocks : ¬ DisjointBlocks smallBlocks 4 ∧
    ¬ BehindMeta smallBlocks ∧ ¬ RunsIterate smallBlocks 4 := by
  have hover : Overlap smallBlocks 0 := ⟨Nat.zero_le 1, by decide⟩
  refine ⟨fun h => ?_, fun h => ?_, hover.not_runsIterate⟩
  · have := h 1 2 33 (by decide) (by decide) (by decide) (by decide) (.inl (by decide))
      (.inl (by decide))
    omega
  · have : ¬ 2 * LSM_META_PAGE_SIZE < smallBlocks.nBlocksize := by decide
    exact this h.roomy

end Seg

end Lsm

end MoVeBench
