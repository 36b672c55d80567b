/-
MoVeBench/Lsm/Redirect.lean

Blocks that are moved towards the start of the file, and the table that redirects to them.

`fsRedirectBlock` looks through the whole table, `lsmFsRedirectPage` stops at the first
source past the block it looks for.  They agree where the sources increase, and moving a
block keeps that only if the block lies before all sources.  Nothing ensures this once the
file has shrunk and grown again.
-/
import MoVeBench.Lsm.Readers

namespace MoVeBench

namespace Lsm

/-! ### Pages and blocks -/

/-- What the place of a page in the file depends on. -/
structure FileSystem where
  /-- Whether there is a compression hook; page numbers are byte offsets then. -/
  pCompress : Bool
  nBlocksize : ℕ
  nPagesize : ℕ
  nMetasize : ℕ
  nPagesize_pos : 0 < nPagesize
  nPagesize_le : nPagesize ≤ nBlocksize

abbrev Pgno := ℤ

variable (pFS : FileSystem)

def nPagePerBlock : ℤ :=
  if pFS.pCompress then pFS.nBlocksize else (pFS.nBlocksize / pFS.nPagesize : ℕ)

def fsFirstPageOnBlock (iBlock : ℤ) : Pgno :=
  if pFS.pCompress then
    if iBlock = 1 then pFS.nMetasize * 2 + 4 else pFS.nBlocksize * (iBlock - 1) + 4
  else
    if iBlock = 1 then 1 + ((pFS.nMetasize * 2 + pFS.nPagesize - 1) / pFS.nPagesize : ℕ)
    else 1 + (iBlock - 1) * nPagePerBlock pFS

def fsPageToBlock (iPg : Pgno) : ℤ :=
  if pFS.pCompress then iPg / pFS.nBlocksize + 1 else 1 + (iPg - 1) / nPagePerBlock pFS

/-- The place of a page in its block. -/
def pageOffset (iPg : Pgno) : ℤ :=
  if pFS.pCompress then iPg % pFS.nBlocksize else (iPg - 1) % nPagePerBlock pFS

theorem nPagePerBlock_pos : 0 < nPagePerBlock pFS := by
  have hblock : 0 < pFS.nBlocksize := pFS.nPagesize_pos.trans_le pFS.nPagesize_le
  unfold nPagePerBlock
  split_ifs
  · exact Int.natCast_pos.mpr hblock
  · exact Int.natCast_pos.mpr (Nat.div_pos pFS.nPagesize_le pFS.nPagesize_pos)

/-- A page some blocks before. -/
theorem fsPageToBlock_sub (iPg : Pgno) (k : ℤ) :
    fsPageToBlock pFS (iPg - k * nPagePerBlock pFS) = fsPageToBlock pFS iPg - k := by
  have hpos := nPagePerBlock_pos pFS
  unfold fsPageToBlock
  cases hc : pFS.pCompress with
  | true =>
      have hn : nPagePerBlock pFS = pFS.nBlocksize := by
        rw [nPagePerBlock, hc]
        rfl
      rw [if_pos rfl, if_pos rfl, ← hn, sub_eq_add_neg, ← neg_mul,
        Int.add_mul_ediv_right _ _ hpos.ne']
      omega
  | false =>
      rw [if_neg Bool.false_ne_true, if_neg Bool.false_ne_true, sub_right_comm, sub_eq_add_neg,
        ← neg_mul, Int.add_mul_ediv_right _ _ hpos.ne']
      omega

theorem pageOffset_sub (iPg : Pgno) (k : ℤ) :
    pageOffset pFS (iPg - k * nPagePerBlock pFS) = pageOffset pFS iPg := by
  unfold pageOffset
  cases hc : pFS.pCompress with
  | true =>
      have hn : nPagePerBlock pFS = pFS.nBlocksize := by
        rw [nPagePerBlock, hc]
        rfl
      rw [if_pos rfl, if_pos rfl, ← hn, Int.sub_mul_emod_self_right]
  | false =>
      rw [if_neg Bool.false_ne_true, if_neg Bool.false_ne_true, sub_right_comm,
        Int.sub_mul_emod_self_right]

/-- Every block but the first has a page. -/
theorem exists_page {iBlk : ℤ} (h : 1 < iBlk) : ∃ iPg, 0 < iPg ∧ fsPageToBlock pFS iPg = iBlk := by
  have hpos := nPagePerBlock_pos pFS
  have hmul : 0 < (iBlk - 1) * nPagePerBlock pFS := mul_pos (by omega) hpos
  unfold fsPageToBlock
  cases hc : pFS.pCompress with
  | true =>
      have hn : nPagePerBlock pFS = pFS.nBlocksize := by
        rw [nPagePerBlock, hc]
        rfl
      refine ⟨(iBlk - 1) * nPagePerBlock pFS, hmul, ?_⟩
      rw [if_pos rfl, ← hn, Int.mul_ediv_cancel _ hpos.ne']
      omega
  | false =>
      refine ⟨(iBlk - 1) * nPagePerBlock pFS + 1, Int.lt_add_one_of_le hmul.le, ?_⟩
      rw [if_neg Bool.false_ne_true, add_sub_cancel_right, Int.mul_ediv_cancel _ hpos.ne']
      omega

/-! ### The two lookups -/

def fsRedirectBlock : List (ℕ × ℕ) → ℤ → ℤ
  | [], iBlk => iBlk
  | e :: l, iBlk => if iBlk = e.1 then e.2 else fsRedirectBlock l iBlk

/-- The loop of `lsmFsRedirectPage`: it stops at a source past the block. -/
def redirectTo : List (ℕ × ℕ) → ℤ → Option ℕ
  | [], _ => none
  | e :: l, iBlk =>
      if iBlk < e.1 then none else if (e.1 : ℤ) = iBlk then some e.2 else redirectTo l iBlk

def lsmFsRedirectPage (pRedir : List (ℕ × ℕ)) (iPg : Pgno) : Pgno :=
  let iBlk := fsPageToBlock pFS iPg
  match redirectTo pRedir iBlk with
  | none => iPg
  | some iTo =>
      let iReal := iPg - (iBlk - iTo) * nPagePerBlock pFS
      if iTo = 1 then iReal + (fsFirstPageOnBlock pFS 1 - 1) else iReal

/-- What the two lookups are meant to have in common. -/
structure RedirectOk (pRedir : List (ℕ × ℕ)) : Prop where
  /-- No source occurs twice. -/
  nodup : (pRedir.map Prod.fst).Nodup
  /-- No target is a source. -/
  disjoint : ∀ e ∈ pRedir, ∀ e' ∈ pRedir, e.2 ≠ e'.1
  agree : ∀ iPg : Pgno, 0 < iPg → fsPageToBlock pFS (lsmFsRedirectPage pFS pRedir iPg) =
    fsRedirectBlock pRedir (fsPageToBlock pFS iPg)
  offset : ∀ iPg : Pgno, 0 < iPg →
    pageOffset pFS (lsmFsRedirectPage pFS pRedir iPg) = pageOffset pFS iPg

/-- The sources increase, and none is a target. -/
structure RedirectSorted (pRedir : List (ℕ × ℕ)) : Prop where
  sorted : pRedir.Pairwise fun a b => a.1 < b.1
  disjoint : ∀ e ∈ pRedir, ∀ e' ∈ pRedir, e.2 ≠ e'.1

section Lookups

variable {l : List (ℕ × ℕ)} {iBlk : ℤ}

theorem fsRedirectBlock_notMem (h : ∀ e ∈ l, iBlk ≠ e.1) : fsRedirectBlock l iBlk = iBlk := by
  induction l with
  | nil => rfl
  | cons e l ih =>
      rw [fsRedirectBlock, if_neg (h e List.mem_cons_self)]
      exact ih fun e' he' => h e' (List.mem_cons_of_mem _ he')

theorem fsRedirectBlock_mem (h : ∃ e ∈ l, iBlk = e.1) :
    ∃ e ∈ l, iBlk = e.1 ∧ fsRedirectBlock l iBlk = e.2 := by
  induction l with
  | nil =>
      obtain ⟨e, he, -⟩ := h
      cases he
  | cons e l ih =>
      by_cases heq : iBlk = e.1
      · exact ⟨e, List.mem_cons_self, heq, if_pos heq⟩
      · have hl : ∃ e ∈ l, iBlk = e.1 := by
          obtain ⟨e', he', heq'⟩ := h
          rcases List.mem_cons.mp he' with rfl | he'
          · exact absurd heq' heq
          · exact ⟨e', he', heq'⟩
        obtain ⟨e', he', heq', hto⟩ := ih hl
        exact ⟨e', List.mem_cons_of_mem _ he', heq', (if_neg heq).trans hto⟩

/-- Where the sources increase, stopping early makes no difference. -/
theorem redirectTo_sorted (h : l.Pairwise fun a b => a.1 < b.1) :
    fsRedirectBlock l iBlk = match redirectTo l iBlk with
      | none => iBlk
      | some iTo => (iTo : ℤ) := by
  induction l with
  | nil => rfl
  | cons e l ih =>
      obtain ⟨hfirst, hl⟩ := List.pairwise_cons.mp h
      rw [redirectTo]
      by_cases hlt : iBlk < e.1
      · rw [if_pos hlt]
        refine fsRedirectBlock_notMem fun e' he' => ?_
        rcases List.mem_cons.mp he' with rfl | he'
        · exact hlt.ne
        · have := hfirst e' he'
          omega
      · rw [if_neg hlt, fsRedirectBlock]
        by_cases heq : iBlk = e.1
        · rw [if_pos heq, if_pos heq.symm]
        · rw [if_neg heq, if_neg (Ne.symm heq)]
          exact ih hl

theorem redirectTo_mem {iTo : ℕ} (h : redirectTo l iBlk = some iTo) : ∃ e ∈ l, e.2 = iTo := by
  induction l with
  | nil => cases h
  | cons e l ih =>
      rw [redirectTo] at h
      split_ifs at h with hlt heq
      · exact ⟨e, List.mem_cons_self, Option.some.inj h⟩
      · obtain ⟨e', he', hto⟩ := ih h
        exact ⟨e', List.mem_cons_of_mem _ he', hto⟩

/-- If every source is found, the sources increase. -/
theorem sorted_of_found (hnodup : (l.map Prod.fst).Nodup)
    (h : ∀ e ∈ l, redirectTo l e.1 ≠ none) : l.Pairwise fun a b => a.1 < b.1 := by
  induction l with
  | nil => exact .nil
  | cons e l ih =>
      rw [List.map_cons] at hnodup
      obtain ⟨hnotin, hl⟩ := List.nodup_cons.mp hnodup
      have hne : ∀ e' ∈ l, e.1 ≠ e'.1 := fun e' he' heq =>
        hnotin (heq ▸ List.mem_map_of_mem he')
      have hlt : ∀ e' ∈ l, e.1 < e'.1 := fun e' he' => by
        by_contra hle
        have hcase := hne e' he'
        refine h e' (List.mem_cons_of_mem _ he') ?_
        rw [redirectTo, if_pos (by omega)]
      refine List.pairwise_cons.mpr ⟨hlt, ih hl fun e' he' hnone => ?_⟩
      refine h e' (List.mem_cons_of_mem _ he') ?_
      have hgt := hlt e' he'
      rw [redirectTo, if_neg (by omega), if_neg (by omega)]
      exact hnone

/-- **When the lookups agree**: the sources must increase, and none be a target. -/
theorem redirectOk_iff (hl : ∀ e ∈ l, 1 < e.2 ∧ e.2 < e.1) :
    RedirectOk pFS l ↔ RedirectSorted l := by
  constructor
  · intro h
    refine ⟨sorted_of_found h.nodup fun e he hnone => ?_, h.disjoint⟩
    -- a page of a source that is not found stays where it is
    have hbounds := hl e he
    obtain ⟨iPg, hpos, hblock⟩ := exists_page pFS (show (1 : ℤ) < e.1 by omega)
    have hagree := h.agree iPg hpos
    rw [lsmFsRedirectPage, hblock] at hagree
    simp only [hnone] at hagree
    obtain ⟨e', he', heq, hto⟩ := fsRedirectBlock_mem ⟨e, he, rfl⟩
    rw [hblock, hto] at hagree
    have := hl e' he'
    omega
  · intro h
    have hpage : ∀ iPg : Pgno, ∃ k : ℤ, lsmFsRedirectPage pFS l iPg =
        iPg - k * nPagePerBlock pFS ∧
          fsPageToBlock pFS iPg - k = fsRedirectBlock l (fsPageToBlock pFS iPg) := fun iPg => by
      rw [redirectTo_sorted h.sorted, lsmFsRedirectPage]
      rcases hto : redirectTo l (fsPageToBlock pFS iPg) with - | iTo
      · exact ⟨0, by simp, sub_zero _⟩
      · obtain ⟨e, he, rfl⟩ := redirectTo_mem hto
        refine ⟨fsPageToBlock pFS iPg - e.2, ?_, by simp⟩
        simp only [if_neg (hl e he).1.ne']
    refine ⟨?_, h.disjoint, fun iPg _ => ?_, fun iPg _ => ?_⟩
    · exact (List.pairwise_map.mpr h.sorted).imp fun hlt => hlt.ne
    · obtain ⟨k, hk, hblock⟩ := hpage iPg
      rw [hk, fsPageToBlock_sub, hblock]
    · obtain ⟨k, hk, -⟩ := hpage iPg
      rw [hk, pageOffset_sub]

end Lookups

/-! ### Moving blocks -/

/-- A block that is moved has a target that is no source, and it is the target of an entry
or comes before all sources. -/
def MoveOk (redirect : List (ℕ × ℕ)) (iFrom iTo : ℕ) : Prop :=
  (∀ e ∈ redirect, iTo ≠ e.1) ∧
    ((∃ e ∈ redirect, e.2 = iFrom) ∨ ∀ e ∈ redirect, iFrom < e.1)

section Moved

variable {l : List (ℕ × ℕ)} {iFrom iTo : ℕ}

variable (l iFrom iTo) in
theorem redirectOverwrite_sources :
    (redirectOverwrite iFrom iTo l).map Prod.fst = l.map Prod.fst := by
  induction l with
  | nil => rfl
  | cons e l ih =>
      rw [redirectOverwrite]
      split_ifs
      · rfl
      · rw [List.map_cons, List.map_cons, ih]

theorem mem_redirectOverwrite {e : ℕ × ℕ} (h : e ∈ redirectOverwrite iFrom iTo l) :
    e ∈ l ∨ e.2 = iTo ∧ ∃ e' ∈ l, e'.1 = e.1 ∧ e'.2 = iFrom := by
  induction l with
  | nil => cases h
  | cons e' l ih =>
      rw [redirectOverwrite] at h
      split_ifs at h with heq
      · rcases List.mem_cons.mp h with rfl | h
        · exact .inr ⟨rfl, e', List.mem_cons_self, rfl, heq⟩
        · exact .inl (List.mem_cons_of_mem _ h)
      · rcases List.mem_cons.mp h with rfl | h
        · exact .inl List.mem_cons_self
        · rcases ih h with h | ⟨hto, e'', he'', h⟩
          · exact .inl (List.mem_cons_of_mem _ h)
          · exact .inr ⟨hto, e'', List.mem_cons_of_mem _ he'', h⟩

variable (iTo) in
theorem redirectOverwrite_target (h : ∃ e ∈ l, e.2 = iFrom) :
    ∃ e ∈ redirectOverwrite iFrom iTo l, e.2 = iTo := by
  induction l with
  | nil =>
      obtain ⟨e, he, -⟩ := h
      cases he
  | cons e l ih =>
      rw [redirectOverwrite]
      split_ifs with heq
      · exact ⟨_, List.mem_cons_self, rfl⟩
      · have hl : ∃ e ∈ l, e.2 = iFrom := by
          obtain ⟨e', he', heq'⟩ := h
          rcases List.mem_cons.mp he' with rfl | he'
          · exact absurd heq' heq
          · exact ⟨e', he', heq'⟩
        obtain ⟨e', he', hto⟩ := ih hl
        exact ⟨e', List.mem_cons_of_mem _ he', hto⟩

theorem sorted_sources : (l.Pairwise fun a b => a.1 < b.1) ↔ (l.map Prod.fst).Pairwise (· < ·) :=
  List.pairwise_map.symm

/-- Both cases of `redirectMoved`. -/
theorem redirectMoved_cases (l : List (ℕ × ℕ)) (iFrom iTo : ℕ) :
    (∃ e ∈ l, e.2 = iFrom) ∧ redirectMoved l iFrom iTo = redirectOverwrite iFrom iTo l ∨
      (∀ e ∈ l, e.2 ≠ iFrom) ∧ redirectMoved l iFrom iTo = (iFrom, iTo) :: l := by
  rw [redirectMoved]
  split_ifs with h
  · obtain ⟨e, he, heq⟩ := List.any_eq_true.mp h
    exact .inl ⟨⟨e, he, of_decide_eq_true heq⟩, rfl⟩
  · refine .inr ⟨fun e he heq => h ?_, rfl⟩
    exact List.any_eq_true.mpr ⟨e, he, decide_eq_true heq⟩

/-- **One move**: a table in order stays so just if the move is a good one. -/
theorem redirectMoved_iff (hl : RedirectSorted l) (hlt : iTo < iFrom) :
    RedirectSorted (redirectMoved l iFrom iTo) ↔ MoveOk l iFrom iTo := by
  rcases redirectMoved_cases l iFrom iTo with ⟨hany, heq⟩ | ⟨hnone, heq⟩
  · -- an entry is overwritten, and the sources stay
    rw [heq]
    have hsources := redirectOverwrite_sources l iFrom iTo
    constructor
    · intro h
      refine ⟨fun e he hto => ?_, .inl hany⟩
      obtain ⟨e', he', hto'⟩ := redirectOverwrite_target iTo hany
      have hmem : e.1 ∈ (redirectOverwrite iFrom iTo l).map Prod.fst := by
        rw [hsources]
        exact List.mem_map_of_mem he
      obtain ⟨e'', he'', hfrom⟩ := List.mem_map.mp hmem
      exact h.disjoint e' he' e'' he'' (by rw [hto', hto, hfrom])
    · rintro ⟨hto, -⟩
      refine ⟨?_, fun e he e' he' => ?_⟩
      · rw [sorted_sources, hsources]
        exact sorted_sources.mp hl.sorted
      · have hmem : e'.1 ∈ l.map Prod.fst := by
          rw [← hsources]
          exact List.mem_map_of_mem he'
        obtain ⟨e'', he'', hfrom⟩ := List.mem_map.mp hmem
        rw [← hfrom]
        rcases mem_redirectOverwrite he with he | ⟨hto', -⟩
        · exact hl.disjoint e he e'' he''
        · rw [hto']
          exact hto e'' he''
  · -- a new entry comes first
    rw [heq]
    constructor
    · intro h
      refine ⟨fun e he => h.disjoint (iFrom, iTo) List.mem_cons_self e (List.mem_cons_of_mem _ he),
        .inr (List.pairwise_cons.mp h.sorted).1⟩
    · rintro ⟨hto, hfirst⟩
      have hfirst := hfirst.resolve_left fun ⟨e, he, h⟩ => hnone e he h
      refine ⟨List.pairwise_cons.mpr ⟨hfirst, hl.sorted⟩, fun e he e' he' => ?_⟩
      rcases List.mem_cons.mp he with rfl | he
      · rcases List.mem_cons.mp he' with rfl | he'
        · exact hlt.ne
        · exact hto e' he'
      · rcases List.mem_cons.mp he' with rfl | he'
        · exact hnone e he
        · exact hl.disjoint e he e' he'

/-- Blocks are moved towards the start, and not to block 1. -/
theorem redirectMoved_bounds (hl : ∀ e ∈ l, 1 < e.2 ∧ e.2 < e.1) (h : 1 < iTo) (hlt : iTo < iFrom) :
    ∀ e ∈ redirectMoved l iFrom iTo, 1 < e.2 ∧ e.2 < e.1 := by
  intro e he
  rcases redirectMoved_cases l iFrom iTo with ⟨-, heq⟩ | ⟨-, heq⟩
  · rw [heq] at he
    rcases mem_redirectOverwrite he with he | ⟨hto, e', he', hfrom, hto'⟩
    · exact hl e he
    · have := hl e' he'
      omega
  · rw [heq] at he
    rcases List.mem_cons.mp he with rfl | he
    · exact ⟨h, hlt⟩
    · exact hl e he

end Moved

/-- `LSM_MAX_BLOCK_REDIRECTS`. -/
def LSM_MAX_BLOCK_REDIRECTS : ℕ := 4096

namespace Version

/-- The block that `sortedMoveBlock` moves, the last one with content: the walk over the
free blocks from the end has stopped before it.  It is 0 if there is none. -/
def lastBlock (p : Version) : ℕ :=
  let sCtx := ((lsmWalkFreelist p.freelist true).map Prod.fst).foldl moveBlockCb
    (p.nBlock + 1, false)
  if sCtx.2 then sCtx.1 - 1 else 0

/-- `sortedMoveBlock`, once `iInUse` is known. -/
def sortedMoveBlock (p : Version) (iInUse : ℤ) (bRotrans : Bool) : Version :=
  if LSM_MAX_BLOCK_REDIRECTS ≤ p.redirect.length then p
  else if p.lastBlock = 0 then p
  else
    match p.allocate p.lastBlock iInUse bRotrans with
    | (q, none) => q
    | (q, some iTo) => if iTo = 0 then q else q.work (.moveBlock p.lastBlock iTo)

/-- Whether a block is moved, and where to. -/
def movesTo (p : Version) (iInUse : ℤ) (bRotrans : Bool) : Option ℕ :=
  if LSM_MAX_BLOCK_REDIRECTS ≤ p.redirect.length ∨ p.lastBlock = 0 ∨ bRotrans then none
  else (findFreeblock p.toSnapshot iInUse true).filter fun iTo => iTo ≠ 0 ∧ iTo < p.lastBlock

end Version

/-- What flushes, merges and `lsm_reclaim` do with the blocks of the worker's snapshot. -/
inductive BlockOp
  /-- `lsmBlockAllocate` for a page that is written. -/
  | allocate (iInUse : ℤ) (bRotrans : Bool)
  | useBlock (iBlk : ℕ)
  | freeBlock (iBlk : ℕ)
  | refreeBlock (iBlk : ℕ)
  | beginFreelist
  | endFreelist
  /-- `sortedMoveBlock`, from `lsm_reclaim` or a merge of one level. -/
  | sortedMoveBlock (iInUse : ℤ) (bRotrans : Bool)
  /-- The end of `lsm_reclaim`. -/
  | shrink
  /-- The snapshot is saved. -/
  | save

namespace BlockOp

def run (p : Version) : BlockOp → Version
  | allocate iInUse bRotrans => (p.allocate 0 iInUse bRotrans).1
  | useBlock iBlk => p.work (.useBlock iBlk)
  | freeBlock iBlk => p.work (.freeBlock iBlk)
  | refreeBlock iBlk => p.work (.refreeBlock iBlk)
  | beginFreelist => p.work .beginFreelist
  | endFreelist => p.work .endFreelist
  | sortedMoveBlock iInUse bRotrans => p.sortedMoveBlock iInUse bRotrans
  | shrink => p.shrink
  | save => p.save

/-- A block that is moved keeps the table in order. -/
def Careful (p : Version) : BlockOp → Prop
  | sortedMoveBlock iInUse bRotrans => ∀ iTo, p.movesTo iInUse bRotrans = some iTo →
      MoveOk p.redirect p.lastBlock iTo
  | _ => True

end BlockOp

/-- The worker's snapshot after some operations. -/
def blocksAfter (p : Version) (ops : List BlockOp) : Version := ops.foldl BlockOp.run p

section Moves

variable {p : Version} {iInUse : ℤ} {bRotrans : Bool} {iTo iBefore : ℕ}

variable (p iBefore iInUse bRotrans) in
theorem allocate_redirect : (p.allocate iBefore iInUse bRotrans).1.redirect = p.redirect := by
  rcases Version.allocate_cases p iBefore iInUse bRotrans with
    ⟨b, x, -, -, heq⟩ | ⟨b, -, -, -, heq⟩ | heq
  · rw [heq]
  · rw [heq]
  · rw [heq]

variable (p iInUse bRotrans) in
/-- A block before another one comes from the free list. -/
theorem allocate_before (h : 0 < iBefore) : (p.allocate iBefore iInUse bRotrans).2 =
    (if bRotrans then none else findFreeblock p.toSnapshot iInUse true).filter (· < iBefore) := by
  unfold Version.allocate lsmBlockAllocate
  simp only [decide_eq_true h]
  rcases (if bRotrans then none else findFreeblock p.toSnapshot iInUse true) with - | b
  · rw [if_pos h]
    rfl
  · by_cases hb : iBefore ≤ b
    · dsimp only
      rw [if_pos ⟨h, hb⟩, Option.filter_some_neg (by simpa using hb)]
    · dsimp only
      rw [if_neg fun hn => hb hn.2, Option.filter_some_pos (by simpa using hb)]

theorem movesTo_bounds (h : p.movesTo iInUse bRotrans = some iTo) : 1 < iTo ∧ iTo < p.lastBlock := by
  unfold Version.movesTo at h
  split_ifs at h
  obtain ⟨hfind, hcond⟩ := Option.filter_eq_some_iff.mp h
  obtain ⟨hne, hlt⟩ := of_decide_eq_true hcond
  obtain ⟨e, hfirst, rfl⟩ := Option.map_eq_some_iff.mp hfind
  -- block 1 is not taken
  have hnot := List.find?_some hfirst
  simp only [Bool.not_true, Bool.or_false, Bool.and_eq_true, decide_eq_true_eq] at hnot
  have := hnot.2
  exact ⟨by omega, hlt⟩

variable (p iInUse bRotrans) in
/-- **What moving a block does to the table.** -/
theorem sortedMoveBlock_redirect : (p.sortedMoveBlock iInUse bRotrans).redirect =
    match p.movesTo iInUse bRotrans with
    | none => p.redirect
    | some iTo => redirectMoved p.redirect p.lastBlock iTo := by
  unfold Version.sortedMoveBlock Version.movesTo
  by_cases hfull : LSM_MAX_BLOCK_REDIRECTS ≤ p.redirect.length
  · rw [if_pos hfull, if_pos (.inl hfull)]
  by_cases hlast : p.lastBlock = 0
  · rw [if_neg hfull, if_pos hlast, if_pos (.inr (.inl hlast))]
  have hbefore := allocate_before p iInUse bRotrans (Nat.pos_of_ne_zero hlast)
  have hredirect := allocate_redirect p iInUse bRotrans p.lastBlock
  rw [if_neg hfull, if_neg hlast]
  obtain ⟨⟨q, ret⟩, hret⟩ : ∃ x, p.allocate p.lastBlock iInUse bRotrans = x := ⟨_, rfl⟩
  rw [hret] at hbefore hredirect ⊢
  cases bRotrans with
  | true =>
      rw [if_pos (.inr (.inr rfl))]
      rw [if_pos rfl] at hbefore
      obtain rfl : ret = none := hbefore
      exact hredirect
  | false =>
      rw [if_neg (by simp [hfull, hlast])]
      rw [if_neg Bool.false_ne_true] at hbefore
      generalize findFreeblock p.toSnapshot iInUse true = iRet at hbefore ⊢
      rcases iRet with - | b
      · obtain rfl : ret = none := hbefore
        exact hredirect
      by_cases hlt : b < p.lastBlock
      · rw [Option.filter_some_pos (by simpa using hlt)] at hbefore
        subst hbefore
        by_cases hzero : b = 0
        · rw [Option.filter_some_neg (by simp [hzero])]
          simp only [if_pos hzero]
          exact hredirect
        · rw [Option.filter_some_pos (by simp [hzero, hlt])]
          simp only [if_neg hzero]
          show redirectMoved q.redirect p.lastBlock b = _
          rw [hredirect]
      · rw [Option.filter_some_neg (by simpa using hlt)] at hbefore
        subst hbefore
        rw [Option.filter_some_neg (by simp [hlt])]
        exact hredirect

/-- What is known of every table. -/
def RedirectBounds (p : Version) : Prop := ∀ e ∈ p.redirect, 1 < e.2 ∧ e.2 < e.1

/-- The other operations leave the table alone. -/
theorem run_redirect (op : BlockOp) : (op.run p).redirect = p.redirect ∨
    ∃ iInUse bRotrans iTo, op = .sortedMoveBlock iInUse bRotrans ∧
      p.movesTo iInUse bRotrans = some iTo ∧
        (op.run p).redirect = redirectMoved p.redirect p.lastBlock iTo := by
  cases op with
  | allocate iInUse bRotrans => exact .inl (allocate_redirect p iInUse bRotrans 0)
  | useBlock iBlk => exact .inl rfl
  | freeBlock iBlk => exact .inl rfl
  | refreeBlock iBlk => exact .inl rfl
  | beginFreelist => exact .inl rfl
  | endFreelist => exact .inl rfl
  | shrink => exact .inl rfl
  | save => exact .inl rfl
  | sortedMoveBlock iInUse bRotrans =>
      have h := sortedMoveBlock_redirect p iInUse bRotrans
      rcases hto : p.movesTo iInUse bRotrans with - | iTo
      · rw [hto] at h
        exact .inl h
      · rw [hto] at h
        exact .inr ⟨iInUse, bRotrans, iTo, rfl, hto, h⟩

theorem RedirectBounds.run (hp : RedirectBounds p) (op : BlockOp) : RedirectBounds (op.run p) := by
  unfold RedirectBounds
  rcases run_redirect (p := p) op with heq | ⟨iInUse, bRotrans, iTo, -, hto, heq⟩
  · rw [heq]
    exact hp
  · rw [heq]
    obtain ⟨h1, hlt⟩ := movesTo_bounds hto
    exact redirectMoved_bounds hp h1 hlt

/-- **One operation** keeps the table in order just if it is careful. -/
theorem run_sorted_iff (hp : RedirectSorted p.redirect) (op : BlockOp) :
    RedirectSorted (op.run p).redirect ↔ op.Careful p := by
  rcases run_redirect (p := p) op with heq | ⟨iInUse, bRotrans, iTo, rfl, hto, heq⟩
  · rw [heq]
    refine iff_of_true hp ?_
    cases op with
    | sortedMoveBlock iInUse bRotrans =>
        intro iTo hto
        have h := sortedMoveBlock_redirect p iInUse bRotrans
        rw [hto] at h
        have hmoved : redirectMoved p.redirect p.lastBlock iTo = p.redirect := h.symm.trans heq
        exact (redirectMoved_iff hp (movesTo_bounds hto).2).mp (by rw [hmoved]; exact hp)
    | _ => trivial
  · rw [heq, redirectMoved_iff hp (movesTo_bounds hto).2]
    refine ⟨fun h iTo' hto' => ?_, fun h => h iTo hto⟩
    obtain rfl : iTo = iTo' := Option.some.inj (hto.symm.trans hto')
    exact h

theorem blocksAfter_snoc (p : Version) (ops : List BlockOp) (op : BlockOp) :
    blocksAfter p (ops ++ [op]) = op.run (blocksAfter p ops) := by
  rw [blocksAfter, List.foldl_append]
  rfl

theorem blocksAfter_bounds (hp : p.redirect = []) (ops : List BlockOp) :
    RedirectBounds (blocksAfter p ops) := by
  induction ops using List.reverseRecOn with
  | nil =>
      intro e he
      rw [show (blocksAfter p []).redirect = [] from hp] at he
      cases he
  | append_singleton ops op ih =>
      rw [blocksAfter_snoc]
      exact ih.run op

/-- **The redirect table over any run**: the lookups agree after every operation, no block is
the source of two entries and no target a source, just if every block that is moved has a
target that is no source, and comes before all sources or is the target of an entry. -/
theorem redirect_lookups_iff (hp : p.redirect = []) (ops : List BlockOp) :
    (∀ pre post, ops = pre ++ post → RedirectOk pFS (blocksAfter p pre).redirect) ↔
      ∀ pre op post, ops = pre ++ op :: post → op.Careful (blocksAfter p pre) := by
  have hok : ∀ pre, RedirectOk pFS (blocksAfter p pre).redirect ↔
      RedirectSorted (blocksAfter p pre).redirect :=
    fun pre => redirectOk_iff pFS (blocksAfter_bounds hp pre)
  simp only [hok]
  constructor
  · intro h pre op post heq
    rw [← run_sorted_iff (h pre _ heq), ← blocksAfter_snoc]
    exact h (pre ++ [op]) post (by rw [heq]; simp)
  · intro h pre
    -- the prefixes of the run, one operation after the other
    induction pre using List.reverseRecOn with
    | nil =>
        intro post _
        rw [show (blocksAfter p []).redirect = [] from hp]
        exact ⟨.nil, nofun⟩
    | append_singleton pre op ih =>
        intro post heq
        have heq' : ops = pre ++ op :: post := by rw [heq]; simp
        rw [blocksAfter_snoc, run_sorted_iff (ih _ heq')]
        exact h pre op post heq'

end Moves

/-! ### A file that shrinks and grows again -/

/-- A database of one block. -/
def oneBlock : Version where
  iId := 1
  nBlock := 1
  freelist := ⟨SortedMap.empty, SortedMap.empty, none⟩
  redirect := []
  chain := {1}
  next := ∅

/-- Blocks of 64 KB with pages of 4 KB. -/
def smallBlocks : FileSystem where
  pCompress := false
  nBlocksize := 65536
  nPagesize := 4096
  nMetasize := 4096
  nPagesize_pos := by decide
  nPagesize_le := by decide

/-- `redirect_lookups_iff`, for a database that grows by a block. -/
theorem redirect_lookups_grow :
    (∀ pre post, [BlockOp.allocate 1 false, .useBlock 2] = pre ++ post →
        RedirectOk smallBlocks (blocksAfter oneBlock pre).redirect) ↔
      ∀ pre op post, [BlockOp.allocate 1 false, .useBlock 2] = pre ++ op :: post →
        op.Careful (blocksAfter oneBlock pre) :=
  redirect_lookups_iff smallBlocks rfl _

section Regrow

variable {p : Version} {s : Snapshot} {iInUse : ℤ} {iFrom iTo : ℕ}

/-- The blocks of a list, from the entries of its layers. -/
theorem keys_eq {f : FreeList} {l : List ℕ} (hl : l.Pairwise (· < ·))
    (h : ((f.stored.entries ++ f.worker.entries ++
      (f.temp.map SortedMap.entries).getD []).map Prod.fst).toFinset = l.toFinset) : f.keys = l := by
  rw [FreeList.keys, h]
  exact (List.toFinset_sort _ (hl.imp fun h => h.ne)).mpr (hl.imp fun h => h.le)

/-- No block is free, and the file grows. -/
theorem run_allocate (hp : p.toSnapshot = s) (h : findFreeblock s iInUse false = none) :
    ((BlockOp.allocate iInUse false).run p).toSnapshot =
      { s with nBlock := skipRedirects s s.redirect.length (s.nBlock + 1) } := by
  subst hp
  show (p.allocate 0 iInUse false).1.toSnapshot = _
  unfold Version.allocate lsmBlockAllocate
  simp only [Bool.false_eq_true, if_false, lt_self_iff_false, decide_false, h]

variable (iInUse iFrom iTo) in
/-- A block is moved. -/
theorem run_sortedMoveBlock (hp : p.toSnapshot = s) (hfull : s.redirect.length < LSM_MAX_BLOCK_REDIRECTS)
    (hlast : p.lastBlock = iFrom) (h : findFreeblock s iInUse true = some iTo) (hpos : 0 < iTo)
    (hlt : iTo < iFrom) : ((BlockOp.sortedMoveBlock iInUse false).run p).toSnapshot =
      lsmBlockFree { s with
        freelist := freelistAppend s.freelist iTo (-1)
        redirect := redirectMoved s.redirect iFrom iTo } iFrom := by
  subst hp
  have hzero : iFrom ≠ 0 := by omega
  have halloc : p.allocate iFrom iInUse false = ({ p with
      freelist := freelistAppend p.freelist iTo (-1)
      next := insert iTo p.next }, some iTo) := by
    unfold Version.allocate lsmBlockAllocate
    simp only [Bool.false_eq_true, if_false, decide_eq_true (Nat.pos_of_ne_zero hzero), h,
      if_neg fun hn : 0 < iFrom ∧ iFrom ≤ iTo => (not_le.mpr hlt) hn.2]
  show (p.sortedMoveBlock iInUse false).toSnapshot = _
  unfold Version.sortedMoveBlock
  rw [if_neg (not_le.mpr hfull), hlast, if_neg hzero, halloc]
  simp only [if_neg hpos.ne']
  rfl

theorem lastBlock_eq (hp : p.toSnapshot = s) : p.lastBlock =
    let sCtx := ((lsmWalkFreelist s.freelist true).map Prod.fst).foldl moveBlockCb
      (s.nBlock + 1, false)
    if sCtx.2 then sCtx.1 - 1 else 0 := by
  rw [← hp]
  rfl

/-- The free blocks, from the entries of the layers. -/
theorem walk_eq {f : FreeList} {l : List ℕ} (bReverse : Bool) (hl : l.Pairwise (· < ·))
    (h : ((f.stored.entries ++ f.worker.entries ++
      (f.temp.map SortedMap.entries).getD []).map Prod.fst).toFinset = l.toFinset) :
    lsmWalkFreelist f bReverse =
      let entries := l.filterMap fun iBlk => (f.iId? iBlk).map (iBlk, ·)
      if bReverse then entries.reverse else entries := by
  rw [lsmWalkFreelist, keys_eq hl h]

end Regrow

/-- Three blocks are written and one of them is freed, the last one is moved there and the
file shrinks; then it grows by a block, another block is freed and the last one is moved
there. -/
def regrowOps : List BlockOp :=
  [.allocate 1 false, .useBlock 2, .allocate 1 false, .useBlock 3, .allocate 1 false, .useBlock 4,
    .freeBlock 2, .save, .sortedMoveBlock 2 false, .shrink, .save,
    .allocate 3 false, .useBlock 5, .freeBlock 3, .save, .sortedMoveBlock 4 false]

/-- The file has shrunk to three blocks, and block 4 is redirected. -/
theorem regrow_shrunk : (blocksAfter oneBlock (regrowOps.take 11)).toSnapshot =
    ⟨3, 3, ⟨SortedMap.empty, ⟨[(2, -1)], by decide⟩, none⟩, [(4, 2)]⟩ := by
  have hempty : ∀ n, findFreeblock ⟨1, n, ⟨SortedMap.empty, SortedMap.empty, none⟩, []⟩ 1 false =
      none := fun n => by
    rw [findFreeblock, walk_eq (l := []) false .nil rfl]
    rfl
  simp only [regrowOps, blocksAfter, List.take_succ_cons, List.take_zero, List.foldl_cons,
    List.foldl_nil]
  -- the file grows to four blocks
  have e1 : (BlockOp.run (BlockOp.run oneBlock (.allocate 1 false)) (.useBlock 2)).toSnapshot =
      ⟨1, 2, ⟨SortedMap.empty, SortedMap.empty, none⟩, []⟩ :=
    run_allocate rfl (hempty 1)
  generalize BlockOp.run (BlockOp.run oneBlock _) _ = p1 at e1 ⊢
  have e2 : (BlockOp.run (BlockOp.run p1 (.allocate 1 false)) (.useBlock 3)).toSnapshot =
      ⟨1, 3, ⟨SortedMap.empty, SortedMap.empty, none⟩, []⟩ :=
    run_allocate e1 (hempty 2)
  generalize BlockOp.run (BlockOp.run p1 _) _ = p2 at e2 ⊢
  have e3 : (BlockOp.run (BlockOp.run p2 (.allocate 1 false)) (.useBlock 4)).toSnapshot =
      ⟨1, 4, ⟨SortedMap.empty, SortedMap.empty, none⟩, []⟩ :=
    run_allocate e2 (hempty 3)
  generalize BlockOp.run (BlockOp.run p2 _) _ = p3 at e3 ⊢
  -- block 2 is freed, and block 4 moved there
  have e4 : (BlockOp.run (BlockOp.run p3 (.freeBlock 2)) .save).toSnapshot =
      ⟨2, 4, ⟨SortedMap.empty, ⟨[(2, 1)], by decide⟩, none⟩, []⟩ := by
    show { lsmBlockFree p3.toSnapshot 2 with iId := p3.iId + 1 } = _
    rw [e3]
    rfl
  generalize BlockOp.run (BlockOp.run p3 _) _ = p4 at e4 ⊢
  have e5 : (BlockOp.run p4 (.sortedMoveBlock 2 false)).toSnapshot =
      ⟨2, 4, ⟨SortedMap.empty, ⟨[(2, -1), (4, 2)], by decide⟩, none⟩, [(4, 2)]⟩ :=
    run_sortedMoveBlock 2 4 2 e4 (by decide)
      (by
        rw [lastBlock_eq e4, walk_eq (l := [2]) true (by decide) (by decide)]
        rfl)
      (by
        rw [findFreeblock, walk_eq (l := [2]) false (by decide) (by decide)]
        rfl)
      (by decide) (by decide)
  generalize BlockOp.run p4 _ = p5 at e5 ⊢
  -- the file shrinks to three blocks
  have hnew : nNewBlock p5.toSnapshot = 3 := by
    rw [e5, nNewBlock, walk_eq (l := [2, 4]) true (by decide) (by decide)]
    rfl
  show { p5.toSnapshot with
    iId := p5.iId + 1
    nBlock := nNewBlock p5.toSnapshot
    freelist := { p5.freelist with
      worker := p5.freelist.worker.restrict fun b => decide (b ≤ nNewBlock p5.toSnapshot) } } = _
  rw [hnew, e5]
  rfl

theorem regrow_redirect : (blocksAfter oneBlock regrowOps).redirect = [(5, 3), (4, 2)] := by
  have e6 := regrow_shrunk
  rw [← List.take_append_drop 11 regrowOps, blocksAfter, List.foldl_append]
  change (List.foldl BlockOp.run oneBlock _).toSnapshot = _ at e6
  generalize List.foldl BlockOp.run oneBlock _ = p6 at e6 ⊢
  simp only [regrowOps, List.drop_succ_cons, List.drop_zero, List.foldl_cons, List.foldl_nil]
  -- the file grows, over the source of the redirect
  have e7 : (BlockOp.run (BlockOp.run p6 (.allocate 3 false)) (.useBlock 5)).toSnapshot =
      ⟨3, 5, ⟨SortedMap.empty, ⟨[(2, -1)], by decide⟩, none⟩, [(4, 2)]⟩ :=
    run_allocate e6 (by
      rw [findFreeblock, walk_eq (l := [2]) false (by decide) (by decide)]
      rfl)
  generalize BlockOp.run (BlockOp.run p6 _) _ = p7 at e7 ⊢
  -- block 3 is freed, and block 5 moved there
  have e8 : (BlockOp.run (BlockOp.run p7 (.freeBlock 3)) .save).toSnapshot =
      ⟨4, 5, ⟨SortedMap.empty, ⟨[(2, -1), (3, 3)], by decide⟩, none⟩, [(4, 2)]⟩ := by
    show { lsmBlockFree p7.toSnapshot 3 with iId := p7.iId + 1 } = _
    rw [e7]
    rfl
  generalize BlockOp.run (BlockOp.run p7 _) _ = p8 at e8 ⊢
  have e9 := run_sortedMoveBlock 4 5 3 e8 (by decide)
    (by
      rw [lastBlock_eq e8, walk_eq (l := [2, 3]) true (by decide) (by decide)]
      rfl)
    (by
      rw [findFreeblock, walk_eq (l := [2, 3]) false (by decide) (by decide)]
      rfl)
    (by decide) (by decide)
  exact congrArg Snapshot.redirect e9

/-- **The lookups disagree**: block 4 is redirected to block 2, but the loop of
`lsmFsRedirectPage` stops at the source 5 in front of it. -/
theorem redirect_lookups_disagree :
    ∃ ops, ¬ RedirectOk smallBlocks (blocksAfter oneBlock ops).redirect := by
  refine ⟨regrowOps, fun h => ?_⟩
  have hagree := h.agree 49 (by decide)
  rw [regrow_redirect] at hagree
  exact absurd hagree (by decide)

end Lsm

end MoVeBench
