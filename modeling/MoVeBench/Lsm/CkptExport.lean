/-
MoVeBench/Lsm/CkptExport.lean

The integers of a checkpoint: `ckptExportSnapshot` and `lsmCheckpointDeserialize`.

The levels, the block redirects and the free list are written one after the other behind a
header, and read back in the same order.  What is read is what was written
(`deserialize_export`), for any snapshot.  The size depends on how many levels there are:
while `lsmDatabaseFull` bounds them it fits into a meta page (`ckptInts_le`), but nothing
bounds them in flush-only mode (`export_exceeds_metaPage`).
-/
import MoVeBench.Lib.Reading
import MoVeBench.Lsm.Checkpoint
import MoVeBench.Lsm.LevelChoice

namespace MoVeBench

namespace Lsm

namespace CkptExport

open Reading

/-! ### Snapshots -/

/-- A sorted run; its `pRedirect` is the redirect list of the snapshot. -/
structure Segment where
  iFirst : Int64
  iLastPg : Int64
  iRoot : Int64
  nSize : Int32

structure MergeInput where
  iPg : Int64
  iCell : Int32

structure Merge where
  aInput : List MergeInput
  splitkey : MergeInput
  nSkip : Int32
  iOutputOff : Int32
  iCurrentPtr : Int64

/-- A level; `nRight` is the length of `aRhs`. -/
structure Level where
  lhs : Segment
  aRhs : List Segment
  iAge : UInt16
  flags : UInt16
  pMerge : Option Merge

structure RedirectEntry where
  iFrom : Int32
  iTo : Int32

structure FreelistEntry where
  iBlk : UInt32
  iId : Int64

structure Snapshot where
  iCmpId : UInt32
  levels : List Level
  iId : Int64
  iLogOff : Int64
  redirect : List RedirectEntry
  nBlock : Int32
  aiAppend : List Int64
  freelist : List FreelistEntry
  nWrite : UInt32

/-- What the export uses of the connection. -/
structure Db where
  /-- `treehdr.iOldLog`, `treehdr.oldcksum0` and `treehdr.oldcksum1`. -/
  iOldLog : Int64
  oldcksum0 : UInt32
  oldcksum1 : UInt32
  /-- `pShmhdr->aSnap2`. -/
  aSnap2 : List UInt32
  /-- `compress.iId`. -/
  iCmpId : UInt32
  nBlocksize : UInt32
  nPagesize : UInt32

/-! ### The export -/

/-- `ckptAppend64`: the upper 32 bits, and the lower ones. -/
def ckptAppend64 (iVal : Int64) : List UInt32 :=
  [(iVal.toUInt64 >>> 32).toUInt32, iVal.toUInt64.toUInt32]

/-- `ckptExportSegment`. -/
def ckptExportSegment (pSeg : Segment) : List UInt32 :=
  ckptAppend64 pSeg.iFirst ++ (ckptAppend64 pSeg.iLastPg ++ (ckptAppend64 pSeg.iRoot ++
    ckptAppend64 pSeg.nSize.toInt64))

/-- A position of a merge, as `ckptExportLevel` writes it. -/
def ckptExportInput (p : MergeInput) : List UInt32 := ckptAppend64 p.iPg ++ [p.iCell.toUInt32]

/-- The integers of a level before its segments. -/
def ckptExportMerge (pMerge : Merge) : List UInt32 :=
  [UInt32.ofNat pMerge.aInput.length] ++ ([pMerge.nSkip.toUInt32] ++
    (pMerge.aInput.flatMap ckptExportInput ++ (ckptExportInput pMerge.splitkey ++
      ckptAppend64 pMerge.iCurrentPtr)))

/-- `ckptExportLevel`. -/
def ckptExportLevel (pLevel : Level) : List UInt32 :=
  [pLevel.iAge.toUInt32 + (pLevel.flags.toUInt32 <<< 16)] ++
    ([UInt32.ofNat pLevel.aRhs.length] ++ (ckptExportSegment pLevel.lhs ++
      match pLevel.pMerge with
      | none => []
      | some pMerge => pLevel.aRhs.flatMap ckptExportSegment ++ ckptExportMerge pMerge))

/-- `ckptExportLog`. -/
def ckptExportLog (pDb : Db) (bFlush : Bool) : List UInt32 :=
  if bFlush then ckptAppend64 pDb.iOldLog ++ [pDb.oldcksum0, pDb.oldcksum1]
  else [pDb.aSnap2.getD 9 0, pDb.aSnap2.getD 10 0, pDb.aSnap2.getD 11 0, pDb.aSnap2.getD 12 0]

/-- `ckptExportAppendlist`. -/
def ckptExportAppendlist (aiAppend : List Int64) : List UInt32 := aiAppend.flatMap ckptAppend64

def ckptExportRedirect (p : RedirectEntry) : List UInt32 := [p.iFrom.toUInt32, p.iTo.toUInt32]

def ckptExportFree (p : FreelistEntry) : List UInt32 := [p.iBlk] ++ ckptAppend64 p.iId

/-- The levels, the redirects and the free list in `ckptExportSnapshot`. -/
def ckptExportLists (pSnap : Snapshot) : List UInt32 :=
  pSnap.levels.flatMap ckptExportLevel ++
    ([UInt32.ofNat pSnap.redirect.length] ++ (pSnap.redirect.flatMap ckptExportRedirect ++
      ([UInt32.ofNat pSnap.freelist.length] ++ pSnap.freelist.flatMap ckptExportFree)))

/-- What `ckptExportSnapshot` writes behind the header. -/
def ckptExportBody (pDb : Db) (bLog : Bool) (pSnap : Snapshot) : List UInt32 :=
  ckptExportLog pDb bLog ++ (ckptExportAppendlist pSnap.aiAppend ++ ckptExportLists pSnap)

/-- The checkpoint header, for a checkpoint of `nCkpt` integers. -/
def ckptExportHeader (pDb : Db) (iId : Int64) (pSnap : Snapshot) (nCkpt : ℕ) : List UInt32 :=
  ckptAppend64 iId ++ [UInt32.ofNat nCkpt, pDb.iCmpId, pSnap.nBlock.toUInt32, pDb.nBlocksize,
    UInt32.ofNat pSnap.levels.length, pDb.nPagesize, pSnap.nWrite]

/-- The last two integers of a checkpoint (`ckptAddChecksum`). -/
def ckptCksum (aCkpt : List UInt32) (nCkpt : ℕ) (bCksum : Bool) : List UInt32 :=
  if bCksum then [(ckptChecksum aCkpt nCkpt).1, (ckptChecksum aCkpt nCkpt).2] else [0, 0]

/-- `ckptExportSnapshot`. -/
def ckptExportSnapshot (pDb : Db) (bLog : Bool) (iId : Int64) (bCksum : Bool)
    (pSnap : Snapshot) : List UInt32 :=
  let body := ckptExportBody pDb bLog pSnap
  let nCkpt := 9 + body.length + 2
  let aCkpt := ckptExportHeader pDb iId pSnap nCkpt ++ body
  aCkpt ++ ckptCksum aCkpt nCkpt bCksum

/-! ### The import -/

/-- `ckptRead64`. -/
def ckptRead64 (msw lsw : UInt32) : Int64 := ((msw.toUInt64 <<< 32) + lsw.toUInt64).toInt64

/-- `ckptGobble64`. -/
def ckptGobble64 : Reader UInt32 Int64 := do
  let msw ← word
  let lsw ← word
  return ckptRead64 msw lsw

/-- `ckptNewSegment`. -/
def ckptNewSegment : Reader UInt32 Segment := do
  let iFirst ← ckptGobble64
  let iLastPg ← ckptGobble64
  let iRoot ← ckptGobble64
  let nSize ← ckptGobble64
  return ⟨iFirst, iLastPg, iRoot, nSize.toInt32⟩

/-- A position of a merge, as `ckptSetupMerge` reads it. -/
def ckptNewInput : Reader UInt32 MergeInput := do
  let iPg ← ckptGobble64
  let iCell ← word
  return ⟨iPg, iCell.toInt32⟩

/-- `ckptSetupMerge`. -/
def ckptSetupMerge : Reader UInt32 Merge := do
  let nInput ← word
  let nSkip ← word
  let aInput ← times ckptNewInput nInput.toNat
  let splitkey ← ckptNewInput
  let iCurrentPtr ← ckptGobble64
  return ⟨aInput, splitkey, nSkip.toInt32, -1, iCurrentPtr⟩

/-- A turn of the loop of `ckptLoadLevels`. -/
def ckptLoadLevel : Reader UInt32 Level := do
  let iAgeFlags ← word
  let nRight ← word
  let lhs ← ckptNewSegment
  let aRhs ← times ckptNewSegment nRight.toNat
  let iAge := (iAgeFlags &&& 0x0000FFFF).toUInt16
  let flags := ((iAgeFlags >>> 16) &&& 0x0000FFFF).toUInt16
  if 0 < nRight.toNat then do
    let pMerge ← ckptSetupMerge
    return ⟨lhs, aRhs, iAge, flags, some pMerge⟩
  else return ⟨lhs, aRhs, iAge, flags, none⟩

/-- `ckptLoadLevels`. -/
def ckptLoadLevels (nLevel : ℕ) : Reader UInt32 (List Level) := times ckptLoadLevel nLevel

def ckptLoadRedirect : Reader UInt32 RedirectEntry := do
  let iFrom ← word
  let iTo ← word
  return ⟨iFrom.toInt32, iTo.toInt32⟩

def ckptLoadFree : Reader UInt32 FreelistEntry := do
  let iBlk ← word
  let iId ← ckptGobble64
  return ⟨iBlk, iId⟩

/-- The levels, the redirects and, if `bInclFreelist` is set, the free list in
`lsmCheckpointDeserialize`. -/
def ckptLoadLists (bInclFreelist : Bool) (nLevel : ℕ) :
    Reader UInt32 (List Level × List RedirectEntry × List FreelistEntry) := do
  let levels ← ckptLoadLevels nLevel
  let n ← word
  let redirect ← times ckptLoadRedirect n.toNat
  if bInclFreelist then do
    let nFree ← word
    let freelist ← times ckptLoadFree nFree.toNat
    return (levels, redirect, freelist)
  else return (levels, redirect, [])

/-- The 64-bit integer at index `i` of a checkpoint. -/
def int64At (aCkpt : List UInt32) (i : ℕ) : Int64 :=
  ckptRead64 (aCkpt.getD i 0) (aCkpt.getD (i + 1) 0)

/-- `lsmCheckpointLogOffset`. -/
def lsmCheckpointLogOffset (aCkpt : List UInt32) : Int64 := int64At aCkpt 9

/-- `lsmCheckpointDeserialize`. -/
def lsmCheckpointDeserialize (bInclFreelist : Bool) (aCkpt : List UInt32) : Snapshot :=
  let lists := ((ckptLoadLists bInclFreelist (aCkpt.getD 6 0).toNat).run (aCkpt.drop 21)).1
  { iCmpId := aCkpt.getD 3 0
    levels := lists.1
    iId := int64At aCkpt 0
    iLogOff := lsmCheckpointLogOffset aCkpt
    redirect := lists.2.1
    nBlock := (aCkpt.getD 4 0).toInt32
    aiAppend := (List.range 4).map fun i => int64At aCkpt (13 + 2 * i)
    freelist := lists.2.2
    nWrite := aCkpt.getD 8 0 }

/-! ### Snapshots that are exported -/

/-- A level as flushes and merges make it: it has a merge if it has right-hand segments, with
one input for each of them and perhaps one for the separators of the next level.  Between
the calls of the merge worker, `iOutputOff` is -1. -/
structure Level.Ok (pLevel : Level) : Prop where
  nRight : pLevel.aRhs.length < 2 ^ 31
  noMerge : pLevel.pMerge = none → pLevel.aRhs = []
  merge : ∀ pMerge, pLevel.pMerge = some pMerge → pLevel.aRhs ≠ [] ∧ pMerge.iOutputOff = -1 ∧
    (pMerge.aInput.length = pLevel.aRhs.length ∨
      pMerge.aInput.length = pLevel.aRhs.length + 1)

/-- `LSM_MAX_BLOCK_REDIRECTS`. -/
def LSM_MAX_BLOCK_REDIRECTS : ℕ := 4096

/-- `LSM_MAX_FREELIST_ENTRIES`, the largest `nMaxFreelist`. -/
def LSM_MAX_FREELIST_ENTRIES : ℕ := 24

/-- A worker snapshot; the bounds of the lists are those of the functions that fill them. -/
structure Snapshot.Ok (pSnap : Snapshot) : Prop where
  levels : ∀ pLevel ∈ pSnap.levels, pLevel.Ok
  nLevel : pSnap.levels.length < 2 ^ 31
  aiAppend : pSnap.aiAppend.length = 4
  redirect : pSnap.redirect.length ≤ LSM_MAX_BLOCK_REDIRECTS
  freelist : pSnap.freelist.length ≤ LSM_MAX_FREELIST_ENTRIES

/-- The integers of a level. -/
def levelInts (pLevel : Level) : ℕ :=
  match pLevel.pMerge with
  | none => 10
  | some pMerge => 17 + 8 * pLevel.aRhs.length + 3 * pMerge.aInput.length

/-- The integers of a checkpoint. -/
def ckptInts (pSnap : Snapshot) : ℕ :=
  25 + (pSnap.levels.map levelInts).sum + 2 * pSnap.redirect.length + 3 * pSnap.freelist.length

section Sizes

variable {pSnap : Snapshot}

@[simp] theorem length_ckptAppend64 (x : Int64) : (ckptAppend64 x).length = 2 := rfl

@[simp] theorem length_ckptExportSegment (p : Segment) : (ckptExportSegment p).length = 8 := rfl

@[simp] theorem length_ckptExportInput (p : MergeInput) : (ckptExportInput p).length = 3 := rfl

/-- Values of `n` words each. -/
theorem length_flatMap_const {α : Type} {write : α → List UInt32} {n : ℕ}
    (h : ∀ a, (write a).length = n) (as : List α) : (as.flatMap write).length = n * as.length := by
  induction as with
  | nil => rfl
  | cons a as ih =>
      rw [List.flatMap_cons, List.length_append, h, ih, List.length_cons, Nat.mul_succ,
        Nat.add_comm]

theorem length_ckptExportLevel (pLevel : Level) :
    (ckptExportLevel pLevel).length = levelInts pLevel := by
  unfold ckptExportLevel levelInts
  cases hmerge : pLevel.pMerge with
  | none => rfl
  | some pMerge =>
      simp only [ckptExportMerge, List.length_append, List.length_singleton,
        length_ckptExportSegment, length_ckptExportInput, length_ckptAppend64,
        length_flatMap_const length_ckptExportSegment, length_flatMap_const length_ckptExportInput]
      omega

theorem length_levels (levels : List Level) :
    (levels.flatMap ckptExportLevel).length = (levels.map levelInts).sum := by
  induction levels with
  | nil => rfl
  | cons p levels ih =>
      rw [List.flatMap_cons, List.length_append, List.map_cons, List.sum_cons,
        length_ckptExportLevel, ih]

theorem length_ckptExportLog (pDb : Db) (bFlush : Bool) :
    (ckptExportLog pDb bFlush).length = 4 := by
  cases bFlush <;> rfl

theorem length_ckptExportBody (h : pSnap.Ok) (pDb : Db) (bLog : Bool) :
    (ckptExportBody pDb bLog pSnap).length + 11 = ckptInts pSnap := by
  have hredirect : ∀ p : RedirectEntry, (ckptExportRedirect p).length = 2 := fun _ => rfl
  have hfree : ∀ p : FreelistEntry, (ckptExportFree p).length = 3 := fun _ => rfl
  simp only [ckptExportBody, ckptExportAppendlist, ckptExportLists, ckptInts, List.length_append,
    List.length_singleton, length_ckptExportLog, length_flatMap_const length_ckptAppend64,
    length_flatMap_const hredirect, length_flatMap_const hfree, length_levels, h.aiAppend]
  omega

/-- The size of a checkpoint. -/
theorem length_export (h : pSnap.Ok) (pDb : Db) (bLog : Bool) (iId : Int64) (bCksum : Bool) :
    (ckptExportSnapshot pDb bLog iId bCksum pSnap).length = ckptInts pSnap := by
  have hbody := length_ckptExportBody h pDb bLog
  have hcksum : ∀ aCkpt nCkpt, (ckptCksum aCkpt nCkpt bCksum).length = 2 := by
    intro aCkpt nCkpt
    cases bCksum <;> rfl
  simp only [ckptExportSnapshot, ckptExportHeader, List.length_append, hcksum,
    length_ckptAppend64, List.length_cons, List.length_nil]
  omega

end Sizes

/-! ### What is written is read -/

section Words

theorem ckptRead64_append (x : Int64) :
    ckptRead64 (x.toUInt64 >>> 32).toUInt32 x.toUInt64.toUInt32 = x := by
  have hx : ((x.toUInt64 >>> 32).toUInt32.toUInt64 <<< 32) + x.toUInt64.toUInt32.toUInt64 =
      x.toUInt64 := by
    have hlt := x.toUInt64.toNat_lt
    apply UInt64.toNat_inj.mp
    simp only [UInt64.toNat_add, UInt64.toNat_shiftLeft, UInt32.toNat_toUInt64,
      UInt64.toNat_toUInt32, UInt64.toNat_shiftRight, UInt64.toNat_ofNat, Nat.shiftLeft_eq,
      Nat.shiftRight_eq_div_pow, Nat.reducePow, Nat.reduceMod]
    omega
  rw [ckptRead64, hx]
  rfl

/-- The age and the flags of a level share a word. -/
theorem iAge_flags (iAge flags : UInt16) :
    ((iAge.toUInt32 + (flags.toUInt32 <<< 16)) &&& 0x0000FFFF).toUInt16 = iAge ∧
      (((iAge.toUInt32 + (flags.toUInt32 <<< 16)) >>> 16) &&& 0x0000FFFF).toUInt16 = flags := by
  have hage := iAge.toNat_lt
  have hflags := flags.toNat_lt
  have hmask : ∀ n : ℕ, n &&& 65535 = n % 2 ^ 16 := fun n => Nat.and_two_pow_sub_one_eq_mod n 16
  constructor
  · apply UInt16.toNat_inj.mp
    simp only [UInt32.toNat_toUInt16, UInt32.toNat_and, UInt32.toNat_add, UInt16.toNat_toUInt32,
      UInt32.toNat_shiftLeft, UInt32.toNat_ofNat, Nat.shiftLeft_eq]
    norm_num
    rw [hmask]
    omega
  · apply UInt16.toNat_inj.mp
    simp only [UInt32.toNat_toUInt16, UInt32.toNat_and, UInt32.toNat_add, UInt16.toNat_toUInt32,
      UInt32.toNat_shiftLeft, UInt32.toNat_shiftRight, UInt32.toNat_ofNat, Nat.shiftLeft_eq,
      Nat.shiftRight_eq_div_pow]
    norm_num
    rw [hmask]
    omega

theorem toNat_length {α : Type} {as : List α} (h : as.length < 2 ^ 32) :
    (UInt32.ofNat as.length).toNat = as.length := UInt32.toNat_ofNat_of_lt' h

end Words

section Reads

theorem reads_ckptGobble64 (x : Int64) : Reads ckptGobble64 (ckptAppend64 x) x := by
  have h : Reads ckptGobble64 (ckptAppend64 x)
      (ckptRead64 (x.toUInt64 >>> 32).toUInt32 x.toUInt64.toUInt32) := by
    unfold ckptGobble64
    exact (Reads.word _).bind (Reads.word _).map
  rwa [ckptRead64_append] at h

theorem reads_ckptNewSegment (p : Segment) : Reads ckptNewSegment (ckptExportSegment p) p := by
  have h : Reads ckptNewSegment (ckptExportSegment p)
      ⟨p.iFirst, p.iLastPg, p.iRoot, p.nSize.toInt64.toInt32⟩ := by
    unfold ckptNewSegment
    exact (reads_ckptGobble64 _).bind ((reads_ckptGobble64 _).bind
      ((reads_ckptGobble64 _).bind (reads_ckptGobble64 _).map))
  rwa [Int32.toInt32_toInt64] at h

theorem reads_ckptNewInput (p : MergeInput) : Reads ckptNewInput (ckptExportInput p) p := by
  have h : Reads ckptNewInput (ckptExportInput p) ⟨p.iPg, p.iCell.toUInt32.toInt32⟩ := by
    unfold ckptNewInput
    exact (reads_ckptGobble64 _).bind (Reads.word _).map
  rwa [Int32.toInt32_toUInt32] at h

theorem reads_ckptSetupMerge (p : Merge) (hlen : p.aInput.length < 2 ^ 32)
    (hoff : p.iOutputOff = -1) : Reads ckptSetupMerge (ckptExportMerge p) p := by
  have hinputs := Reads.times p.aInput fun a _ => reads_ckptNewInput a
  rw [← toNat_length hlen] at hinputs
  have h : Reads ckptSetupMerge (ckptExportMerge p)
      ⟨p.aInput, p.splitkey, p.nSkip.toUInt32.toInt32, -1, p.iCurrentPtr⟩ := by
    unfold ckptSetupMerge
    exact (Reads.word _).bind ((Reads.word _).bind (hinputs.bind
      ((reads_ckptNewInput _).bind (reads_ckptGobble64 _).map)))
  rwa [Int32.toInt32_toUInt32, ← hoff] at h

/-- **A level is read back.** -/
theorem reads_ckptLoadLevel {p : Level} (h : p.Ok) :
    Reads ckptLoadLevel (ckptExportLevel p) p := by
  obtain ⟨lhs, aRhs, iAge, flags, pMerge⟩ := p
  obtain ⟨hage, hflags⟩ := iAge_flags iAge flags
  have hlen : (UInt32.ofNat aRhs.length).toNat = aRhs.length :=
    toNat_length (h.nRight.trans (by decide))
  have hrhs := Reads.times aRhs fun a _ => reads_ckptNewSegment a
  rw [← hlen] at hrhs
  unfold ckptLoadLevel ckptExportLevel
  refine (Reads.word _).bind ((Reads.word _).bind ((reads_ckptNewSegment lhs).bind ?_))
  cases pMerge with
  | none =>
      obtain rfl : aRhs = [] := h.noMerge rfl
      refine hrhs.bind ?_
      simp only [hage, hflags]
      exact Reads.pure _
  | some pMerge =>
      obtain ⟨hne, hoff, hinput⟩ := h.merge pMerge rfl
      refine hrhs.bind ?_
      have hpos : 0 < (UInt32.ofNat aRhs.length).toNat := by
        rw [hlen]
        exact List.length_pos_iff.mpr hne
      have hnRight : aRhs.length < 2 ^ 31 := h.nRight
      have hnInput : pMerge.aInput.length ≤ aRhs.length + 1 := by
        rcases hinput with heq | heq
        · exact heq.le.trans (Nat.le_succ _)
        · exact heq.le
      simp only [hage, hflags, if_pos hpos]
      exact (reads_ckptSetupMerge pMerge (by omega) hoff).map

theorem reads_ckptLoadRedirect (p : RedirectEntry) :
    Reads ckptLoadRedirect (ckptExportRedirect p) p := by
  have h : Reads ckptLoadRedirect (ckptExportRedirect p)
      ⟨p.iFrom.toUInt32.toInt32, p.iTo.toUInt32.toInt32⟩ := by
    unfold ckptLoadRedirect
    exact (Reads.word _).bind (Reads.word _).map
  rwa [Int32.toInt32_toUInt32, Int32.toInt32_toUInt32] at h

theorem reads_ckptLoadFree (p : FreelistEntry) : Reads ckptLoadFree (ckptExportFree p) p :=
  (Reads.word p.iBlk).bind ((reads_ckptGobble64 p.iId).map (f := FreelistEntry.mk p.iBlk))

/-- The lists of a snapshot are read back. -/
theorem reads_ckptLoadLists {pSnap : Snapshot} (h : pSnap.Ok) :
    Reads (ckptLoadLists true pSnap.levels.length) (ckptExportLists pSnap)
      (pSnap.levels, pSnap.redirect, pSnap.freelist) := by
  have hredirect := Reads.times pSnap.redirect fun a _ => reads_ckptLoadRedirect a
  have hfreelist := Reads.times pSnap.freelist fun a _ => reads_ckptLoadFree a
  rw [← toNat_length (h.redirect.trans_lt (by decide))] at hredirect
  rw [← toNat_length (h.freelist.trans_lt (by decide))] at hfreelist
  exact (Reads.times _ fun p hp => reads_ckptLoadLevel (h.levels p hp)).bind
    ((Reads.word _).bind (hredirect.bind ((Reads.word _).bind hfreelist.map)))

/-- The log pointer that is exported. -/
def logPointer (pDb : Db) (bLog : Bool) : Int64 :=
  if bLog then pDb.iOldLog else lsmCheckpointLogOffset pDb.aSnap2

/-- The header, the log pointer and the append list come first. -/
theorem export_split (pDb : Db) (bLog : Bool) (iId : Int64) (bCksum : Bool) (pSnap : Snapshot) :
    ∃ nCkpt cksum, ckptExportSnapshot pDb bLog iId bCksum pSnap =
      ckptExportHeader pDb iId pSnap nCkpt ++ (ckptExportLog pDb bLog ++
        (ckptExportAppendlist pSnap.aiAppend ++ (ckptExportLists pSnap ++ cksum))) := by
  let nCkpt := 9 + (ckptExportBody pDb bLog pSnap).length + 2
  refine ⟨nCkpt, ckptCksum (ckptExportHeader pDb iId pSnap nCkpt ++ ckptExportBody pDb bLog pSnap)
    nCkpt bCksum, ?_⟩
  simp only [ckptExportSnapshot, nCkpt, ckptExportBody, List.append_assoc]

/-- **What is written is read**, with the id, the log pointer and the compression scheme of
the export. -/
theorem deserialize_export {pSnap : Snapshot} (h : pSnap.Ok) (pDb : Db) (bLog : Bool)
    (iId : Int64) (bCksum : Bool) :
    lsmCheckpointDeserialize true (ckptExportSnapshot pDb bLog iId bCksum pSnap) =
      { pSnap with iId := iId, iLogOff := logPointer pDb bLog, iCmpId := pDb.iCmpId } := by
  have hlists := reads_ckptLoadLists h
  have hnLevel : (UInt32.ofNat pSnap.levels.length).toNat = pSnap.levels.length :=
    toNat_length (h.nLevel.trans (by decide))
  obtain ⟨iCmpId, levels, iId', iLogOff, redirect, nBlock, aiAppend, freelist, nWrite⟩ := pSnap
  obtain ⟨a, b, c, d, rfl⟩ : ∃ a b c d, aiAppend = [a, b, c, d] :=
    List.length_eq_four.mp h.aiAppend
  have hlog : ∃ l₀ l₁ l₂ l₃, ckptExportLog pDb bLog = [l₀, l₁, l₂, l₃] ∧
      ckptRead64 l₀ l₁ = logPointer pDb bLog := by
    cases bLog
    · exact ⟨_, _, _, _, rfl, rfl⟩
    · exact ⟨_, _, _, _, rfl, ckptRead64_append pDb.iOldLog⟩
  obtain ⟨l₀, l₁, l₂, l₃, hlog, hptr⟩ := hlog
  obtain ⟨nCkpt, cksum, hexport⟩ := export_split pDb bLog iId bCksum
    ⟨iCmpId, levels, iId', iLogOff, redirect, nBlock, [a, b, c, d], freelist, nWrite⟩
  rw [hlog] at hexport
  rw [hexport]
  unfold lsmCheckpointDeserialize
  have hread := hlists cksum
  rw [← hnLevel] at hread
  simp only [Snapshot.mk.injEq]
  refine ⟨rfl, ?_, ckptRead64_append iId, hptr, ?_, Int32.toInt32_toUInt32 nBlock, ?_, ?_, rfl⟩
  · exact congrArg (fun x => x.1.1) hread
  · exact congrArg (fun x => x.1.2.1) hread
  · show [ckptRead64 _ _, ckptRead64 _ _, ckptRead64 _ _, ckptRead64 _ _] = _
    exact congr (congrArg _ (ckptRead64_append a)) (congr (congrArg _ (ckptRead64_append b))
      (congr (congrArg _ (ckptRead64_append c)) (congr (congrArg _ (ckptRead64_append d)) rfl)))
  · exact congrArg (fun x => x.1.2.2) hread

end Reads

/-! ### The size of a checkpoint -/

/-- The level as the choice of levels sees it, with `nLeft` records left to merge. -/
def Level.shape (p : Level) (nLeft : ℕ) : LevelChoice.Level where
  iAge := p.iAge.toNat
  nRight := p.aRhs.length
  bFreelistOnly := p.flags &&& 1 = 1
  nLeft := nLeft

/-- `nRhs` in `lsmDatabaseFull`. -/
def nRhs (levels : List Level) : ℕ :=
  (levels.map fun p => if p.aRhs.length = 0 then 1 else p.aRhs.length).sum

section Size

variable {pSnap : Snapshot} {p : Level}

theorem lsmDatabaseFull_iff (levels : List Level) :
    LevelChoice.lsmDatabaseFull (levels.map fun p => p.shape 0) = true ↔
      LevelChoice.LSM_MAX_RHS_SEGMENTS ≤ nRhs levels := by
  rw [LevelChoice.lsmDatabaseFull, decide_eq_true_iff, List.map_map]
  rfl

theorem levelInts_le (h : p.Ok) :
    levelInts p ≤ 31 * if p.aRhs.length = 0 then 1 else p.aRhs.length := by
  unfold levelInts
  cases hmerge : p.pMerge with
  | none =>
      simp only [h.noMerge hmerge, List.length_nil, if_true]
      omega
  | some pMerge =>
      obtain ⟨hne, -, hinput⟩ := h.merge pMerge hmerge
      have hpos := List.length_pos_iff.mpr hne
      simp only [if_neg hpos.ne']
      omega

/-- With no more segments than `lsmDatabaseFull` allows and one level more, a checkpoint fits
into a meta page. -/
theorem ckptInts_le (h : pSnap.Ok) (hfew : nRhs pSnap.levels ≤ LevelChoice.LSM_MAX_RHS_SEGMENTS) :
    ckptInts pSnap ≤ metaPageInts := by
  have hlevels : ∀ levels : List Level, (∀ p ∈ levels, p.Ok) →
      (levels.map levelInts).sum ≤ 31 * nRhs levels := by
    intro levels hok
    induction levels with
    | nil => exact Nat.zero_le _
    | cons p levels ih =>
        have hp := levelInts_le (hok p List.mem_cons_self)
        have hrest := ih fun q hq => hok q (List.mem_cons_of_mem p hq)
        simp only [nRhs, List.map_cons, List.sum_cons] at hrest ⊢
        omega
  have hsum := hlevels pSnap.levels h.levels
  have hredirect := h.redirect
  have hfree := h.freelist
  simp only [ckptInts, metaPageInts, LevelChoice.LSM_MAX_RHS_SEGMENTS, LSM_MAX_BLOCK_REDIRECTS,
    LSM_MAX_FREELIST_ENTRIES] at *
  omega

/-- **Checkpoints are read back and fit into a meta page** exactly where the integers of
their levels, redirects and free-list entries do. -/
theorem export_fits_iff (h : pSnap.Ok) (pDb : Db) (bLog : Bool) (iId : Int64) (bCksum : Bool) :
    (lsmCheckpointDeserialize true (ckptExportSnapshot pDb bLog iId bCksum pSnap) =
        { pSnap with iId := iId, iLogOff := logPointer pDb bLog, iCmpId := pDb.iCmpId } ∧
      (ckptExportSnapshot pDb bLog iId bCksum pSnap).length ≤ metaPageInts) ↔
    ckptInts pSnap ≤ metaPageInts := by
  rw [length_export h]
  exact and_iff_right (deserialize_export h pDb bLog iId bCksum)

/-- The snapshot after `n` trees of one page were flushed, and nothing was merged. -/
def flushedSnapshot (n : ℕ) : Snapshot where
  iCmpId := 1
  levels := (List.range n).map fun i =>
    ⟨⟨Int64.ofNat (n - i), Int64.ofNat (n - i), 0, 1⟩, [], 0, 0, none⟩
  iId := 11
  iLogOff := 0
  redirect := []
  nBlock := 1
  aiAppend := [0, 0, 0, 0]
  freelist := []
  nWrite := UInt32.ofNat n

theorem flushedSnapshot_ok {n : ℕ} (hn : n < 2 ^ 31) : (flushedSnapshot n).Ok where
  levels := by
    intro p hp
    obtain ⟨i, -, rfl⟩ := List.mem_map.mp hp
    exact ⟨Nat.two_pow_pos 31, fun _ => rfl, nofun⟩
  nLevel := by
    show ((List.range n).map _).length < 2 ^ 31
    rw [List.length_map, List.length_range]
    exact hn
  aiAppend := rfl
  redirect := Nat.zero_le _
  freelist := Nat.zero_le _

/-- A checkpoint of two levels. -/
theorem export_fits_twoLevels :
    (ckptExportSnapshot ⟨0, 0, 0, [], 1, 1048576, 4096⟩ true 12 true
      (flushedSnapshot 2)).length ≤ metaPageInts :=
  ((export_fits_iff (flushedSnapshot_ok (by decide)) _ true 12 true).mpr (by decide)).2

theorem flushedSnapshot_reachable (n : ℕ) : LevelChoice.Reachable (fun _ _ => True)
    ((flushedSnapshot n).levels.map fun p => p.shape 0) := by
  have hlevels : (flushedSnapshot n).levels.map (fun p => p.shape 0) =
      List.replicate n ⟨0, 0, false, 0⟩ := by
    rw [flushedSnapshot, List.map_map, List.eq_replicate_iff]
    refine ⟨by rw [List.length_map, List.length_range], fun p hp => ?_⟩
    obtain ⟨i, -, rfl⟩ := List.mem_map.mp hp
    show (⟨0, 0, decide ((0 : UInt16) &&& 1 = 1), 0⟩ : LevelChoice.Level) = ⟨0, 0, false, 0⟩
    decide
  rw [hlevels]
  clear hlevels
  induction n with
  | zero => exact .start
  | succ n ih =>
      have hnext := LevelChoice.Reachable.flush false ih
      cases n with
      | zero => exact hnext
      | succ n => exact hnext

/-- **Without merges, there are too many levels**: after 1636 flushes in flush-only mode a
checkpoint does not fit into a meta page. -/
theorem export_exceeds_metaPage : ∃ pSnap : Snapshot, pSnap.Ok ∧
    LevelChoice.Reachable (fun _ _ => True) (pSnap.levels.map fun p => p.shape 0) ∧
    ∀ pDb bLog iId bCksum,
      metaPageInts < (ckptExportSnapshot pDb bLog iId bCksum pSnap).length := by
  have hok : (flushedSnapshot 1636).Ok := flushedSnapshot_ok (by decide)
  refine ⟨flushedSnapshot 1636, hok, flushedSnapshot_reachable 1636, fun pDb bLog iId bCksum => ?_⟩
  have hsum : ((flushedSnapshot 1636).levels.map levelInts).sum = 16360 := by
    have hconst : (flushedSnapshot 1636).levels.map levelInts = List.replicate 1636 10 := by
      rw [flushedSnapshot, List.map_map, List.eq_replicate_iff]
      refine ⟨by rw [List.length_map, List.length_range], fun p hp => ?_⟩
      obtain ⟨i, -, rfl⟩ := List.mem_map.mp hp
      rfl
    rw [hconst, List.sum_replicate_nat]
  rw [length_export hok, ckptInts, hsum]
  decide

end Size

end CkptExport

end Lsm

end MoVeBench
