/-
MoVeBench/Lsm/SaveWorker.lean

Saving a snapshot in shared memory, and finding one again when the worker died half way
(`lsmCheckpointSaveWorker`, `lsmCheckpointLoad` and `lsmCheckpointLoadWorker` of `lsm_ckpt.c`).

The second copy is written before the first one, and the first one is read before the second
one.  So there is a whole copy at every moment: the old snapshot in the first copy until the
second one is complete, and the new snapshot in the second copy from then on.  Clients and
workers take the first copy unless its checksum is wrong, which is why they agree
(`saveWorker_stopped`).
-/
import MoVeBench.Lsm.Checkpoint

namespace MoVeBench

namespace Lsm.SaveWorker

/-! ### Saving and loading -/

/-- `memcpy`, stopped after `k` integers. -/
def copied (dst src : List UInt32) (k : ℕ) : List UInt32 :=
  src.take k ++ dst.drop (src.take k).length

/-- The shared memory where `lsmCheckpointSaveWorker` stopped after `k` integers of its two
copies. -/
def saveWorkerStopped (pShm : ShmHeader) (aCkpt : List UInt32) (k : ℕ) : ShmHeader :=
  { pShm with
    aSnap2 := copied pShm.aSnap2 aCkpt k
    aSnap1 := copied pShm.aSnap1 aCkpt (k - aCkpt.length) }

/-- `lsmCheckCompressionId`; `iId` is what the connection has after its factory was asked. -/
def lsmCheckCompressionId (iId iReq : UInt32) : Rc :=
  if iReq ≠ 0 ∧ iId ≠ iReq then .mismatch else .ok

/-- What `lsmCheckpointLoadWorker` finds: the integers of the snapshot, and the return code. -/
structure Loaded where
  aSnapshot : List UInt32
  rc : Rc
  deriving DecidableEq

/-- The repair of `lsmCheckpointLoadWorker`. -/
def repair (pShm : ShmHeader) : Option ShmHeader :=
  let nInt1 := nCkptOf pShm.aSnap1
  let nInt2 := nCkptOf pShm.aSnap2
  if nInt1 ≠ nInt2 ∨ ints pShm.aSnap1 nInt2 ≠ ints pShm.aSnap2 nInt2 then
    if ckptChecksumOk pShm.aSnap1 then
      some { pShm with aSnap2 := copied pShm.aSnap2 (ints pShm.aSnap1 nInt1) nInt1 }
    else if ckptChecksumOk pShm.aSnap2 then
      some { pShm with aSnap1 := copied pShm.aSnap1 (ints pShm.aSnap2 nInt2) nInt2 }
    else none
  else some pShm

/-- `lsmCheckpointLoadWorker` of a connection with the compression `iId`. -/
def lsmCheckpointLoadWorker (iId : UInt32) (pShm : ShmHeader) : ShmHeader × Loaded :=
  match repair pShm with
  | none => (pShm, ⟨[], .protocol⟩)
  | some pShm =>
      (pShm, ⟨ints pShm.aSnap1 (nCkptOf pShm.aSnap1),
        lsmCheckCompressionId iId (pShm.aSnap1.getD 3 0)⟩)

/-- The calls of the connections that come later. -/
inductive Later
  | load
  | loadWorker (iId : UInt32)

/-- The shared memory after a call. -/
def Later.next (pShm : ShmHeader) : Later → ShmHeader
  | .load => pShm
  | .loadWorker iId => (lsmCheckpointLoadWorker iId pShm).1

/-- The call succeeds with the snapshot. -/
def Later.Gives (pShm : ShmHeader) (aCkpt : List UInt32) : Later → Prop
  | .load => lsmCheckpointLoad pShm = .ok aCkpt
  | .loadWorker iId => (lsmCheckpointLoadWorker iId pShm).2 =
      ⟨aCkpt, lsmCheckCompressionId iId (aCkpt.getD 3 0)⟩

/-! ### Copies that hold a snapshot -/

/-- The array holds a snapshot, whatever is behind it. -/
def Holds (a aCkpt : List UInt32) : Prop := ints a aCkpt.length = aCkpt

instance (a aCkpt : List UInt32) : Decidable (Holds a aCkpt) := inferInstanceAs (Decidable (_ = _))

variable {a aCkpt aOld aNew : List UInt32} {pShm : ShmHeader}

theorem Holds.getD (h : Holds a aCkpt) {i : ℕ} (hi : i < aCkpt.length) :
    a.getD i 0 = aCkpt.getD i 0 := by
  have hget := ints_getD a hi
  rw [h] at hget
  exact hget.symm

theorem Holds.nCkptOf (h : Holds a aCkpt) (hexp : ExportedCkpt aCkpt) :
    nCkptOf a = aCkpt.length := by
  have hheader := hexp.header
  rw [← hexp.length]
  unfold Lsm.nCkptOf
  rw [h.getD (by omega)]

/-- A checksum looks at the integers that the array counts. -/
theorem ckptChecksumOk_ints (h : 3 ≤ nCkptOf a) :
    ckptChecksumOk (ints a (nCkptOf a)) = ckptChecksumOk a := by
  have hsame : ∀ i < nCkptOf a, (ints a (nCkptOf a)).getD i 0 = a.getD i 0 :=
    fun i hi => ints_getD a hi
  have hn : nCkptOf (ints a (nCkptOf a)) = nCkptOf a := by
    show ((ints a (nCkptOf a)).getD 2 0).toNat = _
    rw [hsame 2 (by omega)]
    rfl
  unfold ckptChecksumOk
  simp only [hn]
  rw [ckptChecksum_congr (fun i hi => hsame i (by omega)) h, hsame _ (by omega),
    hsame _ (by omega)]

theorem Holds.checksumOk (h : Holds a aCkpt) (hexp : ExportedCkpt aCkpt) :
    ckptChecksumOk a = true := by
  have hheader := hexp.header
  have hn := h.nCkptOf hexp
  rw [← ckptChecksumOk_ints (by omega), hn, h]
  exact hexp.cksum

/-- A whole copy. -/
theorem holds_copied (dst aCkpt : List UInt32) {k : ℕ} (h : aCkpt.length ≤ k) :
    Holds (copied dst aCkpt k) aCkpt := by
  unfold Holds copied
  rw [List.take_of_length_le h]
  exact ints_append aCkpt _

/-- The two copies hold the same snapshot. -/
def Both (pShm : ShmHeader) (aCkpt : List UInt32) : Prop :=
  Holds pShm.aSnap1 aCkpt ∧ Holds pShm.aSnap2 aCkpt

/-- The first copy is repaired from the second one, or not used. -/
inductive Serves (pShm : ShmHeader) (aCkpt : List UInt32) : Prop
  | first : Holds pShm.aSnap1 aCkpt → Serves pShm aCkpt
  | second : Holds pShm.aSnap2 aCkpt → 3 ≤ nCkptOf pShm.aSnap1 →
      ckptChecksumOk pShm.aSnap1 = false → Serves pShm aCkpt

/-- The copies differ, unless both hold the snapshot. -/
theorem not_differ {pShm : ShmHeader} (hexp : ExportedCkpt aCkpt)
    (hsame : ¬ (nCkptOf pShm.aSnap1 ≠ nCkptOf pShm.aSnap2 ∨
      ints pShm.aSnap1 (nCkptOf pShm.aSnap2) ≠ ints pShm.aSnap2 (nCkptOf pShm.aSnap2))) :
    Holds pShm.aSnap1 aCkpt ↔ Holds pShm.aSnap2 aCkpt := by
  obtain ⟨hn, hints⟩ := not_or.mp hsame
  rw [not_not] at hn hints
  constructor
  · intro h
    rw [← hn, h.nCkptOf hexp] at hints
    exact hints.symm.trans h
  · intro h
    rw [h.nCkptOf hexp] at hints
    exact hints.trans h

/-- After the repair both copies hold the snapshot. -/
theorem Serves.repair (h : Serves pShm aCkpt) (hexp : ExportedCkpt aCkpt) :
    ∃ pShm', repair pShm = some pShm' ∧ Both pShm' aCkpt := by
  have hcopy : ∀ dst, Holds (copied dst aCkpt aCkpt.length) aCkpt :=
    fun dst => holds_copied dst aCkpt le_rfl
  unfold SaveWorker.repair
  dsimp only
  split_ifs with hdiff hok1 hok2
  · rcases h with hfirst | ⟨-, -, hbad⟩
    · rw [hfirst.nCkptOf hexp, hfirst]
      exact ⟨_, rfl, hfirst, hcopy _⟩
    · exact absurd hok1 (by rw [hbad]; nofun)
  · rcases h with hfirst | ⟨hsecond, -, -⟩
    · exact absurd (hfirst.checksumOk hexp) hok1
    · rw [hsecond.nCkptOf hexp, hsecond]
      exact ⟨_, rfl, hcopy _, hsecond⟩
  · rcases h with hfirst | ⟨hsecond, -, -⟩
    · exact absurd (hfirst.checksumOk hexp) hok1
    · exact absurd (hsecond.checksumOk hexp) hok2
  · have hiff := not_differ hexp hdiff
    rcases h with hfirst | ⟨hsecond, -, -⟩
    · exact ⟨_, rfl, hfirst, hiff.mp hfirst⟩
    · exact ⟨_, rfl, hiff.mpr hsecond, hsecond⟩

/-- Clients load the snapshot. -/
theorem Serves.load (h : Serves pShm aCkpt) (hexp : ExportedCkpt aCkpt) :
    lsmCheckpointLoad pShm = .ok aCkpt := by
  have hcksum := hexp.cksum
  have hfits := hexp.fits
  unfold lsmCheckpointLoad
  dsimp only
  rcases h with hfirst | ⟨hsecond, hheader, hbad⟩
  · have hints : ints pShm.aSnap1 aCkpt.length = aCkpt := hfirst
    rw [hfirst.nCkptOf hexp, hints, if_pos ⟨hfits, hcksum⟩]
  · have hints : ints pShm.aSnap2 aCkpt.length = aCkpt := hsecond
    rw [if_neg, hsecond.nCkptOf hexp, hints, if_pos ⟨hfits, hcksum⟩]
    rw [ckptChecksumOk_ints hheader, hbad]
    nofun

/-- Every call gives the snapshot, and the shared memory goes on serving it. -/
theorem Serves.later (h : Serves pShm aCkpt) (hexp : ExportedCkpt aCkpt) (c : Later) :
    c.Gives pShm aCkpt ∧ Serves (c.next pShm) aCkpt ∧
      (∀ iId, c = .loadWorker iId → Both (c.next pShm) aCkpt) := by
  cases c with
  | load => exact ⟨h.load hexp, h, nofun⟩
  | loadWorker iId =>
      obtain ⟨pShm', hrepair, hboth⟩ := h.repair hexp
      have hheader := hexp.header
      have hnext : lsmCheckpointLoadWorker iId pShm =
          (pShm', ⟨aCkpt, lsmCheckCompressionId iId (aCkpt.getD 3 0)⟩) := by
        have hints : ints pShm'.aSnap1 aCkpt.length = aCkpt := hboth.1
        unfold lsmCheckpointLoadWorker
        rw [hrepair]
        dsimp only
        rw [hboth.1.nCkptOf hexp, hints, hboth.1.getD (by omega)]
      refine ⟨congrArg Prod.snd hnext, ?_, fun _ _ => ?_⟩
      · show Serves (lsmCheckpointLoadWorker iId pShm).1 aCkpt
        rw [hnext]
        exact .first hboth.1
      · show Both (lsmCheckpointLoadWorker iId pShm).1 aCkpt
        rw [hnext]
        exact hboth

/-! ### A worker that stops -/

/-- A part of one snapshot in front of a part of another one fails the checksum, unless it is one
of the two. -/
def MixturesFail (aSnap1 aOld aNew : List UInt32) : Prop :=
  ∀ k, ckptChecksumOk (copied aSnap1 aNew k) = true →
    Holds (copied aSnap1 aNew k) aOld ∨ Holds (copied aSnap1 aNew k) aNew

/-- The number of integers is a number of one of the two snapshots. -/
theorem header_copied (hold : ExportedCkpt aOld) (hnew : ExportedCkpt aNew)
    (hfirst : Holds pShm.aSnap1 aOld) (k : ℕ) : 3 ≤ nCkptOf (copied pShm.aSnap1 aNew k) := by
  have hnewHeader := hnew.header
  have holdHeader := hold.header
  have hcase : (copied pShm.aSnap1 aNew k).getD 2 0 = aNew.getD 2 0 ∨
      (copied pShm.aSnap1 aNew k).getD 2 0 = aOld.getD 2 0 := by
    unfold copied
    rcases Nat.lt_or_ge 2 k with hk | hk
    · left
      rw [List.getD_append _ _ _ _ (by rw [List.length_take]; omega), List.getD_eq_getElem?_getD,
        List.getElem?_take_of_lt hk, ← List.getD_eq_getElem?_getD]
    · right
      rw [List.getD_append_right _ _ _ _ (by rw [List.length_take]; omega), List.length_take,
        List.getD_eq_getElem?_getD, List.getElem?_drop, Nat.add_sub_cancel' (by omega),
        ← List.getD_eq_getElem?_getD, hfirst.getD (by omega)]
  have hlenNew := hnew.length
  have hlenOld := hold.length
  unfold nCkptOf at hlenNew hlenOld ⊢
  rcases hcase with h | h <;> rw [h] <;> omega

/-- **A worker that stops leaves one snapshot**: wherever the two copies of the new snapshot were
cut off, all later calls succeed, with the old snapshot or all of them with the new one, and
after a worker has loaded it both copies hold it. -/
theorem saveWorker_stopped (hold : ExportedCkpt aOld) (hnew : ExportedCkpt aNew)
    (hfirst : Holds pShm.aSnap1 aOld) (hmix : MixturesFail pShm.aSnap1 aOld aNew) (k : ℕ) :
    ∃ aCkpt, (aCkpt = aOld ∨ aCkpt = aNew) ∧ ∀ (before : List Later) (c : Later),
      c.Gives (before.foldl Later.next (saveWorkerStopped pShm aNew k)) aCkpt ∧
        (∀ iId, c = .loadWorker iId → Both ((before ++ [c]).foldl Later.next
          (saveWorkerStopped pShm aNew k)) aCkpt) := by
  have hserves : ∃ aCkpt, (aCkpt = aOld ∨ aCkpt = aNew) ∧
      Serves (saveWorkerStopped pShm aNew k) aCkpt := by
    rcases Nat.le_total k aNew.length with hk | hk
    · -- the first copy is untouched
      refine ⟨aOld, .inl rfl, .first ?_⟩
      show Holds (copied pShm.aSnap1 aNew (k - aNew.length)) aOld
      rw [Nat.sub_eq_zero_of_le hk]
      exact hfirst
    · -- the second copy is whole
      have hsecond : Holds (saveWorkerStopped pShm aNew k).aSnap2 aNew := holds_copied _ _ hk
      have hheader := header_copied hold hnew hfirst (k - aNew.length)
      cases hok : ckptChecksumOk (copied pShm.aSnap1 aNew (k - aNew.length)) with
      | false => exact ⟨aNew, .inr rfl, .second hsecond hheader hok⟩
      | true =>
          rcases hmix _ hok with hholds | hholds
          · exact ⟨aOld, .inl rfl, .first hholds⟩
          · exact ⟨aNew, .inr rfl, .first hholds⟩
  obtain ⟨aCkpt, hone, hserves⟩ := hserves
  have hexp : ExportedCkpt aCkpt := by
    rcases hone with rfl | rfl
    · exact hold
    · exact hnew
  refine ⟨aCkpt, hone, fun before c => ?_⟩
  have hrun : Serves (before.foldl Later.next (saveWorkerStopped pShm aNew k)) aCkpt := by
    induction before using List.reverseRecOn with
    | nil => exact hserves
    | append_singleton before d ih =>
        rw [List.foldl_append]
        exact (ih.later hexp d).2.1
  obtain ⟨hgives, -, hboth⟩ := hrun.later hexp c
  refine ⟨hgives, fun iId hc => ?_⟩
  rw [List.foldl_append]
  exact hboth iId hc

/-- The empty checkpoint and one with the next id. -/
def firstCkpt : List UInt32 := ckptLoadEmpty ⟨1024, 4096⟩

def secondCkpt : List UInt32 :=
  let cksum := ckptChecksum (firstCkpt.set 1 11) 25
  (((firstCkpt.set 1 11).set 23 cksum.1)).set 24 cksum.2

theorem secondCkpt_exported : ExportedCkpt secondCkpt :=
  ⟨by decide +kernel, by decide +kernel, by decide +kernel, by decide +kernel⟩

theorem firstCkpt_mixtures : MixturesFail firstCkpt firstCkpt secondCkpt := by
  intro k
  have hsmall : ∀ k < 25, ckptChecksumOk (copied firstCkpt secondCkpt k) = true →
      Holds (copied firstCkpt secondCkpt k) firstCkpt ∨
        Holds (copied firstCkpt secondCkpt k) secondCkpt := by decide +kernel
  rcases Nat.lt_or_ge k 25 with hk | hk
  · exact hsmall k hk
  · exact fun _ => .inr (holds_copied _ _ hk)

/-- The worker stops five integers into the first copy. -/
theorem saveWorker_stopped_thirty :
    ∃ aCkpt, (aCkpt = firstCkpt ∨ aCkpt = secondCkpt) ∧ ∀ (before : List Later) (c : Later),
      c.Gives (before.foldl Later.next
        (saveWorkerStopped ⟨firstCkpt, firstCkpt, 0⟩ secondCkpt 30)) aCkpt ∧
        (∀ iId, c = .loadWorker iId → Both ((before ++ [c]).foldl Later.next
          (saveWorkerStopped ⟨firstCkpt, firstCkpt, 0⟩ secondCkpt 30)) aCkpt) :=
  saveWorker_stopped (ckptLoadEmpty_exported ⟨1024, 4096⟩) secondCkpt_exported
    (by decide +kernel) firstCkpt_mixtures 30

end Lsm.SaveWorker

end MoVeBench
