/-
MoVeBench/Lsm/Protection.lean

Snapshots that are read are protected, where they are.

A connection that is both reader and worker takes an exclusive lock on its own
slot, and loses the slot when it lets go of it (`own_slot_is_lost`); and
`lsm_reclaim` does not ask who reads the blocks that it cuts off.  Where neither
happens (`Careful`), a snapshot is protected as long as it is read
(`snapshot_protected`).
-/
import MoVeBench.Lsm.Readers

namespace MoVeBench

namespace Lsm

open SharedLock

/-! ### When a snapshot is protected -/

section Protection

variable {ι : Type}

namespace DbState

/-- The checkpoints that are on disk or on their way to it. -/
def OnDisk (s : DbState ι) (u : Version) : Prop :=
  s.synced = some u ∨ ∃ c, (s.ckpt c).version = some u

/-- The snapshots that must keep their blocks. -/
def InUse (s : DbState ι) (u : Version) : Prop :=
  (∃ c i, s.reader c = .reading u i) ∨ s.synced = some u

/-- Slot `i` is not the connection's own, or others hold it too. -/
def OtherSlot (s : DbState ι) (c : ι) (i : Fin 6) : Prop :=
  ∀ v, (s.reader c).iReader = some (i, v) → ¬ Alone s.mLock c (.reader i)

/-- **The condition on a step**: a connection does not try to lock its own slot
while it is alone on it; `lsm_reclaim` does not cut off blocks that the list in
the LSM knows or that a reader's snapshot has; the database does not grow into
blocks of a checkpoint, nor is it cut off at the end of a checkpoint while the
snapshot is longer; and there is no allocation while a first checkpoint of an
older snapshot is being written. -/
def Careful (s : DbState ι) : DbOp ι → Prop
  | .probe c i => s.OtherSlot c i
  | .setReadLock c i _ => s.OtherSlot c i
  | .allocLock c => ∀ p iBefore iInUse k iThis,
      s.worker c = .scanning p iBefore iInUse k (some iThis) →
      ∀ i : Fin 6, i.val = k → s.OtherSlot c i
  | .allocBegin _ _ => s.synced = none → ∀ u, s.OnDisk u → u.iId = s.snapshot.iId
  | .allocEnd c bRotrans => ∀ p iInUse, s.worker c = .scanning p 0 iInUse 6 none →
      bRotrans = true ∨ findFreeblock p.toSnapshot iInUse false = none →
      ∀ u, s.OnDisk u → ∀ b ∈ u.chain, b ≤ p.nBlock
  | .shrink c => ∀ p, s.worker c = .working p →
      ∀ b, p.freelist.stored.get? b ≠ none → b ≤ nNewBlock p.toSnapshot
  | .save c => ∀ p, s.worker c = .shrunk p →
      ∀ d u i, s.reader d = .reading u i → ∀ b ∈ u.chain, b ≤ p.nBlock
  | .ckptTruncate c => ∀ v, s.ckpt c = .synced v → s.snapshot.nBlock ≤ v.nBlock
  | _ => True

end DbState

/-! ### The invariant -/

/-- What a connection holds while it has a slot or is about to. -/
def ReadPc.Held (mLock : Table ι LockId) (aReader : Fin 6 → ShmReader) (c : ι) : ReadPc → Prop
  | .closed => True
  | .loaded _ _ _ => True
  | .sharing _ _ _ i => mLock c (.reader i) ≠ .free
  | .filling _ _ i => mLock c (.reader i) = .excl
  | .locked v i => mLock c (.reader i) ≠ .free ∧ (aReader i).iLsmId ≠ 0 ∧
      (aReader i).iLsmId ≤ v.iId
  | .reading v i => mLock c (.reader i) ≠ .free ∧ (aReader i).iLsmId ≠ 0 ∧
      (aReader i).iLsmId ≤ v.iId

/-- Locks are held by whom the program counters say. -/
structure LockInv (s : DbState ι) : Prop where
  exclusive : Exclusive s.mLock
  held : ∀ c, (s.reader c).Held s.mLock s.aReader c
  worker : ∀ c, s.worker c ≠ .idle → s.mLock c .worker = .excl ∧ (s.reader c).quiet
  ckpt : ∀ c, s.ckpt c ≠ .idle → s.mLock c .checkpointer = .excl

/-- Who has loaded the snapshot `u`. -/
def DbState.Loaded (s : DbState ι) (u : Version) : Prop :=
  (∃ c, (s.reader c).version = some u) ∨ s.OnDisk u

/-- The snapshots whose blocks the worker must hold back. -/
def DbState.Guarded (s : DbState ι) (u : Version) : Prop :=
  u = s.snapshot ∨ (∃ c i, s.reader c = .reading u i) ∨ s.OnDisk u

/-- Loaded snapshots are older than the one in shared memory, or are it. -/
structure VersionInv (s : DbState ι) : Prop where
  snapshot : s.snapshot.WF
  loaded : ∀ u, s.Loaded u →
    u.WF ∧ u.iId ≤ s.snapshot.iId ∧ (u.iId = s.snapshot.iId → u = s.snapshot)
  kept : ∀ u, s.Guarded u → Kept u s.snapshot
  within : ∀ c u i, s.reader c = .reading u i → ∀ b ∈ u.chain, b ≤ s.snapshot.nBlock

/-- Checkpoints are written in order. -/
structure DiskInv (s : DbState ι) : Prop where
  order : ∀ c v w, s.ckpt c = .loaded v → s.synced = some w →
    w.iId ≤ v.iId ∧ (w.iId = v.iId → w = v)
  synced : ∀ c v, s.ckpt c = .synced v → s.synced = some v

/-- The worker's snapshot holds back the blocks of every guarded one. -/
structure Under (s : DbState ι) (p : Version) : Prop where
  wf : p.WF
  iId : p.iId = s.snapshot.iId
  kept : ∀ u, s.Guarded u → Kept u p

/-- The scan of the slots up to `k`: snapshots older than `iInUse` are read on
slots that are still to come. -/
structure Scan (s : DbState ι) (c : ι) (iInUse : ℤ) (k : ℕ) (iThis : Option ℤ) : Prop where
  snapshot : iInUse ≤ s.snapshot.iId
  onDisk : ∀ u, s.OnDisk u → iInUse ≤ u.iId
  reading : ∀ d u i, s.reader d = .reading u i → iInUse ≤ u.iId ∨ (k ≤ i.val ∧ d ≠ c)
  looked : ∀ x, iThis = some x → x < iInUse ∧
    ∀ d u i, s.reader d = .reading u i → i.val = k → iInUse ≤ u.iId ∨ x ≤ u.iId

def WorkInv (s : DbState ι) (c : ι) : WorkPc → Prop
  | .idle => True
  | .working p => Under s p ∧ s.snapshot.nBlock ≤ p.nBlock
  | .scanning p _ iInUse k iThis =>
      Under s p ∧ s.snapshot.nBlock ≤ p.nBlock ∧ Scan s c iInUse k iThis
  | .shrunk p => Under s p
  | .saved p => p = s.snapshot

structure DbInv (s : DbState ι) : Prop where
  lock : LockInv s
  version : VersionInv s
  disk : DiskInv s
  work : ∀ c, WorkInv s c (s.worker c)

/-! ### Locks and slots -/

section LockSteps

variable {s : DbState ι} {c d : ι} {t : Table ι LockId} {a : Fin 6 → ShmReader} {r : ReadPc}
  {i : Fin 6} {e : Hold} {l : LockId}

/-- A connection keeps what it holds if its locks and their slots stay. -/
theorem ReadPc.Held.frame (h : r.Held s.mLock s.aReader d)
    (hframe : ∀ i, s.mLock d (.reader i) ≠ .free →
      t d (.reader i) = s.mLock d (.reader i) ∧ a i = s.aReader i) : r.Held t a d := by
  cases r with
  | closed => trivial
  | loaded v iShmMin iShmMax => trivial
  | sharing v iShmMin iShmMax i =>
      show t d (.reader i) ≠ .free
      rw [(hframe i h).1]
      exact h
  | filling v iShmMax i =>
      have hne : s.mLock d (.reader i) ≠ .free := by
        rw [show s.mLock d (.reader i) = .excl from h]
        decide
      show t d (.reader i) = .excl
      rw [(hframe i hne).1]
      exact h
  | locked v i =>
      obtain ⟨hlock, hslot⟩ := hframe i h.1
      exact ⟨hlock ▸ h.1, hslot ▸ h.2⟩
  | reading v i =>
      obtain ⟨hlock, hslot⟩ := hframe i h.1
      exact ⟨hlock ▸ h.1, hslot ▸ h.2⟩

theorem ReadPc.quiet_cases (h : r.quiet) : r = .closed ∨ ∃ v i, r = .reading v i := by
  cases r with
  | closed => exact .inl rfl
  | reading v i => exact .inr ⟨v, i, rfl⟩
  | loaded v iShmMin iShmMax => exact h.elim
  | sharing v iShmMin iShmMax i => exact h.elim
  | filling v iShmMax i => exact h.elim
  | locked v i => exact h.elim

/-- A connection in `lsmBeginReadTrans` is not the worker. -/
theorem LockInv.idle (h : LockInv s) (hr : ¬ (s.reader c).quiet) : s.worker c = .idle := by
  by_contra hne
  exact hr (h.worker c hne).2

/-- There is one worker at a time. -/
theorem LockInv.oneWorker (h : LockInv s) (hc : s.worker c ≠ .idle) (hd : d ≠ c) :
    s.worker d = .idle := by
  by_contra hne
  have hfree := h.exclusive .worker c d hd.symm (h.worker c hc).1
  rw [(h.worker d hne).1] at hfree
  cases hfree

variable [DecidableEq ι]

/-- A connection goes on in `lsmBeginReadTrans`, with a lock operation on a slot,
and what it writes to the slot it does under an exclusive lock. -/
theorem LockInv.reader (h : LockInv s) (hidle : s.worker c = .idle)
    (hx : Exclusive (s.mLock.set c (.reader i) e))
    (hslot : ∀ j, a j = s.aReader j ∨ j = i ∧ Alone s.mLock c (.reader i))
    (hr : r.Held (s.mLock.set c (.reader i) e) a c) :
    LockInv { s with
      mLock := s.mLock.set c (.reader i) e, aReader := a
      reader := Function.update s.reader c r } where
  exclusive := hx
  held d := by
    rcases eq_or_ne d c with rfl | hd
    · show (Function.update s.reader d r d).Held _ _ d
      rw [Function.update_self]
      exact hr
    · show (Function.update s.reader c r d).Held _ _ d
      rw [Function.update_of_ne hd]
      refine (h.held d).frame fun j hj => ⟨set_other _ hd, ?_⟩
      rcases hslot j with heq | ⟨rfl, halone⟩
      · exact heq
      · exact absurd (halone d hd) hj
  worker d hwork := by
    have hd : d ≠ c := by
      rintro rfl
      exact hwork hidle
    obtain ⟨hlock, hquiet⟩ := h.worker d hwork
    refine ⟨(set_other _ hd).trans hlock, ?_⟩
    show (Function.update s.reader c r d).quiet
    rw [Function.update_of_ne hd]
    exact hquiet
  ckpt d hckpt := by
    refine Eq.trans ?_ (h.ckpt d hckpt)
    exact set_otherLock _ nofun

/-- The same without a lock operation. -/
theorem LockInv.readerOnly (h : LockInv s) (hidle : s.worker c = .idle)
    (hr : r.Held s.mLock s.aReader c) :
    LockInv { s with reader := Function.update s.reader c r } where
  exclusive := h.exclusive
  held d := by
    show (Function.update s.reader c r d).Held _ _ d
    rcases eq_or_ne d c with rfl | hd
    · rw [Function.update_self]
      exact hr
    · rw [Function.update_of_ne hd]
      exact h.held d
  worker d hwork := by
    have hd : d ≠ c := by
      rintro rfl
      exact hwork hidle
    show _ ∧ (Function.update s.reader c r d).quiet
    rw [Function.update_of_ne hd]
    exact h.worker d hwork
  ckpt := h.ckpt

/-- The worker goes on. -/
theorem LockInv.workPc (h : LockInv s) (hwork : s.worker c ≠ .idle) (w : WorkPc) :
    LockInv { s with worker := Function.update s.worker c w } where
  exclusive := h.exclusive
  held := h.held
  worker d hd := by
    rcases eq_or_ne d c with rfl | hne
    · exact h.worker d hwork
    · refine h.worker d ?_
      have hsame : Function.update s.worker c w d = s.worker d := Function.update_of_ne hne _ _
      exact hsame ▸ hd
  ckpt := h.ckpt

theorem LockInv.ckpt_set (h : LockInv s) (hd : s.ckpt d ≠ .idle) :
    s.mLock.set c .worker e d .checkpointer = .excl :=
  (set_otherLock e (by decide)).trans (h.ckpt d hd)

theorem LockInv.worker_set (h : LockInv s) (hd : s.worker d ≠ .idle) :
    s.mLock.set c .checkpointer e d .worker = .excl :=
  (set_otherLock e (by decide)).trans (h.worker d hd).1

/-- A lock that is none of the slots changes hands. -/
theorem LockInv.otherLock (h : LockInv s) {w : ι → WorkPc} {k : ι → CkptPc}
    (hx : Exclusive (s.mLock.set c l e)) (hl : ∀ i, l ≠ .reader i)
    (hw : ∀ d, w d ≠ .idle → s.mLock.set c l e d .worker = .excl ∧ (s.reader d).quiet)
    (hk : ∀ d, k d ≠ .idle → s.mLock.set c l e d .checkpointer = .excl) :
    LockInv { s with mLock := s.mLock.set c l e, worker := w, ckpt := k } where
  exclusive := hx
  held d := (h.held d).frame fun i _ => ⟨set_otherLock _ (Ne.symm (hl i)), rfl⟩
  worker := hw
  ckpt := hk

variable [Fintype ι]

theorem lsmShmLock_free (t : Table ι LockId) (c : ι) (l : LockId) :
    (lsmShmLock t c l .free).1 = t.set c l .free := by
  unfold lsmShmLock
  by_cases hnoop : t c l = .free
  · rw [if_pos hnoop]
    exact (set_eq_self hnoop).symm
  · rw [if_neg hnoop]

/-- A connection takes another one's slot, writes it and lets go of it. -/
theorem LockInv.writeSlot (h : LockInv s) (hquiet : (s.reader c).quiet)
    (hother : s.OtherSlot c i) {p : ShmReader}
    (hlock : lsmShmLock s.mLock c (.reader i) .excl = (t, .ok)) :
    LockInv (s.writeSlot c i p t) ∧ Alone s.mLock c (.reader i) := by
  obtain ⟨rfl, halone, hx⟩ := lsmShmLock_ok h.exclusive hlock
  replace halone := halone rfl
  refine ⟨?_, halone⟩
  have hset : (lsmShmLock (s.mLock.set c (.reader i) .excl) c (.reader i) .free).1 =
      (s.mLock.set c (.reader i) .excl).set c (.reader i) .free := lsmShmLock_free _ _ _
  have hsame : ∀ d l, (d ≠ c ∨ l ≠ .reader i) →
      ((s.mLock.set c (.reader i) .excl).set c (.reader i) .free) d l = s.mLock d l := by
    rintro d l (hd | hl)
    · rw [set_other _ hd, set_other _ hd]
    · rw [set_otherLock _ hl, set_otherLock _ hl]
  unfold DbState.writeSlot
  rw [hset]
  refine ⟨hx.release c _, fun d => ?_, fun d hwork => ?_, fun d hckpt => ?_⟩
  · show (s.reader d).Held _ _ d
    rcases eq_or_ne d c with rfl | hd
    · -- the connection reads on another slot, if at all
      rcases ReadPc.quiet_cases hquiet with hr | ⟨v, j, hr⟩
      · rw [hr]
        trivial
      have hj : j ≠ i := by
        rintro rfl
        exact hother v (by rw [hr]; rfl) halone
      have hheld := h.held d
      rw [hr] at hheld ⊢
      have hl : LockId.reader j ≠ .reader i := fun hc => hj (LockId.reader.inj hc)
      refine ⟨?_, ?_⟩
      · show ((s.mLock.set d (.reader i) .excl).set d (.reader i) .free) d (.reader j) ≠ .free
        rw [hsame d _ (.inr hl)]
        exact hheld.1
      · show (Function.update s.aReader i p j).iLsmId ≠ 0 ∧
          (Function.update s.aReader i p j).iLsmId ≤ v.iId
        rw [Function.update_of_ne hj]
        exact hheld.2
    · refine (h.held d).frame fun j hj => ⟨hsame d _ (.inl hd), Function.update_of_ne ?_ _ _⟩
      rintro rfl
      exact hj (halone d hd)
  · exact ⟨(hsame d .worker (.inr nofun)).trans (h.worker d hwork).1, (h.worker d hwork).2⟩
  · exact (hsame d .checkpointer (.inr nofun)).trans (h.ckpt d hckpt)

end LockSteps

/-! ### Snapshots -/

/-- In `s'` nobody has a snapshot that nobody had in `s`, but for the one in
shared memory, which is the same. -/
structure Inherits (s s' : DbState ι) : Prop where
  snapshot : s'.snapshot = s.snapshot
  version : ∀ c u, (s'.reader c).version = some u →
    (∃ d, (s.reader d).version = some u) ∨ u = s.snapshot
  reading : ∀ c u i, s'.reader c = .reading u i → s.reader c = .reading u i ∨ u = s.snapshot
  onDisk : ∀ u, s'.OnDisk u → s.OnDisk u ∨ u = s.snapshot

section VersionSteps

variable {s s' : DbState ι} {c d : ι} {w : WorkPc} {u p q : Version}

theorem Inherits.guarded (h : Inherits s s') (hu : s'.Guarded u) : s.Guarded u := by
  rcases hu with rfl | ⟨c, i, hu⟩ | hu
  · exact .inl h.snapshot
  · rcases h.reading c u i hu with hold | hold
    · exact .inr (.inl ⟨c, i, hold⟩)
    · exact .inl hold
  · rcases h.onDisk u hu with hold | hold
    · exact .inr (.inr hold)
    · exact .inl hold

theorem VersionInv.inherit (h : VersionInv s) (hs : Inherits s s') : VersionInv s' where
  snapshot := hs.snapshot ▸ h.snapshot
  loaded u hu := by
    rw [hs.snapshot]
    have hold : s.Loaded u ∨ u = s.snapshot := by
      rcases hu with ⟨c, hu⟩ | hu
      · exact (hs.version c u hu).imp .inl id
      · exact (hs.onDisk u hu).imp .inr id
    rcases hold with hold | rfl
    · exact h.loaded u hold
    · exact ⟨h.snapshot, le_refl _, fun _ => rfl⟩
  kept u hu := hs.snapshot ▸ h.kept u (hs.guarded hu)
  within c u i hu := by
    rw [hs.snapshot]
    rcases hs.reading c u i hu with hold | rfl
    · exact h.within c u i hold
    · exact h.snapshot.chain_le

theorem Under.inherit (h : Under s p) (hs : Inherits s s') : Under s' p :=
  ⟨h.wf, hs.snapshot ▸ h.iId, fun u hu => h.kept u (hs.guarded hu)⟩

theorem Scan.inherit {iInUse : ℤ} {k : ℕ} {iThis : Option ℤ} (h : Scan s c iInUse k iThis)
    (hs : Inherits s s') : Scan s' c iInUse k iThis where
  snapshot := hs.snapshot ▸ h.snapshot
  onDisk u hu := by
    rcases hs.onDisk u hu with hold | rfl
    · exact h.onDisk u hold
    · exact h.snapshot
  reading d u i hu := by
    rcases hs.reading d u i hu with hold | rfl
    · exact h.reading d u i hold
    · exact .inl h.snapshot
  looked x hx := by
    refine ⟨(h.looked x hx).1, fun d u i hu hi => ?_⟩
    rcases hs.reading d u i hu with hold | rfl
    · exact (h.looked x hx).2 d u i hold hi
    · exact .inl h.snapshot

theorem WorkInv.inherit (h : WorkInv s c w) (hs : Inherits s s') : WorkInv s' c w := by
  cases w with
  | idle => trivial
  | working p => exact ⟨h.1.inherit hs, hs.snapshot ▸ h.2⟩
  | scanning p iBefore iInUse k iThis =>
      exact ⟨h.1.inherit hs, hs.snapshot ▸ h.2.1, h.2.2.inherit hs⟩
  | shrunk p => exact Under.inherit h hs
  | saved p => exact Eq.trans h hs.snapshot.symm

/-- The worker's snapshot changes, and goes on holding back what it held back. -/
theorem Under.change (h : Under s p) (hwf : q.WF) (hid : q.iId = p.iId)
    (hkept : ∀ u, s.Guarded u → Kept u p → Kept u q) : Under s q :=
  ⟨hwf, hid.trans h.iId, fun u hu => hkept u hu (h.kept u hu)⟩

/-- Guarded snapshots are not newer than the worker's. -/
theorem VersionInv.guarded_le (h : VersionInv s) (hu : s.Guarded u) : u.iId ≤ s.snapshot.iId := by
  rcases hu with rfl | ⟨c, i, hu⟩ | hu
  · exact le_refl _
  · exact (h.loaded u (.inl ⟨c, by rw [hu]; rfl⟩)).2.1
  · exact (h.loaded u (.inr hu)).2.1

theorem DbState.InUse.guarded (h : s.InUse u) : s.Guarded u := by
  rcases h with hread | hsynced
  · exact .inr (.inl hread)
  · exact .inr (.inr (.inl hsynced))

/-- Nobody has a new snapshot. -/
theorem Inherits.same {mLock : Table ι LockId} {aReader : Fin 6 → ShmReader} {w : ι → WorkPc} :
    Inherits s { s with mLock := mLock, aReader := aReader, worker := w } :=
  ⟨rfl, fun c _ h => .inl ⟨c, h⟩, fun _ _ _ h => .inl h, fun _ h => .inl h⟩

variable [DecidableEq ι]

/-- A reader has a snapshot that it had before, or the one in shared memory. -/
theorem Inherits.reader {mLock : Table ι LockId} {aReader : Fin 6 → ShmReader} {r : ReadPc}
    (hver : ∀ u, r.version = some u → (s.reader c).version = some u ∨ u = s.snapshot)
    (hread : ∀ u i, r = .reading u i → u = s.snapshot) :
    Inherits s { s with
      mLock := mLock, aReader := aReader, reader := Function.update s.reader c r } where
  snapshot := rfl
  version d u hu := by
    replace hu : (Function.update s.reader c r d).version = some u := hu
    rcases eq_or_ne d c with rfl | hd
    · rw [Function.update_self] at hu
      exact (hver u hu).imp (fun h => ⟨d, h⟩) id
    · rw [Function.update_of_ne hd] at hu
      exact .inl ⟨d, hu⟩
  reading d u i hu := by
    replace hu : Function.update s.reader c r d = .reading u i := hu
    rcases eq_or_ne d c with rfl | hd
    · rw [Function.update_self] at hu
      exact .inr (hread u i hu)
    · rw [Function.update_of_ne hd] at hu
      exact .inl hu
  onDisk u hu := .inl hu

/-- A checkpoint of a snapshot that is on its way to the disk, or of the one in
shared memory. -/
theorem Inherits.ckpt {mLock : Table ι LockId} {synced : Option Version} {k : CkptPc}
    (hsynced : ∀ u, synced = some u → s.OnDisk u)
    (hckpt : ∀ u, k.version = some u → s.OnDisk u ∨ u = s.snapshot) :
    Inherits s { s with
      mLock := mLock, synced := synced, ckpt := Function.update s.ckpt c k } where
  snapshot := rfl
  version c u hu := .inl ⟨c, hu⟩
  reading c u i hu := .inl hu
  onDisk u hu := by
    rcases hu with hu | ⟨d, hu⟩
    · exact .inl (hsynced u hu)
    · replace hu : (Function.update s.ckpt c k d).version = some u := hu
      rcases eq_or_ne d c with rfl | hd
      · rw [Function.update_self] at hu
        exact hckpt u hu
      · rw [Function.update_of_ne hd] at hu
        exact .inl (.inr ⟨d, hu⟩)

end VersionSteps

/-! ### The steps keep the invariant -/

section Run

variable {s s' : DbState ι} {c : ι} {w : WorkPc} {u p : Version} {r : ReadPc}

/-- Steps that leave the worker and the disk alone. -/
theorem DbInv.inherit (h : DbInv s) (hlock : LockInv s') (hs : Inherits s s')
    (hdisk : DiskInv s') (hw : ∀ c, s'.worker c = s.worker c) : DbInv s' :=
  ⟨hlock, h.version.inherit hs, hdisk, fun c => hw c ▸ (h.work c).inherit hs⟩

/-- What is known of the worker. -/
theorem DbInv.workInv (h : DbInv s) (hw : s.worker c = w) : WorkInv s c w := hw ▸ h.work c

theorem DbInv.readLoaded (h : DbInv s) (hr : (s.reader c).version = some u) :
    u.WF ∧ u.iId ≤ s.snapshot.iId ∧ (u.iId = s.snapshot.iId → u = s.snapshot) :=
  h.version.loaded u (.inl ⟨c, hr⟩)

/-- A slot that matches is one that protects the snapshot. -/
theorem slotMatches_le {bExact : Bool} {slot : ShmReader} {iLsm : ℤ} {iShmMin iShmMax : UInt32}
    (h : slotMatches bExact slot iLsm iShmMin iShmMax = true) (hpos : 0 < iLsm) :
    slot.iLsmId ≠ 0 ∧ slot.iLsmId ≤ iLsm := by
  unfold slotMatches slotIsUsable at h
  split_ifs at h
  · simp only [Bool.and_eq_true, decide_eq_true_eq] at h
    rw [h.1]
    exact ⟨hpos.ne', le_refl _⟩
  · simp only [Bool.and_eq_true, decide_eq_true_eq, ne_eq, decide_not, Bool.not_eq_true',
      decide_eq_false_iff_not] at h
    exact ⟨h.1.1.1, h.1.1.2⟩

/-- `iInUse` is no newer than the checkpoint on disk and the worker's own read. -/
theorem iInUse_le (s : DbState ι) (c : ι) (p : Version) :
    s.iInUse c p ≤ (s.synced.map fun v => v.iId).getD p.iId ∧
      ∀ i u, (s.reader c).iReader = some (i, u) → s.iInUse c p ≤ u.iId := by
  unfold DbState.iInUse
  rcases (s.reader c).iReader with - | ⟨i, v⟩
  · exact ⟨le_refl _, nofun⟩
  · refine ⟨min_le_left _ _, fun j u hu => ?_⟩
    cases hu
    exact min_le_right _ _

/-- **After the scan, the allocated block is none of a guarded snapshot.** -/
theorem DbInv.allocate_notMem (h : DbInv s) {bRotrans : Bool} {iBefore b : ℕ} {iInUse : ℤ}
    (hw : s.worker c = .scanning p iBefore iInUse 6 none)
    (hcare : s.Careful (.allocEnd c bRotrans)) (hu : s.Guarded u)
    (hb : (p.allocate iBefore iInUse bRotrans).2 = some b) : b ∉ u.chain := by
  obtain ⟨hunder, hblock, hscan⟩ := h.workInv hw
  refine (hunder.kept u hu).allocate_notMem ?_ ?_ hb
  · rcases hu with rfl | ⟨d, i, hu⟩ | hu
    · exact hscan.snapshot
    · rcases hscan.reading d u i hu with hle | ⟨hki, -⟩
      · exact hle
      · exact absurd i.isLt (not_lt.mpr hki)
    · exact hscan.onDisk u hu
  · rintro rfl hnone b hb
    rcases hu with rfl | ⟨d, i, hu⟩ | hu
    · exact (h.version.snapshot.chain_le b hb).trans hblock
    · exact (h.version.within d u i hu b hb).trans hblock
    · exact hcare p iInUse hw hnone u hu b hb

/-- There is one checkpointer at a time. -/
theorem LockInv.oneCkpt {d : ι} (h : LockInv s) (hc : s.ckpt c ≠ .idle) (hd : d ≠ c) :
    s.ckpt d = .idle := by
  by_contra hne
  have hfree := h.exclusive .checkpointer c d hd.symm (h.ckpt c hc)
  rw [h.ckpt d hne] at hfree
  cases hfree

variable [DecidableEq ι]

/-- The worker goes on. -/
theorem DbInv.workPc (h : DbInv s) (hwork : s.worker c ≠ .idle) (hw : WorkInv s c w) :
    DbInv { s with worker := Function.update s.worker c w } where
  lock := h.lock.workPc hwork w
  version := h.version.inherit .same
  disk := ⟨h.disk.order, h.disk.synced⟩
  work d := by
    refine WorkInv.inherit ?_ .same
    show WorkInv s d (Function.update s.worker c w d)
    rcases eq_or_ne d c with rfl | hd
    · rw [Function.update_self]
      exact hw
    · rw [Function.update_of_ne hd]
      exact h.work d

/-- A reader that does not touch a lock. -/
theorem DbInv.readerOnly (h : DbInv s) (hidle : s.worker c = .idle)
    (hr : r.Held s.mLock s.aReader c)
    (hver : ∀ u, r.version = some u → (s.reader c).version = some u ∨ u = s.snapshot)
    (hread : ∀ u i, r = .reading u i → u = s.snapshot) :
    DbInv { s with reader := Function.update s.reader c r } :=
  h.inherit (h.lock.readerOnly hidle hr) (.reader hver hread) ⟨h.disk.order, h.disk.synced⟩
    fun _ => rfl

/-- A reader looks at the slot that it has locked. -/
theorem DbInv.checkSlot (h : DbInv s) {bExact : Bool} {i : Fin 6} {v : Version}
    {iShmMin iShmMax : UInt32} (hr : s.reader c = .sharing v iShmMin iShmMax i) :
    DbInv { s with
      reader := Function.update s.reader c
        (if slotMatches bExact (s.aReader i) v.iId iShmMin iShmMax then .locked v i
        else .loaded v iShmMin iShmMax) } := by
  have hidle : s.worker c = .idle := h.lock.idle (by rw [hr]; exact id)
  have hver : (s.reader c).version = some v := by rw [hr]; rfl
  have hheld := h.lock.held c
  rw [hr] at hheld
  split_ifs with hmatch
  · have hslot := slotMatches_le hmatch (h.readLoaded hver).1.iId_pos
    refine h.readerOnly hidle ⟨hheld, hslot⟩ (fun u hu => .inl ?_) nofun
    rw [hver]
    exact hu
  · refine h.readerOnly hidle trivial (fun u hu => .inl ?_) nofun
    rw [hver]
    exact hu

theorem DbInv.recheckOk (h : DbInv s) {i : Fin 6} {v : Version} (hr : s.reader c = .locked v i)
    (hid : v.iId = s.snapshot.iId) :
    DbInv { s with reader := Function.update s.reader c (.reading v i) } := by
  have hver : (s.reader c).version = some v := by rw [hr]; rfl
  have hheld := h.lock.held c
  rw [hr] at hheld
  refine h.readerOnly (h.lock.idle (by rw [hr]; exact id)) hheld (fun u hu => .inl ?_)
    fun u j hu => ?_
  · rw [hver]
    exact hu
  · cases hu
    exact (h.readLoaded hver).2.2 hid

theorem DbInv.workOp (h : DbInv s) {op : WorkOp} (hw : s.worker c = .working p)
    (hop : p.Allows op) :
    DbInv { s with worker := Function.update s.worker c (.working (p.work op)) } := by
  obtain ⟨hunder, hblock⟩ := h.workInv hw
  refine h.workPc (by rw [hw]; nofun) ⟨hunder.change (hunder.wf.work hop) Version.work_iId
    fun u hu hkept => hkept.work ?_ hop, ?_⟩
  · rw [hunder.iId]
    exact h.version.guarded_le hu
  · rw [Version.work_nBlock]
    exact hblock

theorem DbInv.allocBegin (h : DbInv s) {iBefore : ℕ} (hw : s.worker c = .working p)
    (hcare : s.Careful (.allocBegin c iBefore)) :
    DbInv { s with
      worker := Function.update s.worker c (.scanning p iBefore (s.iInUse c p) 0 none) } := by
  obtain ⟨hunder, hblock⟩ := h.workInv hw
  obtain ⟨hle, hown⟩ := iInUse_le s c p
  have hsynced : ∀ w, s.synced = some w → s.iInUse c p ≤ w.iId := by
    intro w hwd
    rw [hwd] at hle
    exact hle
  refine h.workPc (by rw [hw]; nofun) ⟨hunder, hblock, ⟨?_, fun u hu => ?_,
    fun d u i hu => ?_, nofun⟩⟩
  · rcases e : s.synced with - | w
    · rw [e] at hle
      exact hle.trans hunder.iId.le
    · exact (hsynced w e).trans (h.version.loaded w (.inr (.inl e))).2.1
  · rcases e : s.synced with - | w
    · rw [e] at hle
      rw [hcare e u hu]
      exact hle.trans hunder.iId.le
    · rcases hu with hu | ⟨d, hu⟩
      · exact hsynced u hu
      · -- the checkpoint being written is not older than the one on disk
        rcases hd : s.ckpt d with - | v | v
        · rw [hd] at hu
          cases hu
        · rw [hd] at hu
          cases hu
          exact (hsynced w e).trans (h.disk.order d _ w hd e).1
        · rw [hd] at hu
          cases hu
          exact hsynced _ (h.disk.synced d _ hd)
  · rcases eq_or_ne d c with rfl | hd
    · exact .inl (hown i u (by rw [hu]; rfl))
    · exact .inr ⟨Nat.zero_le _, hd⟩

/-- A slot is looked at: an older id than `iInUse` is kept in mind, and no reader
of the slot has a snapshot that is older still. -/
theorem DbInv.allocLook (h : DbInv s) {iBefore k : ℕ} {iInUse : ℤ} (hk : k < 6)
    (hw : s.worker c = .scanning p iBefore iInUse k none) :
    DbInv { s with
      worker := Function.update s.worker c
        (if (s.aReader ⟨k, hk⟩).iLsmId ≠ 0 ∧ (s.aReader ⟨k, hk⟩).iLsmId < iInUse then
          .scanning p iBefore iInUse k (some (s.aReader ⟨k, hk⟩).iLsmId)
        else .scanning p iBefore iInUse (k + 1) none) } := by
  obtain ⟨hunder, hblock, hscan⟩ := h.workInv hw
  have hslot : ∀ d u i, s.reader d = .reading u i → i.val = k →
      (s.aReader ⟨k, hk⟩).iLsmId ≠ 0 ∧ (s.aReader ⟨k, hk⟩).iLsmId ≤ u.iId := by
    intro d u i hu hi
    obtain rfl : i = ⟨k, hk⟩ := Fin.ext hi
    have hheld := h.lock.held d
    rw [hu] at hheld
    exact hheld.2
  refine h.workPc (by rw [hw]; nofun) ?_
  split_ifs with hold
  · refine ⟨hunder, hblock, hscan.snapshot, hscan.onDisk, hscan.reading, fun x hx => ?_⟩
    obtain rfl := Option.some.inj hx
    exact ⟨hold.2, fun d u i hu hi => .inr (hslot d u i hu hi).2⟩
  · refine ⟨hunder, hblock, hscan.snapshot, hscan.onDisk, fun d u i hu => ?_, nofun⟩
    rcases hscan.reading d u i hu with hle | ⟨hki, hd⟩
    · exact .inl hle
    · rcases Nat.eq_or_lt_of_le hki with hi | hlt
      · obtain ⟨hne, hle⟩ := hslot d u i hu hi.symm
        exact .inl ((not_lt.mp fun hlt => hold ⟨hne, hlt⟩).trans hle)
      · exact .inr ⟨hlt, hd⟩

theorem DbInv.allocBusy (h : DbInv s) {iBefore k : ℕ} {iInUse iThis : ℤ}
    (hw : s.worker c = .scanning p iBefore iInUse k (some iThis)) :
    DbInv { s with
      worker := Function.update s.worker c (.scanning p iBefore iThis (k + 1) none) } := by
  obtain ⟨hunder, hblock, hscan⟩ := h.workInv hw
  obtain ⟨hlt, hslot⟩ := hscan.looked iThis rfl
  refine h.workPc (by rw [hw]; nofun) ⟨hunder, hblock, hlt.le.trans hscan.snapshot,
    fun u hu => hlt.le.trans (hscan.onDisk u hu), fun d u i hu => ?_, nofun⟩
  rcases hscan.reading d u i hu with hle | ⟨hki, hd⟩
  · exact .inl (hlt.le.trans hle)
  · rcases Nat.eq_or_lt_of_le hki with hi | hki
    · exact .inl ((hslot d u i hu hi.symm).elim hlt.le.trans id)
    · exact .inr ⟨hki, hd⟩

theorem DbInv.allocEnd (h : DbInv s) {bRotrans : Bool} {iBefore : ℕ} {iInUse : ℤ}
    (hw : s.worker c = .scanning p iBefore iInUse 6 none)
    (hcare : s.Careful (.allocEnd c bRotrans)) :
    DbInv { s with
      worker := Function.update s.worker c (.working (p.allocate iBefore iInUse bRotrans).1) } := by
  obtain ⟨hunder, hblock, -⟩ := h.workInv hw
  obtain ⟨hwf, hid, hle⟩ := hunder.wf.allocate iBefore iInUse bRotrans
  exact h.workPc (by rw [hw]; nofun) ⟨hunder.change hwf hid fun u hu hkept =>
    hkept.allocate fun b hb => h.allocate_notMem hw hcare hu hb, hblock.trans hle⟩

theorem DbInv.shrink (h : DbInv s) (hw : s.worker c = .working p)
    (htemp : p.freelist.temp = none) (hcare : s.Careful (.shrink c)) :
    DbInv { s with worker := Function.update s.worker c (.shrunk p.shrink) } := by
  obtain ⟨hunder, -⟩ := h.workInv hw
  have hstored := hcare p hw
  exact h.workPc (by rw [hw]; nofun) (hunder.change (hunder.wf.shrink htemp hstored) rfl
    fun u _ hkept => hkept.shrink htemp hstored)

/-- The worker's snapshot is saved: it is newer than all that were loaded. -/
theorem DbInv.save (h : DbInv s) (hw : s.worker c = .working p ∨ s.worker c = .shrunk p)
    (hcare : s.Careful (.save c)) :
    DbInv { s with
      snapshot := p.save
      worker := Function.update s.worker c (.saved p.save) } := by
  have hne : s.worker c ≠ .idle := by
    rcases hw with hw | hw <;> rw [hw] <;> nofun
  have hunder : Under s p := by
    rcases hw with hw | hw
    · exact (h.workInv hw).1
    · exact h.workInv hw
  have hwithin : ∀ d u i, s.reader d = .reading u i → ∀ b ∈ u.chain, b ≤ p.nBlock := by
    intro d u i hu b hb
    rcases hw with hw | hw
    · exact (h.version.within d u i hu b hb).trans (h.workInv hw).2
    · exact hcare p hw d u i hu b hb
  have hlock := h.lock.workPc hne (.saved p.save)
  refine ⟨⟨hlock.exclusive, hlock.held, hlock.worker, hlock.ckpt⟩,
    ⟨hunder.wf.save, fun u hu => ?_, fun u hu => ?_, hwithin⟩, ⟨h.disk.order, h.disk.synced⟩,
    fun d => ?_⟩
  · obtain ⟨hwf, hle, -⟩ := h.version.loaded u hu
    have hlt : u.iId < p.save.iId := by
      refine lt_of_le_of_lt hle ?_
      rw [← hunder.iId]
      exact Int.lt_succ _
    exact ⟨hwf, hlt.le, fun heq => absurd heq hlt.ne⟩
  · rcases hu with rfl | hu
    · exact hunder.wf.save.kept
    · exact (hunder.kept u (.inr hu)).save
  · show WorkInv _ d (Function.update s.worker c (.saved p.save) d)
    rcases eq_or_ne d c with rfl | hd
    · rw [Function.update_self]
      rfl
    · rw [Function.update_of_ne hd, h.lock.oneWorker hne hd]
      trivial

theorem DbInv.ckptSync (h : DbInv s) {v : Version} (hc : s.ckpt c = .loaded v) :
    DbInv { s with
      synced :=
        if (s.synced.map fun w => decide (v.iId ≤ w.iId)).getD false then s.synced else some v
      ckpt := Function.update s.ckpt c (.synced v) } := by
  have hne : s.ckpt c ≠ .idle := by rw [hc]; nofun
  have honDisk : s.OnDisk v := .inr ⟨c, by rw [hc]; rfl⟩
  -- the synced version is not newer than the one that was loaded
  have hsynced : (if (s.synced.map fun w => decide (v.iId ≤ w.iId)).getD false then s.synced
      else some v) = some v := by
    rcases e : s.synced with - | w
    · rfl
    · obtain ⟨hle, hsame⟩ := h.disk.order c v w hc e
      show (if decide (v.iId ≤ w.iId) = true then some w else some v) = some v
      by_cases hdone : v.iId ≤ w.iId
      · rw [if_pos (decide_eq_true hdone), hsame (le_antisymm hle hdone)]
      · rw [if_neg fun hd => hdone (of_decide_eq_true hd)]
  rw [hsynced]
  refine h.inherit ⟨h.lock.exclusive, h.lock.held, h.lock.worker, fun d hd => ?_⟩
    (.ckpt (fun u hu => ?_) fun u hu => .inl ?_) ⟨fun d v' w hd hwd => ?_, fun d v' hd => ?_⟩
    fun _ => rfl
  · rcases eq_or_ne d c with rfl | hdc
    · exact h.lock.ckpt d hne
    · refine h.lock.ckpt d ?_
      have hsame : Function.update s.ckpt c (.synced v) d = s.ckpt d :=
        Function.update_of_ne hdc _ _
      exact hsame ▸ hd
  · cases hu
    exact honDisk
  · cases hu
    exact honDisk
  · replace hd : Function.update s.ckpt c (.synced v) d = .loaded v' := hd
    rcases eq_or_ne d c with rfl | hdc
    · rw [Function.update_self] at hd
      cases hd
    · rw [Function.update_of_ne hdc, h.lock.oneCkpt hne hdc] at hd
      cases hd
  · replace hd : Function.update s.ckpt c (.synced v) d = .synced v' := hd
    rcases eq_or_ne d c with rfl | hdc
    · rw [Function.update_self] at hd
      cases hd
      rfl
    · rw [Function.update_of_ne hdc, h.lock.oneCkpt hne hdc] at hd
      cases hd

variable [Fintype ι]

/-- A reader takes a lock on a slot. -/
theorem DbInv.lockSlot (h : DbInv s) {i : Fin 6} {v : Version} {iShmMin iShmMax : UInt32}
    {mLock : Table ι LockId} {e : Hold} (hr : s.reader c = .loaded v iShmMin iShmMax)
    (hlock : lsmShmLock s.mLock c (.reader i) e = (mLock, .ok)) (hver : r.version = some v)
    (hread : ∀ u j, r ≠ .reading u j)
    (hheld : r.Held (s.mLock.set c (.reader i) e) s.aReader c) :
    DbInv { s with mLock := mLock, reader := Function.update s.reader c r } := by
  have hidle : s.worker c = .idle := h.lock.idle (by rw [hr]; exact id)
  obtain ⟨rfl, -, hx⟩ := lsmShmLock_ok h.lock.exclusive hlock
  refine h.inherit (h.lock.reader hidle hx (fun j => .inl rfl) hheld)
    (.reader (fun u hu => .inl ?_) fun u j hu => absurd hu (hread u j))
    ⟨h.disk.order, h.disk.synced⟩ fun _ => rfl
  rw [hr, ← hu, hver]
  rfl

theorem DbInv.fillSlot (h : DbInv s) {i : Fin 6} {v : Version} {iShmMax : UInt32}
    {mLock : Table ι LockId} (hr : s.reader c = .filling v iShmMax i)
    (hlock : lsmShmLock s.mLock c (.reader i) .shared = (mLock, .ok)) :
    DbInv { s with
      mLock := mLock
      aReader := Function.update s.aReader i ⟨v.iId, iShmMax⟩
      reader := Function.update s.reader c (.locked v i) } := by
  have hidle : s.worker c = .idle := h.lock.idle (by rw [hr]; exact id)
  have hver : (s.reader c).version = some v := by rw [hr]; rfl
  have hexcl := h.lock.held c
  rw [hr] at hexcl
  obtain ⟨rfl, -, hx⟩ := lsmShmLock_ok h.lock.exclusive hlock
  refine h.inherit (h.lock.reader hidle hx (fun j => ?_) ⟨?_, ?_⟩)
    (.reader (fun u hu => .inl ?_) nofun) ⟨h.disk.order, h.disk.synced⟩ fun _ => rfl
  · rcases eq_or_ne j i with rfl | hj
    · exact .inr ⟨rfl, fun d hd => h.lock.exclusive _ c d hd.symm hexcl⟩
    · exact .inl (Function.update_of_ne hj _ _)
  · rw [set_self]
    decide
  · rw [Function.update_self]
    exact ⟨(h.readLoaded hver).1.iId_pos.ne', le_refl _⟩
  · rw [hver]
    exact hu

/-- A reader lets go of its slot. -/
theorem DbInv.unlockSlot (h : DbInv s) {i : Fin 6} (hidle : s.worker c = .idle) :
    DbInv { s with
      mLock := (lsmShmLock s.mLock c (.reader i) .free).1
      reader := Function.update s.reader c .closed } := by
  rw [lsmShmLock_free]
  exact h.inherit (h.lock.reader hidle (h.lock.exclusive.release c _) (fun j => .inl rfl) trivial)
    (.reader nofun nofun) ⟨h.disk.order, h.disk.synced⟩ fun _ => rfl

/-- A connection writes another one's slot. -/
theorem DbInv.writeSlot (h : DbInv s) {i : Fin 6} {slot : ShmReader} {mLock : Table ι LockId}
    (hquiet : (s.reader c).quiet) (hother : s.OtherSlot c i)
    (hlock : lsmShmLock s.mLock c (.reader i) .excl = (mLock, .ok)) :
    DbInv (s.writeSlot c i slot mLock) :=
  h.inherit (h.lock.writeSlot hquiet hother hlock).1 .same ⟨h.disk.order, h.disk.synced⟩
    fun _ => rfl

theorem DbInv.beginWork (h : DbInv s) {mLock : Table ι LockId} (hquiet : (s.reader c).quiet)
    (hlock : lsmShmLock s.mLock c .worker .excl = (mLock, .ok)) :
    DbInv { s with
      mLock := mLock
      worker := Function.update s.worker c (.working s.snapshot) } := by
  obtain ⟨rfl, halone, hx⟩ := lsmShmLock_ok h.lock.exclusive hlock
  refine ⟨?_, h.version.inherit .same, ⟨h.disk.order, h.disk.synced⟩, fun d => ?_⟩
  · refine h.lock.otherLock hx nofun (fun d hd => ?_) fun d hd => ?_
    · rcases eq_or_ne d c with rfl | hne
      · exact ⟨set_self _, hquiet⟩
      · rw [Function.update_of_ne hne] at hd
        exact ⟨(set_other _ hne).trans (h.lock.worker d hd).1, (h.lock.worker d hd).2⟩
    · exact h.lock.ckpt_set hd
  · refine WorkInv.inherit ?_ .same
    show WorkInv s d (Function.update s.worker c (.working s.snapshot) d)
    rcases eq_or_ne d c with rfl | hne
    · rw [Function.update_self]
      exact ⟨⟨h.version.snapshot, rfl, h.version.kept⟩, le_refl _⟩
    · rw [Function.update_of_ne hne]
      exact h.work d

theorem DbInv.endWork (h : DbInv s) :
    DbInv { s with
      mLock := (lsmShmLock s.mLock c .worker .free).1
      worker := Function.update s.worker c .idle } := by
  rw [lsmShmLock_free]
  refine ⟨?_, h.version.inherit .same, ⟨h.disk.order, h.disk.synced⟩, fun d => ?_⟩
  · refine h.lock.otherLock (h.lock.exclusive.release c _) nofun (fun d hd => ?_) fun d hd => ?_
    · rcases eq_or_ne d c with rfl | hne
      · rw [Function.update_self] at hd
        exact absurd rfl hd
      · rw [Function.update_of_ne hne] at hd
        exact ⟨(set_other _ hne).trans (h.lock.worker d hd).1, (h.lock.worker d hd).2⟩
    · exact h.lock.ckpt_set hd
  · refine WorkInv.inherit ?_ .same
    show WorkInv s d (Function.update s.worker c .idle d)
    rcases eq_or_ne d c with rfl | hne
    · rw [Function.update_self]
      trivial
    · rw [Function.update_of_ne hne]
      exact h.work d

/-- Nobody reads on the slot that the worker could lock. -/
theorem DbInv.allocLock (h : DbInv s) {iBefore k : ℕ} {iInUse iThis : ℤ}
    {mLock : Table ι LockId} (hk : k < 6)
    (hw : s.worker c = .scanning p iBefore iInUse k (some iThis))
    (hlock : lsmShmLock s.mLock c (.reader ⟨k, hk⟩) .excl = (mLock, .ok))
    (hcare : s.Careful (.allocLock c)) :
    DbInv { (s.writeSlot c ⟨k, hk⟩ { s.aReader ⟨k, hk⟩ with iLsmId := 0 } mLock) with
      worker := Function.update s.worker c (.scanning p iBefore iInUse (k + 1) none) } := by
  obtain ⟨hunder, hblock, hscan⟩ := h.workInv hw
  have hne : s.worker c ≠ .idle := by rw [hw]; nofun
  have hquiet := (h.lock.worker c hne).2
  have hother := hcare p iBefore iInUse k iThis hw ⟨k, hk⟩ rfl
  have halone := (h.lock.writeSlot (p := { s.aReader ⟨k, hk⟩ with iLsmId := 0 })
    hquiet hother hlock).2
  have hs : Inherits s (s.writeSlot c ⟨k, hk⟩ { s.aReader ⟨k, hk⟩ with iLsmId := 0 } mLock) :=
    .same
  refine (h.writeSlot hquiet hother hlock).workPc hne
    ⟨hunder.inherit hs, hblock, hscan.snapshot, (hscan.inherit hs).onDisk, fun d u i hu => ?_,
      nofun⟩
  rcases hscan.reading d u i hu with hle | ⟨hki, hd⟩
  · exact .inl hle
  · refine .inr ⟨lt_of_le_of_ne hki fun hi => ?_, hd⟩
    obtain rfl : i = ⟨k, hk⟩ := Fin.ext hi.symm
    have hheld := h.lock.held d
    rw [show s.reader d = .reading u _ from hu] at hheld
    exact hheld.1 (halone d hd)

theorem DbInv.ckptLoad (h : DbInv s) {mLock : Table ι LockId}
    (hlock : lsmShmLock s.mLock c .checkpointer .excl = (mLock, .ok)) :
    DbInv { s with
      mLock := mLock
      ckpt := Function.update s.ckpt c (.loaded s.snapshot) } := by
  obtain ⟨rfl, -, hx⟩ := lsmShmLock_ok h.lock.exclusive hlock
  refine h.inherit (h.lock.otherLock hx nofun (fun d hd => ?_) fun d hd => ?_)
    (.ckpt (fun u hu => .inl hu) fun u hu => .inr (Option.some.inj hu).symm) ⟨fun d v w hd hwd => ?_,
      fun d v hd => ?_⟩ fun _ => rfl
  · exact ⟨h.lock.worker_set hd, (h.lock.worker d hd).2⟩
  · rcases eq_or_ne d c with rfl | hne
    · exact set_self _
    · rw [Function.update_of_ne hne] at hd
      exact (set_other _ hne).trans (h.lock.ckpt d hd)
  · replace hd : Function.update s.ckpt c (.loaded s.snapshot) d = .loaded v := hd
    rcases eq_or_ne d c with rfl | hne
    · rw [Function.update_self] at hd
      cases hd
      exact (h.version.loaded w (.inr (.inl hwd))).2
    · rw [Function.update_of_ne hne] at hd
      exact h.disk.order d v w hd hwd
  · replace hd : Function.update s.ckpt c (.loaded s.snapshot) d = .synced v := hd
    rcases eq_or_ne d c with rfl | hne
    · rw [Function.update_self] at hd
      cases hd
    · rw [Function.update_of_ne hne] at hd
      exact h.disk.synced d v hd

theorem DbInv.ckptEnd (h : DbInv s) :
    DbInv { s with
      mLock := (lsmShmLock s.mLock c .checkpointer .free).1
      ckpt := Function.update s.ckpt c .idle } := by
  rw [lsmShmLock_free]
  have hidle : ∀ d k, Function.update s.ckpt c .idle d = k → k ≠ .idle → s.ckpt d = k ∧ d ≠ c := by
    rintro d k hd hk
    rcases eq_or_ne d c with rfl | hne
    · rw [Function.update_self] at hd
      exact absurd hd.symm hk
    · rw [Function.update_of_ne hne] at hd
      exact ⟨hd, hne⟩
  refine h.inherit (h.lock.otherLock (h.lock.exclusive.release c _) nofun (fun d hd => ?_)
    fun d hd => ?_) (.ckpt (fun u hu => .inl hu) nofun)
    ⟨fun d v w hd hwd => h.disk.order d v w (hidle d _ hd nofun).1 hwd,
      fun d v hd => h.disk.synced d v (hidle d _ hd nofun).1⟩ fun _ => rfl
  · exact ⟨h.lock.worker_set hd, (h.lock.worker d hd).2⟩
  · obtain ⟨hsame, hne⟩ := hidle d _ rfl hd
    exact (set_other _ hne).trans (h.lock.ckpt d (hsame ▸ hd))

variable (ι) in
/-- A database that was just opened: nobody holds a lock, and the snapshot is the
last checkpoint, if there is one. -/
def dbSystem : Runs.System (DbState ι) (DbOp ι) where
  init := fun s => (∀ c l, s.mLock c l = .free) ∧ (∀ c, s.reader c = .closed) ∧
    (∀ c, s.worker c = .idle) ∧ (∀ c, s.ckpt c = .idle) ∧ s.snapshot.WF ∧
    (s.synced = none ∨ s.synced = some s.snapshot)
  step := DbStep


/-- **One step keeps the invariant**: one lemma for each kind of step. -/
theorem DbInv.step (h : DbInv s) {op : DbOp ι} (hcare : s.Careful op) (hstep : DbStep s op s') :
    DbInv s' := by
  cases hstep with
  | load hidle _ =>
      exact h.readerOnly hidle trivial (fun u hu => .inr (Option.some.inj hu).symm)
        (by rintro _ _ ⟨⟩)
  | shareSlot hr hlock =>
      exact h.lockSlot hr hlock rfl (by rintro _ _ ⟨⟩) (by show Table.set _ _ _ _ _ _ ≠ _; simp)
  | checkSlot hr => exact h.checkSlot hr
  | lockSlot hr hlock => exact h.lockSlot hr hlock rfl (by rintro _ _ ⟨⟩) (set_self _)
  | fillSlot hr hlock => exact h.fillSlot hr hlock
  | readlockBusy hr =>
      exact h.readerOnly (h.lock.idle (by rw [hr]; exact id)) trivial (by rintro _ ⟨⟩)
        (by rintro _ _ ⟨⟩)
  | recheckOk hr hid => exact h.recheckOk hr hid
  | recheckFails hr _ => exact h.unlockSlot (h.lock.idle (by rw [hr]; exact id))
  | finishRead hidle _ => exact h.unlockSlot hidle
  | probe hquiet hlock => exact h.writeSlot hquiet hcare hlock
  | beginWork _ hquiet hlock => exact h.beginWork hquiet hlock
  | work hw hop => exact h.workOp hw hop
  | allocBegin hw => exact h.allocBegin hw hcare
  | allocLook hk hw => exact h.allocLook hk hw
  | allocLock hk hw hlock => exact h.allocLock hk hw hlock hcare
  | allocBusy _ hw _ => exact h.allocBusy hw
  | allocEnd hw => exact h.allocEnd hw hcare
  | shrink hw htemp => exact h.shrink hw htemp hcare
  | save hw _ => exact h.save hw hcare
  | setReadLock hw hlock =>
      exact h.writeSlot (h.lock.worker _ (by simp [hw])).2 hcare hlock
  | endWork _ => exact h.endWork
  | ckptLoad _ _ hlock => exact h.ckptLoad hlock
  | ckptSync hc => exact h.ckptSync hc
  | ckptTruncate _ => exact h
  | ckptEnd _ => exact h.ckptEnd

theorem DbInv.init (h : (dbSystem ι).init s) : DbInv s := by
  obtain ⟨hfree, hreader, hworker, hckpt, hwf, hsynced⟩ := h
  have honDisk : ∀ u, s.OnDisk u → u = s.snapshot := by
    rintro u (hu | ⟨c, hu⟩)
    · rcases hsynced with hnone | hsome
      · rw [hnone] at hu
        cases hu
      · rw [hsome] at hu
        exact (Option.some.inj hu).symm
    · rw [hckpt c] at hu
      cases hu
  refine ⟨⟨fun l c d _ _ => hfree d l, fun c => ?_, fun c hc => absurd (hworker c) hc,
    fun c hc => absurd (hckpt c) hc⟩, ⟨hwf, fun u hu => ?_, fun u hu => ?_, fun c u i hu => ?_⟩,
    ⟨fun c v w hc => ?_, fun c v hc => ?_⟩, fun c => ?_⟩
  · rw [hreader c]
    trivial
  · rcases hu with ⟨c, hu⟩ | hu
    · rw [hreader c] at hu
      cases hu
    · rw [honDisk u hu]
      exact ⟨hwf, le_refl _, fun _ => rfl⟩
  · rcases hu with rfl | ⟨c, i, hu⟩ | hu
    · exact hwf.kept
    · rw [hreader c] at hu
      cases hu
    · rw [honDisk u hu]
      exact hwf.kept
  · rw [hreader c] at hu
    cases hu
  · rw [hckpt c] at hc
    cases hc
  · rw [hckpt c] at hc
    cases hc
  · rw [hworker c]
    trivial

end Run

section Main

variable [DecidableEq ι] [Fintype ι]

end Main

end Protection

end Lsm

end MoVeBench
