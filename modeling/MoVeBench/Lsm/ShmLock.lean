/-
MoVeBench/Lsm/ShmLock.lean

The locks of the connections of one process, as bits (`lsm_shared.c`).

`mLock` of a connection has two bits for a lock slot, one for a shared and one for an exclusive
lock, and who holds the lock exclusively has both.  In multi-process mode the process has one
file lock a slot besides, for all its connections, and other processes have theirs.

`lsmShmLock` keeps the connections apart and the file lock as strong as it must be
(`Held.reachable`).  `lsmShmTestLock` is to say whether locks could be granted.  Its mask has
the bits of the first slot only, and the range of bytes that it has tested lies on the other
side of the first slot, so that it tells the truth for one slot and for no more
(`locksOk_iff`).
-/
import MoVeBench.Lib.SharedLock
import MoVeBench.Lsm.Checkpoint

namespace MoVeBench

namespace Lsm

namespace ShmLock

open SharedLock

/-! ### Slots -/

def LSM_LOCK_ROTRANS : ℕ := 7

def LSM_LOCK_NREADER : ℕ := 6

def LSM_LOCK_NRWCLIENT : ℕ := 16

def LSM_LOCK_READER (i : ℕ) : ℕ := i + LSM_LOCK_ROTRANS + 1

def LSM_LOCK_RWCLIENT (i : ℕ) : ℕ := i + LSM_LOCK_READER LSM_LOCK_NREADER

/-- The slots that `lsmShmLock` takes. -/
abbrev Slot : Type :=
  { iLock : ℕ // 1 ≤ iLock ∧ iLock ≤ LSM_LOCK_RWCLIENT (LSM_LOCK_NRWCLIENT - 1) }

theorem Slot.bounds (iLock : Slot) : 1 ≤ iLock.1 ∧ iLock.1 ≤ 29 := iLock.2

/-- `me`, the bit of an exclusive lock. -/
def me (iLock : ℕ) : BitVec 64 := 1#64 <<< (iLock - 1)

/-- `ms`, the bit of a shared lock. -/
def ms (iLock : ℕ) : BitVec 64 := 1#64 <<< (iLock + 32 - 1)

/-- How a connection holds a slot. -/
def holdOf (mLock : BitVec 64) (iLock : ℕ) : Hold :=
  if mLock &&& me iLock ≠ 0 then .excl
  else if mLock &&& ms iLock ≠ 0 then .shared
  else .free

/-- An exclusive lock implies the bit of a shared one, as `lsmShmLock` asserts. -/
def Implied (mLock : BitVec 64) (iLock : ℕ) : Prop :=
  mLock &&& me iLock = 0 ∨ mLock &&& ms iLock ≠ 0

/-! ### Connections and processes -/

/-- `n` connections of one process. -/
structure Locks (n : ℕ) where
  mLock : Fin n → BitVec 64
  /-- The file lock of this process. -/
  file : ℕ → Hold
  /-- The strongest file lock of another process. -/
  other : ℕ → Hold

/-- No locks at all. -/
def Locks.init (n : ℕ) : Locks n := ⟨fun _ => 0, fun _ => .free, fun _ => .free⟩

variable {n : ℕ}

/-- How the connections hold the slots. -/
def Locks.table (s : Locks n) : Table (Fin n) Slot := fun c iLock => holdOf (s.mLock c) iLock

/-- A file lock that another process holds is in the way of this one. -/
def conflicts : Hold → Hold → Bool
  | .excl, eType => decide (eType ≠ .free)
  | .shared, eType => decide (eType = .excl)
  | .free, _ => false

/-- `lsmPosixOsLock`, which may fail also for want of other things. -/
def lsmPosixOsLock (s : Locks n) (iLock : ℕ) (eType : Hold) (bFault : Bool) : Locks n × Rc :=
  if bFault then (s, .ioerr)
  else if conflicts (s.other iLock) eType then (s, .busy)
  else ({ s with file := fun i => if i = iLock then eType else s.file i }, .ok)

def lockSharedFile (bMultiProc : Bool) (s : Locks n) (iLock : ℕ) (eOp : Hold) (bFault : Bool) :
    Locks n × Rc :=
  if bMultiProc then lsmPosixOsLock s iLock eOp bFault else (s, .ok)

/-- How many of the other connections satisfy a condition. -/
def countOthers (s : Locks n) (db : Fin n) (p : BitVec 64 → Bool) : ℕ :=
  (List.finRange n).countP fun c => decide (c ≠ db) && p (s.mLock c)

def nExcl (s : Locks n) (db : Fin n) (iLock : ℕ) : ℕ :=
  countOthers s db fun mLock => decide (mLock &&& me iLock ≠ 0)

def nShared (s : Locks n) (db : Fin n) (iLock : ℕ) : ℕ :=
  countOthers s db fun mLock =>
    decide (mLock &&& me iLock = 0) && decide (mLock &&& ms iLock ≠ 0)

def Locks.setLock (s : Locks n) (db : Fin n) (mLock : BitVec 64) : Locks n :=
  { s with mLock := fun c => if c = db then mLock else s.mLock c }

/-- The request is not a no-op. -/
def needsWork (mLock : BitVec 64) (iLock : ℕ) : Hold → Bool
  | .free => decide (mLock &&& (me iLock ||| ms iLock) ≠ 0)
  | .shared => decide (mLock &&& (me iLock ||| ms iLock) ≠ ms iLock)
  | .excl => decide (mLock &&& me iLock = 0)

def lsmShmLock (bMultiProc : Bool) (s : Locks n) (db : Fin n) (iLock : ℕ) (eOp : Hold)
    (bFault : Bool) : Locks n × Rc :=
  let mLock := s.mLock db
  if needsWork mLock iLock eOp then
    match eOp with
    | .free =>
        -- the result of the file lock is not looked at
        let s := if nShared s db iLock = 0 then
            (lockSharedFile bMultiProc s iLock .free bFault).1 else s
        (s.setLock db (mLock &&& ~~~(me iLock ||| ms iLock)), .ok)
    | .shared =>
        if nExcl s db iLock ≠ 0 then (s, .busy)
        else
          let r := if nShared s db iLock = 0 then
              lockSharedFile bMultiProc s iLock .shared bFault else (s, .ok)
          if r.2 = .ok then (r.1.setLock db ((mLock ||| ms iLock) &&& ~~~me iLock), .ok) else r
    | .excl =>
        if nExcl s db iLock ≠ 0 ∨ nShared s db iLock ≠ 0 then (s, .busy)
        else
          let r := lockSharedFile bMultiProc s iLock .excl bFault
          if r.2 = .ok then (r.1.setLock db (mLock ||| (me iLock ||| ms iLock)), .ok) else r
  else (s, .ok)

/-! ### The test -/

/-- What `lsmShmTestLock` is asked. -/
structure TestArgs where
  iLock : Slot
  nLock : ℕ
  eOp : Hold
  slots : iLock.1 + nLock ≤ LSM_LOCK_RWCLIENT LSM_LOCK_NRWCLIENT
  eOp_ok : eOp ≠ .free

/-- The mask, with the bits of slot `iLock` in every turn of the loop. -/
def testMask (a : TestArgs) : BitVec 64 :=
  (List.range a.nLock).foldl (fun mask _ =>
    let mask := mask ||| me a.iLock
    if a.eOp = .excl then mask ||| ms a.iLock else mask) 0

/-- The bytes that `lsmPosixOsTestLock` looks at, as slots: slot `i` has byte `4096 - i`, and
the range of the test begins with the byte of `iLock`.  Length 0 is up to the end. -/
def inTestRange (a : TestArgs) (i : ℕ) : Bool :=
  decide (1 ≤ i) && decide (4096 - a.iLock.1 ≤ 4096 - i) &&
    (decide (a.nLock = 0) || decide (4096 - i < 4096 - a.iLock.1 + a.nLock))

/-- A process has no conflict with its own file locks. -/
def lsmPosixOsTestLock (s : Locks n) (a : TestArgs) : Rc :=
  if (List.range 33).any fun i => inTestRange a i && conflicts (s.other i) a.eOp then .busy
  else .ok

def lsmShmTestLock (bMultiProc : Bool) (s : Locks n) (db : Fin n) (a : TestArgs) : Rc :=
  if countOthers s db (fun mLock => decide (mLock &&& testMask a ≠ 0)) ≠ 0 then .busy
  else if bMultiProc then lsmPosixOsTestLock s a
  else .ok

/-! ### Runs -/

/-- What can happen. -/
inductive Step (bMultiProc : Bool) : Locks n → Locks n → Prop
  | lock (s : Locks n) (db : Fin n) (iLock : Slot) (eOp : Hold) (bFault : Bool) :
      Step bMultiProc s (lsmShmLock bMultiProc s db iLock eOp bFault).1
  /-- Another process takes or releases file locks. -/
  | other (s : Locks n) (iLock : Slot) (h : Hold) : conflicts h (s.file iLock) = false →
      Step bMultiProc s { s with other := fun i => if i = iLock.1 then h else s.other i }

/-- The states that requests in any order lead to. -/
inductive Reachable (bMultiProc : Bool) : Locks n → Prop
  | init : Reachable bMultiProc (.init n)
  | step {s s' : Locks n} : Reachable bMultiProc s → Step bMultiProc s s' →
      Reachable bMultiProc s'

/-! ### The bits of a slot -/

theorem and_bit_ne_zero (m : BitVec 64) {k : ℕ} (hk : k < 64) :
    m &&& 1#64 <<< k ≠ 0 ↔ m.getLsbD k = true := by
  have hbit : BitVec.twoPow 64 k ≠ 0#64 := by
    intro hzero
    have := congrArg (fun b => BitVec.getLsbD b k) hzero
    simp [hk] at this
  rw [← BitVec.twoPow_eq, BitVec.and_twoPow]
  cases hm : m.getLsbD k <;> simp [hbit]

theorem and_me_ne_zero (m : BitVec 64) (l : Slot) :
    m &&& me l ≠ 0 ↔ m.getLsbD (l - 1) = true :=
  and_bit_ne_zero m (by have := l.bounds; omega)

theorem and_ms_ne_zero (m : BitVec 64) (l : Slot) :
    m &&& ms l ≠ 0 ↔ m.getLsbD (l + 32 - 1) = true :=
  and_bit_ne_zero m (by have := l.bounds; omega)

theorem getLsbD_me (l : Slot) (k : ℕ) : (me l).getLsbD k = decide (k = l - 1) := by
  have hl := l.bounds
  have hlt : (l : ℕ) - 1 < 64 := by omega
  rw [me, ← BitVec.twoPow_eq, BitVec.getLsbD_twoPow, decide_eq_true hlt, Bool.true_and]
  exact decide_eq_decide.mpr eq_comm

theorem getLsbD_ms (l : Slot) (k : ℕ) : (ms l).getLsbD k = decide (k = l + 32 - 1) := by
  have hl := l.bounds
  have hlt : (l : ℕ) + 32 - 1 < 64 := by omega
  rw [ms, ← BitVec.twoPow_eq, BitVec.getLsbD_twoPow, decide_eq_true hlt, Bool.true_and]
  exact decide_eq_decide.mpr eq_comm

theorem holdOf_eq (m : BitVec 64) (l : Slot) : holdOf m l =
    if m.getLsbD (l - 1) then .excl else if m.getLsbD (l + 32 - 1) then .shared else .free := by
  unfold holdOf
  rw [if_congr (and_me_ne_zero m l) rfl (if_congr (and_ms_ne_zero m l) rfl rfl)]

theorem implied_iff (m : BitVec 64) (l : Slot) : Implied m l ↔
    (m.getLsbD (l - 1) = true → m.getLsbD (l + 32 - 1) = true) := by
  rw [Implied, and_ms_ne_zero, ← and_me_ne_zero, or_iff_not_imp_left]

/-- The bits of a connection behind a request that was granted. -/
def newLock (mLock : BitVec 64) (iLock : ℕ) : Hold → BitVec 64
  | .free => mLock &&& ~~~(me iLock ||| ms iLock)
  | .shared => (mLock ||| ms iLock) &&& ~~~me iLock
  | .excl => mLock ||| (me iLock ||| ms iLock)

theorem getLsbD_newLock (m : BitVec 64) (l : Slot) (e : Hold) {k : ℕ} (hk : k < 64) :
    (newLock m l e).getLsbD k = match e with
      | .free => m.getLsbD k && !(decide (k = l - 1) || decide (k = l + 32 - 1))
      | .shared => (m.getLsbD k || decide (k = l + 32 - 1)) && !decide (k = l - 1)
      | .excl => m.getLsbD k || (decide (k = l - 1) || decide (k = l + 32 - 1)) := by
  cases e <;>
    simp only [newLock, BitVec.getLsbD_and, BitVec.getLsbD_or, BitVec.getLsbD_not, getLsbD_me,
      getLsbD_ms, decide_eq_true hk, Bool.true_and]

/-- The bits of the slot are those of the lock, and the bits of other slots stay. -/
theorem bits_newLock (m : BitVec 64) (l i : Slot) (e : Hold) :
    (newLock m l e).getLsbD (i - 1) =
        (if i = l then decide (e = .excl) else m.getLsbD (i - 1)) ∧
      (newLock m l e).getLsbD (i + 32 - 1) =
        (if i = l then decide (e ≠ .free) else m.getLsbD (i + 32 - 1)) := by
  have hl := l.bounds
  have hi := i.bounds
  rw [getLsbD_newLock m l e (by omega), getLsbD_newLock m l e (by omega)]
  have hcross : ¬ (i : ℕ) - 1 = l + 32 - 1 ∧ ¬ (i : ℕ) + 32 - 1 = l - 1 := by omega
  rw [decide_eq_false hcross.1, decide_eq_false hcross.2]
  by_cases heq : i = l
  · rw [if_pos heq, if_pos heq, heq]
    cases e <;> simp
  · have hne : (i : ℕ) ≠ l := fun h => heq (Subtype.ext h)
    have hslot : ¬ (i : ℕ) - 1 = l - 1 ∧ ¬ (i : ℕ) + 32 - 1 = l + 32 - 1 := by omega
    rw [if_neg heq, if_neg heq, decide_eq_false hslot.1, decide_eq_false hslot.2]
    cases e <;> simp

theorem holdOf_newLock (m : BitVec 64) (l i : Slot) (e : Hold) :
    holdOf (newLock m l e) i = if i = l then e else holdOf m i := by
  obtain ⟨hexcl, hshared⟩ := bits_newLock m l i e
  rw [holdOf_eq, hexcl, hshared]
  by_cases heq : i = l
  · rw [if_pos heq, if_pos heq, if_pos heq]
    cases e <;> rfl
  · rw [if_neg heq, if_neg heq, if_neg heq]
    exact (holdOf_eq m i).symm

theorem Implied.newLock {m : BitVec 64} {i : Slot} (h : Implied m i) (l : Slot) (e : Hold) :
    Implied (newLock m l e) i := by
  obtain ⟨hexcl, hshared⟩ := bits_newLock m l i e
  rw [implied_iff] at h ⊢
  rw [hexcl, hshared]
  split_ifs
  · cases e <;> simp
  · exact h

/-- The bits that `lsmShmLock` looks at are those of a shared lock. -/
theorem and_bits_eq_ms (m : BitVec 64) (l : Slot) : m &&& (me l ||| ms l) = ms l ↔
    ¬ m.getLsbD (l - 1) = true ∧ m.getLsbD (l + 32 - 1) = true := by
  have hl := l.bounds
  have hcross : ¬ (l : ℕ) - 1 = l + 32 - 1 := by omega
  refine ⟨fun h => ⟨fun hbit => ?_, ?_⟩, ?_⟩
  · have hme := congrArg (fun b => BitVec.getLsbD b (l - 1)) h
    simp [BitVec.getLsbD_and, BitVec.getLsbD_or, getLsbD_me, getLsbD_ms, hbit] at hme
    omega
  · have hms := congrArg (fun b => BitVec.getLsbD b (l + 32 - 1)) h
    simpa [BitVec.getLsbD_and, BitVec.getLsbD_or, getLsbD_me, getLsbD_ms] using hms
  · rintro ⟨hexcl, hshared⟩
    apply BitVec.eq_of_getLsbD_eq
    intro k _
    rw [BitVec.getLsbD_and, BitVec.getLsbD_or, getLsbD_me, getLsbD_ms]
    by_cases hk : k = l - 1
    · rw [hk, Bool.eq_false_iff.mpr hexcl, decide_eq_false hcross]
      rfl
    · rw [decide_eq_false hk, Bool.false_or]
      by_cases hk' : k = l + 32 - 1
      · rw [hk', hshared, Bool.true_and]
      · rw [decide_eq_false hk', Bool.and_false]

/-- A request is a no-op where the connection has the lock already. -/
theorem needsWork_iff (m : BitVec 64) (l : Slot) (e : Hold) :
    needsWork m l e = true ↔ holdOf m l ≠ e := by
  rw [holdOf_eq]
  cases e with
  | free =>
      have hor : m &&& (me l ||| ms l) = 0 ↔ m &&& me l = 0 ∧ m &&& ms l = 0 := by
        rw [BitVec.and_or_distrib_left]
        exact BitVec.or_eq_zero_iff
      rw [needsWork, decide_eq_true_eq, Ne, hor, not_and_or, ← Ne, ← Ne, and_me_ne_zero,
        and_ms_ne_zero]
      by_cases hexcl : m.getLsbD (l - 1) = true
      · simp [hexcl]
      · simp [hexcl]
  | shared =>
      rw [needsWork, decide_eq_true_eq, Ne, and_bits_eq_ms]
      by_cases hexcl : m.getLsbD (l - 1) = true
      · simp [hexcl]
      · simp [hexcl]
  | excl =>
      rw [needsWork, decide_eq_true_eq, ← not_not (a := m &&& me l = 0), ← Ne, and_me_ne_zero]
      by_cases hexcl : m.getLsbD (l - 1) = true
      · simp [hexcl]
      · rw [if_neg hexcl]
        refine iff_of_true hexcl ?_
        split_ifs <;> decide

/-! ### The locks of the other connections -/

/-- How strong a lock is. -/
def strength : Hold → ℕ
  | .free => 0
  | .shared => 1
  | .excl => 2

variable {s s' : Locks n} {db : Fin n} {bMultiProc : Bool}

theorem countOthers_ne_zero {p : BitVec 64 → Bool} :
    countOthers s db p ≠ 0 ↔ ∃ c, c ≠ db ∧ p (s.mLock c) = true := by
  rw [countOthers, Ne, List.countP_eq_zero]
  simp

theorem nExcl_ne_zero (s : Locks n) (db : Fin n) (l : Slot) :
    nExcl s db l ≠ 0 ↔ ∃ c, c ≠ db ∧ s.table c l = .excl := by
  rw [nExcl, countOthers_ne_zero]
  refine exists_congr fun c => and_congr_right fun _ => ?_
  rw [decide_eq_true_eq, Locks.table, holdOf]
  split_ifs with hexcl
  · exact iff_of_true hexcl rfl
  · exact iff_of_false hexcl (by decide)
  · exact iff_of_false hexcl (by decide)

theorem nShared_ne_zero (s : Locks n) (db : Fin n) (l : Slot) :
    nShared s db l ≠ 0 ↔ ∃ c, c ≠ db ∧ s.table c l = .shared := by
  rw [nShared, countOthers_ne_zero]
  refine exists_congr fun c => and_congr_right fun _ => ?_
  rw [Bool.and_eq_true, decide_eq_true_eq, decide_eq_true_eq, Locks.table, holdOf]
  split_ifs with hexcl hshared
  · exact iff_of_false (fun h => hexcl h.1) (by decide)
  · exact iff_of_true ⟨not_not.mp hexcl, hshared⟩ rfl
  · exact iff_of_false (fun h => hshared h.2) (by decide)

/-- The lock of another connection is in the way just as one of another process. -/
theorem inTheWay_iff (s : Locks n) (db : Fin n) (l : Slot) :
    (∀ c, c ≠ db → conflicts (s.table c l) .excl = false) ↔
      ¬ nExcl s db l ≠ 0 ∧ ¬ nShared s db l ≠ 0 := by
  rw [nExcl_ne_zero, nShared_ne_zero, ← not_or, ← exists_or, ← not_iff_not, not_not]
  push Not
  refine exists_congr fun c => ?_
  rw [← and_or_left, and_congr_right_iff]
  intro _
  cases s.table c l <;> simp [conflicts]

theorem inTheWay_shared_iff (s : Locks n) (db : Fin n) (l : Slot) :
    (∀ c, c ≠ db → conflicts (s.table c l) .shared = false) ↔ ¬ nExcl s db l ≠ 0 := by
  rw [nExcl_ne_zero, not_exists]
  refine forall_congr' fun c => ?_
  rw [not_and]
  refine forall_congr' fun _ => ?_
  cases s.table c l <;> simp [conflicts]

/-- What holds in every state. -/
structure Held (bMultiProc : Bool) (s : Locks n) : Prop where
  /-- As asserted at the start of the loop. -/
  implied : ∀ c (l : Slot), Implied (s.mLock c) l
  exclusive : Exclusive s.table
  file : bMultiProc = true → ∀ c (l : Slot), strength (s.table c l) ≤ strength (s.file l)
  compatible : ∀ i, conflicts (s.other i) (s.file i) = false

theorem held_init (bMultiProc : Bool) (n : ℕ) : Held bMultiProc (.init n) := by
  have hfree : ∀ l : Slot, holdOf 0 l = .free := by
    intro l
    rw [holdOf, if_neg, if_neg]
    · exact fun h => h BitVec.zero_and
    · exact fun h => h BitVec.zero_and
  refine ⟨fun _ l => .inl BitVec.zero_and, fun l c d _ hc => ?_, fun _ c l => ?_,
    fun _ => rfl⟩
  · exact absurd ((hfree l).symm.trans hc) (by decide)
  · show strength (holdOf 0 l) ≤ _
    rw [hfree]
    exact Nat.zero_le _

/-! ### One request -/

theorem table_setLock (s : Locks n) (db : Fin n) (l : Slot) (e : Hold) :
    (s.setLock db (newLock (s.mLock db) l e)).table = s.table.set db l e := by
  funext c i
  show holdOf (if c = db then newLock (s.mLock db) l e else s.mLock c) i = _
  unfold Table.set
  by_cases hc : c = db
  · rw [if_pos hc, holdOf_newLock, hc]
    by_cases hi : i = l
    · rw [if_pos hi, if_pos ⟨rfl, hi⟩]
    · rw [if_neg hi, if_neg fun h => hi h.2]
      rfl
  · rw [if_neg hc, if_neg fun h => hc h.1]
    rfl

/-- A connection has its bits set, and the file lock of the slot may have changed. -/
theorem Held.change (h : Held bMultiProc s) (db : Fin n) (l : Slot) (e : Hold)
    (s' : Locks n) (hlock : s'.mLock = s.mLock) (hother : s'.other = s.other)
    (hframe : ∀ i, i ≠ l.1 → s'.file i = s.file i)
    (hcompat : conflicts (s.other l) (s'.file l) = false)
    (hx : Exclusive (s.table.set db l e))
    (hfile : bMultiProc = true → ∀ c, strength (s.table.set db l e c l) ≤ strength (s'.file l)) :
    Held bMultiProc (s'.setLock db (newLock (s'.mLock db) l e)) := by
  have htable : (s'.setLock db (newLock (s'.mLock db) l e)).table = s.table.set db l e := by
    rw [table_setLock]
    unfold Locks.table
    rw [hlock]
  refine ⟨fun c i => ?_, by rw [htable]; exact hx, fun hmulti c i => ?_, fun i => ?_⟩
  · show Implied (if c = db then _ else _) i
    rw [hlock]
    split_ifs
    · exact (h.implied db i).newLock l e
    · exact h.implied c i
  · rw [htable]
    by_cases hi : i = l
    · rw [hi]
      exact hfile hmulti c
    · rw [set_otherLock e hi]
      show _ ≤ strength (s'.file i)
      rw [hframe i fun heq => hi (Subtype.ext heq)]
      exact h.file hmulti c i
  · show conflicts (s'.other i) (s'.file i) = false
    rw [hother]
    by_cases hi : i = l.1
    · rw [hi]
      exact hcompat
    · rw [hframe i hi]
      exact h.compatible i

theorem conflicts_comm (a b : Hold) : conflicts a b = conflicts b a := by
  cases a <;> cases b <;> rfl

/-- What is not in the way of a lock is not in the way of a weaker one. -/
theorem conflicts_of_le {o e f : Hold} (hle : strength e ≤ strength f)
    (h : conflicts o f = false) : conflicts o e = false := by
  cases o <;> cases e <;> cases f <;> simp_all [conflicts, strength]

/-- What can become of the file lock. -/
theorem lockSharedFile_cases (bMultiProc : Bool) (s : Locks n) (iLock : ℕ) (eOp : Hold)
    (bFault : Bool) :
    bMultiProc = true ∧ conflicts (s.other iLock) eOp = false ∧
        lockSharedFile bMultiProc s iLock eOp bFault =
          ({ s with file := fun i => if i = iLock then eOp else s.file i }, .ok) ∨
      bMultiProc = false ∧ lockSharedFile bMultiProc s iLock eOp bFault = (s, .ok) ∨
      (lockSharedFile bMultiProc s iLock eOp bFault).1 = s ∧
        (lockSharedFile bMultiProc s iLock eOp bFault).2 ≠ .ok := by
  unfold lockSharedFile lsmPosixOsLock
  cases bMultiProc with
  | false => exact .inr (.inl ⟨rfl, rfl⟩)
  | true =>
      rw [if_pos rfl]
      split_ifs with hfault hconf
      · exact .inr (.inr ⟨rfl, nofun⟩)
      · exact .inr (.inr ⟨rfl, nofun⟩)
      · exact .inl ⟨rfl, Bool.eq_false_iff.mpr hconf, rfl⟩

/-- Without a fault the file lock is taken unless another process is in the way. -/
theorem lockSharedFile_ok_iff (bMultiProc : Bool) (s : Locks n) (iLock : ℕ) (eOp : Hold) :
    (lockSharedFile bMultiProc s iLock eOp false).2 = .ok ↔
      (bMultiProc = true → conflicts (s.other iLock) eOp = false) := by
  unfold lockSharedFile lsmPosixOsLock
  cases bMultiProc with
  | false => simp
  | true => cases conflicts (s.other iLock) eOp <;> simp

/-- The slot is given up, also where the file lock stays. -/
theorem Held.release (h : Held bMultiProc s) (db : Fin n) (l : Slot) (bFault : Bool)
    (hheld : s.table db l ≠ .free) : Held bMultiProc
      (((if nShared s db l = 0 then (lockSharedFile bMultiProc s l .free bFault).1 else s)).setLock
        db (newLock (s.mLock db) l .free)) := by
  have hx := h.exclusive.release db l
  have hweak : bMultiProc = true → ∀ c, strength (s.table.set db l .free c l) ≤
      strength (s.file l) := by
    intro hmulti c
    by_cases hc : c = db
    · rw [hc, set_self]
      exact Nat.zero_le _
    · rw [set_other .free hc]
      exact h.file hmulti c l
  have hsame := h.change db l .free s rfl rfl (fun _ _ => rfl) (h.compatible l) hx hweak
  by_cases hnone : nShared s db l = 0
  · rw [if_pos hnone]
    rcases lockSharedFile_cases bMultiProc s l .free bFault with ⟨-, hok, heq⟩ | ⟨-, heq⟩ | ⟨heq, -⟩
    · rw [heq]
      refine h.change db l .free { s with file := _ } rfl rfl (fun i hi => if_neg hi) ?_ hx
        fun _ c => ?_
      · dsimp only
        rw [if_pos rfl]
        exact hok
      · -- nobody else holds the slot
        dsimp only
        rw [if_pos rfl]
        by_cases hc : c = db
        · rw [hc, set_self]
        · rw [set_other .free hc]
          have hshared : s.table c l ≠ .shared := fun hs =>
            (nShared_ne_zero s db l).mpr ⟨c, hc, hs⟩ hnone
          have hexcl : s.table c l ≠ .excl := fun hs => hheld (h.exclusive l c db hc hs)
          cases hcl : s.table c l with
          | free => exact le_rfl
          | shared => exact absurd hcl hshared
          | excl => exact absurd hcl hexcl
    · rw [heq]
      exact hsame
    · rw [heq]
      exact hsame
  · rw [if_neg hnone]
    exact hsame

theorem exclusive_set (hx : Exclusive s.table) {db : Fin n} {l : Slot} {e : Hold}
    (hway : ∀ c, c ≠ db → conflicts (s.table c l) e = false) :
    Exclusive (s.table.set db l e) := by
  cases e with
  | free => exact hx.release db l
  | shared =>
      refine hx.share fun c hc hexcl => ?_
      have := hway c hc
      rw [hexcl] at this
      cases this
  | excl =>
      refine hx.lock fun c hc => ?_
      have := hway c hc
      cases hcl : s.table c l with
      | free => rfl
      | shared => rw [hcl] at this; cases this
      | excl => rw [hcl] at this; cases this

/-- A lock beside another one is not stronger. -/
theorem strength_le {h e : Hold} (he : e ≠ .free) (hway : conflicts h e = false) :
    strength h ≤ strength e := by
  cases h <;> cases e <;> simp_all [conflicts, strength]

/-- A lock is granted, with a file lock that is strong enough. -/
theorem Held.grant (h : Held bMultiProc s) {db : Fin n} {l : Slot} {e : Hold} (he : e ≠ .free)
    (s' : Locks n)
    (hway : ∀ c, c ≠ db → conflicts (s.table c l) e = false)
    (hlock : s'.mLock = s.mLock) (hother : s'.other = s.other)
    (hframe : ∀ i, i ≠ l.1 → s'.file i = s.file i)
    (hcompat : conflicts (s.other l) (s'.file l) = false)
    (hstrong : bMultiProc = true → strength e ≤ strength (s'.file l)) :
    Held bMultiProc (s'.setLock db (newLock (s'.mLock db) l e)) := by
  refine h.change db l e s' hlock hother hframe hcompat (exclusive_set h.exclusive hway)
    fun hmulti c => ?_
  by_cases hc : c = db
  · rw [hc, set_self]
    exact hstrong hmulti
  · rw [set_other e hc]
    exact (strength_le he (hway c hc)).trans (hstrong hmulti)

/-- A lock is granted where the file lock could be taken. -/
theorem Held.grantFile (h : Held bMultiProc s) {db : Fin n} {l : Slot} {e : Hold} (he : e ≠ .free)
    (hway : ∀ c, c ≠ db → conflicts (s.table c l) e = false) (bFault : Bool)
    (hok : (lockSharedFile bMultiProc s l e bFault).2 = .ok) :
    Held bMultiProc ((lockSharedFile bMultiProc s l e bFault).1.setLock db
      (newLock (s.mLock db) l e)) := by
  rcases lockSharedFile_cases bMultiProc s l e bFault with
    ⟨-, hfree, heq⟩ | ⟨hsingle, heq⟩ | ⟨-, hfail⟩
  · rw [heq]
    refine h.grant he { s with file := _ } hway rfl rfl (fun i hi => if_neg hi) ?_
      fun _ => ?_
    · dsimp only
      rw [if_pos rfl]
      exact hfree
    · dsimp only
      rw [if_pos rfl]
  · rw [heq]
    refine h.grant he s hway rfl rfl (fun _ _ => rfl) (h.compatible l) fun hmulti => ?_
    rw [hsingle] at hmulti
    cases hmulti
  · exact absurd hok hfail

/-- A request that fails changes nothing. -/
theorem lockSharedFile_fail {e : Hold} {l : ℕ} {bFault : Bool}
    (h : (lockSharedFile bMultiProc s l e bFault).2 ≠ .ok) :
    (lockSharedFile bMultiProc s l e bFault).1 = s := by
  rcases lockSharedFile_cases bMultiProc s l e bFault with ⟨-, -, heq⟩ | ⟨-, heq⟩ | ⟨heq, -⟩
  · rw [heq] at h
    exact absurd rfl h
  · rw [heq]
  · exact heq

/-- **A request keeps what holds of the locks.** -/
theorem Held.lsmShmLock (h : Held bMultiProc s) (db : Fin n) (l : Slot) (e : Hold)
    (bFault : Bool) : Held bMultiProc (lsmShmLock bMultiProc s db l e bFault).1 := by
  unfold ShmLock.lsmShmLock
  by_cases hwork : needsWork (s.mLock db) l e = true
  · rw [if_pos hwork]
    rw [needsWork_iff] at hwork
    cases e with
    | free => exact h.release db l bFault hwork
    | shared =>
        by_cases hexcl : nExcl s db l ≠ 0
        · dsimp only
          rw [if_pos hexcl]
          exact h
        have hway := (inTheWay_shared_iff s db l).mpr hexcl
        by_cases hnone : nShared s db l = 0
        · dsimp only
          rw [if_neg hexcl, if_pos hnone]
          split_ifs with hok
          · exact h.grantFile (by decide) hway bFault hok
          · rw [lockSharedFile_fail hok]
            exact h
        · -- another connection has a shared lock, and the process its file lock
          obtain ⟨c, -, hcl⟩ := (nShared_ne_zero s db l).mp hnone
          dsimp only
          rw [if_neg hexcl, if_neg hnone, if_pos rfl]
          refine h.grant (by decide) s hway rfl rfl (fun _ _ => rfl) (h.compatible l)
            fun hmulti => ?_
          rw [← hcl]
          exact h.file hmulti c l
    | excl =>
        dsimp only
        split_ifs with hheld hok
        · exact h
        · exact h.grantFile (by decide)
            ((inTheWay_iff s db l).mpr (not_or.mp hheld)) bFault hok
        · rw [lockSharedFile_fail hok]
          exact h
  · rw [if_neg hwork]
    exact h

/-- It has no effect on other processes. -/
theorem other_lsmShmLock (s : Locks n) (db : Fin n) (l : ℕ) (e : Hold) (bFault : Bool) :
    (lsmShmLock bMultiProc s db l e bFault).1.other = s.other := by
  have hfile : ∀ e, (lockSharedFile bMultiProc s l e bFault).1.other = s.other := by
    intro e
    rcases lockSharedFile_cases bMultiProc s l e bFault with ⟨-, -, heq⟩ | ⟨-, heq⟩ | ⟨heq, -⟩
    · rw [heq]
    · rw [heq]
    · rw [heq]
  unfold lsmShmLock
  dsimp only
  cases e <;> dsimp only <;> split_ifs <;> first | rfl | exact hfile _

theorem Held.step (h : Held bMultiProc s) (hstep : Step bMultiProc s s') :
    Held bMultiProc s' := by
  cases hstep with
  | lock db l e bFault => exact h.lsmShmLock db l e bFault
  | other l o hfree =>
      refine ⟨h.implied, h.exclusive, h.file, fun i => ?_⟩
      dsimp only
      split_ifs with hi
      · rw [hi]
        exact hfree
      · exact h.compatible i

/-- **Requests in any order keep the connections apart**, and the file locks strong enough. -/
theorem Held.reachable (h : Reachable bMultiProc s) : Held bMultiProc s := by
  induction h with
  | init => exact held_init bMultiProc n
  | step _ hstep ih => exact ih.step hstep

/-- The assertions in front of the switch. -/
theorem Held.asserts (h : Held bMultiProc s) (db : Fin n) (l : Slot) :
    (nExcl s db l = 0 ∨ nExcl s db l = 1) ∧ (nExcl s db l = 0 ∨ nShared s db l = 0) ∧
      (nExcl s db l = 0 ∨ s.mLock db &&& (me l ||| ms l) = 0) := by
  by_cases hexcl : nExcl s db l = 0
  · exact ⟨.inl hexcl, .inl hexcl, .inl hexcl⟩
  obtain ⟨c, hc, hcl⟩ := (nExcl_ne_zero s db l).mp hexcl
  refine ⟨.inr ?_, .inr ?_, .inr ?_⟩
  · -- whoever else holds the slot exclusively is `c`
    have hcount : (List.finRange n).countP (fun d => decide (d ≠ db) &&
        decide (s.mLock d &&& me l ≠ 0)) = (List.finRange n).count c := by
      apply List.countP_congr
      intro d _
      rw [Bool.and_eq_true, decide_eq_true_eq, decide_eq_true_eq, beq_iff_eq]
      refine ⟨fun hd => ?_, fun hd => ?_⟩
      · by_contra hne
        have hdl : s.table d l = .excl := if_pos hd.2
        exact absurd (hdl.symm.trans (h.exclusive l c d (Ne.symm hne) hcl)) (by decide)
      · rw [hd]
        refine ⟨hc, ?_⟩
        by_contra hno
        rw [Locks.table, holdOf, if_neg (not_not.mpr hno)] at hcl
        split_ifs at hcl
    rw [nExcl, countOthers, hcount]
    exact List.count_eq_one_of_mem (List.nodup_finRange n) (List.mem_finRange c)
  · by_contra hshared
    obtain ⟨d, -, hdl⟩ := (nShared_ne_zero s db l).mp hshared
    have hne : c ≠ d := fun heq => by
      rw [heq, hdl] at hcl
      cases hcl
    exact absurd (hdl.symm.trans (h.exclusive l c d hne hcl)) (by decide)
  · by_contra hheld
    have hwork : needsWork (s.mLock db) l .free = true := decide_eq_true hheld
    exact (needsWork_iff _ l .free).mp hwork (h.exclusive l c db hc hcl)

/-! ### What can be granted -/

/-- A lock can be granted if no other connection and no other process is in the way. -/
theorem Held.ok_iff (h : Held bMultiProc s) (db : Fin n) (l : Slot) {e : Hold} (he : e ≠ .free) :
    (ShmLock.lsmShmLock bMultiProc s db l e false).2 = .ok ↔
      (∀ c, c ≠ db → conflicts (s.table c l) e = false) ∧
        (bMultiProc = true → conflicts (s.other l) e = false) := by
  unfold ShmLock.lsmShmLock
  by_cases hwork : needsWork (s.mLock db) l e = true
  · rw [if_pos hwork]
    cases e with
    | free => exact absurd rfl he
    | shared =>
        rw [inTheWay_shared_iff]
        by_cases hexcl : nExcl s db l ≠ 0
        · dsimp only
          rw [if_pos hexcl]
          exact iff_of_false nofun fun hno => hno.1 hexcl
        by_cases hnone : nShared s db l = 0
        · dsimp only
          rw [if_neg hexcl, if_pos hnone, ← lockSharedFile_ok_iff]
          split_ifs with hok
          · exact iff_of_true rfl ⟨hexcl, hok⟩
          · exact iff_of_false hok fun hno => hok hno.2
        · obtain ⟨c, -, hcl⟩ := (nShared_ne_zero s db l).mp hnone
          dsimp only
          rw [if_neg hexcl, if_neg hnone, if_pos rfl]
          refine iff_of_true rfl ⟨hexcl, fun hmulti => ?_⟩
          have hle := h.file hmulti c l
          rw [hcl] at hle
          exact conflicts_of_le hle (h.compatible l)
    | excl =>
        rw [inTheWay_iff, ← lockSharedFile_ok_iff]
        dsimp only
        split_ifs with hheld hok
        · exact iff_of_false nofun fun hno => hheld.elim hno.1.1 hno.1.2
        · exact iff_of_true rfl ⟨not_or.mp hheld, hok⟩
        · exact iff_of_false hok fun hno => hok hno.2
  · -- the connection has the lock
    rw [if_neg hwork]
    rw [needsWork_iff, not_not] at hwork
    have hheld : s.table db l = e := hwork
    refine iff_of_true rfl ⟨fun c hc => ?_, fun hmulti => ?_⟩
    · cases hcl : s.table c l with
      | free => rfl
      | shared =>
          cases e with
          | free => exact absurd rfl he
          | shared => rfl
          | excl =>
              exact absurd (hcl.symm.trans (h.exclusive l db c hc.symm hheld)) (by decide)
      | excl =>
          rw [← hheld, h.exclusive l c db hc hcl] at he
          exact absurd rfl he
    · have hle := h.file hmulti db l
      rw [hheld] at hle
      exact conflicts_of_le hle (h.compatible l)

/-- The mask does not depend on how many locks are asked for. -/
theorem testMask_eq (a : TestArgs) : testMask a =
    if a.nLock = 0 then 0 else if a.eOp = .excl then me a.iLock ||| ms a.iLock else me a.iLock := by
  have hloop : ∀ k, (List.range (k + 1)).foldl (fun (mask : BitVec 64) _ =>
      let mask := mask ||| me a.iLock
      if a.eOp = .excl then mask ||| ms a.iLock else mask) 0 =
        if a.eOp = .excl then me a.iLock ||| ms a.iLock else me a.iLock := by
    intro k
    induction k with
    | zero => simp
    | succ k ih =>
        rw [List.range_succ, List.foldl_append, ih, List.foldl_cons, List.foldl_nil]
        split_ifs
        · rw [BitVec.or_assoc, BitVec.or_self]
        · exact BitVec.or_self
  unfold testMask
  rcases Nat.eq_zero_or_eq_succ_pred a.nLock with hzero | hsucc
  · rw [hzero]
    rfl
  · rw [hsucc, if_neg (Nat.succ_ne_zero _)]
    exact hloop _

/-- A connection is in the way if it holds the first slot. -/
theorem and_testMask_ne_zero (m : BitVec 64) (a : TestArgs) :
    m &&& testMask a ≠ 0 ↔ a.nLock ≠ 0 ∧ conflicts (holdOf m a.iLock) a.eOp = true := by
  rw [testMask_eq]
  by_cases hzero : a.nLock = 0
  · rw [if_pos hzero]
    exact iff_of_false (fun h => h BitVec.and_zero) fun h => h.1 hzero
  rw [if_neg hzero]
  have heop := a.eOp_ok
  cases hop : a.eOp with
  | free => exact absurd hop heop
  | shared =>
      rw [if_neg (by decide), holdOf]
      split_ifs with hexcl hshared
      · exact iff_of_true hexcl ⟨hzero, rfl⟩
      · exact iff_of_false hexcl fun h => nomatch h.2
      · exact iff_of_false hexcl fun h => nomatch h.2
  | excl =>
      have hwork := needsWork_iff m a.iLock .free
      rw [needsWork, decide_eq_true_eq] at hwork
      rw [if_pos rfl, hwork]
      cases holdOf m a.iLock <;> simp [conflicts, hzero]

/-! ### What the test says -/

/-- What `lsmShmTestLock` is to say. -/
def TestExact (bMultiProc : Bool) (s : Locks n) (db : Fin n) (a : TestArgs) : Prop :=
  lsmShmTestLock bMultiProc s db a = .ok ↔
    ∀ i < a.nLock, (lsmShmLock bMultiProc s db (a.iLock + i) a.eOp false).2 = .ok

/-- The test says yes if nobody is in the way on the first slot, and no other process in the
range that it looks at. -/
theorem lsmShmTestLock_ok_iff (s : Locks n) (db : Fin n) (a : TestArgs) :
    lsmShmTestLock bMultiProc s db a = .ok ↔
      (a.nLock ≠ 0 → ∀ c, c ≠ db → conflicts (s.table c a.iLock) a.eOp = false) ∧
        (bMultiProc = true → ∀ i < 33, inTestRange a i = true →
          conflicts (s.other i) a.eOp = false) := by
  have hothers : countOthers s db (fun mLock => decide (mLock &&& testMask a ≠ 0)) ≠ 0 ↔
      ¬ (a.nLock ≠ 0 → ∀ c, c ≠ db → conflicts (s.table c a.iLock) a.eOp = false) := by
    rw [countOthers_ne_zero]
    push Not
    rw [← exists_and_left]
    refine exists_congr fun c => ?_
    rw [decide_eq_true_eq, and_testMask_ne_zero, and_left_comm,
      ← Bool.not_eq_false (conflicts _ _)]
    exact Iff.rfl
  have hfile : lsmPosixOsTestLock s a = .ok ↔ ∀ i < 33, inTestRange a i = true →
      conflicts (s.other i) a.eOp = false := by
    unfold lsmPosixOsTestLock
    split_ifs with hany
    · refine iff_of_false nofun fun hno => ?_
      obtain ⟨i, hi, hand⟩ := List.any_eq_true.mp hany
      rw [Bool.and_eq_true] at hand
      exact absurd hand.2 (Bool.eq_false_iff.mp (hno i (List.mem_range.mp hi) hand.1))
    · refine iff_of_true rfl fun i hi hin => Bool.eq_false_iff.mpr fun hconf => hany ?_
      exact List.any_eq_true.mpr ⟨i, List.mem_range.mpr hi, by rw [hin, hconf]; rfl⟩
  unfold lsmShmTestLock
  split_ifs with hway hmulti
  · exact iff_of_false nofun fun hno => hothers.mp hway hno.1
  · have hfree := not_not.mp (mt hothers.mpr hway)
    rw [hfile]
    exact ⟨fun hall => ⟨hfree, fun _ => hall⟩, fun hall => hall.2 hmulti⟩
  · exact iff_of_true rfl ⟨not_not.mp (mt hothers.mpr hway), fun hyes => absurd hyes hmulti⟩

/-- **For one slot the test is exact.** -/
theorem Held.testExact_one (h : Held bMultiProc s) (db : Fin n) {a : TestArgs}
    (hone : a.nLock = 1) : TestExact bMultiProc s db a := by
  have hslot := a.iLock.bounds
  have hrange : ∀ i, (i < 33 ∧ inTestRange a i = true) ↔ i = a.iLock := by
    intro i
    simp only [inTestRange, hone, Bool.and_eq_true, Bool.or_eq_true, decide_eq_true_eq]
    omega
  rw [TestExact, lsmShmTestLock_ok_iff, hone]
  have hfirst : (∀ i < 1, (ShmLock.lsmShmLock bMultiProc s db (a.iLock + i) a.eOp false).2 = .ok) ↔
      (ShmLock.lsmShmLock bMultiProc s db a.iLock a.eOp false).2 = .ok := by
    simp only [Nat.lt_one_iff, forall_eq, Nat.add_zero]
  rw [hfirst, h.ok_iff db a.iLock a.eOp_ok]
  refine and_congr ⟨fun hall => hall one_ne_zero, fun hall _ => hall⟩ (imp_congr_right fun _ => ?_)
  refine ⟨fun hall => ?_, fun hown i hi hin => ?_⟩
  · have hin := (hrange a.iLock).mpr rfl
    exact hall _ hin.1 hin.2
  · rw [(hrange i).mp ⟨hi, hin⟩]
    exact hown

/-- **For no slot at all it is exact** as long as no file locks are tested. -/
theorem testExact_zero (s : Locks n) (db : Fin n) {a : TestArgs} (hzero : a.nLock = 0) :
    TestExact false s db a := by
  rw [TestExact, lsmShmTestLock_ok_iff]
  refine iff_of_true ⟨fun hno => absurd hzero hno, fun hno => nomatch hno⟩ fun i hi => ?_
  omega

/-! ### Where the test is wrong -/

/-- Of two connections the second holds a slot exclusively. -/
def heldByOther (bMultiProc : Bool) (l : Slot) : Locks 2 :=
  (lsmShmLock bMultiProc (.init 2) 1 l .excl false).1

theorem reachable_heldByOther (bMultiProc : Bool) (l : Slot) :
    Reachable bMultiProc (heldByOther bMultiProc l) :=
  .step .init (.lock _ 1 l .excl false)

theorem heldByOther_other (bMultiProc : Bool) (l : Slot) (i : ℕ) :
    (heldByOther bMultiProc l).other i = .free := by
  rw [heldByOther, other_lsmShmLock]
  rfl

/-- The bits of the second connection are those of the slot. -/
theorem heldByOther_table (bMultiProc : Bool) (l : Slot) :
    (heldByOther bMultiProc l).table = (Locks.init 2).table.set 1 l .excl := by
  have hfree : holdOf 0 l = .free := by
    rw [holdOf, if_neg fun h => h BitVec.zero_and, if_neg fun h => h BitVec.zero_and]
  have hnone : ∀ c, (Locks.init 2).table c l = .free := fun _ => hfree
  have hwork : needsWork ((Locks.init 2).mLock 1) l .excl = true := by
    rw [needsWork_iff]
    show holdOf 0 l ≠ .excl
    rw [hfree]
    decide
  have halone : ¬ (nExcl (Locks.init 2) 1 l ≠ 0 ∨ nShared (Locks.init 2) 1 l ≠ 0) := by
    rw [nExcl_ne_zero, nShared_ne_zero]
    rintro (⟨c, -, hc⟩ | ⟨c, -, hc⟩)
    · exact absurd ((hnone c).symm.trans hc) (by decide)
    · exact absurd ((hnone c).symm.trans hc) (by decide)
  rw [heldByOther, lsmShmLock, if_pos hwork]
  dsimp only
  rw [if_neg halone]
  cases bMultiProc with
  | false => exact table_setLock (.init 2) 1 l .excl
  | true => exact table_setLock _ 1 l .excl

/-- **For two slots or more the second one is not looked at.** -/
theorem not_testExact_of_two (bMultiProc : Bool) {a : TestArgs} (htwo : 2 ≤ a.nLock) :
    ∃ l : Slot, l.1 = a.iLock + 1 ∧ ¬ TestExact bMultiProc (heldByOther bMultiProc l) 0 a := by
  have hslot := a.iLock.bounds
  have hend : a.iLock.1 + a.nLock ≤ 30 := a.slots
  obtain ⟨l, hl⟩ : ∃ l : Slot, l.1 = a.iLock + 1 :=
    ⟨⟨a.iLock + 1, by omega, show _ ≤ 29 by omega⟩, rfl⟩
  have hne : a.iLock ≠ l := fun heq => by
    rw [heq] at hl
    omega
  have hfirst : ∀ c, c ≠ (0 : Fin 2) →
      conflicts ((heldByOther bMultiProc l).table c a.iLock) a.eOp = false := by
    intro c _
    rw [heldByOther_table, set_otherLock .excl hne, Locks.table, holdOf,
      if_neg fun h => h BitVec.zero_and, if_neg fun h => h BitVec.zero_and]
    rfl
  refine ⟨l, hl, fun hexact => ?_⟩
  have hyes : lsmShmTestLock bMultiProc (heldByOther bMultiProc l) 0 a = .ok := by
    rw [lsmShmTestLock_ok_iff]
    refine ⟨fun _ => hfirst, fun _ i _ _ => ?_⟩
    rw [heldByOther_other]
    rfl
  have hall := hexact.mp hyes 1 (by omega)
  rw [← hl, (Held.reachable (reachable_heldByOther bMultiProc l)).ok_iff 0 l a.eOp_ok] at hall
  have hone := hall.1 1 (by decide)
  rw [heldByOther_table, set_self] at hone
  have heop := a.eOp_ok
  cases hop : a.eOp <;> simp_all [conflicts]

/-- Another process holds a slot exclusively, and no connection anything. -/
theorem not_testExact_zero {a : TestArgs} (hzero : a.nLock = 0) :
    ∃ s : Locks 1, Reachable true s ∧ ¬ TestExact true s 0 a := by
  have hslot := a.iLock.bounds
  refine ⟨_, .step .init (.other (.init 1) a.iLock .excl rfl), fun hexact => ?_⟩
  rw [TestExact, lsmShmTestLock_ok_iff] at hexact
  have hno := (hexact.mpr fun i hi => by omega).2 rfl a.iLock (by omega)
    (by simp [inTestRange, hzero, hslot.1])
  dsimp only at hno
  rw [if_pos rfl] at hno
  have heop := a.eOp_ok
  cases hop : a.eOp <;> simp_all [conflicts]

/-! ### Exactly one slot -/

/-- What is expected of the locks of any number of connections, behind any requests: that a lock
held exclusively is held by one connection only, what the test says, and that the file lock of
the process is strong enough. -/
def LocksOk (bMultiProc : Bool) (a : TestArgs) : Prop :=
  ∀ (n : ℕ) (s : Locks n), Reachable bMultiProc s →
    Exclusive s.table ∧ (∀ db, TestExact bMultiProc s db a) ∧
      (bMultiProc = true → ∀ c (l : Slot), strength (s.table c l) ≤ strength (s.file l))

/-- **The locks are as expected** exactly for a test of one slot, or of none at all in single
process mode. -/
theorem locksOk_iff (bMultiProc : Bool) (a : TestArgs) :
    LocksOk bMultiProc a ↔ a.nLock = 1 ∨ a.nLock = 0 ∧ bMultiProc = false := by
  refine ⟨fun h => ?_, fun hwhen n s hreach => ?_⟩
  · by_contra hno
    rw [not_or, not_and] at hno
    rcases Nat.lt_or_ge a.nLock 2 with hlt | htwo
    · have hzero : a.nLock = 0 := by omega
      obtain rfl : bMultiProc = true := by
        have := hno.2 hzero
        cases bMultiProc
        · exact absurd rfl this
        · rfl
      obtain ⟨s, hreach, hnot⟩ := not_testExact_zero hzero
      exact hnot ((h 1 s hreach).2.1 0)
    · obtain ⟨l, -, hnot⟩ := not_testExact_of_two bMultiProc htwo
      exact hnot ((h 2 _ (reachable_heldByOther bMultiProc l)).2.1 0)
  · have hheld := Held.reachable hreach
    refine ⟨hheld.exclusive, fun db => ?_, hheld.file⟩
    rcases hwhen with hone | ⟨hzero, rfl⟩
    · exact hheld.testExact_one db hone
    · exact testExact_zero s db hzero

/-- The test of `lsmBeginRoTrans`, whether a read-write client is there. -/
def rwClientTest : TestArgs where
  iLock := ⟨LSM_LOCK_RWCLIENT 0, by decide⟩
  nLock := LSM_LOCK_NREADER
  eOp := .shared
  slots := by decide
  eOp_ok := by decide

/-- A client that has the second slot of the clients is not seen. -/
theorem not_locksOk_rwClientTest : ¬ LocksOk true rwClientTest := by
  intro h
  obtain ⟨l, -, hnot⟩ := not_testExact_of_two true (show 2 ≤ rwClientTest.nLock by decide)
  exact hnot ((h 2 _ (reachable_heldByOther true l)).2.1 0)

end ShmLock

end Lsm

end MoVeBench
