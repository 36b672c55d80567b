/-
MoVeBench/KvMem/Levels.lean

The logs of the store as logs of nested transactions, and what closing them does.

`restored` is what the rows become when all levels above a given one are undone.

* `kvmemRollback` leaves these rows (`rollback_spec`), and so does every write of a level above.
* `kvmemCommitPhaseTwo` to a write level keeps the rows and all that is restored below it
  (`spliced_spec`); to a level without one it takes the deleted rows out of the tree, as long as each
  of them has one record (`committed_spec`).
-/
import MoVeBench.KvMem.Shape

namespace MoVeBench

namespace KvMem

open AvlTree AvlTree.BinTree UndoLog
open Lsm (Bytes)

/-! ### Records as entries -/

/-- A record as `kvmemRollback` reads it. -/
def KVMemChng.entry (c : KVMemChng) : Entry Ptr (Option Bytes × ℤ) :=
  ⟨c.pNode, if c.pData.isSome ∨ 0 < c.oldTrans then some (c.pData, c.oldTrans) else none⟩

/-- The level in `mxTrans`, 0 for a row that is not logged. -/
def rowLevel (r : Option Bytes × ℤ) : ℕ := r.2.toNat

/-- The logs `apLog[n-1]` down to `apLog[m]`. -/
def logsFrom (apLog : ℕ → List KVMemChng) (m : ℕ) : ℕ → List (List (Entry Ptr (Option Bytes × ℤ)))
  | 0 => []
  | n + 1 => if m ≤ n then (apLog n).map KVMemChng.entry :: logsFrom apLog m n else []

/-- The open levels. -/
def LogsNested (p : KVMem) (t : BinTree Ptr) : Prop :=
  Nested rowLevel (fun r => r.1.isSome) (logsFrom p.apLog 0 (p.iTransLevel - 1)) (view p t)

/-- The rows after a rollback to a level. -/
def restored (p : KVMem) (t : BinTree Ptr) (iLevel : ℕ) : Rows Ptr (Option Bytes × ℤ) :=
  undo (logsFrom p.apLog (iLevel - 1) (p.iTransLevel - 1)).flatten (view p t)

/-- What holds between two calls. -/
structure Sound (p : KVMem) (t : BinTree Ptr) : Prop where
  shaped : Shaped p t 0
  nested : LogsNested p t
  level : p.iTransLevel ≤ 32767

variable {p p' : KVMem} {t t' : BinTree Ptr} {a b : ℕ → List KVMemChng} {x : Ptr} {i m n : ℕ}
  {c : KVMemChng}

theorem logsFrom_congr (h : ∀ i, m ≤ i → i < n → a i = b i) : logsFrom a m n = logsFrom b m n := by
  induction n with
  | zero => rfl
  | succ n ih =>
      rw [logsFrom, logsFrom]
      split_ifs with hmn
      · rw [h n hmn (by omega), ih fun i h1 h2 => h i h1 (by omega)]
      · rfl

theorem logsFrom_of_le (h : n ≤ m) : logsFrom a m n = [] := by
  cases n with
  | zero => rfl
  | succ n => exact if_neg (by omega)

theorem logsFrom_split {k : ℕ} (hmk : m ≤ k) (hkn : k ≤ n) :
    logsFrom a m n = logsFrom a k n ++ logsFrom a m k := by
  induction n with
  | zero =>
      obtain rfl : k = 0 := by omega
      rfl
  | succ n ih =>
      rcases Nat.lt_or_ge n k with hlt | hge
      · obtain rfl : k = n + 1 := by omega
        rw [logsFrom_of_le (le_refl (n + 1))]
        rfl
      · rw [logsFrom, logsFrom, if_pos (by omega), if_pos hge, ih hge, List.cons_append]

theorem length_logsFrom : (logsFrom a 0 n).length = n := by
  induction n with
  | zero => rfl
  | succ n ih => rw [logsFrom, if_pos (Nat.zero_le n), List.length_cons, ih]

theorem mem_keys_logsFrom : x ∈ keys (logsFrom a 0 n).flatten ↔ ∃ i < n, ∃ c ∈ a i, c.pNode = x := by
  induction n with
  | zero => simp [logsFrom]
  | succ n ih =>
      rw [logsFrom, if_pos (Nat.zero_le n), List.flatten_cons, keys_append, List.mem_append, ih]
      have hkeys : x ∈ keys ((a n).map KVMemChng.entry) ↔ ∃ c ∈ a n, c.pNode = x := by
        simp [keys, KVMemChng.entry]
      rw [hkeys]
      constructor
      · rintro (h | ⟨i, hi, h⟩)
        · exact ⟨n, by omega, h⟩
        · exact ⟨i, by omega, h⟩
      · rintro ⟨i, hi, h⟩
        rcases Nat.lt_or_ge i n with hlt | hge
        · exact Or.inr ⟨i, hlt, h⟩
        · obtain rfl : i = n := by omega
          exact Or.inl h

theorem mem_records : c ∈ p.records ↔ ∃ i < p.iTransLevel - 1, c ∈ p.apLog i := by
  simp [KVMem.records]

/-- Every record is about a node of the tree. -/
theorem live_mem {l : List KVMemChng} (hlive : Live (l.map KVMemChng.entry ++
    (logsFrom p.apLog 0 i).flatten) (view p t)) :
    (∀ c ∈ l, c.pNode ∈ t.toList) ∧ ∀ j < i, ∀ c ∈ p.apLog j, c.pNode ∈ t.toList := by
  refine ⟨fun c hc => mem_of_view (hlive.isSome ?_), fun j hj c hc => mem_of_view (hlive.isSome ?_)⟩
  · rw [keys_append, List.mem_append]
    exact Or.inl (List.mem_map.mpr ⟨c.entry, List.mem_map_of_mem hc, rfl⟩)
  · rw [keys_append, List.mem_append, mem_keys_logsFrom]
    exact Or.inr ⟨j, hj, c, hc, rfl⟩

theorem Sound.recorded (hs : Sound p t) : ∀ c ∈ p.records, c.pNode ∈ t.toList := by
  intro c hc
  obtain ⟨i, hi, hc⟩ := mem_records.mp hc
  exact mem_of_view (hs.nested.live.isSome (mem_keys_logsFrom.mpr ⟨i, hi, c, hc, rfl⟩))

/-- What the records are about while `apLog[i]` is closed. -/
theorem mem_records_setLog {l : List KVMemChng} (hi : p.iTransLevel = i + 2) :
    (∃ c ∈ (p.setLog i l).records, c.pNode = x) ↔
      x ∈ keys (l.map KVMemChng.entry ++ (logsFrom p.apLog 0 i).flatten) := by
  have hlogs : logsFrom (p.setLog i l).apLog 0 (i + 1) =
      l.map KVMemChng.entry :: logsFrom p.apLog 0 i := by
    rw [logsFrom, if_pos (Nat.zero_le i)]
    congr 1
    · simp [KVMem.setLog]
    · refine logsFrom_congr fun j _ hj => ?_
      exact Function.update_of_ne (by omega) ..
  have hflat : (l.map KVMemChng.entry :: logsFrom p.apLog 0 i).flatten =
      l.map KVMemChng.entry ++ (logsFrom p.apLog 0 i).flatten := List.flatten_cons
  rw [← hflat, ← hlogs, mem_keys_logsFrom]
  have hlevel : (p.setLog i l).iTransLevel = i + 2 := hi
  constructor
  · rintro ⟨c, hc, hx⟩
    obtain ⟨j, hj, hc⟩ := mem_records.mp hc
    exact ⟨j, by omega, c, hc, hx⟩
  · rintro ⟨j, hj, c, hc, hx⟩
    exact ⟨c, mem_records.mpr ⟨j, by omega, hc⟩, hx⟩

/-! ### Rolling back -/

/-- Closing one log: everything but it and the rows stays. -/
structure Closed1 (p p' : KVMem) (i : ℕ) : Prop where
  apLog : p'.apLog = Function.update p.apLog i []
  iTransLevel : p'.iTransLevel = p.iTransLevel
  pFresh : p'.pFresh = p.pFresh
  aKey : ∀ x, (p'.rows x).aKey = (p.rows x).aKey

/-- One record is undone. -/
theorem rollbackRecord_spec {q : KVMem} (hs : Shaped q t 0) (hc : c.pNode ∈ t.toList)
    (hrec : c.entry.old = none → ∀ c' ∈ q.records, c'.pNode ≠ c.pNode) :
    ∃ t', Shaped (rollbackRecord q c) t' 0 ∧
      view (rollbackRecord q c) t' = undoOne (view q t) c.entry ∧
        SameLogs q (rollbackRecord q c) := by
  by_cases hold : c.pData.isSome ∨ 0 < c.oldTrans
  · obtain ⟨h1, h2, h3⟩ := setRow_spec hs hc
      (fun r => { r with pData := c.pData, mxTrans := c.oldTrans }) ⟨rfl, rfl⟩
    rw [rollbackRecord, if_pos hold]
    refine ⟨t, h1, ?_, h3⟩
    rw [h2, undoOne, KVMemChng.entry, if_pos hold]
  · have hnone : c.entry.old = none := if_neg hold
    obtain ⟨t', h1, h2, h3⟩ := removeNode_spec hs hc (hrec hnone)
    rw [rollbackRecord, if_neg hold]
    refine ⟨t', h1, ?_, h3⟩
    rw [h2, undoOne, hnone]
    rfl

/-- One log is undone. -/
theorem closeLog_rollback {l : List KVMemChng} (hs : Shaped p t 0) (hi : p.iTransLevel = i + 2)
    (hlive : Live (l.map KVMemChng.entry ++ (logsFrom p.apLog 0 i).flatten) (view p t)) :
    ∃ t', Shaped (closeLog rollbackRecord i l p) t' 0 ∧
      view (closeLog rollbackRecord i l p) t' = undo (l.map KVMemChng.entry) (view p t) ∧
        Closed1 p (closeLog rollbackRecord i l p) i := by
  induction l generalizing p t with
  | nil => exact ⟨t, hs.setLog i [], rfl, rfl, rfl, rfl, fun _ => rfl⟩
  | cons c l ih =>
      rw [List.map_cons, List.cons_append] at hlive
      obtain ⟨hsome, hlive⟩ := hlive
      have hs1 := hs.setLog i l
      obtain ⟨t1, h1, h2, h3⟩ := rollbackRecord_spec (c := c) hs1 (mem_of_view hsome) (by
        intro hnone c' hc' heq
        have hm := (mem_records_setLog hi).mp ⟨c', hc', heq⟩
        have hx := hlive.isSome hm
        have hu : undoOne (view p t) c.entry c.pNode = c.entry.old := Function.update_self ..
        rw [hu, hnone] at hx
        simp at hx)
      rw [view_setLog] at h2
      obtain ⟨q, hq⟩ : ∃ q, rollbackRecord (p.setLog i l) c = q := ⟨_, rfl⟩
      rw [hq] at h1 h2 h3
      have hlogs : logsFrom q.apLog 0 i = logsFrom p.apLog 0 i := by
        refine logsFrom_congr fun j _ hj => ?_
        rw [h3.apLog]
        exact Function.update_of_ne (by omega) ..
      have hlevel : q.iTransLevel = i + 2 := h3.iTransLevel.trans hi
      obtain ⟨t2, h4, h5, h6⟩ := ih h1 hlevel (by rw [hlogs, h2]; exact hlive)
      have hdef : closeLog rollbackRecord i (c :: l) p = closeLog rollbackRecord i l q := by
        rw [closeLog, hq]
      rw [hdef]
      refine ⟨t2, h4, ?_, ?_, ?_, ?_, ?_⟩
      · rw [h5, h2]
        rfl
      · rw [h6.apLog, h3.apLog]
        exact Function.update_idem ..
      · exact h6.iTransLevel.trans h3.iTransLevel
      · exact h6.pFresh.trans h3.pFresh
      · exact fun x => (h6.aKey x).trans (h3.aKey x)

theorem logsFrom_succ (h : m ≤ n) :
    logsFrom a m (n + 1) = (a n).map KVMemChng.entry :: logsFrom a m n := if_pos h

theorem Sound.top (hs : Sound p t) (hi : p.iTransLevel = i + 2) :
    Nested rowLevel (fun r => r.1.isSome)
      ((p.apLog i).map KVMemChng.entry :: logsFrom p.apLog 0 i) (view p t) := by
  have hn := hs.nested
  rw [LogsNested, hi, show i + 2 - 1 = i + 1 from rfl, logsFrom_succ (Nat.zero_le i)] at hn
  exact hn

/-- The level is left. -/
theorem Sound.leave {l : List (List (Entry Ptr (Option Bytes × ℤ)))} (hs : Shaped p t 0)
    (hlogs : logsFrom p.apLog 0 i = l)
    (hn : Nested rowLevel (fun r => r.1.isSome) l (view p t)) (hi : p.iTransLevel = i + 2)
    (hlevel : i + 2 ≤ 32767) : Sound (leaveLevel p i) t := by
  have hfrom : logsFrom (leaveLevel p i).apLog 0 i = l := by
    rw [← hlogs]
    exact logsFrom_congr fun j _ hj => Function.update_of_ne (by omega) ..
  have hsub : (leaveLevel p i).iTransLevel = i + 1 := by
    rw [leaveLevel, hi]
    rfl
  refine ⟨?_, ?_, by omega⟩
  · exact hs.of_eq rfl rfl rfl rfl rfl rfl (fun _ => rfl) hs.gone fun _ => rfl
  · rw [LogsNested, hsub, show i + 1 - 1 = i from rfl, hfrom]
    exact hn

/-- A level is closed and its records undone. -/
theorem rollback_round (iLevel : ℕ) (hs : Sound p t) (hi : p.iTransLevel = i + 2)
    (hlevel : iLevel < i + 2) : ∃ q t', leaveLevel (closeLog rollbackRecord i (p.apLog i) p) i = q ∧
      Sound q t' ∧ q.iTransLevel = i + 1 ∧ restored q t' iLevel = restored p t iLevel ∧
        (∀ j < i, q.apLog j = p.apLog j) ∧ q.pFresh = p.pFresh ∧
          ∀ x, (q.rows x).aKey = (p.rows x).aKey := by
  have hlive := (hs.top hi).live
  rw [List.flatten_cons] at hlive
  obtain ⟨t', h1, h2, h3⟩ := closeLog_rollback hs.shaped hi hlive
  obtain ⟨q, hq⟩ : ∃ q, closeLog rollbackRecord i (p.apLog i) p = q := ⟨_, rfl⟩
  rw [hq] at h1 h2 h3 ⊢
  have hlog : ∀ j < i, q.apLog j = p.apLog j := by
    intro j hj
    rw [h3.apLog, Function.update_of_ne (by omega)]
  have hlog' : ∀ j < i, (leaveLevel q i).apLog j = p.apLog j := by
    intro j hj
    rw [← hlog j hj]
    exact Function.update_of_ne (by omega) ..
  have hqi : q.iTransLevel = i + 2 := h3.iTransLevel.trans hi
  have hsub : (leaveLevel q i).iTransLevel = i + 1 := by
    rw [leaveLevel, hqi]
    rfl
  have hview : view (leaveLevel q i) t' = view q t' := rfl
  refine ⟨_, t', rfl, ?_, hsub, ?_, hlog', h3.pFresh, h3.aKey⟩
  · refine Sound.leave h1 (logsFrom_congr fun j _ hj => hlog j hj) ?_ hqi (hi ▸ hs.level)
    rw [h2]
    exact (hs.top hi).2.2
  · rw [restored, hsub, hview, h2, restored, hi, show i + 1 - 1 = i from rfl,
      show i + 2 - 1 = i + 1 from rfl, logsFrom_succ (by omega), List.flatten_cons, undo_append,
      logsFrom_congr fun j _ hj => hlog' j hj]

/-- The store at a lower level, with the rows that are restored there. -/
structure RolledBack (p p' : KVMem) (t t' : BinTree Ptr) (iLevel : ℕ) : Prop where
  sound : Sound { p' with iTransLevel := iLevel } t'
  view : view p' t' = restored p t iLevel
  apLog : ∀ j < iLevel - 1, p'.apLog j = p.apLog j
  pFresh : p'.pFresh = p.pFresh
  aKey : ∀ x, (p'.rows x).aKey = (p.rows x).aKey

/-- There are no levels to close. -/
theorem RolledBack.none {iLevel : ℕ} (hs : Sound p t) (hlevel : iLevel ≤ p.iTransLevel)
    (hor : iLevel = p.iTransLevel ∨ p.iTransLevel ≤ 1) : RolledBack p p t t iLevel := by
  have heq : iLevel - 1 = p.iTransLevel - 1 := by omega
  refine ⟨⟨?_, ?_, ?_⟩, ?_, fun _ _ => rfl, rfl, fun _ => rfl⟩
  · exact hs.shaped.of_eq rfl rfl rfl rfl rfl rfl (fun _ => rfl) hs.shaped.gone fun _ => rfl
  · show Nested rowLevel _ (logsFrom p.apLog 0 (iLevel - 1)) (KvMem.view p t)
    rw [heq]
    exact hs.nested
  · exact hlevel.trans hs.level
  · rw [restored, heq, logsFrom_of_le (le_refl _)]
    rfl

theorem rollbackLoop_spec {iLevel : ℕ} (hs : Sound p t) (hlevel : iLevel ≤ p.iTransLevel)
    (hn : p.iTransLevel ≤ n) : ∃ t', RolledBack p (rollbackLoop iLevel n p) t t' iLevel := by
  induction n generalizing p t with
  | zero => exact ⟨t, .none hs hlevel (Or.inr (by omega))⟩
  | succ n ih =>
      rw [rollbackLoop]
      split_ifs with hif
      · obtain ⟨i, hi⟩ : ∃ i, p.iTransLevel = i + 2 := ⟨p.iTransLevel - 2, by omega⟩
        obtain ⟨q, t1, hq, h1, h2, h3, h4, h5, h6⟩ :=
          rollback_round iLevel hs hi (by omega)
        have hsub : p.iTransLevel - 2 = i := by omega
        simp only [hsub, hq]
        obtain ⟨t2, h7⟩ := ih h1 (by omega) (by omega)
        exact ⟨t2, h7.sound, h7.view.trans h3, fun j hj => (h7.apLog j hj).trans (h4 j (by omega)),
          h7.pFresh.trans h5, fun x => (h7.aKey x).trans (h6 x)⟩
      · exact ⟨t, .none hs hlevel (by omega)⟩

/-! ### Handing a log down -/

/-- The content of the rows. -/
def dataAt (S : Rows Ptr (Option Bytes × ℤ)) (x : Ptr) : Option Bytes := (S x).bind Prod.fst

/-- The loop of `spliceLog` over the records. -/
theorem splice_rows (l : List KVMemChng) (p : KVMem) :
    ∃ q, l.foldl (fun p pChng => p.setRow pChng.pNode fun r =>
        { r with mxTrans := toShort (p.iTransLevel - 1) }) p = q ∧
      q = { p with rows := q.rows } ∧ ∀ x, q.rows x =
        if x ∈ keys (l.map KVMemChng.entry) then
          { p.rows x with mxTrans := toShort (p.iTransLevel - 1) }
        else p.rows x := by
  induction l generalizing p with
  | nil => exact ⟨p, rfl, rfl, fun x => rfl⟩
  | cons c l ih =>
      obtain ⟨q, hq, heq, hrows⟩ := ih (p.setRow c.pNode fun r =>
        { r with mxTrans := toShort (p.iTransLevel - 1) })
      refine ⟨q, hq, heq.trans rfl, fun x => ?_⟩
      have hlevel : (p.setRow c.pNode fun r =>
        { r with mxTrans := toShort (p.iTransLevel - 1) }).iTransLevel = p.iTransLevel := rfl
      rw [hrows x, hlevel, List.map_cons, keys_cons]
      by_cases hxc : x = c.pNode
      · have hmem : c.pNode ∈ c.entry.key :: keys (l.map KVMemChng.entry) := List.mem_cons_self
        rw [hxc, KVMem.setRow_same, if_pos hmem]
        split_ifs <;> rfl
      · rw [KVMem.setRow_ne _ _ hxc]
        have hne : x ≠ c.entry.key := hxc
        simp only [List.mem_cons, hne, false_or]

/-- A level is closed and its records handed to the one below. -/
theorem splice_round (hs : Sound p t) (hi : p.iTransLevel = i + 3) :
    ∃ q, leaveLevel (spliceLog p) (i + 1) = q ∧ Sound q t ∧ q.iTransLevel = i + 2 ∧
      dataAt (view q t) = dataAt (view p t) ∧
      (∀ iLevel < i + 2, restored q t iLevel = restored p t iLevel) ∧ q.pFresh = p.pFresh ∧
        ∀ x, (q.rows x).aKey = (p.rows x).aKey := by
  obtain ⟨q, hq, heq, hrows⟩ := splice_rows (p.apLog (i + 1)) p
  have hlevel := hs.level
  have hshort : toShort ((p.iTransLevel : ℤ) - 1) = (i + 2 : ℕ) := by
    rw [hi, toShort_eq] <;> push_cast <;> omega
  rw [hshort] at hrows
  have htop := hs.top (i := i + 1) (by omega)
  rw [logsFrom_succ (Nat.zero_le i)] at htop
  obtain ⟨k, hk⟩ : ∃ k, keys ((p.apLog (i + 1)).map KVMemChng.entry) = k := ⟨_, rfl⟩
  have hsplice : spliceLog p = q.setLog i (p.apLog (i + 1) ++ p.apLog i) := by
    have h1 : p.iTransLevel - 2 = i + 1 := by omega
    have h2 : p.iTransLevel - 3 = i := by omega
    have h3 : q.apLog = p.apLog := by rw [heq]
    simp only [spliceLog, h1, h2]
    rw [hq, h3]
  have hkey : ∀ x, (q.rows x).aKey = (p.rows x).aKey := by
    intro x
    rw [hrows]
    split_ifs <;> rfl
  have hdata : ∀ x, (q.rows x).pData = (p.rows x).pData := by
    intro x
    rw [hrows]
    split_ifs <;> rfl
  have href : ∀ x, (q.rows x).nRef = (p.rows x).nRef := by
    intro x
    rw [hrows]
    split_ifs <;> rfl
  have hshape : Shaped q t 0 := by
    refine hs.shaped.of_eq ?_ ?_ ?_ ?_ ?_ ?_ hkey (fun x hx => ?_) href
    · rw [heq]
    · rw [heq]
    · rw [heq]
    · rw [heq]
    · rw [heq]
    · rw [heq]
    · rw [hdata]
      exact hs.shaped.gone x hx
  have hother : ∀ x, x ∉ keys ((p.apLog (i + 1)).map KVMemChng.entry) → view q t x = view p t x := by
    intro x hx
    rw [view, view, hrows, if_neg hx]
  have hlogs : ∀ n ≤ i, ∀ m, logsFrom (leaveLevel (spliceLog p) (i + 1)).apLog m n =
      logsFrom p.apLog m n := by
    intro n hn m
    refine logsFrom_congr fun j _ hj => ?_
    rw [hsplice, heq]
    show Function.update (Function.update p.apLog i _) (i + 1) [] j = p.apLog j
    rw [Function.update_of_ne (by omega), Function.update_of_ne (by omega)]
  have hlog : (leaveLevel (spliceLog p) (i + 1)).apLog i = p.apLog (i + 1) ++ p.apLog i := by
    rw [hsplice, heq]
    show Function.update (Function.update p.apLog i _) (i + 1) [] i = _
    rw [Function.update_of_ne (by omega), Function.update_self]
  have hsub : (leaveLevel (spliceLog p) (i + 1)).iTransLevel = i + 2 := by
    rw [hsplice, heq]
    show p.iTransLevel - 1 = i + 2
    omega
  have hview : view (leaveLevel (spliceLog p) (i + 1)) t = view q t := by
    rw [hsplice]
    rfl
  refine ⟨_, rfl, ⟨?_, ?_, by omega⟩, hsub, ?_, ?_, ?_, ?_⟩
  · rw [hsplice]
    exact hshape.of_eq rfl rfl rfl rfl rfl rfl (fun _ => rfl) hshape.gone fun _ => rfl
  · rw [LogsNested, hsub, show i + 2 - 1 = i + 1 from rfl, logsFrom_succ (Nat.zero_le i), hlog,
      hlogs i (le_refl i), hview, List.map_append]
    refine htop.splice hother (fun x => ?_) fun x hx r hr => ?_
    · rw [view, view]
      split_ifs <;> rfl
    · rw [view, hrows, if_pos hx] at hr
      split_ifs at hr
      rw [Option.some_inj] at hr
      rw [← hr, rowLevel, length_logsFrom]
      exact Int.toNat_natCast _
  · rw [hview]
    funext x
    simp only [dataAt, view, hdata]
    split_ifs <;> rfl
  · intro iLevel hlt
    rw [restored, restored, hsub, hi, show i + 2 - 1 = i + 1 from rfl,
      show i + 3 - 1 = i + 1 + 1 from rfl, logsFrom_succ (by omega), logsFrom_succ (by omega),
      logsFrom_succ (by omega), hlog, hlogs i (le_refl i), hview, List.map_append,
      List.flatten_cons, List.flatten_cons, List.flatten_cons, ← List.append_assoc, undo_append,
      undo_append, undo_append, undo_append, undo_congr hother]
  · rw [hsplice, heq]
    rfl
  · rw [hsplice]
    exact hkey

/-! ### The final commit -/

/-- The store during the final commit, when the records `l` are left: a row that none of them is
about is as after the commit, and a deleted row has one of them at most. -/
structure Committing (p : KVMem) (t : BinTree Ptr) (l : List (Entry Ptr (Option Bytes × ℤ))) :
    Prop where
  shaped : Shaped p t 0
  live : ∀ x ∈ keys l, x ∈ t.toList
  once : ∀ x ∈ t.toList, (p.rows x).pData = none → (keys l).count x ≤ 1
  done : ∀ x ∈ t.toList, x ∉ keys l → (p.rows x).pData.isSome ∧ (p.rows x).mxTrans.toNat = 0
  bottom : Bottom rowLevel l

/-- A deleted row has one record at most. -/
def DeletedOnce (p : KVMem) : Prop :=
  ∀ c ∈ p.records, (p.rows c.pNode).pData = none →
    p.records.countP (·.pNode == c.pNode) ≤ 1

instance (p : KVMem) : Decidable (DeletedOnce p) := inferInstanceAs (Decidable (∀ _ ∈ _, _))

theorem count_keys : (keys (logsFrom a 0 n).flatten).count x =
    ((List.range n).flatMap a).countP (·.pNode == x) := by
  induction n with
  | zero => rfl
  | succ n ih =>
      rw [logsFrom_succ (Nat.zero_le n), List.flatten_cons, keys_append, List.count_append, ih,
        List.range_succ, List.flatMap_append, List.countP_append, Nat.add_comm]
      congr 1
      have hmap : keys ((a n).map KVMemChng.entry) = (a n).map KVMemChng.pNode := by
        simp [keys, KVMemChng.entry]
      simp only [hmap, List.flatMap_cons, List.flatMap_nil, List.append_nil, List.count,
        List.countP_map]
      rfl

/-- The final commit begins. -/
theorem Sound.committing (hs : Sound p t) (honce : DeletedOnce p) :
    Committing p t (logsFrom p.apLog 0 (p.iTransLevel - 1)).flatten := by
  have hmem : ∀ x, x ∈ keys (logsFrom p.apLog 0 (p.iTransLevel - 1)).flatten →
      ∃ c ∈ p.records, c.pNode = x := by
    intro x hx
    obtain ⟨j, hj, c, hc, hcx⟩ := mem_keys_logsFrom.mp hx
    exact ⟨c, mem_records.mpr ⟨j, hj, hc⟩, hcx⟩
  refine ⟨hs.shaped, fun x hx => mem_of_view (hs.nested.live.isSome hx), fun x hx hd => ?_,
    fun x hx hn => ?_, hs.nested.bottom⟩
  · rw [count_keys]
    by_cases h0 : ((List.range (p.iTransLevel - 1)).flatMap p.apLog).countP (·.pNode == x) = 0
    · omega
    · obtain ⟨c, hc, hcx⟩ := List.countP_pos_iff.mp (Nat.pos_of_ne_zero h0)
      have hcx' : c.pNode = x := by simpa using hcx
      have h1 := honce c hc (by rw [hcx']; exact hd)
      rw [hcx'] at h1
      exact h1
  · have hundo : undo (logsFrom p.apLog 0 (p.iTransLevel - 1)).flatten (view p t) x =
        some ((p.rows x).pData, (p.rows x).mxTrans) := by
      rw [undo_of_notMem hn, view_of_mem hx]
    exact hs.nested.undo_all hundo

/-- What the final commit leaves of the rows. -/
structure SameData (p p' : KVMem) (t t' : BinTree Ptr) : Prop where
  data : dataAt (view p' t') = dataAt (view p t)
  pFresh : p'.pFresh = p.pFresh
  aKey : ∀ x, (p'.rows x).aKey = (p.rows x).aKey

theorem SameData.trans {p'' : KVMem} {t'' : BinTree Ptr} (h : SameData p p' t t')
    (h' : SameData p' p'' t' t'') : SameData p p'' t t'' :=
  ⟨h'.data.trans h.data, h'.pFresh.trans h.pFresh, fun x => (h'.aKey x).trans (h.aKey x)⟩

/-- One record. -/
theorem commitRecord_spec {q : KVMem} {l : List (Entry Ptr (Option Bytes × ℤ))}
    (hc : Committing q t (c.entry :: l))
    (hrec : ∀ x, (∃ c ∈ q.records, c.pNode = x) → x ∈ keys l) :
    ∃ t', Committing (commitRecord q c) t' l ∧ SameData q (commitRecord q c) t t' ∧
      SameLogs q (commitRecord q c) := by
  have hx : c.pNode ∈ t.toList := hc.live _ (by simp [KVMemChng.entry])
  have hkey : c.entry.key = c.pNode := rfl
  by_cases hd : (q.rows c.pNode).pData.isSome
  · rw [commitRecord, if_pos hd]
    obtain ⟨h1, h2, h3⟩ := setRow_spec hc.shaped hx (fun r => { r with mxTrans := c.oldTrans })
      ⟨rfl, rfl⟩
    have hdata : ∀ y, ((q.setRow c.pNode fun r => { r with mxTrans := c.oldTrans }).rows y).pData =
        (q.rows y).pData := by
      intro y
      by_cases hy : y = c.pNode
      · rw [hy, KVMem.setRow_same]
      · rw [KVMem.setRow_ne _ _ hy]
    refine ⟨t, ⟨h1, fun y hy => hc.live y (by simp [hy]), fun y hy hn => ?_, fun y hy hn => ?_,
      hc.bottom.2⟩, ⟨?_, h3.pFresh, h3.aKey⟩, h3⟩
    · rw [hdata] at hn
      have := hc.once y hy hn
      rw [keys_cons, List.count_cons] at this
      omega
    · rw [hdata]
      by_cases hyc : y = c.pNode
      · rw [hyc] at hn ⊢
        refine ⟨hd, ?_⟩
        rw [KVMem.setRow_same]
        -- The oldest record of a row says that it was not logged before.
        have hbot := hc.bottom.1 (hkey ▸ hn)
        by_cases hold : c.pData.isSome ∨ 0 < c.oldTrans
        · exact hbot (c.pData, c.oldTrans) (if_pos hold)
        · have hle : ¬ 0 < c.oldTrans := fun h => hold (Or.inr h)
          show c.oldTrans.toNat = 0
          omega
      · rw [KVMem.setRow_ne _ _ hyc]
        exact hc.done y hy (by simp [hkey, hyc, hn])
    · funext y
      simp only [dataAt, view, hdata]
      split_ifs <;> rfl
  · -- The row is deleted, and no other record is about it.
    rw [commitRecord, if_neg hd]
    have hnone : (q.rows c.pNode).pData = none := by simpa using hd
    have hcount := hc.once _ hx hnone
    rw [keys_cons, hkey, List.count_cons_self] at hcount
    have hnot : c.pNode ∉ keys l := fun hm => by
      have := List.count_pos_iff.mpr hm
      omega
    obtain ⟨t', h1, h2, h3⟩ := removeNode_spec hc.shaped hx fun c' hc' heq =>
      hnot (hrec _ ⟨c', hc', heq⟩)
    have hmem : ∀ y, y ∈ t'.toList ↔ y ≠ c.pNode ∧ y ∈ t.toList := by
      intro y
      have hiff : ∀ {p : KVMem} {t : BinTree Ptr}, y ∈ t.toList ↔ (view p t y).isSome :=
        ⟨fun h => by rw [view_of_mem h]; rfl, mem_of_view⟩
      rw [hiff (p := kvmemRemoveNode q c.pNode), h2, hiff (p := q)]
      by_cases hy : y = c.pNode
      · simp [hy]
      · simp [hy]
    have hrow : ∀ y ∈ t'.toList, ((kvmemRemoveNode q c.pNode).rows y).pData = (q.rows y).pData ∧
        ((kvmemRemoveNode q c.pNode).rows y).mxTrans = (q.rows y).mxTrans := by
      intro y hy
      have hv := congrFun h2 y
      rw [view_of_mem hy, Function.update_of_ne ((hmem y).mp hy).1, view_of_mem ((hmem y).mp hy).2,
        Option.some_inj, Prod.mk.injEq] at hv
      exact hv
    refine ⟨t', ⟨h1, fun y hy => ?_, fun y hy hn => ?_, fun y hy hn => ?_, hc.bottom.2⟩,
      ⟨?_, h3.pFresh, h3.aKey⟩, h3⟩
    · exact (hmem y).mpr ⟨by rintro rfl; exact hnot hy, hc.live y (by simp [hy])⟩
    · rw [(hrow y hy).1] at hn
      have := hc.once y ((hmem y).mp hy).2 hn
      rw [keys_cons, List.count_cons] at this
      omega
    · rw [(hrow y hy).1, (hrow y hy).2]
      obtain ⟨hyc, hyt⟩ := (hmem y).mp hy
      exact hc.done y hyt (by simp [hkey, hyc, hn])
    · funext y
      rw [dataAt, h2]
      by_cases hy : y = c.pNode
      · rw [hy, Function.update_self, dataAt, view_of_mem hx, hnone]
        rfl
      · rw [Function.update_of_ne hy]
        rfl

/-- The records of one level. -/
theorem closeLog_commit {l : List KVMemChng} (hi : p.iTransLevel = i + 2)
    (hc : Committing p t (l.map KVMemChng.entry ++ (logsFrom p.apLog 0 i).flatten)) :
    ∃ t', Committing (closeLog commitRecord i l p) t' (logsFrom p.apLog 0 i).flatten ∧
      SameData p (closeLog commitRecord i l p) t t' ∧
        (closeLog commitRecord i l p).apLog = Function.update p.apLog i [] ∧
          (closeLog commitRecord i l p).iTransLevel = p.iTransLevel := by
  induction l generalizing p t with
  | nil =>
      refine ⟨t, ⟨hc.shaped.setLog i [], hc.live, hc.once, hc.done, hc.bottom⟩,
        ⟨rfl, rfl, fun _ => rfl⟩, rfl, rfl⟩
  | cons c l ih =>
      have hc1 : Committing (p.setLog i l) t
          (c.entry :: (l.map KVMemChng.entry ++ (logsFrom p.apLog 0 i).flatten)) :=
        ⟨hc.shaped.setLog i l, hc.live, hc.once, hc.done, hc.bottom⟩
      obtain ⟨t1, h1, h2, h3⟩ := commitRecord_spec hc1 fun x hx => (mem_records_setLog hi).mp hx
      obtain ⟨q, hq⟩ : ∃ q, commitRecord (p.setLog i l) c = q := ⟨_, rfl⟩
      rw [hq] at h1 h2 h3
      have hlogs : logsFrom q.apLog 0 i = logsFrom p.apLog 0 i := by
        refine logsFrom_congr fun j _ hj => ?_
        rw [h3.apLog]
        exact Function.update_of_ne (by omega) ..
      obtain ⟨t2, h4, h5, h6, h7⟩ := ih (h3.iTransLevel.trans hi) (by rw [hlogs]; exact h1)
      have hdef : closeLog commitRecord i (c :: l) p = closeLog commitRecord i l q := by
        rw [closeLog, hq]
      rw [hlogs] at h4
      rw [hdef]
      refine ⟨t2, h4, SameData.trans ⟨h2.data, h2.pFresh, h2.aKey⟩ h5, ?_,
        h7.trans h3.iTransLevel⟩
      rw [h6, h3.apLog]
      exact Function.update_idem ..

/-! ### Whole calls -/

theorem commitLoop_nested {iLevel : ℕ} (hs : Sound p t) (h2 : 2 ≤ iLevel)
    (hlevel : iLevel ≤ p.iTransLevel) (hn : p.iTransLevel ≤ n) :
    Sound (commitLoop iLevel n p) t ∧ (commitLoop iLevel n p).iTransLevel = iLevel ∧
      SameData p (commitLoop iLevel n p) t t ∧
        ∀ k < iLevel, restored (commitLoop iLevel n p) t k = restored p t k := by
  induction n generalizing p with
  | zero => omega
  | succ n ih =>
      rw [commitLoop]
      split_ifs with hif hlow
      · omega
      · obtain ⟨i, hi⟩ : ∃ i, p.iTransLevel = i + 3 := ⟨p.iTransLevel - 3, by omega⟩
        obtain ⟨q, hq, h1, h2, h3, h4, h5, h6⟩ := splice_round hs hi
        have hsub : p.iTransLevel - 2 = i + 1 := by omega
        simp only [hsub, hq]
        obtain ⟨h7, h8, h9, h10⟩ := ih h1 (by omega) (by omega)
        refine ⟨h7, h8, SameData.trans ⟨h3, h5, h6⟩ h9, fun k hk => ?_⟩
        rw [h10 k hk, h4 k (by omega)]
      · exact ⟨hs, by omega, ⟨rfl, rfl, fun _ => rfl⟩, fun _ _ => rfl⟩

theorem commitLoop_final {iLevel : ℕ} (hlow : iLevel < 2)
    (hc : Committing p t (logsFrom p.apLog 0 (p.iTransLevel - 1)).flatten)
    (hlevel : iLevel ≤ p.iTransLevel) (hn : p.iTransLevel ≤ n) :
    ∃ t', Committing (commitLoop iLevel n p) t' [] ∧ SameData p (commitLoop iLevel n p) t t' := by
  have hnone : p.iTransLevel ≤ 1 → Committing p t [] := by
    intro hle
    rw [logsFrom_of_le (by omega)] at hc
    exact hc
  induction n generalizing p t with
  | zero => exact ⟨t, hnone (by omega), rfl, rfl, fun _ => rfl⟩
  | succ n ih =>
      rw [commitLoop]
      split_ifs with hif
      · obtain ⟨i, hi⟩ : ∃ i, p.iTransLevel = i + 2 := ⟨p.iTransLevel - 2, by omega⟩
        have hsub : p.iTransLevel - 2 = i := by omega
        rw [hi, show i + 2 - 1 = i + 1 from rfl, logsFrom_succ (Nat.zero_le i),
          List.flatten_cons] at hc
        obtain ⟨t1, h1, h2, h3, h4⟩ := closeLog_commit hi hc
        obtain ⟨q, hq⟩ : ∃ q, leaveLevel (closeLog commitRecord i (p.apLog i) p) i = q := ⟨_, rfl⟩
        simp only [hsub, hq]
        have hqlevel : q.iTransLevel = i + 1 := by
          rw [← hq, leaveLevel, h4, hi]
          rfl
        have hqlogs : logsFrom q.apLog 0 i = logsFrom p.apLog 0 i := by
          refine logsFrom_congr fun j _ hj => ?_
          rw [← hq]
          refine (Function.update_of_ne (by omega) ..).trans ?_
          rw [h3, Function.update_of_ne (by omega)]
        have hcq : Committing q t1 (logsFrom q.apLog 0 (q.iTransLevel - 1)).flatten := by
          rw [hqlevel, show i + 1 - 1 = i from rfl, hqlogs, ← hq]
          exact ⟨h1.shaped.of_eq rfl rfl rfl rfl rfl rfl (fun _ => rfl) h1.shaped.gone fun _ => rfl,
            h1.live, h1.once, h1.done, h1.bottom⟩
        obtain ⟨t2, h5, h6⟩ := ih hcq (by omega) (by omega) fun hle => by
          rw [logsFrom_of_le (by omega)] at hcq
          exact hcq
        refine ⟨t2, h5, SameData.trans ⟨?_, ?_, ?_⟩ h6⟩
        · rw [← hq]
          exact h2.data
        · rw [← hq]
          exact h2.pFresh
        · rw [← hq]
          exact h2.aKey
      · exact ⟨t, hnone (by omega), rfl, rfl, fun _ => rfl⟩

/-- The store without a write transaction. -/
theorem Committing.sound {iLevel : ℕ} (hc : Committing p t []) (hlow : iLevel < 2) :
    Sound { p with iTransLevel := iLevel } t := by
  refine ⟨hc.shaped.of_eq rfl rfl rfl rfl rfl rfl (fun _ => rfl) hc.shaped.gone fun _ => rfl, ?_,
    by show iLevel ≤ 32767; omega⟩
  show Nested rowLevel _ (logsFrom p.apLog 0 (iLevel - 1)) (view p t)
  rw [show iLevel - 1 = 0 by omega]
  intro x r hr
  have hx : x ∈ t.toList := mem_of_view (by rw [hr]; rfl)
  rw [view_of_mem hx, Option.some_inj] at hr
  rw [← hr]
  exact hc.done x hx (by simp)

/-- **`kvmemRollback`**: the rows are those that are restored at the level. -/
theorem rollback_spec {iLevel : ℕ} (hs : Sound p t) (hlevel : iLevel ≤ p.iTransLevel) :
    ∃ t', Sound (kvmemRollback p iLevel) t' ∧
      (∀ k, k ≤ iLevel ∨ k ≤ 1 → restored (kvmemRollback p iLevel) t' k = restored p t k) ∧
        ∀ x, ((kvmemRollback p iLevel).rows x).aKey = (p.rows x).aKey := by
  obtain ⟨t', h⟩ := rollbackLoop_spec hs hlevel (le_refl p.iTransLevel)
  refine ⟨t', h.sound, fun k hk => ?_, h.aKey⟩
  have hview : view (kvmemRollback p iLevel) t' = restored p t iLevel := h.view
  rw [restored, hview, restored, restored, ← undo_append, ← List.flatten_append]
  have hlogs : logsFrom (kvmemRollback p iLevel).apLog (k - 1) (iLevel - 1) =
      logsFrom p.apLog (k - 1) (iLevel - 1) := logsFrom_congr fun j _ hj => h.apLog j hj
  have hlevel' : (kvmemRollback p iLevel).iTransLevel = iLevel := rfl
  rw [hlevel', hlogs, ← logsFrom_split (by omega) (by omega)]

/-- **`kvmemCommitPhaseTwo` to a level with a write transaction.** -/
theorem spliced_spec {iLevel : ℕ} (hs : Sound p t) (h2 : 2 ≤ iLevel)
    (hlevel : iLevel ≤ p.iTransLevel) :
    Sound (kvmemCommitPhaseTwo p iLevel) t ∧ SameData p (kvmemCommitPhaseTwo p iLevel) t t ∧
      ∀ k < iLevel, restored (kvmemCommitPhaseTwo p iLevel) t k = restored p t k := by
  obtain ⟨h3, h4, h5, h6⟩ := commitLoop_nested hs h2 hlevel (le_refl p.iTransLevel)
  have heq : kvmemCommitPhaseTwo p iLevel = commitLoop iLevel p.iTransLevel p := by
    rw [kvmemCommitPhaseTwo]
    generalize commitLoop iLevel p.iTransLevel p = q at h4
    rw [← h4]
  rw [heq]
  exact ⟨h3, h5, h6⟩

/-- **`kvmemCommitPhaseTwo` to a level without a write transaction**: no deleted row is left. -/
theorem committed_spec {iLevel : ℕ} (hs : Sound p t) (hlow : iLevel < 2)
    (hlevel : iLevel ≤ p.iTransLevel) (honce : DeletedOnce p) :
    ∃ t', Sound (kvmemCommitPhaseTwo p iLevel) t' ∧
      SameData p (kvmemCommitPhaseTwo p iLevel) t t' ∧
        ∀ x ∈ t'.toList, ((kvmemCommitPhaseTwo p iLevel).rows x).pData.isSome := by
  obtain ⟨t', h1, h2⟩ := commitLoop_final hlow (hs.committing honce) hlevel (le_refl p.iTransLevel)
  exact ⟨t', h1.sound hlow, ⟨h2.data, h2.pFresh, h2.aKey⟩, fun x hx => (h1.done x hx (by simp)).1⟩

/-- `kvmemBegin`. -/
theorem begin_spec {iLevel : ℕ} (malloc : Bool) (hs : Sound p t)
    (hnext : iLevel = p.iTransLevel + 1 ∨ iLevel = 2 ∧ p.iTransLevel = 0) (hmax : iLevel ≤ 32767) :
    Sound (kvmemBegin p iLevel malloc).1 t ∧
      (∀ k, restored (kvmemBegin p iLevel malloc).1 t k = restored p t k) ∧
        view (kvmemBegin p iLevel malloc).1 t = view p t ∧
          (kvmemBegin p iLevel malloc).1.rows = p.rows := by
  rw [kvmemBegin]
  by_cases h2 : 2 ≤ iLevel
  · rw [if_pos h2]
    cases malloc with
    | false => exact ⟨hs, fun _ => rfl, rfl, rfl⟩
    | true =>
        obtain ⟨i, rfl⟩ : ∃ i, iLevel = i + 2 := ⟨iLevel - 2, by omega⟩
        have hprev : p.iTransLevel - 1 = i := by omega
        have hlogs : ∀ m, logsFrom (p.setLog i []).apLog m i = logsFrom p.apLog m i := fun m =>
          logsFrom_congr fun j _ hj => Function.update_of_ne (by omega) ..
        have htop : (p.setLog i []).apLog i = [] := Function.update_self ..
        refine ⟨⟨?_, ?_, hmax⟩, fun k => ?_, rfl, rfl⟩
        · exact hs.shaped.of_eq rfl rfl rfl rfl rfl rfl (fun _ => rfl) hs.shaped.gone fun _ => rfl
        · show Nested rowLevel _ (logsFrom (p.setLog i []).apLog 0 (i + 1)) (view p t)
          rw [logsFrom_succ (Nat.zero_le i), htop, hlogs]
          have hn := hs.nested
          rw [LogsNested, hprev] at hn
          exact hn.push
        · show undo (logsFrom (p.setLog i []).apLog (k - 1) (i + 1)).flatten (view p t) = _
          rw [restored, hprev, logsFrom]
          split_ifs with hk
          · rw [htop, hlogs]
            rfl
          · rw [logsFrom_of_le (by omega)]
  · rw [if_neg h2]
    have h0 : p.iTransLevel = 0 := by omega
    have h1 : iLevel - 1 = p.iTransLevel - 1 := by omega
    refine ⟨⟨?_, ?_, hmax⟩, fun k => ?_, rfl, rfl⟩
    · exact hs.shaped.of_eq rfl rfl rfl rfl rfl rfl (fun _ => rfl) hs.shaped.gone fun _ => rfl
    · show Nested rowLevel _ (logsFrom p.apLog 0 (iLevel - 1)) (view p t)
      rw [h1]
      exact hs.nested
    · show undo (logsFrom p.apLog (k - 1) (iLevel - 1)).flatten (view p t) = _
      rw [h1]
      rfl

end KvMem

end MoVeBench
