/-
MoVeBench/KvMem/Refine.lean

The in-memory store is a map with savepoints.

A store stands for its content together with what a rollback to each open level would give back
(`KVMem.savepoints`).  Seen so, every call does what its name says on a map (`Call.apply`): an
insert, an erasure, a savepoint, the end of savepoints with or without their changes; a call that
fails and a call on a cursor do nothing (`call_refines`).
-/
import MoVeBench.KvMem.Run
import MoVeBench.Lib.Savepoints

namespace MoVeBench

namespace KvMem

open AvlTree AvlTree.BinTree UndoLog Runs
open Lsm (Bytes)

/-! ### The map -/

/-- The content, and what a rollback to each open level gives back. -/
def KVMem.savepoints (p : KVMem) : Savepoints (List (Bytes × Bytes)) :=
  .ofLevels p.content (fun i => (kvmemRollback p (i + 1)).content) (p.iTransLevel - 1)

/-- What a call does to the map.  Its result, and the row at a cursor, are those of the store. -/
def Call.apply (p : KVMem) (s : Savepoints (List (Bytes × Bytes))) :
    Call → Savepoints (List (Bytes × Bytes))
  | .begin iLevel malloc => if 2 ≤ iLevel ∧ malloc = true then s.push else s
  | .commitPhaseTwo iLevel => s.release (iLevel - 1)
  | .rollback iLevel => s.revert (iLevel - 1)
  | .replace aKey aData malloc =>
      if (kvmemReplace p aKey aData malloc).2 = .ok then
        s.modify (SortedMap.insertEntry aKey aData)
      else s
  | .delete i malloc =>
      let r := p.rows (p.cursor i).pNode
      if r.pData.isSome ∧ (kvmemDelete p i malloc).2 = .ok then
        s.modify (SortedMap.eraseEntry r.aKey)
      else s
  | _ => s

variable {p p' : KVMem} {t t' : BinTree Ptr} {c : Call} {s : Session} {aKey aData : Bytes}

/-! ### The content after a call -/

theorem Quiet.content (hq : Quiet p p') : p'.content = p.content := by
  simp only [KVMem.content, hq.pFresh, hq.links, hq.pRoot, hq.pData, hq.aKey]

theorem Changed.content_insert (h : Changed p p' t t' aKey (some aData)) (hs : Shaped p t 0) :
    p'.content = SortedMap.insertEntry aKey aData p.content := by
  refine SortedMap.entries_ext (m := contentMap h.written.sound.shaped)
    (n := (contentMap hs).insert aKey aData) fun e => ?_
  refine (h.written.sound.shaped.mem_content.trans (h.has e.1 e.2)).trans ?_
  show _ ↔ e ∈ SortedMap.insertEntry aKey aData p.content
  rw [SortedMap.mem_insertEntry, hs.mem_content, Prod.ext_iff]
  by_cases hk : e.1 = aKey
  · simp [hk, eq_comm]
  · simp [hk]

theorem Changed.content_erase (h : Changed p p' t t' aKey none) (hs : Shaped p t 0) :
    p'.content = SortedMap.eraseEntry aKey p.content := by
  refine SortedMap.entries_ext (m := contentMap h.written.sound.shaped)
    (n := (contentMap hs).erase aKey) fun e => ?_
  refine (h.written.sound.shaped.mem_content.trans (h.has e.1 e.2)).trans ?_
  show _ ↔ e ∈ SortedMap.eraseEntry aKey p.content
  rw [SortedMap.mem_eraseEntry, hs.mem_content]
  by_cases hk : e.1 = aKey
  · simp [hk]
  · simp [hk]

/-! ### What a call leaves to go back to -/

theorem commitsWrite_low (h : commitsWrite p c = true) : (p.call c).iTransLevel < 2 := by
  cases c with
  | commitPhaseTwo iLevel => exact (of_decide_eq_true h).2
  | _ => simp [commitsWrite] at h

/-- A rollback after the call to a level below it. -/
theorem Stepped.rollback_content (h : Stepped p c t t') (hs : Sound p t) {i : ℕ}
    (hi : i + 1 < (p.call c).iTransLevel) : (kvmemRollback (p.call c) (i + 1)).content =
      if i < p.iTransLevel - 1 then (kvmemRollback p (i + 1)).content else p.content := by
  obtain ⟨u', hu', hiff'⟩ := h.sound.rollback hi.le
  have hwrite : commitsWrite p c = false := by
    by_contra hne
    have hlow := commitsWrite_low (Bool.not_eq_false _ ▸ hne)
    omega
  obtain ⟨-, hbelow⟩ := h.below (i + 1) hi.ne (Or.inl hi.le) (Or.inr hwrite)
  split_ifs with hlt
  · have hle : i + 1 ≤ p.iTransLevel := by omega
    obtain ⟨u, hu, hiff⟩ := hs.rollback hle
    exact hu'.content_eq hu fun a d => (hiff' a d).trans ((hbelow a d).trans (hiff a d).symm)
  · exact hu'.content_eq hs.shaped fun a d =>
      (hiff' a d).trans ((hbelow a d).trans (hasAt_current (by omega)))

theorem Stepped.savepoints (h : Stepped p c t t') (hs : Sound p t) :
    (p.call c).savepoints = .ofLevels (p.call c).content (fun i =>
      if i < p.iTransLevel - 1 then (kvmemRollback p (i + 1)).content else p.content)
      ((p.call c).iTransLevel - 1) :=
  Savepoints.ofLevels_congr fun _ hi => h.rollback_content hs (by omega)

/-- A call that stays at the level. -/
theorem Stepped.savepoints_modify (h : Stepped p c t t') (hs : Sound p t)
    (hlevel : (p.call c).iTransLevel = p.iTransLevel)
    {f : List (Bytes × Bytes) → List (Bytes × Bytes)} (hnow : (p.call c).content = f p.content) :
    (p.call c).savepoints = p.savepoints.modify f := by
  rw [h.savepoints hs, hlevel, hnow]
  exact Savepoints.ofLevels_congr fun _ hi => if_pos hi

theorem Stepped.savepoints_quiet (h : Stepped p c t t') (hs : Sound p t)
    (hq : Quiet p (p.call c)) : (p.call c).savepoints = p.savepoints :=
  h.savepoints_modify (f := id) hs hq.iTransLevel hq.content

/-! ### The calls -/

theorem begin_savepoints {iLevel : ℕ} {malloc : Bool} (hs : Sound p t)
    (h : Stepped p (.begin iLevel malloc) t t')
    (ha : iLevel = p.iTransLevel + 1 ∨ iLevel = 2 ∧ p.iTransLevel = 0) :
    (p.call (.begin iLevel malloc)).savepoints =
      if 2 ≤ iLevel ∧ malloc = true then p.savepoints.push else p.savepoints := by
  have hsaved := h.savepoints hs
  split_ifs with hif
  · obtain ⟨h2, rfl⟩ := hif
    have hlevel : (p.call (.begin iLevel true)).iTransLevel - 1 = p.iTransLevel - 1 + 1 := by
      have heq : (p.call (.begin iLevel true)).iTransLevel = iLevel := by
        show (kvmemBegin p iLevel true).1.iTransLevel = iLevel
        rw [kvmemBegin, if_pos h2, if_pos rfl]
      omega
    have hnow : (p.call (.begin iLevel true)).content = p.content := by
      show (kvmemBegin p iLevel true).1.content = p.content
      rw [kvmemBegin, if_pos h2, if_pos rfl]
      rfl
    rw [hsaved, hlevel, hnow]
    exact Savepoints.push_ofLevels.symm
  · by_cases h2 : 2 ≤ iLevel
    · -- The log could not be made.
      obtain rfl : malloc = false := by simpa [h2] using hif
      have hcall : p.call (.begin iLevel false) = p := by
        show (kvmemBegin p iLevel false).1 = p
        rw [kvmemBegin, if_pos h2]
        rfl
      rw [hcall]
    · -- A read transaction has no log.
      have hcall : p.call (.begin iLevel malloc) = { p with iTransLevel := iLevel } := by
        show (kvmemBegin p iLevel malloc).1 = _
        rw [kvmemBegin, if_neg h2]
      rw [hsaved, hcall]
      show Savepoints.ofLevels p.content _ (iLevel - 1) = .ofLevels p.content _ (p.iTransLevel - 1)
      rw [show iLevel - 1 = 0 by omega, show p.iTransLevel - 1 = 0 by omega]
      rfl

theorem commit_savepoints {iLevel : ℕ} (hs : Sound p t)
    (h : Stepped p (.commitPhaseTwo iLevel) t t') (hle : iLevel ≤ p.iTransLevel)
    (hf : iLevel < 2 → DeletedOnce p) :
    (p.call (.commitPhaseTwo iLevel)).savepoints = p.savepoints.release (iLevel - 1) := by
  have hnow : (kvmemCommitPhaseTwo p iLevel).content = p.content := by
    rcases Nat.lt_or_ge iLevel 2 with hlow | h2
    · obtain ⟨u, h1, h3, -⟩ := committed_spec hs hlow hle (hf hlow)
      exact h1.shaped.content_eq hs.shaped fun _ _ => has_of_data h3.data h3.aKey
    · obtain ⟨h1, h3, -⟩ := spliced_spec hs h2 hle
      exact h1.shaped.content_eq hs.shaped fun _ _ => has_of_data h3.data h3.aKey
  rw [h.savepoints hs]
  show Savepoints.ofLevels (kvmemCommitPhaseTwo p iLevel).content _ (iLevel - 1) = _
  rw [hnow, KVMem.savepoints, Savepoints.release_ofLevels (by omega)]
  exact Savepoints.ofLevels_congr fun i hi => if_pos (by omega)

theorem rollback_savepoints {iLevel : ℕ} (hs : Sound p t) (h : Stepped p (.rollback iLevel) t t')
    (hle : iLevel ≤ p.iTransLevel) :
    (p.call (.rollback iLevel)).savepoints = p.savepoints.revert (iLevel - 1) := by
  obtain ⟨u, hu, hiff⟩ := hs.rollback hle
  rw [h.savepoints hs]
  show Savepoints.ofLevels (kvmemRollback p iLevel).content _ (iLevel - 1) = _
  rcases Nat.lt_or_ge (iLevel - 1) (p.iTransLevel - 1) with hlt | hge
  · -- Levels are closed.  A rollback to level 0 is one to level 1.
    have hle1 : iLevel - 1 + 1 ≤ p.iTransLevel := by omega
    obtain ⟨v, hv, hiff'⟩ := hs.rollback hle1
    have hnow : (kvmemRollback p iLevel).content = (kvmemRollback p (iLevel - 1 + 1)).content :=
      hu.content_eq hv fun a d => (hiff a d).trans (hiff' a d).symm
    rw [hnow, KVMem.savepoints, Savepoints.revert_ofLevels hlt]
    exact Savepoints.ofLevels_congr fun i hi => if_pos (by omega)
  · have hnow : (kvmemRollback p iLevel).content = p.content :=
      hu.content_eq hs.shaped fun a d => (hiff a d).trans (hasAt_current hge)
    rw [hnow, KVMem.savepoints, Savepoints.revert_of_le hge,
      show iLevel - 1 = p.iTransLevel - 1 by omega]
    exact Savepoints.ofLevels_congr fun i hi => if_pos hi

theorem replace_savepoints {malloc : ℕ → Bool} (hs : Sound p t)
    (h : Stepped p (.replace aKey aData malloc) t t') (h2 : 2 ≤ p.iTransLevel) :
    (p.call (.replace aKey aData malloc)).savepoints =
      if (kvmemReplace p aKey aData malloc).2 = .ok then
        p.savepoints.modify (SortedMap.insertEntry aKey aData)
      else p.savepoints := by
  obtain ⟨i, hi⟩ : ∃ i, p.iTransLevel = i + 2 := ⟨p.iTransLevel - 2, by omega⟩
  obtain ⟨u, ⟨hok, hc⟩ | ⟨hfail, hw, hhas⟩⟩ := replace_spec hs hi aKey aData malloc
  · rw [if_pos hok]
    exact h.savepoints_modify hs hc.written.iTransLevel (hc.content_insert hs.shaped)
  · rw [if_neg (by rw [hfail]; simp)]
    exact h.savepoints_modify (f := id) hs hw.iTransLevel
      (hw.sound.shaped.content_eq hs.shaped hhas)

theorem delete_savepoints {i : ℕ} {malloc : Bool} (hs : Sound p t)
    (h : Stepped p (.delete i malloc) t t') (h2 : 2 ≤ p.iTransLevel) :
    (p.call (.delete i malloc)).savepoints =
      if (p.rows (p.cursor i).pNode).pData.isSome ∧ (kvmemDelete p i malloc).2 = .ok then
        p.savepoints.modify (SortedMap.eraseEntry (p.rows (p.cursor i).pNode).aKey)
      else p.savepoints := by
  obtain ⟨n, hn⟩ : ∃ n, p.iTransLevel = n + 2 := ⟨p.iTransLevel - 2, by omega⟩
  rcases delete_spec hs hn i malloc with ⟨heq, hor⟩ | ⟨hsome, hok, hc⟩
  · have hcall : p.call (.delete i malloc) = p := heq
    rw [hcall]
    refine (if_neg ?_).symm
    rintro ⟨hsome, hok⟩
    rcases hor with hfail | hnone | h0
    · rw [hfail] at hok
      cases hok
    · rw [hnone] at hsome
      cases hsome
    · have hgone := hs.shaped.gone 0 fun hm => hs.shaped.nonzero hm rfl
      rw [h0, hgone] at hsome
      cases hsome
  · rw [if_pos ⟨hsome, hok⟩]
    exact h.savepoints_modify hs hc.written.iTransLevel (hc.content_erase hs.shaped)

/-- **A call on the store is a call on the map.** -/
theorem call_refines (hrun : FittingRun s) (ha : Allowed s.store c) (hf : Fitting s.store c) :
    (s.store.call c).savepoints = c.apply s.store s.store.savepoints := by
  obtain ⟨t, hk⟩ := hrun.kept
  have hs := hk.sound
  obtain ⟨t', h⟩ := call_spec hs ha hf
  cases c with
  | begin iLevel malloc => exact begin_savepoints hs h ha
  | commitPhaseTwo iLevel => exact commit_savepoints hs h (Nat.le_of_lt ha) hf
  | rollback iLevel => exact rollback_savepoints hs h ha
  | replace aKey aData malloc => exact replace_savepoints hs h ha
  | openCursor malloc => exact h.savepoints_quiet hs (openCursor_spec hs hf malloc).2
  | reset i => exact h.savepoints_quiet hs (reset_spec hs i).1.quiet
  | seek i aKey direction => exact h.savepoints_quiet hs (seek_moved hs ha aKey direction).quiet
  | next i => exact h.savepoints_quiet hs (nextEntry_spec hs ha.1 (ha.2.mem hs.shaped)).quiet
  | prev i => exact h.savepoints_quiet hs (prevEntry_spec hs ha.1 (ha.2.mem hs.shaped)).quiet
  | delete i malloc => exact delete_savepoints hs h ha.2

/-- A row is overwritten at level 3, and the rollback to level 2 gives it back. -/
theorem call_refines_rollback :
    ∃ s, FittingRun s ∧ s.store.content = [([1], [8])] ∧
      (s.store.call (.rollback 2)).savepoints = s.store.savepoints.revert 1 ∧
      (s.store.savepoints.revert 1).now = [([1], [7])] := by
  have hrun := reach_calls (C := fun s c => Allowed s.store c ∧ Fitting s.store c) (.init rfl)
    [.begin 1 true, .begin 2 true, .replace [1] [7] fun _ => true, .begin 3 true,
      .replace [1] [8] fun _ => true] (by decide +kernel)
  exact ⟨_, hrun, by decide +kernel,
    call_refines (c := .rollback 2) hrun (by decide +kernel) trivial, by decide +kernel⟩

end KvMem

end MoVeBench
