/-
MoVeBench/Lsm/LevelChoice.lean

Which level `sortedWork` works on, and the loops that wait for it to make room.

A level is its age, the number of segments that are merged into it and how much of its
merge is left; the content is in Lsm/Levels.  A database that is full has to offer a merge,
or the loops never end.  Where every unfinished merge has `nMerge` inputs, it does, unless
the levels reach `LSM_MAX_RHS_SEGMENTS` in runs that are shorter than `nMerge`
(`fullDatabase_selects`).  A call of `lsm_work` with a smaller `nMerge` that runs out of
its budget leaves a merge with fewer inputs, which blocks the levels above it
(`fullDatabase_blocked`).
-/
import Mathlib

namespace MoVeBench

namespace Lsm

namespace LevelChoice

/-! ### Levels -/

/-- A level of the worker snapshot. -/
structure Level where
  /-- Of 16 bits. -/
  iAge : ℕ
  /-- The segments that are being merged into the level, or 0. -/
  nRight : ℕ
  /-- `LEVEL_FREELIST_ONLY`. -/
  bFreelistOnly : Bool
  /-- The records that the merge has yet to read. -/
  nLeft : ℕ
deriving DecidableEq, Repr

/-- `sortedCountLevels` for the list that begins with `p`. -/
def sortedCountLevels (p : Level) (pNext : List Level) : ℕ :=
  1 + (pNext.takeWhile fun q => q.iAge = p.iAge).length

/-- `LSM_MAX_RHS_SEGMENTS`. -/
def LSM_MAX_RHS_SEGMENTS : ℕ := 40

/-- `lsmDatabaseFull`. -/
def lsmDatabaseFull (levels : List Level) : Bool :=
  LSM_MAX_RHS_SEGMENTS ≤ (levels.map fun p => if p.nRight = 0 then 1 else p.nRight).sum

/-- `sortedDbIsFull`, for `pDb->nMerge`. -/
def sortedDbIsFull (nMerge : ℕ) (levels : List Level) : Bool :=
  lsmDatabaseFull levels ||
    match levels with
    | [] => false
    | pTop :: pNext =>
        pTop.iAge = 0 && (pTop.nRight ≠ 0 || nMerge ≤ sortedCountLevels pTop pNext)

/-! ### The choice of a level -/

/-- The variables of the loop of `sortedSelectLevel`; a level is its index. -/
structure Select where
  pBest : Option ℕ
  nBest : ℕ
  /-- `pThis`, with the age of that level. -/
  pThis : Option (ℕ × ℕ)
  nThis : ℕ

/-- At the end of a run of levels of one age, before `pLevel`: it is the best so far, unless
it should rather be merged with what is below. -/
def Select.endRun (s : Select) (dbMerge : ℕ) (pLevel : Level) (pNext : List Level) : Select :=
  match s.pThis with
  | none => s
  | some (i, iAge) =>
      if s.nBest < s.nThis ∧ (pLevel.iAge ≠ iAge + 1 ∨
          (pLevel.nRight = 0 ∧ sortedCountLevels pLevel pNext ≤ dbMerge)) then
        { s with pBest := some i, nBest := s.nThis }
      else s

/-- One turn of the loop of `sortedSelectLevel`, at the level with index `i`. -/
def Select.visit (s : Select) (dbMerge i : ℕ) (pLevel : Level) (pNext : List Level) : Select :=
  if pLevel.nRight = 0 ∧ s.pThis.map Prod.snd = some pLevel.iAge then
    { s with nThis := s.nThis + 1 }
  else
    let s := s.endRun dbMerge pLevel pNext
    if pLevel.nRight ≠ 0 then
      if s.nBest < pLevel.nRight then
        { pBest := some i, nBest := pLevel.nRight, pThis := none, nThis := 0 }
      else { s with pThis := none, nThis := 0 }
    else { s with pThis := some (i, pLevel.iAge), nThis := 1 }

/-- The loop of `sortedSelectLevel`. -/
def Select.loop (dbMerge : ℕ) : ℕ → Select → List Level → Select
  | _, s, [] => s
  | i, s, pLevel :: pNext => Select.loop dbMerge (i + 1) (s.visit dbMerge i pLevel pNext) pNext

/-- The run that the loop ends in. -/
def Select.lastRun (s : Select) : Select :=
  match s.pThis with
  | none => s
  | some (i, _) => if s.nBest < s.nThis then { s with pBest := some i, nBest := s.nThis } else s

/-- The loop from its start: `nBest = LSM_MAX(1, nMerge-1)`. -/
def selectBest (dbMerge nMerge : ℕ) (levels : List Level) : Select :=
  (Select.loop dbMerge 0 ⟨none, max 1 (nMerge - 1), none, 0⟩ levels).lastRun

/-- `pBest` and `nBest` in `sortedSelectLevel`: with `nMerge` 1, whatever is left. -/
def sortedSelectBest (dbMerge nMerge : ℕ) (levels : List Level) : Option (ℕ × ℕ) :=
  let s := selectBest dbMerge nMerge levels
  match s.pBest with
  | some i => some (i, s.nBest)
  | none =>
      let nFree := levels.countP fun p => p.bFreelistOnly
      let nUsr := levels.countP fun p => !p.bFreelistOnly
      if nMerge = 1 ∧ (1 < nUsr ∨ (nUsr = 1 ∧ 0 < nFree)) then some (0, nFree + nUsr) else none

/-- `sortedMergeSetup`: the level of a new merge, of some first levels of the list. -/
def sortedMergeSetup (levels : List Level) (nMerge nLeft : ℕ) : Level where
  iAge := ((levels.head?.map Level.iAge).getD 0 + 1) % 2 ^ 16
  nRight := nMerge
  bFreelistOnly := (levels.take nMerge).all fun p => p.bFreelistOnly
  nLeft := nLeft

/-- How many of the `nBest` levels of a run are merged: `nMerge` at most. -/
def nActual (nMerge nBest : ℕ) : ℕ := if 1 < nMerge ∧ nMerge < nBest then nMerge else nBest

/-- `sortedSelectLevel` with `pDb->nMerge` and `nMerge`: the levels above the selected one,
that level with its merge set up, and those below.  A merge that it sets up has `nLeft`
records to read. -/
def sortedSelectLevel (dbMerge nMerge nLeft : ℕ) (levels : List Level) :
    Option (List Level × Level × List Level) :=
  match sortedSelectBest dbMerge nMerge levels with
  | none => none
  | some (i, nBest) =>
      match levels.drop i with
      | [] => none
      | p :: pNext =>
          if p.nRight = 0 then
            some (levels.take i, sortedMergeSetup (p :: pNext) (nActual nMerge nBest) nLeft,
              (p :: pNext).drop (nActual nMerge nBest))
          else some (levels.take i, p, pNext)

/-! ### What is worth merging -/

/-- Every unfinished merge has `n` inputs or more. -/
def MergesOf (n : ℕ) (levels : List Level) : Prop :=
  ∀ p ∈ levels, p.nRight ≠ 0 → n ≤ p.nRight

instance (n : ℕ) (levels : List Level) : Decidable (MergesOf n levels) :=
  inferInstanceAs (Decidable (∀ p ∈ levels, p.nRight ≠ 0 → n ≤ p.nRight))

/-- A number of levels in a row have one age and are not being merged. -/
def HasRun (n : ℕ) (levels : List Level) : Prop :=
  ∃ above run below iAge, levels = above ++ run ++ below ∧ run.length = n ∧
    ∀ p ∈ run, p.nRight = 0 ∧ p.iAge = iAge

/-- A merge is unfinished, or a number of levels can be merged. -/
def HasWork (n : ℕ) (levels : List Level) : Prop :=
  (∃ p ∈ levels, p.nRight ≠ 0) ∨ HasRun n levels

section Loop

variable {k dbMerge nMerge n iAge i : ℕ} {s : Select} {p : Level} {pre rest levels : List Level}

/-- The level with index `i` is an unfinished merge of `n` segments, or `n` levels that can be
merged begin with it. -/
def Candidate (levels : List Level) (i n : ℕ) : Prop :=
  (∃ above p below, levels = above ++ p :: below ∧ above.length = i ∧ p.nRight = n ∧ n ≠ 0) ∨
  ∃ above run below iAge, levels = above ++ run ++ below ∧ above.length = i ∧ run.length = n ∧
    ∀ p ∈ run, p.nRight = 0 ∧ p.iAge = iAge

theorem Candidate.append (h : Candidate pre i n) : Candidate (pre ++ rest) i n := by
  rcases h with ⟨above, p, below, rfl, h⟩ | ⟨above, run, below, iAge, rfl, h⟩
  · exact .inl ⟨above, p, below ++ rest, by simp, h⟩
  · exact .inr ⟨above, run, below ++ rest, iAge, by simp, h⟩

/-- What the loop knows after the levels `pre`: what is best so far is worth it, and the
present run ends them. -/
structure Select.Sound (k : ℕ) (pre : List Level) (s : Select) : Prop where
  le_best : k ≤ s.nBest + 1
  first : s.pBest = none → s.nBest + 1 = k
  best : ∀ i, s.pBest = some i → k ≤ s.nBest ∧ Candidate pre i s.nBest
  this : ∀ i iAge, s.pThis = some (i, iAge) → ∃ above run, pre = above ++ run ∧
    above.length = i ∧ run.length = s.nThis ∧ ∀ p ∈ run, p.nRight = 0 ∧ p.iAge = iAge

theorem Select.Sound.endRun (h : s.Sound k pre) (dbMerge : ℕ) (p : Level)
    (rest : List Level) : (s.endRun dbMerge p rest).Sound k pre := by
  unfold Select.endRun
  split
  · exact h
  · rename_i i iAge hthis
    split_ifs with hlonger
    · have hlt := hlonger.1
      refine ⟨?_, nofun, ?_, h.this⟩
      · have := h.le_best
        show k ≤ s.nThis + 1
        omega
      · rintro _ ⟨⟩
        obtain ⟨above, run, hpre, hi, hrun, hages⟩ := h.this i iAge hthis
        have := h.le_best
        exact ⟨show k ≤ s.nThis by omega,
          .inr ⟨above, run, [], iAge, by rw [List.append_nil]; exact hpre, hi, hrun, hages⟩⟩
    · exact h

/-- One turn of the loop. -/
theorem Select.Sound.visit (h : s.Sound k pre) (dbMerge : ℕ) (p : Level) (rest : List Level) :
    (s.visit dbMerge pre.length p rest).Sound k (pre ++ [p]) := by
  unfold Select.visit
  simp only
  split_ifs with hsame hmerging hlonger
  · -- the run goes on
    refine ⟨h.le_best, h.first, fun i hi => ⟨(h.best i hi).1, (h.best i hi).2.append⟩, ?_⟩
    intro i iAge hthis
    obtain ⟨above, run, hpre, hi, hrun, hages⟩ := h.this i iAge hthis
    have hage : p.iAge = iAge := by
      have := hsame.2
      rw [show s.pThis = some (i, iAge) from hthis] at this
      exact (Option.some.inj this).symm
    refine ⟨above, run ++ [p], by rw [hpre, List.append_assoc], hi, by simp [hrun], ?_⟩
    intro q hq
    rcases List.mem_append.mp hq with hq | hq
    · exact hages q hq
    · rw [List.mem_singleton.mp hq]
      exact ⟨hsame.1, hage⟩
  · -- a merge with more segments than the best so far
    have hend := (h.endRun dbMerge p rest).le_best
    refine ⟨?_, nofun, ?_, nofun⟩
    · show k ≤ p.nRight + 1
      omega
    · rintro _ ⟨⟩
      exact ⟨show k ≤ p.nRight by omega, .inl ⟨pre, p, [], rfl, rfl, rfl, hmerging⟩⟩
  · have hend := h.endRun dbMerge p rest
    exact ⟨hend.le_best, hend.first,
      fun i hi => ⟨(hend.best i hi).1, (hend.best i hi).2.append⟩, nofun⟩
  · -- a run begins
    have hend := h.endRun dbMerge p rest
    refine ⟨hend.le_best, hend.first,
      fun i hi => ⟨(hend.best i hi).1, (hend.best i hi).2.append⟩, ?_⟩
    rintro i iAge ⟨⟩
    refine ⟨pre, [p], rfl, rfl, rfl, fun q hq => ?_⟩
    rw [List.mem_singleton.mp hq]
    exact ⟨not_not.mp hmerging, rfl⟩

theorem Select.Sound.loop (h : s.Sound k pre) :
    (Select.loop dbMerge pre.length s levels).Sound k (pre ++ levels) := by
  induction levels generalizing s pre with
  | nil => rwa [List.append_nil]
  | cons p levels ih =>
      have hlen : (pre ++ [p]).length = pre.length + 1 := by simp
      rw [Select.loop, List.append_cons, ← hlen]
      exact ih (h.visit _ _ _)

theorem Select.Sound.lastRun (h : s.Sound k pre) : s.lastRun.Sound k pre := by
  unfold Select.lastRun
  split
  · exact h
  · rename_i i iAge hthis
    split_ifs
    · have := h.le_best
      refine ⟨show k ≤ s.nThis + 1 by omega, nofun, ?_, h.this⟩
      rintro _ ⟨⟩
      obtain ⟨above, run, hpre, hi, hrun, hages⟩ := h.this i iAge hthis
      exact ⟨show k ≤ s.nThis by omega,
        .inr ⟨above, run, [], iAge, by rw [List.append_nil]; exact hpre, hi, hrun, hages⟩⟩
    · exact h

theorem sound_selectBest (dbMerge nMerge : ℕ) (levels : List Level) :
    (selectBest dbMerge nMerge levels).Sound (max 2 nMerge) levels := by
  have hstart : Select.Sound (max 2 nMerge) [] ⟨none, max 1 (nMerge - 1), none, 0⟩ :=
    ⟨by show _ ≤ max 1 (nMerge - 1) + 1; omega,
      fun _ => by show max 1 (nMerge - 1) + 1 = _; omega, nofun, nofun⟩
  exact hstart.loop.lastRun

end Loop

/-! ### A level is found -/

section Found

variable {k dbMerge nMerge n iAge i : ℕ} {s : Select} {p : Level} {pre rest levels : List Level}

/-- What was found stays found. -/
theorem Select.visit_isSome (h : s.pBest.isSome) :
    (s.visit dbMerge i p rest).pBest.isSome := by
  have hend : (s.endRun dbMerge p rest).pBest.isSome := by
    unfold Select.endRun
    split
    · exact h
    · split_ifs
      · rfl
      · exact h
  unfold Select.visit
  simp only
  split_ifs
  · exact h
  · rfl
  · exact hend
  · exact hend

theorem Select.loop_isSome (h : s.pBest.isSome) :
    (Select.loop dbMerge i s levels).pBest.isSome := by
  induction levels generalizing s i with
  | nil => exact h
  | cons p levels ih => exact ih (visit_isSome h)

theorem Select.lastRun_isSome (h : s.pBest.isSome) : s.lastRun.pBest.isSome := by
  unfold Select.lastRun
  split
  · exact h
  · split_ifs
    · rfl
    · exact h

/-- An unfinished merge with enough inputs is enough. -/
theorem Select.loop_merging (hs : s.Sound k pre) (hmerges : MergesOf k levels)
    (h : ∃ p ∈ levels, p.nRight ≠ 0) :
    (Select.loop dbMerge pre.length s levels).pBest.isSome := by
  induction levels generalizing s pre with
  | nil =>
      obtain ⟨p, hp, -⟩ := h
      cases hp
  | cons p levels ih =>
      rw [Select.loop]
      by_cases hp : p.nRight = 0
      · have hlen : (pre ++ [p]).length = pre.length + 1 := by simp
        rw [← hlen]
        refine ih (hs.visit _ _ _) (fun q hq => hmerges q (List.mem_cons_of_mem p hq)) ?_
        obtain ⟨q, hq, hne⟩ := h
        rcases List.mem_cons.mp hq with rfl | hq
        · exact absurd hp hne
        · exact ⟨q, hq, hne⟩
      · refine loop_isSome ?_
        have hinputs := hmerges p List.mem_cons_self hp
        have hfirst := (hs.endRun dbMerge p levels).first
        unfold Select.visit
        simp only
        rw [if_neg (fun h => hp h.1), if_pos hp]
        split_ifs with hlt
        · rfl
        · refine Option.isSome_iff_ne_none.mpr fun hnone => ?_
          have := hfirst hnone
          omega

/-- A run of `k` levels of one age, where `n` levels of age `iAge` come before the list. -/
def Long (k : ℕ) : ℕ → ℕ → List Level → Prop
  | n, _, [] => k ≤ n
  | n, iAge, p :: levels =>
      if p.iAge = iAge then Long k (n + 1) iAge levels else k ≤ n ∨ Long k 1 p.iAge levels

theorem long_of_takeWhile (h : k ≤ n + (levels.takeWhile fun q => q.iAge = iAge).length) :
    Long k n iAge levels := by
  induction levels generalizing n with
  | nil => exact h
  | cons p levels ih =>
      unfold Long
      split_ifs with hp
      · refine ih ?_
        rw [List.takeWhile_cons_of_pos (by simpa using hp), List.length_cons] at h
        omega
      · rw [List.takeWhile_cons_of_neg (by simpa using hp)] at h
        exact .inl h

theorem long_of_run {above run below : List Level} {age : ℕ} (hk : 0 < k)
    (hlen : run.length = k) (hages : ∀ p ∈ run, p.iAge = age) :
    Long k n iAge (above ++ run ++ below) := by
  induction above generalizing n iAge with
  | nil =>
      have hcount : k ≤ ((run ++ below).takeWhile fun q => q.iAge = age).length := by
        have hself : (run.takeWhile fun q => q.iAge = age) = run :=
          List.takeWhile_eq_self_iff.mpr fun p hp => decide_eq_true (hages p hp)
        rw [List.takeWhile_append, if_pos (by rw [hself]), List.length_append, hlen]
        exact Nat.le_add_right k _
      rw [List.nil_append]
      by_cases hage : iAge = age
      · subst hage
        exact long_of_takeWhile (by omega)
      · obtain ⟨p, run, rfl⟩ := List.exists_cons_of_length_pos (by omega : 0 < run.length)
        have hp := hages p List.mem_cons_self
        rw [List.cons_append, List.takeWhile_cons_of_pos (by simpa using hp),
          List.length_cons] at hcount
        rw [List.cons_append, Long, if_neg (fun h => hage (h.symm.trans hp)), hp]
        exact .inr (long_of_takeWhile (by omega))
  | cons p above ih =>
      simp only [List.cons_append, Long]
      split_ifs
      · exact ih
      · exact .inr ih

/-- A run of `k` levels is enough: where a run is passed over for what is below it, that is
a longer run. -/
theorem Select.loop_long (hk : k ≤ dbMerge) (hunmerged : ∀ p ∈ levels, p.nRight = 0)
    (hs : s.Sound k pre) {j : ℕ} (hthis : s.pThis = some (j, iAge))
    (hlong : Long k s.nThis iAge levels) :
    (Select.loop dbMerge pre.length s levels).lastRun.pBest.isSome := by
  induction levels generalizing s pre iAge j with
  | nil =>
      have hn : k ≤ s.nThis := hlong
      rw [Select.loop, Select.lastRun, hthis]
      simp only
      split_ifs with hlt
      · rfl
      · refine Option.isSome_iff_ne_none.mpr fun hnone => ?_
        have := hs.first hnone
        omega
  | cons p levels ih =>
      have hp := hunmerged p List.mem_cons_self
      have htail : ∀ p ∈ levels, p.nRight = 0 := fun q hq =>
        hunmerged q (List.mem_cons_of_mem p hq)
      have hlen : (pre ++ [p]).length = pre.length + 1 := by simp
      have hvisit := hs.visit dbMerge p levels
      rw [Select.loop, ← hlen]
      unfold Long at hlong
      by_cases hage : p.iAge = iAge
      · rw [if_pos hage] at hlong
        have hsame : s.visit dbMerge pre.length p levels = { s with nThis := s.nThis + 1 } := by
          rw [Select.visit, hthis, hage]
          exact if_pos ⟨hp, rfl⟩
        rw [hsame] at hvisit ⊢
        exact ih htail hvisit hthis hlong
      · rw [if_neg hage] at hlong
        have hnew : s.visit dbMerge pre.length p levels =
            { s.endRun dbMerge p levels with pThis := some (pre.length, p.iAge), nThis := 1 } := by
          rw [Select.visit, hthis]
          simp only
          rw [if_neg (fun h => hage (Option.some.inj h.2).symm), if_neg (not_not.mpr hp)]
        by_cases hnext : Long k 1 p.iAge levels
        · rw [hnew] at hvisit ⊢
          exact ih htail hvisit rfl hnext
        · -- the run ends, and what is below is not longer
          have hn : k ≤ s.nThis := hlong.resolve_right hnext
          have hcount : sortedCountLevels p levels ≤ dbMerge := by
            refine not_lt.mp fun hlt => hnext (long_of_takeWhile ?_)
            unfold sortedCountLevels at hlt
            omega
          refine lastRun_isSome (loop_isSome ?_)
          rw [hnew]
          show (s.endRun dbMerge p levels).pBest.isSome
          rw [Select.endRun, hthis]
          simp only
          split_ifs with hend
          · rfl
          · refine Option.isSome_iff_ne_none.mpr fun hnone => hend ⟨?_, .inr ⟨hp, hcount⟩⟩
            have := hs.first hnone
            omega

/-- **What is worth merging is found**, if every unfinished merge has enough inputs. -/
theorem selectBest_isSome (hk : max 2 nMerge ≤ dbMerge) (hmerges : MergesOf (max 2 nMerge) levels)
    (hwork : HasWork (max 2 nMerge) levels) :
    (selectBest dbMerge nMerge levels).pBest.isSome := by
  have hstart : Select.Sound (max 2 nMerge) [] ⟨none, max 1 (nMerge - 1), none, 0⟩ :=
    ⟨by show _ ≤ max 1 (nMerge - 1) + 1; omega,
      fun _ => by show max 1 (nMerge - 1) + 1 = _; omega, nofun, nofun⟩
  by_cases hmerging : ∃ p ∈ levels, p.nRight ≠ 0
  · exact Select.lastRun_isSome (Select.loop_merging hstart hmerges hmerging)
  · obtain ⟨above, run, below, iAge, hlevels, hlen, hages⟩ := hwork.resolve_left hmerging
    have hunmerged : ∀ p ∈ levels, p.nRight = 0 := fun p hp =>
      not_not.mp fun h => hmerging ⟨p, hp, h⟩
    rcases levels with - | ⟨p, levels⟩
    · have := congrArg List.length hlevels
      simp only [List.length_nil, List.length_append] at this
      omega
    · have hp := hunmerged p List.mem_cons_self
      have hlong : Long (max 2 nMerge) 0 p.iAge (p :: levels) := by
        rw [hlevels]
        exact long_of_run (by omega) hlen fun q hq => (hages q hq).2
      rw [Long, if_pos rfl] at hlong
      have hvisit := hstart.visit dbMerge p levels
      have hnew : Select.visit ⟨none, max 1 (nMerge - 1), none, 0⟩ dbMerge 0 p levels =
          ⟨none, max 1 (nMerge - 1), some (0, p.iAge), 1⟩ := by
        rw [Select.visit]
        simp only [Select.endRun, Option.map_none, reduceCtorEq, and_false, if_false]
        exact if_neg (not_not.mpr hp)
      rw [selectBest, Select.loop, hnew]
      rw [List.length_nil, hnew] at hvisit
      have hloop := Select.loop_long hk
        (fun q hq => hunmerged q (List.mem_cons_of_mem p hq)) hvisit rfl hlong
      exact hloop

end Found

section Selected

variable {k dbMerge nMerge nLeft n i : ℕ} {p : Level} {above below levels : List Level}

theorem HasRun.mono {m : ℕ} (hm : m ≤ n) (h : HasRun n levels) : HasRun m levels := by
  obtain ⟨above, run, below, iAge, rfl, hlen, hages⟩ := h
  refine ⟨above, run.take m, run.drop m ++ below, iAge, ?_, ?_,
    fun p hp => hages p (List.mem_of_mem_take hp)⟩
  · rw [List.append_assoc, List.append_assoc, ← List.append_assoc (run.take m),
      List.take_append_drop]
  · rw [List.length_take, hlen]
    exact Nat.min_eq_left hm

theorem HasWork.mono {m : ℕ} (hm : m ≤ n) (h : HasWork n levels) : HasWork m levels :=
  h.imp_right (HasRun.mono hm)

/-- What is selected is an unfinished merge, or first levels of the list from there on. -/
theorem sortedSelectBest_cases (h : sortedSelectBest dbMerge nMerge levels = some (i, n)) :
    max 2 nMerge ≤ n ∧ ((∃ above p below, levels = above ++ p :: below ∧ above.length = i ∧
      p.nRight ≠ 0) ∨ i + n ≤ levels.length) := by
  have hsound := sound_selectBest dbMerge nMerge levels
  unfold sortedSelectBest at h
  simp only at h
  split at h
  · rename_i j hbest
    obtain ⟨rfl, rfl⟩ := Prod.mk.inj (Option.some.inj h)
    obtain ⟨hk, hcandidate⟩ := hsound.best _ hbest
    refine ⟨hk, ?_⟩
    rcases hcandidate with ⟨above, p, below, hlevels, hi, hp, hne⟩ |
      ⟨above, run, below, -, hlevels, hi, hrun, -⟩
    · exact .inl ⟨above, p, below, hlevels, hi, hp ▸ hne⟩
    · have hlen := congrArg List.length hlevels
      rw [List.length_append, List.length_append] at hlen
      exact .inr (by omega)
  · split_ifs at h with hall
    obtain ⟨rfl, rfl⟩ := Prod.mk.inj (Option.some.inj h)
    have hcount := List.length_eq_countP_add_countP (fun p : Level => p.bFreelistOnly) (l := levels)
    simp only [Bool.not_eq_true] at hcount
    have hsame : levels.countP (fun p => decide (p.bFreelistOnly = false)) =
        levels.countP fun p => !p.bFreelistOnly := by
      refine List.countP_congr fun p _ => ?_
      cases p.bFreelistOnly <;> decide
    rw [hsame] at hcount
    refine ⟨?_, .inr ?_⟩
    · rw [hall.1]
      omega
    · omega

theorem sortedSelectLevel_isSome (h : (selectBest dbMerge nMerge levels).pBest.isSome) :
    (sortedSelectLevel dbMerge nMerge nLeft levels).isSome := by
  obtain ⟨i, hi⟩ := Option.isSome_iff_exists.mp h
  have hbest : sortedSelectBest dbMerge nMerge levels =
      some (i, (selectBest dbMerge nMerge levels).nBest) := by
    unfold sortedSelectBest
    simp only [hi]
  obtain ⟨hk, hcases⟩ := sortedSelectBest_cases hbest
  unfold sortedSelectLevel
  rw [hbest]
  simp only
  split
  · rename_i hdrop
    have hlen := List.drop_eq_nil_iff.mp hdrop
    rcases hcases with ⟨above, p, below, hlevels, hi, -⟩ | hlt
    · rw [hlevels, List.length_append, List.length_cons] at hlen
      omega
    · omega
  · split_ifs <;> rfl

theorem nActual_le (nMerge nBest : ℕ) : nActual nMerge nBest ≤ nBest := by
  unfold nActual
  split_ifs with hcap
  · exact hcap.2.le
  · exact le_refl nBest

theorem le_nActual (h : max 2 nMerge ≤ n) : max 2 nMerge ≤ nActual nMerge n := by
  unfold nActual
  split_ifs with hcap
  · omega
  · exact h

/-- **The selected level**: an unfinished merge, or a new one of at least two levels. -/
theorem sortedSelectLevel_cases
    (h : sortedSelectLevel dbMerge nMerge nLeft levels = some (above, p, below)) :
    (levels = above ++ p :: below ∧ p.nRight ≠ 0) ∨
      ∃ run, levels = above ++ run ++ below ∧ run.length = p.nRight ∧
        max 2 nMerge ≤ p.nRight := by
  unfold sortedSelectLevel at h
  split at h
  · cases h
  · rename_i i n hbest
    obtain ⟨hk, hcases⟩ := sortedSelectBest_cases hbest
    split at h
    · cases h
    · rename_i p₀ pNext hdrop
      have hsplit : levels = levels.take i ++ (p₀ :: pNext) := by
        rw [← hdrop, List.take_append_drop]
      split_ifs at h with hright
      · obtain ⟨rfl, hpair⟩ := Prod.mk.inj (Option.some.inj h)
        obtain ⟨rfl, rfl⟩ := Prod.mk.inj hpair
        refine .inr ?_
        -- the candidate is not a merge, so its levels are there
        have hfits : i + n ≤ levels.length := by
          refine hcases.resolve_left ?_
          rintro ⟨above, p, below, hlevels, rfl, hne⟩
          rw [hlevels, List.drop_left] at hdrop
          obtain ⟨rfl, -⟩ := List.cons.inj hdrop
          exact hne hright
        have hlen : (p₀ :: pNext).length = levels.length - i := by
          rw [← hdrop, List.length_drop]
        have hle := nActual_le nMerge n
        refine ⟨(p₀ :: pNext).take (nActual nMerge n), ?_, ?_, le_nActual hk⟩
        · rw [List.append_assoc, List.take_append_drop]
          exact hsplit
        · rw [List.length_take, hlen]
          exact Nat.min_eq_left (by omega)
      · obtain ⟨rfl, hpair⟩ := Prod.mk.inj (Option.some.inj h)
        obtain ⟨rfl, rfl⟩ := Prod.mk.inj hpair
        exact .inl ⟨hsplit, hright⟩

/-- What is selected was worth merging. -/
theorem hasWork_of_select (hm : 2 ≤ nMerge)
    (h : (sortedSelectLevel dbMerge nMerge nLeft levels).isSome) : HasWork nMerge levels := by
  have hsound := sound_selectBest dbMerge nMerge levels
  rcases hbest : (selectBest dbMerge nMerge levels).pBest with - | i
  · have hnone : sortedSelectBest dbMerge nMerge levels = none := by
      unfold sortedSelectBest
      simp only [hbest]
      exact if_neg fun h => absurd h.1 (by omega)
    rw [sortedSelectLevel, hnone] at h
    cases h
  · obtain ⟨hk, hcandidate⟩ := hsound.best i hbest
    rcases hcandidate with ⟨above, p, below, hlevels, -, hp, hne⟩ |
      ⟨above, run, below, iAge, hlevels, -, hrun, hages⟩
    · exact .inl ⟨p, by rw [hlevels]; simp, hp ▸ hne⟩
    · exact .inr (HasRun.mono (by omega) ⟨above, run, below, iAge, hlevels, hrun, hages⟩)

/-- A database that is full for its first levels has work. -/
theorem hasWork_of_full (h : sortedDbIsFull dbMerge levels = true)
    (hfew : lsmDatabaseFull levels = false) : HasWork dbMerge levels := by
  by_cases hmerging : ∃ p ∈ levels, p.nRight ≠ 0
  · exact .inl hmerging
  · have hunmerged : ∀ p ∈ levels, p.nRight = 0 := fun p hp =>
      not_not.mp fun h => hmerging ⟨p, hp, h⟩
    unfold sortedDbIsFull at h
    rw [hfew, Bool.false_or] at h
    rcases levels with - | ⟨pTop, pNext⟩
    · cases h
    · have htop := hunmerged pTop List.mem_cons_self
      simp only [htop, ne_eq, not_true_eq_false, decide_false, Bool.false_or, Bool.and_eq_true,
        decide_eq_true_eq] at h
      refine .inr (HasRun.mono h.2 ⟨[], pTop :: pNext.takeWhile (fun q => q.iAge = pTop.iAge),
        pNext.dropWhile (fun q => q.iAge = pTop.iAge), pTop.iAge, ?_, ?_, ?_⟩)
      · rw [List.nil_append, List.cons_append, List.takeWhile_append_dropWhile]
      · rw [sortedCountLevels, List.length_cons, Nat.add_comm]
      · intro p hp
        rcases List.mem_cons.mp hp with rfl | hp
        · exact ⟨htop, rfl⟩
        · exact ⟨hunmerged p (List.mem_cons_of_mem _ ((List.takeWhile_prefix _).subset hp)),
            by simpa using List.mem_takeWhile_imp hp⟩

end Selected

/-! ### A turn of sortedWork -/

/-- What the merge worker makes of the level `p` in a turn, and whether its merge is done
then.  At least one record is read; a level without entries is removed if it is the last. -/
inductive Worked (below : List Level) (p : Level) : List Level → Bool → Prop
  | more {nLeft : ℕ} (h : nLeft < p.nLeft) : Worked below p [{ p with nLeft := nLeft }] false
  | done : Worked below p [{ p with nRight := 0, nLeft := 0 }] true
  | empty (h : below = []) : Worked below p [] true

/-- One turn of the loop of `sortedWork`, where a level is selected.  With `nMerge` 1, the
free-list levels above the merge may be merged with it. -/
inductive Turn (dbMerge nMerge : ℕ) : List Level → List Level → Bool → Prop
  | merge {levels above below q : List Level} {p : Level} {nLeft : ℕ} {bDone : Bool}
      (hselect : sortedSelectLevel dbMerge nMerge nLeft levels = some (above, p, below))
      (hwork : Worked below p q bDone) : Turn dbMerge nMerge levels (above ++ q ++ below) bDone
  | freelist {levels above below q : List Level} {p : Level} {nLeft : ℕ}
      (hselect : sortedSelectLevel dbMerge nMerge nLeft levels = some (above, p, below))
      (hone : nMerge = 1) (habove : ∀ l ∈ above, l.bFreelistOnly = true)
      (hwork : Worked below p q true) : Turn dbMerge nMerge levels (q ++ below) true

/-- A call of `sortedWork` with `bFlush` set and `nRemaining` pages left ends, whatever the
merge worker does, and `Q` holds then.  A merge that is not done has used up the pages. -/
inductive SortedWork (dbMerge nMerge : ℕ) (Q : List Level → ℤ → Prop) :
    List Level → ℤ → Prop
  | spent {levels nRemaining} (h : nRemaining ≤ 0) (hQ : Q levels nRemaining) :
      SortedWork dbMerge nMerge Q levels nRemaining
  | idle {levels nRemaining} (h : 0 < nRemaining)
      (hselect : sortedSelectLevel dbMerge nMerge 0 levels = none) (hQ : Q levels nRemaining) :
      SortedWork dbMerge nMerge Q levels nRemaining
  | turn {levels} {nRemaining : ℤ} (h : 0 < nRemaining)
      (hselect : (sortedSelectLevel dbMerge nMerge 0 levels).isSome)
      (hroom : ∀ (levels' : List Level) (bDone : Bool) (nWork : ℕ),
        Turn dbMerge nMerge levels levels' bDone → (bDone = false → nRemaining ≤ nWork) →
        sortedDbIsFull dbMerge levels' = false → Q levels' (nRemaining - max nWork 1))
      (hfull : ∀ (levels' : List Level) (bDone : Bool) (nWork : ℕ),
        Turn dbMerge nMerge levels levels' bDone → (bDone = false → nRemaining ≤ nWork) →
        sortedDbIsFull dbMerge levels' = true →
          SortedWork dbMerge nMerge Q levels' (nRemaining - max nWork 1)) :
      SortedWork dbMerge nMerge Q levels nRemaining

/-- The loop `while( bFull ) sortedWork(nWork)` ends. -/
inductive RoomLoop (dbMerge nMerge : ℕ) (bFull : List Level → Bool) (nWork : ℤ) :
    List Level → Prop
  | room {levels} (h : bFull levels = false) : RoomLoop dbMerge nMerge bFull nWork levels
  | work {levels} (Q : List Level → Prop) (h : bFull levels = true)
      (hwork : SortedWork dbMerge nMerge (fun levels _ => Q levels) levels nWork)
      (hloop : ∀ levels, Q levels → RoomLoop dbMerge nMerge bFull nWork levels) :
      RoomLoop dbMerge nMerge bFull nWork levels

/-- The loop of `lsmFlushTreeToDisk`, with automatic work. -/
def lsmFlushTreeToDisk (dbMerge : ℕ) (levels : List Level) : Prop :=
  RoomLoop dbMerge dbMerge (sortedDbIsFull dbMerge) 256 levels

/-- The loop of `doLsmSingleWork` before the free list is written. -/
def freelistLoop (dbMerge nMerge : ℕ) (levels : List Level) : Prop :=
  RoomLoop dbMerge nMerge lsmDatabaseFull 16 levels

/-- In `doLsmSingleWork`, `sortedWork` makes room for a flush, and then the assertion
`nRem<=0 || !sortedDbIsFull(pDb)` holds. -/
def makesRoom (dbMerge nMerge : ℕ) (levels : List Level) (nRem : ℤ) : Prop :=
  SortedWork dbMerge nMerge (fun levels nRem => nRem ≤ 0 ∨ sortedDbIsFull dbMerge levels = false)
    levels nRem

/-! ### Runs -/

/-- `sortedNewToplevel`, where an entry is written: a free-list level on top is replaced. -/
def sortedNewToplevel (bFreelistOnly : Bool) (levels : List Level) : List Level :=
  let pNew : Level := ⟨0, 0, bFreelistOnly, 0⟩
  match levels with
  | [] => [pNew]
  | pTop :: pNext =>
      if pTop.nRight = 0 ∧ pTop.bFreelistOnly = true then pNew :: pNext
      else pNew :: pTop :: pNext

/-- The levels after flushes and turns of `lsm_work`, of connections with any `nMerge`; a
turn that merges `nMerge` levels at once, and is done or not, satisfies `C`. -/
inductive Reachable (C : ℕ → Bool → Prop) : List Level → Prop
  | start : Reachable C []
  | flush {levels} (bFreelistOnly : Bool) (h : Reachable C levels) :
      Reachable C (sortedNewToplevel bFreelistOnly levels)
  | work {levels levels'} {dbMerge nMerge : ℕ} {bDone : Bool} (h : Reachable C levels)
      (hC : C nMerge bDone) (hturn : Turn dbMerge nMerge levels levels' bDone) :
      Reachable C levels'

section Turns

variable {k dbMerge nMerge n : ℕ} {p : Level} {below levels levels' q : List Level} {bDone : Bool}

theorem Worked.length_le (h : Worked below p q bDone) : q.length ≤ 1 := by
  rcases h with _ | _ | _
  · exact le_refl 1
  · exact le_refl 1
  · exact Nat.zero_le 1

/-- A turn that is not done leaves the merge with its inputs. -/
theorem Worked.mergesOf (h : Worked below p q bDone) (hp : bDone = false → n ≤ p.nRight) :
    MergesOf n q := by
  rcases h with _ | _ | _
  · intro r hr _
    rw [List.mem_singleton.mp hr]
    exact hp rfl
  · intro r hr hne
    rw [List.mem_singleton.mp hr] at hne
    exact absurd rfl hne
  · intro r hr
    cases hr

/-- The merges that a turn leaves: those that were there, and a new one of `nMerge` levels. -/
theorem Turn.mergesOf (h : Turn dbMerge nMerge levels levels' bDone)
    (hn : bDone = false → n ≤ max 2 nMerge) (hlevels : MergesOf n levels) :
    MergesOf n levels' := by
  have hselected : ∀ {nLeft above below p q}, Worked below p q bDone →
      sortedSelectLevel dbMerge nMerge nLeft levels = some (above, p, below) →
      MergesOf n (above ++ q ++ below) := by
    intro nLeft above below p q hwork hselect
    have hrest : MergesOf n above ∧ MergesOf n below ∧ (bDone = false → n ≤ p.nRight) := by
      rcases sortedSelectLevel_cases hselect with ⟨rfl, hp⟩ | ⟨run, rfl, -, hk⟩
      · exact ⟨fun r hr => hlevels r (by simp [hr]), fun r hr => hlevels r (by simp [hr]),
          fun _ => hlevels p (by simp) hp⟩
      · exact ⟨fun r hr => hlevels r (by simp [hr]), fun r hr => hlevels r (by simp [hr]),
          fun hdone => (hn hdone).trans hk⟩
    intro r hr hne
    rcases List.mem_append.mp hr with hr | hr
    · rcases List.mem_append.mp hr with hr | hr
      · exact hrest.1 r hr hne
      · exact hwork.mergesOf hrest.2.2 r hr hne
    · exact hrest.2.1 r hr hne
  cases h with
  | merge hselect hwork => exact hselected hwork hselect
  | freelist hselect _ _ hwork =>
      intro r hr hne
      refine hselected hwork hselect r ?_ hne
      rw [List.append_assoc]
      exact List.mem_append_right _ hr

/-- The levels, the unfinished merges among them, and what these have yet to read. -/
def size (levels : List Level) : ℕ ×ₗ ℕ ×ₗ ℕ :=
  toLex (levels.length, toLex (levels.countP fun p => p.nRight ≠ 0, (levels.map Level.nLeft).sum))

theorem size_of_length (h : levels.length < levels'.length) : size levels < size levels' :=
  Prod.Lex.toLex_lt_toLex.mpr (.inl h)

theorem size_of_countP (hlen : levels.length = levels'.length)
    (h : levels.countP (fun p => p.nRight ≠ 0) < levels'.countP fun p => p.nRight ≠ 0) :
    size levels < size levels' :=
  Prod.Lex.toLex_lt_toLex.mpr (.inr ⟨hlen, Prod.Lex.toLex_lt_toLex.mpr (.inl h)⟩)

theorem size_of_left (hlen : levels.length = levels'.length)
    (hmerging : levels.countP (fun p => p.nRight ≠ 0) = levels'.countP fun p => p.nRight ≠ 0)
    (h : (levels.map Level.nLeft).sum < (levels'.map Level.nLeft).sum) :
    size levels < size levels' :=
  Prod.Lex.toLex_lt_toLex.mpr
    (.inr ⟨hlen, Prod.Lex.toLex_lt_toLex.mpr (.inr ⟨hmerging, h⟩)⟩)

/-- **Every turn gets on**: it merges levels, or finishes a merge, or reads of one. -/
theorem Turn.size_lt (h : Turn dbMerge nMerge levels levels' bDone) :
    size levels' < size levels := by
  have hselected : ∀ {nLeft above below p q}, Worked below p q bDone →
      sortedSelectLevel dbMerge nMerge nLeft levels = some (above, p, below) →
      size (above ++ q ++ below) < size levels := by
    intro nLeft above below p q hwork hselect
    rcases sortedSelectLevel_cases hselect with ⟨rfl, hp⟩ | ⟨run, rfl, hrun, hk⟩
    · cases hwork with
      | more hleft =>
          refine size_of_left (by simp) ?_ ?_
          · simp only [List.append_assoc, List.cons_append, List.nil_append, List.countP_append,
              List.countP_cons]
          · simp only [List.append_assoc, List.cons_append, List.nil_append, List.map_append,
              List.map_cons, List.sum_append, List.sum_cons]
            omega
      | done =>
          refine size_of_countP (by simp) ?_
          simp only [List.append_assoc, List.cons_append, List.nil_append, List.countP_append,
            List.countP_cons, ne_eq, hp, not_false_eq_true, decide_true, if_true,
            not_true_eq_false, decide_false, Bool.false_eq_true, if_false]
          omega
      | empty => exact size_of_length (by simp)
    · refine size_of_length ?_
      have := hwork.length_le
      simp only [List.length_append]
      omega
  cases h with
  | merge hselect hwork => exact hselected hwork hselect
  | @freelist above below q p _ hselect _ _ hwork =>
      have hlt := hselected hwork hselect
      rcases above with - | ⟨l, above⟩
      · exact hlt
      · refine lt_trans (size_of_length ?_) hlt
        simp only [List.length_append, List.length_cons]
        omega

theorem sortedNewToplevel_mergesOf (bFreelistOnly : Bool) (h : MergesOf n levels) :
    MergesOf n (sortedNewToplevel bFreelistOnly levels) := by
  have hnew : ∀ rest, MergesOf n rest → MergesOf n (⟨0, 0, bFreelistOnly, 0⟩ :: rest) := by
    intro rest hrest r hr hne
    rcases List.mem_cons.mp hr with rfl | hr
    · exact absurd rfl hne
    · exact hrest r hr hne
  unfold sortedNewToplevel
  simp only
  split
  · exact hnew [] h
  · split_ifs
    · exact hnew _ fun r hr => h r (List.mem_cons_of_mem _ hr)
    · exact hnew _ h

/-- Calls that merge at least `n` levels at once, or let their merges finish, leave no
smaller merges. -/
theorem Reachable.mergesOf (h : Reachable (fun nMerge bDone => n ≤ nMerge ∨ bDone = true) levels) :
    MergesOf n levels := by
  induction h with
  | start => exact nofun
  | flush bFreelistOnly _ ih => exact sortedNewToplevel_mergesOf bFreelistOnly ih
  | work _ hC hturn ih =>
      refine hturn.mergesOf (fun hdone => ?_) ih
      rcases hC with hn | htrue
      · omega
      · rw [hdone] at htrue
        cases htrue

end Turns

/-! ### The loops -/

section Room

variable {dbMerge nMerge : ℕ} {levels levels' : List Level} {nRem : ℤ}

/-- The levels that turns of `sortedWork` can make of some levels. -/
def Turns (dbMerge nMerge : ℕ) : List Level → List Level → Prop :=
  Relation.ReflTransGen fun levels levels' => ∃ bDone, Turn dbMerge nMerge levels levels' bDone

/-- Every merge that a turn may leave has enough inputs, and while there are too many levels
there is work, now and after any turns. -/
structure Workable (dbMerge nMerge : ℕ) (levels : List Level) : Prop where
  merges : MergesOf (max 2 nMerge) levels
  work : ∀ levels', Turns dbMerge nMerge levels levels' → lsmDatabaseFull levels' = true →
    HasWork (max 2 nMerge) levels'

theorem Workable.turn (h : Workable dbMerge nMerge levels) {bDone : Bool}
    (hturn : Turn dbMerge nMerge levels levels' bDone) : Workable dbMerge nMerge levels' :=
  ⟨hturn.mergesOf (fun _ => le_refl _) h.merges,
    fun _ hturns => h.work _ (hturns.head ⟨bDone, hturn⟩)⟩

/-- A full database offers a level. -/
theorem Workable.selects (hk : max 2 nMerge ≤ dbMerge) (h : Workable dbMerge nMerge levels)
    (hfull : sortedDbIsFull dbMerge levels = true) (nLeft : ℕ) :
    (sortedSelectLevel dbMerge nMerge nLeft levels).isSome := by
  refine sortedSelectLevel_isSome (selectBest_isSome hk h.merges ?_)
  cases hmany : lsmDatabaseFull levels with
  | true => exact h.work levels .refl hmany
  | false => exact (hasWork_of_full hfull hmany).mono hk

/-- **A call that makes room**, of a full database, ends with a smaller one, and with no pages
left if that is still full. -/
theorem sortedWork_ends (hk : max 2 nMerge ≤ dbMerge) {start : List Level}
    (h : Workable dbMerge nMerge levels) (hfull : sortedDbIsFull dbMerge levels = true)
    (hsize : size levels < size start ∨ (levels = start ∧ 0 < nRem)) :
    SortedWork dbMerge nMerge (fun levels' nRem' => Workable dbMerge nMerge levels' ∧
      size levels' < size start ∧ (nRem' ≤ 0 ∨ sortedDbIsFull dbMerge levels' = false))
      levels nRem := by
  obtain ⟨n, hn⟩ : ∃ n : ℕ, nRem ≤ n := ⟨nRem.toNat, Int.self_le_toNat nRem⟩
  induction n generalizing levels nRem with
  | zero =>
      have hspent : nRem ≤ 0 := hn
      have hlt := hsize.resolve_right fun h => absurd h.2 (not_lt.mpr hspent)
      exact .spent hspent ⟨h, hlt, .inl hspent⟩
  | succ n ih =>
      by_cases hpos : 0 < nRem
      · have hless : ∀ {levels' bDone}, Turn dbMerge nMerge levels levels' bDone →
            size levels' < size start := by
          intro levels' bDone hturn
          rcases hsize with hlt | ⟨rfl, -⟩
          · exact hturn.size_lt.trans hlt
          · exact hturn.size_lt
        refine .turn hpos (h.selects hk hfull 0) ?_ ?_
        · intro levels' bDone nWork hturn _ hroom
          exact ⟨h.turn hturn, hless hturn, .inr hroom⟩
        · intro levels' bDone nWork hturn _ hstill
          exact ih (h.turn hturn) hstill (.inl (hless hturn)) (by omega)
      · have hspent := not_lt.mp hpos
        have hlt := hsize.resolve_right fun h => hpos h.2
        exact .spent hspent ⟨h, hlt, .inl hspent⟩

theorem SortedWork.mono {Q Q' : List Level → ℤ → Prop} (hQ : ∀ levels n, Q levels n → Q' levels n)
    (h : SortedWork dbMerge nMerge Q levels nRem) : SortedWork dbMerge nMerge Q' levels nRem := by
  induction h with
  | spent h h' => exact .spent h (hQ _ _ h')
  | idle h hselect h' => exact .idle h hselect (hQ _ _ h')
  | turn h hselect hroom _ ih =>
      exact .turn h hselect (fun l b w hturn hw hl => hQ _ _ (hroom l b w hturn hw hl)) ih

/-- **The loops end**: each call makes the levels fewer, or their merges shorter. -/
theorem roomLoop_ends (hk : max 2 nMerge ≤ dbMerge) {bFull : List Level → Bool} {nWork : ℤ}
    (hpos : 0 < nWork)
    (hbFull : ∀ levels, bFull levels = true → sortedDbIsFull dbMerge levels = true)
    (h : Workable dbMerge nMerge levels) : RoomLoop dbMerge nMerge bFull nWork levels := by
  induction hsize : size levels using WellFoundedLT.induction generalizing levels with
  | ind x ih =>
      subst hsize
      cases hfull : bFull levels with
      | false => exact .room hfull
      | true =>
          refine .work (fun levels' => Workable dbMerge nMerge levels' ∧
            size levels' < size levels) hfull ?_ fun levels' hless => ?_
          · exact (sortedWork_ends hk h (hbFull levels hfull) (.inr ⟨rfl, hpos⟩)).mono
              fun _ _ hQ => ⟨hQ.1, hQ.2.1⟩
          · exact ih _ hless.2 hless.1 rfl

theorem full_of_databaseFull (h : lsmDatabaseFull levels = true) :
    sortedDbIsFull dbMerge levels = true := by
  unfold sortedDbIsFull
  rw [h, Bool.true_or]

/-- The call before a flush leaves room, or no pages. -/
theorem makesRoom_holds (hk : max 2 nMerge ≤ dbMerge) (h : Workable dbMerge nMerge levels)
    (hfull : sortedDbIsFull dbMerge levels = true) : makesRoom dbMerge nMerge levels nRem := by
  by_cases hpos : 0 < nRem
  · exact (sortedWork_ends hk h hfull (.inr ⟨rfl, hpos⟩)).mono fun _ _ hQ => hQ.2.2
  · exact .spent (not_lt.mp hpos) (.inl (not_lt.mp hpos))

/-- **A full database offers a level**: if every unfinished merge has `pDb->nMerge` inputs,
then a level is selected unless there are too many levels without work; and where a call
merges no more than `pDb->nMerge` levels at once and finds work, the loops end and the
assertion holds.  Calls that merge `pDb->nMerge` levels or more, or finish their merges, leave
no other merges. -/
theorem fullDatabase_selects (hdb : 2 ≤ dbMerge) :
    (∀ levels, Reachable (fun nMerge bDone => dbMerge ≤ nMerge ∨ bDone = true) levels →
      MergesOf dbMerge levels) ∧
    ∀ levels, MergesOf dbMerge levels →
      ((sortedDbIsFull dbMerge levels = true →
          (sortedSelectLevel dbMerge dbMerge 0 levels).isSome) ↔
        (lsmDatabaseFull levels = true → HasWork dbMerge levels)) ∧
      ((∀ levels', Turns dbMerge dbMerge levels levels' → lsmDatabaseFull levels' = true →
        HasWork dbMerge levels') → lsmFlushTreeToDisk dbMerge levels) ∧
      ∀ nMerge ≤ dbMerge, (∀ levels', Turns dbMerge nMerge levels levels' →
          lsmDatabaseFull levels' = true → HasWork (max 2 nMerge) levels') →
        freelistLoop dbMerge nMerge levels ∧ (sortedDbIsFull dbMerge levels = true →
          ∀ nRem, makesRoom dbMerge nMerge levels nRem) := by
  refine ⟨fun _ h => h.mergesOf, fun levels hmerges => ⟨?_, fun hwork => ?_, ?_⟩⟩
  · have hmax : max 2 dbMerge = dbMerge := max_eq_right hdb
    constructor
    · exact fun h hmany => hasWork_of_select hdb (h (full_of_databaseFull hmany))
    · intro h hfull
      refine sortedSelectLevel_isSome (selectBest_isSome hmax.le (hmax.symm ▸ hmerges) ?_)
      rw [hmax]
      cases hmany : lsmDatabaseFull levels with
      | true => exact h hmany
      | false => exact hasWork_of_full hfull hmany
  · have hmax : max 2 dbMerge = dbMerge := max_eq_right hdb
    exact roomLoop_ends hmax.le (by decide) (fun _ h => h)
      ⟨hmax.symm ▸ hmerges, fun levels' hturns => by rw [hmax]; exact hwork levels' hturns⟩
  · intro nMerge hle hwork
    have hk : max 2 nMerge ≤ dbMerge := max_le hdb hle
    have h : Workable dbMerge nMerge levels :=
      ⟨fun p hp hne => hk.trans (hmerges p hp hne), hwork⟩
    exact ⟨roomLoop_ends hk (by decide) (fun _ => full_of_databaseFull) h,
      fun hfull _ => makesRoom_holds hk h hfull⟩

/-- Four flushes make four levels, which can be merged. -/
theorem fullDatabase_selects_fourLevels :
    (sortedSelectLevel 4 4 0 (List.replicate 4 ⟨0, 0, false, 0⟩)).isSome :=
  (((fullDatabase_selects (by decide)).2 _ (by decide)).1.mpr
    fun h => absurd h (by decide)) (by decide)

/-- Where no level is selected, a full database stays so. -/
theorem RoomLoop.selects {bFull : List Level → Bool} {nWork : ℤ} (hpos : 0 < nWork)
    (h : RoomLoop dbMerge nMerge bFull nWork levels) (hfull : bFull levels = true)
    (hnone : sortedSelectLevel dbMerge nMerge 0 levels = none) : False := by
  induction h with
  | room h =>
      rw [hfull] at h
      cases h
  | work Q _ hwork _ ih =>
      cases hwork with
      | spent h => omega
      | idle _ _ hQ => exact ih _ hQ hfull hnone
      | turn _ hselect =>
          rw [hnone] at hselect
          cases hselect

theorem makesRoom.selects (hpos : 0 < nRem) (h : makesRoom dbMerge nMerge levels nRem)
    (hfull : sortedDbIsFull dbMerge levels = true)
    (hnone : sortedSelectLevel dbMerge nMerge 0 levels = none) : False := by
  cases h with
  | spent h => omega
  | idle _ _ hQ =>
      rw [hfull] at hQ
      rcases hQ with h | h
      · omega
      · cases h
  | turn _ hselect =>
      rw [hnone] at hselect
      cases hselect

/-- Two levels are merged with `nMerge` 2 until the budget runs out, and four trees are flushed
after that. -/
def blockedLevels : List Level :=
  [⟨0, 0, false, 0⟩, ⟨0, 0, false, 0⟩, ⟨0, 0, false, 0⟩, ⟨0, 0, false, 0⟩, ⟨1, 2, false, 1⟩]

/-- **A full database without a level to work on**: four levels of age 0 have to wait for the
merge below them, and that merge has too few inputs to be selected. -/
theorem fullDatabase_blocked : Reachable (fun _ _ => True) blockedLevels ∧
    sortedDbIsFull 4 blockedLevels = true ∧ sortedSelectLevel 4 4 0 blockedLevels = none ∧
    ¬ lsmFlushTreeToDisk 4 blockedLevels ∧ ¬ makesRoom 4 4 blockedLevels 100 := by
  have hfull : sortedDbIsFull 4 blockedLevels = true := by decide
  have hnone : sortedSelectLevel 4 4 0 blockedLevels = none := by decide
  refine ⟨?_, hfull, hnone, fun h => h.selects (by decide) hfull hnone,
    fun h => h.selects (by decide) hfull hnone⟩
  have htwo : Reachable (fun _ _ => True) [⟨0, 0, false, 0⟩, ⟨0, 0, false, 0⟩] :=
    .flush false (.flush false .start)
  have hturn : Turn 4 2 [⟨0, 0, false, 0⟩, ⟨0, 0, false, 0⟩] [⟨1, 2, false, 1⟩] false :=
    @Turn.merge 4 2 _ [] [] _ ⟨1, 2, false, 2⟩ 2 _ (by decide) (.more (by decide))
  exact .flush false (.flush false (.flush false (.flush false (.work htwo trivial hturn))))

end Room

end LevelChoice

end Lsm

end MoVeBench
