/-
MoVeBench/Lsm/FreeMerge.lean

The worker's free list is merged into a level.

Behind the last user record of a merge `sortedWork` looks at the levels above.  If all of
them hold nothing but the free list, they become inputs of the merge, and so does the
worker's list; from then on a temporary list is used.  The system records begin there, and
what is written so far has user keys, so that the new inputs come in before anything that
they could hide is lost (`Before.handover`).  The walk of the free list finds the same
blocks after it, with those allocated and freed meanwhile, and so it does after a new top
level (`flush_freelist`).
-/
import MoVeBench.Lsm.FreeFlush

namespace MoVeBench

namespace Lsm

open Run

namespace FreeFlush

open FreeRecords

variable {κ V : Type} [LinearOrder κ]

/-! ### The merge -/

section Work

variable (bPtr : Key κ → Bool) (bIgnoreDelete : Bool)

/-- The cursor is at a user record. -/
def atUser (inputs : Inputs (Key κ) (Value V)) : Bool :=
  (multiCursorMin bIgnoreDelete inputs).any fun p => !isSystem p.cur.key

/-- The segments of the levels above, as the cursor visits them. -/
def topInputs (above : List (Level (Key κ) (Value V))) : Inputs (Key κ) (Value V) :=
  (above.filterMap Level.segment?).map dropSeparators

/-- `mergeInsertFreelistSegments` and `multiCursorVisitFreelist`: the free list, and the
segments of the levels above, become inputs. -/
def mergeInsertFreelist (above : List (Level (Key κ) (Value V))) (w : Writing κ V) :
    Writing κ V :=
  { w with
    mw :=
      { w.mw with
        inputs := multiCursorAdvance bIgnoreDelete none
          (freeRun w.freelist.worker.entries :: topInputs above ++ w.mw.inputs) }
    freelist := { w.freelist with temp := some SortedMap.empty } }

/-- A turn of the loop of `sortedWork`.  With `nMerge` 1 the free list is merged too, behind
the user records, if all levels above hold nothing else. -/
def sortedWorkTurn (nMerge : ℕ) (above : List (Level (Key κ) (Value V))) (changes : List (ℕ × ℤ))
    (w : Writing κ V) : Writing κ V :=
  let w' := mergeWorkerStep bPtr bIgnoreDelete changes w
  if nMerge = 1 && atUser bIgnoreDelete w.mw.inputs && !atUser bIgnoreDelete w'.mw.inputs &&
      above.all Level.freelistRun then mergeInsertFreelist bIgnoreDelete above w'
  else w'

/-- `n` turns of the loop; `changes i` are made by the `i`-th. -/
def sortedWorkLoop (nMerge : ℕ) (above : List (Level (Key κ) (Value V)))
    (changes : ℕ → List (ℕ × ℤ)) : ℕ → ℕ → Writing κ V → Writing κ V
  | 0, _, w => w
  | n + 1, i, w => sortedWorkLoop nMerge above changes n (i + 1)
      (sortedWorkTurn bPtr bIgnoreDelete nMerge above (changes i) w)

end Work

/-- The level that is left of a merge: none, if nothing was written. -/
def mergedLevel (lhs : Run (Key κ) (Value V)) (bFreeOnly : Bool) :
    List (Level (Key κ) (Value V)) :=
  if lhs.isEmpty then [] else [.run lhs bFreeOnly]

/-- `lsmFsSortedFinish`, if something was written; `changes'` are made by it. -/
def Writing.finish (w : Writing κ V) (changes' : List (ℕ × ℤ)) : Writing κ V :=
  if w.mw.lhs.isEmpty then w else w.change changes'

/-- The end of a merge: the temporary list replaces the worker's, if it is used; then
`lsmFsSortedDelete` frees the segments that were merged (`freed`). -/
def sortedWorkDone (above below : List (Level (Key κ) (Value V))) (bFreeOnly : Bool)
    (changes' freed : List (ℕ × ℤ)) (w : Writing κ V) : Snapshot κ V × List (ℕ × ℤ) :=
  let w := w.finish changes'
  let levels := (if w.freelist.temp.isSome then [] else above) ++
    mergedLevel w.mw.lhs bFreeOnly ++ below
  let f := appendAll ⟨storedList levels, w.freelist.temp.getD w.freelist.worker, none⟩ freed
  (⟨levels, f.worker⟩, w.log ++ freed)

/-- A level of a snapshot that `sortedWork` works on: what is written of it, its segments, the
separators of the next level, and the levels around it. -/
structure Work (κ V : Type) where
  lhs : Run (Key κ) (Value V)
  rhs : Inputs (Key κ) (Value V)
  pBtCsr : Option (Run (Key κ) (Value V))
  bFreeOnly : Bool
  above : List (Level (Key κ) (Value V))
  below : List (Level (Key κ) (Value V))

/-- `CURSOR_IGNORE_DELETE` is set if there is no older level. -/
def Work.bIgnoreDelete (work : Work κ V) : Bool := work.below.isEmpty && work.pBtCsr.isNone

/-- The inputs of the merge. -/
def Work.inputs (work : Work κ V) : Inputs (Key κ) (Value V) :=
  multiCursorAddRhs (!work.below.isEmpty && work.pBtCsr.isNone) work.rhs ++ work.pBtCsr.toList

/-- The merge of `sortedWork`, after `n` turns. -/
def Work.run (work : Work κ V) (bPtr : Key κ → Bool) (nMerge : ℕ) (changes : ℕ → List (ℕ × ℤ))
    (n : ℕ) (s : Snapshot κ V) : Writing κ V :=
  sortedWorkLoop bPtr work.bIgnoreDelete nMerge work.above changes n 0
    ⟨mergeWorkerInit work.lhs work.rhs work.pBtCsr (!work.below.isEmpty), s.freeList, []⟩

/-- `mergeWorkerDone`. -/
def mergeWorkerDone (b : Bool) (w : Writing κ V) : Bool := (multiCursorMin b w.mw.inputs).isNone

/-! ### Topics -/

section Topic

variable {b : Bool} {inputs : Inputs (Key κ) (Value V)} {l : Run (Key κ) (Value V)}
  {p : Cursor (Key κ) (Value V)} {bPtr : Key κ → Bool} {mw : MergeWorker (Key κ) (Value V)}

/-- All records have system keys. -/
def AllSystem (inputs : Inputs (Key κ) (Value V)) : Prop :=
  ∀ l ∈ inputs, ∀ r ∈ l, isSystem r.key = true

/-- The system records, which come last. -/
def systemPart (l : Run (Key κ) (Value V)) : Run (Key κ) (Value V) :=
  l.filter fun r => isSystem r.key

/-- No range is open where the system records begin. -/
def Closed (inputs : Inputs (Key κ) (Value V)) : Prop :=
  ∀ l ∈ inputs, Run.gap false (systemPart l) = false

omit [LinearOrder κ] in
theorem systemPart_cons (r : Record (Key κ) (Value V)) (l : Run (Key κ) (Value V)) :
    systemPart (r :: l) = if isSystem r.key then r :: systemPart l else systemPart l :=
  List.filter_cons

theorem user_of_le {k k' : Key κ} (h : k ≤ k') (hk' : isSystem k' = false) :
    isSystem k = false := by
  rcases hk : isSystem k with - | -
  · rfl
  · exact absurd (lt_of_topic hk' hk) (not_lt.mpr h)

theorem system_of_le {k k' : Key κ} (h : k ≤ k') (hk : isSystem k = true) :
    isSystem k' = true := by
  rcases hk' : isSystem k' with - | -
  · rw [user_of_le h hk'] at hk
    cases hk
  · rfl

theorem AllSystem.dropCur (h : AllSystem inputs) (p : Cursor (Key κ) (Value V)) :
    AllSystem (dropCur b inputs p) := by
  intro l hl r hr
  obtain ⟨m, hm, rfl⟩ := List.mem_map.mp hl
  exact h m hm r ((List.dropWhile_sublist _).subset hr)

theorem AllSystem.advance (h : AllSystem inputs) :
    AllSystem (multiCursorAdvance b none inputs) :=
  (multiCursorAdvance_induct h fun _ p h _ _ => h.dropCur p).1

/-- The cursor is not at a user record any more. -/
theorem AllSystem.not_atUser (h : AllSystem inputs) : atUser b inputs = false := by
  unfold atUser
  rcases hp : multiCursorMin b inputs with - | p
  · rfl
  · have hs := multiCursorMin_spec hp
    have hcur := h (p.cur :: p.rest) (by rw [hs.eq]; simp) p.cur List.mem_cons_self
    simp [hcur]

theorem atUser_iff : atUser b inputs = true ↔
    ∃ p, multiCursorMin b inputs = some p ∧ isSystem p.cur.key = false := by
  unfold atUser
  rcases multiCursorMin b inputs with - | p
  · simp
  · simp

/-- Where the cursor is not at a user record, no input has one. -/
theorem allSystem_of_not_atUser (hs : ∀ l ∈ inputs, Sorted l) (h : atUser b inputs = false) :
    AllSystem inputs := by
  intro l hl r hr
  rcases hp : multiCursorMin b inputs with - | p
  · rw [multiCursorMin_none hp l hl] at hr
    cases hr
  · have hcur : isSystem p.cur.key = true := by
      unfold atUser at h
      rw [hp] at h
      simpa using h
    refine system_of_le ?_ hcur
    exact (hs l hl).le_of_head (fun r' hr' =>
      place_key_le ((multiCursorMin_spec hp).le l hl r' hr')) r hr

/-- Leaving a user record behind, the cursor loses no system records. -/
theorem systemPart_dropTo {c : Record (Key κ) (Value V)} (hc : isSystem c.key = false) :
    systemPart (dropTo b (place b c) l) = systemPart l := by
  induction l with
  | nil => rfl
  | cons r l ih =>
      by_cases hr : place b r ≤ place b c
      · rw [dropTo_cons_le hr, ih, systemPart_cons, user_of_le (place_key_le hr) hc]
        rfl
      · rw [dropTo_eq_self (by rintro r' ⟨⟩; exact not_le.mp hr)]

theorem Closed.dropCur (h : Closed inputs) (hp : isSystem p.cur.key = false) :
    Closed (dropCur b inputs p) := by
  intro l hl
  obtain ⟨m, hm, rfl⟩ := List.mem_map.mp hl
  rw [systemPart_dropTo hp]
  exact h m hm

omit [LinearOrder κ] in
theorem Closed.gapAny (h : Closed inputs) (hsys : AllSystem inputs) : gapAny inputs = false := by
  unfold Run.gapAny
  rw [List.any_eq_false]
  intro l hl
  have hall : systemPart l = l := List.filter_eq_self.mpr (hsys l hl)
  have hgap := h l hl
  rw [hall] at hgap
  rw [hgap]
  decide

/-- The first of the system records is visited, so none is skipped. -/
theorem loc_system (h : Closed inputs) (hs : ∀ l ∈ inputs, Sorted l)
    (hp : multiCursorMin false inputs = some p) (hcur : isSystem p.cur.key = true) :
    mcursorLocationOk false p = true := by
  have hsys : AllSystem inputs := by
    refine allSystem_of_not_atUser (b := false) hs ?_
    unfold atUser
    rw [hp]
    simp [hcur]
  have hgap := h.gapAny hsys
  have hspec := multiCursorMin_spec hp
  unfold mcursorLocationOk
  rw [Bool.not_false, Bool.true_or, Bool.true_and, List.all_eq_true]
  intro l hl
  cases l with
  | nil => rfl
  | cons r l =>
      have hend : r.endDelete = false := by
        unfold Run.gapAny at hgap
        rw [List.any_eq_false] at hgap
        exact Bool.eq_false_iff.mpr (hgap (r :: l) (by rw [hspec.eq]; simp [hl]))
      simp [hend]

theorem Closed.advance (h : Closed inputs) (hs : ∀ l ∈ inputs, Sorted l) :
    Closed (multiCursorAdvance false none inputs) :=
  (multiCursorAdvance_induct (P := fun inputs => Closed inputs ∧ ∀ l ∈ inputs, Sorted l) ⟨h, hs⟩
    fun inputs p hP hp hloc => by
      obtain ⟨h, hs⟩ := hP
      refine ⟨h.dropCur ?_, fun l hl => ?_⟩
      · rcases hcur : isSystem p.cur.key with - | -
        · rfl
        · rw [loc_system h hs hp hcur] at hloc
          cases hloc
      · obtain ⟨m, hm, rfl⟩ := List.mem_map.mp hl
        exact sorted_dropTo (hs m hm)).1.1

end Topic

/-! ### The two parts of the merge -/

section Parts

variable {b : Bool} {bPtr : Key κ → Bool} {target : Key κ → Option (Option (Value V))}
  {f : FreeList} {w : Writing κ V} {changes : List (ℕ × ℤ)}
  {above : List (Level (Key κ) (Value V))} {nMerge : ℕ} {mw : MergeWorker (Key κ) (Value V)}

theorem steps_one {p : Cursor (Key κ) (Value V)} (hp : multiCursorMin b mw.inputs = some p) :
    mergeWorkerSteps bPtr b 1 mw = ⟨mw.lhs ++ (mergeWorkerOutput bPtr b p).toList,
      multiCursorAdvance b none (dropCur b mw.inputs p)⟩ := by
  rw [mergeWorkerSteps, hp]
  simp only
  rw [multiCursorAdvance_next hp]
  rfl

theorem mergeWorkerStep_mw : (mergeWorkerStep bPtr b changes w).mw =
    mergeWorkerSteps bPtr b 1 w.mw := by
  obtain ⟨l, -, -, heq⟩ := mergeWorkerStep_cases bPtr b changes w
  rw [heq]
  rfl

theorem AllSystem.steps_one (h : AllSystem mw.inputs) :
    AllSystem (mergeWorkerSteps bPtr b 1 mw).inputs := by
  rcases hp : multiCursorMin b mw.inputs with - | p
  · rw [mergeWorkerSteps_eof hp]
    exact h
  · rw [FreeFlush.steps_one hp]
    exact (h.dropCur p).advance

/-- Before the free list comes in: `f` is the list at the start of the merge, and `target` what
the levels say that are merged. -/
structure Before (b : Bool) (target : Key κ → Option (Option (Value V))) (f : FreeList)
    (w : Writing κ V) : Prop where
  merge : MergeOf b target w.mw
  closed : b = false → atUser b w.mw.inputs = true → Closed w.mw.inputs
  temp : w.freelist.temp = none
  stored : w.freelist.stored = f.stored
  blocks : BlocksOk w.freelist.worker
  noted : Noted f w

/-- What the list, over the levels above and what is merged, says about a block. -/
def overlay (worker : SortedMap ℕ ℤ) (above : List (Level (Key κ) (Value V)))
    (target : Key κ → Option (Option (Value V))) (iBlk : ℕ) : Option (Option (Value V)) :=
  (lookup (sysRun worker.entries : Run (Key κ) (Value V)) (sysKey iBlk)).or
    ((viewLevels above (sysKey iBlk)).or (target (sysKey iBlk)))

/-- The blocks are as in `o`, or have the same ids where deletes are ignored. -/
def SaysOf (b : Bool) (target : Key κ → Option (Option (Value V)))
    (o : ℕ → Option (Option (Value V))) : Prop :=
  ∀ iBlk, (b = false → target (sysKey iBlk) = o iBlk) ∧
    (target (sysKey iBlk)).join = (o iBlk).join

/-- Behind it: the worker's list does not change any more. -/
structure After (b : Bool) (above : List (Level (Key κ) (Value V)))
    (target : Key κ → Option (Option (Value V))) (f : FreeList) (w : Writing κ V) : Prop where
  merge : ∃ target', EchoMerge b target' w.mw ∧
    SaysOf b target' (overlay w.freelist.worker above target)
  system : AllSystem w.mw.inputs
  temp : w.freelist.temp.isSome = true
  stored : w.freelist.stored = f.stored
  blocks : BlocksOk w.freelist.worker
  noted : Noted f w

/-- Leaving a user record, the cursor opens no range of system records. -/
theorem Before.steps_closed (h : Before b target f w) (hb : b = false)
    (huser : atUser b w.mw.inputs = true) :
    Closed (mergeWorkerSteps bPtr b 1 w.mw).inputs := by
  subst hb
  obtain ⟨p, hp, hcur⟩ := atUser_iff.mp huser
  rw [steps_one hp]
  refine ((h.closed rfl huser).dropCur hcur).advance fun l hl => ?_
  obtain ⟨m, hm, rfl⟩ := List.mem_map.mp hl
  exact sorted_dropTo (h.merge.sorted m hm)

theorem Before.step (bPtr : Key κ → Bool) (h : Before b target f w)
    (hchanges : ∀ e ∈ changes, 0 < e.1) :
    Before b target f (mergeWorkerStep bPtr b changes w) := by
  obtain ⟨l, hl, -, heq⟩ := mergeWorkerStep_cases bPtr b changes w
  have hpos : ∀ e ∈ l, 0 < e.1 := by
    rcases hl with rfl | rfl
    · exact nofun
    · exact hchanges
  obtain ⟨hstored, htemp⟩ := appendAll_worker l h.temp
  rw [heq]
  refine ⟨h.merge.steps bPtr 1, fun hb huser => ?_, htemp, hstored.trans h.stored,
    blocksOk_appendAll h.blocks hpos,
    Noted.change (w := { w with mw := mergeWorkerSteps bPtr b 1 w.mw }) h.noted l⟩
  -- the cursor was at a user record before
  change atUser b (mergeWorkerSteps bPtr b 1 w.mw).inputs = true at huser
  rcases hwas : atUser b w.mw.inputs with - | -
  · rw [((allSystem_of_not_atUser h.merge.sorted hwas).steps_one).not_atUser] at huser
    cases huser
  · exact h.steps_closed hb hwas

theorem After.step (h : After b above target f w) :
    After b above target f (mergeWorkerStep bPtr b changes w) := by
  obtain ⟨l, -, -, heq⟩ := mergeWorkerStep_cases bPtr b changes w
  obtain ⟨hstored, hworker, htemp⟩ := appendAll_temp l h.temp
  obtain ⟨target', hmerge, htarget⟩ := h.merge
  rw [heq]
  refine ⟨⟨target', hmerge.steps bPtr 1, ?_⟩, h.system.steps_one, htemp, hstored.trans h.stored, ?_,
    Noted.change (w := { w with mw := mergeWorkerSteps bPtr b 1 w.mw }) h.noted l⟩
  · show SaysOf b target' (overlay (appendAll w.freelist l).worker above target)
    rw [hworker]
    exact htarget
  · show BlocksOk (appendAll w.freelist l).worker
    rw [hworker]
    exact h.blocks

/-- What is written before a user record has user keys. -/
theorem Before.lhs_user (h : Before b target f w) (huser : atUser b w.mw.inputs = true) :
    ∀ o ∈ (mergeWorkerSteps bPtr b 1 w.mw).lhs, isSystem o.key = false := by
  obtain ⟨p, hp, hcur⟩ := atUser_iff.mp huser
  rw [steps_one hp]
  intro o ho
  rcases List.mem_append.mp ho with ho | ho
  · exact user_of_le (h.merge.lt_cur hp o ho).le hcur
  · rw [h.merge.output_key hp bPtr o (Option.mem_toList.mp ho)]
    exact hcur

/-- The segments of free-list-only levels, as inputs. -/
theorem topInputs_ok (htop : ∀ l ∈ above.filterMap Level.segment?, SysSegment l) :
    ∀ l ∈ topInputs above, RunOk l ∧ ∀ r ∈ l, r.separator = false ∧ isSystem r.key = true := by
  intro l hl
  obtain ⟨m, hm, rfl⟩ := List.mem_map.mp hl
  obtain ⟨hok, hmem, -⟩ := (htop m hm).visited
  exact ⟨hok, hmem⟩

/-- They say what the levels say. -/
theorem view_topInputs (hrun : above.all Level.freelistRun = true)
    (htop : ∀ l ∈ above.filterMap Level.segment?, SysSegment l) (k : Key κ) :
    view (topInputs above) k = viewLevels above k := by
  induction above with
  | nil => rfl
  | cons lvl above ih =>
      obtain ⟨hlvl, hrest⟩ := Bool.and_eq_true_iff.mp hrun
      cases lvl with
      | merging lhs rhs pBtCsr splitKey bFreeOnly => cases hlvl
      | run lhs bFreeOnly =>
          have hlhs : SysSegment lhs := htop lhs List.mem_cons_self
          have htop' : ∀ l ∈ above.filterMap Level.segment?, SysSegment l := fun l hl =>
            htop l (List.mem_cons_of_mem _ hl)
          show view (dropSeparators lhs :: topInputs above) k = _
          rw [view_cons, viewLevels_cons, ih hrest htop', hlhs.visited.2.2]
          rfl

omit [LinearOrder κ] in
theorem mem_echo {l : Run (Key κ) (Value V)} {r : Record (Key κ) (Value V)} (h : r ∈ echo l) :
    ∃ r' ∈ l, r.key = r'.key := by
  obtain ⟨r', hr', hmem⟩ := List.mem_flatMap.mp h
  refine ⟨r', hr', ?_⟩
  split_ifs at hmem
  · rcases List.mem_cons.mp hmem with rfl | hmem
    · rfl
    · rw [List.mem_singleton.mp hmem]
      rfl
  · rw [List.mem_singleton.mp hmem]

theorem freeRun_system {worker : SortedMap ℕ ℤ} (h : BlocksOk worker) :
    ∀ r ∈ (freeRun worker.entries : Run (Key κ) (Value V)), isSystem r.key = true := by
  intro r hr
  rw [freeRun_eq h] at hr
  obtain ⟨r', hr', hkey⟩ := mem_echo hr
  rw [hkey]
  exact (mem_sysRun h hr').1

/-- What is merged says of the blocks what the levels said. -/
theorem MergeOf.says (h : MergeOf b target mw) (hlhs : ∀ o ∈ mw.lhs, isSystem o.key = false)
    (iBlk : ℕ) : (b = false → view mw.inputs (sysKey iBlk) = target (sysKey iBlk)) ∧
      (view mw.inputs (sysKey iBlk)).join = (target (sysKey iBlk)).join := by
  have hlook : lookupThen (view mw.inputs) mw.lhs (sysKey iBlk) = view mw.inputs (sysKey iBlk) :=
    lookupThen_after fun o ho => lt_of_topic (hlhs o ho) rfl
  cases b with
  | false =>
      have htells := (h.keep rfl).tells (sysKey iBlk)
      rw [hlook] at htells
      exact ⟨fun _ => htells, congrArg Option.join htells⟩
  | true =>
      have htells := (h.drop rfl).tells (sysKey iBlk)
      rw [hlook] at htells
      exact ⟨nofun, htells⟩

/-- **The free list comes in** behind the user records. -/
theorem Before.handover (h : Before b target f w) (hlhs : ∀ o ∈ w.mw.lhs, isSystem o.key = false)
    (hsys : AllSystem w.mw.inputs) (hgap : b = false → gapAny w.mw.inputs = false)
    (hrun : above.all Level.freelistRun = true)
    (htop : ∀ l ∈ above.filterMap Level.segment?, SysSegment l) :
    After b above target f (mergeInsertFreelist b above w) := by
  let news : Inputs (Key κ) (Value V) := sysRun w.freelist.worker.entries :: topInputs above
  have hmerge : MergeOf b target ⟨w.mw.lhs, w.mw.inputs⟩ := h.merge
  have hnews : ∀ l ∈ news, RunOk l ∧ ∀ r ∈ l, r.separator = false ∧ isSystem r.key = true := by
    intro l hl
    rcases List.mem_cons.mp hl with rfl | hl
    · refine ⟨sysRun_runOk h.blocks, fun r hr => ?_⟩
      obtain ⟨hkey, hsep⟩ := mem_sysRun h.blocks hr
      exact ⟨hsep, hkey⟩
    · exact topInputs_ok htop l hl
  have hraw : List.Forall₂ Echoes
      (freeRun w.freelist.worker.entries :: topInputs above ++ w.mw.inputs)
      (news ++ w.mw.inputs) :=
    .cons (.inr (freeRun_eq h.blocks)) (List.forall₂_same.mpr fun _ _ => .inl rfl)
  have hsorted : ∀ l ∈ news ++ w.mw.inputs, Sorted l := fun l hl =>
    (List.mem_append.mp hl).elim (fun hl => (hnews l hl).1.sorted) (hmerge.sorted l)
  have hinsert := hmerge.insert (fun l hl => (hnews l hl).1)
    (fun l hl r hr => ((hnews l hl).2 r hr).1)
    (fun o ho l hl r hr => lt_of_topic (hlhs o ho) ((hnews l hl).2 r hr).2) hgap
  refine ⟨⟨_, EchoMerge.advance hsorted hraw hinsert, fun iBlk => ?_⟩, ?_, rfl, h.stored,
    h.blocks, fun iBlk => ?_⟩
  · -- the new inputs are over those of the merge
    have hview : lookupThen (view (news ++ w.mw.inputs)) w.mw.lhs (sysKey iBlk) =
        (lookup (sysRun w.freelist.worker.entries : Run (Key κ) (Value V)) (sysKey iBlk)).or
          ((viewLevels above (sysKey iBlk)).or (view w.mw.inputs (sysKey iBlk))) := by
      rw [lookupThen_after fun o ho => lt_of_topic (hlhs o ho) rfl, view_append, view_cons,
        view_topInputs hrun htop, Option.or_assoc]
    obtain ⟨hkeep, hjoin⟩ := hmerge.says hlhs iBlk
    refine ⟨fun hb => ?_, ?_⟩
    · rw [hview, hkeep hb]
      rfl
    · rw [hview]
      exact join_or_congr (join_or_congr hjoin)
  · refine AllSystem.advance fun l hl => ?_
    rcases List.mem_append.mp hl with hl | hl
    · rcases List.mem_cons.mp hl with rfl | hl
      · exact freeRun_system h.blocks
      · exact fun r hr => ((topInputs_ok htop l hl).2 r hr).2
    · exact hsys l hl
  · -- the new temporary list is empty
    exact (iId?_beginTemp h.temp iBlk).trans (h.noted iBlk)

end Parts

/-! ### The loop -/

/-- What the loop of `sortedWork` keeps: it is in the one part or in the other. -/
inductive Parts (b : Bool) (above : List (Level (Key κ) (Value V)))
    (target : Key κ → Option (Option (Value V))) (f : FreeList) (w : Writing κ V) : Prop
  | before (h : Before b target f w)
  | after (h : After b above target f w)

section Loop

variable {b : Bool} {bPtr : Key κ → Bool} {target : Key κ → Option (Option (Value V))}
  {f : FreeList} {w : Writing κ V} {changes : ℕ → List (ℕ × ℤ)}
  {above : List (Level (Key κ) (Value V))} {nMerge : ℕ}

/-- A turn that does not bring the free list in. -/
theorem turn_of_not_atUser {l : List (ℕ × ℤ)} (h : atUser b w.mw.inputs = false) :
    sortedWorkTurn bPtr b nMerge above l w = mergeWorkerStep bPtr b l w := by
  unfold sortedWorkTurn
  rw [h, Bool.and_false]
  exact if_neg (by simp)

/-- A turn of the loop. -/
theorem Parts.turn (bPtr : Key κ → Bool) (nMerge : ℕ) {l : List (ℕ × ℤ)}
    (h : Parts b above target f w) (hl : ∀ e ∈ l, 0 < e.1)
    (htop : above.all Level.freelistRun = true →
      ∀ m ∈ above.filterMap Level.segment?, SysSegment m) :
    Parts b above target f (sortedWorkTurn bPtr b nMerge above l w) := by
  cases h with
  | after h =>
      rw [turn_of_not_atUser h.system.not_atUser]
      exact .after h.step
  | before h =>
      unfold sortedWorkTurn
      simp only
      split_ifs with hcond
      · -- the cursor comes to the end of the user records
        simp only [Bool.and_eq_true, Bool.not_eq_true'] at hcond
        obtain ⟨⟨⟨-, huser⟩, hleft⟩, hrun⟩ := hcond
        have hstep := h.step bPtr hl
        have hsys := allSystem_of_not_atUser hstep.merge.sorted hleft
        refine .after (hstep.handover ?_ hsys (fun hb => ?_) hrun (htop hrun))
        · rw [mergeWorkerStep_mw]
          exact h.lhs_user huser
        · rw [mergeWorkerStep_mw] at hsys ⊢
          exact (h.steps_closed hb huser).gapAny hsys
      · exact .before (h.step bPtr hl)

/-- The whole loop. -/
theorem Parts.loop (bPtr : Key κ → Bool) (nMerge : ℕ) (h : Parts b above target f w)
    (hchanges : ∀ i, ∀ e ∈ changes i, 0 < e.1)
    (htop : above.all Level.freelistRun = true →
      ∀ m ∈ above.filterMap Level.segment?, SysSegment m) (n i : ℕ) :
    Parts b above target f (sortedWorkLoop bPtr b nMerge above changes n i w) := by
  induction n generalizing i w with
  | zero => exact h
  | succ n ih => exact ih (h.turn bPtr nMerge (hchanges i) htop) (i + 1)

theorem size_step {l : List (ℕ × ℤ)} (h : mergeWorkerDone b w = false) :
    size (mergeWorkerStep bPtr b l w).mw.inputs < size w.mw.inputs := by
  obtain ⟨p, hp⟩ : ∃ p, multiCursorMin b w.mw.inputs = some p := by
    unfold mergeWorkerDone at h
    exact Option.isSome_iff_exists.mp (by rw [← Option.not_isNone, h]; rfl)
  rw [mergeWorkerStep_mw, steps_one hp]
  exact (size_multiCursorAdvance b _).trans_lt (size_dropCur hp)

/-- Where the free list is in, or does not come in, the loop ends. -/
theorem loop_done_of_allSystem (h : AllSystem w.mw.inputs) (i : ℕ) :
    ∃ n, mergeWorkerDone b (sortedWorkLoop bPtr b nMerge above changes n i w) = true := by
  induction hn : size w.mw.inputs using Nat.strong_induction_on generalizing w i with
  | h k ih =>
      subst hn
      rcases hdone : mergeWorkerDone b w with - | -
      · have hturn : sortedWorkTurn bPtr b nMerge above (changes i) w =
            mergeWorkerStep bPtr b (changes i) w := turn_of_not_atUser h.not_atUser
        have hsys : AllSystem (mergeWorkerStep bPtr b (changes i) w).mw.inputs := by
          rw [mergeWorkerStep_mw]
          exact h.steps_one
        obtain ⟨n, hn⟩ := ih _ (size_step hdone) hsys (i + 1) rfl
        refine ⟨n + 1, ?_⟩
        rw [sortedWorkLoop, hturn]
        exact hn
      · exact ⟨0, hdone⟩

/-- **The loop ends.** -/
theorem Parts.loop_done (h : Parts b above target f w)
    (hchanges : ∀ i, ∀ e ∈ changes i, 0 < e.1)
    (htop : above.all Level.freelistRun = true →
      ∀ m ∈ above.filterMap Level.segment?, SysSegment m) (i : ℕ) :
    ∃ n, mergeWorkerDone b (sortedWorkLoop bPtr b nMerge above changes n i w) = true := by
  induction hn : size w.mw.inputs using Nat.strong_induction_on generalizing w i with
  | h k ih =>
      subst hn
      rcases hdone : mergeWorkerDone b w with - | -
      · have hturn := h.turn bPtr nMerge (hchanges i) htop
        obtain ⟨n, hn⟩ : ∃ n, mergeWorkerDone b (sortedWorkLoop bPtr b nMerge above changes n
            (i + 1) (sortedWorkTurn bPtr b nMerge above (changes i) w)) = true := by
          cases hturn with
          | after h' => exact loop_done_of_allSystem h'.system (i + 1)
          | before h' =>
              refine ih _ ?_ (.before h') (i + 1) rfl
              unfold sortedWorkTurn at h' ⊢
              simp only at h' ⊢
              split_ifs at h' ⊢ with hcond
              · cases h'.temp
              · exact size_step hdone
        exact ⟨n + 1, hn⟩
      · exact ⟨0, hdone⟩

end Loop

/-! ### The levels that are merged -/

/-- What the levels are that `sortedWork` merges: one that is being written, or complete ones
that become one. -/
inductive Source (work : Work κ V) : List (Level (Key κ) (Value V)) → Prop
  | merging (splitKey : Option (Key κ))
      (h : (Level.merging work.lhs work.rhs work.pBtCsr splitKey work.bFreeOnly).Exact ∨
        work.below = [] ∧
          (Level.merging work.lhs work.rhs work.pBtCsr splitKey work.bFreeOnly).Values) :
      Source work [.merging work.lhs work.rhs work.pBtCsr splitKey work.bFreeOnly]
  | mergeSetup (group : List (Run (Key κ) (Value V) × Bool)) (hlhs : work.lhs = [])
      (hrhs : work.rhs = group.map Prod.fst) (hbt : ∀ l ∈ work.pBtCsr, SepRun l)
      (h : (∀ l ∈ work.rhs, RunOk l) ∨ work.below = [] ∧ work.pBtCsr = none ∧
        (∀ l ∈ work.rhs, ValuesOk l) ∧ ∀ l ∈ work.rhs.dropLast, Matched false l) :
      Source work (runLevels group)

/-- A merge among the levels of a snapshot: no range is deleted across topics, and the system
records above are in free-list-only segments. -/
structure WorkOk (work : Work κ V) (group : List (Level (Key κ) (Value V))) (s : Snapshot κ V) :
    Prop where
  levels : s.levels = work.above ++ group ++ work.below
  source : Source work group
  apart : Closed (work.rhs.map dropSeparators) ∨ AllSystem (work.rhs ++ work.pBtCsr.toList)
  top : work.above.all Level.freelistRun = true →
    ∀ l ∈ work.above.filterMap Level.segment?, SysSegment l
  blocks : BlocksOk s.freelist
  stored : StoredOk s.levels

section Source

variable {work : Work κ V} {group : List (Level (Key κ) (Value V))} {s : Snapshot κ V}

omit [LinearOrder κ] in
theorem Work.read_none (h : (!work.below.isEmpty && work.pBtCsr.isNone) = true) :
    work.pBtCsr = none :=
  Option.isNone_iff_eq_none.mp (Bool.and_eq_true_iff.mp h).2

omit [LinearOrder κ] in
theorem Work.ignoreDelete (h : work.bIgnoreDelete = true) :
    work.below = [] ∧ work.pBtCsr = none := by
  obtain ⟨hbelow, hnone⟩ := Bool.and_eq_true_iff.mp h
  exact ⟨List.isEmpty_iff.mp hbelow, Option.isNone_iff_eq_none.mp hnone⟩

omit [LinearOrder κ] in
/-- With deletes ignored, no separators are read. -/
theorem Work.inputs_ignore (h : work.bIgnoreDelete = true) :
    work.inputs = work.rhs.map dropSeparators := by
  obtain ⟨hbelow, hnone⟩ := Work.ignoreDelete h
  unfold Work.inputs
  rw [hbelow, hnone]
  show multiCursorAddRhs false work.rhs ++ [] = _
  rw [List.append_nil, multiCursorAddRhs_false]

theorem Source.keep (h : Source work group) (hb : work.bIgnoreDelete = false) :
    Merging (viewLevels group) ⟨work.lhs, work.inputs⟩ := by
  cases h with
  | merging splitKey h =>
      rw [show viewLevels [_] = _ from funext fun k => viewLevels_singleton _ k]
      rcases h with h | ⟨hbelow, h⟩
      · exact h.merging Work.read_none
      · have hnone : work.pBtCsr = none := h.separators
        rw [Work.bIgnoreDelete, hbelow, hnone] at hb
        cases hb
  | mergeSetup group hlhs hrhs hbt h =>
      rcases h with h | ⟨hbelow, hnone, -⟩
      · rw [viewLevels_runLevels, ← hrhs, hlhs]
        exact Merging.ofRuns h hbt Work.read_none
      · rw [Work.bIgnoreDelete, hbelow, hnone] at hb
        cases hb

theorem Source.drop (h : Source work group) (hb : work.bIgnoreDelete = true) :
    Dropping (fun k => (viewLevels group k).join) ⟨work.lhs, work.inputs⟩ := by
  obtain ⟨-, hnone⟩ := Work.ignoreDelete hb
  rw [Work.inputs_ignore hb]
  cases h with
  | merging splitKey h =>
      rw [show viewLevels [_] = _ from funext fun k => viewLevels_singleton _ k]
      rcases h with h | ⟨-, h⟩
      · obtain ⟨lhs, rhs, pBtCsr, bFreeOnly, above, below⟩ := work
        obtain rfl : pBtCsr = none := hnone
        exact h.values.dropping
      · exact h.dropping
  | mergeSetup group hlhs hrhs hbt h =>
      rw [viewLevels_runLevels, ← hrhs, hlhs]
      rcases h with h | ⟨-, -, hvalues, hmatched⟩
      · exact Dropping.ofRuns (fun l hl => ⟨(h l hl).sorted, (h l hl).bare⟩)
          fun l hl => (h l (List.dropLast_subset _ hl)).matched
      · exact Dropping.ofRuns hvalues hmatched

/-- The segments have bare separators, and so have those of the next level. -/
theorem Source.bare (h : Source work group) :
    (∀ l ∈ work.rhs, Bare l) ∧ ∀ l ∈ work.pBtCsr, SepRun l := by
  cases h with
  | merging splitKey h =>
      rcases h with h | ⟨-, h⟩
      · exact ⟨fun l hl => (h.segments l hl).2.2, h.separators⟩
      · refine ⟨fun l hl => (h.segments l hl).bare, ?_⟩
        rw [h.separators]
        exact nofun
  | mergeSetup group hlhs hrhs hbt h =>
      refine ⟨fun l hl => ?_, hbt⟩
      rcases h with h | ⟨-, -, hvalues, -⟩
      · exact (h l hl).bare
      · exact (hvalues l hl).bare

omit [LinearOrder κ] in
/-- A separator ends no range. -/
theorem gap_systemPart {l : Run (Key κ) (Value V)} (hb : Bare l)
    (h : Run.gap false (systemPart (dropSeparators l)) = false) :
    Run.gap false (systemPart l) = false := by
  induction l with
  | nil => rfl
  | cons r l ih =>
      have ih' := ih fun r' hr' => hb r' (List.mem_cons_of_mem _ hr')
      rw [systemPart_cons]
      cases hsep : r.separator with
      | false =>
          rw [dropSeparators, List.filter_cons_of_pos (by rw [hsep]; rfl), systemPart_cons] at h
          split_ifs at h ⊢
          · exact h
          · exact ih' h
      | true =>
          rw [dropSeparators, List.filter_cons_of_neg (by simp [hsep])] at h
          split_ifs
          · exact (hb r List.mem_cons_self hsep).2.2
          · exact ih' h

theorem WorkOk.closed (h : WorkOk work group s)
    (hclosed : Closed (work.rhs.map dropSeparators)) : Closed work.inputs := by
  obtain ⟨hbare, hbt⟩ := h.source.bare
  intro l hl
  rcases List.mem_append.mp hl with hl | hl
  · have hvisited : List.Forall₂ (fun _ m => Run.gap false (systemPart m) = false) work.rhs
        (multiCursorAddRhs (!work.below.isEmpty && work.pBtCsr.isNone) work.rhs) :=
      multiCursorAddRhs_induct
        (fun l hl => gap_systemPart (hbare l hl) (hclosed _ (List.mem_map_of_mem hl)))
        fun l hl => hclosed _ (List.mem_map_of_mem hl)
    obtain ⟨m, -, hm⟩ := exists_of_mem_right hvisited hl
    exact hm
  · have hsep := hbt l (Option.mem_toList.mp hl)
    rcases hpart : systemPart l with - | ⟨r, m⟩
    · rfl
    · have hr : r ∈ l := by
        refine List.mem_of_mem_filter (p := fun r => isSystem r.key) ?_
        rw [show l.filter (fun r => isSystem r.key) = r :: m from hpart]
        exact List.mem_cons_self
      exact (hsep.bare r hr (hsep.separator r hr)).2.2

omit [LinearOrder κ] in
theorem allSystem_inputs (h : AllSystem (work.rhs ++ work.pBtCsr.toList)) :
    AllSystem work.inputs := by
  intro l hl r hr
  rcases List.mem_append.mp hl with hl | hl
  · have hvisited : List.Forall₂ (fun l m => m ⊆ l) work.rhs
        (multiCursorAddRhs (!work.below.isEmpty && work.pBtCsr.isNone) work.rhs) :=
      multiCursorAddRhs_induct (fun _ _ _ h => h) fun _ _ => List.filter_sublist.subset
    obtain ⟨m, hm, hsub⟩ := exists_of_mem_right hvisited hl
    exact h m (List.mem_append_left _ hm) r (hsub hr)
  · exact h l (List.mem_append_right _ hl) r hr

/-- The merge begins. -/
theorem WorkOk.before (h : WorkOk work group s) :
    Before work.bIgnoreDelete (viewLevels group) s.freeList
      ⟨mergeWorkerInit work.lhs work.rhs work.pBtCsr (!work.below.isEmpty), s.freeList, []⟩ := by
  have hinit : mergeWorkerInit work.lhs work.rhs work.pBtCsr (!work.below.isEmpty) =
      ⟨work.lhs, multiCursorAdvance work.bIgnoreDelete none work.inputs⟩ := by
    unfold mergeWorkerInit
    rw [Bool.not_not]
    rfl
  rw [hinit]
  refine ⟨MergeOf.advance h.source.keep h.source.drop, fun hb huser => ?_, rfl, rfl, h.blocks,
    fun _ => rfl⟩
  rcases h.apart with hclosed | hsys
  · have hm := h.source.keep hb
    rw [hb]
    exact (h.closed hclosed).advance hm.inputs.sorted
  · rw [((allSystem_inputs hsys).advance).not_atUser] at huser
    cases huser

end Source

/-! ### The end of the merge -/

section Done

variable {b : Bool} {work : Work κ V} {group above below : List (Level (Key κ) (Value V))}
  {s : Snapshot κ V} {target : Key κ → Option (Option (Value V))} {f : FreeList}
  {w : Writing κ V} {lhs : Run (Key κ) (Value V)} {k : Key κ} {log : List (ℕ × ℤ)}
  {levels : List (Level (Key κ) (Value V))} {worker : SortedMap ℕ ℤ}

theorem viewLevels_merged (lhs : Run (Key κ) (Value V)) (bFreeOnly : Bool) (k : Key κ) :
    viewLevels (mergedLevel lhs bFreeOnly ++ below) k = (lookup lhs k).or (viewLevels below k) := by
  unfold mergedLevel
  split_ifs with hnil
  · rw [List.isEmpty_iff.mp hnil]
    rfl
  · exact viewLevels_cons _ k

/-- What is written stands for what was merged; where deletes are ignored there is nothing
below it. -/
theorem join_below {o : Option (Option (Value V))} (hnone : b = true → below = [])
    (h : (b = false → lookup lhs k = o) ∧ (lookup lhs k).join = o.join) :
    ((lookup lhs k).or (viewLevels below k)).join = (o.or (viewLevels below k)).join := by
  cases b with
  | false => rw [h.1 rfl]
  | true =>
      rw [hnone rfl, show viewLevels [] k = none from rfl, Option.or_none, Option.or_none]
      exact h.2

/-- The segments that were merged are freed. -/
theorem Kept.freed (h : Kept s ⟨levels, worker⟩ log) (freed : List (ℕ × ℤ)) :
    Kept s ⟨levels, (appendAll ⟨storedList levels, worker, none⟩ freed).worker⟩ (log ++ freed) := by
  refine ⟨fun iBlk => ?_, h.stored⟩
  obtain ⟨hstored, htemp⟩ :=
    appendAll_worker (f := ⟨storedList levels, worker, none⟩) freed rfl
  have hlist : ∀ f : FreeList, f.stored = storedList levels → f.temp = none →
      Snapshot.freeList ⟨levels, f.worker⟩ = f := by
    rintro ⟨stored, worker', temp⟩ rfl rfl
    rfl
  rw [hlist _ hstored htemp, appendAll_append]
  exact iId?_appendAll h.free iBlk

/-- The end of a merge without the free list. -/
theorem Before.kept (h : Before b (viewLevels group) s.freeList w)
    (hlevels : s.levels = above ++ group ++ below) (hnone : b = true → below = [])
    (hstored : StoredOk s.levels) (hdone : mergeWorkerDone b w = true) (bFreeOnly : Bool) :
    Kept s ⟨above ++ mergedLevel w.mw.lhs bFreeOnly ++ below, w.freelist.worker⟩ w.log := by
  have hid : ∀ iBlk, storedId (above ++ mergedLevel w.mw.lhs bFreeOnly ++ below) iBlk =
      storedId s.levels iBlk := by
    intro iBlk
    have hmerged := join_below hnone
      (h.merge.done (Option.isNone_iff_eq_none.mp hdone) (sysKey iBlk))
    unfold storedId
    rw [hlevels, List.append_assoc, List.append_assoc, viewLevels_append, viewLevels_merged,
      viewLevels_append, viewLevels_append, join_or_congr hmerged]
  have hstored' : StoredOk (above ++ mergedLevel w.mw.lhs bFreeOnly ++ below) :=
    fun iBlk iId hiId => hstored iBlk iId (by rw [← hid]; exact hiId)
  refine ⟨fun iBlk => ?_, hstored'⟩
  rw [← h.noted iBlk]
  unfold FreeList.iId? Snapshot.freeList
  simp only
  rw [h.temp, h.stored]
  show layer w.freelist.worker (layer (storedList _) none iBlk) iBlk =
    layer w.freelist.worker (layer (storedList s.levels) none iBlk) iBlk
  rw [hstored'.layer, hstored.layer, hid]

/-- The end of a merge with the free list. -/
theorem After.kept (h : After b above (viewLevels group) s.freeList w)
    (hlevels : s.levels = above ++ group ++ below) (hnone : b = true → below = [])
    (hstored : StoredOk s.levels) (hdone : mergeWorkerDone b w = true) (bFreeOnly : Bool)
    {temp : SortedMap ℕ ℤ} (htemp : w.freelist.temp = some temp) :
    Kept s ⟨mergedLevel w.mw.lhs bFreeOnly ++ below, temp⟩ w.log := by
  obtain ⟨target', hmerge, htell⟩ := h.merge
  have hid : ∀ iBlk, storedId (mergedLevel w.mw.lhs bFreeOnly ++ below) iBlk =
      layer w.freelist.worker (storedId s.levels iBlk) iBlk := by
    intro iBlk
    obtain ⟨hkeep, hjoin⟩ := hmerge.done (Option.isNone_iff_eq_none.mp hdone) (sysKey iBlk)
    obtain ⟨htell, htellJoin⟩ := htell iBlk
    have hmerged := join_below hnone
      ⟨fun hb => (hkeep hb).trans (htell hb), hjoin.trans htellJoin⟩
    refine storedId_flush ?_
    rw [viewLevels_merged, hmerged, overlay, lookup_sysRun h.blocks, hlevels, List.append_assoc,
      viewLevels_append, viewLevels_append, Option.or_assoc, Option.or_assoc]
  have hstored' := hstored.flush hid
  refine ⟨fun iBlk => ?_, hstored'⟩
  refine Noted.swap h.noted htemp (fun iBlk => ?_) iBlk
  rw [hstored'.layer, hid, h.stored]
  exact congrArg (layer w.freelist.worker · iBlk) hstored.layer.symm

theorem Parts.finish (h : Parts b above target f w) {changes' : List (ℕ × ℤ)}
    (hchanges : ∀ e ∈ changes', 0 < e.1) : Parts b above target f (w.finish changes') := by
  unfold Writing.finish
  split_ifs
  · exact h
  · cases h with
    | before h =>
        obtain ⟨hstored, htemp⟩ := appendAll_worker changes' h.temp
        exact .before ⟨h.merge, h.closed, htemp, hstored.trans h.stored,
          blocksOk_appendAll h.blocks hchanges, h.noted.change changes'⟩
    | after h =>
        obtain ⟨hstored, hworker, htemp⟩ := appendAll_temp changes' h.temp
        refine .after ⟨?_, h.system, htemp, hstored.trans h.stored, ?_, h.noted.change changes'⟩
        · obtain ⟨target', hmerge, htell⟩ := h.merge
          refine ⟨target', hmerge, ?_⟩
          show SaysOf b target' (overlay (appendAll w.freelist changes').worker above target)
          rw [hworker]
          exact htell
        · show BlocksOk (appendAll w.freelist changes').worker
          rw [hworker]
          exact h.blocks

/-- **A merge keeps the free list**, with the changes made while it runs. -/
theorem Parts.done (h : Parts b above (viewLevels group) s.freeList w)
    (hlevels : s.levels = above ++ group ++ below) (hnone : b = true → below = [])
    (hstored : StoredOk s.levels) (hdone : mergeWorkerDone b w = true) (bFreeOnly : Bool)
    {changes' : List (ℕ × ℤ)} (hchanges : ∀ e ∈ changes', 0 < e.1) (freed : List (ℕ × ℤ)) :
    Kept s (sortedWorkDone above below bFreeOnly changes' freed w).1
      (sortedWorkDone above below bFreeOnly changes' freed w).2 := by
  have hfinish := h.finish hchanges
  have hlhs : (w.finish changes').mw = w.mw := by
    unfold Writing.finish
    split_ifs <;> rfl
  have hdone' : mergeWorkerDone b (w.finish changes') = true := by
    unfold mergeWorkerDone
    rw [hlhs]
    exact hdone
  refine Kept.freed ?_ freed
  show Kept s ⟨(if (w.finish changes').freelist.temp.isSome then [] else above) ++
    mergedLevel (w.finish changes').mw.lhs bFreeOnly ++ below,
    (w.finish changes').freelist.temp.getD (w.finish changes').freelist.worker⟩
    (w.finish changes').log
  cases hfinish with
  | before h =>
      rw [h.temp]
      exact h.kept hlevels hnone hstored hdone' bFreeOnly
  | after h =>
      obtain ⟨temp, htemp⟩ := Option.isSome_iff_exists.mp h.temp
      rw [htemp]
      exact h.kept hlevels hnone hstored hdone' bFreeOnly htemp

end Done

/-! ### The free list and the levels -/

/-- `lsmWalkFreelist` finds in `s'` what it found in `s`, with the changes that were made: it
makes the same calls, whatever the callback does. -/
def SameWalk (s : Snapshot κ V) (s' : Snapshot κ V × List (ℕ × ℤ)) : Prop :=
  ∀ (τ : Type) (x : τ → ℕ × ℤ → τ × Bool) (t : τ) (bReverse : Bool),
    FreeWalk.lsmWalkFreelist s'.1.freeList bReverse x t =
      FreeWalk.lsmWalkFreelist (appendAll s.freeList s'.2) bReverse x t

theorem Kept.sameWalk {s s' : Snapshot κ V} {log : List (ℕ × ℤ)} (h : Kept s s' log)
    (hs : StoredOk s.levels) : SameWalk s (s', log) := by
  intro τ x t bReverse
  refine walk_congr h.stored.entries ?_ h.free bReverse x t
  rw [(appendAll_worker log rfl).1]
  exact hs.entries

/-- **Writing the free list into the levels** leaves the free list as it was, with the blocks
that were allocated and freed meanwhile: into a new top level, and into a level that is
merged, whose merge comes to its end. -/
theorem flush_freelist (bPtr : Key κ → Bool) (changes : ℕ → List (ℕ × ℤ))
    (changes' : List (ℕ × ℤ)) (s : Snapshot κ V) :
    (∀ trees pBtCsr bFreeOnly, ToplevelOk trees pBtCsr s →
      SameWalk s (sortedNewToplevel bPtr trees pBtCsr bFreeOnly changes changes' s)) ∧
    ∀ (work : Work κ V) group nMerge freed, WorkOk work group s →
      (∀ i, ∀ e ∈ changes i, 0 < e.1) → (∀ e ∈ changes', 0 < e.1) →
      (∃ n, mergeWorkerDone work.bIgnoreDelete (work.run bPtr nMerge changes n s) = true) ∧
      ∀ n, mergeWorkerDone work.bIgnoreDelete (work.run bPtr nMerge changes n s) = true →
        SameWalk s (sortedWorkDone work.above work.below work.bFreeOnly changes' freed
          (work.run bPtr nMerge changes n s)) := by
  refine ⟨fun trees pBtCsr bFreeOnly h => ?_, fun work group nMerge freed h hpos hpos' => ?_⟩
  · exact (sortedNewToplevel_kept h bPtr bFreeOnly changes changes').sameWalk h.stored
  · have hstart : Parts work.bIgnoreDelete work.above (viewLevels group) s.freeList
        ⟨mergeWorkerInit work.lhs work.rhs work.pBtCsr (!work.below.isEmpty), s.freeList, []⟩ :=
      .before h.before
    refine ⟨hstart.loop_done hpos h.top 0, fun n hdone => ?_⟩
    have hend := hstart.loop bPtr nMerge hpos h.top n 0
    exact (hend.done h.levels (fun hb => (Work.ignoreDelete hb).1) h.stored hdone work.bFreeOnly
      hpos' freed).sameWalk h.stored

/-- A user record and block 9, freed at snapshot 3, are under a free-list-only level that has
block 4.  The worker's list takes 4 back and has 7.  While the levels are written 7 is
allocated and 2 is freed. -/
theorem flush_freelist_seven :
    let user : Run (Key ℕ) (Value ℕ) :=
      [⟨toLex (.inl 5), .insert (.inl 8), false, false, false⟩, insertRecord (9, 3) false false]
    let free : Run (Key ℕ) (Value ℕ) := [insertRecord (4, 2) false false]
    let s : Snapshot ℕ ℕ := ⟨[.run free true, .run user false], ⟨[(4, -1), (7, 6)], by decide⟩⟩
    let work : Work ℕ ℕ := ⟨[], [user], none, false, [.run free true], []⟩
    let changes : ℕ → List (ℕ × ℤ) := fun i => if i = 0 then [(7, -1)] else []
    SameWalk s (sortedNewToplevel (fun _ => true) [] none true changes [(2, 10)] s) ∧
      ∃ n, SameWalk s (sortedWorkDone work.above work.below false [(2, 10)] []
        (work.run (fun _ => true) 1 changes n s)) := by
  intro user free s work changes
  have hfree : RunOk free := ⟨List.pairwise_singleton _ _, ⟨rfl, trivial⟩,
    by simp [Bare, free, insertRecord], rfl⟩
  have huser : RunOk user := ⟨List.pairwise_pair.mpr (lt_of_topic rfl rfl),
    ⟨rfl, rfl, trivial⟩, by simp [Bare, user, insertRecord], rfl⟩
  have htop : SysSegment free := ⟨hfree, by simp [free, insertRecord, isSystem, sysKey]⟩
  have hblocks : BlocksOk s.freelist := by simp [BlocksOk, s]
  have hstored : StoredOk s.levels := by
    intro iBlk iId hid
    have hlt : (toLex (.inl 5) : Key ℕ) < sysKey iBlk := lt_of_topic rfl rfl
    simp only [storedId, viewLevels, s, free, user, insertRecord, Level.lookup, Run.lookup,
      lookupThen, List.findSome?_cons, List.findSome?_nil, sysKey_lt, sysKey_inj,
      if_neg hlt.not_gt, if_neg hlt.ne'] at hid
    split_ifs at hid <;> simp [Data.decides] at hid <;> omega
  have hwork : WorkOk work [.run user false] s := by
    refine ⟨rfl, .mergeSetup [(user, false)] rfl rfl (by rintro _ ⟨⟩) (.inl fun l hl => ?_),
      .inl fun l hl => ?_, fun _ l hl => ?_, hblocks, hstored⟩
    · rw [List.mem_singleton.mp hl]
      exact huser
    · rw [List.mem_singleton.mp hl]
      rfl
    · rw [List.mem_singleton.mp hl]
      exact htop
  have hpos : ∀ i, ∀ e ∈ changes i, 0 < e.1 := by
    intro i
    simp only [changes]
    split_ifs <;> decide
  have hflush := flush_freelist (fun _ => true) changes [(2, 10)] s
  obtain ⟨⟨n, hn⟩, hwalk⟩ := hflush.2 work _ 1 [] hwork hpos (by decide)
  refine ⟨hflush.1 [] none true ⟨by rintro l ⟨⟩, by rintro l ⟨⟩, by rintro l ⟨⟩, by rintro ⟨⟩, ?_,
    hblocks, hstored⟩, n, hwalk n hn⟩
  rintro l ⟨⟩
  exact htop

end FreeFlush

end Lsm

end MoVeBench
